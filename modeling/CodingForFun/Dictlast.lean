import CodingForFun.Lib.Dict
import CodingForFun.Lib.Runs

/-!
# The dictionary with `last`

The class `Dictwithlast` of `src/careercup/dictlast.py`. Every `set` and every `get` pushes its key on
one stack; `delete` takes the top off when it is the deleted key, and leaves all other entries of that
key where they are.

A method is a function to its outcome and the object it leaves behind, which an exception does not put
back. The history of the keys that were set or read, latest first, and the stack agree on the first key
of any set of present keys (`Tracks`). So `last` is right exactly when the top is a present key, and in a
run it stays right as long as a deletion of the top uncovers one (`always_lastOk_iff`).

With a key that is not present, `get` and `delete` raise `KeyError`; but `get` has pushed the key before
it looks it up (`failsClean_iff`).
-/

namespace CodingForFun.Dictlast

open Lib

variable {K V : Type} [DecidableEq K]

/-- `class Dictwithlast` -/
structure Dictwithlast (K V : Type) where
  dict : Dict K V
  stack : List K

namespace Dictwithlast

/-- `Dictwithlast.__init__` -/
def init : Dictwithlast K V := ⟨∅, []⟩

def set (d : Dictwithlast K V) (key : K) (value : V) : Except PyError Unit × Dictwithlast K V :=
  (.ok (), { dict := d.dict.setItem key value, stack := d.stack ++ [key] })

def get (d : Dictwithlast K V) (key : K) : Except PyError V × Dictwithlast K V :=
  let d := { d with stack := d.stack ++ [key] }
  (d.dict.getItem key, d)

/-- `self._stack[-1]` -/
def last (d : Dictwithlast K V) : Except PyError K :=
  match d.stack.getLast? with
  | none => .error .indexError
  | some key => .ok key

def delete (d : Dictwithlast K V) (key : K) : Except PyError Unit × Dictwithlast K V :=
  match d.dict.delItem key with
  | .error e => (.error e, d)
  | .ok dict =>
    let d := { d with dict }
    match d.last with
    | .error e => (.error e, d)
    | .ok top =>
      if top = key then
        (.ok (), { d with stack := d.stack.dropLast })
      else
        (.ok (), d)

end Dictwithlast

inductive Op (K V : Type)
  | set (key : K) (value : V)
  | get (key : K)
  | delete (key : K)

/-- The object, with the keys that were set or read, the latest one first. -/
structure Run (K V : Type) where
  obj : Dictwithlast K V
  uses : List K

def Run.start : Run K V := ⟨.init, []⟩

def step (r : Run K V) : Op K V → Except PyError (Run K V)
  | .set key value => do
    let (result, d) := r.obj.set key value
    result
    pure ⟨d, key :: r.uses⟩
  | .get key => do
    let (result, d) := r.obj.get key
    let _ ← result
    pure ⟨d, key :: r.uses⟩
  | .delete key => do
    let (result, d) := r.obj.delete key
    result
    pure ⟨d, r.uses⟩

/-- `get` and `delete` are called with keys that are present. -/
def Present (r : Run K V) : Op K V → Prop
  | .set _ _ => True
  | .get key => key ∈ r.obj.dict
  | .delete key => key ∈ r.obj.dict

instance (r : Run K V) : (op : Op K V) → Decidable (Present r op)
  | .set _ _ => .isTrue trivial
  | .get key => inferInstanceAs (Decidable (key ∈ r.obj.dict))
  | .delete key => inferInstanceAs (Decidable (key ∈ r.obj.dict))

/-- Among the keys that are present, `key` was set or read last. -/
def Latest (r : Run K V) (key : K) : Prop :=
  key ∈ r.obj.dict ∧ ∃ later before, r.uses = later ++ key :: before ∧ ∀ k ∈ later, k ∉ r.obj.dict

/-- What `last` is for. -/
def LastOk (r : Run K V) : Prop :=
  (∃ k, k ∈ r.obj.dict) → ∃ key, r.obj.last = .ok key ∧ Latest r key

/-- If the top of the stack is deleted, then it is the only key present, or the entry below it is another
key that is present. -/
def Uncovers (r : Run K V) : Op K V → Prop
  | .set _ _ => True
  | .get _ => True
  | .delete key => r.obj.stack.getLast? = some key → (∀ k ∈ r.obj.dict, k = key) ∨
      ∃ below, r.obj.stack.dropLast.getLast? = some below ∧ below ≠ key ∧ below ∈ r.obj.dict

/-- Of any keys that are present, the stack and the history give the same one first. -/
def Tracks (r : Run K V) : Prop :=
  ∀ p : K → Bool, (∀ k, p k = true → k ∈ r.obj.dict) → r.obj.stack.reverse.find? p = r.uses.find? p

section tracks

variable {r : Run K V} {key top : K} {front : List K}

omit [DecidableEq K] in
theorem Tracks.push (h : Tracks r) {dict : Dict K V}
    (hdict : ∀ k, k ∈ dict → k = key ∨ k ∈ r.obj.dict) :
    Tracks ⟨⟨dict, r.obj.stack ++ [key]⟩, key :: r.uses⟩ := by
  intro p hp
  rw [List.reverse_concat]
  by_cases hkey : p key = true
  · rw [List.find?_cons_of_pos hkey, List.find?_cons_of_pos hkey]
  · rw [List.find?_cons_of_neg hkey, List.find?_cons_of_neg hkey]
    refine h p fun k hk => (hdict k (hp k hk)).resolve_left ?_
    rintro rfl
    exact hkey hk

theorem Tracks.delete (h : Tracks r) {stack : List K}
    (hstack : r.obj.stack = stack ∨ r.obj.stack = stack ++ [key]) :
    Tracks ⟨⟨r.obj.dict.erase key, stack⟩, r.uses⟩ := by
  intro p hp
  have hkey : ¬ p key = true := fun hk => (AList.mem_erase.mp (hp key hk)).1 rfl
  rw [← h p fun k hk => (AList.mem_erase.mp (hp k hk)).2]
  rcases hstack with hstack | hstack
  · rw [hstack]
  · rw [hstack, List.reverse_concat, List.find?_cons_of_neg hkey]

omit [DecidableEq K] in
theorem last_of_top {d : Dictwithlast K V} (h : d.stack = front ++ [top]) : d.last = .ok top := by
  rw [Dictwithlast.last, h, List.getLast?_concat]

theorem Tracks.lastOk_iff (h : Tracks r) :
    LastOk r ↔ (∀ k, k ∉ r.obj.dict) ∨ ∃ front top, r.obj.stack = front ++ [top] ∧ top ∈ r.obj.dict := by
  constructor
  · intro hlast
    by_cases hsome : ∃ k, k ∈ r.obj.dict
    · obtain ⟨top, htop, hmem, -⟩ := hlast hsome
      cases hstack : r.obj.stack.getLast? with
      | none => simp [Dictwithlast.last, hstack] at htop
      | some top' =>
        obtain ⟨front, hfront⟩ := List.getLast?_eq_some_iff.mp hstack
        obtain rfl := Except.ok.inj ((last_of_top hfront).symm.trans htop)
        exact .inr ⟨front, top', hfront, hmem⟩
    · exact .inl (not_exists.mp hsome)
  · rintro (hnone | ⟨front, top, htop, hmem⟩)
    · rintro ⟨k, hk⟩
      exact absurd hk (hnone k)
    · intro _
      obtain ⟨p, hp⟩ : ∃ p : K → Bool, ∀ k, p k = true ↔ k ∈ r.obj.dict :=
        ⟨fun k => decide (k ∈ r.obj.dict), fun _ => decide_eq_true_iff⟩
      have hfind := h p fun k => (hp k).mp
      rw [htop, List.reverse_concat, List.find?_cons_of_pos ((hp top).mpr hmem)] at hfind
      obtain ⟨-, later, before, huses, hlater⟩ := List.find?_eq_some_iff_append.mp hfind.symm
      refine ⟨top, last_of_top htop, hmem, later, before, huses, fun k hk => ?_⟩
      rw [← hp k]
      simpa using hlater k hk

end tracks

/-! ### The methods -/

section methods

variable {r : Run K V}

theorem Tracks.set (h : Tracks r) (key : K) (value : V) :
    ∃ r', step r (.set key value) = .ok r' ∧ Tracks r' ∧ LastOk r' := by
  have h' : Tracks ⟨⟨r.obj.dict.setItem key value, r.obj.stack ++ [key]⟩, key :: r.uses⟩ :=
    h.push fun k hk => (AList.mem_insert _).mp hk
  exact ⟨_, rfl, h', h'.lastOk_iff.mpr (.inr ⟨_, key, rfl, (AList.mem_insert _).mpr (.inl rfl)⟩)⟩

theorem Tracks.get (h : Tracks r) {key : K} (hkey : key ∈ r.obj.dict) :
    ∃ r', step r (.get key) = .ok r' ∧ Tracks r' ∧ LastOk r' := by
  have h' : Tracks ⟨⟨r.obj.dict, r.obj.stack ++ [key]⟩, key :: r.uses⟩ := h.push fun k hk => .inr hk
  obtain ⟨value, -, hget⟩ := Dict.getItem_of_mem hkey
  refine ⟨_, ?_, h', h'.lastOk_iff.mpr (.inr ⟨_, key, rfl, hkey⟩)⟩
  simp only [step, Dictwithlast.get, hget, ok_bind, pure_eq_ok]

/-- While `last` is right, a deletion keeps it right exactly when it uncovers a present key. -/
theorem Tracks.delete_ok (h : Tracks r) (hlast : LastOk r) {key : K} (hkey : key ∈ r.obj.dict) :
    ∃ r', step r (.delete key) = .ok r' ∧ Tracks r' ∧ (LastOk r' ↔ Uncovers r (.delete key)) := by
  obtain ⟨front, top, hstack, htop⟩ := (h.lastOk_iff.mp hlast).resolve_left fun hnone => hnone key hkey
  have hdel : r.obj.dict.delItem key = .ok (r.obj.dict.erase key) := if_pos hkey
  have htop' : Dictwithlast.last ⟨r.obj.dict.erase key, r.obj.stack⟩ = .ok top := last_of_top hstack
  by_cases heq : top = key
  · subst heq
    have hrun : r.obj.delete top = (.ok (), ⟨r.obj.dict.erase top, front⟩) := by
      rw [Dictwithlast.delete, hdel]
      simp only [htop']
      rw [if_pos trivial, hstack, List.dropLast_concat]
    have h' : Tracks ⟨⟨r.obj.dict.erase top, front⟩, r.uses⟩ := h.delete (.inr hstack)
    refine ⟨_, by simp only [step, hrun, ok_bind, pure_eq_ok], h', h'.lastOk_iff.trans ?_⟩
    have hnone : (∀ k, k ∉ r.obj.dict.erase top) ↔ ∀ k ∈ r.obj.dict, k = top :=
      forall_congr' fun k => by rw [AList.mem_erase, not_and, not_imp_not]
    have hbelow : (∃ below, front.getLast? = some below ∧ below ≠ top ∧ below ∈ r.obj.dict) ↔
        ∃ l below, front = l ++ [below] ∧ below ∈ r.obj.dict.erase top := by
      simp only [List.getLast?_eq_some_iff, AList.mem_erase]
      rw [exists_comm]
      exact exists_congr fun below => exists_and_right.symm
    rw [Uncovers, hstack, List.getLast?_concat, List.dropLast_concat, hnone, hbelow]
    exact ⟨fun h _ => h, fun h => h rfl⟩
  · have hrun : r.obj.delete key = (.ok (), ⟨r.obj.dict.erase key, r.obj.stack⟩) := by
      rw [Dictwithlast.delete, hdel]
      simp only [htop']
      rw [if_neg heq]
    have h' : Tracks ⟨⟨r.obj.dict.erase key, r.obj.stack⟩, r.uses⟩ := h.delete (.inl rfl)
    refine ⟨_, by simp only [step, hrun, ok_bind, pure_eq_ok], h', iff_of_true (h'.lastOk_iff.mpr ?_) ?_⟩
    · exact .inr ⟨front, top, hstack, AList.mem_erase.mpr ⟨heq, htop⟩⟩
    · intro hkey'
      rw [hstack, List.getLast?_concat] at hkey'
      exact absurd (Option.some.inj hkey') heq

theorem step_ok (h : Tracks r) (hlast : LastOk r) {op : Op K V} (hop : Present r op) :
    ∃ r', step r op = .ok r' ∧ Tracks r' ∧ (LastOk r' ↔ Uncovers r op) := by
  cases op with
  | set key value =>
    obtain ⟨r', hr', h', hlast'⟩ := h.set key value
    exact ⟨r', hr', h', iff_of_true hlast' trivial⟩
  | get key =>
    obtain ⟨r', hr', h', hlast'⟩ := h.get hop
    exact ⟨r', hr', h', iff_of_true hlast' trivial⟩
  | delete key => exact h.delete_ok hlast hop

end methods

/-! ### Sequences of calls -/

/-- From the new object on, with `get` and `delete` called with present keys only: after every call
`last` is right, if any key is left, exactly when every deletion of the top of the stack takes the only
key or uncovers another one that is present. -/
theorem always_lastOk_iff (ops : List (Op K V)) (h : Each step Present .start ops) :
    Always step LastOk .start ops ↔ Each step Uncovers .start ops := by
  have hstart : LastOk (.start : Run K V) := by
    rintro ⟨k, hk⟩
    exact absurd hk (AList.notMem_empty k)
  have hstep : ∀ (r : Run K V) (op : Op K V), Tracks r → LastOk r → Present r op →
      ∃ r', step r op = .ok r' ∧ (LastOk r' ↔ Uncovers r op) ∧ Tracks r' := by
    intro r op htracks hlast hop
    obtain ⟨r', hr', htracks', hiff⟩ := step_ok htracks hlast hop
    exact ⟨r', hr', hiff, htracks'⟩
  exact always_iff hstep ops .start (fun _ _ => rfl) hstart h

/-- A key is read and deleted, and the one that was set before it comes back. -/
theorem always_lastOk_uncovered :
    Always step LastOk (.start : Run Char ℕ) [.set 'c' 1, .set 'a' 2, .delete 'a', .get 'c'] := by
  refine (always_lastOk_iff _ (by decide)).mpr ?_
  refine (each_cons rfl).mpr ⟨trivial, (each_cons rfl).mpr ⟨trivial, (each_cons rfl).mpr ⟨?_, ?_⟩⟩⟩
  · exact fun _ => .inr ⟨'c', rfl, by decide, by decide⟩
  · exact (each_cons rfl).mpr ⟨trivial, trivial⟩

/-- A key that was set and read is on the stack twice, and is uncovered by its own deletion. -/
theorem not_always_lastOk :
    Each step Present (.start : Run Char ℕ) [.set 'c' 1, .set 'a' 2, .get 'a', .delete 'a'] ∧
      ¬ Always step LastOk (.start : Run Char ℕ) [.set 'c' 1, .set 'a' 2, .get 'a', .delete 'a'] := by
  refine ⟨by decide, fun h => ?_⟩
  obtain ⟨r, hr, hlast⟩ := h.final
  obtain rfl := Except.ok.inj hr
  obtain ⟨key, hkey, hmem, -⟩ := hlast ⟨'c', by decide⟩
  obtain rfl := Except.ok.inj hkey
  exact absurd hmem (by decide)

/-! ### Calls with missing keys -/

/-- A call of any method, of whose exceptions the caller takes care. -/
def call (d : Dictwithlast K V) : Op K V → Dictwithlast K V
  | .set key value => (d.set key value).2
  | .get key => (d.get key).2
  | .delete key => (d.delete key).2

/-- The object after any calls, the failing ones included. -/
def after (ops : List (Op K V)) : Dictwithlast K V := ops.foldl call .init

/-- The methods that need a key that is present. -/
inductive Access
  | get
  | delete

/-- Whether the method raises, and the object it leaves behind. -/
def access (d : Dictwithlast K V) (key : K) : Access → Except PyError Unit × Dictwithlast K V
  | .get => ((d.get key).1.map fun _ => (), (d.get key).2)
  | .delete => d.delete key

/-- The method raises `KeyError`, and all is as it was. -/
structure FailsClean (d : Dictwithlast K V) (key : K) (a : Access) : Prop where
  raises : (access d key a).1 = .error .keyError
  dict : (access d key a).2.dict = d.dict
  stack : (access d key a).2.stack = d.stack
  last : (access d key a).2.last = d.last

section missing

variable {d : Dictwithlast K V} {key : K}

theorem getItem_missing {dict : Dict K V} (h : key ∉ dict) : dict.getItem key = .error .keyError := by
  rw [Dict.getItem, AList.lookup_eq_none.mpr h]

theorem delete_missing (h : key ∉ d.dict) : d.delete key = (.error .keyError, d) := by
  have hdel : d.dict.delItem key = .error .keyError := if_neg h
  rw [Dictwithlast.delete, hdel]

theorem get_missing (h : key ∉ d.dict) :
    d.get key = (.error .keyError, { d with stack := d.stack ++ [key] }) := by
  rw [Dictwithlast.get, getItem_missing h]

end missing

/-- In every state that calls can reach, failed ones included, `delete` fails cleanly with a missing key
and `get` does not. -/
theorem failsClean_iff (ops : List (Op K V)) {key : K} (h : key ∉ (after ops).dict) (a : Access) :
    FailsClean (after ops) key a ↔ a = .delete := by
  cases a with
  | get =>
    refine iff_of_false (fun hclean => ?_) (by simp)
    have hstack := hclean.stack
    rw [access, get_missing h] at hstack
    exact absurd hstack (by simp)
  | delete =>
    have haccess : access (after ops) key .delete = (.error .keyError, after ops) := delete_missing h
    refine iff_of_true ⟨?_, ?_, ?_, ?_⟩ rfl <;> rw [haccess]

theorem failsClean_iff_delete : FailsClean (after ([.set 'c' 1] : List (Op Char ℕ))) 'x' .delete :=
  (failsClean_iff [.set 'c' 1] (by decide) .delete).mpr rfl

/-- After a failed `get`, `last` is the key that was not found. -/
theorem not_failsClean_get :
    'x' ∉ (after ([.set 'c' 1] : List (Op Char ℕ))).dict ∧
      ¬ FailsClean (after ([.set 'c' 1] : List (Op Char ℕ))) 'x' .get := by
  refine ⟨by decide, fun h => ?_⟩
  have hlast : Except.ok 'x' = Except.ok 'c' := h.last
  exact absurd (Except.ok.inj hlast) (by decide)

end CodingForFun.Dictlast
