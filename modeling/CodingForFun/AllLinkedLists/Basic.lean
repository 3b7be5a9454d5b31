import CodingForFun.Lib.Cells
import CodingForFun.Lib.DoublyLinked
import CodingForFun.Lib.Memory
import Mathlib.Data.Int.Order.Basic
import Mathlib.Data.List.Basic
import Mathlib.Data.Multiset.Defs

/-!
# Nodes of the doubly linked lists

The memory of `src/alllinkedlists.c` as its doubly linked lists use it: the `struct noded`s by
address, and the list pointer. A null pointer and an address that was never allocated cannot be
followed.

Both kinds of list have the same two operations. An insertion puts the new node behind nodes with
values up to its own and in front of one that is not below it (`Inserted`), and a reversal exchanges
`next` and `prev` in every node (`Heap.swap`), one node a round (`reverseStep`).
-/

namespace CodingForFun.AllLinkedLists

open Lib

/-- The `struct noded`s by address; the ones below `fresh` have been allocated. -/
structure Heap where
  next : ℕ → Option ℕ
  prev : ℕ → Option ℕ
  value : ℕ → ℤ
  fresh : ℕ

namespace Heap

/-- The node behind a pointer. -/
def deref (h : Heap) : Option ℕ → Except Fault ℕ
  | none => .error .outOfBounds
  | some a => if a < h.fresh then .ok a else .error .outOfBounds

def getNext (h : Heap) (ptr : Option ℕ) : Except Fault (Option ℕ) := do
  let a ← h.deref ptr
  pure (h.next a)

def getPrev (h : Heap) (ptr : Option ℕ) : Except Fault (Option ℕ) := do
  let a ← h.deref ptr
  pure (h.prev a)

def getValue (h : Heap) (ptr : Option ℕ) : Except Fault ℤ := do
  let a ← h.deref ptr
  pure (h.value a)

def setNext (h : Heap) (ptr next : Option ℕ) : Except Fault Heap := do
  let a ← h.deref ptr
  pure { h with next := Function.update h.next a next }

def setPrev (h : Heap) (ptr prev : Option ℕ) : Except Fault Heap := do
  let a ← h.deref ptr
  pure { h with prev := Function.update h.prev a prev }

/-- `malloc` of a node at `h.fresh`, with its value and two null links. -/
def malloc (h : Heap) (value : ℤ) : Heap where
  next := Function.update h.next h.fresh none
  prev := Function.update h.prev h.fresh none
  value := Function.update h.value h.fresh value
  fresh := h.fresh + 1

variable {h : Heap} {a : ℕ}

theorem deref_some (ha : a < h.fresh) : h.deref (some a) = .ok a := if_pos ha

theorem getNext_some (ha : a < h.fresh) : h.getNext (some a) = .ok (h.next a) := by
  simp [getNext, deref_some ha]

theorem getPrev_some (ha : a < h.fresh) : h.getPrev (some a) = .ok (h.prev a) := by
  simp [getPrev, deref_some ha]

theorem getValue_some (ha : a < h.fresh) : h.getValue (some a) = .ok (h.value a) := by
  simp [getValue, deref_some ha]

theorem setNext_some (ha : a < h.fresh) (next : Option ℕ) :
    h.setNext (some a) next = .ok { h with next := Function.update h.next a next } := by
  simp [setNext, deref_some ha]

theorem setPrev_some (ha : a < h.fresh) (prev : Option ℕ) :
    h.setPrev (some a) prev = .ok { h with prev := Function.update h.prev a prev } := by
  simp [setPrev, deref_some ha]

end Heap

/-- The memory and the pointer `*list`. -/
structure State where
  heap : Heap
  list : Option ℕ

/-- The empty list, before anything is allocated. -/
def State.empty : State := ⟨⟨fun _ => none, fun _ => none, fun _ => 0, 0⟩, none⟩

/-- One call on a list: `insert_...` of a value or `reverse_...`. -/
inductive Call
  | insert (value : ℤ)
  | reverse

/-- The values that a sequence of calls inserts. -/
def insertedValues : List Call → List ℤ
  | [] => []
  | .insert value :: calls => value :: insertedValues calls
  | .reverse :: calls => insertedValues calls

/-- Every allocated node is in the list `l`, which starts at the list pointer. -/
structure Owns (s : State) (l : List ℕ) : Prop where
  list : s.list = l.head?
  perm : l.Perm (List.range s.heap.fresh)

/-- The values of the nodes `l`. -/
def State.values (s : State) (l : List ℕ) : List ℤ := l.map s.heap.value

theorem State.values_append (s : State) (l₁ l₂ : List ℕ) :
    s.values (l₁ ++ l₂) = s.values l₁ ++ s.values l₂ := List.map_append

namespace Owns

variable {s : State} {l : List ℕ} {a : ℕ}

theorem nodup (h : Owns s l) : l.Nodup := h.perm.nodup_iff.mpr List.nodup_range

theorem lt_fresh (h : Owns s l) (ha : a ∈ l) : a < s.heap.fresh :=
  List.mem_range.mp (h.perm.mem_iff.mp ha)

theorem fresh_notMem (h : Owns s l) : s.heap.fresh ∉ l := fun hmem =>
  absurd (h.lt_fresh hmem) (lt_irrefl _)

theorem length_eq (h : Owns s l) : l.length = s.heap.fresh := by
  rw [h.perm.length_eq, List.length_range]

end Owns

section malloc

variable {s : State} {l : List ℕ} {x : ℕ} (v : ℤ)

theorem Owns.malloc_next (h : Owns s l) (hx : x ∈ l) :
    (s.heap.malloc v).next x = s.heap.next x :=
  Function.update_of_ne (ne_of_mem_of_not_mem hx h.fresh_notMem) _ _

theorem Owns.malloc_prev (h : Owns s l) (hx : x ∈ l) :
    (s.heap.malloc v).prev x = s.heap.prev x :=
  Function.update_of_ne (ne_of_mem_of_not_mem hx h.fresh_notMem) _ _

theorem Owns.malloc_value (h : Owns s l) (hx : x ∈ l) :
    (s.heap.malloc v).value x = s.heap.value x :=
  Function.update_of_ne (ne_of_mem_of_not_mem hx h.fresh_notMem) _ _

theorem Owns.malloc_lt (h : Owns s l) (hx : x ∈ l) : x < (s.heap.malloc v).fresh :=
  Nat.lt_succ_of_lt (h.lt_fresh hx)

end malloc

/-! ### Insertion -/

theorem perm_range_insert {l₁ l₂ : List ℕ} {n : ℕ} (h : (l₁ ++ l₂).Perm (List.range n)) :
    (l₁ ++ n :: l₂).Perm (List.range (n + 1)) := by
  rw [List.range_succ]
  calc l₁ ++ n :: l₂
      _ |>.Perm (n :: (l₁ ++ l₂)) := List.perm_middle
      _ |>.Perm (n :: List.range n) := h.cons _
      _ |>.Perm (List.range n ++ [n]) := (List.perm_append_singleton _ _).symm

/-- What an insertion of `v` does to the list `l`: the new node comes in behind nodes with values up
to `v`, and in front of one with at least `v`. -/
structure Inserted (s : State) (v : ℤ) (l₁ l₂ : List ℕ) (s' : State) : Prop where
  fresh : s'.heap.fresh = s.heap.fresh + 1
  value : s'.heap.value = Function.update s.heap.value s.heap.fresh v
  le : ∀ x ∈ l₁, s.heap.value x ≤ v
  ge : ∀ x, l₂.head? = some x → v ≤ s.heap.value x

namespace Inserted

variable {s s' : State} {v : ℤ} {l₁ l₂ : List ℕ}

theorem perm (h : Inserted s v l₁ l₂ s') (howns : Owns s (l₁ ++ l₂)) :
    (l₁ ++ s.heap.fresh :: l₂).Perm (List.range s'.heap.fresh) := by
  rw [h.fresh]
  exact perm_range_insert howns.perm

theorem values_eq (h : Inserted s v l₁ l₂ s') (howns : Owns s (l₁ ++ l₂)) :
    s'.values (l₁ ++ s.heap.fresh :: l₂) = s.values l₁ ++ v :: s.values l₂ := by
  have hold : ∀ l : List ℕ, s.heap.fresh ∉ l → s'.values l = s.values l := by
    intro l hl
    apply List.map_congr_left
    intro x hx
    rw [h.value, Function.update_of_ne (ne_of_mem_of_not_mem hx hl)]
  have hfresh := howns.fresh_notMem
  rw [List.mem_append, not_or] at hfresh
  have hnew : s'.heap.value s.heap.fresh = v := by
    rw [h.value, Function.update_self]
  rw [State.values, List.map_append, List.map_cons, hnew]
  exact congrArg₂ (fun k₁ k₂ => k₁ ++ v :: k₂) (hold l₁ hfresh.1) (hold l₂ hfresh.2)

theorem sorted (h : Inserted s v l₁ l₂ s') (howns : Owns s (l₁ ++ l₂))
    (hsorted : (s.values (l₁ ++ l₂)).Pairwise (· ≤ ·)) :
    (s'.values (l₁ ++ s.heap.fresh :: l₂)).Pairwise (· ≤ ·) := by
  rw [h.values_eq howns]
  rw [State.values_append] at hsorted
  apply pairwise_le_insert hsorted
  · intro x hx
    obtain ⟨a, ha, rfl⟩ := List.mem_map.mp hx
    exact h.le a ha
  · intro x hx
    rw [State.values, List.head?_map, Option.map_eq_some_iff] at hx
    obtain ⟨a, ha, rfl⟩ := hx
    exact h.ge a ha

end Inserted

/-! ### Reversal -/

/-- The heap with the two links exchanged in the nodes `l`. -/
def Heap.swap (h : Heap) (l : List ℕ) : Heap where
  next := fun a => if a ∈ l then h.prev a else h.next a
  prev := fun a => if a ∈ l then h.next a else h.prev a
  value := h.value
  fresh := h.fresh

@[simp] theorem Heap.swap_fresh (h : Heap) (l : List ℕ) : (h.swap l).fresh = h.fresh := rfl

@[simp] theorem Heap.swap_value (h : Heap) (l : List ℕ) : (h.swap l).value = h.value := rfl

/-- The local variables of a reversal. -/
structure Sweep where
  heap : Heap
  ptr : Option ℕ
  next : Option ℕ

/-- `next != stop`, where `stop` is what follows the last node. -/
def reverseGoesOn (stop : Option ℕ) (s : Sweep) : Except Fault Bool := pure (decide (s.next ≠ stop))

/-- One round of a reversal. -/
def reverseStep (s : Sweep) : Except Fault Sweep := do
  let h ← s.heap.setNext s.ptr (← s.heap.getPrev s.ptr)
  let h ← h.setPrev s.ptr s.next
  let next ← h.getNext s.next
  pure ⟨h, s.next, next⟩

theorem links_swap {h : Heap} {p q : Option ℕ} {l : List ℕ} (hl : Links h.next h.prev p l q) :
    Links (h.swap l).next (h.swap l).prev q l.reverse p := by
  apply (links_reverse.mp hl).congr
  · intro a ha
    exact if_pos (List.mem_reverse.mp ha)
  · intro a ha
    exact if_pos (List.mem_reverse.mp ha)

theorem swap_eq_self {h : Heap} {l : List ℕ} (hl : ∀ a ∈ l, h.next a = h.prev a) :
    h.swap l = h := by
  have hsame : ∀ f g : ℕ → Option ℕ, (∀ a ∈ l, f a = g a) →
      (fun a => if a ∈ l then g a else f a) = f := by
    intro f g hfg
    funext a
    split
    · next ha => exact (hfg a ha).symm
    · rfl
  rw [Heap.swap, hsame _ _ hl, hsame _ _ fun a ha => (hl a ha).symm]

section sweep

variable {h : Heap} {done : List ℕ} {a b : ℕ}

theorem swap_concat (ha : a ∉ done) :
    (⟨Function.update (h.swap done).next a (h.prev a), Function.update (h.swap done).prev a (h.next a),
      h.value, h.fresh⟩ : Heap) = h.swap (done ++ [a]) := by
  have hupdate : ∀ f g : ℕ → Option ℕ,
      Function.update (fun x => if x ∈ done then g x else f x) a (g a) =
        fun x => if x ∈ done ++ [a] then g x else f x := by
    intro f g
    funext x
    by_cases hx : x = a
    · subst hx
      simp
    · simp [hx]
  rw [Heap.swap, hupdate, hupdate]
  rfl

theorem reverseStep_swap (ha : a ∉ done) (hb : b ∉ done ++ [a]) (hfresh : a < h.fresh)
    (hfresh' : b < h.fresh) (hnext : h.next a = some b) :
    reverseStep ⟨h.swap done, some a, some b⟩ = .ok ⟨h.swap (done ++ [a]), some b, h.next b⟩ := by
  have hprev : (h.swap done).prev a = h.prev a := if_neg ha
  have ha' : a < (h.swap done).fresh := hfresh
  have hb' : b < (h.swap (done ++ [a])).fresh := hfresh'
  have hnext' : (h.swap (done ++ [a])).next b = h.next b := if_neg hb
  simp only [reverseStep, Heap.getPrev_some, Heap.setNext_some, Heap.setPrev_some, ha', ok_bind,
    hprev]
  rw [← hnext, Heap.swap_value, Heap.swap_fresh, swap_concat ha, hnext, Heap.getNext_some hb',
    hnext', ok_bind, pure_eq_ok]

theorem sweep_ok {p stop : Option ℕ} :
    ∀ (rest done : List ℕ) (a fuel : ℕ), rest.length < fuel → (done ++ a :: rest).Nodup →
      (∀ x ∈ done ++ a :: rest, x < h.fresh) → (∀ x ∈ rest, stop ≠ some x) →
      Links h.next h.prev p (done ++ a :: rest) stop →
      ∃ front b, done ++ a :: rest = front ++ [b] ∧
        whileM .unbounded (reverseGoesOn stop) reverseStep fuel ⟨h.swap done, some a, h.next a⟩ =
          .ok ⟨h.swap front, some b, stop⟩ := by
  intro rest
  induction rest with
  | nil =>
    intro done a fuel hfuel _ _ _ hlinks
    obtain ⟨fuel, rfl⟩ := Nat.exists_eq_add_of_lt hfuel
    have hnext : h.next a = stop := hlinks.at.2
    refine ⟨done, a, rfl, ?_⟩
    rw [hnext]
    exact whileM_false _ (by simp [reverseGoesOn])
  | cons b rest ih =>
    intro done a fuel hfuel hnodup hfresh hstop hlinks
    obtain ⟨fuel, rfl⟩ := Nat.exists_eq_succ_of_ne_zero (Nat.ne_zero_of_lt hfuel)
    have hnext : h.next a = some b := hlinks.at.2
    have ha : a ∉ done := by
      intro ha
      exact (List.nodup_append.mp hnodup).2.2 a ha a List.mem_cons_self rfl
    rw [List.append_cons] at hnodup hlinks hfresh ⊢
    have hb : b ∉ done ++ [a] := by
      intro hb
      exact (List.nodup_append.mp hnodup).2.2 b hb b List.mem_cons_self rfl
    have hgo : reverseGoesOn stop ⟨h.swap done, some a, some b⟩ = .ok true := by
      simp [reverseGoesOn, (hstop b List.mem_cons_self).symm]
    have hround := reverseStep_swap ha hb (hfresh a (by simp)) (hfresh b (by simp)) hnext
    obtain ⟨front, c, hfront, hrun⟩ := ih (done ++ [a]) b fuel (Nat.lt_of_succ_lt_succ hfuel) hnodup
      hfresh (fun x hx => hstop x (List.mem_cons_of_mem b hx)) hlinks
    refine ⟨front, c, hfront, ?_⟩
    rw [hnext, whileM_true fuel hgo hround]
    exact hrun

theorem reverse_ok {p stop : Option ℕ} {l : List ℕ} (hnodup : (a :: l).Nodup)
    (hfresh : ∀ x ∈ a :: l, x < h.fresh) (hstop : ∀ x ∈ l, stop ≠ some x)
    (hlinks : Links h.next h.prev p (a :: l) stop) (fuel : ℕ) (hfuel : l.length < fuel) :
    ∃ s : Sweep, whileM Fault.unbounded (reverseGoesOn stop) reverseStep fuel
        ⟨h, some a, h.next a⟩ = .ok s ∧ s.next = stop ∧
      (do
        let h ← s.heap.setNext s.ptr (← s.heap.getPrev s.ptr)
        let h ← h.setPrev s.ptr stop
        pure (⟨h, s.ptr⟩ : State)) = .ok ⟨h.swap (a :: l), (a :: l).getLast?⟩ := by
  have hstart : h.swap [] = h := swap_eq_self (by simp)
  obtain ⟨front, b, hl, hrun⟩ := sweep_ok l [] a fuel hfuel hnodup hfresh hstop hlinks
  rw [List.nil_append] at hl
  rw [hstart] at hrun
  rw [hl] at hnodup hfresh hlinks ⊢
  have hb : b ∉ front := by
    intro hb
    exact (List.nodup_append.mp hnodup).2.2 b hb b List.mem_cons_self rfl
  have hnext : h.next b = stop := hlinks.at.2
  have hprev : (h.swap front).prev b = h.prev b := if_neg hb
  have hb' : b < (h.swap front).fresh := hfresh b (by simp)
  refine ⟨_, hrun, rfl, ?_⟩
  simp only [Heap.getPrev_some, Heap.setNext_some, Heap.setPrev_some, hb', ok_bind, hprev]
  rw [← hnext, List.getLast?_concat]
  exact congrArg (fun h => Except.ok (⟨h, some b⟩ : State)) (swap_concat hb)

end sweep

/-! ### Sequences of calls -/

theorem values_swap (s : State) (l : List ℕ) (list : Option ℕ) :
    State.values ⟨s.heap.swap l, list⟩ l.reverse = (s.values l).reverse :=
  List.map_reverse

section runs

variable {P : State → List ℕ → Prop} {step : State → Call → Except Fault State}

/-- What insertions and reversals of this kind keep along a sequence of calls: the values are the
inserted ones, and as long as there is no reversal they stay in order. -/
theorem run_ok (howns : ∀ s l, P s l → Owns s l)
    (hinsert : ∀ s l v, P s l → ∃ s' l₁ l₂, step s (.insert v) = .ok s' ∧ l = l₁ ++ l₂ ∧
      Inserted s v l₁ l₂ s' ∧ P s' (l₁ ++ s.heap.fresh :: l₂))
    (hreverse : ∀ s l, P s l → step s .reverse = .ok ⟨s.heap.swap l, l.getLast?⟩ ∧
      P ⟨s.heap.swap l, l.getLast?⟩ l.reverse) :
    ∀ (calls : List Call) (s : State) (l : List ℕ), P s l →
      ∃ s' l', calls.foldlM step s = .ok s' ∧ P s' l' ∧
        (s'.values l').Perm (insertedValues calls ++ s.values l) ∧
        (.reverse ∉ calls → (s.values l).Pairwise (· ≤ ·) → (s'.values l').Pairwise (· ≤ ·)) := by
  intro calls
  induction calls with
  | nil =>
    intro s l h
    exact ⟨s, l, rfl, h, List.Perm.refl _, fun _ hsorted => hsorted⟩
  | cons call calls ih =>
    intro s l h
    cases call with
    | insert v =>
      obtain ⟨s₁, l₁, l₂, hs₁, rfl, hins, h₁⟩ := hinsert s l v h
      obtain ⟨s', l', hs', h', hperm, hsorted⟩ := ih s₁ _ h₁
      refine ⟨s', l', by rw [List.foldlM_cons, hs₁, ok_bind, hs'], h', ?_, ?_⟩
      · rw [hins.values_eq (howns _ _ h)] at hperm
        rw [State.values_append]
        calc s'.values l'
            _ |>.Perm (insertedValues calls ++ (s.values l₁ ++ v :: s.values l₂)) := hperm
            _ |>.Perm (insertedValues calls ++ v :: (s.values l₁ ++ s.values l₂)) :=
              List.perm_middle.append_left _
            _ |>.Perm (v :: (insertedValues calls ++ (s.values l₁ ++ s.values l₂))) :=
              List.perm_middle
      · intro honly hs
        exact hsorted (fun hmem => honly (List.mem_cons_of_mem _ hmem))
          (hins.sorted (howns _ _ h) hs)
    | reverse =>
      obtain ⟨hs₁, h₁⟩ := hreverse s l h
      obtain ⟨s', l', hs', h', hperm, -⟩ := ih _ _ h₁
      refine ⟨s', l', by rw [List.foldlM_cons, hs₁, ok_bind, hs'], h', ?_, ?_⟩
      · rw [values_swap] at hperm
        exact hperm.trans ((List.reverse_perm _).append_left _)
      · intro honly
        exact absurd List.mem_cons_self honly

end runs

end CodingForFun.AllLinkedLists
