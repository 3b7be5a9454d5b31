import CodingForFun.BlockFreeLinkedList.Nodes

/-!
# The order of the list

Between the test `(*list)->value < value` and the read of `*list` into `new->next` another thread may
put a smaller node in front. The compare-and-swap only looks at the second read, so it then puts the new
node before a smaller one. `Overtaken` is that step. Every other compare-and-swap keeps the order: what
a call has compared its value with is still so when it links its node in, because the value of the first
node only falls (`OrderOk`).
-/

namespace CodingForFun.BlockFreeLinkedList

open Lib

variable {Tid A : Type}

/-- The values read along `next` from `*list` are in non-decreasing order. -/
def Sorted (value : A → Int) (m : Shared A) : Prop :=
  ∃ l, Seg m.next m.list l none ∧ (l.map value).Pairwise (· ≤ ·)

/-- The next step of the thread is the compare-and-swap of `*list` in `insertorder`, it succeeds, and the
node that it finds is smaller than the new one. -/
def Overtaken (value : A → Int) (s : State Tid A) (t : Tid) : Prop :=
  match s.pc t with
  | .cas .insertorder new (some first) => s.shared.list = some first ∧ value first < value new
  | _ => False

instance [DecidableEq A] (value : A → Int) (s : State Tid A) (t : Tid) :
    Decidable (Overtaken value s t) := by
  unfold Overtaken
  split <;> infer_instance

/-- Only `insertorder` is called. -/
def InsertsInOrder : Action Tid A → Prop
  | .call _ k _ => k = .insertorder
  | .go _ => True

instance (a : Action Tid A) : Decidable (InsertsInOrder a) := by
  cases a <;> unfold InsertsInOrder <;> infer_instance

/-! ## What the calls know of the order -/

/-- The first node is not above `new`. -/
def FirstLe (value : A → Int) (m : Shared A) (new : A) : Prop :=
  ∃ first, m.list = some first ∧ value first ≤ value new

/-- `prev` is not above `new`. -/
def PrevLe (value : A → Int) (prev : Option A) (new : A) : Prop :=
  ∃ b, prev = some b ∧ value b ≤ value new

/-- `new` is not above `ptr`. -/
def LePtr (value : A → Int) (new : A) (ptr : Option A) : Prop := ∀ a, ptr = some a → value new ≤ value a

/-- What a call of `insertorder` knows of the order at each place. -/
def OrderOk (value : A → Int) (m : Shared A) : Pc A → Prop
  | .load k _ | .store k _ _ | .expect k _ | .cas k _ _ => k = .insertorder
  | .head new | .headNext new _ | .prev new _ => FirstLe value m new
  | .walk new prev _ => FirstLe value m new ∧ PrevLe value prev new
  | .fill new prev ptr | .link new prev ptr =>
    FirstLe value m new ∧ PrevLe value prev new ∧ LePtr value new ptr
  | _ => True

/-- What holds throughout a run of `insertorder` in which no call is overtaken. -/
structure OrderInv (value : A → Int) (s : State Tid A) : Prop where
  inv : Inv s
  sorted : Sorted value s.shared
  order : ∀ t, OrderOk value s.shared (s.pc t)

theorem orderInv_initial (value : A → Int) : OrderInv value (initial : State Tid A) :=
  ⟨inv_initial, ⟨[], rfl, .nil⟩, fun _ => trivial⟩

theorem Sorted.pairwise {value : A → Int} {m : Shared A} (h : Sorted value m) {l : List A}
    (hseg : Seg m.next m.list l none) : (l.map value).Pairwise (· ≤ ·) := by
  obtain ⟨l', hseg', hsorted⟩ := h
  rwa [hseg.unique hseg']

section steps

variable {value : A → Int} {s : State Tid A} {t : Tid}

theorem OrderInv.advance (h : OrderInv value s) (hreads : (s.pc t).Reads) :
    OrderOk value s.shared (advance value s.shared.list s.shared.next (s.pc t)) := by
  have ht := h.inv.thread t
  have ho := h.order t
  cases hpc : s.pc t with
  | idle | store | cas | fill | link | ret | crash =>
    rw [hpc] at hreads
    exact hreads.elim
  | test new =>
    cases hlist : s.shared.list with
    | none => trivial
    | some first => trivial
  | testValue new =>
    rw [hpc] at ht
    obtain ⟨first, hlist⟩ := Option.ne_none_iff_exists'.mp ht.2
    simp only [BlockFreeLinkedList.advance, hlist]
    by_cases hless : value first > value new
    · rw [if_pos hless]
      trivial
    · rw [if_neg hless]
      exact ⟨first, hlist, not_lt.mp hless⟩
  | retest new =>
    cases hlist : s.shared.list with
    | none => rfl
    | some first => trivial
  | retestValue new =>
    rw [hpc] at ht
    obtain ⟨first, hlist⟩ := Option.ne_none_iff_exists'.mp ht.2
    simp only [BlockFreeLinkedList.advance, hlist]
    by_cases hless : value first < value new
    · rw [if_pos hless]
      exact ⟨first, hlist, hless.le⟩
    · rw [if_neg hless]
      rfl
  | load k new | expect k new =>
    rw [hpc] at ho
    exact ho
  | head new =>
    rw [hpc] at ht ho
    obtain ⟨first, hlist⟩ := Option.ne_none_iff_exists'.mp ht.2
    simp only [BlockFreeLinkedList.advance, hlist]
    exact ho
  | headNext new first =>
    rw [hpc] at ho
    exact ho
  | prev new ptr =>
    rw [hpc] at ho
    exact ⟨ho, ho⟩
  | walk new prev ptr =>
    rw [hpc] at ho
    obtain ⟨hfirst, hprev⟩ := ho
    cases ptr with
    | none => exact ⟨hfirst, hprev, fun a ha => absurd ha.symm (Option.some_ne_none a)⟩
    | some a =>
      simp only [BlockFreeLinkedList.advance]
      by_cases hless : value a < value new
      · rw [if_pos hless]
        exact ⟨hfirst, a, rfl, hless.le⟩
      · rw [if_neg hless]
        refine ⟨hfirst, hprev, ?_⟩
        rintro b ⟨⟩
        exact not_lt.mp hless

variable [DecidableEq A]

omit [DecidableEq A] in
theorem overtaken_cas {new : A} {old : Option A} (hpc : s.pc t = .cas .insertorder new old) :
    Overtaken value s t ↔ ∃ first, old = some first ∧ s.shared.list = some first ∧
      value first < value new := by
  cases old with
  | none => simp [Overtaken, hpc]
  | some first => simp [Overtaken, hpc]

omit [DecidableEq A] in
theorem not_overtaken (h : ∀ k new old, s.pc t ≠ .cas k new old) : ¬ Overtaken value s t := by
  intro hover
  unfold Overtaken at hover
  split at hover
  · rename_i new first hcas
    exact h _ _ _ hcas
  · exact hover

theorem OrderInv.firstLe (h : OrderInv value s) (hok : ¬ Overtaken value s t) {m : Shared A} {p : Pc A}
    (hmove : Move value s t m p) {new : A} (hfirst : FirstLe value s.shared new) :
    FirstLe value m new := by
  obtain ⟨first, hlist, hle⟩ := hfirst
  cases hmove with
  | call | read | store | again | fill | after | missed | nowhere | ret => exact ⟨first, hlist, hle⟩
  | front k new' old hpc hold =>
    have ho := h.order t
    rw [hpc] at ho
    obtain rfl : k = .insertorder := ho
    refine ⟨new', rfl, le_trans ?_ hle⟩
    by_contra hlt
    exact hok ((overtaken_cas hpc).mpr ⟨first, hold.symm.trans hlist, hlist, not_le.mp hlt⟩)

theorem OrderInv.self (h : OrderInv value s) {m : Shared A} {p : Pc A} (hmove : Move value s t m p)
    (hcall : ∀ k new, s.pc t = .idle → p = entry k new → k = .insertorder) : OrderOk value m p := by
  have ho := h.order t
  cases hmove with
  | call k new hpc hnew =>
    obtain rfl := hcall k new hpc rfl
    trivial
  | read hpc => exact h.advance hpc
  | store k new first hpc =>
    rw [hpc] at ho
    exact ho
  | front k new old hpc hold => trivial
  | again k new old hpc hold =>
    rw [hpc] at ho
    obtain rfl : k = .insertorder := ho
    trivial
  | fill new prev ptr hpc =>
    rw [hpc] at ho
    exact ho
  | after new b ptr hpc hold => trivial
  | missed new b ptr hpc hold =>
    rw [hpc] at ho
    exact ho.1
  | nowhere new ptr hpc => trivial
  | ret new hpc => trivial

omit [DecidableEq A] in
theorem OrderOk.frame {m m' : Shared A} {p : Pc A} (h : OrderOk value m p)
    (hfirst : ∀ new, FirstLe value m new → FirstLe value m' new) : OrderOk value m' p := by
  cases p with
  | load | store | expect | cas => exact h
  | head new | headNext new first | prev new ptr => exact hfirst new h
  | walk new prev ptr => exact ⟨hfirst new h.1, h.2⟩
  | fill new prev ptr | link new prev ptr => exact ⟨hfirst new h.1, h.2⟩
  | idle | test | testValue | retest | retestValue | ret | crash => trivial

/-! ## The chain -/

omit [DecidableEq A] in
theorem OrderInv.sorted_front (h : OrderInv value s) {new : A} {old : Option A}
    (hpc : s.pc t = .cas .insertorder new old) (hold : s.shared.list = old) :
    Sorted value (s.shared.link (some new) s.shared.next new) ↔ ¬ Overtaken value s t := by
  have ht := h.inv.thread t
  rw [hpc] at ht
  obtain ⟨l, hseg, -⟩ := h.inv.chain
  have hl := h.sorted.pairwise hseg
  have hnew : Seg s.shared.next (some new) (new :: l) none := by
    refine ⟨rfl, ?_⟩
    rw [ht.2, ← hold]
    exact hseg
  rw [overtaken_cas hpc]
  constructor
  · rintro hsorted ⟨first, rfl, hlist, hlt⟩
    have hall : ((new :: l).map value).Pairwise (· ≤ ·) := hsorted.pairwise hnew
    rw [hlist] at hseg
    have hle := (List.pairwise_cons.mp hall).1 (value first) (List.mem_map_of_mem hseg.head_mem)
    exact absurd hle (not_le.mpr hlt)
  · intro hok
    refine ⟨new :: l, hnew, List.pairwise_cons.mpr ⟨?_, hl⟩⟩
    intro v hv
    cases l with
    | nil => exact absurd hv List.not_mem_nil
    | cons first l =>
      have hlist := hseg.1
      have hle : value new ≤ value first := by
        by_contra hlt
        exact hok ⟨first, hold.symm.trans hlist, hlist, not_le.mp hlt⟩
      rcases List.mem_cons.mp hv with rfl | hv
      · exact hle
      · exact hle.trans ((List.pairwise_cons.mp hl).1 v hv)

theorem OrderInv.sorted_after (h : OrderInv value s) {new b : A} {ptr : Option A}
    (hpc : s.pc t = .link new (some b) ptr) (hold : s.shared.next b = ptr) :
    Sorted value (s.shared.link s.shared.list (Function.update s.shared.next b (some new)) new) := by
  have ht := h.inv.thread t
  have ho := h.order t
  rw [hpc] at ht ho
  obtain ⟨hpending, ⟨c, hc, hbc⟩, hnext⟩ := ht
  obtain rfl := Option.some.inj hbc
  obtain ⟨-, ⟨d, hbd, hprev⟩, hptr⟩ := ho
  obtain rfl := Option.some.inj hbd
  obtain ⟨l, hseg, hperm⟩ := h.inv.chain
  have hl := h.sorted.pairwise hseg
  have hnew : new ∉ l := fun hmem => hpending.2 (hperm.mem_iff.mp hmem)
  obtain ⟨l₁, l₂, rfl, -, hrest⟩ := hseg.suffix (hperm.mem_iff.mpr hc)
  refine ⟨l₁ ++ b :: new :: l₂, hseg.insertAfter hnew (hnext.trans hold.symm), ?_⟩
  simp only [List.map_append, List.map_cons, List.pairwise_append, List.pairwise_cons] at hl ⊢
  obtain ⟨hl₁, ⟨hb, hl₂⟩, hbefore⟩ := hl
  have hafter : ∀ v ∈ l₂.map value, value new ≤ v := by
    intro v hv
    cases l₂ with
    | nil => exact absurd hv List.not_mem_nil
    | cons a l₂ =>
      have hle : value new ≤ value a := hptr a (hold.symm.trans hrest.1)
      rcases List.mem_cons.mp hv with rfl | hv
      · exact hle
      · exact hle.trans ((List.pairwise_cons.mp hl₂).1 v hv)
  refine ⟨hl₁, ⟨?_, hafter, hl₂⟩, ?_⟩
  · intro v hv
    rcases List.mem_cons.mp hv with rfl | hv
    · exact hprev
    · exact hprev.trans (hafter v hv)
  · intro u hu v hv
    have hub : u ≤ value b := hbefore u hu (value b) List.mem_cons_self
    rcases List.mem_cons.mp hv with rfl | hv
    · exact hub
    · rcases List.mem_cons.mp hv with rfl | hv
      · exact hub.trans hprev
      · exact (hub.trans hprev).trans (hafter v hv)

theorem OrderInv.sorted_iff (h : OrderInv value s) {m : Shared A} {p : Pc A}
    (hmove : Move value s t m p) : Sorted value m ↔ ¬ Overtaken value s t := by
  have ht := h.inv.thread t
  obtain ⟨l, hseg, hperm⟩ := h.inv.chain
  have hl := h.sorted.pairwise hseg
  cases hmove with
  | front k new old hpc hold =>
    have ho := h.order t
    rw [hpc] at ho
    obtain rfl : k = .insertorder := ho
    exact h.sorted_front hpc hold
  | again k new old hpc hold =>
    refine iff_of_true h.sorted ?_
    have ho := h.order t
    rw [hpc] at ho
    obtain rfl : k = .insertorder := ho
    rw [overtaken_cas hpc]
    rintro ⟨first, rfl, hlist, -⟩
    exact hold hlist
  | after new b ptr hpc hold =>
    exact iff_of_true (h.sorted_after hpc hold) (not_overtaken (by simp [hpc]))
  | store k new first hpc =>
    rw [hpc] at ht
    have hnew : new ∉ l := fun hmem => ht.2 (hperm.mem_iff.mp hmem)
    exact iff_of_true ⟨l, hseg.update hnew _, hl⟩ (not_overtaken (by simp [hpc]))
  | fill new prev ptr hpc =>
    rw [hpc] at ht
    have hnew : new ∉ l := fun hmem => ht.1.2 (hperm.mem_iff.mp hmem)
    exact iff_of_true ⟨l, hseg.update hnew _, hl⟩ (not_overtaken (by simp [hpc]))
  | call k new hpc hnew => exact iff_of_true h.sorted (not_overtaken (by simp [hpc]))
  | read hpc =>
    refine iff_of_true h.sorted (not_overtaken fun k new old hcas => ?_)
    rw [hcas] at hpc
    exact hpc
  | missed new b ptr hpc hold => exact iff_of_true h.sorted (not_overtaken (by simp [hpc]))
  | nowhere new ptr hpc => exact iff_of_true h.sorted (not_overtaken (by simp [hpc]))
  | ret new hpc => exact iff_of_true h.sorted (not_overtaken (by simp [hpc]))

end steps

section runs

variable [DecidableEq Tid] [DecidableEq A] {value : A → Int} {s s' : State Tid A} {a : Action Tid A}

theorem entry_of_insertsInOrder (ha : InsertsInOrder a) (hstep : step value s a = some s') (k : Kind)
    (new : A) (hpc : s.pc a.tid = .idle) (hentry : s'.pc a.tid = entry k new) : k = .insertorder := by
  cases a with
  | go t =>
    replace hpc : s.pc t = .idle := hpc
    simp [step, go, hpc] at hstep
  | call t k' new' =>
    obtain rfl : k' = .insertorder := ha
    simp only [step, call] at hstep
    split at hstep
    · obtain rfl := Option.some.inj hstep
      simp only [State.goto, Action.tid, Function.update_self] at hentry
      cases k with
      | insertfirst => simp [entry] at hentry
      | insertorder => rfl
    · exact absurd hstep (Option.some_ne_none _).symm

theorem OrderInv.step (h : OrderInv value s) (ha : InsertsInOrder a)
    (hok : ¬ Overtaken value s a.tid) (hstep : BlockFreeLinkedList.step value s a = some s') :
    OrderInv value s' := by
  have hentry := entry_of_insertsInOrder ha hstep
  obtain ⟨m, p, rfl, hmove⟩ := step_cases hstep
  simp only [Function.update_self] at hentry
  refine ⟨h.inv.step hmove, (h.sorted_iff hmove).mpr hok, fun u => ?_⟩
  by_cases hu : u = a.tid
  · subst hu
    simp only [Function.update_self]
    exact h.self hmove fun k new hpc hp => hentry k new hpc hp
  · simp only [Function.update_of_ne hu]
    exact (h.order u).frame fun new hfirst => h.firstLe hok hmove hfirst

/-- **The list stays sorted as long as no call is overtaken**: in every run of `insertorder` in which no
compare-and-swap of `*list` puts a node before a smaller one that came in since the test. The first step
that does so leaves the list unsorted. -/
theorem sorted_of_not_overtaken
    (hrun : Reaches (step value) (fun s a => InsertsInOrder a ∧ ¬ Overtaken value s a.tid) initial s) :
    Sorted value s.shared ∧
      ∀ a s', InsertsInOrder a → step value s a = some s' →
        (Sorted value s'.shared ↔ ¬ Overtaken value s a.tid) := by
  have h : OrderInv value s :=
    hrun.invariant (orderInv_initial value) fun _ _ _ hs hok hstep => hs.step hok.1 hok.2 hstep
  refine ⟨h.sorted, fun a s' _ hstep => ?_⟩
  obtain ⟨m, p, rfl, hmove⟩ := step_cases hstep
  exact h.sorted_iff hmove

end runs

/-! ## Two threads -/

/-- Node 0 holds 5 and node 1 holds 3. -/
def fiveThree (a : ℕ) : Int := if a = 0 then 5 else 3

/-- The thread calls `insertorder` with its node and sees an empty list in both tests. -/
def testTwice (t : Fin 2) : List (Action (Fin 2) ℕ) := [.call t .insertorder t.val, .go t, .go t]

/-- The thread inserts its node at the first node. -/
def insertFront (t : Fin 2) : List (Action (Fin 2) ℕ) := List.replicate 4 (.go t)

/-- When the thread with the greater value is first, the other one goes in front of it. -/
theorem sorted_of_not_overtaken_fiveThree :
    ∃ s : State (Fin 2) ℕ, Reaches (step fiveThree)
        (fun s a => InsertsInOrder a ∧ ¬ Overtaken fiveThree s a.tid) initial s ∧
      s.shared.linked = [0, 1] ∧ Sorted fiveThree s.shared := by
  have hrun : ((testTwice 0 ++ testTwice 1 ++ insertFront 0 ++ insertFront 1).foldlM
      (fun s a => if InsertsInOrder a ∧ ¬ Overtaken fiveThree s a.tid then step fiveThree s a else none)
      (initial : State (Fin 2) ℕ)).any (fun s => decide (s.shared.linked = [0, 1])) = true := by
    decide +kernel
  obtain ⟨s, hs, hlinked⟩ := (Option.any_eq_true _ _).mp hrun
  have hreach := Reaches.of_foldlM _ hs
  exact ⟨s, hreach, of_decide_eq_true hlinked, (sorted_of_not_overtaken hreach).1⟩

/-- When it is the other way round, the list is 5, 3. -/
theorem not_sorted_fiveThree :
    ∃ s : State (Fin 2) ℕ, Reaches (step fiveThree) (fun _ a => InsertsInOrder a) initial s ∧
      ¬ Sorted fiveThree s.shared := by
  have hrun : ((testTwice 0 ++ testTwice 1 ++ insertFront 1 ++ insertFront 0).foldlM
      (fun s a => if InsertsInOrder a then step fiveThree s a else none)
      (initial : State (Fin 2) ℕ)).any
        (fun s => decide (s.shared.list = some 0 ∧ s.shared.next 0 = some 1 ∧
          s.shared.next 1 = none)) = true := by
    decide +kernel
  obtain ⟨s, hs, hlist⟩ := (Option.any_eq_true _ _).mp hrun
  obtain ⟨hfirst, hsecond, hend⟩ := of_decide_eq_true hlist
  refine ⟨s, Reaches.of_foldlM _ hs, fun hsorted => ?_⟩
  have hvalues := hsorted.pairwise (l := [0, 1]) ⟨hfirst, hsecond, hend⟩
  exact absurd hvalues (by decide)

end CodingForFun.BlockFreeLinkedList
