import CodingForFun.BlockFreeLinkedList.Basic
import Mathlib.Data.List.Perm.Basic

/-!
# No node is lost or duplicated

`Move` says once what a step can do. The list is a chain of the linked nodes (`Inv.chain`). A call that
has not linked its node yet owns it: nobody else writes its `next`, so when a compare-and-swap finds the
pointer that `new->next` was set to, the new node goes in between a node and its successor at that
moment (`ThreadOk`). Nodes only enter the list, so a pointer into it stays one.
-/

namespace CodingForFun.BlockFreeLinkedList

open Lib

variable {Tid A : Type}

/-! ## What a step can do -/

/-- The steps that `advance` describes. -/
def Pc.Reads : Pc A → Prop
  | .test _ | .testValue _ | .retest _ | .retestValue _ | .load _ _ | .expect _ _ | .head _
  | .headNext _ _ | .prev _ _ | .walk _ _ _ => True
  | .idle | .store _ _ _ | .cas _ _ _ | .fill _ _ _ | .link _ _ _ | .ret _ | .crash => False

/-- The node that the call in progress inserts. -/
def Pc.new : Pc A → Option A
  | .test new | .testValue new | .retest new | .retestValue new | .load _ new | .store _ new _
  | .expect _ new | .cas _ new _ | .head new | .headNext new _ | .prev new _ | .walk new _ _
  | .fill new _ _ | .link new _ _ | .ret new => some new
  | .idle | .crash => none

/-- The thread that takes the step. -/
def Action.tid : Action Tid A → Tid
  | .call t _ _ => t
  | .go t => t

section move

variable [DecidableEq A]

/-- What a step of thread `t` makes of the shared state, and where it leaves the thread. -/
inductive Move (value : A → Int) (s : State Tid A) (t : Tid) : Shared A → Pc A → Prop
  | call (k : Kind) (new : A) (hpc : s.pc t = .idle) (hnew : new ∉ s.shared.allocated) :
      Move value s t { s.shared with allocated := s.shared.allocated ++ [new] } (entry k new)
  | read (hpc : (s.pc t).Reads) :
      Move value s t s.shared (advance value s.shared.list s.shared.next (s.pc t))
  | store (k : Kind) (new : A) (first : Option A) (hpc : s.pc t = .store k new first) :
      Move value s t { s.shared with next := Function.update s.shared.next new first } (.expect k new)
  | front (k : Kind) (new : A) (old : Option A) (hpc : s.pc t = .cas k new old)
      (hold : s.shared.list = old) :
      Move value s t (s.shared.link (some new) s.shared.next new) (.ret new)
  | again (k : Kind) (new : A) (old : Option A) (hpc : s.pc t = .cas k new old)
      (hold : s.shared.list ≠ old) : Move value s t s.shared (again k new)
  | fill (new : A) (prev ptr : Option A) (hpc : s.pc t = .fill new prev ptr) :
      Move value s t { s.shared with next := Function.update s.shared.next new ptr }
        (.link new prev ptr)
  | after (new b : A) (ptr : Option A) (hpc : s.pc t = .link new (some b) ptr)
      (hold : s.shared.next b = ptr) :
      Move value s t
        (s.shared.link s.shared.list (Function.update s.shared.next b (some new)) new) (.ret new)
  | missed (new b : A) (ptr : Option A) (hpc : s.pc t = .link new (some b) ptr)
      (hold : s.shared.next b ≠ ptr) : Move value s t s.shared (.head new)
  | nowhere (new : A) (ptr : Option A) (hpc : s.pc t = .link new none ptr) :
      Move value s t s.shared .crash
  | ret (new : A) (hpc : s.pc t = .ret new) :
      Move value s t { s.shared with returned := s.shared.returned ++ [new] } .idle

theorem go_cases [DecidableEq Tid] {value : A → Int} {s s' : State Tid A} {t : Tid}
    (h : go value s t = some s') :
    ∃ m p, s' = ⟨m, Function.update s.pc t p⟩ ∧ Move value s t m p := by
  cases hpc : s.pc t with
  | idle | crash => simp [go, hpc] at h
  | test | testValue | retest | retestValue | load | expect | head | headNext | prev | walk =>
    simp only [go, hpc, Option.some.injEq] at h
    refine ⟨s.shared, _, h.symm, ?_⟩
    rw [← hpc]
    exact .read (by rw [hpc]; trivial)
  | store k new first =>
    simp only [go, hpc, Option.some.injEq] at h
    exact ⟨_, _, h.symm, .store k new first hpc⟩
  | cas k new old =>
    simp only [go, hpc] at h
    by_cases hold : s.shared.list = old
    · rw [if_pos hold] at h
      exact ⟨_, _, (Option.some.inj h).symm, .front k new old hpc hold⟩
    · rw [if_neg hold] at h
      exact ⟨_, _, (Option.some.inj h).symm, .again k new old hpc hold⟩
  | fill new prev ptr =>
    simp only [go, hpc, Option.some.injEq] at h
    exact ⟨_, _, h.symm, .fill new prev ptr hpc⟩
  | link new prev ptr =>
    cases prev with
    | none =>
      simp only [go, hpc, Option.some.injEq] at h
      exact ⟨_, _, h.symm, .nowhere new ptr hpc⟩
    | some b =>
      simp only [go, hpc] at h
      by_cases hold : s.shared.next b = ptr
      · rw [if_pos hold] at h
        exact ⟨_, _, (Option.some.inj h).symm, .after new b ptr hpc hold⟩
      · rw [if_neg hold] at h
        exact ⟨_, _, (Option.some.inj h).symm, .missed new b ptr hpc hold⟩
  | ret new =>
    simp only [go, hpc, Option.some.injEq] at h
    exact ⟨_, _, h.symm, .ret new hpc⟩

theorem step_cases [DecidableEq Tid] {value : A → Int} {s s' : State Tid A} {a : Action Tid A}
    (h : step value s a = some s') :
    ∃ m p, s' = ⟨m, Function.update s.pc a.tid p⟩ ∧ Move value s a.tid m p := by
  cases a with
  | call t k new =>
    simp only [step, call] at h
    by_cases hfresh : s.pc t = .idle ∧ new ∉ s.shared.allocated
    · rw [if_pos hfresh] at h
      exact ⟨_, _, (Option.some.inj h).symm, .call k new hfresh.1 hfresh.2⟩
    · rw [if_neg hfresh] at h
      exact absurd h (Option.some_ne_none _).symm
  | go t => exact go_cases h

end move

/-! ## What the calls rely on -/

/-- The node of a call that has not linked it yet. -/
def Pending (m : Shared A) (new : A) : Prop := new ∈ m.allocated ∧ new ∉ m.linked

/-- A pointer into the list. -/
def OnList (m : Shared A) (p : Option A) : Prop := ∃ b ∈ m.linked, p = some b

/-- What a call knows at each place. -/
def ThreadOk (m : Shared A) : Pc A → Prop
  | .test new | .retest new | .load _ new | .store _ new _ | .expect _ new => Pending m new
  | .testValue new | .retestValue new | .head new => Pending m new ∧ m.list ≠ none
  | .cas _ new old => Pending m new ∧ m.next new = old
  | .headNext new first => Pending m new ∧ m.list ≠ none ∧ first ∈ m.linked
  | .prev new ptr => Pending m new ∧ m.list ≠ none ∧ (ptr ≠ none → OnList m ptr)
  | .walk new prev ptr => Pending m new ∧ OnList m prev ∧ (ptr ≠ none → OnList m ptr)
  | .fill new prev _ => Pending m new ∧ OnList m prev
  | .link new prev ptr => Pending m new ∧ OnList m prev ∧ m.next new = ptr
  | .ret new => new ∈ m.linked ∧ new ∉ m.returned
  | .idle => True
  | .crash => False

/-- What holds throughout every run. -/
structure Inv (s : State Tid A) : Prop where
  chain : ∃ l, Seg s.shared.next s.shared.list l none ∧ l.Perm s.shared.linked
  linked_allocated : ∀ a ∈ s.shared.linked, a ∈ s.shared.allocated
  returned_linked : ∀ a ∈ s.shared.returned, a ∈ s.shared.linked
  thread : ∀ t, ThreadOk s.shared (s.pc t)
  alone : ∀ t u a, (s.pc t).new = some a → (s.pc u).new = some a → t = u

theorem inv_initial : Inv (initial : State Tid A) where
  chain := ⟨[], rfl, .nil⟩
  linked_allocated _ ha := absurd ha List.not_mem_nil
  returned_linked _ ha := absurd ha List.not_mem_nil
  thread _ := trivial
  alone _ _ _ ht := absurd ht (Option.some_ne_none _).symm

section inv

variable {s : State Tid A} {t : Tid}

theorem Inv.next_linked (h : Inv s) {a b : A} (ha : a ∈ s.shared.linked)
    (hb : s.shared.next a = some b) : b ∈ s.shared.linked := by
  obtain ⟨l, hseg, hperm⟩ := h.chain
  exact hperm.mem_iff.mp (hseg.next_mem (hperm.mem_iff.mpr ha) hb)

theorem Inv.list_linked (h : Inv s) {a : A} (ha : s.shared.list = some a) : a ∈ s.shared.linked := by
  obtain ⟨l, hseg, hperm⟩ := h.chain
  rw [ha] at hseg
  exact hperm.mem_iff.mp hseg.head_mem

theorem Inv.linked_nodup (h : Inv s) : s.shared.linked.Nodup := by
  obtain ⟨l, hseg, hperm⟩ := h.chain
  exact hperm.nodup_iff.mp hseg.nodup

theorem Inv.list_onList (h : Inv s) (hne : s.shared.list ≠ none) : OnList s.shared s.shared.list := by
  obtain ⟨a, ha⟩ := Option.ne_none_iff_exists'.mp hne
  exact ⟨a, h.list_linked ha, ha⟩

theorem Inv.next_onList (h : Inv s) {a : A} (ha : a ∈ s.shared.linked)
    (hne : s.shared.next a ≠ none) : OnList s.shared (s.shared.next a) := by
  obtain ⟨b, hb⟩ := Option.ne_none_iff_exists'.mp hne
  exact ⟨b, h.next_linked ha hb, hb⟩

theorem Inv.new_allocated (h : Inv s) {a : A} (ha : (s.pc t).new = some a) :
    a ∈ s.shared.allocated := by
  have ht := h.thread t
  cases hpc : s.pc t with
  | idle | crash => simp [hpc, Pc.new] at ha
  | ret new =>
    rw [hpc] at ha ht
    obtain rfl := Option.some.inj ha
    exact h.linked_allocated _ ht.1
  | test | retest | load | store | expect =>
    rw [hpc] at ha ht
    obtain rfl := Option.some.inj ha
    exact ht.1
  | testValue | retestValue | head | cas | headNext | prev | walk | fill | link =>
    rw [hpc] at ha ht
    obtain rfl := Option.some.inj ha
    exact ht.1.1

/-! ## The thread that takes the step -/

theorem Inv.advance (h : Inv s) (value : A → Int) (hreads : (s.pc t).Reads) :
    ThreadOk s.shared (advance value s.shared.list s.shared.next (s.pc t)) ∧
      (advance value s.shared.list s.shared.next (s.pc t)).new = (s.pc t).new := by
  have ht := h.thread t
  cases hpc : s.pc t with
  | idle | store | cas | fill | link | ret | crash =>
    rw [hpc] at hreads
    exact hreads.elim
  | test new =>
    rw [hpc] at ht
    cases hlist : s.shared.list with
    | none => exact ⟨ht, rfl⟩
    | some first => exact ⟨⟨ht, by simp [hlist]⟩, rfl⟩
  | testValue new =>
    rw [hpc] at ht
    obtain ⟨first, hlist⟩ := Option.ne_none_iff_exists'.mp ht.2
    simp only [BlockFreeLinkedList.advance, hlist]
    by_cases hless : value first > value new
    · rw [if_pos hless]
      exact ⟨ht.1, rfl⟩
    · rw [if_neg hless]
      exact ⟨ht, rfl⟩
  | retest new =>
    rw [hpc] at ht
    cases hlist : s.shared.list with
    | none => exact ⟨ht, rfl⟩
    | some first => exact ⟨⟨ht, by simp [hlist]⟩, rfl⟩
  | retestValue new =>
    rw [hpc] at ht
    obtain ⟨first, hlist⟩ := Option.ne_none_iff_exists'.mp ht.2
    simp only [BlockFreeLinkedList.advance, hlist]
    by_cases hless : value first < value new
    · rw [if_pos hless]
      exact ⟨ht, rfl⟩
    · rw [if_neg hless]
      exact ⟨ht.1, rfl⟩
  | load k new =>
    rw [hpc] at ht
    exact ⟨ht, rfl⟩
  | expect k new =>
    rw [hpc] at ht
    exact ⟨⟨ht, rfl⟩, rfl⟩
  | head new =>
    rw [hpc] at ht
    obtain ⟨first, hlist⟩ := Option.ne_none_iff_exists'.mp ht.2
    simp only [BlockFreeLinkedList.advance, hlist]
    exact ⟨⟨ht.1, ht.2, h.list_linked hlist⟩, rfl⟩
  | headNext new first =>
    rw [hpc] at ht
    exact ⟨⟨ht.1, ht.2.1, h.next_onList ht.2.2⟩, rfl⟩
  | prev new ptr =>
    rw [hpc] at ht
    exact ⟨⟨ht.1, h.list_onList ht.2.1, ht.2.2⟩, rfl⟩
  | walk new prev ptr =>
    rw [hpc] at ht
    obtain ⟨hpending, hprev, hptr⟩ := ht
    cases ptr with
    | none => exact ⟨⟨hpending, hprev⟩, rfl⟩
    | some a =>
      simp only [BlockFreeLinkedList.advance]
      by_cases hless : value a < value new
      · obtain ⟨b, hb, hab⟩ := hptr (Option.some_ne_none a)
        obtain rfl := Option.some.inj hab
        rw [if_pos hless]
        exact ⟨⟨hpending, ⟨a, hb, rfl⟩, h.next_onList hb⟩, rfl⟩
      · rw [if_neg hless]
        exact ⟨⟨hpending, hprev⟩, rfl⟩

variable [DecidableEq A]

theorem Inv.self (h : Inv s) {value : A → Int} {m : Shared A} {p : Pc A} (hmove : Move value s t m p) :
    ThreadOk m p ∧ (p.new = (s.pc t).new ∨ p.new = none ∨
      ∃ new, p.new = some new ∧ new ∉ s.shared.allocated) := by
  have ht := h.thread t
  cases hmove with
  | call k new hpc hnew =>
    have hpending : Pending { s.shared with allocated := s.shared.allocated ++ [new] } new :=
      ⟨by simp, fun hmem => hnew (h.linked_allocated new hmem)⟩
    cases k with
    | insertfirst => exact ⟨hpending, .inr (.inr ⟨new, rfl, hnew⟩)⟩
    | insertorder => exact ⟨hpending, .inr (.inr ⟨new, rfl, hnew⟩)⟩
  | read hpc =>
    obtain ⟨hok, hnew⟩ := h.advance value hpc
    exact ⟨hok, .inl hnew⟩
  | store k new first hpc =>
    rw [hpc] at ht ⊢
    exact ⟨ht, .inl rfl⟩
  | front k new old hpc hold =>
    rw [hpc] at ht ⊢
    have hret : new ∉ s.shared.returned := fun hmem => ht.1.2 (h.returned_linked new hmem)
    exact ⟨⟨by simp [Shared.link], hret⟩, .inl rfl⟩
  | again k new old hpc hold =>
    rw [hpc] at ht ⊢
    cases k with
    | insertfirst => exact ⟨ht.1, .inl rfl⟩
    | insertorder => exact ⟨ht.1, .inl rfl⟩
  | fill new prev ptr hpc =>
    rw [hpc] at ht ⊢
    exact ⟨⟨ht.1, ht.2, Function.update_self ..⟩, .inl rfl⟩
  | after new b ptr hpc hold =>
    rw [hpc] at ht ⊢
    have hret : new ∉ s.shared.returned := fun hmem => ht.1.2 (h.returned_linked new hmem)
    exact ⟨⟨by simp [Shared.link], hret⟩, .inl rfl⟩
  | missed new b ptr hpc hold =>
    rw [hpc] at ht ⊢
    obtain ⟨hpending, ⟨c, hc, -⟩, -⟩ := ht
    refine ⟨⟨hpending, fun hnone => ?_⟩, .inl rfl⟩
    -- A list with a linked node is not empty.
    obtain ⟨l, hseg, hperm⟩ := h.chain
    rw [hnone] at hseg
    cases l with
    | nil => exact absurd (hperm.mem_iff.mpr hc) List.not_mem_nil
    | cons a l => exact absurd hseg.1 (Option.some_ne_none a).symm
  | nowhere new ptr hpc =>
    rw [hpc] at ht
    obtain ⟨-, ⟨b, -, hb⟩, -⟩ := ht
    exact absurd hb (Option.some_ne_none b).symm
  | ret new hpc => exact ⟨trivial, .inr (.inl rfl)⟩

/-! ## The other threads -/

/-- What a step changes of the memory, seen from the calls that do not own the node `mine`. -/
structure Frame (m m' : Shared A) (mine : Option A) : Prop where
  linked : ∀ a ∈ m.linked, a ∈ m'.linked
  linked_mine : ∀ a ∈ m'.linked, a ∈ m.linked ∨ mine = some a
  list : m.list ≠ none → m'.list ≠ none
  next : ∀ a, a ∉ m.linked → mine ≠ some a → m'.next a = m.next a
  allocated : ∀ a ∈ m.allocated, a ∈ m'.allocated
  returned_mine : ∀ a ∈ m'.returned, a ∈ m.returned ∨ mine = some a

omit [DecidableEq A] in
theorem Frame.refl (m : Shared A) (mine : Option A) : Frame m m mine :=
  ⟨fun _ ha => ha, fun _ ha => .inl ha, id, fun _ _ _ => rfl, fun _ ha => ha, fun _ ha => .inl ha⟩

theorem Frame.write (m : Shared A) (new : A) (p : Option A) :
    Frame m { m with next := Function.update m.next new p } (some new) := by
  refine { Frame.refl m (some new) with next := ?_ }
  intro a _ hmine
  have hne : a ≠ new := by
    rintro rfl
    exact hmine rfl
  exact Function.update_of_ne hne _ _

omit [DecidableEq A] in
theorem Frame.link {m : Shared A} {list : Option A} {next : A → Option A} {new : A}
    (hlist : m.list ≠ none → list ≠ none) (hnext : ∀ a, a ∉ m.linked → next a = m.next a) :
    Frame m (m.link list next new) (some new) where
  linked a ha := List.mem_append_left _ ha
  linked_mine a ha := by
    rcases List.mem_append.mp ha with ha | ha
    · exact .inl ha
    · rw [List.mem_singleton.mp ha]
      exact .inr rfl
  list := hlist
  next a ha _ := hnext a ha
  allocated _ ha := ha
  returned_mine _ ha := .inl ha

theorem Inv.frame (h : Inv s) {value : A → Int} {m : Shared A} {p : Pc A}
    (hmove : Move value s t m p) : Frame s.shared m (s.pc t).new := by
  have ht := h.thread t
  cases hmove with
  | call k new hpc hnew =>
    exact { Frame.refl s.shared _ with allocated := fun a ha => List.mem_append_left _ ha }
  | read hpc => exact .refl _ _
  | store k new first hpc =>
    rw [hpc]
    exact .write _ _ _
  | front k new old hpc hold =>
    rw [hpc]
    exact .link (fun _ => Option.some_ne_none new) (fun _ _ => rfl)
  | again k new old hpc hold => exact .refl _ _
  | fill new prev ptr hpc =>
    rw [hpc]
    exact .write _ _ _
  | after new b ptr hpc hold =>
    rw [hpc] at ht ⊢
    obtain ⟨-, ⟨c, hc, hbc⟩, -⟩ := ht
    obtain rfl := Option.some.inj hbc
    apply Frame.link id
    intro a ha
    have hne : a ≠ b := by
      rintro rfl
      exact ha hc
    exact Function.update_of_ne hne _ _
  | missed new b ptr hpc hold => exact .refl _ _
  | nowhere new ptr hpc => exact .refl _ _
  | ret new hpc =>
    rw [hpc]
    refine { Frame.refl s.shared _ with returned_mine := ?_ }
    intro a ha
    rcases List.mem_append.mp ha with ha | ha
    · exact .inl ha
    · rw [List.mem_singleton.mp ha]
      exact .inr rfl

section frame

variable {m m' : Shared A} {mine : Option A}

omit [DecidableEq A] in
theorem Frame.pending (hf : Frame m m' mine) {new : A} (hnew : mine ≠ some new)
    (h : Pending m new) : Pending m' new :=
  ⟨hf.allocated new h.1, fun hmem => (hf.linked_mine new hmem).elim h.2 hnew⟩

omit [DecidableEq A] in
theorem Frame.onList (hf : Frame m m' mine) {p : Option A} (h : OnList m p) : OnList m' p := by
  obtain ⟨b, hb, rfl⟩ := h
  exact ⟨b, hf.linked b hb, rfl⟩

omit [DecidableEq A] in
theorem ThreadOk.frame {p : Pc A} (h : ThreadOk m p) (hf : Frame m m' mine)
    (hmine : ∀ a, p.new = some a → mine ≠ some a) : ThreadOk m' p := by
  cases p with
  | idle => trivial
  | test new | retest new | load k new | store k new first | expect k new =>
    exact hf.pending (hmine new rfl) h
  | testValue new | retestValue new | head new =>
    exact ⟨hf.pending (hmine new rfl) h.1, hf.list h.2⟩
  | cas k new old =>
    exact ⟨hf.pending (hmine new rfl) h.1, (hf.next new h.1.2 (hmine new rfl)).trans h.2⟩
  | headNext new first =>
    exact ⟨hf.pending (hmine new rfl) h.1, hf.list h.2.1, hf.linked first h.2.2⟩
  | prev new ptr =>
    exact ⟨hf.pending (hmine new rfl) h.1, hf.list h.2.1, fun hptr => hf.onList (h.2.2 hptr)⟩
  | walk new prev ptr =>
    exact ⟨hf.pending (hmine new rfl) h.1, hf.onList h.2.1, fun hptr => hf.onList (h.2.2 hptr)⟩
  | fill new prev ptr => exact ⟨hf.pending (hmine new rfl) h.1, hf.onList h.2⟩
  | link new prev ptr =>
    exact ⟨hf.pending (hmine new rfl) h.1, hf.onList h.2.1,
      (hf.next new h.1.2 (hmine new rfl)).trans h.2.2⟩
  | ret new =>
    refine ⟨hf.linked new h.1, fun hmem => ?_⟩
    exact (hf.returned_mine new hmem).elim h.2 (hmine new rfl)
  | crash => exact h

end frame

/-! ## The chain -/

theorem Inv.chain_step (h : Inv s) {value : A → Int} {m : Shared A} {p : Pc A}
    (hmove : Move value s t m p) : ∃ l, Seg m.next m.list l none ∧ l.Perm m.linked := by
  have ht := h.thread t
  obtain ⟨l, hseg, hperm⟩ := h.chain
  cases hmove with
  | call | read | again | missed | nowhere | ret => exact ⟨l, hseg, hperm⟩
  | store k new first hpc =>
    rw [hpc] at ht
    exact ⟨l, hseg.update (fun hmem => ht.2 (hperm.mem_iff.mp hmem)) _, hperm⟩
  | fill new prev ptr hpc =>
    rw [hpc] at ht
    exact ⟨l, hseg.update (fun hmem => ht.1.2 (hperm.mem_iff.mp hmem)) _, hperm⟩
  | front k new old hpc hold =>
    rw [hpc] at ht
    refine ⟨new :: l, ⟨rfl, ?_⟩, ?_⟩
    · show Seg s.shared.next (s.shared.next new) l none
      rw [ht.2, ← hold]
      exact hseg
    · exact (hperm.cons new).trans (List.perm_append_singleton new s.shared.linked).symm
  | after new b ptr hpc hold =>
    rw [hpc] at ht
    obtain ⟨hpending, ⟨c, hc, hbc⟩, hnext⟩ := ht
    obtain rfl := Option.some.inj hbc
    have hnew : new ∉ l := fun hmem => hpending.2 (hperm.mem_iff.mp hmem)
    obtain ⟨l₁, l₂, rfl, -, -⟩ := hseg.suffix (hperm.mem_iff.mpr hc)
    refine ⟨l₁ ++ b :: new :: l₂, hseg.insertAfter hnew (hnext.trans hold.symm), ?_⟩
    have hmiddle : (l₁ ++ b :: new :: l₂).Perm (new :: (l₁ ++ b :: l₂)) :=
      ((List.Perm.swap new b l₂).append_left l₁).trans List.perm_middle
    exact hmiddle.trans ((hperm.cons new).trans (List.perm_append_singleton new _).symm)

theorem Inv.step [DecidableEq Tid] (h : Inv s) {value : A → Int} {m : Shared A} {p : Pc A}
    (hmove : Move value s t m p) : Inv ⟨m, Function.update s.pc t p⟩ := by
  have hframe := h.frame hmove
  obtain ⟨hself, hnew⟩ := h.self hmove
  constructor
  · exact h.chain_step hmove
  · intro a ha
    rcases hframe.linked_mine a ha with hold | hmine
    · exact hframe.allocated a (h.linked_allocated a hold)
    · exact hframe.allocated a (h.new_allocated hmine)
  · intro a ha
    show a ∈ m.linked
    cases hmove with
    | ret new hpc =>
      rcases List.mem_append.mp ha with ha | ha
      · exact h.returned_linked a ha
      · have ht := h.thread t
        rw [hpc] at ht
        rw [List.mem_singleton.mp ha]
        exact ht.1
    | call | read | store | again | fill | missed | nowhere => exact h.returned_linked a ha
    | front | after => exact hframe.linked a (h.returned_linked a ha)
  · intro u
    by_cases hu : u = t
    · subst hu
      simp only [Function.update_self]
      exact hself
    · simp only [Function.update_of_ne hu]
      refine (h.thread u).frame hframe fun a ha hmine => hu (h.alone u t a ha hmine)
  · have hothers : ∀ u a, u ≠ t → p.new = some a → (s.pc u).new ≠ some a := by
      intro u a hu ha hua
      obtain hsame | hnone | ⟨new, hfresh, hnot⟩ := hnew
      · exact hu (h.alone u t a hua (hsame.symm.trans ha))
      · exact absurd (hnone.symm.trans ha) (Option.some_ne_none a).symm
      · obtain rfl := Option.some.inj (hfresh.symm.trans ha)
        exact hnot (h.new_allocated hua)
    intro u v a hu hv
    by_cases hut : u = t
    · by_cases hvt : v = t
      · rw [hut, hvt]
      · simp only [hut, Function.update_self] at hu
        simp only [Function.update_of_ne hvt] at hv
        exact absurd hv (hothers v a hvt hu)
    · simp only [Function.update_of_ne hut] at hu
      by_cases hvt : v = t
      · simp only [hvt, Function.update_self] at hv
        exact absurd hu (hothers u a hut hv)
      · simp only [Function.update_of_ne hvt] at hv
        exact h.alone u v a hu hv

end inv

section runs

variable [DecidableEq Tid] [DecidableEq A] {value : A → Int} {s : State Tid A}

theorem reaches_inv {allowed : State Tid A → Action Tid A → Prop}
    (hrun : Reaches (step value) allowed initial s) : Inv s := by
  apply hrun.invariant inv_initial
  intro s a s' hs _ hstep
  obtain ⟨m, p, rfl, hmove⟩ := step_cases hstep
  exact hs.step hmove

/-- **No node is lost or duplicated.** In every run of any threads and calls, the nodes reachable from
`*list` form a chain that ends and visits no node twice; they are the nodes that a compare-and-swap has
linked in, each of which was linked in once, and every call that has returned is among them. No null
pointer is dereferenced. -/
theorem reaches_chain (hrun : Reaches (step value) (fun _ _ => True) initial s) :
    (∃ l, Seg s.shared.next s.shared.list l none ∧ l.Nodup ∧ l.Perm s.shared.linked) ∧
      (∀ a ∈ s.shared.returned, s.shared.linked.count a = 1) ∧ ∀ t, s.pc t ≠ .crash := by
  have h := reaches_inv hrun
  refine ⟨?_, ?_, ?_⟩
  · obtain ⟨l, hseg, hperm⟩ := h.chain
    exact ⟨l, hseg, hseg.nodup, hperm⟩
  · intro a ha
    exact List.count_eq_one_of_mem h.linked_nodup (h.returned_linked a ha)
  · intro t hcrash
    have ht := h.thread t
    rw [hcrash] at ht
    exact ht

/-- Two threads insert at the first node at the same time; the compare-and-swap of the second one fails
once. -/
theorem reaches_chain_twoThreads :
    ∃ s : State (Fin 2) ℕ, Reaches (step fun _ => 0) (fun _ _ => True) initial s ∧
      s.shared.returned = [0, 1] ∧ ∀ a ∈ s.shared.returned, s.shared.linked.count a = 1 := by
  have hrun : ([Action.call 0 .insertfirst 0, .call 1 .insertfirst 1, .go 0, .go 1, .go 0, .go 1, .go 0,
      .go 1, .go 0, .go 0, .go 1, .go 1, .go 1, .go 1, .go 1, .go 1].foldlM
      (fun s a => if True then step (fun _ => 0) s a else none) (initial : State (Fin 2) ℕ)).any
        (fun s => decide (s.shared.returned = [0, 1])) = true := by
    decide +kernel
  obtain ⟨s, hs, hreturned⟩ := (Option.any_eq_true _ _).mp hrun
  have hreach := Reaches.of_foldlM _ hs
  exact ⟨s, hreach, of_decide_eq_true hreturned, (reaches_chain hreach).2.1⟩

end runs

end CodingForFun.BlockFreeLinkedList
