import CodingForFun.Lib.Ring
import CodingForFun.MultiProducerConsumerLockfree.Minima

/-!
# Every pop returns the pointer of the push with its index

An index is accessed once (`not_accessed`). A push that writes its slot has passed the pop that is
`Q_SIZE` behind it, and so has every other push whose pointer is still in the array; so the new pointer
overwrites none of them (`Contents.store`). A pop that reads its slot has passed the push with its own
index (`Contents.load`).
-/

namespace CodingForFun.MultiProducerConsumerLockfree

open Lib

variable {T : Type} {qSize : ℕ} {n : Side → ℕ}

/-- What a state says about the pointers that have gone through the array. -/
structure Safe (qSize : ℕ) (s : State T) : Prop where
  /-- A pop that has returned gave the pointer that the push with its index stored. -/
  returns : ∀ k ptr, (k, ptr) ∈ s.completed .tail → (k, ptr) ∈ s.accessed .head
  /-- No slot is read before it is written, -/
  written : ∀ k ptr, (k, ptr) ∈ s.accessed .tail → (k, ptr) ∈ s.accessed .head
  /-- nor overwritten before it is read, -/
  kept : ∀ k ptr, (k, ptr) ∈ s.accessed .head → k ∉ (s.accessed .tail).map Prod.fst →
    s.ptrArray (k &&& (qSize - 1)) = ptr
  /-- and no index is stored or delivered twice. -/
  once : ∀ d, ((s.accessed d).map Prod.fst).Nodup ∧ ((s.completed d).map Prod.fst).Nodup

/-- A call with index `k` is about to return, having accessed its slot. -/
def Returning (s : State T) (d : Side) (k : ℕ) (ptr : T) : Prop :=
  ∃ i, s.pc (d, i) = .clear ptr ∧ s.index (d, i) = k

/-- The accesses to the array, and what is in it. -/
structure Contents (qSize : ℕ) (s : State T) : Prop where
  accessed : ∀ d k ptr, (k, ptr) ∈ s.accessed d ↔ (k, ptr) ∈ s.completed d ∨ Returning s d k ptr
  nodup : ∀ d, ((s.accessed d).map Prod.fst).Nodup
  passed : ∀ d k ptr, (k, ptr) ∈ s.accessed d → Passed qSize s d k
  written : ∀ k ptr, (k, ptr) ∈ s.accessed .tail → (k, ptr) ∈ s.accessed .head
  kept : ∀ k ptr, (k, ptr) ∈ s.accessed .head → k ∉ (s.accessed .tail).map Prod.fst →
    s.ptrArray (k % qSize) = ptr

theorem initial_contents (qSize : ℕ) (ptrArray ptr : ℕ → T) :
    Contents qSize (initial ptrArray ptr) where
  accessed d k p := by simp [initial, Returning]
  nodup _ := List.nodup_nil
  passed _ _ _ hk := absurd hk List.not_mem_nil
  written _ _ hk := absurd hk List.not_mem_nil
  kept _ _ hk := absurd hk List.not_mem_nil

variable {s s' : State T} {a : Agent}

theorem returning_iff (hframe : ∀ b, b ≠ a → s'.pc b = s.pc b ∧ s'.index b = s.index b) {d : Side}
    {k : ℕ} {ptr : T} :
    Returning s' d k ptr ↔ (∃ i, (d, i) ≠ a ∧ s.pc (d, i) = .clear ptr ∧ s.index (d, i) = k) ∨
      (d = a.1 ∧ s'.pc a = .clear ptr ∧ s'.index a = k) := by
  constructor
  · intro h
    obtain ⟨i, hpc, hindex⟩ := h
    by_cases hi : (d, i) = a
    · subst hi
      exact .inr ⟨rfl, hpc, hindex⟩
    · obtain ⟨hpc', hindex'⟩ := hframe _ hi
      exact .inl ⟨i, hi, hpc' ▸ hpc, hindex' ▸ hindex⟩
  · rintro (⟨i, hi, hpc, hindex⟩ | ⟨rfl, hpc, hindex⟩)
    · obtain ⟨hpc', hindex'⟩ := hframe _ hi
      exact ⟨i, hpc'.trans hpc, hindex'.trans hindex⟩
    · exact ⟨a.2, hpc, hindex⟩

theorem returning_split (s : State T) (a : Agent) (d : Side) (k : ℕ) (ptr : T) :
    Returning s d k ptr ↔ (∃ i, (d, i) ≠ a ∧ s.pc (d, i) = .clear ptr ∧ s.index (d, i) = k) ∨
      (d = a.1 ∧ s.pc a = .clear ptr ∧ s.index a = k) :=
  returning_iff fun _ _ => ⟨rfl, rfl⟩

theorem Contents.of_done (h : Contents qSize s) {d : Side} {k : ℕ} (hk : k ∈ (tickets s d).done) :
    ∃ ptr, (k, ptr) ∈ s.accessed d := by
  obtain ⟨⟨k, ptr⟩, hmem, rfl⟩ := List.mem_map.mp hk
  exact ⟨ptr, (h.accessed d _ _).mpr (.inl hmem)⟩

theorem Contents.not_accessed (h : Contents qSize s) (hi : Inv qSize n s) {head : ℕ}
    (hpc : s.pc a = .slot head) : s.index a ∉ (s.accessed a.1).map Prod.fst := by
  intro hk
  obtain ⟨⟨k, ptr⟩, hmem, hka⟩ := List.mem_map.mp hk
  have hheld : (tickets s a.1).held a.2 = some (s.index a) := held_eq_some.mpr ⟨by rw [hpc]; rfl, rfl⟩
  rcases (h.accessed a.1 _ _).mp hmem with hdone | ⟨i, hclear, hindex⟩
  · exact (hi.valid a.1).not_done hheld (List.mem_map.mpr ⟨_, hdone, hka⟩)
  · have hother : (tickets s a.1).held i = some (s.index a) :=
      held_eq_some.mpr ⟨by rw [hclear]; rfl, hindex.trans hka⟩
    obtain rfl : i = a.2 := (hi.valid a.1).inj hother hheld
    rw [hpc] at hclear
    simp at hclear

theorem mem_update_append {l : Side → List (ℕ × T)} {d e : Side} {x y : ℕ × T} :
    x ∈ Function.update l d (l d ++ [y]) e ↔ x ∈ l e ∨ (e = d ∧ x = y) := by
  by_cases he : e = d
  · subst he
    simp
  · simp [he]

theorem Contents.quiet (h : Contents qSize s) (hstep : ∀ d, (tickets s d).Step (tickets s' d))
    (haccessed : s'.accessed = s.accessed) (hptrArray : s'.ptrArray = s.ptrArray)
    (hused : ∀ d k ptr, (k, ptr) ∈ s'.completed d ∨ Returning s' d k ptr ↔
      (k, ptr) ∈ s.completed d ∨ Returning s d k ptr) : Contents qSize s' := by
  refine ⟨?_, ?_, ?_, ?_, ?_⟩
  · intro d k ptr
    rw [haccessed, hused]
    exact h.accessed d k ptr
  · rw [haccessed]
    exact h.nodup
  · intro d k ptr hk t ht
    rw [haccessed] at hk
    exact (hstep _).mem_done (h.passed d k ptr hk t ht)
  · rw [haccessed]
    exact h.written
  · rw [haccessed, hptrArray]
    exact h.kept

theorem used_of_pc_ne (hm : Move qSize n s a s') (hcompleted : s'.completed = s.completed)
    (hpc : ∀ ptr, s.pc a ≠ .clear ptr) (hpc' : ∀ ptr, s'.pc a ≠ .clear ptr) (d : Side) (k : ℕ)
    (ptr : T) : (k, ptr) ∈ s'.completed d ∨ Returning s' d k ptr ↔
      (k, ptr) ∈ s.completed d ∨ Returning s d k ptr := by
  rw [hcompleted, returning_iff fun b hb => ⟨(hm.frame hb).1, (hm.frame hb).2.2⟩,
    returning_split s a]
  simp [hpc, hpc']

theorem used_of_return (hm : Move qSize n s a s') {p : T} (hpc : s.pc a = .clear p)
    (hcompleted : s'.completed = Function.update s.completed a.1 (s.completed a.1 ++ [(s.index a, p)]))
    (hpc' : s'.pc a = .idle) (d : Side) (k : ℕ) (ptr : T) :
    (k, ptr) ∈ s'.completed d ∨ Returning s' d k ptr ↔
      (k, ptr) ∈ s.completed d ∨ Returning s d k ptr := by
  rw [hcompleted, returning_iff fun b hb => ⟨(hm.frame hb).1, (hm.frame hb).2.2⟩,
    returning_split s a, mem_update_append, hpc, hpc']
  simp only [Pc.clear.injEq, reduceCtorEq, Prod.mk.injEq]
  grind

theorem used_of_access (h : Contents qSize s) (hm : Move qSize n s a s') {head : ℕ} {p : T}
    (hpc : s.pc a = .slot head) (hcompleted : s'.completed = s.completed)
    (haccessed : s'.accessed = Function.update s.accessed a.1 (s.accessed a.1 ++ [(s.index a, p)]))
    (hindex : s'.index = s.index) (hpc' : s'.pc a = .clear p) (d : Side) (k : ℕ) (ptr : T) :
    (k, ptr) ∈ s'.accessed d ↔ (k, ptr) ∈ s'.completed d ∨ Returning s' d k ptr := by
  have hold := h.accessed d k ptr
  rw [returning_split s a, hpc] at hold
  rw [hcompleted, haccessed, mem_update_append, hold,
    returning_iff fun b hb => ⟨(hm.frame hb).1, (hm.frame hb).2.2⟩, hpc', hindex]
  simp only [Pc.clear.injEq, reduceCtorEq, Prod.mk.injEq]
  grind

/-- A pop that reads its slot has passed the push with its index, and nobody has read that push's
pointer. -/
theorem Contents.load (h : Contents qSize s) (hi : Inv qSize n s) {i head : ℕ}
    (hpc : s.pc (.tail, i) = .slot head) :
    (s.index (.tail, i), s.ptrArray (s.index (.tail, i) % qSize)) ∈ s.accessed .head := by
  have ha := hi.agents (.tail, i)
  rw [hpc] at ha
  obtain ⟨ptr, hptr⟩ := h.of_done (ha.2.2 (s.index (.tail, i)) le_rfl)
  rw [h.kept _ ptr hptr (h.not_accessed hi hpc)]
  exact hptr

theorem Contents.store (h : Contents qSize s) (hi : Inv qSize n s) {i head k : ℕ} {ptr : T}
    (hpc : s.pc (.head, i) = .slot head) (hk : (k, ptr) ∈ s.accessed .head)
    (hlive : k ∉ (s.accessed .tail).map Prod.fst) :
    k % qSize ≠ s.index (.head, i) % qSize := by
  have ha := hi.agents (.head, i)
  rw [hpc] at ha
  have hnew := h.not_accessed hi hpc
  rcases lt_trichotomy k (s.index (.head, i)) with hlt | heq | hgt
  · refine slot_ne hlt ?_
    by_contra hge
    -- The push has passed the pop with index `k`.
    obtain ⟨p, hp⟩ := h.of_done (ha.2.2 k (not_lt.mp hge))
    exact hlive (List.mem_map.mpr ⟨_, hp, rfl⟩)
  · exact absurd (List.mem_map.mpr ⟨_, hk, heq⟩) hnew
  · refine (slot_ne hgt ?_).symm
    by_contra hge
    -- The push with index `k` has passed the pop with this index, which has passed this push.
    obtain ⟨p, hp⟩ := h.of_done (h.passed .head k ptr hk _ (not_lt.mp hge))
    exact hnew (List.mem_map.mpr ⟨_, h.written _ p hp, rfl⟩)

theorem Contents.written_access (h : Contents qSize s) (hi : Inv qSize n s) {head k : ℕ}
    {p : T × (ℕ → T)} {ptr : T} (hpc : s.pc a = .slot head)
    (hp : access a.1 s a.2 (s.index a % qSize) = p)
    (hk : (k, ptr) ∈ Function.update s.accessed a.1 (s.accessed a.1 ++ [(s.index a, p.1)]) .tail) :
    (k, ptr) ∈ Function.update s.accessed a.1 (s.accessed a.1 ++ [(s.index a, p.1)]) .head := by
  rw [mem_update_append] at hk ⊢
  rcases hk with hold | ⟨hside, hrecord⟩
  · exact .inl (h.written k ptr hold)
  · obtain ⟨d, i⟩ := a
    obtain rfl : Side.tail = d := hside
    obtain ⟨rfl, rfl⟩ := Prod.mk.inj hrecord
    subst hp
    exact .inl (h.load hi hpc)

theorem Contents.kept_access (h : Contents qSize s) (hi : Inv qSize n s) {head k : ℕ}
    {p : T × (ℕ → T)} {ptr : T} (hpc : s.pc a = .slot head)
    (hp : access a.1 s a.2 (s.index a % qSize) = p)
    (hk : (k, ptr) ∈ Function.update s.accessed a.1 (s.accessed a.1 ++ [(s.index a, p.1)]) .head)
    (hlive : k ∉ (Function.update s.accessed a.1 (s.accessed a.1 ++ [(s.index a, p.1)]) .tail).map
      Prod.fst) : p.2 (k % qSize) = ptr := by
  obtain ⟨d, i⟩ := a
  subst hp
  rw [mem_update_append] at hk
  cases d with
  | head =>
    rw [Function.update_of_ne (by simp)] at hlive
    show Function.update s.ptrArray (s.index (.head, i) % qSize) (s.ptr i) (k % qSize) = ptr
    rcases hk with hold | ⟨-, hrecord⟩
    · rw [Function.update_of_ne (h.store hi hpc hold hlive)]
      exact h.kept k ptr hold hlive
    · obtain ⟨rfl, rfl⟩ := Prod.mk.inj hrecord
      rw [Function.update_self]
      rfl
  | tail =>
    show s.ptrArray (k % qSize) = ptr
    rcases hk with hold | ⟨hside, -⟩
    · refine h.kept k ptr hold fun hmem => hlive ?_
      rw [Function.update_self, List.map_append]
      exact List.mem_append_left _ hmem
    · simp at hside

theorem Contents.step (h : Contents qSize s) (hi : Inv qSize n s) (hm : Move qSize n s a s')
    (hstep : ∀ d, (tickets s d).Step (tickets s' d)) {e : ℕ} (hsize : qSize = 2 ^ e) :
    Contents qSize s' := by
  have hm' := hm
  cases hm with
  | slot head hpc p hp =>
    have ha := hi.agents a
    rw [hpc] at ha
    have hslot : head &&& (qSize - 1) = s.index a % qSize := by
      rw [ha.1, hsize, Nat.and_two_pow_sub_one_eq_mod]
    rw [hslot] at hp
    have hnew := h.not_accessed hi hpc
    refine ⟨used_of_access h hm' hpc rfl rfl rfl (Function.update_self _ _ _), ?_, ?_, ?_, ?_⟩
    · intro d
      show ((Function.update s.accessed a.1 _ d).map Prod.fst).Nodup
      by_cases hd : d = a.1
      · subst hd
        rw [Function.update_self, List.map_append, List.nodup_append_comm]
        exact List.nodup_cons.mpr ⟨hnew, h.nodup _⟩
      · rw [Function.update_of_ne hd]
        exact h.nodup d
    · intro d k ptr hk t ht
      rcases mem_update_append.mp hk with hold | ⟨rfl, hrecord⟩
      · exact (hstep _).mem_done (h.passed d k ptr hold t ht)
      · obtain ⟨rfl, -⟩ := Prod.mk.inj hrecord
        exact (hstep _).mem_done (ha.2.2 t ht)
    · exact fun k ptr => h.written_access hi hpc hp
    · exact fun k ptr => h.kept_access hi hpc hp
  | clear ptr hpc =>
    exact h.quiet hstep rfl rfl (used_of_return hm' hpc rfl (Function.update_self _ _ _))
  | call _ hpc | position hpc | announce _ hpc | fetchAdd hpc | assign _ hpc | own hpc | wait _ hpc
  | pass _ hpc | minStart hpc | visit _ _ hpc | publish _ _ hpc | locate hpc =>
    apply h.quiet hstep rfl rfl
    apply used_of_pc_ne hm' rfl
    · simp [hpc]
    · simp [State.goto]

theorem Contents.safe (h : Contents qSize s) (hi : Inv qSize n s) {e : ℕ} (hsize : qSize = 2 ^ e) :
    Safe qSize s := by
  refine ⟨?_, h.written, ?_, fun d => ⟨h.nodup d, (hi.valid d).nodup⟩⟩
  · intro k ptr hk
    exact h.written k ptr ((h.accessed .tail k ptr).mpr (.inl hk))
  · intro k ptr hk hlive
    rw [hsize, Nat.and_two_pow_sub_one_eq_mod, ← hsize]
    exact h.kept k ptr hk hlive

/-- **The ring is safe.** The size of the ring is a power of two that fits a word. For any number of
producers and consumers and in every interleaving of their accesses to memory with fewer than `2 ^ 63`
operations, each pop that has returned gave the pointer that the push with its index stored, and no slot
is overwritten before it is read, read before it is written, or delivered twice. -/
theorem reaches_ringSafe {e : ℕ} (hsize : qSize = 2 ^ e) (he : e < 64) {ptrArray ptr : ℕ → T}
    (hrun : Reaches (step qSize n) (fun _ _ => True) (initial ptrArray ptr) s)
    (hfew : s.operations < 2 ^ 63) : Safe qSize s := by
  have hinv : s.operations < 2 ^ 63 → Inv qSize n s ∧ Contents qSize s := by
    apply hrun.invariant
    · intro _
      exact ⟨initial_inv qSize n ptrArray ptr, initial_contents qSize ptrArray ptr⟩
    · intro s act s' ih _ hact hfew'
      obtain ⟨a, hm⟩ := step_cases hact
      have hfew : s.operations < 2 ^ 63 := hm.operations_le.trans_lt hfew'
      obtain ⟨hi, hc⟩ := ih hfew
      have hstep := hm.tickets_step (hi.pos_lt hfew a.1)
      have hq : qSize ≤ 2 ^ 63 := hsize ▸ Nat.pow_le_pow_right (by omega) (by omega)
      exact ⟨hi.step hm hq hfew, hc.step hi hm hstep hsize⟩
  obtain ⟨hi, hc⟩ := hinv hfew
  exact hc.safe hi hsize

/-- One producer and one consumer on a ring of two slots: three pushes, of which the third waits for the
pop. -/
theorem reaches_ringSafe_twoSlots :
    ∃ s : State ℕ, Reaches (step 2 fun _ => 1) (fun _ _ => True) (initial (fun _ => 0) fun _ => 0) s ∧
      s.completed .head = [(0, 7), (1, 8), (2, 9)] ∧ s.completed .tail = [(0, 7)] ∧ Safe 2 s := by
  have hcomputed : ((.push 0 7 :: List.replicate 9 (.go (.head, 0)) ++
        .push 0 8 :: List.replicate 9 (.go (.head, 0)) ++
        .push 0 9 :: List.replicate 6 (.go (.head, 0)) ++
        .pop 0 :: List.replicate 14 (.go (.tail, 0)) ++
        List.replicate 8 (.go (.head, 0)) : List (Action ℕ)).foldlM
        (fun s a => if True then step 2 (fun _ => 1) s a else none)
        (initial (fun _ => 0) fun _ => 0)).any
      (fun s : State ℕ => decide (s.completed .head = [(0, 7), (1, 8), (2, 9)] ∧
        s.completed .tail = [(0, 7)] ∧ s.operations < 2 ^ 63)) = true := by
    decide +kernel
  obtain ⟨s, hs, hfinal⟩ := (Option.any_eq_true _ _).mp hcomputed
  obtain ⟨hpushed, hpopped, hfew⟩ := of_decide_eq_true hfinal
  have hrun := Reaches.of_foldlM _ hs
  exact ⟨s, hrun, hpushed, hpopped, reaches_ringSafe (e := 1) rfl (by decide) hrun hfew⟩

end CodingForFun.MultiProducerConsumerLockfree
