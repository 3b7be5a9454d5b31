import CodingForFun.MultiProducerConsumerLockfree.Indices

/-!
# The minima

While a call uses an index its entry of `thr_p_` is at most that index: the value announced before the
fetch-and-add is at most what the fetch-and-add returns. So the minimum that a scan ends with bounds the
indices of the other side that are in use, now and later, and `last_head_` and `last_tail_` are such
bounds whoever writes them last. A call that gets past its `while` knows that the other side is done with
the slot (`Passed`).
-/

namespace CodingForFun.MultiProducerConsumerLockfree

open Lib

variable {T : Type} {qSize : ℕ} {n : Side → ℕ}

/-- How far a side may be ahead of the other. -/
def slack (qSize : ℕ) : Side → ℕ
  | .head => qSize
  | .tail => 0

/-- What index `k` of side `d` waits for: the calls of the other side with the indices that are `slack`
and more behind have returned. -/
def Passed (qSize : ℕ) (s : State T) (d : Side) (k : ℕ) : Prop :=
  ∀ t, t + slack qSize d ≤ k → t ∈ (tickets s d.other).done

/-- What an agent knows at each place. -/
def AgentOk (qSize : ℕ) (s : State T) (a : Agent) : Pc T → Prop
  | .idle | .position => True
  | .announce head => head ≤ s.pos a.1
  | .fetchAdd => s.thr a ≤ s.pos a.1
  | .assign head => head = s.index a ∧ s.thr a ≤ s.index a
  | .own | .minStart | .clear _ => s.thr a = s.index a
  | .test head => head = s.index a ∧ s.thr a = s.index a
  | .scan j m => s.thr a = s.index a ∧ (tickets s a.1.other).Scanned (fun i => i < j) m
  | .locate => s.thr a = s.index a ∧ Passed qSize s a.1 (s.index a)
  | .slot head => head = s.index a ∧ s.thr a = s.index a ∧ Passed qSize s a.1 (s.index a)

/-- The counters, the bounds and the agents. -/
structure Inv (qSize : ℕ) (n : Side → ℕ) (s : State T) : Prop where
  operations : s.pos .head + s.pos .tail = s.operations
  valid : ∀ d, (tickets s d).Valid
  last : ∀ d, (tickets s d).Scanned (fun _ => True) (s.last d)
  inRange : ∀ a, s.pc a ≠ .idle → a.2 < n a.1
  agents : ∀ a, AgentOk qSize s a (s.pc a)

theorem initial_inv (qSize : ℕ) (n : Side → ℕ) (ptrArray ptr : ℕ → T) :
    Inv qSize n (initial ptrArray ptr) where
  operations := rfl
  valid _ :=
    { held_lt := fun hheld => absurd hheld.symm (Option.some_ne_none _)
      done_lt := fun hk => absurd hk List.not_mem_nil
      inj := fun hheld => absurd hheld.symm (Option.some_ne_none _)
      not_done := fun hheld => absurd hheld.symm (Option.some_ne_none _)
      all := fun hk => absurd hk (Nat.not_lt_zero _)
      nodup := List.nodup_nil }
  last _ := .zero _ _
  inRange _ hpc := absurd rfl hpc
  agents _ := trivial

variable {s s' : State T} {a : Agent}

theorem Inv.pos_le (h : Inv qSize n s) (d : Side) : s.pos d ≤ s.operations := by
  have hsum := h.operations
  cases d with
  | head => omega
  | tail => omega

theorem Inv.pos_lt (h : Inv qSize n s) (hfew : s.operations < 2 ^ 63) (d : Side) :
    s.pos d + 1 < 2 ^ 64 := by
  have hle := h.pos_le d
  omega

theorem AgentOk.thr_le (h : AgentOk qSize s a (s.pc a)) {k : ℕ} (hheld : s.held a = some k) :
    s.thr a ≤ k := by
  obtain ⟨hholds, rfl⟩ := held_eq_some.mp hheld
  cases hpc : s.pc a with
  | idle | position | announce | fetchAdd =>
    rw [hpc] at hholds
    exact absurd hholds Bool.false_ne_true
  | assign head =>
    rw [hpc] at h
    exact h.2
  | own | minStart | clear =>
    rw [hpc] at h
    exact le_of_eq h
  | test head =>
    rw [hpc] at h
    exact h.2.le
  | scan j m | locate =>
    rw [hpc] at h
    exact h.1.le
  | slot head =>
    rw [hpc] at h
    exact h.2.1.le

theorem AgentOk.frame {pc : Pc T} (h : AgentOk qSize s a pc) (hthr : s'.thr a = s.thr a)
    (hindex : s'.index a = s.index a) (hstep : ∀ d, (tickets s d).Step (tickets s' d)) :
    AgentOk qSize s' a pc := by
  have hpos : s.pos a.1 ≤ s'.pos a.1 := (hstep a.1).next_le
  have hpassed : ∀ k, Passed qSize s a.1 k → Passed qSize s' a.1 k :=
    fun k hk t ht => (hstep _).mem_done (hk t ht)
  cases pc with
  | idle | position => trivial
  | announce head => exact le_trans h hpos
  | fetchAdd => exact (hthr.le.trans h).trans hpos
  | assign head | own | test head | minStart | clear ptr =>
    simp only [AgentOk] at h ⊢
    rwa [hthr, hindex]
  | scan j m =>
    simp only [AgentOk] at h ⊢
    rw [hthr, hindex]
    exact ⟨h.1, h.2.step (hstep _)⟩
  | locate =>
    simp only [AgentOk] at h ⊢
    rw [hthr, hindex]
    exact ⟨h.1, hpassed _ h.2⟩
  | slot head =>
    simp only [AgentOk] at h ⊢
    rw [hthr, hindex]
    exact ⟨h.1, h.2.1, hpassed _ h.2.2⟩

theorem lt_of_lt_limit {d : Side} {head last t : ℕ} (hlt : head < limit qSize d last)
    (hlast : last + qSize < 2 ^ 64) (ht : t + slack qSize d ≤ head) : t < last := by
  cases d with
  | head =>
    simp only [limit, slack, Nat.mod_eq_of_lt hlast] at hlt ht
    omega
  | tail =>
    simp only [limit, slack] at hlt ht
    omega

theorem Inv.passed (h : Inv qSize n s) {head : ℕ} (hlt : head < limit qSize a.1 (s.last a.1.other))
    (hlast : s.last a.1.other + qSize < 2 ^ 64) : Passed qSize s a.1 head :=
  fun _ ht => (h.last _).mem_done (h.valid _) (lt_of_lt_limit hlt hlast ht)

theorem Inv.own (h : Inv qSize n s) (hm : Move qSize n s a s')
    (hstep : ∀ d, (tickets s d).Step (tickets s' d)) (hlast : s.last a.1.other + qSize < 2 ^ 64) :
    ∃ pc, s'.pc a = pc ∧ AgentOk qSize s' a pc := by
  have ha := h.agents a
  cases hm with
  | call ptr hpc => exact ⟨_, Function.update_self _ _ _, trivial⟩
  | position hpc => exact ⟨_, Function.update_self _ _ _, le_rfl⟩
  | announce head hpc =>
    rw [hpc] at ha
    refine ⟨_, Function.update_self _ _ _, ?_⟩
    show Function.update s.thr a head a ≤ s.pos a.1
    rw [Function.update_self]
    exact ha
  | fetchAdd hpc =>
    rw [hpc] at ha
    refine ⟨_, Function.update_self _ _ _, ?_⟩
    show s.pos a.1 = Function.update s.index a (s.pos a.1) a ∧ s.thr a ≤ Function.update s.index a _ a
    rw [Function.update_self]
    exact ⟨rfl, ha⟩
  | assign head hpc =>
    rw [hpc] at ha
    refine ⟨_, Function.update_self _ _ _, ?_⟩
    show Function.update s.thr a head a = s.index a
    rw [Function.update_self]
    exact ha.1
  | own hpc =>
    rw [hpc] at ha
    exact ⟨_, Function.update_self _ _ _, ha, ha⟩
  | wait head hpc =>
    rw [hpc] at ha
    exact ⟨_, Function.update_self _ _ _, ha.2⟩
  | pass head hpc hlt =>
    rw [hpc] at ha
    have hpassed : Passed qSize s a.1 (s.index a) := ha.1 ▸ h.passed hlt hlast
    refine ⟨_, Function.update_self _ _ _, ?_⟩
    exact AgentOk.frame (s := s) ⟨ha.2, hpassed⟩ rfl rfl hstep
  | minStart hpc =>
    rw [hpc] at ha
    refine ⟨_, Function.update_self _ _ _, ?_⟩
    refine AgentOk.frame (s := s) ⟨ha, ?_⟩ rfl rfl hstep
    exact (Tickets.Scanned.start _).mono fun i _ _ hi => absurd hi (Nat.not_lt_zero i)
  | visit j m hpc hj =>
    rw [hpc] at ha
    refine ⟨_, Function.update_self _ _ _, ?_⟩
    refine AgentOk.frame (s := s) ⟨ha.1, ?_⟩ rfl rfl hstep
    have hvisit := ha.2.visit fun k => (h.agents (a.1.other, j)).thr_le
    exact hvisit.mono fun i _ _ hi => Nat.lt_succ_iff_lt_or_eq.mp hi
  | publish j m hpc hj =>
    rw [hpc] at ha
    exact ⟨_, Function.update_self _ _ _, ha.1⟩
  | locate hpc =>
    rw [hpc] at ha
    refine ⟨_, Function.update_self _ _ _, ?_⟩
    exact AgentOk.frame (s := s) ⟨ha.1, ha.1, ha.2⟩ rfl rfl hstep
  | slot head hpc =>
    rw [hpc] at ha
    exact ⟨_, Function.update_self _ _ _, ha.2.1⟩
  | clear ptr hpc => exact ⟨_, Function.update_self _ _ _, trivial⟩

/-- The bounds: a scan that is finished has seen every agent that uses an index. -/
theorem Inv.last_step (h : Inv qSize n s) (hm : Move qSize n s a s')
    (hstep : ∀ d, (tickets s d).Step (tickets s' d)) (d : Side) :
    (tickets s' d).Scanned (fun _ => True) (s'.last d) := by
  cases hm with
  | publish j m hpc hj =>
    apply Tickets.Scanned.step _ (hstep d)
    show (tickets s d).Scanned _ (Function.update s.last a.1.other m d)
    by_cases hd : d = a.1.other
    · subst hd
      have ha := h.agents a
      rw [hpc] at ha
      rw [Function.update_self]
      refine ha.2.mono fun i k hheld _ => ?_
      have hbusy : s.pc (a.1.other, i) ≠ .idle := by
        intro hidle
        have hholds := (held_eq_some.mp hheld).1
        rw [hidle] at hholds
        exact Bool.false_ne_true hholds
      exact (h.inRange _ hbusy).trans_le hj
    · rw [Function.update_of_ne hd]
      exact h.last d
  | _ => exact (h.last d).step (hstep d)

theorem Inv.inRange_step (h : Inv qSize n s) (hm : Move qSize n s a s') (b : Agent)
    (hb : s'.pc b ≠ .idle) : b.2 < n b.1 := by
  by_cases hba : b = a
  · subst hba
    cases hm with
    | call ptr hpc hlt => exact hlt
    | clear ptr hpc => exact h.inRange b (by simp [hpc])
    | position hpc | announce _ hpc | fetchAdd hpc | assign _ hpc | own hpc | wait _ hpc | pass _ hpc
    | minStart hpc | visit _ _ hpc | publish _ _ hpc | locate hpc | slot _ hpc =>
      exact h.inRange b (by simp [hpc])
  · rw [(hm.frame hba).1] at hb
    exact h.inRange b hb

theorem Inv.operations_step (h : Inv qSize n s) (hm : Move qSize n s a s')
    (hpos : s.pos a.1 + 1 < 2 ^ 64) : s'.pos .head + s'.pos .tail = s'.operations := by
  have hsum := h.operations
  cases hm with
  | fetchAdd hpc =>
    show Function.update s.pos a.1 _ .head + Function.update s.pos a.1 _ .tail = s.operations + 1
    rw [Nat.mod_eq_of_lt hpos]
    cases hd : a.1 with
    | head =>
      rw [Function.update_self, Function.update_of_ne (by simp)]
      omega
    | tail =>
      rw [Function.update_self, Function.update_of_ne (by simp)]
      omega
  | _ => exact hsum

theorem Inv.step (h : Inv qSize n s) (hm : Move qSize n s a s') (hsize : qSize ≤ 2 ^ 63)
    (hfew : s.operations < 2 ^ 63) : Inv qSize n s' := by
  have hpos := h.pos_lt hfew a.1
  have hlast : s.last a.1.other + qSize < 2 ^ 64 := by
    have hle : s.last a.1.other ≤ s.pos a.1.other := (h.last a.1.other).le_next
    have hle' := h.pos_le a.1.other
    omega
  have hstep := hm.tickets_step hpos
  refine ⟨h.operations_step hm hpos, fun d => (h.valid d).step (hstep d), h.last_step hm hstep,
    h.inRange_step hm, ?_⟩
  intro b
  by_cases hb : b = a
  · subst hb
    obtain ⟨pc, hpc, hok⟩ := h.own hm hstep hlast
    rw [hpc]
    exact hok
  · obtain ⟨hpc, hthr, hindex⟩ := hm.frame hb
    rw [hpc]
    exact (h.agents b).frame hthr hindex hstep

end CodingForFun.MultiProducerConsumerLockfree
