import CodingForFun.Rtl8139.Transmit

/-!
# The transmit part of the interrupt handler

As long as no more than four packets wait for the handler, it counts every packet once, in the order
of the packets (`Counted`). Its loop ends at a packet that the device has not completed, and while
`cur_tx` is below 4 also when it has caught up with `cur_tx`. Beyond that `dirty_tx` never meets
`cur_tx`, so with all packets completed the handler goes round the four descriptors for ever and
counts their packets again (`counted_once`).
-/

namespace CodingForFun.Rtl8139

open Lib

variable (h : Header)

/-- The transmit loop, cut off after `fuel` tests of its condition. -/
def txLoop (fuel : ℕ) (s : State) : Except Fault State :=
  whileM .unbounded (fun s => .ok (txGoesOn s)) (fun s => .ok (txRound h s)) fuel s

/-- The handler leaves its transmit loop, if the device does nothing meanwhile. -/
def Terminates (s : State) : Prop := ∃ fuel s', txLoop h fuel s = .ok s'

/-- The handler has counted completed packets only, each one once. -/
def Accounted (s : State) : Prop :=
  s.acked.Nodup ∧ (∀ p ∈ s.acked, ∃ n, p = some n ∧ s.completed n = true) ∧
    s.txPackets + s.txErrors = s.acked.length

/-- A packet is handed over only while fewer than four wait to be counted, and the handler is in its
loop only while `cur_tx` has not left the range of `dirty_tx` or some packet is not completed. -/
def Served (s : State) : Action → Prop
  | .xmit len => len ≤ h.txBufSize → s.sent < s.acked.length + numTxDesc
  | .round => s.curTx < numTxDesc ∨ ∃ n < s.sent, s.completed n = false
  | _ => True

instance (s : State) : (a : Action) → Decidable (Served h s a)
  | .xmit len => inferInstanceAs (Decidable (len ≤ h.txBufSize → s.sent < s.acked.length + numTxDesc))
  | .complete _ _ => inferInstanceAs (Decidable True)
  | .interrupt _ => inferInstanceAs (Decidable True)
  | .round => inferInstanceAs (Decidable (s.curTx < numTxDesc ∨ ∃ n < s.sent, s.completed n = false))

/-- The handler has counted the first packets, and up to four wait for it. -/
structure Counted (s : State) : Prop extends Placed s where
  dirty : s.dirtyTx = s.acked.length % numTxDesc
  acked : s.acked = (List.range s.acked.length).map some
  acked_le : s.acked.length ≤ s.sent
  sent_le : s.sent ≤ s.acked.length + numTxDesc
  acked_completed : ∀ n < s.acked.length, s.completed n = true
  completed_lt : ∀ n, s.completed n = true → n < s.sent
  status : ∀ n < s.sent, s.sent ≤ n + numTxDesc →
    (s.tsd (n % numTxDesc) &&& h.done ≠ 0 ↔ s.completed n = true)
  stopped : s.stopped = true → s.sent % 2 ^ 32 < numTxDesc ∧ s.acked.length < s.sent
  count : s.txPackets + s.txErrors = s.acked.length

section counted

variable {h} {s s' : State}

theorem counted_opened (tsd : ℕ → ℕ) : Counted h (opened tsd) where
  toPlaced := placed_opened tsd
  dirty := rfl
  acked := rfl
  acked_le := le_rfl
  sent_le := Nat.zero_le _
  acked_completed := by simp [opened]
  completed_lt := by simp [opened]
  status := by simp [opened]
  stopped := by simp [opened]
  count := rfl

theorem Counted.accounted (hs : Counted h s) : Accounted s := by
  refine ⟨?_, ?_, hs.count⟩
  · rw [hs.acked]
    exact (List.nodup_map_iff (Option.some_injective _)).mpr List.nodup_range
  · intro p hp
    rw [hs.acked] at hp
    obtain ⟨n, hn, rfl⟩ := List.mem_map.mp hp
    exact ⟨n, rfl, hs.acked_completed n (List.mem_range.mp hn)⟩

theorem Counted.xmit (hs : Counted h s) {len : ℕ} (hlen : len ≤ h.txBufSize)
    (hopen : s.stopped = false) (hroom : s.sent < s.acked.length + numTxDesc) :
    Counted h (netdevStartXmit h s len) := by
  have hplaced := hs.toPlaced.xmit (h := h) len
  rw [xmit_eq hlen] at hplaced ⊢
  have hnew : s.completed s.sent = false := by
    rw [← Bool.not_eq_true]
    intro hcompleted
    exact absurd (hs.completed_lt _ hcompleted) (lt_irrefl _)
  refine ⟨hplaced, hs.dirty, hs.acked, ?_, ?_, hs.acked_completed, ?_, ?_, ?_, hs.count⟩
  · exact Nat.le_succ_of_le hs.acked_le
  · exact hroom
  · intro n hn
    exact Nat.lt_succ_of_lt (hs.completed_lt n hn)
  · intro n hn hlast
    show Function.update s.tsd (s.curTx % numTxDesc) (max len h.ethMinLen) (n % numTxDesc) &&&
      h.done ≠ 0 ↔ s.completed n = true
    rw [hs.entry]
    have hold := hs.status n
    simp only at hn hlast
    by_cases hsent : n = s.sent
    · subst hsent
      have hclear : max len h.ethMinLen &&& h.done = 0 := h.length_clear len hlen
      rw [Function.update_self, hnew]
      simp [hclear]
    · have hdesc : n % numTxDesc ≠ s.sent % numTxDesc := by
        unfold numTxDesc at *
        omega
      rw [Function.update_of_ne hdesc]
      apply hold
      · omega
      · omega
  · intro hstopped
    have hcur := hs.cur
    have hdirty := hs.dirty
    have hle := hs.acked_le
    simp only [hopen, Bool.or_false, decide_eq_true_eq] at hstopped
    show (s.sent + 1) % 2 ^ 32 < numTxDesc ∧ s.acked.length < s.sent + 1
    unfold numTxDesc at *
    omega

theorem Counted.complete (hs : Counted h s) {d n status : ℕ} (hd : d < numTxDesc)
    (hbuf : s.txBuf d = some n) (hstatus : status &&& h.done ≠ 0)
    (hplaced : Placed { s with
      tsd := Function.update s.tsd d status
      completed := Function.update s.completed n true
      finished := s.finished + 1 }) :
    Counted h { s with
      tsd := Function.update s.tsd d status
      completed := Function.update s.completed n true
      finished := s.finished + 1 } := by
  obtain ⟨hn, hlast, hdesc⟩ := (hs.txBuf d hd n).mp hbuf
  have hcompleted : ∀ m, Function.update s.completed n true m = true ↔
      m = n ∨ s.completed m = true := by
    intro m
    by_cases hm : m = n
    · simp [hm]
    · simp [hm]
  refine ⟨hplaced, hs.dirty, hs.acked, hs.acked_le, hs.sent_le, ?_, ?_, ?_, hs.stopped, hs.count⟩
  · intro m hm
    exact (hcompleted m).mpr (.inr (hs.acked_completed m hm))
  · intro m hm
    rcases (hcompleted m).mp hm with rfl | hm
    · exact hn
    · exact hs.completed_lt m hm
  · intro m hm hmlast
    show Function.update s.tsd d status (m % numTxDesc) &&& h.done ≠ 0 ↔
      Function.update s.completed n true m = true
    simp only at hm hmlast
    rw [hcompleted]
    by_cases hmn : m = n
    · rw [hmn, hdesc, Function.update_self]
      simp [hstatus]
    · have hne : m % numTxDesc ≠ d := by
        unfold numTxDesc at *
        omega
      rw [Function.update_of_ne hne, hs.status m hm hmlast]
      simp [hmn]

theorem Counted.waiting (hs : Counted h s) (hgoes : txGoesOn s = true)
    (hserved : Served h s .round) : s.acked.length < s.sent := by
  have hcur := hs.cur
  have hdirty := hs.dirty
  have hle := hs.acked_le
  by_contra hnone
  have hsent : s.sent = s.acked.length := by omega
  have hnotstopped : s.stopped = false := by
    rw [← Bool.not_eq_true]
    intro hstopped
    exact hnone (hs.stopped hstopped).2
  have hne : s.dirtyTx ≠ s.curTx := by
    simp only [txGoesOn, hnotstopped, Bool.or_false, Bool.and_eq_true, decide_eq_true_eq] at hgoes
    exact hgoes.2
  rcases hserved with hsmall | ⟨n, hn, hpending⟩
  · unfold numTxDesc at *
    omega
  · rw [hs.acked_completed n (hsent ▸ hn)] at hpending
    exact Bool.noConfusion hpending

theorem Counted.frame (hs : Counted h s) (serving : Bool) (txDropped : ℕ) :
    Counted h { s with serving := serving, txDropped := txDropped } :=
  ⟨⟨hs.cur, hs.txBuf⟩, hs.dirty, hs.acked, hs.acked_le, hs.sent_le, hs.acked_completed,
    hs.completed_lt, hs.status, hs.stopped, hs.count⟩

theorem Counted.round (hs : Counted h s) (hwaiting : s.acked.length < s.sent)
    (hstatus : s.tsd s.dirtyTx &&& h.done ≠ 0) :
    Counted h (txRound h s) ∧ (txRound h s).acked.length = s.acked.length + 1 := by
  obtain ⟨hcur, -, hsent, hcompleted, -, htsd⟩ := txRound_frame (h := h) (s := s)
  obtain ⟨hdirty', hstopped', hcount', -, hacked'⟩ := txRound_done hstatus
  have hdirty := hs.dirty
  have hsent_le := hs.sent_le
  have hbuf : s.txBuf s.dirtyTx = some s.acked.length := by
    rw [hdirty]
    exact (hs.txBuf _ (Nat.mod_lt _ (by decide)) _).mpr ⟨hwaiting, hsent_le, rfl⟩
  have hlen : (txRound h s).acked.length = s.acked.length + 1 := by
    rw [hacked', List.length_append, List.length_singleton]
  have hdirty'' : (txRound h s).dirtyTx = (s.acked.length + 1) % numTxDesc := by
    rw [hdirty', hdirty]
    unfold numTxDesc
    omega
  refine ⟨⟨hs.txRound, ?_, ?_, ?_, ?_, ?_, ?_, ?_, ?_, ?_⟩, hlen⟩
  · rw [hdirty'', hlen]
  · rw [hlen, List.range_succ, List.map_append, ← hs.acked, hacked', hbuf]
    rfl
  · rw [hlen, hsent]
    exact hwaiting
  · rw [hlen, hsent]
    exact Nat.le_succ_of_le hsent_le |>.trans (by omega)
  · intro n hn
    rw [hcompleted]
    rw [hlen] at hn
    rcases Nat.lt_succ_iff_lt_or_eq.mp hn with hn | rfl
    · exact hs.acked_completed n hn
    · rw [hdirty] at hstatus
      exact (hs.status _ hwaiting hsent_le).mp hstatus
  · rw [hcompleted, hsent]
    exact hs.completed_lt
  · rw [hcompleted, hsent, htsd]
    exact hs.status
  · intro hstopped
    rw [hstopped', Bool.and_eq_true, Bool.not_eq_true', decide_eq_false_iff_not, hdirty'', hs.cur]
      at hstopped
    obtain ⟨hwas, hne⟩ := hstopped
    obtain ⟨hsmall, -⟩ := hs.stopped hwas
    rw [hsent, hlen]
    unfold numTxDesc at *
    omega
  · rw [hcount', hlen, hs.count]

theorem Counted.next (hs : Counted h s) (hgoes : txGoesOn s = true)
    (hserved : Served h s .round) : Counted h (txRound h s) := by
  by_cases hstatus : s.tsd s.dirtyTx &&& h.done = 0
  · rw [txRound_pending hstatus]
    exact hs.frame false _
  · exact (hs.round (hs.waiting hgoes hserved) hstatus).1

theorem Counted.step (hs : Counted h s) {a : Action} (ha : Served h s a)
    (h' : step h s a = some s') : Counted h s' := by
  have hplaced := hs.toPlaced.step h'
  cases a with
  | xmit len =>
    obtain ⟨hopen, rfl⟩ := step_xmit h'
    by_cases hlen : len ≤ h.txBufSize
    · exact hs.xmit hlen hopen (ha hlen)
    · rw [xmit_oversized (not_le.mp hlen)]
      exact hs.frame _ _
  | complete d status =>
    obtain ⟨n, hbuf, hd, -, hstatus, rfl⟩ := step_complete h'
    exact hs.complete hd hbuf hstatus hplaced
  | interrupt isr =>
    obtain ⟨-, rfl⟩ := step_interrupt h'
    exact hs.frame _ _
  | round =>
    obtain ⟨-, ⟨hgoes, rfl⟩ | ⟨-, rfl⟩⟩ := step_round h'
    · exact hs.next hgoes ha
    · exact hs.frame false _

end counted

/-! ### The loop -/

section loop

variable {h} {s : State}

theorem txLoop_next (hgoes : txGoesOn s = true) (fuel : ℕ) :
    txLoop h (fuel + 1) s = txLoop h fuel (txRound h s) := by
  unfold txLoop
  exact whileM_true fuel (congrArg Except.ok hgoes) rfl

/-- A round of the loop, with room left in the ring or a packet that the device still has: the next
packet is counted, or the loop is left. -/
theorem Counted.progress (hs : Counted h s) (hserved : Served h s .round)
    (hgoes : txGoesOn s = true) :
    Served h (txRound h s) .round ∧ ((txRound h s).serving = false ∨
      (txRound h s).sent - (txRound h s).acked.length < s.sent - s.acked.length) := by
  obtain ⟨hcur, -, hsent, hcompleted, -, -⟩ := txRound_frame (h := h) (s := s)
  refine ⟨?_, ?_⟩
  · unfold Served at hserved ⊢
    rwa [hcur, hsent, hcompleted]
  · have hwaiting := hs.waiting hgoes hserved
    by_cases hstatus : s.tsd s.dirtyTx &&& h.done = 0
    · left
      rw [txRound_pending hstatus]
    · right
      rw [(hs.round hwaiting hstatus).2, hsent]
      omega

theorem Counted.terminates (hs : Counted h s) (hserved : Served h s .round) : Terminates h s := by
  have hround : ∀ s, Counted h s ∧ Served h s .round →
      (∃ s', Except.ok (txGoesOn s) = (.ok true : Except Fault Bool) ∧
        Except.ok (txRound h s) = (.ok s' : Except Fault State) ∧
        (Counted h s' ∧ Served h s' .round) ∧
        (if s'.serving then s'.sent - s'.acked.length + 1 else 0) <
          if s.serving then s.sent - s.acked.length + 1 else 0) ∨
      (Except.ok (txGoesOn s) = (.ok false : Except Fault Bool) ∧ True) := by
    rintro s ⟨hs, hserved⟩
    cases hgoes : txGoesOn s with
    | false => exact .inr ⟨rfl, trivial⟩
    | true =>
      obtain ⟨hserved', hless⟩ := hs.progress hserved hgoes
      refine .inl ⟨txRound h s, rfl, rfl, ⟨hs.next hgoes hserved, hserved'⟩, ?_⟩
      have hserving : s.serving = true := by
        unfold txGoesOn at hgoes
        exact (Bool.and_eq_true_iff.mp hgoes).1
      rw [hserving, if_pos rfl]
      rcases hless with hleft | hless
      · simp [hleft]
      · split <;> omega
  obtain ⟨s', hs', -⟩ := whileM_ok (fun s => Counted h s ∧ Served h s .round)
    (fun s => if s.serving then s.sent - s.acked.length + 1 else 0) hround _ s ⟨hs, hserved⟩
    (Nat.lt_succ_self _)
  exact ⟨_, s', hs'⟩

/-- Four descriptors with a final status, and `cur_tx` out of the reach of `dirty_tx`. -/
structure Circling (h : Header) (s : State) : Prop where
  serving : s.serving = true
  cur : numTxDesc ≤ s.curTx
  dirty : s.dirtyTx < numTxDesc
  status : ∀ d < numTxDesc, s.tsd d &&& h.done ≠ 0

theorem Circling.round (hs : Circling h s) : Circling h (txRound h s) := by
  obtain ⟨hcur, -, -, -, -, htsd⟩ := txRound_frame (h := h) (s := s)
  obtain ⟨hdirty, -, -, hserving, -⟩ := txRound_done (hs.status _ hs.dirty)
  refine ⟨?_, ?_, ?_, ?_⟩
  · rw [hserving, hs.serving]
  · rw [hcur]
    exact hs.cur
  · rw [hdirty]
    exact Nat.mod_lt _ (by decide)
  · rw [htsd]
    exact hs.status

theorem Circling.not_terminates (hs : Circling h s) : ¬ Terminates h s := by
  rintro ⟨fuel, s', hrun⟩
  induction fuel generalizing s with
  | zero => exact absurd hrun (by simp [txLoop, whileM])
  | succ fuel ih =>
    have hne : s.dirtyTx ≠ s.curTx := (hs.dirty.trans_le hs.cur).ne
    have hgoes : txGoesOn s = true := by
      unfold txGoesOn
      simp [hs.serving, hne]
    rw [txLoop_next hgoes] at hrun
    exact ih hs.round hrun

theorem Counted.terminates_iff (hs : Counted h s) (hserving : s.serving = true) :
    Terminates h s ↔ Served h s .round := by
  refine ⟨?_, hs.terminates⟩
  intro hterm
  by_contra hnot
  simp only [Served, not_or, not_lt, not_exists, not_and, Bool.not_eq_false] at hnot
  obtain ⟨hcur, hcompleted⟩ := hnot
  refine Circling.not_terminates ⟨hserving, hcur, ?_, ?_⟩ hterm
  · rw [hs.dirty]
    exact Nat.mod_lt _ (by decide)
  · intro d hd
    -- The last packet that was put into this descriptor.
    obtain ⟨n, hn, hlast, hdesc⟩ : ∃ n, n < s.sent ∧ s.sent ≤ n + numTxDesc ∧ n % numTxDesc = d := by
      have hsent := hs.cur
      refine ⟨s.sent - 1 - (s.sent + 3 - d) % 4, ?_⟩
      unfold numTxDesc at *
      omega
    rw [← hdesc]
    exact (hs.status n hn hlast).mpr (hcompleted n hn)

end loop

/-- In every run whose steps are served, the handler has counted completed packets only and each one
once, and it leaves its loop exactly when `cur_tx` has not left the range of `dirty_tx` or some packet
is not completed. -/
theorem counted_once {tsd : ℕ → ℕ} {s : State} (hrun : Reaches (step h) (Served h) (opened tsd) s) :
    Accounted s ∧ (s.serving = true → (Terminates h s ↔ Served h s .round)) := by
  have hs : Counted h s := hrun.invariant (counted_opened tsd) fun s a s' hs ha h' => hs.step ha h'
  exact ⟨hs.accounted, hs.terminates_iff⟩

/-- Two packets, the first of them completed and counted. -/
theorem counted_once_two_packets : ∃ s, Accounted s ∧ s.txPackets = 1 ∧ s.sent = 2 ∧
    (s.serving = true → (Terminates .dataSheet s ↔ Served .dataSheet s .round)) := by
  have hrun : (([.xmit 60, .xmit 100, .complete 0 0x803c, .interrupt 0x4, .round] :
      List Action).foldlM (fun s a => if Served .dataSheet s a then step .dataSheet s a else none)
        (opened fun _ => 0x2000)).any (fun s => decide (s.txPackets = 1 ∧ s.sent = 2)) = true := by
    decide +kernel
  obtain ⟨s, hs, hcounts⟩ := (Option.any_eq_true _ _).mp hrun
  have hcounts := of_decide_eq_true hcounts
  have hresult := counted_once .dataSheet (Reaches.of_foldlM _ hs)
  exact ⟨s, hresult.1, hcounts.1, hcounts.2, hresult.2⟩

/-- Four packets, all of them completed when the interrupt comes. -/
theorem four_completed_packets : ∃ s, ([.xmit 60, .xmit 60, .xmit 60, .xmit 60, .complete 0 0x803c,
    .complete 1 0x803c, .complete 2 0x803c, .complete 3 0x803c, .interrupt 0x4] :
      List Action).foldlM (step .dataSheet) (opened fun _ => 0x2000) = some s ∧
    ¬ Terminates .dataSheet s := by
  refine ⟨_, rfl, Circling.not_terminates ⟨rfl, ?_, ?_, ?_⟩⟩
  · decide
  · decide
  · decide

end CodingForFun.Rtl8139
