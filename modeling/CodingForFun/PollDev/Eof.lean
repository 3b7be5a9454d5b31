import CodingForFun.PollDev.Stream

/-!
# Reads of no bytes

`device_read` tests for data outside the semaphore and copies inside it. Two readers can both see the
same bytes; when the first loop takes them all, the second one copies nothing and the call returns 0,
which is the end of the file. `Drained` names the one step at which that happens: a read without
`O_NONBLOCK` enters its loop when the buffer is empty.
-/

namespace CodingForFun.PollDev

open Lib

variable {Pid : Type} [DecidableEq Pid] {s s' : State Pid} {a : Action Pid}

/-- Every read without `O_NONBLOCK` and with `len > 0` that was not ended by a signal has returned at
least one byte. -/
def NoEof (s : State Pid) : Prop :=
  ∀ len r, (Call.deviceRead false len, r) ∈ s.results → 0 < len →
    r = .erestartsys ∨ ∃ data, r = .bytes data ∧ 1 ≤ data.length

/-- The step runs the loop of a read without `O_NONBLOCK` on an empty buffer. -/
def Drained (s : State Pid) : Action Pid → Prop
  | .go p =>
    match s.pc p with
    | .copy (.deviceRead false len) => 0 < len ∧ isBufferEmpty s.stream.dev = true
    | _ => False
  | _ => False

instance (s : State Pid) (a : Action Pid) : Decidable (Drained s a) := by
  unfold Drained
  split
  · split <;> infer_instance
  · infer_instance

theorem copyToUser_length_pos {len : ℕ} {d : Dev} (hlen : 0 < len) :
    1 ≤ (copyToUser len d).1.length ↔ ¬ isBufferEmpty d = true := by
  obtain ⟨k, rfl⟩ : ∃ k, len = k + 1 := ⟨len - 1, by omega⟩
  rw [isBufferEmpty, decide_eq_true_iff]
  by_cases hempty : d.ir = d.iw
  · simp [copyToUser, hempty]
  · simp [copyToUser, hempty]

omit [DecidableEq Pid] in
theorem noEof_initial : NoEof (initial : State Pid) := by
  intro len r hmem
  exact absurd hmem List.not_mem_nil

omit [DecidableEq Pid] in
theorem drained_go {p : Pid} : Drained s (.go p) ↔
    ∃ len, s.pc p = .copy (.deviceRead false len) ∧ 0 < len ∧ isBufferEmpty s.stream.dev = true := by
  constructor
  · intro hdrained
    simp only [Drained] at hdrained
    split at hdrained
    · rename_i len hpc
      exact ⟨len, hpc, hdrained⟩
    · exact hdrained.elim
  · intro h
    obtain ⟨len, hpc, hempty⟩ := h
    simp only [Drained, hpc]
    exact hempty

omit [DecidableEq Pid] in
theorem not_drained_of_noReadLoop (hno : NoReadLoop s a) : ¬ Drained s a := by
  cases a with
  | go p =>
    rw [drained_go]
    intro h
    obtain ⟨len, hpc, -⟩ := h
    exact hno p false len rfl hpc
  | call p c => exact id
  | signal p => exact id

omit [DecidableEq Pid] in
theorem noEof_append {c : Call} {r : Result} (hs : NoEof s)
    (hresults : s'.results = s.results ++ [(c, r)]) :
    NoEof s' ↔ ∀ len, c = .deviceRead false len → 0 < len →
      r = .erestartsys ∨ ∃ data, r = .bytes data ∧ 1 ≤ data.length := by
  constructor
  · rintro h len rfl hlen
    exact h len r (by rw [hresults]; simp) hlen
  · intro h len r' hmem hlen
    rw [hresults] at hmem
    rcases List.mem_append.mp hmem with hold | hnew
    · exact hs len r' hold hlen
    · obtain ⟨rfl, rfl⟩ := Prod.mk.inj (List.mem_singleton.mp hnew)
      exact h len rfl hlen

/-- A step leads to a read of no bytes exactly when it is a loop on an empty buffer. -/
theorem Effect.noEof_iff (heffect : Effect s a s') (hs : NoEof s) : NoEof s' ↔ ¬ Drained s a := by
  cases heffect with
  | readLoop p nonblock len ha hpc hs' =>
    subst ha
    have hresults : s'.results =
        s.results ++ [(.deviceRead nonblock len, .bytes (s.stream.copyToUser len).1)] := by
      rw [hs']
      rfl
    rw [noEof_append hs hresults]
    cases nonblock with
    | true => simp [drained_go, hpc]
    | false =>
      rw [drained_go]
      constructor
      · rintro h ⟨len', hpc', hlen, hempty⟩
        obtain rfl : len = len' := by simpa [hpc] using hpc'
        obtain hsignal | ⟨data, hdata, hpos⟩ := h len rfl hlen
        · exact absurd hsignal (by simp)
        · obtain rfl := Result.bytes.inj hdata
          exact (copyToUser_length_pos hlen).mp hpos hempty
      · rintro h len' ⟨⟩ hlen
        exact .inr ⟨_, rfl, (copyToUser_length_pos hlen).mpr fun hempty => h ⟨_, hpc, hlen, hempty⟩⟩
  | quiet hno _ hresults =>
    refine ⟨fun _ => not_drained_of_noReadLoop hno, fun _ len r hmem hlen => ?_⟩
    rw [hresults] at hmem
    exact hs len r hmem hlen
  | returns c r hno _ hresults hsignal =>
    rw [noEof_append hs hresults]
    exact ⟨fun _ => not_drained_of_noReadLoop hno, fun _ len hc _ => .inl (hsignal len hc)⟩

/-- **No read returns the end of the file** in a run in which every read without `O_NONBLOCK` finds
the buffer non-empty when its loop starts; the first step at which one does not makes it return no
bytes. -/
theorem noEof_of_not_drained
    (hrun : Reaches step (fun s a => ¬ Drained s a) (initial : State Pid) s) :
    NoEof s ∧ ∀ a s', step s a = some s' → (NoEof s' ↔ ¬ Drained s a) := by
  have hs : NoEof s := by
    refine @Reaches.invariant _ _ _ _ NoEof _ _ hrun noEof_initial ?_
    intro s a s' hs hok hstep
    exact ((step_effect hstep).noEof_iff hs).mpr hok
  exact ⟨hs, fun a s' hstep => (step_effect hstep).noEof_iff hs⟩

/-! ## Two readers and a writer -/

/-- Processes `p`, `q` and `r` open the device, and `r` writes one byte. -/
def writeOneByte (p q r : Fin 3) : List (Action (Fin 3)) :=
  [.call p .deviceOpen, .go p, .call q .deviceOpen, .go q, .call r .deviceOpen, .go r,
    .call r (.deviceWrite false [7]), .go r, .go r, .go r]

/-- Process `p` asks for one byte and passes both tests. -/
def passTests (p : Fin 3) : List (Action (Fin 3)) :=
  [.call p (.deviceRead false 1), .go p, .go p]

/-- One reader gets the byte. -/
theorem noEof_of_not_drained_oneReader :
    ∃ s : State (Fin 3), Reaches step (fun s a => ¬ Drained s a) initial s ∧
      (Call.deviceRead false 1, Result.bytes [7]) ∈ s.results ∧ NoEof s := by
  have hrun : ((writeOneByte 0 1 2 ++ passTests 0 ++ [Action.go 0]).foldlM
      (fun s a => if ¬ Drained s a then step s a else none) (initial : State (Fin 3))).any
        (fun s : State (Fin 3) => decide ((Call.deviceRead false 1, Result.bytes [7]) ∈ s.results)) = true := by
    decide +kernel
  obtain ⟨s, hs, hread⟩ := (Option.any_eq_true _ _).mp hrun
  have hreach := Reaches.of_foldlM _ hs
  exact ⟨s, hreach, of_decide_eq_true hread, (noEof_of_not_drained hreach).1⟩

/-- Two readers pass the test while one byte is there; the second one returns no bytes. -/
theorem not_noEof_twoReaders :
    ∃ s : State (Fin 3), Reaches step (fun _ _ => True) initial s ∧ ¬ NoEof s := by
  have hrun : ((writeOneByte 0 1 2 ++ passTests 0 ++ passTests 1 ++ [Action.go 0, .go 1]).foldlM
      (fun s a => if True then step s a else none) (initial : State (Fin 3))).any
        (fun s : State (Fin 3) => decide ((Call.deviceRead false 1, Result.bytes []) ∈ s.results)) = true := by
    decide +kernel
  obtain ⟨s, hs, hread⟩ := (Option.any_eq_true _ _).mp hrun
  refine ⟨s, Reaches.of_foldlM _ hs, fun hno => ?_⟩
  obtain hsignal | ⟨data, hdata, hpos⟩ := hno 1 _ (of_decide_eq_true hread) Nat.one_pos
  · exact absurd hsignal (by simp)
  · obtain rfl := Result.bytes.inj hdata
    exact absurd hpos (by simp)

end CodingForFun.PollDev
