import CodingForFun.Nvme.Handlers

/-!
# Runs of a queue pair

The queue pair is used correctly by any number of processes, whatever the interrupt handler, the watchdog
and the controller do meanwhile: commands reach the controller once and in order (`submission_in_order`),
completions reach the driver once and in order (`completion_in_order`), and the completion functions are
called once, with the data of their own requests (`handlers_once`).
-/

namespace CodingForFun.Nvme

open Lib

variable {depth : ℕ} {sqCmds : ℕ → Command} {s : System}

theorem reaches_inv (hdepth : 0 < depth) (h : Reaches step IdFound (start depth sqCmds) s) : Inv s :=
  h.invariant (start_inv hdepth sqCmds) fun _ _ _ hs hok hstep => hs.step hok hstep

/-- The controller fetches the commands that are submitted, in their order, and sees the tail move
exactly when there is one to fetch; the tail never catches up with the head from behind. -/
theorem submission_in_order (hdepth : 0 < depth)
    (h : Reaches step IdFound (start depth sqCmds) s) :
    s.fetched = s.submitted.take s.fetched.length ∧
      (s.ctrl.sqHead ≠ s.sqTailDb ↔ s.fetched.length < s.submitted.length) ∧
      s.submitted.length < s.fetched.length + s.q.qDepth ∧
      s.fetched.Perm (s.ctrl.executing ++ s.posted.map Completion.command) := by
  have hinv := reaches_inv hdepth h
  exact ⟨hinv.sq.fetched_eq, hinv.sq.pending_iff hinv.submitted_lt, hinv.submitted_lt, hinv.moved⟩

/-- Three commands in the two free slots of a ring of three, one after the other; the first two are
completed in the other order. -/
def threeCommands : List Action :=
  let cmd (id number : ℕ) : Command := ⟨id, number, .sync⟩
  [.claim 0 .sync, .claim 1 .sync, .install (cmd 1 1), .install (cmd 0 0), .submit (cmd 0 0),
    .submit (cmd 1 1), .fetch, .fetch, .complete 1 0, .irqEnter, .irqRound, .complete 0 0, .irqRound,
    .claim 1 .sync, .install (cmd 1 2), .irqRound, .irqExit, .submit (cmd 1 2), .fetch, .complete 0 0,
    .irqEnter, .irqRound]

theorem submission_in_order_three : ∃ s : System, s.submitted.length = 3 ∧
    s.fetched = s.submitted.take s.fetched.length := by
  have hrun : (threeCommands.foldlM (fun s a => if IdFound s a then step s a else none)
      (start 3 fun _ => ⟨0, 0, .null⟩)).any (fun s => decide (s.submitted.length = 3)) = true := by
    decide +kernel
  obtain ⟨s, hs, hlen⟩ := (Option.any_eq_true _ _).mp hrun
  exact ⟨s, of_decide_eq_true hlen, (submission_in_order (by decide) (Reaches.of_foldlM _ hs)).1⟩

/-- A block request that does not get an id is submitted all the same, and then the ring overruns: two
commands in a ring of two look like none. -/
theorem bioBusy_overruns : ∃ s, Reaches step (fun _ _ => True) (start 2 fun _ => ⟨0, 0, .null⟩) s ∧
    s.submitted.length = 2 ∧ s.ctrl.sqHead = s.sqTailDb := by
  have hrun : (([.claim 0 .bio, .bioBusy ⟨1, .bio⟩, .install ⟨0, 0, .bio⟩, .submit ⟨0, 0, .bio⟩] :
      List Action).foldlM (fun s a => if True then step s a else none)
        (start 2 fun _ => ⟨0, 0, .null⟩)).any
      (fun s => decide (s.submitted.length = 2 ∧ s.ctrl.sqHead = s.sqTailDb)) = true := by
    decide +kernel
  obtain ⟨s, hs, hlen⟩ := (Option.any_eq_true _ _).mp hrun
  exact ⟨s, Reaches.of_foldlM _ hs, of_decide_eq_true hlen⟩

/-- The driver handles the completions that are posted, in their order. Whenever its interrupt is idle,
the phase bit tells whether there is one to handle; the controller always has room for the completion of
a command that it executes; and the doorbell is rung whenever something has been handled. -/
theorem completion_in_order (hdepth : 0 < depth)
    (h : Reaches step IdFound (start depth sqCmds) s) :
    s.handled = s.posted.take s.handled.length ∧
      (s.irq = .idle → (nvmeIrqCheck s.q = true ↔ s.handled.length < s.posted.length)) ∧
      (s.ctrl.executing ≠ [] → ¬ CqFull s) ∧
      ∀ head phase, s.irq = .leaving head phase →
        ((processEnd s.q head phase).1 = true ↔ s.acked < s.handled.length) := by
  have hinv := reaches_inv hdepth h
  refine ⟨hinv.read.handled_eq, fun hidle => ?_, hinv.not_cqFull, fun head phase hirq => ?_⟩
  · have hread := hinv.read
    rw [hidle] at hread
    have hacked : s.acked = s.handled.length := hread.irq_eq
    unfold nvmeIrqCheck
    rw [beq_iff_eq, hread.head, hread.phase, hacked]
    exact hinv.ready_iff
  · have hread := hinv.read
    rw [hirq] at hread
    have hle := hread.acked_le
    unfold processEnd
    split
    case isTrue hsame =>
      have hacked := hread.unmoved hinv.posted_lt hsame.1
      simp [hacked]
    case isFalse hmoved =>
      refine ⟨fun _ => lt_of_le_of_ne hle fun hacked => hmoved ?_, fun _ => rfl⟩
      rw [hread.irq_eq.1, hread.irq_eq.2, hread.head, hread.phase, hacked]
      exact ⟨rfl, rfl⟩

/-- The run of three commands: all three completions are handled. -/
theorem completion_in_order_three : ∃ s : System, s.handled.length = 3 ∧
    s.handled = s.posted.take s.handled.length := by
  have hrun : (threeCommands.foldlM (fun s a => if IdFound s a then step s a else none)
      (start 3 fun _ => ⟨0, 0, .null⟩)).any (fun s => decide (s.handled.length = 3)) = true := by
    decide +kernel
  obtain ⟨s, hs, hlen⟩ := (Option.any_eq_true _ _).mp hrun
  exact ⟨s, of_decide_eq_true hlen, (completion_in_order (by decide) (Reaches.of_foldlM _ hs)).1⟩

theorem reaches_handlerInv (hdepth : 0 < depth) (h : Reaches step Quiet (start depth sqCmds) s) :
    HandlerInv s :=
  h.invariant ⟨start_inv hdepth sqCmds, start_infoInv depth sqCmds, start_callsInv depth sqCmds⟩
    fun _ _ _ hs hok hstep => hs.step hok hstep

/-- No completion function is called with the data of a request twice, or after `nvme_abort_command`;
each call is the one that the request asked for, with its own completion or for a time-out; nothing is
called that is not there or that warns; and a completion that is handled reaches its request, if nobody
aborted that. -/
theorem handlers_once (hdepth : 0 < depth) (h : Reaches step Quiet (start depth sqCmds) s) :
    (s.calls.filterMap fun call => call.ctx.request?).Nodup ∧
      (∀ call ∈ s.calls, call.fn ≠ .null ∧ ¬ call.Warns ∧ ∀ r, call.ctx = .data r →
        call.fn = r.fn ∧ r ∉ s.aborted ∧
          (call.cqe ∈ s.handled ∧ call.cqe.result = r ∨ call.cqe = abortCqe ∧ r ∈ s.timedOut)) ∧
      ∀ cqe ∈ s.handled, cqe.result.fn = .special ∨ cqe.result ∈ s.aborted ∨
        ∃ call ∈ s.calls, call.ctx = .data cqe.result := by
  obtain ⟨_, _, hcalls⟩ := reaches_handlerInv hdepth h
  refine ⟨hcalls.once, fun call hcall => ?_, fun cqe hcqe => ?_⟩
  · obtain ⟨hfn, hwarns, hown⟩ := hcalls.calls call hcall
    exact ⟨hfn, hwarns, hown⟩
  · rw [← mem_called]
    exact hcalls.handled cqe hcqe

/-- A command that is aborted before its completion comes, and one that is not. -/
theorem handlers_once_abort : ∃ s : System, s.handled.length = 2 ∧ s.aborted = [⟨0, .sync⟩] ∧
    (s.calls.filterMap fun call => call.ctx.request?).Nodup := by
  have hrun : (([.claim 0 .sync, .install ⟨0, 0, .sync⟩, .submit ⟨0, 0, .sync⟩, .claim 1 .bio,
      .install ⟨1, 1, .bio⟩, .fetch, .abort 0, .complete 0 0, .submit ⟨1, 1, .bio⟩, .fetch,
      .complete 0 0, .irqEnter, .irqRound, .irqRound] : List Action).foldlM
        (fun s a => if Quiet s a then step s a else none) (start 3 fun _ => ⟨0, 0, .null⟩)).any
      (fun s => decide (s.handled.length = 2 ∧ s.aborted = [⟨0, .sync⟩])) = true := by
    decide +kernel
  obtain ⟨s, hs, hlen⟩ := (Option.any_eq_true _ _).mp hrun
  obtain ⟨hhandled, haborted⟩ := of_decide_eq_true hlen
  exact ⟨s, hhandled, haborted, (handlers_once (by decide) (Reaches.of_foldlM _ hs)).1⟩

/-! ## `alloc_cmdid` -/

theorem findFirstZeroBit_lt_iff {bits : ℕ → Bool} {size : ℕ} :
    findFirstZeroBit bits size < size ↔ ∃ id < size, bits id = false := by
  unfold findFirstZeroBit
  cases hfind : (List.range size).find? fun id => !bits id with
  | none =>
    have hnone := List.find?_eq_none.mp hfind
    refine ⟨fun hlt => absurd hlt (lt_irrefl _), fun ⟨id, hid, hbit⟩ => ?_⟩
    exact absurd (by rw [hbit]; rfl) (hnone id (List.mem_range.mpr hid))
  | some id =>
    have hid := List.mem_range.mp (List.mem_of_find?_eq_some hfind)
    have hbit := List.find?_some hfind
    exact ⟨fun _ => ⟨id, hid, Bool.not_eq_true' _ |>.mp hbit⟩, fun _ => hid⟩

theorem bits_findFirstZeroBit {bits : ℕ → Bool} {size : ℕ}
    (hlt : findFirstZeroBit bits size < size) : bits (findFirstZeroBit bits size) = false := by
  unfold findFirstZeroBit at hlt ⊢
  cases hfind : (List.range size).find? fun id => !bits id with
  | none =>
    rw [hfind] at hlt
    exact absurd hlt (lt_irrefl _)
  | some id =>
    have hbit := List.find?_some hfind
    exact Bool.not_eq_true' _ |>.mp hbit

theorem allocCmdid_run (s : System) {fn : Handler} (hfn : fn ≠ .null) {cmdid : ℕ} {q : Queue}
    (h : allocCmdid s.q (Request.ctx ⟨s.requests, fn⟩) fn = (some cmdid, q)) :
    ∃ s₁ s₂, claim cmdid fn s = some s₁ ∧ install ⟨cmdid, s.requests, fn⟩ s₁ = some s₂ ∧
      s₂.q = q := by
  unfold allocCmdid at h
  simp only at h
  split at h
  · cases h
  · rename_i hlt
    obtain ⟨rfl, rfl⟩ := Prod.mk.inj h |>.imp Option.some.inj id
    have hlt := not_le.mp hlt
    refine ⟨_, _, if_pos ⟨hlt, bits_findFirstZeroBit hlt, hfn⟩, if_pos List.mem_cons_self, rfl⟩

/-- `alloc_cmdid` gives up exactly when one command less than the depth of the queue is on its way;
otherwise the id that it finds is nobody's. -/
theorem allocCmdid_busy_iff (hdepth : 0 < depth) (h : Reaches step IdFound (start depth sqCmds) s)
    (ctx : Ctx) (fn : Handler) :
    ((allocCmdid s.q ctx fn).1 = none ↔ (outstanding s).length + 1 = s.q.qDepth) ∧
      ∀ cmdid, (allocCmdid s.q ctx fn).1 = some cmdid →
        cmdid + 1 < s.q.qDepth ∧ ∀ cmd ∈ outstanding s, cmd.commandId ≠ cmdid := by
  have hinv := reaches_inv hdepth h
  have hpos := hinv.depth
  have hfull := hinv.ids.length_eq_iff
  rw [List.length_map] at hfull
  have hbusy : s.q.qDepth - 1 ≤ findFirstZeroBit s.q.cmdidData (s.q.qDepth - 1) ↔
      ∀ id < s.q.qDepth - 1, s.q.cmdidData id = true := by
    rw [← not_lt, findFirstZeroBit_lt_iff]
    simp
  unfold allocCmdid
  by_cases hle : s.q.qDepth - 1 ≤ findFirstZeroBit s.q.cmdidData (s.q.qDepth - 1)
  · simp only [if_pos hle, reduceCtorEq, true_iff, false_implies, implies_true, and_true]
    have hlen := hfull.mpr (hbusy.mp hle)
    omega
  · have hlen := mt (fun hlen => hbusy.mpr (hfull.mp hlen)) hle
    simp only [if_neg hle, reduceCtorEq, false_iff]
    refine ⟨by omega, ?_⟩
    intro cmdid hcmdid
    obtain rfl := Option.some.inj hcmdid
    have hlt := not_le.mp hle
    refine ⟨by omega, fun cmd hcmd hid => ?_⟩
    have hbit := bits_findFirstZeroBit hlt
    rw [← hid, (hinv.ids.mem_iff _).mpr (List.mem_map_of_mem hcmd)] at hbit
    exact Bool.noConfusion hbit

/-- A queue of two entries with a command on its way. -/
theorem allocCmdid_busy_iff_two : ∃ s, (outstanding s).length = 1 ∧
    (allocCmdid s.q (.data ⟨1, .sync⟩) .sync).1 = none := by
  have hrun : (([.claim 0 .sync] : List Action).foldlM
      (fun s a => if IdFound s a then step s a else none) (start 2 fun _ => ⟨0, 0, .null⟩)).any
      (fun s => decide ((outstanding s).length = 1 ∧ s.q.qDepth = 2)) = true := by decide +kernel
  obtain ⟨s, hs, hlen⟩ := (Option.any_eq_true _ _).mp hrun
  obtain ⟨hone, htwo⟩ := of_decide_eq_true hlen
  refine ⟨s, hone, (allocCmdid_busy_iff (by decide) (Reaches.of_foldlM _ hs) _ _).1.mpr ?_⟩
  rw [hone, htwo]

end CodingForFun.Nvme
