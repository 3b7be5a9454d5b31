import CodingForFun.Lib.IdPool
import CodingForFun.Lib.PhaseRing
import CodingForFun.Nvme.System

/-!
# The invariant of a queue pair

The commands on their way (`outstanding`) are the holders of the command ids, so there are fewer of them
than the rings have slots: neither ring can overrun, although nobody compares a tail with a head.
-/

namespace CodingForFun.Nvme

open Lib

theorem bump_mod {depth : ℕ} (hdepth : 0 < depth) (i : ℕ) :
    bump depth (i % depth) = (i + 1) % depth :=
  (slot_succ i depth hdepth).symm

theorem lap_bump {depth : ℕ} (hdepth : 0 < depth) (i : ℕ) :
    (if decide (i % depth + 1 = depth) = true then !lap depth i else lap depth i) =
      lap depth (i + 1) := by
  rw [lap_succ depth i hdepth]
  simp only [decide_eq_true_eq]

/-! ## The submission ring -/

/-- The ring holds the commands that the controller has yet to fetch. -/
structure SqInv (depth : ℕ) (sqCmds : ℕ → Command) (sqTail tailDb ctrlHead : ℕ)
    (submitted fetched : List Command) : Prop where
  ring : RingHolds sqCmds depth submitted fetched.length
  tail : sqTail = submitted.length % depth
  db : tailDb = sqTail
  head : ctrlHead = fetched.length % depth
  fetched_eq : fetched = submitted.take fetched.length

section sq

variable {depth : ℕ} {sqCmds : ℕ → Command} {sqTail tailDb ctrlHead : ℕ}
  {submitted fetched : List Command}

theorem SqInv.push (h : SqInv depth sqCmds sqTail tailDb ctrlHead submitted fetched)
    (hdepth : 0 < depth) (hroom : submitted.length < fetched.length + depth) (cmd : Command) :
    SqInv depth (Function.update sqCmds sqTail cmd) (bump depth sqTail) (bump depth sqTail) ctrlHead
      (submitted ++ [cmd]) fetched := by
  have hle := h.ring.le
  refine ⟨?_, ?_, rfl, h.head, ?_⟩
  · rw [h.tail]
    exact h.ring.push hroom cmd
  · rw [h.tail, bump_mod hdepth, List.length_append, List.length_singleton]
  · rw [List.take_append_of_le_length hle]
    exact h.fetched_eq

theorem SqInv.pending_iff (h : SqInv depth sqCmds sqTail tailDb ctrlHead submitted fetched)
    (hroom : submitted.length < fetched.length + depth) :
    ctrlHead ≠ tailDb ↔ fetched.length < submitted.length := by
  have hle := h.ring.le
  rw [h.db, h.tail, h.head]
  constructor
  · intro hne
    by_contra hnot
    exact hne (by rw [show fetched.length = submitted.length by omega])
  · intro hlt
    exact slot_ne hlt hroom

theorem SqInv.pop (h : SqInv depth sqCmds sqTail tailDb ctrlHead submitted fetched)
    (hdepth : 0 < depth) (hlt : fetched.length < submitted.length) :
    sqCmds ctrlHead = submitted[fetched.length] ∧
      SqInv depth sqCmds sqTail tailDb (bump depth ctrlHead) submitted
        (fetched ++ [sqCmds ctrlHead]) := by
  obtain ⟨hslot, hring⟩ := h.ring.pop hlt
  have hcmd : sqCmds ctrlHead = submitted[fetched.length] := by rw [h.head, hslot]
  refine ⟨hcmd, ?_, h.tail, h.db, ?_, ?_⟩
  · rwa [List.length_append, List.length_singleton]
  · rw [h.head, bump_mod hdepth, List.length_append, List.length_singleton]
  · rw [List.length_append, List.length_singleton, List.take_succ_eq_append_getElem hlt, hcmd]
    exact congrArg (· ++ _) h.fetched_eq

end sq

/-! ## The completion ring -/

/-- The controller's side of the completion ring. -/
structure CqInv (depth : ℕ) (cqes : ℕ → Completion) (ctrlTail : ℕ) (ctrlPhase : Bool)
    (posted : List Completion) : Prop where
  ring : PhaseHolds Completion.phase cqes depth posted
  tail : ctrlTail = posted.length % depth
  phase : ctrlPhase = lap depth posted.length

theorem answer_phase (s : System) (cmd : Command) (code : ℕ) :
    (answer s cmd code).phase = s.ctrl.phase := by
  unfold answer Completion.phase
  cases s.ctrl.phase <;> simp

theorem CqInv.push {depth : ℕ} {cqes : ℕ → Completion} {ctrlTail : ℕ} {ctrlPhase : Bool}
    {posted : List Completion} (h : CqInv depth cqes ctrlTail ctrlPhase posted) (hdepth : 0 < depth)
    {cqe : Completion} (hcqe : cqe.phase = ctrlPhase) :
    CqInv depth (Function.update cqes ctrlTail cqe) (bump depth ctrlTail)
      (if decide (ctrlTail + 1 = depth) = true then !ctrlPhase else ctrlPhase)
      (posted ++ [cqe]) := by
  rw [h.tail, h.phase, lap_bump hdepth, bump_mod hdepth]
  refine ⟨h.ring.push hdepth (hcqe.trans h.phase), ?_, ?_⟩ <;>
    rw [List.length_append, List.length_singleton]

/-- The driver's side: it has handled a prefix of the completions, and has told the controller about
`acked` of them. -/
structure ReadInv (depth : ℕ) (irq : Irq) (cqHead : ℕ) (cqPhase : Bool) (cqHeadDb : ℕ)
    (posted handled : List Completion) (acked : ℕ) : Prop where
  head : cqHead = acked % depth
  phase : cqPhase = lap depth acked
  db : cqHeadDb = cqHead
  handled_eq : handled = posted.take handled.length
  le : handled.length ≤ posted.length
  acked_le : acked ≤ handled.length
  irq_eq : match irq with
    | .idle => acked = handled.length
    | .polling head phase => head = handled.length % depth ∧ phase = lap depth handled.length
    | .leaving head phase => head = handled.length % depth ∧ phase = lap depth handled.length

section read

variable {depth : ℕ} {irq : Irq} {cqHead head cqHeadDb acked : ℕ} {cqPhase phase : Bool}
  {posted handled : List Completion}

theorem ReadInv.post (h : ReadInv depth irq cqHead cqPhase cqHeadDb posted handled acked)
    (cqe : Completion) :
    ReadInv depth irq cqHead cqPhase cqHeadDb (posted ++ [cqe]) handled acked := by
  refine ⟨h.head, h.phase, h.db, ?_, ?_, h.acked_le, h.irq_eq⟩
  · rw [List.take_append_of_le_length h.le]
    exact h.handled_eq
  · rw [List.length_append]
    exact Nat.le_add_right_of_le h.le

theorem ReadInv.enter (h : ReadInv depth .idle cqHead cqPhase cqHeadDb posted handled acked) :
    ReadInv depth (.polling cqHead cqPhase) cqHead cqPhase cqHeadDb posted handled acked := by
  have hacked : acked = handled.length := h.irq_eq
  refine ⟨h.head, h.phase, h.db, h.handled_eq, h.le, h.acked_le, ?_, ?_⟩
  · rw [h.head, hacked]
  · rw [h.phase, hacked]

theorem ReadInv.handle
    (h : ReadInv depth (.polling head phase) cqHead cqPhase cqHeadDb posted handled acked)
    (hdepth : 0 < depth) (hlt : handled.length < posted.length) :
    ReadInv depth
      (.polling (bump depth head) (if decide (head + 1 = depth) = true then !phase else phase))
      cqHead cqPhase cqHeadDb posted (handled ++ [posted[handled.length]]) acked := by
  obtain ⟨hhead, hphase⟩ := h.irq_eq
  have hlen : (handled ++ [posted[handled.length]]).length = handled.length + 1 := by
    rw [List.length_append, List.length_singleton]
  refine ⟨h.head, h.phase, h.db, ?_, ?_, ?_, ?_, ?_⟩
  · rw [hlen, List.take_succ_eq_append_getElem hlt]
    exact congrArg (· ++ _) h.handled_eq
  · rw [hlen]
    exact hlt
  · rw [hlen]
    exact Nat.le_succ_of_le h.acked_le
  · rw [hlen, hhead, bump_mod hdepth]
  · rw [hlen, hhead, hphase, lap_bump hdepth]

/-- When the locals are those that the loop began with, it has not handled anything: the completion
ring has no room for two laps. -/
theorem ReadInv.unmoved
    (h : ReadInv depth (.leaving head phase) cqHead cqPhase cqHeadDb posted handled acked)
    (hroom : posted.length < acked + depth) (hhead : head = cqHead) : acked = handled.length := by
  have hle := h.acked_le
  have hposted := h.le
  by_contra hne
  refine slot_ne (n := depth) (lt_of_le_of_ne hle hne) (by omega) ?_
  rw [← h.head, ← h.irq_eq.1, hhead]

theorem ReadInv.leave
    (h : ReadInv depth (.leaving head phase) cqHead cqPhase cqHeadDb posted handled acked) :
    ReadInv depth .idle head phase head posted handled handled.length :=
  ⟨h.irq_eq.1, h.irq_eq.2, rfl, h.handled_eq, h.le, le_rfl, rfl⟩

end read

/-! ## Commands on their way -/

/-- The commands whose `info` is written, by where they have got to. -/
def active (s : System) : List Command :=
  s.ready ++ (s.submitted.drop s.fetched.length ++
    (s.ctrl.executing ++ (s.posted.drop s.handled.length).map Completion.command))

/-- The commands whose ids are taken. -/
def outstanding (s : System) : List Command := s.claimed ++ active s

structure Inv (s : System) : Prop where
  depth : 0 < s.q.qDepth
  sq : SqInv s.q.qDepth s.q.sqCmds s.q.sqTail s.sqTailDb s.ctrl.sqHead s.submitted s.fetched
  cq : CqInv s.q.qDepth s.q.cqes s.ctrl.cqTail s.ctrl.phase s.posted
  read : ReadInv s.q.qDepth s.irq s.q.cqHead s.q.cqPhase s.cqHeadDb s.posted s.handled s.acked
  ids : IdsHeld s.q.cmdidData (s.q.qDepth - 1) ((outstanding s).map Command.commandId)
  room : s.submitted.length < s.q.qDepth + s.acked
  moved : s.fetched.Perm (s.ctrl.executing ++ s.posted.map Completion.command)

namespace Inv

variable {s : System} (h : Inv s)

include h

theorem fetched_length : s.fetched.length = s.ctrl.executing.length + s.posted.length := by
  rw [h.moved.length_eq, List.length_append, List.length_map]

theorem posted_lt : s.posted.length < s.acked + s.q.qDepth := by
  have hfetched := h.fetched_length
  have hle := h.sq.ring.le
  have hroom := h.room
  omega

theorem submitted_lt : s.submitted.length < s.fetched.length + s.q.qDepth := by
  have hfetched := h.fetched_length
  have hacked := h.read.acked_le
  have hle := h.read.le
  have hroom := h.room
  omega

theorem posted_le : s.posted.length ≤ s.handled.length + s.q.qDepth := by
  have hposted := h.posted_lt
  have hacked := h.read.acked_le
  omega

theorem not_cqFull (hexec : s.ctrl.executing ≠ []) : ¬ CqFull s := by
  have hfetched := h.fetched_length
  have hpos : 0 < s.ctrl.executing.length := List.length_pos_iff.mpr hexec
  have hle := h.sq.ring.le
  have hroom := h.room
  have hacked := h.read.acked_le
  have hhandled := h.read.le
  unfold CqFull
  rw [h.cq.tail, bump_mod h.depth, h.read.db, h.read.head]
  exact (slot_ne (n := s.q.qDepth) (i := s.acked) (by omega) (by omega)).symm

/-- The slot that the driver looks at is ready exactly when there is a completion to handle. -/
theorem ready_iff :
    (s.q.cqes (s.handled.length % s.q.qDepth)).phase = lap s.q.qDepth s.handled.length ↔
      s.handled.length < s.posted.length :=
  h.cq.ring.ready_iff h.depth h.read.le h.posted_le

end Inv

/-! ## Steps -/

section moves

variable {cmd : Command} {xs ys zs : List Command}

theorem perm_move (hmem : cmd ∈ xs) : (xs.erase cmd ++ (ys ++ cmd :: zs)).Perm (xs ++ (ys ++ zs)) := by
  rw [← List.append_assoc, ← List.append_assoc]
  refine List.perm_middle.trans ?_
  rw [← List.cons_append, ← List.cons_append]
  exact ((List.perm_cons_erase hmem).symm.append_right ys).append_right zs

theorem drop_append_singleton {α : Type} {l : List α} {k : ℕ} (hle : k ≤ l.length) (x : α) :
    (l ++ [x]).drop k = l.drop k ++ [x] :=
  List.drop_append_of_le_length hle

end moves

variable {s s' : System}

theorem start_inv {depth : ℕ} (hdepth : 0 < depth) (sqCmds : ℕ → Command) :
    Inv (start depth sqCmds) where
  depth := hdepth
  sq := ⟨RingHolds.nil sqCmds depth, (Nat.zero_mod _).symm, rfl, (Nat.zero_mod _).symm, rfl⟩
  cq := ⟨PhaseHolds.nil fun _ => rfl, (Nat.zero_mod _).symm, (lap_zero depth).symm⟩
  read := ⟨(Nat.zero_mod _).symm, (lap_zero depth).symm, rfl, rfl, le_rfl, le_rfl, rfl⟩
  ids := IdsHeld.nil fun _ => rfl
  room := hdepth
  moved := List.Perm.refl _

theorem Inv.claim (h : Inv s) {cmdid : ℕ} {fn : Handler} (hs : claim cmdid fn s = some s') :
    Inv s' := by
  unfold Nvme.claim at hs
  obtain ⟨hfree, hs⟩ := Option.ite_none_right_eq_some.mp hs
  obtain rfl := Option.some.inj hs
  exact ⟨h.depth, h.sq, h.cq, h.read, h.ids.take hfree.2.1 hfree.1, h.room, h.moved⟩

theorem install_outstanding {cmd : Command} (hmem : cmd ∈ s.claimed) :
    (s.claimed.erase cmd ++ cmd :: active s).Perm (outstanding s) := by
  show (s.claimed.erase cmd ++ ([] ++ cmd :: active s)).Perm _
  exact perm_move hmem

theorem Inv.install (h : Inv s) {cmd : Command} (hs : install cmd s = some s') : Inv s' := by
  unfold Nvme.install at hs
  obtain ⟨hmem, hs⟩ := Option.ite_none_right_eq_some.mp hs
  obtain rfl := Option.some.inj hs
  exact ⟨h.depth, h.sq, h.cq, h.read, h.ids.perm ((install_outstanding hmem).map _), h.room, h.moved⟩

/-- While the lock is free, every command id that is taken counts against the room in the rings. -/
theorem Inv.room_of_ready (h : Inv s) (hidle : s.irq = .idle) (hready : s.ready ≠ []) :
    s.submitted.length + 1 < s.q.qDepth + s.acked := by
  have hacked : s.acked = s.handled.length := by
    have hirq := h.read.irq_eq
    rwa [hidle] at hirq
  have hpos : 0 < s.ready.length := List.length_pos_iff.mpr hready
  have hlen := h.ids.length_le
  have hfetched := h.fetched_length
  have hle := h.sq.ring.le
  have hhandled := h.read.le
  have hdepth := h.depth
  simp only [outstanding, active, List.length_map, List.length_append, List.length_drop] at hlen
  omega

theorem submit_cases {cmd : Command} (hs : submit cmd s = some s') :
    s.irq = .idle ∧ cmd ∈ s.ready ∧ s' = { submitCmd cmd s with ready := s.ready.erase cmd } := by
  unfold Nvme.submit at hs
  obtain ⟨hready, hs⟩ := Option.ite_none_right_eq_some.mp hs
  exact ⟨hready.1, hready.2, (Option.some.inj hs).symm⟩

theorem Inv.submit_active (h : Inv s) {cmd : Command} (hs : submit cmd s = some s') :
    (active s').Perm (active s) := by
  obtain ⟨_, hmem, rfl⟩ := submit_cases hs
  show (s.ready.erase cmd ++ ((s.submitted ++ [cmd]).drop s.fetched.length ++ _)).Perm _
  rw [drop_append_singleton h.sq.ring.le, List.append_assoc, List.singleton_append]
  exact perm_move hmem

theorem Inv.submit (h : Inv s) {cmd : Command} (hs : submit cmd s = some s') : Inv s' := by
  have hactive := h.submit_active hs
  obtain ⟨hidle, hmem, rfl⟩ := submit_cases hs
  have hroom := h.room_of_ready hidle (List.ne_nil_of_mem hmem)
  refine ⟨h.depth, h.sq.push h.depth h.submitted_lt cmd, h.cq, h.read,
    h.ids.perm ((hactive.append_left s.claimed).map _), ?_, h.moved⟩
  show (s.submitted ++ [cmd]).length < s.q.qDepth + s.acked
  rwa [List.length_append, List.length_singleton]

theorem Inv.abort (h : Inv s) {cmdid : ℕ} (hs : abort cmdid s = some s') : Inv s' := by
  unfold Nvme.abort at hs
  obtain ⟨_, hs⟩ := Option.ite_none_right_eq_some.mp hs
  obtain rfl := Option.some.inj hs
  exact ⟨h.depth, h.sq, h.cq, h.read, h.ids, h.room, h.moved⟩

theorem Inv.timeout (h : Inv s) {cmdid : ℕ} (hs : timeout cmdid s = some s') : Inv s' := by
  unfold Nvme.timeout at hs
  obtain ⟨_, hs⟩ := Option.ite_none_right_eq_some.mp hs
  obtain rfl := Option.some.inj hs
  exact ⟨h.depth, h.sq, h.cq, h.read, h.ids, h.room, h.moved⟩

theorem Inv.irqEnter (h : Inv s) (hs : irqEnter s = some s') : Inv s' := by
  unfold Nvme.irqEnter at hs
  obtain ⟨hidle, hs⟩ := Option.ite_none_right_eq_some.mp hs
  obtain rfl := Option.some.inj hs
  have hread := h.read
  rw [hidle] at hread
  exact ⟨h.depth, h.sq, h.cq, hread.enter, h.ids, h.room, h.moved⟩

theorem Inv.next (h : Inv s) {head : ℕ} {phase : Bool} (hirq : s.irq = .polling head phase)
    (hready : (s.q.cqes head).phase = phase) :
    ∃ hlt : s.handled.length < s.posted.length,
      s.q.cqes head = s.posted[s.handled.length] ∧
        (s.q.cqes head).command ∈ active s := by
  have hirqEq := h.read.irq_eq
  rw [hirq] at hirqEq
  obtain ⟨hhead, hphase⟩ := hirqEq
  rw [hhead, hphase] at hready
  have hlt := h.ready_iff.mp hready
  have hcqe : s.q.cqes head = s.posted[s.handled.length] := by
    rw [hhead, h.cq.ring.slot _ hlt h.posted_le]
  refine ⟨hlt, hcqe, ?_⟩
  simp only [active, List.mem_append, List.mem_map]
  refine .inr (.inr (.inr ⟨s.q.cqes head, ?_, rfl⟩))
  rw [hcqe, List.drop_eq_getElem_cons hlt]
  exact List.mem_cons_self

theorem perm_handled (hlt : s.handled.length < s.posted.length) :
    (active s).Perm (s.posted[s.handled.length].command ::
      active { s with handled := s.handled ++ [s.posted[s.handled.length]] }) := by
  simp only [active, List.length_append, List.length_singleton]
  rw [List.drop_eq_getElem_cons hlt, List.map_cons]
  simp only [← List.append_assoc]
  exact List.perm_middle

/-- What a round of `nvme_process_cq` does: it leaves the loop when everything is handled, and handles
the next completion otherwise. -/
theorem Inv.irqRound_cases (h : Inv s) (hs : irqRound s = some s') :
    ∃ head phase, s.irq = .polling head phase ∧
      ((s.posted.length ≤ s.handled.length ∧ s' = { s with irq := .leaving head phase }) ∨
        ∃ hlt : s.handled.length < s.posted.length,
          let cqe := s.posted[s.handled.length]
          let info := s.q.info cqe.commandId
          cqe.command ∈ active s ∧
          s' = { s with
            q := { s.q with
              sqHead := cqe.sqHead
              cmdidData := Function.update s.q.cmdidData cqe.commandId false
              info := Function.update s.q.info cqe.commandId ⟨.special, .completed⟩ }
            irq := .polling (bump s.q.qDepth head)
              (if decide (head + 1 = s.q.qDepth) = true then !phase else phase)
            handled := s.handled ++ [cqe], calls := s.calls ++ [⟨info.fn, info.ctx, cqe⟩] }) := by
  unfold irqRound at hs
  cases hirq : s.irq with
  | idle => simp only [hirq, reduceCtorEq] at hs
  | leaving head phase => simp only [hirq, reduceCtorEq] at hs
  | polling head phase =>
    simp only [hirq, processRound] at hs
    refine ⟨head, phase, rfl, ?_⟩
    by_cases hready : (s.q.cqes head).phase = phase
    · right
      obtain ⟨hlt, hcqe, hmem⟩ := h.next hirq hready
      rw [if_neg (not_not_intro hready)] at hs
      refine ⟨hlt, hcqe ▸ hmem, ?_⟩
      have hfree : ∀ n, freeCmdid { s.q with sqHead := n } (s.q.cqes head).commandId =
          (s.q.info (s.q.cqes head).commandId,
            { setInfo { s.q with sqHead := n } (s.q.cqes head).commandId .special .completed with
              cmdidData := Function.update s.q.cmdidData (s.q.cqes head).commandId false }) := by
        intro n
        have hid := h.ids.lt _ (List.mem_map_of_mem (List.mem_append_right s.claimed hmem))
        have hcmdid : (s.q.cqes head).command.commandId = (s.q.cqes head).commandId := rfl
        unfold Nvme.freeCmdid
        rw [if_neg (by simp only; omega)]
        rfl
      simp only [hfree] at hs
      rw [← Option.some.inj hs, ← hcqe]
      rfl
    · left
      rw [if_pos hready] at hs
      refine ⟨?_, (Option.some.inj hs).symm⟩
      have hirqEq := h.read.irq_eq
      rw [hirq] at hirqEq
      by_contra hnot
      apply hready
      rw [hirqEq.1, hirqEq.2]
      exact h.ready_iff.mpr (by omega)

theorem Inv.irqRound (h : Inv s) (hs : irqRound s = some s') : Inv s' := by
  obtain ⟨head, phase, hirq, ⟨_, rfl⟩ | ⟨hlt, _, rfl⟩⟩ := h.irqRound_cases hs
  · have hread := h.read
    rw [hirq] at hread
    exact ⟨h.depth, h.sq, h.cq, ⟨hread.head, hread.phase, hread.db, hread.handled_eq, hread.le,
      hread.acked_le, hread.irq_eq⟩, h.ids, h.room, h.moved⟩
  · have hread := h.read
    rw [hirq] at hread
    have hperm := ((perm_handled hlt).append_left s.claimed).trans List.perm_middle
    have hids := h.ids.perm (hperm.map Command.commandId).symm
    exact ⟨h.depth, h.sq, h.cq, hread.handle h.depth hlt, hids.release, h.room, h.moved⟩

theorem irqExit_cases (hs : irqExit s = some s') :
    ∃ head phase, s.irq = .leaving head phase ∧
      ((head = s.q.cqHead ∧ s' = { s with irq := .idle }) ∨
        s' = { s with
          q := { s.q with cqHead := head, cqPhase := phase }
          irq := .idle, cqHeadDb := head, acked := s.handled.length }) := by
  unfold Nvme.irqExit at hs
  cases hirq : s.irq with
  | idle => simp only [hirq, reduceCtorEq] at hs
  | polling head phase => simp only [hirq, reduceCtorEq] at hs
  | leaving head phase =>
    simp only [hirq] at hs
    refine ⟨head, phase, rfl, ?_⟩
    by_cases hsame : head = s.q.cqHead ∧ phase = s.q.cqPhase
    · have hend : processEnd s.q head phase = (false, s.q) := if_pos hsame
      simp only [hend, Bool.false_eq_true, if_false] at hs
      exact .inl ⟨hsame.1, (Option.some.inj hs).symm⟩
    · have hend : processEnd s.q head phase =
          (true, { s.q with cqHead := head, cqPhase := phase }) := if_neg hsame
      simp only [hend, if_true] at hs
      exact .inr (Option.some.inj hs).symm

theorem Inv.irqExit (h : Inv s) (hs : irqExit s = some s') : Inv s' := by
  obtain ⟨head, phase, hirq, ⟨hsame, rfl⟩ | rfl⟩ := irqExit_cases hs
  · have hread := h.read
    rw [hirq] at hread
    exact ⟨h.depth, h.sq, h.cq, ⟨hread.head, hread.phase, hread.db, hread.handled_eq, hread.le,
      hread.acked_le, hread.unmoved h.posted_lt hsame⟩, h.ids, h.room, h.moved⟩
  · have hread := h.read
    rw [hirq] at hread
    have hroom : s.q.qDepth + s.acked ≤ s.q.qDepth + s.handled.length :=
      Nat.add_le_add_left hread.acked_le _
    exact ⟨h.depth, h.sq, h.cq, hread.leave, h.ids, h.room.trans_le hroom, h.moved⟩

theorem fetch_cases (hs : fetch s = some s') :
    s.ctrl.sqHead ≠ s.sqTailDb ∧ s' = { s with
      ctrl := { s.ctrl with
        sqHead := bump s.q.qDepth s.ctrl.sqHead
        executing := s.ctrl.executing ++ [s.q.sqCmds s.ctrl.sqHead] }
      fetched := s.fetched ++ [s.q.sqCmds s.ctrl.sqHead] } := by
  unfold Nvme.fetch at hs
  obtain ⟨hne, hs⟩ := Option.ite_none_right_eq_some.mp hs
  exact ⟨hne, (Option.some.inj hs).symm⟩

theorem Inv.fetch_active (h : Inv s) (hs : fetch s = some s') : (active s').Perm (active s) := by
  obtain ⟨hne, rfl⟩ := fetch_cases hs
  have hlt := (h.sq.pending_iff h.submitted_lt).mp hne
  simp only [active, List.length_append, List.length_singleton]
  rw [List.drop_eq_getElem_cons hlt, (h.sq.pop h.depth hlt).1, List.append_assoc,
    List.singleton_append]
  refine List.Perm.append_left _ ?_
  rw [← List.append_assoc, List.cons_append, ← List.append_assoc]
  exact List.perm_middle

theorem Inv.fetch (h : Inv s) (hs : fetch s = some s') : Inv s' := by
  have hactive := h.fetch_active hs
  obtain ⟨hne, rfl⟩ := fetch_cases hs
  have hlt := (h.sq.pending_iff h.submitted_lt).mp hne
  refine ⟨h.depth, (h.sq.pop h.depth hlt).2, h.cq, h.read,
    h.ids.perm ((hactive.append_left s.claimed).map _), h.room, ?_⟩
  show (s.fetched ++ [_]).Perm ((s.ctrl.executing ++ [_]) ++ _)
  rw [List.append_assoc]
  exact ((List.perm_append_singleton _ _).trans (h.moved.cons _)).trans List.perm_middle.symm

theorem complete_cases {i code : ℕ} (hs : complete i code s = some s') :
    ∃ cmd, (cmd :: s.ctrl.executing.eraseIdx i).Perm s.ctrl.executing ∧ s' = { s with
      q := { s.q with cqes := Function.update s.q.cqes s.ctrl.cqTail (answer s cmd code) }
      ctrl := { s.ctrl with
        cqTail := bump s.q.qDepth s.ctrl.cqTail
        phase := if decide (s.ctrl.cqTail + 1 = s.q.qDepth) = true then !s.ctrl.phase
          else s.ctrl.phase
        executing := s.ctrl.executing.eraseIdx i }
      posted := s.posted ++ [answer s cmd code] } := by
  unfold Nvme.complete at hs
  cases hi : s.ctrl.executing[i]? with
  | none => simp only [hi, reduceCtorEq] at hs
  | some cmd =>
    simp only [hi] at hs
    obtain ⟨_, hs⟩ := Option.ite_none_left_eq_some.mp hs
    obtain ⟨hlt, hcmd⟩ := List.getElem?_eq_some_iff.mp hi
    refine ⟨cmd, ?_, (Option.some.inj hs).symm⟩
    rw [← hcmd]
    exact List.getElem_cons_eraseIdx_perm hlt

theorem Inv.complete_active (h : Inv s) {i code : ℕ} (hs : complete i code s = some s') :
    (active s').Perm (active s) := by
  obtain ⟨cmd, hexec, rfl⟩ := complete_cases hs
  have hcommand : (answer s cmd code).command = cmd := rfl
  simp only [active]
  rw [drop_append_singleton h.read.le, List.map_append]
  refine (List.Perm.append_left _ ?_).append_left _
  rw [← List.append_assoc, List.map_singleton, hcommand]
  exact (List.perm_append_singleton _ _).trans (hexec.append_right _)

theorem Inv.complete (h : Inv s) {i code : ℕ} (hs : complete i code s = some s') : Inv s' := by
  have hactive := h.complete_active hs
  obtain ⟨cmd, hexec, rfl⟩ := complete_cases hs
  have hcommand : (answer s cmd code).command = cmd := rfl
  refine ⟨h.depth, h.sq, h.cq.push h.depth (answer_phase s cmd code), h.read.post _,
    h.ids.perm ((hactive.append_left s.claimed).map _), h.room, h.moved.trans ?_⟩
  simp only
  rw [List.map_append, List.map_singleton, hcommand, ← List.append_assoc]
  exact ((List.perm_append_singleton _ _).trans (hexec.append_right _)).symm

theorem Inv.step (h : Inv s) {a : Action} (hok : IdFound s a) (hs : step s a = some s') : Inv s' := by
  cases a with
  | claim cmdid fn => exact h.claim hs
  | install cmd => exact h.install hs
  | submit cmd => exact h.submit hs
  | bioBusy r => exact hok.elim
  | abort cmdid => exact h.abort hs
  | timeout cmdid => exact h.timeout hs
  | irqEnter => exact h.irqEnter hs
  | irqRound => exact h.irqRound hs
  | irqExit => exact h.irqExit hs
  | fetch => exact h.fetch hs
  | complete i code => exact h.complete hs

end CodingForFun.Nvme
