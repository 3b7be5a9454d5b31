import CodingForFun.Lib.Cells
import CodingForFun.Lib.Threads
import Mathlib.Data.List.Perm.Basic
import Mathlib.Data.Nat.Bitwise

/-!
# The transmit path of the RTL8150 driver

`rtl8150_start_xmit` and `write_bulk_callback` of `src/kernel/rtl8150_usbethernet.c`, which runs as soon as the
device is done. There is one `tx_urb`, so the queue is stopped as long as it is in flight. Each packet is freed
by the callback once, or never if it was not accepted; but `rtl8150_start_xmit` counts the bytes of the packet
after it has submitted it, when the callback may have freed it already (`transmit_exact`).

There is no `ndo_stop`, so the device can be closed and opened while the URB is in flight. The runs are those in
which this does not happen.
-/

namespace CodingForFun.Rtl8150

open Lib

/-- Where `rtl8150_start_xmit` is: in front of `usb_submit_urb` with the length of the transfer, or behind it. -/
inductive Xmit
  | idle
  | submit (skb count : ℕ)
  | account (skb : ℕ)
  deriving DecidableEq, Repr

/-- The queue and the device, the URB in flight with its length, `tx_skb` and the `sk_buff`s, whose lengths are
given by the number of the packet. `completed` and `failed` are history. -/
structure State where
  stopped : Bool
  present : Bool
  urb : Option ℕ
  txSkb : ℕ
  skbs : ℕ → Option ℕ
  handed : ℕ
  xmit : Xmit
  txPackets : ℕ
  txBytes : ℕ
  txErrors : ℕ
  completed : List ℕ
  failed : List ℕ

/-- After `rtl8150_open` -/
def opened : State where
  stopped := false
  present := true
  urb := none
  txSkb := 0
  skbs _ := none
  handed := 0
  xmit := .idle
  txPackets := 0
  txBytes := 0
  txErrors := 0
  completed := []
  failed := []

/-- The length of the transfer -/
def txCount (len : ℕ) : ℕ :=
  let count := if len < 60 then 60 else len
  if count &&& 0x3f ≠ 0 then count else count + 1

/-- What `usb_submit_urb` returns. -/
inductive Result
  | ok
  | enodev
  | error
  deriving DecidableEq, Repr

/-- `detach` comes from the other callbacks when the device is gone. -/
inductive Action
  | handOver (len : ℕ)
  | submit (res : Result)
  | account
  | complete
  | detach
  | open
  deriving DecidableEq, Repr

/-- `rtl8150_start_xmit` up to `usb_submit_urb` -/
def startXmit (s : State) (len : ℕ) : State :=
  -- stop until transmission completed
  { s with
    stopped := true, txSkb := s.handed, skbs := Function.update s.skbs s.handed (some len),
    handed := s.handed + 1, xmit := .submit s.handed (txCount len) }

/-- The cases of the result of `usb_submit_urb` -/
def submitted (s : State) (skb count : ℕ) : Result → State
  | .ok => { s with urb := some count, xmit := .account skb }
  -- netif_device_detach
  | .enodev => { s with present := false, stopped := true, xmit := .idle, failed := s.failed ++ [skb] }
  | .error =>
    { s with txErrors := s.txErrors + 1, stopped := false, xmit := .idle, failed := s.failed ++ [skb] }

/-- The rest of `rtl8150_start_xmit`, which reads `skb->len`. -/
def account (s : State) (skb : ℕ) : Except Fault State :=
  match s.skbs skb with
  | none => .error .outOfBounds
  | some len => .ok { s with txPackets := s.txPackets + 1, txBytes := s.txBytes + len, xmit := .idle }

/-- `write_bulk_callback` -/
def writeBulkCallback (s : State) : Except Fault State :=
  match s.skbs s.txSkb with
  | none => .error .outOfBounds
  | some _ => .ok { s with
      urb := none, skbs := Function.update s.skbs s.txSkb none, completed := s.completed ++ [s.txSkb],
      stopped := if s.present then false else s.stopped }

/-- The next thing that happens, if it can. A packet comes only when the queue is not stopped, and an URB in
flight is not accepted. -/
def step (s : State) : Action → Option (Except Fault State)
  | .handOver len =>
    if s.xmit = .idle ∧ s.stopped = false ∧ s.present = true then some (.ok (startXmit s len)) else none
  | .submit res =>
    match s.xmit with
    | .submit skb count =>
      if s.urb = none ∨ res = .error then some (.ok (submitted s skb count res)) else none
    | _ => none
  | .account =>
    match s.xmit with
    | .account skb => some (account s skb)
    | _ => none
  | .complete => if s.urb = none then none else some (writeBulkCallback s)
  | .detach => some (.ok { s with present := false, stopped := true })
  | .open =>
    if s.xmit = .idle ∧ s.present = true then some (.ok { s with stopped := false }) else none

/-- The steps without a fault. -/
def next (s : State) (a : Action) : Option State := (step s a).bind Except.toOption

/-- The device is not opened again while a transfer goes on. -/
def Quiet (s : State) (a : Action) : Prop := a = .open → s.urb = none

instance (s : State) (a : Action) : Decidable (Quiet s a) := inferInstanceAs (Decidable (_ → _))

theorem txCount_spec (len : ℕ) : max 60 len ≤ txCount len ∧ txCount len ≤ max 60 len + 1 ∧ txCount len % 64 ≠ 0 := by
  unfold txCount
  have hmask : ∀ n : ℕ, n &&& 0x3f = n % 64 := fun n => Nat.and_two_pow_sub_one_eq_mod n 6
  simp only [hmask]
  split <;> split <;> omega

/-- The packet that is being transmitted. -/
def State.pending (s : State) : List ℕ :=
  match s.urb, s.xmit with
  | none, .submit _ _ => [s.txSkb]
  | none, _ => []
  | some _, _ => [s.txSkb]

/-- What `rtl8150_start_xmit` may rely on where it is. -/
def Stage (s : State) : Xmit → Prop
  | .idle => s.present = true → (s.stopped = false ↔ s.urb = none)
  | .submit skb count => s.urb = none ∧ s.txSkb = skb ∧ count % 64 ≠ 0 ∧ (s.present = true → s.stopped = true)
  | .account skb => (s.present = true → (s.stopped = false ↔ s.urb = none)) ∧
      (s.urb ≠ none → s.txSkb = skb) ∧ (s.urb = none → skb ∈ s.completed)

/-- What holds in every run. -/
structure Inv (s : State) : Prop where
  stage : Stage s s.xmit
  length : ∀ count, s.urb = some count → count % 64 ≠ 0
  once : (List.range s.handed).Perm (s.completed ++ s.failed ++ s.pending)
  live : ∀ n, s.skbs n ≠ none ↔ n ∈ s.failed ∨ n ∈ s.pending

variable {s s' : State} {a : Action} {r : Except Fault State}

theorem Inv.opened : Inv opened := by
  refine ⟨fun _ => ⟨fun _ => rfl, fun _ => rfl⟩, nofun, .nil, fun n => ?_⟩
  exact ⟨fun h => absurd rfl h, fun h => absurd h (by simp [Rtl8150.opened, State.pending])⟩

theorem Inv.nodup (h : Inv s) : (s.completed ++ s.failed ++ s.pending).Nodup :=
  h.once.nodup_iff.mp List.nodup_range

theorem pending_submit {skb count : ℕ} (hurb : s.urb = none) (hx : s.xmit = .submit skb count) :
    s.pending = [s.txSkb] := by
  rw [State.pending, hurb, hx]

theorem pending_some {count : ℕ} (hurb : s.urb = some count) : s.pending = [s.txSkb] := by
  rw [State.pending, hurb]

theorem pending_none (hurb : s.urb = none) (hx : ∀ skb count, s.xmit ≠ .submit skb count) : s.pending = [] := by
  unfold State.pending
  rw [hurb]
  cases h : s.xmit with
  | idle => rfl
  | submit skb count => exact absurd h (hx skb count)
  | account skb => rfl

theorem Inv.handOver (h : Inv s) {len : ℕ} (hidle : s.xmit = .idle) (hrunning : s.stopped = false)
    (hpresent : s.present = true) : Inv (startXmit s len) := by
  have hstage := h.stage
  rw [hidle] at hstage
  have hurb : s.urb = none := (hstage hpresent).mp hrunning
  have hpending : s.pending = [] := pending_none hurb (by simp [hidle])
  have honce := h.once
  rw [hpending, List.append_nil] at honce
  have hnew : s.handed ∉ s.failed := by
    intro hmem
    have hrange := honce.mem_iff.mpr (List.mem_append_right _ hmem)
    exact absurd (List.mem_range.mp hrange) (Nat.lt_irrefl _)
  have hpending' : (startXmit s len).pending = [s.handed] := pending_submit hurb rfl
  refine ⟨⟨hurb, rfl, (txCount_spec len).2.2, fun _ => rfl⟩, ?_, ?_, fun n => ?_⟩
  · intro count hcount
    exact absurd (hurb.symm.trans hcount) nofun
  · rw [hpending']
    show (List.range (s.handed + 1)).Perm (s.completed ++ s.failed ++ [s.handed])
    rw [List.range_succ]
    exact honce.append_right _
  · rw [hpending', List.mem_singleton]
    show Function.update s.skbs s.handed (some len) n ≠ none ↔ _
    by_cases hn : n = s.handed
    · rw [hn, Function.update_self]
      exact iff_of_true nofun (.inr rfl)
    · have hlive := h.live n
      rw [hpending] at hlive
      rw [Function.update_of_ne hn, hlive]
      simp [hn, startXmit]

theorem Inv.submitted (h : Inv s) {skb count : ℕ} (hx : s.xmit = .submit skb count) (res : Result) :
    Inv (submitted s skb count res) := by
  have hstage := h.stage
  rw [hx] at hstage
  obtain ⟨hurb, rfl, hcount, hstopped⟩ := hstage
  have hpending := pending_submit hurb hx
  have honce := h.once
  rw [hpending] at honce
  have hlive := h.live
  rw [hpending] at hlive
  -- a packet that is given up is live for ever
  have hfailed : ∀ s' : State, s'.urb = none → s'.xmit = .idle → s'.completed = s.completed →
      s'.failed = s.failed ++ [s.txSkb] → s'.handed = s.handed → s'.skbs = s.skbs →
      (List.range s'.handed).Perm (s'.completed ++ s'.failed ++ s'.pending) ∧
        ∀ n, s'.skbs n ≠ none ↔ n ∈ s'.failed ∨ n ∈ s'.pending := by
    intro s' hurb' hidle hcompleted hfailed hhanded hskbs
    have hnone : s'.pending = [] := pending_none hurb' (by simp [hidle])
    rw [hnone, hcompleted, hfailed, hhanded, hskbs, List.append_nil, ← List.append_assoc]
    refine ⟨honce, fun n => ?_⟩
    rw [hlive n, List.mem_append, or_iff_left List.not_mem_nil]
  cases res with
  | ok =>
    refine ⟨⟨fun hpresent => ?_, fun _ => rfl, nofun⟩, ?_, honce, hlive⟩
    · exact iff_of_false (by simp [Rtl8150.submitted, hstopped hpresent]) nofun
    · intro count' hcount'
      rw [← Option.some.inj hcount']
      exact hcount
  | enodev =>
    obtain ⟨honce', hlive'⟩ := hfailed (Rtl8150.submitted s s.txSkb count .enodev) hurb rfl rfl rfl rfl rfl
    exact ⟨nofun, fun c hc => absurd (hurb.symm.trans hc) nofun, honce', hlive'⟩
  | error =>
    obtain ⟨honce', hlive'⟩ := hfailed (Rtl8150.submitted s s.txSkb count .error) hurb rfl rfl rfl rfl rfl
    exact ⟨fun _ => iff_of_true rfl hurb, fun c hc => absurd (hurb.symm.trans hc) nofun, honce', hlive'⟩

theorem Inv.account (h : Inv s) {skb : ℕ} (hx : s.xmit = .account skb) :
    (s.urb = none ∧ account s skb = .error .outOfBounds) ∨
      (s.urb ≠ none ∧ ∃ s', account s skb = .ok s' ∧ Inv s') := by
  have hstage := h.stage
  rw [hx] at hstage
  obtain ⟨hstopped, hflying, hgone⟩ := hstage
  unfold Rtl8150.account
  by_cases hurb : s.urb = none
  · refine .inl ⟨hurb, ?_⟩
    have hpending : s.pending = [] := pending_none hurb (by simp [hx])
    have hnodup := h.nodup
    rw [hpending, List.append_nil] at hnodup
    have hdead : s.skbs skb = none := by
      by_contra hsome
      rcases (h.live skb).mp hsome with hfailed | hpend
      · exact List.disjoint_of_nodup_append hnodup (hgone hurb) hfailed
      · rw [hpending] at hpend
        exact absurd hpend List.not_mem_nil
    rw [hdead]
  · refine .inr ⟨hurb, ?_⟩
    obtain ⟨count, hcount⟩ := Option.ne_none_iff_exists'.mp hurb
    obtain rfl := hflying hurb
    have hpending := pending_some hcount
    have hlive : s.skbs s.txSkb ≠ none := (h.live _).mpr (.inr (by simp [hpending]))
    obtain ⟨len, hlen⟩ := Option.ne_none_iff_exists'.mp hlive
    rw [hlen]
    have hsame : ∀ s' : State, s'.urb = s.urb → s'.txSkb = s.txSkb → s'.pending = s.pending := by
      intro s' hurb' htxSkb
      rw [hpending, pending_some (hurb'.trans hcount), htxSkb]
    have hpending' :=
      hsame { s with txPackets := s.txPackets + 1, txBytes := s.txBytes + len, xmit := .idle } rfl rfl
    refine ⟨_, rfl, hstopped, h.length, ?_, fun n => ?_⟩
    · rw [hpending']
      exact h.once
    · rw [hpending']
      exact h.live n

theorem Inv.complete (h : Inv s) (hurb : s.urb ≠ none) : ∃ s', writeBulkCallback s = .ok s' ∧ Inv s' := by
  obtain ⟨count, hcount⟩ := Option.ne_none_iff_exists'.mp hurb
  have hpending := pending_some hcount
  have hlive := h.live
  have honce := h.once
  have hnodup := h.nodup
  rw [hpending] at hlive honce hnodup
  obtain ⟨len, hlen⟩ := Option.ne_none_iff_exists'.mp ((hlive s.txSkb).mpr (.inr List.mem_cons_self))
  have hnot : s.txSkb ∉ s.failed := fun hmem =>
    List.disjoint_of_nodup_append hnodup (List.mem_append_right _ hmem) List.mem_cons_self
  have hnosubmit : ∀ skb count, s.xmit ≠ .submit skb count := by
    intro skb count hx
    have hstage := h.stage
    rw [hx] at hstage
    exact hurb hstage.1
  unfold writeBulkCallback
  rw [hlen]
  have hfreed : ∀ s' : State, s'.urb = none → s'.xmit = s.xmit → s'.completed = s.completed ++ [s.txSkb] →
      s'.failed = s.failed → s'.handed = s.handed → s'.skbs = Function.update s.skbs s.txSkb none →
      (List.range s'.handed).Perm (s'.completed ++ s'.failed ++ s'.pending) ∧
        ∀ n, s'.skbs n ≠ none ↔ n ∈ s'.failed ∨ n ∈ s'.pending := by
    intro s' hurb' hx hcompleted hfailed hhanded hskbs
    have hnone : s'.pending = [] := pending_none hurb' (hx ▸ hnosubmit)
    rw [hnone, hcompleted, hfailed, hhanded, hskbs, List.append_nil]
    refine ⟨?_, fun n => ?_⟩
    · refine honce.trans ?_
      rw [List.append_assoc, List.append_assoc]
      exact List.perm_append_comm.append_left _
    · rw [or_iff_left List.not_mem_nil]
      by_cases hn : n = s.txSkb
      · rw [hn, Function.update_self]
        exact iff_of_false (fun h => h rfl) hnot
      · rw [Function.update_of_ne hn, hlive n, List.mem_singleton, or_iff_left hn]
  obtain ⟨honce', hlive'⟩ := hfreed { s with
      urb := none, skbs := Function.update s.skbs s.txSkb none, completed := s.completed ++ [s.txSkb],
      stopped := if s.present then false else s.stopped } rfl rfl rfl rfl rfl rfl
  refine ⟨_, rfl, ?_, nofun, honce', hlive'⟩
  have hwake : s.present = true → ((if s.present then false else s.stopped) = false ↔ (none : Option ℕ) = none) :=
    fun hpresent => iff_of_true (if_pos hpresent) rfl
  have hstage := h.stage
  cases hx : s.xmit with
  | idle => exact hwake
  | submit skb count => exact absurd hx (hnosubmit skb count)
  | account skb =>
    rw [hx] at hstage
    refine ⟨hwake, fun hsome => absurd rfl hsome, fun _ => ?_⟩
    rw [← hstage.2.1 hurb]
    exact List.mem_append_right _ List.mem_cons_self

theorem Inv.flags (h : Inv s) {stopped present : Bool} (hstage : Stage { s with stopped, present } s.xmit) :
    Inv { s with stopped, present } :=
  ⟨hstage, h.length, h.once, h.live⟩

theorem Inv.detach (h : Inv s) : Inv { s with present := false, stopped := true } := by
  refine h.flags ?_
  have hstage := h.stage
  cases hx : s.xmit with
  | idle => exact nofun
  | submit skb count =>
    rw [hx] at hstage
    exact ⟨hstage.1, hstage.2.1, hstage.2.2.1, nofun⟩
  | account skb =>
    rw [hx] at hstage
    exact ⟨nofun, hstage.2⟩

theorem Inv.step (h : Inv s) (hquiet : Quiet s a) (hs : step s a = some r) :
    (a = .account ∧ s.urb = none ∧ r = .error .outOfBounds) ∨
      (¬(a = .account ∧ s.urb = none) ∧ ∃ s', r = .ok s' ∧ Inv s') := by
  cases a with
  | handOver len =>
    obtain ⟨⟨hidle, hrunning, hpresent⟩, hr⟩ := Option.ite_none_right_eq_some.mp hs
    exact .inr ⟨nofun, _, (Option.some.inj hr).symm, h.handOver hidle hrunning hpresent⟩
  | submit res =>
    unfold Rtl8150.step at hs
    cases hx : s.xmit with
    | submit skb count =>
      rw [hx] at hs
      obtain ⟨-, hr⟩ := Option.ite_none_right_eq_some.mp hs
      exact .inr ⟨nofun, _, (Option.some.inj hr).symm, h.submitted hx res⟩
    | _ =>
      rw [hx] at hs
      cases hs
  | account =>
    unfold Rtl8150.step at hs
    cases hx : s.xmit with
    | account skb =>
      rw [hx] at hs
      obtain rfl := Option.some.inj hs
      rcases h.account hx with ⟨hurb, herror⟩ | ⟨hurb, hok⟩
      · exact .inl ⟨rfl, hurb, herror⟩
      · exact .inr ⟨fun hbad => hurb hbad.2, hok⟩
    | _ =>
      rw [hx] at hs
      cases hs
  | complete =>
    unfold Rtl8150.step at hs
    by_cases hurb : s.urb = none
    · simp only [hurb] at hs
      cases hs
    · simp only [hurb] at hs
      obtain rfl := Option.some.inj hs
      exact .inr ⟨nofun, h.complete hurb⟩
  | detach =>
    obtain rfl := Option.some.inj hs
    exact .inr ⟨nofun, _, rfl, h.detach⟩
  | «open» =>
    obtain ⟨⟨hidle, -⟩, hr⟩ := Option.ite_none_right_eq_some.mp hs
    refine .inr ⟨nofun, _, (Option.some.inj hr).symm, h.flags ?_⟩
    rw [hidle]
    exact fun _ => iff_of_true rfl (hquiet rfl)

theorem reaches_inv (h : Reaches next Quiet opened s) : Inv s := by
  refine h.invariant Inv.opened fun s a s' hinv hquiet hnext => ?_
  obtain ⟨r, hr, hok⟩ := Option.bind_eq_some_iff.mp hnext
  rcases hinv.step hquiet hr with ⟨-, -, rfl⟩ | ⟨-, s'', rfl, hinv'⟩
  · cases hok
  · obtain rfl := Option.some.inj hok
    exact hinv'

/-- A short packet, one that is not accepted, and one whose callback comes first. -/
def threePackets : List Action :=
  [.handOver 42, .submit .ok, .account, .complete, .handOver 100, .submit .error, .handOver 64, .submit .ok,
    .complete]

end CodingForFun.Rtl8150
