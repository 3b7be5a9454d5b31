import CodingForFun.Nvme.Invariant

/-!
# Completion functions of a queue pair

The `info` of a command id says what happens to the command that holds it: it is completed with its own
function and data, unless it has been cancelled (`InfoInv`). As long as nothing cancels an id between the
two parts of `alloc_cmdid`, an `info` that points to the data of a request belongs to a command on its
way, so nobody's data is used twice or by a stranger (`CallsInv`).
-/

namespace CodingForFun.Nvme

open Lib

variable {s s' : System}

theorem request?_eq {ctx : Ctx} {r : Request} : ctx.request? = some r ↔ ctx = .data r := by
  cases ctx <;> simp [Ctx.request?]

theorem Request.ctx_of_ne {r : Request} (h : r.fn ≠ .special) : r.ctx = .data r := by
  unfold Request.ctx
  rw [if_neg h]

theorem Request.ctx_of_eq {r : Request} (h : r.fn = .special) : r.ctx = .flush := by
  unfold Request.ctx
  rw [if_pos h]

theorem Request.eq_of_ctx {r r' : Request} (h : r.ctx = .data r') : r = r' := by
  unfold Request.ctx at h
  split at h
  · cases h
  · exact Ctx.data.inj h

/-! ## Who an entry belongs to -/

/-- The command of the request has been cancelled. -/
def Gone (s : System) (r : Request) : Prop := r ∈ s.aborted ∨ r ∈ s.timedOut

/-- The requests, by their commands on the way and by the completions that are handled. -/
def requestsOf (s : System) : List Request :=
  (outstanding s).map Command.request ++ s.handled.map Completion.result

/-- The entry of a command is its own or that of `cancel_cmdid`. -/
def InfoOf (s : System) (r : Request) (info : CmdInfo) : Prop :=
  info = ⟨r.fn, r.ctx⟩ ∧ ¬ Gone s r ∨
    info = ⟨.special, .cancelled⟩ ∧ (r.fn = .special ∨ Gone s r)

structure InfoInv (s : System) : Prop where
  nodup : (requestsOf s).Nodup
  lt : ∀ r ∈ requestsOf s, r.number < s.requests
  fn : ∀ cmd ∈ outstanding s, cmd.request.fn ≠ .null
  gone_lt : ∀ r, Gone s r → r.number < s.requests
  claimed : ∀ cmd ∈ s.claimed, ¬ Gone s cmd.request
  info : ∀ cmd ∈ active s, InfoOf s cmd.request (s.q.info cmd.commandId)
  stale : ∀ id, (∀ cmd ∈ active s, cmd.commandId ≠ id) → (s.q.info id).ctx.request? = none

theorem start_infoInv (depth : ℕ) (sqCmds : ℕ → Command) : InfoInv (start depth sqCmds) where
  nodup := List.nodup_nil
  lt _ hr := absurd hr List.not_mem_nil
  fn _ hcmd := absurd hcmd List.not_mem_nil
  gone_lt _ hr := hr.elim (absurd · List.not_mem_nil) (absurd · List.not_mem_nil)
  claimed _ hcmd := absurd hcmd List.not_mem_nil
  info _ hcmd := absurd hcmd List.not_mem_nil
  stale _ _ := rfl

theorem Inv.claimed_ne (h : Inv s) {cmd cmd' : Command} (hcmd : cmd ∈ s.claimed)
    (hcmd' : cmd' ∈ active s) : cmd'.commandId ≠ cmd.commandId := by
  have hnodup := h.ids.nodup
  unfold outstanding at hnodup
  rw [List.map_append] at hnodup
  intro heq
  exact List.disjoint_of_nodup_append hnodup (List.mem_map_of_mem hcmd)
    (heq ▸ List.mem_map_of_mem hcmd')

namespace InfoInv

variable (hi : InfoInv s)

include hi

theorem own {id : ℕ} {r : Request} (hctx : (s.q.info id).ctx = .data r) :
    ∃ cmd ∈ active s, cmd.commandId = id ∧ cmd.request = r ∧ s.q.info id = ⟨r.fn, r.ctx⟩ ∧
      ¬ Gone s r := by
  by_contra hnot
  have hstale := hi.stale id
  rw [hctx] at hstale
  by_cases hnone : ∀ cmd ∈ active s, cmd.commandId ≠ id
  · exact Option.some_ne_none r (hstale hnone)
  · push Not at hnone
    obtain ⟨cmd, hcmd, rfl⟩ := hnone
    rcases hi.info cmd hcmd with ⟨hinfo, hgone⟩ | ⟨hinfo, _⟩
    · have hr : cmd.request = r := by
        rw [hinfo] at hctx
        exact Request.eq_of_ctx hctx
      exact hnot ⟨cmd, hcmd, rfl, hr, hr ▸ hinfo, hr ▸ hgone⟩
    · rw [hinfo] at hctx
      cases hctx

theorem move (hactive : (active s').Perm (active s)) (hclaimed : s'.claimed = s.claimed)
    (hinfo : s'.q.info = s.q.info) (hrequests : s'.requests = s.requests)
    (hhandled : s'.handled = s.handled) (hgone : Gone s' = Gone s) : InfoInv s' := by
  have hout : (outstanding s').Perm (outstanding s) := by
    unfold outstanding
    rw [hclaimed]
    exact hactive.append_left s.claimed
  have hreqs : (requestsOf s').Perm (requestsOf s) := by
    unfold requestsOf
    rw [hhandled]
    exact (hout.map _).append_right _
  constructor
  · exact hreqs.nodup_iff.mpr hi.nodup
  · intro r hr
    rw [hrequests]
    exact hi.lt r (hreqs.mem_iff.mp hr)
  · exact fun cmd hcmd => hi.fn cmd (hout.mem_iff.mp hcmd)
  · rw [hgone, hrequests]
    exact hi.gone_lt
  · rw [hgone, hclaimed]
    exact hi.claimed
  · intro cmd hcmd
    unfold InfoOf
    rw [hinfo, hgone]
    exact hi.info cmd (hactive.mem_iff.mp hcmd)
  · intro id hid
    rw [hinfo]
    exact hi.stale id fun cmd hcmd => hid cmd (hactive.mem_iff.mpr hcmd)

theorem claim {cmdid : ℕ} {fn : Handler} (hs : claim cmdid fn s = some s') : InfoInv s' := by
  unfold Nvme.claim at hs
  obtain ⟨⟨_, _, hfn⟩, hs⟩ := Option.ite_none_right_eq_some.mp hs
  obtain rfl := Option.some.inj hs
  have hnew : ∀ r : Request, r.number < s.requests → r ≠ ⟨s.requests, fn⟩ := by
    rintro r hr rfl
    exact absurd hr (lt_irrefl _)
  constructor
  · exact List.nodup_cons.mpr ⟨fun hmem => hnew _ (hi.lt _ hmem) rfl, hi.nodup⟩
  · intro r hr
    rcases List.mem_cons.mp hr with rfl | hr
    · exact Nat.lt_succ_self s.requests
    · exact Nat.lt_succ_of_lt (hi.lt r hr)
  · intro cmd hcmd
    rcases List.mem_cons.mp hcmd with rfl | hcmd
    · exact hfn
    · exact hi.fn cmd hcmd
  · exact fun r hr => Nat.lt_succ_of_lt (hi.gone_lt r hr)
  · intro cmd hcmd
    rcases List.mem_cons.mp hcmd with rfl | hcmd
    · exact fun hgone => hnew _ (hi.gone_lt _ hgone) rfl
    · exact hi.claimed cmd hcmd
  · exact hi.info
  · exact hi.stale

theorem install (h : Inv s) {cmd : Command} (hs : install cmd s = some s') : InfoInv s' := by
  unfold Nvme.install at hs
  obtain ⟨hmem, hs⟩ := Option.ite_none_right_eq_some.mp hs
  obtain rfl := Option.some.inj hs
  have hout := install_outstanding hmem
  constructor
  · exact ((hout.map _).append_right _).nodup_iff.mpr hi.nodup
  · exact fun r hr => hi.lt r (((hout.map _).append_right _).mem_iff.mp hr)
  · exact fun c hc => hi.fn c (hout.mem_iff.mp hc)
  · exact hi.gone_lt
  · exact fun c hc => hi.claimed c (List.mem_of_mem_erase hc)
  · intro c hc
    rcases List.mem_cons.mp hc with rfl | hc
    · refine .inl ⟨?_, hi.claimed c hmem⟩
      exact Function.update_self ..
    · have hinfo := hi.info c hc
      show InfoOf s c.request (Function.update s.q.info cmd.commandId _ c.commandId)
      rwa [Function.update_of_ne (h.claimed_ne hmem hc)]
  · intro id hid
    show (Function.update s.q.info cmd.commandId _ id).ctx.request? = none
    rw [Function.update_of_ne (hid cmd List.mem_cons_self).symm]
    exact hi.stale id fun c hc => hid c (List.mem_cons_of_mem _ hc)

theorem cancel (cmdid : ℕ) (hactive : active s' = active s)
    (hclaimed : s'.claimed = s.claimed) (hinfo : s'.q.info = (cancelCmdid s.q cmdid).2.info)
    (hrequests : s'.requests = s.requests) (hhandled : s'.handled = s.handled)
    (hgone : ∀ r, Gone s' r ↔ (s.q.info cmdid).ctx = .data r ∨ Gone s r) : InfoInv s' := by
  have hout : outstanding s' = outstanding s := by
    unfold outstanding
    rw [hclaimed, hactive]
  have hreqs : requestsOf s' = requestsOf s := by
    unfold requestsOf
    rw [hout, hhandled]
  have hold : ∀ cmd ∈ active s, (s.q.info cmdid).ctx = .data cmd.request → cmd.commandId = cmdid := by
    intro cmd hcmd hctx
    obtain ⟨cmd', hcmd', hid, hr, -⟩ := hi.own hctx
    have hnodup : ((active s).map Command.request).Nodup := by
      have hall := hi.nodup
      unfold requestsOf outstanding at hall
      rw [List.map_append, List.append_assoc] at hall
      exact hall.of_append_right.of_append_left
    rw [List.inj_on_of_nodup_map hnodup hcmd hcmd' hr.symm, hid]
  constructor
  · rw [hreqs]
    exact hi.nodup
  · rw [hreqs, hrequests]
    exact hi.lt
  · rw [hout]
    exact hi.fn
  · intro r hr
    rw [hrequests]
    rcases (hgone r).mp hr with hctx | hr
    · obtain ⟨cmd, hcmd, _, rfl, _⟩ := hi.own hctx
      apply hi.lt
      exact List.mem_append_left _ (List.mem_map_of_mem (List.mem_append_right _ hcmd))
    · exact hi.gone_lt r hr
  · intro cmd hcmd hg
    rw [hclaimed] at hcmd
    rcases (hgone _).mp hg with hctx | hg
    · obtain ⟨cmd', hcmd', _, hr, _⟩ := hi.own hctx
      have hall := hi.nodup
      unfold requestsOf outstanding at hall
      rw [List.map_append] at hall
      exact List.disjoint_of_nodup_append hall.of_append_left (List.mem_map_of_mem hcmd)
        (hr ▸ List.mem_map_of_mem hcmd')
    · exact hi.claimed cmd hcmd hg
  · intro cmd hcmd
    rw [hactive] at hcmd
    rw [hinfo]
    show InfoOf s' cmd.request (Function.update s.q.info cmdid _ cmd.commandId)
    by_cases hid : cmd.commandId = cmdid
    · rw [hid, Function.update_self]
      refine .inr ⟨rfl, ?_⟩
      rw [hgone]
      have hof := hi.info cmd hcmd
      rw [hid] at hof
      rcases hof with ⟨hown, _⟩ | ⟨_, hspecial | hg⟩
      · by_cases hfn : cmd.request.fn = .special
        · exact .inl hfn
        · rw [hown]
          exact .inr (.inl (Request.ctx_of_ne hfn))
      · exact .inl hspecial
      · exact .inr (.inr hg)
    · rw [Function.update_of_ne hid]
      unfold InfoOf
      rw [hgone, or_iff_right fun hctx => hid (hold cmd hcmd hctx)]
      exact hi.info cmd hcmd
  · intro id hid
    rw [hactive] at hid
    rw [hinfo]
    show (Function.update s.q.info cmdid _ id).ctx.request? = none
    by_cases heq : id = cmdid
    · rw [heq, Function.update_self]
      rfl
    · rw [Function.update_of_ne heq]
      exact hi.stale id hid

theorem handle (h : Inv s) {cqe : Completion} (hactive : (active s).Perm (cqe.command :: active s'))
    (hclaimed : s'.claimed = s.claimed)
    (hinfo : s'.q.info = Function.update s.q.info cqe.commandId ⟨.special, .completed⟩)
    (hrequests : s'.requests = s.requests) (hhandled : s'.handled = s.handled ++ [cqe])
    (hgone : Gone s' = Gone s) : InfoInv s' := by
  have hout : (outstanding s).Perm (cqe.command :: outstanding s') := by
    unfold outstanding
    rw [hclaimed]
    exact (hactive.append_left _).trans List.perm_middle
  have hreqs : (requestsOf s').Perm (requestsOf s) := by
    have hmap : ((outstanding s).map Command.request).Perm
        (cqe.result :: (outstanding s').map Command.request) := hout.map Command.request
    unfold requestsOf
    rw [hhandled, List.map_append, ← List.append_assoc]
    exact (List.perm_append_singleton _ _).trans (hmap.append_right _).symm
  have hids := (hout.map Command.commandId).nodup_iff.mp h.ids.nodup
  rw [List.map_cons, List.nodup_cons] at hids
  have hother : ∀ cmd ∈ active s', cmd.commandId ≠ cqe.commandId := by
    intro cmd hcmd heq
    apply hids.1
    show cqe.commandId ∈ _
    rw [← heq]
    exact List.mem_map_of_mem (List.mem_append_right _ hcmd)
  constructor
  · exact hreqs.nodup_iff.mpr hi.nodup
  · intro r hr
    rw [hrequests]
    exact hi.lt r (hreqs.mem_iff.mp hr)
  · exact fun cmd hcmd => hi.fn cmd (hout.mem_iff.mpr (List.mem_cons_of_mem _ hcmd))
  · rw [hgone, hrequests]
    exact hi.gone_lt
  · rw [hgone, hclaimed]
    exact hi.claimed
  · intro cmd hcmd
    unfold InfoOf
    rw [hinfo, hgone, Function.update_of_ne (hother cmd hcmd)]
    exact hi.info cmd (hactive.mem_iff.mpr (List.mem_cons_of_mem _ hcmd))
  · intro id hid
    rw [hinfo]
    by_cases heq : id = cqe.commandId
    · rw [heq, Function.update_self]
      rfl
    · rw [Function.update_of_ne heq]
      apply hi.stale
      intro cmd hcmd
      rcases List.mem_cons.mp (hactive.mem_iff.mp hcmd) with rfl | hcmd
      · exact fun hcmdid => heq hcmdid.symm
      · exact hid cmd hcmd

end InfoInv

/-! ## The calls -/

/-- The requests whose data a completion function has been called with. -/
def called (s : System) : List Request := s.calls.filterMap fun call => call.ctx.request?

/-- A call without a warning, and with its own data if with any. -/
structure CallOk (s : System) (call : Call) : Prop where
  fn : call.fn ≠ .null
  warns : ¬ call.Warns
  own : ∀ r, call.ctx = .data r → call.fn = r.fn ∧ r ∉ s.aborted ∧
    (call.cqe ∈ s.handled ∧ call.cqe.result = r ∨ call.cqe = abortCqe ∧ r ∈ s.timedOut)

structure CallsInv (s : System) : Prop where
  calls : ∀ call ∈ s.calls, CallOk s call
  once : (called s).Nodup
  called_cases : ∀ r ∈ called s, r ∈ s.timedOut ∨ r ∈ s.handled.map Completion.result
  timedOut : ∀ r ∈ s.timedOut, r ∈ called s
  handled : ∀ cqe ∈ s.handled,
    cqe.result.fn = .special ∨ cqe.result ∈ s.aborted ∨ cqe.result ∈ called s

theorem start_callsInv (depth : ℕ) (sqCmds : ℕ → Command) : CallsInv (start depth sqCmds) where
  calls _ hcall := absurd hcall List.not_mem_nil
  once := List.nodup_nil
  called_cases _ hr := absurd hr List.not_mem_nil
  timedOut _ hr := absurd hr List.not_mem_nil
  handled _ hcqe := absurd hcqe List.not_mem_nil

theorem mem_called {r : Request} : r ∈ called s ↔ ∃ call ∈ s.calls, call.ctx = .data r := by
  unfold called
  simp only [List.mem_filterMap, request?_eq]

theorem nodup_toList {α : Type} (o : Option α) : o.toList.Nodup := by
  cases o <;> simp

theorem InfoOf.call {r : Request} {info : CmdInfo} (h : InfoOf s r info) (hfn : r.fn ≠ .null) :
    info.fn ≠ .null ∧ ¬ (info.fn = .special ∧ info.ctx ≠ .cancelled ∧ info.ctx ≠ .flush) ∧
      ∀ r', info.ctx = .data r' → r' = r ∧ info.fn = r.fn ∧ ¬ Gone s r := by
  rcases h with ⟨rfl, hgone⟩ | ⟨rfl, _⟩
  · refine ⟨hfn, fun hwarns => hwarns.2.2 (Request.ctx_of_eq hwarns.1), fun r' hctx => ?_⟩
    exact ⟨(Request.eq_of_ctx hctx).symm, rfl, hgone⟩
  · refine ⟨nofun, fun hwarns => hwarns.2.1 rfl, fun r' hctx => ?_⟩
    cases hctx

namespace CallsInv

variable (hc : CallsInv s)

include hc

theorem not_called (hi : InfoInv s) {cmd : Command} (hcmd : cmd ∈ active s)
    (hgone : ¬ Gone s cmd.request) : cmd.request ∉ called s := by
  intro hr
  rcases hc.called_cases _ hr with htimedOut | hhandled
  · exact hgone (.inr htimedOut)
  · refine List.disjoint_of_nodup_append hi.nodup ?_ hhandled
    exact List.mem_map_of_mem (List.mem_append_right _ hcmd)

theorem move (hhandled : s'.handled = s.handled) (hcalls : s'.calls = s.calls)
    (haborted : s'.aborted = s.aborted) (htimedOut : s'.timedOut = s.timedOut) : CallsInv s' := by
  have hcalled : called s' = called s := by
    unfold called
    rw [hcalls]
  constructor
  · intro call hcall
    rw [hcalls] at hcall
    obtain ⟨hfn, hwarns, hown⟩ := hc.calls call hcall
    refine ⟨hfn, hwarns, ?_⟩
    rw [haborted, htimedOut, hhandled]
    exact hown
  · rw [hcalled]
    exact hc.once
  · rw [hcalled, htimedOut, hhandled]
    exact hc.called_cases
  · rw [hcalled, htimedOut]
    exact hc.timedOut
  · rw [hcalled, haborted, hhandled]
    exact hc.handled

theorem abort (hi : InfoInv s) {cmdid : ℕ} (hs : abort cmdid s = some s') : CallsInv s' := by
  unfold Nvme.abort at hs
  obtain ⟨_, hs⟩ := Option.ite_none_right_eq_some.mp hs
  obtain rfl := Option.some.inj hs
  -- the data of the request that is aborted has not been used
  have hnew : ∀ r, (s.q.info cmdid).ctx.request? = some r → r ∉ called s := by
    intro r hr
    obtain ⟨cmd, hcmd, _, rfl, _, hgone⟩ := hi.own (request?_eq.mp hr)
    exact hc.not_called hi hcmd hgone
  constructor
  · intro call hcall
    obtain ⟨hfn, hwarns, hown⟩ := hc.calls call hcall
    refine ⟨hfn, hwarns, fun r hr => ?_⟩
    obtain ⟨hrfn, hrabort, hrest⟩ := hown r hr
    refine ⟨hrfn, fun hmem => ?_, hrest⟩
    rcases List.mem_append.mp hmem with hmem | hmem
    · exact hnew r (Option.mem_toList.mp hmem) (mem_called.mpr ⟨call, hcall, hr⟩)
    · exact hrabort hmem
  · exact hc.once
  · exact hc.called_cases
  · exact hc.timedOut
  · intro cqe hcqe
    exact (hc.handled cqe hcqe).imp_right (Or.imp_left (List.mem_append_right _))

/-- A call with the entry of a command on its way: what both `nvme_process_cq` and `nvme_timeout_ios`
make of it. -/
theorem call (hi : InfoInv s) {cmd : Command} (hcmd : cmd ∈ active s) {cqe : Completion}
    (hcalls : s'.calls = s.calls ++ [⟨(s.q.info cmd.commandId).fn, (s.q.info cmd.commandId).ctx, cqe⟩])
    (haborted : s'.aborted = s.aborted) (hhandled : ∀ c ∈ s.handled, c ∈ s'.handled)
    (htimedOut : ∀ r ∈ s.timedOut, r ∈ s'.timedOut)
    (hreason : ∀ r, (s.q.info cmd.commandId).ctx = .data r →
      cqe ∈ s'.handled ∧ cqe.result = r ∨ cqe = abortCqe ∧ r ∈ s'.timedOut)
    (hnewHandled : ∀ c ∈ s'.handled, c ∈ s.handled ∨ c.result.fn = .special ∨
      c.result ∈ s.aborted ∨ c.result ∈ s.timedOut ∨ (s.q.info cmd.commandId).ctx = .data c.result)
    (hnewTimedOut : ∀ r ∈ s'.timedOut,
      r ∈ s.timedOut ∨ (s.q.info cmd.commandId).ctx = .data r) : CallsInv s' := by
  obtain ⟨hfn, hwarns, hown⟩ :=
    (hi.info cmd hcmd).call (hi.fn cmd (List.mem_append_right _ hcmd))
  have hcalled : called s' = called s ++ (s.q.info cmd.commandId).ctx.request?.toList := by
    unfold called
    rw [hcalls, List.filterMap_append]
    cases hr : (s.q.info cmd.commandId).ctx.request? <;> simp [hr]
  have hmem : ∀ r, r ∈ called s' ↔ r ∈ called s ∨ (s.q.info cmd.commandId).ctx = .data r := by
    intro r
    rw [hcalled, List.mem_append, Option.mem_toList, request?_eq]
  constructor
  · intro call hcall
    rw [hcalls] at hcall
    rcases List.mem_append.mp hcall with hcall | hcall
    · obtain ⟨hfn, hwarns, hown⟩ := hc.calls call hcall
      refine ⟨hfn, hwarns, fun r hr => ?_⟩
      obtain ⟨hrfn, hrabort, hrest⟩ := hown r hr
      refine ⟨hrfn, haborted ▸ hrabort, hrest.imp ?_ ?_⟩
      · exact fun hin => ⟨hhandled _ hin.1, hin.2⟩
      · exact fun hin => ⟨hin.1, htimedOut r hin.2⟩
    · obtain rfl := List.mem_singleton.mp hcall
      refine ⟨hfn, hwarns, fun r hr => ?_⟩
      obtain ⟨rfl, hrfn, hgone⟩ := hown r hr
      exact ⟨hrfn, haborted ▸ fun habort => hgone (.inl habort), hreason _ hr⟩
  · rw [hcalled, List.nodup_append']
    refine ⟨hc.once, nodup_toList _, fun r hr hnew => ?_⟩
    obtain ⟨rfl, _, hgone⟩ := hown r (request?_eq.mp (Option.mem_toList.mp hnew))
    exact hc.not_called hi hcmd hgone hr
  · intro r hr
    rcases (hmem r).mp hr with hr | hr
    · refine (hc.called_cases r hr).imp (htimedOut r) fun hin => ?_
      obtain ⟨c, hcin, rfl⟩ := List.mem_map.mp hin
      exact List.mem_map_of_mem (hhandled c hcin)
    · rcases hreason r hr with ⟨hin, rfl⟩ | ⟨_, hin⟩
      · exact .inr (List.mem_map_of_mem hin)
      · exact .inl hin
  · intro r hr
    rw [hmem]
    exact (hnewTimedOut r hr).imp_left (hc.timedOut r)
  · intro c hcin
    rw [haborted, hmem]
    rcases hnewHandled c hcin with hold | hspecial | habort | htimed | hctx
    · exact (hc.handled c hold).imp_right (Or.imp_right .inl)
    · exact .inl hspecial
    · exact .inr (.inl habort)
    · exact .inr (.inr (.inl (hc.timedOut _ htimed)))
    · exact .inr (.inr (.inr hctx))

end CallsInv

/-! ## Steps -/

structure HandlerInv (s : System) : Prop where
  inv : Inv s
  info : InfoInv s
  calls : CallsInv s

theorem HandlerInv.abort (h : HandlerInv s) {cmdid : ℕ} (hs : abort cmdid s = some s') :
    HandlerInv s' := by
  refine ⟨h.inv.abort hs, ?_, h.calls.abort h.info hs⟩
  unfold Nvme.abort at hs
  obtain ⟨_, hs⟩ := Option.ite_none_right_eq_some.mp hs
  obtain rfl := Option.some.inj hs
  refine h.info.cancel cmdid rfl rfl rfl rfl rfl fun r => ?_
  unfold Gone
  show r ∈ (s.q.info cmdid).ctx.request?.toList ++ s.aborted ∨ _ ↔ _
  rw [List.mem_append, Option.mem_toList, request?_eq, or_assoc]

theorem HandlerInv.timeout (h : HandlerInv s) {cmdid : ℕ}
    (hquiet : ∀ cmd ∈ s.claimed, cmd.commandId ≠ cmdid) (hs : timeout cmdid s = some s') :
    HandlerInv s' := by
  have hinv := h.inv.timeout hs
  unfold Nvme.timeout at hs
  obtain ⟨⟨_, _, htaken⟩, hs⟩ := Option.ite_none_right_eq_some.mp hs
  obtain rfl := Option.some.inj hs
  have hnew : ∀ r, r ∈ (s.q.info cmdid).ctx.request?.toList ++ s.timedOut ↔
      (s.q.info cmdid).ctx = .data r ∨ r ∈ s.timedOut := by
    intro r
    rw [List.mem_append, Option.mem_toList, request?_eq]
  -- the bit is set, and not by somebody who has yet to write the entry
  obtain ⟨cmd, hcmd, rfl⟩ : ∃ cmd ∈ active s, cmd.commandId = cmdid := by
    obtain ⟨cmd, hcmd, hid⟩ := List.mem_map.mp ((h.inv.ids.mem_iff cmdid).mp htaken)
    rcases List.mem_append.mp hcmd with hclaimed | hactive
    · exact absurd hid (hquiet cmd hclaimed)
    · exact ⟨cmd, hactive, hid⟩
  refine ⟨hinv, ?_, ?_⟩
  · refine h.info.cancel cmd.commandId rfl rfl rfl rfl rfl fun r => ?_
    show r ∈ s.aborted ∨ r ∈ _ ++ s.timedOut ↔ _ ∨ (r ∈ s.aborted ∨ r ∈ s.timedOut)
    rw [hnew, or_left_comm]
  · refine h.calls.call h.info hcmd rfl rfl (fun _ hc => hc) ?_ ?_ (fun _ hc => .inl hc) ?_
    · exact fun r hr => (hnew r).mpr (.inr hr)
    · exact fun r hr => .inr ⟨rfl, (hnew r).mpr (.inl hr)⟩
    · exact fun r hr => ((hnew r).mp hr).symm

theorem HandlerInv.irqRound (h : HandlerInv s) (hs : irqRound s = some s') : HandlerInv s' := by
  have hinv := h.inv.irqRound hs
  obtain ⟨head, phase, _, ⟨_, rfl⟩ | ⟨hlt, hmem, rfl⟩⟩ := h.inv.irqRound_cases hs
  · exact ⟨hinv, h.info.move (List.Perm.refl _) rfl rfl rfl rfl rfl, h.calls.move rfl rfl rfl rfl⟩
  · refine ⟨hinv, h.info.handle h.inv (perm_handled hlt) rfl rfl rfl rfl rfl, ?_⟩
    refine h.calls.call h.info hmem rfl rfl ?_ (fun _ hr => hr) ?_ ?_ (fun _ hr => .inl hr)
    · exact fun c hc => List.mem_append_left _ hc
    · intro r hr
      refine .inl ⟨List.mem_append_right _ List.mem_cons_self, ?_⟩
      obtain ⟨rfl, _⟩ := ((h.info.info _ hmem).call
        (h.info.fn _ (List.mem_append_right _ hmem))).2.2 r hr
      rfl
    · intro c hc
      rcases List.mem_append.mp hc with hc | hc
      · exact .inl hc
      · obtain rfl := List.mem_singleton.mp hc
        rcases h.info.info _ hmem with ⟨hinfo, _⟩ | ⟨_, hspecial | haborted | htimedOut⟩
        · by_cases hfn : s.posted[s.handled.length].result.fn = .special
          · exact .inr (.inl hfn)
          · rw [hinfo]
            exact .inr (.inr (.inr (.inr (Request.ctx_of_ne hfn))))
        · exact .inr (.inl hspecial)
        · exact .inr (.inr (.inl haborted))
        · exact .inr (.inr (.inr (.inl htimedOut)))

theorem Quiet.idFound {a : Action} (h : Quiet s a) : IdFound s a := by
  cases a <;> first | exact h | trivial

theorem HandlerInv.step (h : HandlerInv s) {a : Action} (hok : Quiet s a)
    (hs : step s a = some s') : HandlerInv s' := by
  have hinv := h.inv.step hok.idFound hs
  cases a with
  | claim cmdid fn =>
    refine ⟨hinv, h.info.claim hs, ?_⟩
    obtain ⟨_, hs⟩ := Option.ite_none_right_eq_some.mp hs
    obtain rfl := Option.some.inj hs
    exact h.calls.move rfl rfl rfl rfl
  | install cmd =>
    refine ⟨hinv, h.info.install h.inv hs, ?_⟩
    obtain ⟨_, hs⟩ := Option.ite_none_right_eq_some.mp hs
    obtain rfl := Option.some.inj hs
    exact h.calls.move rfl rfl rfl rfl
  | submit cmd =>
    have hactive := h.inv.submit_active hs
    obtain ⟨_, _, rfl⟩ := submit_cases hs
    exact ⟨hinv, h.info.move hactive rfl rfl rfl rfl rfl, h.calls.move rfl rfl rfl rfl⟩
  | bioBusy r => exact hok.elim
  | abort cmdid => exact h.abort hs
  | timeout cmdid => exact h.timeout hok hs
  | irqEnter =>
    obtain ⟨_, hs⟩ := Option.ite_none_right_eq_some.mp hs
    obtain rfl := Option.some.inj hs
    exact ⟨hinv, h.info.move (List.Perm.refl _) rfl rfl rfl rfl rfl, h.calls.move rfl rfl rfl rfl⟩
  | irqRound => exact h.irqRound hs
  | irqExit =>
    obtain ⟨_, _, _, ⟨_, rfl⟩ | rfl⟩ := irqExit_cases hs <;>
    exact ⟨hinv, h.info.move (List.Perm.refl _) rfl rfl rfl rfl rfl, h.calls.move rfl rfl rfl rfl⟩
  | fetch =>
    have hactive := h.inv.fetch_active hs
    obtain ⟨_, rfl⟩ := fetch_cases hs
    exact ⟨hinv, h.info.move hactive rfl rfl rfl rfl rfl, h.calls.move rfl rfl rfl rfl⟩
  | complete i code =>
    have hactive := h.inv.complete_active hs
    obtain ⟨_, _, rfl⟩ := complete_cases hs
    exact ⟨hinv, h.info.move hactive rfl rfl rfl rfl rfl, h.calls.move rfl rfl rfl rfl⟩

end CodingForFun.Nvme
