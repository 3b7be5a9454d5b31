import CodingForFun.Nvme.Lifetimes
import Mathlib.Tactic.Abel
import Mathlib.Tactic.Ring

/-!
# `nvme_probe` and `nvme_remove` as a whole

`probe_exact` says what `nvme_probe` leaves behind, and `probe_shared` what the processors find when it has
succeeded.
-/

namespace CodingForFun.Nvme.Controller

open Lib

variable {e : Env} {d d' : Dev} {ns : Namespace} {l : List Namespace} {rest held : Multiset Resource}

/-! ## Namespaces -/

/-- What `nvme_alloc_ns` takes; without an index `first_minor` is negative. -/
def Namespace.resources (ns : Namespace) : Multiset Resource :=
  (if ns.firstMinor < 0 then 0 else {.index (ns.firstMinor.tdiv 64)}) +
    .disk ns.nsid ::ₘ .requestQueue ns.nsid ::ₘ {.ns ns.nsid}

/-- What the namespaces hold when their disks are there. -/
def namespacesHold (l : List Namespace) : Multiset Resource :=
  (l.map fun ns => .added ns.nsid ::ₘ ns.resources).sum

/-- How a round of the loop over the namespaces ends. -/
def nsStatus (e : Env) (i : ℕ) : ℤ :=
  if e.status (.identify i) ≠ 0 then e.status (.identify i)
  else if e.ncap i = 0 then 0
  else e.status (.getFeatures i)

/-- The value of `res` after the rounds of a list. -/
def lastStatus (e : Env) (l : List ℕ) : ℤ := (l.getLast?.map (nsStatus e)).getD 0

theorem allocNs_cases (e : Env) (i : ℕ) (held : Multiset Resource) :
    allocNs e i held = .ok (none, held) ∨
      ∃ ns : Namespace, allocNs e i held = .ok (some ns, ns.resources + held) := by
  unfold allocNs
  split
  · exact .inl rfl
  split
  · exact .inl rfl
  split
  · rw [release_cons]
    exact .inl rfl
  split
  · rw [release_cons, ok_bind, release_cons]
    exact .inl rfl
  refine .inr ?_
  cases hindex : e.index i with
  | none =>
    refine ⟨⟨i, 64 * (-1)⟩, ?_⟩
    dsimp only [Namespace.resources]
    rw [if_pos (by omega), zero_add, Multiset.cons_add, Multiset.cons_add, Multiset.singleton_add]
  | some k =>
    refine ⟨⟨i, 64 * k⟩, ?_⟩
    dsimp only [Namespace.resources]
    rw [if_neg (by omega), Int.mul_tdiv_cancel_left _ (by omega), Multiset.singleton_add, Multiset.cons_add,
      Multiset.cons_add, Multiset.cons_add, Multiset.singleton_add]

theorem nsFree_ok (hindex : 0 ≤ ns.firstMinor) : nsFree (ns.resources + rest) ns = .ok rest := by
  unfold nsFree Namespace.resources
  rw [if_neg (not_lt.mpr hindex), Multiset.singleton_add, Multiset.cons_add, Multiset.cons_add, Multiset.cons_add,
    Multiset.singleton_add, Multiset.cons_swap]
  dsimp only
  rw [release_cons, ok_bind, release_cons, ok_bind, release_cons, ok_bind, release_cons]

theorem addNamespace_ok (res : ℤ) (hadmin : HasAdmin d) (i : ℕ) :
    addNamespace e (res, d) i = .ok (nsStatus e i, d) ∨
      ∃ ns : Namespace, addNamespace e (res, d) i =
        .ok (nsStatus e i, { d with held := ns.resources + d.held, namespaces := d.namespaces ++ [ns] }) := by
  unfold addNamespace nsStatus
  dsimp only
  rw [hadmin.adminCmd, ok_bind]
  split
  · exact .inl rfl
  rename_i hidentify
  split
  · rw [not_not.mp hidentify]
    exact .inl rfl
  rw [ok_bind]
  split
  · exact .inl rfl
  rcases allocNs_cases e i d.held with h | ⟨ns, h⟩
  · rw [h]
    exact .inl rfl
  · rw [h]
    exact .inr ⟨ns, rfl⟩

theorem addNamespaces_ok (hadmin : HasAdmin d) (hnone : d.namespaces = []) (ids : List ℕ) :
    ∃ l : List Namespace, ids.foldlM (addNamespace e) (0, d) =
      .ok (lastStatus e ids, { d with held := (l.map Namespace.resources).sum + d.held, namespaces := l }) ∧
      (ids = [] → l = []) := by
  let after (done : List ℕ) (s : ℤ × Dev) : Prop := ∃ l : List Namespace,
    s = (lastStatus e done, { d with held := (l.map Namespace.resources).sum + d.held, namespaces := l }) ∧
      (done = [] → l = [])
  suffices hloop : ∃ s, ids.foldlM (addNamespace e) (0, d) = .ok s ∧ after ids s by
    obtain ⟨s, hs, l, rfl, hl⟩ := hloop
    exact ⟨l, hs, hl⟩
  refine foldlM_ok after ids ?_ ?_
  · refine ⟨[], ?_, fun _ => rfl⟩
    rw [List.map_nil, List.sum_nil, zero_add, ← hnone]
    rfl
  · rintro done i rest s - ⟨l, rfl, -⟩
    have hlast : lastStatus e (done ++ [i]) = nsStatus e i := by
      simp [lastStatus]
    have hthere : HasAdmin { d with held := (l.map Namespace.resources).sum + d.held, namespaces := l } :=
      hadmin.mono rfl fun _ hmem => Multiset.mem_add.mpr (.inr hmem)
    rcases addNamespace_ok (e := e) (lastStatus e done) hthere i with h | ⟨ns, h⟩
    · exact ⟨_, h, l, by rw [hlast], fun hnil => absurd hnil (by simp)⟩
    · refine ⟨_, h, l ++ [ns], ?_, fun hnil => absurd hnil (by simp)⟩
      rw [hlast, List.map_append, List.sum_append, List.map_singleton, List.sum_singleton, add_assoc, add_left_comm]

theorem addDisks_held (l : List Namespace) (rest : Multiset Resource) :
    l.foldl (fun held ns => .added ns.nsid ::ₘ held) ((l.map Namespace.resources).sum + rest) =
      namespacesHold l + rest := by
  unfold namespacesHold
  induction l generalizing rest with
  | nil => rfl
  | cons ns l ih =>
    rw [List.foldl_cons, List.map_cons, List.map_cons, List.sum_cons, List.sum_cons]
    have hmove : (.added ns.nsid ::ₘ (ns.resources + (l.map Namespace.resources).sum + rest) : Multiset Resource) =
        (l.map Namespace.resources).sum + ((.added ns.nsid ::ₘ ns.resources) + rest) := by
      rw [← Multiset.singleton_add, ← Multiset.singleton_add]
      abel
    rw [hmove, ih]
    abel

theorem removeNs_ok (l : List Namespace) (hindex : ∀ ns ∈ l, 0 ≤ ns.firstMinor) (rest : Multiset Resource) :
    l.foldlM removeNs (namespacesHold l + rest) = .ok rest := by
  induction l with
  | nil =>
    rw [List.foldlM_nil]
    exact congrArg Except.ok (zero_add rest)
  | cons ns l ih =>
    have hcons : namespacesHold (ns :: l) + rest =
        .added ns.nsid ::ₘ (ns.resources + (namespacesHold l + rest)) := by
      unfold namespacesHold
      rw [List.map_cons, List.sum_cons, ← Multiset.singleton_add, ← Multiset.singleton_add]
      abel
    rw [List.foldlM_cons, hcons, removeNs, release_cons, ok_bind, nsFree_ok (hindex ns List.mem_cons_self), ok_bind]
    exact ih fun ns' hns' => hindex ns' (List.mem_cons_of_mem _ hns')

/-! ## The controller -/

/-- The controller is there, with its queues and namespaces. -/
structure Added (e : Env) (size n : ℕ) (rest : Multiset Resource) (d : Dev) : Prop where
  count : d.queueCount = n
  queues : ∀ i < n, d.queues i = some (queueAt e.dbStride i)
  held : d.held = namespacesHold d.namespaces + (queuesHold e.dbStride d.vector n + rest)
  bar : d.barSize = size

theorem Stage.added {size n : ℕ} (h : Stage e size n rest d) : Added e size n rest d := by
  refine ⟨h.count, h.queues, ?_, h.bar⟩
  rw [h.namespaces, h.held]
  exact (zero_add _).symm

/-- `nvme_dev_add` holds the queues and the namespaces that it has got, also when it fails. -/
theorem devAdd_cases (h : Basics e) (hs : Stage e 8192 1 (.bar ::ₘ rest) d) :
    (SetupShort e ∧ devAdd e d = .error .outOfBounds) ∨
      (¬ SetupShort e ∧ ∃ res size n d', devAdd e d = .ok (res, d') ∧ Added e size n (.bar ::ₘ rest) d' ∧
        (d'.namespaces ≠ [] → res = nsStatus e e.nn) ∧ (res = 0 → n = nrIoQueues e + 1 ∧
          4096 + (n <<< (e.dbStride + 3)) ≤ size ∧ Shared e.dbStride (nrIoQueues e) e.possibleCpus d'.queues)) := by
  unfold devAdd
  rcases setupIoQueues_cases h hs with ⟨hshort, hrun⟩ | ⟨hnot, res, size, n, d', hrun, hstage, hset⟩
  · rw [hrun]
    exact .inl ⟨hshort, rfl⟩
  refine .inr ⟨hnot, ?_⟩
  rw [hrun, ok_bind]
  dsimp only
  by_cases hres : res = 0
  case neg =>
    rw [if_pos hres]
    exact ⟨res, size, n, d', rfl, hstage.added, fun hne => absurd hstage.namespaces hne, fun hz => absurd hz hres⟩
  obtain ⟨hn, hsize, hshared⟩ := hset hres
  have hthere : HasAdmin { d' with held := .dma .identify 8192 ::ₘ d'.held } :=
    hstage.hasAdmin.mono rfl fun _ hmem => Multiset.mem_cons_of_mem hmem
  rw [if_neg (not_not.mpr hres), if_neg (not_not.mpr (h.works _ (by decide))), hthere.adminCmd, ok_bind]
  by_cases hidentify : e.status .identifyController = 0
  · rw [if_neg (not_not.mpr hidentify)]
    obtain ⟨l, hloop, hnone⟩ := addNamespaces_ok (e := e) hthere hstage.namespaces (List.range' 1 e.nn)
    rw [hloop, ok_bind]
    unfold addDisks
    dsimp only
    rw [addDisks_held, Multiset.add_cons, release_cons, ok_bind]
    refine ⟨_, size, n, _, rfl, ⟨hstage.count, hstage.queues, ?_, hstage.bar⟩, fun hne => ?_,
      fun _ => ⟨hn, hsize, hshared⟩⟩
    · dsimp only
      rw [hstage.held]
    · have hpos : e.nn ≠ 0 := fun hz => hne (hnone (by rw [hz]; rfl))
      obtain ⟨m, hm⟩ := Nat.exists_eq_succ_of_ne_zero hpos
      simp [lastStatus, hm, List.range'_1_concat, add_comm]
  · rw [if_pos hidentify, hstage.namespaces, List.foldlM_nil]
    have hfree : release (.dma .identify 8192) (.dma .identify 8192 ::ₘ d'.held) = .ok d'.held := release_cons _ _
    rw [pure_eq_ok, ok_bind, hfree, ok_bind]
    refine ⟨-5, size, n, _, rfl, ⟨hstage.count, hstage.queues, ?_, hstage.bar⟩, fun hne => absurd rfl hne,
      fun hz => absurd hz (by omega)⟩
    rw [hstage.held]
    exact (zero_add _).symm

/-! ## The whole -/

/-- What `nvme_probe` takes first, but for the BAR. -/
def basis : Multiset Resource :=
  ([.pagePool, .smallPool, .enabled, .regions, .queues, .entry, .dev] : List Resource)

theorem disable_ok (hheld : d.held = rest + .bar ::ₘ basis) :
    disable d = .ok { d with held := rest, msix := false } := by
  unfold disable
  rw [hheld, add_comm, basis, Multiset.cons_coe, releaseAll_add (List.Perm.refl _), ok_bind]

/-- The state that `nvme_probe` starts from. -/
def started (e : Env) : Dev where
  held := .bar ::ₘ basis
  adapter := 0
  queues _ := none
  queueCount := 0
  vector i := if i = 0 then e.irq else 0
  msix := false
  dbStride := 0
  barSize := 8192
  namespaces := []

theorem start_ok (h : Basics e) : start e = .ok (started e) := by
  unfold start setupPrpPools
  have hworks : ∀ call ∈ unchecked, ¬ e.status call ≠ 0 := fun call hcall => not_not.mpr (h.works call hcall)
  have hfirst : ¬ (e.status .kzallocDev ≠ 0 ∨ e.status .kcallocEntry ≠ 0 ∨ e.status .kcallocQueues ≠ 0) := by
    simp [h.works _ (show Call.kzallocDev ∈ unchecked by decide),
      h.works _ (show Call.kcallocEntry ∈ unchecked by decide),
      h.works _ (show Call.kcallocQueues ∈ unchecked by decide)]
  rw [if_neg hfirst]
  dsimp only
  rw [if_neg (hworks .enableDevice (by decide)), if_neg (hworks .requestRegions (by decide)),
    if_neg (hworks .pagePool (by decide)), if_neg (hworks .smallPool (by decide)), ok_bind,
    if_neg (hworks .ioremap (by decide))]
  have hsame : (.smallPool ::ₘ .pagePool ::ₘ .regions ::ₘ .enabled ::ₘ {.dev, .entry, .queues} :
      Multiset Resource) = basis := by
    decide
  rw [hsame]
  rfl

theorem configure_stage (h : Basics e) :
    ∃ res d', configureAdminQueue e (started e) = .ok (res, d') ∧ Stage e 8192 1 (.bar ::ₘ .listed ::ₘ basis)
      { d' with queueCount := d'.queueCount + 1, held := .listed ::ₘ d'.held } := by
  have hsized : Sized (started e).held := by
    intro buffer hmem
    simp [started, basis] at hmem
  unfold configureAdminQueue
  rcases allocQueue_cases (e := e) hsized (by omega : 0 < 64) 0 0 with
    ⟨hshort, -⟩ | ⟨hno, -⟩ | ⟨-, q, hq, hrun⟩
  · exact absurd (h.works (.allocSqCmds 0) (by decide)) hshort.2.2
  · exact hno.elim (absurd (h.works _ (by decide))) (absurd (h.works _ (by decide)))
  rw [hrun, ok_bind]
  dsimp only
  rw [if_neg (not_not.mpr (h.works .ready (by decide)))]
  unfold queueRequestIrq
  rw [if_neg (by rw [h.works _ (by decide)]; omega)]
  refine ⟨_, _, rfl, ?_⟩
  have hqueue : q = queueAt e.dbStride 0 := hq
  have hone : (.listed ::ₘ .irq ((started e).vector q.cqVector) q.qid ::ₘ (q.memory + (started e).held) :
      Multiset Resource) = queuesHold e.dbStride (started e).vector 1 + .bar ::ₘ .listed ::ₘ basis := by
    have hheld : (started e).held = .bar ::ₘ basis := rfl
    rw [queuesHold_one, hheld, hqueue, Multiset.cons_swap, Multiset.cons_swap Resource.bar Resource.listed,
      Multiset.add_cons Resource.listed]
    rfl
  refine ⟨Nat.one_pos, rfl, fun i hi => ?_, hone, ?_, rfl, rfl, rfl⟩
  · obtain rfl := Nat.lt_one_iff.mp hi
    dsimp only
    rw [Function.update_self, hqueue]
  · intro buffer hmem
    dsimp only at hmem
    have hcons := Multiset.mem_cons.mp hmem
    have hres := hsized.resources q (by rw [hq]; exact Nat.zero_lt_succ _) (started e).vector buffer
    rw [q.resources_add] at hres
    exact hcons.elim (fun heq => nomatch heq) hres

theorem Added.held_listed {size n : ℕ} (h : Added e size n (.bar ::ₘ .listed ::ₘ basis) d) : d.held = .listed ::ₘ
    (namespacesHold d.namespaces + (queuesHold e.dbStride d.vector n + .bar ::ₘ basis)) := by
  rw [h.held, Multiset.cons_swap, Multiset.add_cons, Multiset.add_cons]

theorem freeAll_ok {size n : ℕ} (h : Added e size n (.bar ::ₘ .listed ::ₘ basis) d) (rest : Multiset Resource)
    (hheld : held = rest + (queuesHold e.dbStride d.vector n + .bar ::ₘ basis)) :
    ∃ d', freeQueues e d.queueCount { d with held } = .ok d' ∧ d'.namespaces = d.namespaces ∧
      disable d' = .ok { d' with held := rest, msix := false } := by
  obtain rfl := h.count
  have hmove : held = queuesHold e.dbStride d.vector d.queueCount + (rest + .bar ::ₘ basis) := by
    rw [hheld, add_left_comm]
  obtain ⟨adapter, hfree⟩ := freeQueues_ok (e := e) (d := { d with held }) d.queueCount h.queues hmove
  refine ⟨_, hfree, ?_, disable_ok ?_⟩ <;> rfl

theorem probe_cases (h : Basics e) :
    (SetupShort e ∧ probe e = .error .outOfBounds) ∨
      (¬ SetupShort e ∧ ∃ res d, probe e = .ok (res, d) ∧ (d.namespaces ≠ [] → res = nsStatus e e.nn) ∧
        (res ≠ 0 → d.held = namespacesHold d.namespaces) ∧
        (res = 0 → ∃ size, Added e size (nrIoQueues e + 1) (.bar ::ₘ .listed ::ₘ basis) d ∧
          4096 + ((nrIoQueues e + 1) <<< (e.dbStride + 3)) ≤ size ∧
          Shared e.dbStride (nrIoQueues e) e.possibleCpus d.queues)) := by
  unfold probe
  obtain ⟨result, d₁, hconfigure, hstage⟩ := configure_stage h
  rw [start_ok h, ok_bind, hconfigure, ok_bind]
  dsimp only
  rcases devAdd_cases h hstage with ⟨hshort, hrun⟩ | ⟨hnot, res, size, n, d, hrun, hadded, hlast, hset⟩
  · rw [hrun]
    exact .inl ⟨hshort, rfl⟩
  refine .inr ⟨hnot, ?_⟩
  rw [hrun, ok_bind]
  dsimp only
  by_cases hres : res = 0
  · rw [if_neg (not_not.mpr hres)]
    obtain ⟨rfl, hsize, hshared⟩ := hset hres
    refine ⟨0, d, rfl, fun hne => hres ▸ hlast hne, fun hne => absurd rfl hne, fun _ => ?_⟩
    exact ⟨size, hadded, hsize, hshared⟩
  · rw [if_pos hres]
    obtain ⟨d', hfree, hsame, hdisable⟩ := freeAll_ok hadded (namespacesHold d.namespaces) rfl
    rw [release_of_eq hadded.held_listed, ok_bind, hfree, ok_bind, hdisable, ok_bind]
    refine ⟨res, _, rfl, fun hne => hlast (hsame ▸ hne), fun _ => ?_, fun hz => absurd hz hres⟩
    rw [← hsame]

theorem remove_ok {size n : ℕ} (h : Added e size n (.bar ::ₘ .listed ::ₘ basis) d)
    (hindex : ∀ ns ∈ d.namespaces, 0 ≤ ns.firstMinor) : ∃ d', remove e d = .ok d' ∧ d'.held = 0 := by
  unfold remove devRemove
  rw [release_of_eq h.held_listed, ok_bind, removeNs_ok d.namespaces hindex, ok_bind]
  have hnone : Added e size n (.bar ::ₘ .listed ::ₘ basis) { d with
      held := queuesHold e.dbStride d.vector n + .bar ::ₘ .listed ::ₘ basis, namespaces := [] } :=
    ⟨h.count, h.queues, (zero_add _).symm, h.bar⟩
  obtain ⟨d', hfree, -, hdisable⟩ := freeAll_ok hnone 0 (zero_add _).symm
  refine ⟨{ d' with held := 0, msix := false }, ?_, rfl⟩
  rw [← hdisable]
  exact (congrArg (· >>= disable) hfree).trans (ok_bind _ _)

/-- Four processors, of which two are there, two queues and a number of namespaces, of which the second cannot be
identified. -/
def twoQueues (nn : ℕ) : Env where
  status call := if call = .identify 2 then 11 else 0
  onlineCpus := 2
  possibleCpus := 4
  queueCount := 0x10001
  msix _ := 0
  irq := 9
  msixVector i := 40 + i
  dbStride := 0
  nn := nn
  ncap _ := 8
  hidden _ := false
  index i := some i

theorem basics_twoQueues (nn : ℕ) : Basics (twoQueues nn) := by
  refine ⟨?_, fun n hn => ?_, Nat.zero_lt_two, (Nat.le_add_right 2 2 : 2 ≤ 4)⟩
  · intro call hcall
    refine if_neg ?_
    rintro rfl
    revert hcall
    decide
  · exact Int.natCast_pos.mpr hn

theorem probe_of_any {p : ℤ × Dev → Bool} (h : (probe e).toOption.any p = true) :
    ∃ res d, probe e = .ok (res, d) ∧ p (res, d) = true := by
  obtain ⟨⟨res, d⟩, hsome, hp⟩ := (Option.any_eq_true _ _).mp h
  cases hprobe : probe e with
  | error fault =>
    rw [hprobe] at hsome
    cases hsome
  | ok r =>
    rw [hprobe] at hsome
    exact ⟨res, d, congrArg Except.ok (Option.some.inj hsome), hp⟩

theorem resources_le (stride : ℕ) (vector : ℕ → ℕ) {i n : ℕ} (hi : i < n) :
    (queueAt stride i).resources vector ≤ queuesHold stride vector n := by
  induction n with
  | zero => exact absurd hi (Nat.not_lt_zero i)
  | succ n ih =>
    rw [queuesHold_succ]
    rcases Nat.lt_succ_iff_lt_or_eq.mp hi with hlt | rfl
    · exact (ih hlt).trans (Multiset.le_add_left _ _)
    · exact Multiset.le_add_right _ _

theorem queueAt_db (stride i : ℕ) : (queueAt stride i).db = 4096 + (i <<< (stride + 3)) := by
  cases i with
  | zero => rw [Nat.zero_shiftLeft]; rfl
  | succ i =>
    show 4096 + 4 * ((i + 1) <<< (stride + 1)) = _
    rw [Nat.shiftLeft_eq, Nat.shiftLeft_eq]
    ring

end CodingForFun.Nvme.Controller
