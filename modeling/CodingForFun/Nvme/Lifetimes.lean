import CodingForFun.Nvme.Controller
import Mathlib.Algebra.Order.Group.Multiset

/-!
# What a controller holds

Whatever fails while a controller is added, everything that was taken is given back once, but for two cases: if
the memory of a submission queue cannot be had, the completion ring is freed with the size 0, as `q_depth` is not
set yet; and if the last namespace cannot be identified, `nvme_probe` fails with the disks of the others in place.
-/

namespace CodingForFun.Nvme.Controller

open Lib

variable {e : Env} {d d' : Dev} {q : Queue} {rest : Multiset Resource}

/-! ## One queue -/

/-- What `nvme_alloc_queue` takes. -/
def Queue.memory (q : Queue) : Multiset Resource :=
  .dma (.cqes q.qid) (cqSize q.depth) ::ₘ .dma (.sqCmds q.qid) (sqSize q.depth) ::ₘ {.nvmeq q.qid}

/-- What a queue holds in use. -/
def Queue.resources (vector : ℕ → ℕ) (q : Queue) : Multiset Resource :=
  .irq (vector q.cqVector) q.qid ::ₘ q.memory

theorem Queue.memory_add (q : Queue) (rest : Multiset Resource) : q.memory + rest =
    .dma (.cqes q.qid) (cqSize q.depth) ::ₘ .dma (.sqCmds q.qid) (sqSize q.depth) ::ₘ .nvmeq q.qid ::ₘ rest := by
  unfold Queue.memory
  rw [Multiset.cons_add, Multiset.cons_add, Multiset.singleton_add]

theorem Queue.resources_add (vector : ℕ → ℕ) (q : Queue) (rest : Multiset Resource) :
    q.resources vector + rest = .irq (vector q.cqVector) q.qid ::ₘ (q.memory + rest) := by
  unfold Queue.resources
  rw [Multiset.cons_add]

/-- The admin queue is there. -/
def HasAdmin (d : Dev) : Prop := ∃ q, d.queues 0 = some q ∧ .nvmeq q.qid ∈ d.held

theorem HasAdmin.adminCmd (h : HasAdmin d) : adminCmd d = .ok () := by
  obtain ⟨q, hq, hmem⟩ := h
  unfold Controller.adminCmd
  rw [hq]
  exact if_pos hmem

theorem HasAdmin.mono (h : HasAdmin d) (hqueues : d'.queues = d.queues) (hheld : d.held ⊆ d'.held) :
    HasAdmin d' := by
  obtain ⟨q, hq, hmem⟩ := h
  exact ⟨q, (congrFun hqueues 0).trans hq, hheld hmem⟩

theorem adapterDelete_ok (h : HasAdmin d) (queue : AdapterQueue) :
    ∃ adapter, adapterDelete e d queue = .ok { d with adapter } := by
  unfold adapterDelete
  rw [h.adminCmd, ok_bind]
  split
  · exact ⟨d.adapter, rfl⟩
  · exact ⟨_, rfl⟩

theorem adapterAlloc_ok (h : HasAdmin d) (queue : AdapterQueue) :
    (e.status (.create queue) ≠ 0 ∧ adapterAlloc e d queue = .ok (-5, d)) ∨
      (e.status (.create queue) = 0 ∧
        adapterAlloc e d queue = .ok (0, { d with adapter := queue ::ₘ d.adapter })) := by
  unfold adapterAlloc
  rw [h.adminCmd, ok_bind]
  by_cases hstatus : e.status (.create queue) = 0
  · exact .inr ⟨hstatus, if_neg (not_not.mpr hstatus)⟩
  · exact .inl ⟨hstatus, if_pos hstatus⟩

theorem freeMemory_ok (h : d.held = q.memory + rest) : freeMemory d q = .ok { d with held := rest } := by
  unfold freeMemory
  rw [h, q.memory_add, release_cons, ok_bind, release_cons, ok_bind, release_cons, ok_bind]

theorem freeQueue_ok (hq : d.queues q.qid = some q) (hheld : d.held = q.resources d.vector + rest)
    (hadmin : q.qid ≠ 0 → ∃ q₀, d.queues 0 = some q₀ ∧ .nvmeq q₀.qid ∈ rest) :
    ∃ adapter, freeQueue e d q.qid = .ok { d with held := rest, adapter } := by
  unfold freeQueue
  rw [hq, hheld, q.resources_add]
  dsimp only
  rw [release_cons, ok_bind]
  by_cases hzero : q.qid = 0
  · rw [if_neg (not_not.mpr hzero)]
    exact ⟨d.adapter, freeMemory_ok rfl⟩
  · rw [if_pos hzero]
    obtain ⟨q₀, hq₀, hmem⟩ := hadmin hzero
    have hthere : ∀ adapter, HasAdmin { d with held := q.memory + rest, adapter } := fun _ =>
      ⟨q₀, hq₀, Multiset.mem_add.mpr (.inr hmem)⟩
    obtain ⟨adapter, hsq⟩ := adapterDelete_ok (e := e) (hthere d.adapter) (.sq q.qid)
    obtain ⟨adapter', hcq⟩ := adapterDelete_ok (e := e) (hthere adapter) (.cq q.qid)
    refine ⟨adapter', ?_⟩
    rw [hsq, ok_bind, hcq, ok_bind]
    exact freeMemory_ok rfl

/-- The memory of the submission queue is missing. -/
def Short (e : Env) (qid : ℕ) : Prop :=
  e.status (.kzallocQueue qid) = 0 ∧ e.status (.allocCqes qid) = 0 ∧ e.status (.allocSqCmds qid) ≠ 0

/-- Everything that `nvme_create_queue` needs is there. -/
structure Creates (e : Env) (qid : ℕ) : Prop where
  kzalloc : e.status (.kzallocQueue qid) = 0
  cqes : e.status (.allocCqes qid) = 0
  sqCmds : e.status (.allocSqCmds qid) = 0
  cq : e.status (.create (.cq qid)) = 0
  sq : e.status (.create (.sq qid)) = 0
  irq : ¬ e.status (.requestIrq qid) < 0

/-- No memory of size 0 is held. -/
def Sized (held : Multiset Resource) : Prop := ∀ buffer, Resource.dma buffer 0 ∉ held

theorem Creates.not_short {qid : ℕ} (h : Creates e qid) : ¬ Short e qid := fun hs => hs.2.2 h.sqCmds

theorem allocQueue_cases (hsized : Sized d.held) {depth : ℕ} (hdepth : 0 < depth) (qid vector : ℕ) :
    (Short e qid ∧ allocQueue e d qid depth vector = .error .outOfBounds) ∨
      ((e.status (.kzallocQueue qid) ≠ 0 ∨ e.status (.allocCqes qid) ≠ 0) ∧
        allocQueue e d qid depth vector = .ok (none, d)) ∨
      ((e.status (.kzallocQueue qid) = 0 ∧ e.status (.allocCqes qid) = 0 ∧ e.status (.allocSqCmds qid) = 0) ∧
        ∃ q : Queue, q = ⟨qid, depth, vector, 4096 + 4 * (qid <<< (d.dbStride + 1))⟩ ∧
        allocQueue e d qid depth vector = .ok (some q, { d with held := q.memory + d.held })) := by
  unfold allocQueue
  by_cases hk : e.status (.kzallocQueue qid) = 0
  · rw [if_neg (not_not.mpr hk)]
    by_cases hc : e.status (.allocCqes qid) = 0
    · rw [if_neg (not_not.mpr hc)]
      by_cases hs : e.status (.allocSqCmds qid) = 0
      · rw [if_neg (not_not.mpr hs)]
        refine .inr (.inr ⟨⟨hk, hc, hs⟩, _, rfl, ?_⟩)
        rw [Queue.memory_add, Multiset.cons_swap]
      · rw [if_pos hs]
        refine .inl ⟨⟨hk, hc, hs⟩, ?_⟩
        rw [release_eq_error]
        · rfl
        · intro hmem
          rcases Multiset.mem_cons.mp hmem with heq | hmem
          · have hsize : cqSize 0 = cqSize depth := (Resource.dma.inj heq).2
            unfold cqSize at hsize
            omega
          · rcases Multiset.mem_cons.mp hmem with heq | hmem
            · cases heq
            · exact hsized _ hmem
    · rw [if_pos hc, release_cons]
      exact .inr (.inl ⟨.inr hc, rfl⟩)
  · rw [if_pos hk]
    exact .inr (.inl ⟨.inl hk, rfl⟩)

theorem createQueue_cases (hadmin : HasAdmin d) (hsized : Sized d.held) {depth : ℕ} (hdepth : 0 < depth)
    (qid vector : ℕ) :
    (Short e qid ∧ createQueue e d qid depth vector = .error .outOfBounds) ∨
      (¬ Short e qid ∧ ¬ Creates e qid ∧ ∃ result adapter, result ≠ 0 ∧
        createQueue e d qid depth vector = .ok (.error result, { d with adapter })) ∨
      (Creates e qid ∧ ∃ (q : Queue) (adapter : Multiset AdapterQueue),
        q = ⟨qid, depth, vector, 4096 + 4 * (qid <<< (d.dbStride + 1))⟩ ∧
        createQueue e d qid depth vector =
          .ok (.ok q, { d with held := q.resources d.vector + d.held, adapter })) := by
  unfold createQueue
  rcases allocQueue_cases (e := e) hsized hdepth qid vector with ⟨hshort, h⟩ | ⟨hno, h⟩ | ⟨hgot, q, hq, h⟩
  · rw [h]
    exact .inl ⟨hshort, rfl⟩
  · have hnot : ¬ Short e qid := fun hshort => hno.elim (absurd hshort.1) (absurd hshort.2.1)
    have hno' : ¬ Creates e qid := fun hc => hno.elim (absurd hc.kzalloc) (absurd hc.cqes)
    rw [h]
    exact .inr (.inl ⟨hnot, hno', -12, d.adapter, by omega, rfl⟩)
  have hnot : ¬ Short e qid := fun hshort => hshort.2.2 hgot.2.2
  have hthere : ∀ adapter, HasAdmin { d with held := q.memory + d.held, adapter } := fun _ =>
    hadmin.mono rfl fun _ hmem => Multiset.mem_add.mpr (.inr hmem)
  have hfree : ∀ adapter, freeMemory { d with held := q.memory + d.held, adapter } q =
      .ok { d with adapter } := fun _ => freeMemory_ok rfl
  rw [h, ok_bind]
  dsimp only
  rcases adapterAlloc_ok (e := e) (hthere d.adapter) (.cq qid) with ⟨hcq, h⟩ | ⟨hcq, h⟩
  · refine .inr (.inl ⟨hnot, fun hc => hcq hc.cq, -5, d.adapter, by omega, ?_⟩)
    rw [h, ok_bind]
    dsimp only
    rw [if_pos (by omega), hfree, ok_bind]
  rw [h, ok_bind]
  dsimp only
  rw [if_neg (lt_irrefl 0)]
  rcases adapterAlloc_ok (e := e) (hthere (.cq qid ::ₘ d.adapter)) (.sq qid) with ⟨hsq, h⟩ | ⟨hsq, h⟩
  · obtain ⟨adapter, hdelete⟩ := adapterDelete_ok (e := e) (hthere (.cq qid ::ₘ d.adapter)) (.cq qid)
    refine .inr (.inl ⟨hnot, fun hc => hsq hc.sq, -5, adapter, by omega, ?_⟩)
    rw [h, ok_bind]
    dsimp only
    rw [if_pos (by omega), hdelete, ok_bind, hfree, ok_bind]
  rw [h, ok_bind]
  dsimp only
  rw [if_neg (lt_irrefl 0)]
  by_cases hirq : e.status (.requestIrq qid) < 0
  · obtain ⟨adapter, hdelete⟩ := adapterDelete_ok (e := e) (hthere (.sq qid ::ₘ .cq qid ::ₘ d.adapter)) (.sq qid)
    obtain ⟨adapter', hdelete'⟩ := adapterDelete_ok (e := e) (hthere adapter) (.cq qid)
    refine .inr (.inl ⟨hnot, fun hc => hc.irq hirq, e.status (.requestIrq qid), adapter', by omega, ?_⟩)
    rw [if_pos hirq, hdelete, ok_bind, hdelete', ok_bind, hfree, ok_bind]
  · rw [if_neg hirq]
    unfold queueRequestIrq
    rw [if_neg hirq]
    refine .inr (.inr ⟨⟨hgot.1, hgot.2.1, hgot.2.2, hcq, hsq, hirq⟩, q, .sq qid ::ₘ .cq qid ::ₘ d.adapter, hq, ?_⟩)
    rw [q.resources_add]

/-! ## All queues -/

/-- The queues as they are numbered, the admin queue first. -/
def queueAt (stride : ℕ) : ℕ → Queue
  | 0 => ⟨0, 64, 0, 4096⟩
  | i + 1 => ⟨i + 1, 1024, i, 4096 + 4 * ((i + 1) <<< (stride + 1))⟩

/-- What the first `n` queues hold. -/
def queuesHold (stride : ℕ) (vector : ℕ → ℕ) (n : ℕ) : Multiset Resource :=
  ((List.range n).map fun i => (queueAt stride i).resources vector).sum

theorem queuesHold_succ (stride : ℕ) (vector : ℕ → ℕ) (n : ℕ) :
    queuesHold stride vector (n + 1) = (queueAt stride n).resources vector + queuesHold stride vector n := by
  unfold queuesHold
  rw [List.range_succ, List.map_append, List.sum_append, List.map_singleton, List.sum_singleton, add_comm]

theorem queueAt_qid (stride n : ℕ) : (queueAt stride n).qid = n := by
  cases n <;> rfl

theorem admin_mem (stride : ℕ) (vector : ℕ → ℕ) (n : ℕ) : .nvmeq 0 ∈ queuesHold stride vector (n + 1) := by
  induction n with
  | zero => simp [queuesHold, queueAt, Queue.resources, Queue.memory]
  | succ n ih =>
    rw [queuesHold_succ]
    exact Multiset.mem_add.mpr (.inr ih)

/-- Between two calls: `n` queues are in use, and the BAR is mapped with a size. -/
structure Stage (e : Env) (size n : ℕ) (rest : Multiset Resource) (d : Dev) : Prop where
  pos : 0 < n
  count : d.queueCount = n
  queues : ∀ i < n, d.queues i = some (queueAt e.dbStride i)
  held : d.held = queuesHold e.dbStride d.vector n + rest
  sized : Sized d.held
  stride : d.dbStride = e.dbStride
  bar : d.barSize = size
  namespaces : d.namespaces = []

theorem Stage.hasAdmin {size n : ℕ} (h : Stage e size n rest d) : HasAdmin d := by
  obtain ⟨m, rfl⟩ := Nat.exists_eq_succ_of_ne_zero h.pos.ne'
  refine ⟨_, h.queues 0 h.pos, ?_⟩
  rw [h.held]
  exact Multiset.mem_add.mpr (.inl (admin_mem _ _ m))

theorem freeQueues_ok {stride : ℕ} (n : ℕ) (hqueues : ∀ i < n, d.queues i = some (queueAt stride i))
    (hheld : d.held = queuesHold stride d.vector n + rest) :
    ∃ adapter, freeQueues e n d = .ok { d with held := rest, adapter } := by
  induction n generalizing d with
  | zero =>
    have hrest : d.held = rest := by
      rw [hheld]
      exact zero_add rest
    exact ⟨d.adapter, by rw [freeQueues, ← hrest]⟩
  | succ n ih =>
    have hq := hqueues n (Nat.lt_succ_self n)
    rw [queuesHold_succ, add_assoc] at hheld
    have hadmin : (queueAt stride n).qid ≠ 0 →
        ∃ q₀, d.queues 0 = some q₀ ∧ .nvmeq q₀.qid ∈ queuesHold stride d.vector n + rest := by
      intro hne
      rw [queueAt_qid] at hne
      obtain ⟨m, rfl⟩ := Nat.exists_eq_succ_of_ne_zero hne
      exact ⟨_, hqueues 0 (Nat.zero_lt_succ _), Multiset.mem_add.mpr (.inl (admin_mem _ _ m))⟩
    obtain ⟨adapter, hfree⟩ := freeQueue_ok (e := e) (by rw [queueAt_qid]; exact hq) hheld hadmin
    rw [queueAt_qid] at hfree
    obtain ⟨adapter', hrest⟩ := ih (d := { d with held := queuesHold stride d.vector n + rest, adapter })
      (fun i hi => hqueues i (Nat.lt_succ_of_lt hi)) rfl
    refine ⟨adapter', ?_⟩
    rw [freeQueues, hfree, ok_bind, hrest]

/-- The first queue from `i` on that cannot be created lacks the memory of its submission queue. -/
def ShortFrom (e : Env) : ℕ → ℕ → Prop
  | 0, _ => False
  | n + 1, i => Short e (i + 1) ∨ Creates e (i + 1) ∧ ShortFrom e n (i + 1)

theorem Sized.resources {held : Multiset Resource} (h : Sized held) (q : Queue) (hdepth : 0 < q.depth)
    (vector : ℕ → ℕ) : Sized (q.resources vector + held) := by
  intro buffer hmem
  rw [q.resources_add, q.memory_add] at hmem
  simp only [Multiset.mem_cons, Resource.dma.injEq, reduceCtorEq, cqSize, sqSize, false_or] at hmem
  rcases hmem with hmem | hmem | hmem
  · omega
  · omega
  · exact h buffer hmem

theorem createQueues_cases {size : ℕ} (n i : ℕ) (h : Stage e size (i + 1) rest d) :
    (ShortFrom e n i ∧ createQueues e n i d = .error .outOfBounds) ∨
      (¬ ShortFrom e n i ∧ ∃ res n' d', createQueues e n i d = .ok (res, d') ∧ Stage e size n' rest d' ∧
        (res = 0 → n' = i + n + 1)) := by
  induction n generalizing i d with
  | zero => exact .inr ⟨id, 0, i + 1, d, rfl, h, fun _ => rfl⟩
  | succ n ih =>
    unfold createQueues
    rcases createQueue_cases (e := e) h.hasAdmin h.sized (by omega : 0 < 1024) (i + 1) i with
      ⟨hshort, hc⟩ | ⟨hnot, hno, result, adapter, hne, hc⟩ | ⟨hyes, q, adapter, hq, hc⟩
    · rw [hc]
      exact .inl ⟨.inl hshort, rfl⟩
    · rw [hc]
      refine .inr ⟨fun hs => hs.elim hnot fun hs => hno hs.1, result, i + 1, _, rfl, ?_, fun hz => absurd hz hne⟩
      refine ⟨h.pos, h.count, fun j hj => ?_, h.held, h.sized, h.stride, h.bar, h.namespaces⟩
      dsimp only
      rw [Function.update_of_ne hj.ne]
      exact h.queues j hj
    · rw [hc, ok_bind]
      have hqueue : q = queueAt e.dbStride (i + 1) := by
        rw [hq, h.stride]
        rfl
      have hstage : Stage e size (i + 1 + 1) rest { d with
          held := q.resources d.vector + d.held, adapter, queueCount := d.queueCount + 1,
          queues := Function.update d.queues (i + 1) (some q) } := by
        refine ⟨Nat.zero_lt_succ _, congrArg (· + 1) h.count, fun j hj => ?_, ?_, ?_, h.stride, h.bar,
          h.namespaces⟩
        · dsimp only
          rcases Nat.lt_succ_iff_lt_or_eq.mp hj with hlt | rfl
          · rw [Function.update_of_ne hlt.ne]
            exact h.queues j hlt
          · rw [Function.update_self, hqueue]
        · dsimp only
          rw [queuesHold_succ, ← hqueue, add_assoc, ← h.held]
        · exact h.sized.resources q (by rw [hq]; exact Nat.zero_lt_succ _) d.vector
      rcases ih (i + 1) hstage with ⟨hshort, hrun⟩ | ⟨hnot, res, n', d', hrun, hstage', hcount⟩
      · exact .inl ⟨.inr ⟨hyes, hshort⟩, hrun⟩
      · refine .inr ⟨fun hs => hs.elim hyes.not_short fun hs => hnot hs.2, res, n', d', hrun, hstage', fun hz => ?_⟩
        rw [hcount hz]
        omega

/-! ## The vectors and the doorbells -/

/-- The calls after whose failure `nvme_probe` and `nvme_setup_io_queues` go on all the same. -/
def unchecked : List Call :=
  [.kzallocDev, .kcallocEntry, .kcallocQueues, .enableDevice, .requestRegions, .pagePool, .smallPool, .ioremap,
    .ioremapAgain, .kzallocQueue 0, .allocCqes 0, .allocSqCmds 0, .ready, .requestIrq 0, .requestAdminIrqAgain,
    .allocIdentify]

/-- These calls succeed, and `pci_enable_msix` offers fewer vectors than it was asked for. -/
structure Basics (e : Env) : Prop where
  works : ∀ call ∈ unchecked, e.status call = 0
  msix : ∀ n, 0 < n → e.msix n < n
  online : 0 < e.onlineCpus
  possible : e.onlineCpus ≤ e.possibleCpus

/-- How many queues `nvme_setup_io_queues` wants. -/
def asked (e : Env) : ℕ := min (min (e.queueCount % 65536) (e.queueCount / 65536) + 1) e.onlineCpus

/-- For how many of them there are vectors. -/
def nrIoQueues (e : Env) : ℕ :=
  match enableMsix e (asked e + 1) (asked e) with
  | .ok (nr, _) => nr
  | .error _ => 0

theorem asked_pos (h : Basics e) : 0 < asked e := lt_min (Nat.zero_lt_succ _) h.online

theorem enableMsix_ok (h : Basics e) (fuel nr : ℕ) (hpos : 0 < nr) (hfuel : nr < fuel) :
    ∃ nr' msix, enableMsix e fuel nr = .ok (nr', msix) ∧ 0 < nr' ∧ nr' ≤ nr := by
  induction fuel generalizing nr with
  | zero => omega
  | succ fuel ih =>
    unfold enableMsix
    have hlt := h.msix nr hpos
    dsimp only
    split
    · exact ⟨nr, true, rfl, hpos, le_rfl⟩
    · split
      · obtain ⟨nr', msix, hrun, hpos', hle⟩ := ih (e.msix nr).toNat (by omega) (by omega)
        exact ⟨nr', msix, hrun, hpos', by omega⟩
      · exact ⟨1, false, rfl, Nat.one_pos, hpos⟩

theorem nrIoQueues_eq (h : Basics e) : ∃ msix,
    enableMsix e (asked e + 1) (asked e) = .ok (nrIoQueues e, msix) ∧ 0 < nrIoQueues e ∧
      nrIoQueues e ≤ asked e := by
  obtain ⟨nr, msix, hrun, hpos, hle⟩ := enableMsix_ok h (asked e + 1) (asked e) (asked_pos h) (Nat.lt_succ_self _)
  have hnr : nrIoQueues e = nr := by
    unfold nrIoQueues
    rw [hrun]
  rw [hnr]
  exact ⟨msix, hrun, hpos, hle⟩

theorem mapDoorbells_ok (h : Basics e) (hq : d.queues 0 = some q) (hdb : q.db = 4096)
    (hbar : d.held = .bar ::ₘ rest) (hsize : d.barSize = 8192) (nr : ℕ) :
    ∃ size, 4096 + ((nr + 1) <<< (d.dbStride + 3)) ≤ size ∧
      mapDoorbells e d q nr = .ok { d with barSize := size } := by
  unfold mapDoorbells
  dsimp only
  split
  · refine ⟨_, le_rfl, ?_⟩
    have hsame : Function.update d.queues 0 (some { q with db := 4096 }) = d.queues := by
      rw [← hdb, ← hq]
      exact Function.update_eq_self 0 d.queues
    rw [hbar, release_cons, ok_bind, if_neg (not_not.mpr (h.works _ (by decide))), hsame, ← hbar]
  · refine ⟨8192, by omega, ?_⟩
    rw [← hsize]

/-! ## The queues of the processors -/

theorem rounddownPowOfTwo_le {n : ℕ} (h : 0 < n) : 0 < rounddownPowOfTwo n ∧ rounddownPowOfTwo n ≤ n := by
  unfold rounddownPowOfTwo
  rw [Nat.one_shiftLeft]
  exact ⟨Nat.two_pow_pos _, Nat.pow_log_le_self 2 h.ne'⟩

/-- The first `m` processors have queues, each of the first `nr` its own. -/
def Shared (stride nr m : ℕ) (queues : ℕ → Option Queue) : Prop :=
  queues 0 = some (queueAt stride 0) ∧
    ∀ cpu < m, ∃ i < nr, queues (cpu + 1) = some (queueAt stride (i + 1)) ∧ (cpu < nr → i = cpu)

theorem Shared.share {stride nr m : ℕ} {queues : ℕ → Option Queue} (h : Shared stride nr m queues)
    (hpos : 0 < nr) (hm : nr ≤ m) : Shared stride nr (m + 1) (shareQueue (nr + 1) queues m) := by
  unfold shareQueue
  rw [Nat.add_sub_cancel]
  obtain ⟨hround, hle⟩ := rounddownPowOfTwo_le hpos
  have htarget : m % rounddownPowOfTwo nr < nr := lt_of_lt_of_le (Nat.mod_lt m hround) hle
  refine ⟨?_, fun cpu hcpu => ?_⟩
  · dsimp only
    rw [Function.update_of_ne (Nat.succ_ne_zero m).symm]
    exact h.1
  · dsimp only
    rcases Nat.lt_succ_iff_lt_or_eq.mp hcpu with hlt | rfl
    · rw [Function.update_of_ne (by omega)]
      exact h.2 cpu hlt
    · obtain ⟨i, hi, hqueue, -⟩ := h.2 (cpu % rounddownPowOfTwo nr) (by omega)
      rw [Function.update_self]
      exact ⟨i, hi, hqueue, fun hcpu => absurd hcpu (Nat.not_lt.mpr hm)⟩

theorem Shared.shareAll {stride nr m : ℕ} {queues : ℕ → Option Queue} (h : Shared stride nr m queues)
    (hpos : 0 < nr) (hm : nr ≤ m) (k : ℕ) :
    Shared stride nr (m + k) ((List.range' m k).foldl (shareQueue (nr + 1)) queues) := by
  induction k with
  | zero => exact h
  | succ k ih =>
    rw [List.range'_1_concat, List.foldl_append]
    exact ih.share hpos (by omega)

/-- `nvme_setup_io_queues` meets a submission queue without memory. -/
def SetupShort (e : Env) : Prop := e.status .setFeatures = 0 ∧ ShortFrom e (nrIoQueues e) 0

theorem setQueueCount_cases (h : HasAdmin d) :
    (e.status .setFeatures ≠ 0 ∧ setQueueCount e d = .ok (-5)) ∨
      (e.status .setFeatures = 0 ∧
        setQueueCount e d = .ok (min (e.queueCount % 65536) (e.queueCount / 65536) + 1 : ℕ)) := by
  unfold setQueueCount
  rw [h.adminCmd, ok_bind]
  by_cases hstatus : e.status .setFeatures = 0
  · exact .inr ⟨hstatus, if_neg (not_not.mpr hstatus)⟩
  · exact .inl ⟨hstatus, if_pos hstatus⟩

theorem min_of_ints (m n : ℕ) : (if (m : ℤ) < n then (m : ℤ).toNat else n) = min m n := by
  split <;> omega

theorem queuesHold_one (stride : ℕ) (vector : ℕ → ℕ) (rest : Multiset Resource) :
    queuesHold stride vector 1 + rest = .irq (vector 0) 0 ::ₘ ((queueAt stride 0).memory + rest) := by
  have hnone : queuesHold stride vector 0 = 0 := rfl
  rw [queuesHold_succ, hnone, add_zero, Queue.resources_add]
  rfl

theorem setupIoQueues_cases (h : Basics e) (hs : Stage e 8192 1 (.bar ::ₘ rest) d) :
    (SetupShort e ∧ setupIoQueues e d = .error .outOfBounds) ∨
      (¬ SetupShort e ∧ ∃ res size n d', setupIoQueues e d = .ok (res, d') ∧
        Stage e size n (.bar ::ₘ rest) d' ∧ (res = 0 → n = nrIoQueues e + 1 ∧
          4096 + (n <<< (e.dbStride + 3)) ≤ size ∧ Shared e.dbStride (nrIoQueues e) e.possibleCpus d'.queues)) := by
  unfold setupIoQueues
  rcases setQueueCount_cases (e := e) hs.hasAdmin with ⟨hfail, hcount⟩ | ⟨hset, hcount⟩
  · rw [hcount, ok_bind, if_pos (by omega)]
    exact .inr ⟨fun hshort => hfail hshort.1, -5, 8192, 1, d, rfl, hs, fun hz => absurd hz (by omega)⟩
  have hq := hs.queues 0 Nat.one_pos
  obtain ⟨msix, hmsix, hpos, hle⟩ := nrIoQueues_eq h
  have hheld : d.held = .irq (d.vector 0) 0 ::ₘ ((queueAt e.dbStride 0).memory + .bar ::ₘ rest) := by
    rw [hs.held, queuesHold_one]
  obtain ⟨size, hsize, hmap⟩ := mapDoorbells_ok
    (d := { d with held := (queueAt e.dbStride 0).memory + .bar ::ₘ rest }) h hq rfl (Multiset.add_cons _ _ _)
    hs.bar (asked e)
  replace hsize : 4096 + ((asked e + 1) <<< (e.dbStride + 3)) ≤ size := by
    rw [← hs.stride]
    exact hsize
  rw [hcount, ok_bind, if_neg (by omega), hq]
  dsimp only
  rw [min_of_ints, hheld, show (queueAt e.dbStride 0).qid = 0 from rfl, release_cons, ok_bind]
  have hasked : min (min (e.queueCount % 65536) (e.queueCount / 65536) + 1) e.onlineCpus = asked e := rfl
  rw [hasked, hmap, ok_bind, hmsix, ok_bind]
  dsimp only
  unfold queueRequestIrq
  rw [if_neg (by rw [h.works _ (by decide)]; omega)]
  generalize hvector : (if msix = true then fun i => if i < nrIoQueues e then e.msixVector i else d.vector i
    else d.vector) = vector
  have hstage : Stage e size 1 (.bar ::ₘ rest) { d with
      held := .irq (vector 0) 0 ::ₘ ((queueAt e.dbStride 0).memory + .bar ::ₘ rest),
      barSize := size, vector, msix } := by
    refine ⟨Nat.one_pos, hs.count, hs.queues, (queuesHold_one _ _ _).symm, fun buffer hmem => ?_, hs.stride, rfl,
      hs.namespaces⟩
    refine hs.sized buffer ?_
    rw [hheld]
    rcases Multiset.mem_cons.mp hmem with heq | hmem
    · cases heq
    · exact Multiset.mem_cons_of_mem hmem
  have hwhole : (nrIoQueues e + 1) <<< (e.dbStride + 3) ≤ (asked e + 1) <<< (e.dbStride + 3) := by
    rw [Nat.shiftLeft_eq, Nat.shiftLeft_eq]
    exact Nat.mul_le_mul_right _ (Nat.succ_le_succ hle)
  rcases createQueues_cases (nrIoQueues e) 0 hstage with ⟨hshort, hrun⟩ | ⟨hnot, res, n, d', hrun, hstage', hn⟩
  · refine .inl ⟨⟨hset, hshort⟩, (congrArg (· >>= _) hrun).trans rfl⟩
  by_cases hres : res = 0
  · have hn' : n = nrIoQueues e + 1 := by
      rw [hn hres, Nat.zero_add]
    -- each queue is that of its own processor, and the others are shared
    have hown : Shared e.dbStride (nrIoQueues e) (nrIoQueues e) d'.queues :=
      ⟨hstage'.queues 0 hstage'.pos, fun cpu hcpu =>
        ⟨cpu, hcpu, hstage'.queues (cpu + 1) (by omega), fun _ => rfl⟩⟩
    have hshared := hown.shareAll hpos le_rfl (e.possibleCpus - nrIoQueues e)
    have hcpus : nrIoQueues e + (e.possibleCpus - nrIoQueues e) = e.possibleCpus :=
      Nat.add_sub_cancel' (hle.trans ((min_le_right _ _).trans h.possible))
    rw [hcpus, ← hn', ← hstage'.count] at hshared
    generalize hqueues : (List.range' _ _).foldl (shareQueue d'.queueCount) d'.queues = queues at hshared
    refine .inr ⟨fun hshort => hnot hshort.2, 0, size, n, { d' with queues }, ?_, ?_, fun _ => ⟨hn', ?_, hshared⟩⟩
    · refine (congrArg (· >>= _) hrun).trans ?_
      rw [ok_bind, hres, ← hqueues]
      rfl
    · refine ⟨hstage'.pos, hstage'.count, fun i hi => ?_, hstage'.held, hstage'.sized, hstage'.stride, hstage'.bar,
        hstage'.namespaces⟩
      cases i with
      | zero => exact hshared.1
      | succ i =>
        obtain ⟨j, -, hqueue, hj⟩ := hshared.2 i (by omega)
        rw [hj (by omega)] at hqueue
        exact hqueue
    · rw [hn']
      exact (Nat.add_le_add_left hwhole _).trans hsize
  · refine .inr ⟨fun hshort => hnot hshort.2, res, size, n, d', ?_, hstage', fun hz => absurd hz hres⟩
    refine (congrArg (· >>= _) hrun).trans ?_
    rw [ok_bind]
    exact if_pos hres

end CodingForFun.Nvme.Controller
