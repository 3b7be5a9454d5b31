import CodingForFun.Lib.Resources
import Mathlib.Data.List.Range
import Mathlib.Data.Nat.Log

/-!
# Adding and removing a controller

`nvme_probe` and `nvme_remove` with what they call: the queue pairs with their memory and interrupts, the
vectors, the doorbells, and the namespaces. `Env` says how the calls of the kernel and the commands to the
controller end, so that a result about every `Env` is one about every way in which adding a controller can fail.
-/

namespace CodingForFun.Nvme.Controller

open Lib

/-- The memory that the device reads or writes. -/
inductive Buffer
  | cqes (qid : ℕ)
  | sqCmds (qid : ℕ)
  | identify
  deriving DecidableEq, Repr

/-- What the driver gets from the kernel. -/
inductive Resource
  | dev
  | entry
  | queues
  | enabled
  | regions
  | pagePool
  | smallPool
  | bar
  | listed
  | nvmeq (qid : ℕ)
  | dma (buffer : Buffer) (size : ℕ)
  | irq (vector qid : ℕ)
  | ns (nsid : ℕ)
  | requestQueue (nsid : ℕ)
  | disk (nsid : ℕ)
  | added (nsid : ℕ)
  | index (i : ℤ)
  deriving DecidableEq, Repr

/-- The queues that the controller was told of. -/
inductive AdapterQueue
  | cq (qid : ℕ)
  | sq (qid : ℕ)
  deriving DecidableEq, Repr

/-- The calls and the admin commands that can fail. -/
inductive Call
  | kzallocDev
  | kcallocEntry
  | kcallocQueues
  | enableDevice
  | requestRegions
  | pagePool
  | smallPool
  | ioremap
  | ioremapAgain
  | kzallocQueue (qid : ℕ)
  | allocCqes (qid : ℕ)
  | allocSqCmds (qid : ℕ)
  | ready
  | requestIrq (qid : ℕ)
  | requestAdminIrqAgain
  | setFeatures
  | create (queue : AdapterQueue)
  | delete (queue : AdapterQueue)
  | allocIdentify
  | identifyController
  | identify (nsid : ℕ)
  | getFeatures (nsid : ℕ)
  | kzallocNs (nsid : ℕ)
  | allocRequestQueue (nsid : ℕ)
  | allocDisk (nsid : ℕ)
  deriving DecidableEq, Repr

/-- How the calls end, 0 being success, and what they tell: the processors, the answer to `set_features`, the
results of `pci_enable_msix` for a number of vectors, the vectors themselves, the capabilities and the
namespaces. -/
structure Env where
  status : Call → ℤ
  onlineCpus : ℕ
  possibleCpus : ℕ
  queueCount : ℕ
  msix : ℕ → ℤ
  irq : ℕ
  msixVector : ℕ → ℕ
  dbStride : ℕ
  nn : ℕ
  ncap : ℕ → ℕ
  hidden : ℕ → Bool
  index : ℕ → Option ℕ

/-- `struct nvme_queue`; `db` is the place of `q_db` in the BAR, in bytes. -/
structure Queue where
  qid : ℕ
  depth : ℕ
  cqVector : ℕ
  db : ℕ
  deriving DecidableEq, Repr

/-- `struct nvme_ns` -/
structure Namespace where
  nsid : ℕ
  firstMinor : ℤ
  deriving DecidableEq, Repr

/-- `struct nvme_dev`, what it holds, and the queues of the controller. -/
structure Dev where
  held : Multiset Resource
  adapter : Multiset AdapterQueue
  queues : ℕ → Option Queue
  queueCount : ℕ
  vector : ℕ → ℕ
  msix : Bool
  dbStride : ℕ
  barSize : ℕ
  namespaces : List Namespace

def cqSize (depth : ℕ) : ℕ := depth * 16

def sqSize (depth : ℕ) : ℕ := depth * 64

/-- `nvme_alloc_queue` -/
def allocQueue (e : Env) (d : Dev) (qid depth vector : ℕ) : Except Fault (Option Queue × Dev) :=
  if e.status (.kzallocQueue qid) ≠ 0 then .ok (none, d)
  else if e.status (.allocCqes qid) ≠ 0 then do
    let held ← release (.nvmeq qid) (.nvmeq qid ::ₘ d.held)
    .ok (none, { d with held })
  else if e.status (.allocSqCmds qid) ≠ 0 then do
    -- free_cqdma, where q_depth is still 0
    let held ← release (.dma (.cqes qid) (cqSize 0)) (.dma (.cqes qid) (cqSize depth) ::ₘ .nvmeq qid ::ₘ d.held)
    let held ← release (.nvmeq qid) held
    .ok (none, { d with held })
  else
    let held := .dma (.sqCmds qid) (sqSize depth) ::ₘ .dma (.cqes qid) (cqSize depth) ::ₘ .nvmeq qid ::ₘ d.held
    .ok (some ⟨qid, depth, vector, 4096 + 4 * (qid <<< (d.dbStride + 1))⟩, { d with held })

/-- `dma_free_coherent` for both rings and `kfree` -/
def freeMemory (d : Dev) (q : Queue) : Except Fault Dev := do
  let held ← release (.dma (.cqes q.qid) (cqSize q.depth)) d.held
  let held ← release (.dma (.sqCmds q.qid) (sqSize q.depth)) held
  let held ← release (.nvmeq q.qid) held
  .ok { d with held }

/-- `nvme_submit_admin_cmd` reads `dev->queues[0]`. -/
def adminCmd (d : Dev) : Except Fault Unit :=
  match d.queues 0 with
  | none => .error .outOfBounds
  | some q => if .nvmeq q.qid ∈ d.held then .ok () else .error .outOfBounds

/-- `adapter_alloc_cq` and `adapter_alloc_sq` -/
def adapterAlloc (e : Env) (d : Dev) (queue : AdapterQueue) : Except Fault (ℤ × Dev) := do
  adminCmd d
  if e.status (.create queue) ≠ 0 then .ok (-5, d) else .ok (0, { d with adapter := queue ::ₘ d.adapter })

/-- `adapter_delete_cq` and `adapter_delete_sq` -/
def adapterDelete (e : Env) (d : Dev) (queue : AdapterQueue) : Except Fault Dev := do
  adminCmd d
  if e.status (.delete queue) ≠ 0 then .ok d else .ok { d with adapter := d.adapter.erase queue }

/-- `queue_request_irq` -/
def queueRequestIrq (d : Dev) (q : Queue) (result : ℤ) : Dev :=
  if result < 0 then d else { d with held := .irq (d.vector q.cqVector) q.qid ::ₘ d.held }

/-- `nvme_free_queue` -/
def freeQueue (e : Env) (d : Dev) (qid : ℕ) : Except Fault Dev :=
  match d.queues qid with
  | none => .error .outOfBounds
  | some q => do
    let held ← release (.irq (d.vector q.cqVector) q.qid) d.held
    let d := { d with held }
    -- Don't tell the adapter to delete the admin queue
    if qid ≠ 0 then
      let d ← adapterDelete e d (.sq qid)
      let d ← adapterDelete e d (.cq qid)
      freeMemory d q
    else
      freeMemory d q

/-- `nvme_create_queue`; the error is that of `ERR_PTR`. -/
def createQueue (e : Env) (d : Dev) (qid cqSize vector : ℕ) : Except Fault (Except ℤ Queue × Dev) := do
  match ← allocQueue e d qid cqSize vector with
  | (none, d) => .ok (.error (-12), d)
  | (some q, d) =>
    let (result, d) ← adapterAlloc e d (.cq qid)
    if result < 0 then
      let d ← freeMemory d q
      .ok (.error result, d)
    else
      let (result, d) ← adapterAlloc e d (.sq qid)
      if result < 0 then
        let d ← adapterDelete e d (.cq qid)
        let d ← freeMemory d q
        .ok (.error result, d)
      else
        let result := e.status (.requestIrq qid)
        if result < 0 then
          let d ← adapterDelete e d (.sq qid)
          let d ← adapterDelete e d (.cq qid)
          let d ← freeMemory d q
          .ok (.error result, d)
        else
          .ok (.ok q, queueRequestIrq d q result)

/-- `nvme_configure_admin_queue` -/
def configureAdminQueue (e : Env) (d : Dev) : Except Fault (ℤ × Dev) := do
  match ← allocQueue e d 0 64 0 with
  | (none, d) => .ok (-12, d)
  | (some q, d) =>
    let d := { d with dbStride := e.dbStride }
    -- NVME_CSTS_RDY
    if e.status .ready ≠ 0 then .ok (e.status .ready, d)
    else
      let result := e.status (.requestIrq 0)
      let d := queueRequestIrq d q result
      .ok (result, { d with queues := Function.update d.queues 0 (some q) })

/-- `set_queue_count` -/
def setQueueCount (e : Env) (d : Dev) : Except Fault ℤ := do
  adminCmd d
  if e.status .setFeatures ≠ 0 then .ok (-5)
  else .ok (min (e.queueCount % 65536) (e.queueCount / 65536) + 1 : ℕ)

/-- The loop around `pci_enable_msix`, cut off after `fuel` calls. -/
def enableMsix (e : Env) : ℕ → ℕ → Except Fault (ℕ × Bool)
  | 0, _ => .error .unbounded
  | fuel + 1, nrIoQueues =>
    let result := e.msix nrIoQueues
    if result = 0 then .ok (nrIoQueues, true)
    else if 0 < result then enableMsix e fuel result.toNat
    else .ok (1, false)

/-- The loop around `nvme_create_queue`, for the queues from `i` on. -/
def createQueues (e : Env) : ℕ → ℕ → Dev → Except Fault (ℤ × Dev)
  | 0, _, d => .ok (0, d)
  | n + 1, i, d => do
    match ← createQueue e d (i + 1) 1024 i with
    | (.error result, d) => .ok (result, { d with queues := Function.update d.queues (i + 1) none })
    | (.ok q, d) =>
      createQueues e n (i + 1)
        { d with queues := Function.update d.queues (i + 1) (some q), queueCount := d.queueCount + 1 }

/-- `rounddown_pow_of_two` -/
def rounddownPowOfTwo (n : ℕ) : ℕ := 1 <<< Nat.log 2 n

/-- The processors that have no queue of their own share one. -/
def shareQueue (queueCount : ℕ) (queues : ℕ → Option Queue) (i : ℕ) : ℕ → Option Queue :=
  let target := i % rounddownPowOfTwo (queueCount - 1)
  Function.update queues (i + 1) (queues (target + 1))

/-- The first part of `nvme_setup_io_queues`: the BAR is large enough for the doorbells. -/
def mapDoorbells (e : Env) (d : Dev) (q : Queue) (nrIoQueues : ℕ) : Except Fault Dev :=
  let dbBarSize := 4096 + ((nrIoQueues + 1) <<< (d.dbStride + 3))
  if 8192 < dbBarSize then do
    let held ← release .bar d.held
    if e.status .ioremapAgain ≠ 0 then .error .outOfBounds
    else .ok { d with
      held := .bar ::ₘ held, barSize := dbBarSize,
      queues := Function.update d.queues 0 (some { q with db := 4096 }) }
  else .ok d

/-- `nvme_setup_io_queues` -/
def setupIoQueues (e : Env) (d : Dev) : Except Fault (ℤ × Dev) := do
  let result ← setQueueCount e d
  if result < 0 then .ok (result, d)
  else
    let nrIoQueues := if result < e.onlineCpus then result.toNat else e.onlineCpus
    match d.queues 0 with
    | none => .error .outOfBounds
    | some q =>
      -- Deregister the admin queue's interrupt
      let held ← release (.irq (d.vector 0) q.qid) d.held
      let d ← mapDoorbells e { d with held } q nrIoQueues
      let (nrIoQueues, msix) ← enableMsix e (nrIoQueues + 1) nrIoQueues
      let vector := if msix then fun i => if i < nrIoQueues then e.msixVector i else d.vector i else d.vector
      -- XXX: handle failure here
      let d := queueRequestIrq { d with vector, msix } q (e.status .requestAdminIrqAgain)
      let (result, d) ← createQueues e nrIoQueues 0 d
      if result ≠ 0 then .ok (result, d)
      else .ok (0, { d with queues :=
        (List.range' nrIoQueues (e.possibleCpus - nrIoQueues)).foldl (shareQueue d.queueCount) d.queues })

/-- `nvme_alloc_ns` -/
def allocNs (e : Env) (nsid : ℕ) (held : Multiset Resource) :
    Except Fault (Option Namespace × Multiset Resource) :=
  if e.hidden nsid then .ok (none, held)
  else if e.status (.kzallocNs nsid) ≠ 0 then .ok (none, held)
  else if e.status (.allocRequestQueue nsid) ≠ 0 then do
    let held ← release (.ns nsid) (.ns nsid ::ₘ held)
    .ok (none, held)
  else if e.status (.allocDisk nsid) ≠ 0 then do
    let held ← release (.requestQueue nsid) (.requestQueue nsid ::ₘ .ns nsid ::ₘ held)
    let held ← release (.ns nsid) held
    .ok (none, held)
  else
    let held := .disk nsid ::ₘ .requestQueue nsid ::ₘ .ns nsid ::ₘ held
    -- nvme_get_ns_idx
    match e.index nsid with
    | none => .ok (some ⟨nsid, 64 * (-1)⟩, held)
    | some i => .ok (some ⟨nsid, 64 * i⟩, .index i ::ₘ held)

/-- `nvme_ns_free` -/
def nsFree (held : Multiset Resource) (ns : Namespace) : Except Fault (Multiset Resource) := do
  let index := ns.firstMinor.tdiv 64
  let held ← release (.disk ns.nsid) held
  let held ← release (.index index) held
  let held ← release (.requestQueue ns.nsid) held
  release (.ns ns.nsid) held

/-- One namespace of the loop of `nvme_dev_add`, with the value of `res` so far. -/
def addNamespace (e : Env) (s : ℤ × Dev) (i : ℕ) : Except Fault (ℤ × Dev) := do
  adminCmd s.2
  let res := e.status (.identify i)
  if res ≠ 0 then .ok (res, s.2)
  else if e.ncap i = 0 then .ok (res, s.2)
  else
    adminCmd s.2
    let res := e.status (.getFeatures i)
    if res ≠ 0 then .ok (res, s.2)
    else
      match ← allocNs e i s.2.held with
      | (none, held) => .ok (res, { s.2 with held })
      | (some ns, held) => .ok (res, { s.2 with held, namespaces := s.2.namespaces ++ [ns] })

/-- `add_disk` for all namespaces -/
def addDisks (d : Dev) : Dev :=
  { d with held := d.namespaces.foldl (fun held ns => .added ns.nsid ::ₘ held) d.held }

/-- `nvme_dev_add` -/
def devAdd (e : Env) (d : Dev) : Except Fault (ℤ × Dev) := do
  let (res, d) ← setupIoQueues e d
  if res ≠ 0 then .ok (res, d)
  else if e.status .allocIdentify ≠ 0 then .error .outOfBounds
  else
    let d := { d with held := .dma .identify 8192 ::ₘ d.held }
    adminCmd d
    if e.status .identifyController ≠ 0 then
      -- out_free
      let held ← d.namespaces.foldlM nsFree d.held
      let held ← release (.dma .identify 8192) held
      .ok (-5, { d with held, namespaces := [] })
    else
      let (res, d) ← (List.range' 1 e.nn).foldlM (addNamespace e) (0, d)
      let d := addDisks d
      let held ← release (.dma .identify 8192) d.held
      .ok (res, { d with held })

/-- `nvme_free_queues`, for the queues below `n` -/
def freeQueues (e : Env) : ℕ → Dev → Except Fault Dev
  | 0, d => .ok d
  | n + 1, d => do
    let d ← freeQueue e d n
    freeQueues e n d

/-- The end of `nvme_probe` and of `nvme_remove`. -/
def disable (d : Dev) : Except Fault Dev := do
  let held ← releaseAll [.bar, .pagePool, .smallPool, .enabled, .regions, .queues, .entry, .dev] d.held
  .ok { d with held, msix := false }

/-- `del_gendisk` and `nvme_ns_free` -/
def removeNs (held : Multiset Resource) (ns : Namespace) : Except Fault (Multiset Resource) := do
  let held ← release (.added ns.nsid) held
  nsFree held ns

/-- `nvme_dev_remove` -/
def devRemove (e : Env) (d : Dev) : Except Fault Dev := do
  let held ← release .listed d.held
  let held ← d.namespaces.foldlM removeNs held
  freeQueues e d.queueCount { d with held, namespaces := [] }

/-- `nvme_remove` -/
def remove (e : Env) (d : Dev) : Except Fault Dev := do
  let d ← devRemove e d
  disable d

/-- `nvme_setup_prp_pools` -/
def setupPrpPools (e : Env) (held : Multiset Resource) : Except Fault (Multiset Resource) :=
  if e.status .pagePool ≠ 0 then .ok held
  else if e.status .smallPool ≠ 0 then release .pagePool (.pagePool ::ₘ held)
  else .ok (.smallPool ::ₘ .pagePool ::ₘ held)

/-- The start of `nvme_probe`, which looks at no result. -/
def start (e : Env) : Except Fault Dev := do
  if e.status .kzallocDev ≠ 0 ∨ e.status .kcallocEntry ≠ 0 ∨ e.status .kcallocQueues ≠ 0 then .error .outOfBounds
  else
    let held : Multiset Resource := {.dev, .entry, .queues}
    let held := if e.status .enableDevice ≠ 0 then held else .enabled ::ₘ held
    let held := if e.status .requestRegions ≠ 0 then held else .regions ::ₘ held
    let held ← setupPrpPools e held
    if e.status .ioremap ≠ 0 then .error .outOfBounds
    else .ok {
      held := .bar ::ₘ held, adapter := 0, queues := fun _ => none, queueCount := 0, vector := fun i =>
        if i = 0 then e.irq else 0, msix := false, dbStride := 0, barSize := 8192, namespaces := [] }

/-- `nvme_probe` -/
def probe (e : Env) : Except Fault (ℤ × Dev) := do
  let d ← start e
  let (_, d) ← configureAdminQueue e d
  let d := { d with queueCount := d.queueCount + 1, held := .listed ::ₘ d.held }
  let (result, d) ← devAdd e d
  if result ≠ 0 then
    -- delete
    let held ← release .listed d.held
    let d ← freeQueues e d.queueCount { d with held }
    let d ← disable d
    .ok (result, d)
  else .ok (0, d)

end CodingForFun.Nvme.Controller
