import CodingForFun.Lib.Cells
import CodingForFun.Lib.RefCount
import Mathlib.Data.Multiset.Bind

/-!
# `mmap2_6ksupport.c`

The driver of `src/kernel/mmap/mmap2_6ksupport.c`, in the version for 2.6 (the older one differs in how
`mmap_fault` returns the page only). Each open file has a page of its own, into which all addresses of all
mappings of the file lead. Around the driver is what the kernel does: descriptors and mappings hold references
to a file, the last of which calls `release`; page table entries hold references to a page; a mapping is opened
when it is copied or split, and closed after its entries are gone. All mappings are shared ones (a store into a
private mapping goes to a copy), and a callback ends before the next one begins.
-/

namespace CodingForFun.Mmap

open Lib

/-- `PAGE_SIZE` -/
def pageSize : ℕ := 4096

/-- `struct mmap_info`. `found` is history: what `kmalloc` left in `reference`. -/
structure MmapInfo where
  data : Option ℕ
  reference : BitVec 32
  found : BitVec 32

/-- `struct vm_area_struct`, with its page table entries: numbers of pages of the address space, and the pages
they lead to. -/
structure Vma where
  vmStart : ℕ
  vmEnd : ℕ
  vmFile : ℕ
  vmPrivateData : Option ℕ
  ptes : List (ℕ × ℕ)
  deriving DecidableEq

/-- The pages that the entries refer to. -/
def Vma.pages (v : Vma) : List ℕ := v.ptes.map Prod.snd

/-- The page that an address leads to. -/
def Vma.pageAt (v : Vma) (address : ℕ) : Option ℕ := v.ptes.lookup (address / pageSize)

/-- The memory with the counts of its pages, the allocated `mmap_info`, the files with their counts and their
`private_data`, the descriptors that are open and the mappings of all processes. -/
structure State where
  mem : ℕ → ℕ → UInt8
  pageCount : ℕ → ℕ
  infos : ℕ → Option MmapInfo
  fileCount : ℕ → ℕ
  privateData : ℕ → Option ℕ
  fds : Multiset ℕ
  vmas : Multiset Vma

/-- The module is loaded, and no process has opened the device. -/
def initial : State where
  mem _ _ := 0
  pageCount _ := 0
  infos _ := none
  fileCount _ := 0
  privateData _ := none
  fds := 0
  vmas := 0

/-! ### The kernel's functions -/

/-- `*p` for a pointer to a `struct mmap_info` -/
def State.info (s : State) (p : Option ℕ) : Except Fault MmapInfo :=
  (p.bind s.infos).elim (.error .outOfBounds) .ok

/-- `*p = info` -/
def State.setInfo (s : State) (p : Option ℕ) (info : MmapInfo) : State :=
  p.elim s fun a => { s with infos := Function.update s.infos a (some info) }

/-- `put_page` for each of the pages -/
def State.putPages (s : State) (pages : List ℕ) : Except Fault State :=
  (putRefs s.pageCount pages).elim (.error .outOfBounds) fun pageCount => .ok { s with pageCount }

/-- `free_page`: the pointer may be NULL. -/
def State.freePage (s : State) (page : Option ℕ) : Except Fault State := s.putPages page.toList

/-- `kfree` of a `struct mmap_info` -/
def State.kfree (s : State) (p : Option ℕ) : Except Fault State :=
  p.elim (.ok s) fun a =>
    (s.infos a).elim (.error .outOfBounds) fun _ => .ok { s with infos := Function.update s.infos a none }

def memcpy (bytes : ℕ → UInt8) (offset : ℕ) (src : List UInt8) (i : ℕ) : UInt8 :=
  if h : offset ≤ i ∧ i - offset < src.length then src.get ⟨i - offset, h.2⟩ else bytes i

/-- The bytes of a string, without the terminator. -/
def bytesOf (str : String) : List UInt8 := str.toList.map fun c => c.toNat.toUInt8

/-! ### The driver -/

/-- `info->reference += d`, in one step: the callbacks of two mappings do not overlap. -/
def changeReference (d : BitVec 32) (s : State) (v : Vma) : Except Fault State := do
  let info ← s.info v.vmPrivateData
  pure (s.setInfo v.vmPrivateData { info with reference := info.reference + d })

/-- `mmap_open` -/
def mmapOpen : State → Vma → Except Fault State := changeReference 1

/-- `mmap_close` -/
def mmapClose : State → Vma → Except Fault State := changeReference (-1)

/-- `mmap_fault`, with `none` for `VM_FAULT_SIGBUS` -/
def mmapFault (s : State) (v : Vma) (address : ℕ) : Except Fault (State × Option ℕ) :=
  -- is the address valid?
  if address > v.vmEnd then
    pure (s, none)
  else do
    let info ← s.info v.vmPrivateData
    match info.data with
    | none => pure (s, none)
    | some page => pure ({ s with pageCount := getRef s.pageCount page }, some page)

/-- `my_mmap`, with the mapping as it is left -/
def myMmap (s : State) (file : ℕ) (v : Vma) : Except Fault (State × Vma) := do
  let v := { v with vmPrivateData := s.privateData file }
  let s ← mmapOpen s v
  pure (s, v)

/-- `my_close` -/
def myClose (s : State) (file : ℕ) : Except Fault State := do
  let info ← s.info (s.privateData file)
  let s ← s.freePage info.data
  let s ← s.kfree (s.privateData file)
  pure { s with privateData := Function.update s.privateData file none }

/-- What `my_open` writes into the page: the name of the file is `DEV_NAME`. -/
def hello : ℕ → UInt8 :=
  memcpy (memcpy (fun _ => 0) 0 (bytesOf "hello from kernel this is file: ")) 32 (bytesOf "mmap_example")

/-- `my_open`, with the results of `kmalloc` and `get_zeroed_page`, which it does not check, and what
`kmalloc` found in `reference`, which is not set. -/
def myOpen (s : State) (file : ℕ) (info page : Option ℕ) (found : BitVec 32) : Except Fault State :=
  match info, page with
  | some a, some p => .ok { s with
      mem := Function.update s.mem p hello
      pageCount := getRef s.pageCount p
      infos := Function.update s.infos a (some { data := some p, reference := found, found })
      privateData := Function.update s.privateData file (some a) }
  | _, _ => .error .outOfBounds

/-! ### What happens to the device -/

/-- `dup` stands for all ways to share a descriptor, `fork` for one mapping that a new process gets, with some
of the entries or none; `zap` drops entries of a mapping that stays. -/
inductive Action
  | open (file : ℕ) (info page : Option ℕ) (found : BitVec 32)
  | dup (file : ℕ)
  | close (file : ℕ)
  | mmap (file start pages : ℕ)
  | fork (vma : Vma) (copied : List ℕ)
  | split (vma : Vma) (address : ℕ)
  | fault (vma : Vma) (address : ℕ)
  | store (vma : Vma) (address : ℕ) (x : UInt8)
  | zap (vma : Vma) (dropped : List ℕ)
  | munmap (vma : Vma)

/-- `fput`: the last reference releases the file. -/
def fput (s : State) (file : ℕ) : Except Fault State :=
  (putRef s.fileCount file).elim (.error .outOfBounds) fun fileCount =>
    if fileCount file = 0 then myClose { s with fileCount } file else .ok { s with fileCount }

/-- `get_file` -/
def getFile (s : State) (file : ℕ) : State := { s with fileCount := getRef s.fileCount file }

def newVma (file start pages : ℕ) : Vma where
  vmStart := start * pageSize
  vmEnd := (start + pages) * pageSize
  vmFile := file
  vmPrivateData := none
  ptes := []

/-- The part of a mapping that a copy or a cut leaves. -/
def Vma.keep (v : Vma) (kept : ℕ → Bool) : Vma := { v with ptes := v.ptes.filter fun pte => kept pte.1 }

/-- The next thing that happens, if it can. -/
def step (s : State) : Action → Option (Except Fault State)
  | .open file info page found =>
    -- what is allocated was free
    if s.fileCount file = 0 ∧ (∀ a ∈ info, s.infos a = none) ∧ ∀ p ∈ page, s.pageCount p = 0 then
      some do
        let s ← myOpen s file info page found
        pure { getFile s file with fds := file ::ₘ s.fds }
    else none
  | .dup file =>
    if file ∈ s.fds then some (.ok { getFile s file with fds := file ::ₘ s.fds }) else none
  | .close file => if file ∈ s.fds then some (fput { s with fds := s.fds.erase file } file) else none
  | .mmap file start pages =>
    if file ∈ s.fds then
      some do
        let (s, v) ← myMmap (getFile s file) file (newVma file start pages)
        pure { s with vmas := v ::ₘ s.vmas }
    else none
  | .fork v copied =>
    if v ∈ s.vmas then
      some do
        let new := v.keep fun number => number ∈ copied
        let s ← mmapOpen { getFile s v.vmFile with pageCount := new.pages.foldl getRef s.pageCount } new
        pure { s with vmas := new ::ₘ s.vmas }
    else none
  | .split v address =>
    if v ∈ s.vmas ∧ (v.vmStart < address ∧ address < v.vmEnd) ∧ address % pageSize = 0 then
      some do
        let lower := { v.keep fun number => number < address / pageSize with vmEnd := address }
        let upper := { v.keep fun number => !(number < address / pageSize) with vmStart := address }
        let s ← mmapOpen (getFile s v.vmFile) upper
        pure { s with vmas := lower ::ₘ upper ::ₘ s.vmas.erase v }
    else none
  | .fault v address =>
    if v ∈ s.vmas ∧ (v.vmStart ≤ address ∧ address < v.vmEnd) ∧ v.pageAt address = none then
      some do
        let (s, page) ← mmapFault s v address
        match page with
        | none => pure s
        | some p =>
          pure { s with vmas := { v with ptes := (address / pageSize, p) :: v.ptes } ::ₘ s.vmas.erase v }
    else none
  | .store v address x =>
    if v ∈ s.vmas then
      (v.pageAt address).map fun p => .ok { s with
        mem := Function.update s.mem p (Function.update (s.mem p) (address % pageSize) x) }
    else none
  | .zap v dropped =>
    if v ∈ s.vmas then
      some do
        let s ← s.putPages (v.keep fun number => number ∈ dropped).pages
        pure { s with vmas := (v.keep fun number => !(number ∈ dropped)) ::ₘ s.vmas.erase v }
    else none
  | .munmap v =>
    if v ∈ s.vmas then
      some do
        let s ← s.putPages v.pages
        let s ← mmapClose s v
        fput { s with vmas := s.vmas.erase v } v.vmFile
    else none

/-- The steps in which the driver does not crash. -/
def next (s : State) (a : Action) : Option State := (step s a).bind Except.toOption

/-- What a process reads at an address of a mapping: without an entry there is a page fault first. -/
def State.access (s : State) (v : Vma) (address : ℕ) : Option UInt8 :=
  match v.pageAt address with
  | some p => some (s.mem p (address % pageSize))
  | none => (mmapFault s v address).toOption.bind fun (s', page) =>
    page.map fun p => s'.mem p (address % pageSize)

end CodingForFun.Mmap
