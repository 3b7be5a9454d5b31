import CodingForFun.Lib.Cells
import CodingForFun.Lib.Loop
import CodingForFun.Lib.PagedList

/-!
# The PRP lists of `nvme.c`

`nvme_setup_prps` tells the controller where the data of a command is: page by page, in the two PRP
fields of the command and in lists of further pages that it takes from a DMA pool. `prpBytes` is how the
controller reads them. Memory is addressed as the controller sees it; a list page is identified by its
DMA address, also where the driver uses its own pointer to it.
-/

namespace CodingForFun.Nvme

open Lib

/-- `PAGE_SIZE`. -/
def pageSize : ℕ := 4096

/-- A `struct scatterlist` that is mapped: `sg_dma_address` and `sg_dma_len`. -/
structure Segment where
  addr : ℕ
  len : ℕ
  deriving DecidableEq

/-- The addresses of the bytes of a scatterlist, in order. -/
def sgBytes (sg : List Segment) : List ℕ := sg.flatMap fun seg => List.range' seg.addr seg.len

/-! ## What the controller reads -/

/-- The slot is the last one of its page. -/
def LastSlot (a : ℕ) : Prop := (a + 8) % pageSize = 0

instance : DecidablePred LastSlot := fun _ => inferInstanceAs (Decidable (_ = _))

/-- `r` bytes that start on the given pages, each of them filled before the next one. -/
def pageBytes : List ℕ → ℕ → List ℕ
  | [], _ => []
  | page :: pages, r => List.range' page (min r pageSize) ++ pageBytes pages (r - pageSize)

/-- What the second PRP entry stands for when `r` bytes are left: one page, or a list of pages. -/
def prpRest (mem : ℕ → ℕ) (prp2 r : ℕ) : List ℕ :=
  if r ≤ pageSize then pageBytes [prp2] r
  else pageBytes (walk LastSlot (· + 8) mem ((r + pageSize - 1) / pageSize) prp2) r

/-- The addresses of the `len` bytes that the PRP entries of a command stand for. -/
def prpBytes (mem : ℕ → ℕ) (prp1 prp2 len : ℕ) : List ℕ :=
  let first := pageSize - prp1 % pageSize
  List.range' prp1 (min len first) ++ prpRest mem prp2 (len - first)

/-! ## `nvme_setup_prps` -/

/-- `prp_small_pool` and `prp_page_pool`. -/
inductive Pool
  | small
  | page
  deriving DecidableEq

def Pool.size : Pool → ℕ
  | .small => 256
  | .page => pageSize

/-- `DIV_ROUND_UP`. -/
def divRoundUp (n d : ℕ) : ℕ := (n + d - 1) / d

/-- `nvme_npages`. -/
def nvmeNpages (size : ℕ) : ℕ :=
  let nprps := divRoundUp (size + pageSize) pageSize
  divRoundUp (8 * nprps) (pageSize - 8)

/-- The locals of the loop of `nvme_setup_prps`, with the memory and the `list` of the `iod`. `pages`
records what has been taken from the pool. -/
structure PrpState where
  mem : ℕ → ℕ
  list : ℕ → ℕ
  npages : ℕ
  prpList : ℕ
  i : ℕ
  dmaLen : ℤ
  dmaAddr : ℕ
  length : ℤ
  sg : List Segment
  pages : List ℕ

/-- A write to `prp_list[i]`. -/
def putPrp (pool : Pool) (prpList i v : ℕ) (mem : ℕ → ℕ) : Except Fault (ℕ → ℕ) :=
  if 8 * i + 8 ≤ pool.size then .ok (Function.update mem (prpList + 8 * i) v) else .error .outOfBounds

/-- A write to `list[k]`. -/
def putList (bound k v : ℕ) (list : ℕ → ℕ) : Except Fault (ℕ → ℕ) :=
  if k < bound then .ok (Function.update list k v) else .error .outOfBounds

/-- `sg_next`, and what is behind it. -/
def sgNext : List Segment → Except Fault (Segment × List Segment)
  | [] => .error .outOfBounds
  | seg :: rest => .ok (seg, rest)

/-- `if (i == PAGE_SIZE / 8)`: the list goes on on a new page. `none` when there is none. -/
def nextPage (alloc : ℕ → Option ℕ) (pool : Pool) (bound : ℕ) (s : PrpState) :
    Except Fault (Option PrpState) := do
  if s.i = pageSize / 8 then
    let old := s.prpList
    match alloc s.pages.length with
    | none => pure none
    | some prpDma =>
      let list ← putList bound s.npages prpDma s.list
      let mem ← putPrp pool prpDma 0 (s.mem (old + 8 * (s.i - 1))) s.mem
      let mem ← putPrp pool old (s.i - 1) prpDma mem
      pure (some { s with
        mem := mem, list := list, npages := s.npages + 1, prpList := prpDma, i := 1
        pages := s.pages ++ [prpDma] })
  else pure (some s)

/-- The rest of a round up to the first `break`. -/
def putEntry (pool : Pool) (s : PrpState) : Except Fault PrpState := do
  let mem ← putPrp pool s.prpList s.i s.dmaAddr s.mem
  pure { s with
    mem := mem, i := s.i + 1
    dmaLen := s.dmaLen - pageSize, dmaAddr := s.dmaAddr + pageSize, length := s.length - pageSize }

/-- The end of a round. -/
def advance (s : PrpState) : Except Fault PrpState :=
  if 0 < s.dmaLen then .ok s
  else if s.dmaLen < 0 then .error .exit
  else do
    let (seg, rest) ← sgNext s.sg
    pure { s with dmaAddr := seg.addr, dmaLen := seg.len, sg := rest }

/-- The loop, and whether it has left because there was no page. -/
def prpLoop (alloc : ℕ → Option ℕ) (pool : Pool) (bound : ℕ) :
    ℕ → PrpState → Except Fault (Bool × PrpState)
  | 0, _ => .error .unbounded
  | fuel + 1, s => do
    match ← nextPage alloc pool bound s with
    | none => pure (true, s)
    | some s =>
      let s ← putEntry pool s
      if s.length ≤ 0 then pure (false, s)
      else
        let s ← advance s
        prpLoop alloc pool bound fuel s

/-- What `nvme_setup_prps` leaves in the command, in the `iod` and in memory, and what it returns.
`npages` is `-1` when there is no list; `pool` is where its pages are asked for. -/
structure Prps where
  prp1 : ℕ
  prp2 : ℕ
  returned : ℤ
  npages : ℤ
  firstDma : ℕ
  list : ℕ → ℕ
  mem : ℕ → ℕ
  pool : Pool
  pages : List ℕ

/-- `dma_addr`, `dma_len` and `sg` behind the first page, of which the segment has `first` bytes. -/
def secondPage (seg : Segment) (rest : List Segment) (first : ℕ) :
    Except Fault (ℕ × ℤ × List Segment) :=
  let dmaLen : ℤ := seg.len - first
  if dmaLen ≠ 0 then .ok (seg.addr + first, dmaLen, rest)
  else do
    let (seg, rest) ← sgNext rest
    pure (seg.addr, (seg.len : ℤ), rest)

/-- `nvme_setup_prps` for an `iod` with room for `bound` list pages. `alloc pool k` is what
`dma_pool_alloc` returns when it is called after `k` pages have been taken. -/
def nvmeSetupPrps (alloc : Pool → ℕ → Option ℕ) (bound : ℕ) (mem : ℕ → ℕ) (sg : List Segment) (totalLen : ℤ) :
    Except Fault Prps := do
  let (seg, rest) ← sgNext sg
  let offset := seg.addr % pageSize
  let prps : Prps := ⟨seg.addr, 0, totalLen, -1, 0, fun _ => 0, mem, .small, []⟩
  let length := totalLen - (pageSize - offset : ℕ)
  if length ≤ 0 then pure prps
  else
    let (dmaAddr, dmaLen, rest) ← secondPage seg rest (pageSize - offset)
    if length ≤ pageSize then pure { prps with prp2 := dmaAddr }
    else
      let nprps := divRoundUp length.toNat pageSize
      let pool : Pool := if nprps ≤ 256 / 8 then .small else .page
      let npages := if nprps ≤ 256 / 8 then 0 else 1
      match alloc pool 0 with
      | none => pure { prps with prp2 := dmaAddr, returned := totalLen - length + pageSize, pool }
      | some prpDma =>
        let list ← putList bound 0 prpDma prps.list
        let (failed, s) ← prpLoop (alloc pool) pool bound nprps
          ⟨mem, list, npages, prpDma, 0, dmaLen, dmaAddr, length, rest, [prpDma]⟩
        pure {
          prp1 := seg.addr, prp2 := prpDma
          returned := if failed then totalLen - s.length else totalLen
          npages := s.npages, firstDma := prpDma, list := s.list, mem := s.mem, pool, pages := s.pages }

/-! ## `nvme_free_iod` -/

/-- The loop of `nvme_free_iod` from page `i` on, at DMA address `prpDma`: the calls of
`dma_pool_free`. -/
def freePages (mem list : ℕ → ℕ) : ℕ → ℕ → ℕ → List (Pool × ℕ × ℕ)
  | 0, _, _ => []
  | n + 1, i, prpDma =>
    let prpList := list i
    let nextPrpDma := mem (prpList + 8 * (pageSize / 8 - 1))
    (.page, prpList, prpDma) :: freePages mem list n (i + 1) nextPrpDma

/-- `nvme_free_iod`: the pools, the pages and the DMA addresses of its calls of `dma_pool_free`. -/
def nvmeFreeIod (prps : Prps) : List (Pool × ℕ × ℕ) :=
  (if prps.npages = 0 then [(.small, prps.list 0, prps.firstDma)] else []) ++
    freePages prps.mem prps.list prps.npages.toNat 0 prps.firstDma

end CodingForFun.Nvme
