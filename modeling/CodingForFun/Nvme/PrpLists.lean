import CodingForFun.Nvme.Prps

/-!
# What a PRP list stands for

The loop of `nvme_setup_prps` walks over the scatterlist page by page (`DataInv`) and over the list
pages slot by slot (`ListInv`), and ends with a list from which the controller reads the pages of the
data in their order.
-/

namespace CodingForFun.Nvme

open Lib

/-! ## The scatterlist -/

/-- Segments that begin on a page and that, all but the last one, end on one. -/
def WholePages : List Segment → Prop
  | [] => True
  | seg :: rest => seg.addr % pageSize = 0 ∧ 0 < seg.len ∧
      (rest = [] ∨ seg.len % pageSize = 0) ∧ WholePages rest

/-- A scatterlist without holes: only its two ends may be inside a page. -/
def NoHoles : List Segment → Prop
  | [] => False
  | seg :: rest => 0 < seg.len ∧ (rest = [] ∨ (seg.addr + seg.len) % pageSize = 0) ∧ WholePages rest

theorem sgBytes_cons (seg : Segment) (rest : List Segment) :
    sgBytes (seg :: rest) = List.range' seg.addr seg.len ++ sgBytes rest :=
  List.flatMap_cons

theorem range'_split (a : ℕ) {k n : ℕ} (hle : k ≤ n) :
    List.range' a n = List.range' a k ++ List.range' (a + k) (n - k) := by
  rw [List.range'_append_1, Nat.add_sub_cancel' hle]

theorem WholePages.take {seg : Segment} {rest : List Segment} (h : WholePages (seg :: rest)) {n : ℕ}
    (hn : n ≤ pageSize) (hlen : n ≤ (sgBytes (seg :: rest)).length) :
    (sgBytes (seg :: rest)).take n = List.range' seg.addr n := by
  obtain ⟨_, hpos, hend, _⟩ := h
  have hle : n ≤ seg.len := by
    rcases hend with rfl | hend
    · simpa [sgBytes] using hlen
    · have : pageSize ≤ seg.len := Nat.le_of_dvd hpos (Nat.dvd_of_mod_eq_zero hend)
      omega
  rw [sgBytes_cons, List.take_append_of_le_length (by rwa [List.length_range']), range'_split _ hle]
  exact List.take_left' List.length_range'

theorem pageBytes_eq (es : List ℕ) (r : ℕ) :
    pageBytes es r = (es.flatMap fun e => List.range' e pageSize).take r := by
  induction es generalizing r with
  | nil => simp [pageBytes]
  | cons e es ih =>
    rw [pageBytes, ih, List.flatMap_cons, List.take_append, List.length_range']
    congr 1
    rcases le_total r pageSize with hle | hle
    · rw [min_eq_left hle, range'_split e hle]
      exact (List.take_left' List.length_range').symm
    · rw [min_eq_right hle, List.take_of_length_le (by rwa [List.length_range'])]

theorem length_flatMap_pages (es : List ℕ) :
    (es.flatMap fun e => List.range' e pageSize).length = pageSize * es.length := by
  rw [List.length_flatMap]
  simp [Nat.mul_comm]

/-- Where the loop is in the scatterlist. -/
def left (s : PrpState) : List Segment := ⟨s.dmaAddr, s.dmaLen.toNat⟩ :: s.sg

/-- The pages `es` of the bytes in `all` are done; `r` bytes of them were asked for. -/
structure DataInv (all : List ℕ) (r : ℕ) (es : List ℕ) (s : PrpState) : Prop where
  whole : WholePages (left s)
  done : (es.flatMap fun e => List.range' e pageSize) ++ sgBytes (left s) = all
  length : s.length + pageSize * es.length = r
  pos : 0 < s.length
  enough : r ≤ all.length

section data

variable {all : List ℕ} {r : ℕ} {es : List ℕ} {s : PrpState}

theorem DataInv.next (h : DataInv all r es s) (hmore : (pageSize : ℤ) < s.length) {s' : PrpState}
    (haddr : s'.dmaAddr = s.dmaAddr + pageSize) (hlen : s'.dmaLen = s.dmaLen - pageSize)
    (hlength : s'.length = s.length - pageSize) (hsg : s'.sg = s.sg) :
    ∃ s'', advance s' = .ok s'' ∧ DataInv all r (es ++ [s.dmaAddr]) s'' ∧
      s'' = { s' with dmaAddr := s''.dmaAddr, dmaLen := s''.dmaLen, sg := s''.sg } := by
  obtain ⟨haligned, hpos, hend, hrest⟩ := h.whole
  simp only at haligned hpos hend
  have hdone := congrArg List.length h.done
  rw [List.length_append, length_flatMap_pages, left, sgBytes_cons, List.length_append,
    List.length_range'] at hdone
  simp only at hdone
  have henough := h.enough
  have hlengthInv := h.length
  have hge : pageSize ≤ s.dmaLen.toNat := by
    rcases hend with hnil | hend
    · rw [hnil] at hdone
      have hzero : (sgBytes []).length = 0 := rfl
      omega
    · exact Nat.le_of_dvd hpos (Nat.dvd_of_mod_eq_zero hend)
  have hflat : ((es ++ [s.dmaAddr]).flatMap fun e => List.range' e pageSize) =
      (es.flatMap fun e => List.range' e pageSize) ++ List.range' s.dmaAddr pageSize := by
    rw [List.flatMap_append, List.flatMap_singleton]
  have hall := h.done
  rw [left, sgBytes_cons, range'_split _ hge] at hall
  have hcount : s'.length + pageSize * (es ++ [s.dmaAddr]).length = r := by
    rw [hlength, List.length_append, List.length_singleton, Int.natCast_add, Int.natCast_one,
      Int.mul_add, Int.mul_one]
    omega
  by_cases hrun : 0 < s'.dmaLen
  · refine ⟨s', if_pos hrun, ⟨?_, ?_, hcount, by omega, henough⟩, rfl⟩
    · refine ⟨?_, ?_, ?_, hsg ▸ hrest⟩
      · show s'.dmaAddr % pageSize = 0
        rw [haddr, Nat.add_mod_right, haligned]
      · show 0 < s'.dmaLen.toNat
        omega
      · show s'.sg = [] ∨ s'.dmaLen.toNat % pageSize = 0
        rw [hsg, show s'.dmaLen.toNat = s.dmaLen.toNat - pageSize by omega]
        exact hend.imp_right fun hmod => (Nat.mod_eq_sub_mod hge).symm.trans hmod
    · rw [hflat, List.append_assoc, left, sgBytes_cons, haddr, hsg,
        show s'.dmaLen.toNat = s.dmaLen.toNat - pageSize by omega, ← hall, List.append_assoc]
  · -- the segment is used up, and there is another one
    have hzero : s'.dmaLen = 0 := by omega
    cases hsgs : s.sg with
    | nil =>
      rw [hsgs] at hdone
      have hnil : (sgBytes []).length = 0 := rfl
      omega
    | cons seg rest =>
      refine ⟨{ s' with dmaAddr := seg.addr, dmaLen := seg.len, sg := rest }, ?_,
        ⟨?_, ?_, hcount, by simp only; omega, henough⟩, rfl⟩
      · unfold advance
        rw [if_neg hrun, if_neg (by omega), hsg, hsgs]
        rfl
      · rw [hsgs] at hrest
        exact hrest
      · rw [hflat, List.append_assoc, left, sgBytes_cons]
        rw [hsgs, sgBytes_cons, show s.dmaLen.toNat - pageSize = 0 by omega, List.range'_zero,
          List.append_nil] at hall
        exact hall

theorem DataInv.last (h : DataInv all r es s) (hlast : s.length ≤ pageSize) :
    ((es ++ [s.dmaAddr]).flatMap fun e => List.range' e pageSize).take r = all.take r := by
  have hlengthInv := h.length
  have hpos := h.pos
  have hdone := congrArg List.length h.done
  rw [List.length_append, length_flatMap_pages] at hdone
  have henough := h.enough
  obtain ⟨n, hn⟩ : ∃ n : ℕ, s.length = n := ⟨s.length.toNat, by omega⟩
  have hr : r = pageSize * es.length + n := by omega
  rw [← h.done, List.flatMap_append, List.flatMap_singleton, hr, ← length_flatMap_pages,
    List.take_length_add_append, List.take_length_add_append, left,
    h.whole.take (by omega) (by show n ≤ (sgBytes (left s)).length; omega)]
  rw [range'_split _ (show n ≤ pageSize by omega)]
  exact congrArg _ (List.take_left' List.length_range')

end data

/-! ## The list pages -/

/-- The pages that `dma_pool_alloc` returns do not overlap. -/
structure PagesApart (alloc : ℕ → Option ℕ) (pool : Pool) : Prop where
  aligned : ∀ k page, alloc k = some page → page % pool.size = 0
  inj : ∀ k k' page, alloc k = some page → alloc k' = some page → k = k'

theorem slot_inj (pool : Pool) {p q i j : ℕ} (hp : p % pool.size = 0) (hq : q % pool.size = 0)
    (hi : 8 * i + 8 ≤ pool.size) (hj : 8 * j + 8 ≤ pool.size) (h : p + 8 * i = q + 8 * j) :
    p = q ∧ i = j := by
  cases pool <;> simp only [Pool.size, pageSize] at hp hq hi hj <;> omega

theorem not_lastSlot (pool : Pool) {p i : ℕ} (hp : p % pool.size = 0) (hi : 8 * i + 16 ≤ pool.size) :
    ¬ LastSlot (p + 8 * i) := by
  unfold LastSlot
  cases pool <;> simp only [Pool.size, pageSize] at hp hi ⊢ <;> omega

theorem lastSlot {p : ℕ} (hp : p % pageSize = 0) : LastSlot (p + 8 * (pageSize / 8 - 1)) := by
  unfold LastSlot
  simp only [pageSize] at hp ⊢
  omega

theorem putPrp_ok {pool : Pool} {i : ℕ} (hi : 8 * i + 8 ≤ pool.size) (page v : ℕ) (mem : ℕ → ℕ) :
    putPrp pool page i v mem = .ok (Function.update mem (page + 8 * i) v) :=
  if_pos hi

theorem putList_ok {bound k : ℕ} (hk : k < bound) (v : ℕ) (list : ℕ → ℕ) :
    putList bound k v list = .ok (Function.update list k v) :=
  if_pos hk

/-- The pages taken from the pool hold the entries `es`: all slots of the earlier pages and the first
`i` of the last one. -/
structure ListInv (alloc : ℕ → Option ℕ) (pool : Pool) (first : ℕ) (es : List ℕ) (s : PrpState) :
    Prop where
  pages : ∃ earlier, s.pages = earlier ++ [s.prpList]
  head : s.pages.head? = some first
  alloc : ∀ k (hk : k < s.pages.length), alloc k = some s.pages[k]
  list : ∀ k (hk : k < s.pages.length), s.list k = s.pages[k]
  chain : ∀ k (hk : k + 1 < s.pages.length),
    s.mem (s.pages[k] + 8 * (pageSize / 8 - 1)) = s.pages[k + 1]
  npages : pool = .small ∧ s.npages = 0 ∧ s.pages.length = 1 ∨
    pool = .page ∧ s.npages = s.pages.length
  i_le : 8 * s.i ≤ pool.size
  count : es.length + 511 = s.i + 511 * s.pages.length
  filled : es = [] ∧ s.i = 0 ∧ s.prpList = first ∨
    0 < s.i ∧ ∃ reads, Filled LastSlot (· + 8) s.mem first reads es (s.prpList + 8 * (s.i - 1)) ∧
      ∀ x ∈ reads, ∃ page ∈ s.pages, ∃ j, x = page + 8 * j ∧ 8 * j + 8 ≤ pool.size ∧
        (page = s.prpList → j < s.i - 1)

section pages

variable {alloc : ℕ → Option ℕ} {pool : Pool} {first : ℕ} {es : List ℕ} {s : PrpState}

theorem ListInv.aligned (h : ListInv alloc pool first es s) (happ : PagesApart alloc pool) {page : ℕ}
    (hpage : page ∈ s.pages) : page % pool.size = 0 := by
  obtain ⟨k, hk, rfl⟩ := List.mem_iff_getElem.mp hpage
  exact happ.aligned k _ (h.alloc k hk)

theorem ListInv.prpList_mem (h : ListInv alloc pool first es s) : s.prpList ∈ s.pages := by
  obtain ⟨earlier, hpages⟩ := h.pages
  rw [hpages]
  exact List.mem_append_right _ List.mem_cons_self

theorem ListInv.earlier_ne (h : ListInv alloc pool first es s) (happ : PagesApart alloc pool) {k : ℕ}
    (hk : k + 1 < s.pages.length) : s.pages[k] ≠ s.prpList := by
  intro heq
  have hlast : s.pages[s.pages.length - 1] = s.prpList := by
    obtain ⟨earlier, hpages⟩ := h.pages
    simp [hpages]
  have hinj := happ.inj k (s.pages.length - 1) s.prpList
    (by rw [h.alloc k (by omega), heq]) (by rw [h.alloc _ (by omega), hlast])
  omega

theorem ListInv.put (h : ListInv alloc pool first es s) (happ : PagesApart alloc pool)
    (hi : 8 * s.i + 8 ≤ pool.size) :
    ∃ s', putEntry pool s = .ok s' ∧ ListInv alloc pool first (es ++ [s.dmaAddr]) s' ∧
      s'.pages = s.pages ∧ s'.dmaAddr = s.dmaAddr + pageSize ∧ s'.dmaLen = s.dmaLen - pageSize ∧
      s'.length = s.length - pageSize ∧ s'.sg = s.sg := by
  have halign := h.aligned happ h.prpList_mem
  refine ⟨{ s with
    mem := Function.update s.mem (s.prpList + 8 * s.i) s.dmaAddr, i := s.i + 1
    dmaLen := s.dmaLen - pageSize, dmaAddr := s.dmaAddr + pageSize, length := s.length - pageSize },
    ?_, ⟨h.pages, h.head, h.alloc, h.list, ?_, h.npages, ?_, ?_, .inr ⟨Nat.succ_pos _, ?_⟩⟩,
    rfl, rfl, rfl, rfl, rfl⟩
  · unfold putEntry
    rw [putPrp_ok hi]
    rfl
  · -- the slots in which earlier pages go on are elsewhere
    intro k hk
    simp only
    rw [Function.update_of_ne, h.chain k hk]
    intro heq
    have hlen : pool.size = pageSize := by
      rcases h.npages with ⟨_, _, hone⟩ | ⟨rfl, _⟩
      · simp only at hk
        omega
      · rfl
    refine h.earlier_ne happ hk (slot_inj pool (h.aligned happ (List.getElem_mem _)) halign ?_ hi heq).1
    rw [hlen, pageSize]
  · simp only
    omega
  · rw [List.length_append, List.length_singleton]
    have hcount := h.count
    simp only
    omega
  · simp only [Nat.add_sub_cancel]
    rcases h.filled with ⟨rfl, hzero, hfirst⟩ | ⟨hpos, reads, hfilled, hreads⟩
    · refine ⟨[], ?_, fun x hx => absurd hx List.not_mem_nil⟩
      rw [hzero, hfirst]
      exact Filled.start s.mem first s.dmaAddr
    · have hnext : s.prpList + 8 * (s.i - 1) + 8 = s.prpList + 8 * s.i := by omega
      have hfresh : ∀ x ∈ (s.prpList + 8 * (s.i - 1)) :: reads, x ≠ s.prpList + 8 * (s.i - 1) + 8 := by
        intro x hx heq
        rcases List.mem_cons.mp hx with rfl | hx
        · omega
        · obtain ⟨page, hpage, j, rfl, hj, hlt⟩ := hreads x hx
          rw [hnext] at heq
          obtain ⟨hsame, hji⟩ := slot_inj pool (h.aligned happ hpage) halign hj hi heq
          have := hlt hsame
          omega
      have happend := hfilled.append (not_lastSlot pool halign (by omega)) hfresh s.dmaAddr
      rw [hnext] at happend
      refine ⟨_, happend, fun x hx => ?_⟩
      have hlastRead : ∃ page ∈ s.pages, ∃ j, s.prpList + 8 * (s.i - 1) = page + 8 * j ∧
          8 * j + 8 ≤ pool.size ∧ (page = s.prpList → j < s.i) :=
        ⟨s.prpList, h.prpList_mem, s.i - 1, rfl, by omega, fun _ => by omega⟩
      rcases List.mem_cons.mp hx with rfl | hx
      · exact hlastRead
      · rcases List.mem_cons.mp hx with rfl | hx
        · exact hlastRead
        · obtain ⟨page, hpage, j, rfl, hj, hlt⟩ := hreads x hx
          exact ⟨page, hpage, j, rfl, hj, fun heq => by have := hlt heq; omega⟩

theorem ListInv.put_new (h : ListInv alloc pool first es s) (happ : PagesApart alloc pool)
    (hi : s.i = pageSize / 8) {bound : ℕ} (hbound : s.pages.length < bound) {page : ℕ}
    (halloc : alloc s.pages.length = some page) :
    ∃ s₁ s', nextPage alloc pool bound s = .ok (some s₁) ∧ putEntry pool s₁ = .ok s' ∧
      ListInv alloc pool first (es ++ [s.dmaAddr]) s' ∧
      s'.pages = s.pages ++ [page] ∧ s'.dmaAddr = s.dmaAddr + pageSize ∧
      s'.dmaLen = s.dmaLen - pageSize ∧ s'.length = s.length - pageSize ∧ s'.sg = s.sg := by
  have hile := h.i_le
  have hcount := h.count
  have hsize : pageSize = 4096 := rfl
  obtain ⟨rfl, hnpages⟩ : pool = .page ∧ s.npages = s.pages.length := by
    rcases h.npages with ⟨rfl, _⟩ | h
    · rw [hi] at hile
      exact absurd hile (by decide)
    · exact h
  have halign := h.aligned happ h.prpList_mem
  have halignNew := happ.aligned _ _ halloc
  have hpool : Pool.page.size = 4096 := rfl
  have hpos : 0 < s.pages.length := List.length_pos_of_mem h.prpList_mem
  have hnew : ∀ k (hk : k < s.pages.length), s.pages[k] ≠ page := by
    intro k hk heq
    have hinj := happ.inj k s.pages.length page (by rw [h.alloc k hk, heq]) halloc
    omega
  have hnewMem : ∀ q ∈ s.pages, q ≠ page := by
    intro q hq
    obtain ⟨k, hk, rfl⟩ := List.mem_iff_getElem.mp hq
    exact hnew k hk
  obtain ⟨hpos, reads, hfilled, hreads⟩ := h.filled.resolve_left fun hzero => by
    rw [hi] at hzero
    exact absurd hzero.2.1 (by decide)
  -- the slots of other pages differ from those of the new one
  have hapart : ∀ q ∈ s.pages, ∀ j j', 8 * j + 8 ≤ 4096 → 8 * j' + 8 ≤ 4096 →
      q + 8 * j ≠ page + 8 * j' := by
    intro q hq j j' hj hj' heq
    exact hnewMem q hq (slot_inj .page (h.aligned happ hq) halignNew hj hj' heq).1
  have hend : LastSlot (s.prpList + 8 * (s.i - 1)) := by
    rw [hi]
    exact lastSlot halign
  have hnotRead : s.prpList + 8 * (s.i - 1) ∉ reads := by
    intro hmem
    obtain ⟨q, hq, j, heq, hj, hlt⟩ := hreads _ hmem
    obtain ⟨hsame, hji⟩ := slot_inj .page halign (h.aligned happ hq) (by omega) hj heq
    have := hlt hsame.symm
    omega
  have hfresh : ∀ x ∈ (s.prpList + 8 * (s.i - 1)) :: reads, x ≠ page ∧ x ≠ page + 8 := by
    intro x hx
    obtain ⟨q, hq, j, rfl, hj⟩ : ∃ q ∈ s.pages, ∃ j, x = q + 8 * j ∧ 8 * j + 8 ≤ 4096 := by
      rcases List.mem_cons.mp hx with rfl | hx
      · exact ⟨s.prpList, h.prpList_mem, s.i - 1, rfl, by omega⟩
      · obtain ⟨q, hq, j, rfl, hj, _⟩ := hreads x hx
        exact ⟨q, hq, j, rfl, hj⟩
    exact ⟨hapart q hq j 0 hj (by omega), hapart q hq j 1 hj (by omega)⟩
  have hextend := hfilled.extend hend hnotRead hfresh (by omega) s.dmaAddr
  refine ⟨{ s with
      mem := Function.update (Function.update s.mem page (s.mem (s.prpList + 8 * (s.i - 1))))
        (s.prpList + 8 * (s.i - 1)) page
      list := Function.update s.list s.npages page, npages := s.npages + 1, prpList := page, i := 1
      pages := s.pages ++ [page] },
    { s with
      mem := Function.update (Function.update (Function.update s.mem page
          (s.mem (s.prpList + 8 * (s.i - 1)))) (s.prpList + 8 * (s.i - 1)) page)
        (page + 8) s.dmaAddr
      list := Function.update s.list s.npages page, npages := s.npages + 1, prpList := page, i := 2
      dmaLen := s.dmaLen - pageSize, dmaAddr := s.dmaAddr + pageSize, length := s.length - pageSize
      pages := s.pages ++ [page] },
    ?_, ?_, ⟨⟨s.pages, rfl⟩, ?_, ?_, ?_, ?_, .inr ⟨rfl, ?_⟩, ?_, ?_, .inr ⟨by simp, ?_⟩⟩,
    rfl, rfl, rfl, rfl, rfl⟩
  · unfold nextPage
    rw [if_pos hi, halloc]
    simp only [putList_ok (hnpages ▸ hbound), putPrp_ok (show 8 * 0 + 8 ≤ Pool.page.size by decide),
      putPrp_ok (show 8 * (s.i - 1) + 8 ≤ Pool.page.size by omega), ok_bind]
    rfl
  · unfold putEntry
    simp only [putPrp_ok (show 8 * 1 + 8 ≤ Pool.page.size by decide), ok_bind]
    rfl
  · rw [List.head?_append, h.head]
    rfl
  · intro k hk
    rw [List.length_append, List.length_singleton] at hk
    by_cases hold : k < s.pages.length
    · rw [List.getElem_append_left hold]
      exact h.alloc k hold
    · obtain rfl : k = s.pages.length := by omega
      rw [List.getElem_concat_length rfl]
      exact halloc
  · intro k hk
    rw [List.length_append, List.length_singleton] at hk
    simp only [hnpages]
    by_cases hold : k < s.pages.length
    · rw [List.getElem_append_left hold, Function.update_of_ne (by omega)]
      exact h.list k hold
    · obtain rfl : k = s.pages.length := by omega
      rw [List.getElem_concat_length rfl, Function.update_self]
  · intro k hk
    rw [List.length_append, List.length_singleton] at hk
    have hk' : k < s.pages.length := by omega
    have hslots : pageSize / 8 - 1 = 511 := rfl
    simp only [hslots]
    rw [List.getElem_append_left hk', Function.update_of_ne
      (hapart _ (List.getElem_mem hk') 511 1 (by omega) (by omega))]
    by_cases hlast : k + 1 < s.pages.length
    · have hne := h.earlier_ne happ hlast
      have hnePage : s.pages[k] + 8 * 511 ≠ page :=
        hapart _ (List.getElem_mem hk') 511 0 (by omega) (by omega)
      rw [Function.update_of_ne, Function.update_of_ne hnePage, List.getElem_append_left hlast]
      · exact h.chain k hlast
      · intro heq
        exact hne (slot_inj .page (h.aligned happ (List.getElem_mem hk')) halign (by omega)
          (by omega) heq).1
    · -- the page that has just become full
      have hkLast : s.pages[k] = s.prpList := by
        obtain ⟨earlier, hpages⟩ := h.pages
        have hlen : k = earlier.length := by
          rw [hpages, List.length_append, List.length_singleton] at hk' hlast
          omega
        simp [hpages, hlen]
      rw [hkLast, show s.i - 1 = 511 by omega, Function.update_self]
      simp only [show k + 1 = s.pages.length by omega]
      rw [List.getElem_concat_length rfl]
  · rw [List.length_append, List.length_singleton, hnpages]
  · show 8 * 2 ≤ Pool.page.size
    decide
  · show (es ++ [s.dmaAddr]).length + 511 = 2 + 511 * (s.pages ++ [page]).length
    rw [List.length_append, List.length_append, List.length_singleton, List.length_singleton]
    omega
  · refine ⟨_, hextend, fun x hx => ?_⟩
    rcases List.mem_cons.mp hx with rfl | hx
    · exact ⟨s.prpList, List.mem_append_left _ h.prpList_mem, s.i - 1, rfl, by omega,
        fun heq => absurd heq (hnewMem _ h.prpList_mem)⟩
    · rcases List.mem_cons.mp hx with hx | hx
      · exact ⟨page, List.mem_append_right _ List.mem_cons_self, 0, hx, by omega, fun _ => Nat.one_pos⟩
      · obtain ⟨q, hq, j, rfl, hj, _⟩ := hreads x hx
        exact ⟨q, List.mem_append_left _ hq, j, rfl, hj, fun heq => absurd heq (hnewMem q hq)⟩

theorem ListInv.advance (h : ListInv alloc pool first es s) (addr : ℕ) (len : ℤ)
    (sg : List Segment) :
    ListInv alloc pool first es { s with dmaAddr := addr, dmaLen := len, sg := sg } :=
  ⟨h.pages, h.head, h.alloc, h.list, h.chain, h.npages, h.i_le, h.count, h.filled⟩

theorem ListInv.round (h : ListInv alloc pool first es s) (happ : PagesApart alloc pool) {bound : ℕ}
    (hbound : es.length ≤ 511 * bound) (hroom : pool = .small → s.i < 32) :
    (nextPage alloc pool bound s = .ok none ∧ alloc s.pages.length = none ∧ s.i = pageSize / 8) ∨
      ∃ s₁ s', nextPage alloc pool bound s = .ok (some s₁) ∧ putEntry pool s₁ = .ok s' ∧
        ListInv alloc pool first (es ++ [s.dmaAddr]) s' ∧
        s'.dmaAddr = s.dmaAddr + pageSize ∧ s'.dmaLen = s.dmaLen - pageSize ∧
        s'.length = s.length - pageSize ∧ s'.sg = s.sg := by
  have hcount := h.count
  have hslots : pageSize / 8 = 512 := rfl
  by_cases hi : s.i = pageSize / 8
  · cases halloc : alloc s.pages.length with
    | none =>
      refine .inl ⟨?_, rfl, hi⟩
      unfold nextPage
      rw [if_pos hi, halloc]
      rfl
    | some page =>
      obtain ⟨s₁, s', hnext, hput, hinv, _, hrest⟩ :=
        h.put_new happ hi (show s.pages.length < bound by omega) halloc
      exact .inr ⟨s₁, s', hnext, hput, hinv, hrest⟩
  · have hile := h.i_le
    have hput : 8 * s.i + 8 ≤ pool.size := by
      cases pool with
      | small =>
        have hroom := hroom rfl
        simp only [Pool.size]
        omega
      | page =>
        simp only [Pool.size, pageSize] at hile ⊢
        omega
    obtain ⟨s', hput, hinv, _, hrest⟩ := h.put happ hput
    refine .inr ⟨s, s', ?_, hput, hinv, hrest⟩
    unfold nextPage
    rw [if_neg hi]
    rfl

end pages

/-! ## The loop -/

/-- The pages `es` give the first `k` of the bytes in `all`, no page for nothing. -/
structure Describes (es : List ℕ) (k : ℕ) (all : List ℕ) : Prop where
  bytes : (es.flatMap fun e => List.range' e pageSize).take k = all.take k
  le : k ≤ pageSize * es.length
  lt : pageSize * es.length < k + pageSize

/-- The loop describes all `r` bytes, or those up to the page for which there was no list page. -/
theorem prpLoop_ok {alloc : ℕ → Option ℕ} {pool : Pool} (happ : PagesApart alloc pool) {bound r : ℕ}
    {all : List ℕ} (hbound : r ≤ pageSize * (511 * bound)) (hsmall : pool = .small → r ≤ pageSize * 32)
    (hr : pageSize < r) {first : ℕ} (fuel : ℕ) :
    ∀ {es : List ℕ} {s : PrpState}, DataInv all r es s → ListInv alloc pool first es s →
      s.length ≤ pageSize * fuel →
      ∃ failed s' es' k, prpLoop alloc pool bound fuel s = .ok (failed, s') ∧
        ListInv alloc pool first es' s' ∧ Describes es' k all ∧ pageSize < k ∧ k ≤ r ∧
        (failed = false ∧ k = r ∨
          failed = true ∧ s'.length + k = r ∧ alloc s'.pages.length = none) := by
  induction fuel with
  | zero =>
    intro es s hdata _ hfuel
    have hpos := hdata.pos
    rw [Int.natCast_zero, Int.mul_zero] at hfuel
    omega
  | succ fuel ih =>
    intro es s hdata hlist hfuel
    have hpos := hdata.pos
    have hlength := hdata.length
    have hcount := hlist.count
    have hpages : 0 < s.pages.length := List.length_pos_of_mem hlist.prpList_mem
    have hlt : pageSize * es.length < r := by omega
    have hes : es.length ≤ 511 * bound := by
      have hmul := Nat.lt_of_mul_lt_mul_left (hlt.trans_le hbound)
      omega
    have hroom : pool = .small → s.i < 32 := by
      intro hpool
      have hmul := Nat.lt_of_mul_lt_mul_left (hlt.trans_le (hsmall hpool))
      omega
    unfold prpLoop
    rcases hlist.round happ hes hroom with ⟨hnone, halloc, hi⟩ |
      ⟨s₁, s', hnext, hput, hlist', haddr, hlen, hlength', hsg⟩
    · rw [hnone]
      have hslots : pageSize / 8 = 512 := rfl
      refine ⟨true, s, es, pageSize * es.length, rfl, hlist, ⟨?_, le_rfl, ?_⟩, ?_, hlt.le,
        .inr ⟨rfl, ?_, halloc⟩⟩
      · rw [← hdata.done, ← length_flatMap_pages, List.take_length, List.take_left]
      · exact Nat.lt_add_of_pos_right (by decide)
      · exact (Nat.lt_mul_iff_one_lt_right (by decide)).mpr (by omega)
      · rw [Int.natCast_mul, hlength]
    · simp only [hnext, hput, ok_bind]
      by_cases hlast : s'.length ≤ 0
      · rw [if_pos hlast]
        have hmul : pageSize * (es ++ [s.dmaAddr]).length = pageSize * es.length + pageSize := by
          rw [List.length_append, List.length_singleton, Nat.mul_add, Nat.mul_one]
        exact ⟨false, s', _, r, rfl, hlist', ⟨hdata.last (by omega), by omega, by omega⟩, hr, le_rfl,
          .inl ⟨rfl, rfl⟩⟩
      · rw [if_neg hlast]
        obtain ⟨s'', hadvance, hdata', heq⟩ := hdata.next (by omega) haddr hlen hlength' hsg
        rw [hadvance, ok_bind]
        refine ih hdata' ?_ ?_
        · rw [heq]
          exact hlist'.advance _ _ _
        · have hlength'' : s''.length = s'.length := by rw [heq]
          rw [Int.natCast_add, Int.natCast_one, Int.mul_add, Int.mul_one] at hfuel
          omega

end CodingForFun.Nvme
