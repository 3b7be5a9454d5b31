import CodingForFun.Nvme.PrpLists

/-!
# PRP entries from a scatterlist

`setupPrps_bytes`: what the controller reads from the PRP entries of `nvme_setup_prps` is the data of the
scatterlist, as far as the function says it got. `freeIod_exact`: `nvme_free_iod` gives back what it took.
-/

namespace CodingForFun.Nvme

open Lib

theorem Describes.pageBytes {es : List ℕ} {k : ℕ} {all : List ℕ} (h : Describes es k all)
    {mem : ℕ → ℕ} {first : ℕ} (hwalk : walk LastSlot (· + 8) mem es.length first = es) :
    pageBytes (walk LastSlot (· + 8) mem ((k + pageSize - 1) / pageSize) first) k = all.take k := by
  have hn : (k + pageSize - 1) / pageSize = es.length := by
    have hle := h.le
    have hlt := h.lt
    simp only [pageSize] at hle hlt ⊢
    omega
  rw [hn, hwalk, pageBytes_eq, h.bytes]

theorem prpBytes_eq {mem : ℕ → ℕ} {prp1 prp2 len : ℕ} {rest : List ℕ}
    (hlen : pageSize - prp1 % pageSize ≤ len)
    (hrest : prpRest mem prp2 (len - (pageSize - prp1 % pageSize)) =
      rest.take (len - (pageSize - prp1 % pageSize))) :
    prpBytes mem prp1 prp2 len =
      (List.range' prp1 (pageSize - prp1 % pageSize) ++ rest).take len := by
  unfold prpBytes
  simp only [hrest]
  rw [min_eq_right hlen, List.take_append, List.length_range']
  congr 1
  exact (List.take_of_length_le (by rw [List.length_range']; exact hlen)).symm

theorem le_nvmeNpages (size : ℕ) : size ≤ pageSize * (511 * nvmeNpages size) := by
  unfold nvmeNpages divRoundUp
  simp only [pageSize]
  omega

theorem nvmeNpages_pos (size : ℕ) : 0 < nvmeNpages size := by
  unfold nvmeNpages divRoundUp
  simp only [pageSize]
  omega

/-- What `nvme_setup_prps` leaves behind: the list pages are those in the `list` of the `iod`, each of
them leading to the next one. -/
structure ListOk (alloc : Pool → ℕ → Option ℕ) (r : Prps) : Prop where
  alloc : ∀ k (hk : k < r.pages.length), alloc r.pool k = some r.pages[k]
  list : ∀ k (hk : k < r.pages.length), r.list k = r.pages[k]
  chain : ∀ k (hk : k + 1 < r.pages.length),
    r.mem (r.pages[k] + 8 * (pageSize / 8 - 1)) = r.pages[k + 1]
  npages : r.npages = -1 ∧ r.pages = [] ∨
    r.pages.head? = some r.firstDma ∧ (r.pool = .small ∧ r.npages = 0 ∧ r.pages.length = 1 ∨
      r.pool = .page ∧ r.npages = r.pages.length)

theorem ListOk.none (alloc : Pool → ℕ → Option ℕ) {r : Prps} (hnpages : r.npages = -1) (hpages : r.pages = []) :
    ListOk alloc r := by
  refine ⟨fun k hk => ?_, fun k hk => ?_, fun k hk => ?_, .inl ⟨hnpages, hpages⟩⟩ <;>
  · rw [hpages] at hk
    exact absurd hk (Nat.not_lt_zero _)

theorem NoHoles.le_len {seg : Segment} {rest : List Segment} (h : NoHoles (seg :: rest)) {n : ℕ}
    (hn : n ≤ pageSize - seg.addr % pageSize) (hlen : n ≤ (sgBytes (seg :: rest)).length) :
    n ≤ seg.len := by
  obtain ⟨hpos, hend, _⟩ := h
  rcases hend with rfl | hend
  · rw [sgBytes_cons, List.length_append, List.length_range'] at hlen
    exact hlen
  · have hmod : seg.addr % pageSize < pageSize := Nat.mod_lt _ (by decide)
    simp only [pageSize] at hend hmod hn
    omega

theorem NoHoles.take {seg : Segment} {rest : List Segment} (h : NoHoles (seg :: rest)) {n : ℕ}
    (hn : n ≤ pageSize - seg.addr % pageSize) (hlen : n ≤ (sgBytes (seg :: rest)).length) :
    (sgBytes (seg :: rest)).take n = List.range' seg.addr n := by
  have hle := h.le_len hn hlen
  rw [sgBytes_cons, List.take_append_of_le_length (by rwa [List.length_range']), range'_split _ hle]
  exact List.take_left' List.length_range'

theorem prpRest_page {mem : ℕ → ℕ} {seg : Segment} {rest : List Segment}
    (hwhole : WholePages (seg :: rest)) {r : ℕ} (hr : r ≤ pageSize)
    (hlen : r ≤ (sgBytes (seg :: rest)).length) :
    prpRest mem seg.addr r = (sgBytes (seg :: rest)).take r := by
  unfold prpRest
  rw [if_pos hr, hwhole.take hr hlen, pageBytes, pageBytes, List.append_nil, min_eq_left hr]

theorem NoHoles.secondPage {seg : Segment} {rest : List Segment} (h : NoHoles (seg :: rest)) {n : ℕ}
    (hn : n ≤ (sgBytes (seg :: rest)).length) (hmore : pageSize - seg.addr % pageSize < n) :
    ∃ seg' rest', secondPage seg rest (pageSize - seg.addr % pageSize) =
        .ok (seg'.addr, (seg'.len : ℤ), rest') ∧ WholePages (seg' :: rest') ∧
      sgBytes (seg :: rest) =
        List.range' seg.addr (pageSize - seg.addr % pageSize) ++ sgBytes (seg' :: rest') := by
  have hle := h.le_len le_rfl (hmore.le.trans hn)
  obtain ⟨hpos, hend, hwhole⟩ := h
  have hmod : seg.addr % pageSize < pageSize := Nat.mod_lt _ (by decide)
  unfold Nvme.secondPage
  by_cases hrun : (seg.len : ℤ) - (pageSize - seg.addr % pageSize : ℕ) ≠ 0
  · refine ⟨⟨seg.addr + (pageSize - seg.addr % pageSize), seg.len - (pageSize - seg.addr % pageSize)⟩,
      rest, ?_, ⟨?_, ?_, ?_, hwhole⟩, ?_⟩
    · rw [if_pos hrun, Int.ofNat_sub hle]
    · simp only [pageSize] at hmod ⊢
      omega
    · simp only
      omega
    · refine hend.imp_right fun hend => ?_
      simp only [pageSize] at hend hmod ⊢
      omega
    · rw [sgBytes_cons, sgBytes_cons, range'_split _ hle, List.append_assoc]
  · have heq : seg.len = pageSize - seg.addr % pageSize := by omega
    rw [if_neg hrun]
    cases rest with
    | nil =>
      rw [sgBytes_cons, List.length_append, List.length_range'] at hn
      have hnil : (sgBytes []).length = 0 := rfl
      omega
    | cons seg' rest' =>
      refine ⟨seg', rest', rfl, hwhole, ?_⟩
      rw [sgBytes_cons, ← heq]

theorem start_listInv {alloc : ℕ → Option ℕ} {pool : Pool} {page : ℕ} (halloc : alloc 0 = some page)
    {s : PrpState} (hlist : s.list 0 = page) (hnpages : s.npages = if pool = .small then 0 else 1)
    (hprpList : s.prpList = page) (hi : s.i = 0) (hpages : s.pages = [page]) :
    ListInv alloc pool page [] s := by
  have hlen : s.pages.length = 1 := by rw [hpages]; rfl
  refine ⟨⟨[], by rw [hpages, hprpList]; rfl⟩, by rw [hpages]; rfl, ?_, ?_, ?_, ?_, ?_, ?_,
    .inl ⟨rfl, hi, hprpList⟩⟩
  · intro k hk
    obtain rfl : k = 0 := by omega
    simpa [hpages] using halloc
  · intro k hk
    obtain rfl : k = 0 := by omega
    simpa [hpages] using hlist
  · intro k hk
    omega
  · rw [hlen, hnpages]
    cases pool <;> simp
  · rw [hi, Nat.mul_zero]
    exact Nat.zero_le _
  · rw [hi, hlen]
    rfl

theorem prpLoop_list {alloc : ℕ → Option ℕ} {pool : Pool} (happ : PagesApart alloc pool) (mem : ℕ → ℕ)
    {seg : Segment} {rest : List Segment} (hwhole : WholePages (seg :: rest)) {totalLen r : ℕ}
    (hr : pageSize < r) (htotal : r ≤ totalLen) (hlen : r ≤ (sgBytes (seg :: rest)).length)
    (hpool : pool = if divRoundUp r pageSize ≤ 256 / 8 then .small else .page) {page : ℕ}
    (halloc : alloc 0 = some page) (list : ℕ → ℕ) :
    ∃ failed s k, prpLoop alloc pool (nvmeNpages totalLen) (divRoundUp r pageSize)
        ⟨mem, Function.update list 0 page, if divRoundUp r pageSize ≤ 256 / 8 then 0 else 1, page, 0,
          seg.len, seg.addr, r, rest, [page]⟩ = .ok (failed, s) ∧
      (∃ es, ListInv alloc pool page es s) ∧
      prpRest s.mem page k = (sgBytes (seg :: rest)).take k ∧ pageSize < k ∧ k ≤ r ∧
      (failed = false ∧ k = r ∨
        failed = true ∧ s.length + k = r ∧ alloc s.pages.length = none) := by
  have hnprps : r ≤ pageSize * divRoundUp r pageSize := by
    unfold divRoundUp
    simp only [pageSize]
    omega
  obtain ⟨s₀, hs₀⟩ : ∃ s₀ : PrpState, s₀ = ⟨mem, Function.update list 0 page,
      if divRoundUp r pageSize ≤ 256 / 8 then 0 else 1, page, 0, seg.len, seg.addr, r, rest, [page]⟩ :=
    ⟨_, rfl⟩
  have hlist : ListInv alloc pool page [] s₀ := by
    subst hs₀
    refine start_listInv halloc (Function.update_self 0 page list) ?_ rfl rfl rfl
    rw [hpool]
    split <;> rfl
  have hdata : DataInv (sgBytes (seg :: rest)) r [] s₀ := by
    subst hs₀
    refine ⟨hwhole, rfl, ?_, by simp only; omega, hlen⟩
    simp only [List.length_nil]
    omega
  have hsmall : pool = .small → r ≤ pageSize * 32 := by
    intro hpoolSmall
    by_contra hnot
    rw [hpool, if_neg fun hle => hnot (hnprps.trans (Nat.mul_le_mul_left _ hle))] at hpoolSmall
    cases hpoolSmall
  have hfuel : s₀.length ≤ pageSize * (divRoundUp r pageSize : ℕ) := by
    subst hs₀
    simp only
    omega
  obtain ⟨failed, s, es, k, hloop, hlist', hdesc, hk, hkr, hcases⟩ := prpLoop_ok happ
    (htotal.trans (le_nvmeNpages totalLen)) hsmall hr _ hdata hlist hfuel
  refine ⟨failed, s, k, hs₀ ▸ hloop, ⟨es, hlist'⟩, ?_, hk, hkr, hcases⟩
  obtain ⟨reads, hfilled, _⟩ := (hlist'.filled.resolve_left fun hnil => by
    have hle := hdesc.le
    rw [hnil.1, List.length_nil] at hle
    omega).2
  unfold prpRest
  rw [if_neg (by omega), hdesc.pageBytes hfilled.walk]

theorem ListInv.listOk {alloc : Pool → ℕ → Option ℕ} {pool : Pool} {page : ℕ} {es : List ℕ}
    {s : PrpState} (h : ListInv (alloc pool) pool page es s) (prp1 : ℕ) (returned : ℤ) :
    ListOk alloc ⟨prp1, page, returned, s.npages, page, s.list, s.mem, pool, s.pages⟩ := by
  refine ⟨h.alloc, h.list, h.chain, .inr ⟨h.head, h.npages.imp ?_ ?_⟩⟩
  · exact fun ⟨hpool, hnpages, hlen⟩ => ⟨hpool, congrArg _ hnpages, hlen⟩
  · exact fun ⟨hpool, hnpages⟩ => ⟨hpool, congrArg _ hnpages⟩

/-- `nvme_setup_prps` never faults on a scatterlist without holes that is long enough. The controller
reads the first `returned` bytes of the data from the PRP entries, which are all the bytes unless the next page
that the list asked its pool for could not be had. -/
theorem setupPrps_spec {alloc : Pool → ℕ → Option ℕ} (happ : ∀ pool, PagesApart (alloc pool) pool) (mem : ℕ → ℕ)
    {sg : List Segment} (hsg : NoHoles sg) {totalLen : ℕ} (hpos : 0 < totalLen)
    (hlen : totalLen ≤ (sgBytes sg).length) :
    ∃ r, nvmeSetupPrps alloc (nvmeNpages totalLen) mem sg totalLen = .ok r ∧ ListOk alloc r ∧
      ∃ n : ℕ, r.returned = n ∧ 0 < n ∧ n ≤ totalLen ∧
        (n = totalLen ∨ alloc r.pool r.pages.length = none) ∧
        prpBytes r.mem r.prp1 r.prp2 n = (sgBytes sg).take n := by
  cases sg with
  | nil => exact hsg.elim
  | cons seg rest =>
    unfold nvmeSetupPrps
    simp only [sgNext, ok_bind]
    by_cases hone : (totalLen : ℤ) - (pageSize - seg.addr % pageSize : ℕ) ≤ 0
    · -- everything is on the first page
      have hfirst : totalLen ≤ pageSize - seg.addr % pageSize := by omega
      rw [if_pos hone]
      refine ⟨_, rfl, .none alloc rfl rfl, totalLen, rfl, hpos, le_rfl, .inl rfl, ?_⟩
      show prpBytes mem seg.addr 0 totalLen = _
      unfold prpBytes prpRest
      simp only [min_eq_left hfirst, Nat.sub_eq_zero_of_le hfirst]
      rw [hsg.take hfirst hlen, if_pos (Nat.zero_le _)]
      exact List.append_nil _
    · rw [if_neg hone]
      obtain ⟨seg', rest', hsecond, hwhole, hbytes⟩ := hsg.secondPage hlen (by omega)
      rw [hsecond, ok_bind]
      have hfirst : 0 < pageSize - seg.addr % pageSize := Nat.sub_pos_of_lt (Nat.mod_lt _ (by decide))
      generalize hf : pageSize - seg.addr % pageSize = first at *
      obtain ⟨r, rfl⟩ : ∃ r, totalLen = first + r := ⟨totalLen - first, by omega⟩
      have hr : ((first + r : ℕ) : ℤ) - (first : ℕ) = r := by omega
      have hlen' : r ≤ (sgBytes (seg' :: rest')).length := by
        rw [hbytes, List.length_append, List.length_range'] at hlen
        omega
      simp only [hr, Int.toNat_natCast]
      have hread : ∀ {mem' : ℕ → ℕ} {prp2 k : ℕ},
          prpRest mem' prp2 k = (sgBytes (seg' :: rest')).take k →
          prpBytes mem' seg.addr prp2 (first + k) = (sgBytes (seg :: rest)).take (first + k) := by
        intro mem' prp2 k hrest
        rw [hbytes, ← hf]
        refine prpBytes_eq (Nat.le_add_right _ _) ?_
        rwa [Nat.add_sub_cancel_left]
      by_cases htwo : (r : ℤ) ≤ pageSize
      · rw [if_pos htwo]
        exact ⟨_, rfl, .none alloc rfl rfl, first + r, rfl, hpos, le_rfl, .inl rfl,
          hread (prpRest_page hwhole (by omega) hlen')⟩
      · rw [if_neg htwo]
        cases halloc : alloc (if divRoundUp r pageSize ≤ 256 / 8 then .small else .page) 0 with
        | none =>
          refine ⟨_, rfl, .none alloc rfl rfl, first + pageSize, ?_, by omega, by omega,
            .inr halloc,
            hread (prpRest_page hwhole le_rfl (by omega))⟩
          simp only
          omega
        | some page =>
          obtain ⟨failed, s, k, hloop, ⟨es, hlist⟩, hrest, hk, hkr, hcases⟩ := prpLoop_list
            (happ _) mem hwhole (by omega) (Nat.le_add_left r first) hlen' rfl halloc fun _ => 0
          simp only [putList_ok (nvmeNpages_pos _), ok_bind, hloop]
          refine ⟨_, rfl, hlist.listOk _ _, first + k, ?_, by omega, by omega, ?_, hread hrest⟩
          · rcases hcases with ⟨rfl, rfl⟩ | ⟨rfl, hlength, _⟩
            · rfl
            · simp only [if_true]
              omega
          · rcases hcases with ⟨_, rfl⟩ | ⟨_, _, hnone⟩
            · exact .inl rfl
            · exact .inr hnone

/-- `nvme_setup_prps` never faults on a scatterlist without holes that is long enough. The controller
reads the first `n` bytes of the data from the PRP entries, where `n` is what the function returns: all
that was asked for, unless the next page that the list asked its pool for could not be had. -/
theorem setupPrps_bytes {alloc : Pool → ℕ → Option ℕ} (happ : ∀ pool, PagesApart (alloc pool) pool)
    (mem : ℕ → ℕ) {sg : List Segment} (hsg : NoHoles sg) {totalLen : ℕ} (hpos : 0 < totalLen)
    (hlen : totalLen ≤ (sgBytes sg).length) :
    ∃ r, nvmeSetupPrps alloc (nvmeNpages totalLen) mem sg totalLen = .ok r ∧
      ∃ n : ℕ, r.returned = n ∧ 0 < n ∧ n ≤ totalLen ∧
        (n = totalLen ∨ alloc r.pool r.pages.length = none) ∧
        prpBytes r.mem r.prp1 r.prp2 n = (sgBytes sg).take n := by
  obtain ⟨r, hr, _, hn⟩ := setupPrps_spec happ mem hsg hpos hlen
  exact ⟨r, hr, hn⟩

theorem pagesApart_row (pool : Pool) : PagesApart (fun k => some (pageSize * (k + 1))) pool := by
  refine ⟨fun k page h => ?_, fun k k' page h h' => ?_⟩
  · obtain rfl := Option.some.inj h
    cases pool <;> simp only [Pool.size, pageSize] <;> omega
  · have heq := Option.some.inj (h.trans h'.symm)
    simp only [pageSize] at heq
    omega

/-- Four pages, the first and the last of them in part. -/
def fourPages : List Segment := [⟨409600 + 3096, 1000 + 8192⟩, ⟨81920, 808⟩]

theorem fourPages_noHoles : NoHoles fourPages :=
  ⟨by decide, .inr (by decide), by decide, by decide, .inl rfl, trivial⟩

theorem length_fourPages : 10000 ≤ (sgBytes fourPages).length := by
  unfold fourPages
  rw [sgBytes_cons, List.length_append, List.length_range', sgBytes_cons, List.length_append,
    List.length_range']
  show 10000 ≤ 9192 + (808 + 0)
  decide

theorem setupPrps_bytes_fourPages : ∃ r,
    nvmeSetupPrps (fun _ k => some (pageSize * (k + 1))) (nvmeNpages 10000) (fun _ => 0) fourPages 10000 =
      .ok r ∧ ∃ n : ℕ, r.returned = n ∧ 0 < n := by
  obtain ⟨r, hr, n, hn, hpos, _⟩ := setupPrps_bytes (fun pool => pagesApart_row pool) (fun _ => 0)
    fourPages_noHoles (show 0 < 10000 by decide) length_fourPages
  exact ⟨r, hr, n, hn, hpos⟩

/-! ## `nvme_free_iod` -/

theorem freePages_eq {alloc : Pool → ℕ → Option ℕ} {r : Prps} (h : ListOk alloc r) (n : ℕ) :
    ∀ {i prpDma : ℕ}, i + n = r.pages.length → (∀ h : i < r.pages.length, prpDma = r.pages[i]) →
        freePages r.mem r.list n i prpDma = (r.pages.drop i).map fun page => (.page, page, page) := by
  induction n with
  | zero =>
    intro i prpDma hi _
    rw [List.drop_eq_nil_of_le (by omega)]
    rfl
  | succ n ih =>
    intro i prpDma hi hdma
    have hlt : i < r.pages.length := by omega
    rw [freePages, List.drop_eq_getElem_cons hlt, List.map_cons, h.list i hlt, hdma hlt]
    refine congrArg _ (ih (by omega) fun hnext => ?_)
    exact h.chain i hnext

/-- `nvme_free_iod` gives every page back to the pool that it was taken from, once and with its own DMA
address. -/
theorem freeIod_eq {alloc : Pool → ℕ → Option ℕ} {r : Prps} (h : ListOk alloc r) :
    nvmeFreeIod r = r.pages.map fun page => (r.pool, page, page) := by
  unfold nvmeFreeIod
  rcases h.npages with ⟨hnpages, hpages⟩ | ⟨hhead, ⟨hpool, hnpages, hlen⟩ | ⟨hpool, hnpages⟩⟩
  · rw [hnpages, hpages]
    rfl
  · obtain ⟨page, hpages⟩ := List.length_eq_one_iff.mp hlen
    rw [hpages] at hhead
    have hfirst : page = r.firstDma := Option.some.inj hhead
    have hlist : r.list 0 = r.firstDma := by
      rw [h.list 0 (by omega), ← hfirst]
      simp [hpages]
    rw [hnpages, hpages, if_pos rfl, hlist, hpool, hfirst]
    rfl
  · have hpos : 0 < r.pages.length := by
      rw [List.length_pos_iff]
      rintro hnil
      rw [hnil] at hhead
      cases hhead
    rw [hnpages, if_neg (by omega), List.nil_append, Int.toNat_natCast, hpool]
    rw [freePages_eq h _ (Nat.zero_add _) fun hlt => ?_, List.drop_zero]
    rw [List.head?_eq_getElem?, List.getElem?_eq_getElem hlt] at hhead
    exact (Option.some.inj hhead).symm

/-- `nvme_free_iod` after `nvme_setup_prps`, also after one that has failed: exactly the pages that were
taken are given back, to their pool and with their DMA addresses. -/
theorem freeIod_exact {alloc : Pool → ℕ → Option ℕ} (happ : ∀ pool, PagesApart (alloc pool) pool)
    (mem : ℕ → ℕ) {sg : List Segment} (hsg : NoHoles sg) {totalLen : ℕ} (hpos : 0 < totalLen)
    (hlen : totalLen ≤ (sgBytes sg).length) {r : Prps}
    (hr : nvmeSetupPrps alloc (nvmeNpages totalLen) mem sg totalLen = .ok r) :
    nvmeFreeIod r = r.pages.map (fun page => (r.pool, page, page)) ∧
      ∀ k (hk : k < r.pages.length), alloc r.pool k = some r.pages[k] := by
  obtain ⟨r', hr', hlist, _⟩ := setupPrps_spec happ mem hsg hpos hlen
  obtain rfl := Except.ok.inj (hr.symm.trans hr')
  exact ⟨freeIod_eq hlist, hlist.alloc⟩

theorem freeIod_exact_fourPages : ∃ r,
    nvmeSetupPrps (fun _ k => some (pageSize * (k + 1))) (nvmeNpages 10000) (fun _ => 0) fourPages 10000 =
      .ok r ∧ nvmeFreeIod r = r.pages.map fun page => (r.pool, page, page) := by
  obtain ⟨r, hr, _⟩ := setupPrps_spec (fun pool => pagesApart_row pool) (fun _ => 0)
    fourPages_noHoles (show 0 < 10000 by decide) length_fourPages
  exact ⟨r, hr, (freeIod_exact (fun pool => pagesApart_row pool) (fun _ => 0) fourPages_noHoles
    (by decide) length_fourPages hr).1⟩

end CodingForFun.Nvme
