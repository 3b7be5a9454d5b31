import CodingForFun.Nvme.Iod

/-!
# Commands with user buffers

`nvme_submit_io` pins the pages of a user buffer, maps them for DMA, describes them with PRP entries, and
hands the command to the controller. Two allocations of `nvme_map_user_pages` are used unchecked (`Unchecked`).
Whatever else fails on the way, every page is given back, and a command that reaches the controller describes
the whole buffer.
-/

namespace CodingForFun.Nvme

open Lib

/-- What a call of `nvme_submit_io` meets: whether `kcalloc` and `nvme_alloc_iod` succeed, the pages that
`get_user_pages_fast` pins, the DMA addresses of pages, whether `dma_map_sg` succeeds, the answers of
`dma_pool_alloc`, what `alloc_cmdid_killable` returns, and what `nvme_submit_sync_cmd` does if it has got an id. -/
structure Env where
  pages : Bool
  iod : Bool
  pinned : List ℕ
  dma : ℕ → ℕ
  mapped : Bool
  alloc : Pool → ℕ → Option ℕ
  mem : ℕ → ℕ
  cmdid : ℤ
  syncStatus : ℤ

/-- The status, the command that is handed to the controller, and what is given back: the pages of the
user and the pages of the list. `pinned`, `pool` and `taken` record the pages that were pinned, where the pages of
the list are asked for, and those it has used. -/
structure IoResult where
  status : ℤ
  submitted : Option Prps
  pinned : List ℕ
  put : List ℕ
  pool : Pool
  taken : List (Pool × ℕ)
  freed : List (Pool × ℕ × ℕ)

/-- What `nvme_map_user_pages` returns, an error or the scatterlist, and the pages that it has pinned and put. -/
structure Mapped where
  iod : Except ℤ (List Segment)
  pinned : List ℕ
  put : List ℕ

/-- The loop of `nvme_map_user_pages` that fills the scatterlist; the pages are mapped. -/
def fillSg (dma : ℕ → ℕ) : List ℕ → ℕ → ℕ → List Segment
  | [], _, _ => []
  | page :: pages, length, offset =>
    ⟨dma page + offset, min length (pageSize - offset)⟩ ::
      fillSg dma pages (length - (pageSize - offset)) 0

/-- `nvme_map_user_pages`. Neither `pages` nor `iod` is compared with the null pointer. -/
def nvmeMapUserPages (env : Env) (addr length : ℕ) : Except Fault Mapped :=
  if addr % 4 ≠ 0 then .ok ⟨.error (-22), [], []⟩
  else if length = 0 then .ok ⟨.error (-22), [], []⟩
  else
    let offset := addr % pageSize
    let count := divRoundUp (offset + length) pageSize
    -- `get_user_pages_fast` stores the pages that it has pinned
    if env.pages = false ∧ env.pinned ≠ [] then .error .outOfBounds
    else if env.pinned.length < count then .ok ⟨.error (-14), env.pinned, env.pinned⟩
    -- `sg_init_table` clears the scatterlist
    else if env.iod = false then .error .outOfBounds
    else
      let sg := fillSg env.dma (env.pinned.take count) length offset
      if env.mapped then .ok ⟨.ok sg, env.pinned, []⟩
      else .ok ⟨.error (-12), env.pinned, env.pinned.take count⟩

/-- `nvme_submit_io` behind `copy_from_user`, for `length` bytes at `addr`. -/
def nvmeSubmitIo (env : Env) (known : Bool) (addr length : ℕ) : Except Fault IoResult :=
  if known = false then pure ⟨-22, none, [], [], .small, [], []⟩
  else do
    let mapped ← nvmeMapUserPages env addr length
    match mapped.iod with
    | .error err => pure ⟨err, none, mapped.pinned, mapped.put, .small, [], []⟩
    | .ok sg =>
      let prps ← nvmeSetupPrps env.alloc (nvmeNpages length) env.mem sg length
      let (status, submitted) :=
        if prps.returned ≠ length then (-12, none)
        else if env.cmdid < 0 then (env.cmdid, none)
        else (env.syncStatus, some prps)
      pure {
        status, submitted
        pinned := mapped.pinned
        put := mapped.put ++ env.pinned.take sg.length
        pool := prps.pool
        taken := prps.pages.map fun page => (prps.pool, page)
        freed := nvmeFreeIod prps }

/-! ## The scatterlist of a buffer -/

/-- Where byte `j` of a buffer is that starts at `offset` in the first of its pages. -/
def byteAddr (dma : ℕ → ℕ) (pages : List ℕ) (offset j : ℕ) : ℕ :=
  dma (pages.getD ((offset + j) / pageSize) 0) + (offset + j) % pageSize

theorem length_fillSg (dma : ℕ → ℕ) (pages : List ℕ) (length offset : ℕ) :
    (fillSg dma pages length offset).length = pages.length := by
  induction pages generalizing length offset with
  | nil => rfl
  | cons page pages ih => rw [fillSg, List.length_cons, ih, List.length_cons]

theorem fillSg_bytes (dma : ℕ → ℕ) (pages : List ℕ) {length offset : ℕ} (hoffset : offset < pageSize)
    (hpages : offset + length ≤ pageSize * pages.length) :
    sgBytes (fillSg dma pages length offset) =
      (List.range length).map (byteAddr dma pages offset) := by
  induction pages generalizing length offset with
  | nil =>
    obtain rfl : length = 0 := by
      rw [List.length_nil, Nat.mul_zero] at hpages
      omega
    rfl
  | cons page pages ih =>
    rw [List.length_cons, Nat.mul_add, Nat.mul_one] at hpages
    rw [fillSg, sgBytes_cons, ih (by decide) (by omega)]
    obtain ⟨k, hk⟩ : ∃ k, k = min length (pageSize - offset) := ⟨_, rfl⟩
    have hrest : length - (pageSize - offset) = length - k := by omega
    rw [← hk, hrest, show List.range length = List.range (k + (length - k)) by congr 1; omega,
      List.range_add, List.map_append, List.map_map]
    congr 1
    · -- the bytes on the first page
      rw [List.range'_eq_map_range]
      apply List.map_congr_left
      intro j hj
      have hj := List.mem_range.mp hj
      simp only at hj
      have hlt : offset + j < pageSize := by omega
      unfold byteAddr
      rw [Nat.div_eq_of_lt hlt, Nat.mod_eq_of_lt hlt, List.getD_cons_zero]
      exact Nat.add_assoc _ _ _
    · apply List.map_congr_left
      intro j hj
      have hj := List.mem_range.mp hj
      have hsum : offset + (k + j) = 0 + j + pageSize := by omega
      unfold byteAddr
      simp only [Function.comp_apply]
      rw [hsum, Nat.add_div_right _ (by decide), Nat.add_mod_right, List.getD_cons_succ]

theorem fillSg_wholePages {dma : ℕ → ℕ} (hdma : ∀ page, dma page % pageSize = 0) (pages : List ℕ)
    {length : ℕ} (hlow : pageSize * pages.length < length + pageSize) :
    WholePages (fillSg dma pages length 0) := by
  induction pages generalizing length with
  | nil => trivial
  | cons page pages ih =>
    rw [List.length_cons, Nat.mul_add, Nat.mul_one] at hlow
    rw [fillSg, Nat.sub_zero, Nat.add_zero]
    refine ⟨hdma page, ?_, ?_, ?_⟩
    · have hpos : 0 < pageSize := by decide
      simp only
      omega
    · cases pages with
      | nil => exact .inl rfl
      | cons page' pages =>
        rw [List.length_cons, Nat.mul_add, Nat.mul_one] at hlow
        right
        rw [min_eq_right (by omega), Nat.mod_self]
    · cases pages with
      | nil => trivial
      | cons page' pages =>
        rw [List.length_cons, Nat.mul_add, Nat.mul_one] at hlow
        exact ih (by rw [List.length_cons, Nat.mul_add, Nat.mul_one]; omega)

theorem fillSg_noHoles {dma : ℕ → ℕ} (hdma : ∀ page, dma page % pageSize = 0) {pages : List ℕ}
    {length offset : ℕ} (hoffset : offset < pageSize) (hlength : 0 < length)
    (hpages : offset + length ≤ pageSize * pages.length)
    (hlow : pageSize * pages.length < offset + length + pageSize) :
    NoHoles (fillSg dma pages length offset) := by
  cases pages with
  | nil =>
    rw [List.length_nil, Nat.mul_zero] at hpages
    omega
  | cons page pages =>
    rw [List.length_cons, Nat.mul_add, Nat.mul_one] at hlow
    refine ⟨?_, ?_, ?_⟩
    · simp only
      omega
    · cases pages with
      | nil => exact .inl rfl
      | cons page' pages =>
        rw [List.length_cons, Nat.mul_add, Nat.mul_one] at hlow
        right
        simp only
        rw [min_eq_right (by omega), Nat.add_assoc, Nat.add_sub_cancel' hoffset.le, Nat.add_mod_right, hdma]
    · cases pages with
      | nil => trivial
      | cons page' pages =>
        rw [List.length_cons, Nat.mul_add, Nat.mul_one] at hlow
        exact fillSg_wholePages hdma _ (by rw [List.length_cons, Nat.mul_add, Nat.mul_one]; omega)

/-! ## The call -/

/-- The arguments are good. -/
def Wellformed (known : Bool) (addr length : ℕ) : Prop := known = true ∧ addr % 4 = 0 ∧ length ≠ 0

instance (known : Bool) (addr length : ℕ) : Decidable (Wellformed known addr length) :=
  inferInstanceAs (Decidable (_ ∧ _ ∧ _))

/-- An allocation fails whose result is used unchecked. -/
def Unchecked (env : Env) (known : Bool) (addr length : ℕ) : Prop :=
  Wellformed known addr length ∧ (env.pages = false ∧ env.pinned ≠ [] ∨
    divRoundUp (addr % pageSize + length) pageSize ≤ env.pinned.length ∧ env.iod = false)

theorem submitIo_unchecked {env : Env} {known : Bool} {addr length : ℕ} (h : Unchecked env known addr length) :
    nvmeSubmitIo env known addr length = .error .outOfBounds := by
  obtain ⟨⟨rfl, haddr, hlength⟩, hfails⟩ := h
  unfold nvmeSubmitIo nvmeMapUserPages
  rw [if_neg (by decide), if_neg (not_not.mpr haddr), if_neg hlength]
  by_cases hpages : env.pages = false ∧ env.pinned ≠ []
  · simp only [if_pos hpages, error_bind]
  · obtain ⟨hcount, hiod⟩ := hfails.resolve_left hpages
    simp only [if_neg hpages, if_neg (not_lt.mpr hcount), if_pos hiod, error_bind]

theorem submitIo_malformed (env : Env) {known : Bool} {addr length : ℕ} (h : ¬ Wellformed known addr length) :
    nvmeSubmitIo env known addr length = .ok ⟨-22, none, [], [], .small, [], []⟩ := by
  unfold nvmeSubmitIo nvmeMapUserPages
  by_cases hknown : known = false
  · rw [if_pos hknown]
    rfl
  rw [if_neg hknown]
  by_cases haddr : addr % 4 ≠ 0
  · simp only [if_pos haddr, ok_bind, pure_eq_ok]
  · have hlength : length = 0 := by
      by_contra hlength
      exact h ⟨Bool.of_not_eq_false hknown, not_not.mp haddr, hlength⟩
    simp only [if_neg haddr, if_pos hlength, ok_bind, pure_eq_ok]

/-- The PRP entries of a buffer whose pages are all pinned. -/
theorem setupPrps_fillSg (env : Env) {addr length : ℕ} (hlength : length ≠ 0)
    (hlen : env.pinned.length = divRoundUp (addr % pageSize + length) pageSize)
    (hdma : ∀ page, env.dma page % pageSize = 0) (happ : ∀ pool, PagesApart (env.alloc pool) pool) :
    ∃ prps, nvmeSetupPrps env.alloc (nvmeNpages length) env.mem
        (fillSg env.dma env.pinned length (addr % pageSize)) length = .ok prps ∧
      nvmeFreeIod prps = prps.pages.map (fun page => (prps.pool, page, page)) ∧
      (prps.returned = length → prpBytes prps.mem prps.prp1 prps.prp2 length =
        (List.range length).map (byteAddr env.dma env.pinned (addr % pageSize))) ∧
      (prps.returned ≠ length → env.alloc prps.pool prps.pages.length = none) := by
  have hoffset : addr % pageSize < pageSize := Nat.mod_lt _ (by decide)
  have hpages : addr % pageSize + length ≤ pageSize * env.pinned.length ∧
      pageSize * env.pinned.length < addr % pageSize + length + pageSize := by
    rw [hlen]
    unfold divRoundUp
    simp only [pageSize]
    omega
  have hbytes := fillSg_bytes env.dma env.pinned hoffset hpages.1
  have hpos := Nat.pos_of_ne_zero hlength
  obtain ⟨prps, hprps, hlist, n, hreturned, _, _, hnone, hread⟩ := setupPrps_spec happ env.mem
    (fillSg_noHoles hdma hoffset hpos hpages.1 hpages.2) hpos
    (show length ≤ _ by rw [hbytes, List.length_map, List.length_range])
  refine ⟨prps, hprps, freeIod_eq hlist, fun hall => ?_, fun hshort => ?_⟩
  · obtain rfl : n = length := by omega
    rw [hread, hbytes]
    exact List.take_of_length_le (by rw [List.length_map, List.length_range])
  · exact hnone.resolve_left fun hn => hshort (by rw [hreturned, hn])

/-- The call crashes if `kcalloc` or `nvme_alloc_iod` fails where the result is used. Otherwise every page that is
pinned is put and every page of the list is freed, in its pool and with its own DMA address, whatever fails; what
the controller is handed describes the bytes of the buffer, all of them and in order; and it is handed something
unless the arguments are bad, a page of the buffer cannot be pinned or mapped, the next page for the list is missing,
or the wait for a command id is interrupted. -/
theorem submitIo_exact (env : Env) (known : Bool) (addr length : ℕ)
    (hpinned : env.pinned.length ≤ divRoundUp (addr % pageSize + length) pageSize)
    (hdma : ∀ page, env.dma page % pageSize = 0) (happ : ∀ pool, PagesApart (env.alloc pool) pool) :
    (Unchecked env known addr length → nvmeSubmitIo env known addr length = .error .outOfBounds) ∧
    (¬ Unchecked env known addr length → ∃ result, nvmeSubmitIo env known addr length = .ok result ∧
      result.put = result.pinned ∧
      result.pinned = (if Wellformed known addr length then env.pinned else []) ∧
      result.freed = result.taken.map (fun taken => (taken.1, taken.2, taken.2)) ∧
      (∀ prps, result.submitted = some prps →
        prpBytes prps.mem prps.prp1 prps.prp2 length =
          (List.range length).map (byteAddr env.dma env.pinned (addr % pageSize))) ∧
      (result.submitted = none → ¬ Wellformed known addr length ∨
        env.pinned.length < divRoundUp (addr % pageSize + length) pageSize ∨ env.mapped = false ∨
        env.alloc result.pool result.taken.length = none ∨ env.cmdid < 0)) := by
  refine ⟨submitIo_unchecked, fun hchecked => ?_⟩
  by_cases hwell : Wellformed known addr length
  swap
  · refine ⟨_, submitIo_malformed env hwell, rfl, (if_neg hwell).symm, rfl, nofun, fun _ => .inl hwell⟩
  obtain ⟨hpages, hiod⟩ := not_or.mp fun hfails => hchecked ⟨hwell, hfails⟩
  simp only [if_pos hwell]
  obtain ⟨rfl, haddr, hlength⟩ := hwell
  unfold nvmeSubmitIo nvmeMapUserPages
  rw [if_neg (by decide), if_neg (not_not.mpr haddr), if_neg hlength]
  simp only [if_neg hpages]
  by_cases hcount : env.pinned.length < divRoundUp (addr % pageSize + length) pageSize
  · rw [if_pos hcount]
    exact ⟨_, rfl, rfl, rfl, rfl, nofun, fun _ => .inr (.inl hcount)⟩
  rw [if_neg hcount, if_neg fun hfails => hiod ⟨not_lt.mp hcount, hfails⟩]
  have hlen : env.pinned.length = divRoundUp (addr % pageSize + length) pageSize :=
    le_antisymm hpinned (not_lt.mp hcount)
  simp only [← hlen, List.take_length]
  by_cases hmapped : env.mapped = true
  swap
  · rw [if_neg hmapped]
    exact ⟨_, rfl, rfl, rfl, rfl, nofun, fun _ => .inr (.inr (.inl (Bool.eq_false_iff.mpr hmapped)))⟩
  rw [if_pos hmapped]
  obtain ⟨prps, hprps, hfree, hread, hnone⟩ := setupPrps_fillSg env hlength hlen hdma happ
  simp only [hprps, ok_bind, length_fillSg, List.take_length, List.nil_append]
  refine ⟨_, rfl, rfl, rfl, ?_, ?_⟩
  · rw [hfree, List.map_map]
    rfl
  -- the ends of the call: the next page for the list is missing, the wait is interrupted, the command is handed over
  by_cases hall : prps.returned = length
  swap
  · simp only [if_pos hall]
    exact ⟨nofun, fun _ => .inr (.inr (.inr (.inl (by rw [List.length_map]; exact hnone hall))))⟩
  simp only [if_neg (not_not.mpr hall)]
  by_cases hcmdid : env.cmdid < 0
  · simp only [if_pos hcmdid]
    exact ⟨nofun, fun _ => .inr (.inr (.inr (.inr hcmdid)))⟩
  · simp only [if_neg hcmdid]
    refine ⟨fun prps' hsubmitted => ?_, nofun⟩
    obtain rfl := Option.some.inj hsubmitted
    exact hread hall

/-- A buffer of three pages that begins and ends inside a page. -/
theorem submitIo_exact_threePages : ∃ result,
    nvmeSubmitIo ⟨true, true, [7, 3, 9], fun page => pageSize * page, true, fun _ k => some (pageSize * (k + 1)),
      fun _ => 0, 0, 0⟩ true 1000 8000 = .ok result ∧ result.submitted ≠ none := by
  have hwell : Wellformed true 1000 8000 := by decide
  obtain ⟨result, hresult, _, _, _, _, hnone⟩ := (submitIo_exact ⟨true, true, [7, 3, 9],
    fun page => pageSize * page, true, fun _ k => some (pageSize * (k + 1)), fun _ => 0, 0, 0⟩ true 1000 8000
    (by decide) (fun page => Nat.mul_mod_right pageSize page) (fun pool => pagesApart_row pool)).2
    (by rintro ⟨_, ⟨h, _⟩ | ⟨_, h⟩⟩ <;> cases h)
  refine ⟨result, hresult, fun hsubmitted => ?_⟩
  rcases hnone hsubmitted with h | h | h | h | h
  · exact h hwell
  · exact absurd h (by decide)
  · cases h
  · cases h
  · exact absurd h (by decide)

end CodingForFun.Nvme
