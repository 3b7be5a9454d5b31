import CodingForFun.Lib.Threads
import CodingForFun.Mmap.Driver

/-!
# Who refers to what

`Inv` lists the open files with the `mmap_info` and the page of each, all different, and counts: the references
to files and pages are those of the descriptors, mappings and entries, and `reference` has been raised for each
mapping. Each step keeps it, with or without the file that a last `fput` releases (`Inv.fput`).
-/

namespace CodingForFun.Mmap

open Lib

/-- An open file and what it owns. -/
structure Opened where
  file : ℕ
  info : ℕ
  page : ℕ

/-- The pages that the entries of all mappings refer to. -/
def State.mapped (s : State) : Multiset ℕ := s.vmas.bind fun v => (v.pages : Multiset ℕ)

/-- The `mmap_info` that the mappings refer to. -/
def State.privates (s : State) : Multiset (Option ℕ) := s.vmas.map Vma.vmPrivateData

/-- The files that descriptors and mappings refer to. -/
def State.files (s : State) : Multiset ℕ := s.fds + s.vmas.map Vma.vmFile

/-- The `mmap_info` of the file: `reference` has been raised from what it was. -/
def Refers (infos : ℕ → Option MmapInfo) (privates : Multiset (Option ℕ)) (o : Opened) : Prop :=
  ∃ info, infos o.info = some info ∧ info.data = some o.page ∧
    info.reference = info.found + BitVec.ofNat 32 (privates.count (some o.info))

/-- A mapping of the file. -/
structure Maps (o : Opened) (v : Vma) : Prop where
  file : v.vmFile = o.file
  info : v.vmPrivateData = some o.info
  page : ∀ pte ∈ v.ptes, pte.2 = o.page

/-- The files of the list are open. The references to files, the entries and the mappings are given apart from
the state, which is ahead of them or behind within a step. -/
structure Inv (opens : Multiset Opened) (refs mapped : Multiset ℕ) (privates : Multiset (Option ℕ))
    (s : State) : Prop where
  files : Counted s.fileCount refs
  pages : Counted s.pageCount (opens.map Opened.page + mapped)
  nodupFiles : (opens.map Opened.file).Nodup
  nodupInfos : (opens.map Opened.info).Nodup
  nodupPages : (opens.map Opened.page).Nodup
  privateData : ∀ o ∈ opens, s.privateData o.file = some o.info
  refers : ∀ o ∈ opens, Refers s.infos privates o
  owned : ∀ a, s.infos a ≠ none → a ∈ opens.map Opened.info
  mem_iff : ∀ f, f ∈ refs ↔ f ∈ opens.map Opened.file
  maps : ∀ v ∈ s.vmas, ∃ o ∈ opens, Maps o v

/-- Between steps the three are those of the state. -/
def Lists (opens : Multiset Opened) (s : State) : Prop := Inv opens s.files s.mapped s.privates s

variable {s : State} {opens : Multiset Opened} {refs mapped : Multiset ℕ} {o : Opened} {v : Vma} {file : ℕ}
  {infos : ℕ → Option MmapInfo} {privates : Multiset (Option ℕ)} {info : MmapInfo}

theorem Lists.initial : Lists 0 initial := by
  refine ⟨Counted.zero, Counted.zero, Multiset.nodup_zero, Multiset.nodup_zero, Multiset.nodup_zero,
    fun _ ho => ?_, fun _ ho => ?_, fun _ ha => absurd rfl ha, fun _ => Iff.rfl, fun _ hv => ?_⟩
  · exact absurd ho (Multiset.notMem_zero _)
  · exact absurd ho (Multiset.notMem_zero _)
  · exact absurd hv (Multiset.notMem_zero _)

/-! ### Pieces of mappings -/

theorem Maps.keep (h : Maps o v) (kept : ℕ → Bool) : Maps o (v.keep kept) :=
  ⟨h.file, h.info, fun pte hpte => h.page pte (List.mem_of_mem_filter hpte)⟩

theorem pages_keep_add (v : Vma) (kept : ℕ → Bool) :
    ((v.keep kept).pages : Multiset ℕ) + (v.keep fun number => !kept number).pages = v.pages := by
  have hperm := List.filter_append_perm (fun pte : ℕ × ℕ => kept pte.1) v.ptes
  unfold Vma.pages Vma.keep
  rw [Multiset.coe_add, ← List.map_append, Multiset.coe_eq_coe]
  exact hperm.map Prod.snd

/-! ### The counter in `mmap_info` -/

theorem State.info_some {a : ℕ} (h : s.infos a = some info) : s.info (some a) = .ok info := by
  rw [State.info, Option.bind_some, h, Option.elim_some]

theorem changeReference_ok (d : BitVec 32) (hv : v.vmPrivateData = some o.info)
    (hinfo : s.infos o.info = some info) :
    changeReference d s v = .ok { s with
      infos := Function.update s.infos o.info (some { info with reference := info.reference + d }) } := by
  unfold changeReference
  rw [hv, State.info_some hinfo]
  rfl

section reference

variable (hrefers : ∀ o ∈ opens, Refers infos privates o) (hnodup : (opens.map Opened.info).Nodup)
include hrefers hnodup

theorem refers_change (ho : o ∈ opens) (hinfo : infos o.info = some info) {privates' : Multiset (Option ℕ)}
    {d : BitVec 32} (hcount : ∀ a, a ≠ o.info → privates'.count (some a) = privates.count (some a))
    (hd : BitVec.ofNat 32 (privates'.count (some o.info)) = BitVec.ofNat 32 (privates.count (some o.info)) + d) :
    ∀ o' ∈ opens, Refers
      (Function.update infos o.info (some { info with reference := info.reference + d })) privates' o' := by
  intro o' ho'
  by_cases hsame : o'.info = o.info
  · obtain rfl := Multiset.inj_on_of_nodup_map hnodup o' ho' o ho hsame
    obtain ⟨info', hinfo', hdata, hreference⟩ := hrefers o' ho
    obtain rfl := Option.some.inj (hinfo.symm.trans hinfo')
    refine ⟨_, Function.update_self .., hdata, ?_⟩
    rw [hreference, hd, BitVec.add_assoc]
  · obtain ⟨info', hinfo', hdata, hreference⟩ := hrefers o' ho'
    refine ⟨info', ?_, hdata, ?_⟩
    · rw [Function.update_of_ne hsame, hinfo']
    · rw [hreference, hcount _ hsame]

theorem refers_open (ho : o ∈ opens) (hinfo : infos o.info = some info) :
    ∀ o' ∈ opens, Refers
      (Function.update infos o.info (some { info with reference := info.reference + 1 }))
      (some o.info ::ₘ privates) o' := by
  refine refers_change hrefers hnodup ho hinfo (fun a ha => ?_) ?_
  · exact Multiset.count_cons_of_ne (fun h => ha (Option.some.inj h)) _
  · rw [Multiset.count_cons_self, BitVec.ofNat_add]
    rfl

end reference

theorem refers_close (hrefers : ∀ o' ∈ opens, Refers infos (some o.info ::ₘ privates) o')
    (hnodup : (opens.map Opened.info).Nodup) (ho : o ∈ opens) (hinfo : infos o.info = some info) :
    ∀ o' ∈ opens, Refers
      (Function.update infos o.info (some { info with reference := info.reference + -1 })) privates o' := by
  refine refers_change hrefers hnodup ho hinfo (fun a ha => ?_) ?_
  · exact (Multiset.count_cons_of_ne (fun h => ha (Option.some.inj h)) _).symm
  · rw [Multiset.count_cons_self, BitVec.ofNat_add, BitVec.add_assoc]
    exact (BitVec.add_zero _).symm

/-! ### What the pieces of a step do -/

theorem Inv.getFile (h : Inv opens refs mapped privates s) (ho : o ∈ opens) :
    Inv opens (o.file ::ₘ refs) mapped privates (getFile s o.file) := by
  refine { h with files := h.files.get _, mem_iff := fun f => ?_ }
  rw [← h.mem_iff, Multiset.mem_cons, or_iff_right_of_imp]
  intro hf
  rw [hf, h.mem_iff]
  exact Multiset.mem_map_of_mem _ ho

theorem Inv.getPages (h : Inv opens refs mapped privates s) (pages : List ℕ) :
    Inv opens refs (pages + mapped) privates { s with pageCount := pages.foldl getRef s.pageCount } := by
  refine { h with pages := ?_ }
  rw [add_left_comm]
  exact h.pages.gets pages

theorem Inv.putPages {pages : List ℕ} (h : Inv opens refs (pages + mapped) privates s) :
    ∃ pageCount, s.putPages pages = .ok { s with pageCount } ∧
      Inv opens refs mapped privates { s with pageCount } := by
  have hpages := h.pages
  rw [add_left_comm] at hpages
  obtain ⟨pageCount, hput, hcount⟩ := hpages.puts
  refine ⟨pageCount, ?_, { h with pages := hcount }⟩
  rw [State.putPages, hput, Option.elim_some]

theorem Inv.setInfo {privates' : Multiset (Option ℕ)} (h : Inv opens refs mapped privates s) (ho : o ∈ opens)
    (hrefers : ∀ o' ∈ opens, Refers (Function.update s.infos o.info (some info)) privates' o') :
    Inv opens refs mapped privates' { s with infos := Function.update s.infos o.info (some info) } := by
  refine { h with refers := hrefers, owned := fun a ha => ?_ }
  by_cases heq : a = o.info
  · rw [heq]
    exact Multiset.mem_map_of_mem _ ho
  · exact h.owned a fun hnone => ha ((Function.update_of_ne heq ..).trans hnone)

theorem Inv.mmapOpen (h : Inv opens refs mapped privates s) (ho : o ∈ opens)
    (hv : v.vmPrivateData = some o.info) :
    ∃ infos, mmapOpen s v = .ok { s with infos } ∧
      Inv opens refs mapped (v.vmPrivateData ::ₘ privates) { s with infos } := by
  obtain ⟨info, hinfo, -⟩ := h.refers o ho
  refine ⟨_, changeReference_ok 1 hv hinfo, h.setInfo ho ?_⟩
  rw [hv]
  exact refers_open h.refers h.nodupInfos ho hinfo

theorem Inv.mmapClose (h : Inv opens refs mapped (v.vmPrivateData ::ₘ privates) s) (ho : o ∈ opens)
    (hv : v.vmPrivateData = some o.info) :
    ∃ infos, mmapClose s v = .ok { s with infos } ∧ Inv opens refs mapped privates { s with infos } := by
  rw [hv] at h
  obtain ⟨info, hinfo, -⟩ := h.refers o ho
  exact ⟨_, changeReference_ok (-1) hv hinfo, h.setInfo ho (refers_close h.refers h.nodupInfos ho hinfo)⟩

theorem Inv.setUsers (h : Inv opens refs mapped privates s) (fds : Multiset ℕ) {vmas : Multiset Vma}
    (hmaps : ∀ v ∈ vmas, ∃ o ∈ opens, Maps o v) :
    Inv opens refs mapped privates { s with fds, vmas } := { h with maps := hmaps }

theorem Inv.open {a p : ℕ} (h : Inv opens refs mapped privates s) (hfile : s.fileCount file = 0)
    (ha : s.infos a = none) (hp : s.pageCount p = 0) (hprivates : some a ∉ privates) (found : BitVec 32) :
    ∃ s', myOpen s file (some a) (some p) found = .ok s' ∧
      Inv (⟨file, a, p⟩ ::ₘ opens) (file ::ₘ refs) mapped privates (Mmap.getFile s' file) ∧
      s'.vmas = s.vmas ∧ s'.fds = s.fds ∧ s'.mem = Function.update s.mem p hello := by
  have hnewFile : file ∉ opens.map Opened.file := by
    rw [← h.mem_iff]
    exact h.files.notMem_of_zero hfile
  have hnewInfo : ∀ o ∈ opens, o.info ≠ a := by
    intro o ho heq
    obtain ⟨info, hinfo, -⟩ := h.refers o ho
    rw [heq, ha] at hinfo
    cases hinfo
  have hnewPage : p ∉ opens.map Opened.page := fun hmem =>
    h.pages.notMem_of_zero hp (Multiset.mem_add.mpr (.inl hmem))
  refine ⟨_, rfl, ?_, rfl, rfl, rfl⟩
  constructor
  case files => exact h.files.get file
  case pages =>
    rw [Multiset.map_cons, Multiset.cons_add]
    exact h.pages.get p
  case nodupFiles =>
    rw [Multiset.map_cons]
    exact Multiset.nodup_cons.mpr ⟨hnewFile, h.nodupFiles⟩
  case nodupInfos =>
    rw [Multiset.map_cons]
    refine Multiset.nodup_cons.mpr ⟨fun hmem => ?_, h.nodupInfos⟩
    obtain ⟨o, ho, heq⟩ := Multiset.mem_map.mp hmem
    exact hnewInfo o ho heq
  case nodupPages =>
    rw [Multiset.map_cons]
    exact Multiset.nodup_cons.mpr ⟨hnewPage, h.nodupPages⟩
  case privateData =>
    intro o ho
    rcases Multiset.mem_cons.mp ho with rfl | ho
    · exact Function.update_self ..
    · have hne : o.file ≠ file := fun heq => hnewFile (heq ▸ Multiset.mem_map_of_mem _ ho)
      exact (Function.update_of_ne hne ..).trans (h.privateData o ho)
  case refers =>
    intro o ho
    rcases Multiset.mem_cons.mp ho with rfl | ho
    · refine ⟨_, Function.update_self .., rfl, ?_⟩
      rw [Multiset.count_eq_zero_of_notMem hprivates]
      exact (BitVec.add_zero _).symm
    · obtain ⟨info, hinfo, hrefers⟩ := h.refers o ho
      exact ⟨info, (Function.update_of_ne (hnewInfo o ho) ..).trans hinfo, hrefers⟩
  case owned =>
    intro b hb
    rw [Multiset.map_cons, Multiset.mem_cons]
    by_cases heq : b = a
    · exact .inl heq
    · exact .inr (h.owned b fun hnone => hb ((Function.update_of_ne heq ..).trans hnone))
  case mem_iff =>
    intro f
    rw [Multiset.map_cons, Multiset.mem_cons, Multiset.mem_cons, h.mem_iff]
  case maps =>
    intro v hv
    obtain ⟨o, ho, hmaps⟩ := h.maps v hv
    exact ⟨o, Multiset.mem_cons_of_mem ho, hmaps⟩

theorem Inv.release {rest : Multiset Opened} {fileCount : ℕ → ℕ}
    (h : Inv (o ::ₘ rest) (o.file ::ₘ refs) mapped privates s)
    (hfiles : Counted fileCount refs) (hlast : o.file ∉ refs) (hvmas : ∀ v ∈ s.vmas, v.vmFile ∈ refs) :
    ∃ s', myClose { s with fileCount } o.file = .ok s' ∧ Inv rest refs mapped privates s' ∧
      s'.vmas = s.vmas ∧ s'.fds = s.fds ∧ s'.mem = s.mem := by
  have ho := Multiset.mem_cons_self o rest
  have hprivate := h.privateData o ho
  obtain ⟨info, hinfo, hdata, -⟩ := h.refers o ho
  have hpages : Counted s.pageCount ([o.page] + (rest.map Opened.page + mapped)) := by
    rw [Multiset.coe_singleton, Multiset.singleton_add, ← Multiset.cons_add, ← Multiset.map_cons]
    exact h.pages
  obtain ⟨pageCount, hput, hpages'⟩ := hpages.puts
  have hrest : ∀ {o'}, o' ∈ rest → o' ∈ o ::ₘ rest := fun ho' => Multiset.mem_cons_of_mem ho'
  have hnodupFiles := Multiset.nodup_cons.mp (Multiset.map_cons Opened.file o rest ▸ h.nodupFiles)
  have hnodupInfos := Multiset.nodup_cons.mp (Multiset.map_cons Opened.info o rest ▸ h.nodupInfos)
  have hnodupPages := Multiset.nodup_cons.mp (Multiset.map_cons Opened.page o rest ▸ h.nodupPages)
  refine ⟨{ s with
    fileCount, pageCount
    infos := Function.update s.infos o.info none
    privateData := Function.update s.privateData o.file none }, ?_, ?_, rfl, rfl, rfl⟩
  · unfold myClose
    simp only [State.info, State.freePage, State.putPages, State.kfree, hprivate, Option.bind_some, hinfo,
      Option.elim_some, ok_bind, hdata, Option.toList_some, hput]
    rfl
  · constructor
    case files => exact hfiles
    case pages => exact hpages'
    case nodupFiles => exact hnodupFiles.2
    case nodupInfos => exact hnodupInfos.2
    case nodupPages => exact hnodupPages.2
    case privateData =>
      intro o' ho'
      have hne : o'.file ≠ o.file := fun heq => hnodupFiles.1 (heq ▸ Multiset.mem_map_of_mem _ ho')
      exact (Function.update_of_ne hne ..).trans (h.privateData o' (hrest ho'))
    case refers =>
      intro o' ho'
      obtain ⟨info', hinfo', hrefers'⟩ := h.refers o' (hrest ho')
      have hne : o'.info ≠ o.info := fun heq => hnodupInfos.1 (heq ▸ Multiset.mem_map_of_mem _ ho')
      exact ⟨info', (Function.update_of_ne hne ..).trans hinfo', hrefers'⟩
    case owned =>
      intro a ha
      by_cases heq : a = o.info
      · rw [heq] at ha
        exact absurd (Function.update_self ..) ha
      · have hmem := h.owned a fun hnone => ha ((Function.update_of_ne heq ..).trans hnone)
        rw [Multiset.map_cons, Multiset.mem_cons, or_iff_right heq] at hmem
        exact hmem
    case mem_iff =>
      intro f
      have hiff := h.mem_iff f
      rw [Multiset.map_cons, Multiset.mem_cons, Multiset.mem_cons] at hiff
      by_cases heq : f = o.file
      · rw [heq]
        exact iff_of_false hlast hnodupFiles.1
      · rwa [or_iff_right heq, or_iff_right heq] at hiff
    case maps =>
      intro v hv
      obtain ⟨o', ho', hmaps⟩ := h.maps v hv
      refine ⟨o', (Multiset.mem_cons.mp ho').resolve_left fun heq => hlast ?_, hmaps⟩
      rw [← heq, ← hmaps.file]
      exact hvmas v hv

theorem Inv.fput (h : Inv opens (file ::ₘ refs) mapped privates s) (hvmas : ∀ v ∈ s.vmas, v.vmFile ∈ refs) :
    ∃ opens' s', fput s file = .ok s' ∧ opens' ≤ opens ∧ Inv opens' refs mapped privates s' ∧
      s'.vmas = s.vmas ∧ s'.fds = s.fds ∧ s'.mem = s.mem := by
  obtain ⟨fileCount, hput, hfiles⟩ := h.files.put
  rw [Mmap.fput, hput, Option.elim_some]
  by_cases hlast : fileCount file = 0
  · rw [if_pos hlast]
    obtain ⟨o, ho, rfl⟩ := Multiset.mem_map.mp ((h.mem_iff file).mp (Multiset.mem_cons_self file refs))
    obtain ⟨rest, rfl⟩ := Multiset.exists_cons_of_mem ho
    obtain ⟨s', hclose, hrest⟩ := h.release hfiles (hfiles.notMem_of_zero hlast) hvmas
    exact ⟨rest, s', hclose, Multiset.le_cons_self rest o, hrest⟩
  · rw [if_neg hlast]
    refine ⟨opens, _, rfl, le_rfl, { h with files := hfiles, mem_iff := fun f => ?_ }, rfl, rfl, rfl⟩
    have hmem : file ∈ refs := by
      rw [← Multiset.count_pos, ← hfiles file]
      exact Nat.pos_of_ne_zero hlast
    rw [← h.mem_iff, Multiset.mem_cons]
    exact ⟨Or.inr, fun hf => hf.elim (fun heq => heq ▸ hmem) id⟩

end CodingForFun.Mmap
