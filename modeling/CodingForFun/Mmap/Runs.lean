import CodingForFun.Lib.Threads
import CodingForFun.Mmap.References

/-!
# Runs of the device

The open files of a state are listed after every step (`Lists.step`), and only `my_open` can crash, where it was
refused memory (`Lists.crashes_iff`). So after every run `reference` tells the number of mappings, counted from what
`kmalloc` happened to leave in it, the page is referred to once more than there are entries, and nothing is left behind
once all descriptors and mappings are gone (`references_exact`).
-/

namespace CodingForFun.Mmap

open Lib

variable {s s' : State} {opens : Multiset Opened} {refs mapped : Multiset ℕ} {o : Opened} {v : Vma} {file : ℕ}
  {privates : Multiset (Option ℕ)} {r : Except Fault State} {a : Action}

theorem Inv.mem_opens (h : Inv opens refs mapped privates s) (hfile : file ∈ refs) :
    ∃ o ∈ opens, o.file = file := Multiset.mem_map.mp ((h.mem_iff file).mp hfile)

theorem Inv.lists (h : Inv opens refs mapped privates s) (hrefs : s.files = refs) (hmapped : s.mapped = mapped)
    (hprivates : s.privates = privates) : Lists opens s := by
  subst hrefs hmapped hprivates
  exact h

/-- A step in which no file is opened and nothing is stored. -/
def Kept (opens : Multiset Opened) (s : State) (r : Except Fault State) : Prop :=
  ∃ s' opens', r = .ok s' ∧ opens' ≤ opens ∧ s'.mem = s.mem ∧ Lists opens' s'

/-- A mapping is taken out of those of the state. -/
structure Without (s : State) (v : Vma) (rest : Multiset Vma) : Prop where
  vmas : s.vmas = v ::ₘ rest
  erase : s.vmas.erase v = rest
  files : s.files = v.vmFile ::ₘ (s.fds + rest.map Vma.vmFile)
  mapped : s.mapped = v.pages + rest.bind fun v => (v.pages : Multiset ℕ)
  privates : s.privates = v.vmPrivateData ::ₘ rest.map Vma.vmPrivateData

theorem exists_without (hv : v ∈ s.vmas) : ∃ rest, Without s v rest := by
  obtain ⟨rest, hrest⟩ := Multiset.exists_cons_of_mem hv
  refine ⟨rest, hrest, ?_, ?_, ?_, ?_⟩
  · rw [hrest, Multiset.erase_cons_head]
  · rw [State.files, hrest, Multiset.map_cons, Multiset.add_cons]
  · rw [State.mapped, hrest, Multiset.cons_bind]
  · rw [State.privates, hrest, Multiset.map_cons]

theorem maps_cons {vmas : Multiset Vma} (ho : o ∈ opens) (hv : Maps o v)
    (hmaps : ∀ v ∈ vmas, ∃ o ∈ opens, Maps o v) : ∀ w ∈ v ::ₘ vmas, ∃ o ∈ opens, Maps o w := by
  intro w hw
  rcases Multiset.mem_cons.mp hw with rfl | hw
  · exact ⟨o, ho, hv⟩
  · exact hmaps w hw

theorem Lists.open (hinv : Lists opens s) {a p : ℕ} {found : BitVec 32}
    (hs : step s (.open file (some a) (some p) found) = some r) :
    ∃ s', r = .ok s' ∧ s'.mem = Function.update s.mem p hello ∧ Lists (⟨file, a, p⟩ ::ₘ opens) s' := by
  obtain ⟨⟨hfile, ha, hp⟩, hr⟩ := Option.ite_none_right_eq_some.mp hs
  have hfree : s.infos a = none := ha a rfl
  have hprivates : some a ∉ s.privates := by
    intro hmem
    obtain ⟨v, hv, hprivate⟩ := Multiset.mem_map.mp hmem
    obtain ⟨o, ho, hmaps⟩ := hinv.maps v hv
    obtain rfl := Option.some.inj (hmaps.info.symm.trans hprivate)
    obtain ⟨info, hinfo, -⟩ := hinv.refers o ho
    rw [hfree] at hinfo
    cases hinfo
  obtain ⟨s', hok, hinv', hvmas, hfds, hmem⟩ := Inv.open hinv hfile hfree (hp p rfl) hprivates found
  rw [hok] at hr
  obtain rfl := Option.some.inj hr
  refine ⟨_, rfl, hmem, (hinv'.setUsers (file ::ₘ s'.fds) hinv'.maps).lists ?_ ?_ ?_⟩
  · show file ::ₘ s'.fds + s'.vmas.map Vma.vmFile = _
    rw [Multiset.cons_add, hvmas, hfds]
    rfl
  · exact congrArg (Multiset.bind · fun v => (v.pages : Multiset ℕ)) hvmas
  · exact congrArg (Multiset.map Vma.vmPrivateData) hvmas

theorem Lists.dup (hinv : Lists opens s) (hs : step s (.dup file) = some r) : Kept opens s r := by
  obtain ⟨hmem, hr⟩ := Option.ite_none_right_eq_some.mp hs
  obtain rfl := Option.some.inj hr
  obtain ⟨o, ho, rfl⟩ := hinv.mem_opens (Multiset.mem_add.mpr (.inl hmem))
  refine ⟨_, opens, rfl, le_rfl, rfl, ((hinv.getFile ho).setUsers (o.file ::ₘ s.fds) hinv.maps).lists ?_ rfl rfl⟩
  exact Multiset.cons_add ..

theorem Lists.close (hinv : Lists opens s) (hs : step s (.close file) = some r) : Kept opens s r := by
  obtain ⟨hmem, hr⟩ := Option.ite_none_right_eq_some.mp hs
  obtain rfl := Option.some.inj hr
  have hrefs : s.files = file ::ₘ (s.fds.erase file + s.vmas.map Vma.vmFile) := by
    rw [State.files, ← Multiset.cons_add, Multiset.cons_erase hmem]
  rw [Lists, hrefs] at hinv
  have hdrop := hinv.setUsers (s.fds.erase file) hinv.maps
  obtain ⟨opens', s', hput, hle, hinv', hvmas, hfds, hmem'⟩ := hdrop.fput fun v hv =>
    Multiset.mem_add.mpr (.inr (Multiset.mem_map_of_mem _ hv))
  refine ⟨s', opens', hput, hle, hmem', hinv'.lists ?_ ?_ ?_⟩
  · rw [State.files, hvmas, hfds]
  · exact congrArg (Multiset.bind · fun v => (v.pages : Multiset ℕ)) hvmas
  · exact congrArg (Multiset.map Vma.vmPrivateData) hvmas

theorem Lists.mmap (hinv : Lists opens s) {start pages : ℕ} (hs : step s (.mmap file start pages) = some r) :
    Kept opens s r := by
  obtain ⟨hmem, hr⟩ := Option.ite_none_right_eq_some.mp hs
  obtain rfl := Option.some.inj hr
  obtain ⟨o, ho, rfl⟩ := hinv.mem_opens (Multiset.mem_add.mpr (.inl hmem))
  let v : Vma := { newVma o.file start pages with vmPrivateData := s.privateData o.file }
  have hv : Maps o v := ⟨rfl, hinv.privateData o ho, fun pte hpte => absurd hpte List.not_mem_nil⟩
  obtain ⟨infos, hopen, hinv'⟩ := (hinv.getFile ho).mmapOpen ho hv.info
  refine ⟨{ getFile s o.file with infos, vmas := v ::ₘ s.vmas }, opens, ?_, le_rfl, rfl,
    (hinv'.setUsers s.fds (maps_cons ho hv hinv.maps)).lists ?_ ?_ ?_⟩
  · show (mmapOpen (getFile s o.file) v >>= fun s => pure (s, v)) >>= _ = _
    rw [hopen]
    rfl
  · show s.fds + (v ::ₘ s.vmas).map Vma.vmFile = _
    rw [Multiset.map_cons, Multiset.add_cons]
    rfl
  · show (v ::ₘ s.vmas).bind _ = _
    rw [Multiset.cons_bind]
    exact zero_add _
  · exact Multiset.map_cons ..

theorem Lists.fork (hinv : Lists opens s) {copied : List ℕ} (hs : step s (.fork v copied) = some r) :
    Kept opens s r := by
  obtain ⟨hmem, hr⟩ := Option.ite_none_right_eq_some.mp hs
  obtain rfl := Option.some.inj hr
  obtain ⟨o, ho, hv⟩ := hinv.maps v hmem
  let new := v.keep fun number => number ∈ copied
  have hnew : Maps o new := hv.keep _
  obtain ⟨infos, hopen, hinv'⟩ := ((hinv.getFile ho).getPages new.pages).mmapOpen ho hnew.info
  rw [← hv.file] at hopen hinv'
  refine ⟨{ getFile s v.vmFile with
    infos, pageCount := new.pages.foldl getRef s.pageCount, vmas := new ::ₘ s.vmas }, opens, ?_, le_rfl, rfl,
    (hinv'.setUsers s.fds (maps_cons ho hnew hinv.maps)).lists ?_ ?_ ?_⟩
  · exact congrArg (fun x : Except Fault State => x >>= fun s => pure { s with vmas := new ::ₘ s.vmas }) hopen
  · show s.fds + (new ::ₘ s.vmas).map Vma.vmFile = _
    rw [Multiset.map_cons, Multiset.add_cons]
    rfl
  · exact Multiset.cons_bind ..
  · exact Multiset.map_cons ..

theorem Lists.split (hinv : Lists opens s) {address : ℕ} (hs : step s (.split v address) = some r) :
    Kept opens s r := by
  obtain ⟨⟨hmem, -⟩, hr⟩ := Option.ite_none_right_eq_some.mp hs
  obtain rfl := Option.some.inj hr
  obtain ⟨o, ho, hv⟩ := hinv.maps v hmem
  obtain ⟨rest, hrest⟩ := exists_without hmem
  have hmaps : ∀ w ∈ rest, ∃ o ∈ opens, Maps o w := fun w hw =>
    hinv.maps w (hrest.vmas ▸ Multiset.mem_cons_of_mem hw)
  have hkeep := pages_keep_add v fun number => number < address / pageSize
  let lower : Vma := { v.keep fun number => number < address / pageSize with vmEnd := address }
  let upper : Vma := { v.keep fun number => !(number < address / pageSize) with vmStart := address }
  have hlower : Maps o lower :=
    ⟨hv.file, hv.info, (hv.keep fun number => number < address / pageSize).page⟩
  have hupper : Maps o upper :=
    ⟨hv.file, hv.info, (hv.keep fun number => !(number < address / pageSize)).page⟩
  obtain ⟨infos, hopen, hinv'⟩ := (hinv.getFile ho).mmapOpen ho hupper.info
  rw [← hv.file] at hopen hinv'
  refine ⟨{ getFile s v.vmFile with infos, vmas := lower ::ₘ upper ::ₘ s.vmas.erase v }, opens, ?_, le_rfl, rfl,
    (hinv'.setUsers s.fds ?_).lists ?_ ?_ ?_⟩
  · show mmapOpen _ upper >>= _ = _
    rw [hopen]
    rfl
  · rw [hrest.erase]
    exact maps_cons ho hlower (maps_cons ho hupper hmaps)
  · show s.fds + (lower ::ₘ upper ::ₘ s.vmas.erase v).map Vma.vmFile = _
    rw [hrest.erase, hrest.files, Multiset.map_cons, Multiset.map_cons, Multiset.add_cons, Multiset.add_cons]
    rfl
  · show (lower ::ₘ upper ::ₘ s.vmas.erase v).bind _ = _
    rw [hrest.erase, hrest.mapped, Multiset.cons_bind, Multiset.cons_bind, ← add_assoc, ← hkeep]
    rfl
  · show (lower ::ₘ upper ::ₘ s.vmas.erase v).map Vma.vmPrivateData = _
    rw [hrest.erase, hrest.privates, Multiset.map_cons, Multiset.map_cons]
    rfl

theorem mmapFault_ok (hinv : Inv opens refs mapped privates s) (ho : o ∈ opens) (hv : Maps o v) {address : ℕ}
    (hend : address < v.vmEnd) :
    mmapFault s v address = .ok ({ s with pageCount := getRef s.pageCount o.page }, some o.page) := by
  obtain ⟨info, hinfo, hdata, -⟩ := hinv.refers o ho
  rw [mmapFault, if_neg (Nat.not_lt.mpr hend.le), hv.info, State.info_some hinfo, ok_bind, hdata]
  rfl

theorem Lists.fault (hinv : Lists opens s) {address : ℕ} (hs : step s (.fault v address) = some r) :
    Kept opens s r := by
  obtain ⟨⟨hmem, ⟨-, hend⟩, -⟩, hr⟩ := Option.ite_none_right_eq_some.mp hs
  obtain ⟨o, ho, hv⟩ := hinv.maps v hmem
  obtain ⟨rest, hrest⟩ := exists_without hmem
  rw [mmapFault_ok hinv ho hv hend, ok_bind] at hr
  obtain rfl := Option.some.inj hr
  let w : Vma := { v with ptes := (address / pageSize, o.page) :: v.ptes }
  have hw : Maps o w := ⟨hv.file, hv.info, List.forall_mem_cons.mpr ⟨rfl, hv.page⟩⟩
  have hmaps : ∀ u ∈ rest, ∃ o ∈ opens, Maps o u := fun u hu =>
    hinv.maps u (hrest.vmas ▸ Multiset.mem_cons_of_mem hu)
  refine ⟨_, opens, rfl, le_rfl, rfl, ((hinv.getPages [o.page]).setUsers s.fds ?_).lists ?_ ?_ ?_⟩
  · rw [hrest.erase]
    exact maps_cons ho hw hmaps
  · show s.fds + (w ::ₘ s.vmas.erase v).map Vma.vmFile = _
    rw [hrest.erase, hrest.files, Multiset.map_cons, Multiset.add_cons]
  · show (w ::ₘ s.vmas.erase v).bind _ = _
    rw [hrest.erase, hrest.mapped, Multiset.cons_bind, ← add_assoc]
    rfl
  · show (w ::ₘ s.vmas.erase v).map Vma.vmPrivateData = _
    rw [hrest.erase, hrest.privates, Multiset.map_cons]

theorem Lists.zap (hinv : Lists opens s) {dropped : List ℕ} (hs : step s (.zap v dropped) = some r) :
    Kept opens s r := by
  obtain ⟨hmem, hr⟩ := Option.ite_none_right_eq_some.mp hs
  obtain rfl := Option.some.inj hr
  obtain ⟨o, ho, hv⟩ := hinv.maps v hmem
  obtain ⟨rest, hrest⟩ := exists_without hmem
  have hkeep := pages_keep_add v fun number => number ∈ dropped
  have hmaps : ∀ u ∈ rest, ∃ o ∈ opens, Maps o u := fun u hu =>
    hinv.maps u (hrest.vmas ▸ Multiset.mem_cons_of_mem hu)
  let w := v.keep fun number => !(number ∈ dropped)
  have hw : Maps o w := hv.keep _
  rw [Lists, hrest.mapped, ← hkeep, add_assoc] at hinv
  obtain ⟨pageCount, hput, hinv'⟩ := hinv.putPages
  refine ⟨{ s with pageCount, vmas := w ::ₘ s.vmas.erase v }, opens, ?_, le_rfl, rfl,
    (hinv'.setUsers s.fds ?_).lists ?_ ?_ ?_⟩
  · rw [hput]
    rfl
  · rw [hrest.erase]
    exact maps_cons ho hw hmaps
  · show s.fds + (w ::ₘ s.vmas.erase v).map Vma.vmFile = _
    rw [hrest.erase, hrest.files, Multiset.map_cons, Multiset.add_cons]
    rfl
  · show (w ::ₘ s.vmas.erase v).bind _ = _
    rw [hrest.erase, Multiset.cons_bind]
  · show (w ::ₘ s.vmas.erase v).map Vma.vmPrivateData = _
    rw [hrest.erase, hrest.privates, Multiset.map_cons]
    rfl

theorem Lists.munmap (hinv : Lists opens s) (hs : step s (.munmap v) = some r) : Kept opens s r := by
  obtain ⟨hmem, hr⟩ := Option.ite_none_right_eq_some.mp hs
  obtain rfl := Option.some.inj hr
  obtain ⟨o, ho, hv⟩ := hinv.maps v hmem
  obtain ⟨rest, hrest⟩ := exists_without hmem
  have hmaps : ∀ u ∈ rest, ∃ o ∈ opens, Maps o u := fun u hu =>
    hinv.maps u (hrest.vmas ▸ Multiset.mem_cons_of_mem hu)
  rw [Lists, hrest.mapped, hrest.privates, hrest.files] at hinv
  obtain ⟨pageCount, hput, hinv⟩ := hinv.putPages
  obtain ⟨infos, hclose, hinv⟩ := hinv.mmapClose ho hv.info
  obtain ⟨opens', s', hfput, hle, hinv', hvmas, hfds, hmem'⟩ := (hinv.setUsers s.fds hmaps).fput fun u hu =>
    Multiset.mem_add.mpr (.inr (Multiset.mem_map_of_mem _ hu))
  refine ⟨s', opens', ?_, hle, hmem', hinv'.lists ?_ ?_ ?_⟩
  · rw [hput, ok_bind, hclose, ok_bind, hrest.erase]
    exact hfput
  · rw [State.files, hvmas, hfds]
  · exact congrArg (Multiset.bind · fun v => (v.pages : Multiset ℕ)) hvmas
  · exact congrArg (Multiset.map Vma.vmPrivateData) hvmas

/-! ### Every step and every run -/

/-- An `open` for which there is no memory. -/
def Action.Refused : Action → Prop
  | .open _ info page _ => info = none ∨ page = none
  | _ => False

/-- What a step does with the list and the memory: most leave the memory alone and close files at most. -/
def Outcome (opens : Multiset Opened) (s : State) (r : Except Fault State) : Action → Prop
  | .open file (some a) (some p) _ =>
    ∃ s', r = .ok s' ∧ s'.mem = Function.update s.mem p hello ∧ Lists (⟨file, a, p⟩ ::ₘ opens) s'
  | .open _ _ _ _ => r = .error .outOfBounds
  | .store v address x => ∃ p, v ∈ s.vmas ∧ v.pageAt address = some p ∧
      r = .ok { s with mem := Function.update s.mem p (Function.update (s.mem p) (address % pageSize) x) }
  | _ => Kept opens s r

theorem Lists.step (hinv : Lists opens s) (hs : step s a = some r) : Outcome opens s r a := by
  cases a with
  | «open» file info page found =>
    cases info with
    | none => exact (Option.some.inj (Option.ite_none_right_eq_some.mp hs).2).symm
    | some a =>
      cases page with
      | none => exact (Option.some.inj (Option.ite_none_right_eq_some.mp hs).2).symm
      | some p => exact hinv.open hs
  | store v address x =>
    obtain ⟨hmem, hr⟩ := Option.ite_none_right_eq_some.mp hs
    obtain ⟨p, hp, hok⟩ := Option.map_eq_some_iff.mp hr
    exact ⟨p, hmem, hp, hok.symm⟩
  | dup => exact hinv.dup hs
  | close => exact hinv.close hs
  | mmap => exact hinv.mmap hs
  | fork => exact hinv.fork hs
  | split => exact hinv.split hs
  | fault => exact hinv.fault hs
  | zap => exact hinv.zap hs
  | munmap => exact hinv.munmap hs

theorem Lists.step_or (hinv : Lists opens s) (hs : Mmap.step s a = some r) :
    (¬a.Refused ∧ ∃ s' opens', r = .ok s' ∧ Lists opens' s') ∨ (a.Refused ∧ r = .error .outOfBounds) := by
  have hkept : Kept opens s r → ∃ s' opens', r = .ok s' ∧ Lists opens' s' := by
    rintro ⟨s', opens', hr, -, -, hinv'⟩
    exact ⟨s', opens', hr, hinv'⟩
  have hout := hinv.step hs
  cases a with
  | «open» file info page found =>
    cases info with
    | none => exact .inr ⟨.inl rfl, hout⟩
    | some a =>
      cases page with
      | none => exact .inr ⟨.inr rfl, hout⟩
      | some p =>
        obtain ⟨s', hr, -, hinv'⟩ := hout
        exact .inl ⟨fun hrefused => hrefused.elim nofun nofun, s', _, hr, hinv'⟩
  | store v address x =>
    obtain ⟨p, -, -, hr⟩ := hout
    exact .inl ⟨id, _, opens, hr, { hinv with }⟩
  | dup => exact .inl ⟨id, hkept hout⟩
  | close => exact .inl ⟨id, hkept hout⟩
  | mmap => exact .inl ⟨id, hkept hout⟩
  | fork => exact .inl ⟨id, hkept hout⟩
  | split => exact .inl ⟨id, hkept hout⟩
  | fault => exact .inl ⟨id, hkept hout⟩
  | zap => exact .inl ⟨id, hkept hout⟩
  | munmap => exact .inl ⟨id, hkept hout⟩

/-- The device is used in any way. -/
def Reachable (s : State) : Prop := Reaches next (fun _ _ => True) initial s

theorem Lists.next (hinv : Lists opens s) (hs : next s a = some s') : ∃ opens', Lists opens' s' := by
  obtain ⟨r, hr, hok⟩ := Option.bind_eq_some_iff.mp hs
  rcases hinv.step_or hr with ⟨-, s'', opens', rfl, hinv'⟩ | ⟨-, rfl⟩
  · obtain rfl := Option.some.inj hok
    exact ⟨opens', hinv'⟩
  · cases hok

theorem Reachable.lists (h : Reachable s) : ∃ opens, Lists opens s := by
  induction h with
  | refl => exact ⟨0, Lists.initial⟩
  | tail _ hlast ih =>
    obtain ⟨a, -, hnext⟩ := hlast
    obtain ⟨opens, hinv⟩ := ih
    exact hinv.next hnext

theorem Lists.crashes_iff (hinv : Lists opens s) (hs : Mmap.step s a = some r) :
    (∃ e, r = .error e) ↔ a.Refused := by
  rcases hinv.step_or hs with ⟨hnot, s', -, rfl, -⟩ | ⟨hrefused, rfl⟩
  · exact iff_of_false nofun hnot
  · exact iff_of_true ⟨_, rfl⟩ hrefused

/-- The mappings of a file. -/
def State.mappings (s : State) (file : ℕ) : Multiset Vma := s.vmas.filter fun v => v.vmFile = file

/-- What a file with references owns: `reference` is the number of its mappings, more than what was found in it,
and its page is referred to by the entries that lead to it and the `mmap_info`. -/
def Owns (s : State) (file a page : ℕ) : Prop :=
  s.privateData file = some a ∧ s.pageCount page = 1 + s.mapped.count page ∧
    ∃ info, s.infos a = some info ∧ info.data = some page ∧
      info.reference = info.found + BitVec.ofNat 32 (s.mappings file).card

theorem Inv.count_privates (h : Inv opens refs mapped privates s) (ho : o ∈ opens) :
    s.privates.count (some o.info) = (s.mappings o.file).card := by
  rw [State.privates, Multiset.count_map, State.mappings]
  congr 1
  refine Multiset.filter_congr fun v hv => ?_
  obtain ⟨o', ho', hmaps⟩ := h.maps v hv
  rw [hmaps.info, hmaps.file, Option.some_inj]
  constructor
  · intro heq
    rw [Multiset.inj_on_of_nodup_map h.nodupInfos o ho o' ho' heq]
  · intro heq
    rw [Multiset.inj_on_of_nodup_map h.nodupFiles o' ho' o ho heq]

theorem Lists.owns (hinv : Lists opens s) (ho : o ∈ opens) : Owns s o.file o.info o.page := by
  obtain ⟨info, hinfo, hdata, hreference⟩ := hinv.refers o ho
  refine ⟨hinv.privateData o ho, ?_, info, hinfo, hdata, ?_⟩
  · rw [hinv.pages o.page, Multiset.count_add,
      Multiset.count_eq_one_of_mem hinv.nodupPages (Multiset.mem_map_of_mem _ ho)]
  · rw [hreference, hinv.count_privates ho]

/-- However the device is used, a step crashes exactly if `my_open` is refused memory; each file in use owns an
`mmap_info` and a page with the counts that it should have, but for what `reference` was at the start; and
nothing else is allocated. -/
theorem references_exact (h : Reachable s) :
    (∀ a r, Mmap.step s a = some r → ((∃ e, r = .error e) ↔ a.Refused)) ∧
    (∀ file ∈ s.files, ∃ a page, Owns s file a page) ∧
    (∀ a, s.infos a ≠ none → ∃ file ∈ s.files, ∃ page, Owns s file a page) ∧
    ∀ page, s.pageCount page ≠ 0 → ∃ file ∈ s.files, ∃ a, Owns s file a page := by
  obtain ⟨opens, hinv⟩ := h.lists
  have hmem : ∀ o ∈ opens, o.file ∈ s.files := fun o ho =>
    (hinv.mem_iff o.file).mpr (Multiset.mem_map_of_mem _ ho)
  refine ⟨fun a r hr => hinv.crashes_iff hr, fun file hfile => ?_, fun a ha => ?_, fun page hpage => ?_⟩
  · obtain ⟨o, ho, rfl⟩ := hinv.mem_opens hfile
    exact ⟨_, _, hinv.owns ho⟩
  · obtain ⟨o, ho, rfl⟩ := Multiset.mem_map.mp (hinv.owned a ha)
    exact ⟨o.file, hmem o ho, _, hinv.owns ho⟩
  · have hrefs : page ∈ opens.map Opened.page + s.mapped := by
      rw [← Multiset.count_ne_zero, ← hinv.pages page]
      exact hpage
    rcases Multiset.mem_add.mp hrefs with howned | hmapped
    · obtain ⟨o, ho, rfl⟩ := Multiset.mem_map.mp howned
      exact ⟨o.file, hmem o ho, _, hinv.owns ho⟩
    · obtain ⟨v, hv, hentry⟩ := Multiset.mem_bind.mp hmapped
      obtain ⟨o, ho, hmaps⟩ := hinv.maps v hv
      obtain ⟨pte, hpte, rfl⟩ := List.mem_map.mp (Multiset.mem_coe.mp hentry)
      rw [hmaps.page pte hpte]
      exact ⟨o.file, hmem o ho, _, hinv.owns ho⟩

/-- A file is mapped, the mapping is used and copied, and the descriptor is closed. -/
def forked : List Action :=
  let v : Vma := ⟨8192, 20480, 0, some 7, []⟩
  let used : Vma := ⟨8192, 20480, 0, some 7, [(2, 3)]⟩
  [.open 0 (some 7) (some 3) 5, .mmap 0 2 3, .fault v 8200, .fork used [2], .close 0]

theorem references_exact_forked : ∃ s, (s.mappings 0).card = 2 ∧ s.fds = 0 ∧
    ∀ file ∈ s.files, ∃ a page, Owns s file a page := by
  have hrun : (forked.foldlM (fun s a => if True then next s a else none) initial).any
      (fun s => decide ((s.mappings 0).card = 2 ∧ s.fds = 0)) = true := by
    decide +kernel
  obtain ⟨s, hs, hcard⟩ := (Option.any_eq_true _ _).mp hrun
  obtain ⟨hcard, hfds⟩ := of_decide_eq_true hcard
  exact ⟨s, hcard, hfds, (references_exact (Reaches.of_foldlM _ hs)).2.1⟩

end CodingForFun.Mmap
