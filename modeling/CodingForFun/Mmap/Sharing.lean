import CodingForFun.Mmap.Runs

/-!
# What the mappings show

`mmap_fault` does not look at the address but for the end of the mapping: all pages of all mappings of an open
file are the page of the file. So there is one piece of `PAGE_SIZE` bytes for each open file, and a process
reads at any address of any of its mappings what was stored last in any of them at an address with the same
offset in its page, or what `my_open` has written (`access_eq`).
-/

namespace CodingForFun.Mmap

open Lib

/-- The bytes of each open file after one more action, as its users see them. -/
def contentsStep (contents : ℕ → ℕ → UInt8) : Action → ℕ → ℕ → UInt8
  | .open file _ _ _ => Function.update contents file hello
  | .store v address x =>
    Function.update contents v.vmFile (Function.update (contents v.vmFile) (address % pageSize) x)
  | _ => contents

/-- The page of each open file holds its bytes. -/
def Shows (contents : ℕ → ℕ → UInt8) (s : State) : Prop :=
  ∃ opens, Lists opens s ∧ ∀ o ∈ opens, s.mem o.page = contents o.file

variable {s s' : State} {opens : Multiset Opened} {o : Opened} {v : Vma} {contents : ℕ → ℕ → UInt8}
  {r : Except Fault State} {a : Action}

theorem mem_of_lookup {l : List (ℕ × ℕ)} {number p : ℕ} (h : l.lookup number = some p) : (number, p) ∈ l := by
  obtain ⟨l₁, l₂, rfl, -⟩ := List.lookup_eq_some_iff.mp h
  exact List.mem_append_right _ List.mem_cons_self

theorem Kept.shows (h : Kept opens s r) (hshow : ∀ o ∈ opens, s.mem o.page = contents o.file)
    (hr : r = .ok s') : Shows contents s' := by
  obtain ⟨s'', opens', rfl, hle, hmem, hinv⟩ := h
  obtain rfl := Except.ok.inj hr
  refine ⟨opens', hinv, fun o ho => ?_⟩
  rw [hmem]
  exact hshow o (Multiset.mem_of_le hle ho)

theorem Shows.step (h : Shows contents s) (hs : next s a = some s') : Shows (contentsStep contents a) s' := by
  obtain ⟨opens, hinv, hshow⟩ := h
  obtain ⟨r, hr, hok⟩ := Option.bind_eq_some_iff.mp hs
  have hr' : r = .ok s' := by
    cases r with
    | error e => cases hok
    | ok s'' => rw [Option.some.inj hok]
  have hout := Lists.step hinv hr
  cases a with
  | «open» file info page found =>
    cases info with
    | none => exact absurd (hout.symm.trans hr') nofun
    | some a =>
      cases page with
      | none => exact absurd (hout.symm.trans hr') nofun
      | some p =>
        obtain ⟨s'', rfl, hmem, hinv'⟩ := hout
        obtain rfl := Except.ok.inj hr'
        refine ⟨_, hinv', fun o ho => ?_⟩
        have hfile := (Multiset.nodup_cons.mp (Multiset.map_cons Opened.file _ opens ▸ hinv'.nodupFiles)).1
        have hpage := (Multiset.nodup_cons.mp (Multiset.map_cons Opened.page _ opens ▸ hinv'.nodupPages)).1
        rw [hmem, contentsStep]
        rcases Multiset.mem_cons.mp ho with rfl | ho
        · rw [Function.update_self, Function.update_self]
        · have hp : o.page ≠ p := fun heq => hpage (Multiset.mem_map.mpr ⟨o, ho, heq⟩)
          have hf : o.file ≠ file := fun heq => hfile (Multiset.mem_map.mpr ⟨o, ho, heq⟩)
          rw [Function.update_of_ne hp, Function.update_of_ne hf]
          exact hshow o ho
  | store v address x =>
    obtain ⟨p, hv, hp, rfl⟩ := hout
    obtain rfl := Except.ok.inj hr'
    obtain ⟨o, ho, hmaps⟩ := hinv.maps v hv
    have hpo : p = o.page := hmaps.page _ (mem_of_lookup hp)
    refine ⟨opens, { hinv with }, fun o' ho' => ?_⟩
    rw [contentsStep, hmaps.file, hpo]
    show Function.update s.mem o.page _ o'.page = _
    by_cases heq : o' = o
    · rw [heq, Function.update_self, Function.update_self, hshow o ho]
    · have hp : o'.page ≠ o.page := fun h =>
        heq (Multiset.inj_on_of_nodup_map hinv.nodupPages o' ho' o ho h)
      have hf : o'.file ≠ o.file := fun h =>
        heq (Multiset.inj_on_of_nodup_map hinv.nodupFiles o' ho' o ho h)
      rw [Function.update_of_ne hp, Function.update_of_ne hf]
      exact hshow o' ho'
  | dup => exact hout.shows hshow hr'
  | close => exact hout.shows hshow hr'
  | mmap => exact hout.shows hshow hr'
  | fork => exact hout.shows hshow hr'
  | split => exact hout.shows hshow hr'
  | fault => exact hout.shows hshow hr'
  | zap => exact hout.shows hshow hr'
  | munmap => exact hout.shows hshow hr'

theorem Shows.access (h : Shows contents s) (hv : v ∈ s.vmas) {address : ℕ} (hend : address < v.vmEnd) :
    s.access v address = some (contents v.vmFile (address % pageSize)) := by
  obtain ⟨opens, hinv, hshow⟩ := h
  obtain ⟨o, ho, hmaps⟩ := hinv.maps v hv
  rw [hmaps.file, ← hshow o ho, State.access]
  cases hpage : v.pageAt address with
  | some p =>
    obtain rfl : p = o.page := hmaps.page _ (mem_of_lookup hpage)
    rfl
  | none =>
    rw [mmapFault_ok hinv ho hmaps hend]
    rfl

theorem shows_run (as : List Action) (h : Shows contents s) (hs : as.foldlM next s = some s') :
    Shows (as.foldl contentsStep contents) s' := by
  induction as generalizing s contents with
  | nil =>
    obtain rfl := Option.some.inj hs
    exact h
  | cons a as ih =>
    obtain ⟨s₁, hs₁, hrest⟩ := Option.bind_eq_some_iff.mp hs
    exact ih (h.step hs₁) hrest

/-- After every run, any address of any mapping shows what was stored last for its offset in any mapping of the
same open file. -/
theorem access_eq {as : List Action} (hs : as.foldlM next initial = some s) (hv : v ∈ s.vmas) {address : ℕ}
    (hend : address < v.vmEnd) :
    s.access v address = some (as.foldl contentsStep (fun _ _ => 0) v.vmFile (address % pageSize)) :=
  (shows_run as ⟨0, Lists.initial, fun _ ho => absurd ho (Multiset.notMem_zero _)⟩ hs).access hv hend

/-- A byte is stored in the first page of a mapping, and another mapping is split. -/
def storedAndSplit : List Action :=
  let v : Vma := ⟨8192, 20480, 0, some 7, []⟩
  let used : Vma := ⟨8192, 20480, 0, some 7, [(2, 3)]⟩
  [.open 0 (some 7) (some 3) 5, .mmap 0 2 3, .fault v 8200, .store used 8200 65, .mmap 0 2 3, .split v 12288]

/-- Both parts show it, and so does every other page. -/
theorem access_eq_stored : ∃ s, storedAndSplit.foldlM next initial = some s ∧
    s.access ⟨12288, 20480, 0, some 7, []⟩ 16392 = some 65 := by
  have hrun : (storedAndSplit.foldlM next initial).any
      (fun s => decide ((⟨12288, 20480, 0, some 7, []⟩ : Vma) ∈ s.vmas)) = true := by
    decide +kernel
  obtain ⟨s, hs, hmem⟩ := (Option.any_eq_true _ _).mp hrun
  refine ⟨s, hs, ?_⟩
  rw [access_eq hs (of_decide_eq_true hmem) (by decide)]
  decide

end CodingForFun.Mmap
