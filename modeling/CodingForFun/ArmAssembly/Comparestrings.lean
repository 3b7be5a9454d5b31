import CodingForFun.Lib.Arm
import Mathlib.Tactic.IntervalCases

/-!
# A comparison that never succeeds, `armassembly/comparestrings.s`

`compareloop` compares the pointers with zero instead of the characters they point to. It goes on until
two words differ, and never says that the strings are the same.
-/

namespace CodingForFun.ArmAssembly.Comparestrings

open Lib Arm ByteMemory

inductive Symbol
  | string1 | string2 | strsame | strdifferent | newline
  | main | compareloop | str1end | equal | different | done | printf
  deriving DecidableEq, Repr

def lines : List (Line Symbol) := [
  .label .main,
  .instr (.push .ip .lr),
  .instr (.ldrAddr .r0 .string1),
  .instr (.bl .printf),
  .instr (.ldrAddr .r0 .newline),
  .instr (.bl .printf),
  .instr (.ldrAddr .r0 .string2),
  .instr (.bl .printf),
  .instr (.ldrAddr .r0 .newline),
  .instr (.bl .printf),
  .instr (.ldrAddr .r1 .string1),
  .instr (.ldrAddr .r2 .string2),
  .label .compareloop,
  .instr (.cmp .r1 (.imm 0)),
  .instr (.bcond .eq .str1end),
  .instr (.cmp .r2 (.imm 0)),
  .instr (.bcond .eq .different),
  .instr (.ldr .r3 .r1 0),
  .instr (.ldr .r4 .r2 0),
  .instr (.cmp .r3 (.reg .r4)),
  .instr (.bcond .ne .different),
  .instr (.add .r1 .r1 (.imm 4)),
  .instr (.add .r2 .r2 (.imm 4)),
  .instr (.b .compareloop),
  .label .str1end,
  .instr (.cmp .r2 (.imm 0)),
  .instr (.bcond .eq .equal),
  .instr (.b .different),
  .label .equal,
  .instr (.ldrAddr .r0 .strsame),
  .instr (.bl .printf),
  .instr (.b .done),
  .label .different,
  .instr (.ldrAddr .r0 .strdifferent),
  .instr (.bl .printf),
  .instr (.b .done),
  .label .done,
  .instr (.ldrAddr .r0 .newline),
  .instr (.bl .printf),
  .instr (.mov .r0 (.imm 0)),
  .instr (.pop .ip .pc)]

def image (link : Link Symbol) : Image Symbol := ⟨link, lines⟩

section main

variable {link : Link Symbol} {s t : State} {kept : Word → Prop}

theorem size : (Image.instrs (image link).lines).length ≤ 2 ^ 30 := by
  change 35 ≤ 2 ^ 30
  decide

/-- Nothing was called with `strsame`. -/
def Silent (link : Link Symbol) (t : State) : Prop := ∀ c ∈ t.calls, c.reg .r0 ≠ link.place .strsame

/-- After the first instruction of a call of `main` in the state `s`. -/
structure Entered (link : Link Symbol) (kept : Word → Prop) (s t : State) : Prop where
  sp : t.reg .sp = s.reg .sp - 8
  mem : ∀ a, kept a → t.mem a = pushed s.mem (s.reg .sp) (s.reg .ip) (s.reg .lr) a
  calls : Silent link t

theorem Entered.congr {t' : State} (h : Entered link kept s t) (hsp : t'.reg .sp = t.reg .sp)
    (hmem : t'.mem = t.mem) (hcalls : t'.calls = t.calls) : Entered link kept s t' where
  sp := hsp.trans h.sp
  mem a ha := (congrFun hmem a).trans (h.mem a ha)
  calls := by
    unfold Silent
    rw [hcalls]
    exact h.calls

/-- What holds before instruction `i`: the pointers are as far apart as the strings are, so that not both
are zero, and a function elsewhere is not called with `strsame`. -/
def extra (link : Link Symbol) (t : State) : ℕ → Prop
  | 2 | 4 | 6 | 8 | 29 | 32 => t.reg .r0 ≠ link.place .strsame
  | 10 => t.reg .r1 = link.place .string1
  | 11 | 13 | 14 | 15 | 16 | 17 | 18 | 19 | 21 =>
    t.reg .r2 - t.reg .r1 = link.place .string2 - link.place .string1
  | 12 => t.reg .r2 - t.reg .r1 = link.place .string2 - link.place .string1 ∧ t.z = decide (t.reg .r1 = 0)
  | 20 => t.reg .r2 + 4 - t.reg .r1 = link.place .string2 - link.place .string1
  | 22 => t.reg .r2 ≠ 0
  | 23 => t.z = false
  | 25 | 26 | 27 => False
  | _ => True

/-- The assertion of instruction `i`. -/
def assertion (link : Link Symbol) (kept : Word → Prop) (s : State) : ℕ → State → Prop
  | 0, t => t.reg = s.reg ∧ t.mem = s.mem ∧ t.calls = []
  | i + 1, t => Entered link kept s t ∧ extra link t (i + 1)

/-- The assertions of the image hold. -/
abbrev Fine (link : Link Symbol) (kept : Word → Prop) (s t : State) : Prop :=
  Annotated (image link) kept (assertion link kept s) (s.reg .lr) (Silent link) t

theorem fine_next (i : ℕ) (hi : i + 1 < 35) (ht : Entered link kept s t) (r : Reg) (w : Word)
    (hr : r ≠ .pc ∧ r ≠ .sp)
    (hextra : extra link ((t.set .pc ((image link).code (i + 1))).set r w) (i + 1)) :
    Fine link kept s ((t.set .pc ((image link).code (i + 1))).set r w) :=
  .inl ⟨i + 1, hi, by simp [hr.1.symm], ht.congr (by simp [hr.2.symm]) rfl rfl, hextra⟩

theorem fine_cmp (i : ℕ) (hi : i + 1 < 35) (ht : Entered link kept s t) (x y : Word)
    (hextra : extra link ((t.set .pc ((image link).code (i + 1))).subFlags x y) (i + 1)) :
    Fine link kept s ((t.set .pc ((image link).code (i + 1))).subFlags x y) :=
  .inl ⟨i + 1, hi, by simp, ht.congr (by simp) rfl rfl, hextra⟩

theorem fine_jump (j : ℕ) (hj : j + 1 < 35) (ht : Entered link kept s t) {t' : State}
    (hpc : t'.reg .pc = (image link).code (j + 1)) (hreg : ∀ r, r ≠ .pc → t'.reg r = t.reg r)
    (hmem : t'.mem = t.mem) (hcalls : t'.calls = t.calls) (hextra : extra link t' (j + 1)) :
    Fine link kept s t' :=
  .inl ⟨j + 1, hj, hpc, ht.congr (hreg .sp (by decide)) hmem hcalls, hextra⟩

theorem fine_call (i : ℕ) (hi : i + 1 < 35) (hprintf : External (image link) kept .printf)
    (ht : Entered link kept s t) (hr0 : t.reg .r0 ≠ link.place .strsame) (hextra : ∀ u, extra link u (i + 1)) :
    Fine link kept s (((t.set .pc ((image link).code (i + 1))).set .lr
      ((image link).code (i + 1))).set .pc ((image link).addr .printf)) := by
  refine .inr (.inl ⟨.printf, i + 1, hprintf, hi, by simp, by simp, fun u hu => ⟨⟨?_, ?_, ?_⟩, hextra u⟩⟩)
  · rw [hu.saved .sp (by decide)]
    simp [ht.sp]
  · intro a ha
    rw [hu.mem a ha]
    exact ht.mem a ha
  · intro c hc
    rw [hu.calls, List.mem_append, List.mem_singleton] at hc
    rcases hc with hc | rfl
    · exact ht.calls c hc
    · simpa using hr0

theorem ne_zero_of_apart {x y d : Word} (hd : d ≠ 0) (h : y - x = d) (hx : x = 0) : y ≠ 0 := by
  rintro rfl
  rw [hx, sub_self] at h
  exact hd h.symm

theorem step_assertion (hframe : Frame kept s.mem (s.reg .sp))
    (hprintf : External (image link) kept .printf)
    (hstrings : link.place .string1 ≠ link.place .string2)
    (hsame : ∀ l ∈ [Symbol.string1, .string2, .newline, .strdifferent], link.place l ≠ link.place .strsame)
    {i : ℕ} {instr : Instr Symbol} {t t' : State}
    (hget : (Image.instrs (image link).lines)[i]? = some instr)
    (ht : assertion link kept s i t)
    (hexec : exec (image link).addr (t.set .pc ((image link).code (i + 1))) instr =
      some t') : Fine link kept s t' := by
  have hlt : i < 35 := (List.getElem?_eq_some_iff.mp hget).1
  have hapart : link.place .string2 - link.place .string1 ≠ 0 := fun h => hstrings (sub_eq_zero.mp h).symm
  have hload : ∀ (k : ℕ) (l : Symbol), k + 1 < 35 → (∀ u, extra link u (k + 1) = (u.reg .r0 ≠ link.place .strsame)) →
      link.place l ≠ link.place .strsame → (image link).addr l = link.place l → Entered link kept s t →
      Fine link kept s ((t.set .pc ((image link).code (k + 1))).set .r0
        ((image link).addr l)) := by
    intro k l hk hextra hl haddr he
    apply fine_next k hk he _ _ (by decide)
    rw [hextra, haddr]
    simpa using hl
  cases i with
  | zero =>
    obtain rfl := (Option.some.inj hget).symm
    obtain ⟨hreg, hmem, hcalls⟩ := ht
    rw [← hmem, ← hreg] at hframe
    obtain rfl := Option.some.inj ((exec_push _ (by decide) (by decide) hframe).symm.trans hexec)
    refine .inl ⟨1, show 1 < 35 by decide, by simp, ⟨?_, ?_, ?_⟩, trivial⟩
    · simp [hreg]
    · intro a _
      simp [hreg, hmem]
    · intro c hc
      rw [State.calls_set, State.calls_set, hcalls] at hc
      exact absurd hc List.not_mem_nil
  | succ i =>
    obtain ⟨he, hx⟩ := ht
    replace hlt : i < 34 := Nat.lt_of_succ_lt_succ hlt
    interval_cases i
    all_goals obtain rfl := (Option.some.inj hget).symm
    -- what is printed first
    · obtain rfl := Option.some.inj hexec
      exact hload 1 .string1 (by decide) (fun _ => rfl) (hsame .string1 (by decide)) rfl he
    · obtain rfl := Option.some.inj hexec
      exact fine_call 2 (by decide) hprintf he hx fun _ => trivial
    · obtain rfl := Option.some.inj hexec
      exact hload 3 .newline (by decide) (fun _ => rfl) (hsame .newline (by decide)) rfl he
    · obtain rfl := Option.some.inj hexec
      exact fine_call 4 (by decide) hprintf he hx fun _ => trivial
    · obtain rfl := Option.some.inj hexec
      exact hload 5 .string2 (by decide) (fun _ => rfl) (hsame .string2 (by decide)) rfl he
    · obtain rfl := Option.some.inj hexec
      exact fine_call 6 (by decide) hprintf he hx fun _ => trivial
    · obtain rfl := Option.some.inj hexec
      exact hload 7 .newline (by decide) (fun _ => rfl) (hsame .newline (by decide)) rfl he
    · obtain rfl := Option.some.inj hexec
      exact fine_call 8 (by decide) hprintf he hx fun _ => trivial
    -- the pointers
    · obtain rfl := Option.some.inj hexec
      exact fine_next 9 (by decide) he _ _ (by decide) rfl
    · obtain rfl := Option.some.inj hexec
      apply fine_next 10 (by decide) he _ _ (by decide)
      change link.place .string2 - t.reg .r1 = _
      rw [hx]
    -- `compareloop`
    · obtain rfl := Option.some.inj hexec
      exact fine_cmp 11 (by decide) he _ _ ⟨hx, rfl⟩
    · obtain rfl := Option.some.inj hexec
      obtain ⟨hx, hz⟩ := hx
      split
      case isTrue hzero =>
        have hr1 : t.reg .r1 = 0 := of_decide_eq_true (hz.symm.trans hzero)
        exact fine_jump 21 (by decide) he rfl (fun r hr => by simp [hr]) rfl rfl (ne_zero_of_apart hapart hx hr1)
      case isFalse =>
        exact fine_jump 12 (by decide) he rfl (fun r hr => by simp [hr]) rfl rfl hx
    · obtain rfl := Option.some.inj hexec
      exact fine_cmp 13 (by decide) he _ _ hx
    · obtain rfl := Option.some.inj hexec
      split
      · exact fine_jump 27 (by decide) he rfl (fun r hr => by simp [hr]) rfl rfl trivial
      · exact fine_jump 14 (by decide) he rfl (fun r hr => by simp [hr]) rfl rfl hx
    · obtain ⟨w, _, rfl⟩ := Option.map_eq_some_iff.mp hexec
      exact fine_next 15 (by decide) he _ _ (by decide) hx
    · obtain ⟨w, _, rfl⟩ := Option.map_eq_some_iff.mp hexec
      exact fine_next 16 (by decide) he _ _ (by decide) hx
    · obtain rfl := Option.some.inj hexec
      exact fine_cmp 17 (by decide) he _ _ hx
    · obtain rfl := Option.some.inj hexec
      split
      · exact fine_jump 27 (by decide) he rfl (fun r hr => by simp [hr]) rfl rfl trivial
      · exact fine_jump 18 (by decide) he rfl (fun r hr => by simp [hr]) rfl rfl hx
    · obtain rfl := Option.some.inj hexec
      apply fine_next 19 (by decide) he _ _ (by decide)
      change t.reg .r2 + 4 - (t.reg .r1 + 4) = _
      rw [add_sub_add_right_eq_sub]
      exact hx
    · obtain rfl := Option.some.inj hexec
      exact fine_next 20 (by decide) he _ _ (by decide) hx
    · obtain rfl := Option.some.inj hexec
      exact fine_jump 10 (by decide) he rfl (fun r hr => by simp [hr]) rfl rfl hx
    -- `str1end`
    · obtain rfl := Option.some.inj hexec
      exact fine_cmp 22 (by decide) he _ _ (beq_eq_false_iff_ne.mpr hx)
    · obtain rfl := Option.some.inj hexec
      split
      case isTrue hzero => exact absurd (hx.symm.trans hzero) Bool.false_ne_true
      case isFalse => exact fine_jump 23 (by decide) he rfl (fun r hr => by simp [hr]) rfl rfl trivial
    · obtain rfl := Option.some.inj hexec
      exact fine_jump 27 (by decide) he rfl (fun r hr => by simp [hr]) rfl rfl trivial
    -- `equal`
    · exact hx.elim
    · exact hx.elim
    · exact hx.elim
    -- `different`
    · obtain rfl := Option.some.inj hexec
      exact hload 28 .strdifferent (by decide) (fun _ => rfl) (hsame .strdifferent (by decide)) rfl he
    · obtain rfl := Option.some.inj hexec
      exact fine_call 29 (by decide) hprintf he hx fun _ => trivial
    · obtain rfl := Option.some.inj hexec
      exact fine_jump 30 (by decide) he rfl (fun r hr => by simp [hr]) rfl rfl trivial
    -- `done`
    · obtain rfl := Option.some.inj hexec
      exact hload 31 .newline (by decide) (fun _ => rfl) (hsame .newline (by decide)) rfl he
    · obtain rfl := Option.some.inj hexec
      exact fine_call 32 (by decide) hprintf he hx fun _ => trivial
    · obtain rfl := Option.some.inj hexec
      exact fine_next 33 (by decide) he _ _ (by decide) trivial
    · obtain ⟨hw, hw'⟩ := load_frame hframe he.sp he.mem
      obtain rfl := Option.some.inj ((exec_pop hw hw').symm.trans hexec)
      exact .inr (.inr ⟨by simp, he.calls⟩)

/-- However far a call of `main` gets, nothing has been called with `strsame`. -/
theorem never_same (hmain : s.reg .pc = (image link).addr .main) (hcalls : s.calls = [])
    (hframe : Frame kept s.mem (s.reg .sp)) (hprintf : External (image link) kept .printf)
    (hreturn : ∀ t : State, t.reg .pc = s.reg .lr → (image link).step t = none)
    (hstrings : link.place .string1 ≠ link.place .string2)
    (hsame : ∀ l ∈ [Symbol.string1, .string2, .newline, .strdifferent], link.place l ≠ link.place .strsame)
    (hrun : Relation.ReflTransGen (fun t t' => (image link).step t = some t') s t) :
    ∀ c ∈ t.calls, c.reg .r0 ≠ link.place .strsame := by
  have hstart : Fine link kept s s := .inl ⟨0, show 0 < 35 by decide, hmain, rfl, rfl, hcalls⟩
  have hfine := hstart.reaches size
    (fun i instr t t' hget ht hexec => step_assertion hframe hprintf hstrings hsame hget ht hexec) hreturn hrun
  rcases hfine with ⟨i, _, _, hA⟩ | ⟨l, i, hl, _, hpc, _, hA⟩ | ⟨_, hE⟩
  · cases i with
    | zero =>
      rw [hA.2.2]
      exact fun c hc => absurd hc List.not_mem_nil
    | succ i => exact hA.1.calls
  · -- the call that is under way is recorded
    obtain ⟨u, _, hu⟩ := step_external hl hpc
    have hA := hA u hu
    intro c hc
    have hmem : c ∈ u.calls := by
      rw [hu.calls]
      exact List.mem_append_left _ hc
    cases i with
    | zero =>
      rw [hA.2.2] at hmem
      exact absurd hmem List.not_mem_nil
    | succ i => exact hA.1.calls c hmem
  · exact hE

end main

/-- Places for the names of the file. -/
def somewhere : Symbol → Word
  | .string1 => 0x1000
  | .string2 => 0x1008
  | .strsame => 0x100F
  | .strdifferent => 0x1024
  | .newline => 0x1038
  | _ => 0x20000

/-- A call of `main` with `"string1"` and `"string"`. -/
def called : State where
  reg
    | .pc => 0x8000
    | .lr => 0x400
    | .sp => 0x7000
    | _ => 0
  z := false
  c := false
  mem a := some (([0x73, 0x74, 0x72, 0x69, 0x6E, 0x67, 0x31, 0, 0x73, 0x74, 0x72, 0x69, 0x6E, 0x67, 0, 0x53].getD
    (a.toNat - 0x1000) 0 : BitVec 8))
  calls := []

def linked : Image Symbol :=
  image ⟨0x8000, somewhere, fun a => if a = 0x20000 then some (returning 7) else none⟩

/-- The machine is back in the caller after 43 steps, with six calls of `printf`. -/
theorem never_same_different :
    ((advance linked)^[43] called).calls.length = 6 ∧
      ∀ c ∈ ((advance linked)^[43] called).calls, c.reg .r0 ≠ 0x100F := by
  have hframe : Frame (fun _ => True) called.mem (called.reg .sp) := ⟨by decide, by decide, fun _ _ => trivial⟩
  have hreturn : ∀ t : State, t.reg .pc = called.reg .lr → linked.step t = none := by
    intro t ht
    unfold Image.step
    rw [ht]
    rfl
  refine ⟨by decide +kernel, ?_⟩
  exact never_same rfl rfl hframe ⟨rfl, _, rfl, isFunction_returning _ _⟩ hreturn (by decide) (by decide)
    (reaches_advance 43)

end CodingForFun.ArmAssembly.Comparestrings
