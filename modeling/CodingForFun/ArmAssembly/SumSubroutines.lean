import CodingForFun.Lib.Arm

/-!
# Subroutines that call subroutines, `armassembly/sum_subroutines.s`

Each function saves its return address on the stack, so that `main` finds its way back from `printf` over
`printfunc`.
-/

namespace CodingForFun.ArmAssembly.SumSubroutines

open Lib Arm ByteMemory

inductive Symbol
  | format | a | b | sumfunc | printfunc | main | printf
  deriving DecidableEq, Repr

def lines : List (Line Symbol) := [
  .label .sumfunc,
  .instr (.push .ip .lr),
  .instr (.add .r0 .r1 (.reg .r2)),
  .instr (.pop .ip .pc),
  .label .printfunc,
  .instr (.push .ip .lr),
  .instr (.mov .r3 (.reg .r1)),
  .instr (.ldrAddr .r0 .format),
  .instr (.ldrAddr .r1 .a),
  .instr (.ldr .r1 .r1 0),
  .instr (.ldrAddr .r2 .b),
  .instr (.ldr .r2 .r2 0),
  .instr (.bl .printf),
  .instr (.pop .ip .pc),
  .label .main,
  .instr (.push .ip .lr),
  .instr (.ldrAddr .r1 .a),
  .instr (.ldr .r1 .r1 0),
  .instr (.ldrAddr .r2 .b),
  .instr (.ldr .r2 .r2 0),
  .instr (.bl .sumfunc),
  .instr (.mov .r1 (.reg .r0)),
  .instr (.bl .printfunc),
  .instr (.pop .ip .pc)]

def image (link : Link Symbol) : Image Symbol := ⟨link, lines⟩

section functions

variable {link : Link Symbol} {s : State} {kept : Word → Prop} {x y : Word}

theorem size : (Image.instrs (image link).lines).length ≤ 2 ^ 30 := by
  change 21 ≤ 2 ^ 30
  decide

theorem sumfunc (hpc : s.reg .pc = (image link).code 0) (hframe : Frame kept s.mem (s.reg .sp)) :
    Runs (image link) s fun t => Returned (fun _ => True) s t ∧ t.calls = s.calls ∧
      t.reg .r0 = s.reg .r1 + s.reg .r2 := by
  have hframe' : Frame (fun _ => True) s.mem (s.reg .sp) := ⟨hframe.mapped, hframe.mapped', fun _ _ => trivial⟩
  apply Runs.enter 0 hpc size rfl (by decide) (by decide) hframe
  apply Runs.block 1 [.add .r0 .r1 (.reg .r2)] _ size ⟨_, rfl⟩ (by decide)
  · simp only [execAt, exec, Operand.value, Option.bind_some, Option.some.injEq, exists_eq_left']
    apply Runs.returned 2 _ size rfl hframe' _ _
    · intro t ht hcalls hreg
      refine ⟨ht, hcalls, ?_⟩
      rw [hreg .r0 (by decide) (by decide) (by decide)]
      simp
    · simp
    · simp
    · simp
  · simp

/-- The two numbers are in memory, off the stack. -/
structure Data (link : Link Symbol) (x y : Word) (m : ByteMemory) (sp : Word) : Prop where
  loadA : load m (link.place .a) = some x
  loadB : load m (link.place .b) = some y
  offA : OffFrame sp (link.place .a)
  offB : OffFrame sp (link.place .b)

theorem printfunc (hprintf : External (image link) kept .printf)
    (hpc : s.reg .pc = (image link).code 3) (hframe : Frame kept s.mem (s.reg .sp))
    (hdata : Data link x y s.mem (s.reg .sp)) :
    Runs (image link) s fun t => Returned kept s t ∧
      ∃ c : Call, t.calls = s.calls ++ [c] ∧ c.target = link.place .printf ∧ c.reg .r0 = link.place .format ∧
        c.reg .r1 = x ∧ c.reg .r2 = y ∧ c.reg .r3 = s.reg .r1 := by
  have hx := (load_pushed_of_offFrame hdata.offA (s.reg .ip) (s.reg .lr)).trans hdata.loadA
  have hy := (load_pushed_of_offFrame hdata.offB (s.reg .ip) (s.reg .lr)).trans hdata.loadB
  have ha : (image link).addr .a = link.place .a := rfl
  have hb : (image link).addr .b = link.place .b := rfl
  have hformat : (image link).addr .format = link.place .format := rfl
  have hto : (image link).addr .printf = link.place .printf := rfl
  have hcall : Runs (image link) s fun t => t.reg .pc = (image link).addr .printf ∧
      t.reg .lr = (image link).code 11 ∧ t.reg .sp = s.reg .sp - 8 ∧
      t.mem = pushed s.mem (s.reg .sp) (s.reg .ip) (s.reg .lr) ∧ t.calls = s.calls ∧
      t.reg .r0 = link.place .format ∧ t.reg .r1 = x ∧ t.reg .r2 = y ∧ t.reg .r3 = s.reg .r1 := by
    apply Runs.enter 3 hpc size rfl (by decide) (by decide) hframe
    apply Runs.block 4 [.mov .r3 (.reg .r1), .ldrAddr .r0 .format, .ldrAddr .r1 .a, .ldr .r1 .r1 0,
      .ldrAddr .r2 .b, .ldr .r2 .r2 0, .bl .printf] _ size ⟨_, rfl⟩ (by decide)
    · simp only [execAt, exec, Operand.value, State.reg_set, State.mem_set, reduceCtorEq, if_false, if_true,
        add_zero, ha, hb, hx, hy, Option.map_some, Option.bind_some, Option.some.injEq, exists_eq_left']
      apply Runs.done
      simp [hformat]
    · simp
  apply hcall.bind
  rintro t ⟨htpc, htlr, htsp, htmem, htcalls, hr0, hr1, hr2, hr3⟩
  apply Runs.call hprintf htpc
  intro u hu
  apply Runs.returned 11 (hu.pc.trans htlr) size rfl hframe
  · rw [hu.saved .sp (by decide), htsp]
  · intro a ha
    rw [hu.mem a ha, htmem]
  · intro v hv hvcalls _
    refine ⟨hv, ⟨_, t.reg, t.mem⟩, ?_, htpc.trans hto, hr0, hr1, hr2, hr3⟩
    rw [hvcalls, hu.calls, htcalls]

theorem call_sumfunc (hpc : s.reg .pc = (image link).addr .main)
    (hframe : Frame kept s.mem (s.reg .sp)) (hdata : Data link x y s.mem (s.reg .sp)) :
    Runs (image link) s fun t => t.reg .pc = (image link).code 0 ∧
      t.reg .lr = (image link).code 18 ∧ t.reg .sp = s.reg .sp - 8 ∧
      t.mem = pushed s.mem (s.reg .sp) (s.reg .ip) (s.reg .lr) ∧ t.calls = s.calls ∧
      t.reg .r1 = x ∧ t.reg .r2 = y := by
  have hx := (load_pushed_of_offFrame hdata.offA (s.reg .ip) (s.reg .lr)).trans hdata.loadA
  have hy := (load_pushed_of_offFrame hdata.offB (s.reg .ip) (s.reg .lr)).trans hdata.loadB
  have ha : (image link).addr .a = link.place .a := rfl
  have hb : (image link).addr .b = link.place .b := rfl
  have hsum : (image link).addr .sumfunc = (image link).code 0 := rfl
  apply Runs.enter 12 hpc size rfl (by decide) (by decide) hframe
  apply Runs.block 13 [.ldrAddr .r1 .a, .ldr .r1 .r1 0, .ldrAddr .r2 .b, .ldr .r2 .r2 0, .bl .sumfunc]
    _ size ⟨_, rfl⟩ (by decide)
  · simp only [execAt, exec, State.reg_set, State.mem_set, reduceCtorEq, if_false, if_true, add_zero, ha, hb,
      hx, hy, Option.map_some, Option.bind_some, Option.some.injEq, exists_eq_left']
    apply Runs.done
    simp [hsum]
  · simp

theorem call_printfunc (hpc : s.reg .pc = (image link).code 18) :
    Runs (image link) s fun t => t.reg .pc = (image link).code 3 ∧
      t.reg .lr = (image link).code 20 ∧ t.reg .sp = s.reg .sp ∧ t.mem = s.mem ∧
      t.calls = s.calls ∧ t.reg .r1 = s.reg .r0 := by
  have hprint : (image link).addr .printfunc = (image link).code 3 := rfl
  apply Runs.block 18 [.mov .r1 (.reg .r0), .bl .printfunc] hpc size ⟨_, rfl⟩ (by decide)
  simp only [execAt, exec, Operand.value, Option.bind_some, Option.some.injEq, exists_eq_left']
  apply Runs.done
  simp [hprint]

theorem off_below (sp a : Word) : a - (sp - 8 - 8) = a - (sp - 8) + 8 := by
  bv_omega

/-- `main` prints both numbers and their sum, and returns: the return addresses of three functions are
found again. -/
theorem main_prints_sum (x y : Word) (hprintf : External (image link) kept .printf)
    (hpc : s.reg .pc = (image link).addr .main) (hframe : Frame kept s.mem (s.reg .sp))
    (hframe' : Frame kept s.mem (s.reg .sp - 8)) (hdata : Data link x y s.mem (s.reg .sp))
    (hoff : OffFrame (s.reg .sp - 8) (link.place .a) ∧ OffFrame (s.reg .sp - 8) (link.place .b)) :
    Runs (image link) s fun t => t.reg .pc = s.reg .lr ∧ t.reg .sp = s.reg .sp ∧
      (∀ a, kept a → 16 ≤ (a - (s.reg .sp - 16)).toNat → t.mem a = s.mem a) ∧
      ∃ c : Call, t.calls = s.calls ++ [c] ∧ c.target = link.place .printf ∧ c.reg .r0 = link.place .format ∧
        c.reg .r1 = x ∧ c.reg .r2 = y ∧ c.reg .r3 = x + y := by
  apply (call_sumfunc hpc hframe hdata).bind
  rintro t ⟨htpc, htlr, htsp, htmem, htcalls, hr1, hr2⟩
  have htframe : Frame kept t.mem (t.reg .sp) := by
    rw [htmem, htsp]
    exact hframe'.pushed _ _ _
  apply (sumfunc htpc htframe).bind
  rintro u ⟨hu, hucalls, hr0⟩
  apply (call_printfunc (hu.pc.trans htlr)).bind
  rintro v ⟨hvpc, hvlr, hvsp, hvmem, hvcalls, hvr1⟩
  have hvsp' : v.reg .sp = s.reg .sp - 8 := by rw [hvsp, hu.sp, htsp]
  have hvframe : Frame kept v.mem (v.reg .sp) := by
    have htrue : Frame (fun _ => True) t.mem (t.reg .sp) :=
      ⟨htframe.mapped, htframe.mapped', fun _ _ => trivial⟩
    rw [hvmem, hvsp', ← htsp]
    exact ⟨(hu.frame htrue).mapped, (hu.frame htrue).mapped', htframe.kept⟩
  have hvdata : Data link x y v.mem (v.reg .sp) := by
    obtain ⟨hoffA, hoffB⟩ := hoff
    rw [hvmem, hvsp']
    rw [← htsp] at hoffA hoffB ⊢
    refine ⟨?_, ?_, hoffA, hoffB⟩
    · rw [hu.load hoffA fun _ _ => trivial, htmem, load_pushed_of_offFrame hdata.offA, hdata.loadA]
    · rw [hu.load hoffB fun _ _ => trivial, htmem, load_pushed_of_offFrame hdata.offB, hdata.loadB]
  apply (printfunc hprintf hvpc hvframe hvdata).bind
  rintro w ⟨hw, c, hwcalls, htarget, hr0', hr1', hr2', hr3'⟩
  -- the frame of `main`, off those of the functions it called
  have hown : Frame (fun a => kept a ∧ 8 ≤ (a - (s.reg .sp - 8 - 8)).toNat) s.mem (s.reg .sp) := by
    refine ⟨hframe.mapped, hframe.mapped', fun a ha => ⟨hframe.kept a ha, ?_⟩⟩
    rw [off_below]
    bv_omega
  apply Runs.returned 20 (hw.pc.trans hvlr) size rfl hown
  · rw [hw.sp, hvsp']
  · rintro a ⟨ha, hle⟩
    rw [hw.mem a ha (by rw [hvsp']; exact hle), hvmem, hu.mem a trivial (by rw [htsp]; exact hle), htmem]
  · intro z hz hzcalls _
    refine ⟨hz.pc, hz.sp, fun a ha hle => ?_, c, ?_, htarget, hr0', hr1', hr2', ?_⟩
    · have hbelow := off_below (s.reg .sp) a
      have htwice : s.reg .sp - 8 - 8 = s.reg .sp - 16 := by bv_omega
      rw [htwice] at hbelow
      apply hz.mem a ⟨ha, _⟩ _
      · rw [htwice]
        omega
      · bv_omega
    · rw [hzcalls, hwcalls, hvcalls, hucalls, htcalls]
    · rw [hr3', hvr1, hr0, hr1, hr2]

end functions

/-- Places for the names of the file. -/
def somewhere : Symbol → Word
  | .a => 0x1000
  | .b => 0x1004
  | .format => 0x1008
  | _ => 0x20000

/-- A call of `main` with the data of the file in memory. -/
def called : State where
  reg
    | .pc => 0x802C
    | .lr => 0x400
    | .sp => 0x7000
    | _ => 0
  z := false
  c := false
  mem a := some (if a = 0x1000 then 11 else if a = 0x1004 then 15 else 0)
  calls := []

theorem main_prints_sum_26 :
    Runs (image ⟨0x7FFC, somewhere, fun a => if a = 0x20000 then some (returning 13) else none⟩) called fun t =>
      t.reg .pc = 0x400 ∧ ∃ c : Call, t.calls = [c] ∧ c.target = 0x20000 ∧ c.reg .r3 = 26 := by
  have hframe : Frame (fun _ => True) called.mem (called.reg .sp) := ⟨by decide, by decide, fun _ _ => trivial⟩
  have hframe' : Frame (fun _ => True) called.mem (called.reg .sp - 8) :=
    ⟨by decide, by decide, fun _ _ => trivial⟩
  apply (main_prints_sum 11 15 ⟨rfl, _, rfl, isFunction_returning _ _⟩ rfl hframe hframe'
    ⟨by decide, by decide, by decide, by decide⟩ (by decide)).bind
  rintro t ⟨hpc, -, -, c, hcalls, htarget, -, -, -, hr3⟩
  exact Runs.done ⟨hpc, c, hcalls, htarget, hr3⟩

end CodingForFun.ArmAssembly.SumSubroutines
