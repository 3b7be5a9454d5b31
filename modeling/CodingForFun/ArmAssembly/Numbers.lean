import CodingForFun.Lib.Arm

/-!
# Comparing and adding numbers, `armassembly/comparenum.s` and `armassembly/sumnumbers64.s`

`comparenum.s` branches on `bhi`, which compares without signs, and prints with `%d`: what it prints is
true as long as the two numbers have the same sign. `sumnumbers64.s` adds two numbers of 64 bits, but
leaves half of the words that its format asks for in registers that `printf` does not look at.
-/

namespace CodingForFun.ArmAssembly

open Lib Arm ByteMemory

namespace Comparenum

inductive Symbol
  | format | a | b | main | print | printf
  deriving DecidableEq, Repr

def lines : List (Line Symbol) := [
  .label .main,
  .instr (.push .ip .lr),
  .instr (.ldrAddr .r0 .format),
  .instr (.ldrAddr .r4 .a),
  .instr (.ldr .r4 .r4 0),
  .instr (.ldrAddr .r5 .b),
  .instr (.ldr .r5 .r5 0),
  .instr (.cmp .r4 (.reg .r5)),
  .instr (.mov .r1 (.reg .r4)),
  .instr (.mov .r2 (.reg .r5)),
  .instr (.bcond .hi .print),
  .instr (.mov .r2 (.reg .r4)),
  .instr (.mov .r1 (.reg .r5)),
  .label .print,
  .instr (.bl .printf),
  .instr (.mov .r0 (.imm 0)),
  .instr (.pop .ip .pc)]

def image (link : Link Symbol) : Image Symbol := ⟨link, lines⟩

section main

variable {link : Link Symbol} {s : State} {kept : Word → Prop} {x y : Word}

theorem size : (Image.instrs (image link).lines).length ≤ 2 ^ 30 := by
  change 15 ≤ 2 ^ 30
  decide

theorem to_print (hpc : s.reg .pc = (image link).addr .main) (hframe : Frame kept s.mem (s.reg .sp))
    (hx : load s.mem (link.place .a) = some x) (hy : load s.mem (link.place .b) = some y)
    (hoff : OffFrame (s.reg .sp) (link.place .a) ∧ OffFrame (s.reg .sp) (link.place .b)) :
    Runs (image link) s fun t => t.reg .pc = (image link).code 12 ∧
      t.reg .sp = s.reg .sp - 8 ∧ t.mem = pushed s.mem (s.reg .sp) (s.reg .ip) (s.reg .lr) ∧
      t.calls = s.calls ∧ t.reg .r0 = link.place .format ∧
      t.reg .r1 = (if y.toNat < x.toNat then x else y) ∧ t.reg .r2 = if y.toNat < x.toNat then y else x := by
  have hx := (load_pushed_of_offFrame hoff.1 (s.reg .ip) (s.reg .lr)).trans hx
  have hy := (load_pushed_of_offFrame hoff.2 (s.reg .ip) (s.reg .lr)).trans hy
  have ha : (image link).addr .a = link.place .a := rfl
  have hb : (image link).addr .b = link.place .b := rfl
  have hformat : (image link).addr .format = link.place .format := rfl
  have hprint : (image link).addr .print = (image link).code 12 := rfl
  apply Runs.enter 0 hpc size rfl (by decide) (by decide) hframe
  apply Runs.block 1 [.ldrAddr .r0 .format, .ldrAddr .r4 .a, .ldr .r4 .r4 0, .ldrAddr .r5 .b, .ldr .r5 .r5 0,
    .cmp .r4 (.reg .r5), .mov .r1 (.reg .r4), .mov .r2 (.reg .r5), .bcond .hi .print] _ size ⟨_, rfl⟩ (by decide)
  · simp only [execAt, exec, Operand.value, State.reg_set, State.mem_set, reduceCtorEq, if_false, if_true,
      add_zero, ha, hb, hx, hy, Option.map_some, Option.bind_some, Option.some.injEq, exists_eq_left', holds_set,
      holds_hi, decide_eq_true_eq]
    by_cases hlt : y.toNat < x.toNat
    · rw [if_pos hlt, if_pos hlt, if_pos hlt]
      apply Runs.done
      simp [hformat, hprint]
    · rw [if_neg hlt, if_neg hlt, if_neg hlt]
      apply Runs.block 10 [.mov .r2 (.reg .r4), .mov .r1 (.reg .r5)] _ size ⟨_, rfl⟩ (by decide)
      · simp only [execAt, exec, Operand.value, Option.bind_some, Option.some.injEq, exists_eq_left']
        apply Runs.done
        simp [hformat]
      · simp
  · simp

theorem toInt_lt_iff (h : y.toNat ≤ x.toNat) : y.toInt < x.toInt ↔ y ≠ x ∧ y.msb = x.msb := by
  have hne : y ≠ x ↔ y.toNat ≠ x.toNat := not_congr BitVec.toNat_inj.symm
  rw [hne, BitVec.toInt_eq_toNat_cond, BitVec.toInt_eq_toNat_cond, BitVec.msb_eq_decide, BitVec.msb_eq_decide,
    decide_eq_decide]
  have hx := x.isLt
  split <;> split <;> omega

/-- `main` prints the two numbers, the larger one without signs first. What it says is true exactly if the
numbers differ and have the same sign. -/
theorem main_prints_greater (x y : Word) (hprintf : External (image link) kept .printf)
    (hpc : s.reg .pc = (image link).addr .main) (hframe : Frame kept s.mem (s.reg .sp))
    (hx : load s.mem (link.place .a) = some x) (hy : load s.mem (link.place .b) = some y)
    (hoff : OffFrame (s.reg .sp) (link.place .a) ∧ OffFrame (s.reg .sp) (link.place .b)) :
    Runs (image link) s fun t => Returned kept s t ∧ t.reg .r0 = 0 ∧
      ∃ c : Call, t.calls = s.calls ++ [c] ∧ c.target = link.place .printf ∧ c.reg .r0 = link.place .format ∧
        (c.reg .r1 = x ∧ c.reg .r2 = y ∨ c.reg .r1 = y ∧ c.reg .r2 = x) ∧
        (c.reg .r2).toNat ≤ (c.reg .r1).toNat ∧
        ((c.reg .r2).toInt < (c.reg .r1).toInt ↔ x ≠ y ∧ x.msb = y.msb) := by
  apply (to_print hpc hframe hx hy hoff).bind
  rintro t ⟨htpc, htsp, htmem, htcalls, hr0, hr1, hr2⟩
  have hto : (image link).addr .printf = link.place .printf := rfl
  have hcall : Runs (image link) t fun u => u.reg .pc = (image link).addr .printf ∧
      u.reg .lr = (image link).code 13 ∧ u.mem = t.mem ∧ u.calls = t.calls ∧
      ∀ r, r ≠ .pc → r ≠ .lr → u.reg r = t.reg r := by
    apply Runs.block 12 [.bl .printf] htpc size ⟨_, rfl⟩ (by decide)
    simp only [execAt, exec, Option.bind_some, Option.some.injEq, exists_eq_left']
    apply Runs.done
    refine ⟨by simp, by simp, rfl, rfl, fun r hpc hlr => ?_⟩
    simp [hpc, hlr]
  apply hcall.bind
  rintro u ⟨hupc, hulr, humem, hucalls, hureg⟩
  apply Runs.call hprintf hupc
  intro v hv
  apply Runs.block 13 [.mov .r0 (.imm 0)] (hv.pc.trans hulr) size ⟨_, rfl⟩ (by decide)
  simp only [execAt, exec, Operand.value, Option.bind_some, Option.some.injEq, exists_eq_left']
  apply Runs.returned 14 _ size rfl hframe _ _
  · intro w hw hwcalls hwreg
    refine ⟨hw, ?_, ⟨_, u.reg, u.mem⟩, ?_, hupc.trans hto, ?_, ?_, ?_, ?_⟩
    · rw [hwreg .r0 (by decide) (by decide) (by decide)]
      simp
    · rw [hwcalls, State.calls_set, State.calls_set, hv.calls, hucalls, htcalls]
    · exact (hureg .r0 (by decide) (by decide)).trans hr0
    · simp only [hureg .r1 (by decide) (by decide), hureg .r2 (by decide) (by decide), hr1, hr2]
      split
      · exact .inl ⟨rfl, rfl⟩
      · exact .inr ⟨rfl, rfl⟩
    · simp only [hureg .r1 (by decide) (by decide), hureg .r2 (by decide) (by decide), hr1, hr2]
      split
      case isTrue hlt => exact Nat.le_of_lt hlt
      case isFalse hle => exact Nat.le_of_not_lt hle
    · simp only [hureg .r1 (by decide) (by decide), hureg .r2 (by decide) (by decide), hr1, hr2]
      split
      case isTrue hlt =>
        rw [toInt_lt_iff (Nat.le_of_lt hlt), ne_comm, eq_comm]
      case isFalse hle => exact toInt_lt_iff (Nat.le_of_not_lt hle)
  · simp
  · simp only [State.reg_set, reduceCtorEq, if_false]
    rw [hv.saved .sp (by decide), hureg .sp (by decide) (by decide), htsp]
  · intro a ha
    rw [State.mem_set, State.mem_set, hv.mem a ha, humem, htmem]

end main

/-- Places for the names of the file. -/
def somewhere : Symbol → Word
  | .a => 0x1000
  | .b => 0x1004
  | .format => 0x1008
  | _ => 0x20000

/-- A call of `main` with -1 and 1. -/
def called : State where
  reg
    | .pc => 0x8000
    | .lr => 0x400
    | .sp => 0x7000
    | _ => 0
  z := false
  c := false
  mem a := some (if 0x1000 ≤ a.toNat ∧ a.toNat < 0x1004 then 0xFF else if a = 0x1004 then 1 else 0)
  calls := []

theorem main_prints_greater_neg :
    Runs (image ⟨0x8000, somewhere, fun a => if a = 0x20000 then some (returning 21) else none⟩) called fun t =>
      ∃ c : Call, t.calls = [c] ∧ ¬ (c.reg .r2).toInt < (c.reg .r1).toInt := by
  have hframe : Frame (fun _ => True) called.mem (called.reg .sp) := ⟨by decide, by decide, fun _ _ => trivial⟩
  apply (main_prints_greater 0xFFFFFFFF 1 ⟨rfl, _, rfl, isFunction_returning _ _⟩ rfl hframe (by decide)
    (by decide) (by decide)).bind
  rintro t ⟨-, -, c, hcalls, -, -, -, -, hiff⟩
  exact Runs.done ⟨c, hcalls, fun h => absurd (hiff.mp h).2 (by decide)⟩

end Comparenum

namespace Sumnumbers64

inductive Symbol
  | format | a | b | main | printf
  deriving DecidableEq, Repr

def lines : List (Line Symbol) := [
  .label .main,
  .instr (.push .ip .lr),
  .instr (.ldrAddr .r0 .a),
  .instr (.ldr .r1 .r0 0),
  .instr (.ldr .r2 .r0 4),
  .instr (.ldrAddr .r0 .b),
  .instr (.ldr .r3 .r0 0),
  .instr (.ldr .r4 .r0 4),
  .instr (.adds .r5 .r1 (.reg .r3)),
  .instr (.adc .r6 .r2 (.reg .r4)),
  .instr (.ldrAddr .r0 .format),
  .instr (.bl .printf),
  .instr (.mov .r0 (.imm 0)),
  .instr (.pop .ip .pc)]

def image (link : Link Symbol) : Image Symbol := ⟨link, lines⟩

theorem toNat_words (h l : Word) : (h ++ l).toNat = h.toNat * 2 ^ 32 + l.toNat := by
  rw [BitVec.toNat_append, ← Nat.shiftLeft_add_eq_or_of_lt l.isLt, Nat.shiftLeft_eq]

theorem add_carry (x x' y y' : Word) :
    (x' + y' + (if 2 ^ 32 ≤ x.toNat + y.toNat then 1 else 0)) ++ (x + y) = (x' ++ x) + (y' ++ y) := by
  apply BitVec.eq_of_toNat_eq
  have hx := x.isLt
  have hy := y.isLt
  rw [BitVec.toNat_add (x' ++ x), toNat_words, toNat_words, toNat_words, BitVec.toNat_add, BitVec.toNat_add,
    BitVec.toNat_add]
  split
  case isTrue hcarry =>
    have hone : BitVec.toNat (1 : Word) = 1 := rfl
    rw [hone]
    omega
  case isFalse hcarry =>
    have hzero : BitVec.toNat (0 : Word) = 0 := rfl
    rw [hzero]
    omega

section main

variable {link : Link Symbol} {s : State} {kept : Word → Prop} {x x' y y' : Word}

theorem size : (Image.instrs (image link).lines).length ≤ 2 ^ 30 := by
  change 13 ≤ 2 ^ 30
  decide

/-- Two words of memory off the stack. -/
def Pair (m : ByteMemory) (sp a x x' : Word) : Prop :=
  load m a = some x ∧ load m (a + 4) = some x' ∧ OffFrame sp a ∧ OffFrame sp (a + 4)

theorem to_printf (hpc : s.reg .pc = (image link).addr .main)
    (hframe : Frame kept s.mem (s.reg .sp)) (ha : Pair s.mem (s.reg .sp) (link.place .a) x x')
    (hb : Pair s.mem (s.reg .sp) (link.place .b) y y') :
    Runs (image link) s fun t => t.reg .pc = (image link).addr .printf ∧
      t.reg .lr = (image link).code 11 ∧ t.reg .sp = s.reg .sp - 8 ∧
      t.mem = pushed s.mem (s.reg .sp) (s.reg .ip) (s.reg .lr) ∧ t.calls = s.calls ∧
      t.reg .r0 = link.place .format ∧ t.reg .r1 = x ∧ t.reg .r2 = x' ∧ t.reg .r3 = y ∧
      t.reg .r6 ++ t.reg .r5 = (x' ++ x) + (y' ++ y) := by
  obtain ⟨hx, hx', hoffx, hoffx'⟩ := ha
  obtain ⟨hy, hy', hoffy, hoffy'⟩ := hb
  replace hx := (load_pushed_of_offFrame hoffx (s.reg .ip) (s.reg .lr)).trans hx
  replace hx' := (load_pushed_of_offFrame hoffx' (s.reg .ip) (s.reg .lr)).trans hx'
  replace hy := (load_pushed_of_offFrame hoffy (s.reg .ip) (s.reg .lr)).trans hy
  replace hy' := (load_pushed_of_offFrame hoffy' (s.reg .ip) (s.reg .lr)).trans hy'
  have ha : (image link).addr .a = link.place .a := rfl
  have hb : (image link).addr .b = link.place .b := rfl
  have hformat : (image link).addr .format = link.place .format := rfl
  apply Runs.enter 0 hpc size rfl (by decide) (by decide) hframe
  apply Runs.block 1 [.ldrAddr .r0 .a, .ldr .r1 .r0 0, .ldr .r2 .r0 4, .ldrAddr .r0 .b, .ldr .r3 .r0 0,
    .ldr .r4 .r0 4, .adds .r5 .r1 (.reg .r3), .adc .r6 .r2 (.reg .r4), .ldrAddr .r0 .format, .bl .printf]
    _ size ⟨_, rfl⟩ (by decide)
  · simp only [execAt, exec, Operand.value, State.reg_set, State.mem_set, State.c_set, State.c_setFlags,
      State.reg_setFlags, reduceCtorEq, if_false, if_true, add_zero, ha, hb, hx, hx', hy, hy',
      Option.map_some, Option.bind_some, Option.some.injEq, exists_eq_left', decide_eq_true_eq]
    apply Runs.done
    refine ⟨by simp, by simp, by simp, by simp, by simp, by simp [hformat], by simp, by simp, by simp, ?_⟩
    rw [← add_carry]
    simp
  · simp

/-- The 64-bit sum is in `r6` and `r5` when `printf` is called. But of the six words of the format `printf`
takes the second of `b` from the stack, where it finds the saved `ip`, and instead of the sum the return
address of `main` and the word above. -/
theorem main_sums (x x' y y' z : Word) (hprintf : External (image link) kept .printf)
    (hpc : s.reg .pc = (image link).addr .main) (hframe : Frame kept s.mem (s.reg .sp))
    (ha : Pair s.mem (s.reg .sp) (link.place .a) x x') (hb : Pair s.mem (s.reg .sp) (link.place .b) y y')
    (hz : load s.mem (s.reg .sp) = some z) :
    Runs (image link) s fun t => Returned kept s t ∧ t.reg .r0 = 0 ∧
      ∃ c : Call, t.calls = s.calls ++ [c] ∧ c.target = link.place .printf ∧
        c.reg .r6 ++ c.reg .r5 = (x' ++ x) + (y' ++ y) ∧
        (List.range 7).map c.arg =
          [link.place .format, x, x', y, s.reg .ip, s.reg .lr, z].map some := by
  have hto : (image link).addr .printf = link.place .printf := rfl
  apply (to_printf hpc hframe ha hb).bind
  rintro t ⟨htpc, htlr, htsp, htmem, htcalls, hr0, hr1, hr2, hr3, hsum⟩
  obtain ⟨hip, hlr⟩ := load_frame hframe htsp fun a _ => congrFun htmem a
  have habove : load t.mem (t.reg .sp + 8) = some z := by
    have hoff : OffFrame (s.reg .sp) (s.reg .sp) := by
      unfold OffFrame Apart
      refine ⟨⟨?_, ?_⟩, ?_, ?_⟩ <;> bv_omega
    rw [htmem, htsp, sub_add_cancel, load_pushed_of_offFrame hoff, hz]
  apply Runs.call hprintf htpc
  intro v hv
  apply Runs.block 11 [.mov .r0 (.imm 0)] (hv.pc.trans htlr) size ⟨_, rfl⟩ (by decide)
  simp only [execAt, exec, Operand.value, Option.bind_some, Option.some.injEq, exists_eq_left']
  apply Runs.returned 12 _ size rfl hframe _ _
  · intro w hw hwcalls hwreg
    refine ⟨hw, ?_, ⟨_, t.reg, t.mem⟩, ?_, htpc.trans hto, hsum, ?_⟩
    · rw [hwreg .r0 (by decide) (by decide) (by decide)]
      simp
    · rw [hwcalls, State.calls_set, State.calls_set, hv.calls, htcalls]
    · change [some (t.reg .r0), some (t.reg .r1), some (t.reg .r2), some (t.reg .r3), load t.mem (t.reg .sp + 0),
        load t.mem (t.reg .sp + 4), load t.mem (t.reg .sp + 8)] = _
      rw [hr0, hr1, hr2, hr3, add_zero, hip, hlr, habove]
      rfl
  · simp
  · simp only [State.reg_set, reduceCtorEq, if_false]
    rw [hv.saved .sp (by decide), htsp]
  · intro a ha
    rw [State.mem_set, State.mem_set, hv.mem a ha, htmem]

end main

/-- Places for the names of the file. -/
def somewhere : Symbol → Word
  | .a => 0x1000
  | .b => 0x1008
  | .format => 0x1010
  | _ => 0x20000

/-- A call of `main` with the data of the file in memory. -/
def called : State where
  reg
    | .pc => 0x8000
    | .lr => 0x400
    | .sp => 0x7000
    | _ => 0
  z := false
  c := false
  mem a := some (if 0x1000 ≤ a.toNat ∧ a.toNat < 0x1008 then 0x11
    else if 0x1008 ≤ a.toNat ∧ a.toNat < 0x1010 then 0x22 else 0)
  calls := []

theorem main_sums_fileData :
    Runs (image ⟨0x8000, somewhere, fun a => if a = 0x20000 then some (returning 42) else none⟩) called fun t =>
      ∃ c : Call, t.calls = [c] ∧ c.reg .r6 ++ c.reg .r5 = 0x3333333333333333#64 ∧ c.arg 5 = some 0x400 := by
  have hframe : Frame (fun _ => True) called.mem (called.reg .sp) := ⟨by decide, by decide, fun _ _ => trivial⟩
  apply (main_sums 0x11111111 0x11111111 0x22222222 0x22222222 0 ⟨rfl, _, rfl, isFunction_returning _ _⟩ rfl
    hframe ⟨by decide, by decide, by decide, by decide⟩ ⟨by decide, by decide, by decide, by decide⟩
    (by decide)).bind
  rintro t ⟨-, -, c, hcalls, -, hsum, hargs⟩
  apply Runs.done
  refine ⟨c, hcalls, hsum, ?_⟩
  exact congrArg (fun l => (l.getD 5 none)) hargs

end Sumnumbers64

end CodingForFun.ArmAssembly
