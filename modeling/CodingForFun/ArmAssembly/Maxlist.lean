import CodingForFun.Lib.Arm

/-!
# The largest word of a table, `armassembly/maxlist.s`
-/

namespace CodingForFun.ArmAssembly.Maxlist

open Lib Arm ByteMemory

inductive Symbol
  | maxstr | table | length | main | loop | nextloop | done | printf
  deriving DecidableEq, Repr

def lines : List (Line Symbol) := [
  .label .main,
  .instr (.push .ip .lr),
  .instr (.ldrAddr .r2 .table),
  .instr (.mov .r4 (.imm 0)),
  .instr (.ldrAddr .r5 .length),
  .instr (.ldr .r5 .r5 0),
  .instr (.cmp .r5 (.imm 0)),
  .instr (.bcond .eq .done),
  .label .loop,
  .instr (.ldr .r3 .r2 0),
  .instr (.cmp .r3 (.reg .r4)),
  .instr (.bcond .ls .nextloop),
  .instr (.mov .r4 (.reg .r3)),
  .label .nextloop,
  .instr (.add .r2 .r2 (.imm 4)),
  .instr (.subs .r5 .r5 (.imm 1)),
  .instr (.bcond .ne .loop),
  .label .done,
  .instr (.ldrAddr .r0 .maxstr),
  .instr (.mov .r1 (.reg .r4)),
  .instr (.bl .printf),
  .instr (.pop .ip .pc)]

def image (link : Link Symbol) : Image Symbol := ⟨link, lines⟩

/-- The largest of the words, and zero if there are none. -/
def largest (xs : List Word) : ℕ := (xs.map BitVec.toNat).foldl max 0

theorem largest_concat (xs : List Word) (x : Word) : largest (xs ++ [x]) = max (largest xs) x.toNat := by
  unfold largest
  rw [List.map_append, List.foldl_append]
  rfl

section main

variable {link : Link Symbol}

theorem size : (Image.instrs (image link).lines).length ≤ 2 ^ 30 := by
  change 18 ≤ 2 ^ 30
  decide

theorem test_max {t : State} {x : Word} (hpc : t.reg .pc = (image link).code 7)
    (hx : load t.mem (t.reg .r2) = some x) :
    Runs (image link) t fun t' => t'.reg .pc = (image link).code 11 ∧
      t'.mem = t.mem ∧ t'.calls = t.calls ∧ t'.reg .sp = t.reg .sp ∧ t'.reg .r2 = t.reg .r2 ∧
      t'.reg .r5 = t.reg .r5 ∧ (t'.reg .r4).toNat = max (t.reg .r4).toNat x.toNat := by
  have hnext : (image link).addr .nextloop = (image link).code 11 := rfl
  apply Runs.block 7 [.ldr .r3 .r2 0, .cmp .r3 (.reg .r4), .bcond .ls .nextloop] hpc size ⟨_, rfl⟩ (by decide)
  simp only [execAt, exec, Operand.value, State.reg_set, State.mem_set, reduceCtorEq,
    if_false, if_true, add_zero, hx, Option.map_some, Option.bind_some, Option.some.injEq, exists_eq_left',
    holds_set, holds_ls, decide_eq_true_eq]
  by_cases hle : x.toNat ≤ (t.reg .r4).toNat
  · rw [if_pos hle, hnext]
    apply Runs.done
    simp [hle]
  · rw [if_neg hle]
    apply Runs.block 10 [.mov .r4 (.reg .r3)] _ size ⟨_, rfl⟩ (by decide)
    · simp only [execAt, exec, Operand.value, Option.bind_some, Option.some.injEq, exists_eq_left']
      apply Runs.done
      simp
      omega
    · simp

theorem count_down {t : State} (hpc : t.reg .pc = (image link).code 11) :
    Runs (image link) t fun t' =>
      t'.reg .pc = (image link).code (if t.reg .r5 = 1 then 14 else 7) ∧
      t'.mem = t.mem ∧ t'.calls = t.calls ∧ t'.reg .sp = t.reg .sp ∧ t'.reg .r2 = t.reg .r2 + 4 ∧
      t'.reg .r5 = t.reg .r5 - 1 ∧ t'.reg .r4 = t.reg .r4 := by
  have hloop : (image link).addr .loop = (image link).code 7 := rfl
  apply Runs.block 11 [.add .r2 .r2 (.imm 4), .subs .r5 .r5 (.imm 1), .bcond .ne .loop] hpc size ⟨_, rfl⟩
    (by decide)
  simp only [execAt, exec, Operand.value, Option.bind_some, Option.some.injEq, exists_eq_left',
    State.reg_set, reduceCtorEq, if_false, holds_set, holds_ne, decide_eq_true_eq]
  by_cases hone : t.reg .r5 = 1
  · rw [if_neg (not_not.mpr hone), if_pos hone]
    apply Runs.done
    simp
  · rw [if_pos hone, if_neg hone, hloop]
    apply Runs.done
    simp

/-- With `n` words to go: at `loop`, or at `done`. -/
structure Inv (im : Image Symbol) (xs : List Word) (m : ByteMemory) (s : State) (n : ℕ) (t : State) : Prop where
  le : n ≤ xs.length
  pc : t.reg .pc = im.code (if n = 0 then 14 else 7)
  mem : t.mem = m
  calls : t.calls = s.calls
  sp : t.reg .sp = s.reg .sp - 8
  table : t.reg .r2 = im.place .table + BitVec.ofNat 32 (4 * (xs.length - n))
  count : t.reg .r5 = BitVec.ofNat 32 n
  max : (t.reg .r4).toNat = largest (xs.take (xs.length - n))

theorem Inv.round {xs : List Word} {m : ByteMemory} {s t : State} {n : ℕ} (hlen : xs.length < 2 ^ 32)
    (htable : ∀ i (hi : i < xs.length), load m (link.place .table + BitVec.ofNat 32 (4 * i)) = some xs[i])
    (h : Inv (image link) xs m s (n + 1) t) :
    Runs (image link) t (Inv (image link) xs m s n) := by
  have hle := h.le
  have hlt : xs.length - (n + 1) < xs.length := by omega
  have hsucc : xs.length - n = xs.length - (n + 1) + 1 := by omega
  have hx : load t.mem (t.reg .r2) = some xs[xs.length - (n + 1)] := by
    rw [h.mem, h.table]
    exact htable _ hlt
  have hpc := h.pc
  rw [if_neg (Nat.succ_ne_zero n)] at hpc
  apply (test_max hpc hx).bind
  rintro u ⟨hupc, humem, hucalls, husp, hur2, hur5, hur4⟩
  apply (count_down hupc).bind
  rintro v ⟨hvpc, hvmem, hvcalls, hvsp, hvr2, hvr5, hvr4⟩
  apply Runs.done
  have hone : u.reg .r5 = 1 ↔ n = 0 := by
    rw [hur5, h.count]
    constructor
    · intro heq
      have hnat := congrArg BitVec.toNat heq
      rw [BitVec.toNat_ofNat, Nat.mod_eq_of_lt (by omega)] at hnat
      exact Nat.succ.inj hnat
    · rintro rfl
      rfl
  constructor
  · omega
  · rw [hvpc]
    simp only [hone]
  · rw [hvmem, humem, h.mem]
  · rw [hvcalls, hucalls, h.calls]
  · rw [hvsp, husp, h.sp]
  · rw [hvr2, hur2, h.table, hsucc, Nat.mul_add, BitVec.ofNat_add, BitVec.add_assoc]
    rfl
  · rw [hvr5, hur5, h.count, BitVec.ofNat_add]
    exact add_sub_cancel_right _ _
  · rw [hvr4, hur4, h.max, hsucc, List.take_add_one, List.getElem?_eq_getElem hlt]
    exact (largest_concat _ _).symm

theorem Inv.start {xs : List Word} {s : State} {kept : Word → Prop} (hlen : xs.length < 2 ^ 32)
    (hpc : s.reg .pc = (image link).addr .main) (hframe : Frame kept s.mem (s.reg .sp))
    (hlength : load s.mem (link.place .length) = some (BitVec.ofNat 32 xs.length))
    (hoff : OffFrame (s.reg .sp) (link.place .length)) :
    Runs (image link) s (Inv (image link) xs
      (pushed s.mem (s.reg .sp) (s.reg .ip) (s.reg .lr)) s xs.length) := by
  have hdone : (image link).addr .done = (image link).code 14 := rfl
  have htable : (image link).addr .table = link.place .table := rfl
  have hlength' : (image link).addr .length = link.place .length := rfl
  have hload := (load_pushed_of_offFrame hoff (s.reg .ip) (s.reg .lr)).trans hlength
  apply Runs.enter 0 hpc size rfl (by decide) (by decide) hframe
  apply Runs.block 1 [.ldrAddr .r2 .table, .mov .r4 (.imm 0), .ldrAddr .r5 .length, .ldr .r5 .r5 0,
    .cmp .r5 (.imm 0), .bcond .eq .done] _ size ⟨_, rfl⟩ (by decide)
  · simp only [execAt, exec, Operand.value, State.reg_set, State.mem_set, reduceCtorEq, if_false, if_true,
      add_zero, htable, hlength', hload, Option.map_some, Option.bind_some, Option.some.injEq,
      exists_eq_left', holds_set, holds_eq, decide_eq_true_eq]
    have hzero : BitVec.ofNat 32 xs.length = 0 ↔ xs.length = 0 := by
      rw [← BitVec.toNat_inj, BitVec.toNat_ofNat, Nat.mod_eq_of_lt hlen]
      rfl
    have himage : (image link).place .table = link.place .table := rfl
    simp only [hzero]
    apply Runs.done
    split
    case isTrue hnil =>
      constructor <;> simp [hnil, hdone, himage, largest]
    case isFalse hcons =>
      constructor <;> simp [hcons, himage, largest]
  · simp

theorem call_printf {t : State} (hpc : t.reg .pc = (image link).code 14) :
    Runs (image link) t fun t' => t'.reg .pc = (image link).addr .printf ∧
      t'.mem = t.mem ∧ t'.calls = t.calls ∧ t'.reg .sp = t.reg .sp ∧
      t'.reg .lr = (image link).code 17 ∧ t'.reg .r0 = link.place .maxstr ∧
      t'.reg .r1 = t.reg .r4 ∧ t'.reg .r4 = t.reg .r4 ∧ t'.reg .r5 = t.reg .r5 := by
  have hmaxstr : (image link).addr .maxstr = link.place .maxstr := rfl
  apply Runs.block 14 [.ldrAddr .r0 .maxstr, .mov .r1 (.reg .r4), .bl .printf] hpc size ⟨_, rfl⟩ (by decide)
  simp only [execAt, exec, Operand.value, Option.bind_some, Option.some.injEq, exists_eq_left']
  apply Runs.done
  simp [hmaxstr]

/-- `main` prints the largest word of the table once, and returns. It does not give `r4` and `r5` back. -/
theorem main_prints_largest (xs : List Word) {s : State} {kept : Word → Prop}
    (hlen : xs.length < 2 ^ 32) (hprintf : External (image link) kept .printf)
    (hpc : s.reg .pc = (image link).addr .main) (hframe : Frame kept s.mem (s.reg .sp))
    (hlength : load s.mem (link.place .length) = some (BitVec.ofNat 32 xs.length))
    (htable : ∀ i (hi : i < xs.length), load s.mem (link.place .table + BitVec.ofNat 32 (4 * i)) = some xs[i])
    (hoff : OffFrame (s.reg .sp) (link.place .length))
    (hoffs : ∀ i < xs.length, OffFrame (s.reg .sp) (link.place .table + BitVec.ofNat 32 (4 * i))) :
    Runs (image link) s fun t => Returned kept s t ∧
      ∃ c : Call, t.calls = s.calls ++ [c] ∧ c.target = link.place .printf ∧ c.reg .r0 = link.place .maxstr ∧
        (c.reg .r1).toNat = largest xs ∧ t.reg .r4 = c.reg .r1 ∧ t.reg .r5 = 0 := by
  have htable' : ∀ i (hi : i < xs.length), load (pushed s.mem (s.reg .sp) (s.reg .ip) (s.reg .lr))
      (link.place .table + BitVec.ofNat 32 (4 * i)) = some xs[i] := by
    intro i hi
    rw [load_pushed_of_offFrame (hoffs i hi) _ _, htable i hi]
  apply (Inv.start hlen hpc hframe hlength hoff).bind
  intro t ht
  apply (Runs.loop (fun n t => Inv.round hlen htable') xs.length t ht).bind
  intro u hu
  apply (call_printf hu.pc).bind
  rintro v ⟨hvpc, hvmem, hvcalls, hvsp, hvlr, hr0, hr1, hr4, hr5⟩
  apply Runs.call hprintf hvpc
  intro w hw
  apply Runs.returned 17 (hw.pc.trans hvlr) size rfl hframe
  · rw [hw.saved .sp (by decide), hvsp, hu.sp]
  · intro a ha
    rw [hw.mem a ha, hvmem, hu.mem]
  · intro x hx hxcalls hxreg
    have hmax := hu.max
    rw [Nat.sub_zero, List.take_length] at hmax
    refine ⟨hx, ⟨_, v.reg, v.mem⟩, ?_, hvpc, hr0, (congrArg BitVec.toNat hr1).trans hmax, ?_, ?_⟩
    · rw [hxcalls, hw.calls, hvcalls, hu.calls]
    · rw [hxreg .r4 (by decide) (by decide) (by decide), hw.saved .r4 (by decide), hr4]
      exact hr1.symm
    · rw [hxreg .r5 (by decide) (by decide) (by decide), hw.saved .r5 (by decide), hr5, hu.count]
      rfl

end main

/-- Places for the names of the file. -/
def somewhere : Symbol → Word
  | .table => 0x1000
  | .length => 0x1014
  | .maxstr => 0x1018
  | _ => 0x20000

/-- A call of `main` with the data of the file in memory. -/
def called : State where
  reg
    | .pc => 0x8000
    | .lr => 0x400
    | .sp => 0x7000
    | _ => 0
  z := false
  c := false
  mem a := some (if a = 0x1000 then 23 else if a = 0x1004 then 43 else if a = 0x1008 then 41
    else if a = 0x100C then 54 else if a = 0x1010 then 31 else if a = 0x1014 then 5 else 0)
  calls := []

theorem main_prints_largest_54 :
    Runs (image ⟨0x8000, somewhere, fun a => if a = 0x20000 then some (returning 8) else none⟩) called fun t =>
      ∃ c : Call, t.calls = [c] ∧ c.target = 0x20000 ∧ c.reg .r1 = 54 := by
  have hframe : Frame (fun _ => True) called.mem (called.reg .sp) := ⟨by decide, by decide, fun _ _ => trivial⟩
  apply (main_prints_largest [23, 43, 41, 54, 31] (by decide) ⟨rfl, _, rfl, isFunction_returning _ _⟩ rfl hframe
    (by decide) (by decide) (by decide) (by decide)).bind
  rintro t ⟨-, c, hcalls, htarget, -, hr1, -⟩
  apply Runs.done
  refine ⟨c, hcalls, htarget, ?_⟩
  apply BitVec.eq_of_toNat_eq
  exact hr1

end CodingForFun.ArmAssembly.Maxlist
