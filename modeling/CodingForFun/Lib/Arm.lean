import CodingForFun.Lib.ByteMemory
import Mathlib.Logic.Relation

/-!
# Assembly programs for the ARM

A program is the list of its lines, labels and instructions; `L` are the names it uses. Linking gives the
labels their addresses from `base` on and takes those of the data and of the functions elsewhere from
`place`. A function elsewhere (`elsewhere`) runs in one step, and the calls of such functions are recorded
with the registers they are made with.

`Runs im s Q` says that the machine gets from `s` to a state with `Q`. Its rules are those of sequences
(`Runs.bind`), of straight pieces of code (`Runs.block`), of calls (`Runs.call`) and of loops that count
down (`Runs.loop`).
-/

namespace CodingForFun.Lib.Arm

open ByteMemory

inductive Reg
  | r0 | r1 | r2 | r3 | r4 | r5 | r6 | r7 | r8 | r9 | r10 | r11 | ip | sp | lr | pc
  deriving DecidableEq, Repr

inductive Cond
  | eq | ne | hi | ls
  deriving DecidableEq, Repr

inductive Operand
  | imm (n : Word)
  | reg (r : Reg)

inductive Instr (L : Type)
  | mov (rd : Reg) (op : Operand)
  | add (rd rn : Reg) (op : Operand)
  | adds (rd rn : Reg) (op : Operand)
  | adc (rd rn : Reg) (op : Operand)
  | subs (rd rn : Reg) (op : Operand)
  | cmp (rn : Reg) (op : Operand)
  /-- `ldr rd, =l` -/
  | ldrAddr (rd : Reg) (l : L)
  | ldr (rd rn : Reg) (offset : Word)
  | push (r r' : Reg)
  | pop (r r' : Reg)
  | b (l : L)
  | bcond (c : Cond) (l : L)
  | bl (l : L)

/-- A line of a program. -/
inductive Line (L : Type)
  | label (l : L)
  | instr (i : Instr L)

/-- A call of a function elsewhere. -/
structure Call where
  target : Word
  reg : Reg → Word
  mem : ByteMemory

/-- The arguments, of which the first four are in registers. -/
def Call.arg (c : Call) : ℕ → Option Word
  | 0 => some (c.reg .r0)
  | 1 => some (c.reg .r1)
  | 2 => some (c.reg .r2)
  | 3 => some (c.reg .r3)
  | k + 4 => load c.mem (c.reg .sp + BitVec.ofNat 32 (4 * k))

structure State where
  reg : Reg → Word
  /-- the flags Z and C -/
  z : Bool
  c : Bool
  mem : ByteMemory
  calls : List Call

namespace State

def set (s : State) (r : Reg) (w : Word) : State := { s with reg := Function.update s.reg r w }

def setFlags (s : State) (z c : Bool) : State := { s with z := z, c := c }

variable (s : State) (r r' : Reg) (w : Word) (z c : Bool)

@[simp] theorem reg_set : (s.set r w).reg r' = if r' = r then w else s.reg r' := Function.update_apply ..

@[simp] theorem mem_set : (s.set r w).mem = s.mem := rfl
@[simp] theorem calls_set : (s.set r w).calls = s.calls := rfl
@[simp] theorem z_set : (s.set r w).z = s.z := rfl
@[simp] theorem c_set : (s.set r w).c = s.c := rfl
@[simp] theorem reg_setFlags : (s.setFlags z c).reg = s.reg := rfl
@[simp] theorem mem_setFlags : (s.setFlags z c).mem = s.mem := rfl
@[simp] theorem calls_setFlags : (s.setFlags z c).calls = s.calls := rfl
@[simp] theorem z_setFlags : (s.setFlags z c).z = z := rfl
@[simp] theorem c_setFlags : (s.setFlags z c).c = c := rfl

end State

def Operand.value (s : State) : Operand → Word
  | .imm n => n
  | .reg r => s.reg r

def Cond.holds (s : State) : Cond → Bool
  | .eq => s.z
  | .ne => !s.z
  | .hi => s.c && !s.z
  | .ls => !s.c || s.z

/-- The flags after `x - y`. -/
def State.subFlags (s : State) (x y : Word) : State := s.setFlags (x == y) (decide (y.toNat ≤ x.toNat))

@[simp] theorem State.reg_subFlags (s : State) (x y : Word) : (s.subFlags x y).reg = s.reg := rfl
@[simp] theorem State.mem_subFlags (s : State) (x y : Word) : (s.subFlags x y).mem = s.mem := rfl
@[simp] theorem State.calls_subFlags (s : State) (x y : Word) : (s.subFlags x y).calls = s.calls := rfl

section conditions

variable (s : State) (x y w : Word) (r : Reg)

@[simp] theorem holds_set (c : Cond) : c.holds (s.set r w) = c.holds s := by
  cases c <;> rfl

@[simp] theorem holds_eq : Cond.eq.holds (s.subFlags x y) = decide (x = y) := rfl

@[simp] theorem holds_ne : Cond.ne.holds (s.subFlags x y) = decide (x ≠ y) := by
  rw [decide_not]
  rfl

@[simp] theorem holds_hi : Cond.hi.holds (s.subFlags x y) = decide (y.toNat < x.toNat) := by
  change (decide (y.toNat ≤ x.toNat) && !(x == y)) = decide (y.toNat < x.toNat)
  rw [Bool.eq_iff_iff]
  have heq : x = y ↔ x.toNat = y.toNat := BitVec.toNat_inj.symm
  simp only [Bool.and_eq_true, decide_eq_true_eq, Bool.not_eq_true', beq_eq_false_iff_ne, ne_eq, heq]
  omega

@[simp] theorem holds_ls : Cond.ls.holds (s.subFlags x y) = decide (x.toNat ≤ y.toNat) := by
  change (!decide (y.toNat ≤ x.toNat) || x == y) = decide (x.toNat ≤ y.toNat)
  rw [Bool.eq_iff_iff]
  have heq : x = y ↔ x.toNat = y.toNat := BitVec.toNat_inj.symm
  simp only [Bool.or_eq_true, Bool.not_eq_true', decide_eq_true_eq, decide_eq_false_iff_not, beq_iff_eq, heq]
  omega

end conditions

/-- What an instruction does; `pc` is the address of the next one. -/
def exec {L : Type} (addr : L → Word) (s : State) : Instr L → Option State
  | .mov rd op => some (s.set rd (op.value s))
  | .add rd rn op => some (s.set rd (s.reg rn + op.value s))
  | .adds rd rn op =>
    let sum := s.reg rn + op.value s
    some ((s.setFlags (sum == 0) (decide (2 ^ 32 ≤ (s.reg rn).toNat + (op.value s).toNat))).set rd sum)
  | .adc rd rn op => some (s.set rd (s.reg rn + op.value s + if s.c then 1 else 0))
  | .subs rd rn op => some ((s.subFlags (s.reg rn) (op.value s)).set rd (s.reg rn - op.value s))
  | .cmp rn op => some (s.subFlags (s.reg rn) (op.value s))
  | .ldrAddr rd l => some (s.set rd (addr l))
  | .ldr rd rn offset => (load s.mem (s.reg rn + offset)).map fun w => s.set rd w
  | .push r r' => do
    let m ← store s.mem (s.reg .sp - 8) (s.reg r)
    let m ← store m (s.reg .sp - 4) (s.reg r')
    some ({ s with mem := m }.set .sp (s.reg .sp - 8))
  | .pop r r' => do
    let w ← load s.mem (s.reg .sp)
    let w' ← load s.mem (s.reg .sp + 4)
    some (((s.set .sp (s.reg .sp + 8)).set r w).set r' w')
  | .b l => some (s.set .pc (addr l))
  | .bcond c l => some (if c.holds s then s.set .pc (addr l) else s)
  | .bl l => some ((s.set .lr (s.reg .pc)).set .pc (addr l))

/-- What a program is linked with. -/
structure Link (L : Type) where
  base : Word
  place : L → Word
  /-- the functions at other addresses -/
  elsewhere : Word → Option (State → State)

/-- A program in memory. -/
structure Image (L : Type) extends Link L where
  lines : List (Line L)

namespace Image

variable {L : Type}

def instrs : List (Line L) → List (Instr L)
  | [] => []
  | .label _ :: lines => instrs lines
  | .instr i :: lines => i :: instrs lines

/-- The number of the instruction that a label stands before. -/
def position [DecidableEq L] (l : L) : List (Line L) → Option ℕ
  | [] => none
  | .label l' :: lines => if l' = l then some 0 else position l lines
  | .instr _ :: lines => (position l lines).map (· + 1)

variable (im : Image L)

/-- The address of an instruction. -/
def code (i : ℕ) : Word := im.base + BitVec.ofNat 32 (4 * i)

def addr [DecidableEq L] (l : L) : Word :=
  match position l im.lines with
  | some i => im.code i
  | none => im.place l

/-- The instruction at an address. -/
def fetch (a : Word) : Option (Instr L) :=
  if (a - im.base).toNat % 4 = 0 then (instrs im.lines)[(a - im.base).toNat / 4]? else none

variable [DecidableEq L]

def step (s : State) : Option State :=
  match im.fetch (s.reg .pc) with
  | some i => exec im.addr (s.set .pc (s.reg .pc + 4)) i
  | none => (im.elsewhere (s.reg .pc)).map fun f => f { s with calls := s.calls ++ [⟨s.reg .pc, s.reg, s.mem⟩] }

end Image

section code

variable {L : Type} {im : Image L} {s : State}

/-- The instruction does not write to `pc`. -/
def Instr.straight : Instr L → Bool
  | .mov rd _ => rd != .pc
  | .add rd _ _ => rd != .pc
  | .adds rd _ _ => rd != .pc
  | .adc rd _ _ => rd != .pc
  | .subs rd _ _ => rd != .pc
  | .cmp _ _ => true
  | .ldrAddr rd _ => rd != .pc
  | .ldr rd _ _ => rd != .pc
  | .push _ _ => true
  | .pop r r' => r != .pc && r' != .pc
  | .b _ => false
  | .bcond _ _ => false
  | .bl _ => false

theorem exec_pc {addr : L → Word} {i : Instr L} (hi : i.straight = true) {s' : State}
    (h : exec addr s i = some s') : s'.reg .pc = s.reg .pc := by
  have hset : ∀ {t : State} {r : Reg} {w : Word}, (r != .pc) = true → (t.set r w).reg .pc = t.reg .pc := by
    intro t r w hr
    rw [State.reg_set, if_neg fun heq => bne_iff_ne.mp hr heq.symm]
  cases i with
  | mov rd op | add rd rn op | adds rd rn op | adc rd rn op | subs rd rn op | ldrAddr rd l =>
    obtain rfl := Option.some.inj h
    exact hset hi
  | cmp rn op =>
    obtain rfl := Option.some.inj h
    rfl
  | ldr rd rn offset =>
    obtain ⟨w, _, rfl⟩ := Option.map_eq_some_iff.mp h
    exact hset hi
  | push r r' =>
    obtain ⟨m, _, h⟩ := Option.bind_eq_some_iff.mp h
    obtain ⟨m', _, h⟩ := Option.bind_eq_some_iff.mp h
    obtain rfl := Option.some.inj h
    exact hset rfl
  | pop r r' =>
    obtain ⟨w, _, h⟩ := Option.bind_eq_some_iff.mp h
    obtain ⟨w', _, h⟩ := Option.bind_eq_some_iff.mp h
    obtain rfl := Option.some.inj h
    obtain ⟨hr, hr'⟩ := Bool.and_eq_true_iff.mp hi
    rw [hset hr', hset hr]
    exact hset rfl
  | b l => exact absurd hi Bool.false_ne_true
  | bcond c l => exact absurd hi Bool.false_ne_true
  | bl l => exact absurd hi Bool.false_ne_true

theorem fetch_code {i : ℕ} {instr : Instr L} (hsize : (Image.instrs im.lines).length ≤ 2 ^ 30)
    (h : (Image.instrs im.lines)[i]? = some instr) : im.fetch (im.code i) = some instr := by
  have hlt : i < (Image.instrs im.lines).length := (List.getElem?_eq_some_iff.mp h).1
  have hoff : (im.code i - im.base).toNat = 4 * i := by
    unfold Image.code
    rw [add_sub_cancel_left, BitVec.toNat_ofNat, Nat.mod_eq_of_lt (by omega)]
  unfold Image.fetch
  rw [hoff, if_pos (Nat.mul_mod_right 4 i), Nat.mul_div_cancel_left i (by decide), h]

theorem code_add_four (im : Image L) (i : ℕ) : im.code i + 4 = im.code (i + 1) := by
  unfold Image.code
  rw [BitVec.add_assoc, Nat.mul_add, BitVec.ofNat_add]
  rfl

end code

section runs

variable {L : Type} [DecidableEq L] {im : Image L} {s : State} {Q R : State → Prop}

/-- The machine gets to a state with `Q`. -/
def Runs (im : Image L) (s : State) (Q : State → Prop) : Prop :=
  ∃ s', Relation.ReflTransGen (fun s s' => im.step s = some s') s s' ∧ Q s'

theorem Runs.done (h : Q s) : Runs im s Q := ⟨s, .refl, h⟩

theorem Runs.bind (h : Runs im s Q) (hQ : ∀ s', Q s' → Runs im s' R) : Runs im s R := by
  obtain ⟨s', hs', hq⟩ := h
  obtain ⟨s'', hs'', hr⟩ := hQ s' hq
  exact ⟨s'', hs'.trans hs'', hr⟩

theorem Runs.step {s' : State} (h : im.step s = some s') (hQ : Runs im s' Q) : Runs im s Q := by
  obtain ⟨s'', hs'', hq⟩ := hQ
  exact ⟨s'', .head h hs'', hq⟩

/-- The machine goes on if it can. -/
def advance (im : Image L) (s : State) : State := (im.step s).getD s

theorem reaches_advance (n : ℕ) :
    Relation.ReflTransGen (fun s s' => im.step s = some s') s ((advance im)^[n] s) := by
  induction n with
  | zero => exact .refl
  | succ n ih =>
    rw [Function.iterate_succ_apply']
    cases h : im.step ((advance im)^[n] s) with
    | none =>
      have hstuck : advance im ((advance im)^[n] s) = (advance im)^[n] s := by
        conv_lhs => rw [advance]
        rw [h]
        rfl
      rw [hstuck]
      exact ih
    | some s' =>
      apply ih.tail
      rw [advance, h]
      rfl

theorem Runs.loop {inv : ℕ → State → Prop} (hstep : ∀ n s, inv (n + 1) s → Runs im s (inv n)) :
    ∀ n s, inv n s → Runs im s (inv 0) := by
  intro n
  induction n with
  | zero => exact fun _ h => .done h
  | succ n ih => exact fun s h => (hstep n s h).bind ih

/-- The instructions from number `i` on, one after the other. -/
def execAt (im : Image L) : ℕ → List (Instr L) → State → Option State
  | _, [], s => some s
  | i, instr :: is, s => (exec im.addr (s.set .pc (im.code (i + 1))) instr).bind (execAt im (i + 1) is)

theorem Runs.block (i : ℕ) (is : List (Instr L)) (hpc : s.reg .pc = im.code i)
    (hsize : (Image.instrs im.lines).length ≤ 2 ^ 30) (hcode : is <+: (Image.instrs im.lines).drop i)
    (hstraight : ∀ j ∈ is.dropLast, j.straight = true)
    (hexec : ∃ s', execAt im i is s = some s' ∧ Runs im s' Q) : Runs im s Q := by
  obtain ⟨s', hexec, hQ⟩ := hexec
  induction is generalizing i s with
  | nil =>
    obtain rfl := Option.some.inj hexec
    exact hQ
  | cons instr is ih =>
    obtain ⟨s₁, hs₁, hrest⟩ := Option.bind_eq_some_iff.mp hexec
    obtain ⟨tail, htail⟩ := hcode
    have hget : (Image.instrs im.lines)[i]? = some instr := by
      rw [← List.head?_drop, ← htail]
      rfl
    have hstep : im.step s = some s₁ := by
      unfold Image.step
      rw [hpc, fetch_code hsize hget, code_add_four]
      exact hs₁
    apply Runs.step hstep
    cases is with
    | nil =>
      obtain rfl := Option.some.inj hrest
      exact hQ
    | cons instr' is =>
      apply ih (i + 1) _ _ _ hrest
      · rw [exec_pc (hstraight instr (List.mem_cons_self ..)) hs₁, State.reg_set, if_pos rfl]
      · refine ⟨tail, ?_⟩
        rw [← List.tail_drop, ← htail]
        rfl
      · exact fun j hj => hstraight j (List.mem_cons_of_mem instr hj)

end runs

/-! ## Calls -/

/-- The memory with the two words that `push` leaves below `sp`. -/
def pushed (m : ByteMemory) (sp w w' : Word) : ByteMemory := write (write m (sp - 8) w) (sp - 4) w'

/-- The two words below `sp` are mapped, and the functions elsewhere keep them. -/
structure Frame (kept : Word → Prop) (m : ByteMemory) (sp : Word) : Prop where
  mapped : Mapped m (sp - 8)
  mapped' : Mapped m (sp - 4)
  kept : ∀ a, (a - (sp - 8)).toNat < 8 → kept a

/-- A word off the two below `sp`. -/
def OffFrame (sp a : Word) : Prop := Apart (sp - 8) a ∧ Apart (sp - 4) a

instance (sp a : Word) : Decidable (OffFrame sp a) := inferInstanceAs (Decidable (_ ∧ _))

section frame

variable {kept : Word → Prop} {m m' : ByteMemory} {sp a w w' : Word}

theorem apart_frame (sp : Word) : Apart (sp - 4) (sp - 8) := by
  unfold Apart
  constructor <;> bv_omega

theorem load_pushed_of_offFrame (h : OffFrame sp a) (w w' : Word) : load (pushed m sp w w') a = load m a := by
  unfold pushed
  rw [load_write_of_apart _ _ h.2, load_write_of_apart _ _ h.1]

theorem load_pushed_first : load (pushed m sp w w') (sp - 8) = some w := by
  unfold pushed
  rw [load_write_of_apart _ _ (apart_frame sp), load_write_self]

theorem load_pushed_second : load (pushed m sp w w') (sp - 4) = some w' := load_write_self _ _ _

theorem pushed_of_le (h : 8 ≤ (a - (sp - 8)).toNat) : pushed m sp w w' a = m a := by
  unfold pushed
  rw [write_of_le _ _ (by bv_omega), write_of_le _ _ (by bv_omega)]

theorem isSome_pushed (h : (m a).isSome) : (pushed m sp w w' a).isSome := by
  unfold pushed
  exact isSome_write (isSome_write h)

theorem frame_first (sp : Word) {k : ℕ} (hk : k < 4) : (sp - 8 + BitVec.ofNat 32 k - (sp - 8)).toNat < 8 := by
  bv_omega

theorem frame_second (sp : Word) {k : ℕ} (hk : k < 4) : (sp - 4 + BitVec.ofNat 32 k - (sp - 8)).toNat < 8 := by
  bv_omega

theorem load_first_congr (h : ∀ a, (a - (sp - 8)).toNat < 8 → kept a) (hkept : ∀ a, kept a → m' a = m a) :
    load m' (sp - 8) = load m (sp - 8) :=
  load_congr fun _ hk => hkept _ (h _ (frame_first sp hk))

theorem load_second_congr (h : ∀ a, (a - (sp - 8)).toNat < 8 → kept a) (hkept : ∀ a, kept a → m' a = m a) :
    load m' (sp - 4) = load m (sp - 4) :=
  load_congr fun _ hk => hkept _ (h _ (frame_second sp hk))

theorem OffFrame.le (h : OffFrame sp a) {k : ℕ} (hk : k < 4) : 8 ≤ (a + BitVec.ofNat 32 k - (sp - 8)).toNat := by
  obtain ⟨⟨h₁, h₂⟩, h₃, h₄⟩ := h
  obtain ⟨d, hd⟩ : ∃ d, d = a - (sp - 8) := ⟨_, rfl⟩
  have hfirst : sp - 8 - a = -d := by
    rw [hd]
    exact (neg_sub _ _).symm
  have hsecond : sp - 4 - a = 4 - d := by
    rw [hd]
    bv_omega
  have hsecond' : a - (sp - 4) = d - 4 := by
    rw [hd]
    bv_omega
  rw [hfirst] at h₁
  rw [← hd] at h₂
  rw [hsecond] at h₃
  rw [hsecond'] at h₄
  rw [add_sub_right_comm, ← hd]
  clear hd hfirst hsecond hsecond'
  bv_omega

end frame

/-- A function elsewhere, as its caller sees it: it returns, and keeps `r4` to `r11`, `sp` and the memory
at `kept`. -/
structure IsFunction (kept : Word → Prop) (f : State → State) : Prop where
  returns : ∀ s, (f s).reg .pc = s.reg .lr
  saved : ∀ s, ∀ r ∈ [Reg.r4, .r5, .r6, .r7, .r8, .r9, .r10, .r11, .sp], (f s).reg r = s.reg r
  mem : ∀ s a, kept a → (f s).mem a = s.mem a
  calls : ∀ s, (f s).calls = s.calls

/-- A function that returns `n` and does nothing else. -/
def returning (n : Word) (s : State) : State := (s.set .r0 n).set .pc (s.reg .lr)

theorem isFunction_returning (kept : Word → Prop) (n : Word) : IsFunction kept (returning n) where
  returns s := by simp [returning]
  saved s r hr := by
    have hpc : r ≠ .pc := by rintro rfl; revert hr; decide
    have hr0 : r ≠ .r0 := by rintro rfl; revert hr; decide
    simp [returning, hpc, hr0]
  mem _ _ _ := rfl
  calls _ := rfl

/-- What the caller knows after the call. -/
structure AfterCall (kept : Word → Prop) (s t : State) : Prop where
  pc : t.reg .pc = s.reg .lr
  saved : ∀ r ∈ [Reg.r4, .r5, .r6, .r7, .r8, .r9, .r10, .r11, .sp], t.reg r = s.reg r
  mem : ∀ a, kept a → t.mem a = s.mem a
  calls : t.calls = s.calls ++ [⟨s.reg .pc, s.reg, s.mem⟩]

section calls

variable {L : Type} [DecidableEq L] {im : Image L} {s : State} {Q : State → Prop} {kept : Word → Prop}

/-- A function that was called in `s` and put two words below `sp` has returned. -/
structure Returned (kept : Word → Prop) (s t : State) : Prop where
  pc : t.reg .pc = s.reg .lr
  sp : t.reg .sp = s.reg .sp
  mem : ∀ a, kept a → 8 ≤ (a - (s.reg .sp - 8)).toNat → t.mem a = s.mem a
  mapped : ∀ a, kept a → (s.mem a).isSome → (t.mem a).isSome

section returned

variable {L : Type} {kept : Word → Prop} {s t : State} {m : ByteMemory} {sp a w w' : Word}

theorem Frame.pushed (h : Frame kept m sp) (sp' w w' : Word) : Frame kept (pushed m sp' w w') sp where
  mapped k hk := isSome_pushed (h.mapped k hk)
  mapped' k hk := isSome_pushed (h.mapped' k hk)
  kept := h.kept

theorem Returned.frame (h : Returned kept s t) (hframe : Frame kept s.mem sp) : Frame kept t.mem sp where
  mapped k hk := h.mapped _ (hframe.kept _ (frame_first sp hk)) (hframe.mapped k hk)
  mapped' k hk := h.mapped _ (hframe.kept _ (frame_second sp hk)) (hframe.mapped' k hk)
  kept := hframe.kept

theorem Returned.load (h : Returned kept s t) (hoff : OffFrame (s.reg .sp) a)
    (hkept : ∀ k < 4, kept (a + BitVec.ofNat 32 k)) : load t.mem a = load s.mem a :=
  load_congr fun k hk => h.mem _ (hkept k hk) (hoff.le hk)

theorem exec_push {addr : L → Word} {r r' : Reg} (w : Word) (hr : r ≠ .pc) (hr' : r' ≠ .pc)
    (hframe : Frame kept s.mem (s.reg .sp)) :
    exec addr (s.set .pc w) (.push r r') =
      some (({ s with mem := pushed s.mem (s.reg .sp) (s.reg r) (s.reg r') }.set .pc w).set .sp
        (s.reg .sp - 8)) := by
  simp only [exec, State.mem_set, State.reg_set, reduceCtorEq, if_false, hr, hr']
  rw [store_ok hframe.mapped]
  change (store _ _ _).bind _ = _
  rw [store_ok (Mapped.write hframe.mapped' (s.reg .sp - 8) (s.reg r))]
  rfl

theorem exec_pop {addr : L → Word} {r : Reg} {v : Word} (hw : load s.mem (s.reg .sp) = some w)
    (hw' : load s.mem (s.reg .sp + 4) = some w') :
    exec addr (s.set .pc v) (.pop r .pc) =
      some ((((s.set .pc v).set .sp (s.reg .sp + 8)).set r w).set .pc w') := by
  simp only [exec, State.mem_set, State.reg_set, reduceCtorEq, if_false]
  rw [hw]
  change (load _ _).bind _ = _
  rw [hw']
  rfl

theorem load_frame {s₀ : State} (hframe : Frame kept s₀.mem (s₀.reg .sp)) (hsp : s.reg .sp = s₀.reg .sp - 8)
    (hmem : ∀ a, kept a → s.mem a = pushed s₀.mem (s₀.reg .sp) (s₀.reg .ip) (s₀.reg .lr) a) :
    load s.mem (s.reg .sp) = some (s₀.reg .ip) ∧ load s.mem (s.reg .sp + 4) = some (s₀.reg .lr) := by
  have hsecond : s₀.reg .sp - 8 + 4 = s₀.reg .sp - 4 := by bv_omega
  constructor
  · rw [hsp, load_first_congr hframe.kept hmem, load_pushed_first]
  · rw [hsp, hsecond, load_second_congr hframe.kept hmem, load_pushed_second]

end returned

/-- The name stands for a function elsewhere. -/
def External (im : Image L) (kept : Word → Prop) (l : L) : Prop :=
  im.fetch (im.addr l) = none ∧ ∃ f, im.elsewhere (im.addr l) = some f ∧ IsFunction kept f

theorem step_external {l : L} (h : External im kept l) (hpc : s.reg .pc = im.addr l) :
    ∃ t, im.step s = some t ∧ AfterCall kept s t := by
  obtain ⟨hfetch, f, hf, hfun⟩ := h
  refine ⟨f { s with calls := s.calls ++ [⟨s.reg .pc, s.reg, s.mem⟩] }, ?_, ?_⟩
  · unfold Image.step
    rw [hpc, hfetch, hf]
    rfl
  · exact ⟨hfun.returns _, hfun.saved _, hfun.mem _, hfun.calls _⟩

theorem Runs.call {l : L} (h : External im kept l) (hpc : s.reg .pc = im.addr l)
    (hQ : ∀ t, AfterCall kept s t → Runs im t Q) : Runs im s Q := by
  obtain ⟨t, ht, hafter⟩ := step_external h hpc
  exact Runs.step ht (hQ t hafter)

theorem Runs.enter (i : ℕ) {r r' : Reg} (hpc : s.reg .pc = im.code i)
    (hsize : (Image.instrs im.lines).length ≤ 2 ^ 30)
    (hcode : (Image.instrs im.lines)[i]? = some (.push r r')) (hr : r ≠ .pc) (hr' : r' ≠ .pc)
    (hframe : Frame kept s.mem (s.reg .sp))
    (hQ : Runs im (({ s with mem := pushed s.mem (s.reg .sp) (s.reg r) (s.reg r') }.set .pc
      (im.code (i + 1))).set .sp (s.reg .sp - 8)) Q) : Runs im s Q := by
  apply Runs.step _ hQ
  unfold Image.step
  rw [hpc, fetch_code hsize hcode, code_add_four]
  exact exec_push _ hr hr' hframe

theorem Runs.returned (i : ℕ) {s₀ : State} (hpc : s.reg .pc = im.code i)
    (hsize : (Image.instrs im.lines).length ≤ 2 ^ 30)
    (hcode : (Image.instrs im.lines)[i]? = some (.pop .ip .pc)) (hframe : Frame kept s₀.mem (s₀.reg .sp))
    (hsp : s.reg .sp = s₀.reg .sp - 8)
    (hmem : ∀ a, kept a → s.mem a = pushed s₀.mem (s₀.reg .sp) (s₀.reg .ip) (s₀.reg .lr) a)
    (hQ : ∀ t, Returned kept s₀ t → t.calls = s.calls → (∀ r, r ≠ .ip → r ≠ .sp → r ≠ .pc → t.reg r = s.reg r) →
      Q t) : Runs im s Q := by
  obtain ⟨hw, hw'⟩ := load_frame hframe hsp hmem
  have hstep : im.step s = some ((((s.set .pc (im.code (i + 1))).set .sp (s.reg .sp + 8)).set .ip
      (s₀.reg .ip)).set .pc (s₀.reg .lr)) := by
    unfold Image.step
    rw [hpc, fetch_code hsize hcode, code_add_four]
    exact exec_pop hw hw'
  apply Runs.step hstep
  apply Runs.done
  apply hQ
  · constructor
    · simp
    · simp [hsp]
    · intro a ha hoff
      simp [hmem a ha, pushed_of_le hoff]
    · intro a ha hsome
      simp only [State.mem_set, hmem a ha]
      exact isSome_pushed hsome
  · simp
  · intro r hip hspr hpcr
    simp [hip, hspr, hpcr]

end calls

/-! ## Assertions -/

section assertions

variable {L : Type} [DecidableEq L] {im : Image L} {kept : Word → Prop} {A : ℕ → State → Prop}
  {E : State → Prop} {stop : Word} {s t : State}

/-- The machine is at an instruction with its assertion, or in a function elsewhere that returns to one, or
at `stop` with `E`. -/
def Annotated (im : Image L) (kept : Word → Prop) (A : ℕ → State → Prop) (stop : Word) (E : State → Prop)
    (s : State) : Prop :=
  (∃ i, i < (Image.instrs im.lines).length ∧ s.reg .pc = im.code i ∧ A i s) ∨
  (∃ l i, External im kept l ∧ i < (Image.instrs im.lines).length ∧ s.reg .pc = im.addr l ∧
    s.reg .lr = im.code i ∧ ∀ t, AfterCall kept s t → A i t) ∨
  s.reg .pc = stop ∧ E s

/-- If every instruction leads from its assertion to that of the next one, the assertions hold throughout. -/
theorem Annotated.reaches (hsize : (Image.instrs im.lines).length ≤ 2 ^ 30)
    (hinstr : ∀ i instr s t, (Image.instrs im.lines)[i]? = some instr → A i s →
      exec im.addr (s.set .pc (im.code (i + 1))) instr = some t → Annotated im kept A stop E t)
    (hstop : ∀ s : State, s.reg .pc = stop → im.step s = none) (h : Annotated im kept A stop E s)
    (hst : Relation.ReflTransGen (fun s s' => im.step s = some s') s t) :
    Annotated im kept A stop E t := by
  induction hst with
  | refl => exact h
  | tail _ hlast ih =>
    rcases ih with ⟨i, hi, hpc, hA⟩ | ⟨l, i, hl, hi, hpc, hlr, hA⟩ | ⟨hpc, -⟩
    · have hget := List.getElem?_eq_getElem hi
      unfold Image.step at hlast
      rw [hpc, fetch_code hsize hget, code_add_four] at hlast
      exact hinstr i _ _ _ hget hA hlast
    · obtain ⟨u, hu, hafter⟩ := step_external hl hpc
      obtain rfl := Option.some.inj (hu.symm.trans hlast)
      exact .inl ⟨i, hi, hafter.pc.trans hlr, hA u hafter⟩
    · rw [hstop _ hpc] at hlast
      exact absurd hlast (Option.some_ne_none _).symm

end assertions

end CodingForFun.Lib.Arm
