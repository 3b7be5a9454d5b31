import CodingForFun.Lib.Memory
import CodingForFun.Lib.Runs
import Mathlib.Data.Int.Notation

/-!
# The number of employees

The special member functions of `Employee` and `Manager` in `src/cpp/cppconcentrated.cpp`. The constructor
of `Employee` counts the new object in `totalnumbemployees` and the destructor takes it off, but the copy
constructor, which makes an object of its own too, does not count it. So the number falls behind that of the
objects that are alive by one for every copy (`run_ok`), and is right as long as there was none, no first name
overran its array and no object was assigned to another one: `operator=` ends without a `return`
(`counted_iff`).

An object owns the block of its middle name (`Owns`): no other object has it, and it is there until the
object frees it. So no destructor frees a block twice.
-/

namespace CodingForFun.Cppconcentrated

open Lib

/-- `FIRSTNAME_LEN` -/
def firstnameLen : ℕ := 10

/-- `class Date` -/
structure Date where
  day : ℤ
  month : ℤ
  year : ℤ

/-- `class Employee`. The first name is the string in `firstname_array`. -/
structure Employee where
  firstname : List Char
  middlename : Option ℕ
  salary : ℤ
  dateHire : Date

/-- `class Manager` -/
structure Manager extends Employee where
  bonus : ℤ
  teamSize : ℤ

/-- The blocks that were allocated with `new char[]`, and `Employee::totalnumbemployees`. -/
structure Store where
  chars : Memory (List Char)
  totalnumbemployees : ℤ

namespace Employee

/-- `strcpy` of a first name that is too long for the array overruns it, before it is truncated. -/
def setnames (e : Employee) (chars : Memory (List Char)) (first middle : List Char) :
    Except Fault (Employee × Memory (List Char)) := do
  if first.length + 1 > firstnameLen then
    throw .outOfBounds
  let firstname := if first.length > firstnameLen then first.take (firstnameLen - 1) else first
  pure ({ e with firstname, middlename := some chars.fresh }, chars.alloc middle)

/-- `Employee::Employee(first, middle, s, date)` -/
def new (first middle : List Char) (s : ℤ) (date : Date) (st : Store) :
    Except Fault (Employee × Store) := do
  let e : Employee := ⟨[], none, 0, date⟩
  let (e, chars) ← e.setnames st.chars first middle
  pure ({ e with salary := s }, ⟨chars, st.totalnumbemployees + 1⟩)

/-- `Employee::Employee(src)` -/
def copy (src : Employee) (st : Store) : Except Fault (Employee × Store) := do
  let e : Employee := ⟨[], none, 0, src.dateHire⟩
  let (e, chars) ← e.setnames st.chars src.firstname (← st.chars.read src.middlename)
  pure ({ e with salary := src.salary }, { st with chars })

/-- `Employee::~Employee()` -/
def destroy (e : Employee) (st : Store) : Except Fault Store := do
  let chars ← st.chars.free e.middlename
  pure ⟨chars, st.totalnumbemployees - 1⟩

/-- `Employee::operator=(rhs)`, of different objects. The function ends behind the call of `setnames`, without
the reference that it has to return. -/
def assign (e rhs : Employee) (st : Store) : Except Fault (Employee × Store) := do
  let chars ← st.chars.free e.middlename
  let _ ← e.setnames chars rhs.firstname (← chars.read rhs.middlename)
  throw .noReturn

end Employee

namespace Manager

/-- `Manager::Manager(first, middle, sal, b, hiredate, numbteam)` -/
def new (first middle : List Char) (sal b : ℤ) (hiredate : Date) (numbteam : ℤ) (st : Store) :
    Except Fault (Manager × Store) := do
  let (e, st) ← Employee.new first middle sal hiredate st
  pure (⟨e, b, numbteam⟩, st)

/-- The copy constructor that the compiler writes. -/
def copy (src : Manager) (st : Store) : Except Fault (Manager × Store) := do
  let (e, st) ← src.toEmployee.copy st
  pure (⟨e, src.bonus, src.teamSize⟩, st)

/-- `Manager::~Manager()`, which prints the name first. -/
def destroy (m : Manager) (st : Store) : Except Fault Store := do
  let _ ← st.chars.read m.middlename
  m.toEmployee.destroy st

/-- The assignment operator that the compiler writes. -/
def assign (m rhs : Manager) (st : Store) : Except Fault (Manager × Store) := do
  let (e, st) ← m.toEmployee.assign rhs.toEmployee st
  pure (⟨e, rhs.bonus, rhs.teamSize⟩, st)

end Manager

inductive Object
  | employee (e : Employee)
  | manager (m : Manager)

/-- The part of the object that is an `Employee`. -/
def Object.base : Object → Employee
  | .employee e => e
  | .manager m => m.toEmployee

/-- The same object with another `Employee` part. -/
def Object.withBase (e : Employee) : Object → Object
  | .employee _ => .employee e
  | .manager m => .manager ⟨e, m.bonus, m.teamSize⟩

/-- The objects that are alive, and what they share. -/
structure State extends Store where
  objects : Memory Object

def State.start : State := ⟨⟨.empty, 0⟩, .empty⟩

/-- What a program does with its objects. `copy` and `assign` are those of the class `Employee`, which
managers are passed to as well. -/
inductive Action
  | construct (first middle : List Char) (salary : ℤ) (date : Date)
  | constructManager (first middle : List Char) (salary bonus : ℤ) (date : Date) (teamSize : ℤ)
  | copy (src : ℕ)
  | copyManager (src : ℕ)
  | assign (lhs rhs : ℕ)
  | assignManager (lhs rhs : ℕ)
  | destroy (obj : ℕ)

/-- An object that is not a manager where one is needed is the fault of the caller, like one that is not
alive. -/
def State.readManager (s : State) (obj : ℕ) : Except Fault Manager := do
  match ← s.objects.read (some obj) with
  | .employee _ => throw .outOfBounds
  | .manager m => pure m

def step (s : State) : Action → Except Fault State
  | .construct first middle salary date => do
    let (e, st) ← Employee.new first middle salary date s.toStore
    pure ⟨st, s.objects.alloc (.employee e)⟩
  | .constructManager first middle salary bonus date teamSize => do
    let (m, st) ← Manager.new first middle salary bonus date teamSize s.toStore
    pure ⟨st, s.objects.alloc (.manager m)⟩
  | .copy src => do
    let (e, st) ← (← s.objects.read (some src)).base.copy s.toStore
    pure ⟨st, s.objects.alloc (.employee e)⟩
  | .copyManager src => do
    let (m, st) ← (← s.readManager src).copy s.toStore
    pure ⟨st, s.objects.alloc (.manager m)⟩
  | .assign lhs rhs => do
    -- check self assignment
    if lhs = rhs then
      return s
    let (e, st) ← (← s.objects.read (some lhs)).base.assign (← s.objects.read (some rhs)).base s.toStore
    pure ⟨st, s.objects.update lhs (Object.withBase e)⟩
  | .assignManager lhs rhs => do
    if lhs = rhs then
      return s
    let (m, st) ← (← s.readManager lhs).assign (← s.readManager rhs) s.toStore
    pure ⟨st, s.objects.update lhs fun _ => .manager m⟩
  | .destroy obj => do
    let o ← s.objects.read (some obj)
    let st ← match o with
      | .employee e => e.destroy s.toStore
      | .manager m => m.destroy s.toStore
    pure ⟨st, s.objects.erase obj⟩

/-- The objects are alive, and managers where managers are needed. -/
def Alive (s : State) : Action → Prop
  | .construct .. => True
  | .constructManager .. => True
  | .copy src => ∃ o, s.objects.node src = some o
  | .copyManager src => ∃ m, s.objects.node src = some (.manager m)
  | .assign lhs rhs => (∃ o, s.objects.node lhs = some o) ∧ ∃ o, s.objects.node rhs = some o
  | .assignManager lhs rhs =>
    (∃ m, s.objects.node lhs = some (.manager m)) ∧ ∃ m, s.objects.node rhs = some (.manager m)
  | .destroy obj => ∃ o, s.objects.node obj = some o

/-- The first name fits into the array. -/
def Fits : Action → Prop
  | .construct first .. => first.length < firstnameLen
  | .constructManager first .. => first.length < firstnameLen
  | _ => True

instance : (a : Action) → Decidable (Fits a)
  | .construct first .. => inferInstanceAs (Decidable (first.length < firstnameLen))
  | .constructManager first .. => inferInstanceAs (Decidable (first.length < firstnameLen))
  | .copy _ => .isTrue trivial
  | .copyManager _ => .isTrue trivial
  | .assign _ _ => .isTrue trivial
  | .assignManager _ _ => .isTrue trivial
  | .destroy _ => .isTrue trivial

/-- The operator is called only where it returns: it checks for self assignment first. -/
def Returns : Action → Prop
  | .assign lhs rhs => lhs = rhs
  | .assignManager lhs rhs => lhs = rhs
  | _ => True

instance : (a : Action) → Decidable (Returns a)
  | .construct .. => .isTrue trivial
  | .constructManager .. => .isTrue trivial
  | .copy _ => .isTrue trivial
  | .copyManager _ => .isTrue trivial
  | .assign lhs rhs => inferInstanceAs (Decidable (lhs = rhs))
  | .assignManager lhs rhs => inferInstanceAs (Decidable (lhs = rhs))
  | .destroy _ => .isTrue trivial

def isCopy : Action → Bool
  | .copy _ => true
  | .copyManager _ => true
  | _ => false

/-- `totalnumbemployees` is the number of the objects that are alive. -/
def Counted (s : State) : Prop := s.totalnumbemployees = s.objects.live.card

instance (s : State) : Decidable (Counted s) :=
  inferInstanceAs (Decidable (s.totalnumbemployees = s.objects.live.card))

/-- Every object has a block for its middle name, and no other object has it. -/
def Owns (s : State) : Prop :=
  ∀ a o, s.objects.node a = some o → o.base.firstname.length < firstnameLen ∧
    ∃ b name, o.base.middlename = some b ∧ s.chars.node b = some name ∧
      ∀ a' o', s.objects.node a' = some o' → o'.base.middlename = some b → a' = a

theorem owns_start : Owns .start := fun _ _ h => absurd h (Option.some_ne_none _).symm

/-! ### The member functions -/

section members

variable {e : Employee} {first middle name : List Char} {b : ℕ}

theorem setnames_ok (e : Employee) (chars : Memory (List Char)) (middle : List Char)
    (h : first.length < firstnameLen) :
    e.setnames chars first middle =
      .ok ({ e with firstname := first, middlename := some chars.fresh }, chars.alloc middle) := by
  rw [Employee.setnames, if_neg (not_lt.mpr h)]
  simp only [if_neg (not_lt.mpr h.le)]
  rfl

theorem new_ok (middle : List Char) (s : ℤ) (date : Date) (st : Store)
    (h : first.length < firstnameLen) :
    ∃ e, Employee.new first middle s date st =
        .ok (e, ⟨st.chars.alloc middle, st.totalnumbemployees + 1⟩) ∧
      e.firstname.length < firstnameLen ∧ e.middlename = some st.chars.fresh := by
  refine ⟨⟨first, some st.chars.fresh, s, date⟩, ?_, h, rfl⟩
  rw [Employee.new]
  simp only [setnames_ok _ _ _ h, ok_bind, pure_eq_ok]

theorem new_overrun (middle : List Char) (s : ℤ) (date : Date) (st : Store)
    (h : ¬ first.length < firstnameLen) :
    Employee.new first middle s date st = .error .outOfBounds := by
  rw [Employee.new, Employee.setnames, if_pos (Nat.lt_succ_of_le (not_lt.mp h))]
  rfl

theorem copy_ok (st : Store) (h : e.firstname.length < firstnameLen) (hb : e.middlename = some b)
    (hname : st.chars.node b = some name) :
    ∃ e', e.copy st = .ok (e', ⟨st.chars.alloc name, st.totalnumbemployees⟩) ∧
      e'.firstname.length < firstnameLen ∧ e'.middlename = some st.chars.fresh := by
  refine ⟨{ e with middlename := some st.chars.fresh }, ?_, h, rfl⟩
  rw [Employee.copy, hb, Memory.read_some hname]
  simp only [setnames_ok _ _ _ h, ok_bind, pure_eq_ok]

theorem destroy_ok (st : Store) (hb : e.middlename = some b) (hname : st.chars.node b = some name) :
    e.destroy st = .ok ⟨st.chars.erase b, st.totalnumbemployees - 1⟩ := by
  rw [Employee.destroy, hb, Memory.free_some hname]
  rfl

theorem assign_ne_ok (e rhs : Employee) (st : Store) (r : Employee × Store) : e.assign rhs st ≠ .ok r := by
  intro h
  obtain ⟨chars, -, h⟩ := exists_of_bind_eq_ok h
  obtain ⟨middle, -, h⟩ := exists_of_bind_eq_ok h
  obtain ⟨names, -, h⟩ := exists_of_bind_eq_ok h
  cases h

end members

/-! ### Who owns a block -/

section owns

variable {s : State} {a b : ℕ} {o : Object}

theorem Owns.ne_fresh (h : Owns s) (ho : s.objects.node a = some o) :
    o.base.middlename ≠ some s.chars.fresh := by
  obtain ⟨-, b, name, hb, hname, -⟩ := h a o ho
  rw [hb]
  exact fun hfresh => Memory.ne_fresh hname (Option.some.inj hfresh)

theorem Owns.create (h : Owns s) (hfits : o.base.firstname.length < firstnameLen)
    (hb : o.base.middlename = some s.chars.fresh) (name : List Char) (total : ℤ) :
    Owns ⟨⟨s.chars.alloc name, total⟩, s.objects.alloc o⟩ := by
  intro a₁ o₁ ho₁
  by_cases ha₁ : a₁ = s.objects.fresh
  · subst ha₁
    obtain rfl : o = o₁ := Option.some.inj (Memory.alloc_self.symm.trans ho₁)
    refine ⟨hfits, _, name, hb, Memory.alloc_self, fun a' o' ho' hb' => ?_⟩
    by_contra hne
    exact h.ne_fresh ((Memory.alloc_of_ne hne).symm.trans ho') hb'
  · have hold := (Memory.alloc_of_ne ha₁).symm.trans ho₁
    obtain ⟨hfits₁, b₁, name₁, hb₁, hname₁, honly⟩ := h a₁ o₁ hold
    refine ⟨hfits₁, b₁, name₁, hb₁, Memory.alloc_of_some hname₁, fun a' o' ho' hb' => ?_⟩
    by_cases ha' : a' = s.objects.fresh
    · subst ha'
      obtain rfl : o = o' := Option.some.inj (Memory.alloc_self.symm.trans ho')
      exact absurd (hb₁.trans (hb'.symm.trans hb)) (h.ne_fresh hold)
    · exact honly a' o' ((Memory.alloc_of_ne ha').symm.trans ho') hb'

theorem Owns.destroy (h : Owns s) (ho : s.objects.node a = some o) (hb : o.base.middlename = some b)
    (total : ℤ) : Owns ⟨⟨s.chars.erase b, total⟩, s.objects.erase a⟩ := by
  intro a₁ o₁ ho₁
  have ha₁ : a₁ ≠ a := by
    rintro rfl
    exact absurd (Memory.erase_self.symm.trans ho₁) (Option.some_ne_none o₁).symm
  have hold := (Memory.erase_of_ne ha₁).symm.trans ho₁
  obtain ⟨hfits₁, b₁, name₁, hb₁, hname₁, honly⟩ := h a₁ o₁ hold
  have hne : b₁ ≠ b := by
    rintro rfl
    exact ha₁ (honly a o ho hb).symm
  refine ⟨hfits₁, b₁, name₁, hb₁, (Memory.erase_of_ne hne).trans hname₁, fun a' o' ho' hb' => ?_⟩
  have ha' : a' ≠ a := by
    rintro rfl
    exact absurd (Memory.erase_self.symm.trans ho') (Option.some_ne_none o').symm
  exact honly a' o' ((Memory.erase_of_ne ha').symm.trans ho') hb'

end owns

/-! ### Any sequence of actions -/

/-- How many objects that are alive have not been counted. -/
def lag (s : State) : ℤ := s.objects.live.card - s.totalnumbemployees

section runs

variable {s : State} {a : Action}

theorem create_ok (h : Owns s) {o : Object} (hfits : o.base.firstname.length < firstnameLen)
    (hb : o.base.middlename = some s.chars.fresh) (name : List Char) (d : ℤ) :
    Owns ⟨⟨s.chars.alloc name, s.totalnumbemployees + d⟩, s.objects.alloc o⟩ ∧
      lag ⟨⟨s.chars.alloc name, s.totalnumbemployees + d⟩, s.objects.alloc o⟩ = lag s + (1 - d) := by
  refine ⟨h.create hfits hb name _, ?_⟩
  simp only [lag, Memory.card_live_alloc]
  omega

theorem delete_ok (h : Owns s) {obj b : ℕ} {o : Object} (ho : s.objects.node obj = some o)
    (hb : o.base.middlename = some b) :
    Owns ⟨⟨s.chars.erase b, s.totalnumbemployees - 1⟩, s.objects.erase obj⟩ ∧
      lag ⟨⟨s.chars.erase b, s.totalnumbemployees - 1⟩, s.objects.erase obj⟩ = lag s + 0 := by
  refine ⟨h.destroy ho hb _, ?_⟩
  have hlive := Memory.card_live_erase ho
  simp only [lag]
  omega

theorem readManager_ok {obj : ℕ} {m : Manager} (hm : s.objects.node obj = some (.manager m)) :
    s.readManager obj = .ok m := by
  rw [State.readManager, Memory.read_some hm]
  rfl

theorem Owns.copy_ok (h : Owns s) {src : ℕ} {o : Object} (ho : s.objects.node src = some o) :
    ∃ e name, o.base.copy s.toStore = .ok (e, ⟨s.chars.alloc name, s.totalnumbemployees⟩) ∧
      e.firstname.length < firstnameLen ∧ e.middlename = some s.chars.fresh := by
  obtain ⟨hfits, b, name, hb, hname, -⟩ := h src o ho
  obtain ⟨e, hcopy⟩ := Cppconcentrated.copy_ok s.toStore hfits hb hname
  exact ⟨e, name, hcopy⟩

theorem step_ok (h : Owns s) (ha : Alive s a) (hfits : Fits a) (hreturns : Returns a) :
    ∃ s', step s a = .ok s' ∧ Owns s' ∧ lag s' = lag s + if isCopy a then 1 else 0 := by
  cases a with
  | construct first middle salary date =>
    obtain ⟨e, hnew, hfits, hb⟩ := new_ok middle salary date s.toStore hfits
    refine ⟨_, ?_, create_ok (o := .employee e) h hfits hb middle 1⟩
    simp only [step, hnew, ok_bind, pure_eq_ok]
  | constructManager first middle salary bonus date teamSize =>
    obtain ⟨e, hnew, hfits, hb⟩ := new_ok middle salary date s.toStore hfits
    refine ⟨_, ?_, create_ok (o := .manager ⟨e, bonus, teamSize⟩) h hfits hb middle 1⟩
    simp only [step, Manager.new, hnew, ok_bind, pure_eq_ok]
  | copy src =>
    obtain ⟨o, ho⟩ := ha
    obtain ⟨e, name, hcopy, hfits, hb⟩ := h.copy_ok ho
    have hnew := create_ok (o := .employee e) h hfits hb name 0
    rw [Int.add_zero] at hnew
    refine ⟨_, ?_, hnew⟩
    simp only [step, Memory.read_some ho, hcopy, ok_bind, pure_eq_ok]
  | copyManager src =>
    obtain ⟨m, hm⟩ := ha
    obtain ⟨e, name, hcopy, hfits, hb⟩ := h.copy_ok hm
    have hnew := create_ok (o := .manager ⟨e, m.bonus, m.teamSize⟩) h hfits hb name 0
    rw [Int.add_zero] at hnew
    have hcopy : m.toEmployee.copy s.toStore = _ := hcopy
    refine ⟨_, ?_, hnew⟩
    simp only [step, readManager_ok hm, Manager.copy, hcopy, ok_bind, pure_eq_ok]
  | assign lhs rhs =>
    refine ⟨s, ?_, h, (Int.add_zero _).symm⟩
    simp only [step, if_pos (show lhs = rhs from hreturns), pure_eq_ok]
  | assignManager lhs rhs =>
    refine ⟨s, ?_, h, (Int.add_zero _).symm⟩
    simp only [step, if_pos (show lhs = rhs from hreturns), pure_eq_ok]
  | destroy obj =>
    obtain ⟨o, ho⟩ := ha
    obtain ⟨-, b, name, hb, hname, -⟩ := h obj o ho
    have hdestroy := destroy_ok s.toStore hb hname
    refine ⟨_, ?_, delete_ok h ho hb⟩
    cases o with
    | employee e =>
      have hdestroy : e.destroy s.toStore = _ := hdestroy
      simp only [step, Memory.read_some ho, hdestroy, ok_bind, pure_eq_ok]
    | manager m =>
      have hb : m.middlename = some b := hb
      have hdestroy : m.toEmployee.destroy s.toStore = _ := hdestroy
      simp only [step, Memory.read_some ho, Manager.destroy, hb, Memory.read_some hname, hdestroy,
        ok_bind, pure_eq_ok]

theorem run_ok (as : List Action) :
    ∀ {s : State}, Owns s → Each step Alive s as → (∀ a ∈ as, Fits a ∧ Returns a) →
      ∃ s', as.foldlM step s = .ok s' ∧ Owns s' ∧ lag s' = lag s + as.countP isCopy := by
  induction as with
  | nil => exact fun h _ _ => ⟨_, rfl, h, (Int.add_zero _).symm⟩
  | cons a as ih =>
    intro s h halive hends
    obtain ⟨⟨hfits, hreturns⟩, hrest⟩ := List.forall_mem_cons.mp hends
    obtain ⟨s₁, hs₁, h₁, hlag₁⟩ := step_ok h halive.1 hfits hreturns
    obtain ⟨s', hs', h', hlag⟩ := ih h₁ (halive.2 s₁ hs₁) hrest
    refine ⟨s', by rw [List.foldlM_cons, hs₁, ok_bind, hs'], h', ?_⟩
    rw [hlag, hlag₁, List.countP_cons]
    split_ifs <;> omega

theorem step_overrun (h : ¬ Fits a) (s : State) : step s a = .error .outOfBounds := by
  cases a with
  | construct first middle salary date =>
    rw [step, new_overrun _ _ _ _ h]
    rfl
  | constructManager first middle salary bonus date teamSize =>
    rw [step, Manager.new, new_overrun _ _ _ _ h]
    rfl
  | copy src => exact absurd trivial h
  | copyManager src => exact absurd trivial h
  | assign lhs rhs => exact absurd trivial h
  | assignManager lhs rhs => exact absurd trivial h
  | destroy obj => exact absurd trivial h

theorem step_no_return (h : ¬ Returns a) (s s' : State) : step s a ≠ .ok s' := by
  cases a with
  | assign lhs rhs =>
    have hne : lhs ≠ rhs := h
    intro hstep
    rw [step, if_neg hne] at hstep
    obtain ⟨-, -, hstep⟩ := exists_of_bind_eq_ok hstep
    obtain ⟨o, -, hstep⟩ := exists_of_bind_eq_ok hstep
    obtain ⟨o', -, hstep⟩ := exists_of_bind_eq_ok hstep
    obtain ⟨r, hassign, -⟩ := exists_of_bind_eq_ok hstep
    exact assign_ne_ok _ _ _ _ hassign
  | assignManager lhs rhs =>
    have hne : lhs ≠ rhs := h
    intro hstep
    rw [step, if_neg hne] at hstep
    obtain ⟨-, -, hstep⟩ := exists_of_bind_eq_ok hstep
    obtain ⟨m, -, hstep⟩ := exists_of_bind_eq_ok hstep
    obtain ⟨m', -, hstep⟩ := exists_of_bind_eq_ok hstep
    obtain ⟨r, hassign, -⟩ := exists_of_bind_eq_ok hstep
    obtain ⟨r', hbase, -⟩ := exists_of_bind_eq_ok hassign
    exact assign_ne_ok _ _ _ _ hbase
  | construct => exact absurd trivial h
  | constructManager => exact absurd trivial h
  | copy src => exact absurd trivial h
  | copyManager src => exact absurd trivial h
  | destroy obj => exact absurd trivial h

theorem ends_of_run (as : List Action) :
    ∀ {s s' : State}, as.foldlM step s = .ok s' → ∀ a ∈ as, Fits a ∧ Returns a := by
  induction as with
  | nil => simp
  | cons b as ih =>
    intro s s' h
    rw [List.foldlM_cons] at h
    obtain ⟨s₁, hb, h⟩ := exists_of_bind_eq_ok h
    have hfits : Fits b := by
      by_contra hlong
      rw [step_overrun hlong] at hb
      cases hb
    have hreturns : Returns b := by
      by_contra hassign
      exact step_no_return hassign s s₁ hb
    exact List.forall_mem_cons.mpr ⟨⟨hfits, hreturns⟩, ih h⟩

end runs

/-- Actions on objects that are alive leave the right number exactly when no first name is too long for
its array, no object is assigned to another one and none is copied. -/
theorem counted_iff (as : List Action) (h : Each step Alive .start as) :
    (∃ s, as.foldlM step .start = .ok s ∧ Counted s) ↔
      ∀ a ∈ as, (Fits a ∧ Returns a) ∧ isCopy a = false := by
  have hcount : (as.countP isCopy : ℤ) = 0 ↔ ∀ a ∈ as, isCopy a = false := by
    rw [Int.natCast_eq_zero, List.countP_eq_zero]
    simp only [Bool.not_eq_true]
  have hrun : (∀ a ∈ as, Fits a ∧ Returns a) → ∃ s, as.foldlM step .start = .ok s ∧
      (Counted s ↔ ∀ a ∈ as, isCopy a = false) := by
    intro hends
    obtain ⟨s, hs, -, hlag⟩ := run_ok as owns_start h hends
    have hstart : lag .start = 0 := rfl
    refine ⟨s, hs, ?_⟩
    rw [← hcount, Counted]
    rw [hstart, lag] at hlag
    omega
  constructor
  · rintro ⟨s, hs, hcounted⟩
    have hends := ends_of_run as hs
    obtain ⟨s', hs', hiff⟩ := hrun hends
    obtain rfl := Except.ok.inj (hs.symm.trans hs')
    exact fun a ha => ⟨hends a ha, hiff.mp hcounted a ha⟩
  · intro hall
    obtain ⟨s, hs, hiff⟩ := hrun fun a ha => (hall a ha).1
    exact ⟨s, hs, hiff.mpr fun a ha => (hall a ha).2⟩

/-- An employee and a manager, of whom one outlives the other. -/
theorem counted_noCopy : ∃ s, List.foldlM step .start
    [.construct ['a'] ['b'] 1000 ⟨10, 10, 2000⟩, .constructManager ['c'] ['d'] 1000 1000 ⟨7, 7, 2000⟩ 10,
      .assignManager 1 1, .destroy 1] = .ok s ∧ Counted s := by
  refine (counted_iff _ ?_).mpr (by decide)
  refine (each_cons rfl).mpr ⟨trivial, (each_cons rfl).mpr ⟨trivial, (each_cons rfl).mpr ⟨?_, ?_⟩⟩⟩
  · exact ⟨⟨_, rfl⟩, _, rfl⟩
  · exact (each_cons rfl).mpr ⟨⟨_, rfl⟩, trivial⟩

/-- An employee and a copy: two objects, and the number is one. -/
theorem not_counted_copy :
    Each step Alive .start [.construct ['a'] ['b'] 1000 ⟨10, 10, 2000⟩, .copy 0] ∧
      ¬ ∃ s, List.foldlM step .start [.construct ['a'] ['b'] 1000 ⟨10, 10, 2000⟩, .copy 0] = .ok s ∧
        Counted s := by
  constructor
  · exact (each_cons rfl).mpr ⟨trivial, (each_cons rfl).mpr ⟨⟨_, rfl⟩, trivial⟩⟩
  · intro h
    obtain ⟨s, hs, hcounted⟩ := h
    obtain rfl := Except.ok.inj hs
    exact absurd hcounted (by decide)

end CodingForFun.Cppconcentrated
