import Mathlib.Data.List.Nodup
import Mathlib.Data.Option.Basic
import Mathlib.Logic.Function.Basic

/-!
# Linked lists in memory

A heap of nodes is read through its links, `next : A → Option A` (`none` for the null pointer).
`Seg next p l q` says that the links lead from `p` over the nodes `l` to `q`; with `q = none` it is a
list that ends. Such a list is determined by its start (`Seg.unique`), so it visits no node twice
(`Seg.nodup`). A store to a node off the list does not change it (`Seg.update`), and a store to one of
its nodes may link a new node in behind it (`Seg.insertAfter`).
-/

namespace CodingForFun.Lib

variable {A : Type}

/-- The links lead from `p` over the nodes `l` to `q`. -/
def Seg (next : A → Option A) : Option A → List A → Option A → Prop
  | p, [], q => p = q
  | p, a :: l, q => p = some a ∧ Seg next (next a) l q

section seg

variable {next : A → Option A} {p q : Option A} {l : List A} {a b : A}

@[simp] theorem seg_nil : Seg next p [] q ↔ p = q := Iff.rfl

@[simp] theorem seg_cons : Seg next p (a :: l) q ↔ p = some a ∧ Seg next (next a) l q := Iff.rfl

theorem seg_append {l₁ l₂ : List A} :
    Seg next p (l₁ ++ l₂) q ↔ ∃ m, Seg next p l₁ m ∧ Seg next m l₂ q := by
  induction l₁ generalizing p with
  | nil => simp
  | cons a l₁ ih => simp [ih, and_assoc]

theorem Seg.suffix (h : Seg next p l q) (ha : a ∈ l) :
    ∃ l₁ l₂, l = l₁ ++ a :: l₂ ∧ Seg next p l₁ (some a) ∧ Seg next (next a) l₂ q := by
  obtain ⟨l₁, l₂, rfl⟩ := List.append_of_mem ha
  obtain ⟨m, hfront, rfl, hrest⟩ := seg_append.mp h
  exact ⟨l₁, l₂, rfl, hfront, hrest⟩

theorem Seg.congr {next' : A → Option A} (h : Seg next p l q) (hl : ∀ a ∈ l, next' a = next a) :
    Seg next' p l q := by
  induction l generalizing p with
  | nil => exact h
  | cons a l ih =>
    obtain ⟨rfl, hrest⟩ := h
    refine ⟨rfl, ?_⟩
    rw [hl a List.mem_cons_self]
    exact ih hrest fun b hb => hl b (List.mem_cons_of_mem a hb)

theorem Seg.unique {l' : List A} (h : Seg next p l none) (h' : Seg next p l' none) : l = l' := by
  induction l generalizing p l' with
  | nil =>
    cases l' with
    | nil => rfl
    | cons b l' => exact absurd (h.symm.trans h'.1) (Option.some_ne_none b).symm
  | cons a l ih =>
    obtain ⟨rfl, hrest⟩ := h
    cases l' with
    | nil => exact absurd h' (Option.some_ne_none a)
    | cons b l' =>
      obtain ⟨hb, hrest'⟩ := h'
      obtain rfl := Option.some.inj hb
      rw [ih hrest hrest']

theorem Seg.nodup (h : Seg next p l none) : l.Nodup := by
  induction l generalizing p with
  | nil => exact .nil
  | cons a l ih =>
    refine List.nodup_cons.mpr ⟨?_, ih h.2⟩
    intro ha
    -- From `a` the list would go on both over `l` and over what follows `a` in `l`.
    obtain ⟨l₁, l₂, hl, -, hrest⟩ := h.2.suffix ha
    have hsame : l = l₂ := h.2.unique hrest
    have hlen := congrArg List.length hl
    rw [List.length_append, List.length_cons, ← hsame] at hlen
    omega

theorem Seg.next_mem (h : Seg next p l none) (ha : a ∈ l) (hb : next a = some b) : b ∈ l := by
  obtain ⟨l₁, l₂, rfl, -, hrest⟩ := h.suffix ha
  cases l₂ with
  | nil => exact absurd (hb.symm.trans hrest) (Option.some_ne_none b)
  | cons c l₂ =>
    obtain rfl : b = c := Option.some.inj (hb.symm.trans hrest.1)
    simp

theorem Seg.head_mem (h : Seg next (some a) l none) : a ∈ l := by
  cases l with
  | nil => exact absurd h (Option.some_ne_none a)
  | cons b l =>
    obtain rfl := Option.some.inj h.1
    exact List.mem_cons_self

end seg

section update

variable [DecidableEq A] {next : A → Option A} {p q : Option A} {l l₁ l₂ : List A} {a b : A}

theorem Seg.update (h : Seg next p l q) (ha : a ∉ l) (v : Option A) :
    Seg (Function.update next a v) p l q := by
  apply h.congr
  intro b hb
  have hba : b ≠ a := by rintro rfl; exact ha hb
  exact Function.update_of_ne hba _ _

/-- A store to the node `b` of a list puts the node `a` behind it, which already links to the node
that followed. -/
theorem Seg.insertAfter (h : Seg next p (l₁ ++ b :: l₂) none) (ha : a ∉ l₁ ++ b :: l₂)
    (hlink : next a = next b) :
    Seg (Function.update next b (some a)) p (l₁ ++ b :: a :: l₂) none := by
  have hnodup := h.nodup
  obtain ⟨m, hfront, rfl, hrest⟩ := seg_append.mp h
  rw [List.nodup_append, List.nodup_cons] at hnodup
  obtain ⟨-, ⟨hb₂, -⟩, hdisj⟩ := hnodup
  have hb₁ : b ∉ l₁ := fun hb => hdisj b hb b List.mem_cons_self rfl
  have hab : a ≠ b := by rintro rfl; simp at ha
  refine seg_append.mpr ⟨some b, hfront.update hb₁ _, rfl, ?_, ?_⟩
  · exact Function.update_self ..
  · rw [Function.update_of_ne hab, hlink]
    exact hrest.update hb₂ _

end update

end CodingForFun.Lib
