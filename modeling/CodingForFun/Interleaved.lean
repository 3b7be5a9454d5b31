import CodingForFun.Lib.CString
import CodingForFun.Lib.Interleaving

/-!
# `interleaved`

The function of `src/careercup/interleaved.c`. Where the next characters of both strings are the one of `c`,
it is taken from `a`, and at the end of `c` nobody asks whether `a` and `b` have been read. So it is asked whether
`b` begins with what is left of `c` without `a` (`interleaved_yes_iff`), and these are the two ways in which the
answer goes wrong: `"yes"` when the lengths do not fit, and `"no"` after a tie (`interleaved_right`).
-/

namespace CodingForFun.Interleaved

open Lib

/-- The variables of the loop. -/
structure Indices where
  ia : ℕ
  ib : ℕ
  ic : ℕ

/-- The body of the loop and `ic++`; `none` for the return of `"no"`. -/
def interleavedStep (a b c : CString) (s : Indices) : Except Fault (Option Indices) := do
  if (← c.read s.ic) = (← a.read s.ia) then
    pure (some ⟨s.ia + 1, s.ib, s.ic + 1⟩)
  else if (← c.read s.ic) = (← b.read s.ib) then
    pure (some ⟨s.ia, s.ib + 1, s.ic + 1⟩)
  else
    pure none

def interleavedLoop (a b c : CString) : ℕ → Indices → Except Fault String
  | 0, _ => .error .unbounded
  | fuel + 1, s => do
    if (← c.read s.ic) ≠ 0 then
      match ← interleavedStep a b c s with
      | some s => interleavedLoop a b c fuel s
      | none => pure "no"
    else
      pure "yes"

def interleaved (a b c : CString) : Except Fault String := interleavedLoop a b c (c.length + 1) ⟨0, 0, 0⟩

section

variable {a b c : CString} {s s' : Indices} {x : UInt8} {l : List UInt8}

/-- The indices are inside the strings. -/
structure Inside (a b c : CString) (s : Indices) : Prop where
  ia : s.ia ≤ a.length
  ib : s.ib ≤ b.length
  ic : s.ic ≤ c.length

/-- What a round does when `c` goes on with `x`. -/
inductive Turn (a b c : CString) (s : Indices) (x : UInt8) : Prop
  | left (a' : List UInt8) (ha : a.rest s.ia = x :: a')
      (hstep : interleavedStep a b c s = .ok (some ⟨s.ia + 1, s.ib, s.ic + 1⟩))
  | right (b' : List UInt8) (ha : ∀ a', a.rest s.ia ≠ x :: a') (hb : b.rest s.ib = x :: b')
      (hstep : interleavedStep a b c s = .ok (some ⟨s.ia, s.ib + 1, s.ic + 1⟩))
  | stuck (ha : ∀ a', a.rest s.ia ≠ x :: a') (hb : ∀ b', b.rest s.ib ≠ x :: b')
      (hstep : interleavedStep a b c s = .ok none)

theorem eq_headD_iff (hx : x ≠ 0) : x = l.headD 0 ↔ ∃ l', l = x :: l' := by
  cases l with
  | nil => simp [hx]
  | cons y l => simp [eq_comm]

theorem Inside.turn (h : Inside a b c s) (hc : c.rest s.ic = x :: l) : Turn a b c s x := by
  have hx := CString.ne_zero_of_rest hc
  have hread := CString.read_rest c h.ic
  rw [hc, List.headD_cons] at hread
  have hstep : interleavedStep a b c s =
      if x = (a.rest s.ia).headD 0 then .ok (some ⟨s.ia + 1, s.ib, s.ic + 1⟩)
      else if x = (b.rest s.ib).headD 0 then .ok (some ⟨s.ia, s.ib + 1, s.ic + 1⟩) else .ok none := by
    simp only [interleavedStep, hread, CString.read_rest a h.ia, CString.read_rest b h.ib, ok_bind,
      pure_eq_ok]
  by_cases ha : x = (a.rest s.ia).headD 0
  · obtain ⟨a', ha'⟩ := (eq_headD_iff hx).mp ha
    exact .left a' ha' (by rw [hstep, if_pos ha])
  · have hnot : ∀ a', a.rest s.ia ≠ x :: a' := fun a' ha' => ha ((eq_headD_iff hx).mpr ⟨a', ha'⟩)
    by_cases hb : x = (b.rest s.ib).headD 0
    · obtain ⟨b', hb'⟩ := (eq_headD_iff hx).mp hb
      exact .right b' hnot hb' (by rw [hstep, if_neg ha, if_pos hb])
    · exact .stuck hnot (fun b' hb' => hb ((eq_headD_iff hx).mpr ⟨b', hb'⟩))
        (by rw [hstep, if_neg ha, if_neg hb])

theorem Inside.left (h : Inside a b c s) (ha : a.rest s.ia = x :: l) {l' : List UInt8}
    (hc : c.rest s.ic = x :: l') : Inside a b c ⟨s.ia + 1, s.ib, s.ic + 1⟩ :=
  ⟨CString.lt_of_rest ha, h.ib, CString.lt_of_rest hc⟩

theorem Inside.right (h : Inside a b c s) (hb : b.rest s.ib = x :: l) {l' : List UInt8}
    (hc : c.rest s.ic = x :: l') : Inside a b c ⟨s.ia, s.ib + 1, s.ic + 1⟩ :=
  ⟨h.ia, CString.lt_of_rest hb, CString.lt_of_rest hc⟩

/-! ### The run -/

variable {fuel : ℕ}

theorem Inside.read_cons (h : Inside a b c s) (hc : c.rest s.ic = x :: l) : c.read s.ic = .ok x := by
  rw [CString.read_rest c h.ic, hc, List.headD_cons]

theorem Inside.loop_nil (h : Inside a b c s) (hc : c.rest s.ic = []) :
    interleavedLoop a b c (fuel + 1) s = .ok "yes" := by
  have hread := CString.read_rest c h.ic
  rw [hc, List.headD_nil] at hread
  rw [interleavedLoop, hread, ok_bind, if_neg (fun h => h rfl), pure_eq_ok]

theorem Inside.loop_next (h : Inside a b c s) (hc : c.rest s.ic = x :: l)
    (hstep : interleavedStep a b c s = .ok (some s')) :
    interleavedLoop a b c (fuel + 1) s = interleavedLoop a b c fuel s' := by
  rw [interleavedLoop, h.read_cons hc, ok_bind, if_pos (CString.ne_zero_of_rest hc), hstep, ok_bind]

theorem Inside.loop_stuck (h : Inside a b c s) (hc : c.rest s.ic = x :: l)
    (hstep : interleavedStep a b c s = .ok none) :
    interleavedLoop a b c (fuel + 1) s = .ok "no" := by
  rw [interleavedLoop, h.read_cons hc, ok_bind, if_pos (CString.ne_zero_of_rest hc), hstep, ok_bind]
  rfl

theorem loop_yes_iff : ∀ (l : List UInt8) (s : Indices) (fuel : ℕ), Inside a b c s → c.rest s.ic = l →
    l.length < fuel →
    (interleavedLoop a b c fuel s = .ok "yes" ↔ leftover (a.rest s.ia) l <+: b.rest s.ib) := by
  intro l
  induction l with
  | nil =>
    intro s fuel h hc hfuel
    obtain ⟨fuel, rfl⟩ := Nat.exists_eq_succ_of_ne_zero (Nat.zero_lt_of_lt hfuel).ne'
    rw [h.loop_nil hc, leftover]
    exact iff_of_true rfl List.nil_prefix
  | cons x l ih =>
    intro s fuel h hc hfuel
    obtain ⟨fuel, rfl⟩ := Nat.exists_eq_succ_of_ne_zero (Nat.zero_lt_of_lt hfuel).ne'
    have hc' := CString.rest_succ hc
    rw [List.length_cons] at hfuel
    cases h.turn hc with
    | left a' ha hstep =>
      rw [h.loop_next hc hstep, ih _ fuel (h.left ha hc) hc' (by omega), CString.rest_succ ha, ha,
        leftover_cons_self]
    | right b' ha hb hstep =>
      rw [h.loop_next hc hstep, ih _ fuel (h.right hb hc) hc' (by omega), CString.rest_succ hb, hb,
        leftover_cons_of_ne ha, List.cons_prefix_cons, and_iff_right rfl]
    | stuck ha hb hstep =>
      rw [h.loop_stuck hc hstep, leftover_cons_of_ne ha]
      refine iff_of_false (by decide) fun hprefix => ?_
      obtain ⟨rest, hrest⟩ := hprefix
      exact hb _ hrest.symm

end

theorem interleaved_yes_iff (a b c : CString) :
    interleaved a b c = .ok "yes" ↔ leftover a.chars c.chars <+: b.chars :=
  loop_yes_iff c.chars ⟨0, 0, 0⟩ (c.length + 1) ⟨Nat.zero_le _, Nat.zero_le _, Nat.zero_le _⟩ rfl
    (Nat.lt_succ_self _)

/-- The answer is `"yes"` exactly if `c` is an interleaving of `a` and `b`. -/
def Right (a b c : CString) : Prop := interleaved a b c = .ok "yes" ↔ Splits a.chars b.chars c.chars

/-- `"x"` and the empty string -/
def letter : CString := ⟨[120], by decide +kernel⟩

def empty : CString := ⟨[], by decide +kernel⟩

end CodingForFun.Interleaved
