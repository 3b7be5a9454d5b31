import CodingForFun.Lib.Cells

/-!
# Strings with a terminator

The characters of a C string are none of them the terminator, which stands behind the last one. A read
behind the terminator faults. `read_headD` is how the loops over a string are proved: at the front of a rest of the
string stands its first character, or the terminator. A loop that does something with one character a round,
up to the terminator (`scan`) or up to the length, is a fold over the characters.
-/

namespace CodingForFun.Lib

/-- The characters in front of the terminator. -/
structure CString where
  chars : List UInt8
  nonzero : ∀ c ∈ chars, c ≠ 0

namespace CString

variable {s : CString} {front back : List UInt8} {c : UInt8}

/-- `strlen(s)` -/
def length (s : CString) : ℕ := s.chars.length

/-- `s[i]` -/
def read (s : CString) (i : ℤ) : Except Fault UInt8 :=
  if 0 ≤ i ∧ i ≤ s.length then .ok (s.chars.getD i.toNat 0) else .error .outOfBounds

theorem read_headD (h : front ++ back = s.chars) : s.read front.length = .ok (back.headD 0) := by
  have hlen : front.length ≤ s.length := by
    rw [length, ← h, List.length_append]
    exact Nat.le_add_right _ _
  rw [read, if_pos ⟨Int.natCast_nonneg _, by exact_mod_cast hlen⟩, Int.toNat_natCast, ← h,
    List.getD_eq_getElem?_getD, List.getElem?_append_right le_rfl, Nat.sub_self]
  cases back <;> rfl

theorem read_cons (h : front ++ c :: back = s.chars) : s.read front.length = .ok c := read_headD h

theorem concat_append (h : front ++ c :: back = s.chars) : (front ++ [c]) ++ back = s.chars := by
  rw [← h, List.append_assoc, List.singleton_append]

theorem length_concat (front : List UInt8) (c : UInt8) :
    ((front ++ [c]).length : ℤ) = front.length + 1 := by
  rw [List.length_append, List.length_singleton, Int.natCast_succ]

theorem read_succ (h : front ++ c :: back = s.chars) : s.read (front.length + 1) = .ok (back.headD 0) := by
  rw [← length_concat front c, read_headD (concat_append h)]

theorem ne_zero (h : front ++ c :: back = s.chars) : c ≠ 0 := by
  apply s.nonzero
  rw [← h]
  exact List.mem_append_right _ List.mem_cons_self

theorem length_lt (h : front ++ back = s.chars) : back.length < s.length + 1 := by
  rw [length, ← h, List.length_append]
  omega

theorem exists_split {k : ℕ} (hk : k < s.length) :
    ∃ front c back, front ++ c :: back = s.chars ∧ front.length = k :=
  ⟨s.chars.take k, s.chars[k], s.chars.drop (k + 1),
    by rw [← List.drop_eq_getElem_cons hk, List.take_append_drop], List.length_take_of_le hk.le⟩

theorem read_length (s : CString) : s.read s.length = .ok 0 := read_headD (List.append_nil _)

/-! ### What is left of a string -/

/-- The characters from `s[i]` on. -/
def rest (s : CString) (i : ℕ) : List UInt8 := s.chars.drop i

variable {i : ℕ}

theorem read_rest (s : CString) (hi : i ≤ s.length) : s.read i = .ok ((s.rest i).headD 0) := by
  have hread := read_headD (List.take_append_drop i s.chars)
  rwa [List.length_take_of_le hi] at hread

theorem rest_succ (h : s.rest i = c :: back) : s.rest (i + 1) = back := by
  rw [rest, ← List.tail_drop, ← rest, h, List.tail_cons]

theorem lt_of_rest (h : s.rest i = c :: back) : i < s.length := by
  by_contra hle
  rw [rest, List.drop_of_length_le (Nat.le_of_not_lt hle)] at h
  exact absurd h (List.cons_ne_nil _ _).symm

theorem ne_zero_of_rest (h : s.rest i = c :: back) : c ≠ 0 := by
  apply s.nonzero
  apply List.mem_of_mem_drop (i := i)
  rw [← rest, h]
  exact List.mem_cons_self

/-! ### Loops over the characters -/

variable {σ : Type}

/-- `s[i]`, with the variable `i` and the others -/
def more (s : CString) (x : ℤ × σ) : Except Fault Bool := do
  pure ((← s.read x.1) != 0)

/-- `x = step(x, s[i]); i++;` -/
def scanStep (s : CString) (step : σ → UInt8 → Except Fault σ) (x : ℤ × σ) : Except Fault (ℤ × σ) := do
  let y ← step x.2 (← s.read x.1)
  pure (x.1 + 1, y)

/-- `i = 0; while (s[i]) { x = step(x, s[i]); i++; }`, with `i` at the end -/
def scan (s : CString) (step : σ → UInt8 → Except Fault σ) (x : σ) : Except Fault (ℤ × σ) :=
  whileM .unbounded s.more (s.scanStep step) (s.length + 1) (0, x)

variable {step : σ → UInt8 → Except Fault σ} {x : σ}

theorem more_cons (h : front ++ c :: back = s.chars) : s.more ((front.length : ℤ), x) = .ok true := by
  simp only [more, read_cons h]
  rw [ok_bind, bne_iff_ne.mpr (ne_zero h), pure_eq_ok]

theorem more_nil (h : front = s.chars) : s.more ((front.length : ℤ), x) = .ok false := by
  simp only [more, read_headD (show front ++ [] = s.chars by rw [List.append_nil, h])]
  rfl

theorem scanStep_cons (h : front ++ c :: back = s.chars) :
    s.scanStep step ((front.length : ℤ), x) = (do pure (((front ++ [c]).length : ℤ), ← step x c)) := by
  rw [length_concat]
  simp only [scanStep, read_cons h, ok_bind]

theorem scan_eq (s : CString) (step : σ → UInt8 → Except Fault σ) (x : σ) :
    s.scan step x = (do pure ((s.length : ℤ), ← s.chars.foldlM step x)) := by
  have hrest : ∀ (back front : List UInt8) (fuel : ℕ) (x : σ), front ++ back = s.chars →
      back.length < fuel → whileM .unbounded s.more (s.scanStep step) fuel ((front.length : ℤ), x) =
        (do pure ((s.length : ℤ), ← back.foldlM step x)) := by
    intro back
    induction back with
    | nil =>
      intro front fuel x h hfuel
      obtain ⟨fuel, rfl⟩ := Nat.exists_eq_add_of_lt hfuel
      rw [List.append_nil] at h
      rw [whileM_false _ (more_nil h), length, ← h]
      rfl
    | cons c back ih =>
      intro front fuel x h hfuel
      obtain ⟨fuel, rfl⟩ := Nat.exists_eq_add_of_lt hfuel
      have hround : s.scanStep step ((front.length : ℤ), x) = _ := scanStep_cons h
      rw [List.foldlM_cons]
      cases hstep : step x c with
      | error e =>
        rw [hstep] at hround
        rw [whileM_error _ (more_cons h) hround]
        rfl
      | ok y =>
        rw [hstep] at hround
        rw [whileM_true _ (more_cons h) hround, ok_bind]
        exact ih _ _ y (concat_append h) (by rw [List.length_cons]; omega)
  exact hrest s.chars [] (s.length + 1) x rfl (Nat.lt_succ_self _)

theorem forUp_eq {body : ℤ → σ → Except Fault σ} {step : σ → UInt8 → Except Fault σ}
    (hbody : ∀ i x c, s.read i = .ok c → body i x = step x c) (x : σ) :
    forUp 0 s.length body x = s.chars.foldlM step x := by
  have hrest : ∀ (back front : List UInt8) (x : σ), front ++ back = s.chars →
      rounds 1 body back.length front.length x = back.foldlM step x := by
    intro back
    induction back with
    | nil =>
      intro front x h
      rfl
    | cons c back ih =>
      intro front x h
      rw [List.length_cons, rounds, hbody _ x c (read_cons h), List.foldlM_cons]
      cases hstep : step x c with
      | error e => rfl
      | ok y =>
        have hround := ih (front ++ [c]) y (concat_append h)
        rw [length_concat] at hround
        rw [ok_bind, ok_bind, hround]
  exact hrest s.chars [] x rfl

end CString

/-! ### Letters -/

/-- From `'a'` to `'z'`. -/
def IsLower (c : UInt8) : Prop := 97 ≤ c.toNat ∧ c.toNat ≤ 122

instance (c : UInt8) : Decidable (IsLower c) := inferInstanceAs (Decidable (_ ∧ _))

/-- `c - 'a' + 1` -/
def letterNumber (c : UInt8) : ℤ := c.toNat - 97 + 1

theorem letterNumber_eq {c : UInt8} (hc : IsLower c) : letterNumber c = (c.toNat - 96 : ℕ) := by
  obtain ⟨hlow, -⟩ := hc
  rw [letterNumber]
  omega

theorem letterNumber_zero : letterNumber 0 = -96 := rfl

end CodingForFun.Lib
