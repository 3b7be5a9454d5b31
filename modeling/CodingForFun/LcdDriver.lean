import CodingForFun.Lib.CString

/-!
# The text display of `lcd_driver.h`

`myprintf` walks over its text with a row and a column, and calls `printchar` for each character that is not a
newline. The column is advanced after a newline, too, so that the row after it starts in column 1. The calls are
those of the layout that starts it in column 0 unless something is printed in row 1 behind a newline of row 0.
-/

namespace CodingForFun.LcdDriver

open Lib

/-- `'\n'` -/
def newline : UInt8 := 10

/-- `int row, column;` -/
structure Cursor where
  row : ℤ
  column : ℤ
deriving DecidableEq

/-- The call `printchar(data, row, column)`. -/
structure Call where
  data : UInt8
  cursor : Cursor
deriving DecidableEq

/-- `sendCommand(byte)` and `sendData(byte)` -/
inductive Sent where
  | command (byte : ℤ)
  | data (byte : UInt8)

def printchar (call : Call) : List Sent :=
  let address := 0x80 + call.cursor.row * 0x40 + call.cursor.column
  [.command address, .data call.data]

def clear : List Sent := [.command 0x01]

/-- `row++; column = 0;` -/
def Cursor.nextRow (cur : Cursor) : Cursor := ⟨cur.row + 1, 0⟩

/-- `column++; if (column > 15) { column = 0; row++; }` -/
def Cursor.advance (cur : Cursor) : Cursor :=
  let column := cur.column + 1
  if column > 15 then ⟨cur.row + 1, 0⟩ else ⟨cur.row, column⟩

/-- The loop of `myprintf`, with the calls so far. -/
def myprintfLoop (s : CString) : ℕ → ℤ → Cursor → List Call → Except Fault (List Call)
  | 0, _, _, _ => .error .unbounded
  | fuel + 1, p, cur, calls => do
    let c ← s.read p
    if c ≠ 0 then
      let (cur, calls) := if c = newline then (cur.nextRow, calls) else (cur, calls ++ [⟨c, cur⟩])
      let cur := cur.advance
      if cur.row > 1 then pure calls else myprintfLoop s fuel (p + 1) cur calls
    else pure calls

/-- The calls of `printchar` that `myprintf(s)` makes. -/
def myprintf (s : CString) : Except Fault (List Call) := myprintfLoop s (s.length + 1) 0 ⟨0, 0⟩ []

/-- All that `myprintf(s)` sends. -/
def sentByMyprintf (s : CString) : Except Fault (List Sent) := do
  pure (clear ++ (← myprintf s).flatMap printchar)

/-- The calls for a text from a cursor on, up to the end of row 1. A newline moves the cursor by `move`. -/
def calls (move : Cursor → Cursor) : List UInt8 → Cursor → List Call
  | [], _ => []
  | c :: l, cur =>
    let next := if c = newline then move cur else cur.advance
    let rest := if next.row > 1 then [] else calls move l next
    if c = newline then rest else ⟨c, cur⟩ :: rest

/-- The layout in which a row starts in column 0. -/
def layout (l : List UInt8) : List Call := calls Cursor.nextRow l ⟨0, 0⟩

/-- The calls of `myprintf` are those of the layout. -/
def PrintsLayout (s : CString) : Prop := myprintf s = .ok (layout s.chars)

/-! ### The loop -/

/-- What a newline does to the cursor. -/
def newlineMove (cur : Cursor) : Cursor := cur.nextRow.advance

variable {s : CString} {move : Cursor → Cursor} {c : UInt8} {l front back : List UInt8} {cur : Cursor}

theorem advance_last {row k : ℤ} (hk : 15 ≤ k) : Cursor.advance ⟨row, k⟩ = ⟨row + 1, 0⟩ :=
  if_pos (Int.lt_add_one_of_le hk)

theorem advance_inner {row k : ℤ} (hk : k < 15) : Cursor.advance ⟨row, k⟩ = ⟨row, k + 1⟩ :=
  if_neg (Int.not_lt.mpr hk)

theorem calls_newline (move : Cursor → Cursor) (l : List UInt8) (cur : Cursor) :
    calls move (newline :: l) cur = if (move cur).row > 1 then [] else calls move l (move cur) := rfl

theorem calls_cons (hc : c ≠ newline) :
    calls move (c :: l) cur = ⟨c, cur⟩ :: if cur.advance.row > 1 then [] else calls move l cur.advance := by
  rw [calls, if_neg hc, if_neg hc]

theorem myprintfLoop_eq {fuel : ℕ} {done : List Call} (h : front ++ back = s.chars) (hfuel : back.length < fuel) :
    myprintfLoop s fuel front.length cur done = .ok (done ++ calls newlineMove back cur) := by
  induction back generalizing fuel front cur done with
  | nil =>
    obtain ⟨fuel, rfl⟩ := Nat.exists_eq_add_of_lt hfuel
    rw [myprintfLoop, CString.read_headD h, ok_bind, calls, List.append_nil]
    rfl
  | cons c back ih =>
    obtain ⟨fuel, rfl⟩ := Nat.exists_eq_add_of_lt hfuel
    have hrest := @ih (front ++ [c])
    rw [CString.length_concat] at hrest
    rw [myprintfLoop, CString.read_cons h, ok_bind, if_pos (CString.ne_zero h)]
    by_cases hc : c = newline
    · subst hc
      rw [calls_newline]
      simp only [if_true]
      rw [← newlineMove]
      split_ifs
      · rw [List.append_nil, pure_eq_ok]
      · apply hrest (CString.concat_append h)
        rw [List.length_cons]
        omega
    · rw [calls_cons hc]
      simp only [if_neg hc]
      split_ifs
      · rw [pure_eq_ok]
      · have hcalls := List.append_cons done ⟨c, cur⟩ (calls newlineMove back cur.advance)
        rw [hcalls]
        apply hrest (CString.concat_append h)
        rw [List.length_cons]
        omega

theorem myprintf_eq (s : CString) : myprintf s = .ok (calls newlineMove s.chars ⟨0, 0⟩) := by
  have hloop := @myprintfLoop_eq s [] s.chars ⟨0, 0⟩ (s.length + 1) [] rfl (Nat.lt_succ_self _)
  rwa [List.nil_append] at hloop

/-! ### The cells of the display -/

/-- A place of one of the 16 columns of the two rows. -/
def Cursor.OnDisplay (cur : Cursor) : Prop := 0 ≤ cur.row ∧ cur.row ≤ 1 ∧ 0 ≤ cur.column ∧ cur.column ≤ 15

theorem advance_onDisplay (h : cur.OnDisplay) (hrow : cur.advance.row ≤ 1) : cur.advance.OnDisplay := by
  obtain ⟨row, k⟩ := cur
  obtain ⟨hlow, hhigh, hcolumn, -⟩ := h
  by_cases hk : k < 15
  · rw [advance_inner hk]
    exact ⟨hlow, hhigh, Int.le_add_one hcolumn, hk⟩
  · rw [advance_last (Int.not_lt.mp hk)] at hrow ⊢
    exact ⟨Int.le_add_one hlow, hrow, Int.le_refl 0, by simp⟩

theorem newlineMove_onDisplay (h : cur.OnDisplay) (hrow : (newlineMove cur).row ≤ 1) :
    (newlineMove cur).OnDisplay := by
  have hmove : newlineMove cur = ⟨cur.row + 1, 1⟩ := rfl
  rw [hmove] at hrow ⊢
  exact ⟨Int.le_add_one h.1, hrow, by simp, by simp⟩

theorem calls_onDisplay (h : cur.OnDisplay) : ∀ call ∈ calls newlineMove l cur, call.cursor.OnDisplay := by
  induction l generalizing cur with
  | nil => intro call hcall; cases hcall
  | cons c l ih =>
    by_cases hc : c = newline
    · subst hc
      rw [calls_newline]
      split_ifs with hrow
      · intro call hcall; cases hcall
      · exact ih (newlineMove_onDisplay h (Int.not_lt.mp hrow))
    · rw [calls_cons hc]
      intro call hcall
      obtain rfl | hcall := List.mem_cons.mp hcall
      · exact h
      · split_ifs at hcall with hrow
        · cases hcall
        · exact ih (advance_onDisplay h (Int.not_lt.mp hrow)) call hcall

theorem address_mem {s : CString} {sent : List Sent} {a : ℤ} (hs : sentByMyprintf s = .ok sent)
    (ha : .command a ∈ sent) : a = 0x01 ∨ 0x80 ≤ a ∧ a ≤ 0x8F ∨ 0xC0 ≤ a ∧ a ≤ 0xCF := by
  rw [sentByMyprintf, myprintf_eq, ok_bind] at hs
  rw [← Except.ok.inj hs, List.mem_append] at ha
  obtain ha | ha := ha
  · obtain ha := List.mem_singleton.mp ha
    exact .inl (Sent.command.inj ha)
  · obtain ⟨call, hcall, ha⟩ := List.mem_flatMap.mp ha
    have hcell := calls_onDisplay ⟨by decide, by decide, by decide, by decide⟩ call hcall
    obtain ⟨hlow, hhigh, hcolumn, hcolumn'⟩ := hcell
    obtain ha | ha := List.mem_cons.mp ha
    · have haddress : a = 0x80 + call.cursor.row * 0x40 + call.cursor.column := Sent.command.inj ha
      omega
    · cases List.mem_singleton.mp ha

/-! ### When it is the layout -/

theorem calls_rowOne (l : List UInt8) (k : ℤ) : calls newlineMove l ⟨1, k⟩ = calls Cursor.nextRow l ⟨1, k⟩ := by
  induction l generalizing k with
  | nil => rfl
  | cons c l ih =>
    by_cases hc : c = newline
    · subst hc
      rfl
    · rw [calls_cons hc, calls_cons hc]
      by_cases hk : k < 15
      · rw [advance_inner hk, ih]
      · rw [advance_last (Int.not_lt.mp hk)]
        rfl

theorem calls_newline_inj :
    calls newlineMove l ⟨1, 1⟩ = calls Cursor.nextRow l ⟨1, 0⟩ ↔ l.headD newline = newline := by
  cases l with
  | nil => exact iff_of_true rfl rfl
  | cons c l =>
    rw [List.headD_cons]
    constructor
    · intro heq
      by_contra hc
      rw [calls_cons hc, calls_cons hc] at heq
      have hcall := (List.cons.inj heq).1
      exact absurd (congrArg (fun call => call.cursor.column) hcall) (by simp)
    · intro hc
      subst hc
      rfl

/-- Behind the first newline, when fewer than `k` characters stand in front of it, comes another one or nothing. -/
def NewlineLast (l : List UInt8) (k : ℤ) : Prop :=
  ∀ front back, l = front ++ newline :: back → newline ∉ front → front.length < k → back.headD newline = newline

theorem newlineLast_newline {k : ℤ} (hk : 0 < k) : NewlineLast (newline :: l) k ↔ l.headD newline = newline := by
  constructor
  · intro h
    exact h [] l rfl List.not_mem_nil (by exact_mod_cast hk)
  · intro hl front back hsplit hfront _
    cases front with
    | nil => rwa [← (List.cons.inj hsplit).2]
    | cons d front =>
      rw [← (List.cons.inj hsplit).1] at hfront
      exact absurd List.mem_cons_self hfront

theorem newlineLast_cons {k : ℤ} (hc : c ≠ newline) : NewlineLast (c :: l) (k + 1) ↔ NewlineLast l k := by
  constructor
  · intro h front back hsplit hfront hlen
    apply h (c :: front) back (by rw [hsplit]; rfl)
    · exact List.not_mem_cons_of_ne_of_not_mem hc.symm hfront
    · rw [List.length_cons]
      omega
  · intro h front back hsplit hfront hlen
    cases front with
    | nil => exact absurd (List.cons.inj hsplit).1 hc
    | cons d front =>
      rw [List.length_cons] at hlen
      exact h front back (List.cons.inj hsplit).2 (List.not_mem_of_not_mem_cons hfront) (by omega)

theorem newlineLast_zero (l : List UInt8) : NewlineLast l 0 := by
  intro front back _ _ hlen
  omega

theorem calls_rowZero {k : ℤ} (hk : 0 < k) (hk' : k ≤ 16) :
    calls newlineMove l ⟨0, 16 - k⟩ = calls Cursor.nextRow l ⟨0, 16 - k⟩ ↔ NewlineLast l k := by
  induction l generalizing k with
  | nil =>
    refine iff_of_true rfl ?_
    intro front back hsplit
    exact absurd hsplit (by simp)
  | cons c l ih =>
    by_cases hc : c = newline
    · subst hc
      rw [newlineLast_newline hk, ← calls_newline_inj]
      rfl
    · rw [calls_cons hc, calls_cons hc]
      obtain ⟨k, rfl⟩ : ∃ k', k = k' + 1 := ⟨k - 1, by omega⟩
      rw [newlineLast_cons hc]
      by_cases hzero : k = 0
      · subst hzero
        rw [advance_last (by decide)]
        apply iff_of_true _ (newlineLast_zero l)
        exact congrArg _ (calls_rowOne l 0)
      · rw [← ih (by omega) (by omega), advance_inner (by omega), List.cons_inj_right,
          show 16 - (k + 1) + 1 = 16 - k by omega]
        rfl

/-- The calls are those of the layout unless a newline of row 0 is followed by something to print. -/
theorem printsLayout_iff (s : CString) : PrintsLayout s ↔ NewlineLast s.chars 16 := by
  rw [PrintsLayout, myprintf_eq, layout, Except.ok.injEq]
  exact @calls_rowZero s.chars 16 (by decide) (by decide)

/-- An `A` behind a newline. -/
theorem not_printsLayout_newline : ¬PrintsLayout ⟨[newline, 65], by decide +kernel⟩ := by
  unfold PrintsLayout
  decide +kernel

end CodingForFun.LcdDriver
