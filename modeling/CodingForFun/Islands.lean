import CodingForFun.Lib.Cells
import CodingForFun.Lib.GraphSearch

/-!
# `explore`

The function of `src/careercup/islands.c`. Behind `return` a semicolon is missing, so that the assignment in the
next line is what is returned: cells with 0 are set to 2, and a land cell is never marked (`not_marksIsland`).
`exploreMarking` is the function with the semicolon. It goes back to cells that it has marked, and its tests
let the index `m` and the index `n` pass, so that it only marks islands of one cell off two of the borders
(`marksIsland_exploreMarking_iff`).
-/

namespace CodingForFun.Islands

open Lib

/-- The cells of the map, of which those in `m` rows and `n` columns may be accessed. -/
abbrev Grid (_m _n : ℤ) := ℤ × ℤ → ℤ

variable {m n : ℤ}

/-- The cells that may be accessed. -/
def InGrid (m n : ℤ) (p : ℤ × ℤ) : Prop := (0 ≤ p.1 ∧ p.1 < m) ∧ 0 ≤ p.2 ∧ p.2 < n

instance (m n : ℤ) (p : ℤ × ℤ) : Decidable (InGrid m n p) := inferInstanceAs (Decidable (_ ∧ _))

/-- `map[i][j]` -/
def read (map : Grid m n) (i j : ℤ) : Except Fault ℤ :=
  if InGrid m n (i, j) then .ok (map (i, j)) else .error .outOfBounds

/-- `map[i][j] = x` -/
def write (map : Grid m n) (i j x : ℤ) : Except Fault (Grid m n) :=
  if InGrid m n (i, j) then .ok (Function.update map (i, j) x) else .error .outOfBounds

/-- `i > m || i < 0 || j > n || j < 0`; as a `size_t` a negative index is greater than `m`, too. -/
def Outside (m n i j : ℤ) : Prop := i > m ∨ i < 0 ∨ j > n ∨ j < 0

instance (m n i j : ℤ) : Decidable (Outside m n i j) := inferInstanceAs (Decidable (_ ∨ _))

/-- The four calls at the end. -/
def exploreNeighbors (call : Grid m n → ℤ → ℤ → Except Fault (Grid m n)) (map : Grid m n) (i j : ℤ) :
    Except Fault (Grid m n) := do
  let map ← call map (i - 1) j
  let map ← call map (i + 1) j
  let map ← call map i (j - 1)
  call map i (j + 1)

/-- `explore`, cut off after some levels. -/
def explore : ℕ → Grid m n → ℤ → ℤ → Except Fault (Grid m n)
  | 0, _, _, _ => .error .unbounded
  | fuel + 1, map, i, j => do
    if Outside m n i j then
      pure map
    else if (← read map i j) = 0 then
      -- return map[i][j] = 2;
      write map i j 2
    else
      exploreNeighbors (explore fuel) map i j

/-- The same with a semicolon behind `return`. -/
def exploreMarking : ℕ → Grid m n → ℤ → ℤ → Except Fault (Grid m n)
  | 0, _, _, _ => .error .unbounded
  | fuel + 1, map, i, j => do
    if Outside m n i j then
      pure map
    else if (← read map i j) = 0 then
      pure map
    else
      let map ← write map i j 2
      exploreNeighbors (exploreMarking fuel) map i j

/-! ### Islands -/

/-- The cells next to one, in the order of the calls. -/
def nextTo (p : ℤ × ℤ) : List (ℤ × ℤ) := [(p.1 - 1, p.2), (p.1 + 1, p.2), (p.1, p.2 - 1), (p.1, p.2 + 1)]

def IsLand (map : Grid m n) (p : ℤ × ℤ) : Prop := InGrid m n p ∧ map p = 1

instance (map : Grid m n) (p : ℤ × ℤ) : Decidable (IsLand map p) := inferInstanceAs (Decidable (_ ∧ _))

/-- The island of a land cell. -/
def Island (map : Grid m n) : ℤ × ℤ → ℤ × ℤ → Prop := Reach fun p => (nextTo p).filter (IsLand map ·)

/-- The function ends without a fault, with 2 in exactly the cells of the island and all others unchanged. -/
def MarksIsland (f : ℕ → Grid m n → ℤ → ℤ → Except Fault (Grid m n)) (map : Grid m n) (i j : ℤ) : Prop :=
  ∃ fuel map', f fuel map i j = .ok map' ∧
    ∀ p, (Island map (i, j) p → map' p = 2) ∧ (¬Island map (i, j) p → map' p = map p)

variable {map map' : Grid m n} {i j : ℤ} {p q : ℤ × ℤ} {fuel : ℕ}

theorem InGrid.not_outside (h : InGrid m n (i, j)) : ¬Outside m n i j := by
  obtain ⟨hi, hj⟩ := h
  rw [Outside]
  omega

theorem read_ok (h : InGrid m n (i, j)) : read map i j = .ok (map (i, j)) := if_pos h

theorem of_read_eq_ok {x : ℤ} (h : read map i j = .ok x) : InGrid m n (i, j) ∧ map (i, j) = x := by
  by_cases hin : InGrid m n (i, j)
  · rw [read_ok hin] at h
    exact ⟨hin, Except.ok.inj h⟩
  · rw [read, if_neg hin] at h
    cases h

theorem write_ok (h : InGrid m n (i, j)) (x : ℤ) :
    write map i j x = .ok (Function.update map (i, j) x) := if_pos h

section calls

variable {call : Grid m n → ℤ → ℤ → Except Fault (Grid m n)} {inv : Grid m n → Prop}

theorem exploreNeighbors_calls (hcall : ∀ map i j map', call map i j = .ok map' → inv map → inv map')
    (hinv : inv map) (h : exploreNeighbors call map i j = .ok map') :
    inv map' ∧ ∀ q ∈ nextTo (i, j), ∃ map₁ map₂, inv map₁ ∧ call map₁ q.1 q.2 = .ok map₂ := by
  obtain ⟨map₁, h₁, h⟩ := exists_of_bind_eq_ok h
  obtain ⟨map₂, h₂, h⟩ := exists_of_bind_eq_ok h
  obtain ⟨map₃, h₃, h₄⟩ := exists_of_bind_eq_ok h
  have hinv₁ := hcall _ _ _ _ h₁ hinv
  have hinv₂ := hcall _ _ _ _ h₂ hinv₁
  have hinv₃ := hcall _ _ _ _ h₃ hinv₂
  refine ⟨hcall _ _ _ _ h₄ hinv₃, fun q hq => ?_⟩
  simp only [nextTo, List.mem_cons, List.not_mem_nil, or_false] at hq
  rcases hq with rfl | rfl | rfl | rfl
  · exact ⟨_, _, hinv, h₁⟩
  · exact ⟨_, _, hinv₁, h₂⟩
  · exact ⟨_, _, hinv₂, h₃⟩
  · exact ⟨_, _, hinv₃, h₄⟩

theorem exploreNeighbors_same (hcall : ∀ q ∈ nextTo (i, j), call map q.1 q.2 = .ok map) :
    exploreNeighbors call map i j = .ok map := by
  have h₁ : call map (i - 1) j = .ok map := hcall (i - 1, j) (by simp [nextTo])
  have h₂ : call map (i + 1) j = .ok map := hcall (i + 1, j) (by simp [nextTo])
  have h₃ : call map i (j - 1) = .ok map := hcall (i, j - 1) (by simp [nextTo])
  have h₄ : call map i (j + 1) = .ok map := hcall (i, j + 1) (by simp [nextTo])
  rw [exploreNeighbors, h₁, ok_bind, h₂, ok_bind, h₃, ok_bind, h₄]

end calls

theorem explore_nonzero (hp : map p ≠ 0) (h : explore fuel map i j = .ok map') : map' p = map p := by
  induction fuel generalizing map i j map' with
  | zero => cases h
  | succ fuel ih =>
    rw [explore] at h
    by_cases hout : Outside m n i j
    · rw [if_pos hout] at h
      rw [Except.ok.inj h]
    · rw [if_neg hout] at h
      obtain ⟨x, hread, h⟩ := exists_of_bind_eq_ok h
      obtain ⟨hin, hx⟩ := of_read_eq_ok hread
      by_cases hzero : x = 0
      · have hne : p ≠ (i, j) := by
          rintro rfl
          exact hp (hx.trans hzero)
        rw [if_pos hzero, write_ok hin] at h
        rw [← Except.ok.inj h, Function.update_of_ne hne]
      · rw [if_neg hzero] at h
        have hcall : ∀ (map₁ : Grid m n) i j (map₂ : Grid m n), explore fuel map₁ i j = .ok map₂ →
            map₁ p = map p → map₂ p = map p := by
          intro map₁ i j map₂ hok hsame
          rw [← hsame] at hp ⊢
          exact ih hp hok
        exact (exploreNeighbors_calls hcall rfl h).1

/-- No land cell is ever marked: `explore` never does what it should. -/
theorem not_marksIsland (hland : IsLand map (i, j)) : ¬MarksIsland explore map i j := by
  intro h
  obtain ⟨fuel, map', hok, hmarks⟩ := h
  have hcell : map (i, j) = 1 := hland.2
  have hmark := (hmarks (i, j)).1 (.refl _)
  rw [explore_nonzero (by rw [hcell]; decide) hok, hcell] at hmark
  exact absurd hmark (by decide)

theorem not_marksIsland_single : ¬MarksIsland (m := 1) (n := 1) explore (fun _ => 1) 0 0 :=
  not_marksIsland (by decide)

/-- One land cell in the middle of water. -/
def pond : Grid 3 3 := fun p => if p = (1, 1) then 1 else 0

/-- The four cells next to it are marked in its place. -/
theorem not_marksIsland_pond : ¬MarksIsland explore pond 1 1 := by
  intro h
  obtain ⟨fuel, map', hok, hmarks⟩ := h
  have hmark := (hmarks (1, 1)).1 (.refl _)
  rw [explore_nonzero (by decide) hok] at hmark
  exact absurd hmark (by decide)

/-! ### With the semicolon -/

theorem exploreMarking_inGrid (hin : ¬Outside m n i j) (h : exploreMarking (fuel + 1) map i j = .ok map') :
    InGrid m n (i, j) ∧ (map (i, j) = 0 ∧ map' = map ∨ map (i, j) ≠ 0 ∧
      exploreNeighbors (exploreMarking fuel) (Function.update map (i, j) 2) i j = .ok map') := by
  rw [exploreMarking, if_neg hin] at h
  obtain ⟨x, hread, h⟩ := exists_of_bind_eq_ok h
  obtain ⟨hgrid, rfl⟩ := of_read_eq_ok hread
  refine ⟨hgrid, ?_⟩
  by_cases hzero : map (i, j) = 0
  · rw [if_pos hzero] at h
    exact .inl ⟨hzero, (Except.ok.inj h).symm⟩
  · rw [if_neg hzero, write_ok hgrid, ok_bind] at h
    exact .inr ⟨hzero, h⟩

theorem inGrid_of_ok (hin : ¬Outside m n i j) (h : exploreMarking fuel map i j = .ok map') :
    InGrid m n (i, j) := by
  cases fuel with
  | zero => cases h
  | succ fuel => exact (exploreMarking_inGrid hin h).1

theorem exploreMarking_nonzero (hp : map p ≠ 0) (h : exploreMarking fuel map i j = .ok map') :
    map' p ≠ 0 := by
  induction fuel generalizing map i j map' with
  | zero => cases h
  | succ fuel ih =>
    by_cases hout : Outside m n i j
    · rw [exploreMarking, if_pos hout] at h
      rwa [← Except.ok.inj h]
    · obtain ⟨-, ⟨-, hsame⟩ | ⟨-, hcalls⟩⟩ := exploreMarking_inGrid hout h
      · rwa [hsame]
      · have hkeep : ∀ (map₁ : Grid m n) i j (map₂ : Grid m n), exploreMarking fuel map₁ i j = .ok map₂ →
            map₁ p ≠ 0 → map₂ p ≠ 0 := by
          intro map₁ i j map₂ hok hnonzero
          exact ih hnonzero hok
        refine (exploreNeighbors_calls hkeep ?_ hcalls).1
        by_cases hpi : p = (i, j)
        · rw [hpi, Function.update_self]
          decide
        · rwa [Function.update_of_ne hpi]

theorem nextTo_symm (h : q ∈ nextTo p) : p ∈ nextTo q := by
  simp only [nextTo, List.mem_cons, List.not_mem_nil, or_false] at h ⊢
  rcases h with rfl | rfl | rfl | rfl
  · simp
  · simp
  · simp
  · simp

/-- A call that ends has no land next to its cell, to which it would go and come back, and does not leave the
map. -/
theorem exploreMarking_ok (hgrid : InGrid m n p) (hp : map p ≠ 0)
    (h : exploreMarking fuel map p.1 p.2 = .ok map') :
    ∀ q ∈ nextTo p, Outside m n q.1 q.2 ∨ InGrid m n q ∧ map q = 0 := by
  induction fuel generalizing p map map' with
  | zero => cases h
  | succ fuel ih =>
    intro q hq
    by_cases hout : Outside m n q.1 q.2
    · exact .inl hout
    · obtain ⟨-, ⟨hzero, -⟩ | ⟨-, hcalls⟩⟩ := exploreMarking_inGrid hgrid.not_outside h
      · exact absurd hzero hp
      · have hkeep : ∀ (map₁ : Grid m n) i j (map₂ : Grid m n), exploreMarking fuel map₁ i j = .ok map₂ →
            (map₁ p ≠ 0 ∧ (map q ≠ 0 → map₁ q ≠ 0)) → map₂ p ≠ 0 ∧ (map q ≠ 0 → map₂ q ≠ 0) := by
          intro map₁ i j map₂ hok hinv
          exact ⟨exploreMarking_nonzero hinv.1 hok, fun hmap => exploreMarking_nonzero (hinv.2 hmap) hok⟩
        have hmarked : Function.update map p 2 p ≠ 0 := by
          rw [Function.update_self]
          decide
        have hother : map q ≠ 0 → Function.update map p 2 q ≠ 0 := by
          intro hmap
          by_cases hqp : q = p
          · rwa [hqp]
          · rwa [Function.update_of_ne hqp]
        obtain ⟨map₁, map₂, ⟨hp₁, hq₁⟩, hok⟩ :=
          (exploreNeighbors_calls hkeep ⟨hmarked, hother⟩ hcalls).2 q hq
        have hgrid' := inGrid_of_ok hout hok
        by_cases hmap : map q = 0
        · exact .inr ⟨hgrid', hmap⟩
        · rcases ih hgrid' (hq₁ hmap) hok p (nextTo_symm hq) with hback | hback
          · exact absurd hback hgrid.not_outside
          · exact absurd hback.2 hp₁

theorem exploreMarking_single (hgrid : InGrid m n (i, j)) (hp : map (i, j) ≠ 0)
    (haround : ∀ q ∈ nextTo (i, j), Outside m n q.1 q.2 ∨ InGrid m n q ∧ map q = 0) :
    exploreMarking 2 map i j = .ok (Function.update map (i, j) 2) := by
  have hcall : ∀ q ∈ nextTo (i, j),
      exploreMarking (m := m) (n := n) 1 (Function.update map (i, j) 2) q.1 q.2 =
        .ok (Function.update map (i, j) 2) := by
    intro q hq
    rw [exploreMarking]
    rcases haround q hq with hout | ⟨hgrid', hzero⟩
    · rw [if_pos hout]
      rfl
    · have hne : q ≠ (i, j) := by
        rintro rfl
        exact hp hzero
      rw [if_neg hgrid'.not_outside, read_ok hgrid', ok_bind, if_pos (by rwa [Function.update_of_ne hne])]
      rfl
  rw [exploreMarking, if_neg hgrid.not_outside, read_ok hgrid, ok_bind, if_neg hp, write_ok hgrid, ok_bind,
    exploreNeighbors_same hcall]

theorem island_single (haround : ∀ q ∈ nextTo p, InGrid m n q → map q = 0) (h : Island map p q) : q = p := by
  refine Reach.mem_of_closed (S := fun r => r = p) h rfl fun u hu v hv => ?_
  obtain ⟨hnext, hland⟩ := List.mem_filter.mp hv
  rw [hu] at hnext
  obtain ⟨hgrid, hone⟩ := of_decide_eq_true hland
  rw [haround v hnext hgrid] at hone
  cases hone

theorem outside_or_water_iff (hgrid : InGrid m n (i, j)) :
    (∀ q ∈ nextTo (i, j), Outside m n q.1 q.2 ∨ InGrid m n q ∧ map q = 0) ↔
      (i + 1 < m ∧ j + 1 < n) ∧ ∀ q ∈ nextTo (i, j), InGrid m n q → map q = 0 := by
  obtain ⟨⟨hi₀, him⟩, hj₀, hjn⟩ := hgrid
  constructor
  · intro h
    refine ⟨⟨?_, ?_⟩, fun q hq hgrid => ?_⟩
    · rcases h (i + 1, j) (by simp [nextTo]) with hout | hin
      · simp only [Outside] at hout
        omega
      · exact hin.1.1.2
    · rcases h (i, j + 1) (by simp [nextTo]) with hout | hin
      · simp only [Outside] at hout
        omega
      · exact hin.1.2.2
    · rcases h q hq with hout | hin
      · exact absurd hout hgrid.not_outside
      · exact hin.2
  · intro h q hq
    by_cases hout : Outside m n q.1 q.2
    · exact .inl hout
    · have hgrid' : InGrid m n q := by
        simp only [nextTo, List.mem_cons, List.not_mem_nil, or_false] at hq
        rw [Outside] at hout
        rcases hq with rfl | rfl | rfl | rfl
        all_goals
          simp only [InGrid] at hout ⊢
          omega
      exact .inr ⟨hgrid', h.2 q hq hgrid'⟩

/-- With the semicolon an island is marked if and only if it is a single cell, and neither in the last row nor
in the last column. -/
theorem marksIsland_exploreMarking_iff (hland : IsLand map (i, j)) :
    MarksIsland exploreMarking map i j ↔
      (i + 1 < m ∧ j + 1 < n) ∧ ∀ q ∈ nextTo (i, j), InGrid m n q → map q = 0 := by
  obtain ⟨hgrid, hone⟩ := hland
  have hp : map (i, j) ≠ 0 := by
    rw [hone]
    decide
  rw [← outside_or_water_iff hgrid]
  constructor
  · intro h
    obtain ⟨fuel, map', hok, -⟩ := h
    exact exploreMarking_ok hgrid hp hok
  · intro haround
    refine ⟨2, _, exploreMarking_single hgrid hp haround, fun p => ⟨fun hisland => ?_, fun hisland => ?_⟩⟩
    · rw [island_single ((outside_or_water_iff hgrid).mp haround).2 hisland, Function.update_self]
    · have hne : p ≠ (i, j) := by
        rintro rfl
        exact hisland (.refl _)
      rw [Function.update_of_ne hne]

end CodingForFun.Islands
