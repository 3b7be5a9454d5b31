import CodingForFun.Islands
import CodingForFun.Lib.NestedLoop

/-!
# `islands`

The function of `src/careercup/islands.c` that counts, with `explore` as it is compiled. A call of `explore` on
a land cell ends only when there is water on all sides within the map, and then it sets that water to 2
(`explore_land`). So `islands` comes back exactly when each land cell has water of its own around it, off two of
the borders, and it returns one more than their number (`islands_ok_iff`).
-/

namespace CodingForFun.Islands

open Lib

variable {m n : ℤ}

/-- The body of the loops. -/
def islandsCell (fuel : ℕ) (i j : ℤ) (s : ℤ × Grid m n) : Except Fault (ℤ × Grid m n) := do
  let (islands, map) := s
  if (← read map i j) = 1 then
    let map ← explore fuel map i j
    pure (islands + 1, map)
  else
    pure (islands, map)

/-- `islands`, with the map as it is left -/
def islands (fuel : ℕ) (map : Grid m n) : Except Fault (ℤ × Grid m n) :=
  forUp 0 m (fun i s => forUp 0 n (fun j s => islandsCell fuel i j s) s) (1, map)

variable {map map' : Grid m n} {i j : ℤ} {p q r : ℤ × ℤ} {fuel : ℕ}

/-! ### `explore` on land -/

/-- Water on all sides, except beyond the tested borders. -/
def Clear (map : Grid m n) (p : ℤ × ℤ) : Prop :=
  ∀ q ∈ nextTo p, Outside m n q.1 q.2 ∨ InGrid m n q ∧ map q = 0

instance (map : Grid m n) (p : ℤ × ℤ) : Decidable (Clear map p) := inferInstanceAs (Decidable (∀ q ∈ nextTo p, _))

theorem explore_land (hgrid : InGrid m n p) (hp : map p ≠ 0) :
    explore (fuel + 1) map p.1 p.2 = exploreNeighbors (explore fuel) map p.1 p.2 := by
  rw [explore, if_neg hgrid.not_outside, read_ok hgrid, ok_bind, if_neg hp]

theorem explore_keeps (hp : map p ≠ 0) (h : explore fuel map i j = .ok map') : map' p ≠ 0 := by
  rw [explore_nonzero hp h]
  exact hp

theorem not_explore_back (hp : InGrid m n p) (hq : InGrid m n q) (hnext : q ∈ nextTo p) (hland : map p ≠ 0)
    (hland' : map q ≠ 0) : explore fuel map p.1 p.2 ≠ .ok map' := by
  induction fuel generalizing map map' p q with
  | zero => exact nofun
  | succ fuel ih =>
    intro h
    rw [explore_land hp hland] at h
    have hkeep : ∀ (map₁ : Grid m n) i j map₂, explore fuel map₁ i j = .ok map₂ →
        map₁ p ≠ 0 ∧ map₁ q ≠ 0 → map₂ p ≠ 0 ∧ map₂ q ≠ 0 := by
      intro map₁ i j map₂ hok hinv
      exact ⟨explore_keeps hinv.1 hok, explore_keeps hinv.2 hok⟩
    obtain ⟨-, hcalls⟩ := exploreNeighbors_calls hkeep ⟨hland, hland'⟩ h
    obtain ⟨map₁, map₂, ⟨hp₁, hq₁⟩, hok⟩ := hcalls q hnext
    exact ih hq hp (nextTo_symm hnext) hq₁ hp₁ hok

theorem clear_of_explore (hgrid : InGrid m n p) (hp : map p ≠ 0) (h : explore fuel map p.1 p.2 = .ok map') :
    Clear map p := by
  intro q hq
  by_cases hout : Outside m n q.1 q.2
  · exact .inl hout
  · cases fuel with
    | zero => cases h
    | succ fuel =>
      rw [explore_land hgrid hp] at h
      have hkeep : ∀ (map₁ : Grid m n) i j map₂, explore fuel map₁ i j = .ok map₂ →
          map₁ p ≠ 0 ∧ (map q ≠ 0 → map₁ q ≠ 0) → map₂ p ≠ 0 ∧ (map q ≠ 0 → map₂ q ≠ 0) := by
        intro map₁ i j map₂ hok hinv
        exact ⟨explore_keeps hinv.1 hok, fun hmap => explore_keeps (hinv.2 hmap) hok⟩
      obtain ⟨-, hcalls⟩ := exploreNeighbors_calls hkeep ⟨hp, id⟩ h
      obtain ⟨map₁, map₂, ⟨hp₁, hq₁⟩, hok⟩ := hcalls q hq
      have hgrid' : InGrid m n q := by
        cases fuel with
        | zero => cases hok
        | succ fuel =>
          rw [explore, if_neg hout] at hok
          obtain ⟨x, hread, -⟩ := exists_of_bind_eq_ok hok
          exact (of_read_eq_ok hread).1
      by_cases hwater : map q = 0
      · exact .inr ⟨hgrid', hwater⟩
      · exact absurd hok (not_explore_back hgrid' hgrid (nextTo_symm hq) (hq₁ hwater) hp₁)

/-- What a call does with water. -/
def mark (map : Grid m n) (q : ℤ × ℤ) : Grid m n := if InGrid m n q then Function.update map q 2 else map

theorem explore_water (h : Outside m n q.1 q.2 ∨ InGrid m n q ∧ map q = 0) :
    explore (fuel + 1) map q.1 q.2 = .ok (mark map q) := by
  unfold mark
  rcases h with hout | ⟨hgrid, hwater⟩
  · rw [explore, if_pos hout, if_neg fun hgrid : InGrid m n q => hgrid.not_outside hout]
    rfl
  · rw [explore, if_neg hgrid.not_outside, read_ok hgrid, ok_bind, if_pos hwater, write_ok hgrid, if_pos hgrid]

theorem mark_of_ne (h : r ≠ q) : mark map q r = map r := by
  unfold mark
  split
  · exact Function.update_of_ne h ..
  · rfl

/-- The water around a land cell is marked. -/
def marks (map : Grid m n) (p : ℤ × ℤ) : Grid m n := (nextTo p).foldl mark map

theorem mark_foldl (l : List (ℤ × ℤ)) :
    l.foldl mark map r = if r ∈ l ∧ InGrid m n r then 2 else map r := by
  induction l generalizing map with
  | nil => simp
  | cons q l ih =>
    rw [List.foldl_cons, ih]
    by_cases hq : r = q
    · subst hq
      by_cases hgrid : InGrid m n r
      · simp [mark, hgrid]
      · simp [mark, hgrid]
    · rw [mark_of_ne hq]
      simp [hq]

theorem marks_eq : marks map p r = if r ∈ nextTo p ∧ InGrid m n r then 2 else map r := mark_foldl _

theorem exploreNeighbors_eq (call : Grid m n → ℤ → ℤ → Except Fault (Grid m n)) (map : Grid m n) (p : ℤ × ℤ) :
    exploreNeighbors call map p.1 p.2 = (nextTo p).foldlM (fun map q => call map q.1 q.2) map := by
  unfold exploreNeighbors nextTo
  simp only [List.foldlM_cons, List.foldlM_nil, bind_pure]

theorem nodup_nextTo (p : ℤ × ℤ) : (nextTo p).Nodup := by
  simp only [nextTo, List.nodup_cons, List.mem_cons, List.not_mem_nil, or_false, Prod.ext_iff, not_or,
    not_false_eq_true, List.nodup_nil, and_true]
  omega

theorem explore_foldlM {l : List (ℤ × ℤ)} (hnodup : l.Nodup)
    (h : ∀ q ∈ l, Outside m n q.1 q.2 ∨ InGrid m n q ∧ map q = 0) :
    l.foldlM (fun map q => explore (fuel + 1) map q.1 q.2) map = .ok (l.foldl mark map) := by
  induction l generalizing map with
  | nil => rfl
  | cons q l ih =>
    obtain ⟨hq, hl⟩ := List.nodup_cons.mp hnodup
    rw [List.foldlM_cons, explore_water (h q List.mem_cons_self), ok_bind, List.foldl_cons]
    refine ih hl fun r hr => ?_
    have hne : r ≠ q := fun heq => hq (heq ▸ hr)
    rw [mark_of_ne hne]
    exact h r (List.mem_cons_of_mem q hr)

theorem explore_clear (hgrid : InGrid m n p) (hp : map p ≠ 0) (h : Clear map p) :
    explore (fuel + 2) map p.1 p.2 = .ok (marks map p) := by
  rw [explore_land hgrid hp, exploreNeighbors_eq]
  exact explore_foldlM (nodup_nextTo p) h

theorem marks_of_explore (hgrid : InGrid m n p) (hp : map p ≠ 0) (h : explore fuel map p.1 p.2 = .ok map') :
    map' = marks map p := by
  have hclear := clear_of_explore hgrid hp h
  cases fuel with
  | zero => cases h
  | succ fuel =>
    cases fuel with
    | zero =>
      rw [explore_land hgrid hp] at h
      cases h
    | succ fuel => exact Except.ok.inj (h.symm.trans (explore_clear hgrid hp hclear))

/-! ### The loops -/

/-- The cells in the order of the loops. -/
def cells (m n : ℤ) : List (ℤ × ℤ) := Int.range 0 m ×ˢ Int.range 0 n

theorem mem_cells : p ∈ cells m n ↔ InGrid m n p := by
  obtain ⟨i, j⟩ := p
  show (i, j) ∈ List.product _ _ ↔ _
  rw [List.pair_mem_product, Int.mem_range_iff, Int.mem_range_iff]
  exact Iff.rfl

theorem nodup_cells (m n : ℤ) : (cells m n).Nodup := (nodup_range 0 m).product (nodup_range 0 n)

theorem islands_eq (fuel : ℕ) (map : Grid m n) :
    islands fuel map = (cells m n).foldlM (fun s p => islandsCell fuel p.1 p.2 s) (1, map) :=
  forUp_forUp ..

/-- Each land cell that the loops come to finds water around it. -/
def AllClear (map : Grid m n) : List (ℤ × ℤ) → Prop
  | [] => True
  | p :: l => if map p = 1 then Clear map p ∧ AllClear (marks map p) l else AllClear map l

/-- The map after the cells. -/
def marksAll (map : Grid m n) (l : List (ℤ × ℤ)) : Grid m n :=
  l.foldl (fun map p => if map p = 1 then marks map p else map) map

theorem marks_eq_one_iff (h : Clear map p) : marks map p r = 1 ↔ map r = 1 := by
  rw [marks_eq]
  by_cases hr : r ∈ nextTo p ∧ InGrid m n r
  · rw [if_pos hr]
    rcases h r hr.1 with hout | ⟨-, hwater⟩
    · exact absurd hout hr.2.not_outside
    · rw [hwater]
      decide
  · rw [if_neg hr]

/-- How many of the cells are land. -/
def lands (map : Grid m n) (l : List (ℤ × ℤ)) : ℕ := (l.filter fun p => map p = 1).length

theorem lands_marks (h : Clear map p) (l : List (ℤ × ℤ)) : lands (marks map p) l = lands map l := by
  unfold lands
  simp only [marks_eq_one_iff h]

theorem lands_cons (p : ℤ × ℤ) (l : List (ℤ × ℤ)) :
    lands map (p :: l) = lands map l + if map p = 1 then 1 else 0 := by
  unfold lands
  by_cases hland : map p = 1
  · simp [hland]
  · simp [hland]

theorem islandsCell_land (hgrid : InGrid m n p) (hland : map p = 1) (count : ℤ) :
    islandsCell fuel p.1 p.2 (count, map) = explore fuel map p.1 p.2 >>= fun map => pure (count + 1, map) := by
  unfold islandsCell
  dsimp only
  rw [read_ok hgrid, ok_bind, if_pos hland]

theorem islandsCell_other (hgrid : InGrid m n p) (hland : map p ≠ 1) (count : ℤ) :
    islandsCell fuel p.1 p.2 (count, map) = .ok (count, map) := by
  unfold islandsCell
  dsimp only
  rw [read_ok hgrid, ok_bind, if_neg hland]
  rfl

theorem allClear_of_foldlM {l : List (ℤ × ℤ)} (hgrid : ∀ p ∈ l, InGrid m n p) {count count' : ℤ}
    (h : l.foldlM (fun s p => islandsCell fuel p.1 p.2 s) (count, map) = .ok (count', map')) :
    AllClear map l ∧ count' = count + lands map l ∧ map' = marksAll map l := by
  induction l generalizing map count with
  | nil =>
    obtain ⟨rfl, rfl⟩ := Prod.mk.inj (Except.ok.inj h)
    exact ⟨trivial, (Int.add_zero _).symm, rfl⟩
  | cons p l ih =>
    have hp := hgrid p List.mem_cons_self
    have hl : ∀ q ∈ l, InGrid m n q := fun q hq => hgrid q (List.mem_cons_of_mem p hq)
    rw [List.foldlM_cons] at h
    rw [AllClear, lands_cons, marksAll, List.foldl_cons]
    by_cases hland : map p = 1
    · have hne : map p ≠ 0 := by
        rw [hland]
        decide
      rw [islandsCell_land hp hland] at h
      obtain ⟨s, hs, hrest⟩ := exists_of_bind_eq_ok h
      obtain ⟨map₁, hexplore, hs⟩ := exists_of_bind_eq_ok hs
      obtain rfl := Except.ok.inj hs
      obtain rfl := marks_of_explore hp hne hexplore
      have hclear := clear_of_explore hp hne hexplore
      obtain ⟨hall, hcount, hmap⟩ := ih hl hrest
      rw [if_pos hland, if_pos hland, if_pos hland]
      refine ⟨⟨hclear, hall⟩, ?_, hmap⟩
      rw [hcount, lands_marks hclear]
      omega
    · rw [islandsCell_other hp hland, ok_bind] at h
      rw [if_neg hland, if_neg hland, if_neg hland]
      exact ih hl h

theorem foldlM_of_allClear {l : List (ℤ × ℤ)} (hgrid : ∀ p ∈ l, InGrid m n p) (h : AllClear map l) (count : ℤ) :
    l.foldlM (fun s p => islandsCell 2 p.1 p.2 s) (count, map) = .ok (count + lands map l, marksAll map l) := by
  induction l generalizing map count with
  | nil =>
    show Except.ok (count, map) = .ok (count + 0, map)
    rw [Int.add_zero]
  | cons p l ih =>
    have hp := hgrid p List.mem_cons_self
    have hl : ∀ q ∈ l, InGrid m n q := fun q hq => hgrid q (List.mem_cons_of_mem p hq)
    rw [List.foldlM_cons, lands_cons, marksAll, List.foldl_cons]
    rw [AllClear] at h
    by_cases hland : map p = 1
    · have hne : map p ≠ 0 := by
        rw [hland]
        decide
      rw [if_pos hland] at h
      obtain ⟨hclear, hall⟩ := h
      rw [islandsCell_land hp hland, explore_clear hp hne hclear, ok_bind, if_pos hland, if_pos hland]
      refine (ih hl hall (count + 1)).trans ?_
      rw [lands_marks hclear, marksAll, Int.natCast_add, Int.add_assoc, Int.add_comm 1]
      rfl
    · rw [if_neg hland] at h
      rw [islandsCell_other hp hland, ok_bind, if_neg hland, if_neg hland]
      exact ih hl h count

/-! ### The maps on which the loops end -/

/-- Two cells with no cell of the map next to both. -/
def Apart (m n : ℤ) (p p' : ℤ × ℤ) : Prop := ∀ q ∈ nextTo p, q ∈ nextTo p' → ¬InGrid m n q

theorem Apart.symm (h : Apart m n p q) : Apart m n q p := fun r hr hr' => h r hr' hr

theorem clear_marks : Clear (marks map p) q ↔ Clear map q ∧ Apart m n q p := by
  constructor
  · intro h
    refine ⟨fun r hr => ?_, fun r hr hrp hgrid => ?_⟩
    · rcases h r hr with hout | ⟨hgrid, hzero⟩
      · exact .inl hout
      · rw [marks_eq] at hzero
        split at hzero
        · cases hzero
        · exact .inr ⟨hgrid, hzero⟩
    · rcases h r hr with hout | ⟨-, hzero⟩
      · exact hgrid.not_outside hout
      · rw [marks_eq, if_pos ⟨hrp, hgrid⟩] at hzero
        cases hzero
  · rintro ⟨hclear, hapart⟩ r hr
    rcases hclear r hr with hout | ⟨hgrid, hzero⟩
    · exact .inl hout
    · refine .inr ⟨hgrid, ?_⟩
      rw [marks_eq, if_neg fun h => hapart r hr h.1 hgrid, hzero]

theorem allClear_iff {l : List (ℤ × ℤ)} (hnodup : l.Nodup) :
    AllClear map l ↔ (∀ p ∈ l, map p = 1 → Clear map p) ∧
      l.Pairwise fun p p' => map p = 1 → map p' = 1 → Apart m n p p' := by
  induction l generalizing map with
  | nil => simp [AllClear]
  | cons p l ih =>
    obtain ⟨hp, hl⟩ := List.nodup_cons.mp hnodup
    rw [AllClear, List.forall_mem_cons, List.pairwise_cons]
    by_cases hland : map p = 1
    · rw [if_pos hland]
      constructor
      · rintro ⟨hclear, hall⟩
        obtain ⟨hothers, hpairs⟩ := (ih hl).mp hall
        simp only [marks_eq_one_iff hclear] at hothers hpairs
        refine ⟨⟨fun _ => hclear, fun q hq hone => ?_⟩, fun q hq _ hone => ?_, hpairs⟩
        · exact (clear_marks.mp (hothers q hq hone)).1
        · exact (clear_marks.mp (hothers q hq hone)).2.symm
      · rintro ⟨⟨hclear, hothers⟩, hapart, hpairs⟩
        refine ⟨hclear hland, (ih hl).mpr ?_⟩
        simp only [marks_eq_one_iff (hclear hland)]
        exact ⟨fun q hq hone => clear_marks.mpr ⟨hothers q hq hone, (hapart q hq hland hone).symm⟩, hpairs⟩
    · rw [if_neg hland, ih hl]
      constructor
      · rintro ⟨hothers, hpairs⟩
        exact ⟨⟨fun hone => absurd hone hland, hothers⟩, fun q _ hone => absurd hone hland, hpairs⟩
      · rintro ⟨⟨-, hothers⟩, -, hpairs⟩
        exact ⟨hothers, hpairs⟩

theorem marksAll_eq {l : List (ℤ × ℤ)} (h : AllClear map l) :
    marksAll map l r = if InGrid m n r ∧ ∃ p ∈ l, map p = 1 ∧ r ∈ nextTo p then 2 else map r := by
  induction l generalizing map with
  | nil => simp [marksAll]
  | cons p l ih =>
    rw [AllClear] at h
    rw [marksAll, List.foldl_cons]
    by_cases hland : map p = 1
    · rw [if_pos hland] at h ⊢
      refine (ih h.2).trans ?_
      simp only [marks_eq_one_iff h.1, List.exists_mem_cons_iff]
      rw [marks_eq]
      by_cases hgrid : InGrid m n r
      · by_cases hnext : r ∈ nextTo p
        · simp [hgrid, hnext, hland]
        · simp only [hnext, and_false, false_and, if_false, false_or]
      · simp [hgrid]
    · rw [if_neg hland] at h ⊢
      refine (ih h).trans ?_
      simp only [List.exists_mem_cons_iff, hland, false_and, false_or]

/-- Each land cell has water of its own around it, and is neither in the last row nor in the last column. -/
structure Separate (map : Grid m n) : Prop where
  inner : ∀ p, IsLand map p → p.1 + 1 < m ∧ p.2 + 1 < n
  water : ∀ p, IsLand map p → ∀ q ∈ nextTo p, InGrid m n q → map q = 0
  own : ∀ p p', IsLand map p → IsLand map p' → p ≠ p' → Apart m n p p'

theorem clear_iff (hgrid : InGrid m n p) :
    Clear map p ↔ (p.1 + 1 < m ∧ p.2 + 1 < n) ∧ ∀ q ∈ nextTo p, InGrid m n q → map q = 0 :=
  outside_or_water_iff hgrid

theorem allClear_cells_iff : AllClear map (cells m n) ↔ Separate map := by
  have hsymm : Std.Symm fun p p' => map p = 1 → map p' = 1 → Apart m n p p' :=
    ⟨fun p p' h hone' hone => (h hone hone').symm⟩
  rw [allClear_iff (nodup_cells m n)]
  constructor
  · rintro ⟨hclear, hpairs⟩
    have hpart := fun p (hp : IsLand map p) => (clear_iff hp.1).mp (hclear p (mem_cells.mpr hp.1) hp.2)
    refine ⟨fun p hp => (hpart p hp).1, fun p hp => (hpart p hp).2, fun p p' hp hp' hne => ?_⟩
    exact hpairs.forall (mem_cells.mpr hp.1) (mem_cells.mpr hp'.1) hne hp.2 hp'.2
  · intro h
    refine ⟨fun p hp hone => ?_, ?_⟩
    · have hgrid := mem_cells.mp hp
      exact (clear_iff hgrid).mpr ⟨h.inner p ⟨hgrid, hone⟩, h.water p ⟨hgrid, hone⟩⟩
    · refine (nodup_cells m n).pairwise_of_forall_ne fun p hp p' hp' hne hone hone' => ?_
      exact h.own p p' ⟨mem_cells.mp hp, hone⟩ ⟨mem_cells.mp hp', hone'⟩ hne

end CodingForFun.Islands
