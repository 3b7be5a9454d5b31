import CodingForFun.Lib.Loop
import CodingForFun.Lib.Sequence
import Mathlib.Logic.Equiv.Fintype
import Mathlib.Order.WellFounded

/-!
# `reorder`

The function of `src/careercup/reorder.py`. Its second assignment is meant to exchange `b[i]` and `b[b[i]]`; but
when the second target is evaluated, `b[i]` has its new value, so another entry is written and `b` is no
permutation any more. In the places that are visited later there is then a closed part which the value that should
come to one of its places never enters (`Missed`). Two indexes that point to each other are left as they are, and
their values are exchanged a second time (`Returned`).
-/

namespace CodingForFun.Reorder

open Lib Sequence

variable {α : Type} {n : ℕ}

/-- The body of the loop, with `a` and `b`. -/
def reorderStep (i : ℤ) (s : List α × List ℤ) : Except PyError (List α × List ℤ) := do
  let (a, b) := s
  -- a[i],a[b[i]] = a[b[i]],a[i]
  let first ← index a (← index b i)
  let second ← index a i
  let a ← setItem a i first
  let a ← setItem a (← index b i) second
  -- b[i],b[b[i]] = b[b[i]], b[i]
  let first ← index b (← index b i)
  let second ← index b i
  let b ← setItem b i first
  let b ← setItem b (← index b i) second
  pure (a, b)

/-- `reorder`, with the lists it leaves. -/
def reorder (a : List α) (b : List ℤ) : Except PyError (List α × List ℤ) :=
  forUp 0 b.length reorderStep (a, b)

/-- The indexes `0, …, n - 1`. -/
def indexes (n : ℕ) : List ℤ := (List.range n).map fun i : ℕ => (i : ℤ)

/-- Afterwards `a[b[i]]` is the former `a[i]`, with the former `b`. -/
def Reordered (a : List α) (b : List ℤ) : Prop :=
  ∃ a' b', reorder a b = .ok (a', b') ∧
    ∀ i < a.length, (do index a' (← index b i)) = index a i

/-! ### The rounds -/

/-- The list of the indexes that a function has as its values. -/
def listed (g : Fin n → Fin n) : List ℤ := List.ofFn fun i => ((g i : ℕ) : ℤ)

/-- The entries after the second assignment. -/
def relinked (g : Fin n → Fin n) (i : Fin n) : Fin n → Fin n :=
  Function.update (Function.update g i (g (g i))) (g (g i)) (g i)

theorem index_listed (g : Fin n → Fin n) (i : Fin n) : index (listed g) i = .ok ((g i : ℕ) : ℤ) :=
  index_ofFn _ i

theorem setItem_listed (g : Fin n → Fin n) (i j : Fin n) :
    setItem (listed g) i ((j : ℕ) : ℤ) = .ok (listed (Function.update g i j)) := by
  rw [listed, setItem_ofFn, listed]
  congr 2
  funext k
  rw [Function.update_apply, Function.update_apply]
  split_ifs
  · rfl
  · rfl

theorem reorderStep_ok (f : Fin n → α) (g : Fin n → Fin n) (i : Fin n) :
    reorderStep i (List.ofFn f, listed g) = .ok (List.ofFn (f ∘ Equiv.swap i (g i)), listed (relinked g i)) := by
  have hswap : Function.update (Function.update f i (f (g i))) (g i) (f i) = f ∘ Equiv.swap i (g i) := by
    rw [Equiv.swap_comm, Equiv.comp_swap_eq_update]
  have hself : Function.update g i (g (g i)) i = g (g i) := Function.update_self ..
  rw [reorderStep]
  simp only [index_listed, index_ofFn, setItem_ofFn, setItem_listed, hself, ok_bind, pure_eq_ok]
  rw [hswap, relinked]

theorem reorder_rule (inv : ℕ → (Fin n → α) → (Fin n → Fin n) → Prop) {f : Fin n → α} {g : Fin n → Fin n}
    (hinv : inv 0 f g)
    (hround : ∀ (i : Fin n) f g, inv i f g → inv (i + 1) (f ∘ Equiv.swap i (g i)) (relinked g i)) :
    ∃ f' g', reorder (List.ofFn f) (listed g) = .ok (List.ofFn f', listed g') ∧ inv n f' g' := by
  have hlen : ((listed g).length : ℤ) = n := by
    rw [listed, List.length_ofFn]
  have hloop : ∃ s, forUp 0 (n : ℤ) reorderStep (List.ofFn f, listed g) = .ok s ∧
      ∃ f' g', s = (List.ofFn f', listed g') ∧ inv (n : ℤ).toNat f' g' := by
    apply forUp_ok reorderStep (fun i s => ∃ f' g', s = (List.ofFn f', listed g') ∧ inv i.toNat f' g')
    · exact Int.natCast_nonneg n
    · exact ⟨f, g, rfl, hinv⟩
    · intro i s hi₁ hi₂ hs
      obtain ⟨f', g', rfl, hinv'⟩ := hs
      lift i to ℕ using hi₁
      have hi : i < n := Int.ofNat_lt.mp hi₂
      exact ⟨_, reorderStep_ok f' g' ⟨i, hi⟩, _, _, rfl, hround ⟨i, hi⟩ f' g' hinv'⟩
  obtain ⟨s, hs, f', g', rfl, hinv'⟩ := hloop
  refine ⟨f', g', ?_, hinv'⟩
  rw [reorder, hlen, hs]

/-! ### Entries that are changed -/

theorem relinked_last (g : Fin n → Fin n) (i : Fin n) : relinked g i (g (g i)) = g i := Function.update_self ..

theorem relinked_self {g : Fin n → Fin n} {i : Fin n} (h : g (g i) ≠ i) : relinked g i i = g (g i) := by
  rw [relinked, Function.update_of_ne (fun heq => h heq.symm), Function.update_self]

theorem relinked_of_ne {g : Fin n → Fin n} {i j : Fin n} (hi : j ≠ i) (hlast : j ≠ g (g i)) :
    relinked g i j = g j := by
  rw [relinked, Function.update_of_ne hlast, Function.update_of_ne hi]

theorem relinked_of_back {g : Fin n → Fin n} {i : Fin n} (h : g (g i) = i) : relinked g i = g := by
  rw [relinked, h, Function.update_idem, Function.update_eq_self]

theorem relinked_mem {g : Fin n → Fin n} {i : Fin n} {O : Set (Fin n)} (hO : ∀ j ∈ O, g j ∈ O)
    (hi : i ∈ O → g (g i) ∈ O) (hlast : g (g i) ∈ O → g i ∈ O) : ∀ j ∈ O, relinked g i j ∈ O := by
  intro j hj
  by_cases hjlast : j = g (g i)
  · rw [hjlast] at hj ⊢
    rw [relinked_last]
    exact hlast hj
  · by_cases hji : j = i
    · subst hji
      rw [relinked_self (fun heq => hjlast heq.symm)]
      exact hi hj
    · rw [relinked_of_ne hji hjlast]
      exact hO j hj

/-! ### Values that are missed -/

/-- Before round `i` the value `e` is at a place that has been visited and that is not in a closed part in which
`x` is. -/
def Missed (x : Fin n) (e : α) (i : ℕ) (f : Fin n → α) (g : Fin n → Fin n) : Prop :=
  ∃ O : Set (Fin n), (∀ j ∈ O, g j ∈ O) ∧ x ∈ O ∧ ∃ p ∉ O, p < i ∧ f p = e

variable {f : Fin n → α} {g : Fin n → Fin n} {x y : Fin n} {e : α}

/-- The value at `p` stays there or comes to the place that is visited; in both places it must be outside. -/
theorem Missed.visit {i p : Fin n} {O : Set (Fin n)} (hO : ∀ j ∈ O, relinked g i j ∈ O) (hx : x ∈ O) (hpi : p < i)
    (hp : f p = e) (hstay : p ≠ g i → p ∉ O) (hmove : p = g i → i ∉ O) :
    Missed x e (i + 1) (f ∘ Equiv.swap i (g i)) (relinked g i) := by
  by_cases hpk : p = g i
  · refine ⟨O, hO, hx, i, hmove hpk, Nat.lt_succ_self _, ?_⟩
    rw [Function.comp_apply, Equiv.swap_apply_left, ← hpk, hp]
  · refine ⟨O, hO, hx, p, hstay hpk, Nat.lt_succ_of_lt hpi, ?_⟩
    rw [Function.comp_apply, Equiv.swap_apply_of_ne_of_ne hpi.ne hpk, hp]

theorem Missed.step {i : Fin n} (h : Missed x e i f g) :
    Missed x e (i + 1) (f ∘ Equiv.swap i (g i)) (relinked g i) := by
  obtain ⟨O, hO, hx, p, hpO, hpi, hp⟩ := h
  by_cases hi : i ∈ O
  · -- all that is changed is in the part, and the value is not
    have hgi := hO i hi
    apply Missed.visit (O := O) _ hx hpi hp
    · intro _
      exact hpO
    · intro heq
      rw [heq] at hpO
      exact absurd hgi hpO
    · exact relinked_mem hO (fun _ => hO _ hgi) (fun _ => hgi)
  · by_cases hjoin : g (g i) ∈ O ∧ g i ∉ O
    · -- the place `g i` joins the part, and the value leaves it if it is there
      obtain ⟨hlast, hgi⟩ := hjoin
      have hself : i ≠ g i := by
        intro heq
        rw [← heq, ← heq] at hlast
        exact hi hlast
      apply Missed.visit (O := insert (g i) O) _ (.inr hx) hpi hp
      · intro hpk hmem
        rcases hmem with heq | hmem
        · exact hpk heq
        · exact hpO hmem
      · intro _ hmem
        rcases hmem with heq | hmem
        · exact hself heq
        · exact hi hmem
      · apply relinked_mem
        · intro j hj
          rcases hj with rfl | hj
          · exact .inr hlast
          · exact .inr (hO j hj)
        · intro _
          exact .inr hlast
        · intro _
          exact .inl rfl
    · apply Missed.visit (O := O) _ hx hpi hp (fun _ => hpO) (fun _ => hi)
      apply relinked_mem hO
      · intro h
        exact absurd h hi
      · intro hlast
        by_contra hgi
        exact hjoin ⟨hlast, hgi⟩

/-- The places `x` and `y` point to each other and nothing else to them, and the value that should come to `x` is
there only until `y` is visited. -/
structure Returned (x y : Fin n) (e : α) (i : ℕ) (f : Fin n → α) (g : Fin n → Fin n) : Prop where
  there : g x = y
  back : g y = x
  closed : ∀ j, j ∉ ({x, y} : Set (Fin n)) → g j ∉ ({x, y} : Set (Fin n))
  place : f (if i ≤ y then x else y) = e

theorem Returned.step {i : Fin n} (hxy : x < y) (hxi : x < i) (h : Returned x y e i f g) :
    Returned x y e (i + 1) (f ∘ Equiv.swap i (g i)) (relinked g i) := by
  obtain ⟨hthere, hback, hclosed, hplace⟩ := h
  by_cases hiy : i = y
  · -- the values are exchanged again
    subst hiy
    have hself : g (g i) = i := by rw [hback, hthere]
    rw [relinked_of_back hself]
    refine ⟨hthere, hback, hclosed, ?_⟩
    rw [if_pos le_rfl] at hplace
    rw [if_neg (by omega), Function.comp_apply, Equiv.swap_apply_left, hback, hplace]
  · have hi : i ∉ ({x, y} : Set (Fin n)) := by
      intro hmem
      rcases hmem with heq | heq
      · exact hxi.ne heq.symm
      · exact hiy heq
    have hgi := hclosed i hi
    have hlast := hclosed (g i) hgi
    have hoff : ∀ j ∈ ({x, y} : Set (Fin n)), j ≠ i ∧ j ≠ g i ∧ j ≠ g (g i) := by
      intro j hj
      exact ⟨fun h => hi (h ▸ hj), fun h => hgi (h ▸ hj), fun h => hlast (h ▸ hj)⟩
    obtain ⟨hx₁, hx₂, hx₃⟩ := hoff x (.inl rfl)
    obtain ⟨hy₁, hy₂, hy₃⟩ := hoff y (.inr rfl)
    refine ⟨?_, ?_, ?_, ?_⟩
    · rwa [relinked_of_ne hx₁ hx₃]
    · rwa [relinked_of_ne hy₁ hy₃]
    · exact relinked_mem (O := {x, y}ᶜ) hclosed (fun _ => hlast) (fun _ => hgi)
    · have hsame : ((i : ℕ) + 1 ≤ y) ↔ (i : ℕ) ≤ y := by
        have hne : (i : ℕ) ≠ y := fun h => hiy (Fin.ext h)
        omega
      rw [if_congr hsame rfl rfl, ← hplace, Function.comp_apply]
      congr 1
      split_ifs
      · exact Equiv.swap_apply_of_ne_of_ne hx₁ hx₂
      · exact Equiv.swap_apply_of_ne_of_ne hy₁ hy₂

/-! ### Whole runs -/

theorem step_of_fixed {i : Fin n} (h : g i = i) : f ∘ Equiv.swap i (g i) = f ∧ relinked g i = g := by
  constructor
  · rw [h, Equiv.swap_self, Equiv.coe_refl, Function.comp_id]
  · apply relinked_of_back
    rw [h, h]

/-- The rule for the rounds from the first index on that does not point to itself. -/
theorem reorder_from (inv : ℕ → (Fin n → α) → (Fin n → Fin n) → Prop) {start : Fin n}
    (hfixed : ∀ j < start, g j = j)
    (hfirst : inv (start + 1) (f ∘ Equiv.swap start (g start)) (relinked g start))
    (hround : ∀ (i : Fin n) f g, start < i → inv i f g →
      inv (i + 1) (f ∘ Equiv.swap i (g i)) (relinked g i)) :
    ∃ f' g', reorder (List.ofFn f) (listed g) = .ok (List.ofFn f', listed g') ∧
      (∃ τ : Equiv.Perm (Fin n), f' = f ∘ τ) ∧ inv n f' g' := by
  obtain ⟨f', g', hrun, hperm, hend⟩ := reorder_rule
    (fun i f' g' => (∃ τ : Equiv.Perm (Fin n), f' = f ∘ τ) ∧
      (((i : ℕ) ≤ start → f' = f ∧ g' = g) ∧ ((start : ℕ) < i → inv i f' g')))
    (f := f) (g := g) ⟨⟨Equiv.refl _, rfl⟩, fun _ => ⟨rfl, rfl⟩, fun h => absurd h (Nat.not_lt_zero _)⟩ (by
      intro i f₁ g₁ hinv
      obtain ⟨⟨τ, hτ⟩, hbefore, hafter⟩ := hinv
      refine ⟨⟨(Equiv.swap i (g₁ i)).trans τ, ?_⟩, ?_, ?_⟩
      · rw [hτ]
        rfl
      · intro hi
        obtain ⟨rfl, rfl⟩ := hbefore (by omega)
        exact step_of_fixed (hfixed i (Fin.lt_def.mpr hi))
      · intro hi
        by_cases heq : start = i
        · subst heq
          obtain ⟨rfl, rfl⟩ := hbefore le_rfl
          exact hfirst
        · have hlt : start < i := by omega
          exact hround i f₁ g₁ hlt (hafter hlt))
  exact ⟨f', g', hrun, hperm, hend.2 start.isLt⟩

variable {start : Fin n}

theorem Returned.first (hg : Function.Injective g) (hback : g (g start) = start) (hlt : start < g start) :
    Returned start (g start) (f (g start)) (start + 1) (f ∘ Equiv.swap start (g start)) (relinked g start) := by
  rw [relinked_of_back hback]
  refine ⟨rfl, hback, ?_, ?_⟩
  · intro j hj hgj
    rcases hgj with heq | heq
    · exact hj (.inr (hg (heq.trans hback.symm)))
    · exact hj (.inl (hg heq))
  · rw [if_pos (Nat.succ_le_of_lt (Fin.lt_def.mp hlt)), Function.comp_apply, Equiv.swap_apply_left]

theorem Missed.first (hg : Function.Injective g) (hne : g start ≠ start) (hback : g (g start) ≠ start) :
    Missed (g (g start)) (f (g start)) (start + 1) (f ∘ Equiv.swap start (g start)) (relinked g start) := by
  have hloop : g start ≠ g (g start) := fun heq => hne (hg heq.symm)
  refine ⟨{g (g start), g start}, ?_, .inl rfl, start, ?_, Nat.lt_succ_self _, ?_⟩
  · intro j hj
    rcases hj with rfl | rfl
    · rw [relinked_last]
      exact .inr rfl
    · rw [relinked_of_ne hne hloop]
      exact .inl rfl
  · intro hmem
    rcases hmem with heq | heq
    · exact hback heq.symm
    · exact hne heq.symm
  · rw [Function.comp_apply, Equiv.swap_apply_left]

theorem exists_missed (hf : Function.Injective f) (hg : Function.Injective g) (hfixed : ∀ j < start, g j = j)
    (hne : g start ≠ start) :
    ∃ f' b', reorder (List.ofFn f) (listed g) = .ok (List.ofFn f', b') ∧ f' (g (g start)) ≠ f (g start) := by
  by_cases hback : g (g start) = start
  · -- two indexes that point to each other
    have hlt : start < g start := by
      by_contra hle
      have hself := hfixed (g start) (by omega)
      rw [hback] at hself
      exact hne hself.symm
    obtain ⟨f', g', hrun, ⟨τ, hτ⟩, hend⟩ := reorder_from (Returned start (g start) (f (g start))) hfixed
      (.first hg hback hlt) fun i f g hi h => h.step hlt hi
    refine ⟨f', _, hrun, ?_⟩
    have hplace := hend.place
    rw [if_neg (by omega)] at hplace
    intro heq
    rw [hback, ← hplace, hτ] at heq
    exact hne ((hf.comp τ.injective) heq).symm
  · obtain ⟨f', g', hrun, ⟨τ, hτ⟩, O, -, hx, p, hp, -, hplace⟩ :=
      reorder_from (Missed (g (g start)) (f (g start))) hfixed (.first hg hne hback) fun i f g _ h => h.step
    refine ⟨f', _, hrun, ?_⟩
    intro heq
    rw [← hplace, hτ] at heq
    rw [(hf.comp τ.injective) heq] at hx
    exact hp hx

/-! ### When the function is right -/

theorem indexes_eq_listed (n : ℕ) : indexes n = listed (id : Fin n → Fin n) := by
  apply List.ext_getElem
  · rw [indexes, listed, List.length_map, List.length_range, List.length_ofFn]
  · intro k hk hk'
    simp only [indexes, listed, List.getElem_map, List.getElem_range, List.getElem_ofFn, id_eq]

theorem exists_listed {b : List ℤ} (hb : b.Perm (indexes n)) :
    ∃ g : Fin n → Fin n, Function.Injective g ∧ b = listed g := by
  have hlen : b.length = n := by
    rw [hb.length_eq, indexes, List.length_map, List.length_range]
  have hvalue : ∀ i : Fin n, ∃ k : Fin n, ((k : ℕ) : ℤ) = b.get (i.cast hlen.symm) := by
    intro i
    obtain ⟨k, hk, heq⟩ := List.mem_map.mp (hb.mem_iff.mp (List.get_mem b (i.cast hlen.symm)))
    exact ⟨⟨k, List.mem_range.mp hk⟩, heq⟩
  choose g hg using hvalue
  have hlisted : b = listed g := by
    apply List.ext_getElem
    · rw [hlen, listed, List.length_ofFn]
    · intro k hk hk'
      rw [hlen] at hk
      have hentry : (listed g)[k] = ((g ⟨k, hk⟩ : ℕ) : ℤ) := List.getElem_ofFn ..
      rw [hentry, hg ⟨k, hk⟩]
      rfl
  refine ⟨g, ?_, hlisted⟩
  have hnodup : (listed g).Nodup := by
    rw [← hlisted, hb.nodup_iff]
    exact List.nodup_range.map fun _ _ h => Int.natCast_inj.mp h
  intro i j hij
  exact List.nodup_ofFn.mp hnodup (congrArg (fun k : Fin n => ((k : ℕ) : ℤ)) hij)

theorem reordered_ofFn_iff {f' : Fin n → α} {b' : List ℤ}
    (hrun : reorder (List.ofFn f) (listed g) = .ok (List.ofFn f', b')) :
    Reordered (List.ofFn f) (listed g) ↔ ∀ i, f' (g i) = f i := by
  have hplace : ∀ i : Fin n, (do index (List.ofFn f') (← index (listed g) i)) = index (List.ofFn f) i ↔
      f' (g i) = f i := by
    intro i
    rw [index_listed, ok_bind, index_ofFn, index_ofFn, Except.ok.injEq]
  constructor
  · intro h i
    obtain ⟨a', b₁, hrun', hall⟩ := h
    rw [hrun] at hrun'
    obtain ⟨rfl, -⟩ := Prod.mk.inj (Except.ok.inj hrun')
    rw [← hplace]
    exact hall i (by rw [List.length_ofFn]; exact i.isLt)
  · intro h
    refine ⟨_, _, hrun, ?_⟩
    intro i hi
    rw [List.length_ofFn] at hi
    exact (hplace ⟨i, hi⟩).mpr (h ⟨i, hi⟩)

theorem reordered_indexes (f : Fin n → α) : Reordered (List.ofFn f) (indexes n) := by
  rw [indexes_eq_listed]
  obtain ⟨f', g', hrun, rfl, rfl⟩ := reorder_rule (fun _ f' g' => f' = f ∧ g' = id) ⟨rfl, rfl⟩
    (fun i f₁ g₁ h => by
      obtain ⟨rfl, rfl⟩ := h
      exact step_of_fixed rfl)
  exact (reordered_ofFn_iff hrun).mpr fun _ => rfl

theorem not_reordered (hf : Function.Injective f) (hg : Function.Injective g) (hne : g ≠ id) :
    ¬Reordered (List.ofFn f) (listed g) := by
  obtain ⟨i, hi⟩ := Function.ne_iff.mp hne
  obtain ⟨start, hstart, hmin⟩ := wellFounded_lt.has_min {j | g j ≠ j} ⟨i, hi⟩
  have hfixed : ∀ j < start, g j = j := by
    intro j hj
    by_contra hmem
    exact hmin j hmem hj
  obtain ⟨f', b', hrun, hmissed⟩ := exists_missed hf hg hfixed hstart
  rw [reordered_ofFn_iff hrun]
  intro hall
  exact hmissed (hall (g start))

/-- Only for the identity does the function reorder every list; for another permutation it is wrong on every list
without repetitions. -/
theorem reordered_iff {b : List ℤ} (hb : b.Perm (indexes n)) :
    ((∀ (α : Type) (a : List α), a.length = n → Reordered a b) ↔ b = indexes n) ∧
      ∀ (α : Type) (a : List α), a.length = n → a.Nodup → (Reordered a b ↔ b = indexes n) := by
  obtain ⟨g, hg, rfl⟩ := exists_listed hb
  have hright : ∀ (α : Type) (a : List α), a.length = n → listed g = indexes n → Reordered a (listed g) := by
    intro α a hlen heq
    subst hlen
    have h := reordered_indexes a.get
    rwa [List.ofFn_get, ← heq] at h
  have hwrong : ∀ (α : Type) (a : List α), a.length = n → a.Nodup → Reordered a (listed g) →
      listed g = indexes n := by
    intro α a hlen hnodup h
    subst hlen
    by_contra hne
    have hnot := not_reordered (List.nodup_iff_injective_get.mp hnodup) hg fun hid => hne (by
      rw [hid, indexes_eq_listed])
    rw [List.ofFn_get] at hnot
    exact hnot h
  refine ⟨⟨?_, ?_⟩, ?_⟩
  · intro h
    have hlen : (List.range n).length = n := List.length_range
    exact hwrong ℕ (List.range n) hlen List.nodup_range (h ℕ _ hlen)
  · intro heq α a hlen
    exact hright α a hlen heq
  · intro α a hlen hnodup
    exact ⟨hwrong α a hlen hnodup, hright α a hlen⟩

theorem reordered_iff_swap : ¬Reordered ['C', 'D'] [1, 0] := by
  intro h
  have hidentity := ((reordered_iff (n := 2) (b := [1, 0]) (by decide)).2 Char ['C', 'D'] rfl (by decide)).mp h
  revert hidentity
  decide

/-- The example of the comment, for which `D`, `F`, `G`, `C`, `E` is expected. -/
theorem not_reordered_example : ¬Reordered ['C', 'D', 'E', 'F', 'G'] [3, 0, 4, 1, 2] := by
  intro h
  obtain ⟨a', b', hrun, hall⟩ := h
  have hresult : (reorder ['C', 'D', 'E', 'F', 'G'] [3, 0, 4, 1, 2]).map Prod.fst =
      .ok ['F', 'D', 'E', 'C', 'G'] := by
    decide
  rw [hrun] at hresult
  have hlist : a' = ['F', 'D', 'E', 'C', 'G'] := Except.ok.inj hresult
  have hplace := hall 1 (by decide)
  rw [hlist] at hplace
  revert hplace
  decide

end CodingForFun.Reorder
