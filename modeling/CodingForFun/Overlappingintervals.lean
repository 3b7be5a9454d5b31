import CodingForFun.Lib.Intervals
import CodingForFun.Lib.Sequence
import Mathlib.Data.Int.Range

/-!
# `overlappingintervals`

The functions of `src/careercup/overlappingintervals.py`. An interval of the second one is an object of which
only references are in the lists, so that the write to `previous[1]` is seen through all of them. The loop
starts with the first interval merged already; at every time the merged intervals are apart and cover what the
intervals up to `current` have covered (`Merging`).
-/

namespace CodingForFun.Overlappingintervals

open Lib Sequence

/-- `for i in range(interval[0], interval[1]): bigdict[i] = True` -/
def countInterval (bigdict : Dict ℤ Bool) (interval : ℤ × ℤ) : Dict ℤ Bool :=
  bigdict.fill (Int.range interval.1 interval.2) fun _ => true

def overlappingintervals (intervals : List (ℤ × ℤ)) : ℕ := (intervals.foldl countInterval ∅).keys.length

/-- The two values of every interval. -/
abbrev Objects := ℕ → ℤ × ℤ

/-- The intervals and `merged`. -/
structure State where
  objects : Objects
  merged : List ℕ

/-- The body of the loop. -/
def mergeStep (s : State) (current : ℕ) : Except PyError State := do
  let previous ← index s.merged (-1)
  let ⟨start, stop⟩ := s.objects previous
  if (s.objects current).1 ≤ stop then
    pure { s with objects := Function.update s.objects previous (start, max stop (s.objects current).2) }
  else
    pure { s with merged := s.merged ++ [current] }

/-- `overlappingintervals2`, with what is in the end in `merged`. -/
def overlappingintervals2 (objects : Objects) (tempTuple : List ℕ) : Except PyError State := do
  let tempTuple := tempTuple.mergeSort fun r r' => (objects r).1 ≤ (objects r').1
  let first ← index tempTuple 0
  tempTuple.foldlM mergeStep ⟨objects, [first]⟩

/-! ### Counting point by point -/

theorem tabulates_countInterval {bigdict : Dict ℤ Bool} {Vs : Finset ℤ}
    (h : bigdict.Tabulates Vs fun _ => true) (interval : ℤ × ℤ) :
    (countInterval bigdict interval).Tabulates (Vs ∪ covered [interval]) fun _ => true := by
  rw [covered_singleton]
  have hfill := h.fill (Int.range interval.1 interval.2) fun _ => true
  exact hfill.congr fun k _ => ite_self true

theorem overlappingintervals_eq (intervals : List (ℤ × ℤ)) :
    overlappingintervals intervals = (covered intervals).card := by
  have htable : (intervals.foldl countInterval ∅).Tabulates (covered intervals) fun _ => true := by
    refine foldl_ok (fun done bigdict => Dict.Tabulates bigdict (covered done) fun _ => true) intervals
      (Dict.tabulates_empty _) fun done interval rest bigdict _ h => ?_
    rw [covered_append]
    exact tabulates_countInterval h interval
  exact htable.length_keys

/-! ### Merging -/

variable {objects now : Objects} {done merged : List ℕ} {first current last : ℕ}

/-- The intervals up to some place have been merged, with those of `done`; `first` was there from the
start. -/
structure Merging (objects : Objects) (first : ℕ) (done : List ℕ) (now : Objects) (merged : List ℕ) :
    Prop where
  start : ∀ r, (now r).1 = (objects r).1
  stop : ∀ r, (objects r).2 ≤ (now r).2
  same : ∀ r, r ∉ merged → now r = objects r
  nonempty : merged ≠ []
  known : ∀ r ∈ merged, r ∈ first :: done
  apart : Apart (merged.map now)
  covers : covered (merged.map now) = covered ((first :: done).map objects)

theorem covered_map_concat (objects : Objects) (l : List ℕ) (r : ℕ) :
    covered ((l ++ [r]).map objects) = covered (l.map objects) ∪ covered [objects r] := by
  rw [List.map_append, covered_append, List.map_singleton]

theorem Merging.covers_current (h : Merging objects first done now merged) (current : ℕ) :
    covered (merged.map now) ∪ covered [now current] =
      covered ((first :: (done ++ [current])).map objects) := by
  rw [← List.cons_append, covered_map_concat, ← h.covers]
  by_cases hmem : current ∈ merged
  · have hgrown : covered [objects current] ⊆ covered [now current] := by
      intro x hx
      have hstart := h.start current
      have hstop := h.stop current
      rw [mem_covered_singleton] at hx ⊢
      omega
    have hsub : covered [now current] ⊆ covered (merged.map now) := by
      intro x hx
      exact mem_covered.mpr ⟨_, List.mem_map_of_mem hmem, mem_covered_singleton.mp hx⟩
    rw [Finset.union_eq_left.mpr hsub, Finset.union_eq_left.mpr (hgrown.trans hsub)]
  · rw [h.same current hmem]

theorem Merging.known_concat (h : Merging objects first done now merged) (current : ℕ) :
    ∀ r ∈ merged, r ∈ first :: (done ++ [current]) := by
  intro r hr
  rw [← List.cons_append]
  exact List.mem_append_left _ (h.known r hr)

theorem Merging.meet (h : Merging objects first done now merged) {front : List ℕ}
    (hmerged : merged = front ++ [last]) (hle : (objects last).1 ≤ (objects current).1)
    (hmeet : (now current).1 ≤ (now last).2) :
    Merging objects first (done ++ [current])
      (Function.update now last ((now last).1, max (now last).2 (now current).2)) merged := by
  have hapart := h.apart
  rw [hmerged, List.map_append, List.map_singleton] at hapart
  have hlast : ∀ r ∈ front, r ≠ last := by
    rintro r hr rfl
    have hlt := hapart.lt_last _ (List.mem_map_of_mem hr)
    have hproper := hapart.proper _ (List.mem_append_left _ (List.mem_map_of_mem hr))
    omega
  have hmap : merged.map (Function.update now last
      ((now last).1, max (now last).2 (now current).2)) =
        front.map now ++ [((now last).1, max (now last).2 (now current).2)] := by
    rw [hmerged, List.map_append, List.map_singleton, Function.update_self]
    congr 1
    apply List.map_congr_left
    intro r hr
    rw [Function.update_of_ne (hlast r hr)]
  refine ⟨fun r => ?_, fun r => ?_, fun r hr => ?_, h.nonempty, h.known_concat current, ?_, ?_⟩
  · by_cases hr : r = last
    · rw [hr, Function.update_self, h.start]
    · rw [Function.update_of_ne hr, h.start]
  · by_cases hr : r = last
    · rw [hr, Function.update_self]
      exact (h.stop last).trans (le_max_left _ _)
    · rw [Function.update_of_ne hr]
      exact h.stop r
  · have hne : r ≠ last := by
      rintro rfl
      exact hr (by rw [hmerged]; exact List.mem_append_right _ (List.mem_singleton_self r))
    rw [Function.update_of_ne hne, h.same r hr]
  · rw [hmap]
    refine hapart.front.concat (fun p hp => hapart.lt_last p hp) ?_
    exact (hapart.proper _ (List.mem_append_right _ (List.mem_singleton_self _))).trans (le_max_left _ _)
  · have hstart : (now last).1 ≤ (now current).1 := by rwa [h.start, h.start]
    rw [hmap, covered_append, ← covered_union_of_meet hstart hmeet, ← Finset.union_assoc,
      ← h.covers_current current, hmerged, covered_map_concat]

theorem Merging.behind (h : Merging objects first done now merged) {front : List ℕ}
    (hmerged : merged = front ++ [last]) (hproper : (objects current).1 ≤ (objects current).2)
    (hlt : (now last).2 < (now current).1) :
    Merging objects first (done ++ [current]) now (merged ++ [current]) := by
  have hcovers := h.covers_current current
  have hapart := h.apart
  rw [hmerged, List.map_append, List.map_singleton] at hapart
  have hall : ∀ p ∈ merged.map now, p.2 < (now current).1 := by
    rw [hmerged, List.map_append, List.map_singleton]
    intro p hp
    rcases List.mem_append.mp hp with hp | hp
    · have hbefore := hapart.lt_last p hp
      have hlast := hapart.proper _ (List.mem_append_right _ (List.mem_singleton_self _))
      omega
    · rwa [List.mem_singleton.mp hp]
  refine ⟨h.start, h.stop, fun r hr => ?_, List.concat_ne_nil _ _, fun r hr => ?_, ?_, ?_⟩
  · exact h.same r fun hmem => hr (List.mem_append_left _ hmem)
  · rcases List.mem_append.mp hr with hr | hr
    · exact h.known_concat current r hr
    · rw [List.mem_singleton.mp hr, ← List.cons_append]
      exact List.mem_append_right _ (List.mem_singleton_self current)
  · rw [List.map_append, List.map_singleton]
    refine h.apart.concat hall ?_
    rw [h.start]
    exact hproper.trans (h.stop current)
  · rw [covered_map_concat, hcovers]

theorem Merging.step (h : Merging objects first done now merged)
    (hproper : (objects current).1 ≤ (objects current).2)
    (hsorted : ∀ r ∈ first :: done, (objects r).1 ≤ (objects current).1) :
    ∃ s', mergeStep ⟨now, merged⟩ current = .ok s' ∧
      Merging objects first (done ++ [current]) s'.objects s'.merged := by
  obtain ⟨front, last, hmerged⟩ : ∃ front last, merged = front ++ [last] :=
    ⟨_, _, (List.dropLast_append_getLast h.nonempty).symm⟩
  have hindex : index merged (-1) = .ok last := by rw [hmerged, index_last]
  have hle : (objects last).1 ≤ (objects current).1 := by
    apply hsorted last
    apply h.known
    rw [hmerged]
    exact List.mem_append_right _ (List.mem_singleton_self last)
  rw [mergeStep, hindex, ok_bind]
  by_cases hmeet : (now current).1 ≤ (now last).2
  · exact ⟨_, if_pos hmeet, h.meet hmerged hle hmeet⟩
  · exact ⟨_, if_neg hmeet, h.behind hmerged hproper (Int.not_le.mp hmeet)⟩

theorem Merging.init (hproper : (objects first).1 ≤ (objects first).2) :
    Merging objects first [] objects [first] := by
  refine ⟨fun _ => rfl, fun _ => le_rfl, fun _ _ => rfl, List.cons_ne_nil _ _, fun _ h => h, ?_, rfl⟩
  exact ⟨fun p hp => by rwa [List.mem_singleton.mp hp], List.pairwise_singleton _ _⟩

theorem start_le {l tail rest : List ℕ} (hl : l = first :: tail) (hdone : done ++ current :: rest = l)
    (hsorted : l.Pairwise fun r r' => (objects r).1 ≤ (objects r').1) :
    ∀ r ∈ first :: done, (objects r).1 ≤ (objects current).1 := by
  have hbefore : ∀ r ∈ done, (objects r).1 ≤ (objects current).1 := by
    rw [← hdone, List.pairwise_append] at hsorted
    intro r hr
    exact hsorted.2.2 r hr current List.mem_cons_self
  intro r hr
  rcases List.mem_cons.mp hr with rfl | hr
  · rw [hl] at hdone
    cases done with
    | nil => rw [(List.cons.inj hdone).1]
    | cons r' done =>
      rw [← (List.cons.inj hdone).1]
      exact hbefore r' List.mem_cons_self
  · exact hbefore r hr

theorem sorted_by_start (objects : Objects) (tempTuple : List ℕ) :
    (tempTuple.mergeSort fun r r' => (objects r).1 ≤ (objects r').1).Pairwise fun r r' =>
      (objects r).1 ≤ (objects r').1 := by
  have hsorted : (tempTuple.mergeSort fun r r' => (objects r).1 ≤ (objects r').1).Pairwise fun r r' =>
      decide ((objects r).1 ≤ (objects r').1) = true := by
    apply List.pairwise_mergeSort
    · intro r₁ r₂ r₃ h h'
      exact decide_eq_true ((of_decide_eq_true h).trans (of_decide_eq_true h'))
    · intro r r'
      rw [Bool.or_eq_true, decide_eq_true_iff, decide_eq_true_iff]
      exact le_total _ _
  exact hsorted.imp of_decide_eq_true

theorem overlappingintervals2_ok {tempTuple : List ℕ} (hne : tempTuple ≠ [])
    (hproper : ∀ r ∈ tempTuple, (objects r).1 ≤ (objects r).2) :
    ∃ s, overlappingintervals2 objects tempTuple = .ok s ∧ Apart (s.merged.map s.objects) ∧
      covered (s.merged.map s.objects) = covered (tempTuple.map objects) := by
  have hperm := List.mergeSort_perm tempTuple fun r r' => (objects r).1 ≤ (objects r').1
  have hsorted := sorted_by_start objects tempTuple
  rw [overlappingintervals2]
  generalize (tempTuple.mergeSort fun r r' => (objects r).1 ≤ (objects r').1) = l at hperm hsorted ⊢
  obtain ⟨first, tail, hl⟩ : ∃ first tail, l = first :: tail := by
    apply List.exists_cons_of_ne_nil
    rintro rfl
    exact hne hperm.symm.eq_nil
  have hindex : index l 0 = .ok first := by
    rw [hl, ← Int.natCast_zero, index_ok (Nat.succ_pos tail.length)]
    rfl
  have hall : ∀ r ∈ l, (objects r).1 ≤ (objects r).2 := fun r hr => hproper r (hperm.mem_iff.mp hr)
  have hfirst : first ∈ l := by
    rw [hl]
    exact List.mem_cons_self
  obtain ⟨s, hs, hmerging⟩ := @foldlM_ok _ _ _ mergeStep
    (fun done s => Merging objects first done s.objects s.merged) l ⟨objects, [first]⟩
    (.init (hall first hfirst))
    fun done current rest s hdone h => h.step (hall current (by rw [← hdone]; simp))
      (start_le hl hdone hsorted)
  refine ⟨s, by rw [hindex, ok_bind, hs], hmerging.apart, ?_⟩
  have hcons : covered ((first :: l).map objects) = covered (l.map objects) := by
    rw [covered, List.map_cons, List.toFinset_cons,
      Finset.insert_eq_self.mpr (List.mem_toFinset.mpr (List.mem_map_of_mem hfirst)), covered]
  rw [hmerging.covers, hcons, covered_perm (hperm.map objects)]

/-- The merged intervals are sorted and apart, and have the length that `overlappingintervals` counts. -/
theorem overlappingintervals_agree {tempTuple : List ℕ} (hne : tempTuple ≠ [])
    (hproper : ∀ r ∈ tempTuple, (objects r).1 ≤ (objects r).2) :
    ∃ s, overlappingintervals2 objects tempTuple = .ok s ∧
      (s.merged.map s.objects).Pairwise (fun p q => p.1 ≤ q.1 ∧ p.2 < q.1) ∧
      ((s.merged.map s.objects).map fun p => p.2 - p.1).sum =
        (overlappingintervals (tempTuple.map objects) : ℤ) := by
  obtain ⟨s, hs, hapart, hcovers⟩ := overlappingintervals2_ok hne hproper
  refine ⟨s, hs, ?_, ?_⟩
  · apply hapart.before.imp_of_mem
    intro p q hp _ hlt
    exact ⟨(hapart.proper p hp).trans hlt.le, hlt⟩
  · rw [overlappingintervals_eq, ← hcovers, hapart.card_covered]

/-- Three objects, one of them twice in the list. -/
theorem overlappingintervals_agree_four :
    ∃ s, overlappingintervals2 (fun r => [(1, 4), (6, 7), (3, 5)].getD r (0, 0)) [0, 1, 2, 0] = .ok s ∧
      (s.merged.map s.objects).Pairwise (fun p q => p.1 ≤ q.1 ∧ p.2 < q.1) ∧
      ((s.merged.map s.objects).map fun p => p.2 - p.1).sum =
        (overlappingintervals [(1, 4), (6, 7), (3, 5), (1, 4)] : ℤ) :=
  overlappingintervals_agree (List.cons_ne_nil _ _) (by decide)

end CodingForFun.Overlappingintervals
