import Mathlib.Data.Finset.Dedup
import Mathlib.Data.Finset.Card
import Mathlib.Data.List.Nodup
import Mathlib.Data.List.Perm.Basic
import Mathlib.Logic.Function.Basic

/-!
# Values stored under keys

Values that are stored one after the other, each under its key: a later value replaces an earlier one with the
same key. All of them can be read again in the end if and only if the keys are distinct
(`read_perm_iff`).
-/

namespace CodingForFun.Lib

variable {K α : Type} [DecidableEq K]

/-- What is stored under a key after some writes. -/
def written (stored : K → Option α) (writes : List (K × α)) : K → Option α :=
  writes.foldl (fun stored w => Function.update stored w.1 (some w.2)) stored

variable {stored : K → Option α} {writes writes' : List (K × α)} {w : K × α} {k : K} {x : α}

theorem written_append (stored : K → Option α) (writes writes' : List (K × α)) :
    written stored (writes ++ writes') = written (written stored writes) writes' := List.foldl_append

theorem written_cons (stored : K → Option α) (w : K × α) (writes : List (K × α)) :
    written stored (w :: writes) = written (Function.update stored w.1 (some w.2)) writes := rfl

theorem written_of_notMem (stored : K → Option α) (h : k ∉ writes.map Prod.fst) :
    written stored writes k = stored k := by
  induction writes generalizing stored with
  | nil => rfl
  | cons w writes ih =>
    rw [List.map_cons, List.mem_cons, not_or] at h
    rw [written_cons, ih _ h.2, Function.update_of_ne h.1]

theorem isSome_written (stored : K → Option α) :
    (written stored writes k).isSome ↔ k ∈ writes.map Prod.fst ∨ (stored k).isSome := by
  induction writes generalizing stored with
  | nil => simp [written]
  | cons w writes ih =>
    rw [written_cons, ih, List.map_cons, List.mem_cons]
    by_cases hk : k = w.1
    · subst hk
      simp
    · rw [Function.update_of_ne hk, or_iff_right hk]

theorem written_of_nodup (stored : K → Option α) (h : (writes.map Prod.fst).Nodup) (hw : w ∈ writes) :
    written stored writes w.1 = some w.2 := by
  induction writes generalizing stored with
  | nil => exact absurd hw List.not_mem_nil
  | cons w' writes ih =>
    rw [List.map_cons, List.nodup_cons] at h
    rcases List.mem_cons.mp hw with rfl | hw
    · rw [written_cons, written_of_notMem _ h.1, Function.update_self]
    · exact ih _ h.2 hw

theorem read_perm_iff {keys : List K} {out : List α} (hkeys : keys.Nodup)
    (hmem : ∀ k, k ∈ keys ↔ (written (fun _ => none) writes k).isSome)
    (hout : out.map some = keys.map (written (fun _ => none) writes)) :
    out.Perm (writes.map Prod.snd) ↔ (writes.map Prod.fst).Nodup := by
  have hmem' : ∀ k, k ∈ keys ↔ k ∈ writes.map Prod.fst := by
    intro k
    rw [hmem, isSome_written]
    simp
  constructor
  · intro hperm
    have hlen : keys.length = (writes.map Prod.fst).length := by
      have hread := congrArg List.length hout
      have hwrites := hperm.length_eq
      rw [List.length_map, List.length_map] at hread
      rw [List.length_map] at hwrites ⊢
      omega
    have hsub : keys.Subperm (writes.map Prod.fst) :=
      List.subperm_of_subset hkeys fun k hk => (hmem' k).mp hk
    exact (hsub.perm_of_length_le hlen.ge).nodup_iff.mp hkeys
  · intro hnodup
    have hperm : keys.Perm (writes.map Prod.fst) := (List.perm_ext_iff_of_nodup hkeys hnodup).mpr hmem'
    have hread : (writes.map Prod.fst).map (written (fun _ => none) writes) = (writes.map Prod.snd).map some := by
      rw [List.map_map, List.map_map]
      apply List.map_congr_left
      intro w hw
      exact written_of_nodup _ hnodup hw
    rw [← List.map_perm_map_iff (Option.some_injective α), hout, ← hread]
    exact hperm.map _

end CodingForFun.Lib
