import CodingForFun.Lib.Cells
import Mathlib.Data.Multiset.AddSub

/-!
# Resources that are taken and given back

The resources held are a multiset: a resource is taken by `::ₘ`, and `release` gives it back, which is a fault
if it is not held. Each rule has the other resources as a summand of their own, so that it can be used whatever
else is held.
-/

namespace CodingForFun.Lib

variable {ρ : Type} [DecidableEq ρ] {r : ρ} {rs : List ρ} {held held' rest : Multiset ρ}

/-- A resource is given back. -/
def release (r : ρ) (held : Multiset ρ) : Except Fault (Multiset ρ) :=
  if r ∈ held then .ok (held.erase r) else .error .outOfBounds

/-- Resources are given back one after the other. -/
def releaseAll (rs : List ρ) (held : Multiset ρ) : Except Fault (Multiset ρ) :=
  rs.foldlM (fun held r => release r held) held

@[simp] theorem release_cons (r : ρ) (rest : Multiset ρ) : release r (r ::ₘ rest) = .ok rest := by
  unfold release
  rw [if_pos (Multiset.mem_cons_self r rest), Multiset.erase_cons_head]

theorem release_of_eq (h : held = r ::ₘ rest) : release r held = .ok rest := by
  rw [h, release_cons]

theorem release_eq_error (h : r ∉ held) : release r held = .error .outOfBounds := if_neg h

theorem releaseAll_add {rs' : List ρ} (hperm : rs.Perm rs') (rest : Multiset ρ) :
    releaseAll rs ((rs' : Multiset ρ) + rest) = .ok rest := by
  rw [← Multiset.coe_eq_coe.mpr hperm]
  clear hperm
  induction rs with
  | nil => rw [Multiset.coe_nil, Multiset.zero_add]; rfl
  | cons r rs ih =>
    unfold releaseAll
    rw [List.foldlM_cons, ← Multiset.cons_coe, Multiset.cons_add, release_cons, ok_bind]
    exact ih

end CodingForFun.Lib
