import CodingForFun.Lib.Loop
import Mathlib.Data.List.AList
import Mathlib.Data.Finset.Basic
import Mathlib.Data.Finset.Card

/-!
# Dictionaries

A Python dictionary is an association list without repeated keys; the order of the list is the one
in which a `for` loop goes through it. `Tabulates d Vs f` says that `d` is the table of the function
`f` on the keys `Vs`. Every operation has one lemma about it, so that a program on dictionaries is
reasoned about as a program on functions.
-/

namespace CodingForFun.Lib

/-- What a Python program may end with instead of a value. `unbounded` is the cut-off of `whileM`. -/
inductive PyError
  | keyError
  | indexError
  | unbounded
  deriving DecidableEq, Repr

abbrev Dict (K V : Type) := AList fun _ : K => V

namespace Dict

variable {K V : Type} [DecidableEq K]

/-- `d[k]` -/
def getItem (d : Dict K V) (k : K) : Except PyError V :=
  match d.lookup k with
  | some v => .ok v
  | none => .error .keyError

/-- `d[k] = v` -/
def setItem (d : Dict K V) (k : K) (v : V) : Dict K V := d.insert k v

/-- `del d[k]` -/
def delItem (d : Dict K V) (k : K) : Except PyError (Dict K V) :=
  if k ∈ d then .ok (d.erase k) else .error .keyError

/-- `bool(d)` -/
def truthy (d : Dict K V) : Bool := !d.entries.isEmpty

/-- `for k in l: d[k] = f k` -/
def fill (d : Dict K V) (l : List K) (f : K → V) : Dict K V :=
  l.foldl (fun d k => d.setItem k (f k)) d

/-- A dictionary display `{k: v, ...}`. -/
def ofList (l : List (K × V)) : Dict K V := l.foldl (fun d p => d.setItem p.1 p.2) ∅

theorem getItem_of_lookup {d : Dict K V} {k : K} {v : V} (h : d.lookup k = some v) :
    d.getItem k = .ok v := by
  rw [getItem, h]

theorem getItem_of_mem {d : Dict K V} {k : K} (h : k ∈ d) :
    ∃ v, d.lookup k = some v ∧ d.getItem k = .ok v := by
  obtain ⟨v, hv⟩ := Option.isSome_iff_exists.mp (AList.lookup_isSome.mpr h)
  exact ⟨v, hv, getItem_of_lookup hv⟩

/-- `d` is the table of `f` on `Vs`. -/
def Tabulates (d : Dict K V) (Vs : Finset K) (f : K → V) : Prop :=
  ∀ k, d.lookup k = if k ∈ Vs then some (f k) else none

theorem tabulates_empty (f : K → V) : Tabulates (∅ : Dict K V) ∅ f := fun k => by
  rw [AList.lookup_empty, if_neg (Finset.notMem_empty k)]

namespace Tabulates

variable {d : Dict K V} {Vs : Finset K} {f g : K → V} {k : K}

theorem mem_iff (h : Tabulates d Vs f) : k ∈ d ↔ k ∈ Vs := by
  rw [← AList.lookup_isSome, h k]
  by_cases hk : k ∈ Vs <;> simp [hk]

theorem lookup (h : Tabulates d Vs f) (hk : k ∈ Vs) : d.lookup k = some (f k) := by
  rw [h k, if_pos hk]

theorem getItem (h : Tabulates d Vs f) (hk : k ∈ Vs) : d.getItem k = .ok (f k) :=
  getItem_of_lookup (h.lookup hk)

theorem congr (h : Tabulates d Vs f) (hfg : ∀ k ∈ Vs, f k = g k) : Tabulates d Vs g := fun k => by
  rw [h k]
  by_cases hk : k ∈ Vs
  · rw [if_pos hk, if_pos hk, hfg k hk]
  · rw [if_neg hk, if_neg hk]

theorem setItem (h : Tabulates d Vs f) (k : K) (v : V) :
    Tabulates (d.setItem k v) (insert k Vs) (Function.update f k v) := fun a => by
  by_cases ha : a = k
  · subst ha
    rw [Dict.setItem, AList.lookup_insert, if_pos (Finset.mem_insert_self a Vs), Function.update_self]
  · rw [Dict.setItem, AList.lookup_insert_ne ha, h a, Function.update_of_ne ha]
    simp [ha]

theorem setItem_mem (h : Tabulates d Vs f) (hk : k ∈ Vs) (v : V) :
    Tabulates (d.setItem k v) Vs (Function.update f k v) := by
  have := h.setItem k v
  rwa [Finset.insert_eq_of_mem hk] at this

theorem delItem (h : Tabulates d Vs f) (hk : k ∈ Vs) :
    ∃ d', d.delItem k = .ok d' ∧ Tabulates d' (Vs.erase k) f := by
  refine ⟨d.erase k, by rw [Dict.delItem, if_pos (h.mem_iff.mpr hk)], fun a => ?_⟩
  by_cases ha : a = k
  · subst ha
    rw [AList.lookup_erase, if_neg (Finset.notMem_erase a Vs)]
  · rw [AList.lookup_erase_ne ha, h a]
    simp [ha]

theorem mem_keys (h : Tabulates d Vs f) : k ∈ d.keys ↔ k ∈ Vs := by
  rw [← AList.mem_keys, h.mem_iff]

theorem toFinset_keys (h : Tabulates d Vs f) : d.keys.toFinset = Vs := by
  ext k
  rw [List.mem_toFinset, h.mem_keys]

theorem length_keys (h : Tabulates d Vs f) : d.keys.length = Vs.card := by
  rw [← h.toFinset_keys, List.toFinset_card_of_nodup d.keys_nodup]

theorem truthy_iff (h : Tabulates d Vs f) : d.truthy = true ↔ Vs.Nonempty := by
  rw [← h.toFinset_keys, List.toFinset_nonempty_iff, AList.keys, Dict.truthy]
  cases d.entries <;> simp [List.keys]

theorem fill (h : Tabulates d Vs f) (l : List K) (g : K → V) :
    Tabulates (d.fill l g) (Vs ∪ l.toFinset) fun k => if k ∈ l then g k else f k := by
  induction l generalizing d Vs f with
  | nil => simpa [Dict.fill] using h
  | cons k l ih =>
    have hrest := ih (h.setItem k (g k))
    rw [Finset.insert_union, ← Finset.union_insert, ← List.toFinset_cons] at hrest
    apply hrest.congr
    intro a _
    by_cases hl : a ∈ l
    · simp [hl]
    · by_cases ha : a = k
      · subst ha
        simp
      · simp [hl, ha]

end Tabulates

theorem tabulates_fill (l : List K) (f : K → V) : Tabulates (fill ∅ l f) l.toFinset f := by
  have := (tabulates_empty f).fill l f
  rw [Finset.empty_union] at this
  exact this.congr fun k _ => ite_self (f k)

end Dict

end CodingForFun.Lib
