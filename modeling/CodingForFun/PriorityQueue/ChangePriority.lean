import CodingForFun.PriorityQueue.Runs

/-!
# `pq_changepriority`

`pq_changepriority` overwrites the priority of the first element with the given data and moves
nothing. `pqChangepriority_eq` says so; it follows that the heap order survives exactly when the new
priority fits between the priorities around that position (`Fits`).
-/

namespace CodingForFun.PriorityQueue

open Lib Lib.MinHeap

/-- `i` is the first position that holds `data`. -/
structure FirstAt (q : Pq) (data : Int) (i : ℕ) : Prop where
  lt : i < q.n
  data_eq : (q.elem i).data = data
  first : ∀ j < i, (q.elem j).data ≠ data

theorem FirstAt.unique {q : Pq} {data : Int} {i j : ℕ} (hi : FirstAt q data i) (hj : FirstAt q data j) :
    i = j := by
  rcases lt_trichotomy i j with h | h | h
  · exact absurd hi.data_eq (hj.first i h)
  · exact h
  · exact absurd hj.data_eq (hi.first j h)

theorem exists_firstAt {q : Pq} {data : Int} (h : ∃ e ∈ stored q, e.data = data) :
    ∃ i, FirstAt q data i := by
  obtain ⟨e, he, hdata⟩ := h
  obtain ⟨i, hi, rfl⟩ := mem_contents.mp he
  have hex : ∃ i, i < q.n ∧ (q.elem i).data = data := ⟨i, hi, hdata⟩
  refine ⟨Nat.find hex, (Nat.find_spec hex).1, (Nat.find_spec hex).2, fun j hj hjd => ?_⟩
  exact Nat.find_min hex hj ⟨hj.trans (Nat.find_spec hex).1, hjd⟩

theorem pqScan_spec {arr : Cells PqElement} {a : ℕ → PqElement} {m : ℕ} (h : arr.Holds a m)
    (data : Int) : ∀ remaining i, i + remaining = m →
      (∃ k, pqScan arr data remaining i = .ok (some k) ∧ i ≤ k ∧ k < m ∧ (a k).data = data ∧
        ∀ j, i ≤ j → j < k → (a j).data ≠ data) ∨
      (pqScan arr data remaining i = .ok none ∧ ∀ j, i ≤ j → j < m → (a j).data ≠ data) := by
  intro remaining
  induction remaining with
  | zero =>
    intro i hi
    exact .inr ⟨rfl, fun j hij hjm => by omega⟩
  | succ remaining ih =>
    intro i hi
    have hread : arr.read i = .ok (a i) := h.read (by omega)
    by_cases hdata : (a i).data = data
    · exact .inl ⟨i, by simp [pqScan, hread, hdata], le_rfl, by omega, hdata, fun j hij hji => by omega⟩
    · have hnext : pqScan arr data (remaining + 1) i = pqScan arr data remaining (i + 1) := by
        simp [pqScan, hread, hdata]
      have hskip : ∀ j, i ≤ j → j < i + 1 → (a j).data ≠ data := fun j hij hji => by
        rwa [show j = i by omega]
      rw [hnext]
      rcases ih (i + 1) (by omega) with ⟨k, hk, hik, hkm, hkd, hfirst⟩ | ⟨hk, hnone⟩
      · refine .inl ⟨k, hk, by omega, hkm, hkd, fun j hij hjk => ?_⟩
        rcases Nat.lt_or_ge j (i + 1) with hj | hj
        · exact hskip j hij hj
        · exact hfirst j hj hjk
      · refine .inr ⟨hk, fun j hij hjm => ?_⟩
        rcases Nat.lt_or_ge j (i + 1) with hj | hj
        · exact hskip j hij hj
        · exact hnone j hj hjm

theorem FirstAt.scan {q : Pq} {data : Int} {i : ℕ} (hi : FirstAt q data i) (h : Valid q) :
    pqScan q.pqArray data q.n 0 = .ok (some i) := by
  rcases pqScan_spec h.holds data q.n 0 (Nat.zero_add _) with ⟨k, hk, -, hkn, hkd, hfirst⟩ | ⟨-, hnone⟩
  · have hk' : FirstAt q data k := ⟨hkn, hkd, fun j hj => hfirst j (Nat.zero_le j) hj⟩
    rw [hk, hi.unique hk']
  · exact absurd hi.data_eq (hnone i (Nat.zero_le i) hi.lt)

theorem pqHaskey_spec {q : Pq} (h : Valid q) (data : Int) :
    ∃ b, pqHaskey q data = .ok b ∧ (b = true ↔ ∃ e ∈ stored q, e.data = data) := by
  by_cases hpresent : ∃ e ∈ stored q, e.data = data
  · obtain ⟨i, hi⟩ := exists_firstAt hpresent
    exact ⟨true, by simp [pqHaskey, hi.scan h], by simpa using hpresent⟩
  · rcases pqScan_spec h.holds data q.n 0 (Nat.zero_add _) with ⟨k, -, -, hkn, hkd, -⟩ | ⟨hk, -⟩
    · exact absurd ⟨_, mem_contents.mpr ⟨k, hkn, rfl⟩, hkd⟩ hpresent
    · exact ⟨false, by simp [pqHaskey, hk], by simpa using hpresent⟩

/-- The queue with the priority in position `i` overwritten. -/
def setPriority (q : Pq) (i : ℕ) (priority : Int) : Pq :=
  { q with pqArray := q.pqArray.set i (some ⟨(q.elem i).data, priority⟩) }

theorem FirstAt.changepriority {q : Pq} {data : Int} {i : ℕ} (hi : FirstAt q data i) (h : Valid q)
    (priority : Int) : pqChangepriority q data priority = .ok (setPriority q i priority) := by
  have hread : q.pqArray.read i = .ok (q.elem i) := h.holds.read hi.lt
  have hlt : i < q.pqArray.length := hi.lt.trans_le (h.holds.1)
  simp only [pqChangepriority, hi.scan h, ok_bind, hread, Cells.write_eq_ok hlt]
  rfl

theorem pqChangepriority_data {q q' : Pq} {data priority : Int}
    (h : pqChangepriority q data priority = .ok q') (j : ℕ) : (q'.elem j).data = (q.elem j).data := by
  obtain ⟨found, -, h⟩ := exists_of_bind_eq_ok h
  cases found with
  | none => cases h
  | some i =>
    obtain ⟨e, hread, h⟩ := exists_of_bind_eq_ok h
    obtain ⟨arr, hwrite, h⟩ := exists_of_bind_eq_ok h
    obtain rfl := Except.ok.inj h
    obtain ⟨hlt, rfl⟩ := Cells.write_eq_ok_iff.mp hwrite
    by_cases hij : j = i
    · subst hij
      simp only [Pq.elem, List.getElem?_set_self hlt, Cells.read_eq_ok_iff.mp hread]
    · simp only [Pq.elem, List.getElem?_set_ne (Ne.symm hij)]

theorem setPriority_holds {q : Pq} (h : Valid q) {i : ℕ} (hi : i < q.n) (priority : Int) :
    (setPriority q i priority).pqArray.Holds
      (Function.update q.elem i ⟨(q.elem i).data, priority⟩) q.n := by
  refine ⟨by simpa [setPriority] using h.holds.1, fun j hj => ?_⟩
  by_cases hij : j = i
  · subst hij
    rw [setPriority, List.getElem?_set_self (hj.trans_le h.holds.1), Function.update_self]
  · rw [setPriority, List.getElem?_set_ne (Ne.symm hij), h.holds.2 j hj, Function.update_of_ne hij]

theorem setPriority_valid {q : Pq} (h : Valid q) {i : ℕ} (hi : i < q.n) (priority : Int) :
    Valid (setPriority q i priority) :=
  .of_holds (setPriority_holds h hi priority) h.room (by simpa [setPriority] using h.length)

theorem stored_setPriority {q : Pq} (h : Valid q) {i : ℕ} (hi : i < q.n) (priority : Int) :
    stored (setPriority q i priority) =
      ⟨(q.elem i).data, priority⟩ ::ₘ (stored q).erase (q.elem i) := by
  rw [stored_of_holds (setPriority_holds h hi priority) le_rfl]
  exact contents_update hi _

/-- The new priority is not below the father's priority and not above the sons'. -/
structure Fits (q : Pq) (i : ℕ) (priority : Int) : Prop where
  father : 0 < i → (q.elem ((i - 1) / 2)).priority ≤ priority
  son1 : 2 * i + 1 < q.n → priority ≤ (q.elem (2 * i + 1)).priority
  son2 : 2 * i + 2 < q.n → priority ≤ (q.elem (2 * i + 2)).priority

theorem isHeap_setPriority_iff {q : Pq} (h : Valid q) (hq : IsHeap q) {i : ℕ} (hi : i < q.n)
    (priority : Int) : IsHeap (setPriority q i priority) ↔ Fits q i priority := by
  have hheld := setPriority_holds h hi priority
  have horder : IsHeap (setPriority q i priority) ↔
      HeapOrdered prio (Function.update q.elem i ⟨(q.elem i).data, priority⟩) q.n :=
    ⟨fun hs => hs.congr fun j hj => elem_of_holds hheld hj,
      fun hs => isHeap_of_holds hheld le_rfl hs⟩
  rw [horder, hq.update_iff hi]
  constructor
  · rintro ⟨habove, hbelow⟩
    exact ⟨habove, fun h1 => hbelow _ (by omega) h1 (parent_left i),
      fun h2 => hbelow _ (by omega) h2 (parent_right i)⟩
  · intro hfits
    refine ⟨hfits.father, fun c hc hcn hp => ?_⟩
    rcases eq_child_of_parent hc hp with rfl | rfl
    · exact hfits.son1 hcn
    · exact hfits.son2 hcn

/-- What a change of priority is for: the array stays a heap, one element with the data has the new
priority, and the next pop returns an element of minimal priority. -/
def ChangesPriority (max : Option ℕ) (q : Pq) (data priority : Int) : Prop :=
  ∃ q', pqChangepriority q data priority = .ok q' ∧ IsHeap q' ∧
    (∃ e ∈ stored q, e.data = data ∧ stored q' = ⟨data, priority⟩ ::ₘ (stored q).erase e) ∧
    ∃ out q'', pqPop max q' = .ok (out, q'') ∧ RemovesMin (stored q') out (stored q'')

/-- **`pq_changepriority` keeps the queue exactly when the new priority fits** where the first
element with the data stands, and the next pop does not compute an index that is out of range. -/
theorem changesPriority_iff {max : Option ℕ} {q : Pq} (h : Valid q) (hq : IsHeap q) {data : Int}
    (hpresent : ∃ e ∈ stored q, e.data = data) (priority : Int) :
    ChangesPriority max q data priority ↔
      ∃ i, FirstAt q data i ∧ Fits q i priority ∧ Descends max (setPriority q i priority) := by
  obtain ⟨i, hi⟩ := exists_firstAt hpresent
  have hchange := hi.changepriority h priority
  have hvalid := setPriority_valid h hi.lt priority
  have hpos : 0 < (setPriority q i priority).n := Nat.zero_lt_of_lt hi.lt
  constructor
  · rintro ⟨q', hq', hheap, -, out, q'', hpop, -⟩
    rw [hchange, Except.ok.injEq] at hq'
    subst hq'
    refine ⟨i, hi, (isHeap_setPriority_iff h hq hi.lt priority).mp hheap, ?_⟩
    rcases hvalid.pop_cases max hpos with ⟨hdescends, -⟩ | ⟨-, hover⟩
    · exact hdescends
    · rw [hover] at hpop
      cases hpop
  · rintro ⟨j, hj, hfits, hdescends⟩
    rw [← hi.unique hj] at hfits hdescends
    have hheap := (isHeap_setPriority_iff h hq hi.lt priority).mpr hfits
    obtain ⟨out, q'', hpop, -, -, hmin⟩ := hheap.pop hvalid hpos hdescends
    refine ⟨_, hchange, hheap, ⟨q.elem i, mem_contents.mpr ⟨i, hi.lt, rfl⟩, hi.data_eq, ?_⟩, out, q'',
      hpop, hmin⟩
    rw [stored_setPriority h hi.lt, hi.data_eq]

/-- A queue of two elements. -/
def twoElements : Pq := ⟨[some ⟨0, 1⟩, some ⟨1, 5⟩, none, none], 2, 4⟩

theorem twoElements_valid : Valid twoElements := by
  refine ⟨by decide, by decide, by decide, fun i hi => ?_⟩
  obtain rfl | rfl : i = 0 ∨ i = 1 := by change i < 2 at hi; omega
  · exact ⟨_, rfl⟩
  · exact ⟨_, rfl⟩

theorem isHeap_twoElements : IsHeap twoElements := by
  intro i hi hin
  have : i = 1 := by change i < 2 at hin; omega
  subst this
  decide

/-- Raising the second element to priority 7 keeps the queue. -/
theorem changesPriority_iff_twoElements : ChangesPriority (some intMax) twoElements 1 7 := by
  refine (changesPriority_iff twoElements_valid isHeap_twoElements ⟨⟨1, 5⟩, by decide, rfl⟩ 7).mpr
    ⟨1, ⟨by decide, rfl, ?_⟩, ⟨fun _ => by decide, fun h => absurd h (by decide), fun h => absurd h (by decide)⟩,
      descends_of_le (by decide)⟩
  intro j hj
  obtain rfl := Nat.lt_one_iff.mp hj
  decide

/-- Lowering the second element below the root leaves an array that is not a heap. -/
theorem not_changesPriority_twoElements :
    Valid twoElements ∧ IsHeap twoElements ∧ (∃ e ∈ stored twoElements, e.data = 1) ∧
      ¬ ChangesPriority (some intMax) twoElements 1 0 := by
  refine ⟨twoElements_valid, isHeap_twoElements, ⟨⟨1, 5⟩, by decide, rfl⟩, ?_⟩
  intro h
  obtain ⟨q', hq', hheap, -⟩ := h
  have hval : pqChangepriority twoElements 1 0 = .ok (setPriority twoElements 1 0) := rfl
  rw [hval, Except.ok.injEq] at hq'
  subst hq'
  exact absurd (hheap 1 (by decide) (by decide)) (by decide)

end CodingForFun.PriorityQueue
