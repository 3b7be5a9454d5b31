import Mathlib.Data.Multiset.Range
import Mathlib.Data.Multiset.MapFold
import Mathlib.Logic.Equiv.Basic
import Mathlib.Logic.Relation
import Mathlib.Order.Defs.LinearOrder
import Mathlib.Order.Basic

/-!
# Binary min-heaps in an array

An array is a function `a : ℕ → α` read below its length `n`, ordered on `key`. Position `i > 0` is
a child of `parent i = (i - 1) / 2`.

A sift moves one value along a path while every other value shifts by one level. With the hole's
value counted at the hole, each round is a transposition of the hole with the next position
(`a ∘ Equiv.swap hole next`), so the multiset of values never changes (`contents_swap`), and the
order is kept off the hole: `UpOrder` is what a sift towards the root needs, `DownOrder` what a
hole moving towards the leaves needs. The places that such a hole comes to are those behind the root on
the way of the smaller children (`SmallerChild`).
-/

namespace CodingForFun.Lib.MinHeap

variable {α κ : Type} [LinearOrder κ] {key : α → κ} {a b : ℕ → α} {n i s p c : ℕ}

/-- The position above `i`; the root is its own parent. -/
def parent (i : ℕ) : ℕ := (i - 1) / 2

theorem parent_lt (hi : 0 < i) : parent i < i := by unfold parent; omega

theorem parent_le (i : ℕ) : parent i ≤ i := by unfold parent; omega

theorem parent_left (p : ℕ) : parent (2 * p + 1) = p := by unfold parent; omega

theorem parent_right (p : ℕ) : parent (2 * p + 2) = p := by unfold parent; omega

theorem eq_child_of_parent (hi : 0 < i) (h : parent i = p) : i = 2 * p + 1 ∨ i = 2 * p + 2 := by
  unfold parent at h; omega

/-! ## The way of the smaller children -/

/-- Of the children of `p` below `n`, `c` is the one with the smaller value, the right one of two equal ones. -/
def SmallerChild (key : α → κ) (a : ℕ → α) (n p c : ℕ) : Prop :=
  (c = 2 * p + 1 ∧ c < n ∧ (2 * p + 2 < n → key (a c) < key (a (2 * p + 2)))) ∨
    (c = 2 * p + 2 ∧ c < n ∧ key (a c) ≤ key (a (2 * p + 1)))

theorem SmallerChild.lt (h : SmallerChild key a n p c) : p < c ∧ c < n := by
  rcases h with ⟨rfl, hc, -⟩ | ⟨rfl, hc, -⟩ <;> omega

theorem SmallerChild.parent_eq (h : SmallerChild key a n p c) : parent c = p := by
  rcases h with ⟨rfl, -, -⟩ | ⟨rfl, -, -⟩
  · exact parent_left p
  · exact parent_right p

theorem SmallerChild.le (h : SmallerChild key a n p c) (hi : 0 < i) (hin : i < n) (hp : parent i = p) :
    key (a c) ≤ key (a i) := by
  rcases h with ⟨rfl, -, hleft⟩ | ⟨rfl, -, hright⟩ <;> rcases eq_child_of_parent hi hp with rfl | rfl
  · exact le_rfl
  · exact (hleft hin).le
  · exact hright
  · exact le_rfl

theorem smallerChild_unique : Relator.RightUnique (SmallerChild key a n) := by
  intro p c d hc hd
  rcases hc with ⟨rfl, hcn, hleft⟩ | ⟨rfl, hcn, hright⟩ <;> rcases hd with ⟨rfl, hdn, hleft'⟩ | ⟨rfl, hdn, hright'⟩
  · rfl
  · exact absurd (hleft hdn) (not_lt.mpr hright')
  · exact absurd (hleft' hcn) (not_lt.mpr hright)
  · rfl

theorem SmallerChild.congr (h : SmallerChild key a n p c) (hab : ∀ i, p < i → a i = b i) :
    SmallerChild key b n p c := by
  have heq := hab c h.lt.1
  rcases h with ⟨rfl, hc, hleft⟩ | ⟨rfl, hc, hright⟩
  · exact .inl ⟨rfl, hc, by rwa [← heq, ← hab _ (by omega)]⟩
  · exact .inr ⟨rfl, hc, by rwa [← heq, ← hab _ (by omega)]⟩

theorem SmallerChild.forall_iff (h : SmallerChild key a n p c) {P : ℕ → Prop} :
    (∀ d, Relation.TransGen (SmallerChild key a n) p d → P d) ↔
      P c ∧ ∀ d, Relation.TransGen (SmallerChild key a n) c d → P d := by
  constructor
  · exact fun hall => ⟨hall c (.single h), fun d hd => hall d (hd.head h)⟩
  · rintro ⟨hc, hall⟩ d hd
    obtain ⟨c', hc', hd⟩ := Relation.TransGen.head'_iff.mp hd
    obtain rfl := smallerChild_unique h hc'
    rcases Relation.reflTransGen_iff_eq_or_transGen.mp hd with rfl | hd
    · exact hc
    · exact hall d hd

theorem lt_of_transGen_smallerChild {d : ℕ} (h : Relation.TransGen (SmallerChild key a n) p d) : d < n := by
  obtain ⟨c, -, hc⟩ := Relation.TransGen.tail'_iff.mp h
  exact hc.lt.2

theorem not_transGen_smallerChild (hp : n ≤ 2 * p + 1) (d : ℕ) :
    ¬Relation.TransGen (SmallerChild key a n) p d := by
  intro h
  obtain ⟨c, hc, -⟩ := Relation.TransGen.head'_iff.mp h
  rcases hc with ⟨rfl, hc, -⟩ | ⟨rfl, hc, -⟩ <;> omega

/-! ## The values stored -/

/-- The values in positions `0, …, n - 1`. -/
def contents (a : ℕ → α) (n : ℕ) : Multiset α := (Multiset.range n).map a

@[simp] theorem contents_zero (a : ℕ → α) : contents a 0 = 0 := rfl

theorem contents_succ (a : ℕ → α) (n : ℕ) : contents a (n + 1) = a n ::ₘ contents a n := by
  simp [contents, Multiset.range_succ]

@[simp] theorem card_contents (a : ℕ → α) (n : ℕ) : Multiset.card (contents a n) = n := by
  simp [contents]

theorem mem_contents {x : α} : x ∈ contents a n ↔ ∃ i < n, a i = x := by
  simp [contents, Multiset.mem_map]

theorem contents_congr (h : ∀ i < n, a i = b i) : contents a n = contents b n :=
  Multiset.map_congr rfl fun i hi => h i (Multiset.mem_range.mp hi)

theorem contents_swap (hs : s < n) (hc : c < n) : contents (a ∘ Equiv.swap s c) n = contents a n := by
  have hrange : (Multiset.range n).map (Equiv.swap s c) = Multiset.range n := by
    refine (Multiset.Nodup.ext ((Multiset.nodup_range n).map (Equiv.swap s c).injective)
      (Multiset.nodup_range n)).mpr fun i => ?_
    simp only [Multiset.mem_map, Multiset.mem_range]
    constructor
    · intro h
      obtain ⟨j, hj, rfl⟩ := h
      rw [Equiv.swap_apply_def]
      split_ifs <;> omega
    · intro hi
      refine ⟨Equiv.swap s c i, ?_, Equiv.swap_apply_self s c i⟩
      rw [Equiv.swap_apply_def]
      split_ifs <;> omega
  unfold contents
  rw [← Multiset.map_map, hrange]

theorem contents_of_prefix (k : ℕ) (hk : contents a k = contents b k)
    (hab : ∀ i, k ≤ i → a i = b i) (hkn : k ≤ n) : contents a n = contents b n := by
  induction n, hkn using Nat.le_induction with
  | base => exact hk
  | succ n hn ih => rw [contents_succ, contents_succ, hab n hn, ih]

theorem map_update {ι : Type} [DecidableEq ι] [DecidableEq α] {m : Multiset ι} (hm : m.Nodup) {i : ι}
    (hi : i ∈ m) (f : ι → α) (x : α) :
    m.map (Function.update f i x) = x ::ₘ (m.map f).erase (f i) := by
  have hsplit : ∀ g : ι → α, m.map g = g i ::ₘ (m.erase i).map g := fun g => by
    rw [← Multiset.map_cons, Multiset.cons_erase hi]
  have hoff : (m.erase i).map (Function.update f i x) = (m.erase i).map f := by
    refine Multiset.map_congr rfl fun j hj => Function.update_of_ne ?_ x f
    rintro rfl
    exact hm.notMem_erase hj
  rw [hsplit (Function.update f i x), hsplit f, Multiset.erase_cons_head, Function.update_self, hoff]

theorem contents_update [DecidableEq α] (hi : i < n) (x : α) :
    contents (Function.update a i x) n = x ::ₘ (contents a n).erase (a i) :=
  map_update (Multiset.nodup_range n) (Multiset.mem_range.mpr hi) a x

/-! ## Heap order -/

/-- No value is below its parent's. -/
def HeapOrdered (key : α → κ) (a : ℕ → α) (n : ℕ) : Prop :=
  ∀ i, 0 < i → i < n → key (a (parent i)) ≤ key (a i)

theorem HeapOrdered.congr (h : HeapOrdered key a n) (hab : ∀ i < n, a i = b i) :
    HeapOrdered key b n := by
  intro i hi hin
  rw [← hab i hin, ← hab (parent i) ((parent_le i).trans_lt hin)]
  exact h i hi hin

theorem HeapOrdered.mono (h : HeapOrdered key a n) {m : ℕ} (hm : m ≤ n) : HeapOrdered key a m :=
  fun i hi hin => h i hi (hin.trans_le hm)

theorem heapOrdered_of_le_one (hn : n ≤ 1) : HeapOrdered key a n := fun i _ _ => by omega

theorem HeapOrdered.root_le (h : HeapOrdered key a n) : ∀ i, i < n → key (a 0) ≤ key (a i) := by
  intro i
  induction i using Nat.strongRecOn with
  | ind i ih =>
    intro hin
    rcases Nat.eq_zero_or_pos i with rfl | hi
    · exact le_rfl
    · exact (ih (parent i) (parent_lt hi) ((parent_lt hi).trans hin)).trans (h i hi hin)

theorem HeapOrdered.root_le_of_mem (h : HeapOrdered key a n) {x : α} (hx : x ∈ contents a n) :
    key (a 0) ≤ key x := by
  obtain ⟨i, hin, rfl⟩ := mem_contents.mp hx
  exact h.root_le i hin

/-- Replacing one value keeps the order exactly when the new value fits between its parent and its
children. -/
theorem HeapOrdered.update_iff (h : HeapOrdered key a n) (hin : i < n) (x : α) :
    HeapOrdered key (Function.update a i x) n ↔
      (0 < i → key (a (parent i)) ≤ key x) ∧
        ∀ c, 0 < c → c < n → parent c = i → key x ≤ key (a c) := by
  constructor
  · intro hu
    refine ⟨fun hi => ?_, fun c hc hcn hp => ?_⟩
    · have := hu i hi hin
      rwa [Function.update_self, Function.update_of_ne (parent_lt hi).ne] at this
    · have := hu c hc hcn
      have hlt := parent_lt hc
      rwa [hp, Function.update_self, Function.update_of_ne (by omega)] at this
  · rintro ⟨habove, hbelow⟩ c hc hcn
    by_cases hci : c = i
    · subst hci
      rw [Function.update_self, Function.update_of_ne (parent_lt hc).ne]
      exact habove hc
    · rw [Function.update_of_ne hci]
      by_cases hp : parent c = i
      · rw [hp, Function.update_self]
        exact hbelow c hc hcn hp
      · rw [Function.update_of_ne hp]
        exact h c hc hcn

/-! ## A value on its way up -/

/-- The order while the value at `s` sifts up: only the pair of `s` and its parent may be out of
order, and what is below `s` is not below the parent of `s`. -/
structure UpOrder (key : α → κ) (a : ℕ → α) (n s : ℕ) : Prop where
  off : ∀ i, 0 < i → i < n → i ≠ s → key (a (parent i)) ≤ key (a i)
  grand : 0 < s → ∀ i, 0 < i → i < n → parent i = s → key (a (parent s)) ≤ key (a i)

theorem HeapOrdered.upOrder (h : HeapOrdered key a n) (x : α) :
    UpOrder key (Function.update a n x) (n + 1) n := by
  constructor
  · intro i hi hin hne
    have hlt := parent_lt hi
    rw [Function.update_of_ne hne, Function.update_of_ne (by omega)]
    exact h i hi (by omega)
  · intro _ i hi hin hp
    have := parent_lt hi
    omega

theorem UpOrder.move (h : UpOrder key a n s) (hs : 0 < s) (hsn : s < n)
    (hlt : key (a s) < key (a (parent s))) :
    UpOrder key (a ∘ Equiv.swap s (parent s)) n (parent s) := by
  have hps := parent_lt hs
  constructor
  · intro i hi hin hne
    have hpi := parent_lt hi
    simp only [Function.comp_apply, Equiv.swap_apply_def]
    by_cases his : i = s
    · subst his
      simpa [hps.ne] using hlt.le
    · by_cases hp : parent i = s
      · -- a child of the old hole now sits below the value that moved down
        simpa [hp, his, hne] using h.grand hs i hi hin hp
      · by_cases hpp : parent i = parent s
        · simpa [hpp, his, hne, hps.ne] using hlt.le.trans (hpp ▸ h.off i hi hin his)
        · simpa [hp, hpp, his, hne] using h.off i hi hin his
  · intro hps0 i hi hin hp
    have hpps := parent_lt hps0
    simp only [Function.comp_apply, Equiv.swap_apply_def]
    have hup : key (a (parent (parent s))) ≤ key (a (parent s)) :=
      h.off (parent s) hps0 (by omega) hps.ne
    by_cases his : i = s
    · subst his
      simpa [hpps.ne, (hpps.trans hps).ne] using hup
    · have hne : i ≠ parent s := by have := parent_lt hi; omega
      have := h.off i hi hin his
      rw [hp] at this
      simpa [his, hne, hpps.ne, (hpps.trans hps).ne] using hup.trans this

theorem UpOrder.finish (h : UpOrder key a n s) (hstop : 0 < s → key (a (parent s)) ≤ key (a s)) :
    HeapOrdered key a n := by
  intro i hi hin
  by_cases his : i = s
  · subst his; exact hstop hi
  · exact h.off i hi hin his

/-! ## A hole on its way down -/

/-- The order while a hole at `p` moves down: the pairs that do not touch `p` are in order, and what
is below `p` is not below the parent of `p`. -/
structure DownOrder (key : α → κ) (a : ℕ → α) (n p : ℕ) : Prop where
  off : ∀ i, 0 < i → i < n → i ≠ p → parent i ≠ p → key (a (parent i)) ≤ key (a i)
  grand : 0 < p → ∀ i, 0 < i → i < n → parent i = p → key (a (parent p)) ≤ key (a i)

theorem HeapOrdered.downOrder (h : HeapOrdered key a n) : DownOrder key a n 0 :=
  ⟨fun i hi hin _ _ => h i hi hin, fun hp => absurd hp (lt_irrefl 0)⟩

theorem DownOrder.move (h : DownOrder key a n p) (hc : 0 < c) (hcp : parent c = p) (hcn : c < n)
    (hmin : ∀ i, 0 < i → i < n → parent i = p → key (a c) ≤ key (a i)) :
    DownOrder key (a ∘ Equiv.swap p c) n c := by
  have hpc : p < c := hcp ▸ parent_lt hc
  constructor
  · intro i hi hin hne hpi
    have hlt := parent_lt hi
    simp only [Function.comp_apply, Equiv.swap_apply_def]
    by_cases hip : i = p
    · subst hip
      simpa [hlt.ne, hpi] using h.grand hi c hc hcn hcp
    · by_cases hp : parent i = p
      · simpa [hp, hip, hne] using hmin i hi hin hp
      · simpa [hp, hip, hne, hpi] using h.off i hi hin hip hp
  · intro _ i hi hin hp
    have hlt := parent_lt hi
    simp only [Function.comp_apply, Equiv.swap_apply_def]
    have hne : i ≠ c := by omega
    have hip : i ≠ p := by omega
    have := h.off i hi hin hip (by omega)
    rw [hp] at this
    simpa [hcp, hne, hip] using this

theorem DownOrder.finish (h : DownOrder key a n p) (hpn : p ≤ n) : HeapOrdered key a p := by
  intro i hi hip
  have := parent_lt hi
  exact h.off i hi (by omega) (by omega) (by omega)

end CodingForFun.Lib.MinHeap
