import Mathlib.Data.List.Pairwise
import Mathlib.Data.List.TakeWhile
import Mathlib.Order.Lattice

/-!
# B-trees

B-trees of any order `M` over any linear order, as values. A `Node` has one more child than keys, and
the depth of a tree is part of its type, so all leaves are equally deep. Nodes carry names, which an
implementation that updates nodes in place can use as addresses: an insertion keeps the names of the
nodes it rebuilds and gives the nodes it adds the next unused ones.

`Node.insertWith` is one level of the insertion: what becomes of the child is decided by a function
for the level below, and the node is rebuilt around the outcome, or split when it would hold `M`
keys. Three things are proved of it, each for one level and then for all depths: what it does to the
keys in order (`BTree.ins_inserts`), to the number of keys of each node (`BTree.ins_balances`) and to
the names (`BTree.ins_names`).
-/

namespace CodingForFun.Lib

variable {K α : Type}

/-! ## Inserting into an ordered list -/

section splice

variable [LinearOrder K]

/-- `L'` is the ordered list `L` with `key` put in its place, where it was not yet. -/
def Spliced (L : List K) (key : K) (L' : List K) : Prop :=
  ∃ A B, L = A ++ B ∧ L' = A ++ key :: B ∧ (∀ a ∈ A, a < key) ∧ ∀ b ∈ B, key < b

namespace Spliced

variable {L L' : List K} {key : K}

theorem notMem (h : Spliced L key L') : key ∉ L := by
  obtain ⟨A, B, rfl, -, hA, hB⟩ := h
  intro hmem
  rcases List.mem_append.mp hmem with hmem | hmem
  · exact lt_irrefl key (hA key hmem)
  · exact lt_irrefl key (hB key hmem)

theorem perm (h : Spliced L key L') : L'.Perm (key :: L) := by
  obtain ⟨A, B, rfl, rfl, -, -⟩ := h
  exact List.perm_middle

theorem mem_iff (h : Spliced L key L') {x : K} : x ∈ L' ↔ x = key ∨ x ∈ L := by
  rw [h.perm.mem_iff, List.mem_cons]

theorem sorted (h : Spliced L key L') (hL : L.Pairwise (· < ·)) : L'.Pairwise (· < ·) := by
  obtain ⟨A, B, rfl, rfl, hA, hB⟩ := h
  obtain ⟨hA', hB', hAB⟩ := List.pairwise_append.mp hL
  refine List.pairwise_append.mpr ⟨hA', List.pairwise_cons.mpr ⟨hB, hB'⟩, fun a ha b hb => ?_⟩
  rcases List.mem_cons.mp hb with rfl | hb
  · exact hA a ha
  · exact hAB a ha b hb

theorem extend (h : Spliced L key L') {P S : List K} (hP : ∀ a ∈ P, a < key)
    (hS : ∀ b ∈ S, key < b) : Spliced (P ++ L ++ S) key (P ++ L' ++ S) := by
  obtain ⟨A, B, rfl, rfl, hA, hB⟩ := h
  refine ⟨P ++ A, B ++ S, by simp, by simp, fun a ha => ?_, fun b hb => ?_⟩
  · rcases List.mem_append.mp ha with ha | ha
    · exact hP a ha
    · exact hA a ha
  · rcases List.mem_append.mp hb with hb | hb
    · exact hB b hb
    · exact hS b hb

end Spliced

end splice

/-! ## The keys of a node between those of its children -/

/-- The lists `cs` with the keys `ks` between them. -/
def interleave : List K → List (List K) → List K
  | _, [] => []
  | [], c :: _ => c
  | k :: ks, c :: cs => c ++ k :: interleave ks cs

/-- Lists, each followed by a key. -/
def front (ks : List K) (cs : List (List K)) : List K :=
  (List.zipWith (fun k c => c ++ [k]) ks cs).flatten

/-- Keys, each followed by a list. -/
def back (ks : List K) (cs : List (List K)) : List K :=
  (List.zipWith (fun k c => k :: c) ks cs).flatten

@[simp] theorem front_nil (cs : List (List K)) : front [] cs = [] := by simp [front]

@[simp] theorem back_nil (cs : List (List K)) : back [] cs = [] := by simp [back]

@[simp] theorem front_cons (k : K) (ks : List K) (c : List K) (cs : List (List K)) :
    front (k :: ks) (c :: cs) = c ++ k :: front ks cs := by simp [front]

@[simp] theorem back_cons (k : K) (ks : List K) (c : List K) (cs : List (List K)) :
    back (k :: ks) (c :: cs) = k :: (c ++ back ks cs) := by simp [back]

theorem front_concat {ks : List K} {cs : List (List K)} (h : ks.length = cs.length) (k : K)
    (c : List K) : front (ks ++ [k]) (cs ++ [c]) = front ks cs ++ c ++ [k] := by
  rw [front, List.zipWith_append h, List.flatten_append]
  simp [front]

theorem interleave_cons (ks : List K) (c : List K) :
    ∀ cs : List (List K), cs.length = ks.length → interleave ks (c :: cs) = c ++ back ks cs := by
  induction ks generalizing c with
  | nil => intro cs _; simp [interleave]
  | cons k ks ih =>
    intro cs hcs
    cases cs with
    | nil => simp at hcs
    | cons c' cs =>
      rw [interleave, ih c' cs (by simpa using hcs), back_cons]

theorem interleave_middle (ks₂ : List K) (c : List K) (cs₂ : List (List K))
    (h₂ : cs₂.length = ks₂.length) :
    ∀ (ks₁ : List K) (cs₁ : List (List K)), cs₁.length = ks₁.length →
      interleave (ks₁ ++ ks₂) (cs₁ ++ c :: cs₂) = front ks₁ cs₁ ++ c ++ back ks₂ cs₂ := by
  intro ks₁
  induction ks₁ with
  | nil =>
    intro cs₁ h₁
    obtain rfl := List.length_eq_zero_iff.mp h₁
    simpa using interleave_cons ks₂ c cs₂ h₂
  | cons k ks₁ ih =>
    intro cs₁ h₁
    cases cs₁ with
    | nil => simp at h₁
    | cons c₁ cs₁ =>
      rw [List.cons_append, List.cons_append, interleave, ih cs₁ (by simpa using h₁), front_cons]
      simp

theorem interleave_append (k : K) (ks₂ : List K) (cs₂ : List (List K)) :
    ∀ (ks₁ : List K) (cs₁ : List (List K)), cs₁.length = ks₁.length + 1 →
      interleave (ks₁ ++ k :: ks₂) (cs₁ ++ cs₂) =
        interleave ks₁ cs₁ ++ k :: interleave ks₂ cs₂ := by
  intro ks₁
  induction ks₁ with
  | nil =>
    intro cs₁ h₁
    obtain ⟨c, rfl⟩ := List.length_eq_one_iff.mp h₁
    simp [interleave]
  | cons k₁ ks₁ ih =>
    intro cs₁ h₁
    cases cs₁ with
    | nil => simp at h₁
    | cons c₁ cs₁ =>
      rw [List.cons_append, List.cons_append, interleave, ih cs₁ (by simpa using h₁), interleave]
      simp

open scoped List in
theorem perm_interleave (ks : List K) :
    ∀ cs : List (List K), cs.length = ks.length + 1 → (interleave ks cs).Perm (ks ++ cs.flatten) := by
  induction ks with
  | nil =>
    intro cs hcs
    obtain ⟨c, rfl⟩ := List.length_eq_one_iff.mp hcs
    simp [interleave]
  | cons k ks ih =>
    intro cs hcs
    cases cs with
    | nil => simp at hcs
    | cons c cs =>
      rw [interleave, List.flatten_cons]
      have hrest := ih cs (by simpa using hcs)
      calc c ++ k :: interleave ks cs
        _ ~ k :: (c ++ interleave ks cs) := List.perm_middle
        _ ~ k :: (c ++ (ks ++ cs.flatten)) := (hrest.append_left c).cons k
        _ ~ k :: (ks ++ (c ++ cs.flatten)) := by
          apply List.Perm.cons k
          rw [← List.append_assoc, ← List.append_assoc]
          exact List.perm_append_comm.append_right _

section order

variable [LinearOrder K] {key : K}

theorem lt_of_mem_front :
    ∀ (ks : List K) (cs : List (List K)), (front ks cs).Pairwise (· < ·) → (∀ k ∈ ks, k < key) →
      ∀ a ∈ front ks cs, a < key := by
  intro ks
  induction ks with
  | nil => intro cs _ _ a ha; simp at ha
  | cons k ks ih =>
    intro cs hsorted hks a ha
    cases cs with
    | nil => simp [front] at ha
    | cons c cs =>
      rw [front_cons] at hsorted ha
      obtain ⟨-, hrest, hbelow⟩ := List.pairwise_append.mp hsorted
      have hk := hks k List.mem_cons_self
      rcases List.mem_append.mp ha with ha | ha
      · exact (hbelow a ha k List.mem_cons_self).trans hk
      · rcases List.mem_cons.mp ha with rfl | ha
        · exact hk
        · exact ih cs (List.pairwise_cons.mp hrest).2 (fun b hb => hks b (List.mem_cons_of_mem k hb)) a ha

theorem lt_of_mem_back :
    ∀ (ks : List K) (cs : List (List K)), (back ks cs).Pairwise (· < ·) → (∀ k ∈ ks, key < k) →
      ∀ b ∈ back ks cs, key < b := by
  intro ks
  induction ks with
  | nil => intro cs _ _ b hb; simp at hb
  | cons k ks ih =>
    intro cs hsorted hks b hb
    cases cs with
    | nil => simp [back] at hb
    | cons c cs =>
      rw [back_cons] at hsorted hb
      obtain ⟨habove, hrest⟩ := List.pairwise_cons.mp hsorted
      have hk := hks k List.mem_cons_self
      rcases List.mem_cons.mp hb with rfl | hb
      · exact hk
      · exact hk.trans (habove b hb)

end order

theorem subset_flatten_zipWith {piece : K → List K → List K} (hpiece : ∀ k c, k ∈ piece k c) :
    ∀ (ks : List K) (cs : List (List K)), cs.length = ks.length →
      ∀ k ∈ ks, k ∈ (List.zipWith piece ks cs).flatten := by
  intro ks
  induction ks with
  | nil => intro cs _ k hk; exact absurd hk List.not_mem_nil
  | cons k' ks ih =>
    intro cs hcs k hk
    cases cs with
    | nil => simp at hcs
    | cons c cs =>
      rw [List.zipWith_cons_cons, List.flatten_cons, List.mem_append]
      rcases List.mem_cons.mp hk with rfl | hk
      · exact Or.inl (hpiece k c)
      · exact Or.inr (ih cs (by simpa using hcs) k hk)

theorem subset_front (ks : List K) (cs : List (List K)) (h : cs.length = ks.length) :
    ∀ k ∈ ks, k ∈ front ks cs := subset_flatten_zipWith (fun k c => by simp) ks cs h

theorem subset_back (ks : List K) (cs : List (List K)) (h : cs.length = ks.length) :
    ∀ k ∈ ks, k ∈ back ks cs := subset_flatten_zipWith (fun k c => by simp) ks cs h

/-! ## Nodes and trees -/

/-- A node: its name, its keys and its children. -/
structure Node (K α : Type) where
  name : ℕ
  keys : List K
  kids : List α
  length_kids : kids.length = keys.length + 1

/-- A tree of the given depth; the trees of depth 0 have no nodes. -/
def BTree (K : Type) : ℕ → Type
  | 0 => Unit
  | d + 1 => Node K (BTree K d)

/-- What an insertion ends in. The number is the next unused name. -/
inductive Outcome (K α : Type)
  | duplicate
  | done (t : α) (next : ℕ)
  | split (left : α) (up : K) (right : α) (next : ℕ)

namespace Node

variable (t : Node K α) {i : ℕ}

/-- The keys of the node and of its children, in order. -/
def toList (f : α → List K) : List K := interleave t.keys (t.kids.map f)

/-- Child `i`. -/
def kid (i : ℕ) (h : i ≤ t.keys.length) : α := t.kids.get ⟨i, by rw [t.length_kids]; omega⟩

/-- The node with child `i` replaced. -/
def replace (i : ℕ) (c : α) : Node K α :=
  ⟨t.name, t.keys, t.kids.set i c, by rw [List.length_set, t.length_kids]⟩

/-- The node with child `i` replaced by two children and the key between them. -/
def spread (i : ℕ) (h : i ≤ t.keys.length) (l : α) (k : K) (r : α) : Node K α :=
  ⟨t.name, t.keys.take i ++ k :: t.keys.drop i, t.kids.take i ++ l :: r :: t.kids.drop (i + 1), by
    have := t.length_kids
    simp only [List.length_append, List.length_take, List.length_cons, List.length_drop]
    omega⟩

/-- The part of the node before key `s`. -/
def left (s : ℕ) (h : s < t.keys.length) : Node K α :=
  ⟨t.name, t.keys.take s, t.kids.take (s + 1), by
    have := t.length_kids
    simp only [List.length_take]
    omega⟩

/-- The part of the node after key `s`, with a name of its own. -/
def right (name s : ℕ) (h : s < t.keys.length) : Node K α :=
  ⟨name, t.keys.drop (s + 1), t.kids.drop (s + 1), by
    have := t.length_kids
    simp only [List.length_drop]
    omega⟩

theorem length_keys_spread (h : i ≤ t.keys.length) (l : α) (k : K) (r : α) :
    (t.spread i h l k r).keys.length = t.keys.length + 1 := by
  simp only [spread, List.length_append, List.length_take, List.length_cons, List.length_drop]
  omega

theorem half_lt_of_full {t : Node K α} {M : ℕ} (h : i ≤ t.keys.length) {l : α} {k : K} {r : α}
    (hfull : ¬ t.keys.length < M - 1) : (M - 1) / 2 < (t.spread i h l k r).keys.length := by
  rw [length_keys_spread]
  omega

theorem kid_mem (h : i ≤ t.keys.length) : t.kid i h ∈ t.kids := List.get_mem ..

theorem kids_eq (h : i ≤ t.keys.length) :
    t.kids = t.kids.take i ++ t.kid i h :: t.kids.drop (i + 1) := by
  have hlt : i < t.kids.length := by
    rw [t.length_kids]
    omega
  rw [kid, List.get_eq_getElem, ← List.drop_eq_getElem_cons hlt, List.take_append_drop]

theorem kids_replace (h : i ≤ t.keys.length) (c : α) :
    (t.replace i c).kids = t.kids.take i ++ c :: t.kids.drop (i + 1) := by
  have hlt : i < t.kids.length := by
    rw [t.length_kids]
    omega
  rw [replace]
  simp only
  rw [List.set_eq_take_append_cons_drop, if_pos hlt]

variable {t} {f : α → List K}

theorem interleave_around (h : i ≤ t.keys.length) (c : List K) :
    interleave (t.keys.take i ++ t.keys.drop i)
        ((t.kids.take i).map f ++ c :: (t.kids.drop (i + 1)).map f) =
      front (t.keys.take i) ((t.kids.take i).map f) ++ c ++
        back (t.keys.drop i) ((t.kids.drop (i + 1)).map f) := by
  have := t.length_kids
  apply interleave_middle
  · simp only [List.length_map, List.length_drop]
    omega
  · simp only [List.length_map, List.length_take]
    omega

theorem toList_eq (h : i ≤ t.keys.length) :
    t.toList f = front (t.keys.take i) ((t.kids.take i).map f) ++ f (t.kid i h) ++
      back (t.keys.drop i) ((t.kids.drop (i + 1)).map f) := by
  rw [← interleave_around h, List.take_append_drop, toList]
  have hkids : t.kids.map f =
      (t.kids.take i).map f ++ f (t.kid i h) :: (t.kids.drop (i + 1)).map f := by
    rw [← List.map_cons, ← List.map_append, ← t.kids_eq h]
  rw [hkids]

theorem toList_kid_subset (h : i ≤ t.keys.length) {x : K} (hx : x ∈ f (t.kid i h)) :
    x ∈ t.toList f := by
  rw [toList_eq h]
  exact List.mem_append_left _ (List.mem_append_right _ hx)

theorem kid_sorted [LinearOrder K] (hsorted : (t.toList f).Pairwise (· < ·))
    (h : i ≤ t.keys.length) : (f (t.kid i h)).Pairwise (· < ·) := by
  rw [toList_eq h] at hsorted
  exact (List.pairwise_append.mp (List.pairwise_append.mp hsorted).1).2.1

theorem between [LinearOrder K] (hsorted : (t.toList f).Pairwise (· < ·)) (h : i ≤ t.keys.length)
    {x : K} (hx : x ∈ f (t.kid i h)) : (∀ k ∈ t.keys.take i, k < x) ∧ ∀ k ∈ t.keys.drop i, x < k := by
  have hlength := t.length_kids
  rw [toList_eq h] at hsorted
  obtain ⟨hfront, -, hback⟩ := List.pairwise_append.mp hsorted
  obtain ⟨-, -, hfront⟩ := List.pairwise_append.mp hfront
  constructor
  · intro k hk
    refine hfront k (subset_front _ _ ?_ k hk) x hx
    simp only [List.length_map, List.length_take]
    omega
  · intro k hk
    refine hback x (List.mem_append_right _ hx) k (subset_back _ _ ?_ k hk)
    simp only [List.length_map, List.length_drop]
    omega

theorem toList_replace (h : i ≤ t.keys.length) (c : α) :
    (t.replace i c).toList f = front (t.keys.take i) ((t.kids.take i).map f) ++ f c ++
      back (t.keys.drop i) ((t.kids.drop (i + 1)).map f) := by
  rw [← interleave_around h, List.take_append_drop, toList, kids_replace t h, List.map_append,
    List.map_cons]
  rfl

theorem toList_spread (h : i ≤ t.keys.length) (l : α) (k : K) (r : α) :
    (t.spread i h l k r).toList f = front (t.keys.take i) ((t.kids.take i).map f) ++
      (f l ++ k :: f r) ++ back (t.keys.drop i) ((t.kids.drop (i + 1)).map f) := by
  have := t.length_kids
  rw [toList, spread]
  simp only [List.map_append, List.map_cons]
  rw [interleave_middle (k :: t.keys.drop i) (f l) (f r :: (t.kids.drop (i + 1)).map f), back_cons]
  · simp
  · simp only [List.length_cons, List.length_map, List.length_drop]
    omega
  · simp only [List.length_map, List.length_take]
    omega

theorem toList_split {s : ℕ} (h : s < t.keys.length) (name : ℕ) :
    t.toList f = (t.left s h).toList f ++ t.keys.get ⟨s, h⟩ :: (t.right name s h).toList f := by
  have := t.length_kids
  rw [toList, toList, toList, left, right]
  simp only
  rw [← interleave_append, ← List.map_append, List.take_append_drop, List.get_eq_getElem,
    ← List.drop_eq_getElem_cons h, List.take_append_drop]
  simp only [List.length_map, List.length_take]
  omega

end Node

/-! ## Insertion -/

section insertion

variable [LinearOrder K]

/-- How many keys at the front are below `key`. -/
def rank (key : K) (ks : List K) : ℕ := (ks.takeWhile fun k => decide (k < key)).length

theorem rank_le (key : K) (ks : List K) : rank key ks ≤ ks.length :=
  (List.takeWhile_prefix _).length_le

theorem lt_of_mem_take_rank {key : K} {ks : List K} : ∀ k ∈ ks.take (rank key ks), k < key := by
  intro k hk
  rw [rank, ← List.prefix_iff_eq_take.mp (List.takeWhile_prefix _)] at hk
  simpa using List.mem_takeWhile_imp hk

theorem lt_getElem_of_lt_rank {key : K} {ks : List K} {i : ℕ} (h : i < ks.length)
    (hi : i < rank key ks) : ks[i] < key :=
  lt_of_mem_take_rank _ (List.mem_take_iff_getElem.mpr ⟨i, by omega, rfl⟩)

theorem not_getElem_rank_lt {key : K} {ks : List K} (h : rank key ks < ks.length) :
    ¬ ks[rank key ks] < key := by
  induction ks with
  | nil => simp at h
  | cons a ks ih =>
    by_cases ha : a < key
    · have hrank : rank key (a :: ks) = rank key ks + 1 := by simp [rank, ha]
      simp only [hrank] at h ⊢
      simpa using ih (by simpa using h)
    · have hrank : rank key (a :: ks) = 0 := by simp [rank, ha]
      simp only [hrank]
      simpa using ha

theorem rank_append {key : K} {ks₁ ks₂ : List K} (h₁ : ∀ k ∈ ks₁, k < key) (h₂ : ∀ k ∈ ks₂, key < k) :
    rank key (ks₁ ++ ks₂) = ks₁.length := by
  have htake : ∀ k ∈ ks₁, decide (k < key) = true := fun k hk => decide_eq_true (h₁ k hk)
  rw [rank, List.takeWhile_append_of_pos htake]
  cases ks₂ with
  | nil => simp
  | cons k ks₂ =>
    have hk : ¬ k < key := (h₂ k List.mem_cons_self).le.not_gt
    simp [hk]

theorem lt_of_mem_drop_rank {key : K} {ks : List K} (hsorted : ks.Pairwise (· < ·))
    (hne : ks[rank key ks]? ≠ some key) : ∀ k ∈ ks.drop (rank key ks), key < k := by
  induction ks with
  | nil => intro k hk; simp at hk
  | cons a ks ih =>
    obtain ⟨habove, hsorted⟩ := List.pairwise_cons.mp hsorted
    by_cases ha : a < key
    · have hrank : rank key (a :: ks) = rank key ks + 1 := by simp [rank, ha]
      rw [hrank] at hne ⊢
      exact ih hsorted (by simpa using hne)
    · have hrank : rank key (a :: ks) = 0 := by simp [rank, ha]
      rw [hrank] at hne ⊢
      have hlt : key < a := lt_of_le_of_ne (not_lt.mp ha) fun heq => hne (by simp [heq])
      intro k hk
      rcases List.mem_cons.mp hk with rfl | hk
      · exact hlt
      · exact hlt.trans (habove k hk)

/-- The insertion of a key in a node, when `ins` inserts it in a child. A node that would hold `M`
keys is split at its middle key. -/
def Node.insertWith (M : ℕ) (ins : α → ℕ → Outcome K α) (t : Node K α) (key : K) (next : ℕ) :
    Outcome K (Node K α) :=
  if t.keys[rank key t.keys]? = some key then .duplicate
  else match ins (t.kid (rank key t.keys) (rank_le key t.keys)) next with
    | .duplicate => .duplicate
    | .done c next => .done (t.replace (rank key t.keys) c) next
    | .split l k r next =>
      let t' := t.spread (rank key t.keys) (rank_le key t.keys) l k r
      if h : t.keys.length < M - 1 then .done t' next
      else
        have hs : (M - 1) / 2 < t'.keys.length := Node.half_lt_of_full (rank_le key t.keys) h
        .split (t'.left _ hs) (t'.keys.get ⟨_, hs⟩) (t'.right next _ hs) (next + 1)

theorem Node.insertWith_cases {motive : Outcome K (Node K α) → Prop} {M : ℕ}
    {ins : α → ℕ → Outcome K α} {key : K} {next : ℕ} (t : Node K α)
    (found : t.keys[rank key t.keys]? = some key → motive .duplicate)
    (duplicate : t.keys[rank key t.keys]? ≠ some key →
      ins (t.kid _ (rank_le key t.keys)) next = .duplicate → motive .duplicate)
    (done : ∀ c next', t.keys[rank key t.keys]? ≠ some key →
      ins (t.kid _ (rank_le key t.keys)) next = .done c next' →
        motive (.done (t.replace (rank key t.keys) c) next'))
    (split : ∀ l k r next', t.keys[rank key t.keys]? ≠ some key →
      ins (t.kid _ (rank_le key t.keys)) next = .split l k r next' →
        (t.keys.length < M - 1 → motive (.done (t.spread _ (rank_le key t.keys) l k r) next')) ∧
        ∀ (_ : ¬ t.keys.length < M - 1)
          (hs : (M - 1) / 2 < (t.spread _ (rank_le key t.keys) l k r).keys.length),
          motive (.split ((t.spread _ (rank_le key t.keys) l k r).left _ hs)
            ((t.spread _ (rank_le key t.keys) l k r).keys.get ⟨_, hs⟩)
            ((t.spread _ (rank_le key t.keys) l k r).right next' _ hs) (next' + 1))) :
    motive (t.insertWith M ins key next) := by
  unfold insertWith
  by_cases hdup : t.keys[rank key t.keys]? = some key
  · rw [if_pos hdup]
    exact found hdup
  · rw [if_neg hdup]
    cases hout : ins (t.kid (rank key t.keys) (rank_le key t.keys)) next with
    | duplicate => exact duplicate hdup hout
    | done c next' => exact done c next' hdup hout
    | split l k r next' =>
      obtain ⟨hroom, hfull⟩ := split l k r next' hdup hout
      by_cases hlt : t.keys.length < M - 1
      · simp only [dif_pos hlt]
        exact hroom hlt
      · simp only [dif_neg hlt]
        exact hfull hlt _

/-! ### What it does to the keys -/

/-- The outcome has the keys `L` with `key` put in its place. -/
def Outcome.Inserts (f : α → List K) (L : List K) (key : K) : Outcome K α → Prop
  | .duplicate => key ∈ L
  | .done t _ => Spliced L key (f t)
  | .split l k r _ => Spliced L key (f l ++ k :: f r)

omit [LinearOrder K] in
theorem keys_subset_toList {t : Node K α} {f : α → List K} {k : K} (hk : k ∈ t.keys) :
    k ∈ t.toList f := by
  refine (perm_interleave t.keys (t.kids.map f) ?_).mem_iff.mpr (List.mem_append_left _ hk)
  rw [List.length_map, t.length_kids]

theorem keys_sorted {t : Node K α} {f : α → List K} (hsorted : (t.toList f).Pairwise (· < ·)) :
    t.keys.Pairwise (· < ·) := by
  have hsub : ∀ (ks : List K) (cs : List (List K)), cs.length = ks.length + 1 →
      ks.Sublist (interleave ks cs) := by
    intro ks
    induction ks with
    | nil => intro cs _; exact List.nil_sublist _
    | cons k ks ih =>
      intro cs hcs
      cases cs with
      | nil => simp at hcs
      | cons c cs =>
        rw [interleave]
        exact ((ih cs (by simpa using hcs)).cons_cons k).trans (List.sublist_append_right c _)
  exact hsorted.sublist (hsub _ _ (by rw [List.length_map, t.length_kids]))

theorem Node.insertWith_inserts {M : ℕ} {ins : α → ℕ → Outcome K α} {f : α → List K} {key : K}
    {next : ℕ} (t : Node K α) (hsorted : (t.toList f).Pairwise (· < ·))
    (hins : ∀ c ∈ t.kids, (f c).Pairwise (· < ·) → (ins c next).Inserts f (f c) key) :
    (t.insertWith M ins key next).Inserts (fun t => t.toList f) (t.toList f) key := by
  have hi := rank_le key t.keys
  have hsorted' := hsorted
  rw [toList_eq hi] at hsorted'
  obtain ⟨hfront, hback, -⟩ := List.pairwise_append.mp hsorted'
  obtain ⟨hfront, hkid, -⟩ := List.pairwise_append.mp hfront
  have hchild := hins _ (t.kid_mem hi) hkid
  -- What was put into the keys of the child was put into those of the node.
  have hextend : t.keys[rank key t.keys]? ≠ some key → ∀ {xs}, Spliced (f (t.kid _ hi)) key xs →
      Spliced (t.toList f) key (front (t.keys.take (rank key t.keys))
        ((t.kids.take (rank key t.keys)).map f) ++ xs ++ back (t.keys.drop (rank key t.keys))
          ((t.kids.drop (rank key t.keys + 1)).map f)) := by
    intro habsent xs hxs
    have hdrop := lt_of_mem_drop_rank (keys_sorted hsorted) habsent
    rw [toList_eq hi]
    exact hxs.extend (lt_of_mem_front _ _ hfront lt_of_mem_take_rank) (lt_of_mem_back _ _ hback hdrop)
  refine t.insertWith_cases ?_ ?_ ?_ ?_
  · intro hfound
    exact keys_subset_toList (List.mem_of_getElem? hfound)
  · intro _ hout
    rw [hout] at hchild
    show key ∈ t.toList f
    rw [toList_eq hi]
    exact List.mem_append_left _ (List.mem_append_right _ hchild)
  · intro c next' habsent hout
    rw [hout] at hchild
    simp only [Outcome.Inserts]
    rw [toList_replace hi]
    exact hextend habsent hchild
  · intro l k r next' habsent hout
    rw [hout] at hchild
    have hspread := hextend habsent hchild
    rw [← toList_spread hi] at hspread
    refine ⟨fun _ => hspread, fun _ hs => ?_⟩
    rwa [toList_split hs next'] at hspread

namespace BTree

/-- The keys in order. -/
def toList : (d : ℕ) → BTree K d → List K
  | 0, _ => []
  | d + 1, t => Node.toList t (toList d)

/-- The insertion of a key. -/
def ins (M : ℕ) (key : K) : (d : ℕ) → BTree K d → ℕ → Outcome K (BTree K d)
  | 0, t, next => .split t key t next
  | d + 1, t, next => Node.insertWith M (ins M key d) t key next

theorem ins_inserts (M : ℕ) (key : K) :
    ∀ (d : ℕ) (t : BTree K d) (next : ℕ), (toList d t).Pairwise (· < ·) →
      (ins M key d t next).Inserts (toList d) (toList d t) key := by
  intro d
  induction d with
  | zero => intro t next _; exact ⟨[], [], rfl, rfl, by simp, by simp⟩
  | succ d ih =>
    intro t next hsorted
    exact Node.insertWith_inserts t hsorted fun c _ hc => ih c next hc

end BTree

/-! ### What it does to the number of keys -/

/-- The new trees satisfy `P`, those of a split satisfy `Q`. -/
def Outcome.All (P Q : α → Prop) : Outcome K α → Prop
  | .duplicate => True
  | .done t _ => P t
  | .split l _ r _ => Q l ∧ Q r

/-- Between `lo` and `M - 1` keys, and children that satisfy `P`. -/
def Node.Bounded (M lo : ℕ) (P : α → Prop) (t : Node K α) : Prop :=
  lo ≤ t.keys.length ∧ t.keys.length ≤ M - 1 ∧ ∀ c ∈ t.kids, P c

theorem Node.insertWith_bounded {M lo : ℕ} {ins : α → ℕ → Outcome K α} {P : α → Prop} {key : K}
    {next : ℕ} (t : Node K α) (h : t.Bounded M lo P)
    (hins : ∀ c ∈ t.kids, (ins c next).All P P) :
    (t.insertWith M ins key next).All (Bounded M lo P) (Bounded M ((M - 1) / 2) P) := by
  obtain ⟨hlo, hhi, hkids⟩ := h
  have hi := rank_le key t.keys
  have hchild := hins _ (t.kid_mem hi)
  refine t.insertWith_cases (fun _ => trivial) (fun _ _ => trivial) ?_ ?_
  · intro c next' _ hout
    rw [hout] at hchild
    refine ⟨hlo, hhi, fun a ha => ?_⟩
    rcases List.mem_or_eq_of_mem_set ha with ha | rfl
    · exact hkids a ha
    · exact hchild
  · intro l k r next' _ hout
    rw [hout] at hchild
    obtain ⟨hl, hr⟩ := hchild
    have hspread : ∀ a ∈ (t.spread _ hi l k r).kids, P a := by
      intro a ha
      simp only [spread, List.mem_append, List.mem_cons] at ha
      rcases ha with ha | rfl | rfl | ha
      · exact hkids a (List.mem_of_mem_take ha)
      · exact hl
      · exact hr
      · exact hkids a (List.mem_of_mem_drop ha)
    have hlength := t.length_keys_spread hi l k r
    constructor
    · intro hroom
      exact ⟨by omega, by omega, hspread⟩
    · intro hfull hs
      refine ⟨⟨?_, ?_, fun a ha => hspread a (List.mem_of_mem_take ha)⟩, ?_, ?_,
        fun a ha => hspread a (List.mem_of_mem_drop ha)⟩
      · simp only [left, List.length_take]
        omega
      · simp only [left, List.length_take]
        omega
      · simp only [right, List.length_drop]
        omega
      · simp only [right, List.length_drop]
        omega

namespace BTree

/-- The root has between `lo` and `M - 1` keys, all other nodes at least `(M - 1) / 2`. -/
def Balanced (M : ℕ) : (lo d : ℕ) → BTree K d → Prop
  | _, 0, _ => True
  | lo, d + 1, t => Node.Bounded M lo (Balanced M ((M - 1) / 2) d) t

theorem ins_balances (M : ℕ) (key : K) :
    ∀ (d lo : ℕ) (t : BTree K d) (next : ℕ), Balanced M lo d t →
      (ins M key d t next).All (Balanced M lo d) (Balanced M ((M - 1) / 2) d) := by
  intro d
  induction d with
  | zero => intro lo t next _; exact ⟨trivial, trivial⟩
  | succ d ih =>
    intro lo t next h
    exact Node.insertWith_bounded t h fun c hc => ih _ c next (h.2.2 c hc)

end BTree

/-! ### What it does to the names -/

/-- The names `N`, those of `g` applied to the outcome, and the names from `next` on that were used. -/
def Outcome.Renames (g : α → List ℕ) (N : List ℕ) (next : ℕ) : Outcome K α → Prop
  | .duplicate => True
  | .done t next' => next ≤ next' ∧ (g t).Perm (N ++ List.range' next (next' - next))
  | .split l _ r next' => next ≤ next' ∧ (g l ++ g r).Perm (N ++ List.range' next (next' - next))

/-- The names of a node and of its children. -/
def Node.names (t : Node K α) (g : α → List ℕ) : List ℕ := t.name :: t.kids.flatMap g

omit [LinearOrder K] in
theorem Node.count_names_kids {t : Node K α} {g : α → List ℕ} {i : ℕ} (hi : i ≤ t.keys.length)
    (a : ℕ) : (t.kids.flatMap g).count a = ((t.kids.take i).flatMap g).count a +
      ((g (t.kid i hi)).count a + ((t.kids.drop (i + 1)).flatMap g).count a) := by
  have hkids := congrArg (List.flatMap g) (t.kids_eq hi)
  rw [List.flatMap_append, List.flatMap_cons] at hkids
  rw [hkids, List.count_append, List.count_append]

theorem Node.insertWith_renames {M : ℕ} {ins : α → ℕ → Outcome K α} {g : α → List ℕ} {key : K}
    {next : ℕ} (t : Node K α) (hins : ∀ c ∈ t.kids, (ins c next).Renames g (g c) next) :
    (t.insertWith M ins key next).Renames (fun t => t.names g) (t.names g) next := by
  have hi := rank_le key t.keys
  have hchild := hins _ (t.kid_mem hi)
  refine t.insertWith_cases (fun _ => trivial) (fun _ _ => trivial) ?_ ?_
  · intro c next' _ hout
    rw [hout] at hchild
    obtain ⟨hle, hperm⟩ := hchild
    refine ⟨hle, List.perm_iff_count.mpr fun a => ?_⟩
    have hcount := hperm.count_eq a
    have hkids := Node.count_names_kids (g := g) hi a
    simp only [names, kids_replace t hi, List.flatMap_append, List.flatMap_cons, List.count_cons,
      List.count_append] at hcount hkids ⊢
    show _ + (if t.name == a then 1 else 0) = _
    omega
  · intro l k r next' _ hout
    rw [hout] at hchild
    obtain ⟨hle, hperm⟩ := hchild
    have hspread : ∀ a, ((t.spread _ hi l k r).kids.flatMap g).count a =
        (t.kids.flatMap g).count a + (List.range' next (next' - next)).count a := by
      intro a
      have hcount := hperm.count_eq a
      have hkids := Node.count_names_kids (g := g) hi a
      simp only [spread, List.flatMap_append, List.flatMap_cons, List.count_append]
        at hcount hkids ⊢
      omega
    constructor
    · intro hroom
      refine ⟨hle, List.perm_iff_count.mpr fun a => ?_⟩
      have hkids := hspread a
      simp only [names, List.count_cons, List.count_append]
      show _ + (if t.name == a then 1 else 0) = _
      omega
    · intro hfull hs
      refine ⟨by omega, List.perm_iff_count.mpr fun a => ?_⟩
      have hkids := hspread a
      rw [← List.take_append_drop ((M - 1) / 2 + 1) (t.spread _ hi l k r).kids,
        List.flatMap_append, List.count_append] at hkids
      have hrange : List.range' next (next' + 1 - next) =
          List.range' next (next' - next) ++ [next'] := by
        rw [Nat.succ_sub hle, List.range'_concat]
        rw [Nat.one_mul, Nat.add_sub_cancel' hle]
      simp only [names, left, right, hrange, List.count_cons, List.count_append, List.count_nil]
      show (_ + (if t.name == a then 1 else 0)) + _ = _
      omega

namespace BTree

/-- The names of the nodes. -/
def names : (d : ℕ) → BTree K d → List ℕ
  | 0, _ => []
  | d + 1, t => Node.names t (names d)

theorem ins_renames (M : ℕ) (key : K) :
    ∀ (d : ℕ) (t : BTree K d) (next : ℕ), (ins M key d t next).Renames (names d) (names d t) next := by
  intro d
  induction d with
  | zero => intro t next; exact ⟨le_rfl, by simp [names]⟩
  | succ d ih =>
    intro t next
    exact Node.insertWith_renames t fun c _ => ih c next

end BTree

end insertion

end CodingForFun.Lib
