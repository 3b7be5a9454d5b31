import CodingForFun.Lib.Memory
import CodingForFun.Lib.SearchTree

/-!
# Search trees on the heap

For records with a left link, a right link and a key (`TreeNode`), `IsTree p t` says that the links lead
from `p` over the nodes of `t`, written down with their keys.

A loop that goes down from node to node on the side on which a key belongs (`Descends`) comes to the node
with the key if there is one (`Descends.found`), and to the node below which it belongs if there is none
(`Descends.missing`). A store to that node only is the insertion into the tree (`MissingAt`).
-/

namespace CodingForFun.Lib

/-- Records with two links and a key. -/
class TreeNode (N : Type) (K : outParam Type) where
  left : N → Option ℕ
  right : N → Option ℕ
  key : N → K
  setLeft : N → Option ℕ → N
  setRight : N → Option ℕ → N
  left_setLeft (n : N) (q : Option ℕ) : left (setLeft n q) = q
  right_setLeft (n : N) (q : Option ℕ) : right (setLeft n q) = right n
  key_setLeft (n : N) (q : Option ℕ) : key (setLeft n q) = key n
  left_setRight (n : N) (q : Option ℕ) : left (setRight n q) = left n
  right_setRight (n : N) (q : Option ℕ) : right (setRight n q) = q
  key_setRight (n : N) (q : Option ℕ) : key (setRight n q) = key n

namespace Memory

open TreeNode SearchTree

variable {N K : Type}

/-- The addresses of the nodes of a tree. -/
def addresses (t : BinaryTree (ℕ × K)) : List ℕ := (inorder t).map Prod.fst

section addresses

variable {x : ℕ × K} {l r t : BinaryTree (ℕ × K)} {a : ℕ}

theorem mem_addresses (h : x ∈ inorder t) : x.1 ∈ addresses t := List.mem_map_of_mem h

theorem mem_addresses_node :
    a ∈ addresses (.node x l r) ↔ a = x.1 ∨ a ∈ addresses l ∨ a ∈ addresses r := by
  simp only [addresses, inorder_node, List.map_append, List.map_cons, List.mem_append, List.mem_cons]
  exact or_left_comm

theorem nodup_addresses_node (h : (addresses (.node x l r)).Nodup) :
    x.1 ∉ addresses l ∧ x.1 ∉ addresses r ∧ (∀ a ∈ addresses l, a ∉ addresses r) ∧
      (addresses l).Nodup ∧ (addresses r).Nodup := by
  rw [addresses, inorder_node, List.map_append, List.map_cons, List.nodup_append, List.nodup_cons] at h
  obtain ⟨hl, ⟨hxr, hr⟩, hcross⟩ := h
  refine ⟨fun hx => hcross x.1 hx x.1 List.mem_cons_self rfl, hxr, ?_, hl, hr⟩
  intro a ha ha'
  exact hcross a ha a (List.mem_cons_of_mem _ ha') rfl

end addresses

variable [TreeNode N K]

/-- The links lead from `p` over the nodes of the tree, which have its keys. -/
def IsTree (m : Memory N) : Option ℕ → BinaryTree (ℕ × K) → Prop
  | p, .nil => p = none
  | p, .node x l r => p = some x.1 ∧ ∃ n, m.node x.1 = some n ∧ key n = x.2 ∧
      IsTree m (left n) l ∧ IsTree m (right n) r

/-- The links lead from `p` to the node at an address. -/
inductive Reaches (m : Memory N) : Option ℕ → ℕ → Prop
  | here (a : ℕ) : Reaches m (some a) a
  | left {a b : ℕ} {n : N} (hn : m.node a = some n) (h : Reaches m (left n) b) :
      Reaches m (some a) b
  | right {a b : ℕ} {n : N} (hn : m.node a = some n) (h : Reaches m (right n) b) :
      Reaches m (some a) b

variable {m m' : Memory N} {p q : Option ℕ} {t l r : BinaryTree (ℕ × K)} {x : ℕ × K} {a b : ℕ} {k : K}
  {n : N}

theorem Reaches.alloc (h : m.Reaches p a) (n : N) : (m.alloc n).Reaches p a := by
  induction h with
  | here a => exact .here a
  | left hn _ ih => exact .left (alloc_of_some hn) ih
  | right hn _ ih => exact .right (alloc_of_some hn) ih

theorem Reaches.erase (h : m.Reaches p a) : (m.erase a).Reaches p a := by
  induction h with
  | here a => exact .here a
  | @left b a n hn _ ih =>
    by_cases hba : b = a
    · exact hba ▸ .here b
    · exact .left ((erase_of_ne hba).trans hn) ih
  | @right b a n hn _ ih =>
    by_cases hba : b = a
    · exact hba ▸ .here b
    · exact .right ((erase_of_ne hba).trans hn) ih

theorem IsTree.eq_none_iff (h : m.IsTree p t) : p = none ↔ t = .nil := by
  cases t with
  | nil => exact iff_of_true h rfl
  | node x l r => simp [h.1]

theorem IsTree.node (h : m.IsTree p t) (hx : x ∈ inorder t) :
    ∃ n, m.node x.1 = some n ∧ key n = x.2 := by
  induction t generalizing p with
  | nil => simp at hx
  | node y l r ihl ihr =>
    obtain ⟨-, n, hn, hk, hl, hr⟩ := h
    rcases mem_inorder_node.mp hx with rfl | hx | hx
    · exact ⟨n, hn, hk⟩
    · exact ihl hl hx
    · exact ihr hr hx

theorem IsTree.walk_ok {β : Type} (walk : ℕ → Option ℕ → Except Fault β) (visit : BinaryTree (ℕ × K) → β)
    (hnil : ∀ fuel, walk (fuel + 1) none = .ok (visit .nil))
    (hnode : ∀ fuel n x l r, m.node x.1 = some n → key n = x.2 → walk fuel (left n) = .ok (visit l) →
      walk fuel (right n) = .ok (visit r) → walk (fuel + 1) (some x.1) = .ok (visit (.node x l r)))
    {fuel : ℕ} (h : m.IsTree p t) (hfuel : (inorder t).length < fuel) : walk fuel p = .ok (visit t) := by
  induction t generalizing p fuel with
  | nil =>
    obtain ⟨fuel, rfl⟩ := Nat.exists_eq_succ_of_ne_zero (Nat.ne_zero_of_lt hfuel)
    obtain rfl : p = none := h
    exact hnil fuel
  | node x l r ihl ihr =>
    obtain ⟨fuel, rfl⟩ := Nat.exists_eq_succ_of_ne_zero (Nat.ne_zero_of_lt hfuel)
    obtain ⟨rfl, n, hn, hk, hl, hr⟩ := h
    rw [inorder_node, List.length_append, List.length_cons] at hfuel
    exact hnode fuel n x l r hn hk (ihl hl (by omega)) (ihr hr (by omega))

theorem IsTree.lt_fresh (h : m.IsTree p t) (ha : a ∈ addresses t) : a < m.fresh := by
  obtain ⟨x, hx, rfl⟩ := List.mem_map.mp ha
  obtain ⟨n, hn, -⟩ := h.node hx
  exact Memory.lt_fresh hn

theorem IsTree.congr (h : m.IsTree p t) (ht : ∀ a ∈ addresses t, m'.node a = m.node a) :
    m'.IsTree p t := by
  induction t generalizing p with
  | nil => exact h
  | node x l r ihl ihr =>
    obtain ⟨hp, n, hn, hk, hl, hr⟩ := h
    refine ⟨hp, n, ?_, hk, ihl hl fun a ha => ?_, ihr hr fun a ha => ?_⟩
    · rw [ht x.1 (mem_addresses_node.mpr (.inl rfl)), hn]
    · exact ht a (mem_addresses_node.mpr (.inr (.inl ha)))
    · exact ht a (mem_addresses_node.mpr (.inr (.inr ha)))

theorem IsTree.alloc (h : m.IsTree p t) (n : N) : (m.alloc n).IsTree p t := by
  apply h.congr
  intro a ha
  exact alloc_of_ne (h.lt_fresh ha).ne

theorem IsTree.update (h : m.IsTree p t) (ha : a ∉ addresses t) (f : N → N) :
    (m.update a f).IsTree p t := by
  apply h.congr
  intro b hb
  exact update_of_ne (ne_of_mem_of_not_mem hb ha)

theorem IsTree.unique {t' : BinaryTree (ℕ × K)} (h : m.IsTree p t) (h' : m.IsTree p t') : t = t' := by
  induction t generalizing p t' with
  | nil => exact (h'.eq_none_iff.mp h).symm
  | node x l r ihl ihr =>
    obtain ⟨rfl, n, hn, hk, hl, hr⟩ := h
    cases t' with
    | nil => exact absurd h' (Option.some_ne_none x.1)
    | node y l' r' =>
      obtain ⟨hxy, n', hn', hk', hl', hr'⟩ := h'
      have hxy := Option.some.inj hxy
      rw [← hxy, hn] at hn'
      obtain rfl := Option.some.inj hn'
      have hsame : x = y := Prod.ext hxy (hk.symm.trans hk')
      rw [hsame, ihl hl hl', ihr hr hr']

theorem IsTree.reaches_iff (h : m.IsTree p t) : m.Reaches p a ↔ a ∈ addresses t := by
  constructor
  · intro hreach
    induction hreach generalizing t with
    | here a =>
      cases t with
      | nil => exact absurd h (Option.some_ne_none a)
      | node x l r => exact mem_addresses_node.mpr (.inl (Option.some.inj h.1))
    | @left b a n hn _ ih =>
      cases t with
      | nil => exact absurd h (Option.some_ne_none b)
      | node x l r =>
        obtain ⟨hb, n', hn', -, hl, -⟩ := h
        rw [← Option.some.inj hb, hn] at hn'
        obtain rfl := Option.some.inj hn'
        exact mem_addresses_node.mpr (.inr (.inl (ih hl)))
    | @right b a n hn _ ih =>
      cases t with
      | nil => exact absurd h (Option.some_ne_none b)
      | node x l r =>
        obtain ⟨hb, n', hn', -, -, hr⟩ := h
        rw [← Option.some.inj hb, hn] at hn'
        obtain rfl := Option.some.inj hn'
        exact mem_addresses_node.mpr (.inr (.inr (ih hr)))
  · intro ha
    induction t generalizing p with
    | nil => simp [addresses] at ha
    | node x l r ihl ihr =>
      obtain ⟨rfl, n, hn, -, hl, hr⟩ := h
      rcases mem_addresses_node.mp ha with rfl | ha | ha
      · exact .here _
      · exact .left hn (ihl hl ha)
      · exact .right hn (ihr hr ha)

/-! ### Search trees -/

variable [LinearOrder K]

theorem IsTree.nodup (h : m.IsTree p t) (ho : Ordered Prod.snd t) : (addresses t).Nodup := by
  apply List.pairwise_map.mpr
  apply ho.pairwise.imp_of_mem
  intro x y hx hy hlt hxy
  obtain ⟨n, hn, hk⟩ := h.node hx
  obtain ⟨n', hn', hk'⟩ := h.node hy
  rw [hxy, hn'] at hn
  obtain rfl := Option.some.inj hn
  exact absurd hlt (hk.symm.trans hk').not_lt

theorem IsTree.length_le (h : m.IsTree p t) (ho : Ordered Prod.snd t) :
    (inorder t).length ≤ m.fresh := by
  rw [← List.length_map (f := Prod.fst)]
  apply length_le_fresh (h.nodup ho)
  intro a ha
  exact h.lt_fresh ha

/-- A loop, cut off after some rounds, that goes from node to node on the side on which the key `k`
belongs. -/
structure Descends {β : Type} (loop : ℕ → Memory N → Option ℕ → β) (k : K) : Prop where
  goLeft (fuel : ℕ) {m : Memory N} {a : ℕ} {n : N} (hn : m.node a = some n) (hlt : k < key n)
    (hl : left n ≠ none) : loop (fuel + 1) m (some a) = loop fuel m (left n)
  goRight (fuel : ℕ) {m : Memory N} {a : ℕ} {n : N} (hn : m.node a = some n) (hlt : key n < k)
    (hr : right n ≠ none) : loop (fuel + 1) m (some a) = loop fuel m (right n)

/-- The node with a link to the node at `a` on the side on which `k` belongs. -/
def attach (k : K) (a : ℕ) (n : N) : N :=
  if k < key n then setLeft n (some a) else setRight n (some a)

/-- The side on which `k` belongs is free. -/
def Free (k : K) (n : N) : Prop := (k < key n ∧ left n = none) ∨ (key n < k ∧ right n = none)

/-- The key `k` belongs below the node at `b`, on a side that is free: with a link to a new node stored
there, it is in the tree. -/
structure MissingAt (m : Memory N) (p : Option ℕ) (t : BinaryTree (ℕ × K)) (k : K) (b : ℕ) : Prop where
  mem : b ∈ addresses t
  free : ∃ n, m.node b = some n ∧ Free k n
  insert : ∀ a, m.IsTree (some a) (.node (a, k) .nil .nil) → a ∉ addresses t →
    (m.update b (attach k a)).IsTree p (insert Prod.snd (a, k) t)

theorem IsTree.missingAt_here_left (h : m.IsTree p (.node x .nil r)) (hlt : k < x.2)
    (hr : x.1 ∉ addresses r) : m.MissingAt p (.node x .nil r) k x.1 := by
  obtain ⟨hp, n, hn, hx, hleft, hright⟩ := h
  rw [← hx] at hlt
  refine ⟨mem_addresses_node.mpr (.inl rfl), ⟨n, hn, .inl ⟨hlt, hleft⟩⟩, ?_⟩
  intro a ha hfresh
  rw [mem_addresses_node, not_or] at hfresh
  rw [insert_left (hx ▸ hlt), insert_nil]
  refine ⟨hp, attach k a n, ?_, ?_, ?_, ?_⟩
  · rw [update_self, hn]
    rfl
  · rw [attach, if_pos hlt, key_setLeft, hx]
  · rw [attach, if_pos hlt, left_setLeft]
    exact ha.update (by simpa [addresses] using Ne.symm hfresh.1) _
  · rw [attach, if_pos hlt, right_setLeft]
    exact hright.update hr _

theorem IsTree.missingAt_here_right (h : m.IsTree p (.node x l .nil)) (hlt : x.2 < k)
    (hl : x.1 ∉ addresses l) : m.MissingAt p (.node x l .nil) k x.1 := by
  obtain ⟨hp, n, hn, hx, hleft, hright⟩ := h
  rw [← hx] at hlt
  refine ⟨mem_addresses_node.mpr (.inl rfl), ⟨n, hn, .inr ⟨hlt, hright⟩⟩, ?_⟩
  intro a ha hfresh
  rw [mem_addresses_node, not_or] at hfresh
  rw [insert_right (hx ▸ hlt), insert_nil]
  refine ⟨hp, attach k a n, ?_, ?_, ?_, ?_⟩
  · rw [update_self, hn]
    rfl
  · rw [attach, if_neg hlt.asymm, key_setRight, hx]
  · rw [attach, if_neg hlt.asymm, left_setRight]
    exact hleft.update hl _
  · rw [attach, if_neg hlt.asymm, right_setRight]
    exact ha.update (by simpa [addresses] using Ne.symm hfresh.1) _

theorem MissingAt.left (hb : m.MissingAt (left n) l k b) (h : m.IsTree p (.node x l r))
    (hn : m.node x.1 = some n) (hlt : k < x.2) (hnodup : (addresses (.node x l r)).Nodup) :
    m.MissingAt p (.node x l r) k b := by
  obtain ⟨hp, n', hn', hx, -, hr⟩ := h
  obtain rfl := Option.some.inj (hn.symm.trans hn')
  obtain ⟨hxl, -, hlr, -, -⟩ := nodup_addresses_node hnodup
  refine ⟨mem_addresses_node.mpr (.inr (.inl hb.mem)), hb.free, ?_⟩
  intro a ha hfresh
  rw [mem_addresses_node, not_or, not_or] at hfresh
  rw [insert_left hlt]
  have hxb : x.1 ≠ b := (ne_of_mem_of_not_mem hb.mem hxl).symm
  exact ⟨hp, n, (update_of_ne hxb).trans hn, hx, hb.insert a ha hfresh.2.1, hr.update (hlr b hb.mem) _⟩

theorem MissingAt.right (hb : m.MissingAt (right n) r k b) (h : m.IsTree p (.node x l r))
    (hn : m.node x.1 = some n) (hlt : x.2 < k) (hnodup : (addresses (.node x l r)).Nodup) :
    m.MissingAt p (.node x l r) k b := by
  obtain ⟨hp, n', hn', hx, hl, -⟩ := h
  obtain rfl := Option.some.inj (hn.symm.trans hn')
  obtain ⟨-, hxr, hlr, -, -⟩ := nodup_addresses_node hnodup
  refine ⟨mem_addresses_node.mpr (.inr (.inr hb.mem)), hb.free, ?_⟩
  intro a ha hfresh
  rw [mem_addresses_node, not_or, not_or] at hfresh
  rw [insert_right hlt]
  have hxb : x.1 ≠ b := (ne_of_mem_of_not_mem hb.mem hxr).symm
  have hbl : b ∉ addresses l := fun hmem => hlr b hmem hb.mem
  exact ⟨hp, n, (update_of_ne hxb).trans hn, hx, hl.update hbl _, hb.insert a ha hfresh.2.2⟩

section descends

variable {β : Type} {loop : ℕ → Memory N → Option ℕ → β}

theorem Descends.found (hloop : Descends loop k) (hx : x ∈ inorder t) (hxk : x.2 = k) :
    ∀ (fuel : ℕ) {p : Option ℕ}, m.IsTree p t → Ordered Prod.snd t → (inorder t).length ≤ fuel →
      ∃ fuel', loop fuel m p = loop (fuel' + 1) m (some x.1) := by
  induction t with
  | nil => simp at hx
  | node y l r ihl ihr =>
    intro fuel p h ho hfuel
    obtain ⟨rfl, n, hn, hk, hl, hr⟩ := h
    rw [inorder_node, List.length_append, List.length_cons] at hfuel
    obtain ⟨fuel, rfl⟩ := Nat.exists_eq_succ_of_ne_zero (show fuel ≠ 0 by omega)
    rcases mem_inorder_node.mp hx with rfl | hx | hx
    · exact ⟨fuel, rfl⟩
    · have hlt : k < key n := by
        rw [hk, ← hxk]
        exact ho.1 x hx
      have hsome : left n ≠ none := by
        rw [ne_eq, hl.eq_none_iff]
        rintro rfl
        simp at hx
      obtain ⟨fuel', hrun⟩ := ihl hx fuel hl ho.2.2.1 (by omega)
      exact ⟨fuel', (hloop.goLeft fuel hn hlt hsome).trans hrun⟩
    · have hlt : key n < k := by
        rw [hk, ← hxk]
        exact ho.2.1 x hx
      have hsome : right n ≠ none := by
        rw [ne_eq, hr.eq_none_iff]
        rintro rfl
        simp at hx
      obtain ⟨fuel', hrun⟩ := ihr hx fuel hr ho.2.2.2 (by omega)
      exact ⟨fuel', (hloop.goRight fuel hn hlt hsome).trans hrun⟩

theorem Descends.missing (hloop : Descends loop k) (hk : ∀ x ∈ inorder t, x.2 ≠ k) :
    ∀ (fuel : ℕ) {p : Option ℕ}, m.IsTree p t → t ≠ .nil → (addresses t).Nodup →
      (inorder t).length ≤ fuel →
      ∃ fuel' b, loop (fuel + 1) m p = loop (fuel' + 2) m (some b) ∧ m.MissingAt p t k b := by
  induction t with
  | nil => exact fun _ _ _ hne => absurd rfl hne
  | node x l r ihl ihr =>
    intro fuel p h _ hnodup hfuel
    obtain ⟨hxl, hxr, -, hnodupl, hnodupr⟩ := nodup_addresses_node hnodup
    obtain ⟨rfl, n, hn, hx, hl, hr⟩ := id h
    rw [inorder_node, List.length_append, List.length_cons] at hfuel
    obtain ⟨fuel, rfl⟩ := Nat.exists_eq_succ_of_ne_zero (show fuel ≠ 0 by omega)
    rcases lt_trichotomy k x.2 with hlt | heq | hgt
    · by_cases hnil : l = .nil
      · subst hnil
        exact ⟨fuel, x.1, rfl, h.missingAt_here_left hlt hxr⟩
      · have hk' : ∀ y ∈ inorder l, y.2 ≠ k := fun y hy => hk y (mem_inorder_node.mpr (.inr (.inl hy)))
        obtain ⟨fuel', b, hrun, hb⟩ := ihl hk' fuel hl hnil hnodupl (by omega)
        refine ⟨fuel', b, ?_, hb.left h hn hlt hnodup⟩
        exact (hloop.goLeft _ hn (hx ▸ hlt) fun hnone => hnil (hl.eq_none_iff.mp hnone)).trans hrun
    · exact absurd heq.symm (hk x (mem_inorder_node.mpr (.inl rfl)))
    · by_cases hnil : r = .nil
      · subst hnil
        exact ⟨fuel, x.1, rfl, h.missingAt_here_right hgt hxl⟩
      · have hk' : ∀ y ∈ inorder r, y.2 ≠ k := fun y hy => hk y (mem_inorder_node.mpr (.inr (.inr hy)))
        obtain ⟨fuel', b, hrun, hb⟩ := ihr hk' fuel hr hnil hnodupr (by omega)
        refine ⟨fuel', b, ?_, hb.right h hn hgt hnodup⟩
        exact (hloop.goRight _ hn (hx ▸ hgt) fun hnone => hnil (hr.eq_none_iff.mp hnone)).trans hrun

end descends

end Memory

end CodingForFun.Lib
