import CodingForFun.Lib.Chain

/-!
# Doubly linked lists in memory

`Links next prev p l q` says that the nodes `l` are linked in both directions, the first one back to
`p` and the last one on to `q`. With both ends `none` this is a list that ends (`LinkLine`), and with each
end the node at the other one it is a ring (`LinkRing`).

Read with the two link functions exchanged, the same nodes are linked in the opposite order
(`links_reverse`), so a list is reversed by exchanging the two links of each of its nodes. New nodes
come in by changing the two ends (`Links.relink`), and where a ring starts does not matter
(`LinkRing.rotate`).
-/

namespace CodingForFun.Lib

variable {A : Type}

/-- The nodes `l` are linked in both directions, between `p` and `q`. -/
def Links (next prev : A → Option A) : Option A → List A → Option A → Prop
  | _, [], _ => True
  | p, a :: l, q => prev a = p ∧ next a = l.head?.or q ∧ Links next prev (some a) l q

/-- A doubly linked list that ends on both sides. -/
def LinkLine (next prev : A → Option A) (l : List A) : Prop := Links next prev none l none

/-- A doubly linked ring, written down from one of its nodes on. -/
def LinkRing (next prev : A → Option A) (l : List A) : Prop := Links next prev l.getLast? l l.head?

section links

variable {next prev next' prev' : A → Option A} {p q p' q' : Option A} {l l₁ l₂ : List A} {a b : A}

@[simp] theorem links_nil : Links next prev p [] q ↔ True := Iff.rfl

@[simp] theorem links_cons : Links next prev p (a :: l) q ↔
    prev a = p ∧ next a = l.head?.or q ∧ Links next prev (some a) l q := Iff.rfl

theorem links_append : Links next prev p (l₁ ++ l₂) q ↔
    Links next prev p l₁ (l₂.head?.or q) ∧ Links next prev (l₁.getLast?.or p) l₂ q := by
  induction l₁ generalizing p with
  | nil => simp
  | cons a l₁ ih =>
    have hlast : (a :: l₁).getLast?.or p = l₁.getLast?.or (some a) := by
      rcases List.eq_nil_or_concat l₁ with rfl | ⟨l, b, rfl⟩
      · rfl
      · rw [List.concat_eq_append, ← List.cons_append, List.getLast?_concat, List.getLast?_concat]
        rfl
    rw [List.cons_append, links_cons, links_cons, ih, hlast, List.head?_append, Option.or_assoc]
    simp only [and_assoc]

theorem links_reverse : Links next prev p l q ↔ Links prev next q l.reverse p := by
  induction l generalizing p with
  | nil => simp
  | cons a l ih =>
    rw [List.reverse_cons, links_append, links_cons, ih (p := some a), List.getLast?_reverse]
    simp only [links_cons, links_nil, List.head?_cons, List.head?_nil, Option.some_or,
      Option.none_or, and_true]
    tauto

theorem Links.congr (h : Links next prev p l q) (hnext : ∀ a ∈ l, next' a = next a)
    (hprev : ∀ a ∈ l, prev' a = prev a) : Links next' prev' p l q := by
  induction l generalizing p with
  | nil => exact h
  | cons a l ih =>
    obtain ⟨hp, hn, hrest⟩ := h
    refine ⟨?_, ?_, ?_⟩
    · rw [hprev a List.mem_cons_self, hp]
    · rw [hnext a List.mem_cons_self, hn]
    · exact ih hrest (fun b hb => hnext b (List.mem_cons_of_mem a hb))
        (fun b hb => hprev b (List.mem_cons_of_mem a hb))

theorem Links.at (h : Links next prev p (l₁ ++ a :: l₂) q) :
    prev a = l₁.getLast?.or p ∧ next a = l₂.head?.or q := by
  obtain ⟨-, hp, hn, -⟩ := links_append.mp h
  exact ⟨hp, hn⟩

theorem Links.seg (h : Links next prev p l q) : Seg next (l.head?.or q) l q := by
  induction l generalizing p with
  | nil => rfl
  | cons a l ih =>
    obtain ⟨-, hn, hrest⟩ := h
    refine ⟨rfl, ?_⟩
    rw [hn]
    exact ih hrest

theorem Links.prev_of_next (h : Links next prev p l q)
    (hq : ∀ b, q = some b → prev b = l.getLast?) (ha : a ∈ l) (hab : next a = some b) :
    prev b = some a := by
  obtain ⟨l₁, l₂, rfl⟩ := List.append_of_mem ha
  have hnext := h.at.2
  rw [hab] at hnext
  cases l₂ with
  | nil =>
    rw [hq b hnext.symm]
    simp
  | cons c l₂ =>
    obtain rfl : b = c := Option.some.inj hnext
    rw [List.append_cons] at h
    simpa using h.at.1

theorem Links.relink [DecidableEq A] (h : Links next prev p l q) (hl : l.Nodup)
    (hnext : ∀ x ∈ l, next' x = if l.getLast? = some x then q' else next x)
    (hprev : ∀ x ∈ l, prev' x = if l.head? = some x then p' else prev x) :
    Links next' prev' p' l q' := by
  induction l generalizing p p' with
  | nil => trivial
  | cons a l ih =>
    obtain ⟨-, hn, hrest⟩ := h
    obtain ⟨ha, hl⟩ := List.nodup_cons.mp hl
    refine ⟨?_, ?_, ?_⟩
    · rw [hprev a List.mem_cons_self, List.head?_cons, if_pos rfl]
    · rw [hnext a List.mem_cons_self]
      cases l with
      | nil => simp
      | cons b l =>
        have hlast : (a :: b :: l).getLast? ≠ some a := by
          rw [List.getLast?_cons_cons]
          intro hlast
          exact ha (List.mem_of_getLast? hlast)
        rw [if_neg hlast, hn]
        rfl
    · apply ih hrest hl
      · intro x hx
        rw [hnext x (List.mem_cons_of_mem a hx)]
        cases l with
        | nil => simp at hx
        | cons b l => rw [List.getLast?_cons_cons]
      · intro x hx
        have hxa : (a :: l).head? ≠ some x := by
          rw [List.head?_cons]
          intro hax
          exact ha (Option.some.inj hax ▸ hx)
        rw [hprev x (List.mem_cons_of_mem a hx), if_neg hxa]
        split
        · next hhead =>
          obtain ⟨l', rfl⟩ := List.head?_eq_some_iff.mp hhead
          exact hrest.1
        · rfl

end links

section line

variable {next prev next' prev' : A → Option A} {l l₁ l₂ : List A} {a b : A}

theorem LinkLine.reverse (h : LinkLine next prev l) : LinkLine prev next l.reverse := links_reverse.mp h

theorem LinkLine.seg (h : LinkLine next prev l) : Seg next l.head? l none := by
  simpa using Links.seg h

theorem LinkLine.nodup (h : LinkLine next prev l) : l.Nodup := h.seg.nodup

theorem LinkLine.prev_head (h : LinkLine next prev l) (ha : l.head? = some a) : prev a = none := by
  obtain ⟨l', rfl⟩ := List.head?_eq_some_iff.mp ha
  exact h.1

theorem LinkLine.next_iff (h : LinkLine next prev l) (ha : a ∈ l) (hb : b ∈ l) :
    next a = some b ↔ prev b = some a := by
  constructor
  · apply Links.prev_of_next h _ ha
    simp
  · apply Links.prev_of_next h.reverse _ (List.mem_reverse.mpr hb)
    simp

theorem LinkLine.insert [DecidableEq A] (h : LinkLine next prev (l₁ ++ l₂))
    (hnext : ∀ x ∈ l₁ ++ l₂, next' x = if l₁.getLast? = some x then some a else next x)
    (hprev : ∀ x ∈ l₁ ++ l₂, prev' x = if l₂.head? = some x then some a else prev x)
    (hanext : next' a = l₂.head?) (haprev : prev' a = l₁.getLast?) :
    LinkLine next' prev' (l₁ ++ a :: l₂) := by
  have hnodup := h.nodup
  obtain ⟨hfront, hback⟩ := links_append.mp h
  obtain ⟨hl₁, hl₂, hdisj⟩ := List.nodup_append.mp hnodup
  refine links_append.mpr ⟨?_, ?_, ?_, ?_⟩
  · apply hfront.relink hl₁
    · intro x hx
      exact hnext x (List.mem_append_left l₂ hx)
    · intro x hx
      have hxl₂ : l₂.head? ≠ some x := by
        intro hhead
        exact hdisj x hx x (List.mem_of_head? hhead) rfl
      rw [hprev x (List.mem_append_left l₂ hx), if_neg hxl₂]
      split
      · next hhead =>
        obtain ⟨l', rfl⟩ := List.head?_eq_some_iff.mp hhead
        exact hfront.1
      · rfl
  · rw [haprev, Option.or_none]
  · rw [hanext, Option.or_none]
  · apply hback.relink hl₂
    · intro x hx
      have hxl₁ : l₁.getLast? ≠ some x := by
        intro hlast
        exact hdisj x (List.mem_of_getLast? hlast) x hx rfl
      rw [hnext x (List.mem_append_right l₁ hx), if_neg hxl₁]
      split
      · next hlast =>
        obtain ⟨l', rfl⟩ := List.getLast?_eq_some_iff.mp hlast
        simpa using hback.at.2
      · rfl
    · intro x hx
      exact hprev x (List.mem_append_right l₁ hx)

end line

section ring

variable {next prev next' prev' : A → Option A} {l l₁ l₂ : List A} {a b : A}

theorem LinkRing.reverse (h : LinkRing next prev l) : LinkRing prev next l.reverse := by
  rw [LinkRing, List.getLast?_reverse, List.head?_reverse]
  exact links_reverse.mp h

theorem LinkRing.seg (h : LinkRing next prev l) : Seg next l.head? l l.head? := by
  have hseg := Links.seg h
  rwa [Option.or_self] at hseg

theorem LinkRing.prev_head (h : LinkRing next prev l) (ha : l.head? = some a) :
    prev a = l.getLast? := by
  obtain ⟨l', rfl⟩ := List.head?_eq_some_iff.mp ha
  exact h.1

theorem LinkRing.next_iff (h : LinkRing next prev l) (ha : a ∈ l) (hb : b ∈ l) :
    next a = some b ↔ prev b = some a := by
  constructor
  · exact Links.prev_of_next h (fun b hb => h.prev_head hb) ha
  · intro hab
    refine Links.prev_of_next (links_reverse.mp h) ?_ (List.mem_reverse.mpr hb) hab
    intro c hc
    apply h.reverse.prev_head
    rw [List.head?_reverse, hc]

theorem LinkRing.rotate (h : LinkRing next prev (l₁ ++ l₂)) : LinkRing next prev (l₂ ++ l₁) := by
  cases l₁ with
  | nil => simpa using h
  | cons a l₁ =>
    cases l₂ with
    | nil => simpa using h
    | cons b l₂ =>
      have hlast : ∀ (x y : A) (l l' : List A),
          (x :: l ++ y :: l').getLast? = (y :: l').getLast? := by
        intro x y l l'
        rw [List.getLast?_append, Option.or_eq_left_of_isSome]
        simp
      obtain ⟨hfront, hback⟩ := links_append.mp h
      rw [hlast] at hfront hback
      refine links_append.mpr ⟨?_, ?_⟩
      · rw [hlast]
        exact hback
      · rw [hlast]
        exact hfront

theorem LinkRing.insert [DecidableEq A] (h : LinkRing next prev l) (hl : l.Nodup)
    (hnext : ∀ x ∈ l, next' x = if l.getLast? = some x then some a else next x)
    (hprev : ∀ x ∈ l, prev' x = if l.head? = some x then some a else prev x)
    (hanext : next' a = l.head?.or (some a)) (haprev : prev' a = l.getLast?.or (some a)) :
    LinkRing next' prev' (l ++ [a]) := by
  rw [LinkRing, List.getLast?_concat, List.head?_append]
  refine links_append.mpr ⟨?_, ?_⟩
  · exact Links.relink h hl hnext hprev
  · exact ⟨haprev, hanext, trivial⟩

end ring

end CodingForFun.Lib
