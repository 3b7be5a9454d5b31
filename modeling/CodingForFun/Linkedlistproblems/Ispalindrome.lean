import CodingForFun.Lib.Window
import CodingForFun.Linkedlistproblems.Detectloop

/-!
# `ispalindrome`

The first loop pushes half of the values, and one fewer than half when their number is even. The test
that is to skip the middle of a list of odd length skips a node when the number is even, so the values
without the last one are compared, in place of all of them, and one node is left when the queue is
empty: it is compared with `queue[-1]`.
-/

namespace CodingForFun.Linkedlistproblems

open Lib

/-- The variables of `ispalindrome`; a cell that was not written is `none`. -/
structure Halving where
  queue : Window 0 40 (Option ℤ)
  index : ℤ
  slow : Option ℕ
  fast : Option ℕ

/-- The body of the first loop. -/
def push (h : Memory Node) (p : Halving) : Except Fault Halving := do
  let queue ← p.queue.write p.index (some (← h.read p.slow).value)
  let slow := (← h.read p.slow).next
  let next := (← h.read p.fast).next
  let fast := (← h.read next).next
  pure ⟨queue, p.index + 1, slow, fast⟩

/-- `queue[index]` -/
def readQueue (queue : Window 0 40 (Option ℤ)) (index : ℤ) : Except Fault ℤ := do
  match ← queue.read index with
  | none => .error .uninitialised
  | some v => pure v

/-- The second loop, cut off after `fuel` rounds. -/
def compareLoop (h : Memory Node) (queue : Window 0 40 (Option ℤ)) :
    ℕ → Option ℕ → ℤ → Except Fault Bool
  | 0, _, _ => .error .unbounded
  | fuel + 1, slow, index => do
    if slow = none then
      pure true
    else if (← h.read slow).value ≠ (← readQueue queue (index - 1)) then
      pure false
    else
      compareLoop h queue fuel (← h.read slow).next (index - 1)

def ispalindrome (s : State) : Except Fault Bool := do
  if s.list = none then return false
  if (← s.heap.read s.list).next = none then return false
  let p ← whileM .unbounded (fun p => fastGoesOn s.heap p.fast) (push s.heap) (s.heap.fresh + 1)
    ⟨fun _ => none, 0, s.list, s.list⟩
  let slow ← if (← s.heap.read p.fast).next ≠ none then pure (← s.heap.read p.slow).next else pure p.slow
  compareLoop s.heap p.queue (s.heap.fresh + 1) slow p.index

/-! ### The first loop -/

/-- The queue with the first `i` values on it. -/
def queueOf (vs : List ℤ) (i : ℕ) : Window 0 40 (Option ℤ) :=
  fun j => if 0 ≤ j ∧ j < i then vs[j.toNat]? else none

theorem queueOf_push {vs : List ℤ} {i : ℕ} (hi : i < vs.length) :
    Function.update (queueOf vs i) i (some vs[i]) = queueOf vs (i + 1) := by
  funext j
  by_cases hj : j = i
  · subst hj
    simp [queueOf, List.getElem?_eq_getElem hi]
  · rw [Function.update_of_ne hj]
    have hiff : 0 ≤ j ∧ j < i ↔ 0 ≤ j ∧ j < (i + 1 : ℕ) := by omega
    simp only [queueOf, hiff]

theorem readQueue_eq {vs : List ℤ} {i m : ℕ} (him : i < m) (hm : m ≤ 40) (hi : i < vs.length) :
    readQueue (queueOf vs m) i = .ok vs[i] := by
  have hcell : queueOf vs m i = some vs[i] := by
    rw [queueOf, if_pos (by omega), Int.toNat_natCast, List.getElem?_eq_getElem hi]
  rw [readQueue, Window.read_ok (by omega) (by omega), ok_bind, hcell]
  rfl

section loops

variable {s : State} {l : List (ℕ × ℤ)}

theorem IsList.read_node (h : IsList s l) {k : ℕ} (hk : k < (l.map Prod.snd).length) :
    ∃ n, s.heap.read (ptr s k) = .ok n ∧ n.value = (l.map Prod.snd)[k] ∧ n.next = ptr s (k + 1) :=
  h.read hk

theorem halvingLoop_eq (h : IsList s l) (hne : l ≠ []) (hlen : l.length ≤ 80) :
    whileM .unbounded (fun p => fastGoesOn s.heap p.fast) (push s.heap) (s.heap.fresh + 1)
      ⟨fun _ => none, 0, s.list, s.list⟩ =
      .ok ⟨queueOf (l.map Prod.snd) ((l.length - 1) / 2), ((l.length - 1) / 2 : ℕ),
        ptr s ((l.length - 1) / 2), ptr s (2 * ((l.length - 1) / 2))⟩ := by
  have hstart : (fun _ => none : Window 0 40 (Option ℤ)) = queueOf (l.map Prod.snd) 0 := by
    funext j
    rw [queueOf, if_neg (by omega)]
  have hgo : ∀ i, fastGoesOn s.heap (ptr s (2 * i)) = .ok (decide (2 * i + 2 < l.length)) := by
    intro i
    have hiff : (ptr s (2 * i + 2) != none) = decide (2 * i + 2 < l.length) := by
      rw [Bool.eq_iff_iff, bne_iff_ne, decide_eq_true_iff]
      exact h.ptr_ne_none_iff
    rw [fastGoesOn_ptr h.wellLinked, hiff]
  have hpos := List.length_pos_iff.mpr hne
  rw [hstart]
  refine whileM_states (fun i : ℕ => (⟨queueOf (l.map Prod.snd) i, i, ptr s i, ptr s (2 * i)⟩ : Halving))
    ((l.length - 1) / 2) (fun i hi => ⟨?_, ?_⟩) ?_ ?_
  · simp only [hgo, decide_eq_true (show 2 * i + 2 < l.length by omega)]
  · have hlt : i < (l.map Prod.snd).length := by
      rw [List.length_map]
      omega
    obtain ⟨n₁, hn₁, hvalue, hnext₁⟩ := h.read_node hlt
    obtain ⟨n₂, hn₂, hnext₂⟩ := h.read_next (show 2 * i < l.length by omega)
    obtain ⟨n₃, hn₃, hnext₃⟩ := h.read_next (show 2 * i + 1 < l.length by omega)
    rw [show 2 * i + 1 + 1 = 2 * (i + 1) by omega] at hnext₃
    simp only [push, hn₁, hn₂, hn₃, hnext₁, hnext₂, hnext₃, hvalue, ok_bind, pure_eq_ok,
      Window.write_ok (show (0 : ℤ) ≤ i by omega) (show (i : ℤ) < 40 by omega), queueOf_push hlt,
      Int.natCast_succ]
  · simp only [hgo, decide_eq_false (show ¬2 * ((l.length - 1) / 2) + 2 < l.length by omega)]
  · have hle := h.length_le_fresh
    omega

/-! ### The second loop -/

/-- The `i` values behind the first `k` are the first `i` values backwards. -/
def Mirrored (vs : List ℤ) (k i : ℕ) : Prop := (vs.drop k).take i = (vs.take i).reverse

instance (vs : List ℤ) (k i : ℕ) : Decidable (Mirrored vs k i) := by
  unfold Mirrored
  infer_instance

theorem mirrored_zero (vs : List ℤ) (k : ℕ) : Mirrored vs k 0 := by
  rw [Mirrored, List.take_zero, List.take_zero, List.reverse_nil]

theorem mirrored_succ {vs : List ℤ} {k i : ℕ} (hk : k < vs.length) (hi : i < vs.length) :
    Mirrored vs k (i + 1) ↔ vs[k] = vs[i] ∧ Mirrored vs (k + 1) i := by
  rw [Mirrored, Mirrored, List.drop_eq_getElem_cons hk, List.take_succ_cons,
    List.take_succ_eq_append_getElem hi, List.reverse_concat, List.cons_eq_cons]

theorem compareLoop_eq (h : IsList s l) {m : ℕ} (hm : m ≤ 40) :
    ∀ i k fuel, i ≤ m → i + k < l.length → i < fuel →
      compareLoop s.heap (queueOf (l.map Prod.snd) m) fuel (ptr s k) i =
        if Mirrored (l.map Prod.snd) k i then .error .outOfBounds else .ok false := by
  intro i
  induction i with
  | zero =>
    intro k fuel _ hk hfuel
    obtain ⟨fuel, rfl⟩ := Nat.exists_eq_add_of_lt hfuel
    have hptr : ptr s k ≠ none := h.ptr_ne_none_iff.mpr (by omega)
    obtain ⟨n, hn, -⟩ := h.read_next (show k < l.length by omega)
    have hunder : readQueue (queueOf (l.map Prod.snd) m) (((0 : ℕ) : ℤ) - 1) = .error .outOfBounds := by
      rw [readQueue, Window.read_error (by omega)]
      rfl
    rw [if_pos (mirrored_zero _ k)]
    simp only [compareLoop, if_neg hptr, hn, ok_bind, hunder, error_bind]
  | succ i ih =>
    intro k fuel him hk hfuel
    obtain ⟨fuel, rfl⟩ := Nat.exists_eq_add_of_lt hfuel
    have hlen : (l.map Prod.snd).length = l.length := List.length_map _
    have hptr : ptr s k ≠ none := h.ptr_ne_none_iff.mpr (by omega)
    have hk' : k < (l.map Prod.snd).length := by omega
    have hi : i < (l.map Prod.snd).length := by omega
    obtain ⟨n, hn, hvalue, hnext⟩ := h.read_node hk'
    have htop := readQueue_eq (show i < m by omega) hm hi
    have hindex : ((i + 1 : ℕ) : ℤ) - 1 = i := by omega
    simp only [compareLoop, if_neg hptr, hn, ok_bind, hindex, htop, hvalue, hnext,
      mirrored_succ hk' hi]
    by_cases hsame : (l.map Prod.snd)[k] = (l.map Prod.snd)[i]
    · simp only [hsame, ne_eq, not_true_eq_false, if_false, true_and]
      exact ih (k + 1) _ (by omega) (by omega) (by omega)
    · simp only [ne_eq, hsame, not_false_eq_true, if_true, false_and, if_false, pure_eq_ok]

theorem reverse_eq_of_halves {α : Type} {w : List α}
    (h : w.drop (w.length - w.length / 2) = (w.take (w.length / 2)).reverse) : w.reverse = w := by
  obtain ⟨mid, hmid, hw⟩ : ∃ mid, mid.reverse = mid ∧
      w = w.take (w.length / 2) ++ mid ++ (w.take (w.length / 2)).reverse := by
    refine ⟨(w.drop (w.length / 2)).take (w.length - w.length / 2 - w.length / 2), ?_, ?_⟩
    · have hlen : ((w.drop (w.length / 2)).take (w.length - w.length / 2 - w.length / 2)).length ≤ 1 := by
        rw [List.length_take, List.length_drop]
        omega
      rcases Nat.le_one_iff_eq_zero_or_eq_one.mp hlen with hnil | hone
      · rw [List.length_eq_zero_iff.mp hnil, List.reverse_nil]
      · obtain ⟨x, hx⟩ := List.length_eq_one_iff.mp hone
        rw [hx, List.reverse_singleton]
    · rw [← h]
      have hsplit : w.drop (w.length - w.length / 2) =
          (w.drop (w.length / 2)).drop (w.length - w.length / 2 - w.length / 2) := by
        rw [List.drop_drop]
        congr 1
        omega
      rw [hsplit, List.append_assoc, List.take_append_drop, List.take_append_drop]
  rw [hw]
  simp [hmid]

theorem reverse_eq_iff_halves {α : Type} (w : List α) :
    w.reverse = w ↔ w.drop (w.length - w.length / 2) = (w.take (w.length / 2)).reverse := by
  refine ⟨fun h => ?_, reverse_eq_of_halves⟩
  rw [List.reverse_take, h]

theorem mirrored_iff_dropLast {vs : List ℤ} :
    Mirrored vs (vs.length - 1 - (vs.length - 1) / 2) ((vs.length - 1) / 2) ↔
      vs.dropLast.reverse = vs.dropLast := by
  have hback : vs.dropLast.drop (vs.length - 1 - (vs.length - 1) / 2) =
      (vs.drop (vs.length - 1 - (vs.length - 1) / 2)).take ((vs.length - 1) / 2) := by
    rw [List.dropLast_eq_take, List.drop_take]
    congr 1
    omega
  have hfront : vs.dropLast.take ((vs.length - 1) / 2) = vs.take ((vs.length - 1) / 2) := by
    rw [List.dropLast_eq_take, List.take_take]
    congr 1
    omega
  rw [Mirrored, reverse_eq_iff_halves, List.length_dropLast, hback, hfront]

theorem ispalindrome_eq (h : IsList s l) (hlow : 2 ≤ l.length) (hhigh : l.length ≤ 80) :
    ispalindrome s =
      if (l.map Prod.snd).dropLast.reverse = (l.map Prod.snd).dropLast then .error .outOfBounds
      else .ok false := by
  have hne : l ≠ [] := by
    rintro rfl
    simp at hlow
  have hlist : s.list ≠ none := h.ptr_ne_none_iff.mpr (show 0 < l.length by omega)
  obtain ⟨n, hn, hnext⟩ : ∃ n, s.heap.read s.list = .ok n ∧ n.next = ptr s 1 :=
    h.read_next (show 0 < l.length by omega)
  have hsecond : ptr s 1 ≠ none := h.ptr_ne_none_iff.mpr (by omega)
  obtain ⟨n₁, hn₁, hnext₁⟩ := h.read_next (show 2 * ((l.length - 1) / 2) < l.length by omega)
  obtain ⟨n₂, hn₂, hnext₂⟩ := h.read_next (show (l.length - 1) / 2 < l.length by omega)
  have hcompare := compareLoop_eq h (show (l.length - 1) / 2 ≤ 40 by omega) ((l.length - 1) / 2)
    (l.length - 1 - (l.length - 1) / 2) (s.heap.fresh + 1) le_rfl (by omega)
    (by have := h.length_le_fresh; omega)
  have hmirror := @mirrored_iff_dropLast (l.map Prod.snd)
  rw [List.length_map] at hmirror
  simp only [hmirror] at hcompare
  simp only [ispalindrome, if_neg hlist, hn, hnext, if_neg hsecond, ok_bind, pure_eq_ok,
    halvingLoop_eq h hne hhigh, hn₁, hnext₁, hn₂, hnext₂]
  rw [← hcompare]
  by_cases heven : 2 * ((l.length - 1) / 2) + 1 < l.length
  · rw [if_pos (h.ptr_ne_none_iff.mpr heven),
      show l.length - 1 - (l.length - 1) / 2 = (l.length - 1) / 2 + 1 by omega]
  · rw [if_neg fun hptr => heven (h.ptr_ne_none_iff.mp hptr),
      show l.length - 1 - (l.length - 1) / 2 = (l.length - 1) / 2 by omega]

end loops

/-- `ispalindrome` is right only about a list that is no palindrome, with or without its last
value. -/
theorem ispalindrome_iff {s : State} {l : List (ℕ × ℤ)} (h : IsList s l) (hlow : 2 ≤ l.length)
    (hhigh : l.length ≤ 80) :
    (∃ b, ispalindrome s = .ok b ∧ (b = true ↔ (l.map Prod.snd).reverse = l.map Prod.snd)) ↔
      (l.map Prod.snd).dropLast.reverse ≠ (l.map Prod.snd).dropLast ∧
        (l.map Prod.snd).reverse ≠ l.map Prod.snd := by
  rw [ispalindrome_eq h hlow hhigh]
  constructor
  · rintro ⟨b, hb, hiff⟩
    by_cases hfront : (l.map Prod.snd).dropLast.reverse = (l.map Prod.snd).dropLast
    · rw [if_pos hfront] at hb
      exact absurd hb (by simp)
    · rw [if_neg hfront] at hb
      obtain rfl := Except.ok.inj hb
      exact ⟨hfront, fun hpal => absurd (hiff.mpr hpal) Bool.false_ne_true⟩
  · rintro ⟨hfront, hpal⟩
    exact ⟨false, if_neg hfront, by simpa using hpal⟩

theorem ispalindrome_iff_example :
    (∃ b, ispalindrome (listOf [1, 2, 3]) = .ok b ∧ (b = true ↔ [1, 2, 3].reverse = ([1, 2, 3] : List ℤ))) ↔
      ([1, 2] : List ℤ).reverse ≠ [1, 2] ∧ ([1, 2, 3] : List ℤ).reverse ≠ [1, 2, 3] := by
  obtain ⟨l, hl, hvs⟩ := listOf_isList [1, 2, 3]
  have hlen : l.length = 3 := by rw [← List.length_map Prod.snd, hvs]; rfl
  have hiff := ispalindrome_iff hl (by omega) (by omega)
  rw [hvs] at hiff
  exact hiff

/-- The node in the middle of the palindrome `1, 2, 1` is not skipped. -/
theorem ispalindrome_misses : ∃ l, IsList (listOf [1, 2, 1]) l ∧ 2 ≤ l.length ∧ l.length ≤ 80 ∧
    ¬∃ b, ispalindrome (listOf [1, 2, 1]) = .ok b ∧
      (b = true ↔ (l.map Prod.snd).reverse = l.map Prod.snd) := by
  have hlist : IsList (listOf [1, 2, 1]) [(2, 1), (1, 2), (0, 1)] :=
    ⟨rfl, _, rfl, rfl, rfl, _, rfl, rfl, rfl, _, rfl, rfl, rfl⟩
  have hresult : ispalindrome (listOf [1, 2, 1]) = .ok false := rfl
  refine ⟨_, hlist, by decide, by decide, ?_⟩
  intro h
  obtain ⟨b, hb, hiff⟩ := h
  rw [hresult] at hb
  obtain rfl := Except.ok.inj hb
  exact absurd (hiff.mpr rfl) Bool.false_ne_true

example : ispalindrome (listOf [1, 2]) = .error .outOfBounds := rfl

end CodingForFun.Linkedlistproblems
