import CodingForFun.AllLinkedLists.Basic

/-!
# The circular doubly linked list

`insert_double_circular` and `reverse_double_circular` of `src/alllinkedlists.c`. Nothing ends here:
the scan of an insertion and the sweep of a reversal stop when they are back at `*list`, which the
sweep still compares with after the links of that node have been exchanged.

From the empty list on, any sequence of calls keeps the nodes in one ring (`run_circular`).
-/

namespace CodingForFun.AllLinkedLists

open Lib

/-- `ptr != *list && ptr->value < value` -/
def insertDoubleCircularGoesOn (h : Heap) (value : ℤ) (list ptr : Option ℕ) :
    Except Fault Bool := do
  if ptr = list then
    pure false
  else
    pure (decide ((← h.getValue ptr) < value))

def insertDoubleCircular (s : State) (value : ℤ) : Except Fault State := do
  let new := some s.heap.fresh
  let h := s.heap.malloc value
  if s.list = none then
    let h ← h.setPrev new new
    let h ← h.setNext new new
    return ⟨h, new⟩
  -- insert at beginning
  if value < (← h.getValue s.list) then
    let prev ← h.getPrev s.list
    let h ← h.setNext new s.list
    let h ← h.setPrev new (← h.getPrev s.list)
    let h ← h.setPrev s.list new
    let h ← h.setNext prev new
    return ⟨h, new⟩
  let ptr ← h.getNext s.list
  let ptr ← whileM .unbounded (insertDoubleCircularGoesOn h value s.list) h.getNext (h.fresh + 1) ptr
  let prev ← h.getPrev ptr
  let h ← h.setNext prev new
  let h ← h.setPrev ptr new
  let h ← h.setNext new ptr
  let h ← h.setPrev new prev
  pure ⟨h, s.list⟩

def reverseDoubleCircular (s : State) : Except Fault State := do
  if s.list = none then
    return s
  if (← s.heap.getNext s.list) = s.list then
    return s
  let next ← s.heap.getNext s.list
  let t ← whileM .unbounded (reverseGoesOn s.list) reverseStep (s.heap.fresh + 1)
    ⟨s.heap, s.list, next⟩
  -- last element becomes first
  let h ← t.heap.setNext t.ptr (← t.heap.getPrev t.ptr)
  let h ← h.setPrev t.ptr t.next
  pure ⟨h, t.ptr⟩

def Call.circular (s : State) : Call → Except Fault State
  | .insert value => insertDoubleCircular s value
  | .reverse => reverseDoubleCircular s

/-- A sequence of calls from the empty list on. -/
def runCircular (calls : List Call) : Except Fault State := calls.foldlM Call.circular State.empty

/-- The nodes form one ring from the list pointer on. -/
structure IsCircular (s : State) (l : List ℕ) : Prop extends Owns s l where
  cycle : LinkRing s.heap.next s.heap.prev l

section reverse

variable {s : State} {l : List ℕ}

theorem reverseDoubleCircular_eq (h : IsCircular s l) :
    reverseDoubleCircular s = .ok ⟨s.heap.swap l, l.getLast?⟩ := by
  obtain ⟨heap, list⟩ := s
  obtain rfl : list = l.head? := h.list
  cases l with
  | nil =>
    have hswap : heap.swap [] = heap := swap_eq_self (by simp)
    rw [hswap]
    rfl
  | cons a l =>
    have ha : a < heap.fresh := h.lt_fresh List.mem_cons_self
    have hlinks := h.cycle
    rw [reverseDoubleCircular, List.head?_cons, if_neg (Option.some_ne_none a),
      Heap.getNext_some ha, ok_bind]
    cases l with
    | nil =>
      have hnext : heap.next a = some a := hlinks.2.1
      have hprev : heap.prev a = some a := hlinks.1
      have hswap : heap.swap [a] = heap := swap_eq_self (by simp [hnext, hprev])
      rw [hswap, if_pos hnext]
      rfl
    | cons b l =>
      have hnext : heap.next a = some b := hlinks.2.1
      have hlen : (b :: l).length + 1 = heap.fresh := h.length_eq
      have hnodup := h.nodup
      have hab : ∀ x ∈ b :: l, some a ≠ some x := by
        rintro x hx hax
        exact (List.nodup_cons.mp hnodup).1 (Option.some.inj hax ▸ hx)
      rw [if_neg (by rw [hnext]; exact (hab b List.mem_cons_self).symm)]
      obtain ⟨t, hrun, hstop, hstores⟩ := reverse_ok hnodup (fun x => h.lt_fresh) hab hlinks
        (heap.fresh + 1) (by omega)
      simp only [ok_bind]
      rw [hrun, ok_bind, hstop]
      exact hstores

theorem IsCircular.reverse (h : IsCircular s l) :
    IsCircular ⟨s.heap.swap l, l.getLast?⟩ l.reverse where
  list := List.head?_reverse.symm
  perm := l.reverse_perm.trans h.perm
  cycle := by
    rw [LinkRing, List.getLast?_reverse, List.head?_reverse]
    exact links_swap h.cycle

end reverse

/-! ### Insertion -/

/-- The heap with the node `new` linked in between `b` and `c`. -/
def Heap.linkBetween (h : Heap) (new b c : ℕ) : Heap where
  next := Function.update (Function.update h.next new (some c)) b (some new)
  prev := Function.update (Function.update h.prev new (some b)) c (some new)
  value := h.value
  fresh := h.fresh

theorem insertDoubleCircular_scan {h : Heap} (v : ℤ) {a : ℕ} :
    ∀ (rest passed : List ℕ) (fuel : ℕ), LinkRing h.next h.prev (a :: (passed ++ rest)) →
      (a :: (passed ++ rest)).Nodup → (∀ x ∈ passed ++ rest, x < h.fresh) → rest.length < fuel →
      (∀ x ∈ passed, h.value x ≤ v) →
      ∃ l₁ l₂, passed ++ rest = l₁ ++ l₂ ∧
        whileM .unbounded (insertDoubleCircularGoesOn h v (some a)) h.getNext fuel
          (rest.head?.or (some a)) = .ok (l₂.head?.or (some a)) ∧
        (∀ x ∈ l₁, h.value x ≤ v) ∧ ∀ x, l₂.head? = some x → v ≤ h.value x := by
  intro rest
  induction rest with
  | nil =>
    intro passed fuel _ _ _ hfuel hle
    obtain ⟨fuel, rfl⟩ := Nat.exists_eq_succ_of_ne_zero (Nat.ne_zero_of_lt hfuel)
    refine ⟨passed, [], rfl, ?_, hle, by simp⟩
    exact whileM_false fuel (by simp [insertDoubleCircularGoesOn])
  | cons b rest ih =>
    intro passed fuel hring hnodup hfresh hfuel hle
    obtain ⟨fuel, rfl⟩ := Nat.exists_eq_succ_of_ne_zero (Nat.ne_zero_of_lt hfuel)
    have hb := hfresh b (by simp)
    have hba : b ≠ a := by
      rintro rfl
      exact (List.nodup_cons.mp hnodup).1 (by simp)
    have hcond : insertDoubleCircularGoesOn h v (some a) (some b) =
        .ok (decide (h.value b < v)) := by
      simp [insertDoubleCircularGoesOn, hba, Heap.getValue_some hb]
    rw [List.head?_cons, Option.some_or]
    by_cases hlt : h.value b < v
    · have hnext : h.next b = rest.head?.or (some a) := by
        have hlinks := hring
        rw [← List.cons_append] at hlinks
        exact (Links.at hlinks).2
      have hbody : h.getNext (some b) = .ok (rest.head?.or (some a)) := by
        rw [Heap.getNext_some hb, hnext]
      rw [decide_eq_true hlt] at hcond
      rw [List.append_cons] at hring hnodup hfresh ⊢
      rw [whileM_true fuel hcond hbody]
      apply ih (passed ++ [b]) fuel hring hnodup hfresh (Nat.lt_of_succ_lt_succ hfuel)
      intro x hx
      rcases List.mem_append.mp hx with hx | hx
      · exact hle x hx
      · rw [List.mem_singleton.mp hx]
        exact hlt.le
    · rw [decide_eq_false hlt] at hcond
      refine ⟨passed, b :: rest, rfl, whileM_false fuel hcond, hle, ?_⟩
      intro x hx
      obtain rfl : b = x := Option.some.inj hx
      exact not_lt.mp hlt

section insert

variable {s : State} {l l' l₁ l₂ : List ℕ} {a b c : ℕ} {v : ℤ}

theorem linkBetween_ring (howns : Owns s l) (hl : l'.Perm l)
    (hring : LinkRing s.heap.next s.heap.prev l') (hb : l'.getLast? = some b)
    (hc : l'.head? = some c) (v : ℤ) :
    LinkRing ((s.heap.malloc v).linkBetween s.heap.fresh b c).next
      ((s.heap.malloc v).linkBetween s.heap.fresh b c).prev (l' ++ [s.heap.fresh]) := by
  have hfresh : ∀ x ∈ l', x ≠ s.heap.fresh := by
    intro x hx
    exact ne_of_mem_of_not_mem (hl.mem_iff.mp hx) howns.fresh_notMem
  have hbfresh := hfresh b (List.mem_of_getLast? hb)
  have hcfresh := hfresh c (List.mem_of_head? hc)
  apply hring.insert (hl.nodup_iff.mpr howns.nodup)
  · intro x hx
    rw [← howns.malloc_next v (hl.mem_iff.mp hx), hb]
    simp [Heap.linkBetween, Function.update_apply, hfresh x hx, eq_comm]
  · intro x hx
    rw [← howns.malloc_prev v (hl.mem_iff.mp hx), hc]
    simp [Heap.linkBetween, Function.update_apply, hfresh x hx, eq_comm]
  · simp [Heap.linkBetween, hbfresh.symm, hc]
  · simp [Heap.linkBetween, hcfresh.symm, hb]

theorem IsCircular.inserted {s' : State} (h : IsCircular s (l₁ ++ l₂))
    (hins : Inserted s v l₁ l₂ s') (hlist : s'.list = (l₁ ++ s.heap.fresh :: l₂).head?)
    (hring : LinkRing s'.heap.next s'.heap.prev (l₁ ++ s.heap.fresh :: l₂)) :
    IsCircular s' (l₁ ++ s.heap.fresh :: l₂) where
  list := hlist
  perm := hins.perm h.toOwns
  cycle := hring

theorem IsCircular.malloc (h : IsCircular s l) (v : ℤ) :
    LinkRing (s.heap.malloc v).next (s.heap.malloc v).prev l :=
  Links.congr h.cycle (fun _ hx => h.malloc_next v hx) (fun _ hx => h.malloc_prev v hx)

theorem insertDoubleCircular_first (h : IsCircular s (a :: l)) (hfirst : v < s.heap.value a) :
    ∃ s', insertDoubleCircular s v = .ok s' ∧ Inserted s v [] (a :: l) s' ∧
      IsCircular s' (s.heap.fresh :: a :: l) := by
  obtain ⟨b, hb⟩ : ∃ b, (a :: l).getLast? = some b := ⟨_, List.getLast?_cons⟩
  have hprev : (s.heap.malloc v).prev a = some b := by
    rw [h.malloc_prev v List.mem_cons_self, ← hb]
    exact h.cycle.1
  have ha' := h.malloc_lt v (x := a) List.mem_cons_self
  have hb' := h.malloc_lt v (List.mem_of_getLast? hb)
  have hnew : s.heap.fresh < (s.heap.malloc v).fresh := Nat.lt_succ_self _
  have hane : a ≠ s.heap.fresh := ne_of_mem_of_not_mem List.mem_cons_self h.fresh_notMem
  have hins : Inserted s v [] (a :: l)
      ⟨(s.heap.malloc v).linkBetween s.heap.fresh b a, some s.heap.fresh⟩ := by
    refine ⟨rfl, rfl, by simp, ?_⟩
    intro x hx
    obtain rfl : a = x := Option.some.inj hx
    exact hfirst.le
  have hfront : IsCircular s ([] ++ a :: l) := h
  refine ⟨_, ?_, hins, hfront.inserted hins rfl ?_⟩
  · rw [← h.malloc_value v List.mem_cons_self] at hfirst
    rw [insertDoubleCircular, h.list, List.head?_cons, if_neg (Option.some_ne_none a)]
    simp [Heap.getValue_some ha', hfirst, Heap.getPrev_some, ha', hprev, Heap.setNext_some,
      Heap.setPrev_some, hnew, hb', Heap.linkBetween]
  · exact (linkBetween_ring h.toOwns (.refl _) h.cycle hb rfl v).rotate

theorem insertDoubleCircular_behind (h : IsCircular s (a :: l)) (hfirst : s.heap.value a ≤ v) :
    ∃ s' l₁ l₂, insertDoubleCircular s v = .ok s' ∧ a :: l = l₁ ++ l₂ ∧ Inserted s v l₁ l₂ s' ∧
      IsCircular s' (l₁ ++ s.heap.fresh :: l₂) := by
  have ha := h.malloc_lt v (x := a) List.mem_cons_self
  have hvalue := h.malloc_value v (x := a) List.mem_cons_self
  have hlen : l.length + 1 = s.heap.fresh := h.length_eq
  have hnext : (s.heap.malloc v).next a = l.head?.or (some a) := (h.malloc v).2.1
  obtain ⟨l₁, l₂, hl, hscan, hle, hge⟩ := insertDoubleCircular_scan v l []
    ((s.heap.malloc v).fresh + 1) (h.malloc v) h.nodup
    (fun x hx => h.malloc_lt v (List.mem_cons_of_mem a hx)) (by simp [Heap.malloc]; omega) (by simp)
  obtain rfl : l = l₁ ++ l₂ := hl
  have hold : ∀ x ∈ a :: (l₁ ++ l₂), (s.heap.malloc v).value x = s.heap.value x :=
    fun x hx => h.malloc_value v hx
  -- The node where the scan has stopped, and the one before it on the ring.
  have hrotated : (l₂ ++ a :: l₁).Perm (a :: (l₁ ++ l₂)) := List.perm_append_comm
  have hwhole : LinkRing s.heap.next s.heap.prev ((a :: l₁) ++ l₂) := h.cycle
  have hring : LinkRing s.heap.next s.heap.prev (l₂ ++ a :: l₁) := hwhole.rotate
  obtain ⟨b, hb⟩ : ∃ b, (l₂ ++ a :: l₁).getLast? = some b := by
    simp [List.getLast?_append, List.getLast?_cons]
  obtain ⟨c, hc⟩ : ∃ c, (l₂ ++ a :: l₁).head? = some c := by
    cases l₂ <;> simp
  have hb' := hrotated.mem_iff.mp (List.mem_of_getLast? hb)
  have hc' := hrotated.mem_iff.mp (List.mem_of_head? hc)
  have hstop : l₂.head?.or (some a) = some c := by
    rw [← hc, List.head?_append, List.head?_cons]
  have hprev : (s.heap.malloc v).prev c = some b := by
    rw [h.malloc_prev v hc', ← hb]
    exact hring.prev_head hc
  have hins : Inserted s v (a :: l₁) l₂
      ⟨(s.heap.malloc v).linkBetween s.heap.fresh b c, s.list⟩ := by
    refine ⟨rfl, rfl, ?_, ?_⟩
    · intro x hx
      rcases List.mem_cons.mp hx with rfl | hx
      · exact hfirst
      · rw [← hold x (by simp [hx])]
        exact hle x hx
    · intro x hx
      rw [← hold x (by simp [List.mem_of_head? hx])]
      exact hge x hx
  refine ⟨_, a :: l₁, l₂, ?_, rfl, hins, h.inserted hins h.list ?_⟩
  · have hbne : b ≠ s.heap.fresh := ne_of_mem_of_not_mem hb' h.fresh_notMem
    have hcne : c ≠ s.heap.fresh := ne_of_mem_of_not_mem hc' h.fresh_notMem
    have hbt := h.malloc_lt v hb'
    have hct := h.malloc_lt v hc'
    have hnew : s.heap.fresh < (s.heap.malloc v).fresh := Nat.lt_succ_self _
    rw [insertDoubleCircular, h.list, List.head?_cons, if_neg (Option.some_ne_none a)]
    simp only [Heap.getValue_some ha, ok_bind, hvalue]
    rw [if_neg (not_lt.mpr hfirst), Heap.getNext_some ha, ok_bind, hnext, hscan, ok_bind, hstop]
    simp only [Heap.getPrev_some, Heap.setNext_some, Heap.setPrev_some, hct, hbt, hnew, hprev,
      ok_bind, pure_eq_ok, Heap.linkBetween]
    rw [Function.update_comm hbne, Function.update_comm hcne]
  · have hplaced := linkBetween_ring h.toOwns hrotated hring hb hc v
    rw [List.append_assoc] at hplaced
    simpa using hplaced.rotate

theorem insertDoubleCircular_ok (h : IsCircular s l) (v : ℤ) :
    ∃ s' l₁ l₂, insertDoubleCircular s v = .ok s' ∧ l = l₁ ++ l₂ ∧ Inserted s v l₁ l₂ s' ∧
      IsCircular s' (l₁ ++ s.heap.fresh :: l₂) := by
  cases l with
  | nil =>
    have hlist : s.list = none := h.list
    have hnew : s.heap.fresh < (s.heap.malloc v).fresh := Nat.lt_succ_self _
    have hins : Inserted s v [] [] ⟨{ s.heap.malloc v with
        next := Function.update (s.heap.malloc v).next s.heap.fresh (some s.heap.fresh)
        prev := Function.update (s.heap.malloc v).prev s.heap.fresh (some s.heap.fresh) },
        some s.heap.fresh⟩ := ⟨rfl, rfl, by simp, by simp⟩
    refine ⟨_, [], [], ?_, rfl, hins, h.inserted hins rfl ?_⟩
    · rw [insertDoubleCircular, if_pos hlist]
      simp [Heap.setPrev_some, Heap.setNext_some, hnew]
    · simp [LinkRing]
  | cons a l =>
    by_cases hfirst : v < s.heap.value a
    · obtain ⟨s', hs', hins, hcircular⟩ := insertDoubleCircular_first h hfirst
      exact ⟨s', [], a :: l, hs', rfl, hins, hcircular⟩
    · exact insertDoubleCircular_behind h (not_lt.mp hfirst)

end insert

theorem isCircular_empty : IsCircular State.empty [] := ⟨⟨rfl, .nil⟩, trivial⟩

/-- After any calls the nodes form one ring over the inserted values, a reversal of it succeeds, and
without reversals it is in order. -/
theorem run_circular (calls : List Call) :
    ∃ s l, runCircular calls = .ok s ∧ s.list = l.head? ∧ Seg s.heap.next s.list l s.list ∧
      l.Nodup ∧ (∀ a ∈ l, ∀ b ∈ l, s.heap.next a = some b ↔ s.heap.prev b = some a) ∧
      (s.values l : Multiset ℤ) = insertedValues calls ∧
      (.reverse ∉ calls → (s.values l).Pairwise (· ≤ ·)) ∧
      ∃ s', reverseDoubleCircular s = .ok s' ∧ Seg s'.heap.next s'.list l.reverse s'.list ∧
        s'.list = l.getLast? ∧ s'.values l.reverse = (s.values l).reverse := by
  have hrun := @run_ok IsCircular Call.circular (fun s l h => h.toOwns)
    (fun s l v h => insertDoubleCircular_ok h v)
    (fun s l h => ⟨reverseDoubleCircular_eq h, h.reverse⟩)
  obtain ⟨s, l, hs, h, hperm, hsorted⟩ := hrun calls State.empty [] isCircular_empty
  refine ⟨s, l, hs, h.list, ?_, h.nodup, ?_, ?_, ?_, ?_⟩
  · rw [h.list]
    exact h.cycle.seg
  · intro a ha b hb
    exact h.cycle.next_iff ha hb
  · simpa [State.values] using hperm
  · intro honly
    exact hsorted honly .nil
  · refine ⟨_, reverseDoubleCircular_eq h, ?_, rfl, values_swap s l _⟩
    rw [h.reverse.list]
    exact h.reverse.cycle.seg

end CodingForFun.AllLinkedLists
