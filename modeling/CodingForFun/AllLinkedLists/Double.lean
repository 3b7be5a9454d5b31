import CodingForFun.AllLinkedLists.Basic

/-!
# The doubly linked list

`insert_double` and `reverse_double` of `src/alllinkedlists.c`, the insertion in both builds: the
stores of the new node's neighbours are `placeDouble`, with `TWOSTEPS` defined or not. Whatever the
build, they link the new node in behind the node where the scan has stopped (`placeDouble_eq`).

From the empty list on, any sequence of calls keeps the list well formed (`run_double`).
-/

namespace CodingForFun.AllLinkedLists

open Lib

/-- `ptr->next != NULL && ptr->next->value < value` -/
def insertDoubleGoesOn (h : Heap) (value : ℤ) (ptr : Option ℕ) : Except Fault Bool := do
  let next ← h.getNext ptr
  if next = none then
    pure false
  else
    pure (decide ((← h.getValue next) < value))

/-- The stores that place `new` behind `ptr`; `twosteps` is the build with `TWOSTEPS`. -/
def placeDouble (twosteps : Bool) (h : Heap) (ptr new : Option ℕ) : Except Fault Heap := do
  if twosteps then
    -- place at end of list
    if (← h.getNext ptr) = none then
      let h ← h.setNext ptr new
      return (← h.setPrev new ptr)
    let h ← h.setPrev new ptr
    let h ← h.setNext new (← h.getNext ptr)
    let h ← h.setNext ptr new
    h.setPrev (← h.getNext new) new
  else
    let h ← h.setPrev new ptr
    let h ← h.setNext new (← h.getNext ptr)
    let h ← h.setNext ptr new
    let next ← h.getNext new
    if next ≠ none then
      h.setPrev next new
    else
      pure h

def insertDouble (twosteps : Bool) (s : State) (value : ℤ) : Except Fault State := do
  let new := some s.heap.fresh
  let h := s.heap.malloc value
  if s.list = none then
    return ⟨h, new⟩
  -- first place
  if (← h.getValue s.list) > value then
    let h ← h.setNext new s.list
    let h ← h.setPrev s.list new
    return ⟨h, new⟩
  let ptr ← whileM .unbounded (insertDoubleGoesOn h value) h.getNext (h.fresh + 1) s.list
  pure ⟨← placeDouble twosteps h ptr new, s.list⟩

def reverseDouble (s : State) : Except Fault State := do
  if s.list = none then
    return s
  if (← s.heap.getNext s.list) = none then
    return s
  let next ← s.heap.getNext s.list
  let t ← whileM .unbounded (reverseGoesOn none) reverseStep (s.heap.fresh + 1)
    ⟨s.heap, s.list, next⟩
  -- make last element the first one
  let h ← t.heap.setNext t.ptr (← t.heap.getPrev t.ptr)
  let h ← h.setPrev t.ptr none
  pure ⟨h, t.ptr⟩

def Call.double (twosteps : Bool) (s : State) : Call → Except Fault State
  | .insert value => insertDouble twosteps s value
  | .reverse => reverseDouble s

/-- A sequence of calls from the empty list on. -/
def runDouble (twosteps : Bool) (calls : List Call) : Except Fault State :=
  calls.foldlM (Call.double twosteps) State.empty

/-- The list is doubly linked, over all nodes. -/
structure IsDouble (s : State) (l : List ℕ) : Prop extends Owns s l where
  line : LinkLine s.heap.next s.heap.prev l

section reverse

variable {s : State} {l : List ℕ}

theorem reverseDouble_eq (h : IsDouble s l) :
    reverseDouble s = .ok ⟨s.heap.swap l, l.getLast?⟩ := by
  obtain ⟨heap, list⟩ := s
  obtain rfl : list = l.head? := h.list
  cases l with
  | nil =>
    have hswap : heap.swap [] = heap := swap_eq_self (by simp)
    rw [hswap]
    rfl
  | cons a l =>
    have ha : a < heap.fresh := h.lt_fresh List.mem_cons_self
    have hlinks := h.line
    rw [reverseDouble, List.head?_cons, if_neg (Option.some_ne_none a), Heap.getNext_some ha, ok_bind]
    cases l with
    | nil =>
      have hnext : heap.next a = none := hlinks.2.1
      have hprev : heap.prev a = none := hlinks.1
      have hswap : heap.swap [a] = heap := swap_eq_self (by simp [hnext, hprev])
      rw [hswap, if_pos hnext]
      rfl
    | cons b l =>
      have hnext : heap.next a = some b := hlinks.2.1
      have hlen : (b :: l).length + 1 = heap.fresh := h.length_eq
      rw [if_neg (by simp [hnext])]
      obtain ⟨t, hrun, -, hstores⟩ := reverse_ok h.nodup (fun x => h.lt_fresh) (by simp) hlinks
        (heap.fresh + 1) (by omega)
      simp only [ok_bind]
      rw [hrun, ok_bind]
      exact hstores

theorem IsDouble.reverse (h : IsDouble s l) : IsDouble ⟨s.heap.swap l, l.getLast?⟩ l.reverse where
  list := List.head?_reverse.symm
  perm := l.reverse_perm.trans h.perm
  line := links_swap h.line

end reverse

/-! ### Insertion -/

/-- The heap with the node `new` linked in behind `b`. -/
def Heap.linkAfter (h : Heap) (new b : ℕ) : Heap where
  next := Function.update (Function.update h.next new (h.next b)) b (some new)
  prev := fun x => if h.next b = some x then some new else if x = new then some b else h.prev x
  value := h.value
  fresh := h.fresh

section place

variable {h : Heap} {new b : ℕ}

theorem linkAfter_prev_end (hb : h.next b = none) :
    (h.linkAfter new b).prev = Function.update h.prev new (some b) := by
  funext x
  simp [Heap.linkAfter, hb, Function.update_apply]

theorem linkAfter_prev_middle {c : ℕ} (hb : h.next b = some c) :
    (h.linkAfter new b).prev =
      Function.update (Function.update h.prev new (some b)) c (some new) := by
  funext x
  simp only [Heap.linkAfter, hb, Function.update_apply, Option.some.injEq]
  congr 1
  exact propext eq_comm

theorem placeDouble_eq (twosteps : Bool) (hnew : new < h.fresh) (hb : b < h.fresh) (hne : new ≠ b)
    (hnull : h.next new = none) (hnext : ∀ x, h.next b = some x → x < h.fresh) :
    placeDouble twosteps h (some b) (some new) = .ok (h.linkAfter new b) := by
  cases hcase : h.next b with
  | none =>
    have hresult : h.linkAfter new b = { h with
        next := Function.update (Function.update h.next new (h.next b)) b (some new)
        prev := Function.update h.prev new (some b) } := by
      rw [← linkAfter_prev_end hcase]
      rfl
    have hnew_next : Function.update h.next new none = h.next := by
      rw [← hnull, Function.update_eq_self]
    rw [hresult]
    cases twosteps with
    | true =>
      simp [placeDouble, Heap.getNext_some, Heap.setNext_some, Heap.setPrev_some, hnew, hb, hcase,
        hnew_next]
    | false =>
      simp [placeDouble, Heap.getNext_some, Heap.setNext_some, Heap.setPrev_some, hnew, hb, hcase,
        hne]
  | some c =>
    have hc : c < h.fresh := hnext c hcase
    have hresult : h.linkAfter new b = { h with
        next := Function.update (Function.update h.next new (h.next b)) b (some new)
        prev := Function.update (Function.update h.prev new (some b)) c (some new) } := by
      rw [← linkAfter_prev_middle hcase]
      rfl
    rw [hresult]
    cases twosteps with
    | true =>
      simp [placeDouble, Heap.getNext_some, Heap.setNext_some, Heap.setPrev_some, hnew, hb, hc,
        hcase, hne]
    | false =>
      simp [placeDouble, Heap.getNext_some, Heap.setNext_some, Heap.setPrev_some, hnew, hb, hc,
        hcase, hne]

end place

/-- The scan stops at a node with a value up to `v` whose successor, if there is one, has at least
`v`. -/
theorem insertDouble_scan {h : Heap} (v : ℤ) :
    ∀ (back front : List ℕ) (a fuel : ℕ), LinkLine h.next h.prev (front ++ a :: back) →
      (∀ x ∈ front ++ a :: back, x < h.fresh) → back.length < fuel →
      (∀ x ∈ front ++ [a], h.value x ≤ v) →
      ∃ l₁ b l₂, front ++ a :: back = l₁ ++ b :: l₂ ∧
        whileM .unbounded (insertDoubleGoesOn h v) h.getNext fuel (some a) = .ok (some b) ∧
        (∀ x ∈ l₁ ++ [b], h.value x ≤ v) ∧ ∀ x, l₂.head? = some x → v ≤ h.value x := by
  intro back
  induction back with
  | nil =>
    intro front a fuel hline hfresh hfuel hle
    obtain ⟨fuel, rfl⟩ := Nat.exists_eq_succ_of_ne_zero (Nat.ne_zero_of_lt hfuel)
    have hnext : h.next a = none := (Links.at hline).2
    have ha := hfresh a (by simp)
    refine ⟨front, a, [], rfl, ?_, hle, by simp⟩
    exact whileM_false fuel (by simp [insertDoubleGoesOn, Heap.getNext_some ha, hnext])
  | cons b back ih =>
    intro front a fuel hline hfresh hfuel hle
    obtain ⟨fuel, rfl⟩ := Nat.exists_eq_succ_of_ne_zero (Nat.ne_zero_of_lt hfuel)
    have hnext : h.next a = some b := (Links.at hline).2
    have ha := hfresh a (by simp)
    have hb := hfresh b (by simp)
    have hcond : insertDoubleGoesOn h v (some a) = .ok (decide (h.value b < v)) := by
      simp [insertDoubleGoesOn, Heap.getNext_some ha, hnext, Heap.getValue_some hb]
    by_cases hlt : h.value b < v
    · have hbody : h.getNext (some a) = .ok (some b) := by rw [Heap.getNext_some ha, hnext]
      rw [decide_eq_true hlt] at hcond
      rw [List.append_cons] at hline hfresh ⊢
      rw [whileM_true fuel hcond hbody]
      apply ih (front ++ [a]) b fuel hline hfresh (Nat.lt_of_succ_lt_succ hfuel)
      intro x hx
      rcases List.mem_append.mp hx with hx | hx
      · exact hle x hx
      · rw [List.mem_singleton.mp hx]
        exact hlt.le
    · rw [decide_eq_false hlt] at hcond
      refine ⟨front, a, b :: back, rfl, whileM_false fuel hcond, hle, ?_⟩
      intro x hx
      obtain rfl : b = x := Option.some.inj hx
      exact not_lt.mp hlt

section insert

variable {s : State} {l l₁ l₂ : List ℕ} {b : ℕ}

theorem IsDouble.malloc (h : IsDouble s l) (v : ℤ) :
    LinkLine (s.heap.malloc v).next (s.heap.malloc v).prev l :=
  Links.congr h.line (fun _ hx => h.malloc_next v hx) (fun _ hx => h.malloc_prev v hx)

theorem IsDouble.inserted {s' : State} {v : ℤ} (h : IsDouble s (l₁ ++ l₂))
    (hins : Inserted s v l₁ l₂ s') (hlist : s'.list = (l₁ ++ s.heap.fresh :: l₂).head?)
    (hline : LinkLine s'.heap.next s'.heap.prev (l₁ ++ s.heap.fresh :: l₂)) :
    IsDouble s' (l₁ ++ s.heap.fresh :: l₂) where
  list := hlist
  perm := hins.perm h.toOwns
  line := hline

theorem IsDouble.linkAfter (h : IsDouble s (l₁ ++ b :: l₂)) (v : ℤ) :
    LinkLine ((s.heap.malloc v).linkAfter s.heap.fresh b).next
      ((s.heap.malloc v).linkAfter s.heap.fresh b).prev ((l₁ ++ [b]) ++ s.heap.fresh :: l₂) := by
  have hline := h.line
  have hfresh := h.fresh_notMem
  have hnext : (s.heap.malloc v).next b = l₂.head? := by
    rw [h.malloc_next v (by simp)]
    simpa using (Links.at hline).2
  have hb : s.heap.fresh ≠ b := by
    rintro rfl
    simp at hfresh
  rw [List.append_cons] at hline hfresh
  apply hline.insert
  · intro x hx
    have hx' : x ∈ l₁ ++ b :: l₂ := by simpa using hx
    have hxfresh : x ≠ s.heap.fresh := ne_of_mem_of_not_mem hx hfresh
    rw [List.getLast?_concat]
    by_cases hxb : x = b
    · simp [Heap.linkAfter, hxb]
    · rw [if_neg (by simpa using Ne.symm hxb), ← h.malloc_next v hx']
      simp [Heap.linkAfter, hxb, hxfresh]
  · intro x hx
    have hx' : x ∈ l₁ ++ b :: l₂ := by simpa using hx
    have hxfresh : x ≠ s.heap.fresh := ne_of_mem_of_not_mem hx hfresh
    rw [← h.malloc_prev v hx', ← hnext]
    simp [Heap.linkAfter, hxfresh]
  · simp [Heap.linkAfter, hb, hnext]
  · have hhead : l₂.head? ≠ some s.heap.fresh := by
      intro hhead
      exact hfresh (List.mem_append_right _ (List.mem_of_head? hhead))
    simp [Heap.linkAfter, hnext, hhead]

theorem insertDouble_first {a : ℕ} {v : ℤ} (h : IsDouble s (a :: l)) (twosteps : Bool)
    (hfirst : s.heap.value a > v) :
    ∃ s', insertDouble twosteps s v = .ok s' ∧ Inserted s v [] (a :: l) s' ∧
      IsDouble s' (s.heap.fresh :: a :: l) := by
  have ha := h.malloc_lt v (x := a) List.mem_cons_self
  have hnew : s.heap.fresh < (s.heap.malloc v).fresh := Nat.lt_succ_self _
  have hvalue := h.malloc_value v (x := a) List.mem_cons_self
  have hins : Inserted s v [] (a :: l) ⟨{ s.heap.malloc v with
      next := Function.update (s.heap.malloc v).next s.heap.fresh (some a)
      prev := Function.update (s.heap.malloc v).prev a (some s.heap.fresh) }, some s.heap.fresh⟩ := by
    refine ⟨rfl, rfl, by simp, ?_⟩
    intro x hx
    obtain rfl : a = x := Option.some.inj hx
    exact hfirst.le
  have hfront : IsDouble s ([] ++ a :: l) := h
  refine ⟨_, ?_, hins, hfront.inserted hins rfl ?_⟩
  · rw [← hvalue] at hfirst
    rw [insertDouble, h.list, List.head?_cons, if_neg (Option.some_ne_none a)]
    simp [Heap.getValue_some ha, hfirst, Heap.setNext_some hnew, Heap.setPrev_some, ha]
  · apply hfront.line.insert
    · intro x hx
      have hxfresh : x ≠ s.heap.fresh := ne_of_mem_of_not_mem hx h.fresh_notMem
      simp [Function.update_of_ne hxfresh, h.malloc_next v hx]
    · intro x hx
      rw [← h.malloc_prev v hx, List.head?_cons]
      simp [Function.update_apply, eq_comm]
    · simp
    · have hane : s.heap.fresh ≠ a := (ne_of_mem_of_not_mem List.mem_cons_self h.fresh_notMem).symm
      simp [Function.update_of_ne hane, Heap.malloc]

theorem insertDouble_behind {a : ℕ} {v : ℤ} (h : IsDouble s (a :: l)) (twosteps : Bool)
    (hfirst : s.heap.value a ≤ v) :
    ∃ s' l₁ l₂, insertDouble twosteps s v = .ok s' ∧ a :: l = l₁ ++ l₂ ∧ Inserted s v l₁ l₂ s' ∧
      IsDouble s' (l₁ ++ s.heap.fresh :: l₂) := by
  have ha := h.malloc_lt v (x := a) List.mem_cons_self
  have hlen : l.length + 1 = s.heap.fresh := h.length_eq
  have hvalue := h.malloc_value v (x := a) List.mem_cons_self
  obtain ⟨l₁, b, l₂, hl, hscan, hle, hge⟩ := insertDouble_scan v l [] a ((s.heap.malloc v).fresh + 1)
    (h.malloc v) (fun x hx => h.malloc_lt v hx) (by simp [Heap.malloc]; omega)
    (by simpa [hvalue] using hfirst)
  rw [List.nil_append] at hl
  rw [hl] at h
  have hold : ∀ x ∈ l₁ ++ b :: l₂, (s.heap.malloc v).value x = s.heap.value x :=
    fun x hx => h.malloc_value v hx
  have hb := h.malloc_lt v (x := b) (by simp)
  have hplace : placeDouble twosteps (s.heap.malloc v) (some b) (some s.heap.fresh) =
      .ok ((s.heap.malloc v).linkAfter s.heap.fresh b) := by
    apply placeDouble_eq twosteps (Nat.lt_succ_self _) hb
    · exact (ne_of_mem_of_not_mem (by simp) h.fresh_notMem).symm
    · exact Function.update_self ..
    · intro x hx
      apply h.malloc_lt v
      exact Seg.next_mem (h.malloc v).seg (by simp) hx
  have hins : Inserted s v (l₁ ++ [b]) l₂ ⟨(s.heap.malloc v).linkAfter s.heap.fresh b, s.list⟩ := by
    refine ⟨rfl, rfl, ?_, ?_⟩
    · intro x hx
      rw [← hold x (by simp at hx ⊢; tauto)]
      exact hle x hx
    · intro x hx
      rw [← hold x (List.mem_append_right _ (List.mem_cons_of_mem b (List.mem_of_head? hx)))]
      exact hge x hx
  have hsplit : l₁ ++ b :: l₂ = (l₁ ++ [b]) ++ l₂ := List.append_cons ..
  refine ⟨_, l₁ ++ [b], l₂, ?_, by rw [hl, hsplit], hins, ?_⟩
  · rw [insertDouble, h.list, ← hl, List.head?_cons, if_neg (Option.some_ne_none a)]
    simp only [Heap.getValue_some ha, ok_bind, hvalue]
    rw [if_neg (not_lt.mpr hfirst), hscan, ok_bind, hplace, ok_bind]
    rfl
  · refine (hsplit ▸ h).inserted hins ?_ (h.linkAfter v)
    show s.list = _
    rw [h.list]
    cases l₁ <;> rfl

theorem insertDouble_ok (h : IsDouble s l) (twosteps : Bool) (v : ℤ) :
    ∃ s' l₁ l₂, insertDouble twosteps s v = .ok s' ∧ l = l₁ ++ l₂ ∧ Inserted s v l₁ l₂ s' ∧
      IsDouble s' (l₁ ++ s.heap.fresh :: l₂) := by
  cases l with
  | nil =>
    have hlist : s.list = none := h.list
    have hins : Inserted s v [] [] ⟨s.heap.malloc v, some s.heap.fresh⟩ :=
      ⟨rfl, rfl, by simp, by simp⟩
    refine ⟨_, [], [], ?_, rfl, hins, h.inserted hins rfl ?_⟩
    · rw [insertDouble, if_pos hlist]
      rfl
    · simp [LinkLine, Heap.malloc]
  | cons a l =>
    by_cases hfirst : s.heap.value a > v
    · obtain ⟨s', hs', hins, hdouble⟩ := insertDouble_first h twosteps hfirst
      exact ⟨s', [], a :: l, hs', rfl, hins, hdouble⟩
    · exact insertDouble_behind h twosteps (not_lt.mp hfirst)

end insert

theorem isDouble_empty : IsDouble State.empty [] := ⟨⟨rfl, .nil⟩, trivial⟩

/-- After any calls the list is doubly linked over the inserted values, a reversal of it succeeds,
and without reversals it is in order. -/
theorem run_double (twosteps : Bool) (calls : List Call) :
    ∃ s l, runDouble twosteps calls = .ok s ∧ Seg s.heap.next s.list l none ∧ l.Nodup ∧
      (∀ a, s.list = some a → s.heap.prev a = none) ∧
      (∀ a ∈ l, ∀ b ∈ l, s.heap.next a = some b ↔ s.heap.prev b = some a) ∧
      (s.values l : Multiset ℤ) = insertedValues calls ∧
      (.reverse ∉ calls → (s.values l).Pairwise (· ≤ ·)) ∧
      ∃ s', reverseDouble s = .ok s' ∧ Seg s'.heap.next s'.list l.reverse none ∧
        s'.values l.reverse = (s.values l).reverse := by
  have hrun := @run_ok IsDouble (Call.double twosteps) (fun s l h => h.toOwns)
    (fun s l v h => insertDouble_ok h twosteps v) (fun s l h => ⟨reverseDouble_eq h, h.reverse⟩)
  obtain ⟨s, l, hs, h, hperm, hsorted⟩ := hrun calls State.empty [] isDouble_empty
  refine ⟨s, l, hs, ?_, h.nodup, ?_, ?_, ?_, ?_, ?_⟩
  · rw [h.list]
    exact h.line.seg
  · intro a ha
    exact h.line.prev_head (h.list ▸ ha)
  · intro a ha b hb
    exact h.line.next_iff ha hb
  · simpa [State.values] using hperm
  · intro honly
    exact hsorted honly .nil
  · refine ⟨_, reverseDouble_eq h, ?_, values_swap s l _⟩
    rw [h.reverse.list]
    exact h.reverse.line.seg

end CodingForFun.AllLinkedLists
