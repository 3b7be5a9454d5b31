import CodingForFun.Lib.Loop

/-!
# Sequences of calls

A program is called again and again, and a call may fail (`step`). `Always P` says that no call of a
sequence fails and that `P` holds in every state on the way; `Each Q` says that every call is made in a
state in which it meets `Q`. `always_iff` is the rule for the exact condition on the calls under which
a property always holds: it is found out one call at a time, and the property itself may be used of the
state before the call.
-/

namespace CodingForFun.Lib

variable {σ α ε : Type}

/-- No action fails, and `P` holds in the state and in all states that the actions lead to. -/
def Always (step : σ → α → Except ε σ) (P : σ → Prop) : σ → List α → Prop
  | s, [] => P s
  | s, a :: as => P s ∧ ∃ s', step s a = .ok s' ∧ Always step P s' as

/-- Every action meets `Q` in the state in which it is taken. -/
def Each (step : σ → α → Except ε σ) (Q : σ → α → Prop) : σ → List α → Prop
  | _, [] => True
  | s, a :: as => Q s a ∧ ∀ s', step s a = .ok s' → Each step Q s' as

variable {step : σ → α → Except ε σ} {P inv : σ → Prop} {Q ok : σ → α → Prop}

theorem Always.start {s : σ} {as : List α} (h : Always step P s as) : P s := by
  cases as with
  | nil => exact h
  | cons a as => exact h.1

theorem each_cons {s s' : σ} {a : α} {as : List α} (h : step s a = .ok s') :
    Each step Q s (a :: as) ↔ Q s a ∧ Each step Q s' as := by
  refine and_congr_right fun _ => ⟨fun hall => hall s' h, fun hrest s'' hs'' => ?_⟩
  obtain rfl := Except.ok.inj (h.symm.trans hs'')
  exact hrest

theorem each_of_forall (h : ∀ s a, Q s a) (as : List α) : ∀ s, Each step Q s as := by
  induction as with
  | nil => exact fun _ => trivial
  | cons a as ih => exact fun s => ⟨h s a, fun s' _ => ih s'⟩

instance Each.decidable [∀ s a, Decidable (Q s a)] :
    (s : σ) → (as : List α) → Decidable (Each step Q s as)
  | _, [] => .isTrue trivial
  | s, a :: as =>
    match h : step s a with
    | .error _ => decidable_of_iff (Q s a) ⟨fun hQ => ⟨hQ, fun _ h' => nomatch h.symm.trans h'⟩, And.left⟩
    | .ok s' =>
      have := Each.decidable s' as
      decidable_of_iff (Q s a ∧ Each step Q s' as) (each_cons h).symm

theorem Always.final {as : List α} :
    ∀ {s : σ}, Always step P s as → ∃ s', as.foldlM step s = .ok s' ∧ P s' := by
  induction as with
  | nil =>
    intro s h
    exact ⟨s, rfl, h⟩
  | cons a as ih =>
    rintro s ⟨-, s₁, hs₁, h⟩
    obtain ⟨s', hs', hP⟩ := ih h
    exact ⟨s', by rw [List.foldlM_cons, hs₁, ok_bind, hs'], hP⟩

theorem always_iff
    (hstep : ∀ s a, inv s → P s → ok s a → ∃ s', step s a = .ok s' ∧ (P s' ↔ Q s a) ∧ inv s')
    (as : List α) :
    ∀ s, inv s → P s → Each step ok s as → (Always step P s as ↔ Each step Q s as) := by
  induction as with
  | nil =>
    intro s _ hP _
    exact iff_of_true hP trivial
  | cons a as ih =>
    rintro s hinv hP ⟨hok, hrest⟩
    obtain ⟨s', hs', hPQ, hinv'⟩ := hstep s a hinv hP hok
    rw [each_cons hs']
    constructor
    · intro h
      obtain ⟨-, s'', hs'', halways⟩ := h
      obtain rfl := Except.ok.inj (hs'.symm.trans hs'')
      have hP' := halways.start
      exact ⟨hPQ.mp hP', (ih s' hinv' hP' (hrest s' hs')).mp halways⟩
    · intro h
      obtain ⟨hQ, heach⟩ := h
      have hP' := hPQ.mpr hQ
      exact ⟨hP, s', hs', (ih s' hinv' hP' (hrest s' hs')).mpr heach⟩

end CodingForFun.Lib
