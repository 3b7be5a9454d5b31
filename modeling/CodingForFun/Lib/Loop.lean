import Mathlib.Data.Int.Notation
import Mathlib.Data.Nat.Notation
import Mathlib.Logic.Function.Basic

/-!
# Loops that may fail

A `while` loop whose condition and body may fault is `whileM`, cut off after `fuel` rounds with a
fault of its own (`stop`). `whileM_rule` is the one rule the loops of this development are proved
with: an invariant, a measure that every round lowers, and what holds of the outcome when the loop
leaves or a round faults. With more fuel than the measure the cut-off is never met, so the rule
gives termination too. A loop that counts up or down (`forUp`, `forDown`) is proved with an invariant
that depends on the counter (`forUp_ok`, `forDown_ok`), a loop over a list with one that depends on
the elements done (`foldlM_ok`). `foldlM_update` is the rule for a `for` loop over
distinct keys in which the round of a key rewrites the entry of that key only.
-/

namespace CodingForFun.Lib

variable {ε σ α β : Type}

@[simp] theorem ok_bind (a : α) (f : α → Except ε β) : (Except.ok a >>= f) = f a := rfl

@[simp] theorem error_bind (e : ε) (f : α → Except ε β) :
    ((Except.error e : Except ε α) >>= f) = .error e := rfl

@[simp] theorem pure_eq_ok (a : α) : (pure a : Except ε α) = .ok a := rfl

theorem exists_of_bind_eq_ok {x : Except ε α} {f : α → Except ε β} {b : β} (h : (x >>= f) = .ok b) :
    ∃ a, x = .ok a ∧ f a = .ok b := by
  cases x with
  | error e => cases h
  | ok a => exact ⟨a, rfl, h⟩

/-- `while (cond s) s = body s;`, cut off after `fuel` tests of the condition. -/
def whileM (stop : ε) (cond : σ → Except ε Bool) (body : σ → Except ε σ) : ℕ → σ → Except ε σ
  | 0, _ => .error stop
  | fuel + 1, s => do
    if ← cond s then
      let s ← body s
      whileM stop cond body fuel s
    else
      pure s

/-- `do s = body s; while (cond s);` -/
def doWhileM (stop : ε) (cond : σ → Except ε Bool) (body : σ → Except ε σ) (fuel : ℕ) (s : σ) :
    Except ε σ := do
  let s ← body s
  whileM stop cond body fuel s

section rules

variable {stop : ε} {cond : σ → Except ε Bool} {body : σ → Except ε σ}

theorem whileM_true {s s' : σ} (fuel : ℕ) (hcond : cond s = .ok true) (hbody : body s = .ok s') :
    whileM stop cond body (fuel + 1) s = whileM stop cond body fuel s' := by
  simp [whileM, hcond, hbody]

theorem whileM_false {s : σ} (fuel : ℕ) (hcond : cond s = .ok false) :
    whileM stop cond body (fuel + 1) s = .ok s := by
  simp [whileM, hcond]

theorem whileM_error {s : σ} {e : ε} (fuel : ℕ) (hcond : cond s = .ok true)
    (hbody : body s = .error e) : whileM stop cond body (fuel + 1) s = .error e := by
  simp [whileM, hcond, hbody]

theorem whileM_cond_error {s : σ} {e : ε} (fuel : ℕ) (hcond : cond s = .error e) :
    whileM stop cond body (fuel + 1) s = .error e := by
  simp [whileM, hcond]

theorem whileM_unique {fuel fuel' : ℕ} {s a b : σ} (h : whileM stop cond body fuel s = .ok a)
    (h' : whileM stop cond body fuel' s = .ok b) : a = b := by
  induction fuel generalizing fuel' s with
  | zero => exact absurd h (by simp [whileM])
  | succ fuel ih =>
    cases fuel' with
    | zero => exact absurd h' (by simp [whileM])
    | succ fuel' =>
      rw [whileM] at h h'
      cases hcond : cond s with
      | error e => simp [hcond] at h
      | ok go =>
        rw [hcond, ok_bind] at h h'
        cases go with
        | false => exact Except.ok.inj (h.symm.trans h')
        | true =>
          cases hbody : body s with
          | error e => simp [hbody] at h
          | ok s' =>
            rw [if_pos rfl, hbody, ok_bind] at h h'
            exact ih h h'

/-- What one test of the condition (and the round it allows) may do, for the loop to end in
`post`: a round that keeps `inv` and lowers `measure`, an exit, or a fault. -/
inductive Round (stop : ε) (cond : σ → Except ε Bool) (body : σ → Except ε σ) (inv : σ → Prop)
    (measure : σ → ℕ) (post : Except ε σ → Prop) (s : σ) : Prop
  | next (s' : σ) (hcond : cond s = .ok true) (hbody : body s = .ok s') (hinv : inv s')
      (hlt : measure s' < measure s)
  | exit (hcond : cond s = .ok false) (hpost : post (.ok s))
  | fault (e : ε) (hcond : cond s = .ok true) (hbody : body s = .error e) (hpost : post (.error e))

theorem whileM_rule (inv : σ → Prop) (measure : σ → ℕ) (post : Except ε σ → Prop)
    (hround : ∀ s, inv s → Round stop cond body inv measure post s) :
    ∀ (fuel : ℕ) (s : σ), inv s → measure s < fuel → post (whileM stop cond body fuel s) := by
  intro fuel
  induction fuel with
  | zero => intro s _ hlt; exact absurd hlt (Nat.not_lt_zero _)
  | succ fuel ih =>
    intro s hinv hlt
    cases hround s hinv with
    | next s' hcond hbody hinv' hlt' =>
      rw [whileM_true fuel hcond hbody]
      exact ih s' hinv' (Nat.lt_of_lt_of_le hlt' (Nat.le_of_lt_succ hlt))
    | exit hcond hpost => rwa [whileM_false fuel hcond]
    | fault e hcond hbody hpost => rwa [whileM_error fuel hcond hbody]

theorem whileM_ok (inv : σ → Prop) (measure : σ → ℕ) {post : σ → Prop}
    (hround : ∀ s, inv s →
      (∃ s', cond s = .ok true ∧ body s = .ok s' ∧ inv s' ∧ measure s' < measure s) ∨
        (cond s = .ok false ∧ post s))
    (fuel : ℕ) (s : σ) (hinv : inv s) (hfuel : measure s < fuel) :
    ∃ s', whileM stop cond body fuel s = .ok s' ∧ post s' := by
  have hall : ∀ s, inv s →
      Round stop cond body inv measure (fun r => ∃ s', r = .ok s' ∧ post s') s := by
    intro s hs
    rcases hround s hs with ⟨s', hcond, hbody, hinv', hlt⟩ | ⟨hcond, hpost⟩
    · exact .next s' hcond hbody hinv' hlt
    · exact .exit hcond ⟨s, rfl, hpost⟩
  exact whileM_rule inv measure _ hall fuel s hinv hfuel

theorem whileM_states (state : ℕ → σ) (n : ℕ) {fuel : ℕ}
    (hround : ∀ i < n, cond (state i) = .ok true ∧ body (state i) = .ok (state (i + 1)))
    (hexit : cond (state n) = .ok false) (hfuel : n < fuel) :
    whileM stop cond body fuel (state 0) = .ok (state n) := by
  induction n generalizing state fuel with
  | zero =>
    obtain ⟨fuel, rfl⟩ := Nat.exists_eq_add_of_lt hfuel
    exact whileM_false _ hexit
  | succ n ih =>
    obtain ⟨fuel, rfl⟩ := Nat.exists_eq_add_of_lt hfuel
    obtain ⟨hcond, hbody⟩ := hround 0 (Nat.zero_lt_succ n)
    rw [whileM_true _ hcond hbody]
    apply ih (fun i => state (i + 1)) (fun i hi => hround (i + 1) (Nat.succ_lt_succ hi)) hexit
    omega

theorem whileM_forever (inv : σ → Prop)
    (hround : ∀ s, inv s → ∃ s', cond s = .ok true ∧ body s = .ok s' ∧ inv s') (fuel : ℕ) {s : σ} (hinv : inv s) :
    whileM stop cond body fuel s = .error stop := by
  induction fuel generalizing s with
  | zero => rfl
  | succ fuel ih =>
    obtain ⟨s', hcond, hbody, hinv'⟩ := hround s hinv
    rw [whileM_true fuel hcond hbody]
    exact ih hinv'

theorem doWhileM_eq {s s' : σ} (fuel : ℕ) (hbody : body s = .ok s') :
    doWhileM stop cond body fuel s = whileM stop cond body fuel s' := by
  simp [doWhileM, hbody]

end rules

/-! ### Loops that count -/

/-- So many rounds of a loop whose counter is changed by `step` after each. -/
def rounds (step : ℤ) (body : ℤ → σ → Except ε σ) : ℕ → ℤ → σ → Except ε σ
  | 0, _, s => pure s
  | n + 1, i, s => do
    let s ← body i s
    rounds step body n (i + step) s

/-- `for (i = lo; i < hi; i++) s = body i s;` -/
def forUp (lo hi : ℤ) (body : ℤ → σ → Except ε σ) (s : σ) : Except ε σ :=
  rounds 1 body (hi - lo).toNat lo s

/-- `for (i = hi; i >= lo; i--) s = body i s;` -/
def forDown (hi lo : ℤ) (body : ℤ → σ → Except ε σ) (s : σ) : Except ε σ :=
  rounds (-1) body (hi + 1 - lo).toNat hi s

theorem step_add_mul (i step : ℤ) (k : ℕ) : i + step + step * k = i + step * (k + 1 : ℕ) := by
  rw [Int.natCast_succ, Int.mul_add, Int.mul_one]
  omega

section counting

variable (body : ℤ → σ → Except ε σ) {lo hi : ℤ} {s : σ}

theorem rounds_ok (step : ℤ) (inv : ℤ → σ → Prop) :
    ∀ (n : ℕ) (i : ℤ) (s : σ), inv i s →
      (∀ k < n, ∀ s, inv (i + step * k) s →
        ∃ s', body (i + step * k) s = .ok s' ∧ inv (i + step * k + step) s') →
      ∃ s', rounds step body n i s = .ok s' ∧ inv (i + step * n) s' := by
  intro n
  induction n with
  | zero =>
    intro i s hinv _
    refine ⟨s, rfl, ?_⟩
    rwa [Int.natCast_zero, Int.mul_zero, Int.add_zero]
  | succ n ih =>
    intro i s hinv hround
    have hfirst := hround 0 (Nat.zero_lt_succ n) s
    rw [Int.natCast_zero, Int.mul_zero, Int.add_zero] at hfirst
    obtain ⟨s₁, hs₁, hinv₁⟩ := hfirst hinv
    obtain ⟨s', hs', hinv'⟩ := ih (i + step) s₁ hinv₁ fun k hk s => by
      rw [step_add_mul]
      exact hround (k + 1) (Nat.succ_lt_succ hk) s
    refine ⟨s', ?_, ?_⟩
    · rw [rounds, hs₁, ok_bind, hs']
    · rwa [step_add_mul] at hinv'

theorem rounds_states (step : ℤ) (state : ℕ → σ) (n : ℕ) (i : ℤ)
    (hround : ∀ k < n, body (i + step * k) (state k) = .ok (state (k + 1))) :
    rounds step body n i (state 0) = .ok (state n) := by
  induction n generalizing i state with
  | zero => rfl
  | succ n ih =>
    have hfirst := hround 0 (Nat.zero_lt_succ n)
    rw [Int.natCast_zero, Int.mul_zero, Int.add_zero] at hfirst
    rw [rounds, hfirst, ok_bind]
    apply ih (fun k => state (k + 1)) (i + step)
    intro k hk
    rw [step_add_mul]
    exact hround (k + 1) (Nat.succ_lt_succ hk)

theorem forUp_states (state : ℕ → σ) (n : ℕ) (hround : ∀ k < n, body (lo + k) (state k) = .ok (state (k + 1))) :
    forUp lo (lo + n) body (state 0) = .ok (state n) := by
  rw [forUp, show (lo + n - lo).toNat = n by omega]
  apply rounds_states
  intro k hk
  rw [Int.one_mul]
  exact hround k hk

theorem forUp_ok (inv : ℤ → σ → Prop) (hle : lo ≤ hi) (hinv : inv lo s)
    (hround : ∀ i s, lo ≤ i → i < hi → inv i s → ∃ s', body i s = .ok s' ∧ inv (i + 1) s') :
    ∃ s', forUp lo hi body s = .ok s' ∧ inv hi s' := by
  obtain ⟨s', hs', hinv'⟩ := rounds_ok body 1 inv (hi - lo).toNat lo s hinv
    fun k hk s hs => hround _ s (by omega) (by omega) hs
  refine ⟨s', hs', ?_⟩
  rwa [show lo + 1 * ((hi - lo).toNat : ℤ) = hi by omega] at hinv'

theorem forDown_ok (inv : ℤ → σ → Prop) (hle : lo ≤ hi + 1) (hinv : inv hi s)
    (hround : ∀ i s, lo ≤ i → i ≤ hi → inv i s → ∃ s', body i s = .ok s' ∧ inv (i - 1) s') :
    ∃ s', forDown hi lo body s = .ok s' ∧ inv (lo - 1) s' := by
  obtain ⟨s', hs', hinv'⟩ := rounds_ok body (-1) inv (hi + 1 - lo).toNat hi s hinv
    fun k hk s hs => hround _ s (by omega) (by omega) hs
  refine ⟨s', hs', ?_⟩
  rwa [show hi + -1 * ((hi + 1 - lo).toNat : ℤ) = lo - 1 by omega] at hinv'

theorem rounds_error {e : ε} (step : ℤ) (inv : ℤ → σ → Prop) :
    ∀ (m n : ℕ) (i : ℤ) (s : σ), m < n → inv i s →
      (∀ k < m, ∀ s, inv (i + step * k) s →
        ∃ s', body (i + step * k) s = .ok s' ∧ inv (i + step * k + step) s') →
      (∀ s, inv (i + step * m) s → body (i + step * m) s = .error e) →
      rounds step body n i s = .error e := by
  intro m
  induction m with
  | zero =>
    intro n i s hlt hinv _ hfault
    obtain ⟨n, rfl⟩ := Nat.exists_eq_add_of_lt hlt
    rw [Int.natCast_zero, Int.mul_zero, Int.add_zero] at hfault
    rw [rounds, hfault s hinv, error_bind]
  | succ m ih =>
    intro n i s hlt hinv hround hfault
    obtain ⟨n, rfl⟩ := Nat.exists_eq_add_of_lt hlt
    have hfirst := hround 0 (Nat.zero_lt_succ m) s
    rw [Int.natCast_zero, Int.mul_zero, Int.add_zero] at hfirst
    obtain ⟨s₁, hs₁, hinv₁⟩ := hfirst hinv
    rw [rounds, hs₁, ok_bind]
    refine ih _ (i + step) s₁ (Nat.lt_of_succ_lt_succ hlt) hinv₁ (fun k hk s => ?_) fun s => ?_
    · rw [step_add_mul]
      exact hround (k + 1) (Nat.succ_lt_succ hk) s
    · rw [step_add_mul]
      exact hfault s

theorem forUp_error {e : ε} (inv : ℤ → σ → Prop) {m : ℤ} (hlo : lo ≤ m) (hhi : m < hi) (hinv : inv lo s)
    (hround : ∀ i s, lo ≤ i → i < m → inv i s → ∃ s', body i s = .ok s' ∧ inv (i + 1) s')
    (hfault : ∀ s, inv m s → body m s = .error e) : forUp lo hi body s = .error e := by
  have hm : lo + 1 * ((m - lo).toNat : ℤ) = m := by omega
  refine rounds_error body 1 inv (m - lo).toNat (hi - lo).toNat lo s (by omega) hinv
    (fun k hk s hs => hround _ s (by omega) (by omega) hs) fun s => ?_
  rw [hm]
  exact hfault s

theorem forUp_of_le (h : hi ≤ lo) : forUp lo hi body s = .ok s := by
  rw [forUp, show (hi - lo).toNat = 0 by omega]
  rfl

theorem forDown_of_le (h : lo ≤ hi) : forDown hi lo body s = (body hi s >>= forDown (hi - 1) lo body) := by
  have hfirst : (hi + 1 - lo).toNat = (hi - 1 + 1 - lo).toNat + 1 := by omega
  rw [forDown, hfirst, rounds]
  rfl

theorem forDown_of_lt (h : hi < lo) : forDown hi lo body s = .ok s := by
  rw [forDown, show (hi + 1 - lo).toNat = 0 by omega]
  rfl

end counting

/-! ### Loops over a list -/

/-- The rule for a `for` loop; the invariant depends on the elements that are done. -/
theorem foldlM_ok {step : σ → α → Except ε σ} (inv : List α → σ → Prop) (l : List α) {s : σ}
    (hinv : inv [] s)
    (hround : ∀ done a rest s, done ++ a :: rest = l → inv done s →
      ∃ s', step s a = .ok s' ∧ inv (done ++ [a]) s') :
    ∃ s', l.foldlM step s = .ok s' ∧ inv l s' := by
  have hall : ∀ (rest done : List α) (s : σ), done ++ rest = l → inv done s →
      ∃ s', rest.foldlM step s = .ok s' ∧ inv l s' := by
    intro rest
    induction rest with
    | nil =>
      intro done s hl hs
      rw [List.append_nil] at hl
      exact ⟨s, rfl, hl ▸ hs⟩
    | cons a rest ih =>
      intro done s hl hs
      obtain ⟨s₁, hs₁, hinv₁⟩ := hround done a rest s hl hs
      obtain ⟨s', hs', hinv'⟩ := ih (done ++ [a]) s₁ (by rw [← List.append_cons, hl]) hinv₁
      exact ⟨s', by rw [List.foldlM_cons, hs₁, ok_bind, hs'], hinv'⟩
  exact hall l [] s rfl hinv

theorem foldl_ok {step : σ → α → σ} (inv : List α → σ → Prop) (l : List α) {s : σ} (hinv : inv [] s)
    (hround : ∀ done a rest s, done ++ a :: rest = l → inv done s → inv (done ++ [a]) (step s a)) :
    inv l (l.foldl step s) := by
  obtain ⟨s', hs', hinv'⟩ := @foldlM_ok Empty σ α (fun s a => pure (step s a)) inv l s hinv
    fun done a rest s hl hs => ⟨step s a, pure_eq_ok _, hround done a rest s hl hs⟩
  rw [List.foldlM_pure] at hs'
  rwa [← Except.ok.inj hs'] at hinv'

theorem foldlM_congr {step step' : σ → α → Except ε σ} {l : List α}
    (h : ∀ s, ∀ a ∈ l, step s a = step' s a) (s : σ) : l.foldlM step s = l.foldlM step' s := by
  induction l generalizing s with
  | nil => rfl
  | cons a l ih =>
    rw [List.foldlM_cons, List.foldlM_cons, h s a List.mem_cons_self]
    congr 1
    funext s'
    exact ih (fun s b hb => h s b (List.mem_cons_of_mem a hb)) s'

/-- A `for` loop whose rounds succeed where those of another do, with the same outcome. -/
theorem foldlM_refines {step step' : σ → α → Except ε σ}
    (hstep : ∀ s a s', step s a = .ok s' → step' s a = .ok s') {l : List α} {s s' : σ}
    (h : l.foldlM step s = .ok s') : l.foldlM step' s = .ok s' := by
  induction l generalizing s with
  | nil => exact h
  | cons a l ih =>
    rw [List.foldlM_cons] at h ⊢
    cases ha : step s a with
    | error e => simp [ha] at h
    | ok s₁ =>
      rw [ha, ok_bind] at h
      rw [hstep s a s₁ ha, ok_bind]
      exact ih h

/-- A `for` loop over distinct keys that rewrites the entry of one key a round. The state `s`
stands for the entries `f` in the sense of `rep`. -/
theorem foldlM_update {κ : Type} [DecidableEq κ] {step : σ → κ → Except ε σ}
    {rep : (κ → α) → σ → Prop} {new : κ → α → α} :
    ∀ (l : List κ), l.Nodup →
      (∀ k ∈ l, ∀ f s, rep f s →
        ∃ s', step s k = .ok s' ∧ rep (Function.update f k (new k (f k))) s') →
      ∀ f s, rep f s →
        ∃ s', l.foldlM step s = .ok s' ∧ rep (fun k => if k ∈ l then new k (f k) else f k) s' := by
  intro l
  induction l with
  | nil => intro _ _ f s hrep; exact ⟨s, rfl, by simpa using hrep⟩
  | cons k l ih =>
    intro hnodup hstep f s hrep
    obtain ⟨hk, hl⟩ := List.nodup_cons.mp hnodup
    obtain ⟨s₁, hs₁, hrep₁⟩ := hstep k List.mem_cons_self f s hrep
    obtain ⟨s', hs', hrep'⟩ := ih hl (fun a ha => hstep a (List.mem_cons_of_mem k ha)) _ s₁ hrep₁
    have hentries : (fun a => if a ∈ k :: l then new a (f a) else f a) = fun a =>
        if a ∈ l then new a (Function.update f k (new k (f k)) a)
        else Function.update f k (new k (f k)) a := by
      funext a
      by_cases ha : a = k
      · subst ha
        simp [hk]
      · simp [ha]
    rw [hentries]
    exact ⟨s', by rw [List.foldlM_cons, hs₁, ok_bind, hs'], hrep'⟩

end CodingForFun.Lib
