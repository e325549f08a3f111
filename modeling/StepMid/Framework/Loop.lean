import Mathlib.Logic.Relation

/-!
# Loops with exits

A loop body is a function `σ → σ ⊕ ρ`: `.inl` starts the next turn and `.inr` leaves the
loop with a result. Invariants, termination measures and turn counts are stated once here
for an arbitrary body.
-/

namespace Loop

variable {σ ρ : Type*} {body : σ → σ ⊕ ρ}

/-- At most `n` turns; `none` when the loop is still going. -/
def run (body : σ → σ ⊕ ρ) : Nat → σ → Option ρ
  | 0, _ => none
  | n + 1, s =>
    match body s with
    | .inl t => run body n t
    | .inr r => some r

/-- One turn that stays in the loop. -/
def Next (body : σ → σ ⊕ ρ) (s t : σ) : Prop := body s = .inl t

/-- Any number of turns that stay in the loop. -/
def Reaches (body : σ → σ ⊕ ρ) : σ → σ → Prop := Relation.ReflTransGen (Next body)

/-- The loop started at `s` is left with result `r`. -/
def Yields (body : σ → σ ⊕ ρ) (s : σ) (r : ρ) : Prop :=
  ∃ t, Reaches body s t ∧ body t = .inr r

theorem Reaches.refl (s : σ) : Reaches body s s := Relation.ReflTransGen.refl

theorem Reaches.next {s t : σ} (h : body s = .inl t) : Reaches body s t :=
  Relation.ReflTransGen.single h

theorem Reaches.trans {s t u : σ} (h : Reaches body s t) (h' : Reaches body t u) :
    Reaches body s u :=
  Relation.ReflTransGen.trans h h'

/-- An inductive invariant holds of every state the loop reaches. -/
theorem Reaches.invariant {I : σ → Prop} {s t : σ} (h : Reaches body s t) (hs : I s)
    (hstep : ∀ u v, I u → body u = .inl v → I v) : I t := by
  induction h with
  | refl => exact hs
  | tail _ hn ih => exact hstep _ _ ih hn

/-- The invariant may use that the states it is carried through are reached. -/
theorem Reaches.invariant_reached {I : σ → Prop} {s t : σ} (h : Reaches body s t) (hs : I s)
    (hstep : ∀ u v, Reaches body s u → I u → body u = .inl v → I v) : I t := by
  induction h with
  | refl => exact hs
  | tail hu hn ih => exact hstep _ _ hu ih hn

theorem Reaches.cases_head {s t : σ} (h : Reaches body s t) :
    s = t ∨ ∃ u, body s = .inl u ∧ Reaches body u t :=
  Relation.ReflTransGen.cases_head h

/-- The body is a function, so the states reached lie on one path. -/
theorem Reaches.total {s t u : σ} (h : Reaches body s t) (h' : Reaches body s u) :
    Reaches body t u ∨ Reaches body u t := by
  have hunique : Relator.RightUnique (Next body) := by
    intro a b c hb hc
    exact Sum.inl.inj (hb.symm.trans hc)
  exact Relation.ReflTransGen.total_of_right_unique hunique h h'

theorem Yields.exit {s : σ} {r : ρ} (h : body s = .inr r) : Yields body s r :=
  ⟨s, Reaches.refl s, h⟩

theorem Yields.of_reaches {s t : σ} {r : ρ} (h : Reaches body s t) (hr : Yields body t r) :
    Yields body s r := by
  obtain ⟨u, hu, he⟩ := hr
  exact ⟨u, h.trans hu, he⟩

theorem Yields.of_next {s t : σ} {r : ρ} (h : body s = .inl t) (hr : Yields body t r) :
    Yields body s r :=
  Yields.of_reaches (Reaches.next h) hr

theorem Yields.after_next {s t : σ} {r : ρ} (hr : Yields body s r) (h : body s = .inl t) :
    Yields body t r := by
  obtain ⟨u, hu, he⟩ := hr
  rcases hu.cases_head with rfl | ⟨v, hv, hvu⟩
  · rw [h] at he
    cases he
  · have hvt : v = t := Sum.inl.inj (hv.symm.trans h)
    subst hvt
    exact ⟨u, hvu, he⟩

theorem Yields.after_reaches {s t : σ} {r : ρ} (hr : Yields body s r) (h : Reaches body s t) :
    Yields body t r := by
  induction h with
  | refl => exact hr
  | tail _ hn ih => exact ih.after_next hn

theorem Yields.unique {s : σ} {r r' : ρ} (h : Yields body s r) (h' : Yields body s r') :
    r = r' := by
  obtain ⟨t, ht, he⟩ := h
  obtain ⟨u, hu, he'⟩ := h'.after_reaches ht
  rcases hu.cases_head with rfl | ⟨v, hv, -⟩
  · rw [he] at he'
    exact Sum.inr.inj he'
  · rw [he] at hv
    cases hv

/-- What holds of the exits of all states satisfying an invariant holds of the result. -/
theorem Yields.invariant {I : σ → Prop} {Q : ρ → Prop} {s : σ} {r : ρ} (h : Yields body s r)
    (hs : I s) (hstep : ∀ u v, I u → body u = .inl v → I v)
    (hexit : ∀ u q, I u → body u = .inr q → Q q) : Q r := by
  obtain ⟨t, ht, he⟩ := h
  exact hexit t r (ht.invariant hs hstep) he

theorem Yields.invariant_reached {I : σ → Prop} {Q : ρ → Prop} {s : σ} {r : ρ}
    (h : Yields body s r) (hs : I s)
    (hstep : ∀ u v, Reaches body s u → I u → body u = .inl v → I v)
    (hexit : ∀ u q, Reaches body s u → I u → body u = .inr q → Q q) : Q r := by
  obtain ⟨t, ht, he⟩ := h
  exact hexit t r ht (ht.invariant_reached hs hstep) he

/-- A body that agrees on the states reached reaches the same ones. -/
theorem Reaches.congr {body' : σ → σ ⊕ ρ} {s t : σ} (h : Reaches body s t)
    (hbody : ∀ u, Reaches body s u → body' u = body u) : Reaches body' s t := by
  induction h with
  | refl => exact Reaches.refl s
  | tail hu hn ih => exact ih.trans (Reaches.next ((hbody _ hu).trans hn))

theorem Yields.congr {body' : σ → σ ⊕ ρ} {s : σ} {r : ρ} (h : Yields body s r)
    (hbody : ∀ u, Reaches body s u → body' u = body u) : Yields body' s r := by
  obtain ⟨t, ht, he⟩ := h
  exact ⟨t, ht.congr hbody, (hbody t ht).trans he⟩

/-- Two bodies that agree until they part, and whose results are related when they part, have
related results. -/
theorem Yields.part {body' : σ → σ ⊕ ρ} {Q : ρ → ρ → Prop} {s : σ} {r : ρ}
    (h : Yields body s r) (hrefl : Q r r)
    (hpart : ∀ t, Reaches body s t → Yields body t r →
      body' t = body t ∨ ∃ r', Yields body' t r' ∧ Q r' r) :
    ∃ r', Yields body' s r' ∧ Q r' r := by
  obtain ⟨u, hu, he⟩ := h
  suffices hrest : ∀ t, Reaches body s t → Reaches body t u → ∃ r', Yields body' t r' ∧ Q r' r from
    hrest s (Reaches.refl s) hu
  intro t ht htu
  induction htu using Relation.ReflTransGen.head_induction_on with
  | refl =>
    rcases hpart u ht (Yields.exit he) with hagree | hparted
    · exact ⟨r, Yields.exit (hagree.trans he), hrefl⟩
    · exact hparted
  | head hn htail ih =>
    rcases hpart _ ht (Yields.of_next hn ⟨u, htail, he⟩) with hagree | hparted
    · obtain ⟨r', hr', hq⟩ := ih (ht.trans (Reaches.next hn))
      exact ⟨r', Yields.of_next (hagree.trans hn) hr', hq⟩
    · exact hparted

/-- Two bodies that run alongside each other have corresponding results. -/
theorem Yields.map {τ κ : Type*} {body' : τ → τ ⊕ κ} {f : σ → τ} {g : ρ → κ}
    (hbody : ∀ s, body' (f s) = Sum.map f g (body s)) {s : σ} {r : ρ} (h : Yields body s r) :
    Yields body' (f s) (g r) := by
  obtain ⟨t, ht, he⟩ := h
  refine ⟨f t, ?_, ?_⟩
  · apply Relation.ReflTransGen.lift f ?_ s t ht
    intro u v huv
    have hnext : body u = .inl v := huv
    simp only [Function.onFun, Next, hbody, hnext, Sum.map_inl]
  · rw [hbody, he]
    rfl

theorem yields_of_run {n : Nat} {s : σ} {r : ρ} (h : run body n s = some r) :
    Yields body s r := by
  induction n generalizing s with
  | zero => simp [run] at h
  | succ n ih =>
    rw [run] at h
    cases hb : body s with
    | inl t =>
      rw [hb] at h
      exact Yields.of_next hb (ih h)
    | inr q =>
      rw [hb] at h
      cases h
      exact Yields.exit hb

/-- A measure that every turn lowers bounds the number of turns. -/
theorem run_isSome {μ : σ → Nat} (hμ : ∀ s t, body s = .inl t → μ t < μ s) {n : Nat} {s : σ}
    (hn : μ s < n) : (run body n s).isSome := by
  induction n generalizing s with
  | zero => omega
  | succ n ih =>
    rw [run]
    cases hb : body s with
    | inl t =>
      have := hμ s t hb
      exact ih (by omega)
    | inr q => rfl

/-- The result of a loop whose turns lower a measure. -/
def eval (body : σ → σ ⊕ ρ) (μ : σ → Nat) (hμ : ∀ s t, body s = .inl t → μ t < μ s) (s : σ) : ρ :=
  (run body (μ s + 1) s).get (run_isSome hμ (Nat.lt_succ_self _))

theorem eval_yields {μ : σ → Nat} (hμ : ∀ s t, body s = .inl t → μ t < μ s) (s : σ) :
    Yields body s (eval body μ hμ s) :=
  yields_of_run (Option.some_get _).symm

theorem eval_eq {μ : σ → Nat} (hμ : ∀ s t, body s = .inl t → μ t < μ s) {s : σ} {r : ρ}
    (h : Yields body s r) : eval body μ hμ s = r :=
  (eval_yields hμ s).unique h

/-- How many of the first `n` turns go from `s` to `t` with `p s t`. -/
def count (body : σ → σ ⊕ ρ) (p : σ → σ → Bool) : Nat → σ → Nat
  | 0, _ => 0
  | n + 1, s =>
    match body s with
    | .inl t => (if p s t then 1 else 0) + count body p n t
    | .inr _ => 0

/-- A potential that pays `k` for every counted turn bounds their number. -/
theorem count_le {p : σ → σ → Bool} {μ : σ → Nat} {k : Nat}
    (hμ : ∀ s t, body s = .inl t → μ t + (if p s t then k else 0) ≤ μ s) (n : Nat) (s : σ) :
    k * count body p n s ≤ μ s := by
  induction n generalizing s with
  | zero => simp [count]
  | succ n ih =>
    rw [count]
    cases hb : body s with
    | inl t =>
      have hpay := hμ s t hb
      have hrest := ih t
      cases hp : p s t
      · simp only [hp, Bool.false_eq_true, if_false, Nat.zero_add] at hpay ⊢
        omega
      · simp only [hp, if_true, Nat.mul_add, Nat.mul_one] at hpay ⊢
        omega
    | inr q => simp

end Loop
