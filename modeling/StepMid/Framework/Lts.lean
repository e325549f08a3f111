import Mathlib.Logic.Function.Basic

/-!
# Labelled transition systems

A system takes a step for every label that its state allows. A run records its labels, so that an
invariant may speak of what happened before.
-/

structure Lts (σ ℓ : Type*) where
  Allowed : σ → ℓ → Prop
  step : σ → ℓ → σ

namespace Lts

variable {σ ℓ : Type*} {L : Lts σ ℓ} {s₀ : σ}

/-- The runs from `s₀`, with their labels and last states. -/
inductive Run (L : Lts σ ℓ) (s₀ : σ) : List ℓ → σ → Prop
  | start : Run L s₀ [] s₀
  | step {ls : List ℓ} {s : σ} (l : ℓ) : Run L s₀ ls s → L.Allowed s l →
      Run L s₀ (ls ++ [l]) (L.step s l)

/-- What holds at the start and is kept by every step holds of every run. -/
theorem Run.invariant {I : List ℓ → σ → Prop} (start : I [] s₀)
    (step : ∀ ls s l, I ls s → L.Allowed s l → I (ls ++ [l]) (L.step s l)) {ls : List ℓ} {s : σ}
    (h : L.Run s₀ ls s) : I ls s := by
  induction h with
  | start => exact start
  | step l _ hl ih => exact step _ _ l ih hl

/-- An invariant of the runs whose labels all meet a condition. -/
theorem Run.invariant_of {P : ℓ → Prop} {I : List ℓ → σ → Prop} (start : I [] s₀)
    (step : ∀ ls s l, I ls s → L.Allowed s l → P l → I (ls ++ [l]) (L.step s l)) {ls : List ℓ}
    {s : σ} (h : L.Run s₀ ls s) (hP : ∀ l ∈ ls, P l) : I ls s := by
  refine h.invariant (I := fun ls s => (∀ l ∈ ls, P l) → I ls s) (fun _ => start) ?_ hP
  intro ls s l ih hl hP
  refine step ls s l (ih fun k hk => hP k ?_) hl (hP l ?_)
  · exact List.mem_append_left _ hk
  · exact List.mem_append_right _ (List.mem_singleton_self l)

/-- The last step of a run. -/
theorem Run.last {ls : List ℓ} {l : ℓ} {s : σ} (h : L.Run s₀ (ls ++ [l]) s) :
    ∃ s', L.Run s₀ ls s' ∧ L.Allowed s' l ∧ s = L.step s' l := by
  generalize hks : ls ++ [l] = ks at h
  cases h with
  | start => exact absurd hks (List.concat_ne_nil l ls)
  | @step ms s' k hrun hk =>
    obtain ⟨rfl, hlk⟩ := List.append_inj' hks rfl
    cases hlk
    exact ⟨s', hrun, hk, rfl⟩

/-- Where every step is a step of a part of the state or leaves the part alone, a run is a run of
the part. -/
theorem Run.project {τ m : Type*} {M : Lts τ m} (part : σ → τ) {label : ℓ → Option m}
    (moves : ∀ s l k, L.Allowed s l → label l = some k →
      M.Allowed (part s) k ∧ part (L.step s l) = M.step (part s) k)
    (rests : ∀ s l, L.Allowed s l → label l = none → part (L.step s l) = part s) {ls : List ℓ}
    {s : σ} (h : L.Run s₀ ls s) : M.Run (part s₀) (ls.filterMap label) (part s) := by
  induction h with
  | start => exact .start
  | @step ls s l _ hl ih =>
    rw [List.filterMap_append]
    cases hk : label l with
    | none =>
      rw [List.filterMap_cons_none hk, List.filterMap_nil, List.append_nil, rests s l hl hk]
      exact ih
    | some k =>
      obtain ⟨hallowed, hstep⟩ := moves s l k hl hk
      rw [List.filterMap_cons_some hk, List.filterMap_nil, hstep]
      exact ih.step k hallowed

/-! ## Runs along a list of labels -/

def exec (L : Lts σ ℓ) (s : σ) (ls : List ℓ) : σ := ls.foldl L.step s

def AllowedAlong (L : Lts σ ℓ) : σ → List ℓ → Prop
  | _, [] => True
  | s, l :: ls => L.Allowed s l ∧ L.AllowedAlong (L.step s l) ls

theorem Run.append {ls : List ℓ} {s : σ} (h : L.Run s₀ ls s) {ks : List ℓ}
    (hks : L.AllowedAlong s ks) : L.Run s₀ (ls ++ ks) (L.exec s ks) := by
  induction ks generalizing ls s with
  | nil =>
    rw [List.append_nil]
    exact h
  | cons k ks ih =>
    have hrest := ih (h.step k hks.1) hks.2
    rw [List.append_assoc, List.singleton_append] at hrest
    exact hrest

theorem AllowedAlong.run {ls : List ℓ} (h : L.AllowedAlong s₀ ls) :
    L.Run s₀ ls (L.exec s₀ ls) := Run.start.append h

/-- Along the labels, up to the first that is not allowed where it stands, `P` holds of every state
and `Q` where a label is taken. -/
def HoldsAlong (L : Lts σ ℓ) (P : σ → Prop) (Q : σ → ℓ → Prop) : σ → List ℓ → Prop
  | s, [] => P s
  | s, l :: ls => P s ∧ (L.Allowed s l → Q s l ∧ L.HoldsAlong P Q (L.step s l) ls)

section

variable {P : σ → Prop} {Q : σ → ℓ → Prop} {s : σ} {l : ℓ} {ls : List ℓ}

theorem HoldsAlong.head (h : L.HoldsAlong P Q s ls) : P s := by
  cases ls with
  | nil => exact h
  | cons l ls => exact h.1

theorem HoldsAlong.behind {ks : List ℓ} (h : L.HoldsAlong P Q s (ks ++ ls))
    (hks : L.AllowedAlong s ks) : L.HoldsAlong P Q (L.exec s ks) ls := by
  induction ks generalizing s with
  | nil => exact h
  | cons k ks ih => exact ih (h.2 hks.1).2 hks.2

/-- `C` holds of the labels of every run along `ls`. -/
def RunsAlong (L : Lts σ ℓ) (C : List ℓ → Prop) (s : σ) (ls : List ℓ) : Prop :=
  ∀ ks, ks <+: ls → L.AllowedAlong s ks → C ks

theorem runsAlong_congr {C D : List ℓ → Prop} (h : ∀ ks, C ks ↔ D ks) :
    L.RunsAlong C s ls ↔ L.RunsAlong D s ls := forall₃_congr fun ks _ _ => h ks

theorem runsAlong_nil {C : List ℓ → Prop} : L.RunsAlong C s [] ↔ C [] := by
  constructor
  · intro h
    exact h [] (List.prefix_refl []) trivial
  · intro h ks hks _
    rw [List.prefix_nil.mp hks]
    exact h

theorem runsAlong_cons {C : List ℓ → Prop} :
    L.RunsAlong C s (l :: ls) ↔
      C [] ∧ (L.Allowed s l → L.RunsAlong (fun ks => C (l :: ks)) (L.step s l) ls) := by
  constructor
  · intro h
    refine ⟨h [] List.nil_prefix trivial, fun hl ks hks hallowed => ?_⟩
    exact h (l :: ks) (List.cons_prefix_cons.mpr ⟨rfl, hks⟩) ⟨hl, hallowed⟩
  · rintro ⟨hnil, hcons⟩ ks hks hallowed
    rcases List.prefix_cons_iff.mp hks with rfl | ⟨ks, rfl, htail⟩
    · exact hnil
    · exact hcons hallowed.1 ks htail hallowed.2

end

end Lts
