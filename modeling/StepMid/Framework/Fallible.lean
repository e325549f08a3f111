import Mathlib.Init

/-!
# Fallible computations

Rules for computations in `Except`: what a run ends in.
-/

namespace Fallible

universe u v

variable {ε : Type u} {α β : Type v}

/-- A result is in `Q`, an error in `E`. -/
def Ends (E : ε → Prop) (Q : α → Prop) : Except ε α → Prop
  | .ok a => Q a
  | .error e => E e

theorem Ends.bind {E : ε → Prop} {P : α → Prop} {Q : β → Prop} {x : Except ε α}
    {f : α → Except ε β} (hx : Ends E P x) (hf : ∀ a, P a → Ends E Q (f a)) :
    Ends E Q (x >>= f) := by
  cases x with
  | ok a => exact hf a hx
  | error e => exact hx

theorem Ends.ite {E : ε → Prop} {Q : α → Prop} {c : Prop} [Decidable c] {x y : Except ε α}
    (hx : c → Ends E Q x) (hy : ¬ c → Ends E Q y) : Ends E Q (if c then x else y) := by
  split
  · exact hx ‹c›
  · exact hy ‹¬ c›

theorem Ends.any (x : Except ε α) : Ends (fun _ => True) (fun _ => True) x := by
  cases x <;> trivial

theorem Ends.mono {E : ε → Prop} {P Q : α → Prop} {x : Except ε α} (hx : Ends E P x)
    (h : ∀ a, P a → Q a) : Ends E Q x := by
  cases x with
  | ok a => exact h a hx
  | error e => exact hx

theorem Ends.map {E : ε → Prop} {Q : β → Prop} {x : Except ε α} {f : α → β}
    (hx : Ends E (fun a => Q (f a)) x) : Ends E Q (x.map f) := by
  cases x with
  | ok a => exact hx
  | error e => exact hx

theorem Ends.result {E : ε → Prop} {Q : α → Prop} {x : Except ε α} (hx : Ends E Q x) {a : α}
    (h : x = .ok a) : Q a := by
  rw [h] at hx
  exact hx

theorem Ends.failure {E : ε → Prop} {Q : α → Prop} {x : Except ε α} (hx : Ends E Q x) {e : ε}
    (h : x = .error e) : E e := by
  rw [h] at hx
  exact hx

theorem bind_ok_iff {x : Except ε α} {f : α → Except ε β} {b : β} :
    (x >>= f) = .ok b ↔ ∃ a, x = .ok a ∧ f a = .ok b := by
  constructor
  · intro h
    cases x with
    | ok a => exact ⟨a, rfl, h⟩
    | error e => cases h
  · rintro ⟨a, rfl, h⟩
    exact h

end Fallible
