import Mathlib.Data.List.Basic
import Mathlib.Data.List.TakeWhile

/-!
# Buffers of fixed capacity

A buffer is a list whose length is its capacity. A write that would leave it has no result.
-/

namespace Buffer

variable {α : Type*}

/-- Write `xs` from index `k` on; `none` when that leaves the buffer. -/
def put (buf : List α) (k : Nat) (xs : List α) : Option (List α) :=
  if k + xs.length ≤ buf.length then some (buf.take k ++ xs ++ buf.drop (k + xs.length)) else none

/-- The null-terminated string at the head of a buffer. -/
def cstr [DecidableEq α] [OfNat α 0] (buf : List α) : List α :=
  buf.takeWhile fun x => decide (x ≠ 0)

theorem put_eq {buf xs : List α} {k : Nat} (h : k + xs.length ≤ buf.length) :
    put buf k xs = some (buf.take k ++ xs ++ buf.drop (k + xs.length)) :=
  if_pos h

theorem put_length {buf buf' xs : List α} {k : Nat} (h : put buf k xs = some buf') :
    buf'.length = buf.length := by
  rw [put] at h
  split at h
  · cases h
    simp only [List.length_append, List.length_take, List.length_drop]
    omega
  · cases h

theorem put_isSome {buf xs : List α} {k : Nat} :
    (∃ buf', put buf k xs = some buf') ↔ k + xs.length ≤ buf.length := by
  rw [put]
  split <;> simp [*]

private theorem cstr_append_zero [DecidableEq α] [OfNat α 0] (xs ys : List α) :
    cstr (xs ++ 0 :: ys) = cstr xs := by
  induction xs with
  | nil => simp [cstr]
  | cons x xs ih =>
    by_cases hx : x = 0
    · simp [cstr, hx]
    · simpa [cstr, hx] using ih

/-- A string written to the front and closed by a null is what a reader finds there. -/
theorem cstr_put_close [DecidableEq α] [OfNat α 0] {buf buf₁ buf₂ xs : List α} {k : Nat}
    (hk : k ≤ xs.length) (h₁ : put buf 0 xs = some buf₁) (h₂ : put buf₁ k [0] = some buf₂) :
    cstr buf₂ = cstr (xs.take k) := by
  have hle := put_isSome.mp ⟨_, h₁⟩
  rw [put_eq hle] at h₁
  cases h₁
  rw [put_eq (put_isSome.mp ⟨_, h₂⟩)] at h₂
  cases h₂
  simp only [List.take_zero, List.nil_append, List.append_assoc, List.singleton_append,
    List.take_append_of_le_length hk]
  exact cstr_append_zero _ _

end Buffer
