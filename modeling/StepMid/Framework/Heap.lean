import Mathlib.Logic.Function.Basic
import Mathlib.Data.Option.Basic

/-!
# Heaps of named blocks

A heap maps block names to contents. Names are handed out in order and never twice, so a name
that was freed stays dead.
-/

structure Heap (α : Type*) where
  block : Nat → Option α
  next : Nat
  fresh : ∀ p, next ≤ p → block p = none

namespace Heap

variable {α : Type*}

def empty : Heap α := ⟨fun _ => none, 0, fun _ _ => rfl⟩

def Live (h : Heap α) (p : Nat) : Prop := (h.block p).isSome = true

theorem Live.lt_next {h : Heap α} {p : Nat} (hp : h.Live p) : p < h.next := by
  by_contra hge
  rw [Live, h.fresh p (by omega)] at hp
  cases hp

/-- A new block with content `x`; its name is the old `next`. -/
def alloc (h : Heap α) (x : α) : Heap α where
  block := Function.update h.block h.next (some x)
  next := h.next + 1
  fresh := fun p hp => by
    rw [Function.update_of_ne (by omega)]
    exact h.fresh p (by omega)

/-- Release a block; `none` when it is not live. -/
def free (h : Heap α) (p : Nat) : Option (Heap α) :=
  if (h.block p).isSome then
    some
      { block := Function.update h.block p none
        next := h.next
        fresh := fun q hq => by
          by_cases hqp : q = p
          · rw [hqp, Function.update_self]
          · rw [Function.update_of_ne hqp]
            exact h.fresh q hq }
  else none

/-- Replace the content of a live block; `none` when it is not live. -/
def write (h : Heap α) (p : Nat) (x : α) : Option (Heap α) :=
  if hp : (h.block p).isSome then
    some
      { block := Function.update h.block p (some x)
        next := h.next
        fresh := fun q hq => by
          have hlt : p < h.next := Live.lt_next hp
          rw [Function.update_of_ne (by omega)]
          exact h.fresh q hq }
  else none

@[simp] theorem empty_block (p : Nat) : (empty : Heap α).block p = none := rfl

theorem not_live_next (h : Heap α) : ¬ h.Live h.next := fun hl => Nat.lt_irrefl _ hl.lt_next

@[simp] theorem alloc_block_self (h : Heap α) (x : α) : (h.alloc x).block h.next = some x :=
  Function.update_self ..

theorem alloc_block_ne (h : Heap α) (x : α) {p : Nat} (hp : p ≠ h.next) :
    (h.alloc x).block p = h.block p :=
  Function.update_of_ne hp ..

theorem alloc_live (h : Heap α) (x : α) (p : Nat) :
    (h.alloc x).Live p ↔ h.Live p ∨ p = h.next := by
  by_cases hp : p = h.next
  · subst hp
    simp [Live]
  · simp [Live, alloc_block_ne h x hp, hp]

theorem live_of_block {h : Heap α} {p : Nat} {x : α} (hx : h.block p = some x) : h.Live p := by
  rw [Live, hx]
  rfl

theorem Live.exists_block {h : Heap α} {p : Nat} (hp : h.Live p) : ∃ x, h.block p = some x :=
  Option.isSome_iff_exists.mp hp

theorem free_some {h : Heap α} {p : Nat} (hp : h.Live p) : ∃ h', h.free p = some h' :=
  ⟨_, if_pos hp⟩

theorem live_of_free {h h' : Heap α} {p : Nat} (hfree : h.free p = some h') : h.Live p := by
  rw [free] at hfree
  split at hfree
  · assumption
  · cases hfree

theorem free_spec {h h' : Heap α} {p : Nat} (hfree : h.free p = some h') :
    h'.block p = none ∧ ∀ q, q ≠ p → h'.block q = h.block q := by
  rw [free] at hfree
  split at hfree
  · cases hfree
    exact ⟨Function.update_self .., fun q hq => Function.update_of_ne hq ..⟩
  · cases hfree

theorem free_live {h h' : Heap α} {p : Nat} (hfree : h.free p = some h') (q : Nat) :
    h'.Live q ↔ q ≠ p ∧ h.Live q := by
  obtain ⟨hgone, hother⟩ := free_spec hfree
  by_cases hq : q = p
  · subst hq
    simp [Live, hgone]
  · simp [Live, hother q hq, hq]

/-- Nothing is left behind the release of the only live block. -/
theorem free_last {h h' : Heap α} {p : Nat} (hfree : h.free p = some h')
    (honly : ∀ q, h.Live q → q = p) (q : Nat) : ¬ h'.Live q := by
  rw [free_live hfree]
  exact fun hq => hq.1 (honly q hq.2)

theorem write_some {h : Heap α} {p : Nat} (hp : h.Live p) (x : α) : ∃ h', h.write p x = some h' :=
  ⟨_, dif_pos hp⟩

theorem write_spec {h h' : Heap α} {p : Nat} {x : α} (hwrite : h.write p x = some h') :
    h.Live p ∧ h'.block p = some x ∧ ∀ q, q ≠ p → h'.block q = h.block q := by
  rw [write] at hwrite
  split at hwrite
  · rename_i hp
    cases hwrite
    exact ⟨hp, Function.update_self .., fun q hq => Function.update_of_ne hq ..⟩
  · cases hwrite

theorem write_live {h h' : Heap α} {p : Nat} {x : α} (hwrite : h.write p x = some h') (q : Nat) :
    h'.Live q ↔ h.Live q := by
  obtain ⟨hp, hself, hother⟩ := write_spec hwrite
  by_cases hq : q = p
  · subst hq
    exact iff_of_true (live_of_block hself) hp
  · rw [Live, Live, hother q hq]

end Heap
