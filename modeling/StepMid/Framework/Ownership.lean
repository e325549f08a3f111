import StepMid.Framework.Heap

/-!
# Owned blocks

Every live block of a heap is held by exactly one holder, and every holder holds live blocks only.
Such a heap leaks nothing, and releasing what one holds never releases a block twice.
-/

namespace Heap

variable {α τ : Type*}

structure OwnedBy (h : Heap α) (held : τ → Option Nat) : Prop where
  live_iff : ∀ p, h.Live p ↔ ∃ t, held t = some p
  unique : ∀ t u p, held t = some p → held u = some p → t = u

namespace OwnedBy

variable {h : Heap α} {held : τ → Option Nat}

theorem live (ho : h.OwnedBy held) {t : τ} {p : Nat} (ht : held t = some p) : h.Live p :=
  (ho.live_iff p).mpr ⟨t, ht⟩

theorem empty : (Heap.empty : Heap α).OwnedBy fun _ : τ => none where
  live_iff p := by simp [Live]
  unique := by
    intro t u p ht
    cases ht

/-- Contents do not matter, nor does the next name. -/
theorem of_live_iff (ho : h.OwnedBy held) {h' : Heap α} (hl : ∀ p, h'.Live p ↔ h.Live p) :
    h'.OwnedBy held where
  live_iff p := (hl p).trans (ho.live_iff p)
  unique := ho.unique

/-- A write keeps what is held. -/
theorem write (ho : h.OwnedBy held) {p : Nat} {x : α} {h' : Heap α}
    (hwrite : h.write p x = some h') : h'.OwnedBy held :=
  ho.of_live_iff (write_live hwrite)

section

variable [DecidableEq τ]

private theorem update_none {t u : τ} {p : Nat} :
    Function.update held t none u = some p ↔ u ≠ t ∧ held u = some p := by
  by_cases hut : u = t
  · rw [hut, Function.update_self]
    simp
  · rw [Function.update_of_ne hut]
    simp [hut]

private theorem update_some {t u : τ} {p q : Nat} :
    Function.update held t (some q) u = some p ↔ u = t ∧ p = q ∨ u ≠ t ∧ held u = some p := by
  by_cases hut : u = t
  · rw [hut, Function.update_self]
    simp [eq_comm]
  · rw [Function.update_of_ne hut]
    simp [hut]

/-- A holder without a block gets a new one. -/
theorem alloc (ho : h.OwnedBy held) {t : τ} (ht : held t = none) (x : α) :
    (h.alloc x).OwnedBy (Function.update held t (some h.next)) := by
  have hold : ∀ u, held u ≠ some h.next := fun u hu => h.not_live_next (ho.live hu)
  have hne : ∀ u p, held u = some p → u ≠ t := by
    rintro u p hu rfl
    rw [ht] at hu
    cases hu
  constructor
  · intro p
    rw [alloc_live, ho.live_iff]
    constructor
    · rintro (⟨u, hu⟩ | rfl)
      · exact ⟨u, update_some.mpr (Or.inr ⟨hne u p hu, hu⟩)⟩
      · exact ⟨t, update_some.mpr (Or.inl ⟨rfl, rfl⟩)⟩
    · intro ⟨u, hu⟩
      rcases update_some.mp hu with ⟨-, hp⟩ | ⟨-, hu⟩
      · exact Or.inr hp
      · exact Or.inl ⟨u, hu⟩
  · intro u v p hu hv
    rcases update_some.mp hu with ⟨rfl, rfl⟩ | ⟨-, hu⟩
    · rcases update_some.mp hv with ⟨hvt, -⟩ | ⟨-, hv⟩
      · exact hvt.symm
      · exact absurd hv (hold v)
    · rcases update_some.mp hv with ⟨-, rfl⟩ | ⟨-, hv⟩
      · exact absurd hu (hold u)
      · exact ho.unique u v p hu hv

/-- A holder releases its block. -/
theorem free (ho : h.OwnedBy held) {t : τ} {p : Nat} (ht : held t = some p) {h' : Heap α}
    (hfree : h.free p = some h') : h'.OwnedBy (Function.update held t none) := by
  constructor
  · intro q
    rw [free_live hfree, ho.live_iff]
    simp only [update_none]
    constructor
    · intro ⟨hq, u, hu⟩
      refine ⟨u, ?_, hu⟩
      intro hut
      rw [hut, ht] at hu
      exact hq (Option.some.inj hu).symm
    · intro ⟨u, hut, hu⟩
      refine ⟨?_, u, hu⟩
      intro hq
      rw [hq] at hu
      exact hut (ho.unique u t p hu ht)
  · intro u v q hu hv
    exact ho.unique u v q (update_none.mp hu).2 (update_none.mp hv).2

end

end OwnedBy

/-! ## What a holder may do -/

variable [DecidableEq τ]

/-- One holder gets a block, writes to its block, releases it, or does nothing. -/
inductive OwnStep (t : τ) (h : Heap α) (held : τ → Option Nat) : Heap α → (τ → Option Nat) → Prop
  | keep {h' : Heap α} : h'.block = h.block → OwnStep t h held h' held
  | acquire (x : α) : held t = none →
      OwnStep t h held (h.alloc x) (Function.update held t (some h.next))
  | write {p : Nat} {x : α} {h' : Heap α} : held t = some p → h.write p x = some h' →
      OwnStep t h held h' held
  | release {p : Nat} {h' : Heap α} : held t = some p → h.free p = some h' →
      OwnStep t h held h' (Function.update held t none)

namespace OwnStep

variable {h h' : Heap α} {held held' : τ → Option Nat} {t : τ}

theorem ownedBy (hs : OwnStep t h held h' held') (ho : h.OwnedBy held) : h'.OwnedBy held' := by
  cases hs with
  | keep hblock => exact ho.of_live_iff fun p => by rw [Live, Live, hblock]
  | acquire x ht => exact ho.alloc ht x
  | write _ hwrite => exact ho.write hwrite
  | release ht hfree => exact ho.free ht hfree

/-- The other holders keep their blocks, with their contents. -/
theorem frame (hs : OwnStep t h held h' held') (ho : h.OwnedBy held) {u : τ} (hut : u ≠ t) :
    held' u = held u ∧ ∀ p, held u = some p → h'.block p = h.block p := by
  cases hs with
  | keep hblock => exact ⟨rfl, fun p _ => by rw [hblock]⟩
  | acquire x _ =>
    refine ⟨Function.update_of_ne hut .., fun p hp => ?_⟩
    apply alloc_block_ne h x
    intro hp
    subst hp
    exact h.not_live_next (ho.live hp)
  | @write p _ _ ht hwrite =>
    refine ⟨rfl, fun q hq => ?_⟩
    apply (write_spec hwrite).2.2 q
    intro hqp
    subst hqp
    exact hut (ho.unique u t q hq ht)
  | @release p _ ht hfree =>
    refine ⟨Function.update_of_ne hut .., fun q hq => ?_⟩
    apply (free_spec hfree).2 q
    intro hqp
    subst hqp
    exact hut (ho.unique u t q hq ht)

end OwnStep

end Heap
