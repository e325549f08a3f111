import Mathlib.Logic.Function.Basic
import Mathlib.Data.List.Basic

/-!
# Keyed stores

A store is a function of its keys. What a key holds behind a list of writes is the value that was
written to it last.
-/

namespace Store

variable {κ α β : Type*} [DecidableEq κ]

/-- The store behind the writes, made in order. -/
def write (f : κ → α) (ws : List (κ × α)) : κ → α :=
  ws.foldl (fun f w => Function.update f w.1 w.2) f

/-- The values written to `k`, in order. -/
def written (ws : List (κ × α)) (k : κ) : List α :=
  (ws.filter fun w => w.1 = k).map Prod.snd

theorem written_cons_self (k : κ) (a : α) (ws : List (κ × α)) :
    written ((k, a) :: ws) k = a :: written ws k := by
  simp [written]

theorem written_cons_ne {w : κ × α} {k : κ} (h : w.1 ≠ k) (ws : List (κ × α)) :
    written (w :: ws) k = written ws k := by
  simp [written, h]

theorem written_append (ws ws' : List (κ × α)) (k : κ) :
    written (ws ++ ws') k = written ws k ++ written ws' k := by
  simp [written]

theorem written_flatMap (l : List β) (g : β → List (κ × α)) (k : κ) :
    written (l.flatMap g) k = l.flatMap fun b => written (g b) k := by
  induction l with
  | nil => rfl
  | cons b l ih => rw [List.flatMap_cons, written_append, ih, List.flatMap_cons]

theorem written_eq_nil {ws : List (κ × α)} {k : κ} (h : ∀ w ∈ ws, w.1 ≠ k) :
    written ws k = [] := by
  simpa [written] using fun a b hab => h (a, b) hab

/-- Distinct keys are written to once. -/
theorem written_map [DecidableEq β] {key : β → κ} (hkey : Function.Injective key) (val : β → α)
    {l : List β} (hl : l.Nodup) (b : β) :
    written (l.map fun c => (key c, val c)) (key b) = if b ∈ l then [val b] else [] := by
  induction l with
  | nil => rfl
  | cons c l ih =>
    rw [List.nodup_cons] at hl
    rw [List.map_cons]
    by_cases hc : c = b
    · subst hc
      rw [written_cons_self, ih hl.2, if_neg hl.1, if_pos List.mem_cons_self]
    · have hne : key c ≠ key b := hkey.ne hc
      have hmem : b ∈ c :: l ↔ b ∈ l := by simp [Ne.symm hc]
      rw [written_cons_ne hne, ih hl.2]
      simp only [hmem]

/-- The last writer wins. -/
theorem write_apply (f : κ → α) (ws : List (κ × α)) (k : κ) :
    write f ws k = (written ws k).getLast?.getD (f k) := by
  induction ws generalizing f with
  | nil => rfl
  | cons w ws ih =>
    obtain ⟨k', a⟩ := w
    rw [write, List.foldl_cons]
    have hrest := ih (Function.update f k' a)
    rw [write] at hrest
    rw [hrest]
    by_cases hk : k' = k
    · subst hk
      rw [written_cons_self, List.getLast?_cons, Function.update_self, Option.getD_some]
    · rw [written_cons_ne hk, Function.update_of_ne (Ne.symm hk)]

end Store
