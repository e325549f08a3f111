import Mathlib.Data.List.Induction
import Mathlib.Data.Nat.Digits.Lemmas
import Mathlib.Tactic.Ring

/-!
# Positional numerals

Values of digit lists, most significant digit first, and the shift-and-or accumulators of
machine words that compute them modulo the word size.
-/

namespace Radix

/-- The number written by the digits `ds` in base `b`. -/
def value (b : Nat) (ds : List Nat) : Nat := ds.foldl (fun v d => b * v + d) 0

@[simp] theorem value_nil (b : Nat) : value b [] = 0 := rfl

@[simp] theorem value_append_singleton (b : Nat) (ds : List Nat) (d : Nat) :
    value b (ds ++ [d]) = b * value b ds + d := by
  simp only [value, List.foldl_append, List.foldl_cons, List.foldl_nil]

private theorem foldl_eq (b : Nat) (ds : List Nat) (v : Nat) :
    ds.foldl (fun v d => b * v + d) v = v * b ^ ds.length + value b ds := by
  induction ds using List.reverseRecOn with
  | nil => simp
  | append_singleton ds d ih =>
    rw [List.foldl_append, List.foldl_cons, List.foldl_nil, ih, value_append_singleton,
      List.length_append, List.length_singleton, Nat.pow_succ]
    ring

theorem value_cons (b d : Nat) (ds : List Nat) :
    value b (d :: ds) = d * b ^ ds.length + value b ds := by
  rw [value, List.foldl_cons, foldl_eq]
  simp

theorem value_lt {b : Nat} {ds : List Nat} (h : ∀ d ∈ ds, d < b) : value b ds < b ^ ds.length := by
  induction ds with
  | nil => simp
  | cons d ds ih =>
    have hd : d + 1 ≤ b := h d (by simp)
    have htail := ih (fun x hx => h x (by simp [hx]))
    have hmul := Nat.mul_le_mul_right (b ^ ds.length) hd
    rw [value_cons, List.length_cons, Nat.pow_succ, Nat.mul_comm _ b]
    rw [Nat.add_mul, Nat.one_mul] at hmul
    omega

/-- The digits in front write a number no larger than the whole does. -/
theorem value_take_le {b : Nat} (hb : 0 < b) (ds : List Nat) (k : Nat) :
    value b (ds.take k) ≤ value b ds := by
  induction ds generalizing k with
  | nil => simp
  | cons d ds ih =>
    cases k with
    | zero => simp
    | succ k =>
      have hpow : b ^ (ds.take k).length ≤ b ^ ds.length :=
        Nat.pow_le_pow_right hb (List.take_sublist k ds).length_le
      rw [List.take_succ_cons, value_cons, value_cons]
      exact Nat.add_le_add (Nat.mul_le_mul_left d hpow) (ih k)

/-! ## Numerals without leading zeros -/

/-- A numeral without leading zeros; the number zero is a single zero. -/
def Canonical (ds : List Nat) : Prop := ds ≠ [] ∧ (ds.head? = some 0 → ds = [0])

theorem value_eq_ofDigits (b : Nat) (ds : List Nat) : value b ds = Nat.ofDigits b ds.reverse := by
  induction ds with
  | nil => rfl
  | cons d ds ih =>
    rw [value_cons, ih, List.reverse_cons, Nat.ofDigits_append, Nat.ofDigits_singleton,
      List.length_reverse, Nat.mul_comm d, Nat.add_comm]

private theorem eq_zero_of_value {b : Nat} (hb : 0 < b) {ds : List Nat} (hds : Canonical ds)
    (h : value b ds = 0) : ds = [0] := by
  obtain ⟨hne, hzero⟩ := hds
  obtain ⟨d, ds, rfl⟩ := List.exists_cons_of_ne_nil hne
  have hpow := Nat.pow_pos (n := ds.length) hb
  rw [value_cons, Nat.add_eq_zero_iff, Nat.mul_eq_zero] at h
  have hd : d = 0 := by omega
  exact hzero (by rw [hd, List.head?_cons])

private theorem digits_value {b : Nat} (hb : 1 < b) {ds : List Nat} (hds : Canonical ds)
    (hlt : ∀ d ∈ ds, d < b) (h : value b ds ≠ 0) : Nat.digits b (value b ds) = ds.reverse := by
  rw [value_eq_ofDigits]
  apply Nat.digits_ofDigits b hb
  · intro d hd
    exact hlt d (List.mem_reverse.mp hd)
  · intro hne hlast
    rw [List.getLast_reverse] at hlast
    have hhead : ds.head? = some 0 := by
      rw [← hlast]
      exact List.head?_eq_some_head _
    rw [hds.2 hhead] at h
    exact h rfl

theorem Canonical.unique {b : Nat} (hb : 1 < b) {ds es : List Nat} (hds : Canonical ds)
    (hes : Canonical es) (hdlt : ∀ d ∈ ds, d < b) (helt : ∀ e ∈ es, e < b)
    (h : value b ds = value b es) : ds = es := by
  by_cases hzero : value b ds = 0
  · rw [eq_zero_of_value (by omega) hds hzero, eq_zero_of_value (by omega) hes (h ▸ hzero)]
  · apply List.reverse_injective
    rw [← digits_value hb hds hdlt hzero, ← digits_value hb hes helt (h ▸ hzero), h]

/-- No numeral of the same value is shorter. -/
theorem Canonical.shortest {b : Nat} (hb : 1 < b) {ds es : List Nat} (hds : Canonical ds)
    (hes : es ≠ []) (helt : ∀ e ∈ es, e < b) (h : value b ds = value b es) :
    ds.length ≤ es.length := by
  obtain ⟨d, ds, rfl⟩ := List.exists_cons_of_ne_nil hds.1
  rcases Nat.eq_zero_or_pos d with rfl | hd
  · have hnil := hds.2 List.head?_cons
    rw [hnil]
    exact List.length_pos_iff.mpr hes
  · have hlow : b ^ ds.length ≤ value b (d :: ds) := by
      rw [value_cons]
      exact Nat.le_add_right_of_le (Nat.le_mul_of_pos_left _ hd)
    have hhigh := value_lt helt
    rw [← h] at hhigh
    exact (Nat.pow_lt_pow_iff_right hb).mp (Nat.lt_of_le_of_lt hlow hhigh)

/-! ## Accumulators -/

/-- One turn of a shift-and-or accumulator. -/
def shiftOr (k : Nat) {w : Nat} (v d : BitVec w) : BitVec w := v <<< k ||| d

theorem shiftOr_toNat {w k : Nat} (hk : k ≤ w) (v d : BitVec w) (hd : d.toNat < 2 ^ k) :
    (shiftOr k v d).toNat = (2 ^ k * v.toNat + d.toNat) % 2 ^ w := by
  obtain ⟨j, rfl⟩ := Nat.exists_eq_add_of_le hk
  have hhigh : v.toNat <<< k % 2 ^ (k + j) = 2 ^ k * (v.toNat % 2 ^ j) := by
    rw [Nat.shiftLeft_eq, Nat.pow_add, Nat.mul_comm, Nat.mul_mod_mul_left]
  have hlow : d.toNat % 2 ^ (k + j) = d.toNat := Nat.mod_eq_of_lt d.isLt
  rw [shiftOr, BitVec.toNat_or, BitVec.toNat_shiftLeft, hhigh, ← Nat.two_pow_add_eq_or_of_lt hd,
    Nat.pow_add, Nat.add_comm (2 ^ k * v.toNat), Nat.mod_mul]
  rw [Nat.add_mul_mod_self_left, Nat.mod_eq_of_lt hd, Nat.add_mul_div_left _ _ (Nat.two_pow_pos k),
    Nat.div_eq_of_lt hd, Nat.zero_add]
  omega

/-- The accumulator holds the value of the digits read, modulo the word size. -/
theorem foldl_shiftOr_toNat {w k : Nat} (hk : k ≤ w) (ds : List (BitVec w))
    (hds : ∀ d ∈ ds, d.toNat < 2 ^ k) :
    (ds.foldl (shiftOr k) (0 : BitVec w)).toNat =
      value (2 ^ k) (ds.map BitVec.toNat) % 2 ^ w := by
  induction ds using List.reverseRecOn with
  | nil => simp
  | append_singleton ds d ih =>
    have hd : d.toNat < 2 ^ k := hds d (by simp)
    have hrest := ih (fun x hx => hds x (by simp [hx]))
    rw [List.foldl_append, List.foldl_cons, List.foldl_nil, shiftOr_toNat hk _ _ hd, hrest,
      List.map_append, List.map_cons, List.map_nil, value_append_singleton]
    rw [Nat.add_mod, Nat.mul_mod, Nat.mod_mod, ← Nat.mul_mod, ← Nat.add_mod]

end Radix
