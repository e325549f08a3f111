import Mathlib.Data.Vector.Basic
import StepMid.Smf.VlvBound

/-!
# Writing variable-length values

`writeDelta` collects base-128 digits in an array of five and writes them from the last one
back. It writes the encoding without leading zeros, which `readVLV` reads back.
-/

namespace StepMid

/-- The byte that `fputc` writes for `c`. -/
def fputc (c : CInt) : UInt8 := UInt8.ofBitVec (c.setWidth 8)

/-- The first loop of `writeDelta`: the array and the `i` that the loop leaves. -/
def deltaDigits (a : Vector CInt 5) (x : CInt) (i : Nat) : Vector CInt 5 × Nat :=
  if h : i < 5 then
    let a := a.set i (x &&& 0x7f)
    let x := x.sshiftRight 7
    if x = 0 then (a, i) else deltaDigits a x (i + 1)
  else (a, i)
termination_by 5 - i

/-- The second loop of `writeDelta`, from `i` down to 0. -/
def deltaBytes (a : Vector CInt 5) (i : Nat) : Option (List UInt8) :=
  match i with
  | 0 => do
    let d ← a[0]?
    some [fputc d]
  | i + 1 => do
    let d ← a[i + 1]?
    let bytes ← deltaBytes a i
    some (fputc (d ||| 0x80) :: bytes)

/-- The bytes written, `none` if an index is outside the array. `a` is what the array holds
when it is still uninitialised. -/
def writeDelta (a : Vector CInt 5) (val : CInt) : Option (List UInt8) :=
  if BitVec.sle val 0 then some [fputc 0]
  else
    let (a, i) := deltaDigits a val 0
    deltaBytes a i

/-- Wherever `bs` stands in a file, `readVLV` reads `v` there and stops behind it. -/
def Encodes (bs : List UInt8) (v : ULong) : Prop :=
  ∀ F fp rest, F.drop fp.pos = bs ++ rest →
    readVLV F fp = (some v, { fp with pos := fp.pos + bs.length })

/-! ## Encodings -/

theorem completeVlv_cons {b : UInt8} {bs : List UInt8} :
    CompleteVlv (b :: bs) ↔ isCont b = false ∧ bs = [] ∨ isCont b = true ∧ CompleteVlv bs := by
  constructor
  · rintro ⟨lead, last, heq, hlead, hlast⟩
    cases lead with
    | nil =>
      cases heq
      exact Or.inl ⟨hlast, rfl⟩
    | cons c lead =>
      cases heq
      exact Or.inr ⟨hlead _ (by simp), lead, last, rfl, fun x hx => hlead x (by simp [hx]), hlast⟩
  · rintro (⟨hb, rfl⟩ | ⟨hb, lead, last, rfl, hlead, hlast⟩)
    · exact ⟨[], b, rfl, by simp, hb⟩
    · refine ⟨b :: lead, last, rfl, ?_, hlast⟩
      intro x hx
      rcases List.mem_cons.mp hx with rfl | hx
      · exact hb
      · exact hlead x hx

theorem CompleteVlv.ne_nil {bs : List UInt8} (h : CompleteVlv bs) : bs ≠ [] := by
  obtain ⟨lead, last, rfl, -⟩ := h
  simp

/-- The base-128 digits of the bytes. -/
def lowBits (bs : List UInt8) : List Nat := bs.map fun b => b.toNat % 128

theorem lowBits_lt (bs : List UInt8) : ∀ d ∈ lowBits bs, d < 128 := by
  intro d hd
  obtain ⟨b, -, rfl⟩ := List.mem_map.mp hd
  exact Nat.mod_lt _ (by decide)

private theorem byte_ext {b c : UInt8} (hcont : isCont b = isCont c)
    (hlow : b.toNat % 128 = c.toNat % 128) : b = c := by
  have hb := b.toNat_lt
  have hc := c.toNat_lt
  apply UInt8.toNat_inj.mp
  cases h : isCont b with
  | false =>
    have hb' := (isCont_eq_false_iff b).mp h
    have hc' := (isCont_eq_false_iff c).mp (hcont ▸ h)
    omega
  | true =>
    have hb' := (isCont_iff b).mp h
    have hc' := (isCont_iff c).mp (hcont ▸ h)
    omega

/-- The digits determine the bytes. -/
theorem CompleteVlv.ext {bs cs : List UInt8} (hbs : CompleteVlv bs) (hcs : CompleteVlv cs)
    (h : lowBits bs = lowBits cs) : bs = cs := by
  induction bs generalizing cs with
  | nil =>
    rw [lowBits, List.map_nil, eq_comm, lowBits, List.map_eq_nil_iff] at h
    exact h.symm
  | cons b bs ih =>
    cases cs with
    | nil => simp [lowBits] at h
    | cons c cs =>
      simp only [lowBits, List.map_cons, List.cons.injEq] at h
      obtain ⟨hlow, htail⟩ := h
      rcases completeVlv_cons.mp hbs with ⟨hb, rfl⟩ | ⟨hb, hbs⟩
      · rcases completeVlv_cons.mp hcs with ⟨hc, rfl⟩ | ⟨-, hcs⟩
        · rw [byte_ext (hb.trans hc.symm) hlow]
        · rw [List.map_nil, eq_comm, List.map_eq_nil_iff] at htail
          exact absurd htail hcs.ne_nil
      · rcases completeVlv_cons.mp hcs with ⟨-, rfl⟩ | ⟨hc, hcs⟩
        · rw [List.map_nil, List.map_eq_nil_iff] at htail
          exact absurd htail hbs.ne_nil
        · rw [byte_ext (hb.trans hc.symm) hlow, ih hbs hcs htail]

/-- Leading zeros are leading bytes `0x80`. -/
theorem canonical_lowBits {bs : List UInt8} (h : CompleteVlv bs) :
    Radix.Canonical (lowBits bs) ↔ bs.head? ≠ some 0x80 := by
  cases bs with
  | nil => exact absurd rfl h.ne_nil
  | cons b bs =>
    have hb := b.toNat_lt
    have hpad : b = 0x80 ↔ b.toNat = 128 := UInt8.toNat_inj.symm
    simp only [Radix.Canonical, lowBits, List.map_cons, List.head?_cons, Option.some.injEq, hpad,
      List.cons.injEq, List.map_eq_nil_iff, ne_eq, reduceCtorEq, not_false_eq_true, true_and]
    rcases completeVlv_cons.mp h with ⟨hc, rfl⟩ | ⟨hc, hbs⟩
    · have := (isCont_eq_false_iff b).mp hc
      simp only [and_true, imp_self, true_iff]
      omega
    · have := (isCont_iff b).mp hc
      simp only [hbs.ne_nil, and_false, imp_false]
      omega

/-- The strings below 2 GiB that `readVLV` reads as `v` wherever they stand. -/
theorem encodes_iff {bs : List UInt8} (hshort : bs.length < 2 ^ 31) {v : ULong} :
    Encodes bs v ↔ CompleteVlv bs ∧ bs.length ≤ 5 ∧ vlvValue bs ≤ 2 ^ 31 - 1 ∧
      v.toNat = vlvValue bs := by
  constructor
  · intro h
    have hread := h (bs ++ [0]) ⟨0, false⟩ [0] rfl
    rw [readVLV_eq, List.drop_zero, Prod.mk.injEq, Stream.mk.injEq] at hread
    obtain ⟨hval, hpos, heof⟩ := hread
    have hcut : vlvCut (bs ++ [0]) = false := by simpa using heof
    have hbs : CompleteVlv bs := by
      have := (vlv_complete hcut).1
      rwa [show vlvSize (bs ++ [0]) = bs.length by simpa using hpos, List.take_left] at this
    by_cases hrej : vlvRejected (bs ++ [0])
    · simp [hrej] at hval
    · rw [if_neg hrej, Option.some.injEq] at hval
      have hbound := hrej
      rw [vlvRejected_append hbs hshort, not_not] at hbound
      refine ⟨hbs, hbound.1, hbound.2, ?_⟩
      rw [← hval, vlvVal_append hbs hshort hrej]
  · rintro ⟨hbs, hlen, hbound, hv⟩ F fp rest hF
    obtain ⟨hsize, hcut⟩ := vlv_append hbs rest
    have hrej : ¬ vlvRejected (bs ++ rest) := by
      rw [vlvRejected_append hbs hshort, not_not]
      exact ⟨hlen, hbound⟩
    have hval : vlvVal (bs ++ rest) = v := by
      apply BitVec.eq_of_toNat_eq
      rw [vlvVal_append hbs hshort hrej, hv]
    rw [readVLV_eq, hF, if_neg hrej, hsize, hcut, Bool.or_false, hval]

/-! ## The two loops -/

private theorem low_toNat (x : CInt) : (x &&& 0x7f).toNat = x.toNat % 128 := by
  rw [BitVec.toNat_and]
  exact Nat.and_two_pow_sub_one_eq_mod x.toNat 7

private theorem shift_toNat {x : CInt} (h : x.toNat < 2 ^ 31) :
    (x.sshiftRight 7).toNat = x.toNat / 128 := by
  have hmsb : x.msb = false := BitVec.msb_eq_false_iff_two_mul_lt.mpr (by omega)
  rw [BitVec.sshiftRight_eq_of_msb_false hmsb, BitVec.toNat_ushiftRight, Nat.shiftRight_eq_div_pow]

/-- The array holds the `k` low digits of `n`. -/
def HoldsDigits (a : Vector CInt 5) (n k : Nat) : Prop :=
  ∀ j < k, ∃ d, a[j]? = some d ∧ d.toNat = n / 128 ^ j % 128

private theorem HoldsDigits.set {a : Vector CInt 5} {n i : Nat} {d : CInt} (h : HoldsDigits a n i)
    (hi : i < 5) (hd : d.toNat = n / 128 ^ i % 128) : HoldsDigits (a.set i d) n (i + 1) := by
  intro j hj
  rcases Nat.lt_or_eq_of_le (Nat.le_of_lt_succ hj) with hlt | rfl
  · obtain ⟨e, he, hval⟩ := h j hlt
    exact ⟨e, by rw [Vector.getElem?_set_ne hi (by omega), he], hval⟩
  · exact ⟨d, by rw [Vector.getElem?_set_self], hd⟩

/-- The first loop leaves by its `break`, at the leading digit. -/
private theorem deltaDigits_spec {n : Nat} (hn : n < 2 ^ 31) {a : Vector CInt 5} {x : CInt}
    {i : Nat} (hx : x.toNat = n / 128 ^ i) (hpos : 0 < x.toNat) (h : HoldsDigits a n i) :
    ∃ a' m, deltaDigits a x i = (a', m) ∧ m < 5 ∧ HoldsDigits a' n (m + 1) ∧
      0 < n / 128 ^ m ∧ n / 128 ^ (m + 1) = 0 := by
  have hi : i < 5 := by
    by_contra hge
    have hpow : 128 ^ 5 ≤ 128 ^ i := Nat.pow_le_pow_right (by decide) (by omega)
    rw [hx, Nat.div_eq_of_lt (by omega)] at hpos
    exact Nat.lt_irrefl 0 hpos
  have hxle : x.toNat ≤ n := hx ▸ Nat.div_le_self n _
  have hnext : (x.sshiftRight 7).toNat = n / 128 ^ (i + 1) := by
    rw [shift_toNat (by omega), hx, Nat.div_div_eq_div_mul, Nat.pow_succ]
  have hset := h.set hi (d := x &&& 0x7f) (by rw [low_toNat, hx])
  rw [deltaDigits, dif_pos hi]
  by_cases hzero : x.sshiftRight 7 = 0
  · simp only [hzero, if_true]
    refine ⟨_, i, rfl, hi, hset, hx ▸ hpos, ?_⟩
    rw [← hnext, hzero]
    rfl
  · simp only [hzero, if_false]
    apply deltaDigits_spec hn hnext ?_ hset
    exact Nat.pos_of_ne_zero fun h0 => hzero (BitVec.eq_of_toNat_eq h0)
termination_by 5 - i

private theorem fputc_toNat {d : CInt} (h : d.toNat < 128) : (fputc d).toNat = d.toNat := by
  rw [fputc, UInt8.toNat_ofBitVec, BitVec.toNat_setWidth]
  omega

private theorem fputc_cont_toNat {d : CInt} (h : d.toNat < 128) :
    (fputc (d ||| 0x80)).toNat = d.toNat + 128 := by
  have hor : (d ||| 0x80).toNat = d.toNat + 128 := by
    rw [BitVec.toNat_or, Nat.or_comm]
    exact (Nat.two_pow_add_eq_or_of_lt (i := 7) h 1).symm.trans (Nat.add_comm _ _)
  rw [fputc, UInt8.toNat_ofBitVec, BitVec.toNat_setWidth, hor]
  omega

/-- The second loop writes the digits that the array holds, the leading one first. -/
private theorem deltaBytes_spec {a : Vector CInt 5} {n m : Nat} (h : HoldsDigits a n (m + 1)) :
    ∃ bs, deltaBytes a m = some bs ∧ CompleteVlv bs ∧ bs.length = m + 1 ∧
      (lowBits bs).head? = some (n / 128 ^ m % 128) ∧ vlvValue bs = n % 128 ^ (m + 1) := by
  induction m with
  | zero =>
    obtain ⟨d, hd, hval⟩ := h 0 (by omega)
    have hlt : d.toNat < 128 := hval ▸ Nat.mod_lt _ (by decide)
    have hbyte := fputc_toNat hlt
    refine ⟨[fputc d], by rw [deltaBytes, hd]; rfl, ?_, rfl, ?_, ?_⟩
    · exact completeVlv_cons.mpr (Or.inl ⟨(isCont_eq_false_iff _).mpr (by omega), rfl⟩)
    · simp [lowBits, hbyte, hval]
    · simp [vlvValue, Radix.value, hbyte, hval]
  | succ m ih =>
    obtain ⟨d, hd, hval⟩ := h (m + 1) (by omega)
    obtain ⟨bs, hbs, hcomplete, hlen, -, hvalue⟩ := ih fun j hj => h j (by omega)
    have hlt : d.toNat < 128 := hval ▸ Nat.mod_lt _ (by decide)
    have hbyte := fputc_cont_toNat hlt
    have hlow : (fputc (d ||| 0x80)).toNat % 128 = n / 128 ^ (m + 1) % 128 := by omega
    refine ⟨fputc (d ||| 0x80) :: bs, by simp [deltaBytes, hd, hbs], ?_, by simp [hlen], ?_, ?_⟩
    · exact completeVlv_cons.mpr (Or.inr ⟨(isCont_iff _).mpr (by omega), hcomplete⟩)
    · rw [lowBits, List.map_cons, List.head?_cons, hlow]
    · rw [vlvValue, List.map_cons, Radix.value_cons, List.length_map, hlen, hlow]
      rw [vlvValue] at hvalue
      rw [hvalue, Nat.mod_pow_succ (k := m + 1), Nat.mul_comm, Nat.add_comm]

/-! ## The bytes written -/

/-- The value to be encoded: negative numbers are written as zero. -/
def deltaValue (val : CInt) : ULong := BitVec.ofInt 32 (max val.toInt 0)

private theorem deltaValue_of_sle {val : CInt} (h : BitVec.sle val 0) : deltaValue val = 0 := by
  have hle : val.toInt ≤ 0 := BitVec.sle_iff_toInt_le.mp h
  rw [deltaValue, max_eq_right hle]
  rfl

private theorem deltaValue_of_not_sle {val : CInt} (h : ¬ BitVec.sle val 0) :
    deltaValue val = val ∧ 0 < val.toNat ∧ val.toNat < 2 ^ 31 := by
  have hlt : 0 < val.toInt := by
    rw [BitVec.sle_iff_toInt_le] at h
    exact Int.lt_of_not_ge h
  have hcast := BitVec.toInt_eq_toNat_cond val
  constructor
  · rw [deltaValue, max_eq_left hlt.le, BitVec.ofInt_toInt]
  · split at hcast <;> omega

/-- `writeDelta` stays inside its array and writes a complete encoding without leading
zeros. -/
theorem writeDelta_spec (a : Vector CInt 5) (val : CInt) :
    ∃ bs, writeDelta a val = some bs ∧ CompleteVlv bs ∧ bs.length ≤ 5 ∧
      Radix.Canonical (lowBits bs) ∧ vlvValue bs = (deltaValue val).toNat ∧
      vlvValue bs ≤ 2 ^ 31 - 1 := by
  by_cases hle : BitVec.sle val 0
  · refine ⟨[fputc 0], by rw [writeDelta, if_pos hle], ?_, by simp, ?_, ?_, by decide⟩
    · exact completeVlv_cons.mpr (Or.inl ⟨by decide, rfl⟩)
    · exact ⟨by simp [lowBits], fun _ => rfl⟩
    · rw [deltaValue_of_sle hle]
      decide
  · obtain ⟨hval, hpos, hlt⟩ := deltaValue_of_not_sle hle
    obtain ⟨a', m, hdigits, hm, hold, hlead, hrest⟩ :=
      deltaDigits_spec hlt (a := a) (i := 0) (by simp) hpos fun j hj => absurd hj (by omega)
    obtain ⟨bs, hbs, hcomplete, hlen, hhead, hvalue⟩ := deltaBytes_spec hold
    -- the leading digit is the whole quotient, as nothing is left above it
    have hsmall : val.toNat / 128 ^ m < 128 := by
      rw [Nat.pow_succ, ← Nat.div_div_eq_div_mul] at hrest
      omega
    have hwhole : vlvValue bs = val.toNat := by
      rw [hvalue]
      refine Nat.mod_eq_of_lt (Nat.lt_of_not_le fun hge => ?_)
      have := Nat.div_pos hge (Nat.pow_pos (by decide))
      omega
    refine ⟨bs, ?_, hcomplete, by omega, ⟨?_, ?_⟩, by rw [hwhole, hval], by omega⟩
    · rw [writeDelta, if_neg hle, hdigits]
      exact hbs
    · intro hnil
      rw [hnil] at hhead
      cases hhead
    · intro hzero
      rw [hhead, Option.some.injEq] at hzero
      omega

/-- `readVLV` reads back what `writeDelta` writes, which is the shortest encoding. What it accepts
below 2 GiB is written back exactly if it has no leading zeros. -/
theorem writeDelta_inverse (a : Vector CInt 5) :
    (∀ val : CInt, ∃ bs, writeDelta a val = some bs ∧ Encodes bs (deltaValue val) ∧
      ∀ cs, Encodes cs (deltaValue val) → bs.length ≤ cs.length) ∧
    ∀ bs, CompleteVlv bs → bs.length < 2 ^ 31 → ∀ F fp rest v fp',
      F.drop fp.pos = bs ++ rest → readVLV F fp = (some v, fp') →
        (writeDelta a v = some bs ↔ bs.head? ≠ some 0x80) := by
  constructor
  · intro val
    obtain ⟨bs, hwrite, hbs, hlen, hcanonical, hvalue, hbound⟩ := writeDelta_spec a val
    refine ⟨bs, hwrite, (encodes_iff (by omega)).mpr ⟨hbs, hlen, hbound, hvalue.symm⟩, ?_⟩
    intro cs hcs
    by_contra hless
    obtain ⟨hcomplete, -, -, hcvalue⟩ := (encodes_iff (by omega)).mp hcs
    have hne : lowBits cs ≠ [] := by simpa [lowBits] using hcomplete.ne_nil
    have hle := hcanonical.shortest (by decide) hne (lowBits_lt cs) (hvalue.trans hcvalue)
    exact hless (by simpa [lowBits] using hle)
  · intro bs hbs hshort F fp rest v fp' hF hread
    obtain ⟨hsmall, hv⟩ : v.toNat < 2 ^ 31 ∧ v.toNat = vlvValue bs := by
      rw [readVLV_eq, hF, Prod.mk.injEq] at hread
      obtain ⟨hval, -⟩ := hread
      by_cases hrej : vlvRejected (bs ++ rest)
      · simp [hrej] at hval
      · rw [if_neg hrej, Option.some.injEq] at hval
        rw [← hval]
        exact ⟨(vlvVal_toNat (vlvCounted_append hbs hshort rest) hrej).2,
          vlvVal_append hbs hshort hrej⟩
    obtain ⟨cs, hwrite, hcs, -, hcanonical, hcvalue, -⟩ := writeDelta_spec a v
    have hvalue : (deltaValue v).toNat = v.toNat := by
      have hint : v.toInt = v.toNat := BitVec.toInt_eq_toNat_of_lt (by omega)
      rw [deltaValue, hint, max_eq_left (Int.natCast_nonneg _), BitVec.ofInt_natCast,
        BitVec.ofNat_toNat, BitVec.setWidth_eq]
    rw [hwrite, Option.some.injEq, ← canonical_lowBits hbs]
    constructor
    · rintro rfl
      exact hcanonical
    · intro hbs'
      apply hcs.ext hbs
      apply hcanonical.unique (by decide) hbs' (lowBits_lt cs) (lowBits_lt bs)
      exact hcvalue.trans (hvalue.trans hv)

/-- A one that the accumulator loses, in `n + 7` bytes. -/
def lostOne (n : Nat) : List UInt8 := [0x81, 0x80, 0x80, 0x80, 0x80, 0x80] ++ paddedZero n

private theorem lostOne_length (n : Nat) : (lostOne n).length = n + 7 := by
  rw [lostOne, List.length_append, paddedZero_length]
  exact Nat.add_comm 6 (n + 1)

private theorem lostOne_complete (n : Nat) : CompleteVlv (lostOne n) := by
  have hall : ([0x81, 0x80, 0x80, 0x80, 0x80, 0x80] : List UInt8).all isCont = true := rfl
  exact (paddedZero_complete n).prepend (List.all_eq_true.mp hall)

private theorem readVLV_lostOne {n : Nat} (hlo : 2 ^ 31 ≤ n + 7) (hhi : n + 7 < 2 ^ 32) :
    readVLV (lostOne n) ⟨0, false⟩ = (some 0, ⟨n + 7, false⟩) := by
  have hlen := lostOne_length n
  have hlost : vlvVal (lostOne n) = vlvVal (paddedZero n) := rfl
  have hval : vlvVal (lostOne n) = 0 := hlost.trans (vlvVal_padded n [0])
  rw [readVLV_wrapped (lostOne_complete n) (by omega) (by omega), hval, hlen]

/-- From 2 GiB on a string without leading zeros is accepted as zero and not written back. -/
theorem writeDelta_inverse_wrapped :
    CompleteVlv (lostOne (2 ^ 31 - 7)) ∧ (lostOne (2 ^ 31 - 7)).head? ≠ some 0x80 ∧
      readVLV (lostOne (2 ^ 31 - 7)) ⟨0, false⟩ = (some 0, ⟨2 ^ 31, false⟩) ∧
      writeDelta (Vector.replicate 5 0) 0 ≠ some (lostOne (2 ^ 31 - 7)) := by
  refine ⟨lostOne_complete _, by decide, readVLV_lostOne (by decide) (by decide), ?_⟩
  have hwrite : writeDelta (Vector.replicate 5 0) 0 = some [0] := rfl
  rw [hwrite]
  intro h
  have hlen := lostOne_length (2 ^ 31 - 7)
  rw [← Option.some.inj h] at hlen
  exact absurd hlen (by decide)

end StepMid
