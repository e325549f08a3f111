import StepMid.Framework.Radix
import StepMid.Smf.Stream

/-!
# Variable-length values

`readVLV` decodes a variable-length value and lets the end of the file take part in the
arithmetic as one more group. Its result is described by the groups, the size and the cut
of the unread bytes. As long as the group counter does not overflow, an accepted value never
loses a bit and is below `2^31`.
-/

namespace StepMid

/-- The loop of `readVLV` with `c` just read and `unread` behind it: accumulator, group
counter and stream at its end. The counter is an `int` and wraps around. -/
def vlvLoop (val : ULong) (i c : CInt) (fp : Stream) (unread : List UInt8) :
    ULong × CInt × Stream :=
  let val := val <<< 7 ||| (c &&& 0x7f)
  if c &&& 0x80 = 0 ∨ c = EOF then (val, i, fp)
  else
    match unread with
    | b :: unread => vlvLoop val (i + 1) (ofByte b) { fp with pos := fp.pos + 1 } unread
    -- `fgetc` returns `EOF`, and the next turn ends on it
    | [] => (val <<< 7 ||| (EOF &&& 0x7f), i + 1, { fp with eof := true })

/-- `none` is the return value -1, `some val` is 0 with `*ret = val`. -/
def readVLV (F : List UInt8) (fp : Stream) : Option ULong × Stream :=
  let (c, fp) := fgetc F fp
  let f := c &&& 0x7f
  let (val, i, fp) := vlvLoop 0 1 c fp (F.drop fp.pos)
  if (i = 5 ∧ BitVec.slt 0x07 f) ∨ BitVec.slt 5 i then (none, fp) else (some val, fp)

/-! ## The bytes of a value -/

/-- The continuation bit. -/
def isCont (b : UInt8) : Bool := 0x80 ≤ b

/-- The groups decoded from unread bytes; the end of the file counts as a group of ones. -/
def vlvGroups : List UInt8 → List ULong
  | [] => [0x7f]
  | b :: l => if isCont b then (ofByte b &&& 0x7f) :: vlvGroups l else [ofByte b &&& 0x7f]

/-- How many unread bytes the value takes. -/
def vlvSize : List UInt8 → Nat
  | [] => 0
  | b :: l => if isCont b then vlvSize l + 1 else 1

/-- The file ends before the terminating byte. -/
def vlvCut : List UInt8 → Bool
  | [] => true
  | b :: l => isCont b && vlvCut l

def vlvVal (l : List UInt8) : ULong := (vlvGroups l).foldl (Radix.shiftOr 7) 0

/-- The counter behind the loop. -/
def vlvCount (l : List UInt8) : CInt := BitVec.ofNat 32 (vlvGroups l).length

/-- The counter did not overflow. -/
def VlvCounted (l : List UInt8) : Prop := (vlvGroups l).length < 2 ^ 31

/-- The acceptance test of `readVLV`. -/
def vlvRejected (l : List UInt8) : Prop :=
  (vlvCount l = 5 ∧ BitVec.slt 0x07 ((vlvGroups l).headD 0)) ∨ BitVec.slt 5 (vlvCount l)

instance (l : List UInt8) : Decidable (vlvRejected l) :=
  inferInstanceAs (Decidable (_ ∨ _))

theorem ofByte_high (b : UInt8) : (ofByte b &&& 0x80 = 0) ↔ isCont b = false := by
  have h : ∀ x : BitVec 8, (BitVec.ofNat 32 x.toNat &&& 0x80 = 0) ↔
      decide ((0x80 : BitVec 8) ≤ x) = false := by decide
  exact h b.toBitVec

theorem ofByte_low_toNat (b : UInt8) : (ofByte b &&& 0x7f).toNat = b.toNat % 128 := by
  rw [BitVec.toNat_and, ofByte_toNat]
  exact Nat.and_two_pow_sub_one_eq_mod b.toNat 7

theorem isCont_iff (b : UInt8) : isCont b = true ↔ 128 ≤ b.toNat := by
  rw [isCont, decide_eq_true_iff, UInt8.le_iff_toNat_le]
  rfl

theorem isCont_eq_false_iff (b : UInt8) : isCont b = false ↔ b.toNat < 128 := by
  rw [← Bool.not_eq_true, isCont_iff, Nat.not_le]

theorem EOF_low : EOF &&& 0x7f = 0x7f := by decide

private theorem vlvLoop_stop {b : UInt8} (hb : isCont b = false) (val : ULong) (i : CInt)
    (fp : Stream) (l : List UInt8) :
    vlvLoop val i (ofByte b) fp l = (Radix.shiftOr 7 val (ofByte b &&& 0x7f), i, fp) := by
  have hstop : ofByte b &&& 0x80 = 0 ∨ ofByte b = EOF := Or.inl ((ofByte_high b).mpr hb)
  cases l <;> rw [vlvLoop, if_pos hstop, Radix.shiftOr]

theorem vlvLoop_goes {b : UInt8} (hb : isCont b = true) :
    ¬ (ofByte b &&& 0x80 = 0 ∨ ofByte b = EOF) := by
  rw [ofByte_high, hb]
  simp [ofByte_ne_EOF]

theorem vlvGroups_ne_nil (l : List UInt8) : vlvGroups l ≠ [] := by
  cases l with
  | nil => simp [vlvGroups]
  | cons b l => cases hc : isCont b <;> simp [vlvGroups, hc]

private theorem one_add_counter {n : Nat} (hn : 1 ≤ n) :
    (1 : CInt) + BitVec.ofNat 32 (n - 1) = BitVec.ofNat 32 n := by
  obtain ⟨m, rfl⟩ := Nat.exists_eq_add_of_le hn
  rw [Nat.add_sub_cancel_left, BitVec.ofNat_add]
  rfl

private theorem vlvLoop_eq (val : ULong) (i : CInt) (b : UInt8) (fp : Stream) (l : List UInt8) :
    vlvLoop val i (ofByte b) fp l =
      ((vlvGroups (b :: l)).foldl (Radix.shiftOr 7) val,
        i + BitVec.ofNat 32 ((vlvGroups (b :: l)).length - 1),
        { pos := fp.pos + vlvSize (b :: l) - 1, eof := fp.eof || vlvCut (b :: l) }) := by
  induction l generalizing val i b fp with
  | nil =>
    cases hc : isCont b with
    | false => simp [vlvLoop_stop hc, vlvGroups, vlvSize, vlvCut, hc]
    | true =>
      rw [vlvLoop, if_neg (vlvLoop_goes hc), EOF_low]
      simp [vlvGroups, vlvSize, vlvCut, hc, Radix.shiftOr]
  | cons b' l ih =>
    cases hc : isCont b with
    | false => simp [vlvLoop_stop hc, vlvGroups, vlvSize, vlvCut, hc]
    | true =>
      have hgroups : vlvGroups (b :: b' :: l) = (ofByte b &&& 0x7f) :: vlvGroups (b' :: l) := by
        rw [vlvGroups, hc, if_pos rfl]
      have hsize : vlvSize (b :: b' :: l) = vlvSize (b' :: l) + 1 := by
        rw [vlvSize, hc, if_pos rfl]
      have hcut : vlvCut (b :: b' :: l) = vlvCut (b' :: l) := by
        rw [vlvCut, hc, Bool.true_and]
      have hpos : 1 ≤ (vlvGroups (b' :: l)).length := List.length_pos_iff.mpr (vlvGroups_ne_nil _)
      rw [vlvLoop, if_neg (vlvLoop_goes hc), hgroups, hsize, hcut]
      simp only [ih, List.foldl_cons, List.length_cons, Radix.shiftOr, BitVec.add_assoc,
        one_add_counter hpos, Nat.add_sub_cancel]
      congr 3
      omega

theorem vlvGroups_length (l : List UInt8) :
    (vlvGroups l).length = vlvSize l + if vlvCut l then 1 else 0 := by
  induction l with
  | nil => rfl
  | cons b l ih =>
    cases hc : isCont b with
    | false => simp [vlvGroups, vlvSize, vlvCut, hc]
    | true =>
      simp only [vlvGroups, vlvSize, vlvCut, hc, if_true, List.length_cons, ih, Bool.true_and]
      omega

theorem vlvGroups_lt (l : List UInt8) : ∀ g ∈ vlvGroups l, g.toNat < 2 ^ 7 := by
  induction l with
  | nil => simp [vlvGroups]
  | cons b l ih =>
    have hb : (ofByte b &&& 0x7f).toNat < 2 ^ 7 := by
      rw [ofByte_low_toNat]
      exact Nat.mod_lt _ (by decide)
    cases hc : isCont b with
    | false => simpa [vlvGroups, hc] using hb
    | true =>
      intro g hg
      simp only [vlvGroups, hc, if_true, List.mem_cons] at hg
      rcases hg with rfl | hg
      · exact hb
      · exact ih g hg

theorem vlvSize_le (l : List UInt8) : vlvSize l ≤ l.length := by
  induction l with
  | nil => simp [vlvSize]
  | cons b l ih =>
    cases hc : isCont b with
    | false => simp [vlvSize, hc]
    | true => simpa [vlvSize, hc] using ih

theorem vlvSize_of_cut {l : List UInt8} (h : vlvCut l = true) : vlvSize l = l.length := by
  induction l with
  | nil => rfl
  | cons b l ih =>
    rw [vlvCut, Bool.and_eq_true] at h
    rw [vlvSize, if_pos h.1, ih h.2, List.length_cons]

theorem vlvCounted_of_size {l : List UInt8} (h : vlvSize l < LONG_MAX) : VlvCounted l := by
  rw [VlvCounted, vlvGroups_length]
  rw [LONG_MAX] at h
  split <;> omega

/-- The counter of a file below 2 GiB does not overflow behind the first byte. -/
theorem vlvCounted_behind {F : List UInt8} (hF : F.length ≤ LONG_MAX) {p : Nat} (hp : 0 < p) :
    VlvCounted (F.drop p) := by
  have hmax : LONG_MAX = 2 ^ 31 - 1 := rfl
  apply vlvCounted_of_size
  refine (vlvSize_le _).trans_lt ?_
  rw [List.length_drop]
  omega

theorem vlvCount_toNat {l : List UInt8} (h : (vlvGroups l).length < 2 ^ 32) :
    (vlvCount l).toNat = (vlvGroups l).length := by
  rw [vlvCount, BitVec.toNat_ofNat]
  exact Nat.mod_eq_of_lt h

/-- The test on the counter is the test on the number of groups. -/
theorem vlvRejected_iff {l : List UInt8} (h : VlvCounted l) :
    vlvRejected l ↔ ((vlvGroups l).length = 5 ∧ BitVec.slt 0x07 ((vlvGroups l).headD 0)) ∨
      5 < (vlvGroups l).length := by
  rw [VlvCounted] at h
  have htoNat := vlvCount_toNat (l := l) (by omega)
  have hfive : vlvCount l = 5 ↔ (vlvGroups l).length = 5 := by
    rw [← BitVec.toNat_inj, htoNat]
    rfl
  have hmany : BitVec.slt 5 (vlvCount l) = true ↔ 5 < (vlvGroups l).length := by
    rw [BitVec.slt_iff_toInt_lt, BitVec.toInt_eq_toNat_of_lt (x := vlvCount l) (by omega), htoNat]
    exact Int.ofNat_lt
  rw [vlvRejected, hfive, hmany]

/-- An accepted value that the file does not cut takes at most five bytes. -/
theorem vlvSize_le_five {l : List UInt8} (hcounted : VlvCounted l) (hcut : vlvCut l = false)
    (h : ¬ vlvRejected l) : vlvSize l ≤ 5 := by
  have hlen := vlvGroups_length l
  rw [hcut, if_neg Bool.false_ne_true] at hlen
  rw [vlvRejected_iff hcounted] at h
  omega

theorem vlvSize_pos {l : List UInt8} (h : l ≠ []) : 1 ≤ vlvSize l := by
  cases l with
  | nil => contradiction
  | cons b l => cases hc : isCont b <;> simp [vlvSize, hc]

/-- What `readVLV` does on any stream. -/
theorem readVLV_eq (F : List UInt8) (fp : Stream) :
    readVLV F fp =
      (if vlvRejected (F.drop fp.pos) then none else some (vlvVal (F.drop fp.pos)),
        { pos := fp.pos + vlvSize (F.drop fp.pos), eof := fp.eof || vlvCut (F.drop fp.pos) }) := by
  rcases fgetc_cases F fp with ⟨hend, hget⟩ | ⟨b, hb, hlt, hget⟩
  · have hdrop : F.drop fp.pos = [] := List.drop_eq_nil_of_le hend
    have hloop : vlvLoop 0 1 EOF { fp with eof := true } [] =
        (0x7f, 1, { fp with eof := true }) := by
      rw [vlvLoop, if_pos (Or.inr rfl)]
      congr 1
    have haccept : ¬ vlvRejected [] := by decide
    simp only [readVLV, hget, hdrop, hloop, haccept]
    simp [vlvSize, vlvCut, vlvVal, vlvGroups, Radix.shiftOr]
  · have hdrop : F.drop fp.pos = b :: F.drop (fp.pos + 1) := by
      rw [List.drop_eq_getElem_cons hlt]
      congr 1
      rw [List.getElem?_eq_getElem hlt] at hb
      exact Option.some.inj hb
    have hhead : (vlvGroups (b :: F.drop (fp.pos + 1))).headD 0 = ofByte b &&& 0x7f := by
      cases hc : isCont b <;> simp [vlvGroups, hc]
    have hlen : 1 ≤ (vlvGroups (b :: F.drop (fp.pos + 1))).length :=
      List.length_pos_iff.mpr (vlvGroups_ne_nil _)
    have hsize : 1 ≤ vlvSize (b :: F.drop (fp.pos + 1)) := vlvSize_pos (by simp)
    have hi : 1 + BitVec.ofNat 32 ((vlvGroups (b :: F.drop (fp.pos + 1))).length - 1) =
        vlvCount (b :: F.drop (fp.pos + 1)) := one_add_counter hlen
    have hpos : fp.pos + 1 + vlvSize (b :: F.drop (fp.pos + 1)) - 1 =
        fp.pos + vlvSize (b :: F.drop (fp.pos + 1)) := by omega
    simp only [readVLV, hget, vlvLoop_eq, hdrop, hi, hpos]
    simp only [vlvRejected, vlvVal, hhead]
    split <;> rfl

/-! ## Values -/

private theorem slt_group {g : ULong} (hg : g.toNat < 2 ^ 7) :
    BitVec.slt 0x07 g = true ↔ 7 < g.toNat := by
  have hint : g.toInt = g.toNat := BitVec.toInt_eq_toNat_of_lt (by omega)
  have hseven : (0x07 : ULong).toInt = 7 := by decide
  rw [BitVec.slt_iff_toInt_lt, hint, hseven]
  omega

/-- What the acceptance test is for: five groups at most, the first of five at most 7. -/
private theorem vlvGroups_value_lt {l : List UInt8} (hcounted : VlvCounted l)
    (h : ¬ vlvRejected l) : Radix.value 128 ((vlvGroups l).map BitVec.toNat) < 2 ^ 31 := by
  have hgroups := vlvGroups_lt l
  rw [vlvRejected_iff hcounted, not_or, not_and] at h
  cases hl : vlvGroups l with
  | nil => simp
  | cons g gs =>
    rw [hl] at h hgroups
    have hdigits : ∀ d ∈ gs.map BitVec.toNat, d < 128 := by
      intro d hd
      obtain ⟨x, hx, rfl⟩ := List.mem_map.mp hd
      exact hgroups x (List.mem_cons_of_mem _ hx)
    have htail := Radix.value_lt hdigits
    have hg : g.toNat < 128 := hgroups g List.mem_cons_self
    have hshort := h.2
    rw [List.length_cons] at hshort
    rw [List.length_map] at htail
    rw [List.map_cons, Radix.value_cons, List.length_map]
    rcases Nat.lt_or_eq_of_le (show gs.length ≤ 4 by omega) with hlt | heq
    · have hpow : 128 ^ gs.length ≤ 128 ^ 3 := Nat.pow_le_pow_right (by decide) (by omega)
      have hmul := Nat.mul_le_mul (Nat.le_of_lt_succ hg) hpow
      omega
    · have hfirst : g.toNat ≤ 7 := by
        have hsmall := h.1 (by rw [List.length_cons, heq])
        rw [List.headD_cons, slt_group hg] at hsmall
        omega
      rw [heq] at htail ⊢
      omega

private theorem vlvGroups_value_ge {l : List UInt8} (hlen : (vlvGroups l).length = 5)
    (hfirst : BitVec.slt 0x07 ((vlvGroups l).headD 0)) :
    2 ^ 31 ≤ Radix.value 128 ((vlvGroups l).map BitVec.toNat) := by
  have hgroups := vlvGroups_lt l
  cases hl : vlvGroups l with
  | nil => simp [hl] at hlen
  | cons g gs =>
    rw [hl] at hlen hfirst hgroups
    rw [List.headD_cons, slt_group (hgroups g List.mem_cons_self)] at hfirst
    have hgs : gs.length = 4 := by simpa using hlen
    rw [List.map_cons, Radix.value_cons, List.length_map, hgs]
    omega

/-- The test by group count and first group is the bound on the value. -/
theorem not_vlvRejected_iff {l : List UInt8} (hcounted : VlvCounted l) :
    ¬ vlvRejected l ↔ (vlvGroups l).length ≤ 5 ∧
      Radix.value 128 ((vlvGroups l).map BitVec.toNat) < 2 ^ 31 := by
  constructor
  · intro h
    refine ⟨?_, vlvGroups_value_lt hcounted h⟩
    rw [vlvRejected_iff hcounted, not_or] at h
    exact Nat.le_of_not_lt h.2
  · rintro ⟨hlen, hvalue⟩ hrej
    rcases (vlvRejected_iff hcounted).mp hrej with ⟨hfive, hfirst⟩ | hmany
    · exact absurd (vlvGroups_value_ge hfive hfirst) (Nat.not_le_of_lt hvalue)
    · omega

/-- The accumulator holds the base-128 number of the groups, modulo its size. -/
theorem vlvVal_toNat_mod (l : List UInt8) :
    (vlvVal l).toNat = Radix.value 128 ((vlvGroups l).map BitVec.toNat) % 2 ^ 32 :=
  Radix.foldl_shiftOr_toNat (by decide) _ (vlvGroups_lt l)

/-- An accepted value is the base-128 number of its groups: no bit is lost. -/
theorem vlvVal_toNat {l : List UInt8} (hcounted : VlvCounted l) (h : ¬ vlvRejected l) :
    (vlvVal l).toNat = Radix.value 128 ((vlvGroups l).map BitVec.toNat) ∧
      (vlvVal l).toNat < 2 ^ 31 := by
  have hvalue := vlvGroups_value_lt hcounted h
  have heq : (vlvVal l).toNat = Radix.value 128 ((vlvGroups l).map BitVec.toNat) := by
    rw [vlvVal_toNat_mod]
    exact Nat.mod_eq_of_lt (Nat.lt_trans hvalue (by decide))
  rw [heq]
  exact ⟨rfl, hvalue⟩

/-- The continuation bit is set on all bytes but the last. -/
def CompleteVlv (bs : List UInt8) : Prop :=
  ∃ lead last, bs = lead ++ [last] ∧ (∀ b ∈ lead, isCont b = true) ∧ isCont last = false

theorem CompleteVlv.prepend {lead bs : List UInt8} (hlead : ∀ b ∈ lead, isCont b = true)
    (h : CompleteVlv bs) : CompleteVlv (lead ++ bs) := by
  obtain ⟨mid, last, rfl, hmid, hlast⟩ := h
  refine ⟨lead ++ mid, last, by rw [List.append_assoc], ?_, hlast⟩
  intro b hb
  exact (List.mem_append.mp hb).elim (hlead b) (hmid b)

/-- The value of a complete encoding as a base-128 number. -/
def vlvValue (bs : List UInt8) : Nat := Radix.value 128 (bs.map fun b => b.toNat % 128)

/-- A value that is not cut is the complete encoding at the head of the unread bytes. -/
theorem vlv_complete {l : List UInt8} (h : vlvCut l = false) :
    CompleteVlv (l.take (vlvSize l)) ∧
      (vlvGroups l).map BitVec.toNat = (l.take (vlvSize l)).map fun b => b.toNat % 128 := by
  induction l with
  | nil => simp [vlvCut] at h
  | cons b l ih =>
    cases hc : isCont b with
    | false =>
      have htake : (b :: l).take (vlvSize (b :: l)) = [b] := by simp [vlvSize, hc]
      rw [htake]
      refine ⟨⟨[], b, rfl, by simp, hc⟩, ?_⟩
      rw [vlvGroups, hc, if_neg Bool.false_ne_true, List.map_singleton, List.map_singleton,
        ofByte_low_toNat]
    | true =>
      rw [vlvCut, hc, Bool.true_and] at h
      obtain ⟨⟨lead, last, heq, hlead, hlast⟩, hgroups⟩ := ih h
      have htake : (b :: l).take (vlvSize (b :: l)) = b :: l.take (vlvSize l) := by
        rw [vlvSize, hc, if_pos rfl, List.take_succ_cons]
      rw [htake]
      refine ⟨⟨b :: lead, last, by rw [heq]; rfl, ?_, hlast⟩, ?_⟩
      · intro x hx
        rcases List.mem_cons.mp hx with rfl | hx
        · exact hc
        · exact hlead x hx
      · rw [vlvGroups, hc, if_pos rfl, List.map_cons, List.map_cons, hgroups, ofByte_low_toNat]

/-- A complete encoding is read back whatever follows it. -/
theorem vlv_append {bs : List UInt8} (h : CompleteVlv bs) (l : List UInt8) :
    vlvSize (bs ++ l) = bs.length ∧ vlvCut (bs ++ l) = false := by
  obtain ⟨lead, last, rfl, hlead, hlast⟩ := h
  induction lead with
  | nil => simp [vlvSize, vlvCut, hlast]
  | cons b lead ih =>
    have hb : isCont b = true := hlead b (by simp)
    obtain ⟨hsize, hcut⟩ := ih (fun x hx => hlead x (by simp [hx]))
    constructor
    · rw [List.cons_append, List.cons_append, vlvSize, if_pos hb, hsize, List.length_cons]
    · rw [List.cons_append, List.cons_append, vlvCut, hb, hcut, Bool.true_and]

/-- The groups of a complete encoding, whatever follows it. -/
theorem vlvGroups_append {bs : List UInt8} (h : CompleteVlv bs) (rest : List UInt8) :
    (vlvGroups (bs ++ rest)).map BitVec.toNat = bs.map fun b => b.toNat % 128 := by
  obtain ⟨hsize, hcut⟩ := vlv_append h rest
  rw [(vlv_complete hcut).2, hsize, List.take_left]

theorem vlvGroups_append_length {bs : List UInt8} (h : CompleteVlv bs) (rest : List UInt8) :
    (vlvGroups (bs ++ rest)).length = bs.length := by
  simpa using congrArg List.length (vlvGroups_append h rest)

theorem vlvCounted_append {bs : List UInt8} (h : CompleteVlv bs) (hshort : bs.length < 2 ^ 31)
    (rest : List UInt8) : VlvCounted (bs ++ rest) := by
  rwa [VlvCounted, vlvGroups_append_length h]

/-- The acceptance test on a complete encoding. -/
theorem vlvRejected_append {bs : List UInt8} (h : CompleteVlv bs) (hshort : bs.length < 2 ^ 31)
    (rest : List UInt8) :
    vlvRejected (bs ++ rest) ↔ ¬ (bs.length ≤ 5 ∧ vlvValue bs ≤ 2 ^ 31 - 1) := by
  have hgroups := vlvGroups_append h rest
  have hlen := vlvGroups_append_length h rest
  have hvalue : Radix.value 128 ((vlvGroups (bs ++ rest)).map BitVec.toNat) = vlvValue bs := by
    rw [hgroups, vlvValue]
  rw [← not_iff_not, not_vlvRejected_iff (vlvCounted_append h hshort rest), hlen, hvalue, not_not]
  omega

theorem vlvVal_append {bs rest : List UInt8} (h : CompleteVlv bs) (hshort : bs.length < 2 ^ 31)
    (hrej : ¬ vlvRejected (bs ++ rest)) : (vlvVal (bs ++ rest)).toNat = vlvValue bs := by
  rw [(vlvVal_toNat (vlvCounted_append h hshort rest) hrej).1, vlvGroups_append h rest, vlvValue]

/-- A byte without continuation bit ends the value. -/
theorem vlv_stop {l : List UInt8} {k : Nat} {b : UInt8} (hk : k < vlvSize l) (hb : l[k]? = some b)
    (hstop : isCont b = false) :
    vlvSize l = k + 1 ∧ ∃ gs, vlvGroups l = gs ++ [ofByte b &&& 0x7f] := by
  induction l generalizing k with
  | nil => simp at hb
  | cons c l ih =>
    cases hc : isCont c with
    | false =>
      simp only [vlvSize, hc, Bool.false_eq_true, if_false] at hk ⊢
      have hzero : k = 0 := by omega
      subst hzero
      simp only [List.getElem?_cons_zero, Option.some.injEq] at hb
      subst hb
      exact ⟨rfl, [], by simp [vlvGroups, hc]⟩
    | true =>
      simp only [vlvSize, hc, if_true] at hk ⊢
      cases k with
      | zero =>
        simp only [List.getElem?_cons_zero, Option.some.injEq] at hb
        rw [hb, hstop] at hc
        cases hc
      | succ k =>
        have hk' : k < vlvSize l := by omega
        obtain ⟨hsize, gs, hgs⟩ := ih hk' (by simpa using hb)
        refine ⟨by omega, (ofByte c &&& 0x7f) :: gs, ?_⟩
        simp [vlvGroups, hc, hgs]

/-! ## Cutting the file -/

/-- What was decoded before the cut is decoded the same way from the whole file. -/
theorem vlv_onPrefix {l' l : List UInt8} (h : l' <+: l) (hcut : vlvCut l' = false) :
    vlvGroups l' = vlvGroups l ∧ vlvSize l' = vlvSize l ∧ vlvCut l = false := by
  obtain ⟨t, rfl⟩ := h
  induction l' with
  | nil => simp [vlvCut] at hcut
  | cons b l' ih =>
    cases hb : isCont b with
    | false => simp [vlvGroups, vlvSize, vlvCut, hb]
    | true =>
      simp only [vlvCut, hb, Bool.true_and] at hcut
      simpa [vlvGroups, vlvSize, vlvCut, hb] using ih hcut

/-- A value is read at least as far from the whole file as from its prefix. -/
theorem vlvSize_onPrefix {l' l : List UInt8} (h : l' <+: l) :
    vlvSize l' ≤ vlvSize l ∧ (vlvGroups l').length ≤ (vlvGroups l).length := by
  obtain ⟨t, rfl⟩ := h
  induction l' with
  | nil =>
    have hpos := List.length_pos_iff.mpr (vlvGroups_ne_nil t)
    exact ⟨Nat.zero_le _, hpos⟩
  | cons b l' ih =>
    cases hb : isCont b with
    | false => simp [vlvSize, vlvGroups, hb]
    | true => simpa [vlvSize, vlvGroups, hb] using ih

/-- A value that a proper prefix cuts is read farther from the whole file. -/
theorem vlvSize_lt_of_cut {l' l : List UInt8} (h : l' <+: l) (hcut : vlvCut l' = true)
    (hlt : l'.length < l.length) : vlvSize l' < vlvSize l := by
  obtain ⟨t, rfl⟩ := h
  induction l' with
  | nil =>
    apply vlvSize_pos
    intro hnil
    subst hnil
    simp at hlt
  | cons b l' ih =>
    rw [vlvCut, Bool.and_eq_true] at hcut
    rw [List.cons_append, List.length_cons, List.length_cons] at hlt
    have := ih hcut.2 (by omega)
    simpa [vlvSize, hcut.1] using this

/-- The group that stands for the end of the file never trips the acceptance test. -/
theorem vlvRejected_onPrefix {l' l : List UInt8} (h : l' <+: l) (hcounted : VlvCounted l)
    (hrej : vlvRejected l') : vlvRejected l := by
  have hlen := (vlvSize_onPrefix h).2
  have hcounted' : VlvCounted l' := Nat.lt_of_le_of_lt hlen hcounted
  rw [vlvRejected_iff hcounted'] at hrej
  rw [vlvRejected_iff hcounted]
  cases l' with
  | nil => simp [vlvGroups] at hrej
  | cons b l' =>
    obtain ⟨t, rfl⟩ := h
    have hhead : (vlvGroups (b :: l')).headD 0 = (vlvGroups (b :: l' ++ t)).headD 0 := by
      cases hb : isCont b <;> simp [vlvGroups, hb]
    rw [hhead] at hrej
    rcases hrej with ⟨hfive, hlarge⟩ | hmany
    · rcases Nat.lt_or_ge 5 (vlvGroups (b :: l' ++ t)).length with hlt | hge
      · exact Or.inr hlt
      · exact Or.inl ⟨by omega, hlarge⟩
    · exact Or.inr (by omega)

end StepMid
