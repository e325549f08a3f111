import StepMid.Smf.Vlv

/-!
# The acceptance test of variable-length values

The test looks at the group counter and at the first group only. On a complete encoding below
2 GiB it is the bound on the value, and below the bound the accumulator never loses a bit. From
2 GiB to 4 GiB the counter is negative and nothing is rejected.
-/

namespace StepMid

/-- The function of the source with its out-parameter: the return value, the cell that `ret`
points to (`none` is `nullptr`) and the stream. -/
def readVLVRet (F : List UInt8) (fp : Stream) (ret : Option ULong) :
    CInt × Option ULong × Stream :=
  let (c, fp) := fgetc F fp
  let f := c &&& 0x7f
  let (val, i, fp) := vlvLoop 0 1 c fp (F.drop fp.pos)
  if (i = 5 ∧ BitVec.slt 0x07 f) ∨ BitVec.slt 5 i then (-1, ret, fp)
  else (0, ret.map fun _ => val, fp)

/-- `readVLV` is the same function for callers that read `*ret` only after a success. -/
theorem readVLVRet_eq (F : List UInt8) (fp : Stream) (ret : Option ULong) :
    readVLVRet F fp ret =
      match readVLV F fp with
      | (none, fp) => (-1, ret, fp)
      | (some val, fp) => (0, ret.map fun _ => val, fp) := by
  simp only [readVLVRet, readVLV]
  split <;> rfl

/-- The values that `val` takes in the loop of `readVLV`, turn by turn. -/
def vlvVals (val : ULong) (c : CInt) (unread : List UInt8) : List ULong :=
  let val := val <<< 7 ||| (c &&& 0x7f)
  if c &&& 0x80 = 0 ∨ c = EOF then [val]
  else
    val :: match unread with
      | b :: unread => vlvVals val (ofByte b) unread
      | [] => [val <<< 7 ||| (EOF &&& 0x7f)]

theorem vlvVals_getLast? (val : ULong) (i c : CInt) (fp : Stream) (unread : List UInt8) :
    (vlvVals val c unread).getLast? = some (vlvLoop val i c fp unread).1 := by
  induction unread generalizing val i c fp with
  | nil =>
    rw [vlvVals, vlvLoop]
    split <;> rfl
  | cons b unread ih =>
    rw [vlvVals, vlvLoop]
    split
    · rfl
    · rw [List.getLast?_cons, ih _ (i + 1) (ofByte b) { fp with pos := fp.pos + 1 },
        Option.getD_some]

/-- The values that `val` takes in the run of `readVLV` on a stream. -/
def readVLVVals (F : List UInt8) (fp : Stream) : List ULong :=
  let (c, fp) := fgetc F fp
  vlvVals 0 c (F.drop fp.pos)

private theorem vlvVals_stop {b : UInt8} (hb : isCont b = false) (val : ULong) (l : List UInt8) :
    vlvVals val (ofByte b) l = [Radix.shiftOr 7 val (ofByte b &&& 0x7f)] := by
  have hstop : ofByte b &&& 0x80 = 0 ∨ ofByte b = EOF := Or.inl ((ofByte_high b).mpr hb)
  cases l <;> rw [vlvVals, if_pos hstop, Radix.shiftOr]

private theorem vlvVals_eq (val : ULong) (b : UInt8) (l : List UInt8) :
    vlvVals val (ofByte b) l = (List.range (vlvGroups (b :: l)).length).map
      fun k => ((vlvGroups (b :: l)).take (k + 1)).foldl (Radix.shiftOr 7) val := by
  induction l generalizing val b with
  | nil =>
    cases hc : isCont b with
    | false => simp [vlvVals_stop hc, vlvGroups, hc, List.range_succ]
    | true =>
      rw [vlvVals, if_neg (vlvLoop_goes hc), EOF_low]
      simp [vlvGroups, hc, Radix.shiftOr, List.range_succ]
  | cons b' l ih =>
    cases hc : isCont b with
    | false => simp [vlvVals_stop hc, vlvGroups, hc, List.range_succ]
    | true =>
      have hgroups : vlvGroups (b :: b' :: l) = (ofByte b &&& 0x7f) :: vlvGroups (b' :: l) := by
        rw [vlvGroups, hc, if_pos rfl]
      rw [vlvVals, if_neg (vlvLoop_goes hc), hgroups, List.length_cons, List.range_succ_eq_map,
        List.map_cons, List.map_map, ih]
      rfl

/-! ## Complete encodings -/

private theorem readVLVVals_eq {F : List UInt8} {fp : Stream} {bs rest : List UInt8}
    (hbs : CompleteVlv bs) (hF : F.drop fp.pos = bs ++ rest) :
    readVLVVals F fp = (List.range (vlvGroups (bs ++ rest)).length).map
      fun k => ((vlvGroups (bs ++ rest)).take (k + 1)).foldl (Radix.shiftOr 7) 0 := by
  obtain ⟨b, l, hl⟩ : ∃ b l, bs ++ rest = b :: l := by
    obtain ⟨lead, last, rfl, -, -⟩ := hbs
    exact List.exists_cons_of_ne_nil (by simp)
  rw [hl] at hF ⊢
  have htail : F.drop (fp.pos + 1) = l := drop_behind (k := [b]) hF
  rw [readVLVVals, fgetc_byte (byte_at hF)]
  simp only [htail, vlvVals_eq]

/-- Below the bound no turn shifts a bit out of the accumulator. -/
private theorem readVLVVals_exact {F : List UInt8} {fp : Stream} {bs rest : List UInt8}
    (hbs : CompleteVlv bs) (hF : F.drop fp.pos = bs ++ rest) (hvalue : vlvValue bs < 2 ^ 31) :
    (readVLVVals F fp).map BitVec.toNat =
      (List.range bs.length).map fun k => vlvValue (bs.take (k + 1)) := by
  have hgroups := vlvGroups_append hbs rest
  have hlen := vlvGroups_append_length hbs rest
  rw [readVLVVals_eq hbs hF, hlen, List.map_map]
  refine List.map_congr_left fun k _ => ?_
  have hdigits : ∀ g ∈ (vlvGroups (bs ++ rest)).take (k + 1), g.toNat < 2 ^ 7 :=
    fun g hg => vlvGroups_lt _ g (List.mem_of_mem_take hg)
  have hbefore : Radix.value 128 (((vlvGroups (bs ++ rest)).take (k + 1)).map BitVec.toNat) =
      vlvValue (bs.take (k + 1)) := by
    rw [List.map_take, hgroups, ← List.map_take, vlvValue]
  have hle : vlvValue (bs.take (k + 1)) ≤ vlvValue bs := by
    rw [vlvValue, List.map_take]
    exact Radix.value_take_le (by decide) _ _
  calc (((vlvGroups (bs ++ rest)).take (k + 1)).foldl (Radix.shiftOr 7) 0).toNat
      = Radix.value 128 (((vlvGroups (bs ++ rest)).take (k + 1)).map BitVec.toNat) % 2 ^ 32 :=
        Radix.foldl_shiftOr_toNat (by decide) _ hdigits
    _ = vlvValue (bs.take (k + 1)) := by
        rw [hbefore]
        exact Nat.mod_eq_of_lt (by omega)

/-- A complete encoding is consumed exactly. Below 2 GiB it is accepted if and only if it has at
most five bytes and its value fits a signed 32-bit integer. -/
theorem readVLVRet_exact (F : List UInt8) (fp : Stream) (ret : Option ULong)
    (bs rest : List UInt8) (hbs : CompleteVlv bs) (hF : F.drop fp.pos = bs ++ rest) :
    ∃ r ret', readVLVRet F fp ret = (r, ret', { fp with pos := fp.pos + bs.length }) ∧
      (bs.length < 2 ^ 31 →
        (r = 0 ↔ bs.length ≤ 5 ∧ vlvValue bs ≤ 2 ^ 31 - 1) ∧
        (r = 0 →
          (readVLVVals F fp).map BitVec.toNat =
              (List.range bs.length).map (fun k => vlvValue (bs.take (k + 1))) ∧
            ∃ val : ULong, val.toNat = vlvValue bs ∧ ret' = ret.map fun _ => val)) ∧
      (r ≠ 0 → r = -1 ∧ ret' = ret) := by
  obtain ⟨hsize, hcut⟩ := vlv_append hbs rest
  rw [readVLVRet_eq, readVLV_eq, hF, hsize, hcut, Bool.or_false]
  by_cases hrej : vlvRejected (bs ++ rest)
  · rw [if_pos hrej]
    refine ⟨-1, ret, rfl, fun hshort => ⟨?_, ?_⟩, fun _ => ⟨rfl, rfl⟩⟩
    · exact iff_of_false (by decide) ((vlvRejected_append hbs hshort rest).mp hrej)
    · intro h
      exact absurd h (by decide)
  · rw [if_neg hrej]
    refine ⟨0, _, rfl, fun hshort => ?_, fun h => absurd rfl h⟩
    have hbound : bs.length ≤ 5 ∧ vlvValue bs ≤ 2 ^ 31 - 1 := by
      rwa [vlvRejected_append hbs hshort, not_not] at hrej
    refine ⟨iff_of_true rfl hbound, fun _ => ?_⟩
    exact ⟨readVLVVals_exact hbs hF (by omega), _, vlvVal_append hbs hshort hrej, rfl⟩

/-- The largest value, in five bytes, with a byte behind it. -/
theorem readVLVRet_exact_longMax :
    ∃ r ret', readVLVRet [0x87, 0xff, 0xff, 0xff, 0x7f, 0x00] ⟨0, false⟩ (some 9) =
        (r, ret', ⟨5, false⟩) ∧
      (r = 0 ↔ 5 ≤ 5 ∧ vlvValue [0x87, 0xff, 0xff, 0xff, 0x7f] ≤ 2 ^ 31 - 1) ∧ r = 0 := by
  have hbs : CompleteVlv [0x87, 0xff, 0xff, 0xff, 0x7f] :=
    ⟨[0x87, 0xff, 0xff, 0xff], 0x7f, rfl, List.all_eq_true.mp rfl, by decide⟩
  obtain ⟨r, ret', h, hshort, -⟩ :=
    readVLVRet_exact [0x87, 0xff, 0xff, 0xff, 0x7f, 0x00] ⟨0, false⟩ (some 9) _ [0x00] hbs rfl
  obtain ⟨hiff, -⟩ := hshort (by decide)
  exact ⟨r, ret', h, hiff, hiff.mpr (by decide)⟩

/-! ## Where the counter overflows -/

/-- The value zero in `n + 1` bytes. -/
def paddedZero (n : Nat) : List UInt8 := List.replicate n 0x80 ++ [0]

theorem paddedZero_length (n : Nat) : (paddedZero n).length = n + 1 := by
  rw [paddedZero, List.length_append, List.length_replicate, List.length_singleton]

theorem isCont_padding {n : Nat} : ∀ b ∈ List.replicate n 0x80, isCont b = true := by
  intro b hb
  rw [List.eq_of_mem_replicate hb]
  rfl

theorem paddedZero_complete (n : Nat) : CompleteVlv (paddedZero n) :=
  ⟨List.replicate n 0x80, 0, rfl, isCont_padding, rfl⟩

/-- Bytes `0x80` in front leave the accumulator at zero. -/
theorem vlvVal_padded (n : Nat) (l : List UInt8) :
    vlvVal (List.replicate n 0x80 ++ l) = vlvVal l := by
  induction n with
  | zero => rfl
  | succ n ih =>
    rw [List.replicate_succ, List.cons_append, ← ih]
    rfl

/-- The counter is negative, and the value is accepted whatever it is. -/
theorem not_vlvRejected_of_wrapped {bs : List UInt8} (h : CompleteVlv bs)
    (hlo : 2 ^ 31 ≤ bs.length) (hhi : bs.length < 2 ^ 32) (rest : List UInt8) :
    ¬ vlvRejected (bs ++ rest) := by
  have hlen := vlvGroups_append_length h rest
  have htoNat : (vlvCount (bs ++ rest)).toNat = bs.length :=
    (vlvCount_toNat (by rwa [hlen])).trans hlen
  have hneg : (vlvCount (bs ++ rest)).toInt < 0 := by
    have hcond := BitVec.toInt_eq_toNat_cond (vlvCount (bs ++ rest))
    split at hcond <;> omega
  rintro (⟨hfive, -⟩ | hmany)
  · rw [hfive] at hneg
    exact absurd hneg (by decide)
  · rw [BitVec.slt_iff_toInt_lt] at hmany
    have hfive : (5 : CInt).toInt = 5 := by decide
    omega

theorem readVLV_wrapped {bs : List UInt8} (h : CompleteVlv bs) (hlo : 2 ^ 31 ≤ bs.length)
    (hhi : bs.length < 2 ^ 32) :
    readVLV bs ⟨0, false⟩ = (some (vlvVal bs), ⟨bs.length, false⟩) := by
  have hrej := not_vlvRejected_of_wrapped h hlo hhi []
  obtain ⟨hsize, hcut⟩ := vlv_append h []
  rw [List.append_nil] at hrej hsize hcut
  rw [readVLV_eq, List.drop_zero, if_neg hrej, hsize, hcut]
  simp only [Nat.zero_add, Bool.or_false]

private theorem readVLVRet_paddedZero {n : Nat} (hlo : 2 ^ 31 ≤ n + 1) (hhi : n + 1 < 2 ^ 32)
    (ret : Option ULong) :
    readVLVRet (paddedZero n) ⟨0, false⟩ ret = (0, ret.map fun _ => 0, ⟨n + 1, false⟩) := by
  have hlen := paddedZero_length n
  have hval : vlvVal (paddedZero n) = 0 := vlvVal_padded n [0]
  rw [readVLVRet_eq, readVLV_wrapped (paddedZero_complete n) (by omega) (by omega), hval, hlen]

/-- Zero in 2 GiB is accepted. -/
theorem readVLVRet_exact_wrapped :
    CompleteVlv (paddedZero (2 ^ 31 - 1)) ∧
      readVLVRet (paddedZero (2 ^ 31 - 1)) ⟨0, false⟩ (some 9) = (0, some 0, ⟨2 ^ 31, false⟩) ∧
      ¬ ((paddedZero (2 ^ 31 - 1)).length ≤ 5 ∧
        vlvValue (paddedZero (2 ^ 31 - 1)) ≤ 2 ^ 31 - 1) := by
  refine ⟨paddedZero_complete _, readVLVRet_paddedZero (by decide) (by decide) _, ?_⟩
  intro h
  have hlen := h.1
  rw [paddedZero_length] at hlen
  exact absurd hlen (by decide)

end StepMid
