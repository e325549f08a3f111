import StepMid.Smf.Scan

/-!
# What one turn does

The body of the event loop in terms of the bytes it reads. `EventTurn` lists every way a turn
can go, with the bytes that make it go that way.
-/

namespace StepMid

def Scan.moveTo (s : Scan) (pos : Nat) (eof : Bool) : Scan := { s with fp := { pos, eof } }

@[simp] theorem Scan.moveTo_fp (s : Scan) (pos : Nat) (eof : Bool) :
    (s.moveTo pos eof).fp = { pos, eof } := rfl

@[simp] theorem Scan.moveTo_events (s : Scan) (pos : Nat) (eof : Bool) :
    (s.moveTo pos eof).events = s.events := rfl

@[simp] theorem Scan.moveTo_curTrack (s : Scan) (pos : Nat) (eof : Bool) :
    (s.moveTo pos eof).curTrack = s.curTrack := rfl

@[simp] theorem Scan.moveTo_trkLenOffset (s : Scan) (pos : Nat) (eof : Bool) :
    (s.moveTo pos eof).trkLenOffset = s.trkLenOffset := rfl

@[simp] theorem Scan.moveTo_baFound (s : Scan) (pos : Nat) (eof : Bool) :
    (s.moveTo pos eof).baFound = s.baFound := rfl

@[simp] theorem Scan.moveTo_runningStatus (s : Scan) (pos : Nat) (eof : Bool) :
    (s.moveTo pos eof).runningStatus = s.runningStatus := rfl

/-- Record number `i` becomes `r`, found. -/
def Scan.store (s : Scan) (i : Fin META_MAX) (r : MetaEvent) : Scan :=
  { s with events := Function.update s.events i r, baFound := Function.update s.baFound i true }

/-- The record that a meta event of type `ty` is a candidate for. -/
def metaIndex (ty : UInt8) (curTrack : Nat) : Option (Fin META_MAX) :=
  if ty = 1 then some META_COMMENT
  else if ty = 2 then some META_COPYRIGHT
  else if ty = 3 ∧ curTrack = 0 then some META_SEQNAME
  else none

theorem metaIndex_type {ty : UInt8} {curTrack : Nat} {i : Fin META_MAX}
    (h : metaIndex ty curTrack = some i) : ty.toNat = i.val + 1 := by
  simp only [metaIndex] at h
  split at h
  · cases h
    subst ty
    rfl
  · split at h
    · cases h
      subst ty
      rfl
    · split at h
      · rename_i hseq
        cases h
        rw [hseq.1]
        rfl
      · cases h

theorem metaIndex_seqname {ty : UInt8} {curTrack : Nat}
    (h : metaIndex ty curTrack = some META_SEQNAME) : curTrack = 0 := by
  simp only [metaIndex] at h
  split at h
  · cases h
  · split at h
    · cases h
    · split at h
      · rename_i hseq
        exact hseq.2
      · cases h

/-- Behind the first track there is no name to look for. -/
theorem metaIndex_later {ty : UInt8} {curTrack : Nat} {i : Fin META_MAX}
    (h : metaIndex ty curTrack = some i) (hlater : 0 < curTrack) :
    i = META_COMMENT ∨ i = META_COPYRIGHT := by
  match i with
  | 0 => exact Or.inl rfl
  | 1 => exact Or.inr rfl
  | 2 =>
    have := metaIndex_seqname h
    omega

theorem metaIndex_eot (curTrack : Nat) : metaIndex 0x2f curTrack = none := by
  simp [metaIndex]

theorem ne_eot_of_metaIndex {ty : UInt8} {curTrack : Nat} {i : Fin META_MAX}
    (h : metaIndex ty curTrack = some i) : ty ≠ 0x2f := by
  intro heot
  rw [heot, metaIndex_eot] at h
  cases h

/-! ## Bytes -/

private theorem ofByte_sys (b : UInt8) : (ofByte b &&& 0xf0 = 0xf0) ↔ 240 ≤ b.toNat := by
  have h : ∀ x : BitVec 8, (BitVec.ofNat 32 x.toNat &&& 0xf0 = 0xf0) ↔ 240 ≤ x.toNat := by decide
  exact h b.toBitVec

private theorem ofByte_ff (b : UInt8) : ofByte b = 0xff ↔ b.toNat = 255 := by
  have h : ∀ x : BitVec 8, (BitVec.ofNat 32 x.toNat = 0xff) ↔ x.toNat = 255 := by decide
  exact h b.toBitVec

private theorem ofByte_toInt (b : UInt8) : (ofByte b).toInt = b.toNat := by
  have hb := b.toNat_lt
  rw [BitVec.toInt_eq_toNat_of_lt (by rw [ofByte_toNat]; omega), ofByte_toNat]

private theorem ofByte_eq_iff (b c : UInt8) : ofByte b = ofByte c ↔ b = c := by
  constructor
  · intro h
    have hn := congrArg BitVec.toNat h
    rw [ofByte_toNat, ofByte_toNat] at hn
    exact UInt8.toNat_inj.mp hn
  · intro hbc
    subst hbc
    rfl

/-! ## The dispatch on the status byte -/

theorem statusTurn_data {b : UInt8} (hb : b.toNat < 128) (F : List UInt8) (s : Scan) :
    statusTurn F (ofByte b) s =
      match getNumMessageBytes s.runningStatus with
      | none => .ret .runningStatus s
      | some n => .seek (n - 1) s := by
  have hhigh : ofByte b &&& 0x80 = 0 := (ofByte_high b).mpr ((isCont_eq_false_iff b).mpr hb)
  rw [statusTurn]
  exact if_neg (not_not.mpr hhigh)

private theorem high_of_le {b : UInt8} (hb : 128 ≤ b.toNat) : ofByte b &&& 0x80 ≠ 0 := by
  intro h
  have := (isCont_eq_false_iff b).mp ((ofByte_high b).mp h)
  omega

theorem statusTurn_channel {b : UInt8} (hlo : 128 ≤ b.toNat) (hhi : b.toNat < 240)
    (F : List UInt8) (s : Scan) :
    statusTurn F (ofByte b) s =
      .seek (if 192 ≤ b.toNat ∧ b.toNat < 224 then 1 else 2)
        { s with runningStatus := ofByte b } := by
  have hsys : ¬ (ofByte b &&& 0xf0 = 0xf0) := by
    rw [ofByte_sys]
    omega
  rw [statusTurn, if_pos (high_of_le hlo), if_neg hsys]
  simp only [getNumMessageBytes_channel hlo hhi]

theorem statusTurn_sysEx {b : UInt8} (hlo : 240 ≤ b.toNat) (hhi : b.toNat ≠ 255)
    (F : List UInt8) (s : Scan) : statusTurn F (ofByte b) s = sysExTurn F s := by
  rw [statusTurn, if_pos (high_of_le (by omega)), if_pos ((ofByte_sys b).mpr hlo),
    if_neg (by rw [ofByte_ff]; exact hhi)]

theorem statusTurn_meta {b : UInt8} (hb : b.toNat = 255) (F : List UInt8) (s : Scan) :
    statusTurn F (ofByte b) s = metaTurn F s := by
  rw [statusTurn, if_pos (high_of_le (by omega)), if_pos ((ofByte_sys b).mpr (by omega)),
    if_pos ((ofByte_ff b).mpr hb)]

theorem recordTurn_found {i : Fin META_MAX} {s : Scan} (h : s.baFound i = true) (length : ULong) :
    recordTurn i length s = .seek length s := by
  have hsame : Function.update s.baFound i true = s.baFound := by
    rw [← h, Function.update_eq_self]
  rw [recordTurn, if_neg (by simp [h]), hsame]

theorem recordTurn_store {i : Fin META_MAX} {s : Scan} (h : s.baFound i = false)
    (hpos : s.fp.pos ≤ LONG_MAX) (length : ULong) :
    recordTurn i length s =
      .seek length (s.store i ⟨s.trkLenOffset, s.fp.pos, length⟩) := by
  have htell := ftell_inside hpos
  rw [recordTurn, if_pos h]
  simp only [htell]
  rw [if_neg (by omega)]
  rfl

theorem recordTurn_tell {i : Fin META_MAX} {s : Scan} (h : s.baFound i = false)
    (hpos : LONG_MAX < s.fp.pos) (length : ULong) :
    recordTurn i length s = .ret .recordTell s := by
  have htell : ftell s.fp = -1 := by rw [ftell, if_neg (by omega)]
  rw [recordTurn, if_pos h]
  simp only [htell]
  rw [if_pos (by decide)]

theorem metaTurn_noType {F : List UInt8} {s : Scan} (h : F.length ≤ s.fp.pos) :
    metaTurn F s = .seek 0x7f (s.moveTo s.fp.pos true) := by
  have hdrop : F.drop s.fp.pos = [] := List.drop_eq_nil_of_le h
  have hread : readVLV F { s.fp with eof := true } =
      (some 0x7f, { pos := s.fp.pos, eof := true }) := by
    rw [readVLV_eq]
    simp only [hdrop]
    rfl
  have hint : ¬ (1 ≤ EOF.toInt ∧ EOF.toInt ≤ 3) := by decide
  have heot : EOF ≠ 0x2f := by decide
  simp only [metaTurn, fgetc_end h, hread]
  rw [dif_neg hint, if_neg heot]
  rfl

/-- A meta event with its type byte and an accepted length. -/
theorem metaTurn_type {F : List UInt8} {s : Scan} {ty : UInt8} (hty : F[s.fp.pos]? = some ty)
    (hlen : ¬ vlvRejected (F.drop (s.fp.pos + 1))) :
    metaTurn F s =
      let l := F.drop (s.fp.pos + 1)
      let s' := s.moveTo (s.fp.pos + 1 + vlvSize l) (s.fp.eof || vlvCut l)
      if ty = 0x2f then .brk s'
      else
        match metaIndex ty s.curTrack with
        | some i => recordTurn i (vlvVal l) s'
        | none => .seek (vlvVal l) s' := by
  have hread := readVLV_eq F { s.fp with pos := s.fp.pos + 1 }
  simp only [hlen, if_false] at hread
  simp only [metaTurn, fgetc_byte hty, hread, ofByte_toInt]
  have hthree : ofByte ty ≠ 3 ↔ ty ≠ 3 := not_congr (ofByte_eq_iff ty 3)
  have heot : ofByte ty = 0x2f ↔ ty = 0x2f := ofByte_eq_iff ty 0x2f
  simp only [hthree, heot]
  by_cases h1 : ty = 1
  · subst ty
    rw [dif_pos (show 1 ≤ ((1 : UInt8).toNat : Int) ∧ ((1 : UInt8).toNat : Int) ≤ 3 by decide),
      if_pos (Or.inl (by decide))]
    rfl
  by_cases h2 : ty = 2
  · subst ty
    rw [dif_pos (show 1 ≤ ((2 : UInt8).toNat : Int) ∧ ((2 : UInt8).toNat : Int) ≤ 3 by decide),
      if_pos (Or.inl (by decide))]
    rfl
  by_cases h3 : ty = 3
  · subst ty
    rw [dif_pos (show 1 ≤ ((3 : UInt8).toNat : Int) ∧ ((3 : UInt8).toNat : Int) ≤ 3 by decide)]
    by_cases hc : s.curTrack = 0
    · have hindex : metaIndex 3 s.curTrack = some META_SEQNAME := by simp [metaIndex, hc]
      rw [if_pos (Or.inr hc), hindex]
      rfl
    · have hindex : metaIndex 3 s.curTrack = none := by simp [metaIndex, hc]
      rw [if_neg (by simp [hc]), hindex]
      rfl
  have hrange : ¬ (1 ≤ (ty.toNat : Int) ∧ (ty.toNat : Int) ≤ 3) := by
    intro ⟨hlo, hhi⟩
    have hcases : ty.toNat = 1 ∨ ty.toNat = 2 ∨ ty.toNat = 3 := by omega
    rcases hcases with h | h | h
    · exact h1 (UInt8.toNat_inj.mp h)
    · exact h2 (UInt8.toNat_inj.mp h)
    · exact h3 (UInt8.toNat_inj.mp h)
  rw [dif_neg hrange]
  simp only [metaIndex, h1, h2, h3, if_false, false_and]
  rfl

theorem metaTurn_rejected {F : List UInt8} {s : Scan} {ty : UInt8} (hty : F[s.fp.pos]? = some ty)
    (hlen : vlvRejected (F.drop (s.fp.pos + 1))) :
    metaTurn F s = .ret .metaLength (s.moveTo (s.fp.pos + 1 + vlvSize (F.drop (s.fp.pos + 1)))
      (s.fp.eof || vlvCut (F.drop (s.fp.pos + 1)))) := by
  have hread := readVLV_eq F { s.fp with pos := s.fp.pos + 1 }
  simp only [hlen, if_true] at hread
  simp only [metaTurn, fgetc_byte hty, hread]
  rfl

theorem sysExTurn_eq (F : List UInt8) (s : Scan) :
    sysExTurn F s =
      let l := F.drop s.fp.pos
      let s' := s.moveTo (s.fp.pos + vlvSize l) (s.fp.eof || vlvCut l)
      if vlvRejected l then .ret .sysExLength s' else .seek (vlvVal l) s' := by
  simp only [sysExTurn, readVLV_eq]
  split
  · rename_i h
    split at h
    · rw [if_pos ‹_›]
      cases h
      rfl
    · cases h
  · rename_i h
    split at h
    · cases h
    · rw [if_neg ‹_›]
      cases h
      rfl

/-! ## The whole turn -/

/-- The variables at the end of a turn, before its final seek. -/
def Turn.scan : Turn → Scan
  | .seek _ s | .brk s | .ret _ s => s

/-- The event whose delta-time starts at `p` has its status byte `b` at `q`. -/
structure StatusAt (F : List UInt8) (p q : Nat) (b : UInt8) : Prop where
  delta : ¬ vlvRejected (F.drop p)
  pos : q = p + vlvSize (F.drop p)
  byte : F[q]? = some b

theorem lt_of_byte {F : List UInt8} {q : Nat} {b : UInt8} (h : F[q]? = some b) : q < F.length := by
  by_contra hge
  rw [List.getElem?_eq_none (by omega)] at h
  cases h

theorem StatusAt.lt {F : List UInt8} {p q : Nat} {b : UInt8} (h : StatusAt F p q b) :
    p < q ∧ q < F.length := by
  have hq := lt_of_byte h.byte
  have hsize : 1 ≤ vlvSize (F.drop p) := by
    apply vlvSize_pos
    intro hnil
    have hpos := h.pos
    have := List.drop_eq_nil_iff.mp hnil
    omega
  exact ⟨by have := h.pos; omega, hq⟩

theorem StatusAt.not_cut {F : List UInt8} {p q : Nat} {b : UInt8} (h : StatusAt F p q b) :
    vlvCut (F.drop p) = false := by
  rw [← Bool.not_eq_true]
  intro hcut
  have hsize := vlvSize_of_cut hcut
  have hq := h.lt
  have hpos := h.pos
  rw [List.length_drop] at hsize
  omega

/-- A meta event of type `ty` with its `FF` byte at `q` and an accepted length. -/
structure MetaAt (F : List UInt8) (p q : Nat) (ty : UInt8) : Prop extends StatusAt F p q 255 where
  type : F[q + 1]? = some ty
  length : ¬ vlvRejected (F.drop (q + 2))

/-- The position behind the length field of the meta event at `q`. -/
def metaEnd (F : List UInt8) (q : Nat) : Nat := q + 2 + vlvSize (F.drop (q + 2))

/-- The length decoded for the meta event at `q`. -/
def metaLen (F : List UInt8) (q : Nat) : ULong := vlvVal (F.drop (q + 2))

theorem metaEnd_le {F : List UInt8} {q : Nat} {ty : UInt8} (h : F[q + 1]? = some ty) :
    metaEnd F q ≤ F.length := by
  have hlt := lt_of_byte h
  have hle := vlvSize_le (F.drop (q + 2))
  rw [List.length_drop] at hle
  rw [metaEnd]
  omega

/-- The scan behind the length field of the meta event at `q`. -/
def Scan.behindMeta (s : Scan) (F : List UInt8) (q : Nat) : Scan :=
  s.moveTo (metaEnd F q) (s.fp.eof || vlvCut (F.drop (q + 2)))

/-- Every way the body of the event loop can go. -/
inductive EventTurn (F : List UInt8) (s : Scan) : Turn → Prop
  | deltaTime : vlvRejected (F.drop s.fp.pos) →
      EventTurn F s (.ret .deltaTime (s.moveTo (s.fp.pos + vlvSize (F.drop s.fp.pos))
        (s.fp.eof || vlvCut (F.drop s.fp.pos))))
  | fileEnd : ¬ vlvRejected (F.drop s.fp.pos) →
      F.length ≤ s.fp.pos + vlvSize (F.drop s.fp.pos) →
      EventTurn F s (.brk (s.moveTo (s.fp.pos + vlvSize (F.drop s.fp.pos)) true))
  | running {q : Nat} {b : UInt8} {n : ULong} : StatusAt F s.fp.pos q b → b.toNat < 128 →
      getNumMessageBytes s.runningStatus = some n →
      EventTurn F s (.seek (n - 1) (s.moveTo (q + 1) s.fp.eof))
  | noStatus {q : Nat} {b : UInt8} : StatusAt F s.fp.pos q b → b.toNat < 128 →
      getNumMessageBytes s.runningStatus = none →
      EventTurn F s (.ret .runningStatus (s.moveTo (q + 1) s.fp.eof))
  | channel {q : Nat} {b : UInt8} : StatusAt F s.fp.pos q b → 128 ≤ b.toNat → b.toNat < 240 →
      EventTurn F s (.seek (if 192 ≤ b.toNat ∧ b.toNat < 224 then 1 else 2)
        { s.moveTo (q + 1) s.fp.eof with runningStatus := ofByte b })
  | sysExLength {q : Nat} {b : UInt8} : StatusAt F s.fp.pos q b → 240 ≤ b.toNat →
      b.toNat ≠ 255 → vlvRejected (F.drop (q + 1)) →
      EventTurn F s (.ret .sysExLength (s.moveTo (q + 1 + vlvSize (F.drop (q + 1)))
        (s.fp.eof || vlvCut (F.drop (q + 1)))))
  | sysEx {q : Nat} {b : UInt8} : StatusAt F s.fp.pos q b → 240 ≤ b.toNat → b.toNat ≠ 255 →
      ¬ vlvRejected (F.drop (q + 1)) →
      EventTurn F s (.seek (vlvVal (F.drop (q + 1)))
        (s.moveTo (q + 1 + vlvSize (F.drop (q + 1))) (s.fp.eof || vlvCut (F.drop (q + 1)))))
  | noType {q : Nat} : StatusAt F s.fp.pos q 255 → F.length ≤ q + 1 →
      EventTurn F s (.seek 0x7f (s.moveTo (q + 1) true))
  | metaLength {q : Nat} {ty : UInt8} : StatusAt F s.fp.pos q 255 → F[q + 1]? = some ty →
      vlvRejected (F.drop (q + 2)) → EventTurn F s (.ret .metaLength (s.behindMeta F q))
  | endOfTrack {q : Nat} : MetaAt F s.fp.pos q 0x2f →
      EventTurn F s (.brk (s.behindMeta F q))
  | unused {q : Nat} {ty : UInt8} : MetaAt F s.fp.pos q ty → ty ≠ 0x2f →
      metaIndex ty s.curTrack = none →
      EventTurn F s (.seek (metaLen F q) (s.behindMeta F q))
  | again {q : Nat} {ty : UInt8} {i : Fin META_MAX} : MetaAt F s.fp.pos q ty →
      metaIndex ty s.curTrack = some i → s.baFound i = true →
      EventTurn F s (.seek (metaLen F q) (s.behindMeta F q))
  | record {q : Nat} {ty : UInt8} {i : Fin META_MAX} : MetaAt F s.fp.pos q ty →
      metaIndex ty s.curTrack = some i → s.baFound i = false → metaEnd F q ≤ LONG_MAX →
      EventTurn F s (.seek (metaLen F q)
        ((s.behindMeta F q).store i ⟨s.trkLenOffset, metaEnd F q, metaLen F q⟩))
  | recordTell {q : Nat} {ty : UInt8} {i : Fin META_MAX} : MetaAt F s.fp.pos q ty →
      metaIndex ty s.curTrack = some i → s.baFound i = false → LONG_MAX < metaEnd F q →
      EventTurn F s (.ret .recordTell (s.behindMeta F q))

theorem eventTurn_rejected {F : List UInt8} {s : Scan} (h : vlvRejected (F.drop s.fp.pos)) :
    eventTurn F s = .ret .deltaTime (s.moveTo (s.fp.pos + vlvSize (F.drop s.fp.pos))
      (s.fp.eof || vlvCut (F.drop s.fp.pos))) := by
  simp only [eventTurn, readVLV_eq, if_pos h]
  rfl

theorem eventTurn_end {F : List UInt8} {s : Scan} (h : ¬ vlvRejected (F.drop s.fp.pos))
    (hend : F.length ≤ s.fp.pos + vlvSize (F.drop s.fp.pos)) :
    eventTurn F s = .brk (s.moveTo (s.fp.pos + vlvSize (F.drop s.fp.pos)) true) := by
  have hget (eof : Bool) :
      fgetc F { pos := s.fp.pos + vlvSize (F.drop s.fp.pos), eof } =
        (EOF, { pos := s.fp.pos + vlvSize (F.drop s.fp.pos), eof := true }) :=
    fgetc_end hend
  simp only [eventTurn, readVLV_eq, if_neg h, hget, if_true]
  rfl

theorem eventTurn_status {F : List UInt8} {s : Scan} {q : Nat} {b : UInt8}
    (h : StatusAt F s.fp.pos q b) :
    eventTurn F s = statusTurn F (ofByte b) (s.moveTo (q + 1) s.fp.eof) := by
  have hget : fgetc F { pos := q, eof := s.fp.eof } =
      (ofByte b, { pos := q + 1, eof := s.fp.eof }) :=
    fgetc_byte h.byte
  simp only [eventTurn, readVLV_eq, if_neg h.delta, h.not_cut, ← h.pos, Bool.or_false, hget,
    ofByte_ne_EOF, if_false]
  rfl

theorem eventTurn_meta {F : List UInt8} {s : Scan} {q : Nat} {ty : UInt8}
    (h : MetaAt F s.fp.pos q ty) :
    eventTurn F s =
      if ty = 0x2f then .brk (s.behindMeta F q)
      else
        match metaIndex ty s.curTrack with
        | some i => recordTurn i (metaLen F q) (s.behindMeta F q)
        | none => .seek (metaLen F q) (s.behindMeta F q) := by
  rw [eventTurn_status h.toStatusAt, statusTurn_meta rfl,
    metaTurn_type (s := s.moveTo (q + 1) s.fp.eof) h.type h.length]
  rfl

private theorem metaTurn_spec {F : List UInt8} {s : Scan} {q : Nat}
    (h : StatusAt F s.fp.pos q 255) :
    EventTurn F s (metaTurn F (s.moveTo (q + 1) s.fp.eof)) := by
  rcases Nat.lt_or_ge (q + 1) F.length with hlt | hge
  · have hty : F[q + 1]? = some F[q + 1] := List.getElem?_eq_getElem hlt
    generalize F[q + 1] = ty at hty
    by_cases hlen : vlvRejected (F.drop (q + 2))
    · rw [metaTurn_rejected hty hlen]
      exact .metaLength h hty hlen
    · have hmeta : MetaAt F s.fp.pos q ty := { h with type := hty, length := hlen }
      rw [metaTurn_type hty hlen]
      by_cases heot : ty = 0x2f
      · subst heot
        exact .endOfTrack hmeta
      · simp only [heot, if_false]
        cases hindex : metaIndex ty s.curTrack with
        | none =>
          simp only [Scan.moveTo_curTrack, hindex]
          exact .unused hmeta heot hindex
        | some i =>
          simp only [Scan.moveTo_curTrack, hindex]
          change EventTurn F s (recordTurn i (metaLen F q) (s.behindMeta F q))
          cases hfound : s.baFound i with
          | true =>
            rw [recordTurn_found (s := s.behindMeta F q) hfound]
            exact .again hmeta hindex hfound
          | false =>
            rcases Nat.lt_or_ge LONG_MAX (metaEnd F q) with hlarge | hsmall
            · rw [recordTurn_tell (s := s.behindMeta F q) hfound hlarge]
              exact .recordTell hmeta hindex hfound hlarge
            · rw [recordTurn_store (s := s.behindMeta F q) hfound hsmall]
              exact .record hmeta hindex hfound hsmall
  · rw [metaTurn_noType hge]
    exact .noType h hge

/-- The body of the event loop goes one of the listed ways. -/
theorem eventTurn_spec (F : List UInt8) (s : Scan) : EventTurn F s (eventTurn F s) := by
  by_cases hdelta : vlvRejected (F.drop s.fp.pos)
  · rw [eventTurn_rejected hdelta]
    exact .deltaTime hdelta
  rcases Nat.lt_or_ge (s.fp.pos + vlvSize (F.drop s.fp.pos)) F.length with hlt | hge
  · have hbyte := List.getElem?_eq_getElem hlt
    generalize F[s.fp.pos + vlvSize (F.drop s.fp.pos)] = b at hbyte
    have hstatus : StatusAt F s.fp.pos (s.fp.pos + vlvSize (F.drop s.fp.pos)) b :=
      ⟨hdelta, rfl, hbyte⟩
    generalize s.fp.pos + vlvSize (F.drop s.fp.pos) = q at hstatus
    rw [eventTurn_status hstatus]
    rcases Nat.lt_or_ge b.toNat 128 with hdata | hhigh
    · rw [statusTurn_data hdata]
      cases hn : getNumMessageBytes s.runningStatus with
      | none =>
        simp only [Scan.moveTo_runningStatus, hn]
        exact .noStatus hstatus hdata hn
      | some n =>
        simp only [Scan.moveTo_runningStatus, hn]
        exact .running hstatus hdata hn
    · rcases Nat.lt_or_ge b.toNat 240 with hchan | hsys
      · rw [statusTurn_channel hhigh hchan]
        exact .channel hstatus hhigh hchan
      · by_cases hff : b.toNat = 255
        · have hb : b = 255 := UInt8.toNat_inj.mp hff
          subst hb
          rw [statusTurn_meta hff]
          exact metaTurn_spec hstatus
        · rw [statusTurn_sysEx hsys hff, sysExTurn_eq]
          by_cases hlen : vlvRejected (F.drop (q + 1))
          · simp only [Scan.moveTo_fp, hlen, if_true]
            exact .sysExLength hstatus hsys hff hlen
          · simp only [Scan.moveTo_fp, hlen, if_false]
            exact .sysEx hstatus hsys hff hlen
  · rw [eventTurn_end hdelta hge]
    exact .fileEnd hdelta hge

theorem EventTurn.of_eq {F : List UInt8} {s : Scan} {turn : Turn} (h : eventTurn F s = turn) :
    EventTurn F s turn := by
  rw [← h]
  exact eventTurn_spec F s

theorem EventTurn.ret_code {F : List UInt8} {s u : Scan} {e : Exit}
    (h : EventTurn F s (.ret e u)) : e.code ≠ 0 := by
  cases h <;> decide

end StepMid
