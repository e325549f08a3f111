import StepMid.Smf.Reading

/-!
# Length fields

`readVLV` takes the end of the file for one more group of a value, so an event whose length field
the file cuts is recorded with a length that stands nowhere in the file.
-/

namespace StepMid

/-- A complete length ends in front of the payload at `o`, and it is the one recorded. -/
structure LengthBefore (F : List UInt8) (r : MetaEvent) (o k : Nat) : Prop where
  offset : r.offset = (o : Nat)
  behind : k ≤ o
  inside : o ≤ F.length
  complete : CompleteVlv ((F.drop (o - k)).take k)
  value : vlvValue ((F.drop (o - k)).take k) = r.length.toNat

/-- The first event met for each record has its length field in the file, up to its last byte. -/
def FirstsComplete (F : List UInt8) : Prop :=
  ∀ i trkLenOffset q, FirstMet F i trkLenOffset q → vlvCut (F.drop (q + 2)) = false

theorem isCont_of_cut {l : List UInt8} (h : vlvCut l = true) : ∀ b ∈ l, isCont b = true := by
  induction l with
  | nil => exact nofun
  | cons b l ih =>
    rw [vlvCut, Bool.and_eq_true] at h
    exact List.forall_mem_cons.mpr ⟨h.1, ih h.2⟩

theorem FirstMet.recordAt {F : List UInt8} {i : Fin META_MAX} {trkLenOffset q : Nat}
    (h : FirstMet F i trkLenOffset q) :
    RecordAt F i q ⟨trkLenOffset, metaEnd F q, metaLen F q⟩ := by
  obtain ⟨⟨track, rs, p, ty, -, hm, hindex⟩, -⟩ := h
  exact ⟨hm.byte, ⟨ty, hm.type, metaIndex_type hindex⟩, hm.length, rfl, rfl⟩

section

variable {F : List UInt8} {i : Fin META_MAX} {q : Nat} {r : MetaEvent}

/-- A length field that is not cut is the complete length in front of the payload. -/
theorem RecordAt.lengthBefore (h : RecordAt F i q r) (hfits : r.offset ≤ LONG_MAX)
    (hcut : vlvCut (F.drop (q + 2)) = false) :
    LengthBefore F r (metaEnd F q) (vlvSize (F.drop (q + 2))) := by
  obtain ⟨ty, hty, -⟩ := h.type
  obtain ⟨hcomplete, hgroups⟩ := vlv_complete hcut
  have hback : metaEnd F q - vlvSize (F.drop (q + 2)) = q + 2 := by
    rw [metaEnd]
    omega
  refine ⟨h.offset, ?_, metaEnd_le hty, ?_, ?_⟩
  · rw [metaEnd]
    omega
  · rw [hback]
    exact hcomplete
  · rw [hback, h.length, metaLen, (vlvVal_toNat (h.counted hfits) h.accepted).1, hgroups]
    rfl

/-- A length field that is cut ends at the end of the file. -/
theorem RecordAt.cut_end (h : RecordAt F i q r) (hcut : vlvCut (F.drop (q + 2)) = true) :
    q + 2 ≤ F.length ∧ metaEnd F q = F.length := by
  obtain ⟨ty, hty, -⟩ := h.type
  have hlt := lt_of_byte hty
  have hsize := vlvSize_of_cut hcut
  rw [List.length_drop] at hsize
  rw [metaEnd]
  omega

/-- The last byte of a length that ends the file is the last byte of the file. -/
theorem LengthBefore.last_byte {o k : Nat} (h : LengthBefore F r o k) (ho : o = F.length) :
    ∃ lead last, (F.drop (o - k)).take k = lead ++ [last] ∧ isCont last = false ∧
      F.getLast? = some last := by
  obtain ⟨lead, last, heq, -, hlow⟩ := h.complete
  refine ⟨lead, last, heq, hlow, ?_⟩
  have hdrop : (F.drop (o - k)).take k = F.drop (o - k) := by
    apply List.take_of_length_le
    rw [List.length_drop]
    have := h.behind
    omega
  rw [← List.take_append_drop (o - k) F, ← hdrop, heq, ← List.append_assoc]
  exact List.getLast?_concat

/-- In front of the end of the file there is no length that a cut field could be. -/
theorem RecordAt.not_lengthBefore (h : RecordAt F i q r)
    (hcut : vlvCut (F.drop (q + 2)) = true) (o k : Nat) : ¬ LengthBefore F r o k := by
  intro hl
  obtain ⟨hinside, hend⟩ := h.cut_end hcut
  obtain ⟨ty, hty, htype⟩ := h.type
  have ho : o = F.length := by
    rw [← hend]
    exact Int.ofNat_inj.mp (hl.offset.symm.trans h.offset)
  obtain ⟨lead, last, heq, hlow, hlast⟩ := hl.last_byte ho
  rw [List.getLast?_eq_getElem?] at hlast
  rcases Nat.lt_or_ge (q + 2) F.length with hlt | hge
  · -- the last byte of the file is one of the field, so it announces another one
    have hmem : last ∈ F.drop (q + 2) := by
      apply List.mem_of_getElem? (i := F.length - 1 - (q + 2))
      rw [List.getElem?_drop, ← hlast]
      congr 1
      omega
    rw [isCont_of_cut hcut last hmem] at hlow
    cases hlow
  · -- the field is missing: the last byte is the type, and the length recorded is 127
    have hnil : F.drop (q + 2) = [] := List.drop_eq_nil_of_le hge
    have hlen : r.length.toNat = 127 := by
      rw [h.length, metaLen, hnil]
      rfl
    have hsame : last = ty := by
      apply Option.some.inj
      rw [← hlast, ← hty]
      congr 1
      omega
    have hvalue := hl.value
    have hi : i.val < 3 := i.isLt
    rw [heq, vlvValue, List.map_append, List.map_singleton, Radix.value_append_singleton, hsame,
      hlen, htype] at hvalue
    omega

end

/-- In an accepted file every record has its complete length in front of its payload, and none is
made of an event with a cut length field, exactly when no first event of its kind has one. -/
theorem findMetaEvents_lengthFields {past : Nat → Bool} {F : List UInt8} {events : Events}
    (hret : (findMetaEvents past F .start events).ret = 0) :
    ((∀ i, 0 ≤ ((findMetaEvents past F .start events).events i).offset →
      ∃ o k, LengthBefore F ((findMetaEvents past F .start events).events i) o k) ↔
        FirstsComplete F) ∧
    ((∀ i q, RecordAt F i q ((findMetaEvents past F .start events).events i) →
      vlvCut (F.drop (q + 2)) = false) ↔ FirstsComplete F) := by
  have hheld (i : Fin META_MAX) := (findMetaEvents_firstMet hret i).1
  have hpresent (i : Fin META_MAX) := (findMetaEvents_firstMet hret i).2
  constructor
  · constructor
    · intro hcomplete i trkLenOffset q hfirst
      rw [← Bool.not_eq_true]
      intro hcut
      have hi := hcomplete i
      rw [hheld i trkLenOffset q hfirst] at hi
      obtain ⟨o, k, hl⟩ := hi (Int.natCast_nonneg _)
      exact hfirst.recordAt.not_lengthBefore hcut o k hl
    · intro hfirsts i hi
      obtain ⟨trkLenOffset, q, hfirst⟩ := hpresent i hi
      have hfits := findMetaEvents_offset_le hret i
      rw [hheld i trkLenOffset q hfirst] at hfits ⊢
      exact ⟨_, _, hfirst.recordAt.lengthBefore hfits (hfirsts i trkLenOffset q hfirst)⟩
  · constructor
    · intro hcut i trkLenOffset q hfirst
      apply hcut i q
      rw [hheld i trkLenOffset q hfirst]
      exact hfirst.recordAt
    · intro hfirsts i q hat
      have hi : 0 ≤ ((findMetaEvents past F .start events).events i).offset := by
        rw [hat.offset]
        exact Int.natCast_nonneg _
      obtain ⟨trkLenOffset, q', hfirst⟩ := hpresent i hi
      rw [hheld i trkLenOffset q' hfirst] at hat
      rw [hat.unique hfirst.recordAt]
      exact hfirsts i trkLenOffset q' hfirst

/-- A file that ends behind the type of a text event. -/
def cutLengthFile : List UInt8 :=
  [0x4d, 0x54, 0x68, 0x64, 0, 0, 0, 6, 0, 0, 0, 1, 0, 96, 0x4d, 0x54, 0x72, 0x6b, 0, 0, 0, 11,
    0, 0xff, 1]

private theorem cutLengthFile_recordAt :
    RecordAt cutLengthFile META_COMMENT 23 ⟨18, 25, 127⟩ :=
  ⟨rfl, ⟨1, rfl, rfl⟩, by decide, rfl, rfl⟩

/-- A text of 127 bytes is recorded for it. -/
theorem findMetaEvents_cutLengthFile :
    (findMetaEvents (fun _ => true) cutLengthFile .start zeroedEvents).ret = 0 ∧
      (findMetaEvents (fun _ => true) cutLengthFile .start zeroedEvents).events META_COMMENT =
        ⟨18, 25, 127⟩ ∧
      ∀ o k, ¬ LengthBefore cutLengthFile ⟨18, 25, 127⟩ o k :=
  ⟨by decide +kernel, by decide +kernel, cutLengthFile_recordAt.not_lengthBefore rfl⟩

theorem cutLengthFile_not_firstsComplete :
    (findMetaEvents (fun _ => true) cutLengthFile .start zeroedEvents).ret = 0 ∧
      ¬ FirstsComplete cutLengthFile := by
  have hret : (findMetaEvents (fun _ => true) cutLengthFile .start zeroedEvents).ret = 0 := by
    decide +kernel
  have hrecord : (findMetaEvents (fun _ => true) cutLengthFile .start zeroedEvents).events
      META_COMMENT = ⟨18, 25, 127⟩ := by
    decide +kernel
  refine ⟨hret, fun hfirsts => ?_⟩
  have hcut := (findMetaEvents_lengthFields hret).2.mpr hfirsts META_COMMENT 23
  rw [hrecord] at hcut
  exact absurd (hcut cutLengthFile_recordAt) (by decide)

end StepMid
