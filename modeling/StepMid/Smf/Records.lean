import StepMid.Smf.FindMetaEvents

/-!
# Where the records come from

Every record the scan leaves is either the caller's, marked absent, or names a meta event of
the file in the track the scan had entered.
-/

namespace StepMid

/-- Record `i` describes the meta event whose `FF` byte stands at `q`. -/
structure RecordAt (F : List UInt8) (i : Fin META_MAX) (q : Nat) (r : MetaEvent) : Prop where
  ff : F[q]? = some 255
  type : ∃ ty : UInt8, F[q + 1]? = some ty ∧ ty.toNat = i.val + 1
  accepted : ¬ vlvRejected (F.drop (q + 2))
  offset : r.offset = metaEnd F q
  length : r.length = metaLen F q

/-- The track whose chunk starts at `pos` holds record `i` found at `q`. -/
structure TrackOf (F : List UInt8) (i : Fin META_MAX) (q : Nat) (r : MetaEvent) (pos : Nat) :
    Prop where
  signature : (F.drop pos).take 4 = MTrk
  trkLenOffset : r.trkLenOffset = (pos + 4 : Nat)
  behind : pos + 8 < q
  seqname : i = META_SEQNAME → pos = 14

/-- A record marked absent: all but its offset is the caller's. -/
def MetaEvent.absent (r : MetaEvent) : MetaEvent := { r with offset := -1 }

structure Scan.Sound (F : List UInt8) (events : Events) (s : Scan) : Prop where
  absent : ∀ i, s.baFound i = false → s.events i = (events i).absent
  present : ∀ i, s.baFound i = true →
    ∃ q pos, RecordAt F i q (s.events i) ∧ TrackOf F i q (s.events i) pos

/-- The variables that only the recording branch and the track loop change. -/
structure Scan.Same (s u : Scan) : Prop where
  events : u.events = s.events
  baFound : u.baFound = s.baFound
  curTrack : u.curTrack = s.curTrack
  trkLenOffset : u.trkLenOffset = s.trkLenOffset

theorem Scan.Sound.of_same {F : List UInt8} {events : Events} {s u : Scan}
    (h : s.Sound F events) (hev : u.events = s.events) (hfound : u.baFound = s.baFound) :
    u.Sound F events := by
  constructor
  · intro i hi
    rw [hev]
    exact h.absent i (hfound ▸ hi)
  · intro i hi
    rw [hev]
    exact h.present i (hfound ▸ hi)

/-! ## What a turn does to the records -/

theorem EventTurn.brk_same {F : List UInt8} {s u : Scan} (h : EventTurn F s (.brk u)) :
    s.Same u := by
  cases h <;> exact ⟨rfl, rfl, rfl, rfl⟩

theorem EventTurn.ret_same {F : List UInt8} {s u : Scan} {e : Exit}
    (h : EventTurn F s (.ret e u)) : s.Same u := by
  cases h <;> exact ⟨rfl, rfl, rfl, rfl⟩

/-- The meta event at `q` is stored as record `i` by the turn from `s`. -/
structure Records (F : List UInt8) (s : Scan) (i : Fin META_MAX) (q : Nat) : Prop where
  wanted : ∃ ty, MetaAt F s.fp.pos q ty ∧ metaIndex ty s.curTrack = some i
  missing : s.baFound i = false
  fits : metaEnd F q ≤ LONG_MAX

/-- What the turn from `s` stores for the meta event at `q`. -/
def Scan.recordOf (s : Scan) (F : List UInt8) (q : Nat) : MetaEvent :=
  ⟨s.trkLenOffset, metaEnd F q, metaLen F q⟩

theorem EventTurn.seek_records {F : List UInt8} {s u : Scan} {off : ULong}
    (h : EventTurn F s (.seek off u)) :
    s.Same u ∨ ∃ i q, Records F s i q ∧ off = metaLen F q ∧
      u = (s.behindMeta F q).store i (s.recordOf F q) := by
  cases h with
  | record hm hindex hfound hfits =>
    exact Or.inr ⟨_, _, ⟨⟨_, hm, hindex⟩, hfound, hfits⟩, rfl, rfl⟩
  | running | channel | sysEx | noType | unused | again => exact Or.inl ⟨rfl, rfl, rfl, rfl⟩

theorem Records.recordAt {F : List UInt8} {s : Scan} {i : Fin META_MAX} {q : Nat}
    (h : Records F s i q) : RecordAt F i q (s.recordOf F q) := by
  obtain ⟨ty, hm, hindex⟩ := h.wanted
  exact ⟨hm.byte, ⟨ty, hm.type, metaIndex_type hindex⟩, hm.length, rfl, rfl⟩

theorem Scan.store_events_self (s : Scan) (i : Fin META_MAX) (r : MetaEvent) :
    (s.store i r).events i = r := by
  simp only [Scan.store, Function.update_self]

theorem Scan.store_events_ne {s : Scan} {i j : Fin META_MAX} (h : j ≠ i) (r : MetaEvent) :
    (s.store i r).events j = s.events j := by
  simp only [Scan.store, Function.update_of_ne h]

theorem Scan.store_baFound_self (s : Scan) (i : Fin META_MAX) (r : MetaEvent) :
    (s.store i r).baFound i = true := by
  simp only [Scan.store, Function.update_self]

theorem Scan.store_baFound_ne {s : Scan} {i j : Fin META_MAX} (h : j ≠ i) (r : MetaEvent) :
    (s.store i r).baFound j = s.baFound j := by
  simp only [Scan.store, Function.update_of_ne h]

/-! ## The invariant -/

/-- The track loop stands at the first chunk while no track was scanned; the event loop stands
inside the chunk whose length field is at `trkLenOffset`. -/
def ScanState.Sound (F : List UInt8) (events : Events) : ScanState → Prop
  | .track s => s.Sound F events ∧ (s.curTrack = 0 → s.fp.pos = 14)
  | .event s => s.Sound F events ∧
      ∃ pos : Nat, s.trkLenOffset = (pos + 4 : Nat) ∧ (F.drop pos).take 4 = MTrk ∧
        pos + 8 ≤ s.fp.pos ∧ (s.curTrack = 0 → pos = 14)

theorem Scan.Sound.store {F : List UInt8} {events : Events} {s : Scan} {i : Fin META_MAX}
    {q pos : Nat} (h : s.Sound F events) (hrec : Records F s i q)
    (htrack : TrackOf F i q (s.recordOf F q) pos) :
    ((s.behindMeta F q).store i (s.recordOf F q)).Sound F events := by
  constructor
  · intro j hj
    have hji : j ≠ i := by
      intro hji
      subst hji
      rw [Scan.store_baFound_self] at hj
      cases hj
    rw [Scan.store_baFound_ne hji] at hj
    rw [Scan.store_events_ne hji]
    exact h.absent j hj
  · intro j hj
    by_cases hji : j = i
    · subst hji
      rw [Scan.store_events_self]
      exact ⟨q, pos, hrec.recordAt, htrack⟩
    · rw [Scan.store_baFound_ne hji] at hj
      rw [Scan.store_events_ne hji]
      exact h.present j hj

theorem sound_step {past : Nat → Bool} {F : List UInt8} {events : Events} {s t : ScanState}
    (hs : s.Sound F events) (h : scanStep past F s = .inl t) : t.Sound F events := by
  cases s with
  | track s =>
    obtain ⟨hsig, -, -, rfl⟩ := scanStep_track_inl h
    exact ⟨hs.1.of_same rfl rfl, s.fp.pos, rfl, hsig, Nat.le_refl _, hs.2⟩
  | event s =>
    obtain ⟨hsound, pos, htrk, hsig, hpos, hfirst⟩ := hs
    cases t with
    | track t =>
      obtain ⟨u, hturn, rfl, -⟩ := scanStep_event_track h
      have hsame := hturn.brk_same
      exact ⟨hsound.of_same hsame.events hsame.baFound, fun hzero => by simp at hzero⟩
    | event t =>
      obtain ⟨off, u, hturn, rfl⟩ := scanStep_event_event h
      have hprog := hturn.seek_progress
      rcases hturn.seek_records with hsame | ⟨i, q, hrec, -, rfl⟩
      · refine ⟨hsound.of_same hsame.events hsame.baFound, pos, ?_, hsig, ?_, ?_⟩
        · exact hsame.trkLenOffset.trans htrk
        · simp only [Scan.moveTo_fp]
          omega
        · intro hzero
          exact hfirst (hsame.curTrack.symm.trans hzero)
      · obtain ⟨ty, hm, hindex⟩ := hrec.wanted
        have hlt := hm.lt
        have htrack : TrackOf F i q (s.recordOf F q) pos := by
          refine ⟨hsig, htrk, by omega, ?_⟩
          intro hseq
          subst hseq
          exact hfirst (metaIndex_seqname hindex)
        refine ⟨(hsound.store hrec htrack).of_same rfl rfl, pos, htrk, hsig, ?_, hfirst⟩
        simp only [Scan.moveTo_fp]
        omega

theorem sound_exit {past : Nat → Bool} {F : List UInt8} {events : Events} {s : ScanState}
    {e : Exit} {t : Scan} (hs : s.Sound F events) (h : scanStep past F s = .inr (e, t))
    (he : e.code = 0) : t.Sound F events := by
  cases s with
  | track s =>
    cases TrackTurn.of_step h <;> exact hs.1.of_same rfl rfl
  | event s =>
    rcases scanStep_event_exit h with hturn | ⟨-, hturn⟩ | ⟨rfl, -⟩
    · exact hs.1.of_same hturn.ret_same.events hturn.ret_same.baFound
    · exact hs.1.of_same hturn.brk_same.events hturn.brk_same.baFound
    · simp [Exit.code] at he

/-! ## The records of an accepted file -/

theorem sound_start (F : List UInt8) (events : Events) :
    (scanStart events ⟨14, false⟩).Sound F events :=
  ⟨⟨fun _ _ => rfl, fun _ hi => by cases hi⟩, fun _ => rfl⟩

/-- After a scan that returns 0 every record is absent or describes an event of the file. -/
theorem findMetaEvents_sound {past : Nat → Bool} {F : List UInt8} {events : Events}
    (h : (findMetaEvents past F .start events).ret = 0) (i : Fin META_MAX) :
    (findMetaEvents past F .start events).events i = (events i).absent ∨
      ∃ q pos, RecordAt F i q ((findMetaEvents past F .start events).events i) ∧
        TrackOf F i q ((findMetaEvents past F .start events).events i) pos := by
  obtain ⟨hhead, heq⟩ := findMetaEvents_accepted h
  rw [heq] at h ⊢
  obtain ⟨t, hreach, hexit⟩ := scanLoops_yields past F (scanStart events ⟨14, false⟩)
  have ht := hreach.invariant (sound_start F events) (fun _ _ => sound_step)
  have hs := sound_exit ht hexit h
  cases hfound : (scanLoops past F (scanStart events ⟨14, false⟩)).2.baFound i with
  | false => exact Or.inl (hs.absent i hfound)
  | true => exact Or.inr (hs.present i hfound)

/-- `ftell` refuses the positions from 2 GiB on. -/
theorem findMetaEvents_offset_le {past : Nat → Bool} {F : List UInt8} {events : Events}
    (h : (findMetaEvents past F .start events).ret = 0) (i : Fin META_MAX) :
    ((findMetaEvents past F .start events).events i).offset ≤ LONG_MAX := by
  obtain ⟨-, heq⟩ := findMetaEvents_accepted h
  rw [heq]
  refine yields_records (Q := fun events _ => (events i).offset ≤ LONG_MAX)
    (scanLoops_yields past F (scanStart events ⟨14, false⟩)) (show (-1 : Int) ≤ _ by decide) ?_
  intro s _ hle
  have hspec := eventTurn_spec F s
  cases hturn : eventTurn F s with
  | brk u =>
    rw [hturn] at hspec
    simpa only [Turn.scan, hspec.brk_same.events] using hle
  | ret e u =>
    rw [hturn] at hspec
    simpa only [Turn.scan, hspec.ret_same.events] using hle
  | seek off u =>
    rw [hturn] at hspec
    rcases hspec.seek_records with hsame | ⟨j, q, hrec, -, rfl⟩
    · simpa only [Turn.scan, hsame.events] using hle
    · by_cases hij : i = j
      · subst hij
        rw [Turn.scan, Scan.store_events_self]
        exact Int.ofNat_le.mpr hrec.fits
      · rw [Turn.scan, Scan.store_events_ne hij]
        exact hle

/-! ## A record and its event -/

/-- The length of a record that `ftell` let pass was counted. -/
theorem RecordAt.counted {F : List UInt8} {i : Fin META_MAX} {q : Nat} {r : MetaEvent}
    (h : RecordAt F i q r) (hfits : r.offset ≤ LONG_MAX) : VlvCounted (F.drop (q + 2)) := by
  apply vlvCounted_of_size
  rw [h.offset, Int.ofNat_le, metaEnd] at hfits
  omega

/-- The payload of a record is within the reach of a seek. -/
theorem Records.length_le {F : List UInt8} {s : Scan} {i : Fin META_MAX} {q : Nat}
    (h : Records F s i q) : (metaLen F q).toNat ≤ LONG_MAX := by
  have hcounted := h.recordAt.counted (Int.ofNat_le.mpr h.fits)
  exact Nat.le_of_lt_succ (vlvVal_toNat hcounted h.recordAt.accepted).2

private theorem RecordAt.not_lt {F : List UInt8} {i j : Fin META_MAX} {q q' : Nat}
    {r : MetaEvent} (h : RecordAt F i q r) (h' : RecordAt F j q' r) : ¬ q < q' := by
  intro hlt
  obtain ⟨ty, hty, htype⟩ := h'.type
  have hend : metaEnd F q = metaEnd F q' := Int.ofNat_inj.mp (h.offset.symm.trans h'.offset)
  have hlen : metaLen F q = metaLen F q' := h.length.symm.trans h'.length
  have hj : j.val < 3 := j.isLt
  have hlow : isCont ty = false := by
    rw [isCont_eq_false_iff]
    omega
  simp only [metaEnd] at hend
  -- the type byte of the later event would end the length field of the earlier one
  have hget : (F.drop (q + 2))[q' + 1 - (q + 2)]? = some ty := by
    rw [List.getElem?_drop, ← hty]
    congr 1
    omega
  obtain ⟨hsize, gs, hgs⟩ := vlv_stop (by omega) hget hlow
  have hnil : F.drop (q' + 2) = [] := by
    by_contra hne
    have := vlvSize_pos hne
    omega
  have hval := vlvVal_toNat_mod (F.drop (q + 2))
  rw [hgs, List.map_append, List.map_singleton, Radix.value_append_singleton,
    ofByte_low_toNat] at hval
  have heof : (metaLen F q').toNat = 127 := by
    rw [metaLen, hnil]
    rfl
  rw [← hlen, metaLen, hval] at heof
  omega

/-- A record determines the position of its event. -/
theorem RecordAt.unique {F : List UInt8} {i j : Fin META_MAX} {q q' : Nat} {r : MetaEvent}
    (h : RecordAt F i q r) (h' : RecordAt F j q' r) : q = q' :=
  Nat.le_antisymm (Nat.not_lt.mp (h'.not_lt h)) (Nat.not_lt.mp (h.not_lt h'))

end StepMid
