import StepMid.Smf.Footprint
import StepMid.Smf.Reading

/-!
# What the scan skips

Between the places where it looks the scan seeks: over the header, the length fields of chunks
and the data of events. What is skipped has no influence, and neither has what follows the file
unless the scan ran into its end. A host may refuse a seek, and that is all it can change.
-/

namespace StepMid

/-! ## Seeks -/

section

variable {past : Nat → Bool} {F : List UInt8}

private theorem fread_signature {s : Scan} (hsig : (F.drop s.fp.pos).take 4 = MTrk) :
    fread F SIG_SIZE s.fp = (MTrk, ⟨s.fp.pos + 4, s.fp.eof⟩) := by
  rw [← hsig]
  exact fread_full (take_four_length hsig)

/-- Behind a track signature everything depends on the seek over the length field. -/
private theorem scanStep_chunk {s : Scan} (hsig : (F.drop s.fp.pos).take 4 = MTrk)
    (heof : s.fp.eof = false) (hsmall : s.fp.pos + 4 ≤ LONG_MAX) :
    (Seekable past F (s.fp.pos + 8) →
      scanStep past F (.track s) = .inl (.event (s.enterTrack s.fp.pos))) ∧
    (¬ Seekable past F (s.fp.pos + 8) →
      ∃ u, scanStep past F (.track s) = .inr (.trackSeek, u)) := by
  have htell : ftell ⟨s.fp.pos + 4, false⟩ = (s.fp.pos + 4 : Nat) := ftell_inside hsmall
  have hfour := fseek_cur_eq past F 4 ⟨s.fp.pos + 4, false⟩
  have hlen : MTrk.length = SIG_SIZE := rfl
  have hnonneg : ¬ ((s.fp.pos + 4 : Nat) : Int) < 0 := by omega
  have hread := fread_signature hsig
  rw [heof] at hread
  simp only [Nat.cast_ofNat, Nat.add_assoc] at hfour
  constructor
  · intro hyes
    rw [if_pos hyes] at hfour
    simp only [scanStep, trackTurn, hread, hlen, htell, hnonneg, hfour]
    rfl
  · intro hno
    rw [if_neg hno] at hfour
    simp only [scanStep, trackTurn, hread, hlen, htell, hnonneg, hfour]
    exact ⟨_, rfl⟩

private theorem scanStep_seekable {s u : Scan} {off : ULong} (hturn : eventTurn F s = .seek off u)
    (hoff : off.toNat ≤ LONG_MAX) :
    scanStep past F (.event s) =
      if Seekable past F (u.fp.pos + off.toNat) then
        .inl (.event (u.moveTo (u.fp.pos + off.toNat) false))
      else .inr (.eventSeek, u) := by
  simp only [scanStep, hturn, fseekULong, fseek_cur_eq]
  rw [if_neg (Nat.not_lt.mpr hoff)]
  split
  · rename_i hseek
    split at hseek
    · cases hseek
    · rw [if_neg ‹_›]
  · rename_i hseek
    split at hseek
    · rw [if_pos ‹_›]
      cases hseek
      rfl
    · cases hseek

namespace ScanState

variable {s : ScanState} {n : Nat}

/-- A granted seek leads to its target. -/
theorem SeeksTo.granted (h : s.SeeksTo F n) (hn : Seekable past F n) :
    ∃ t : Scan, scanStep past F s = .inl (.event t) ∧ t.fp = ⟨n, false⟩ := by
  cases h with
  | chunk hsig heof hsmall => exact ⟨_, (scanStep_chunk hsig heof hsmall).1 hn, rfl⟩
  | event hturn hoff =>
    rw [scanStep_seekable hturn hoff, if_pos hn]
    exact ⟨_, rfl, rfl⟩

/-- A refused seek ends the scan. -/
theorem SeeksTo.refused (h : s.SeeksTo F n) (hn : ¬ Seekable past F n) :
    ∃ r, scanStep past F s = .inr r ∧ r.1.code = -2 := by
  cases h with
  | chunk hsig heof hsmall =>
    obtain ⟨u, hu⟩ := (scanStep_chunk hsig heof hsmall).2 hn
    exact ⟨_, hu, rfl⟩
  | event hturn hoff =>
    rw [scanStep_seekable hturn hoff, if_neg hn]
    exact ⟨_, rfl, rfl⟩

/-- A step that stays in the loops was granted its seek. -/
theorem SeeksTo.of_inl (h : s.SeeksTo F n) {t : ScanState} (hstep : scanStep past F s = .inl t) :
    Seekable past F n ∧ t.scan.fp = ⟨n, false⟩ := by
  by_cases hgrant : Seekable past F n
  · obtain ⟨u, hu, hfp⟩ := h.granted hgrant
    obtain rfl : .event u = t := Sum.inl.inj (hu.symm.trans hstep)
    exact ⟨hgrant, hfp⟩
  · obtain ⟨r, hr, -⟩ := h.refused hgrant
    rw [hstep] at hr
    cases hr

/-- The seek starts where reading stopped. -/
theorem SeeksTo.readTo_le (h : s.SeeksTo F n) : (s.readTo F).pos ≤ n := by
  cases h with
  | chunk hsig =>
    simp only [readTo, fread_signature hsig]
    exact Nat.add_le_add_left (by decide) _
  | event hturn =>
    simp only [readTo, hturn, Turn.scan]
    exact Nat.le_add_right _ _

end ScanState

/-- A step without a seek that stays in the loops leaves a track where it stopped reading. -/
theorem scanStep_noSeek {s t : ScanState} (hno : ∀ n, ¬ s.SeeksTo F n)
    (h : scanStep past F s = .inl t) : t.scan.fp = s.readTo F := by
  cases s with
  | track s =>
    obtain ⟨hsig, heof, hsmall, -⟩ := scanStep_track_inl h
    exact absurd (.chunk hsig heof hsmall) (hno _)
  | event s =>
    cases EventStep.of_step h with
    | next hturn hoff => exact absurd (.event hturn hoff) (hno _)
    | leave hturn =>
      simp only [ScanState.readTo, hturn]
      rfl

/-- Reading stops in front of the next state. -/
theorem scanStep_readTo {s t : ScanState} (h : scanStep past F s = .inl t) :
    (s.readTo F).pos ≤ t.scan.fp.pos := by
  by_cases hseek : ∃ n, s.SeeksTo F n
  · obtain ⟨n, hn⟩ := hseek
    rw [(hn.of_inl h).2]
    exact hn.readTo_le
  · rw [scanStep_noSeek (not_exists.mp hseek) h]

/-- The scan ends where reading stopped. -/
theorem scanStep_exit_fp {s : ScanState} {e : Exit} {u : Scan}
    (h : scanStep past F s = .inr (e, u)) : u.fp = s.readTo F := by
  cases s with
  | track s =>
    simp only [scanStep, trackTurn] at h
    split at h
    · cases h
      rfl
    · split at h
      · cases h
        rfl
      · split at h
        · cases h
          rfl
        · split at h
          · cases h
            rfl
          · cases h
  | event s => rw [scanStep_event_inr h, ScanState.readTo]

/-- Below 2 GiB, nothing but a refused seek makes the scan return -2. -/
theorem scanStep_refused (hsize : F.length ≤ LONG_MAX) {s : ScanState} {e : Exit} {u : Scan}
    (h : scanStep past F s = .inr (e, u)) (he : e.code = -2) :
    ∃ n, s.SeeksTo F n ∧ ¬ Seekable past F n := by
  cases s with
  | track s =>
    have hturn := TrackTurn.of_step h
    cases hturn with
    | short | junk => exact absurd he (by decide)
    | tell hsig hlarge =>
      have := take_four_length hsig
      omega
    | seek hsig hsmall hend hpast =>
      refine ⟨_, .chunk hsig ?_ hsmall, ?_⟩
      · rw [← Bool.not_eq_true]
        intro heof
        have hread := fread_signature hsig
        rw [heof] at hread
        simp only [scanStep, trackTurn, hread] at h
        rw [if_pos (Or.inr trivial)] at h
        cases h
      · rw [Seekable, not_or, Bool.not_eq_true]
        exact ⟨Nat.not_le.mpr hend, hpast⟩
  | event s =>
    cases EventStep.of_step h with
    | foundAll => exact absurd he (by decide)
    | seek hturn hseek =>
      have hoff := (EventTurn.of_eq hturn).seek_offset hsize
      refine ⟨_, .event hturn hoff, ?_⟩
      intro hyes
      rw [scanStep_seekable hturn hoff, if_pos hyes] at h
      cases h
    | ret hturn =>
      cases EventTurn.of_eq hturn with
      | recordTell hm _ _ hlarge =>
        have := metaEnd_le hm.type
        omega
      | deltaTime | noStatus | sysExLength | metaLength => exact absurd he (by decide)

end

/-! ## Positions on the way -/

section

variable {past : Nat → Bool} {F : List UInt8} {s t : ScanState}

/-- A later state is behind all that an earlier one looks at. -/
private theorem readTo_of_reaches (h : Loop.Reaches (scanStep past F) s t) :
    s = t ∨ (s.readTo F).pos ≤ t.scan.fp.pos := by
  rcases h.cases_head with hsame | ⟨u, hu, hrest⟩
  · exact Or.inl hsame
  · exact Or.inr ((scanStep_readTo hu).trans (pos_of_reaches hrest))

/-- A later state is behind all that an earlier one seeks over. -/
private theorem seek_of_reaches (h : Loop.Reaches (scanStep past F) s t) {n : Nat}
    (hn : s.SeeksTo F n) : s = t ∨ n ≤ t.scan.fp.pos := by
  rcases h.cases_head with hsame | ⟨u, hu, hrest⟩
  · exact Or.inl hsame
  · right
    have hle := pos_of_reaches hrest
    rw [(hn.of_inl hu).2] at hle
    exact hle

/-- The end-of-file indicator is set at the end of the file only. -/
private theorem eof_step (hs : s.scan.fp.eof = true → F.length ≤ s.scan.fp.pos)
    (h : scanStep past F s = .inl t) : t.scan.fp.eof = true → F.length ≤ t.scan.fp.pos := by
  intro heof
  by_cases hseek : ∃ n, s.SeeksTo F n
  · obtain ⟨n, hn⟩ := hseek
    rw [(hn.of_inl h).2] at heof
    cases heof
  · rw [scanStep_noSeek (not_exists.mp hseek) h] at heof ⊢
    rcases (s.readTo_to F).ran heof with hbefore | hend
    · exact (hs hbefore).trans (s.readTo_to F).pos
    · exact hend

theorem ScanReaches.readTo_eof {events : Events} (h : ScanReaches past F events s)
    (heof : (s.readTo F).eof = true) : F.length ≤ (s.readTo F).pos := by
  have hs : s.scan.fp.eof = true → F.length ≤ s.scan.fp.pos :=
    h.reaches.invariant (I := fun u => u.scan.fp.eof = true → F.length ≤ u.scan.fp.pos) nofun
      fun _ _ => eof_step
  rcases (s.readTo_to F).ran heof with hbefore | hend
  · exact (hs hbefore).trans (s.readTo_to F).pos
  · exact hend

/-- A byte that is looked at is read. -/
theorem ScanReaches.looks_lt {events : Events} (h : ScanReaches past F events s) {p : Nat}
    (hp : p < F.length) (hlook : s.Looks F p) : p < (s.readTo F).pos := by
  rcases hlook.2 with hlt | ⟨heq, heof⟩
  · exact hlt
  · have := h.readTo_eof heof
    omega

end

/-! ## What is skipped -/

/-- The positions that the scan passes without looking. -/
inductive ScanSkips (past : Nat → Bool) (F : List UInt8) (events : Events) (p : Nat) : Prop
  | header : 4 ≤ p → p < 14 → ScanSkips past F events p
  | step {s : ScanState} {n : Nat} : ScanReaches past F events s → s.SeeksTo F n →
      (s.readTo F).pos ≤ p → p < n → ScanSkips past F events p
  | behind : (findMetaEvents past F .start events).fp.pos ≤ p → ScanSkips past F events p

section

variable {past : Nat → Bool} {F G : List UInt8} {events : Events} {p : Nat}

private theorem header_looked (hp : p < F.length)
    (h : Stream.start.Looked (fread F SIG_SIZE .start).2 p) :
    p < 4 ∧ p < (fread F SIG_SIZE .start).2.pos := by
  rcases Nat.lt_or_ge F.length 4 with hshort | hfull
  · rw [fread_short (by simpa [Stream.start] using hshort)] at h ⊢
    simp only [Stream.start, Nat.zero_add, Nat.sub_zero]
    omega
  · rw [fread_full (by simpa [Stream.start] using hfull)] at h ⊢
    rcases h.2 with hlt | ⟨-, heof⟩
    · simpa [Stream.start] using hlt
    · cases heof

private theorem findMetaEvents_pos (past : Nat → Bool) (F : List UInt8) (events : Events) :
    (fread F SIG_SIZE .start).2.pos ≤ (findMetaEvents past F .start events).fp.pos := by
  simp only [findMetaEvents]
  split
  · exact le_rfl
  split
  · exact le_rfl
  split
  · exact le_rfl
  · rename_i fp hseek
    have hfp := fseek_cur (n := 10) hseek
    obtain ⟨t, hreach, hexit⟩ := scanLoops_yields past F (scanStart events fp)
    have hstart : fp.pos ≤ t.scan.fp.pos := pos_of_reaches hreach
    have hend := scanStep_exit_pos_le (e := _) (t := _) hexit
    rw [hfp] at hstart
    exact (Nat.le_add_right _ 10).trans (hstart.trans hend)

/-- The scan looks at nothing that it skips. -/
theorem ScanSkips.not_looks (h : ScanSkips past F events p) (hp : p < F.length) :
    ¬ ScanLooks past F events p := by
  intro hlook
  cases hlook with
  | header hlook =>
    obtain ⟨hfour, hread⟩ := header_looked hp hlook
    cases h with
    | header => omega
    | @step s _ hs _ hstop =>
      have hstart : 14 ≤ s.scan.fp.pos := pos_of_reaches hs.reaches
      have := (s.readTo_to F).pos
      omega
    | behind hend =>
      have := findMetaEvents_pos past F events
      omega
  | @step t ht hlook =>
    have hread := ht.looks_lt hp hlook
    have hstart : 14 ≤ t.scan.fp.pos := pos_of_reaches ht.reaches
    have hpos := hlook.1
    cases h with
    | header => omega
    | @step s n hs hseek hstop hn =>
      rcases hs.reaches.total ht.reaches with hst | hts
      · rcases seek_of_reaches hst hseek with rfl | hle
        · omega
        · omega
      · have := (s.readTo_to F).pos
        rcases readTo_of_reaches hts with rfl | hle
        · omega
        · omega
    | behind hend =>
      rw [findMetaEvents_header ht.header] at hend
      have hy := scanLoops_yields past F (scanStart events ⟨14, false⟩)
      obtain ⟨u, hu, hexit⟩ := hy.after_reaches ht.reaches
      have hfp : (scanLoops past F (scanStart events ⟨14, false⟩)).2.fp = u.readTo F :=
        scanStep_exit_fp (e := _) (u := _) hexit
      simp only [hfp] at hend
      have := (u.readTo_to F).pos
      rcases readTo_of_reaches hu with rfl | hle
      · omega
      · omega

/-- A record found was stored by a turn on the way. -/
private theorem recorded_reached {s₀ : ScanState} {r : Exit × Scan}
    (hy : Loop.Yields (scanStep past F) s₀ r) (hnew : ∀ i, s₀.scan.baFound i = false)
    {i : Fin META_MAX} (hi : r.2.baFound i = true) :
    ∃ s q, Loop.Reaches (scanStep past F) s₀ (.event s) ∧ Records F s i q ∧
      r.2.events i = s.recordOf F q := by
  refine yields_records (Q := fun events baFound => baFound i = true →
    ∃ s q, Loop.Reaches (scanStep past F) s₀ (.event s) ∧ Records F s i q ∧
      events i = s.recordOf F q) hy ?_ ?_ hi
  · intro hi
    rw [hnew i] at hi
    cases hi
  · intro s hs hbefore hfound
    by_cases hold : s.baFound i = true
    · obtain ⟨t, q, ht, hrec, hev⟩ := hbefore hold
      exact ⟨t, q, ht, hrec, ((eventTurn_spec F s).kept ⟨hold, hev⟩).2⟩
    · rw [Bool.not_eq_true] at hold
      cases hturn : eventTurn F s with
      | brk u =>
        rw [hturn] at hfound
        simp only [Turn.scan, (EventTurn.of_eq hturn).brk_same.baFound, hold] at hfound
        cases hfound
      | ret e u =>
        rw [hturn] at hfound
        simp only [Turn.scan, (EventTurn.of_eq hturn).ret_same.baFound, hold] at hfound
        cases hfound
      | seek off u =>
        rw [hturn] at hfound
        rcases (EventTurn.of_eq hturn).seek_records with hsame | ⟨j, q, hrec, -, rfl⟩
        · simp only [Turn.scan, hsame.baFound, hold] at hfound
          cases hfound
        · have hij : i = j := by
            by_contra hij
            simp only [Turn.scan, Scan.store_baFound_ne hij] at hfound
            exact absurd (hfound.symm.trans hold) (by decide)
          subst hij
          exact ⟨s, q, hs, hrec, Scan.store_events_self ..⟩

/-- An offset in an accepted file is that of a record found. -/
private theorem recorded_of_offset (h : (findMetaEvents past F .start events).ret = 0)
    {i : Fin META_MAX} {o : Nat}
    (ho : ((findMetaEvents past F .start events).events i).offset = o) :
    (scanLoops past F (scanStart events ⟨14, false⟩)).2.baFound i = true := by
  rw [← Bool.not_eq_false]
  intro hfound
  obtain ⟨-, heq⟩ := findMetaEvents_accepted h
  rw [heq] at h ho
  obtain ⟨t, hreach, hexit⟩ := scanLoops_yields past F (scanStart events ⟨14, false⟩)
  have ht := hreach.invariant (sound_start F events) fun _ _ => sound_step
  have habsent := (sound_exit ht hexit h).absent i hfound
  have hnone : (-1 : Int) = o := (congrArg MetaEvent.offset habsent).symm.trans ho
  omega

/-- The data of a recorded event is skipped. -/
theorem record_skipped (h : (findMetaEvents past F .start events).ret = 0)
    {i : Fin META_MAX} {o : Nat}
    (ho : ((findMetaEvents past F .start events).events i).offset = o) (hop : o ≤ p)
    (hp : p < o + ((findMetaEvents past F .start events).events i).length.toNat) :
    ScanSkips past F events p := by
  obtain ⟨hhead, heq⟩ := findMetaEvents_accepted h
  obtain ⟨s, q, hs, hrec, hev⟩ :=
    recorded_reached (scanLoops_yields past F (scanStart events ⟨14, false⟩)) (fun _ => rfl)
      (recorded_of_offset h ho)
  rw [heq] at ho hp
  simp only [hev, Scan.recordOf] at ho hp
  have hturn := hrec.turn
  refine .step ⟨hhead, hs⟩ (.event hturn hrec.length_le) ?_ ?_
  · simp only [ScanState.readTo, hturn, Turn.scan]
    exact le_trans (Int.ofNat_le.mp ho.le) hop
  · have hend : (((s.behindMeta F q).store i (s.recordOf F q)).fp.pos : Int) = o := ho
    omega

theorem findMetaEvents_skips (hlen : G.length = F.length)
    (h : ∀ p, G[p]? ≠ F[p]? → ScanSkips past F events p) :
    findMetaEvents past G .start events = findMetaEvents past F .start events := by
  apply findMetaEvents_congr
  · intro p hlook
    rcases Nat.lt_or_ge p F.length with hp | hend
    · by_contra hne
      exact (h p hne).not_looks hp hlook
    · rw [List.getElem?_eq_none hend, List.getElem?_eq_none (by omega)]
  · intro n _
    rw [Seekable, Seekable, hlen]

/-- The scan is blind to what it skips: files of one length that differ in skipped bytes only are
scanned alike, and skipped are, with the data of all other events, those of the recorded ones. -/
theorem findMetaEvents_ignores (past : Nat → Bool) {F G : List UInt8} (events : Events)
    (hlen : G.length = F.length) (h : ∀ p, G[p]? ≠ F[p]? → ScanSkips past F events p) :
    findMetaEvents past G .start events = findMetaEvents past F .start events ∧
      ((findMetaEvents past F .start events).ret = 0 → ∀ (i : Fin META_MAX) (o : Nat),
        ((findMetaEvents past F .start events).events i).offset = o → ∀ p, o ≤ p →
          p < o + ((findMetaEvents past F .start events).events i).length.toNat →
            ScanSkips past F events p) := by
  refine ⟨findMetaEvents_skips hlen h, ?_⟩
  intro hret i o ho p hop hp
  exact record_skipped hret ho hop hp

/-- A track with a text of three bytes and End-of-Track. -/
def abcFile : List UInt8 := [0x4d, 0x54, 0x68, 0x64, 0, 0, 0, 6, 0, 0, 0, 1, 0, 96,
  0x4d, 0x54, 0x72, 0x6b, 0, 0, 0, 11, 0, 0xff, 1, 3, 0x61, 0x62, 0x63, 0, 0xff, 0x2f, 0]

/-- The file with another text. -/
def xyzFile : List UInt8 := abcFile.take 26 ++ [0x78, 0x79, 0x7a] ++ abcFile.drop 29

theorem findMetaEvents_ignores_abcFile :
    findMetaEvents (fun _ => true) xyzFile .start zeroedEvents =
      findMetaEvents (fun _ => true) abcFile .start zeroedEvents := by
  have hret : (findMetaEvents (fun _ => true) abcFile .start zeroedEvents).ret = 0 := by
    decide +kernel
  have hrec : (findMetaEvents (fun _ => true) abcFile .start zeroedEvents).events META_COMMENT =
      ⟨18, 26, 3⟩ := by
    decide +kernel
  refine (findMetaEvents_ignores (fun _ => true) zeroedEvents (by decide) fun p hp => ?_).1
  have hrange : ∀ p, p < 33 → xyzFile[p]? ≠ abcFile[p]? → 26 ≤ p ∧ p < 29 := by decide
  have hlt : p < 33 := by
    by_contra hge
    apply hp
    rw [List.getElem?_eq_none (Nat.not_lt.mp hge), List.getElem?_eq_none (Nat.not_lt.mp hge)]
  obtain ⟨hlo, hhi⟩ := hrange p hlt hp
  apply record_skipped (i := META_COMMENT) (o := 26) hret (by rw [hrec]; rfl) hlo
  rw [hrec]
  exact hhi

end

/-! ## What follows the file -/

section

variable {past : Nat → Bool} {F : List UInt8} {events : Events}

/-- Behind the end of the file every way out sets the end-of-file indicator. -/
private theorem atEnd_exit {s : ScanState} {r : Exit × Scan} (hs : F.length ≤ s.scan.fp.pos)
    (hy : Loop.Yields (scanStep past F) s r) : r.2.fp.eof = true := by
  refine hy.invariant (I := fun u => F.length ≤ u.scan.fp.pos) (Q := fun r => r.2.fp.eof = true) hs
    (fun _ _ hu hstep => hu.trans (scanStep_pos_le hstep)) ?_
  rintro u ⟨e, v⟩ hu hexit
  simp only [scanStep_exit_fp hexit]
  cases u with
  | track u =>
    have hbehind : F.length ≤ u.fp.pos := hu
    have hshort : F.length < u.fp.pos + SIG_SIZE := by
      rw [SIG_SIZE]
      omega
    simp only [ScanState.readTo, fread_short hshort]
    rw [decide_eq_true (by decide), Bool.or_true]
  | event u =>
    have hend : F.length ≤ u.fp.pos := hu
    have hdrop : F.drop u.fp.pos = [] := List.drop_eq_nil_of_le hend
    have hturn := eventTurn_end (s := u) (F := F) (by rw [hdrop]; decide) (by omega)
    simp only [ScanState.readTo, hturn]
    rfl

/-- A scan that did not run into the end of the file looked inside it only. -/
private theorem looks_inside (hhead : HeaderOk past F)
    (heof : (scanLoops past F (scanStart events ⟨14, false⟩)).2.fp.eof = false) {p : Nat}
    (hlook : ScanLooks past F events p) : p < F.length := by
  cases hlook with
  | header hlook =>
    have hfull : Stream.start.pos + SIG_SIZE ≤ F.length := by
      simpa [Stream.start] using hhead.length
    rw [fread_full hfull] at hlook
    rcases hlook.2 with hlt | ⟨-, hno⟩
    · exact Nat.lt_of_lt_of_le hlt hfull
    · cases hno
  | @step s hs hlook =>
    by_contra hge
    have hy := (scanLoops_yields past F (scanStart events ⟨14, false⟩)).after_reaches hs.reaches
    have hto := s.readTo_to F
    have hend : F.length ≤ (s.readTo F).pos := by
      rcases hlook.2 with hlt | ⟨heq, -⟩
      · omega
      · omega
    have hran : (s.readTo F).eof = true ∨ F.length ≤ s.scan.fp.pos := by
      rcases hlook.2 with hlt | ⟨-, heof⟩
      · have := hlook.1
        have := hto.inside
        omega
      · exact Or.inl heof
    have hfinal : (scanLoops past F (scanStart events ⟨14, false⟩)).2.fp.eof = true := by
      rcases hran with hran | hbehind
      · cases hstep : scanStep past F s with
        | inl t => exact atEnd_exit (hend.trans (scanStep_readTo hstep)) (hy.after_next hstep)
        | inr r =>
          obtain ⟨e, u⟩ := r
          rw [hy.unique (Loop.Yields.exit hstep)]
          simp only [scanStep_exit_fp hstep, hran]
      · exact atEnd_exit hbehind hy
    rw [heof] at hfinal
    cases hfinal

/-- A scan that returns anything but -2 was refused no seek. -/
private theorem seeks_granted (h : (findMetaEvents past F .start events).ret ≠ -2) {n : Nat}
    (hn : ScanSeeks past F events n) : Seekable past F n := by
  by_contra hno
  cases hn with
  | header hsig =>
    apply h
    have hfull : Stream.start.pos + SIG_SIZE ≤ F.length := by
      have hlen := congrArg List.length hsig
      have hfour : MThd.length = 4 := rfl
      rw [hfour, List.length_take] at hlen
      simp only [Stream.start, SIG_SIZE]
      omega
    have hread : fread F SIG_SIZE .start = (MThd, ⟨4, false⟩) := by
      rw [← hsig]
      exact fread_full hfull
    have hten := fseek_cur_eq past F 10 ⟨4, false⟩
    simp only [Nat.cast_ofNat] at hten
    rw [if_neg hno] at hten
    have hfour : MThd.length = SIG_SIZE := rfl
    simp only [findMetaEvents, hread, hfour, hten]
    rfl
  | step hs hseek =>
    apply h
    obtain ⟨r, hr, hcode⟩ := hseek.refused hno
    have hy := (scanLoops_yields past F (scanStart events ⟨14, false⟩)).after_reaches hs.reaches
    rw [findMetaEvents_header hs.header, hy.unique (Loop.Yields.exit hr)]
    exact hcode

theorem findMetaEvents_append (hret : (findMetaEvents past F .start events).ret = 0)
    (heof : (findMetaEvents past F .start events).fp.eof = false) (junk : List UInt8) :
    findMetaEvents past (F ++ junk) .start events = findMetaEvents past F .start events := by
  obtain ⟨hhead, heq⟩ := findMetaEvents_accepted hret
  have hloops : (scanLoops past F (scanStart events ⟨14, false⟩)).2.fp.eof = false := by
    rw [heq] at heof
    exact heof
  apply findMetaEvents_congr
  · intro p hlook
    exact List.getElem?_append_left (looks_inside hhead hloops hlook)
  · intro n hn
    have hgrant := seeks_granted (by rw [hret]; decide) hn
    refine iff_of_true ?_ hgrant
    refine hgrant.imp_left fun hle => ?_
    rw [List.length_append]
    omega

/-- Such a scan has found the data of its events inside the file. -/
theorem record_inside (hret : (findMetaEvents past F .start events).ret = 0)
    (heof : (findMetaEvents past F .start events).fp.eof = false) {i : Fin META_MAX} {o : Nat}
    (ho : ((findMetaEvents past F .start events).events i).offset = o) :
    o + ((findMetaEvents past F .start events).events i).length.toNat ≤ F.length := by
  obtain ⟨hhead, heq⟩ := findMetaEvents_accepted hret
  have hy := scanLoops_yields past F (scanStart events ⟨14, false⟩)
  obtain ⟨s, q, hs, hrec, hev⟩ := recorded_reached hy (fun _ => rfl)
    (recorded_of_offset hret ho)
  rw [heq] at ho heof ⊢
  have hturn := hrec.turn
  have hseek : ScanState.SeeksTo F (.event s) _ := .event hturn hrec.length_le
  have hgrant := seeks_granted (by rw [hret]; decide) (.step ⟨hhead, hs⟩ hseek)
  obtain ⟨t, ht, hfp⟩ := hseek.granted hgrant
  by_contra hout
  have hend : F.length ≤ (ScanState.event t).scan.fp.pos := by
    simp only [ScanState.scan, hfp]
    simp only [hev, Scan.recordOf] at ho hout
    have hpos : (((s.behindMeta F q).store i (s.recordOf F q)).fp.pos : Int) = o := ho
    omega
  have hfinal := atEnd_exit hend ((hy.after_reaches hs).after_next ht)
  exact Bool.false_ne_true (heof.symm.trans hfinal)

end

/-! ## Refused seeks -/

section

variable {past : Nat → Bool} {F : List UInt8} {events : Events}

private theorem scanStep_lenient {s : ScanState} (h : ∀ n, s.SeeksTo F n → Seekable past F n) :
    scanStep (fun _ => true) F s = scanStep past F s :=
  scanStep_congr (fun _ _ => rfl) fun n hn => iff_of_true (Or.inr rfl) (h n hn)

/-- Up to a refused seek the host makes no difference. -/
private theorem ScanReaches.lenient {s : ScanState} (h : ScanReaches past F events s) :
    ScanReaches (fun _ => true) F events s := by
  refine ⟨⟨h.header.signature, Or.inr rfl⟩, ?_⟩
  refine h.reaches.invariant (I := fun t =>
    Loop.Reaches (scanStep (fun _ => true) F) (scanStart events ⟨14, false⟩) t) (.refl _) ?_
  intro u v hu hstep
  apply hu.trans
  apply Loop.Reaches.next
  rw [scanStep_lenient, hstep]
  intro n hn
  exact (hn.of_inl hstep).1

private theorem ScanReaches.of_lenient {s : ScanState}
    (hgrant : ∀ n, ScanSeeks past F events n → Seekable past F n)
    (h : ScanReaches (fun _ => true) F events s) : ScanReaches past F events s := by
  have hhead : HeaderOk past F :=
    ⟨h.header.signature, hgrant 14 (.header h.header.signature)⟩
  refine ⟨hhead, ?_⟩
  refine h.reaches.invariant (I := fun t =>
    Loop.Reaches (scanStep past F) (scanStart events ⟨14, false⟩) t) (.refl _) ?_
  intro u v hu hstep
  apply hu.trans
  apply Loop.Reaches.next
  rw [← hstep, scanStep_lenient]
  intro n hn
  exact hgrant n (.step ⟨hhead, hu⟩ hn)

/-- Below 2 GiB, a scan that returns -2 was refused a seek. -/
theorem seek_refused (hsize : F.length ≤ LONG_MAX)
    (h : (findMetaEvents past F .start events).ret = -2) :
    ∃ n, ScanSeeks past F events n ∧ ¬ Seekable past F n := by
  by_cases hhead : HeaderOk past F
  · obtain ⟨t, hreach, hexit⟩ := scanLoops_yields past F (scanStart events ⟨14, false⟩)
    rw [findMetaEvents_header hhead] at h
    obtain ⟨n, hn, hno⟩ := scanStep_refused hsize hexit h
    exact ⟨n, .step ⟨hhead, hreach⟩ hn, hno⟩
  · by_cases hsig : F.take 4 = MThd
    · exact ⟨14, .header hsig, fun hyes => hhead ⟨hsig, hyes⟩⟩
    · have hne : (fread F SIG_SIZE .start).1 ≠ MThd := hsig
      exfalso
      simp only [findMetaEvents, hne, ne_eq, not_false_eq_true, if_true] at h
      split at h
      · exact absurd h (show Exit.headerShort.code ≠ -2 by decide)
      · exact absurd h (show Exit.headerSignature.code ≠ -2 by decide)

/-- A seek that the scan makes on a host that refuses none, and that this host refuses. -/
def ScanRefused (past : Nat → Bool) (F : List UInt8) (events : Events) : Prop :=
  ∃ n, ScanSeeks (fun _ => true) F events n ∧ F.length < n ∧ past n = false

private theorem not_seekable {n : Nat} : ¬ Seekable past F n ↔ F.length < n ∧ past n = false := by
  rw [Seekable, not_or, Bool.not_eq_true, Nat.not_le]

theorem ScanRefused.ret (h : ScanRefused past F events) :
    (findMetaEvents past F .start events).ret = -2 := by
  obtain ⟨n, hn, hno⟩ := h
  by_contra hret
  have hgrant : ∀ m, ScanSeeks past F events m → Seekable past F m :=
    fun _ => seeks_granted hret
  apply not_seekable.mpr hno
  apply hgrant
  cases hn with
  | header hsig => exact .header hsig
  | step hs hseek => exact .step (hs.of_lenient hgrant) hseek

theorem findMetaEvents_lenient (h : ¬ ScanRefused past F events) :
    findMetaEvents past F .start events = findMetaEvents (fun _ => true) F .start events := by
  apply findMetaEvents_congr (fun _ _ => rfl)
  intro n hn
  refine iff_of_true ?_ (Or.inr rfl)
  by_contra hno
  exact h ⟨n, hn, not_seekable.mp hno⟩

/-- A host that refuses seeks behind the end of the file either makes no difference to the scan or
makes it return -2, and it does the latter exactly when it refuses a seek that the scan makes. -/
theorem findMetaEvents_refused (past : Nat → Bool) {F : List UInt8} (hsize : F.length < 2 ^ 31)
    (events : Events) :
    ((findMetaEvents past F .start events).ret = -2 ↔
      ∃ n, ScanSeeks (fun _ => true) F events n ∧ F.length < n ∧ past n = false) ∧
    ((findMetaEvents past F .start events).ret ≠ -2 →
      findMetaEvents past F .start events =
        findMetaEvents (fun _ => true) F .start events) := by
  have hlarge : F.length ≤ LONG_MAX := by
    rw [LONG_MAX]
    omega
  refine ⟨⟨fun hret => ?_, ScanRefused.ret⟩, fun hret => ?_⟩
  · obtain ⟨n, hn, hno⟩ := seek_refused hlarge hret
    refine ⟨n, ?_, not_seekable.mp hno⟩
    cases hn with
    | header hsig => exact .header hsig
    | step hs hseek => exact .step hs.lenient hseek
  · apply findMetaEvents_lenient
    intro hrefused
    exact hret hrefused.ret

/-- No seek of the scan leads behind the end of the file. -/
theorem findMetaEvents_refused_abcFile :
    findMetaEvents (fun _ => false) abcFile .start zeroedEvents =
      findMetaEvents (fun _ => true) abcFile .start zeroedEvents :=
  (findMetaEvents_refused (fun _ => false) (by decide) zeroedEvents).2 (by decide +kernel)

end

end StepMid
