import StepMid.Smf.Progress
import StepMid.Smf.Records

/-!
# Reading on

The events that a reader comes to who goes on from event to event and from an End-of-Track event
to the chunk behind it, whatever the length fields say. The scan goes this way until it returns,
so what it records are the first events of their kinds on the way.
-/

namespace StepMid

/-- An event other than End-of-Track takes up the file from `p` to `p'` under the running status
`rs`, and leaves `rs'`. -/
inductive EventAt (F : List UInt8) (rs : CInt) (p : Nat) : CInt → Nat → Prop
  | running {q : Nat} {b : UInt8} {n : ULong} : StatusAt F p q b → b.toNat < 128 →
      getNumMessageBytes rs = some n → EventAt F rs p rs (q + 1 + (n - 1).toNat)
  | channel {q : Nat} {b : UInt8} : StatusAt F p q b → 128 ≤ b.toNat → b.toNat < 240 →
      EventAt F rs p (ofByte b)
        (q + 1 + (if 192 ≤ b.toNat ∧ b.toNat < 224 then 1 else 2 : ULong).toNat)
  | sysEx {q : Nat} {b : UInt8} : StatusAt F p q b → 240 ≤ b.toNat → b.toNat ≠ 255 →
      ¬ vlvRejected (F.drop (q + 1)) →
      EventAt F rs p rs (q + 1 + vlvSize (F.drop (q + 1)) + (vlvVal (F.drop (q + 1))).toNat)
  | metaEvent {q : Nat} {ty : UInt8} : MetaAt F p q ty → ty ≠ 0x2f →
      EventAt F rs p rs (metaEnd F q + (metaLen F q).toNat)

/-- The reader comes to an event at `p`, with the running status `rs`, in the track that is number
`track` on the way and has its length field at `trkLenOffset`. -/
inductive ReadsTo (F : List UInt8) : Nat → Nat → CInt → Nat → Prop
  | first : (F.drop 14).take 4 = MTrk → ReadsTo F 0 18 (-1) 22
  | event {track trkLenOffset p p' : Nat} {rs rs' : CInt} : ReadsTo F track trkLenOffset rs p →
      EventAt F rs p rs' p' → ReadsTo F track trkLenOffset rs' p'
  | chunk {track trkLenOffset p q : Nat} {rs : CInt} : ReadsTo F track trkLenOffset rs p →
      MetaAt F p q 0x2f → (F.drop (metaEnd F q)).take 4 = MTrk →
      ReadsTo F (track + 1) (metaEnd F q + 4) (-1) (metaEnd F q + 8)

/-- On the way there is a meta event for record `i`, with its `FF` byte at `q`. -/
def Meets (F : List UInt8) (i : Fin META_MAX) (trkLenOffset q : Nat) : Prop :=
  ∃ track rs p ty, ReadsTo F track trkLenOffset rs p ∧ MetaAt F p q ty ∧
    metaIndex ty track = some i

theorem EventAt.lt {F : List UInt8} {rs rs' : CInt} {p p' : Nat} (h : EventAt F rs p rs' p') :
    p < p' := by
  cases h with
  | running hst | channel hst | sysEx hst =>
    have := hst.lt
    omega
  | metaEvent hm =>
    have := hm.lt
    rw [metaEnd]
    omega

/-- The turn of the event loop at an event, unless the position behind its length is too large. -/
theorem EventAt.seek_or_tell {F : List UInt8} {s : Scan} {rs : CInt} {p : Nat}
    (h : EventAt F s.runningStatus s.fp.pos rs p) :
    (∃ off u, eventTurn F s = .seek off u ∧ u.runningStatus = rs ∧ u.fp.pos + off.toNat = p ∧
      u.trkLenOffset = s.trkLenOffset ∧ u.curTrack = s.curTrack) ∨
      ∃ u, eventTurn F s = .ret .recordTell u := by
  cases h with
  | running hst hdata hn =>
    have hturn := eventTurn_status hst
    rw [statusTurn_data hdata] at hturn
    simp only [Scan.moveTo_runningStatus, hn] at hturn
    exact Or.inl ⟨_, _, hturn, rfl, rfl, rfl, rfl⟩
  | channel hst hlo hhi =>
    have hturn := eventTurn_status hst
    rw [statusTurn_channel hlo hhi] at hturn
    exact Or.inl ⟨_, _, hturn, rfl, rfl, rfl, rfl⟩
  | sysEx hst hlo hhi hlen =>
    have hturn := eventTurn_status hst
    rw [statusTurn_sysEx hlo hhi, sysExTurn_eq] at hturn
    simp only [Scan.moveTo_fp, hlen, if_false] at hturn
    exact Or.inl ⟨_, _, hturn, rfl, rfl, rfl, rfl⟩
  | @metaEvent q ty hm hty =>
    have hturn := eventTurn_meta hm
    rw [if_neg hty] at hturn
    cases hindex : metaIndex ty s.curTrack with
    | none =>
      rw [hindex] at hturn
      exact Or.inl ⟨_, _, hturn, rfl, rfl, rfl, rfl⟩
    | some i =>
      rw [hindex] at hturn
      simp only at hturn
      cases hfound : s.baFound i with
      | true =>
        rw [recordTurn_found (s := s.behindMeta F q) hfound] at hturn
        exact Or.inl ⟨_, _, hturn, rfl, rfl, rfl, rfl⟩
      | false =>
        rcases Nat.lt_or_ge LONG_MAX (metaEnd F q) with hlarge | hsmall
        · rw [recordTurn_tell (s := s.behindMeta F q) hfound hlarge] at hturn
          exact Or.inr ⟨_, hturn⟩
        · rw [recordTurn_store (s := s.behindMeta F q) hfound hsmall] at hturn
          exact Or.inl ⟨_, _, hturn, rfl, rfl, rfl, rfl⟩

/-- The turn of the event loop at an event, unless it ends the scan. -/
theorem EventAt.turn {F : List UInt8} {s : Scan} {rs : CInt} {p : Nat}
    (h : EventAt F s.runningStatus s.fp.pos rs p) :
    (∃ off u, eventTurn F s = .seek off u ∧ u.runningStatus = rs ∧ u.fp.pos + off.toNat = p ∧
      u.trkLenOffset = s.trkLenOffset ∧ u.curTrack = s.curTrack) ∨
      ∃ e u, eventTurn F s = .ret e u :=
  h.seek_or_tell.imp_right fun htell => ⟨.recordTell, htell⟩

/-- A turn that reaches the final seek passes an event, or the file ends there. -/
theorem EventTurn.eventAt {F : List UInt8} {s u : Scan} {off : ULong}
    (h : EventTurn F s (.seek off u)) :
    EventAt F s.runningStatus s.fp.pos u.runningStatus (u.fp.pos + off.toNat) ∨
      F.length ≤ u.fp.pos := by
  cases h with
  | running hst hdata hn => exact Or.inl (.running hst hdata hn)
  | channel hst hlo hhi => exact Or.inl (.channel hst hlo hhi)
  | sysEx hst hlo hhi hlen => exact Or.inl (.sysEx hst hlo hhi hlen)
  | noType _ hend => exact Or.inr hend
  | unused hm hty => exact Or.inl (.metaEvent hm hty)
  | again hm hindex => exact Or.inl (.metaEvent hm (ne_eot_of_metaIndex hindex))
  | record hm hindex => exact Or.inl (.metaEvent hm (ne_eot_of_metaIndex hindex))

theorem EventTurn.seek_track {F : List UInt8} {s u : Scan} {off : ULong}
    (h : EventTurn F s (.seek off u)) :
    u.curTrack = s.curTrack ∧ u.trkLenOffset = s.trkLenOffset := by
  cases h <;> exact ⟨rfl, rfl⟩

/-! ## The scan is on the way -/

/-- The scan is where the reader comes by, or at the end of the file. -/
def ScanState.OnWay (F : List UInt8) : ScanState → Prop
  | .track s => (s.curTrack = 0 ∧ s.fp.pos = 14) ∨
      (∃ track trkLenOffset rs p q, s.curTrack = track + 1 ∧ ReadsTo F track trkLenOffset rs p ∧
        MetaAt F p q 0x2f ∧ s.fp.pos = metaEnd F q) ∨ F.length ≤ s.fp.pos
  | .event s => (∃ trkLenOffset : Nat, s.trkLenOffset = trkLenOffset ∧
      ReadsTo F s.curTrack trkLenOffset s.runningStatus s.fp.pos) ∨ F.length ≤ s.fp.pos

theorem onWay_step {past : Nat → Bool} {F : List UInt8} {s t : ScanState} (hs : s.OnWay F)
    (h : scanStep past F s = .inl t) : t.OnWay F := by
  cases s with
  | track s =>
    obtain ⟨hsig, -, -, rfl⟩ := scanStep_track_inl h
    left
    rcases hs with ⟨hzero, hpos⟩ | ⟨track, trkLenOffset, rs, p, q, hsucc, hread, hm, hpos⟩ | hend
    · rw [hpos] at hsig
      refine ⟨18, ?_, ?_⟩
      · simp only [Scan.enterTrack, hpos]
      · simp only [Scan.enterTrack, hpos, hzero]
        exact .first hsig
    · rw [hpos] at hsig
      refine ⟨metaEnd F q + 4, ?_, ?_⟩
      · simp only [Scan.enterTrack, hpos]
      · simp only [Scan.enterTrack, hpos, hsucc]
        exact .chunk hread hm hsig
    · have := take_four_length hsig
      omega
  | event s =>
    cases t with
    | track t =>
      obtain ⟨u, hturn, rfl, -⟩ := scanStep_event_track h
      have hsame := hturn.brk_same
      cases hturn with
      | fileEnd _ hend => exact Or.inr (Or.inr hend)
      | endOfTrack hm =>
        rcases hs with ⟨trkLenOffset, -, hread⟩ | hend
        · exact Or.inr (Or.inl ⟨_, _, _, _, _, rfl, hread, hm, rfl⟩)
        · have := hm.lt
          omega
    | event t =>
      obtain ⟨off, u, hturn, rfl⟩ := scanStep_event_event h
      obtain ⟨htrack, htrk⟩ := hturn.seek_track
      rcases hturn.eventAt with hev | hend
      · rcases hs with ⟨trkLenOffset, hoffset, hread⟩ | hend
        · refine Or.inl ⟨trkLenOffset, htrk.trans hoffset, ?_⟩
          simp only [Scan.moveTo_fp, Scan.moveTo_curTrack, Scan.moveTo_runningStatus, htrack]
          exact .event hread hev
        · have := hturn.seek_progress
          omega
      · right
        simp only [Scan.moveTo_fp]
        omega

/-- What the scan records it meets on the way. -/
theorem Records.meets {past : Nat → Bool} {F : List UInt8} {events : Events} {s : Scan}
    {i : Fin META_MAX} {q : Nat} (h : Records F s i q)
    (hreach : Loop.Reaches (scanStep past F) (scanStart events ⟨14, false⟩) (.event s)) :
    ∃ trkLenOffset : Nat, s.trkLenOffset = trkLenOffset ∧ Meets F i trkLenOffset q := by
  have hway : ScanState.OnWay F (.event s) :=
    hreach.invariant (Or.inl ⟨rfl, rfl⟩) fun _ _ => onWay_step
  obtain ⟨ty, hm, hindex⟩ := h.wanted
  rcases hway with ⟨trkLenOffset, htrk, hread⟩ | hend
  · exact ⟨trkLenOffset, htrk, _, _, _, ty, hread, hm, hindex⟩
  · have := hm.lt
    omega

/-! ## What is recorded stays -/

/-- The first event found for a record stays. -/
theorem EventTurn.kept {F : List UInt8} {s : Scan} {turn : Turn} {i : Fin META_MAX}
    {r : MetaEvent} (h : EventTurn F s turn) (hs : s.baFound i = true ∧ s.events i = r) :
    turn.scan.baFound i = true ∧ turn.scan.events i = r := by
  cases h with
  | @record q ty j hm hindex hmissing =>
    have hij : i ≠ j := by
      intro hij
      subst hij
      rw [hs.1] at hmissing
      cases hmissing
    constructor
    · exact (Scan.store_baFound_ne hij _).trans hs.1
    · exact (Scan.store_events_ne hij _).trans hs.2
  | _ => exact hs

/-- A turn leaves the array alone or stores the event it stands at. -/
theorem EventTurn.records {F : List UInt8} {s : Scan} {turn : Turn} (h : EventTurn F s turn) :
    turn.scan.events = s.events ∨
      ∃ i q, Records F s i q ∧
        turn.scan.events = Function.update s.events i (s.recordOf F q) := by
  cases h with
  | record hm hindex hfound hfits => exact Or.inr ⟨_, _, ⟨⟨_, hm, hindex⟩, hfound, hfits⟩, rfl⟩
  | _ => exact Or.inl rfl

/-- The turn that stores a record. -/
theorem Records.turn {F : List UInt8} {s : Scan} {i : Fin META_MAX} {q : Nat}
    (h : Records F s i q) :
    eventTurn F s = .seek (metaLen F q) ((s.behindMeta F q).store i (s.recordOf F q)) := by
  obtain ⟨ty, hm, hindex⟩ := h.wanted
  rw [eventTurn_meta hm, if_neg (ne_eot_of_metaIndex hindex), hindex]
  exact recordTurn_store (s := s.behindMeta F q) h.missing h.fits _

/-! ## The scan goes all the way -/

/-- The scan stands at an event that the reader comes to. -/
structure Scan.StandsAt (s : Scan) (track trkLenOffset : Nat) (rs : CInt) (p : Nat) : Prop where
  fp : s.fp = ⟨p, false⟩
  curTrack : s.curTrack = track
  trkLenOffset : s.trkLenOffset = trkLenOffset
  runningStatus : s.runningStatus = rs

section

variable {past : Nat → Bool} {F : List UInt8} {r : Exit × Scan}

/-- A scan that does not return -2 is not left through an exit that does. -/
private theorem no_error {s : ScanState} {e : Exit} {u : Scan}
    (hy : Loop.Yields (scanStep past F) s r) (hr : r.1.code ≠ -2)
    (hstep : scanStep past F s = .inr (e, u)) : e.code ≠ -2 := by
  rw [hy.unique (Loop.Yields.exit hstep)] at hr
  exact hr

private theorem enters {s : Scan} (hy : Loop.Yields (scanStep past F) (.track s) r)
    (hr : r.1.code ≠ -2) (heof : s.fp.eof = false) (hsig : (F.drop s.fp.pos).take 4 = MTrk) :
    scanStep past F (.track s) = .inl (.event (s.enterTrack s.fp.pos)) := by
  cases hstep : scanStep past F (.track s) with
  | inl t => rw [(scanStep_track_inl hstep).2.2.2]
  | inr q =>
    obtain ⟨e, u⟩ := q
    have hcode := no_error hy hr hstep
    have hinside := take_four_length hsig
    cases TrackTurn.of_step hstep with
    | short h =>
      rw [heof] at h
      rcases h with h | h
      · omega
      · cases h
    | junk _ h => exact absurd hsig h
    | tell | seek => exact absurd rfl hcode

private theorem passes {s : Scan} {rs : CInt} {p : Nat}
    (hy : Loop.Yields (scanStep past F) (.event s) r) (hr : r.1.code ≠ -2)
    (h : EventAt F s.runningStatus s.fp.pos rs p) :
    ∃ t, scanStep past F (.event s) = .inl (.event t) ∧ t.fp = ⟨p, false⟩ ∧
      t.curTrack = s.curTrack ∧ t.trkLenOffset = s.trkLenOffset ∧ t.runningStatus = rs := by
  rcases h.seek_or_tell with ⟨off, u, hturn, hstatus, hpos, htrk, htrack⟩ | ⟨u, hturn⟩
  · cases hstep : scanStep past F (.event s) with
    | inl t =>
      cases EventStep.of_step hstep with
      | next hturn' =>
        rw [hturn] at hturn'
        cases hturn'
        refine ⟨_, rfl, ?_, htrack, htrk, hstatus⟩
        rw [Scan.moveTo_fp, hpos]
      | leave hturn' =>
        rw [hturn] at hturn'
        cases hturn'
    | inr q =>
      obtain ⟨e, v⟩ := q
      have hcode := no_error hy hr hstep
      cases EventStep.of_step hstep with
      | seek => exact absurd rfl hcode
      | foundAll hturn' | ret hturn' =>
        rw [hturn] at hturn'
        cases hturn'
  · have hstep : scanStep past F (.event s) = .inr (.recordTell, u) := by
      simp only [scanStep, hturn]
    exact absurd rfl (no_error hy hr hstep)

/-- The scan stands there, or it has found the text and the copyright notice in an earlier track. -/
def Follows (past : Nat → Bool) (F : List UInt8) (events : Events) (r : Exit × Scan)
    (track trkLenOffset : Nat) (rs : CInt) (p : Nat) : Prop :=
  (∃ s, Loop.Reaches (scanStep past F) (scanStart events ⟨14, false⟩) (.event s) ∧
    s.StandsAt track trkLenOffset rs p) ∨
  (0 < track ∧ r.1 = .foundAll ∧ r.2.fp.pos ≤ p ∧ r.2.baFound META_COMMENT = true ∧
    r.2.baFound META_COPYRIGHT = true)

/-- In front of a chunk the length field of an End-of-Track event is not cut. -/
private theorem eof_behindMeta {s : Scan} {q : Nat} (heof : s.fp.eof = false)
    (hsig : (F.drop (metaEnd F q)).take 4 = MTrk) : (s.behindMeta F q).fp.eof = false := by
  have hcut : vlvCut (F.drop (q + 2)) = false := by
    rw [← Bool.not_eq_true]
    intro hcut
    have hsize := vlvSize_of_cut hcut
    have hinside := take_four_length hsig
    rw [List.length_drop] at hsize
    rw [metaEnd] at hinside
    omega
  rw [Scan.behindMeta, Scan.moveTo_fp, heof, hcut, Bool.or_self]

private theorem follows_chunk {events : Events} {s : Scan} {track trkLenOffset p q : Nat}
    {rs : CInt} (hy : Loop.Yields (scanStep past F) (scanStart events ⟨14, false⟩) r)
    (hr : r.1.code ≠ -2)
    (hreach : Loop.Reaches (scanStep past F) (scanStart events ⟨14, false⟩) (.event s))
    (hs : s.StandsAt track trkLenOffset rs p) (hm : MetaAt F p q 0x2f)
    (hsig : (F.drop (metaEnd F q)).take 4 = MTrk) :
    Follows past F events r (track + 1) (metaEnd F q + 4) (-1) (metaEnd F q + 8) := by
  have hm' : MetaAt F s.fp.pos q 0x2f := by
    rw [hs.fp]
    exact hm
  have hturn : eventTurn F s = .brk (s.behindMeta F q) := by
    rw [eventTurn_meta hm', if_pos rfl]
  have hstep : scanStep past F (.event s) = leaveTrack (s.behindMeta F q) := by
    simp only [scanStep, hturn]
  by_cases hall : s.baFound META_COMMENT = true ∧ s.baFound META_COPYRIGHT = true
  · right
    have hexit := hstep.trans (leaveTrack_foundAll hall)
    rw [(hy.after_reaches hreach).unique (Loop.Yields.exit hexit)]
    exact ⟨Nat.succ_pos _, rfl, Nat.le_add_right _ _, hall.1, hall.2⟩
  · left
    have hreach' := hreach.trans (Loop.Reaches.next (hstep.trans (leaveTrack_next hall)))
    have heof : (s.behindMeta F q).fp.eof = false := eof_behindMeta (by rw [hs.fp]) hsig
    have henter := enters (hy.after_reaches hreach') hr heof hsig
    refine ⟨_, hreach'.trans (Loop.Reaches.next henter), rfl, ?_, rfl, rfl⟩
    exact congrArg (· + 1) hs.curTrack

/-- A scan that does not return -2 has followed the reader as far as it went. -/
theorem ReadsTo.follows {events : Events} {track trkLenOffset p : Nat} {rs : CInt}
    (hy : Loop.Yields (scanStep past F) (scanStart events ⟨14, false⟩) r) (hr : r.1.code ≠ -2)
    (h : ReadsTo F track trkLenOffset rs p) : Follows past F events r track trkLenOffset rs p := by
  induction h with
  | first hsig =>
    have henter := enters (s := (scanStart events ⟨14, false⟩).scan) hy hr rfl hsig
    exact Or.inl ⟨_, Loop.Reaches.next henter, rfl, rfl, rfl, rfl⟩
  | @event track trkLenOffset p p' rs rs' _ hev ih =>
    rcases ih with ⟨s, hreach, hs⟩ | ⟨htrack, hexit, hpos, hfound⟩
    · have hev' : EventAt F s.runningStatus s.fp.pos rs' p' := by
        rw [hs.runningStatus, hs.fp]
        exact hev
      obtain ⟨t, hstep, hfp, htrack, htrk, hstatus⟩ := passes (hy.after_reaches hreach) hr hev'
      refine Or.inl ⟨t, hreach.trans (Loop.Reaches.next hstep), hfp, ?_, ?_, hstatus⟩
      · exact htrack.trans hs.curTrack
      · exact htrk.trans hs.trkLenOffset
    · exact Or.inr ⟨htrack, hexit, hpos.trans hev.lt.le, hfound⟩
  | @chunk track trkLenOffset p q rs _ hm hsig ih =>
    rcases ih with ⟨s, hreach, hs⟩ | ⟨htrack, hexit, hpos, hfound⟩
    · exact follows_chunk hy hr hreach hs hm hsig
    · refine Or.inr ⟨Nat.succ_pos _, hexit, hpos.trans ?_, hfound⟩
      have := hm.lt
      rw [metaEnd]
      omega

/-! ## The first events of their kinds -/

/-- A turn finds a record that was missing by storing it. -/
theorem EventTurn.found {s : Scan} {turn : Turn} {i : Fin META_MAX} (h : EventTurn F s turn)
    (hi : turn.scan.baFound i = true) :
    s.baFound i = true ∨ ∃ q, Records F s i q ∧ metaEnd F q ≤ turn.scan.fp.pos := by
  cases h with
  | @record q ty j hm hindex hmissing hfits =>
    by_cases hij : i = j
    · subst hij
      exact Or.inr ⟨q, ⟨⟨ty, hm, hindex⟩, hmissing, hfits⟩, Nat.le_refl _⟩
    · rw [Turn.scan, Scan.store_baFound_ne hij] at hi
      exact Or.inl hi
  | _ => exact Or.inl hi

/-- The scan has recorded an event for `i` whose length field ends at or before `n`. -/
def RecordedBy (past : Nat → Bool) (F : List UInt8) (events : Events) (i : Fin META_MAX)
    (n : Nat) : Prop :=
  ∃ s q, Loop.Reaches (scanStep past F) (scanStart events ⟨14, false⟩) (.event s) ∧
    Records F s i q ∧ metaEnd F q ≤ n

private theorem RecordedBy.mono {events : Events} {i : Fin META_MAX} {n n' : Nat}
    (h : RecordedBy past F events i n) (hle : n ≤ n') : RecordedBy past F events i n' := by
  obtain ⟨s, q, hreach, hrec, hend⟩ := h
  exact ⟨s, q, hreach, hrec, hend.trans hle⟩

private theorem turn_recorded {events : Events} {s : Scan} {i : Fin META_MAX}
    (hreach : Loop.Reaches (scanStep past F) (scanStart events ⟨14, false⟩) (.event s))
    (hs : s.baFound i = true → RecordedBy past F events i s.fp.pos)
    (hi : (eventTurn F s).scan.baFound i = true) :
    RecordedBy past F events i (eventTurn F s).scan.fp.pos := by
  rcases (eventTurn_spec F s).found hi with hfound | ⟨q, hrec, hend⟩
  · exact (hs hfound).mono (eventTurn_spec F s).progress
  · exact ⟨s, q, hreach, hrec, hend⟩

/-- What the scan has found it has recorded on its way. -/
theorem recorded_of_found {events : Events} {v : ScanState} {i : Fin META_MAX}
    (hreach : Loop.Reaches (scanStep past F) (scanStart events ⟨14, false⟩) v)
    (hi : v.scan.baFound i = true) : RecordedBy past F events i v.scan.fp.pos := by
  have hall : v.scan.baFound i = true → RecordedBy past F events i v.scan.fp.pos := by
    refine hreach.invariant_reached
      (I := fun v => v.scan.baFound i = true → RecordedBy past F events i v.scan.fp.pos) nofun ?_
    intro u v hu hI hstep hfound
    cases u with
    | track u =>
      obtain ⟨-, -, -, rfl⟩ := scanStep_track_inl hstep
      exact (hI hfound).mono (scanStep_pos_le hstep)
    | event u =>
      obtain ⟨-, hsame, hle⟩ := scanStep_event_inl hstep
      rw [hsame] at hfound
      exact (turn_recorded hu hI hfound).mono hle
  exact hall hi

/-- The same at the end of the scan. -/
private theorem recorded_at_end {events : Events} {i : Fin META_MAX}
    (hy : Loop.Yields (scanStep past F) (scanStart events ⟨14, false⟩) r)
    (hi : r.2.baFound i = true) : RecordedBy past F events i r.2.fp.pos := by
  obtain ⟨v, hreach, hexit⟩ := hy
  obtain ⟨e, u⟩ := r
  have hle := scanStep_exit_pos_le hexit
  have hv := recorded_of_found (i := i) hreach
  cases v with
  | track s =>
    have hsame : u.baFound = s.baFound := by
      cases TrackTurn.of_step hexit <;> rfl
    simp only [hsame] at hi
    exact (hv hi).mono hle
  | event s =>
    have hu : u = (eventTurn F s).scan := scanStep_event_inr hexit
    subst hu
    exact turn_recorded hreach hv hi

private theorem reaches_pos_le {u v : ScanState} (h : Loop.Reaches (scanStep past F) u v) :
    u.scan.fp.pos ≤ v.scan.fp.pos :=
  h.invariant (I := fun v => u.scan.fp.pos ≤ v.scan.fp.pos) (Nat.le_refl _)
    fun _ _ hle hstep => hle.trans (scanStep_pos_le hstep)

/-- What is found stays found. -/
theorem reaches_found {u v : ScanState} {i : Fin META_MAX}
    (h : Loop.Reaches (scanStep past F) u v) (hi : u.scan.baFound i = true) :
    v.scan.baFound i = true := by
  apply h.invariant (I := fun v => v.scan.baFound i = true) hi
  intro v w hv hstep
  cases v with
  | track v =>
    obtain ⟨-, -, -, rfl⟩ := scanStep_track_inl hstep
    exact hv
  | event v =>
    rw [(scanStep_event_inl hstep).2.1]
    exact ((eventTurn_spec F v).kept ⟨hv, rfl⟩).1

/-- A turn at a meta event for `i` finds record `i`, unless it ends the scan. -/
theorem found_behind {s : Scan} {v : ScanState} {i : Fin META_MAX} {q : Nat} {ty : UInt8}
    (hm : MetaAt F s.fp.pos q ty) (hindex : metaIndex ty s.curTrack = some i)
    (hstep : scanStep past F (.event s) = .inl v) : v.scan.baFound i = true := by
  rw [(scanStep_event_inl hstep).2.1]
  cases hfound : s.baFound i with
  | true => exact ((eventTurn_spec F s).kept ⟨hfound, rfl⟩).1
  | false =>
    rcases Nat.lt_or_ge LONG_MAX (metaEnd F q) with hlarge | hfits
    · have hturn := eventTurn_meta hm
      rw [if_neg (ne_eot_of_metaIndex hindex), hindex] at hturn
      simp only [recordTurn_tell (s := s.behindMeta F q) hfound hlarge] at hturn
      simp only [scanStep, hturn, reduceCtorEq] at hstep
    · have hrec : Records F s i q := ⟨⟨ty, hm, hindex⟩, hfound, hfits⟩
      rw [hrec.turn]
      exact Scan.store_baFound_self _ i _

/-- The scan goes on behind the event that it records. -/
private theorem Records.step_behind {s : Scan} {v : ScanState} {i : Fin META_MAX} {q : Nat}
    (h : Records F s i q) (hstep : scanStep past F (.event s) = .inl v) :
    metaEnd F q ≤ v.scan.fp.pos := by
  have hle := (scanStep_event_inl hstep).2.2
  rw [h.turn] at hle
  exact hle

private theorem yields_pos_le {v : ScanState} (hy : Loop.Yields (scanStep past F) v r) :
    v.scan.fp.pos ≤ r.2.fp.pos := by
  obtain ⟨w, hreach, hexit⟩ := hy
  exact (reaches_pos_le hreach).trans (scanStep_exit_pos_le hexit)

private theorem Records.yields_behind {s : Scan} {i : Fin META_MAX} {q : Nat}
    (h : Records F s i q) (hy : Loop.Yields (scanStep past F) (.event s) r) :
    metaEnd F q ≤ r.2.fp.pos := by
  rcases event_yields hy with hr | ⟨t, hy', -, -, hle⟩
  · rw [hr, h.turn]
    exact Nat.le_refl _
  · rw [h.turn] at hle
    exact Nat.le_trans hle (yields_pos_le hy')

/-- Nothing met for a record lies before the event recorded. -/
private theorem Records.first {events : Events} {s : Scan} {i : Fin META_MAX} {q : Nat}
    (hy : Loop.Yields (scanStep past F) (scanStart events ⟨14, false⟩) r) (hr : r.1.code ≠ -2)
    (hreach : Loop.Reaches (scanStep past F) (scanStart events ⟨14, false⟩) (.event s))
    (h : Records F s i q) {trkLenOffset q' : Nat} (hmeets : Meets F i trkLenOffset q') :
    q ≤ q' := by
  obtain ⟨track, rs, p, ty', hread, hm', hindex'⟩ := hmeets
  obtain ⟨ty, hm, -⟩ := h.wanted
  have hpos := hm.pos
  have hpos' := hm'.pos
  have hlt' := hm'.lt
  have hbehind : q + 2 ≤ metaEnd F q := Nat.le_add_right _ _
  rcases hread.follows hy hr with ⟨s', hreach', hs'⟩ | ⟨-, -, hend, -⟩
  · have hfp : s'.fp.pos = p := by rw [hs'.fp]
    rcases hreach.total hreach' with hto | hto
    · rcases hto.cases_head with heq | ⟨v, hstep, hto⟩
      · cases heq
        rw [hfp] at hpos
        omega
      · have hle : v.scan.fp.pos ≤ s'.fp.pos := reaches_pos_le hto
        have hover := h.step_behind hstep
        omega
    · rcases hto.cases_head with heq | ⟨v, hstep, hto⟩
      · cases heq
        rw [hfp] at hpos
        omega
      · -- the scan came by there before, and would not miss the record any more
        rw [← hfp] at hm'
        rw [← hs'.curTrack] at hindex'
        have hfound := reaches_found hto (found_behind hm' hindex' hstep)
        rw [ScanState.scan, h.missing] at hfound
        cases hfound
  · have := h.yields_behind (hy.after_reaches hreach)
    omega

/-- The first event met for a record is recorded. -/
private theorem Meets.recorded {events : Events} {i : Fin META_MAX} {trkLenOffset q : Nat}
    (hy : Loop.Yields (scanStep past F) (scanStart events ⟨14, false⟩) r) (hr : r.1.code ≠ -2)
    (h : Meets F i trkLenOffset q) (hfirst : ∀ trkLenOffset' q', Meets F i trkLenOffset' q' →
      q ≤ q') :
    ∃ s, Loop.Reaches (scanStep past F) (scanStart events ⟨14, false⟩) (.event s) ∧
      Records F s i q ∧ s.trkLenOffset = trkLenOffset := by
  obtain ⟨track, rs, p, ty, hread, hm, hindex⟩ := h
  have hlt := hm.lt
  -- nothing can have been recorded before
  have hnew {n : Nat} (hn : n ≤ p) : ¬ RecordedBy past F events i n := by
    intro ⟨s', q', hreach', hrec', hend⟩
    obtain ⟨trkLenOffset', -, hmeets'⟩ := hrec'.meets hreach'
    have hle := hfirst trkLenOffset' q' hmeets'
    rw [metaEnd] at hend
    omega
  rcases hread.follows hy hr with ⟨s, hreach, hs⟩ | ⟨htrack, -, hend, hcomment, hcopyright⟩
  · have hfp : s.fp.pos = p := by rw [hs.fp]
    rw [← hfp] at hm
    rw [← hs.curTrack] at hindex
    have hmissing : s.baFound i = false := by
      rw [← Bool.not_eq_true]
      intro hfound
      exact hnew hfp.le (recorded_of_found hreach hfound)
    refine ⟨s, hreach, ⟨⟨ty, hm, hindex⟩, hmissing, ?_⟩, hs.trkLenOffset⟩
    by_contra hlarge
    have hturn := eventTurn_meta hm
    rw [if_neg (ne_eot_of_metaIndex hindex), hindex] at hturn
    simp only [recordTurn_tell (s := s.behindMeta F q) hmissing (Nat.not_le.mp hlarge)] at hturn
    have hstep : scanStep past F (.event s) = .inr (.recordTell, s.behindMeta F q) := by
      simp only [scanStep, hturn]
    exact absurd rfl (no_error (hy.after_reaches hreach) hr hstep)
  · have hfound : r.2.baFound i = true := by
      rcases metaIndex_later hindex htrack with rfl | rfl
      · exact hcomment
      · exact hcopyright
    exact absurd (recorded_at_end hy hfound) (hnew hend)

/-- A scan that returns 0 records the first events of their kinds that the reader meets. -/
theorem records_iff_first {events : Events}
    (hy : Loop.Yields (scanStep past F) (scanStart events ⟨14, false⟩) r) (hr : r.1.code = 0)
    (i : Fin META_MAX) (trkLenOffset q : Nat) :
    (∃ s, Loop.Reaches (scanStep past F) (scanStart events ⟨14, false⟩) (.event s) ∧
      Records F s i q ∧ s.trkLenOffset = trkLenOffset) ↔
    Meets F i trkLenOffset q ∧ ∀ trkLenOffset' q', Meets F i trkLenOffset' q' → q ≤ q' := by
  have hne : r.1.code ≠ -2 := by
    rw [hr]
    decide
  constructor
  · intro ⟨s, hreach, hrec, htrk⟩
    obtain ⟨trkLenOffset', htrk', hmeets⟩ := hrec.meets hreach
    obtain rfl : trkLenOffset = trkLenOffset' := Int.ofNat_inj.mp (htrk.symm.trans htrk')
    exact ⟨hmeets, fun _ _ => hrec.first hy hne hreach⟩
  · intro ⟨hmeets, hfirst⟩
    exact hmeets.recorded hy hne hfirst

end

/-! ## The records at the end -/

/-- A record that was stored is there at the end of the scan. -/
theorem Records.kept {past : Nat → Bool} {F : List UInt8} {s : Scan} {i : Fin META_MAX} {q : Nat}
    {r : Exit × Scan} (h : Records F s i q) (hy : Loop.Yields (scanStep past F) (.event s) r) :
    r.2.baFound i = true ∧ r.2.events i = s.recordOf F q := by
  have hturn : (eventTurn F s).scan.baFound i = true ∧
      (eventTurn F s).scan.events i = s.recordOf F q := by
    rw [h.turn]
    exact ⟨Scan.store_baFound_self _ i _, Scan.store_events_self _ i _⟩
  rcases event_yields hy with hr | ⟨t, hy', hev, hfound, -⟩
  · rw [hr]
    exact hturn
  · rw [← hev, ← hfound] at hturn
    exact yields_records (Q := fun events baFound => baFound i = true ∧
      events i = s.recordOf F q) hy' hturn (fun u _ hu => (eventTurn_spec F u).kept hu)

/-- Every record found at the end was stored on the way. -/
theorem recorded {past : Nat → Bool} {F : List UInt8} {events : Events} {fp : Stream}
    {r : Exit × Scan} (hy : Loop.Yields (scanStep past F) (scanStart events fp) r)
    (i : Fin META_MAX) (hi : 0 ≤ (r.2.events i).offset) :
    ∃ s q, Loop.Reaches (scanStep past F) (scanStart events fp) (.event s) ∧ Records F s i q ∧
      r.2.events i = s.recordOf F q := by
  have htraced := yields_records (Q := fun events' _ => 0 ≤ (events' i).offset →
      ∃ s q, Loop.Reaches (scanStep past F) (scanStart events fp) (.event s) ∧ Records F s i q ∧
        events' i = s.recordOf F q) hy ?_ ?_
  · exact htraced hi
  · intro habsent
    simp [scanStart, ScanState.scan] at habsent
  · intro s hreach hs
    rcases (eventTurn_spec F s).records with hsame | ⟨j, q, hrec, hstore⟩
    · rw [hsame]
      exact hs
    · by_cases hij : i = j
      · subst hij
        intro _
        refine ⟨s, q, hreach, hrec, ?_⟩
        rw [hrec.turn]
        exact Scan.store_events_self _ i _
      · rw [hstore, Function.update_of_ne hij]
        exact hs

/-! ## The records of a file -/

/-- The first meta event for record `i` on the way. -/
def FirstMet (F : List UInt8) (i : Fin META_MAX) (trkLenOffset q : Nat) : Prop :=
  Meets F i trkLenOffset q ∧ ∀ trkLenOffset' q', Meets F i trkLenOffset' q' → q ≤ q'

theorem Meets.exists_first {F : List UInt8} {i : Fin META_MAX} {trkLenOffset q : Nat}
    (h : Meets F i trkLenOffset q) : ∃ trkLenOffset q, FirstMet F i trkLenOffset q := by
  classical
  have hsome : ∃ q trkLenOffset, Meets F i trkLenOffset q := ⟨q, trkLenOffset, h⟩
  obtain ⟨trkLenOffset, hmeets⟩ := Nat.find_spec hsome
  exact ⟨trkLenOffset, Nat.find hsome, hmeets, fun _ _ hmeets' => Nat.find_min' hsome ⟨_, hmeets'⟩⟩

/-- At its end an accepting scan has found the records whose events the reader meets, and holds the
first of them. -/
theorem found_iff_meets {past : Nat → Bool} {F : List UInt8} {events : Events} {r : Exit × Scan}
    (hy : Loop.Yields (scanStep past F) (scanStart events ⟨14, false⟩) r) (hr : r.1.code = 0)
    (i : Fin META_MAX) :
    (r.2.baFound i = true ↔ ∃ trkLenOffset q, Meets F i trkLenOffset q) ∧
      ∀ trkLenOffset q, FirstMet F i trkLenOffset q →
        r.2.events i = ⟨trkLenOffset, metaEnd F q, metaLen F q⟩ := by
  have hheld {trkLenOffset q : Nat} (h : FirstMet F i trkLenOffset q) :
      r.2.baFound i = true ∧ r.2.events i = ⟨trkLenOffset, metaEnd F q, metaLen F q⟩ := by
    obtain ⟨s, hreach, hrec, htrk⟩ := (records_iff_first hy hr i trkLenOffset q).mpr h
    obtain ⟨hfound, hev⟩ := hrec.kept (hy.after_reaches hreach)
    rw [hev, Scan.recordOf, htrk]
    exact ⟨hfound, rfl⟩
  refine ⟨⟨?_, ?_⟩, fun trkLenOffset q h => (hheld h).2⟩
  · intro hfound
    obtain ⟨s, q, hreach, hrec, -⟩ := recorded_at_end hy hfound
    obtain ⟨trkLenOffset, -, hmeets⟩ := hrec.meets hreach
    exact ⟨trkLenOffset, q, hmeets⟩
  · intro ⟨trkLenOffset, q, hmeets⟩
    obtain ⟨trkLenOffset, q, hfirst⟩ := hmeets.exists_first
    exact (hheld hfirst).1

/-- The records that `findMetaEvents` leaves when it returns 0. -/
theorem findMetaEvents_firstMet {past : Nat → Bool} {F : List UInt8} {events : Events}
    (hret : (findMetaEvents past F .start events).ret = 0) (i : Fin META_MAX) :
    (∀ trkLenOffset q, FirstMet F i trkLenOffset q →
      (findMetaEvents past F .start events).events i =
        ⟨trkLenOffset, metaEnd F q, metaLen F q⟩) ∧
    (0 ≤ ((findMetaEvents past F .start events).events i).offset →
      ∃ trkLenOffset q, FirstMet F i trkLenOffset q) := by
  obtain ⟨-, hrun⟩ := findMetaEvents_accepted hret
  rw [hrun] at hret ⊢
  have hyields := scanLoops_yields past F (scanStart events ⟨14, false⟩)
  refine ⟨(found_iff_meets hyields hret i).2, fun hi => ?_⟩
  obtain ⟨s, q, hreach, hrec, -⟩ := recorded hyields i hi
  obtain ⟨trkLenOffset, -, hmeets⟩ := hrec.meets hreach
  exact hmeets.exists_first

end StepMid
