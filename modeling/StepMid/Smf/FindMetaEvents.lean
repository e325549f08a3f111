import StepMid.Smf.Turns

/-!
# The scan as a whole

Inversion of the steps of the two loops, the measure that every step lowers, and
`SMFUtil::findMetaEvents` itself.
-/

namespace StepMid

def Scan.resetStatus (s : Scan) : Scan := { s with runningStatus := -1 }

/-- The scan at the first event of the track chunk that starts at `pos`. -/
def Scan.enterTrack (s : Scan) (pos : Nat) : Scan :=
  { s with runningStatus := -1, trkLenOffset := (pos + 4 : Nat), fp := ⟨pos + 8, false⟩ }

/-- Every way the body of the track loop can go before the event loop. -/
inductive TrackTurn (past : Nat → Bool) (F : List UInt8) (s : Scan) :
    ScanState ⊕ Exit × Scan → Prop
  | short {pos : Nat} {eof : Bool} : F.length < s.fp.pos + 4 ∨ s.fp.eof = true →
      s.fp.pos ≤ pos → TrackTurn past F s (.inr (.trackShort, s.resetStatus.moveTo pos eof))
  | junk : s.fp.pos + 4 ≤ F.length → (F.drop s.fp.pos).take 4 ≠ MTrk →
      TrackTurn past F s (.inr (.trackJunk, s.resetStatus.moveTo (s.fp.pos + 4) false))
  | tell : (F.drop s.fp.pos).take 4 = MTrk → LONG_MAX < s.fp.pos + 4 →
      TrackTurn past F s (.inr (.trackTell,
        { s.resetStatus.moveTo (s.fp.pos + 4) false with trkLenOffset := -1 }))
  | seek : (F.drop s.fp.pos).take 4 = MTrk → s.fp.pos + 4 ≤ LONG_MAX →
      F.length < s.fp.pos + 8 → past (s.fp.pos + 8) = false →
      TrackTurn past F s (.inr (.trackSeek,
        { s.resetStatus.moveTo (s.fp.pos + 4) false with trkLenOffset := (s.fp.pos + 4 : Nat) }))
  | enter : (F.drop s.fp.pos).take 4 = MTrk → s.fp.eof = false → s.fp.pos + 4 ≤ LONG_MAX →
      TrackTurn past F s (.inl (.event (s.enterTrack s.fp.pos)))

theorem fseek_cur_none {past : Nat → Bool} {F : List UInt8} {n : Nat} {fp : Stream}
    (h : fseek past F n .SEEK_CUR fp = none) :
    F.length < fp.pos + n ∧ past (fp.pos + n) = false := by
  have htarget : ((fp.pos : Int) + n).toNat = fp.pos + n := by omega
  simp only [fseek, htarget] at h
  rw [if_neg (by omega)] at h
  split at h
  · cases h
  · rename_i hno
    rw [not_or, Bool.not_eq_true] at hno
    exact ⟨by omega, hno.2⟩

private theorem trackTurn_short {past : Nat → Bool} {F : List UInt8} {s : Scan}
    (h : F.length < s.fp.pos + 4 ∨ s.fp.eof = true) :
    TrackTurn past F s (trackTurn past F s) := by
  rcases Nat.lt_or_ge F.length (s.fp.pos + 4) with hlt | hge
  · have hlen : (F.drop s.fp.pos).length ≠ 4 := by
      rw [List.length_drop]
      omega
    simp only [trackTurn, fread_short hlt]
    rw [if_pos (Or.inl hlen)]
    exact .short h (Nat.le_add_right _ _)
  · have heof : s.fp.eof = true := by
      rcases h with h | h
      · omega
      · exact h
    simp only [trackTurn, fread_full hge]
    rw [if_pos (Or.inr heof)]
    exact .short h (Nat.le_add_right _ _)

private theorem trackTurn_full {past : Nat → Bool} {F : List UInt8} {s : Scan}
    (hlen : s.fp.pos + 4 ≤ F.length) (heof : s.fp.eof = false) :
    TrackTurn past F s (trackTurn past F s) := by
  have htake : ((F.drop s.fp.pos).take 4).length = 4 := by
    rw [List.length_take, List.length_drop]
    omega
  simp only [trackTurn, fread_full hlen, htake, heof, ne_eq, not_true_eq_false,
    Bool.false_eq_true, or_self, if_false]
  by_cases hsig : (F.drop s.fp.pos).take 4 = MTrk
  · rw [if_neg (not_not.mpr hsig)]
    rcases Nat.lt_or_ge LONG_MAX (s.fp.pos + 4) with hlarge | hsmall
    · have htell : ftell ⟨s.fp.pos + 4, false⟩ = -1 := by
        rw [ftell, if_neg (Nat.not_le.mpr hlarge)]
      rw [htell, if_pos (by decide)]
      exact .tell hsig hlarge
    · have htell : ftell ⟨s.fp.pos + 4, false⟩ = (s.fp.pos + 4 : Nat) := ftell_inside hsmall
      rw [htell, if_neg (by omega)]
      rcases hseek : fseek past F 4 .SEEK_CUR ⟨s.fp.pos + 4, false⟩ with _ | fp
      · have hno := fseek_cur_none (n := 4) hseek
        exact .seek hsig hsmall hno.1 hno.2
      · have hfp := fseek_cur (n := 4) hseek
        subst hfp
        exact .enter hsig heof hsmall
  · rw [if_pos hsig]
    exact .junk hlen hsig

theorem trackTurn_spec (past : Nat → Bool) (F : List UInt8) (s : Scan) :
    TrackTurn past F s (trackTurn past F s) := by
  by_cases h : F.length < s.fp.pos + 4 ∨ s.fp.eof = true
  · exact trackTurn_short h
  · rw [not_or, Nat.not_lt, Bool.not_eq_true] at h
    exact trackTurn_full h.1 h.2

/-! ## Inversion of the steps -/

theorem fseekULong_some {past : Nat → Bool} {F : List UInt8} {fp fp' : Stream} {off : ULong}
    (h : fseekULong past F fp off .SEEK_CUR = some fp') :
    off.toNat ≤ LONG_MAX ∧ fp' = { pos := fp.pos + off.toNat, eof := false } := by
  rw [fseekULong] at h
  split at h
  · cases h
  · exact ⟨by omega, fseek_cur h⟩

theorem TrackTurn.of_step {past : Nat → Bool} {F : List UInt8} {s : Scan}
    {r : ScanState ⊕ Exit × Scan} (h : scanStep past F (.track s) = r) : TrackTurn past F s r := by
  rw [← h]
  exact trackTurn_spec past F s

theorem leaveTrack_foundAll {s : Scan}
    (h : s.baFound META_COMMENT = true ∧ s.baFound META_COPYRIGHT = true) :
    leaveTrack s = .inr (.foundAll, s) := by
  rw [leaveTrack, h.1, h.2]
  rfl

theorem leaveTrack_next {s : Scan}
    (h : ¬ (s.baFound META_COMMENT = true ∧ s.baFound META_COPYRIGHT = true)) :
    leaveTrack s = .inl (.track { s with curTrack := s.curTrack + 1 }) := by
  rw [leaveTrack, if_neg]
  rwa [Bool.and_eq_true]

/-- Every way a turn of the event loop can end. -/
inductive EventStep (past : Nat → Bool) (F : List UInt8) (s : Scan) :
    ScanState ⊕ Exit × Scan → Prop
  | next {off : ULong} {u : Scan} : eventTurn F s = .seek off u → off.toNat ≤ LONG_MAX →
      EventStep past F s (.inl (.event (u.moveTo (u.fp.pos + off.toNat) false)))
  | seek {off : ULong} {u : Scan} : eventTurn F s = .seek off u →
      fseekULong past F u.fp off .SEEK_CUR = none → EventStep past F s (.inr (.eventSeek, u))
  | leave {u : Scan} : eventTurn F s = .brk u →
      ¬ (u.baFound META_COMMENT = true ∧ u.baFound META_COPYRIGHT = true) →
      EventStep past F s (.inl (.track { u with curTrack := u.curTrack + 1 }))
  | foundAll {u : Scan} : eventTurn F s = .brk u → EventStep past F s (.inr (.foundAll, u))
  | ret {e : Exit} {u : Scan} : eventTurn F s = .ret e u → EventStep past F s (.inr (e, u))

theorem EventStep.of_step {past : Nat → Bool} {F : List UInt8} {s : Scan}
    {r : ScanState ⊕ Exit × Scan} (h : scanStep past F (.event s) = r) : EventStep past F s r := by
  subst h
  cases hturn : eventTurn F s with
  | brk u =>
    simp only [scanStep, hturn]
    by_cases hall : u.baFound META_COMMENT = true ∧ u.baFound META_COPYRIGHT = true
    · rw [leaveTrack_foundAll hall]
      exact .foundAll hturn
    · rw [leaveTrack_next hall]
      exact .leave hturn hall
  | ret e u =>
    simp only [scanStep, hturn]
    exact .ret hturn
  | seek off u =>
    simp only [scanStep, hturn]
    cases hseek : fseekULong past F u.fp off .SEEK_CUR with
    | none => exact .seek hturn hseek
    | some fp =>
      obtain ⟨hoff, hfp⟩ := fseekULong_some hseek
      rw [hfp]
      exact .next hturn hoff

/-- Staying in the event loop. -/
theorem scanStep_event_event {past : Nat → Bool} {F : List UInt8} {s t : Scan}
    (h : scanStep past F (.event s) = .inl (.event t)) :
    ∃ off u, EventTurn F s (.seek off u) ∧ t = u.moveTo (u.fp.pos + off.toNat) false := by
  cases EventStep.of_step h with
  | next hturn => exact ⟨_, _, .of_eq hturn, rfl⟩

/-- Leaving a track for the next one. -/
theorem scanStep_event_track {past : Nat → Bool} {F : List UInt8} {s t : Scan}
    (h : scanStep past F (.event s) = .inl (.track t)) :
    ∃ u, EventTurn F s (.brk u) ∧ t = { u with curTrack := u.curTrack + 1 } ∧
      ¬ (u.baFound META_COMMENT = true ∧ u.baFound META_COPYRIGHT = true) := by
  cases EventStep.of_step h with
  | leave hturn hno => exact ⟨_, .of_eq hturn, rfl, hno⟩

/-- Leaving the scan from an event. -/
theorem scanStep_event_exit {past : Nat → Bool} {F : List UInt8} {s t : Scan} {e : Exit}
    (h : scanStep past F (.event s) = .inr (e, t)) :
    EventTurn F s (.ret e t) ∨ (e = .foundAll ∧ EventTurn F s (.brk t)) ∨
      (e = .eventSeek ∧ ∃ off, EventTurn F s (.seek off t) ∧
        fseekULong past F t.fp off .SEEK_CUR = none) := by
  cases EventStep.of_step h with
  | seek hturn hseek => exact Or.inr (Or.inr ⟨rfl, _, .of_eq hturn, hseek⟩)
  | foundAll hturn => exact Or.inr (Or.inl ⟨rfl, .of_eq hturn⟩)
  | ret hturn => exact Or.inl (.of_eq hturn)

/-- A step that stays in the loops keeps what the turn left, and moves forwards only. -/
theorem scanStep_event_inl {past : Nat → Bool} {F : List UInt8} {s : Scan} {t : ScanState}
    (h : scanStep past F (.event s) = .inl t) :
    t.scan.events = (eventTurn F s).scan.events ∧ t.scan.baFound = (eventTurn F s).scan.baFound ∧
      (eventTurn F s).scan.fp.pos ≤ t.scan.fp.pos := by
  cases EventStep.of_step h with
  | next hturn =>
    rw [hturn]
    exact ⟨rfl, rfl, Nat.le_add_right _ _⟩
  | leave hturn =>
    rw [hturn]
    exact ⟨rfl, rfl, Nat.le_refl _⟩

/-- A step that leaves the loops returns what the turn left. -/
theorem scanStep_event_inr {past : Nat → Bool} {F : List UInt8} {s u : Scan} {e : Exit}
    (h : scanStep past F (.event s) = .inr (e, u)) : u = (eventTurn F s).scan := by
  cases EventStep.of_step h with
  | seek hturn | foundAll hturn | ret hturn =>
    rw [hturn]
    rfl

/-- The scan ends with its current turn, or goes on from where that turn left it. -/
theorem event_yields {past : Nat → Bool} {F : List UInt8} {s : Scan} {r : Exit × Scan}
    (h : Loop.Yields (scanStep past F) (.event s) r) :
    r.2 = (eventTurn F s).scan ∨
      ∃ t, Loop.Yields (scanStep past F) t r ∧ t.scan.events = (eventTurn F s).scan.events ∧
        t.scan.baFound = (eventTurn F s).scan.baFound ∧
        (eventTurn F s).scan.fp.pos ≤ t.scan.fp.pos := by
  cases hstep : scanStep past F (.event s) with
  | inl t => exact Or.inr ⟨t, h.after_next hstep, scanStep_event_inl hstep⟩
  | inr q =>
    rw [h.unique (Loop.Yields.exit hstep)]
    exact Or.inl (scanStep_event_inr hstep)

theorem scanStep_track_inl {past : Nat → Bool} {F : List UInt8} {s : Scan} {t : ScanState}
    (h : scanStep past F (.track s) = .inl t) :
    (F.drop s.fp.pos).take 4 = MTrk ∧ s.fp.eof = false ∧ s.fp.pos + 4 ≤ LONG_MAX ∧
      t = .event (s.enterTrack s.fp.pos) := by
  cases TrackTurn.of_step h with
  | enter hsig heof hsmall => exact ⟨hsig, heof, hsmall, rfl⟩

/-- A chunk with its length field inside the file is entered. -/
theorem scanStep_enter (past : Nat → Bool) {F : List UInt8} {s : Scan}
    (hsig : (F.drop s.fp.pos).take 4 = MTrk) (heof : s.fp.eof = false)
    (hinside : s.fp.pos + 8 ≤ F.length) (hsmall : s.fp.pos + 4 ≤ LONG_MAX) :
    scanStep past F (.track s) = .inl (.event (s.enterTrack s.fp.pos)) := by
  cases hstep : scanStep past F (.track s) with
  | inl t =>
    cases TrackTurn.of_step hstep
    rfl
  | inr r =>
    cases TrackTurn.of_step hstep with
    | short h =>
      rw [heof] at h
      rcases h with h | h
      · omega
      · cases h
    | junk _ h => exact absurd hsig h
    | tell | seek => omega

/-- What every turn of the event loop preserves of the records holds at the end of the scan. -/
theorem yields_records {past : Nat → Bool} {F : List UInt8} {s₀ : ScanState} {r : Exit × Scan}
    {Q : Events → (Fin META_MAX → Bool) → Prop} (hy : Loop.Yields (scanStep past F) s₀ r)
    (hs₀ : Q s₀.scan.events s₀.scan.baFound)
    (hturn : ∀ s, Loop.Reaches (scanStep past F) s₀ (.event s) → Q s.events s.baFound →
      Q (eventTurn F s).scan.events (eventTurn F s).scan.baFound) :
    Q r.2.events r.2.baFound := by
  refine hy.invariant_reached (I := fun s => Q s.scan.events s.scan.baFound)
    (Q := fun r => Q r.2.events r.2.baFound) hs₀ ?_ ?_
  · intro u v hu hQ hstep
    cases u with
    | track u =>
      obtain ⟨-, -, -, rfl⟩ := scanStep_track_inl hstep
      exact hQ
    | event u =>
      obtain ⟨hev, hfound, -⟩ := scanStep_event_inl hstep
      rw [hev, hfound]
      exact hturn u hu hQ
  · intro u ⟨e, v⟩ hu hQ hexit
    cases u with
    | track u =>
      cases TrackTurn.of_step hexit <;> exact hQ
    | event u =>
      simp only [scanStep_event_inr hexit]
      exact hturn u hu hQ

/-! ## The measure -/

theorem take_four_length {F : List UInt8} {pos : Nat} (h : (F.drop pos).take 4 = MTrk) :
    pos + 4 ≤ F.length := by
  have hlen := congrArg List.length h
  have hfour : MTrk.length = 4 := rfl
  rw [hfour, List.length_take, List.length_drop] at hlen
  omega

/-- A turn that reaches the final seek has read two bytes inside the file. -/
theorem EventTurn.seek_progress {F : List UInt8} {s u : Scan} {off : ULong}
    (h : EventTurn F s (.seek off u)) :
    s.fp.pos + 2 ≤ F.length ∧ s.fp.pos + 2 ≤ u.fp.pos := by
  cases h with
  | running hst | channel hst | sysEx hst | noType hst =>
    have := hst.lt
    simp only [Scan.moveTo_fp]
    omega
  | unused hm | again hm | record hm =>
    have := hm.lt
    simp only [Scan.store, Scan.behindMeta, Scan.moveTo_fp, metaEnd]
    omega

theorem EventTurn.brk_progress {F : List UInt8} {s u : Scan} (h : EventTurn F s (.brk u)) :
    s.fp.pos ≤ u.fp.pos := by
  cases h with
  | fileEnd => simp only [Scan.moveTo_fp]; omega
  | endOfTrack hm =>
    have := hm.lt
    simp only [Scan.behindMeta, Scan.moveTo_fp, metaEnd]
    omega

def scanMeasure (F : List UInt8) : ScanState → Nat
  | .track s => 2 * (F.length - s.fp.pos) + 1
  | .event s => 2 * (F.length - s.fp.pos) + 2

/-- Every step that stays in the loops lowers the measure. -/
theorem scanMeasure_lt (past : Nat → Bool) (F : List UInt8) (s t : ScanState)
    (h : scanStep past F s = .inl t) : scanMeasure F t < scanMeasure F s := by
  cases s with
  | track s =>
    obtain ⟨hsig, -, -, rfl⟩ := scanStep_track_inl h
    have := take_four_length hsig
    simp only [scanMeasure, Scan.enterTrack]
    omega
  | event s =>
    cases t with
    | track t =>
      obtain ⟨u, hturn, rfl, -⟩ := scanStep_event_track h
      have := hturn.brk_progress
      simp only [scanMeasure]
      omega
    | event t =>
      obtain ⟨off, u, hturn, rfl⟩ := scanStep_event_event h
      have := hturn.seek_progress
      simp only [scanMeasure, Scan.moveTo_fp]
      omega

/-! ## The function -/

structure ScanReturn where
  ret : Int
  events : Events
  fp : Stream

/-- `STEPLoad` hands over a zeroed array. -/
def zeroedEvents : Events := fun _ => ⟨0, 0, 0⟩

/-- The loops from the state behind the header, with every record marked absent. -/
def scanStart (events : Events) (fp : Stream) : ScanState :=
  .track
    { fp
      events := fun i => { events i with offset := -1 }
      curTrack := 0
      trkLenOffset := 0
      baFound := fun _ => false
      runningStatus := 0 }

/-- The exit through which the two loops are left, and the variables there. -/
def scanLoops (past : Nat → Bool) (F : List UInt8) (s : ScanState) : Exit × Scan :=
  Loop.eval (scanStep past F) (scanMeasure F) (scanMeasure_lt past F) s

/-- `SMFUtil::findMetaEvents`. -/
def findMetaEvents (past : Nat → Bool) (F : List UInt8) (fp : Stream) (events : Events) :
    ScanReturn :=
  let (sigBuf, fp) := fread F SIG_SIZE fp
  if sigBuf.length ≠ SIG_SIZE then ⟨Exit.headerShort.code, events, fp⟩
  else if sigBuf ≠ MThd then ⟨Exit.headerSignature.code, events, fp⟩
  else
    match fseek past F 10 .SEEK_CUR fp with
    | none => ⟨Exit.headerSeek.code, events, fp⟩
    | some fp =>
      let (e, s) := scanLoops past F (scanStart events fp)
      ⟨e.code, s.events, s.fp⟩

theorem scanLoops_yields (past : Nat → Bool) (F : List UInt8) (s : ScanState) :
    Loop.Yields (scanStep past F) s (scanLoops past F s) :=
  Loop.eval_yields _ s

theorem scanLoops_eq {past : Nat → Bool} {F : List UInt8} {s : ScanState} {r : Exit × Scan}
    (h : Loop.Yields (scanStep past F) s r) : scanLoops past F s = r :=
  Loop.eval_eq _ h

/-- A file opened afresh. -/
def Stream.start : Stream := { pos := 0, eof := false }

/-- The header check passes and the seek behind the header succeeds. -/
structure HeaderOk (past : Nat → Bool) (F : List UInt8) : Prop where
  signature : F.take 4 = MThd
  seek : 14 ≤ F.length ∨ past 14 = true

theorem HeaderOk.length {past : Nat → Bool} {F : List UInt8} (h : HeaderOk past F) :
    4 ≤ F.length := by
  have hlen := congrArg List.length h.signature
  have hfour : MThd.length = 4 := rfl
  rw [hfour, List.length_take] at hlen
  omega

theorem findMetaEvents_header {past : Nat → Bool} {F : List UInt8} (h : HeaderOk past F)
    (events : Events) :
    findMetaEvents past F .start events =
      let r := scanLoops past F (scanStart events ⟨14, false⟩)
      ⟨r.1.code, r.2.events, r.2.fp⟩ := by
  have hread : fread F SIG_SIZE .start = (MThd, ⟨4, false⟩) := by
    rw [← h.signature]
    exact fread_full (by simpa [Stream.start] using h.length)
  have hseek : fseek past F 10 .SEEK_CUR ⟨4, false⟩ = some ⟨14, false⟩ := by
    simp only [fseek]
    rw [if_neg (by omega), if_pos (by simpa using h.seek)]
    rfl
  have hfour : MThd.length = SIG_SIZE := rfl
  simp only [findMetaEvents, hread, hfour, ne_eq, not_true_eq_false, if_false, hseek]

/-- Without its header a file is rejected and the array is left alone. -/
theorem findMetaEvents_noHeader {past : Nat → Bool} {F : List UInt8} (h : ¬ HeaderOk past F)
    (events : Events) :
    (findMetaEvents past F .start events).ret < 0 ∧
      (findMetaEvents past F .start events).events = events := by
  have hpos : (fread F SIG_SIZE .start).2.pos = (fread F SIG_SIZE .start).1.length :=
    Nat.zero_add _
  rcases hread : fread F SIG_SIZE .start with ⟨sigBuf, fp⟩
  simp only [hread] at hpos
  simp only [findMetaEvents, hread]
  by_cases hlen : sigBuf.length = SIG_SIZE
  · rw [if_neg (not_not.mpr hlen)]
    by_cases hsig : sigBuf = MThd
    · rw [if_neg (not_not.mpr hsig)]
      rcases hseek : fseek past F 10 .SEEK_CUR fp with _ | fp'
      · exact ⟨show Exit.headerSeek.code < 0 by decide, rfl⟩
      · exfalso
        apply h
        refine ⟨(congrArg Prod.fst hread).trans hsig, ?_⟩
        have hfour : fp.pos = 4 := hpos.trans hlen
        simp only [fseek, hfour] at hseek
        rw [if_neg (by omega)] at hseek
        split at hseek
        · assumption
        · cases hseek
    · rw [if_pos hsig]
      exact ⟨show Exit.headerSignature.code < 0 by decide, rfl⟩
  · rw [if_pos hlen]
    exact ⟨show Exit.headerShort.code < 0 by decide, rfl⟩

theorem findMetaEvents_accepted {past : Nat → Bool} {F : List UInt8} {events : Events}
    (h : (findMetaEvents past F .start events).ret = 0) :
    HeaderOk past F ∧ findMetaEvents past F .start events =
      let r := scanLoops past F (scanStart events ⟨14, false⟩)
      ⟨r.1.code, r.2.events, r.2.fp⟩ := by
  by_cases hhead : HeaderOk past F
  · exact ⟨hhead, findMetaEvents_header hhead events⟩
  · have := (findMetaEvents_noHeader hhead events).1
    omega

end StepMid
