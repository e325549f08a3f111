import StepMid.Smf.Records

/-!
# The early exit

`findMetaEvents` leaves its track loop when the text and the copyright notice are found. The scan
that goes on to the last track stores nothing more: the two records are taken, and the name is
looked for on the first track only.
-/

namespace StepMid

/-- `scanStep` without the early exit: every track is followed by the next. -/
def scanAllStep (past : Nat → Bool) (F : List UInt8) : ScanState → ScanState ⊕ Exit × Scan
  | .track s => trackTurn past F s
  | .event s =>
    match eventTurn F s with
    | .brk s => .inl (.track { s with curTrack := s.curTrack + 1 })
    | .ret e s => .inr (e, s)
    | .seek seekOffset s =>
      match fseekULong past F s.fp seekOffset .SEEK_CUR with
      | none => .inr (.eventSeek, s)
      | some fp => .inl (.event { s with fp })

/-- The two scans take the same step, unless the shorter one makes its early exit. -/
theorem scanAllStep_cases (past : Nat → Bool) (F : List UInt8) (s : ScanState) :
    scanStep past F s = scanAllStep past F s ∨
      ∃ u v, s = .event u ∧ EventTurn F u (.brk v) ∧
        (v.baFound META_COMMENT = true ∧ v.baFound META_COPYRIGHT = true) ∧
        scanStep past F s = .inr (.foundAll, v) ∧
        scanAllStep past F s = .inl (.track { v with curTrack := v.curTrack + 1 }) := by
  cases s with
  | track s => exact Or.inl rfl
  | event s =>
    cases hturn : eventTurn F s with
    | brk v =>
      by_cases hall : v.baFound META_COMMENT = true ∧ v.baFound META_COPYRIGHT = true
      · refine Or.inr ⟨s, v, rfl, .of_eq hturn, hall, ?_, ?_⟩
        · simp only [scanStep, hturn, leaveTrack_foundAll hall]
        · simp only [scanAllStep, hturn]
      · left
        simp only [scanStep, scanAllStep, hturn, leaveTrack_next hall]
    | ret e v =>
      left
      simp only [scanStep, scanAllStep, hturn]
    | seek off v =>
      left
      cases hseek : fseekULong past F v.fp off .SEEK_CUR <;>
        simp only [scanStep, scanAllStep, hturn, hseek]

theorem scanAllMeasure_lt (past : Nat → Bool) (F : List UInt8) (s t : ScanState)
    (h : scanAllStep past F s = .inl t) : scanMeasure F t < scanMeasure F s := by
  rcases scanAllStep_cases past F s with hsame | ⟨u, v, rfl, hturn, -, -, hnext⟩
  · exact scanMeasure_lt past F s t (hsame.trans h)
  · cases hnext.symm.trans h
    have := hturn.brk_progress
    simp only [scanMeasure]
    omega

def scanAllLoops (past : Nat → Bool) (F : List UInt8) (s : ScanState) : Exit × Scan :=
  Loop.eval (scanAllStep past F) (scanMeasure F) (scanAllMeasure_lt past F) s

/-- `SMFUtil::findMetaEvents` without its early exit. -/
def scanAll (past : Nat → Bool) (F : List UInt8) (fp : Stream) (events : Events) : ScanReturn :=
  let (sigBuf, fp) := fread F SIG_SIZE fp
  if sigBuf.length ≠ SIG_SIZE then ⟨Exit.headerShort.code, events, fp⟩
  else if sigBuf ≠ MThd then ⟨Exit.headerSignature.code, events, fp⟩
  else
    match fseek past F 10 .SEEK_CUR fp with
    | none => ⟨Exit.headerSeek.code, events, fp⟩
    | some fp =>
      let (e, s) := scanAllLoops past F (scanStart events fp)
      ⟨e.code, s.events, s.fp⟩

/-! ## Behind the early exit -/

/-- The text and the copyright notice are found, the first track is over, and the array is `E`. -/
structure ScanState.Settled (E : Events) (s : ScanState) : Prop where
  comment : s.scan.baFound META_COMMENT = true
  copyright : s.scan.baFound META_COPYRIGHT = true
  later : 0 < s.scan.curTrack
  events : s.scan.events = E

/-- A turn of a settled scan stores nothing. -/
private theorem Settled.turn_same {E : Events} {F : List UInt8} {s u : Scan} {off : ULong}
    (hs : ScanState.Settled E (.event s)) (h : EventTurn F s (.seek off u)) : s.Same u := by
  rcases h.seek_records with hsame | ⟨i, q, hrec, -, -⟩
  · exact hsame
  · exfalso
    obtain ⟨ty, -, hindex⟩ := hrec.wanted
    have hmissing := hrec.missing
    rcases metaIndex_later hindex hs.later with rfl | rfl
    · rw [show s.baFound META_COMMENT = true from hs.comment] at hmissing
      cases hmissing
    · rw [show s.baFound META_COPYRIGHT = true from hs.copyright] at hmissing
      cases hmissing

private theorem Settled.of_same {E : Events} {s u : Scan} (hs : ScanState.Settled E (.event s))
    (h : s.Same u) : ScanState.Settled E (.event u) where
  comment := (congrFun h.baFound _).trans hs.comment
  copyright := (congrFun h.baFound _).trans hs.copyright
  later := hs.later.trans_eq h.curTrack.symm
  events := h.events.trans hs.events

private theorem settled_step {E : Events} {past : Nat → Bool} {F : List UInt8} {s t : ScanState}
    (hs : s.Settled E) (h : scanAllStep past F s = .inl t) : t.Settled E := by
  rcases scanAllStep_cases past F s with hsame | ⟨u, v, rfl, hturn, -, -, hnext⟩
  · have h' := hsame.trans h
    cases s with
    | track s =>
      obtain ⟨-, -, -, rfl⟩ := scanStep_track_inl h'
      exact ⟨hs.comment, hs.copyright, hs.later, hs.events⟩
    | event s =>
      cases t with
      | track t =>
        obtain ⟨u, hturn, rfl, -⟩ := scanStep_event_track h'
        have hu := Settled.of_same hs hturn.brk_same
        exact ⟨hu.comment, hu.copyright, Nat.succ_pos _, hu.events⟩
      | event t =>
        obtain ⟨off, u, hturn, rfl⟩ := scanStep_event_event h'
        have hu := Settled.of_same hs (Settled.turn_same hs hturn)
        exact ⟨hu.comment, hu.copyright, hu.later, hu.events⟩
  · cases hnext.symm.trans h
    have hv := Settled.of_same hs hturn.brk_same
    exact ⟨hv.comment, hv.copyright, Nat.succ_pos _, hv.events⟩

private theorem settled_exit {E : Events} {past : Nat → Bool} {F : List UInt8} {s : ScanState}
    {r : Exit × Scan} (hs : s.Settled E) (h : scanAllStep past F s = .inr r) :
    r.2.events = E := by
  rcases scanAllStep_cases past F s with hsame | ⟨u, v, rfl, -, -, -, hnext⟩
  · have h' := hsame.trans h
    obtain ⟨e, t⟩ := r
    cases s with
    | track s =>
      rw [← hs.events]
      cases TrackTurn.of_step h' <;> rfl
    | event s =>
      rcases scanStep_event_exit h' with hturn | ⟨-, hturn⟩ | ⟨-, off, hturn, -⟩
      · exact hturn.ret_same.events.trans hs.events
      · exact hturn.brk_same.events.trans hs.events
      · exact (Settled.turn_same hs hturn).events.trans hs.events
  · cases hnext.symm.trans h

/-- From the same state the scan with the early exit comes to the same array, and to a return value
of 0 wherever the longer one does. -/
private theorem scanLoops_scanAllLoops (past : Nat → Bool) (F : List UInt8) (s : ScanState) :
    (scanLoops past F s).2.events = (scanAllLoops past F s).2.events ∧
      ((scanAllLoops past F s).1.code = 0 → (scanLoops past F s).1.code = 0) := by
  have hall : Loop.Yields (scanAllStep past F) s (scanAllLoops past F s) := Loop.eval_yields _ s
  have hpart (t : ScanState) (ht : Loop.Yields (scanAllStep past F) t (scanAllLoops past F s)) :
      scanStep past F t = scanAllStep past F t ∨
        ∃ r, Loop.Yields (scanStep past F) t r ∧
          (r.2.events = (scanAllLoops past F s).2.events ∧
            ((scanAllLoops past F s).1.code = 0 → r.1.code = 0)) := by
    rcases scanAllStep_cases past F t with hsame | ⟨u, v, rfl, hturn, hfound, hexit, hnext⟩
    · exact Or.inl hsame
    · have hsettled : ScanState.Settled v.events (.track { v with curTrack := v.curTrack + 1 }) :=
        ⟨hfound.1, hfound.2, Nat.succ_pos _, rfl⟩
      have hevents : (scanAllLoops past F s).2.events = v.events :=
        (ht.after_next hnext).invariant hsettled (fun _ _ => settled_step) fun _ _ => settled_exit
      exact Or.inr ⟨(.foundAll, v), Loop.Yields.exit hexit, hevents.symm, fun _ => rfl⟩
  obtain ⟨r, hr, hq⟩ := hall.part (Q := fun r r' => r.2.events = r'.2.events ∧
    (r'.1.code = 0 → r.1.code = 0)) ⟨rfl, id⟩ fun t _ => hpart t
  rw [scanLoops_eq hr]
  exact hq

/-- The early exit is an optimisation: the array is the one that the scan of all tracks leaves, and
a file that this scan accepts is accepted. -/
theorem findMetaEvents_scanAll (past : Nat → Bool) (F : List UInt8) (fp : Stream)
    (events : Events) :
    (findMetaEvents past F fp events).events = (scanAll past F fp events).events ∧
      ((scanAll past F fp events).ret = 0 → (findMetaEvents past F fp events).ret = 0) := by
  rcases hread : fread F SIG_SIZE fp with ⟨sigBuf, fp'⟩
  simp only [findMetaEvents, scanAll, hread]
  by_cases hlen : sigBuf.length ≠ SIG_SIZE
  · simp only [if_pos hlen]
    exact ⟨trivial, id⟩
  by_cases hsig : sigBuf ≠ MThd
  · simp only [if_neg hlen, if_pos hsig]
    exact ⟨trivial, id⟩
  simp only [if_neg hlen, if_neg hsig]
  cases fseek past F 10 .SEEK_CUR fp' with
  | none => exact ⟨rfl, id⟩
  | some fp'' => exact scanLoops_scanAllLoops past F (scanStart events fp'')

end StepMid
