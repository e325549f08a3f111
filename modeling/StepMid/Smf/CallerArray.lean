import StepMid.Smf.Reading

/-!
# The caller's array

The scan reads nothing that the array held before. A record that it does not find keeps the
caller's values, but for the offset, which marks it absent.
-/

namespace StepMid

/-- The variables of a scan whose array held `events` at the start. -/
def Scan.over (events : Events) (s : Scan) : Scan :=
  { s with events := fun i => if s.baFound i then s.events i else (events i).absent }

def Turn.over (events : Events) : Turn → Turn
  | .seek seekOffset s => .seek seekOffset (s.over events)
  | .brk s => .brk (s.over events)
  | .ret e s => .ret e (s.over events)

def ScanState.over (events : Events) : ScanState → ScanState
  | .track s => .track (s.over events)
  | .event s => .event (s.over events)

section

variable (events : Events)

@[simp] theorem Scan.over_fp (s : Scan) : (s.over events).fp = s.fp := rfl

@[simp] theorem Scan.over_baFound (s : Scan) : (s.over events).baFound = s.baFound := rfl

@[simp] theorem Scan.over_curTrack (s : Scan) : (s.over events).curTrack = s.curTrack := rfl

@[simp] theorem Scan.over_runningStatus (s : Scan) :
    (s.over events).runningStatus = s.runningStatus := rfl

/-- Finding a record puts it into the array whatever the array held. -/
private theorem store_over (s : Scan) (i : Fin META_MAX) (r : MetaEvent) :
    (s.over events).store i r = (s.store i r).over events := by
  have hevents : Function.update (s.over events).events i r =
      fun j => if Function.update s.baFound i true j then Function.update s.events i r j
        else (events j).absent := by
    funext j
    by_cases hji : j = i
    · subst hji
      simp only [Function.update_self, if_true]
    · simp only [Function.update_of_ne hji, Scan.over]
  simp only [Scan.store, hevents]
  rfl

private theorem recordTurn_over (i : Fin META_MAX) (length : ULong) (s : Scan) :
    recordTurn i length (s.over events) = (recordTurn i length s).over events := by
  cases hfound : s.baFound i with
  | true =>
    rw [recordTurn_found hfound, recordTurn_found (s := s.over events) hfound]
    rfl
  | false =>
    rcases Nat.lt_or_ge LONG_MAX s.fp.pos with hlarge | hsmall
    · rw [recordTurn_tell hfound hlarge, recordTurn_tell (s := s.over events) hfound hlarge]
      rfl
    · rw [recordTurn_store hfound hsmall, recordTurn_store (s := s.over events) hfound hsmall,
        store_over]
      rfl

private theorem metaTurn_over (F : List UInt8) (s : Scan) :
    metaTurn F (s.over events) = (metaTurn F s).over events := by
  rcases hget : fgetc F s.fp with ⟨type, fp⟩
  rcases hread : readVLV F fp with ⟨_ | length, fp'⟩
  · simp only [metaTurn, Scan.over_fp, hget, hread]
    rfl
  · simp only [metaTurn, Scan.over_fp, Scan.over_curTrack, hget, hread]
    split
    · split
      · exact recordTurn_over events _ length { s with fp := fp' }
      · rfl
    · split <;> rfl

private theorem statusTurn_over (F : List UInt8) (c : CInt) (s : Scan) :
    statusTurn F c (s.over events) = (statusTurn F c s).over events := by
  simp only [statusTurn, Scan.over_runningStatus]
  split
  · split
    · split
      · exact metaTurn_over events F s
      · simp only [sysExTurn, Scan.over_fp]
        rcases readVLV F s.fp with ⟨_ | length, fp⟩ <;> rfl
    · cases getNumMessageBytes c <;> rfl
  · cases getNumMessageBytes s.runningStatus <;> rfl

private theorem eventTurn_over (F : List UInt8) (s : Scan) :
    eventTurn F (s.over events) = (eventTurn F s).over events := by
  rcases hread : readVLV F s.fp with ⟨_ | val, fp⟩
  · simp only [eventTurn, Scan.over_fp, hread]
    rfl
  · rcases hget : fgetc F fp with ⟨c, fp'⟩
    simp only [eventTurn, Scan.over_fp, hread, hget]
    split
    · rfl
    · exact statusTurn_over events F c { s with fp := fp' }

private theorem trackTurn_over (past : Nat → Bool) (F : List UInt8) (s : Scan) :
    trackTurn past F (s.over events) =
      Sum.map (ScanState.over events) (Prod.map id (Scan.over events)) (trackTurn past F s) := by
  rcases hread : fread F SIG_SIZE s.fp with ⟨sigBuf, fp⟩
  simp only [trackTurn, Scan.over_fp, hread]
  split
  · rfl
  · split
    · rfl
    · split
      · rfl
      · cases fseek past F 4 .SEEK_CUR fp <;> rfl

/-- Every step is the same whatever the array held. -/
theorem scanStep_over (past : Nat → Bool) (F : List UInt8) (s : ScanState) :
    scanStep past F (s.over events) =
      Sum.map (ScanState.over events) (Prod.map id (Scan.over events)) (scanStep past F s) := by
  cases s with
  | track s => exact trackTurn_over events past F s
  | event s =>
    simp only [scanStep, ScanState.over, eventTurn_over]
    cases eventTurn F s with
    | brk u =>
      by_cases hall : u.baFound META_COMMENT = true ∧ u.baFound META_COPYRIGHT = true
      · have hall' : (u.over events).baFound META_COMMENT = true ∧
            (u.over events).baFound META_COPYRIGHT = true := hall
        simp only [Turn.over, leaveTrack_foundAll hall, leaveTrack_foundAll hall']
        rfl
      · have hall' : ¬ ((u.over events).baFound META_COMMENT = true ∧
            (u.over events).baFound META_COPYRIGHT = true) := hall
        simp only [Turn.over, leaveTrack_next hall, leaveTrack_next hall']
        rfl
    | ret e u => rfl
    | seek off u =>
      simp only [Turn.over, Scan.over_fp]
      cases fseekULong past F u.fp off .SEEK_CUR <;> rfl

end

/-- The loops, run on a zeroed array, tell how they end on any other. -/
theorem scanLoops_over (past : Nat → Bool) (F : List UInt8) (fp : Stream) (events : Events) :
    scanLoops past F (scanStart events fp) =
      Prod.map id (Scan.over events) (scanLoops past F (scanStart zeroedEvents fp)) :=
  scanLoops_eq ((scanLoops_yields past F (scanStart zeroedEvents fp)).map
    (scanStep_over events past F))

/-- A record that the reader meets is the same whatever the array held; a record that the reader
does not meet is the caller's, marked absent. -/
theorem findMetaEvents_over {past : Nat → Bool} {F : List UInt8}
    (hret : (findMetaEvents past F .start zeroedEvents).ret = 0) (events : Events) :
    (findMetaEvents past F .start events).ret = 0 ∧
      (findMetaEvents past F .start events).fp = (findMetaEvents past F .start zeroedEvents).fp ∧
      ∀ i,
        ((∃ trkLenOffset q, Meets F i trkLenOffset q) →
          (findMetaEvents past F .start events).events i =
            (findMetaEvents past F .start zeroedEvents).events i) ∧
        ((∀ trkLenOffset q, ¬ Meets F i trkLenOffset q) →
          (findMetaEvents past F .start events).events i = (events i).absent) := by
  obtain ⟨hhead, hzeroed⟩ := findMetaEvents_accepted hret
  rw [hzeroed] at hret ⊢
  rw [findMetaEvents_header hhead, scanLoops_over]
  refine ⟨hret, rfl, fun i => ?_⟩
  have hfound := (found_iff_meets (scanLoops_yields past F _) hret i).1
  constructor
  · intro hmeets
    exact if_pos (hfound.mpr hmeets)
  · intro hnone
    exact if_neg fun hyes => by
      obtain ⟨trkLenOffset, q, hmeets⟩ := hfound.mp hyes
      exact hnone trkLenOffset q hmeets

end StepMid
