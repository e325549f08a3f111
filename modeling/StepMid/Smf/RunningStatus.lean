import StepMid.Smf.FindMetaEvents

/-!
# Running status

A data byte in the place of a status byte repeats the last channel status of its track. SysEx and
meta events cancel this status; the scan keeps it through them, so it takes a data byte directly
behind such an event for a channel message whenever the track has had one before.
-/

namespace StepMid

/-- The status byte of a channel message. -/
def IsChannel (b : UInt8) : Prop := 128 ≤ b.toNat ∧ b.toNat < 240

instance (b : UInt8) : Decidable (IsChannel b) := inferInstanceAs (Decidable (_ ∧ _))

/-- The scan comes to a state with the events of its track behind it, given by the first bytes
behind their delta-times. -/
inductive Heard (past : Nat → Bool) (F : List UInt8) (events : Events) :
    ScanState → List UInt8 → Prop
  | start : HeaderOk past F → Heard past F events (scanStart events ⟨14, false⟩) []
  | track {s t : Scan} {bs : List UInt8} : Heard past F events (.track s) bs →
      scanStep past F (.track s) = .inl (.event t) → Heard past F events (.event t) []
  | event {s t : Scan} {bs : List UInt8} {q : Nat} {b : UInt8} :
      Heard past F events (.event s) bs → StatusAt F s.fp.pos q b →
      scanStep past F (.event s) = .inl (.event t) → Heard past F events (.event t) (bs ++ [b])
  | leave {s t : Scan} {bs : List UInt8} : Heard past F events (.event s) bs →
      scanStep past F (.event s) = .inl (.track t) → Heard past F events (.track t) []

/-- No running status is in effect: the event is the first of its chunk, or the one before it is a
SysEx or a meta event. -/
def NoStatus (bs : List UInt8) : Prop := ∀ b ∈ bs.getLast?, 240 ≤ b.toNat

/-- The scan stands at a data byte where a status byte is due, behind the events `bs`. -/
structure Unannounced (past : Nat → Bool) (F : List UInt8) (events : Events) (s : Scan)
    (bs : List UInt8) : Prop where
  heard : Heard past F events (.event s) bs
  data : ∃ q b, StatusAt F s.fp.pos q b ∧ b.toNat < 128
  noStatus : NoStatus bs

/-- The scan ends here with the return value -1. -/
def RejectedAt (past : Nat → Bool) (F : List UInt8) (events : Events) (s : Scan) : Prop :=
  (∃ u, scanStep past F (.event s) = .inr (.runningStatus, u)) ∧
    (findMetaEvents past F .start events).ret = -1

/-! ## The variable -/

/-- The last channel status among the events of a track. -/
def lastStatus (bs : List UInt8) : CInt :=
  bs.foldl (fun rs b => if IsChannel b then ofByte b else rs) (-1)

theorem lastStatus_snoc (bs : List UInt8) (b : UInt8) :
    lastStatus (bs ++ [b]) = if IsChannel b then ofByte b else lastStatus bs := by
  rw [lastStatus, List.foldl_append, List.foldl_cons, List.foldl_nil]
  rfl

theorem getNumMessageBytes_lastStatus (bs : List UInt8) :
    getNumMessageBytes (lastStatus bs) = none ↔ ∀ b ∈ bs, ¬ IsChannel b := by
  induction bs using List.reverseRecOn with
  | nil => exact iff_of_true (by decide) nofun
  | append_singleton bs b ih =>
    rw [lastStatus_snoc]
    by_cases hb : IsChannel b
    · rw [if_pos hb, getNumMessageBytes_channel hb.1 hb.2]
      refine iff_of_false (Option.some_ne_none _) fun h => ?_
      exact h b (by simp) hb
    · rw [if_neg hb, ih]
      simp [hb, or_imp, forall_and]

theorem StatusAt.unique {F : List UInt8} {p q q' : Nat} {b b' : UInt8} (h : StatusAt F p q b)
    (h' : StatusAt F p q' b') : b = b' := by
  have hbyte := h'.byte
  rw [h'.pos, ← h.pos, h.byte] at hbyte
  exact Option.some.inj hbyte

/-- Only a channel status changes the variable. -/
theorem EventTurn.runningStatus {F : List UInt8} {s u : Scan} {off : ULong}
    (h : EventTurn F s (.seek off u)) :
    ∃ q b, StatusAt F s.fp.pos q b ∧
      u.runningStatus = if IsChannel b then ofByte b else s.runningStatus := by
  cases h with
  | @running q b _ hst hdata =>
    refine ⟨q, b, hst, (if_neg ?_).symm⟩
    rw [IsChannel]
    omega
  | @channel q b hst hlo hhi => exact ⟨q, b, hst, (if_pos ⟨hlo, hhi⟩).symm⟩
  | @sysEx q b hst hlo =>
    refine ⟨q, b, hst, (if_neg ?_).symm⟩
    rw [IsChannel]
    omega
  | noType hst => exact ⟨_, _, hst, (if_neg (by decide)).symm⟩
  | unused hm | again hm | record hm => exact ⟨_, _, hm.toStatusAt, (if_neg (by decide)).symm⟩

namespace Heard

variable {past : Nat → Bool} {F : List UInt8} {events : Events}

theorem header {s : ScanState} {bs : List UInt8} (h : Heard past F events s bs) :
    HeaderOk past F := by
  induction h with
  | start hhead => exact hhead
  | track _ _ ih | event _ _ _ ih | leave _ _ ih => exact ih

theorem reaches {s : ScanState} {bs : List UInt8} (h : Heard past F events s bs) :
    Loop.Reaches (scanStep past F) (scanStart events ⟨14, false⟩) s := by
  induction h with
  | start => exact Loop.Reaches.refl _
  | track _ hstep ih | event _ _ hstep ih | leave _ hstep ih =>
    exact ih.trans (Loop.Reaches.next hstep)

/-- Every state that the scan comes to has a history. -/
theorem exists_of_reaches (hhead : HeaderOk past F) {s : ScanState}
    (h : Loop.Reaches (scanStep past F) (scanStart events ⟨14, false⟩) s) :
    ∃ bs, Heard past F events s bs := by
  refine h.invariant (I := fun s => ∃ bs, Heard past F events s bs) ⟨[], .start hhead⟩ ?_
  intro u v ⟨bs, hu⟩ hstep
  cases u with
  | track u =>
    obtain ⟨-, -, -, rfl⟩ := scanStep_track_inl hstep
    exact ⟨[], .track hu hstep⟩
  | event u =>
    cases v with
    | track v => exact ⟨[], .leave hu hstep⟩
    | event v =>
      obtain ⟨off, w, hturn, -⟩ := scanStep_event_event hstep
      obtain ⟨q, b, hst, -⟩ := hturn.runningStatus
      exact ⟨bs ++ [b], .event hu hst hstep⟩

/-- The variable holds the last channel status of the track. -/
theorem runningStatus {s : Scan} {bs : List UInt8} (h : Heard past F events (.event s) bs) :
    s.runningStatus = lastStatus bs := by
  generalize hv : ScanState.event s = v at h
  induction h generalizing s with
  | start | leave => cases hv
  | track _ hstep =>
    cases hv
    obtain ⟨-, -, -, hs⟩ := scanStep_track_inl hstep
    cases hs
    rfl
  | event _ hst hstep ih =>
    cases hv
    obtain ⟨off, u, hturn, rfl⟩ := scanStep_event_event hstep
    obtain ⟨q, b, hst', hu⟩ := hturn.runningStatus
    rw [hst'.unique hst, ih rfl] at hu
    rw [lastStatus_snoc, Scan.moveTo_runningStatus, hu]

/-- An exit from a state on the way is the exit of `findMetaEvents`. -/
theorem ret {s : ScanState} {bs : List UInt8} (h : Heard past F events s bs) {r : Exit × Scan}
    (hexit : scanStep past F s = .inr r) :
    (findMetaEvents past F .start events).ret = r.1.code := by
  rw [findMetaEvents_header h.header, scanLoops_eq ⟨s, h.reaches, hexit⟩]

end Heard

/-! ## The rule -/

/-- A data byte that no status announces is rejected unless the track has a channel status. -/
theorem Unannounced.rejected_iff {past : Nat → Bool} {F : List UInt8} {events : Events} {s : Scan}
    {bs : List UInt8} (h : Unannounced past F events s bs) :
    RejectedAt past F events s ↔ ∀ b ∈ bs, ¬ IsChannel b := by
  obtain ⟨q, b, hst, hdata⟩ := h.data
  have hturn := eventTurn_status hst
  rw [statusTurn_data hdata, Scan.moveTo_runningStatus, h.heard.runningStatus] at hturn
  rw [← getNumMessageBytes_lastStatus]
  cases hn : getNumMessageBytes (lastStatus bs) with
  | none =>
    rw [hn] at hturn
    have hstep : scanStep past F (.event s) = .inr (.runningStatus, s.moveTo (q + 1) s.fp.eof) := by
      simp only [scanStep, hturn]
    exact iff_of_true ⟨⟨_, hstep⟩, h.heard.ret hstep⟩ rfl
  | some n =>
    rw [hn] at hturn
    refine iff_of_false ?_ (Option.some_ne_none n)
    rintro ⟨⟨u, hstep⟩, -⟩
    simp only [scanStep, hturn] at hstep
    split at hstep
    · cases hstep
    · cases hstep

/-- The scan rejects every data byte that no status announces exactly when such a byte never stands
in a track that has had a channel message before. -/
theorem findMetaEvents_runningStatus (past : Nat → Bool) (F : List UInt8) (events : Events) :
    (∀ s bs, Unannounced past F events s bs → RejectedAt past F events s) ↔
      ∀ s bs, Unannounced past F events s bs → ∀ b ∈ bs, ¬ IsChannel b := by
  constructor
  · intro h s bs hs
    exact hs.rejected_iff.mp (h s bs hs)
  · intro h s bs hs
    exact hs.rejected_iff.mpr (h s bs hs)

/-- A track with a note, an empty text, two data bytes for a note, and its end. -/
def staleStatus : List UInt8 :=
  [0x4d, 0x54, 0x68, 0x64, 0, 0, 0, 6, 0, 0, 0, 1, 0, 96, 0x4d, 0x54, 0x72, 0x6b, 0, 0, 0, 15,
    0, 0x90, 60, 64, 0, 0xff, 1, 0, 0, 60, 0, 0, 0xff, 0x2f, 0]

/-- The scan of this file at an event of the track, with nothing found so far. -/
private def staleScan (pos : Nat) (runningStatus : CInt) : Scan where
  fp := ⟨pos, false⟩
  events := fun i => { zeroedEvents i with offset := -1 }
  curTrack := 0
  trkLenOffset := 18
  baFound := fun _ => false
  runningStatus := runningStatus

private theorem staleStatus_heard :
    Heard (fun _ => true) staleStatus zeroedEvents
      (.event ((staleScan 30 0x90).store META_COMMENT ⟨18, 30, 0⟩)) [0x90, 0xff] := by
  have hhead : HeaderOk (fun _ => true) staleStatus := ⟨rfl, Or.inr rfl⟩
  have hfirst : Heard (fun _ => true) staleStatus zeroedEvents (.event (staleScan 22 (-1))) [] :=
    .track (.start hhead) rfl
  have hnote : Heard (fun _ => true) staleStatus zeroedEvents
      (.event (staleScan 26 0x90)) [0x90] :=
    .event hfirst ⟨by decide, rfl, rfl⟩ rfl
  exact .event hnote ⟨by decide, rfl, rfl⟩ rfl

/-- The status of the note is used behind the text, and the file is accepted. -/
theorem findMetaEvents_staleStatus :
    (findMetaEvents (fun _ => true) staleStatus .start zeroedEvents).ret = 0 ∧
      ∃ s, Unannounced (fun _ => true) staleStatus zeroedEvents s [0x90, 0xff] := by
  refine ⟨by decide +kernel, _, staleStatus_heard, ⟨31, 60, ⟨by decide, rfl, rfl⟩, by decide⟩, ?_⟩
  intro b hb
  cases hb
  decide

end StepMid
