import StepMid.Smf.FindMetaEvents
import StepMid.Smf.VlvBound

/-!
# Progress of the scan

Every turn reads forwards, and every event that keeps the scan in its loop takes two bytes of the
file. Below 2 GiB no seek is given an offset that a `long` cannot hold.
-/

namespace StepMid

/-- Below 2 GiB the operand of the final seek fits a `long`. -/
theorem EventTurn.seek_offset {F : List UInt8} (hF : F.length ≤ LONG_MAX) {s u : Scan}
    {off : ULong} (h : EventTurn F s (.seek off u)) : off.toNat ≤ LONG_MAX := by
  have hmax : LONG_MAX = 2 ^ 31 - 1 := rfl
  have hvlv {p : Nat} (hp : 0 < p) (hl : ¬ vlvRejected (F.drop p)) :
      (vlvVal (F.drop p)).toNat ≤ LONG_MAX := by
    have := (vlvVal_toNat (vlvCounted_behind hF hp) hl).2
    omega
  cases h with
  | running _ _ hn => rcases getNumMessageBytes_some hn with rfl | rfl <;> decide
  | channel => split <;> decide
  | noType => decide
  | sysEx _ _ _ hl => exact hvlv (Nat.succ_pos _) hl
  | unused hm => exact hvlv (Nat.succ_pos _) hm.length
  | again hm => exact hvlv (Nat.succ_pos _) hm.length
  | record hm => exact hvlv (Nat.succ_pos _) hm.length

/-- The branch behind a failing `getNumMessageBytes` for a fresh status byte is dead. -/
theorem eventTurn_not_impossible (F : List UInt8) (s u : Scan) :
    eventTurn F s ≠ .ret .impossible u := by
  intro h
  cases EventTurn.of_eq h

theorem EventTurn.ret_progress {F : List UInt8} {s u : Scan} {e : Exit}
    (h : EventTurn F s (.ret e u)) : s.fp.pos ≤ u.fp.pos := by
  cases h with
  | deltaTime => simp only [Scan.moveTo_fp]; omega
  | noStatus hst | sysExLength hst | metaLength hst =>
    have := hst.lt
    simp only [Scan.behindMeta, Scan.moveTo_fp, metaEnd]
    omega
  | recordTell hm =>
    have := hm.lt
    simp only [Scan.behindMeta, Scan.moveTo_fp, metaEnd]
    omega

/-- No turn moves the position backwards. -/
theorem EventTurn.progress {F : List UInt8} {s : Scan} {turn : Turn} (h : EventTurn F s turn) :
    s.fp.pos ≤ turn.scan.fp.pos := by
  cases turn with
  | seek off u => exact (Nat.le_add_right _ 2).trans h.seek_progress.2
  | brk u => exact h.brk_progress
  | ret e u => exact h.ret_progress

theorem scanStep_event_progress {past : Nat → Bool} {F : List UInt8} {s t : Scan}
    (h : scanStep past F (.event s) = .inl (.event t)) :
    s.fp.pos + 2 ≤ F.length ∧ s.fp.pos + 2 ≤ t.fp.pos := by
  obtain ⟨off, u, hturn, rfl⟩ := scanStep_event_event h
  have := hturn.seek_progress
  simp only [Scan.moveTo_fp]
  omega

theorem scanStep_track_progress {past : Nat → Bool} {F : List UInt8} {s : Scan} {t : ScanState}
    (h : scanStep past F (.track s) = .inl t) :
    s.fp.pos + 4 ≤ F.length ∧ s.fp.pos + 4 ≤ t.scan.fp.pos := by
  obtain ⟨hsig, -, -, rfl⟩ := scanStep_track_inl h
  have := take_four_length hsig
  simp only [ScanState.scan, Scan.enterTrack]
  omega

/-- No step moves the position backwards. -/
theorem scanStep_pos_le {past : Nat → Bool} {F : List UInt8} {s t : ScanState}
    (h : scanStep past F s = .inl t) : s.scan.fp.pos ≤ t.scan.fp.pos := by
  cases s with
  | track s =>
    have := scanStep_track_progress h
    simp only [ScanState.scan] at this ⊢
    omega
  | event s =>
    cases t with
    | track t =>
      obtain ⟨u, hturn, rfl, -⟩ := scanStep_event_track h
      exact hturn.brk_progress
    | event t =>
      have := scanStep_event_progress h
      simp only [ScanState.scan]
      omega

theorem pos_of_reaches {past : Nat → Bool} {F : List UInt8} {s t : ScanState}
    (h : Loop.Reaches (scanStep past F) s t) : s.scan.fp.pos ≤ t.scan.fp.pos :=
  h.invariant (I := fun u => s.scan.fp.pos ≤ u.scan.fp.pos) le_rfl
    fun _ _ hle hstep => hle.trans (scanStep_pos_le hstep)

theorem scanStep_exit_pos_le {past : Nat → Bool} {F : List UInt8} {s : ScanState} {t : Scan}
    {e : Exit} (h : scanStep past F s = .inr (e, t)) : s.scan.fp.pos ≤ t.fp.pos := by
  cases s with
  | track s =>
    cases TrackTurn.of_step h with
    | short _ hpos => exact hpos
    | junk | tell | seek => exact Nat.le_add_right _ _
  | event s =>
    rw [scanStep_event_inr h]
    exact (eventTurn_spec F s).progress

/-- A turn of the event loop that stays in it. -/
def ScanState.continues : ScanState → ScanState → Bool
  | .event _, .event _ => true
  | _, _ => false

def unreadBytes (F : List UInt8) (s : ScanState) : Nat := F.length - s.scan.fp.pos

/-- A turn that stays in the event loop is paid for by two bytes. -/
theorem unreadBytes_pays {past : Nat → Bool} {F : List UInt8} {s t : ScanState}
    (h : scanStep past F s = .inl t) :
    unreadBytes F t + (if ScanState.continues s t then 2 else 0) ≤ unreadBytes F s := by
  have hle := scanStep_pos_le h
  cases s with
  | track s =>
    simp only [ScanState.continues, Bool.false_eq_true, if_false, unreadBytes]
    omega
  | event s =>
    cases t with
    | track t =>
      simp only [ScanState.continues, Bool.false_eq_true, if_false, unreadBytes]
      omega
    | event t =>
      have := scanStep_event_progress h
      simp only [ScanState.continues, if_true, unreadBytes, ScanState.scan]
      omega

/-- The scan of any file ends, it never goes back, and at most half as many turns stay in the event
loop as the file has bytes. Below 2 GiB its seeks have operands from 0 to `LONG_MAX`. -/
theorem findMetaEvents_progress (past : Nat → Bool) (F : List UInt8) (fp : Stream)
    (events : Events) :
    (∃ n, Loop.run (scanStep past F) n (scanStart events fp) =
      some (scanLoops past F (scanStart events fp))) ∧
    (F.length < 2 ^ 31 → ∀ s off u, eventTurn F s = .seek off u → off.toNat ≤ 2 ^ 31 - 1) ∧
    (∀ s u, eventTurn F s ≠ .ret .impossible u) ∧
    (∀ status n, getNumMessageBytes status = some n → (n - 1).toNat + 1 = n.toNat) ∧
    (∀ s t, scanStep past F s = .inl t → s.scan.fp.pos ≤ t.scan.fp.pos) ∧
    (∀ s e t, scanStep past F s = .inr (e, t) → s.scan.fp.pos ≤ t.fp.pos) ∧
    (∀ s t, scanStep past F (.event s) = .inl (.event t) →
      s.fp.pos + 2 ≤ F.length ∧ s.fp.pos + 2 ≤ t.fp.pos) ∧
    (∀ s t, scanStep past F (.track s) = .inl t →
      s.fp.pos + 4 ≤ F.length ∧ s.fp.pos + 4 ≤ t.scan.fp.pos) ∧
    ∀ n, 2 * Loop.count (scanStep past F) ScanState.continues n (scanStart events fp) ≤
      F.length := by
  refine ⟨?_, ?_, eventTurn_not_impossible F, ?_, fun _ _ => scanStep_pos_le,
    fun _ _ _ => scanStep_exit_pos_le, fun _ _ => scanStep_event_progress,
    fun _ _ => scanStep_track_progress, ?_⟩
  · exact ⟨_, (Option.some_get _).symm⟩
  · intro hF s off u h
    exact (EventTurn.of_eq h).seek_offset (Nat.le_of_lt_succ hF)
  · intro status n hn
    rcases getNumMessageBytes_some hn with rfl | rfl <;> decide
  · intro n
    have hpay (s t : ScanState) (h : scanStep past F s = .inl t) :
        unreadBytes F t + (if ScanState.continues s t then 2 else 0) ≤ unreadBytes F s :=
      unreadBytes_pays h
    exact (Loop.count_le hpay n _).trans (Nat.sub_le _ _)

/-! ## Where the guard of the seek is taken -/

/-- One track, with a SysEx event whose length `2 ^ 32 - 1` takes `n + 5` bytes. -/
def sysExFile (n : Nat) : List UInt8 :=
  [0x4d, 0x54, 0x68, 0x64, 0, 0, 0, 6, 0, 0, 0, 1, 0, 96, 0x4d, 0x54, 0x72, 0x6b, 0, 0, 0, 9,
    0, 0xf0] ++ (List.replicate n 0x80 ++ [0x8f, 0xff, 0xff, 0xff, 0x7f])

private theorem sysExFile_length (n : Nat) : (sysExFile n).length = n + 29 := by
  rw [sysExFile, List.length_append, List.length_append, List.length_replicate]
  exact (Nat.add_left_comm 24 n 5)

private theorem sysExLength_complete (n : Nat) :
    CompleteVlv (List.replicate n 0x80 ++ [0x8f, 0xff, 0xff, 0xff, 0x7f]) := by
  have hall : ([0x8f, 0xff, 0xff, 0xff] : List UInt8).all isCont = true := rfl
  have hlast : CompleteVlv [0x8f, 0xff, 0xff, 0xff, 0x7f] :=
    ⟨[0x8f, 0xff, 0xff, 0xff], 0x7f, rfl, List.all_eq_true.mp hall, rfl⟩
  exact hlast.prepend isCont_padding

/-- The scan comes to the event and is left at its guarded seek. -/
private theorem sysExFile_scan {n : Nat} (hlo : 2 ^ 31 ≤ n + 5) (hhi : n + 5 < 2 ^ 32)
    (past : Nat → Bool) (events : Events) :
    ∃ s u, Loop.Reaches (scanStep past (sysExFile n)) (scanStart events ⟨14, false⟩) (.event s) ∧
      eventTurn (sysExFile n) s = .seek 0xffffffff u ∧
      fseekULong past (sysExFile n) u.fp 0xffffffff .SEEK_CUR = none := by
  have hlen := sysExFile_length n
  have hlength : (sysExFile n).drop 24 =
      List.replicate n 0x80 ++ [0x8f, 0xff, 0xff, 0xff, 0x7f] := rfl
  have hrej : ¬ vlvRejected ((sysExFile n).drop 24) := by
    have haccept := not_vlvRejected_of_wrapped (sysExLength_complete n)
      (by simpa using hlo) (by simpa using hhi) []
    rwa [List.append_nil, ← hlength] at haccept
  have hval : vlvVal ((sysExFile n).drop 24) = 0xffffffff := by
    rw [hlength, vlvVal_padded]
    rfl
  obtain ⟨s, hs, hfp⟩ : ∃ s, scanStart events ⟨14, false⟩ = .track s ∧ s.fp = ⟨14, false⟩ :=
    ⟨_, rfl, rfl⟩
  have henter : scanStep past (sysExFile n) (.track s) = .inl (.event (s.enterTrack 14)) := by
    have h := scanStep_enter past (s := s) (F := sysExFile n)
    simp only [hfp] at h
    exact h rfl trivial (by omega) (by decide)
  have hstatus : StatusAt (sysExFile n) 22 23 0xf0 := by
    refine ⟨?_, rfl, rfl⟩
    have hzero : CompleteVlv [0] := ⟨[], 0, rfl, nofun, rfl⟩
    exact fun hno => (vlvRejected_append hzero (by decide) _).mp hno (by decide)
  have hturn : ∃ u, eventTurn (sysExFile n) (s.enterTrack 14) = .seek 0xffffffff u := by
    rw [eventTurn_status hstatus, statusTurn_sysEx (by decide) (by decide), sysExTurn_eq]
    simp only [Scan.moveTo_fp, hrej, if_false, hval]
    exact ⟨_, rfl⟩
  obtain ⟨u, hturn⟩ := hturn
  rw [hs]
  exact ⟨_, u, .next henter, hturn, if_pos (by decide)⟩

/-- In a file of more than 2 GiB the group counter overflows, the length is accepted, and the seek
gets an operand that a `long` cannot hold. -/
theorem findMetaEvents_progress_wrapped :
    ∃ s u, Loop.Reaches (scanStep (fun _ => true) (sysExFile (2 ^ 31 - 5)))
        (scanStart zeroedEvents ⟨14, false⟩) (.event s) ∧
      eventTurn (sysExFile (2 ^ 31 - 5)) s = .seek 0xffffffff u ∧
      ¬ (0xffffffff : ULong).toNat ≤ 2 ^ 31 - 1 ∧
      fseekULong (fun _ => true) (sysExFile (2 ^ 31 - 5)) u.fp 0xffffffff .SEEK_CUR = none := by
  obtain ⟨s, u, hreaches, hturn, hseek⟩ :=
    sysExFile_scan (n := 2 ^ 31 - 5) (by decide) (by decide) (fun _ => true) zeroedEvents
  exact ⟨s, u, hreaches, hturn, by decide, hseek⟩

end StepMid
