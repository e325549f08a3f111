import StepMid.Smf.Format
import StepMid.Smf.Records

/-!
# Extraction from well-formed files

The scan follows the structure of a well-formed file event by event and track by track, and
leaves the records that the structure prescribes.
-/

namespace StepMid

/-! ## Reading at a position -/

private theorem inside {F k l : List UInt8} {p : Nat} (h : F.drop p = k ++ l)
    (hk : k ≠ []) : p + k.length ≤ F.length := by
  have hlen := congrArg List.length h
  rw [List.length_drop, List.length_append] at hlen
  have hpos := List.length_pos_iff.mpr hk
  omega

namespace Vlv

theorem bytes_length (v : Vlv) : 1 ≤ v.bytes.length ∧ v.bytes.length ≤ 4 := by
  have := v.short
  simp only [bytes, List.length_append, List.length_singleton]
  omega

theorem bytes_short (v : Vlv) : v.bytes.length < 2 ^ 31 := by
  have := v.bytes_length
  omega

theorem accepted (v : Vlv) (l : List UInt8) : ¬ vlvRejected (v.bytes ++ l) := by
  have hcount := v.bytes_length
  rw [vlvRejected_iff (vlvCounted_append v.complete v.bytes_short l),
    vlvGroups_append_length v.complete]
  omega

theorem val_toNat (v : Vlv) (l : List UInt8) : (vlvVal (v.bytes ++ l)).toNat = v.value :=
  vlvVal_append v.complete v.bytes_short (v.accepted l)

theorem statusAt {F l : List UInt8} {p : Nat} {b : UInt8} (v : Vlv)
    (h : F.drop p = v.bytes ++ b :: l) : StatusAt F p (p + v.bytes.length) b := by
  refine ⟨?_, ?_, byte_at (drop_behind h)⟩
  · rw [h]
    exact v.accepted _
  · rw [h, (vlv_append v.complete _).1]

end Vlv

/-! ## The scan in step with the file -/

/-- The records are the ones prescribed by the meta events passed so far. -/
def Scan.Holds (s : Scan) (done : List Occurrence) : Prop :=
  ∀ i, s.baFound i = (done.find? (Occurrence.isFor i)).isSome ∧ s.events i = firstRecord done i

/-- The scan stands at the event at `pos`, behind an event that leaves `running` in effect. -/
structure Scan.At (s : Scan) (track : Nat) (trkLenOffset : Int) (pos : Nat)
    (running : Option UInt8) (done : List Occurrence) : Prop where
  fp : s.fp = ⟨pos, false⟩
  curTrack : s.curTrack = track
  trkLenOffset : s.trkLenOffset = trkLenOffset
  status : ∀ b, running = some b →
    s.runningStatus = ofByte b ∧ 128 ≤ b.toNat ∧ b.toNat < 240
  holds : s.Holds done

theorem Occurrence.isFor_iff {i : Fin META_MAX} {o : Occurrence} :
    o.isFor i = true ↔ metaIndex o.type o.track = some i := by
  rw [Occurrence.isFor, decide_eq_true_eq]
  constructor
  · intro ⟨htype, hfirst⟩
    have hty (n : UInt8) (hn : o.type.toNat = n.toNat) : o.type = n := UInt8.toNat_inj.mp hn
    match i, htype, hfirst with
    | 0, htype, _ =>
      rw [hty 1 htype]
      rfl
    | 1, htype, _ =>
      rw [hty 2 htype]
      rfl
    | 2, htype, hfirst =>
      rw [hty 3 htype, hfirst rfl]
      rfl
  · intro h
    refine ⟨metaIndex_type h, ?_⟩
    intro hseq
    subst hseq
    exact metaIndex_seqname h

theorem Occurrence.isFor_eq_false {i : Fin META_MAX} {o : Occurrence}
    (h : metaIndex o.type o.track ≠ some i) : o.isFor i = false := by
  rw [← Bool.not_eq_true, Occurrence.isFor_iff]
  exact h

namespace Scan.Holds

variable {s u : Scan} {done : List Occurrence}

theorem of_same (h : s.Holds done) (hev : u.events = s.events) (hfound : u.baFound = s.baFound) :
    u.Holds done := by
  intro i
  rw [hev, hfound]
  exact h i

/-- An event that record `i` has no use for, or comes too late for, changes nothing. -/
theorem skip {o : Occurrence} (h : s.Holds done)
    (ho : ∀ i, o.isFor i = true → s.baFound i = true) : s.Holds (done ++ [o]) := by
  intro i
  obtain ⟨hfound, hrec⟩ := h i
  rw [hfound, hrec, firstRecord, firstRecord, List.find?_append]
  cases hdone : done.find? (Occurrence.isFor i) with
  | some o' => exact ⟨rfl, rfl⟩
  | none =>
    have hno : o.isFor i = false := by
      rw [← Bool.not_eq_true]
      intro hi
      have := ho i hi
      rw [hfound, hdone] at this
      cases this
    simp [hno]

/-- The first event that record `i` has a use for is stored. -/
theorem record {o : Occurrence} {i : Fin META_MAX} (h : s.Holds done) (hi : o.isFor i = true)
    (hmissing : s.baFound i = false) : (s.store i o.record).Holds (done ++ [o]) := by
  intro j
  obtain ⟨hfound, hrec⟩ := h j
  by_cases hji : j = i
  · subst hji
    rw [hmissing] at hfound
    have hnone : done.find? (Occurrence.isFor j) = none := Option.isSome_eq_false_iff.mp
      hfound.symm |> Option.isNone_iff_eq_none.mp
    rw [store_baFound_self, store_events_self, firstRecord, List.find?_append, hnone]
    simp [hi]
  · have hno : o.isFor j = false := by
      apply Occurrence.isFor_eq_false
      rw [Occurrence.isFor_iff.mp hi]
      exact fun hij => hji (Option.some.inj hij).symm
    rw [store_baFound_ne hji, store_events_ne hji, hfound, hrec, firstRecord, firstRecord,
      List.find?_append]
    cases done.find? (Occurrence.isFor j) <;> simp [hno]

end Scan.Holds

/-! ## One event -/

theorem scanStep_seek {past : Nat → Bool} {F : List UInt8} {s u : Scan} {off : ULong}
    (hturn : eventTurn F s = .seek off u) (hsmall : F.length ≤ LONG_MAX)
    (hinside : u.fp.pos + off.toNat ≤ F.length) :
    scanStep past F (.event s) = .inl (.event (u.moveTo (u.fp.pos + off.toNat) false)) := by
  have hoff : ¬ off.toNat > LONG_MAX := by omega
  simp only [scanStep, hturn, fseekULong, if_neg hoff, fseek_cur_inside hinside]
  rfl

section Step

variable (past : Nat → Bool) {F rest : List UInt8} {s : Scan} {track pos : Nat}
  {trkLenOffset : Int} {running : Option UInt8} {done : List Occurrence} {d : Vlv}

/-- An event that the file holds lies inside it. -/
private theorem event_inside {k : List UInt8} (hF : F.drop pos = d.bytes ++ (k ++ rest)) :
    pos + (d.bytes.length + k.length) ≤ F.length := by
  have hne : d.bytes ++ k ≠ [] := by simp [Vlv.bytes]
  rw [← List.append_assoc] at hF
  have hend := inside hF hne
  rwa [List.length_append] at hend

/-- A turn that ends with a seek takes the scan to the event behind the bytes it skips. -/
private theorem seek_at {u : Scan} {off : ULong} {next : Nat} {running' : Option UInt8}
    {done' : List Occurrence} (hsmall : F.length ≤ LONG_MAX)
    (hturn : eventTurn F s = .seek off u) (hnext : u.fp.pos + off.toNat = next)
    (hinside : next ≤ F.length) (htrack : u.curTrack = track)
    (htrk : u.trkLenOffset = trkLenOffset)
    (hstatus : ∀ b, running' = some b →
      u.runningStatus = ofByte b ∧ 128 ≤ b.toNat ∧ b.toNat < 240)
    (hholds : u.Holds done') :
    ∃ t, scanStep past F (.event s) = .inl (.event t) ∧
      t.At track trkLenOffset next running' done' := by
  subst hnext
  exact ⟨_, scanStep_seek hturn hsmall hinside,
    ⟨rfl, htrack, htrk, hstatus, hholds.of_same rfl rfl⟩⟩

private theorem channel_step {status : UInt8} {data : List UInt8}
    (hs : s.At track trkLenOffset pos running done) (hok : (Event.channel status data).Ok running)
    (hF : F.drop pos = d.bytes ++ (status :: (data ++ rest))) (hsmall : F.length ≤ LONG_MAX) :
    ∃ t, scanStep past F (.event s) = .inl (.event t) ∧
      t.At track trkLenOffset (pos + (d.bytes.length + (1 + data.length))) (some status) done := by
  obtain ⟨hlo, hhi, hlen, -⟩ := hok
  have hstatus : StatusAt F s.fp.pos (pos + d.bytes.length) status := by
    rw [hs.fp]
    exact d.statusAt hF
  have hturn := eventTurn_status hstatus
  rw [statusTurn_channel hlo hhi] at hturn
  have hend := event_inside (k := status :: data) hF
  have hn : (if 192 ≤ status.toNat ∧ status.toNat < 224 then 1 else 2 : ULong).toNat =
      data.length := by
    rw [hlen, dataLength]
    split <;> rfl
  rw [List.length_cons] at hend
  apply seek_at past hsmall hturn
  · rw [hn]
    simp only [Scan.moveTo_fp]
    omega
  · omega
  · exact hs.curTrack
  · exact hs.trkLenOffset
  · intro b hb
    cases hb
    exact ⟨rfl, hlo, hhi⟩
  · exact hs.holds.of_same rfl rfl

private theorem running_step {data : List UInt8}
    (hs : s.At track trkLenOffset pos running done) (hok : (Event.running data).Ok running)
    (hF : F.drop pos = d.bytes ++ (data ++ rest)) (hsmall : F.length ≤ LONG_MAX) :
    ∃ t, scanStep past F (.event s) = .inl (.event t) ∧
      t.At track trkLenOffset (pos + (d.bytes.length + data.length)) running done := by
  obtain ⟨status, hrun, hlen, hdata⟩ := hok
  obtain ⟨hcur, hlo, hhi⟩ := hs.status status hrun
  have hbytes := getNumMessageBytes_channel hlo hhi
  obtain ⟨b, tail, rfl⟩ : ∃ b tail, data = b :: tail := by
    cases data with
    | nil =>
      rw [dataLength, List.length_nil] at hlen
      split at hlen <;> omega
    | cons b tail => exact ⟨b, tail, rfl⟩
  have hstatus : StatusAt F s.fp.pos (pos + d.bytes.length) b := by
    rw [hs.fp]
    exact d.statusAt hF
  have hturn := eventTurn_status hstatus
  rw [statusTurn_data (hdata b List.mem_cons_self)] at hturn
  simp only [Scan.moveTo_runningStatus, hcur, hbytes] at hturn
  have hend := event_inside (k := b :: tail) hF
  have hn : ((if 192 ≤ status.toNat ∧ status.toNat < 224 then 1 else 2 : ULong) - 1).toNat =
      tail.length := by
    rw [List.length_cons, dataLength] at hlen
    split at hlen <;> rename_i hcn
    · rw [if_pos hcn]
      simp; omega
    · rw [if_neg hcn]
      simp; omega
  rw [List.length_cons] at hend ⊢
  apply seek_at past hsmall hturn
  · rw [hn]
    simp only [Scan.moveTo_fp]
    omega
  · exact hend
  · exact hs.curTrack
  · exact hs.trkLenOffset
  · exact hs.status
  · exact hs.holds.of_same rfl rfl

private theorem sysEx_step {status : UInt8} {payload : Payload}
    (hs : s.At track trkLenOffset pos running done) (hok : (Event.sysEx status payload).Ok running)
    (hF : F.drop pos = d.bytes ++ (status :: (payload.length.bytes ++ (payload.data ++ rest))))
    (hsmall : F.length ≤ LONG_MAX) :
    ∃ t, scanStep past F (.event s) = .inl (.event t) ∧
      t.At track trkLenOffset (pos + (d.bytes.length + (1 + payload.bytes.length))) none done := by
  have hstatus : StatusAt F s.fp.pos (pos + d.bytes.length) status := by
    rw [hs.fp]
    exact d.statusAt hF
  have hrange : 240 ≤ status.toNat ∧ status.toNat ≠ 255 := by
    rcases hok with rfl | rfl <;> decide
  have hdrop : F.drop (pos + d.bytes.length + 1) =
      payload.length.bytes ++ (payload.data ++ rest) :=
    drop_behind (k := [status]) (drop_behind hF)
  have hturn := eventTurn_status hstatus
  rw [statusTurn_sysEx hrange.1 hrange.2, sysExTurn_eq] at hturn
  simp only [Scan.moveTo_fp, hdrop, payload.length.accepted, if_false,
    (vlv_append payload.length.complete _).1] at hturn
  rw [← List.append_assoc payload.length.bytes] at hF
  have hend := event_inside (k := status :: payload.bytes) hF
  have hn := payload.length.val_toNat (payload.data ++ rest)
  rw [payload.exact] at hn
  rw [List.length_cons, Payload.bytes, List.length_append] at hend
  rw [Payload.bytes, List.length_append]
  apply seek_at past hsmall hturn
  · rw [hn]
    simp only [Scan.moveTo_fp]
    omega
  · omega
  · exact hs.curTrack
  · exact hs.trkLenOffset
  · exact nofun
  · exact hs.holds.of_same rfl rfl

private theorem metaAt {type : UInt8} (payload : Payload)
    (hs : s.At track trkLenOffset pos running done)
    (hF : F.drop pos = d.bytes ++ (0xff :: type :: (payload.length.bytes ++ rest))) :
    MetaAt F s.fp.pos (pos + d.bytes.length) type ∧
      metaEnd F (pos + d.bytes.length) =
        pos + d.bytes.length + 2 + payload.length.bytes.length ∧
      (metaLen F (pos + d.bytes.length)).toNat = payload.data.length := by
  have hstatus : StatusAt F s.fp.pos (pos + d.bytes.length) 255 := by
    rw [hs.fp]
    exact d.statusAt hF
  have htype : F.drop (pos + d.bytes.length + 1) = type :: (payload.length.bytes ++ rest) :=
    drop_behind (k := [255]) (drop_behind hF)
  have hdrop : F.drop (pos + d.bytes.length + 2) = payload.length.bytes ++ rest :=
    drop_behind (k := [type]) htype
  refine ⟨{ hstatus with type := byte_at htype, length := ?_ }, ?_, ?_⟩
  · rw [hdrop]
    exact payload.length.accepted rest
  · rw [metaEnd, hdrop, (vlv_append payload.length.complete rest).1]
  · rw [metaLen, hdrop, payload.length.val_toNat, payload.exact]

/-- The record of a wanted event is stored unless there is one. -/
private theorem meta_turn {type : UInt8} {q : Nat} (hm : MetaAt F s.fp.pos q type)
    (hs : s.At track trkLenOffset pos running done) (htype : type ≠ 0x2f)
    (hfits : metaEnd F q ≤ LONG_MAX) :
    ∃ u, eventTurn F s = .seek (metaLen F q) u ∧ u.fp.pos = metaEnd F q ∧
      u.curTrack = track ∧ u.trkLenOffset = trkLenOffset ∧
      u.Holds (done ++ [⟨track, type, s.recordOf F q⟩]) := by
  have hturn := eventTurn_meta hm
  have hholds : (s.behindMeta F q).Holds done := hs.holds.of_same rfl rfl
  have hfor (i : Fin META_MAX) : Occurrence.isFor i ⟨track, type, s.recordOf F q⟩ = true ↔
      metaIndex type s.curTrack = some i := by
    rw [hs.curTrack]
    exact Occurrence.isFor_iff
  rw [if_neg htype] at hturn
  cases hindex : metaIndex type s.curTrack with
  | none =>
    rw [hindex] at hturn
    refine ⟨_, hturn, rfl, hs.curTrack, hs.trkLenOffset, hholds.skip ?_⟩
    intro i hi
    rw [hfor, hindex] at hi
    cases hi
  | some i =>
    rw [hindex] at hturn
    cases hfound : s.baFound i with
    | true =>
      refine ⟨_, hturn.trans (recordTurn_found (s := s.behindMeta F q) hfound _), rfl, hs.curTrack,
        hs.trkLenOffset, hholds.skip ?_⟩
      intro j hj
      rw [hfor, hindex] at hj
      cases hj
      exact hfound
    | false =>
      refine ⟨_, hturn.trans (recordTurn_store (s := s.behindMeta F q) hfound hfits _), rfl,
        hs.curTrack, hs.trkLenOffset, hholds.record ((hfor i).mpr hindex) hfound⟩

private theorem meta_step {type : UInt8} {payload : Payload}
    (hs : s.At track trkLenOffset pos running done)
    (hok : (Event.metaEvent type payload).Ok running)
    (hF : F.drop pos =
      d.bytes ++ (0xff :: type :: (payload.length.bytes ++ (payload.data ++ rest))))
    (hsmall : F.length ≤ LONG_MAX) :
    ∃ t, scanStep past F (.event s) = .inl (.event t) ∧
      t.At track trkLenOffset (pos + (d.bytes.length + (2 + payload.bytes.length))) none
        (done ++ (Event.metaEvent type payload).occurrences track trkLenOffset
          (pos + d.bytes.length)) := by
  obtain ⟨hm, hend, hlen⟩ := metaAt payload hs hF
  rw [← List.append_assoc payload.length.bytes] at hF
  have hinside := event_inside (k := 0xff :: type :: payload.bytes) hF
  rw [List.length_cons, List.length_cons, Payload.bytes, List.length_append] at hinside
  rw [Payload.bytes, List.length_append]
  obtain ⟨u, hturn, hpos, htrack, htrk, hholds⟩ := meta_turn hm hs hok (by omega)
  apply seek_at past hsmall hturn
  · rw [hpos, hend, hlen]
    omega
  · omega
  · exact htrack
  · exact htrk
  · exact nofun
  · have hrec : s.recordOf F (pos + d.bytes.length) =
        ⟨trkLenOffset, (pos + d.bytes.length + 2 + payload.length.bytes.length : Nat),
          BitVec.ofNat 32 payload.data.length⟩ := by
      rw [Scan.recordOf, hend, hs.trkLenOffset, ← hlen, BitVec.ofNat_toNat, BitVec.setWidth_eq]
    rw [hrec] at hholds
    exact hholds

/-- The scan passes a well-formed event. -/
theorem event_step {e : Event} (hs : s.At track trkLenOffset pos running done)
    (hok : e.Ok running) (hF : F.drop pos = eventBytes (d, e) ++ rest)
    (hsmall : F.length ≤ LONG_MAX) :
    ∃ t, scanStep past F (.event s) = .inl (.event t) ∧
      t.At track trkLenOffset (pos + (eventBytes (d, e)).length) (e.statusAfter running)
        (done ++ e.occurrences track trkLenOffset (pos + d.bytes.length)) := by
  rw [eventBytes, List.append_assoc] at hF
  rw [eventBytes, List.length_append]
  cases e with
  | channel status data =>
    have h := channel_step past hs hok hF hsmall
    simpa [Event.bytes, Event.statusAfter, Event.occurrences, Nat.add_comm] using h
  | running data =>
    have h := running_step past hs hok hF hsmall
    simpa [Event.bytes, Event.statusAfter, Event.occurrences] using h
  | sysEx status payload =>
    rw [Event.bytes, List.cons_append, Payload.bytes, List.append_assoc] at hF
    have h := sysEx_step past hs hok hF hsmall
    simpa [Event.bytes, Event.statusAfter, Event.occurrences, Nat.add_comm] using h
  | metaEvent type payload =>
    rw [Event.bytes, List.cons_append, List.cons_append, Payload.bytes, List.append_assoc] at hF
    have h := meta_step past hs hok hF hsmall
    have hlen : 2 + payload.bytes.length = payload.bytes.length + 1 + 1 := by omega
    rw [Event.bytes, List.length_cons, List.length_cons, ← hlen]
    exact h

end Step

/-! ## Event lists, tracks and files -/

theorem events_run (past : Nat → Bool) {F rest : List UInt8} (hsmall : F.length ≤ LONG_MAX)
    {es : List (Vlv × Event)} {s : Scan} {track pos : Nat} {trkLenOffset : Int}
    {running : Option UInt8} {done : List Occurrence}
    (hs : s.At track trkLenOffset pos running done) (hok : EventsOk running es)
    (hF : F.drop pos = es.flatMap eventBytes ++ rest) :
    ∃ t running', Loop.Reaches (scanStep past F) (.event s) (.event t) ∧
      t.At track trkLenOffset (pos + (es.flatMap eventBytes).length) running'
        (done ++ occurrences track trkLenOffset pos es) := by
  induction es generalizing s pos running done with
  | nil =>
    refine ⟨s, running, Loop.Reaches.refl _, ?_⟩
    simpa [occurrences] using hs
  | cons de es ih =>
    obtain ⟨d, e⟩ := de
    rw [List.flatMap_cons, List.append_assoc] at hF
    obtain ⟨u, hstep, hu⟩ := event_step past hs hok.1 hF hsmall
    obtain ⟨t, running', hreach, ht⟩ := ih hu hok.2 (drop_behind hF)
    refine ⟨t, running', (Loop.Reaches.next hstep).trans hreach, ?_⟩
    rw [List.flatMap_cons, List.length_append, ← Nat.add_assoc, occurrences, ← List.append_assoc]
    exact ht

/-- The End-of-Track event leaves the event loop behind its length field. -/
theorem endOfTrack_step (past : Nat → Bool) {F rest : List UInt8} {s : Scan} {t : Track}
    {track pos : Nat} {trkLenOffset : Int} {running : Option UInt8} {done : List Occurrence}
    (hs : s.At track trkLenOffset pos running done) (hF : F.drop pos = t.endBytes ++ rest) :
    ∃ u, scanStep past F (.event s) = leaveTrack u ∧ u.fp = ⟨pos + t.endBytes.length, false⟩ ∧
      u.curTrack = track ∧ u.Holds done := by
  rw [Track.endBytes, List.append_assoc, List.append_assoc] at hF
  obtain ⟨hm, hend, -⟩ :=
    metaAt { length := t.endLength, data := [], exact := t.endLength_zero } hs hF
  have hturn := eventTurn_meta hm
  rw [if_pos rfl] at hturn
  have hdrop : F.drop (pos + t.endDelta.bytes.length + 2) = t.endLength.bytes ++ rest :=
    drop_behind (k := [255, 47]) (drop_behind hF)
  refine ⟨s.behindMeta F (pos + t.endDelta.bytes.length), ?_, ?_, hs.curTrack,
    hs.holds.of_same rfl rfl⟩
  · simp only [scanStep, hturn]
  · rw [Scan.behindMeta, Scan.moveTo_fp, hend, hdrop, (vlv_append t.endLength.complete rest).2,
      hs.fp, Track.endBytes, List.length_append, List.length_append, ← Nat.add_assoc,
      ← Nat.add_assoc]
    rfl

theorem Track.bytes_drop {F rest : List UInt8} {t : Track} {pos : Nat}
    (hF : F.drop pos = t.bytes ++ rest) :
    (F.drop pos).take 4 = MTrk ∧
      F.drop (pos + 8) = t.events.flatMap eventBytes ++ (t.endBytes ++ rest) ∧
      pos + 8 ≤ F.length := by
  have hlen := t.lengthField_length
  have hF' : F.drop pos =
      (MTrk ++ t.lengthField) ++ (t.events.flatMap eventBytes ++ (t.endBytes ++ rest)) := by
    rw [hF, Track.bytes, List.append_assoc, List.append_assoc]
  have height : (MTrk ++ t.lengthField).length = 8 := by
    rw [List.length_append, hlen]
    rfl
  refine ⟨?_, ?_, ?_⟩
  · rw [hF', List.append_assoc]
    exact List.take_left' rfl
  · rw [← height]
    exact drop_behind hF'
  · rw [← height]
    exact inside hF' (by simp [MTrk])

theorem Track.bytes_length (t : Track) :
    t.bytes.length = 8 + (t.events.flatMap eventBytes).length + t.endBytes.length := by
  have hlen := t.lengthField_length
  have hfour : MTrk.length = 4 := rfl
  rw [Track.bytes, List.length_append, List.length_append, List.length_append, hlen, hfour]

/-- A whole track chunk is passed from its signature to the end of its last event. -/
theorem track_run (past : Nat → Bool) {F rest : List UInt8} (hsmall : F.length ≤ LONG_MAX)
    {s : Scan} {t : Track} {pos : Nat} {done : List Occurrence} (hfp : s.fp = ⟨pos, false⟩)
    (hs : s.Holds done) (hF : F.drop pos = t.bytes ++ rest) :
    ∃ u v, Loop.Reaches (scanStep past F) (.track s) (.event u) ∧
      scanStep past F (.event u) = leaveTrack v ∧ v.fp = ⟨pos + t.bytes.length, false⟩ ∧
      v.curTrack = s.curTrack ∧ v.Holds (done ++ t.occurrences s.curTrack pos) := by
  obtain ⟨hsig, hdrop, hinside⟩ := Track.bytes_drop hF
  have henter : scanStep past F (.track s) = .inl (.event (s.enterTrack pos)) := by
    have h := scanStep_enter past (s := s) (F := F)
    simp only [hfp] at h
    exact h hsig trivial hinside (by omega)
  have hat : (s.enterTrack pos).At s.curTrack (pos + 4 : Nat) (pos + 8) none done :=
    ⟨rfl, rfl, rfl, nofun, hs.of_same rfl rfl⟩
  obtain ⟨u, running, hreach, hu⟩ := events_run past hsmall hat t.events_ok hdrop
  obtain ⟨v, hstep, hvfp, hvtrack, hv⟩ := endOfTrack_step past hu (drop_behind hdrop)
  refine ⟨u, v, (Loop.Reaches.next henter).trans hreach, hstep, ?_, hvtrack, hv⟩
  rw [hvfp, t.bytes_length]
  congr 1
  omega

theorem occurrences_track (track : Nat) (trkLenOffset : Int) (pos : Nat)
    (es : List (Vlv × Event)) : ∀ o ∈ occurrences track trkLenOffset pos es, o.track = track := by
  induction es generalizing pos with
  | nil => simp [occurrences]
  | cons de es ih =>
    intro o ho
    rw [occurrences, List.mem_append] at ho
    rcases ho with ho | ho
    · cases hde : de.2 <;> simp [Event.occurrences, hde] at ho
      rw [ho]
    · exact ih _ o ho

theorem trackOccurrences_track (track pos : Nat) (ts : List Track) :
    ∀ o ∈ trackOccurrences track pos ts, track ≤ o.track := by
  induction ts generalizing track pos with
  | nil => simp [trackOccurrences]
  | cons t ts ih =>
    intro o ho
    rw [trackOccurrences, List.mem_append] at ho
    rcases ho with ho | ho
    · exact (occurrences_track _ _ _ _ o ho).ge
    · exact (Nat.le_succ _).trans (ih _ _ o ho)

/-- Once the text and the copyright are found, later tracks have nothing to add. -/
theorem firstRecord_early {done later : List Occurrence}
    (hcomment : (done.find? (Occurrence.isFor META_COMMENT)).isSome = true)
    (hcopyright : (done.find? (Occurrence.isFor META_COPYRIGHT)).isSome = true)
    (hlater : ∀ o ∈ later, 0 < o.track) (i : Fin META_MAX) :
    firstRecord (done ++ later) i = firstRecord done i := by
  rw [firstRecord, firstRecord, List.find?_append]
  match i with
  | 0 =>
    obtain ⟨o, ho⟩ := Option.isSome_iff_exists.mp hcomment
    rw [ho]
    rfl
  | 1 =>
    obtain ⟨o, ho⟩ := Option.isSome_iff_exists.mp hcopyright
    rw [ho]
    rfl
  | 2 =>
    have hnone : later.find? (Occurrence.isFor META_SEQNAME) = none := by
      rw [List.find?_eq_none]
      intro o ho hfor
      rw [Occurrence.isFor, decide_eq_true_eq] at hfor
      have := hlater o ho
      have := hfor.2 rfl
      omega
    rw [hnone, Option.or_none]

/-- From the head of the track loop on, the scan accepts the rest of a well-formed file. -/
theorem tracks_run (past : Nat → Bool) {F trailing : List UInt8} (hsmall : F.length ≤ LONG_MAX)
    (hjunk : trailing.take 4 ≠ MTrk) {ts : List Track} {s : Scan} {pos : Nat}
    {done : List Occurrence} (hfp : s.fp = ⟨pos, false⟩) (hs : s.Holds done)
    (hF : F.drop pos = ts.flatMap Track.bytes ++ trailing) :
    ∃ e u, Loop.Yields (scanStep past F) (.track s) (e, u) ∧ e.code = 0 ∧
      ∀ i, u.events i = firstRecord (done ++ trackOccurrences s.curTrack pos ts) i := by
  induction ts generalizing s pos done with
  | nil =>
    have hsig : (F.drop s.fp.pos).take 4 ≠ MTrk := by
      rw [hfp, hF]
      exact hjunk
    cases hexit : scanStep past F (.track s) with
    | inl t => exact absurd (scanStep_track_inl hexit).1 hsig
    | inr r =>
      refine ⟨r.1, r.2, Loop.Yields.exit hexit, ?_⟩
      rw [trackOccurrences, List.append_nil]
      cases TrackTurn.of_step hexit with
      | short | junk => exact ⟨rfl, fun i => (hs i).2⟩
      | tell h | seek h => exact absurd h hsig
  | cons t ts ih =>
    rw [List.flatMap_cons, List.append_assoc] at hF
    obtain ⟨u, v, hreach, hleave, hvfp, hvtrack, hv⟩ := track_run past hsmall hfp hs hF
    rw [trackOccurrences, ← List.append_assoc]
    by_cases hall : v.baFound META_COMMENT = true ∧ v.baFound META_COPYRIGHT = true
    · have hexit : scanStep past F (.event u) = .inr (.foundAll, v) :=
        hleave.trans (leaveTrack_foundAll hall)
      refine ⟨.foundAll, v, Loop.Yields.of_reaches hreach (Loop.Yields.exit hexit), rfl, ?_⟩
      intro i
      rw [(hv i).2]
      symm
      apply firstRecord_early
      · exact (hv META_COMMENT).1.symm.trans hall.1
      · exact (hv META_COPYRIGHT).1.symm.trans hall.2
      · intro o ho
        exact Nat.lt_of_lt_of_le (Nat.succ_pos _) (trackOccurrences_track _ _ _ o ho)
    · have hnext : scanStep past F (.event u) =
          .inl (.track { v with curTrack := v.curTrack + 1 }) :=
        hleave.trans (leaveTrack_next hall)
      obtain ⟨e, w, hyields, he, hw⟩ := ih (s := { v with curTrack := v.curTrack + 1 }) hvfp
        (hv.of_same rfl rfl) (drop_behind hF)
      refine ⟨e, w, Loop.Yields.of_reaches (hreach.trans (Loop.Reaches.next hnext)) hyields, he, ?_⟩
      rw [hvtrack] at hw
      exact hw

private theorem header_bytes (m : Smf) : (MThd ++ [0, 0, 0, 6] ++ m.header).length = 14 := by
  rw [List.length_append, m.header_length]
  rfl

theorem Smf.bytes_drop (m : Smf) :
    m.bytes.drop 14 = m.tracks.flatMap Track.bytes ++ m.trailing := by
  rw [Smf.bytes, List.append_assoc (_ ++ m.header), List.drop_left' (header_bytes m)]

theorem Smf.bytes_length (m : Smf) :
    m.bytes.length = 14 + (m.tracks.flatMap Track.bytes).length + m.trailing.length := by
  rw [Smf.bytes, List.length_append, List.length_append, header_bytes]

theorem Smf.headerOk (m : Smf) (past : Nat → Bool) : HeaderOk past m.bytes := by
  refine ⟨?_, Or.inl ?_⟩
  · rw [Smf.bytes, List.append_assoc, List.append_assoc, List.append_assoc]
    exact List.take_left' rfl
  · rw [m.bytes_length]
    omega

/-- The loops over the whole file end well, with the records of its occurrences. -/
theorem Smf.scanLoops_eq (m : Smf) (past : Nat → Bool) (hsize : m.bytes.length < 2 ^ 31) :
    ∃ e u, scanLoops past m.bytes (scanStart zeroedEvents ⟨14, false⟩) = (e, u) ∧ e.code = 0 ∧
      u.events = firstRecord m.occurrences := by
  have hsmall : m.bytes.length ≤ LONG_MAX := by
    rw [LONG_MAX]
    omega
  have hstart : Scan.Holds (scanStart zeroedEvents ⟨14, false⟩).scan [] := fun i => ⟨rfl, rfl⟩
  obtain ⟨e, u, hyields, he, hu⟩ :=
    tracks_run past hsmall m.trailing_junk rfl hstart m.bytes_drop
  exact ⟨e, u, StepMid.scanLoops_eq hyields, he, funext hu⟩

/-- Every well-formed file below 2 GiB is accepted, and the array holds the first text and the
first copyright notice of the file and the first name of its first track. -/
theorem findMetaEvents_extracts (past : Nat → Bool) (m : Smf) (hsize : m.bytes.length < 2 ^ 31) :
    (findMetaEvents past m.bytes .start zeroedEvents).ret = 0 ∧
      (findMetaEvents past m.bytes .start zeroedEvents).events = firstRecord m.occurrences := by
  obtain ⟨e, u, hloops, he, hu⟩ := m.scanLoops_eq past hsize
  rw [findMetaEvents_header (m.headerOk past), hloops]
  exact ⟨he, hu⟩

/-- A value below 128 in its one-byte form. -/
def Vlv.single (n : Fin 128) : Vlv where
  lead := []
  last := UInt8.ofNat n.val
  short := by decide
  lead_high := by simp
  last_low := by
    rw [isCont_eq_false_iff, UInt8.toNat_ofNat']
    have := n.isLt
    omega

/-- A note with its release under running status and a text. -/
def noteAndText : List (Vlv × Event) :=
  [(.single 0, .channel 0x90 [60, 64]),
    (.single 96, .running [60, 0]),
    (.single 0, .metaEvent 1 ⟨.single 2, [0x68, 0x69], rfl⟩)]

theorem noteAndText_ok : EventsOk none noteAndText := by
  simp [noteAndText, EventsOk, Event.Ok, Event.DataOk, Event.statusAfter, dataLength]

/-- A copyright notice. -/
def copyrightOnly : List (Vlv × Event) := [(.single 0, .metaEvent 2 ⟨.single 1, [0x63], rfl⟩)]

theorem copyrightOnly_ok : EventsOk none copyrightOnly := by
  simp [copyrightOnly, EventsOk, Event.Ok]

def twoTracks : Smf where
  header := [0, 1, 0, 2, 1, 0xe0]
  tracks :=
    [{ lengthField := [0, 0, 0, 17]
       events := noteAndText
       endDelta := .single 0
       endLength := .single 0
       lengthField_length := rfl
       events_ok := noteAndText_ok
       endLength_zero := rfl },
      { lengthField := [0, 0, 0, 9]
        events := copyrightOnly
        endDelta := .single 0
        endLength := .single 0
        lengthField_length := rfl
        events_ok := copyrightOnly_ok
        endLength_zero := rfl }]
  trailing := []
  header_length := rfl
  trailing_junk := (List.cons_ne_nil _ _).symm

theorem findMetaEvents_extracts_twoTracks :
    twoTracks.bytes.length < 2 ^ 31 ∧
      (findMetaEvents (fun _ => true) twoTracks.bytes .start zeroedEvents).ret = 0 ∧
      (findMetaEvents (fun _ => true) twoTracks.bytes .start zeroedEvents).events =
        firstRecord twoTracks.occurrences ∧
      firstRecord twoTracks.occurrences META_COMMENT = ⟨18, 33, 2⟩ ∧
      firstRecord twoTracks.occurrences META_COPYRIGHT = ⟨43, 51, 1⟩ ∧
      firstRecord twoTracks.occurrences META_SEQNAME = ⟨0, -1, 0⟩ := by
  have hsize : twoTracks.bytes.length < 2 ^ 31 := by decide
  have h := findMetaEvents_extracts (fun _ => true) twoTracks hsize
  exact ⟨hsize, h.1, h.2, by decide, by decide, by decide⟩

end StepMid
