import StepMid.Load.Record
import StepMid.Load.Exact

/-!
# What a well-formed file says

The meta events of a well-formed file, without their positions, determine what a load makes of a
record.
-/

namespace StepMid

/-- A meta event: the number of its track, its type and its data. -/
structure Remark where
  track : Nat
  type : UInt8
  data : List UInt8

def Event.remarks (track : Nat) : Event → List Remark
  | metaEvent type payload => [⟨track, type, payload.data⟩]
  | channel _ _ | running _ | sysEx _ _ => []

def Track.remarks (t : Track) (track : Nat) : List Remark :=
  t.events.flatMap fun e => e.2.remarks track

/-- The meta events of consecutive tracks. -/
def trackRemarks : Nat → List Track → List Remark
  | _, [] => []
  | track, t :: ts => t.remarks track ++ trackRemarks (track + 1) ts

def Smf.remarks (m : Smf) : List Remark := trackRemarks 0 m.tracks

/-- Type 1 is a text, type 2 a copyright notice and type 3, on the first track, the name. -/
def Remark.isFor (i : Fin META_MAX) (e : Remark) : Bool :=
  e.type.toNat = i.val + 1 ∧ (i = META_SEQNAME → e.track = 0)

/-- The data of the first event for `i`, up to its first null; an event without data hides the
ones behind it. -/
def Smf.text (m : Smf) (i : Fin META_MAX) : Option (List UInt8) :=
  match m.remarks.find? (Remark.isFor i) with
  | none => none
  | some e => if e.data = [] then none else some (Buffer.cstr e.data)

/-- The record that a load leaves behind. -/
def Smf.fill (m : Smf) (build : Build) (codePage : List UInt8 → List UInt16)
    (nFileTypeMID : UInt32) (info : FILE_INFO) : FILE_INFO where
  value
    | .FIELD_COMMENT =>
      ((m.text META_COMMENT).map (handed build codePage)).getD (info.value .FIELD_COMMENT)
    | .FIELD_ARTIST_NAME =>
      ((m.text META_COPYRIGHT).map (handed build codePage)).getD (info.value .FIELD_ARTIST_NAME)
    | .FIELD_TRACK_NAME =>
      ((m.text META_SEQNAME).map (handed build codePage)).getD (info.value .FIELD_TRACK_NAME)
    | .FILED_FILE_TYPE_NAME => tchar build [0x4d, 0x49, 0x44, 0x49]
  format := nFileTypeMID

theorem Smf.fill_metaField (m : Smf) (build : Build) (codePage : List UInt8 → List UInt16)
    (nFileTypeMID : UInt32) (info : FILE_INFO) (i : Fin META_MAX) :
    (m.fill build codePage nFileTypeMID info).value (metaField i) =
      ((m.text i).map (handed build codePage)).getD (info.value (metaField i)) := by
  match i with
  | 0 | 1 | 2 => rfl

/-! ## Records and what they stand for -/

/-- The record of the occurrence leads to the data of the event. -/
structure Occurrence.Of (F : List UInt8) (o : Occurrence) (e : Remark) : Prop where
  track : o.track = e.track
  type : o.type = e.type
  length : o.record.length.toNat = e.data.length
  behind : 2 ≤ o.record.offset.toNat
  data : (F.drop o.record.offset.toNat).take e.data.length = e.data

theorem Occurrence.Of.isFor {F : List UInt8} {o : Occurrence} {e : Remark} (h : o.Of F e)
    (i : Fin META_MAX) : o.isFor i = e.isFor i := by
  rw [Occurrence.isFor, Remark.isFor, h.track, h.type]

section

variable {F : List UInt8}

private theorem event_of (hsize : F.length < 2 ^ 32) {e : Event} {rest : List UInt8} {pos : Nat}
    (hF : F.drop pos = e.bytes ++ rest) (track : Nat) (trkLenOffset : Int) :
    List.Forall₂ (Occurrence.Of F) (e.occurrences track trkLenOffset pos) (e.remarks track) := by
  cases e with
  | channel | running | sysEx => exact .nil
  | metaEvent type payload =>
    have hdata : F.drop (pos + 2 + payload.length.bytes.length) = payload.data ++ rest := by
      rw [Event.bytes, Payload.bytes, List.cons_append, List.cons_append, List.append_assoc] at hF
      exact drop_behind (drop_behind (k := [0xff, type]) hF)
    have hlen : payload.data.length < 2 ^ 32 := by
      have hle := congrArg List.length hdata
      rw [List.length_drop, List.length_append] at hle
      omega
    refine .cons ⟨rfl, rfl, ?_, ?_, ?_⟩ .nil
    · exact Nat.mod_eq_of_lt hlen
    · rw [Int.toNat_natCast]
      omega
    · rw [Int.toNat_natCast, hdata]
      exact List.take_left' rfl

private theorem events_of (hsize : F.length < 2 ^ 32) {es : List (Vlv × Event)}
    {rest : List UInt8} {pos : Nat} (hF : F.drop pos = es.flatMap eventBytes ++ rest)
    (track : Nat) (trkLenOffset : Int) :
    List.Forall₂ (Occurrence.Of F) (occurrences track trkLenOffset pos es)
      (es.flatMap fun e => e.2.remarks track) := by
  induction es generalizing pos with
  | nil => exact .nil
  | cons de es ih =>
    obtain ⟨d, e⟩ := de
    rw [List.flatMap_cons, List.append_assoc] at hF
    have hrest := drop_behind hF
    rw [eventBytes, List.append_assoc] at hF
    exact List.rel_append (event_of hsize (drop_behind hF) track trkLenOffset) (ih hrest)

private theorem tracks_of (hsize : F.length < 2 ^ 32) {ts : List Track} {rest : List UInt8}
    {pos : Nat} (hF : F.drop pos = ts.flatMap Track.bytes ++ rest) (track : Nat) :
    List.Forall₂ (Occurrence.Of F) (trackOccurrences track pos ts) (trackRemarks track ts) := by
  induction ts generalizing pos track with
  | nil => exact .nil
  | cons t ts ih =>
    rw [List.flatMap_cons, List.append_assoc] at hF
    obtain ⟨-, hevents, -⟩ := Track.bytes_drop hF
    exact List.rel_append (events_of hsize hevents track _) (ih (drop_behind hF) _)

private theorem find?_of {os : List Occurrence} {es : List Remark}
    (h : List.Forall₂ (Occurrence.Of F) os es) (i : Fin META_MAX) :
    Option.Rel (Occurrence.Of F) (os.find? (Occurrence.isFor i)) (es.find? (Remark.isFor i)) := by
  induction h with
  | nil => exact .none
  | @cons o e os es ho _ ih =>
    rw [List.find?_cons, List.find?_cons, ho.isFor i]
    cases e.isFor i with
    | true => exact .some ho
    | false => exact ih

end

/-- The data of an event in a file below 2 GiB is read in full. -/
private theorem textOf_of {F : List UInt8} (hsize : F.length < 2 ^ 31) {o : Occurrence}
    {e : Remark} (h : o.Of F e) : textOf F o.record = Buffer.cstr e.data := by
  have hbehind := h.behind
  have hlen := congrArg List.length h.data
  rw [List.length_take, List.length_drop] at hlen
  have hlocal : o.record.localLength = e.data.length := by
    rw [MetaEvent.localLength, h.length]
    omega
  rw [textOf, hlocal, h.data]

/-- The record for `i` leads to the data of the first event for `i`. -/
theorem Smf.firstRecord_text (m : Smf) (hsize : m.bytes.length < 2 ^ 31) (i : Fin META_MAX) :
    m.text i = if (firstRecord m.occurrences i).length = 0 then none
      else some (textOf m.bytes (firstRecord m.occurrences i)) := by
  have hfind := find?_of (tracks_of (by omega) m.bytes_drop 0) i
  rw [firstRecord, text, remarks, Smf.occurrences]
  cases hos : (trackOccurrences 0 14 m.tracks).find? (Occurrence.isFor i) with
  | none =>
    rw [hos] at hfind
    cases hes : (trackRemarks 0 m.tracks).find? (Remark.isFor i) with
    | none => rfl
    | some e =>
      rw [hes] at hfind
      cases hfind
  | some o =>
    rw [hos] at hfind
    cases hes : (trackRemarks 0 m.tracks).find? (Remark.isFor i) with
    | none =>
      rw [hes] at hfind
      cases hfind
    | some e =>
      rw [hes] at hfind
      cases hfind with
      | some ho =>
        have hempty : o.record.length = 0 ↔ e.data = [] := by
          rw [← List.length_eq_zero_iff, ← ho.length, ← BitVec.toNat_inj]
          rfl
        simp only [hempty, textOf_of hsize ho]

/-! ## The load -/

private theorem filter_delivered {build : Build} {host : Host} {F : List UInt8} {events : Events}
    {is : List (Fin META_MAX)}
    (h : ∀ i ∈ is, (events i).length ≠ 0 → ∀ limit, Deliverable build host F events i limit)
    (limit : Int) :
    (delivered build host F events limit is).1 = is.filter fun i => (events i).length ≠ 0 := by
  induction is generalizing limit with
  | nil => rfl
  | cons i is ih =>
    have hrest := ih fun j hj => h j (List.mem_cons_of_mem i hj)
    rw [delivered]
    by_cases habsent : (events i).length = 0
    · rw [if_pos habsent, hrest, List.filter_cons_of_neg (by simpa using habsent)]
    · rw [if_neg habsent, if_pos (h i List.mem_cons_self habsent limit),
        List.filter_cons_of_pos (by simpa using habsent)]
      exact congrArg (List.cons i) (hrest _)

/-- On a host where nothing fails, a load hands over what the file says. -/
private theorem Smf.delivers (m : Smf) {build : Build} {host : Host} (hhost : host.Obliges build)
    (nFileTypeMID : UInt32) (data : TlsData) (hsize : m.bytes.length < 2 ^ 31)
    (codePage : List UInt8 → List UInt16) :
    (∀ i, Request.text build codePage ⟨nFileTypeMID, host, some data, some m.bytes⟩ i =
      (m.text i).map (handed build codePage)) ∧
    (Request.delivered build ⟨nFileTypeMID, host, some data, some m.bytes⟩).2 = true := by
  obtain ⟨hscan, hevents⟩ := m.accepted host hsize
  have hready : LoadReady host (some data) m.bytes := ⟨hscan, rfl, .of_grants hhost.heapBuf _⟩
  have hdel : ∀ i ∈ List.finRange META_MAX, (scanEvents host m.bytes i).length ≠ 0 →
      ∀ limit, Deliverable build host m.bytes (scanEvents host m.bytes) i limit := by
    intro i _ hpresent
    apply deliverable_of_endsBy hhost
    rw [hevents] at hpresent ⊢
    exact (firstRecord_endsBy m i).resolve_left hpresent
  refine ⟨?_, ?_⟩
  · intro i
    have hmem : i ∈ (Request.delivered build ⟨nFileTypeMID, host, some data, some m.bytes⟩).1 ↔
        (firstRecord m.occurrences i).length ≠ 0 := by
      simp only [Request.delivered, hready, if_true, deliveredAll]
      rw [filter_delivered hdel, List.mem_filter, hevents, decide_eq_true_eq]
      exact and_iff_right (List.mem_finRange i)
    rw [Request.text, m.firstRecord_text hsize i]
    by_cases habsent : (firstRecord m.occurrences i).length = 0
    · rw [if_neg fun h => hmem.mp h habsent, if_pos habsent]
      rfl
    · rw [if_pos (hmem.mpr habsent), if_neg habsent, Request.handedText]
      dsimp only [Option.getD_some]
      rw [hevents, Option.map_some]
  · simp only [Request.delivered, hready, if_true]
    exact delivered_all hdel _

/-- On a host where nothing fails, the load of a well-formed file fills in the record as the file
says, independently of how the file is written down. -/
theorem STEPLoad_record (build : Build) {host : Host} (hhost : host.Obliges build)
    {codePage : List UInt8 → List UInt16} (hconv : build = .STEP_K → host.Converts codePage)
    (nFileTypeMID : UInt32) (data : TlsData) {m : Smf} (hsize : m.bytes.length < 2 ^ 31)
    (info : FILE_INFO) :
    ∃ r, STEPLoad build host nFileTypeMID (some data) (some m.bytes) info = .ok r ∧
      r.ret = .STEP_SUCCESS ∧ r.info = m.fill build codePage nFileTypeMID info := by
  obtain ⟨htexts, hall⟩ := m.delivers hhost nFileTypeMID data hsize codePage
  have hload := Request.load_calls (q := ⟨nFileTypeMID, host, some data, some m.bytes⟩) hconv info
  obtain ⟨htext, htype, hformat⟩ :=
    Request.apply_calls build codePage ⟨nFileTypeMID, host, some data, some m.bytes⟩ info
  rw [if_pos hall] at htype hformat
  refine ⟨_, hload, Request.status_success hall, ?_⟩
  simp only [LoadReturn.make]
  apply FILE_INFO.ext _ hformat
  intro nField
  rcases metaField_cases nField with ⟨i, rfl⟩ | rfl
  · rw [m.fill_metaField, ← htexts]
    exact htext i
  · exact htype

theorem STEPLoad_record_twoTracks :
    ∃ r, STEPLoad .STEP_K plainHost 7 (some .zeroed) (some twoTracks.bytes) blankInfo = .ok r ∧
      r.ret = .STEP_SUCCESS ∧ r.info.value .FIELD_COMMENT = .wide [0x68, 0x69] ∧
      r.info.value .FIELD_TRACK_NAME = .narrow [] := by
  obtain ⟨r, hload, hret, hinfo⟩ := STEPLoad_record .STEP_K (plainHost_obliges .STEP_K)
    (fun _ => plainHost_converts) 7 .zeroed (m := twoTracks) (by decide) blankInfo
  refine ⟨r, hload, hret, ?_, ?_⟩
  · rw [hinfo]
    decide
  · rw [hinfo]
    decide

end StepMid
