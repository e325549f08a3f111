import StepMid.Load.StepLoad
import StepMid.Smf.Extraction

/-!
# Loading a well-formed file

The payloads of a well-formed file are inside the file, so a host on which nothing fails loads it.
-/

namespace StepMid

/-- The payload ends at or before `n`. -/
def MetaEvent.EndsBy (r : MetaEvent) (n : Nat) : Prop := r.offset.toNat + r.length.toNat ≤ n

theorem Event.endsBy {e : Event} {track pos : Nat} {trkLenOffset : Int} {o : Occurrence}
    (ho : o ∈ e.occurrences track trkLenOffset pos) : o.record.EndsBy (pos + e.bytes.length) := by
  cases e with
  | channel | running | sysEx => cases ho
  | metaEvent type payload =>
    cases List.mem_singleton.mp ho
    have hle := Nat.mod_le payload.data.length (2 ^ 32)
    simp only [MetaEvent.EndsBy, Int.toNat_natCast, BitVec.toNat_ofNat, Event.bytes, Payload.bytes,
      List.length_cons, List.length_append]
    omega

theorem occurrences_endsBy {track : Nat} {trkLenOffset : Int} {o : Occurrence} {pos : Nat}
    {es : List (Vlv × Event)} (ho : o ∈ occurrences track trkLenOffset pos es) :
    o.record.EndsBy (pos + (es.flatMap eventBytes).length) := by
  induction es generalizing pos with
  | nil => cases ho
  | cons de es ih =>
    obtain ⟨d, e⟩ := de
    have hlen : (eventBytes (d, e)).length = d.bytes.length + e.bytes.length :=
      List.length_append ..
    rw [List.flatMap_cons, List.length_append]
    rcases List.mem_append.mp ho with ho | ho
    · have hend := Event.endsBy ho
      rw [MetaEvent.EndsBy] at hend ⊢
      omega
    · have hend := ih ho
      rw [MetaEvent.EndsBy] at hend ⊢
      omega

theorem trackOccurrences_endsBy {o : Occurrence} {track pos : Nat} {ts : List Track}
    (ho : o ∈ trackOccurrences track pos ts) :
    o.record.EndsBy (pos + (ts.flatMap Track.bytes).length) := by
  induction ts generalizing track pos with
  | nil => cases ho
  | cons t ts ih =>
    rw [List.flatMap_cons, List.length_append]
    rcases List.mem_append.mp ho with ho | ho
    · have hend := occurrences_endsBy ho
      have hlen := t.bytes_length
      rw [MetaEvent.EndsBy] at hend ⊢
      omega
    · have hend := ih ho
      rw [MetaEvent.EndsBy] at hend ⊢
      omega

theorem Smf.endsBy {m : Smf} {o : Occurrence} (ho : o ∈ m.occurrences) :
    o.record.EndsBy m.bytes.length := by
  have hend := trackOccurrences_endsBy ho
  have hlen := m.bytes_length
  rw [MetaEvent.EndsBy] at hend ⊢
  omega

/-- An absent record is empty. -/
theorem firstRecord_endsBy (m : Smf) (i : Fin META_MAX) :
    (firstRecord m.occurrences i).length = 0 ∨
      (firstRecord m.occurrences i).EndsBy m.bytes.length := by
  rw [firstRecord]
  cases hfind : m.occurrences.find? (Occurrence.isFor i) with
  | none => exact Or.inl rfl
  | some o => exact Or.inr (Smf.endsBy (List.mem_of_find?_eq_some hfind))

/-! ## The load -/

/-- The allocations and the conversions of the load succeed, for all texts that an `int` counts. -/
structure Host.Obliges (host : Host) (build : Build) : Prop where
  heapBuf : ∀ size < 2 ^ 31, (host.heapBuf size).isSome = true
  convert : build = .STEP_K → ∀ i text, text.length + 1 < 2 ^ 31 → ∀ limit,
    (host.convert i text).Succeeds limit

theorem textOf_length (F : List UInt8) (r : MetaEvent) : (textOf F r).length ≤ r.localLength := by
  rw [textOf, Buffer.cstr]
  exact (List.takeWhile_prefix _).length_le.trans (List.length_take_le ..)

theorem deliverable_of_endsBy {build : Build} {host : Host} (hhost : host.Obliges build)
    {F : List UInt8} {events : Events} {i : Fin META_MAX} (hend : (events i).EndsBy F.length)
    (limit : Int) : Deliverable build host F events i limit := by
  refine ⟨?_, fun hbuild => hhost.convert hbuild i _ ?_ limit⟩
  · rw [MetaEvent.EndsBy] at hend
    rw [MetaEvent.localLength]
    omega
  · have hlen := textOf_length F (events i)
    rw [MetaEvent.localLength] at hlen
    omega

theorem Smf.accepted (m : Smf) (host : Host) (hsize : m.bytes.length < 2 ^ 31) :
    (findMetaEvents host.past m.bytes .start zeroedEvents).ret = 0 ∧
      scanEvents host m.bytes = firstRecord m.occurrences := by
  obtain ⟨e, u, hloops, hcode, hu⟩ := m.scanLoops_eq host.past hsize
  rw [scanEvents, findMetaEvents_header (m.headerOk host.past), hloops]
  exact ⟨hcode, hu⟩

/-- Without its data, a thread loads none of them. -/
theorem STEPLoad_noData (build : Build) (host : Host) (nFileTypeMID : UInt32) {m : Smf}
    (hsize : m.bytes.length < 2 ^ 31) (info : FILE_INFO) :
    STEPLoad build host nFileTypeMID none (some m.bytes) info =
      .ok (.make info .STEP_ERROR []) := by
  simp only [STEPLoad, (m.accepted host hsize).1, if_true, readMetaEvent]
  rfl

/-- On such a host every thread with its data loads every well-formed file. -/
theorem STEPLoad_wellFormed (build : Build) {host : Host} (hhost : host.Obliges build)
    (nFileTypeMID : UInt32) (data : TlsData) {m : Smf} (hsize : m.bytes.length < 2 ^ 31)
    (info : FILE_INFO) :
    ∃ r, STEPLoad build host nFileTypeMID (some data) (some m.bytes) info = .ok r ∧
      r.ret = .STEP_SUCCESS := by
  obtain ⟨hscan, hevents⟩ := m.accepted host hsize
  have hready : LoadReady host (some data) m.bytes := ⟨hscan, rfl, .of_grants hhost.heapBuf _⟩
  have hall : (deliveredAll build host m.bytes (scanEvents host m.bytes)).2 = true := by
    refine delivered_all (fun i _ hpresent => deliverable_of_endsBy hhost ?_) _
    rw [hevents] at hpresent ⊢
    exact (firstRecord_endsBy m i).resolve_left hpresent
  obtain ⟨r, hr, hout⟩ := STEPLoad_spec build host nFileTypeMID (some data) (some m.bytes) info
  refine ⟨r, hr, ?_⟩
  cases hout with
  | unknownFormat hno => exact absurd hscan hno
  | notReady _ hno => exact absurd hready hno
  | undelivered _ hfail =>
    rw [hall] at hfail
    cases hfail
  | success => rfl

end StepMid
