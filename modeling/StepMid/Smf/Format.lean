import StepMid.Smf.Scan

/-!
# Standard MIDI files

Well-formed files as data: a header, track chunks with their events, and trailing bytes. The
positions of their meta events are computed from this structure and not by scanning bytes.
-/

namespace StepMid

/-- A delta-time or length of one to four bytes. -/
structure Vlv where
  lead : List UInt8
  last : UInt8
  short : lead.length ≤ 3
  lead_high : ∀ b ∈ lead, isCont b = true
  last_low : isCont last = false

namespace Vlv

def bytes (v : Vlv) : List UInt8 := v.lead ++ [v.last]

def value (v : Vlv) : Nat := vlvValue v.bytes

theorem complete (v : Vlv) : CompleteVlv v.bytes :=
  ⟨v.lead, v.last, rfl, v.lead_high, v.last_low⟩

end Vlv

/-- Data bytes that follow a channel status: one for Cn and Dn, two otherwise. -/
def dataLength (status : UInt8) : Nat :=
  if 0xc0 ≤ status.toNat ∧ status.toNat < 0xe0 then 1 else 2

/-- A length with the bytes it announces. -/
structure Payload where
  length : Vlv
  data : List UInt8
  exact : length.value = data.length

def Payload.bytes (p : Payload) : List UInt8 := p.length.bytes ++ p.data

inductive Event
  | channel (status : UInt8) (data : List UInt8)
  | running (data : List UInt8)
  | sysEx (status : UInt8) (payload : Payload)
  | metaEvent (type : UInt8) (payload : Payload)

namespace Event

def bytes : Event → List UInt8
  | channel status data => status :: data
  | running data => data
  | sysEx status payload => status :: payload.bytes
  | metaEvent type payload => 0xff :: type :: payload.bytes

/-- The data bytes of a channel message with the given status. -/
def DataOk (status : UInt8) (data : List UInt8) : Prop :=
  data.length = dataLength status ∧ ∀ b ∈ data, b.toNat < 0x80

/-- An event is well formed behind an event that leaves the status `running` in effect. -/
def Ok (running : Option UInt8) : Event → Prop
  | channel status data => 0x80 ≤ status.toNat ∧ status.toNat < 0xf0 ∧ DataOk status data
  | .running data => ∃ status, running = some status ∧ DataOk status data
  | sysEx status _ => status = 0xf0 ∨ status = 0xf7
  | metaEvent type _ => type ≠ 0x2f

/-- The status in effect behind an event; SysEx and meta events cancel it. -/
def statusAfter (running : Option UInt8) : Event → Option UInt8
  | channel status _ => some status
  | .running _ => running
  | sysEx _ _ | metaEvent _ _ => none

end Event

def EventsOk : Option UInt8 → List (Vlv × Event) → Prop
  | _, [] => True
  | running, (_, e) :: es => e.Ok running ∧ EventsOk (e.statusAfter running) es

def eventBytes (e : Vlv × Event) : List UInt8 := e.1.bytes ++ e.2.bytes

/-- A track chunk; its last event is the End-of-Track event. -/
structure Track where
  lengthField : List UInt8
  events : List (Vlv × Event)
  endDelta : Vlv
  endLength : Vlv
  lengthField_length : lengthField.length = 4
  events_ok : EventsOk none events
  endLength_zero : endLength.value = 0

namespace Track

def endBytes (t : Track) : List UInt8 := t.endDelta.bytes ++ [0xff, 0x2f] ++ t.endLength.bytes

def bytes (t : Track) : List UInt8 :=
  MTrk ++ t.lengthField ++ t.events.flatMap eventBytes ++ t.endBytes

end Track

structure Smf where
  header : List UInt8
  tracks : List Track
  trailing : List UInt8
  header_length : header.length = 6
  trailing_junk : trailing.take 4 ≠ MTrk

def Smf.bytes (m : Smf) : List UInt8 :=
  MThd ++ [0, 0, 0, 6] ++ m.header ++ m.tracks.flatMap Track.bytes ++ m.trailing

/-! ## Meta events and their positions -/

/-- A meta event of a file: the number of its track, its type and what a record says of it. -/
structure Occurrence where
  track : Nat
  type : UInt8
  record : MetaEvent

/-- What an event with its status byte at `pos` contributes. -/
def Event.occurrences (track : Nat) (trkLenOffset : Int) (pos : Nat) : Event → List Occurrence
  | metaEvent type payload =>
    [⟨track, type, trkLenOffset, (pos + 2 + payload.length.bytes.length : Nat),
      BitVec.ofNat 32 payload.data.length⟩]
  | channel _ _ | running _ | sysEx _ _ => []

/-- The meta events of an event list that starts at `pos`. -/
def occurrences (track : Nat) (trkLenOffset : Int) : Nat → List (Vlv × Event) → List Occurrence
  | _, [] => []
  | pos, (d, e) :: es =>
    e.occurrences track trkLenOffset (pos + d.bytes.length) ++
      occurrences track trkLenOffset (pos + (eventBytes (d, e)).length) es

/-- The meta events of a track chunk that starts at `pos`. -/
def Track.occurrences (t : Track) (track pos : Nat) : List Occurrence :=
  StepMid.occurrences track (pos + 4 : Nat) (pos + 8) t.events

/-- The meta events of consecutive track chunks from `pos` on. -/
def trackOccurrences : Nat → Nat → List Track → List Occurrence
  | _, _, [] => []
  | track, pos, t :: ts =>
    t.occurrences track pos ++ trackOccurrences (track + 1) (pos + t.bytes.length) ts

/-- All meta events of a file in file order, apart from the End-of-Track events. -/
def Smf.occurrences (m : Smf) : List Occurrence := trackOccurrences 0 14 m.tracks

/-- Type 1 is a text, type 2 a copyright notice and type 3, on the first track, the name. -/
def Occurrence.isFor (i : Fin META_MAX) (o : Occurrence) : Bool :=
  o.type.toNat = i.val + 1 ∧ (i = META_SEQNAME → o.track = 0)

/-- The record of the first event meant for `i`, or the mark of absence in a zeroed array. -/
def firstRecord (os : List Occurrence) (i : Fin META_MAX) : MetaEvent :=
  match os.find? (Occurrence.isFor i) with
  | some o => o.record
  | none => ⟨0, -1, 0⟩

end StepMid
