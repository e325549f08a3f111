import Mathlib.Logic.Function.Basic
import StepMid.Framework.Loop
import StepMid.Smf.Vlv

/-!
# The meta event scanner

`SMFUtil::findMetaEvents` as a loop over two control points, the head of the track loop and
the head of the event loop. Every turn reads the position only forwards, so the loop ends.
-/

namespace StepMid

/-- `SMFUtil::MetaEvent`. -/
structure MetaEvent where
  trkLenOffset : Int
  offset : Int
  length : ULong
deriving DecidableEq

abbrev META_MAX : Nat := 3

abbrev META_COMMENT : Fin META_MAX := 0

abbrev META_COPYRIGHT : Fin META_MAX := 1

abbrev META_SEQNAME : Fin META_MAX := 2

abbrev Events := Fin META_MAX → MetaEvent

abbrev SIG_SIZE : Nat := 4

def MThd : List UInt8 := [0x4d, 0x54, 0x68, 0x64]

def MTrk : List UInt8 := [0x4d, 0x54, 0x72, 0x6b]

/-- `fseekULong`, with `none` for a nonzero return. -/
def fseekULong (past : Nat → Bool) (F : List UInt8) (fp : Stream) (offset : ULong)
    (origin : Origin) : Option Stream :=
  if offset.toNat > LONG_MAX then none
  else fseek past F offset.toNat origin fp

/-- Data bytes of the messages 8n, 9n, an, bn, cn, dn and en. -/
def msgByteLength : List ULong := [2, 2, 2, 2, 1, 1, 2]

private theorem msgByteLength_bound {index : CInt}
    (h : ¬ (index.slt 0 = true ∨ (6 : CInt).slt index = true)) :
    index.toNat < msgByteLength.length := by
  rw [not_or, BitVec.slt_iff_toInt_lt, BitVec.slt_iff_toInt_lt] at h
  have hzero : (0 : CInt).toInt = 0 := by decide
  have hsix : (6 : CInt).toInt = 6 := by decide
  have hlen : msgByteLength.length = 7 := rfl
  rw [hzero, hsix, BitVec.toInt_eq_toNat_cond] at h
  split at h <;> omega

/-- `none` is the return value -1, `some n` is 0 with `*ret = n`. -/
def getNumMessageBytes (status : CInt) : Option ULong :=
  let index : CInt := ((status &&& 0xf0) >>> 4) - 8
  if status.slt 0 then none
  else if h : index.slt 0 = true ∨ (6 : CInt).slt index = true then none
  else some (msgByteLength.get ⟨index.toNat, msgByteLength_bound h⟩)

/-- Channel messages have one or two data bytes. -/
theorem getNumMessageBytes_some {status : CInt} {n : ULong}
    (h : getNumMessageBytes status = some n) : n = 1 ∨ n = 2 := by
  simp only [getNumMessageBytes] at h
  split at h
  · cases h
  · split at h
    · cases h
    · have hmem := List.get_mem msgByteLength ⟨_, msgByteLength_bound ‹_›⟩
      rw [Option.some.inj h] at hmem
      simp only [msgByteLength, List.mem_cons, List.not_mem_nil, or_false] at hmem
      tauto

/-- The message size of a channel status byte. -/
theorem getNumMessageBytes_channel {b : UInt8} (hlo : 128 ≤ b.toNat) (hhi : b.toNat < 240) :
    getNumMessageBytes (ofByte b) = some (if 192 ≤ b.toNat ∧ b.toNat < 224 then 1 else 2) := by
  have h : ∀ x : BitVec 8, 128 ≤ x.toNat → x.toNat < 240 →
      getNumMessageBytes (BitVec.ofNat 32 x.toNat) =
        some (if 192 ≤ x.toNat ∧ x.toNat < 224 then 1 else 2) := by decide
  exact h b.toBitVec hlo hhi

/-- The local variables of `findMetaEvents` with the caller's stream and array. -/
structure Scan where
  fp : Stream
  events : Events
  curTrack : Nat
  trkLenOffset : Int
  baFound : Fin META_MAX → Bool
  runningStatus : CInt

/-- The ways out of `findMetaEvents`, in source order. -/
inductive Exit
  | headerShort | headerSignature | headerSeek
  | trackShort | trackJunk | trackTell | trackSeek
  | deltaTime | metaLength | recordTell | sysExLength | impossible | runningStatus | eventSeek
  | foundAll
deriving DecidableEq

/-- The value returned at each exit. -/
def Exit.code : Exit → Int
  | .headerShort | .headerSignature => -1
  | .headerSeek => -2
  | .trackShort | .trackJunk | .foundAll => 0
  | .trackTell | .trackSeek => -2
  | .deltaTime | .metaLength | .sysExLength | .impossible | .runningStatus => -1
  | .recordTell | .eventSeek => -2

/-- How the body of the event loop ends: at its final seek, at a `break`, at a `return`. -/
inductive Turn
  | seek (seekOffset : ULong) (s : Scan)
  | brk (s : Scan)
  | ret (e : Exit) (s : Scan)

/-- The recording branch for the meta event types 1 to 3. -/
def recordTurn (index : Fin META_MAX) (length : ULong) (s : Scan) : Turn :=
  if s.baFound index = false then
    let offset := ftell s.fp
    if offset < 0 then .ret .recordTell s
    else
      .seek length
        { s with
          events := Function.update s.events index ⟨s.trkLenOffset, offset, length⟩
          baFound := Function.update s.baFound index true }
  else .seek length { s with baFound := Function.update s.baFound index true }

private theorem metaIndex_bound {type : CInt} (h : 1 ≤ type.toInt ∧ type.toInt ≤ 3) :
    (type.toInt - 1).toNat < META_MAX := by
  have hmax : META_MAX = 3 := rfl
  omega

/-- A meta event, behind its `FF` byte. -/
def metaTurn (F : List UInt8) (s : Scan) : Turn :=
  let (type, fp) := fgetc F s.fp
  match readVLV F fp with
  | (none, fp) => .ret .metaLength { s with fp }
  | (some length, fp) =>
    let s := { s with fp }
    if h : 1 ≤ type.toInt ∧ type.toInt ≤ 3 then
      if type ≠ 3 ∨ s.curTrack = 0 then
        recordTurn ⟨(type.toInt - 1).toNat, metaIndex_bound h⟩ length s
      else .seek length s
    else if type = 0x2f then .brk s
    else .seek length s

/-- A SysEx event, behind its status byte. -/
def sysExTurn (F : List UInt8) (s : Scan) : Turn :=
  match readVLV F s.fp with
  | (none, fp) => .ret .sysExLength { s with fp }
  | (some length, fp) => .seek length { s with fp }

/-- The dispatch on the byte `c` behind the delta-time. -/
def statusTurn (F : List UInt8) (c : CInt) (s : Scan) : Turn :=
  if c &&& 0x80 ≠ 0 then
    if c &&& 0xf0 = 0xf0 then
      if c = 0xff then metaTurn F s else sysExTurn F s
    else
      let s := { s with runningStatus := c }
      match getNumMessageBytes s.runningStatus with
      | none => .ret .impossible s
      | some n => .seek n s
  else
    match getNumMessageBytes s.runningStatus with
    | none => .ret .runningStatus s
    | some n => .seek (n - 1) s

/-- The body of the event loop up to its final seek. -/
def eventTurn (F : List UInt8) (s : Scan) : Turn :=
  match readVLV F s.fp with
  | (none, fp) => .ret .deltaTime { s with fp }
  | (some _, fp) =>
    let (c, fp) := fgetc F fp
    if c = EOF then .brk { s with fp } else statusTurn F c { s with fp }

/-- The two loop heads. -/
inductive ScanState
  | track (s : Scan)
  | event (s : Scan)

def ScanState.scan : ScanState → Scan
  | .track s | .event s => s

/-- Behind the event loop: the early exit or the next track. -/
def leaveTrack (s : Scan) : ScanState ⊕ Exit × Scan :=
  if s.baFound META_COMMENT && s.baFound META_COPYRIGHT then .inr (.foundAll, s)
  else .inl (.track { s with curTrack := s.curTrack + 1 })

/-- The body of the track loop up to the event loop. -/
def trackTurn (past : Nat → Bool) (F : List UInt8) (s : Scan) : ScanState ⊕ Exit × Scan :=
  let s := { s with runningStatus := -1 }
  let (sigBuf, fp) := fread F SIG_SIZE s.fp
  let s := { s with fp }
  if sigBuf.length ≠ SIG_SIZE ∨ fp.eof = true then .inr (.trackShort, s)
  else if sigBuf ≠ MTrk then .inr (.trackJunk, s)
  else
    let s := { s with trkLenOffset := ftell fp }
    if s.trkLenOffset < 0 then .inr (.trackTell, s)
    else
      match fseek past F 4 .SEEK_CUR fp with
      | none => .inr (.trackSeek, s)
      | some fp => .inl (.event { s with fp })

def scanStep (past : Nat → Bool) (F : List UInt8) : ScanState → ScanState ⊕ Exit × Scan
  | .track s => trackTurn past F s
  | .event s =>
    match eventTurn F s with
    | .brk s => leaveTrack s
    | .ret e s => .inr (e, s)
    | .seek seekOffset s =>
      match fseekULong past F s.fp seekOffset .SEEK_CUR with
      | none => .inr (.eventSeek, s)
      | some fp => .inl (.event { s with fp })

end StepMid
