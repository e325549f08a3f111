import StepMid.Load.WideBuffer

/-!
# Reading the recorded events

`STEPMidUtil::readMetaEvent`: one byte buffer, long enough for the longest record, takes the
payloads one after the other, and each is handed to the setter of its record.
-/

namespace StepMid

/-- One `fread` of a payload: the position, the capacity of the buffer, the local `length` and the
count. -/
structure BufRead where
  pos : Nat
  capacity : Nat
  length : Int
  count : Nat

/-- The local variables of `readMetaEvent`, the setter calls made, and a log of the reads and of
the contents the thread's buffers take on. -/
structure Reader extends WideState where
  fp : Stream
  heapBuf : Option (List UInt8)
  calls : List (Fin META_MAX × Str)
  reads : List BufRead
  writes : List TlsData

namespace Reader

/-- The content of `buf`. -/
def buf (rd : Reader) : List UInt8 := rd.heapBuf.getD rd.data.metadataBuf

def putBuf (rd : Reader) (k : Nat) (xs : List UInt8) : Except Fault Reader :=
  match rd.heapBuf with
  | none =>
    match rd.data.putBuf k xs with
    | none => .error .bufferOverrun
    | some data => .ok { rd with data, writes := rd.writes ++ [data] }
  | some heapBuf =>
    match Buffer.put heapBuf k xs with
    | none => .error .bufferOverrun
    | some heapBuf => .ok { rd with heapBuf := some heapBuf }

end Reader

/-- The body of the loop of `getMaxMetaEventLength`. -/
def maxLengthStep (events : Events) (maxLength : Int) (i : Fin META_MAX) : Int :=
  let length := (events i).length.toInt
  if maxLength < length then length else maxLength

def getMaxMetaEventLength (events : Events) : Int :=
  (List.finRange META_MAX).foldl (maxLengthStep events) 0

/-- The call of `saSetFunc[i]` on the null-terminated string in `buf`. -/
def callSetter (build : Build) (host : Host) (i : Fin META_MAX) (rd : Reader) :
    Except Fault (Int × Reader) :=
  let text := Buffer.cstr rd.buf
  match build with
  | .STEP_M => .ok (0, { rd with calls := rd.calls ++ [(i, .narrow text)] })
  | .STEP_K => do
    let (ret, ws) ← mbtowcAndUpdateBufferInfo host.sizeBits (host.convert i text) rd.toWideState
    let rd : Reader := { rd with toWideState := ws, writes := rd.writes ++ [ws.data] }
    if ret < 0 then return (-1, rd)
    match ws.content with
    | none => .error .deadBlock
    | some wbuf => return (0, { rd with calls := rd.calls ++ [(i, .wide (Buffer.cstr wbuf))] })

/-- The loop body for event `i`. -/
def readEvent (build : Build) (host : Host) (F : List UInt8) (maxLength : Int) (events : Events)
    (i : Fin META_MAX) (rd : Reader) : Except Fault (Int × Reader) :=
  let p := events i
  if p.length = 0 then .ok (0, rd)
  else do
    let length := if maxLength < p.length.toInt then maxLength else p.length.toInt
    -- a failing fseek goes unnoticed and leaves the position alone
    let fp := (fseek host.past F p.offset .SEEK_SET rd.fp).getD rd.fp
    let count := toSize host.sizeBits length
    let read : BufRead := ⟨fp.pos, rd.buf.length, length, count⟩
    let (got, fp) := fread F count fp
    let rd : Reader := { rd with fp, reads := rd.reads ++ [read] }
    let rd ← rd.putBuf 0 got
    if got.length < toSize host.sizeBits length then return (-1, rd)
    if length < 0 then throw .bufferOverrun
    let rd ← rd.putBuf length.toNat [0]
    callSetter build host i rd

def readEvents (build : Build) (host : Host) (F : List UInt8) (maxLength : Int)
    (events : Events) : List (Fin META_MAX) → Reader → Except Fault (Int × Reader)
  | [], rd => .ok (0, rd)
  | i :: is, rd => do
    let (ret, rd) ← readEvent build host F maxLength events i rd
    if ret < 0 then return (-1, rd)
    readEvents build host F maxLength events is rd

structure ReadReturn where
  ret : Int
  calls : List (Fin META_MAX × Str)
  data : Option TlsData
  fp : Stream
  heap : Heap (List UInt16)
  reads : List BufRead
  writes : List TlsData

/-- The label `finish`; the block of the byte buffer goes out of use here. -/
def finish (ret : Int) (rd : Reader) : Except Fault ReadReturn :=
  let done (heap : Heap (List UInt16)) : ReadReturn :=
    { ret, calls := rd.calls, data := some rd.data, fp := rd.fp, heap, reads := rd.reads
      writes := rd.writes }
  match rd.binfo.heapBuf with
  | none => .ok (done rd.heap)
  | some p =>
    match rd.heap.free p with
    | none => .error .deadBlock
    | some heap => .ok (done heap)

/-- The longest record as far as an `int` with room for a null can count. -/
def clampedLength (host : Host) (events : Events) : Int :=
  let maxLength := getMaxMetaEventLength events
  let limit := maxCount host.sizeBits 1 - 1
  if limit < maxLength then limit else maxLength

/-- The variables at the head of the function. -/
def Reader.start (data : TlsData) (fp : Stream) : Reader where
  data := data
  heap := .empty
  binfo := ⟨.metadataWbuf, none, STATIC_META_BUFFER_SIZE⟩
  fp := fp
  heapBuf := none
  calls := []
  reads := []
  writes := []

/-- `malloc` of a byte buffer. -/
def Reader.allocBuf (rd : Reader) (garbage : Nat → UInt8) (size : Nat) : Reader :=
  { rd with heapBuf := some ((List.range size).map garbage) }

/-- `STEPMidUtil::readMetaEvent`; `tls` is what `STEPMidTls::get` finds. -/
def readMetaEvent (build : Build) (host : Host) (F : List UInt8) (tls : Option TlsData)
    (fp : Stream) (events : Events) : Except Fault ReadReturn :=
  match tls with
  | none =>
    .ok { ret := -1, calls := [], data := none, fp, heap := .empty, reads := [], writes := [] }
  | some data =>
    let rd := Reader.start data fp
    let maxLength := clampedLength host events
    if INT_MAX < maxLength + 1 then .error .intOverflow
    else
      let lengthWithNullLimit := maxLength + 1
      if (STATIC_META_BUFFER_SIZE : Int) < lengthWithNullLimit then
        let size := toSize host.sizeBits lengthWithNullLimit
        match host.heapBuf size with
        | none => finish (-1) rd
        | some garbage => do
          let (ret, rd) ← readEvents build host F maxLength events (List.finRange META_MAX)
            (rd.allocBuf garbage size)
          finish ret rd
      else do
        let (ret, rd) ← readEvents build host F maxLength events (List.finRange META_MAX) rd
        finish ret rd

end StepMid
