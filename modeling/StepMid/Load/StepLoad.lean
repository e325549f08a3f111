import StepMid.Load.Delivery
import StepMid.Smf.Records

/-!
# Loading a file

`STEPLoad`, which scans a file, reads the events found and fills in the host's record.
-/

namespace StepMid

inductive Status
  | STEP_SUCCESS
  | STEP_UNKNOWN_FORMAT
  | STEP_ERROR
deriving DecidableEq

/-- The table of setters that `STEPLoad` hands to `readMetaEvent`. -/
def saSetFunc : Fin META_MAX → Str → HostCall
  | 0 => SetComment
  | 1 => SetArtistName
  | 2 => SetTrackName

structure LoadReturn where
  ret : Status
  calls : List HostCall
  info : FILE_INFO

/-- A load that returns `ret` after the given calls on the record. -/
def LoadReturn.make (info : FILE_INFO) (ret : Status) (calls : List HostCall) : LoadReturn :=
  { ret, calls, info := calls.foldl FILE_INFO.apply info }

/-- The calls that `STEPLoad` makes itself, `SetFormat` and `SetFileTypeName`. -/
def formatCalls (build : Build) (nFileTypeMID : UInt32) : List HostCall :=
  [.SetFormat nFileTypeMID, SetFileTypeName (tchar build [0x4d, 0x49, 0x44, 0x49])]

/-- `STEPLoad` of a file with the given content, `none` for one that cannot be opened. -/
def STEPLoad (build : Build) (host : Host) (nFileTypeMID : UInt32) (tls : Option TlsData)
    (file : Option (List UInt8)) (info : FILE_INFO) : Except Fault LoadReturn :=
  match file with
  | none => .ok (.make info .STEP_ERROR [])
  | some F =>
    let scan := findMetaEvents host.past F .start zeroedEvents
    if scan.ret = 0 then do
      let r ← readMetaEvent build host F tls scan.fp scan.events
      let calls := r.calls.map fun c => saSetFunc c.1 c.2
      if r.ret = 0 then
        return .make info .STEP_SUCCESS (calls ++ formatCalls build nFileTypeMID)
      else return .make info .STEP_ERROR calls
    else .ok (.make info .STEP_UNKNOWN_FORMAT [])

/-! ## The records of a scan are readable -/

/-- The records that `STEPLoad` gets from the scan. -/
def scanEvents (host : Host) (F : List UInt8) : Events :=
  (findMetaEvents host.past F .start zeroedEvents).events

section

variable {host : Host} {F : List UInt8}

theorem scanEvents_length (h : (findMetaEvents host.past F .start zeroedEvents).ret = 0)
    (i : Fin META_MAX) : (scanEvents host F i).length.toNat < 2 ^ 31 := by
  rcases findMetaEvents_sound h i with habsent | ⟨q, pos, hat, -⟩
  · rw [scanEvents, habsent]
    exact (by decide : (0 : ULong).toNat < 2 ^ 31)
  · rw [scanEvents, hat.length]
    exact (vlvVal_toNat (hat.counted (findMetaEvents_offset_le h i)) hat.accepted).2

/-- A record with a payload is one that was found. -/
theorem scanEvents_present (h : (findMetaEvents host.past F .start zeroedEvents).ret = 0)
    {i : Fin META_MAX} (hi : (scanEvents host F i).length ≠ 0) :
    ∃ q pos, RecordAt F i q (scanEvents host F i) ∧ TrackOf F i q (scanEvents host F i) pos := by
  rcases findMetaEvents_sound h i with habsent | hfound
  · rw [scanEvents, habsent] at hi
    exact absurd rfl hi
  · exact hfound

theorem scanEvents_readable (h : (findMetaEvents host.past F .start zeroedEvents).ret = 0) :
    Readable host F (clampedLength host (scanEvents host F)) (scanEvents host F) := by
  apply Readable.of_length (scanEvents_length h)
  intro i hi
  obtain ⟨q, pos, hat, -⟩ := scanEvents_present h hi
  obtain ⟨ty, hty, -⟩ := hat.type
  rw [hat.offset]
  refine ⟨Int.natCast_nonneg _, Or.inl ?_⟩
  rw [Int.toNat_natCast]
  exact metaEnd_le hty

end

/-- Reading back the records of an accepted file is free of overflows and overruns: lengths keep
their value as an `int`, and every `fread` has a count, not wrapped, that leaves room for the
null in the buffer chosen. -/
theorem readMetaEvent_safe (build : Build) (host : Host) (F : List UInt8) (tls : Option TlsData)
    (h : (findMetaEvents host.past F .start zeroedEvents).ret = 0) :
    let scan := findMetaEvents host.past F .start zeroedEvents
    (∀ i, (scan.events i).length.toInt = (scan.events i).length.toNat) ∧
      clampedLength host scan.events + 1 ≤ INT_MAX ∧
      ∃ r, readMetaEvent build host F tls scan.fp scan.events = .ok r ∧
        ∀ b ∈ r.reads, 0 ≤ b.length ∧ b.length + 1 ≤ b.capacity ∧ (b.count : Int) = b.length ∧
          b.count + 1 ≤ b.capacity := by
  intro scan
  refine ⟨?_, ?_, ?_⟩
  · intro i
    have := scanEvents_length h i
    exact BitVec.toInt_eq_toNat_of_lt (by simp only [scan, scanEvents] at this ⊢; omega)
  · have := clampedLength_eq host scan.events
    omega
  · cases tls with
    | none => exact ⟨_, rfl, by simp⟩
    | some data =>
      obtain ⟨r, hr, -, hsafe, -⟩ :=
        readMetaEvent_spec build host (scanEvents_readable h) data scan.fp
      refine ⟨r, hr, ?_⟩
      intro b hb
      obtain ⟨hnonneg, hcount, hroom⟩ := hsafe b hb
      omega

/-! ## Every way a load can go -/

/-- The calls for delivered records: which records, and with which texts. -/
structure TextCalls (build : Build) (host : Host) (F : List UInt8)
    (cs : List (Fin META_MAX × Str)) : Prop where
  records : cs.map Prod.fst = (deliveredAll build host F (scanEvents host F)).1
  text : ∀ c ∈ cs, IsText build host c.1 (textOf F (scanEvents host F c.1)) c.2

/-- `STEPMidUtil::readMetaEvent` finds its thread's data and gets a byte buffer. -/
structure LoadReady (host : Host) (tls : Option TlsData) (F : List UInt8) : Prop where
  accepted : (findMetaEvents host.past F .start zeroedEvents).ret = 0
  data : tls.isSome = true
  buffer : BufferObtained host (scanEvents host F)

inductive LoadOutcome (build : Build) (host : Host) (nFileTypeMID : UInt32)
    (tls : Option TlsData) (info : FILE_INFO) : Option (List UInt8) → LoadReturn → Prop
  | notOpened : LoadOutcome build host nFileTypeMID tls info none (.make info .STEP_ERROR [])
  | unknownFormat {F : List UInt8} :
      (findMetaEvents host.past F .start zeroedEvents).ret ≠ 0 →
      LoadOutcome build host nFileTypeMID tls info (some F) (.make info .STEP_UNKNOWN_FORMAT [])
  | notReady {F : List UInt8} : (findMetaEvents host.past F .start zeroedEvents).ret = 0 →
      ¬ LoadReady host tls F →
      LoadOutcome build host nFileTypeMID tls info (some F) (.make info .STEP_ERROR [])
  | undelivered {F : List UInt8} {cs : List (Fin META_MAX × Str)} : LoadReady host tls F →
      (deliveredAll build host F (scanEvents host F)).2 = false → TextCalls build host F cs →
      LoadOutcome build host nFileTypeMID tls info (some F)
        (.make info .STEP_ERROR (cs.map fun c => saSetFunc c.1 c.2))
  | success {F : List UInt8} {cs : List (Fin META_MAX × Str)} : LoadReady host tls F →
      (deliveredAll build host F (scanEvents host F)).2 = true → TextCalls build host F cs →
      LoadOutcome build host nFileTypeMID tls info (some F)
        (.make info .STEP_SUCCESS
          ((cs.map fun c => saSetFunc c.1 c.2) ++ formatCalls build nFileTypeMID))

/-- Every load returns, in one of the listed ways. -/
theorem STEPLoad_spec (build : Build) (host : Host) (nFileTypeMID : UInt32)
    (tls : Option TlsData) (file : Option (List UInt8)) (info : FILE_INFO) :
    ∃ r, STEPLoad build host nFileTypeMID tls file info = .ok r ∧
      LoadOutcome build host nFileTypeMID tls info file r := by
  cases file with
  | none => exact ⟨_, rfl, .notOpened⟩
  | some F =>
    by_cases hscan : (findMetaEvents host.past F .start zeroedEvents).ret = 0
    · cases tls with
      | none =>
        refine ⟨.make info .STEP_ERROR [], ?_, .notReady hscan fun h => nomatch h.data⟩
        simp only [STEPLoad, hscan, if_true, readMetaEvent]
        rfl
      | some data =>
        obtain ⟨r, hr, -, -, hend⟩ :=
          readMetaEvent_spec build host (scanEvents_readable hscan) data
            (findMetaEvents host.past F .start zeroedEvents).fp
        rw [scanEvents] at hr
        by_cases hbuf : BufferObtained host (scanEvents host F)
        · rw [if_pos hbuf] at hend
          obtain ⟨hfst, htext, hret⟩ := hend
          have hready : LoadReady host (some data) F := ⟨hscan, rfl, hbuf⟩
          cases hall : (deliveredAll build host F (scanEvents host F)).2 with
          | false =>
            rw [hall, if_neg Bool.false_ne_true] at hret
            refine ⟨_, ?_, .undelivered hready hall ⟨hfst, htext⟩⟩
            simp only [STEPLoad, hscan, if_true, hr, bind, Except.bind, hret]
            rfl
          | true =>
            rw [hall, if_pos rfl] at hret
            refine ⟨_, ?_, .success hready hall ⟨hfst, htext⟩⟩
            simp only [STEPLoad, hscan, if_true, hr, bind, Except.bind, hret]
            rfl
        · rw [if_neg hbuf] at hend
          obtain ⟨hcalls, hret⟩ := hend
          refine ⟨.make info .STEP_ERROR [], ?_, .notReady hscan fun h => hbuf h.buffer⟩
          simp only [STEPLoad, hscan, if_true, hr, bind, Except.bind, hret, hcalls]
          rfl
    · refine ⟨_, ?_, .unknownFormat hscan⟩
      simp only [STEPLoad, hscan, if_false]

/-- Latin-1 as a code page. -/
def latin1 (text : List UInt8) : List UInt16 := text.map fun b => UInt16.ofNat b.toNat

/-- A host on which everything succeeds that an `int` can count. -/
def plainHost : Host where
  sizeBits := 64
  sizeBits_ge := by decide
  past := fun _ => true
  heapBuf := fun _ => some fun _ => 0
  convert := fun _ text =>
    { required := if text.length + 1 < 2 ^ 31 then BitVec.ofNat 32 (text.length + 1) else 0
      block := some fun _ => 0
      written := latin1 text ++ [0]
      result := 1 }

def blankInfo : FILE_INFO := ⟨fun _ => .narrow [], 0⟩

/-- A track with the text `abc` and the copyright notice `de`. -/
def textFile : List UInt8 :=
  [0x4d, 0x54, 0x68, 0x64, 0, 0, 0, 6, 0, 0, 0, 1, 0, 96, 0x4d, 0x54, 0x72, 0x6b, 0, 0, 0, 17,
    0, 0xff, 1, 3, 0x61, 0x62, 0x63, 0, 0xff, 2, 2, 0x64, 0x65, 0, 0xff, 0x2f, 0]

theorem readMetaEvent_safe_textFile :
    (findMetaEvents plainHost.past textFile .start zeroedEvents).ret = 0 ∧
      clampedLength plainHost
        (findMetaEvents plainHost.past textFile .start zeroedEvents).events + 1 ≤ INT_MAX := by
  have h : (findMetaEvents plainHost.past textFile .start zeroedEvents).ret = 0 := by
    decide +kernel
  exact ⟨h, (readMetaEvent_safe .STEP_K plainHost textFile (some .zeroed) h).2.1⟩

end StepMid
