import StepMid.Framework.Buffer
import StepMid.Framework.Heap
import StepMid.Smf.FindMetaEvents

/-!
# The host of a load

What a load meets outside the plugin: the widths of its types, the outcomes of its allocations
and conversions, and the record it fills in. `int` values are integers in the range of a 32-bit
`int`; a step that would leave this range or a buffer is a fault.
-/

namespace StepMid

/-- The plugin is built for a host with narrow strings and for one with wide strings. -/
inductive Build
  | STEP_M
  | STEP_K
deriving DecidableEq

inductive Fault
  | intOverflow
  | bufferOverrun
  | deadBlock
  | assertFailed
deriving DecidableEq

def INT_MAX : Int := 2147483647

/-- An `int` converted to a `size_t` of `w` bits. -/
def toSize (w : Nat) (n : Int) : Nat := (n % 2 ^ w).toNat

/-- `(int)std::min(SIZE_MAX / size, (size_t)INT_MAX)`. -/
def maxCount (w size : Nat) : Int := min (((2 ^ w - 1) / size : Nat) : Int) INT_MAX

/-- The outcome of the two calls of `MultiByteToWideChar` on one string and of the allocation
between them; a new block comes with arbitrary content. -/
structure Conversion where
  required : CInt
  block : Option (Nat → UInt16)
  written : List UInt16
  result : CInt

/-- The host of a load: the width of `size_t`, the targets behind the end of the file that `fseek`
takes, what `malloc` answers to a size, and the conversions. -/
structure Host where
  sizeBits : Nat
  sizeBits_ge : 32 ≤ sizeBits
  past : Nat → Bool
  heapBuf : Nat → Option (Nat → UInt8)
  convert : Fin META_MAX → List UInt8 → Conversion

abbrev STATIC_META_BUFFER_SIZE : Nat := 1024

/-- `STEPMidUtil::TlsData`; the narrow build has no `metadataWbuf` and leaves it alone. -/
structure TlsData where
  metadataBuf : List UInt8
  metadataWbuf : List UInt16
  metadataBuf_length : metadataBuf.length = STATIC_META_BUFFER_SIZE
  metadataWbuf_length : metadataWbuf.length = STATIC_META_BUFFER_SIZE

namespace TlsData

/-- The block as `LocalAlloc(LPTR, …)` delivers it. -/
def zeroed : TlsData where
  metadataBuf := List.replicate STATIC_META_BUFFER_SIZE 0
  metadataWbuf := List.replicate STATIC_META_BUFFER_SIZE 0
  metadataBuf_length := List.length_replicate
  metadataWbuf_length := List.length_replicate

def putBuf (d : TlsData) (k : Nat) (xs : List UInt8) : Option TlsData :=
  match h : Buffer.put d.metadataBuf k xs with
  | none => none
  | some buf =>
    some { d with
      metadataBuf := buf
      metadataBuf_length := (Buffer.put_length h).trans d.metadataBuf_length }

def putWbuf (d : TlsData) (k : Nat) (xs : List UInt16) : Option TlsData :=
  match h : Buffer.put d.metadataWbuf k xs with
  | none => none
  | some wbuf =>
    some { d with
      metadataWbuf := wbuf
      metadataWbuf_length := (Buffer.put_length h).trans d.metadataWbuf_length }

theorem putBuf_some {d : TlsData} {k : Nat} {xs : List UInt8} {buf : List UInt8}
    (h : Buffer.put d.metadataBuf k xs = some buf) :
    ∃ d', d.putBuf k xs = some d' ∧ d'.metadataBuf = buf ∧ d'.metadataWbuf = d.metadataWbuf := by
  rw [putBuf]
  split
  · rename_i hnone
    rw [h] at hnone
    cases hnone
  · rename_i buf' hsome
    rw [h] at hsome
    cases hsome
    exact ⟨_, rfl, rfl, rfl⟩

theorem putWbuf_some {d : TlsData} {k : Nat} {xs : List UInt16} {wbuf : List UInt16}
    (h : Buffer.put d.metadataWbuf k xs = some wbuf) :
    ∃ d', d.putWbuf k xs = some d' ∧ d'.metadataWbuf = wbuf ∧ d'.metadataBuf = d.metadataBuf := by
  rw [putWbuf]
  split
  · rename_i hnone
    rw [h] at hnone
    cases hnone
  · rename_i wbuf' hsome
    rw [h] at hsome
    cases hsome
    exact ⟨_, rfl, rfl, rfl⟩

end TlsData

/-! ## The host's record -/

/-- A string as the build hands it to the host. -/
inductive Str
  | narrow (s : List UInt8)
  | wide (s : List UInt16)
deriving DecidableEq

/-- The fields the plugin sets. -/
inductive FIELDTYPE
  | FIELD_TRACK_NAME
  | FIELD_ARTIST_NAME
  | FIELD_COMMENT
  | FILED_FILE_TYPE_NAME
deriving DecidableEq

structure FILE_INFO where
  value : FIELDTYPE → Str
  format : UInt32

/-- A call that changes the record. -/
inductive HostCall
  | SetValue (nField : FIELDTYPE) (szValue : Str)
  | SetFormat (nFormat : UInt32)
deriving DecidableEq

def SetComment (szValue : Str) : HostCall := .SetValue .FIELD_COMMENT szValue

def SetArtistName (szValue : Str) : HostCall := .SetValue .FIELD_ARTIST_NAME szValue

def SetTrackName (szValue : Str) : HostCall := .SetValue .FIELD_TRACK_NAME szValue

def SetFileTypeName (szValue : Str) : HostCall := .SetValue .FILED_FILE_TYPE_NAME szValue

def FILE_INFO.apply (info : FILE_INFO) : HostCall → FILE_INFO
  | .SetValue nField szValue => { info with value := Function.update info.value nField szValue }
  | .SetFormat nFormat => { info with format := nFormat }

/-- An ASCII string in the build's character type, as `_T` makes it. -/
def tchar (build : Build) (s : List UInt8) : Str :=
  match build with
  | .STEP_M => .narrow s
  | .STEP_K => .wide (s.map fun b => UInt16.ofNat b.toNat)

/-! ## Size arithmetic -/

theorem toSize_of_nonneg {w : Nat} (hw : 32 ≤ w) {n : Int} (h0 : 0 ≤ n) (h : n ≤ INT_MAX) :
    toSize w n = n.toNat := by
  have hpow : (2 : Int) ^ 32 ≤ 2 ^ w := by
    exact_mod_cast Nat.pow_le_pow_right (by decide : 0 < 2) hw
  have hlt : n < 2 ^ w := by
    have hmax : INT_MAX = 2 ^ 31 - 1 := rfl
    omega
  rw [toSize, Int.emod_eq_of_lt h0 hlt]

theorem maxCount_eq {w size : Nat} (hw : 32 ≤ w) (hsize : size = 1 ∨ size = 2) :
    maxCount w size = INT_MAX := by
  have hpow : 2 ^ 32 ≤ 2 ^ w := Nat.pow_le_pow_right (by decide) hw
  have hle : INT_MAX ≤ (((2 ^ w - 1) / size : Nat) : Int) := by
    have hmax : INT_MAX = (2 ^ 31 - 1 : Nat) := rfl
    rw [hmax, Int.ofNat_le]
    rcases hsize with rfl | rfl <;> omega
  rw [maxCount, min_eq_right hle]

end StepMid
