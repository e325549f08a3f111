import Mathlib.Data.List.Basic

/-!
# Binary streams

A file is a list of bytes and a `FILE*` opened on it is its position and its end-of-file
indicator. `int`, `long` and `unsigned long` have 32 bits, as on the plugin's platforms.
-/

namespace StepMid

abbrev CInt := BitVec 32

abbrev ULong := BitVec 32

def LONG_MAX : Nat := 2147483647

/-- The value `fgetc` returns at the end of the file. -/
def EOF : CInt := -1

/-- A byte as the `int` that `fgetc` makes of it. -/
def ofByte (b : UInt8) : CInt := BitVec.ofNat 32 b.toNat

structure Stream where
  pos : Nat
  eof : Bool
deriving DecidableEq

inductive Origin
  | SEEK_SET
  | SEEK_CUR

def fgetc (F : List UInt8) (fp : Stream) : CInt × Stream :=
  match F[fp.pos]? with
  | some b => (ofByte b, { fp with pos := fp.pos + 1 })
  | none => (EOF, { fp with eof := true })

/-- `fread` of `n` one-byte elements: the bytes delivered and the stream after them. -/
def fread (F : List UInt8) (n : Nat) (fp : Stream) : List UInt8 × Stream :=
  let got := (F.drop fp.pos).take n
  (got, { pos := fp.pos + got.length, eof := fp.eof || decide (got.length < n) })

/-- `fseek`, with `none` for a nonzero return. A target inside the file is always reached;
`past` is the host's answer for targets behind its end. -/
def fseek (past : Nat → Bool) (F : List UInt8) (offset : Int) (origin : Origin) (fp : Stream) :
    Option Stream :=
  let target : Int :=
    match origin with
    | .SEEK_SET => offset
    | .SEEK_CUR => fp.pos + offset
  if target < 0 then none
  else if target.toNat ≤ F.length ∨ past target.toNat = true then
    some { pos := target.toNat, eof := false }
  else none

/-- `ftell` fails on a position that a `long` cannot hold. -/
def ftell (fp : Stream) : Int :=
  if fp.pos ≤ LONG_MAX then fp.pos else -1

theorem drop_behind {F k l : List UInt8} {p : Nat} (h : F.drop p = k ++ l) :
    F.drop (p + k.length) = l := by
  rw [← List.drop_drop, h, List.drop_left]

theorem byte_at {F l : List UInt8} {p : Nat} {b : UInt8} (h : F.drop p = b :: l) :
    F[p]? = some b := by
  have hget : (F.drop p)[0]? = F[p + 0]? := List.getElem?_drop
  rw [h, Nat.add_zero] at hget
  exact hget.symm

theorem ofByte_toNat (b : UInt8) : (ofByte b).toNat = b.toNat := by
  have := b.toNat_lt
  simp only [ofByte, BitVec.toNat_ofNat]
  omega

theorem ofByte_ne_EOF (b : UInt8) : ofByte b ≠ EOF := by
  intro h
  have hn := congrArg BitVec.toNat h
  have hb := b.toNat_lt
  rw [ofByte_toNat] at hn
  simp only [EOF] at hn
  have : (-1 : CInt).toNat = 4294967295 := by decide
  omega

theorem fgetc_byte {F : List UInt8} {fp : Stream} {b : UInt8} (h : F[fp.pos]? = some b) :
    fgetc F fp = (ofByte b, { fp with pos := fp.pos + 1 }) := by
  simp only [fgetc, h]

theorem fgetc_end {F : List UInt8} {fp : Stream} (h : F.length ≤ fp.pos) :
    fgetc F fp = (EOF, { fp with eof := true }) := by
  simp only [fgetc, List.getElem?_eq_none h]

/-- `fgetc` returns `EOF` exactly at the end of the file. -/
theorem fgetc_cases (F : List UInt8) (fp : Stream) :
    (F.length ≤ fp.pos ∧ fgetc F fp = (EOF, { fp with eof := true })) ∨
      ∃ b, F[fp.pos]? = some b ∧ fp.pos < F.length ∧
        fgetc F fp = (ofByte b, { fp with pos := fp.pos + 1 }) := by
  rcases Nat.lt_or_ge fp.pos F.length with h | h
  · exact Or.inr ⟨F[fp.pos], List.getElem?_eq_getElem h, h,
      fgetc_byte (List.getElem?_eq_getElem h)⟩
  · exact Or.inl ⟨h, fgetc_end h⟩

theorem fread_full {F : List UInt8} {n : Nat} {fp : Stream} (h : fp.pos + n ≤ F.length) :
    fread F n fp = ((F.drop fp.pos).take n, { pos := fp.pos + n, eof := fp.eof }) := by
  have hlen : ((F.drop fp.pos).take n).length = n := by
    rw [List.length_take, List.length_drop]
    omega
  simp only [fread, hlen, Nat.lt_irrefl, decide_false, Bool.or_false]

theorem fread_short {F : List UInt8} {n : Nat} {fp : Stream} (h : F.length < fp.pos + n) :
    fread F n fp =
      (F.drop fp.pos,
        { pos := fp.pos + (F.length - fp.pos), eof := fp.eof || decide (0 < n) }) := by
  have htake : (F.drop fp.pos).take n = F.drop fp.pos := by
    apply List.take_of_length_le
    rw [List.length_drop]
    omega
  have hlt : decide (F.length - fp.pos < n) = decide (0 < n) := by
    rw [decide_eq_decide]
    omega
  simp only [fread, htake, List.length_drop, hlt]

theorem fseek_cur {past : Nat → Bool} {F : List UInt8} {n : Nat} {fp fp' : Stream}
    (h : fseek past F n .SEEK_CUR fp = some fp') : fp' = { pos := fp.pos + n, eof := false } := by
  simp only [fseek] at h
  split at h
  · cases h
  · split at h
    · cases h
      congr 1
    · cases h

theorem fseek_cur_inside {past : Nat → Bool} {F : List UInt8} {n : Nat} {fp : Stream}
    (h : fp.pos + n ≤ F.length) :
    fseek past F n .SEEK_CUR fp = some { pos := fp.pos + n, eof := false } := by
  have hneg : ¬ ((fp.pos : Int) + n < 0) := by omega
  have htarget : ((fp.pos : Int) + n).toNat = fp.pos + n := by omega
  simp only [fseek, hneg, if_false, htarget, h, true_or, if_true]

theorem fseek_cur_past {past : Nat → Bool} (hpast : ∀ p, past p = true) (F : List UInt8) (n : Nat)
    (fp : Stream) :
    fseek past F n .SEEK_CUR fp = some { pos := fp.pos + n, eof := false } := by
  have hneg : ¬ ((fp.pos : Int) + n < 0) := by omega
  have htarget : ((fp.pos : Int) + n).toNat = fp.pos + n := by omega
  simp only [fseek, hneg, if_false, htarget, hpast, or_true, if_true]

theorem ftell_inside {fp : Stream} (h : fp.pos ≤ LONG_MAX) : ftell fp = fp.pos := by
  rw [ftell, if_pos h]

end StepMid
