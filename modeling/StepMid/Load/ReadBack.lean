import StepMid.Load.Readers
import StepMid.Smf.CallerArray

/-!
# The caller's array and what is read back

The scan marks an absent record by its offset and leaves its length alone; the reader takes a
record for present when its length is not zero. What the caller's array held shows, unless the
reading stops in front of the first record that the file lacks.
-/

namespace StepMid

/-- `findMetaEvents` on the caller's array, and `readMetaEvent` on what it leaves there. -/
def readBack (build : Build) (host : Host) (F : List UInt8) (tls : Option TlsData)
    (events : Events) : Except Fault (Int × List (Fin META_MAX × Str) × List (Nat × Nat)) :=
  let scan := findMetaEvents host.past F .start events
  (readMetaEvent build host F tls scan.fp scan.events).map ReadReturn.observed

/-- The first event for record `i` has a payload that, with its null, takes all that an `int` can
count. -/
def LargeFirst (F : List UInt8) (i : Fin META_MAX) : Prop :=
  ∃ trkLenOffset q, FirstMet F i trkLenOffset q ∧ 2 ^ 31 - 2 ≤ (metaLen F q).toNat

/-- The first event for record `i` has a payload that the end of the file cuts. -/
def CutFirst (F : List UInt8) (i : Fin META_MAX) : Prop :=
  ∃ trkLenOffset q, FirstMet F i trkLenOffset q ∧
    F.length < metaEnd F q + min (metaLen F q).toNat (2 ^ 31 - 2)

/-- The file has no event for record `i`. -/
def Missing (F : List UInt8) (i : Fin META_MAX) : Prop :=
  ∀ trkLenOffset q, ¬ Meets F i trkLenOffset q

theorem not_missing {F : List UInt8} {i : Fin META_MAX} :
    ¬ Missing F i ↔ ∃ trkLenOffset q, Meets F i trkLenOffset q := by
  simp only [Missing, not_forall, not_not]

/-- Every record that the file lacks stands behind one that it cuts, and some record of the file
needs the largest buffer there is. -/
def StopsBeforeMissing (F : List UInt8) : Prop :=
  ∀ i, Missing F i → (∃ j, LargeFirst F j) ∧ ∃ j < i, CutFirst F j

/-! ## The arrays that a scan leaves -/

private theorem finRange_split (i : Fin META_MAX) :
    List.finRange META_MAX =
      (List.finRange META_MAX).take i.val ++ i :: (List.finRange META_MAX).drop (i.val + 1) := by
  revert i
  decide

private theorem mem_before {i j : Fin META_MAX} :
    j ∈ (List.finRange META_MAX).take i.val ↔ j < i := by
  revert i j
  decide

private theorem mem_behind {i j : Fin META_MAX} :
    j ∈ (List.finRange META_MAX).drop (i.val + 1) ↔ i < j := by
  revert i j
  decide

/-- What a scan leaves of the caller's array. -/
def scanned (host : Host) (F : List UInt8) (events : Events) : Events :=
  (findMetaEvents host.past F .start events).events

section

variable {host : Host} {F : List UInt8}
  (hret : (findMetaEvents host.past F .start zeroedEvents).ret = 0)

include hret

private theorem scanned_found (events : Events) {i : Fin META_MAX} (hi : ¬ Missing F i) :
    scanned host F events i = scanEvents host F i := by
  exact ((findMetaEvents_over hret events).2.2 i).1 (not_missing.mp hi)

private theorem scanned_missing (events : Events) {i : Fin META_MAX} (hi : Missing F i) :
    scanned host F events i = (events i).absent :=
  ((findMetaEvents_over hret events).2.2 i).2 hi

private theorem readBack_eq (build : Build) (tls : Option TlsData) (events : Events) :
    readBack build host F tls events =
      (readMetaEvent build host F tls (findMetaEvents host.past F .start zeroedEvents).fp
        (scanned host F events)).map ReadReturn.observed := by
  rw [← (findMetaEvents_over hret events).2.1]
  rfl

private theorem scanEvents_missing {i : Fin META_MAX} (hi : Missing F i) :
    scanEvents host F i = ⟨0, -1, 0⟩ :=
  scanned_missing hret zeroedEvents hi

private theorem scanEvents_first {i : Fin META_MAX} {trkLenOffset q : Nat}
    (h : FirstMet F i trkLenOffset q) :
    scanEvents host F i = ⟨trkLenOffset, metaEnd F q, metaLen F q⟩ :=
  (findMetaEvents_firstMet hret i).1 trkLenOffset q h

/-- A record with a payload is that of the first event for it. -/
private theorem exists_first {i : Fin META_MAX} (hi : (scanEvents host F i).length ≠ 0) :
    ∃ trkLenOffset q, FirstMet F i trkLenOffset q := by
  have hfound : ¬ Missing F i := by
    intro hmiss
    rw [scanEvents_missing hret hmiss] at hi
    exact hi rfl
  obtain ⟨trkLenOffset, q, hmeets⟩ := not_missing.mp hfound
  exact hmeets.exists_first

theorem largeFirst_iff (i : Fin META_MAX) :
    LargeFirst F i ↔ 2 ^ 31 - 2 ≤ (scanEvents host F i).length.toNat := by
  constructor
  · rintro ⟨trkLenOffset, q, hfirst, hlarge⟩
    rw [scanEvents_first hret hfirst]
    exact hlarge
  · intro hlarge
    have hi : (scanEvents host F i).length ≠ 0 := by
      intro hzero
      rw [hzero] at hlarge
      exact absurd hlarge (by decide)
    obtain ⟨trkLenOffset, q, hfirst⟩ := exists_first hret hi
    rw [scanEvents_first hret hfirst] at hlarge
    exact ⟨trkLenOffset, q, hfirst, hlarge⟩

/-- The payload is not all there. -/
def MetaEvent.Cut (F : List UInt8) (r : MetaEvent) : Prop :=
  F.length < r.offset.toNat + r.localLength

theorem cutFirst_iff (i : Fin META_MAX) :
    CutFirst F i ↔ (scanEvents host F i).length ≠ 0 ∧ (scanEvents host F i).Cut F := by
  constructor
  · rintro ⟨trkLenOffset, q, hfirst, hcut⟩
    obtain ⟨track, rs, p, ty, -, hm, -⟩ := hfirst.1
    have hend := metaEnd_le hm.type
    rw [scanEvents_first hret hfirst]
    refine ⟨fun hzero => ?_, hcut⟩
    simp only at hzero
    rw [hzero, show (0 : ULong).toNat = 0 from rfl, Nat.zero_min] at hcut
    omega
  · rintro ⟨hi, hcut⟩
    obtain ⟨trkLenOffset, q, hfirst⟩ := exists_first hret hi
    rw [scanEvents_first hret hfirst] at hcut
    exact ⟨trkLenOffset, q, hfirst, hcut⟩

/-- With `maxLength` as on the array of a caller, the records found are read as they are. -/
private theorem scanEvents_readable_le {maxLength : Int}
    (hmax : clampedLength host (scanEvents host F) ≤ maxLength)
    (hclamp : maxLength ≤ INT_MAX - 1) : Readable host F maxLength (scanEvents host F) :=
  .of_le hmax hclamp (scanEvents_length hret) (scanEvents_readable hret).offset

/-- A caller whose array is zeroed but for the length of a missing record. -/
private def withLength (i : Fin META_MAX) (length : ULong) : Events :=
  Function.update zeroedEvents i ⟨0, 0, length⟩

private def withMissing (host : Host) (F : List UInt8) (i : Fin META_MAX) (length : ULong) :
    Events :=
  Function.update (scanEvents host F) i ⟨0, -1, length⟩

private theorem scanned_withLength {i : Fin META_MAX} (hi : Missing F i) (length : ULong) :
    scanned host F (withLength i length) = withMissing host F i length := by
  funext j
  by_cases hji : j = i
  · subst hji
    rw [scanned_missing hret _ hi, withLength, withMissing, Function.update_self,
      Function.update_self]
    rfl
  · rw [withMissing, Function.update_of_ne hji]
    by_cases hj : Missing F j
    · rw [scanned_missing hret _ hj, withLength, Function.update_of_ne hji,
        scanEvents_missing hret hj]
      rfl
    · exact scanned_found hret _ hj

private theorem clampedLength_withMissing {i : Fin META_MAX} (hi : Missing F i) (length : ULong)
    (hlength : length.toNat ≤ 2 ^ 31 - 2) :
    clampedLength host (withMissing host F i length) =
      max (clampedLength host (scanEvents host F)) length.toNat := by
  have hint : length.toInt = length.toNat := BitVec.toInt_eq_toNat_of_lt (by omega)
  have hmax : getMaxMetaEventLength (withMissing host F i length) =
      max (getMaxMetaEventLength (scanEvents host F)) length.toNat := by
    obtain ⟨hzero, -, hle⟩ := getMaxMetaEventLength_spec (scanEvents host F)
    obtain ⟨-, -, hle'⟩ := getMaxMetaEventLength_spec (withMissing host F i length)
    apply le_antisymm
    · refine getMaxMetaEventLength_le (by omega) fun j => ?_
      by_cases hji : j = i
      · rw [hji, withMissing, Function.update_self]
        simp only [hint]
        exact le_max_right _ _
      · rw [withMissing, Function.update_of_ne hji]
        exact (hle j).trans (le_max_left _ _)
    · refine max_le (getMaxMetaEventLength_le ?_ fun j => ?_) ?_
      · exact (getMaxMetaEventLength_spec _).1
      · by_cases hji : j = i
        · rw [hji, scanEvents_missing hret hi]
          exact (getMaxMetaEventLength_spec _).1
        · have := hle' j
          rwa [withMissing, Function.update_of_ne hji] at this
      · have := hle' i
        rwa [withMissing, Function.update_self, hint] at this
  rw [clampedLength_eq, clampedLength_eq, hmax, INT_MAX]
  omega

private theorem readBack_withLength (build : Build) (tls : Option TlsData) {i : Fin META_MAX}
    (hi : Missing F i) (length : ULong) :
    readBack build host F tls (withLength i length) =
      (readMetaEvent build host F tls (findMetaEvents host.past F .start zeroedEvents).fp
        (withMissing host F i length)).map ReadReturn.observed := by
  rw [readBack_eq hret, scanned_withLength hret hi]

/-- Without a record of the largest size there is room for a larger one. -/
private theorem clampedLength_of_notLarge (hlarge : ∀ j, ¬ LargeFirst F j) :
    clampedLength host (scanEvents host F) ≤ 2 ^ 31 - 3 := by
  rw [clampedLength_eq]
  refine (min_le_left _ _).trans (getMaxMetaEventLength_le (by decide) fun j => ?_)
  have hj := hlarge j
  rw [largeFirst_iff hret] at hj
  rw [BitVec.toInt_eq_toNat_of_lt (by omega)]
  omega

/-- The caller's array decides about the size of the buffer when no record of the file takes the
largest one, and a host may have memory for the one size and not for the other. -/
private theorem differs_of_notLarge {i : Fin META_MAX} (hi : Missing F i)
    (hlarge : ∀ j, ¬ LargeFirst F j)
    (hgrants : ∀ size < 2 ^ 31 - 1, (host.heapBuf size).isSome = true)
    (hrefuses : host.heapBuf (2 ^ 31 - 1) = none) (build : Build) (data : TlsData) :
    readBack build host F (some data) (withLength i 1) ≠
      readBack build host F (some data) (withLength i 0x7ffffffe) := by
  have hlengths := clampedLength_of_notLarge hret hlarge
  have hone : clampedLength host (withMissing host F i 1) = max _ ((1 : Nat) : Int) :=
    clampedLength_withMissing hret hi 1 (by decide)
  have hmost : clampedLength host (withMissing host F i 0x7ffffffe) = 0x7ffffffe :=
    (clampedLength_withMissing hret hi 0x7ffffffe (by decide)).trans
      (max_eq_right (hlengths.trans (by decide)))
  have hobtained : BufferObtained host (withMissing host F i 1) :=
    Or.inr (hgrants _ (by omega))
  have hrefused : ¬ BufferObtained host (withMissing host F i 0x7ffffffe) := by
    rw [BufferObtained, hmost, not_or, Option.not_isSome_iff_eq_none]
    exact ⟨by decide, hrefuses⟩
  obtain ⟨rd, hrun, -⟩ := readMetaEvent_obtained build F hobtained data
    (findMetaEvents host.past F .start zeroedEvents).fp
  obtain ⟨r, hr, -, -, hreads, -⟩ := finish_spec (-1) (Reader.start_ok data
    (findMetaEvents host.past F .start zeroedEvents).fp)
  rw [readBack_withLength hret _ _ hi, readBack_withLength hret _ _ hi, hrun,
    readMetaEvent_refused build F hrefused, hr]
  -- with the buffer there is a read, of the missing record at the latest
  have hpresent : (withMissing host F i 1 i).length ≠ 0 := by
    rw [withMissing, Function.update_self]
    exact (by decide : (1 : ULong) ≠ 0)
  have hseen : Fallible.Ends (fun _ => True)
      (fun o : Int × List (Fin META_MAX × Str) × List (Nat × Nat) => o.2.2 ≠ [])
      ((readLoop build host F (withMissing host F i 1) rd).map ReadReturn.observed) :=
    .map ((readLoop_reads hpresent rd).mono fun r hr hnil => hr (List.map_eq_nil_iff.mp hnil))
  intro hsame
  rw [hsame] at hseen
  apply hseen
  rw [ReadReturn.observed, hreads]
  rfl

/-- The records of the file are read the same way whatever the caller put in for another one. -/
private theorem readEvents_withMissing (build : Build) {i : Fin META_MAX} (hi : Missing F i)
    {length : ULong} (hlength : length.toNat < 1024) {is : List (Fin META_MAX)} (his : i ∉ is)
    (rd : Reader) :
    readEvents build host F (clampedLength host (withMissing host F i length))
        (withMissing host F i length) is rd =
      readEvents build host F (clampedLength host (scanEvents host F)) (scanEvents host F) is
        rd := by
  have hmax := clampedLength_withMissing hret hi length (by omega)
  have hclamp := clampedLength_eq host (withMissing host F i length)
  have hread := scanEvents_readable_le hret (hmax ▸ le_max_left _ _)
    (hclamp ▸ min_le_right _ _)
  refine readEvents_congr (fun j hj => ?_) rd
  have hji : j ≠ i := fun h => his (h ▸ hj)
  have hsame : withMissing host F i length j = scanEvents host F j := by
    rw [withMissing, Function.update_of_ne hji]
  refine ⟨hsame, ?_⟩
  rw [hsame, lengthRead, lengthRead, hread.local_eq j, (scanEvents_readable hret).local_eq j]

/-- A caller that adds a short record to those of the file gets the same buffer. -/
private theorem readLoop_withMissing (build : Build) {i : Fin META_MAX} (hi : Missing F i)
    {garbage : Nat → UInt8} (hheap : ∀ size, host.heapBuf size = some garbage) (data : TlsData)
    (fp : Stream) :
    ∃ rd : Reader, rd.toWideState.Ok ∧ ∀ length : ULong, length.toNat < 1024 →
      readMetaEvent build host F (some data) fp (withMissing host F i length) =
          readLoop build host F (withMissing host F i length) rd ∧
        clampedLength host (withMissing host F i length) + 1 ≤ rd.buf.length := by
  have hstatic : STATIC_META_BUFFER_SIZE = 1024 := rfl
  have hstart := Reader.start_ok data fp
  rcases lt_or_ge (clampedLength host (scanEvents host F)) 1024 with hsmall | hlarge
  · refine ⟨Reader.start data fp, hstart, fun length hlength => ?_⟩
    have hmax := clampedLength_withMissing hret hi length (by omega)
    refine ⟨readMetaEvent_small build F (by omega) data fp, ?_⟩
    rw [Reader.start_buf]
    omega
  · refine ⟨Reader.startLarge data fp garbage (clampedLength host (scanEvents host F)), hstart,
      fun length hlength => ?_⟩
    have hmax : clampedLength host (withMissing host F i length) = _ :=
      (clampedLength_withMissing hret hi length (by omega)).trans (max_eq_left (by omega))
    constructor
    · rw [readMetaEvent_large build F (by omega), hheap, hmax]
    · rw [Reader.startLarge_buf, hmax]
      exact Int.self_le_toNat _

/-- Up to the missing record all is delivered. -/
private theorem readEvents_front {i : Fin META_MAX} (hin : ∀ j < i, ¬ CutFirst F j) {rd : Reader}
    (hok : rd.toWideState.Ok) (hroom : clampedLength host (scanEvents host F) + 1 ≤ rd.buf.length) :
    ∃ rd', readEvents .STEP_M host F (clampedLength host (scanEvents host F)) (scanEvents host F)
        ((List.finRange META_MAX).take i.val) rd = .ok (0, rd') ∧
      rd'.toWideState.Ok ∧ rd'.buf.length = rd.buf.length := by
  have hall (limit : Int) : (delivered .STEP_M host F (scanEvents host F) limit
      ((List.finRange META_MAX).take i.val)).2 = true := by
    refine delivered_all ?_ limit
    intro j hj hpresent _
    refine ⟨Nat.le_of_not_lt fun hcut => ?_, nofun⟩
    exact hin j (mem_before.mp hj) ((cutFirst_iff hret j).mpr ⟨hpresent, hcut⟩)
  obtain ⟨ret, rd', cs, rs, hrun, hok', hlen, -, -, -, hend, -, -⟩ :=
    readEvents_spec .STEP_M host (scanEvents_readable hret) _ hok hroom
  rw [hall, if_pos rfl] at hend
  exact ⟨rd', hend ▸ hrun, hok', hlen⟩

/-- The record put in for a missing one is read from where the stream happens to be. -/
private theorem readEvent_missing {i : Fin META_MAX} (hi : Missing F i) {length : ULong}
    (hpos : 0 < length.toNat) (hlength : length.toNat < 1024) {rd : Reader}
    (hok : rd.toWideState.Ok)
    (hroom : clampedLength host (withMissing host F i length) + 1 ≤ rd.buf.length) :
    ∃ ret rd', readEvent .STEP_M host F (clampedLength host (withMissing host F i length))
        (withMissing host F i length) i rd = .ok (ret, rd') ∧
      rd'.toWideState.Ok ∧ rd'.buf.length = rd.buf.length ∧
      rd'.reads.map BufRead.range =
        rd.reads.map BufRead.range ++ [(rd.fp.pos, length.toNat)] := by
  have hself : withMissing host F i length i = ⟨0, -1, length⟩ := Function.update_self ..
  have hlocal : (withMissing host F i length i).localLength = length.toNat := by
    rw [hself, MetaEvent.localLength]
    simp only
    omega
  have hpresent : (withMissing host F i length i).length ≠ 0 := by
    rw [hself]
    intro hzero
    simp only at hzero
    rw [hzero] at hpos
    exact absurd hpos (by decide)
  have hread : (if clampedLength host (withMissing host F i length) <
      (withMissing host F i length i).length.toInt then
        clampedLength host (withMissing host F i length)
      else (withMissing host F i length i).length.toInt) =
      ((withMissing host F i length i).localLength : Int) := by
    have hint : length.toInt = length.toNat := BitVec.toInt_eq_toNat_of_lt (by omega)
    rw [hlocal, hself, clampedLength_withMissing hret hi length (by omega), hint]
    exact if_neg (not_lt_of_ge (le_max_right _ _))
  obtain ⟨ret, rd', hrun, hok', hlen, hreads, -⟩ :=
    readEvent_run .STEP_M host F hpresent hread hok hroom
  -- there is no seek to the offset -1
  have hsought : soughtStream host F (withMissing host F i length i) rd.fp = rd.fp := by
    rw [hself]
    rfl
  refine ⟨ret, rd', hrun, hok', hlen, ?_⟩
  rw [hreads, hsought, List.map_append, List.map_singleton, Reader.readOf, hlocal]
  rfl

/-- From the missing record on, the first read tells its length. -/
private theorem readEvents_missing {i : Fin META_MAX} (hi : Missing F i) {length : ULong}
    (hpos : 0 < length.toNat) (hlength : length.toNat < 1024) {rd : Reader}
    (hok : rd.toWideState.Ok)
    (hroom : clampedLength host (withMissing host F i length) + 1 ≤ rd.buf.length) :
    ∃ ret rd' rest, readEvents .STEP_M host F (clampedLength host (withMissing host F i length))
        (withMissing host F i length) (i :: (List.finRange META_MAX).drop (i.val + 1)) rd =
          .ok (ret, rd') ∧
      rd'.toWideState.Ok ∧
      rd'.reads.map BufRead.range =
        rd.reads.map BufRead.range ++ (rd.fp.pos, length.toNat) :: rest := by
  obtain ⟨ret₁, rd₁, hrun₁, hok₁, hlen₁, hreads₁⟩ :=
    readEvent_missing hret hi hpos hlength hok hroom
  by_cases hneg : ret₁ < 0
  · refine ⟨-1, rd₁, [], ?_, hok₁, hreads₁⟩
    simp only [readEvents, hrun₁, bind, Except.bind, if_pos hneg]
    rfl
  · have hmax := clampedLength_withMissing hret hi length (by omega)
    have hbehind : i ∉ (List.finRange META_MAX).drop (i.val + 1) := by
      rw [mem_behind]
      exact lt_irrefl i
    obtain ⟨ret₂, rd₂, cs, rs, hrun₂, hok₂, -, -, -, -, -, hreads₂, -⟩ :=
      readEvents_spec .STEP_M host (scanEvents_readable hret)
        ((List.finRange META_MAX).drop (i.val + 1)) hok₁ (by omega)
    refine ⟨ret₂, rd₂, rs.map BufRead.range, ?_, hok₂, ?_⟩
    · simp only [readEvents, hrun₁, bind, Except.bind, if_neg hneg]
      rw [readEvents_withMissing hret .STEP_M hi hlength hbehind]
      exact hrun₂
    · rw [hreads₂, List.map_append, hreads₁, List.append_assoc]
      rfl

/-- What is read tells the length put in for a missing record. -/
private theorem reads_withMissing {i : Fin META_MAX} (hi : Missing F i) {garbage : Nat → UInt8}
    (hheap : ∀ size, host.heapBuf size = some garbage) (hin : ∀ j < i, ¬ CutFirst F j)
    (data : TlsData) (fp : Stream) :
    ∃ reads pos, ∀ length : ULong, 0 < length.toNat → length.toNat < 1024 →
      ∃ r rest, readMetaEvent .STEP_M host F (some data) fp (withMissing host F i length) = .ok r ∧
        r.reads.map BufRead.range = reads ++ (pos, length.toNat) :: rest := by
  obtain ⟨rd₀, hok₀, hloop⟩ := readLoop_withMissing hret .STEP_M hi hheap data fp
  have hroom₀ : clampedLength host (scanEvents host F) + 1 ≤ rd₀.buf.length := by
    have hmax := clampedLength_withMissing hret hi 1 (by decide)
    have := (hloop 1 (by decide)).2
    omega
  obtain ⟨rd₁, hrun₁, hok₁, hlen₁⟩ := readEvents_front hret hin hok₀ hroom₀
  refine ⟨rd₁.reads.map BufRead.range, rd₁.fp.pos, fun length hpos hlength => ?_⟩
  obtain ⟨hrun, hroom⟩ := hloop length hlength
  obtain ⟨ret, rd₂, rest, hrun₂, hok₂, hreads₂⟩ :=
    readEvents_missing hret hi hpos hlength hok₁ (by rw [hlen₁]; exact hroom)
  obtain ⟨r, hr, -, -, hreads, -⟩ := finish_spec ret hok₂
  refine ⟨r, rest, ?_, hreads ▸ hreads₂⟩
  have hbefore : i ∉ (List.finRange META_MAX).take i.val := by
    rw [mem_before]
    exact lt_irrefl i
  rw [hrun, readLoop, finRange_split i, readEvents_append,
    readEvents_withMissing hret .STEP_M hi hlength hbefore, hrun₁]
  simp only [bind, Except.bind, lt_irrefl, if_false]
  rw [hrun₂]
  exact hr

/-- The caller's array shows when all records in front of a missing one are wholly there. -/
private theorem differs_of_uncut {i : Fin META_MAX} (hi : Missing F i) {garbage : Nat → UInt8}
    (hheap : ∀ size, host.heapBuf size = some garbage) (hin : ∀ j < i, ¬ CutFirst F j)
    (data : TlsData) :
    readBack .STEP_M host F (some data) (withLength i 1) ≠
      readBack .STEP_M host F (some data) (withLength i 2) := by
  intro hsame
  rw [readBack_withLength hret _ _ hi, readBack_withLength hret _ _ hi] at hsame
  obtain ⟨reads, pos, hreads⟩ := reads_withMissing hret hi hheap hin data
    (findMetaEvents host.past F .start zeroedEvents).fp
  obtain ⟨r₁, rest₁, hrun₁, hreads₁⟩ := hreads 1 (by decide) (by decide)
  obtain ⟨r₂, rest₂, hrun₂, hreads₂⟩ := hreads 2 (by decide) (by decide)
  rw [hrun₁, hrun₂] at hsame
  have hobserved : r₁.observed = r₂.observed := Except.ok.inj hsame
  have hlog : r₁.reads.map BufRead.range =
      r₂.reads.map BufRead.range := congrArg (fun o => o.2.2) hobserved
  rw [hreads₁, hreads₂] at hlog
  have hcount := (List.cons.inj (List.append_cancel_left hlog)).1
  exact absurd (Prod.mk.inj hcount).2 (by decide)

end

/-! ## The theorem -/

section

variable {host : Host} {F : List UInt8}
  (hret : (findMetaEvents host.past F .start zeroedEvents).ret = 0)

include hret

/-- With a record of the largest size the buffer is the largest, whatever the others are. -/
private theorem clampedLength_of_large (events : Events) {j : Fin META_MAX}
    (hj : LargeFirst F j) : clampedLength host (scanned host F events) = INT_MAX - 1 := by
  have hfound : ¬ Missing F j := by
    obtain ⟨trkLenOffset, q, hfirst, -⟩ := hj
    exact not_missing.mpr ⟨trkLenOffset, q, hfirst.1⟩
  have hlarge := (largeFirst_iff hret j).mp hj
  have hint := scanEvents_length hret j
  have hmax := (getMaxMetaEventLength_spec (scanned host F events)).2.2 j
  rw [scanned_found hret events hfound, BitVec.toInt_eq_toNat_of_lt (by omega)] at hmax
  rw [clampedLength_eq, INT_MAX]
  omega

/-- When the loop stops in front of the first missing record, it reads the records found only. -/
private theorem readLoop_stops (build : Build) (events : Events)
    (hmax : clampedLength host (scanned host F events) = clampedLength host (scanEvents host F))
    {i : Fin META_MAX} (hleast : ∀ j < i, ¬ Missing F j) (hcut : ∃ j < i, CutFirst F j)
    {rd : Reader} (hok : rd.toWideState.Ok)
    (hroom : clampedLength host (scanEvents host F) + 1 ≤ rd.buf.length) :
    readLoop build host F (scanned host F events) rd = (do
      let (ret, rd) ← readEvents build host F (clampedLength host (scanEvents host F))
        (scanEvents host F) ((List.finRange META_MAX).take i.val) rd
      finish ret rd) := by
  obtain ⟨j, hji, hj⟩ := hcut
  obtain ⟨hpresent, hcut⟩ := (cutFirst_iff hret j).mp hj
  have hbefore : readEvents build host F (clampedLength host (scanned host F events))
      (scanned host F events) ((List.finRange META_MAX).take i.val) rd =
      readEvents build host F (clampedLength host (scanEvents host F)) (scanEvents host F)
        ((List.finRange META_MAX).take i.val) rd := by
    refine readEvents_congr (fun k hk => ?_) rd
    have hsame := scanned_found hret events (hleast k (mem_before.mp hk))
    rw [hmax, hsame]
    exact ⟨rfl, rfl⟩
  obtain ⟨ret, rd₁, cs, rs, hrun, -, -, -, -, -, hstop, -, -⟩ :=
    readEvents_spec build host (scanEvents_readable hret) ((List.finRange META_MAX).take i.val) hok
      hroom
  rw [delivered_cut (mem_before.mpr hji) hpresent hcut, if_neg Bool.false_ne_true] at hstop
  subst hstop
  have hall : readEvents build host F (clampedLength host (scanned host F events))
      (scanned host F events) (List.finRange META_MAX) rd = .ok (-1, rd₁) := by
    rw [finRange_split i, readEvents_append, hbefore, hrun]
    rfl
  rw [readLoop, hall, hrun]

/-- The first missing record is not come to, with either array. -/
private theorem same_of_stops (build : Build) (data : TlsData) (events events' : Events)
    {i : Fin META_MAX} (hleast : ∀ j < i, ¬ Missing F j) (hlarge : ∃ j, LargeFirst F j)
    (hcut : ∃ j < i, CutFirst F j) :
    readBack build host F (some data) events = readBack build host F (some data) events' := by
  obtain ⟨j, hj⟩ := hlarge
  have hmax (e : Events) : clampedLength host (scanned host F e) = INT_MAX - 1 :=
    clampedLength_of_large hret e hj
  have hself : clampedLength host (scanEvents host F) = INT_MAX - 1 := hmax zeroedEvents
  have hheap (e : Events) : (STATIC_META_BUFFER_SIZE : Int) <
      clampedLength host (scanned host F e) + 1 := by
    rw [hmax]
    decide
  rw [readBack_eq hret, readBack_eq hret, readMetaEvent_large build F (hheap events),
    readMetaEvent_large build F (hheap events'), hmax, hmax]
  cases host.heapBuf (INT_MAX - 1 + 1).toNat with
  | none => rfl
  | some garbage =>
    have hstart : (Reader.startLarge data (findMetaEvents host.past F .start zeroedEvents).fp
        garbage (INT_MAX - 1)).toWideState.Ok :=
      Reader.start_ok data (findMetaEvents host.past F .start zeroedEvents).fp
    have hroom : clampedLength host (scanEvents host F) + 1 ≤
        (Reader.startLarge data (findMetaEvents host.past F .start zeroedEvents).fp garbage
          (INT_MAX - 1)).buf.length := by
      rw [Reader.startLarge_buf, hself]
      exact Int.self_le_toNat _
    simp only
    rw [readLoop_stops hret build events (by rw [hmax, hself]) hleast hcut hstart hroom,
      readLoop_stops hret build events' (by rw [hmax, hself]) hleast hcut hstart hroom]

end

/-- A host without memory for a buffer of the largest size. -/
private def shortHost (past : Nat → Bool) : Host :=
  { plainHost with
    past
    heapBuf := fun size => if size < 2 ^ 31 - 1 then some fun _ => 0 else none }

/-- What the caller's array held before the scan does not show in the read-back exactly when the
reading stops in front of the first record that the file lacks, and when it asks for the largest
buffer in any case. -/
theorem readBack_callerArray {past : Nat → Bool} {F : List UInt8}
    (hret : (findMetaEvents past F .start zeroedEvents).ret = 0) :
    (∀ build host tls events events', host.past = past →
      readBack build host F tls events = readBack build host F tls events') ↔
    StopsBeforeMissing F := by
  constructor
  · intro hsame i hi
    constructor
    · by_contra hlarge
      -- a host without memory for the largest buffer
      obtain ⟨host, rfl, hgrants, hrefuses⟩ : ∃ host : Host, host.past = past ∧
          (∀ size < 2 ^ 31 - 1, (host.heapBuf size).isSome = true) ∧
          host.heapBuf (2 ^ 31 - 1) = none :=
        ⟨shortHost past, rfl, fun size hsize => congrArg Option.isSome (if_pos hsize),
          if_neg (lt_irrefl _)⟩
      exact differs_of_notLarge hret hi (not_exists.mp hlarge) hgrants hrefuses .STEP_M .zeroed
        (hsame .STEP_M host _ _ _ rfl)
    · by_contra huncut
      obtain ⟨host, garbage, rfl, hheap⟩ : ∃ (host : Host) (garbage : Nat → UInt8),
          host.past = past ∧ ∀ size, host.heapBuf size = some garbage :=
        ⟨{ plainHost with past }, fun _ => 0, rfl, fun _ => rfl⟩
      refine differs_of_uncut hret hi hheap (fun j hj hcut => ?_) .zeroed
        (hsame .STEP_M host _ _ _ rfl)
      exact huncut ⟨j, hj, hcut⟩
  · rintro hstops build host tls events events' rfl
    cases tls with
    | none => rfl
    | some data =>
      by_cases hall : ∀ i, ¬ Missing F i
      · have hsame (e : Events) : scanned host F e = scanEvents host F :=
          funext fun i => scanned_found hret e (hall i)
        rw [readBack_eq hret, readBack_eq hret, hsame, hsame]
      · obtain ⟨i, hi, hleast⟩ : ∃ i, Missing F i ∧ ∀ j < i, ¬ Missing F j := by
          obtain ⟨i, hi⟩ := not_forall.mp hall
          obtain ⟨i, hi, hleast⟩ := wellFounded_lt.has_min {i | Missing F i} ⟨i, not_not.mp hi⟩
          exact ⟨i, hi, fun j hj hmiss => hleast j hmiss hj⟩
        obtain ⟨hlarge, hcut⟩ := hstops i hi
        exact same_of_stops hret build data events events' hleast hlarge hcut

/-- A caller whose array holds a length for the sequence name. -/
def staleArray : Events := Function.update zeroedEvents META_SEQNAME ⟨0, 0, 5⟩

/-- The file has no name: from the zeroed array its text and its notice are read, and from the
other one five more bytes, which are not there. -/
theorem readBack_staleArray :
    (findMetaEvents plainHost.past textFile .start zeroedEvents).ret = 0 ∧
      (findMetaEvents plainHost.past textFile .start staleArray).ret = 0 ∧
      (readBack .STEP_M plainHost textFile (some .zeroed) zeroedEvents).toOption =
        some (0, [(META_COMMENT, .narrow [0x61, 0x62, 0x63]),
          (META_COPYRIGHT, .narrow [0x64, 0x65])], [(26, 3), (33, 2)]) ∧
      (readBack .STEP_M plainHost textFile (some .zeroed) staleArray).toOption =
        some (-1, [(META_COMMENT, .narrow [0x61, 0x62, 0x63]),
          (META_COPYRIGHT, .narrow [0x64, 0x65])], [(26, 3), (33, 2), (35, 5)]) :=
  ⟨by decide +kernel, by decide +kernel, by decide +kernel, by decide +kernel⟩

/-- A track with all three events. -/
def namedFile : List UInt8 :=
  [0x4d, 0x54, 0x68, 0x64, 0, 0, 0, 6, 0, 0, 0, 1, 0, 96, 0x4d, 0x54, 0x72, 0x6b, 0, 0, 0, 22,
    0, 0xff, 1, 3, 0x61, 0x62, 0x63, 0, 0xff, 2, 2, 0x64, 0x65, 0, 0xff, 3, 1, 0x66, 0, 0xff,
    0x2f, 0]

theorem readBack_namedFile :
    (findMetaEvents plainHost.past namedFile .start zeroedEvents).ret = 0 ∧
      ∀ build tls events events', readBack build plainHost namedFile tls events =
        readBack build plainHost namedFile tls events' := by
  have hret : (findMetaEvents plainHost.past namedFile .start zeroedEvents).ret = 0 := by
    decide +kernel
  have hfound : ∀ i, ¬ Missing namedFile i := by
    intro i hi
    have habsent := congrArg MetaEvent.offset (scanEvents_missing hret hi)
    have hoffset : ∀ i, (scanEvents plainHost namedFile i).offset ≠ -1 := by
      decide +kernel
    exact hoffset i habsent
  refine ⟨hret, fun build tls events events' => ?_⟩
  exact (readBack_callerArray hret).mpr (fun i hi => absurd hi (hfound i)) build plainHost tls
    events events' rfl

end StepMid
