import StepMid.Load.StepLoad
import StepMid.Smf.Skipped

/-!
# What a load depends on

A load sees of the file what the scan looks at and the data of the recorded events. Of the host's
answers to seeks it sees those to the scan.
-/

namespace StepMid

/-- The host with other answers to seeks behind the end of a file. -/
def Host.seeking (host : Host) (past : Nat → Bool) : Host := { host with past }

/-- Both files hold the same data for record `r`. -/
def MetaEvent.SameData (F G : List UInt8) (r : MetaEvent) : Prop :=
  (G.drop r.offset.toNat).take r.length.toNat = (F.drop r.offset.toNat).take r.length.toNat

section

variable {build : Build} {host : Host} {past : Nat → Bool} {F G : List UInt8}

private theorem callSetter_seeking (i : Fin META_MAX) (rd : Reader) :
    callSetter build (host.seeking past) i rd = callSetter build host i rd := rfl

theorem MetaEvent.SameData.localData {r : MetaEvent} (h : r.SameData F G) :
    (G.drop r.offset.toNat).take r.localLength = (F.drop r.offset.toNat).take r.localLength := by
  have hle : r.localLength ≤ r.length.toNat := Nat.min_le_left _ _
  have htake := congrArg (List.take r.localLength) h
  rwa [List.take_take, List.take_take, Nat.min_eq_left hle] at htake

/-- A present record is read alike where its data is the same. -/
private theorem readEvent_same {maxLength : Int} {events : Events}
    (hF : Readable host F maxLength events) (hG : Readable (host.seeking past) G maxLength events)
    {i : Fin META_MAX} (hdata : (events i).SameData F G) (rd : Reader) :
    readEvent build (host.seeking past) G maxLength events i rd =
      readEvent build host F maxLength events i rd := by
  by_cases hi : (events i).length = 0
  · rw [readEvent, readEvent, if_pos hi, if_pos hi]
  · have hrunF := readEvent_eq build host F hi (hF.local_eq i) rd
    have hrunG := readEvent_eq build (host.seeking past) G hi (hG.local_eq i) rd
    simp only [hF.sought hi] at hrunF
    simp only [hG.sought hi] at hrunG
    have hgot := hdata.localData
    have hread : fread G (events i).localLength ⟨(events i).offset.toNat, false⟩ =
        fread F (events i).localLength ⟨(events i).offset.toNat, false⟩ := by
      rw [fread, fread, hgot]
    rw [hrunF, hrunG, hread, hgot]
    rfl

private theorem readEvents_same {maxLength : Int} {events : Events}
    (hF : Readable host F maxLength events) (hG : Readable (host.seeking past) G maxLength events)
    (hdata : ∀ i, (events i).SameData F G) (is : List (Fin META_MAX)) (rd : Reader) :
    readEvents build (host.seeking past) G maxLength events is rd =
      readEvents build host F maxLength events is rd := by
  induction is generalizing rd with
  | nil => rfl
  | cons i is ih => simp only [readEvents, readEvent_same hF hG (hdata i), ih]

private theorem readMetaEvent_same (build : Build) {events : Events}
    (hF : Readable host F (clampedLength host events) events)
    (hG : Readable (host.seeking past) G (clampedLength host events) events)
    (hdata : ∀ i, (events i).SameData F G) (tls : Option TlsData) (fp : Stream) :
    readMetaEvent build (host.seeking past) G tls fp events =
      readMetaEvent build host F tls fp events := by
  have hclamp : clampedLength (host.seeking past) events = clampedLength host events := rfl
  have hloop (rd : Reader) : readLoop build (host.seeking past) G events rd =
      readLoop build host F events rd := by
    rw [readLoop, readLoop, hclamp, readEvents_same hF hG hdata]
  cases tls with
  | none => rfl
  | some data =>
    rcases lt_or_ge (STATIC_META_BUFFER_SIZE : Int) (clampedLength host events + 1) with
      hlarge | hsmall
    · have hheap : (host.seeking past).heapBuf = host.heapBuf := rfl
      rw [readMetaEvent_large build F hlarge, readMetaEvent_large build G (by rwa [hclamp]),
        hclamp, hheap]
      cases host.heapBuf (clampedLength host events + 1).toNat with
      | none => rfl
      | some garbage => exact hloop _
    · rw [readMetaEvent_small build F hsmall, readMetaEvent_small build G (by rwa [hclamp]), hloop]

/-- A load is determined by its scan and by the data of the recorded events. -/
theorem STEPLoad_congr
    (hscan : findMetaEvents past G .start zeroedEvents =
      findMetaEvents host.past F .start zeroedEvents)
    (hdata : ∀ i, (scanEvents host F i).SameData F G) (nFileTypeMID : UInt32)
    (tls : Option TlsData) (info : FILE_INFO) :
    STEPLoad build (host.seeking past) nFileTypeMID tls (some G) info =
      STEPLoad build host nFileTypeMID tls (some F) info := by
  have hscan' : findMetaEvents (host.seeking past).past G .start zeroedEvents =
      findMetaEvents host.past F .start zeroedEvents := hscan
  by_cases haccepted : (findMetaEvents host.past F .start zeroedEvents).ret = 0
  · have hF := scanEvents_readable haccepted
    have hsame : scanEvents (host.seeking past) G = scanEvents host F := by
      rw [scanEvents, hscan', ← scanEvents]
    have hG : Readable (host.seeking past) G (clampedLength host (scanEvents host F))
        (scanEvents host F) := by
      rw [← hsame]
      exact scanEvents_readable (by rw [hscan', haccepted])
    have hread (fp : Stream) := readMetaEvent_same build hF hG hdata tls fp
    rw [scanEvents] at hread
    simp only [STEPLoad, hscan', hread]
  · simp only [STEPLoad, hscan', haccepted, if_false]

/-- The bytes of the data of record `r`. -/
def MetaEvent.Holds (r : MetaEvent) (p : Nat) : Prop :=
  r.offset.toNat ≤ p ∧ p < r.offset.toNat + r.length.toNat

private theorem sameData_of_same {r : MetaEvent} (h : ∀ p, r.Holds p → G[p]? = F[p]?) :
    r.SameData F G := by
  apply List.ext_getElem?
  intro k
  by_cases hk : k < r.length.toNat
  · rw [List.getElem?_take_of_lt hk, List.getElem?_take_of_lt hk, List.getElem?_drop,
      List.getElem?_drop]
    exact h _ ⟨Nat.le_add_right _ _, Nat.add_lt_add_left hk _⟩
  · rw [List.getElem?_eq_none (by rw [List.length_take]; omega),
      List.getElem?_eq_none (by rw [List.length_take]; omega)]

end

/-- Of a file that the scan accepts, a load does not see what the scan skips, other than the data
of the recorded events. -/
theorem STEPLoad_ignores (build : Build) (host : Host) (nFileTypeMID : UInt32)
    (tls : Option TlsData) {F G : List UInt8} (hlen : G.length = F.length)
    (h : ∀ p, G[p]? ≠ F[p]? → ScanSkips host.past F zeroedEvents p ∧
      ∀ i, ¬ (scanEvents host F i).Holds p) (info : FILE_INFO) :
    STEPLoad build host nFileTypeMID tls (some G) info =
      STEPLoad build host nFileTypeMID tls (some F) info := by
  refine STEPLoad_congr (findMetaEvents_skips hlen fun p hp => (h p hp).1) ?_ nFileTypeMID tls info
  intro i
  apply sameData_of_same
  intro p hp
  by_contra hne
  exact (h p hne).2 i hp

/-- The file with other data in its header chunk and another length of its track. -/
def textFileOther : List UInt8 :=
  textFile.take 4 ++ [9, 9, 9, 9, 9, 9, 9, 9, 9, 9] ++ (textFile.drop 14).take 4 ++ [9, 9, 9, 9] ++
    textFile.drop 22

theorem STEPLoad_ignores_textFile :
    STEPLoad .STEP_K plainHost 1 (some .zeroed) (some textFileOther) blankInfo =
      STEPLoad .STEP_K plainHost 1 (some .zeroed) (some textFile) blankInfo := by
  refine STEPLoad_ignores .STEP_K plainHost 1 (some .zeroed) (by decide) (fun p hp => ?_) blankInfo
  have hrange : ∀ p, p < 39 → textFileOther[p]? ≠ textFile[p]? →
      4 ≤ p ∧ p < 14 ∨ 18 ≤ p ∧ p < 22 := by decide
  have hlt : p < 39 := by
    by_contra hge
    apply hp
    rw [List.getElem?_eq_none (Nat.not_lt.mp hge), List.getElem?_eq_none (Nat.not_lt.mp hge)]
  have hrange := hrange p hlt hp
  constructor
  · rcases hrange with ⟨hlo, hhi⟩ | ⟨hlo, hhi⟩
    · exact .header hlo hhi
    · exact .step ⟨⟨rfl, Or.inr rfl⟩, .refl _⟩ (.chunk rfl rfl (by decide)) hlo hhi
  · have hoffset : ∀ i, 22 ≤ (scanEvents plainHost textFile i).offset.toNat ∨
        (scanEvents plainHost textFile i).length.toNat = 0 := by decide +kernel
    rintro i ⟨hle, hend⟩
    have := hoffset i
    omega

/-- What follows a file has no influence on its load, unless the scan ran into the end of the
file. -/
theorem STEPLoad_trailing (build : Build) (host : Host) (nFileTypeMID : UInt32)
    (tls : Option TlsData) {F : List UInt8}
    (hret : (findMetaEvents host.past F .start zeroedEvents).ret = 0)
    (heof : (findMetaEvents host.past F .start zeroedEvents).fp.eof = false) (junk : List UInt8)
    (info : FILE_INFO) :
    STEPLoad build host nFileTypeMID tls (some (F ++ junk)) info =
      STEPLoad build host nFileTypeMID tls (some F) info := by
  refine STEPLoad_congr (findMetaEvents_append hret heof junk) ?_ nFileTypeMID tls info
  intro i
  by_cases habsent : (scanEvents host F i).length = 0
  · rw [MetaEvent.SameData, habsent]
    rfl
  · obtain ⟨q, pos, hat, -⟩ := scanEvents_present hret habsent
    have hinside := record_inside hret heof hat.offset
    rw [← scanEvents] at hinside
    rw [MetaEvent.SameData, hat.offset, Int.toNat_natCast, List.drop_append_of_le_length (by omega),
      List.take_append_of_le_length (by rw [List.length_drop]; omega)]

theorem STEPLoad_trailing_textFile :
    STEPLoad .STEP_K plainHost 1 (some .zeroed) (some (textFile ++ textFile)) blankInfo =
      STEPLoad .STEP_K plainHost 1 (some .zeroed) (some textFile) blankInfo :=
  STEPLoad_trailing .STEP_K plainHost 1 (some .zeroed) (by decide +kernel) (by decide +kernel)
    textFile blankInfo

/-- If the host refuses a seek that the scan makes, the file is of an unknown format; if not, it
makes no difference to the load which seeks it refuses. -/
theorem STEPLoad_refused (build : Build) (host : Host) (nFileTypeMID : UInt32)
    (tls : Option TlsData) (F : List UInt8) (info : FILE_INFO) :
    (ScanRefused host.past F zeroedEvents →
      STEPLoad build host nFileTypeMID tls (some F) info =
        .ok (.make info .STEP_UNKNOWN_FORMAT [])) ∧
    (¬ ScanRefused host.past F zeroedEvents →
      STEPLoad build host nFileTypeMID tls (some F) info =
        STEPLoad build (host.seeking fun _ => true) nFileTypeMID tls (some F) info) := by
  refine ⟨fun hrefused => ?_, fun hgranted => ?_⟩
  · have hret : (findMetaEvents host.past F .start zeroedEvents).ret ≠ 0 := by
      rw [hrefused.ret]
      decide
    simp only [STEPLoad, hret, if_false]
  · have hcongr := @STEPLoad_congr build (host.seeking fun _ => true) host.past F F
      (findMetaEvents_lenient hgranted) (fun _ => rfl) nFileTypeMID tls info
    exact hcongr

end StepMid
