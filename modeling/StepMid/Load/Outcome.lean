import StepMid.Load.Exact
import StepMid.Load.Record
import StepMid.Smf.Rejection

/-!
# What a load makes of a file

The outcome of a load in terms of the events that a reader of the file meets, for files of any
content.
-/

namespace StepMid

/-- The first event met for `i` has data, and these are the text up to its first null. -/
def TextMet (F : List UInt8) (i : Fin META_MAX) (text : List UInt8) : Prop :=
  ∃ trkLenOffset q, FirstMet F i trkLenOffset q ∧ metaLen F q ≠ 0 ∧
    text = Buffer.cstr ((F.drop (metaEnd F q)).take (metaLen F q).toNat)

/-- The data of the first events met end inside the file. -/
def TextsInside (F : List UInt8) : Prop :=
  ∀ i trkLenOffset q, FirstMet F i trkLenOffset q →
    metaEnd F q + (metaLen F q).toNat ≤ F.length

section

variable {build : Build} {host : Host} {F : List UInt8} {i : Fin META_MAX}

/-- A record stands for the first event met, or it is absent. -/
private theorem record_cases (h : (findMetaEvents host.past F .start zeroedEvents).ret = 0)
    (i : Fin META_MAX) :
    (∃ trkLenOffset q, FirstMet F i trkLenOffset q ∧
      scanEvents host F i = ⟨trkLenOffset, metaEnd F q, metaLen F q⟩) ∨
    (∀ trkLenOffset q, ¬ FirstMet F i trkLenOffset q) ∧ (scanEvents host F i).length = 0 := by
  obtain ⟨hheld, hmet⟩ := findMetaEvents_firstMet h i
  by_cases hfirst : ∃ trkLenOffset q, FirstMet F i trkLenOffset q
  · obtain ⟨trkLenOffset, q, hfirst⟩ := hfirst
    exact Or.inl ⟨trkLenOffset, q, hfirst, hheld _ _ hfirst⟩
  · right
    refine ⟨fun trkLenOffset q hq => hfirst ⟨trkLenOffset, q, hq⟩, ?_⟩
    by_contra hpresent
    obtain ⟨q, -, hat, -⟩ := scanEvents_present h hpresent
    apply hfirst
    apply hmet
    have hoff := hat.offset
    rw [scanEvents] at hoff
    rw [hoff]
    exact Int.natCast_nonneg _

theorem FirstMet.unique {trkLenOffset q trkLenOffset' q' : Nat} (h : FirstMet F i trkLenOffset q)
    (h' : FirstMet F i trkLenOffset' q') : q = q' :=
  Nat.le_antisymm (h.2 _ _ h'.1) (h'.2 _ _ h.1)

theorem FirstMet.metaEnd_le {trkLenOffset q : Nat} (h : FirstMet F i trkLenOffset q) :
    metaEnd F q ≤ F.length := by
  obtain ⟨⟨track, rs, p, ty, -, hm, -⟩, -⟩ := h
  exact StepMid.metaEnd_le hm.type

/-- The records are inside the file when the data of the events are. -/
private theorem inside_iff (h : (findMetaEvents host.past F .start zeroedEvents).ret = 0) :
    (∀ i, ¬ (scanEvents host F i).Outside F) ↔ TextsInside F := by
  refine forall_congr' fun i => ?_
  rcases record_cases h i with ⟨trkLenOffset, q, hfirst, hrec⟩ | ⟨hnone, habsent⟩
  · rw [hrec, MetaEvent.Outside, MetaEvent.EndsBy]
    simp only [Int.toNat_natCast, not_and, not_not]
    constructor
    · intro hinside trkLenOffset' q' hfirst'
      obtain rfl := hfirst.unique hfirst'
      by_cases hempty : metaLen F q = 0
      · rw [hempty]
        exact hfirst.metaEnd_le
      · exact hinside hempty
    · intro hinside _
      exact hinside _ _ hfirst
  · exact iff_of_true (fun hout => hout.1 habsent) fun _ _ hq => absurd hq (hnone _ _)

/-! ## What is delivered -/

/-- On a host that obliges, an accepted file is delivered as far as its texts are inside. -/
private theorem deliveredAll_inside (hhost : host.Obliges build) (hsize : F.length < 2 ^ 31)
    (h : (findMetaEvents host.past F .start zeroedEvents).ret = 0) :
    ((deliveredAll build host F (scanEvents host F)).2 = true ↔ TextsInside F) ∧
      (TextsInside F → ∀ i, i ∈ (deliveredAll build host F (scanEvents host F)).1 ↔
        (scanEvents host F i).length ≠ 0) := by
  have hbehind := scanEvents_behindHeader h
  obtain ⟨hfirst, hall⟩ : (deliveredAll build host F (scanEvents host F)).1 = _ ∧ (_ ↔ _) :=
    delivered_eq (fun i _ hi limit => hbehind.deliverable_iff hhost hsize hi limit) _
  have hiff : (deliveredAll build host F (scanEvents host F)).2 = true ↔ TextsInside F := by
    rw [← inside_iff h]
    refine hall.trans ?_
    rw [List.findIdx_eq_length]
    simp
  refine ⟨hiff, ?_⟩
  intro hinside i
  have hend := hall.mp (hiff.mpr hinside)
  rw [hfirst, hend, List.take_length, List.mem_filter, decide_eq_true_eq]
  exact and_iff_right (List.mem_finRange i)

/-- The text of a record is that of the event. -/
private theorem textOf_record (hsize : F.length < 2 ^ 31)
    (h : (findMetaEvents host.past F .start zeroedEvents).ret = 0) (hinside : TextsInside F)
    {trkLenOffset q : Nat} (hfirst : FirstMet F i trkLenOffset q)
    (hrec : scanEvents host F i = ⟨trkLenOffset, metaEnd F q, metaLen F q⟩) :
    textOf F (scanEvents host F i) =
      Buffer.cstr ((F.drop (metaEnd F q)).take (metaLen F q).toNat) := by
  have hend := hinside i _ _ hfirst
  have hlen := scanEvents_length h i
  have hlocal : (scanEvents host F i).localLength = (scanEvents host F i).length.toNat := by
    apply localLength_eq hsize hlen
    · rw [hrec, metaEnd]
      simp only
      omega
    · rw [MetaEvent.localLength, hrec]
      simp only [Int.toNat_natCast]
      omega
  rw [textOf, hlocal, hrec]
  simp only [Int.toNat_natCast]

/-- A request for an accepted file, on a host that obliges. -/
private theorem delivered_iff (hhost : host.Obliges build) (hsize : F.length < 2 ^ 31)
    (h : (findMetaEvents host.past F .start zeroedEvents).ret = 0) (nFileTypeMID : UInt32)
    (tls : Option TlsData) :
    ((Request.delivered build ⟨nFileTypeMID, host, tls, some F⟩).2 = true ↔
      tls.isSome = true ∧ TextsInside F) ∧
    (tls.isSome = true ∧ TextsInside F → ∀ i,
      i ∈ (Request.delivered build ⟨nFileTypeMID, host, tls, some F⟩).1 ↔
        (scanEvents host F i).length ≠ 0) := by
  obtain ⟨hall, hmem⟩ := deliveredAll_inside hhost hsize h
  by_cases hdata : tls.isSome = true
  · have hready : LoadReady host tls F := ⟨h, hdata, .of_grants hhost.heapBuf _⟩
    simp only [Request.delivered, hready, if_true]
    exact ⟨hall.trans (and_iff_right hdata).symm, fun hinside => hmem hinside.2⟩
  · have hready : ¬ LoadReady host tls F := fun hready => hdata hready.data
    simp only [Request.delivered, hready, if_false]
    exact ⟨iff_of_false Bool.false_ne_true fun hinside => hdata hinside.1,
      fun hinside => absurd hinside.1 hdata⟩

/-- What such a request hands over for `i`. -/
private theorem text_of_inside (hhost : host.Obliges build) (hsize : F.length < 2 ^ 31)
    (h : (findMetaEvents host.past F .start zeroedEvents).ret = 0) (nFileTypeMID : UInt32)
    {tls : Option TlsData} (hall : tls.isSome = true ∧ TextsInside F)
    (codePage : List UInt8 → List UInt16) (i : Fin META_MAX) :
    (∀ text, TextMet F i text →
      Request.text build codePage ⟨nFileTypeMID, host, tls, some F⟩ i =
        some (handed build codePage text)) ∧
    ((∀ text, ¬ TextMet F i text) →
      Request.text build codePage ⟨nFileTypeMID, host, tls, some F⟩ i = none) := by
  have hmem := (delivered_iff hhost hsize h nFileTypeMID tls).2 hall i
  rw [Request.text]
  rcases record_cases h i with ⟨trkLenOffset, q, hfirst, hrec⟩ | ⟨hnone, habsent⟩
  · rw [hrec] at hmem
    simp only at hmem
    have htext := textOf_record hsize h hall.2 hfirst hrec
    constructor
    · rintro text ⟨trkLenOffset', q', hfirst', hpresent, rfl⟩
      obtain rfl := hfirst.unique hfirst'
      rw [if_pos (hmem.mpr hpresent), Request.handedText]
      dsimp only [Option.getD_some]
      rw [htext]
    · intro hnone
      apply if_neg
      intro hdelivered
      exact hnone _ ⟨trkLenOffset, q, hfirst, hmem.mp hdelivered, rfl⟩
  · constructor
    · rintro text ⟨trkLenOffset, q, hfirst, -⟩
      exact absurd hfirst (hnone _ _)
    · intro _
      apply if_neg
      intro hdelivered
      exact hmem.mp hdelivered habsent

/-- The status of a request, on a host that obliges. -/
private theorem status_iff (hhost : host.Obliges build) (hsize : F.length < 2 ^ 31)
    (nFileTypeMID : UInt32) (tls : Option TlsData) :
    (Request.status build ⟨nFileTypeMID, host, tls, some F⟩ = .STEP_UNKNOWN_FORMAT ↔
      ScanRefused host.past F zeroedEvents ∨ Rejected F) ∧
    (Request.status build ⟨nFileTypeMID, host, tls, some F⟩ = .STEP_SUCCESS ↔
      ¬ (ScanRefused host.past F zeroedEvents ∨ Rejected F) ∧ tls.isSome = true ∧
        TextsInside F) := by
  have haccepted : (findMetaEvents host.past F .start zeroedEvents).ret = 0 ↔
      ¬ (ScanRefused host.past F zeroedEvents ∨ Rejected F) :=
    (accepted_iff hsize).trans not_or.symm
  by_cases h : (findMetaEvents host.past F .start zeroedEvents).ret = 0
  · have hno := haccepted.mp h
    have hstatus : Request.status build ⟨nFileTypeMID, host, tls, some F⟩ = _ :=
      if_neg (not_not_intro h)
    rw [hstatus, ← (delivered_iff hhost hsize h nFileTypeMID tls).1]
    split <;> simp [*]
  · have hunknown : ScanRefused host.past F zeroedEvents ∨ Rejected F := by
      by_contra hno
      exact h (haccepted.mpr hno)
    have hstatus : Request.status build ⟨nFileTypeMID, host, tls, some F⟩ =
        .STEP_UNKNOWN_FORMAT := if_pos h
    rw [hstatus]
    simp [hunknown]

/-- What the calls of a request that succeeds make of the record. -/
private theorem fields_of_inside (hhost : host.Obliges build) (hsize : F.length < 2 ^ 31)
    (h : (findMetaEvents host.past F .start zeroedEvents).ret = 0) (nFileTypeMID : UInt32)
    {tls : Option TlsData} (hall : tls.isSome = true ∧ TextsInside F)
    (codePage : List UInt8 → List UInt16) (info : FILE_INFO) :
    let info' := (Request.calls build codePage ⟨nFileTypeMID, host, tls, some F⟩).foldl
      FILE_INFO.apply info
    info'.format = nFileTypeMID ∧
      ∀ i, (∀ text, TextMet F i text →
          info'.value (metaField i) = handed build codePage text) ∧
        ((∀ text, ¬ TextMet F i text) → info'.value (metaField i) = info.value (metaField i)) := by
  obtain ⟨htext, -, hformat⟩ := Request.apply_calls build codePage
    ⟨nFileTypeMID, host, tls, some F⟩ info
  rw [if_pos ((delivered_iff hhost hsize h nFileTypeMID tls).1.mpr hall)] at hformat
  refine ⟨hformat, fun i => ?_⟩
  obtain ⟨hmet, hnone⟩ := text_of_inside hhost hsize h nFileTypeMID hall codePage i
  constructor
  · intro text htextmet
    exact (htext i).trans (by rw [hmet text htextmet, Option.getD_some])
  · intro hno
    exact (htext i).trans (by rw [hnone hno, Option.getD_none])

end

/-- The outcome of a load on a host that obliges. The format of a file is unknown when a seek is
refused or the file is to be rejected. Otherwise the load succeeds exactly when the thread has its
buffers and the texts end inside the file, and fills in the texts that a reader meets first. -/
theorem STEPLoad_outcome (build : Build) {host : Host} (hhost : host.Obliges build)
    {codePage : List UInt8 → List UInt16} (hconv : build = .STEP_K → host.Converts codePage)
    (nFileTypeMID : UInt32) (tls : Option TlsData) {F : List UInt8} (hsize : F.length < 2 ^ 31)
    (info : FILE_INFO) :
    ∃ r, STEPLoad build host nFileTypeMID tls (some F) info = .ok r ∧
      (r.ret = .STEP_UNKNOWN_FORMAT ↔ ScanRefused host.past F zeroedEvents ∨ Rejected F) ∧
      (r.ret = .STEP_SUCCESS ↔ ¬ (ScanRefused host.past F zeroedEvents ∨ Rejected F) ∧
        tls.isSome = true ∧ TextsInside F) ∧
      (r.ret = .STEP_SUCCESS → r.info.format = nFileTypeMID ∧
        ∀ i, (∀ text, TextMet F i text →
            r.info.value (metaField i) = handed build codePage text) ∧
          ((∀ text, ¬ TextMet F i text) →
            r.info.value (metaField i) = info.value (metaField i))) := by
  have hload := Request.load_calls (q := ⟨nFileTypeMID, host, tls, some F⟩) hconv info
  obtain ⟨hunknown, hsuccess⟩ := status_iff hhost hsize nFileTypeMID tls
  refine ⟨_, hload, hunknown, hsuccess, ?_⟩
  intro hret
  obtain ⟨hno, hinside⟩ := hsuccess.mp hret
  have h := (accepted_iff hsize).mpr (not_or.mp hno)
  exact fields_of_inside hhost hsize h nFileTypeMID hinside codePage info

theorem STEPLoad_outcome_textFile : ¬ Rejected textFile ∧ TextsInside textFile := by
  obtain ⟨r, hload, -, hsuccess, -⟩ := STEPLoad_outcome .STEP_K (plainHost_obliges .STEP_K)
    (fun _ => plainHost_converts) 7 (some .zeroed) (F := textFile) (by decide) blankInfo
  have hret : (STEPLoad .STEP_K plainHost 7 (some .zeroed) (some textFile) blankInfo).toOption.map
      LoadReturn.ret = some .STEP_SUCCESS := by
    decide +kernel
  rw [hload] at hret
  obtain ⟨hno, -, hinside⟩ := hsuccess.mp (Option.some.inj hret)
  exact ⟨fun hrejected => hno (Or.inr hrejected), hinside⟩

end StepMid
