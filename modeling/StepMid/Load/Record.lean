import StepMid.Framework.Store
import StepMid.Load.Metadata

/-!
# Loading into a record

A load writes to the fields of a record, and several loads into one record write one after the
other. What the record holds behind them is determined by the texts they deliver.
-/

namespace StepMid

/-! ## Calls as writes -/

theorem FILE_INFO.ext {a b : FILE_INFO} (hvalue : ∀ nField, a.value nField = b.value nField)
    (hformat : a.format = b.format) : a = b := by
  obtain ⟨value, format⟩ := a
  obtain rfl : value = b.value := funext hvalue
  obtain rfl : format = b.format := hformat
  rfl

/-- The field that a record of the scan ends up in. -/
def metaField : Fin META_MAX → FIELDTYPE
  | 0 => .FIELD_COMMENT
  | 1 => .FIELD_ARTIST_NAME
  | 2 => .FIELD_TRACK_NAME

theorem metaField_injective : Function.Injective metaField := by decide

theorem metaField_ne (i : Fin META_MAX) : metaField i ≠ .FILED_FILE_TYPE_NAME := by
  revert i
  decide

theorem metaField_cases (nField : FIELDTYPE) :
    (∃ i, nField = metaField i) ∨ nField = .FILED_FILE_TYPE_NAME := by
  cases nField with
  | FIELD_COMMENT => exact Or.inl ⟨META_COMMENT, rfl⟩
  | FIELD_ARTIST_NAME => exact Or.inl ⟨META_COPYRIGHT, rfl⟩
  | FIELD_TRACK_NAME => exact Or.inl ⟨META_SEQNAME, rfl⟩
  | FILED_FILE_TYPE_NAME => exact Or.inr rfl

theorem saSetFunc_eq (i : Fin META_MAX) (s : Str) : saSetFunc i s = .SetValue (metaField i) s := by
  match i with
  | 0 | 1 | 2 => rfl

namespace HostCall

/-- What the call writes to a text field. -/
def text : HostCall → Option (FIELDTYPE × Str)
  | SetValue nField szValue => some (nField, szValue)
  | SetFormat _ => none

def format : HostCall → Option UInt32
  | SetValue _ _ => none
  | SetFormat nFormat => some nFormat

end HostCall

theorem foldl_apply_value (calls : List HostCall) (info : FILE_INFO) :
    (calls.foldl FILE_INFO.apply info).value =
      Store.write info.value (calls.filterMap HostCall.text) := by
  induction calls generalizing info with
  | nil => rfl
  | cons c calls ih =>
    rw [List.foldl_cons, ih]
    cases c <;> rfl

theorem foldl_apply_format (calls : List HostCall) (info : FILE_INFO) :
    (calls.foldl FILE_INFO.apply info).format =
      (calls.filterMap HostCall.format).getLast?.getD info.format := by
  induction calls generalizing info with
  | nil => rfl
  | cons c calls ih =>
    rw [List.foldl_cons, ih]
    cases c with
    | SetValue nField szValue => rfl
    | SetFormat nFormat =>
      have hcons : (HostCall.SetFormat nFormat :: calls).filterMap HostCall.format =
          nFormat :: calls.filterMap HostCall.format := rfl
      rw [hcons, List.getLast?_cons, Option.getD_some]
      rfl

/-! ## The calls of one load -/

/-- What a call of `STEPLoad` depends on, other than the record. -/
structure Request where
  nFileTypeMID : UInt32
  host : Host
  tls : Option TlsData
  file : Option (List UInt8)

instance (host : Host) (tls : Option TlsData) (F : List UInt8) :
    Decidable (LoadReady host tls F) :=
  decidable_of_iff ((findMetaEvents host.past F .start zeroedEvents).ret = 0 ∧
      tls.isSome = true ∧ BufferObtained host (scanEvents host F))
    ⟨fun h => ⟨h.1, h.2.1, h.2.2⟩, fun h => ⟨h.accepted, h.data, h.buffer⟩⟩

namespace Request

variable (build : Build) (codePage : List UInt8 → List UInt16)

def load (q : Request) (info : FILE_INFO) : Except Fault LoadReturn :=
  STEPLoad build q.host q.nFileTypeMID q.tls q.file info

/-- The records that the request delivers, and whether it succeeds. -/
def delivered (q : Request) : List (Fin META_MAX) × Bool :=
  match q.file with
  | none => ([], false)
  | some F =>
    if LoadReady q.host q.tls F then deliveredAll build q.host F (scanEvents q.host F)
    else ([], false)

def status (q : Request) : Status :=
  match q.file with
  | none => .STEP_ERROR
  | some F =>
    if (findMetaEvents q.host.past F .start zeroedEvents).ret ≠ 0 then .STEP_UNKNOWN_FORMAT
    else if (q.delivered build).2 then .STEP_SUCCESS
    else .STEP_ERROR

/-- The text of the record for `i`, as it is handed to the setter. -/
def handedText (q : Request) (i : Fin META_MAX) : Str :=
  let F := q.file.getD []
  handed build codePage (textOf F (scanEvents q.host F i))

def calls (q : Request) : List HostCall :=
  ((q.delivered build).1.map fun i => saSetFunc i (q.handedText build codePage i)) ++
    if (q.delivered build).2 then formatCalls build q.nFileTypeMID else []

/-- The text that the request delivers for `i`. -/
def text (q : Request) (i : Fin META_MAX) : Option Str :=
  if i ∈ (q.delivered build).1 then some (q.handedText build codePage i) else none

/-- The file type that the request gives the record. -/
def format (q : Request) : Option UInt32 :=
  if (q.delivered build).2 then some q.nFileTypeMID else none

end Request

section

variable {build : Build} {codePage : List UInt8 → List UInt16}

/-- The calls for delivered records are determined by the code page. -/
theorem TextCalls.eq {host : Host} {F : List UInt8}
    (hconv : build = .STEP_K → host.Converts codePage) {cs : List (Fin META_MAX × Str)}
    (h : TextCalls build host F cs) :
    cs = (deliveredAll build host F (scanEvents host F)).1.map fun i =>
      (i, handed build codePage (textOf F (scanEvents host F i))) := by
  rw [← h.records, List.map_map]
  have htext : ∀ c ∈ cs, (c.1, handed build codePage (textOf F (scanEvents host F c.1))) = c := by
    rintro ⟨i, s⟩ hc
    have hmem : i ∈ (deliveredAll build host F (scanEvents host F)).1 := by
      rw [← h.records]
      exact List.mem_map_of_mem (f := Prod.fst) hc
    obtain ⟨-, limit, hdel⟩ := delivered_mem hmem
    have hset := h.text (i, s) hc
    cases build with
    | STEP_M => exact congrArg (Prod.mk i) hset.symm
    | STEP_K =>
      have hsucc := hdel.2 rfl
      exact congrArg (Prod.mk i) (hset _ (hconv rfl i _ hsucc.1 hsucc.2.2)).symm
  exact ((List.map_congr_left htext).trans (List.map_id cs)).symm

/-- A load is determined by what it delivers. -/
theorem Request.load_calls {q : Request} (hconv : build = .STEP_K → q.host.Converts codePage)
    (info : FILE_INFO) :
    q.load build info = .ok (.make info (q.status build) (q.calls build codePage)) := by
  obtain ⟨r, hr, hout⟩ := STEPLoad_spec build q.host q.nFileTypeMID q.tls q.file info
  rw [load, hr]
  obtain ⟨nFileTypeMID, host, tls, file⟩ := q
  cases hout with
  | notOpened => rfl
  | unknownFormat hno =>
    have hready : ¬ LoadReady host tls _ := fun h => hno h.accepted
    simp [status, calls, delivered, hready, hno]
  | notReady hscan hready => simp [status, calls, delivered, hready, hscan]
  | undelivered hready hall htexts =>
    simp [status, calls, delivered, handedText, hready, hready.accepted, hall, htexts.eq hconv]
    rfl
  | success hready hall htexts =>
    simp [status, calls, delivered, handedText, hready, hready.accepted, hall, htexts.eq hconv]
    rfl

theorem Request.status_success {q : Request} (h : (q.delivered build).2 = true) :
    q.status build = .STEP_SUCCESS := by
  rw [status]
  obtain ⟨nFileTypeMID, host, tls, file⟩ := q
  cases file with
  | none => cases h
  | some F =>
    have hready : LoadReady host tls F := by
      by_contra hno
      simp only [delivered, hno, if_false] at h
      cases h
    simp only [hready.accepted, ne_eq, not_true_eq_false, if_false, h, if_true]

/-! ## Loads one after the other -/

/-- What a request writes to the field of `i` is the text it delivers for `i`. -/
theorem Request.written_calls (q : Request) (i : Fin META_MAX) :
    Store.written ((q.calls build codePage).filterMap HostCall.text) (metaField i) =
      (q.text build codePage i).toList := by
  have hnodup : (q.delivered build).1.Nodup := by
    rw [delivered]
    split
    · exact List.nodup_nil
    · split
      · exact (delivered_sublist ..).nodup (List.nodup_finRange _)
      · exact List.nodup_nil
  have htype : Store.written ((if (q.delivered build).2 then formatCalls build q.nFileTypeMID
      else []).filterMap HostCall.text) (metaField i) = [] := by
    apply Store.written_eq_nil
    intro w hw
    split at hw
    · have hw : (.FILED_FILE_TYPE_NAME, tchar build [0x4d, 0x49, 0x44, 0x49]) = w := by
        simpa [formatCalls, HostCall.text, SetFileTypeName] using hw
      rw [← hw]
      exact (metaField_ne i).symm
    · cases hw
  have htexts : ((q.delivered build).1.map fun i =>
      saSetFunc i (q.handedText build codePage i)).filterMap HostCall.text =
        (q.delivered build).1.map fun i => (metaField i, q.handedText build codePage i) := by
    simp [List.filterMap_map, Function.comp_def, saSetFunc_eq, HostCall.text]
  rw [calls, List.filterMap_append, Store.written_append, htype, List.append_nil, htexts,
    Store.written_map metaField_injective _ hnodup, text]
  split <;> rfl

theorem Request.written_fileType (q : Request) :
    Store.written ((q.calls build codePage).filterMap HostCall.text)
        .FILED_FILE_TYPE_NAME =
      if (q.delivered build).2 then [tchar build [0x4d, 0x49, 0x44, 0x49]] else [] := by
  have htexts : Store.written (((q.delivered build).1.map fun i =>
      saSetFunc i (q.handedText build codePage i)).filterMap HostCall.text)
        .FILED_FILE_TYPE_NAME = [] := by
    apply Store.written_eq_nil
    intro w hw
    simp only [List.filterMap_map, Function.comp_def, saSetFunc_eq, HostCall.text,
      List.filterMap_eq_map', List.mem_map] at hw
    obtain ⟨i, -, rfl⟩ := hw
    exact metaField_ne i
  rw [calls, List.filterMap_append, Store.written_append, htexts, List.nil_append]
  split <;> rfl

theorem Request.formats (q : Request) :
    (q.calls build codePage).filterMap HostCall.format = (q.format build).toList := by
  have htexts : ((q.delivered build).1.map fun i =>
      saSetFunc i (q.handedText build codePage i)).filterMap HostCall.format = [] := by
    simp [List.filterMap_map, Function.comp_def, saSetFunc_eq, HostCall.format]
  rw [calls, List.filterMap_append, htexts, List.nil_append, format]
  split <;> rfl

/-- Loads into one record. -/
def loadAll (build : Build) : List Request → FILE_INFO → Except Fault FILE_INFO
  | [], info => .ok info
  | q :: qs, info => do
    let r ← q.load build info
    loadAll build qs r.info

theorem loadAll_calls {qs : List Request}
    (hconv : build = .STEP_K → ∀ q ∈ qs, q.host.Converts codePage) (info : FILE_INFO) :
    loadAll build qs info =
      .ok ((qs.flatMap (Request.calls build codePage)).foldl FILE_INFO.apply info) := by
  induction qs generalizing info with
  | nil => rfl
  | cons q qs ih =>
    have hload := Request.load_calls (fun hbuild => hconv hbuild q List.mem_cons_self) info
    rw [loadAll, hload, List.flatMap_cons, List.foldl_append]
    exact ih (fun hbuild p hp => hconv hbuild p (List.mem_cons_of_mem q hp)) _

private theorem flatMap_toList {α β : Type} (l : List α) (f : α → Option β) :
    (l.flatMap fun a => (f a).toList) = l.filterMap f := by
  induction l with
  | nil => rfl
  | cons a l ih =>
    rw [List.flatMap_cons, ih, List.filterMap_cons]
    cases f a <;> rfl

/-- The last of the values that the members with `p` contribute alike. -/
private theorem getLast?_const {α β : Type} (l : List α) (p : α → Bool) (b c : β) :
    (l.flatMap fun a => if p a then [b] else []).getLast?.getD c = if l.any p then b else c := by
  induction l generalizing c with
  | nil => rfl
  | cons a l ih =>
    rw [List.flatMap_cons, List.getLast?_append, Option.getD_or, ih, List.any_cons]
    cases p a <;> cases l.any p <;> rfl

section

variable (build codePage)

theorem calls_text (qs : List Request) (info : FILE_INFO) (i : Fin META_MAX) :
    ((qs.flatMap (Request.calls build codePage)).foldl FILE_INFO.apply info).value
        (metaField i) =
      (qs.filterMap fun q => q.text build codePage i).getLast?.getD
        (info.value (metaField i)) := by
  rw [foldl_apply_value, List.filterMap_flatMap, Store.write_apply, Store.written_flatMap]
  simp only [Request.written_calls, flatMap_toList]

theorem calls_fileType (qs : List Request) (info : FILE_INFO) :
    ((qs.flatMap (Request.calls build codePage)).foldl FILE_INFO.apply info).value
        .FILED_FILE_TYPE_NAME =
      if qs.any fun q => (q.delivered build).2 then tchar build [0x4d, 0x49, 0x44, 0x49]
        else info.value .FILED_FILE_TYPE_NAME := by
  rw [foldl_apply_value, List.filterMap_flatMap, Store.write_apply, Store.written_flatMap]
  simp only [Request.written_fileType, getLast?_const]

theorem calls_format (qs : List Request) (info : FILE_INFO) :
    ((qs.flatMap (Request.calls build codePage)).foldl FILE_INFO.apply info).format =
      (qs.filterMap (Request.format build)).getLast?.getD info.format := by
  rw [foldl_apply_format, List.filterMap_flatMap]
  simp only [Request.formats, flatMap_toList]

/-- The record behind one load. -/
theorem Request.apply_calls (q : Request) (info : FILE_INFO) :
    let info' := (q.calls build codePage).foldl FILE_INFO.apply info
    (∀ i, info'.value (metaField i) =
      (q.text build codePage i).getD (info.value (metaField i))) ∧
    info'.value .FILED_FILE_TYPE_NAME =
      (if (q.delivered build).2 then tchar build [0x4d, 0x49, 0x44, 0x49]
        else info.value .FILED_FILE_TYPE_NAME) ∧
    info'.format = if (q.delivered build).2 then q.nFileTypeMID else info.format := by
  have htext := calls_text build codePage [q] info
  have htype := calls_fileType build codePage [q] info
  have hformat := calls_format build codePage [q] info
  rw [List.flatMap_singleton] at htext htype hformat
  refine ⟨fun i => ?_, by simpa using htype, ?_⟩
  · rw [htext i, List.filterMap_cons]
    cases q.text build codePage i <;> rfl
  · rw [hformat, List.filterMap_cons, format]
    cases (q.delivered build).2 <;> rfl

end

end

/-- Behind any number of loads into one record, each of its fields holds the text that was
delivered for it last, or what it held before, and its type is that of the last load that
succeeded. -/
theorem loadAll_record (build : Build) {codePage : List UInt8 → List UInt16} {qs : List Request}
    (hconv : build = .STEP_K → ∀ q ∈ qs, q.host.Converts codePage) (info : FILE_INFO) :
    ∃ info', loadAll build qs info = .ok info' ∧
      (∀ i, info'.value (metaField i) =
        (qs.filterMap fun q => q.text build codePage i).getLast?.getD
          (info.value (metaField i))) ∧
      info'.value .FILED_FILE_TYPE_NAME =
        (if qs.any fun q => (q.delivered build).2 then tchar build [0x4d, 0x49, 0x44, 0x49]
          else info.value .FILED_FILE_TYPE_NAME) ∧
      info'.format = (qs.filterMap (Request.format build)).getLast?.getD info.format :=
  ⟨_, loadAll_calls hconv info, calls_text build codePage qs info,
    calls_fileType build codePage qs info, calls_format build codePage qs info⟩

/-- The file without its events, other than End-of-Track. -/
def emptyFile : List UInt8 := textFile.take 22 ++ textFile.drop 35

/-- A file without texts leaves those of the file loaded before. -/
theorem loadAll_record_textFile :
    ∃ info', loadAll .STEP_K [⟨7, plainHost, some .zeroed, some textFile⟩,
        ⟨8, plainHost, some .zeroed, some emptyFile⟩] blankInfo = .ok info' ∧
      info'.value .FIELD_COMMENT = .wide [0x61, 0x62, 0x63] ∧ info'.format = 8 := by
  have hconv : ∀ q ∈ ([⟨7, plainHost, some .zeroed, some textFile⟩,
      ⟨8, plainHost, some .zeroed, some emptyFile⟩] : List Request), q.host.Converts latin1 :=
    List.forall_mem_cons.mpr ⟨plainHost_converts, List.forall_mem_singleton.mpr plainHost_converts⟩
  obtain ⟨info', hload, htext, -, hformat⟩ := loadAll_record .STEP_K (fun _ => hconv) blankInfo
  refine ⟨info', hload, (htext META_COMMENT).trans ?_, hformat.trans ?_⟩
  · decide +kernel
  · decide +kernel

end StepMid
