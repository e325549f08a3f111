import StepMid.Plugin.Guarded

/-!
# The records of a session

A session loads files into many records. What one of them holds is what its own loads make of it.
-/

namespace StepMid

namespace PluginCall

/-- `nFileTypeMID` behind a call. -/
def fileType (nFileTypeMID : UInt32) : PluginCall → UInt32
  | STEPInit _ (some _) _ nFileType => nFileType
  | STEPInit _ none _ _ | STEPFinalize | STEPLoad _ _ _ _ | STEPSave _
  | STEPInitFileSpecificInfo _ => nFileTypeMID

/-- The load of record `p` that a call makes. -/
def request (p : InfoPtr) (nFileTypeMID : UInt32) : PluginCall → Option Request
  | STEPLoad pFileMP3 host tls file =>
    if pFileMP3 = p then some ⟨nFileTypeMID, host, tls, file⟩ else none
  | STEPInit _ _ _ _ | STEPFinalize | STEPSave _ | STEPInitFileSpecificInfo _ => none

/-- The file type that a call registers. -/
def registers : PluginCall → Option UInt32
  | STEPInit _ (some _) _ nFileType => some nFileType
  | STEPInit _ none _ _ | STEPFinalize | STEPLoad _ _ _ _ | STEPSave _
  | STEPInitFileSpecificInfo _ => none

end PluginCall

namespace Session

/-- The loads of record `p`, each with the file type registered before it. -/
def requests (p : InfoPtr) : UInt32 → List PluginCall → List Request
  | _, [] => []
  | nFileTypeMID, c :: cs =>
    (c.request p nFileTypeMID).toList ++ requests p (c.fileType nFileTypeMID) cs

section

variable {env : Environment} {build : Build} {s s' : Session}

theorem Did.fileType {c : PluginCall} (h : Did env build s c s') :
    s'.nFileTypeMID = c.fileType s.nFileTypeMID := by
  cases h with
  | finalize =>
    rw [Finalize]
    cases s.hLib <;> rfl
  | initFailed | init | load | save | noInfo | info => rfl

/-- A call loads at most one record and leaves the others alone. -/
theorem Did.record {c : PluginCall} (h : Did env build s c s') (p : InfoPtr) :
    loadAll build (c.request p s.nFileTypeMID).toList (s.records p) = .ok (s'.records p) := by
  cases h with
  | finalize =>
    rw [Finalize]
    cases s.hLib <;> rfl
  | @load pFileMP3 q r hid _ hr _ =>
    obtain ⟨nFileTypeMID, host, tls, file⟩ := q
    obtain rfl : nFileTypeMID = s.nFileTypeMID := hid
    rw [PluginCall.request]
    by_cases hp : pFileMP3 = p
    · subst hp
      simp only [if_true, Option.toList_some, loadAll, hr, Function.update_self]
      rfl
    · rw [if_neg hp]
      simp only [Option.toList_none, loadAll, Function.update_of_ne (Ne.symm hp)]
  | initFailed | init | save | noInfo | info => rfl

theorem loadAll_append {qs qs' : List Request} {info info' : FILE_INFO}
    (h : loadAll build qs info = .ok info') :
    loadAll build (qs ++ qs') info = loadAll build qs' info' := by
  induction qs generalizing info with
  | nil =>
    cases h
    rfl
  | cons q qs ih =>
    obtain ⟨r, hr, hrest⟩ := Fallible.bind_ok_iff.mp h
    rw [List.cons_append, loadAll, hr]
    exact ih hrest

/-- What is loaded into a record is all that happens to it. -/
theorem run_records {cs : List PluginCall} (h : run env build s cs = .ok s') (p : InfoPtr) :
    loadAll build (requests p s.nFileTypeMID cs) (s.records p) = .ok (s'.records p) := by
  induction cs generalizing s with
  | nil =>
    cases h
    rfl
  | cons c cs ih =>
    obtain ⟨t, ht, hrest⟩ := run_cons_iff.mp h
    rw [requests, loadAll_append (ht.record p), ← ht.fileType]
    exact ih hrest

end

end Session

/-- Records do not interfere: behind a session each record is what its own loads make of it, one
after the other, each with the file type registered last before it. -/
theorem session_records (env : Environment) (build : Build) {s₀ s : Session}
    {calls : List PluginCall} (h : Session.run env build s₀ calls = .ok s) (p : InfoPtr) :
    loadAll build (Session.requests p s₀.nFileTypeMID calls) (s₀.records p) =
      .ok (s.records p) :=
  Session.run_records h p

/-- A record behind its load and that of another one. -/
theorem session_records_textFile :
    ∃ s, Session.run .plain .STEP_K .blank [.STEPInit 1 (some 0) (.wide []) 5,
        .STEPLoad 3 plainHost (some .zeroed) (some textFile),
        .STEPLoad 4 plainHost (some .zeroed) (some emptyFile)] = .ok s ∧
      loadAll .STEP_K [⟨5, plainHost, some .zeroed, some textFile⟩] blankInfo =
        .ok (s.records 3) := by
  obtain ⟨s, h⟩ := Session.blank_run .STEP_K [.STEPInit 1 (some 0) (.wide []) 5,
    .STEPLoad 3 plainHost (some .zeroed) (some textFile),
    .STEPLoad 4 plainHost (some .zeroed) (some emptyFile)]
    (by simp [Session.Guarded, PluginCall.library, PluginCall.needs])
  exact ⟨s, h, session_records .plain .STEP_K h 3⟩

/-! ## File types -/

/-- A load leaves the file type of the record alone or sets it to the plugin's. -/
theorem Request.load_format {build : Build} {q : Request} {info : FILE_INFO} {r : LoadReturn}
    (h : q.load build info = .ok r) :
    r.info.format = info.format ∨ r.info.format = q.nFileTypeMID := by
  obtain ⟨nFileTypeMID, host, tls, file⟩ := q
  obtain ⟨r', hr', hout⟩ := STEPLoad_spec build host nFileTypeMID tls file info
  cases h.symm.trans hr'
  have htexts (cs : List (Fin META_MAX × Str)) :
      (cs.map fun c => saSetFunc c.1 c.2).filterMap HostCall.format = [] := by
    simp [List.filterMap_map, Function.comp_def, saSetFunc_eq, HostCall.format]
  cases hout with
  | notOpened | unknownFormat | notReady => exact Or.inl rfl
  | undelivered =>
    left
    rw [LoadReturn.make, foldl_apply_format, htexts]
    rfl
  | success =>
    right
    rw [LoadReturn.make, foldl_apply_format, List.filterMap_append, htexts]
    rfl

namespace Session

/-- The plugin's file type, once its pointers are looked up, and those of the records that are not
their own are among `types`. -/
structure Typed (own : InfoPtr → UInt32) (types : List UInt32) (s : Session) : Prop where
  plugin : s.procs .STEPGetValue ≠ none → s.nFileTypeMID ∈ types
  records : ∀ p, (s.records p).format = own p ∨ (s.records p).format ∈ types

section

variable {env : Environment} {build : Build} {s s' : Session} {own : InfoPtr → UInt32}
  {types : List UInt32}

theorem Typed.step {c : PluginCall} (hs : s.Typed own types) (h : Did env build s c s') :
    s'.Typed own (types ++ c.registers.toList) := by
  cases h with
  | initFailed | save | noInfo | info =>
    rw [PluginCall.registers, Option.toList_none, List.append_nil]
    exact ⟨hs.plugin, hs.records⟩
  | init _ =>
    refine ⟨fun _ => ?_, fun p => ?_⟩
    · exact List.mem_append_right _ (List.mem_singleton_self _)
    · exact (hs.records p).imp_right (List.mem_append_left _)
  | finalize =>
    rw [PluginCall.registers, Option.toList_none, List.append_nil, Finalize]
    cases s.hLib with
    | none => exact hs
    | some h => exact ⟨hs.plugin, hs.records⟩
  | @load pFileMP3 q r hid hpath hr _ =>
    rw [PluginCall.registers, Option.toList_none, List.append_nil]
    refine ⟨hs.plugin, fun p => ?_⟩
    dsimp only
    by_cases hp : p = pFileMP3
    · subst hp
      rw [Function.update_self]
      rcases Request.load_format hr with hsame | hset
      · rw [hsame]
        exact hs.records p
      · right
        obtain ⟨m, hproc, -⟩ := hpath
        rw [hset, hid]
        apply hs.plugin
        rw [hproc]
        exact Option.some_ne_none m
    · rw [Function.update_of_ne hp]
      exact hs.records p

theorem Typed.run {cs : List PluginCall} (hs : s.Typed own types)
    (h : run env build s cs = .ok s') :
    s'.Typed own (types ++ cs.filterMap PluginCall.registers) := by
  induction cs generalizing s types with
  | nil =>
    cases h
    simpa using hs
  | cons c cs ih =>
    obtain ⟨t, ht, hrest⟩ := run_cons_iff.mp h
    have htyped := ih (hs.step ht) hrest
    rw [List.filterMap_cons]
    cases hc : c.registers with
    | none => simpa [hc] using htyped
    | some n => simpa [hc] using htyped

end

end Session

/-- No record gets a file type that `STEPRegisterExt` did not return in the session, whatever
becomes of the module in between. -/
theorem session_fileTypes (env : Environment) (build : Build) {s₀ s : Session}
    (hfresh : s₀.Fresh) {calls : List PluginCall} (h : Session.run env build s₀ calls = .ok s)
    (p : InfoPtr) :
    (s.records p).format = (s₀.records p).format ∨
      (s.records p).format ∈ calls.filterMap PluginCall.registers := by
  have hstart : s₀.Typed (fun p => (s₀.records p).format) [] :=
    ⟨fun hne => absurd (hfresh.procs _) hne, fun _ => Or.inl rfl⟩
  exact (hstart.run h).records p

theorem session_fileTypes_textFile :
    ∃ s, Session.run .plain .STEP_K .blank [.STEPInit 1 (some 0) (.wide []) 5,
        .STEPLoad 3 plainHost (some .zeroed) (some textFile)] = .ok s ∧
      ((s.records 3).format = 0 ∨ (s.records 3).format ∈ [5]) := by
  obtain ⟨s, h⟩ := Session.blank_run .STEP_K [.STEPInit 1 (some 0) (.wide []) 5,
    .STEPLoad 3 plainHost (some .zeroed) (some textFile)]
    (by simp [Session.Guarded, PluginCall.library, PluginCall.needs])
  exact ⟨s, h, session_fileTypes .plain .STEP_K Session.blank_fresh h 3⟩

end StepMid
