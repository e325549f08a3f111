import StepMid.Framework.Fallible
import StepMid.Load.Record

/-!
# The plugin and its host

The host calls the plugin's functions one after the other. The plugin calls back through pointers
that `Initialize` takes from the host's module.
-/

namespace StepMid

/-- A module that `LoadLibrary` returns. -/
abbrev HINSTANCE := Nat

/-- The host's name for a record, a `FILE_INFO *`. -/
abbrev InfoPtr := Nat

/-- The functions of the host that the plugin calls. -/
inductive HostProc
  | STEPRegisterExt
  | STEPGetValue
  | STEPSetValue
  | STEPSetIntValue
  | STEPGetVoidValue
deriving DecidableEq

/-- The name that `Initialize` looks up. -/
def HostProc.symbol (build : Build) (proc : HostProc) : String :=
  match build, proc with
  | .STEP_M, STEPRegisterExt => "_STEPRegisterExt@12"
  | .STEP_M, STEPGetValue => "_STEPGetValue@8"
  | .STEP_M, STEPSetValue => "_STEPSetValue@12"
  | .STEP_M, STEPSetIntValue => "_STEPSetIntValue@12"
  | .STEP_M, STEPGetVoidValue => "_STEPGetVoidValue@8"
  | .STEP_K, STEPRegisterExt => "STEPRegisterExt"
  | .STEP_K, STEPGetValue => "STEPGetValue"
  | .STEP_K, STEPSetValue => "STEPSetValue"
  | .STEP_K, STEPSetIntValue => "STEPSetIntValue"
  | .STEP_K, STEPGetVoidValue => "STEPGetVoidValue"

inductive SessionFault
  | nullCall (proc : HostProc)
  | unloadedCall (proc : HostProc)
  | deadBlock
  | load (e : Fault)
deriving DecidableEq

/-- What the plugin meets: whether `GetProcAddress` finds a name in a module, and the pointer that
`STEPGetVoidValue` returns for a record. -/
structure Environment where
  exports : HINSTANCE → String → Bool
  specific : InfoPtr → Option Nat

/-- A host that exports every name and has no blocks for its records. -/
def Environment.plain : Environment := ⟨fun _ _ => true, fun _ => none⟩

/-- The plugin's variables, with the reference counts of the modules, the live blocks and the
records of the host. A pointer to a function is known by the module it leads to. -/
structure Session where
  hLib : Option HINSTANCE
  procs : HostProc → Option HINSTANCE
  nPluginID : UInt32
  nFileTypeMID : UInt32
  plugininfo : Str
  refs : HINSTANCE → Nat
  heap : Heap Unit
  records : InfoPtr → FILE_INFO

/-- A call of the host, with what the plugin gets from outside in its course. -/
inductive PluginCall
  | STEPInit (pID : UInt32) (library : Option HINSTANCE) (info : Str) (nFileType : UInt32)
  | STEPFinalize
  | STEPLoad (pFileMP3 : InfoPtr) (host : Host) (tls : Option TlsData)
      (file : Option (List UInt8))
  | STEPSave (pFileMP3 : InfoPtr)
  | STEPInitFileSpecificInfo (pFileMP3 : InfoPtr)

namespace Session

/-- A call through one of the pointers. -/
def invoke (s : Session) (proc : HostProc) : Except SessionFault Unit :=
  match s.procs proc with
  | none => .error (.nullCall proc)
  | some h => if s.refs h = 0 then .error (.unloadedCall proc) else .ok ()

/-- `Initialize`, for the given result of `LoadLibrary`. -/
def Initialize (env : Environment) (build : Build) (library : Option HINSTANCE) (s : Session) :
    Bool × Session :=
  match library with
  | none => (false, { s with hLib := none })
  | some h =>
    (true, { s with
      hLib := some h
      refs := Function.update s.refs h (s.refs h + 1)
      procs := fun proc => if env.exports h (proc.symbol build) then some h else none })

def Finalize (s : Session) : Session :=
  match s.hLib with
  | none => s
  | some h => { s with hLib := none, refs := Function.update s.refs h (s.refs h - 1) }

def STEPInit (env : Environment) (build : Build) (pID : UInt32) (library : Option HINSTANCE)
    (info : Str) (nFileType : UInt32) (s : Session) : Except SessionFault (Bool × Session) :=
  match Initialize env build library s with
  | (false, s) => .ok (false, s)
  | (true, s) => do
    let s := { s with nPluginID := pID, plugininfo := info }
    s.invoke .STEPRegisterExt
    return (true, { s with nFileTypeMID := nFileType })

/-- The pointer that a call on a record goes through. -/
def procOf : HostCall → HostProc
  | .SetValue _ _ => .STEPSetValue
  | .SetFormat _ => .STEPSetIntValue

def invokeAll (s : Session) : List HostProc → Except SessionFault Unit
  | [] => .ok ()
  | proc :: procs => do
    s.invoke proc
    s.invokeAll procs

/-- `STEPLoad` of the given record; `GetFullPath` is the first call. -/
def STEPLoad (build : Build) (pFileMP3 : InfoPtr) (host : Host) (tls : Option TlsData)
    (file : Option (List UInt8)) (s : Session) : Except SessionFault (Status × Session) := do
  s.invoke .STEPGetValue
  match StepMid.STEPLoad build host s.nFileTypeMID tls file (s.records pFileMP3) with
  | .error e => .error (.load e)
  | .ok r =>
    s.invokeAll (r.calls.map procOf)
    return (r.ret, { s with records := Function.update s.records pFileMP3 r.info })

def STEPSave (_pFileMP3 : InfoPtr) (s : Session) : Status × Session :=
  (.STEP_UNKNOWN_FORMAT, s)

/-- The block is freed, but the record keeps its pointer. -/
def STEPInitFileSpecificInfo (env : Environment) (pFileMP3 : InfoPtr) (s : Session) :
    Except SessionFault Session := do
  s.invoke .STEPGetVoidValue
  match env.specific pFileMP3 with
  | none => return s
  | some p =>
    match s.heap.free p with
    | none => .error .deadBlock
    | some heap => return { s with heap }

def step (env : Environment) (build : Build) (s : Session) :
    PluginCall → Except SessionFault Session
  | .STEPInit pID library info nFileType => do
    let (_, s) ← STEPInit env build pID library info nFileType s
    return s
  | .STEPFinalize => .ok s.Finalize
  | .STEPLoad pFileMP3 host tls file => do
    let (_, s) ← STEPLoad build pFileMP3 host tls file s
    return s
  | .STEPSave pFileMP3 => .ok (STEPSave pFileMP3 s).2
  | .STEPInitFileSpecificInfo pFileMP3 => STEPInitFileSpecificInfo env pFileMP3 s

def run (env : Environment) (build : Build) : Session → List PluginCall →
    Except SessionFault Session
  | s, [] => .ok s
  | s, c :: cs => do
    let s ← step env build s c
    run env build s cs

/-- Before the first call: nothing is looked up yet. -/
structure Fresh (s : Session) : Prop where
  hLib : s.hLib = none
  procs : ∀ proc, s.procs proc = none
  nFileTypeMID : s.nFileTypeMID = 0

/-- With empty records and one reference to every module. -/
def blank : Session where
  hLib := none
  procs := fun _ => none
  nPluginID := 0
  nFileTypeMID := 0
  plugininfo := .narrow []
  refs := fun _ => 1
  heap := .empty
  records := fun _ => blankInfo

theorem blank_fresh : blank.Fresh := ⟨rfl, fun _ => rfl, rfl⟩

section

variable {env : Environment} {build : Build} {s s' : Session}

/-! ## References -/

theorem refs_taken (refs : HINSTANCE → Nat) (h m : HINSTANCE) :
    Function.update refs h (refs h + 1) m = refs m + if h = m then 1 else 0 := by
  by_cases hmh : h = m
  · subst hmh
    rw [Function.update_self, if_pos rfl]
  · rw [Function.update_of_ne (Ne.symm hmh), if_neg hmh, Nat.add_zero]

theorem refs_given (refs : HINSTANCE → Nat) (h m : HINSTANCE) :
    Function.update refs h (refs h - 1) m = refs m - if h = m then 1 else 0 := by
  by_cases hmh : h = m
  · subst hmh
    rw [Function.update_self, if_pos rfl]
  · rw [Function.update_of_ne (Ne.symm hmh), if_neg hmh, Nat.sub_zero]

/-! ## One call -/

/-- The pointer can be called. -/
def Callable (s : Session) (proc : HostProc) : Prop :=
  ∃ h, s.procs proc = some h ∧ 0 < s.refs h

theorem invoke_ok_iff {proc : HostProc} : s.invoke proc = .ok () ↔ s.Callable proc := by
  rw [invoke, Callable]
  cases s.procs proc with
  | none => simp
  | some h =>
    by_cases hrefs : s.refs h = 0
    · simp [hrefs]
    · simp [hrefs, Nat.pos_iff_ne_zero]

theorem invokeAll_ok_iff {procs : List HostProc} :
    s.invokeAll procs = .ok () ↔ ∀ proc ∈ procs, s.Callable proc := by
  induction procs with
  | nil => simp [invokeAll]
  | cons proc procs ih =>
    rw [invokeAll, List.forall_mem_cons, ← ih, ← invoke_ok_iff]
    cases s.invoke proc with
    | error e => simp [bind, Except.bind]
    | ok u => simp [bind, Except.bind]

/-- What a call does that comes to its end. -/
inductive Did (env : Environment) (build : Build) (s : Session) :
    PluginCall → Session → Prop
  | initFailed {pID : UInt32} {info : Str} {nFileType : UInt32} :
      Did env build s (.STEPInit pID none info nFileType) { s with hLib := none }
  | init {pID : UInt32} {h : HINSTANCE} {info : Str} {nFileType : UInt32} :
      env.exports h (HostProc.STEPRegisterExt.symbol build) = true →
      Did env build s (.STEPInit pID (some h) info nFileType)
        { s with
          hLib := some h
          refs := Function.update s.refs h (s.refs h + 1)
          procs := fun proc => if env.exports h (proc.symbol build) then some h else none
          nPluginID := pID
          plugininfo := info
          nFileTypeMID := nFileType }
  | finalize : Did env build s .STEPFinalize s.Finalize
  | load {pFileMP3 : InfoPtr} {q : Request} {r : LoadReturn} :
      q.nFileTypeMID = s.nFileTypeMID → s.Callable .STEPGetValue →
      q.load build (s.records pFileMP3) = .ok r → (∀ c ∈ r.calls, s.Callable (procOf c)) →
      Did env build s (.STEPLoad pFileMP3 q.host q.tls q.file)
        { s with records := Function.update s.records pFileMP3 r.info }
  | save {pFileMP3 : InfoPtr} : Did env build s (.STEPSave pFileMP3) s
  | noInfo {pFileMP3 : InfoPtr} : s.Callable .STEPGetVoidValue → env.specific pFileMP3 = none →
      Did env build s (.STEPInitFileSpecificInfo pFileMP3) s
  | info {pFileMP3 : InfoPtr} {p : Nat} {heap : Heap Unit} : s.Callable .STEPGetVoidValue →
      env.specific pFileMP3 = some p → s.heap.free p = some heap →
      Did env build s (.STEPInitFileSpecificInfo pFileMP3) { s with heap }

theorem Did.of_step {c : PluginCall} (h : step env build s c = .ok s') :
    Did env build s c s' := by
  cases c with
  | STEPInit pID library info nFileType =>
    obtain ⟨a, hinit, ha⟩ := Fallible.bind_ok_iff.mp h
    cases ha
    cases library with
    | none =>
      cases hinit
      exact .initFailed
    | some h =>
      obtain ⟨u, hregister, hu⟩ := Fallible.bind_ok_iff.mp hinit
      cases hu
      obtain ⟨h', hproc, -⟩ := invoke_ok_iff.mp hregister
      refine .init ?_
      by_contra hexport
      dsimp only at hproc
      rw [if_neg hexport] at hproc
      cases hproc
  | STEPFinalize =>
    cases h
    exact .finalize
  | STEPLoad pFileMP3 host tls file =>
    obtain ⟨a, hload, ha⟩ := Fallible.bind_ok_iff.mp h
    cases ha
    obtain ⟨u, hpath, hrest⟩ := Fallible.bind_ok_iff.mp hload
    cases hr : StepMid.STEPLoad build host s.nFileTypeMID tls file (s.records pFileMP3) with
    | error e =>
      rw [hr] at hrest
      cases hrest
    | ok r =>
      rw [hr] at hrest
      obtain ⟨v, hall, hv⟩ := Fallible.bind_ok_iff.mp hrest
      cases hv
      refine .load (q := ⟨s.nFileTypeMID, host, tls, file⟩) rfl (invoke_ok_iff.mp hpath) hr ?_
      intro c hc
      exact invokeAll_ok_iff.mp hall _ (List.mem_map_of_mem hc)
  | STEPSave pFileMP3 =>
    cases h
    exact .save
  | STEPInitFileSpecificInfo pFileMP3 =>
    obtain ⟨u, hget, hrest⟩ := Fallible.bind_ok_iff.mp h
    have hcallable := invoke_ok_iff.mp hget
    cases hp : env.specific pFileMP3 with
    | none =>
      rw [hp] at hrest
      cases hrest
      exact .noInfo hcallable hp
    | some p =>
      rw [hp] at hrest
      cases hfree : s.heap.free p with
      | none =>
        simp only [hfree] at hrest
        cases hrest
      | some heap =>
        simp only [hfree] at hrest
        cases hrest
        exact .info hcallable hp hfree

theorem Did.step {c : PluginCall} (h : Did env build s c s') : step env build s c = .ok s' := by
  cases h with
  | initFailed | finalize | save => rfl
  | @init pID h info nFileType hexport =>
    refine Fallible.bind_ok_iff.mpr ⟨_, Fallible.bind_ok_iff.mpr ⟨(), ?_, rfl⟩, rfl⟩
    apply invoke_ok_iff.mpr
    refine ⟨h, if_pos hexport, ?_⟩
    simp only [Function.update_self]
    exact Nat.succ_pos _
  | @load pFileMP3 q r hid hpath hr hall =>
    rw [Request.load, hid] at hr
    refine Fallible.bind_ok_iff.mpr ⟨(r.ret, _), Fallible.bind_ok_iff.mpr
      ⟨(), invoke_ok_iff.mpr hpath, ?_⟩, rfl⟩
    simp only [hr]
    refine Fallible.bind_ok_iff.mpr ⟨(), invokeAll_ok_iff.mpr ?_, rfl⟩
    intro proc hproc
    obtain ⟨c, hc, rfl⟩ := List.mem_map.mp hproc
    exact hall c hc
  | noInfo hget hp =>
    refine Fallible.bind_ok_iff.mpr ⟨(), invoke_ok_iff.mpr hget, ?_⟩
    rw [hp]
    rfl
  | info hget hp hfree =>
    refine Fallible.bind_ok_iff.mpr ⟨(), invoke_ok_iff.mpr hget, ?_⟩
    simp only [hp, hfree]
    rfl

theorem run_cons_iff {c : PluginCall} {cs : List PluginCall} :
    run env build s (c :: cs) = .ok s' ↔
      ∃ t, Did env build s c t ∧ run env build t cs = .ok s' := by
  rw [run, Fallible.bind_ok_iff]
  exact exists_congr fun t => and_congr_left fun _ => ⟨.of_step, Did.step⟩

theorem run_append (env : Environment) (build : Build) (s : Session) (cs : List PluginCall)
    (c : PluginCall) :
    run env build s (cs ++ [c]) = (run env build s cs).bind fun t => step env build t c := by
  induction cs generalizing s with
  | nil =>
    rw [List.nil_append, run]
    exact bind_pure _
  | cons d cs ih =>
    rw [List.cons_append, run, run]
    cases step env build s d with
    | error e => rfl
    | ok t => exact ih t

end

end Session

end StepMid
