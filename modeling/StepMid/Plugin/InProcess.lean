import StepMid.Load.Garbage
import StepMid.Plugin.Records
import StepMid.Tls.Unload

/-!
# The plugin in its process

The loader notifies the module at any time. The host makes one call at a time, on any of its
threads, and a load works with the buffers of the thread that it runs on.
-/

namespace StepMid

structure Plugin where
  system : System
  session : Session
  fault : Option SessionFault

inductive PluginAction
  | notify (fdwReason : Reason) (t : Thread) (o : Outcomes)
  | call (t : Thread) (c : PluginCall)
  | loadWrite (t : Thread)
  | loadEnd (t : Thread)

namespace PluginAction

/-- What an action is for the threads. -/
def onSystem : PluginAction → Option Action
  | notify fdwReason t o => some (.notify fdwReason t o)
  | call t (.STEPLoad _ host _ file) => some (.loadBegin t host file)
  | call _ _ => none
  | loadWrite t => some (.loadWrite t)
  | loadEnd t => some (.loadEnd t)

/-- What an action is for the session. -/
def inSession : PluginAction → Option PluginCall
  | call _ c => some c
  | notify _ _ _ | loadWrite _ | loadEnd _ => none

end PluginAction

namespace PluginCall

/-- A load works with the given buffers. -/
def Uses (data : Option TlsData) : PluginCall → Prop
  | STEPLoad _ _ tls _ => tls = data
  | STEPInit _ _ _ _ | STEPFinalize | STEPSave _ | STEPInitFileSpecificInfo _ => True

/-- The call with the thread's buffers, if it has any, as they were at first. -/
def onNewBuffers : PluginCall → PluginCall
  | STEPLoad pFileMP3 host tls file =>
    STEPLoad pFileMP3 host (tls.map fun _ => .zeroed) file
  | c => c

end PluginCall

namespace Plugin

def Allowed (s : Plugin) : PluginAction → Prop
  | .notify fdwReason t o => s.fault = none ∧ s.system.Allowed (.notify fdwReason t o)
  | .call t c => s.fault = none ∧ s.system.fault = none ∧ s.system.loader = .loaded ∧
      s.system.life t = .running ∧ (∀ u, s.system.load u = none) ∧ c.Uses (s.system.tlsData t)
  | .loadWrite t => s.fault = none ∧ s.system.Allowed (.loadWrite t)
  | .loadEnd t => s.fault = none ∧ s.system.Allowed (.loadEnd t)

def step (env : Environment) (ndebug : Bool) (build : Build) (s : Plugin) (a : PluginAction) :
    Plugin :=
  let system :=
    match a.onSystem with
    | none => s.system
    | some b => s.system.step ndebug build b
  match a.inSession with
  | none => { s with system }
  | some c =>
    match Session.step env build s.session c with
    | .ok session => { s with system, session }
    | .error e => { s with system, fault := some e }

end Plugin

/-- The plugin in its process, over all orders of notifications and calls. -/
def plugin (env : Environment) (ndebug : Bool) (build : Build) : Lts Plugin PluginAction where
  Allowed := Plugin.Allowed
  step := Plugin.step env ndebug build

namespace Plugin

section

variable {env : Environment} {ndebug : Bool} {build : Build} {s₀ s : Plugin} {a : PluginAction}
  {ls : List PluginAction}

/-! ## The threads -/

theorem Allowed.noFault (ha : s.Allowed a) : s.fault = none := by
  cases a <;> exact ha.1

theorem Allowed.onSystem (ha : s.Allowed a) {b : Action} (hb : a.onSystem = some b) :
    s.system.Allowed b := by
  cases a with
  | notify | loadWrite | loadEnd =>
    cases hb
    exact ha.2
  | call t c =>
    obtain ⟨-, hfault, hloaded, hrun, hidle, -⟩ := ha
    cases c with
    | STEPLoad =>
      cases hb
      exact ⟨hfault, hloaded, hrun, hidle t⟩
    | STEPInit | STEPFinalize | STEPSave | STEPInitFileSpecificInfo => cases hb

theorem step_system (s : Plugin) (a : PluginAction) :
    (s.step env ndebug build a).system =
      match a.onSystem with
      | none => s.system
      | some b => s.system.step ndebug build b := by
  rw [step]
  split
  · rfl
  · split <;> rfl

/-- The threads do not see more of the plugin than its loads. -/
theorem threads_run (hrun : (plugin env ndebug build).Run s₀ ls s) :
    (threads ndebug build).Run s₀.system (ls.filterMap PluginAction.onSystem) s.system := by
  refine hrun.project Plugin.system ?_ ?_
  · intro s a b ha hb
    refine ⟨Allowed.onSystem ha hb, ?_⟩
    exact (step_system s a).trans (by rw [hb]; rfl)
  · intro s a _ hb
    exact (step_system s a).trans (by rw [hb])

/-! ## The session -/

/-- The host's calls are a session. -/
theorem session_run (hrun : (plugin env ndebug build).Run s₀ ls s) (hfault : s.fault = none) :
    Session.run env build s₀.session (ls.filterMap PluginAction.inSession) = .ok s.session := by
  revert hfault
  refine hrun.invariant (I := fun ls s => s.fault = none →
    Session.run env build s₀.session (ls.filterMap PluginAction.inSession) = .ok s.session)
    (fun _ => rfl) ?_
  intro ls s a ih ha hfault
  have hbefore := ih (Allowed.noFault ha)
  rw [List.filterMap_append]
  cases hc : a.inSession with
  | none =>
    rw [List.filterMap_cons_none hc, List.filterMap_nil, List.append_nil, hbefore]
    simp only [plugin, step, hc]
  | some c =>
    rw [List.filterMap_cons_some hc, List.filterMap_nil, Session.run_append, hbefore]
    simp only [plugin, step, hc] at hfault ⊢
    cases hstep : Session.step env build s.session c with
    | error e =>
      rw [hstep] at hfault
      cases hfault
    | ok t => exact hstep

/-! ## Buffers -/

/-- While the module is loaded, a running thread has its buffers if it knows the module. -/
theorem tlsData_iff (h₀ : s₀.system.Initial) (hrun : (plugin env ndebug build).Run s₀ ls s)
    (hgranted : ∀ b ∈ ls.filterMap PluginAction.onSystem, b.Granted)
    (hdoc : ∀ b ∈ ls.filterMap PluginAction.onSystem, b.Documented s₀.system)
    (hloaded : s.system.loader = .loaded) {t : Thread} (ht : s.system.life t = .running) :
    (s.system.tlsData t).isSome = true ↔
      Known s₀.system (ls.filterMap PluginAction.onSystem) t := by
  have hthreads := threads_run hrun
  have howned := owned_of_run ndebug build h₀ hthreads hloaded
  rw [← (blocksKnown_of_run ndebug build h₀ hthreads hgranted hdoc).held hloaded t ht,
    System.held_running ht, System.tlsData]
  cases hslot : s.system.process.slot t with
  | none => simp
  | some ptr =>
    obtain ⟨data, hdata⟩ := (howned.slot_live ht hslot).exists_block
    simp [hdata]

/-- Behind a load no thread gets to know the module that did not before. -/
theorem known_step (h₀ : s₀.system.Initial) (hrun : (plugin env ndebug build).Run s₀ ls s)
    (ha : s.Allowed a) {t : Thread} {pFileMP3 : InfoPtr} {host : Host} {tls : Option TlsData}
    {file : Option (List UInt8)}
    (hmem : .call t (.STEPLoad pFileMP3 host tls file) ∈ ls ++ [a]) (u : Thread) :
    Known s₀.system ((ls ++ [a]).filterMap PluginAction.onSystem) u ↔
      Known s₀.system (ls.filterMap PluginAction.onSystem) u := by
  rw [List.filterMap_append]
  cases hb : a.onSystem with
  | none => rw [List.filterMap_cons_none hb, List.filterMap_nil, List.append_nil]
  | some b =>
    rw [List.filterMap_cons_some hb, List.filterMap_nil]
    apply known_append
    rintro o rfl
    rcases List.mem_append.mp hmem with hold | hnew
    · have hbefore : s.system.loader = .before := (Allowed.onSystem ha hb).2.1
      have hload : Action.loadBegin t host file ∈ ls.filterMap PluginAction.onSystem :=
        List.mem_filterMap.mpr ⟨_, hold, rfl⟩
      cases threads_stage ndebug build h₀ (threads_run hrun) with
      | before _ hnil =>
        rw [hnil] at hload
        cases hload
      | loaded hs =>
        rw [hs.loader] at hbefore
        cases hbefore
      | refused hloader | failed hloader | gone hloader | astray hloader =>
        rw [hloader] at hbefore
        cases hbefore
    · rw [← List.mem_singleton.mp hnew] at hb
      cases hb

/-- A load finds buffers exactly if its thread knows the module. -/
theorem load_known (h₀ : s₀.system.Initial) (hrun : (plugin env ndebug build).Run s₀ ls s)
    (hgranted : ∀ b ∈ ls.filterMap PluginAction.onSystem, b.Granted)
    (hdoc : ∀ b ∈ ls.filterMap PluginAction.onSystem, b.Documented s₀.system) {t : Thread}
    {pFileMP3 : InfoPtr} {host : Host} {tls : Option TlsData} {file : Option (List UInt8)}
    (hmem : .call t (.STEPLoad pFileMP3 host tls file) ∈ ls) :
    tls.isSome = true ↔ Known s₀.system (ls.filterMap PluginAction.onSystem) t := by
  induction hrun with
  | start => cases hmem
  | @step ls s a hrun ha ih =>
    rw [known_step h₀ hrun ha hmem t]
    rw [List.filterMap_append] at hgranted hdoc
    have hgranted' := fun b hb => hgranted b (List.mem_append_left _ hb)
    have hdoc' := fun b hb => hdoc b (List.mem_append_left _ hb)
    rcases List.mem_append.mp hmem with hold | hnew
    · exact ih hgranted' hdoc' hold
    · obtain rfl := List.mem_singleton.mp hnew
      obtain ⟨-, -, hloaded, ht, -, huses⟩ := ha
      have htls : tls = s.system.tlsData t := huses
      rw [htls]
      exact tlsData_iff h₀ hrun hgranted' hdoc' hloaded ht

end

end Plugin

/-! ## Records -/

section

variable {build : Build} {codePage : List UInt8 → List UInt16}

/-- The request with the thread's buffers as they were at first. -/
def Request.onNewBuffers (q : Request) : Request :=
  { q with tls := q.tls.map fun _ => .zeroed }

theorem loadAll_onNewBuffers {qs : List Request}
    (hconv : build = .STEP_K → ∀ q ∈ qs, q.host.Converts codePage) (info : FILE_INFO) :
    loadAll build (qs.map Request.onNewBuffers) info = loadAll build qs info := by
  induction qs generalizing info with
  | nil => rfl
  | cons q qs ih =>
    have hload : q.onNewBuffers.load build info = q.load build info :=
      Request.load_same ⟨rfl, fun _ => rfl, fun _ _ => ⟨rfl, rfl, rfl, rfl⟩⟩
        (fun hbuild => hconv hbuild q List.mem_cons_self) (by simp) q.nFileTypeMID q.file info
    have hrest := ih fun hbuild r hr => hconv hbuild r (List.mem_cons_of_mem q hr)
    rw [List.map_cons, loadAll, loadAll, hload]
    simp only [hrest]

theorem Session.requests_onNewBuffers (p : InfoPtr) (nFileTypeMID : UInt32)
    (cs : List PluginCall) :
    Session.requests p nFileTypeMID (cs.map PluginCall.onNewBuffers) =
      (Session.requests p nFileTypeMID cs).map Request.onNewBuffers := by
  induction cs generalizing nFileTypeMID with
  | nil => rfl
  | cons c cs ih =>
    have htype : c.onNewBuffers.fileType nFileTypeMID = c.fileType nFileTypeMID := by
      cases c <;> rfl
    have hrequest : c.onNewBuffers.request p nFileTypeMID =
        (c.request p nFileTypeMID).map Request.onNewBuffers := by
      cases c with
      | STEPLoad pFileMP3 host tls file =>
        simp only [PluginCall.onNewBuffers, PluginCall.request]
        split <;> rfl
      | STEPInit | STEPFinalize | STEPSave | STEPInitFileSpecificInfo => rfl
    rw [List.map_cons, Session.requests, Session.requests, htype, hrequest, ih, List.map_append]
    cases c.request p nFileTypeMID <;> rfl

/-- A request of the session comes from a load. -/
theorem Session.mem_requests {p : InfoPtr} {nFileTypeMID : UInt32} {cs : List PluginCall}
    {q : Request} (h : q ∈ Session.requests p nFileTypeMID cs) :
    .STEPLoad p q.host q.tls q.file ∈ cs := by
  induction cs generalizing nFileTypeMID with
  | nil => cases h
  | cons c cs ih =>
    rcases List.mem_append.mp h with hc | hcs
    · cases c with
      | STEPLoad pFileMP3 host tls file =>
        rw [PluginCall.request] at hc
        split at hc
        · rename_i hp
          subst hp
          obtain rfl := List.mem_singleton.mp hc
          exact List.mem_cons_self
        · cases hc
      | STEPInit | STEPFinalize | STEPSave | STEPInitFileSpecificInfo => cases hc
    · exact List.mem_cons_of_mem c (ih hcs)

end

/-- With every call of the system granted, notifications and buffers are free of faults in every
order of notifications and calls, and a load finds buffers exactly if its thread knows the module.
This is all that the loader, the other threads and earlier loads mean to a record: it is what its
own loads make of it, one after the other. -/
theorem plugin_records (env : Environment) (ndebug : Bool) (build : Build)
    {codePage : List UInt8 → List UInt16} {s₀ s : Plugin} (h₀ : s₀.system.Initial)
    {ls : List PluginAction} (hrun : (plugin env ndebug build).Run s₀ ls s)
    (hgranted : ∀ b ∈ ls.filterMap PluginAction.onSystem, b.Granted)
    (hdoc : ∀ b ∈ ls.filterMap PluginAction.onSystem, b.Documented s₀.system)
    (hconv : build = .STEP_K → ∀ t pFileMP3 host tls file,
      .call t (.STEPLoad pFileMP3 host tls file) ∈ ls → host.Converts codePage) :
    s.system.fault = none ∧
      (∀ t pFileMP3 host tls file, .call t (.STEPLoad pFileMP3 host tls file) ∈ ls →
        (tls.isSome = true ↔ Known s₀.system (ls.filterMap PluginAction.onSystem) t)) ∧
      (s.fault = none → ∀ p, loadAll build
        (Session.requests p s₀.session.nFileTypeMID
          ((ls.filterMap PluginAction.inSession).map PluginCall.onNewBuffers))
        (s₀.session.records p) = .ok (s.session.records p)) := by
  refine ⟨?_, fun t pFileMP3 host tls file => Plugin.load_known h₀ hrun hgranted hdoc, ?_⟩
  · have hindex : ¬ NoIndex (ls.filterMap PluginAction.onSystem) := by
      rintro ⟨t, o, hmem, ho⟩
      exact (hgranted _ hmem).1 ho
    cases threads_stage ndebug build h₀ (Plugin.threads_run hrun) with
    | before hs => exact hs.fault
    | loaded hs => exact hs.fault
    | refused _ _ _ hfault => exact hfault
    | gone _ hfault => exact hfault
    | failed _ _ _ hno => exact absurd hno hindex
    | astray _ _ _ hno => exact absurd hno hindex
  · intro hfault p
    rw [Session.requests_onNewBuffers, loadAll_onNewBuffers]
    · exact Session.run_records (Plugin.session_run hrun hfault) p
    · intro hbuild q hq
      obtain ⟨a, hmem, ha⟩ := List.mem_filterMap.mp (Session.mem_requests hq)
      cases a with
      | call t c =>
        cases ha
        exact hconv hbuild t _ _ _ _ hmem
      | notify | loadWrite | loadEnd => cases ha

/-- Thread 1 comes after the load of the module and loads a file. -/
def attachInitLoad : List PluginAction :=
  [.notify .DLL_PROCESS_ATTACH 0 granted, .notify .DLL_THREAD_ATTACH 1 granted,
    .call 0 (.STEPInit 1 (some 0) (.wide []) 5),
    .call 1 (.STEPLoad 3 plainHost (some .zeroed) (some textFile))]

theorem plugin_records_attachInitLoad :
    ∃ s, (plugin .plain false .STEP_K).Run ⟨freshProcess 1, .blank, none⟩ attachInitLoad s ∧
      loadAll .STEP_K [⟨5, plainHost, some .zeroed, some textFile⟩] blankInfo =
        .ok (s.session.records 3) := by
  have hallowed : (plugin .plain false .STEP_K).AllowedAlong ⟨freshProcess 1, .blank, none⟩
      attachInitLoad :=
    ⟨⟨rfl, rfl, rfl, rfl, Or.inr rfl⟩, ⟨rfl, rfl, rfl, nofun, rfl⟩,
      ⟨rfl, rfl, rfl, rfl, fun _ => rfl, trivial⟩, ⟨rfl, rfl, rfl, rfl, fun _ => rfl, rfl⟩, trivial⟩
  refine ⟨_, hallowed.run, ?_⟩
  have hconv (t : Thread) (pFileMP3 : InfoPtr) (host : Host) (tls : Option TlsData)
      (file : Option (List UInt8))
      (hmem : .call t (.STEPLoad pFileMP3 host tls file) ∈ attachInitLoad) :
      host.Converts latin1 := by
    obtain ⟨-, -, rfl, -⟩ : t = 1 ∧ pFileMP3 = 3 ∧ host = plainHost ∧ _ := by
      simpa [attachInitLoad] using hmem
    exact plainHost_converts
  have hrecords := plugin_records .plain false .STEP_K (freshProcess_initial 1) hallowed.run
    (by simp [attachInitLoad, PluginAction.onSystem, Action.Granted, granted, TLS_OUT_OF_INDEXES])
    (by simp [attachInitLoad, PluginAction.onSystem, Action.Documented, freshProcess])
    fun _ => hconv
  exact hrecords.2.2 (by decide +kernel) 3

end StepMid
