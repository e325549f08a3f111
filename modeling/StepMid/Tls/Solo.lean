import StepMid.Tls.Threads

/-!
# Threads on their own

Next to the other threads, with blocks on a common heap and addresses in common slots, a thread does
what it would do alone with its buffers.
-/

namespace StepMid

/-- A thread alone: its buffers, and what a load under way has yet to write to them. -/
structure Solo where
  life : Life
  data : Option TlsData
  writes : Option (List TlsData)

/-- What a load with the given buffers will write to them. -/
def loadContents (build : Build) (host : Host) (file : Option (List UInt8))
    (data : Option TlsData) : Option (List TlsData) :=
  match file, data with
  | some F, some data =>
    let scan := findMetaEvents host.past F .start zeroedEvents
    if scan.ret = 0 then
      (readMetaEvent build host F (some data) scan.fp scan.events).toOption.map ReadReturn.writes
    else none
  | _, _ => none

/-- The buffers of a thread after an announcement. -/
def announcedData (o : Outcomes) : Option TlsData → Option TlsData
  | some data => some data
  | none => if o.localAlloc = true ∧ o.tlsSetValue = true then some .zeroed else none

def Solo.step (build : Build) (x : Solo) : Action → Solo
  | .notify .DLL_PROCESS_ATTACH _ o | .notify .DLL_THREAD_ATTACH _ o =>
    { x with life := .running, data := announcedData o x.data }
  | .notify .DLL_THREAD_DETACH _ _ => { x with life := .ended, data := none }
  | .notify .DLL_PROCESS_DETACH _ _ => { x with data := none }
  | .loadBegin _ host file => { x with writes := loadContents build host file x.data }
  | .loadWrite _ =>
    match x.writes with
    | some (d :: ds) => { x with data := some d, writes := some ds }
    | _ => x
  | .loadEnd _ => { x with writes := none }

namespace System

/-- What a thread has of the common state. -/
def solo (s : System) (t : Thread) : Solo where
  life := s.life t
  data := (s.held t).bind s.process.heap.block
  writes := (s.load t).map Load.writes

section

variable (ndebug : Bool) (build : Build) {s : System} {t : Thread} {o : Outcomes}

theorem enter_load (s : System) (t : Thread) : (s.enter t).load = s.load := by
  rw [enter]
  split <;> rfl

theorem after_load {α : Type} (s : System) (r : EStateM.Result Fault Process α) :
    (s.after r).load = s.load := by
  cases r <;> rfl

/-- The loads of the other threads are left alone. -/
theorem step_load_other {a : Action} {u : Thread} (hu : u ≠ a.thread) :
    (s.step ndebug build a).load u = s.load u := by
  cases a with
  | notify r t o =>
    cases r with
    | DLL_PROCESS_ATTACH =>
      simp only [step]
      split <;> rfl
    | DLL_THREAD_ATTACH => simp only [step, after_load, enter_load]
    | DLL_THREAD_DETACH | DLL_PROCESS_DETACH => simp only [step, after_load]
  | loadBegin t host file =>
    simp only [step]
    split
    · exact Function.update_of_ne hu ..
    · rfl
  | loadWrite t =>
    simp only [step]
    split
    · rw [after_load]
      exact Function.update_of_ne hu ..
    · rfl
  | loadEnd t => exact Function.update_of_ne hu ..

/-- The other threads do not notice an action. -/
theorem Owned.solo_other (hs : s.Owned) {a : Action} (ha : s.Allowed a)
    (hlast : ∀ u o, a ≠ .notify .DLL_PROCESS_DETACH u o) {u : Thread} (hu : u ≠ a.thread) :
    (s.step ndebug build a).solo u = s.solo u := by
  have hmoves := hs.moves ndebug build ha hlast
  obtain ⟨hheld, hblock⟩ := hmoves.own.frame hs.heap hu
  have hdata : (s.held u).bind (s.step ndebug build a).process.heap.block =
      (s.held u).bind s.process.heap.block := by
    cases hptr : s.held u with
    | none => rfl
    | some ptr => exact hblock ptr hptr
  rw [solo, solo, hheld, hdata, hmoves.life u hu, step_load_other ndebug build hu]

/-- What an announcement leaves in the slot of the thread. -/
theorem announced_data {p p' : Process} {ret : Bool} (h : Announced o t p ret p')
    (hlive : ∀ ptr, p.slot t = some ptr → p.heap.Live ptr) :
    (p'.slot t).bind p'.heap.block = announcedData o ((p.slot t).bind p.heap.block) := by
  cases h with
  | @kept ptr _ hsome hslot hheap =>
    obtain ⟨data, hdata⟩ := (hlive ptr hsome).exists_block
    simp only [hslot, hheap, hsome, Option.bind_some, hdata, announcedData]
  | allocated hgrant hnone hslot hheap =>
    simp only [hslot, hheap, hnone, Function.update_self, Option.bind_some, Option.bind_none,
      Heap.alloc_block_self, announcedData, hgrant, and_self, if_true]
  | refused hno hnone hslot _ =>
    simp only [hslot, hnone, Option.bind_none, announcedData, hno, if_false]

theorem Owned.solo_attach (hs : s.Owned) (ha : s.Allowed (.notify .DLL_THREAD_ATTACH t o)) :
    (s.step ndebug build (.notify .DLL_THREAD_ATTACH t o)).solo t =
      (s.solo t).step build (.notify .DLL_THREAD_ATTACH t o) := by
  obtain ⟨hrun, -, hheld, hkeeps, hheap, hload, -, -⟩ := s.enter_spec ha.2.2.1
  simp only [step]
  generalize s.enter t = s₁ at *
  obtain ⟨ret, p, hp, -, hend⟩ :=
    announce_spec ndebug (o := o) (t := t) (hkeeps.ready hs.ready)
  have hslot : s₁.process.slot t = s.held t := by rw [← hheld, held_running hrun]
  have hdata := announced_data hend fun ptr hptr => by
    rw [hheap]
    exact hs.heap.live (hslot.symm.trans hptr)
  rw [hslot, hheap] at hdata
  simp only [DllMain, hp, after]
  have hheld' : held { s₁ with process := p } t = p.slot t := held_running hrun
  rw [solo, hheld', hdata, hrun, hload]
  rfl

theorem Owned.solo_detach (hs : s.Owned) (ha : s.Allowed (.notify .DLL_THREAD_DETACH t o)) :
    (s.step ndebug build (.notify .DLL_THREAD_DETACH t o)).solo t =
      (s.solo t).step build (.notify .DLL_THREAD_DETACH t o) := by
  have hended := (hs.detach ndebug build ha).2
  have hload : (s.step ndebug build (.notify .DLL_THREAD_DETACH t o)).load = s.load := by
    simp only [step, after_load]
  rw [solo, held_none (by rw [hended]; decide), hended, hload]
  rfl

/-- A load begins with what the thread's buffers hold. -/
theorem beginLoad_contents (host : Host) (file : Option (List UInt8)) {p : Process}
    (hp : p.Ready) (hlive : ∀ ptr, p.slot t = some ptr → p.heap.Live ptr) {load : Option Load}
    {p' : Process} (h : beginLoad ndebug build host t file p = .ok load p') :
    load.map Load.writes = loadContents build host file ((p.slot t).bind p.heap.block) := by
  cases file with
  | none =>
    cases h
    rfl
  | some F =>
    by_cases hscan : (findMetaEvents host.past F .start zeroedEvents).ret = 0
    · have hget := STEPMidTls.get_ready ndebug t hp
      simp only [beginLoad, hscan, if_true] at h
      rw [Tls.bind_ok hget] at h
      cases hslot : p.slot t with
      | none =>
        rw [hslot] at h
        cases h
        rfl
      | some ptr =>
        obtain ⟨data, hdata⟩ := (hlive ptr hslot).exists_block
        have hderef : deref ptr p.noted = .ok data p.noted := by
          simp only [deref, Process.noted_heap, hdata]
        obtain ⟨r, hr, -⟩ := readMetaEvent_spec build host (scanEvents_readable hscan) data
          (findMetaEvents host.past F .start zeroedEvents).fp
        rw [scanEvents] at hr
        rw [hslot] at h
        simp only at h
        rw [Tls.bind_ok hderef, hr] at h
        cases h
        simp only [Option.bind_some, hdata, loadContents, hscan, if_true, hr]
        rfl
    · simp only [beginLoad, hscan, if_false] at h
      cases h
      cases (p.slot t).bind p.heap.block with
      | none => rfl
      | some data => simp only [loadContents, hscan, if_false, Option.map_none]

/-- A thread does what it would do alone. -/
theorem Owned.solo_own (hs : s.Owned) {a : Action} (ha : s.Allowed a)
    (hlast : ∀ u o, a ≠ .notify .DLL_PROCESS_DETACH u o) :
    (s.step ndebug build a).solo a.thread = (s.solo a.thread).step build a := by
  cases a with
  | notify r t o =>
    cases r with
    | DLL_PROCESS_ATTACH =>
      have hbefore := ha.2.1
      rw [hs.loader] at hbefore
      cases hbefore
    | DLL_THREAD_ATTACH => exact hs.solo_attach ndebug build ha
    | DLL_THREAD_DETACH => exact hs.solo_detach ndebug build ha
    | DLL_PROCESS_DETACH => exact absurd rfl (hlast t o)
  | loadBegin t host file =>
    obtain ⟨-, -, hrun, hidle⟩ := ha
    have hlive (ptr : Nat) (hptr : s.process.slot t = some ptr) : s.process.heap.Live ptr :=
      hs.slot_live hrun hptr
    obtain ⟨load, p, hp, -, hslot, hheap, -⟩ :=
      beginLoad_spec ndebug build host file hs.ready hlive
    have hcontents := beginLoad_contents ndebug build host file hs.ready hlive hp
    rw [← held_running hrun] at hcontents
    simp only [step, hp, Action.thread]
    have hheld : held { s with process := p, load := Function.update s.load t load } = s.held :=
      held_congr rfl hslot
    rw [solo, hheld]
    simp only [Function.update_self, hcontents, hheap]
    rfl
  | loadWrite t =>
    obtain ⟨-, -, ptr, d, ds, hl⟩ := ha
    have hown := hs.load t _ hl
    obtain ⟨heap, hwrite⟩ := Heap.write_some (hs.heap.live hown) d
    obtain ⟨-, hself, -⟩ := Heap.write_spec hwrite
    have hheld (v : Thread → Option Load) :
        held { s with process := { s.process with heap }, load := v } = s.held := rfl
    simp only [step, hl, writeBlock, hwrite, after, Action.thread]
    rw [solo, hheld, hown]
    simp only [Function.update_self, Option.bind_some, hself, Solo.step, solo, hl, Option.map_some]
  | loadEnd t =>
    have hheld (v : Thread → Option Load) : held { s with load := v } = s.held := rfl
    simp only [step, Action.thread]
    rw [solo, hheld]
    simp only [Function.update_self, Option.map_none]
    rfl

end

end System

/-! ## Runs -/

section

variable (ndebug : Bool) (build : Build) {s₀ s : System} {ls : List Action} {t : Thread}
  {o : Outcomes}

private theorem initial_data (hs : s.Initial) (u : Thread) : (s.solo u).data = none := by
  simp only [System.solo, hs.heap]
  cases s.held u <;> rfl

/-- The announcement that comes with the load. -/
private theorem load_data (hs : s₀.Initial) (hrun : s₀.life t = .running)
    (hindex : o.tlsAlloc ≠ TLS_OUT_OF_INDEXES)
    (hloaded : (s₀.step ndebug build (.notify .DLL_PROCESS_ATTACH t o)).loader = .loaded) :
    ((s₀.step ndebug build (.notify .DLL_PROCESS_ATTACH t o)).solo t).data =
      announcedData o none := by
  obtain ⟨p, ret, p', hmain, hslot, -, hend⟩ := DllMain_attach ndebug (t := t) hs.tlsIndex hindex
  have hdata := System.announced_data hend fun ptr hptr => by
    rw [hslot] at hptr
    cases hptr
  rw [hslot, Option.bind_none] at hdata
  cases ret with
  | false => simp only [System.step, hmain, reduceCtorEq] at hloaded
  | true =>
    simp only [System.step, hmain]
    have hheld : System.held { s₀ with process := p', loader := .loaded } t = p'.slot t :=
      System.held_running hrun
    rw [System.solo, hheld]
    exact hdata

/-- Before the load no thread has buffers, and behind it only the loading thread has. -/
private theorem solo_load (hs : s₀.Initial)
    (ha : s₀.Allowed (.notify .DLL_PROCESS_ATTACH t o))
    (hloaded : (s₀.step ndebug build (.notify .DLL_PROCESS_ATTACH t o)).loader = .loaded)
    (u : Thread) :
    (s₀.step ndebug build (.notify .DLL_PROCESS_ATTACH t o)).solo u =
      if t = u then (s₀.solo u).step build (.notify .DLL_PROCESS_ATTACH t o) else s₀.solo u := by
  have hrun := ha.2.2.1
  have hload : (s₀.step ndebug build (.notify .DLL_PROCESS_ATTACH t o)).load = s₀.load := by
    simp only [System.step]
    split <;> rfl
  have hindex : o.tlsAlloc ≠ TLS_OUT_OF_INDEXES := by
    intro hindex
    have hmain := DllMain_attach_unset ndebug (t := t) hs.tlsIndex hindex
    simp only [System.step, hmain, reduceCtorEq] at hloaded
  obtain ⟨-, -, -, -, hlife, -, ⟨hrefused, -⟩ | ⟨-, hheld⟩⟩ := hs.attach ndebug build hrun hindex
  · rw [hrefused] at hloaded
    cases hloaded
  by_cases htu : t = u
  · subst htu
    have hdata := load_data ndebug build hs hrun hindex hloaded
    rw [if_pos rfl, Solo.step, initial_data hs, ← hdata, System.solo, System.solo, hlife, hload,
      hrun]
  · have hnone : (s₀.step ndebug build (.notify .DLL_PROCESS_ATTACH t o)).held u = none := by
      by_contra hne
      exact htu ((hheld u).mp hne).symm
    have hbefore : (s₀.held u).bind s₀.process.heap.block = none := initial_data hs u
    rw [if_neg htu, System.solo, System.solo, hnone, hlife, hload, hbefore]
    rfl

/-- What a run keeps, up to the last notification. -/
private structure SoloAlong (build : Build) (s₀ : System) (ls : List Action) (s : System) :
    Prop where
  stage : Stage ls s
  start : ls = [] → s = s₀
  solo : s.loader = .loaded → ∀ t, s.solo t =
    (ls.filter fun a => a.thread = t).foldl (Solo.step build) (s₀.solo t)

private theorem soloAlong_step (h₀ : s₀.Initial) {a : Action} (h : SoloAlong build s₀ ls s)
    (ha : s.Allowed a) : SoloAlong build s₀ (ls ++ [a]) (s.step ndebug build a) := by
  refine ⟨stage_step ndebug build h.stage ha, fun hnil => absurd hnil (List.concat_ne_nil a ls), ?_⟩
  intro hloaded t
  by_cases hlast : ∀ u o, a ≠ .notify .DLL_PROCESS_DETACH u o
  · have hcases := System.allowed_cases ha
    cases h.stage with
    | before hs hls =>
      rw [hs.loader] at hcases
      obtain ⟨u, o, rfl⟩ := hcases
      obtain rfl := h.start hls
      subst hls
      rw [solo_load ndebug build h₀ ha hloaded t]
      by_cases hut : u = t
      · simp [hut, Action.thread]
      · simp [hut, Action.thread]
    | loaded hs =>
      rw [List.filter_append, List.foldl_append, ← h.solo hs.loader t]
      by_cases hat : a.thread = t
      · subst hat
        rw [hs.solo_own ndebug build ha hlast]
        simp
      · rw [hs.solo_other ndebug build ha hlast (Ne.symm hat)]
        simp [hat]
    | refused hloader | failed hloader =>
      rw [hloader] at hcases
      obtain ⟨o, rfl⟩ := hcases
      exact absurd rfl (hlast _ o)
    | gone hloader | astray hloader =>
      rw [hloader] at hcases
      exact hcases.elim
  · obtain ⟨u, hlast⟩ := not_forall.mp hlast
    obtain ⟨o, hlast⟩ := not_forall.mp hlast
    obtain rfl := not_not.mp hlast
    rw [System.detach_loader] at hloaded
    cases hloaded

end

/-- However notifications and loads mix, a thread does what it would do alone: its part of the state
is determined by its own actions. -/
theorem threads_alone (ndebug : Bool) (build : Build) {s₀ s : System} (h₀ : s₀.Initial)
    {ls : List Action} (hrun : (threads ndebug build).Run s₀ ls s)
    (hloaded : s.loader = .loaded) (t : Thread) :
    s.solo t = (ls.filter fun a => a.thread = t).foldl (Solo.step build) (s₀.solo t) := by
  have hstart : SoloAlong build s₀ [] s₀ := by
    refine ⟨.before h₀ rfl, fun _ => rfl, fun hno => ?_⟩
    rw [h₀.loader] at hno
    cases hno
  have halong : SoloAlong build s₀ ls s :=
    hrun.invariant (I := SoloAlong build s₀) hstart
      fun _ _ _ h ha => soloAlong_step ndebug build h₀ h ha
  exact halong.solo hloaded t

/-- Thread 2 comes and goes, and the buffer of thread 1 holds the notice that it read last. -/
theorem threads_alone_loadAmidDetach :
    ∃ s, (threads false .STEP_M).Run (freshProcess 1) loadAmidDetach s ∧
      (s.solo 1).data.map (fun data => data.metadataBuf.take 4) = some [0x64, 0x65, 0, 0] ∧
      (s.solo 0).data.map (fun data => data.metadataBuf.take 4) = some [0, 0, 0, 0] := by
  have hrun := loadAmidDetach_allowed.run
  have halone := threads_alone false .STEP_M (freshProcess_initial 1) hrun (by decide +kernel)
  refine ⟨_, hrun, ?_, ?_⟩
  · rw [halone 1]
    decide +kernel
  · rw [halone 0]
    decide +kernel

end StepMid
