import StepMid.Framework.Lts
import StepMid.Framework.Ownership
import StepMid.Load.StepLoad
import StepMid.Tls.DllMain

/-!
# Threads and the loader

The loader announces the module's load and the threads of the process to `DllMain`, one
notification at a time. In between, the threads load files. A load works on the buffers of its
thread in steps of its own, so loads and notifications mix freely.
-/

namespace StepMid

inductive Life
  | unborn
  | running
  | ended
deriving DecidableEq

/-- How far the loader is: a refused module gets one more notification, on the same thread. -/
inductive Loader
  | before
  | loaded
  | refused (t : Thread)
  | gone
deriving DecidableEq

/-- A load under way: the thread's block and the contents it has yet to take on. -/
structure Load where
  block : Nat
  writes : List TlsData

structure System where
  process : Process
  loader : Loader
  life : Thread → Life
  load : Thread → Option Load
  fault : Option Fault

inductive Action
  | notify (fdwReason : Reason) (t : Thread) (o : Outcomes)
  | loadBegin (t : Thread) (host : Host) (file : Option (List UInt8))
  | loadWrite (t : Thread)
  | loadEnd (t : Thread)

/-- The thread that acts. -/
def Action.thread : Action → Thread
  | .notify _ t _ | .loadBegin t _ _ | .loadWrite t | .loadEnd t => t

/-! ## Loads -/

def deref (ptr : Nat) : Tls TlsData := fun p =>
  match p.heap.block ptr with
  | none => .error .deadBlock p
  | some data => .ok data p

def writeBlock (ptr : Nat) (data : TlsData) : Tls Unit := fun p =>
  match p.heap.write ptr data with
  | none => .error .deadBlock p
  | some heap => .ok () { p with heap }

/-- `STEPLoad` up to the point where `readMetaEvent` has its thread's block; `none` when it does
not come that far. -/
def beginLoad (ndebug : Bool) (build : Build) (host : Host) (t : Thread)
    (file : Option (List UInt8)) : Tls (Option Load) :=
  match file with
  | none => return none
  | some F =>
    let scan := findMetaEvents host.past F .start zeroedEvents
    if scan.ret = 0 then do
      match ← STEPMidTls.get ndebug t with
      | none => return none
      | some ptr =>
        let data ← deref ptr
        match readMetaEvent build host F (some data) scan.fp scan.events with
        | .error e => throw e
        | .ok r => return some ⟨ptr, r.writes⟩
    else return none

/-! ## The system -/

namespace System

/-- A new thread starts with null slots. -/
def enter (s : System) (t : Thread) : System :=
  if s.life t = .unborn then
    { s with
      life := Function.update s.life t .running
      process := { s.process with value := Function.update s.process.value t fun _ => none } }
  else s

def after {α : Type} (s : System) : EStateM.Result Fault Process α → System
  | .ok _ p => { s with process := p }
  | .error e p => { s with process := p, fault := some e }

/-- The protocol of the loader; a thread is at one thing at a time. -/
def Allowed (s : System) : Action → Prop
  | .notify .DLL_PROCESS_ATTACH t o => s.fault = none ∧ s.loader = .before ∧ s.life t = .running ∧
      (o.tlsAlloc = TLS_OUT_OF_INDEXES ∨ s.process.allocated o.tlsAlloc = false)
  | .notify .DLL_THREAD_ATTACH t _ =>
      s.fault = none ∧ s.loader = .loaded ∧ s.life t ≠ .ended ∧ s.load t = none
  | .notify .DLL_THREAD_DETACH t _ | .loadBegin t _ _ =>
      s.fault = none ∧ s.loader = .loaded ∧ s.life t = .running ∧ s.load t = none
  | .notify .DLL_PROCESS_DETACH t _ => s.fault = none ∧
      (s.loader = .refused t ∨ s.loader = .loaded ∧ s.life t = .running ∧ s.load t = none)
  | .loadWrite t =>
      s.fault = none ∧ s.loader = .loaded ∧ ∃ ptr d ds, s.load t = some ⟨ptr, d :: ds⟩
  | .loadEnd t => s.fault = none ∧ s.loader = .loaded ∧ ∃ ptr, s.load t = some ⟨ptr, []⟩

def step (ndebug : Bool) (build : Build) (s : System) : Action → System
  | .notify .DLL_PROCESS_ATTACH t o =>
    match DllMain ndebug o t .DLL_PROCESS_ATTACH s.process with
    | .ok true p => { s with process := p, loader := .loaded }
    | .ok false p => { s with process := p, loader := .refused t }
    | .error e p => { s with process := p, fault := some e }
  | .notify .DLL_THREAD_ATTACH t o =>
    (s.enter t).after (DllMain ndebug o t .DLL_THREAD_ATTACH (s.enter t).process)
  | .notify .DLL_THREAD_DETACH t o =>
    { s with life := Function.update s.life t .ended }.after
      (DllMain ndebug o t .DLL_THREAD_DETACH s.process)
  | .notify .DLL_PROCESS_DETACH t o =>
    { s with loader := .gone }.after (DllMain ndebug o t .DLL_PROCESS_DETACH s.process)
  | .loadBegin t host file =>
    match beginLoad ndebug build host t file s.process with
    | .ok load p => { s with process := p, load := Function.update s.load t load }
    | .error e p => { s with process := p, fault := some e }
  | .loadWrite t =>
    match s.load t with
    | some ⟨ptr, d :: ds⟩ =>
      { s with load := Function.update s.load t (some ⟨ptr, ds⟩) }.after
        (writeBlock ptr d s.process)
    | _ => s
  | .loadEnd t => { s with load := Function.update s.load t none }

/-- Before the module is loaded. -/
structure Initial (s : System) : Prop where
  tlsIndex : s.process.tlsIndex = TLS_OUT_OF_INDEXES
  allocated : s.process.allocated TLS_OUT_OF_INDEXES = false
  heap : s.process.heap = .empty
  uses : s.process.uses = []
  tlsFrees : s.process.tlsFrees = []
  loader : s.loader = .before
  load : s.load = fun _ => none
  fault : s.fault = none

/-- The block that a thread holds, as long as it is there. -/
def held (s : System) (t : Thread) : Option Nat :=
  if s.life t = .running then s.process.slot t else none

section

variable {s s' : System} {t : Thread}

theorem held_running (h : s.life t = .running) : s.held t = s.process.slot t := if_pos h

theorem held_none (h : s.life t ≠ .running) : s.held t = none := if_neg h

theorem held_congr (hlife : s'.life = s.life) (hslot : s'.process.slot = s.process.slot) :
    s'.held = s.held := by
  funext u
  rw [held, held, hlife, hslot]

theorem held_update {v : Option Nat} (hlife : s'.life = s.life) (ht : s.life t = .running)
    (hslot : s'.process.slot = Function.update s.process.slot t v) :
    s'.held = Function.update s.held t v := by
  funext u
  by_cases hut : u = t
  · rw [hut, held_running (by rw [hlife, ht]), hslot, Function.update_self, Function.update_self]
  · rw [held, hlife, hslot, Function.update_of_ne hut, Function.update_of_ne hut, held]

theorem held_ended (hlife : s'.life = Function.update s.life t .ended)
    (hslot : s'.process.slot = s.process.slot) : s'.held = Function.update s.held t none := by
  funext u
  by_cases hut : u = t
  · rw [hut, Function.update_self]
    apply held_none
    rw [hlife, Function.update_self]
    decide
  · rw [held, hlife, hslot, Function.update_of_ne hut, Function.update_of_ne hut, held]

end

/-- A thread that enters holds what it held before, which is nothing if it is new. -/
theorem enter_spec (s : System) {t : Thread} (ht : s.life t ≠ .ended) :
    (s.enter t).life t = .running ∧ (∀ u, u ≠ t → (s.enter t).life u = s.life u) ∧
      (s.enter t).held = s.held ∧ s.process.Keeps (s.enter t).process ∧
      (s.enter t).process.heap = s.process.heap ∧ (s.enter t).load = s.load ∧
      (s.enter t).loader = s.loader ∧ (s.enter t).fault = s.fault := by
  by_cases hnew : s.life t = .unborn
  · rw [enter, if_pos hnew]
    refine ⟨Function.update_self .., fun u hu => Function.update_of_ne hu .., ?_,
      ⟨rfl, rfl, rfl, [], by simp, by simp⟩, rfl, rfl, rfl, rfl⟩
    funext u
    by_cases hut : u = t
    · rw [hut, held_running (Function.update_self ..), held_none (by rw [hnew]; decide)]
      simp only [Process.slot, Function.update_self]
    · simp only [held, Process.slot, Function.update_of_ne hut]
  · have hrun : s.life t = .running := by
      cases h : s.life t with
      | unborn => exact absurd h hnew
      | running => rfl
      | ended => exact absurd h ht
    rw [enter, if_neg hnew]
    exact ⟨hrun, fun _ _ => rfl, rfl, .refl _, rfl, rfl, rfl, rfl⟩

end System

/-- The module in its process, over all orders of notifications and loads. -/
def threads (ndebug : Bool) (build : Build) : Lts System Action where
  Allowed := System.Allowed
  step := System.step ndebug build

end StepMid
