import StepMid.Load.WellFormed
import StepMid.Tls.Runs

/-!
# What the threads may rely on

While the module is loaded, every running thread keeps its own buffers to itself. Whether it has
any depends on how it came to know the module: the threads that were there before the load, apart
from the loading one, have none and load no file.
-/

namespace StepMid

/-! ## Ownership -/

/-- The live blocks and the non-null slots of the running threads correspond one to one, no step
so far has used or freed a dead block, and loads work on the blocks of their threads. -/
structure BuffersOwned (ndebug : Bool) (s : System) : Prop where
  live_iff : ∀ ptr, s.process.heap.Live ptr ↔
    ∃ t, s.life t = .running ∧ s.process.slot t = some ptr
  unique : ∀ t u ptr, s.life t = .running → s.life u = .running →
    s.process.slot t = some ptr → s.process.slot u = some ptr → t = u
  fault : s.fault = none
  get_live : ∀ t ptr p, s.life t = .running →
    STEPMidTls.get ndebug t s.process = .ok (some ptr) p → s.process.heap.Live ptr
  load : ∀ t l, s.load t = some l → s.life t = .running ∧ s.process.slot t = some l.block

private theorem held_some {s : System} {t : Thread} {ptr : Nat} :
    s.held t = some ptr ↔ s.life t = .running ∧ s.process.slot t = some ptr := by
  by_cases hrun : s.life t = .running
  · rw [System.held_running hrun]
    simp [hrun]
  · rw [System.held_none hrun]
    simp [hrun]

private theorem System.Owned.buffersOwned {ndebug : Bool} {s : System} (hs : s.Owned) :
    BuffersOwned ndebug s where
  live_iff ptr := by
    rw [hs.heap.live_iff]
    exact exists_congr fun _ => held_some
  unique t u ptr ht hu htp hup :=
    hs.heap.unique t u ptr (held_some.mpr ⟨ht, htp⟩) (held_some.mpr ⟨hu, hup⟩)
  fault := hs.fault
  get_live t ptr p ht hget := by
    rw [STEPMidTls.get_ready ndebug t hs.ready] at hget
    cases hslot : s.process.slot t with
    | none =>
      rw [hslot] at hget
      cases hget
    | some ptr' =>
      rw [hslot] at hget
      cases hget
      exact hs.slot_live ht hslot
  load t l hl := held_some.mp (hs.load t l hl)

/-- While the module is loaded it owns its runs' states. -/
theorem owned_of_run (ndebug : Bool) (build : Build) {s₀ s : System} (h₀ : s₀.Initial)
    {ls : List Action} (hrun : (threads ndebug build).Run s₀ ls s)
    (hloaded : s.loader = .loaded) : s.Owned := by
  cases threads_stage ndebug build h₀ hrun with
  | before hs => simp [hs.loader] at hloaded
  | loaded hs => exact hs
  | refused hloader | failed hloader | gone hloader | astray hloader => simp [hloader] at hloaded

/-- In every state before the last notification the buffers are owned, and the next action of a
thread leaves the blocks of all other threads and their contents alone. -/
theorem threads_own_buffers (ndebug : Bool) (build : Build) {s₀ s : System} (h₀ : s₀.Initial)
    {ls : List Action} (hrun : (threads ndebug build).Run s₀ ls s)
    (hloaded : s.loader = .loaded) :
    BuffersOwned ndebug s ∧
      ∀ a, s.Allowed a → (∀ t o, a ≠ .notify .DLL_PROCESS_DETACH t o) →
        (s.step ndebug build a).fault = none ∧
        ∀ u ptr, u ≠ a.thread → s.life u = .running → s.process.slot u = some ptr →
          (s.step ndebug build a).process.slot u = some ptr ∧
          (s.step ndebug build a).process.heap.block ptr = s.process.heap.block ptr := by
  have hs := owned_of_run ndebug build h₀ hrun hloaded
  refine ⟨hs.buffersOwned, ?_⟩
  intro a ha hlast
  have hmoves := hs.moves ndebug build ha hlast
  refine ⟨hmoves.fault, ?_⟩
  intro u ptr hu hlife hslot
  have hheld := held_some.mpr ⟨hlife, hslot⟩
  obtain ⟨hsame, hblock⟩ := hmoves.own.frame hs.heap hu
  exact ⟨(held_some.mp (hsame.trans hheld)).2, hblock ptr hheld⟩

/-- Thread 1 comes after the load. -/
def loadAttach : List Action :=
  [.notify .DLL_PROCESS_ATTACH 0 granted, .notify .DLL_THREAD_ATTACH 1 granted]

theorem loadAttach_allowed :
    (threads false .STEP_K).AllowedAlong (freshProcess 1) loadAttach :=
  ⟨⟨rfl, rfl, rfl, Or.inr rfl⟩, ⟨rfl, rfl, nofun, rfl⟩, trivial⟩

/-- Two threads come after the load. While thread 1 loads a file, thread 2 leaves. -/
def loadAmidDetach : List Action :=
  [.notify .DLL_PROCESS_ATTACH 0 granted, .notify .DLL_THREAD_ATTACH 1 granted,
    .notify .DLL_THREAD_ATTACH 2 granted, .loadBegin 1 plainHost (some textFile), .loadWrite 1,
    .loadWrite 1, .notify .DLL_THREAD_DETACH 2 granted, .loadWrite 1, .loadWrite 1, .loadEnd 1]

private theorem writes_left {l : Option Load} {n : Nat}
    (h : l.map (fun l => l.writes.length) = some (n + 1)) :
    ∃ ptr d ds, l = some ⟨ptr, d :: ds⟩ := by
  cases l with
  | none => cases h
  | some l =>
    obtain ⟨d, ds, hl⟩ := List.exists_cons_of_length_eq_add_one (Option.some.inj h)
    exact ⟨l.block, d, ds, by rw [← hl]⟩

private theorem writes_done {l : Option Load}
    (h : l.map (fun l => l.writes.length) = some 0) : ∃ ptr, l = some ⟨ptr, []⟩ := by
  cases l with
  | none => cases h
  | some l => exact ⟨l.block, by rw [← List.length_eq_zero_iff.mp (Option.some.inj h)]⟩

theorem loadAmidDetach_allowed :
    (threads false .STEP_M).AllowedAlong (freshProcess 1) loadAmidDetach := by
  refine ⟨⟨rfl, rfl, rfl, Or.inr rfl⟩, ⟨rfl, rfl, nofun, rfl⟩, ⟨rfl, rfl, nofun, rfl⟩,
    ⟨rfl, rfl, rfl, rfl⟩, ⟨?_, ?_, writes_left (n := 3) ?_⟩, ⟨?_, ?_, writes_left (n := 2) ?_⟩,
    ⟨?_, ?_, ?_, ?_⟩, ⟨?_, ?_, writes_left (n := 1) ?_⟩, ⟨?_, ?_, writes_left (n := 0) ?_⟩,
    ⟨?_, ?_, writes_done ?_⟩, trivial⟩
  all_goals decide +kernel

theorem threads_own_buffers_loadAmidDetach :
    ∃ s, (threads false .STEP_M).Run (freshProcess 1) loadAmidDetach s ∧ s.loader = .loaded ∧
      BuffersOwned false s ∧
      (s.step false .STEP_M (.notify .DLL_THREAD_DETACH 1 granted)).fault = none := by
  have hrun := loadAmidDetach_allowed.run
  have hloaded : ((threads false .STEP_M).exec (freshProcess 1) loadAmidDetach).loader =
      .loaded := by decide +kernel
  obtain ⟨howned, hnext⟩ :=
    threads_own_buffers false .STEP_M (freshProcess_initial 1) hrun hloaded
  refine ⟨_, hrun, hloaded, howned, ?_⟩
  refine (hnext (.notify .DLL_THREAD_DETACH 1 granted) ?_ nofun).1
  refine ⟨?_, ?_, ?_, ?_⟩
  all_goals decide +kernel

/-! ## Who has buffers -/

/-- All calls of the system succeed. -/
def Action.Granted : Action → Prop
  | .notify _ _ o =>
    o.tlsAlloc ≠ TLS_OUT_OF_INDEXES ∧ o.localAlloc = true ∧ o.tlsSetValue = true
  | .loadBegin _ _ _ | .loadWrite _ | .loadEnd _ => True

/-- The module is not told of threads that existed when it was loaded. -/
def Action.Documented (s₀ : System) : Action → Prop
  | .notify .DLL_THREAD_ATTACH t _ => s₀.life t ≠ .running
  | _ => True

/-- The thread loaded the module, or it was created afterwards. -/
def Known (s₀ : System) (ls : List Action) (t : Thread) : Prop :=
  s₀.life t ≠ .running ∨ ∃ o, Action.notify .DLL_PROCESS_ATTACH t o ∈ ls

/-- The content of the block that `STEPMidTls::get` finds. -/
def System.tlsData (s : System) (t : Thread) : Option TlsData :=
  (s.process.slot t).bind s.process.heap.block

/-- `STEPMidTls::get` finds the thread's block, and every well-formed file is loaded. -/
structure CanLoad (ndebug : Bool) (build : Build) (s : System) (t : Thread) : Prop where
  finds : ∃ ptr p, STEPMidTls.get ndebug t s.process = .ok (some ptr) p
  loads : ∀ (host : Host) (nFileTypeMID : UInt32) (m : Smf) (info : FILE_INFO),
    m.bytes.length < 2 ^ 31 → host.Obliges build →
      ∃ r, STEPLoad build host nFileTypeMID (s.tlsData t) (some m.bytes) info = .ok r ∧
        r.ret = .STEP_SUCCESS

private theorem System.Owned.canLoad_iff {ndebug : Bool} {build : Build} {s : System} {t : Thread}
    (hs : s.Owned) (ht : s.life t = .running) : CanLoad ndebug build s t ↔ s.held t ≠ none := by
  have hget := STEPMidTls.get_ready ndebug t hs.ready
  rw [System.held_running ht]
  constructor
  · rintro ⟨⟨ptr, p, hfinds⟩, -⟩ hnone
    rw [hget, hnone] at hfinds
    cases hfinds
  · intro hsome
    obtain ⟨ptr, hptr⟩ := Option.ne_none_iff_exists'.mp hsome
    obtain ⟨data, hdata⟩ := (hs.slot_live ht hptr).exists_block
    refine ⟨⟨ptr, s.process.noted, by rw [hget, hptr]⟩, ?_⟩
    intro host nFileTypeMID m info hsize hhost
    rw [System.tlsData, hptr, Option.bind_some, hdata]
    exact STEPLoad_wellFormed build hhost nFileTypeMID data hsize info

theorem known_append {s₀ : System} {ls : List Action} {a : Action} {u : Thread}
    (ha : ∀ o, a ≠ .notify .DLL_PROCESS_ATTACH u o) :
    Known s₀ (ls ++ [a]) u ↔ Known s₀ ls u := by
  refine or_congr Iff.rfl (exists_congr fun o => ?_)
  rw [List.mem_append, List.mem_singleton, or_iff_left]
  exact fun h => ha o h.symm

/-- What a run keeps: of the running threads, the known ones hold a block. -/
structure BlocksKnown (s₀ : System) (ls : List Action) (s : System) : Prop where
  stage : Stage ls s
  start : ls = [] → s = s₀
  held : s.loader = .loaded → ∀ t, s.life t = .running → (s.held t ≠ none ↔ Known s₀ ls t)

section

variable (ndebug : Bool) (build : Build) {s₀ s : System} {ls : List Action}

/-- The load gives a block to the loading thread only. -/
private theorem known_attach (hs : s₀.Initial) {t : Thread} {o : Outcomes}
    (ha : s₀.Allowed (.notify .DLL_PROCESS_ATTACH t o))
    (hindex : o.tlsAlloc ≠ TLS_OUT_OF_INDEXES)
    (hloaded : (s₀.step ndebug build (.notify .DLL_PROCESS_ATTACH t o)).loader = .loaded)
    (u : Thread)
    (hu : (s₀.step ndebug build (.notify .DLL_PROCESS_ATTACH t o)).life u = .running) :
    (s₀.step ndebug build (.notify .DLL_PROCESS_ATTACH t o)).held u ≠ none ↔
      Known s₀ [.notify .DLL_PROCESS_ATTACH t o] u := by
  obtain ⟨-, -, -, -, hlife, -, ⟨hrefused, -⟩ | ⟨-, hheld⟩⟩ :=
    hs.attach ndebug build ha.2.2.1 hindex
  · rw [hrefused] at hloaded
    cases hloaded
  rw [hlife] at hu
  rw [hheld, Known, or_iff_right (not_not_intro hu)]
  constructor
  · intro hut
    subst hut
    exact ⟨o, List.mem_singleton_self _⟩
  · intro ⟨q, hq⟩
    cases List.mem_singleton.mp hq
    rfl

/-- Afterwards a thread gets its block when it is created, and keeps it until it leaves. -/
private theorem known_moves (hs : s.Owned) {a : Action} (ha : s.Allowed a)
    (hfirst : ∀ t o, a ≠ .notify .DLL_PROCESS_ATTACH t o)
    (hlast : ∀ t o, a ≠ .notify .DLL_PROCESS_DETACH t o) (hgranted : a.Granted)
    (hdoc : a.Documented s₀)
    (hheld : ∀ t, s.life t = .running → (s.held t ≠ none ↔ Known s₀ ls t)) (u : Thread)
    (hu : (s.step ndebug build a).life u = .running) :
    (s.step ndebug build a).held u ≠ none ↔ Known s₀ (ls ++ [a]) u := by
  have hmoves := hs.moves ndebug build ha hlast
  rw [known_append (hfirst u)]
  by_cases hut : u = a.thread
  · have hload : (∀ r t o, a ≠ .notify r t o) →
        ((s.step ndebug build a).held u ≠ none ↔ Known s₀ ls u) := by
      intro hload
      obtain ⟨-, hlife, hsame⟩ := hs.load_moves ndebug build ha hload
      rw [hlife] at hu
      rw [hsame]
      exact hheld u hu
    cases a with
    | notify r t o =>
      obtain rfl : u = t := hut
      cases r with
      | DLL_PROCESS_ATTACH => exact absurd rfl (hfirst u o)
      | DLL_THREAD_ATTACH =>
        obtain ⟨-, -, hblock⟩ := hs.attach ndebug build ha
        exact iff_of_true (hblock hgranted.2) (Or.inl hdoc)
      | DLL_THREAD_DETACH =>
        rw [(hs.detach ndebug build ha).2] at hu
        cases hu
      | DLL_PROCESS_DETACH => exact absurd rfl (hlast u o)
    | loadBegin | loadWrite | loadEnd => exact hload nofun
  · rw [hmoves.life u hut] at hu
    rw [(hmoves.own.frame hs.heap hut).1]
    exact hheld u hu

private theorem blocksKnown_step {a : Action} (h₀ : s₀.Initial) (h : BlocksKnown s₀ ls s)
    (ha : s.Allowed a) (hgranted : a.Granted) (hdoc : a.Documented s₀) :
    BlocksKnown s₀ (ls ++ [a]) (s.step ndebug build a) := by
  refine ⟨stage_step ndebug build h.stage ha, fun hnil => absurd hnil (List.concat_ne_nil a ls), ?_⟩
  intro hloaded
  by_cases hlast : ∀ t o, a ≠ .notify .DLL_PROCESS_DETACH t o
  · have hcases := System.allowed_cases ha
    cases h.stage with
    | before hs hls =>
      rw [hs.loader] at hcases
      obtain ⟨t, o, rfl⟩ := hcases
      obtain rfl := h.start hls
      subst hls
      exact known_attach ndebug build h₀ ha hgranted.1 hloaded
    | loaded hs =>
      rw [hs.loader] at hcases
      rcases hcases with ⟨t, o, rfl, -⟩ | ⟨hfirst, -⟩
      · exact absurd rfl (hlast t o)
      · exact known_moves ndebug build hs ha hfirst hlast hgranted hdoc (h.held hs.loader)
    | refused hloader | failed hloader =>
      rw [hloader] at hcases
      obtain ⟨o, rfl⟩ := hcases
      exact absurd rfl (hlast _ o)
    | gone hloader | astray hloader =>
      rw [hloader] at hcases
      exact hcases.elim
  · obtain ⟨t, hlast⟩ := not_forall.mp hlast
    obtain ⟨o, hlast⟩ := not_forall.mp hlast
    obtain rfl := not_not.mp hlast
    rw [System.detach_loader] at hloaded
    cases hloaded

theorem blocksKnown_of_run (h₀ : s₀.Initial) (hrun : (threads ndebug build).Run s₀ ls s)
    (hgranted : ∀ a ∈ ls, a.Granted) (hdoc : ∀ a ∈ ls, a.Documented s₀) :
    BlocksKnown s₀ ls s := by
  have hstart : BlocksKnown s₀ [] s₀ := by
    refine ⟨.before h₀ rfl, fun _ => rfl, fun hloaded₀ => ?_⟩
    rw [h₀.loader] at hloaded₀
    cases hloaded₀
  exact hrun.invariant_of (P := fun a => a.Granted ∧ a.Documented s₀) (I := BlocksKnown s₀) hstart
    (fun _ _ _ h ha hP => blocksKnown_step ndebug build h₀ h ha hP.1 hP.2)
    fun a ha => ⟨hgranted a ha, hdoc a ha⟩

end

/-- While the module is loaded, a running thread can load files exactly when the module knows of
it: the threads that were there before, other than the loading one, cannot. -/
theorem threads_can_load (ndebug : Bool) (build : Build) {s₀ s : System} (h₀ : s₀.Initial)
    {ls : List Action} (hrun : (threads ndebug build).Run s₀ ls s)
    (hgranted : ∀ a ∈ ls, a.Granted) (hdoc : ∀ a ∈ ls, a.Documented s₀)
    (hloaded : s.loader = .loaded) {t : Thread} (ht : s.life t = .running) :
    CanLoad ndebug build s t ↔ Known s₀ ls t := by
  rw [(owned_of_run ndebug build h₀ hrun hloaded).canLoad_iff ht]
  exact (blocksKnown_of_run ndebug build h₀ hrun hgranted hdoc).held hloaded t ht

theorem threads_can_load_loadAttach :
    ∃ s, (threads false .STEP_K).Run (freshProcess 1) loadAttach s ∧
      CanLoad false .STEP_K s 1 := by
  refine ⟨_, loadAttach_allowed.run, ?_⟩
  refine (threads_can_load false .STEP_K (freshProcess_initial 1) loadAttach_allowed.run ?_ ?_ rfl
    rfl).mpr (Or.inl nofun)
  · simp [loadAttach, Action.Granted, granted, TLS_OUT_OF_INDEXES]
  · simp [loadAttach, Action.Documented, freshProcess]

/-- Thread 1 is there before the load, finds no block and fails to load a well-formed file. -/
theorem threads_can_load_earlier :
    ∃ s, (threads false .STEP_K).Run (freshProcess 2) [.notify .DLL_PROCESS_ATTACH 0 granted] s ∧
      s.loader = .loaded ∧ s.life 1 = .running ∧
      (∃ p, STEPMidTls.get false 1 s.process = .ok none p) ∧
      ∃ r, STEPLoad .STEP_K plainHost 0 (s.tlsData 1) (some twoTracks.bytes) blankInfo = .ok r ∧
        r.ret = .STEP_ERROR := by
  have hallowed : (threads false .STEP_K).AllowedAlong (freshProcess 2)
      [.notify .DLL_PROCESS_ATTACH 0 granted] := ⟨⟨rfl, rfl, rfl, Or.inr rfl⟩, trivial⟩
  exact ⟨_, hallowed.run, rfl, rfl, ⟨_, rfl⟩, _,
    STEPLoad_noData .STEP_K plainHost 0 (by decide) blankInfo, rfl⟩

end StepMid
