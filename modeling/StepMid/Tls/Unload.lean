import StepMid.Tls.Threads

/-!
# What an unload leaves behind

The last notification takes back the buffers of the thread that it comes on. The module has no way
to reach those of the other threads.
-/

namespace StepMid

/-- The blocks of the threads that are there, apart from `t`. -/
def System.leftBehind (s : System) (t : Thread) : Thread → Option Nat :=
  Function.update s.held t none

section

variable (ndebug : Bool) (build : Build) {s₀ s : System} {ls : List Action} {t : Thread}
  {o : Outcomes}

/-- The last notification, with an index. -/
private theorem detach_spec (hready : s.process.Ready)
    (hlive : ∀ ptr, s.process.slot t = some ptr → s.process.heap.Live ptr) :
    let s' := s.step ndebug build (.notify .DLL_PROCESS_DETACH t o)
    s'.fault = s.fault ∧ s'.life = s.life ∧ s'.held = s.held ∧
      (s.process.slot t = none ∧ s'.process.heap = s.process.heap ∨
        ∃ ptr, s.process.slot t = some ptr ∧
          s.process.heap.free ptr = some s'.process.heap) := by
  obtain ⟨p, hrelease, hkeeps, hslot, hend⟩ := release_spec ndebug hready hlive
  have hmain : DllMain ndebug o t .DLL_PROCESS_DETACH s.process = _ :=
    (Tls.bind_ok hrelease).trans (Tls.bind_ok
      (STEPMidTls.deinitialize_ready ndebug (hkeeps.ready hready)) (f := fun _ => pure true))
  simp only [System.step, hmain]
  exact ⟨rfl, rfl, System.held_congr rfl hslot, hend⟩

/-- A thread that holds a block gives it back, and the others keep theirs. -/
private theorem System.Owned.unload (hs : s.Owned) (hrun : s.life t = .running) :
    let s' := s.step ndebug build (.notify .DLL_PROCESS_DETACH t o)
    s'.fault = none ∧ s'.life = s.life ∧ s'.held = s.held ∧
      s'.process.heap.OwnedBy (s'.leftBehind t) := by
  obtain ⟨hfault, hlife, hheld, hend⟩ :=
    detach_spec ndebug build (o := o) hs.ready fun ptr => hs.slot_live hrun
  refine ⟨hfault.trans hs.fault, hlife, hheld, ?_⟩
  rw [System.leftBehind, hheld]
  rcases hend with ⟨hnone, hsame⟩ | ⟨ptr, hptr, hfree⟩
  · have hleft : Function.update s.held t none = s.held := by
      rw [Function.update_eq_self_iff, System.held_running hrun, hnone]
    rw [hleft, hsame]
    exact hs.heap
  · have hown : s.held t = some ptr := by rw [System.held_running hrun, hptr]
    exact hs.heap.free hown hfree

/-- Only the first notification can be refused. -/
private theorem refused_first {a : Action} (h : Stage ls s) (ha : s.Allowed a) {u : Thread}
    (hloader : (s.step ndebug build a).loader = .refused u) :
    s.Initial ∧ ls = [] ∧ ∃ t o, a = .notify .DLL_PROCESS_ATTACH t o := by
  have hcases := System.allowed_cases ha
  have hdetach {v : Thread} {q : Outcomes} : a ≠ .notify .DLL_PROCESS_DETACH v q := by
    intro hlast
    rw [hlast, System.detach_loader] at hloader
    cases hloader
  cases h with
  | before hs hls =>
    rw [hs.loader] at hcases
    exact ⟨hs, hls, hcases⟩
  | loaded hs =>
    rw [(hs.moves ndebug build ha fun _ _ => hdetach).loader] at hloader
    cases hloader
  | refused hbefore | failed hbefore =>
    rw [hbefore] at hcases
    obtain ⟨q, hlast⟩ := hcases
    exact absurd hlast hdetach
  | gone hgone | astray hgone =>
    rw [hgone] at hcases
    exact hcases.elim

/-- A refused first notification leaves no block, and no address in any slot. -/
private theorem refused_attach (hs : s.Initial) (hindex : o.tlsAlloc ≠ TLS_OUT_OF_INDEXES)
    (hloader : (s.step ndebug build (.notify .DLL_PROCESS_ATTACH t o)).loader ≠ .loaded) :
    let s' := s.step ndebug build (.notify .DLL_PROCESS_ATTACH t o)
    s'.process.slot = (fun _ => none) ∧ (∀ ptr, ¬ s'.process.heap.Live ptr) ∧
      ¬ (o.localAlloc = true ∧ o.tlsSetValue = true) := by
  obtain ⟨p, ret, p', hmain, hslot, hheap, hend⟩ :=
    DllMain_attach ndebug (t := t) hs.tlsIndex hindex
  cases hend with
  | kept | allocated =>
    simp only [System.step, hmain, ne_eq, not_true_eq_false] at hloader
  | refused hno _ hslot' hheap' =>
    simp only [System.step, hmain]
    refine ⟨hslot'.trans hslot, ?_, hno⟩
    intro ptr hlive
    rw [Heap.Live, hheap', hheap, hs.heap] at hlive
    cases hlive

/-- A refused module has no block, and the system did not grant it all it asked for. -/
private theorem refused_empty (h₀ : s₀.Initial) (hrun : (threads ndebug build).Run s₀ ls s)
    (hloader : s.loader = .refused t) (hindex : ¬ NoIndex ls) :
    s.held = (fun _ => none) ∧ (∀ ptr, ¬ s.process.heap.Live ptr) ∧ ∃ a ∈ ls, ¬ a.Granted := by
  cases hrun with
  | start =>
    rw [h₀.loader] at hloader
    cases hloader
  | @step ls s a hrun ha =>
    have hstage := threads_stage ndebug build h₀ hrun
    obtain ⟨hs, hls, u, o, rfl⟩ := refused_first ndebug build hstage ha hloader
    have hmem := List.mem_append_right ls (List.mem_singleton_self
      (Action.notify .DLL_PROCESS_ATTACH u o))
    have ho : o.tlsAlloc ≠ TLS_OUT_OF_INDEXES := fun ho => hindex ⟨u, o, hmem, ho⟩
    have hno : (s.step ndebug build (.notify .DLL_PROCESS_ATTACH u o)).loader ≠ .loaded := by
      intro hloaded
      have hboth := hloaded.symm.trans hloader
      cases hboth
    obtain ⟨hslot, hdead, hrefused⟩ := refused_attach ndebug build hs ho hno
    refine ⟨?_, hdead, _, hmem, fun hgranted => hrefused hgranted.2⟩
    funext v
    exact ite_eq_right_iff.mpr fun _ => congrFun hslot v

/-- Behind the last notification, whatever it found. -/
private theorem left_behind (h₀ : s₀.Initial) (hrun : (threads ndebug build).Run s₀ ls s)
    (ha : s.Allowed (.notify .DLL_PROCESS_DETACH t o)) (hindex : ¬ NoIndex ls) :
    let s' := s.step ndebug build (.notify .DLL_PROCESS_DETACH t o)
    s'.fault = none ∧ s'.life = s.life ∧ s'.held = s.held ∧
      s'.process.heap.OwnedBy (s'.leftBehind t) := by
  have hcases := ha.2
  cases threads_stage ndebug build h₀ hrun with
  | before hs =>
    rw [hs.loader] at hcases
    rcases hcases with hno | ⟨hno, -⟩
    all_goals cases hno
  | loaded hs =>
    rw [hs.loader] at hcases
    rcases hcases with hno | ⟨-, hlife, -⟩
    · cases hno
    · exact hs.unload ndebug build hlife
  | @refused u hloader hready hslot hfault =>
    obtain rfl : u = t := by
      rw [hloader] at hcases
      rcases hcases with hsame | ⟨hno, -⟩
      · cases hsame
        rfl
      · cases hno
    obtain ⟨hnone, hdead, -⟩ := refused_empty ndebug build h₀ hrun hloader hindex
    have hlive (ptr : Nat) (hptr : s.process.slot u = some ptr) : s.process.heap.Live ptr := by
      rw [hslot] at hptr
      cases hptr
    obtain ⟨hfault', hlife, hheld, hend⟩ := detach_spec ndebug build (o := o) hready hlive
    refine ⟨hfault'.trans hfault, hlife, hheld, ?_⟩
    rcases hend with ⟨-, hsame⟩ | ⟨ptr, hptr, -⟩
    · rw [System.leftBehind, hheld, hnone, Function.update_eq_self_iff.mpr rfl, hsame]
      exact ⟨fun ptr => iff_of_false (hdead ptr) (by simp), by simp⟩
    · rw [hslot] at hptr
      cases hptr
  | failed _ _ _ hno => exact absurd hno hindex
  | gone hloader | astray hloader =>
    rw [hloader] at hcases
    rcases hcases with hno | ⟨hno, -⟩
    all_goals cases hno

end

/-- An unload faults nowhere. It leaves one block behind for each other thread that is there and
holds one, and nothing else; with every call of the system granted, these are the threads that the
module knows of. -/
theorem threads_unload (ndebug : Bool) (build : Build) {s₀ s : System} (h₀ : s₀.Initial)
    {ls : List Action} {t : Thread} {o : Outcomes}
    (hrun : (threads ndebug build).Run s₀ (ls ++ [.notify .DLL_PROCESS_DETACH t o]) s)
    (hindex : ¬ NoIndex ls) :
    s.fault = none ∧ s.process.heap.OwnedBy (s.leftBehind t) ∧
      ((∀ a ∈ ls, a.Granted) → (∀ a ∈ ls, a.Documented s₀) →
        ∀ u, s.leftBehind t u ≠ none ↔ u ≠ t ∧ s.life u = .running ∧ Known s₀ ls u) := by
  obtain ⟨s', hrun', ha, hs⟩ := hrun.last
  obtain ⟨hfault, hlife, hheld, hleft⟩ : s.fault = none ∧ s.life = s'.life ∧ s.held = s'.held ∧
      s.process.heap.OwnedBy (s.leftBehind t) := by
    rw [hs]
    exact left_behind ndebug build h₀ hrun' ha hindex
  refine ⟨hfault, hleft, ?_⟩
  intro hgranted hdoc u
  have hknown := blocksKnown_of_run ndebug build h₀ hrun' hgranted hdoc
  have hloaded : s'.loader = .loaded := by
    rcases ha.2 with hrefused | ⟨hloaded, -⟩
    · obtain ⟨-, -, a, hmem, hno⟩ := refused_empty ndebug build h₀ hrun' hrefused hindex
      exact absurd (hgranted a hmem) hno
    · exact hloaded
  rw [System.leftBehind, hheld, hlife]
  by_cases hut : u = t
  · rw [hut, Function.update_self]
    simp
  · rw [Function.update_of_ne hut]
    by_cases hu : s'.life u = .running
    · rw [hknown.held hloaded u hu]
      simp [hut, hu]
    · rw [System.held_none hu]
      simp [hu]

theorem threads_unload_loadAttach :
    ∃ s, (threads false .STEP_K).Run (freshProcess 1)
        (loadAttach ++ [.notify .DLL_PROCESS_DETACH 0 granted]) s ∧
      s.process.heap.OwnedBy (s.leftBehind 0) ∧ s.leftBehind 0 1 = some 1 := by
  have hunload : (threads false .STEP_K).AllowedAlong (freshProcess 1)
      (loadAttach ++ [.notify .DLL_PROCESS_DETACH 0 granted]) :=
    ⟨⟨rfl, rfl, rfl, Or.inr rfl⟩, ⟨rfl, rfl, nofun, rfl⟩,
      ⟨rfl, Or.inr ⟨rfl, rfl, rfl⟩⟩, trivial⟩
  refine ⟨_, hunload.run, ?_, rfl⟩
  refine (threads_unload false .STEP_K (freshProcess_initial 1) hunload.run ?_).2.1
  rintro ⟨t, o, hmem, ho⟩
  have hgranted : t = 0 ∧ o = granted := by simpa [loadAttach] using hmem
  rw [hgranted.2] at ho
  exact absurd ho (by decide)

end StepMid
