import StepMid.Tls.Ownership

/-!
# Runs of the loader

What holds in every state of every run: before the load, while the module is loaded, when it was
refused, and after the last notification.
-/

namespace StepMid

/-- The uses of the index so far, the indices freed, and the index that the system gave out. -/
structure TlsLog (ls : List Action) (p : Process) (frees : List DWORD) : Prop where
  uses : ∀ u ∈ p.uses, u.Good
  tlsFrees : p.tlsFrees = frees
  index : p.tlsIndex ≠ TLS_OUT_OF_INDEXES
  attached : ∀ t o, Action.notify .DLL_PROCESS_ATTACH t o ∈ ls → o.tlsAlloc = p.tlsIndex

/-- `TlsAlloc` failed. -/
def NoIndex (ls : List Action) : Prop :=
  ∃ t o, Action.notify .DLL_PROCESS_ATTACH t o ∈ ls ∧ o.tlsAlloc = TLS_OUT_OF_INDEXES

/-- The states of the system, by how far the loader is. -/
inductive Stage (ls : List Action) (s : System) : Prop
  | before : s.Initial → ls = [] → Stage ls s
  | loaded : s.Owned → TlsLog ls s.process [] → Stage ls s
  | refused {t : Thread} : s.loader = .refused t → s.process.Ready → s.process.slot t = none →
      s.fault = none → TlsLog ls s.process [] → Stage ls s
  | failed {t : Thread} : s.loader = .refused t → s.process.tlsIndex = TLS_OUT_OF_INDEXES →
      s.process.allocated TLS_OUT_OF_INDEXES = false → NoIndex ls → Stage ls s
  | gone : s.loader = .gone → s.fault = none → TlsLog ls s.process [s.process.tlsIndex] →
      Stage ls s
  | astray {u : TlsUse} : s.loader = .gone → u ∈ s.process.uses → ¬ u.Good → NoIndex ls →
      Stage ls s

private theorem TlsLog.keeps {ls : List Action} {p p' : Process} {frees : List DWORD} {a : Action}
    (h : TlsLog ls p frees) (hk : p.Keeps p')
    (ha : ∀ t o, a ≠ .notify .DLL_PROCESS_ATTACH t o) : TlsLog (ls ++ [a]) p' frees where
  uses := by
    obtain ⟨us, hus, hgood⟩ := hk.uses
    intro u hu
    rw [hus] at hu
    rcases List.mem_append.mp hu with hu | hu
    · exact h.uses u hu
    · exact hgood u hu
  tlsFrees := hk.tlsFrees.trans h.tlsFrees
  index := by
    rw [hk.tlsIndex]
    exact h.index
  attached t o hmem := by
    rw [hk.tlsIndex]
    rcases List.mem_append.mp hmem with hmem | hmem
    · exact h.attached t o hmem
    · exact absurd (List.mem_singleton.mp hmem).symm (ha t o)

section

variable (ndebug : Bool) (build : Build) {s : System} {ls : List Action} {t : Thread}
  {o : Outcomes}

/-- With an index, the first notification leaves the loading thread with a block or is refused. -/
theorem System.Initial.attach (hs : s.Initial) (hrun : s.life t = .running)
    (hindex : o.tlsAlloc ≠ TLS_OUT_OF_INDEXES) :
    let s' := s.step ndebug build (.notify .DLL_PROCESS_ATTACH t o)
    s'.process.Ready ∧ s'.process.tlsIndex = o.tlsAlloc ∧ s'.process.tlsFrees = [] ∧
      (∀ u ∈ s'.process.uses, u.Good) ∧ s'.life = s.life ∧ s'.fault = none ∧
      (s'.loader = .refused t ∧ s'.process.slot t = none ∨
        s'.Owned ∧ ∀ u, s'.held u ≠ none ↔ u = t) := by
  obtain ⟨p, hinit, hready, hp, hslot, hheap, huses, hfrees⟩ :=
    initialize_succeeds ndebug hs.tlsIndex hindex
  obtain ⟨ret, p', hannounce, hkeeps, hend⟩ :=
    announce_spec ndebug (o := o) (t := t) hready
  have hmain : DllMain ndebug o t .DLL_PROCESS_ATTACH s.process = .ok ret p' := by
    rw [DllMain, Tls.bind_ok hinit]
    exact hannounce
  have hready' := hkeeps.ready hready
  have hindex' := hkeeps.tlsIndex.trans hp
  have hfrees' : p'.tlsFrees = [] := by rw [hkeeps.tlsFrees, hfrees, hs.tlsFrees]
  have hgood : ∀ u ∈ p'.uses, u.Good := by
    obtain ⟨us, hus, hgood⟩ := hkeeps.uses
    rw [hus, huses, hs.uses, List.nil_append]
    exact hgood
  -- nobody holds a block behind the initialization
  have hnobody : System.held { s with process := p } = fun _ => none := by
    funext u
    rw [System.held, hslot]
    exact ite_self _
  have hempty : p.heap.OwnedBy (System.held { s with process := p }) := by
    rw [hnobody, hheap, hs.heap]
    exact Heap.OwnedBy.empty
  obtain ⟨hown, hblock⟩ := System.own_of_announced (s := { s with process := p })
    { s with process := p', loader := .loaded } hend rfl hrun
  simp only [System.step, hmain]
  rcases hblock with ⟨rfl, hsome⟩ | ⟨rfl, hnone, -⟩
  · refine ⟨hready', hindex', hfrees', hgood, rfl, hs.fault,
      Or.inr ⟨⟨rfl, hready', hs.fault, hown.ownedBy hempty, ?_⟩, ?_⟩⟩
    · intro u l hl
      simp only [hs.load] at hl
      cases hl
    · intro u
      by_cases hut : u = t
      · subst hut
        exact iff_of_true hsome rfl
      · refine iff_of_false (not_not_intro ?_) hut
        rw [(hown.frame hempty hut).1, hnobody]
  · exact ⟨hready', hindex', hfrees', hgood, rfl, hs.fault, Or.inl ⟨rfl, hnone⟩⟩

/-- The first notification. -/
private theorem stage_attach (hs : s.Initial)
    (ha : s.Allowed (.notify .DLL_PROCESS_ATTACH t o)) :
    Stage [.notify .DLL_PROCESS_ATTACH t o]
      (s.step ndebug build (.notify .DLL_PROCESS_ATTACH t o)) := by
  by_cases hindex : o.tlsAlloc = TLS_OUT_OF_INDEXES
  · have hrun : DllMain ndebug o t .DLL_PROCESS_ATTACH s.process = .ok false s.process := by
      rw [DllMain, Tls.bind_ok (initialize_fails ndebug hs.tlsIndex hindex)]
      rfl
    simp only [System.step, hrun]
    exact .failed rfl hs.tlsIndex hs.allocated ⟨t, o, List.mem_singleton_self _, hindex⟩
  · obtain ⟨hready, hp, hfrees, hgood, -, hfault, hend⟩ :=
      hs.attach ndebug build ha.2.2.1 hindex
    have hlog : TlsLog [.notify .DLL_PROCESS_ATTACH t o]
        (s.step ndebug build (.notify .DLL_PROCESS_ATTACH t o)).process [] := by
      refine ⟨hgood, hfrees, hready.index, ?_⟩
      intro u q hq
      cases List.mem_singleton.mp hq
      exact hp.symm
    rcases hend with ⟨hloader, hslot⟩ | ⟨howned, -⟩
    · exact .refused hloader hready hslot hfault hlog
    · exact .loaded howned hlog

/-- The last notification, with an index: it is freed. -/
private theorem stage_detach (hready : s.process.Ready) (hfault : s.fault = none)
    (hlive : ∀ ptr, s.process.slot t = some ptr → s.process.heap.Live ptr)
    (hlog : TlsLog ls s.process []) :
    Stage (ls ++ [.notify .DLL_PROCESS_DETACH t o])
      (s.step ndebug build (.notify .DLL_PROCESS_DETACH t o)) := by
  obtain ⟨p, hrelease, hkeeps, -⟩ := release_spec ndebug hready hlive
  have hnoted := hkeeps.noted hready
  have hrun := Tls.bind_ok (STEPMidTls.deinitialize_ready ndebug (hkeeps.ready hready))
    (f := fun _ => pure true)
  have hrun' : DllMain ndebug o t .DLL_PROCESS_DETACH s.process = _ :=
    (Tls.bind_ok hrelease).trans hrun
  have hlog' := hlog.keeps (a := .notify .DLL_PROCESS_DETACH t o) hnoted nofun
  simp only [System.step, hrun']
  refine .gone rfl hfault ⟨hlog'.uses, ?_, hlog'.index, hlog'.attached⟩
  exact congrArg (· ++ [p.tlsIndex]) hlog'.tlsFrees

/-- The last notification, without an index: the index is used all the same. -/
private theorem stage_astray (hindex : s.process.tlsIndex = TLS_OUT_OF_INDEXES)
    (hallocated : s.process.allocated TLS_OUT_OF_INDEXES = false) (hno : NoIndex ls) :
    Stage (ls ++ [.notify .DLL_PROCESS_DETACH t o])
      (s.step ndebug build (.notify .DLL_PROCESS_DETACH t o)) := by
  have hbad : ¬ TlsUse.Good ⟨s.process.tlsIndex, s.process.allocated s.process.tlsIndex⟩ :=
    fun hgood => hgood.1 hindex
  have hno' : NoIndex (ls ++ [.notify .DLL_PROCESS_DETACH t o]) := by
    obtain ⟨u, q, hmem, hq⟩ := hno
    exact ⟨u, q, List.mem_append_left _ hmem, hq⟩
  obtain ⟨p, hmem, hrun | hrun⟩ := DllMain_detach_unset ndebug (o := o) (t := t) hindex
    hallocated
  all_goals
    simp only [System.step, hrun]
    exact .astray rfl hmem hbad hno'

theorem System.detach_loader :
    (s.step ndebug build (.notify .DLL_PROCESS_DETACH t o)).loader = .gone := by
  simp only [System.step]
  cases DllMain ndebug o t .DLL_PROCESS_DETACH s.process
  all_goals rfl

/-- Which actions the loader's progress allows. -/
theorem System.allowed_cases {a : Action} (ha : s.Allowed a) :
    match s.loader with
    | .before => ∃ t o, a = .notify .DLL_PROCESS_ATTACH t o
    | .loaded => (∃ t o, a = .notify .DLL_PROCESS_DETACH t o ∧ s.life t = .running) ∨
        (∀ t o, a ≠ .notify .DLL_PROCESS_ATTACH t o) ∧
          ∀ t o, a ≠ .notify .DLL_PROCESS_DETACH t o
    | .refused t => ∃ o, a = .notify .DLL_PROCESS_DETACH t o
    | .gone => False := by
  cases a with
  | notify r t o =>
    cases r with
    | DLL_PROCESS_ATTACH =>
      rw [ha.2.1]
      exact ⟨t, o, rfl⟩
    | DLL_THREAD_ATTACH | DLL_THREAD_DETACH =>
      rw [ha.2.1]
      exact Or.inr ⟨nofun, nofun⟩
    | DLL_PROCESS_DETACH =>
      rcases ha.2 with hrefused | ⟨hloaded, hrun, -⟩
      · rw [hrefused]
        exact ⟨o, rfl⟩
      · rw [hloaded]
        exact Or.inl ⟨t, o, rfl, hrun⟩
  | loadBegin | loadWrite | loadEnd =>
    rw [ha.2.1]
    exact Or.inr ⟨nofun, nofun⟩

theorem stage_step {a : Action} (h : Stage ls s) (ha : s.Allowed a) :
    Stage (ls ++ [a]) (s.step ndebug build a) := by
  have hcases := System.allowed_cases ha
  cases h with
  | before hs hls =>
    rw [hs.loader] at hcases
    obtain ⟨t, o, rfl⟩ := hcases
    rw [hls]
    exact stage_attach ndebug build hs ha
  | loaded hs hlog =>
    rw [hs.loader] at hcases
    rcases hcases with ⟨t, o, rfl, hrun⟩ | ⟨hfirst, hlast⟩
    · exact stage_detach ndebug build hs.ready hs.fault (fun ptr => hs.slot_live hrun) hlog
    · have hmoves := hs.moves ndebug build ha hlast
      exact .loaded (hmoves.owned hs) (hlog.keeps hmoves.keeps hfirst)
  | refused hloader hready hslot hfault hlog =>
    rw [hloader] at hcases
    obtain ⟨o, rfl⟩ := hcases
    refine stage_detach ndebug build hready hfault ?_ hlog
    intro ptr hptr
    rw [hslot] at hptr
    cases hptr
  | failed hloader hindex hallocated hno =>
    rw [hloader] at hcases
    obtain ⟨o, rfl⟩ := hcases
    exact stage_astray ndebug build hindex hallocated hno
  | gone hloader | astray hloader =>
    rw [hloader] at hcases
    exact hcases.elim

/-- Every run leads through the stages. -/
theorem threads_stage {s₀ : System} (h₀ : s₀.Initial)
    (hrun : (threads ndebug build).Run s₀ ls s) : Stage ls s :=
  hrun.invariant (I := Stage) (.before h₀ rfl) fun _ _ _ => stage_step ndebug build

end

/-! ## The asserts -/

/-- Every use of the index finds it standing for a slot, and the index is freed at the end, once,
if there is one. -/
structure TlsAssertsHold (ls : List Action) (s : System) : Prop where
  uses : ∀ u ∈ s.process.uses, u.Good
  asserts : s.fault ≠ some .assertFailed
  released : s.loader = .gone → ∀ t o, Action.notify .DLL_PROCESS_ATTACH t o ∈ ls →
    s.process.tlsFrees = if o.tlsAlloc = TLS_OUT_OF_INDEXES then [] else [o.tlsAlloc]

private theorem TlsLog.attached_index {ls : List Action} {p : Process} {frees : List DWORD}
    (h : TlsLog ls p frees) : ¬ NoIndex ls := by
  intro ⟨t, o, hmem, ho⟩
  exact h.index (by rw [← h.attached t o hmem, ho])

/-- The asserts hold over every run in which `TlsAlloc` does not fail, and in no other run that
comes to its end. -/
theorem DllMain_asserts (ndebug : Bool) (build : Build) {s₀ s : System} (h₀ : s₀.Initial)
    {ls : List Action} (hrun : (threads ndebug build).Run s₀ ls s) :
    (¬ NoIndex ls → TlsAssertsHold ls s) ∧
      (s.loader = .gone → TlsAssertsHold ls s → ¬ NoIndex ls) := by
  have hnone : ∀ {f : Option Fault}, f = none → f ≠ some .assertFailed := by
    rintro _ rfl
    exact nofun
  cases threads_stage ndebug build h₀ hrun with
  | before hs hls =>
    subst hls
    refine ⟨fun _ => ⟨?_, hnone hs.fault, nofun⟩, nofun⟩
    rw [hs.uses]
    exact nofun
  | loaded hs hlog =>
    refine ⟨fun _ => ⟨hlog.uses, hnone hs.fault, fun hgone => ?_⟩, fun _ _ => hlog.attached_index⟩
    rw [hs.loader] at hgone
    cases hgone
  | refused hloader _ _ hfault hlog =>
    refine ⟨fun _ => ⟨hlog.uses, hnone hfault, fun hgone => ?_⟩, fun _ _ => hlog.attached_index⟩
    rw [hloader] at hgone
    cases hgone
  | failed hloader _ _ hno =>
    refine ⟨fun hindex => absurd hno hindex, fun hgone => ?_⟩
    rw [hloader] at hgone
    cases hgone
  | gone hloader hfault hlog =>
    refine ⟨fun _ => ⟨hlog.uses, hnone hfault, fun _ t o hmem => ?_⟩,
      fun _ _ => hlog.attached_index⟩
    rw [hlog.tlsFrees, hlog.attached t o hmem, if_neg hlog.index]
  | astray _ hmem hbad hno =>
    exact ⟨fun hindex => absurd hno hindex, fun _ hasserts => absurd (hasserts.uses _ hmem) hbad⟩

/-- A process with `n` threads. -/
def freshProcess (n : Nat) : System where
  process :=
    { tlsIndex := TLS_OUT_OF_INDEXES
      allocated := fun _ => false
      value := fun _ _ => none
      heap := .empty
      uses := []
      tlsFrees := [] }
  loader := .before
  life := fun t => if t < n then .running else .unborn
  load := fun _ => none
  fault := none

theorem freshProcess_initial (n : Nat) : (freshProcess n).Initial :=
  ⟨rfl, rfl, rfl, rfl, rfl, rfl, rfl, rfl⟩

/-- Everything is granted. -/
def granted : Outcomes := ⟨5, true, true⟩

/-- There is no index left. -/
def noIndexLeft : Outcomes := ⟨TLS_OUT_OF_INDEXES, true, true⟩

/-- The load and the unload that follows. -/
def loadUnload (o : Outcomes) : List Action :=
  [.notify .DLL_PROCESS_ATTACH 0 o, .notify .DLL_PROCESS_DETACH 0 o]

private theorem loadUnload_noIndexLeft (ndebug : Bool) :
    (threads ndebug .STEP_K).AllowedAlong (freshProcess 1) (loadUnload noIndexLeft) := by
  cases ndebug
  all_goals exact ⟨⟨rfl, rfl, rfl, Or.inl rfl⟩, ⟨rfl, Or.inl rfl⟩, trivial⟩

/-- Without an index, a debug build fails an assert and a release build frees no index at all. -/
theorem DllMain_asserts_noIndexLeft :
    ∃ s s', (threads false .STEP_K).Run (freshProcess 1) (loadUnload noIndexLeft) s ∧
      s.fault = some .assertFailed ∧ ¬ TlsAssertsHold (loadUnload noIndexLeft) s ∧
      (threads true .STEP_K).Run (freshProcess 1) (loadUnload noIndexLeft) s' ∧
      s'.process.tlsFrees = [TLS_OUT_OF_INDEXES] ∧
      ¬ TlsAssertsHold (loadUnload noIndexLeft) s' := by
  refine ⟨_, _, (loadUnload_noIndexLeft false).run, rfl, fun h => h.asserts rfl,
    (loadUnload_noIndexLeft true).run, rfl, fun h => ?_⟩
  exact nomatch h.released rfl 0 noIndexLeft List.mem_cons_self

theorem DllMain_asserts_granted :
    ∃ s, (threads false .STEP_K).Run (freshProcess 1) (loadUnload granted) s ∧
      TlsAssertsHold (loadUnload granted) s := by
  have hallowed : (threads false .STEP_K).AllowedAlong (freshProcess 1) (loadUnload granted) :=
    ⟨⟨rfl, rfl, rfl, Or.inr rfl⟩, ⟨rfl, Or.inr ⟨rfl, rfl, rfl⟩⟩, trivial⟩
  refine ⟨_, hallowed.run,
    (DllMain_asserts false .STEP_K (freshProcess_initial 1) hallowed.run).1 ?_⟩
  intro ⟨t, o, hmem, ho⟩
  simp only [loadUnload, List.mem_cons, Action.notify.injEq, reduceCtorEq, false_and, or_false,
    List.not_mem_nil, true_and] at hmem
  rw [hmem.2] at ho
  exact absurd ho (by decide)

end StepMid
