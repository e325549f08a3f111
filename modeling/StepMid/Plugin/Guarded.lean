import StepMid.Plugin.Session

/-!
# Sessions that come to their end

A call fails through a pointer that was not looked up, or on a block that is not live. Nothing
else in a session fails.
-/

namespace StepMid

namespace PluginCall

/-- The call goes through pointers that an earlier one looked up. -/
def needs : PluginCall → Bool
  | STEPLoad _ _ _ _ | STEPInitFileSpecificInfo _ => true
  | STEPInit _ _ _ _ | STEPFinalize | STEPSave _ => false

/-- The module that `LoadLibrary` returns. -/
def library : PluginCall → Option HINSTANCE
  | STEPInit _ library _ _ => library
  | STEPFinalize | STEPLoad _ _ _ _ | STEPSave _ | STEPInitFileSpecificInfo _ => none

/-- The block that the call frees. -/
def frees (env : Environment) : PluginCall → Option Nat
  | STEPInitFileSpecificInfo pFileMP3 => env.specific pFileMP3
  | STEPInit _ _ _ _ | STEPFinalize | STEPLoad _ _ _ _ | STEPSave _ => none

end PluginCall

namespace Session

/-- No call needs pointers before a `STEPInit` has succeeded; `looked` tells whether one has. -/
def Guarded : Bool → List PluginCall → Prop
  | _, [] => True
  | looked, c :: cs => (c.needs = true → looked = true) ∧ Guarded (looked || c.library.isSome) cs

/-- The pointers are looked up in modules that the host itself refers to, or not at all. -/
structure Ready (base : HINSTANCE → Nat) (looked : Bool) (s : Session) : Prop where
  refs : ∀ h, base h + (if s.hLib = some h then 1 else 0) ≤ s.refs h
  procs : looked = true → ∀ proc, ∃ h, s.procs proc = some h ∧ 0 < base h
  null : looked = false → ∀ proc, s.procs proc = none

/-- The host refers to the module and exports what the plugin looks up. -/
def Serves (env : Environment) (build : Build) (base : HINSTANCE → Nat) (h : HINSTANCE) : Prop :=
  0 < base h ∧ ∀ proc : HostProc, env.exports h (proc.symbol build) = true

section

variable {env : Environment} {build : Build} {s s' : Session} {base : HINSTANCE → Nat}
  {looked : Bool}

theorem Ready.callable (hs : s.Ready base looked) (proc : HostProc) :
    s.Callable proc ↔ looked = true := by
  constructor
  · rintro ⟨h, hproc, -⟩
    rw [← Bool.not_eq_false]
    intro hlooked
    rw [hs.null hlooked proc] at hproc
    cases hproc
  · intro hlooked
    obtain ⟨h, hproc, hbase⟩ := hs.procs hlooked proc
    have hrefs := hs.refs h
    exact ⟨h, hproc, by omega⟩

/-- Finalize gives back a reference that is not the host's. -/
theorem Ready.finalize (hs : s.Ready base looked) : s.Finalize.Ready base looked := by
  rw [Finalize]
  cases hlib : s.hLib with
  | none => exact hs
  | some h =>
    refine ⟨fun m => ?_, hs.procs, hs.null⟩
    have hm := hs.refs m
    simp only [hlib, Option.some.injEq] at hm
    simp only [reduceCtorEq, if_false, refs_given]
    omega

theorem Ready.step {c : PluginCall} (hs : s.Ready base looked)
    (hserves : ∀ h, c.library = some h → Serves env build base h) (h : Did env build s c s') :
    s'.Ready base (looked || c.library.isSome) := by
  cases h with
  | initFailed =>
    rw [PluginCall.library, Option.isSome_none, Bool.or_false]
    refine ⟨fun m => ?_, hs.procs, hs.null⟩
    have hm := hs.refs m
    simp only [reduceCtorEq, if_false]
    omega
  | @init pID h info nFileType _ =>
    obtain ⟨hbase, hexports⟩ := hserves h rfl
    rw [PluginCall.library, Option.isSome_some, Bool.or_true]
    refine ⟨fun m => ?_, fun _ proc => ⟨h, if_pos (hexports proc), hbase⟩, fun hno => (nomatch hno)⟩
    have hm := hs.refs m
    simp only [Option.some.injEq, refs_taken]
    omega
  | finalize =>
    rw [PluginCall.library, Option.isSome_none, Bool.or_false]
    exact hs.finalize
  | load | save | noInfo | info =>
    rw [PluginCall.library, Option.isSome_none, Bool.or_false]
    exact ⟨hs.refs, hs.procs, hs.null⟩

/-- A call releases its block, and no other one. -/
theorem Did.live {c : PluginCall} (h : Did env build s c s') (p : Nat) :
    s'.heap.Live p ↔ s.heap.Live p ∧ c.frees env ≠ some p := by
  cases h with
  | initFailed | init | load | save => simp [PluginCall.frees]
  | finalize =>
    rw [Finalize]
    cases s.hLib <;> simp [PluginCall.frees]
  | noInfo _ hp => simp [PluginCall.frees, hp]
  | info _ hp hfree =>
    rw [Heap.free_live hfree, PluginCall.frees, hp, and_comm]
    simp [eq_comm]

private theorem free_of_call (env : Environment) {c : PluginCall} (hneeds : c.needs = false)
    (hfrees : c.frees env = none) :
    (c.needs = true → looked = true) ∧ ∀ p, c.frees env = some p → s.heap.Live p := by
  simp [hneeds, hfrees]

/-- A call comes to its end if its pointers are looked up and its block is live. -/
theorem Ready.did_iff {c : PluginCall} (hs : s.Ready base looked)
    (hserves : ∀ h, c.library = some h → Serves env build base h) :
    (∃ s', Did env build s c s') ↔
      (c.needs = true → looked = true) ∧ ∀ p, c.frees env = some p → s.heap.Live p := by
  cases c with
  | STEPInit pID library info nFileType =>
    refine iff_of_true ?_ (free_of_call env rfl rfl)
    cases library with
    | none => exact ⟨_, .initFailed⟩
    | some h => exact ⟨_, .init ((hserves h rfl).2 _)⟩
  | STEPFinalize => exact iff_of_true ⟨_, .finalize⟩ (free_of_call env rfl rfl)
  | STEPLoad pFileMP3 host tls file =>
    constructor
    · rintro ⟨s', hdid⟩
      cases hdid with
      | load _ hpath _ _ => exact ⟨fun _ => (hs.callable _).mp hpath, fun _ hno => nomatch hno⟩
    · rintro ⟨hlooked, -⟩
      have hall (proc : HostProc) : s.Callable proc := (hs.callable proc).mpr (hlooked rfl)
      obtain ⟨r, hr, -⟩ :=
        STEPLoad_spec build host s.nFileTypeMID tls file (s.records pFileMP3)
      exact ⟨_, .load (q := ⟨s.nFileTypeMID, host, tls, file⟩) rfl (hall _) hr fun c _ => hall _⟩
  | STEPSave pFileMP3 => exact iff_of_true ⟨_, .save⟩ (free_of_call env rfl rfl)
  | STEPInitFileSpecificInfo pFileMP3 =>
    constructor
    · rintro ⟨s', hdid⟩
      cases hdid with
      | noInfo hget hp =>
        refine ⟨fun _ => (hs.callable _).mp hget, fun p hsome => ?_⟩
        cases hp.symm.trans hsome
      | @info _ p' heap hget hp hfree =>
        refine ⟨fun _ => (hs.callable _).mp hget, fun p hsome => ?_⟩
        cases hp.symm.trans hsome
        exact Heap.live_of_free hfree
    · rintro ⟨hlooked, hlive⟩
      have hget : s.Callable .STEPGetVoidValue := (hs.callable _).mpr (hlooked rfl)
      cases hp : env.specific pFileMP3 with
      | none => exact ⟨_, .noInfo hget hp⟩
      | some p =>
        obtain ⟨heap, hfree⟩ := Heap.free_some (hlive p hp)
        exact ⟨_, .info hget hp hfree⟩

theorem Fresh.ready (hs : s.Fresh) : s.Ready s.refs false := by
  refine ⟨fun h => ?_, fun hno => (nomatch hno), fun _ => hs.procs⟩
  rw [hs.hLib]
  exact le_rfl

/-- The blocks that a session frees, apart from its first call. -/
private theorem Did.blocks_cons {c : PluginCall} {t : Session} (ht : Did env build s c t)
    (cs : List PluginCall) :
    (((c :: cs).filterMap (PluginCall.frees env)).Nodup ∧
        ∀ p ∈ (c :: cs).filterMap (PluginCall.frees env), s.heap.Live p) ↔
      (∀ p, c.frees env = some p → s.heap.Live p) ∧
        (cs.filterMap (PluginCall.frees env)).Nodup ∧
        ∀ p ∈ cs.filterMap (PluginCall.frees env), t.heap.Live p := by
  simp only [ht.live]
  cases hfrees : c.frees env with
  | none =>
    rw [List.filterMap_cons_none hfrees]
    simp
  | some q =>
    rw [List.filterMap_cons_some hfrees, List.nodup_cons, List.forall_mem_cons]
    constructor
    · rintro ⟨⟨hq, hnodup⟩, hlive, hrest⟩
      refine ⟨fun p hp => ?_, hnodup, fun p hp => ⟨hrest p hp, fun hsame => ?_⟩⟩
      · cases hp
        exact hlive
      · cases hsame
        exact hq hp
    · rintro ⟨hlive, hnodup, hrest⟩
      exact ⟨⟨fun hq => (hrest q hq).2 rfl, hnodup⟩, hlive q rfl, fun p hp => (hrest p hp).1⟩

theorem Ready.run_iff {cs : List PluginCall} (hs : s.Ready base looked)
    (hserves : ∀ c ∈ cs, ∀ h, c.library = some h → Serves env build base h) :
    (∃ s', run env build s cs = .ok s') ↔
      Guarded looked cs ∧ (cs.filterMap (PluginCall.frees env)).Nodup ∧
        ∀ p ∈ cs.filterMap (PluginCall.frees env), s.heap.Live p := by
  induction cs generalizing s looked with
  | nil => simp [run, Guarded]
  | cons c cs ih =>
    obtain ⟨hc, hcs⟩ := List.forall_mem_cons.mp hserves
    have hstep := hs.did_iff hc
    simp only [run_cons_iff, Guarded]
    constructor
    · rintro ⟨s', t, ht, hrun⟩
      obtain ⟨hneeds, hlive⟩ := hstep.mp ⟨t, ht⟩
      obtain ⟨hguard, hrest⟩ := (ih (hs.step hc ht) hcs).mp ⟨s', hrun⟩
      exact ⟨⟨hneeds, hguard⟩, (ht.blocks_cons cs).mpr ⟨hlive, hrest⟩⟩
    · rintro ⟨⟨hneeds, hguard⟩, hblocks⟩
      have hlive : ∀ p, c.frees env = some p → s.heap.Live p := by
        intro p hp
        apply hblocks.2 p
        rw [List.filterMap_cons_some hp]
        exact List.mem_cons_self
      obtain ⟨t, ht⟩ := hstep.mpr ⟨hneeds, hlive⟩
      have hrest := ((ht.blocks_cons cs).mp hblocks).2
      obtain ⟨s', hrun⟩ := (ih (hs.step hc ht) hcs).mpr ⟨hguard, hrest⟩
      exact ⟨s', t, ht, hrun⟩

end

/-- With a host that exports every name and has no blocks, pointers are all that matters. -/
theorem blank_run (build : Build) (cs : List PluginCall) (h : Guarded false cs) :
    ∃ s, run .plain build .blank cs = .ok s := by
  have hnone : cs.filterMap (PluginCall.frees .plain) = [] := by
    rw [List.filterMap_eq_nil_iff]
    intro c _
    cases c <;> rfl
  refine (blank_fresh.ready.run_iff fun _ _ _ _ => ⟨Nat.one_pos, fun _ => rfl⟩).mpr ⟨h, ?_⟩
  rw [hnone]
  exact ⟨List.nodup_nil, List.forall_mem_nil _⟩

end Session

/-- Where the host refers to its module and exports what the plugin looks up, a session comes to its
end exactly if no load and no `STEPInitFileSpecificInfo` come before the first `STEPInit` that
succeeds, and every block that a record points to is freed once at most and was live. A
`STEPFinalize` in between does no harm. -/
theorem session_ends (env : Environment) (build : Build) {s₀ : Session} (hfresh : s₀.Fresh)
    {calls : List PluginCall}
    (hserves : ∀ c ∈ calls, ∀ h, c.library = some h → Session.Serves env build s₀.refs h) :
    (∃ s, Session.run env build s₀ calls = .ok s) ↔
      Session.Guarded false calls ∧ (calls.filterMap (PluginCall.frees env)).Nodup ∧
        ∀ p ∈ calls.filterMap (PluginCall.frees env), s₀.heap.Live p :=
  hfresh.ready.run_iff hserves

/-- A load behind `STEPFinalize`. -/
theorem session_ends_finalized :
    ∃ s, Session.run .plain .STEP_K .blank [.STEPInit 1 (some 0) (.wide []) 5, .STEPFinalize,
      .STEPLoad 3 plainHost (some .zeroed) (some textFile)] = .ok s := by
  refine (session_ends .plain .STEP_K Session.blank_fresh ?_).mpr ⟨?_, ?_, ?_⟩
  · intro c _ h _
    exact ⟨Nat.one_pos, fun _ => rfl⟩
  · simp [Session.Guarded, PluginCall.needs, PluginCall.library]
  · exact List.nodup_nil
  · exact List.forall_mem_nil _

end StepMid
