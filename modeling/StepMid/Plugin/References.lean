import StepMid.Plugin.Session

/-!
# References to the host's module

`Initialize` takes a reference to the host's module and `Finalize` gives it back, so a session as a
whole should leave the reference counts as they were.
-/

namespace StepMid

namespace PluginCall

/-- The module held behind a call. -/
def held (library : Option HINSTANCE) : PluginCall → Option HINSTANCE
  | STEPInit _ library _ _ => library
  | STEPFinalize => none
  | STEPLoad _ _ _ _ | STEPSave _ | STEPInitFileSpecificInfo _ => library

/-- A `STEPInit` forgets the module that is held, and the reference with it. -/
def lost (library : Option HINSTANCE) (h : HINSTANCE) : PluginCall → Nat
  | STEPInit _ _ _ _ => if library = some h then 1 else 0
  | STEPFinalize | STEPLoad _ _ _ _ | STEPSave _ | STEPInitFileSpecificInfo _ => 0

end PluginCall

namespace Session

def held : Option HINSTANCE → List PluginCall → Option HINSTANCE
  | library, [] => library
  | library, c :: cs => held (c.held library) cs

/-- How many references to `h` a session forgets. -/
def lost (h : HINSTANCE) : Option HINSTANCE → List PluginCall → Nat
  | _, [] => 0
  | library, c :: cs => c.lost library h + lost h (c.held library) cs

/-- What is referenced beyond the references of the host and the forgotten ones is held. -/
def Balanced (base forgotten : HINSTANCE → Nat) (s : Session) : Prop :=
  ∀ h, s.refs h = base h + forgotten h + if s.hLib = some h then 1 else 0

section

variable {env : Environment} {build : Build} {s s' : Session} {base forgotten : HINSTANCE → Nat}

theorem Did.held {c : PluginCall} (h : Did env build s c s') : s'.hLib = c.held s.hLib := by
  cases h with
  | finalize =>
    rw [Finalize]
    cases hlib : s.hLib with
    | none => exact hlib
    | some m => rfl
  | initFailed | init | load | save | noInfo | info => rfl

theorem Balanced.step {c : PluginCall} (hs : s.Balanced base forgotten)
    (h : Did env build s c s') :
    s'.Balanced base fun m => forgotten m + c.lost s.hLib m := by
  intro m
  have hm := hs m
  cases h with
  | initFailed =>
    simp only [PluginCall.lost, reduceCtorEq, if_false]
    omega
  | @init pID h info nFileType _ =>
    simp only [PluginCall.lost, Option.some.injEq, refs_taken]
    omega
  | finalize =>
    rw [Finalize]
    cases hlib : s.hLib with
    | none =>
      simpa [hlib, PluginCall.lost] using hm
    | some h =>
      simp only [hlib, Option.some.injEq] at hm
      simp only [PluginCall.lost, reduceCtorEq, if_false, refs_given]
      omega
  | load | save | noInfo | info => exact hm

theorem Balanced.run {cs : List PluginCall} (hs : s.Balanced base forgotten)
    (h : run env build s cs = .ok s') :
    s'.hLib = held s.hLib cs ∧ s'.Balanced base fun m => forgotten m + lost m s.hLib cs := by
  induction cs generalizing s forgotten with
  | nil =>
    cases h
    exact ⟨rfl, hs⟩
  | cons c cs ih =>
    obtain ⟨t, ht, hrest⟩ := run_cons_iff.mp h
    obtain ⟨hlib, hbalanced⟩ := ih (hs.step ht) hrest
    rw [ht.held] at hlib hbalanced
    refine ⟨hlib, fun m => ?_⟩
    have hm := hbalanced m
    simp only [lost] at hm ⊢
    omega

end

end Session

/-- A session holds at most one reference to the host's module and gives back no reference that is
not its own; it forgets one with every `STEPInit` while one is held. So it leaves the counts as
they were exactly if it ends without a module and no `STEPInit` came while one was held. -/
theorem session_references (env : Environment) (build : Build) {s₀ s : Session}
    (hfresh : s₀.Fresh) {calls : List PluginCall} (h : Session.run env build s₀ calls = .ok s) :
    s.hLib = Session.held none calls ∧
      (∀ m, s.refs m =
        s₀.refs m + Session.lost m none calls + if s.hLib = some m then 1 else 0) ∧
      (s.refs = s₀.refs ↔ s.hLib = none ∧ ∀ m, Session.lost m none calls = 0) := by
  have hstart : s₀.Balanced s₀.refs fun _ => 0 := by
    intro m
    simp [hfresh.hLib]
  obtain ⟨hlib, hbalanced⟩ := hstart.run h
  rw [hfresh.hLib] at hlib hbalanced
  have hrefs : ∀ m, s.refs m =
      s₀.refs m + Session.lost m none calls + if s.hLib = some m then 1 else 0 := by
    intro m
    have hm := hbalanced m
    simp only [Nat.zero_add] at hm
    exact hm
  refine ⟨hlib, hrefs, ?_, ?_⟩
  · intro hsame
    constructor
    · by_contra hne
      obtain ⟨m, hm⟩ := Option.ne_none_iff_exists'.mp hne
      have := hrefs m
      rw [hsame, if_pos hm] at this
      omega
    · intro m
      have := hrefs m
      rw [hsame] at this
      omega
  · rintro ⟨hnone, hlost⟩
    funext m
    rw [hrefs m, hlost m, hnone]
    rfl

/-- The second `STEPInit` forgets the reference of the first. -/
theorem session_references_twice :
    ∃ s, Session.run .plain .STEP_K .blank
        [.STEPInit 1 (some 0) (.wide []) 5, .STEPInit 1 (some 0) (.wide []) 6, .STEPFinalize] =
          .ok s ∧
      s.hLib = none ∧ s.refs 0 = 2 := by
  obtain ⟨s, h⟩ : ∃ s, Session.run .plain .STEP_K .blank
      [.STEPInit 1 (some 0) (.wide []) 5, .STEPInit 1 (some 0) (.wide []) 6, .STEPFinalize] =
        .ok s := ⟨_, rfl⟩
  obtain ⟨hlib, hrefs, -⟩ := session_references .plain .STEP_K Session.blank_fresh h
  refine ⟨s, h, hlib, ?_⟩
  rw [hrefs 0, hlib]
  rfl

end StepMid
