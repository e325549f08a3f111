import StepMid.Framework.Lts
import StepMid.Tls.DllMain

/-!
# Taking the module up and down

Calls of `STEPMidTls` in any order and on any threads, among them the rounds that a test group goes
through, from its setup to its teardown. `deinitialize` gives the slot back and keeps the index.
-/

namespace StepMid

/-- `TlsFree` of a system that may refuse to take a slot back. -/
def TlsFreeOr (granted : Bool) (index : DWORD) : Tls Bool := fun p =>
  if granted then TlsFree index p else .ok false { p with tlsFrees := p.tlsFrees ++ [index] }

/-- `deinitialize` on such a system. -/
def STEPMidTls.deinitializeOr (ndebug granted : Bool) : Tls Bool := do
  noteUse
  assertIndex ndebug (· != TLS_OUT_OF_INDEXES)
  TlsFreeOr granted (← getTlsIndex)

theorem STEPMidTls.deinitializeOr_granted (ndebug : Bool) :
    STEPMidTls.deinitializeOr ndebug true = STEPMidTls.deinitialize ndebug := rfl

/-- A call, with the outcomes of the system's calls in it. -/
inductive TlsCall
  | initializeCall (o : Outcomes)
  | allocAndSetCall (t : Thread) (o : Outcomes)
  | getCall (t : Thread)
  | freeCall (ptr : Nat)
  | deinitializeCall (granted : Bool)

namespace TlsCall

def body (ndebug : Bool) : TlsCall → Tls Unit
  | .initializeCall o => do let _ ← STEPMidTls.initialize ndebug o
  | .allocAndSetCall t o => do let _ ← STEPMidTls.allocAndSet ndebug o t
  | .getCall t => do let _ ← STEPMidTls.get ndebug t
  | .freeCall ptr => STEPMidTls.free ptr
  | .deinitializeCall granted => do let _ ← STEPMidTls.deinitializeOr ndebug granted

/-- The call gets a slot. -/
def Allocates : TlsCall → Prop
  | .initializeCall o => o.tlsAlloc ≠ TLS_OUT_OF_INDEXES
  | _ => False

/-- The call asks for a slot, or gives one back. -/
def Alters : TlsCall → Prop
  | .initializeCall _ => True
  | .deinitializeCall granted => granted = true
  | _ => False

end TlsCall

/-- The process that a call leaves, whether it comes back or not. -/
def lastOf {α : Type} : EStateM.Result Fault Process α → Process
  | .ok _ p => p
  | .error _ p => p

def cameBack {α : Type} : EStateM.Result Fault Process α → Bool
  | .ok _ _ => true
  | .error _ _ => false

/-- The process, and whether it still runs: a call that does not come back stops it. -/
structure TlsState where
  process : Process
  running : Bool

/-- Calls one after the other. `TlsAlloc` does not hand out a slot twice. -/
def tlsCalls (ndebug : Bool) : Lts TlsState TlsCall where
  Allowed s c := s.running = true ∧
    ∀ o, c = .initializeCall o → s.process.allocated o.tlsAlloc = true →
      o.tlsAlloc = TLS_OUT_OF_INDEXES
  step s c := ⟨lastOf (c.body ndebug s.process), cameBack (c.body ndebug s.process)⟩

namespace Process

/-- Before the first round: no index, and no slot that the module got. -/
structure Unset (p : Process) : Prop where
  tlsIndex : p.tlsIndex = TLS_OUT_OF_INDEXES
  allocated : ∀ index, p.allocated index = false

/-- The index is set exactly when it is that of a slot the module holds. -/
def Represents (p : Process) : Prop :=
  p.tlsIndex ≠ TLS_OUT_OF_INDEXES ↔ p.allocated p.tlsIndex = true

/-- No call used an index whose slot had been given back. -/
def NoStaleUse (p : Process) : Prop :=
  ∀ u ∈ p.uses, u.index = TLS_OUT_OF_INDEXES ∨ u.allocated = true

end Process

/-- The module can be taken up and down: in every state that the calls reach, its index stands for
its slot, no call used a slot given back, and the assert at the head of `initialize` holds. -/
def UpAndDown (ndebug : Bool) : TlsState → List TlsCall → Prop :=
  (tlsCalls ndebug).HoldsAlong (fun s => s.process.Represents ∧ s.process.NoStaleUse)
    fun s c => ∀ o, c = .initializeCall o → s.process.tlsIndex = TLS_OUT_OF_INDEXES

/-- Behind a call that gets a slot, none asks for one or gives one back. -/
def NeverAgain (cs : List TlsCall) : Prop := cs.Pairwise fun c d => c.Allocates → ¬ d.Alters

theorem NeverAgain.of_prefix {cs ks : List TlsCall} (h : NeverAgain cs) (hks : ks <+: cs) :
    NeverAgain ks := h.sublist hks.sublist

theorem neverAgain_behind {c : TlsCall} {cs : List TlsCall} (hc : c.Allocates) :
    NeverAgain (c :: cs) ↔ ∀ d ∈ cs, ¬ d.Alters := by
  rw [NeverAgain, List.pairwise_cons]
  constructor
  · intro h d hd
    exact h.1 d hd hc
  · intro h
    exact ⟨fun d hd _ => h d hd, List.pairwise_of_forall_mem_list fun _ _ e he _ => h e he⟩

theorem neverAgain_skip {c : TlsCall} {cs : List TlsCall} (hc : ¬ c.Allocates) :
    NeverAgain (c :: cs) ↔ NeverAgain cs := by
  rw [NeverAgain, NeverAgain, List.pairwise_cons]
  exact and_iff_right fun _ _ hcd => absurd hcd hc

instance : DecidablePred TlsCall.Allocates
  | .initializeCall _ => inferInstanceAs (Decidable (_ ≠ _))
  | .allocAndSetCall _ _ | .getCall _ | .freeCall _ | .deinitializeCall _ => isFalse id

instance : DecidablePred TlsCall.Alters
  | .initializeCall _ => isTrue trivial
  | .deinitializeCall _ => inferInstanceAs (Decidable (_ = _))
  | .allocAndSetCall _ _ | .getCall _ | .freeCall _ => isFalse id

instance (cs : List TlsCall) : Decidable (NeverAgain cs) :=
  inferInstanceAs (Decidable (cs.Pairwise _))

/-! ## Calls that leave index and slots alone -/

/-- Index and slots as before, and any uses noted are uses of this index. -/
structure Process.Touches (p p' : Process) : Prop where
  tlsIndex : p'.tlsIndex = p.tlsIndex
  allocated : p'.allocated = p.allocated
  uses : ∃ us, p'.uses = p.uses ++ us ∧
    ∀ u ∈ us, u = ⟨p.tlsIndex, p.allocated p.tlsIndex⟩

namespace Process.Touches

theorem same {p p' : Process} (hindex : p'.tlsIndex = p.tlsIndex)
    (hallocated : p'.allocated = p.allocated) (huses : p'.uses = p.uses) : p.Touches p' :=
  ⟨hindex, hallocated, [], by rw [huses, List.append_nil], by simp⟩

theorem refl (p : Process) : p.Touches p := same rfl rfl rfl

theorem trans {p p' p'' : Process} (h : p.Touches p') (h' : p'.Touches p'') : p.Touches p'' := by
  obtain ⟨us, hus, hall⟩ := h.uses
  obtain ⟨us', hus', hall'⟩ := h'.uses
  rw [h.tlsIndex, h.allocated] at hall'
  refine ⟨h'.tlsIndex.trans h.tlsIndex, h'.allocated.trans h.allocated, us ++ us', ?_, ?_⟩
  · rw [hus', hus, List.append_assoc]
  · intro u hu
    exact (List.mem_append.mp hu).elim (hall u) (hall' u)

variable {p p' : Process}

theorem noStaleUse (h : p.Touches p') (hp : p.NoStaleUse)
    (hrep : p.tlsIndex = TLS_OUT_OF_INDEXES ∨ p.allocated p.tlsIndex = true) :
    p'.NoStaleUse := by
  obtain ⟨us, hus, hall⟩ := h.uses
  intro u hu
  rw [hus] at hu
  rcases List.mem_append.mp hu with hu | hu
  · exact hp u hu
  · rw [hall u hu]
    exact hrep

theorem unset (h : p.Touches p') (hp : p.Unset) : p'.Unset := by
  refine ⟨h.tlsIndex.trans hp.tlsIndex, fun index => ?_⟩
  rw [h.allocated]
  exact hp.allocated index

theorem ready (h : p.Touches p') (hp : p.Ready) : p'.Ready := by
  constructor
  · rw [h.tlsIndex]
    exact hp.index
  · rw [h.tlsIndex, h.allocated]
    exact hp.allocated

end Process.Touches

/-- Whether it comes back or not, `x` leaves index and slots alone. -/
def Tls.Gentle {α : Type} (x : Tls α) : Prop := ∀ p : Process, p.Touches (lastOf (x p))

namespace Tls.Gentle

variable {α β : Type}

theorem bind {x : Tls α} {f : α → Tls β} (hx : Gentle x) (hf : ∀ a, Gentle (f a)) :
    Gentle (x >>= f) := by
  intro p
  have hxp := hx p
  cases hrun : x p with
  | ok a p' =>
    rw [hrun] at hxp
    rw [Tls.bind_ok hrun]
    exact hxp.trans (hf a p')
  | error e p' =>
    rw [hrun] at hxp
    rw [Tls.bind_error hrun]
    exact hxp

theorem pure (a : α) : Gentle (Pure.pure a : Tls α) := fun p => .refl p

private theorem noteUse : Gentle noteUse := fun _ => ⟨rfl, rfl, _, rfl, by simp⟩

private theorem assertIndex (ndebug : Bool) (c : DWORD → Bool) :
    Gentle (assertIndex ndebug c) := by
  intro p
  rw [StepMid.assertIndex]
  split <;> exact .refl p

private theorem getTlsIndex : Gentle getTlsIndex := fun p => .refl p

private theorem localAlloc (o : Outcomes) : Gentle (LocalAlloc o) := by
  intro p
  rw [LocalAlloc]
  split <;> exact .same rfl rfl rfl

theorem localFree (ptr : Nat) : Gentle (LocalFree ptr) := by
  intro p
  rw [LocalFree]
  split <;> exact .same rfl rfl rfl

private theorem tlsSetValue (o : Outcomes) (t : Thread) (index : DWORD) (ptr : Nat) :
    Gentle (TlsSetValue o t index ptr) := by
  intro p
  rw [TlsSetValue]
  split <;> exact .same rfl rfl rfl

theorem get (ndebug : Bool) (t : Thread) : Gentle (STEPMidTls.get ndebug t) :=
  noteUse.bind fun _ => (assertIndex ndebug _).bind fun _ => getTlsIndex.bind fun _ => fun p =>
    .refl p

theorem allocAndSet (ndebug : Bool) (o : Outcomes) (t : Thread) :
    Gentle (STEPMidTls.allocAndSet ndebug o t) := by
  refine noteUse.bind fun _ => (assertIndex ndebug _).bind fun _ => (localAlloc o).bind ?_
  intro ptr
  cases ptr with
  | none => exact pure none
  | some ptr =>
    refine getTlsIndex.bind fun index => (tlsSetValue o t index ptr).bind fun tlsSetResult => ?_
    cases tlsSetResult with
    | true => exact pure (some ptr)
    | false => exact (localFree ptr).bind fun _ => pure none

theorem deinitialize_refused (ndebug : Bool) :
    Gentle (STEPMidTls.deinitializeOr ndebug false) :=
  noteUse.bind fun _ => (assertIndex ndebug _).bind fun _ => getTlsIndex.bind fun _ => fun _ =>
    .same rfl rfl rfl

end Tls.Gentle

/-- All calls but those that ask for a slot or give one back leave index and slots alone. -/
theorem TlsCall.gentle (ndebug : Bool) {c : TlsCall} (hc : ¬ c.Alters) :
    (c.body ndebug).Gentle := by
  cases c with
  | initializeCall o => exact absurd trivial hc
  | allocAndSetCall t o => exact (Tls.Gentle.allocAndSet ndebug o t).bind fun _ => .pure ()
  | getCall t => exact (Tls.Gentle.get ndebug t).bind fun _ => .pure ()
  | freeCall ptr => exact .localFree ptr
  | deinitializeCall granted =>
    cases granted with
    | true => exact absurd rfl hc
    | false => exact (Tls.Gentle.deinitialize_refused ndebug).bind fun _ => .pure ()

/-! ## Steps -/

section

variable {ndebug : Bool} {s : TlsState} {c : TlsCall}

private theorem lastOf_bind {α : Type} (x : Tls α) (p : Process) :
    lastOf ((x >>= fun _ => pure ()) p) = lastOf (x p) := by
  cases hrun : x p with
  | ok a p' =>
    rw [Tls.bind_ok hrun]
    rfl
  | error e p' =>
    rw [Tls.bind_error hrun]
    rfl

private theorem Process.Unset.represents {p : Process} (h : p.Unset) : p.Represents :=
  iff_of_false (not_not_intro h.tlsIndex) (by rw [h.allocated]; exact Bool.false_ne_true)

private theorem Process.Ready.represents {p : Process} (h : p.Ready) : p.Represents :=
  iff_of_true h.index h.allocated

private theorem Process.noted_touches (p : Process) : p.Touches p.noted :=
  ⟨rfl, rfl, _, rfl, by simp⟩

/-- Without an index, `deinitialize` stops at its assert or is refused. -/
private theorem unset_deinitialize {p : Process} (hp : p.Unset) :
    p.Touches (lastOf (STEPMidTls.deinitialize ndebug p)) := by
  have hnote : noteUse p = .ok () p.noted := rfl
  have hindex : (p.noted.tlsIndex != TLS_OUT_OF_INDEXES) = false := by
    rw [bne_eq_false_iff_eq]
    exact hp.tlsIndex
  rw [STEPMidTls.deinitialize, Tls.bind_ok hnote]
  cases ndebug with
  | false =>
    have hassert : assertIndex false (· != TLS_OUT_OF_INDEXES) p.noted =
        .error .assertFailed p.noted :=
      if_neg (by rw [Bool.false_or]; exact Bool.eq_false_iff.mp hindex)
    rw [Tls.bind_error hassert]
    exact p.noted_touches
  | true =>
    have hassert : assertIndex true (· != TLS_OUT_OF_INDEXES) p.noted = .ok () p.noted := rfl
    have hsame : Function.update p.allocated p.tlsIndex false = p.allocated := by
      rw [← hp.allocated p.tlsIndex, Function.update_eq_self]
    rw [Tls.bind_ok hassert]
    exact p.noted_touches.trans (.same rfl hsame rfl)

/-- Without an index, a call gets one or leaves the module without. -/
private theorem unset_step (ndebug : Bool) (c : TlsCall) (hs : s.process.Unset)
    (hstale : s.process.NoStaleUse) :
    ((tlsCalls ndebug).step s c).process.NoStaleUse ∧
      (c.Allocates ∧ ((tlsCalls ndebug).step s c).process.Ready ∨
        ¬ c.Allocates ∧ ((tlsCalls ndebug).step s c).process.Unset) := by
  have hgentle (hc : ¬ c.Allocates) (htouch : s.process.Touches
      ((tlsCalls ndebug).step s c).process) :
      ((tlsCalls ndebug).step s c).process.NoStaleUse ∧
        (c.Allocates ∧ ((tlsCalls ndebug).step s c).process.Ready ∨
          ¬ c.Allocates ∧ ((tlsCalls ndebug).step s c).process.Unset) :=
    ⟨htouch.noStaleUse hstale (Or.inl hs.tlsIndex), Or.inr ⟨hc, htouch.unset hs⟩⟩
  cases c with
  | initializeCall o =>
    have hlast {r : EStateM.Result Fault Process Bool}
        (hrun : STEPMidTls.initialize ndebug o s.process = r) :
        ((tlsCalls ndebug).step s (.initializeCall o)).process = lastOf r := by
      rw [← hrun]
      exact lastOf_bind _ _
    by_cases ho : o.tlsAlloc = TLS_OUT_OF_INDEXES
    · apply hgentle (not_not_intro ho)
      rw [hlast (initialize_fails ndebug hs.tlsIndex ho)]
      exact .refl _
    · obtain ⟨p, hrun, hready, -, -, -, huses, -⟩ := initialize_succeeds ndebug hs.tlsIndex ho
      rw [hlast hrun]
      refine ⟨?_, Or.inl ⟨ho, hready⟩⟩
      rw [Process.NoStaleUse, lastOf, huses]
      exact hstale
  | deinitializeCall granted =>
    apply hgentle nofun
    cases granted with
    | false =>
      exact TlsCall.gentle ndebug (c := .deinitializeCall false) Bool.false_ne_true s.process
    | true =>
      have hlast : ((tlsCalls ndebug).step s (.deinitializeCall true)).process =
          lastOf (STEPMidTls.deinitialize ndebug s.process) := lastOf_bind _ _
      rw [hlast]
      exact unset_deinitialize hs
  | allocAndSetCall | getCall | freeCall =>
    exact hgentle id (TlsCall.gentle ndebug id s.process)

/-- With an index, only the calls named change anything. -/
private theorem ready_step (ndebug : Bool) (hs : s.process.Ready)
    (hstale : s.process.NoStaleUse) (hc : ¬ c.Alters) :
    ((tlsCalls ndebug).step s c).process.NoStaleUse ∧
      ((tlsCalls ndebug).step s c).process.Ready := by
  have htouch := TlsCall.gentle ndebug hc s.process
  exact ⟨htouch.noStaleUse hstale (Or.inr hs.allocated), htouch.ready hs⟩

/-- `deinitialize` gives the slot back and keeps its index. -/
private theorem ready_deinitialize (hs : s.process.Ready) :
    ¬ ((tlsCalls ndebug).step s (.deinitializeCall true)).process.Represents := by
  have hlast : ((tlsCalls ndebug).step s (.deinitializeCall true)).process =
      lastOf (STEPMidTls.deinitialize ndebug s.process) := lastOf_bind _ _
  rw [hlast, STEPMidTls.deinitialize_ready ndebug hs]
  intro hrep
  have hheld : Function.update s.process.allocated s.process.tlsIndex false s.process.tlsIndex =
      true := hrep.mp hs.index
  rw [Function.update_self] at hheld
  cases hheld

end

/-! ## Runs -/

private theorem ready_along {ndebug : Bool} {s : TlsState} (hs : s.process.Ready)
    (hstale : s.process.NoStaleUse) {cs : List TlsCall} :
    UpAndDown ndebug s cs ↔
      (tlsCalls ndebug).RunsAlong (fun ks => ∀ c ∈ ks, ¬ c.Alters) s cs := by
  induction cs generalizing s with
  | nil => exact iff_of_true ⟨hs.represents, hstale⟩ (Lts.runsAlong_nil.mpr nofun)
  | cons c cs ih =>
    rw [Lts.runsAlong_cons, UpAndDown, Lts.HoldsAlong]
    refine and_congr (iff_of_true ⟨hs.represents, hstale⟩ nofun) (imp_congr_right fun _ => ?_)
    by_cases hc : c.Alters
    · refine iff_of_false ?_ fun h => ?_
      · rintro ⟨hassert, hrest⟩
        cases c with
        | initializeCall o => exact hs.index (hassert o rfl)
        | deinitializeCall granted =>
          obtain rfl : granted = true := hc
          exact ready_deinitialize hs hrest.head.1
        | allocAndSetCall | getCall | freeCall => exact hc
      · exact h [] List.nil_prefix trivial c List.mem_cons_self hc
    · obtain ⟨hstale', hs'⟩ := ready_step ndebug hs hstale hc
      have hassert : ∀ o, c = .initializeCall o → s.process.tlsIndex = TLS_OUT_OF_INDEXES := by
        rintro o rfl
        exact absurd trivial hc
      refine (and_iff_right hassert).trans ?_
      refine (ih hs' hstale').trans (Lts.runsAlong_congr fun ks => ?_)
      rw [List.forall_mem_cons]
      exact (and_iff_right hc).symm

/-- The module can be taken up and down exactly when, among the calls that are made, the first slot
that it gets is the last it asks for and is never given back. -/
theorem upAndDown_iff (ndebug : Bool) {s : TlsState} (hs : s.process.Unset)
    (hstale : s.process.NoStaleUse) (cs : List TlsCall) :
    UpAndDown ndebug s cs ↔ (tlsCalls ndebug).RunsAlong NeverAgain s cs := by
  induction cs generalizing s with
  | nil =>
    exact iff_of_true ⟨hs.represents, hstale⟩ (Lts.runsAlong_nil.mpr List.Pairwise.nil)
  | cons c cs ih =>
    obtain ⟨hstale', hstep⟩ := unset_step ndebug c hs hstale
    rw [Lts.runsAlong_cons, UpAndDown, Lts.HoldsAlong]
    refine and_congr (iff_of_true ⟨hs.represents, hstale⟩ List.Pairwise.nil)
      (imp_congr_right fun _ => ?_)
    refine (and_iff_right fun _ _ => hs.tlsIndex).trans ?_
    rcases hstep with ⟨hc, hs'⟩ | ⟨hc, hs'⟩
    · refine (ready_along hs' hstale').trans ?_
      exact Lts.runsAlong_congr fun ks => (neverAgain_behind hc).symm
    · exact (ih hs' hstale').trans (Lts.runsAlong_congr fun ks => (neverAgain_skip hc).symm)

/-- A process in which the module is not in use. -/
def freshModule : TlsState where
  process := ⟨TLS_OUT_OF_INDEXES, fun _ => false, fun _ _ => none, .empty, [], []⟩
  running := true

theorem freshModule_noStaleUse : freshModule.process.NoStaleUse := by
  intro u hu
  cases hu

/-- One round of the test group's setup and teardown, in which nothing fails. -/
def fixtureRound : List TlsCall :=
  [.initializeCall ⟨5, true, true⟩, .allocAndSetCall 0 ⟨5, true, true⟩, .getCall 0, .freeCall 0,
    .deinitializeCall true]

/-- A round without a slot, and a second one whose slot is not taken back. -/
theorem upAndDown_refused :
    UpAndDown true freshModule
      [.initializeCall ⟨TLS_OUT_OF_INDEXES, true, true⟩, .deinitializeCall true,
        .initializeCall ⟨5, true, true⟩, .allocAndSetCall 0 ⟨5, true, true⟩, .getCall 0,
        .freeCall 0, .deinitializeCall false] :=
  (upAndDown_iff true ⟨rfl, fun _ => rfl⟩ freshModule_noStaleUse _).mpr fun _ hks _ =>
    NeverAgain.of_prefix (by decide) hks

/-- Behind one round the index is that of a slot given back, and the next round fails its
assert. -/
theorem upAndDown_fixture :
    (tlsCalls false).AllowedAlong freshModule fixtureRound ∧
      ¬ UpAndDown false freshModule (fixtureRound ++ fixtureRound) ∧
      let s := (tlsCalls false).exec freshModule fixtureRound
      s.running = true ∧ s.process.tlsIndex ≠ TLS_OUT_OF_INDEXES ∧
        s.process.allocated s.process.tlsIndex = false ∧
        STEPMidTls.initialize false ⟨6, true, true⟩ s.process =
          .error .assertFailed s.process := by
  have hmade : (tlsCalls false).AllowedAlong freshModule fixtureRound := by
    refine ⟨⟨rfl, ?_⟩, ⟨rfl, nofun⟩, ⟨rfl, nofun⟩, ⟨rfl, nofun⟩, ⟨rfl, nofun⟩, trivial⟩
    rintro o - hheld
    cases hheld
  refine ⟨hmade, ?_, rfl, by decide, rfl, rfl⟩
  intro h
  exact absurd ((h.behind hmade).head.1.mp (by decide)) (by decide)

end StepMid
