import StepMid.Tls.StepMidTls

/-!
# The notifications

`DllMain` gives a thread its buffers when the thread is announced and takes them back when it
leaves. The first notification announces the thread that loads the module.
-/

namespace StepMid

inductive Reason
  | DLL_PROCESS_ATTACH
  | DLL_THREAD_ATTACH
  | DLL_THREAD_DETACH
  | DLL_PROCESS_DETACH

section

variable (ndebug : Bool) (o : Outcomes) (t : Thread)

/-- The case `DLL_THREAD_ATTACH`. -/
def announce : Tls Bool := do
  match ← STEPMidTls.get ndebug t with
  | none =>
    match ← STEPMidTls.allocAndSet ndebug o t with
    | none => return false
    | some _ => return true
  | some _ => return true

/-- The lines that both detach cases begin with. -/
def release : Tls Unit := do
  match ← STEPMidTls.get ndebug t with
  | none => return ()
  | some ptr => STEPMidTls.free ptr

def DllMain : Reason → Tls Bool
  | .DLL_PROCESS_ATTACH => do
    if !(← STEPMidTls.initialize ndebug o) then return false
    -- continues to the first thread initialization
    announce ndebug o t
  | .DLL_THREAD_ATTACH => announce ndebug o t
  | .DLL_THREAD_DETACH => do
    release ndebug t
    return true
  | .DLL_PROCESS_DETACH => do
    release ndebug t
    let _ ← STEPMidTls.deinitialize ndebug
    return true

end

variable (ndebug : Bool) {o : Outcomes} {t : Thread} {p : Process}

/-- A thread with a block keeps it; a thread without one gets one, if the system lets it. -/
inductive Announced (o : Outcomes) (t : Thread) (p : Process) : Bool → Process → Prop
  | kept {ptr : Nat} {p' : Process} : p.slot t = some ptr → p'.slot = p.slot →
      p'.heap = p.heap → Announced o t p true p'
  | allocated {p' : Process} : o.localAlloc = true ∧ o.tlsSetValue = true → p.slot t = none →
      p'.slot = Function.update p.slot t (some p.heap.next) → p'.heap = p.heap.alloc .zeroed →
      Announced o t p true p'
  | refused {p' : Process} : ¬ (o.localAlloc = true ∧ o.tlsSetValue = true) → p.slot t = none →
      p'.slot = p.slot → p'.heap.block = p.heap.block → Announced o t p false p'

theorem announce_spec (hp : p.Ready) :
    ∃ ret p', announce ndebug o t p = .ok ret p' ∧ p.Keeps p' ∧ Announced o t p ret p' := by
  have hnoted := (Process.Keeps.refl p).noted hp
  rw [announce, Tls.bind_ok (STEPMidTls.get_ready ndebug t hp)]
  cases hslot : p.slot t with
  | some ptr => exact ⟨true, p.noted, rfl, hnoted, .kept hslot rfl rfl⟩
  | none =>
    have hready := hnoted.ready hp
    have htwice := hnoted.noted hp
    rcases STEPMidTls.allocAndSet_ready ndebug o t hready with
      ⟨halloc, hset, hrun⟩ | ⟨hno, heap, hrun, hblock⟩
    · refine ⟨true, _, Tls.bind_ok hrun, ?_, .allocated ⟨halloc, hset⟩ hslot ?_ rfl⟩
      · exact ⟨htwice.tlsIndex, htwice.allocated, htwice.tlsFrees, htwice.uses⟩
      · rw [Process.setSlot_slot]
        rfl
    · refine ⟨false, _, Tls.bind_ok hrun, ?_, .refused hno hslot rfl hblock⟩
      exact ⟨htwice.tlsIndex, htwice.allocated, htwice.tlsFrees, htwice.uses⟩

/-- The block goes, its address stays in the slot. -/
theorem release_spec (hp : p.Ready) (hlive : ∀ ptr, p.slot t = some ptr → p.heap.Live ptr) :
    ∃ p', release ndebug t p = .ok () p' ∧ p.Keeps p' ∧ p'.slot = p.slot ∧
      (p.slot t = none ∧ p'.heap = p.heap ∨
        ∃ ptr, p.slot t = some ptr ∧ p.heap.free ptr = some p'.heap) := by
  have hnoted := (Process.Keeps.refl p).noted hp
  rw [release, Tls.bind_ok (STEPMidTls.get_ready ndebug t hp)]
  cases hslot : p.slot t with
  | none => exact ⟨p.noted, rfl, hnoted, rfl, Or.inl ⟨rfl, rfl⟩⟩
  | some ptr =>
    obtain ⟨heap, hfree⟩ := Heap.free_some (hlive ptr hslot)
    refine ⟨{ p.noted with heap }, ?_, ?_, rfl, Or.inr ⟨ptr, rfl, hfree⟩⟩
    · simp only [STEPMidTls.free, LocalFree, Process.noted_heap, hfree]
    · exact ⟨hnoted.tlsIndex, hnoted.allocated, hnoted.tlsFrees, hnoted.uses⟩

private theorem assertIndex_unset (hindex : p.tlsIndex = TLS_OUT_OF_INDEXES) :
    assertIndex ndebug (· == TLS_OUT_OF_INDEXES) p = .ok () p := by
  apply if_pos
  rw [Bool.or_eq_true]
  exact Or.inr (beq_iff_eq.mpr hindex)

/-- Without an index, nothing changes. -/
theorem initialize_fails (hindex : p.tlsIndex = TLS_OUT_OF_INDEXES)
    (ho : o.tlsAlloc = TLS_OUT_OF_INDEXES) :
    STEPMidTls.initialize ndebug o p = .ok false p := by
  have halloc : TlsAlloc o p = .ok TLS_OUT_OF_INDEXES p := if_pos ho
  have hset : setTlsIndex TLS_OUT_OF_INDEXES p = .ok () p := by
    rw [setTlsIndex, ← hindex]
  unfold STEPMidTls.initialize
  rw [Tls.bind_ok (assertIndex_unset ndebug hindex), Tls.bind_ok halloc, Tls.bind_ok hset]
  rfl

/-- A new index is the module's, and its slot is null in every thread. -/
theorem initialize_succeeds (hindex : p.tlsIndex = TLS_OUT_OF_INDEXES)
    (ho : o.tlsAlloc ≠ TLS_OUT_OF_INDEXES) :
    ∃ p', STEPMidTls.initialize ndebug o p = .ok true p' ∧ p'.Ready ∧
      p'.tlsIndex = o.tlsAlloc ∧ p'.slot = (fun _ => none) ∧ p'.heap = p.heap ∧
      p'.uses = p.uses ∧ p'.tlsFrees = p.tlsFrees := by
  let p₁ : Process :=
    { p with
      allocated := Function.update p.allocated o.tlsAlloc true
      value := fun u => Function.update (p.value u) o.tlsAlloc none }
  have halloc : TlsAlloc o p = .ok o.tlsAlloc p₁ := if_neg ho
  have hset : setTlsIndex o.tlsAlloc p₁ = .ok () { p₁ with tlsIndex := o.tlsAlloc } := rfl
  have hne : (o.tlsAlloc != TLS_OUT_OF_INDEXES) = true := bne_iff_ne.mpr ho
  refine ⟨{ p₁ with tlsIndex := o.tlsAlloc }, ?_, ⟨ho, Function.update_self ..⟩, rfl, ?_, rfl, rfl,
    rfl⟩
  · unfold STEPMidTls.initialize
    rw [Tls.bind_ok (assertIndex_unset ndebug hindex), Tls.bind_ok halloc, Tls.bind_ok hset, hne]
    rfl
  · funext u
    exact Function.update_self ..

/-- The first notification, without an index. -/
theorem DllMain_attach_unset (hindex : p.tlsIndex = TLS_OUT_OF_INDEXES)
    (ho : o.tlsAlloc = TLS_OUT_OF_INDEXES) :
    DllMain ndebug o t .DLL_PROCESS_ATTACH p = .ok false p := by
  rw [DllMain, Tls.bind_ok (initialize_fails ndebug hindex ho)]
  rfl

/-- The first notification, with an index: the thread is announced where no slot is set yet. -/
theorem DllMain_attach (hindex : p.tlsIndex = TLS_OUT_OF_INDEXES)
    (ho : o.tlsAlloc ≠ TLS_OUT_OF_INDEXES) :
    ∃ p₁ ret p', DllMain ndebug o t .DLL_PROCESS_ATTACH p = .ok ret p' ∧
      p₁.slot = (fun _ => none) ∧ p₁.heap = p.heap ∧ Announced o t p₁ ret p' := by
  obtain ⟨p₁, hinit, hready, -, hslot, hheap, -, -⟩ := initialize_succeeds ndebug hindex ho
  obtain ⟨ret, p', hannounce, -, hend⟩ := announce_spec ndebug (o := o) (t := t) hready
  exact ⟨p₁, ret, p', (Tls.bind_ok hinit).trans hannounce, hslot, hheap, hend⟩

/-- Without an index, the last notification uses the index all the same. -/
theorem DllMain_detach_unset (hindex : p.tlsIndex = TLS_OUT_OF_INDEXES)
    (hallocated : p.allocated TLS_OUT_OF_INDEXES = false) :
    ∃ p', ⟨p.tlsIndex, p.allocated p.tlsIndex⟩ ∈ p'.uses ∧
      (DllMain ndebug o t .DLL_PROCESS_DETACH p = .ok true p' ∨
        DllMain ndebug o t .DLL_PROCESS_DETACH p = .error .assertFailed p') := by
  have hmem : (⟨p.tlsIndex, p.allocated p.tlsIndex⟩ : TlsUse) ∈ p.noted.uses :=
    List.mem_append_right _ (List.mem_singleton_self _)
  cases ndebug with
  | false =>
    have hrelease : release false t p = .error .assertFailed p.noted :=
      Tls.bind_error (STEPMidTls.get_asserts t hindex)
    exact ⟨p.noted, hmem, Or.inr (Tls.bind_error hrelease)⟩
  | true =>
    have hrelease : release true t p = .ok () p.noted :=
      Tls.bind_ok (STEPMidTls.get_unset t hindex hallocated)
    exact ⟨_, List.mem_append_left _ hmem, Or.inl (Tls.bind_ok hrelease)⟩

end StepMid
