import StepMid.Tls.Loader

/-!
# Each thread has its own buffers

While the module is loaded, the blocks of `allocAndSet` are owned by the running threads, each
through its slot. Every action is a step of one owner, so the others keep their blocks and the
contents of these.
-/

namespace StepMid

/-- A load finds its thread's block, if there is one, and changes nothing. -/
theorem beginLoad_spec (ndebug : Bool) (build : Build) (host : Host) {t : Thread}
    (file : Option (List UInt8)) {p : Process} (hp : p.Ready)
    (hlive : ∀ ptr, p.slot t = some ptr → p.heap.Live ptr) :
    ∃ load p', beginLoad ndebug build host t file p = .ok load p' ∧ p.Keeps p' ∧
      p'.slot = p.slot ∧ p'.heap = p.heap ∧ ∀ l, load = some l → p.slot t = some l.block := by
  have hrefl := Process.Keeps.refl p
  cases file with
  | none => exact ⟨none, p, rfl, hrefl, rfl, rfl, nofun⟩
  | some F =>
    by_cases hscan : (findMetaEvents host.past F .start zeroedEvents).ret = 0
    · have hget := STEPMidTls.get_ready ndebug t hp
      simp only [beginLoad, hscan, if_true]
      rw [Tls.bind_ok hget]
      cases hslot : p.slot t with
      | none => exact ⟨none, p.noted, rfl, hrefl.noted hp, rfl, rfl, nofun⟩
      | some ptr =>
        obtain ⟨data, hdata⟩ := (hlive ptr hslot).exists_block
        have hderef : deref ptr p.noted = .ok data p.noted := by
          simp only [deref, Process.noted_heap, hdata]
        obtain ⟨r, hr, -⟩ := readMetaEvent_spec build host (scanEvents_readable hscan) data
          (findMetaEvents host.past F .start zeroedEvents).fp
        rw [scanEvents] at hr
        refine ⟨some ⟨ptr, r.writes⟩, p.noted, ?_, hrefl.noted hp, rfl, rfl, ?_⟩
        · simp only
          rw [Tls.bind_ok hderef, hr]
          rfl
        · rintro l ⟨⟩
          rfl
    · refine ⟨none, p, ?_, hrefl, rfl, rfl, nofun⟩
      simp only [beginLoad, hscan, if_false]
      rfl

/-- The running threads own the blocks, and a load works on its thread's. -/
structure System.Owned (s : System) : Prop where
  loader : s.loader = .loaded
  ready : s.process.Ready
  fault : s.fault = none
  heap : s.process.heap.OwnedBy s.held
  load : ∀ t l, s.load t = some l → s.held t = some l.block

/-- An action of `t` while the module is loaded. -/
structure System.Moves (t : Thread) (s s' : System) : Prop where
  loader : s'.loader = .loaded
  fault : s'.fault = none
  life : ∀ u, u ≠ t → s'.life u = s.life u
  keeps : s.process.Keeps s'.process
  own : Heap.OwnStep t s.process.heap s.held s'.process.heap s'.held
  load : ∀ u l, s'.load u = some l → s'.held u = some l.block

theorem System.Moves.owned {t : Thread} {s s' : System} (h : System.Moves t s s') (hs : s.Owned) :
    s'.Owned :=
  ⟨h.loader, h.keeps.ready hs.ready, h.fault, h.own.ownedBy hs.heap, h.load⟩

namespace System

variable (ndebug : Bool) (build : Build) {s : System} {t : Thread} {o : Outcomes}

theorem Owned.slot_live (hs : s.Owned) (ht : s.life t = .running) {ptr : Nat}
    (hptr : s.process.slot t = some ptr) : s.process.heap.Live ptr :=
  hs.heap.live (by rw [held_running ht, hptr])

/-- A thread with no load under way leaves the other threads' loads alone. -/
private theorem Owned.moves_idle {s' : System} (hs : s.Owned) (hidle : s.load t = none)
    (hload : s'.load = s.load) (hloader : s'.loader = s.loader) (hfault : s'.fault = s.fault)
    (hlife : ∀ u, u ≠ t → s'.life u = s.life u) (hkeeps : s.process.Keeps s'.process)
    (hown : Heap.OwnStep t s.process.heap s.held s'.process.heap s'.held) : Moves t s s' where
  loader := hloader.trans hs.loader
  fault := hfault.trans hs.fault
  life := hlife
  keeps := hkeeps
  own := hown
  load u l hl := by
    rw [hload] at hl
    have hut : u ≠ t := by
      intro hut
      subst hut
      rw [hidle] at hl
      cases hl
    rw [(hown.frame hs.heap hut).1]
    exact hs.load u l hl

/-- An announcement is a step of the announced thread, which holds a block afterwards unless the
system refused one. -/
theorem own_of_announced (s' : System) {ret : Bool} (h : Announced o t s.process ret s'.process)
    (hlife : s'.life = s.life) (hrun : s.life t = .running) :
    Heap.OwnStep t s.process.heap s.held s'.process.heap s'.held ∧
      (ret = true ∧ s'.held t ≠ none ∨ ret = false ∧ s'.process.slot t = none ∧
        ¬ (o.localAlloc = true ∧ o.tlsSetValue = true)) := by
  cases h with
  | kept hsome hslot hheap =>
    rw [held_congr hlife hslot]
    refine ⟨.keep (by rw [hheap]), Or.inl ⟨rfl, ?_⟩⟩
    rw [held_running hrun, hsome]
    exact Option.some_ne_none _
  | allocated _ hnone hslot hheap =>
    rw [held_update hlife hrun hslot, hheap]
    refine ⟨.acquire _ ((held_running hrun).trans hnone), Or.inl ⟨rfl, ?_⟩⟩
    rw [Function.update_self]
    exact Option.some_ne_none _
  | refused hno hnone hslot hheap =>
    rw [held_congr hlife hslot]
    exact ⟨.keep hheap, Or.inr ⟨rfl, by rw [hslot, hnone], hno⟩⟩

/-- An announced thread runs from then on; it has its block if the system let it. -/
theorem Owned.attach (hs : s.Owned) (ha : s.Allowed (.notify .DLL_THREAD_ATTACH t o)) :
    let s' := s.step ndebug build (.notify .DLL_THREAD_ATTACH t o)
    Moves t s s' ∧ s'.life t = .running ∧
      (o.localAlloc = true ∧ o.tlsSetValue = true → s'.held t ≠ none) := by
  obtain ⟨hrun, hlife, hheld, hkeeps, hheap, hload, hloader, hfault⟩ := s.enter_spec ha.2.2.1
  simp only [step]
  generalize s.enter t = s₁ at *
  obtain ⟨ret, p, hp, hkeeps', hend⟩ :=
    announce_spec ndebug (o := o) (t := t) (hkeeps.ready hs.ready)
  simp only [DllMain, hp, after]
  obtain ⟨hown, hblock⟩ := own_of_announced { s₁ with process := p } hend rfl hrun
  rw [hheap, hheld] at hown
  refine ⟨hs.moves_idle ha.2.2.2 hload hloader hfault hlife (hkeeps.trans hkeeps') hown, hrun, ?_⟩
  intro hgrant
  rcases hblock with ⟨-, hsome⟩ | ⟨-, -, hno⟩
  · exact hsome
  · exact absurd hgrant hno

/-- A thread that leaves takes its block with it. -/
theorem Owned.detach (hs : s.Owned) (ha : s.Allowed (.notify .DLL_THREAD_DETACH t o)) :
    let s' := s.step ndebug build (.notify .DLL_THREAD_DETACH t o)
    Moves t s s' ∧ s'.life t = .ended := by
  obtain ⟨-, -, hrun, hidle⟩ := ha
  obtain ⟨p, hp, hkeeps, hslot, hend⟩ :=
    release_spec ndebug (t := t) hs.ready fun ptr => hs.slot_live hrun
  have hrun' : DllMain ndebug o t .DLL_THREAD_DETACH s.process = .ok true p := Tls.bind_ok hp
  simp only [step, hrun', after]
  refine ⟨hs.moves_idle hidle rfl rfl rfl (fun u hu => Function.update_of_ne hu ..) hkeeps ?_,
    Function.update_self ..⟩
  have hleft : held { s with process := p, life := Function.update s.life t .ended } =
      Function.update s.held t none := held_ended rfl hslot
  rw [hleft]
  rcases hend with ⟨hnone, hsame⟩ | ⟨ptr, hptr, hfree⟩
  · have hheld : Function.update s.held t none = s.held := by
      rw [Function.update_eq_self_iff, held_running hrun, hnone]
    rw [hheld]
    exact .keep (by rw [hsame])
  · exact .release (by rw [held_running hrun, hptr]) hfree

private theorem Owned.load_update (hs : s.Owned) {v : Option Load}
    (hv : ∀ l, v = some l → s.held t = some l.block) (u : Thread) (l : Load)
    (hl : Function.update s.load t v u = some l) : s.held u = some l.block := by
  by_cases hut : u = t
  · rw [hut, Function.update_self] at hl
    rw [hut, hv l hl]
  · rw [Function.update_of_ne hut] at hl
    exact hs.load u l hl

/-- A load leaves the slots alone, and writes to its own block only. -/
theorem Owned.load_moves (hs : s.Owned) {a : Action} (ha : s.Allowed a)
    (hload : ∀ r u o, a ≠ .notify r u o) :
    let s' := s.step ndebug build a
    Moves a.thread s s' ∧ s'.life = s.life ∧ s'.held = s.held := by
  cases a with
  | notify r u o => exact absurd rfl (hload r u o)
  | loadBegin t host file =>
    obtain ⟨-, -, hrun, hidle⟩ := ha
    obtain ⟨load, p, hp, hkeeps, hslot, hheap, hblock⟩ :=
      beginLoad_spec ndebug build host file hs.ready fun ptr => hs.slot_live hrun
    simp only [step, hp]
    have hheld : held { s with process := p, load := Function.update s.load t load } = s.held :=
      held_congr rfl hslot
    refine ⟨⟨hs.loader, hs.fault, fun _ _ => rfl, hkeeps, ?_, ?_⟩, trivial, hheld⟩
    · rw [hheld]
      exact .keep (by rw [hheap])
    · rw [hheld]
      exact hs.load_update fun l hl => by rw [held_running hrun, hblock l hl]
  | loadWrite t =>
    obtain ⟨-, -, ptr, d, ds, hl⟩ := ha
    have hown := hs.load t _ hl
    obtain ⟨heap, hwrite⟩ := Heap.write_some (hs.heap.live hown) d
    simp only [step, hl, writeBlock, hwrite, after]
    refine ⟨⟨hs.loader, hs.fault, fun _ _ => rfl, ⟨rfl, rfl, rfl, [], by simp, by simp⟩,
      .write hown hwrite, hs.load_update ?_⟩, trivial, rfl⟩
    rintro l ⟨⟩
    exact hown
  | loadEnd t =>
    exact ⟨⟨hs.loader, hs.fault, fun _ _ => rfl, .refl _, .keep rfl, hs.load_update nofun⟩,
      rfl, rfl⟩

/-- Every action but the last notification is a step of one owner. -/
theorem Owned.moves (hs : s.Owned) {a : Action} (ha : s.Allowed a)
    (hlast : ∀ u o, a ≠ .notify .DLL_PROCESS_DETACH u o) :
    Moves a.thread s (s.step ndebug build a) := by
  cases a with
  | notify r t o =>
    cases r with
    | DLL_PROCESS_ATTACH =>
      have hbefore := ha.2.1
      rw [hs.loader] at hbefore
      cases hbefore
    | DLL_THREAD_ATTACH => exact (hs.attach ndebug build ha).1
    | DLL_THREAD_DETACH => exact (hs.detach ndebug build ha).1
    | DLL_PROCESS_DETACH => exact absurd rfl (hlast t o)
  | loadBegin | loadWrite | loadEnd => exact (hs.load_moves ndebug build ha nofun).1

end System

end StepMid
