import StepMid.Load.Host

/-!
# The module's thread-local buffers

`STEPMidTls` keeps one index for thread-local storage and, in the slot of each thread, the address
of the thread's buffers. The calls of the system go with the outcomes that they are given.
-/

namespace StepMid

abbrev DWORD := BitVec 32

def TLS_OUT_OF_INDEXES : DWORD := 0xffffffff

abbrev Thread := Nat

/-- What the system's calls come to during one notification. -/
structure Outcomes where
  tlsAlloc : DWORD
  localAlloc : Bool
  tlsSetValue : Bool

/-- A use of the module's index, and whether the index was allocated then. -/
structure TlsUse where
  index : DWORD
  allocated : Bool

/-- The index stands for a slot. -/
def TlsUse.Good (u : TlsUse) : Prop := u.index ≠ TLS_OUT_OF_INDEXES ∧ u.allocated = true

/-- The static variable `tlsIndex`, the slots of all threads, the blocks of `LocalAlloc`, and a log
of the uses of `tlsIndex` and of the indices given to `TlsFree`. -/
structure Process where
  tlsIndex : DWORD
  allocated : DWORD → Bool
  value : Thread → DWORD → Option Nat
  heap : Heap TlsData
  uses : List TlsUse
  tlsFrees : List DWORD

abbrev Tls := EStateM Fault Process

/-! ## Calls of the system -/

section

variable (o : Outcomes) (t : Thread)

/-- A new index comes with null slots in all threads. -/
def TlsAlloc : Tls DWORD := fun p =>
  if o.tlsAlloc = TLS_OUT_OF_INDEXES then .ok TLS_OUT_OF_INDEXES p
  else
    .ok o.tlsAlloc
      { p with
        allocated := Function.update p.allocated o.tlsAlloc true
        value := fun u => Function.update (p.value u) o.tlsAlloc none }

def TlsFree (index : DWORD) : Tls Bool := fun p =>
  .ok (p.allocated index)
    { p with
      allocated := Function.update p.allocated index false
      tlsFrees := p.tlsFrees ++ [index] }

/-- The null pointer for an index that is not allocated. -/
def TlsGetValue (index : DWORD) : Tls (Option Nat) := fun p =>
  .ok (if p.allocated index then p.value t index else none) p

def TlsSetValue (index : DWORD) (ptr : Nat) : Tls Bool := fun p =>
  if o.tlsSetValue && p.allocated index then
    .ok true
      { p with value := Function.update p.value t (Function.update (p.value t) index (some ptr)) }
  else .ok false p

/-- `LocalAlloc(LPTR, sizeof(STEPMidUtil::TlsData))`. -/
def LocalAlloc : Tls (Option Nat) := fun p =>
  if o.localAlloc then .ok (some p.heap.next) { p with heap := p.heap.alloc .zeroed }
  else .ok none p

end

def LocalFree (ptr : Nat) : Tls Unit := fun p =>
  match p.heap.free ptr with
  | none => .error .deadBlock p
  | some heap => .ok () { p with heap }

/-! ## The class -/

/-- A release build leaves its asserts out. -/
def assertIndex (ndebug : Bool) (c : DWORD → Bool) : Tls Unit := fun p =>
  if ndebug || c p.tlsIndex then .ok () p else .error .assertFailed p

def getTlsIndex : Tls DWORD := fun p => .ok p.tlsIndex p

def setTlsIndex (index : DWORD) : Tls Unit := fun p => .ok () { p with tlsIndex := index }

def noteUse : Tls Unit := fun p =>
  .ok () { p with uses := p.uses ++ [⟨p.tlsIndex, p.allocated p.tlsIndex⟩] }

def STEPMidTls.initialize (ndebug : Bool) (o : Outcomes) : Tls Bool := do
  assertIndex ndebug (· == TLS_OUT_OF_INDEXES)
  let index ← TlsAlloc o
  setTlsIndex index
  return index != TLS_OUT_OF_INDEXES

namespace STEPMidTls

variable (ndebug : Bool) (o : Outcomes) (t : Thread)

def deinitialize : Tls Bool := do
  noteUse
  assertIndex ndebug (· != TLS_OUT_OF_INDEXES)
  TlsFree (← getTlsIndex)

def allocAndSet : Tls (Option Nat) := do
  noteUse
  assertIndex ndebug (· != TLS_OUT_OF_INDEXES)
  match ← LocalAlloc o with
  | none => return none
  | some ptr =>
    let tlsSetResult ← TlsSetValue o t (← getTlsIndex) ptr
    if tlsSetResult then return some ptr
    LocalFree ptr
    return none

def get : Tls (Option Nat) := do
  noteUse
  assertIndex ndebug (· != TLS_OUT_OF_INDEXES)
  TlsGetValue t (← getTlsIndex)

def free (ptr : Nat) : Tls Unit := LocalFree ptr

end STEPMidTls

/-! ## With an allocated index -/

namespace Process

/-- The module has an index that stands for a slot. -/
structure Ready (p : Process) : Prop where
  index : p.tlsIndex ≠ TLS_OUT_OF_INDEXES
  allocated : p.allocated p.tlsIndex = true

/-- The thread's slot. -/
def slot (p : Process) (t : Thread) : Option Nat := p.value t p.tlsIndex

/-- The process after a use of the index. -/
def noted (p : Process) : Process :=
  { p with uses := p.uses ++ [⟨p.tlsIndex, p.allocated p.tlsIndex⟩] }

def setSlot (p : Process) (t : Thread) (v : Option Nat) : Process :=
  { p with value := Function.update p.value t (Function.update (p.value t) p.tlsIndex v) }

section

variable (p : Process) (t : Thread)

@[simp] theorem noted_heap : p.noted.heap = p.heap := rfl

theorem setSlot_slot (v : Option Nat) :
    (p.setSlot t v).slot = Function.update p.slot t v := by
  funext u
  by_cases hut : u = t
  · subst hut
    simp only [slot, setSlot, Function.update_self]
  · simp only [slot, setSlot, Function.update_of_ne hut]

end

/-- Index and slots as before, the log of uses longer by good ones only. -/
structure Keeps (p p' : Process) : Prop where
  tlsIndex : p'.tlsIndex = p.tlsIndex
  allocated : p'.allocated = p.allocated
  tlsFrees : p'.tlsFrees = p.tlsFrees
  uses : ∃ us, p'.uses = p.uses ++ us ∧ ∀ u ∈ us, u.Good

theorem Keeps.ready {p p' : Process} (h : p.Keeps p') (hp : p.Ready) : p'.Ready where
  index := by
    rw [h.tlsIndex]
    exact hp.index
  allocated := by
    rw [h.tlsIndex, h.allocated]
    exact hp.allocated

theorem Keeps.refl (p : Process) : p.Keeps p := ⟨rfl, rfl, rfl, [], by simp, by simp⟩

theorem Keeps.trans {p p' p'' : Process} (h : p.Keeps p') (h' : p'.Keeps p'') : p.Keeps p'' := by
  obtain ⟨us, hus, hgood⟩ := h.uses
  obtain ⟨us', hus', hgood'⟩ := h'.uses
  refine ⟨h'.tlsIndex.trans h.tlsIndex, h'.allocated.trans h.allocated,
    h'.tlsFrees.trans h.tlsFrees, us ++ us', ?_, ?_⟩
  · rw [hus', hus, List.append_assoc]
  · intro u hu
    rcases List.mem_append.mp hu with hu | hu
    · exact hgood u hu
    · exact hgood' u hu

theorem Keeps.noted {p p' : Process} (h : p.Keeps p') (hp : p.Ready) : p.Keeps p'.noted :=
  h.trans ⟨rfl, rfl, rfl, _, rfl, by simpa using ⟨(h.ready hp).index, (h.ready hp).allocated⟩⟩

end Process

/-! ## What the calls do -/

theorem Tls.bind_ok {α β : Type} {x : Tls α} {f : α → Tls β} {p p' : Process} {a : α}
    (h : x p = .ok a p') : (x >>= f) p = f a p' := by
  simp only [bind, EStateM.bind, h]

theorem Tls.bind_error {α β : Type} {x : Tls α} {f : α → Tls β} {p p' : Process} {e : Fault}
    (h : x p = .error e p') : (x >>= f) p = .error e p' := by
  simp only [bind, EStateM.bind, h]

namespace STEPMidTls

variable (ndebug : Bool) (o : Outcomes) (t : Thread) {p : Process}

/-- The head that the three functions share. -/
private theorem use_ready {α : Type} (hp : p.Ready) (k : Tls α) :
    (do
      noteUse
      assertIndex ndebug (· != TLS_OUT_OF_INDEXES)
      k) p = k p.noted := by
  have hassert : assertIndex ndebug (· != TLS_OUT_OF_INDEXES) p.noted = .ok () p.noted := by
    apply if_pos
    rw [Bool.or_eq_true]
    exact Or.inr (bne_iff_ne.mpr hp.index)
  have hnote : noteUse p = .ok () p.noted := rfl
  rw [Tls.bind_ok hnote, Tls.bind_ok hassert]

private theorem getTlsIndex_bind {α : Type} (p : Process) (f : DWORD → Tls α) :
    (getTlsIndex >>= f) p = f p.tlsIndex p := rfl

theorem get_ready (hp : p.Ready) : get ndebug t p = .ok (p.slot t) p.noted := by
  rw [get, use_ready ndebug hp, getTlsIndex_bind, TlsGetValue]
  have hallocated : p.noted.allocated p.noted.tlsIndex = true := hp.allocated
  rw [if_pos hallocated]
  rfl

theorem deinitialize_ready (hp : p.Ready) :
    deinitialize ndebug p = .ok true
      { p.noted with
        allocated := Function.update p.allocated p.tlsIndex false
        tlsFrees := p.tlsFrees ++ [p.tlsIndex] } := by
  unfold deinitialize
  rw [use_ready ndebug hp, getTlsIndex_bind, TlsFree]
  have hallocated : p.noted.allocated p.noted.tlsIndex = true := hp.allocated
  rw [hallocated]
  rfl

/-- A block is allocated and its address is set, or nothing is left behind. -/
theorem allocAndSet_ready (hp : p.Ready) :
    (o.localAlloc = true ∧ o.tlsSetValue = true ∧ allocAndSet ndebug o t p =
      .ok (some p.heap.next)
        ({ p.noted with heap := p.heap.alloc .zeroed }.setSlot t (some p.heap.next))) ∨
    (¬ (o.localAlloc = true ∧ o.tlsSetValue = true) ∧
      ∃ heap, allocAndSet ndebug o t p = .ok none { p.noted with heap } ∧
        heap.block = p.heap.block) := by
  have hallocated : p.noted.allocated p.noted.tlsIndex = true := hp.allocated
  rw [allocAndSet, use_ready ndebug hp]
  cases halloc : o.localAlloc with
  | false =>
    have hrun : LocalAlloc o p.noted = .ok none p.noted := if_neg (by simp [halloc])
    exact Or.inr ⟨by simp, p.heap, by rw [Tls.bind_ok hrun]; rfl, rfl⟩
  | true =>
    have hrun : LocalAlloc o p.noted =
        .ok (some p.heap.next) { p.noted with heap := p.heap.alloc .zeroed } := if_pos halloc
    rw [Tls.bind_ok hrun]
    simp only [getTlsIndex_bind]
    cases hset : o.tlsSetValue with
    | true =>
      refine Or.inl ⟨trivial, rfl, ?_⟩
      rw [Tls.bind_ok (if_pos (by rw [hset]; exact hallocated))]
      rfl
    | false =>
      have hlive : (p.heap.alloc TlsData.zeroed).Live p.heap.next :=
        (Heap.alloc_live ..).mpr (Or.inr rfl)
      obtain ⟨heap, hfree⟩ := Heap.free_some hlive
      obtain ⟨hgone, hother⟩ := Heap.free_spec hfree
      refine Or.inr ⟨by simp, heap, ?_, ?_⟩
      · rw [Tls.bind_ok (if_neg (by rw [hset]; exact Bool.false_ne_true))]
        have hrelease : LocalFree p.heap.next { p.noted with heap := p.heap.alloc .zeroed } =
            .ok () { p.noted with heap } := by
          simp only [LocalFree, hfree]
        exact Tls.bind_ok hrelease
      · funext q
        by_cases hq : q = p.heap.next
        · rw [hq, hgone, p.heap.fresh _ (Nat.le_refl _)]
        · rw [hother q hq, Heap.alloc_block_ne _ _ hq]

/-! ## Without an index -/

section

variable (hindex : p.tlsIndex = TLS_OUT_OF_INDEXES)
  (hallocated : p.allocated TLS_OUT_OF_INDEXES = false)

include hindex

/-- With its asserts, the module stops. -/
theorem get_asserts : get false t p = .error .assertFailed p.noted := by
  have hnote : noteUse p = .ok () p.noted := rfl
  have hassert : assertIndex false (· != TLS_OUT_OF_INDEXES) p.noted =
      .error .assertFailed p.noted := by
    apply if_neg
    rw [Bool.false_or, bne_iff_ne, ne_eq, not_not]
    exact hindex
  rw [get, Tls.bind_ok hnote, Tls.bind_error hassert]

include hallocated

theorem get_unset : get true t p = .ok none p.noted := by
  have hfree : ¬ p.noted.allocated p.noted.tlsIndex = true := by
    have hsame : p.noted.allocated p.noted.tlsIndex = p.allocated p.tlsIndex := rfl
    rw [hsame, hindex, hallocated]
    exact Bool.false_ne_true
  exact congrArg (EStateM.Result.ok · p.noted) (if_neg hfree)

end

end STEPMidTls

end StepMid
