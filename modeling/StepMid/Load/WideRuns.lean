import StepMid.Framework.Fallible
import StepMid.Load.Delivery

/-!
# Runs of conversions

Any strings may follow each other through the wide buffer, and any of the calls may fail. The
invariant of the buffer holds behind each of them, so that the label `finish` has to free the one
block that is live, if there is one.
-/

namespace StepMid

/-- The wide buffer at the head of `readMetaEvent`. -/
def WideState.start (data : TlsData) : WideState where
  data := data
  heap := .empty
  binfo := ⟨.metadataWbuf, none, STATIC_META_BUFFER_SIZE⟩

/-- The conversions one after the other, whatever they return. -/
def convertAll (w : Nat) : List Conversion → WideState → Except Fault WideState
  | [], ws => .ok ws
  | c :: cs, ws => do
    let (_, ws) ← mbtowcAndUpdateBufferInfo w c ws
    convertAll w cs ws

/-- `wcharLengthWithNull`, the count that the second call of `MultiByteToWideChar` is given. -/
def Conversion.count (w : Nat) (c : Conversion) : Int :=
  if maxCount w 2 < c.required.toInt then maxCount w 2 else c.required.toInt

/-- The byte size handed to `malloc` or `realloc` does not wrap, and the call writes below the
limit that holds when it writes. -/
structure Conversion.InBounds (w : Nat) (c : Conversion) (ws : WideState) : Prop where
  newSize : toSize w (c.count w) * 2 < 2 ^ w ∧ (toSize w (c.count w) : Int) = c.count w
  writes : ∀ ws', ws.fit w (c.count w) c.block = .ok (some ws') →
    ∀ k, k < (c.written.take (c.count w).toNat).length ∨ k = (c.count w - 1).toNat →
      (k : Int) < ws'.binfo.wcharLengthWithNullLimit

theorem Reader.start_wide (data : TlsData) (fp : Stream) :
    (Reader.start data fp).toWideState = .start data := rfl

theorem WideState.start_ok (data : TlsData) : (WideState.start data).Ok := by
  rw [← Reader.start_wide data .start]
  exact Reader.start_ok data .start

private theorem convertAll_ok {w : Nat} (hw : 32 ≤ w) (cs : List Conversion) {ws : WideState}
    (h : ws.Ok) : ∃ ws', convertAll w cs ws = .ok ws' ∧ ws'.Ok := by
  induction cs generalizing ws with
  | nil => exact ⟨ws, rfl, h⟩
  | cons c cs ih =>
    obtain ⟨ret, ws₁, hrun, hok, -⟩ := mbtowcAndUpdateBufferInfo_spec hw c h
    obtain ⟨ws₂, hrest, hok₂⟩ := ih hok
    refine ⟨ws₂, ?_, hok₂⟩
    simp only [convertAll, hrun, bind, Except.bind]
    exact hrest

theorem WideState.Ok.inBounds {w : Nat} (hw : 32 ≤ w) {c : Conversion} {ws : WideState}
    (h : ws.Ok) (hpos : 0 < c.required.toInt) : c.InBounds w ws := by
  have hint : c.required.toInt ≤ INT_MAX := by
    have := BitVec.toInt_lt (x := c.required)
    rw [INT_MAX]
    omega
  have hcount : c.count w = c.required.toInt := by
    rw [Conversion.count, maxCount_eq hw (Or.inr rfl), if_neg (by omega)]
  have hpow : 2 ^ 32 ≤ 2 ^ w := Nat.pow_le_pow_right (by decide) hw
  have hmax : INT_MAX = 2 ^ 31 - 1 := rfl
  have hsize := toSize_of_nonneg hw hpos.le hint
  constructor
  · rw [hcount, hsize]
    omega
  · intro ws' hfit k hk
    rw [hcount] at hfit hk
    have htake := List.length_take_le c.required.toInt.toNat c.written
    rcases fit_cases hw h hint c.block with ⟨-, -, hnone⟩ | ⟨-, ws₁, hsome, -, -, hlimit⟩
    · rw [hnone] at hfit
      cases hfit
    · obtain rfl : ws₁ = ws' := by
        rw [hsome] at hfit
        exact Option.some.inj (Except.ok.inj hfit)
      have := le_max_right ws.binfo.wcharLengthWithNullLimit c.required.toInt
      omega

/-! ## The reader around it -/

/-- How a step of the reader may end: a fault does not come from the heap, and a result keeps the
invariant of the wide buffer. -/
def Reader.Sound : Except Fault (Int × Reader) → Prop :=
  Fallible.Ends (· ≠ .deadBlock) fun r => r.2.toWideState.Ok

private theorem bufferOverrun_ne : Fault.bufferOverrun ≠ .deadBlock := by
  decide

private theorem Reader.putBuf_sound {rd : Reader} (h : rd.toWideState.Ok) (k : Nat)
    (xs : List UInt8) :
    Fallible.Ends (· ≠ .deadBlock) (fun rd' : Reader => rd'.toWideState.Ok) (rd.putBuf k xs) := by
  rw [Reader.putBuf]
  split
  · split
    · exact bufferOverrun_ne
    · exact h.of_same rfl rfl
  · split
    · exact bufferOverrun_ne
    · exact h

private theorem callSetter_sound (build : Build) (host : Host) (i : Fin META_MAX) {rd : Reader}
    (h : rd.toWideState.Ok) : Reader.Sound (callSetter build host i rd) := by
  obtain ⟨ret, rd', hrun, hok, -⟩ := callSetter_spec build host i h
  rw [hrun]
  exact hok

/-- The array may hold anything: a wrong length overruns the byte buffer at worst. -/
private theorem readEvent_sound (build : Build) (host : Host) (F : List UInt8) (maxLength : Int)
    (events : Events) (i : Fin META_MAX) {rd : Reader} (h : rd.toWideState.Ok) :
    Reader.Sound (readEvent build host F maxLength events i rd) := by
  rw [readEvent]
  refine .ite (fun _ => h) fun _ => ?_
  refine (Reader.putBuf_sound (by exact h) 0 _).bind fun rd₁ hrd₁ => ?_
  refine .ite (fun _ => hrd₁) fun _ => .ite (fun _ => bufferOverrun_ne) fun _ => ?_
  exact (Reader.putBuf_sound hrd₁ _ _).bind fun rd₂ hrd₂ => callSetter_sound build host i hrd₂

private theorem readEvents_sound (build : Build) (host : Host) (F : List UInt8) (maxLength : Int)
    (events : Events) (is : List (Fin META_MAX)) {rd : Reader} (h : rd.toWideState.Ok) :
    Reader.Sound (readEvents build host F maxLength events is rd) := by
  induction is generalizing rd with
  | nil => exact h
  | cons i is ih =>
    refine (readEvent_sound build host F maxLength events i h).bind fun ⟨ret, rd₁⟩ hrd₁ => ?_
    exact .ite (fun _ => hrd₁) fun _ => ih hrd₁

/-- A read-back that returns has freed what it allocated. -/
def ReadReturn.Clean (r : ReadReturn) : Prop := ∀ p, ¬ r.heap.Live p

theorem finish_clean (ret : Int) {rd : Reader} (h : rd.toWideState.Ok) :
    Fallible.Ends (· ≠ .deadBlock) ReadReturn.Clean (finish ret rd) := by
  obtain ⟨r, hr, -, -, -, hclean⟩ := finish_spec ret h
  rw [hr]
  exact hclean

theorem readMetaEvent_clean (build : Build) (host : Host) (F : List UInt8) (tls : Option TlsData)
    (fp : Stream) (events : Events) :
    Fallible.Ends (· ≠ .deadBlock) ReadReturn.Clean
      (readMetaEvent build host F tls fp events) := by
  have hloop {rd : Reader} (h : rd.toWideState.Ok) :
      Fallible.Ends (· ≠ .deadBlock) ReadReturn.Clean (readLoop build host F events rd) :=
    (readEvents_sound build host F _ events _ h).bind fun r hr => finish_clean r.1 hr
  cases tls with
  | none =>
    intro p hp
    rw [Heap.Live] at hp
    cases hp
  | some data =>
    by_cases hbuffer : BufferObtained host events
    · obtain ⟨rd, hrun, hok, -⟩ := readMetaEvent_obtained build F hbuffer data fp
      rw [hrun]
      exact hloop hok
    · rw [readMetaEvent_refused build F hbuffer]
      exact finish_clean _ (Reader.start_ok data fp)

/-- Behind any conversions the buffer is the thread's own with nothing on the heap, or the one
live block; the next conversion, whatever its calls return, keeps below the limit and never lowers
it; and `finish` frees what is live and nothing else, on every way through `readMetaEvent`. A
second free or a use of a freed block would be the fault `deadBlock`. -/
theorem wideBuffer_runs (host : Host) :
    (∀ (data : TlsData) (cs : List Conversion),
      ∃ ws, convertAll host.sizeBits cs (.start data) = .ok ws ∧ ws.Ok ∧
        (∀ c, ∃ ret ws', mbtowcAndUpdateBufferInfo host.sizeBits c ws = .ok (ret, ws') ∧ ws'.Ok ∧
          ws.binfo.wcharLengthWithNullLimit ≤ ws'.binfo.wcharLengthWithNullLimit ∧
          (0 < c.required.toInt → c.InBounds host.sizeBits ws)) ∧
        ∀ ret rd, rd.toWideState = ws → ∃ r, finish ret rd = .ok r ∧ r.Clean) ∧
    ∀ F tls fp events,
      readMetaEvent .STEP_K host F tls fp events ≠ .error .deadBlock ∧
        ∀ r, readMetaEvent .STEP_K host F tls fp events = .ok r → r.Clean := by
  constructor
  · intro data cs
    obtain ⟨ws, hrun, hok⟩ := convertAll_ok host.sizeBits_ge cs (WideState.start_ok data)
    refine ⟨ws, hrun, hok, ?_, ?_⟩
    · intro c
      obtain ⟨ret, ws', hstep, hok', -, hlimit, -⟩ :=
        mbtowcAndUpdateBufferInfo_spec host.sizeBits_ge c hok
      exact ⟨ret, ws', hstep, hok', hlimit, hok.inBounds host.sizeBits_ge⟩
    · rintro ret rd rfl
      obtain ⟨r, hr, -, -, -, hclean⟩ := finish_spec ret hok
      exact ⟨r, hr, hclean⟩
  · intro F tls fp events
    have hends := readMetaEvent_clean .STEP_K host F tls fp events
    exact ⟨fun h => hends.failure h rfl, fun r h => hends.result h⟩

end StepMid
