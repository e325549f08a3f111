import StepMid.Load.Host

/-!
# The wide string buffer

`mbtowcAndUpdateBufferInfo` of the wide build. The buffer is the thread's own one until a string
does not fit; from then on it is the one live block of the heap, of the size of the longest
string so far.
-/

namespace StepMid

/-- What `WcharBufferInfo::buf` points to. -/
inductive WcharBuf
  | metadataWbuf
  | heap (p : Nat)
deriving DecidableEq

structure WcharBufferInfo where
  buf : WcharBuf
  heapBuf : Option Nat
  wcharLengthWithNullLimit : Int

/-- The buffers that a conversion may touch. -/
structure WideState where
  data : TlsData
  heap : Heap (List UInt16)
  binfo : WcharBufferInfo

namespace WideState

/-- The content of the current buffer. -/
def content (ws : WideState) : Option (List UInt16) :=
  match ws.binfo.buf with
  | .metadataWbuf => some ws.data.metadataWbuf
  | .heap p => ws.heap.block p

/-- A write to the current buffer. -/
def put (ws : WideState) (k : Nat) (xs : List UInt16) : Except Fault WideState :=
  match ws.binfo.buf with
  | .metadataWbuf =>
    match ws.data.putWbuf k xs with
    | none => .error .bufferOverrun
    | some data => .ok { ws with data }
  | .heap p =>
    match ws.heap.block p with
    | none => .error .deadBlock
    | some block =>
      match Buffer.put block k xs with
      | none => .error .bufferOverrun
      | some block =>
        match ws.heap.write p block with
        | none => .error .deadBlock
        | some heap => .ok { ws with heap }

/-- A block of `n` characters that starts with what the old one held. -/
def newBlock (garbage : Nat → UInt16) (old : List UInt16) (n : Nat) : List UInt16 :=
  old.take n ++ ((List.range n).map garbage).drop old.length

/-- `block` becomes the current buffer, with room for `n` characters. -/
def setBlock (ws : WideState) (heap : Heap (List UInt16)) (block : List UInt16) (n : Int) :
    WideState :=
  { ws with heap := heap.alloc block, binfo := ⟨.heap heap.next, some heap.next, n⟩ }

/-- `malloc` or `realloc` of a block for `n` characters; `none` when it fails. -/
def grow (w : Nat) (n : Int) (block : Option (Nat → UInt16)) (ws : WideState) :
    Except Fault (Option WideState) :=
  let newSize := toSize w n * 2 % 2 ^ w
  match ws.binfo.heapBuf with
  | none =>
    match block with
    | none => .ok none
    | some garbage =>
      .ok (some (ws.setBlock ws.heap (newBlock garbage [] (newSize / 2)) n))
  | some p =>
    match ws.heap.block p, ws.heap.free p with
    | some old, some heap =>
      match block with
      | none => .ok none
      | some garbage =>
        .ok (some (ws.setBlock heap (newBlock garbage old (newSize / 2)) n))
    | _, _ => .error .deadBlock

/-- A buffer for `n` characters, the current one where it is long enough. -/
def fit (w : Nat) (n : Int) (block : Option (Nat → UInt16)) (ws : WideState) :
    Except Fault (Option WideState) :=
  if ws.binfo.wcharLengthWithNullLimit < n then ws.grow w n block else .ok (some ws)

end WideState

def mbtowcAndUpdateBufferInfo (w : Nat) (c : Conversion) (ws : WideState) :
    Except Fault (Int × WideState) := do
  let mbtowcRet := c.required.toInt
  if mbtowcRet ≤ 0 then return (-1, ws)
  let wcharLengthWithNull := if maxCount w 2 < mbtowcRet then maxCount w 2 else mbtowcRet
  match ← ws.fit w wcharLengthWithNull c.block with
  | none => return (-1, ws)
  | some ws =>
    let ws ← ws.put 0 (c.written.take wcharLengthWithNull.toNat)
    if c.result = 0 then return (-1, ws)
    let ws ← ws.put (wcharLengthWithNull - 1).toNat [0]
    return (0, ws)

/-! ## The invariant -/

/-- Either the thread's buffer and an empty heap, or the one live block of the heap. -/
inductive WideState.Ok (ws : WideState) : Prop
  | tls : ws.binfo.heapBuf = none → ws.binfo.buf = .metadataWbuf →
      ws.binfo.wcharLengthWithNullLimit = STATIC_META_BUFFER_SIZE → (∀ p, ¬ ws.heap.Live p) →
      ws.Ok
  | heap {p : Nat} {block : List UInt16} : ws.binfo.heapBuf = some p → ws.binfo.buf = .heap p →
      ws.heap.block p = some block → (block.length : Int) = ws.binfo.wcharLengthWithNullLimit →
      (STATIC_META_BUFFER_SIZE : Int) < ws.binfo.wcharLengthWithNullLimit →
      (∀ q, ws.heap.Live q → q = p) → ws.Ok

namespace WideState

variable {ws : WideState}

theorem Ok.content (h : ws.Ok) :
    ∃ buf, ws.content = some buf ∧ (buf.length : Int) = ws.binfo.wcharLengthWithNullLimit := by
  cases h with
  | tls hheap hbuf hlimit =>
    refine ⟨ws.data.metadataWbuf, by rw [WideState.content, hbuf], ?_⟩
    rw [ws.data.metadataWbuf_length, hlimit]
  | heap hheap hbuf hblock hlen =>
    refine ⟨_, ?_, hlen⟩
    rw [WideState.content, hbuf]
    exact hblock

theorem Ok.limit_ge (h : ws.Ok) :
    (STATIC_META_BUFFER_SIZE : Int) ≤ ws.binfo.wcharLengthWithNullLimit := by
  cases h with
  | tls _ _ hlimit => exact hlimit.ge
  | heap _ _ _ _ hlimit => exact hlimit.le

/-- A write inside the limit succeeds and changes the current buffer only. -/
theorem Ok.put (h : ws.Ok) (k : Nat) (xs : List UInt16) {buf : List UInt16}
    (hbuf : ws.content = some buf) (hfit : k + xs.length ≤ buf.length) :
    ∃ ws' buf', ws.put k xs = .ok ws' ∧ Buffer.put buf k xs = some buf' ∧
      ws'.content = some buf' ∧ ws'.Ok ∧ ws'.binfo = ws.binfo ∧
      ws'.data.metadataBuf = ws.data.metadataBuf := by
  obtain ⟨buf', hput⟩ := Buffer.put_isSome.mpr hfit
  cases h with
  | tls hheap hsel hlimit hlive =>
    rw [WideState.content, hsel] at hbuf
    cases hbuf
    obtain ⟨data, hdata, hwbuf, hkeep⟩ := TlsData.putWbuf_some hput
    refine ⟨{ ws with data }, buf', ?_, hput, ?_, .tls hheap hsel hlimit hlive, rfl, hkeep⟩
    · simp only [WideState.put, hsel, hdata]
    · simp only [WideState.content, hsel, hwbuf]
  | heap hheap hsel hblock hlen hlimit hlive =>
    rename_i p block
    simp only [WideState.content, hsel] at hbuf
    rw [hblock] at hbuf
    cases hbuf
    obtain ⟨heap, hwrite⟩ := Heap.write_some (Heap.live_of_block hblock) buf'
    have hself := (Heap.write_spec hwrite).2.1
    refine ⟨{ ws with heap }, buf', ?_, hput, ?_, ?_, rfl, rfl⟩
    · simp only [WideState.put, hsel, hblock, hput, hwrite]
    · simp only [WideState.content, hsel, hself]
    · refine .heap hheap hsel hself ?_ hlimit ?_
      · rw [Buffer.put_length hput, hlen]
      · intro q hq
        exact hlive q ((Heap.write_live hwrite q).mp hq)

theorem newBlock_length (garbage : Nat → UInt16) (old : List UInt16) (n : Nat) :
    (newBlock garbage old n).length = n := by
  simp only [newBlock, List.length_append, List.length_take, List.length_drop, List.length_map,
    List.length_range]
  omega

/-- The byte size of a block does not wrap. -/
theorem newSize_eq {w : Nat} (hw : 32 ≤ w) {n : Int} (h0 : 0 ≤ n) (hmax : n ≤ INT_MAX) :
    toSize w n * 2 % 2 ^ w / 2 = n.toNat := by
  have hpow : 2 ^ 32 ≤ 2 ^ w := Nat.pow_le_pow_right (by decide) hw
  have hint : INT_MAX = 2 ^ 31 - 1 := rfl
  rw [toSize_of_nonneg hw h0 hmax, Nat.mod_eq_of_lt (by omega), Nat.mul_div_cancel _ (by decide)]

theorem Ok.grow_none (h : ws.Ok) (w : Nat) (n : Int) : ws.grow w n none = .ok none := by
  cases h with
  | tls hheap => simp only [grow, hheap]
  | @heap p block hheap _ hblock =>
    obtain ⟨heap, hfree⟩ := Heap.free_some (Heap.live_of_block hblock)
    simp only [grow, hheap, hblock, hfree]

private theorem setBlock_ok {heap : Heap (List UInt16)} {block : List UInt16} {n : Int}
    (hlen : (block.length : Int) = n) (hn : (STATIC_META_BUFFER_SIZE : Int) < n)
    (hlive : ∀ q, ¬ heap.Live q) : (ws.setBlock heap block n).Ok := by
  refine .heap rfl rfl (Heap.alloc_block_self heap block) hlen hn ?_
  intro q hq
  exact ((Heap.alloc_live heap block q).mp hq).resolve_left (hlive q)

/-- A grown buffer is the one live block and has the new size. -/
theorem Ok.grow_some (h : ws.Ok) {w : Nat} (hw : 32 ≤ w) {n : Int}
    (hn : ws.binfo.wcharLengthWithNullLimit < n) (hmax : n ≤ INT_MAX) (garbage : Nat → UInt16) :
    ∃ ws', ws.grow w n (some garbage) = .ok (some ws') ∧ ws'.Ok ∧
      ws'.binfo.wcharLengthWithNullLimit = n ∧ ws'.data = ws.data := by
  have hlimit := h.limit_ge
  have hstatic : STATIC_META_BUFFER_SIZE = 1024 := rfl
  have hsize := newSize_eq hw (by omega) hmax
  have hlen (old : List UInt16) :
      ((newBlock garbage old (toSize w n * 2 % 2 ^ w / 2)).length : Int) = n := by
    rw [newBlock_length, hsize]
    omega
  cases h with
  | tls hheap _ _ hlive =>
    refine ⟨ws.setBlock ws.heap (newBlock garbage [] (toSize w n * 2 % 2 ^ w / 2)) n, ?_, ?_, rfl,
      rfl⟩
    · simp only [grow, hheap]
    · exact setBlock_ok (hlen []) (by omega) hlive
  | @heap p block hheap _ hblock _ _ hlive =>
    obtain ⟨heap, hfree⟩ := Heap.free_some (Heap.live_of_block hblock)
    refine ⟨ws.setBlock heap (newBlock garbage block (toSize w n * 2 % 2 ^ w / 2)) n, ?_, ?_, rfl,
      rfl⟩
    · simp only [grow, hheap, hblock, hfree]
    · exact setBlock_ok (hlen block) (by omega) (Heap.free_last hfree hlive)

end WideState

/-! ## The conversion of one string -/

/-- Both calls succeed and so does the allocation that a longer string than `limit` needs. -/
def Conversion.Succeeds (c : Conversion) (limit : Int) : Prop :=
  0 < c.required.toInt ∧ (c.required.toInt ≤ limit ∨ c.block.isSome = true) ∧ c.result ≠ 0

theorem fit_cases {w : Nat} (hw : 32 ≤ w) {ws : WideState} (h : ws.Ok) {n : Int}
    (hmax : n ≤ INT_MAX) (block : Option (Nat → UInt16)) :
    (block = none ∧ ws.binfo.wcharLengthWithNullLimit < n ∧ ws.fit w n block = .ok none) ∨
      (n ≤ ws.binfo.wcharLengthWithNullLimit ∨ block.isSome = true) ∧
        ∃ ws', ws.fit w n block = .ok (some ws') ∧ ws'.Ok ∧ ws'.data = ws.data ∧
          ws'.binfo.wcharLengthWithNullLimit = max ws.binfo.wcharLengthWithNullLimit n := by
  by_cases hlt : ws.binfo.wcharLengthWithNullLimit < n
  · rw [WideState.fit, if_pos hlt]
    cases block with
    | none => exact Or.inl ⟨rfl, hlt, h.grow_none w n⟩
    | some garbage =>
      obtain ⟨ws', hgrow, hok, hlimit, hdata⟩ := h.grow_some hw hlt hmax garbage
      refine Or.inr ⟨Or.inr rfl, ws', hgrow, hok, hdata, ?_⟩
      rw [hlimit, max_eq_right hlt.le]
  · refine Or.inr ⟨Or.inl (by omega), ws, if_neg hlt, h, rfl, ?_⟩
    rw [max_eq_left (by omega)]

/-- The characters of both writes, the second of which closes the string. -/
private theorem write_closed {ws : WideState} (h : ws.Ok) {n : Int} (hpos : 0 < n)
    (hfits : n ≤ ws.binfo.wcharLengthWithNullLimit) (written : List UInt16) :
    ∃ ws₁ ws₂, ws.put 0 (written.take n.toNat) = .ok ws₁ ∧ ws₁.put (n - 1).toNat [0] = .ok ws₂ ∧
      (∀ ws', ws' = ws₁ ∨ ws' = ws₂ → ws'.Ok ∧ ws'.binfo = ws.binfo ∧
        ws'.data.metadataBuf = ws.data.metadataBuf) ∧
      ∃ buf, ws₂.content = some buf ∧
        ∀ s, n = s.length + 1 → written = s ++ [0] → Buffer.cstr buf = Buffer.cstr s := by
  obtain ⟨buf, hbuf, hlen⟩ := h.content
  have htake : (written.take n.toNat).length ≤ n.toNat := List.length_take_le _ _
  obtain ⟨ws₁, buf₁, hput₁, hbput₁, hbuf₁, hok₁, hbinfo₁, hdata₁⟩ :=
    h.put 0 (written.take n.toNat) hbuf (by omega)
  have hlen₁ := Buffer.put_length hbput₁
  have hroom : (n - 1).toNat + [(0 : UInt16)].length ≤ buf₁.length := by
    rw [List.length_singleton]
    omega
  obtain ⟨ws₂, buf₂, hput₂, hbput₂, hbuf₂, hok₂, hbinfo₂, hdata₂⟩ :=
    hok₁.put (n - 1).toNat [0] hbuf₁ hroom
  refine ⟨ws₁, ws₂, hput₁, hput₂, ?_, buf₂, hbuf₂, ?_⟩
  · rintro ws' (rfl | rfl)
    · exact ⟨hok₁, hbinfo₁, hdata₁⟩
    · exact ⟨hok₂, hbinfo₂.trans hbinfo₁, hdata₂.trans hdata₁⟩
  · intro s hreq hwritten
    have hn : n.toNat = (s ++ [0]).length := by
      rw [List.length_append, List.length_singleton]
      omega
    have hclose : (n - 1).toNat = s.length := by omega
    rw [hwritten, hn, List.take_length] at hbput₁
    rw [hclose] at hbput₂
    rw [Buffer.cstr_put_close (by simp) hbput₁ hbput₂, List.take_left]

/-- Every conversion, successful or not, keeps the invariant, and a successful one leaves the
converted string, cut where the closing null falls. -/
theorem mbtowcAndUpdateBufferInfo_spec {w : Nat} (hw : 32 ≤ w) (c : Conversion) {ws : WideState}
    (h : ws.Ok) :
    ∃ ret ws', mbtowcAndUpdateBufferInfo w c ws = .ok (ret, ws') ∧ ws'.Ok ∧
      ws'.data.metadataBuf = ws.data.metadataBuf ∧
      ws.binfo.wcharLengthWithNullLimit ≤ ws'.binfo.wcharLengthWithNullLimit ∧
      ((ret = -1 ∧ ¬ c.Succeeds ws.binfo.wcharLengthWithNullLimit) ∨
        (ret = 0 ∧ c.Succeeds ws.binfo.wcharLengthWithNullLimit ∧
          ws'.binfo.wcharLengthWithNullLimit =
            max ws.binfo.wcharLengthWithNullLimit c.required.toInt ∧
          ∃ buf, ws'.content = some buf ∧
            ∀ s, c.required.toInt = s.length + 1 → c.written = s ++ [0] →
              Buffer.cstr buf = Buffer.cstr s)) := by
  have hint : c.required.toInt ≤ INT_MAX := by
    have := BitVec.toInt_lt (x := c.required)
    rw [INT_MAX]
    omega
  have hclamp : ¬ maxCount w 2 < c.required.toInt := by
    rw [maxCount_eq hw (Or.inr rfl)]
    omega
  by_cases hpos : c.required.toInt ≤ 0
  · refine ⟨-1, ws, ?_, h, rfl, le_refl _, Or.inl ⟨rfl, fun hs => ?_⟩⟩
    · simp only [mbtowcAndUpdateBufferInfo, hpos, if_true]
      rfl
    · exact absurd hs.1 (by omega)
  rcases fit_cases hw h hint c.block with ⟨hnone, hlt, hfit⟩ | ⟨hfits, ws₁, hfit, hok₁, hdata₁,
    hlimit₁⟩
  · refine ⟨-1, ws, ?_, h, rfl, le_refl _, Or.inl ⟨rfl, fun hs => ?_⟩⟩
    · simp only [mbtowcAndUpdateBufferInfo, hpos, hclamp, if_false, bind, Except.bind, hfit]
      rfl
    · rcases hs.2.1 with hle | hsome
      · omega
      · rw [hnone] at hsome
        cases hsome
  have hdata₁' : ws₁.data.metadataBuf = ws.data.metadataBuf := by rw [hdata₁]
  have hfits₁ : c.required.toInt ≤ ws₁.binfo.wcharLengthWithNullLimit := by
    rw [hlimit₁]
    exact le_max_right _ _
  obtain ⟨ws₂, ws₃, hput₂, hput₃, hkeep, buf, hbuf, hcstr⟩ :=
    write_closed hok₁ (by omega) hfits₁ c.written
  have hle (ws' : WideState) (hws' : ws'.binfo = ws₁.binfo) :
      ws.binfo.wcharLengthWithNullLimit ≤ ws'.binfo.wcharLengthWithNullLimit := by
    rw [hws', hlimit₁]
    exact le_max_left _ _
  by_cases hres : c.result = 0
  · obtain ⟨hok₂, hbinfo₂, hdata₂⟩ := hkeep ws₂ (Or.inl rfl)
    refine ⟨-1, ws₂, ?_, hok₂, hdata₂.trans hdata₁', hle ws₂ hbinfo₂,
      Or.inl ⟨rfl, fun hs => hs.2.2 hres⟩⟩
    simp only [mbtowcAndUpdateBufferInfo, hpos, hclamp, if_false, bind, Except.bind, hfit, hput₂,
      hres, if_true]
    rfl
  · obtain ⟨hok₃, hbinfo₃, hdata₃⟩ := hkeep ws₃ (Or.inr rfl)
    refine ⟨0, ws₃, ?_, hok₃, hdata₃.trans hdata₁', hle ws₃ hbinfo₃,
      Or.inr ⟨rfl, ⟨by omega, hfits, hres⟩, ?_, buf, hbuf, hcstr⟩⟩
    · simp only [mbtowcAndUpdateBufferInfo, hpos, hclamp, if_false, bind, Except.bind, hfit,
        hput₂, hres, hput₃]
      rfl
    · rw [hbinfo₃, hlimit₁]

end StepMid
