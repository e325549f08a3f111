import StepMid.Load.ReadMetaEvent

/-!
# What is delivered

`readMetaEvent` delivers the records in order up to the first that cannot be read or converted.
No buffer is overrun and no block is used after it was freed, whatever the file, the allocations
and the conversions do.
-/

namespace StepMid

/-- The length read for a record; the largest one leaves room for the null. -/
def MetaEvent.localLength (r : MetaEvent) : Nat := min r.length.toNat (2 ^ 31 - 2)

/-- The text of a record, up to its first null. -/
def textOf (F : List UInt8) (r : MetaEvent) : List UInt8 :=
  Buffer.cstr ((F.drop r.offset.toNat).take r.localLength)

/-- The two calls convert to the wide string `s`. -/
structure Conversion.Yields (c : Conversion) (s : List UInt16) : Prop where
  required : c.required.toInt = s.length + 1
  written : c.written = s ++ [0]

section

variable (build : Build) (host : Host)

/-- The string is accepted by the conversion, where there is one. -/
def Settable (i : Fin META_MAX) (text : List UInt8) (limit : Int) : Prop :=
  build = .STEP_K → (host.convert i text).Succeeds limit

/-- The limit of the wide buffer after the string was delivered. -/
def nextLimit (i : Fin META_MAX) (text : List UInt8) (limit : Int) : Int :=
  match build with
  | .STEP_M => limit
  | .STEP_K => max limit (host.convert i text).required.toInt

/-- `s` is what the setter gets for `text`. -/
def IsText (i : Fin META_MAX) (text : List UInt8) (s : Str) : Prop :=
  match build with
  | .STEP_M => s = .narrow text
  | .STEP_K => ∀ wide, (host.convert i text).Yields wide → s = .wide (Buffer.cstr wide)

/-- The payload is inside the file and accepted by the conversion. -/
def Deliverable (F : List UInt8) (events : Events) (i : Fin META_MAX) (limit : Int) : Prop :=
  (events i).offset.toNat + (events i).localLength ≤ F.length ∧
    Settable build host i (textOf F (events i)) limit

end

instance (c : Conversion) (limit : Int) : Decidable (c.Succeeds limit) :=
  inferInstanceAs (Decidable (_ ∧ _ ∧ _))

instance (build : Build) (host : Host) (i : Fin META_MAX) (text : List UInt8) (limit : Int) :
    Decidable (Settable build host i text limit) :=
  inferInstanceAs (Decidable (_ → _))

instance (build : Build) (host : Host) (F : List UInt8) (events : Events) (i : Fin META_MAX)
    (limit : Int) : Decidable (Deliverable build host F events i limit) :=
  inferInstanceAs (Decidable (_ ∧ _))

/-! ## One setter call -/

/-- Only the byte buffer is written to. -/
structure Reader.Keeps (rd rd' : Reader) : Prop where
  length : rd'.buf.length = rd.buf.length
  heap : rd'.heap = rd.heap
  binfo : rd'.binfo = rd.binfo
  calls : rd'.calls = rd.calls
  reads : rd'.reads = rd.reads

theorem Reader.Keeps.trans {rd rd' rd'' : Reader} (h : rd.Keeps rd') (h' : rd'.Keeps rd'') :
    rd.Keeps rd'' where
  length := h'.length.trans h.length
  heap := h'.heap.trans h.heap
  binfo := h'.binfo.trans h.binfo
  calls := h'.calls.trans h.calls
  reads := h'.reads.trans h.reads

/-- A write inside the byte buffer. -/
theorem Reader.putBuf_spec (rd : Reader) (k : Nat) (xs : List UInt8)
    (h : k + xs.length ≤ rd.buf.length) :
    ∃ rd', rd.putBuf k xs = .ok rd' ∧ Buffer.put rd.buf k xs = some rd'.buf ∧ rd.Keeps rd' := by
  obtain ⟨buf, hput⟩ := Buffer.put_isSome.mpr h
  have hlen := Buffer.put_length hput
  cases hheap : rd.heapBuf with
  | none =>
    have hbuf₀ : rd.buf = rd.data.metadataBuf := by rw [Reader.buf, hheap, Option.getD_none]
    rw [hbuf₀] at hput
    obtain ⟨data, hdata, hbuf, -⟩ := TlsData.putBuf_some hput
    have hbuf' : ({ rd with data, writes := rd.writes ++ [data] } : Reader).buf = buf := by
      simp only [Reader.buf, hheap, Option.getD_none, hbuf]
    refine ⟨{ rd with data, writes := rd.writes ++ [data] }, ?_, ?_, ?_, rfl, rfl, rfl, rfl⟩
    · simp only [Reader.putBuf, hheap, hdata]
    · rw [hbuf₀, hput, hbuf']
    · rw [hbuf', hlen]
  | some heapBuf =>
    have hbuf₀ : rd.buf = heapBuf := by rw [Reader.buf, hheap, Option.getD_some]
    rw [hbuf₀] at hput
    refine ⟨{ rd with heapBuf := some buf }, ?_, ?_, hlen, rfl, rfl, rfl, rfl⟩
    · simp only [Reader.putBuf, hheap, hput]
    · rw [hbuf₀, hput]
      rfl

/-- A string and the null that closes it. -/
theorem Reader.putString_spec (rd : Reader) (xs : List UInt8) (h : xs.length < rd.buf.length) :
    ∃ rd₁ rd₂, rd.putBuf 0 xs = .ok rd₁ ∧ rd₁.putBuf xs.length [0] = .ok rd₂ ∧
      Buffer.cstr rd₂.buf = Buffer.cstr xs ∧ rd.Keeps rd₂ := by
  obtain ⟨rd₁, hput₁, hbuf₁, hkeep₁⟩ := rd.putBuf_spec 0 xs (by omega)
  have hroom : xs.length + [(0 : UInt8)].length ≤ rd₁.buf.length := by
    rw [hkeep₁.length]
    exact h
  obtain ⟨rd₂, hput₂, hbuf₂, hkeep₂⟩ := rd₁.putBuf_spec xs.length [0] hroom
  refine ⟨rd₁, rd₂, hput₁, hput₂, ?_, hkeep₁.trans hkeep₂⟩
  rw [Buffer.cstr_put_close le_rfl hbuf₁ hbuf₂, List.take_length]

theorem WideState.Ok.of_same {ws ws' : WideState} (h : ws.Ok) (hheap : ws'.heap = ws.heap)
    (hbinfo : ws'.binfo = ws.binfo) : ws'.Ok := by
  cases h with
  | tls h₁ h₂ h₃ h₄ =>
    rw [← hbinfo] at h₁ h₂ h₃
    rw [← hheap] at h₄
    exact .tls h₁ h₂ h₃ h₄
  | heap h₁ h₂ h₃ h₄ h₅ h₆ =>
    rw [← hbinfo] at h₁ h₂ h₄ h₅
    rw [← hheap] at h₃ h₆
    exact .heap h₁ h₂ h₃ h₄ h₅ h₆

/-- How a delivery of `text` for record `i` ends. -/
def Delivery (build : Build) (host : Host) (i : Fin META_MAX) (text : List UInt8)
    (rd rd' : Reader) : Prop :=
  rd'.binfo.wcharLengthWithNullLimit =
      nextLimit build host i text rd.binfo.wcharLengthWithNullLimit ∧
    ∃ s, rd'.calls = rd.calls ++ [(i, s)] ∧ IsText build host i text s

theorem callSetter_spec (build : Build) (host : Host) (i : Fin META_MAX) {rd : Reader}
    (hok : rd.toWideState.Ok) :
    ∃ ret rd', callSetter build host i rd = .ok (ret, rd') ∧ rd'.toWideState.Ok ∧
      rd'.buf = rd.buf ∧ rd'.reads = rd.reads ∧
      ((ret = -1 ∧ rd'.calls = rd.calls ∧
          ¬ Settable build host i (Buffer.cstr rd.buf) rd.binfo.wcharLengthWithNullLimit) ∨
        (ret = 0 ∧
          Settable build host i (Buffer.cstr rd.buf) rd.binfo.wcharLengthWithNullLimit ∧
          Delivery build host i (Buffer.cstr rd.buf) rd rd')) := by
  cases build with
  | STEP_M => exact ⟨0, _, rfl, hok, rfl, rfl, Or.inr ⟨rfl, nofun, rfl, _, rfl, rfl⟩⟩
  | STEP_K =>
    obtain ⟨ret, ws, hrun, hws, hkeep, -, hend⟩ := mbtowcAndUpdateBufferInfo_spec
      host.sizeBits_ge (host.convert i (Buffer.cstr rd.buf)) hok
    have hbuf : rd.heapBuf.getD ws.data.metadataBuf = rd.buf := by rw [Reader.buf, hkeep]
    rcases hend with ⟨rfl, hfail⟩ | ⟨rfl, hsucc, hlimit, wbuf, hwbuf, hstr⟩
    · refine ⟨-1, { rd with toWideState := ws, writes := rd.writes ++ [ws.data] }, ?_, hws, hbuf,
        rfl, Or.inl ⟨rfl, rfl, fun hset => hfail (hset rfl)⟩⟩
      simp only [callSetter, hrun, bind, Except.bind]
      rfl
    · refine ⟨0, { rd with
          toWideState := ws
          writes := rd.writes ++ [ws.data]
          calls := rd.calls ++ [(i, .wide (Buffer.cstr wbuf))] }, ?_, hws, hbuf, rfl,
        Or.inr ⟨rfl, fun _ => hsucc, hlimit, _, rfl, ?_⟩⟩
      · simp only [callSetter, hrun, bind, Except.bind, hwbuf]
        rfl
      · intro wide hyields
        rw [hstr wide hyields.required hyields.written]

/-! ## One event -/

/-- What a reader may assume of the records: their payloads start where the stream can be
positioned, and none is longer than `maxLength` allows for. -/
structure Readable (host : Host) (F : List UInt8) (maxLength : Int) (events : Events) : Prop where
  offset : ∀ i, (events i).length ≠ 0 → 0 ≤ (events i).offset ∧
    ((events i).offset.toNat ≤ F.length ∨ host.past (events i).offset.toNat = true)
  local_eq : ∀ i, (if maxLength < (events i).length.toInt then maxLength
    else (events i).length.toInt) = ((events i).localLength : Int)

/-- The count of a read is not negative and leaves room for the null in the buffer. -/
def BufRead.Safe (r : BufRead) : Prop :=
  0 ≤ r.length ∧ r.count = r.length.toNat ∧ r.length + 1 ≤ r.capacity

theorem Readable.local_le {host : Host} {F : List UInt8} {maxLength : Int} {events : Events}
    (h : Readable host F maxLength events) (i : Fin META_MAX) :
    ((events i).localLength : Int) ≤ maxLength := by
  have := h.local_eq i
  split at this <;> omega

private theorem localLength_le (r : MetaEvent) : (r.localLength : Int) ≤ INT_MAX := by
  rw [MetaEvent.localLength, INT_MAX]
  omega

private theorem localLength_pos {r : MetaEvent} (h : r.length ≠ 0) : 1 ≤ r.localLength := by
  have hne : r.length.toNat ≠ 0 := fun h0 => h (BitVec.eq_of_toNat_eq h0)
  rw [MetaEvent.localLength]
  omega

/-- Where the seek for a record leaves the stream. -/
def soughtStream (host : Host) (F : List UInt8) (r : MetaEvent) (fp : Stream) : Stream :=
  (fseek host.past F r.offset .SEEK_SET fp).getD fp

theorem Readable.sought {host : Host} {F : List UInt8} {maxLength : Int} {events : Events}
    (h : Readable host F maxLength events) {i : Fin META_MAX} (hi : (events i).length ≠ 0)
    (fp : Stream) : soughtStream host F (events i) fp = ⟨(events i).offset.toNat, false⟩ := by
  obtain ⟨hoff, hseek⟩ := h.offset i hi
  simp only [soughtStream, fseek]
  rw [if_neg (by omega), if_pos hseek, Option.getD_some]

/-- The read that is made for a record, with the stream at `fp`. -/
def Reader.readOf (rd : Reader) (r : MetaEvent) (fp : Stream) : BufRead :=
  ⟨fp.pos, rd.buf.length, r.localLength, r.localLength⟩

/-- All of the payload is asked for. -/
theorem readEvent_eq (build : Build) (host : Host) (F : List UInt8) {maxLength : Int}
    {events : Events} {i : Fin META_MAX} (hpresent : (events i).length ≠ 0)
    (hlocal : (if maxLength < (events i).length.toInt then maxLength
      else (events i).length.toInt) = ((events i).localLength : Int)) (rd : Reader) :
    let fp := soughtStream host F (events i) rd.fp
    let got := (F.drop fp.pos).take (events i).localLength
    readEvent build host F maxLength events i rd = (do
      let rd ← ({ rd with
        fp := (fread F (events i).localLength fp).2
        reads := rd.reads ++ [rd.readOf (events i) fp] } : Reader).putBuf 0 got
      if got.length < (events i).localLength then return (-1, rd)
      let rd ← rd.putBuf (events i).localLength [0]
      callSetter build host i rd) := by
  have hcount := toSize_of_nonneg host.sizeBits_ge (Int.natCast_nonneg _)
    (localLength_le (events i))
  rw [Int.toNat_natCast] at hcount
  have hnonneg : ¬ ((events i).localLength : Int) < 0 := by omega
  simp only [readEvent, hpresent, if_false, hlocal, hcount, hnonneg, Int.toNat_natCast]
  rfl

/-- Behind the read: a short one ends the event, a full one leads to the setter. -/
private theorem deliver_spec (build : Build) (host : Host) (i : Fin META_MAX) (rd : Reader)
    {got : List UInt8} {n : Nat} (hok : rd.toWideState.Ok) (hgot : got.length ≤ n)
    (hroom : n < rd.buf.length) :
    ∃ ret rd', (do
        let rd ← rd.putBuf 0 got
        if got.length < n then return (-1, rd)
        let rd ← rd.putBuf n [0]
        callSetter build host i rd : Except Fault (Int × Reader)) = .ok (ret, rd') ∧
      rd'.toWideState.Ok ∧ rd'.buf.length = rd.buf.length ∧ rd'.reads = rd.reads ∧
      ((ret = -1 ∧ rd'.calls = rd.calls ∧ ¬ (got.length = n ∧
          Settable build host i (Buffer.cstr got) rd.binfo.wcharLengthWithNullLimit)) ∨
        (ret = 0 ∧ (got.length = n ∧
            Settable build host i (Buffer.cstr got) rd.binfo.wcharLengthWithNullLimit) ∧
          Delivery build host i (Buffer.cstr got) rd rd')) := by
  by_cases hshort : got.length < n
  · obtain ⟨rd₁, hput, -, hkeep⟩ := rd.putBuf_spec 0 got (by omega)
    have hok₁ : rd₁.toWideState.Ok := hok.of_same hkeep.heap hkeep.binfo
    refine ⟨-1, rd₁, ?_, hok₁, hkeep.length, hkeep.reads,
      Or.inl ⟨rfl, hkeep.calls, fun hfull => ?_⟩⟩
    · simp only [hput, bind, Except.bind, hshort, if_true]
      rfl
    · omega
  · have hfull : got.length = n := by omega
    subst hfull
    obtain ⟨rd₁, rd₂, hput₁, hput₂, htext, hkeep⟩ := rd.putString_spec got hroom
    have hok₂ : rd₂.toWideState.Ok := hok.of_same hkeep.heap hkeep.binfo
    obtain ⟨ret, rd₃, hset, hok₃, hbuf₃, hreads₃, hend⟩ := callSetter_spec build host i hok₂
    refine ⟨ret, rd₃, ?_, hok₃, ?_, hreads₃.trans hkeep.reads, ?_⟩
    · simp only [hput₁, bind, Except.bind, hshort, if_false, hput₂]
      exact hset
    · rw [hbuf₃, hkeep.length]
    rw [htext, hkeep.binfo, hkeep.calls] at hend
    rcases hend with ⟨hret, hcalls, hno⟩ | ⟨hret, hyes, hnext, c, hcalls, hc⟩
    · exact Or.inl ⟨hret, hcalls, fun hdel => hno hdel.2⟩
    · refine Or.inr ⟨hret, ⟨rfl, hyes⟩, ?_, c, ?_, hc⟩
      · rw [hnext, hkeep.binfo]
      · rw [hcalls, hkeep.calls]

/-- Reading one event from wherever the seek leads. -/
theorem readEvent_run (build : Build) (host : Host) (F : List UInt8) {maxLength : Int}
    {events : Events} {i : Fin META_MAX} (hpresent : (events i).length ≠ 0)
    (hlocal : (if maxLength < (events i).length.toInt then maxLength
      else (events i).length.toInt) = ((events i).localLength : Int)) {rd : Reader}
    (hok : rd.toWideState.Ok) (hroom : maxLength + 1 ≤ rd.buf.length) :
    let fp := soughtStream host F (events i) rd.fp
    let got := (F.drop fp.pos).take (events i).localLength
    ∃ ret rd', readEvent build host F maxLength events i rd = .ok (ret, rd') ∧
      rd'.toWideState.Ok ∧ rd'.buf.length = rd.buf.length ∧
      rd'.reads = rd.reads ++ [rd.readOf (events i) fp] ∧
      ((ret = -1 ∧ rd'.calls = rd.calls ∧ ¬ (got.length = (events i).localLength ∧
          Settable build host i (Buffer.cstr got) rd.binfo.wcharLengthWithNullLimit)) ∨
        (ret = 0 ∧ (got.length = (events i).localLength ∧
            Settable build host i (Buffer.cstr got) rd.binfo.wcharLengthWithNullLimit) ∧
          Delivery build host i (Buffer.cstr got) rd rd')) := by
  intro fp got
  have hrun := readEvent_eq build host F hpresent hlocal rd
  let rd₀ : Reader :=
    { rd with
      fp := (fread F (events i).localLength fp).2
      reads := rd.reads ++ [rd.readOf (events i) fp] }
  have hroom₀ : (events i).localLength < rd₀.buf.length := by
    change (events i).localLength < rd.buf.length
    split at hlocal <;> omega
  obtain ⟨ret, rd', hrun', hrest⟩ :=
    deliver_spec build host i rd₀ hok (List.length_take_le (events i).localLength _) hroom₀
  exact ⟨ret, rd', hrun.trans hrun', hrest⟩

/-- Reading one event: either its setter is called with its text, or nothing is delivered. -/
theorem readEvent_spec (build : Build) (host : Host) {F : List UInt8} {maxLength : Int}
    {events : Events} (hread : Readable host F maxLength events) {i : Fin META_MAX} {rd : Reader}
    (hpresent : (events i).length ≠ 0) (hok : rd.toWideState.Ok)
    (hroom : maxLength + 1 ≤ rd.buf.length) :
    ∃ ret rd', readEvent build host F maxLength events i rd = .ok (ret, rd') ∧
      rd'.toWideState.Ok ∧ rd'.buf.length = rd.buf.length ∧
      (∃ r, rd'.reads = rd.reads ++ [r] ∧ r.Safe) ∧
      ((ret = -1 ∧ rd'.calls = rd.calls ∧
          ¬ Deliverable build host F events i rd.binfo.wcharLengthWithNullLimit) ∨
        (ret = 0 ∧ Deliverable build host F events i rd.binfo.wcharLengthWithNullLimit ∧
          Delivery build host i (textOf F (events i)) rd rd')) := by
  have hle := hread.local_le i
  have hpos := localLength_pos hpresent
  have hlen : ((F.drop (events i).offset.toNat).take (events i).localLength).length =
      min (events i).localLength (F.length - (events i).offset.toNat) := by
    rw [List.length_take, List.length_drop]
  have hinside : Deliverable build host F events i rd.binfo.wcharLengthWithNullLimit ↔
      ((F.drop (events i).offset.toNat).take (events i).localLength).length =
          (events i).localLength ∧
        Settable build host i (textOf F (events i)) rd.binfo.wcharLengthWithNullLimit := by
    refine and_congr_left fun _ => ?_
    omega
  have hsafe (fp : Stream) : (rd.readOf (events i) fp).Safe :=
    ⟨Int.natCast_nonneg _, (Int.toNat_natCast _).symm, by simp only [Reader.readOf]; omega⟩
  obtain ⟨ret, rd', hrun, hok', hlen', hreads, hend⟩ :=
    readEvent_run build host F hpresent (hread.local_eq i) hok hroom
  simp only [hread.sought hpresent] at hend
  rw [hinside]
  exact ⟨ret, rd', hrun, hok', hlen', ⟨_, hreads, hsafe _⟩, hend⟩

/-! ## The loop -/

/-- The records delivered from the list, and whether that is all of them. -/
def delivered (build : Build) (host : Host) (F : List UInt8) (events : Events) :
    Int → List (Fin META_MAX) → List (Fin META_MAX) × Bool
  | _, [] => ([], true)
  | limit, i :: is =>
    if (events i).length = 0 then delivered build host F events limit is
    else if Deliverable build host F events i limit then
      let rest := delivered build host F events
        (nextLimit build host i (textOf F (events i)) limit) is
      (i :: rest.1, rest.2)
    else ([], false)

theorem delivered_all {build : Build} {host : Host} {F : List UInt8} {events : Events}
    {is : List (Fin META_MAX)}
    (h : ∀ i ∈ is, (events i).length ≠ 0 → ∀ limit, Deliverable build host F events i limit)
    (limit : Int) : (delivered build host F events limit is).2 = true := by
  induction is generalizing limit with
  | nil => rfl
  | cons i is ih =>
    have hrest := ih fun j hj => h j (List.mem_cons_of_mem i hj)
    rw [delivered]
    by_cases habsent : (events i).length = 0
    · rw [if_pos habsent]
      exact hrest limit
    · rw [if_neg habsent, if_pos (h i List.mem_cons_self habsent limit)]
      exact hrest _

theorem readEvents_spec (build : Build) (host : Host) {F : List UInt8} {maxLength : Int}
    {events : Events} (hread : Readable host F maxLength events) (is : List (Fin META_MAX))
    {rd : Reader} (hok : rd.toWideState.Ok) (hroom : maxLength + 1 ≤ rd.buf.length) :
    ∃ ret rd' cs rs, readEvents build host F maxLength events is rd = .ok (ret, rd') ∧
      rd'.toWideState.Ok ∧ rd'.buf.length = rd.buf.length ∧ rd'.calls = rd.calls ++ cs ∧
      cs.map Prod.fst =
        (delivered build host F events rd.binfo.wcharLengthWithNullLimit is).1 ∧
      (∀ c ∈ cs, IsText build host c.1 (textOf F (events c.1)) c.2) ∧
      ret = (if (delivered build host F events rd.binfo.wcharLengthWithNullLimit is).2 then 0
        else -1) ∧
      rd'.reads = rd.reads ++ rs ∧ ∀ r ∈ rs, r.Safe := by
  induction is generalizing rd with
  | nil => exact ⟨0, rd, [], [], rfl, hok, rfl, by simp, rfl, by simp, rfl, by simp, by simp⟩
  | cons i is ih =>
    by_cases hpresent : (events i).length = 0
    · have hskip : readEvent build host F maxLength events i rd = .ok (0, rd) := by
        simp only [readEvent, hpresent, if_true]
      obtain ⟨ret, rd', cs, rs, hrun, hrest⟩ := ih hok hroom
      refine ⟨ret, rd', cs, rs, ?_, ?_⟩
      · simp only [readEvents, hskip, bind, Except.bind]
        exact hrun
      · simpa only [delivered, hpresent, if_true] using hrest
    · obtain ⟨ret₁, rd₁, hrun₁, hok₁, hlen₁, ⟨r, hreads₁, hsafe⟩, hend⟩ :=
        readEvent_spec build host hread hpresent hok hroom
      rcases hend with ⟨rfl, hcalls₁, hno⟩ | ⟨rfl, hyes, hlimit₁, s, hcalls₁, hs⟩
      · refine ⟨-1, rd₁, [], [r], ?_, hok₁, hlen₁, ?_, ?_, by simp, ?_, hreads₁,
          by simpa using hsafe⟩
        · simp only [readEvents, hrun₁, bind, Except.bind]
          rfl
        · rw [hcalls₁, List.append_nil]
        · simp only [delivered, hpresent, hno, if_false, List.map_nil]
        · simp only [delivered, hpresent, hno, if_false, Bool.false_eq_true]
      · obtain ⟨ret, rd', cs, rs, hrun, hok', hlen', hcalls, hfst, htext, hret, hreads, hsafe'⟩ :=
          ih hok₁ (by rw [hlen₁]; exact hroom)
        rw [hlimit₁] at hfst hret
        refine ⟨ret, rd', (i, s) :: cs, r :: rs, ?_, hok', hlen'.trans hlen₁, ?_, ?_, ?_, ?_, ?_,
          ?_⟩
        · simp only [readEvents, hrun₁, bind, Except.bind]
          exact hrun
        · rw [hcalls, hcalls₁, List.append_assoc, List.singleton_append]
        · simp only [delivered, hpresent, hyes, if_false, if_true, List.map_cons, hfst]
        · exact List.forall_mem_cons.mpr ⟨hs, htext⟩
        · simpa only [delivered, hpresent, hyes, if_false, if_true] using hret
        · rw [hreads, hreads₁, List.append_assoc, List.singleton_append]
        · exact List.forall_mem_cons.mpr ⟨hsafe, hsafe'⟩

/-! ## The whole function -/

private theorem maxLengthStep_spec (events : Events) (m : Int) (i : Fin META_MAX) :
    m ≤ maxLengthStep events m i ∧ (events i).length.toInt ≤ maxLengthStep events m i ∧
      (m ≤ INT_MAX → maxLengthStep events m i ≤ INT_MAX) := by
  have hint : (events i).length.toInt ≤ INT_MAX := by
    have := BitVec.toInt_lt (x := (events i).length)
    rw [INT_MAX]
    omega
  rw [maxLengthStep]
  split <;> omega

private theorem foldl_max (events : Events) (is : List (Fin META_MAX)) (m : Int) :
    m ≤ is.foldl (maxLengthStep events) m ∧
      (∀ i ∈ is, (events i).length.toInt ≤ is.foldl (maxLengthStep events) m) ∧
      (m ≤ INT_MAX → is.foldl (maxLengthStep events) m ≤ INT_MAX) := by
  induction is generalizing m with
  | nil => exact ⟨le_refl m, by simp, id⟩
  | cons i is ih =>
    obtain ⟨hm, hi, hint⟩ := maxLengthStep_spec events m i
    obtain ⟨hle, hall, hmax⟩ := ih (maxLengthStep events m i)
    rw [List.foldl_cons]
    exact ⟨hm.trans hle, List.forall_mem_cons.mpr ⟨hi.trans hle, hall⟩, fun h => hmax (hint h)⟩

theorem getMaxMetaEventLength_spec (events : Events) :
    0 ≤ getMaxMetaEventLength events ∧ getMaxMetaEventLength events ≤ INT_MAX ∧
      ∀ i, (events i).length.toInt ≤ getMaxMetaEventLength events := by
  obtain ⟨hle, hall, hmax⟩ := foldl_max events (List.finRange META_MAX) 0
  exact ⟨hle, hmax (by decide), fun i => hall i (List.mem_finRange i)⟩

/-- The largest length is at most any bound of all of them. -/
theorem getMaxMetaEventLength_le {events : Events} {m : Int} (hm : 0 ≤ m)
    (h : ∀ i, (events i).length.toInt ≤ m) : getMaxMetaEventLength events ≤ m := by
  rw [getMaxMetaEventLength]
  refine List.foldlRecOn (motive := fun maxLength => maxLength ≤ m) _ _ hm ?_
  intro maxLength hle i _
  rw [maxLengthStep]
  have := h i
  split <;> omega

theorem clampedLength_eq (host : Host) (events : Events) :
    clampedLength host events = min (getMaxMetaEventLength events) (INT_MAX - 1) := by
  rw [clampedLength, maxCount_eq host.sizeBits_ge (Or.inl rfl)]
  split <;> omega

/-- Lengths that an `int` can hold are read in full, but for the last byte of the longest one. -/
theorem Readable.of_le {host : Host} {F : List UInt8} {events : Events} {maxLength : Int}
    (hmax : clampedLength host events ≤ maxLength) (hclamp : maxLength ≤ INT_MAX - 1)
    (hlen : ∀ i, (events i).length.toNat < 2 ^ 31)
    (hoff : ∀ i, (events i).length ≠ 0 → 0 ≤ (events i).offset ∧
      ((events i).offset.toNat ≤ F.length ∨ host.past (events i).offset.toNat = true)) :
    Readable host F maxLength events := by
  refine ⟨hoff, ?_⟩
  intro i
  have hint : (events i).length.toInt = ((events i).length.toNat : Int) :=
    BitVec.toInt_eq_toNat_of_lt (by have := hlen i; omega)
  have hle := (getMaxMetaEventLength_spec events).2.2 i
  have hlt := hlen i
  rw [clampedLength_eq] at hmax
  rw [MetaEvent.localLength]
  rw [INT_MAX] at hmax hclamp
  rw [hint] at hle ⊢
  split <;> omega

theorem Readable.of_length {host : Host} {F : List UInt8} {events : Events}
    (hlen : ∀ i, (events i).length.toNat < 2 ^ 31)
    (hoff : ∀ i, (events i).length ≠ 0 → 0 ≤ (events i).offset ∧
      ((events i).offset.toNat ≤ F.length ∨ host.past (events i).offset.toNat = true)) :
    Readable host F (clampedLength host events) events :=
  .of_le le_rfl (by rw [clampedLength_eq]; exact min_le_right _ _) hlen hoff

/-- The byte buffer is the thread's own or could be allocated. -/
def BufferObtained (host : Host) (events : Events) : Prop :=
  clampedLength host events + 1 ≤ (STATIC_META_BUFFER_SIZE : Int) ∨
    (host.heapBuf (clampedLength host events + 1).toNat).isSome = true

instance (host : Host) (events : Events) : Decidable (BufferObtained host events) :=
  inferInstanceAs (Decidable (_ ∨ _))

theorem finish_spec (ret : Int) {rd : Reader} (hok : rd.toWideState.Ok) :
    ∃ r, finish ret rd = .ok r ∧ r.ret = ret ∧ r.calls = rd.calls ∧ r.reads = rd.reads ∧
      ∀ p, ¬ r.heap.Live p := by
  cases hok with
  | tls hheap _ _ hlive =>
    refine ⟨_, by simp only [finish, hheap]; rfl, rfl, rfl, rfl, hlive⟩
  | @heap p block hheap _ hblock _ _ hlive =>
    obtain ⟨heap, hfree⟩ := Heap.free_some (Heap.live_of_block hblock)
    exact ⟨_, by simp only [finish, hheap, hfree]; rfl, rfl, rfl, rfl, Heap.free_last hfree hlive⟩

theorem Reader.start_ok (data : TlsData) (fp : Stream) : (Reader.start data fp).toWideState.Ok :=
  .tls rfl rfl rfl fun p hp => by
    rw [Heap.Live] at hp
    cases hp

/-- The records that a load delivers, and whether it delivers all. -/
def deliveredAll (build : Build) (host : Host) (F : List UInt8) (events : Events) :
    List (Fin META_MAX) × Bool :=
  delivered build host F events STATIC_META_BUFFER_SIZE (List.finRange META_MAX)

/-- The loop and the label `finish` behind it. -/
def readLoop (build : Build) (host : Host) (F : List UInt8) (events : Events) (rd : Reader) :
    Except Fault ReadReturn := do
  let (ret, rd) ← readEvents build host F (clampedLength host events) events
    (List.finRange META_MAX) rd
  finish ret rd

private theorem readLoop_spec (build : Build) (host : Host) {F : List UInt8} {events : Events}
    (hread : Readable host F (clampedLength host events) events) {rd : Reader}
    (hok : rd.toWideState.Ok) (hroom : clampedLength host events + 1 ≤ rd.buf.length)
    (hlimit : rd.binfo.wcharLengthWithNullLimit = STATIC_META_BUFFER_SIZE) (hcalls : rd.calls = [])
    (hreads : rd.reads = []) :
    ∃ r, readLoop build host F events rd = .ok r ∧ (∀ p, ¬ r.heap.Live p) ∧
      (∀ b ∈ r.reads, b.Safe) ∧
      r.calls.map Prod.fst = (deliveredAll build host F events).1 ∧
      (∀ c ∈ r.calls, IsText build host c.1 (textOf F (events c.1)) c.2) ∧
      r.ret = if (deliveredAll build host F events).2 then 0 else -1 := by
  obtain ⟨ret, rd', cs, rs, hrun, hok', -, hcalls', hfst, htext, hret, hreads', hsafe⟩ :=
    readEvents_spec build host hread (List.finRange META_MAX) hok hroom
  obtain ⟨r, hr, hrret, hrcalls, hrreads, hlive⟩ := finish_spec ret hok'
  rw [hlimit] at hfst hret
  rw [hcalls, List.nil_append] at hcalls'
  rw [hreads, List.nil_append] at hreads'
  refine ⟨r, ?_, hlive, ?_, ?_, ?_, hrret.trans hret⟩
  · simp only [readLoop, hrun, bind, Except.bind]
    exact hr
  · rw [hrreads, hreads']
    exact hsafe
  · rw [hrcalls, hcalls']
    exact hfst
  · rw [hrcalls, hcalls']
    exact htext

/-- `lengthWithNullLimit` does not leave the range of an `int`. -/
private theorem limit_le (host : Host) (events : Events) :
    0 ≤ clampedLength host events ∧ ¬ INT_MAX < clampedLength host events + 1 := by
  have hmax := clampedLength_eq host events
  obtain ⟨hzero, hint, -⟩ := getMaxMetaEventLength_spec events
  rw [INT_MAX] at hmax hint ⊢
  omega

/-- The size asked for is that of an `int`. -/
theorem BufferObtained.of_grants {host : Host}
    (h : ∀ size < 2 ^ 31, (host.heapBuf size).isSome = true) (events : Events) :
    BufferObtained host events := by
  have hover := (limit_le host events).2
  rw [INT_MAX] at hover
  exact Or.inr (h _ (by omega))

theorem readMetaEvent_small (build : Build) {host : Host} (F : List UInt8) {events : Events}
    (h : clampedLength host events + 1 ≤ STATIC_META_BUFFER_SIZE) (data : TlsData) (fp : Stream) :
    readMetaEvent build host F (some data) fp events =
      readLoop build host F events (Reader.start data fp) := by
  have hover := (limit_le host events).2
  have hlarge : ¬ (STATIC_META_BUFFER_SIZE : Int) < clampedLength host events + 1 := by omega
  simp only [readMetaEvent, hover, hlarge, if_false]
  rfl

/-- The reader with a buffer of its own for a record as long as `maxLength`. -/
def Reader.startLarge (data : TlsData) (fp : Stream) (garbage : Nat → UInt8) (maxLength : Int) :
    Reader :=
  (Reader.start data fp).allocBuf garbage (maxLength + 1).toNat

theorem readMetaEvent_large (build : Build) {host : Host} (F : List UInt8) {events : Events}
    (h : STATIC_META_BUFFER_SIZE < clampedLength host events + 1) (data : TlsData) (fp : Stream) :
    readMetaEvent build host F (some data) fp events =
      match host.heapBuf (clampedLength host events + 1).toNat with
      | none => finish (-1) (Reader.start data fp)
      | some garbage => readLoop build host F events
          (Reader.startLarge data fp garbage (clampedLength host events)) := by
  obtain ⟨hzero, hover⟩ := limit_le host events
  have hsize := toSize_of_nonneg host.sizeBits_ge (n := clampedLength host events + 1) (by omega)
    (by omega)
  simp only [readMetaEvent, hover, h, if_false, if_true, hsize]
  rfl

theorem Reader.startLarge_buf (data : TlsData) (fp : Stream) (garbage : Nat → UInt8)
    (maxLength : Int) :
    (Reader.startLarge data fp garbage maxLength).buf.length = (maxLength + 1).toNat := by
  rw [Reader.startLarge, Reader.buf, Reader.allocBuf, Option.getD_some, List.length_map,
    List.length_range]

theorem Reader.start_buf (data : TlsData) (fp : Stream) :
    (Reader.start data fp).buf.length = STATIC_META_BUFFER_SIZE :=
  data.metadataBuf_length

/-- With its byte buffer `readMetaEvent` comes to the loop. -/
theorem readMetaEvent_obtained (build : Build) {host : Host} (F : List UInt8) {events : Events}
    (h : BufferObtained host events) (data : TlsData) (fp : Stream) :
    ∃ rd : Reader, readMetaEvent build host F (some data) fp events =
        readLoop build host F events rd ∧
      rd.toWideState.Ok ∧ clampedLength host events + 1 ≤ rd.buf.length ∧
      rd.binfo.wcharLengthWithNullLimit = STATIC_META_BUFFER_SIZE ∧ rd.calls = [] ∧
      rd.reads = [] := by
  have hstart := Reader.start_ok data fp
  rcases lt_or_ge (STATIC_META_BUFFER_SIZE : Int) (clampedLength host events + 1) with
    hlarge | hsmall
  · obtain ⟨garbage, hheap⟩ := Option.isSome_iff_exists.mp (h.resolve_left (by omega))
    refine ⟨Reader.startLarge data fp garbage (clampedLength host events), ?_, hstart, ?_, rfl,
      rfl, rfl⟩
    · rw [readMetaEvent_large build F hlarge, hheap]
    · rw [Reader.startLarge_buf]
      exact Int.self_le_toNat _
  · refine ⟨Reader.start data fp, readMetaEvent_small build F hsmall data fp, hstart, ?_, rfl, rfl,
      rfl⟩
    rw [Reader.start_buf]
    exact hsmall

/-- Without it the loop is passed by. -/
theorem readMetaEvent_refused (build : Build) {host : Host} (F : List UInt8) {events : Events}
    (h : ¬ BufferObtained host events) (data : TlsData) (fp : Stream) :
    readMetaEvent build host F (some data) fp events = finish (-1) (Reader.start data fp) := by
  rw [BufferObtained, not_or, Option.not_isSome_iff_eq_none] at h
  obtain ⟨hlarge, hnone⟩ := h
  rw [readMetaEvent_large build F (by omega), hnone]

/-- `readMetaEvent` with a thread's data: no fault, no block left over, and the deliverable
records in order. -/
theorem readMetaEvent_spec (build : Build) (host : Host) {F : List UInt8} {events : Events}
    (hread : Readable host F (clampedLength host events) events) (data : TlsData) (fp : Stream) :
    ∃ r, readMetaEvent build host F (some data) fp events = .ok r ∧ (∀ p, ¬ r.heap.Live p) ∧
      (∀ b ∈ r.reads, b.Safe) ∧
      if BufferObtained host events then
        r.calls.map Prod.fst = (deliveredAll build host F events).1 ∧
        (∀ c ∈ r.calls, IsText build host c.1 (textOf F (events c.1)) c.2) ∧
        r.ret = if (deliveredAll build host F events).2 then 0 else -1
      else r.calls = [] ∧ r.ret = -1 := by
  by_cases hbuffer : BufferObtained host events
  · obtain ⟨rd, hrun, hok, hroom, hlimit, hcalls, hreads⟩ :=
      readMetaEvent_obtained build F hbuffer data fp
    simp only [hrun, hbuffer, if_true]
    exact readLoop_spec build host hread hok hroom hlimit hcalls hreads
  · obtain ⟨r, hr, hret, hcalls, hreads, hlive⟩ := finish_spec (-1) (Reader.start_ok data fp)
    rw [readMetaEvent_refused build F hbuffer]
    refine ⟨r, hr, hlive, ?_, ?_⟩
    · rw [hreads]
      simp [Reader.start]
    · rw [if_neg hbuffer]
      exact ⟨hcalls, hret⟩

end StepMid
