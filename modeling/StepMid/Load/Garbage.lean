import StepMid.Load.Record

/-!
# What a load does not depend on

New blocks come with arbitrary content, and a thread's buffers with what earlier loads left there.
None of this shows in what a load does.
-/

namespace StepMid

/-- The calls have the same results; the content of the block between them may differ. -/
structure Conversion.SameResults (c c' : Conversion) : Prop where
  required : c'.required = c.required
  block : c'.block.isSome = c.block.isSome
  written : c'.written = c.written
  result : c'.result = c.result

/-- The hosts answer alike; what their blocks contain and how wide their sizes are may differ. -/
structure Host.SameAnswers (host host' : Host) : Prop where
  past : host'.past = host.past
  heapBuf : ∀ size, (host'.heapBuf size).isSome = (host.heapBuf size).isSome
  convert : ∀ i text, (host.convert i text).SameResults (host'.convert i text)

section

variable {build : Build} {host host' : Host}

theorem Conversion.SameResults.yields {c c' : Conversion} (h : c.SameResults c')
    {s : List UInt16} (hc : c.Yields s) : c'.Yields s :=
  ⟨by rw [h.required, hc.required], by rw [h.written, hc.written]⟩

theorem Conversion.SameResults.succeeds_iff {c c' : Conversion} (h : c.SameResults c')
    (limit : Int) : c'.Succeeds limit ↔ c.Succeeds limit := by
  rw [Succeeds, Succeeds, h.required, h.block, h.result]

namespace Host.SameAnswers

theorem converts (h : host.SameAnswers host') {codePage : List UInt8 → List UInt16}
    (hconv : host.Converts codePage) : host'.Converts codePage := by
  intro i text hreq hresult
  rw [(h.convert i text).required] at hreq
  rw [(h.convert i text).result] at hresult
  exact (h.convert i text).yields (hconv i text hreq hresult)

theorem scanEvents_eq (h : host.SameAnswers host') (F : List UInt8) :
    scanEvents host' F = scanEvents host F := by
  rw [scanEvents, scanEvents, h.past]

theorem ready_iff (h : host.SameAnswers host') {tls tls' : Option TlsData}
    (htls : tls'.isSome = tls.isSome) (F : List UInt8) :
    LoadReady host' tls' F ↔ LoadReady host tls F := by
  have hbuffer : BufferObtained host' (scanEvents host' F) ↔
      BufferObtained host (scanEvents host F) := by
    rw [BufferObtained, BufferObtained, h.scanEvents_eq, h.heapBuf, clampedLength_eq,
      clampedLength_eq]
  constructor
  · intro hready
    refine ⟨?_, by rw [← htls, hready.data], hbuffer.mp hready.buffer⟩
    rw [← h.past, hready.accepted]
  · intro hready
    refine ⟨?_, by rw [htls, hready.data], hbuffer.mpr hready.buffer⟩
    rw [h.past, hready.accepted]

theorem deliverable_iff (h : host.SameAnswers host') (F : List UInt8) (events : Events)
    (i : Fin META_MAX) (limit : Int) :
    Deliverable build host' F events i limit ↔ Deliverable build host F events i limit := by
  rw [Deliverable, Deliverable, Settable, Settable, (h.convert i _).succeeds_iff]

theorem nextLimit_eq (h : host.SameAnswers host') (i : Fin META_MAX) (text : List UInt8)
    (limit : Int) : nextLimit build host' i text limit = nextLimit build host i text limit := by
  cases build with
  | STEP_M => rfl
  | STEP_K => simp only [nextLimit, (h.convert i text).required]

theorem delivered_eq (h : host.SameAnswers host') (F : List UInt8) (events : Events) (limit : Int)
    (is : List (Fin META_MAX)) :
    delivered build host' F events limit is = delivered build host F events limit is := by
  induction is generalizing limit with
  | nil => rfl
  | cons i is ih => simp only [delivered, h.deliverable_iff, h.nextLimit_eq, ih]

end Host.SameAnswers

/-- Requests that differ in the host's blocks and the thread's buffers deliver the same. -/
theorem Request.delivered_same (h : host.SameAnswers host') {nFileTypeMID : UInt32}
    {tls tls' : Option TlsData} (htls : tls'.isSome = tls.isSome) (file : Option (List UInt8)) :
    Request.delivered build ⟨nFileTypeMID, host', tls', file⟩ =
      Request.delivered build ⟨nFileTypeMID, host, tls, file⟩ := by
  cases file with
  | none => rfl
  | some F =>
    simp only [delivered, h.ready_iff htls F, deliveredAll, h.scanEvents_eq, h.delivered_eq]

/-- Nor do they differ in what they do. -/
theorem Request.load_same (h : host.SameAnswers host') {codePage : List UInt8 → List UInt16}
    (hconv : build = .STEP_K → host.Converts codePage) {tls tls' : Option TlsData}
    (htls : tls'.isSome = tls.isSome) (nFileTypeMID : UInt32) (file : Option (List UInt8))
    (info : FILE_INFO) :
    Request.load build ⟨nFileTypeMID, host', tls', file⟩ info =
      Request.load build ⟨nFileTypeMID, host, tls, file⟩ info := by
  have hload := Request.load_calls (q := ⟨nFileTypeMID, host, tls, file⟩) hconv info
  have hload' := Request.load_calls (q := ⟨nFileTypeMID, host', tls', file⟩)
    (fun hbuild => h.converts (hconv hbuild)) info
  have hdelivered : Request.delivered build ⟨nFileTypeMID, host', tls', file⟩ =
      Request.delivered build ⟨nFileTypeMID, host, tls, file⟩ := Request.delivered_same h htls file
  rw [hload, hload']
  simp only [Request.status, Request.calls, hdelivered, Request.handedText, h.scanEvents_eq, h.past]

end

/-- A load shows nothing of uninitialised memory or of what earlier loads left behind: it does the
same on hosts that answer alike, whatever their blocks and the thread's buffers contain. -/
theorem STEPLoad_uninitialised (build : Build) {host host' : Host} (h : host.SameAnswers host')
    {codePage : List UInt8 → List UInt16} (hconv : build = .STEP_K → host.Converts codePage)
    {tls tls' : Option TlsData} (htls : tls'.isSome = tls.isSome) (nFileTypeMID : UInt32)
    (file : Option (List UInt8)) (info : FILE_INFO) :
    STEPLoad build host' nFileTypeMID tls' file info =
      STEPLoad build host nFileTypeMID tls file info :=
  Request.load_same h hconv htls nFileTypeMID file info

/-- The plain host with other contents in its blocks and sizes of 32 bits. -/
def dirtyHost : Host :=
  { plainHost with
    sizeBits := 32
    sizeBits_ge := le_rfl
    heapBuf := fun _ => some fun _ => 7
    convert := fun i text => { plainHost.convert i text with block := some fun _ => 7 } }

/-- A thread's buffers after some load. -/
def TlsData.dirty : TlsData where
  metadataBuf := List.replicate STATIC_META_BUFFER_SIZE 7
  metadataWbuf := List.replicate STATIC_META_BUFFER_SIZE 7
  metadataBuf_length := List.length_replicate
  metadataWbuf_length := List.length_replicate

theorem dirtyHost_same : plainHost.SameAnswers dirtyHost :=
  ⟨rfl, fun _ => rfl, fun _ _ => ⟨rfl, rfl, rfl, rfl⟩⟩

theorem STEPLoad_uninitialised_dirtyHost :
    STEPLoad .STEP_K dirtyHost 1 (some .dirty) (some textFile) blankInfo =
      STEPLoad .STEP_K plainHost 1 (some .zeroed) (some textFile) blankInfo := by
  have htls : (some TlsData.dirty).isSome = (some TlsData.zeroed).isSome := rfl
  exact STEPLoad_uninitialised .STEP_K dirtyHost_same (fun _ => plainHost_converts) htls 1
    (some textFile) blankInfo

end StepMid
