import StepMid.Smf.Reading

/-!
# Records and chunks

Files made of chunks with exact length fields and arbitrary bodies. The scan never looks at a
length field, so a record lies in the chunk it names only when reading on from event to event
leads to its event inside that chunk.
-/

namespace StepMid

structure Chunk where
  lengthField : List UInt8
  body : List UInt8
  lengthField_length : lengthField.length = 4
  declared_eq : Radix.value 256 (lengthField.map UInt8.toNat) = body.length

namespace Chunk

/-- The length that the length field declares. -/
def declared (c : Chunk) : Nat := Radix.value 256 (c.lengthField.map UInt8.toNat)

def bytes (c : Chunk) : List UInt8 := MTrk ++ c.lengthField ++ c.body

end Chunk

structure ChunkFile where
  header : List UInt8
  chunks : List Chunk
  header_length : header.length = 6

/-- The chunks from `pos` on, each with the position of its length field. -/
def chunksFrom : Nat → List Chunk → List (Nat × Chunk)
  | _, [] => []
  | pos, c :: cs => (pos + 4, c) :: chunksFrom (pos + c.bytes.length) cs

namespace ChunkFile

def bytes (m : ChunkFile) : List UInt8 :=
  MThd ++ [0, 0, 0, 6] ++ m.header ++ m.chunks.flatMap Chunk.bytes

def located (m : ChunkFile) : List (Nat × Chunk) := chunksFrom 14 m.chunks

/-- The header of the meta event at `q` lies in the body of the chunk whose length field is at
`trkLenOffset`. -/
def InBody (m : ChunkFile) (trkLenOffset : Int) (q : Nat) : Prop :=
  ∃ t c, (t, c) ∈ m.located ∧ trkLenOffset = (t : Nat) ∧ t + 4 ≤ q ∧
    metaEnd m.bytes q ≤ t + 4 + c.declared

/-- Record `i` belongs to the track it names, which is the first one for the sequence name. -/
def Belongs (m : ChunkFile) (i : Fin META_MAX) (r : MetaEvent) : Prop :=
  ∃ q, RecordAt m.bytes i q r ∧ m.InBody r.trkLenOffset q ∧
    (i = META_SEQNAME → r.trkLenOffset = 18)

/-- For each record, the first event met on the way from event to event lies in the body of the
chunk that it is met in. -/
def FirstsInBody (m : ChunkFile) : Prop :=
  ∀ i trkLenOffset q, Meets m.bytes i trkLenOffset q →
    (∀ trkLenOffset' q', Meets m.bytes i trkLenOffset' q' → q ≤ q') → m.InBody trkLenOffset q

end ChunkFile

/-! ## Closed chunks -/

/-- The events from `p` on come to an End-of-Track event, which ends at `e`. -/
inductive EndsAt (F : List UInt8) (e : Nat) : CInt → Nat → Prop
  | endOfTrack {rs : CInt} {p q : Nat} : MetaAt F p q 0x2f → metaEnd F q = e → EndsAt F e rs p
  | event {rs rs' : CInt} {p p' : Nat} : EventAt F rs p rs' p' → EndsAt F e rs' p' → EndsAt F e rs p

/-- The events of every chunk take up its body, up to an End-of-Track event at its end. -/
def ChunkFile.Closed (m : ChunkFile) : Prop :=
  ∀ t c, (t, c) ∈ m.located → EndsAt m.bytes (t + 4 + c.declared) (-1) (t + 4)

theorem EndsAt.lt {F : List UInt8} {e : Nat} {rs : CInt} {p : Nat} (h : EndsAt F e rs p) :
    p < e := by
  induction h with
  | endOfTrack hm hend =>
    have := hm.lt
    rw [← hend, metaEnd]
    omega
  | event hev _ ih => exact hev.lt.trans ih

namespace ChunkFile

variable {m : ChunkFile} {past : Nat → Bool}

/-- Where the chunk behind `done` starts. -/
def startOf (done : List Chunk) : Nat := 14 + (done.flatMap Chunk.bytes).length

theorem mem_chunksFrom {done cs : List Chunk} {c : Chunk} (pos : Nat) :
    (pos + (done.flatMap Chunk.bytes).length + 4, c) ∈ chunksFrom pos (done ++ c :: cs) := by
  induction done generalizing pos with
  | nil => exact List.mem_cons_self
  | cons d done ih =>
    have hmem := ih (pos + d.bytes.length)
    rw [List.flatMap_cons, List.length_append, ← Nat.add_assoc]
    exact List.mem_cons_of_mem _ hmem

/-- The scan is at the start of a chunk or behind the last one, or at an event of a closed body. -/
def InStep (m : ChunkFile) : ScanState → Prop
  | .track s => ∃ done cs, m.chunks = done ++ cs ∧ s.fp.pos = startOf done
  | .event s => ∃ done c cs, m.chunks = done ++ c :: cs ∧
      s.trkLenOffset = (startOf done + 4 : Nat) ∧ startOf done + 8 ≤ s.fp.pos ∧
      EndsAt m.bytes (startOf done + 8 + c.declared) s.runningStatus s.fp.pos

theorem mem_located {done cs : List Chunk} {c : Chunk} (h : m.chunks = done ++ c :: cs) :
    (startOf done + 4, c) ∈ m.located := by
  rw [located, h]
  exact mem_chunksFrom 14

theorem bytes_length (m : ChunkFile) : m.bytes.length = startOf m.chunks := by
  have hlen := m.header_length
  rw [bytes, List.length_append, List.length_append, hlen]
  rfl

private theorem startOf_snoc (done : List Chunk) (c : Chunk) :
    startOf (done ++ [c]) = startOf done + 8 + c.declared := by
  have hlen := c.lengthField_length
  have hdeclared : c.declared = c.body.length := c.declared_eq
  have hfour : MTrk.length = 4 := rfl
  rw [startOf, startOf, List.flatMap_append, List.length_append, List.flatMap_singleton,
    Chunk.bytes, List.length_append, List.length_append, hlen, hfour, hdeclared]
  omega

private theorem inStep_track (hclosed : m.Closed) {s t : Scan}
    (hs : m.InStep (.track s)) (hstep : scanStep past m.bytes (.track s) = .inl (.event t)) :
    m.InStep (.event t) := by
  obtain ⟨done, cs, hchunks, hpos⟩ := hs
  obtain ⟨hsig, -, -, ht⟩ := scanStep_track_inl hstep
  cases ht
  cases cs with
  | nil =>
    have hinside := take_four_length hsig
    rw [m.bytes_length, hpos, hchunks, List.append_nil] at hinside
    omega
  | cons c cs =>
    have hend := hclosed _ c (mem_located hchunks)
    refine ⟨done, c, cs, hchunks, ?_, ?_, ?_⟩
    · simp only [Scan.enterTrack, hpos]
    · simp only [Scan.enterTrack, hpos]
      omega
    · simp only [Scan.enterTrack, hpos]
      exact hend

private theorem inStep_event {s : Scan} {v : ScanState} (hs : m.InStep (.event s))
    (hstep : scanStep past m.bytes (.event s) = .inl v) : m.InStep v := by
  obtain ⟨done, c, cs, hchunks, htrk, hpos, hend⟩ := hs
  cases hend with
  | endOfTrack hm hmeta =>
    have hturn := eventTurn_meta hm
    rw [if_pos rfl] at hturn
    simp only [scanStep, hturn, leaveTrack] at hstep
    split at hstep <;> cases hstep
    refine ⟨done ++ [c], cs, by rw [hchunks, List.append_assoc]; rfl, ?_⟩
    rw [startOf_snoc, ← hmeta]
    rfl
  | event hev hrest =>
    rcases hev.turn with ⟨off, u, hturn, hstatus, hnext, htrk', -⟩ | ⟨e, u, hturn⟩
    · simp only [scanStep, hturn] at hstep
      split at hstep <;> cases hstep
      rename_i hseek
      have hlt := hev.lt
      refine ⟨done, c, cs, hchunks, htrk'.trans htrk, ?_, ?_⟩
      · simp only [(fseekULong_some hseek).2]
        omega
      · simp only [(fseekULong_some hseek).2, hstatus, hnext]
        exact hrest
    · simp only [scanStep, hturn, reduceCtorEq] at hstep

end ChunkFile

/-! ## Records and their events -/

/-- In a file of closed chunks the scan records events inside the chunks it has entered. -/
theorem ChunkFile.Closed.inBody {m : ChunkFile} (hclosed : m.Closed) {past : Nat → Bool}
    {events : Events} {s : Scan} {i : Fin META_MAX} {q : Nat}
    (hreach : Loop.Reaches (scanStep past m.bytes) (scanStart events ⟨14, false⟩) (.event s))
    (hrec : Records m.bytes s i q) : m.InBody s.trkLenOffset q := by
  have hin : m.InStep (.event s) := by
    refine hreach.invariant (I := m.InStep) ⟨[], m.chunks, rfl, rfl⟩ ?_
    intro u v hu hstep
    cases u with
    | track u =>
      obtain ⟨-, -, -, rfl⟩ := scanStep_track_inl hstep
      exact inStep_track hclosed hu hstep
    | event u => exact inStep_event hu hstep
  obtain ⟨done, c, cs, hchunks, htrk, hpos, hend⟩ := hin
  obtain ⟨ty, hm, -⟩ := hrec.wanted
  refine ⟨startOf done + 4, c, mem_located hchunks, htrk, ?_, ?_⟩
  · have := hm.lt
    omega
  · have hrecord := hrec.turn
    cases hend with
    | endOfTrack hm' =>
      have hturn := eventTurn_meta hm'
      rw [if_pos rfl, hrecord] at hturn
      cases hturn
    | event hev hrest =>
      rcases hev.turn with ⟨off, u, hturn, -, hnext, -, -⟩ | ⟨e, u, hturn⟩
      · rw [hrecord] at hturn
        cases hturn
        have hbehind : metaEnd m.bytes q + (metaLen m.bytes q).toNat = _ := hnext
        have hlt := hrest.lt
        omega
      · rw [hrecord] at hturn
        cases hturn

/-- In an accepted file of exact chunks every record belongs to the track it names exactly when the
first event met for each record, reading on from event to event, lies in the chunk it is met in,
as it does when every chunk is closed. -/
theorem findMetaEvents_belongs (past : Nat → Bool) (m : ChunkFile)
    (hret : (findMetaEvents past m.bytes .start zeroedEvents).ret = 0) :
    ((∀ i, 0 ≤ ((findMetaEvents past m.bytes .start zeroedEvents).events i).offset →
      m.Belongs i ((findMetaEvents past m.bytes .start zeroedEvents).events i)) ↔
        m.FirstsInBody) ∧ (m.Closed → m.FirstsInBody) := by
  have hsound := findMetaEvents_sound hret
  have hyields := scanLoops_yields past m.bytes (scanStart zeroedEvents ⟨14, false⟩)
  have hrun := (findMetaEvents_accepted hret).2
  have hcode : (scanLoops past m.bytes (scanStart zeroedEvents ⟨14, false⟩)).1.code = 0 := by
    rw [hrun] at hret
    exact hret
  have hevents : (findMetaEvents past m.bytes .start zeroedEvents).events =
      (scanLoops past m.bytes (scanStart zeroedEvents ⟨14, false⟩)).2.events := by
    rw [hrun]
  rw [hevents] at hsound ⊢
  have hfirst := records_iff_first hyields hcode
  constructor
  · constructor
    · intro hbelongs i trkLenOffset q hmeets hleast
      obtain ⟨s, hreach, hrec, htrk⟩ := (hfirst i trkLenOffset q).mpr ⟨hmeets, hleast⟩
      have hkept := (hrec.kept (hyields.after_reaches hreach)).2
      have hpresent : 0 ≤ (s.recordOf m.bytes q).offset := Int.natCast_nonneg _
      have hrecord := hbelongs i
      simp only [hkept] at hrecord
      obtain ⟨q', hat, hbody, -⟩ := hrecord hpresent
      rw [← htrk, hrec.recordAt.unique hat]
      exact hbody
    · intro hinside i hi
      obtain ⟨s, q, hreach, hrec, hev⟩ := recorded hyields i hi
      obtain ⟨trkLenOffset, htrk, -⟩ := hrec.meets hreach
      obtain ⟨hmeets, hleast⟩ := (hfirst i trkLenOffset q).mp ⟨s, hreach, hrec, htrk⟩
      refine ⟨q, ?_, ?_, ?_⟩
      · rw [hev]
        exact hrec.recordAt
      · rw [hev, Scan.recordOf, htrk]
        exact hinside i trkLenOffset q hmeets hleast
      · intro hseq
        rcases hsound i with habsent | ⟨q', pos, -, htrack⟩
        · rw [habsent] at hi
          simp [MetaEvent.absent] at hi
        · have hpos := htrack.seqname hseq
          rw [htrack.trkLenOffset, hpos]
          rfl
  · intro hclosed i trkLenOffset q hmeets hleast
    obtain ⟨s, hreach, hrec, htrk⟩ := (hfirst i trkLenOffset q).mpr ⟨hmeets, hleast⟩
    rw [← htrk]
    exact hclosed.inBody hreach hrec

/-- A first track without End-of-Track event before a track that has a name. -/
def unendedTrack : ChunkFile where
  header := [0, 1, 0, 2, 0, 96]
  chunks :=
    [{ lengthField := [0, 0, 0, 4], body := [0, 0x90, 1, 2], lengthField_length := rfl,
       declared_eq := by decide },
      { lengthField := [0, 0, 0, 10], body := [0, 0, 0xff, 3, 1, 0x41, 0, 0xff, 0x2f, 0],
        lengthField_length := rfl, declared_eq := by decide }]
  header_length := rfl

private theorem unendedTrack_not_belongs : ¬ unendedTrack.Belongs META_SEQNAME ⟨18, 39, 1⟩ := by
  rintro ⟨q, hat, ⟨t, c, hmem, htrk, -, hend⟩, -⟩
  have hoff : metaEnd unendedTrack.bytes q = 39 := Int.ofNat_inj.mp hat.offset.symm
  have ht : t = 18 := Int.ofNat_inj.mp htrk.symm
  subst ht
  rw [hoff] at hend
  simp only [ChunkFile.located, unendedTrack, chunksFrom, List.mem_cons, List.not_mem_nil,
    Prod.mk.injEq, or_false] at hmem
  rcases hmem with ⟨-, rfl⟩ | ⟨h, -⟩
  · revert hend
    decide
  · revert h
    decide

/-- The name of its second track is taken for the name of the piece. -/
theorem findMetaEvents_unendedTrack :
    (findMetaEvents (fun _ => true) unendedTrack.bytes .start zeroedEvents).ret = 0 ∧
      (findMetaEvents (fun _ => true) unendedTrack.bytes .start zeroedEvents).events META_SEQNAME =
        ⟨18, 39, 1⟩ ∧
      ¬ unendedTrack.Belongs META_SEQNAME ⟨18, 39, 1⟩ :=
  ⟨by decide +kernel, by decide +kernel, unendedTrack_not_belongs⟩

theorem unendedTrack_not_firstsInBody :
    (findMetaEvents (fun _ => true) unendedTrack.bytes .start zeroedEvents).ret = 0 ∧
      ¬ unendedTrack.FirstsInBody := by
  have hret : (findMetaEvents (fun _ => true) unendedTrack.bytes .start zeroedEvents).ret = 0 := by
    decide +kernel
  have hname : (findMetaEvents (fun _ => true) unendedTrack.bytes .start zeroedEvents).events
      META_SEQNAME = ⟨18, 39, 1⟩ := by
    decide +kernel
  refine ⟨hret, fun hfirsts => ?_⟩
  have hall := (findMetaEvents_belongs _ _ hret).1.mpr hfirsts META_SEQNAME
  rw [hname] at hall
  exact unendedTrack_not_belongs (hall (by decide))

end StepMid
