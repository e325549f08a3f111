import StepMid.Smf.Reading
import StepMid.Smf.Skipped

/-!
# Which files are rejected

The scan rejects a file without its header, and a file in which the reader comes to an event that
cannot be read, unless the scan is content before it comes there.
-/

namespace StepMid

/-- Nobody can read on from `p` under the running status `rs`: a length is too long, or there is no
status to a data byte. -/
inductive Unreadable (F : List UInt8) (rs : CInt) (p : Nat) : Prop
  | deltaTime : vlvRejected (F.drop p) → Unreadable F rs p
  | runningStatus {q : Nat} {b : UInt8} : StatusAt F p q b → b.toNat < 128 →
      getNumMessageBytes rs = none → Unreadable F rs p
  | sysExLength {q : Nat} {b : UInt8} : StatusAt F p q b → 240 ≤ b.toNat → b.toNat ≠ 255 →
      vlvRejected (F.drop (q + 1)) → Unreadable F rs p
  | metaLength {q : Nat} {ty : UInt8} : StatusAt F p q 255 → F[q + 1]? = some ty →
      vlvRejected (F.drop (q + 2)) → Unreadable F rs p

/-- A track ends behind a text and a copyright notice. -/
def Satisfied (F : List UInt8) : Prop :=
  ∃ track trkLenOffset rs p q, ReadsTo F track trkLenOffset rs p ∧ MetaAt F p q 0x2f ∧
    ∀ i, i = META_COMMENT ∨ i = META_COPYRIGHT → ∃ trkLenOffset' q', Meets F i trkLenOffset' q' ∧
      q' < q

/-- The reader comes to an event that cannot be read. -/
def BreaksOff (F : List UInt8) : Prop :=
  ∃ track trkLenOffset rs p, ReadsTo F track trkLenOffset rs p ∧ Unreadable F rs p

theorem Unreadable.lt {F : List UInt8} {rs : CInt} {p : Nat} (h : Unreadable F rs p) :
    p < F.length := by
  cases h with
  | deltaTime hrej =>
    by_contra hend
    rw [List.drop_eq_nil_of_le (Nat.not_lt.mp hend)] at hrej
    exact absurd hrej (by decide)
  | runningStatus hst | sysExLength hst | metaLength hst =>
    have := hst.lt
    omega

section

variable {past : Nat → Bool} {F : List UInt8}

/-! ## One turn -/

/-- A turn at such an event returns -1. -/
theorem Unreadable.turn {s : Scan} (h : Unreadable F s.runningStatus s.fp.pos) :
    ∃ e u, eventTurn F s = .ret e u ∧ e.code = -1 := by
  cases h with
  | deltaTime hrej => exact ⟨_, _, eventTurn_rejected hrej, rfl⟩
  | runningStatus hst hdata hnone =>
    have hturn := eventTurn_status hst
    rw [statusTurn_data hdata] at hturn
    simp only [Scan.moveTo_runningStatus, hnone] at hturn
    exact ⟨_, _, hturn, rfl⟩
  | sysExLength hst hlo hhi hrej =>
    have hturn := eventTurn_status hst
    rw [statusTurn_sysEx hlo hhi, sysExTurn_eq] at hturn
    simp only [Scan.moveTo_fp, hrej, if_true] at hturn
    exact ⟨_, _, hturn, rfl⟩
  | @metaLength q ty hst hty hrej =>
    have hturn := eventTurn_status hst
    rw [statusTurn_meta rfl, metaTurn_rejected (s := s.moveTo (q + 1) s.fp.eof) hty hrej] at hturn
    exact ⟨_, _, hturn, rfl⟩

/-- A turn returns -1 at no other event. -/
theorem EventTurn.unreadable {s u : Scan} {e : Exit} (h : EventTurn F s (.ret e u))
    (he : e.code = -1) : Unreadable F s.runningStatus s.fp.pos := by
  cases h with
  | deltaTime hrej => exact .deltaTime hrej
  | noStatus hst hdata hnone => exact .runningStatus hst hdata hnone
  | sysExLength hst hlo hhi hrej => exact .sysExLength hst hlo hhi hrej
  | metaLength hst hty hrej => exact .metaLength hst hty hrej
  | recordTell => exact absurd he (by decide)

/-! ## The whole scan -/

variable {events : Events} {r : Exit × Scan}

private theorem meets_of_found {s : Scan} {i : Fin META_MAX}
    (hreach : Loop.Reaches (scanStep past F) (scanStart events ⟨14, false⟩) (.event s))
    (hi : s.baFound i = true) : ∃ trkLenOffset q, Meets F i trkLenOffset q ∧ q < s.fp.pos := by
  obtain ⟨s', q, hreach', hrec, hend⟩ := recorded_of_found hreach hi
  obtain ⟨trkLenOffset, -, hmeets⟩ := hrec.meets hreach'
  refine ⟨trkLenOffset, q, hmeets, ?_⟩
  have hbehind : ScanState.scan (.event s) = s := rfl
  rw [metaEnd, hbehind] at hend
  omega

/-- A scan that has found both is behind the end of a track, or at the end of the file. -/
private theorem satisfied_of_foundAll
    (hy : Loop.Yields (scanStep past F) (scanStart events ⟨14, false⟩) r)
    (hr : r.1 = .foundAll) : Satisfied F ∨ F.length ≤ r.2.fp.pos := by
  obtain ⟨v, hreach, hexit⟩ := hy
  obtain ⟨e, u⟩ := r
  obtain rfl : e = .foundAll := hr
  cases v with
  | track s => cases TrackTurn.of_step hexit
  | event s =>
    cases EventStep.of_step hexit with
    | ret hturn => exact absurd rfl (EventTurn.of_eq hturn).ret_code
    | foundAll hturn =>
      simp only [scanStep, hturn] at hexit
      have hboth : u.baFound META_COMMENT = true ∧ u.baFound META_COPYRIGHT = true := by
        by_contra hno
        rw [leaveTrack_next hno] at hexit
        cases hexit
      cases EventTurn.of_eq hturn with
      | fileEnd _ hend => exact Or.inr hend
      | @endOfTrack q hm =>
        have hway : ScanState.OnWay F (.event s) :=
          hreach.invariant (Or.inl ⟨rfl, rfl⟩) fun _ _ => onWay_step
        have hlt := hm.lt
        rcases hway with ⟨trkLenOffset, -, hread⟩ | hend
        · refine Or.inl ⟨_, _, _, _, q, hread, hm, ?_⟩
          rintro i (rfl | rfl)
          · obtain ⟨t, q', hmeets, hq⟩ := meets_of_found hreach hboth.1
            exact ⟨t, q', hmeets, hq.trans hlt.1⟩
          · obtain ⟨t, q', hmeets, hq⟩ := meets_of_found hreach hboth.2
            exact ⟨t, q', hmeets, hq.trans hlt.1⟩
        · omega

private theorem turn_endOfTrack {s : Scan} {q : Nat} (hm : MetaAt F s.fp.pos q 0x2f) :
    eventTurn F s = .brk (s.behindMeta F q) := by
  rw [eventTurn_meta hm, if_pos rfl]

/-- At the end of a track the scan has found the records met in front of it. -/
private theorem found_of_meets
    (hy : Loop.Yields (scanStep past F) (scanStart events ⟨14, false⟩) r) (hr : r.1.code = -1)
    {s : Scan} {q : Nat}
    (hreach : Loop.Reaches (scanStep past F) (scanStart events ⟨14, false⟩) (.event s))
    (hm : MetaAt F s.fp.pos q 0x2f) {i : Fin META_MAX} {trkLenOffset' q' : Nat}
    (hmeets : Meets F i trkLenOffset' q') (hq : q' < q) : s.baFound i = true := by
  have hne : r.1.code ≠ -2 := by
    rw [hr]
    decide
  obtain ⟨track, rs, p, ty', hread, hm', hindex⟩ := hmeets
  rcases hread.follows hy hne with ⟨s', hreach', hs'⟩ | ⟨-, hexit, -⟩
  · have hfp : s'.fp.pos = p := by rw [hs'.fp]
    rw [← hfp] at hm'
    rw [← hs'.curTrack] at hindex
    have hpos := hm.pos
    have hpos' := hm'.pos
    have hlt := hm.lt
    rcases hreach'.total hreach with hto | hto
    · rcases hto.cases_head with heq | ⟨v, hstep, hto⟩
      · cases heq
        omega
      · exact reaches_found hto (found_behind hm' hindex hstep)
    · rcases hto.cases_head with heq | ⟨v, hstep, hto⟩
      · cases heq
        omega
      · -- the scan would stand in front of the end that it has passed
        have hpassed := (scanStep_event_inl hstep).2.2
        rw [turn_endOfTrack hm] at hpassed
        have hbehind : metaEnd F q ≤ s'.fp.pos := hpassed.trans (pos_of_reaches hto)
        rw [metaEnd] at hbehind
        omega
  · rw [hexit] at hr
    cases hr

private theorem breaksOff_of_code
    (hy : Loop.Yields (scanStep past F) (scanStart events ⟨14, false⟩) r) (hr : r.1.code = -1) :
    BreaksOff F := by
  obtain ⟨v, hreach, hexit⟩ := hy
  obtain ⟨e, u⟩ := r
  cases v with
  | track s => cases TrackTurn.of_step hexit <;> cases hr
  | event s =>
    cases EventStep.of_step hexit with
    | seek | foundAll => cases hr
    | ret hturn =>
      have hun := (EventTurn.of_eq hturn).unreadable hr
      have hway : ScanState.OnWay F (.event s) :=
        hreach.invariant (Or.inl ⟨rfl, rfl⟩) fun _ _ => onWay_step
      rcases hway with ⟨trkLenOffset, -, hread⟩ | hend
      · exact ⟨_, _, _, _, hread, hun⟩
      · have := hun.lt
        omega

/-- The loops return -1 exactly when the reader breaks off and the scan is never satisfied. -/
private theorem scanLoops_breaksOff
    (hy : Loop.Yields (scanStep past F) (scanStart events ⟨14, false⟩) r) (hr : r.1.code ≠ -2) :
    r.1.code = -1 ↔ BreaksOff F ∧ ¬ Satisfied F := by
  constructor
  · intro hcode
    refine ⟨breaksOff_of_code hy hcode, ?_⟩
    rintro ⟨track, trkLenOffset, rs, p, q, hread, hm, hmet⟩
    rcases hread.follows hy hr with ⟨s, hreach, hs⟩ | ⟨-, hexit, -⟩
    · have hm' : MetaAt F s.fp.pos q 0x2f := by
        rw [hs.fp]
        exact hm
      have hfound (i : Fin META_MAX) (hi : i = META_COMMENT ∨ i = META_COPYRIGHT) :
          s.baFound i = true := by
        obtain ⟨trkLenOffset', q', hmeets, hq⟩ := hmet i hi
        exact found_of_meets hy hcode hreach hm' hmeets hq
      have hstep : scanStep past F (.event s) = .inr (.foundAll, s.behindMeta F q) := by
        simp only [scanStep, turn_endOfTrack hm']
        exact leaveTrack_foundAll ⟨hfound _ (Or.inl rfl), hfound _ (Or.inr rfl)⟩
      rw [(hy.after_reaches hreach).unique (Loop.Yields.exit hstep)] at hcode
      cases hcode
    · rw [hexit] at hcode
      cases hcode
  · rintro ⟨⟨track, trkLenOffset, rs, p, hread, hun⟩, hno⟩
    rcases hread.follows hy hr with ⟨s, hreach, hs⟩ | ⟨-, hexit, hpos, -⟩
    · have hun' : Unreadable F s.runningStatus s.fp.pos := by
        rw [hs.runningStatus, hs.fp]
        exact hun
      obtain ⟨e, u, hturn, he⟩ := hun'.turn
      have hstep : scanStep past F (.event s) = .inr (e, u) := by simp only [scanStep, hturn]
      rw [(hy.after_reaches hreach).unique (Loop.Yields.exit hstep)]
      exact he
    · rcases satisfied_of_foundAll hy hexit with hsat | hend
      · exact absurd hsat hno
      · have := hun.lt
        omega

/-- Every value returned is that of an exit. -/
private theorem ret_cases (past : Nat → Bool) (F : List UInt8) (events : Events) :
    let ret := (findMetaEvents past F .start events).ret
    ret = 0 ∨ ret = -1 ∨ ret = -2 := by
  have hcode (e : Exit) : e.code = 0 ∨ e.code = -1 ∨ e.code = -2 := by
    cases e <;> decide
  simp only [findMetaEvents]
  split
  · exact hcode .headerShort
  split
  · exact hcode .headerSignature
  split
  · exact hcode .headerSeek
  · exact hcode _

end

/-- The file does not start as a file should, or the reader breaks off and the scan, which stops
once it has both texts, is never satisfied. -/
def Rejected (F : List UInt8) : Prop := F.take 4 ≠ MThd ∨ BreaksOff F ∧ ¬ Satisfied F

/-- The host that refuses no seek. -/
private theorem lenient_rejected {F : List UInt8} {events : Events}
    (hret : (findMetaEvents (fun _ => true) F .start events).ret ≠ -2) :
    (findMetaEvents (fun _ => true) F .start events).ret = -1 ↔ Rejected F := by
  rw [Rejected]
  by_cases hsig : F.take 4 = MThd
  · have hhead : HeaderOk (fun _ => true) F := ⟨hsig, Or.inr rfl⟩
    rw [findMetaEvents_header hhead] at hret ⊢
    rw [or_iff_right (not_not_intro hsig)]
    exact scanLoops_breaksOff (scanLoops_yields _ F _) hret
  · have hhead : ¬ HeaderOk (fun _ => true) F := fun h => hsig h.signature
    have hneg := (findMetaEvents_noHeader hhead events).1
    refine iff_of_true ?_ (Or.inl hsig)
    rcases ret_cases (fun _ => true) F events with h | h | h
    · omega
    · exact h
    · exact absurd h hret

private theorem lenient_ret {F : List UInt8} (hsize : F.length < 2 ^ 31) (events : Events) :
    (findMetaEvents (fun _ => true) F .start events).ret ≠ -2 := by
  intro hret
  have hlarge : F.length ≤ LONG_MAX := by
    rw [LONG_MAX]
    omega
  obtain ⟨n, -, hno⟩ := seek_refused hlarge hret
  exact hno (Or.inr rfl)

theorem accepted_iff {past : Nat → Bool} {F : List UInt8} (hsize : F.length < 2 ^ 31)
    {events : Events} :
    (findMetaEvents past F .start events).ret = 0 ↔ ¬ ScanRefused past F events ∧ ¬ Rejected F := by
  by_cases href : ScanRefused past F events
  · rw [href.ret]
    simp [href]
  · have hne := lenient_ret hsize events
    rw [findMetaEvents_lenient href, and_iff_right href, ← lenient_rejected hne]
    rcases ret_cases (fun _ => true) F events with h | h | h
    · simp [h]
    · simp [h]
    · exact absurd h hne

/-- Below 2 GiB, `findMetaEvents` returns -1 for the files that are to be rejected and 0 for the
others, unless the host refuses a seek. -/
theorem findMetaEvents_rejected (past : Nat → Bool) {F : List UInt8} (hsize : F.length < 2 ^ 31)
    (events : Events) :
    ((findMetaEvents past F .start events).ret = -1 ↔
      ¬ ScanRefused past F events ∧ Rejected F) ∧
    ((findMetaEvents past F .start events).ret = 0 ↔
      ¬ ScanRefused past F events ∧ ¬ Rejected F) := by
  refine ⟨?_, accepted_iff hsize⟩
  by_cases href : ScanRefused past F events
  · rw [href.ret]
    simp [href]
  · rw [findMetaEvents_lenient href, and_iff_right href]
    exact lenient_rejected (lenient_ret hsize events)

/-- A track that starts with a data byte has no status to it. -/
theorem findMetaEvents_rejected_noStatus :
    Rejected (abcFile.take 22 ++ [0, 0x40]) ∧ ¬ Rejected abcFile := by
  constructor
  · have hret : (findMetaEvents (fun _ => true) (abcFile.take 22 ++ [0, 0x40]) .start
        zeroedEvents).ret = -1 := by
      decide +kernel
    exact ((findMetaEvents_rejected (fun _ => true) (by decide) zeroedEvents).1.mp hret).2
  · have hret : (findMetaEvents (fun _ => true) abcFile .start zeroedEvents).ret = 0 := by
      decide +kernel
    exact ((findMetaEvents_rejected (fun _ => true) (by decide) zeroedEvents).2.mp hret).2

end StepMid
