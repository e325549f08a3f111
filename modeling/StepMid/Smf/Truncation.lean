import Mathlib.Data.List.Infix
import StepMid.Smf.Progress
import StepMid.Smf.Records

/-!
# Truncated files

The scan of a prefix keeps in step with the scan of the whole file up to the cut. There it runs
into the end of the file and is accepted, and whatever it stores at the cut stands for an event
whose header the whole file ends behind the cut.
-/

namespace StepMid

/-- The records in `a` are those in `b`, apart from events of `b` that lie behind `n`. -/
def Upto (n : Nat) (a b : Events) : Prop := ∀ i, a i = b i ∨ (n : Int) < (b i).offset

namespace Upto

variable {n : Nat} {a b c : Events}

theorem refl (n : Nat) (a : Events) : Upto n a a := fun _ => Or.inl rfl

theorem trans (h : Upto n a b) (h' : Upto n b c) : Upto n a c := by
  intro i
  rcases h' i with hbc | hlt
  · rcases h i with hab | hlt
    · exact Or.inl (hab.trans hbc)
    · exact Or.inr (hbc ▸ hlt)
  · exact Or.inr hlt

theorem store (h : Upto n a b) {i : Fin META_MAX} {r : MetaEvent} (hr : (n : Int) < r.offset) :
    Upto n a (Function.update b i r) := by
  intro j
  by_cases hji : j = i
  · subst hji
    right
    rwa [Function.update_self]
  · rw [Function.update_of_ne hji]
    exact h j

/-- Records stored on both sides need not agree when the one in `b` lies behind `n`. -/
theorem update (h : Upto n a b) (i : Fin META_MAX) {r : MetaEvent} (r' : MetaEvent)
    (hr : (n : Int) < r.offset) : Upto n (Function.update a i r') (Function.update b i r) := by
  intro j
  by_cases hji : j = i
  · subst hji
    right
    rwa [Function.update_self]
  · rw [Function.update_of_ne hji, Function.update_of_ne hji]
    exact h j

end Upto

/-! ## The whole file behind the cut -/

/-- A turn reads past the status byte or runs into the end of the file. -/
theorem EventTurn.status_le {F : List UInt8} {s : Scan} {turn : Turn} (h : EventTurn F s turn) :
    s.fp.pos + vlvSize (F.drop s.fp.pos) ≤ turn.scan.fp.pos ∧
      (s.fp.pos + vlvSize (F.drop s.fp.pos) < F.length → ¬ vlvRejected (F.drop s.fp.pos) →
        s.fp.pos + vlvSize (F.drop s.fp.pos) + 1 ≤ turn.scan.fp.pos) := by
  cases h with
  | deltaTime hrej => exact ⟨Nat.le_refl _, fun _ hno => absurd hrej hno⟩
  | fileEnd _ hend => exact ⟨Nat.le_refl _, fun hlt => by omega⟩
  | running hst | noStatus hst | channel hst | sysExLength hst | sysEx hst | noType hst
  | metaLength hst =>
    have := hst.pos
    simp only [Turn.scan, Scan.behindMeta, Scan.moveTo_fp, metaEnd]
    omega
  | endOfTrack hm | unused hm | again hm | record hm | recordTell hm =>
    have := hm.pos
    simp only [Turn.scan, Scan.store, Scan.behindMeta, Scan.moveTo_fp, metaEnd]
    omega

/-- A turn whose status byte is not before `n - 1` stores nothing before `n`. -/
theorem EventTurn.upto {F : List UInt8} {s : Scan} {turn : Turn} {n : Nat}
    (h : EventTurn F s turn) (hn : n ≤ s.fp.pos + vlvSize (F.drop s.fp.pos) + 1) :
    Upto n s.events turn.scan.events := by
  cases h with
  | record hm =>
    have hpos := hm.pos
    apply (Upto.refl n s.events).store
    simp only [metaEnd]
    omega
  | _ => exact Upto.refl n s.events

/-- The whole file's scan stands at or behind the cut. -/
def ScanState.Behind (n : Nat) : ScanState → Prop
  | .track s => n < s.fp.pos + 4
  | .event s => n ≤ s.fp.pos

theorem behind_step {past : Nat → Bool} {F : List UInt8} {n : Nat} {s t : ScanState}
    (hs : s.Behind n) (h : scanStep past F s = .inl t) :
    t.Behind n ∧ Upto n s.scan.events t.scan.events := by
  cases s with
  | track s =>
    obtain ⟨-, -, -, rfl⟩ := scanStep_track_inl h
    refine ⟨?_, Upto.refl n _⟩
    simp only [ScanState.Behind, Scan.enterTrack] at hs ⊢
    omega
  | event s =>
    simp only [ScanState.Behind] at hs
    have hturn := eventTurn_spec F s
    obtain ⟨hev, -, hle⟩ := scanStep_event_inl h
    have hpos := hturn.progress.trans hle
    rw [hev]
    refine ⟨?_, hturn.upto (by omega)⟩
    cases t with
    | track t | event t =>
      simp only [ScanState.Behind, ScanState.scan] at hpos ⊢
      omega

theorem behind_exit {past : Nat → Bool} {F : List UInt8} {n : Nat} {s : ScanState} {e : Exit}
    {t : Scan} (hs : s.Behind n) (h : scanStep past F s = .inr (e, t)) :
    Upto n s.scan.events t.events := by
  cases s with
  | track s =>
    cases TrackTurn.of_step h <;> exact Upto.refl n _
  | event s =>
    simp only [ScanState.Behind] at hs
    rw [scanStep_event_inr h]
    exact (eventTurn_spec F s).upto (by omega)

/-- Behind the cut nothing that lies before it is stored. -/
theorem behind_yields {past : Nat → Bool} {F : List UInt8} {n : Nat} {s : ScanState}
    {r : Exit × Scan} (hs : s.Behind n) (h : Loop.Yields (scanStep past F) s r) :
    Upto n s.scan.events r.2.events := by
  refine Loop.Yields.invariant (I := fun t => t.Behind n ∧ Upto n s.scan.events t.scan.events)
    (Q := fun r => Upto n s.scan.events r.2.events) h ⟨hs, Upto.refl n _⟩ ?_ ?_
  · intro u v hu hstep
    obtain ⟨hv, hupto⟩ := behind_step hu.1 hstep
    exact ⟨hv, hu.2.trans hupto⟩
  · intro u ⟨e, t⟩ hu hexit
    exact hu.2.trans (behind_exit hu.1 hexit)

/-- The same from a turn that ends behind the cut. -/
theorem turn_yields {past : Nat → Bool} {F : List UInt8} {n : Nat} {s : Scan} {a : Events}
    {r : Exit × Scan} (hpos : n ≤ (eventTurn F s).scan.fp.pos)
    (hupto : Upto n a (eventTurn F s).scan.events)
    (h : Loop.Yields (scanStep past F) (.event s) r) : Upto n a r.2.events := by
  rcases event_yields h with hr | ⟨t, hy, hev, -, hle⟩
  · rw [hr]
    exact hupto
  · have hbehind : t.Behind n := by
      cases t <;> simp only [ScanState.Behind, ScanState.scan] at hle ⊢ <;> omega
    have hlater := behind_yields hbehind hy
    rw [hev] at hlater
    exact hupto.trans hlater

/-! ## The prefix behind the cut -/

/-- At the end of the file the track loop is left with 0. -/
theorem track_ends (past : Nat → Bool) {F : List UInt8} {s : Scan} (h : F.length < s.fp.pos + 4) :
    ∃ u, Loop.Yields (scanStep past F) (.track s) (.trackShort, u) ∧ u.events = s.events := by
  cases hexit : scanStep past F (.track s) with
  | inl t =>
    obtain ⟨hsig, -⟩ := scanStep_track_inl hexit
    have := take_four_length hsig
    omega
  | inr r =>
    cases TrackTurn.of_step hexit with
    | short => exact ⟨_, Loop.Yields.exit hexit, rfl⟩
    | junk => omega
    | tell hsig | seek hsig =>
      have := take_four_length hsig
      omega

/-- A track left at the end of the file is the last one. -/
theorem leave_ends (past : Nat → Bool) {F : List UInt8} {s u : Scan}
    (hturn : eventTurn F s = .brk u) (h : F.length ≤ u.fp.pos) :
    ∃ e v, Loop.Yields (scanStep past F) (.event s) (e, v) ∧ e.code = 0 ∧ v.events = u.events := by
  by_cases hall : u.baFound META_COMMENT = true ∧ u.baFound META_COPYRIGHT = true
  · refine ⟨.foundAll, u, Loop.Yields.exit ?_, rfl, rfl⟩
    simp only [scanStep, hturn, leaveTrack_foundAll hall]
  · have hnext : scanStep past F (.event s) =
        .inl (.track { u with curTrack := u.curTrack + 1 }) := by
      simp only [scanStep, hturn, leaveTrack_next hall]
    obtain ⟨v, hv, hev⟩ := track_ends past
      (s := { u with curTrack := u.curTrack + 1 }) (show F.length < u.fp.pos + 4 by omega)
    exact ⟨.trackShort, v, Loop.Yields.of_next hnext hv, rfl, hev⟩

theorem event_ends (past : Nat → Bool) {F : List UInt8} {s : Scan} (h : F.length ≤ s.fp.pos) :
    ∃ e v, Loop.Yields (scanStep past F) (.event s) (e, v) ∧ e.code = 0 ∧ v.events = s.events := by
  have hdrop : F.drop s.fp.pos = [] := List.drop_eq_nil_of_le h
  have hturn := eventTurn_end (s := s) (F := F) (by rw [hdrop]; decide) (by omega)
  have hend : F.length ≤ s.fp.pos + vlvSize (F.drop s.fp.pos) := by omega
  obtain ⟨e, v, hv, he, hev⟩ := leave_ends past hturn hend
  exact ⟨e, v, hv, he, hev⟩

/-- The same from a turn that ends there. -/
theorem turn_ends {past : Nat → Bool} (hpast : ∀ p, past p = true) {F : List UInt8}
    (hlarge : F.length ≤ LONG_MAX) {s : Scan}
    (hret : ∀ e u, eventTurn F s ≠ .ret e u) (h : F.length ≤ (eventTurn F s).scan.fp.pos) :
    ∃ e v, Loop.Yields (scanStep past F) (.event s) (e, v) ∧ e.code = 0 ∧
      v.events = (eventTurn F s).scan.events := by
  cases hturn : eventTurn F s with
  | brk u =>
    rw [hturn] at h
    exact leave_ends past hturn h
  | ret e u => exact absurd hturn (hret e u)
  | seek off u =>
    rw [hturn] at h
    have hoff : ¬ off.toNat > LONG_MAX :=
      Nat.not_lt.mpr ((EventTurn.of_eq hturn).seek_offset hlarge)
    have hseek : fseekULong past F u.fp off .SEEK_CUR = some ⟨u.fp.pos + off.toNat, false⟩ := by
      rw [fseekULong, if_neg hoff, fseek_cur_past hpast]
    have hnext : scanStep past F (.event s) =
        .inl (.event (u.moveTo (u.fp.pos + off.toNat) false)) := by
      simp only [scanStep, hturn, hseek]
      rfl
    obtain ⟨e, v, hv, he, hev⟩ := event_ends past
      (s := u.moveTo (u.fp.pos + off.toNat) false) (F := F) (by
        simp only [Turn.scan, Scan.moveTo_fp] at h ⊢
        omega)
    exact ⟨e, v, Loop.Yields.of_next hnext hv, he, hev⟩

/-! ## One turn on both files -/

section Prefix

variable {P B : List UInt8}

private theorem byte_onPrefix (h : P <+: B) {q : Nat} {b : UInt8} (hb : P[q]? = some b) :
    B[q]? = some b := by
  obtain ⟨t, rfl⟩ := h
  rw [List.getElem?_append_left (lt_of_byte hb)]
  exact hb

/-- A value that the prefix holds completely is the same in the whole file. -/
private theorem vlv_same (h : P <+: B) {p : Nat} (hcut : vlvCut (P.drop p) = false) :
    vlvVal (P.drop p) = vlvVal (B.drop p) ∧ vlvSize (P.drop p) = vlvSize (B.drop p) ∧
      vlvCut (P.drop p) = vlvCut (B.drop p) := by
  obtain ⟨hgroups, hsize, hcut'⟩ := vlv_onPrefix (h.drop p) hcut
  refine ⟨?_, hsize, hcut.trans hcut'.symm⟩
  rw [vlvVal, hgroups, vlvVal]

/-- A value that the prefix cuts is read up to the cut, and at least that far in the whole
file. -/
private theorem vlv_cut (h : P <+: B) {p : Nat} (hcut : vlvCut (P.drop p) = true) :
    P.length ≤ p + vlvSize (P.drop p) ∧ P.length ≤ p + vlvSize (B.drop p) := by
  have hsize := vlvSize_of_cut hcut
  have hle := (vlvSize_onPrefix (h.drop p)).1
  rw [List.length_drop] at hsize
  omega

theorem Turn.seek_ne_ret (off : ULong) (s : Scan) (e : Exit) (u : Scan) :
    Turn.seek off s ≠ .ret e u := by
  intro h
  cases h

theorem Turn.brk_ne_ret (s : Scan) (e : Exit) (u : Scan) : Turn.brk s ≠ .ret e u := by
  intro h
  cases h

/-- The turn on the prefix runs into the cut at `n`. -/
structure CutTurn (n : Nat) (turn turn' : Turn) : Prop where
  stays : ∀ e u, turn ≠ .ret e u
  pos : n ≤ turn.scan.fp.pos
  pos' : n ≤ turn'.scan.fp.pos
  upto : Upto n turn.scan.events turn'.scan.events

private theorem sysExTurn_onPrefix (h : P <+: B) {s : Scan}
    (hcounted : VlvCounted (B.drop s.fp.pos))
    (hret : ∀ e u, sysExTurn B s ≠ .ret e u) :
    sysExTurn P s = sysExTurn B s ∨ CutTurn P.length (sysExTurn P s) (sysExTurn B s) := by
  have hlen : ¬ vlvRejected (B.drop s.fp.pos) := by
    intro hrej
    have hturn := sysExTurn_eq B s
    simp only [if_pos hrej] at hturn
    exact hret _ _ hturn
  have hlen' : ¬ vlvRejected (P.drop s.fp.pos) := fun hrej =>
    hlen (vlvRejected_onPrefix (h.drop _) hcounted hrej)
  simp only [sysExTurn_eq, if_neg hlen, if_neg hlen']
  cases hcut : vlvCut (P.drop s.fp.pos) with
  | false =>
    obtain ⟨hval, hsize, hcut'⟩ := vlv_same h hcut
    rw [hval, hsize, ← hcut', hcut]
    exact Or.inl rfl
  | true =>
    obtain ⟨hpos, hpos'⟩ := vlv_cut h hcut
    exact Or.inr ⟨Turn.seek_ne_ret _ _, hpos, hpos', Upto.refl _ _⟩

/-- A meta event whose length field the cut goes through. -/
private theorem metaTurn_cut (h : P <+: B) (hlarge : B.length ≤ LONG_MAX)
    (hlt : P.length < B.length) {s : Scan} {q : Nat} {ty : UInt8}
    (hm : MetaAt P s.fp.pos q ty) (hm' : MetaAt B s.fp.pos q ty)
    (hcut : vlvCut (P.drop (q + 2)) = true) :
    CutTurn P.length (eventTurn P s) (eventTurn B s) := by
  obtain ⟨hpos, hpos'⟩ := vlv_cut h hcut
  change P.length ≤ metaEnd P q at hpos
  change P.length ≤ metaEnd B q at hpos'
  have hend : metaEnd P q ≤ LONG_MAX := (metaEnd_le hm.type).trans (h.length_le.trans hlarge)
  have hend' : metaEnd B q ≤ LONG_MAX := (metaEnd_le hm'.type).trans hlarge
  have hbehind : P.length < metaEnd B q := by
    have htype := lt_of_byte hm.type
    have hdrop : (P.drop (q + 2)).length < (B.drop (q + 2)).length := by
      rw [List.length_drop, List.length_drop]
      omega
    have hsize := vlvSize_lt_of_cut (h.drop (q + 2)) hcut hdrop
    rw [metaEnd] at hpos ⊢
    omega
  rw [eventTurn_meta hm, eventTurn_meta hm']
  by_cases heot : ty = 0x2f
  · rw [if_pos heot, if_pos heot]
    exact ⟨Turn.brk_ne_ret _, hpos, hpos', Upto.refl _ _⟩
  rw [if_neg heot, if_neg heot]
  cases hindex : metaIndex ty s.curTrack with
  | none => exact ⟨Turn.seek_ne_ret _ _, hpos, hpos', Upto.refl _ _⟩
  | some i =>
    cases hfound : s.baFound i with
    | true =>
      simp only [recordTurn_found (s := s.behindMeta _ q) hfound]
      exact ⟨Turn.seek_ne_ret _ _, hpos, hpos', Upto.refl _ _⟩
    | false =>
      simp only [recordTurn_store (s := s.behindMeta P q) hfound hend,
        recordTurn_store (s := s.behindMeta B q) hfound hend']
      refine ⟨Turn.seek_ne_ret _ _, hpos, hpos', (Upto.refl _ _).update i _ ?_⟩
      exact Int.ofNat_lt.mpr hbehind

private theorem metaTurn_onPrefix (h : P <+: B) (hlarge : B.length ≤ LONG_MAX) {s : Scan} {q : Nat}
    {ty : UInt8} (hm : MetaAt P s.fp.pos q ty) (hm' : MetaAt B s.fp.pos q ty) :
    eventTurn P s = eventTurn B s ∨ CutTurn P.length (eventTurn P s) (eventTurn B s) := by
  cases hcut : vlvCut (P.drop (q + 2)) with
  | false =>
    left
    obtain ⟨hval, hsize, hcut'⟩ := vlv_same h hcut
    have hend : metaEnd P q = metaEnd B q := by rw [metaEnd, hsize, metaEnd]
    have hlen : metaLen P q = metaLen B q := hval
    have hbehind : s.behindMeta P q = s.behindMeta B q := by
      rw [Scan.behindMeta, Scan.behindMeta, hend, hcut']
    rw [eventTurn_meta hm, eventTurn_meta hm', hlen, hbehind]
  | true =>
    rcases Nat.lt_or_ge P.length B.length with hlt | hge
    · exact Or.inr (metaTurn_cut h hlarge hlt hm hm' hcut)
    · left
      have hPB : P = B := h.eq_of_length (Nat.le_antisymm h.length_le hge)
      rw [hPB]

/-- A meta event whose status byte the prefix has. -/
private theorem metaStatus_onPrefix (h : P <+: B) (hlarge : B.length ≤ LONG_MAX) {s : Scan}
    {q : Nat} (hstatus : StatusAt P s.fp.pos q 255) (hstatus' : StatusAt B s.fp.pos q 255)
    (hret : ∀ e u, eventTurn B s ≠ .ret e u) :
    eventTurn P s = eventTurn B s ∨ CutTurn P.length (eventTurn P s) (eventTurn B s) := by
  have hff : (255 : UInt8).toNat = 255 := rfl
  rcases Nat.lt_or_ge (q + 1) P.length with hlt | hge
  · have hty : P[q + 1]? = some P[q + 1] := List.getElem?_eq_getElem hlt
    generalize P[q + 1] = ty at hty
    have hty' := byte_onPrefix h hty
    have hlen : ¬ vlvRejected (B.drop (q + 2)) := by
      intro hrej
      apply hret
      rw [eventTurn_status hstatus', statusTurn_meta hff]
      exact metaTurn_rejected (s := s.moveTo (q + 1) s.fp.eof) hty' hrej
    have hlen' : ¬ vlvRejected (P.drop (q + 2)) := fun hrej =>
      hlen (vlvRejected_onPrefix (h.drop _) (vlvCounted_behind hlarge (Nat.succ_pos _)) hrej)
    exact metaTurn_onPrefix h hlarge { hstatus with type := hty, length := hlen' }
      { hstatus' with type := hty', length := hlen }
  · right
    have hturn : eventTurn P s = .seek 0x7f (s.moveTo (q + 1) true) := by
      rw [eventTurn_status hstatus, statusTurn_meta hff, metaTurn_noType hge]
      rfl
    have hspec := eventTurn_spec B s
    have hle := hspec.status_le.2
    have hpos' := hstatus'.pos
    have hlt' := hstatus'.lt
    rw [hturn]
    refine ⟨Turn.seek_ne_ret _ _, hge, ?_, hspec.upto (by omega)⟩
    have := hle (by omega) hstatus'.delta
    omega

/-- The turn on the prefix is the turn on the whole file, or it runs into the cut. -/
theorem eventTurn_onPrefix (h : P <+: B) (hlarge : B.length ≤ LONG_MAX) {s : Scan}
    (hpos : 0 < s.fp.pos) (hret : ∀ e u, eventTurn B s ≠ .ret e u) :
    eventTurn P s = eventTurn B s ∨ CutTurn P.length (eventTurn P s) (eventTurn B s) := by
  have hspec := eventTurn_spec B s
  have hdelta : ¬ vlvRejected (B.drop s.fp.pos) := by
    intro hrej
    exact hret _ _ (eventTurn_rejected hrej)
  have hdelta' : ¬ vlvRejected (P.drop s.fp.pos) := fun hrej =>
    hdelta (vlvRejected_onPrefix (h.drop _) (vlvCounted_behind hlarge hpos) hrej)
  rcases Nat.lt_or_ge (s.fp.pos + vlvSize (P.drop s.fp.pos)) P.length with hlt | hge
  · have hbyte := List.getElem?_eq_getElem hlt
    generalize P[s.fp.pos + vlvSize (P.drop s.fp.pos)] = b at hbyte
    have hstatus : StatusAt P s.fp.pos (s.fp.pos + vlvSize (P.drop s.fp.pos)) b :=
      ⟨hdelta', rfl, hbyte⟩
    have hsize := (vlv_onPrefix (h.drop s.fp.pos) hstatus.not_cut).2.1
    have hstatus' : StatusAt B s.fp.pos (s.fp.pos + vlvSize (P.drop s.fp.pos)) b :=
      ⟨hdelta, by rw [hsize], byte_onPrefix h hbyte⟩
    generalize hq : s.fp.pos + vlvSize (P.drop s.fp.pos) = q at hstatus hstatus' hlt
    rcases Nat.lt_or_ge b.toNat 128 with hdata | hhigh
    · rw [eventTurn_status hstatus, eventTurn_status hstatus', statusTurn_data hdata,
        statusTurn_data hdata]
      exact Or.inl rfl
    rcases Nat.lt_or_ge b.toNat 240 with hchan | hsys
    · rw [eventTurn_status hstatus, eventTurn_status hstatus', statusTurn_channel hhigh hchan,
        statusTurn_channel hhigh hchan]
      exact Or.inl rfl
    by_cases hff : b.toNat = 255
    · have hb : b = 255 := UInt8.toNat_inj.mp hff
      subst hb
      exact metaStatus_onPrefix h hlarge hstatus hstatus' hret
    · rw [eventTurn_status hstatus', statusTurn_sysEx hsys hff] at hret
      rw [eventTurn_status hstatus, eventTurn_status hstatus', statusTurn_sysEx hsys hff,
        statusTurn_sysEx hsys hff]
      exact sysExTurn_onPrefix h (vlvCounted_behind hlarge (Nat.succ_pos _)) hret
  · right
    have hsize := (vlvSize_onPrefix (h.drop s.fp.pos)).1
    rw [eventTurn_end hdelta' hge]
    refine ⟨nofun, hge, ?_, hspec.upto (by omega)⟩
    have := hspec.status_le.1
    omega

/-! ## Both scans -/

theorem fseekULong_past {past : Nat → Bool} (hpast : ∀ p, past p = true) (fp : Stream)
    (off : ULong) : fseekULong past P fp off .SEEK_CUR = fseekULong past B fp off .SEEK_CUR := by
  simp only [fseekULong, fseek_cur_past hpast]

private theorem trackTurn_onPrefix {past : Nat → Bool} (hpast : ∀ p, past p = true) (h : P <+: B)
    {s : Scan} (hlen : s.fp.pos + 4 ≤ P.length) : trackTurn past P s = trackTurn past B s := by
  have hle := h.length_le
  have hread : fread P 4 s.fp = fread B 4 s.fp := by
    obtain ⟨t, rfl⟩ := h
    rw [fread_full hlen, fread_full (by omega), List.drop_append_of_le_length (by omega),
      List.take_append_of_le_length (by rw [List.length_drop]; omega)]
  have hseek (fp : Stream) : fseek past P 4 .SEEK_CUR fp = fseek past B 4 .SEEK_CUR fp :=
    (fseek_cur_past hpast P 4 fp).trans (fseek_cur_past hpast B 4 fp).symm
  simp only [trackTurn, hread, hseek]

private theorem scanStep_onPrefix {past : Nat → Bool} (hpast : ∀ p, past p = true) (h : P <+: B)
    (hlarge : B.length ≤ LONG_MAX) {s : ScanState} (hpos : 0 < s.scan.fp.pos) {r : Exit × Scan}
    (hy : Loop.Yields (scanStep past B) s r) (hr : r.1.code = 0) :
    scanStep past P s = scanStep past B s ∨
      ∃ r', Loop.Yields (scanStep past P) s r' ∧
        r'.1.code = 0 ∧ Upto P.length r'.2.events r.2.events := by
  cases s with
  | track s =>
    rcases Nat.lt_or_ge P.length (s.fp.pos + 4) with hlt | hge
    · right
      obtain ⟨u, hu, hev⟩ := track_ends past hlt
      refine ⟨_, hu, rfl, ?_⟩
      rw [hev]
      exact behind_yields (s := .track s) hlt hy
    · exact Or.inl (trackTurn_onPrefix hpast h hge)
  | event s =>
    have hret : ∀ e u, eventTurn B s ≠ .ret e u := by
      intro e u hturn
      have hexit : scanStep past B (.event s) = .inr (e, u) := by simp only [scanStep, hturn]
      rw [hy.unique (Loop.Yields.exit hexit)] at hr
      exact (EventTurn.of_eq hturn).ret_code hr
    rcases eventTurn_onPrefix (s := s) h hlarge hpos hret with hsame | hcut
    · left
      simp only [scanStep, hsame, fseekULong_past (P := P) (B := B) hpast]
    · right
      obtain ⟨e, v, hv, he, hev⟩ := turn_ends hpast (h.length_le.trans hlarge) hcut.stays hcut.pos
      refine ⟨_, hv, he, ?_⟩
      rw [hev]
      exact turn_yields hcut.pos' hcut.upto hy

end Prefix

/-- With seeks behind the end of the file allowed, a prefix of an accepted file is accepted and
keeps every record whose event has its header before the cut. -/
theorem findMetaEvents_truncated {past : Nat → Bool} (hpast : ∀ p, past p = true)
    {B P : List UInt8} (hsize : B.length < 2 ^ 31) (hPB : P <+: B) (hlen : 4 ≤ P.length)
    (events : Events) (hB : (findMetaEvents past B .start events).ret = 0) :
    (findMetaEvents past P .start events).ret = 0 ∧
      ∀ i, ((findMetaEvents past B .start events).events i).offset ≤ P.length →
        (findMetaEvents past P .start events).events i =
          (findMetaEvents past B .start events).events i := by
  have hlarge : B.length ≤ LONG_MAX := by
    rw [LONG_MAX]
    omega
  obtain ⟨hhead, heq⟩ := findMetaEvents_accepted hB
  have hhead' : HeaderOk past P := by
    refine ⟨?_, Or.inr (hpast 14)⟩
    obtain ⟨t, rfl⟩ := hPB
    rw [← hhead.signature, List.take_append_of_le_length hlen]
  rw [heq] at hB ⊢
  rw [findMetaEvents_header hhead']
  obtain ⟨r, hr, hcode, hupto⟩ :=
    (scanLoops_yields past B (scanStart events ⟨14, false⟩)).part
      (Q := fun r' r => r'.1.code = 0 ∧ Upto P.length r'.2.events r.2.events)
      ⟨hB, Upto.refl _ _⟩ fun t ht hy => by
        have hstart : 14 ≤ t.scan.fp.pos := pos_of_reaches ht
        exact scanStep_onPrefix hpast hPB hlarge (by omega) hy hB
  rw [scanLoops_eq hr]
  refine ⟨hcode, ?_⟩
  intro i hi
  rcases hupto i with hsame | hbehind
  · exact hsame
  · simp only at hi
    omega

/-- A text event of three bytes, cut behind its first byte. -/
theorem findMetaEvents_truncated_text :
    let B : List UInt8 := [0x4d, 0x54, 0x68, 0x64, 0, 0, 0, 6, 0, 0, 0, 1, 0, 96,
      0x4d, 0x54, 0x72, 0x6b, 0, 0, 0, 11, 0, 0xff, 1, 3, 0x61, 0x62, 0x63, 0, 0xff, 0x2f, 0]
    (findMetaEvents (fun _ => true) (B.take 27) .start zeroedEvents).ret = 0 ∧
      (findMetaEvents (fun _ => true) (B.take 27) .start zeroedEvents).events META_COMMENT =
        ⟨18, 26, 3⟩ := by
  intro B
  have hB : (findMetaEvents (fun _ => true) B .start zeroedEvents).ret = 0 := by
    decide +kernel
  have hrec : (findMetaEvents (fun _ => true) B .start zeroedEvents).events META_COMMENT =
      ⟨18, 26, 3⟩ := by
    decide +kernel
  obtain ⟨hret, hsame⟩ := findMetaEvents_truncated (fun _ => rfl) (by decide)
    (List.take_prefix 27 B) (by decide) _ hB
  refine ⟨hret, (hsame META_COMMENT ?_).trans hrec⟩
  rw [hrec]
  decide

end StepMid
