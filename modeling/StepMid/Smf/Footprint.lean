import StepMid.Smf.Progress

/-!
# What the scan looks at

The scan looks at signatures, variable-length values, status bytes and meta event types. Whatever
else a file holds, it passes with a seek, so files that hold the same where the scan looks are
scanned alike.
-/

namespace StepMid

/-- The positions that are looked at on the way from `fp` to `fp'`; where the file ends, that is
looked at too. -/
def Stream.Looked (fp fp' : Stream) (p : Nat) : Prop :=
  fp.pos ≤ p ∧ (p < fp'.pos ∨ p = fp'.pos ∧ fp'.eof = true)

/-- Reading `F` may lead from `fp` to `fp'`. -/
structure Stream.To (F : List UInt8) (fp fp' : Stream) : Prop where
  pos : fp.pos ≤ fp'.pos
  eof : fp.eof = true → fp'.eof = true
  ran : fp'.eof = true → fp.eof = true ∨ F.length ≤ fp'.pos
  inside : fp'.pos ≤ fp.pos ∨ fp'.pos ≤ F.length

namespace Stream.To

variable {F : List UInt8} {fp fp' fp'' : Stream} {p : Nat}

theorem refl (fp : Stream) : fp.To F fp := ⟨le_rfl, id, Or.inl, Or.inl le_rfl⟩

theorem trans (h : fp.To F fp') (h' : fp'.To F fp'') : fp.To F fp'' := by
  refine ⟨h.pos.trans h'.pos, h'.eof ∘ h.eof, fun heof => ?_, ?_⟩
  · rcases h'.ran heof with heof' | hend
    · exact (h.ran heof').imp_right fun hend => hend.trans h'.pos
    · exact Or.inr hend
  · rcases h'.inside with hle | hin
    · exact h.inside.imp hle.trans hle.trans
    · exact Or.inr hin

/-- The first part of the way. -/
theorem looked_left (h : fp'.To F fp'') (hp : fp.Looked fp' p) : fp.Looked fp'' p := by
  have hpos := h.pos
  refine ⟨hp.1, ?_⟩
  rcases hp.2 with hlt | ⟨heq, heof⟩
  · exact Or.inl (by omega)
  · rcases hpos.lt_or_eq with hlt | hsame
    · exact Or.inl (by omega)
    · exact Or.inr ⟨heq.trans hsame, h.eof heof⟩

/-- The rest of the way. -/
theorem looked_right (h : fp.To F fp') (hp : fp'.Looked fp'' p) : fp.Looked fp'' p :=
  ⟨h.pos.trans hp.1, hp.2⟩

end Stream.To

/-- Both files hold the same where a reader of `F` looks. -/
def Same (F G : List UInt8) (P : Nat → Prop) : Prop := ∀ p, P p → G[p]? = F[p]?

theorem Same.mono {F G : List UInt8} {P Q : Nat → Prop} (h : Same F G Q) (hPQ : ∀ p, P p → Q p) :
    Same F G P :=
  fun p hp => h p (hPQ p hp)

/-! ## Reading -/

section

variable {F G : List UInt8}

theorem fgetc_to (F : List UInt8) (fp : Stream) : fp.To F (fgetc F fp).2 := by
  rcases fgetc_cases F fp with ⟨hend, h⟩ | ⟨b, -, hlt, h⟩
  · rw [h]
    exact ⟨le_rfl, fun _ => rfl, fun _ => Or.inr hend, Or.inl le_rfl⟩
  · rw [h]
    exact ⟨Nat.le_succ _, id, Or.inl, Or.inr hlt⟩

theorem fgetc_congr {fp : Stream} (h : Same F G (fp.Looked (fgetc F fp).2)) :
    fgetc G fp = fgetc F fp := by
  have hsame : G[fp.pos]? = F[fp.pos]? := by
    apply h
    rcases fgetc_cases F fp with ⟨-, hrun⟩ | ⟨b, -, -, hrun⟩
    · rw [hrun]
      exact ⟨le_rfl, Or.inr ⟨rfl, rfl⟩⟩
    · rw [hrun]
      exact ⟨le_rfl, Or.inl (Nat.lt_succ_self _)⟩
  rw [fgetc, fgetc, hsame]

/-- A value is decoded from its bytes, and from the end of the file if that cuts it. -/
theorem vlv_congr {l m : List UInt8} (h : ∀ k, k < vlvSize l → m[k]? = l[k]?)
    (hcut : vlvCut l = true → m[vlvSize l]? = none) :
    vlvGroups m = vlvGroups l ∧ vlvSize m = vlvSize l ∧ vlvCut m = vlvCut l := by
  induction l generalizing m with
  | nil =>
    have hnil : m = [] := by
      cases m with
      | nil => rfl
      | cons b m => exact nomatch hcut rfl
    rw [hnil]
    exact ⟨rfl, rfl, rfl⟩
  | cons b l ih =>
    have hpos : 0 < vlvSize (b :: l) := vlvSize_pos (List.cons_ne_nil b l)
    have hhead := h 0 hpos
    cases m with
    | nil => cases hhead
    | cons c m =>
      obtain rfl : c = b := Option.some.inj hhead
      cases hc : isCont c with
      | false => simp [vlvGroups, vlvSize, vlvCut, hc]
      | true =>
        have hsize : vlvSize (c :: l) = vlvSize l + 1 := by rw [vlvSize, hc, if_pos rfl]
        rw [hsize] at h hcut
        rw [vlvCut, hc, Bool.true_and] at hcut
        have hrest := ih (m := m) (fun k hk => h (k + 1) (by omega)) fun hl => hcut hl
        simpa [vlvGroups, vlvSize, vlvCut, hc] using hrest

theorem readVLV_stream (F : List UInt8) (fp : Stream) :
    (readVLV F fp).2 =
      ⟨fp.pos + vlvSize (F.drop fp.pos), fp.eof || vlvCut (F.drop fp.pos)⟩ := by
  rw [readVLV_eq]

theorem readVLV_to (F : List UInt8) (fp : Stream) : fp.To F (readVLV F fp).2 := by
  rw [readVLV_stream]
  have hle := vlvSize_le (F.drop fp.pos)
  rw [List.length_drop] at hle
  refine ⟨Nat.le_add_right _ _, fun heof => by rw [heof, Bool.true_or], fun heof => ?_, ?_⟩
  · rw [Bool.or_eq_true] at heof
    refine heof.imp_right fun hcut => ?_
    have hsize := vlvSize_of_cut hcut
    rw [List.length_drop] at hsize
    dsimp only
    omega
  · dsimp only
    omega

theorem readVLV_congr {fp : Stream} (h : Same F G (fp.Looked (readVLV F fp).2)) :
    readVLV G fp = readVLV F fp := by
  rw [readVLV_stream] at h
  obtain ⟨hgroups, hsize, hcut⟩ := vlv_congr (l := F.drop fp.pos) (m := G.drop fp.pos)
    (by
      intro k hk
      rw [List.getElem?_drop, List.getElem?_drop]
      exact h _ ⟨Nat.le_add_right _ _, Or.inl (Nat.add_lt_add_left hk _)⟩)
    (by
      intro hcut
      have hend := h (fp.pos + vlvSize (F.drop fp.pos))
        ⟨Nat.le_add_right _ _, Or.inr ⟨rfl, by rw [hcut, Bool.or_true]⟩⟩
      have hsize := vlvSize_of_cut hcut
      rw [List.length_drop] at hsize
      rw [List.getElem?_drop, hend]
      exact List.getElem?_eq_none (by omega))
  have hrej : vlvRejected (G.drop fp.pos) ↔ vlvRejected (F.drop fp.pos) := by
    rw [vlvRejected, vlvRejected, vlvCount, vlvCount, hgroups]
  have hval : vlvVal (G.drop fp.pos) = vlvVal (F.drop fp.pos) := by rw [vlvVal, vlvVal, hgroups]
  simp only [readVLV_eq, hrej, hval, hsize, hcut]

theorem fread_to (F : List UInt8) (n : Nat) (fp : Stream) : fp.To F (fread F n fp).2 := by
  rcases Nat.lt_or_ge F.length (fp.pos + n) with hshort | hfull
  · rw [fread_short hshort]
    refine ⟨Nat.le_add_right _ _, fun heof => by rw [heof, Bool.true_or], fun _ => Or.inr ?_, ?_⟩
    all_goals
      dsimp only
      omega
  · rw [fread_full hfull]
    exact ⟨Nat.le_add_right _ _, id, Or.inl, Or.inr hfull⟩

/-- The bytes delivered, and the end of the file behind too few of them. -/
theorem fread_congr {n : Nat} {fp : Stream} (h : Same F G (fp.Looked (fread F n fp).2)) :
    fread G n fp = fread F n fp := by
  have hgot : (G.drop fp.pos).take n = (F.drop fp.pos).take n := by
    apply List.ext_getElem?
    intro k
    by_cases hk : k < n
    · rw [List.getElem?_take_of_lt hk, List.getElem?_take_of_lt hk, List.getElem?_drop,
        List.getElem?_drop]
      rcases Nat.lt_or_ge (fp.pos + n) (F.length + 1) with hfull | hshort
      · rw [fread_full (by omega)] at h
        exact h _ ⟨Nat.le_add_right _ _, Or.inl (Nat.add_lt_add_left hk _)⟩
      · rw [fread_short (by omega)] at h
        have hpos : decide (0 < n) = true := decide_eq_true (by omega)
        rcases Nat.lt_or_ge (fp.pos + k) (fp.pos + (F.length - fp.pos)) with hin | hout
        · exact h _ ⟨Nat.le_add_right _ _, Or.inl hin⟩
        · have hend := h (fp.pos + (F.length - fp.pos))
            ⟨Nat.le_add_right _ _, Or.inr ⟨rfl, by rw [hpos, Bool.or_true]⟩⟩
          have hlen : G.length ≤ fp.pos + (F.length - fp.pos) := by
            rw [← List.getElem?_eq_none_iff, hend]
            exact List.getElem?_eq_none (by omega)
          rw [List.getElem?_eq_none (by omega), List.getElem?_eq_none (by omega)]
    · rw [List.getElem?_eq_none (by rw [List.length_take]; omega),
        List.getElem?_eq_none (by rw [List.length_take]; omega)]
  rw [fread, fread, hgot]

end

/-! ## One turn -/

section

variable {F G : List UInt8}

private theorem sysExTurn_fp (F : List UInt8) (s : Scan) :
    (sysExTurn F s).scan.fp = (readVLV F s.fp).2 := by
  rw [sysExTurn]
  split
  · rename_i h
    rw [h]
    rfl
  · rename_i h
    rw [h]
    rfl

private theorem sysExTurn_congr {s : Scan} (h : Same F G (s.fp.Looked (sysExTurn F s).scan.fp)) :
    sysExTurn G s = sysExTurn F s := by
  rw [sysExTurn_fp] at h
  rw [sysExTurn, sysExTurn, readVLV_congr h]

private theorem recordTurn_fp (i : Fin META_MAX) (length : ULong) (s : Scan) :
    (recordTurn i length s).scan.fp = s.fp := by
  rw [recordTurn]
  split
  · dsimp only
    split <;> rfl
  · rfl

private theorem metaTurn_fp (F : List UInt8) (s : Scan) :
    (metaTurn F s).scan.fp = (readVLV F (fgetc F s.fp).2).2 := by
  rw [metaTurn]
  dsimp only
  split
  · rename_i h
    rw [h]
    rfl
  · rename_i h
    rw [h]
    split
    · split
      · exact recordTurn_fp ..
      · rfl
    · split <;> rfl

private theorem metaTurn_congr {s : Scan} (h : Same F G (s.fp.Looked (metaTurn F s).scan.fp)) :
    metaTurn G s = metaTurn F s := by
  rw [metaTurn_fp] at h
  have htype : fgetc G s.fp = fgetc F s.fp :=
    fgetc_congr (h.mono fun _ => (readVLV_to F _).looked_left)
  have hlength : readVLV G (fgetc F s.fp).2 = readVLV F (fgetc F s.fp).2 :=
    readVLV_congr (h.mono fun _ => (fgetc_to F s.fp).looked_right)
  simp only [metaTurn, htype, hlength]

/-- The dispatch on a byte that was read reads on. -/
private theorem statusTurn_to (F : List UInt8) (c : CInt) (s : Scan) :
    s.fp.To F (statusTurn F c s).scan.fp := by
  rw [statusTurn]
  split
  · split
    · split
      · rw [metaTurn_fp]
        exact (fgetc_to F s.fp).trans (readVLV_to F _)
      · rw [sysExTurn_fp]
        exact readVLV_to F s.fp
    · dsimp only
      split <;> exact .refl _
  · split <;> exact .refl _

private theorem statusTurn_congr {c : CInt} {s : Scan}
    (h : Same F G (s.fp.Looked (statusTurn F c s).scan.fp)) :
    statusTurn G c s = statusTurn F c s := by
  by_cases hhigh : c &&& 0x80 ≠ 0
  · by_cases hsys : c &&& 0xf0 = 0xf0
    · by_cases hff : c = 0xff
      · simp only [statusTurn, if_pos hhigh, if_pos hsys, if_pos hff] at h ⊢
        exact metaTurn_congr h
      · simp only [statusTurn, if_pos hhigh, if_pos hsys, if_neg hff] at h ⊢
        exact sysExTurn_congr h
    · simp only [statusTurn, if_pos hhigh, if_neg hsys]
  · simp only [statusTurn, if_neg hhigh]

theorem eventTurn_to (F : List UInt8) (s : Scan) : s.fp.To F (eventTurn F s).scan.fp := by
  have hdelta := readVLV_to F s.fp
  rw [eventTurn]
  split
  · rename_i h
    rw [h] at hdelta
    exact hdelta
  · rename_i fp h
    rw [h] at hdelta
    have hstatus := hdelta.trans (fgetc_to F fp)
    dsimp only
    split
    · exact hstatus
    · exact hstatus.trans (statusTurn_to F _ { s with fp := (fgetc F fp).2 })

/-- A turn is determined by what it looks at. -/
theorem eventTurn_congr {s : Scan} (h : Same F G (s.fp.Looked (eventTurn F s).scan.fp)) :
    eventTurn G s = eventTurn F s := by
  have hto := eventTurn_to F s
  rcases hread : readVLV F s.fp with ⟨delta, fp⟩
  have hfp : (readVLV F s.fp).2 = fp := by rw [hread]
  have hdelta : s.fp.To F fp := by
    rw [← hfp]
    exact readVLV_to F s.fp
  have hread' (hfirst : fp.To F (eventTurn F s).scan.fp) : readVLV G s.fp = (delta, fp) := by
    rw [← hread]
    apply readVLV_congr
    rw [hfp]
    exact h.mono fun _ => hfirst.looked_left
  cases delta with
  | none =>
    have hturn : (eventTurn F s).scan.fp = fp := by simp only [eventTurn, hread, Turn.scan]
    simp only [eventTurn, hread, hread' (by rw [hturn]; exact .refl fp)]
  | some val =>
    rcases hget : fgetc F fp with ⟨c, fp'⟩
    have hfp' : (fgetc F fp).2 = fp' := by rw [hget]
    have hc : fp.To F fp' := by
      rw [← hfp']
      exact fgetc_to F fp
    have hrest : fp'.To F (eventTurn F s).scan.fp := by
      simp only [eventTurn, hread, hget]
      split
      · exact .refl _
      · exact statusTurn_to F c { s with fp := fp' }
    have hget' : fgetc G fp = (c, fp') := by
      rw [← hget]
      apply fgetc_congr
      rw [hfp']
      exact h.mono fun _ hp => hdelta.looked_right (hrest.looked_left hp)
    simp only [eventTurn, hread, hread' (hc.trans hrest), hget, hget'] at h ⊢
    by_cases hend : c = EOF
    · simp only [if_pos hend]
    · simp only [if_neg hend] at h ⊢
      exact statusTurn_congr (h.mono fun _ => (hdelta.trans hc).looked_right)

end

/-! ## One step -/

/-- A stream of the file can be positioned at `n`. -/
def Seekable (past : Nat → Bool) (F : List UInt8) (n : Nat) : Prop :=
  n ≤ F.length ∨ past n = true

instance (past : Nat → Bool) (F : List UInt8) (n : Nat) : Decidable (Seekable past F n) :=
  inferInstanceAs (Decidable (_ ∨ _))

theorem fseek_cur_eq (past : Nat → Bool) (F : List UInt8) (n : Nat) (fp : Stream) :
    fseek past F n .SEEK_CUR fp =
      if Seekable past F (fp.pos + n) then some ⟨fp.pos + n, false⟩ else none := by
  have hneg : ¬ ((fp.pos : Int) + n < 0) := by omega
  have htarget : ((fp.pos : Int) + n).toNat = fp.pos + n := by omega
  simp only [fseek, hneg, if_false, htarget]
  rfl

/-- How far a step reads, in front of its seek. -/
def ScanState.readTo (F : List UInt8) : ScanState → Stream
  | .track s => (fread F SIG_SIZE s.fp).2
  | .event s => (eventTurn F s).scan.fp

def ScanState.Looks (F : List UInt8) (s : ScanState) : Nat → Prop :=
  s.scan.fp.Looked (s.readTo F)

/-- The step seeks to `n`; an offset that a `long` cannot hold does not come to a seek. -/
inductive ScanState.SeeksTo (F : List UInt8) : ScanState → Nat → Prop
  | chunk {s : Scan} : (F.drop s.fp.pos).take 4 = MTrk → s.fp.eof = false →
      s.fp.pos + 4 ≤ LONG_MAX → SeeksTo F (.track s) (s.fp.pos + 8)
  | event {s u : Scan} {off : ULong} : eventTurn F s = .seek off u → off.toNat ≤ LONG_MAX →
      SeeksTo F (.event s) (u.fp.pos + off.toNat)

theorem ScanState.readTo_to (F : List UInt8) (s : ScanState) : s.scan.fp.To F (s.readTo F) := by
  cases s with
  | track s => exact fread_to F SIG_SIZE s.fp
  | event s => exact eventTurn_to F s

section

variable {past past' : Nat → Bool} {F G : List UInt8}

private theorem trackTurn_congr {s : Scan} (h : Same F G (ScanState.Looks F (.track s)))
    (hseek : ∀ n, ScanState.SeeksTo F (.track s) n → (Seekable past' G n ↔ Seekable past F n)) :
    trackTurn past' G s = trackTurn past F s := by
  have hread : fread G SIG_SIZE s.fp = fread F SIG_SIZE s.fp := fread_congr h
  rcases Nat.lt_or_ge F.length (s.fp.pos + 4) with hshort | hfull
  · have hlen : (F.drop s.fp.pos).length ≠ SIG_SIZE := by
      rw [List.length_drop, SIG_SIZE]
      omega
    simp only [trackTurn, hread, fread_short (n := SIG_SIZE) hshort]
    rw [if_pos (Or.inl hlen), if_pos (Or.inl hlen)]
  · simp only [trackTurn, hread, fread_full (n := SIG_SIZE) hfull]
    by_cases hlen : ((F.drop s.fp.pos).take SIG_SIZE).length ≠ SIG_SIZE ∨ s.fp.eof = true
    · rw [if_pos hlen, if_pos hlen]
    rw [if_neg hlen, if_neg hlen]
    by_cases hsig : (F.drop s.fp.pos).take SIG_SIZE = MTrk
    · rw [if_neg (not_not.mpr hsig), if_neg (not_not.mpr hsig)]
      by_cases hsmall : s.fp.pos + 4 ≤ LONG_MAX
      · rw [not_or, Bool.not_eq_true] at hlen
        have hiff := hseek _ (.chunk hsig hlen.2 hsmall)
        have hfour (past : Nat → Bool) (F : List UInt8) :=
          fseek_cur_eq past F 4 ⟨s.fp.pos + SIG_SIZE, s.fp.eof⟩
        simp only [Nat.cast_ofNat] at hfour
        simp only [hfour, Nat.add_assoc, hiff]
      · have htell : ftell ⟨s.fp.pos + SIG_SIZE, s.fp.eof⟩ < 0 := by
          rw [ftell, if_neg hsmall]
          decide
        rw [if_pos htell, if_pos htell]
    · rw [if_pos hsig, if_pos hsig]

/-- A step is determined by what it looks at and by whether its seek succeeds. -/
theorem scanStep_congr {s : ScanState} (h : Same F G (s.Looks F))
    (hseek : ∀ n, s.SeeksTo F n → (Seekable past' G n ↔ Seekable past F n)) :
    scanStep past' G s = scanStep past F s := by
  cases s with
  | track s => exact trackTurn_congr h hseek
  | event s =>
    have hturn : eventTurn G s = eventTurn F s := eventTurn_congr h
    simp only [scanStep, hturn]
    cases hcase : eventTurn F s with
    | brk u | ret e u => rfl
    | seek off u =>
      by_cases hoff : off.toNat ≤ LONG_MAX
      · have hiff := hseek _ (.event hcase hoff)
        simp only [fseekULong, fseek_cur_eq, hiff]
      · simp only [fseekULong, if_pos (Nat.lt_of_not_le hoff)]

end

/-! ## The whole scan -/

section

variable (past : Nat → Bool) (F : List UInt8) (events : Events)

/-- The scan comes to the state `s`. -/
structure ScanReaches (s : ScanState) : Prop where
  header : HeaderOk past F
  reaches : Loop.Reaches (scanStep past F) (scanStart events ⟨14, false⟩) s

/-- The positions that the scan looks at. -/
inductive ScanLooks (p : Nat) : Prop
  | header : Stream.start.Looked (fread F SIG_SIZE .start).2 p → ScanLooks p
  | step {s : ScanState} : ScanReaches past F events s → s.Looks F p → ScanLooks p

/-- The positions that the scan seeks to. -/
inductive ScanSeeks : Nat → Prop
  | header : F.take 4 = MThd → ScanSeeks 14
  | step {s : ScanState} {n : Nat} : ScanReaches past F events s → s.SeeksTo F n → ScanSeeks n

end

section

variable {past past' : Nat → Bool} {F G : List UInt8} {events : Events}

private theorem signature_length (h : F.take 4 = MThd) : 4 ≤ F.length := by
  have hlen := congrArg List.length h
  have hfour : MThd.length = 4 := rfl
  rw [hfour, List.length_take] at hlen
  omega

/-- Files that hold the same where the scan looks, on hosts that agree on its seeks, are scanned
alike. -/
theorem findMetaEvents_congr (h : Same F G (ScanLooks past F events))
    (hseek : ∀ n, ScanSeeks past F events n → (Seekable past' G n ↔ Seekable past F n)) :
    findMetaEvents past' G .start events = findMetaEvents past F .start events := by
  have hread : fread G SIG_SIZE .start = fread F SIG_SIZE .start :=
    fread_congr (h.mono fun _ => .header)
  have hsig : G.take 4 = F.take 4 := congrArg Prod.fst hread
  by_cases hthd : F.take 4 = MThd
  · have hiff := hseek 14 (.header hthd)
    by_cases hhead : HeaderOk past F
    · have hhead' : HeaderOk past' G := ⟨hsig.trans hthd, hiff.mpr hhead.seek⟩
      have hbody (u : ScanState)
          (hu : Loop.Reaches (scanStep past F) (scanStart events ⟨14, false⟩) u) :
          scanStep past' G u = scanStep past F u :=
        scanStep_congr (h.mono fun _ => .step ⟨hhead, hu⟩)
          fun n hn => hseek n (.step ⟨hhead, hu⟩ hn)
      have hloops := (scanLoops_yields past F (scanStart events ⟨14, false⟩)).congr hbody
      rw [findMetaEvents_header hhead, findMetaEvents_header hhead', scanLoops_eq hloops]
    · have hno : ¬ Seekable past F 14 := fun hyes => hhead ⟨hthd, hyes⟩
      have hno' : ¬ Seekable past' G 14 := fun hyes => hno (hiff.mp hyes)
      have hpos : (fread F SIG_SIZE .start).2.pos = 4 := by
        rw [fread_full (signature_length hthd)]
        rfl
      have hten (past : Nat → Bool) (F : List UInt8) := fseek_cur_eq past F 10
      simp only [Nat.cast_ofNat] at hten
      simp only [findMetaEvents, hread, hten, hpos]
      rw [if_neg hno, if_neg hno']
  · simp only [findMetaEvents, hread]
    by_cases hlen : (fread F SIG_SIZE .start).1.length ≠ SIG_SIZE
    · rw [if_pos hlen, if_pos hlen]
    · have hne : (fread F SIG_SIZE .start).1 ≠ MThd := hthd
      rw [if_neg hlen, if_neg hlen, if_pos hne, if_pos hne]

end

end StepMid
