import StepMid.Load.Metadata
import StepMid.Load.WellFormed
import StepMid.Smf.Reading

/-!
# What is read back, exactly

On a host that obliges, and that lets a stream be set behind the end of its file, the first record
that is not inside the file decides what `readMetaEvent` does. The texts depend on the file and on
the record alone.
-/

namespace StepMid

/-- The record is to be read, and its payload is not inside the file. -/
def MetaEvent.Outside (F : List UInt8) (r : MetaEvent) : Prop :=
  r.length ≠ 0 ∧ ¬ r.EndsBy F.length

instance (F : List UInt8) (r : MetaEvent) : Decidable (r.Outside F) :=
  inferInstanceAs (Decidable (_ ∧ ¬ _ ≤ _))

/-- The index of the first record outside the file, `META_MAX` if there is none. -/
def firstOutside (F : List UInt8) (events : Events) : Nat :=
  (List.finRange META_MAX).findIdx fun i => decide ((events i).Outside F)

/-- An `int` holds the lengths, and no payload starts in the file header or in the first track
signature. -/
structure BehindHeader (events : Events) : Prop where
  length : ∀ i, (events i).length.toNat < 2 ^ 31
  offset : ∀ i, (events i).length ≠ 0 → 18 ≤ (events i).offset

theorem ReadsTo.le {F : List UInt8} {track trkLenOffset p : Nat} {rs : CInt}
    (h : ReadsTo F track trkLenOffset rs p) : 22 ≤ p := by
  induction h with
  | first => exact le_rfl
  | event _ hevent ih =>
    have := hevent.lt
    omega
  | chunk _ hm _ ih =>
    have := hm.lt
    rw [metaEnd]
    omega

/-- The records of a scan on a zeroed array are so. -/
theorem scanEvents_behindHeader {host : Host} {F : List UInt8}
    (h : (findMetaEvents host.past F .start zeroedEvents).ret = 0) :
    BehindHeader (scanEvents host F) := by
  refine ⟨scanEvents_length h, fun i hi => ?_⟩
  obtain ⟨q, -, hat, -⟩ := scanEvents_present h hi
  have hnonneg : 0 ≤ (scanEvents host F i).offset := by
    rw [hat.offset]
    exact Int.natCast_nonneg _
  obtain ⟨trkLenOffset, q', hfirst⟩ := (findMetaEvents_firstMet h i).2 hnonneg
  have hrecord : scanEvents host F i = _ := (findMetaEvents_firstMet h i).1 _ _ hfirst
  obtain ⟨track, rs, p, ty, hread, hm, -⟩ := hfirst.1
  have hp := hread.le
  have hq := hm.lt
  rw [hrecord, metaEnd]
  simp only
  omega

/-! ## The records delivered -/

section

variable {build : Build} {host : Host} {F : List UInt8} {events : Events}

/-- Records behind the header are deliverable when they are inside the file. -/
theorem BehindHeader.deliverable_iff (hevents : BehindHeader events) (hhost : host.Obliges build)
    (hsize : F.length < 2 ^ 31) {i : Fin META_MAX} (hi : (events i).length ≠ 0) (limit : Int) :
    Deliverable build host F events i limit ↔ ¬ (events i).Outside F := by
  have hoff := hevents.offset i hi
  have hlen := hevents.length i
  constructor
  · rintro ⟨hinside, -⟩ ⟨-, hout⟩
    rw [MetaEvent.localLength] at hinside
    rw [MetaEvent.EndsBy] at hout
    -- the one length that is cut short cannot be inside a file below 2 GiB
    omega
  · intro hin
    refine deliverable_of_endsBy hhost ?_ limit
    by_contra hout
    exact hin ⟨hi, hout⟩

/-- The loop delivers what stands in front of the first record outside the file. -/
theorem delivered_eq {is : List (Fin META_MAX)}
    (h : ∀ i ∈ is, (events i).length ≠ 0 → ∀ limit,
      Deliverable build host F events i limit ↔ ¬ (events i).Outside F) (limit : Int) :
    (delivered build host F events limit is).1 =
        (is.take (is.findIdx fun i => decide ((events i).Outside F))).filter
          (fun i => decide ((events i).length ≠ 0)) ∧
      ((delivered build host F events limit is).2 = true ↔
        (is.findIdx fun i => decide ((events i).Outside F)) = is.length) := by
  induction is generalizing limit with
  | nil => simp [delivered]
  | cons i is ih =>
    have hrest := ih fun j hj => h j (List.mem_cons_of_mem i hj)
    rw [delivered, List.findIdx_cons]
    by_cases habsent : (events i).length = 0
    · have hin : ¬ (events i).Outside F := fun hout => hout.1 habsent
      rw [if_pos habsent, (hrest limit).1, (hrest limit).2]
      simp [habsent, hin]
    · rw [if_neg habsent]
      by_cases hout : (events i).Outside F
      · have hno : ¬ Deliverable build host F events i limit := by
          rw [h i List.mem_cons_self habsent]
          exact not_not_intro hout
        rw [if_neg hno]
        simp [hout]
      · have hyes : Deliverable build host F events i limit :=
          (h i List.mem_cons_self habsent limit).mpr hout
        rw [if_pos hyes]
        simp only [hout, decide_false, cond_false, List.take_succ_cons, List.length_cons,
          Nat.add_right_cancel_iff]
        rw [List.filter_cons_of_pos (p := fun i : Fin META_MAX => decide ((events i).length ≠ 0))
          (decide_eq_true habsent), (hrest _).1, (hrest _).2]
        exact ⟨rfl, Iff.rfl⟩

/-- What the setter gets for a deliverable record. -/
theorem Deliverable.handed {codePage : List UInt8 → List UInt16}
    (hconv : build = .STEP_K → host.Converts codePage) (hsize : F.length < 2 ^ 31)
    {i : Fin META_MAX} (hlen : (events i).length.toNat < 2 ^ 31) (hoff : 2 ≤ (events i).offset)
    {limit : Int} (hdel : Deliverable build host F events i limit) {s : Str}
    (hs : IsText build host i (textOf F (events i)) s) :
    s = handed build codePage
      (Buffer.cstr ((F.drop (events i).offset.toNat).take (events i).length.toNat)) := by
  have hlocal := localLength_eq hsize hlen hoff hdel.1
  rw [← hlocal]
  cases build with
  | STEP_M => exact hs
  | STEP_K =>
    have hsucc := hdel.2 rfl
    exact hs _ (hconv rfl i _ hsucc.1 hsucc.2.2)

end

/-- The setter calls for the records in front of the first one outside the file. -/
def exactCalls (build : Build) (codePage : List UInt8 → List UInt16) (F : List UInt8)
    (events : Events) : List (Fin META_MAX × Str) :=
  (((List.finRange META_MAX).take (firstOutside F events)).filter
      fun i => decide ((events i).length ≠ 0)).map
    fun i => (i, handed build codePage
      (Buffer.cstr ((F.drop (events i).offset.toNat).take (events i).length.toNat)))

/-- `readMetaEvent` delivers the records in front of the first one outside the file, each once, in
order and with its own text, and returns 0 if that is all of them. The records of a scan on a
zeroed array are such records. -/
theorem readMetaEvent_exact {build : Build} {host : Host} {codePage : List UInt8 → List UInt16}
    (hhost : host.Obliges build) (hpast : ∀ p, host.past p = true)
    (hconv : build = .STEP_K → host.Converts codePage) :
    (∀ F, (findMetaEvents host.past F .start zeroedEvents).ret = 0 →
      BehindHeader (scanEvents host F)) ∧
    ∀ F events, F.length < 2 ^ 31 → BehindHeader events → ∀ data fp,
      ∃ r, readMetaEvent build host F (some data) fp events = .ok r ∧
        r.calls = exactCalls build codePage F events ∧
        r.ret = if firstOutside F events = META_MAX then 0 else -1 := by
  refine ⟨fun F h => scanEvents_behindHeader h, ?_⟩
  intro F events hsize hevents data fp
  have hread : Readable host F (clampedLength host events) events := by
    refine Readable.of_length hevents.length fun i hi => ⟨?_, Or.inr (hpast _)⟩
    have := hevents.offset i hi
    omega
  obtain ⟨r, hr, -, -, hend⟩ := readMetaEvent_spec build host hread data fp
  obtain ⟨hfirsts, hall⟩ : (deliveredAll build host F events).1 = _ ∧ (_ ↔ _) :=
    delivered_eq (fun i _ hi limit => hevents.deliverable_iff hhost hsize hi limit) _
  rw [if_pos (show BufferObtained host events from .of_grants hhost.heapBuf _)] at hend
  obtain ⟨hrecords, htexts, hret⟩ := hend
  have htext : ∀ c ∈ r.calls, c.2 = handed build codePage
      (Buffer.cstr ((F.drop (events c.1).offset.toNat).take (events c.1).length.toNat)) := by
    intro c hc
    have hmem : c.1 ∈ (deliveredAll build host F events).1 := by
      rw [← hrecords]
      exact List.mem_map_of_mem hc
    obtain ⟨hpresent, limit, hdel⟩ := delivered_mem hmem
    have hoff := hevents.offset c.1 hpresent
    exact hdel.handed hconv hsize (hevents.length c.1) (by omega) (htexts c hc)
  refine ⟨r, hr, ?_, ?_⟩
  · rw [exactCalls, firstOutside, ← hfirsts, ← hrecords, List.map_map]
    refine (List.map_id r.calls).symm.trans (List.map_congr_left fun c hc => ?_)
    exact Prod.ext rfl (htext c hc)
  · rw [hret]
    exact if_congr hall rfl rfl

theorem plainHost_obliges (build : Build) : plainHost.Obliges build := by
  refine ⟨fun _ _ => rfl, fun _ i text hlen limit => ?_⟩
  simp only [Conversion.Succeeds, plainHost, if_pos hlen]
  rw [BitVec.toInt_eq_toNat_of_lt (by rw [BitVec.toNat_ofNat]; omega), BitVec.toNat_ofNat]
  exact ⟨by omega, Or.inr rfl, by decide⟩

/-- The records of a scan and the wide build. -/
theorem readMetaEvent_exact_textFile :
    (findMetaEvents plainHost.past textFile .start zeroedEvents).ret = 0 ∧
      ∃ r, readMetaEvent .STEP_K plainHost textFile (some .zeroed) .start
          (scanEvents plainHost textFile) = .ok r ∧
        r.calls = exactCalls .STEP_K latin1 textFile (scanEvents plainHost textFile) ∧
        r.ret = if firstOutside textFile (scanEvents plainHost textFile) = META_MAX then 0
          else -1 := by
  have h : (findMetaEvents plainHost.past textFile .start zeroedEvents).ret = 0 := by
    decide +kernel
  obtain ⟨hbehind, hexact⟩ := readMetaEvent_exact (plainHost_obliges .STEP_K) (fun _ => rfl)
    (fun _ => plainHost_converts)
  exact ⟨h, hexact textFile _ (by decide) (hbehind textFile h) .zeroed .start⟩

end StepMid
