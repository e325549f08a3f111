import StepMid.Load.StepLoad

/-!
# No invented metadata

Every text that a successful load sets is the payload of a meta event of the file.
-/

namespace StepMid

/-- `MultiByteToWideChar` as a function of its string: when both calls succeed, they convert it
by the code page. -/
def Host.Converts (host : Host) (codePage : List UInt8 → List UInt16) : Prop :=
  ∀ i text, 0 < (host.convert i text).required.toInt → (host.convert i text).result ≠ 0 →
    (host.convert i text).Yields (codePage text)

/-- The text as the build hands it to a setter. -/
def handed (build : Build) (codePage : List UInt8 → List UInt16) (text : List UInt8) : Str :=
  match build with
  | .STEP_M => .narrow text
  | .STEP_K => .wide (Buffer.cstr (codePage text))

/-- Record `i` stands for a meta event of `F`: its `n` payload bytes start at `o`, right behind a
length field of `k` bytes, in the track whose length field is at `t`. -/
structure Justified (F : List UInt8) (i : Fin META_MAX) (r : MetaEvent) (o n t k : Nat) : Prop where
  record : r = ⟨t, o, BitVec.ofNat 32 n⟩
  size : 1 ≤ k ∧ k ≤ 5
  complete : CompleteVlv ((F.drop (o - k)).take k)
  value : vlvValue ((F.drop (o - k)).take k) = n
  payload : 0 < n
  type : ∃ ty, F[o - k - 1]? = some ty ∧ ty.toNat = i.val + 1
  ff : F[o - k - 2]? = some 0xff
  inside : o + n ≤ F.length
  signature : (F.drop (t - 4)).take 4 = MTrk
  behind : t + 4 < o - k - 2
  seqname : i = META_SEQNAME → t = 18

/-! ## What is delivered -/

theorem delivered_sublist (build : Build) (host : Host) (F : List UInt8) (events : Events)
    (limit : Int) (is : List (Fin META_MAX)) :
    (delivered build host F events limit is).1.Sublist is := by
  induction is generalizing limit with
  | nil => exact List.Sublist.refl _
  | cons i is ih =>
    rw [delivered]
    split
    · exact (ih limit).cons i
    · split
      · exact (ih _).cons_cons i
      · exact List.nil_sublist _

theorem delivered_mem {build : Build} {host : Host} {F : List UInt8} {events : Events}
    {limit : Int} {is : List (Fin META_MAX)} {i : Fin META_MAX}
    (h : i ∈ (delivered build host F events limit is).1) :
    (events i).length ≠ 0 ∧ ∃ limit', Deliverable build host F events i limit' := by
  induction is generalizing limit with
  | nil => cases h
  | cons j is ih =>
    rw [delivered] at h
    split at h
    · exact ih h
    · split at h
      · rename_i hpresent hdel
        rcases List.mem_cons.mp h with rfl | h
        · exact ⟨hpresent, limit, hdel⟩
        · exact ih h
      · cases h

/-- In a file below 2 GiB a deliverable record is read in full. -/
theorem localLength_eq {F : List UInt8} (hsize : F.length < 2 ^ 31) {r : MetaEvent}
    (hlen : r.length.toNat < 2 ^ 31) (hoff : 2 ≤ r.offset)
    (hinside : r.offset.toNat + r.localLength ≤ F.length) : r.localLength = r.length.toNat := by
  rw [MetaEvent.localLength] at hinside ⊢
  omega

/-- The length field in front of a payload that the file holds is complete. -/
theorem lengthField_spec {F : List UInt8} {q : Nat} (htype : q + 1 < F.length)
    (hcounted : VlvCounted (F.drop (q + 2)))
    (haccepted : ¬ vlvRejected (F.drop (q + 2))) (hpos : 0 < (metaLen F q).toNat)
    (hinside : metaEnd F q + (metaLen F q).toNat ≤ F.length) :
    (1 ≤ vlvSize (F.drop (q + 2)) ∧ vlvSize (F.drop (q + 2)) ≤ 5) ∧
      CompleteVlv ((F.drop (q + 2)).take (vlvSize (F.drop (q + 2)))) ∧
      vlvValue ((F.drop (q + 2)).take (vlvSize (F.drop (q + 2)))) = (metaLen F q).toNat := by
  -- a length cut by the end of the file would leave no room for a payload
  have hcut : vlvCut (F.drop (q + 2)) = false := by
    rw [← Bool.not_eq_true]
    intro hcut
    have hsize := vlvSize_of_cut hcut
    rw [List.length_drop] at hsize
    rw [metaEnd] at hinside
    omega
  have hne : F.drop (q + 2) ≠ [] := by
    intro hnil
    rw [hnil] at hcut
    cases hcut
  obtain ⟨hcomplete, hgroups⟩ := vlv_complete hcut
  have hval := (vlvVal_toNat hcounted haccepted).1
  rw [hgroups] at hval
  exact ⟨⟨vlvSize_pos hne, vlvSize_le_five hcounted hcut haccepted⟩, hcomplete, hval.symm⟩

/-- The payload of a deliverable record is that of its event, and not empty. -/
theorem payload_of_deliverable {build : Build} {host : Host} {F : List UInt8} {q : Nat}
    {i : Fin META_MAX} (hsize : F.length < 2 ^ 31)
    (h : (findMetaEvents host.past F .start zeroedEvents).ret = 0)
    (hi : (scanEvents host F i).length ≠ 0) (hat : RecordAt F i q (scanEvents host F i))
    {limit : Int} (hdel : Deliverable build host F (scanEvents host F) i limit) :
    (scanEvents host F i).offset.toNat = metaEnd F q ∧
      (scanEvents host F i).localLength = (metaLen F q).toNat ∧ 0 < (metaLen F q).toNat ∧
      metaEnd F q + (metaLen F q).toNat ≤ F.length := by
  have hoff : (scanEvents host F i).offset.toNat = metaEnd F q := by
    rw [hat.offset, Int.toNat_natCast]
  have hlocal : (scanEvents host F i).localLength = (metaLen F q).toNat := by
    rw [localLength_eq hsize (scanEvents_length h i) ?_ hdel.1, hat.length]
    rw [hat.offset, metaEnd]
    omega
  have hne : (metaLen F q).toNat ≠ 0 := by
    intro h0
    apply hi
    rw [hat.length]
    exact BitVec.eq_of_toNat_eq h0
  refine ⟨hoff, hlocal, Nat.pos_of_ne_zero hne, ?_⟩
  rw [← hoff, ← hlocal]
  exact hdel.1

theorem justified_of_deliverable {build : Build} {host : Host} {F : List UInt8}
    (hsize : F.length < 2 ^ 31)
    (h : (findMetaEvents host.past F .start zeroedEvents).ret = 0) {i : Fin META_MAX}
    (hi : (scanEvents host F i).length ≠ 0) {limit : Int}
    (hdel : Deliverable build host F (scanEvents host F) i limit) :
    ∃ o n t k, Justified F i (scanEvents host F i) o n t k ∧
      textOf F (scanEvents host F i) = Buffer.cstr ((F.drop o).take n) := by
  obtain ⟨q, pos, hat, htrack⟩ := scanEvents_present h hi
  obtain ⟨ty, hty, htype⟩ := hat.type
  obtain ⟨hoff, hlocal, hpos, hinside⟩ := payload_of_deliverable hsize h hi hat hdel
  obtain ⟨hk, hcomplete, hval⟩ :=
    lengthField_spec (lt_of_byte hty) (vlvCounted_behind (Nat.le_of_lt_succ hsize)
      (Nat.succ_pos _)) hat.accepted hpos hinside
  have hback : metaEnd F q - vlvSize (F.drop (q + 2)) = q + 2 := by
    rw [metaEnd]
    omega
  refine ⟨metaEnd F q, (metaLen F q).toNat, pos + 4, vlvSize (F.drop (q + 2)), ?_, ?_⟩
  · constructor
    · rw [BitVec.ofNat_toNat, BitVec.setWidth_eq, ← hat.offset, ← hat.length,
        ← htrack.trkLenOffset]
    · exact hk
    · rw [hback]
      exact hcomplete
    · rw [hback]
      exact hval
    · exact hpos
    · rw [hback]
      exact ⟨ty, hty, htype⟩
    · rw [hback]
      exact hat.ff
    · exact hinside
    · exact htrack.signature
    · have := htrack.behind
      rw [hback]
      omega
    · intro hseq
      rw [htrack.seqname hseq]
  · rw [textOf, hoff, hlocal]

/-- A successful load sets each text at most once, and each to the payload, cut at its first
null, of a meta event of the file of the type that belongs to the setter. -/
theorem STEPLoad_justified {build : Build} {host : Host} {codePage : List UInt8 → List UInt16}
    (hconv : build = .STEP_K → host.Converts codePage) {nFileTypeMID : UInt32}
    {tls : Option TlsData} {F : List UInt8} (hsize : F.length < 2 ^ 31) {info : FILE_INFO}
    {r : LoadReturn}
    (hload : STEPLoad build host nFileTypeMID tls (some F) info = .ok r)
    (hret : r.ret = .STEP_SUCCESS) :
    ∃ cs : List (Fin META_MAX × Str),
      r.calls = (cs.map fun c => saSetFunc c.1 c.2) ++ formatCalls build nFileTypeMID ∧
      (cs.map Prod.fst).Nodup ∧
      ∀ c ∈ cs, ∃ o n t k, Justified F c.1 (scanEvents host F c.1) o n t k ∧
        c.2 = handed build codePage (Buffer.cstr ((F.drop o).take n)) := by
  obtain ⟨r', hload', houtcome⟩ := STEPLoad_spec build host nFileTypeMID tls (some F) info
  rw [hload] at hload'
  cases hload'
  cases houtcome with
  | unknownFormat | notReady | undelivered => cases hret
  | @success _ cs hready _ htexts =>
    refine ⟨cs, rfl, ?_, ?_⟩
    · rw [htexts.records]
      exact (delivered_sublist ..).nodup (List.nodup_finRange _)
    · intro c hc
      have hmem : c.1 ∈ (deliveredAll build host F (scanEvents host F)).1 := by
        rw [← htexts.records]
        exact List.mem_map_of_mem hc
      obtain ⟨hpresent, limit, hdel⟩ := delivered_mem hmem
      obtain ⟨o, n, t, k, hjust, htext⟩ :=
        justified_of_deliverable hsize hready.accepted hpresent hdel
      refine ⟨o, n, t, k, hjust, ?_⟩
      have hc := htexts.text c hc
      rw [← htext]
      cases build with
      | STEP_M => exact hc
      | STEP_K =>
        have hsucc := hdel.2 rfl
        exact hc _ (hconv rfl c.1 _ hsucc.1 hsucc.2.2)

theorem plainHost_converts : plainHost.Converts latin1 := by
  intro i text hreq _
  refine ⟨?_, rfl⟩
  have hlen : (latin1 text).length = text.length := List.length_map _
  simp only [plainHost] at hreq ⊢
  split at hreq
  · rename_i hshort
    rw [if_pos hshort, BitVec.toInt_eq_toNat_of_lt (by rw [BitVec.toNat_ofNat]; omega),
      BitVec.toNat_ofNat, hlen]
    omega
  · exact absurd hreq (by decide)

theorem STEPLoad_justified_textFile :
    ∃ r, STEPLoad .STEP_K plainHost 7 (some .zeroed) (some textFile) blankInfo = .ok r ∧
      r.ret = .STEP_SUCCESS ∧
      ∃ cs : List (Fin META_MAX × Str),
        r.calls = (cs.map fun c => saSetFunc c.1 c.2) ++ formatCalls .STEP_K 7 ∧
        (cs.map Prod.fst).Nodup ∧
        ∀ c ∈ cs, ∃ o n t k, Justified textFile c.1 (scanEvents plainHost textFile c.1) o n t k ∧
          c.2 = handed .STEP_K latin1 (Buffer.cstr ((textFile.drop o).take n)) := by
  obtain ⟨r, hload, -⟩ := STEPLoad_spec .STEP_K plainHost 7 (some .zeroed) (some textFile) blankInfo
  have hret : (STEPLoad .STEP_K plainHost 7 (some .zeroed) (some textFile) blankInfo).toOption.map
      LoadReturn.ret = some .STEP_SUCCESS := by
    decide +kernel
  rw [hload] at hret
  have hsucc := Option.some.inj hret
  exact ⟨r, hload, hsucc,
    STEPLoad_justified (fun _ => plainHost_converts) (by decide) hload hsucc⟩

end StepMid
