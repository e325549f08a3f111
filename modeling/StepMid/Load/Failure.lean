import StepMid.Load.StepLoad

/-!
# Failed loads and the host's record

The setters run inside the loop that can still fail, so a load that fails behind a delivered
record has changed the host's record. It happens in one situation only.
-/

namespace StepMid

section

variable (build : Build) (host : Host) (F : List UInt8) (events : Events)

/-- The limit of the wide buffer after all records of the list were delivered. -/
def limitAfter (limit : Int) (is : List (Fin META_MAX)) : Int :=
  is.foldl
    (fun limit i =>
      if (events i).length = 0 then limit
      else nextLimit build host i (textOf F (events i)) limit)
    limit

/-- Record `i` can be delivered when all records before it are. -/
def DeliverableNext (i : Fin META_MAX) : Prop :=
  Deliverable build host F events i
    (limitAfter build host F events STATIC_META_BUFFER_SIZE
      ((List.finRange META_MAX).take i.val))

/-- Record `j` is the first that cannot be delivered, and there is a record before it. -/
structure FailsBehindDelivery (j : Fin META_MAX) : Prop where
  present : (events j).length ≠ 0
  fails : ¬ DeliverableNext build host F events j
  first : ∀ i, i < j → (events i).length ≠ 0 → DeliverableNext build host F events i
  behind : ∃ i, i < j ∧ (events i).length ≠ 0

end

/-! ## Where the loop stops -/

section

variable {build : Build} {host : Host} {F : List UInt8} {events : Events}

/-- The loop over the list stops at its `n`-th record `i`. -/
private structure StopsAt (build : Build) (host : Host) (F : List UInt8) (events : Events)
    (limit : Int) (is : List (Fin META_MAX)) (n : Nat) (i : Fin META_MAX) : Prop where
  here : is[n]? = some i
  present : (events i).length ≠ 0
  fails : ¬ Deliverable build host F events i
    (limitAfter build host F events limit (is.take n))
  first : ∀ m k, m < n → is[m]? = some k → (events k).length ≠ 0 →
    Deliverable build host F events k (limitAfter build host F events limit (is.take m))

/-- The limit behind record `i`, delivered or absent. -/
private def limitBehind (build : Build) (host : Host) (F : List UInt8) (events : Events)
    (limit : Int) (i : Fin META_MAX) : Int :=
  if (events i).length = 0 then limit else nextLimit build host i (textOf F (events i)) limit

private theorem StopsAt.cons {limit : Int} {i j : Fin META_MAX} {is : List (Fin META_MAX)}
    {n : Nat} (hi : (events i).length ≠ 0 → Deliverable build host F events i limit)
    (h : StopsAt build host F events (limitBehind build host F events limit i) is n j) :
    StopsAt build host F events limit (i :: is) (n + 1) j := by
  refine ⟨h.here, h.present, h.fails, ?_⟩
  intro m k hm hk hpresent
  cases m with
  | zero =>
    obtain rfl : i = k := Option.some.inj hk
    exact hi hpresent
  | succ m => exact h.first m k (by omega) hk hpresent

private theorem StopsAt.tail {limit : Int} {i j : Fin META_MAX} {is : List (Fin META_MAX)}
    {n : Nat} (h : StopsAt build host F events limit (i :: is) (n + 1) j) :
    ((events i).length ≠ 0 → Deliverable build host F events i limit) ∧
      StopsAt build host F events (limitBehind build host F events limit i) is n j := by
  refine ⟨h.first 0 i (Nat.succ_pos n) rfl, h.here, h.present, h.fails, ?_⟩
  intro m k hm hk hpresent
  exact h.first (m + 1) k (by omega) hk hpresent

/-- Up to where it stops, the loop delivers every record. -/
private theorem StopsAt.delivered_eq {limit : Int} {is : List (Fin META_MAX)} {n : Nat}
    {j : Fin META_MAX} (h : StopsAt build host F events limit is n j) :
    delivered build host F events limit is =
      ((is.take n).filter fun i => decide ((events i).length ≠ 0), false) := by
  induction is generalizing limit n with
  | nil => exact nomatch h.here
  | cons i is ih =>
    cases n with
    | zero =>
      obtain rfl : i = j := Option.some.inj h.here
      have hfails : ¬ Deliverable build host F events i limit := h.fails
      rw [delivered, if_neg h.present, if_neg hfails, List.take_zero, List.filter_nil]
    | succ n =>
      obtain ⟨hi, htail⟩ := h.tail
      have hrest := ih htail
      rw [delivered, List.take_succ_cons]
      by_cases habsent : (events i).length = 0
      · rw [limitBehind, if_pos habsent] at hrest
        rw [if_pos habsent, hrest, List.filter_cons_of_neg (by simpa using habsent)]
      · rw [limitBehind, if_neg habsent] at hrest
        rw [if_neg habsent, if_pos (hi habsent), hrest,
          List.filter_cons_of_pos (by simpa using habsent)]

private theorem exists_stopsAt {limit : Int} {is : List (Fin META_MAX)}
    (h : (delivered build host F events limit is).2 = false) :
    ∃ n j, StopsAt build host F events limit is n j := by
  induction is generalizing limit with
  | nil => exact nomatch h
  | cons i is ih =>
    rw [delivered] at h
    by_cases habsent : (events i).length = 0
    · rw [if_pos habsent] at h
      have hlimit : limit = limitBehind build host F events limit i := by
        rw [limitBehind, if_pos habsent]
      rw [hlimit] at h
      obtain ⟨n, j, hstop⟩ := ih h
      exact ⟨n + 1, j, hstop.cons fun hpresent => absurd habsent hpresent⟩
    · rw [if_neg habsent] at h
      by_cases hdel : Deliverable build host F events i limit
      · rw [if_pos hdel] at h
        have hlimit : nextLimit build host i (textOf F (events i)) limit =
            limitBehind build host F events limit i := by
          rw [limitBehind, if_neg habsent]
        rw [hlimit] at h
        obtain ⟨n, j, hstop⟩ := ih h
        exact ⟨n + 1, j, hstop.cons fun _ => hdel⟩
      · refine ⟨0, i, rfl, habsent, hdel, ?_⟩
        intro m k hm
        exact absurd hm (Nat.not_lt_zero m)

private theorem getElem?_finRange_iff {m n : Nat} {i : Fin n} :
    (List.finRange n)[m]? = some i ↔ m = i.val := by
  constructor
  · intro h
    obtain ⟨hm, hi⟩ := List.getElem?_eq_some_iff.mp h
    rw [List.getElem_finRange] at hi
    rw [← hi]
    rfl
  · intro hmi
    subst hmi
    rw [List.getElem?_eq_getElem (by rw [List.length_finRange]; exact i.isLt),
      List.getElem_finRange]
    rfl

private theorem stopsAt_finRange {n : Nat} {j : Fin META_MAX} :
    StopsAt build host F events STATIC_META_BUFFER_SIZE (List.finRange META_MAX) n j ↔
      n = j.val ∧ (events j).length ≠ 0 ∧ ¬ DeliverableNext build host F events j ∧
        ∀ i, i < j → (events i).length ≠ 0 → DeliverableNext build host F events i := by
  constructor
  · intro h
    obtain rfl := getElem?_finRange_iff.mp h.here
    refine ⟨rfl, h.present, h.fails, ?_⟩
    intro i hi
    exact h.first i.val i hi (getElem?_finRange_iff.mpr rfl)
  · rintro ⟨rfl, hpresent, hfails, hfirst⟩
    refine ⟨getElem?_finRange_iff.mpr rfl, hpresent, hfails, ?_⟩
    intro m k hm hk
    obtain rfl := getElem?_finRange_iff.mp hk
    exact hfirst k hm

private theorem mem_take_finRange {i j : Fin META_MAX} :
    i ∈ (List.finRange META_MAX).take j.val ↔ i < j := by
  rw [List.mem_take_iff_getElem]
  constructor
  · intro ⟨m, hm, hi⟩
    rw [List.getElem_finRange] at hi
    rw [← hi, Fin.lt_def]
    simp only [Fin.val_cast]
    omega
  · intro hij
    refine ⟨i.val, ?_, ?_⟩
    · rw [List.length_finRange]
      have := j.isLt
      have : i.val < j.val := hij
      omega
    · rw [List.getElem_finRange]
      rfl

/-- A load fails with records delivered exactly when a later record is the first to fail. -/
theorem deliveredAll_partial :
    ((deliveredAll build host F events).2 = false ∧ (deliveredAll build host F events).1 ≠ []) ↔
      ∃ j, FailsBehindDelivery build host F events j := by
  constructor
  · intro ⟨hfail, hsome⟩
    obtain ⟨n, j, hstop⟩ := exists_stopsAt hfail
    rw [deliveredAll, hstop.delivered_eq] at hsome
    obtain ⟨rfl, hpresent, hfails, hfirst⟩ := stopsAt_finRange.mp hstop
    obtain ⟨i, hi⟩ := List.exists_mem_of_ne_nil _ hsome
    obtain ⟨hmem, hi⟩ := List.mem_filter.mp hi
    exact ⟨j, hpresent, hfails, hfirst, i, mem_take_finRange.mp hmem, of_decide_eq_true hi⟩
  · intro ⟨j, h⟩
    have hstop := stopsAt_finRange.mpr ⟨rfl, h.present, h.fails, h.first⟩
    obtain ⟨i, hij, hi⟩ := h.behind
    rw [deliveredAll, hstop.delivered_eq]
    refine ⟨rfl, List.ne_nil_of_mem (a := i) ?_⟩
    exact List.mem_filter.mpr ⟨mem_take_finRange.mpr hij, decide_eq_true hi⟩

end

/-- A failed load leaves the record alone, unless it fails at a record behind a delivered one. -/
theorem STEPLoad_untouched (build : Build) (host : Host) (nFileTypeMID : UInt32)
    (tls : Option TlsData) (file : Option (List UInt8)) (info : FILE_INFO) :
    (∀ r, STEPLoad build host nFileTypeMID tls file info = .ok r → r.ret ≠ .STEP_SUCCESS →
      r.calls = [] ∧ r.info = info) ↔
    ¬ ∃ F, file = some F ∧ LoadReady host tls F ∧
      ∃ j, FailsBehindDelivery build host F (scanEvents host F) j := by
  obtain ⟨r, hr, hout⟩ := STEPLoad_spec build host nFileTypeMID tls file info
  have hnothing : ∀ ret, (LoadReturn.make info ret []).calls = [] ∧
      (LoadReturn.make info ret []).info = info := fun ret => ⟨rfl, rfl⟩
  constructor
  · rintro huntouched ⟨F, rfl, hready, hfails⟩
    obtain ⟨hfail, hsome⟩ := deliveredAll_partial.mpr hfails
    cases hout with
    | unknownFormat hscan => exact hscan hready.accepted
    | notReady _ hno => exact hno hready
    | undelivered _ _ htexts =>
      have hcalls := (huntouched _ hr (by simp [LoadReturn.make])).1
      rw [LoadReturn.make, List.map_eq_nil_iff] at hcalls
      rw [← htexts.records, hcalls] at hsome
      exact hsome rfl
    | success _ hall => rw [hall] at hfail; cases hfail
  · intro hno r' hr' hret
    obtain rfl : r = r' := Except.ok.inj (hr.symm.trans hr')
    cases hout with
    | notOpened => exact hnothing _
    | unknownFormat => exact hnothing _
    | notReady => exact hnothing _
    | @undelivered F _ hready hfail htexts =>
      have hnone : (deliveredAll build host F (scanEvents host F)).1 = [] := by
        by_contra hsome
        exact hno ⟨F, rfl, hready, deliveredAll_partial.mp ⟨hfail, hsome⟩⟩
      rw [← htexts.records, List.map_eq_nil_iff] at hnone
      rw [hnone]
      exact hnothing _
    | success => exact absurd rfl hret

/-- A track with the text `abc` that is cut off inside a copyright notice. -/
def cutTextFile : List UInt8 :=
  [0x4d, 0x54, 0x68, 0x64, 0, 0, 0, 6, 0, 0, 0, 1, 0, 96, 0x4d, 0x54, 0x72, 0x6b, 0, 0, 0, 17,
    0, 0xff, 1, 3, 0x61, 0x62, 0x63, 0, 0xff, 2, 2, 0x64]

/-- The load of the cut file fails after the comment was set. -/
theorem STEPLoad_touches_cutTextFile :
    ∃ r, STEPLoad .STEP_M plainHost 0 (some .zeroed) (some cutTextFile) blankInfo = .ok r ∧
      r.ret = .STEP_ERROR ∧ r.calls = [SetComment (.narrow [0x61, 0x62, 0x63])] ∧
      r.info.value .FIELD_COMMENT ≠ blankInfo.value .FIELD_COMMENT := by
  obtain ⟨r, hload, -⟩ :=
    STEPLoad_spec .STEP_M plainHost 0 (some .zeroed) (some cutTextFile) blankInfo
  have hrun : (STEPLoad .STEP_M plainHost 0 (some .zeroed) (some cutTextFile)
      blankInfo).toOption.map (fun r => (r.ret, r.calls, r.info.value .FIELD_COMMENT)) =
      some (.STEP_ERROR, [SetComment (.narrow [0x61, 0x62, 0x63])],
        .narrow [0x61, 0x62, 0x63]) := by
    decide +kernel
  rw [hload] at hrun
  obtain ⟨hret, hrest⟩ := Prod.mk.inj (Option.some.inj hrun)
  obtain ⟨hcalls, hvalue⟩ := Prod.mk.inj hrest
  refine ⟨r, hload, hret, hcalls, ?_⟩
  rw [hvalue]
  decide

end StepMid
