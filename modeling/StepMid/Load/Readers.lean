import StepMid.Framework.Fallible
import StepMid.Load.StepLoad

/-!
# Readers

Where the loop of `readMetaEvent` reads, how far it gets, and what a caller sees of it.
-/

namespace StepMid

/-- The bytes of the file that an `fread` asks for, as position and count. -/
def BufRead.range (b : BufRead) : Nat × Nat := (b.pos, b.count)

/-- What a caller sees of a read-back: the return value, the setter calls, and the position and
count of every read. -/
def ReadReturn.observed (r : ReadReturn) : Int × List (Fin META_MAX × Str) × List (Nat × Nat) :=
  (r.ret, r.calls, r.reads.map BufRead.range)

/-! ## The loop of `readMetaEvent` -/

section

variable {build : Build} {host : Host} {F : List UInt8}

theorem readEvents_append {maxLength : Int} {events : Events} (is js : List (Fin META_MAX))
    (rd : Reader) :
    readEvents build host F maxLength events (is ++ js) rd = (do
      let (ret, rd) ← readEvents build host F maxLength events is rd
      if ret < 0 then return (-1, rd)
      readEvents build host F maxLength events js rd) := by
  induction is generalizing rd with
  | nil => rfl
  | cons i is ih =>
    simp only [List.cons_append, readEvents]
    cases readEvent build host F maxLength events i rd with
    | error e => rfl
    | ok r =>
      simp only [bind, Except.bind]
      split
      · rfl
      · exact ih r.2

/-- The `length` that is read for a record. -/
def lengthRead (maxLength : Int) (r : MetaEvent) : Int :=
  if maxLength < r.length.toInt then maxLength else r.length.toInt

/-- The loop looks at the records of its list only, and at no more than the `length` of each. -/
theorem readEvents_congr {m₁ m₂ : Int} {e₁ e₂ : Events} {is : List (Fin META_MAX)}
    (h : ∀ i ∈ is, e₁ i = e₂ i ∧ lengthRead m₁ (e₁ i) = lengthRead m₂ (e₂ i)) (rd : Reader) :
    readEvents build host F m₁ e₁ is rd = readEvents build host F m₂ e₂ is rd := by
  induction is generalizing rd with
  | nil => rfl
  | cons i is ih =>
    obtain ⟨⟨hsame, hlength⟩, hrest⟩ := List.forall_mem_cons.mp h
    simp only [lengthRead] at hlength
    have hhead : readEvent build host F m₁ e₁ i rd = readEvent build host F m₂ e₂ i rd := by
      rw [readEvent, readEvent, hlength, hsame]
    simp only [readEvents, hhead, ih hrest]

/-- A result with a log of reads that satisfies `P`. -/
def ReadsEnd (P : List BufRead → Prop) : Except Fault (Int × Reader) → Prop :=
  Fallible.Ends (fun _ => True) fun r => P r.2.reads

private theorem Reader.putBuf_reads (rd : Reader) (k : Nat) (xs : List UInt8) :
    Fallible.Ends (fun _ => True) (fun rd' : Reader => rd'.reads = rd.reads) (rd.putBuf k xs) := by
  rw [Reader.putBuf]
  split <;> split <;> trivial

private theorem callSetter_reads (i : Fin META_MAX) (rd : Reader) :
    ReadsEnd (· = rd.reads) (callSetter build host i rd) := by
  cases build with
  | STEP_M => rfl
  | STEP_K =>
    refine (Fallible.Ends.any _).bind fun ⟨ret, ws⟩ _ => .ite (fun _ => rfl) fun _ => ?_
    dsimp only
    split <;> trivial

/-- A present record is read once. -/
private theorem readEvent_reads {maxLength : Int} {events : Events} {i : Fin META_MAX}
    (hpresent : (events i).length ≠ 0) (rd : Reader) :
    ReadsEnd (∃ b, · = rd.reads ++ [b]) (readEvent build host F maxLength events i rd) := by
  rw [readEvent]
  refine .ite (fun habsent => absurd habsent hpresent) fun _ => ?_
  refine (Reader.putBuf_reads _ 0 _).bind fun rd₁ hrd₁ => .ite (fun _ => ⟨_, hrd₁⟩) fun _ => ?_
  refine .ite (fun _ => trivial) fun _ => ?_
  refine (Reader.putBuf_reads rd₁ _ _).bind fun rd₂ hrd₂ => ?_
  exact (callSetter_reads i rd₂).mono fun r hr => ⟨_, hr.trans (hrd₂.trans hrd₁)⟩

private theorem readEvent_absent {maxLength : Int} {events : Events} {i : Fin META_MAX}
    (habsent : (events i).length = 0) (rd : Reader) :
    readEvent build host F maxLength events i rd = .ok (0, rd) := by
  rw [readEvent, if_pos habsent]

theorem readEvents_reads {maxLength : Int} {events : Events} {is : List (Fin META_MAX)}
    (rd : Reader) :
    ReadsEnd (rd.reads <+: ·) (readEvents build host F maxLength events is rd) := by
  induction is generalizing rd with
  | nil => exact List.prefix_rfl
  | cons i is ih =>
    by_cases hi : (events i).length = 0
    · rw [readEvents, readEvent_absent hi]
      exact ih rd
    · apply (readEvent_reads hi rd).bind
      rintro ⟨ret, rd₁⟩ ⟨b, hb⟩
      have hlog : rd.reads <+: rd₁.reads := ⟨[b], hb.symm⟩
      exact .ite (fun _ => hlog) fun _ => (ih rd₁).mono fun r hr => hlog.trans hr

/-- A list with a present record leads to a read. -/
theorem readEvents_reads_pos {maxLength : Int} {events : Events} {is : List (Fin META_MAX)}
    {i : Fin META_MAX} (hi : i ∈ is) (hpresent : (events i).length ≠ 0) (rd : Reader) :
    ReadsEnd (fun reads => rd.reads.length < reads.length)
      (readEvents build host F maxLength events is rd) := by
  induction is with
  | nil => cases hi
  | cons j is ih =>
    by_cases hj : (events j).length = 0
    · rw [readEvents, readEvent_absent hj]
      refine ih ((List.mem_cons.mp hi).resolve_left ?_)
      rintro rfl
      exact hpresent hj
    · apply (readEvent_reads hj rd).bind
      rintro ⟨ret, rd₁⟩ ⟨b, hb⟩
      have hlonger : rd.reads.length < rd₁.reads.length := by
        rw [show rd₁.reads = rd.reads ++ [b] from hb]
        simp
      exact .ite (fun _ => hlonger) fun _ => (readEvents_reads rd₁).mono fun r hr =>
        Nat.lt_of_lt_of_le hlonger hr.length_le

theorem finish_reads (ret : Int) (rd : Reader) :
    Fallible.Ends (fun _ => True) (fun r : ReadReturn => r.reads = rd.reads) (finish ret rd) := by
  rw [finish]
  split
  · rfl
  · split <;> trivial

/-- A present record leads to a read, whatever the end. -/
theorem readLoop_reads {events : Events} {i : Fin META_MAX} (hpresent : (events i).length ≠ 0)
    (rd : Reader) :
    Fallible.Ends (fun _ => True) (fun r : ReadReturn => r.reads ≠ [])
      (readLoop build host F events rd) := by
  apply (readEvents_reads_pos (List.mem_finRange i) hpresent rd).bind
  rintro ⟨ret, rd'⟩ hrd
  refine (finish_reads ret rd').mono fun r hr hnil => ?_
  rw [← hr, hnil] at hrd
  exact Nat.not_lt_zero _ hrd

/-- The loop does not come past a record that the file cuts. -/
theorem delivered_cut {events : Events} {is : List (Fin META_MAX)} {j : Fin META_MAX} (hj : j ∈ is)
    (hpresent : (events j).length ≠ 0)
    (hcut : F.length < (events j).offset.toNat + (events j).localLength) (limit : Int) :
    (delivered build host F events limit is).2 = false := by
  induction is generalizing limit with
  | nil => cases hj
  | cons i is ih =>
    have hrest (hne : j ≠ i) := ih ((List.mem_cons.mp hj).resolve_left hne)
    rw [delivered]
    by_cases habsent : (events i).length = 0
    · rw [if_pos habsent]
      exact hrest (by rintro rfl; exact hpresent habsent) limit
    · rw [if_neg habsent]
      by_cases hdel : Deliverable build host F events i limit
      · rw [if_pos hdel]
        refine hrest ?_ _
        rintro rfl
        exact absurd hdel.1 (Nat.not_le_of_lt hcut)
      · rw [if_neg hdel]

end

end StepMid
