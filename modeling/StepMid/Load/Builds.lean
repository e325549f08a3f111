import StepMid.Load.Exact
import StepMid.Load.Record

/-!
# The two builds

On hosts that oblige, the narrow and the wide build make the same calls on the record, with the
texts of the one converted to those of the other.
-/

namespace StepMid

/-- A call of the narrow build and the call of the wide build in its place. -/
inductive HostCall.Widened (codePage : List UInt8 → List UInt16) : HostCall → HostCall → Prop
  | text (i : Fin META_MAX) (text : List UInt8) :
      Widened codePage (saSetFunc i (.narrow text))
        (saSetFunc i (.wide (Buffer.cstr (codePage text))))
  | format (nFormat : UInt32) : Widened codePage (.SetFormat nFormat) (.SetFormat nFormat)
  | fileTypeName (s : List UInt8) :
      Widened codePage (SetFileTypeName (tchar .STEP_M s)) (SetFileTypeName (tchar .STEP_K s))

section

variable {hostM hostK : Host}

/-- Hosts that oblige deliver alike. -/
private theorem delivered_alike {F : List UInt8} {events : Events} (hM : hostM.Obliges .STEP_M)
    (hK : hostK.Obliges .STEP_K) (hsize : F.length < 2 ^ 31) (hevents : BehindHeader events) :
    deliveredAll .STEP_M hostM F events = deliveredAll .STEP_K hostK F events := by
  obtain ⟨hfirstM, hallM⟩ : (deliveredAll .STEP_M hostM F events).1 = _ ∧ (_ ↔ _) :=
    delivered_eq (fun i _ hi limit => hevents.deliverable_iff hM hsize hi limit) _
  obtain ⟨hfirstK, hallK⟩ : (deliveredAll .STEP_K hostK F events).1 = _ ∧ (_ ↔ _) :=
    delivered_eq (fun i _ hi limit => hevents.deliverable_iff hK hsize hi limit) _
  apply Prod.ext
  · rw [hfirstM, hfirstK]
  · exact Bool.eq_iff_iff.mpr (hallM.trans hallK.symm)

variable {tlsM tlsK : Option TlsData} {file : Option (List UInt8)}

private theorem ready_alike (hM : hostM.Obliges .STEP_M) (hK : hostK.Obliges .STEP_K)
    (hpast : hostM.past = hostK.past) (htls : tlsM.isSome = tlsK.isSome) (F : List UInt8) :
    LoadReady hostM tlsM F ↔ LoadReady hostK tlsK F := by
  constructor
  · intro h
    exact ⟨hpast ▸ h.accepted, htls ▸ h.data, .of_grants hK.heapBuf _⟩
  · intro h
    exact ⟨hpast ▸ h.accepted, htls ▸ h.data, .of_grants hM.heapBuf _⟩

private theorem request_alike (hM : hostM.Obliges .STEP_M) (hK : hostK.Obliges .STEP_K)
    (hpast : hostM.past = hostK.past) (htls : tlsM.isSome = tlsK.isSome)
    (hsize : ∀ F, file = some F → F.length < 2 ^ 31) (nFileTypeMID : UInt32) :
    Request.delivered .STEP_M ⟨nFileTypeMID, hostM, tlsM, file⟩ =
      Request.delivered .STEP_K ⟨nFileTypeMID, hostK, tlsK, file⟩ := by
  cases file with
  | none => rfl
  | some F =>
    have hready := ready_alike hM hK hpast htls F
    by_cases h : LoadReady hostK tlsK F
    · have hbehind := scanEvents_behindHeader h.accepted
      have hsame : scanEvents hostM F = scanEvents hostK F := by
        rw [scanEvents, scanEvents, hpast]
      simp only [Request.delivered, hready, h, if_true, hsame]
      exact delivered_alike hM hK (hsize F rfl) hbehind
    · simp only [Request.delivered, hready, h, if_false]

end

/-- The builds return the same status, behind the same calls on the record. -/
theorem STEPLoad_builds {hostM hostK : Host} (hM : hostM.Obliges .STEP_M)
    (hK : hostK.Obliges .STEP_K) (hpast : hostM.past = hostK.past)
    {codePage : List UInt8 → List UInt16} (hconv : hostK.Converts codePage)
    {tlsM tlsK : Option TlsData} (htls : tlsM.isSome = tlsK.isSome)
    {file : Option (List UInt8)} (hsize : ∀ F, file = some F → F.length < 2 ^ 31)
    (nFileTypeMID : UInt32) (info : FILE_INFO) :
    ∃ r s, STEPLoad .STEP_M hostM nFileTypeMID tlsM file info = .ok r ∧
      STEPLoad .STEP_K hostK nFileTypeMID tlsK file info = .ok s ∧ s.ret = r.ret ∧
      List.Forall₂ (HostCall.Widened codePage) r.calls s.calls := by
  have hnarrow : Build.STEP_M = .STEP_K → hostM.Converts codePage := nofun
  have hloadM : Request.load .STEP_M ⟨nFileTypeMID, hostM, tlsM, file⟩ info = .ok (.make info
      (Request.status .STEP_M _) (Request.calls .STEP_M codePage _)) :=
    Request.load_calls (q := ⟨nFileTypeMID, hostM, tlsM, file⟩) hnarrow info
  have hloadK : Request.load .STEP_K ⟨nFileTypeMID, hostK, tlsK, file⟩ info = .ok (.make info
      (Request.status .STEP_K _) (Request.calls .STEP_K codePage _)) :=
    Request.load_calls (q := ⟨nFileTypeMID, hostK, tlsK, file⟩) (fun _ => hconv) info
  have hdelivered := request_alike hM hK hpast htls hsize nFileTypeMID
  refine ⟨_, _, hloadM, hloadK, ?_, ?_⟩
  · simp only [LoadReturn.make, Request.status, hdelivered, hpast]
  · simp only [LoadReturn.make, Request.calls, hdelivered]
    apply List.rel_append
    · rw [List.forall₂_map_left_iff, List.forall₂_map_right_iff, List.forall₂_same]
      intro i _
      simp only [Request.handedText, scanEvents, hpast]
      exact .text i _
    · split
      · exact .cons (.format nFileTypeMID) (.cons (.fileTypeName _) .nil)
      · exact .nil

theorem STEPLoad_builds_textFile :
    ∃ r s, STEPLoad .STEP_M plainHost 7 (some .zeroed) (some textFile) blankInfo = .ok r ∧
      STEPLoad .STEP_K plainHost 7 (some .zeroed) (some textFile) blankInfo = .ok s ∧
      s.ret = r.ret ∧ List.Forall₂ (HostCall.Widened latin1) r.calls s.calls := by
  have htls : (some TlsData.zeroed).isSome = (some TlsData.zeroed).isSome := rfl
  have hsize (F : List UInt8) (hF : some textFile = some F) : F.length < 2 ^ 31 := by
    rw [← Option.some.inj hF]
    decide
  exact STEPLoad_builds (plainHost_obliges .STEP_M) (plainHost_obliges .STEP_K) rfl
    plainHost_converts htls hsize 7 blankInfo

end StepMid
