import Femu.Zns.Resources

/-!
# Femu.Zns.SendFailure

What a zone management command on a single zone leaves behind when it fails. The
handlers of the state changes give back what they have taken; but the descriptor
extension of a zone is transferred before the state of the zone is looked at, so
that a refused `SET_ZD_EXT` may have overwritten it.
-/

namespace Femu.Zns

open Nvme Lib

variable {n : ZnsCtrl} {t : ZoneTable} {i : Nat} {s : ZnsState} {req : NvmeRequest}

/-- A command that returns an error leaves the zones, their lists, the counters and
the descriptor extensions as they were. -/
def FailedSendKeeps (n : ZnsCtrl) (req : NvmeRequest) (s : ZnsState) : Prop :=
  ∀ status req' s', znsZoneMgmtSend n req s = .ok (status, req', s') → status ≠ nvmeSuccess →
    s'.zt = s.zt ∧ s'.zdExtensions = s.zdExtensions

/-- The zone takes a descriptor extension: it is empty, and the limits leave room. -/
def TakesExtension (n : ZnsCtrl) (t : ZoneTable) (i : Nat) : Prop :=
  (t.zones i).zs = .empty ∧ znsAorCheck n t 1 0 = nvmeSuccess

instance decidableTakesExtension (n : ZnsCtrl) (t : ZoneTable) (i : Nat) :
    Decidable (TakesExtension n t i) := inferInstanceAs (Decidable (_ ∧ _))

/-- A descriptor extension that is transferred goes to a zone that takes it, or is
the one that the zone has. -/
def ExtensionSpared (n : ZnsCtrl) (req : NvmeRequest) (s : ZnsState) : Prop :=
  ∀ slba i bs, req.cmd.cdw13.toNat % 0x100 = nvmeZoneActionSetZdExt → n.zdExtensionSize ≠ 0 →
    znsGetMgmtZoneSlbaIdx n req.cmd = .ok (nvmeSuccess, slba, i) → i < n.numZones →
    slba = (s.zt.zones i).zslba →
    dmaWritePrp n.toDmaCtrl s.mem n.zdExtensionSize req.cmd.prp1.toNat req.cmd.prp2.toNat =
      some (nvmeSuccess, bs) →
    TakesExtension n s.zt i ∨
      writeBytes s.zdExtensions (znsGetZdExtension n i) bs = s.zdExtensions

/-! ## the actions -/

/-- An action that changes nothing when it fails. -/
def KeepsOnFailure (op : OpHandler) : Prop :=
  ∀ t i state, Safe (fun _ => True) (op t i state) fun r => r.1 ≠ nvmeSuccess → r.2 = t

/-- An active resource that is taken and given back. -/
theorem decActive_incActive {t₁ : ZoneTable} (h : znsAorIncActive n t = .ok t₁) :
    Safe (fun _ => True) (znsAorDecActive n t₁) fun t₂ => t₂ = t := by
  have hinc : Safe (fun _ => True) (znsAorIncActive n t) fun t₁ =>
      Safe (fun _ => True) (znsAorDecActive n t₁) fun t₂ => t₂ = t := by
    by_cases hmax : n.maxActiveZones = 0
    · simp [znsAorIncActive, znsAorDecActive, hmax]
    · simp [znsAorIncActive, znsAorDecActive, hmax]
  exact hinc.of_ok h

theorem openZone_keeps : KeepsOnFailure (znsOpenZone n) := by
  intro t i state
  match state with
  | .empty =>
    simp only [znsOpenZone, safe_ite, safe_pure]
    refine ⟨fun _ _ => trivial, fun _ => Safe.bind_eq (safe_true _) fun t₁ hinc _ => ?_⟩
    simp only [openFromClosed, safe_ite, if_true, safe_bind, safe_pure]
    refine ⟨fun _ => (decActive_incActive hinc).imp fun t₂ ht₂ _ => ht₂, fun _ => ?_⟩
    simp
  | .closed => simp [znsOpenZone, openFromClosed]
  | .implicitlyOpen => simp [znsOpenZone]
  | .explicitlyOpen => simp [znsOpenZone]
  | .reserved => simp [znsOpenZone]
  | .readOnly => simp [znsOpenZone]
  | .full => simp [znsOpenZone]
  | .offline => simp [znsOpenZone]

theorem closeZone_keeps : KeepsOnFailure (znsCloseZone n) := by
  intro t i state
  simp [znsCloseZone]

theorem finishZone_keeps : KeepsOnFailure (znsFinishZone n) := by
  intro t i state
  simp [znsFinishZone]

theorem resetZone_keeps : KeepsOnFailure (znsResetZone n) := by
  intro t i state
  simp [znsResetZone]

theorem offlineZone_keeps : KeepsOnFailure znsOfflineZone := by
  intro t i state
  simp [znsOfflineZone]

/-- Without the select-all bit an action goes to the zone of the command alone. -/
theorem sendAction_single {action : Nat} {mask : ProcMask} {op : OpHandler}
    (h : sendAction n action false = some (mask, op)) : mask = {} ∧ KeepsOnFailure op := by
  unfold sendAction at h
  split at h
  · cases h
    exact ⟨rfl, openZone_keeps⟩
  · split at h
    · cases h
      exact ⟨rfl, closeZone_keeps⟩
    · split at h
      · cases h
        exact ⟨rfl, finishZone_keeps⟩
      · split at h
        · cases h
          exact ⟨rfl, resetZone_keeps⟩
        · split at h
          · cases h
            exact ⟨rfl, offlineZone_keeps⟩
          · cases h

/-! ## the command -/

theorem setZdExt_keeps (t : ZoneTable) (i : Nat) :
    Safe (fun _ => True) (znsSetZdExt n t i) fun r =>
      r.1 ≠ nvmeSuccess → r.2 = t ∧ ¬ TakesExtension n t i := by
  unfold znsSetZdExt TakesExtension
  simp only [safe_ite, safe_pure, safe_bind]
  refine ⟨fun hempty => ⟨fun hcheck _ => ⟨trivial, fun h => hcheck h.2⟩, fun _ => ?_⟩,
    fun hne _ => ⟨trivial, fun h => hne h.1⟩⟩
  simp

/-- A refused extension has been written all the same. -/
theorem setZdExt_refused (h : ¬ TakesExtension n t i) :
    ∃ status, znsSetZdExt n t i = .ok (status, t) ∧ status ≠ nvmeSuccess := by
  unfold znsSetZdExt
  by_cases hempty : (t.zones i).zs = .empty
  case pos =>
    have hcheck : znsAorCheck n t 1 0 ≠ nvmeSuccess := fun hc => h ⟨hempty, hc⟩
    rw [if_pos hempty]
    exact ⟨_, if_pos hcheck, hcheck⟩
  case neg =>
    rw [if_neg hempty]
    exact ⟨nvmeZoneInvalTransition, rfl, by decide⟩

theorem sendZdExt_keeps {cmd : NvmeCmd}
    (h : ∀ bs, dmaWritePrp n.toDmaCtrl s.mem n.zdExtensionSize cmd.prp1.toNat cmd.prp2.toNat =
        some (nvmeSuccess, bs) →
      TakesExtension n s.zt i ∨
        writeBytes s.zdExtensions (znsGetZdExtension n i) bs = s.zdExtensions) :
    Safe (fun _ => True) (sendZdExt n cmd i s) fun r =>
      r.1 ≠ nvmeSuccess → r.2.zt = s.zt ∧ r.2.zdExtensions = s.zdExtensions := by
  unfold sendZdExt
  refine Safe.bind_eq (safe_true _) fun r hr _ => ?_
  obtain ⟨status, bs⟩ := r
  have hdma : dmaWritePrp n.toDmaCtrl s.mem n.zdExtensionSize cmd.prp1.toNat cmd.prp2.toNat =
      some (status, bs) := by
    unfold orDma at hr
    split at hr
    · rename_i hsome
      cases hr
      exact hsome
    · cases hr
  dsimp only
  split
  · exact fun _ => ⟨rfl, rfl⟩
  · rename_i hok
    rw [not_not.mp hok] at hdma
    rw [safe_bind]
    refine (setZdExt_keeps s.zt i).imp fun r hr hne => ?_
    have hfail : r.1 ≠ nvmeSuccess := by
      intro hc
      exact hne (if_pos hc |>.trans hc)
    obtain ⟨hsame, hrefused⟩ := hr hfail
    exact ⟨hsame, (h bs hdma).resolve_left hrefused⟩

theorem sendToZone_keeps {slba : Nat} (hall : req.cmd.cdw13.toNat.testBit 8 = false)
    (hspared : ExtensionSpared n req s)
    (hidx : znsGetMgmtZoneSlbaIdx n req.cmd = .ok (nvmeSuccess, slba, i)) :
    Safe (fun _ => True) (sendToZone n req.cmd slba i s) fun r =>
      r.1 ≠ nvmeSuccess → r.2.zt = s.zt ∧ r.2.zdExtensions = s.zdExtensions := by
  have hi := (mgmtZoneIdx_safe n req.cmd).of_ok hidx rfl
  unfold sendToZone
  rw [ZoneTable.zslbaAt_eq hi]
  split
  · exact fun _ => ⟨rfl, rfl⟩
  · rename_i hslba
    rw [hall]
    dsimp only
    split
    · rename_i mask op hsend
      obtain ⟨rfl, hop⟩ := sendAction_single hsend
      rw [znsDoZoneOp, if_pos rfl, safe_bind]
      refine (hop s.zt i _).imp fun r hr => ?_
      split
      · intro hne
        exact absurd rfl hne
      · intro hne
        have hfail : r.1 ≠ nvmeSuccess := by
          intro hc
          exact hne (if_pos hc |>.trans hc)
        exact ⟨hr hfail, rfl⟩
    · split
      · rename_i haction
        split
        · exact fun _ => ⟨rfl, rfl⟩
        · rename_i hsize
          refine sendZdExt_keeps fun bs hdma => ?_
          exact hspared slba i bs haction (fun hc => hsize (Or.inr hc)) hidx
            hi (not_not.mp hslba) hdma
      · exact fun _ => ⟨rfl, rfl⟩

/-- A zone management command on a single zone that fails changes nothing if and
only if it does not overwrite a descriptor extension. -/
theorem failed_send_keeps_iff (hall : req.cmd.cdw13.toNat.testBit 8 = false) :
    FailedSendKeeps n req s ↔ ExtensionSpared n req s := by
  constructor
  case mp =>
    intro h slba i bs haction hsize hidx hi hslba hdma
    by_cases htakes : TakesExtension n s.zt i
    case pos => exact Or.inl htakes
    case neg =>
      right
      obtain ⟨status, hset, hne⟩ := setZdExt_refused htakes
      have hsend : sendAction n nvmeZoneActionSetZdExt false = none := by
        simp [sendAction, nvmeZoneActionSetZdExt, nvmeZoneActionOpen, nvmeZoneActionClose,
          nvmeZoneActionFinish, nvmeZoneActionReset, nvmeZoneActionOffline]
      have hrun : znsZoneMgmtSend n req s = .ok (status ||| nvmeDnr, req, { s with
          zdExtensions := writeBytes s.zdExtensions (znsGetZdExtension n i) bs }) := by
        simp [znsZoneMgmtSend, hall, hidx, sendToZone, ZoneTable.zslbaAt_eq hi, hslba, haction, hsend,
          hsize, sendZdExt, orDma, hdma, hset, hne]
      exact (h _ _ _ hrun (or_dnr_ne status)).2
  case mpr =>
    intro h status req' s' hrun hne
    have hsafe : Safe (fun _ => True) (znsZoneMgmtSend n req s) fun r =>
        r.1 ≠ nvmeSuccess → r.2.2.zt = s.zt ∧ r.2.2.zdExtensions = s.zdExtensions := by
      unfold znsZoneMgmtSend
      simp only [hall, Bool.false_eq_true, if_false]
      refine Safe.bind_eq (safe_true _) fun r hidx _ => ?_
      obtain ⟨status, slba, i⟩ := r
      dsimp only
      split
      · exact fun _ => ⟨rfl, rfl⟩
      · rename_i hok
        rw [not_not.mp hok] at hidx
        rw [safe_bind]
        exact (sendToZone_keeps hall h hidx).imp fun r hr => hr
    exact hsafe.of_ok hrun hne

/-- The namespace with descriptor extensions of 64 bytes, and host memory of ones. -/
def extZones : ZnsCtrl := { twoZones with zdExtensionSize := 64 }

def extZonesStart : System :=
  { twoZonesStart with dev := { twoZonesStart.dev with mem := ⟨fun _ => 1, fun _ => 0⟩ } }

/-- A request with a zone management command, on the first zone. -/
def sendRequest (action : UInt32) : NvmeRequest :=
  ⟨{ cdw13 := action, prp1 := 4096 }, false, ⟨pciDmaSglistInit, []⟩, 0⟩

/-- A full zone refuses a descriptor extension, and its bytes have been changed. -/
theorem refused_extension_written :
    znsInitZoneGeometry extZones = some extZones ∧
      znsInitZonedState extZones = some (extZones, twoZonesTable) ∧
      ∃ sys, runE (System.step extZones) [.cmd .mgmtSend 0 { cdw13 := 2 }] extZonesStart = .ok sys ∧
        ¬ FailedSendKeeps extZones (sendRequest 0x10) sys.dev := by
  refine ⟨rfl, rfl, ?_⟩
  have hbytes : (runE (System.step extZones) [.cmd .mgmtSend 0 { cdw13 := 2 }]
      extZonesStart).toOption.map (fun sys => (sys.dev.zdExtensions 0,
        (znsZoneMgmtSend extZones (sendRequest 0x10) sys.dev).toOption.map
          fun r => (r.1, r.2.2.zdExtensions 0))) =
      some (0, some (nvmeZoneInvalTransition ||| nvmeDnr, 1)) := by decide +kernel
  cases hrun : runE (System.step extZones) [.cmd .mgmtSend 0 { cdw13 := 2 }] extZonesStart with
  | error f => simp [hrun, Except.toOption] at hbytes
  | ok sys =>
    refine ⟨sys, rfl, fun hkeeps => ?_⟩
    simp only [hrun, Except.toOption, Option.map_some, Option.some.injEq, Prod.mk.injEq] at hbytes
    obtain ⟨hbefore, hafter⟩ := hbytes
    cases hsend : znsZoneMgmtSend extZones (sendRequest 0x10) sys.dev with
    | error f => simp [hsend] at hafter
    | ok r =>
      obtain ⟨status, req', s'⟩ := r
      simp only [hsend, Option.map_some, Option.some.injEq, Prod.mk.injEq] at hafter
      obtain ⟨rfl, hone⟩ := hafter
      have hsame := (hkeeps _ _ _ hsend (or_dnr_ne _)).2
      rw [hsame, hbefore] at hone
      exact absurd hone (by decide)

/-- Closing an empty zone. -/
theorem failed_send_keeps_close :
    FailedSendKeeps extZones (sendRequest 1) extZonesStart.dev :=
  (failed_send_keeps_iff (by decide)).mpr fun _ _ _ haction => absurd haction (by decide)

end Femu.Zns
