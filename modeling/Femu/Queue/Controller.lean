import Femu.Queue.Doorbell

/-!
# Femu.Queue.Controller

The registers of the controller (`nvme_write_bar`, `nvme_start_ctrl` and `nvme_clear_ctrl` of
`femu.c`) over the tables of the queues. A write to `CC` goes through two tests, for `EN` and
for `SHN`, and each of them may rewrite the register that the next one reads.

Queues exist only while `CC.EN` is set, so that a controller that is disabled can be started
again whatever happened before. The controller of a zoned namespace asserts pages of 4096
bytes when it starts.
-/

namespace Femu.Queue

open Nvme Lib

/-! ## registers -/

/-- The field of `width` bits at `shift`. -/
def regField (shift width x : Nat) : Nat := x / 2 ^ shift % 2 ^ width

def nvmeCcEn : Nat → Nat := regField 0 1

def nvmeCcMps : Nat → Nat := regField 7 4

def nvmeCcShn : Nat → Nat := regField 14 2

def nvmeCcIosqes : Nat → Nat := regField 16 4

def nvmeCcIocqes : Nat → Nat := regField 20 4

def nvmeCapMpsmin : Nat → Nat := regField 48 4

def nvmeCapMpsmax : Nat → Nat := regField 52 4

def nvmeAqaAsqs : Nat → Nat := regField 0 12

def nvmeAqaAcqs : Nat → Nat := regField 16 12

/-- `NVME_CTRL_SQES_MIN` and `NVME_CTRL_CQES_MIN`. -/
def nvmeCtrlEsMin : Nat → Nat := regField 0 4

/-- `NVME_CTRL_SQES_MAX` and `NVME_CTRL_CQES_MAX`. -/
def nvmeCtrlEsMax : Nat → Nat := regField 4 4

def nvmeCstsReady : UInt32 := 1
def nvmeCstsFailed : UInt32 := 2
def nvmeCstsShstComplete : UInt32 := 8

/-- `NvmeBar`: the registers that the writes read and change. -/
structure NvmeBar where
  cap : UInt64
  intms : UInt32
  intmc : UInt32
  cc : UInt32
  csts : UInt32
  aqa : UInt32
  asq : UInt64
  acq : UInt64

/-- The configuration with `n->id_ctrl.sqes`, `n->id_ctrl.cqes` and whether
`n->ext_ops.start_ctrl` is the one of the zoned namespace. -/
structure CtrlCfg extends DbCfg where
  sqes : UInt8
  cqes : UInt8
  znssd : Bool

/-- `FemuCtrl` with its registers and the sizes that starting the controller sets. -/
structure FemuCtrl extends DbCtrl where
  bar : NvmeBar
  pageBits : Nat
  pageSize : Nat
  maxPrpEnts : Nat
  cqeSize : Nat
  sqeSize : Nat

namespace FemuCtrl

variable (s : FemuCtrl)

def setCc (cc : UInt32) : FemuCtrl := { s with bar := { s.bar with cc := cc } }

def setCsts (csts : UInt32) : FemuCtrl := { s with bar := { s.bar with csts := csts } }

@[simp] theorem setCc_toDbCtrl (cc : UInt32) : (s.setCc cc).toDbCtrl = s.toDbCtrl := rfl

@[simp] theorem setCc_cc (cc : UInt32) : (s.setCc cc).bar.cc = cc := rfl

@[simp] theorem setCsts_toDbCtrl (csts : UInt32) : (s.setCsts csts).toDbCtrl = s.toDbCtrl := rfl

@[simp] theorem setCsts_cc (csts : UInt32) : (s.setCsts csts).bar.cc = s.bar.cc := rfl

@[simp] theorem setCsts_csts (csts : UInt32) : (s.setCsts csts).bar.csts = csts := rfl

end FemuCtrl

/-! ## nvme_start_ctrl and nvme_clear_ctrl -/

/-- `1 << (NVME_CC_MPS(n->bar.cc) + 12)`. -/
def NvmeBar.pageSize (bar : NvmeBar) : Nat := 2 ^ (nvmeCcMps bar.cc.toNat + 12)

/-- What `nvme_start_ctrl` asks of the registers. -/
def StartChecks (n : CtrlCfg) (bar : NvmeBar) : Prop :=
  (bar.asq ≠ 0 ∧ bar.acq ≠ 0) ∧
    (bar.asq.toNat &&& (bar.pageSize - 1) = 0 ∧ bar.acq.toNat &&& (bar.pageSize - 1) = 0) ∧
    (nvmeCapMpsmin bar.cap.toNat ≤ nvmeCcMps bar.cc.toNat ∧
      nvmeCcMps bar.cc.toNat ≤ nvmeCapMpsmax bar.cap.toNat) ∧
    (nvmeCtrlEsMin n.cqes.toNat ≤ nvmeCcIocqes bar.cc.toNat ∧
      nvmeCcIocqes bar.cc.toNat ≤ nvmeCtrlEsMax n.cqes.toNat) ∧
    (nvmeCtrlEsMin n.sqes.toNat ≤ nvmeCcIosqes bar.cc.toNat ∧
      nvmeCcIosqes bar.cc.toNat ≤ nvmeCtrlEsMax n.sqes.toNat) ∧
    (nvmeAqaAsqs bar.aqa.toNat ≠ 0 ∧ nvmeAqaAsqs bar.aqa.toNat ≤ 4095) ∧
    nvmeAqaAcqs bar.aqa.toNat ≠ 0 ∧ nvmeAqaAcqs bar.aqa.toNat ≤ 4095

instance (n : CtrlCfg) (bar : NvmeBar) : Decidable (StartChecks n bar) :=
  inferInstanceAs (Decidable (_ ∧ _))

/-- `zns_start_ctrl` returns; the transfer limit that it sets is not read here. -/
def CtrlCfg.extStarts (n : CtrlCfg) (pageSize : Nat) : Bool := !n.znssd || pageSize = 4096

/-- `nvme_start_ctrl`, with whether it returns 0. -/
def nvmeStartCtrl (n : CtrlCfg) (s : FemuCtrl) : Option (Bool × FemuCtrl) :=
  if ((s.cq 0).isSome ∨ (s.sq 0).isSome) ∨ ¬ StartChecks n s.bar then some (false, s)
  else
    let pageBits := nvmeCcMps s.bar.cc.toNat + 12
    let s := { s with
      pageBits := pageBits
      pageSize := 2 ^ pageBits
      maxPrpEnts := 2 ^ pageBits / 8
      cqeSize := 2 ^ nvmeCcIocqes s.bar.cc.toNat
      sqeSize := 2 ^ nvmeCcIosqes s.bar.cc.toNat }
    (startCtrl s.toQueueCtrl (nvmeAqaAsqs s.bar.aqa.toNat) (nvmeAqaAcqs s.bar.aqa.toNat)).bind
      fun q => if n.extStarts s.pageSize then some (true, { s with toQueueCtrl := q }) else none

/-- `nvme_clear_ctrl`; the release of the interrupts at a shutdown returns. -/
def nvmeClearCtrl (n : CtrlCfg) (s : FemuCtrl) : FemuCtrl :=
  { s with
    toQueueCtrl := clearCtrl n.toQueueCfg s.toQueueCtrl
    bufs := {}
    bar := { s.bar with cc := 0 } }

/-! ## nvme_write_bar -/

/-- The test of `EN` in a write to `CC`. -/
def writeCcEn (n : CtrlCfg) (s : FemuCtrl) (data : UInt64) : Option FemuCtrl :=
  if nvmeCcEn data.toNat ≠ 0 ∧ nvmeCcEn s.bar.cc.toNat = 0 then
    (nvmeStartCtrl n (s.setCc data.toUInt32)).map fun r =>
      r.2.setCsts (if r.1 then nvmeCstsReady else nvmeCstsFailed)
  else if nvmeCcEn data.toNat = 0 ∧ nvmeCcEn s.bar.cc.toNat ≠ 0 then
    let s := nvmeClearCtrl n s
    some (s.setCsts (s.bar.csts &&& ~~~nvmeCstsReady))
  else some s

/-- The test of `SHN`, with the `CC` that the test of `EN` leaves. -/
def writeCcShn (n : CtrlCfg) (s : FemuCtrl) (data : UInt64) : FemuCtrl :=
  if nvmeCcShn data.toNat ≠ 0 ∧ nvmeCcShn s.bar.cc.toNat = 0 then
    let s := (nvmeClearCtrl n s).setCc data.toUInt32
    s.setCsts (s.bar.csts ||| nvmeCstsShstComplete)
  else if nvmeCcShn data.toNat = 0 ∧ nvmeCcShn s.bar.cc.toNat ≠ 0 then
    (s.setCsts (s.bar.csts &&& ~~~nvmeCstsShstComplete)).setCc data.toUInt32
  else s

def nvmeWriteBar (n : CtrlCfg) (s : FemuCtrl) (offset : Nat) (data : UInt64) : Option FemuCtrl :=
  match offset with
  | 0xc =>
      let intms := s.bar.intms ||| data.toUInt32
      some { s with bar := { s.bar with intms := intms, intmc := intms } }
  | 0x10 =>
      let intms := s.bar.intms &&& ~~~data.toUInt32
      some { s with bar := { s.bar with intms := intms, intmc := intms } }
  | 0x14 => (writeCcEn n s data).map fun s => writeCcShn n s data
  | 0x24 => some { s with bar := { s.bar with aqa := data.toUInt32 } }
  | 0x28 => some { s with bar := { s.bar with asq := data } }
  | 0x2c => some { s with bar := { s.bar with asq := s.bar.asq ||| data <<< 32 } }
  | 0x30 => some { s with bar := { s.bar with acq := data } }
  | 0x34 => some { s with bar := { s.bar with acq := s.bar.acq ||| data <<< 32 } }
  | _ => some s

/-! ## the controller and its host -/

/-- The configuration that the queue commands see. -/
def FemuCtrl.dbCfg (n : CtrlCfg) (s : FemuCtrl) : DbCfg :=
  { n.toDbCfg with pageSize := s.pageSize }

def nvmeQueueCmd (n : DbCfg) (s : DbCtrl) (now : Nat) : QueueCmd → Option (Status × DbCtrl)
  | .createSq c prpList => nvmeCreateSq n s c prpList
  | .createCq c prpList => nvmeCreateCq n s c prpList
  | .delSq qid =>
      (delSq n.toQueueCfg s.toQueueCtrl now qid).map fun r => (r.1, { s with toQueueCtrl := r.2 })
  | .delCq qid =>
      (delCq n.toQueueCfg s.toQueueCtrl qid).map fun r => (r.1, { s with toQueueCtrl := r.2 })

inductive CtrlAct
  /-- a write to a register -/
  | write (offset : Nat) (data : UInt64)
  /-- a queue command, while the controller is enabled -/
  | queue (cmd : QueueCmd) (now : Nat)

def ctrlStep (n : CtrlCfg) (s : FemuCtrl) : CtrlAct → Option FemuCtrl
  | .write offset data => nvmeWriteBar n s offset data
  | .queue cmd now =>
      if nvmeCcEn s.bar.cc.toNat ≠ 0 ∧ NumInRange (s.dbCfg n).toQueueCfg s.toQueueCtrl cmd then
        (nvmeQueueCmd (s.dbCfg n) s.toDbCtrl now cmd).map fun r => { s with toDbCtrl := r.2 }
      else none

/-! ## the invariant -/

variable {n : CtrlCfg} {s t : FemuCtrl} {data : UInt64}

/-- A queue with the number `i` exists. -/
def Live (s : FemuCtrl) (i : Nat) : Prop := (s.sq i).isSome ∨ (s.cq i).isSome

/-- There are no queues, or the controller is enabled. -/
structure CtrlInv (n : CtrlCfg) (s : FemuCtrl) : Prop where
  tables : TableInv n.toQueueCfg s.toQueueCtrl
  inRange : ∀ i, Live s i → i ≤ n.numIoQueues
  admin : (s.sq 0).isSome = (s.cq 0).isSome
  enabled : ∀ i, Live s i → nvmeCcEn s.bar.cc.toNat ≠ 0

theorem not_live_iff {i : Nat} : ¬ Live s i ↔ s.sq i = none ∧ s.cq i = none := by
  simp [Live]

theorem CtrlInv.of_empty (h : ∀ i, ¬ Live s i) : CtrlInv n s where
  tables := by
    have hsq : ∀ i, s.sq i = none := fun i => (not_live_iff.mp (h i)).1
    have hcq : ∀ i, s.cq i = none := fun i => (not_live_iff.mp (h i)).2
    constructor <;> simp [hsq, hcq]
  inRange i hi := absurd hi (h i)
  admin := by simp [not_live_iff.mp (h 0)]
  enabled i hi := absurd hi (h i)

theorem CtrlInv.setCsts (h : CtrlInv n s) (csts : UInt32) : CtrlInv n (s.setCsts csts) :=
  ⟨h.tables, h.inRange, h.admin, h.enabled⟩

/-- A register of 32 bits keeps the fields of a write. -/
theorem regField_toUInt32 {shift width : Nat} (h : shift + width ≤ 32) :
    regField shift width data.toUInt32.toNat = regField shift width data.toNat := by
  rw [UInt64.toNat_toUInt32, regField, regField]
  have hsplit : (2 : Nat) ^ 32 = 2 ^ shift * 2 ^ (32 - shift) := by
    rw [← Nat.pow_add]
    congr 1
    omega
  rw [hsplit, Nat.mod_mul_right_div_self, Nat.mod_mod_of_dvd _ (Nat.pow_dvd_pow 2 (by omega))]

theorem nvmeCcEn_toUInt32 : nvmeCcEn data.toUInt32.toNat = nvmeCcEn data.toNat :=
  regField_toUInt32 (by decide)

theorem nvmeCcShn_toUInt32 : nvmeCcShn data.toUInt32.toNat = nvmeCcShn data.toNat :=
  regField_toUInt32 (by decide)

/-- The controller with its admin queues. -/
def started (s : FemuCtrl) : FemuCtrl :=
  { s with
    toQueueCtrl :=
      addAdmin s.toQueueCtrl (nvmeAqaAsqs s.bar.aqa.toNat) (nvmeAqaAcqs s.bar.aqa.toNat)
    pageBits := nvmeCcMps s.bar.cc.toNat + 12
    pageSize := s.bar.pageSize
    maxPrpEnts := s.bar.pageSize / 8
    cqeSize := 2 ^ nvmeCcIocqes s.bar.cc.toNat
    sqeSize := 2 ^ nvmeCcIosqes s.bar.cc.toNat }

/-- Starting a controller without queues is decided by its registers. -/
theorem nvmeStartCtrl_eq (hsq : s.sq 0 = none) (hcq : s.cq 0 = none) : nvmeStartCtrl n s =
    if ¬ StartChecks n s.bar then some (false, s)
    else if n.extStarts s.bar.pageSize then some (true, started s) else none := by
  by_cases hok : StartChecks n s.bar
  case neg => simp [nvmeStartCtrl, hok]
  case pos =>
    have hsizes := hok.2.2.2.2.2
    rw [nvmeStartCtrl, if_neg (by simp [hsq, hcq, hok]), if_neg (not_not.mpr hok)]
    dsimp only
    rw [startCtrl_of_checks hcq hsq ⟨by omega, hsizes.1.2⟩ ⟨by omega, hsizes.2.2⟩]
    rfl

theorem started_inv (h : CtrlInv n s) (hsq : s.sq 0 = none) (hcq : s.cq 0 = none)
    (hok : StartChecks n s.bar) (hen : nvmeCcEn s.bar.cc.toNat ≠ 0) : CtrlInv n (started s) where
  tables := by
    have hsizes := hok.2.2.2.2.2
    exact h.tables.startCtrl
      (startCtrl_of_checks hcq hsq ⟨by omega, hsizes.1.2⟩ ⟨by omega, hsizes.2.2⟩)
  inRange i hi := by
    by_cases h0 : i = 0
    · omega
    · exact h.inRange i (by simpa [Live, started, addAdmin_sq, addAdmin_cq, h0] using hi)
  admin := by simp [started, addAdmin_sq, addAdmin_cq]
  enabled _ _ := hen

theorem CtrlInv.not_live_clear (h : CtrlInv n s) (i : Nat) : ¬ Live (nvmeClearCtrl n s) i := by
  by_cases hi : i ≤ n.numIoQueues
  · simp [Live, nvmeClearCtrl, clearCtrl, hi]
  · have hnot : ¬ Live s i := fun hlive => hi (h.inRange i hlive)
    simpa [Live, nvmeClearCtrl, clearCtrl, hi] using hnot

/-! ## a write to CC -/

/-- The test of `EN`: queues that exist after it are there because the write sets `EN`. -/
theorem writeCcEn_inv (h : CtrlInv n s) (hw : writeCcEn n s data = some t) :
    CtrlInv n t ∧ ∀ i, Live t i → nvmeCcEn data.toNat ≠ 0 := by
  unfold writeCcEn at hw
  split at hw
  case isTrue hstart =>
    obtain ⟨hen, hdis⟩ := hstart
    have hempty : ∀ i, ¬ Live s i := fun i hi => h.enabled i hi hdis
    obtain ⟨⟨ok, u⟩, hu, rfl⟩ := Option.map_eq_some_iff.mp hw
    obtain ⟨hsq, hcq⟩ := not_live_iff.mp (hempty 0)
    rw [nvmeStartCtrl_eq (s := s.setCc data.toUInt32) hsq hcq] at hu
    refine ⟨?_, fun _ _ => hen⟩
    split at hu
    case isTrue =>
      cases hu
      exact .of_empty hempty
    case isFalse hok =>
      split at hu
      case isFalse => cases hu
      case isTrue =>
        cases hu
        exact (started_inv (s := s.setCc data.toUInt32) (.of_empty hempty) hsq hcq (not_not.mp hok)
          (by rwa [FemuCtrl.setCc_cc, nvmeCcEn_toUInt32])).setCsts _
  case isFalse hstart =>
    split at hw
    case isTrue =>
      cases hw
      have hempty := h.not_live_clear
      exact ⟨.of_empty hempty, fun i hi => absurd hi (hempty i)⟩
    case isFalse hstop =>
      cases hw
      exact ⟨h, fun i hi hen => hstop ⟨hen, h.enabled i hi⟩⟩

theorem writeCcShn_inv (h : CtrlInv n s) (hen : ∀ i, Live s i → nvmeCcEn data.toNat ≠ 0) :
    CtrlInv n (writeCcShn n s data) := by
  unfold writeCcShn
  split
  case isTrue => exact .of_empty h.not_live_clear
  case isFalse =>
    split
    case isTrue =>
      exact ⟨h.tables, h.inRange, h.admin, fun i hi => by
        rw [FemuCtrl.setCc_cc, nvmeCcEn_toUInt32]
        exact hen i hi⟩
    case isFalse => exact h

theorem nvmeWriteBar_inv {offset : Nat} (h : CtrlInv n s)
    (hw : nvmeWriteBar n s offset data = some t) : CtrlInv n t := by
  unfold nvmeWriteBar at hw
  split at hw
  case h_3 =>
    obtain ⟨u, hu, rfl⟩ := Option.map_eq_some_iff.mp hw
    obtain ⟨hinv, hen⟩ := writeCcEn_inv h hu
    exact writeCcShn_inv hinv hen
  all_goals
    cases hw
    exact ⟨h.tables, h.inRange, h.admin, h.enabled⟩

/-! ## the queue commands -/

/-- A queue that exists after a command existed before or is in range; the admin queues stay. -/
theorem queueCmd_live {n : QueueCfg} {s t : QueueCtrl} {now : Nat} {cmd : QueueCmd} {st : Status}
    (h : TableInv n s) (hrange : NumInRange n s cmd)
    (hcmd : queueCmd n s now cmd = some (st, t)) :
    (∀ i, ((t.sq i).isSome → (s.sq i).isSome ∨ i ≤ n.numIoQueues) ∧
      ((t.cq i).isSome → (s.cq i).isSome ∨ i ≤ n.numIoQueues)) ∧
      (t.sq 0).isSome = (s.sq 0).isSome ∧ (t.cq 0).isSome = (s.cq 0).isSome := by
  cases h.effect hcmd with
  | refused => exact ⟨fun i => ⟨.inl, .inl⟩, rfl, rfl⟩
  | createSq c prpList e hok he =>
      have hnum := hrange hok
      have hne := hok.2.1.1
      refine ⟨fun i => ⟨?_, ?_⟩, ?_, ?_⟩
      · rw [addSq_sq]
        split <;> simp_all
      · rw [addSq_cq]
        split <;> simp_all
      · rw [addSq_sq, if_neg (Ne.symm hne)]
      · rw [addSq_cq, if_neg (Ne.symm hok.1.1)]
  | createCq d prpList hok =>
      have hnum := hrange hok
      refine ⟨fun i => ⟨.inl, ?_⟩, rfl, ?_⟩
      · rw [addCq_cq]
        split <;> simp_all
      · rw [addCq_cq, if_neg (Ne.symm hok.1.1)]
  | lostCq d prpList st hst hout =>
      refine ⟨fun i => ⟨.inl, ?_⟩, rfl, ?_⟩
      · rw [QueueCtrl.setCq_cq_apply]
        split <;> simp_all
      · rw [QueueCtrl.setCq_cq_apply, if_neg (by omega)]
  | delSq qid q hne hle hq =>
      have hcq : ∀ i, (detached n s q i).isSome = (s.cq i).isSome := by
        intro i
        unfold detached
        split <;> simp
      have hsqid : q.sqid ≠ 0 := by
        rw [h.sqid_eq _ q hq]
        exact fun h0 => hne (UInt16.toNat_inj.mp h0)
      refine ⟨fun i => ⟨?_, ?_⟩, ?_, hcq 0⟩
      · rw [removeSq_sq]
        split <;> simp_all
      · rw [removeSq_cq, hcq]
        exact .inl
      · rw [removeSq_sq, if_neg (Ne.symm hsqid)]
  | retireCq qid | delCq qid =>
      have hne : qid ≠ 0 := ‹_›
      have h0 : 0 ≠ qid.toNat := fun h0 => hne (UInt16.toNat_inj.mp h0.symm)
      refine ⟨fun i => ⟨.inl, ?_⟩, rfl, ?_⟩
      · rw [QueueCtrl.setCq_cq_apply]
        split <;> simp_all
      · rw [QueueCtrl.setCq_cq_apply, if_neg h0]

/-- The doorbells apart, a command does what it does to the tables. -/
theorem nvmeQueueCmd_queueCmd {n : DbCfg} {s t : DbCtrl} {now : Nat} {cmd : QueueCmd}
    {st : Status} (h : nvmeQueueCmd n s now cmd = some (st, t)) :
    queueCmd n.toQueueCfg s.toQueueCtrl now cmd = some (st, t.toQueueCtrl) := by
  cases cmd with
  | createSq | createCq | delSq | delCq =>
      obtain ⟨r, hr, heq⟩ := Option.map_eq_some_iff.mp h
      cases heq
      exact hr

/-- The tables do not depend on the size of a page. -/
theorem TableInv.dbCfg {u : QueueCtrl} :
    TableInv (s.dbCfg n).toQueueCfg u ↔ TableInv n.toQueueCfg u :=
  ⟨fun h => ⟨h.1, h.2, h.3, h.4, h.5, h.6, h.7⟩, fun h => ⟨h.1, h.2, h.3, h.4, h.5, h.6, h.7⟩⟩

theorem ctrlStep_inv {a : CtrlAct} (h : CtrlInv n s) (hstep : ctrlStep n s a = some t) :
    CtrlInv n t := by
  cases a with
  | write offset data => exact nvmeWriteBar_inv h hstep
  | queue cmd now =>
      dsimp only [ctrlStep] at hstep
      split at hstep
      case isFalse => cases hstep
      case isTrue hok =>
        obtain ⟨hen, hrange⟩ := hok
        obtain ⟨⟨st, u⟩, hu, rfl⟩ := Option.map_eq_some_iff.mp hstep
        have hcmd := nvmeQueueCmd_queueCmd hu
        have htab := (TableInv.dbCfg (s := s)).mpr h.tables
        obtain ⟨hlive, hsq, hcq⟩ := queueCmd_live htab hrange hcmd
        refine ⟨(TableInv.dbCfg (s := s)).mp (queueCmd_tableInv htab hrange hcmd), fun i hi => ?_, ?_,
          fun _ _ => hen⟩
        · rcases hi with hi | hi
          · exact ((hlive i).1 hi).elim (fun h' => h.inRange i (.inl h')) id
          · exact ((hlive i).2 hi).elim (fun h' => h.inRange i (.inr h')) id
        · exact hsq.trans (h.admin.trans hcq.symm)

/-! ## a controller that is started again -/

/-- The admin queues are empty, in their first pass. -/
def AdminFresh (s : FemuCtrl) : Prop :=
  ∃ q c, s.sq 0 = some q ∧ s.cq 0 = some c ∧ (q.head = 0 ∧ q.tail = 0) ∧
    (c.head = 0 ∧ c.tail = 0) ∧ c.phase = true

/-- A write of `EN` to a controller without queues, which the test of `SHN` then leaves
alone. -/
theorem write_cc_enable (hempty : ∀ i, ¬ Live s i) (hdis : nvmeCcEn s.bar.cc.toNat = 0)
    (hen : nvmeCcEn data.toNat ≠ 0) : nvmeWriteBar n s 0x14 data =
      if ¬ StartChecks n (s.setCc data.toUInt32).bar then
        some ((s.setCc data.toUInt32).setCsts nvmeCstsFailed)
      else if n.extStarts (s.setCc data.toUInt32).bar.pageSize then
        some ((started (s.setCc data.toUInt32)).setCsts nvmeCstsReady)
      else none := by
  obtain ⟨hsq, hcq⟩ := not_live_iff.mp (hempty 0)
  have hshn : ∀ u : FemuCtrl, u.bar.cc = data.toUInt32 → writeCcShn n u data = u := by
    intro u hu
    have hsame : nvmeCcShn u.bar.cc.toNat = nvmeCcShn data.toNat := by rw [hu, nvmeCcShn_toUInt32]
    rw [writeCcShn, hsame, if_neg (fun h => h.1 h.2), if_neg (fun h => h.2 h.1)]
  show (writeCcEn n s data).map (fun s => writeCcShn n s data) = _
  rw [writeCcEn, if_pos ⟨hen, hdis⟩, nvmeStartCtrl_eq (s := s.setCc data.toUInt32) hsq hcq]
  split
  case isTrue => exact congrArg some (hshn _ rfl)
  case isFalse =>
    split
    case isTrue => exact congrArg some (hshn _ rfl)
    case isFalse => rfl

/-- **Controller reset**: after any writes to the registers and any queue commands in range,
queues exist only while the controller is enabled; and a controller that is not enabled is
started again exactly when the registers pass the checks. -/
theorem controller_reset {s₀ : FemuCtrl} {acts : List CtrlAct} (h₀ : ∀ i, ¬ Live s₀ i)
    (hrun : Run (fun s a t => ctrlStep n s a = some t) s₀ acts s) :
    ((s.sq 0).isSome ↔ (s.cq 0).isSome) ∧
      (∀ i, Live s i → nvmeCcEn s.bar.cc.toNat ≠ 0) ∧
      (nvmeCcEn s.bar.cc.toNat = 0 → (∀ i, s.sq i = none ∧ s.cq i = none) ∧
        ∀ data : UInt64, nvmeCcEn data.toNat ≠ 0 →
          ((∃ t, nvmeWriteBar n s 0x14 data = some t ∧ t.bar.csts = nvmeCstsReady) ↔
            StartChecks n (s.setCc data.toUInt32).bar ∧
              n.extStarts (s.setCc data.toUInt32).bar.pageSize) ∧
          ∀ t, nvmeWriteBar n s 0x14 data = some t → t.bar.csts = nvmeCstsReady → AdminFresh t) := by
  have hinv : CtrlInv n s :=
    hrun.invariant (fun s a t hs hstep => ctrlStep_inv hs hstep) (.of_empty h₀)
  refine ⟨by rw [hinv.admin], hinv.enabled, fun hdis => ?_⟩
  have hempty : ∀ i, ¬ Live s i := fun i hi => hinv.enabled i hi hdis
  refine ⟨fun i => not_live_iff.mp (hempty i), fun data hen => ?_⟩
  have hfailed : nvmeCstsFailed ≠ nvmeCstsReady := by decide
  rw [write_cc_enable hempty hdis hen]
  by_cases hok : StartChecks n (s.setCc data.toUInt32).bar
  case neg => simp [hok, hfailed]
  case pos =>
    by_cases hext : n.extStarts (s.setCc data.toUInt32).bar.pageSize
    case neg => simp [hok, hext]
    case pos =>
      rw [if_neg (not_not.mpr hok), if_pos hext]
      refine ⟨⟨fun _ => ⟨hok, hext⟩, fun _ => ⟨_, rfl, rfl⟩⟩, fun t ht _ => ?_⟩
      cases ht
      exact ⟨_, _, addAdmin_sq.trans (if_pos rfl), addAdmin_cq.trans (if_pos rfl), ⟨rfl, rfl⟩,
        ⟨rfl, rfl⟩, rfl⟩

/-- A controller as it is made, with the one page size that `mps` gives. -/
def newCtrl (mps : UInt64) : FemuCtrl where
  toQueueCtrl := .reset
  bufs := {}
  sqDb _ := {}
  cqDb _ := {}
  bar := ⟨mps <<< 48 ||| mps <<< 52, 0, 0, 0, 0, 0, 0, 0⟩
  pageBits := 0
  pageSize := 0
  maxPrpEnts := 0
  cqeSize := 0
  sqeSize := 0

def plainCtrl : CtrlCfg where
  toDbCfg := dbPairs
  sqes := 0x66
  cqes := 0x44
  znssd := false

/-- The writes of a driver before it enables the controller. -/
def setupAdmin : List CtrlAct := [.write 0x24 0x1f001f, .write 0x28 0x10000, .write 0x30 0x20000]

theorem controller_reset_small :
    ∃ s t, Run (fun s a t => ctrlStep plainCtrl s a = some t) (newCtrl 0)
        (setupAdmin ++ [.write 0x14 0x460001, .queue (makeCq 1 7) 0, .write 0x14 0]) s ∧
      nvmeCcEn s.bar.cc.toNat = 0 ∧ s.cq 1 = none ∧
      nvmeWriteBar plainCtrl s 0x14 0x460001 = some t ∧ t.bar.csts = nvmeCstsReady ∧
      AdminFresh t := by
  have hends : (exec (ctrlStep plainCtrl)
      (setupAdmin ++ [.write 0x14 0x460001, .queue (makeCq 1 7) 0, .write 0x14 0])
      (newCtrl 0)).map (fun s => (s.bar.cc, decide (StartChecks plainCtrl (s.setCc 0x460001).bar))) =
      some (0, true) := by decide +kernel
  obtain ⟨s, hs, heq⟩ := Option.map_eq_some_iff.mp hends
  simp only [Prod.mk.injEq, decide_eq_true_eq] at heq
  obtain ⟨hcc, hok⟩ := heq
  have hrun := run_of_exec hs
  have hnew : ∀ i, ¬ Live (newCtrl 0) i := fun i => by simp [Live, newCtrl, QueueCtrl.reset]
  obtain ⟨-, -, hdis⟩ := controller_reset hnew hrun
  have hcc0 : nvmeCcEn s.bar.cc.toNat = 0 := by
    rw [hcc]
    rfl
  obtain ⟨hempty, hstart⟩ := hdis hcc0
  obtain ⟨hiff, hfresh⟩ := hstart 0x460001 (by decide)
  obtain ⟨t, ht, hready⟩ := hiff.mpr ⟨hok, rfl⟩
  exact ⟨s, t, hrun, hcc0, (hempty 1).2, ht, hready, hfresh t ht hready⟩

/-- With larger pages the controller of a zoned namespace passes the checks, and then fails
the assertion of `zns_start_ctrl`. -/
theorem large_page_not_started :
    ¬ ∀ (n : CtrlCfg) (s₀ s : FemuCtrl) (acts : List CtrlAct), (∀ i, ¬ Live s₀ i) →
      Run (fun s a t => ctrlStep n s a = some t) s₀ acts s → nvmeCcEn s.bar.cc.toNat = 0 →
      ∀ data : UInt64, nvmeCcEn data.toNat ≠ 0 → StartChecks n (s.setCc data.toUInt32).bar →
      ∃ t, nvmeWriteBar n s 0x14 data = some t ∧ t.bar.csts = nvmeCstsReady := by
  intro hall
  let zoned : CtrlCfg := { plainCtrl with znssd := true }
  have hends : (exec (ctrlStep zoned) setupAdmin (newCtrl 1)).map (fun s =>
      (s.bar.cc, decide (StartChecks zoned (s.setCc 0x460081).bar),
        (nvmeWriteBar zoned s 0x14 0x460081).isNone)) = some (0, true, true) := by decide +kernel
  obtain ⟨s, hs, heq⟩ := Option.map_eq_some_iff.mp hends
  simp only [Prod.mk.injEq, decide_eq_true_eq, Option.isNone_iff_eq_none] at heq
  obtain ⟨hcc, hok, hnone⟩ := heq
  obtain ⟨t, ht, -⟩ := hall zoned (newCtrl 1) s setupAdmin
    (fun i => by simp [Live, newCtrl, QueueCtrl.reset]) (run_of_exec hs)
    (by rw [hcc]; rfl) 0x460081 (by decide) hok
  rw [hnone] at ht
  cases ht

end Femu.Queue
