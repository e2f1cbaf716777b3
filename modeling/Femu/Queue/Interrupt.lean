import Femu.Queue.Flow

/-!
# Femu.Queue.Interrupt

The notifiers of the completion queues and the list of the main loop that they are attached
to (`intr.c`, the stand-ins for KVM and MSI-X of `wrapper-qemu.c`). Each completion queue
with interrupts gets an entry in the list. Its notifier is attached to the entry only by
`nvme_vector_unmask`, which `msix_set_vector_notifiers` calls for every vector once, when
the first such queue is made; and nothing detaches it when the queue is freed.
-/

namespace Femu.Queue

open Nvme Lib

/-- `struct kvm_vint`. A notifier is told by the completion queue that it is a part of. -/
structure KvmVint where
  en : Option Nat
  vector : Nat
  id : Nat
deriving DecidableEq

/-- The queues, `cq->virq` of each completion queue by its object, and the list `vints`. -/
structure IrqCtrl where
  ctrl : QueueCtrl
  virq : Nat → Nat
  vints : List KvmVint
  vintId : Nat
  vectorPollStarted : Bool

def IrqCtrl.init (s : QueueCtrl) : IrqCtrl where
  ctrl := s
  virq _ := 0
  vints := []
  vintId := 0
  vectorPollStarted := false

/-! ## wrapper-qemu.c -/

/-- `kvm_irqchip_add_msi_route`. -/
def addMsiRoute (v : IrqCtrl) (vector : Nat) : Nat × IrqCtrl :=
  (v.vintId + 1, { v with
    vints := ⟨none, vector, v.vintId + 1⟩ :: v.vints
    vintId := v.vintId + 1 })

/-- `kvm_irqchip_add_irqfd_notifier_gsi` for the notifier of the completion queue at `addr`. -/
def addIrqfd (addr virq : Nat) : List KvmVint → List KvmVint
  | [] => []
  | vi :: rest =>
      if vi.id = virq then { vi with en := some addr } :: rest else vi :: addIrqfd addr virq rest

/-- The vectors that a pass of `qemu_main_thread` over the list sends with `msix_notify`;
`isSet` tells which notifiers are set. -/
def mainLoopPass : List KvmVint → (Nat → Bool) → List Nat
  | [], _ => []
  | vi :: rest, isSet =>
      match vi.en with
      | some addr =>
          if isSet addr then vi.vector :: mainLoopPass rest (Function.update isSet addr false)
          else mainLoopPass rest isSet
      | none => mainLoopPass rest isSet

/-! ## intr.c -/

/-- The first I/O completion queue with the vector. -/
def firstCq (n : QueueCfg) (s : QueueCtrl) (vector : Nat) : Option NvmeCQueue :=
  ((List.range' 1 n.numIoQueues).find? fun qid => (s.cq qid).any (·.vector = vector)).bind s.cq

def vectorUnmask (n : QueueCfg) (v : IrqCtrl) (vector : Nat) : IrqCtrl :=
  match firstCq n v.ctrl vector with
  | none => v
  | some cq => { v with vints := addIrqfd cq.addr (v.virq cq.addr) v.vints }

/-- `msix_set_vector_notifiers` with the functions of the device. No vector is ever masked,
so `nvme_vector_poll` does nothing. -/
def msixSetVectorNotifiers (n : QueueCfg) (msixEn : Bool) (v : IrqCtrl) : IrqCtrl :=
  if msixEn then (List.range (n.numIoQueues + 1)).foldl (vectorUnmask n) v else v

def addKvmMsiVirq (msixEn : Bool) (v : IrqCtrl) (cq : NvmeCQueue) : Option IrqCtrl :=
  if !msixEn then none
  else
    let (virq, v) := addMsiRoute v cq.vector
    some { v with virq := Function.update v.virq cq.addr virq }

def setupVirq (n : QueueCfg) (msixEn : Bool) (v : IrqCtrl) (cq : NvmeCQueue) : IrqCtrl :=
  if cq.irqEnabled then
    match addKvmMsiVirq msixEn v cq with
    | none => v
    | some v =>
        if !v.vectorPollStarted then
          msixSetVectorNotifiers n msixEn { v with vectorPollStarted := true }
        else v
  else v

/-! ## the queue commands -/

/-- The call of `nvme_setup_virq` in `nvme_create_cq`. -/
def setupCreated (n : QueueCfg) (msixEn : Bool) (v : IrqCtrl) (st : Status) : QueueCmd → IrqCtrl
  | .createCq c _ =>
      if st = nvmeSuccess then
        match v.ctrl.cq c.cqid.toNat with
        | some cq => setupVirq n msixEn v cq
        | none => v
      else v
  | _ => v

def irqCmd (n : QueueCfg) (msixEn : Bool) (v : IrqCtrl) (now : Nat) (cmd : QueueCmd) :
    Option (Status × IrqCtrl) :=
  (queueCmd n v.ctrl now cmd).map fun (st, s) =>
    (st, setupCreated n msixEn { v with ctrl := s } st cmd)

/-- A command of the host at a time, with MSI-X enabled. -/
def irqStep (n : QueueCfg) (v : IrqCtrl) (x : Nat × QueueCmd) : Option IrqCtrl :=
  (irqCmd n true v x.1 x.2).map Prod.snd

/-! ## statement -/

/-- Every live I/O completion queue with interrupts has its entry in the list, with its vector
and its notifier, so that the main loop sends the vector once the notifier is set; and no
entry has the notifier of a queue that is not live. -/
structure Interruptible (v : IrqCtrl) : Prop where
  attached : ∀ i c, i ≠ 0 → v.ctrl.cq i = some c → c.irqEnabled →
    ∃ vi ∈ v.vints, vi.vector = c.vector ∧ vi.en = some c.addr
  sent : ∀ i c, i ≠ 0 → v.ctrl.cq i = some c → c.irqEnabled →
    ∀ isSet : Nat → Bool, isSet c.addr → c.vector ∈ mainLoopPass v.vints isSet
  live : ∀ vi ∈ v.vints, ∀ addr, vi.en = some addr → ∃ i c, v.ctrl.cq i = some c ∧ c.addr = addr

/-- No completion queue with interrupts is made but the first one, which has a number in range
and is the first with its vector; and none is deleted. -/
def Attachable (n : QueueCfg) (v : IrqCtrl) : QueueCmd → Prop
  | .createCq c prpList =>
      CqChecks n v.ctrl c prpList → c.cqFlags.toNat / 2 % 2 = 1 →
        v.vectorPollStarted = false ∧ c.cqid.toNat ≤ n.numIoQueues ∧
          ∀ j < c.cqid.toNat, 1 ≤ j → (v.ctrl.cq j).all (·.vector ≠ c.irqVector.toNat)
  | .delCq qid =>
      qid ≠ 0 → qid.toNat ≤ n.numIoQueues →
        (v.ctrl.cq qid.toNat).all fun c => c.sqList = [] → !c.irqEnabled
  | _ => True

instance (n : QueueCfg) (v : IrqCtrl) (cmd : QueueCmd) : Decidable (Attachable n v cmd) := by
  unfold Attachable
  split <;> infer_instance

/-! ## attaching a notifier -/

section attach

variable {n : QueueCfg} {s t : QueueCtrl} {v w : IrqCtrl} {vi : KvmVint} {c c' : NvmeCQueue}
  {i j now vector : Nat} {st : Status} {cmd : QueueCmd}

theorem firstCq_eq_some (h : firstCq n s vector = some c) :
    ∃ i, (1 ≤ i ∧ i ≤ n.numIoQueues) ∧ s.cq i = some c ∧ c.vector = vector ∧
      ∀ j < i, 1 ≤ j → (s.cq j).all (·.vector ≠ vector) := by
  obtain ⟨i, hi, hc⟩ := Option.bind_eq_some_iff.mp h
  rw [List.find?_range'_eq_some] at hi
  obtain ⟨hany, hmem, hfirst⟩ := hi
  rw [List.mem_range'_1] at hmem
  simp only [hc, Option.any_some, decide_eq_true_eq] at hany
  refine ⟨i, by omega, hc, hany, fun j hlt hj => ?_⟩
  have hne := hfirst j hj hlt
  cases hcq : s.cq j with
  | none => rfl
  | some c' => simpa [hcq] using hne

theorem firstCq_of_first (hi : 1 ≤ i ∧ i ≤ n.numIoQueues) (hc : s.cq i = some c)
    (hvector : c.vector = vector) (hfirst : ∀ j < i, 1 ≤ j → (s.cq j).all (·.vector ≠ vector)) :
    firstCq n s vector = some c := by
  have hfind : (List.range' 1 n.numIoQueues).find? (fun qid => (s.cq qid).any (·.vector = vector)) =
      some i := by
    rw [List.find?_range'_eq_some]
    refine ⟨by simp [hc, hvector], List.mem_range'_1.mpr (by omega), fun j hj hlt => ?_⟩
    have hne := hfirst j hlt hj
    cases hcq : s.cq j with
    | none => rfl
    | some c' => simpa [hcq] using hne
  rw [firstCq, hfind]
  exact hc

/-- Unmasking the vectors of `l` attaches the notifier of the completion queue that has the id
of the entry, where it is the first one with one of the vectors. -/
theorem foldl_vectorUnmask (hvirq : ∀ x c', firstCq n v.ctrl x = some c' →
      (v.virq c'.addr = vi.id ↔ c'.addr = c.addr)) (l : List Nat) (hvints : v.vints = [vi]) :
    l.foldl (vectorUnmask n) v = { v with
      vints := [{ vi with
        en := if l.any fun x => (firstCq n v.ctrl x).any (·.addr = c.addr) then some c.addr
          else vi.en }] } := by
  induction l generalizing v vi with
  | nil => simp [← hvints]
  | cons x l ih =>
      rw [List.foldl_cons]
      cases hfirst : firstCq n v.ctrl x with
      | none =>
          rw [vectorUnmask, hfirst]
          simpa [hfirst] using ih hvirq hvints
      | some c' =>
          have hid := hvirq x c' hfirst
          rw [vectorUnmask, hfirst]
          dsimp only
          by_cases haddr : c'.addr = c.addr
          · have hadd : addIrqfd c'.addr (v.virq c'.addr) v.vints =
                [{ vi with en := some c.addr }] := by
              rw [hvints, addIrqfd, if_pos (hid.mpr haddr).symm, haddr]
            refine (ih (v := { v with vints := addIrqfd c'.addr (v.virq c'.addr) v.vints })
              ?_ hadd).trans ?_
            · exact hvirq
            · simp [hfirst, haddr]
          · have hadd : addIrqfd c'.addr (v.virq c'.addr) v.vints = [vi] := by
              rw [hvints, addIrqfd, if_neg fun heq => haddr (hid.mp heq.symm), addIrqfd]
            refine (ih (v := { v with vints := addIrqfd c'.addr (v.virq c'.addr) v.vints })
              hvirq hadd).trans ?_
            simp [hfirst, haddr]

/-! ## invariant -/

/-- No completion queue with interrupts has been made. -/
structure NoneYet (v : IrqCtrl) : Prop where
  started : v.vectorPollStarted = false
  vints : v.vints = []
  virq : ∀ addr, v.virq addr = 0
  quiet : ∀ i c, i ≠ 0 → v.ctrl.cq i = some c → c.irqEnabled = false

/-- The one completion queue with interrupts is `c` in place `i`. -/
structure OneAttached (n : QueueCfg) (v : IrqCtrl) (i : Nat) (c : NvmeCQueue) : Prop where
  started : v.vectorPollStarted = true
  range : 1 ≤ i ∧ i ≤ n.numIoQueues
  cq : v.ctrl.cq i = some c
  irq : c.irqEnabled
  vints : ∃ id, v.vints = [⟨some c.addr, c.vector, id⟩]
  only : ∀ j c', j ≠ 0 → v.ctrl.cq j = some c' → c'.irqEnabled → j = i

/-- The objects of completion queues are told apart by their address. -/
structure CqAddrs (s : QueueCtrl) : Prop where
  lt : ∀ i c, s.cq i = some c → c.addr < s.nextAddr
  inj : ∀ i j c c', s.cq i = some c → s.cq j = some c' → c.addr = c'.addr → i = j

structure IrqInv (n : QueueCfg) (v : IrqCtrl) : Prop where
  inv : Inv n v.ctrl
  addrs : CqAddrs v.ctrl
  state : NoneYet v ∨ ∃ i c, OneAttached n v i c

theorem NoneYet.interruptible (h : NoneYet v) : Interruptible v where
  attached i c hi hc hirq := by
    rw [h.quiet i c hi hc] at hirq
    cases hirq
  sent i c hi hc hirq := by
    rw [h.quiet i c hi hc] at hirq
    cases hirq
  live vi hvi := by
    rw [h.vints] at hvi
    cases hvi

theorem OneAttached.interruptible (h : OneAttached n v i c) : Interruptible v := by
  obtain ⟨id, hvints⟩ := h.vints
  have honly : ∀ j c', j ≠ 0 → v.ctrl.cq j = some c' → c'.irqEnabled → c' = c := by
    intro j c' hj hc' hirq
    obtain rfl := h.only j c' hj hc' hirq
    exact Option.some.inj (hc'.symm.trans h.cq)
  constructor
  case attached =>
    intro j c' hj hc' hirq
    obtain rfl := honly j c' hj hc' hirq
    exact ⟨_, by rw [hvints]; exact List.mem_singleton_self _, rfl, rfl⟩
  case sent =>
    intro j c' hj hc' hirq isSet hset
    obtain rfl := honly j c' hj hc' hirq
    simp [hvints, mainLoopPass, hset]
  case live =>
    intro vi hvi addr haddr
    rw [hvints, List.mem_singleton] at hvi
    subst hvi
    exact ⟨i, c, h.cq, Option.some.inj haddr⟩

/-! ## the steps -/

/-- A live completion queue in range stays until it is deleted. -/
theorem queueCmd_cq_live (h : Inv n s) (hcmd : queueCmd n s now cmd = some (st, t))
    (hc : s.cq i = some c) (hi : i ≤ n.numIoQueues) :
    (∃ c', t.cq i = some c' ∧ CqKin c c' ∧
        ∀ qid, cmd = .delCq qid → qid ≠ 0 → qid.toNat = i → c.sqList ≠ []) ∨
      ∃ qid, cmd = .delCq qid ∧ (qid ≠ 0 ∧ qid.toNat = i) ∧ c.sqList = [] ∧ t.cq i = none := by
  cases h.effect hcmd with
  | refused cmd st hst =>
      refine .inl ⟨c, hc, .rfl c, ?_⟩
      rintro qid rfl hne rfl
      rw [queueCmd, delCq, if_neg (by simp [hne, checkCqid, hi, hc]), hc] at hcmd
      grind
  | createSq d prpList e hok he =>
      by_cases hj : i = d.cqid.toNat
      · subst hj
        rw [hc] at he
        cases he
        exact .inl ⟨_, addSq_cq.trans (if_pos rfl), ⟨rfl, rfl, rfl, rfl, rfl, rfl⟩,
          fun qid h => by cases h⟩
      · exact .inl ⟨c, by rw [addSq_cq, if_neg hj, hc], .rfl c, fun qid h => by cases h⟩
  | createCq d prpList hok =>
      have hj : i ≠ d.cqid.toNat := by
        rintro rfl
        rw [hok.free hi] at hc
        cases hc
      exact .inl ⟨c, by rw [addCq_cq, if_neg hj, hc], .rfl c, fun qid h => by cases h⟩
  | lostCq d prpList st hst hout =>
      exact .inl ⟨c, by rw [QueueCtrl.setCq_cq, Function.update_of_ne (by omega), hc], .rfl c,
        fun qid h => by cases h⟩
  | delSq qid q hne hle hq =>
      rw [removeSq_cq, detached, hc]
      split
      · exact .inl ⟨_, rfl, ⟨rfl, rfl, rfl, rfl, rfl, rfl⟩, fun qid h => by cases h⟩
      · exact .inl ⟨c, rfl, .rfl c, fun qid h => by cases h⟩
  | retireCq qid st e hst hne he hused =>
      by_cases hj : i = qid.toNat
      · subst hj
        obtain rfl := Option.some.inj (hc.symm.trans he)
        exact .inl ⟨_, Function.update_self .., ⟨rfl, rfl, rfl, rfl, rfl, rfl⟩,
          fun _ _ _ _ => hused⟩
      · refine .inl ⟨c, by rw [QueueCtrl.setCq_cq, Function.update_of_ne hj, hc], .rfl c, ?_⟩
        rintro qid' ⟨⟩ - heq
        exact absurd heq.symm hj
  | delCq qid e hne he hnone =>
      by_cases hj : i = qid.toNat
      · subst hj
        obtain rfl := Option.some.inj (hc.symm.trans he)
        exact .inr ⟨qid, rfl, ⟨hne, rfl⟩, hnone, by rw [QueueCtrl.setCq_cq, Function.update_self]⟩
      · refine .inl ⟨c, by rw [QueueCtrl.setCq_cq, Function.update_of_ne hj, hc], .rfl c, ?_⟩
        rintro qid' ⟨⟩ - heq
        exact absurd heq.symm hj

theorem queueCmd_cqAddrs (h : Inv n s) (haddrs : CqAddrs s)
    (hcmd : queueCmd n s now cmd = some (st, t)) : CqAddrs t := by
  have hle := (queueCmd_rest h hcmd).2.1
  have hnew : ∀ d prpList, cmd = .createCq d prpList → CqChecks n s d prpList →
      t.nextAddr = s.nextAddr + 1 := by
    rintro d prpList rfl hok
    rw [queueCmd, createCq_of_checks (h.cqs.cqid_eq _) hok] at hcmd
    cases hcmd
    rfl
  constructor
  case lt =>
    intro i c' hc'
    rcases queueCmd_cq h hcmd hc' with ⟨c, hc, hkin⟩ | ⟨d, prpList, hd, hok, rfl, rfl⟩
    · rw [hkin.addr]
      exact (haddrs.lt i c hc).trans_le hle
    · rw [hnew d prpList hd hok]
      exact Nat.lt_succ_self _
  case inj =>
    intro i j c₁' c₂' h₁' h₂' heq
    rcases queueCmd_cq h hcmd h₁' with ⟨c₁, h₁, hkin₁⟩ | ⟨d, prpList, rfl, hok, rfl, rfl⟩
    · rcases queueCmd_cq h hcmd h₂' with ⟨c₂, h₂, hkin₂⟩ | ⟨d, prpList, rfl, hok, rfl, rfl⟩
      · exact haddrs.inj i j c₁ c₂ h₁ h₂ (by rw [← hkin₁.addr, heq, hkin₂.addr])
      · have hlt := haddrs.lt i c₁ h₁
        rw [← hkin₁.addr, heq] at hlt
        exact absurd hlt (lt_irrefl _)
    · rcases queueCmd_cq h hcmd h₂' with ⟨c₂, h₂, hkin₂⟩ | ⟨d', prpList', hd, -, rfl, -⟩
      · have hlt := haddrs.lt j c₂ h₂
        rw [← hkin₂.addr, ← heq] at hlt
        exact absurd hlt (lt_irrefl _)
      · cases hd
        rfl

/-- A command that makes no completion queue with interrupts. -/
def Quiet (n : QueueCfg) (s : QueueCtrl) (cmd : QueueCmd) : Prop :=
  ∀ d prpList, cmd = .createCq d prpList → CqChecks n s d prpList → d.cqFlags.toNat / 2 % 2 ≠ 1

theorem Quiet.setupCreated {now : Nat} (hquiet : Quiet n v.ctrl cmd) (h : Inv n v.ctrl)
    (hcmd : queueCmd n v.ctrl now cmd = some (st, t)) :
    setupCreated n true { v with ctrl := t } st cmd = { v with ctrl := t } := by
  cases cmd with
  | createCq d prpList =>
      by_cases hok : CqChecks n v.ctrl d prpList
      case neg =>
        obtain ⟨st', u, hst, heq, -⟩ := createCq_of_not_checks (h.cqs.cqid_eq _) hok
        rw [queueCmd, heq] at hcmd
        cases hcmd
        rw [Queue.setupCreated, if_neg hst]
      case pos =>
        have hflag := hquiet d prpList rfl hok
        rw [queueCmd, createCq_of_checks (h.cqs.cqid_eq _) hok] at hcmd
        cases hcmd
        have hnew : (addCq v.ctrl d).cq d.cqid.toNat = some (newCq d v.ctrl.nextAddr) := by
          rw [addCq_cq, if_pos rfl]
        simp [Queue.setupCreated, hnew, setupVirq, newCq, hflag]
  | _ => rfl

/-- A live completion queue with interrupts after a quiet command was live before. -/
theorem Quiet.cq {now : Nat} (hquiet : Quiet n s cmd) (h : Inv n s)
    (hcmd : queueCmd n s now cmd = some (st, t)) (hc' : t.cq i = some c') (hirq : c'.irqEnabled) :
    ∃ c, s.cq i = some c ∧ CqKin c c' := by
  rcases queueCmd_cq h hcmd hc' with hold | ⟨d, prpList, hd, hok, -, rfl⟩
  · exact hold
  · exact absurd (of_decide_eq_true hirq) (hquiet d prpList hd hok)

theorem step_quiet {now : Nat} (h : IrqInv n v) (hquiet : Quiet n v.ctrl cmd)
    (hcmd : queueCmd n v.ctrl now cmd = some (st, t)) :
    (Attachable n v cmd ∧ IrqInv n { v with ctrl := t } ∧ Interruptible { v with ctrl := t }) ∨
      ¬ Attachable n v cmd ∧ ¬ Interruptible { v with ctrl := t } := by
  have hinv := queueCmd_inv h.inv hcmd
  have haddrs := queueCmd_cqAddrs h.inv h.addrs hcmd
  have hattachable : (∀ qid c, cmd = .delCq qid → qid ≠ 0 → v.ctrl.cq qid.toNat = some c →
      c.sqList = [] → c.irqEnabled = false) → Attachable n v cmd := by
    intro hdel
    cases cmd with
    | createCq d prpList => exact fun hok hflag => absurd hflag (hquiet d prpList rfl hok)
    | delCq qid =>
        intro hne _
        rw [Option.all_eq_true]
        intro c hc
        by_cases hlist : c.sqList = []
        · simp [hdel qid c rfl hne hc hlist]
        · simp [hlist]
    | createSq d prpList => trivial
    | delSq qid => trivial
  rcases h.state with hnone | ⟨i, c, hone⟩
  · left
    have hnone' : NoneYet { v with ctrl := t } := by
      refine ⟨hnone.started, hnone.vints, hnone.virq, fun j c' hj hc' => ?_⟩
      by_contra hirq
      obtain ⟨c, hc, hkin⟩ := hquiet.cq h.inv hcmd hc' (by simpa using hirq)
      exact hirq (by rw [hkin.irqEnabled, hnone.quiet j c hj hc])
    refine ⟨hattachable fun qid c _ hne hc _ => ?_, ⟨hinv, haddrs, .inl hnone'⟩,
      hnone'.interruptible⟩
    exact hnone.quiet _ c (fun h0 => hne (UInt16.toNat_inj.mp h0)) hc
  · rcases queueCmd_cq_live h.inv hcmd hone.cq hone.range.2 with
      ⟨c', hc', hkin, hkeeps⟩ | ⟨qid, rfl, ⟨hne, hqid⟩, hlist, hgone⟩
    · left
      obtain ⟨id, hvints⟩ := hone.vints
      have hone' : OneAttached n { v with ctrl := t } i c' := by
        refine ⟨hone.started, hone.range, hc', hkin.irqEnabled.trans hone.irq,
          ⟨id, by rw [hkin.addr, hkin.vector, hvints]⟩, fun j c₁' hj hc₁' hirq => ?_⟩
        obtain ⟨c₁, hc₁, hkin₁⟩ := hquiet.cq h.inv hcmd hc₁' hirq
        exact hone.only j c₁ hj hc₁ (hkin₁.irqEnabled ▸ hirq)
      refine ⟨hattachable fun qid c₁ hdel hne hc₁ hlist => ?_, ⟨hinv, haddrs, .inr ⟨i, c', hone'⟩⟩,
        hone'.interruptible⟩
      by_contra hirq
      have hi := hone.only _ c₁ (fun h0 => hne (UInt16.toNat_inj.mp h0)) hc₁ (by simpa using hirq)
      rw [hi, hone.cq] at hc₁
      cases hc₁
      exact hkeeps qid hdel hne hi hlist
    · right
      constructor
      · intro hatt
        have hall := hatt hne (hqid ▸ hone.range.2)
        rw [hqid, hone.cq] at hall
        simp [hlist, hone.irq] at hall
      · intro hint
        obtain ⟨id, hvints⟩ := hone.vints
        obtain ⟨j, c', hc', heq⟩ := hint.live ⟨some c.addr, c.vector, id⟩
          (by simp [hvints]) c.addr rfl
        rcases queueCmd_cq h.inv hcmd hc' with ⟨c₀, hc₀, hkin⟩ | ⟨d, prpList, hd, -⟩
        · have hj := h.addrs.inj j i c₀ c hc₀ hone.cq (hkin.addr.symm.trans heq)
          rw [hj, hgone] at hc'
          cases hc'
        · cases hd

/-- The state after a completion queue with interrupts has been made. -/
theorem setupCreated_createCq {d : NvmeCreateCq} {prpList : Bool}
    (hflag : d.cqFlags.toNat / 2 % 2 = 1) :
    setupCreated n true { v with ctrl := addCq v.ctrl d } nvmeSuccess (.createCq d prpList) =
      (if v.vectorPollStarted then id
        else fun w => msixSetVectorNotifiers n true { w with vectorPollStarted := true })
      { v with
        ctrl := addCq v.ctrl d
        virq := Function.update v.virq v.ctrl.nextAddr (v.vintId + 1)
        vints := ⟨none, d.irqVector.toNat, v.vintId + 1⟩ :: v.vints
        vintId := v.vintId + 1 } := by
  have hnew : (addCq v.ctrl d).cq d.cqid.toNat = some (newCq d v.ctrl.nextAddr) := by
    rw [addCq_cq, if_pos rfl]
  cases hstarted : v.vectorPollStarted <;>
    simp [setupCreated, hnew, setupVirq, addKvmMsiVirq, addMsiRoute, newCq, hflag]

/-- The first completion queue with interrupts is attached exactly when it is found for its
vector. -/
theorem attached_first {d : NvmeCreateCq} {prpList : Bool} (h : IrqInv n v) (hnone : NoneYet v)
    (hok : CqChecks n v.ctrl d prpList) (hflag : d.cqFlags.toNat / 2 % 2 = 1)
    (hw : w = setupCreated n true { v with ctrl := addCq v.ctrl d } nvmeSuccess
      (.createCq d prpList)) :
    (Attachable n v (.createCq d prpList) ∧ IrqInv n w ∧ Interruptible w) ∨
      ¬ Attachable n v (.createCq d prpList) ∧ ¬ Interruptible w := by
  have hcmd : queueCmd n v.ctrl 0 (.createCq d prpList) = some (nvmeSuccess, addCq v.ctrl d) :=
    createCq_of_checks (h.inv.cqs.cqid_eq _) hok
  have haddrs := queueCmd_cqAddrs h.inv h.addrs hcmd
  have hnew : (addCq v.ctrl d).cq d.cqid.toNat = some (newCq d v.ctrl.nextAddr) := by
    rw [addCq_cq, if_pos rfl]
  have hvirq : ∀ x c', firstCq n (addCq v.ctrl d) x = some c' →
      (Function.update v.virq v.ctrl.nextAddr (v.vintId + 1) c'.addr = v.vintId + 1 ↔
        c'.addr = (newCq d v.ctrl.nextAddr).addr) := by
    intro x c' _
    rw [Function.update_apply]
    split
    case isTrue heq => exact iff_of_true rfl heq
    case isFalse hne =>
      rw [hnone.virq]
      exact iff_of_false (by omega) hne
  rw [setupCreated_createCq hflag, hnone.started, if_neg Bool.false_ne_true,
    msixSetVectorNotifiers, if_pos rfl, foldl_vectorUnmask hvirq _ (by rw [hnone.vints])] at hw
  dsimp only at hw
  -- the notifier is attached where the queue is the first with its vector
  have hany : ((List.range (n.numIoQueues + 1)).any fun x =>
      (firstCq n (addCq v.ctrl d) x).any (·.addr = (newCq d v.ctrl.nextAddr).addr)) = true ↔
        Attachable n v (.createCq d prpList) := by
    simp only [List.any_eq_true, List.mem_range, Option.any_eq_true, decide_eq_true_eq]
    constructor
    · rintro ⟨x, -, c', hfirst, haddr⟩ - -
      obtain ⟨i, hi, hc', hx, hbefore⟩ := firstCq_eq_some hfirst
      obtain rfl := haddrs.inj i _ c' _ hc' hnew haddr
      obtain rfl := Option.some.inj (hc'.symm.trans hnew)
      refine ⟨hnone.started, hi.2, fun j hj hpos => ?_⟩
      have hall := hbefore j hj hpos
      rw [addCq_cq, if_neg (by omega)] at hall
      rw [← hx] at hall
      exact hall
    · intro hatt
      obtain ⟨-, hle, hbefore⟩ := hatt hok hflag
      have hvector := hok.2.2.2.1
      refine ⟨d.irqVector.toNat, by omega, _, firstCq_of_first
        ⟨Nat.pos_of_ne_zero hok.1.1, hle⟩ hnew rfl fun j hj hpos => ?_, rfl⟩
      rw [addCq_cq, if_neg (by omega)]
      exact hbefore j hj hpos
  by_cases hatt : Attachable n v (.createCq d prpList)
  case pos =>
    left
    rw [if_pos (hany.mpr hatt)] at hw
    have hone : OneAttached n w d.cqid.toNat (newCq d v.ctrl.nextAddr) := by
      subst hw
      refine ⟨rfl, ⟨Nat.pos_of_ne_zero hok.1.1, (hatt hok hflag).2.1⟩, hnew,
        decide_eq_true hflag, ⟨_, rfl⟩, fun j c' hj hc' hirq => ?_⟩
      by_contra hne
      rw [addCq_cq, if_neg hne] at hc'
      rw [hnone.quiet j c' hj hc'] at hirq
      cases hirq
    refine ⟨hatt, ⟨?_, ?_, .inr ⟨_, _, hone⟩⟩, hone.interruptible⟩
    · rw [hw]
      exact queueCmd_inv h.inv hcmd
    · rw [hw]
      exact haddrs
  case neg =>
    right
    rw [if_neg fun hyes => hatt (hany.mp hyes)] at hw
    refine ⟨hatt, fun hint => ?_⟩
    subst hw
    obtain ⟨vi, hvi, -, hen⟩ := hint.attached _ _ hok.1.1 hnew (decide_eq_true hflag)
    rw [List.mem_singleton] at hvi
    rw [hvi] at hen
    cases hen

/-- A second completion queue with interrupts is not attached. -/
theorem not_attached_second {d : NvmeCreateCq} {prpList : Bool} (h : IrqInv n v)
    (hone : OneAttached n v i c) (hok : CqChecks n v.ctrl d prpList)
    (hflag : d.cqFlags.toNat / 2 % 2 = 1)
    (hw : w = setupCreated n true { v with ctrl := addCq v.ctrl d } nvmeSuccess
      (.createCq d prpList)) :
    ¬ Attachable n v (.createCq d prpList) ∧ ¬ Interruptible w := by
  rw [setupCreated_createCq hflag, hone.started, if_pos rfl] at hw
  constructor
  · intro hatt
    have hno := (hatt hok hflag).1
    rw [hone.started] at hno
    cases hno
  · intro hint
    subst hw
    have hnew : (addCq v.ctrl d).cq d.cqid.toNat = some (newCq d v.ctrl.nextAddr) := by
      rw [addCq_cq, if_pos rfl]
    obtain ⟨id, hvints⟩ := hone.vints
    obtain ⟨vi, hvi, -, hen⟩ := hint.attached _ _ hok.1.1 hnew (decide_eq_true hflag)
    have hlt := h.addrs.lt i c hone.cq
    rcases List.mem_cons.mp hvi with rfl | hold
    · cases hen
    · rw [hvints, List.mem_singleton] at hold
      rw [hold] at hen
      have heq : c.addr = v.ctrl.nextAddr := Option.some.inj hen
      omega

/-- **Step**: a command keeps every completion queue interruptible exactly when it is
attachable. -/
theorem irqStep_iff {x : Nat × QueueCmd} (h : IrqInv n v) (hstep : irqStep n v x = some w) :
    (Attachable n v x.2 ∧ IrqInv n w ∧ Interruptible w) ∨
      ¬ Attachable n v x.2 ∧ ¬ Interruptible w := by
  obtain ⟨now, cmd⟩ := x
  obtain ⟨⟨st, u⟩, hirq, rfl⟩ := Option.map_eq_some_iff.mp hstep
  obtain ⟨⟨st', t⟩, hcmd, heq⟩ := Option.map_eq_some_iff.mp hirq
  cases heq
  dsimp only at hcmd ⊢
  by_cases hquiet : Quiet n v.ctrl cmd
  case pos =>
    rw [hquiet.setupCreated h.inv hcmd]
    exact step_quiet h hquiet hcmd
  case neg =>
    unfold Quiet at hquiet
    push Not at hquiet
    obtain ⟨d, prpList, rfl, hok, hflag⟩ := hquiet
    rw [queueCmd, createCq_of_checks (h.inv.cqs.cqid_eq _) hok] at hcmd
    cases hcmd
    rcases h.state with hnone | ⟨i, c, hone⟩
    · exact attached_first h hnone hok hflag rfl
    · exact .inr (not_attached_second h hone hok hflag rfl)

theorem startCtrl_irqInv {asqs acqs : Nat} (hstart : startCtrl .reset asqs acqs = some s) :
    IrqInv n (.init s) := by
  have hinv : Inv n s := step_inv (a := .enable asqs acqs) reset_inv hstart
  rcases startCtrl_cases hstart with rfl | ⟨-, -, -, rfl⟩
  · refine ⟨hinv, ?_, .inl ⟨rfl, rfl, fun _ => rfl, ?_⟩⟩
    · constructor <;> simp [IrqCtrl.init, QueueCtrl.reset]
    · simp [IrqCtrl.init, QueueCtrl.reset]
  · have hcq : ∀ i c, (addAdmin .reset asqs acqs).cq i = some c → i = 0 ∧ c.addr = 0 := by
      intro i c hc
      rw [addAdmin_cq] at hc
      split at hc
      case isTrue hi =>
        cases hc
        exact ⟨hi, rfl⟩
      case isFalse => cases hc
    refine ⟨hinv, ⟨fun i c hc => ?_, fun i j c c' hc hc' _ => ?_⟩,
      .inl ⟨rfl, rfl, fun _ => rfl, fun i c hi hc => absurd (hcq i c hc).1 hi⟩⟩
    · rw [(hcq i c hc).2]
      exact Nat.succ_pos _
    · rw [(hcq i c hc).1, (hcq j c' hc').1]

end attach

/-- **Interrupts**: from a controller that has been started with MSI-X enabled, attachable
commands keep every completion queue interruptible; and there a command keeps this exactly
when it is attachable. -/
theorem cqs_interruptible {n : QueueCfg} {s : QueueCtrl} {v : IrqCtrl} {asqs acqs : Nat}
    {cmds : List (Nat × QueueCmd)} (hstart : startCtrl .reset asqs acqs = some s)
    (hrun : Run (fun v x w => Attachable n v x.2 ∧ irqStep n v x = some w) (.init s) cmds v) :
    Interruptible v ∧ ∀ x w, irqStep n v x = some w → (Interruptible w ↔ Attachable n v x.2) := by
  have hinv : IrqInv n v := by
    refine hrun.invariant (I := IrqInv n) ?_ (startCtrl_irqInv hstart)
    rintro v x w hv ⟨hatt, hstep⟩
    rcases irqStep_iff hv hstep with ⟨-, hw, -⟩ | ⟨hno, -⟩
    · exact hw
    · exact absurd hatt hno
  constructor
  · rcases hinv.state with hnone | ⟨i, c, hone⟩
    · exact hnone.interruptible
    · exact hone.interruptible
  · intro x w hstep
    rcases irqStep_iff hinv hstep with ⟨hatt, -, hint⟩ | ⟨hatt, hint⟩
    · exact iff_of_true hint hatt
    · exact iff_of_false hint hatt

/-- One completion queue with interrupts, and a submission queue for it. -/
theorem cqs_interruptible_small :
    ∃ s v, startCtrl .reset 31 31 = some s ∧
      Run (fun v x w => Attachable onePair v x.2 ∧ irqStep onePair v x = some w) (.init s)
        [(0, makeCq 1 7), (1, makeSq 1 1 3), (2, .delCq 1)] v ∧
      v.vints = [⟨some 2, 1, 1⟩] ∧ Interruptible v := by
  have hends : ((startCtrl .reset 31 31).bind fun s =>
      (exec (allowed (fun v x => Attachable onePair v x.2) (irqStep onePair))
        [(0, makeCq 1 7), (1, makeSq 1 1 3), (2, .delCq 1)] (.init s)).map (·.vints)) =
      some [⟨some 2, 1, 1⟩] := by decide +kernel
  obtain ⟨s, hstart, hends⟩ := Option.bind_eq_some_iff.mp hends
  obtain ⟨v, hv, hvints⟩ := Option.map_eq_some_iff.mp hends
  have hrun := run_of_exec_allowed hv
  exact ⟨s, v, hstart, hrun, hvints, (cqs_interruptible hstart hrun).1⟩

/-- The second completion queue with interrupts, with a vector of its own, has an entry without
a notifier. -/
theorem second_cq_mute :
    ∃ s v, startCtrl .reset 31 31 = some s ∧
      Run (fun v x w => irqStep { onePair with numIoQueues := 2 } v x = some w) (.init s)
        [(0, makeCq 1 7), (1, .createCq ⟨0x30000, 2, 7, 3, 2⟩ false)] v ∧
      v.vints = [⟨none, 2, 2⟩, ⟨some 2, 1, 1⟩] ∧ ¬ Interruptible v := by
  have hends : ((startCtrl .reset 31 31).bind fun s =>
      (exec (irqStep { onePair with numIoQueues := 2 })
        [(0, makeCq 1 7), (1, .createCq ⟨0x30000, 2, 7, 3, 2⟩ false)] (.init s)).map fun v =>
          decide (v.vints = [⟨none, 2, 2⟩, ⟨some 2, 1, 1⟩] ∧
            (v.ctrl.cq 2).map (fun c => (c.addr, c.vector, c.irqEnabled)) = some (3, 2, true))) =
      some true := by decide +kernel
  obtain ⟨s, hstart, hends⟩ := Option.bind_eq_some_iff.mp hends
  obtain ⟨v, hv, heq⟩ := Option.map_eq_some_iff.mp hends
  obtain ⟨hvints, hcq⟩ := of_decide_eq_true heq
  obtain ⟨c, hc, hfields⟩ := Option.map_eq_some_iff.mp hcq
  simp only [Prod.mk.injEq] at hfields
  obtain ⟨haddr, -, hirq⟩ := hfields
  refine ⟨s, v, hstart, run_of_exec hv, hvints, fun hint => ?_⟩
  obtain ⟨vi, hvi, -, hen⟩ := hint.attached 2 c (by decide) hc hirq
  rw [hvints, haddr] at *
  simp only [List.mem_cons, List.not_mem_nil, or_false] at hvi
  rcases hvi with rfl | rfl <;> cases hen

end Femu.Queue
