import Femu.Lib.Transition
import Femu.Queue.Defs

/-!
# Femu.Queue.Table

The tables of the queues under the queue commands (`nvme_create_sq`, `nvme_create_cq`,
`nvme_del_sq`, `nvme_del_cq`), from a controller that has just been started.

`nvme_check_sqid` and `nvme_check_cqid` answer two questions at once, whether the number is
in range and whether the queue exists; the create commands negate the answer. A number out
of range passes for one that is free.
-/

namespace Femu.Queue

open Nvme Lib

variable {n : QueueCfg} {s s' : QueueCtrl} {st : Status} {i j now : Nat} {prpList : Bool}

/-! ## what starting the controller does -/

section start

variable {asqs acqs : Nat}

def adminSq (asqs addr : Nat) : NvmeSQueue where
  addr := addr
  sqid := 0
  cqid := 0
  size := asqs + 1
  head := 0
  tail := 0
  isActive := false
  reqList := List.range (asqs + 1)
  outReqList := []

def adminCq (acqs addr : Nat) : NvmeCQueue where
  addr := addr
  cqid := 0
  size := acqs + 1
  head := 0
  tail := 0
  phase := true
  irqEnabled := true
  vector := 0
  isActive := false
  sqList := []
  reqList := []

/-- The state after the admin queues have been made. -/
def addAdmin (s : QueueCtrl) (asqs acqs : Nat) : QueueCtrl :=
  { s with
    sq := Function.update s.sq 0 (some (adminSq asqs (s.nextAddr + 1)))
    cq := Function.update s.cq 0 (some { adminCq acqs s.nextAddr with sqList := [0] })
    nextAddr := s.nextAddr + 2 }

@[grind =] theorem addAdmin_sq : (addAdmin s asqs acqs).sq i =
    if i = 0 then some (adminSq asqs (s.nextAddr + 1)) else s.sq i :=
  Function.update_apply ..

@[grind =] theorem addAdmin_cq : (addAdmin s asqs acqs).cq i =
    if i = 0 then some { adminCq acqs s.nextAddr with sqList := [0] } else s.cq i :=
  Function.update_apply ..

theorem startCtrl_of_checks (hcq : s.cq 0 = none) (hsq : s.sq 0 = none)
    (hasqs : 0 < asqs ∧ asqs ≤ 4095) (hacqs : 0 < acqs ∧ acqs ≤ 4095) :
    startCtrl s asqs acqs = some (addAdmin s asqs acqs) := by
  have hok : ¬ ((s.cq 0).isSome ∨ (s.sq 0).isSome ∨ asqs = 0 ∨ asqs > 4095 ∨ acqs = 0 ∨
      acqs > 4095) := by
    simp [hcq, hsq]
    omega
  rw [startCtrl, if_neg hok]
  simp [initCq, initSq, QueueCtrl.setCq, QueueCtrl.setSq, addAdmin, adminSq, adminCq]

theorem startCtrl_cases (h : startCtrl s asqs acqs = some s') :
    s' = s ∨ s.cq 0 = none ∧ s.sq 0 = none ∧ (0 < asqs ∧ 0 < acqs) ∧ s' = addAdmin s asqs acqs := by
  unfold startCtrl at h
  split at h
  case isTrue =>
    cases h
    exact .inl rfl
  case isFalse hok =>
    simp only [not_or, Bool.not_eq_true, Option.isSome_eq_false_iff, Option.isNone_iff_eq_none] at hok
    obtain ⟨hcq, hsq, has, -, hac, -⟩ := hok
    have hres : s' = addAdmin s asqs acqs := by
      simpa [initCq, initSq, QueueCtrl.setCq, QueueCtrl.setSq, addAdmin, adminSq, adminCq, eq_comm]
        using h
    exact .inr ⟨hcq, hsq, ⟨by omega, by omega⟩, hres⟩

end start

/-! ## what the commands do -/

section create

variable {c : NvmeCreateSq} {d : NvmeCreateCq}

/-- The checks of `nvme_create_sq` and `nvme_init_sq`. -/
def SqChecks (n : QueueCfg) (s : QueueCtrl) (c : NvmeCreateSq) (prpList : Bool) : Prop :=
  (c.cqid.toNat ≠ 0 ∧ checkCqid n s c.cqid.toNat) ∧
    (c.sqid.toNat ≠ 0 ∧ ¬ checkSqid n s c.sqid.toNat) ∧
    (c.qsize ≠ 0 ∧ c.qsize.toNat ≤ n.mqes) ∧
    (c.prp1 ≠ 0 ∧ c.prp1 &&& (n.pageSize - 1) = 0) ∧
    (flagsPc c.sqFlags ∨ ¬ n.cqr ∧ prpList)

instance : Decidable (SqChecks n s c prpList) := inferInstanceAs (Decidable (_ ∧ _))

/-- The checks of `nvme_create_cq` and `nvme_init_cq`. -/
def CqChecks (n : QueueCfg) (s : QueueCtrl) (c : NvmeCreateCq) (prpList : Bool) : Prop :=
  (c.cqid.toNat ≠ 0 ∧ ¬ checkCqid n s c.cqid.toNat) ∧
    (c.qsize ≠ 0 ∧ c.qsize.toNat ≤ n.mqes) ∧
    c.prp1 ≠ 0 ∧
    c.irqVector.toNat ≤ n.numIoQueues ∧
    (flagsPc c.cqFlags ∨ ¬ n.cqr ∧ prpList)

instance : Decidable (CqChecks n s d prpList) := inferInstanceAs (Decidable (_ ∧ _))

theorem SqChecks.cq_live (h : SqChecks n s c prpList) : ∃ q, s.cq c.cqid.toNat = some q := by
  obtain ⟨⟨-, hcq⟩, -⟩ := h
  exact Option.isSome_iff_exists.mp (Bool.and_eq_true_iff.mp hcq).2

theorem SqChecks.cqid_le (h : SqChecks n s c prpList) : c.cqid.toNat ≤ n.numIoQueues := by
  obtain ⟨⟨-, hcq⟩, -⟩ := h
  simpa using (Bool.and_eq_true_iff.mp hcq).1

theorem SqChecks.free (h : SqChecks n s c prpList) (hle : c.sqid.toNat ≤ n.numIoQueues) :
    s.sq c.sqid.toNat = none := by
  obtain ⟨-, ⟨-, hsq⟩, -⟩ := h
  simpa [checkSqid, hle] using hsq

theorem CqChecks.free (h : CqChecks n s d prpList) (hle : d.cqid.toNat ≤ n.numIoQueues) :
    s.cq d.cqid.toNat = none := by
  obtain ⟨⟨-, hcq⟩, -⟩ := h
  simpa [checkCqid, hle] using hcq

/-- The submission queue that a Create I/O Submission Queue command makes. -/
def newSq (c : NvmeCreateSq) (addr : Nat) : NvmeSQueue where
  addr := addr
  sqid := c.sqid.toNat
  cqid := c.cqid.toNat
  size := u16 (c.qsize.toNat + 1)
  head := 0
  tail := 0
  isActive := true
  reqList := List.range (u16 (c.qsize.toNat + 1))
  outReqList := []

/-- The completion queue that a Create I/O Completion Queue command makes. -/
def newCq (c : NvmeCreateCq) (addr : Nat) : NvmeCQueue where
  addr := addr
  cqid := c.cqid.toNat
  size := u16 (c.qsize.toNat + 1)
  head := 0
  tail := 0
  phase := true
  irqEnabled := c.cqFlags.toNat / 2 % 2 = 1
  vector := c.irqVector.toNat
  isActive := true
  sqList := []
  reqList := []

/-- The state after a submission queue has been made for the completion queue `q`. -/
def addSq (s : QueueCtrl) (c : NvmeCreateSq) (q : NvmeCQueue) : QueueCtrl :=
  { s with
    cq := Function.update s.cq c.cqid.toNat (some { q with sqList := q.sqList ++ [c.sqid.toNat] })
    sq := Function.update s.sq c.sqid.toNat (some (newSq c s.nextAddr))
    nextAddr := s.nextAddr + 1 }

def addCq (s : QueueCtrl) (c : NvmeCreateCq) : QueueCtrl :=
  { s with
    cq := Function.update s.cq c.cqid.toNat (some (newCq c s.nextAddr))
    nextAddr := s.nextAddr + 1 }

@[grind =] theorem addSq_sq {q : NvmeCQueue} : (addSq s c q).sq i =
    if i = c.sqid.toNat then some (newSq c s.nextAddr) else s.sq i :=
  Function.update_apply ..

@[grind =] theorem addSq_cq {q : NvmeCQueue} : (addSq s c q).cq i =
    if i = c.cqid.toNat then some { q with sqList := q.sqList ++ [c.sqid.toNat] } else s.cq i :=
  Function.update_apply ..

@[grind =] theorem addCq_sq : (addCq s d).sq i = s.sq i := rfl

@[grind =] theorem addCq_cq : (addCq s d).cq i =
    if i = d.cqid.toNat then some (newCq d s.nextAddr) else s.cq i :=
  Function.update_apply ..

theorem createSq_of_checks {q : NvmeCQueue} (h : SqChecks n s c prpList)
    (hq : s.cq c.cqid.toNat = some q) :
    createSq n s c prpList = some (nvmeSuccess, addSq s c q) := by
  obtain ⟨⟨h1, h2⟩, ⟨h3, h4⟩, ⟨h5, h6⟩, ⟨h7, h8⟩, h9⟩ := h
  have hpc : flagsPc c.sqFlags = false → n.cqr = false := by grind
  have hlist : ¬ ((!flagsPc c.sqFlags && !prpList) = true) := by grind
  simpa [createSq, initSq, h1, h2, h3, h4, h5, Nat.not_lt.mpr h6, h7, h8, hlist, hq,
    QueueCtrl.setSq, QueueCtrl.setCq, addSq, newSq] using hpc

theorem createSq_of_not_checks (h : ¬ SqChecks n s c prpList) :
    ∃ st, st ≠ nvmeSuccess ∧ createSq n s c prpList = some (st, s) := by
  unfold createSq
  dsimp only
  split_ifs with h1 h2 h3 h4 h5
  case pos | pos | pos | pos | pos => exact ⟨_, by decide, rfl⟩
  have hlist : (!flagsPc c.sqFlags && !prpList) = true := by
    by_contra hlist
    exact h (by unfold SqChecks; grind)
  exact ⟨nvmeInvalidField ||| nvmeDnr, by decide, by simp [initSq, hlist]⟩

theorem createCq_of_checks (hid : ∀ q, s.cq d.cqid.toNat = some q → q.cqid = d.cqid.toNat)
    (h : CqChecks n s d prpList) : createCq n s d prpList = some (nvmeSuccess, addCq s d) := by
  obtain ⟨⟨h1, h2⟩, ⟨h3, h4⟩, h5, h6, h7⟩ := h
  have hpc : flagsPc d.cqFlags = false → n.cqr = false := by grind
  have hlist : ¬ ((!flagsPc d.cqFlags && !prpList) = true) := by grind
  cases hq : s.cq d.cqid.toNat with
  | none =>
      simpa [createCq, initCq, h1, h2, h3, Nat.not_lt.mpr h4, h5, Nat.not_lt.mpr h6, hlist, hq,
        QueueCtrl.setCq, addCq, newCq] using hpc
  | some q =>
      simpa [createCq, initCq, h1, h2, h3, Nat.not_lt.mpr h4, h5, Nat.not_lt.mpr h6, hlist, hq,
        freeCq, hid q hq, QueueCtrl.setCq, addCq, newCq] using hpc

/-- The queue that is found in the place is freed before the list of a queue that is not
contiguous is set up. -/
theorem createCq_refused (hid : ∀ q, s.cq d.cqid.toNat = some q → q.cqid = d.cqid.toNat)
    (h : ¬ CqChecks n s d prpList) :
    ∃ st, st ≠ nvmeSuccess ∧ createCq n s d prpList =
      some (st, if CqChecks n s d true then s.setCq d.cqid.toNat none else s) := by
  by_cases hok : CqChecks n s d true
  case pos =>
    have hlist : (!flagsPc d.cqFlags && !prpList) = true := by
      by_contra hlist
      exact h (by unfold CqChecks at hok ⊢; grind)
    obtain ⟨⟨h1, h2⟩, ⟨h3, h4⟩, h5, h6, h7⟩ := id hok
    have hcqr : flagsPc d.cqFlags = false → n.cqr = false := by grind
    refine ⟨nvmeInvalidField ||| nvmeDnr, by decide, ?_⟩
    rw [if_pos hok]
    cases hq : s.cq d.cqid.toNat with
    | none =>
        have hsame : s.setCq d.cqid.toNat none = s := by
          rw [QueueCtrl.setCq, ← hq, Function.update_eq_self]
        simp [createCq, initCq, h1, h2, h3, Nat.not_lt.mpr h4, h5, Nat.not_lt.mpr h6, hlist, hq,
          hsame]
    | some q =>
        simpa [createCq, initCq, h1, h2, h3, Nat.not_lt.mpr h4, h5, Nat.not_lt.mpr h6, hlist, hq,
          freeCq, hid q hq] using fun hpc hc => absurd hc (by simp [hcqr hpc])
  case neg =>
    rw [if_neg hok, createCq]
    dsimp only
    split_ifs with h1 h2 h3 h4 h5
    case pos | pos | pos | pos | pos => exact ⟨_, by decide, rfl⟩
    all_goals exact absurd (by unfold CqChecks; grind) hok

/-- A queue that is freed so has a number out of range. -/
theorem createCq_of_not_checks (hid : ∀ q, s.cq d.cqid.toNat = some q → q.cqid = d.cqid.toNat)
    (h : ¬ CqChecks n s d prpList) :
    ∃ st s', st ≠ nvmeSuccess ∧ createCq n s d prpList = some (st, s') ∧
      (s' = s ∨ n.numIoQueues < d.cqid.toNat ∧ s' = s.setCq d.cqid.toNat none) := by
  obtain ⟨st, hst, heq⟩ := createCq_refused hid h
  refine ⟨st, _, hst, heq, ?_⟩
  split
  case isFalse => exact .inl rfl
  case isTrue hok =>
    by_cases hle : d.cqid.toNat ≤ n.numIoQueues
    case pos => exact .inl (by rw [QueueCtrl.setCq, ← hok.free hle, Function.update_eq_self])
    case neg => exact .inr ⟨Nat.lt_of_not_le hle, rfl⟩

end create

section delete

variable {qid : UInt16} {q : NvmeSQueue} {c : NvmeCQueue}

/-- The completion queues after the submission queue `q` has been taken out of its own. -/
def detached (n : QueueCfg) (s : QueueCtrl) (q : NvmeSQueue) (j : Nat) : Option NvmeCQueue :=
  if j = q.cqid ∧ j ≤ n.numIoQueues then
    (s.cq j).map fun c => { c with sqList := c.sqList.erase q.sqid }
  else s.cq j

theorem detached_of_not_checkCqid (h : ¬ checkCqid n s q.cqid) : detached n s q = s.cq := by
  funext j
  unfold detached
  split
  case isTrue hj =>
    obtain rfl := hj.1
    have hnone : s.cq q.cqid = none := by simpa [checkCqid, hj.2] using h
    rw [hnone, Option.map_none]
  case isFalse => rfl

theorem detached_of_some (hle : q.cqid ≤ n.numIoQueues) (hc : s.cq q.cqid = some c) :
    detached n s q =
      Function.update s.cq q.cqid (some { c with sqList := c.sqList.erase q.sqid }) := by
  funext j
  by_cases hj : j = q.cqid
  · subst hj
    simp [detached, hle, hc]
  · simp [detached, hj]

theorem detached_eq_some (h : detached n s q j = some c) :
    ∃ c₀ l, s.cq j = some c₀ ∧ c = { c₀ with sqList := l } := by
  unfold detached at h
  split at h
  case isTrue =>
    obtain ⟨c₀, hc₀, rfl⟩ := Option.map_eq_some_iff.mp h
    exact ⟨c₀, _, hc₀, rfl⟩
  case isFalse => exact ⟨c, c.sqList, h, rfl⟩

/-- The state after the submission queue `q` has been deleted. -/
def removeSq (n : QueueCfg) (s : QueueCtrl) (q : NvmeSQueue) : QueueCtrl :=
  { s with
    sq := Function.update s.sq q.sqid none
    cq := detached n s q }

@[grind =] theorem removeSq_sq : (removeSq n s q).sq i =
    if i = q.sqid then none else s.sq i :=
  Function.update_apply ..

@[grind =] theorem removeSq_cq : (removeSq n s q).cq i = detached n s q i := rfl

/-- With no request in `cq->req_list` nothing is posted and nothing is taken back. -/
theorem detachSq_eq (now : Nat) {c : NvmeCQueue} (hsq : s.sq q.sqid = some q) (hnil : c.reqList = []) :
    detachSq s now q c = some (s.setCq q.cqid (some { c with sqList := c.sqList.erase q.sqid })) := by
  obtain ⟨caddr, ccqid, csize, chead, ctail, cphase, cirq, cvec, cact, clist, creq⟩ := c
  obtain rfl : creq = [] := hnil
  obtain ⟨qaddr, qsqid, qcqid, qsize, qhead, qtail, qact, qreq, qout⟩ := q
  simp only at hsq
  simp [detachSq, postCqesIo, postCqesLoop, takeBack, QueueCtrl.setCq, QueueCtrl.setSq, hsq]

theorem delSq_of_live (hne : qid ≠ 0) (hle : qid.toNat ≤ n.numIoQueues)
    (hq : s.sq qid.toNat = some q) (hid : q.sqid = qid.toNat) (hact : q.isActive)
    (hnil : ∀ c, s.cq q.cqid = some c → c.reqList = []) :
    delSq n s now qid = some (nvmeSuccess, removeSq n s q) := by
  by_cases hcheck : checkCqid n s q.cqid
  case neg =>
    have hcq := detached_of_not_checkCqid hcheck
    have hres : delSq n s now qid = some (nvmeSuccess, freeSq
        (s.setSq qid.toNat (some { q with isActive := false })) { q with isActive := false }) := by
      cases hc : s.cq q.cqid <;> simp [delSq, checkSqid, hne, hle, hq, hact, hc, hcheck]
    simp [hres, freeSq, QueueCtrl.setSq, hid, removeSq, hcq]
  case pos =>
    simp only [checkCqid, Bool.and_eq_true, decide_eq_true_eq, Option.isSome_iff_exists] at hcheck
    obtain ⟨hqle, c, hc⟩ := hcheck
    have hcq := detached_of_some hqle hc
    have hdetach := detachSq_eq (s := s.setSq qid.toNat (some { q with isActive := false }))
      (q := { q with isActive := false }) now (by simp [hid]) (hnil c hc)
    simp only [delSq, checkSqid, checkCqid, hne, hle, hq, hact, hc, hqle, hdetach,
      QueueCtrl.setSq_cq, decide_true, Option.isSome_some, Bool.and_self, not_true, or_self,
      if_false, if_true, Option.bind_eq_bind, Option.bind_some, Option.pure_def]
    simp [freeSq, QueueCtrl.setSq, QueueCtrl.setCq, hid, removeSq, hcq]

theorem delSq_cases (hsq : ∀ i q, s.sq i = some q → q.sqid = i)
    (hcq : ∀ j c, s.cq j = some c → c.reqList = []) (h : delSq n s now qid = some (st, s')) :
    (st ≠ nvmeSuccess ∧ s' = s) ∨
      ∃ q, qid ≠ 0 ∧ qid.toNat ≤ n.numIoQueues ∧ s.sq qid.toNat = some q ∧ q.isActive ∧
        st = nvmeSuccess ∧ s' = removeSq n s q := by
  by_cases hok : qid = 0 ∨ ¬ checkSqid n s qid.toNat
  case pos =>
    rw [delSq, if_pos hok] at h
    cases h
    exact .inl ⟨by decide, rfl⟩
  case neg =>
    have hok' := hok
    simp only [checkSqid, Bool.and_eq_true, decide_eq_true_eq, not_or, not_not,
      Option.isSome_iff_exists] at hok'
    obtain ⟨hne, hle, q, hq⟩ := hok'
    by_cases hact : q.isActive
    case neg =>
      rw [delSq, if_neg hok] at h
      simp [hq, hact] at h
    case pos =>
      rw [delSq_of_live hne hle hq (hsq _ _ hq) hact fun c => hcq _ c] at h
      cases h
      exact .inr ⟨q, hne, hle, hq, hact, rfl, rfl⟩

theorem delCq_cases (hid : ∀ j c, s.cq j = some c → c.cqid = j)
    (h : delCq n s qid = some (st, s')) :
    (st ≠ nvmeSuccess ∧ s' = s) ∨
      ∃ c, qid ≠ 0 ∧ qid.toNat ≤ n.numIoQueues ∧ s.cq qid.toNat = some c ∧ c.isActive ∧
        (c.sqList ≠ [] ∧ st ≠ nvmeSuccess ∧
            s' = s.setCq qid.toNat (some { c with isActive := false }) ∨
          c.sqList = [] ∧ st = nvmeSuccess ∧ s' = s.setCq qid.toNat none) := by
  unfold delCq at h
  split at h
  case isTrue =>
    cases h
    exact .inl ⟨by decide, rfl⟩
  case isFalse hok =>
    simp only [checkCqid, Bool.and_eq_true, decide_eq_true_eq, not_or, not_not] at hok
    obtain ⟨hne, hle, hsome⟩ := hok
    split at h
    case h_1 => cases h
    case h_2 c hc =>
      split at h
      case isFalse => cases h
      case isTrue hact =>
        refine .inr ⟨c, hne, hle, hc, hact, ?_⟩
        dsimp only at h
        split at h
        case isTrue hlist =>
          cases h
          exact .inl ⟨hlist, by decide, rfl⟩
        case isFalse hlist =>
          cases h
          exact .inr ⟨not_not.mp hlist, rfl, by simp [freeCq, QueueCtrl.setCq, hid _ _ hc]⟩

end delete

/-! ## the commands in any order -/

/-- A queue command of the host, with the result of `nvme_setup_discontig` where it makes
a queue. -/
inductive QueueCmd
  | createSq (c : NvmeCreateSq) (prpList : Bool)
  | createCq (c : NvmeCreateCq) (prpList : Bool)
  | delSq (qid : UInt16)
  | delCq (qid : UInt16)

def queueCmd (n : QueueCfg) (s : QueueCtrl) (now : Nat) : QueueCmd → Option (Status × QueueCtrl)
  | .createSq c prpList => createSq n s c prpList
  | .createCq c prpList => createCq n s c prpList
  | .delSq qid => delSq n s now qid
  | .delCq qid => delCq n s qid

/-- The tables fit together: what a live submission queue says of its completion queue and
what the list of the completion queue says are the same. -/
structure TableInv (n : QueueCfg) (s : QueueCtrl) : Prop where
  sqid_eq : ∀ i q, s.sq i = some q → q.sqid = i
  cqid_le : ∀ i q, s.sq i = some q → q.cqid ≤ n.numIoQueues
  cqid_eq : ∀ j c, s.cq j = some c → c.cqid = j
  reqList_nil : ∀ j c, s.cq j = some c → c.reqList = []
  cqid_live : ∀ i q, s.sq i = some q → ∃ c, s.cq q.cqid = some c
  nodup : ∀ j c, s.cq j = some c → c.sqList.Nodup
  mem_sqList : ∀ j c, s.cq j = some c → ∀ i, i ∈ c.sqList ↔ ∃ q, s.sq i = some q ∧ q.cqid = j

/-- A created queue is in range, in an empty slot, and has one entry more than the value of
the command, two at least. -/
def Created (n : QueueCfg) (s s' : QueueCtrl) : QueueCmd → Prop
  | .createSq c _ =>
      (1 ≤ c.sqid.toNat ∧ c.sqid.toNat ≤ n.numIoQueues) ∧ s.sq c.sqid.toNat = none ∧
        ∃ q, s'.sq c.sqid.toNat = some q ∧ q.size = c.qsize.toNat + 1 ∧ 2 ≤ q.size
  | .createCq c _ =>
      (1 ≤ c.cqid.toNat ∧ c.cqid.toNat ≤ n.numIoQueues) ∧ s.cq c.cqid.toNat = none ∧
        ∃ q, s'.cq c.cqid.toNat = some q ∧ q.size = c.qsize.toNat + 1 ∧ 2 ≤ q.size
  | .delSq _ => True
  | .delCq _ => True

/-- What a command does to the tables: an accepted one creates its queue, and a completion
queue that submission queues are attached to stays the same object. -/
def CommandOk (n : QueueCfg) (s : QueueCtrl) (cmd : QueueCmd) (st : Status) (s' : QueueCtrl) :
    Prop :=
  (st = nvmeSuccess → Created n s s' cmd) ∧
    ∀ j c, s.cq j = some c → c.sqList ≠ [] → ∃ c', s'.cq j = some c' ∧ c'.addr = c.addr

/-- A create command that passes the checks names a queue in range and a number of entries
that a `uint16_t` holds. -/
def InRange (n : QueueCfg) (s : QueueCtrl) : QueueCmd → Prop
  | .createSq c prpList =>
      SqChecks n s c prpList → c.sqid.toNat ≤ n.numIoQueues ∧ c.qsize ≠ 0xffff
  | .createCq c prpList =>
      CqChecks n s c prpList → c.cqid.toNat ≤ n.numIoQueues ∧ c.qsize ≠ 0xffff
  | _ => True

instance (n : QueueCfg) (s : QueueCtrl) : (cmd : QueueCmd) → Decidable (InRange n s cmd)
  | .createSq _ _ => inferInstanceAs (Decidable (_ → _))
  | .createCq _ _ => inferInstanceAs (Decidable (_ → _))
  | .delSq _ => inferInstanceAs (Decidable True)
  | .delCq _ => inferInstanceAs (Decidable True)

theorem created_size {x : UInt16} (h0 : x ≠ 0) :
    u16 (x.toNat + 1) = x.toNat + 1 ∧ 2 ≤ u16 (x.toNat + 1) ↔ x ≠ 0xffff := by
  have h0' : x.toNat ≠ 0 := fun h => h0 (UInt16.toNat_inj.mp h)
  have hmax : x = 0xffff ↔ x.toNat = 0xffff := UInt16.toNat_inj.symm
  have hlt := x.toNat_lt
  rw [Ne, hmax, u16]
  omega

namespace TableInv

variable {c : NvmeCreateSq} {d : NvmeCreateCq} {q : NvmeSQueue} {e : NvmeCQueue} {t : QueueCtrl}

/-- A new submission queue for the completion queue `e`. -/
theorem attach (h : TableInv n s) (hle : q.cqid ≤ n.numIoQueues) (he : s.cq q.cqid = some e)
    (hfree : s.sq q.sqid = none) (htsq : t.sq = Function.update s.sq q.sqid (some q))
    (htcq : t.cq =
      Function.update s.cq q.cqid (some { e with sqList := e.sqList ++ [q.sqid] })) :
    TableInv n t := by
  obtain ⟨hsq, hle', hcq, hnil, hlive, hnodup, hmem⟩ := h
  have htsq' : ∀ i, t.sq i = if i = q.sqid then some q else s.sq i := by
    intro i
    rw [htsq, Function.update_apply]
  have htcq' : ∀ j, t.cq j =
      if j = q.cqid then some { e with sqList := e.sqList ++ [q.sqid] } else s.cq j := by
    intro j
    rw [htcq, Function.update_apply]
  have hnew : q.sqid ∉ e.sqList := by grind
  constructor
  case mem_sqList =>
    intro j c hc i
    rw [htcq'] at hc
    split at hc
    case isTrue hj =>
      cases hc
      simp only [List.mem_append, List.mem_singleton, htsq', hmem _ _ he, hj]
      by_cases hi : i = q.sqid
      · simp [hi]
      · simp [hi]
    case isFalse hj =>
      simp only [htsq', hmem _ _ hc]
      by_cases hi : i = q.sqid
      · simp [hi, hfree, Ne.symm hj]
      · simp [hi]
  all_goals grind

/-- A new completion queue. -/
theorem place (h : TableInv n s) (hfree : s.cq e.cqid = none) (hnone : e.sqList = [])
    (hnil : e.reqList = []) (htsq : t.sq = s.sq)
    (htcq : t.cq = Function.update s.cq e.cqid (some e)) : TableInv n t := by
  obtain ⟨hsq, hle', hcq, hnil', hlive, hnodup, hmem⟩ := h
  have htsq' : ∀ i, t.sq i = s.sq i := congrFun htsq
  have htcq' : ∀ j, t.cq j = if j = e.cqid then some e else s.cq j := by
    intro j
    rw [htcq, Function.update_apply]
  clear htsq htcq
  constructor <;> grind

theorem removeSq (h : TableInv n s) (hq : s.sq i = some q) : TableInv n (removeSq n s q) := by
  obtain ⟨hsq, hle', hcq, hnil, hlive, hnodup, hmem⟩ := h
  constructor <;> grind [detached, List.Nodup.mem_erase_iff]

theorem removeCq (h : TableInv n s) (hnone : ∀ e, s.cq j = some e → e.sqList = []) :
    TableInv n (s.setCq j none) := by
  obtain ⟨hsq, hle', hcq, hnil, hlive, hnodup, hmem⟩ := h
  have hunused : ∀ i q, s.sq i = some q → q.cqid ≠ j := by
    intro i q hq hj
    obtain ⟨e, he⟩ := hlive i q hq
    subst hj
    have hin : i ∈ e.sqList := (hmem _ e he i).mpr ⟨q, hq, rfl⟩
    rw [hnone e he] at hin
    cases hin
  constructor <;> grind

/-- No submission queue uses a completion queue whose number is out of range. -/
theorem sqList_nil (h : TableInv n s) (he : s.cq j = some e) (hout : n.numIoQueues < j) :
    e.sqList = [] := by
  refine List.eq_nil_iff_forall_not_mem.mpr fun i hi => ?_
  obtain ⟨q, hq, rfl⟩ := (h.mem_sqList _ e he i).mp hi
  have hle := h.cqid_le i q hq
  omega

theorem retireCq (h : TableInv n s) (he : s.cq j = some e) :
    TableInv n (s.setCq j (some { e with isActive := false })) := by
  obtain ⟨hsq, hle', hcq, hnil, hlive, hnodup, hmem⟩ := h
  constructor <;> grind

theorem reset : TableInv n .reset := by
  constructor <;> simp [QueueCtrl.reset]

theorem startCtrl {asqs acqs : Nat} (h : TableInv n s)
    (hstart : Queue.startCtrl s asqs acqs = some t) : TableInv n t := by
  rcases startCtrl_cases hstart with rfl | ⟨hcq, hsq, -, rfl⟩
  · exact h
  · have hplace : TableInv n (s.setCq 0 (some (adminCq acqs s.nextAddr))) :=
      h.place (e := adminCq acqs s.nextAddr) hcq rfl rfl rfl rfl
    exact hplace.attach (q := adminSq asqs (s.nextAddr + 1)) (e := adminCq acqs s.nextAddr)
      (Nat.zero_le _) (by simp [adminSq]) hsq rfl (by simp [addAdmin, adminSq, adminCq])

end TableInv

variable {cmd : QueueCmd}

/-- A create command that passes the checks names a queue in range. -/
def NumInRange (n : QueueCfg) (s : QueueCtrl) : QueueCmd → Prop
  | .createSq c prpList => SqChecks n s c prpList → c.sqid.toNat ≤ n.numIoQueues
  | .createCq c prpList => CqChecks n s c prpList → c.cqid.toNat ≤ n.numIoQueues
  | _ => True

instance (n : QueueCfg) (s : QueueCtrl) : (cmd : QueueCmd) → Decidable (NumInRange n s cmd)
  | .createSq _ _ => inferInstanceAs (Decidable (_ → _))
  | .createCq _ _ => inferInstanceAs (Decidable (_ → _))
  | .delSq _ => inferInstanceAs (Decidable True)
  | .delCq _ => inferInstanceAs (Decidable True)

theorem InRange.num (h : InRange n s cmd) : NumInRange n s cmd := by
  cases cmd with
  | createSq c prpList => exact fun hok => (h hok).1
  | createCq c prpList => exact fun hok => (h hok).1
  | delSq qid => trivial
  | delCq qid => trivial

/-- What a queue command can do. A refused create command still frees the queue that its
number, out of range, finds in the table; a deletion of a completion queue in use only
marks it. -/
inductive QueueEffect (n : QueueCfg) (s : QueueCtrl) : QueueCmd → Status → QueueCtrl → Prop
  | refused (cmd : QueueCmd) (st : Status) (hst : st ≠ nvmeSuccess) : QueueEffect n s cmd st s
  | createSq (c : NvmeCreateSq) (prpList : Bool) (e : NvmeCQueue) (hok : SqChecks n s c prpList)
      (he : s.cq c.cqid.toNat = some e) :
      QueueEffect n s (.createSq c prpList) nvmeSuccess (addSq s c e)
  | createCq (d : NvmeCreateCq) (prpList : Bool) (hok : CqChecks n s d prpList) :
      QueueEffect n s (.createCq d prpList) nvmeSuccess (addCq s d)
  | lostCq (d : NvmeCreateCq) (prpList : Bool) (st : Status) (hst : st ≠ nvmeSuccess)
      (hout : n.numIoQueues < d.cqid.toNat) :
      QueueEffect n s (.createCq d prpList) st (s.setCq d.cqid.toNat none)
  | delSq (qid : UInt16) (q : NvmeSQueue) (hne : qid ≠ 0) (hle : qid.toNat ≤ n.numIoQueues)
      (hq : s.sq qid.toNat = some q) :
      QueueEffect n s (.delSq qid) nvmeSuccess (removeSq n s q)
  | retireCq (qid : UInt16) (st : Status) (e : NvmeCQueue) (hst : st ≠ nvmeSuccess)
      (hne : qid ≠ 0) (he : s.cq qid.toNat = some e) (hused : e.sqList ≠ []) :
      QueueEffect n s (.delCq qid) st (s.setCq qid.toNat (some { e with isActive := false }))
  | delCq (qid : UInt16) (e : NvmeCQueue) (hne : qid ≠ 0) (he : s.cq qid.toNat = some e)
      (hnone : e.sqList = []) :
      QueueEffect n s (.delCq qid) nvmeSuccess (s.setCq qid.toNat none)

theorem queueCmd_effect (hsq : ∀ i q, s.sq i = some q → q.sqid = i)
    (hcq : ∀ j e, s.cq j = some e → e.cqid = j) (hnil : ∀ j e, s.cq j = some e → e.reqList = [])
    (hcmd : queueCmd n s now cmd = some (st, s')) : QueueEffect n s cmd st s' := by
  cases cmd with
  | createSq c prpList =>
      by_cases hok : SqChecks n s c prpList
      case pos =>
        obtain ⟨e, he⟩ := hok.cq_live
        cases hcmd.symm.trans (createSq_of_checks hok he)
        exact .createSq c prpList e hok he
      case neg =>
        obtain ⟨st', hst, heq⟩ := createSq_of_not_checks hok
        cases hcmd.symm.trans heq
        exact .refused _ _ hst
  | createCq d prpList =>
      by_cases hok : CqChecks n s d prpList
      case pos =>
        cases hcmd.symm.trans (createCq_of_checks (hcq _) hok)
        exact .createCq d prpList hok
      case neg =>
        obtain ⟨st', t, hst, heq, ht⟩ := createCq_of_not_checks (hcq _) hok
        cases hcmd.symm.trans heq
        rcases ht with rfl | ⟨hout, rfl⟩
        · exact .refused _ _ hst
        · exact .lostCq d prpList _ hst hout
  | delSq qid =>
      rcases delSq_cases hsq hnil hcmd with ⟨hst, rfl⟩ | ⟨q, hne, hle, hq, -, rfl, rfl⟩
      · exact .refused _ _ hst
      · exact .delSq qid q hne hle hq
  | delCq qid =>
      rcases delCq_cases hcq hcmd with
        ⟨hst, rfl⟩ | ⟨e, hne, -, he, -, ⟨hused, hst, rfl⟩ | ⟨hnone, rfl, rfl⟩⟩
      · exact .refused _ _ hst
      · exact .retireCq qid st e hst hne he hused
      · exact .delCq qid e hne he hnone

theorem TableInv.effect (h : TableInv n s) (hcmd : queueCmd n s now cmd = some (st, s')) :
    QueueEffect n s cmd st s' :=
  queueCmd_effect h.sqid_eq h.cqid_eq h.reqList_nil hcmd

/-- **Step**: a command in range keeps the tables. -/
theorem queueCmd_tableInv (h : TableInv n s) (hrange : NumInRange n s cmd)
    (hcmd : queueCmd n s now cmd = some (st, s')) : TableInv n s' := by
  cases h.effect hcmd with
  | refused => exact h
  | createSq c prpList e hok he =>
      exact h.attach (q := newSq c s.nextAddr) hok.cqid_le he (hok.free (hrange hok)) rfl rfl
  | createCq d prpList hok =>
      exact h.place (e := newCq d s.nextAddr) (hok.free (hrange hok)) rfl rfl rfl rfl
  | lostCq d prpList st hst hout => exact h.removeCq fun e he => h.sqList_nil he hout
  | delSq qid q hne hle hq => exact h.removeSq hq
  | retireCq qid st e hst hne he hused => exact h.retireCq he
  | delCq qid e hne he hnone =>
      exact h.removeCq fun e he' => by rwa [← Option.some.inj (he.symm.trans he')]

/-- A completion queue with submission queues attached stays the same object. -/
theorem queueCmd_keeps (h : TableInv n s) (hcmd : queueCmd n s now cmd = some (st, s'))
    {c : NvmeCQueue} (hc : s.cq j = some c) (hused : c.sqList ≠ []) :
    ∃ c', s'.cq j = some c' ∧ c'.addr = c.addr := by
  have hle : j ≤ n.numIoQueues := by
    by_contra hout
    exact hused (h.sqList_nil hc (by omega))
  cases h.effect hcmd with
  | refused => exact ⟨c, hc, rfl⟩
  | createSq d prpList e hok he => grind
  | createCq d prpList hok =>
      have hne : j ≠ d.cqid.toNat := by
        rintro rfl
        rw [hok.free hle] at hc
        cases hc
      exact ⟨c, by rw [addCq_cq, if_neg hne, hc], rfl⟩
  | lostCq d prpList st hst hout => grind
  | delSq qid q hne hle hq =>
      rw [removeSq_cq, detached, hc]
      split
      · exact ⟨_, rfl, rfl⟩
      · exact ⟨c, rfl, rfl⟩
  | retireCq qid st e hst hne he hused => grind
  | delCq qid e hne he hnone => grind

/-- **Step**: a command does what it should exactly when it is in range. -/
theorem queueCmd_ok_iff (h : TableInv n s) (hcmd : queueCmd n s now cmd = some (st, s')) :
    CommandOk n s cmd st s' ↔ InRange n s cmd := by
  have hkeeps : ∀ j c, s.cq j = some c → c.sqList ≠ [] →
      ∃ c', s'.cq j = some c' ∧ c'.addr = c.addr := fun j c => queueCmd_keeps h hcmd
  rw [CommandOk, and_iff_left hkeeps]
  cases cmd with
  | createSq c prpList =>
      by_cases hok : SqChecks n s c prpList
      case neg =>
        obtain ⟨st, hst, heq⟩ := createSq_of_not_checks hok
        grind [queueCmd, InRange]
      case pos =>
        obtain ⟨q, hq⟩ := hok.cq_live
        rw [queueCmd, createSq_of_checks hok hq] at hcmd
        cases hcmd
        obtain ⟨-, ⟨hne, -⟩, ⟨hsize, -⟩, -⟩ := id hok
        constructor
        · intro hdone _
          obtain ⟨⟨-, hle⟩, -, q', hq', hnum⟩ := hdone rfl
          rw [addSq_sq, if_pos rfl] at hq'
          cases hq'
          exact ⟨hle, (created_size hsize).mp hnum⟩
        · intro hrange _
          obtain ⟨hle, hmax⟩ := hrange hok
          exact ⟨⟨Nat.pos_of_ne_zero hne, hle⟩, hok.free hle, _, by rw [addSq_sq, if_pos rfl],
            (created_size hsize).mpr hmax⟩
  | createCq c prpList =>
      by_cases hok : CqChecks n s c prpList
      case neg =>
        obtain ⟨st, t, hst, heq, -⟩ := createCq_of_not_checks (h.cqid_eq _) hok
        grind [queueCmd, InRange]
      case pos =>
        rw [queueCmd, createCq_of_checks (h.cqid_eq _) hok] at hcmd
        cases hcmd
        obtain ⟨⟨hne, -⟩, ⟨hsize, -⟩, -⟩ := id hok
        constructor
        · intro hdone _
          obtain ⟨⟨-, hle⟩, -, q', hq', hnum⟩ := hdone rfl
          rw [addCq_cq, if_pos rfl] at hq'
          cases hq'
          exact ⟨hle, (created_size hsize).mp hnum⟩
        · intro hrange _
          obtain ⟨hle, hmax⟩ := hrange hok
          exact ⟨⟨Nat.pos_of_ne_zero hne, hle⟩, hok.free hle, _, by rw [addCq_cq, if_pos rfl],
            (created_size hsize).mpr hmax⟩
  | delSq qid => simp [Created, InRange]
  | delCq qid => simp [Created, InRange]

/-- A command of the host at a time. -/
def queueStep (n : QueueCfg) (s : QueueCtrl) (x : Nat × QueueCmd) : Option QueueCtrl :=
  (queueCmd n s x.1 x.2).map Prod.snd

/-- **Queue tables**: from a controller that has been started, commands in range keep the
tables; and there a command does what it should exactly when it is in range. -/
theorem tables_kept {s₀ : QueueCtrl} {asqs acqs : Nat} {cmds : List (Nat × QueueCmd)}
    (hstart : startCtrl .reset asqs acqs = some s₀)
    (hrun : Run (fun s x t => InRange n s x.2 ∧ queueStep n s x = some t) s₀ cmds s) :
    TableInv n s ∧ ∀ now cmd st s', queueCmd n s now cmd = some (st, s') →
      (CommandOk n s cmd st s' ↔ InRange n s cmd) := by
  have hinv : TableInv n s := by
    refine hrun.invariant (I := TableInv n) ?_ (TableInv.reset.startCtrl hstart)
    rintro s x t hs ⟨hrange, hstep⟩
    obtain ⟨⟨st, u⟩, hcmd, rfl⟩ := Option.map_eq_some_iff.mp hstep
    exact queueCmd_tableInv hs hrange.num hcmd
  exact ⟨hinv, fun now cmd st s' hcmd => queueCmd_ok_iff hinv hcmd⟩

/-- A controller with one pair of I/O queues. -/
def onePair : QueueCfg where
  numIoQueues := 1
  maxQEnts := 0x7ff
  cqr := true
  pageSize := 4096
  multipollerEnabled := false
  bbssd := true

/-- Commands for contiguous queues of `qsize + 1` entries. -/
def makeCq (cqid qsize : UInt16) : QueueCmd := .createCq ⟨0x10000, cqid, qsize, 3, 1⟩ false

def makeSq (sqid cqid qsize : UInt16) : QueueCmd := .createSq ⟨0x20000, sqid, qsize, 1, cqid⟩ false

theorem tables_kept_small :
    ∃ s₀ s, startCtrl .reset 31 31 = some s₀ ∧
      Run (fun s x t => InRange onePair s x.2 ∧ queueStep onePair s x = some t) s₀
        [(0, makeCq 1 7), (1, makeSq 1 1 3), (2, .delCq 1)] s ∧
      (s.sq 1).isSome ∧ TableInv onePair s := by
  have hends : ((startCtrl .reset 31 31).bind fun s₀ =>
      (exec (allowed (fun s x => InRange onePair s x.2) (queueStep onePair))
        [(0, makeCq 1 7), (1, makeSq 1 1 3), (2, .delCq 1)] s₀).map fun s => (s.sq 1).isSome) =
      some true := by decide +kernel
  obtain ⟨s₀, hstart, hends⟩ := Option.bind_eq_some_iff.mp hends
  obtain ⟨s, hs, hlive⟩ := Option.map_eq_some_iff.mp hends
  have hrun := run_of_exec_allowed hs
  exact ⟨s₀, s, hstart, hrun, hlive, (tables_kept hstart hrun).1⟩

/-- A submission queue is created past the end of the table. -/
theorem created_out_of_range :
    ∃ s₀ s s', startCtrl .reset 31 31 = some s₀ ∧
      Run (fun s x t => queueStep onePair s x = some t) s₀ [(0, makeCq 1 7)] s ∧
      queueCmd onePair s 1 (makeSq 2 1 3) = some (nvmeSuccess, s') ∧
      ¬ CommandOk onePair s (makeSq 2 1 3) nvmeSuccess s' := by
  have hends : ((startCtrl .reset 31 31).bind fun s₀ =>
      (exec (queueStep onePair) [(0, makeCq 1 7)] s₀).bind fun s =>
        (queueCmd onePair s 1 (makeSq 2 1 3)).map Prod.fst) = some nvmeSuccess := by decide +kernel
  obtain ⟨s₀, hstart, hends⟩ := Option.bind_eq_some_iff.mp hends
  obtain ⟨s, hs, hends⟩ := Option.bind_eq_some_iff.mp hends
  obtain ⟨⟨st, s'⟩, hcmd, rfl⟩ := Option.map_eq_some_iff.mp hends
  refine ⟨s₀, s, s', hstart, run_of_exec hs, hcmd, fun hok => ?_⟩
  obtain ⟨⟨-, hle⟩, -⟩ := hok.1 rfl
  exact absurd hle (by decide)

end Femu.Queue
