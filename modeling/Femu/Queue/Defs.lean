import Mathlib.Logic.Function.Basic
import Femu.Nvme.Defs

/-!
# Femu.Queue.Defs

Submission and completion queues of the controller, their tables, and the requests on
their way between the threads (`nvme-util.c`, `nvme_post_cqe` and `nvme_post_cqes_io` of
`nvme-io.c`, the queue commands of `nvme-admin.c`, `nvme_clear_ctrl` of `femu.c`).

A table is a function of the index the code uses, also past its last entry, since the
code does not check every index it uses. Functions return `none` where an assertion
fails or a pointer that is null or freed is followed.
-/

namespace Femu.Queue

open Nvme

/-- The value of an expression stored in a `uint16_t`. -/
def u16 (x : Nat) : Nat := x % 2 ^ 16

def nvmeInvalidCqid : Status := 0x0100
def nvmeInvalidQid : Status := 0x0101
def nvmeMaxQsizeExceeded : Status := 0x0102
def nvmeInvalidIrqVector : Status := 0x0108
def nvmeInvalidQueueDel : Status := 0x010c

/-! ## data model -/

/-- The configuration of the controller. -/
structure QueueCfg where
  numIoQueues : Nat
  maxQEnts : Nat
  cqr : Bool
  pageSize : Nat
  multipollerEnabled : Bool
  bbssd : Bool

/-- `NVME_CAP_MQES(n->bar.cap)`, a field of 16 bits. -/
def QueueCfg.mqes (n : QueueCfg) : Nat := n.maxQEnts % 2 ^ 16

/-- A `NvmeRequest` by its place: entry `idx` of the `io_req` of the submission queue at
`addr`, which has the number `sqid`. -/
structure ReqId where
  addr : Nat
  sqid : Nat
  idx : Nat
deriving DecidableEq

/-- `NvmeRequest`: what the path of a request reads. -/
structure NvmeRequest where
  cid : UInt16
  status : Status
  expireTime : Nat

/-- `NvmeSQueue`. Objects are told apart by `addr`. -/
structure NvmeSQueue where
  addr : Nat
  sqid : Nat
  cqid : Nat
  size : Nat
  head : Nat
  tail : Nat
  isActive : Bool
  reqList : List Nat
  outReqList : List Nat

/-- `NvmeCQueue`. The head is the one last published by the host: `nvme_update_cq_head`
reads it before every use. -/
structure NvmeCQueue where
  addr : Nat
  cqid : Nat
  size : Nat
  head : Nat
  tail : Nat
  phase : Bool
  irqEnabled : Bool
  vector : Nat
  isActive : Bool
  sqList : List Nat
  reqList : List ReqId

/-- An entry written to a completion queue: the queue with its size and its head at that
time, the slot, what the entry says, and the submission queue with the completion queue
it was created with. -/
structure Posted where
  cq : Nat
  size : Nat
  head : Nat
  slot : Nat
  cid : UInt16
  status : Status
  phase : Bool
  sqHead : Nat
  addr : Nat
  sqid : Nat
  cqid : Nat
deriving DecidableEq

/-- A command taken from a submission queue, with the status of `nvme_io_cmd`. -/
structure Fetched where
  addr : Nat
  cid : UInt16
  status : Status
deriving DecidableEq

/-- `NvmeCmd` as the queues see it. -/
structure SqEntry where
  opcode : UInt8
  cid : UInt16

/-- A request that no list, ring or queue holds any more, with the command it was for. -/
structure Dropped where
  addr : Nat
  idx : Nat
  cid : UInt16
deriving DecidableEq

/-- The end of a pass of `nvme_process_cq_cpl`: the completion queues that
`nvme_isr_notify_io` is called for, and for each completion of the pass the completion
queue that its submission queue was created with. -/
structure Notified where
  cqs : List Nat
  due : List Nat
deriving DecidableEq

/-- `FemuCtrl`: the queues and the requests. `sqes` is the memory of the host that the
submission queues are in, by the object and the slot. -/
structure QueueCtrl where
  sq : Nat → Option NvmeSQueue
  cq : Nat → Option NvmeCQueue
  nextAddr : Nat
  sqes : Nat → Nat → SqEntry
  req : ReqId → NvmeRequest
  toFtl : Nat → List ReqId
  toPoller : Nat → List ReqId
  pq : Nat → List ReqId
  shouldIsr : Nat → Bool
  dataplaneStarted : Bool
  /-- the object that `nvme_process_sq_io` is taking commands from, by the number of the
  queue -/
  serving : Nat → Option Nat
  /-- the completions of the running pass of a poller, as in `Notified` -/
  due : Nat → List Nat
  -- what has happened
  fetched : List Fetched
  dropped : List Dropped
  posted : List Posted
  notified : List Notified

namespace QueueCtrl

variable (s : QueueCtrl)

def setSq (i : Nat) (q : Option NvmeSQueue) : QueueCtrl :=
  { s with sq := Function.update s.sq i q }

def setCq (i : Nat) (c : Option NvmeCQueue) : QueueCtrl :=
  { s with cq := Function.update s.cq i c }

variable (i : Nat) (q : Option NvmeSQueue) (c : Option NvmeCQueue)

@[simp] theorem setSq_sq : (s.setSq i q).sq = Function.update s.sq i q := rfl

@[simp] theorem setSq_cq : (s.setSq i q).cq = s.cq := rfl

@[simp] theorem setCq_sq : (s.setCq i c).sq = s.sq := rfl

@[simp] theorem setCq_cq : (s.setCq i c).cq = Function.update s.cq i c := rfl

@[grind =] theorem setSq_cq_apply (j : Nat) : (s.setSq i q).cq j = s.cq j := rfl

@[grind =] theorem setCq_sq_apply (j : Nat) : (s.setCq i c).sq j = s.sq j := rfl

@[grind =] theorem setSq_sq_apply (j : Nat) :
    (s.setSq i q).sq j = if j = i then q else s.sq j :=
  Function.update_apply ..

@[grind =] theorem setCq_cq_apply (j : Nat) :
    (s.setCq i c).cq j = if j = i then c else s.cq j :=
  Function.update_apply ..

end QueueCtrl

/-- The tables are as before, with the same objects in the same state. What the model leaves
out of a queue, the base and the list of pages, is written when the object is made only. -/
def SameTables (s t : QueueCtrl) : Prop := t.sq = s.sq ∧ t.cq = s.cq

/-! ## nvme-util.c -/

/-- `nvme_check_sqid` returns 0. -/
def checkSqid (n : QueueCfg) (s : QueueCtrl) (sqid : Nat) : Bool :=
  sqid ≤ n.numIoQueues && (s.sq sqid).isSome

/-- `nvme_check_cqid` returns 0. -/
def checkCqid (n : QueueCfg) (s : QueueCtrl) (cqid : Nat) : Bool :=
  cqid ≤ n.numIoQueues && (s.cq cqid).isSome

@[simp] theorem checkCqid_setSq (n : QueueCfg) (s : QueueCtrl) (i j : Nat)
    (q : Option NvmeSQueue) : checkCqid n (s.setSq i q) j = checkCqid n s j := rfl

def incCqTail (c : NvmeCQueue) : NvmeCQueue :=
  if c.tail + 1 ≥ c.size then { c with tail := 0, phase := !c.phase }
  else { c with tail := c.tail + 1 }

def incSqHead (q : NvmeSQueue) : NvmeSQueue :=
  { q with head := (q.head + 1) % q.size }

@[simp] theorem incSqHead_addr (q : NvmeSQueue) : (incSqHead q).addr = q.addr := rfl

@[simp] theorem incSqHead_sqid (q : NvmeSQueue) : (incSqHead q).sqid = q.sqid := rfl

@[simp] theorem incSqHead_size (q : NvmeSQueue) : (incSqHead q).size = q.size := rfl

@[simp] theorem incSqHead_outReqList (q : NvmeSQueue) :
    (incSqHead q).outReqList = q.outReqList := rfl

def cqFull (c : NvmeCQueue) : Bool := (c.tail + 1) % c.size = c.head

def sqEmpty (q : NvmeSQueue) : Bool := q.head = q.tail

def freeSq (s : QueueCtrl) (q : NvmeSQueue) : QueueCtrl := s.setSq q.sqid none

def freeCq (s : QueueCtrl) (c : NvmeCQueue) : QueueCtrl := s.setCq c.cqid none

/-- `nvme_init_sq` of a new object. `prpList` tells whether `nvme_setup_discontig`
returns a list for a queue that is not contiguous. -/
def initSq (s : QueueCtrl) (sqid cqid size : Nat) (contig prpList : Bool) :
    Option (Status × QueueCtrl) :=
  if !contig && !prpList then
    some (nvmeInvalidField ||| nvmeDnr, s)
  else
    -- `assert(n->cq[cqid])`
    match s.cq cqid with
    | none => none
    | some c =>
        let q : NvmeSQueue := {
          addr := s.nextAddr
          sqid := sqid
          cqid := cqid
          size := size
          head := 0
          tail := 0
          isActive := false
          reqList := List.range size
          outReqList := [] }
        some (nvmeSuccess,
          { (s.setCq cqid (some { c with sqList := c.sqList ++ [sqid] })).setSq sqid (some q) with
            nextAddr := s.nextAddr + 1 })

/-- `nvme_init_cq` of a new object. -/
def initCq (s : QueueCtrl) (cqid vector size : Nat) (irqEnabled contig prpList : Bool) :
    Status × QueueCtrl :=
  if !contig && !prpList then
    (nvmeInvalidField ||| nvmeDnr, s)
  else
    let c : NvmeCQueue := {
      addr := s.nextAddr
      cqid := cqid
      size := size
      head := 0
      tail := 0
      phase := true
      irqEnabled := irqEnabled
      vector := vector
      isActive := false
      sqList := []
      reqList := [] }
    (nvmeSuccess, { s.setCq cqid (some c) with nextAddr := s.nextAddr + 1 })

/-! ## completion entries -/

/-- The submission queue of a request, if it has not been freed. -/
def ReqId.queue? (r : ReqId) (s : QueueCtrl) : Option NvmeSQueue :=
  match s.sq r.sqid with
  | some q => if q.addr = r.addr then some q else none
  | none => none

/-- `nvme_post_cqe` to the completion queue `c`. -/
def postCqe (s : QueueCtrl) (i : Nat) (r : ReqId) : Option QueueCtrl :=
  match s.cq i, r.queue? s with
  | some c, some q =>
      let e : Posted := {
        cq := i
        size := c.size
        head := c.head
        slot := c.tail
        cid := (s.req r).cid
        status := (s.req r).status
        phase := c.phase
        sqHead := q.head
        addr := r.addr
        sqid := q.sqid
        cqid := q.cqid }
      some { s.setCq i (some (incCqTail c)) with posted := s.posted ++ [e] }
  | _, _ => none

/-- The loop of `nvme_post_cqes_io` over `cq->req_list`. -/
def postCqesLoop (now i : Nat) : List ReqId → QueueCtrl → Option QueueCtrl
  | [], s => some s
  | r :: rs, s =>
      match s.cq i with
      | none => none
      | some c =>
          if cqFull c then some s
          else if c.cqid ≠ 0 ∧ now < (s.req r).expireTime then some s
          else (postCqe s i r).bind (postCqesLoop now i rs)

def postCqesIo (s : QueueCtrl) (now i : Nat) : Option QueueCtrl :=
  match s.cq i with
  | none => none
  | some c => postCqesLoop now i c.reqList s

/-! ## queue commands -/

structure NvmeCreateSq where
  prp1 : Nat
  sqid : UInt16
  qsize : UInt16
  sqFlags : UInt16
  cqid : UInt16

structure NvmeCreateCq where
  prp1 : Nat
  cqid : UInt16
  qsize : UInt16
  cqFlags : UInt16
  irqVector : UInt16

/-- The lowest bit of the flags: the queue is physically contiguous. -/
def flagsPc (flags : UInt16) : Bool := flags.toNat % 2 = 1

def createSq (n : QueueCfg) (s : QueueCtrl) (c : NvmeCreateSq) (prpList : Bool) :
    Option (Status × QueueCtrl) :=
  let cqid := c.cqid.toNat
  let sqid := c.sqid.toNat
  if cqid = 0 ∨ ¬ checkCqid n s cqid then
    some (nvmeInvalidCqid ||| nvmeDnr, s)
  else if sqid = 0 ∨ sqid ≠ 0 ∧ checkSqid n s sqid then
    some (nvmeInvalidQid ||| nvmeDnr, s)
  else if c.qsize = 0 ∨ c.qsize.toNat > n.mqes then
    some (nvmeMaxQsizeExceeded ||| nvmeDnr, s)
  else if c.prp1 = 0 ∨ c.prp1 &&& (n.pageSize - 1) ≠ 0 then
    some (nvmeInvalidField ||| nvmeDnr, s)
  else if ¬ flagsPc c.sqFlags ∧ n.cqr then
    some (nvmeInvalidField ||| nvmeDnr, s)
  else do
    let (status, s') ← initSq s sqid cqid (u16 (c.qsize.toNat + 1)) (flagsPc c.sqFlags) prpList
    if status ≠ nvmeSuccess then
      pure (nvmeInvalidField ||| nvmeDnr, s)
    else
      pure (nvmeSuccess, s'.setSq sqid ((s'.sq sqid).map fun q => { q with isActive := true }))

def createCq (n : QueueCfg) (s : QueueCtrl) (c : NvmeCreateCq) (prpList : Bool) :
    Option (Status × QueueCtrl) :=
  let cqid := c.cqid.toNat
  if cqid = 0 ∨ cqid ≠ 0 ∧ checkCqid n s cqid then
    some (nvmeInvalidCqid ||| nvmeDnr, s)
  else if c.qsize = 0 ∨ c.qsize.toNat > n.mqes then
    some (nvmeMaxQsizeExceeded ||| nvmeDnr, s)
  else if c.prp1 = 0 then
    some (nvmeInvalidField ||| nvmeDnr, s)
  else if c.irqVector.toNat > n.numIoQueues then
    some (nvmeInvalidIrqVector ||| nvmeDnr, s)
  else if ¬ flagsPc c.cqFlags ∧ n.cqr then
    some (nvmeInvalidField ||| nvmeDnr, s)
  else
    -- `if (n->cq[cqid] != NULL)`
    let s := match s.cq cqid with
      | some old => freeCq s old
      | none => s
    let (status, s') := initCq s cqid c.irqVector.toNat (u16 (c.qsize.toNat + 1))
      (c.cqFlags.toNat / 2 % 2 = 1) (flagsPc c.cqFlags) prpList
    if status ≠ nvmeSuccess then
      some (nvmeInvalidField ||| nvmeDnr, s)
    else
      some (nvmeSuccess, s'.setCq cqid ((s'.cq cqid).map fun c => { c with isActive := true }))

/-- The requests of a submission queue that are in `cq->req_list` go back to it. -/
def takeBack (q : NvmeSQueue) (c : NvmeCQueue) : NvmeSQueue × NvmeCQueue :=
  ({ q with reqList := q.reqList ++ (c.reqList.filter (·.addr = q.addr)).map ReqId.idx },
    { c with reqList := c.reqList.filter (·.addr ≠ q.addr) })

/-- Take a submission queue out of its completion queue. -/
def detachSq (s : QueueCtrl) (now : Nat) (q : NvmeSQueue) (c : NvmeCQueue) : Option QueueCtrl := do
  let s ← postCqesIo (s.setCq q.cqid (some { c with sqList := c.sqList.erase q.sqid })) now q.cqid
  match s.sq q.sqid, s.cq q.cqid with
  | some q, some c =>
      let (q', c') := takeBack q c
      pure ((s.setSq q.sqid (some q')).setCq q.cqid (some c'))
  | _, _ => none

def delSq (n : QueueCfg) (s : QueueCtrl) (now : Nat) (qid : UInt16) : Option (Status × QueueCtrl) :=
  if qid = 0 ∨ ¬ checkSqid n s qid.toNat then
    some (nvmeInvalidQid ||| nvmeDnr, s)
  else
    match s.sq qid.toNat with
    | none => none
    | some q =>
        -- `assert(sq->is_active == true)`
        if q.isActive then do
          let q := { q with isActive := false }
          let s := s.setSq qid.toNat (some q)
          let s ← match s.cq q.cqid with
            | some c => if checkCqid n s q.cqid then detachSq s now q c else some s
            | none => some s
          pure (nvmeSuccess, freeSq s q)
        else none

def delCq (n : QueueCfg) (s : QueueCtrl) (qid : UInt16) : Option (Status × QueueCtrl) :=
  if qid = 0 ∨ ¬ checkCqid n s qid.toNat then
    some (nvmeInvalidCqid ||| nvmeDnr, s)
  else
    match s.cq qid.toNat with
    | none => none
    | some c =>
        -- `assert(cq->is_active == true)`
        if c.isActive then
          let c := { c with isActive := false }
          let s := s.setCq qid.toNat (some c)
          if c.sqList ≠ [] then some (nvmeInvalidQueueDel, s)
          else some (nvmeSuccess, freeCq s c)
        else none

/-! ## starting and disabling the controller -/

/-- The controller before it is started. -/
def QueueCtrl.reset : QueueCtrl where
  sq _ := none
  cq _ := none
  nextAddr := 0
  sqes _ _ := ⟨0, 0⟩
  req _ := ⟨0, nvmeSuccess, 0⟩
  toFtl _ := []
  toPoller _ := []
  pq _ := []
  shouldIsr _ := false
  dataplaneStarted := false
  serving _ := none
  due _ := []
  fetched := []
  dropped := []
  posted := []
  notified := []

/-- `nvme_start_ctrl`: the admin queues are made, with the sizes of `n->bar.aqa`. -/
def startCtrl (s : QueueCtrl) (asqs acqs : Nat) : Option QueueCtrl :=
  if (s.cq 0).isSome ∨ (s.sq 0).isSome ∨ asqs = 0 ∨ asqs > 4095 ∨ acqs = 0 ∨ acqs > 4095 then
    some s
  else
    let s := (initCq s 0 0 (acqs + 1) true true true).2
    (initSq s 0 0 (asqs + 1) true true).map Prod.snd

/-- `nvme_clear_ctrl`: the queues are freed and the rings are left as they are. -/
def clearCtrl (n : QueueCfg) (s : QueueCtrl) : QueueCtrl :=
  { s with
    dataplaneStarted := false
    sq := fun i => if i ≤ n.numIoQueues then none else s.sq i
    cq := fun i => if i ≤ n.numIoQueues then none else s.cq i }

end Femu.Queue
