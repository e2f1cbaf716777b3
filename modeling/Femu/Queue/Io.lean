import Femu.Queue.Table

/-!
# Femu.Queue.Io

The controller with its host as a system of steps: the admin commands and the writes of the
host, one turn of the loop of `nvme_process_sq_io`, of `ftl_thread` and of each loop of
`nvme_process_cq_cpl`. A run is any order of these steps.

A step that follows a pointer to a freed object, or fails an assertion, is no step.
-/

namespace Femu.Queue

open Nvme Lib

/-! ## rings -/

/-- The entries a ring made with `FEMU_MAX_INF_REQS` holds. -/
def ringCapacity : Nat := 65535

def hasRoom (ring : List ReqId) : Bool := ring.length < ringCapacity

/-- The poller that serves a submission queue. -/
def QueueCfg.poller (n : QueueCfg) (sqid : Nat) : Nat := if n.multipollerEnabled then sqid else 1

def dropReq (s : QueueCtrl) (r : ReqId) : QueueCtrl :=
  { s with dropped := s.dropped ++ [⟨r.addr, r.idx, (s.req r).cid⟩] }

def pushFtl (s : QueueCtrl) (p : Nat) (r : ReqId) : QueueCtrl :=
  { s with toFtl := Function.update s.toFtl p (s.toFtl p ++ [r]) }

def pushPoller (s : QueueCtrl) (p : Nat) (r : ReqId) : QueueCtrl :=
  { s with toPoller := Function.update s.toPoller p (s.toPoller p ++ [r]) }

/-- The `femu_ring_enqueue` to `to_ftl`; a request that does not fit is left to itself. -/
def enqueueFtl (s : QueueCtrl) (p : Nat) (r : ReqId) : QueueCtrl :=
  if hasRoom (s.toFtl p) then pushFtl s p r else dropReq s r

/-- The `femu_ring_enqueue` to `to_poller`. -/
def enqueuePoller (s : QueueCtrl) (p : Nat) (r : ReqId) : QueueCtrl :=
  if hasRoom (s.toPoller p) then pushPoller s p r else dropReq s r

@[simp] theorem enqueueFtl_sq (s : QueueCtrl) (p : Nat) (r : ReqId) :
    (enqueueFtl s p r).sq = s.sq := by
  unfold enqueueFtl
  split <;> rfl

@[simp] theorem enqueuePoller_sq (s : QueueCtrl) (p : Nat) (r : ReqId) :
    (enqueuePoller s p r).sq = s.sq := by
  unfold enqueuePoller
  split <;> rfl

@[simp] theorem enqueueFtl_cq (s : QueueCtrl) (p : Nat) (r : ReqId) :
    (enqueueFtl s p r).cq = s.cq := by
  unfold enqueueFtl
  split <;> rfl

@[simp] theorem enqueuePoller_cq (s : QueueCtrl) (p : Nat) (r : ReqId) :
    (enqueuePoller s p r).cq = s.cq := by
  unfold enqueuePoller
  split <;> rfl

@[simp] theorem enqueueFtl_posted (s : QueueCtrl) (p : Nat) (r : ReqId) :
    (enqueueFtl s p r).posted = s.posted := by
  unfold enqueueFtl
  split <;> rfl

@[simp] theorem enqueuePoller_posted (s : QueueCtrl) (p : Nat) (r : ReqId) :
    (enqueuePoller s p r).posted = s.posted := by
  unfold enqueuePoller
  split <;> rfl

/-! ## nvme_process_sq_io -/

/-- `nvme_poller` finds queue `i` and its completion queue active and calls
`nvme_process_sq_io`. -/
def enterSq (n : QueueCfg) (s : QueueCtrl) (i : Nat) : Option QueueCtrl :=
  match s.sq i, s.cq i with
  | some q, some c =>
      if s.dataplaneStarted ∧ (1 ≤ i ∧ i ≤ n.numIoQueues) ∧ s.serving i = none ∧
          q.isActive ∧ c.isActive then
        some { s with serving := Function.update s.serving i (some q.addr) }
      else none
  | _, _ => none

/-- The loop of `nvme_process_sq_io` ends. -/
def leaveSq (s : QueueCtrl) (i : Nat) : Option QueueCtrl :=
  match s.sq i with
  | none => none
  | some q =>
      if s.serving i = some q.addr ∧ sqEmpty q then
        some { s with serving := Function.update s.serving i none }
      else none

/-- The command at the head of `q` is taken with the request `idx`, whose status is set only
where `nvme_io_cmd` returns success. -/
def takeReq (s : QueueCtrl) (i now : Nat) (status : Status) (q : NvmeSQueue) (idx : Nat)
    (rest : List Nat) : QueueCtrl :=
  let cmd := s.sqes q.addr q.head
  let r : ReqId := ⟨q.addr, q.sqid, idx⟩
  let req : NvmeRequest := {
    cid := cmd.cid
    status := if status = nvmeSuccess then status else (s.req r).status
    expireTime := now }
  { s with
    sq := Function.update s.sq i (some { incSqHead q with reqList := rest })
    req := Function.update s.req r req
    fetched := s.fetched ++ [⟨q.addr, cmd.cid, status⟩] }

/-- A turn of the loop of `nvme_process_sq_io`, with the status of `nvme_io_cmd`. -/
def processSqIo (n : QueueCfg) (s : QueueCtrl) (i now : Nat) (status : Status) :
    Option QueueCtrl :=
  match s.sq i with
  | none => none
  | some q =>
      if s.serving i = some q.addr ∧ ¬ sqEmpty q ∧ q.size ≠ 0 then
        match q.reqList with
        | [] => none
        | idx :: rest =>
            let r : ReqId := ⟨q.addr, q.sqid, idx⟩
            let s := takeReq s i now status q idx rest
            if status = nvmeSuccess then some (enqueueFtl s (n.poller i) r)
            -- "Error IO processed!"
            else some (dropReq s r)
      else none

/-! ## ftl_thread -/

/-- A turn of the loop of `ftl_thread` that takes a request; `lat` is the latency of the
command. -/
def ftlThread (n : QueueCfg) (s : QueueCtrl) (p lat : Nat) : Option QueueCtrl :=
  match s.toFtl p with
  | [] => none
  | r :: rest =>
      if n.bbssd ∧ r.queue? s ≠ none then
        let req := { s.req r with expireTime := (s.req r).expireTime + lat }
        some (enqueuePoller
          { s with
            toFtl := Function.update s.toFtl p rest
            req := Function.update s.req r req } p r)
      else none

/-! ## nvme_process_cq_cpl -/

/-- A turn of the first loop of `nvme_process_cq_cpl`, over `to_poller` with the FTL and
`to_ftl` without it. -/
def collectCpl (n : QueueCfg) (s : QueueCtrl) (p : Nat) : Option QueueCtrl :=
  match if n.bbssd then s.toPoller p else s.toFtl p with
  | [] => none
  | r :: rest =>
      if r.queue? s = none then none
      else
        some { s with
          toPoller := if n.bbssd then Function.update s.toPoller p rest else s.toPoller
          toFtl := if n.bbssd then s.toFtl else Function.update s.toFtl p rest
          pq := Function.update s.pq p (s.pq p ++ [r]) }

/-- `pqueue_peek` gives `r`. -/
def isPeek (s : QueueCtrl) (p : Nat) (r : ReqId) : Bool :=
  r ∈ s.pq p ∧ ∀ r' ∈ s.pq p, (s.req r).expireTime ≤ (s.req r').expireTime

/-- A turn of the second loop of `nvme_process_cq_cpl` that posts the completion of `r`.
While `n->cq[req->sq->sqid]` is not active the loop goes round. -/
def postCpl (s : QueueCtrl) (p : Nat) (r : ReqId) (now : Nat) : Option QueueCtrl :=
  if isPeek s p r ∧ (s.req r).expireTime ≤ now then
    match r.queue? s with
    | none => none
    | some q =>
        match s.cq q.sqid with
        | none => none
        | some c =>
            if c.isActive then
              (postCqe s q.sqid r).map fun s => { s with
                sq := Function.update s.sq r.sqid (some { q with reqList := q.reqList ++ [r.idx] })
                pq := Function.update s.pq p ((s.pq p).erase r)
                shouldIsr := Function.update s.shouldIsr q.sqid true
                due := Function.update s.due p (s.due p ++ [q.cqid]) }
            else none
  else none

/-- The completion queues that the end of a pass notifies. -/
def toNotify (n : QueueCfg) (s : QueueCtrl) (p : Nat) : List Nat :=
  if n.multipollerEnabled then [p] else (List.range' 1 n.numIoQueues).filter (s.shouldIsr ·)

/-- The end of a pass of `nvme_process_cq_cpl` that posted something. -/
def notifyIo (n : QueueCfg) (s : QueueCtrl) (p : Nat) : Option QueueCtrl :=
  if s.due p = [] ∨ (toNotify n s p).any (fun j => (s.cq j).isNone) then none
  else
    some { s with
      shouldIsr := if n.multipollerEnabled then s.shouldIsr
        else fun j => s.shouldIsr j && !(1 ≤ j && j ≤ n.numIoQueues)
      due := Function.update s.due p []
      notified := s.notified ++ [⟨toNotify n s p, s.due p⟩] }

/-! ## nvme_process_sq_admin -/

/-- The loop of `nvme_abort_req` from `index` on: the slot of the first command with the
id, if there is one before the tail. After `size` turns the loop never ends. -/
def abortSearch (s : QueueCtrl) (q : NvmeSQueue) (cid : UInt16) :
    (fuel index : Nat) → Option (Option Nat)
  | 0, _ => none
  | fuel + 1, index =>
      let slot := (q.head + index) % q.size
      if slot = q.tail then some none
      else if (s.sqes q.addr slot).cid = cid then some (some slot)
      else abortSearch s q cid fuel (index + 1)

/-- The opcode that `nvme_abort_req` writes over the one of the command. -/
def nvmeOpAborted : UInt8 := 0xff

/-- The request `idx` of `q` is set aside for the command in `slot`. -/
def setAsideReq (s : QueueCtrl) (sqid : Nat) (cid : UInt16) (q : NvmeSQueue) (slot idx : Nat)
    (rest : List Nat) : QueueCtrl :=
  let r : ReqId := ⟨q.addr, q.sqid, idx⟩
  let req := { s.req r with cid := cid, status := nvmeCmdAbortReq }
  let sqe := { s.sqes q.addr slot with opcode := nvmeOpAborted }
  { s with
    sq := Function.update s.sq sqid
      (some { q with reqList := rest, outReqList := q.outReqList ++ [idx] })
    req := Function.update s.req r req
    sqes := Function.update s.sqes q.addr (Function.update (s.sqes q.addr) slot sqe) }

def abortReq (n : QueueCfg) (s : QueueCtrl) (sqid cid : UInt16) : Option (Status × QueueCtrl) :=
  if ¬ checkSqid n s sqid.toNat then some (nvmeSuccess, s)
  else
    match s.sq sqid.toNat with
    | none => none
    | some q =>
        match abortSearch s q cid q.size 0 with
        | none => none
        | some none => some (nvmeSuccess, s)
        | some (some slot) =>
            match q.reqList with
            | [] => none
            | idx :: rest =>
                some (nvmeSuccess, setAsideReq s sqid.toNat cid q slot idx rest)

/-- An admin command; `other` is one that does nothing with the queues. -/
inductive AdminCmd
  | queue (cmd : QueueCmd)
  | abort (sqid cid : UInt16)
  | setDbMemory (valid : Bool)
  | other (status : Status)

/-- `nvme_set_db_memory`: the pollers start, unless they run already. -/
def setDbMemory (s : QueueCtrl) (valid : Bool) : Option (Status × QueueCtrl) :=
  if !valid then some (nvmeInvalidField ||| nvmeDnr, s)
  else if s.dataplaneStarted then none
  else some (nvmeSuccess, { s with dataplaneStarted := true })

def adminCmd (n : QueueCfg) (s : QueueCtrl) (now : Nat) : AdminCmd → Option (Status × QueueCtrl)
  | .queue cmd => queueCmd n s now cmd
  | .abort sqid cid => abortReq n s sqid cid
  | .setDbMemory valid => setDbMemory s valid
  | .other status => some (status, s)

/-- The completion entry of an admin command goes to `cq`, full or not. -/
def postAdmin (s : QueueCtrl) (q : NvmeSQueue) (cid : UInt16) (status : Status) :
    Option QueueCtrl :=
  match s.cq q.cqid with
  | none => none
  | some c =>
      let e : Posted := {
        cq := q.cqid
        size := c.size
        head := c.head
        slot := c.tail
        cid := cid
        status := status
        phase := c.phase
        sqHead := q.head
        addr := q.addr
        sqid := q.sqid
        cqid := q.cqid }
      some { s.setCq q.cqid (some (incCqTail c)) with posted := s.posted ++ [e] }

/-- A turn of the loop of `nvme_process_sq_admin`. -/
def processSqAdmin (n : QueueCfg) (s : QueueCtrl) (cmd : AdminCmd) (now : Nat) :
    Option QueueCtrl :=
  match s.sq 0 with
  | none => none
  | some q =>
      if ¬ sqEmpty q ∧ q.size ≠ 0 then do
        let q' := incSqHead q
        let (status, s') ← adminCmd n (s.setSq 0 (some q')) now cmd
        postAdmin s' q' (s.sqes q.addr q.head).cid status
      else none

/-! ## the system -/

inductive Act
  /-- the host writes a command into the memory of a submission queue -/
  | hostSqe (addr slot : Nat) (e : SqEntry)
  /-- the host moves the tail of a submission queue -/
  | hostTail (sqid tail : Nat)
  /-- the host moves the head of a completion queue -/
  | hostHead (cqid head : Nat)
  | enable (asqs acqs : Nat)
  | disable
  | admin (cmd : AdminCmd) (now : Nat)
  | enter (i : Nat)
  | fetch (i now : Nat) (status : Status)
  | leave (i : Nat)
  | ftl (p lat : Nat)
  | collect (p : Nat)
  | complete (p : Nat) (r : ReqId) (now : Nat)
  | notify (p : Nat)

def step? (n : QueueCfg) (s : QueueCtrl) : Act → Option QueueCtrl
  | .hostSqe addr slot e =>
      some { s with
        sqes := Function.update s.sqes addr (Function.update (s.sqes addr) slot e) }
  | .hostTail sqid tail => (s.sq sqid).map fun q => s.setSq sqid (some { q with tail := tail })
  | .hostHead cqid head => (s.cq cqid).map fun c => s.setCq cqid (some { c with head := head })
  | .enable asqs acqs => startCtrl s asqs acqs
  | .disable => some (clearCtrl n s)
  | .admin cmd now => processSqAdmin n s cmd now
  | .enter i => enterSq n s i
  | .fetch i now status => processSqIo n s i now status
  | .leave i => leaveSq s i
  | .ftl p lat => ftlThread n s p lat
  | .collect p => collectCpl n s p
  | .complete p r now => postCpl s p r now
  | .notify p => notifyIo n s p

/-! ## what the steps do -/

section cases

variable {n : QueueCfg} {s t : QueueCtrl} {i p now lat : Nat} {q : NvmeSQueue} {r : ReqId}
  {status st : Status} {cmd : AdminCmd} {sqid cid : UInt16}

theorem ReqId.queue?_eq_some : r.queue? s = some q ↔ s.sq r.sqid = some q ∧ q.addr = r.addr := by
  unfold ReqId.queue?
  split
  case h_1 q' hq' => grind
  case h_2 hnone => simp [hnone]

theorem enterSq_cases (h : enterSq n s i = some t) :
    ∃ q c, s.sq i = some q ∧ s.cq i = some c ∧ (1 ≤ i ∧ i ≤ n.numIoQueues) ∧
      t = { s with serving := Function.update s.serving i (some q.addr) } := by
  unfold enterSq at h
  split at h
  case h_2 => cases h
  case h_1 q c hq hc =>
    split at h
    case isFalse => cases h
    case isTrue hok =>
      cases h
      exact ⟨q, c, hq, hc, hok.2.1, rfl⟩

theorem leaveSq_cases (h : leaveSq s i = some t) :
    t = { s with serving := Function.update s.serving i none } := by
  unfold leaveSq at h
  split at h
  case h_1 => cases h
  case h_2 q hq =>
    split at h
    case isFalse => cases h
    case isTrue => exact (Option.some.inj h).symm

theorem processSqIo_cases (h : processSqIo n s i now status = some t) :
    ∃ q idx rest, s.sq i = some q ∧ s.serving i = some q.addr ∧ (q.head ≠ q.tail ∧ q.size ≠ 0) ∧
      q.reqList = idx :: rest ∧
      t = if status = nvmeSuccess then
            enqueueFtl (takeReq s i now status q idx rest) (n.poller i) ⟨q.addr, q.sqid, idx⟩
          else dropReq (takeReq s i now status q idx rest) ⟨q.addr, q.sqid, idx⟩ := by
  unfold processSqIo at h
  split at h
  case h_1 => cases h
  case h_2 q hq =>
    split at h
    case isFalse => cases h
    case isTrue hok =>
      obtain ⟨hserving, hne, hsize⟩ := hok
      split at h
      case h_1 => cases h
      case h_2 idx rest hlist =>
        refine ⟨q, idx, rest, hq, hserving, ⟨by simpa [sqEmpty] using hne, hsize⟩, hlist, ?_⟩
        split at h <;> simp_all

theorem ftlThread_cases (h : ftlThread n s p lat = some t) :
    ∃ r rest q, s.toFtl p = r :: rest ∧ n.bbssd ∧ s.sq r.sqid = some q ∧ q.addr = r.addr ∧
      t = enqueuePoller
        { s with
          toFtl := Function.update s.toFtl p rest
          req := Function.update s.req r
            { s.req r with expireTime := (s.req r).expireTime + lat } } p r := by
  unfold ftlThread at h
  split at h
  case h_1 => cases h
  case h_2 r rest hring =>
    split at h
    case isFalse => cases h
    case isTrue hok =>
      obtain ⟨hbb, hlive⟩ := hok
      obtain ⟨q, hlive⟩ := Option.ne_none_iff_exists'.mp hlive
      obtain ⟨hq, haddr⟩ := ReqId.queue?_eq_some.mp hlive
      exact ⟨r, rest, q, hring, hbb, hq, haddr, (Option.some.inj h).symm⟩

theorem collectCpl_cases (h : collectCpl n s p = some t) :
    ∃ r rest, (if n.bbssd then s.toPoller p else s.toFtl p) = r :: rest ∧
      t = { s with
        toPoller := if n.bbssd then Function.update s.toPoller p rest else s.toPoller
        toFtl := if n.bbssd then s.toFtl else Function.update s.toFtl p rest
        pq := Function.update s.pq p (s.pq p ++ [r]) } := by
  unfold collectCpl at h
  split at h
  case h_1 => cases h
  case h_2 r rest hring =>
    split at h
    case isTrue => cases h
    case isFalse => exact ⟨r, rest, hring, (Option.some.inj h).symm⟩

/-- The completion goes to the completion queue with the number of the submission queue. -/
theorem postCpl_cases (h : postCpl s p r now = some t) :
    ∃ q c e, s.sq r.sqid = some q ∧ q.addr = r.addr ∧ r ∈ s.pq p ∧ s.cq q.sqid = some c ∧
      c.isActive ∧
      e = Posted.mk q.sqid c.size c.head c.tail (s.req r).cid (s.req r).status c.phase q.head r.addr
        q.sqid q.cqid ∧
      t = { s with
        sq := Function.update s.sq r.sqid (some { q with reqList := q.reqList ++ [r.idx] })
        cq := Function.update s.cq q.sqid (some (incCqTail c))
        pq := Function.update s.pq p ((s.pq p).erase r)
        shouldIsr := Function.update s.shouldIsr q.sqid true
        due := Function.update s.due p (s.due p ++ [q.cqid])
        posted := s.posted ++ [e] } := by
  unfold postCpl at h
  split at h
  case isFalse => cases h
  case isTrue hpeek =>
    simp only [isPeek, decide_eq_true_eq] at hpeek
    obtain ⟨⟨hmem, -⟩, -⟩ := hpeek
    split at h
    case h_1 => cases h
    case h_2 q hlive =>
      obtain ⟨hq, haddr⟩ := ReqId.queue?_eq_some.mp hlive
      split at h
      case h_1 => cases h
      case h_2 c hc =>
        split at h
        case isFalse => cases h
        case isTrue hact =>
          refine ⟨q, c, _, hq, haddr, hmem, hc, hact, rfl, ?_⟩
          simpa [postCqe, hc, hlive, QueueCtrl.setCq, eq_comm] using h

theorem notifyIo_cases (h : notifyIo n s p = some t) :
    s.due p ≠ [] ∧
      t = { s with
        shouldIsr := if n.multipollerEnabled then s.shouldIsr
          else fun j => s.shouldIsr j && !(1 ≤ j && j ≤ n.numIoQueues)
        due := Function.update s.due p []
        notified := s.notified ++ [⟨toNotify n s p, s.due p⟩] } := by
  unfold notifyIo at h
  split at h
  case isTrue => cases h
  case isFalse hok => exact ⟨fun hdue => hok (.inl hdue), (Option.some.inj h).symm⟩

/-- `nvme_abort_req` finds the command in the submission queue. -/
def abortFinds (n : QueueCfg) (s : QueueCtrl) (sqid cid : UInt16) : Bool :=
  checkSqid n s sqid.toNat &&
    match s.sq sqid.toNat with
    | none => false
    | some q =>
        match abortSearch s q cid q.size 0 with
        | some (some _) => true
        | _ => false

theorem setAsideReq_sq {j k slot idx : Nat} {rest : List Nat} :
    (setAsideReq s k cid q slot idx rest).sq j =
      if j = k then some { q with reqList := rest, outReqList := q.outReqList ++ [idx] }
      else s.sq j :=
  Function.update_apply ..

theorem abortSearch_congr (hsqes : t.sqes = s.sqes) (fuel index : Nat) :
    abortSearch t q cid fuel index = abortSearch s q cid fuel index := by
  induction fuel generalizing index with
  | zero => rfl
  | succ fuel ih => simp only [abortSearch, hsqes, ih]

theorem abortFinds_congr (hsqes : t.sqes = s.sqes) (hsq : t.sq sqid.toNat = s.sq sqid.toNat) :
    abortFinds n t sqid cid = abortFinds n s sqid cid := by
  simp only [abortFinds, checkSqid, hsq, abortSearch_congr hsqes]

theorem abortReq_cases (h : abortReq n s sqid cid = some (st, t)) :
    (¬ abortFinds n s sqid cid ∧ t = s) ∨
      abortFinds n s sqid cid ∧ ∃ q slot idx rest, s.sq sqid.toNat = some q ∧ q.reqList = idx :: rest ∧
        t = setAsideReq s sqid.toNat cid q slot idx rest := by
  unfold abortReq at h
  unfold abortFinds
  split at h
  case isTrue hcheck =>
    cases h
    exact .inl ⟨by simp [hcheck], rfl⟩
  case isFalse hcheck =>
    split at h
    case h_1 => cases h
    case h_2 q hq =>
      split at h
      case h_1 => cases h
      case h_2 hsearch =>
        cases h
        exact .inl ⟨by simp [hsearch], rfl⟩
      case h_3 slot hsearch =>
        split at h
        case h_1 => cases h
        case h_2 idx rest hlist =>
          cases h
          exact .inr ⟨by simpa [hq, hsearch] using hcheck, q, slot, idx, rest, hq, hlist, rfl⟩

theorem setDbMemory_cases {valid : Bool} (h : setDbMemory s valid = some (st, t)) :
    t = s ∨ t = { s with dataplaneStarted := true } := by
  unfold setDbMemory at h
  grind

theorem processSqAdmin_cases (h : processSqAdmin n s cmd now = some t) :
    ∃ q st u c e, s.sq 0 = some q ∧ (q.head ≠ q.tail ∧ q.size ≠ 0) ∧
      adminCmd n (s.setSq 0 (some (incSqHead q))) now cmd = some (st, u) ∧
      u.cq q.cqid = some c ∧
      e = Posted.mk q.cqid c.size c.head c.tail (s.sqes q.addr q.head).cid st c.phase
        ((q.head + 1) % q.size) q.addr q.sqid q.cqid ∧
      t = { u.setCq q.cqid (some (incCqTail c)) with posted := u.posted ++ [e] } := by
  unfold processSqAdmin at h
  split at h
  case h_1 => cases h
  case h_2 q hq =>
    split at h
    case isFalse => cases h
    case isTrue hok =>
      obtain ⟨⟨st, u⟩, hcmd, hpost⟩ := Option.bind_eq_some_iff.mp h
      unfold postAdmin at hpost
      dsimp only at hpost
      split at hpost
      case h_1 => cases hpost
      case h_2 c hc =>
        exact ⟨q, st, u, c, _, hq, ⟨by simpa [sqEmpty] using hok.1, hok.2⟩, hcmd, hc, rfl,
          (Option.some.inj hpost).symm⟩

end cases

end Femu.Queue
