import Mathlib.Data.Finset.Lattice.Fold
import Mathlib.Data.Finset.Max
import Femu.Lib.Loop
import Femu.Queue.Lifetime
import Femu.Queue.Routing

/-!
# Femu.Queue.Pass

A pass of `nvme_process_cq_cpl` as a whole: its two loops and the notification at its end.
The second loop takes the completion queue by the number of the submission queue,
`n->cq[req->sq->sqid]`. Where that queue is not active a turn does nothing, so that the next
one finds the same request; and `nvme_del_cq` clears `is_active` also where it refuses to
delete the queue.
-/

namespace Femu.Queue

open Nvme Lib

variable {n : QueueCfg} {s t : QueueCtrl} {i j p now fuel : Nat} {r r' : ReqId} {a : Act}

/-! ## the pass -/

/-- `pqueue_peek`. Which request it gives, where several expire first, is left open. -/
structure Peek where
  first : QueueCtrl → Nat → Option ReqId
  pq_nil : ∀ s p, first s p = none → s.pq p = []
  isPeek : ∀ s p r, first s p = some r → isPeek s p r

/-- The ring that a pass collects from. -/
def cplRing (n : QueueCfg) (s : QueueCtrl) (p : Nat) : List ReqId :=
  if n.bbssd then s.toPoller p else s.toFtl p

/-- The first loop. -/
def collectLoop (n : QueueCfg) (p fuel : Nat) (s : QueueCtrl) : Option QueueCtrl :=
  (whileLoop (fun s => !(cplRing n s p).isEmpty) (fun _ s => collectCpl n s p) fuel 0 s).map
    Prod.snd

/-- The second loop on its way; `left` after the `break`. -/
structure CplLoop where
  left : Bool
  ctrl : QueueCtrl

/-- A turn of the second loop with the request `r`. -/
def cplTurn (s : QueueCtrl) (p : Nat) (r : ReqId) (now : Nat) : Option CplLoop :=
  match r.queue? s with
  | none => none
  | some q =>
      if now < (s.req r).expireTime then some ⟨true, s⟩
      else
        match s.cq q.sqid with
        | none => none
        | some c =>
            -- `continue`
            if !c.isActive then some ⟨false, s⟩
            else (postCpl s p r now).map (CplLoop.mk false)

/-- The second loop; `clock` is what the clock says in each turn. -/
def cplLoop (pk : Peek) (clock : Nat → Nat) (p fuel : Nat) (s : QueueCtrl) : Option QueueCtrl :=
  (whileLoop (fun x => !x.left && (pk.first x.ctrl p).isSome)
    (fun i x => (pk.first x.ctrl p).bind fun r => cplTurn x.ctrl p r (clock i)) fuel 0
    ⟨false, s⟩).map fun y => y.2.ctrl

/-- `nvme_process_cq_cpl`, with at most `fuel` turns of each loop. -/
def processCqCpl (n : QueueCfg) (pk : Peek) (clock : Nat → Nat) (fuel p : Nat) (s : QueueCtrl) :
    Option QueueCtrl := do
  let s ← collectLoop n p fuel s
  let s ← cplLoop pk clock p fuel s
  -- `if (processed == 0) return;`
  if s.due p = [] then pure s else notifyIo n s p

/-- The completion loop of the poller `p` ends: each turn takes its request out of the
priority queue or leaves the loop, and a pass returns whatever the clock says. -/
structure PassEnds (n : QueueCfg) (s : QueueCtrl) (p : Nat) : Prop where
  turns : ∀ r now, isPeek s p r →
    ∃ x, cplTurn s p r now = some x ∧ (x.left ∨ x.ctrl.pq p = (s.pq p).erase r)
  ends : ∀ pk clock, ∃ fuel t, processCqCpl n pk clock fuel p s = some t

/-! ## what a pass needs -/

/-- `n->cq[j]->is_active`, if there is a queue. -/
def cqFlag (s : QueueCtrl) (j : Nat) : Option Bool := (s.cq j).map NvmeCQueue.isActive

/-- The completion of `r` can be posted. -/
structure Served (s : QueueCtrl) (r : ReqId) : Prop where
  live : Holds s r.sqid r.addr
  active : cqFlag s r.sqid = some true

/-- The completion queues to notify at the end of the pass are there. -/
def CanNotify (n : QueueCfg) (s : QueueCtrl) (p : Nat) : Prop :=
  s.due p ≠ [] → ∀ j ∈ toNotify n s p, cqFlag s j ≠ none

/-- The requests that a pass of `p` can come to. -/
def Taken (n : QueueCfg) (s : QueueCtrl) (p : Nat) (r : ReqId) : Prop :=
  r ∈ cplRing n s p ∨ r ∈ s.pq p

structure PassServed (n : QueueCfg) (s : QueueCtrl) (p : Nat) : Prop where
  served : ∀ r, Taken n s p r → Served s r
  notify : CanNotify n s p

/-- What is due belongs to a poller, and a flag is set in the middle of a pass only. -/
structure PassInv (n : QueueCfg) (s : QueueCtrl) : Prop where
  due : ∀ p, s.due p ≠ [] → ∃ j, (1 ≤ j ∧ j ≤ n.numIoQueues) ∧ p = n.poller j
  shouldIsr : n.multipollerEnabled = false → ∀ j, 1 ≤ j ∧ j ≤ n.numIoQueues → s.shouldIsr j →
    s.due 1 ≠ []

theorem mem_toNotify : j ∈ toNotify n s p ↔
    if n.multipollerEnabled then j = p else (1 ≤ j ∧ j ≤ n.numIoQueues) ∧ s.shouldIsr j := by
  unfold toNotify
  split
  case isTrue => exact List.mem_singleton
  case isFalse =>
    rw [List.mem_filter, List.mem_range'_1]
    exact and_congr_left fun _ => by omega

theorem PassInv.toNotify (h : PassInv n s) (hdue : s.due p ≠ []) (hj : j ∈ toNotify n s p) :
    (1 ≤ j ∧ j ≤ n.numIoQueues) ∧ p = n.poller j := by
  obtain ⟨k, hk, hp⟩ := h.due p hdue
  rw [mem_toNotify] at hj
  unfold QueueCfg.poller at hp ⊢
  split at hj
  case isTrue hmulti =>
    rw [if_pos hmulti] at hp
    subst hj hp
    exact ⟨hk, (if_pos hmulti).symm⟩
  case isFalse hmulti => exact ⟨hj.1, by rw [if_neg hmulti] at hp ⊢; exact hp⟩

/-! ## what the turns leave alone -/

/-- What no turn of a pass of `p` changes, and what it keeps. -/
structure PassKin (s t : QueueCtrl) (p : Nat) : Prop where
  holds : ∀ i addr, Holds t i addr ↔ Holds s i addr
  flag : cqFlag t = cqFlag s
  req : t.req = s.req
  due : s.due p ≠ [] → t.due p ≠ []
  shouldIsr : ∀ j, s.shouldIsr j → t.shouldIsr j

theorem PassKin.served (h : PassKin s t p) : Served t r ↔ Served s r := by
  constructor
  · rintro ⟨hlive, hact⟩
    exact ⟨(h.holds _ _).mp hlive, h.flag ▸ hact⟩
  · rintro ⟨hlive, hact⟩
    exact ⟨(h.holds _ _).mpr hlive, h.flag ▸ hact⟩

theorem PassKin.refl : PassKin s s p := ⟨fun _ _ => .rfl, rfl, rfl, id, fun _ => id⟩

theorem PassKin.trans {u : QueueCtrl} (h : PassKin s t p) (h' : PassKin t u p) :
    PassKin s u p where
  holds i addr := (h'.holds i addr).trans (h.holds i addr)
  flag := h'.flag.trans h.flag
  req := h'.req.trans h.req
  due hs := h'.due (h.due hs)
  shouldIsr j hs := h'.shouldIsr j (h.shouldIsr j hs)

/-- What is to be notified in the end has to be notified already. -/
theorem PassKin.of_canNotify (h : PassKin s t p) (ht : CanNotify n t p) : CanNotify n s p := by
  intro hdue j hj
  rw [← h.flag]
  refine ht (h.due hdue) j ?_
  rw [mem_toNotify] at hj ⊢
  split at hj
  case isTrue hmulti => rwa [if_pos hmulti]
  case isFalse hmulti =>
    rw [if_neg hmulti]
    exact ⟨hj.1, h.shouldIsr j hj.2⟩

theorem cqFlag_incCqTail {c : NvmeCQueue} (hc : s.cq j = some c)
    (hcq : t.cq = Function.update s.cq j (some (incCqTail c))) : cqFlag t = cqFlag s := by
  have hact : (incCqTail c).isActive = c.isActive := by
    unfold incCqTail
    split <;> rfl
  funext k
  rw [cqFlag, cqFlag, hcq, Function.update_apply]
  split
  case isTrue hk => rw [hk, hc, Option.map_some, Option.map_some, hact]
  case isFalse => rfl

theorem collectCpl_kin (h : collectCpl n s p = some t) : PassKin s t p := by
  obtain ⟨r, rest, -, rfl⟩ := collectCpl_cases h
  exact ⟨fun _ _ => .rfl, rfl, rfl, id, fun _ => id⟩

theorem postCpl_kin (h : postCpl s p r now = some t) : PassKin s t p := by
  obtain ⟨q, c, e, hq, haddr, -, hc, -, -, rfl⟩ := postCpl_cases h
  constructor
  case holds =>
    intro i addr
    constructor
    · intro hold
      have hback : s.sq = Function.update (Function.update s.sq r.sqid
          (some { q with reqList := q.reqList ++ [r.idx] })) r.sqid (some q) := by
        rw [Function.update_idem, ← hq, Function.update_eq_self]
      exact hold.put (Function.update_self ..) hback rfl
    · intro hold
      exact hold.put hq rfl rfl
  case flag => exact cqFlag_incCqTail hc rfl
  case req => rfl
  case due => simp
  case shouldIsr =>
    intro j hj
    dsimp only
    rw [Function.update_apply]
    split
    case isTrue => rfl
    case isFalse => exact hj

theorem collectCpl_lists (h : collectCpl n s p = some t) :
    ∃ r, cplRing n s p = r :: cplRing n t p ∧ t.pq p = s.pq p ++ [r] := by
  obtain ⟨r, rest, hring, rfl⟩ := collectCpl_cases h
  refine ⟨r, ?_, Function.update_self ..⟩
  rw [cplRing, hring, cplRing]
  split <;> dsimp only <;> rw [Function.update_self]

theorem collectCpl_taken (h : collectCpl n s p = some t) : Taken n t p r ↔ Taken n s p r := by
  obtain ⟨r', hring, hpq⟩ := collectCpl_lists h
  simp only [Taken, hring, hpq, List.mem_append, List.mem_cons, List.not_mem_nil, or_false]
  rw [or_comm (a := r = r'), or_assoc, or_comm (a := r = r')]

theorem postCpl_lists (h : postCpl s p r now = some t) :
    r ∈ s.pq p ∧ t.pq p = (s.pq p).erase r ∧ cplRing n t p = cplRing n s p := by
  obtain ⟨q, c, e, -, -, hmem, -, -, -, rfl⟩ := postCpl_cases h
  exact ⟨hmem, Function.update_self .., rfl⟩

/-! ## a turn of the second loop -/

theorem cqFlag_eq_some {b : Bool} :
    cqFlag s j = some b ↔ ∃ c, s.cq j = some c ∧ c.isActive = b :=
  Option.map_eq_some_iff

/-- A turn with a request that is due goes by the flag of the completion queue. -/
theorem cplTurn_eq (h : Inv n s) (hlive : Holds s r.sqid r.addr)
    (hdue : (s.req r).expireTime ≤ now) :
    cplTurn s p r now = (cqFlag s r.sqid).bind fun active =>
      if active then (postCpl s p r now).map (CplLoop.mk false) else some ⟨false, s⟩ := by
  obtain ⟨q, hlive⟩ := Option.ne_none_iff_exists'.mp (queue?_ne_none.mpr hlive)
  have hsqid : q.sqid = r.sqid := h.flow.sqid_eq _ _ (ReqId.queue?_eq_some.mp hlive).1
  rw [cplTurn, hlive, cqFlag]
  dsimp only
  rw [if_neg (Nat.not_lt.mpr hdue), hsqid]
  cases hc : s.cq r.sqid with
  | none => rfl
  | some c => cases hact : c.isActive <;> simp [hact]

theorem cplTurn_early (hlive : Holds s r.sqid r.addr) (hdue : now < (s.req r).expireTime) :
    cplTurn s p r now = some ⟨true, s⟩ := by
  obtain ⟨q, hlive⟩ := Option.ne_none_iff_exists'.mp (queue?_ne_none.mpr hlive)
  rw [cplTurn, hlive]
  exact if_pos hdue

theorem cplTurn_of_served (now : Nat) (h : Inv n s) (hs : Served s r) (hpeek : isPeek s p r) :
    (now < (s.req r).expireTime ∧ cplTurn s p r now = some ⟨true, s⟩) ∨
      ∃ t, postCpl s p r now = some t ∧ cplTurn s p r now = some ⟨false, t⟩ := by
  obtain ⟨c, hc, hact⟩ := cqFlag_eq_some.mp hs.active
  by_cases hdue : now < (s.req r).expireTime
  case pos => exact .inl ⟨hdue, cplTurn_early hs.live hdue⟩
  case neg =>
    have hle : (s.req r).expireTime ≤ now := Nat.le_of_not_lt hdue
    obtain ⟨q, hlive⟩ := Option.ne_none_iff_exists'.mp (queue?_ne_none.mpr hs.live)
    have hsqid : q.sqid = r.sqid := h.flow.sqid_eq _ _ (ReqId.queue?_eq_some.mp hlive).1
    have hpost : ∃ t, postCpl s p r now = some t := by
      simp [postCpl, hpeek, hle, hlive, hsqid, hc, hact, postCqe]
    obtain ⟨t, ht⟩ := hpost
    refine .inr ⟨t, ht, ?_⟩
    rw [cplTurn_eq h hs.live hle, hs.active, Option.bind_some, if_pos rfl, ht, Option.map_some]

/-- With a completion queue that is not active the next turn finds what this one has found. -/
theorem cplTurn_cases {x : CplLoop} (h : Inv n s) (hturn : cplTurn s p r now = some x) :
    (now < (s.req r).expireTime ∧ x = ⟨true, s⟩) ∨
      (¬ Served s r ∧ x = ⟨false, s⟩) ∨
      Served s r ∧ ∃ t, postCpl s p r now = some t ∧ x = ⟨false, t⟩ := by
  have hlive : Holds s r.sqid r.addr := by
    rw [← queue?_ne_none]
    intro hfreed
    rw [cplTurn, hfreed] at hturn
    cases hturn
  by_cases hdue : now < (s.req r).expireTime
  case pos => exact .inl ⟨hdue, Option.some.inj (hturn.symm.trans (cplTurn_early hlive hdue))⟩
  case neg =>
    rw [cplTurn_eq h hlive (Nat.le_of_not_lt hdue)] at hturn
    obtain ⟨active, hflag, hturn⟩ := Option.bind_eq_some_iff.mp hturn
    cases active with
    | false =>
        refine .inr (.inl ⟨fun hs => ?_, (Option.some.inj hturn).symm⟩)
        cases hflag.symm.trans hs.active
    | true =>
        obtain ⟨t, ht, rfl⟩ := Option.map_eq_some_iff.mp hturn
        exact .inr (.inr ⟨⟨hlive, hflag⟩, t, ht, rfl⟩)

/-! ## the flags of the running passes -/

theorem reset_passInv : PassInv n .reset := by
  constructor <;> simp [QueueCtrl.reset]

/-- What an admin command leaves of the requests and of the running passes. -/
theorem processSqAdmin_rest {cmd : AdminCmd} (h : Inv n s)
    (hstep : processSqAdmin n s cmd now = some t) :
    (∀ p, inflight t p = inflight s p) ∧ t.due = s.due ∧ t.shouldIsr = s.shouldIsr := by
  obtain ⟨q, st, u, c, e, hq, -, hcmd, -, -, rfl⟩ := processSqAdmin_cases hstep
  have hrest := adminCmd_rest (incSqHead_inv h hq) hcmd
  refine ⟨fun p => ?_, hrest.due, hrest.shouldIsr⟩
  simp only [inflight, QueueCtrl.setCq, hrest.toFtl, hrest.toPoller, hrest.pq, QueueCtrl.setSq]

/-- Only a completion and the end of a pass change what is due. -/
theorem step_due (h : Inv n s) (hstep : step? n s a = some t)
    (hcomplete : ∀ p r now, a ≠ .complete p r now) (hnotify : ∀ p, a ≠ .notify p) :
    t.due = s.due ∧ t.shouldIsr = s.shouldIsr := by
  by_cases hadmin : ∃ cmd now, a = .admin cmd now
  case pos =>
    obtain ⟨cmd, now, rfl⟩ := hadmin
    exact (processSqAdmin_rest h hstep).2
  case neg =>
    have hsame := step_sameRoutes hstep (fun cmd now ha => hadmin ⟨cmd, now, ha⟩) hcomplete hnotify
    exact ⟨hsame.due, hsame.shouldIsr⟩

theorem postCpl_passInv (h : Inv n s) (hp : PassInv n s) (hstep : postCpl s p r now = some t) :
    PassInv n t := by
  obtain ⟨q, c, e, -, -, hmem, -, -, -, rfl⟩ := postCpl_cases hstep
  have hin : r ∈ inflight s p := mem_inflight.mpr (.inr (.inr hmem))
  have hrange := h.flow.flight_range p r hin
  have hpoller := h.flow.flight_poller p r hin
  constructor
  case due =>
    intro p' hdue
    by_cases hp' : p' = p
    · exact ⟨r.sqid, hrange, hp'.trans hpoller⟩
    · exact hp.due p' (by simpa [Function.update_of_ne hp'] using hdue)
  case shouldIsr =>
    -- without pollers of their own all queues are served by poller 1
    intro hmulti j hj hisr
    obtain rfl : p = 1 := by
      rw [hpoller, QueueCfg.poller, hmulti]
      rfl
    simp

theorem notifyIo_passInv (hp : PassInv n s) (hstep : notifyIo n s p = some t) :
    PassInv n t := by
  obtain ⟨hdue, rfl⟩ := notifyIo_cases hstep
  constructor
  case due =>
    intro p' hdue'
    by_cases hp' : p' = p
    · simp [hp'] at hdue'
    · exact hp.due p' (by simpa [Function.update_of_ne hp'] using hdue')
  case shouldIsr =>
    intro hmulti j hj hisr
    simp [hmulti, hj.1, hj.2] at hisr

theorem step_passInv (h : Inv n s) (hp : PassInv n s) (hstep : step? n s a = some t) :
    PassInv n t := by
  by_cases hcomplete : ∃ p r now, a = .complete p r now
  · obtain ⟨p, r, now, rfl⟩ := hcomplete
    exact postCpl_passInv h hp hstep
  by_cases hnotify : ∃ p, a = .notify p
  · obtain ⟨p, rfl⟩ := hnotify
    exact notifyIo_passInv hp hstep
  · obtain ⟨hdue, hisr⟩ := step_due h hstep (fun p r now ha => hcomplete ⟨p, r, now, ha⟩)
      fun p ha => hnotify ⟨p, ha⟩
    exact ⟨hdue ▸ hp.due, hdue ▸ hisr ▸ hp.shouldIsr⟩

/-! ## a pass that is served ends -/

theorem isPeek_mem (h : isPeek s p r) : r ∈ s.pq p := by
  rw [isPeek, decide_eq_true_iff] at h
  exact h.1

theorem postCpl_canNotify (h : Inv n s) (hp : PassInv n s) (hs : Served s r) {p' : Nat}
    (hn : CanNotify n s p') (hstep : postCpl s p r now = some t) : CanNotify n t p' := by
  have ht := postCpl_passInv h hp hstep
  have hflag := (postCpl_kin hstep).flag
  obtain ⟨q, c, e, hq, -, hmem, -, -, -, rfl⟩ := postCpl_cases hstep
  have hsqid : q.sqid = r.sqid := h.flow.sqid_eq _ _ hq
  have hpoller : p = n.poller r.sqid := h.flow.flight_poller p r (mem_inflight.mpr (.inr (.inr hmem)))
  have hactive : cqFlag s r.sqid ≠ none := by
    rw [hs.active]
    exact Option.some_ne_none true
  intro hdue j hj
  obtain ⟨hrange, hp'⟩ := ht.toNotify hdue hj
  rw [hflag]
  by_cases hjr : j = r.sqid
  case pos => rwa [hjr]
  case neg =>
    rw [mem_toNotify] at hj
    split at hj
    case isTrue hmulti =>
      -- another poller, whose pass has not changed
      have hne : p' ≠ p := by
        rintro rfl
        rw [QueueCfg.poller, if_pos hmulti] at hpoller
        exact hjr (hj.trans hpoller)
      refine hn (by simpa [Function.update_of_ne hne] using hdue) j ?_
      rw [mem_toNotify, if_pos hmulti]
      exact hj
    case isFalse hmulti =>
      have hisr : s.shouldIsr j := by
        simpa [Function.update_of_ne (hsqid ▸ hjr)] using hj.2
      have hsame : p' = 1 := by rw [hp', QueueCfg.poller, if_neg hmulti]
      refine hn (hsame ▸ hp.shouldIsr (by simpa using hmulti) j hrange hisr) j ?_
      rw [mem_toNotify, if_neg hmulti]
      exact ⟨hrange, hisr⟩

/-- A pass in which every request can be completed. -/
structure PassReady (n : QueueCfg) (p : Nat) (s : QueueCtrl) : Prop where
  inv : Inv n s
  flags : PassInv n s
  served : PassServed n s p

theorem PassReady.collect (h : PassReady n p s) (hring : cplRing n s p ≠ []) :
    ∃ t, collectCpl n s p = some t ∧ PassReady n p t := by
  obtain ⟨r, rest, hcons⟩ := List.exists_cons_of_ne_nil hring
  have hlive : r.queue? s ≠ none :=
    queue?_ne_none.mpr (h.served.served r (.inl (hcons ▸ List.mem_cons_self))).live
  have hsome : ∃ t, collectCpl n s p = some t := by
    rw [cplRing] at hcons
    simp [collectCpl, hcons, hlive]
  obtain ⟨t, ht⟩ := hsome
  have hkin := collectCpl_kin ht
  refine ⟨t, ht, step_inv (a := .collect p) h.inv ht, step_passInv (a := .collect p) h.inv h.flags ht,
    fun r hr => ?_, ?_⟩
  · exact hkin.served.mpr (h.served.served r ((collectCpl_taken ht).mp hr))
  · obtain ⟨r, rest, -, rfl⟩ := collectCpl_cases ht
    exact h.served.notify

theorem PassReady.post (h : PassReady n p s) (hs : Served s r) (ht : postCpl s p r now = some t) :
    PassReady n p t := by
  obtain ⟨-, hpq, hring⟩ := postCpl_lists (n := n) ht
  refine ⟨step_inv (a := .complete p r now) h.inv ht, postCpl_passInv h.inv h.flags ht,
    fun r' hr' => ?_, postCpl_canNotify h.inv h.flags hs h.served.notify ht⟩
  refine (postCpl_kin ht).served.mpr (h.served.served r' ?_)
  rw [Taken, hring, hpq] at hr'
  exact hr'.imp_right List.mem_of_mem_erase

theorem PassReady.collectLoop (h : PassReady n p s)
    (hfuel : (cplRing n s p).length + (s.pq p).length ≤ fuel) :
    ∃ t, collectLoop n p fuel s = some t ∧ PassReady n p t ∧ (t.pq p).length ≤ fuel := by
  have hstep : ∀ (j : Nat) t, PassReady n p t ∧ (cplRing n t p).length + (t.pq p).length ≤ fuel →
      (!(cplRing n t p).isEmpty) = true →
      ∃ t', collectCpl n t p = some t' ∧
        (PassReady n p t' ∧ (cplRing n t' p).length + (t'.pq p).length ≤ fuel) ∧
          (cplRing n t' p).length < (cplRing n t p).length := by
    rintro j t ⟨ht, hle⟩ hc
    obtain ⟨t', hstep, ht'⟩ := ht.collect (by simpa using hc)
    obtain ⟨r, hring, hpq⟩ := collectCpl_lists hstep
    rw [hring, List.length_cons] at hle ⊢
    refine ⟨t', hstep, ⟨ht', ?_⟩, Nat.lt_succ_self _⟩
    rw [hpq, List.length_append, List.length_singleton]
    omega
  have hturns : (cplRing n s p).length ≤ fuel := by omega
  obtain ⟨j, t, hloop, ⟨ht, hle⟩, -⟩ := whileLoop_bounded (i := 0) hstep ⟨h, hfuel⟩ hturns
  exact ⟨t, by rw [Queue.collectLoop, hloop, Option.map_some], ht, by omega⟩

theorem PassReady.cplLoop (h : PassReady n p s) (pk : Peek) (clock : Nat → Nat)
    (hfuel : (s.pq p).length ≤ fuel) :
    ∃ t, cplLoop pk clock p fuel s = some t ∧ PassReady n p t := by
  have hstep : ∀ (j : Nat) (x : CplLoop), PassReady n p x.ctrl →
      (!x.left && (pk.first x.ctrl p).isSome) = true →
      ∃ y, (pk.first x.ctrl p).bind (fun r => cplTurn x.ctrl p r (clock j)) = some y ∧
        PassReady n p y.ctrl ∧ (if y.left then 0 else (y.ctrl.pq p).length) <
          if x.left then 0 else (x.ctrl.pq p).length := by
    intro j x hx hc
    obtain ⟨hleft, hsome⟩ := Bool.and_eq_true_iff.mp hc
    obtain ⟨r, hr⟩ := Option.isSome_iff_exists.mp hsome
    have hpeek := pk.isPeek _ _ _ hr
    have hmem := isPeek_mem hpeek
    have hpos : 0 < (x.ctrl.pq p).length := List.length_pos_of_mem hmem
    have hserved := hx.served.served r (.inr hmem)
    rw [hr, Option.bind_some, if_neg (by simpa using hleft)]
    rcases cplTurn_of_served (clock j) hx.inv hserved hpeek with
      ⟨-, hturn⟩ | ⟨t, hpost, hturn⟩
    · exact ⟨_, hturn, hx, hpos⟩
    · refine ⟨_, hturn, hx.post hserved hpost, ?_⟩
      obtain ⟨-, hpq, -⟩ := postCpl_lists (n := n) hpost
      have hlen := List.length_erase_of_mem hmem
      simp only [hpq, Bool.false_eq_true, if_false]
      omega
  obtain ⟨j, y, hloop, hy, -⟩ := whileLoop_bounded (i := 0) (s := ⟨false, s⟩) hstep h hfuel
  exact ⟨y.ctrl, by rw [Queue.cplLoop, hloop, Option.map_some], hy⟩

theorem PassReady.passEnds (h : PassReady n p s) : PassEnds n s p := by
  constructor
  case turns =>
    intro r now hpeek
    rcases cplTurn_of_served now h.inv (h.served.served r (.inr (isPeek_mem hpeek))) hpeek
      with ⟨-, hturn⟩ | ⟨t, hpost, hturn⟩
    · exact ⟨_, hturn, .inl rfl⟩
    · exact ⟨_, hturn, .inr (postCpl_lists (n := n) hpost).2.1⟩
  case ends =>
    intro pk clock
    obtain ⟨t, hcollect, ht, hle⟩ := h.collectLoop le_rfl
    obtain ⟨u, hloop, hu⟩ := ht.cplLoop pk clock hle
    refine ⟨(cplRing n s p).length + (s.pq p).length, ?_⟩
    rw [processCqCpl, hcollect, Option.bind_eq_bind, Option.bind_some, hloop, Option.bind_some]
    by_cases hdue : u.due p = []
    case pos => exact ⟨u, if_pos hdue⟩
    case neg =>
      have hok : ¬ (u.due p = [] ∨ (toNotify n u p).any (fun j => (u.cq j).isNone)) := by
        rintro (hnil | hnull)
        · exact hdue hnil
        · obtain ⟨j, hj, hnone⟩ := List.any_eq_true.mp hnull
          exact hu.served.notify hdue j hj (by simpa [cqFlag] using hnone)
      rw [if_neg hdue, notifyIo, if_neg hok]
      exact ⟨_, rfl⟩

/-! ## a pass that ends is served -/

/-- The first of the requests that expire first. -/
def firstPeek : Peek where
  first s p := (s.pq p).find? (isPeek s p)
  pq_nil s p hnone := by
    by_contra hne
    obtain ⟨r, hr, hmin⟩ := (s.pq p).toFinset.exists_min_image (fun r => (s.req r).expireTime)
      (List.toFinset_nonempty_iff _ |>.mpr hne)
    rw [List.mem_toFinset] at hr
    refine List.find?_eq_none.mp hnone r hr ?_
    simpa [isPeek, hr] using hmin
  isPeek s p r hfirst := List.find?_some hfirst

theorem notifyIo_canNotify (h : notifyIo n s p = some t) : CanNotify n s p := by
  intro hdue j hj hnone
  unfold notifyIo at h
  split at h
  case isTrue => cases h
  case isFalse hok =>
    refine hok (.inr (List.any_eq_true.mpr ⟨j, hj, ?_⟩))
    simpa [cqFlag] using hnone

theorem processCqCpl_cases {pk : Peek} {clock : Nat → Nat}
    (h : processCqCpl n pk clock fuel p s = some t) :
    ∃ u v, collectLoop n p fuel s = some u ∧ cplLoop pk clock p fuel u = some v ∧
      (v.due p ≠ [] → notifyIo n v p = some t) := by
  obtain ⟨u, hcollect, h⟩ := Option.bind_eq_some_iff.mp h
  obtain ⟨v, hloop, h⟩ := Option.bind_eq_some_iff.mp h
  refine ⟨u, v, hcollect, hloop, fun hdue => ?_⟩
  rwa [if_neg hdue] at h

theorem collectLoop_kin (h : Inv n s) (hloop : collectLoop n p fuel s = some t) :
    Inv n t ∧ PassKin s t p ∧ ∀ r, r ∈ t.pq p ↔ Taken n s p r := by
  obtain ⟨⟨j, u⟩, hrun, rfl⟩ := Option.map_eq_some_iff.mp hloop
  have hstep : ∀ (j : Nat) u u', (Inv n u ∧ PassKin s u p ∧ ∀ r, Taken n u p r ↔ Taken n s p r) →
      (!(cplRing n u p).isEmpty) = true → collectCpl n u p = some u' →
      Inv n u' ∧ PassKin s u' p ∧ ∀ r, Taken n u' p r ↔ Taken n s p r := by
    rintro j u u' ⟨hinv, hkin, htaken⟩ - hu
    exact ⟨step_inv (a := .collect p) hinv hu, hkin.trans (collectCpl_kin hu),
      fun r => (collectCpl_taken hu).trans (htaken r)⟩
  obtain ⟨⟨hinv, hkin, htaken⟩, hend⟩ :=
    whileLoop_partial hstep ⟨h, .refl, fun _ => .rfl⟩ hrun
  have hnil : cplRing n u p = [] := by simpa using hend
  refine ⟨hinv, hkin, fun r => ?_⟩
  rw [← htaken r, Taken, hnil, List.mem_nil_iff, false_or]

theorem cplLoop_kin {pk : Peek} {clock : Nat → Nat} (h : Inv n s)
    (hloop : cplLoop pk clock p fuel s = some t) : PassKin s t p := by
  obtain ⟨⟨j, x⟩, hrun, rfl⟩ := Option.map_eq_some_iff.mp hloop
  have hstep : ∀ (j : Nat) (x x' : CplLoop), (Inv n x.ctrl ∧ PassKin s x.ctrl p) →
      (!x.left && (pk.first x.ctrl p).isSome) = true →
      (pk.first x.ctrl p).bind (fun r => cplTurn x.ctrl p r (clock j)) = some x' →
      Inv n x'.ctrl ∧ PassKin s x'.ctrl p := by
    rintro j x x' ⟨hinv, hkin⟩ - hx
    obtain ⟨r, -, hturn⟩ := Option.bind_eq_some_iff.mp hx
    rcases cplTurn_cases hinv hturn with ⟨-, rfl⟩ | ⟨-, rfl⟩ | ⟨-, u, hu, rfl⟩
    · exact ⟨hinv, hkin⟩
    · exact ⟨hinv, hkin⟩
    · exact ⟨step_inv (a := .complete p r (clock j)) hinv hu, hkin.trans (postCpl_kin hu)⟩
  have hstart : Inv n (CplLoop.mk false s).ctrl ∧ PassKin s (CplLoop.mk false s).ctrl p := ⟨h, .refl⟩
  obtain ⟨⟨-, hkin⟩, -⟩ := whileLoop_partial hstep hstart hrun
  exact hkin

/-- The second loop with a request that cannot be completed, at a time when all are due. -/
structure Stuck (n : QueueCfg) (p now : Nat) (r : ReqId) (x : CplLoop) : Prop where
  left : x.left = false
  inv : Inv n x.ctrl
  mem : r ∈ x.ctrl.pq p
  unserved : ¬ Served x.ctrl r
  due : ∀ r' ∈ x.ctrl.pq p, (x.ctrl.req r').expireTime ≤ now

theorem Stuck.turn {x x' : CplLoop} (h : Stuck n p now r x) (hmem : r' ∈ x.ctrl.pq p)
    (hturn : cplTurn x.ctrl p r' now = some x') : Stuck n p now r x' := by
  rcases cplTurn_cases h.inv hturn with ⟨hlate, -⟩ | ⟨-, rfl⟩ | ⟨hserved, u, hu, rfl⟩
  · have hle := h.due r' hmem
    omega
  · exact ⟨rfl, h.inv, h.mem, h.unserved, h.due⟩
  · have hne : r ≠ r' := by
      rintro rfl
      exact h.unserved hserved
    have hkin := postCpl_kin hu
    obtain ⟨-, hpq, -⟩ := postCpl_lists (n := n) hu
    refine ⟨rfl, step_inv (a := .complete p r' now) h.inv hu, ?_,
      fun hr => h.unserved (hkin.served.mp hr), fun r₀ hr₀ => ?_⟩
    · rw [hpq]
      exact (List.mem_erase_of_ne hne).mpr h.mem
    · rw [hpq] at hr₀
      rw [hkin.req]
      exact h.due r₀ (List.mem_of_mem_erase hr₀)

/-- A request that cannot be completed keeps the loop going once all requests are due. -/
theorem cplLoop_diverges {pk : Peek} (h : Stuck n p now r ⟨false, s⟩) :
    cplLoop pk (fun _ => now) p fuel s = none := by
  have hcond : ∀ x, Stuck n p now r x → (!x.left && (pk.first x.ctrl p).isSome) = true := by
    intro x hx
    rw [hx.left, Bool.not_false, Bool.true_and, Option.isSome_iff_ne_none]
    intro hnone
    have hmem := hx.mem
    rw [pk.pq_nil _ _ hnone] at hmem
    cases hmem
  have hstep : ∀ (j : Nat) (x x' : CplLoop), Stuck n p now r x →
      (pk.first x.ctrl p).bind (fun r => cplTurn x.ctrl p r now) = some x' →
      Stuck n p now r x' := by
    intro j x x' hx hx'
    obtain ⟨r', hfirst, hturn⟩ := Option.bind_eq_some_iff.mp hx'
    exact hx.turn (isPeek_mem (pk.isPeek _ _ _ hfirst)) hturn
  rw [cplLoop, whileLoop_eq_none hcond hstep h, Option.map_none]

theorem PassEnds.passServed (h : Inv n s) (hends : PassEnds n s p) : PassServed n s p := by
  constructor
  case served =>
    intro r hr
    by_contra hnot
    -- a clock at which every request is due
    let now := (cplRing n s p ++ s.pq p).toFinset.sup fun r => (s.req r).expireTime
    obtain ⟨fuel, t, hpass⟩ := hends.ends firstPeek fun _ => now
    obtain ⟨u, v, hcollect, hloop, -⟩ := processCqCpl_cases hpass
    obtain ⟨hinv, hkin, htaken⟩ := collectLoop_kin h hcollect
    have hdue : ∀ r' ∈ u.pq p, (u.req r').expireTime ≤ now := by
      intro r' hr'
      have htake : r' ∈ (cplRing n s p ++ s.pq p).toFinset := by
        simpa [Taken] using (htaken r').mp hr'
      rw [hkin.req]
      exact Finset.le_sup (f := fun r => (s.req r).expireTime) htake
    have hstuck : Stuck n p now r ⟨false, u⟩ :=
      ⟨rfl, hinv, (htaken r).mpr hr, fun hserved => hnot (hkin.served.mp hserved), hdue⟩
    rw [cplLoop_diverges hstuck] at hloop
    cases hloop
  case notify =>
    obtain ⟨fuel, t, hpass⟩ := hends.ends firstPeek fun _ => 0
    obtain ⟨u, v, hcollect, hloop, hnotify⟩ := processCqCpl_cases hpass
    obtain ⟨hinv, hkin, -⟩ := collectLoop_kin h hcollect
    have hkin' := hkin.trans (cplLoop_kin hinv hloop)
    intro hdue
    exact hkin'.of_canNotify (notifyIo_canNotify (hnotify (hkin'.due hdue))) hdue

theorem PassEnds.active (h : Inv n s) (hends : PassEnds n s p) (hpeek : isPeek s p r) :
    cqFlag s r.sqid = some true :=
  ((hends.passServed h).served r (.inr (isPeek_mem hpeek))).active

/-- **Pass**: a pass ends if and only if every request it can come to can be completed, and the
completion queues it has still to notify are there. -/
theorem passEnds_iff (h : Inv n s) (hflags : PassInv n s) : PassEnds n s p ↔ PassServed n s p :=
  ⟨fun hends => hends.passServed h, fun hs => (PassReady.mk h hflags hs).passEnds⟩

end Femu.Queue
