import Femu.Queue.Overflow

/-!
# Femu.Queue.Pool

The requests of a submission queue that are left for the next command. `nvme_init_sq` makes
`sq->size` of them, and `nvme_process_sq_io` takes the first one without a look whether there
is one. A slot of the queue is given back to the host when its command is taken, and not when
the command is completed: a host that fills every slot it is given has more commands under
way than there are requests.
-/

namespace Femu.Queue

open Nvme Lib

variable {n : QueueCfg} {s t u : QueueCtrl} {i j p now : Nat} {q q' : NvmeSQueue} {a : Act}

/-! ## the host -/

/-- The head of the submission queue that the host was told last. -/
def reportedHead (s : QueueCtrl) (q : NvmeSQueue) : Nat :=
  (((s.posted.filter (·.addr = q.addr)).getLast?).map Posted.sqHead).getD 0

/-- The ring protocol: the host moves a tail forward, and not onto the head that it was told. -/
def FollowsRing (s : QueueCtrl) : Act → Prop
  | .hostTail i tail =>
      (s.sq i).all fun q => tail < q.size ∧
        gap q.size (reportedHead s q) q.tail ≤ gap q.size (reportedHead s q) tail
  | _ => True

instance (s : QueueCtrl) : (a : Act) → Decidable (FollowsRing s a)
  | .hostTail _ _ => inferInstanceAs (Decidable (_ = true))
  | .hostSqe .. | .hostHead .. | .enable .. | .disable | .admin .. | .enter .. | .fetch .. | .leave ..
  | .ftl .. | .collect .. | .complete .. | .notify .. => isTrue trivial

/-- The host moves the tail of an I/O queue to a slot of it, and so far that the commands in
the queue and those on their way are no more than the queue has slots. -/
def WithinPool (n : QueueCfg) (s : QueueCtrl) : Act → Prop
  | .hostTail i tail =>
      i ≠ 0 → (s.sq i).all fun q => tail < q.size ∧ load n s { q with tail := tail } ≤ q.size
  | _ => True

instance (n : QueueCfg) (s : QueueCtrl) : (a : Act) → Decidable (WithinPool n s a)
  | .hostTail _ _ => inferInstanceAs (Decidable (_ → _ = true))
  | .hostSqe .. | .hostHead .. | .enable .. | .disable | .admin .. | .enter .. | .fetch .. | .leave ..
  | .ftl .. | .collect .. | .complete .. | .notify .. => isTrue trivial

/-- The poller that serves queue `i` has a command to take and no request for it. -/
def Dry (s : QueueCtrl) (i : Nat) : Prop :=
  ∃ q, s.sq i = some q ∧ s.serving i = some q.addr ∧ q.head ≠ q.tail ∧ q.reqList = []

/-- Such a command is not taken: the poller uses a null pointer. -/
theorem Dry.stuck (h : Dry s i) (now : Nat) (status : Status) :
    processSqIo n s i now status = none := by
  obtain ⟨q, hq, -, -, hlist⟩ := h
  simp [processSqIo, hq, hlist]

/-! ## the load of each queue -/

/-- Where the cursors and the object of a queue are the same and no request was taken. -/
theorem LoadKept.same (hin : ∀ p, inflight t p ≤ inflight s p) (hkin : Kin q q')
    (hhead : q'.head = q.head) (htail : q'.tail = q.tail) : LoadKept n s t q q' where
  cqid := hkin.cqid
  size := hkin.size
  ring h := by rwa [hkin.size, hhead, htail]
  load := by
    have hpend : pending q' = pending q := by rw [pending, pending, hkin.size, hhead, htail]
    exact load_le hpend.le ⟨hkin.addr, hkin.sqid⟩ hin

/-- What the taking of a command does to the load of an I/O queue. -/
theorem fetch_load {status : Status} (hinv : Inv n s)
    (hring : ∀ i q, i ≠ 0 → s.sq i = some q → InRing q.size q.head q.tail)
    (hstep : processSqIo n s j now status = some t) (hq' : t.sq i = some q') :
    ∃ q, s.sq i = some q ∧ LoadKept n s t q q' := by
  obtain ⟨q, idx, rest, hq, hserving, ⟨hne, -⟩, -, rfl⟩ := processSqIo_cases hstep
  have hj := hinv.flow.serving_range j _ hserving
  refine loadKept_take hinv.flow hq (hring j q (by omega) hq) hne
    (?_ : _ = Function.update s.sq j (some { incSqHead q with reqList := rest })) rfl
    (inflight_fetch ⟨q.addr, q.sqid, idx⟩) hq'
  split
  · exact enqueueFtl_sq ..
  · rfl

/-- What a step does to the load of an I/O queue. -/
theorem step_load (hinv : Inv n s)
    (hring : ∀ i q, i ≠ 0 → s.sq i = some q → InRing q.size q.head q.tail)
    (hstep : step? n s a = some t) (hi : i ≠ 0) (hq' : t.sq i = some q') :
    (∃ q, s.sq i = some q ∧ LoadKept n s t q q') ∨
      (InRing q'.size q'.head q'.tail ∧ load n t q' = 0) ∨
      ∃ q tail, a = .hostTail i tail ∧ s.sq i = some q ∧ q' = { q with tail := tail } ∧
        load n t q' = load n s q' := by
  by_cases hfetch : ∃ i now status, a = .fetch i now status
  case pos =>
    obtain ⟨j, now, status, rfl⟩ := hfetch
    exact .inl (fetch_load hinv hring hstep hq')
  case neg =>
    have hle := step_inflight_le hinv hstep hfetch
    -- the queues are the same
    have hsame : s.sq i = some q' → ∃ q, s.sq i = some q ∧ LoadKept n s t q q' :=
      fun hq => ⟨q', hq, .same hle ⟨rfl, rfl, rfl, rfl⟩ rfl rfl⟩
    cases a with
    | hostSqe addr slot e =>
        cases hstep
        exact .inl (hsame hq')
    | hostTail j tail =>
        obtain ⟨q, hq, rfl⟩ := Option.map_eq_some_iff.mp hstep
        rw [QueueCtrl.setSq_sq, Function.update_apply] at hq'
        split at hq'
        case isTrue hj =>
          subst hj
          exact .inr (.inr ⟨q, tail, rfl, hq, (Option.some.inj hq').symm, rfl⟩)
        case isFalse => exact .inl (hsame hq')
    | hostHead j head =>
        obtain ⟨c, hc, rfl⟩ := Option.map_eq_some_iff.mp hstep
        exact .inl (hsame hq')
    | enable asqs acqs =>
        rcases startCtrl_cases hstep with rfl | ⟨-, -, -, rfl⟩
        · exact .inl (hsame hq')
        · exact .inl (hsame (by rwa [addAdmin_sq, if_neg hi] at hq'))
    | disable =>
        cases hstep
        simp only [clearCtrl] at hq'
        exact .inl (hsame (by grind))
    | admin cmd now =>
        rcases processSqAdmin_sq hinv hstep hi hq' with
          ⟨hq, -⟩ | ⟨-, q, hq, hkin, hhead, htail, -⟩ | hnew
        · exact .inl (hsame hq)
        · exact .inl ⟨q, hq, .same hle hkin hhead htail⟩
        · unfold Creates at hnew
          split at hnew
          · obtain ⟨-, rfl⟩ := hnew
            exact .inr (.inl ⟨inRing_zero _, load_fresh hinv.flow le_rfl rfl hle⟩)
          · cases hnew
    | enter j =>
        obtain ⟨q, c, -, -, -, rfl⟩ := enterSq_cases hstep
        exact .inl (hsame hq')
    | fetch j now status => exact absurd ⟨j, now, status, rfl⟩ hfetch
    | leave j =>
        obtain rfl := leaveSq_cases hstep
        exact .inl (hsame hq')
    | ftl p lat =>
        obtain ⟨r, rest, q, -, -, -, -, rfl⟩ := ftlThread_cases hstep
        exact .inl (hsame (by simpa using hq'))
    | collect p =>
        obtain ⟨r, rest, -, rfl⟩ := collectCpl_cases hstep
        exact .inl (hsame hq')
    | complete p r now =>
        obtain ⟨q, c, e, hq, -, -, -, -, -, rfl⟩ := postCpl_cases hstep
        simp only [Function.update_apply] at hq'
        split at hq'
        case isTrue hj =>
          cases hq'
          exact .inl ⟨q, hj ▸ hq, .same hle ⟨rfl, rfl, rfl, rfl⟩ rfl rfl⟩
        case isFalse => exact .inl (hsame hq')
    | notify p =>
        obtain ⟨-, rfl⟩ := notifyIo_cases hstep
        exact .inl (hsame hq')

/-- No I/O queue has more to complete than it has requests. -/
def PoolInv (n : QueueCfg) (s : QueueCtrl) : Prop :=
  ∀ i q, i ≠ 0 → s.sq i = some q → InRing q.size q.head q.tail ∧ load n s q ≤ q.size

/-- **Step**: no step but the host's adds to the load of a queue. -/
theorem step_poolInv (hinv : Inv n s) (h : PoolInv n s) (hstep : step? n s a = some t)
    (hpool : WithinPool n s a) : PoolInv n t := by
  intro i q' hi hq'
  rcases step_load hinv (fun i q hi hq => (h i q hi hq).1) hstep hi hq' with
    ⟨q, hq, hkept⟩ | ⟨hring, hload⟩ | ⟨q, tail, rfl, hq, rfl, hload⟩
  · obtain ⟨hring, hle⟩ := h i q hi hq
    refine ⟨hkept.ring hring, ?_⟩
    rw [hkept.size]
    exact hkept.load.trans hle
  · refine ⟨hring, ?_⟩
    rw [hload]
    exact Nat.zero_le _
  · simp only [WithinPool, hq, Option.all_some, Bool.decide_and, Bool.and_eq_true,
      decide_eq_true_eq] at hpool
    obtain ⟨htail, hle⟩ := hpool hi
    have hlt := (h i q hi hq).1.lt (by omega)
    refine ⟨⟨lt_max_of_lt_left hlt.1, lt_max_of_lt_left htail⟩, ?_⟩
    rw [hload]
    exact hle

/-! ## the pool -/

/-- Where no request is lost, each is free or on its way. -/
theorem reqList_add_outstanding (hinv : Inv n s) (hno : NoLoss s) (hi : i ≠ 0)
    (hq : s.sq i = some q) :
    q.reqList.length + (outstanding n s q.addr q.sqid).card = q.size := by
  have htokens := congrArg Multiset.card (hinv.flow.balanced i q hi hq).tokens
  simpa [ledger, hno.outReqList i q hi hq, hno.dropped] using htokens

theorem pool_inv {acts : List Act} (hrun : Run (fun s a t =>
      (Kept n s a ∧ WithinPool n s a) ∧ step? n s a = some t) .reset acts s) :
    Inv n s ∧ NoLoss s ∧ PoolInv n s := by
  refine hrun.invariant (I := fun s => Inv n s ∧ NoLoss s ∧ PoolInv n s) ?_
    ⟨reset_inv, ⟨rfl, ?_⟩, ?_⟩
  · rintro s a t ⟨hinv, hno, hpool⟩ ⟨⟨hkept, hwithin⟩, hstep⟩
    exact ⟨step_inv hinv hstep, step_noLoss hinv hno hstep hkept,
      step_poolInv hinv hpool hstep hwithin⟩
  · rintro i q - hq
    cases hq
  · rintro i q - hq
    cases hq

theorem head_ne_tail_of_pending (h : 0 < pending q) : q.head ≠ q.tail := by
  intro heq
  rw [pending, heq, gap_self] at h
  exact absurd h (Nat.lt_irrefl 0)

/-- A turn of the loop of `nvme_process_sq_io` that takes a command. -/
theorem processSqIo_take (n : QueueCfg) (now : Nat) {idx : Nat} {rest : List Nat} (hq : s.sq i = some q)
    (hserving : s.serving i = some q.addr) (hne : q.head ≠ q.tail) (hsize : q.size ≠ 0)
    (hlist : q.reqList = idx :: rest) :
    ∃ t, processSqIo n s i now nvmeSuccess = some t ∧
      t.sq i = some { incSqHead q with reqList := rest } ∧ t.serving = s.serving := by
  refine ⟨enqueueFtl (takeReq s i now nvmeSuccess q idx rest) (n.poller i) ⟨q.addr, q.sqid, idx⟩,
    ?_, ?_, ?_⟩
  · simp [processSqIo, hq, hserving, hlist, hsize, sqEmpty, hne]
  · rw [enqueueFtl_sq]
    exact Function.update_self ..
  · unfold enqueueFtl
    split <;> rfl

/-- A poller that only takes commands runs out of requests when there are more commands in
the queue than requests. -/
theorem fetch_until_dry (n : QueueCfg) (now : Nat) (hq : s.sq i = some q) (hserving : s.serving i = some q.addr)
    (hring : InRing q.size q.head q.tail) (hmore : q.reqList.length < pending q) :
    ∃ t, Run (fun s a t => step? n s a = some t) s
      (List.replicate q.reqList.length (.fetch i now nvmeSuccess)) t ∧ Dry t i := by
  generalize hlist : q.reqList = l at hmore ⊢
  induction l generalizing s q with
  | nil => exact ⟨s, .nil s, q, hq, hserving, head_ne_tail_of_pending hmore, hlist⟩
  | cons idx rest ih =>
      have hne := head_ne_tail_of_pending (Nat.zero_lt_of_lt hmore)
      have hsize : q.size ≠ 0 := by
        unfold InRing at hring
        omega
      have hlt := hring.lt hsize
      obtain ⟨t, hstep, hq', hserving'⟩ := processSqIo_take n now hq hserving hne hsize hlist
      have hpend : pending { incSqHead q with reqList := rest } + 1 = pending q :=
        gap_succ_head hlt.1 hlt.2 hne
      have hmod := Nat.mod_lt (q.head + 1) (Nat.pos_of_ne_zero hsize)
      obtain ⟨u, hrun, hdry⟩ := ih hq' (by rw [hserving', hserving, incSqHead_addr])
        ⟨lt_max_of_lt_left hmod, hring.2⟩ rfl (by rw [List.length_cons] at hmore; omega)
      exact ⟨u, .cons hstep hrun, hdry⟩

/-- **The pool is never dry** in a run where the host keeps within it and no request is lost;
and where the host does not keep within it, the poller that serves the queue can take so
many of its commands that none is left. -/
theorem pool_never_dry {acts : List Act} (hrun : Run (fun s a t =>
      (Kept n s a ∧ WithinPool n s a) ∧ step? n s a = some t) .reset acts s) :
    (∀ i, ¬ Dry s i) ∧
      ∀ (i : Nat) (q : NvmeSQueue) tail t now, s.sq i = some q → s.serving i = some q.addr → tail < q.size →
        step? n s (.hostTail i tail) = some t → ¬ WithinPool n s (.hostTail i tail) →
          ∃ m u, Run (fun s a t => step? n s a = some t) t
            (List.replicate m (.fetch i now nvmeSuccess)) u ∧ Dry u i := by
  obtain ⟨hinv, hno, hpool⟩ := pool_inv hrun
  have hne : ∀ (i : Nat) (q : NvmeSQueue), s.serving i = some q.addr → i ≠ 0 := by
    intro i q hserving
    have hrange := hinv.flow.serving_range i _ hserving
    omega
  constructor
  · rintro i ⟨q, hq, hserving, htail, hlist⟩
    obtain ⟨hring, hload⟩ := hpool i q (hne i q hserving) hq
    have hcard := reqList_add_outstanding hinv hno (hne i q hserving) hq
    have hpend : pending q = 0 := by
      unfold load at hload
      rw [hlist, List.length_nil] at hcard
      omega
    have hsize : q.size ≠ 0 := by
      unfold InRing at hring
      omega
    exact htail ((gap_eq_zero_iff (hring.lt hsize).1 (hring.lt hsize).2).mp hpend)
  · rintro i q tail t now hq hserving htail hstep hout
    have hi := hne i q hserving
    obtain ⟨hring, -⟩ := hpool i q hi hq
    have hlt := hring.lt (by omega)
    have hmore : q.size < load n s { q with tail := tail } := by
      simp only [WithinPool, hq, Option.all_some, Bool.decide_and, Bool.and_eq_true,
        decide_eq_true_eq] at hout
      by_contra hle
      exact hout fun _ => ⟨htail, Nat.le_of_not_lt hle⟩
    have hcard := reqList_add_outstanding hinv hno hi hq
    have hstep' : some (s.setSq i (some { q with tail := tail })) = some t := by
      rw [← hstep, step?, hq, Option.map_some]
    obtain rfl := Option.some.inj hstep'
    have hpend : q.reqList.length < pending { q with tail := tail } := by
      have hload : load n s { q with tail := tail } =
          pending { q with tail := tail } + (outstanding n s q.addr q.sqid).card := rfl
      omega
    obtain ⟨u, hfetch, hdry⟩ := fetch_until_dry n now (i := i) (q := { q with tail := tail })
      (s := s.setSq i (some { q with tail := tail })) (by simp) hserving
      ⟨hring.1, lt_max_of_lt_left htail⟩ hpend
    exact ⟨_, u, hfetch, hdry⟩

/-- Two commands of a queue of four slots, and a third one while the second is under way. -/
theorem pool_never_dry_small :
    ∃ s q, Run (fun s a t => (Kept onePair s a ∧ WithinPool onePair s a) ∧ step? onePair s a = some t)
        .reset (startUp ++ [.hostTail 1 2, .enter 1, .fetch 1 5 nvmeSuccess, .fetch 1 5 nvmeSuccess,
          .leave 1, .ftl 1 10, .collect 1, .complete 1 ⟨3, 1, 0⟩ 20, .hostTail 1 3, .enter 1]) s ∧
      s.sq 1 = some q ∧ q.reqList = [2, 3, 0] ∧ ¬ Dry s 1 := by
  have hends : (exec (allowed (fun s a => Kept onePair s a ∧ WithinPool onePair s a) (step? onePair))
      (startUp ++ [.hostTail 1 2, .enter 1, .fetch 1 5 nvmeSuccess, .fetch 1 5 nvmeSuccess,
        .leave 1, .ftl 1 10, .collect 1, .complete 1 ⟨3, 1, 0⟩ 20, .hostTail 1 3, .enter 1])
      .reset).map (fun s => (s.sq 1).map (·.reqList)) = some (some [2, 3, 0]) := by decide +kernel
  obtain ⟨s, hs, hlist⟩ := Option.map_eq_some_iff.mp hends
  obtain ⟨q, hq, hlist⟩ := Option.map_eq_some_iff.mp hlist
  have hrun := run_of_exec_allowed hs
  exact ⟨s, q, hrun, hq, hlist, (pool_never_dry hrun).1 1⟩

/-- The host fills a queue of four slots, is given them back when the commands are taken, and
fills it again when one command is completed: the second of the new commands is the last for
which there is a request. -/
theorem pool_runs_dry :
    ∃ s, Run (fun s a t => (Kept onePair s a ∧ FollowsRing s a) ∧ step? onePair s a = some t) .reset
        (startUp ++ [.hostTail 1 3, .enter 1, .fetch 1 5 nvmeSuccess, .fetch 1 5 nvmeSuccess,
          .fetch 1 5 nvmeSuccess, .leave 1, .ftl 1 10, .collect 1, .complete 1 ⟨3, 1, 0⟩ 20,
          .notify 1, .hostTail 1 2, .enter 1, .fetch 1 30 nvmeSuccess, .fetch 1 30 nvmeSuccess]) s ∧
      Dry s 1 := by
  have hends : (exec (allowed (fun s a => Kept onePair s a ∧ FollowsRing s a) (step? onePair))
      (startUp ++ [.hostTail 1 3, .enter 1, .fetch 1 5 nvmeSuccess, .fetch 1 5 nvmeSuccess,
        .fetch 1 5 nvmeSuccess, .leave 1, .ftl 1 10, .collect 1, .complete 1 ⟨3, 1, 0⟩ 20,
        .notify 1, .hostTail 1 2, .enter 1, .fetch 1 30 nvmeSuccess, .fetch 1 30 nvmeSuccess])
      .reset).map (fun s => (s.sq 1).map fun q =>
        decide (s.serving 1 = some q.addr ∧ q.head ≠ q.tail ∧ q.reqList = [])) = some (some true) := by
    decide +kernel
  obtain ⟨s, hs, hdry⟩ := Option.map_eq_some_iff.mp hends
  obtain ⟨q, hq, hdry⟩ := Option.map_eq_some_iff.mp hdry
  exact ⟨s, run_of_exec_allowed hs, q, hq, of_decide_eq_true hdry⟩

end Femu.Queue
