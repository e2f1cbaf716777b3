import Femu.Rte.Queue

/-!
# Femu.Rte.Progress

When a call on the ring fails, and why it always ends. A call is refused only where the
queue cannot serve it (`ring_refusals`). A thread in the `while` loop of `update_tail` waits for
threads with earlier claims, of which the first one can always go on: it needs
as many steps as it has pointers and two more, whatever the others do, so the claims of an
end are always given back (`ring_progress`).
-/

namespace Femu.Rte

open Lib

namespace RingSys

variable {T α : Type} {s s' : RingSys T α} {t : T}

/-- How many more slots of an end can be claimed. -/
def room (s : RingSys T α) (d : Side) : Nat := s.limit d - s.headCount d

/-! ## refusals -/

/-- A call that asks for something is refused only if there is not enough room for it: less
than it asks for where it wants all or nothing, and none at all otherwise. -/
def Refused (s : RingSys T α) (c : RingCall α) : Prop :=
  match c.behavior with
  | .queueFixed => s.room c.side < c.n.toNat
  | .queueVariable => s.room c.side = 0

/-- A call goes on with all that it asks for, or with what there is at least. -/
def Granted (s : RingSys T α) (m : RingMove α) : Prop :=
  m.n.toNat ≤ m.call.n.toNat ∧
    match m.call.behavior with
    | .queueFixed => m.n = m.call.n
    | .queueVariable => min m.call.n.toNat (s.room m.call.side) ≤ m.n.toNat

/-- The number of pointers that a call gets. -/
theorem toNat_clamp (b : QueueBehavior) (n entries : UInt32) : (b.clamp n entries).toNat =
    if n.toNat ≤ entries.toNat then n.toNat else
      match b with
      | .queueFixed => 0
      | .queueVariable => entries.toNat := by
  unfold QueueBehavior.clamp
  simp only [gt_iff_lt, UInt32.lt_iff_toNat_lt]
  split
  case isTrue hlt =>
    rw [if_neg (by omega)]
    cases b <;> rfl
  case isFalse hle => rw [if_pos (by omega)]

/-- What a thread sees of the other end is at least what there is. -/
theorem RingInv.room_le (h : s.RingInv) {d : Side} {oldHead : UInt32} {ticket : Nat}
    (hread : s.Reading d oldHead ticket)
    (htime : s.headCount d + s.r.capacity.toNat < ticket + 2 ^ 32) :
    s.room d ≤ (s.r.entries d oldHead).toNat ∧
      ((s.r.ht d).single = true → (s.r.entries d oldHead).toNat = s.room d) := by
  have hle := hread.le
  rw [(h.entries_eq hread htime).1, room]
  refine ⟨by omega, fun hs => ?_⟩
  rw [hread.single hs]

theorem room_cons (h : s.RingInv) : s.room .cons = s.queue.length := (length_queue h).symm

variable [DecidableEq T] {r : RteRing α} {count flags : UInt32} {acts : List (RingAct T α)}

/-- **Refusals**: what a call finds when it reads the tail of the other end. An end that is
single knows exactly what there is. -/
theorem ring_refusals (hr : r.Fresh count flags) (hrun : Run ProperStep (start r) acts s)
    (hstep : s.ProperStep (.readTail t) s') :
    s.room .cons = s.queue.length ∧
      (∀ c k, s'.pc t = .refused c k → c.n ≠ 0 → s.Refused c) ∧
      (∀ m, s'.pc t = .moving m → s.Granted m ∧
        ((s.r.ht m.call.side).single = true → ¬ s.Refused m.call)) := by
  have h := run_ringInv hr hrun
  obtain ⟨⟨htime, -⟩, hstep⟩ := hstep
  refine ⟨room_cons h, ?_⟩
  obtain ⟨c, oldHead, ticket, hpc, hcase⟩ := hstep.readTail
  have htime := htime _ (by rw [hpc]; rfl)
  have hread := h.pcOk t
  rw [hpc] at hread
  obtain ⟨hroom, hsingle⟩ := h.room_le hread htime
  have hn := toNat_clamp c.behavior c.n (s.r.entries c.side oldHead)
  rcases hcase with ⟨h0, rfl⟩ | ⟨h0, rfl⟩
  · refine ⟨fun c' k hpc' hask => ?_, fun m hpc' => ?_⟩
    · rw [goto_pc, if_pos rfl] at hpc'
      cases hpc'
      have hask' : c.n.toNat ≠ 0 := fun hz => hask (UInt32.toNat_inj.mp hz)
      rw [h0, UInt32.toNat_zero] at hn
      unfold Refused
      cases hb : c.behavior <;> rw [hb] at hn <;> simp only at hn ⊢ <;> split at hn <;> omega
    · rw [goto_pc, if_pos rfl] at hpc'
      cases hpc'
  · refine ⟨fun c' k hpc' => ?_, fun m hpc' => ?_⟩
    · rw [goto_pc, if_pos rfl] at hpc'
      cases hpc'
    · rw [goto_pc, if_pos rfl] at hpc'
      cases hpc'
      have h0' : (c.behavior.clamp c.n (s.r.entries c.side oldHead)).toNat ≠ 0 :=
        fun hz => h0 (UInt32.toNat_inj.mp hz)
      unfold Granted Refused
      rw [← UInt32.toNat_inj]
      refine ⟨⟨(c.behavior.clamp_le _ _).1, ?_⟩, fun hs => ?_⟩
      · cases hb : c.behavior <;> rw [hb] at hn h0' <;> simp only at hn ⊢ <;> split at hn <;> omega
      · have hsame := hsingle hs
        cases hb : c.behavior <;> rw [hb] at hn h0' <;> simp only at hn ⊢ <;> split at hn <;> omega

/-- A poller has enqueued two pointers into a ring of three slots. `ftl_thread` has claimed the
first of them, but has not given its slot back, when another poller asks for two slots. -/
def pollersAtFull : List (RingAct RingUser Nat) :=
  [.call .poller1 (.enqueue [10, 11] .queueFixed), .readHead .poller1, .readTail .poller1,
    .moveHead .poller1, .copy .poller1, .copy .poller1, .seeTail .poller1, .storeTail .poller1,
    .call .poller2 (.enqueue [20, 21] .queueFixed), .call .ftl (.dequeue 1 .queueVariable),
    .readHead .ftl, .readTail .ftl, .readHead .poller2, .moveHead .ftl, .copy .ftl]

theorem ring_refusals_small :
    ∃ r s s', rteRingCreate (fun _ => 0) 4 ringFScDeq = some r ∧
      Run ProperStep (start r) pollersAtFull s ∧ s.ProperStep (.readTail .poller2) s' ∧
      s'.pc .poller2 = .refused (.enqueue [20, 21] .queueFixed) 1 ∧
      s.Refused (.enqueue [20, 21] .queueFixed) := by
  have hends : ((rteRingCreate (fun _ => 0) 4 ringFScDeq).bind fun r =>
      (exec (allowed (fun s a => s.InTime a ∧ s.Alone a) step?) pollersAtFull (start r)).bind
        fun s => (allowed (fun s a => s.InTime a ∧ s.Alone a) step? s (.readTail .poller2)).map
          (·.pc .poller2)) =
      some (.refused (.enqueue [20, 21] .queueFixed) 1) := by decide +kernel
  obtain ⟨r, hr, hends⟩ := Option.bind_eq_some_iff.mp hends
  obtain ⟨s, hs, hends⟩ := Option.bind_eq_some_iff.mp hends
  obtain ⟨s', hs', hpc⟩ := Option.map_eq_some_iff.mp hends
  have hcreated : ∃ r : RteRing Nat, rteRingCreate (fun _ => 0) 4 ringFScDeq = some r ∧
      r.Fresh 4 ringFScDeq := create_fresh ⟨2, by decide, rfl⟩
  obtain ⟨r', hr', hfresh⟩ := hcreated
  obtain rfl : r' = r := Option.some.inj (hr'.symm.trans hr)
  have hrun : Run ProperStep (start r') pollersAtFull s := run_of_exec_allowed hs
  have hstep : s.ProperStep (.readTail .poller2) s' := of_allowed hs'
  exact ⟨r', s, s', hr, hrun, hstep, hpc,
    (ring_refusals hfresh hrun hstep).2.1 _ _ hpc (by decide)⟩

/-! ## progress -/

omit [DecidableEq T] in
/-- How many steps a thread has left before it gives its claim back. -/
def todo : RingPc α → Nat
  | .copying m i _ => m.n.toNat - i + 2
  | .waited _ _ => 1
  | _ => 0

/-- The tails only grow. -/
theorem Step.tail_le {act : RingAct T α} (h : s.Step act s') (d : Side) :
    s.tailCount d ≤ s'.tailCount d := by
  cases act with
  | call t c =>
      rw [h.call.2, goto_tailCount]
  | readHead t =>
      obtain ⟨c, -, rfl⟩ := h.readHead
      rw [goto_tailCount]
  | readTail t =>
      obtain ⟨c, oldHead, ticket, -, ⟨-, rfl⟩ | ⟨-, rfl⟩⟩ := h.readTail <;> rw [goto_tailCount]
  | moveHead t =>
      obtain ⟨m, -, ⟨-, rfl⟩ | rfl⟩ := h.moveHead
      · rw [takeSlots_tailCount]
      · rw [goto_tailCount]
  | copy t =>
      obtain ⟨m, i, got, p, -, -, ⟨objTable, b, a, -, -, rfl⟩ | ⟨n, b, -, rfl⟩⟩ := h.copy
      · cases d <;> exact Nat.le_refl _
      · rw [goto_tailCount]
  | seeTail t =>
      obtain ⟨m, i, got, -, -, -, rfl⟩ := h.seeTail
      rw [goto_tailCount]
  | storeTail t =>
      obtain ⟨m, got, -, rfl⟩ := h.storeTail
      rw [giveSlots_tailCount]
      split <;> omega
  | ret t => rw [h.ret.2, goto_tailCount]
  | count t => rw [h.count.2, goto_tailCount]
  | readConsTail t =>
      obtain ⟨prodTail, -, rfl⟩ := h.readConsTail
      rw [goto_tailCount]

omit [DecidableEq T] in
/-- A thread with a claim is copying or about to store the tail. -/
theorem of_claim {p : RingPc α} {d : Side} {k n : Nat} (h : p.claim d = some (k, n)) :
    ∃ m, m.call.side = d ∧ m.ticket = k ∧ m.n.toNat = n ∧
      ((∃ i got, p = .copying m i got) ∨ ∃ got, p = .waited m got) := by
  have hclaim : ∀ m : RingMove α, (if m.call.side = d then some (m.ticket, m.n.toNat) else none) =
      some (k, n) → m.call.side = d ∧ m.ticket = k ∧ m.n.toNat = n := by
    intro m hm
    split at hm
    case isTrue hd =>
      cases hm
      exact ⟨hd, rfl, rfl⟩
    case isFalse => cases hm
  cases p with
  | copying m i got =>
      obtain ⟨hd, hk, hn⟩ := hclaim m h
      exact ⟨m, hd, hk, hn, .inl ⟨i, got, rfl⟩⟩
  | waited m got =>
      obtain ⟨hd, hk, hn⟩ := hclaim m h
      exact ⟨m, hd, hk, hn, .inr ⟨got, rfl⟩⟩
  | _ => cases h

/-- A claim is left alone by the other threads, and brought closer to its end by its own. -/
theorem ProperStep.todo {act : RingAct T α} (hstep : s.ProperStep act s') (h : s.RingInv)
    {d : Side} {k n : Nat} (hclaim : (s.pc t).claim d = some (k, n)) :
    ((s'.pc t).claim d = some (k, n) ∧
        RingSys.todo (s'.pc t) + (if act.actor = t then 1 else 0) ≤ RingSys.todo (s.pc t)) ∨
      k + n ≤ s'.tailCount d := by
  obtain ⟨-, hstep⟩ := hstep
  by_cases hact : act.actor = t
  swap
  · rw [if_neg hact, hstep.frame.pc t (Ne.symm hact)]
    exact .inl ⟨hclaim, Nat.le_refl _⟩
  rw [if_pos hact]
  obtain ⟨m, rfl, rfl, rfl, hat⟩ := of_claim hclaim
  have hok := h.pcOk t
  cases act with
  | copy u =>
      obtain rfl : u = t := hact
      obtain ⟨m', i, got, p, hpc, hp, hcase⟩ := hstep.copy
      rw [hpc] at hat hok
      obtain ⟨i', got', heq⟩ | ⟨got', heq⟩ := hat <;> cases heq
      obtain ⟨hi, -⟩ := h.slot_eq hok.2 (h.claim_le hpc) hp
      refine .inl ?_
      obtain ⟨objTable, b, a, -, -, rfl⟩ | ⟨n, b, -, rfl⟩ := hcase <;>
        rw [goto_pc, if_pos rfl, hpc, RingSys.todo, RingSys.todo] <;>
        exact ⟨if_pos rfl, by omega⟩
  | seeTail u =>
      obtain rfl : u = t := hact
      obtain ⟨m', i, got, hpc, -, -, rfl⟩ := hstep.seeTail
      rw [hpc] at hat
      obtain ⟨i', got', heq⟩ | ⟨got', heq⟩ := hat <;> cases heq
      rw [goto_pc, if_pos rfl, hpc, RingSys.todo, RingSys.todo]
      exact .inl ⟨if_pos rfl, by omega⟩
  | storeTail u =>
      obtain rfl : u = t := hact
      obtain ⟨m', got, hpc, rfl⟩ := hstep.storeTail
      rw [hpc] at hat hok
      obtain ⟨i', got', heq⟩ | ⟨got', heq⟩ := hat <;> cases heq
      right
      rw [giveSlots_tailCount, if_pos rfl, hok.2]
  | call u c =>
      obtain rfl : u = t := hact
      obtain ⟨hpc | ⟨k, hpc⟩, -⟩ := hstep.call <;> rw [hpc] at hclaim <;> cases hclaim
  | readHead u =>
      obtain rfl : u = t := hact
      obtain ⟨c, hpc, -⟩ := hstep.readHead
      rw [hpc] at hclaim
      cases hclaim
  | readTail u =>
      obtain rfl : u = t := hact
      obtain ⟨c, oldHead, ticket, hpc, -⟩ := hstep.readTail
      rw [hpc] at hclaim
      cases hclaim
  | moveHead u =>
      obtain rfl : u = t := hact
      obtain ⟨m', hpc, -⟩ := hstep.moveHead
      rw [hpc] at hclaim
      cases hclaim
  | ret u =>
      obtain rfl : u = t := hact
      obtain ⟨⟨m', got, hpc⟩ | ⟨c, k, hpc⟩ | ⟨k, hpc⟩, -⟩ := hstep.ret <;> rw [hpc] at hclaim <;>
        cases hclaim
  | count u =>
      obtain rfl : u = t := hact
      obtain ⟨hpc | ⟨k, hpc⟩, -⟩ := hstep.count <;> rw [hpc] at hclaim <;> cases hclaim
  | readConsTail u =>
      obtain rfl : u = t := hact
      obtain ⟨prodTail, hpc, -⟩ := hstep.readConsTail
      rw [hpc] at hclaim
      cases hclaim

/-- Over a run a claim is brought to its end or has as many steps less to go as its thread
has taken. -/
theorem run_todo {acts : List (RingAct T α)} (hrun : Run ProperStep s acts s') (h : s.RingInv)
    {d : Side} {k n : Nat} (hclaim : (s.pc t).claim d = some (k, n)) :
    ((s'.pc t).claim d = some (k, n) ∧
        RingSys.todo (s'.pc t) + acts.countP (·.actor = t) ≤ RingSys.todo (s.pc t)) ∨
      k + n ≤ s'.tailCount d := by
  induction hrun with
  | nil s => exact .inl ⟨hclaim, Nat.le_refl _⟩
  | @cons s u s' act acts head tail ih =>
      rcases head.todo h hclaim with ⟨hkeep, hless⟩ | hdone
      · rcases ih (head.inv h) hkeep with ⟨hkeep', hless'⟩ | hdone
        · refine .inl ⟨hkeep', ?_⟩
          simp only [List.countP_cons, decide_eq_true_eq]
          omega
        · exact .inr hdone
      · right
        refine Nat.le_trans hdone ?_
        exact Run.invariant (I := fun v => u.tailCount d ≤ v.tailCount d)
          (fun _ _ _ hv hstep => Nat.le_trans hv (hstep.2.tail_le d)) (Nat.le_refl _) tail

/-- A compare-and-set with the current head succeeds. -/
theorem RingInv.moves (h : s.RingInv) {m : RingMove α} (hpc : s.pc t = .moving m)
    (hticket : m.ticket = s.headCount m.call.side) : s.Step (.moveHead t) (s.takeSlots t m) := by
  have hok := h.pcOk t
  rw [hpc] at hok
  obtain ⟨hread, -, -⟩ := hok
  have hcas : (s.r.ht m.call.side).head = m.oldHead := by rw [h.head, hread.oldHead_eq, hticket]
  simp only [Step, step?, hpc, hcas, or_true, if_true]

/-- The thread with the first claim of an end can always go on. -/
theorem RingInv.first_moves (h : s.RingInv) {d : Side} {n : Nat}
    (hclaim : (s.pc t).claim d = some (s.tailCount d, n)) :
    ∃ act s', act.actor = t ∧ s.ProperStep act s' ∧ ∀ e, s'.headCount e = s.headCount e := by
  obtain ⟨m, rfl, hk, rfl, ⟨i, got, hpc⟩ | ⟨got, hpc⟩⟩ := of_claim hclaim
  · have hok := h.pcOk t
    rw [hpc] at hok
    obtain ⟨hi, hcopied⟩ := hok
    have hn := h.claim_le hpc
    have hslots := h.wf.slots_eq m.ticket hn
    rw [← hcopied.oldHead_eq] at hslots
    rcases Nat.lt_or_eq_of_le hi with hlt | rfl
    · have hp : (s.r.slots m.oldHead m.n)[i]? = some ((m.ticket + i) % s.r.size.toNat) := by
        rw [hslots, List.getElem?_map, List.getElem?_range hlt, Option.map_some]
      cases hcall : m.call with
      | enqueue objTable b =>
          have htable : i < objTable.length :=
            Nat.lt_of_lt_of_le hlt (hcopied.sized.le_table hcall)
          refine ⟨.copy t, (s.store ((m.ticket + i) % s.r.size.toNat) objTable[i]).goto t
            (.copying m (i + 1) got), rfl, ⟨⟨trivial, trivial⟩, ?_⟩, ?_⟩
          · simp only [Step, step?, hpc, hp, hcall, List.getElem?_eq_getElem htable, Option.map_some]
          · intro e
            cases e <;> rfl
      | dequeue n b =>
          refine ⟨.copy t, s.goto t (.copying m (i + 1)
            (got ++ [s.r.ring ((m.ticket + i) % s.r.size.toNat)])), rfl,
            ⟨⟨trivial, trivial⟩, ?_⟩, fun e => goto_headCount e⟩
          simp only [Step, step?, hpc, hp, hcall]
    · refine ⟨.seeTail t, s.goto t (.waited m got), rfl, ⟨⟨trivial, trivial⟩, ?_⟩,
        fun e => goto_headCount e⟩
      have hseen : (s.r.ht m.call.side).tail = m.oldHead := by
        rw [h.tail, hcopied.oldHead_eq, hk]
      have hlen : (s.r.slots m.oldHead m.n).length ≤ m.n.toNat := by
        rw [hslots, List.length_map, List.length_range]
      simp only [Step, step?, hpc, hlen, hseen, or_true, and_self, if_true]
  · exact ⟨.storeTail t, s.giveSlots t m got, rfl,
      ⟨⟨trivial, trivial⟩, by simp only [Step, step?, hpc]⟩, fun e => giveSlots_headCount e⟩

/-- The thread with the first claim of an end can bring it to its end alone. -/
theorem RingInv.first_ends (h : s.RingInv) {d : Side} {n : Nat}
    (hclaim : (s.pc t).claim d = some (s.tailCount d, n)) :
    ∃ acts s', Run ProperStep s acts s' ∧ s'.RingInv ∧ s.tailCount d + n ≤ s'.tailCount d ∧
      (∀ e, s.tailCount e ≤ s'.tailCount e) ∧ ∀ e, s'.headCount e = s.headCount e := by
  induction hk : todo (s.pc t) using Nat.strong_induction_on generalizing s with
  | _ k ih =>
      obtain ⟨act, s₁, rfl, hstep, hhead⟩ := h.first_moves hclaim
      have hgrow := hstep.2.tail_le
      have h₁ := hstep.inv h
      rcases hstep.todo h hclaim with ⟨hkeep, hless⟩ | hdone
      · rw [if_pos rfl] at hless
        have hsame : s₁.tailCount d = s.tailCount d :=
          Nat.le_antisymm ((h₁.claims d).inside _ _ _ hkeep).1 (hgrow d)
        rw [← hsame] at hkeep ⊢
        obtain ⟨acts, s', hrun, h', hdone, hgrow', hhead'⟩ := ih _ (by omega) h₁ hkeep rfl
        exact ⟨act :: acts, s', .cons hstep hrun, h', hdone,
          fun e => Nat.le_trans (hgrow e) (hgrow' e), fun e => (hhead' e).trans (hhead e)⟩
      · exact ⟨[act], s₁, .cons hstep (.nil _), h₁, hdone, hgrow, hhead⟩

/-- The threads can bring all claims to their end, without a new one. -/
theorem RingInv.drain (h : s.RingInv) : ∃ acts s', Run ProperStep s acts s' ∧
    ∀ d, s'.tailCount d = s'.headCount d ∧ s'.headCount d = s.headCount d := by
  induction hk : (s.headCount .prod - s.tailCount .prod) + (s.headCount .cons - s.tailCount .cons)
    using Nat.strong_induction_on generalizing s with
  | _ k ih =>
      by_cases hbusy : ∃ d, s.tailCount d < s.headCount d
      · obtain ⟨d, hlt⟩ := hbusy
        obtain ⟨t, n, hclaim⟩ := (h.claims d).exists_first hlt
        have hpos := (h.claims d).pos t _ _ hclaim
        obtain ⟨acts, s₁, hrun, h₁, hdone, hgrow, hhead⟩ := h.first_ends hclaim
        have hp := hgrow .prod
        have hc := hgrow .cons
        have hless : (s₁.headCount .prod - s₁.tailCount .prod) +
            (s₁.headCount .cons - s₁.tailCount .cons) < k := by
          rw [hhead, hhead]
          cases d <;> omega
        obtain ⟨acts', s', hrun', hend⟩ := ih _ hless h₁ rfl
        exact ⟨acts ++ acts', s', hrun.append hrun', fun e => ⟨(hend e).1, (hend e).2.trans (hhead e)⟩⟩
      · refine ⟨[], s, .nil s, fun d => ⟨?_, rfl⟩⟩
        exact Nat.le_antisymm (h.tail_le d) (Nat.not_lt.mp fun hlt => hbusy ⟨d, hlt⟩)

/-- **Progress**: a compare-and-set fails only where another one has succeeded; the thread with
the first claim of an end is never held up, and is done after as many of its own steps as it has
pointers and two more; and the claims that there are can all be brought to their end. -/
theorem ring_progress {r : RteRing α} {count flags : UInt32} (hr : r.Fresh count flags)
    {acts : List (RingAct T α)} (hrun : Run ProperStep (start r) acts s) :
    (∀ t m s', s.pc t = .moving m → s.ProperStep (.moveHead t) s' → s'.pc t = .entering m.call →
      m.ticket < s.headCount m.call.side) ∧
    (∀ d, s.tailCount d < s.headCount d →
      ∃ t n, (s.pc t).claim d = some (s.tailCount d, n)) ∧
    (∀ t d n, (s.pc t).claim d = some (s.tailCount d, n) →
      (∃ act s', act.actor = t ∧ s.ProperStep act s') ∧
      ∀ acts' s', Run ProperStep s acts' s' → n + 2 ≤ acts'.countP (·.actor = t) →
        s.tailCount d + n ≤ s'.tailCount d) ∧
    ∃ acts' s', Run ProperStep s acts' s' ∧
      ∀ d, s'.tailCount d = s'.headCount d ∧ s'.headCount d = s.headCount d := by
  have h := run_ringInv hr hrun
  refine ⟨fun t m s' hpc hstep hback => ?_, fun d hlt => (h.claims d).exists_first hlt,
    fun t d n hclaim => ⟨?_, fun acts' s' hrun' hcount => ?_⟩, h.drain⟩
  · have hok := h.pcOk t
    rw [hpc] at hok
    obtain ⟨hread, -, -⟩ := hok
    by_contra hle
    have heq : m.ticket = s.headCount m.call.side :=
      Nat.le_antisymm hread.le (Nat.not_lt.mp hle)
    obtain rfl : s.takeSlots t m = s' := Option.some.inj ((h.moves hpc heq).symm.trans hstep.2)
    rw [takeSlots_pc, if_pos rfl] at hback
    cases hback
  · obtain ⟨act, s', hact, hstep, -⟩ := h.first_moves hclaim
    exact ⟨act, s', hact, hstep⟩
  · rcases run_todo hrun' h hclaim with ⟨hkeep, hless⟩ | hdone
    · obtain ⟨m, -, -, rfl, ⟨i, got, hpc⟩ | ⟨got, hpc⟩⟩ := of_claim hclaim <;>
        obtain ⟨m', -, -, -, ⟨i', got', hpc'⟩ | ⟨got', hpc'⟩⟩ := of_claim hkeep <;>
        rw [hpc, hpc', todo, todo] at hless <;> omega
    · exact hdone

/-- A poller has stored its pointer while the claim before its own is still being copied. -/
theorem ring_progress_small :
    ∃ r s, femuRingCreate (fun _ => 0) .mpSc femuMaxInfReqs = some r ∧
      Run ProperStep (start r) (pollersAndFtl.take 12) s ∧ s.step? (.seeTail .poller2) = none ∧
      ∃ acts s', Run ProperStep s acts s' ∧
        ∀ d, s'.tailCount d = s'.headCount d ∧ s'.headCount d = s.headCount d := by
  have hends : ((femuRingCreate (fun _ => 0) .mpSc femuMaxInfReqs).bind fun r =>
      (exec (allowed (fun s a => s.InTime a ∧ s.Alone a) step?) (pollersAndFtl.take 12)
        (start r)).map fun s => (s.step? (.seeTail .poller2)).isNone) = some true := by decide +kernel
  obtain ⟨r, hr, hends⟩ := Option.bind_eq_some_iff.mp hends
  obtain ⟨s, hs, hnone⟩ := Option.map_eq_some_iff.mp hends
  obtain ⟨r', hr', hfresh⟩ := femuRing_fresh (fun _ => 0) .mpSc
  obtain rfl : r' = r := Option.some.inj (hr'.symm.trans hr)
  have hrun : Run ProperStep (start r') (pollersAndFtl.take 12) s := run_of_exec_allowed hs
  exact ⟨r', s, hr, hrun, Option.isNone_iff_eq_none.mp hnone, (ring_progress hfresh hrun).2.2.2⟩

end RingSys

end Femu.Rte
