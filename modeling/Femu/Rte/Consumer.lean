import Femu.Rte.Progress

/-!
# Femu.Rte.Consumer

`ftl_thread` and `nvme_process_cq_cpl` look at `femu_ring_count` before they dequeue. A thread
that is the only consumer of a ring gets as many pointers as it has counted
(`counted_dequeue`): between the two calls the producers can only add to them, and no
thread holds up its call.
-/

namespace Femu.Rte

open Lib

/-- `femu_ring_enqueue`. -/
def femuRingEnqueue {α : Type} (objs : List α) : RingCall α := .enqueue objs .queueFixed

/-- `femu_ring_dequeue`. -/
def femuRingDequeue {α : Type} (count : UInt64) : RingCall α :=
  .dequeue count.toUInt32 .queueVariable

namespace RingSys

variable {T α : Type} [DecidableEq T] {s s' : RingSys T α} {t : T}

/-- Nobody but `t` calls for pointers. -/
def Sole (t : T) : RingAct T α → Prop
  | .call u c => c.side = .cons → u = t
  | _ => True

instance (t : T) : DecidablePred (Sole t : RingAct T α → Prop)
  | .call _ _ => inferInstanceAs (Decidable (_ → _))
  | .readHead _ | .readTail _ | .moveHead _ | .copy _ | .seeTail _ | .storeTail _ | .ret _
  | .count _ | .readConsTail _ => inferInstanceAs (Decidable True)

/-- A step of threads of which only `t` dequeues. -/
def SoleStep (t : T) (s : RingSys T α) (act : RingAct T α) (s' : RingSys T α) : Prop :=
  s.ProperStep act s' ∧ Sole t act

/-- What is known of the only consumer. -/
structure Consuming (t : T) (s : RingSys T α) : Prop where
  inv : s.RingInv
  others : ∀ u, u ≠ t → (s.pc u).side? ≠ some .cons
  counting : ∀ p, s.pc t = .counting p → ∃ q, p = .ofNat q ∧ s.claimed ≤ q ∧ q ≤ s.published
  counted : ∀ k, s.pc t = .counted k → s.claimed + k.toNat ≤ s.published

/-! ## steps -/

/-- A thread comes to use an end by a call only. -/
theorem Step.side {act : RingAct T α} (h : s.Step act s') {d : Side}
    (hside : (s'.pc act.actor).side? = some d) :
    (s.pc act.actor).side? = some d ∨ ∃ c, act = .call act.actor c ∧ c.side = d := by
  cases act with
  | call t c =>
      obtain ⟨-, rfl⟩ := h.call
      rw [RingAct.actor, goto_pc, if_pos rfl] at hside
      exact .inr ⟨c, rfl, Option.some.inj hside⟩
  | readHead t =>
      obtain ⟨c, hpc, rfl⟩ := h.readHead
      rw [RingAct.actor, goto_pc, if_pos rfl] at hside
      exact .inl (by rw [RingAct.actor, hpc]; exact hside)
  | readTail t =>
      obtain ⟨c, oldHead, ticket, hpc, ⟨-, rfl⟩ | ⟨-, rfl⟩⟩ := h.readTail <;>
        rw [RingAct.actor, goto_pc, if_pos rfl] at hside
      · cases hside
      · exact .inl (by rw [RingAct.actor, hpc]; exact hside)
  | moveHead t =>
      obtain ⟨m, hpc, ⟨-, rfl⟩ | rfl⟩ := h.moveHead
      · rw [RingAct.actor, takeSlots_pc, if_pos rfl] at hside
        exact .inl (by rw [RingAct.actor, hpc]; exact hside)
      · rw [RingAct.actor, goto_pc, if_pos rfl] at hside
        exact .inl (by rw [RingAct.actor, hpc]; exact hside)
  | copy t =>
      obtain ⟨m, i, got, p, hpc, -, ⟨objTable, b, a, -, -, rfl⟩ | ⟨n, b, -, rfl⟩⟩ := h.copy <;>
        rw [RingAct.actor, goto_pc, if_pos rfl] at hside <;>
        exact .inl (by rw [RingAct.actor, hpc]; exact hside)
  | seeTail t =>
      obtain ⟨m, i, got, hpc, -, -, rfl⟩ := h.seeTail
      rw [RingAct.actor, goto_pc, if_pos rfl] at hside
      exact .inl (by rw [RingAct.actor, hpc]; exact hside)
  | storeTail t =>
      obtain ⟨m, got, -, rfl⟩ := h.storeTail
      rw [RingAct.actor, giveSlots_pc, if_pos rfl] at hside
      cases hside
  | ret t =>
      obtain ⟨-, rfl⟩ := h.ret
      rw [RingAct.actor, goto_pc, if_pos rfl] at hside
      cases hside
  | count t =>
      obtain ⟨-, rfl⟩ := h.count
      rw [RingAct.actor, goto_pc, if_pos rfl] at hside
      cases hside
  | readConsTail t =>
      obtain ⟨prodTail, -, rfl⟩ := h.readConsTail
      rw [RingAct.actor, goto_pc, if_pos rfl] at hside
      cases hside

/-- Only a dequeue that moves the head claims pointers. -/
theorem Step.claimed_eq {act : RingAct T α} (h : s.Step act s')
    (hside : ∀ m, s.pc act.actor = .moving m → m.call.side ≠ .cons) : s'.claimed = s.claimed := by
  cases act with
  | moveHead t =>
      obtain ⟨m, hpc, ⟨-, rfl⟩ | rfl⟩ := h.moveHead
      · have hprod := hside m hpc
        unfold takeSlots
        cases hcall : m.call with
        | enqueue => rfl
        | dequeue => exact absurd (by rw [hcall]; rfl) hprod
      · rfl
  | storeTail t =>
      obtain ⟨m, got, hpc, rfl⟩ := h.storeTail
      exact giveSlots_headCount .cons
  | call t c => rw [h.call.2]; rfl
  | readHead t =>
      obtain ⟨c, -, rfl⟩ := h.readHead
      rfl
  | readTail t =>
      obtain ⟨c, oldHead, ticket, -, ⟨-, rfl⟩ | ⟨-, rfl⟩⟩ := h.readTail <;> rfl
  | copy t =>
      obtain ⟨m, i, got, p, -, -, ⟨objTable, b, a, -, -, rfl⟩ | ⟨n, b, -, rfl⟩⟩ := h.copy <;> rfl
  | seeTail t =>
      obtain ⟨m, i, got, -, -, -, rfl⟩ := h.seeTail
      rfl
  | ret t => rw [h.ret.2]; rfl
  | count t => rw [h.count.2]; rfl
  | readConsTail t =>
      obtain ⟨prodTail, -, rfl⟩ := h.readConsTail
      rfl

/-- Where the consumer has no claim, all that was claimed has been given back. -/
theorem Consuming.released_eq (h : s.Consuming t) (hmine : (s.pc t).claim .cons = none) :
    s.released = s.claimed := by
  refine (h.inv.claims .cons).eq_of_none fun u => ?_
  by_cases hut : u = t
  · rw [hut, hmine]
  · have hside := h.others u hut
    cases hpc : s.pc u <;> rw [hpc] at hside
    case copying m i got => exact if_neg fun heq => hside (congrArg some heq)
    case waited m got => exact if_neg fun heq => hside (congrArg some heq)
    all_goals rfl

/-- A step of a producer adds to what the consumer can get. -/
theorem Consuming.claimed_eq (h : s.Consuming t) {act : RingAct T α} (hstep : s.Step act s')
    (hact : act.actor ≠ t) : s'.claimed = s.claimed := by
  refine hstep.claimed_eq fun m hpc hside => h.others _ hact ?_
  rw [hpc]
  exact congrArg some hside

/-- The results of `rte_ring_count`, half way and at its end. -/
theorem Step.counts {act : RingAct T α} (h : s.Step act s') :
    (∀ p, s'.pc act.actor = .counting p →
      p = s.r.prod.tail ∧ s' = s.goto act.actor (.counting p)) ∧
    (∀ k, s'.pc act.actor = .counted k → ∃ p, s.pc act.actor = .counting p ∧
      s' = s.goto act.actor (.counted k) ∧
      k.toNat ≤ ((p - s.r.cons.tail) &&& s.r.mask).toNat) := by
  cases act with
  | count t =>
      obtain ⟨-, rfl⟩ := h.count
      rw [RingAct.actor, goto_pc, if_pos rfl]
      refine ⟨fun p hp => ?_, fun k hk => by cases hk⟩
      cases hp
      exact ⟨rfl, rfl⟩
  | readConsTail t =>
      obtain ⟨p, hpc, rfl⟩ := h.readConsTail
      rw [RingAct.actor, goto_pc, if_pos rfl]
      refine ⟨fun p hp => (by cases hp), fun k hk => ?_⟩
      cases hk
      refine ⟨p, hpc, rfl, ?_⟩
      split
      case isTrue hlt => exact Nat.le_of_lt (UInt32.lt_iff_toNat_lt.mp hlt)
      case isFalse => exact Nat.le_refl _
  | call t c =>
      rw [h.call.2, RingAct.actor, goto_pc, if_pos rfl]
      exact ⟨fun p hp => (by cases hp), fun k hk => by cases hk⟩
  | readHead t =>
      obtain ⟨c, -, rfl⟩ := h.readHead
      rw [RingAct.actor, goto_pc, if_pos rfl]
      exact ⟨fun p hp => (by cases hp), fun k hk => by cases hk⟩
  | readTail t =>
      obtain ⟨c, oldHead, ticket, -, ⟨-, rfl⟩ | ⟨-, rfl⟩⟩ := h.readTail <;>
        rw [RingAct.actor, goto_pc, if_pos rfl] <;>
        exact ⟨fun p hp => (by cases hp), fun k hk => by cases hk⟩
  | moveHead t =>
      obtain ⟨m, -, ⟨-, rfl⟩ | rfl⟩ := h.moveHead
      · rw [RingAct.actor, takeSlots_pc, if_pos rfl]
        exact ⟨fun p hp => (by cases hp), fun k hk => by cases hk⟩
      · rw [RingAct.actor, goto_pc, if_pos rfl]
        exact ⟨fun p hp => (by cases hp), fun k hk => by cases hk⟩
  | copy t =>
      obtain ⟨m, i, got, p, -, -, ⟨objTable, b, a, -, -, rfl⟩ | ⟨n, b, -, rfl⟩⟩ := h.copy <;>
        rw [RingAct.actor, goto_pc, if_pos rfl] <;>
        exact ⟨fun p hp => (by cases hp), fun k hk => by cases hk⟩
  | seeTail t =>
      obtain ⟨m, i, got, -, -, -, rfl⟩ := h.seeTail
      rw [RingAct.actor, goto_pc, if_pos rfl]
      exact ⟨fun p hp => (by cases hp), fun k hk => by cases hk⟩
  | storeTail t =>
      obtain ⟨m, got, -, rfl⟩ := h.storeTail
      rw [RingAct.actor, giveSlots_pc, if_pos rfl]
      exact ⟨fun p hp => (by cases hp), fun k hk => by cases hk⟩
  | ret t =>
      rw [h.ret.2, RingAct.actor, goto_pc, if_pos rfl]
      exact ⟨fun p hp => (by cases hp), fun k hk => by cases hk⟩

/-- The count of the only consumer is at most what it can get. -/
theorem Consuming.count_le (h : s.Consuming t) {p : UInt32} (hpc : s.pc t = .counting p) :
    s.claimed + ((p - s.r.cons.tail) &&& s.r.mask).toNat ≤ s.published := by
  obtain ⟨q, rfl, hlo, hhi⟩ := h.counting p hpc
  have hreleased : s.released = s.claimed := h.released_eq (by rw [hpc]; rfl)
  have htail : s.r.cons.tail = .ofNat s.released := h.inv.tail .cons
  obtain ⟨h1, h2, h3, h4⟩ := h.inv.ordered
  have hcap := s.r.capacity.toNat_lt
  have hof : UInt32.ofNat q - s.r.cons.tail = .ofNat (q - s.released) := by
    rw [htail, ← UInt32.toNat_inj, toNat_ofNat_sub (by omega) (by omega), UInt32.toNat_ofNat',
      Nat.mod_eq_of_lt (by omega)]
  rw [hof, h.inv.wf.mask]
  have hmod := Nat.mod_le (q - s.released) s.r.size.toNat
  omega

/-- **Step lemma** of the only consumer. -/
theorem SoleStep.consuming {act : RingAct T α} (hstep : SoleStep t s act s')
    (h : s.Consuming t) : s'.Consuming t := by
  obtain ⟨hstep, hsole⟩ := hstep
  have hinv := hstep.inv h.inv
  have hothers : ∀ u, u ≠ t → (s'.pc u).side? ≠ some .cons := by
    intro u hut hside
    by_cases hact : u = act.actor
    · rw [hact] at hut hside
      rcases hstep.2.side hside with hold | ⟨c, hcall, hcons⟩
      · exact h.others _ hut hold
      · rw [hcall] at hsole
        exact hut (hsole hcons)
    · rw [hstep.2.frame.pc u hact] at hside
      exact h.others u hut hside
  have htail : s.published ≤ s'.published := hstep.2.tail_le .prod
  by_cases hact : act.actor = t
  swap
  · have hclaimed := h.claimed_eq hstep.2 hact
    have hpc := hstep.2.frame.pc t (Ne.symm hact)
    refine ⟨hinv, hothers, fun p hp => ?_, fun k hk => ?_⟩
    · rw [hpc] at hp
      obtain ⟨q, hq, hlo, hhi⟩ := h.counting p hp
      exact ⟨q, hq, by omega, by omega⟩
    · rw [hpc] at hk
      have := h.counted k hk
      omega
  · subst hact
    obtain ⟨hcounting, hcounted⟩ := hstep.2.counts
    refine ⟨hinv, hothers, fun p hp => ?_, fun k hk => ?_⟩
    · obtain ⟨rfl, rfl⟩ := hcounting p hp
      exact ⟨s.published, h.inv.tail .prod, h.inv.ordered.2.1, Nat.le_refl _⟩
    · obtain ⟨p, hpc, rfl, hle⟩ := hcounted k hk
      exact Nat.le_trans (Nat.add_le_add_left hle _) (h.count_le hpc)

/-! ## runs -/

theorem run_consuming {acts : List (RingAct T α)} (hrun : Run (SoleStep t) s acts s')
    (h : s.Consuming t) : s'.Consuming t :=
  Run.invariant (fun _ _ _ hs hstep => hstep.consuming hs) h hrun

/-- While only the producers take steps, the consumer stays where it is and there comes to be
more for it. -/
theorem run_producers {acts : List (RingAct T α)} (hrun : Run (SoleStep t) s acts s')
    (hacts : ∀ act ∈ acts, ¬ decide (act.actor = t) = true) (h : s.Consuming t) :
    s'.pc t = s.pc t ∧ s'.claimed = s.claimed ∧ s.published ≤ s'.published := by
  induction hrun with
  | nil s => exact ⟨rfl, rfl, Nat.le_refl _⟩
  | @cons s u s' act acts head tail ih =>
      rw [List.forall_mem_cons, decide_eq_true_eq] at hacts
      obtain ⟨hpc, hclaimed, hpub⟩ := ih hacts.2 (head.consuming h)
      have htail : s.published ≤ u.published := head.1.2.tail_le .prod
      exact ⟨hpc.trans (head.1.2.frame.pc t (Ne.symm hacts.1)),
        hclaimed.trans (h.claimed_eq head.1.2 hacts.1), Nat.le_trans htail hpub⟩

/-- The next step of the consumer, after those that the producers take before it. -/
theorem run_next {acts : List (RingAct T α)} (hrun : Run (SoleStep t) s acts s')
    (h : s.Consuming t) {act : RingAct T α} {next : List (RingAct T α)}
    (hacts : acts.filter (·.actor = t) = act :: next) :
    ∃ s₁ s₂ rest, s₁.Consuming t ∧ s₁.pc t = s.pc t ∧ s₁.claimed = s.claimed ∧
      s.published ≤ s₁.published ∧ SoleStep t s₁ act s₂ ∧ Run (SoleStep t) s₂ rest s' ∧
      rest.filter (·.actor = t) = next := by
  obtain ⟨first, rest, rfl, hfirst, -, hrest⟩ := List.filter_eq_cons_iff.mp hacts
  obtain ⟨s₁, hrun₁, hrun'⟩ := hrun.of_append
  obtain ⟨hpc, hclaimed, hpub⟩ := run_producers hrun₁ hfirst h
  cases hrun' with
  | cons head tail =>
      exact ⟨s₁, _, rest, run_consuming hrun₁ h, hpc, hclaimed, hpub, head, tail, hrest⟩

/-! ## the call of the consumer -/

/-- A thread at `p` is `k` of its steps into a call of the only consumer, which gets all that
it asks for. -/
def Serving (c : RingCall α) (s : RingSys T α) : RingPc α → Nat → Prop
  | .entering c', k => c' = c ∧ k = 0 ∧ s.claimed + c.n.toNat ≤ s.published
  | .headRead c' _ ticket, k =>
      c' = c ∧ k = 1 ∧ ticket = s.claimed ∧ s.claimed + c.n.toNat ≤ s.published
  | .moving m, k => m.call = c ∧ m.n = c.n ∧ k = 2 ∧ m.ticket = s.claimed
  | .copying m i _, k => m.call = c ∧ m.n = c.n ∧ k = 3 + i
  | .waited m _, k => m.call = c ∧ m.n = c.n ∧ k = c.n.toNat + 4
  | .returned m _, k => m.call = c ∧ m.n = c.n ∧ k = c.n.toNat + 5
  | .idle, _ | .refused _ _, _ | .counting _, _ | .counted _, _ => False

section Serving

variable {c : RingCall α} {k : Nat}

omit [DecidableEq T] in
theorem Serving.frame {p : RingPc α} (h : Serving c s p k) (hclaimed : s'.claimed = s.claimed)
    (hpub : s.published ≤ s'.published) : Serving c s' p k := by
  cases p with
  | entering c' => exact ⟨h.1, h.2.1, by have := h.2.2; omega⟩
  | headRead c' oldHead ticket =>
      exact ⟨h.1, h.2.1, hclaimed ▸ h.2.2.1, by have := h.2.2.2; omega⟩
  | moving m => exact ⟨h.1, h.2.1, h.2.2.1, hclaimed ▸ h.2.2.2⟩
  | _ => exact h

omit [DecidableEq T] in
/-- A call for at most what there is gets all that it asks for. -/
theorem Consuming.clamp_eq (h : s.Consuming t) {oldHead : UInt32}
    (hpc : s.pc t = .headRead c oldHead s.claimed) (hside : c.side = .cons)
    (hle : s.claimed + c.n.toNat ≤ s.published) :
    c.behavior.clamp c.n (s.r.entries c.side oldHead) = c.n := by
  have hread := h.inv.pcOk t
  rw [hpc] at hread
  have htime : s.headCount c.side + s.r.capacity.toNat < s.claimed + 2 ^ 32 := by
    have hcap := s.r.capacity.toNat_lt
    rw [hside, headCount]
    omega
  obtain ⟨hentries, -⟩ := h.inv.entries_eq hread htime
  have hlimit : s.limit c.side = s.published := by rw [hside]; rfl
  rw [hlimit] at hentries
  rw [← UInt32.toNat_inj, toNat_clamp, if_pos (by omega)]

/-- **Step lemma** of a call of the only consumer: its own steps bring it on. -/
theorem SoleStep.serving {act : RingAct T α} (hstep : SoleStep t s act s') (h : s.Consuming t)
    (hside : c.side = .cons) (hpos : c.n ≠ 0) (hact : act.actor = t) (hret : act ≠ .ret t)
    (hs : Serving c s (s.pc t) k) : Serving c s' (s'.pc t) (k + 1) := by
  obtain ⟨⟨-, hstep⟩, -⟩ := hstep
  have hok := h.inv.pcOk t
  cases act with
  | call u c' =>
      obtain rfl : u = t := hact
      obtain ⟨hpc | ⟨k, hpc⟩, -⟩ := hstep.call <;> rw [hpc] at hs <;> exact hs.elim
  | readHead u =>
      obtain rfl : u = t := hact
      obtain ⟨c', hpc, rfl⟩ := hstep.readHead
      rw [hpc] at hs
      obtain ⟨rfl, rfl, hle⟩ := hs
      rw [goto_pc, if_pos rfl]
      exact ⟨rfl, rfl, by rw [hside]; rfl, hle⟩
  | readTail u =>
      obtain rfl : u = t := hact
      obtain ⟨c', oldHead, ticket, hpc, hcase⟩ := hstep.readTail
      rw [hpc] at hs
      obtain ⟨rfl, rfl, rfl, hle⟩ := hs
      rw [h.clamp_eq hpc hside hle] at hcase
      obtain ⟨h0, -⟩ | ⟨-, rfl⟩ := hcase
      · exact absurd h0 hpos
      · rw [goto_pc, if_pos rfl]
        exact ⟨rfl, rfl, rfl, rfl⟩
  | moveHead u =>
      obtain rfl : u = t := hact
      obtain ⟨m, hpc, -⟩ := hstep.moveHead
      rw [hpc] at hs
      obtain ⟨rfl, hn, rfl, hticket⟩ := hs
      have hfirst : m.ticket = s.headCount m.call.side := by rw [hside]; exact hticket
      obtain rfl : s.takeSlots u m = s' :=
        Option.some.inj ((h.inv.moves hpc hfirst).symm.trans hstep)
      rw [takeSlots_pc, if_pos rfl]
      exact ⟨rfl, hn, rfl⟩
  | copy u =>
      obtain rfl : u = t := hact
      obtain ⟨m, i, got, p, hpc, -, hcase⟩ := hstep.copy
      rw [hpc] at hs
      obtain ⟨hcall, hn, rfl⟩ := hs
      obtain ⟨objTable, b, a, -, -, rfl⟩ | ⟨n, b, -, rfl⟩ := hcase <;>
        rw [goto_pc, if_pos rfl] <;> exact ⟨hcall, hn, rfl⟩
  | seeTail u =>
      obtain rfl : u = t := hact
      obtain ⟨m, i, got, hpc, hi, -, rfl⟩ := hstep.seeTail
      rw [hpc] at hs hok
      obtain ⟨hcall, hn, rfl⟩ := hs
      rw [hok.2.oldHead_eq, h.inv.wf.slots_eq m.ticket (h.inv.claim_le hpc), List.length_map,
        List.length_range] at hi
      obtain rfl : i = m.n.toNat := Nat.le_antisymm hok.1 hi
      rw [goto_pc, if_pos rfl]
      exact ⟨hcall, hn, by rw [hn]; omega⟩
  | storeTail u =>
      obtain rfl : u = t := hact
      obtain ⟨m, got, hpc, rfl⟩ := hstep.storeTail
      rw [hpc] at hs
      obtain ⟨hcall, hn, rfl⟩ := hs
      rw [giveSlots_pc, if_pos rfl]
      exact ⟨hcall, hn, rfl⟩
  | ret u =>
      obtain rfl : u = t := hact
      exact absurd rfl hret
  | count u =>
      obtain rfl : u = t := hact
      obtain ⟨hpc | ⟨k, hpc⟩, -⟩ := hstep.count <;> rw [hpc] at hs <;> exact hs.elim
  | readConsTail u =>
      obtain rfl : u = t := hact
      obtain ⟨prodTail, hpc, -⟩ := hstep.readConsTail
      rw [hpc] at hs
      exact hs.elim

/-- **Run lemma** of a call of the only consumer. -/
theorem run_serving {acts : List (RingAct T α)} (hrun : Run (SoleStep t) s acts s')
    (h : s.Consuming t) (hside : c.side = .cons) (hpos : c.n ≠ 0) (hret : .ret t ∉ acts)
    (hs : Serving c s (s.pc t) k) :
    Serving c s' (s'.pc t) (k + acts.countP (·.actor = t)) := by
  induction hrun generalizing k with
  | nil s => exact hs
  | @cons s u s' act acts head tail ih =>
      rw [List.mem_cons, not_or] at hret
      have hu := head.consuming h
      rw [List.countP_cons]
      by_cases hact : act.actor = t
      · rw [if_pos (decide_eq_true hact)]
        have hnext := ih hu hret.2 (head.serving h hside hpos hact (Ne.symm hret.1) hs)
        rwa [Nat.add_right_comm] at hnext
      · rw [if_neg (by simpa using hact)]
        refine ih hu hret.2 ?_
        rw [head.1.2.frame.pc t (Ne.symm hact)]
        exact hs.frame (h.claimed_eq head.1.2 hact) (head.1.2.tail_le .prod)

/-- The consumer's claim is the first one. -/
theorem Consuming.claim_first (h : s.Consuming t) {j n : Nat}
    (hclaim : (s.pc t).claim .cons = some (j, n)) : j = s.tailCount .cons := by
  have hin := (h.inv.claims .cons).inside t j n hclaim
  have hn := (h.inv.claims .cons).pos t j n hclaim
  obtain ⟨u, n', hfirst⟩ := (h.inv.claims .cons).exists_first (by omega)
  by_cases hut : u = t
  · subst hut
    rw [hclaim] at hfirst
    exact congrArg Prod.fst (Option.some.inj hfirst)
  · obtain ⟨m, hcons, -, -, ⟨i, got, hpc⟩ | ⟨got, hpc⟩⟩ := of_claim hfirst <;>
      exact absurd (by rw [hpc]; exact congrArg some hcons) (h.others u hut)

/-- Nothing holds up a call of the only consumer. -/
theorem Serving.goes_on (hs : Serving c s (s.pc t) k) (h : s.Consuming t) (hside : c.side = .cons)
    (hlt : k < c.n.toNat + 5) :
    ∃ act s', act.actor = t ∧ act ≠ .ret t ∧ SoleStep t s act s' := by
  have hcap := s.r.capacity.toNat_lt
  have hclaimed : s.headCount c.side = s.claimed := by rw [hside]; rfl
  have hfirst : ∀ m : RingMove α, (s.pc t).claim .cons = some (m.ticket, m.n.toNat) →
      ∃ act s', act.actor = t ∧ act ≠ .ret t ∧ SoleStep t s act s' := by
    intro m hclaim
    rw [h.claim_first hclaim] at hclaim
    obtain ⟨act, s', hact, hstep, -⟩ := h.inv.first_moves hclaim
    refine ⟨act, s', hact, ?_, hstep, ?_⟩
    · rintro rfl
      obtain ⟨⟨m, got, hpc⟩ | ⟨c', k', hpc⟩ | ⟨k', hpc⟩, -⟩ := hstep.2.ret <;>
        rw [hpc] at hclaim <;> cases hclaim
    · cases act with
      | call u c' => exact fun _ => hact
      | _ => trivial
  cases hpc : s.pc t with
  | entering c' =>
      exact ⟨.readHead t, _, rfl, by simp, ⟨⟨trivial, trivial⟩, by rw [Step, step?, hpc]⟩, trivial⟩
  | headRead c' oldHead ticket =>
      rw [hpc] at hs
      obtain ⟨rfl, rfl, rfl, hle⟩ := hs
      have htime : s.InTime (.readTail t) := by
        intro x hx
        rw [hpc, RingPc.read?, Option.mem_some_iff] at hx
        subst hx
        show s.headCount c'.side + _ < s.claimed + 2 ^ 32
        omega
      have hstep : ∃ s', s.Step (.readTail t) s' := by
        simp only [Step, step?, hpc]
        split <;> exact ⟨_, rfl⟩
      obtain ⟨s', hstep⟩ := hstep
      exact ⟨.readTail t, s', rfl, by simp, ⟨⟨htime, trivial⟩, hstep⟩, trivial⟩
  | moving m =>
      rw [hpc] at hs
      obtain ⟨rfl, hn, rfl, hticket⟩ := hs
      have htime : s.InTime (.moveHead t) := by
        intro x hx
        rw [hpc, RingPc.read?, Option.mem_some_iff] at hx
        subst hx
        show s.headCount m.call.side + _ < m.ticket + 2 ^ 32
        omega
      exact ⟨.moveHead t, _, rfl, by simp,
        ⟨⟨htime, trivial⟩, h.inv.moves hpc (hticket.trans hclaimed.symm)⟩, trivial⟩
  | copying m i got =>
      rw [hpc] at hs
      exact hfirst m (by rw [hpc, RingPc.claim, if_pos (by rw [hs.1, hside])])
  | waited m got =>
      rw [hpc] at hs
      exact hfirst m (by rw [hpc, RingPc.claim, if_pos (by rw [hs.1, hside])])
  | returned m got =>
      rw [hpc] at hs
      exact absurd hs.2.2 (Nat.ne_of_lt hlt)
  | idle | refused | counting | counted =>
      rw [hpc] at hs
      exact hs.elim

omit [DecidableEq T] in
/-- A call has no more than five steps besides those that copy its pointers. -/
theorem Serving.le (hs : Serving c s (s.pc t) k) (h : s.Consuming t) : k ≤ c.n.toNat + 5 := by
  have hok := h.inv.pcOk t
  cases hpc : s.pc t <;> rw [hpc] at hs hok
  case copying m i got =>
    have hi := hok.1
    obtain ⟨-, hn, rfl⟩ := hs
    rw [← hn]
    omega
  case idle | refused | counting | counted => exact hs.elim
  all_goals
    simp only [Serving] at hs
    omega

omit [DecidableEq T] in
theorem Serving.granted (hs : Serving c s (s.pc t) 2) :
    ∃ m, s.pc t = .moving m ∧ m.call = c ∧ m.n = c.n := by
  cases hpc : s.pc t <;> rw [hpc] at hs
  case moving m => exact ⟨m, rfl, hs.1, hs.2.1⟩
  case idle | refused | counting | counted => exact hs.elim
  all_goals
    simp only [Serving] at hs
    omega

/-- A call that is at its end returns what its event says. -/
theorem Serving.returns (hs : Serving c s (s.pc t) (c.n.toNat + 5)) (h : s.Consuming t)
    (hans : s.Answered t (s.pc t)) (hside : c.side = .cons) :
    ∃ m got, s.pc t = .returned m got ∧ m.call = c ∧ got.length = c.n.toNat ∧
      lastOf t s.history = some (.get t got) := by
  have hok := h.inv.pcOk t
  cases hpc : s.pc t <;> rw [hpc] at hs hok hans
  case returned m got =>
    obtain ⟨rfl, hn, -⟩ := hs
    obtain ⟨hcopied, hgot⟩ := hok
    have hlast : lastOf t s.history = some (m.event t got) := hans
    cases hcall : m.call with
    | enqueue => simp [hcall, RingCall.side] at hside
    | dequeue n b =>
        refine ⟨m, got, rfl, hcall, ?_, ?_⟩
        · rw [hgot n b hcall, List.length_take_of_le, hn, hcall]
          rw [List.length_drop]
          have hle := hcopied.le_sent
          omega
        · rw [hlast, RingMove.event, hcall]
  case copying m i got =>
    have hi := hok.1
    obtain ⟨-, hn, hk⟩ := hs
    rw [hn] at hi
    omega
  case idle | refused | counting | counted => exact hs.elim
  all_goals
    simp only [Serving] at hs
    omega

end Serving

/-- The consumer `t` is `k` of its steps into a call that gets all that it asks for. -/
structure GetsAll (t : T) (c : RingCall α) (s : RingSys T α) (k : Nat) : Prop where
  le : k ≤ c.n.toNat + 5
  /-- After the head and the tail have been read, the call goes on with all of them. -/
  granted : k = 2 → ∃ m, s.pc t = .moving m ∧ m.call = c ∧ m.n = c.n
  /-- Until it returns, its next step can be taken. -/
  moves : k < c.n.toNat + 5 → ∃ act s', act.actor = t ∧ act ≠ .ret t ∧ SoleStep t s act s'
  /-- It returns with the pointers that it has taken from the queue. -/
  returns : k = c.n.toNat + 5 → ∃ m got, s.pc t = .returned m got ∧ m.call = c ∧
    got.length = c.n.toNat ∧ lastOf t s.history = some (.get t got)

/-- **What was counted can be dequeued**: the only consumer, having counted `k` pointers,
gets as many of them as it asks for, whatever the producers do in between. -/
theorem counted_dequeue {r : RteRing α} {count flags : UInt32} (hr : r.Fresh count flags)
    {acts acts' : List (RingAct T α)} (hrun : Run (SoleStep t) (start r) acts s) {k : UInt32}
    (hpc : s.pc t = .counted k) (hrun' : Run (SoleStep t) s acts' s') {c : RingCall α}
    {own : List (RingAct T α)} (hacts : acts'.filter (·.actor = t) = .call t c :: own)
    (hret : .ret t ∉ own) (hside : c.side = .cons) (hpos : c.n ≠ 0) (hle : c.n ≤ k) :
    GetsAll t c s' own.length := by
  have hstart : (start r : RingSys T α).Consuming t :=
    ⟨start_inv hr, fun u _ hu => (by cases hu), fun p hp => (by cases hp), fun k hk => by cases hk⟩
  have h := run_consuming hrun hstart
  have hk := h.counted k hpc
  rw [UInt32.le_iff_toNat_le] at hle
  have hserved := run_served hr ((hrun.append hrun').mono fun _ _ _ hstep => hstep.1)
  have h' := run_consuming hrun' h
  obtain ⟨s₁, s₂, rest, h₁, -, hclaimed₁, hpub₁, hcall, hrun₂, hrest⟩ := run_next hrun' h hacts
  have h₂ := hcall.consuming h₁
  obtain ⟨-, rfl⟩ := hcall.1.2.call
  have hbegin : Serving c (s₁.goto t (.entering c)) ((s₁.goto t (.entering c)).pc t) 0 := by
    rw [goto_pc, if_pos rfl]
    refine ⟨rfl, rfl, ?_⟩
    show s₁.claimed + c.n.toNat ≤ s₁.published
    omega
  have hret' : .ret t ∉ rest := fun hmem =>
    hret (hrest ▸ List.mem_filter.mpr ⟨hmem, decide_eq_true rfl⟩)
  have hs := run_serving hrun₂ h₂ hside hpos hret' hbegin
  rw [Nat.zero_add, List.countP_eq_length_filter, hrest] at hs
  exact ⟨hs.le h', fun h2 => Serving.granted (h2 ▸ hs), hs.goes_on h' hside,
    fun hend => Serving.returns (hend ▸ hs) h' (hserved.answered t) hside⟩

/-- A poller enqueues two requests, `ftl_thread` counts them, another poller enqueues a third one
while `ftl_thread` dequeues one and returns. -/
def countedByFtl : List (RingAct RingUser Nat) × List (RingAct RingUser Nat) :=
  ([.call .poller1 (femuRingEnqueue [10, 11]), .readHead .poller1, .readTail .poller1,
      .moveHead .poller1, .copy .poller1, .copy .poller1, .seeTail .poller1, .storeTail .poller1,
      .count .ftl, .readConsTail .ftl],
    [.call .poller2 (femuRingEnqueue [20]), .call .ftl (femuRingDequeue 1), .readHead .poller2,
      .readHead .ftl, .readTail .poller2, .moveHead .poller2, .readTail .ftl, .moveHead .ftl,
      .copy .poller2, .copy .ftl, .seeTail .ftl, .storeTail .ftl])

theorem counted_dequeue_small :
    ∃ r s s', femuRingCreate (fun _ => 0) .mpSc femuMaxInfReqs = some r ∧
      Run (SoleStep .ftl) (start r) countedByFtl.1 s ∧ s.pc .ftl = .counted 2 ∧
      Run (SoleStep .ftl) s countedByFtl.2 s' ∧ GetsAll .ftl (femuRingDequeue 1) s' 6 := by
  have hends : ((femuRingCreate (fun _ => 0) .mpSc femuMaxInfReqs).bind fun r =>
      (exec (allowed (fun s a => (s.InTime a ∧ s.Alone a) ∧ Sole .ftl a) step?) countedByFtl.1
        (start r)).bind fun s =>
          (exec (allowed (fun s a => (s.InTime a ∧ s.Alone a) ∧ Sole .ftl a) step?) countedByFtl.2
            s).map fun _ => s.pc .ftl) = some (.counted 2) := by decide +kernel
  obtain ⟨r, hr, hends⟩ := Option.bind_eq_some_iff.mp hends
  obtain ⟨s, hs, hends⟩ := Option.bind_eq_some_iff.mp hends
  obtain ⟨s', hs', hpc⟩ := Option.map_eq_some_iff.mp hends
  obtain ⟨r', hr', hfresh⟩ := femuRing_fresh (fun _ => 0) .mpSc
  obtain rfl : r' = r := Option.some.inj (hr'.symm.trans hr)
  have hsole : ∀ {s s' : RingSys RingUser Nat} {acts},
      exec (allowed (fun s a => (s.InTime a ∧ s.Alone a) ∧ Sole .ftl a) step?) acts s = some s' →
        Run (SoleStep .ftl) s acts s' := by
    intro s s' acts h
    exact (run_of_exec_allowed h).mono fun _ _ _ hstep => ⟨⟨hstep.1.1, hstep.2⟩, hstep.1.2⟩
  exact ⟨r', s, s', hr, hsole hs, hpc, hsole hs', counted_dequeue hfresh (hsole hs) hpc (hsole hs')
    rfl (by simp) rfl (by decide) (by decide)⟩

end RingSys

end Femu.Rte
