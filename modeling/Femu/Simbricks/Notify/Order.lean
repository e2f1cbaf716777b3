import Femu.Simbricks.Notify.References

/-!
# Femu.Simbricks.Notify.Order

A poller that has seen `op->ready` knows that its write has been copied, and the one message
that has been copied and not sent is sent before the next is copied. Hence whatever the poller
tells the main thread, and the main thread puts into a message, comes after the write.
-/

namespace Femu.Simbricks.Notify

open Lib

variable {P : Type} {s s' : Notify P} {t t' : Thread P} {op : DmaOp}

/-! ## invariant -/

/-- The write has been sent, or is being sent. -/
def Sent (s : Notify P) (op : DmaOp) : Prop := .write op ∈ s.d2h ∨ s.hand = some (.write op)

/-- Whatever a thread has learnt of the end of a write has been sent. -/
structure Ordered (s : Notify P) : Prop where
  waiting : ∀ t op, s.call t = .dmaWait (.dmaWrite op) → s.opReady t = true → s.Sent op
  done : ∀ t, ∀ op ∈ s.done t, s.Sent op
  vouched : ∀ en, ∀ op ∈ s.vouched en, s.Sent op
  call : ∀ t m, s.call t = .sending m ∨ s.call t = .stored m → ∀ op ∈ m.vouched, s.Sent op
  body : ∀ i vector inttype vouched, s.slotBody i = .intr vector inttype vouched →
    ∀ op ∈ vouched, s.Sent op
  hand : ∀ vector inttype vouched, s.hand = some (.interrupt vector inttype vouched) →
    ∀ op ∈ vouched, .write op ∈ s.d2h
  d2h : s.NotOvertaken

theorem Init.ordered (h : Init s) : s.Ordered where
  waiting t op hcall := by simp [h.call t] at hcall
  done t op hop := by simp [h.done t] at hop
  vouched en op hop := by simp [h.vouched en] at hop
  call t m hcall := by simp [h.call t] at hcall
  body i vector inttype vouched hbody op hop := by
    simp [h.body i vector inttype vouched hbody] at hop
  hand vector inttype vouched hhand := by simp [h.hand] at hhand
  d2h before vector inttype vouched after heq := by simp [h.d2h] at heq

/-- A message that is no interrupt, or whose writes have been sent, may be sent next. -/
theorem InOrder.snoc {d2h : List (D2H P)} {m : D2H P} (h : InOrder d2h)
    (hm : ∀ vector inttype vouched, m = .interrupt vector inttype vouched →
      ∀ op ∈ vouched, .write op ∈ d2h) : InOrder (d2h ++ [m]) := by
  intro before vector inttype vouched after heq op hop
  rcases List.eq_nil_or_concat after with rfl | ⟨rest, last, rfl⟩
  · obtain ⟨rfl, hlast⟩ := List.append_inj' heq rfl
    exact hm vector inttype vouched (List.singleton_inj.mp hlast) op hop
  · rw [List.concat_eq_append, ← List.cons_append, ← List.append_assoc] at heq
    obtain ⟨hinit, -⟩ := List.append_inj' heq rfl
    exact h before vector inttype vouched rest hinit op hop

/-- What is found in a function after an update was put there, or was there before. -/
theorem update_cases {α β : Type} [DecidableEq α] {f : α → β} {a x : α} {b y : β}
    (h : Function.update f a b x = y) : x = a ∧ b = y ∨ x ≠ a ∧ f x = y := by
  rwa [Function.update_apply, ite_eq_iff] at h

section Order

variable [DecidableEq P]

theorem Ordered.enter {m : Outgoing} (ho : s.Ordered) (h : s.Step (.call t m) s') : s'.Ordered := by
  obtain ⟨-, hfresh, rfl⟩ := h.call
  refine { ho with
    waiting := fun t' op hwait hready => ?_
    call := fun t' m' hcall => ?_ }
  · rcases update_cases hwait with ⟨-, heq⟩ | ⟨-, hold⟩
    · cases heq
    · exact ho.waiting t' op hold hready
  · rcases hcall.imp update_cases update_cases with (⟨-, heq⟩ | hold) | ⟨-, heq⟩ | hold
    · cases heq
      simp [hfresh.2]
    · exact ho.call t' m' (.inl hold.2)
    · cases heq
    · exact ho.call t' m' (.inr hold.2)

theorem Ordered.storeBody (ho : s.Ordered) (h : s.Step (.storeBody t) s') : s'.Ordered := by
  obtain ⟨m, i, k, hcall, -, rfl⟩ := h.storeBody
  refine { ho with
    waiting := fun t' op hwait hready => ?_
    call := fun t' m' hcall' => ?_
    body := fun j vector inttype vouched hbody => ?_ }
  · rcases update_cases hwait with ⟨-, heq⟩ | ⟨ht, hold⟩
    · cases heq
    · refine ho.waiting t' op hold ?_
      cases hm : m.op? <;> simpa [initOp, hm, ht] using hready
  · rcases hcall'.imp update_cases update_cases with (⟨-, heq⟩ | hold) | ⟨-, heq⟩ | hold
    · cases heq
    · exact ho.call t' m' (.inl hold.2)
    · cases heq
      exact ho.call t m (.inl hcall)
    · exact ho.call t' m' (.inr hold.2)
  · rcases update_cases hbody with ⟨-, heq⟩ | ⟨-, hold⟩
    · have hm : m.vouched = vouched := by
        cases m <;> cases heq
        rfl
      exact hm ▸ ho.call t m (.inl hcall)
    · exact ho.body j vector inttype vouched hold

/-- The operation of a write is not ready when its message is published. -/
theorem Ordered.publish (ho : s.Ordered) (hi : Inv s) (h : s.Step (.publish t) s') :
    s'.Ordered := by
  obtain ⟨m, q, hcall, -, rfl⟩ := h.publish
  have hinit := hi.thread t
  simp only [ThreadInv, hcall] at hinit
  refine { ho with
    waiting := fun t' op hwait hready => ?_
    call := fun t' m' hcall' => ?_ }
  · rcases update_cases hwait with ⟨rfl, heq⟩ | ⟨-, hold⟩
    · have hm : m.op? = some op := by
        cases m <;> cases heq
        rfl
      have hdown : s.opReady t' = false := (hinit.1 op hm).2
      rw [hdown] at hready
      cases hready
    · exact ho.waiting t' op hold hready
  · have hafter : ∀ m', afterPublish m ≠ .sending m' ∧ afterPublish m ≠ .stored m' := by
      intro m'
      cases m <;> simp [afterPublish, Outgoing.op?]
    rcases hcall'.imp update_cases update_cases with (⟨-, heq⟩ | hold) | ⟨-, heq⟩ | hold
    · exact absurd heq (hafter m').1
    · exact ho.call t' m' (.inl hold.2)
    · exact absurd heq (hafter m').2
    · exact ho.call t' m' (.inr hold.2)

theorem Ordered.dmaDone (ho : s.Ordered) (h : s.Step (.dmaDone t) s') : s'.Ordered := by
  obtain ⟨m, hcall, hready, rfl⟩ := h.dmaDone
  refine { ho with
    waiting := fun t' op hwait hready' => ?_
    done := fun t' op hop => ?_
    call := fun t' m' hcall' => ?_ }
  · rcases update_cases hwait with ⟨-, heq⟩ | ⟨-, hold⟩
    · cases heq
    · exact ho.waiting t' op hold hready'
  · by_cases ht : t' = t
    · subst ht
      simp only [Function.update_self, List.mem_append, Option.mem_toList] at hop
      rcases hop with hop | hop
      · exact ho.done t' op hop
      · have hm : m = .dmaWrite op := by
          cases m <;> cases hop
          rfl
        exact ho.waiting t' op (hm ▸ hcall) hready
    · exact ho.done t' op (by simpa [ht] using hop)
  · rcases hcall'.imp update_cases update_cases with (⟨-, heq⟩ | hold) | ⟨-, heq⟩ | hold
    · cases heq
    · exact ho.call t' m' (.inl hold.2)
    · cases heq
    · exact ho.call t' m' (.inr hold.2)

theorem Ordered.setEvent {en : Nat} (ho : s.Ordered) (h : s.Step (.setEvent t en) s') :
    s'.Ordered := by
  obtain rfl := h.setEvent
  refine { ho with vouched := fun en' op hop => ?_ }
  by_cases hen : en' = en
  · subst hen
    rcases List.mem_append.mp (by simpa using hop) with hop | hop
    · exact ho.vouched en' op hop
    · exact ho.done t op hop
  · exact ho.vouched en' op (by simpa [hen] using hop)

theorem Ordered.findSet {en vector : Nat} (ho : s.Ordered) (h : s.Step (.findSet en vector) s') :
    s'.Ordered := by
  obtain ⟨-, rfl⟩ := h.findSet
  refine { ho with
    waiting := fun t' op hwait hready => ?_
    vouched := fun en' op hop => ?_
    call := fun t' m' hcall => ?_ }
  · rcases update_cases hwait with ⟨-, heq⟩ | ⟨-, hold⟩
    · cases heq
    · exact ho.waiting t' op hold hready
  · by_cases hen : en' = en
    · simp [hen] at hop
    · exact ho.vouched en' op (by simpa [hen] using hop)
  · rcases hcall.imp update_cases update_cases with (⟨-, heq⟩ | hold) | ⟨-, heq⟩ | hold
    · cases heq
      exact ho.vouched en
    · exact ho.call t' m' (.inl hold.2)
    · cases heq
    · exact ho.call t' m' (.inr hold.2)

theorem Ordered.dmaReadComp {data : List UInt8} (ho : s.Ordered) (hi : Inv s)
    (h : s.Step (.dmaReadComp t data) s') : s'.Ordered := by
  obtain ⟨hmem, rfl⟩ := h.dmaReadComp
  obtain ⟨m, hcall, -, hread⟩ := hi.refs.awaits t .host hmem
  refine { ho with waiting := fun t' op hwait hready => ?_ }
  by_cases ht : t' = t
  · subst ht
    obtain rfl : m = .dmaWrite op := by simpa using hcall.symm.trans hwait
    cases hread
  · exact ho.waiting t' op hwait (by simpa [ht] using hready)

theorem Ordered.writecomp {reqId : Nat} (ho : s.Ordered) (h : s.Step (.writecomp reqId) s') :
    s'.Ordered := by
  obtain rfl := h.writecomp
  have hsent : ∀ op, s.Sent op → Sent { s with d2h := s.d2h ++ [.writecomp reqId] } op :=
    fun op hop => hop.imp_left (List.mem_append_left _)
  exact
    { waiting := fun t op hcall hready => hsent op (ho.waiting t op hcall hready)
      done := fun t op hop => hsent op (ho.done t op hop)
      vouched := fun en op hop => hsent op (ho.vouched en op hop)
      call := fun t m hcall op hop => hsent op (ho.call t m hcall op hop)
      body := fun i vector inttype vouched hbody op hop =>
        hsent op (ho.body i vector inttype vouched hbody op hop)
      hand := fun vector inttype vouched hhand op hop =>
        List.mem_append_left _ (ho.hand vector inttype vouched hhand op hop)
      d2h := InOrder.snoc ho.d2h fun _ _ _ heq => by cases heq }

/-- What is copied was vouched for before. -/
theorem Ordered.copy (ho : s.Ordered) (hi : Inv s) (h : s.Step .copy s') : s'.Ordered := by
  obtain ⟨m, hfetch, hseen, rfl⟩ := h.copy
  have hhand : s.hand = none := hi.idle (by simp [hseen])
  have hd2h : ∀ op, s.Sent op → .write op ∈ s.d2h := by
    intro op hop
    rcases hop with hop | hop
    · exact hop
    · simp [hhand] at hop
  refine
    { waiting := fun t op hcall hready => ?_
      done := fun t op hop => .inl (hd2h op (ho.done t op hop))
      vouched := fun en op hop => .inl (hd2h op (ho.vouched en op hop))
      call := fun t m' hcall op hop => .inl (hd2h op (ho.call t m' hcall op hop))
      body := fun j vector inttype vouched hbody op hop =>
        .inl (hd2h op (ho.body j vector inttype vouched hbody op hop))
      hand := fun vector inttype vouched heq op hop => ?_
      d2h := ho.d2h }
  · rcases fetch_cases hfetch with ⟨t', hbody, ⟨-, hraise, -⟩ | ⟨-, hraise, hm⟩⟩ | ⟨hraise, -⟩
    · exact .inl (hd2h op (ho.waiting t op hcall ((congrFun hraise t).symm.trans hready)))
    · by_cases ht : t = t'
      · subst ht
        have hold := hi.thread t
        simp only [ThreadInv, show s.call t = _ from hcall] at hold
        exact .inr (by rw [hm, hold.2 op rfl])
      · have hsame : s.raise t = s.opReady t :=
          (congrFun hraise t).trans (Function.update_of_ne ht _ _)
        exact .inl (hd2h op (ho.waiting t op hcall (hsame.symm.trans hready)))
    · exact .inl (hd2h op (ho.waiting t op hcall ((congrFun hraise t).symm.trans hready)))
  · obtain rfl : m = .interrupt vector inttype vouched := Option.some.inj heq
    rcases fetch_cases hfetch with ⟨_, _, ⟨_, _, hm⟩ | ⟨_, _, hm⟩⟩ |
      ⟨_, ⟨_, _, hm⟩ | ⟨_, _, _, hbody, hm⟩⟩ <;> cases hm
    exact hd2h op (ho.body _ _ _ _ hbody op hop)

theorem Ordered.send (ho : s.Ordered) (h : s.Step .send s') : s'.Ordered := by
  obtain ⟨m, hhand, rfl⟩ := h.send
  have hsent : ∀ op, s.Sent op → .write op ∈ s.d2h ++ [m] := by
    intro op hop
    rcases hop with hop | hop
    · exact List.mem_append_left _ hop
    · obtain rfl : m = .write op := Option.some.inj (hhand.symm.trans hop)
      exact List.mem_append_right _ (List.mem_singleton_self _)
  exact
    { waiting := fun t op hcall hready => .inl (hsent op (ho.waiting t op hcall hready))
      done := fun t op hop => .inl (hsent op (ho.done t op hop))
      vouched := fun en op hop => .inl (hsent op (ho.vouched en op hop))
      call := fun t m' hcall op hop => .inl (hsent op (ho.call t m' hcall op hop))
      body := fun j vector inttype vouched hbody op hop =>
        .inl (hsent op (ho.body j vector inttype vouched hbody op hop))
      hand := fun vector inttype vouched heq => by cases heq
      d2h := InOrder.snoc ho.d2h fun vector inttype vouched heq =>
        ho.hand vector inttype vouched (by rw [hhand, heq]) }

/-- **Step lemma**: a step keeps the order. -/
theorem Step.ordered {a : NotifyAct P} (h : s.Step a s') (hi : Inv s) (ho : s.Ordered) :
    s'.Ordered := by
  cases a with
  | call t m => exact ho.enter h
  | storeBody t => exact ho.storeBody h
  | publish t => exact ho.publish hi h
  | dmaDone t => exact ho.dmaDone h
  | setEvent t en => exact ho.setEvent h
  | findSet en vector => exact ho.findSet h
  | dmaReadComp t data => exact ho.dmaReadComp hi h
  | writecomp reqId => exact ho.writecomp h
  | copy => exact ho.copy hi h
  | send => exact ho.send h
  | alloc t =>
      obtain ⟨m, q, -, -, rfl⟩ := h.alloc
      exact { ho with }
  | seeClear t =>
      obtain ⟨q, -, rfl⟩ := onRing_eq_some.mp h
      exact { ho with }
  | storeType t =>
      obtain ⟨m, i, k, -, -, rfl⟩ := h.storeType
      exact { ho with }
  | seeReady =>
      obtain ⟨q, -, rfl⟩ := onRing_eq_some.mp h
      exact { ho with }
  | clear =>
      obtain ⟨-, -, rfl⟩ := h.clear
      exact { ho with }
  | advanceHead =>
      obtain ⟨q, -, rfl⟩ := onRing_eq_some.mp h
      exact { ho with }

/-- **No interrupt overtakes a write** that was done when its notifier was set, in any run in
which no producer is overtaken by a whole ring of allocations before it has published. -/
theorem not_overtaken {s₀ : Notify P} {acts : List (NotifyAct P)} (h0 : s₀.Init)
    (hrun : Run StepInTime s₀ acts s) : s.NotOvertaken := by
  obtain ⟨-, ho⟩ := hrun.invariant (I := fun s => Inv s ∧ s.Ordered)
    (fun _ _ _ ⟨hi, ho⟩ h => ⟨h.inv hi, h.2.ordered hi ho⟩) ⟨h0.inv, h0.ordered⟩
  exact ho.d2h

end Order

instance (q : Q2sb (Thread Bool)) : Decidable q.InTime :=
  decidable_of_iff ((∀ k ∈ (q.producer .main).ticket?, q.log.length < k + q2sbSz) ∧
      ∀ p, ∀ k ∈ (q.producer (.poller p)).ticket?, q.log.length < k + q2sbSz)
    ⟨fun h t => Thread.casesOn t h.1 h.2, fun h => ⟨h .main, fun p => h (.poller p)⟩⟩

instance (s : Notify Bool) : ∀ a, Decidable (s.AllocInTime a)
  | .alloc _ => inferInstanceAs (Decidable s.ring.InTime)
  | .call _ _ | .seeClear _ | .storeBody _ | .storeType _ | .publish _ | .dmaDone _
  | .setEvent _ _ | .findSet _ _ | .dmaReadComp _ _ | .writecomp _ | .seeReady | .copy | .send
  | .clear | .advanceHead => isTrue trivial

/-- A completion entry, the `n`-th message. -/
def cqe (n : Nat) : DmaOp := ⟨n, 8192, List.replicate 16 1⟩

/-- `simbricks_thread` sends the message at the head. -/
def sendNext : List (NotifyAct Bool) := [.seeReady, .copy, .send, .clear, .advanceHead]

/-- A thread passes its message on. -/
def sendCall (t : Thread Bool) (m : Outgoing) : List (NotifyAct Bool) :=
  [.call t m, .alloc t, .seeClear t, .storeBody t, .storeType t, .publish t]

/-- A poller writes a completion entry and sets the notifier, and the main thread sends the
interrupt. `op->ready` is raised, and the notifier set and found, before the write is sent. -/
def postAndNotify : List (NotifyAct Bool) :=
  sendCall (.poller true) (.dmaWrite (cqe 0)) ++
    [.seeReady, .copy, .dmaDone (.poller true), .setEvent (.poller true) 1, .findSet 1 1,
      .alloc .main, .seeClear .main, .storeBody .main, .storeType .main, .publish .main,
      .send, .clear, .advanceHead] ++ sendNext

theorem not_overtaken_small : ∃ s, Run StepInTime (start Bool) postAndNotify s ∧
    s.d2h = [.write (cqe 0), .interrupt 1 .msix [cqe 0]] ∧
      s.NotOvertaken := by
  have hends : (exec (allowed AllocInTime step?) postAndNotify (start Bool)).map (·.d2h) =
      some [.write (cqe 0), .interrupt 1 .msix [cqe 0]] := by
    decide +kernel
  obtain ⟨s, hs, hd2h⟩ := Option.map_eq_some_iff.mp hends
  have hrun : Run StepInTime (start Bool) postAndNotify s := run_of_exec_allowed hs
  exact ⟨s, hrun, hd2h, not_overtaken start_init hrun⟩

/-- The first poller starts a DMA read and is late by a ring, in which the main thread sends
the completions of reads of registers. The second poller writes a completion entry, in the same
slot: the type is stored by the first, and the operation by the second. -/
def mixedSlot : List (NotifyAct Bool) :=
  [.call (.poller false) (.dmaRead ⟨0, 4096, List.replicate 64 0⟩), .alloc (.poller false),
    .seeClear (.poller false)] ++
  ((List.range 127).map fun n => sendCall .main (.mmioReadCompl 0 n)).flatten ++
  [.call (.poller true) (.dmaWrite (cqe 128)), .alloc (.poller true),
    .seeClear (.poller true), .storeBody (.poller false), .storeBody (.poller true),
    .storeType (.poller true), .storeType (.poller false), .publish (.poller false)] ++
  sendNext ++ [.publish (.poller true)] ++ (List.replicate 128 sendNext).flatten

/-- The host answers the read that was made of the write, and the second poller goes on. -/
def answerMixed : List (NotifyAct Bool) :=
  [.dmaReadComp (.poller true) (List.replicate 16 0), .dmaDone (.poller true), .setEvent (.poller true) 1,
    .findSet 1 1, .alloc .main, .seeClear .main, .storeBody .main, .storeType .main,
    .publish .main] ++ sendNext

theorem overtaken_late : ∃ s, Run Step (start Bool) (mixedSlot ++ answerMixed) s ∧
    s.d2h.getLast? = some (.interrupt 1 .msix [cqe 128]) ∧
      (∀ op, .write op ∉ s.d2h) ∧ ¬ s.NotOvertaken := by
  have hends : (exec step? (mixedSlot ++ answerMixed) (start Bool)).map
      (fun s => (s.d2h.getLast?, s.d2h.any D2H.isWrite)) =
        some (some (.interrupt 1 .msix [cqe 128]), false) := by decide +kernel
  obtain ⟨s, hs, heq⟩ := Option.map_eq_some_iff.mp hends
  obtain ⟨hlast, hany⟩ := Prod.mk.inj heq
  have hnone : ∀ op, .write op ∉ s.d2h := fun op hop => by
    simpa [D2H.isWrite] using List.any_eq_false.mp hany _ hop
  refine ⟨s, run_of_exec hs, hlast, hnone, fun h => ?_⟩
  obtain ⟨before, hd2h⟩ := List.getLast?_eq_some_iff.mp hlast
  have hsent := h before 1 .msix [cqe 128] [] hd2h (cqe 128) (by simp)
  exact hnone (cqe 128) (by rw [hd2h]; exact List.mem_append_left _ hsent)

end Femu.Simbricks.Notify
