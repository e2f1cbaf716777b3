import Femu.Rte.Invariant

/-!
# Femu.Rte.Steps

Every step of a thread keeps `RingInv`. Three of them change the ring: the head is moved
(`takeSlots`), a pointer is stored, the tail is moved (`giveSlots`).
-/

namespace Femu.Rte

open Lib

namespace RingSys

variable {T α : Type} [DecidableEq T] {s s' : RingSys T α} {t : T} {m : RingMove α} {got : List α}

/-! ## the head is moved -/

section TakeSlots

@[simp] theorem takeSlots_r :
    (s.takeSlots t m).r = s.r.setHead m.call.side (m.oldHead + m.n) := by
  unfold takeSlots
  cases m.call <;> rfl

@[simp] theorem takeSlots_pc (u : T) :
    (s.takeSlots t m).pc u = if u = t then .copying m 0 [] else s.pc u := by
  unfold takeSlots
  cases m.call <;> exact Function.update_apply ..

@[simp] theorem takeSlots_tailCount (d : Side) :
    (s.takeSlots t m).tailCount d = s.tailCount d := by
  unfold takeSlots
  cases m.call <;> cases d <;> rfl

@[simp] theorem takeSlots_limit (d : Side) : (s.takeSlots t m).limit d = s.limit d := by
  unfold takeSlots
  cases m.call <;> cases d <;> rfl

@[simp] theorem takeSlots_released : (s.takeSlots t m).released = s.released :=
  takeSlots_tailCount .cons

@[simp] theorem takeSlots_published : (s.takeSlots t m).published = s.published :=
  takeSlots_tailCount .prod

theorem takeSlots_sent_prefix : s.sent <+: (s.takeSlots t m).sent := by
  unfold takeSlots
  cases m.call with
  | enqueue => exact List.prefix_append _ _
  | dequeue => exact List.prefix_refl _

theorem takeSlots_headCount (hm : m.Sized) (d : Side) :
    (s.takeSlots t m).headCount d =
      if d = m.call.side then s.headCount d + m.n.toNat else s.headCount d := by
  unfold takeSlots
  cases hcall : m.call with
  | enqueue objTable b =>
      have htake : (objTable.take m.n.toNat).length = m.n.toNat :=
        List.length_take_of_le (hm.le_table hcall)
      cases d
      case prod =>
        show (s.sent ++ objTable.take m.n.toNat).length = _
        rw [List.length_append, htake]
        rfl
      case cons => rfl
  | dequeue => cases d <;> rfl

/-- A thread whose head is the current one claims the next slots. -/
theorem RingInv.takeSlots (h : s.RingInv) (hpc : s.pc t = .moving m)
    (hhead : m.ticket = s.headCount m.call.side) : (s.takeSlots t m).RingInv := by
  have hok := h.pcOk t
  rw [hpc] at hok
  obtain ⟨hread, hsized, hroom⟩ := hok
  have hcount := takeSlots_headCount (s := s) (t := t) hsized
  have hside : (s.pc t).side? = some m.call.side := by rw [hpc]; rfl
  have hclaim : ∀ d, (s.pc t).claim d = none := by intro d; rw [hpc]; rfl
  constructor
  case wf =>
    rw [takeSlots_r]
    exact h.wf.setHead _ _
  case head =>
    intro d
    rw [takeSlots_r, RteRing.setHead_ht, hcount]
    split
    case isTrue heq =>
      subst heq
      rw [hread.oldHead_eq, hhead, UInt32.ofNat_add, UInt32.ofNat_toNat]
    case isFalse => exact h.head d
  case tail =>
    intro d
    rw [takeSlots_r, RteRing.setHead_ht, takeSlots_tailCount]
    split
    case isTrue heq =>
      subst heq
      exact h.tail _
    case isFalse => exact h.tail d
  case claims =>
    intro d
    have hupdate : (fun u => ((s.takeSlots t m).pc u).claim d) =
        Function.update (fun u => (s.pc u).claim d) t
          (if d = m.call.side then some (s.headCount d, m.n.toNat) else none) := by
      funext u
      rw [takeSlots_pc, Function.update_apply]
      split
      · by_cases hd : m.call.side = d
        · rw [if_pos hd.symm, RingPc.claim, if_pos hd, hhead, hd]
        · rw [if_neg (Ne.symm hd), RingPc.claim, if_neg hd]
      · rfl
    rw [hupdate, hcount, takeSlots_tailCount]
    split
    case isTrue => exact (h.claims d).take (hclaim d) hsized.pos
    case isFalse =>
      rw [← hclaim d, Function.update_eq_self t fun u => (s.pc u).claim d]
      exact h.claims d
  case limit =>
    intro d
    rw [hcount, takeSlots_limit]
    split
    case isTrue heq =>
      subst heq
      rwa [← hhead]
    case isFalse => exact h.limit d
  case slots =>
    intro j a hlo hhi ha
    rw [takeSlots_released] at hlo
    rw [takeSlots_published] at hhi
    have hlt : j < s.sent.length := Nat.lt_of_lt_of_le hhi h.ordered.2.2.1
    have hsent : s.sent <+: (s.takeSlots t m).sent := takeSlots_sent_prefix
    obtain ⟨rest, hrest⟩ := hsent
    rw [← hrest, List.getElem?_append_left hlt] at ha
    rw [takeSlots_r, RteRing.setHead_ring, RteRing.setHead_size]
    exact h.slots j a hlo hhi ha
  case pcOk =>
    intro u
    rw [takeSlots_pc]
    split
    case isTrue =>
      refine ⟨Nat.zero_le _, hsized, hread.oldHead_eq, ?_, fun objTable b hcall => ?_,
        fun n b _ => (List.take_zero ..).symm⟩
      · -- the claim lies within what has been sent
        cases hcall : m.call with
        | enqueue objTable b =>
            have hprod := hcount .prod
            rw [hcall, RingCall.side, if_pos rfl] at hprod
            rw [hcall] at hhead
            exact Nat.le_of_eq (by rw [hhead]; exact hprod.symm)
        | dequeue n b =>
            rw [hcall] at hroom
            have hsent : s.sent <+: (s.takeSlots t m).sent := takeSlots_sent_prefix
            exact Nat.le_trans hroom (Nat.le_trans h.ordered.2.2.1 hsent.length_le)
      · have hsent : (s.takeSlots t m).sent = s.sent ++ objTable.take m.n.toNat := by
          unfold RingSys.takeSlots
          rw [hcall]
          rfl
        rw [hcall] at hhead
        refine ⟨?_, fun j hj => absurd hj (Nat.not_lt_zero j)⟩
        have hlen : s.headCount (RingCall.enqueue objTable b).side = s.sent.length := rfl
        rw [hsent, hhead, hlen, List.drop_left, List.take_take, Nat.min_self]
    case isFalse hne =>
      have hgrow : ∀ d, s.headCount d ≤ (s.takeSlots t m).headCount d := by
        intro d
        rw [hcount]
        split <;> omega
      refine PcOk.frame (h.pcOk u) (by simp) takeSlots_sent_prefix hgrow (fun d => by simp) ?_ ?_ ?_
        fun _ _ _ => by simp
      · intro d
        rw [takeSlots_r, RteRing.setHead_ht]
        split
        case isTrue heq => rw [heq]
        case isFalse => rfl
      · intro d hd hsingle
        rw [hcount, if_neg]
        rintro rfl
        exact hne (h.alone _ hsingle u t hd hside)
      · intro k n _ j _ _
        rw [takeSlots_r, RteRing.setHead_ring]
  case alone =>
    intro d hd u v hu hv
    have hstay : ∀ w, ((s.takeSlots t m).pc w).side? = some d → (s.pc w).side? = some d := by
      intro w hw
      rw [takeSlots_pc] at hw
      split at hw
      case isTrue heq =>
        rw [heq, hside]
        exact hw
      case isFalse => exact hw
    have hold : (s.r.ht d).single = true := by
      rw [takeSlots_r, RteRing.setHead_ht] at hd
      split at hd
      case isTrue heq => rw [heq]; exact hd
      case isFalse => exact hd
    exact h.alone d hold u v (hstay u hu) (hstay v hv)

end TakeSlots

/-! ## the tail is moved -/

section GiveSlots

@[simp] theorem giveSlots_r :
    (s.giveSlots t m got).r = s.r.setTail m.call.side (m.oldHead + m.n) := by
  unfold giveSlots
  cases m.call <;> rfl

@[simp] theorem giveSlots_pc (u : T) :
    (s.giveSlots t m got).pc u = if u = t then .returned m got else s.pc u := by
  unfold giveSlots
  cases m.call <;> exact Function.update_apply ..

@[simp] theorem giveSlots_headCount (d : Side) :
    (s.giveSlots t m got).headCount d = s.headCount d := by
  unfold giveSlots
  cases m.call <;> cases d <;> rfl

@[simp] theorem giveSlots_sent : (s.giveSlots t m got).sent = s.sent := by
  unfold giveSlots
  cases m.call <;> rfl

theorem giveSlots_tailCount (d : Side) : (s.giveSlots t m got).tailCount d =
    if d = m.call.side then s.tailCount d + m.n.toNat else s.tailCount d := by
  unfold giveSlots
  cases m.call <;> cases d <;> rfl

theorem limit_le_giveSlots (d : Side) : s.limit d ≤ (s.giveSlots t m got).limit d := by
  have hcount (e : Side) : (s.giveSlots t m got).tailCount e =
      if e = m.call.side then s.tailCount e + m.n.toNat else s.tailCount e :=
    giveSlots_tailCount e
  have hprod := hcount .prod
  have hcons := hcount .cons
  simp only [tailCount] at hprod hcons
  cases d with
  | prod =>
      simp only [limit, giveSlots_r, RteRing.setTail_capacity, hcons]
      split <;> omega
  | cons =>
      simp only [limit, hprod]
      split <;> omega

/-- A thread that has copied the pointers of the first claim gives its slots on. -/
theorem RingInv.giveSlots (h : s.RingInv) (hpc : s.pc t = .waited m got) :
    (s.giveSlots t m got).RingInv := by
  have hok := h.pcOk t
  rw [hpc] at hok
  obtain ⟨hcopied, htail⟩ := hok
  have hcount (e : Side) : (s.giveSlots t m got).tailCount e =
      if e = m.call.side then s.tailCount e + m.n.toNat else s.tailCount e :=
    giveSlots_tailCount e
  have hclaim : ∀ d, (s.pc t).claim d =
      if m.call.side = d then some (m.ticket, m.n.toNat) else none := by
    intro d
    rw [hpc]
    rfl
  constructor
  case wf =>
    rw [giveSlots_r]
    exact h.wf.setTail _ _
  case head =>
    intro d
    rw [giveSlots_r, RteRing.setTail_ht, giveSlots_headCount]
    split
    case isTrue heq =>
      subst heq
      exact h.head _
    case isFalse => exact h.head d
  case tail =>
    intro d
    rw [giveSlots_r, RteRing.setTail_ht, hcount]
    split
    case isTrue heq =>
      subst heq
      rw [hcopied.oldHead_eq, htail, UInt32.ofNat_add, UInt32.ofNat_toNat]
    case isFalse => exact h.tail d
  case claims =>
    intro d
    have hupdate : (fun u => ((s.giveSlots t m got).pc u).claim d) =
        Function.update (fun u => (s.pc u).claim d) t none := by
      funext u
      rw [giveSlots_pc, Function.update_apply]
      split <;> rfl
    rw [hupdate, hcount, giveSlots_headCount]
    split
    case isTrue heq =>
      subst heq
      refine (h.claims _).release ?_
      rw [hclaim, if_pos rfl, htail]
    case isFalse hne =>
      have hnone : none = (s.pc t).claim d := by rw [hclaim, if_neg (Ne.symm hne)]
      rw [hnone, Function.update_eq_self t fun u => (s.pc u).claim d]
      exact h.claims d
  case limit =>
    intro d
    rw [giveSlots_headCount]
    exact Nat.le_trans (h.limit d) (limit_le_giveSlots d)
  case slots =>
    intro j a hlo hhi ha
    have hreleased := hcount .cons
    have hpublished := hcount .prod
    simp only [tailCount] at hreleased hpublished
    rw [giveSlots_sent] at ha
    rw [giveSlots_r, RteRing.setTail_ring, RteRing.setTail_size]
    cases hcall : m.call with
    | enqueue objTable b =>
        rw [hcall] at htail hreleased hpublished
        simp only [RingCall.side, reduceCtorEq, if_false, if_true] at hreleased hpublished
        rw [hreleased] at hlo
        rw [hpublished] at hhi
        have htk : s.published = m.ticket := htail
        by_cases hj : j < s.published
        · exact h.slots j a hlo hj ha
        · have hput := (hcopied.put objTable b hcall).2 (j - m.ticket) (by omega) a
          rw [show m.ticket + (j - m.ticket) = j by omega] at hput
          exact hput ha
    | dequeue n b =>
        rw [hcall] at hreleased hpublished
        simp only [RingCall.side, reduceCtorEq, if_false, if_true] at hreleased hpublished
        exact h.slots j a (by omega) (by omega) ha
  case pcOk =>
    intro u
    rw [giveSlots_pc]
    have hframe : ∀ p, s.PcOk p → (∀ m' got', p = .waited m' got' →
        (s.giveSlots t m got).tailCount m'.call.side = s.tailCount m'.call.side) →
        (s.giveSlots t m got).PcOk p := by
      intro p hp hwaited
      refine PcOk.frame hp (by simp) (by simp) (fun d => by simp) limit_le_giveSlots ?_
        (fun d _ _ => by simp) (fun _ _ _ _ _ _ => by simp) hwaited
      intro d
      rw [giveSlots_r, RteRing.setTail_ht]
      split
      case isTrue heq => rw [heq]
      case isFalse => rfl
    split
    case isTrue =>
      refine hframe _ ⟨?_, hcopied.get⟩ fun _ _ heq => by cases heq
      refine ⟨hcopied.sized, hcopied.oldHead_eq, hcopied.le_sent, fun objTable b hcall => ?_,
        fun _ _ _ => (List.take_zero ..).symm⟩
      exact ⟨(hcopied.put objTable b hcall).1, fun j hj => absurd hj (Nat.not_lt_zero j)⟩
    case isFalse hne =>
      refine hframe _ (h.pcOk u) fun m' got' hu => ?_
      rw [hcount]
      split
      case isTrue heq =>
        -- two threads past the loop would own the same claim
        have hok' := h.pcOk u
        rw [hu] at hok'
        obtain ⟨hcopied', htail'⟩ := hok'
        have hclaimu : (s.pc u).claim m.call.side = some (m'.ticket, m'.n.toNat) := by
          rw [hu, RingPc.claim, if_pos heq]
        have hclaimt : (s.pc t).claim m.call.side = some (m.ticket, m.n.toNat) := by
          rw [hclaim, if_pos rfl]
        have hpos := hcopied.sized.pos
        have hpos' := hcopied'.sized.pos
        rw [heq] at htail'
        exact absurd ((h.claims m.call.side).unique hclaimu hclaimt (i := m.ticket) (by omega)
          (by omega) (Nat.le_refl _) (by omega)) hne
      case isFalse => rfl
  case alone =>
    intro d hd u v hu hv
    have hstay : ∀ w, ((s.giveSlots t m got).pc w).side? = some d → (s.pc w).side? = some d := by
      intro w hw
      rw [giveSlots_pc] at hw
      split at hw
      case isTrue => cases hw
      case isFalse => exact hw
    have hold : (s.r.ht d).single = true := by
      rw [giveSlots_r, RteRing.setTail_ht] at hd
      split at hd
      case isTrue heq => rw [heq]; exact hd
      case isFalse => exact hd
    exact h.alone d hold u v (hstay u hu) (hstay v hv)

end GiveSlots

/-! ## the other steps -/

omit [DecidableEq T] in
/-- A claim has no more slots than the ring. -/
theorem RingInv.claim_le (h : s.RingInv) {i : Nat} (hpc : s.pc t = .copying m i got) :
    m.n.toNat ≤ s.r.size.toNat := by
  have hclaim : (s.pc t).claim m.call.side = some (m.ticket, m.n.toNat) := by
    rw [hpc, RingPc.claim, if_pos rfl]
  have hin := (h.claims m.call.side).inside t _ _ hclaim
  have hcap := h.wf.capacity_lt
  obtain ⟨h1, h2, h3, h4⟩ := h.ordered
  cases hd : m.call.side <;> rw [hd] at hin <;> simp only [tailCount, headCount] at hin <;> omega

section Store

variable {p : Nat} {a : α}

omit [DecidableEq T] in
theorem store_ring (q : Nat) : (s.store p a).r.ring q = if q = p then a else s.r.ring q :=
  Function.update_apply ..

omit [DecidableEq T] in
/-- What a store leaves as it is, it also leaves right. -/
theorem store_pcOk {q : RingPc α} (hq : s.PcOk q)
    (hring : ∀ k n, q.claim .prod = some (k, n) → ∀ j, k ≤ j → j < k + n →
      (s.store p a).r.ring (j % s.r.size.toNat) = s.r.ring (j % s.r.size.toNat)) :
    (s.store p a).PcOk q :=
  PcOk.frame hq rfl (List.prefix_refl _) (fun d => by cases d <;> exact Nat.le_refl _)
    (fun d => by cases d <;> exact Nat.le_refl _) (fun d => by cases d <;> rfl)
    (fun d _ _ => by cases d <;> rfl) hring fun m _ _ => by cases m.call.side <;> rfl

/-- A producer stores a pointer in a slot of its claim. -/
theorem RingInv.store (h : s.RingInv) {i : Nat} (hpc : s.pc t = .copying m i got)
    {objTable : List α} {b : QueueBehavior} (hcall : m.call = .enqueue objTable b)
    (hi : i < m.n.toNat) (ha : objTable[i]? = some a) :
    ((s.store ((m.ticket + i) % s.r.size.toNat) a).goto t (.copying m (i + 1) got)).RingInv := by
  have hok := h.pcOk t
  rw [hpc] at hok
  obtain ⟨-, hcopied⟩ := hok
  have hclaim : (s.pc t).claim .prod = some (m.ticket, m.n.toNat) := by
    rw [hpc, RingPc.claim, hcall]
    rfl
  have hin : s.published ≤ m.ticket ∧ m.ticket + m.n.toNat ≤ s.sent.length :=
    (h.claims .prod).inside t _ _ hclaim
  obtain ⟨h1, h2, h3, h4⟩ := h.ordered
  have hcap := h.wf.capacity_lt
  -- every other number that is in use has a slot of its own
  have hother : ∀ j, s.released ≤ j → j < s.sent.length → j ≠ m.ticket + i →
      (s.store ((m.ticket + i) % s.r.size.toNat) a).r.ring (j % s.r.size.toNat) =
        s.r.ring (j % s.r.size.toNat) := by
    intro j hlo hhi hne
    rw [store_ring, if_neg]
    rcases Nat.lt_or_gt_of_ne hne with hlt | hgt
    · exact mod_ne_of_lt hlt (by omega)
    · exact (mod_ne_of_lt hgt (by omega)).symm
  have hothers : ∀ u, u ≠ t → (s.store ((m.ticket + i) % s.r.size.toNat) a).PcOk (s.pc u) := by
    intro u hut
    refine store_pcOk (h.pcOk u) fun k n hk j hkj hjn => ?_
    have hinu : s.published ≤ k ∧ k + n ≤ s.sent.length := (h.claims .prod).inside u k n hk
    refine hother j (by omega) (by omega) ?_
    rintro rfl
    exact hut ((h.claims .prod).unique hk hclaim hkj hjn (Nat.le_add_right _ _) (by omega))
  obtain ⟨htable, hput⟩ := hcopied.put objTable b hcall
  have hsent : s.sent[m.ticket + i]? = some a := by
    rw [← List.getElem?_drop, ← List.getElem?_take_of_lt hi, htable, List.getElem?_take_of_lt hi, ha]
  have hmine : (s.store ((m.ticket + i) % s.r.size.toNat) a).PcOk (.copying m (i + 1) got) := by
    refine ⟨hi, hcopied.sized, hcopied.oldHead_eq, hcopied.le_sent, fun objTable' b' hcall' => ?_,
      fun n b' hcall' => by rw [hcall] at hcall'; cases hcall'⟩
    refine ⟨(hcopied.put objTable' b' hcall').1, fun j hj c hc => ?_⟩
    by_cases hji : j = i
    · subst hji
      rw [show (s.store _ a).sent = s.sent from rfl, hsent] at hc
      rw [store_ring]
      exact (if_pos rfl).trans (Option.some.inj hc)
    · rw [show (s.store _ a).r.size = s.r.size from rfl,
        hother _ (by omega) (by omega) (by omega)]
      exact hput j (by omega) c hc
  constructor
  case wf => exact ⟨h.wf.size_eq, h.wf.mask_eq, h.wf.capacity_lt⟩
  case head => intro d; cases d <;> [exact h.head .prod; exact h.head .cons]
  case tail => intro d; cases d <;> [exact h.tail .prod; exact h.tail .cons]
  case claims =>
    intro d
    have hsame : (RingPc.copying m (i + 1) got).claim d = (s.pc t).claim d := by rw [hpc]; rfl
    rw [claims_update (s := s.store _ a) hsame, goto_headCount, goto_tailCount]
    have hself := Function.update_eq_self t fun u => (s.pc u).claim d
    cases d <;> [exact hself.symm ▸ h.claims .prod; exact hself.symm ▸ h.claims .cons]
  case limit => intro d; cases d <;> [exact h.limit .prod; exact h.limit .cons]
  case slots =>
    intro j c hlo hhi hc
    have hhi' : j < s.published := hhi
    exact (hother j hlo (by omega) (by omega)).trans (h.slots j c hlo hhi hc)
  case pcOk =>
    intro u
    rw [goto_pc]
    split
    case isTrue => exact goto_pcOk hmine
    case isFalse hne => exact goto_pcOk (hothers u hne)
  case alone =>
    intro d hd u v hu hv
    have hstay : ∀ w, (((s.store ((m.ticket + i) % s.r.size.toNat) a).goto t
        (.copying m (i + 1) got)).pc w).side? = (s.pc w).side? := by
      intro w
      rw [goto_pc]
      split
      case isTrue heq => rw [heq, hpc]; rfl
      case isFalse => rfl
    have hold : (s.r.ht d).single = true := by cases d <;> exact hd
    rw [hstay] at hu hv
    exact h.alone d hold u v hu hv

end Store

omit [DecidableEq T] in
/-- A consumer loads a pointer from a slot of its claim. -/
theorem Copied.load {i : Nat} (hcopied : s.Copied m i got) (h : s.RingInv)
    (hpc : s.pc t = .copying m i got) {n : UInt32} {b : QueueBehavior}
    (hcall : m.call = .dequeue n b) (hi : i < m.n.toNat) :
    s.Copied m (i + 1) (got ++ [s.r.ring ((m.ticket + i) % s.r.size.toNat)]) := by
  have hclaim : (s.pc t).claim .cons = some (m.ticket, m.n.toNat) := by
    rw [hpc, RingPc.claim, hcall]
    rfl
  have hin : s.released ≤ m.ticket ∧ m.ticket + m.n.toNat ≤ s.claimed :=
    (h.claims .cons).inside t _ _ hclaim
  obtain ⟨h1, h2, h3, h4⟩ := h.ordered
  refine ⟨hcopied.sized, hcopied.oldHead_eq, hcopied.le_sent, fun objTable b' hcall' => ?_,
    fun n' b' _ => ?_⟩
  · rw [hcall] at hcall'
    cases hcall'
  · have hlt : m.ticket + i < s.sent.length := by omega
    have hsent : s.sent[m.ticket + i]? = some s.sent[m.ticket + i] := List.getElem?_eq_getElem hlt
    have hslot := h.slots (m.ticket + i) _ (by omega) (by omega) hsent
    rw [hslot, hcopied.get n b hcall, List.take_add_one, List.getElem?_drop, hsent]
    rfl

/-- A thread that is at a place from which nothing is used and goes to such a place. -/
theorem RingInv.rest (h : s.RingInv) {p : RingPc α} (hold : ∀ d, (s.pc t).claim d = none)
    (hnew : ∀ d, p.claim d = none) (hside : p.side? = none) (hok : s.PcOk p) :
    (s.goto t p).RingInv :=
  h.goto (fun d => by rw [hold, hnew]) hok fun d hd => by rw [hside] at hd; cases hd

theorem RingInv.readTail (h : s.RingInv) {c : RingCall α} {oldHead : UInt32} {ticket : Nat}
    (hpc : s.pc t = .headRead c oldHead ticket)
    (htime : s.headCount c.side + s.r.capacity.toNat < ticket + 2 ^ 32)
    (hn : c.behavior.clamp c.n (s.r.entries c.side oldHead) ≠ 0) :
    (s.goto t (.moving ⟨c, oldHead, s.r.entries c.side oldHead,
      c.behavior.clamp c.n (s.r.entries c.side oldHead), ticket⟩)).RingInv := by
  have hread := h.pcOk t
  rw [hpc] at hread
  refine h.goto (fun d => by rw [hpc]; rfl) ?_ fun d hd => .inl (by rw [hpc]; exact hd)
  obtain ⟨hentries, hle⟩ := h.entries_eq hread htime
  have hclamp := (c.behavior.clamp_le c.n (s.r.entries c.side oldHead)).2
  refine ⟨hread, ⟨rfl, ?_⟩, ?_⟩
  · exact Nat.pos_of_ne_zero fun h0 => hn (UInt32.toNat_inj.mp h0)
  · rw [hentries] at hclamp
    show ticket + (c.behavior.clamp c.n (s.r.entries c.side oldHead)).toNat ≤ s.limit c.side
    omega

omit [DecidableEq T] in
/-- The head that a compare-and-set finds unchanged, in time, is the current one. -/
theorem RingInv.ticket_eq (h : s.RingInv) (hpc : s.pc t = .moving m)
    (htime : s.headCount m.call.side + s.r.capacity.toNat < m.ticket + 2 ^ 32)
    (hcas : (s.r.ht m.call.side).single = true ∨ (s.r.ht m.call.side).head = m.oldHead) :
    m.ticket = s.headCount m.call.side := by
  have hok := h.pcOk t
  rw [hpc] at hok
  obtain ⟨hread, -, -⟩ := hok
  rcases hcas with hsingle | heq
  · exact hread.single hsingle
  · rw [h.head, hread.oldHead_eq] at heq
    exact (eq_of_ofNat_eq heq hread.le (by omega)).symm

omit [DecidableEq T] in
/-- Past the `while` loop, the tail is at the claim of the thread. -/
theorem RingInv.tail_eq (h : s.RingInv) {i : Nat} (hpc : s.pc t = .copying m i got)
    (hseen : (s.r.ht m.call.side).single = true ∨ (s.r.ht m.call.side).tail = m.oldHead) :
    s.tailCount m.call.side = m.ticket := by
  have hok := h.pcOk t
  rw [hpc] at hok
  obtain ⟨-, hcopied⟩ := hok
  have hclaim : (s.pc t).claim m.call.side = some (m.ticket, m.n.toNat) := by
    rw [hpc, RingPc.claim, if_pos rfl]
  have hin := (h.claims m.call.side).inside t _ _ hclaim
  have hpos := hcopied.sized.pos
  rcases hseen with hsingle | heq
  · -- nobody else has a claim
    obtain ⟨u, n, hu⟩ := (h.claims m.call.side).exists_first (by omega)
    have hside : ∀ v k n, (s.pc v).claim m.call.side = some (k, n) →
        (s.pc v).side? = some m.call.side := by
      intro v k n hv
      cases hpcv : s.pc v with
      | copying m' =>
          rw [hpcv, RingPc.claim] at hv
          split at hv
          case isTrue heq => exact congrArg some heq
          case isFalse => cases hv
      | waited m' =>
          rw [hpcv, RingPc.claim] at hv
          split at hv
          case isTrue heq => exact congrArg some heq
          case isFalse => cases hv
      | _ => rw [hpcv] at hv; cases hv
    obtain rfl := h.alone _ hsingle u t (hside u _ _ hu) (hside t _ _ hclaim)
    rw [hclaim] at hu
    exact (congrArg Prod.fst (Option.some.inj hu)).symm
  · rw [h.tail, hcopied.oldHead_eq] at heq
    have hcap := h.wf.capacity_lt
    have hsize := s.r.size.toNat_lt
    obtain ⟨h1, h2, h3, h4⟩ := h.ordered
    refine (eq_of_ofNat_eq heq.symm hin.1 ?_).symm
    cases hd : m.call.side <;> rw [hd] at hin <;> simp only [tailCount, headCount] at hin ⊢ <;>
      omega

theorem RingInv.seeTail (h : s.RingInv) {i : Nat} (hpc : s.pc t = .copying m i got)
    (hi : (s.r.slots m.oldHead m.n).length ≤ i)
    (hseen : (s.r.ht m.call.side).single = true ∨ (s.r.ht m.call.side).tail = m.oldHead) :
    (s.goto t (.waited m got)).RingInv := by
  have hok := h.pcOk t
  rw [hpc] at hok
  obtain ⟨hle, hcopied⟩ := hok
  refine h.goto (fun d => by rw [hpc]; rfl) ?_ fun d hd => .inl (by rw [hpc]; exact hd)
  have hn := h.claim_le hpc
  rw [hcopied.oldHead_eq, h.wf.slots_eq m.ticket hn, List.length_map, List.length_range] at hi
  obtain rfl : i = m.n.toNat := by omega
  exact ⟨hcopied, h.tail_eq hpc hseen⟩

/-- **Step lemma**: threads that use the ring as they should keep it in order. -/
theorem ProperStep.inv {act : RingAct T α} (hstep : s.ProperStep act s') (h : s.RingInv) :
    s'.RingInv := by
  obtain ⟨⟨htime, halone⟩, hstep⟩ := hstep
  cases act with
  | call t c =>
      obtain ⟨hpc, rfl⟩ := hstep.call
      have hnone : ∀ d, (s.pc t).claim d = none := by
        intro d
        rcases hpc with hpc | ⟨k, hpc⟩ <;> rw [hpc] <;> rfl
      refine h.goto (fun d => (hnone d).symm) trivial fun d hd => .inr fun hsingle u _ hu => ?_
      cases hd
      exact halone hsingle u hu
  | readHead t =>
      obtain ⟨c, hpc, rfl⟩ := hstep.readHead
      refine h.goto (fun d => by rw [hpc]; rfl) ?_ fun d hd => .inl (by rw [hpc]; exact hd)
      exact ⟨h.head _, Nat.le_refl _, fun _ => rfl⟩
  | readTail t =>
      obtain ⟨c, oldHead, ticket, hpc, ⟨h0, rfl⟩ | ⟨hn, rfl⟩⟩ := hstep.readTail
      · exact h.rest (fun d => by rw [hpc]; rfl) (fun _ => rfl) rfl trivial
      · have htime := htime _ (by rw [hpc]; rfl)
        exact h.readTail hpc htime hn
  | moveHead t =>
      obtain ⟨m, hpc, ⟨hcas, rfl⟩ | rfl⟩ := hstep.moveHead
      · have htime := htime _ (by rw [hpc]; rfl)
        exact h.takeSlots hpc (h.ticket_eq hpc htime hcas)
      · exact h.goto (fun d => by rw [hpc]; rfl) trivial fun d hd => .inl (by rw [hpc]; exact hd)
  | copy t =>
      obtain ⟨m, i, got, p, hpc, hp, hcase⟩ := hstep.copy
      have hok := h.pcOk t
      rw [hpc] at hok
      obtain ⟨hi, rfl⟩ := h.slot_eq hok.2 (h.claim_le hpc) hp
      rcases hcase with ⟨objTable, b, a, hcall, ha, rfl⟩ | ⟨n, b, hcall, rfl⟩
      · exact h.store hpc hcall hi ha
      · refine h.goto (fun d => by rw [hpc]; rfl) ?_ fun d hd => .inl (by rw [hpc]; exact hd)
        exact ⟨hi, hok.2.load h hpc hcall hi⟩
  | seeTail t =>
      obtain ⟨m, i, got, hpc, hi, hseen, rfl⟩ := hstep.seeTail
      exact h.seeTail hpc hi hseen
  | storeTail t =>
      obtain ⟨m, got, hpc, rfl⟩ := hstep.storeTail
      exact h.giveSlots hpc
  | ret t =>
      obtain ⟨hpc, rfl⟩ := hstep.ret
      refine h.rest (fun d => ?_) (fun _ => rfl) rfl trivial
      rcases hpc with ⟨m, got, hpc⟩ | ⟨c, k, hpc⟩ | ⟨k, hpc⟩ <;> rw [hpc] <;> rfl
  | count t =>
      obtain ⟨hpc, rfl⟩ := hstep.count
      refine h.rest (fun d => ?_) (fun _ => rfl) rfl trivial
      rcases hpc with hpc | ⟨k, hpc⟩ <;> rw [hpc] <;> rfl
  | readConsTail t =>
      obtain ⟨prodTail, hpc, rfl⟩ := hstep.readConsTail
      exact h.rest (fun d => by rw [hpc]; rfl) (fun _ => rfl) rfl trivial

/-! ## the start -/

/-- A ring that has just been created, and threads that have not used it yet. -/
def start (r : RteRing α) : RingSys T α := ⟨r, fun _ => .idle, [], 0, 0, 0, []⟩

omit [DecidableEq T] in
theorem start_inv {r : RteRing α} {count flags : UInt32} (hr : r.Fresh count flags) :
    (start r : RingSys T α).RingInv where
  wf := hr.wellFormed
  head d := by cases d <;> exact (hr.empty _).1
  tail d := by cases d <;> exact (hr.empty _).2
  claims d := by cases d <;> exact Claims.empty fun _ => rfl
  limit d := by cases d <;> exact Nat.zero_le _
  slots j a _ hj := absurd hj (Nat.not_lt_zero j)
  pcOk _ := trivial
  alone d _ t u ht := by cases ht

/-- **Run lemma**. -/
theorem run_ringInv {r : RteRing α} {count flags : UInt32} (hr : r.Fresh count flags)
    {acts : List (RingAct T α)} (hrun : Run ProperStep (start r) acts s) : s.RingInv :=
  Run.invariant (fun _ _ _ hs hstep => hstep.inv hs) (start_inv hr) hrun

end RingSys

end Femu.Rte
