import Femu.Lib.Claims
import Femu.Lib.Ring
import Femu.Rte.Create

/-!
# Femu.Rte.Invariant

What holds of a ring and its threads between any two steps. The numbers of the pointers
are cut into four parts: those that the consumers have given back, those that they have
claimed, those that are published and not claimed, and those that the producers have
claimed; `RingInv` says which threads own the claimed ones, and that the slots hold
what they should.

The cursors count modulo `2^32`, so a thread that sleeps between the read of a head and the
compare-and-set while the ring goes once around all of them takes the old value for the
new one. `InTime` says that this does not happen; `Alone` that an end with
`single` set is used by one thread at a time.
-/

namespace Femu.Rte

open Lib

/-! ## cursors -/

/-- The distance of two cursors. -/
theorem toNat_ofNat_sub {a b : Nat} (hle : b ≤ a) (hlt : a < b + 2 ^ 32) :
    (UInt32.ofNat a - UInt32.ofNat b).toNat = a - b := by
  rw [UInt32.toNat_sub, UInt32.toNat_ofNat', UInt32.toNat_ofNat']
  omega

/-- Cursors that are less than a turn apart. -/
theorem eq_of_ofNat_eq {a b : Nat} (h : UInt32.ofNat a = UInt32.ofNat b) (hle : b ≤ a)
    (hlt : a < b + 2 ^ 32) : a = b := by
  have heq := congrArg UInt32.toNat h
  rw [UInt32.toNat_ofNat', UInt32.toNat_ofNat'] at heq
  omega

theorem foursFrom_eq (idx k : Nat) : foursFrom idx k = List.range' idx (4 * k) := by
  induction k generalizing idx with
  | zero => rfl
  | succ k ih =>
      rw [foursFrom, ih, show 4 * (k + 1) = 4 * k + 1 + 1 + 1 + 1 by omega]
      simp only [List.range'_succ]

theorem restFrom_eq (idx n : Nat) : restFrom idx n = List.range' idx (n % 4) := by
  have hlt : n % 4 < 4 := Nat.mod_lt n (by decide)
  unfold restFrom
  generalize n % 4 = k at hlt
  match k, hlt with
  | 0, _ | 1, _ | 2, _ | 3, _ => rfl

namespace RteRing

variable {α : Type} {r : RteRing α}

theorem WellFormed.mask (h : r.WellFormed) (k : Nat) :
    (UInt32.ofNat k &&& r.mask).toNat = k % r.size.toNat := by
  obtain ⟨e, he, hsize⟩ := h.size_eq
  have hpos := h.size_pos
  have hdvd : 2 ^ e ∣ 2 ^ 32 := Nat.pow_dvd_pow 2 (by omega)
  rw [h.mask_eq, UInt32.toNat_and, toNat_sub_one (by omega), hsize,
    Nat.and_two_pow_sub_one_eq_mod, UInt32.toNat_ofNat', Nat.mod_mod_of_dvd _ hdvd]

/-- **The copy loops** access the slots of consecutive pointers, whether they are
unrolled or go around the end of the ring. -/
theorem WellFormed.slots_eq (h : r.WellFormed) (k : Nat) {n : UInt32}
    (hn : n.toNat ≤ r.size.toNat) :
    r.slots (.ofNat k) n = (List.range n.toNat).map fun i => (k + i) % r.size.toNat := by
  have hpos := h.size_pos
  obtain ⟨e, he, hsize⟩ := h.size_eq
  have hpow : 2 ^ e ≤ 2 ^ 31 := Nat.pow_le_pow_right Nat.two_pos he
  have hidx := h.mask k
  have hlt : k % r.size.toNat < r.size.toNat := Nat.mod_lt k hpos
  have hmod : ∀ i < n.toNat, (k + i) % r.size.toNat =
      if k % r.size.toNat + i < r.size.toNat then k % r.size.toNat + i
      else k % r.size.toNat + i - r.size.toNat := by
    intro i hi
    rw [← Nat.mod_add_mod]
    split
    case isTrue hin => exact Nat.mod_eq_of_lt hin
    case isFalse hout =>
      rw [Nat.mod_eq_sub_mod (by omega)]
      exact Nat.mod_eq_of_lt (by omega)
  have hcond : (.ofNat k &&& r.mask) + n < r.size ↔
      k % r.size.toNat + n.toNat < r.size.toNat := by
    rw [UInt32.lt_iff_toNat_lt, UInt32.toNat_add, hidx, Nat.mod_eq_of_lt (by omega)]
  unfold slots
  simp only [hcond, hidx]
  apply List.ext_getElem?
  intro i
  rw [List.getElem?_map]
  split
  case isTrue hin =>
    have hsum : 4 * (n.toNat / 4) + n.toNat % 4 = n.toNat := Nat.div_add_mod _ 4
    rw [foursFrom_eq, restFrom_eq, List.range'_append_1, hsum]
    by_cases hi : i < n.toNat
    · rw [List.getElem?_range hi, List.getElem?_range' hi, Option.map_some, hmod i hi,
        if_pos (by omega), Nat.one_mul]
    · rw [List.getElem?_eq_none (by simpa using hi), List.getElem?_eq_none (by simpa using hi)]
      rfl
  case isFalse hout =>
    by_cases hi : i < n.toNat
    · rw [List.getElem?_range hi, Option.map_some, hmod i hi]
      by_cases hfirst : i < r.size.toNat - k % r.size.toNat
      · rw [List.getElem?_append_left (by simpa using hfirst), List.getElem?_range' hfirst,
          if_pos (by omega), Nat.one_mul]
      · rw [List.getElem?_append_right (by simpa using hfirst), List.length_range',
          List.getElem?_range' (by omega), if_neg (by omega)]
        congr 1
        omega
    · rw [List.getElem?_eq_none (by simp; omega), List.getElem?_eq_none (by simpa using hi)]
      rfl

@[simp] theorem setHead_size (d : Side) (v : UInt32) : (r.setHead d v).size = r.size := by
  cases d <;> rfl

@[simp] theorem setHead_capacity (d : Side) (v : UInt32) :
    (r.setHead d v).capacity = r.capacity := by
  cases d <;> rfl

@[simp] theorem setHead_ring (d : Side) (v : UInt32) : (r.setHead d v).ring = r.ring := by
  cases d <;> rfl

theorem setHead_ht (d e : Side) (v : UInt32) :
    (r.setHead d v).ht e = if e = d then { r.ht d with head := v } else r.ht e := by
  cases d <;> cases e <;> rfl

@[simp] theorem setTail_size (d : Side) (v : UInt32) : (r.setTail d v).size = r.size := by
  cases d <;> rfl

@[simp] theorem setTail_capacity (d : Side) (v : UInt32) :
    (r.setTail d v).capacity = r.capacity := by
  cases d <;> rfl

@[simp] theorem setTail_ring (d : Side) (v : UInt32) : (r.setTail d v).ring = r.ring := by
  cases d <;> rfl

theorem setTail_ht (d e : Side) (v : UInt32) :
    (r.setTail d v).ht e = if e = d then { r.ht d with tail := v } else r.ht e := by
  cases d <;> cases e <;> rfl

theorem WellFormed.setHead (h : r.WellFormed) (d : Side) (v : UInt32) :
    (r.setHead d v).WellFormed := by
  cases d <;> exact ⟨h.size_eq, h.mask_eq, h.capacity_lt⟩

theorem WellFormed.setTail (h : r.WellFormed) (d : Side) (v : UInt32) :
    (r.setTail d v).WellFormed := by
  cases d <;> exact ⟨h.size_eq, h.mask_eq, h.capacity_lt⟩

end RteRing

/-! ## the threads -/

namespace RingPc

variable {α : Type}

/-- The pointers whose slots a thread has claimed at an end, as the first number and how
many. -/
def claim (d : Side) : RingPc α → Option (Nat × Nat)
  | .copying m _ _ | .waited m _ => if m.call.side = d then some (m.ticket, m.n.toNat) else none
  | _ => none

/-- The end of which a thread has read the head, and the number that it stood for. -/
def read? : RingPc α → Option (Side × Nat)
  | .headRead c _ ticket => some (c.side, ticket)
  | .moving m => some (m.call.side, m.ticket)
  | _ => none

/-- The end that a thread is using. -/
def side? : RingPc α → Option Side
  | .entering c | .headRead c _ _ => some c.side
  | .moving m | .copying m _ _ | .waited m _ => some m.call.side
  | _ => none

end RingPc

/-- What a call asks for, cut down to what there is. -/
structure RingMove.Sized {α : Type} (m : RingMove α) : Prop where
  n_eq : m.n = m.call.behavior.clamp m.call.n m.entries
  pos : 0 < m.n.toNat

theorem QueueBehavior.clamp_le (b : QueueBehavior) (n entries : UInt32) :
    (b.clamp n entries).toNat ≤ n.toNat ∧ (b.clamp n entries).toNat ≤ entries.toNat := by
  unfold clamp
  split
  case isTrue h =>
    rw [gt_iff_lt, UInt32.lt_iff_toNat_lt] at h
    cases b
    case queueFixed => simp
    case queueVariable => exact ⟨Nat.le_of_lt h, Nat.le_refl _⟩
  case isFalse h =>
    rw [gt_iff_lt, UInt32.lt_iff_toNat_lt] at h
    exact ⟨Nat.le_refl _, by omega⟩

theorem RingMove.Sized.le_table {α : Type} {m : RingMove α} (h : m.Sized) {objTable : List α}
    {b : QueueBehavior} (hcall : m.call = .enqueue objTable b) : m.n.toNat ≤ objTable.length := by
  have hle := (m.call.behavior.clamp_le m.call.n m.entries).1
  rw [← h.n_eq, hcall, RingCall.n, UInt32.toNat_ofNat'] at hle
  exact Nat.le_trans hle (Nat.mod_le _ _)

namespace RingSys

variable {T α : Type}

/-- How far the head of an end can be moved. -/
def limit (s : RingSys T α) : Side → Nat
  | .prod => s.released + s.r.capacity.toNat
  | .cons => s.published

/-- A thread has read a head, and nobody else moves it if the end is single. -/
structure Reading (s : RingSys T α) (d : Side) (oldHead : UInt32) (ticket : Nat) : Prop where
  oldHead_eq : oldHead = .ofNat ticket
  le : ticket ≤ s.headCount d
  single : (s.r.ht d).single = true → ticket = s.headCount d

/-- `i` pointers of a claim are copied. -/
structure Copied (s : RingSys T α) (m : RingMove α) (i : Nat) (got : List α) : Prop where
  sized : m.Sized
  oldHead_eq : m.oldHead = .ofNat m.ticket
  le_sent : m.ticket + m.n.toNat ≤ s.sent.length
  put : ∀ objTable b, m.call = .enqueue objTable b →
    (s.sent.drop m.ticket).take m.n.toNat = objTable.take m.n.toNat ∧
    ∀ j < i, ∀ a, s.sent[m.ticket + j]? = some a →
      s.r.ring ((m.ticket + j) % s.r.size.toNat) = a
  get : ∀ n b, m.call = .dequeue n b → got = (s.sent.drop m.ticket).take i

/-- What is right for a thread that is at `p`. -/
def PcOk (s : RingSys T α) : RingPc α → Prop
  | .headRead c oldHead ticket => s.Reading c.side oldHead ticket
  | .moving m => s.Reading m.call.side m.oldHead m.ticket ∧ m.Sized ∧
      m.ticket + m.n.toNat ≤ s.limit m.call.side
  | .copying m i got => i ≤ m.n.toNat ∧ s.Copied m i got
  | .waited m got => s.Copied m m.n.toNat got ∧ s.tailCount m.call.side = m.ticket
  | .returned m got => s.Copied m 0 [] ∧
      ∀ n b, m.call = .dequeue n b → got = (s.sent.drop m.ticket).take m.n.toNat
  | .idle | .entering _ | .refused _ _ | .counting _ | .counted _ => True

/-- The ring and its threads fit together. -/
structure RingInv (s : RingSys T α) : Prop where
  wf : s.r.WellFormed
  head : ∀ d, (s.r.ht d).head = .ofNat (s.headCount d)
  tail : ∀ d, (s.r.ht d).tail = .ofNat (s.tailCount d)
  claims : ∀ d, Claims (fun t => (s.pc t).claim d) (s.tailCount d) (s.headCount d)
  limit : ∀ d, s.headCount d ≤ s.limit d
  slots : ∀ j a, s.released ≤ j → j < s.published → s.sent[j]? = some a →
    s.r.ring (j % s.r.size.toNat) = a
  pcOk : ∀ t, s.PcOk (s.pc t)
  alone : ∀ d, (s.r.ht d).single = true → ∀ t u, (s.pc t).side? = some d →
    (s.pc u).side? = some d → t = u

/-- No thread sleeps over a whole turn of the cursors between the read of a head and the
compare-and-set. -/
def InTime (s : RingSys T α) : RingAct T α → Prop
  | .readTail t | .moveHead t =>
      ∀ x ∈ (s.pc t).read?, s.headCount x.1 + s.r.capacity.toNat < x.2 + 2 ^ 32
  | _ => True

/-- An end that is single is used by one thread at a time. -/
def Alone (s : RingSys T α) : RingAct T α → Prop
  | .call _ c => (s.r.ht c.side).single = true → ∀ u, (s.pc u).side? ≠ some c.side
  | _ => True

/-- A step of threads that use the ring as they should. -/
def ProperStep [DecidableEq T] (s : RingSys T α) (a : RingAct T α) (s' : RingSys T α) : Prop :=
  (s.InTime a ∧ s.Alone a) ∧ s.Step a s'

instance (s : RingSys T α) : DecidablePred s.InTime
  | .readTail _ | .moveHead _ => inferInstanceAs (Decidable (∀ _ ∈ _, _ < _))
  | .call .. | .readHead _ | .copy _ | .seeTail _ | .storeTail _ | .ret _ | .count _
  | .readConsTail _ => inferInstanceAs (Decidable True)

instance [Fintype T] (s : RingSys T α) : DecidablePred s.Alone
  | .call _ _ => inferInstanceAs (Decidable (_ = true → ∀ _, _ ≠ _))
  | .readHead _ | .readTail _ | .moveHead _ | .copy _ | .seeTail _ | .storeTail _ | .ret _
  | .count _ | .readConsTail _ => inferInstanceAs (Decidable True)

namespace RingInv

variable {s : RingSys T α}

theorem tail_le (h : s.RingInv) (d : Side) : s.tailCount d ≤ s.headCount d := (h.claims d).le

/-- The four parts of the numbers, in order. -/
theorem ordered (h : s.RingInv) : s.released ≤ s.claimed ∧ s.claimed ≤ s.published ∧
    s.published ≤ s.sent.length ∧ s.sent.length ≤ s.released + s.r.capacity.toNat :=
  ⟨h.tail_le .cons, h.limit .cons, h.tail_le .prod, h.limit .prod⟩

/-- What a call computes from the head that it has read and the tail of the other end. -/
theorem entries_eq (h : s.RingInv) {d : Side} {oldHead : UInt32} {ticket : Nat}
    (hread : s.Reading d oldHead ticket)
    (htime : s.headCount d + s.r.capacity.toNat < ticket + 2 ^ 32) :
    (s.r.entries d oldHead).toNat = s.limit d - ticket ∧ ticket ≤ s.limit d := by
  have hle := hread.le
  have hlim := h.limit d
  obtain ⟨h1, h2, h3, h4⟩ := h.ordered
  have htail := h.tail
  refine ⟨?_, by omega⟩
  rw [hread.oldHead_eq]
  cases d with
  | prod =>
      have hcap : s.r.capacity = .ofNat s.r.capacity.toNat := by simp
      have hsum : s.r.capacity + s.r.cons.tail = .ofNat (s.released + s.r.capacity.toNat) := by
        have hcons : s.r.cons.tail = .ofNat s.released := htail .cons
        rw [hcons, UInt32.ofNat_add, UInt32.add_comm, ← hcap]
      show (s.r.capacity + s.r.cons.tail - .ofNat ticket).toNat = _
      simp only [headCount, RingSys.limit] at hle hlim htime ⊢
      rw [hsum, toNat_ofNat_sub (by omega) (by omega)]
  | cons =>
      have hprod : s.r.prod.tail = .ofNat s.published := htail .prod
      show (s.r.prod.tail - .ofNat ticket).toNat = _
      simp only [headCount, RingSys.limit] at hle hlim htime ⊢
      rw [hprod, toNat_ofNat_sub (by omega) (by omega)]

/-- A pointer of a claim that is being copied. -/
theorem slot_eq (h : s.RingInv) {m : RingMove α} {i : Nat} {got : List α}
    (hcopied : s.Copied m i got) (hn : m.n.toNat ≤ s.r.size.toNat) {p : Nat}
    (hp : (s.r.slots m.oldHead m.n)[i]? = some p) :
    i < m.n.toNat ∧ p = (m.ticket + i) % s.r.size.toNat := by
  rw [hcopied.oldHead_eq, h.wf.slots_eq m.ticket hn, List.getElem?_map] at hp
  obtain ⟨j, hj, rfl⟩ := Option.map_eq_some_iff.mp hp
  obtain ⟨hlt, hget⟩ := List.getElem?_eq_some_iff.mp hj
  rw [List.getElem_range] at hget
  exact ⟨by simpa using hlt, by rw [hget]⟩

end RingInv

/-! ## moves of one thread -/

/-- What one thread does leaves what is right for another one as it is. -/
theorem PcOk.frame {s s' : RingSys T α} {p : RingPc α} (hp : s.PcOk p)
    (hsize : s'.r.size = s.r.size) (hsent : s.sent <+: s'.sent)
    (hhead : ∀ d, s.headCount d ≤ s'.headCount d) (hlimit : ∀ d, s.limit d ≤ s'.limit d)
    (hsingle : ∀ d, (s'.r.ht d).single = (s.r.ht d).single)
    (hsame : ∀ d, p.side? = some d → (s.r.ht d).single = true → s'.headCount d = s.headCount d)
    (hring : ∀ k n, p.claim .prod = some (k, n) → ∀ j, k ≤ j → j < k + n →
      s'.r.ring (j % s.r.size.toNat) = s.r.ring (j % s.r.size.toNat))
    (htail : ∀ m got, p = .waited m got → s'.tailCount m.call.side = s.tailCount m.call.side) :
    s'.PcOk p := by
  have hread : ∀ d oldHead ticket, p.side? = some d → s.Reading d oldHead ticket →
      s'.Reading d oldHead ticket := by
    intro d oldHead ticket hd hr
    refine ⟨hr.oldHead_eq, Nat.le_trans hr.le (hhead d), fun hs => ?_⟩
    rw [hsingle] at hs
    rw [hr.single hs, hsame d hd hs]
  have hslice : ∀ k n, k + n ≤ s.sent.length →
      (s'.sent.drop k).take n = (s.sent.drop k).take n := by
    intro k n hle
    obtain ⟨rest, hrest⟩ := hsent
    rw [← hrest, List.drop_append_of_le_length (by omega), List.take_append_of_le_length (by simp; omega)]
  have hcopied : ∀ m i got, s.Copied m i got → i ≤ m.n.toNat →
      (∀ objTable b, m.call = .enqueue objTable b → ∀ j < i,
        s'.r.ring ((m.ticket + j) % s.r.size.toNat) = s.r.ring ((m.ticket + j) % s.r.size.toNat)) →
      s'.Copied m i got := by
    intro m i got hc hi hcells
    refine ⟨hc.sized, hc.oldHead_eq, Nat.le_trans hc.le_sent hsent.length_le, ?_, ?_⟩
    · intro objTable b hcall
      obtain ⟨htable, hput⟩ := hc.put objTable b hcall
      refine ⟨by rw [hslice _ _ hc.le_sent, htable], fun j hj a ha => ?_⟩
      rw [hsize, hcells objTable b hcall j hj]
      have hlt : m.ticket + j < s.sent.length := by
        have := hc.le_sent
        omega
      obtain ⟨rest, hrest⟩ := hsent
      rw [← hrest, List.getElem?_append_left hlt] at ha
      exact hput j hj a ha
    · intro n b hcall
      rw [hslice _ _ (by have := hc.le_sent; omega)]
      exact hc.get n b hcall
  have hclaimed : ∀ m i got, p = .copying m i got ∨ p = .waited m got →
      ∀ objTable b, m.call = .enqueue objTable b →
        p.claim .prod = some (m.ticket, m.n.toNat) := by
    rintro m i got (rfl | rfl) objTable b hcall <;> simp [RingPc.claim, hcall, RingCall.side]
  cases p with
  | idle | entering | refused | counting | counted => trivial
  | headRead c oldHead ticket => exact hread _ _ _ rfl hp
  | moving m => exact ⟨hread _ _ _ rfl hp.1, hp.2.1, Nat.le_trans hp.2.2 (hlimit _)⟩
  | copying m i got =>
      refine ⟨hp.1, hcopied m i got hp.2 hp.1 fun objTable b hcall j hj => ?_⟩
      have hi := hp.1
      exact hring _ _ (hclaimed m i got (.inl rfl) objTable b hcall) _ (by omega) (by omega)
  | waited m got =>
      refine ⟨hcopied m _ got hp.1 (Nat.le_refl _) fun objTable b hcall j hj => ?_, ?_⟩
      · exact hring _ _ (hclaimed m 0 got (.inr rfl) objTable b hcall) _ (by omega) (by omega)
      · rw [htail m got rfl]
        exact hp.2
  | returned m got =>
      refine ⟨hcopied m 0 [] hp.1 (Nat.zero_le _) fun _ _ _ j hj => absurd hj (Nat.not_lt_zero j), ?_⟩
      intro n b hcall
      rw [hslice _ _ hp.1.le_sent]
      exact hp.2 n b hcall

section Goto

variable [DecidableEq T] {s : RingSys T α} {t : T} {p : RingPc α}

@[simp] theorem goto_pc (u : T) : (s.goto t p).pc u = if u = t then p else s.pc u := by
  exact Function.update_apply ..

@[simp] theorem goto_headCount (d : Side) : (s.goto t p).headCount d = s.headCount d := by
  cases d <;> rfl

@[simp] theorem goto_tailCount (d : Side) : (s.goto t p).tailCount d = s.tailCount d := by
  cases d <;> rfl

@[simp] theorem goto_limit (d : Side) : (s.goto t p).limit d = s.limit d := by cases d <;> rfl

theorem goto_pcOk {q : RingPc α} (h : s.PcOk q) : (s.goto t p).PcOk q :=
  PcOk.frame h rfl (List.prefix_refl _) (fun d => by simp) (fun d => by simp) (fun _ => rfl)
    (fun d _ _ => by simp) (fun _ _ _ _ _ _ => rfl) fun _ _ _ => by simp

theorem claims_update {d : Side} {o : Option (Nat × Nat)} (hp : p.claim d = o) :
    (fun u => ((s.goto t p).pc u).claim d) =
      Function.update (fun u => (s.pc u).claim d) t o := by
  funext u
  rw [goto_pc, Function.update_apply]
  split
  · exact hp
  · rfl

/-- A thread moves on and leaves the ring as it is. -/
theorem RingInv.goto (h : s.RingInv) (hclaim : ∀ d, p.claim d = (s.pc t).claim d)
    (hok : s.PcOk p)
    (halone : ∀ d, p.side? = some d → (s.pc t).side? = some d ∨
      ((s.r.ht d).single = true → ∀ u, u ≠ t → (s.pc u).side? ≠ some d)) :
    (s.goto t p).RingInv where
  wf := h.wf
  head d := (goto_headCount (s := s) d).symm ▸ h.head d
  tail d := (goto_tailCount (s := s) d).symm ▸ h.tail d
  claims d := by
    rw [claims_update (hclaim d), Function.update_eq_self, goto_headCount, goto_tailCount]
    exact h.claims d
  limit d := by
    rw [goto_headCount, goto_limit]
    exact h.limit d
  slots := h.slots
  pcOk u := by
    rw [goto_pc]
    split
    · exact goto_pcOk hok
    · exact goto_pcOk (h.pcOk u)
  alone d hd u v hu hv := by
    rw [goto_pc] at hu hv
    split at hu <;> split at hv
    case isTrue.isTrue heq heq' => rw [heq, heq']
    case isTrue.isFalse heq hne =>
      rcases halone d hu with ht | hfree
      · exact heq.trans (h.alone d hd t v ht hv)
      · exact absurd hv (hfree hd v hne)
    case isFalse.isTrue hne heq =>
      rcases halone d hv with ht | hfree
      · exact (h.alone d hd u t hu ht).trans heq.symm
      · exact absurd hu (hfree hd u hne)
    case isFalse.isFalse => exact h.alone d hd u v hu hv

end Goto

end RingSys

end Femu.Rte
