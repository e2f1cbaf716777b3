import Femu.Lib.Loop
import Femu.Lib.Ring
import Femu.Queue.Doorbell

/-!
# Femu.Queue.Fetch

The loop of `nvme_process_sq_io` as a whole, from the read of the shadow doorbell on, and the
search of `nvme_abort_req`. Both go round the ring of the submission queue until they meet
its tail.

The handler of the doorbell registers compares the tail with the size of the queue. The shadow
doorbell is taken as it is found, so that a tail past the end is never met.
-/

namespace Femu.Queue

open Nvme Lib

/-! ## nvme_update_sq_tail -/

/-- The shadow doorbells in the memory of the host: what is read where they are mapped, and
what is read by `nvme_addr_read`. -/
structure ShadowMem where
  mapped : UInt64 → UInt32
  addrRead : UInt64 → UInt32

def nvmeUpdateSqTail (m : ShadowMem) (db : Doorbell) (q : NvmeSQueue) : NvmeSQueue :=
  if db.dbAddrHva ≠ 0 then { q with tail := (m.mapped db.dbAddrHva).toNat }
  else if db.dbAddr ≠ 0 then { q with tail := (m.addrRead db.dbAddr).toNat }
  else q

section Update

variable (m : ShadowMem) (db : Doorbell) (q : NvmeSQueue)

@[simp] theorem nvmeUpdateSqTail_addr : (nvmeUpdateSqTail m db q).addr = q.addr := by
  unfold nvmeUpdateSqTail
  split_ifs <;> rfl

@[simp] theorem nvmeUpdateSqTail_size : (nvmeUpdateSqTail m db q).size = q.size := by
  unfold nvmeUpdateSqTail
  split_ifs <;> rfl

@[simp] theorem nvmeUpdateSqTail_head : (nvmeUpdateSqTail m db q).head = q.head := by
  unfold nvmeUpdateSqTail
  split_ifs <;> rfl

@[simp] theorem nvmeUpdateSqTail_reqList : (nvmeUpdateSqTail m db q).reqList = q.reqList := by
  unfold nvmeUpdateSqTail
  split_ifs <;> rfl

end Update

/-! ## nvme_process_sq_io -/

/-- The condition of the loop. -/
def hasSqe (i : Nat) (s : QueueCtrl) : Bool :=
  match s.sq i with
  | none => true
  | some q => !sqEmpty q

/-- `nvme_process_sq_io` within `fuel` turns, with the number of turns; `env` gives the time
and the status of each command. The event index is written at the end. -/
def nvmeProcessSqIo (n : QueueCfg) (m : ShadowMem) (s : DbCtrl) (i : Nat)
    (env : Nat → Nat × Status) (fuel : Nat) : Option (Nat × QueueCtrl) :=
  (s.sq i).bind fun q =>
    whileLoop (hasSqe i) (fun k s => processSqIo n s i (env k).1 (env k).2) fuel 0
      (s.setSq i (some (nvmeUpdateSqTail m (s.sqDb i) q)))

variable {n : QueueCfg} {m : ShadowMem} {s : DbCtrl} {t u : QueueCtrl} {q : NvmeSQueue}
  {i now size tail : Nat} {status : Status} {env : Nat → Nat × Status}

/-- The loop is at queue `i`, an object `q` with `size` slots, on the way to `tail`. -/
structure Fetching (i size tail : Nat) (t : QueueCtrl) (q : NvmeSQueue) : Prop where
  sq : t.sq i = some q
  serving : t.serving i = some q.addr
  size_eq : q.size = size
  tail_eq : q.tail = tail
  head_lt : q.head < size

/-- The slots that the loop has still to go. -/
def toFetch (i : Nat) (t : QueueCtrl) : Nat :=
  (t.sq i).elim 0 fun q => gap q.size q.head q.tail

namespace Fetching

variable (h : Fetching i size tail t q)

include h

theorem hasSqe_iff : hasSqe i t = true ↔ q.head ≠ tail := by
  simp [hasSqe, h.sq, sqEmpty, h.tail_eq]

theorem head_eq (hc : hasSqe i t = false) : q.head = tail := by
  by_contra hne
  rw [h.hasSqe_iff.mpr hne] at hc
  cases hc

theorem toFetch_eq : toFetch i t = gap size q.head tail := by
  simp [toFetch, h.sq, h.size_eq, h.tail_eq]

/-- **Step**: a turn takes a command and a request. -/
theorem step (now : Nat) (status : Status) {idx : Nat} {rest : List Nat} (hne : q.head ≠ tail) (hlist : q.reqList = idx :: rest) :
    ∃ u, processSqIo n t i now status = some u ∧
      Fetching i size tail u { incSqHead q with reqList := rest } := by
  have hsize : 0 < size := Nat.zero_lt_of_lt h.head_lt
  have hok : t.serving i = some q.addr ∧ ¬ sqEmpty q ∧ q.size ≠ 0 :=
    ⟨h.serving, by simpa [sqEmpty, h.tail_eq] using hne, by have := h.size_eq; omega⟩
  have hlt : (q.head + 1) % q.size < size := by
    rw [h.size_eq]
    exact Nat.mod_lt _ hsize
  unfold processSqIo
  simp only [h.sq, if_pos hok, hlist]
  split
  case isTrue =>
    refine ⟨_, rfl, by simp [takeReq], ?_, h.size_eq, h.tail_eq, hlt⟩
    unfold enqueueFtl
    split <;> exact h.serving
  case isFalse =>
    exact ⟨_, rfl, by simp [takeReq, dropReq], h.serving, h.size_eq, h.tail_eq, hlt⟩

/-- A turn is one that takes the command at the head. -/
theorem of_turn (hu : processSqIo n t i now status = some u) :
    ∃ idx rest, q.head ≠ tail ∧ q.reqList = idx :: rest ∧
      Fetching i size tail u { incSqHead q with reqList := rest } := by
  obtain ⟨q', idx, rest, hq', -, ⟨hne, -⟩, hlist, -⟩ := processSqIo_cases hu
  cases h.sq.symm.trans hq'
  rw [h.tail_eq] at hne
  obtain ⟨u', hu', hf⟩ := h.step (n := n) now status hne hlist
  cases hu.symm.trans hu'
  exact ⟨idx, rest, hne, hlist, hf⟩

end Fetching

/-! ## the loop -/

/-- With enough requests for a tail in the ring, the loop ends there. -/
theorem fetch_ends (env : Nat → Nat × Status) (htail : tail < size) (h : Fetching i size tail t q)
    (hreq : gap size q.head tail ≤ q.reqList.length) :
    ∃ u q', whileLoop (hasSqe i) (fun k s => processSqIo n s i (env k).1 (env k).2)
        (gap size q.head tail) 0 t = some (gap size q.head tail, u) ∧
      Fetching i size tail u q' ∧ q'.head = tail := by
  obtain ⟨u, hu, ⟨q', hf, -⟩, hdone⟩ := whileLoop_total (c := hasSqe i)
    (f := fun k s => processSqIo n s i (env k).1 (env k).2) (i := 0) (μ := toFetch i)
    (I := fun t => ∃ q, Fetching i size tail t q ∧ gap size q.head tail ≤ q.reqList.length)
    (fun j t ht hc => by
      obtain ⟨q, hf, hle⟩ := ht
      have hne := hf.hasSqe_iff.mp hc
      have hgap := gap_succ_head hf.head_lt htail hne
      obtain ⟨idx, rest, hlist⟩ := List.exists_cons_of_length_pos
        (Nat.lt_of_lt_of_le (Nat.lt_of_lt_of_eq (Nat.succ_pos _) hgap) hle)
      obtain ⟨u, hu, hf'⟩ := hf.step (n := n) (env j).1 (env j).2 hne hlist
      have hhead : (incSqHead q).head = (q.head + 1) % size := by rw [incSqHead, hf.size_eq]
      refine ⟨u, hu, ⟨_, hf', ?_⟩, ?_⟩
      · simp only [hlist, List.length_cons] at hle
        simp only [hhead]
        omega
      · rw [hf'.toFetch_eq, hf.toFetch_eq, ← hgap]
        simp only [hhead])
    (fun t ht hc => by
      obtain ⟨q, hf, -⟩ := ht
      rw [hf.toFetch_eq, hf.head_eq hc, gap_self])
    ⟨q, h, hreq⟩
  rw [h.toFetch_eq, Nat.zero_add] at hu
  exact ⟨u, q', hu, hf, hf.head_eq hdone⟩

/-- Towards a tail that is not in the ring, or with too few requests, the loop does not end. -/
theorem fetch_stuck (env : Nat → Nat × Status) (fuel : Nat) (h : Fetching i size tail t q)
    (hbad : size ≤ tail ∨ q.reqList.length < gap size q.head tail) :
    whileLoop (hasSqe i) (fun k s => processSqIo n s i (env k).1 (env k).2) fuel 0 t = none := by
  refine whileLoop_eq_none (I := fun t => ∃ q, Fetching i size tail t q ∧
    (size ≤ tail ∨ q.reqList.length < gap size q.head tail)) ?_ ?_ ⟨q, h, hbad⟩
  · rintro t ⟨q, hf, hbad⟩
    refine hf.hasSqe_iff.mpr ?_
    rintro heq
    rcases hbad with hle | hlt
    · have := hf.head_lt
      omega
    · rw [heq, gap_self] at hlt
      omega
  · rintro j t u ⟨q, hf, hbad⟩ hu
    obtain ⟨idx, rest, hne, hlist, hf'⟩ := hf.of_turn hu
    refine ⟨_, hf', ?_⟩
    by_cases htail : tail < size
    case neg => exact .inl (by omega)
    case pos =>
      have hgap := gap_succ_head hf.head_lt htail hne
      have hhead : (incSqHead q).head = (q.head + 1) % size := by rw [incSqHead, hf.size_eq]
      have hlt : q.reqList.length < gap size q.head tail := by omega
      rw [hlist, List.length_cons] at hlt
      simp only [hhead]
      omega

/-! ## the search of nvme_abort_req -/

variable {cid : UInt16} {fuel index : Nat}

/-- The search stops at `k` slots from the head. -/
def SearchStops (t : QueueCtrl) (q : NvmeSQueue) (cid : UInt16) (k : Nat) : Prop :=
  (q.head + k) % q.size = q.tail ∨ (t.sqes q.addr ((q.head + k) % q.size)).cid = cid

theorem abortSearch_isSome_iff : (abortSearch t q cid fuel index).isSome ↔
    ∃ k, index ≤ k ∧ k < index + fuel ∧ SearchStops t q cid k := by
  induction fuel generalizing index with
  | zero =>
      simp only [abortSearch, Option.isSome_none, Bool.false_eq_true, false_iff]
      rintro ⟨k, hle, hlt, -⟩
      omega
  | succ fuel ih =>
      rw [abortSearch]
      by_cases hstop : SearchStops t q cid index
      case pos =>
        have hsome : ∃ k, index ≤ k ∧ k < index + (fuel + 1) ∧ SearchStops t q cid k :=
          ⟨index, Nat.le_refl _, by omega, hstop⟩
        rcases hstop with htail | hcid
        · simp [htail, hsome]
        · split <;> simp [hsome]
      case neg =>
        obtain ⟨htail, hcid⟩ := not_or.mp hstop
        rw [if_neg htail, if_neg hcid, ih]
        constructor
        · rintro ⟨k, hle, hlt, hk⟩
          exact ⟨k, by omega, by omega, hk⟩
        · rintro ⟨k, hle, hlt, hk⟩
          have hne : k ≠ index := by
            rintro rfl
            exact hstop hk
          exact ⟨k, by omega, by omega, hk⟩

/-- Every slot of the ring is some number of slots from the head. -/
theorem exists_slot {slot : Nat} (hhead : q.head < q.size) (hslot : slot < q.size) :
    ∃ k, (q.head + k) % q.size = slot := by
  refine ⟨slot + q.size - q.head, ?_⟩
  have hsum : q.head + (slot + q.size - q.head) = slot + q.size := by omega
  rw [hsum, Nat.add_mod_right, Nat.mod_eq_of_lt hslot]

theorem abort_ends_iff (hhead : q.head < q.size) :
    (∃ fuel, (abortSearch t q cid fuel 0).isSome) ↔
      q.tail < q.size ∨ ∃ slot < q.size, (t.sqes q.addr slot).cid = cid := by
  simp only [abortSearch_isSome_iff, Nat.zero_le, true_and, Nat.zero_add]
  have hpos : 0 < q.size := by omega
  constructor
  · rintro ⟨-, k, -, htail | hcid⟩
    · exact .inl (htail ▸ Nat.mod_lt _ hpos)
    · exact .inr ⟨_, Nat.mod_lt _ hpos, hcid⟩
  · rintro (htail | ⟨slot, hslot, hcid⟩)
    · obtain ⟨k, hk⟩ := exists_slot hhead htail
      exact ⟨k + 1, k, Nat.lt_succ_self k, .inl hk⟩
    · obtain ⟨k, hk⟩ := exists_slot hhead hslot
      exact ⟨k + 1, k, Nat.lt_succ_self k, .inr (hk ▸ hcid)⟩

/-! ## the tail that is found -/

/-- `nvme_process_sq_io` ends in fewer turns than there are slots, with the head at the tail
that it has read. -/
def FetchEnds (n : QueueCfg) (m : ShadowMem) (s : DbCtrl) (i : Nat) (env : Nat → Nat × Status)
    (q : NvmeSQueue) : Prop :=
  ∃ fuel k u q', nvmeProcessSqIo n m s i env fuel = some (k, u) ∧ k < q.size ∧
    u.sq i = some q' ∧ q'.head = (nvmeUpdateSqTail m (s.sqDb i) q).tail

/-- The search of `nvme_abort_req` ends. -/
def AbortEnds (m : ShadowMem) (s : DbCtrl) (i : Nat) (q : NvmeSQueue) (cid : UInt16) : Prop :=
  ∃ fuel, (abortSearch s.toQueueCtrl (nvmeUpdateSqTail m (s.sqDb i) q) cid fuel 0).isSome

theorem nvmeProcessSqIo_eq (hq : s.sq i = some q) : nvmeProcessSqIo n m s i env fuel =
    whileLoop (hasSqe i) (fun k s => processSqIo n s i (env k).1 (env k).2) fuel 0
      (s.setSq i (some (nvmeUpdateSqTail m (s.sqDb i) q))) := by
  rw [nvmeProcessSqIo, hq, Option.bind_some]

theorem fetching_start (hserving : s.serving i = some q.addr)
    (hhead : q.head < q.size) :
    Fetching i q.size (nvmeUpdateSqTail m (s.sqDb i) q).tail
      (s.setSq i (some (nvmeUpdateSqTail m (s.sqDb i) q))) (nvmeUpdateSqTail m (s.sqDb i) q) where
  sq := by simp
  serving := by
    rw [nvmeUpdateSqTail_addr]
    exact hserving
  size_eq := by simp
  tail_eq := rfl
  head_lt := by simpa using hhead

/-- A run that makes queue 1 with 8 slots, configures the doorbells and enters the queue. -/
def enteredDb : Option DbCtrl :=
  (execConfigured dbPairs plainBufs [createCq1, createSq1] [] startedDb).bind fun r =>
    (enterSq dbPairs.toQueueCfg r.2.toQueueCtrl 1).map fun t => { r.2 with toQueueCtrl := t }

/-- The state of the queue that is entered, and its doorbell. -/
theorem enteredDb_queue : ∃ s q, enteredDb = some s ∧ s.sq 1 = some q ∧
    s.serving 1 = some q.addr ∧ (q.size = 8 ∧ q.head = 0 ∧ q.reqList.length = 8) ∧
    s.sqDb 1 = ⟨0x30008, 0, 0x40008, 0⟩ := by
  have hends : enteredDb.map (fun s => (s.sqDb 1, (s.sq 1).map fun q =>
      (q.size, q.head, q.reqList.length, decide (s.serving 1 = some q.addr)))) =
      some (⟨0x30008, 0, 0x40008, 0⟩, some (8, 0, 8, true)) := by decide +kernel
  obtain ⟨s, hs, heq⟩ := Option.map_eq_some_iff.mp hends
  obtain ⟨hdb, hq⟩ := Prod.mk.inj heq
  obtain ⟨q, hq, hfields⟩ := Option.map_eq_some_iff.mp hq
  simp only [Prod.mk.injEq, decide_eq_true_eq] at hfields
  obtain ⟨hsize, hhead, hlist, hserving⟩ := hfields
  exact ⟨s, q, hs, hq, hserving, ⟨hsize, hhead, hlist⟩, hdb⟩

/-- Shadow doorbells that all contain the same tail. -/
def sameTail (tail : UInt32) : ShadowMem := ⟨fun _ => tail, fun _ => tail⟩

end Femu.Queue
