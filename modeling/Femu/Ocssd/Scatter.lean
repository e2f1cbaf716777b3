import Femu.Lib.Blocks
import Femu.Nvme.DramSpec
import Femu.Nvme.PrpList

/-!
# Femu.Ocssd.Scatter

The placement of vectored data: in the open-channel mode `backend_rw` takes the address
of the bytes of a segment from the list of sector addresses, by the number of the
segment. The data of a sector goes to its address only where segments and sectors line
up.
-/

namespace Femu.Ocssd

open Nvme Lib

/-! ## what a call accesses -/

/-- An access of `backend_rw`: an entry of the address list, or a call of `dma_memory_rw`
with the address in the host, that in the backend, and the length. -/
inductive BackendAccess
  | lbal (i : Nat)
  | rw (addr oft len : Nat)

/-- The `while` loop of `backend_rw` with what it accesses. -/
def backendRwTrace (q : QEMUSGList) (lbal : List Nat) (isWrite : Bool) :
    Nat → BackendRun → Option (List BackendAccess × BackendRun)
  | 0, r => if r.sgCurIndex < q.nsg then none else some ([], r)
  | fuel + 1, r =>
    if r.sgCurIndex < q.nsg then do
      let e ← q.sg[r.sgCurIndex]?
      let r' ← backendRwRound .ocssd q lbal isWrite r
      let (l, r'') ← backendRwTrace q lbal isWrite fuel r'
      return (.rw (e.base + r.sgCurByte) r.mbOft (e.len - r.sgCurByte) ::
        .lbal r'.sgCurIndex :: l, r'')
    else
      some ([], r)

/-- `backend_rw` with what it accesses. -/
def backendRwTraced (q : QEMUSGList) (lbal : List Nat) (isWrite : Bool) (host mb : Bytes) :
    Option (List BackendAccess × BackendRun) :=
  (backendRwTrace q lbal isWrite q.nsg ⟨0, 0, lbal.getD 0 0, host, mb⟩).map
    fun r => (.lbal 0 :: r.1, r.2)

/-- The loop with its accesses is the loop. -/
theorem backendRwTrace_run (q : QEMUSGList) (lbal : List Nat) (isWrite : Bool) (fuel : Nat)
    (r : BackendRun) :
    (backendRwTrace q lbal isWrite fuel r).map Prod.snd =
      backendRwLoop .ocssd q lbal isWrite fuel r := by
  induction fuel generalizing r with
  | zero =>
      rw [backendRwTrace, backendRwLoop]
      split
      · rfl
      · rfl
  | succ fuel ih =>
      rw [backendRwTrace, backendRwLoop]
      split
      case isFalse => rfl
      case isTrue =>
        cases he : q.sg[r.sgCurIndex]? with
        | none => simp [backendRwRound, he]
        | some e =>
            cases hround : backendRwRound .ocssd q lbal isWrite r with
            | none => simp
            | some r' =>
                rw [Option.bind_some, ← ih]
                cases hrest : backendRwTrace q lbal isWrite fuel r' with
                | none => simp [hrest]
                | some p => simp [hrest]

theorem backendRwTraced_run (q : QEMUSGList) (lbal : List Nat) (isWrite : Bool)
    (host mb : Bytes) :
    (backendRwTraced q lbal isWrite host mb).map (fun r => (r.2.host, r.2.mb)) =
      backendRw .ocssd q lbal isWrite host mb := by
  rw [backendRw, ← backendRwTrace_run, backendRwTraced, Option.map_map, Option.map_map]
  rfl

/-! ## statement -/

/-- The bytes that an access moves: where each of them is in the host and in the backend. -/
def BackendAccess.moves : BackendAccess → List (Nat × Nat)
  | .lbal _ => []
  | .rw addr oft len => (List.range len).map fun k => (addr + k, oft + k)

/-- Move a byte to the backend, or from it. -/
def moveByte (isWrite : Bool) (s : Bytes × Bytes) (a : Nat × Nat) : Bytes × Bytes :=
  if isWrite then (s.1, Function.update s.2 a.2 (s.1 a.1))
  else (Function.update s.1 a.1 (s.2 a.2), s.2)

/-- The addresses of the bytes of the segments, one after the other. -/
def sgBytes (sg : List ScatterGatherEntry) : List Nat :=
  sg.flatMap fun e => (List.range e.len).map (e.base + ·)

/-- The addresses of the bytes of the sectors, one after the other. -/
def sectorBytes (len : Nat) (lbal : List Nat) : List Nat :=
  lbal.flatMap fun a => (List.range len).map (a + ·)

/-- A run reads no entry behind the address list, and moves each byte of the segments to or
from its place in its sector, and nothing else. -/
def PlacesSectors (q : QEMUSGList) (lbal : List Nat) (len : Nat) (isWrite : Bool)
    (host mb : Bytes) (r : Option (List BackendAccess × BackendRun)) : Prop :=
  ∃ l run, r = some (l, run) ∧
    (∀ i, .lbal i ∈ l → i < lbal.length) ∧
    l.flatMap BackendAccess.moves = (sgBytes q.sg).zip (sectorBytes len lbal) ∧
    (run.host, run.mb) =
      ((sgBytes q.sg).zip (sectorBytes len lbal)).foldl (moveByte isWrite) (host, mb)

/-- There are fewer segments than sectors, all but the last segment hold whole sectors, and
a sector has the address that comes with its segment, by its distance from the start of
the segment. -/
structure SectorsFollow (q : QEMUSGList) (lbal : List Nat) (len : Nat) : Prop where
  fewer : q.nsg < lbal.length
  whole : ∀ e ∈ q.sg.dropLast, len ∣ e.len
  follow : ∀ i j k, i < lbal.length → BlockAt (q.sg.map (·.len)) (i * len) j k →
    lbal.getD i 0 = lbal.getD j 0 + k

variable {q : QEMUSGList} {lbal : List Nat} {len : Nat} {isWrite : Bool} {host mb : Bytes}

/-! ## a run -/

/-- The accesses of the rounds from a segment on. -/
def segAccesses (lbal : List Nat) (j : Nat) (e : ScatterGatherEntry) : List BackendAccess :=
  [.rw e.base (lbal.getD j 0) e.len, .lbal (j + 1)]

/-- The moves of a segment. -/
def segMoves (lbal : List Nat) (j : Nat) (e : ScatterGatherEntry) : List (Nat × Nat) :=
  (List.range e.len).map fun k => (e.base + k, lbal.getD j 0 + k)

theorem copyBytes_zero (dst src : Bytes) (dstOff srcOff : Nat) :
    copyBytes dst dstOff src srcOff 0 = dst := by
  funext a
  simp [copyBytes]

/-- The last byte of a copy. -/
theorem copyBytes_succ (dst src : Bytes) (dstOff srcOff len : Nat) :
    copyBytes dst dstOff src srcOff (len + 1) =
      Function.update (copyBytes dst dstOff src srcOff len) (dstOff + len) (src (srcOff + len)) := by
  funext a
  rw [Function.update_apply, copyBytes, copyBytes]
  by_cases ha : a = dstOff + len
  · simp [ha]
  · by_cases hin : dstOff ≤ a ∧ a < dstOff + len
    · rw [if_neg ha, if_pos hin, if_pos (by omega)]
    · rw [if_neg ha, if_neg hin, if_neg (by omega)]

theorem foldl_moveByte_write (host mb : Bytes) (base oft len : Nat) :
    ((List.range len).map fun k => (base + k, oft + k)).foldl (moveByte true) (host, mb) =
      (host, copyBytes mb oft host base len) := by
  induction len with
  | zero => rw [copyBytes_zero, List.range_zero, List.map_nil, List.foldl_nil]
  | succ len ih =>
      rw [List.range_succ, List.map_append, List.foldl_append, ih, copyBytes_succ]
      rfl

theorem foldl_moveByte_read (host mb : Bytes) (base oft len : Nat) :
    ((List.range len).map fun k => (base + k, oft + k)).foldl (moveByte false) (host, mb) =
      (copyBytes host base mb oft len, mb) := by
  induction len with
  | zero => rw [copyBytes_zero, List.range_zero, List.map_nil, List.foldl_nil]
  | succ len ih =>
      rw [List.range_succ, List.map_append, List.foldl_append, ih, copyBytes_succ]
      rfl

/-- A round, at the start of a segment. -/
theorem backendRwRound_ocssd {j : Nat} {e : ScatterGatherEntry} (he : q.sg[j]? = some e)
    (lbal : List Nat) (isWrite : Bool) (host mb : Bytes) :
    ∃ host' mb', backendRwRound .ocssd q lbal isWrite ⟨j, 0, lbal.getD j 0, host, mb⟩ =
        some ⟨j + 1, 0, lbal.getD (j + 1) 0, host', mb'⟩ ∧
      (segMoves lbal j e).foldl (moveByte isWrite) (host, mb) = (host', mb') := by
  cases isWrite with
  | true =>
      refine ⟨host, copyBytes mb (lbal.getD j 0) host e.base e.len, ?_, ?_⟩
      · simp [backendRwRound, he]
      · exact foldl_moveByte_write host mb e.base _ e.len
  | false =>
      refine ⟨copyBytes host e.base mb (lbal.getD j 0) e.len, mb, ?_, ?_⟩
      · simp [backendRwRound, he]
      · exact foldl_moveByte_read host mb e.base _ e.len

/-- The loop, from segment `j` on. -/
theorem backendRwTrace_eq (hnsg : q.nsg = q.sg.length) {j : Nat} {sg : List ScatterGatherEntry}
    (hsg : q.sg.drop j = sg) (hj : j ≤ q.nsg) (lbal : List Nat) (isWrite : Bool)
    (host mb : Bytes) :
    ∃ run, backendRwTrace q lbal isWrite sg.length ⟨j, 0, lbal.getD j 0, host, mb⟩ =
        some ((sg.mapIdx fun k e => segAccesses lbal (j + k) e).flatten, run) ∧
      (run.host, run.mb) =
        (sg.mapIdx fun k e => segMoves lbal (j + k) e).flatten.foldl (moveByte isWrite)
          (host, mb) := by
  induction sg generalizing j host mb with
  | nil =>
      have hend : ¬ j < q.nsg := by
        rw [List.drop_eq_nil_iff] at hsg
        omega
      refine ⟨⟨j, 0, lbal.getD j 0, host, mb⟩, ?_, rfl⟩
      rw [List.length_nil, backendRwTrace, if_neg hend]
      rfl
  | cons e sg ih =>
      have hlt : j < q.nsg := by
        by_contra hge
        rw [List.drop_eq_nil_of_le (by omega)] at hsg
        contradiction
      have he : q.sg[j]? = some e := by
        rw [← List.head?_drop, hsg, List.head?_cons]
      have hrest : q.sg.drop (j + 1) = sg := by
        rw [← List.tail_drop, hsg, List.tail_cons]
      obtain ⟨host', mb', hround, hmoves⟩ := backendRwRound_ocssd he lbal isWrite host mb
      obtain ⟨run, hrun, hmem⟩ := ih hrest hlt host' mb'
      have hshift : ∀ k, j + 1 + k = j + (k + 1) := by
        intro k
        omega
      simp only [hshift] at hrun hmem
      refine ⟨run, ?_, ?_⟩
      · rw [List.length_cons, backendRwTrace, if_pos hlt, List.mapIdx_cons, List.flatten_cons]
        simp only [he, hround, hrun, segAccesses, Option.bind_eq_bind, Option.bind_some,
          Nat.add_zero, Nat.sub_zero, List.cons_append, List.nil_append]
        rfl
      · rw [hmem, List.mapIdx_cons, List.flatten_cons, List.foldl_append, Nat.add_zero, hmoves]

/-! ## the places of bytes -/

/-- The addresses in the backend of the bytes of the segments, as the loop takes them. -/
def backendBytes (lbal : List Nat) (sg : List ScatterGatherEntry) : List Nat :=
  (sg.mapIdx fun j e => (List.range e.len).map (lbal.getD j 0 + ·)).flatten

/-- The bytes that a whole run moves. -/
def sgMoves (lbal : List Nat) (sg : List ScatterGatherEntry) : List (Nat × Nat) :=
  (sg.mapIdx (segMoves lbal)).flatten

theorem backendRwTraced_eq (hnsg : q.nsg = q.sg.length) (lbal : List Nat) (isWrite : Bool)
    (host mb : Bytes) :
    ∃ run, backendRwTraced q lbal isWrite host mb =
        some (.lbal 0 :: (q.sg.mapIdx (segAccesses lbal)).flatten, run) ∧
      (run.host, run.mb) = (sgMoves lbal q.sg).foldl (moveByte isWrite) (host, mb) := by
  obtain ⟨run, hrun, hmem⟩ := backendRwTrace_eq hnsg (List.drop_zero : q.sg.drop 0 = q.sg)
    (Nat.zero_le _) lbal isWrite host mb
  simp only [Nat.zero_add] at hrun hmem
  refine ⟨run, ?_, hmem⟩
  rw [backendRwTraced, hnsg, hrun, Option.map_some]

theorem flatMap_moves (lbal : List Nat) (sg : List ScatterGatherEntry) :
    (sg.mapIdx (segAccesses lbal)).flatten.flatMap BackendAccess.moves = sgMoves lbal sg := by
  have hmoves : ∀ j e, (segAccesses lbal j e).flatMap BackendAccess.moves = segMoves lbal j e := by
    intro j e
    simp [segAccesses, BackendAccess.moves, segMoves]
  simp only [sgMoves, List.mapIdx_eq_zipIdx_map, ← List.flatMap_def, List.flatMap_assoc, hmoves]

/-- The entries of the list that a run reads. -/
theorem lbal_mem_iff {sg : List ScatterGatherEntry} {i : Nat} :
    .lbal i ∈ (.lbal 0 :: (sg.mapIdx (segAccesses lbal)).flatten : List BackendAccess) ↔
      i ≤ sg.length := by
  simp only [List.mem_cons, BackendAccess.lbal.injEq, List.mem_flatten, List.mem_mapIdx]
  constructor
  case mp =>
    intro h
    obtain rfl | ⟨l, ⟨j, hj, rfl⟩, hmem⟩ := h
    · exact Nat.zero_le _
    · simp only [segAccesses, List.mem_cons, reduceCtorEq, BackendAccess.lbal.injEq,
        List.not_mem_nil, or_false, false_or] at hmem
      omega
  case mpr =>
    intro h
    cases i with
    | zero => exact Or.inl rfl
    | succ i => exact Or.inr ⟨_, ⟨i, by omega, rfl⟩, by simp [segAccesses]⟩

theorem sgMoves_fst (lbal : List Nat) (sg : List ScatterGatherEntry) :
    (sgMoves lbal sg).map Prod.fst = sgBytes sg := by
  have hfst : ∀ j e, (segMoves lbal j e).map Prod.fst = (List.range e.len).map (e.base + ·) := by
    intro j e
    simp [segMoves, Function.comp_def]
  have hidx : ∀ f : ScatterGatherEntry → List Nat, (sg.zipIdx.flatMap fun x => f x.1) =
      sg.flatMap f := by
    intro f
    rw [← List.flatMap_map Prod.fst f, List.zipIdx_map_fst]
  simp only [sgMoves, sgBytes, List.mapIdx_eq_zipIdx_map, ← List.flatMap_def, List.map_flatMap,
    hfst]
  exact hidx fun e => (List.range e.len).map (e.base + ·)

theorem sgMoves_snd (lbal : List Nat) (sg : List ScatterGatherEntry) :
    (sgMoves lbal sg).map Prod.snd = backendBytes lbal sg := by
  have hsnd : ∀ j e, (segMoves lbal j e).map Prod.snd =
      (List.range e.len).map (lbal.getD j 0 + ·) := by
    intro j e
    simp [segMoves, Function.comp_def]
  simp only [sgMoves, backendBytes, List.mapIdx_eq_zipIdx_map, ← List.flatMap_def,
    List.map_flatMap, hsnd]

@[simp] theorem length_sgBytes (sg : List ScatterGatherEntry) :
    (sgBytes sg).length = sgTotal sg := by
  simp [sgBytes, sgTotal, List.length_flatMap]

@[simp] theorem length_sectorBytes (len : Nat) (lbal : List Nat) :
    (sectorBytes len lbal).length = lbal.length * len := by
  simp only [sectorBytes, List.length_flatMap, List.length_map, List.length_range,
    List.map_const', List.sum_replicate_nat]

/-- The bytes go to their sectors if and only if the loop takes the addresses of the
sectors. -/
theorem sgMoves_eq_iff (htotal : sgTotal q.sg = lbal.length * len) :
    sgMoves lbal q.sg = (sgBytes q.sg).zip (sectorBytes len lbal) ↔
      backendBytes lbal q.sg = sectorBytes len lbal := by
  constructor
  case mp =>
    intro h
    rw [← sgMoves_snd, h, List.map_snd_zip]
    simp [htotal]
  case mpr =>
    intro h
    rw [← h, ← sgMoves_snd, ← sgMoves_fst lbal, ← List.unzip_fst, ← List.unzip_snd,
      List.zip_unzip]

/-- The address of byte `k` of segment `j`. -/
theorem getElem?_backendBlocks {sg : List ScatterGatherEntry} {p j k : Nat}
    (h : BlockAt (sg.map (·.len)) p j k) :
    ((sg.mapIdx fun j e => (List.range e.len).map (lbal.getD j 0 + ·))[j]?.bind
      fun xs => xs[k]?) = some (lbal.getD j 0 + k) := by
  obtain ⟨l, hl, hk, -⟩ := h
  rw [List.getElem?_map, Option.map_eq_some_iff] at hl
  obtain ⟨e, he, rfl⟩ := hl
  rw [List.getElem?_mapIdx, he, Option.map_some, Option.bind_some, List.getElem?_map,
    List.getElem?_range hk, Option.map_some]

/-- The address of byte `r` of sector `i`. -/
theorem getElem?_sectorBlocks {i r : Nat} (hi : i < lbal.length) (hr : r < len) :
    ((lbal.map fun a => (List.range len).map (a + ·))[i]?.bind fun xs => xs[r]?) =
      some (lbal.getD i 0 + r) := by
  rw [List.getElem?_map, List.getElem?_eq_getElem hi, Option.map_some, Option.bind_some,
    List.getElem?_map, List.getElem?_range hr, Option.map_some, List.getD_eq_getElem?_getD,
    List.getElem?_eq_getElem hi, Option.getD_some]

/-- The addresses are those of the sectors if and only if they are so at each byte. -/
theorem backendBytes_eq_iff (htotal : sgTotal q.sg = lbal.length * len) :
    backendBytes lbal q.sg = sectorBytes len lbal ↔
      ∀ i r j k, i < lbal.length → r < len → BlockAt (q.sg.map (·.len)) (i * len + r) j k →
        lbal.getD i 0 + r = lbal.getD j 0 + k := by
  have hsegs : (q.sg.mapIdx fun j e => (List.range e.len).map (lbal.getD j 0 + ·)).map
      List.length = q.sg.map (·.len) := by
    refine List.ext_getElem ?_ fun j hj hj' => ?_
    · simp
    · simp
  have hsectors : (lbal.map fun a => (List.range len).map (a + ·)).map List.length =
      List.replicate lbal.length len := by
    simp [List.map_map, Function.comp_def, List.map_const']
  rw [backendBytes, sectorBytes, List.flatMap_def, flatten_eq_iff, hsegs, hsectors]
  · constructor
    case mp =>
      intro h i r j k hi hr hjk
      have hsame := h _ j k i r hjk (blockAt_replicate.mpr ⟨hi, hr, rfl⟩)
      rw [getElem?_backendBlocks hjk, getElem?_sectorBlocks hi hr, Option.some.injEq] at hsame
      exact hsame.symm
    case mpr =>
      intro h p j k i r hjk hir
      obtain ⟨hi, hr, rfl⟩ := blockAt_replicate.mp hir
      rw [getElem?_backendBlocks hjk, getElem?_sectorBlocks hi hr, h i r j k hi hr hjk]
  · rw [hsegs, hsectors, List.sum_replicate_nat]
    exact htotal

/-- Each byte of a segment comes with the address of its sector. -/
def BytesFollow (q : QEMUSGList) (lbal : List Nat) (len : Nat) : Prop :=
  ∀ i r j k, i < lbal.length → r < len → BlockAt (q.sg.map (·.len)) (i * len + r) j k →
    lbal.getD i 0 + r = lbal.getD j 0 + k

theorem placesSectors_iff (hnsg : q.nsg = q.sg.length)
    (htotal : sgTotal q.sg = lbal.length * len) (isWrite : Bool) (host mb : Bytes) :
    PlacesSectors q lbal len isWrite host mb (backendRwTraced q lbal isWrite host mb) ↔
      q.nsg < lbal.length ∧ BytesFollow q lbal len := by
  obtain ⟨run, hrun, hmem⟩ := backendRwTraced_eq hnsg lbal isWrite host mb
  have hmoves : (BackendAccess.lbal 0 ::
      (q.sg.mapIdx (segAccesses lbal)).flatten).flatMap BackendAccess.moves =
        sgMoves lbal q.sg := by
    rw [List.flatMap_cons, flatMap_moves]
    rfl
  rw [BytesFollow, ← backendBytes_eq_iff htotal, ← sgMoves_eq_iff htotal, hrun]
  constructor
  case mp =>
    intro h
    obtain ⟨l, run', heq, hread, hsame, -⟩ := h
    rw [Option.some.injEq, Prod.mk.injEq] at heq
    obtain ⟨rfl, rfl⟩ := heq
    exact ⟨hnsg ▸ hread _ (lbal_mem_iff.mpr le_rfl), hmoves ▸ hsame⟩
  case mpr =>
    intro h
    obtain ⟨hfewer, hsame⟩ := h
    refine ⟨_, run, rfl, fun i hi => ?_, ?_, ?_⟩
    · exact (lbal_mem_iff.mp hi).trans_lt (hnsg ▸ hfewer)
    · rw [hmoves, hsame]
    · rw [hmem, hsame]

/-- The lengths of all segments but the last. -/
theorem forall_dropLast_len {sg : List ScatterGatherEntry} {P : Nat → Prop} :
    (∀ e ∈ sg.dropLast, P e.len) ↔ ∀ l ∈ (sg.map (·.len)).dropLast, P l := by
  rw [← List.map_dropLast, List.forall_mem_map]

/-- Where the segments hold whole sectors, the first bytes of the sectors decide. -/
theorem SectorsFollow.bytes (h : SectorsFollow q lbal len) : BytesFollow q lbal len := by
  intro i r j k hi hr hjk
  obtain ⟨hle, hstart⟩ := hjk.start (forall_dropLast_len.mp h.whole) hr
  rw [h.follow i j _ hi hstart]
  omega

/-! ## the segments of a transfer -/

/-- One segment, or two, or a first one, a page, and more. -/
theorem mapped_lens {n : DmaCtrl} (hp : n.Paged) {m : Mem} {prp1 prp2 total : Nat}
    (h : PrpMapped n m prp1 prp2 total q) :
    (n.restLen prp1 total = 0 ∧ q.sg.map (·.len) = [n.firstLen prp1 total]) ∨
    (0 < n.restLen prp1 total ∧ n.restLen prp1 total ≤ n.pageSize ∧
      q.sg.map (·.len) = [n.firstLen prp1 total, n.restLen prp1 total]) ∨
    (n.pageSize < n.restLen prp1 total ∧ ∃ l lens, 0 < l ∧
      q.sg.map (·.len) = n.firstLen prp1 total :: n.pageSize :: l :: lens) := by
  have hcap := hp.le_maxPrpEnts
  have hsize := hp.le_pageSize
  have hptrs := length_payload_prpCells hp m (show 0 < n.maxPrpEnts by omega) prp2
    (n.restLen prp1 total)
  rw [h.sg_eq, prpSegments, List.map_cons]
  generalize payload (prpCells n m n.maxPrpEnts prp2 (n.restLen prp1 total)) = ptrs at hptrs
  generalize n.restLen prp1 total = rest at hptrs
  by_cases hzero : rest = 0
  case pos =>
    left
    rw [hzero, hp.pages_zero, List.length_eq_zero_iff] at hptrs
    rw [hzero, hptrs, pageSegments_nil, List.map_nil]
    exact ⟨rfl, rfl⟩
  case neg =>
    right
    rw [hp.pages_of_pos (by omega)] at hptrs
    obtain ⟨ptr, ptrs, rfl⟩ := List.exists_cons_of_length_eq_add_one hptrs
    rw [List.length_cons, Nat.add_right_cancel_iff] at hptrs
    rw [pageSegments_cons, List.map_cons]
    by_cases hle : rest ≤ n.pageSize
    case pos =>
      left
      rw [Nat.min_eq_left hle, Nat.sub_self, hp.pages_zero, List.length_eq_zero_iff] at hptrs
      rw [hptrs, pageSegments_nil, List.map_nil, Nat.min_eq_left hle]
      exact ⟨by omega, hle, rfl⟩
    case neg =>
      right
      rw [Nat.min_eq_right (by omega), hp.pages_of_pos (by omega)] at hptrs
      obtain ⟨ptr₂, ptrs₂, rfl⟩ := List.exists_cons_of_length_eq_add_one hptrs
      rw [Nat.min_eq_right (by omega), pageSegments_cons, List.map_cons]
      refine ⟨by omega, min (rest - n.pageSize) n.pageSize, _, ?_, rfl⟩
      omega

/-! ## sectors and segments line up -/

section LineUp

variable {f l : Nat} {lens : List Nat}

/-- A length that is no multiple of a sector ends inside one, and the next segment comes
with the address of that byte. -/
theorem follow_of_not_dvd (hbytes : BytesFollow q lbal len) (hlen : 0 < len) {j k p : Nat}
    (hp : p < lbal.length * len) (hprev : BlockAt (q.sg.map (·.len)) (p - 1) j k)
    (hnext : BlockAt (q.sg.map (·.len)) p (j + 1) 0) (hdvd : ¬ len ∣ p) :
    lbal.getD (j + 1) 0 = lbal.getD j 0 + k + 1 := by
  have hr := Nat.mod_lt p hlen
  have hpos : 0 < p % len := Nat.pos_of_ne_zero fun h => hdvd (Nat.dvd_of_mod_eq_zero h)
  have hp' : p / len * len + p % len = p := Nat.div_add_mod' p len
  have hi : p / len < lbal.length := Nat.div_lt_of_lt_mul (by rwa [Nat.mul_comm] at hp)
  have hat := hbytes (p / len) (p % len) (j + 1) 0 hi hr (by rwa [hp'])
  have hbefore := hbytes (p / len) (p % len - 1) j k hi (by omega) (by
    rwa [show p / len * len + (p % len - 1) = p - 1 by omega])
  omega

/-- The first segment holds whole sectors. -/
theorem dvd_first (hbytes : BytesFollow q lbal len) (hlen : 0 < len)
    (hlens : q.sg.map (·.len) = f :: l :: lens) (hf : 0 < f) (hl : 0 < l)
    (htotal : f + l ≤ lbal.length * len) (htwo : 1 < lbal.length)
    (hsecond : f < len → len < f + l) : len ∣ f := by
  by_contra hdvd
  have hone : lbal.getD 1 0 = lbal.getD 0 0 + f := by
    have hlast : BlockAt (q.sg.map (·.len)) (f - 1) 0 (f - 1) := by
      rw [hlens, blockAt_cons_zero]
      omega
    have hstart : BlockAt (q.sg.map (·.len)) f 1 0 := by simp [hlens, hl]
    have hstep : lbal.getD 1 0 = lbal.getD 0 0 + (f - 1) + 1 :=
      follow_of_not_dvd hbytes hlen (by omega) hlast hstart hdvd
    omega
  have hne : len ≠ f := fun h => hdvd (h ▸ dvd_rfl)
  by_cases hlt : len < f
  case pos =>
    -- the second sector starts in the first segment
    have := hbytes 1 0 0 len htwo hlen (by simp [hlens]; omega)
    omega
  case neg =>
    -- and otherwise in the second one, after its start
    have := hbytes 1 0 1 (len - f) htwo hlen (by simp [hlens]; omega)
    omega

/-- The page after the first segment holds whole sectors, if it is not the last segment. -/
theorem dvd_second (hbytes : BytesFollow q lbal len) (hlen : 0 < len) {l₂ : Nat}
    (hlens : q.sg.map (·.len) = f :: l :: l₂ :: lens) (hf : 0 < f) (hfl : f ≤ l) (hl₂ : 0 < l₂)
    (htotal : f + l + l₂ ≤ lbal.length * len) (hthree : 2 < lbal.length) (hfirst : len ∣ f) :
    len ∣ l := by
  by_contra hdvd
  have hnext : lbal.getD 2 0 = lbal.getD 1 0 + l := by
    have hlast : BlockAt (q.sg.map (·.len)) (f + l - 1) 1 (l - 1) := by
      rw [hlens, blockAt_cons_succ]
      exact ⟨l - 1, by omega, blockAt_cons_zero.mpr ⟨by omega, rfl⟩⟩
    have hstart : BlockAt (q.sg.map (·.len)) (f + l) 2 0 := by simp [hlens, hl₂]
    have hnot : ¬ len ∣ f + l := fun h => hdvd ((Nat.dvd_add_right hfirst).mp h)
    have hstep : lbal.getD 2 0 = lbal.getD 1 0 + (l - 1) + 1 :=
      follow_of_not_dvd hbytes hlen (by omega) hlast hstart hnot
    omega
  have hne : len ≠ l := fun h => hdvd (h ▸ dvd_rfl)
  obtain ⟨a, ha⟩ := hfirst
  have hapos : a ≠ 0 := by
    rintro rfl
    omega
  obtain rfl | rfl | hthird : a = 1 ∨ a = 2 ∨ 3 ≤ a := by omega
  -- the first segment holds one sector: the third one starts in the second segment
  case inl =>
    have := hbytes 2 0 1 len hthree hlen (by
      rw [hlens, blockAt_cons_succ]
      exact ⟨len, by omega, blockAt_cons_zero.mpr ⟨by omega, rfl⟩⟩)
    omega
  -- two sectors: the third one starts with the second segment
  case inr.inl =>
    have := hbytes 2 0 1 0 hthree hlen (by
      rw [hlens, blockAt_cons_succ]
      exact ⟨0, by omega, blockAt_cons_zero.mpr ⟨by omega, rfl⟩⟩)
    have hsecond := hbytes 1 0 0 len (by omega) hlen (by
      rw [hlens, blockAt_cons_zero]
      omega)
    omega
  -- more: the second and the third one start in the first segment
  case inr.inr =>
    have hle := Nat.mul_le_mul_left len hthird
    have hsecond := hbytes 1 0 0 len (by omega) hlen (by
      rw [hlens, blockAt_cons_zero]
      omega)
    have := hbytes 2 0 0 (2 * len) hthree hlen (by
      rw [hlens, blockAt_cons_zero]
      omega)
    omega

end LineUp

/-- The first segment and the rest make up the transfer. -/
theorem firstLen_add_restLen (n : DmaCtrl) (prp1 total : Nat) :
    n.firstLen prp1 total + n.restLen prp1 total = total := by
  rw [DmaCtrl.restLen, DmaCtrl.firstLen]
  omega

/-- A segment that is not the last one is the first one or a page. -/
theorem dropLast_len {n : DmaCtrl} {m : Mem} {prp1 prp2 total : Nat} {lens : List Nat}
    (h : PrpMapped n m prp1 prp2 total q) (hlens : q.sg.map (·.len) = f :: l :: lens)
    {e : ScatterGatherEntry} (he : e ∈ q.sg.dropLast) : e.len = f ∨ e.len = n.pageSize := by
  cases hsg : q.sg with
  | nil => simp [hsg] at hlens
  | cons e₀ tail =>
      rw [hsg, List.map_cons, List.cons.injEq] at hlens
      have htail : tail ≠ [] := by
        rintro rfl
        simp at hlens
      rw [hsg, List.dropLast_cons_of_ne_nil htail] at he
      obtain rfl | he := List.mem_cons.mp he
      · exact .inl hlens.1
      · exact .inr (h.full e (by rwa [hsg, List.tail_cons]))

/-- Segments no longer than a sector are as many as the sectors: where there are fewer, and
three at least, the first two are longer than a sector. -/
theorem lt_first_two {n : DmaCtrl} (hp : n.Paged) {m : Mem} {prp1 prp2 : Nat}
    (h : PrpMapped n m prp1 prp2 (lbal.length * len) q) (hfewer : q.sg.length < lbal.length)
    (hmore : n.pageSize < n.restLen prp1 (lbal.length * len))
    (hfirst : n.firstLen prp1 (lbal.length * len) < len) :
    len < n.firstLen prp1 (lbal.length * len) + n.pageSize := by
  have hlength := h.length_eq
  have hrest := firstLen_add_restLen n prp1 (lbal.length * len)
  have hpages : n.restLen prp1 (lbal.length * len) ≤
      n.pages (n.restLen prp1 (lbal.length * len)) * n.pageSize :=
    Nat.le_of_not_lt fun hlt => Nat.lt_irrefl _ (hp.lt_pages.mpr hlt)
  by_contra hge
  have hmul : n.pages (n.restLen prp1 (lbal.length * len)) * n.pageSize ≤
      (lbal.length - 2) * len := Nat.mul_le_mul (by omega) (by omega)
  have htwo : 1 < n.pages (n.restLen prp1 (lbal.length * len)) := hp.one_lt_pages.mpr hmore
  have htwice := Nat.mul_le_mul_right len (show 2 ≤ lbal.length by omega)
  rw [Nat.sub_mul] at hmul
  omega

/-- All but the last segment hold whole sectors, if there are fewer segments than sectors and
the bytes come with the addresses of their sectors. -/
theorem whole_of_bytes {n : DmaCtrl} (hp : n.Paged) {m : Mem} {prp1 prp2 : Nat}
    (h : PrpMapped n m prp1 prp2 (lbal.length * len) q) (hlen : 0 < len)
    (hfewer : q.nsg < lbal.length) (hbytes : BytesFollow q lbal len) :
    ∀ e ∈ q.sg.dropLast, len ∣ e.len := by
  have hsize := hp.le_pageSize
  have hmod := Nat.mod_lt prp1 (show 0 < n.pageSize by omega)
  rw [h.covers.nsg_eq] at hfewer
  have hone := Nat.mul_le_mul_right len (show 1 ≤ lbal.length by omega)
  have hf : 0 < n.firstLen prp1 (lbal.length * len) := by
    rw [DmaCtrl.firstLen]
    omega
  have hfpage := n.firstLen_le prp1 (lbal.length * len)
  have hrest := firstLen_add_restLen n prp1 (lbal.length * len)
  obtain ⟨-, hlens⟩ | ⟨hpos, hle, hlens⟩ | ⟨hmore, l, lens, hl, hlens⟩ := mapped_lens hp h
  case inl =>
    refine forall_dropLast_len.mpr ?_
    simp [hlens]
  case inr.inl =>
    have htwo : q.sg.length = 2 := by simpa using congrArg List.length hlens
    have hthree := Nat.mul_le_mul_right len (show 3 ≤ lbal.length by omega)
    have hdvd := dvd_first hbytes hlen hlens hf hpos hrest.le (by omega) (fun _ => by omega)
    refine forall_dropLast_len.mpr ?_
    simpa [hlens] using hdvd
  case inr.inr =>
    have hthree : 3 ≤ q.sg.length := by
      rw [← List.length_map, hlens]
      simp
    have htotal : n.firstLen prp1 (lbal.length * len) + n.pageSize + l ≤ lbal.length * len := by
      have hsum : sgTotal q.sg = lbal.length * len := h.covers.total_eq
      rw [sgTotal, hlens] at hsum
      simp only [List.sum_cons] at hsum
      omega
    have hdvd := dvd_first hbytes hlen hlens hf (by omega) (by omega) (by omega)
      (lt_first_two hp h hfewer hmore)
    have hpage := dvd_second hbytes hlen hlens hf hfpage hl htotal (by omega) hdvd
    intro e he
    rcases dropLast_len h hlens he with heq | heq
    · rwa [heq]
    · rwa [heq]

/-- Sectors are placed right if and only if there are fewer segments than sectors and the
sectors follow their segments. -/
theorem places_sectors_iff {n : DmaCtrl} (hp : n.Paged) {m : Mem} {prp1 prp2 : Nat}
    {t t' : Mapping} (hlen : 0 < len) (htotal : lbal.length * len < 2 ^ 32)
    (hmap : nvmeMapPrp .stub n m prp1 prp2 (lbal.length * len) t = some (nvmeSuccess, t'))
    (isWrite : Bool) (host mb : Bytes) :
    PlacesSectors t'.qsg lbal len isWrite host mb
        (backendRwTraced t'.qsg lbal isWrite host mb) ↔
      SectorsFollow t'.qsg lbal len := by
  have hmapped : PrpMapped n m prp1 prp2 (lbal.length * len) t'.qsg := by
    obtain ⟨s, t₁, hrun, -, hmapped⟩ :=
      nvmeMapPrp_stub hp m t htotal (mapEnds_of_run hp htotal hmap)
    rw [hmap, Option.some.injEq, Prod.mk.injEq] at hrun
    obtain ⟨rfl, rfl⟩ := hrun
    exact hmapped rfl
  rw [placesSectors_iff hmapped.covers.nsg_eq hmapped.covers.total_eq]
  constructor
  case mp =>
    intro h
    obtain ⟨hfewer, hbytes⟩ := h
    refine ⟨hfewer, whole_of_bytes hp hmapped hlen hfewer hbytes, ?_⟩
    intro i j k hi hjk
    exact hbytes i 0 j k hi hlen hjk
  case mpr =>
    intro h
    exact ⟨h.fewer, h.bytes⟩

/-- The segments of two sectors of 4096 bytes from the middle of a page on. -/
def midPage : QEMUSGList :=
  ⟨[⟨0x1800, 0x800⟩, ⟨0x100000, 0x1000⟩, ⟨0x100000, 0x800⟩], 3, 0x2000⟩

/-- The second half of the first sector goes to the address of the second one. -/
theorem sectors_misplaced :
    nvmeMapPrp .stub hostCtrl samePage 0x1800 0x2000 0x2000 ⟨pciDmaSglistInit, []⟩ =
        some (nvmeSuccess, ⟨midPage, []⟩) ∧
      ¬ PlacesSectors midPage [0, 0x1000] 0x1000 true (fun _ => 0) (fun _ => 0)
        (backendRwTraced midPage [0, 0x1000] true (fun _ => 0) fun _ => 0) := by
  refine ⟨by decide +kernel, fun h => ?_⟩
  have hfollow := ((placesSectors_iff rfl rfl true _ _).mp h).2
  have hhalf := hfollow 0 0x800 1 0 (by decide) (by decide) (by simp [midPage])
  revert hhalf
  decide

/-- Two sectors of 512 bytes, one after the other in the backend and in one page. -/
theorem places_sectors_two :
    PlacesSectors ⟨[⟨0x1000, 0x400⟩], 1, 0x400⟩ [0x4000, 0x4200] 0x200 true (fun _ => 0)
      (fun _ => 0) (backendRwTraced ⟨[⟨0x1000, 0x400⟩], 1, 0x400⟩ [0x4000, 0x4200] true
        (fun _ => 0) fun _ => 0) := by
  have hmap : nvmeMapPrp .stub hostCtrl samePage 0x1000 0
      (([0x4000, 0x4200] : List Nat).length * 0x200) ⟨pciDmaSglistInit, []⟩ =
        some (nvmeSuccess, ⟨⟨[⟨0x1000, 0x400⟩], 1, 0x400⟩, []⟩) := by
    decide +kernel
  refine (places_sectors_iff hostCtrl_paged (by decide) (by decide) hmap true _ _).mpr
    ⟨by decide, by simp, ?_⟩
  intro i j k hi hjk
  cases j with
  | succ j => simp [BlockAt] at hjk
  | zero =>
      obtain ⟨-, rfl⟩ := blockAt_cons_zero.mp hjk
      obtain rfl | rfl : i = 0 ∨ i = 1 := by
        simp at hi
        omega
      · rfl
      · rfl

end Femu.Ocssd
