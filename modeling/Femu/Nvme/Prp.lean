import Femu.Lib.Chained
import Femu.Nvme.Dma

/-!
# Femu.Nvme.Prp

What a pair of PRP entries stands for, and the walk of `nvme_map_prp` over a PRP
list (`dma.c`).

* `prpCells` lists the entries that a transfer needs after `prp1`, chain pointers
  included, as a list in chained pages (`Lib.chained`);
* `prpSegments` is the scatter list that these entries describe;
* `mapPrpLoop_eq` reduces the loop of the code to a pass over the entries.
-/

namespace Femu.Nvme

open Lib

/-! ## the pages of a controller -/

/-- The page registers as `nvme_start_ctrl` sets them. -/
structure DmaCtrl.Paged (n : DmaCtrl) : Prop where
  le_pageBits : 12 ≤ n.pageBits
  pageSize_eq : n.pageSize = 2 ^ n.pageBits
  maxPrpEnts_eq : n.maxPrpEnts = n.pageSize / 8

namespace DmaCtrl

theorem Paged.le_pageSize {n : DmaCtrl} (hp : n.Paged) : 4096 ≤ n.pageSize := by
  rw [hp.pageSize_eq]
  exact Nat.pow_le_pow_right Nat.two_pos hp.le_pageBits

theorem Paged.le_maxPrpEnts {n : DmaCtrl} (hp : n.Paged) : 512 ≤ n.maxPrpEnts := by
  have := hp.le_pageSize
  rw [hp.maxPrpEnts_eq]
  omega

theorem Paged.mul_maxPrpEnts {n : DmaCtrl} (hp : n.Paged) : 8 * n.maxPrpEnts = n.pageSize := by
  rw [hp.maxPrpEnts_eq]
  refine Nat.mul_div_cancel' ?_
  rw [hp.pageSize_eq]
  exact Nat.pow_dvd_pow 2 (show 3 ≤ n.pageBits from le_trans (by omega) hp.le_pageBits)

/-- A pointer that an entry may hold: to the start of a page, and not null. -/
def goodPrpEnt (n : DmaCtrl) (ent : Nat) : Prop := ent ≠ 0 ∧ ent % n.pageSize = 0

instance decidableGoodPrpEnt (n : DmaCtrl) (ent : Nat) : Decidable (n.goodPrpEnt ent) :=
  inferInstanceAs (Decidable (_ ∧ _))

theorem Paged.and_eq_mod {n : DmaCtrl} (hp : n.Paged) (ent : Nat) :
    ent &&& (n.pageSize - 1) = ent % n.pageSize := by
  rw [hp.pageSize_eq, Nat.and_two_pow_sub_one_eq_mod]

theorem Paged.badPrpEnt_iff {n : DmaCtrl} (hp : n.Paged) (ent : Nat) :
    n.badPrpEnt ent ↔ ¬ n.goodPrpEnt ent := by
  rw [badPrpEnt, goodPrpEnt, hp.and_eq_mod, not_and_or, not_not]

/-- The number of pages that `len` bytes take. -/
def pages (n : DmaCtrl) (len : Nat) : Nat := (len + n.pageSize - 1) / n.pageSize

theorem Paged.pages_zero {n : DmaCtrl} (hp : n.Paged) : n.pages 0 = 0 := by
  have := hp.le_pageSize
  exact Nat.div_eq_of_lt (by omega)

theorem Paged.pages_of_pos {n : DmaCtrl} (hp : n.Paged) {len : Nat} (h : 0 < len) :
    n.pages len = n.pages (len - min len n.pageSize) + 1 := by
  have := hp.le_pageSize
  by_cases hle : len ≤ n.pageSize
  · rw [Nat.min_eq_left hle, Nat.sub_self, hp.pages_zero]
    exact Nat.div_eq_of_lt_le (by omega) (by omega)
  · rw [pages, pages, ← Nat.add_div_right _ (by omega)]
    congr 1
    omega

theorem Paged.lt_pages {n : DmaCtrl} (hp : n.Paged) {k len : Nat} :
    k < n.pages len ↔ k * n.pageSize < len := by
  have := hp.le_pageSize
  rw [pages, Nat.lt_iff_add_one_le, Nat.le_div_iff_mul_le (by omega), Nat.add_mul]
  omega

theorem Paged.one_lt_pages {n : DmaCtrl} (hp : n.Paged) {len : Nat} :
    1 < n.pages len ↔ n.pageSize < len := by rw [hp.lt_pages, Nat.one_mul]

/-- The bytes of the first segment: up to the end of the page of `prp1`. -/
def firstLen (n : DmaCtrl) (prp1 len : Nat) : Nat := min len (n.pageSize - prp1 % n.pageSize)

/-- The bytes that are left for the other segments. -/
def restLen (n : DmaCtrl) (prp1 len : Nat) : Nat := len - n.firstLen prp1 len

end DmaCtrl

/-! ## the entries of a transfer -/

/-- The entry in slot `i` of the list at `list`. -/
def prpSlot (n : DmaCtrl) (m : Mem) (list i : Nat) : Nat :=
  if n.inCmb list then leNat (readBytes m.cmbuf (list - n.ctrlMemAddr + 8 * i) 8)
  else leNat (readBytes m.host (list + 8 * i) 8)

/-- The entries of a list of `k` pages at `list`, of which `room` entries are in
the page of `list`. The last entry of a page is a chain pointer if and only if
more than one page remains (`chained_link_iff`). -/
def listCells (n : DmaCtrl) (m : Mem) (room list k : Nat) : List (Cell Nat) :=
  chained (prpSlot n m) n.maxPrpEnts room (prpSlot n m list) k

/-- The entries that `len` bytes need after `prp1`, when `room` entries of a list
are in the page of `prp2`: none, `prp2` alone, or those of the list. -/
def prpCells (n : DmaCtrl) (m : Mem) (room prp2 len : Nat) : List (Cell Nat) :=
  if len = 0 then []
  else if len ≤ n.pageSize then [.item prp2]
  else listCells n m room prp2 (n.pages len)

/-- Every entry that a transfer of `len` bytes needs is there. -/
def PrpsGood (n : DmaCtrl) (m : Mem) (room prp1 prp2 len : Nat) : Prop :=
  prp1 ≠ 0 ∧ (n.restLen prp1 len ≠ 0 → prp2 ≠ 0) ∧
    ∀ c ∈ prpCells n m room prp2 (n.restLen prp1 len), n.goodPrpEnt c.val

/-- A segment for each page: `len` bytes, full pages but for the last. -/
def pageSegments (n : DmaCtrl) (len : Nat) (ptrs : List Nat) : List ScatterGatherEntry :=
  ptrs.mapIdx fun k ptr => ⟨ptr, min n.pageSize (len - k * n.pageSize)⟩

/-- The segments that a pair of PRP entries describes. -/
def prpSegments (n : DmaCtrl) (m : Mem) (room prp1 prp2 len : Nat) : List ScatterGatherEntry :=
  ⟨prp1, n.firstLen prp1 len⟩ ::
    pageSegments n (n.restLen prp1 len) (payload (prpCells n m room prp2 (n.restLen prp1 len)))

theorem pageSegments_nil (n : DmaCtrl) (len : Nat) : pageSegments n len [] = [] := by
  simp [pageSegments]

theorem pageSegments_cons (n : DmaCtrl) (len ptr : Nat) (ptrs : List Nat) :
    pageSegments n len (ptr :: ptrs) =
      ⟨ptr, min len n.pageSize⟩ :: pageSegments n (len - min len n.pageSize) ptrs := by
  have hlater : ∀ k, len - (k + 1) * n.pageSize = len - min len n.pageSize - k * n.pageSize := by
    intro k
    rw [Nat.add_mul]
    omega
  simp only [pageSegments, List.mapIdx_cons, Nat.zero_mul, Nat.sub_zero, hlater, Nat.min_comm]

@[simp] theorem length_pageSegments (n : DmaCtrl) (len : Nat) (ptrs : List Nat) :
    (pageSegments n len ptrs).length = ptrs.length := by simp [pageSegments]

/-- All the segments but the last one are full pages. -/
theorem pageSegments_full {n : DmaCtrl} (hp : n.Paged) {len : Nat} {ptrs : List Nat}
    (h : ptrs.length = n.pages len) : ∀ e ∈ (pageSegments n len ptrs).dropLast, e.len = n.pageSize := by
  intro e he
  obtain ⟨i, hi, rfl⟩ := List.mem_iff_getElem.mp he
  rw [List.length_dropLast, length_pageSegments] at hi
  have hmore : (i + 1) * n.pageSize < len := hp.lt_pages.mp (by omega)
  rw [Nat.add_mul] at hmore
  simp only [pageSegments, List.getElem_dropLast, List.getElem_mapIdx]
  omega

/-- The entries of a transfer point to as many pages as it takes. -/
theorem length_payload_prpCells {n : DmaCtrl} (hp : n.Paged) (m : Mem) {room : Nat}
    (hroom : 0 < room) (prp2 len : Nat) :
    (payload (prpCells n m room prp2 len)).length = n.pages len := by
  have hcap := hp.le_maxPrpEnts
  rw [prpCells]
  split
  · rename_i hzero
    rw [hzero, hp.pages_zero, payload_nil, List.length_nil]
  · split
    · have hpos := hp.pages_of_pos (show 0 < len by omega)
      rw [hpos, Nat.min_eq_left (by omega), Nat.sub_self, hp.pages_zero]
      simp
    · exact length_payload_chained (by omega) _ _ hroom

/-! ## reading a list -/

theorem take_drop_readBytes (m : Bytes) (addr : Nat) {i cnt : Nat} (h : i < cnt) :
    ((readBytes m addr (cnt * 8)).drop (8 * i)).take 8 = readBytes m (addr + 8 * i) 8 := by
  apply List.ext_getElem
  · simp only [readBytes, List.length_take, List.length_drop, List.length_map, List.length_range]
    omega
  · intro j hj hj'
    simp [readBytes, Nat.add_assoc]

theorem readPrpList_eq {n : DmaCtrl} (hp : n.Paged) (m : Mem) (addr : Nat) {len : Nat}
    (hlen : len + n.pageSize ≤ 2 ^ 32) :
    readPrpList n m addr len =
      (List.range (min n.maxPrpEnts (n.pages len))).map (prpSlot n m addr) := by
  have hpos := hp.le_pageSize
  have hnents : u32 (len + n.pageSize - 1) >>> n.pageBits = n.pages len := by
    rw [u32_eq (by omega), Nat.shiftRight_eq_div_pow, ← hp.pageSize_eq, DmaCtrl.pages]
  simp only [readPrpList, hnents]
  refine List.map_congr_left ?_
  intro i hi
  rw [List.mem_range] at hi
  simp only [nvmeAddrRead, prpSlot]
  split
  · rw [take_drop_readBytes _ _ hi]
  · rw [take_drop_readBytes _ _ hi]

/-! ## the walk over the entries -/

/-- Map the pages that the entries point to, up to an entry that is refused. -/
def mapCells (api : IovecApi) (n : DmaCtrl) (cmb : Bool) :
    List (Cell Nat) → Nat → Mapping → Option (Bool × Mapping)
  | [], _, t => some (true, t)
  | c :: cs, len, t =>
    if n.badPrpEnt c.val then
      some (false, t)
    else
      match c with
      | .link _ => mapCells api n cmb cs len t
      | .item ent =>
        (t.add api n cmb ent (min len n.pageSize)).bind
          (mapCells api n cmb cs (len - min len n.pageSize))

theorem mapCells_nil (api : IovecApi) (n : DmaCtrl) (cmb : Bool) (len : Nat) (t : Mapping) :
    mapCells api n cmb [] len t = some (true, t) := by rw [mapCells]

theorem mapCells_link (api : IovecApi) (n : DmaCtrl) (cmb : Bool) (ptr : Nat)
    (cs : List (Cell Nat)) (len : Nat) (t : Mapping) :
    mapCells api n cmb (.link ptr :: cs) len t =
      if n.badPrpEnt ptr then some (false, t) else mapCells api n cmb cs len t := by
  rw [mapCells]
  rfl

theorem mapCells_item (api : IovecApi) (n : DmaCtrl) (cmb : Bool) (ent : Nat)
    (cs : List (Cell Nat)) (len : Nat) (t : Mapping) :
    mapCells api n cmb (.item ent :: cs) len t =
      if n.badPrpEnt ent then some (false, t)
      else (t.add api n cmb ent (min len n.pageSize)).bind
        (mapCells api n cmb cs (len - min len n.pageSize)) := by
  rw [mapCells]
  rfl

theorem mapCells_bad (api : IovecApi) {n : DmaCtrl} (cmb : Bool) {c : Cell Nat}
    (cs : List (Cell Nat)) (len : Nat) (t : Mapping) (h : n.badPrpEnt c.val) :
    mapCells api n cmb (c :: cs) len t = some (false, t) := by
  cases c with
  | link ptr => rw [mapCells_link, if_pos (Cell.val_link ptr ▸ h)]
  | item ent => rw [mapCells_item, if_pos (Cell.val_item ent ▸ h)]

/-- The array holds the entries of `g` from index `i` on, `k` of them or up to
its end. -/
def ListAt (n : DmaCtrl) (prpList : List Nat) (i : Nat) (g : Nat → Nat) (k : Nat) : Prop :=
  ∀ j, j < k → i + j < n.maxPrpEnts → prpList[i + j]? = some (g j)

theorem ListAt.next {n : DmaCtrl} {prpList : List Nat} {i k : Nat} {g : Nat → Nat}
    (h : ListAt n prpList i g (k + 1)) : ListAt n prpList (i + 1) (fun j => g (j + 1)) k := by
  intro j hj hi
  have := h (j + 1) (by omega) (by omega)
  rwa [show i + (j + 1) = i + 1 + j by omega] at this

theorem listAt_readPrpList {n : DmaCtrl} (hp : n.Paged) (m : Mem) (addr : Nat) {len : Nat}
    (hlen : len + n.pageSize ≤ 2 ^ 32) (old : List Nat) :
    ListAt n (readPrpList n m addr len ++ old) 0 (prpSlot n m addr) (n.pages len) := by
  intro j hj hi
  rw [readPrpList_eq hp m addr hlen, List.getElem?_append_left]
  · simp only [Nat.zero_add, List.getElem?_map]
    rw [List.getElem?_range (by omega), Option.map_some]
  · simp only [List.length_map, List.length_range]
    omega

/-- One entry of the list: it is refused as a chain pointer, or the turn goes on
with an entry of the same list or with the first one of the next. -/
theorem nextPrpEnt_cases {n : DmaCtrl} (hp : n.Paged) (m : Mem) {prpList : List Nat} {i len : Nat}
    {g : Nat → Nat} (hi : i < n.maxPrpEnts) (hlen : 0 < len) (hfit : len + n.pageSize ≤ 2 ^ 32)
    (hlist : ListAt n prpList i g (n.pages len)) :
    (nextPrpEnt n m prpList i len = some none ∧
      ∃ ptr cs, n.badPrpEnt ptr ∧
        chained (prpSlot n m) n.maxPrpEnts (n.maxPrpEnts - i) g (n.pages len) = .link ptr :: cs) ∨
    ∃ prpList' i' g', nextPrpEnt n m prpList i len = some (some (prpList', i', g' 0)) ∧
      i' < n.maxPrpEnts ∧ ListAt n prpList' i' g' (n.pages len) ∧
      (1 < n.maxPrpEnts - i' ∨ n.pages len = 1) ∧
      ∀ api cmb t,
        mapCells api n cmb
            (chained (prpSlot n m) n.maxPrpEnts (n.maxPrpEnts - i) g (n.pages len)) len t =
          mapCells api n cmb
            (chained (prpSlot n m) n.maxPrpEnts (n.maxPrpEnts - i') g' (n.pages len)) len t := by
  have hcap := hp.le_maxPrpEnts
  have hpages := hp.pages_of_pos hlen
  have hent : prpList[i]? = some (g 0) := hlist 0 (by omega) hi
  by_cases hchain : i = n.maxPrpEnts - 1 ∧ n.pageSize < len
  case pos =>
    have hlink : chained (prpSlot n m) n.maxPrpEnts (n.maxPrpEnts - i) g (n.pages len) =
        .link (g 0) ::
          chained (prpSlot n m) n.maxPrpEnts n.maxPrpEnts (prpSlot n m (g 0)) (n.pages len) := by
      rw [show n.maxPrpEnts - i = 1 by omega]
      exact chained_link (by omega) g (hp.one_lt_pages.mpr hchain.2)
    by_cases hbad : n.badPrpEnt (g 0)
    case pos =>
      left
      refine ⟨?_, g 0, _, hbad, hlink⟩
      simp only [nextPrpEnt, hent, Option.bind_eq_bind, Option.bind_some, if_pos hchain,
        if_pos hbad]
      rfl
    case neg =>
      right
      have hnext := listAt_readPrpList hp m (g 0) hfit
        (prpList.drop (readPrpList n m (g 0) len).length)
      have hfirst := hnext 0 (by omega) (by omega)
      refine ⟨_, 0, prpSlot n m (g 0), ?_, by omega, hnext, Or.inl (by omega), ?_⟩
      · simp only [nextPrpEnt, hent, Option.bind_eq_bind, Option.bind_some, if_pos hchain,
          if_neg hbad, hfirst]
        rfl
      · intro api cmb t
        rw [hlink, mapCells_link, if_neg hbad, Nat.sub_zero]
  case neg =>
    right
    refine ⟨prpList, i, g, ?_, hi, hlist, ?_, fun api cmb t => rfl⟩
    · simp [nextPrpEnt, hent, hchain]
    · have hmore : 1 < n.pages len ↔ n.pageSize < len := hp.one_lt_pages
      omega

/-- The loop of `nvme_map_prp` maps the entries of the list. -/
theorem mapPrpLoop_eq {n : DmaCtrl} (hp : n.Paged) (api : IovecApi) (m : Mem) (cmb : Bool)
    {fuel : Nat} {prpList : List Nat} {i len : Nat} {g : Nat → Nat} (t : Mapping)
    (hfuel : len ≤ fuel) (hi : i < n.maxPrpEnts ∨ len = 0) (hfit : len + n.pageSize ≤ 2 ^ 32)
    (hlist : ListAt n prpList i g (n.pages len)) :
    mapPrpLoop api n m cmb fuel prpList i len t =
      mapCells api n cmb
        (chained (prpSlot n m) n.maxPrpEnts (n.maxPrpEnts - i) g (n.pages len)) len t := by
  have hcap := hp.le_maxPrpEnts
  have hsize := hp.le_pageSize
  induction fuel generalizing prpList i len g t with
  | zero =>
      obtain rfl : len = 0 := by omega
      rw [hp.pages_zero, chained_zero (by omega), mapPrpLoop, mapCells_nil, if_pos rfl]
  | succ fuel ih =>
      by_cases hzero : len = 0
      · rw [hzero, hp.pages_zero, chained_zero (by omega), mapPrpLoop, mapCells_nil, if_pos rfl]
      · rw [mapPrpLoop, if_neg hzero]
        obtain ⟨hnone, ptr, cs, hbad, hcells⟩ | ⟨prpList', i', g', hsome, hi', hlist', hroom, hcells⟩ :=
          nextPrpEnt_cases hp m (by omega) (by omega) hfit hlist
        · rw [hnone, hcells, mapCells_link, if_pos hbad]
        · have hpages := hp.pages_of_pos (show 0 < len by omega)
          rw [hsome, hcells, hpages, chained_item (by omega) g' (by omega) (by omega),
            mapCells_item]
          have hmore : 1 < n.pages len ↔ n.pageSize < len := hp.one_lt_pages
          have hrest := fun t' => ih t' (show len - min len n.pageSize ≤ fuel by omega)
            (show i' + 1 < n.maxPrpEnts ∨ len - min len n.pageSize = 0 by omega) (by omega)
            (hpages ▸ hlist').next
          simp only [hrest, Nat.sub_sub]

/-- The bytes that the code maps after the first entry: those that are left, but
`prp2` alone is mapped in the controller memory buffer with the length of the
first entry. -/
def DmaCtrl.mappedLen (n : DmaCtrl) (cmb : Bool) (transLen len : Nat) : Nat :=
  if cmb = true ∧ len ≤ n.pageSize then transLen else len

/-- What is mapped after the first entry, unless the code reads a list with a
wrapped count. -/
theorem mapPrpRest_eq {n : DmaCtrl} (hp : n.Paged) (api : IovecApi) (m : Mem) (cmb : Bool)
    {prp2 transLen len : Nat} (t : Mapping) (htrans : transLen ≤ n.pageSize)
    (hfit : prp2 = 0 ∨ len ≤ n.pageSize ∨ len + n.pageSize ≤ 2 ^ 32) :
    mapPrpRest api n m cmb prp2 transLen len t =
      if len ≠ 0 ∧ prp2 = 0 then some (false, t)
      else mapCells api n cmb (prpCells n m n.maxPrpEnts prp2 len) (n.mappedLen cmb transLen len)
        t := by
  have hcap := hp.le_maxPrpEnts
  by_cases hzero : len = 0
  case pos => simp [mapPrpRest, prpCells, hzero, mapCells_nil]
  case neg =>
    by_cases hnull : prp2 = 0
    case pos => simp [mapPrpRest, hzero, hnull]
    case neg =>
      rw [if_neg (fun h => hnull h.2)]
      by_cases hlist : n.pageSize < len
      case pos =>
        have hmapped : n.mappedLen cmb transLen len = len := if_neg fun h => by omega
        simp only [mapPrpRest, prpCells, listCells, if_neg hzero, if_neg hnull, if_pos hlist,
          if_neg (Nat.not_le.mpr hlist), hmapped]
        have hread := listAt_readPrpList hp m prp2 (show len + n.pageSize ≤ 2 ^ 32 by omega) []
        rw [List.append_nil] at hread
        have hloop := mapPrpLoop_eq hp api m cmb t (Nat.le_refl len) (Or.inl (by omega)) (by omega)
          hread
        rwa [Nat.sub_zero] at hloop
      case neg =>
        have hle : len ≤ n.pageSize := by omega
        have hmapped : n.mappedLen cmb transLen len = if cmb = true then transLen else len := by
          simp [DmaCtrl.mappedLen, hle]
        have hmappedLe : n.mappedLen cmb transLen len ≤ n.pageSize := by
          rw [hmapped]
          split
          · exact htrans
          · exact hle
        simp only [mapPrpRest, prpCells, if_neg hzero, if_neg hnull, if_neg hlist, if_pos hle,
          mapCells_item, hp.and_eq_mod, Nat.min_eq_left hmappedLe, ← hmapped]
        by_cases hoff : prp2 % n.pageSize = 0
        case pos =>
          have hgood : ¬ n.badPrpEnt prp2 := fun h => (hp.badPrpEnt_iff prp2).mp h ⟨hnull, hoff⟩
          rw [if_neg (not_not.mpr hoff), if_neg hgood]
          cases t.add api n cmb prp2 (n.mappedLen cmb transLen len) with
          | none => rfl
          | some t' => rw [Option.map_some, Option.bind_some, mapCells_nil]
        case neg =>
          have hbad : n.badPrpEnt prp2 := (hp.badPrpEnt_iff prp2).mpr fun h => hoff h.2
          rw [if_pos hoff, if_pos hbad]

/-! ## the segments of a mapping -/

/-- `qemu_iovec_add` appends a segment to the vector. -/
def IovecApi.Appends (api : IovecApi) : Prop :=
  ∀ iov base len, api.add iov base len = some (iov ++ [⟨base, len⟩])

/-- Where the code puts a segment: at its address in the list, or at its offset in
the controller memory buffer. -/
def DmaCtrl.place (n : DmaCtrl) (cmb : Bool) (e : ScatterGatherEntry) : ScatterGatherEntry :=
  if cmb then ⟨u64 (e.base + 2 ^ 64 - n.ctrlMemAddr), e.len⟩ else e

/-- The segments that a mapping has added, to the list or to the vector. -/
def Mapping.segments (cmb : Bool) (t : Mapping) : List ScatterGatherEntry :=
  if cmb then t.iov else t.qsg.sg

@[simp] theorem DmaCtrl.map_place_false (n : DmaCtrl) (es : List ScatterGatherEntry) :
    es.map (n.place false) = es :=
  List.map_id es

theorem Mapping.add_segments {api : IovecApi} (n : DmaCtrl) {cmb : Bool}
    (h : cmb = true → api.Appends) (t : Mapping) (ent len : Nat) :
    ∃ t', t.add api n cmb ent len = some t' ∧
      t'.segments cmb = t.segments cmb ++ [n.place cmb ⟨ent, len⟩] := by
  cases cmb with
  | false => exact ⟨_, Mapping.add_host api n t ent len, rfl⟩
  | true =>
      refine ⟨{ t with iov := t.iov ++ [n.place true ⟨ent, len⟩] }, ?_, rfl⟩
      rw [Mapping.add, if_pos rfl, h rfl, Option.map_some]
      rfl

theorem mapCells_outcome {api : IovecApi} {n : DmaCtrl} (hp : n.Paged) {cmb : Bool}
    (h : cmb = true → api.Appends) (cs : List (Cell Nat)) (len : Nat) (t : Mapping) :
    ∃ ok t', mapCells api n cmb cs len t = some (ok, t') ∧
      (ok = true ↔ ∀ c ∈ cs, n.goodPrpEnt c.val) ∧
      (ok = true → t'.segments cmb =
        t.segments cmb ++ (pageSegments n len (payload cs)).map (n.place cmb)) := by
  induction cs generalizing len t with
  | nil =>
      refine ⟨true, t, mapCells_nil api n cmb len t, ?_, fun _ => ?_⟩
      · simp
      · rw [payload_nil, pageSegments_nil, List.map_nil, List.append_nil]
  | cons c cs ih =>
      by_cases hbad : n.badPrpEnt c.val
      case pos =>
        refine ⟨false, t, ?_, ?_, fun hok => ?_⟩
        · exact mapCells_bad api cmb cs len t hbad
        · have := (hp.badPrpEnt_iff c.val).mp hbad
          simp [this]
        · contradiction
      case neg =>
        have hgood : n.goodPrpEnt c.val := not_not.mp fun hg => hbad ((hp.badPrpEnt_iff _).mpr hg)
        cases c with
        | link ptr =>
            obtain ⟨ok, t', hrun, hiff, hsegs⟩ := ih len t
            refine ⟨ok, t', ?_, ?_, ?_⟩
            · rwa [mapCells_link, if_neg (Cell.val_link ptr ▸ hbad)]
            · rw [hiff]
              simp [show n.goodPrpEnt ptr from hgood]
            · rwa [payload_link]
        | item ent =>
            obtain ⟨t₁, hadded, hsegs₁⟩ := Mapping.add_segments n h t ent (min len n.pageSize)
            obtain ⟨ok, t', hrun, hiff, hsegs⟩ := ih (len - min len n.pageSize) t₁
            refine ⟨ok, t', ?_, ?_, ?_⟩
            · rwa [mapCells_item, if_neg (Cell.val_item ent ▸ hbad), hadded, Option.bind_some]
            · rw [hiff]
              simp [show n.goodPrpEnt ent from hgood]
            · intro hok
              rw [hsegs hok, hsegs₁, payload_item, pageSegments_cons, List.map_cons,
                List.append_assoc, List.singleton_append]

/-! ## the whole mapping -/

/-- The lists of a request before the first segment is added. -/
def Mapping.fresh (cmb : Bool) (t : Mapping) : Mapping :=
  if cmb then ⟨{ t.qsg with nsg := 0 }, []⟩ else { t with qsg := pciDmaSglistInit }

/-- The status of a mapping, and its lists, which are dropped at `unmap`. -/
def mapStatus (cmb : Bool) : Bool × Mapping → Status × Mapping
  | (true, t) => (nvmeSuccess, t)
  | (false, t) =>
    (nvmeInvalidField ||| nvmeDnr,
      if cmb then { t with iov := [] } else { t with qsg := qemuSglistDestroy t.qsg })

theorem Mapping.segments_fresh (cmb : Bool) (t : Mapping) : (t.fresh cmb).segments cmb = [] := by
  cases cmb with
  | false => rfl
  | true => rfl

theorem nvmeMapPrp_null (api : IovecApi) {n : DmaCtrl} (hp : n.Paged) (m : Mem) (prp2 len : Nat)
    (t : Mapping) : nvmeMapPrp api n m 0 prp2 len t = some (nvmeInvalidField ||| nvmeDnr, t) := by
  have hsize := hp.le_pageSize
  rw [nvmeMapPrp, if_neg (by omega), if_pos rfl]

theorem nvmeMapPrp_of_ne (api : IovecApi) {n : DmaCtrl} (hp : n.Paged) (m : Mem)
    {prp1 len : Nat} (prp2 : Nat) (t : Mapping) (hprp1 : prp1 ≠ 0) (hlen : len < 2 ^ 32) :
    nvmeMapPrp api n m prp1 prp2 len t =
      (((t.fresh (decide (n.inCmb prp1))).add api n (decide (n.inCmb prp1)) prp1
        (n.firstLen prp1 len)).bind
        (mapPrpRest api n m (decide (n.inCmb prp1)) prp2 (n.firstLen prp1 len)
          (n.restLen prp1 len))).map (mapStatus (decide (n.inCmb prp1))) := by
  have hsize := hp.le_pageSize
  rw [nvmeMapPrp, if_neg (show ¬ n.pageSize = 0 by omega)]
  simp only [u32_eq hlen, if_neg hprp1, DmaCtrl.restLen, DmaCtrl.firstLen, Mapping.fresh]
  split
  · rename_i hrun
    rw [hrun, Option.map_none]
  · rename_i t' hrun
    rw [hrun, Option.map_some, mapStatus]
  · rename_i t' hrun
    rw [hrun, Option.map_some, mapStatus]

/-- The segments that the code maps for a pair of PRP entries. -/
def mapSegments (n : DmaCtrl) (m : Mem) (cmb : Bool) (prp1 prp2 len : Nat) :
    List ScatterGatherEntry :=
  ⟨prp1, n.firstLen prp1 len⟩ ::
    pageSegments n (n.mappedLen cmb (n.firstLen prp1 len) (n.restLen prp1 len))
      (payload (prpCells n m n.maxPrpEnts prp2 (n.restLen prp1 len)))

/-- They are the segments that the entries describe, unless `prp2` is mapped in
the controller memory buffer with another length. -/
theorem mapSegments_eq {n : DmaCtrl} (m : Mem) {cmb : Bool} {prp1 : Nat} (prp2 : Nat) {len : Nat}
    (h : cmb = true → n.restLen prp1 len ≤ n.pageSize →
      n.restLen prp1 len = 0 ∨ n.firstLen prp1 len = n.restLen prp1 len) :
    mapSegments n m cmb prp1 prp2 len = prpSegments n m n.maxPrpEnts prp1 prp2 len := by
  rw [mapSegments, prpSegments]
  by_cases hsecond : cmb = true ∧ n.restLen prp1 len ≤ n.pageSize
  case pos =>
    obtain hzero | heq := h hsecond.1 hsecond.2
    · rw [hzero, prpCells, if_pos rfl, payload_nil, pageSegments_nil, pageSegments_nil]
    · rw [DmaCtrl.mappedLen, if_pos hsecond, heq]
  case neg => rw [DmaCtrl.mappedLen, if_neg hsecond]

theorem DmaCtrl.firstLen_le (n : DmaCtrl) (prp1 len : Nat) : n.firstLen prp1 len ≤ n.pageSize :=
  (Nat.min_le_right _ _).trans (Nat.sub_le _ _)

/-- The code reads a list at `prp2` and computes the number of its entries
without going past 32 bits. -/
def DmaCtrl.CountFits (n : DmaCtrl) (prp1 prp2 len : Nat) : Prop :=
  prp2 = 0 ∨ n.restLen prp1 len ≤ n.pageSize ∨ n.restLen prp1 len + n.pageSize ≤ 2 ^ 32

/-- A mapping ends, its status says whether the entries it needs are there, and
its segments are `mapSegments`, unless the code reads a list with a wrapped count. -/
theorem nvmeMapPrp_outcome {api : IovecApi} {n : DmaCtrl} (hp : n.Paged) (m : Mem)
    {prp1 prp2 len : Nat} (t : Mapping) (hlen : len < 2 ^ 32)
    (hcmb : n.inCmb prp1 → api.Appends) (hfit : n.CountFits prp1 prp2 len) :
    ∃ s t', nvmeMapPrp api n m prp1 prp2 len t = some (s, t') ∧
      (s = nvmeSuccess ↔ PrpsGood n m n.maxPrpEnts prp1 prp2 len) ∧
      (s = nvmeSuccess → t'.segments (decide (n.inCmb prp1)) =
        (mapSegments n m (decide (n.inCmb prp1)) prp1 prp2 len).map
          (n.place (decide (n.inCmb prp1)))) := by
  by_cases hnull : prp1 = 0
  case pos =>
    subst hnull
    refine ⟨_, t, nvmeMapPrp_null api hp m prp2 len t, ?_, ?_⟩
    · simp [PrpsGood]
    · intro h
      exact absurd h invalidField_ne_success
  case neg =>
    have happ : decide (n.inCmb prp1) = true → api.Appends := fun h => hcmb (of_decide_eq_true h)
    obtain ⟨t₁, hadded, hsegs₁⟩ := Mapping.add_segments n happ (t.fresh (decide (n.inCmb prp1)))
      prp1 (n.firstLen prp1 len)
    rw [Mapping.segments_fresh, List.nil_append] at hsegs₁
    have hrest := mapPrpRest_eq hp api m (decide (n.inCmb prp1)) t₁ (n.firstLen_le prp1 len) hfit
    rw [nvmeMapPrp_of_ne api hp m prp2 t hnull hlen, hadded, Option.bind_some, hrest]
    by_cases hprp2null : n.restLen prp1 len ≠ 0 ∧ prp2 = 0
    case pos =>
      rw [if_pos hprp2null, Option.map_some]
      refine ⟨_, _, rfl, ?_, ?_⟩
      · have hbad : ¬ PrpsGood n m n.maxPrpEnts prp1 prp2 len := fun h =>
          h.2.1 hprp2null.1 hprp2null.2
        simp [hbad]
      · intro h
        exact absurd h invalidField_ne_success
    case neg =>
      rw [if_neg hprp2null]
      obtain ⟨ok, t', hrun, hiff, hsegs⟩ := mapCells_outcome hp happ
        (prpCells n m n.maxPrpEnts prp2 (n.restLen prp1 len))
        (n.mappedLen (decide (n.inCmb prp1)) (n.firstLen prp1 len) (n.restLen prp1 len)) t₁
      have hgood : ok = true ↔ PrpsGood n m n.maxPrpEnts prp1 prp2 len := by
        rw [hiff]
        constructor
        case mp => exact fun h => ⟨hnull, fun hne hz => hprp2null ⟨hne, hz⟩, h⟩
        case mpr => exact fun h => h.2.2
      rw [hrun, Option.map_some]
      cases ok with
      | true =>
          refine ⟨nvmeSuccess, t', rfl, ?_, ?_⟩
          · simpa using hgood
          · intro _
            rw [hsegs rfl, hsegs₁, mapSegments, List.map_cons, List.singleton_append]
      | false =>
          refine ⟨_, _, rfl, ?_, ?_⟩
          · simpa using hgood
          · intro h
            exact absurd h invalidField_ne_success

/-- A list that is read with a wrapped count leaves its first entry unread. -/
theorem mapPrpRest_wraps (api : IovecApi) {n : DmaCtrl} (hp : n.Paged) (m : Mem) (cmb : Bool)
    {prp2 len : Nat} (transLen : Nat) (t : Mapping) (hlen : len < 2 ^ 32) (hprp2 : prp2 ≠ 0)
    (hlist : n.pageSize < len) (hwrap : 2 ^ 32 < len + n.pageSize) :
    mapPrpRest api n m cmb prp2 transLen len t = none := by
  have hcnt : u32 (len + n.pageSize - 1) >>> n.pageBits = 0 := by
    rw [Nat.shiftRight_eq_div_pow, ← hp.pageSize_eq, u32]
    exact Nat.div_eq_of_lt (by omega)
  have hread : readPrpList n m prp2 len = [] := by
    simp only [readPrpList, hcnt, Nat.min_zero, List.range_zero, List.map_nil]
  have hzero : len ≠ 0 := by omega
  rw [mapPrpRest, if_neg hzero, if_neg hprp2, if_pos hlist, hread]
  cases len with
  | zero => contradiction
  | succ len =>
      rw [mapPrpLoop, if_neg hzero]
      simp [nextPrpEnt]

theorem nvmeMapPrp_wraps (api : IovecApi) {n : DmaCtrl} (hp : n.Paged) (m : Mem)
    {prp1 prp2 len : Nat} (t : Mapping) (hlen : len < 2 ^ 32) (hprp1 : prp1 ≠ 0)
    (hprp2 : prp2 ≠ 0) (hlist : n.pageSize < n.restLen prp1 len)
    (hwrap : 2 ^ 32 < n.restLen prp1 len + n.pageSize) :
    nvmeMapPrp api n m prp1 prp2 len t = none := by
  have hle : n.restLen prp1 len ≤ len := Nat.sub_le _ _
  have hrest := fun t₁ => mapPrpRest_wraps api hp m (decide (n.inCmb prp1)) (n.firstLen prp1 len)
    t₁ (hle.trans_lt hlen) hprp2 hlist hwrap
  rw [nvmeMapPrp_of_ne api hp m prp2 t hprp1 hlen]
  cases (t.fresh (decide (n.inCmb prp1))).add api n (decide (n.inCmb prp1)) prp1
    (n.firstLen prp1 len) with
  | none => rfl
  | some t₁ => rw [Option.bind_some, hrest, Option.map_none]

/-- A page that starts at the null pointer leaves fewer bytes to count. -/
theorem DmaCtrl.Paged.countFits_null {n : DmaCtrl} (hp : n.Paged) (prp2 : Nat) {len : Nat}
    (hlen : len < 2 ^ 32) : n.CountFits 0 prp2 len := by
  have hsize := hp.le_pageSize
  simp only [CountFits, restLen, firstLen, Nat.zero_mod]
  omega

theorem countFits_of_run {api : IovecApi} {n : DmaCtrl} (hp : n.Paged) {m : Mem}
    {prp1 prp2 len : Nat} {t : Mapping} {r : Status × Mapping} (hlen : len < 2 ^ 32)
    (h : nvmeMapPrp api n m prp1 prp2 len t = some r) : n.CountFits prp1 prp2 len := by
  by_cases hnull : prp1 = 0
  case pos => exact hnull ▸ hp.countFits_null prp2 hlen
  case neg =>
    by_contra hwrap
    simp only [DmaCtrl.CountFits, not_or, Nat.not_le] at hwrap
    obtain ⟨hprp2, hlist, hcount⟩ := hwrap
    rw [nvmeMapPrp_wraps api hp m t hlen hnull hprp2 hlist hcount] at h
    contradiction

end Femu.Nvme
