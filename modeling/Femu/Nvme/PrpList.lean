import Femu.Nvme.Prp

/-!
# Femu.Nvme.PrpList

The PRP lists that `nvme_map_prp` walks right (`dma.c`). A list that starts a
page is walked entry by entry over any number of pages, unless the number of its
entries is computed past 32 bits (`maps_prps_iff`). A list that starts inside a
page is walked right only if it ends in that page (`reads_offset_list_iff`): the
code reads as many entries as it needs or as a whole page holds.
-/

namespace Femu.Nvme

open Lib

/-! ## lists that start a page -/

/-- The scatter list of a transfer. -/
structure PrpMapped (n : DmaCtrl) (m : Mem) (prp1 prp2 len : Nat) (q : QEMUSGList) : Prop where
  sg_eq : q.sg = prpSegments n m n.maxPrpEnts prp1 prp2 len
  /-- One segment for `prp1`, and one for each page of data. -/
  length_eq : q.sg.length = 1 + n.pages (n.restLen prp1 len)
  /-- The segments after the first are full pages, but for the last one. -/
  full : ∀ e ∈ q.sg.tail.dropLast, e.len = n.pageSize
  covers : q.Covers len

/-- A run of `nvme_map_prp` ends, succeeds if and only if every entry that the
transfer needs is there, and builds the list that the entries describe. The last
entry of a list page is a chain pointer if and only if more than one page of data
remains. -/
def MapsPrps (n : DmaCtrl) (m : Mem) (prp1 prp2 len : Nat) (r : Option (Status × Mapping)) :
    Prop :=
  (∃ s t, r = some (s, t) ∧
    (s = nvmeSuccess ↔ PrpsGood n m n.maxPrpEnts prp1 prp2 len) ∧
    (s = nvmeSuccess → PrpMapped n m prp1 prp2 len t.qsg)) ∧
  ∀ list k, (∃ ptr cs, listCells n m n.maxPrpEnts list k =
      items (prpSlot n m list) (n.maxPrpEnts - 1) ++ .link ptr :: cs) ↔
    1 < k - (n.maxPrpEnts - 1)

theorem prpMapped_of_outcome {api : IovecApi} {n : DmaCtrl} (hp : n.Paged) {m : Mem}
    {prp1 prp2 len : Nat} {t t' : Mapping} (hlen : len < 2 ^ 32) (hcmb : ¬ n.inCmb prp1)
    (hrun : nvmeMapPrp api n m prp1 prp2 len t = some (nvmeSuccess, t'))
    (hsegs : t'.segments (decide (n.inCmb prp1)) =
      (mapSegments n m (decide (n.inCmb prp1)) prp1 prp2 len).map
        (n.place (decide (n.inCmb prp1)))) :
    PrpMapped n m prp1 prp2 len t'.qsg := by
  have hsg : t'.qsg.sg = prpSegments n m n.maxPrpEnts prp1 prp2 len := by
    rwa [decide_eq_false hcmb, Mapping.segments, if_neg Bool.false_ne_true,
      DmaCtrl.map_place_false, mapSegments_eq m prp2 (fun h => absurd h Bool.false_ne_true)]
      at hsegs
  have hcap := hp.le_maxPrpEnts
  have hlength := length_payload_prpCells hp m (show 0 < n.maxPrpEnts by omega) prp2
    (n.restLen prp1 len)
  have hcovers := nvmeMapPrp_covers_host hcmb hrun
  rw [u32_eq hlen] at hcovers
  refine ⟨hsg, ?_, ?_, hcovers⟩
  · rw [hsg, prpSegments, List.length_cons, length_pageSegments, hlength, Nat.add_comm]
  · rw [hsg, prpSegments, List.tail_cons]
    exact pageSegments_full hp hlength

/-- A transfer whose list starts a page is mapped right if and only if the number
of entries of the list is computed without going past 32 bits. -/
theorem maps_prps_iff (api : IovecApi) {n : DmaCtrl} (hp : n.Paged) (m : Mem)
    {prp1 prp2 len : Nat} (t : Mapping) (hcmb : ¬ n.inCmb prp1) (hlen : len < 2 ^ 32) :
    MapsPrps n m prp1 prp2 len (nvmeMapPrp api n m prp1 prp2 len t) ↔
      n.CountFits prp1 prp2 len := by
  have hcap := hp.le_maxPrpEnts
  constructor
  case mp =>
    intro h
    obtain ⟨⟨s, t', hrun, -⟩, -⟩ := h
    exact countFits_of_run hp hlen hrun
  case mpr =>
    intro hfit
    obtain ⟨s, t', hrun, hiff, hsegs⟩ := nvmeMapPrp_outcome hp m t hlen
      (fun h => absurd h hcmb) hfit
    refine ⟨⟨s, t', hrun, hiff, fun hs => ?_⟩, fun list k => ?_⟩
    · rw [hs] at hrun
      exact prpMapped_of_outcome hp hlen hcmb hrun (hsegs hs)
    · exact chained_link_iff (by omega) _ k (by omega)

/-- A controller with pages of 4096 bytes and no controller memory buffer. -/
def hostCtrl : DmaCtrl where
  pageSize := 4096
  pageBits := 12
  maxPrpEnts := 512
  cmbsz := 0
  ctrlMemAddr := 0
  ctrlMemSize := 0

theorem hostCtrl_paged : hostCtrl.Paged := ⟨by decide, rfl, rfl⟩

/-- Every entry of every list points to the page at `0x100000`. -/
def samePage : Mem := ⟨fun a => if a % 8 = 2 then 0x10 else 0, fun _ => 0⟩

/-- All but four bytes of four gigabytes, from the inside of a page: no entry of
the list is read. -/
theorem wrapped_count :
    ¬ MapsPrps hostCtrl samePage 0x1008 0x2000 0xfffffffc
      (nvmeMapPrp .stub hostCtrl samePage 0x1008 0x2000 0xfffffffc ⟨pciDmaSglistInit, []⟩) := by
  rw [nvmeMapPrp_wraps .stub hostCtrl_paged samePage _ (by decide) (by decide) (by decide)
    (by decide +kernel) (by decide +kernel)]
  intro h
  obtain ⟨⟨s, t, hrun, -⟩, -⟩ := h
  contradiction

/-- Five pages through a list at `0x2000`. -/
theorem maps_prps_five :
    MapsPrps hostCtrl samePage 0x1008 0x2000 0x5000
      (nvmeMapPrp .stub hostCtrl samePage 0x1008 0x2000 0x5000 ⟨pciDmaSglistInit, []⟩) :=
  (maps_prps_iff .stub hostCtrl_paged samePage _ (by decide) (by decide)).mpr (by
    rw [DmaCtrl.CountFits]
    decide +kernel)

/-! ## transfers of a buffer -/

/-- A mapping ends when the functions of the controller memory buffer are stubs: it is
not in that memory, and no list is read with a wrapped count. -/
def DmaCtrl.MapEnds (n : DmaCtrl) (prp1 prp2 len : Nat) : Prop :=
  prp1 = 0 ∨ ¬ n.inCmb prp1 ∧ n.CountFits prp1 prp2 len

theorem mapEnds_of_run {n : DmaCtrl} (hp : n.Paged) {m : Mem} {prp1 prp2 len : Nat}
    {t : Mapping} {r : Status × Mapping} (hlen : len < 2 ^ 32)
    (h : nvmeMapPrp .stub n m prp1 prp2 len t = some r) : n.MapEnds prp1 prp2 len := by
  by_cases hnull : prp1 = 0
  case pos => exact Or.inl hnull
  case neg =>
    right
    refine ⟨fun hcmb => ?_, countFits_of_run hp hlen h⟩
    rw [nvmeMapPrp_of_ne .stub hp m prp2 t hnull hlen, decide_eq_true hcmb, Mapping.add,
      if_pos rfl] at h
    simp [IovecApi.stub] at h

/-- A mapping that ends builds the list that the entries describe, or refuses them. -/
theorem nvmeMapPrp_stub {n : DmaCtrl} (hp : n.Paged) (m : Mem) {prp1 prp2 len : Nat}
    (t : Mapping) (hlen : len < 2 ^ 32) (hends : n.MapEnds prp1 prp2 len) :
    ∃ s t', nvmeMapPrp .stub n m prp1 prp2 len t = some (s, t') ∧
      (s = nvmeSuccess ↔ PrpsGood n m n.maxPrpEnts prp1 prp2 len) ∧
      (s = nvmeSuccess → PrpMapped n m prp1 prp2 len t'.qsg) := by
  obtain rfl | ⟨hcmb, hfit⟩ := hends
  case inl =>
    refine ⟨_, t, nvmeMapPrp_null .stub hp m prp2 len t, ?_, ?_⟩
    · simp [PrpsGood]
    · intro h
      exact absurd h invalidField_ne_success
  case inr =>
    obtain ⟨s, t', hrun, hgood, hsegs⟩ :=
      nvmeMapPrp_outcome hp m t hlen (fun h => absurd h hcmb) hfit
    refine ⟨s, t', hrun, hgood, ?_⟩
    rintro rfl
    exact prpMapped_of_outcome hp hlen hcmb hrun (hsegs rfl)

/-- There is at least the segment of `prp1`. -/
theorem PrpMapped.nsg_pos {n : DmaCtrl} {m : Mem} {prp1 prp2 len : Nat} {q : QEMUSGList}
    (h : PrpMapped n m prp1 prp2 len q) : 0 < q.nsg := by
  rw [h.covers.nsg_eq, h.length_eq]
  omega

theorem length_read (q : QEMUSGList) (host : Bytes) : (q.read host).length = q.total := by
  simp [QEMUSGList.read, QEMUSGList.total, readBytes, List.length_flatMap]

/-- `dma_read_prp` fills the segments with the buffer. -/
theorem dmaReadPrp_of_good {n : DmaCtrl} (hp : n.Paged) {m : Mem} (buf : List UInt8)
    {prp1 prp2 : Nat} (hlen : buf.length < 2 ^ 32) (hends : n.MapEnds prp1 prp2 buf.length)
    (hgood : PrpsGood n m n.maxPrpEnts prp1 prp2 buf.length) :
    dmaReadPrp n m buf prp1 prp2 = some (nvmeSuccess,
      ⟨writeSegments (prpSegments n m n.maxPrpEnts prp1 prp2 buf.length) buf m.host,
        m.cmbuf⟩) := by
  obtain ⟨s, t, hrun, hs, hmapped⟩ := nvmeMapPrp_stub hp m ⟨pciDmaSglistInit, []⟩ hlen hends
  obtain rfl := hs.mpr hgood
  simp [dmaReadPrp, hrun, (hmapped rfl).nsg_pos, (hmapped rfl).sg_eq]

theorem dmaReadPrp_of_bad {n : DmaCtrl} (hp : n.Paged) {m : Mem} (buf : List UInt8)
    {prp1 prp2 : Nat} (hlen : buf.length < 2 ^ 32) (hends : n.MapEnds prp1 prp2 buf.length)
    (hbad : ¬ PrpsGood n m n.maxPrpEnts prp1 prp2 buf.length) :
    dmaReadPrp n m buf prp1 prp2 = some (nvmeInvalidField ||| nvmeDnr, m) := by
  obtain ⟨s, t, hrun, hs, -⟩ := nvmeMapPrp_stub hp m ⟨pciDmaSglistInit, []⟩ hlen hends
  simp [dmaReadPrp, hrun, mt hs.mp hbad]

theorem mapEnds_of_dmaReadPrp {n : DmaCtrl} (hp : n.Paged) {m : Mem} {buf : List UInt8}
    {prp1 prp2 : Nat} {r : Status × Mem} (hlen : buf.length < 2 ^ 32)
    (h : dmaReadPrp n m buf prp1 prp2 = some r) : n.MapEnds prp1 prp2 buf.length := by
  unfold dmaReadPrp at h
  split at h
  case h_1 => contradiction
  case h_2 hrun => exact mapEnds_of_run hp hlen hrun

/-- `dma_write_prp` fills the buffer from the segments. -/
theorem dmaWritePrp_of_good {n : DmaCtrl} (hp : n.Paged) {m : Mem} {len prp1 prp2 : Nat}
    (hlen : len < 2 ^ 32) (hends : n.MapEnds prp1 prp2 len)
    (hgood : PrpsGood n m n.maxPrpEnts prp1 prp2 len) :
    ∃ bs, bs.length = len ∧
      bs = (prpSegments n m n.maxPrpEnts prp1 prp2 len).flatMap
        (fun e => readBytes m.host e.base e.len) ∧
      dmaWritePrp n m len prp1 prp2 = some (nvmeSuccess, bs) := by
  obtain ⟨s, t, hrun, hs, hmapped⟩ := nvmeMapPrp_stub hp m ⟨pciDmaSglistInit, []⟩ hlen hends
  obtain rfl := hs.mpr hgood
  refine ⟨t.qsg.read m.host, ?_, ?_, ?_⟩
  · rw [length_read, (hmapped rfl).covers.total_eq]
  · rw [QEMUSGList.read, (hmapped rfl).sg_eq]
  · simp [dmaWritePrp, hrun, (hmapped rfl).nsg_pos]

theorem dmaWritePrp_of_bad {n : DmaCtrl} (hp : n.Paged) {m : Mem} {len prp1 prp2 : Nat}
    (hlen : len < 2 ^ 32) (hends : n.MapEnds prp1 prp2 len)
    (hbad : ¬ PrpsGood n m n.maxPrpEnts prp1 prp2 len) :
    dmaWritePrp n m len prp1 prp2 = some (nvmeInvalidField ||| nvmeDnr, []) := by
  obtain ⟨s, t, hrun, hs, -⟩ := nvmeMapPrp_stub hp m ⟨pciDmaSglistInit, []⟩ hlen hends
  simp [dmaWritePrp, hrun, mt hs.mp hbad]

theorem mapEnds_of_dmaWritePrp {n : DmaCtrl} (hp : n.Paged) {m : Mem} {len prp1 prp2 : Nat}
    {r : Status × List UInt8} (hlen : len < 2 ^ 32)
    (h : dmaWritePrp n m len prp1 prp2 = some r) : n.MapEnds prp1 prp2 len := by
  unfold dmaWritePrp at h
  split at h
  case h_1 => contradiction
  case h_2 hrun => exact mapEnds_of_run hp hlen hrun

/-! ## lists that start inside a page -/

/-- The entries between the address of a list and the end of its page. -/
def DmaCtrl.roomAt (n : DmaCtrl) (list : Nat) : Nat := (n.pageSize - list % n.pageSize) / 8

/-- What a run over the list at `prp2` owes: it reads no entry past the end of the
page, it takes the last entry of the page as the chain pointer when more are
needed, and it maps the pages that the same entries give from the start of a
page. -/
structure ReadsOffsetList (api : IovecApi) (n : DmaCtrl) (m : Mem) (prp1 prp2 len : Nat)
    (t : Mapping) : Prop where
  inside : prp1 ≠ 0 →
    prp2 % n.pageSize + 8 * (readPrpList n m prp2 (n.restLen prp1 len)).length ≤ n.pageSize
  maps : ∃ s t', nvmeMapPrp api n m prp1 prp2 len t = some (s, t') ∧
    (s = nvmeSuccess ↔ PrpsGood n m (n.roomAt prp2) prp1 prp2 len) ∧
    (s = nvmeSuccess → t'.segments (decide (n.inCmb prp1)) =
      (prpSegments n m (n.roomAt prp2) prp1 prp2 len).map (n.place (decide (n.inCmb prp1))))
  aligned : ∀ m' list, list ≠ 0 → list % n.pageSize = 0 →
    payload (prpCells n m' n.maxPrpEnts list (n.restLen prp1 len)) =
      payload (prpCells n m (n.roomAt prp2) prp2 (n.restLen prp1 len)) →
    PrpsGood n m' n.maxPrpEnts prp1 list len →
    PrpsGood n m (n.roomAt prp2) prp1 prp2 len →
    ∃ t₁ t₂, nvmeMapPrp api n m prp1 prp2 len t = some (nvmeSuccess, t₁) ∧
      nvmeMapPrp api n m' prp1 list len t = some (nvmeSuccess, t₂) ∧
      t₁.segments (decide (n.inCmb prp1)) = t₂.segments (decide (n.inCmb prp1))

/-- The list ends in the page where it starts, and its length is computed without
going past 32 bits. -/
def DmaCtrl.ListFits (n : DmaCtrl) (prp1 prp2 len : Nat) : Prop :=
  n.pages (n.restLen prp1 len) ≤ n.roomAt prp2 ∧ n.restLen prp1 len + n.pageSize ≤ 2 ^ 32

theorem listCells_of_le {n : DmaCtrl} (hp : n.Paged) (m : Mem) (list : Nat) {room k : Nat}
    (h : k ≤ room) : listCells n m room list k = items (prpSlot n m list) k := by
  have hcap := hp.le_maxPrpEnts
  exact chained_of_le (by omega) _ h

/-- A list that ends in its page has the same entries whatever the room after it. -/
theorem prpCells_room {n : DmaCtrl} (hp : n.Paged) (m : Mem) {room room' : Nat} (prp2 : Nat)
    {len : Nat} (h : n.pages len ≤ room) (h' : n.pages len ≤ room') :
    prpCells n m room prp2 len = prpCells n m room' prp2 len := by
  rw [prpCells, prpCells, listCells_of_le hp m prp2 h, listCells_of_le hp m prp2 h']

theorem DmaCtrl.Paged.roomAt_le {n : DmaCtrl} (hp : n.Paged) (list : Nat) :
    n.roomAt list ≤ n.maxPrpEnts := by
  rw [roomAt, hp.maxPrpEnts_eq]
  exact Nat.div_le_div_right (Nat.sub_le _ _)

theorem prpsGood_room {n : DmaCtrl} (hp : n.Paged) (m : Mem) {room room' : Nat}
    (prp1 prp2 : Nat) {len : Nat} (h : n.pages (n.restLen prp1 len) ≤ room)
    (h' : n.pages (n.restLen prp1 len) ≤ room') :
    PrpsGood n m room prp1 prp2 len ↔ PrpsGood n m room' prp1 prp2 len := by
  rw [PrpsGood, PrpsGood, prpCells_room hp m prp2 h h']

theorem prpSegments_congr {n : DmaCtrl} {m m' : Mem} {room room' prp1 prp2 prp2' len : Nat}
    (h : payload (prpCells n m room prp2 (n.restLen prp1 len)) =
      payload (prpCells n m' room' prp2' (n.restLen prp1 len))) :
    prpSegments n m room prp1 prp2 len = prpSegments n m' room' prp1 prp2' len := by
  rw [prpSegments, prpSegments, h]

/-- The code reads up to the end of the page only if the list ends there. -/
theorem listFits_of_inside {n : DmaCtrl} (hp : n.Paged) {m : Mem} {prp1 prp2 len : Nat}
    (hoff : prp2 % n.pageSize ≠ 0) (hcount : n.restLen prp1 len + n.pageSize ≤ 2 ^ 32)
    (h : prp2 % n.pageSize + 8 * (readPrpList n m prp2 (n.restLen prp1 len)).length ≤
      n.pageSize) :
    n.ListFits prp1 prp2 len := by
  have hmul := hp.mul_maxPrpEnts
  rw [readPrpList_eq hp m prp2 hcount, List.length_map, List.length_range] at h
  refine ⟨?_, hcount⟩
  rw [DmaCtrl.roomAt, Nat.le_div_iff_mul_le (by omega)]
  omega

/-- The mapping of a list that ends in its page. -/
theorem nvmeMapPrp_of_listFits {api : IovecApi} {n : DmaCtrl} (hp : n.Paged) (m : Mem)
    {prp1 prp2 len : Nat} (t : Mapping) (hcmb : n.inCmb prp1 → api.Appends) (hlen : len < 2 ^ 32)
    (hlist : n.pageSize < n.restLen prp1 len)
    (hcount : n.restLen prp1 len + n.pageSize ≤ 2 ^ 32) {room : Nat}
    (hroom : n.pages (n.restLen prp1 len) ≤ room)
    (hcap : n.pages (n.restLen prp1 len) ≤ n.maxPrpEnts) :
    ∃ s t', nvmeMapPrp api n m prp1 prp2 len t = some (s, t') ∧
      (s = nvmeSuccess ↔ PrpsGood n m room prp1 prp2 len) ∧
      (s = nvmeSuccess → t'.segments (decide (n.inCmb prp1)) =
        (prpSegments n m room prp1 prp2 len).map (n.place (decide (n.inCmb prp1)))) := by
  have hcells := prpCells_room hp m prp2 hcap hroom
  obtain ⟨s, t', hrun, hiff, hsegs⟩ := nvmeMapPrp_outcome hp m t hlen hcmb
    (Or.inr (Or.inr hcount))
  refine ⟨s, t', hrun, ?_, fun hs => ?_⟩
  · rw [hiff, prpsGood_room hp m prp1 prp2 hcap hroom]
  · rw [hsegs hs, mapSegments_eq m prp2 (fun _ hle => absurd hle (by omega)),
      prpSegments_congr (congrArg payload hcells)]

/-- A list that starts inside a page is read right if and only if it ends in that
page, or the transfer has no first entry. -/
theorem reads_offset_list_iff {api : IovecApi} {n : DmaCtrl} (hp : n.Paged) (m : Mem)
    {prp1 prp2 len : Nat} (t : Mapping) (hcmb : n.inCmb prp1 → api.Appends) (hlen : len < 2 ^ 32)
    (hlist : n.pageSize < n.restLen prp1 len) (hoff : prp2 % n.pageSize ≠ 0) :
    ReadsOffsetList api n m prp1 prp2 len t ↔ prp1 = 0 ∨ n.ListFits prp1 prp2 len := by
  have hprp2ne : prp2 ≠ 0 := fun h => hoff (by rw [h, Nat.zero_mod])
  constructor
  case mp =>
    intro h
    by_cases hnull : prp1 = 0
    case pos => exact Or.inl hnull
    case neg =>
      right
      obtain ⟨s, t', hrun, -⟩ := h.maps
      have hcount : n.restLen prp1 len + n.pageSize ≤ 2 ^ 32 := by
        obtain hzero | hle | hcount := countFits_of_run hp hlen hrun
        · exact absurd hzero hprp2ne
        · omega
        · exact hcount
      exact listFits_of_inside hp hoff hcount (h.inside hnull)
  case mpr =>
    intro h
    obtain rfl | hfits := h
    · have hbad : ∀ room, ¬ PrpsGood n m room 0 prp2 len := fun room h => h.1 rfl
      refine ⟨fun h => absurd rfl h, ⟨_, t, nvmeMapPrp_null api hp m prp2 len t, ?_, ?_⟩, ?_⟩
      · simp [hbad]
      · intro h
        exact absurd h invalidField_ne_success
      · intro m' list _ _ _ _ hgood
        exact absurd hgood (hbad _)
    · obtain ⟨hroom, hcount⟩ := hfits
      have hcap := hroom.trans (hp.roomAt_le prp2)
      refine ⟨fun _ => ?_, ?_, ?_⟩
      · rw [DmaCtrl.roomAt, Nat.le_div_iff_mul_le (by omega)] at hroom
        rw [readPrpList_eq hp m prp2 hcount, List.length_map, List.length_range]
        have hmod := Nat.mod_lt prp2 (show 0 < n.pageSize by have := hp.le_pageSize; omega)
        omega
      · exact nvmeMapPrp_of_listFits hp m t hcmb hlen hlist hcount hroom hcap
      · intro m' list _ _ hsame hgood' hgood
        obtain ⟨s₁, t₁, hrun₁, hiff₁, hsegs₁⟩ :=
          nvmeMapPrp_of_listFits hp m t hcmb hlen hlist hcount hroom hcap
        obtain ⟨s₂, t₂, hrun₂, hiff₂, hsegs₂⟩ :=
          nvmeMapPrp_of_listFits hp m' t hcmb hlen hlist hcount hcap hcap
        obtain rfl := hiff₁.mpr hgood
        obtain rfl := hiff₂.mpr hgood'
        refine ⟨t₁, t₂, hrun₁, hrun₂, ?_⟩
        rw [hsegs₁ rfl, hsegs₂ rfl, prpSegments_congr hsame]

/-- A list in the last slot of the page at `0x2000`: the chain pointer to the page
at `0x3000`, whose first two entries are the pages of the data. -/
def chainedPages : Mem where
  host := fun a =>
    if a = 0x2ff9 then 0x30 else if a = 0x3002 then 0x01 else if a = 0x3009 then 0x10
    else if a = 0x300a then 0x01 else 0
  cmbuf := fun _ => 0

/-- Three pages with the list in the last slot of a page: the chain pointer is
mapped as data, and the second page is not. -/
theorem chain_pointer_mapped :
    ¬ ReadsOffsetList .stub hostCtrl chainedPages 0x1000 0x2ff8 0x3000 ⟨pciDmaSglistInit, []⟩ := by
  intro h
  have hin := h.inside (by decide)
  revert hin
  decide +kernel

/-- Three pages with the list in the second half of a page. -/
theorem reads_offset_list_three :
    ReadsOffsetList .stub hostCtrl samePage 0x1000 0x2800 0x3000 ⟨pciDmaSglistInit, []⟩ :=
  (reads_offset_list_iff hostCtrl_paged samePage _ (fun h => absurd h (by decide))
    (by decide) (by decide +kernel) (by decide)).mpr
    (Or.inr (by
      rw [DmaCtrl.ListFits]
      decide +kernel))

end Femu.Nvme
