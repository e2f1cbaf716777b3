import Femu.Nvme.Prp

/-!
# Femu.Nvme.Cmb

The two branches of `nvme_map_prp` (`dma.c`): segments of host memory go to the
scatter list, segments of the controller memory buffer to an I/O vector. They add
the same segments unless `prp2` is mapped alone, which the second branch does
with the length of the first segment; and the second branch does not check that a
segment lies in the buffer (`cmb_agrees_iff`).
-/

namespace Femu.Nvme

open Lib

/-- A segment of the controller memory buffer at its address in host memory. -/
def DmaCtrl.atHost (n : DmaCtrl) (e : ScatterGatherEntry) : ScatterGatherEntry :=
  ⟨u64 (e.base + n.ctrlMemAddr), e.len⟩

/-- What the branch for host memory adds for a pair of PRP entries. -/
def hostMapping (n : DmaCtrl) (m : Mem) (prp1 prp2 len : Nat) : Option (Bool × Mapping) :=
  (Mapping.add .stub n false ⟨pciDmaSglistInit, []⟩ prp1 (n.firstLen prp1 len)).bind
    (mapPrpRest .stub n m false prp2 (n.firstLen prp1 len) (n.restLen prp1 len))

/-- When the mapping of a pair of PRP entries in the controller memory buffer
succeeds, its segments are those of the branch for host memory, they cover the
length, and they lie in the buffer. -/
def CmbAgrees (api : IovecApi) (n : DmaCtrl) (m : Mem) (prp1 prp2 len : Nat) (t : Mapping) :
    Prop :=
  ∀ t', nvmeMapPrp api n m prp1 prp2 len t = some (nvmeSuccess, t') →
    (∃ h, hostMapping n m prp1 prp2 len = some (true, h) ∧ t'.iov.map n.atHost = h.qsg.sg) ∧
    (t'.iov.map (·.len)).sum = len ∧
    ∀ e ∈ t'.iov, e.base + e.len ≤ n.ctrlMemSize

/-- The entries are refused, or `prp2` alone takes as many bytes as the first
entry if it takes any, and what the entries describe lies in the controller memory
buffer. -/
def CmbFits (n : DmaCtrl) (m : Mem) (prp1 prp2 len : Nat) : Prop :=
  PrpsGood n m n.maxPrpEnts prp1 prp2 len → n.CountFits prp1 prp2 len →
    (n.restLen prp1 len ≤ n.pageSize →
      n.restLen prp1 len = 0 ∨ n.firstLen prp1 len = n.restLen prp1 len) ∧
    ∀ e ∈ prpSegments n m n.maxPrpEnts prp1 prp2 len,
      u64 (e.base + 2 ^ 64 - n.ctrlMemAddr) + e.len ≤ n.ctrlMemSize

/-! ## entries are 64-bit words -/

theorem prpSlot_lt (n : DmaCtrl) (m : Mem) (list i : Nat) : prpSlot n m list i < 2 ^ 64 := by
  have hbytes : ∀ (b : Bytes) (addr : Nat), leNat (readBytes b addr 8) < 2 ^ 64 := by
    intro b addr
    have := leNat_lt (readBytes b addr 8)
    rwa [readBytes, List.length_map, List.length_range] at this
  rw [prpSlot]
  split
  · exact hbytes _ _
  · exact hbytes _ _

theorem prpCells_lt (n : DmaCtrl) (m : Mem) (room : Nat) {prp2 : Nat} (len : Nat)
    (h : prp2 < 2 ^ 64) : ∀ c ∈ prpCells n m room prp2 len, c.val < 2 ^ 64 := by
  rw [prpCells]
  split
  · simp
  · split
    · intro c hc
      rwa [List.mem_singleton.mp hc]
    · exact forall_mem_chained (P := (· < 2 ^ 64)) (prpSlot_lt n m) (prpSlot_lt n m prp2) _ _

theorem payload_lt {cs : List (Cell Nat)} (h : ∀ c ∈ cs, c.val < 2 ^ 64) :
    ∀ ptr ∈ payload cs, ptr < 2 ^ 64 := by
  intro ptr hptr
  obtain ⟨c, hc, hitem⟩ := List.mem_filterMap.mp hptr
  cases c with
  | item a =>
      rw [Cell.item?_item, Option.some.injEq] at hitem
      exact hitem ▸ h _ hc
  | link a => contradiction

theorem pageSegments_base_lt {n : DmaCtrl} {ptrs : List Nat} (h : ∀ ptr ∈ ptrs, ptr < 2 ^ 64)
    (len : Nat) : ∀ e ∈ pageSegments n len ptrs, e.base < 2 ^ 64 := by
  intro e he
  obtain ⟨i, hi, rfl⟩ := List.mem_mapIdx.mp he
  exact h _ (List.getElem_mem hi)

theorem mapSegments_base_lt (n : DmaCtrl) (m : Mem) (cmb : Bool) {prp1 prp2 : Nat} (len : Nat)
    (hprp1 : prp1 < 2 ^ 64) (hprp2 : prp2 < 2 ^ 64) :
    ∀ e ∈ mapSegments n m cmb prp1 prp2 len, e.base < 2 ^ 64 := by
  intro e he
  rw [mapSegments, List.mem_cons] at he
  obtain rfl | he := he
  · exact hprp1
  · exact pageSegments_base_lt (payload_lt (prpCells_lt n m _ _ hprp2)) _ e he

/-! ## the two branches -/

theorem DmaCtrl.place_true (n : DmaCtrl) (e : ScatterGatherEntry) :
    n.place true e = ⟨u64 (e.base + 2 ^ 64 - n.ctrlMemAddr), e.len⟩ := if_pos rfl

theorem DmaCtrl.place_base (n : DmaCtrl) (e : ScatterGatherEntry) :
    (n.place true e).base = u64 (e.base + 2 ^ 64 - n.ctrlMemAddr) := by rw [place_true]

theorem DmaCtrl.place_len (n : DmaCtrl) (e : ScatterGatherEntry) :
    (n.place true e).len = e.len := by rw [place_true]

theorem DmaCtrl.atHost_place {n : DmaCtrl} (haddr : n.ctrlMemAddr ≤ 2 ^ 64)
    {e : ScatterGatherEntry} (he : e.base < 2 ^ 64) : n.atHost (n.place true e) = e := by
  have hback : u64 (u64 (e.base + 2 ^ 64 - n.ctrlMemAddr) + n.ctrlMemAddr) = e.base := by
    simp only [u64]
    omega
  rw [place_true, atHost, hback]

/-- The branch for host memory adds the segments that the entries describe. -/
theorem hostMapping_eq {n : DmaCtrl} (hp : n.Paged) {m : Mem} {prp1 prp2 len : Nat}
    (hgood : PrpsGood n m n.maxPrpEnts prp1 prp2 len) (hfit : n.CountFits prp1 prp2 len) :
    ∃ h, hostMapping n m prp1 prp2 len = some (true, h) ∧
      h.qsg.sg = prpSegments n m n.maxPrpEnts prp1 prp2 len := by
  have hnull : ¬ (n.restLen prp1 len ≠ 0 ∧ prp2 = 0) := fun h => hgood.2.1 h.1 h.2
  have hmapped : n.mappedLen false (n.firstLen prp1 len) (n.restLen prp1 len) =
      n.restLen prp1 len := if_neg fun h => Bool.false_ne_true h.1
  rw [hostMapping, Mapping.add_host, Option.bind_some,
    mapPrpRest_eq hp .stub m false _ (n.firstLen_le prp1 len) hfit, if_neg hnull, hmapped]
  obtain ⟨ok, t', hrun, hiff, hsegs⟩ := @mapCells_outcome .stub n hp false
    (fun h => absurd h Bool.false_ne_true) (prpCells n m n.maxPrpEnts prp2 (n.restLen prp1 len))
    (n.restLen prp1 len) ⟨qemuSglistAdd pciDmaSglistInit prp1 (n.firstLen prp1 len), []⟩
  obtain rfl := hiff.mpr hgood.2.2
  refine ⟨t', hrun, ?_⟩
  have hsg := hsegs rfl
  rwa [DmaCtrl.map_place_false] at hsg

/-- The branch for the controller memory buffer. -/
theorem cmb_run {api : IovecApi} (happ : api.Appends) {n : DmaCtrl} (hp : n.Paged) (m : Mem)
    {prp1 prp2 len : Nat} (t : Mapping) (hin : n.inCmb prp1) (hlen : len < 2 ^ 32)
    (hfit : n.CountFits prp1 prp2 len) :
    ∃ s t', nvmeMapPrp api n m prp1 prp2 len t = some (s, t') ∧
      (s = nvmeSuccess ↔ PrpsGood n m n.maxPrpEnts prp1 prp2 len) ∧
      (s = nvmeSuccess → t'.iov = (mapSegments n m true prp1 prp2 len).map (n.place true)) := by
  have hrun := nvmeMapPrp_outcome hp m t hlen (fun _ => happ) hfit
  rwa [decide_eq_true hin] at hrun

theorem sum_pageSegments {n : DmaCtrl} (hp : n.Paged) {len : Nat} {ptrs : List Nat}
    (h : ptrs.length = n.pages len) : ((pageSegments n len ptrs).map (·.len)).sum = len := by
  induction ptrs generalizing len with
  | nil =>
      have hnone : ¬ 0 < n.pages len := by simp [← h]
      rw [hp.lt_pages, Nat.zero_mul] at hnone
      rw [pageSegments_nil, List.map_nil, List.sum_nil]
      omega
  | cons ptr ptrs ih =>
      have hpos : 0 < len := by
        have hsome : 0 < n.pages len := by simp [← h]
        rwa [hp.lt_pages, Nat.zero_mul] at hsome
      rw [hp.pages_of_pos hpos, List.length_cons, Nat.add_right_cancel_iff] at h
      rw [pageSegments_cons, List.map_cons, List.sum_cons, ih h]
      exact Nat.add_sub_of_le (Nat.min_le_left _ _)

theorem sum_prpSegments {n : DmaCtrl} (hp : n.Paged) (m : Mem) (prp1 prp2 len : Nat) :
    ((prpSegments n m n.maxPrpEnts prp1 prp2 len).map (·.len)).sum = len := by
  have hcap := hp.le_maxPrpEnts
  have hfirst : n.firstLen prp1 len ≤ len := Nat.min_le_left _ _
  have hpages := length_payload_prpCells hp m (show 0 < n.maxPrpEnts by omega) prp2
    (n.restLen prp1 len)
  rw [prpSegments, List.map_cons, List.sum_cons, sum_pageSegments hp hpages, DmaCtrl.restLen]
  exact Nat.add_sub_of_le hfirst

/-- The code adds the segments that the entries describe only if `prp2` alone
takes as many bytes as the first entry. -/
theorem second_of_mapSegments_eq {n : DmaCtrl} {m : Mem} {prp1 prp2 len : Nat}
    (h : mapSegments n m true prp1 prp2 len = prpSegments n m n.maxPrpEnts prp1 prp2 len)
    (hle : n.restLen prp1 len ≤ n.pageSize) :
    n.restLen prp1 len = 0 ∨ n.firstLen prp1 len = n.restLen prp1 len := by
  by_cases hzero : n.restLen prp1 len = 0
  case pos => exact Or.inl hzero
  case neg =>
    right
    have hfirst := n.firstLen_le prp1 len
    have hcells : prpCells n m n.maxPrpEnts prp2 (n.restLen prp1 len) = [.item prp2] := by
      rw [prpCells, if_neg hzero, if_pos hle]
    have hmapped : n.mappedLen true (n.firstLen prp1 len) (n.restLen prp1 len) =
        n.firstLen prp1 len := if_pos ⟨rfl, hle⟩
    rw [mapSegments, prpSegments, hcells, hmapped, payload_item, payload_nil, pageSegments_cons,
      pageSegments_cons, pageSegments_nil, pageSegments_nil, Nat.min_eq_left hfirst,
      Nat.min_eq_left hle] at h
    simpa using h

/-- The two branches add the same segments, all of them in the controller memory
buffer, if and only if `prp2` alone takes as many bytes as the first entry and
what the entries describe lies in the buffer. -/
theorem cmb_agrees_iff {api : IovecApi} (happ : api.Appends) {n : DmaCtrl} (hp : n.Paged) (m : Mem)
    {prp1 prp2 len : Nat} (t : Mapping) (hprp1 : prp1 < 2 ^ 64) (hprp2 : prp2 < 2 ^ 64)
    (hlen : len < 2 ^ 32) (hin : n.inCmb prp1) :
    CmbAgrees api n m prp1 prp2 len t ↔ CmbFits n m prp1 prp2 len := by
  have haddr : n.ctrlMemAddr ≤ 2 ^ 64 := hin.2.1.trans hprp1.le
  have hback : ((mapSegments n m true prp1 prp2 len).map (n.place true)).map n.atHost =
      mapSegments n m true prp1 prp2 len := by
    rw [List.map_map]
    refine (List.map_congr_left ?_).trans (List.map_id _)
    intro e he
    exact DmaCtrl.atHost_place haddr (mapSegments_base_lt n m true len hprp1 hprp2 e he)
  constructor
  case mp =>
    intro h hgood hfit
    obtain ⟨s, t', hrun, hiff, hiov⟩ := cmb_run happ hp m t hin hlen hfit
    obtain rfl := hiff.mpr hgood
    have hiov := hiov rfl
    obtain ⟨⟨host, hhost, hsame⟩, -, hinside⟩ := h t' hrun
    obtain ⟨host', hhost', hsg⟩ := hostMapping_eq hp hgood hfit
    rw [hhost', Option.some.injEq, Prod.mk.injEq] at hhost
    rw [hiov, hback, ← hhost.2, hsg] at hsame
    refine ⟨second_of_mapSegments_eq hsame, ?_⟩
    intro e he
    have hmem : n.place true e ∈ t'.iov := by
      rw [hiov, hsame]
      exact List.mem_map_of_mem he
    have hin := hinside _ hmem
    rwa [DmaCtrl.place_base, DmaCtrl.place_len] at hin
  case mpr =>
    intro h t' hrun
    have hfit := countFits_of_run hp hlen hrun
    obtain ⟨s, t₁, hrun₁, hiff, hiov⟩ := cmb_run happ hp m t hin hlen hfit
    rw [hrun, Option.some.injEq, Prod.mk.injEq] at hrun₁
    obtain ⟨rfl, rfl⟩ := hrun₁
    have hgood := hiff.mp rfl
    have hiov := hiov rfl
    obtain ⟨hsecond, hinside⟩ := h hgood hfit
    have hsame : mapSegments n m true prp1 prp2 len = _ := mapSegments_eq m prp2 fun _ => hsecond
    refine ⟨?_, ?_, ?_⟩
    · obtain ⟨host, hhost, hsg⟩ := hostMapping_eq hp hgood hfit
      exact ⟨host, hhost, by rw [hiov, hback, hsame, hsg]⟩
    · rw [hiov, hsame, List.map_map]
      simp only [Function.comp_def, DmaCtrl.place_len]
      exact sum_prpSegments hp m prp1 prp2 len
    · intro e he
      rw [hiov, hsame] at he
      obtain ⟨e', he', rfl⟩ := List.mem_map.mp he
      rw [DmaCtrl.place_base, DmaCtrl.place_len]
      exact hinside e' he'

/-- `qemu_iovec_add` of a vector that grows as needed. -/
def IovecApi.append : IovecApi := ⟨fun iov base len => some (iov ++ [⟨base, len⟩])⟩

theorem IovecApi.append_appends : IovecApi.append.Appends := fun _ _ _ => rfl

/-- A controller memory buffer of 16 pages at `0x100000`. -/
def cmbCtrl : DmaCtrl where
  pageSize := 4096
  pageBits := 12
  maxPrpEnts := 512
  cmbsz := 1
  ctrlMemAddr := 0x100000
  ctrlMemSize := 0x10000

theorem cmbCtrl_paged : cmbCtrl.Paged := ⟨by decide, rfl, rfl⟩

def zeroMem : Mem := ⟨fun _ => 0, fun _ => 0⟩

/-- Half a page and a quarter of the next: the second segment takes half a page. -/
theorem second_segment_length :
    ¬ CmbAgrees .append cmbCtrl zeroMem 0x100800 0x101000 0xc00 ⟨pciDmaSglistInit, []⟩ := by
  intro h
  have hrun : nvmeMapPrp .append cmbCtrl zeroMem 0x100800 0x101000 0xc00
      ⟨pciDmaSglistInit, []⟩ =
      some (nvmeSuccess, ⟨pciDmaSglistInit, [⟨0x800, 0x800⟩, ⟨0x1000, 0x800⟩]⟩) := by
    decide +kernel
  have hsum := (h _ hrun).2.1
  revert hsum
  decide

/-- Two whole pages of the buffer. -/
theorem cmb_agrees_two :
    CmbAgrees .append cmbCtrl zeroMem 0x100000 0x101000 0x2000 ⟨pciDmaSglistInit, []⟩ :=
  (cmb_agrees_iff IovecApi.append_appends cmbCtrl_paged zeroMem _ (by decide) (by decide)
    (by decide) (by decide)).mpr (by
      intro _ _
      decide +kernel)

end Femu.Nvme
