import Mathlib.Algebra.Order.BigOperators.Group.List
import Mathlib.Algebra.Order.Ring.Nat
import Femu.Nvme.PrpList
import Femu.Nvme.Uncorrectable

/-!
# Femu.Nvme.Compare

Compare (`nvme_compare`). The handler reads each segment of the host into one half of a
buffer on the stack and compares it with the other half, which nothing has written: the
backend is never read. `compareLoop` takes what the buffer holds as an argument.
-/

namespace Femu.Nvme

open Lib Lib.Traced

/-! ## what a Compare should return -/

/-- The bytes of a range of blocks. -/
def rangeLen (ns : NvmeNamespace) (cmd : NvmeCmd) : Nat := (cmd.nlb + 1) * 2 ^ ns.curLbaf.lbads

/-- The bytes of the host that the PRP entries of the command describe. -/
def hostBytes (n : NvmCtrl) (ns : NvmeNamespace) (cmd : NvmeCmd) (s : IoState) : List UInt8 :=
  (prpSegments n.toDmaCtrl s.mem n.maxPrpEnts cmd.prp1.toNat cmd.prp2.toNat (rangeLen ns cmd)).flatMap
    fun e => readBytes s.mem.host e.base e.len

/-- The bytes of the backend that the blocks of the command hold. -/
def backendBytes (ns : NvmeNamespace) (cmd : NvmeCmd) (s : IoState) : List UInt8 :=
  readBytes s.mb (cmd.slba * 2 ^ ns.curLbaf.lbads) (rangeLen ns cmd)

/-- Whatever the buffer on the stack holds, the command succeeds if the bytes of the host are
those of the backend, and fails the comparison otherwise. -/
def Compares (n : NvmCtrl) (ns : NvmeNamespace) (cmd : NvmeCmd) (s : IoState) : Prop :=
  ∀ tmp : Nat → List UInt8, (∀ i, n.pageSize ≤ (tmp i).length) →
    ∃ s', (nvmeCompare n ns tmp cmd s).2 =
      some (if hostBytes n ns cmd s = backendBytes ns cmd s then nvmeSuccess else nvmeCmpFailure, s')

/-- A command that the checks let through: its range lies in the namespace and no block of it
is marked, it is within the transfer limit, and its PRP entries are there and point to memory of
the host. -/
structure Comparable (n : NvmCtrl) (ns : NvmeNamespace) (cmd : NvmeCmd) (s : IoState) : Prop where
  range : cmd.slba + (cmd.nlb + 1) ≤ ns.nsze.toNat
  correctable : ∀ lba, cmd.Covers lba → s.uncorrectable lba = false
  mdts : ¬ n.overMdts (rangeLen ns cmd)
  prps : PrpsGood n.toDmaCtrl s.mem n.maxPrpEnts cmd.prp1.toNat cmd.prp2.toNat (rangeLen ns cmd)
  host : ∀ e ∈ prpSegments n.toDmaCtrl s.mem n.maxPrpEnts cmd.prp1.toNat cmd.prp2.toNat
    (rangeLen ns cmd), ¬ n.inCmb e.base

/-! ## the loop over the segments -/

variable {n : NvmCtrl} {ns : NvmeNamespace} {cmd : NvmeCmd} {s s' : IoState}
  {tmp : Nat → List UInt8} {es : List ScatterGatherEntry} {st : Status}

/-- The buffer holds the bytes of the host from segment `i` on. -/
def Matches (n : NvmCtrl) (m : Mem) (tmp : Nat → List UInt8) (i : Nat)
    (es : List ScatterGatherEntry) : Prop :=
  ∀ j e, es[j]? = some e →
    (tmp (i + j)).take (u32 e.len) = nvmeAddrRead n.toDmaCtrl m e.base (u32 e.len)

theorem matches_cons {e : ScatterGatherEntry} {m : Mem} {i : Nat} : Matches n m tmp i (e :: es) ↔
    (tmp i).take (u32 e.len) = nvmeAddrRead n.toDmaCtrl m e.base (u32 e.len) ∧
      Matches n m tmp (i + 1) es := by
  constructor
  · intro h
    refine ⟨h 0 e rfl, fun j e' he' => ?_⟩
    have hj : i + 1 + j = i + (j + 1) := by omega
    rw [hj]
    exact h (j + 1) e' he'
  · rintro ⟨h0, h⟩ j e' he'
    cases j with
    | zero =>
        cases he'
        exact h0
    | succ j =>
        have hj : i + (j + 1) = i + 1 + j := by omega
        rw [hj]
        exact h j e' he'

/-- The loop tells whether the buffer holds the bytes of the host. -/
theorem compareLoop_result (s : IoState) (i : Nat) :
    (Matches n s.mem tmp i es → (compareLoop n tmp i es s).2 = some (nvmeSuccess, s)) ∧
      (¬ Matches n s.mem tmp i es → (compareLoop n tmp i es s).2 = some (nvmeCmpFailure, s)) := by
  induction es generalizing i with
  | nil =>
      refine ⟨fun _ => rfl, fun h => absurd (fun j e he => ?_) h⟩
      simp at he
  | cons e es ih =>
      rw [matches_cons, compareLoop, get_bind_apply]
      by_cases he : (tmp i).take (u32 e.len) = nvmeAddrRead n.toDmaCtrl s.mem e.base (u32 e.len)
      case pos => simpa [he] using ih (i + 1)
      case neg => simp [he]

/-! ## the handler -/

theorem u32_rangeLen_le : u32 (rangeLen ns cmd) ≤ rangeLen ns cmd := Nat.mod_le _ _

theorem Comparable.not_overMdts (h : Comparable n ns cmd s) : ¬ n.overMdts (u32 (rangeLen ns cmd)) :=
  fun hover => h.mdts ⟨hover.1, Nat.lt_of_lt_of_le hover.2 u32_rangeLen_le⟩

/-- The mapping of the command into the lists of the request. -/
def mapsTo (n : NvmCtrl) (ns : NvmeNamespace) (cmd : NvmeCmd) (s : IoState) :
    Option (Status × Mapping) :=
  nvmeMapPrp .stub n.toDmaCtrl s.mem cmd.prp1.toNat cmd.prp2.toNat (u32 (rangeLen ns cmd)) s.map

/-- After the checks come the mapping, the scan, which finds nothing, and the loop. -/
theorem nvmeCompare_result (h : Comparable n ns cmd s) (hst : nvmeInvalidField ||| nvmeDnr ≠ st) :
    (∃ s', (nvmeCompare n ns tmp cmd s).2 = some (st, s')) ↔
      ∃ map t, mapsTo n ns cmd s = some (nvmeSuccess, map) ∧
        (compareLoop n tmp 0 map.qsg.sg { s with map := map }).2 = some (st, t) := by
  have hlt := ns.nsze.toNat_lt
  have hin : cmd.slba + (cmd.nlb + 1) < 2 ^ 64 := Nat.lt_of_le_of_lt h.range hlt
  have hrange : ¬ u64 (cmd.slba + (cmd.nlb + 1)) > ns.nsze.toNat := by
    rw [u64_eq hin]
    exact Nat.not_lt.mpr h.range
  have hmdts : ¬ n.overMdts (u32 ((cmd.nlb + 1) * 2 ^ ns.curLbaf.lbads)) := h.not_overMdts
  have hscan : ¬ nextBit s.uncorrectable (u64 (cmd.slba + (cmd.nlb + 1))) cmd.slba <
      u64 (cmd.slba + (cmd.nlb + 1)) := by
    rw [nextBit_lt_iff hin]
    rintro ⟨lba, hcov, hmark⟩
    rw [h.correctable lba hcov] at hmark
    cases hmark
  unfold nvmeCompare
  simp only [if_neg hrange, if_neg hmdts, emit_bind_apply, mapReq, result_ofState_bind]
  constructor
  · rintro ⟨s', st', u, hu, hrun⟩
    obtain ⟨⟨status, map⟩, hmap, heq⟩ := Option.map_eq_some_iff.mp hu
    cases heq
    by_cases hok : status = nvmeSuccess
    case neg =>
      rw [if_pos hok, result_bind] at hrun
      obtain ⟨-, u, -, hrun⟩ := hrun
      exact absurd (result_pure.mp hrun).1 hst
    case pos =>
      subst hok
      rw [if_neg (not_not.mpr rfl)] at hrun
      simp only [findNextBit, bind_assoc, emit_bind_apply, get_bind_apply, pure_bind,
        if_neg hscan, result_bind] at hrun
      obtain ⟨st', t, hloop, _, u, -, hrun⟩ := hrun
      cases (result_pure.mp hrun).1
      exact ⟨map, t, hmap, hloop⟩
  · rintro ⟨map, t, hmap, hloop⟩
    refine ⟨{ t with map := { t.map with qsg := qemuSglistDestroy t.map.qsg } }, nvmeSuccess,
      { s with map := map }, congrArg (Option.map _) hmap, ?_⟩
    rw [if_neg (not_not.mpr rfl)]
    simp only [findNextBit, bind_assoc, emit_bind_apply, get_bind_apply, pure_bind,
      if_neg hscan, result_bind]
    exact ⟨st, t, hloop, (), _, rfl, rfl⟩

/-! ## the result depends on the buffer -/

/-- A buffer that holds the bytes of the host. -/
def hostTmp (n : NvmCtrl) (m : Mem) (es : List ScatterGatherEntry) (i : Nat) : List UInt8 :=
  (match es[i]? with
    | some e => nvmeAddrRead n.toDmaCtrl m e.base (u32 e.len)
    | none => []) ++ List.replicate n.pageSize 0

theorem length_nvmeAddrRead (c : DmaCtrl) (m : Mem) (addr size : Nat) :
    (nvmeAddrRead c m addr size).length = size := by
  unfold nvmeAddrRead
  split <;> simp [readBytes]

theorem matches_hostTmp (m : Mem) : Matches n m (hostTmp n m es) 0 es := by
  intro j e he
  rw [Nat.zero_add, hostTmp, he]
  exact List.take_left' (length_nvmeAddrRead ..)

theorem le_length_hostTmp (m : Mem) (i : Nat) : n.pageSize ≤ (hostTmp n m es i).length := by
  simp [hostTmp]

/-- The same with every byte changed. -/
theorem not_matches_hostTmp (m : Mem) (h : ∃ e ∈ es, 0 < u32 e.len) :
    ¬ Matches n m (fun i => (hostTmp n m es i).map (· + 1)) 0 es := by
  obtain ⟨e, he, hpos⟩ := h
  obtain ⟨j, hj⟩ := List.mem_iff_getElem?.mp he
  intro hm
  have hone := hm j e hj
  have hmatches : Matches n m (hostTmp n m es) 0 es := matches_hostTmp m
  have hhost := hmatches j e hj
  rw [← List.map_take, hhost] at hone
  have hlen := length_nvmeAddrRead n.toDmaCtrl m e.base (u32 e.len)
  cases hread : nvmeAddrRead n.toDmaCtrl m e.base (u32 e.len) with
  | nil =>
      rw [hread, List.length_nil] at hlen
      omega
  | cons b bs =>
      rw [hread, List.map_cons] at hone
      exact absurd (List.cons.inj hone).1 (by simp)

theorem cmpFailure_ne_success : nvmeCmpFailure ≠ nvmeSuccess := by decide

/-- A mapped Compare tells whether the buffer holds the bytes of the host. -/
theorem nvmeCompare_of_map (h : Comparable n ns cmd s) {map : Mapping}
    (hmap : mapsTo n ns cmd s = some (nvmeSuccess, map)) :
    (Matches n s.mem tmp 0 map.qsg.sg →
      ∃ s', (nvmeCompare n ns tmp cmd s).2 = some (nvmeSuccess, s')) ∧
    (¬ Matches n s.mem tmp 0 map.qsg.sg →
      ∃ s', (nvmeCompare n ns tmp cmd s).2 = some (nvmeCmpFailure, s')) := by
  constructor
  · intro hm
    exact (nvmeCompare_result h (by decide)).mpr ⟨map, _, hmap, (compareLoop_result { s with map := map } 0).1 hm⟩
  · intro hm
    exact (nvmeCompare_result h (by decide)).mpr ⟨map, _, hmap, (compareLoop_result { s with map := map } 0).2 hm⟩

/-- A command that compares is mapped. -/
theorem Compares.maps (hc : Compares n ns cmd s) (h : Comparable n ns cmd s) :
    ∃ map, mapsTo n ns cmd s = some (nvmeSuccess, map) := by
  obtain hrun := hc (fun _ => List.replicate n.pageSize 0) (by simp)
  have hst : nvmeInvalidField ||| nvmeDnr ≠
      if hostBytes n ns cmd s = backendBytes ns cmd s then nvmeSuccess else nvmeCmpFailure := by
    split <;> decide
  obtain ⟨map, -, hmap, -⟩ := (nvmeCompare_result h hst).mp hrun
  exact ⟨map, hmap⟩

/-- No segment is longer than what the segments cover. -/
theorem QEMUSGList.Covers.len_le {q : QEMUSGList} {len : Nat} {e : ScatterGatherEntry}
    (h : q.Covers len) (he : e ∈ q.sg) : e.len ≤ len :=
  h.total_eq ▸ List.le_sum_of_mem (List.mem_map_of_mem he)

theorem covers_of_maps {map : Mapping} (hmap : mapsTo n ns cmd s = some (nvmeSuccess, map)) :
    map.qsg.Covers (u32 (rangeLen ns cmd)) := by
  have hcov := (nvmeMapPrp_covers hmap).2
  rwa [u32, u32, Nat.mod_mod] at hcov

/-- A Compare of a length that does not wrap around to zero depends on the buffer. -/
theorem not_compares (h : Comparable n ns cmd s) (hlen : u32 (rangeLen ns cmd) ≠ 0) :
    ¬ Compares n ns cmd s := by
  intro hc
  obtain ⟨map, hmap⟩ := hc.maps h
  have hcov := covers_of_maps hmap
  have hpos : ∃ e ∈ map.qsg.sg, 0 < u32 e.len := by
    have hsum : 0 < map.qsg.total := by
      rw [hcov.total_eq]
      exact Nat.pos_of_ne_zero hlen
    obtain ⟨k, hk, hk0⟩ := List.sum_pos_iff_exists_pos_nat.mp hsum
    obtain ⟨e, he, rfl⟩ := List.mem_map.mp hk
    have hlt : e.len < 2 ^ 32 := Nat.lt_of_le_of_lt (hcov.len_le he) (Nat.mod_lt _ (by decide))
    exact ⟨e, he, by rwa [u32, Nat.mod_eq_of_lt hlt]⟩
  obtain ⟨s₁, hr₁⟩ := (nvmeCompare_of_map h hmap).1 (matches_hostTmp s.mem)
  obtain ⟨s₂, hr₂⟩ := (nvmeCompare_of_map h hmap).2 (not_matches_hostTmp s.mem hpos)
  obtain ⟨t₁, ht₁⟩ := hc _ (le_length_hostTmp s.mem)
  obtain ⟨t₂, ht₂⟩ := hc (fun i => (hostTmp n s.mem map.qsg.sg i).map (· + 1)) fun i => by
    rw [List.length_map]
    exact le_length_hostTmp s.mem i
  have h₁ := congrArg (Option.map Prod.fst) (hr₁.symm.trans ht₁)
  have h₂ := congrArg (Option.map Prod.fst) (hr₂.symm.trans ht₂)
  exact cmpFailure_ne_success (Option.some.inj (h₂.trans h₁.symm))

/-! ## the result -/

/-- Of a length that wraps around to zero no byte is compared. -/
theorem nvmeCompare_of_zero (tmp : Nat → List UInt8) (hp : n.toDmaCtrl.Paged) (h : Comparable n ns cmd s)
    (hlen : u32 (rangeLen ns cmd) = 0) :
    ∃ s', (nvmeCompare n ns tmp cmd s).2 = some (nvmeSuccess, s') := by
  have hprp1 : ¬ n.inCmb cmd.prp1.toNat := h.host _ List.mem_cons_self
  have hfirst : n.firstLen cmd.prp1.toNat 0 = 0 := Nat.zero_min _
  have hrest : n.restLen cmd.prp1.toNat 0 = 0 := by rw [DmaCtrl.restLen, hfirst]
  have hends : n.MapEnds cmd.prp1.toNat cmd.prp2.toNat 0 :=
    .inr ⟨hprp1, .inr (.inl (by rw [hrest]; exact Nat.zero_le _))⟩
  have hgood : PrpsGood n.toDmaCtrl s.mem n.maxPrpEnts cmd.prp1.toNat cmd.prp2.toNat 0 :=
    ⟨h.prps.1, fun hne => absurd hrest hne, by simp [hrest, prpCells]⟩
  obtain ⟨st, map, hmap, hst, -⟩ := nvmeMapPrp_stub hp s.mem s.map (by decide) hends
  rw [hst.mpr hgood, ← hlen] at hmap
  refine (nvmeCompare_of_map h hmap).1 fun j e he => ?_
  have hle := (covers_of_maps hmap).len_le (List.mem_of_getElem? he)
  have hnil : u32 e.len = 0 := by
    rw [hlen, Nat.le_zero] at hle
    rw [hle]
    rfl
  rw [hnil, List.take_zero]
  exact (List.length_eq_zero_iff.mp (length_nvmeAddrRead ..)).symm

/-- **Compare**: a command that the checks let through is compared with the backend exactly
when its length is a multiple of 4 GiB, so that nothing is compared, and the bytes are the same. -/
theorem compares_iff (hp : n.toDmaCtrl.Paged) (h : Comparable n ns cmd s) :
    Compares n ns cmd s ↔ 2 ^ 32 ∣ rangeLen ns cmd ∧ hostBytes n ns cmd s = backendBytes ns cmd s := by
  constructor
  · intro hc
    have hlen : u32 (rangeLen ns cmd) = 0 := by
      by_contra hne
      exact not_compares h hne hc
    refine ⟨Nat.dvd_of_mod_eq_zero hlen, ?_⟩
    by_contra hdiff
    obtain ⟨t, ht⟩ := hc (fun _ => List.replicate n.pageSize 0) (by simp)
    obtain ⟨u, hu⟩ := nvmeCompare_of_zero (fun _ => List.replicate n.pageSize 0) hp h hlen
    rw [if_neg hdiff, hu] at ht
    cases ht
  · rintro ⟨hdvd, hsame⟩ tmp -
    rw [if_pos hsame]
    exact nvmeCompare_of_zero tmp hp h (Nat.mod_eq_zero_of_dvd hdvd)

/-- The Compare of block 0 with the page at `0x1000`. -/
def compareFirst : NvmeCmd := { opcode := nvmeCmdCompare, nsid := 1, prp1 := 0x1000 }

theorem compareFirst_comparable : Comparable plainCtrl eightBlocks compareFirst freshState where
  range := by decide
  correctable _ _ := rfl
  mdts h := h.1 rfl
  prps := ⟨by decide, fun hne => absurd rfl hne, by
    have hrest : plainCtrl.restLen compareFirst.prp1.toNat (rangeLen eightBlocks compareFirst) = 0 :=
      by decide
    simp [hrest, prpCells]⟩
  host _ _ h := h.1 rfl

theorem not_compares_first :
    ¬ Compares plainCtrl eightBlocks compareFirst freshState := by
  rw [compares_iff hostCtrl_paged compareFirst_comparable]
  exact fun h => absurd h.1 (by decide)

/-- A block of zeros and a page of zeros compare as the buffer on the stack has it. -/
theorem equal_block_not_compared :
    ¬ ∀ (n : NvmCtrl) (ns : NvmeNamespace) (cmd : NvmeCmd) (s : IoState), n.toDmaCtrl.Paged →
      Comparable n ns cmd s → Compares n ns cmd s := by
  intro hall
  exact not_compares compareFirst_comparable (by decide)
    (hall plainCtrl eightBlocks compareFirst freshState ⟨by decide, rfl, rfl⟩
      compareFirst_comparable)

end Femu.Nvme
