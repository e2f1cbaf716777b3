import Femu.Zns.Resources

/-!
# Femu.Zns.WritePointer

The two write pointers of a zone, `d.wp` and `w_ptr`, over runs whose host buffers
can be mapped. A zone write is checked at the write pointer itself, but a zone
append is checked as if it started at the start of the zone: the pointers stay
within the capacity as long as the appends fit (`AppendFits`), and one append
that does not fit takes them past it.
-/

namespace Femu.Zns

open Nvme Lib

variable {n : ZnsCtrl} {z z' : NvmeZone} {i : Nat}

/-! ## the geometry -/

/-- What `zns_init_zone_geometry` establishes. -/
structure Geometry (n : ZnsCtrl) : Prop where
  capacity_pos : 1 ≤ n.zoneCapacity
  capacity_le : n.zoneCapacity ≤ n.zoneSize
  total_lt : n.numZones * n.zoneSize < 2 ^ 64

/-- The zones do not exceed the blocks of the namespace. -/
theorem initZoneGeometry_total {n' : ZnsCtrl} (h : znsInitZoneGeometry n = some n') :
    n'.numZones * n'.zoneSize ≤ n.size.toNat / 2 ^ n.lbads ∧ n'.lbads = n.lbads := by
  unfold znsInitZoneGeometry at h
  simp only at h
  generalize (if n.zoneSizeBs ≠ 0 then n.zoneSizeBs else nvmeDefaultZoneSize) = zoneSize at h
  simp only [Option.ite_none_left_eq_some, Option.some.injEq] at h
  obtain ⟨-, -, -, -, -, -, -, -, rfl⟩ := h
  refine ⟨?_, rfl⟩
  calc u32 (n.size.toNat / 2 ^ n.lbads / (zoneSize / 2 ^ n.lbads)) * (zoneSize / 2 ^ n.lbads)
      ≤ n.size.toNat / 2 ^ n.lbads / (zoneSize / 2 ^ n.lbads) * (zoneSize / 2 ^ n.lbads) :=
        Nat.mul_le_mul_right _ (u32_le _)
    _ ≤ n.size.toNat / 2 ^ n.lbads := Nat.div_mul_le_self _ _

theorem initZoneGeometry_spec {n' : ZnsCtrl} (h : znsInitZoneGeometry n = some n') :
    Geometry n' := by
  have htotal : n'.numZones * n'.zoneSize < 2 ^ 64 :=
    calc n'.numZones * n'.zoneSize
        ≤ n.size.toNat / 2 ^ n.lbads := (initZoneGeometry_total h).1
      _ ≤ n.size.toNat := Nat.div_le_self _ _
      _ < 2 ^ 64 := n.size.toNat_lt
  unfold znsInitZoneGeometry at h
  simp only at h
  generalize (if n.zoneSizeBs ≠ 0 then n.zoneSizeBs else nvmeDefaultZoneSize) = zoneSize at h
  generalize (if n.zoneCapBs ≠ 0 then n.zoneCapBs else zoneSize) = zoneCap at h
  simp only [Option.ite_none_left_eq_some, Option.some.injEq] at h
  obtain ⟨-, hcap, hsize, hcapacity, -, -, -, -, rfl⟩ := h
  have hpos : 0 < 2 ^ n.lbads := Nat.two_pow_pos n.lbads
  exact ⟨Nat.div_pos (by omega) hpos, Nat.div_le_div_right (by omega), htotal⟩

/-- The zones of the table at the start: one after the other, all empty. -/
theorem initZones_at (n : ZnsCtrl) (hsize : n.numZones * n.zoneSize < 2 ^ 64) (k i : Nat)
    (hk : i + k = n.numZones) (zones : Nat → NvmeZone) (j : Nat) (hij : i ≤ j)
    (hj : j < n.numZones) :
    initZones n (n.numZones * n.zoneSize) k i (i * n.zoneSize) n.zoneSize zones j =
      ⟨nvmeZoneTypeSeqWrite, .empty, 0, n.zoneCapacity, j * n.zoneSize, j * n.zoneSize,
        j * n.zoneSize⟩ := by
  induction k generalizing i zones with
  | zero => omega
  | succ k ih =>
      have hle : (i + 1) * n.zoneSize ≤ n.numZones * n.zoneSize :=
        Nat.mul_le_mul_right _ (by omega)
      have hnext : u64 (i * n.zoneSize + n.zoneSize) = (i + 1) * n.zoneSize := by
        rw [show i * n.zoneSize + n.zoneSize = (i + 1) * n.zoneSize from (Nat.succ_mul ..).symm]
        exact u64_eq (by omega)
      have hroom : ¬ n.numZones * n.zoneSize < (i + 1) * n.zoneSize := Nat.not_lt.mpr hle
      simp only [initZones, hnext, if_neg hroom]
      by_cases hji : j = i
      · have := (initZones_cases n (n.numZones * n.zoneSize) k (i + 1) ((i + 1) * n.zoneSize)
          n.zoneSize (Function.update zones i ⟨nvmeZoneTypeSeqWrite, .empty, 0, n.zoneCapacity,
            i * n.zoneSize, i * n.zoneSize, i * n.zoneSize⟩) j).2 (.inl (by omega))
        rw [this, hji, Function.update_self]
      · exact ih (i + 1) (by omega) _ (by omega)

/-! ## the pointers of a zone -/

/-- The pointers of a zone, in the terms of the specification. -/
structure PointersOk (z : NvmeZone) : Prop where
  start_le : z.zslba ≤ z.wp
  same : z.wp = z.wPtr
  le_capacity : z.wPtr ≤ z.zslba + z.zcap
  empty : z.zs = .empty → z.wp = z.zslba
  below : z.zs.isActive = true ∨ z.zs = .empty → z.wp < z.zslba + z.zcap

/-- The zone `i` of the namespace, with its pointers in order. -/
structure ZoneOk (n : ZnsCtrl) (i : Nat) (z : NvmeZone) : Prop where
  zslba_eq : z.zslba = i * n.zoneSize
  zcap_eq : z.zcap = n.zoneCapacity
  pointers : PointersOk z

/-- A zone of the geometry ends below the end of the namespace. -/
theorem zone_le (hi : i < n.numZones) :
    i * n.zoneSize + n.zoneSize ≤ n.numZones * n.zoneSize := by
  rw [show i * n.zoneSize + n.zoneSize = (i + 1) * n.zoneSize from (Nat.succ_mul ..).symm]
  exact Nat.mul_le_mul_right _ hi

theorem Geometry.boundary_eq (hgeo : Geometry n) (hi : i < n.numZones)
    (hzslba : z.zslba = i * n.zoneSize) (hzcap : z.zcap = n.zoneCapacity) :
    znsZoneWrBoundary z = z.zslba + z.zcap := by
  have h₁ := zone_le hi
  have h₂ := hgeo.capacity_le
  have h₃ := hgeo.total_lt
  exact u64_eq (by omega)

/-- The moves of the zone state machine keep the pointers in order. -/
theorem stable_zoneOk (hgeo : Geometry n) :
    Stable fun i z => i < n.numZones → ZoneOk n i z := by
  intro i z z' hmove hok hi
  obtain ⟨hzslba, hzcap, hp⟩ := hok hi
  have hcap : 1 ≤ z.zcap := hzcap ▸ hgeo.capacity_pos
  have hbound := hgeo.boundary_eq hi hzslba hzcap
  obtain ⟨hstart, hsame, hle, hempty, hbelow⟩ := hp
  cases hmove with
  | opn h =>
      have hact : z.zs.isActive = true ∨ z.zs = .empty := by
        obtain h | h | h := h
        · exact .inr h
        · exact .inl (by rw [h]; rfl)
        · exact .inl (by rw [h]; rfl)
      exact ⟨hzslba, hzcap, hstart, hsame, hle, by simp, fun _ => hbelow hact⟩
  | close h =>
      exact ⟨hzslba, hzcap, hstart, hsame, hle, by simp,
        fun _ => hbelow (.inl (isActive_of_isOpen h))⟩
  | finish h =>
      refine ⟨hzslba, hzcap, ?_, rfl, ?_, by simp, by simp [NvmeZoneState.isActive]⟩
      · show z.zslba ≤ znsZoneWrBoundary z
        omega
      · show znsZoneWrBoundary z ≤ z.zslba + z.zcap
        omega
  | reset h =>
      refine ⟨hzslba, hzcap, Nat.le_refl _, rfl, Nat.le_add_right _ _, fun _ => rfl, fun _ => ?_⟩
      show z.zslba < z.zslba + z.zcap
      omega
  | extend h =>
      exact ⟨hzslba, hzcap, hstart, hsame, hle, by simp, fun _ => hbelow (.inr h)⟩
  | clear h hwp =>
      refine ⟨hzslba, hzcap, hstart, rfl, ?_, by simp, fun _ => hbelow (.inl h)⟩
      show z.wp ≤ z.zslba + z.zcap
      omega
  | clearEmpty h hwp =>
      refine ⟨hzslba, hzcap, hstart, rfl, ?_, fun _ => hwp, fun _ => hbelow (.inl h)⟩
      show z.wp ≤ z.zslba + z.zcap
      omega

/-! ## writes and appends -/

/-- A write that ends within the capacity keeps the pointers in order. -/
theorem ZoneOk.write (hgeo : Geometry n) {nlb : Nat} (h : ZoneOk n i z) (hi : i < n.numZones)
    (hact : z.zs.isActive = true ∨ z.zs = .empty) (hfit : z.wPtr + nlb ≤ z.zslba + z.zcap)
    (hnlb : 0 < nlb) : ZoneOk n i (finalized (advanced z nlb) nlb) := by
  obtain ⟨hzslba, hzcap, hstart, hsame, hle, hempty, hbelow⟩ := h
  have hbound := hgeo.boundary_eq hi hzslba hzcap
  have hlt : znsZoneWrBoundary z < 2 ^ 64 := Nat.mod_lt _ (by omega)
  have hptr : u64 (z.wPtr + nlb) = z.wPtr + nlb := u64_eq (by omega)
  have hwp : u64 (z.wp + nlb) = z.wPtr + nlb := by rw [hsame]; exact hptr
  have hsameBound : ∀ zs w w', znsZoneWrBoundary { z with zs := zs, wPtr := w, wp := w' } =
      z.zslba + z.zcap := fun _ _ _ => hbound
  by_cases hend : z.wPtr + nlb = z.zslba + z.zcap
  · have hadv : advanced z nlb = { z with wPtr := z.wPtr + nlb } := by
      unfold advanced
      simp only [hptr]
      rw [if_neg]
      intro hc
      have := hsameBound z.zs (z.wPtr + nlb) z.wp
      omega
    have hnfull : z.zs ≠ .full := by
      intro hc
      simp [hc, NvmeZoneState.isActive] at hact
    have hfin : finalized (advanced z nlb) nlb =
        { z with wPtr := z.wPtr + nlb, wp := z.wPtr + nlb, zs := .full } := by
      rw [hadv]
      unfold finalized
      simp only [hwp]
      rw [if_pos ⟨hend.trans (hsameBound _ _ _).symm, hnfull⟩]
    rw [hfin]
    refine ⟨hzslba, hzcap, ?_, rfl, hfit, by simp, by simp [NvmeZoneState.isActive]⟩
    show z.zslba ≤ z.wPtr + nlb
    omega
  · have hlt' : z.wPtr + nlb < z.zslba + z.zcap := by omega
    have hadv : ∃ zs : NvmeZoneState, (zs.isActive = true ∧ zs ≠ .empty) ∧
        advanced z nlb = { z with wPtr := z.wPtr + nlb, zs := zs } := by
      unfold advanced
      simp only [hptr]
      split
      · exact ⟨.implicitlyOpen, ⟨rfl, by simp⟩, rfl⟩
      · rename_i hnot
        refine ⟨z.zs, ?_, rfl⟩
        have hne : z.zs ≠ .empty := fun hc => hnot ⟨by
          have := hsameBound z.zs (z.wPtr + nlb) z.wp
          omega, .inl hc⟩
        exact ⟨hact.resolve_right hne, hne⟩
    obtain ⟨zs, ⟨hzs, hne⟩, hadv⟩ := hadv
    have hfin : finalized (advanced z nlb) nlb =
        { z with wPtr := z.wPtr + nlb, wp := z.wPtr + nlb, zs := zs } := by
      rw [hadv]
      unfold finalized
      simp only [hwp]
      rw [if_neg]
      intro hc
      have := hsameBound zs (z.wPtr + nlb) (z.wPtr + nlb)
      omega
    rw [hfin]
    refine ⟨hzslba, hzcap, ?_, rfl, hfit, fun hc => absurd hc hne, fun _ => hlt'⟩
    show z.zslba ≤ z.wPtr + nlb
    omega

/-- The zone on which the command is accepted: an append fits between its write
pointer and its capacity. The code compares the end of the append with the
capacity as if it started at the start of the zone. -/
def AppendFits (n : ZnsCtrl) (sys : System) : Event → Prop
  | .cmd .append slot c =>
    let req := sys.fetch slot c
    Admitted n req → ∀ i, Accepts n sys.dev req true i →
      (sys.dev.zt.zones i).wPtr + req.nlb ≤
        (sys.dev.zt.zones i).zslba + (sys.dev.zt.zones i).zcap
  | _ => True

/-- The host buffer of an accepted write or append can be mapped. -/
def Maps (n : ZnsCtrl) (sys : System) : Event → Prop
  | .cmd .write slot c =>
    let req := sys.fetch slot c
    Admitted n req → ∀ i, Accepts n sys.dev req false i → ¬ Unmappable n sys.dev.mem req
  | .cmd .append slot c =>
    let req := sys.fetch slot c
    Admitted n req → ∀ i, Accepts n sys.dev req true i → ¬ Unmappable n sys.dev.mem req
  | _ => True

/-- An accepted write of the right length keeps the pointers of its zone. -/
theorem writeKeeps_zoneOk (hgeo : Geometry n) {s : ZnsState} {req : NvmeRequest} {append : Bool}
    (h : Inv n (fun i z => i < n.numZones → ZoneOk n i z) s.zt)
    (hmap : ∀ i, Accepts n s req append i → ¬ Unmappable n s.mem req)
    (hfit : ∀ i, Accepts n s req append i →
      (s.zt.zones i).wPtr + req.nlb ≤ (s.zt.zones i).zslba + (s.zt.zones i).zcap) :
    WriteKeeps n (fun i z => i < n.numZones → ZoneOk n i z) s req append := by
  intro i hacc
  refine ⟨fun hun => absurd hun (hmap i hacc), fun _ hi => ?_⟩
  have hcheck := (checkZoneWrite_safe (n := n) (h.usable i hi) req.cmd.slba req.nlb append).of_ok
    hacc.2.2.1
  exact (h.zone i hi hi).write hgeo hi (hcheck rfl).1 (hfit i hacc) (Nat.succ_pos _)

/-- A zone write that is accepted fits: it is checked at the write pointer. -/
theorem write_fits (hgeo : Geometry n) {s : ZnsState} {req : NvmeRequest}
    (h : Inv n (fun i z => i < n.numZones → ZoneOk n i z) s.zt) (hadm : Admitted n req)
    (hnsze : n.nsze < 2 ^ 64) (i : Nat) (hacc : Accepts n s req false i) :
    (s.zt.zones i).wPtr + req.nlb ≤ (s.zt.zones i).zslba + (s.zt.zones i).zcap := by
  obtain ⟨hi, -, hcheck, -⟩ := hacc
  have hok := h.zone i hi hi
  obtain ⟨-, hle, hslba⟩ :=
    (checkZoneWrite_safe (n := n) (h.usable i hi) req.cmd.slba req.nlb false).of_ok hcheck rfl
  have hne : nvmeLbaRange ||| nvmeDnr ≠ nvmeSuccess := by decide
  have hbounds : req.cmd.slba + req.nlb ≤ n.nsze := by
    have := hadm.2
    unfold znsCheckBounds at this
    split at this
    · exact absurd this hne
    · omega
  rw [hgeo.boundary_eq hi hok.zslba_eq hok.zcap_eq, u64_eq (by omega)] at hle
  simp only [Bool.false_eq_true, if_false] at hslba
  omega

/-! ## runs -/

/-- The namespace after its initialisation. -/
structure Started (n : ZnsCtrl) (zt : ZoneTable) : Prop where
  geometry : Geometry n
  nsze_eq : n.nsze = n.numZones * n.zoneSize
  inv : Inv n (fun i z => i < n.numZones → ZoneOk n i z) zt

theorem started_of_init {n₀ n₁ : ZnsCtrl} {zt : ZoneTable}
    (hgeo : znsInitZoneGeometry n₀ = some n₁) (hinit : znsInitZonedState n₁ = some (n, zt)) :
    Started n zt := by
  have hg := initZoneGeometry_spec hgeo
  have hinit' := hinit
  unfold znsInitZonedState at hinit
  split at hinit
  · simp only [Option.some.injEq, Prod.mk.injEq] at hinit
    obtain ⟨rfl, rfl⟩ := hinit
    have htotal := hg.total_lt
    have hcap : u64 (n₁.numZones * n₁.zoneSize) = n₁.numZones * n₁.zoneSize := u64_eq htotal
    refine ⟨⟨hg.capacity_pos, hg.capacity_le, htotal⟩, hcap, ?_⟩
    refine initZonedState_inv hinit' fun i hi _ => ?_
    have hz := initZones_at n₁ htotal n₁.numZones 0 (by omega) (fun _ => zeroZone) i (Nat.zero_le i) hi
    rw [Nat.zero_mul] at hz
    show ZoneOk _ i (initZones n₁ (u64 (n₁.numZones * n₁.zoneSize)) n₁.numZones 0 0 n₁.zoneSize
      (fun _ => zeroZone) i)
    rw [hcap, hz]
    have hpos := hg.capacity_pos
    refine ⟨rfl, rfl, Nat.le_refl _, rfl, Nat.le_add_right _ _, fun _ => rfl, fun _ => ?_⟩
    show i * n₁.zoneSize < i * n₁.zoneSize + n₁.zoneCapacity
    omega
  · cases hinit

/-- **Step lemma**: an event that maps its buffer, and fits if it is an append, keeps
the pointers of all zones in order. -/
theorem step_zoneOk {zt : ZoneTable} (hstart : Started n zt) {sys : System} {ev : Event}
    (h : Inv n (fun i z => i < n.numZones → ZoneOk n i z) sys.dev.zt)
    (hev : Maps n sys ev ∧ AppendFits n sys ev) :
    Safe CmdFault (sys.step n ev) fun sys' =>
      Inv n (fun i z => i < n.numZones → ZoneOk n i z) sys'.dev.zt := by
  have hgeo := hstart.geometry
  refine step_inv (stable_zoneOk hgeo) h ev ?_
  obtain ⟨hmaps, hfits⟩ := hev
  match ev with
  | .host _ => trivial
  | .shutdown => trivial
  | .cmd .read _ _ => trivial
  | .cmd .mgmtSend _ _ => trivial
  | .cmd .write slot c =>
    intro hadm
    have hnsze : n.nsze < 2 ^ 64 := hstart.nsze_eq ▸ hgeo.total_lt
    exact writeKeeps_zoneOk hgeo h (hmaps hadm) (write_fits hgeo h hadm hnsze)
  | .cmd .append slot c => exact fun hadm => writeKeeps_zoneOk hgeo h (hmaps hadm) (hfits hadm)

/-- **Write pointers**: in every state that a run reaches from an accepted
configuration, if the host buffers can be mapped and every accepted append fits, the
two pointers of each zone agree and lie within the zone, an empty zone is at its
start, and a zone at its capacity is full. -/
theorem write_pointers_ok {n₀ n₁ : ZnsCtrl} {zt : ZoneTable}
    (hgeo : znsInitZoneGeometry n₀ = some n₁) (hinit : znsInitZonedState n₁ = some (n, zt))
    {mem : Mem} {mb zdExtensions : Bytes} {slots : Nat → NvmeRequest} {evs : List Event}
    {sys : System} (hevs : Along (System.step n) (fun sys ev => Maps n sys ev ∧ AppendFits n sys ev)
      evs ⟨⟨zt, mem, mb, zdExtensions⟩, slots⟩)
    (hrun : runE (System.step n) evs ⟨⟨zt, mem, mb, zdExtensions⟩, slots⟩ = .ok sys) :
    ∀ i < n.numZones, PointersOk (sys.dev.zt.zones i) := by
  have hstart := started_of_init hgeo hinit
  have hinv := (runE_safe
    (I := fun sys : System => Inv n (fun i z => i < n.numZones → ZoneOk n i z) sys.dev.zt)
    (fun _ _ h hev => step_zoneOk hstart h hev) hstart.inv hevs).of_ok hrun
  exact fun i hi => (hinv.zone i hi hi).pointers

/-- An append of three blocks at the start of the first zone, from the second page
of host memory. -/
def appendThree : Event := .cmd .append 0 { cdw12 := 2, prp1 := 4096 }

/-- Its buffer is one segment of the second page. -/
theorem map_appendThree (m : Mem) (map : Mapping) :
    nvmeMapPrp .stub twoZones.toDmaCtrl m 4096 0 1536 map =
      some (nvmeSuccess, ⟨⟨[⟨4096, 1536⟩], 1, 1536⟩, map.iov⟩) := by
  simp [nvmeMapPrp, mapPrpRest, Mapping.add, DmaCtrl.inCmb, twoZones, u32, qemuSglistAdd,
    pciDmaSglistInit]

theorem maps_appendThree (sys : System) : Maps twoZones sys appendThree := by
  intro _ i _ hun
  obtain hpsdt | ⟨status, map, hmap, hstatus⟩ := hun
  · exact hpsdt rfl
  · have hprp₁ : (4096 : UInt64).toNat = 4096 := rfl
    have hprp₂ : (0 : UInt64).toNat = 0 := rfl
    have hlen : twoZones.l2b ((2 : UInt32).toNat % 2 ^ 16 + 1) = 1536 := by decide
    simp only [System.fetch, NvmeRequest.nlb, NvmeCmd.nlb, hprp₁, hprp₂, hlen, map_appendThree,
      Option.some.injEq, Prod.mk.injEq] at hmap
    exact hstatus hmap.1.symm

/-- Two appends of three blocks to a zone of four: the second one is accepted and
takes the pointers past the end of the zone, into the next one. -/
theorem append_overshoots :
    znsInitZoneGeometry twoZones = some twoZones ∧
      znsInitZonedState twoZones = some (twoZones, twoZonesTable) ∧
      Along (System.step twoZones) (Maps twoZones) [appendThree, appendThree] twoZonesStart ∧
      ∃ sys, runE (System.step twoZones) [appendThree, appendThree] twoZonesStart = .ok sys ∧
        ¬ ∀ i < twoZones.numZones, PointersOk (sys.dev.zt.zones i) := by
  refine ⟨rfl, rfl, ⟨maps_appendThree _, fun _ _ => ⟨maps_appendThree _, fun _ _ => trivial⟩⟩, ?_⟩
  have hptr : (runE (System.step twoZones) [appendThree, appendThree] twoZonesStart).toOption.map
      (fun sys => ((sys.dev.zt.zones 0).wPtr, (sys.dev.zt.zones 0).zslba + (sys.dev.zt.zones 0).zcap)) =
        some (6, 4) := by decide +kernel
  match hrun : runE (System.step twoZones) [appendThree, appendThree] twoZonesStart with
  | .error f => simp [hrun, Except.toOption] at hptr
  | .ok sys =>
    refine ⟨sys, rfl, fun hok => ?_⟩
    have hle := (hok 0 (by decide)).le_capacity
    simp [hrun, Except.toOption] at hptr
    omega

theorem write_pointers_ok_small :
    ∃ sys, runE (System.step twoZones) [appendThree, .cmd .mgmtSend 1 { cdw13 := 2 }]
        twoZonesStart = .ok sys ∧ ∀ i < twoZones.numZones, PointersOk (sys.dev.zt.zones i) := by
  have hgeo : znsInitZoneGeometry twoZones = some twoZones := rfl
  have hfits : AppendFits twoZones twoZonesStart appendThree := by
    intro _ i hacc
    have hi : i < 2 := hacc.1
    obtain rfl | rfl : i = 0 ∨ i = 1 := by omega
    · decide
    · decide
  have hevs : Along (System.step twoZones) (fun sys ev => Maps twoZones sys ev ∧
      AppendFits twoZones sys ev) [appendThree, .cmd .mgmtSend 1 { cdw13 := 2 }] twoZonesStart :=
    ⟨⟨maps_appendThree _, hfits⟩, fun _ _ => ⟨⟨trivial, trivial⟩, fun _ _ => trivial⟩⟩
  have hends : (runE (System.step twoZones) [appendThree, .cmd .mgmtSend 1 { cdw13 := 2 }]
      twoZonesStart).isOk = true := by decide +kernel
  cases hrun : runE (System.step twoZones) [appendThree, .cmd .mgmtSend 1 { cdw13 := 2 }]
      twoZonesStart with
  | error f => simp [hrun, Except.isOk, Except.toBool] at hends
  | ok sys => exact ⟨sys, rfl, write_pointers_ok hgeo rfl hevs hrun⟩

end Femu.Zns
