import Femu.Lib.Radix
import Femu.Ocssd.Chunk
import Femu.Ocssd.Geometry
import Femu.Ocssd.WriteRuns

/-!
# Femu.Ocssd.Oc20Address

The addresses of the open-channel SSD 2.0 and the indices of its chunks: `OC20_LBA` puts
an address together, the macros `OC20_LBA_GET_*` take it apart, and three functions number
the chunks (`oc20_lba_to_chunk_index`, `get_chunk_meta_index`, and `oc20_init_chunk_info`,
whose loop goes from the number to the address).

An address has its parts in fields of bits, an index has them as digits in a mixed radix.
Both are one-to-one as long as the fields take no more than the 31 bits of a positive
`int`.
-/

namespace Femu.Ocssd

open Lib Nvme

/-! ## addresses -/

/-- `OC20_LBA`, of four values of type `unsigned int`. -/
def oc20Lba (lbaf : Oc20AddrF) (group punit chunk sectr : Nat) : Nat :=
  u32 (sectr <<< lbaf.secOffset) ||| u32 (chunk <<< lbaf.chkOffset) |||
    u32 (punit <<< lbaf.lunOffset) ||| u32 (group <<< lbaf.grpOffset)

/-- What `oc20_init_namespace` makes of a geometry. -/
def oc20NamespaceOf (geo : Oc20IdGeo) : Oc20Namespace :=
  { geo
    lbaf := oc20InitLbaf geo
    chksPerGrp := u32 (geo.numChk.toNat * geo.numLun.toNat)
    lbads := 12 }

theorem oc20InitNamespace_eq (c : OcSetup) :
    oc20InitNamespace c = (femuOc20InitIdCtrl c).map oc20NamespaceOf := rfl

/-- The value that `oc20_init_namespace` gives to `lns->chks_total`. -/
def oc20ChksTotal (geo : Oc20IdGeo) : Nat :=
  u32 ((oc20NamespaceOf geo).chksPerGrp * geo.numGrp.toNat)

/-- The bits that the four fields take together. -/
def Oc20IdGeo.bits (geo : Oc20IdGeo) : Nat :=
  geo.secField.len + geo.chkField.len + geo.lunField.len + geo.grpField.len

/-- The chunk is one of the geometry. -/
structure Oc20IdGeo.HasChunk (geo : Oc20IdGeo) (group punit chunk : Nat) : Prop where
  grp : group < geo.numGrp.toNat
  lun : punit < geo.numLun.toNat
  chk : chunk < geo.numChk.toNat

/-! ## indices -/

/-- `get_chunk_meta_index`. The sum is of type `unsigned int`, the result an `int`. -/
def getChunkMetaIndex (geo : Oc20IdGeo) (grp lun chk : Nat) : Int :=
  if chk ≥ geo.numChk.toNat then -1
  else if lun ≥ geo.numLun.toNat then -1
  else if grp ≥ geo.numGrp.toNat then -1
  else int32 (geo.numChk.toNat * (grp * geo.numLun.toNat + lun) + chk)

/-- The 32 bits of an `int`. -/
def intBits (v : Int) : Nat := (v % 2 ^ 32).toNat

/-- The `slba` of entry `i` in `oc20_init_chunk_info`, as it is computed: the numbers of
chunks and of parallel units are `int`s, as is the value that goes into the 64 bits of
the entry. An overflow wraps around. -/
def initSlba (lns : Oc20Namespace) (i : Nat) : Nat :=
  let chunks := int32 lns.geo.numChk.toNat
  let perGrp := int32 (lns.geo.numChk.toNat * lns.geo.numLun.toNat)
  intToU64 (intBits ((i : Int).tdiv perGrp * 2 ^ lns.lbaf.grpOffset) |||
    intBits (((i : Int).tmod perGrp).tdiv chunks * 2 ^ lns.lbaf.lunOffset) |||
    intBits ((i : Int).tmod chunks * 2 ^ lns.lbaf.chkOffset))

/-! ## statement -/

/-- The namespace of a geometry encodes its sectors and numbers its chunks one to one. -/
structure AddressesEncode (geo : Oc20IdGeo) : Prop where
  /-- The macros take apart what `OC20_LBA` puts together. -/
  decode : ∀ g p c s, geo.HasChunk g p c → s < geo.clba.toNat →
    let lbaf := oc20InitLbaf geo
    let lba := oc20Lba lbaf g p c s
    lbaf.getGroup lba = g ∧ lbaf.getPunit lba = p ∧ lbaf.getChunk lba = c ∧ lbaf.getSectr lba = s
  /-- What it puts together is valid, -/
  valid : ∀ g p c s, geo.HasChunk g p c → s < geo.clba.toNat →
    oc20LbaValid (oc20NamespaceOf geo) (oc20Lba (oc20InitLbaf geo) g p c s)
  /-- and nothing else is. -/
  encode : ∀ lba, oc20LbaValid (oc20NamespaceOf geo) lba →
    ∃ g p c s, geo.HasChunk g p c ∧ s < geo.clba.toNat ∧
      oc20Lba (oc20InitLbaf geo) g p c s = lba
  /-- The index of a sector's address is that of its chunk, from zero on without gaps. -/
  index : ∀ s < geo.clba.toNat, Set.BijOn
    (fun x : Nat × Nat × Nat => oc20LbaToChunkIndex (oc20NamespaceOf geo)
      (oc20Lba (oc20InitLbaf geo) x.1 x.2.1 x.2.2 s))
    {x | geo.HasChunk x.1 x.2.1 x.2.2} (Set.Iio (oc20ChksTotal geo))
  /-- `get_chunk_meta_index` gives the same index. -/
  metaIndex : ∀ g p c s, geo.HasChunk g p c → s < geo.clba.toNat →
    getChunkMetaIndex geo g p c =
      oc20LbaToChunkIndex (oc20NamespaceOf geo) (oc20Lba (oc20InitLbaf geo) g p c s)
  /-- Entry `i` of the table has the address with index `i`, -/
  slba : ∀ i < oc20ChksTotal geo,
    (oc20InitChunkInfo (oc20NamespaceOf geo) (oc20ChksTotal geo) i).slba =
        initSlba (oc20NamespaceOf geo) i ∧
      oc20LbaToChunkIndex (oc20NamespaceOf geo) (initSlba (oc20NamespaceOf geo) i) = i
  /-- and the entry of a sector's chunk has the address of the chunk's first sector. -/
  first : ∀ g p c s, geo.HasChunk g p c → s < geo.clba.toNat →
    initSlba (oc20NamespaceOf geo) (oc20LbaToChunkIndex (oc20NamespaceOf geo)
      (oc20Lba (oc20InitLbaf geo) g p c s)) = oc20Lba (oc20InitLbaf geo) g p c 0

/-! ## the fields -/

section Encode

variable {geo : Oc20IdGeo} {g p c s : Nat}

theorem Oc20IdGeo.NonEmpty.sec_le (h : geo.NonEmpty) : geo.clba.toNat ≤ 2 ^ geo.secField.len :=
  count_le_field h.sec geo.clba.toNat_lt.le

theorem Oc20IdGeo.NonEmpty.chk_le (h : geo.NonEmpty) : geo.numChk.toNat ≤ 2 ^ geo.chkField.len :=
  count_le_field h.chk geo.numChk.toNat_lt.le

theorem Oc20IdGeo.NonEmpty.lun_le (h : geo.NonEmpty) : geo.numLun.toNat ≤ 2 ^ geo.lunField.len :=
  count_le_field h.lun (by have := geo.numLun.toNat_lt; omega)

theorem Oc20IdGeo.NonEmpty.grp_le (h : geo.NonEmpty) : geo.numGrp.toNat ≤ 2 ^ geo.grpField.len :=
  count_le_field h.grp (by have := geo.numGrp.toNat_lt; omega)

theorem grpOffset_le (hbits : geo.bits ≤ 31) : geo.grpField.offset ≤ 31 := by
  rw [grpOffset_eq]
  rw [Oc20IdGeo.bits] at hbits
  omega

theorem shiftLeft_lt {x w : Nat} (off : Nat) (hx : x < 2 ^ w) (hoff : off + w ≤ 31) :
    x <<< off < 2 ^ 31 := by
  rw [Nat.shiftLeft_eq]
  calc
    x * 2 ^ off < 2 ^ w * 2 ^ off := Nat.mul_lt_mul_of_pos_right hx (Nat.two_pow_pos off)
    _ = 2 ^ (off + w) := by rw [← Nat.pow_add, Nat.add_comm]
    _ ≤ 2 ^ 31 := Nat.pow_le_pow_right (by omega) hoff

/-- Each part is below `2^31` at its place. -/
theorem placed_lt (h : geo.NonEmpty) (hbits : geo.bits ≤ 31) (hx : geo.HasChunk g p c)
    (hs : s < geo.clba.toNat) :
    s <<< geo.secField.offset < 2 ^ 31 ∧ c <<< geo.chkField.offset < 2 ^ 31 ∧
      p <<< geo.lunField.offset < 2 ^ 31 ∧ g <<< geo.grpField.offset < 2 ^ 31 := by
  rw [Oc20IdGeo.bits] at hbits
  have hsec : geo.secField.offset = 0 := rfl
  have hchk := chkOffset_eq geo
  have hlun := lunOffset_eq geo
  have hgrp := grpOffset_eq geo
  exact ⟨shiftLeft_lt _ (Nat.lt_of_lt_of_le hs h.sec_le) (by omega),
    shiftLeft_lt _ (Nat.lt_of_lt_of_le hx.chk h.chk_le) (by omega),
    shiftLeft_lt _ (Nat.lt_of_lt_of_le hx.lun h.lun_le) (by omega),
    shiftLeft_lt _ (Nat.lt_of_lt_of_le hx.grp h.grp_le) (by omega)⟩

theorem oc20Lba_eq_or (h : geo.NonEmpty) (hbits : geo.bits ≤ 31) (hx : geo.HasChunk g p c)
    (hs : s < geo.clba.toNat) :
    oc20Lba (oc20InitLbaf geo) g p c s = s <<< geo.secField.offset |||
      c <<< geo.chkField.offset ||| p <<< geo.lunField.offset ||| g <<< geo.grpField.offset := by
  obtain ⟨hsec, hchk, hlun, hgrp⟩ := placed_lt h hbits hx hs
  simp only [oc20Lba, oc20InitLbaf]
  rw [u32_eq (by omega), u32_eq (by omega), u32_eq (by omega), u32_eq (by omega)]

/-- An address is a number with the digits group, parallel unit, chunk, sector, in bases
that are powers of two. -/
theorem oc20Lba_eq (h : geo.NonEmpty) (hbits : geo.bits ≤ 31) (hx : geo.HasChunk g p c)
    (hs : s < geo.clba.toNat) :
    oc20Lba (oc20InitLbaf geo) g p c s =
      ((g * 2 ^ geo.lunField.len + p) * 2 ^ geo.chkField.len + c) * 2 ^ geo.secField.len + s := by
  have hsec := Nat.lt_of_lt_of_le hs h.sec_le
  have hchk := digit_lt (Nat.lt_of_lt_of_le hx.chk h.chk_le) hsec
  have hlun := digit_lt (Nat.lt_of_lt_of_le hx.lun h.lun_le) hchk
  have hoff : geo.secField.offset = 0 := rfl
  rw [oc20Lba_eq_or h hbits hx hs, hoff, chkOffset_eq, lunOffset_eq, grpOffset_eq,
    Nat.shiftLeft_zero, or_shiftLeft c hsec, or_shiftLeft p hchk, or_shiftLeft g hlun, Nat.pow_add,
    Nat.pow_add]
  ring

/-- The macros take the address apart again. -/
theorem oc20Lba_decode (h : geo.NonEmpty) (hbits : geo.bits ≤ 31) (hx : geo.HasChunk g p c)
    (hs : s < geo.clba.toNat) :
    let lbaf := oc20InitLbaf geo
    let lba := oc20Lba lbaf g p c s
    lbaf.getGroup lba = g ∧ lbaf.getPunit lba = p ∧ lbaf.getChunk lba = c ∧
      lbaf.getSectr lba = s := by
  have hoff := grpOffset_le hbits
  have hsec := Nat.lt_of_lt_of_le hs h.sec_le
  have hchk := Nat.lt_of_lt_of_le hx.chk h.chk_le
  have hlun := Nat.lt_of_lt_of_le hx.lun h.lun_le
  simp only [getGroup_eq, getPunit_eq hoff, getChunk_eq hoff, getSectr_eq hoff,
    oc20Lba_eq h hbits hx hs, mul_add_div_of_lt _ hsec, mul_add_div_of_lt _ hchk,
    mul_add_div_of_lt _ hlun, Nat.mul_add_mod_of_lt hsec, Nat.mul_add_mod_of_lt hchk,
    Nat.mul_add_mod_of_lt hlun, and_self]

theorem oc20Lba_valid (h : geo.NonEmpty) (hbits : geo.bits ≤ 31) (hx : geo.HasChunk g p c)
    (hs : s < geo.clba.toNat) :
    oc20LbaValid (oc20NamespaceOf geo) (oc20Lba (oc20InitLbaf geo) g p c s) := by
  obtain ⟨hgrp, hlun, hchk, hsec⟩ := oc20Lba_decode h hbits hx hs
  refine ⟨?_, ?_, ?_, ?_⟩
  · exact hsec.symm ▸ hs
  · exact hchk.symm ▸ hx.chk
  · exact hlun.symm ▸ hx.lun
  · exact hgrp.symm ▸ hx.grp

/-- A valid address is put together from its digits. -/
theorem exists_oc20Lba (h : geo.NonEmpty) (hbits : geo.bits ≤ 31) {lba : Nat}
    (hv : oc20LbaValid (oc20NamespaceOf geo) lba) :
    ∃ g p c s, geo.HasChunk g p c ∧ s < geo.clba.toNat ∧
      oc20Lba (oc20InitLbaf geo) g p c s = lba := by
  obtain ⟨hsec, hchk, hlun, hgrp⟩ :=
    (@valid_iff_digits (oc20NamespaceOf geo) rfl (grpOffset_le hbits) lba).mp hv
  refine ⟨_, _, _, _, ⟨hgrp, hlun, hchk⟩, hsec, ?_⟩
  rw [oc20Lba_eq h hbits ⟨hgrp, hlun, hchk⟩ hsec]
  simp only [oc20NamespaceOf, Nat.div_add_mod']

/-! ## the numbers of the chunks -/

theorem mul_le_two_pow {a b k l : Nat} (ha : a ≤ 2 ^ k) (hb : b ≤ 2 ^ l) : a * b ≤ 2 ^ (k + l) := by
  rw [Nat.pow_add]
  exact Nat.mul_le_mul ha hb

/-- The products of the counts do not overflow. -/
theorem counts_le (h : geo.NonEmpty) (hbits : geo.bits ≤ 31) :
    geo.numChk.toNat * geo.numLun.toNat * geo.numGrp.toNat ≤ 2 ^ 31 := by
  rw [Oc20IdGeo.bits] at hbits
  exact Nat.le_trans (mul_le_two_pow (mul_le_two_pow h.chk_le h.lun_le) h.grp_le)
    (Nat.pow_le_pow_right (by omega) (by omega))

theorem chksPerGrp_eq (h : geo.NonEmpty) (hbits : geo.bits ≤ 31) :
    (oc20NamespaceOf geo).chksPerGrp = geo.numChk.toNat * geo.numLun.toNat := by
  have hle := Nat.le_trans (Nat.le_mul_of_pos_right (geo.numChk.toNat * geo.numLun.toNat) h.grp)
    (counts_le h hbits)
  exact u32_eq (by omega)

theorem chksTotal_eq (h : geo.NonEmpty) (hbits : geo.bits ≤ 31) :
    oc20ChksTotal geo = geo.numChk.toNat * geo.numLun.toNat * geo.numGrp.toNat := by
  have hle := counts_le h hbits
  rw [oc20ChksTotal, chksPerGrp_eq h hbits]
  exact u32_eq (by omega)

/-- The bases of the index of a chunk. -/
def chunkBases (geo : Oc20IdGeo) : List Nat :=
  [geo.numGrp.toNat, geo.numLun.toNat, geo.numChk.toNat]

theorem number_chunk (geo : Oc20IdGeo) (g p c : Nat) :
    number (chunkBases geo) [g, p, c] = (g * geo.numLun.toNat + p) * geo.numChk.toNat + c := by
  simp only [chunkBases, number, List.prod_cons, List.prod_nil]
  ring

theorem prod_chunkBases (geo : Oc20IdGeo) : (chunkBases geo).prod =
    geo.numChk.toNat * geo.numLun.toNat * geo.numGrp.toNat := by
  simp only [chunkBases, List.prod_cons, List.prod_nil]
  ring

theorem digits_chunk_iff : Digits (chunkBases geo) [g, p, c] ↔ geo.HasChunk g p c := by
  simp only [Digits, chunkBases, List.forall₂_cons, List.Forall₂.nil, and_true]
  constructor
  · rintro ⟨hg, hp, hc⟩
    exact ⟨hg, hp, hc⟩
  · rintro ⟨hg, hp, hc⟩
    exact ⟨hg, hp, hc⟩

theorem chunkIndex_oc20Lba (h : geo.NonEmpty) (hbits : geo.bits ≤ 31) (hx : geo.HasChunk g p c)
    (hs : s < geo.clba.toNat) :
    oc20LbaToChunkIndex (oc20NamespaceOf geo) (oc20Lba (oc20InitLbaf geo) g p c s) =
      number (chunkBases geo) [g, p, c] := by
  obtain ⟨hgrp, hlun, hchk, -⟩ := oc20Lba_decode h hbits hx hs
  rw [chunkIndex_eq (chksPerGrp_eq h hbits) (oc20Lba_valid h hbits hx hs), number_chunk]
  simp only [oc20NamespaceOf, hgrp, hlun, hchk]

theorem chunk_bijOn (geo : Oc20IdGeo) :
    Set.BijOn (fun x : Nat × Nat × Nat => [x.1, x.2.1, x.2.2])
      {x | geo.HasChunk x.1 x.2.1 x.2.2} {ds | Digits (chunkBases geo) ds} := by
  refine ⟨fun x hx => digits_chunk_iff.mpr hx, fun x _ y _ heq => ?_, fun ds hds => ?_⟩
  · simpa [Prod.ext_iff] using heq
  · obtain _ | ⟨hg, _ | ⟨hp, _ | ⟨hc, ⟨⟩⟩⟩⟩ := hds
    exact ⟨(_, _, _), ⟨hg, hp, hc⟩, rfl⟩

theorem chunkIndex_bijOn (h : geo.NonEmpty) (hbits : geo.bits ≤ 31) (hs : s < geo.clba.toNat) :
    Set.BijOn (fun x : Nat × Nat × Nat => oc20LbaToChunkIndex (oc20NamespaceOf geo)
        (oc20Lba (oc20InitLbaf geo) x.1 x.2.1 x.2.2 s))
      {x | geo.HasChunk x.1 x.2.1 x.2.2} (Set.Iio (oc20ChksTotal geo)) := by
  rw [chksTotal_eq h hbits, ← prod_chunkBases]
  exact ((number_bijOn (chunkBases geo)).comp (chunk_bijOn geo)).congr fun x hx =>
    (chunkIndex_oc20Lba h hbits hx hs).symm

/-- `get_chunk_meta_index` adds up the same digits. -/
theorem getChunkMetaIndex_eq (h : geo.NonEmpty) (hbits : geo.bits ≤ 31)
    (hx : geo.HasChunk g p c) :
    getChunkMetaIndex geo g p c = number (chunkBases geo) [g, p, c] := by
  have hlt := number_lt (digits_chunk_iff.mpr hx)
  have hle := counts_le h hbits
  have hchk := hx.chk
  have hlun := hx.lun
  have hgrp := hx.grp
  rw [number_chunk, prod_chunkBases] at hlt
  rw [getChunkMetaIndex, if_neg (by omega), if_neg (by omega), if_neg (by omega), number_chunk,
    Nat.mul_comm geo.numChk.toNat, int32_eq (by omega)]

/-! ## the table -/

/-- Division in `int`, also by a count of `2^31`, which is negative there. -/
theorem tdiv_int32 {x m : Nat} (hx : x < 2 ^ 31) (hm : m ≤ 2 ^ 31) :
    (x : Int).tdiv (int32 m) = (x / m : Nat) ∧ (x : Int).tmod (int32 m) = (x % m : Nat) := by
  obtain hlt | rfl := Nat.lt_or_eq_of_le hm
  · rw [int32_eq hlt]
    exact ⟨(Int.ofNat_tdiv x m).symm, (Int.ofNat_tmod x m).symm⟩
  · have hmin : int32 (2 ^ 31) = -((2 ^ 31 : Nat) : Int) := by decide
    rw [hmin, Int.tdiv_neg, Int.tmod_neg, ← Int.ofNat_tdiv, ← Int.ofNat_tmod, Nat.div_eq_of_lt hx]
    exact ⟨rfl, rfl⟩

theorem intBits_shiftLeft {x off : Nat} (h : x <<< off < 2 ^ 31) :
    intBits ((x : Int) * 2 ^ off) = x <<< off := by
  rw [Nat.shiftLeft_eq] at h ⊢
  have hcast : (x : Int) * 2 ^ off = (x * 2 ^ off : Nat) := by simp
  rw [intBits, hcast]
  omega

theorem hasChunk_of_lt {i : Nat} (hi : i < geo.numChk.toNat * geo.numLun.toNat * geo.numGrp.toNat) :
    geo.HasChunk (i / (geo.numChk.toNat * geo.numLun.toNat))
      (i % (geo.numChk.toNat * geo.numLun.toNat) / geo.numChk.toNat) (i % geo.numChk.toNat) := by
  have hpos : 0 < geo.numChk.toNat * geo.numLun.toNat :=
    Nat.pos_of_mul_pos_right (Nat.lt_of_le_of_lt (Nat.zero_le i) hi)
  have hchk := Nat.pos_of_mul_pos_right hpos
  refine ⟨?_, ?_, Nat.mod_lt i hchk⟩
  · rw [Nat.div_lt_iff_lt_mul hpos, Nat.mul_comm]
    exact hi
  · rw [Nat.div_lt_iff_lt_mul hchk]
    exact (Nat.mod_lt i hpos).trans_eq (Nat.mul_comm _ _)

/-- The parts of the number of an entry. -/
theorem number_parts (geo : Oc20IdGeo) (i : Nat) :
    number (chunkBases geo) [i / (geo.numChk.toNat * geo.numLun.toNat),
      i % (geo.numChk.toNat * geo.numLun.toNat) / geo.numChk.toNat, i % geo.numChk.toNat] = i := by
  have hlow : i % geo.numChk.toNat = i % (geo.numChk.toNat * geo.numLun.toNat) % geo.numChk.toNat :=
    (Nat.mod_mul_right_mod i _ _).symm
  calc
    _ = i / (geo.numChk.toNat * geo.numLun.toNat) * (geo.numChk.toNat * geo.numLun.toNat) +
        (i % (geo.numChk.toNat * geo.numLun.toNat) / geo.numChk.toNat * geo.numChk.toNat +
          i % (geo.numChk.toNat * geo.numLun.toNat) % geo.numChk.toNat) := by
      rw [number_chunk, hlow]
      ring
    _ = i := by rw [Nat.div_add_mod', Nat.div_add_mod']

/-- The `slba` of an entry has the parts of its number, and no overflow has an effect. -/
theorem initSlba_eq (h : geo.NonEmpty) (hbits : geo.bits ≤ 31) {i : Nat}
    (hi : i < oc20ChksTotal geo) :
    initSlba (oc20NamespaceOf geo) i =
      (i / (geo.numChk.toNat * geo.numLun.toNat)) <<< geo.grpField.offset |||
        (i % (geo.numChk.toNat * geo.numLun.toNat) / geo.numChk.toNat) <<< geo.lunField.offset |||
        (i % geo.numChk.toNat) <<< geo.chkField.offset := by
  have hle := counts_le h hbits
  rw [chksTotal_eq h hbits] at hi
  obtain ⟨-, hchk, hlun, hgrp⟩ := placed_lt h hbits (hasChunk_of_lt hi) h.sec
  have hper : geo.numChk.toNat * geo.numLun.toNat ≤ 2 ^ 31 :=
    Nat.le_trans (Nat.le_mul_of_pos_right _ h.grp) hle
  have hcnt : geo.numChk.toNat ≤ 2 ^ 31 :=
    Nat.le_trans (Nat.le_mul_of_pos_right _ h.lun) hper
  have hmod : i % (geo.numChk.toNat * geo.numLun.toNat) < 2 ^ 31 :=
    Nat.lt_of_le_of_lt (Nat.mod_le _ _) (by omega)
  obtain ⟨hdivPer, hmodPer⟩ := tdiv_int32 (show i < 2 ^ 31 by omega) hper
  obtain ⟨hdivCnt, -⟩ := tdiv_int32 hmod hcnt
  obtain ⟨-, hmodCnt⟩ := tdiv_int32 (show i < 2 ^ 31 by omega) hcnt
  have hor := Nat.or_lt_two_pow (Nat.or_lt_two_pow hgrp hlun) hchk
  simp only [initSlba, oc20NamespaceOf, oc20InitLbaf, hdivPer, hmodPer, hdivCnt, hmodCnt,
    intBits_shiftLeft hgrp, intBits_shiftLeft hlun, intBits_shiftLeft hchk]
  rw [intToU64, u32_eq (by omega), if_pos hor]

/-- It is the address of the first sector of the chunk with that number. -/
theorem initSlba_eq_oc20Lba (h : geo.NonEmpty) (hbits : geo.bits ≤ 31) {i : Nat}
    (hi : i < oc20ChksTotal geo) :
    initSlba (oc20NamespaceOf geo) i = oc20Lba (oc20InitLbaf geo)
      (i / (geo.numChk.toNat * geo.numLun.toNat))
      (i % (geo.numChk.toNat * geo.numLun.toNat) / geo.numChk.toNat) (i % geo.numChk.toNat) 0 := by
  rw [initSlba_eq h hbits hi]
  rw [chksTotal_eq h hbits] at hi
  rw [oc20Lba_eq_or h hbits (hasChunk_of_lt hi) h.sec, Nat.zero_shiftLeft, Nat.zero_or]
  ac_rfl

theorem chunkIndex_initSlba (h : geo.NonEmpty) (hbits : geo.bits ≤ 31) {i : Nat}
    (hi : i < oc20ChksTotal geo) :
    oc20LbaToChunkIndex (oc20NamespaceOf geo) (initSlba (oc20NamespaceOf geo) i) = i := by
  rw [initSlba_eq_oc20Lba h hbits hi]
  rw [chksTotal_eq h hbits] at hi
  rw [chunkIndex_oc20Lba h hbits (hasChunk_of_lt hi) h.sec, number_parts]

/-- The entry of a chunk has the address of its first sector. -/
theorem initSlba_chunkIndex (h : geo.NonEmpty) (hbits : geo.bits ≤ 31) (hx : geo.HasChunk g p c)
    (hs : s < geo.clba.toNat) :
    initSlba (oc20NamespaceOf geo) (oc20LbaToChunkIndex (oc20NamespaceOf geo)
      (oc20Lba (oc20InitLbaf geo) g p c s)) = oc20Lba (oc20InitLbaf geo) g p c 0 := by
  have hidx := chunkIndex_oc20Lba h hbits hx hs
  have hlt := (chunkIndex_bijOn h hbits hs).mapsTo
    (show (g, p, c) ∈ {x : Nat × Nat × Nat | geo.HasChunk x.1 x.2.1 x.2.2} from hx)
  rw [initSlba_eq_oc20Lba h hbits hlt]
  -- the parts of the index are the digits it was made of
  have hlt' := hlt
  rw [Set.mem_Iio, chksTotal_eq h hbits] at hlt'
  have hdigits := (number_bijOn (chunkBases geo)).injOn
    (digits_chunk_iff.mpr (hasChunk_of_lt hlt')) (digits_chunk_iff.mpr hx)
    ((number_parts geo _).trans hidx)
  simp only [List.cons.injEq, and_true] at hdigits
  obtain ⟨hg, hp, hc⟩ := hdigits
  rw [hg, hp, hc]

/-! ## main result -/

/-- **Addresses of the open-channel SSD 2.0**: with at least one of each kind, and fields of
up to 31 bits in all, addresses and chunk numbers are one to one. -/
theorem oc20_addresses_encode (h : geo.NonEmpty) (hbits : geo.bits ≤ 31) : AddressesEncode geo where
  decode _ _ _ _ hx hs := oc20Lba_decode h hbits hx hs
  valid _ _ _ _ hx hs := oc20Lba_valid h hbits hx hs
  encode _ hv := exists_oc20Lba h hbits hv
  index _ hs := chunkIndex_bijOn h hbits hs
  metaIndex _ _ _ _ hx hs := by
    rw [getChunkMetaIndex_eq h hbits hx, chunkIndex_oc20Lba h hbits hx hs]
  slba i hi := by
    refine ⟨?_, chunkIndex_initSlba h hbits hi⟩
    rw [initSlba_eq h hbits hi, oc20InitChunkInfo, if_pos hi]
    rfl
  first _ _ _ _ hx hs := initSlba_chunkIndex h hbits hx hs

end Encode

/-- 1 MiB, one channel of three LUNs, three pages of five sectors. -/
def threeUnits : OcSetup :=
  ⟨⟨1, 5, 3, 0, 0, 0, 0, 0, 2⟩, ⟨5, 3, 1, 3, 1, 16⟩⟩

/-- One group, three parallel units of five chunks of fifteen sectors: no field for the group,
and fields with values that are not used for all the others. -/
theorem oc20_addresses_encode_small :
    oc20InitNamespace threeUnits = some (oc20NamespaceOf ⟨1, 3, 5, 15⟩) ∧
      AddressesEncode ⟨1, 3, 5, 15⟩ := by
  have hgeo : femuOc20InitIdCtrl threeUnits = some ⟨1, 3, 5, 15⟩ := rfl
  refine ⟨?_, oc20_addresses_encode ⟨by decide, by decide, by decide, by decide⟩ (by decide)⟩
  rw [oc20InitNamespace_eq, hgeo]
  rfl

end Femu.Ocssd
