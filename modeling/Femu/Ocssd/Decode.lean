import Femu.Ocssd.Oc12

/-!
# Femu.Ocssd.Decode

What the masks of `oc12_init_more` leave of the address of a block (`ocssd/oc12.c`). A mask is
computed in 32 bits and stored in 64: a field that ends past bit 31 takes all the bits above it
along, and a field that begins past bit 31 reads as 0. `MasksReach` says when channel, LUN and
block still select what they should.
-/

namespace Femu.Ocssd

open Nvme Lib

/-! ## masks past bit 31 -/

/-- The mask of a field that ends past bit 31. -/
theorem fieldMask_wide {len offset : Nat} (hlen : len < 32) (hoff : offset < 32)
    (hwide : 32 ≤ offset + len) : fieldMask len offset = 2 ^ 64 - 2 ^ offset := by
  have hpos : 0 < 2 ^ offset := Nat.two_pow_pos offset
  have hoff' : 2 ^ offset ≤ 2 ^ 31 := Nat.pow_le_pow_right (by omega) (by omega)
  have hone : 0 < 2 ^ len := Nat.two_pow_pos len
  have hword : (((1#32 <<< len) - 1#32) <<< offset).toNat = 2 ^ 32 - 2 ^ offset := by
    obtain ⟨k, hk⟩ : 2 ^ 32 ∣ 2 ^ len * 2 ^ offset := by
      rw [← Nat.pow_add]
      exact Nat.pow_dvd_pow 2 (by omega)
    have hkpos : 0 < k := by
      have hmul := Nat.mul_pos hone hpos
      by_contra hzero
      rw [hk, show k = 0 by omega] at hmul
      omega
    rw [BitVec.toNat_shiftLeft, toNat_ones hlen, Nat.shiftLeft_eq, Nat.sub_mul, hk, Nat.one_mul,
      show 2 ^ 32 * k - 2 ^ offset = 2 ^ 32 - 2 ^ offset + 2 ^ 32 * (k - 1) by omega,
      Nat.add_mul_mod_self_left, Nat.mod_eq_of_lt (by omega)]
  have hmsb : (((1#32 <<< len) - 1#32) <<< offset).msb = true := by
    rw [BitVec.msb_eq_decide, hword]
    exact decide_eq_true (by omega)
  rw [fieldMask, Nat.mod_eq_of_lt hlen, Nat.mod_eq_of_lt hoff, BitVec.toNat_signExtend, hmsb,
    BitVec.toNat_setWidth, hword, if_pos rfl, Nat.mod_eq_of_lt (by omega)]
  omega

/-- A field that ends past bit 31 takes everything above it along. -/
theorem AddrField.get_wide {f : AddrField} {x : Nat} (hmask : f.mask = fieldMask f.len f.offset)
    (hlen : f.len < 32) (hoff : f.offset < 32) (hwide : 32 ≤ f.offset + f.len) (hx : x < 2 ^ 64) :
    f.get x = x / 2 ^ f.offset := by
  have hsplit : 2 ^ 64 = 2 ^ (64 - f.offset) * 2 ^ f.offset := by
    rw [← Nat.pow_add, Nat.sub_add_cancel (by omega)]
  have hones : 2 ^ 64 - 2 ^ f.offset = (2 ^ (64 - f.offset) - 1) * 2 ^ f.offset := by
    rw [Nat.sub_mul, ← hsplit, Nat.one_mul]
  have hlt : x / 2 ^ f.offset < 2 ^ (64 - f.offset) := by
    rw [Nat.div_lt_iff_lt_mul (Nat.two_pow_pos _), ← hsplit]
    exact hx
  rw [AddrField.get, hmask, fieldMask_wide hlen hoff hwide, hones, field_eq, Nat.mod_eq_of_lt hlt]

/-- A field that begins past bit 31 reads as 0. -/
theorem AddrField.get_lost {f : AddrField} (hmask : f.mask = fieldMask f.len f.offset)
    (hoff : 32 ≤ f.offset) (hlen : f.offset + f.len ≤ 63) (x : Nat) : f.get x = 0 := by
  have hmod : f.offset % 32 = f.offset - 32 := by omega
  have hsame : fieldMask f.len f.offset = fieldMask f.len (f.offset - 32) := by
    rw [fieldMask, fieldMask, hmod, Nat.mod_eq_of_lt (show f.offset - 32 < 32 by omega)]
  have hlt : f.mask < 2 ^ f.offset := by
    have hpow : 2 ^ f.len * 2 ^ (f.offset - 32) ≤ 2 ^ 31 := by
      rw [← Nat.pow_add]
      exact Nat.pow_le_pow_right (by omega) (by omega)
    have hge : 2 ^ 32 ≤ 2 ^ f.offset := Nat.pow_le_pow_right (by omega) hoff
    have hle := Nat.mul_le_mul_right (2 ^ (f.offset - 32)) (Nat.sub_le (2 ^ f.len) 1)
    rw [hmask, hsame, fieldMask_eq (by omega)]
    omega
  rw [AddrField.get, Nat.shiftRight_eq_div_pow]
  exact Nat.div_eq_of_lt (Nat.and_le_right.trans_lt hlt)

/-- A field without bits reads as 0. -/
theorem AddrField.get_empty {f : AddrField} (hmask : f.mask = fieldMask f.len f.offset)
    (hlen : f.len = 0) (x : Nat) : f.get x = 0 := by
  have hzero : fieldMask 0 f.offset = 0 := by simp [fieldMask]
  rw [AddrField.get, hmask, hlen, hzero, Nat.and_zero, Nat.zero_shiftRight]

/-- What a field reads depends on the bits from its offset on. -/
theorem AddrField.get_congr {f : AddrField} {x y : Nat} (h : x / 2 ^ f.offset = y / 2 ^ f.offset) :
    f.get x = f.get y := by
  rw [AddrField.get, AddrField.get, Nat.shiftRight_and_distrib, Nat.shiftRight_and_distrib,
    Nat.shiftRight_eq_div_pow x, Nat.shiftRight_eq_div_pow y, h]

/-- A field that ends at bit 31 at the latest. -/
theorem AddrField.get_narrow {f : AddrField} (hmask : f.mask = fieldMask f.len f.offset)
    (hend : f.offset + f.len ≤ 31) (x : Nat) : f.get x = x / 2 ^ f.offset % 2 ^ f.len := by
  rw [AddrField.get, hmask, fieldMask_eq hend, field_eq]

/-! ## the fields of an address -/

/-- The fields of a geometry with a block do not take up more than this. -/
structure FieldsNarrow (ln : Oc12Ctrl) : Prop where
  blkOffset : ln.ppaf.blk.offset ≤ 26
  blkLen : ln.ppaf.blk.len ≤ 16
  lunLen : ln.ppaf.lun.len ≤ 7
  chLen : ln.ppaf.ch.len ≤ 5

/-- The counts that are accepted. -/
theorem oc12InitMore_le {p : OcCtrlParams} {nsBlks : UInt64} {ln : Oc12Ctrl}
    (h : oc12InitMore p nsBlks = some ln) : ln.params.secPerPg = p.secsPerPg.toNat ∧
      ln.group.numPln ≤ 2 ^ 2 ∧ ln.group.numLun ≤ 2 ^ 7 ∧ ln.group.numCh ≤ 2 ^ 5 := by
  unfold oc12InitMore at h
  dsimp only at h
  split at h
  case isTrue => cases h
  case isFalse =>
    split at h
    case isTrue => cases h
    case isFalse hassert =>
      split at h
      case isTrue => cases h
      case isFalse =>
        split at h
        case isTrue => cases h
        case isFalse hpln =>
          cases h
          rw [not_not, femuMaxNumChnls, femuMaxNumChips] at hassert
          exact ⟨rfl, show p.numPln.toNat ≤ 2 ^ 2 by omega, hassert.2, hassert.1⟩

theorem fieldsNarrow_of_init {p : OcCtrlParams} {nsBlks : UInt64} {ln : Oc12Ctrl}
    (h : oc12InitMore p nsBlks = some ln) (hblk : 0 < ln.group.numBlk) : FieldsNarrow ln := by
  have hwf := (oc12InitMore_wf h).1
  obtain ⟨hsec, hpln, hlun, hch⟩ := oc12InitMore_le h
  have hsmall := hwf.small
  simp only [List.mem_cons, List.not_mem_nil, or_false, forall_eq_or_imp, forall_eq] at hsmall
  obtain ⟨-, -, hblk', hpg, -, -⟩ := hsmall
  have hsec' : ln.params.secPerPg ≤ 2 ^ 8 := by
    rw [hsec]
    exact p.secsPerPg.toNat_lt.le
  have hsecLen := qemuFls_le hwf.sec hsec' (by omega)
  have hplnLen := qemuFls_le hwf.pln hpln (by omega)
  have hpgLen := qemuFls_le hwf.pg hpg.le (by omega)
  rw [← hwf.numPln_eq] at hplnLen
  rw [← hwf.numPg_eq] at hpgLen
  constructor
  case blkOffset =>
    rw [hwf.ppaf]
    simp only [oc12InitPpaf, AddrField.above]
    omega
  case blkLen =>
    rw [hwf.ppaf]
    exact qemuFls_le hblk hblk'.le (by omega)
  case lunLen =>
    rw [hwf.ppaf, oc12InitPpaf, hwf.numLun_eq]
    exact qemuFls_le hwf.lun hlun (by omega)
  case chLen =>
    rw [hwf.ppaf, oc12InitPpaf, hwf.numCh_eq]
    exact qemuFls_le hwf.ch hch (by omega)

section Address

variable {ln : Oc12Ctrl} {f : Oc12Ppa}

/-- What lies below the block. -/
def ppaLow (ln : Oc12Ctrl) (f : Oc12Ppa) : Nat :=
  f.sec + f.pln * 2 ^ ln.ppaf.pln.offset + f.pg * 2 ^ ln.ppaf.pg.offset

/-- The values of an address fit into their fields. -/
theorem fits_of_inGeometry (hwf : ln.Wf) (hf : InGeometry ln f) :
    ∀ x ∈ layout ln f, x.2 < 2 ^ x.1.len := by
  have hsmall := hwf.small
  simp only [List.mem_cons, List.not_mem_nil, or_false, forall_eq_or_imp, forall_eq] at hsmall
  obtain ⟨hch, hlun, hblk, hpg, hpln, hsec⟩ := hsmall
  have hfit : ∀ {v count : Nat}, v < count → count < 2 ^ 16 → v < 2 ^ qemuFls (count - 1) :=
    fun hv hcount => lt_two_pow_qemuFls hv (by omega)
  rw [layout, hwf.ppaf]
  simp only [oc12InitPpaf, AddrField.above, hwf.numCh_eq, hwf.numLun_eq, hwf.numPln_eq,
    hwf.numPg_eq, List.mem_cons, List.not_mem_nil, or_false, forall_eq_or_imp, forall_eq]
  exact ⟨hfit hf.sec hsec, hfit hf.pln hpln, hfit hf.pg hpg, hfit hf.blk hblk, hfit hf.lun hlun,
    hfit hf.ch hch⟩

theorem ppaLow_lt (hwf : ln.Wf) (hf : InGeometry ln f) : ppaLow ln f < 2 ^ ln.ppaf.blk.offset := by
  have hfits := fits_of_inGeometry hwf hf
  rw [layout] at hfits
  simp only [List.mem_cons, List.not_mem_nil, or_false, forall_eq_or_imp, forall_eq] at hfits
  obtain ⟨hsec, hpln, hpg, -⟩ := hfits
  rw [hwf.ppaf] at hsec hpln hpg
  rw [ppaLow, hwf.ppaf]
  have hsec' : f.sec < 2 ^ (oc12InitPpaf ln.params ln.group).pln.offset := by
    simpa [oc12InitPpaf, AddrField.above] using hsec
  exact add_mul_two_pow_lt (add_mul_two_pow_lt hsec' hpln) hpg

/-- Sector, plane and page lie below the block, the LUN and the channel above it. -/
theorem encodePpa_eq (hwf : ln.Wf) : encodePpa ln f = ppaLow ln f + 2 ^ ln.ppaf.blk.offset *
    (f.blk + 2 ^ ln.ppaf.blk.len * (f.lun + 2 ^ ln.ppaf.lun.len * f.ch)) := by
  rw [encodePpa, layout, ppaLow, hwf.ppaf]
  simp only [packFields, List.map_cons, List.map_nil, List.sum_cons, List.sum_nil, oc12InitPpaf,
    AddrField.above, Nat.pow_add]
  ring

theorem encodePpa_div_blk (hwf : ln.Wf) (hf : InGeometry ln f) :
    encodePpa ln f / 2 ^ ln.ppaf.blk.offset =
      f.blk + 2 ^ ln.ppaf.blk.len * (f.lun + 2 ^ ln.ppaf.lun.len * f.ch) := by
  rw [encodePpa_eq hwf, Nat.add_mul_div_left _ _ (Nat.two_pow_pos _),
    Nat.div_eq_of_lt (ppaLow_lt hwf hf), Nat.zero_add]

theorem lun_offset (hwf : ln.Wf) : ln.ppaf.lun.offset = ln.ppaf.blk.offset + ln.ppaf.blk.len := by
  rw [hwf.ppaf]
  rfl

theorem ch_offset (hwf : ln.Wf) : ln.ppaf.ch.offset = ln.ppaf.lun.offset + ln.ppaf.lun.len := by
  rw [hwf.ppaf]
  rfl

theorem encodePpa_div_lun (hwf : ln.Wf) (hf : InGeometry ln f) :
    encodePpa ln f / 2 ^ ln.ppaf.lun.offset = f.lun + 2 ^ ln.ppaf.lun.len * f.ch := by
  have hblk := fits_of_inGeometry hwf hf (ln.ppaf.blk, f.blk) (by simp [layout])
  rw [lun_offset hwf, Nat.pow_add, ← Nat.div_div_eq_div_mul, encodePpa_div_blk hwf hf,
    Nat.add_mul_div_left _ _ (Nat.two_pow_pos _), Nat.div_eq_of_lt hblk, Nat.zero_add]

theorem encodePpa_div_ch (hwf : ln.Wf) (hf : InGeometry ln f) :
    encodePpa ln f / 2 ^ ln.ppaf.ch.offset = f.ch := by
  have hlun := fits_of_inGeometry hwf hf (ln.ppaf.lun, f.lun) (by simp [layout])
  rw [ch_offset hwf, Nat.pow_add, ← Nat.div_div_eq_div_mul, encodePpa_div_lun hwf hf,
    Nat.add_mul_div_left _ _ (Nat.two_pow_pos _), Nat.div_eq_of_lt hlun, Nat.zero_add]

theorem encodePpa_lt (hwf : ln.Wf) (hnarrow : FieldsNarrow ln) (hf : InGeometry ln f) :
    encodePpa ln f < 2 ^ 64 := by
  have hch := fits_of_inGeometry hwf hf (ln.ppaf.ch, f.ch) (by simp [layout])
  have hdiv := encodePpa_div_ch hwf hf
  have hlun := lun_offset hwf
  have hch' := ch_offset hwf
  obtain ⟨hoff, hblkLen, hlunLen, hchLen⟩ := hnarrow
  have hlt : encodePpa ln f < 2 ^ ln.ppaf.ch.len * 2 ^ ln.ppaf.ch.offset := by
    rwa [← Nat.div_lt_iff_lt_mul (Nat.two_pow_pos _), hdiv]
  refine hlt.trans_le ?_
  rw [← Nat.pow_add]
  exact Nat.pow_le_pow_right (by omega) (by omega)

/-- The masks reach channel and LUN: each of them begins at bit 31 at the latest, or has one
value only, or the channels come out of the field of the LUNs, as their next digit. -/
def MasksReach (ln : Oc12Ctrl) : Prop :=
  (ln.ppaf.lun.offset < 32 ∨ ln.group.numLun = 1 ∧ ln.group.numCh = 1) ∧
    (ln.ppaf.ch.offset < 32 ∨ ln.group.numCh = 1 ∨ ln.group.numLun = 2 ^ ln.ppaf.lun.len)

instance (ln : Oc12Ctrl) : Decidable (MasksReach ln) := inferInstanceAs (Decidable (_ ∧ _))

/-- The masks are those of the fields. -/
theorem mask_eq (hwf : ln.Wf) : ln.ppaf.blk.mask = fieldMask ln.ppaf.blk.len ln.ppaf.blk.offset ∧
    ln.ppaf.lun.mask = fieldMask ln.ppaf.lun.len ln.ppaf.lun.offset ∧
    ln.ppaf.ch.mask = fieldMask ln.ppaf.ch.len ln.ppaf.ch.offset := by
  rw [hwf.ppaf]
  exact ⟨rfl, rfl, rfl⟩

/-- The block, where the field of the LUNs begins in the first 32 bits. -/
theorem get_blk (hwf : ln.Wf) (hf : InGeometry ln f) (hoff : ln.ppaf.lun.offset < 32) :
    ln.ppaf.blk.get (encodePpa ln f) = f.blk := by
  have hend := lun_offset hwf
  have hblk := fits_of_inGeometry hwf hf (ln.ppaf.blk, f.blk) (by simp [layout])
  rw [AddrField.get_narrow (mask_eq hwf).1 (by omega), encodePpa_div_blk hwf hf,
    Nat.add_mul_mod_self_left, Nat.mod_eq_of_lt hblk]

/-- Else it has the LUN and the channel on top. -/
theorem get_blk_wide (hwf : ln.Wf) (hnarrow : FieldsNarrow ln) (hf : InGeometry ln f)
    (hoff : 32 ≤ ln.ppaf.lun.offset) : ln.ppaf.blk.get (encodePpa ln f) =
      f.blk + 2 ^ ln.ppaf.blk.len * (f.lun + 2 ^ ln.ppaf.lun.len * f.ch) := by
  have hend := lun_offset hwf
  have hblkOff := hnarrow.blkOffset
  have hblkLen := hnarrow.blkLen
  rw [AddrField.get_wide (mask_eq hwf).1 (by omega) (by omega) (by omega)
    (encodePpa_lt hwf hnarrow hf), encodePpa_div_blk hwf hf]

theorem get_lun (hwf : ln.Wf) (hf : InGeometry ln f) (hoff : ln.ppaf.ch.offset < 32) :
    ln.ppaf.lun.get (encodePpa ln f) = f.lun := by
  have hend := ch_offset hwf
  have hlun := fits_of_inGeometry hwf hf (ln.ppaf.lun, f.lun) (by simp [layout])
  rw [AddrField.get_narrow (mask_eq hwf).2.1 (by omega), encodePpa_div_lun hwf hf,
    Nat.add_mul_mod_self_left, Nat.mod_eq_of_lt hlun]

theorem get_lun_wide (hwf : ln.Wf) (hnarrow : FieldsNarrow ln) (hf : InGeometry ln f)
    (hlun : ln.ppaf.lun.offset < 32) (hoff : 32 ≤ ln.ppaf.ch.offset) :
    ln.ppaf.lun.get (encodePpa ln f) = f.lun + 2 ^ ln.ppaf.lun.len * f.ch := by
  have hend := ch_offset hwf
  have hlunLen := hnarrow.lunLen
  rw [AddrField.get_wide (mask_eq hwf).2.1 (by omega) hlun (by omega)
    (encodePpa_lt hwf hnarrow hf), encodePpa_div_lun hwf hf]

theorem get_ch (hwf : ln.Wf) (hnarrow : FieldsNarrow ln) (hf : InGeometry ln f)
    (hoff : ln.ppaf.ch.offset < 32) : ln.ppaf.ch.get (encodePpa ln f) = f.ch := by
  have hch := fits_of_inGeometry hwf hf (ln.ppaf.ch, f.ch) (by simp [layout])
  have hchLen := hnarrow.chLen
  by_cases hend : ln.ppaf.ch.offset + ln.ppaf.ch.len ≤ 31
  · rw [AddrField.get_narrow (mask_eq hwf).2.2 hend, encodePpa_div_ch hwf hf,
      Nat.mod_eq_of_lt hch]
  · rw [AddrField.get_wide (mask_eq hwf).2.2 (by omega) hoff (by omega)
      (encodePpa_lt hwf hnarrow hf), encodePpa_div_ch hwf hf]

/-- The channel reads as 0 where its field begins past bit 31. -/
theorem get_ch_lost (hwf : ln.Wf) (hnarrow : FieldsNarrow ln) (hoff : 32 ≤ ln.ppaf.ch.offset)
    (x : Nat) : ln.ppaf.ch.get x = 0 := by
  have hlun := lun_offset hwf
  have hch := ch_offset hwf
  obtain ⟨hblkOff, hblkLen, hlunLen, hchLen⟩ := hnarrow
  exact AddrField.get_lost (mask_eq hwf).2.2 hoff (by omega) x

theorem get_lun_lost (hwf : ln.Wf) (hnarrow : FieldsNarrow ln) (hoff : 32 ≤ ln.ppaf.lun.offset)
    (x : Nat) : ln.ppaf.lun.get x = 0 := by
  have hlun := lun_offset hwf
  obtain ⟨hblkOff, hblkLen, hlunLen, hchLen⟩ := hnarrow
  exact AddrField.get_lost (mask_eq hwf).2.1 hoff (by omega) x

/-- **Decoding**: where the masks reach, the address selects its unit and its block. -/
theorem decode_of_reach (hwf : ln.Wf) (hnarrow : FieldsNarrow ln) (hreach : MasksReach ln)
    (hf : InGeometry ln f) :
    ln.ppaf.ch.get (encodePpa ln f) * ln.group.numLun + ln.ppaf.lun.get (encodePpa ln f) =
        f.ch * ln.group.numLun + f.lun ∧
      ln.ppaf.blk.get (encodePpa ln f) = f.blk := by
  obtain ⟨hlun, hch⟩ := hreach
  have hchlt := hf.ch
  have hlunlt := hf.lun
  by_cases hlunOff : ln.ppaf.lun.offset < 32
  case neg =>
    obtain ⟨hone, hone'⟩ := hlun.resolve_left hlunOff
    have hend := ch_offset hwf
    have hzero : f.lun = 0 ∧ f.ch = 0 := ⟨by omega, by omega⟩
    rw [get_blk_wide hwf hnarrow hf (by omega), get_lun_lost hwf hnarrow (by omega),
      get_ch_lost hwf hnarrow (by omega), hzero.1, hzero.2]
    simp
  case pos =>
    refine ⟨?_, get_blk hwf hf hlunOff⟩
    by_cases hchOff : ln.ppaf.ch.offset < 32
    case pos => rw [get_lun hwf hf hchOff, get_ch hwf hnarrow hf hchOff]
    case neg =>
      rw [get_lun_wide hwf hnarrow hf hlunOff (by omega), get_ch_lost hwf hnarrow (by omega),
        Nat.zero_mul, Nat.zero_add]
      cases hch.resolve_left hchOff with
      | inl hone =>
          have hzero : f.ch = 0 := by omega
          simp [hzero]
      | inr hpow => rw [hpow, Nat.mul_comm, Nat.add_comm]

end Address

end Femu.Ocssd
