import Mathlib.Data.List.Chain
import Femu.Ocssd.Oc20

/-!
# Femu.Ocssd.Oc20Bounds

Which addresses a successful `oc20_rw` hands on. The write check looks at the
first address of every run only, and takes an address for a continuation of the
run when its chunk index is the same; the read check marks an address that does
not exist as unwritten and lets it through. The addresses of an accepted command
all exist exactly when a write has no aliases and no overruns, and a read only
names existing sectors.
-/

namespace Femu.Ocssd

open Lib Lib.Traced Nvme

/-! ## statement -/

/-- The address exists, and the chip is one of the geometry. -/
def Oc20Access.Inside (lns : Oc20Namespace) : Oc20Access → Prop
  | .backend lba => oc20LbaValid lns lba
  | .chip lba lunid => oc20LbaValid lns lba ∧ 0 ≤ lunid ∧
      lunid < lns.geo.numGrp.toNat * lns.geo.numLun.toNat

/-- The command only succeeds on addresses that exist, and only touches addresses
and chips that exist. -/
structure AddressSafe (n : Oc20Ctrl) (lns : Oc20Namespace) (cmd : NvmeCmd) (vector : Bool)
    (s : Oc20State) : Prop where
  valid_of_success : ∀ s', (oc20Rw n lns cmd vector s).2 = some (nvmeSuccess, s') →
    ∀ lba ∈ lbaList n.toDmaCtrl s.mem cmd vector, oc20LbaValid lns lba
  within : Within (Oc20Access.Inside lns) (oc20Rw n lns cmd vector) s

/-- The command passes the checks of `oc20_rw`: the number of addresses, the
chunk checks, and the mapping of its PRP entries. -/
structure Accepted (n : Oc20Ctrl) (lns : Oc20Namespace) (cmd : NvmeCmd) (vector : Bool)
    (s : Oc20State) : Prop where
  nlb_le : cmd.nlb + 1 ≤ oc20CmdMaxLbas
  check : (oc20RwCheckVectorReq n lns s.chunkInfo (oc20RwIsWrite cmd.opcode)
    (lbaList n.toDmaCtrl s.mem cmd vector)).2 = nvmeSuccess
  map : ∃ map, nvmeMapPrp .stub n.toDmaCtrl s.mem cmd.prp1.toNat cmd.prp2.toNat
    ((cmd.nlb + 1) * 2 ^ lns.lbads) s.map = some (nvmeSuccess, map)

/-- `next` is taken to continue the run of `prev`, but names a chunk, parallel
unit or group that does not exist. -/
def Alias (lns : Oc20Namespace) (prev next : Nat) : Prop :=
  oc20LbaToChunkIndex lns next = oc20LbaToChunkIndex lns prev ∧ ¬ lns.ChunkValid next

/-- `next` is taken to continue the run of `prev`, past the last sector of the
chunk. -/
def Overrun (lns : Oc20Namespace) (prev next : Nat) : Prop :=
  oc20LbaToChunkIndex lns next = oc20LbaToChunkIndex lns prev ∧
    lns.geo.clba.toNat ≤ lns.lbaf.getSectr next

/-- A write list without aliases and overruns; a read list of existing sectors. -/
def GoodList (lns : Oc20Namespace) (isWrite : Bool) (lbas : List Nat) : Prop :=
  if isWrite then lbas.IsChain fun prev next => ¬ Alias lns prev next ∧ ¬ Overrun lns prev next
  else ∀ lba ∈ lbas, oc20LbaValid lns lba

/-! ## the write check -/

section Write

variable {lns : Oc20Namespace} {chunkInfo : Nat → Oc20CS}

/-- A run that is accepted starts at an address that exists. -/
theorem valid_of_checkChunkWrite {lba ws : Nat}
    (h : oc20RwCheckChunkWrite lns chunkInfo lba ws = nvmeSuccess) : oc20LbaValid lns lba := by
  by_contra hv
  simp [oc20RwCheckChunkWrite, oc20ChunkGetState, hv, nvmeWriteFault, nvmeDnr, nvmeSuccess] at h

/-- An address that continues a run exists when it is neither an alias nor an
overrun. -/
theorem valid_of_continues {prev next : Nat}
    (hidx : oc20LbaToChunkIndex lns prev = oc20LbaToChunkIndex lns next)
    (h : ¬ Alias lns prev next ∧ ¬ Overrun lns prev next) : oc20LbaValid lns next := by
  obtain ⟨halias, hover⟩ := h
  simp only [Alias, Overrun, hidx, true_and, not_not, not_le] at halias hover
  exact ⟨hover, halias⟩

/-- The loop of the write check, in a run that starts at `lba` and whose last
address so far is `prev`. -/
theorem valid_of_checkWriteLoop {rest : List Nat} {lba prev cidx sectr ws : Nat}
    (hidx : oc20LbaToChunkIndex lns prev = cidx)
    (hchain : (prev :: rest).IsChain fun prev next =>
      ¬ Alias lns prev next ∧ ¬ Overrun lns prev next)
    (h : checkWriteLoop lns chunkInfo rest lba cidx sectr ws = nvmeSuccess) :
    oc20LbaValid lns lba ∧ ∀ next ∈ rest, oc20LbaValid lns next := by
  induction rest generalizing lba prev cidx sectr ws with
  | nil =>
      simp only [checkWriteLoop] at h
      exact ⟨valid_of_checkChunkWrite h, by simp⟩
  | cons next rest ih =>
      obtain ⟨hstep, hrest⟩ := List.isChain_cons_cons.mp hchain
      simp only [checkWriteLoop] at h
      split at h
      · -- the run ends, and `next` starts another one
        split at h
        · contradiction
        · rename_i herr
          obtain ⟨hnext, hvalid⟩ := ih rfl hrest h
          exact ⟨valid_of_checkChunkWrite (not_not.mp herr), by simpa using ⟨hnext, hvalid⟩⟩
      · rename_i hsame
        split at h
        · simp [oc20OutOfOrderWrite, nvmeDnr, nvmeSuccess] at h
        · have hcont : oc20LbaToChunkIndex lns prev = oc20LbaToChunkIndex lns next :=
            hidx.trans (not_not.mp hsame)
          obtain ⟨hlba, hvalid⟩ := ih (hcont.symm.trans hidx) hrest h
          exact ⟨hlba, by simpa using ⟨valid_of_continues hcont hstep, hvalid⟩⟩

theorem isChain_of_valid {lbas : List Nat} (h : ∀ lba ∈ lbas, oc20LbaValid lns lba) :
    lbas.IsChain fun prev next => ¬ Alias lns prev next ∧ ¬ Overrun lns prev next := by
  induction lbas with
  | nil => exact .nil
  | cons lba rest ih =>
      cases rest with
      | nil => exact .singleton lba
      | cons next rest =>
          have hnext : oc20LbaValid lns next := h next (by simp)
          refine List.isChain_cons_cons.mpr ⟨⟨?_, ?_⟩, ih fun lba hlba => h lba (by simp [hlba])⟩
          · exact fun halias => halias.2 hnext.2
          · exact fun hover => absurd hnext.1 (Nat.not_lt.mpr hover.2)

/-- A write list that is accepted, without aliases and overruns. -/
theorem valid_of_writeReq {lbas : List Nat}
    (hchain : lbas.IsChain fun prev next => ¬ Alias lns prev next ∧ ¬ Overrun lns prev next)
    (h : oc20RwCheckWriteReq lns chunkInfo lbas = nvmeSuccess) :
    ∀ lba ∈ lbas, oc20LbaValid lns lba := by
  cases lbas with
  | nil => simp
  | cons lba rest =>
      obtain ⟨hlba, hrest⟩ := valid_of_checkWriteLoop rfl hchain
        (by simpa [oc20RwCheckWriteReq] using h)
      simpa using ⟨hlba, hrest⟩

/-- On an accepted list, to be good and to name existing addresses only is the
same. -/
theorem goodList_iff {n : Oc20Ctrl} {isWrite : Bool} {lbas : List Nat}
    (h : (oc20RwCheckVectorReq n lns chunkInfo isWrite lbas).2 = nvmeSuccess) :
    GoodList lns isWrite lbas ↔ ∀ lba ∈ lbas, oc20LbaValid lns lba := by
  cases isWrite with
  | false => simp [GoodList]
  | true =>
      refine ⟨fun hgood => ?_, fun hvalid => by simpa [GoodList] using isChain_of_valid hvalid⟩
      exact valid_of_writeReq (by simpa [GoodList] using hgood)
        (by simpa [oc20RwCheckVectorReq] using h)

end Write

/-! ## the chips -/

section Chips

variable {n : Oc20Ctrl} {lns : Oc20Namespace} {s : Oc20State}

/-- The bucket was opened by an address of the list. -/
def Oc20AddrBucket.Of (f : Oc20AddrF) (lbas : List Nat) (b : Oc20AddrBucket) : Prop :=
  b.lba ∈ lbas ∧ b.ch = int32 (f.getGroup b.lba) ∧ b.lun = int32 (f.getPunit b.lba)

theorem parseLbaLoop_of {f : Oc20AddrF} {lbas all : List Nat} {prev : Nat}
    {bs bs' : List Oc20AddrBucket} (hall : ∀ lba ∈ lbas, lba ∈ all) (hbs : ∀ b ∈ bs, b.Of f all)
    (h : parseLbaLoop f lbas prev bs = some bs') : ∀ b ∈ bs', b.Of f all := by
  induction lbas generalizing prev bs with
  | nil =>
      simp only [parseLbaLoop, Option.some.injEq] at h
      intro b hb
      exact hbs b (by simpa [← h] using hb)
  | cons lba rest ih =>
      have hrest : ∀ lba ∈ rest, lba ∈ all := fun l hl => hall l (by simp [hl])
      simp only [parseLbaLoop] at h
      split at h
      · match bs, hbs, h with
        | b :: bs, hbs, h =>
          refine ih hrest (fun b' hb' => ?_) h
          cases List.mem_cons.mp hb' with
          | inl heq => rw [heq]; exact hbs b (by simp)
          | inr hmem => exact hbs b' (by simp [hmem])
      · refine ih hrest (fun b' hb' => ?_) h
        cases List.mem_cons.mp hb' with
        | inl heq => rw [heq]; exact ⟨hall lba (by simp), rfl, rfl⟩
        | inr hmem => exact hbs b' hmem

/-- The chip index of an address that exists is one of the geometry. -/
theorem inside_chip {lbas : List Nat} {b : Oc20AddrBucket}
    (hvalid : ∀ lba ∈ lbas, oc20LbaValid lns lba) (hb : b.Of lns.lbaf lbas) :
    Oc20Access.Inside lns (.chip b.lba (b.ch * lns.geo.numLun.toNat + b.lun)) := by
  obtain ⟨hmem, hch, hlun⟩ := hb
  have hv := hvalid b.lba hmem
  obtain ⟨-, -, hl, hg⟩ := hv
  have hg' := lns.geo.numGrp.toNat_lt
  have hl' := lns.geo.numLun.toNat_lt
  rw [int32_eq (by omega)] at hch hlun
  have hmul : ((lns.lbaf.getGroup b.lba + 1) * lns.geo.numLun.toNat : Nat) ≤
      lns.geo.numGrp.toNat * lns.geo.numLun.toNat := Nat.mul_le_mul_right _ hg
  rw [Nat.add_mul] at hmul
  have hlt : lns.lbaf.getGroup b.lba * lns.geo.numLun.toNat + lns.lbaf.getPunit b.lba <
      lns.geo.numGrp.toNat * lns.geo.numLun.toNat := by omega
  rw [hch, hlun]
  exact ⟨hvalid b.lba hmem, by exact_mod_cast Nat.zero_le _, by exact_mod_cast hlt⟩

theorem within_advanceLoop {Q : Oc20Access → Prop} {bs : List Oc20AddrBucket} {total : Int}
    (h : ∀ b ∈ bs, Q (.chip b.lba (b.ch * lns.geo.numLun.toNat + b.lun))) :
    Within Q (advanceLoop n lns bs total) s := by
  induction bs generalizing s total with
  | nil => simp [advanceLoop]
  | cons b bs ih =>
      have hrest : ∀ s total, Within Q (advanceLoop n lns bs total) s :=
        fun _ _ => ih fun b' hb' => h b' (by simp [hb'])
      simp [advanceLoop, advanceChipTimestamp, h b (by simp), hrest]

theorem within_emitLbas_bind {Q : Oc20Access → Prop} {α : Type} (lbas : List Nat)
    (f : Unit → Oc20M α) :
    Within Q (emitLbas lbas >>= f) s ↔ (∀ lba ∈ lbas, Q (.backend lba)) ∧ Within Q (f ()) s := by
  induction lbas with
  | nil => simp [emitLbas]
  | cons lba rest ih => simp [emitLbas, ih, and_assoc]

/-- The latency emulation of a list of existing addresses. -/
theorem within_oc20AdvanceStatus (hvalid : ∀ lba ∈ s.lbas, oc20LbaValid lns lba) :
    Within (Oc20Access.Inside lns) (oc20AdvanceStatus n lns) s := by
  simp only [oc20AdvanceStatus, within_get_bind]
  split
  · simp
  · rename_i buckets hparse
    have hall : ∀ lba ∈ s.lbas, lba ∈ s.lbas := fun _ h => h
    have hof := parseLbaLoop_of hall (by simp) hparse
    have hloop : ∀ s', Within (Oc20Access.Inside lns) (advanceLoop n lns buckets 0) s' :=
      fun s' => within_advanceLoop fun b hb => inside_chip hvalid (hof b hb)
    simp [within_bind (advanceLoop n lns buckets 0), hloop]

end Chips

/-! ## the command -/

section Command

variable {n : Oc20Ctrl} {lns : Oc20Namespace} {cmd : NvmeCmd} {vector : Bool} {s : Oc20State}

/-- The PRP entries of the command can be mapped. -/
def Mappable (n : Oc20Ctrl) (lns : Oc20Namespace) (cmd : NvmeCmd) (s : Oc20State) : Prop :=
  ∃ map, nvmeMapPrp .stub n.toDmaCtrl s.mem cmd.prp1.toNat cmd.prp2.toNat
    ((cmd.nlb + 1) * 2 ^ lns.lbads) s.map = some (nvmeSuccess, map)

theorem mapReq_eq_some {status : Status} {s' : Oc20State} {len : Nat} :
    (mapReq n cmd.prp1.toNat cmd.prp2.toNat len s).2 = some (status, s') ↔
      ∃ map, nvmeMapPrp .stub n.toDmaCtrl s.mem cmd.prp1.toNat cmd.prp2.toNat len s.map =
        some (status, map) ∧ s' = { s with map := map } := by
  show Option.map _ _ = _ ↔ _
  simp [eq_comm]

theorem within_mapReq_bind {Q : Oc20Access → Prop} {len : Nat} (f : Status → Oc20M Status) :
    Within Q (mapReq n cmd.prp1.toNat cmd.prp2.toNat len >>= f) s ↔
      ∀ status map, nvmeMapPrp .stub n.toDmaCtrl s.mem cmd.prp1.toNat cmd.prp2.toNat len s.map =
        some (status, map) → Within Q (f status) { s with map := map } := by
  have hquiet : Within Q (mapReq n cmd.prp1.toNat cmd.prp2.toNat len) s := within_ofState _
  rw [within_bind]
  simp only [hquiet, true_and, mapReq_eq_some]
  exact ⟨fun h status map hmap => h status _ ⟨map, hmap, rfl⟩,
    fun h status s' ⟨map, hmap, hs'⟩ => hs' ▸ h status map hmap⟩

/-- The transfer succeeds only when the PRP entries can be mapped. -/
theorem mappable_of_success {s' : Oc20State}
    (h : (oc20RwTransfer n lns cmd s).2 = some (nvmeSuccess, s')) : Mappable n lns cmd s := by
  simp only [oc20RwTransfer, result_bind] at h
  obtain ⟨status, s₁, hreq, h⟩ := h
  obtain ⟨map, hmap, rfl⟩ := mapReq_eq_some.mp hreq
  by_cases hst : status = nvmeSuccess
  · exact ⟨map, by rw [hmap, hst]⟩
  · rw [if_pos hst, result_pure] at h
    exact absurd h.1 invalidField_ne_success

/-- A command that succeeds was accepted. -/
theorem accepted_of_success {s' : Oc20State}
    (h : (oc20Rw n lns cmd vector s).2 = some (nvmeSuccess, s')) :
    Accepted n lns cmd vector s := by
  unfold oc20Rw at h
  split at h
  · simp [result_ofState_bind] at h
  · rename_i hnlb
    simp only [get_bind_apply, modify_bind_apply] at h
    split at h
    · rename_i herr
      rw [result_pure] at h
      exact absurd h.1 herr
    · rename_i herr
      have hmap := mappable_of_success h
      exact ⟨Nat.le_of_not_lt hnlb, not_not.mp herr, hmap⟩

theorem within_oc20RwComplete {nlb : Nat} (hvalid : ∀ lba ∈ s.lbas, oc20LbaValid lns lba) :
    Within (Oc20Access.Inside lns) (oc20RwComplete n lns nlb) s := by
  simp [oc20RwComplete, within_bind, within_oc20AdvanceStatus hvalid]

/-- The transfer stays inside the geometry exactly when the addresses exist: each
of them is handed to the backend. -/
theorem within_oc20RwTransfer :
    Within (Oc20Access.Inside lns) (oc20RwTransfer n lns cmd) s ↔
      (Mappable n lns cmd s → ∀ lba ∈ s.lbas, oc20LbaValid lns lba) := by
  simp only [oc20RwTransfer, within_mapReq_bind]
  constructor
  · rintro h ⟨map, hmap⟩
    have hback := h nvmeSuccess map hmap
    simp only [ne_eq, not_true_eq_false, if_false, backendReq, bind_assoc, within_get_bind,
      within_emitLbas_bind] at hback
    exact hback.1
  · intro h status map hmap
    by_cases hst : status = nvmeSuccess
    · have hvalid := h ⟨map, by rw [hmap, hst]⟩
      simp only [hst, ne_eq, not_true_eq_false, if_false, backendReq, bind_assoc,
        within_get_bind, within_emitLbas_bind, within_ofState_bind]
      refine ⟨hvalid, fun _ s' hs' => within_oc20RwComplete ?_⟩
      obtain ⟨r, -, heq⟩ := Option.map_eq_some_iff.mp hs'
      simp only [Prod.mk.injEq, true_and] at heq
      rw [← heq]
      exact hvalid
    · simp [hst]

/-- The whole command. -/
theorem within_oc20Rw :
    Within (Oc20Access.Inside lns) (oc20Rw n lns cmd vector) s ↔
      (Accepted n lns cmd vector s →
        ∀ lba ∈ lbaList n.toDmaCtrl s.mem cmd vector, oc20LbaValid lns lba) := by
  unfold oc20Rw
  split
  · rename_i hnlb
    simp only [within_ofState_bind, within_pure, implies_true, true_iff]
    exact fun hacc => absurd hacc.nlb_le (Nat.not_le.mpr hnlb)
  · rename_i hnlb
    simp only [within_get_bind, within_modify_bind, within_ite, within_pure, implies_true,
      true_and, not_not, within_oc20RwTransfer]
    exact ⟨fun h hacc => h hacc.check hacc.map, fun h herr hmap =>
      h ⟨Nat.le_of_not_lt hnlb, herr, hmap⟩⟩

/-- **Address safety of the open-channel SSD 2.0**: a command succeeds on, and
touches, existing addresses and chips only, if and only if it is not accepted or
its list is good. -/
theorem addressSafe_iff (n : Oc20Ctrl) (lns : Oc20Namespace) (cmd : NvmeCmd) (vector : Bool)
    (s : Oc20State) :
    AddressSafe n lns cmd vector s ↔
      (Accepted n lns cmd vector s →
        GoodList lns (oc20RwIsWrite cmd.opcode) (lbaList n.toDmaCtrl s.mem cmd vector)) := by
  constructor
  · intro h hacc
    exact (goodList_iff hacc.check).mpr (within_oc20Rw.mp h.within hacc)
  · intro h
    have hvalid : Accepted n lns cmd vector s →
        ∀ lba ∈ lbaList n.toDmaCtrl s.mem cmd vector, oc20LbaValid lns lba :=
      fun hacc => (goodList_iff hacc.check).mp (h hacc)
    exact ⟨fun s' hs' => hvalid (accepted_of_success hs'), within_oc20Rw.mpr hvalid⟩

end Command

/-! ## addresses outside the geometry -/

/-- A controller with pages of 4096 bytes. -/
def plainOc20 : Oc20Ctrl where
  pageSize := 4096
  pageBits := 12
  maxPrpEnts := 512
  cmbsz := 0
  ctrlMemAddr := 0
  ctrlMemSize := 0
  elpe := 3
  mwCunits := 24
  pageReadLatency := 0
  pageWriteLatency := 0

/-- One group of two parallel units with three chunks of four sectors each. -/
def threeChunks : Oc20Namespace where
  geo := ⟨1, 2, 3, 4⟩
  lbaf := ⟨0, 16, 12, 3, 5, 4, 2, 0⟩
  chksPerGrp := 6
  lbads := 12

/-- The state after `oc20_init_chunk_info`, with the addresses 16 and 13 in host
memory at 8192. -/
def freshOc20 : Oc20State where
  mem := ⟨fun a => if a = 8192 then 16 else if a = 8200 then 13 else 0, fun _ => 0⟩
  mb := fun _ => 0
  errs := ⟨fun _ => ⟨0, 0, 0, 0, 0, 0, 0⟩, 0, 0, 0⟩
  chunkInfo := fun i => ⟨oc20ChunkFree, oc20ChunkTypeSeq, 0, 4 * i, 4, 0⟩
  chipNextAvailTime := fun _ => 0
  sqid := 1
  cqeCid := 0
  lbas := []
  isWrite := false
  predef := 0
  map := ⟨pciDmaSglistInit, []⟩
  stime := 0
  expireTime := 0

/-- A read of one sector of group 1, where there is group 0 only. -/
def readGroupOne : NvmeCmd :=
  { opcode := nvmeCmdRead, nsid := 1, prp1 := 4096, cdw10 := 32 }

/-- A vector write of sector 0 of chunk 0 of the second unit, and of sector 1 of
chunk 3 of the first unit: the units have three chunks, but the two indices are
the same. -/
def writeAlias : NvmeCmd :=
  { opcode := oc20CmdVectWrite, nsid := 1, prp1 := 4096, prp2 := 16384, cdw10 := 8192,
    cdw12 := 1 }

/-- Both commands succeed; each hands an address outside the geometry to the
backend, and the read a chip outside the geometry to the latency emulation. -/
theorem outside_addresses_accepted :
    (¬ AddressSafe plainOc20 threeChunks readGroupOne false freshOc20 ∧
      (oc20Rw plainOc20 threeChunks readGroupOne false freshOc20).1 =
        [.backend 32, .chip 32 2] ∧ ¬ oc20LbaValid threeChunks 32) ∧
    (¬ AddressSafe plainOc20 threeChunks writeAlias true freshOc20 ∧
      (oc20Rw plainOc20 threeChunks writeAlias true freshOc20).1 =
        [.backend 16, .backend 13, .chip 16 1, .chip 13 0] ∧ ¬ oc20LbaValid threeChunks 13) := by
  have hread : (oc20Rw plainOc20 threeChunks readGroupOne false freshOc20).1 =
      [.backend 32, .chip 32 2] := by decide +kernel
  have hwrite : (oc20Rw plainOc20 threeChunks writeAlias true freshOc20).1 =
      [.backend 16, .backend 13, .chip 16 1, .chip 13 0] := by decide +kernel
  have h32 : ¬ oc20LbaValid threeChunks 32 := by decide +kernel
  have h13 : ¬ oc20LbaValid threeChunks 13 := by decide +kernel
  refine ⟨⟨fun h => h32 ?_, hread, h32⟩, ⟨fun h => h13 ?_, hwrite, h13⟩⟩
  · exact h.within (.backend 32) (by rw [hread]; decide)
  · exact h.within (.backend 13) (by rw [hwrite]; decide)

end Femu.Ocssd
