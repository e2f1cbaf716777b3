import Femu.Ocssd.Decode
import Femu.Ocssd.Oc12Bounds

/-!
# Femu.Ocssd.ChipIndex

The timelines that the commands of the open-channel SSD 1.2 advance (`oc12_advance_status` and
`oc12_erase_async` of `ocssd/oc12.c`). A read or a write decodes channel and LUN from the byte
offsets that it has put in place of the addresses, and weighs the channel with the number of
LUNs. An erase weighs it with the number of channels, and takes the address from the request:
what is there is the array of the last read or write that used the request, or zero.
-/

namespace Femu.Ocssd

open Nvme Lib Lib.Traced

/-! ## calls -/

/-- A call of `advance_chip_timestamp`: the addresses that it is made for, and its index. -/
structure ChipUse where
  ppas : List Nat
  lunid : Int
deriving DecidableEq

/-- The calls of the loop of `oc12_advance_status` over the buckets. The addresses of the
command are those that the buckets count. -/
def chipUses (n : Oc12Dev) (cmd : NvmeCmd) : List AddrBucket → List Nat → Oc12State → List ChipUse
  | [], _, _ => []
  | b :: bs, psl, s =>
    let lunid := b.ch * n.ln.group.numLun + b.lun
    if b.ch < n.ln.group.numCh ∧ b.lun < n.ln.group.numLun then
      ⟨psl.take b.cnt, lunid⟩ ::
        match (oc12AdvanceChip n cmd lunid b.pageType s).2 with
        | none => []
        | some r => chipUses n cmd bs (psl.drop b.cnt) r.2
    else []

/-- The calls of `oc12_read` and `oc12_write`. -/
def oc12RwUses (n : Oc12Dev) (ns : Admin.NvmeNamespace) (cmd : NvmeCmd) (isWrite : Bool)
    (metadata : List Nat → Oc12State → Except MetaFault Oc12State) (s : Oc12State) :
    List ChipUse :=
  match oc12RwPrepare n ns cmd isWrite metadata s with
  | none => []
  | some (status, s₁) =>
    if status ≠ nvmeSuccess then []
    else
      match (oc12BackendReq s₁).2 with
      | none => []
      | some (_, s₂) =>
        match parsePpaList n s₂.slba with
        | none => []
        | some buckets => chipUses n cmd buckets (oc12ReadPpaList n.toDmaCtrl s.mem cmd) s₂

/-- `lunid` of an erase. -/
def eraseLunid (ln : Oc12Ctrl) (slba : Nat) : Int :=
  int32 (ln.ppaf.ch.get slba) * ln.group.numCh + int32 (ln.ppaf.lun.get slba)

/-- `oc12_erase_async` on a request that holds `slba`. It does not come back from a list that
overruns its array. -/
def oc12EraseAsync (n : Oc12Dev) (cmd : NvmeCmd) (slba : Nat) (s : Oc12State) :
    List ChipUse × Option Oc12State :=
  if n.maxSecPerRq.toNat < cmd.nlb + 1 then ([], none)
  else
    ([⟨oc12ReadPpaList n.toDmaCtrl s.mem cmd, eraseLunid n.ln slba⟩],
      (oc12AdvanceChip n cmd (eraseLunid n.ln slba) 0 s).2.map fun r =>
        { r.2 with expireTime := r.1 })

/-! ## runs -/

/-- A command that is fetched into a request: the time, the memory of the host, and the address
that the allocation of a read or a write returns. -/
structure Oc12Input where
  cmd : NvmeCmd
  mptr : UInt64
  req : Nat
  ptr : Nat
  stime : UInt64
  host : Bytes

/-- The device, and `slba` of the requests. -/
structure Oc12Run where
  dev : Oc12State
  slba : Nat → Nat

/-- `nvme_init_sq` allocates the requests with zeros. -/
def Oc12Run.fresh (dev : Oc12State) : Oc12Run := ⟨dev, fun _ => 0⟩

/-- The device when the command is fetched. -/
def Oc12Run.fetch (s : Oc12Run) (i : Oc12Input) : Oc12State :=
  { s.dev with stime := i.stime, mem := { s.dev.mem with host := i.host } }

/-- `oc12_io_cmd`: the calls, and the state after it. -/
def inputStep (n : Oc12Dev) (ns : Admin.NvmeNamespace) (i : Oc12Input) (s : Oc12Run) :
    List ChipUse × Option Oc12Run :=
  if i.cmd.opcode = Nand.nvmeCmdOcRead then
    (oc12RwUses n ns i.cmd false (oc12ReadMetadata n i.mptr.toNat) (s.fetch i),
      (oc12Read n ns i.cmd i.mptr (s.fetch i)).2.map fun r =>
        ⟨r.2, Function.update s.slba i.req i.ptr⟩)
  else if i.cmd.opcode = Nand.nvmeCmdOcWrite then
    (oc12RwUses n ns i.cmd true (oc12WriteMetadata n i.mptr.toNat) (s.fetch i),
      (oc12Write n ns i.cmd i.mptr (s.fetch i)).2.map fun r =>
        ⟨r.2, Function.update s.slba i.req i.ptr⟩)
  else if i.cmd.opcode = Nand.nvmeCmdOcErase then
    ((oc12EraseAsync n i.cmd (s.slba i.req) (s.fetch i)).1,
      (oc12EraseAsync n i.cmd (s.slba i.req) (s.fetch i)).2.map fun dev => ⟨dev, s.slba⟩)
  else ([], some s)

/-- The calls of a run. -/
def runUses (n : Oc12Dev) (ns : Admin.NvmeNamespace) : List Oc12Input → Oc12Run → List ChipUse
  | [], _ => []
  | i :: is, s =>
    (inputStep n ns i s).1 ++
      match (inputStep n ns i s).2 with
      | none => []
      | some s' => runUses n ns is s'

/-! ## statement -/

/-- The call is made for the unit, by way of one of its addresses. -/
def ChipUse.For (ln : Oc12Ctrl) (c : ChipUse) (ch lun : Nat) : Prop :=
  ∃ f, InGeometry ln f ∧ f.ch = ch ∧ f.lun = lun ∧ encodePpa ln f ∈ c.ppas

/-- Each unit has a timeline of its own: the calls for it have one index in all runs, the calls
for other units have others, and the timelines are there. An erase advances its own. -/
structure OneTimeline (n : Oc12Dev) (ns : Admin.NvmeNamespace) (dev : Oc12State) : Prop where
  indexed : ∀ is js, ∀ c ∈ runUses n ns is (.fresh dev), ∀ d ∈ runUses n ns js (.fresh dev),
    ∀ ch lun ch' lun', c.For n.ln ch lun → d.For n.ln ch' lun' →
      (c.lunid = d.lunid ↔ ch = ch' ∧ lun = lun')
  bounded : ∀ is, ∀ c ∈ runUses n ns is (.fresh dev), ∀ ch lun, c.For n.ln ch lun →
    0 ≤ c.lunid ∧ c.lunid < femuMaxNumChips
  delays : ∀ cmd slba s s', cmd.opcode = Nand.nvmeCmdOcErase →
    (oc12EraseAsync n cmd slba s).2 = some s' →
      ∃ c lat, (oc12EraseAsync n cmd slba s).1 = [c] ∧ 0 ≤ c.lunid ∧
        s'.chipNextAvailTime = Function.update s.chipNextAvailTime c.lunid.toNat
          (max s.stime (s.chipNextAvailTime c.lunid.toNat) + lat)

section Proof

variable {n : Oc12Dev} {ns : Admin.NvmeNamespace} {cmd : NvmeCmd} {s : Oc12State}

/-! ## erases -/

/-- An erase that comes back has advanced the timeline of its call, and no other one. -/
theorem eraseAsync_delays {slba : Nat} {s' : Oc12State}
    (h : (oc12EraseAsync n cmd slba s).2 = some s') :
    ∃ c lat, (oc12EraseAsync n cmd slba s).1 = [c] ∧ 0 ≤ c.lunid ∧
      s'.chipNextAvailTime = Function.update s.chipNextAvailTime c.lunid.toNat
        (max s.stime (s.chipNextAvailTime c.lunid.toNat) + lat) := by
  unfold oc12EraseAsync at h ⊢
  generalize eraseLunid n.ln slba = lunid at h ⊢
  split
  case isTrue hover =>
    rw [if_pos hover] at h
    cases h
  case isFalse hroom =>
    rw [if_neg hroom] at h
    obtain ⟨r, hadvance, rfl⟩ := Option.map_eq_some_iff.mp h
    unfold oc12AdvanceChip at hadvance
    by_cases hle : 0 ≤ lunid
    · simp only [assert, if_pos hle, pure_bind, ofState, Option.map_eq_some_iff] at hadvance
      obtain ⟨⟨ts, avail⟩, hts, rfl⟩ := hadvance
      obtain ⟨-, lat, -, hret, havail⟩ := Nand.advanceChipTimestamp_eq_some.mp hts
      exact ⟨_, lat, rfl, hle, by rw [havail, hret]⟩
    · simp only [assert, if_neg hle, abort_bind, abort_apply] at hadvance
      cases hadvance

/-- An erase of one address. -/
def eraseOne (ppa : Nat) : NvmeCmd where
  opcode := Nand.nvmeCmdOcErase
  nsid := 1
  cdw10 := UInt32.ofNat ppa
  cdw11 := UInt32.ofNat (ppa / 2 ^ 32)

/-- It takes a fresh request. -/
theorem exists_erase (ns : Admin.NvmeNamespace) (hmax : n.maxSecPerRq ≠ 0) (dev : Oc12State) {ppa : Nat}
    (hppa : ppa < 2 ^ 64) :
    ∃ i, ⟨[ppa], eraseLunid n.ln 0⟩ ∈ runUses n ns [i] (.fresh dev) := by
  have hroom : ¬ n.maxSecPerRq.toNat < 1 := by
    intro hlt
    refine hmax ?_
    rw [← UInt8.toNat_inj]
    exact Nat.lt_one_iff.mp hlt
  refine ⟨⟨eraseOne ppa, 0, 0, 0, 0, fun _ => 0⟩, List.mem_append_left _ ?_⟩
  have herase : Nand.nvmeCmdOcErase ≠ Nand.nvmeCmdOcRead ∧
      Nand.nvmeCmdOcErase ≠ Nand.nvmeCmdOcWrite := by decide
  simp [inputStep, eraseOne, herase, oc12EraseAsync, NvmeCmd.nlb, oc12ReadPpaList, NvmeCmd.slba,
    hroom, Oc12Run.fresh]
  omega

/-! ## all calls -/

/-- What holds of the calls of every command holds of those of a run. -/
theorem runUses_of_step {P : ChipUse → Prop}
    (hstep : ∀ i s, ∀ c ∈ (inputStep n ns i s).1, P c) (is : List Oc12Input) (s : Oc12Run) :
    ∀ c ∈ runUses n ns is s, P c := by
  induction is generalizing s with
  | nil =>
      intro c hc
      cases hc
  | cons i is ih =>
      intro c hc
      rcases List.mem_append.mp hc with hhead | hrest
      · exact hstep i s c hhead
      · split at hrest
        case h_1 => cases hrest
        case h_2 s' _ => exact ih s' c hrest

/-- The calls of a command are those of a read, a write or an erase. -/
theorem inputStep_of {P : ChipUse → Prop}
    (hrw : ∀ cmd isWrite metadata s, ∀ c ∈ oc12RwUses n ns cmd isWrite metadata s, P c)
    (herase : ∀ cmd slba s, ∀ c ∈ (oc12EraseAsync n cmd slba s).1, P c)
    (i : Oc12Input) (s : Oc12Run) : ∀ c ∈ (inputStep n ns i s).1, P c := by
  unfold inputStep
  split
  case isTrue => exact hrw _ _ _ _
  case isFalse =>
    split
    case isTrue => exact hrw _ _ _ _
    case isFalse =>
      split
      case isTrue => exact herase _ _ _
      case isFalse =>
        intro c hc
        cases hc

/-- Without room for a list no command gets to a call. -/
theorem no_use_of_no_room (hmax : n.maxSecPerRq = 0) (is : List Oc12Input) (s : Oc12Run) :
    ∀ c ∈ runUses n ns is s, False := by
  refine runUses_of_step (inputStep_of (fun cmd isWrite metadata s c hc => ?_)
    fun cmd slba s c hc => ?_) is s
  · have hover : cmd.nlb + 1 > n.maxSecPerRq.toNat := by simp [hmax]
    have hrefused : ∀ psl size size', oc12RwCheckReq n ns cmd isWrite s.uncorrectable psl
        (cmd.nlb + 1) size size' ≠ nvmeSuccess := by
      intro psl size size'
      rw [oc12RwCheckReq, if_pos hover]
      exact invalidField_ne_success
    unfold oc12RwUses at hc
    split at hc
    case h_1 => cases hc
    case h_2 status s₁ hprep =>
      unfold oc12RwPrepare at hprep
      dsimp only at hprep
      split at hprep
      case isTrue => cases hprep
      case isFalse =>
        rw [if_pos (hrefused _ _ _), Option.some.injEq, Prod.mk.injEq] at hprep
        rw [← hprep.1, if_pos (hrefused _ _ _)] at hc
        cases hc
  · have hover : n.maxSecPerRq.toNat < cmd.nlb + 1 := by simp [hmax]
    rw [oc12EraseAsync, if_pos hover] at hc
    cases hc

/-! ## one unit -/

/-- A count of one takes no bits of the address. -/
theorem get_of_one (hwf : n.ln.Wf) (hch : n.ln.group.numCh = 1) (hlun : n.ln.group.numLun = 1)
    (x : Nat) : n.ln.ppaf.ch.get x = 0 ∧ n.ln.ppaf.lun.get x = 0 := by
  obtain ⟨-, hlunMask, hchMask⟩ := mask_eq hwf
  refine ⟨AddrField.get_empty hchMask ?_ x, AddrField.get_empty hlunMask ?_ x⟩
  · rw [hwf.ppaf, oc12InitPpaf, hwf.numCh_eq, hch]
    rfl
  · rw [hwf.ppaf, oc12InitPpaf, hwf.numLun_eq, hlun]
    rfl

theorem chipUses_of_zero {bs : List AddrBucket} (hbs : ∀ b ∈ bs, b.ch = 0 ∧ b.lun = 0)
    (psl : List Nat) (s : Oc12State) : ∀ c ∈ chipUses n cmd bs psl s, c.lunid = 0 := by
  induction bs generalizing psl s with
  | nil =>
      intro c hc
      cases hc
  | cons b bs ih =>
      intro c hc
      have hb := hbs b List.mem_cons_self
      rw [chipUses] at hc
      split at hc
      case isFalse => cases hc
      case isTrue =>
        rcases List.mem_cons.mp hc with rfl | hrest
        · simp [hb.1, hb.2]
        · split at hrest
          case h_1 => cases hrest
          case h_2 r _ => exact ih (fun b' hb' => hbs b' (List.mem_cons_of_mem b hb')) _ _ c hrest

/-- With one unit all calls are for the first timeline. -/
theorem lunid_eq_zero (ns : Admin.NvmeNamespace) (hwf : n.ln.Wf) (hch : n.ln.group.numCh = 1)
    (hlun : n.ln.group.numLun = 1) (is : List Oc12Input) (s : Oc12Run) :
    ∀ c ∈ runUses n ns is s, c.lunid = 0 := by
  have hget := get_of_one hwf hch hlun
  refine runUses_of_step (inputStep_of (fun cmd isWrite metadata s c hc => ?_)
    fun cmd slba s c hc => ?_) is s
  · unfold oc12RwUses at hc
    split at hc
    case h_1 => cases hc
    case h_2 =>
      split at hc
      case isTrue => cases hc
      case isFalse =>
        split at hc
        case h_1 => cases hc
        case h_2 =>
          split at hc
          case h_1 => cases hc
          case h_2 buckets hparse =>
            refine chipUses_of_zero (fun b hb => ?_) _ _ c hc
            obtain ⟨oft, -, hbch, hblun⟩ := parsePpaLoop_of (fun _ ho => ho) (by simp) hparse b hb
            rw [hbch, hblun, (hget oft).1, (hget oft).2]
            exact ⟨rfl, rfl⟩
  · unfold oc12EraseAsync at hc
    split at hc
    case isTrue => cases hc
    case isFalse =>
      rw [List.mem_singleton.mp hc, eraseLunid, (hget slba).1, (hget slba).2, hch]
      rfl

end Proof

/-- **Timelines**: each unit has its own exactly if no command gets to a call for a unit of the
geometry, or there is only one unit. -/
theorem one_timeline_iff {p : OcCtrlParams} {nsBlks : UInt64} {n : Oc12Dev}
    (h : oc12InitMore p nsBlks = some n.ln) (ns : Admin.NvmeNamespace) (dev : Oc12State) :
    OneTimeline n ns dev ↔ n.maxSecPerRq = 0 ∨ n.ln.group.numBlk = 0 ∨
      (n.ln.group.numCh = 1 ∧ n.ln.group.numLun = 1) := by
  have hwf := (oc12InitMore_wf h).1
  have hdelays : ∀ cmd slba s s', cmd.opcode = Nand.nvmeCmdOcErase →
      (oc12EraseAsync n cmd slba s).2 = some s' →
        ∃ c lat, (oc12EraseAsync n cmd slba s).1 = [c] ∧ 0 ≤ c.lunid ∧
          s'.chipNextAvailTime = Function.update s.chipNextAvailTime c.lunid.toNat
            (max s.stime (s.chipNextAvailTime c.lunid.toNat) + lat) :=
    fun cmd slba s s' _ => eraseAsync_delays
  constructor
  case mp =>
    intro hone
    by_contra hcond
    simp only [not_or] at hcond
    obtain ⟨hmax, hblk, hunits⟩ := hcond
    have hpos := Nat.pos_of_ne_zero hblk
    have hnarrow := fieldsNarrow_of_init h hpos
    -- the first unit and the last one, erased by way of fresh requests
    have hf : InGeometry n.ln ⟨0, 0, 0, 0, 0, 0⟩ :=
      ⟨hwf.ch, hwf.lun, hpos, hwf.pg, hwf.pln, hwf.sec⟩
    have hg : InGeometry n.ln ⟨n.ln.group.numCh - 1, n.ln.group.numLun - 1, 0, 0, 0, 0⟩ :=
      ⟨Nat.sub_one_lt_of_lt hwf.ch, Nat.sub_one_lt_of_lt hwf.lun, hpos, hwf.pg, hwf.pln, hwf.sec⟩
    obtain ⟨i, hi⟩ := exists_erase ns hmax dev (encodePpa_lt hwf hnarrow hf)
    obtain ⟨j, hj⟩ := exists_erase ns hmax dev (encodePpa_lt hwf hnarrow hg)
    have hsame := (hone.indexed [i] [j] _ hi _ hj 0 0 (n.ln.group.numCh - 1)
      (n.ln.group.numLun - 1)
      ⟨_, hf, rfl, rfl, List.mem_singleton_self _⟩
      ⟨_, hg, rfl, rfl, List.mem_singleton_self _⟩).mp rfl
    have hch := hwf.ch
    have hlun := hwf.lun
    exact hunits ⟨by omega, by omega⟩
  case mpr =>
    intro hcond
    rcases hcond with hmax | hblk | ⟨hch, hlun⟩
    · exact ⟨fun is _ c hc => absurd hc (no_use_of_no_room hmax is _ c),
        fun is c hc => absurd hc (no_use_of_no_room hmax is _ c), hdelays⟩
    · have hnone : ∀ (c : ChipUse) ch lun, ¬ c.For n.ln ch lun := by
        intro c ch lun ⟨f, hf, _⟩
        have hlt := hf.blk
        omega
      exact ⟨fun _ _ c _ _ _ ch lun _ _ hc => absurd hc (hnone c ch lun),
        fun _ c _ ch lun hc => absurd hc (hnone c ch lun), hdelays⟩
    · have hzero := lunid_eq_zero ns hwf hch hlun
      refine ⟨fun is js c hc d hd ch lun ch' lun' hcu hdu => ?_, fun is c hc _ _ _ => ?_, hdelays⟩
      · obtain ⟨f, hf, rfl, rfl, -⟩ := hcu
        obtain ⟨g, hg, rfl, rfl, -⟩ := hdu
        rw [hzero is _ c hc, hzero js _ d hd]
        have hfch := hf.ch
        have hflun := hf.lun
        have hgch := hg.ch
        have hglun := hg.lun
        exact iff_of_true rfl ⟨by omega, by omega⟩
      · rw [hzero is _ c hc]
        exact ⟨le_rfl, by decide⟩

/-- A device with one channel and one LUN. -/
theorem one_timeline_single : ∃ ln, oc12InitMore ⟨4, 512, 1, 1, 2, 16⟩ 2097152 = some ln ∧
    OneTimeline (defaultOc12 ln) (Admin.initNamespace (defaultSetup 0).cfg) freshOc12 := by
  have hmap : (oc12InitMore ⟨4, 512, 1, 1, 2, 16⟩ 2097152).map (fun ln =>
      decide (ln.group.numCh = 1 ∧ ln.group.numLun = 1)) = some true := by decide +kernel
  obtain ⟨ln, hln, hone⟩ := Option.map_eq_some_iff.mp hmap
  exact ⟨ln, hln, (one_timeline_iff (n := defaultOc12 ln) hln _ _).mpr
    (.inr (.inr (of_decide_eq_true hone)))⟩

/-- Erases of the first unit of the default device and of its last, each in a request of its
own. -/
def twoErases (ln : Oc12Ctrl) : List Oc12Input :=
  [⟨eraseOne (encodePpa ln ⟨0, 0, 0, 0, 0, 0⟩), 0, 0, 0, 0, fun _ => 0⟩,
    ⟨eraseOne (encodePpa ln ⟨1, 7, 0, 0, 0, 0⟩), 0, 1, 0, 0, fun _ => 0⟩]

/-- They are for the same chip. -/
theorem erases_share_chip : ∃ ln, oc12InitMore ⟨4, 512, 2, 8, 2, 16⟩ 2097152 = some ln ∧
    runUses (defaultOc12 ln) (Admin.initNamespace (defaultSetup 0).cfg) (twoErases ln)
      (.fresh freshOc12) = [⟨[0], 0⟩, ⟨[1966080], 0⟩] ∧
    ¬ OneTimeline (defaultOc12 ln) (Admin.initNamespace (defaultSetup 0).cfg) freshOc12 := by
  have hmap : (oc12InitMore ⟨4, 512, 2, 8, 2, 16⟩ 2097152).map (fun ln =>
      (runUses (defaultOc12 ln) (Admin.initNamespace (defaultSetup 0).cfg) (twoErases ln)
          (.fresh freshOc12),
        decide (InGeometry ln ⟨0, 0, 0, 0, 0, 0⟩ ∧ encodePpa ln ⟨0, 0, 0, 0, 0, 0⟩ ∈ [0] ∧
          InGeometry ln ⟨1, 7, 0, 0, 0, 0⟩ ∧ encodePpa ln ⟨1, 7, 0, 0, 0, 0⟩ ∈ [1966080]))) =
      some ([⟨[0], 0⟩, ⟨[1966080], 0⟩], true) := by decide +kernel
  obtain ⟨ln, hln, heq⟩ := Option.map_eq_some_iff.mp hmap
  obtain ⟨huses, hfor⟩ := Prod.mk.inj heq
  obtain ⟨hf, hfmem, hg, hgmem⟩ := of_decide_eq_true hfor
  refine ⟨ln, hln, huses, fun hone => ?_⟩
  have hsame := hone.indexed (twoErases ln) (twoErases ln) ⟨[0], 0⟩ (by simp [huses])
    ⟨[1966080], 0⟩ (by simp [huses]) 0 0 1 7 ⟨_, hf, rfl, rfl, hfmem⟩ ⟨_, hg, rfl, rfl, hgmem⟩
  exact absurd (hsame.mp rfl).1 (by decide)

end Femu.Ocssd
