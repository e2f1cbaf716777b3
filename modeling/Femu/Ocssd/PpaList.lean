import Femu.Ocssd.Bbt
import Femu.Ocssd.Scatter

/-!
# Femu.Ocssd.PpaList

The arrays that take the address lists of the host (`ocssd/oc12.c`): `oc12_read` and
`oc12_write` allocate theirs for a count that is computed in 16 bits, `oc12_erase_async` and
`oc12_bbt_set` have `max_sec_per_rq` entries on the stack, and all of them copy a count that is
computed in 32 bits. A read or a write goes on to hand its array to `backend_rw`, which reads an
entry for each segment of the transfer and one more.
-/

namespace Femu.Ocssd

open Nvme Lib

/-! ## accesses -/

/-- What is done with an array of addresses: entries are copied into it, or one is accessed. -/
inductive ListAccess
  | copy (count : Nat)
  | index (i : Nat)
deriving DecidableEq

/-- The access stays inside an array of so many entries. -/
def ListAccess.Fits (room : Nat) : ListAccess → Prop
  | .copy count => count ≤ room
  | .index i => i < room

/-- A loop over the array, as long as `ok` holds of the addresses that are behind it. -/
def loopAccesses (psl : List Nat) (ok : List Nat → Bool) : List ListAccess :=
  ((List.range psl.length).filter fun i => ok (psl.take i)).map ListAccess.index

/-- `oc12_read_ppa_list`. -/
def oc12ReadPpaListAccesses (cmd : NvmeCmd) : List ListAccess :=
  let nlb := cmd.nlb + 1
  if nlb > 1 then [.copy nlb] else [.index 0]

/-! ## reads and writes -/

section Rw

variable (n : Oc12Dev) (ns : Admin.NvmeNamespace) (cmd : NvmeCmd) (isWrite : Bool)

/-- `oc12_rw_check_req`: the first and the last entry, and the loop, which ends at an address
behind the namespace. -/
def oc12RwCheckAccesses (psl : List Nat) : List ListAccess :=
  let nlb := psl.length
  [.index 0, .index (nlb - 1)] ++
    if nlb > n.maxSecPerRq.toNat ∨ (cmd.opcode = Nand.nvmeCmdOcWrite ∧ nlb < n.ln.secPerPl) ∨
        cmd.slba = oc12PbaUnmapped then []
    else loopAccesses psl fun before => before.all (· ≤ ns.nsze)

/-- An entry that `backend_rw` reads. -/
def BackendAccess.entry : BackendAccess → Option ListAccess
  | .lbal i => some (.index i)
  | .rw _ _ _ => none

/-- `oc12_advance_status`: the loop of `parse_ppa_list`, and the first address of each
bucket. -/
def oc12AdvanceAccesses (s : Oc12State) : List ListAccess :=
  loopAccesses s.slba (fun before => (parsePpaList n before).isSome) ++
    match parsePpaList n s.slba with
    | none => []
    | some buckets =>
      ((List.range buckets.length).filter fun k =>
        (oc12AdvanceLoop n cmd (buckets.take k) 0 s).2.isSome).map fun k =>
          .index ((buckets.take k).map (·.cnt)).sum

/-- `backend_rw`, and the latency after it. -/
def oc12TransferAccesses (s : Oc12State) : List ListAccess :=
  match backendRwTraced s.map.qsg s.slba s.isWrite s.mem.host s.mb with
  | none => []
  | some (l, _) => l.filterMap BackendAccess.entry ++ oc12AdvanceAccesses n cmd s

/-- `oc12_read` and `oc12_write`, with their loops over the metadata. Where the count is 0 in 16
bits the array is the chunk of `calloc(1, 0)`, without an entry; nothing is said of what follows
the copy then. -/
def oc12RwAccesses (metadata : List Nat → Oc12State → Except MetaFault Oc12State)
    (s : Oc12State) : List ListAccess :=
  let nlb := u16 (cmd.nlb + 1)
  let psl := oc12ReadPpaList n.toDmaCtrl s.mem cmd
  let err := oc12RwCheckReq n ns cmd isWrite s.uncorrectable psl nlb
    (intToU64 (nlb <<< ns.lbaDs)) (intToU64 (nlb * lbafMs ns))
  oc12ReadPpaListAccesses cmd ++
    if nlb = 0 then []
    else
      oc12RwCheckAccesses n ns cmd psl ++
        if err ≠ nvmeSuccess then []
        else
          loopAccesses psl (fun before => (metadata before { s with isWrite := isWrite }).isOk) ++
            match oc12RwPrepare n ns cmd isWrite metadata s with
            | none => []
            | some (status, s') =>
              if status ≠ nvmeSuccess then [] else oc12TransferAccesses n cmd s'

/-- A read or a write gets as far as its transfer. -/
def Transfers (metadata : List Nat → Oc12State → Except MetaFault Oc12State) (s : Oc12State) :
    Prop :=
  ∃ s', oc12RwPrepare n ns cmd isWrite metadata s = some (nvmeSuccess, s')

/-- The pages that the buffer of the command touches. -/
def bufferPages : Nat :=
  1 + n.pages (n.restLen cmd.prp1.toNat (u32 (intToU64 ((cmd.nlb + 1) <<< ns.lbaDs))))

end Rw

/-! ## the table of bad blocks -/

/-- `oc12_bbt_set`. -/
def bbtSetAccesses (n : Oc12Dev) (m : Mem) (cmd : Oc12BbtSet) (bbtbl : List Oc12Bbt) :
    List ListAccess :=
  let nlb := cmd.nlb.toNat + 1
  if cmd.nsid.toNat = 0 ∨ numNamespaces < cmd.nsid.toNat then []
  else if nlb = 1 then [.index 0]
  else
    match dmaWritePrp n.toDmaCtrl m (nlb * 8) cmd.spba.toNat cmd.prp2.toNat with
    | none => []
    | some (status, bytes) =>
      if status ≠ nvmeSuccess then []
      else .copy nlb :: loopAccesses (ppaWords nlb bytes) fun before =>
        (setBlks n.ln cmd.value before bbtbl).isSome

/-- The command goes on to its list: the namespace exists, and the list is its address alone or
can be transferred. -/
def ListMapped (n : Oc12Dev) (m : Mem) (cmd : Oc12BbtSet) : Prop :=
  let len := (cmd.nlb.toNat + 1) * 8
  ¬ (cmd.nsid.toNat = 0 ∨ numNamespaces < cmd.nsid.toNat) ∧
    (cmd.nlb = 0 ∨ n.MapEnds cmd.spba.toNat cmd.prp2.toNat len ∧
      PrpsGood n.toDmaCtrl m n.maxPrpEnts cmd.spba.toNat cmd.prp2.toNat len)

/-! ## statement -/

/-- A command with a list of addresses. -/
inductive ListCmd
  | read (cmd : NvmeCmd) (mptr : UInt64)
  | write (cmd : NvmeCmd) (mptr : UInt64)
  | erase (cmd : NvmeCmd)
  | bbtSet (cmd : Oc12BbtSet)

/-- What the command does with its array. `oc12_meta_blk_set_erased` returns before it looks at
the array, and the latency of an erase is that of the address in the request. -/
def ListCmd.accesses (n : Oc12Dev) (ns : Admin.NvmeNamespace) (s : Oc12State)
    (bbtbl : List Oc12Bbt) : ListCmd → List ListAccess
  | .read cmd mptr => oc12RwAccesses n ns cmd false (oc12ReadMetadata n mptr.toNat) s
  | .write cmd mptr => oc12RwAccesses n ns cmd true (oc12WriteMetadata n mptr.toNat) s
  | .erase cmd => oc12ReadPpaListAccesses cmd
  | .bbtSet cmd => bbtSetAccesses n s.mem cmd bbtbl

/-- The entries of the array. -/
def ListCmd.room (n : Oc12Dev) : ListCmd → Nat
  | .read cmd _ => u16 (cmd.nlb + 1)
  | .write cmd _ => u16 (cmd.nlb + 1)
  | .erase _ => n.maxSecPerRq.toNat
  | .bbtSet _ => n.maxSecPerRq.toNat

/-- What the array is large enough for: a read or a write of less than `2^16` sectors, which is
refused or has more sectors than pages; an erase or a set of no more than `max_sec_per_rq`
addresses. -/
def ListCmd.HasRoom (n : Oc12Dev) (ns : Admin.NvmeNamespace) (s : Oc12State) : ListCmd → Prop
  | .read cmd mptr => cmd.nlb + 1 < 2 ^ 16 ∧
      (Transfers n ns cmd false (oc12ReadMetadata n mptr.toNat) s →
        bufferPages n ns cmd < cmd.nlb + 1)
  | .write cmd mptr => cmd.nlb + 1 < 2 ^ 16 ∧
      (Transfers n ns cmd true (oc12WriteMetadata n mptr.toNat) s →
        bufferPages n ns cmd < cmd.nlb + 1)
  | .erase cmd => cmd.nlb + 1 ≤ n.maxSecPerRq.toNat
  | .bbtSet cmd => ListMapped n s.mem cmd → cmd.nlb.toNat + 1 ≤ n.maxSecPerRq.toNat

/-! ## loops -/

theorem loopAccesses_fit (psl : List Nat) (ok : List Nat → Bool) :
    ∀ a ∈ loopAccesses psl ok, a.Fits psl.length := by
  intro a ha
  obtain ⟨i, hi, rfl⟩ := List.mem_map.mp ha
  exact List.mem_range.mp (List.mem_filter.mp hi).1

/-- A list is copied as a whole, a single address is stored. -/
theorem readPpaList_fits_iff (cmd : NvmeCmd) (room : Nat) :
    (∀ a ∈ oc12ReadPpaListAccesses cmd, a.Fits room) ↔ cmd.nlb + 1 ≤ room := by
  rw [oc12ReadPpaListAccesses]
  split
  case isTrue => simp [ListAccess.Fits]
  case isFalse hone =>
    have hzero : cmd.nlb = 0 := by omega
    simp [ListAccess.Fits, hzero, Nat.succ_le_iff]

theorem length_oc12ReadPpaList (n : DmaCtrl) (m : Mem) (cmd : NvmeCmd) :
    (oc12ReadPpaList n m cmd).length = cmd.nlb + 1 := by
  rw [oc12ReadPpaList]
  dsimp only
  split
  case isTrue => simp
  case isFalse hone => simpa using (show cmd.nlb = 0 by omega)

/-! ## reads and writes -/

section Rw

variable {n : Oc12Dev} {ns : Admin.NvmeNamespace} {cmd : NvmeCmd} {s s' : Oc12State}

theorem checkAccesses_fit {psl : List Nat} (hpos : 0 < psl.length) :
    ∀ a ∈ oc12RwCheckAccesses n ns cmd psl, a.Fits psl.length := by
  intro a ha
  rw [oc12RwCheckAccesses] at ha
  rcases List.mem_append.mp ha with hends | hloop
  · simp only [List.mem_cons, List.not_mem_nil, or_false] at hends
    cases hends with
    | inl h => rw [h]; exact hpos
    | inr h => rw [h]; exact Nat.sub_one_lt_of_lt hpos
  · split at hloop
    case isTrue => cases hloop
    case isFalse => exact loopAccesses_fit psl _ a hloop

/-- The buckets count the addresses, and none of them is empty. -/
theorem parsePpaLoop_cnt {psl : List Nat} {prev : Nat} {bs bs' : List AddrBucket}
    (h : parsePpaLoop n psl prev bs = some bs') (hpos : ∀ b ∈ bs, 0 < b.cnt) :
    (bs'.map (·.cnt)).sum = (bs.map (·.cnt)).sum + psl.length ∧ ∀ b ∈ bs', 0 < b.cnt := by
  induction psl generalizing prev bs with
  | nil =>
      simp only [parsePpaLoop, Option.some.injEq] at h
      subst h
      simpa using hpos
  | cons ppa psl ih =>
      simp only [parsePpaLoop] at h
      split at h
      case isTrue =>
        cases bs with
        | nil => cases h
        | cons b bs =>
            have hrest : ∀ b' ∈ bs, 0 < b'.cnt := fun b' hb' => hpos b' (List.mem_cons_of_mem b hb')
            obtain ⟨hsum, hall⟩ := ih h (by simpa using hrest)
            refine ⟨?_, hall⟩
            simp only [List.map_cons, List.sum_cons, List.length_cons] at hsum ⊢
            omega
      case isFalse =>
        obtain ⟨pageType, -, h⟩ := Option.bind_eq_some_iff.mp h
        obtain ⟨hsum, hall⟩ := ih h (by simpa using hpos)
        refine ⟨?_, hall⟩
        simp only [List.map_cons, List.sum_cons, List.length_cons] at hsum ⊢
        omega

/-- The sum of the first numbers, where none is zero. -/
theorem sum_take_lt {l : List Nat} (hpos : ∀ x ∈ l, 0 < x) {k : Nat} (hk : k < l.length) :
    (l.take k).sum < l.sum := by
  have hsplit : (l.take k).sum + (l.drop k).sum = l.sum := by
    rw [← List.sum_append, List.take_append_drop]
  have hdrop : 0 < (l.drop k).sum := by
    rw [List.drop_eq_getElem_cons hk, List.sum_cons]
    have hget := hpos l[k] (List.getElem_mem hk)
    omega
  omega

/-- The latency emulation stays in the array. -/
theorem advanceAccesses_fit : ∀ a ∈ oc12AdvanceAccesses n cmd s, a.Fits s.slba.length := by
  intro a ha
  rw [oc12AdvanceAccesses] at ha
  rcases List.mem_append.mp ha with hloop | hbuckets
  · exact loopAccesses_fit _ _ a hloop
  · split at hbuckets
    case h_1 => cases hbuckets
    case h_2 buckets hparse =>
      obtain ⟨k, hk, rfl⟩ := List.mem_map.mp hbuckets
      have hlt := List.mem_range.mp (List.mem_filter.mp hk).1
      obtain ⟨hsum, hpos⟩ := parsePpaLoop_cnt hparse (by simp)
      have htake := sum_take_lt (l := buckets.map (·.cnt)) (by simpa using hpos)
        (by simpa using hlt)
      rw [ListAccess.Fits, List.map_take]
      simpa [hsum] using htake

/-- A mapping that succeeds has a segment for each page of the buffer. -/
theorem nsg_of_map {n : DmaCtrl} (hp : n.Paged) {m : Mem} {prp1 prp2 len : Nat} {t t' : Mapping}
    (h : nvmeMapPrp .stub n m prp1 prp2 len t = some (nvmeSuccess, t')) :
    t'.qsg.nsg = t'.qsg.sg.length ∧ t'.qsg.nsg = 1 + n.pages (n.restLen prp1 (u32 len)) := by
  have hlt : u32 len < 2 ^ 32 := Nat.mod_lt _ (by decide)
  have hsame : nvmeMapPrp .stub n m prp1 prp2 (u32 len) t = some (nvmeSuccess, t') := by
    rw [← h, nvmeMapPrp, nvmeMapPrp, u32_eq hlt]
  obtain ⟨status, t₁, hrun, -, hmapped⟩ := nvmeMapPrp_stub hp m t hlt (mapEnds_of_run hp hlt hsame)
  rw [hsame] at hrun
  cases hrun
  have hmap := hmapped rfl
  exact ⟨hmap.covers.nsg_eq, by rw [hmap.covers.nsg_eq, hmap.length_eq]⟩

/-- **Transfer**: `backend_rw` reads an entry for each segment and one more. -/
theorem transferAccesses_fit_iff (cmd : NvmeCmd) (hnsg : s.map.qsg.nsg = s.map.qsg.sg.length) :
    (∀ a ∈ oc12TransferAccesses n cmd s, a.Fits s.slba.length) ↔
      s.map.qsg.nsg < s.slba.length := by
  obtain ⟨run, hrun, -⟩ := backendRwTraced_eq hnsg s.slba s.isWrite s.mem.host s.mb
  rw [oc12TransferAccesses, hrun]
  dsimp only
  constructor
  case mp =>
    intro h
    have hlast : .lbal s.map.qsg.sg.length ∈ (.lbal 0 ::
        (s.map.qsg.sg.mapIdx (segAccesses s.slba)).flatten : List BackendAccess) :=
      lbal_mem_iff.mpr le_rfl
    rw [hnsg]
    exact h _ (List.mem_append_left _ (List.mem_filterMap.mpr ⟨_, hlast, rfl⟩))
  case mpr =>
    intro hlt a ha
    rcases List.mem_append.mp ha with hbackend | hadvance
    · obtain ⟨b, hb, hentry⟩ := List.mem_filterMap.mp hbackend
      cases b with
      | lbal i =>
          cases hentry
          have hle := lbal_mem_iff.mp hb
          exact hle.trans_lt (hnsg ▸ hlt)
      | rw addr oft len => cases hentry
    · exact advanceAccesses_fit a hadvance

/-- What a command hands on to its transfer. -/
theorem prepare_map (hp : n.Paged) {isWrite : Bool}
    {metadata : List Nat → Oc12State → Except MetaFault Oc12State}
    (h : oc12RwPrepare n ns cmd isWrite metadata s = some (nvmeSuccess, s')) :
    s'.slba.length = cmd.nlb + 1 ∧ s'.map.qsg.nsg = s'.map.qsg.sg.length ∧
      s'.map.qsg.nsg = bufferPages n ns cmd := by
  have hslba := (prepare_success h).2.2
  have hlen : s'.slba.length = cmd.nlb + 1 := by
    rw [hslba, List.length_map, length_oc12ReadPpaList]
  refine ⟨hlen, ?_⟩
  unfold oc12RwPrepare at h
  dsimp only at h
  split at h
  case isTrue => cases h
  case isFalse =>
    split at h
    case isTrue herr =>
      simp only [Option.some.injEq, Prod.mk.injEq] at h
      exact absurd h.1 herr
    case isFalse =>
      split at h
      case h_1 => cases h
      case h_2 s₁ _ =>
        obtain ⟨⟨status, map⟩, hmap, heq⟩ := Option.map_eq_some_iff.mp h
        by_cases hstatus : status = nvmeSuccess
        · rw [hstatus] at hmap
          obtain ⟨-, rfl⟩ := Prod.mk.inj heq
          exact nsg_of_map hp hmap
        · simp only [ne_eq, hstatus, not_false_eq_true, if_true, Prod.mk.injEq] at heq
          exact absurd heq.1 invalidField_ne_success

/-- A command that reaches its transfer has passed the checks. -/
theorem check_of_transfers {isWrite : Bool}
    {metadata : List Nat → Oc12State → Except MetaFault Oc12State}
    (h : Transfers n ns cmd isWrite metadata s) :
    oc12RwCheckReq n ns cmd isWrite s.uncorrectable (oc12ReadPpaList n.toDmaCtrl s.mem cmd)
      (cmd.nlb + 1) (intToU64 ((cmd.nlb + 1) <<< ns.lbaDs))
      (intToU64 ((cmd.nlb + 1) * lbafMs ns)) = nvmeSuccess := by
  obtain ⟨s', h⟩ := h
  unfold oc12RwPrepare at h
  dsimp only at h
  split at h
  case isTrue => cases h
  case isFalse =>
    split at h
    case isTrue herr =>
      simp only [Option.some.injEq, Prod.mk.injEq] at h
      exact absurd h.1 herr
    case isFalse herr => exact not_not.mp herr

/-- **Read or write**: the array has an entry for each address, unless the count does not fit
into 16 bits; and it has one more for the transfer, where the buffer touches fewer pages. -/
theorem rwAccesses_fit_iff (hp : n.Paged) (isWrite : Bool)
    (metadata : List Nat → Oc12State → Except MetaFault Oc12State) :
    (∀ a ∈ oc12RwAccesses n ns cmd isWrite metadata s, a.Fits (u16 (cmd.nlb + 1))) ↔
      cmd.nlb + 1 < 2 ^ 16 ∧
        (Transfers n ns cmd isWrite metadata s → bufferPages n ns cmd < cmd.nlb + 1) := by
  have hnlb := cmd.nlb_lt
  by_cases hwrap : cmd.nlb + 1 < 2 ^ 16
  case neg =>
    have hzero : u16 (cmd.nlb + 1) = 0 := by
      rw [u16]
      omega
    refine iff_of_false (fun h => ?_) fun h => hwrap h.1
    have hcopy := (readPpaList_fits_iff cmd _).mp fun a ha => h a (List.mem_append_left _ ha)
    omega
  case pos =>
    have hlen := length_oc12ReadPpaList n.toDmaCtrl s.mem cmd
    have hroom : u16 (cmd.nlb + 1) = cmd.nlb + 1 := Nat.mod_eq_of_lt hwrap
    have hlist : ∀ a ∈ oc12ReadPpaListAccesses cmd, a.Fits (cmd.nlb + 1) :=
      (readPpaList_fits_iff cmd _).mpr le_rfl
    have hcheck : ∀ a ∈ oc12RwCheckAccesses n ns cmd (oc12ReadPpaList n.toDmaCtrl s.mem cmd),
        a.Fits (cmd.nlb + 1) := by
      rw [← hlen]
      exact checkAccesses_fit (by omega)
    have hloop : ∀ ok, ∀ a ∈ loopAccesses (oc12ReadPpaList n.toDmaCtrl s.mem cmd) ok,
        a.Fits (cmd.nlb + 1) := by
      rw [← hlen]
      exact loopAccesses_fit _
    rw [oc12RwAccesses, hroom, if_neg (Nat.succ_ne_zero _), List.forall_mem_append, List.forall_mem_append,
      and_iff_right hlist, and_iff_right hcheck, and_iff_right hwrap]
    split
    case isTrue herr =>
      exact iff_of_true (by simp) fun h => absurd (check_of_transfers h) herr
    case isFalse =>
      rw [List.forall_mem_append, and_iff_right (hloop _)]
      cases hprep : oc12RwPrepare n ns cmd isWrite metadata s with
      | none =>
          refine iff_of_true (by simp) ?_
          intro ⟨s', h⟩
          rw [hprep] at h
          cases h
      | some r =>
          obtain ⟨status, s'⟩ := r
          by_cases hstatus : status = nvmeSuccess
          · rw [hstatus] at hprep
            obtain ⟨hslba, hnsg, hpages⟩ := prepare_map hp hprep
            have hfits := transferAccesses_fit_iff (n := n) cmd hnsg
            rw [hslba, hpages] at hfits
            simp only [hstatus, ne_eq, not_true_eq_false, if_false, hfits]
            exact ⟨fun h _ => h, fun h => h ⟨s', hprep⟩⟩
          · simp only [ne_eq, hstatus, not_false_eq_true, if_true]
            refine iff_of_true (by simp) ?_
            intro ⟨s₁, h⟩
            rw [hprep] at h
            exact absurd (Prod.mk.inj (Option.some.inj h)).1 hstatus

end Rw

/-! ## sets of bad blocks -/

section BbtSet

variable {n : Oc12Dev} {m : Mem} {cmd : Oc12BbtSet} {bbtbl : List Oc12Bbt}

/-- A list that is transferred is copied as a whole. -/
theorem dmaWritePrp_success_iff {n : DmaCtrl} (hp : n.Paged) {len : Nat} (prp1 prp2 : Nat)
    (hlen : len < 2 ^ 32) : (∃ bytes, dmaWritePrp n m len prp1 prp2 = some (nvmeSuccess, bytes)) ↔
      n.MapEnds prp1 prp2 len ∧ PrpsGood n m n.maxPrpEnts prp1 prp2 len := by
  constructor
  case mp =>
    intro ⟨bytes, hrun⟩
    have hends := mapEnds_of_dmaWritePrp hp hlen hrun
    refine ⟨hends, ?_⟩
    by_contra hbad
    rw [dmaWritePrp_of_bad hp hlen hends hbad] at hrun
    exact absurd (Prod.mk.inj (Option.some.inj hrun)).1 invalidField_ne_success
  case mpr =>
    intro ⟨hends, hgood⟩
    obtain ⟨bytes, -, -, hrun⟩ := dmaWritePrp_of_good hp hlen hends hgood
    exact ⟨bytes, hrun⟩

/-- **Set**: the array is checked against nothing before the copy. -/
theorem bbtSetAccesses_fit_iff (hp : n.Paged) :
    (∀ a ∈ bbtSetAccesses n m cmd bbtbl, a.Fits n.maxSecPerRq.toNat) ↔
      (ListMapped n m cmd → cmd.nlb.toNat + 1 ≤ n.maxSecPerRq.toNat) := by
  have hlen : (cmd.nlb.toNat + 1) * 8 < 2 ^ 32 := by
    have hlt := cmd.nlb.toNat_lt
    omega
  have hdma := dmaWritePrp_success_iff (m := m) hp cmd.spba.toNat cmd.prp2.toNat hlen
  rw [bbtSetAccesses, ListMapped, ← hdma]
  split
  case isTrue hnsid => exact iff_of_true (by simp) fun h => absurd hnsid h.1
  case isFalse hnsid =>
    rw [and_iff_right hnsid]
    split
    case isTrue hone =>
      have hzero : cmd.nlb = 0 := by
        rw [← UInt16.toNat_inj]
        exact Nat.succ.inj hone
      simp [ListAccess.Fits, hzero, Nat.succ_le_iff]
    case isFalse hmany =>
      have hne : cmd.nlb ≠ 0 := fun h => hmany (by rw [h]; rfl)
      rw [or_iff_right hne]
      cases hrun : dmaWritePrp n.toDmaCtrl m ((cmd.nlb.toNat + 1) * 8) cmd.spba.toNat
          cmd.prp2.toNat with
      | none => simp
      | some r =>
          obtain ⟨status, bytes⟩ := r
          by_cases hstatus : status = nvmeSuccess
          · have hloop : ∀ ok, ∀ a ∈ loopAccesses (ppaWords (cmd.nlb.toNat + 1) bytes) ok,
                a.Fits (cmd.nlb.toNat + 1) := by
              intro ok
              have hfits := loopAccesses_fit (ppaWords (cmd.nlb.toNat + 1) bytes) ok
              rwa [ppaWords, List.length_map, List.length_range] at hfits
            simp only [hstatus, ne_eq, not_true_eq_false, if_false, Option.some.injEq,
              Prod.mk.injEq, true_and, exists_eq', true_implies, List.forall_mem_cons]
            refine ⟨fun h => h.1, fun h => ⟨h, fun a ha => ?_⟩⟩
            have hfit := hloop _ a ha
            cases a with
            | copy count => exact hfit.trans h
            | index i => exact hfit.trans_le h
          · simp [hstatus]

end BbtSet

/-- **Address lists**: a command stays inside its array exactly if this has room for it. -/
theorem ppa_lists_fit_iff {n : Oc12Dev} (hp : n.Paged) (ns : Admin.NvmeNamespace) (s : Oc12State)
    (bbtbl : List Oc12Bbt) (c : ListCmd) :
    (∀ a ∈ c.accesses n ns s bbtbl, a.Fits (c.room n)) ↔ c.HasRoom n ns s := by
  cases c with
  | read cmd mptr => exact rwAccesses_fit_iff hp false _
  | write cmd mptr => exact rwAccesses_fit_iff hp true _
  | erase cmd => exact readPpaList_fits_iff cmd _
  | bbtSet cmd => exact bbtSetAccesses_fit_iff hp

/-- A command for `nlb + 1` addresses, which are listed at `0x2000`. -/
def listCmd (opcode : UInt8) (nlb : UInt32) : NvmeCmd :=
  { opcode, nsid := 1, prp1 := 4096, cdw10 := 0x2000, cdw12 := nlb }

theorem defaultOc12_paged (ln : Oc12Ctrl) : (defaultOc12 ln).Paged := hostCtrl_paged

/-- A read of two sectors of 512 bytes into one page. -/
theorem ppa_lists_fit_two : ∃ ln, oc12InitMore ⟨4, 512, 2, 8, 2, 16⟩ 2097152 = some ln ∧
    ∀ a ∈ (ListCmd.read (listCmd Nand.nvmeCmdOcRead 1) 0).accesses (defaultOc12 ln)
      (Admin.initNamespace (defaultSetup 0).cfg) freshOc12 [], a.Fits 2 := by
  obtain ⟨ln, hln⟩ : ∃ ln, oc12InitMore ⟨4, 512, 2, 8, 2, 16⟩ 2097152 = some ln := ⟨_, rfl⟩
  have hpages : bufferPages (defaultOc12 ln) (Admin.initNamespace (defaultSetup 0).cfg)
      (listCmd Nand.nvmeCmdOcRead 1) = 1 := by
    change 1 + hostCtrl.pages (hostCtrl.restLen _ _) = 1
    decide +kernel
  refine ⟨ln, hln, (ppa_lists_fit_iff (defaultOc12_paged ln) _ freshOc12 []
    (.read (listCmd Nand.nvmeCmdOcRead 1) 0)).mpr ⟨by decide, fun _ => ?_⟩⟩
  rw [hpages]
  decide

/-- On the default device, which has room for 64 addresses: an erase of 65 addresses copies all
of them, and a read of `2^16` sectors copies their addresses into an array without entries. -/
theorem ppa_lists_overflow : ∃ n ns, SetUp (defaultSetup 0) n ns ∧
    (ListCmd.erase (listCmd Nand.nvmeCmdOcErase 64)).accesses n ns freshOc12 [] = [.copy 65] ∧
    (ListCmd.erase (listCmd Nand.nvmeCmdOcErase 64)).room n = 64 ∧
    (ListCmd.read (listCmd Nand.nvmeCmdOcRead 65535) 0).accesses n ns freshOc12 [] =
      [.copy 65536] ∧
    (ListCmd.read (listCmd Nand.nvmeCmdOcRead 65535) 0).room n = 0 ∧
    ¬ ∀ c : ListCmd, ∀ a ∈ c.accesses n ns freshOc12 [], a.Fits (c.room n) := by
  obtain ⟨ln, hln⟩ : ∃ ln, oc12InitMore ⟨4, 512, 2, 8, 2, 16⟩ 2097152 = some ln := ⟨_, rfl⟩
  refine ⟨defaultOc12 ln, _, setUp_default hln, rfl, rfl, rfl, rfl, fun h => ?_⟩
  have hfit := h (.erase (listCmd Nand.nvmeCmdOcErase 64)) (.copy 65) List.mem_cons_self
  exact absurd hfit (show ¬ 65 ≤ 64 by decide)

end Femu.Ocssd
