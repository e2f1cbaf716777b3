import Femu.Nvme.Prp

/-!
# Femu.Nvme.Discontig

Queues that are not contiguous (`nvme_setup_discontig` of `nvme-util.c`, `nvme_discontig` of
`nvme.h`). The pages of such a queue are to be read from a PRP list of the host.

The setup calls `nvme_addr_write` where it should read: what its buffer on the stack happens to
hold goes to the host, and is then taken for the list. The buffer is an argument here. The
callers of `nvme_discontig` pass the index of the entry for the size of a page and the size of
a page for the index.
-/

namespace Femu.Nvme

open Lib

/-! ## nvme_setup_discontig -/

/-- `n->page_size` is one of 16 bits. -/
structure DmaCtrl.Paged16 (n : DmaCtrl) : Prop extends n.Paged where
  pageSize_lt : n.pageSize < 2 ^ 16

def prpsPerPage (n : DmaCtrl) : Nat := u16 (n.pageSize >>> 3)

/-- `1 << es`, for the field of `CC` with the size of an entry. -/
def entrySize (es : Fin 16) : Nat := 2 ^ es.val

/-- `DIV_ROUND_UP` of the size of the queue and the size of a page. -/
def queuePages (n : DmaCtrl) (depth : UInt16) (es : Fin 16) : Nat :=
  (depth.toNat * entrySize es + n.pageSize - 1) / n.pageSize

def totalPrps (n : DmaCtrl) (depth : UInt16) (es : Fin 16) : Nat := u16 (queuePages n depth es)

/-- `prp[i]`, for what the buffer holds. -/
def bufPrp (buf : Bytes) (i : Nat) : Nat := leNat (readBytes buf (8 * i) 8)

/-- The loop of `nvme_setup_discontig` from `i` on, with the list up to there. -/
def setupLoop (n : DmaCtrl) (buf : Bytes) (total : Nat) :
    (turns i prpAddr : Nat) → List Nat → Mem → Option (List Nat) × Mem
  | 0, _, _, prpList, m => (some prpList, m)
  | turns + 1, i, prpAddr, prpList, m =>
      let fetch := i % prpsPerPage n = 0 ∧ i < total - 1
      if fetch ∧ n.badPrpEnt prpAddr then (none, m)
      else
        let m := if fetch then nvmeAddrWrite n m prpAddr (readBytes buf 0 (8 * prpsPerPage n)) else m
        let prpAddr := if fetch then bufPrp buf (prpsPerPage n - 1) else prpAddr
        let ent := bufPrp buf (i % prpsPerPage n)
        if n.badPrpEnt ent then (none, m)
        else setupLoop n buf total turns (i + 1) prpAddr (prpList ++ [ent]) m

/-- `nvme_setup_discontig`: the list, `none` for `NULL`, and the memory. `g_malloc0` of no bytes
is `calloc(1, 0)`, a list without entries and not `NULL`. -/
def nvmeSetupDiscontig (n : DmaCtrl) (buf : Bytes) (m : Mem) (prpAddr : Nat) (depth : UInt16)
    (es : Fin 16) : Option (List Nat) × Mem :=
  let total := totalPrps n depth es
  setupLoop n buf total total 0 prpAddr [] m

/-! ## nvme_discontig -/

/-- `nvme_discontig`; `none` is a division by zero or an index past the end of the list. -/
def nvmeDiscontig (dmaAddr : List Nat) (pageSize queueIdx entrySize : Nat) : Option Nat :=
  if entrySize = 0 then none
  else
    let entriesPerPage := u16 (pageSize / entrySize)
    if entriesPerPage = 0 then none
    else
      let prpIndex := u16 (queueIdx / entriesPerPage)
      let indexInPrp := u16 (queueIdx % entriesPerPage)
      dmaAddr[prpIndex]?.map fun page => page + indexInPrp * entrySize

/-- The address of an entry, as every caller asks for it. -/
def entryAddr (n : DmaCtrl) (prpList : List Nat) (idx : Nat) (es : Fin 16) : Option Nat :=
  nvmeDiscontig prpList idx n.pageSize (entrySize es)

/-! ## what the setup should do -/

/-- Every entry has a place in the pages, and different ones do not overlap. -/
def EntriesApart (n : DmaCtrl) (prpList : List Nat) (depth : UInt16) (es : Fin 16)
    (addr : Nat → Option Nat) : Prop :=
  ∀ i < depth.toNat, ∃ a, addr i = some a ∧
    (∃ page ∈ prpList, page ≤ a ∧ a + entrySize es ≤ page + n.pageSize) ∧
    ∀ j < depth.toNat, i ≠ j → ∀ b, addr j = some b → a + entrySize es ≤ b ∨ b + entrySize es ≤ a

/-- The entries of the list at `prpAddr`, with those that chain its pages. -/
def queueCells (n : DmaCtrl) (m : Mem) (prpAddr : Nat) (depth : UInt16) (es : Fin 16) :
    List (Cell Nat) :=
  listCells n m n.maxPrpEnts prpAddr (queuePages n depth es)

/-- Every entry that the queue needs is there. -/
def QueuePrpsGood (n : DmaCtrl) (m : Mem) (prpAddr : Nat) (depth : UInt16) (es : Fin 16) : Prop :=
  n.goodPrpEnt prpAddr ∧ ∀ c ∈ queueCells n m prpAddr depth es, n.goodPrpEnt c.val

/-- The result of the setup is the list of the host, which stays as it is; there is none only
where an entry is null or not aligned; and the entries of the queue have their places. -/
structure ReadsQueueList (n : DmaCtrl) (m : Mem) (prpAddr : Nat) (depth : UInt16) (es : Fin 16)
    (r : Option (List Nat) × Mem) : Prop where
  memory : r.2 = m
  null_iff : r.1 = none ↔ ¬ QueuePrpsGood n m prpAddr depth es
  pages : ∀ l, r.1 = some l → l = payload (queueCells n m prpAddr depth es)
  entries : ∀ l, r.1 = some l → l.Nodup → EntriesApart n l depth es fun i => entryAddr n l i es

variable {n : DmaCtrl} {m : Mem} {prpAddr : Nat} {depth : UInt16} {es : Fin 16} {buf : Bytes}

/-! ## the setup -/

theorem DmaCtrl.Paged16.prpsPerPage_eq (hp : n.Paged16) : prpsPerPage n = n.maxPrpEnts := by
  have hlt := hp.pageSize_lt
  rw [prpsPerPage, Nat.shiftRight_eq_div_pow, hp.maxPrpEnts_eq]
  exact Nat.mod_eq_of_lt (by omega)

/-- A list at a bad address is refused before the buffer is used. -/
theorem setup_of_bad (htotal : 2 ≤ totalPrps n depth es) (hbad : n.badPrpEnt prpAddr) :
    nvmeSetupDiscontig n buf m prpAddr depth es = (none, m) := by
  unfold nvmeSetupDiscontig
  generalize totalPrps n depth es = total at htotal
  obtain ⟨k, rfl⟩ := Nat.exists_eq_add_of_le' htotal
  simp [setupLoop, hbad]

/-- Of no entries the list is empty, whatever is at its address. -/
theorem setup_of_zero (htotal : totalPrps n depth es = 0) :
    nvmeSetupDiscontig n buf m prpAddr depth es = (some [], m) := by
  simp [nvmeSetupDiscontig, htotal, setupLoop]

theorem queuePages_zero (hp : n.Paged) : queuePages n 0 es = 0 := by
  have hsize := hp.le_pageSize
  rw [queuePages, UInt16.toNat_zero, Nat.zero_mul, Nat.zero_add]
  exact Nat.div_eq_of_lt (by omega)

/-- A queue without entries has no entries in the list. -/
theorem queueCells_zero (hp : n.Paged16) : queueCells n m prpAddr 0 es = [] := by
  have hcap : 2 ≤ n.maxPrpEnts := by
    have := hp.le_maxPrpEnts
    omega
  rw [queueCells, queuePages_zero hp.toPaged, listCells, chained_zero hcap]

/-- A single entry is taken from the buffer as it is. -/
theorem setup_of_one (htotal : totalPrps n depth es = 1) :
    nvmeSetupDiscontig n buf m prpAddr depth es =
      if n.badPrpEnt (bufPrp buf 0) then (none, m) else (some [bufPrp buf 0], m) := by
  simp [nvmeSetupDiscontig, htotal, setupLoop]

/-- With more entries the buffer goes to the host; a buffer whose first entry is bad is
refused then. -/
theorem setup_writes (htotal : 2 ≤ totalPrps n depth es) (hgood : ¬ n.badPrpEnt prpAddr)
    (hbad : n.badPrpEnt (bufPrp buf 0)) :
    nvmeSetupDiscontig n buf m prpAddr depth es =
      (none, nvmeAddrWrite n m prpAddr (readBytes buf 0 (8 * prpsPerPage n))) := by
  unfold nvmeSetupDiscontig
  generalize totalPrps n depth es = total at htotal
  obtain ⟨k, rfl⟩ := Nat.exists_eq_add_of_le' htotal
  simp [setupLoop, hgood, hbad]

/-- A buffer of zeros but for its first byte. -/
def oneByte (b : UInt8) : Bytes := fun a => if a = 0 then b else 0

theorem bufPrp_oneByte (b : UInt8) : bufPrp (oneByte b) 0 = b.toNat := by
  simp [bufPrp, readBytes, oneByte, leNat, List.range_succ]

theorem badPrpEnt_of_small (hp : n.Paged) {ent : Nat} (h : ent < 4096) : n.badPrpEnt ent := by
  have hsize := hp.le_pageSize
  rw [hp.badPrpEnt_iff, DmaCtrl.goodPrpEnt, Nat.mod_eq_of_lt (by omega)]
  omega

/-- A write of a buffer changes the memory if it changes the first byte. -/
theorem nvmeAddrWrite_ne {addr len : Nat} (hlen : 0 < len)
    (hne : buf 0 ≠ if n.inCmb addr then m.cmbuf (addr - n.ctrlMemAddr) else m.host addr) :
    nvmeAddrWrite n m addr (readBytes buf 0 len) ≠ m := by
  have hread : 0 < (readBytes buf 0 len).length := by simpa [readBytes] using hlen
  have hfirst : (readBytes buf 0 len)[0] = buf 0 := by simp [readBytes]
  intro heq
  unfold nvmeAddrWrite at heq
  split at heq
  case isTrue hin =>
    have hbyte := congrArg (fun m : Mem => m.cmbuf (addr - n.ctrlMemAddr)) heq
    have hnew : overwrite m.cmbuf (addr - n.ctrlMemAddr) (readBytes buf 0 len)
        (addr - n.ctrlMemAddr + 0) = _ := overwrite_add hread
    rw [Nat.add_zero, hfirst] at hnew
    rw [if_pos hin] at hne
    exact hne (hnew.symm.trans hbyte)
  case isFalse hout =>
    have hbyte := congrArg (fun m : Mem => m.host addr) heq
    have hnew : overwrite m.host addr (readBytes buf 0 len) (addr + 0) = _ := overwrite_add hread
    rw [Nat.add_zero, hfirst] at hnew
    rw [if_neg hout] at hne
    exact hne (hnew.symm.trans hbyte)

/-- A buffer whose first entry is the page after the first. -/
def pageBuf (n : DmaCtrl) : Bytes := fun a => if a = 1 then UInt8.ofNat (n.pageSize / 256) else 0

theorem good_pageBuf (hp : n.Paged16) : n.goodPrpEnt (bufPrp (pageBuf n) 0) := by
  have hsize := hp.le_pageSize
  have hlt := hp.pageSize_lt
  have hdvd : 2 ^ 8 ∣ n.pageSize := hp.pageSize_eq ▸ Nat.pow_dvd_pow 2 (by have := hp.le_pageBits; omega)
  have hval : bufPrp (pageBuf n) 0 = n.pageSize := by
    have hquot : n.pageSize / 256 < 256 := by omega
    have hbyte : (UInt8.ofNat (n.pageSize / 256)).toNat = n.pageSize / 256 :=
      UInt8.toNat_ofNat_of_lt' hquot
    simp [bufPrp, readBytes, pageBuf, leNat, List.range_succ]
    omega
  rw [hval]
  exact ⟨by omega, Nat.mod_self _⟩

/-! ## the places of the entries -/

/-- As it is called, `nvme_discontig` divides by zero for the first entry. -/
theorem entryAddr_zero {l : List Nat} : entryAddr n l 0 es = none := by
  simp [entryAddr, nvmeDiscontig, u16]

theorem not_entriesApart {l : List Nat} (hdepth : 0 < depth.toNat) :
    ¬ EntriesApart n l depth es fun i => entryAddr n l i es := by
  intro h
  obtain ⟨a, ha, -⟩ := h 0 hdepth
  cases entryAddr_zero.symm.trans ha

/-- A page holds a whole number of entries. -/
theorem entries_mul (hp : n.Paged) (hes : entrySize es ≤ n.pageSize) :
    n.pageSize / entrySize es * entrySize es = n.pageSize := by
  refine Nat.div_mul_cancel ?_
  rw [hp.pageSize_eq] at hes ⊢
  exact Nat.pow_dvd_pow 2 ((Nat.pow_le_pow_iff_right (by decide)).mp hes)

/-- The address of an entry, with the arguments in their order. -/
theorem nvmeDiscontig_eq (hp : n.Paged16) (hes : entrySize es ≤ n.pageSize) {l : List Nat} {i : Nat}
    (hi : i < 2 ^ 16) : nvmeDiscontig l n.pageSize i (entrySize es) =
      l[i / (n.pageSize / entrySize es)]?.map fun page =>
        page + i % (n.pageSize / entrySize es) * entrySize es := by
  have hpos : 0 < entrySize es := Nat.two_pow_pos _
  have hper : 0 < n.pageSize / entrySize es := Nat.div_pos hes hpos
  have hlt : n.pageSize / entrySize es < 2 ^ 16 :=
    Nat.lt_of_le_of_lt (Nat.div_le_self _ _) hp.pageSize_lt
  have hquot : i / (n.pageSize / entrySize es) < 2 ^ 16 :=
    Nat.lt_of_le_of_lt (Nat.div_le_self _ _) hi
  have hrem : i % (n.pageSize / entrySize es) < 2 ^ 16 := Nat.lt_of_le_of_lt (Nat.mod_le _ _) hi
  unfold nvmeDiscontig
  rw [if_neg hpos.ne']
  simp only [u16, Nat.mod_eq_of_lt hlt, Nat.mod_eq_of_lt hquot, Nat.mod_eq_of_lt hrem]
  exact if_neg hper.ne'

/-- Multiples of a page are a page apart. -/
theorem add_le_of_pages {p q k : Nat} (hp : p % k = 0) (hq : q % k = 0) (hlt : p < q) : p + k ≤ q := by
  obtain ⟨a, rfl⟩ := Nat.dvd_of_mod_eq_zero hp
  obtain ⟨b, rfl⟩ := Nat.dvd_of_mod_eq_zero hq
  have hab : a < b := Nat.lt_of_mul_lt_mul_left hlt
  calc k * a + k = k * (a + 1) := (Nat.mul_succ k a).symm
    _ ≤ k * b := Nat.mul_le_mul_left k hab

/-- Every entry of the queue is in a page of the list. -/
theorem exists_page (hp : n.Paged16) (hes : entrySize es ≤ n.pageSize) {l : List Nat}
    (hlen : l.length = queuePages n depth es) {i : Nat} (hi : i < depth.toNat) :
    ∃ page, l[i / (n.pageSize / entrySize es)]? = some page ∧
      nvmeDiscontig l n.pageSize i (entrySize es) =
        some (page + i % (n.pageSize / entrySize es) * entrySize es) := by
  have hpos : 0 < entrySize es := Nat.two_pow_pos _
  have hsize := hp.le_pageSize
  have hbytes : i / (n.pageSize / entrySize es) * n.pageSize < depth.toNat * entrySize es :=
    calc i / (n.pageSize / entrySize es) * n.pageSize
        = i / (n.pageSize / entrySize es) * (n.pageSize / entrySize es) * entrySize es := by
          rw [Nat.mul_assoc, entries_mul hp.toPaged hes]
      _ ≤ i * entrySize es := Nat.mul_le_mul_right _ (Nat.div_mul_le_self _ _)
      _ < depth.toNat * entrySize es := Nat.mul_lt_mul_of_pos_right hi hpos
  have hin : i / (n.pageSize / entrySize es) < l.length := by
    rw [hlen, queuePages, Nat.lt_iff_add_one_le, Nat.le_div_iff_mul_le (by omega), Nat.succ_mul]
    omega
  refine ⟨_, List.getElem?_eq_getElem hin, ?_⟩
  rw [nvmeDiscontig_eq hp hes (Nat.lt_trans hi depth.toNat_lt), List.getElem?_eq_getElem hin]
  rfl

/-- Places in pages that are not the same are apart. -/
theorem apart_of_lt {p q k a b e : Nat} (hp : p % k = 0) (hq : q % k = 0) (ha : a + e ≤ k)
    (hlt : p < q) : p + a + e ≤ q + b := by
  have := add_le_of_pages hp hq hlt
  omega

/-- With its arguments in their order, `nvme_discontig` keeps the entries of a queue apart in
the pages of its list. -/
theorem nvmeDiscontig_apart (hp : n.Paged16) (hes : entrySize es ≤ n.pageSize) {l : List Nat}
    (hlen : l.length = queuePages n depth es) (hpages : ∀ page ∈ l, page % n.pageSize = 0)
    (hnodup : l.Nodup) :
    EntriesApart n l depth es fun i => nvmeDiscontig l n.pageSize i (entrySize es) := by
  have hper : 0 < n.pageSize / entrySize es := Nat.div_pos hes (Nat.two_pow_pos _)
  have hfits : ∀ i, i % (n.pageSize / entrySize es) * entrySize es + entrySize es ≤ n.pageSize := by
    intro i
    have hle := Nat.mul_le_mul_right (entrySize es) (Nat.mod_lt i hper)
    rwa [entries_mul hp.toPaged hes, Nat.succ_mul] at hle
  intro i hi
  obtain ⟨p, hp', ha⟩ := exists_page hp hes hlen hi
  refine ⟨_, ha, ⟨p, List.mem_of_getElem? hp', Nat.le_add_right _ _, ?_⟩, ?_⟩
  · have := hfits i
    omega
  · intro j hj hne b hb
    obtain ⟨q, hq', hb'⟩ := exists_page hp hes hlen hj
    cases hb.symm.trans hb'
    have hpmod := hpages p (List.mem_of_getElem? hp')
    have hqmod := hpages q (List.mem_of_getElem? hq')
    obtain hlt | rfl | hgt := Nat.lt_trichotomy p q
    · exact .inl (apart_of_lt hpmod hqmod (hfits i) hlt)
    -- entries of one page have different numbers in it
    · have hin := (List.getElem?_eq_some_iff.mp hp').1
      have hquot := (List.getElem?_inj hin hnodup).mp (hp'.trans hq'.symm)
      have hrem : i % (n.pageSize / entrySize es) ≠ j % (n.pageSize / entrySize es) := by
        intro hrem
        exact hne (by rw [← Nat.div_add_mod i, ← Nat.div_add_mod j, hquot, hrem])
      rcases Nat.lt_or_gt_of_ne hrem with hlt | hgt
      · have := Nat.mul_le_mul_right (entrySize es) hlt
        rw [Nat.succ_mul] at this
        exact .inl (by omega)
      · have := Nat.mul_le_mul_right (entrySize es) hgt
        rw [Nat.succ_mul] at this
        exact .inr (by omega)
    · exact .inr (apart_of_lt hqmod hpmod (hfits j) hgt)

/-- **Queues that are not contiguous**: whatever the buffer on the stack holds, the setup gives
the list of the host exactly when it uses none of it: the list has a bad address and more than
one entry, or the queue has no entries and the address is good. -/
theorem reads_queue_list_iff (hp : n.Paged16) :
    (∀ buf, ReadsQueueList n m prpAddr depth es (nvmeSetupDiscontig n buf m prpAddr depth es)) ↔
      2 ≤ totalPrps n depth es ∧ ¬ n.goodPrpEnt prpAddr ∨
        depth = 0 ∧ n.goodPrpEnt prpAddr := by
  have hbad : ∀ ent, n.badPrpEnt ent ↔ ¬ n.goodPrpEnt ent := hp.badPrpEnt_iff
  constructor
  · intro h
    obtain hzero | hone | htwo : totalPrps n depth es = 0 ∨ totalPrps n depth es = 1 ∨
      2 ≤ totalPrps n depth es := by omega
    · have hr := h (oneByte 0)
      rw [setup_of_zero hzero] at hr
      have hdepth : ¬ 0 < depth.toNat := fun hpos =>
        not_entriesApart hpos (hr.entries [] rfl List.nodup_nil)
      have hgood : QueuePrpsGood n m prpAddr depth es :=
        not_not.mp fun hbad => absurd (hr.null_iff.mpr hbad) (by simp)
      exact .inr ⟨UInt16.toNat_inj.mp (Nat.eq_zero_of_not_pos hdepth), hgood.1⟩
    · have hnull := (h (oneByte 0)).null_iff
      have hlist := (h (pageBuf n)).null_iff
      rw [setup_of_one hone, if_pos (badPrpEnt_of_small hp.toPaged (by simp [bufPrp_oneByte]))]
        at hnull
      rw [setup_of_one hone, if_neg (by rw [hbad]; exact not_not.mpr (good_pageBuf hp))] at hlist
      exact absurd (hlist.mpr (hnull.mp rfl)) (by simp)
    · refine .inl ⟨htwo, fun hgood => ?_⟩
      let old := if n.inCmb prpAddr then m.cmbuf (prpAddr - n.ctrlMemAddr) else m.host prpAddr
      have hr := (h (oneByte (old + 1))).memory
      have hsmall : bufPrp (oneByte (old + 1)) 0 < 4096 := by
        rw [bufPrp_oneByte]
        exact Nat.lt_trans (UInt8.toNat_lt _) (by decide)
      rw [setup_writes htwo (by rw [hbad]; exact not_not.mpr hgood)
        (badPrpEnt_of_small hp.toPaged hsmall)] at hr
      have hpos := hp.le_maxPrpEnts
      refine nvmeAddrWrite_ne ?_ ?_ hr
      · rw [hp.prpsPerPage_eq]
        omega
      · show oneByte (old + 1) 0 ≠ old
        simp [oneByte]
  · rintro (⟨htwo, hgood⟩ | ⟨rfl, hgood⟩) buf
    · rw [setup_of_bad htwo ((hbad _).mpr hgood)]
      refine ⟨rfl, ⟨fun _ h => hgood h.1, fun _ => rfl⟩, fun l hl => ?_, fun l hl => ?_⟩
      · cases hl
      · cases hl
    · rw [setup_of_zero (by rw [totalPrps, queuePages_zero hp.toPaged]; rfl)]
      have hcells : queueCells n m prpAddr 0 es = [] := queueCells_zero hp
      refine ⟨rfl, iff_of_false (by simp) (not_not.mpr ⟨hgood, ?_⟩), fun l hl => ?_, fun l _ _ => ?_⟩
      · rw [hcells]
        exact fun c hc => absurd hc List.not_mem_nil
      · cases hl
        rw [hcells]
        rfl
      · exact fun i hi => absurd hi (Nat.not_lt_zero i)

/-- A controller with pages of 4096 bytes and no memory of its own. -/
def smallPages : DmaCtrl where
  pageSize := 4096
  pageBits := 12
  maxPrpEnts := 512
  cmbsz := 0
  ctrlMemAddr := 0
  ctrlMemSize := 0

theorem smallPages_paged : smallPages.Paged16 := ⟨⟨by decide, rfl, rfl⟩, by decide⟩

/-- A list of two pages at an address that is not aligned is refused. In two such pages the
entries of the queue would be apart. -/
theorem reads_queue_list_refused :
    ReadsQueueList smallPages ⟨fun _ => 0, fun _ => 0⟩ 0x2008 128 6
        (nvmeSetupDiscontig smallPages (oneByte 1) ⟨fun _ => 0, fun _ => 0⟩ 0x2008 128 6) ∧
      EntriesApart smallPages [0x1000, 0x3000] 128 6 fun i =>
        nvmeDiscontig [0x1000, 0x3000] smallPages.pageSize i (entrySize 6) :=
  ⟨(reads_queue_list_iff smallPages_paged).mpr (.inl ⟨by decide, by decide⟩) (oneByte 1),
    nvmeDiscontig_apart smallPages_paged (by decide) (by decide) (by decide) (by decide)⟩

/-- The list of a queue in one page is not read. -/
theorem one_page_not_read :
    ¬ ∀ (n : DmaCtrl) (m : Mem) (prpAddr : Nat) (depth : UInt16) (es : Fin 16) (buf : Bytes),
      n.Paged16 → n.goodPrpEnt prpAddr →
      ReadsQueueList n m prpAddr depth es (nvmeSetupDiscontig n buf m prpAddr depth es) := by
  intro hall
  have hrun : nvmeSetupDiscontig smallPages (pageBuf smallPages) ⟨fun _ => 0, fun _ => 0⟩ 0x2000 64 6 =
      (some [0x1000], ⟨fun _ => 0, fun _ => 0⟩) := by
    rw [setup_of_one (by decide), if_neg (by decide)]
    rfl
  have hread := hall smallPages ⟨fun _ => 0, fun _ => 0⟩ 0x2000 64 6 (pageBuf smallPages)
    smallPages_paged (by decide)
  rw [hrun] at hread
  have hbad : ¬ QueuePrpsGood smallPages ⟨fun _ => 0, fun _ => 0⟩ 0x2000 64 6 := by
    rintro ⟨-, hcells⟩
    exact absurd (hcells (.item 0) (by decide +kernel)) (by decide)
  exact absurd (hread.null_iff.mpr hbad) (by simp)

end Femu.Nvme
