import Femu.Lib.Transition
import Femu.Ocssd.Chunk
import Femu.Ocssd.Oc20Bounds

/-!
# Femu.Ocssd.ChunkState

The write pointers of the chunks over runs of the device. The check of a write goes
through the runs of its list, one for each chunk; the update adds the length of the
whole list to the write pointer of the first chunk. Write pointer and state of every
chunk are right as long as every write that is accepted stays in one chunk
(`OneChunk`), and a write over two chunks makes both of them wrong.
-/

namespace Femu.Ocssd

open Lib Lib.Traced Nvme

variable {n : Oc20Ctrl} {lns : Oc20Namespace} {rc : Oc20Resets}

/-! ## statement -/

/-- The address of a sector of the chunk, if the event is its write. -/
def ChunkEvent.sector (lns : Oc20Namespace) (i : Nat) : ChunkEvent → Option Nat
  | .wrote lba => if oc20LbaValid lns lba ∧ oc20LbaToChunkIndex lns lba = i then some lba else none
  | .reset _ => none

/-- The number of sectors written to a chunk since it was last reset. -/
def sectorsWritten (lns : Oc20Namespace) (log : List ChunkEvent) (i : Nat) : Nat :=
  (since (fun e => decide (e = .reset i)) (ChunkEvent.sector lns i) log).length

/-- The write pointer counts the sectors, and the state says how full the chunk is. -/
structure ChunkTracked (c : Oc20CS) (written : Nat) : Prop where
  wp_eq : c.wp = written
  wp_le : c.wp ≤ c.cnlb
  free : c.state = oc20ChunkFree ↔ c.wp = 0
  closed : c.state = oc20ChunkClosed ↔ c.wp = c.cnlb
  opened : c.wp ≠ 0 → c.wp ≠ c.cnlb → c.state = oc20ChunkOpen

/-- The addresses of the list are sectors of one chunk. -/
def OneChunk (lns : Oc20Namespace) (lbas : List Nat) : Prop :=
  ∃ i, ∀ lba ∈ lbas, oc20LbaValid lns lba ∧ oc20LbaToChunkIndex lns lba = i

/-- A write that is accepted stays in one chunk, and no reset is made to fail. -/
def StaysInChunk (n : Oc20Ctrl) (lns : Oc20Namespace) (rc : Oc20Resets) (r : Oc20Run) :
    Oc20Event → Prop
  | .env _ => True
  | .rw cmd vector => oc20RwIsWrite cmd.opcode = true → Accepted n lns cmd vector r.dev →
      OneChunk lns (lbaList n.toDmaCtrl r.dev.mem cmd vector)
  | .erase _ _ rand => ∀ i k, ¬ rc.fails i (rand k)

/-- A step of the device. -/
def Oc20Run.Step (n : Oc20Ctrl) (lns : Oc20Namespace) (rc : Oc20Resets) (r : Oc20Run)
    (ev : Oc20Event) (r' : Oc20Run) : Prop :=
  r.step n lns rc ev = some r'

/-- A step that stays in its chunk. -/
def Oc20Run.StepInChunk (n : Oc20Ctrl) (lns : Oc20Namespace) (rc : Oc20Resets) (r : Oc20Run)
    (ev : Oc20Event) (r' : Oc20Run) : Prop :=
  StaysInChunk n lns rc r ev ∧ r.Step n lns rc ev r'

/-! ## counting sectors -/

theorem sectorsWritten_reset (log : List ChunkEvent) (i j : Nat) :
    sectorsWritten lns (log ++ [.reset i]) j = if j = i then 0 else sectorsWritten lns log j := by
  unfold sectorsWritten
  by_cases hj : j = i
  · simp [since_snoc, hj]
  · have hne : ChunkEvent.reset i ≠ .reset j := fun hc => hj (ChunkEvent.reset.inj hc).symm
    rw [since_snoc_of_none (by simp [hne]) rfl, if_neg hj]

theorem sectorsWritten_wrote (log : List ChunkEvent) (lba j : Nat) :
    sectorsWritten lns (log ++ [.wrote lba]) j = sectorsWritten lns log j +
      if oc20LbaValid lns lba ∧ oc20LbaToChunkIndex lns lba = j then 1 else 0 := by
  unfold sectorsWritten
  by_cases hin : oc20LbaValid lns lba ∧ oc20LbaToChunkIndex lns lba = j
  · simp [since_snoc, ChunkEvent.sector, hin]
  · rw [since_snoc_of_none (by simp) (by simp only [ChunkEvent.sector, if_neg hin]), if_neg hin,
      Nat.add_zero]

/-- A list of sectors of one chunk adds its length to that chunk. -/
theorem sectorsWritten_list {i : Nat} {lbas : List Nat}
    (h : ∀ lba ∈ lbas, oc20LbaValid lns lba ∧ oc20LbaToChunkIndex lns lba = i)
    (log : List ChunkEvent) (j : Nat) :
    sectorsWritten lns (log ++ lbas.map .wrote) j =
      sectorsWritten lns log j + if j = i then lbas.length else 0 := by
  induction lbas generalizing log with
  | nil => simp
  | cons lba rest ih =>
      obtain ⟨hvalid, hidx⟩ := h lba List.mem_cons_self
      have hrest := ih (fun a ha => h a (List.mem_cons_of_mem lba ha)) (log ++ [.wrote lba])
      rw [List.append_assoc] at hrest
      rw [List.map_cons, ← List.singleton_append, hrest, sectorsWritten_wrote, hidx]
      by_cases hj : j = i
      · simp only [hj, hvalid, true_and, if_true, List.length_cons]
        omega
      · simp [hj, Ne.symm hj]

/-! ## the write check in one chunk -/

/-- The loop of the write check, when the rest of the list stays in the chunk: `prev`
is the last address of the run so far. -/
theorem checkWriteLoop_one {chunkInfo : Nat → Oc20CS} {rest : List Nat} {lba prev i ws : Nat}
    (hrest : ∀ a ∈ rest, oc20LbaValid lns a ∧ oc20LbaToChunkIndex lns a = i)
    (hprev : lns.lbaf.getSectr prev < lns.geo.clba.toNat)
    (hws : lns.lbaf.getSectr prev + 1 = lns.lbaf.getSectr lba + ws)
    (h : checkWriteLoop lns chunkInfo rest lba i (lns.lbaf.getSectr prev) ws = nvmeSuccess) :
    oc20RwCheckChunkWrite lns chunkInfo lba (ws + rest.length) = nvmeSuccess ∧
      lns.lbaf.getSectr lba + (ws + rest.length) ≤ lns.geo.clba.toNat := by
  induction rest generalizing prev ws with
  | nil =>
      simp only [checkWriteLoop] at h
      refine ⟨h, ?_⟩
      simp only [List.length_nil]
      omega
  | cons next rest ih =>
      obtain ⟨hvalid, hidx⟩ := hrest next List.mem_cons_self
      have hclba := lns.geo.clba.toNat_lt
      simp only [checkWriteLoop, hidx, ne_eq, not_true_eq_false, if_false] at h
      split at h
      · simp [oc20OutOfOrderWrite, nvmeDnr, nvmeSuccess] at h
      · rename_i hsectr
        rw [not_not, u32_eq (by omega)] at hsectr
        rw [u32_eq (by omega), hsectr] at h
        have hnext := ih (fun a ha => hrest a (List.mem_cons_of_mem next ha)) hvalid.1 (by omega) h
        rwa [List.length_cons, Nat.add_comm rest.length, ← Nat.add_assoc]

/-- An accepted write that stays in one chunk starts at the write pointer of the chunk
and fits in it. -/
theorem checkWriteReq_one (hsec : lns.lbaf.secOffset = 0) {chunkInfo : Nat → Oc20CS} {i : Nat}
    {lba : Nat} {rest : List Nat}
    (hlist : ∀ a ∈ lba :: rest, oc20LbaValid lns a ∧ oc20LbaToChunkIndex lns a = i)
    (htype : (chunkInfo i).type ≠ oc20ChunkTypeRan)
    (h : oc20RwCheckWriteReq lns chunkInfo (lba :: rest) = nvmeSuccess) :
    (chunkInfo i).state &&& oc20ChunkClosed = 0 ∧ (chunkInfo i).cnlb ≠ 0 ∧
      (chunkInfo i).wp + (rest.length + 1) ≤ lns.geo.clba.toNat := by
  obtain ⟨hvalid, hidx⟩ := hlist lba List.mem_cons_self
  have hclba := lns.geo.clba.toNat_lt
  have hlt := hvalid.1
  rw [oc20RwCheckWriteReq, hidx, u32_eq (by omega)] at h
  obtain ⟨hcheck, hfit⟩ :=
    checkWriteLoop_one (fun a ha => hlist a (List.mem_cons_of_mem lba ha)) hlt rfl h
  have hstart : lba &&& lns.lbaf.secMask = lns.lbaf.getSectr lba := by
    rw [Oc20AddrF.getSectr, hsec, Nat.shiftRight_zero]
  have hstate : oc20ChunkGetState lns lba = some i := by
    rw [oc20ChunkGetState, if_pos hvalid, hidx]
  simp only [oc20RwCheckChunkWrite, hstate, hstart] at hcheck
  rw [u32_eq (x := lns.lbaf.getSectr lba) (by omega), u32_eq (by omega)] at hcheck
  split at hcheck
  · simp [nvmeWriteFault, nvmeDnr, nvmeSuccess] at hcheck
  · rename_i hopen
    split at hcheck
    · simp [nvmeWriteFault, nvmeDnr, nvmeSuccess] at hcheck
    · rename_i hcnlb
      split at hcheck
      · simp [oc20OutOfOrderWrite, nvmeDnr, nvmeSuccess] at hcheck
      · rename_i hwp
        rw [not_not] at hwp
        refine ⟨not_not.mp fun hc => hopen (.inr hc), by omega, by omega⟩

/-! ## what a command does to the chunk table -/

/-- The state has the same chunks and the same command as before. -/
def SameCommand (s s' : Oc20State) : Prop :=
  s'.chunkInfo = s.chunkInfo ∧ s'.isWrite = s.isWrite ∧ s'.lbas = s.lbas

theorem advanceLoop_frame (bs : List Oc20AddrBucket) (total : Int) (s : Oc20State) :
    Ends (advanceLoop n lns bs total) s fun _ _ s' => SameCommand s s' := by
  induction bs generalizing total s with
  | nil => simp [advanceLoop, SameCommand]
  | cons b bs ih =>
      simp only [advanceLoop, advanceChipTimestamp, ends_bind, ends_get, ends_emit, ends_assert,
        ends_modify, ends_pure]
      exact fun _ => ih _ _

theorem advanceStatus_frame (s : Oc20State) :
    Ends (oc20AdvanceStatus n lns) s fun _ _ s' => SameCommand s s' := by
  simp only [oc20AdvanceStatus, ends_bind, ends_get]
  split
  · simp
  · simp only [ends_bind, ends_assert, ends_modify]
    exact fun _ => advanceLoop_frame _ 0 s

theorem emitLbas_frame (lbas : List Nat) (s : Oc20State) {P : Unit → Oc20State → Prop}
    (h : P () s) : Ends (emitLbas lbas) s fun _ => P := by
  induction lbas with
  | nil => simpa [emitLbas] using h
  | cons lba rest ih => simpa [emitLbas] using ih

theorem backendReq_frame (s : Oc20State) :
    Ends (backendReq lns) s fun _ _ s' => SameCommand s s' := by
  simp only [backendReq, ends_bind, ends_get]
  refine emitLbas_frame _ s fun _ s' hs' => ?_
  obtain ⟨r, -, heq⟩ := Option.map_eq_some_iff.mp hs'
  simp only [Prod.mk.injEq, true_and] at heq
  rw [← heq]
  exact ⟨rfl, rfl, rfl⟩

/-- **What a command does to the chunk table**: a write that is accepted advances the
write pointer of its first address by the length of its list, and no other command
changes anything. -/
theorem oc20Rw_chunkInfo (cmd : NvmeCmd) (vector : Bool) (s : Oc20State) :
    Ends (oc20Rw n lns cmd vector) s fun _ status s' => s'.chunkInfo =
      if status = nvmeSuccess ∧ oc20RwIsWrite cmd.opcode then
        (oc20AdvanceWp lns s.chunkInfo ((lbaList n.toDmaCtrl s.mem cmd vector).headD 0)
          (cmd.nlb + 1)).1
      else s.chunkInfo := by
  unfold oc20Rw
  have hinvalid := invalidField_ne_success
  simp only [ends_bind, ends_ite, ends_get, ends_modify, ends_pure, ends_ofState]
  refine ⟨fun _ _ s' hs' => ?_, fun _ => ⟨fun herr => by simp [herr], fun _ => ?_⟩⟩
  · obtain ⟨errs, -, heq⟩ := Option.map_eq_some_iff.mp hs'
    simp only [Prod.mk.injEq, true_and] at heq
    simp [hinvalid, ← heq]
  · simp only [oc20RwTransfer, ends_bind, ends_ite, ends_pure]
    intro status s' hmap
    obtain ⟨map, -, rfl⟩ := mapReq_eq_some.mp hmap
    refine ⟨fun _ => by simp [hinvalid], fun _ => ?_⟩
    refine (backendReq_frame _).imp fun _ _ s₁ hback => ?_
    obtain ⟨hc₁, hw₁, hl₁⟩ := hback
    simp only [oc20RwComplete, ends_bind, ends_modify, ends_pure]
    refine (advanceStatus_frame s₁).imp fun _ _ s₂ hadvance => ?_
    obtain ⟨hc₂, hw₂, hl₂⟩ := hadvance
    simp [hc₂, hw₂, hl₂, hc₁, hw₁, hl₁]

/-! ## the invariant -/

/-- A chunk of the table is tracked; the memory behind the table stays zero. -/
def ChunkInv (lns : Oc20Namespace) (log : List ChunkEvent) (i : Nat) (c : Oc20CS) : Prop :=
  (c.type = oc20ChunkTypeSeq ∧ c.cnlb = chunkCnlb lns.geo ∧
    ChunkTracked c (sectorsWritten lns log i)) ∨ c = ⟨0, 0, 0, 0, 0, 0⟩

theorem clba_le_chunkCnlb (geo : Oc20IdGeo) : geo.clba.toNat ≤ chunkCnlb geo := by
  unfold chunkCnlb
  split <;> omega

/-- A chunk that has just become free. -/
theorem tracked_free {c : Oc20CS} (hstate : c.state = oc20ChunkFree) (hwp : c.wp = 0)
    (hcnlb : c.cnlb ≠ 0) : ChunkTracked c 0 where
  wp_eq := hwp
  wp_le := by omega
  free := by simp [hstate, hwp]
  closed := by
    have hne : oc20ChunkFree ≠ oc20ChunkClosed := by decide
    rw [hstate, hwp]
    exact iff_of_false hne (Ne.symm hcnlb)
  opened := fun h => absurd hwp h

/-- The state of a chunk with room for a write of `k` sectors. -/
theorem ChunkTracked.free_or_open {c : Oc20CS} {w : Nat} (h : ChunkTracked c w)
    (hnot : c.state &&& oc20ChunkClosed = 0) :
    c.state = oc20ChunkFree ∨ c.state = oc20ChunkOpen := by
  have hne : oc20ChunkClosed &&& oc20ChunkClosed ≠ 0 := by decide
  by_cases h0 : c.wp = 0
  · exact .inl (h.free.mpr h0)
  · by_cases hfull : c.wp = c.cnlb
    · rw [h.closed.mpr hfull] at hnot
      exact absurd hnot hne
    · exact .inr (h.opened h0 hfull)

/-- The chunk after a write of `k` sectors that fit. -/
def Oc20CS.advanced (c : Oc20CS) (k : Nat) : Oc20CS :=
  { c with
    state := if c.wp + k = c.cnlb then oc20ChunkClosed else oc20ChunkOpen
    wp := c.wp + k }

theorem ChunkTracked.advanced {c : Oc20CS} {w k : Nat} (h : ChunkTracked c w) (hk : 0 < k)
    (hle : c.wp + k ≤ c.cnlb) : ChunkTracked (c.advanced k) (w + k) := by
  have hcf : oc20ChunkClosed ≠ oc20ChunkFree := by decide
  have hof : oc20ChunkOpen ≠ oc20ChunkFree := by decide
  have hoc : oc20ChunkOpen ≠ oc20ChunkClosed := by decide
  have hwp : c.wp + k ≠ 0 := by omega
  have heq : c.wp + k = w + k := by rw [h.wp_eq]
  unfold Oc20CS.advanced
  by_cases hfull : c.wp + k = c.cnlb
  · rw [if_pos hfull]
    exact ⟨heq, hle, iff_of_false hcf hwp, iff_of_true rfl hfull, fun _ hne => absurd hfull hne⟩
  · rw [if_neg hfull]
    exact ⟨heq, hle, iff_of_false hof hwp, iff_of_false hoc hfull, fun _ _ => rfl⟩

/-- `oc20_advance_wp` on a chunk with room. -/
theorem oc20AdvanceWp_eq {chunkInfo : Nat → Oc20CS} {lba i k : Nat}
    (hstate : oc20ChunkGetState lns lba = some i) (htype : (chunkInfo i).type = oc20ChunkTypeSeq)
    (hopen : (chunkInfo i).state = oc20ChunkFree ∨ (chunkInfo i).state = oc20ChunkOpen)
    (hlt : (chunkInfo i).wp + k < 2 ^ 64) :
    (oc20AdvanceWp lns chunkInfo lba k).1 =
      Function.update chunkInfo i ((chunkInfo i).advanced k) := by
  have hran : oc20ChunkTypeSeq ≠ oc20ChunkTypeRan := by decide
  have hfo : oc20ChunkOpen ≠ oc20ChunkFree := by decide
  unfold Oc20CS.advanced
  by_cases hfull : (chunkInfo i).wp + k = (chunkInfo i).cnlb
  · rw [hfull] at hlt
    obtain hst | hst := hopen
    · simp [oc20AdvanceWp, hstate, htype, hran, hst, u64_eq hlt, hfull]
    · simp [oc20AdvanceWp, hstate, htype, hran, hst, hfo, u64_eq hlt, hfull]
  · obtain hst | hst := hopen
    · simp [oc20AdvanceWp, hstate, htype, hran, hst, u64_eq hlt, hfull]
    · simp [oc20AdvanceWp, hstate, htype, hran, hst, hfo, u64_eq hlt, hfull]

theorem length_lbaList (d : DmaCtrl) (m : Mem) (cmd : NvmeCmd) (vector : Bool) :
    (lbaList d m cmd vector).length = cmd.nlb + 1 := by
  unfold lbaList
  cases vector with
  | false => simp
  | true =>
      simp only [if_true]
      split
      · simp
      · simp
        omega

/-- **Step lemma for writes**: a write that is accepted and stays in one chunk advances
that chunk by the sectors it has written. -/
theorem write_inv (hsec : lns.lbaf.secOffset = 0) {log : List ChunkEvent}
    {chunkInfo : Nat → Oc20CS} {lbas : List Nat} (hne : lbas ≠ [])
    (h : ∀ i, ChunkInv lns log i (chunkInfo i)) (hone : OneChunk lns lbas)
    (hcheck : oc20RwCheckWriteReq lns chunkInfo lbas = nvmeSuccess) (j : Nat) :
    ChunkInv lns (log ++ lbas.map .wrote) j
      ((oc20AdvanceWp lns chunkInfo (lbas.headD 0) lbas.length).1 j) := by
  obtain ⟨i, hlist⟩ := hone
  match lbas, hne with
  | lba :: rest, _ =>
    have hclba := lns.geo.clba.toNat_lt
    have htype : (chunkInfo i).type ≠ oc20ChunkTypeRan := by
      obtain ⟨ht, -⟩ | hz := h i
      · rw [ht]
        decide
      · rw [hz]
        decide
    obtain ⟨hnot, hcnlb, hfit⟩ := checkWriteReq_one hsec hlist htype hcheck
    obtain ⟨ht, hc, htracked⟩ | hz := h i
    · obtain ⟨hvalid, hidx⟩ := hlist lba List.mem_cons_self
      have hstate : oc20ChunkGetState lns lba = some i := by
        rw [oc20ChunkGetState, if_pos hvalid, hidx]
      have hle := clba_le_chunkCnlb lns.geo
      rw [List.headD_cons, List.length_cons, oc20AdvanceWp_eq hstate ht
        (htracked.free_or_open hnot) (by omega)]
      unfold ChunkInv
      rw [sectorsWritten_list hlist]
      by_cases hj : j = i
      · subst hj
        rw [Function.update_self, if_pos rfl]
        exact .inl ⟨ht, hc, htracked.advanced (Nat.succ_pos _) (by omega)⟩
      · rw [Function.update_of_ne hj, if_neg hj, Nat.add_zero]
        exact h j
    · rw [hz] at hcnlb
      exact absurd rfl hcnlb

/-- A reset that is not made to fail frees the chunk or changes nothing. -/
theorem setFree_cases {rand : Nat} (hrand : ∀ i, ¬ rc.fails i rand) (lba mptr : Nat)
    (s : Oc20State) :
    Ends (oc20ChunkSetFree n lns rc lba mptr rand) s fun l _ s' =>
      (l = [] ∧ s'.chunkInfo = s.chunkInfo) ∨
        ∃ i, l = [i] ∧ (s.chunkInfo i).state &&& oc20ChunkResetable ≠ 0 ∧
          s'.chunkInfo = Function.update s.chunkInfo i (s.chunkInfo i).freed := by
  unfold oc20ChunkSetFree
  split
  · simp
  · rename_i i _
    simp only [ends_bind, ends_get, ends_ite, ends_pure, if_neg (hrand i)]
    refine ⟨fun _ => by simp, fun hst => ⟨fun _ => by simp, fun _ => ⟨fun _ => by simp,
      fun _ => ?_⟩⟩⟩
    simp only [chunkReset, ends_bind, ends_emit, ends_modify, ends_pure]
    exact .inr ⟨i, rfl, hst, rfl⟩

/-- **Step lemma for resets**: a reset that is not made to fail frees the chunks that it
names, up to the first one it refuses. -/
theorem eraseLoop_inv {rand : Nat → Nat} (hrand : ∀ i k, ¬ rc.fails i (rand k))
    (hcnlb : chunkCnlb lns.geo ≠ 0) (lbas : List Nat) (mptr k : Nat) {log : List ChunkEvent}
    {s : Oc20State} (h : ∀ i, ChunkInv lns log i (s.chunkInfo i)) :
    Ends (eraseLoop n lns rc rand lbas mptr k) s fun l _ s' =>
      ∀ i, ChunkInv lns (log ++ l.map .reset) i (s'.chunkInfo i) := by
  induction lbas generalizing mptr k log s with
  | nil => simpa [eraseLoop] using h
  | cons lba rest ih =>
      unfold eraseLoop
      split
      · simpa using h
      · rw [ends_bind]
        refine (setFree_cases (fun i => hrand i k) lba mptr s).imp fun l err s₁ hcases => ?_
        have h₁ : ∀ i, ChunkInv lns (log ++ l.map .reset) i (s₁.chunkInfo i) := by
          obtain ⟨rfl, hsame⟩ | ⟨i, rfl, hst, hchunks⟩ := hcases
          · simpa [hsame] using h
          · intro j
            unfold ChunkInv
            rw [List.map_singleton, sectorsWritten_reset, hchunks]
            by_cases hj : j = i
            · subst hj
              rw [Function.update_self, if_pos rfl]
              obtain ⟨ht, hc, -⟩ | hz := h j
              · exact .inl ⟨ht, hc, tracked_free rfl rfl (by simpa [Oc20CS.freed, hc] using hcnlb)⟩
              · rw [hz] at hst
                exact absurd rfl hst
            · rw [Function.update_of_ne hj, if_neg hj]
              exact h j
        rw [ends_ite]
        refine ⟨fun _ => by simpa using h₁, fun _ => ?_⟩
        refine (ih _ (k + 1) h₁).imp fun l' _ s₂ h₂ => ?_
        simpa using h₂

/-! ## runs -/

/-- The invariant of a run. -/
def RunInv (lns : Oc20Namespace) (r : Oc20Run) : Prop :=
  ∀ i, ChunkInv lns r.log i (r.dev.chunkInfo i)

theorem runInv_init (hclba : lns.geo.clba.toNat ≠ 0) (chksTotal : Nat) {s : Oc20State}
    (hinit : s.chunkInfo = oc20InitChunkInfo lns chksTotal) : RunInv lns ⟨s, []⟩ := by
  intro i
  have hle := clba_le_chunkCnlb lns.geo
  simp only [hinit, oc20InitChunkInfo]
  split
  · exact .inl ⟨rfl, rfl, tracked_free rfl rfl (by simp only; omega)⟩
  · exact .inr rfl

/-- **Step lemma**: an event that stays in its chunk keeps the write pointers. -/
theorem step_runInv (hsec : lns.lbaf.secOffset = 0) (hclba : lns.geo.clba.toNat ≠ 0)
    {r r' : Oc20Run} {ev : Oc20Event} (h : RunInv lns r) (hev : StaysInChunk n lns rc r ev)
    (hstep : r.step n lns rc ev = some r') : RunInv lns r' := by
  match ev with
  | .env s =>
    simp only [Oc20Run.step, Option.some.injEq] at hstep
    rw [← hstep]
    exact h
  | .erase cmd mptr rand =>
    simp only [Oc20Run.step, Option.map_eq_some_iff] at hstep
    obtain ⟨⟨status, s'⟩, hres, rfl⟩ := hstep
    have hle := clba_le_chunkCnlb lns.geo
    have hends : Ends (oc20Erase n lns rc rand cmd mptr) r.dev fun l _ s' =>
        ∀ i, ChunkInv lns (r.log ++ l.map .reset) i (s'.chunkInfo i) := by
      unfold oc20Erase
      simp only [ends_bind, ends_get, ends_modify]
      exact eraseLoop_inv hev (by omega) _ _ 0 h
    exact hends status s' hres
  | .rw cmd vector =>
    simp only [Oc20Run.step, Option.map_eq_some_iff] at hstep
    obtain ⟨⟨status, s'⟩, hres, rfl⟩ := hstep
    have hchunks := oc20Rw_chunkInfo cmd vector r.dev status s' hres
    unfold writtenBy
    intro j
    dsimp only
    rw [hchunks]
    by_cases hw : status = nvmeSuccess ∧ oc20RwIsWrite cmd.opcode
    · obtain ⟨rfl, hwrite⟩ := hw
      have hacc := accepted_of_success hres
      have hcheck := hacc.check
      have hlen := length_lbaList n.toDmaCtrl r.dev.mem cmd vector
      rw [hwrite] at hcheck
      have hne : lbaList n.toDmaCtrl r.dev.mem cmd vector ≠ [] := by
        rw [← List.length_pos_iff, hlen]
        omega
      rw [if_pos ⟨rfl, hwrite⟩, if_pos ⟨rfl, hwrite⟩, ← hlen]
      exact write_inv hsec hne h (hev hwrite hacc) hcheck j
    · rw [if_neg hw, if_neg hw, List.append_nil]
      exact h j

/-- **Write pointers of chunks**: along every run whose accepted writes stay in one
chunk, the write pointer of every sequential chunk counts the sectors written to it
since it was last reset, and its state says how full it is. -/
theorem chunks_tracked (hsec : lns.lbaf.secOffset = 0) (hclba : lns.geo.clba.toNat ≠ 0)
    {chksTotal : Nat} {s : Oc20State} (hinit : s.chunkInfo = oc20InitChunkInfo lns chksTotal)
    {evs : List Oc20Event} {r : Oc20Run}
    (hrun : Run (Oc20Run.StepInChunk n lns rc) ⟨s, []⟩ evs r) (i : Nat) (htype : (r.dev.chunkInfo i).type = oc20ChunkTypeSeq) :
    ChunkTracked (r.dev.chunkInfo i) (sectorsWritten lns r.log i) := by
  have hinv := hrun.invariant (I := RunInv lns)
    (fun _ _ _ h ⟨hev, hstep⟩ => step_runInv hsec hclba h hev hstep)
    (runInv_init hclba chksTotal hinit) i
  obtain ⟨-, -, htracked⟩ | hz := hinv
  · exact htracked
  · rw [hz] at htype
    exact absurd htype (by decide)

/-! ## writes over two chunks -/

/-- The device after `oc20_init_chunk_info`, with the addresses 0 and 4 in host memory
at 8192. -/
def freshChunks : Oc20State :=
  { freshOc20 with
    mem := ⟨fun a => if a = 8200 then 4 else 0, fun _ => 0⟩
    chunkInfo := oc20InitChunkInfo threeChunks 6 }

/-- Open chunks may be reset, and no reset is made to fail. -/
def earlyResets : Oc20Resets := ⟨oc20ParamsMccapEarlyReset, none⟩

/-- A vector write of the two addresses in host memory at 8192. -/
def writeTwo : NvmeCmd :=
  { opcode := oc20CmdVectWrite, nsid := 1, prp1 := 4096, prp2 := 16384, cdw10 := 8192, cdw12 := 1 }

/-- A write of the first sector of two chunks: the first one gets the write pointer 2,
the second one keeps 0. -/
theorem write_spans_chunks :
    threeChunks.lbaf.secOffset = 0 ∧ threeChunks.geo.clba.toNat ≠ 0 ∧
      freshChunks.chunkInfo = oc20InitChunkInfo threeChunks 6 ∧
      ∃ r, Run (Oc20Run.Step plainOc20 threeChunks earlyResets) ⟨freshChunks, []⟩
          [.rw writeTwo true] r ∧
        (r.dev.chunkInfo 0).type = oc20ChunkTypeSeq ∧
        ¬ ChunkTracked (r.dev.chunkInfo 0) (sectorsWritten threeChunks r.log 0) := by
  have hends : (Oc20Run.step plainOc20 threeChunks earlyResets ⟨freshChunks, []⟩
      (.rw writeTwo true)).map (fun r => ((r.dev.chunkInfo 0).type, (r.dev.chunkInfo 0).wp,
        sectorsWritten threeChunks r.log 0)) = some (oc20ChunkTypeSeq, 2, 1) := by decide +kernel
  refine ⟨rfl, by decide, rfl, ?_⟩
  obtain ⟨r, hstep, hr⟩ := Option.map_eq_some_iff.mp hends
  simp only [Prod.mk.injEq] at hr
  refine ⟨r, .cons hstep (.nil r), hr.1, fun htracked => ?_⟩
  have hwp := htracked.wp_eq
  omega

/-- A write of one sector, and the reset of its chunk. -/
theorem chunks_tracked_small :
    ∃ r, Run (Oc20Run.StepInChunk plainOc20 threeChunks earlyResets) ⟨freshChunks, []⟩
        [.rw { opcode := nvmeCmdWrite, nsid := 1, prp1 := 4096 } false, .erase {} 0 fun _ => 0] r ∧
      ChunkTracked (r.dev.chunkInfo 0) (sectorsWritten threeChunks r.log 0) := by
  have hends : ((Oc20Run.step plainOc20 threeChunks earlyResets ⟨freshChunks, []⟩
      (.rw { opcode := nvmeCmdWrite, nsid := 1, prp1 := 4096 } false)).bind fun r =>
        r.step plainOc20 threeChunks earlyResets (.erase {} 0 fun _ => 0)).map
          (fun r => (r.dev.chunkInfo 0).type) = some oc20ChunkTypeSeq := by decide +kernel
  obtain ⟨r, hr, htype⟩ := Option.map_eq_some_iff.mp hends
  obtain ⟨r₁, hstep₁, hstep₂⟩ := Option.bind_eq_some_iff.mp hr
  have hone : OneChunk threeChunks (lbaList plainOc20.toDmaCtrl freshChunks.mem
      { opcode := nvmeCmdWrite, nsid := 1, prp1 := 4096 } false) := ⟨0, by decide⟩
  have hrun : Run (Oc20Run.StepInChunk plainOc20 threeChunks earlyResets) ⟨freshChunks, []⟩
      [.rw { opcode := nvmeCmdWrite, nsid := 1, prp1 := 4096 } false, .erase {} 0 fun _ => 0] r :=
    .cons ⟨fun _ _ => hone, hstep₁⟩ (.cons ⟨fun _ _ hc => hc, hstep₂⟩ (.nil r))
  exact ⟨r, hrun, chunks_tracked rfl (by decide) rfl hrun 0 htype⟩

end Femu.Ocssd
