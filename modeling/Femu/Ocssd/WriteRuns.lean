import Mathlib.Tactic.Ring
import Femu.Lib.Fields
import Femu.Lib.Runs
import Femu.Ocssd.Oc20Bounds

/-!
# Femu.Ocssd.WriteRuns

Which lists `oc20_rw_check_write_req` accepts. The loop cuts the list where the chunk
index changes, checks a run only when it ends, and handles the last run after the loop:
it accepts exactly the lists whose runs pass (`RunsPass`). To cut the list where the
group, the parallel unit or the chunk changes is the same as long as all addresses
exist; an address that does not exist may have the index of the address before it.
-/

namespace Femu.Ocssd

open Lib Nvme

/-! ## statement -/

/-- The addresses lie in the same group, parallel unit and chunk. -/
def sameChunk (lns : Oc20Namespace) (a b : Nat) : Bool :=
  lns.lbaf.getGroup a == lns.lbaf.getGroup b && lns.lbaf.getPunit a == lns.lbaf.getPunit b &&
    lns.lbaf.getChunk a == lns.lbaf.getChunk b

/-- The addresses have the same chunk index. -/
def sameChunkIndex (lns : Oc20Namespace) (a b : Nat) : Bool :=
  oc20LbaToChunkIndex lns a == oc20LbaToChunkIndex lns b

/-- The state allows a write. -/
def Oc20CS.Writable (c : Oc20CS) : Prop := c.state = oc20ChunkFree ∨ c.state = oc20ChunkOpen

theorem Oc20CS.Writable.masks {c : Oc20CS} (h : c.Writable) :
    c.state &&& oc20ChunkOffline = 0 ∧ c.state &&& oc20ChunkClosed = 0 := by
  obtain hfree | hopen := h
  · rw [hfree]
    decide
  · rw [hopen]
    decide

/-- The sectors of a run are consecutive, and continue what is written of the chunk. -/
structure RunFits (lns : Oc20Namespace) (chunkInfo : Nat → Oc20CS) (run : List Nat) : Prop where
  consecutive : run.IsChain fun a b => lns.lbaf.getSectr b = lns.lbaf.getSectr a + 1
  at_wp : ∀ lba ∈ run.head?, lns.lbaf.getSectr lba = (chunkInfo (oc20LbaToChunkIndex lns lba)).wp
  le_cnlb : ∀ lba ∈ run.head?, lns.lbaf.getSectr lba + run.length ≤
    (chunkInfo (oc20LbaToChunkIndex lns lba)).cnlb
  writable : ∀ lba ∈ run.head?, (chunkInfo (oc20LbaToChunkIndex lns lba)).Writable

/-- The addresses of the list exist, and it fits run by run. -/
structure WriteFits (lns : Oc20Namespace) (chunkInfo : Nat → Oc20CS) (lbas : List Nat) : Prop where
  valid : ∀ lba ∈ lbas, oc20LbaValid lns lba
  runs : ∀ run ∈ lbas.splitBy (sameChunk lns), RunFits lns chunkInfo run

/-- Within a run of one chunk index the sectors count up, in 32 bits, and every run is
accepted by its first address. -/
structure RunsPass (lns : Oc20Namespace) (chunkInfo : Nat → Oc20CS) (lbas : List Nat) : Prop where
  counts : lbas.IsChain fun a b => sameChunkIndex lns a b = true →
    u32 (lns.lbaf.getSectr a + 1) = lns.lbaf.getSectr b
  heads : ∀ run ∈ lbas.splitBy (sameChunkIndex lns), ∀ lba ∈ run.head?,
    oc20RwCheckChunkWrite lns chunkInfo lba run.length = nvmeSuccess

variable {lns : Oc20Namespace} {chunkInfo : Nat → Oc20CS}

/-! ## the loop -/

section Loop

variable {run rest : List Nat} {lba prev next : Nat}

/-- A list that is one run. -/
theorem runsPass_single (hrun : run.IsChain fun a b => sameChunkIndex lns a b = true)
    (hhead : run.head? = some lba) :
    RunsPass lns chunkInfo run ↔
      (run.IsChain fun a b => sameChunkIndex lns a b = true →
        u32 (lns.lbaf.getSectr a + 1) = lns.lbaf.getSectr b) ∧
      oc20RwCheckChunkWrite lns chunkInfo lba run.length = nvmeSuccess := by
  have hne : run ≠ [] := by
    intro h
    simp [h] at hhead
  have hsingle : run.splitBy (sameChunkIndex lns) = [run] := List.splitBy_of_isChain hne hrun
  constructor
  case mp =>
    intro h
    exact ⟨h.counts, h.heads run (by simp [hsingle]) lba hhead⟩
  case mpr =>
    intro ⟨hcounts, hlba⟩
    exact ⟨hcounts, by simpa [hsingle, hhead] using hlba⟩

/-- A run that ends before `next`. -/
theorem runsPass_append_cons (hlast : run.getLast? = some prev)
    (hnext : sameChunkIndex lns prev next = false) :
    RunsPass lns chunkInfo (run ++ next :: rest) ↔
      RunsPass lns chunkInfo run ∧ RunsPass lns chunkInfo (next :: rest) := by
  have hcut : (run ++ next :: rest).splitBy (sameChunkIndex lns) =
      run.splitBy (sameChunkIndex lns) ++ (next :: rest).splitBy (sameChunkIndex lns) :=
    List.splitBy_append_cons rest (by simpa [hlast] using hnext)
  constructor
  case mp =>
    intro h
    have hheads := h.heads
    rw [hcut] at hheads
    exact ⟨⟨h.counts.left_of_append, fun r hr => hheads r (List.mem_append_left _ hr)⟩,
      ⟨h.counts.right_of_append, fun r hr => hheads r (List.mem_append_right _ hr)⟩⟩
  case mpr =>
    intro ⟨hfirst, h⟩
    refine ⟨hfirst.counts.append h.counts ?_, ?_⟩
    · simp [hlast, hnext]
    · rw [hcut]
      intro r hr
      cases List.mem_append.mp hr with
      | inl hr => exact hfirst.heads r hr
      | inr hr => exact h.heads r hr

/-- The loop, in a run that it has followed up to the address `prev`. -/
theorem checkWriteLoop_iff (hrun : run.IsChain fun a b => sameChunkIndex lns a b = true)
    (hcounts : run.IsChain fun a b => sameChunkIndex lns a b = true →
      u32 (lns.lbaf.getSectr a + 1) = lns.lbaf.getSectr b)
    (hhead : run.head? = some lba) (hlast : run.getLast? = some prev) :
    checkWriteLoop lns chunkInfo rest lba (oc20LbaToChunkIndex lns prev)
        (u32 (lns.lbaf.getSectr prev)) run.length = nvmeSuccess ↔
      RunsPass lns chunkInfo (run ++ rest) := by
  induction rest generalizing run lba prev with
  | nil =>
      rw [checkWriteLoop, List.append_nil, runsPass_single hrun hhead, and_iff_right hcounts]
  | cons next rest ih =>
      have hu : u32 (u32 (lns.lbaf.getSectr prev) + 1) = u32 (lns.lbaf.getSectr prev + 1) := by
        simp [u32]
      simp only [checkWriteLoop, hu]
      by_cases hidx : oc20LbaToChunkIndex lns prev = oc20LbaToChunkIndex lns next
      case neg =>
        have hend : sameChunkIndex lns prev next = false := by simpa [sameChunkIndex] using hidx
        have hstart : checkWriteLoop lns chunkInfo rest next (oc20LbaToChunkIndex lns next)
            (u32 (lns.lbaf.getSectr next)) 1 = nvmeSuccess ↔
              RunsPass lns chunkInfo (next :: rest) :=
          @ih [next] next next (.singleton next) (.singleton next) rfl rfl
        rw [if_pos hidx, runsPass_append_cons hlast hend, runsPass_single hrun hhead,
          and_iff_right hcounts, ← hstart]
        by_cases herr : oc20RwCheckChunkWrite lns chunkInfo lba run.length = nvmeSuccess
        · simp [herr]
        · simp [herr]
      case pos =>
        have hsame : sameChunkIndex lns prev next = true := by simpa [sameChunkIndex] using hidx
        rw [if_neg (not_not.mpr hidx)]
        by_cases hsectr : u32 (lns.lbaf.getSectr prev + 1) = lns.lbaf.getSectr next
        case neg =>
          rw [if_pos hsectr]
          refine iff_of_false (by decide) fun h => hsectr ?_
          exact (List.isChain_append.mp h.counts).2.2 prev hlast next rfl hsame
        case pos =>
          have hlonger := @ih (run ++ [next]) lba next
            (hrun.append (.singleton next) (by simpa [hlast] using hsame))
            (hcounts.append (.singleton next) (by simpa [hlast] using fun _ => hsectr))
            (by simp [hhead]) (by simp)
          have hnext : u32 (lns.lbaf.getSectr next) = lns.lbaf.getSectr next := by
            rw [← hsectr]
            exact Nat.mod_mod _ _
          rw [if_neg (not_not.mpr hsectr), hsectr, hidx]
          simpa [hnext] using hlonger

/-- The loop accepts exactly the lists whose runs pass. -/
theorem checkWriteReq_iff (lbas : List Nat) :
    oc20RwCheckWriteReq lns chunkInfo lbas = nvmeSuccess ↔ RunsPass lns chunkInfo lbas := by
  cases lbas with
  | nil => exact iff_of_true rfl ⟨.nil, by simp⟩
  | cons lba rest =>
      exact @checkWriteLoop_iff lns chunkInfo [lba] rest lba lba (.singleton lba) (.singleton lba)
        rfl rfl

end Loop

/-! ## lists of existing addresses -/

section Valid

variable {lbas run : List Nat} {lba : Nat}

/-- The index of an existing chunk is a number with the digits group, parallel unit,
chunk. -/
theorem chunkIndex_eq (hgrp : lns.chksPerGrp = lns.geo.numChk.toNat * lns.geo.numLun.toNat)
    (hlba : oc20LbaValid lns lba) :
    oc20LbaToChunkIndex lns lba =
      (lns.lbaf.getGroup lba * lns.geo.numLun.toNat + lns.lbaf.getPunit lba) *
        lns.geo.numChk.toNat + lns.lbaf.getChunk lba := by
  obtain ⟨-, hchunk, hpunit, hgroup⟩ := hlba
  have hunits : lns.lbaf.getGroup lba * lns.geo.numLun.toNat + lns.lbaf.getPunit lba < 2 ^ 32 := by
    have hmul : (lns.lbaf.getGroup lba + 1) * lns.geo.numLun.toNat ≤ 2 ^ 16 * 2 ^ 16 :=
      Nat.mul_le_mul (by have := lns.geo.numGrp.toNat_lt; omega) lns.geo.numLun.toNat_lt.le
    rw [Nat.add_mul] at hmul
    omega
  have hchunks : (lns.lbaf.getGroup lba * lns.geo.numLun.toNat + lns.lbaf.getPunit lba + 1) *
      lns.geo.numChk.toNat ≤ 2 ^ 32 * 2 ^ 32 :=
    Nat.mul_le_mul hunits lns.geo.numChk.toNat_lt.le
  rw [Nat.add_mul] at hchunks
  have hsum : lns.lbaf.getChunk lba + lns.lbaf.getPunit lba * lns.geo.numChk.toNat +
      lns.lbaf.getGroup lba * lns.chksPerGrp =
      (lns.lbaf.getGroup lba * lns.geo.numLun.toNat + lns.lbaf.getPunit lba) *
        lns.geo.numChk.toNat + lns.lbaf.getChunk lba := by
    rw [hgrp]
    ring
  rw [oc20LbaToChunkIndex, hsum, u64_eq (by omega)]

/-- The index of an existing chunk determines group, parallel unit and chunk. -/
theorem sameChunkIndex_eq (hgrp : lns.chksPerGrp = lns.geo.numChk.toNat * lns.geo.numLun.toNat)
    {a b : Nat} (ha : oc20LbaValid lns a) (hb : oc20LbaValid lns b) :
    sameChunkIndex lns a b = sameChunk lns a b := by
  rw [Bool.eq_iff_iff]
  simp only [sameChunkIndex, sameChunk, Bool.and_eq_true, beq_iff_eq]
  rw [chunkIndex_eq hgrp ha, chunkIndex_eq hgrp hb]
  constructor
  case mp =>
    intro h
    obtain ⟨hunit, hchunk⟩ := digits_unique ha.2.1 hb.2.1 h
    obtain ⟨hgroup, hpunit⟩ := digits_unique ha.2.2.1 hb.2.2.1 hunit
    exact ⟨⟨hgroup, hpunit⟩, hchunk⟩
  case mpr =>
    intro ⟨⟨hgroup, hpunit⟩, hchunk⟩
    rw [hgroup, hpunit, hchunk]

/-- The addresses of a run have the index of its first address. -/
theorem chunkIndex_of_run (hrun : run.IsChain fun a b => sameChunkIndex lns a b = true)
    (hhead : lba ∈ run.head?) :
    ∀ a ∈ run, oc20LbaToChunkIndex lns a = oc20LbaToChunkIndex lns lba := by
  induction run generalizing lba with
  | nil => simp
  | cons first rest ih =>
      rw [List.head?_cons, Option.mem_some] at hhead
      obtain ⟨hnext, hrest⟩ := List.isChain_cons.mp hrun
      intro a ha
      cases List.mem_cons.mp ha with
      | inl heq => rw [heq, hhead]
      | inr hmem =>
          obtain ⟨second, hsecond⟩ : ∃ second, second ∈ rest.head? := by
            cases rest with
            | nil => cases hmem
            | cons second _ => exact ⟨second, rfl⟩
          have hidx : oc20LbaToChunkIndex lns first = oc20LbaToChunkIndex lns second := by
            simpa [sameChunkIndex] using hnext second hsecond
          rw [ih hrest hsecond a hmem, ← hidx, hhead]

/-- Consecutive sectors of one chunk end in the chunk. -/
theorem sectr_add_length (hvalid : ∀ a ∈ run, oc20LbaValid lns a)
    (hrun : run.IsChain fun a b => lns.lbaf.getSectr b = lns.lbaf.getSectr a + 1)
    (hhead : lba ∈ run.head?) :
    lns.lbaf.getSectr lba + run.length ≤ lns.geo.clba.toNat := by
  induction run generalizing lba with
  | nil => cases hhead
  | cons first rest ih =>
      rw [List.head?_cons, Option.mem_some] at hhead
      obtain ⟨hnext, hrest⟩ := List.isChain_cons.mp hrun
      cases rest with
      | nil =>
          have hlt := (hvalid first List.mem_cons_self).1
          rw [← hhead, List.length_singleton]
          exact hlt
      | cons second rest =>
          have htail := ih (fun a ha => hvalid a (List.mem_cons_of_mem first ha)) hrest rfl
          have hsecond := hnext second rfl
          rw [← hhead, List.length_cons]
          omega

/-- The check of a run that starts at an existing address of a sequential chunk. -/
theorem checkChunkWrite_iff (hsec : lns.lbaf.secOffset = 0) {ws : Nat}
    (hvalid : oc20LbaValid lns lba) (hfit : lns.lbaf.getSectr lba + ws ≤ lns.geo.clba.toNat)
    (htype : (chunkInfo (oc20LbaToChunkIndex lns lba)).type = oc20ChunkTypeSeq) :
    oc20RwCheckChunkWrite lns chunkInfo lba ws = nvmeSuccess ↔
      (chunkInfo (oc20LbaToChunkIndex lns lba)).state &&& oc20ChunkOffline = 0 ∧
      (chunkInfo (oc20LbaToChunkIndex lns lba)).state &&& oc20ChunkClosed = 0 ∧
      lns.lbaf.getSectr lba + ws ≤ (chunkInfo (oc20LbaToChunkIndex lns lba)).cnlb ∧
      lns.lbaf.getSectr lba = (chunkInfo (oc20LbaToChunkIndex lns lba)).wp := by
  have hclba := lns.geo.clba.toNat_lt
  have hstart : lba &&& lns.lbaf.secMask = lns.lbaf.getSectr lba := by
    rw [Oc20AddrF.getSectr, hsec, Nat.shiftRight_zero]
  have hfault : nvmeWriteFault ||| nvmeDnr ≠ nvmeSuccess := by decide
  have horder : oc20OutOfOrderWrite ||| nvmeDnr ≠ nvmeSuccess := by decide
  have hran : oc20ChunkTypeSeq ≠ oc20ChunkTypeRan := by decide
  simp only [oc20RwCheckChunkWrite, oc20ChunkGetState, if_pos hvalid, hstart]
  rw [u32_eq (x := lns.lbaf.getSectr lba) (by omega), u32_eq (by omega), htype, if_neg hran]
  split
  · rename_i hstate
    refine iff_of_false hfault fun h => ?_
    exact hstate.elim (fun hoff => hoff h.1) fun hclosed => hclosed h.2.1
  · rename_i hstate
    rw [not_or, not_not, not_not] at hstate
    split
    · rename_i hend
      exact iff_of_false hfault fun h => absurd h.2.2.1 (Nat.not_le.mpr hend)
    · rename_i hend
      split
      · rename_i hwp
        exact iff_of_false horder fun h => hwp h.2.2.2
      · rename_i hwp
        exact iff_of_true rfl ⟨hstate.1, hstate.2, Nat.not_lt.mp hend, not_not.mp hwp⟩

/-- A run of existing addresses fits if and only if it passes and the state of its chunk
allows a write. -/
theorem runFits_iff (hsec : lns.lbaf.secOffset = 0)
    (htype : ∀ i, (chunkInfo i).type = oc20ChunkTypeSeq)
    (hvalid : ∀ a ∈ run, oc20LbaValid lns a) :
    RunFits lns chunkInfo run ↔
      (run.IsChain fun a b => u32 (lns.lbaf.getSectr a + 1) = lns.lbaf.getSectr b) ∧
      (∀ lba ∈ run.head?, oc20RwCheckChunkWrite lns chunkInfo lba run.length = nvmeSuccess) ∧
      ∀ lba ∈ run.head?, (chunkInfo (oc20LbaToChunkIndex lns lba)).Writable := by
  have hcounts : (run.IsChain fun a b => u32 (lns.lbaf.getSectr a + 1) = lns.lbaf.getSectr b) ↔
      run.IsChain fun a b => lns.lbaf.getSectr b = lns.lbaf.getSectr a + 1 := by
    refine List.IsChain.iff_of_mem_imp fun a b ha _ => ?_
    have hlt := (hvalid a ha).1
    have hclba := lns.geo.clba.toNat_lt
    rw [u32_eq (by omega), eq_comm]
  rw [hcounts]
  have hcheck : (run.IsChain fun a b => lns.lbaf.getSectr b = lns.lbaf.getSectr a + 1) →
      ∀ lba ∈ run.head?, (oc20RwCheckChunkWrite lns chunkInfo lba run.length = nvmeSuccess ↔ _) :=
    fun hrun lba hlba => checkChunkWrite_iff hsec (hvalid lba (List.mem_of_mem_head? hlba))
      (sectr_add_length hvalid hrun hlba) (htype _)
  constructor
  case mp =>
    intro h
    refine ⟨h.consecutive, fun lba hlba => (hcheck h.consecutive lba hlba).mpr ?_, h.writable⟩
    obtain ⟨hoffline, hclosed⟩ := (h.writable lba hlba).masks
    exact ⟨hoffline, hclosed, h.le_cnlb lba hlba, h.at_wp lba hlba⟩
  case mpr =>
    intro ⟨hrun, hheads, hwritable⟩
    have hpass : ∀ lba ∈ run.head?, _ := fun lba hlba =>
      (hcheck hrun lba hlba).mp (hheads lba hlba)
    exact ⟨hrun, fun lba hlba => (hpass lba hlba).2.2.2, fun lba hlba => (hpass lba hlba).2.2.1,
      hwritable⟩

/-- A list fits if and only if it passes, its addresses exist, and the states of their
chunks allow a write. -/
theorem writeFits_iff (hsec : lns.lbaf.secOffset = 0)
    (hgrp : lns.chksPerGrp = lns.geo.numChk.toNat * lns.geo.numLun.toNat)
    (htype : ∀ i, (chunkInfo i).type = oc20ChunkTypeSeq) :
    WriteFits lns chunkInfo lbas ↔
      (∀ lba ∈ lbas, oc20LbaValid lns lba) ∧ RunsPass lns chunkInfo lbas ∧
      ∀ lba ∈ lbas, (chunkInfo (oc20LbaToChunkIndex lns lba)).Writable := by
  by_cases hvalid : ∀ lba ∈ lbas, oc20LbaValid lns lba
  case neg => exact iff_of_false (fun h => hvalid h.valid) fun h => hvalid h.1
  case pos =>
    have hcut : lbas.splitBy (sameChunk lns) = lbas.splitBy (sameChunkIndex lns) :=
      splitBy_congr fun a ha b hb => (sameChunkIndex_eq hgrp (hvalid a ha) (hvalid b hb)).symm
    have hmem : ∀ run ∈ lbas.splitBy (sameChunkIndex lns), ∀ a ∈ run, a ∈ lbas :=
      fun run hrun a ha => mem_of_mem_run hrun ha
    have hfits : ∀ run ∈ lbas.splitBy (sameChunkIndex lns), (RunFits lns chunkInfo run ↔ _) :=
      fun run hrun => runFits_iff hsec htype fun a ha => hvalid a (hmem run hrun a ha)
    constructor
    case mp =>
      intro h
      have hruns := h.runs
      rw [hcut] at hruns
      have hpass : ∀ run ∈ lbas.splitBy (sameChunkIndex lns), _ := fun run hrun =>
        (hfits run hrun).mp (hruns run hrun)
      refine ⟨hvalid, ⟨isChain_iff_runs.mpr fun run hrun => (hpass run hrun).1,
        fun run hrun => (hpass run hrun).2.1⟩, fun lba hlba => ?_⟩
      obtain ⟨run, hrun, hin⟩ := exists_run hlba
      obtain ⟨first, hfirst⟩ : ∃ first, first ∈ run.head? :=
        ⟨run.head (List.ne_nil_of_mem hin), List.head_mem_head? _⟩
      rw [chunkIndex_of_run (List.isChain_of_mem_splitBy hrun) hfirst lba hin]
      exact (hpass run hrun).2.2 first hfirst
    case mpr =>
      intro ⟨_, hpass, hwritable⟩
      refine ⟨hvalid, fun run hrun => ?_⟩
      rw [hcut] at hrun
      refine (hfits run hrun).mpr ⟨isChain_iff_runs.mp hpass.counts run hrun, hpass.heads run hrun,
        fun lba hlba => hwritable lba ?_⟩
      exact hmem run hrun lba (List.mem_of_mem_head? hlba)

end Valid

/-! ## acceptance -/

/-- **Write acceptance of the open-channel SSD 2.0**: `oc20_rw_check_write_req` accepts
exactly the lists that fit if and only if a list whose runs pass has no alias and no
overrun, and names chunks that are free or open only. -/
theorem write_accept_iff (hsec : lns.lbaf.secOffset = 0)
    (hgrp : lns.chksPerGrp = lns.geo.numChk.toNat * lns.geo.numLun.toNat)
    (htype : ∀ i, (chunkInfo i).type = oc20ChunkTypeSeq) (lbas : List Nat) :
    (oc20RwCheckWriteReq lns chunkInfo lbas = nvmeSuccess ↔ WriteFits lns chunkInfo lbas) ↔
      (RunsPass lns chunkInfo lbas →
        (lbas.IsChain fun prev next => ¬ Alias lns prev next ∧ ¬ Overrun lns prev next) ∧
        ∀ lba ∈ lbas, (chunkInfo (oc20LbaToChunkIndex lns lba)).Writable) := by
  rw [checkWriteReq_iff, writeFits_iff hsec hgrp htype]
  constructor
  case mp =>
    intro h hpass
    obtain ⟨hvalid, _, hwritable⟩ := h.mp hpass
    exact ⟨isChain_of_valid hvalid, hwritable⟩
  case mpr =>
    intro h
    refine ⟨fun hpass => ?_, fun hfits => hfits.2.1⟩
    obtain ⟨hchain, hwritable⟩ := h hpass
    exact ⟨valid_of_writeReq hchain (checkWriteReq_iff lbas |>.mpr hpass), hpass, hwritable⟩

/-- Sector 0 of chunk 0 of the second unit, and sector 1 of chunk 3 of the first unit,
where there are three chunks: the list is accepted. -/
theorem alias_accepted :
    threeChunks.lbaf.secOffset = 0 ∧
      threeChunks.chksPerGrp = threeChunks.geo.numChk.toNat * threeChunks.geo.numLun.toNat ∧
      (∀ i, (freshOc20.chunkInfo i).type = oc20ChunkTypeSeq) ∧
      oc20RwCheckWriteReq threeChunks freshOc20.chunkInfo [16, 13] = nvmeSuccess ∧
      ¬ WriteFits threeChunks freshOc20.chunkInfo [16, 13] := by
  refine ⟨rfl, rfl, fun _ => rfl, by decide +kernel, fun h => ?_⟩
  have hvalid : ¬ oc20LbaValid threeChunks 13 := by decide +kernel
  exact hvalid (h.valid 13 (by decide))

/-- The first two sectors of a chunk. -/
theorem write_accept_two :
    WriteFits threeChunks freshOc20.chunkInfo [16, 17] := by
  have hvalid : ∀ lba ∈ [16, 17], oc20LbaValid threeChunks lba := by decide +kernel
  have haccept : oc20RwCheckWriteReq threeChunks freshOc20.chunkInfo [16, 17] = nvmeSuccess := by
    decide +kernel
  refine ((write_accept_iff rfl rfl (fun _ => rfl) [16, 17]).mpr fun _ => ?_).mp haccept
  exact ⟨isChain_of_valid hvalid, fun _ _ => .inl rfl⟩

end Femu.Ocssd
