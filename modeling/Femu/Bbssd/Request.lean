import Femu.Bbssd.Ftl
import Femu.Nvme.IoBounds

/-!
# Femu.Bbssd.Request

The logical pages that `ssd_read` and `ssd_write` go over for a request that `nvme_rw` has
accepted. `nvme_rw` counts blocks in 32 bits, the request keeps 16 of them, and the FTL has as
many pages as `ssd_init_params` says, whatever the size of the namespace is.
-/

namespace Femu.Bbssd

open Lib Lib.Traced Nvme

variable {sp : SsdParams} {slba nlb stime fuel : Nat}

/-! ## the loop over the logical pages -/

/-- The loop of `ssd_read` and `ssd_write` over `lpn`, with a body. -/
def lpnLoop {σ : Type} (sp : SsdParams) (slba nlb : Nat) (body : Nat → σ → Option σ) (s : σ) :
    Option σ :=
  forLoop body (sp.endLpn slba nlb + 1 - sp.startLpn slba) (sp.startLpn slba) s

theorem ssdRead_eq_lpnLoop (s : Ssd) :
    s.ssdRead slba nlb stime = lpnLoop s.sp slba nlb (Ssd.readPage stime) (0, s) := by
  rw [Ssd.ssdRead, lpnLoop]

theorem ssdWrite_eq_lpnLoop (s : Ssd) : s.ssdWrite fuel slba nlb stime =
    (Ssd.gcHigh fuel s).bind fun t => lpnLoop s.sp slba nlb (Ssd.writePage stime) (0, t) := by
  simp only [Ssd.ssdWrite, lpnLoop]

/-- The loop runs its body on `lpns`, one after the other, whatever the body is. -/
def GoesOver (sp : SsdParams) (slba nlb : Nat) (lpns : List Nat) : Prop :=
  ∀ (σ : Type) (body : Nat → σ → Option σ) (s : σ),
    lpnLoop sp slba nlb body s = lpns.foldlM (fun s lpn => body lpn s) s

/-- `ssd_read` looks up the pages that the loop goes over. -/
theorem GoesOver.ssdRead {lpns : List Nat} {s : Ssd} (h : GoesOver s.sp slba nlb lpns) :
    s.ssdRead slba nlb stime = lpns.foldlM (fun t lpn => Ssd.readPage stime lpn t) (0, s) := by
  rw [ssdRead_eq_lpnLoop, h]

/-- `ssd_write` writes the pages, after its collections. -/
theorem GoesOver.ssdWrite {lpns : List Nat} {s : Ssd} (h : GoesOver s.sp slba nlb lpns) :
    s.ssdWrite fuel slba nlb stime = (Ssd.gcHigh fuel s).bind fun t =>
      lpns.foldlM (fun t lpn => Ssd.writePage stime lpn t) (0, t) := by
  simp only [ssdWrite_eq_lpnLoop, h _]

theorem forLoop_eq_foldlM {σ : Type} (body : Nat → σ → Option σ) (k i : Nat) (s : σ) :
    forLoop body k i s = (List.range' i k).foldlM (fun s j => body j s) s := by
  induction k generalizing i s with
  | zero => rfl
  | succ k ih =>
      rw [forLoop_succ, List.range'_succ, List.foldlM_cons]
      exact congrArg _ (funext fun t => ih (i + 1) t)

/-- Noting the elements of a list one after the other gives the list. -/
theorem foldlM_note (lpns pre : List Nat) :
    lpns.foldlM (fun l lpn => some (l ++ [lpn])) pre = some (pre ++ lpns) := by
  induction lpns generalizing pre with
  | nil => simp
  | cons lpn lpns ih => simp [ih]

theorem goesOver_iff {lpns : List Nat} : GoesOver sp slba nlb lpns ↔
    lpns = List.range' (sp.startLpn slba) (sp.endLpn slba nlb + 1 - sp.startLpn slba) := by
  constructor
  · intro h
    -- a body that notes the pages tells two lists apart
    have hnote := h (List Nat) (fun lpn l => some (l ++ [lpn])) []
    rw [lpnLoop, forLoop_eq_foldlM] at hnote
    generalize List.range' _ _ = expected at hnote ⊢
    have hlists := hnote.trans (foldlM_note lpns [])
    rw [foldlM_note, Option.some.injEq, List.nil_append, List.nil_append] at hlists
    exact hlists.symm
  · rintro rfl σ body s
    rw [lpnLoop, forLoop_eq_foldlM]

/-! ## the request -/

/-- The logical pages of a command, from the one of its first block to the one of its last. -/
def cmdLpns (sp : SsdParams) (cmd : NvmeCmd) : List Nat :=
  List.range' (cmd.slba / sp.secsPerPg)
    ((cmd.slba + (cmd.nlb + 1) - 1) / sp.secsPerPg + 1 - cmd.slba / sp.secsPerPg)

theorem backendReq_fields {n : NvmCtrl} {off : Nat} (s : IoState) :
    Ends (backendReq n off) s fun _ _ s' => s'.slba = s.slba ∧ s'.nlb = s.nlb := by
  simp only [backendReq, ends_bind, ends_get, ends_emit]
  intro u s' hs'
  obtain ⟨r, -, heq⟩ := Option.map_eq_some_iff.mp hs'
  cases heq
  exact ⟨rfl, rfl⟩

/-- What the request of an accepted command says. -/
theorem nvmeRw_request {n : NvmCtrl} {ns : NvmeNamespace} {cmd : NvmeCmd} (s : IoState) :
    Ends (nvmeRw n ns cmd) s fun _ st s' => st = nvmeSuccess →
      s'.slba = cmd.slba ∧ s'.nlb = (cmd.nlb + 1) % 2 ^ 16 := by
  simp only [nvmeRw, ends_bind, ends_modify, ends_ite, ends_pure, ends_get, ends_assert]
  intro err s₁ _
  refine ⟨fun herr hok => absurd hok herr, fun _ st s₂ _ => ⟨fun _ => ?_, fun _ _ => ?_⟩⟩
  · exact fun _ _ _ hok => absurd hok invalidField_ne_success
  · exact (backendReq_fields _).imp fun _ _ s' hs' _ => hs'

theorem ssdInitParams_ttPgs : ssdInitParams.ttPgs = 4194304 := by decide +kernel

/-- **Pages of a request**: the FTL goes over exactly the pages of an accepted command, all of
them its own, when the command has less than 65536 blocks and ends within the FTL. -/
theorem ftl_goes_over_iff {n : NvmCtrl} {ns : NvmeNamespace} {cmd : NvmeCmd} {s s' : IoState}
    (hacc : (nvmeRw n ns cmd s).2 = some (nvmeSuccess, s'))
    (hin : cmd.slba + (cmd.nlb + 1) ≤ ns.nsze.toNat) :
    (GoesOver ssdInitParams s'.slba s'.nlb (cmdLpns ssdInitParams cmd) ∧
        ∀ lpn ∈ cmdLpns ssdInitParams cmd, lpn < ssdInitParams.ttPgs) ↔
      cmd.nlb + 1 < 65536 ∧
        cmd.slba + (cmd.nlb + 1) ≤ ssdInitParams.ttPgs * ssdInitParams.secsPerPg := by
  obtain ⟨hslba, hnlb⟩ := nvmeRw_request s _ _ hacc rfl
  have h16 := cmd.nlb_lt
  have h64 : ns.nsze.toNat < 2 ^ 64 := ns.nsze.toNat_lt
  have hpages := ssdInitParams_ttPgs
  rw [goesOver_iff, hslba, hnlb]
  simp only [cmdLpns, SsdParams.startLpn, SsdParams.endLpn, hpages,
    show ssdInitParams.secsPerPg = 8 from rfl, List.mem_range'_1]
  by_cases hmax : cmd.nlb + 1 = 65536
  · -- the request has no blocks, so that its end is one block before its start
    refine iff_of_false (fun h => ?_) fun h => absurd hmax (by omega)
    have hlen := congrArg List.length h.1
    simp only [List.length_range', hmax] at hlen
    omega
  · have hend : (cmd.slba + (cmd.nlb + 1) % 2 ^ 16 + (2 ^ 64 - 1)) % 2 ^ 64 =
        cmd.slba + (cmd.nlb + 1) - 1 := by omega
    rw [hend]
    refine ⟨fun h => ⟨by omega, ?_⟩, fun h => ⟨rfl, fun lpn hlpn => by omega⟩⟩
    have hlast := h.2 ((cmd.slba + (cmd.nlb + 1) - 1) / 8) ⟨by omega, by omega⟩
    omega

/-! ## small commands -/

/-- A namespace of 32 GiB over the controller with a black-box SSD. -/
def bbCtrl : NvmCtrl := { plainCtrl with femuMode := .bbssd }

def largeNamespace : NvmeNamespace := { eightBlocks with nsze := 67108864 }

/-- A read of four blocks. -/
def readFour : NvmeCmd := { opcode := nvmeCmdRead, nsid := 1, prp1 := 4096, cdw10 := 6, cdw12 := 3 }

theorem ftl_goes_over_small :
    ∃ s', (nvmeRw bbCtrl largeNamespace readFour freshState).2 = some (nvmeSuccess, s') ∧
      GoesOver ssdInitParams s'.slba s'.nlb [0, 1] ∧
      ∀ (t : Ssd) (stime fuel : Nat), t.sp = ssdInitParams →
        t.ssdRead s'.slba s'.nlb stime =
          [0, 1].foldlM (fun t lpn => Ssd.readPage stime lpn t) (0, t) ∧
        t.ssdWrite fuel s'.slba s'.nlb stime = (Ssd.gcHigh fuel t).bind fun t =>
          [0, 1].foldlM (fun t lpn => Ssd.writePage stime lpn t) (0, t) := by
  have hends : (nvmeRw bbCtrl largeNamespace readFour freshState).2.map Prod.fst =
      some nvmeSuccess := by decide +kernel
  obtain ⟨⟨st, s'⟩, hacc, rfl⟩ := Option.map_eq_some_iff.mp hends
  have hover : GoesOver ssdInitParams s'.slba s'.nlb [0, 1] := ((ftl_goes_over_iff hacc (by decide +kernel)).mpr (by decide +kernel)).1
  refine ⟨s', hacc, hover, fun t stime fuel ht => ?_⟩
  rw [← ht] at hover
  exact ⟨hover.ssdRead, hover.ssdWrite⟩

/-- A read of the first block behind the pages of the FTL. -/
def readBehind : NvmeCmd :=
  { opcode := nvmeCmdRead, nsid := 1, prp1 := 4096, cdw10 := 33554432, cdw12 := 0 }

/-- The page of an accepted read is not a page of the FTL. -/
theorem page_beyond_ftl :
    ¬ ∀ (n : NvmCtrl) (ns : NvmeNamespace) (cmd : NvmeCmd) (s s' : IoState),
      n.femuMode = .bbssd → ns.curLbaf.lbads = 9 →
      (nvmeRw n ns cmd s).2 = some (nvmeSuccess, s') →
      cmd.slba + (cmd.nlb + 1) ≤ ns.nsze.toNat →
      GoesOver ssdInitParams s'.slba s'.nlb (cmdLpns ssdInitParams cmd) ∧
        ∀ lpn ∈ cmdLpns ssdInitParams cmd, lpn < ssdInitParams.ttPgs := by
  intro hall
  have hends : (nvmeRw bbCtrl largeNamespace readBehind freshState).2.map Prod.fst =
      some nvmeSuccess := by decide +kernel
  obtain ⟨⟨st, s'⟩, hacc, rfl⟩ := Option.map_eq_some_iff.mp hends
  have hlt := (hall bbCtrl largeNamespace readBehind freshState s' rfl rfl hacc
    (by decide +kernel)).2 4194304 (by decide +kernel)
  rw [ssdInitParams_ttPgs] at hlt
  exact absurd hlt (Nat.lt_irrefl _)

end Femu.Bbssd
