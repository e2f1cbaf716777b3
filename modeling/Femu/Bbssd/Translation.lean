import Femu.Bbssd.Collect
import Femu.Bbssd.PageIndex
import Femu.Lib.Disk
import Femu.Lib.Flash

/-!
# Femu.Bbssd.Translation

What a flash translation layer is for: it makes a disk of a flash memory, on which a page
is programmed only after its block was erased.

The FTL of `bbssd/ftl.c` only keeps account of pages, their contents are in the memory of
the backend. So a run says which pages are handed out and which blocks erased (its `log`),
and `FtlOp` says what is done to the flash there: a page of the host is programmed, the
collector copies a page, a block is erased. `Translates` is the simulation: whatever flash
holds the disk before a part of the FTL has run, there are such operations that take it to
a flash that holds the disk after.
-/

namespace Femu.Bbssd

open Lib

variable {α : Type}

/-! ## the flash -/

/-- The block of a page and its number there. -/
def Ppa.page (p : Ppa) : BlkAddr × Nat := (p.blkAddr, p.pg.toNat)

/-- What the FTL does to the flash. -/
inductive FtlOp (α : Type)
  /-- `ssd_write` programs a page. -/
  | write (lpn : Nat) (new : Ppa) (x : α)
  /-- `gc_write_page` programs a page with what `gc_read_page` has read. -/
  | copy (old new : Ppa) (x : α)
  /-- `mark_block_free` erases a block. -/
  | erase (b : BlkAddr)

namespace FtlOp

/-- What this is on the flash. -/
def flash : FtlOp α → List (FlashOp (BlkAddr × Nat) BlkAddr α)
  | .write _ new x => [.program new.page x]
  | .copy old new x => [.read old.page x, .program new.page x]
  | .erase b => [.erase b]

/-- What this is for the host. -/
def host : FtlOp α → Option (DiskOp α)
  | .write lpn _ x => some (.write lpn [x])
  | .copy _ _ _ => none
  | .erase _ => none

/-- The page that is programmed or the block that is erased. -/
def target : FtlOp α → Ppa ⊕ BlkAddr
  | .write _ new _ => .inl new
  | .copy _ new _ => .inl new
  | .erase b => .inr b

end FtlOp

/-- The page that is handed out or the block that is erased. -/
def NandEvent.target : NandEvent → Option (Ppa ⊕ BlkAddr)
  | .getNewPage p _ => some (.inl p)
  | .markBlockFree b _ => some (.inr b)
  | .leaveLine _ => none

/-- The flash holds the disk: the free pages are erased, and what was written last to a
logical page is where `maptbl` says. -/
structure Stored (s : Ssd) (L : Nat) (m : BlkAddr × Nat → Option α) (disk : List (DiskOp α)) :
    Prop where
  free : ∀ p, InGeom s.sp p → s.getPg p = .free → m p.page = none
  mapped : ∀ l < L, mappedPpa (s.maptbl l) →
    ∃ x, m (s.maptbl l).page = some x ∧ DiskOp.lastWritten l disk = some x
  unmapped : ∀ l < L, ¬ mappedPpa (s.maptbl l) → DiskOp.lastWritten l disk = none

/-- The operations take the flash from one that holds the disk to one that holds the disk
after the writes, and are what the log says of the time between the states. -/
structure FlashRun (L : Nat) (s s' : Ssd) (disk ws : List (DiskOp α)) (m : BlkAddr × Nat → Option α)
    (ops : List (FtlOp α)) (m' : BlkAddr × Nat → Option α) : Prop where
  run : Run (FlashOp.Step Prod.fst) m (ops.flatMap FtlOp.flash) m'
  host : ops.filterMap FtlOp.host = ws
  log : s'.log.filterMap NandEvent.target = s.log.filterMap NandEvent.target ++ ops.map FtlOp.target
  stored : Stored s' L m' (disk ++ ws)

/-- A part of the FTL that takes `s` to `s'` writes `ws` to the disk, if the log keeps the
discipline. -/
structure Translates (L : Nat) (s s' : Ssd) (ws : List (DiskOp α)) : Prop where
  sp : s'.sp = s.sp
  log : s.log <+: s'.log
  flash : Always (EventOk s'.sp L) s'.log → ∀ m disk, Stored s L m disk →
    ∃ ops m', FlashRun L s s' disk ws m ops m'

/-! ## one page -/

namespace Stored

variable {s t : Ssd} {L l : Nat} {m : BlkAddr × Nat → Option α} {disk disk' : List (DiskOp α)}
  {p : Ppa} {x : α}

/-- Where the tables are the same and no page becomes free the flash holds the same disk. -/
theorem frame (h : Stored s L m disk) (hsp : t.sp = s.sp) (hmap : t.maptbl = s.maptbl)
    (hfree : ∀ p, InGeom s.sp p → t.getPg p = .free → s.getPg p = .free) : Stored t L m disk where
  free p hp hpg := by
    rw [hsp] at hp
    exact h.free p hp (hfree p hp hpg)
  mapped := by rw [hmap]; exact h.mapped
  unmapped := by rw [hmap]; exact h.unmapped

/-- A logical page is written to a free page. -/
theorem program (h : Stored s L m disk) (hp : InGeom s.sp p) (hfree : s.getPg p = .free)
    (hsp : t.sp = s.sp) (hmap : t.maptbl = Function.update s.maptbl l p)
    (hblk : t.blk = (s.markPageValid p).blk)
    (hdisk : ∀ a, DiskOp.lastWritten a disk' = if a = l then some x else DiskOp.lastWritten a disk) :
    Stored t L (Function.update m p.page (some x)) disk' where
  free q hq hpg := by
    change (t.blk q.blkAddr).pg q.pg.toNat = .free at hpg
    rw [hblk] at hpg
    change (Function.update s.blk p.blkAddr _ q.blkAddr).pg q.pg.toNat = .free at hpg
    rw [pg_setPage .valid rfl] at hpg
    split at hpg
    · contradiction
    · next hne =>
      have hpage : q.page ≠ p.page := fun heq =>
        hne ⟨congrArg Prod.fst heq, congrArg Prod.snd heq⟩
      rw [Function.update_of_ne hpage]
      exact h.free q (hsp ▸ hq) hpg
  mapped a ha hm := by
    rw [hmap] at hm ⊢
    rw [hdisk]
    by_cases hal : a = l
    · rw [hal, if_pos rfl, Function.update_self, Function.update_self]
      exact ⟨x, rfl, rfl⟩
    · rw [Function.update_of_ne hal] at hm ⊢
      rw [if_neg hal]
      obtain ⟨y, hy, hlast⟩ := h.mapped a ha hm
      -- the page holds something, so it is not the free one
      have hpage : (s.maptbl a).page ≠ p.page := by
        intro heq
        rw [heq, h.free p hp hfree] at hy
        contradiction
      rw [Function.update_of_ne hpage]
      exact ⟨y, hy, hlast⟩
  unmapped a ha hm := by
    rw [hmap] at hm
    rw [hdisk]
    by_cases hal : a = l
    · rw [hal, Function.update_self] at hm
      exact absurd hp.mapped hm
    · rw [Function.update_of_ne hal] at hm
      rw [if_neg hal]
      exact h.unmapped a ha hm

/-- A block that no logical page is mapped to is erased. -/
theorem erase (h : Stored s L m disk)
    (hmap : ∀ l < L, s.maptbl l ≠ unmappedPpa → (s.maptbl l).blkAddr ≠ p.blkAddr) :
    Stored (s.markBlockFree p) L (fun a => if a.1 = p.blkAddr then none else m a) disk where
  free q hq hpg := by
    change (Function.update s.blk p.blkAddr _ q.blkAddr).pg q.pg.toNat = .free at hpg
    by_cases hqp : q.blkAddr = p.blkAddr
    · exact if_pos hqp
    · rw [Function.update_of_ne hqp] at hpg
      exact (if_neg hqp).trans (h.free q hq hpg)
  mapped l hl hm := by
    obtain ⟨y, hy, hlast⟩ := h.mapped l hl hm
    have hne := hmap l hl (bne_iff_ne.mp hm)
    exact ⟨y, (if_neg hne).trans hy, hlast⟩
  unmapped := h.unmapped

end Stored

/-! ## the steps -/

/-- What a new page adds to the log. -/
theorem Ssd.writeNewPage_log {s t : Ssd} {lpn : Nat} {p : Ppa}
    (h : s.writeNewPage lpn = some (p, t)) :
    s.log ++ [.getNewPage p (s.getPg p)] <+: t.log ∧
      t.log.filterMap NandEvent.target = s.log.filterMap NandEvent.target ++ [.inl p] := by
  unfold writeNewPage at h
  obtain ⟨u, hu, heq⟩ := Option.map_eq_some_iff.mp h
  cases heq
  obtain ⟨wp, -, hadv⟩ | ⟨-, hadv⟩ := ssdAdvanceWritePointer_cases _
  · rw [hadv] at hu
    cases hu
    refine ⟨List.prefix_refl _, ?_⟩
    exact List.filterMap_append
  · rw [hadv, nextLine] at hu
    split at hu
    · contradiction
    · cases hu
      refine ⟨List.prefix_append _ _, ?_⟩
      change List.filterMap _ (s.log ++ [_] ++ [_]) = _
      rw [List.filterMap_append, List.filterMap_append]
      exact List.append_nil _

namespace Translates

variable {s t u : Ssd} {L l : Nat} {ws ws' : List (DiskOp α)} {p : Ppa} {x : α}

/-- Nothing is done to the flash. -/
theorem frame (hsp : t.sp = s.sp) (hmap : t.maptbl = s.maptbl) (hlog : t.log = s.log)
    (hfree : ∀ p, InGeom s.sp p → t.getPg p = .free → s.getPg p = .free) :
    Translates (α := α) L s t [] where
  sp := hsp
  log := by rw [hlog]
  flash _ m disk h := by
    refine ⟨[], m, .nil m, rfl, ?_, ?_⟩
    · rw [hlog, List.map_nil, List.append_nil]
    · rw [List.append_nil]
      exact h.frame hsp hmap hfree

theorem same (h : SameFtl s t) : Translates (α := α) L s t [] :=
  .frame h.sp h.maptbl h.log fun p _ hpg => by
    rw [Ssd.getPg, h.blk] at hpg
    exact hpg

/-- One part after the other. -/
theorem trans (h : Translates L s t ws) (h' : Translates L t u ws') :
    Translates L s u (ws ++ ws') where
  sp := h'.sp.trans h.sp
  log := h.log.trans h'.log
  flash hok m disk hs := by
    have hok' : Always (EventOk t.sp L) t.log := by
      rw [← h'.sp]
      exact hok.of_prefix h'.log
    obtain ⟨ops, m₁, h₁⟩ := h.flash hok' m disk hs
    obtain ⟨ops', m₂, h₂⟩ := h'.flash hok m₁ _ h₁.stored
    refine ⟨ops ++ ops', m₂, ?_, ?_, ?_, ?_⟩
    · rw [List.flatMap_append]
      exact h₁.run.append h₂.run
    · rw [List.filterMap_append, h₁.host, h₂.host]
    · rw [h₂.log, h₁.log, List.map_append, List.append_assoc]
    · rw [← List.append_assoc]
      exact h₂.stored

/-- A new page is programmed for a logical page, with what is on the disk afterwards. -/
theorem writeNewPage (hw : s.writeNewPage l = some (p, t))
    (hflash : ∀ m disk, Stored s L m disk → ∃ op : FtlOp α, ∃ x,
      (m p.page = none → Run (FlashOp.Step Prod.fst) m op.flash
        (Function.update m p.page (some x))) ∧ [op].filterMap FtlOp.host = ws ∧
      op.target = .inl p ∧ ∀ a, DiskOp.lastWritten a (disk ++ ws) =
        if a = l then some x else DiskOp.lastWritten a disk) : Translates L s t ws := by
  obtain ⟨hp, hsp, hmap, hblk⟩ := Ssd.writeNewPage_eq hw
  obtain ⟨hgrown, htarget⟩ := Ssd.writeNewPage_log hw
  refine ⟨hsp, (List.prefix_append _ _).trans hgrown, fun hok m disk hs => ?_⟩
  rw [hsp] at hok
  obtain ⟨hin, hfree, -⟩ := (always_snoc.mp (hok.of_prefix hgrown)).2
  obtain ⟨op, x, hrun, hhost, htgt, hdisk⟩ := hflash m disk hs
  refine ⟨[op], _, ?_, hhost, ?_, hs.program hin hfree hsp hmap hblk hdisk⟩
  · rw [List.flatMap_singleton]
    exact hrun (hs.free p hin hfree)
  · rw [htarget, List.map_singleton, htgt]

/-- A page of the host is written. -/
theorem hostPage (hw : s.writeNewPage l = some (p, t)) (x : α) :
    Translates L s t [.write l [x]] :=
  writeNewPage hw fun _ disk _ => ⟨.write l p x, x, fun hnone => .cons ⟨hnone, rfl⟩ (.nil _), rfl,
    rfl, fun a => DiskOp.lastWritten_write a l x disk⟩

/-- A live page is copied. -/
theorem copyPage {loc : Nat → Place} {prog : Nat × Nat} {dead : Ppa → Prop}
    (hinv : FtlInv s L loc prog none dead) (hp : p ∈ livePages s dead)
    (hw : s.gcWritePage p = some t) : Translates (α := α) L s t [] := by
  unfold Ssd.gcWritePage at hw
  obtain ⟨⟨q, v⟩, hv, rfl⟩ := Option.map_eq_some_iff.mp hw
  have hsame := (sameFtl_gcDelay v q .write).trans (sameFtl_setGcEndtime _ q)
  have hlpn : s.getRmapEnt p < L := (hinv.map.mapsTo' p hp).1
  have hold : s.maptbl (s.getRmapEnt p) = p := hinv.map.right p hp
  have hcopy : Translates (α := α) L s v [] := by
    refine writeNewPage hv fun m disk hs => ?_
    obtain ⟨x, hx, hlast⟩ := hs.mapped _ hlpn (by rw [hold]; exact hp.1.mapped)
    rw [hold] at hx
    refine ⟨.copy p q x, x, fun hnone => ?_, rfl, rfl, fun a => ?_⟩
    · exact .cons ⟨rfl, hx⟩ (.cons ⟨hnone, rfl⟩ (.nil _))
    · rw [List.append_nil]
      split
      · next ha => rw [ha, hlast]
      · rfl
  exact hcopy.trans (.same hsame)

/-- A block is erased. -/
theorem markBlockFree (s : Ssd) (p : Ppa) :
    Translates (α := α) L s (s.markBlockFree p) [] where
  sp := rfl
  log := List.prefix_append _ _
  flash hok m disk hs := by
    obtain ⟨-, -, hmap⟩ := always_snoc.mp hok
    refine ⟨[.erase p.blkAddr], _, .cons rfl (.nil _), rfl, List.filterMap_append, ?_⟩
    rw [List.append_nil]
    exact hs.erase hmap

/-- The loops of `do_gc`. -/
theorem gcLine {c : Nat} (hgc : GcInv s L c (0, 0) s) (hw : s.gcLine c = some t) :
    Translates (α := α) L s t [] := by
  have hrule : GcRule s L c fun _ u => Translates (α := α) L s u [] := by
    constructor
    case same => exact fun _ _ _ hs h => h.trans (.same hs)
    case copy => exact fun _ _ _ _ _ _ hinv hp _ _ hw h => h.trans (copyPage hinv hp hw)
    case erase => exact fun _ _ u p _ h => h.trans (markBlockFree u p)
    case nextCh => exact fun _ _ h => h
  exact hrule.gcLine hgc (.same (.refl s)) hw

/-- `do_gc`. -/
theorem doGc (h : Idle s L) {force : Bool} {r : Int} (hw : s.doGc force = some (r, t)) :
    Translates (α := α) L s t [] := by
  unfold Ssd.doGc at hw
  split at hw
  · cases hw
    exact .same (.refl s)
  · next c lm hv =>
    obtain ⟨hgc, hid, -⟩ := h.gcInv hv
    obtain ⟨u, hu, heq⟩ := Option.map_eq_some_iff.mp hw
    cases heq
    rw [hid] at hu ⊢
    have hselect : Translates (α := α) L s { s with lm := lm } [] :=
      .frame rfl rfl rfl fun _ _ hpg => hpg
    have hfree : Translates (α := α) L u (u.markLineFree c) [] :=
      .frame rfl rfl rfl fun _ _ hpg => hpg
    exact (hselect.trans (gcLine hgc hu)).trans hfree

/-- The `while` loop of `ssd_write`. -/
theorem gcHigh {fuel : Nat} (h : Idle s L) (hw : Ssd.gcHigh fuel s = some t) :
    Translates (α := α) L s t [] := by
  induction fuel generalizing s with
  | zero => contradiction
  | succ fuel ih =>
      unfold Ssd.gcHigh at hw
      split at hw
      case isFalse =>
        cases hw
        exact .same (.refl _)
      case isTrue =>
        obtain ⟨⟨r, u⟩, hu, hrest⟩ := Option.bind_eq_some_iff.mp hw
        have hgc : Translates (α := α) L s u [] := doGc h hu
        obtain ⟨hidle, -⟩ := h.doGc hu
        dsimp only at hrest
        split at hrest
        · cases hrest
          exact hgc
        · exact hgc.trans (ih hidle hrest)

/-- The old page of a logical page is invalidated. -/
theorem invalidateOld (s : Ssd) (L l : Nat) : Translates (α := α) L s (s.invalidateOld l) [] := by
  unfold Ssd.invalidateOld
  dsimp only
  split
  · refine .frame rfl rfl rfl fun p _ hpg => ?_
    change (Function.update s.blk (s.maptbl l).blkAddr _ p.blkAddr).pg p.pg.toNat = .free at hpg
    rw [pg_setPage .invalid rfl] at hpg
    split at hpg
    · contradiction
    · exact hpg
  · exact .same (.refl s)

/-- One iteration of the write loop of `ssd_write`. -/
theorem writePage {stime maxlat : Nat} {y : Nat × Ssd}
    (hw : Ssd.writePage stime l (maxlat, s) = some y) (x : α) :
    Translates L s y.2 [.write l [x]] := by
  obtain ⟨⟨p, v⟩, hv, rfl⟩ := Option.map_eq_some_iff.mp hw
  have hwrite : Translates L s v [.write l [x]] := (invalidateOld s L l).trans (hostPage hv x)
  exact hwrite.trans (.same (sameFtl_ssdAdvanceStatus v p _))

/-- The write loop of `ssd_write`, with the data of the pages. -/
theorem writeLoop {stime i n : Nat} {y : Nat × Ssd}
    (hw : forLoop (Ssd.writePage stime) n i (0, s) = some y) (data : Nat → α) :
    Translates L s y.2 ((List.range' i n).map fun l => .write l [data l]) := by
  have hloop := forLoop_partial
    (I := fun j v => Translates L s v.2 ((List.range' i (j - i)).map fun l => .write l [data l]))
    (fun j v v' hj _ hv hstep => ?_) (by rw [Nat.sub_self]; exact .same (.refl s)) hw
  · rwa [Nat.add_sub_cancel_left] at hloop
  · have hlast : j + 1 - i = j - i + 1 := by omega
    have hat : i + 1 * (j - i) = j := by omega
    rw [hlast, List.range'_concat, List.map_append, List.map_singleton, hat]
    exact hv.trans (writePage hstep (data j))

end Translates

/-! ## runs -/

/-- The writes of a call to the disk, with the data that the host has for its pages. -/
def pageWrites (sp : SsdParams) : FtlCall × (Nat → α) → List (DiskOp α)
  | (.write slba nlb _, data) =>
      (List.range' (sp.startLpn slba) (sp.endLpn slba nlb + 1 - sp.startLpn slba)).map fun lpn =>
        .write lpn [data lpn]
  | (.read _ _ _, _) => []
  | (.gc _, _) => []

/-- The page that `ssd_read` goes to for a logical page, if it goes to one. -/
def Ssd.readPpa (s : Ssd) (lpn : Nat) : Option Ppa :=
  if !mappedPpa (s.maptbl lpn) || !validPpa s.sp (s.maptbl lpn) then none
  else some (s.maptbl lpn)

/-- A flash that the operations of a run have been carried out on is a disk of logical
pages. -/
structure IsDisk (s : Ssd) (writes : List (DiskOp α)) (ops : List (FtlOp α))
    (m : BlkAddr × Nat → Option α) : Prop where
  /-- Pages are programmed when their block has been erased, and read when they have been
  programmed. -/
  flash : Run (FlashOp.Step Prod.fst) (fun _ => none) (ops.flatMap FtlOp.flash) m
  /-- The pages handed out and blocks erased in the run are programmed and erased in that order. -/
  target : ops.map FtlOp.target = s.log.filterMap NandEvent.target
  /-- The pages of the host are written one after the other. -/
  host : ops.filterMap FtlOp.host = writes
  /-- A logical page is read at a page that holds what was written last. -/
  read : ∀ lpn < s.sp.ttPgs, (s.readPpa lpn).map (fun p => m p.page) =
    (DiskOp.lastWritten lpn writes).map some

section Runs

variable {s t : Ssd} {L fuel : Nat}

/-- One call. -/
theorem Translates.step (h : Idle s L) {call : FtlCall} {data : Nat → α}
    (hw : s.step fuel call = some t) : Translates L s t (pageWrites s.sp (call, data)) := by
  cases call with
  | read slba nlb stime =>
      obtain ⟨y, hy, rfl⟩ := Option.map_eq_some_iff.mp hw
      have hsame := forLoop_partial (I := fun _ y => SameFtl s y.2)
        (fun _ _ _ _ _ hv hstep => hv.trans (Idle.readPage hstep)) (.refl s) hy
      exact .same hsame
  | write slba nlb stime =>
      obtain ⟨y, hy, rfl⟩ := Option.map_eq_some_iff.mp hw
      obtain ⟨u, hu, hloop⟩ := Option.bind_eq_some_iff.mp hy
      have hgc : Translates (α := α) L s u [] := gcHigh h hu
      have hwrite := hgc.trans (writeLoop hloop data)
      rw [List.nil_append] at hwrite
      simp only [pageWrites]
      exact hwrite
  | gc force =>
      obtain ⟨⟨r, u⟩, hu, rfl⟩ := Option.map_eq_some_iff.mp hw
      exact doGc h hu

/-- The calls one after the other. -/
theorem Translates.runAll (h : Idle s L) (hL : L ≤ s.sp.ttPgs) {calls : List (FtlCall × (Nat → α))}
    (hb : ∀ call ∈ calls, call.1.Below s.sp L)
    (hw : Lib.runAll (Ssd.step fuel) (calls.map Prod.fst) s = some t) :
    Translates L s t (calls.flatMap (pageWrites s.sp)) := by
  induction calls generalizing s with
  | nil =>
      cases hw
      exact .same (.refl _)
  | cons call calls ih =>
      obtain ⟨u, hu, hrest⟩ := Option.bind_eq_some_iff.mp hw
      obtain ⟨hcall, hcalls⟩ := List.forall_mem_cons.mp hb
      obtain ⟨hidle, hsp⟩ := h.step hL hcall hu
      have htail := ih hidle (hsp.symm ▸ hL) (hsp.symm ▸ hcalls) hrest
      rw [hsp] at htail
      exact (Translates.step h hu).trans htail

/-- A new SSD has an empty log and holds an empty disk. -/
theorem stored_ssdInit {sp : SsdParams} {clock : Nat → Nat} (hi : Ssd.ssdInit sp clock = some s)
    (L : Nat) : s.log = [] ∧ Stored (α := α) s L (fun _ => none) [] := by
  unfold Ssd.ssdInit at hi
  split at hi
  · contradiction
  · cases hi
    refine ⟨rfl, fun _ _ _ => rfl, fun _ _ hm => ?_, fun _ _ _ => rfl⟩
    simp at hm

/-- A mapped logical page is read. -/
theorem Idle.readPpa (h : Idle s L) (hsecs : 0 < s.sp.secsPerPg) {lpn : Nat} (hlpn : lpn < L)
    (hm : mappedPpa (s.maptbl lpn)) : s.readPpa lpn = some (s.maptbl lpn) := by
  obtain ⟨loc, hinv, -⟩ := h
  obtain ⟨⟨hin, -⟩, -⟩ := hinv.map.mapped hlpn hm
  have hvalid : validPpa s.sp (s.maptbl lpn) := by
    have hpl : (s.maptbl lpn).pl.toNat < s.sp.plsPerLun := by
      rw [hin.pl, hinv.pls]
      exact Nat.zero_lt_one
    exact (validPpa_iff hsecs hin.sec).mpr ⟨hin.ch, hin.lun, hpl, hin.blk, hin.pg⟩
  rw [Ssd.readPpa, hm, hvalid]
  rfl

/-- **Translation**: a run of the FTL is carried out on a flash memory, on which it makes a
disk of logical pages. -/
theorem ftl_is_disk {sp : SsdParams} (hr : Representable sp) (hpl : sp.plsPerLun = 1)
    (hsecs : 0 < sp.secsPerPg) {clock : Nat → Nat} {calls : List (FtlCall × (Nat → α))}
    (hb : ∀ call ∈ calls, call.1.Below sp sp.ttPgs)
    (hrun : ssdRun sp clock fuel (calls.map Prod.fst) = some s) :
    ∃ ops m, IsDisk s (calls.flatMap (pageWrites sp)) ops m := by
  obtain ⟨s₀, hinit, hcalls⟩ := Option.bind_eq_some_iff.mp hrun
  obtain ⟨hidle₀, hsp, -⟩ := idle_ssdInit hr hpl clock sp.ttPgs hinit
  obtain ⟨hlog, hstored⟩ := stored_ssdInit (α := α) hinit sp.ttPgs
  subst hsp
  have hbelow : ∀ call ∈ calls.map Prod.fst, call.Below s₀.sp s₀.sp.ttPgs :=
    List.forall_mem_map.mpr hb
  obtain ⟨hidle, hsp⟩ := hidle₀.runAll (Nat.le_refl _) hbelow hcalls
  obtain ⟨loc, hinv, -⟩ := id hidle
  have hall := Translates.runAll hidle₀ (Nat.le_refl _) hb hcalls
  obtain ⟨ops, m, hflash⟩ := hall.flash hinv.log.ok _ _ hstored
  refine ⟨ops, m, hflash.run, ?_, hflash.host, fun lpn hlpn => ?_⟩
  · rw [hflash.log, hlog]
    rfl
  · rw [hsp] at hlpn
    have hdisk := hflash.stored
    rw [List.nil_append] at hdisk
    cases hm : mappedPpa (s.maptbl lpn) with
    | true =>
        obtain ⟨x, hx, hlast⟩ := hdisk.mapped lpn hlpn hm
        rw [hidle.readPpa (hsp ▸ hsecs) hlpn hm, hlast, Option.map_some, hx]
        rfl
    | false =>
        rw [hdisk.unmapped lpn hlpn (by rw [hm]; exact Bool.false_ne_true), Ssd.readPpa, hm]
        rfl

theorem ftl_is_disk_small : ∃ s ops m, ssdRun smallSsd (fun _ => 1) 20 smallCalls = some s ∧
    IsDisk s ((smallCalls.map fun call => (call, id)).flatMap (pageWrites smallSsd)) ops m := by
  have hsome : (ssdRun smallSsd (fun _ => 1) 20 smallCalls).isSome = true := by decide +kernel
  obtain ⟨s, hs⟩ := Option.isSome_iff_exists.mp hsome
  have hcalls : (smallCalls.map fun call => (call, (id : Nat → Nat))).map Prod.fst = smallCalls := by
    rw [List.map_map]
    exact List.map_id smallCalls
  have hrun : ssdRun smallSsd (fun _ => 1) 20
      ((smallCalls.map fun call => (call, (id : Nat → Nat))).map Prod.fst) = some s := by
    rw [hcalls, hs]
  have hbelow : ∀ call ∈ smallCalls.map fun call => (call, (id : Nat → Nat)),
      call.1.Below smallSsd smallSsd.ttPgs := by
    intro call hcall
    obtain ⟨call', hcall', rfl⟩ := List.mem_map.mp hcall
    exact (below_smallCalls call' hcall').mono (by decide)
  obtain ⟨ops, m, hdisk⟩ := ftl_is_disk representable_smallSsd rfl (by decide) hbelow hrun
  exact ⟨s, ops, m, hs, hdisk⟩

end Runs

end Femu.Bbssd
