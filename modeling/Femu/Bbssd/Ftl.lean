import Femu.Bbssd.Params
import Femu.Bbssd.Line
import Femu.Lib.Loop

/-!
# Femu.Bbssd.Ftl

The flash translation layer of the black-box SSD (`bbssd/ftl.c`): the mapping
tables, page and block states, the write pointer, garbage collection, and the
read and write paths of `ftl_thread`.

* `ftl_assert` expands to nothing, so no assertion has a counterpart here;
* a function that can reach the `abort()` of `ssd_advance_write_pointer`
  returns an `Option`, `none` being the abort;
* the `while` loop of `ssd_write` takes a fuel argument, `none` being fuel that
  ran out;
* `clock` is the sequence of readings of the real-time clock still to come;
* `log` is not in the code: it records the pages handed out, the blocks erased
  and the lines left, in order, so that statements about the history of a run
  can be made.
-/

namespace Femu.Bbssd

open Lib

/-! ## NAND state -/

/-- `PG_FREE`, `PG_INVALID`, `PG_VALID`. -/
inductive PageStatus
  | free
  | invalid
  | valid
deriving DecidableEq

/-- The place of a block: the indices that `get_blk` follows. -/
structure BlkAddr where
  ch : Nat
  lun : Nat
  pl : Nat
  blk : Nat
deriving DecidableEq

/-- `get_blk`, as the place of the block. -/
def Ppa.blkAddr (p : Ppa) : BlkAddr where
  ch := p.ch.toNat
  lun := p.lun.toNat
  pl := p.pl.toNat
  blk := p.blk.toNat

/-- `get_lun`, as the place of the LUN. -/
def Ppa.lunAddr (p : Ppa) : Nat × Nat := (p.ch.toNat, p.lun.toNat)

/-- `struct nand_block`, with the status of each page. -/
structure NandBlock where
  pg : Nat → PageStatus
  ipc : Int
  vpc : Int
  eraseCnt : Nat

/-- `struct nand_lun`. -/
structure NandLun where
  nextLunAvailTime : Nat
  gcEndtime : Nat

/-- `struct write_pointer`. -/
structure WritePointer where
  curline : Nat
  ch : Nat
  lun : Nat
  pg : Nat
  blk : Nat
  pl : Nat

/-- `NAND_READ`, `NAND_WRITE`, `NAND_ERASE`. -/
inductive NandOp
  | read
  | write
  | erase

/-- `struct nand_cmd`; its `type` is read nowhere that matters. -/
structure NandCmd where
  cmd : NandOp
  stime : Nat

/-- One entry of the history of a run. -/
inductive NandEvent
  /-- `get_new_page` handed out this page, which had this status. -/
  | getNewPage (ppa : Ppa) (status : PageStatus)
  /-- `mark_block_free` erased this block while `maptbl` was this. -/
  | markBlockFree (blk : BlkAddr) (maptbl : Nat → Ppa)
  /-- `ssd_advance_write_pointer` left this line. -/
  | leaveLine (line : Nat)

/-- `struct ssd`. -/
structure Ssd where
  sp : SsdParams
  lun : Nat × Nat → NandLun
  blk : BlkAddr → NandBlock
  maptbl : Nat → Ppa
  rmap : Nat → Nat
  wp : WritePointer
  lm : LineMgmt
  clock : Nat → Nat
  log : List NandEvent

/-- The latency that the branch of `ssd_advance_status` for this command adds. -/
def SsdParams.latency (sp : SsdParams) : NandOp → Nat
  | .read => sp.pgRdLat
  | .write => sp.pgWrLat
  | .erase => sp.blkErLat

/-- `start_lpn` of `ssd_read` and `ssd_write`. -/
def SsdParams.startLpn (sp : SsdParams) (slba : Nat) : Nat := slba / sp.secsPerPg

/-- `end_lpn` of `ssd_read` and `ssd_write`; the sum wraps at 64 bits. -/
def SsdParams.endLpn (sp : SsdParams) (slba nlb : Nat) : Nat :=
  (slba + nlb + (2 ^ 64 - 1)) % 2 ^ 64 / sp.secsPerPg

/-- `INVALID_LPN`. -/
def invalidLpn : Nat := 2 ^ 64 - 1

namespace Ssd

/-! ## initialisation -/

/-- `ssd_init` for a geometry; `none` when there is no line to start with. -/
def ssdInit (sp : SsdParams) (clock : Nat → Nat) : Option Ssd :=
  match (LineMgmt.ssdInitLines sp.blksPerPl).getNextFreeLine with
  | none => none
  | some (curline, lm) =>
      some
        { sp := sp
          lun := fun _ => { nextLunAvailTime := 0, gcEndtime := 0 }
          blk := fun _ => { pg := fun _ => .free, ipc := 0, vpc := 0, eraseCnt := 0 }
          maptbl := fun _ => unmappedPpa
          rmap := fun _ => invalidLpn
          wp := { curline := curline, ch := 0, lun := 0, pg := 0, blk := 0, pl := 0 }
          lm := lm
          clock := clock
          log := [] }

/-! ## helpers -/

/-- `should_gc`. -/
def shouldGc (s : Ssd) : Bool := s.lm.freeLineCnt ≤ s.sp.gcThresLines

/-- `should_gc_high`. -/
def shouldGcHigh (s : Ssd) : Bool := s.lm.freeLineCnt ≤ s.sp.gcThresLinesHigh

/-- `set_maptbl_ent`. -/
def setMaptblEnt (s : Ssd) (lpn : Nat) (ppa : Ppa) : Ssd :=
  { s with maptbl := Function.update s.maptbl lpn ppa }

/-- `get_rmap_ent`. -/
def getRmapEnt (s : Ssd) (ppa : Ppa) : Nat := s.rmap (ppa2pgidx s.sp ppa)

/-- `set_rmap_ent`. -/
def setRmapEnt (s : Ssd) (lpn : Nat) (ppa : Ppa) : Ssd :=
  { s with rmap := Function.update s.rmap (ppa2pgidx s.sp ppa) lpn }

/-- `get_pg`, the status of the page. -/
def getPg (s : Ssd) (ppa : Ppa) : PageStatus := (s.blk ppa.blkAddr).pg ppa.pg.toNat

/-- `get_new_page`: the page under the write pointer. -/
def getNewPage (s : Ssd) : Ppa × Ssd :=
  let ppa := { mkPpa s.wp.ch s.wp.lun s.wp.blk s.wp.pg with pl := BitVec.ofNat _ s.wp.pl }
  (ppa, { s with log := s.log ++ [.getNewPage ppa (s.getPg ppa)] })

/-! ## the write pointer -/

/-- The end of `ssd_advance_write_pointer`: the line is written out, another
free line is taken. -/
def nextLine (s : Ssd) : Option Ssd :=
  match (s.lm.retire s.sp.pgsPerLine s.wp.curline).getNextFreeLine with
  | none => none
  | some (curline, lm) =>
      some
        { s with
          lm := lm
          wp := { s.wp with
            ch := 0, lun := 0, pg := 0, curline := curline, blk := (lm.lines curline).id }
          log := s.log ++ [.leaveLine s.wp.curline] }

/-- `ssd_advance_write_pointer`. -/
def ssdAdvanceWritePointer (s : Ssd) : Option Ssd :=
  if s.wp.ch + 1 = s.sp.nchs then
    if s.wp.lun + 1 = s.sp.lunsPerCh then
      if s.wp.pg + 1 = s.sp.pgsPerBlk then s.nextLine
      else some { s with wp := { s.wp with ch := 0, lun := 0, pg := s.wp.pg + 1 } }
    else some { s with wp := { s.wp with ch := 0, lun := s.wp.lun + 1 } }
  else some { s with wp := { s.wp with ch := s.wp.ch + 1 } }

/-- A move of the write pointer that stays in its line. -/
inductive WpMove (sp : SsdParams) (wp : WritePointer) : WritePointer → Prop
  | ch (h : wp.ch + 1 ≠ sp.nchs) : WpMove sp wp { wp with ch := wp.ch + 1 }
  | lun (h : wp.ch + 1 = sp.nchs) (h' : wp.lun + 1 ≠ sp.lunsPerCh) :
      WpMove sp wp { wp with ch := 0, lun := wp.lun + 1 }
  | pg (h : wp.ch + 1 = sp.nchs) (h' : wp.lun + 1 = sp.lunsPerCh) (h'' : wp.pg + 1 ≠ sp.pgsPerBlk) :
      WpMove sp wp { wp with ch := 0, lun := 0, pg := wp.pg + 1 }

/-- The write pointer is on the last page of its line. -/
structure WpLast (sp : SsdParams) (wp : WritePointer) : Prop where
  ch : wp.ch + 1 = sp.nchs
  lun : wp.lun + 1 = sp.lunsPerCh
  pg : wp.pg + 1 = sp.pgsPerBlk

/-- What `ssd_advance_write_pointer` can do. -/
theorem ssdAdvanceWritePointer_cases (s : Ssd) :
    (∃ wp, WpMove s.sp s.wp wp ∧ s.ssdAdvanceWritePointer = some { s with wp := wp }) ∨
      (WpLast s.sp s.wp ∧ s.ssdAdvanceWritePointer = s.nextLine) := by
  unfold ssdAdvanceWritePointer
  split
  · next hch =>
    split
    · next hlun =>
      split
      · next hpg => exact .inr ⟨⟨hch, hlun, hpg⟩, rfl⟩
      · next hpg => exact .inl ⟨_, .pg hch hlun hpg, rfl⟩
    · next hlun => exact .inl ⟨_, .lun hch hlun, rfl⟩
  · next hch => exact .inl ⟨_, .ch hch, rfl⟩

/-! ## timing -/

/-- `ssd_advance_status`: the latency of the command, in `uint64_t` arithmetic. -/
def ssdAdvanceStatus (s : Ssd) (ppa : Ppa) (ncmd : NandCmd) : Nat × Ssd :=
  let cmdStime := if ncmd.stime = 0 then s.clock 0 else ncmd.stime
  let clock := if ncmd.stime = 0 then fun k => s.clock (k + 1) else s.clock
  let lun := s.lun ppa.lunAddr
  let nandStime := if lun.nextLunAvailTime < cmdStime then cmdStime else lun.nextLunAvailTime
  let nextLunAvailTime := (nandStime + s.sp.latency ncmd.cmd) % 2 ^ 64
  let lat := (nextLunAvailTime + (2 ^ 64 - cmdStime)) % 2 ^ 64
  (lat, { s with
    lun := Function.update s.lun ppa.lunAddr { lun with nextLunAvailTime := nextLunAvailTime }
    clock := clock })

/-- `lun->gc_endtime = lun->next_lun_avail_time`. -/
def setGcEndtime (s : Ssd) (ppa : Ppa) : Ssd :=
  let lun := s.lun ppa.lunAddr
  { s with lun := Function.update s.lun ppa.lunAddr { lun with gcEndtime := lun.nextLunAvailTime } }

/-- A command of the collector, charged only if `enable_gc_delay` is set. -/
def gcDelay (s : Ssd) (ppa : Ppa) (op : NandOp) : Ssd :=
  if s.sp.enableGcDelay then (s.ssdAdvanceStatus ppa { cmd := op, stime := 0 }).2 else s

/-! ## page and block states -/

/-- `mark_page_invalid`. -/
def markPageInvalid (s : Ssd) (ppa : Ppa) : Ssd :=
  let blk := s.blk ppa.blkAddr
  { s with
    blk := Function.update s.blk ppa.blkAddr { blk with
      pg := Function.update blk.pg ppa.pg.toNat .invalid
      ipc := blk.ipc + 1
      vpc := blk.vpc - 1 }
    lm := s.lm.pageInvalid s.sp.pgsPerLine ppa.blk.toNat }

/-- `mark_page_valid`. -/
def markPageValid (s : Ssd) (ppa : Ppa) : Ssd :=
  let blk := s.blk ppa.blkAddr
  { s with
    blk := Function.update s.blk ppa.blkAddr { blk with
      pg := Function.update blk.pg ppa.pg.toNat .valid
      vpc := blk.vpc + 1 }
    lm := s.lm.pageValid ppa.blk.toNat }

/-- `mark_block_free`. -/
def markBlockFree (s : Ssd) (ppa : Ppa) : Ssd :=
  let blk := s.blk ppa.blkAddr
  { s with
    blk := Function.update s.blk ppa.blkAddr
      { pg := fun i => if i < s.sp.pgsPerBlk then .free else blk.pg i
        ipc := 0
        vpc := 0
        eraseCnt := blk.eraseCnt + 1 }
    log := s.log ++ [.markBlockFree ppa.blkAddr s.maptbl] }

/-! ## garbage collection -/

/-- `gc_read_page`. -/
def gcReadPage (s : Ssd) (ppa : Ppa) : Ssd := s.gcDelay ppa .read

/-- The steps shared by a user write and a copy of the collector: the logical
page is mapped to a new page, which becomes valid, and the write pointer moves
on. -/
def writeNewPage (s : Ssd) (lpn : Nat) : Option (Ppa × Ssd) :=
  let (ppa, s) := s.getNewPage
  let s := s.setMaptblEnt lpn ppa
  let s := s.setRmapEnt lpn ppa
  let s := s.markPageValid ppa
  s.ssdAdvanceWritePointer.map fun s => (ppa, s)

/-- `gc_write_page`. -/
def gcWritePage (s : Ssd) (oldPpa : Ppa) : Option Ssd :=
  let lpn := s.getRmapEnt oldPpa
  (s.writeNewPage lpn).map fun (newPpa, s) => (s.gcDelay newPpa .write).setGcEndtime newPpa

/-- The loop body of `clean_one_block`. -/
def cleanOnePage (ppa : Ppa) (pg : Nat) (s : Ssd) : Option Ssd :=
  let ppa := { ppa with pg := BitVec.ofNat _ pg }
  if s.getPg ppa = .valid then (s.gcReadPage ppa).gcWritePage ppa else some s

/-- `clean_one_block`. -/
def cleanOneBlock (s : Ssd) (ppa : Ppa) : Option Ssd :=
  forLoop (cleanOnePage ppa) s.sp.pgsPerBlk 0 s

/-- The loop body of `do_gc`: one block of the victim line. -/
def gcOneBlock (blk ch lun : Nat) (s : Ssd) : Option Ssd :=
  let ppa := mkPpa ch lun blk 0
  (s.cleanOneBlock ppa).map fun s => ((s.markBlockFree ppa).gcDelay ppa .erase).setGcEndtime ppa

/-- The two nested loops of `do_gc`. -/
def gcLine (s : Ssd) (blk : Nat) : Option Ssd :=
  forLoop (fun ch => forLoop (gcOneBlock blk ch) s.sp.lunsPerCh 0) s.sp.nchs 0 s

/-- `mark_line_free`; the line is found through the truncated block number. -/
def markLineFree (s : Ssd) (blk : Nat) : Ssd :=
  { s with lm := s.lm.markLineFree (mkPpa 0 0 blk 0).blk.toNat }

/-- `do_gc`: the return value `-1` says that no victim was selected. -/
def doGc (s : Ssd) (force : Bool) : Option (Int × Ssd) :=
  match s.lm.selectVictimLine s.sp.pgsPerLine force with
  | none => some (-1, s)
  | some (victim, lm) =>
      let s := { s with lm := lm }
      let blk := (lm.lines victim).id
      (s.gcLine blk).map fun s => (0, s.markLineFree blk)

/-! ## the request paths -/

/-- The loop body of `ssd_read`, with the running `maxlat`. -/
def readPage (stime : Nat) (lpn : Nat) : Nat × Ssd → Option (Nat × Ssd)
  | (maxlat, s) =>
      let ppa := s.maptbl lpn
      if !mappedPpa ppa || !validPpa s.sp ppa then some (maxlat, s)
      else
        let (sublat, s) := s.ssdAdvanceStatus ppa { cmd := .read, stime := stime }
        some (max sublat maxlat, s)

/-- `ssd_read`. -/
def ssdRead (s : Ssd) (slba nlb stime : Nat) : Option (Nat × Ssd) :=
  let startLpn := s.sp.startLpn slba
  forLoop (readPage stime) (s.sp.endLpn slba nlb + 1 - startLpn) startLpn (0, s)

/-- The `while` loop of `ssd_write`. -/
def gcHigh : Nat → Ssd → Option Ssd
  | 0, _ => none
  | fuel + 1, s =>
      if s.shouldGcHigh then
        (s.doGc true).bind fun (r, s) => if r = -1 then some s else gcHigh fuel s
      else some s

/-- The part of the loop body of `ssd_write` that drops the old mapping. -/
def invalidateOld (s : Ssd) (lpn : Nat) : Ssd :=
  let ppa := s.maptbl lpn
  if mappedPpa ppa then (s.markPageInvalid ppa).setRmapEnt invalidLpn ppa else s

/-- The loop body of `ssd_write`, with the running `maxlat`. -/
def writePage (stime : Nat) (lpn : Nat) : Nat × Ssd → Option (Nat × Ssd)
  | (maxlat, s) =>
      ((s.invalidateOld lpn).writeNewPage lpn).map fun (ppa, s) =>
        let (curlat, s) := s.ssdAdvanceStatus ppa { cmd := .write, stime := stime }
        (max curlat maxlat, s)

/-- `ssd_write`. -/
def ssdWrite (fuel : Nat) (s : Ssd) (slba nlb stime : Nat) : Option (Nat × Ssd) :=
  let startLpn := s.sp.startLpn slba
  let endLpn := s.sp.endLpn slba nlb
  (gcHigh fuel s).bind fun s => forLoop (writePage stime) (endLpn + 1 - startLpn) startLpn (0, s)

end Ssd

/-! ## runs -/

/-- A call into the FTL. -/
inductive FtlCall
  | read (slba nlb stime : Nat)
  | write (slba nlb stime : Nat)
  | gc (force : Bool)

/-- One call. -/
def Ssd.step (fuel : Nat) (s : Ssd) : FtlCall → Option Ssd
  | .read slba nlb stime => (s.ssdRead slba nlb stime).map Prod.snd
  | .write slba nlb stime => (s.ssdWrite fuel slba nlb stime).map Prod.snd
  | .gc force => (s.doGc force).map Prod.snd

/-- The calls of a run, from the state `ssd_init` leaves. -/
def ssdRun (sp : SsdParams) (clock : Nat → Nat) (fuel : Nat) (calls : List FtlCall) : Option Ssd :=
  (Ssd.ssdInit sp clock).bind (runAll (Ssd.step fuel) calls)

/-- Every logical page that the call touches is below `L`. -/
def FtlCall.Below (sp : SsdParams) (L : Nat) : FtlCall → Prop
  | .read slba nlb _ | .write slba nlb _ =>
      ∀ lpn, sp.startLpn slba ≤ lpn → lpn ≤ sp.endLpn slba nlb → lpn < L
  | .gc _ => True

theorem FtlCall.Below.mono {sp : SsdParams} {L L' : Nat} {call : FtlCall} (h : call.Below sp L)
    (hL : L ≤ L') : call.Below sp L' := by
  cases call with
  | read slba nlb stime => exact fun lpn h1 h2 => Nat.lt_of_lt_of_le (h lpn h1 h2) hL
  | write slba nlb stime => exact fun lpn h1 h2 => Nat.lt_of_lt_of_le (h lpn h1 h2) hL
  | gc force => trivial

end Femu.Bbssd
