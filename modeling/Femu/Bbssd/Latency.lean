import Femu.Bbssd.Timing
import Femu.Nvme.Defs

/-!
# Femu.Bbssd.Latency

The loop of `ftl_thread` (`bbssd/ftl.c`): the latency it adds to the requests it
passes on to the poller. The variable `lat` lives as long as the thread; the
opcodes without a case of their own leave it as it is.

`pageLats` collects the latencies that the pages of a request get, where the code
keeps their maximum only. `latency_own_iff` says of which runs the latency of each
request is the maximum of its own pages.
-/

namespace Femu.Bbssd

open Lib Nvme

/-! ## ftl_thread -/

/-- What the FTL uses of `NvmeRequest`. -/
structure FtlReq where
  opcode : UInt8
  slba : Nat
  nlb : Nat
  stime : Nat
  reqlat : Nat
  expireTime : UInt64

/-- `lat` of `ftl_thread`, and the SSD. -/
structure FtlThread where
  lat : Nat
  ssd : Ssd

/-- The `switch` of `ftl_thread`. -/
def FtlThread.dispatch (fuel : Nat) (t : FtlThread) (req : FtlReq) : Option FtlThread :=
  if req.opcode = nvmeCmdWrite then
    (t.ssd.ssdWrite fuel req.slba req.nlb req.stime).map fun (lat, s) => ⟨lat, s⟩
  else if req.opcode = nvmeCmdRead then
    (t.ssd.ssdRead req.slba req.nlb req.stime).map fun (lat, s) => ⟨lat, s⟩
  else if req.opcode = nvmeCmdDsm then some { t with lat := 0 }
  -- "FTL received unkown request type"
  else some t

/-- One line is cleaned in the background if needed. -/
def FtlThread.background (t : FtlThread) : Option FtlThread :=
  if t.ssd.shouldGc then (t.ssd.doGc false).map fun (_, s) => { t with ssd := s } else some t

/-- A turn of the loop of `ftl_thread`: the request as it goes to the poller. -/
def FtlThread.turn (fuel : Nat) (t : FtlThread) (req : FtlReq) : Option (FtlReq × FtlThread) :=
  (t.dispatch fuel req).bind fun t =>
    let req := { req with reqlat := t.lat, expireTime := req.expireTime + .ofNat t.lat }
    t.background.map fun t => (req, t)

inductive FtlAct
  | request (req : FtlReq)
  /-- `bb_flip` sets the latencies. -/
  | flip (pgRdLat pgWrLat blkErLat : Nat)

/-- A turn of a run: the thread before it, the request, and the request passed on. -/
structure FtlTurn where
  before : FtlThread
  req : FtlReq
  passed : FtlReq

/-- The turns of a run, and the thread after it. -/
def FtlThread.run (fuel : Nat) : FtlThread → List FtlAct → Option (List FtlTurn × FtlThread)
  | t, [] => some ([], t)
  | t, .request req :: acts =>
      (t.turn fuel req).bind fun (passed, t') =>
        (t'.run fuel acts).map fun (turns, last) => (⟨t, req, passed⟩ :: turns, last)
  | t, .flip rd wr er :: acts => FtlThread.run fuel { t with ssd := t.ssd.flip rd wr er } acts

/-! ## the latencies of the pages of a request -/

/-- The greatest of some latencies, 0 if there are none. -/
def maxLat (lats : List Nat) : Nat := lats.foldr max 0

@[simp] theorem maxLat_nil : maxLat [] = 0 := by simp [maxLat]

@[simp] theorem maxLat_cons (lat : Nat) (lats : List Nat) :
    maxLat (lat :: lats) = max lat (maxLat lats) := by simp [maxLat]

namespace Ssd

/-- `readPage`, with all latencies in the place of `maxlat`. -/
def readPageLats (stime : Nat) (lpn : Nat) : List Nat × Ssd → Option (List Nat × Ssd)
  | (lats, s) =>
      let ppa := s.maptbl lpn
      if !mappedPpa ppa || !validPpa s.sp ppa then some (lats, s)
      else
        let (sublat, s) := s.ssdAdvanceStatus ppa { cmd := .read, stime := stime }
        some (sublat :: lats, s)

/-- `writePage`, with all latencies in the place of `maxlat`. -/
def writePageLats (stime : Nat) (lpn : Nat) : List Nat × Ssd → Option (List Nat × Ssd)
  | (lats, s) =>
      ((s.invalidateOld lpn).writeNewPage lpn).map fun (ppa, s) =>
        let (curlat, s) := s.ssdAdvanceStatus ppa { cmd := .write, stime := stime }
        (curlat :: lats, s)

def ssdReadLats (s : Ssd) (slba nlb stime : Nat) : Option (List Nat × Ssd) :=
  let startLpn := s.sp.startLpn slba
  forLoop (readPageLats stime) (s.sp.endLpn slba nlb + 1 - startLpn) startLpn ([], s)

def ssdWriteLats (fuel : Nat) (s : Ssd) (slba nlb stime : Nat) : Option (List Nat × Ssd) :=
  let startLpn := s.sp.startLpn slba
  let endLpn := s.sp.endLpn slba nlb
  (gcHigh fuel s).bind fun s =>
    forLoop (writePageLats stime) (endLpn + 1 - startLpn) startLpn ([], s)

/-- What `ssd_advance_status` returns for the pages of a request. -/
def pageLats (fuel : Nat) (s : Ssd) (req : FtlReq) : List Nat :=
  let lats :=
    if req.opcode = nvmeCmdWrite then s.ssdWriteLats fuel req.slba req.nlb req.stime
    else if req.opcode = nvmeCmdRead then s.ssdReadLats req.slba req.nlb req.stime
    else none
  lats.elim [] Prod.fst

/-! ## maxlat -/

/-- The running maximum in the place of the latencies. -/
def toMaxLat (p : List Nat × Ssd) : Nat × Ssd := (maxLat p.1, p.2)

theorem toMaxLat_nil (s : Ssd) : toMaxLat ([], s) = (0, s) := by simp [toMaxLat]

section Maxlat

variable {stime slba nlb fuel : Nat}

theorem readPage_toMaxLat (lpn : Nat) (p : List Nat × Ssd) :
    readPage stime lpn (toMaxLat p) = (readPageLats stime lpn p).map toMaxLat := by
  obtain ⟨lats, s⟩ := p
  by_cases hskip : !mappedPpa (s.maptbl lpn) || !validPpa s.sp (s.maptbl lpn)
  · simp [readPage, readPageLats, toMaxLat, hskip]
  · simp [readPage, readPageLats, toMaxLat, hskip]

theorem writePage_toMaxLat (lpn : Nat) (p : List Nat × Ssd) :
    writePage stime lpn (toMaxLat p) = (writePageLats stime lpn p).map toMaxLat := by
  obtain ⟨lats, s⟩ := p
  simp only [writePage, writePageLats, Option.map_map]
  exact congrArg (Option.map · _) (funext fun q => by simp [toMaxLat])

/-- `ssd_read` returns the maximum of what its pages get. -/
theorem ssdRead_eq_maxLat (s : Ssd) :
    s.ssdRead slba nlb stime = (s.ssdReadLats slba nlb stime).map toMaxLat := by
  rw [ssdRead, ssdReadLats, ← toMaxLat_nil, forLoop_map readPage_toMaxLat]

/-- `ssd_write` returns the maximum of what its pages get. -/
theorem ssdWrite_eq_maxLat (s : Ssd) :
    s.ssdWrite fuel slba nlb stime = (s.ssdWriteLats fuel slba nlb stime).map toMaxLat := by
  rw [ssdWrite, ssdWriteLats, Option.map_bind]
  refine congrArg _ (funext fun t => ?_)
  rw [Function.comp_apply, ← toMaxLat_nil, forLoop_map writePage_toMaxLat]

/-! ## latencies are words -/

theorem ssdAdvanceStatus_lt (s : Ssd) (ppa : Ppa) (ncmd : NandCmd) :
    (s.ssdAdvanceStatus ppa ncmd).1 < 2 ^ 64 := by
  exact Nat.mod_lt _ (by decide)

theorem readPageLats_lt {lpn : Nat} {p p' : List Nat × Ssd} (hp : maxLat p.1 < 2 ^ 64)
    (h : readPageLats stime lpn p = some p') : maxLat p'.1 < 2 ^ 64 := by
  obtain ⟨lats, s⟩ := p
  simp only [readPageLats] at h
  split at h
  case isTrue =>
    cases h
    exact hp
  case isFalse =>
    cases h
    exact max_lt (ssdAdvanceStatus_lt s _ _) hp

theorem writePageLats_lt {lpn : Nat} {p p' : List Nat × Ssd} (hp : maxLat p.1 < 2 ^ 64)
    (h : writePageLats stime lpn p = some p') : maxLat p'.1 < 2 ^ 64 := by
  obtain ⟨lats, s⟩ := p
  obtain ⟨q, -, rfl⟩ := Option.map_eq_some_iff.mp h
  exact max_lt (ssdAdvanceStatus_lt q.2 _ _) hp

theorem maxLat_pageLats_lt (s : Ssd) (req : FtlReq) : maxLat (s.pageLats fuel req) < 2 ^ 64 := by
  have hnil : maxLat [] < 2 ^ 64 := by simp
  rw [pageLats]
  split_ifs
  case pos =>
    cases hwrite : s.ssdWriteLats fuel req.slba req.nlb req.stime with
    | none => exact hnil
    | some p =>
      obtain ⟨t, -, hloop⟩ := Option.bind_eq_some_iff.mp hwrite
      exact forLoop_partial (I := fun _ p => maxLat p.1 < 2 ^ 64)
        (fun _ _ _ _ _ hp h => writePageLats_lt hp h) hnil hloop
  case pos =>
    cases hread : s.ssdReadLats req.slba req.nlb req.stime with
    | none => exact hnil
    | some p =>
      exact forLoop_partial (I := fun _ p => maxLat p.1 < 2 ^ 64)
        (fun _ _ _ _ _ hp h => readPageLats_lt hp h) hnil hread
  case neg => exact hnil

end Maxlat

end Ssd

/-! ## a turn -/

/-- The opcodes with a case of their own in `ftl_thread`. -/
def setsLat (opcode : UInt8) : Bool :=
  opcode = nvmeCmdWrite || opcode = nvmeCmdRead || opcode = nvmeCmdDsm

section Turn

variable {fuel : Nat} {t t' : FtlThread} {req passed : FtlReq}

/-- The opcodes with a case of their own set `lat` to the maximum of their pages. -/
theorem dispatch_lat (h : t.dispatch fuel req = some t') :
    t'.lat = if setsLat req.opcode then maxLat (t.ssd.pageLats fuel req) else t.lat := by
  simp only [FtlThread.dispatch, Ssd.ssdWrite_eq_maxLat, Ssd.ssdRead_eq_maxLat] at h
  by_cases hwrite : req.opcode = nvmeCmdWrite
  case pos =>
    rw [if_pos hwrite, Option.map_map] at h
    obtain ⟨p, hp, rfl⟩ := Option.map_eq_some_iff.mp h
    have hset : setsLat req.opcode := by simp [setsLat, hwrite]
    rw [if_pos hset, Ssd.pageLats, if_pos hwrite, hp]
    simp [Ssd.toMaxLat]
  rw [if_neg hwrite] at h
  by_cases hread : req.opcode = nvmeCmdRead
  case pos =>
    rw [if_pos hread, Option.map_map] at h
    obtain ⟨p, hp, rfl⟩ := Option.map_eq_some_iff.mp h
    have hset : setsLat req.opcode := by simp [setsLat, hread]
    rw [if_pos hset, Ssd.pageLats, if_neg hwrite, if_pos hread, hp]
    simp [Ssd.toMaxLat]
  rw [if_neg hread] at h
  by_cases hdsm : req.opcode = nvmeCmdDsm
  case pos =>
    rw [if_pos hdsm] at h
    cases h
    have hset : setsLat req.opcode := by simp [setsLat, hdsm]
    rw [if_pos hset, Ssd.pageLats, if_neg hwrite, if_neg hread]
    simp
  case neg =>
    rw [if_neg hdsm] at h
    cases h
    simp [setsLat, hwrite, hread, hdsm]

theorem background_lat (h : t.background = some t') : t'.lat = t.lat := by
  unfold FtlThread.background at h
  split at h
  case isTrue =>
    obtain ⟨p, -, rfl⟩ := Option.map_eq_some_iff.mp h
    rfl
  case isFalse =>
    cases h
    rfl

/-- A turn passes the request on with `lat` added. -/
theorem turn_lat (h : t.turn fuel req = some (passed, t')) :
    passed.expireTime = req.expireTime + .ofNat t'.lat ∧
      t'.lat = if setsLat req.opcode then maxLat (t.ssd.pageLats fuel req) else t.lat := by
  obtain ⟨u, hdispatch, hrest⟩ := Option.bind_eq_some_iff.mp h
  obtain ⟨v, hback, heq⟩ := Option.map_eq_some_iff.mp hrest
  obtain ⟨rfl, rfl⟩ := Prod.mk.inj heq
  rw [background_lat hback, ← dispatch_lat hdispatch]
  simp

end Turn

/-! ## a run -/

/-- The latencies of the pages of the request of a turn. -/
def FtlTurn.lats (fuel : Nat) (u : FtlTurn) : List Nat := u.before.ssd.pageLats fuel u.req

/-- A request with another opcode touches no page. -/
theorem FtlTurn.lats_eq_nil {fuel : Nat} {u : FtlTurn} (h : ¬ setsLat u.req.opcode) :
    u.lats fuel = [] := by
  simp only [setsLat, Bool.or_eq_true, decide_eq_true_eq, not_or] at h
  rw [FtlTurn.lats, Ssd.pageLats, if_neg h.1.1, if_neg h.1.2]
  simp

/-- The latency of the last request among `turns` with an opcode that `ftl_thread` knows. -/
def priorLat (fuel lat : Nat) (turns : List FtlTurn) : Nat :=
  turns.foldl (fun lat u => if setsLat u.req.opcode then maxLat (u.lats fuel) else lat) lat

section Run

variable {fuel : Nat} {t last : FtlThread} {acts : List FtlAct} {turns : List FtlTurn}

/-- What each turn of a run adds: its own latency, or the one left over. -/
theorem run_expireTime (h : t.run fuel acts = some (turns, last)) {pre post : List FtlTurn}
    {u : FtlTurn} (hu : turns = pre ++ u :: post) :
    u.passed.expireTime = u.req.expireTime +
      .ofNat (if setsLat u.req.opcode then maxLat (u.lats fuel) else priorLat fuel t.lat pre) := by
  induction acts generalizing t turns pre with
  | nil =>
    cases h
    exact absurd hu (by simp)
  | cons act acts ih =>
    cases act with
    | flip rd wr er => exact ih h hu
    | request req =>
      obtain ⟨⟨passed, t'⟩, hturn, hrest⟩ := Option.bind_eq_some_iff.mp h
      obtain ⟨⟨turns', last'⟩, hrun, heq⟩ := Option.map_eq_some_iff.mp hrest
      obtain ⟨rfl, rfl⟩ := Prod.mk.inj heq
      obtain ⟨hexpire, hlat⟩ := turn_lat hturn
      cases pre with
      | nil =>
        obtain ⟨rfl, -⟩ := List.cons.inj hu
        rw [hlat] at hexpire
        exact hexpire
      | cons v pre =>
        obtain ⟨rfl, htail⟩ := List.cons.inj hu
        have hih := ih hrun htail
        rw [hlat] at hih
        exact hih

theorem priorLat_lt (turns : List FtlTurn) {lat : Nat} (h : lat < 2 ^ 64) :
    priorLat fuel lat turns < 2 ^ 64 := by
  induction turns generalizing lat with
  | nil => exact h
  | cons u turns ih =>
    rw [priorLat, List.foldl_cons]
    refine ih ?_
    split
    · exact Ssd.maxLat_pageLats_lt _ _
    · exact h

end Run

/-- **Latencies**: the latency added to each request of a run is the maximum of its own pages
exactly if each request with an opcode that `ftl_thread` does not know comes when the last
request before it with another opcode has a maximum of 0. -/
theorem latency_own_iff {fuel : Nat} {s : Ssd} {acts : List FtlAct} {turns : List FtlTurn}
    {last : FtlThread} (h : FtlThread.run fuel ⟨0, s⟩ acts = some (turns, last)) :
    (∀ u ∈ turns, u.passed.expireTime = u.req.expireTime + .ofNat (maxLat (u.lats fuel))) ↔
      ∀ pre u post, turns = pre ++ u :: post → ¬ setsLat u.req.opcode →
        priorLat fuel 0 pre = 0 := by
  constructor
  case mp =>
    intro hown pre u post hu hset
    have hmem : u ∈ turns := by simp [hu]
    have heq := (run_expireTime h hu).symm.trans (hown u hmem)
    rw [if_neg hset, FtlTurn.lats_eq_nil hset, maxLat_nil, UInt64.add_right_inj] at heq
    have hlt : priorLat fuel 0 pre < 2 ^ 64 := priorLat_lt pre (by decide)
    have hnat := congrArg UInt64.toNat heq
    rw [UInt64.toNat_ofNat', Nat.mod_eq_of_lt hlt] at hnat
    exact hnat
  case mpr =>
    intro hzero u hu
    obtain ⟨pre, post, hsplit⟩ := List.append_of_mem hu
    rw [run_expireTime h hsplit]
    by_cases hset : setsLat u.req.opcode
    case pos => rw [if_pos hset]
    case neg => rw [if_neg hset, hzero pre u post hsplit hset, FtlTurn.lats_eq_nil hset, maxLat_nil]

/-- A write, a DSM and a flush. -/
def writeDsmFlush : List FtlAct :=
  [.request { opcode := nvmeCmdWrite, slba := 0, nlb := 8, stime := 1000, reqlat := 0,
              expireTime := 1000 },
    .request { opcode := nvmeCmdDsm, slba := 0, nlb := 8, stime := 2000, reqlat := 0,
               expireTime := 2000 },
    .request { opcode := nvmeCmdFlush, slba := 0, nlb := 0, stime := 3000, reqlat := 0,
               expireTime := 3000 }]

theorem latency_own_small :
    ∃ turns last, FtlThread.run 1 ⟨0, restingSsd⟩ writeDsmFlush = some (turns, last) ∧
      ∀ pre u post, turns = pre ++ u :: post → ¬ setsLat u.req.opcode → priorLat 1 0 pre = 0 := by
  have hends : ((FtlThread.run 1 ⟨0, restingSsd⟩ writeDsmFlush).map fun (turns, _) =>
      turns.all fun u => u.passed.expireTime = u.req.expireTime + .ofNat (maxLat (u.lats 1))) =
      some true := by decide +kernel
  obtain ⟨⟨turns, last⟩, hrun, hown⟩ := Option.map_eq_some_iff.mp hends
  simp only [List.all_eq_true, decide_eq_true_eq] at hown
  exact ⟨turns, last, hrun, (latency_own_iff hrun).mp hown⟩

/-- A write and a flush. -/
def writeFlush : List FtlAct :=
  [.request { opcode := nvmeCmdWrite, slba := 0, nlb := 8, stime := 1000, reqlat := 0,
              expireTime := 1000 },
    .request { opcode := nvmeCmdFlush, slba := 0, nlb := 0, stime := 3000, reqlat := 0,
               expireTime := 3000 }]

/-- The flush gets the latency of the write. -/
theorem flush_after_write :
    ¬ ∀ (fuel : Nat) (s : Ssd) (acts : List FtlAct) (turns : List FtlTurn) (last : FtlThread),
      FtlThread.run fuel ⟨0, s⟩ acts = some (turns, last) →
      ∀ u ∈ turns, u.passed.expireTime = u.req.expireTime + .ofNat (maxLat (u.lats fuel)) := by
  intro hall
  have hends : ((FtlThread.run 1 ⟨0, restingSsd⟩ writeFlush).map fun (turns, _) =>
      turns.all fun u => u.passed.expireTime = u.req.expireTime + .ofNat (maxLat (u.lats 1))) =
      some false := by decide +kernel
  obtain ⟨⟨turns, last⟩, hrun, hleft⟩ := Option.map_eq_some_iff.mp hends
  have hown := hall 1 restingSsd writeFlush turns last hrun
  rw [← Bool.not_eq_true, List.all_eq_true] at hleft
  exact hleft fun u hu => decide_eq_true (hown u hu)

end Femu.Bbssd
