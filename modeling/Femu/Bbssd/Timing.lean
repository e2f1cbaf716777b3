import Femu.Bbssd.Ftl
import Femu.Lib.Fifo

/-!
# Femu.Bbssd.Timing

The timing of the LUNs of the black-box SSD: every latency comes from
`ssd_advance_status` (`bbssd/ftl.c`), which keeps one availability time for each
LUN. The calls come in any order, for any LUNs, and `bb_flip` may change the
latencies between them.

`Advance` records a call. `lun_timing` is the law of one LUN: the calls it gets
are served like the jobs of a first-come first-served queue.
-/

namespace Femu.Bbssd

open Lib

/-! ## calls -/

/-- A call of `ssd_advance_status`: the LUN, what it returns, `cmd_stime` as the arrival,
`nand_stime` as the start, and the availability time it leaves as the finish. -/
structure Advance extends Fifo.Turn Nat where
  lunAddr : Nat × Nat
  lat : Nat
deriving DecidableEq

/-- The call of a turn, with the time from its arrival on as the latency. -/
def Advance.ofTurn (lunAddr : Nat × Nat) (t : Fifo.Turn Nat) : Advance :=
  { t with lunAddr := lunAddr, lat := t.finish - t.arrival }

/-- What happens to the timing of the LUNs. -/
inductive TimingAct
  /-- `ssd_advance_status` -/
  | advance (ppa : Ppa) (ncmd : NandCmd)
  /-- `bb_flip` sets the latencies. -/
  | flip (pgRdLat pgWrLat blkErLat : Nat)

namespace Ssd

variable (s : Ssd)

/-- `cmd_stime` of `ssd_advance_status`. -/
def cmdStime (ncmd : NandCmd) : Nat := if ncmd.stime = 0 then s.clock 0 else ncmd.stime

/-- `nand_stime` of `ssd_advance_status`. -/
def nandStime (ppa : Ppa) (ncmd : NandCmd) : Nat :=
  let lun := s.lun ppa.lunAddr
  if lun.nextLunAvailTime < s.cmdStime ncmd then s.cmdStime ncmd else lun.nextLunAvailTime

/-- A call, and the state it leaves. -/
def advance (ppa : Ppa) (ncmd : NandCmd) : Advance × Ssd :=
  let (lat, s') := s.ssdAdvanceStatus ppa ncmd
  ({ arrival := s.cmdStime ncmd
     service := s.sp.latency ncmd.cmd
     start := s.nandStime ppa ncmd
     finish := (s'.lun ppa.lunAddr).nextLunAvailTime
     lunAddr := ppa.lunAddr
     lat := lat }, s')

/-- The latencies that `bb_flip` sets. -/
def flip (pgRdLat pgWrLat blkErLat : Nat) : Ssd :=
  { s with sp := { s.sp with pgRdLat := pgRdLat, pgWrLat := pgWrLat, blkErLat := blkErLat } }

/-- The calls of a history, in order. -/
def advances : Ssd → List TimingAct → List Advance
  | _, [] => []
  | s, .advance ppa ncmd :: acts => (s.advance ppa ncmd).1 :: (s.advance ppa ncmd).2.advances acts
  | s, .flip rd wr er :: acts => (s.flip rd wr er).advances acts

/-- The calls of a history that one LUN gets. -/
def lunAdvances (acts : List TimingAct) (l : Nat × Nat) : List Advance :=
  (s.advances acts).filter (·.lunAddr = l)

/-! ## one call -/

section Step

variable (ppa : Ppa) (ncmd : NandCmd) {s}

@[simp] theorem advance_lunAddr : (s.advance ppa ncmd).1.lunAddr = ppa.lunAddr := by
  simp [advance]

@[simp] theorem advance_arrival : (s.advance ppa ncmd).1.arrival = s.cmdStime ncmd := by
  simp [advance]

@[simp] theorem advance_service : (s.advance ppa ncmd).1.service = s.sp.latency ncmd.cmd := by
  simp [advance]

@[simp] theorem advance_start : (s.advance ppa ncmd).1.start = s.nandStime ppa ncmd := by
  simp [advance]

theorem nandStime_eq_max :
    s.nandStime ppa ncmd = max (s.lun ppa.lunAddr).nextLunAvailTime (s.cmdStime ncmd) := by
  simp only [nandStime]
  split <;> omega

/-- A call leaves its finish as the availability time of its LUN, and the other LUNs alone. -/
theorem advance_nextLunAvailTime (l : Nat × Nat) :
    ((s.advance ppa ncmd).2.lun l).nextLunAvailTime =
      if l = ppa.lunAddr then (s.advance ppa ncmd).1.finish else (s.lun l).nextLunAvailTime := by
  by_cases h : l = ppa.lunAddr
  · simp [advance, h]
  · simp [advance, ssdAdvanceStatus, h]

theorem advance_finish :
    (s.advance ppa ncmd).1.finish =
      (s.nandStime ppa ncmd + s.sp.latency ncmd.cmd) % 2 ^ 64 := by
  simp only [advance, ssdAdvanceStatus, Function.update_self]
  rfl

theorem advance_lat :
    (s.advance ppa ncmd).1.lat =
      ((s.advance ppa ncmd).1.finish + (2 ^ 64 - s.cmdStime ncmd)) % 2 ^ 64 := by
  simp only [advance, ssdAdvanceStatus, Function.update_self]
  rfl

/-- Without overflow, a call is a turn of the queue of its LUN. -/
theorem advance_toTurn (h : s.nandStime ppa ncmd + s.sp.latency ncmd.cmd < 2 ^ 64) :
    (s.advance ppa ncmd).1.toTurn =
      Fifo.serve (s.lun ppa.lunAddr).nextLunAvailTime (s.advance ppa ncmd).1.toJob := by
  have hfinish := advance_finish (s := s) ppa ncmd
  rw [Nat.mod_eq_of_lt h] at hfinish
  have hstart : (s.advance ppa ncmd).1.start =
      max (s.lun ppa.lunAddr).nextLunAvailTime (s.advance ppa ncmd).1.arrival := by
    rw [advance_start, advance_arrival, nandStime_eq_max]
  rw [Fifo.serve, ← hstart, advance_start, advance_service, ← hfinish, ← advance_start]

/-- Without overflow, a call returns the time from its arrival to its finish. -/
theorem advance_arrival_add_lat (h : s.nandStime ppa ncmd + s.sp.latency ncmd.cmd < 2 ^ 64) :
    (s.advance ppa ncmd).1.arrival + (s.advance ppa ncmd).1.lat =
      (s.advance ppa ncmd).1.finish := by
  have hle : s.cmdStime ncmd ≤ s.nandStime ppa ncmd := by simp [nandStime_eq_max]
  have hlat := advance_lat (s := s) ppa ncmd
  rw [advance_finish, Nat.mod_eq_of_lt h] at hlat
  rw [hlat, advance_arrival, advance_finish, Nat.mod_eq_of_lt h]
  omega

end Step

/-! ## a history -/

/-- No addition of the calls overflows. -/
def NoOverflow (calls : List Advance) : Prop := ∀ a ∈ calls, a.start + a.service < 2 ^ 64

section Run

variable {l : Nat × Nat}

/-- Without overflow, the calls of a LUN are the schedule of their jobs. -/
theorem lunAdvances_toTurn (acts : List TimingAct) {s : Ssd}
    (h : NoOverflow (s.lunAdvances acts l)) :
    (s.lunAdvances acts l).map (·.toTurn) =
      Fifo.schedule (s.lun l).nextLunAvailTime ((s.lunAdvances acts l).map (·.toJob)) := by
  induction acts generalizing s with
  | nil => simp [lunAdvances, advances, Fifo.schedule]
  | cons act acts ih =>
    cases act with
    | flip rd wr er => exact ih h
    | advance ppa ncmd =>
      by_cases hl : ppa.lunAddr = l
      case neg =>
        have hskip : s.lunAdvances (.advance ppa ncmd :: acts) l =
            (s.advance ppa ncmd).2.lunAdvances acts l := by
          simp [lunAdvances, advances, hl]
        rw [hskip] at h ⊢
        rw [ih h, advance_nextLunAvailTime, if_neg (Ne.symm hl)]
      case pos =>
        have htake : s.lunAdvances (.advance ppa ncmd :: acts) l =
            (s.advance ppa ncmd).1 :: (s.advance ppa ncmd).2.lunAdvances acts l := by
          simp [lunAdvances, advances, hl]
        rw [htake] at h ⊢
        have hturn := advance_toTurn ppa ncmd (h _ List.mem_cons_self)
        have hih := ih fun a ha => h a (List.mem_cons_of_mem _ ha)
        rw [advance_nextLunAvailTime, if_pos hl.symm] at hih
        rw [hl] at hturn
        rw [List.map_cons, List.map_cons, Fifo.schedule, ← hturn, hih]

/-- Each call whose addition does not overflow returns the time from its arrival on. -/
theorem arrival_add_lat_of_mem {acts : List TimingAct} {s : Ssd} {a : Advance}
    (ha : a ∈ s.advances acts) (h : a.start + a.service < 2 ^ 64) :
    a.arrival + a.lat = a.finish := by
  induction acts generalizing s with
  | nil => simp [advances] at ha
  | cons act acts ih =>
    cases act with
    | flip rd wr er => exact ih ha
    | advance ppa ncmd =>
      simp only [advances, List.mem_cons] at ha
      cases ha with
      | inl heq =>
        rw [heq] at h ⊢
        exact advance_arrival_add_lat ppa ncmd h
      | inr hmem => exact ih hmem

/-- Without overflow, the calls of a LUN are what their arrivals and services make them. -/
theorem lunAdvances_eq_schedule {acts : List TimingAct} {s : Ssd}
    (h : NoOverflow (s.lunAdvances acts l)) :
    s.lunAdvances acts l =
      (Fifo.schedule (s.lun l).nextLunAvailTime ((s.lunAdvances acts l).map (·.toJob))).map
        (Advance.ofTurn l) := by
  rw [← lunAdvances_toTurn acts h, List.map_map]
  refine (List.map_id _).symm.trans (List.map_congr_left fun a ha => ?_)
  have hlat := arrival_add_lat_of_mem (List.mem_of_mem_filter ha) (h a ha)
  have hl : a.lunAddr = l := by simpa using (List.mem_filter.mp ha).2
  obtain ⟨t, lunAddr, lat⟩ := a
  simp only [id_eq, Function.comp_apply, Advance.ofTurn, Advance.mk.injEq, true_and] at hlat hl ⊢
  exact ⟨hl, by omega⟩

end Run

end Ssd

/-! ## the law of a LUN -/

/-- The calls are served one after the other, each as soon as it is there and those before it
are done. -/
structure Fcfs (calls : List Advance) : Prop where
  /-- A call finishes at the greatest load of the calls up to it. -/
  finish : ∀ pre a post, calls = pre ++ a :: post →
    IsGreatest (Fifo.loads ((pre ++ [a]).map (·.toJob))) a.finish
  service : ∀ a ∈ calls, a.arrival ≤ a.start ∧ a.start + a.service = a.finish
  ordered : calls.Pairwise fun a b => a.finish ≤ b.start
  lat : ∀ a ∈ calls, a.arrival ≤ a.finish ∧ a.lat = a.finish - a.arrival ∧ a.service ≤ a.lat

open Ssd

theorem Ssd.lunAdvances_fcfs {s : Ssd} {acts : List TimingAct} {l : Nat × Nat}
    (h0 : (s.lun l).nextLunAvailTime = 0)
    (h : NoOverflow (s.lunAdvances acts l)) : Fcfs (s.lunAdvances acts l) := by
  have hturns := lunAdvances_toTurn acts h
  rw [h0] at hturns
  have hserved : ∀ a ∈ s.lunAdvances acts l,
      a.arrival ≤ a.start ∧ a.start + a.service = a.finish := by
    intro a ha
    have hmem := List.mem_map_of_mem (f := (·.toTurn)) ha
    rw [hturns] at hmem
    exact Fifo.turn_of_mem_schedule hmem
  constructor
  case finish =>
    intro pre a post heq
    have hsplit : Fifo.schedule 0 ((s.lunAdvances acts l).map (·.toJob)) =
        pre.map (·.toTurn) ++ a.toTurn :: post.map (·.toTurn) := by
      rw [← hturns, heq, List.map_append, List.map_cons]
    have hdrain := Fifo.finish_eq_drain hsplit
    rw [← List.map_singleton, ← List.map_append, List.map_map] at hdrain
    rw [hdrain]
    exact Fifo.drain_isGreatest (by simp) fun _ _ => Nat.zero_le _
  case service => exact hserved
  case ordered =>
    have hpos : ∀ j ∈ (s.lunAdvances acts l).map (·.toJob), 0 ≤ j.service :=
      fun j _ => Nat.zero_le j.service
    have hpair := Fifo.schedule_pairwise 0 hpos
    rw [← hturns, List.pairwise_map] at hpair
    exact hpair
  case lat =>
    intro a ha
    have harr := hserved a ha
    have hlat := arrival_add_lat_of_mem (List.mem_of_mem_filter ha) (h a ha)
    omega

/-- **Timing of a LUN**: its calls are served first come, first served, each at the greatest
load, and the calls for other LUNs have no part in it. -/
theorem lun_timing (s : Ssd) (acts : List TimingAct) (l : Nat × Nat)
    (h0 : (s.lun l).nextLunAvailTime = 0) (h : NoOverflow (s.lunAdvances acts l)) :
    Fcfs (s.lunAdvances acts l) ∧
      ∀ (s' : Ssd) (acts' : List TimingAct), (s'.lun l).nextLunAvailTime = 0 →
        NoOverflow (s'.lunAdvances acts' l) →
        (s'.lunAdvances acts' l).map (·.toJob) = (s.lunAdvances acts l).map (·.toJob) →
        s'.lunAdvances acts' l = s.lunAdvances acts l := by
  constructor
  case left => exact lunAdvances_fcfs h0 h
  case right =>
    intro s' acts' h0' h' hjobs
    rw [lunAdvances_eq_schedule h', lunAdvances_eq_schedule h, hjobs, h0, h0']

/-- A write, a read that came before it, and an erase of another LUN by the clock. -/
def threeAdvances : List TimingAct :=
  [.advance (mkPpa 0 0 0 0) { cmd := .write, stime := 1000 },
    .advance (mkPpa 1 0 0 0) { cmd := .erase, stime := 0 },
    .flip 0 0 0,
    .advance (mkPpa 0 0 0 0) { cmd := .read, stime := 500 }]

/-- An SSD whose LUNs have no work. -/
def restingSsd : Ssd where
  sp := ssdInitParams
  lun := fun _ => { nextLunAvailTime := 0, gcEndtime := 0 }
  blk := fun _ => { pg := fun _ => .free, ipc := 0, vpc := 0, eraseCnt := 0 }
  maptbl := fun _ => unmappedPpa
  rmap := fun _ => invalidLpn
  wp := { curline := 0, ch := 0, lun := 0, pg := 0, blk := 0, pl := 0 }
  lm := LineMgmt.ssdInitLines ssdInitParams.blksPerPl
  clock := fun k => 700 + k
  log := []

theorem lun_timing_small :
    NoOverflow (restingSsd.lunAdvances threeAdvances (0, 0)) ∧
      Fcfs (restingSsd.lunAdvances threeAdvances (0, 0)) := by
  have h : NoOverflow (restingSsd.lunAdvances threeAdvances (0, 0)) := by
    unfold NoOverflow
    decide +kernel
  exact ⟨h, (lun_timing restingSsd threeAdvances (0, 0) rfl h).1⟩

end Femu.Bbssd
