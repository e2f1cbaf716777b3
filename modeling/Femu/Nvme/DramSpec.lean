import Femu.Lib.Loop
import Femu.Lib.Store
import Femu.Nvme.Dram

/-!
# Femu.Nvme.DramSpec

The backend as a linear store. In every mode but the open-channel one,
`backend_rw` moves the bytes of one contiguous range of the logical space, however
the host buffer is cut into segments: a write overwrites the range with the
segments one after the other (`backendRw_write`), a read fills them with the bytes
of the range (`backendRw_read`). The device is compared with the store over whole
runs of overlapping writes and reads.
-/

namespace Femu.Nvme

open Lib

variable {mode : FemuMode} {q : QEMUSGList} {lbal : List Nat} {host mb : Bytes}

/-! ## buffers in segments -/

/-- A copy overwrites its destination with a slice of its source. -/
theorem copyBytes_eq (dst : Bytes) (dstOff : Nat) (src : Bytes) (srcOff len : Nat) :
    copyBytes dst dstOff src srcOff len = overwrite dst dstOff (slice src srcOff len) := by
  funext a
  unfold copyBytes
  split
  · rename_i h
    obtain ⟨i, rfl⟩ : ∃ i, a = dstOff + i := ⟨a - dstOff, by omega⟩
    rw [overwrite_add (by simp; omega)]
    simp [slice]
  · rename_i h
    by_cases hlo : a < dstOff
    · rw [overwrite_of_lt hlo]
    · rw [overwrite_of_ge (by simp; omega)]

/-- The bytes of the segments, in order. -/
def gather (host : Bytes) (sg : List ScatterGatherEntry) : List UInt8 :=
  sg.flatMap fun e => slice host e.base e.len

/-- The number of bytes of the segments. -/
def sgTotal (sg : List ScatterGatherEntry) : Nat := (sg.map (·.len)).sum

/-- Fill the segments with the bytes, in order. -/
def scatter : Bytes → List ScatterGatherEntry → List UInt8 → Bytes
  | host, [], _ => host
  | host, e :: sg, bs => scatter (overwrite host e.base (bs.take e.len)) sg (bs.drop e.len)

/-- No two segments share an address. -/
def SgDisjoint (sg : List ScatterGatherEntry) : Prop :=
  sg.Pairwise fun e e' => Apart e.base e.len e'.base e'.len

@[simp] theorem sgTotal_nil : sgTotal [] = 0 := rfl

@[simp] theorem sgTotal_cons (e : ScatterGatherEntry) (sg : List ScatterGatherEntry) :
    sgTotal (e :: sg) = e.len + sgTotal sg := by
  simp [sgTotal]

@[simp] theorem length_gather (host : Bytes) (sg : List ScatterGatherEntry) :
    (gather host sg).length = sgTotal sg := by
  induction sg with
  | nil => rfl
  | cons e sg ih => simpa [gather] using ih

theorem read_eq_gather (q : QEMUSGList) (host : Bytes) : q.read host = gather host q.sg := rfl

/-- Filling segments leaves what is apart from all of them alone. -/
theorem slice_scatter_apart {host : Bytes} {sg : List ScatterGatherEntry} {bs : List UInt8}
    {off len : Nat} (h : ∀ e ∈ sg, Apart e.base e.len off len) :
    slice (scatter host sg bs) off len = slice host off len := by
  induction sg generalizing host bs with
  | nil => rfl
  | cons e sg ih =>
      have hlen : (bs.take e.len).length ≤ e.len := by
        rw [List.length_take]
        exact Nat.min_le_left _ _
      have hapart : Apart e.base (bs.take e.len).length off len := by
        obtain h | h | h | h := h e List.mem_cons_self
        · exact .inl (by omega)
        · exact .inr (.inl h)
        · exact .inr (.inr (.inl (by omega)))
        · exact .inr (.inr (.inr h))
      rw [scatter, ih fun d hd => h d (List.mem_cons_of_mem e hd), slice_overwrite_apart hapart]

/-- Disjoint segments hold, one after the other, the bytes they were filled with. -/
theorem gather_scatter {sg : List ScatterGatherEntry} (hdis : SgDisjoint sg) {host : Bytes}
    {bs : List UInt8} (hlen : bs.length = sgTotal sg) : gather (scatter host sg bs) sg = bs := by
  induction sg generalizing host bs with
  | nil =>
      have : bs = [] := by simpa using hlen
      simp [gather, this]
  | cons e sg ih =>
      obtain ⟨hhead, htail⟩ := List.pairwise_cons.mp hdis
      have hle : e.len ≤ bs.length := by simp at hlen; omega
      have htake : (bs.take e.len).length = e.len := by simp [hle]
      have hfirst : slice (scatter (overwrite host e.base (bs.take e.len)) sg (bs.drop e.len))
          e.base e.len = bs.take e.len := by
        rw [slice_scatter_apart fun d hd => (hhead d hd).symm]
        have := slice_overwrite host e.base (bs.take e.len)
        rwa [htake] at this
      have hrest : gather (scatter (overwrite host e.base (bs.take e.len)) sg (bs.drop e.len)) sg =
          bs.drop e.len := ih htail (by simp at hlen ⊢; omega)
      show slice _ e.base e.len ++ gather _ sg = bs
      rw [scatter, hfirst, hrest, List.take_append_drop]

/-! ## one call -/

/-- A round of a write, at the start of a segment. -/
theorem backendRwRound_write (hmode : mode ≠ .ocssd) {i o : Nat} {e : ScatterGatherEntry}
    (he : q.sg[i]? = some e) :
    backendRwRound mode q lbal true ⟨i, 0, o, host, mb⟩ =
      some ⟨i + 1, 0, o + e.len, host, overwrite mb o (slice host e.base e.len)⟩ := by
  simp [backendRwRound, he, hmode, copyBytes_eq]

/-- A round of a read, at the start of a segment. -/
theorem backendRwRound_read (hmode : mode ≠ .ocssd) {i o : Nat} {e : ScatterGatherEntry}
    (he : q.sg[i]? = some e) :
    backendRwRound mode q lbal false ⟨i, 0, o, host, mb⟩ =
      some ⟨i + 1, 0, o + e.len, overwrite host e.base (slice mb o e.len), mb⟩ := by
  simp [backendRwRound, he, hmode, copyBytes_eq]

/-- The loop of a write, from a segment on: `pre` is what has been written. -/
theorem backendRwLoop_write (hmode : mode ≠ .ocssd) (hnsg : q.nsg = q.sg.length)
    {pre sg : List ScatterGatherEntry} (hsg : q.sg = pre ++ sg) (lbal : List Nat) (o : Nat)
    (host mb : Bytes) :
    backendRwLoop mode q lbal true sg.length ⟨pre.length, 0, o, host, mb⟩ =
      some ⟨q.nsg, 0, o + sgTotal sg, host, overwrite mb o (gather host sg)⟩ := by
  induction sg generalizing pre o mb with
  | nil =>
      have hend : pre.length = q.nsg := by simp [hnsg, hsg]
      simp [backendRwLoop, hend, gather]
  | cons e sg ih =>
      have hlt : pre.length < q.nsg := by simp [hnsg, hsg]
      have he : q.sg[pre.length]? = some e := by simp [hsg]
      have hsg' : q.sg = (pre ++ [e]) ++ sg := by simp [hsg]
      have hnext := ih hsg' (o + e.len) (overwrite mb o (slice host e.base e.len))
      rw [List.length_append, List.length_singleton] at hnext
      rw [List.length_cons, backendRwLoop, if_pos hlt, backendRwRound_write hmode he,
        Option.bind_some, hnext, sgTotal_cons, Nat.add_assoc]
      have happ := overwrite_append mb o (slice host e.base e.len) (gather host sg)
      rw [length_slice] at happ
      rw [← happ]
      rfl

/-- The loop of a read, from a segment on. -/
theorem backendRwLoop_read (hmode : mode ≠ .ocssd) (hnsg : q.nsg = q.sg.length)
    {pre sg : List ScatterGatherEntry} (hsg : q.sg = pre ++ sg) (lbal : List Nat) (o : Nat)
    (host mb : Bytes) :
    backendRwLoop mode q lbal false sg.length ⟨pre.length, 0, o, host, mb⟩ =
      some ⟨q.nsg, 0, o + sgTotal sg, scatter host sg (slice mb o (sgTotal sg)), mb⟩ := by
  induction sg generalizing pre o host with
  | nil =>
      have hend : pre.length = q.nsg := by simp [hnsg, hsg]
      simp [backendRwLoop, hend, scatter]
  | cons e sg ih =>
      have hlt : pre.length < q.nsg := by simp [hnsg, hsg]
      have he : q.sg[pre.length]? = some e := by simp [hsg]
      have hsg' : q.sg = (pre ++ [e]) ++ sg := by simp [hsg]
      have hnext := ih hsg' (o + e.len) (overwrite host e.base (slice mb o e.len))
      rw [List.length_append, List.length_singleton] at hnext
      rw [List.length_cons, backendRwLoop, if_pos hlt, backendRwRound_read hmode he,
        Option.bind_some, hnext, sgTotal_cons, Nat.add_assoc, scatter, slice_append]
      have hlen : (slice mb o e.len).length = e.len := length_slice mb o e.len
      rw [List.take_left' hlen, List.drop_left' hlen]

/-- **A write**: the range that starts at the first address is overwritten with the
segments of the host, and nothing else changes. -/
theorem backendRw_write (hmode : mode ≠ .ocssd) (hnsg : q.nsg = q.sg.length) (off : Nat)
    (host mb : Bytes) :
    backendRw mode q (off :: lbal) true host mb =
      some (host, overwrite mb off (gather host q.sg)) := by
  have hsg : q.sg = [] ++ q.sg := rfl
  have hloop := backendRwLoop_write hmode hnsg hsg (off :: lbal) off host mb
  rw [← hnsg] at hloop
  simp only [List.length_nil] at hloop
  simp [backendRw, hloop]

/-- **A read**: the segments of the host are filled with the range. -/
theorem backendRw_read (hmode : mode ≠ .ocssd) (hnsg : q.nsg = q.sg.length) (off : Nat)
    (host mb : Bytes) :
    backendRw mode q (off :: lbal) false host mb =
      some (scatter host q.sg (slice mb off (sgTotal q.sg)), mb) := by
  have hsg : q.sg = [] ++ q.sg := rfl
  have hloop := backendRwLoop_read hmode hnsg hsg (off :: lbal) off host mb
  rw [← hnsg] at hloop
  simp only [List.length_nil] at hloop
  simp [backendRw, hloop]

/-! ## runs -/

/-- The list that `qemu_sglist_add` builds from the segments. -/
def sglist (sg : List ScatterGatherEntry) : QEMUSGList :=
  sg.foldl (fun q e => qemuSglistAdd q e.base e.len) pciDmaSglistInit

theorem foldl_qemuSglistAdd (sg : List ScatterGatherEntry) (q : QEMUSGList) :
    sg.foldl (fun q e => qemuSglistAdd q e.base e.len) q =
      ⟨q.sg ++ sg, q.nsg + sg.length, q.size + sgTotal sg⟩ := by
  induction sg generalizing q with
  | nil => simp
  | cons e sg ih =>
      rw [List.foldl_cons, ih]
      simp [qemuSglistAdd, Nat.add_assoc, Nat.add_comm 1]

theorem sglist_eq (sg : List ScatterGatherEntry) : sglist sg = ⟨sg, sg.length, sgTotal sg⟩ := by
  simp [sglist, foldl_qemuSglistAdd, pciDmaSglistInit]

/-- Host memory and the logical space. -/
structure Dram where
  host : Bytes
  mb : Bytes

/-- The host changes its memory, or a command calls `backend_rw`. -/
inductive DramEvent
  | host (m : Bytes)
  | rw (sg : List ScatterGatherEntry) (lbal : List Nat) (isWrite : Bool)

/-- One event. -/
def Dram.step (mode : FemuMode) (s : Dram) : DramEvent → Option Dram
  | .host m => some { s with host := m }
  | .rw sg lbal isWrite =>
    (backendRw mode (sglist sg) lbal isWrite s.host s.mb).map fun r => ⟨r.1, r.2⟩

/-- The range of the call lies inside a backend of `size` bytes. -/
def DramEvent.Inside (size : Nat) : DramEvent → Prop
  | .host _ => True
  | .rw sg lbal _ => ∃ off rest, lbal = off :: rest ∧ off + sgTotal sg ≤ size

/-- The event writes nothing to the range. -/
def DramEvent.Spares (off len : Nat) : DramEvent → Prop
  | .rw sg lbal true => Apart (lbal.headD 0) (sgTotal sg) off len
  | _ => True

/-- What the event writes: the offset, and the host's segments one after the other. -/
def DramEvent.written (host : Bytes) : DramEvent → List (Nat × List UInt8)
  | .rw sg lbal true => [(lbal.headD 0, gather host sg)]
  | _ => []

/-- The writes of a run, in order. -/
def Dram.writes (mode : FemuMode) : List DramEvent → Dram → List (Nat × List UInt8)
  | [], _ => []
  | ev :: evs, s => ev.written s.host ++ (s.step mode ev).elim [] (Dram.writes mode evs)

/-- The reference: the array after the writes. -/
def overwriteAll (m : Bytes) (ws : List (Nat × List UInt8)) : Bytes :=
  ws.foldl (fun m w => overwrite m w.1 w.2) m

/-- What a device is, compared with the linear store, in a state that it has reached
from `s₀` by the events. -/
structure LinearStore (mode : FemuMode) (size : Nat) (s₀ : Dram) (evs : List DramEvent)
    (s : Dram) : Prop where
  /-- The logical space is the reference array. -/
  contents : s.mb = overwriteAll s₀.mb (Dram.writes mode evs s₀)
  /-- Nothing is written past the backend. -/
  outside : ∀ a, size ≤ a → s.mb a = s₀.mb a
  /-- A read fills its segments with the bytes of the range, and changes nothing else. -/
  read : ∀ sg off rest, off + sgTotal sg ≤ size → SgDisjoint sg →
    ∃ s', s.step mode (.rw sg (off :: rest) false) = some s' ∧ s'.mb = s.mb ∧
      gather s'.host sg = slice s.mb off (sgTotal sg) ∧
      ∀ a, (∀ e ∈ sg, a < e.base ∨ e.base + e.len ≤ a) → s'.host a = s.host a
  /-- What is written comes back, whatever the segments of the read and of the
  write are, as long as nothing else is written to the range. -/
  readBack : ∀ sg sg' off rest rest' evs', off + sgTotal sg ≤ size → sgTotal sg' = sgTotal sg →
    SgDisjoint sg' → (∀ ev ∈ evs', ev.Inside size ∧ ev.Spares off (sgTotal sg)) →
    ∃ s', runAll (Dram.step mode)
        (.rw sg (off :: rest) true :: evs' ++ [.rw sg' (off :: rest') false]) s = some s' ∧
      gather s'.host sg' = gather s.host sg

theorem step_write (hmode : mode ≠ .ocssd) (s : Dram) (sg : List ScatterGatherEntry) (off : Nat)
    (rest : List Nat) : s.step mode (.rw sg (off :: rest) true) =
      some ⟨s.host, overwrite s.mb off (gather s.host sg)⟩ := by
  have hnsg : (sglist sg).nsg = (sglist sg).sg.length := by rw [sglist_eq]
  rw [Dram.step, backendRw_write hmode hnsg, sglist_eq]
  rfl

theorem step_read (hmode : mode ≠ .ocssd) (s : Dram) (sg : List ScatterGatherEntry) (off : Nat)
    (rest : List Nat) : s.step mode (.rw sg (off :: rest) false) =
      some ⟨scatter s.host sg (slice s.mb off (sgTotal sg)), s.mb⟩ := by
  have hnsg : (sglist sg).nsg = (sglist sg).sg.length := by rw [sglist_eq]
  rw [Dram.step, backendRw_read hmode hnsg, sglist_eq]
  rfl

/-- **Step lemma**: the device does to its logical space what the reference does. -/
theorem step_linear (hmode : mode ≠ .ocssd) {size : Nat} (s : Dram) {ev : DramEvent}
    (hev : ev.Inside size) :
    ∃ s', s.step mode ev = some s' ∧ s'.mb = overwriteAll s.mb (ev.written s.host) ∧
      (∀ a, size ≤ a → s'.mb a = s.mb a) ∧
      ∀ off len, ev.Spares off len → slice s'.mb off len = slice s.mb off len := by
  match ev, hev with
  | .host m, _ => exact ⟨⟨m, s.mb⟩, rfl, rfl, fun _ _ => rfl, fun _ _ _ => rfl⟩
  | .rw sg _ false, ⟨off, rest, rfl, _⟩ =>
    exact ⟨_, step_read hmode s sg off rest, rfl, fun _ _ => rfl, fun _ _ _ => rfl⟩
  | .rw sg _ true, ⟨off, rest, rfl, hle⟩ =>
    refine ⟨_, step_write hmode s sg off rest, rfl, fun a ha => ?_, fun off' len hspares => ?_⟩
    · exact overwrite_of_ge (by rw [length_gather]; omega)
    · exact slice_overwrite_apart (by rw [length_gather]; exact hspares)

/-- A run of the device, as a run of the reference. -/
theorem run_linear (hmode : mode ≠ .ocssd) {size : Nat} (s : Dram) {evs : List DramEvent}
    (hin : ∀ ev ∈ evs, ev.Inside size) :
    ∃ s', runAll (Dram.step mode) evs s = some s' ∧
      s'.mb = overwriteAll s.mb (Dram.writes mode evs s) ∧
      (∀ a, size ≤ a → s'.mb a = s.mb a) ∧
      ∀ off len, (∀ ev ∈ evs, ev.Spares off len) → slice s'.mb off len = slice s.mb off len := by
  induction evs generalizing s with
  | nil => exact ⟨s, rfl, rfl, fun _ _ => rfl, fun _ _ _ => rfl⟩
  | cons ev evs ih =>
      obtain ⟨t, ht, hmb, hout, hspare⟩ := step_linear hmode s (hin ev List.mem_cons_self)
      obtain ⟨s', hs', hmb', hout', hspare'⟩ :=
        ih t fun d hd => hin d (List.mem_cons_of_mem ev hd)
      refine ⟨s', by rw [runAll_cons, ht]; exact hs', ?_, fun a ha => ?_, fun off len hevs => ?_⟩
      · rw [hmb', hmb, Dram.writes, ht, Option.elim_some, overwriteAll, overwriteAll, overwriteAll,
          List.foldl_append]
      · rw [hout' a ha, hout a ha]
      · rw [hspare' off len fun d hd => hevs d (List.mem_cons_of_mem ev hd),
          hspare off len (hevs ev List.mem_cons_self)]

/-- **Linear store**: over every run of calls inside the backend, the logical space
is the reference array, and reads return it, whatever the segments are. -/
theorem linear_store (hmode : mode ≠ .ocssd) {size : Nat} {evs : List DramEvent}
    (hin : ∀ ev ∈ evs, ev.Inside size) (s₀ : Dram) :
    ∃ s, runAll (Dram.step mode) evs s₀ = some s ∧ LinearStore mode size s₀ evs s := by
  obtain ⟨s, hs, hmb, hout, -⟩ := run_linear hmode s₀ hin
  refine ⟨s, hs, hmb, hout, fun sg off rest hle hdis => ?_, ?_⟩
  · refine ⟨_, step_read hmode s sg off rest, rfl, gather_scatter hdis (length_slice _ _ _), ?_⟩
    intro a ha
    have hapart : ∀ e ∈ sg, Apart e.base e.len a 1 := fun e he => by
      obtain h | h := ha e he
      · exact .inr (.inr (.inr h))
      · exact .inr (.inr (.inl h))
    exact eq_of_slice_eq (slice_scatter_apart hapart) (Nat.le_refl a) (Nat.lt_succ_self a)
  · intro sg sg' off rest rest' evs' hle htotal hdis hevs'
    obtain ⟨t, ht⟩ : ∃ t : Dram, t = ⟨s.host, overwrite s.mb off (gather s.host sg)⟩ := ⟨_, rfl⟩
    obtain ⟨u, hu, -, -, hspare⟩ := run_linear hmode t fun ev hev => (hevs' ev hev).1
    have hslice : slice u.mb off (sgTotal sg) = gather s.host sg := by
      have := slice_overwrite s.mb off (gather s.host sg)
      rw [length_gather] at this
      rw [hspare off _ fun ev hev => (hevs' ev hev).2, ht, this]
    refine ⟨⟨scatter u.host sg' (slice u.mb off (sgTotal sg')), u.mb⟩, ?_, ?_⟩
    · rw [List.cons_append, runAll_cons, step_write hmode, ← ht, Option.bind_some, runAll_append,
        hu, Option.bind_some, runAll_cons, step_read hmode]
      rfl
    · rw [gather_scatter hdis (length_slice _ _ _), htotal, hslice]

/-- A write of two segments and an empty one, read back into a single segment. -/
def smallCalls : List DramEvent :=
  [.rw [⟨0, 3⟩, ⟨7, 0⟩, ⟨16, 2⟩] [1] true, .rw [⟨32, 5⟩] [1] false]

theorem linear_store_small :
    ∃ s, runAll (Dram.step .bbssd) smallCalls ⟨fun a => a.toUInt8, fun _ => 0⟩ = some s ∧
      LinearStore .bbssd 6 ⟨fun a => a.toUInt8, fun _ => 0⟩ smallCalls s := by
  refine linear_store (by decide) (fun ev hev => ?_) _
  simp only [smallCalls, List.mem_cons, List.not_mem_nil, or_false] at hev
  obtain rfl | rfl := hev
  · exact ⟨1, [], rfl, by decide⟩
  · exact ⟨1, [], rfl, by decide⟩

end Femu.Nvme
