import Mathlib.Data.List.Zip
import Femu.Lib.Flash
import Femu.Nvme.Cmb
import Femu.Ocssd.ChunkState
import Femu.Ocssd.Oc20Address
import Femu.Ocssd.ReadMask
import Femu.Ocssd.Scatter

/-!
# Femu.Ocssd.Sectors

The open-channel SSD 2.0 as a flash memory. The device keeps the data of a sector at its
address, and knows of it only the write pointer of its chunk. As long as writes stay in
one chunk and sectors line up with the segments of the host, its commands are the
operations of a flash memory (`Lib.FlashOp`) of which the pages are sectors and the blocks
are chunks: every sector that can be read gives what was last written to it, and its chunk has
not been reset since.
-/

namespace Femu.Ocssd

open Lib Lib.Traced Nvme

/-! ## the data of sectors -/

section Data

variable {q : QEMUSGList} {lbal : List Nat} {len : Nat} {host mb : Bytes}

/-- Put values at their addresses, one after the other. -/
def puts (m : Bytes) (ps : List (Nat × UInt8)) : Bytes :=
  ps.foldl (fun m p => Function.update m p.1 p.2) m

theorem puts_append (m : Bytes) (ps qs : List (Nat × UInt8)) :
    puts m (ps ++ qs) = puts (puts m ps) qs :=
  List.foldl_append

/-- Values at addresses that count up overwrite a range. -/
theorem puts_range (m : Bytes) (a : Nat) (bs : List UInt8) :
    puts m (((List.range bs.length).map (a + ·)).zip bs) = overwrite m a bs := by
  induction bs using List.reverseRecOn with
  | nil => rw [overwrite_nil]; rfl
  | append_singleton bs b ih =>
      rw [List.length_append, List.length_singleton, List.range_succ, List.map_append,
        List.zip_append (by simp), puts_append, ih, overwrite_append]
      funext x
      by_cases hx : x = a + bs.length
      · simp [puts, overwrite, hx]
      · simp only [puts, List.map_cons, List.map_nil, List.zip_cons_cons, List.zip_nil_right,
          List.foldl_cons, List.foldl_nil, Function.update_of_ne hx]
        by_cases hle : a + bs.length ≤ x
        · exact (overwrite_of_ge (by simp; omega)).symm
        · exact (overwrite_of_lt (by omega)).symm

/-- To move bytes to the backend is to put the host's bytes there. -/
theorem foldl_moveByte_true (host mb : Bytes) (ps : List (Nat × Nat)) :
    ps.foldl (moveByte true) (host, mb) = (host, puts mb (ps.map fun p => (p.2, host p.1))) := by
  induction ps generalizing mb with
  | nil => rfl
  | cons p ps ih => exact ih (Function.update mb p.2 (host p.1))

/-- To move bytes from the backend is to put its bytes into the host. -/
theorem foldl_moveByte_false (host mb : Bytes) (ps : List (Nat × Nat)) :
    ps.foldl (moveByte false) (host, mb) = (puts host (ps.map fun p => (p.1, mb p.2)), mb) := by
  induction ps generalizing host with
  | nil => rfl
  | cons p ps ih => exact ih (Function.update host p.1 (mb p.2))

theorem gather_eq (host : Bytes) (sg : List ScatterGatherEntry) :
    gather host sg = (sgBytes sg).map host := by
  simp only [gather, sgBytes, slice, List.map_flatMap, List.map_map, Function.comp_def]

/-- The bytes of sectors overwrite the sectors. -/
theorem puts_sectors (m : Bytes) (lbal : List Nat) {bs : List UInt8}
    (hbs : bs.length = lbal.length * len) :
    puts m ((sectorBytes len lbal).zip bs) =
      overwriteList m (lbal.zip (pieces len lbal.length bs)) := by
  induction lbal generalizing m bs with
  | nil => rfl
  | cons a lbal ih =>
      rw [List.length_cons, Nat.add_mul, Nat.one_mul] at hbs
      have htake : (bs.take len).length = len := by
        rw [List.length_take]
        omega
      have hdrop : (bs.drop len).length = lbal.length * len := by
        rw [List.length_drop]
        omega
      have hfirst := puts_range m a (bs.take len)
      rw [htake] at hfirst
      calc
        puts m ((sectorBytes len (a :: lbal)).zip bs) =
            puts m (((List.range len).map (a + ·) ++ sectorBytes len lbal).zip
              (bs.take len ++ bs.drop len)) := by
          rw [List.take_append_drop]
          rfl
        _ = puts (overwrite m a (bs.take len)) ((sectorBytes len lbal).zip (bs.drop len)) := by
          rw [List.zip_append (by rw [List.length_map, List.length_range, htake]), puts_append,
            hfirst]
        _ = _ := by
          rw [ih _ hdrop]
          rfl

/-- The bytes of segments fill the segments. -/
theorem puts_segments (m : Bytes) (sg : List ScatterGatherEntry) {bs : List UInt8}
    (hbs : bs.length = sgTotal sg) : puts m ((sgBytes sg).zip bs) = scatter m sg bs := by
  induction sg generalizing m bs with
  | nil => rfl
  | cons e sg ih =>
      rw [sgTotal_cons] at hbs
      have htake : (bs.take e.len).length = e.len := by
        rw [List.length_take]
        omega
      have hdrop : (bs.drop e.len).length = sgTotal sg := by
        rw [List.length_drop]
        omega
      have hfirst := puts_range m e.base (bs.take e.len)
      rw [htake] at hfirst
      calc
        puts m ((sgBytes (e :: sg)).zip bs) =
            puts m (((List.range e.len).map (e.base + ·) ++ sgBytes sg).zip
              (bs.take e.len ++ bs.drop e.len)) := by
          rw [List.take_append_drop]
          rfl
        _ = puts (overwrite m e.base (bs.take e.len)) ((sgBytes sg).zip (bs.drop e.len)) := by
          rw [List.zip_append (by rw [List.length_map, List.length_range, htake]), puts_append,
            hfirst]
        _ = _ := by
          rw [ih _ hdrop]
          rfl

/-- The run of `backend_rw` moves the bytes of the segments to or from their sectors. -/
theorem backendRw_moves (hnsg : q.nsg = q.sg.length) (htotal : sgTotal q.sg = lbal.length * len)
    (hbytes : BytesFollow q lbal len) (isWrite : Bool) (host mb : Bytes) :
    backendRw .ocssd q lbal isWrite host mb =
      some (((sgBytes q.sg).zip (sectorBytes len lbal)).foldl (moveByte isWrite) (host, mb)) := by
  obtain ⟨run, hrun, hmem⟩ := backendRwTraced_eq hnsg lbal isWrite host mb
  rw [← backendRwTraced_run, hrun, Option.map_some]
  rw [(sgMoves_eq_iff htotal).mpr ((backendBytes_eq_iff htotal).mpr hbytes)] at hmem
  rw [← hmem]

/-- **A write of sectors** puts each piece of the host's data at the address of its sector. -/
theorem backendRw_sectors_write (hnsg : q.nsg = q.sg.length)
    (htotal : sgTotal q.sg = lbal.length * len) (hbytes : BytesFollow q lbal len)
    (host mb : Bytes) :
    backendRw .ocssd q lbal true host mb =
      some (host, overwriteList mb (lbal.zip (pieces len lbal.length (gather host q.sg)))) := by
  have hswap : ((sgBytes q.sg).zip (sectorBytes len lbal)).map (fun p => (p.2, host p.1)) =
      (sectorBytes len lbal).zip ((sgBytes q.sg).map host) := by
    rw [← List.zip_swap, List.map_map, List.zip_map_right]
    rfl
  rw [backendRw_moves hnsg htotal hbytes, foldl_moveByte_true, hswap, ← gather_eq,
    puts_sectors mb lbal (by rw [length_gather, htotal])]

/-- **A read of sectors** fills the segments of the host with the sectors. -/
theorem backendRw_sectors_read (hnsg : q.nsg = q.sg.length)
    (htotal : sgTotal q.sg = lbal.length * len) (hbytes : BytesFollow q lbal len)
    (host mb : Bytes) :
    backendRw .ocssd q lbal false host mb =
      some (scatter host q.sg (lbal.flatMap fun a => slice mb a len), mb) := by
  have hdata : (sectorBytes len lbal).map mb = lbal.flatMap fun a => slice mb a len := by
    simp only [sectorBytes, slice, List.map_flatMap, List.map_map, Function.comp_def]
  have hmap : ((sgBytes q.sg).zip (sectorBytes len lbal)).map (fun p => (p.1, mb p.2)) =
      (sgBytes q.sg).zip ((sectorBytes len lbal).map mb) := by
    rw [List.zip_map_right]
    rfl
  rw [backendRw_moves hnsg htotal hbytes, foldl_moveByte_false, hmap, puts_segments host q.sg
    (by rw [List.length_map, length_sectorBytes, htotal]), hdata]

theorem length_sectors (mb : Bytes) (lbal : List Nat) (len : Nat) :
    (lbal.flatMap fun a => slice mb a len).length = lbal.length * len := by
  simp only [List.length_flatMap, length_slice, List.map_const', List.sum_replicate_nat]

/-- The data of a read, sector by sector. -/
theorem pieces_sectors (mb : Bytes) (off : Nat → Nat) (lbas : List Nat) (len : Nat) :
    pieces len lbas.length ((lbas.map off).flatMap fun a => slice mb a len) =
      lbas.map fun lba => slice mb (off lba) len := by
  rw [List.flatMap_map]
  exact pieces_flatMap fun lba _ => length_slice mb (off lba) len

theorem zip_map_self {α β : Type} (as : List α) (f : α → β) :
    as.zip (as.map f) = as.map fun a => (a, f a) := by
  have h := @List.zip_map' α α β id f as
  rwa [List.map_id] at h

end Data

/-! ## what a host sees -/

/-- The operations on sectors, with the sectors as pages and the chunks as blocks. -/
abbrev SectorOp : Type := FlashOp Nat Nat (List UInt8)

/-- Where the data of a sector is in the backend. -/
def sectorOff (lns : Oc20Namespace) (lba : Nat) : Nat := u64 (lba * 2 ^ lns.lbads)

/-- The segments that the PRP entries of a command describe. -/
def sectorSegments (n : Oc20Ctrl) (lns : Oc20Namespace) (cmd : NvmeCmd) (m : Mem) :
    List ScatterGatherEntry :=
  prpSegments n.toDmaCtrl m n.maxPrpEnts cmd.prp1.toNat cmd.prp2.toNat
    ((cmd.nlb + 1) * 2 ^ lns.lbads)

/-- The data of the sectors of a command, in the segments that memory `m` described. -/
def sectorData (n : Oc20Ctrl) (lns : Oc20Namespace) (cmd : NvmeCmd) (m : Mem) (host : Bytes) :
    List (List UInt8) :=
  pieces (2 ^ lns.lbads) (cmd.nlb + 1) (gather host (sectorSegments n lns cmd m))

/-- What a command does to sectors: a write that succeeds writes those of its list, and a read
that succeeds reads those that can be read. -/
def rwOps (n : Oc20Ctrl) (lns : Oc20Namespace) (cmd : NvmeCmd) (vector : Bool) (s s' : Oc20State)
    (status : Status) : List SectorOp :=
  if status ≠ nvmeSuccess then []
  else if oc20RwIsWrite cmd.opcode then
    List.zipWith .program (lbaList n.toDmaCtrl s.mem cmd vector)
      (sectorData n lns cmd s.mem s.mem.host)
  else
    (((lbaList n.toDmaCtrl s.mem cmd vector).zip (sectorData n lns cmd s.mem s'.mem.host)).filter
      fun p => Readable lns n.mwCunits s.chunkInfo p.1).map fun p => .read p.1 p.2

/-- The segments of a command line up with its sectors: each byte comes with the address of
its sector, and no two segments of a read share one. -/
structure LinesUp (n : Oc20Ctrl) (lns : Oc20Namespace) (cmd : NvmeCmd) (vector : Bool) (m : Mem) :
    Prop where
  follow : BytesFollow (sglist (sectorSegments n lns cmd m))
    ((lbaList n.toDmaCtrl m cmd vector).map (sectorOff lns)) (2 ^ lns.lbads)
  disjoint : oc20RwIsWrite cmd.opcode = false → SgDisjoint (sectorSegments n lns cmd m)

/-- An event, and what it does to sectors. -/
structure SectorEvent where
  event : Oc20Event
  ops : List SectorOp

/-- One event. Nothing but the commands changes the backend, a command that is accepted lines up
with its sectors, a write stays in one chunk, and no reset is made to fail. -/
def SectorStep (n : Oc20Ctrl) (lns : Oc20Namespace) (rc : Oc20Resets) (s : Oc20State)
    (e : SectorEvent) (s' : Oc20State) : Prop :=
  match e.event with
  | .env t => s' = { t with chunkInfo := s.chunkInfo, mb := s.mb } ∧ e.ops = []
  | .rw cmd vector => ∃ status, (oc20Rw n lns cmd vector s).2 = some (status, s') ∧
      e.ops = rwOps n lns cmd vector s s' status ∧
      (Accepted n lns cmd vector s → LinesUp n lns cmd vector s.mem ∧
        (oc20RwIsWrite cmd.opcode = true → OneChunk lns (lbaList n.toDmaCtrl s.mem cmd vector)))
  | .erase cmd mptr rand => ∃ resets status,
      oc20Erase n lns rc rand cmd mptr s = (resets, some (status, s')) ∧
      e.ops = resets.map .erase ∧ ∀ i k, ¬ rc.fails i (rand k)

/-! ## addresses -/

section Addresses

variable {geo : Oc20IdGeo} {a b lba : Nat}

/-- A valid address is put together from what the macros take apart. -/
theorem oc20Lba_get (h : geo.NonEmpty) (hbits : geo.bits ≤ 31)
    (hv : oc20LbaValid (oc20NamespaceOf geo) lba) :
    oc20Lba (oc20InitLbaf geo) ((oc20InitLbaf geo).getGroup lba) ((oc20InitLbaf geo).getPunit lba)
      ((oc20InitLbaf geo).getChunk lba) ((oc20InitLbaf geo).getSectr lba) = lba := by
  obtain ⟨g, p, c, s, hx, hs, rfl⟩ := exists_oc20Lba h hbits hv
  obtain ⟨hg, hp, hc, hsec⟩ := oc20Lba_decode h hbits hx hs
  rw [hg, hp, hc, hsec]

theorem valid_lt (h : geo.NonEmpty) (hbits : geo.bits ≤ 31)
    (hv : oc20LbaValid (oc20NamespaceOf geo) lba) : lba < 2 ^ 31 := by
  obtain ⟨g, p, c, s, hx, hs, rfl⟩ := exists_oc20Lba h hbits hv
  obtain ⟨hsec, hchk, hlun, hgrp⟩ := placed_lt h hbits hx hs
  rw [oc20Lba_eq_or h hbits hx hs]
  exact Nat.or_lt_two_pow (Nat.or_lt_two_pow (Nat.or_lt_two_pow hsec hchk) hlun) hgrp

/-- An address is known by its chunk and its sector. -/
theorem eq_of_sector (h : geo.NonEmpty) (hbits : geo.bits ≤ 31)
    (ha : oc20LbaValid (oc20NamespaceOf geo) a) (hb : oc20LbaValid (oc20NamespaceOf geo) b)
    (hidx : oc20LbaToChunkIndex (oc20NamespaceOf geo) a =
      oc20LbaToChunkIndex (oc20NamespaceOf geo) b)
    (hsec : (oc20NamespaceOf geo).lbaf.getSectr a = (oc20NamespaceOf geo).lbaf.getSectr b) :
    a = b := by
  have hsame : sameChunk (oc20NamespaceOf geo) a b = true := by
    rw [← sameChunkIndex_eq (chksPerGrp_eq h hbits) ha hb, sameChunkIndex, hidx]
    exact beq_self_eq_true _
  simp only [sameChunk, Bool.and_eq_true, beq_iff_eq] at hsame
  obtain ⟨⟨hgroup, hpunit⟩, hchunk⟩ := hsame
  have hgeta := oc20Lba_get h hbits ha
  have hgetb := oc20Lba_get h hbits hb
  rw [show (oc20InitLbaf geo).getGroup a = _ from hgroup,
    show (oc20InitLbaf geo).getPunit a = _ from hpunit,
    show (oc20InitLbaf geo).getChunk a = _ from hchunk,
    show (oc20InitLbaf geo).getSectr a = _ from hsec] at hgeta
  exact hgeta.symm.trans hgetb

theorem sectorOff_eq (h : geo.NonEmpty) (hbits : geo.bits ≤ 31)
    (hv : oc20LbaValid (oc20NamespaceOf geo) lba) :
    sectorOff (oc20NamespaceOf geo) lba = lba * 2 ^ 12 := by
  have hlt := valid_lt h hbits hv
  exact u64_eq (show lba * 2 ^ 12 < 2 ^ 64 by omega)

/-- Sectors share no byte. -/
theorem sectors_apart (h : geo.NonEmpty) (hbits : geo.bits ≤ 31)
    (ha : oc20LbaValid (oc20NamespaceOf geo) a) (hb : oc20LbaValid (oc20NamespaceOf geo) b)
    (hne : a ≠ b) :
    Apart (sectorOff (oc20NamespaceOf geo) a) (2 ^ 12) (sectorOff (oc20NamespaceOf geo) b)
      (2 ^ 12) := by
  rw [sectorOff_eq h hbits ha, sectorOff_eq h hbits hb]
  unfold Apart
  omega

end Addresses

/-! ## the device and the flash memory -/

/-- The backend holds the data of the flash memory, and the sectors below the write pointer of
a chunk are those that have been written. -/
structure Holds (lns : Oc20Namespace) (mb : Bytes) (chunkInfo : Nat → Oc20CS)
    (m : Nat → Option (List UInt8)) : Prop where
  written : ∀ lba, oc20LbaValid lns lba →
    (m lba ≠ none ↔ lns.lbaf.getSectr lba < (chunkInfo (oc20LbaToChunkIndex lns lba)).wp)
  valid : ∀ lba, m lba ≠ none → oc20LbaValid lns lba
  data : ∀ lba x, m lba = some x → slice mb (sectorOff lns lba) (2 ^ lns.lbads) = x

section Write

variable {lns : Oc20Namespace} {chunkInfo : Nat → Oc20CS} {lbas : List Nat} {i : Nat}

/-- An accepted write that stays in one chunk names the sectors from the write pointer on. -/
theorem getSectr_getElem (hsec : lns.lbaf.secOffset = 0)
    (hlist : ∀ lba ∈ lbas, oc20LbaValid lns lba ∧ oc20LbaToChunkIndex lns lba = i)
    (htype : (chunkInfo i).type = oc20ChunkTypeSeq)
    (hcheck : oc20RwCheckWriteReq lns chunkInfo lbas = nvmeSuccess) {j : Nat}
    (hj : j < lbas.length) : lns.lbaf.getSectr lbas[j] = (chunkInfo i).wp + j := by
  cases lbas with
  | nil => simp at hj
  | cons lba rest =>
      have hvalid : ∀ a ∈ lba :: rest, oc20LbaValid lns a := fun a ha => (hlist a ha).1
      have hrun : (lba :: rest).IsChain fun a b => sameChunkIndex lns a b = true := by
        refine List.isChain_iff_getElem.mpr fun k hk => ?_
        rw [sameChunkIndex, (hlist _ (List.getElem_mem _)).2, (hlist _ (List.getElem_mem _)).2]
        exact beq_self_eq_true i
      obtain ⟨hcounts, hhead⟩ := (runsPass_single hrun rfl).mp (checkWriteReq_iff _ |>.mp hcheck)
      have hnext : (lba :: rest).IsChain fun a b =>
          lns.lbaf.getSectr b = lns.lbaf.getSectr a + 1 := by
        refine List.isChain_iff_getElem.mpr fun k hk => ?_
        have hlt := (hvalid _ (List.getElem_mem (show k < (lba :: rest).length by omega))).1
        have hclba := lns.geo.clba.toNat_lt
        rw [← List.isChain_iff_getElem.mp hcounts k hk (List.isChain_iff_getElem.mp hrun k hk),
          u32_eq (by omega)]
      obtain ⟨hlba, hidx⟩ := hlist lba List.mem_cons_self
      have hwp : lns.lbaf.getSectr lba = (chunkInfo i).wp := by
        have hpass := (checkChunkWrite_iff hsec hlba (sectr_add_length hvalid hnext rfl)
          (by rw [hidx, htype])).mp hhead
        rw [hpass.2.2.2, hidx]
      induction j with
      | zero => exact hwp
      | succ j ih =>
          rw [List.isChain_iff_getElem.mp hnext j hj, ih (by omega), Nat.add_assoc]

end Write

section Steps

variable {geo : Oc20IdGeo} {n : Oc20Ctrl} {rc : Oc20Resets} {mb : Bytes}
  {chunkInfo : Nat → Oc20CS} {m : Nat → Option (List UInt8)} {log : List ChunkEvent}
  {lbas : List Nat} {parts : List (List UInt8)} {i : Nat}

/-- The chunk of an accepted write is one of the table, and has room. -/
theorem chunk_of_write (hinv : ∀ i, ChunkInv (oc20NamespaceOf geo) log i (chunkInfo i))
    (hne : lbas ≠ [])
    (hlist : ∀ lba ∈ lbas, oc20LbaValid (oc20NamespaceOf geo) lba ∧
      oc20LbaToChunkIndex (oc20NamespaceOf geo) lba = i)
    (hcheck : oc20RwCheckWriteReq (oc20NamespaceOf geo) chunkInfo lbas = nvmeSuccess) :
    (chunkInfo i).type = oc20ChunkTypeSeq ∧
      ((chunkInfo i).state = oc20ChunkFree ∨ (chunkInfo i).state = oc20ChunkOpen) ∧
      (chunkInfo i).wp + lbas.length ≤ geo.clba.toNat := by
  obtain ⟨lba, rest, rfl⟩ := List.exists_cons_of_ne_nil hne
  have hran : (chunkInfo i).type ≠ oc20ChunkTypeRan := by
    obtain ⟨ht, -⟩ | hz := hinv i
    · rw [ht]
      decide
    · rw [hz]
      decide
  obtain ⟨hnot, hpos, hfit⟩ := checkWriteReq_one rfl hlist hran hcheck
  obtain ⟨ht, -, htracked⟩ | hz := hinv i
  · exact ⟨ht, htracked.free_or_open hnot, hfit⟩
  · rw [hz] at hpos
    exact absurd rfl hpos

/-- An accepted write in one chunk has each of the sectors from the write pointer on. -/
theorem mem_write_iff (h : geo.NonEmpty) (hbits : geo.bits ≤ 31)
    (hlist : ∀ lba ∈ lbas, oc20LbaValid (oc20NamespaceOf geo) lba ∧
      oc20LbaToChunkIndex (oc20NamespaceOf geo) lba = i)
    (htype : (chunkInfo i).type = oc20ChunkTypeSeq)
    (hcheck : oc20RwCheckWriteReq (oc20NamespaceOf geo) chunkInfo lbas = nvmeSuccess) {a : Nat}
    (hvalid : oc20LbaValid (oc20NamespaceOf geo) a) :
    a ∈ lbas ↔ oc20LbaToChunkIndex (oc20NamespaceOf geo) a = i ∧
      (chunkInfo i).wp ≤ (oc20NamespaceOf geo).lbaf.getSectr a ∧
      (oc20NamespaceOf geo).lbaf.getSectr a < (chunkInfo i).wp + lbas.length := by
  constructor
  case mp =>
    intro ha
    obtain ⟨j, hj, rfl⟩ := List.mem_iff_getElem.mp ha
    rw [getSectr_getElem rfl hlist htype hcheck hj]
    exact ⟨(hlist _ ha).2, by omega, by omega⟩
  case mpr =>
    intro ⟨hidx, hlo, hhi⟩
    obtain ⟨j, hj⟩ := Nat.exists_eq_add_of_le hlo
    have hlt : j < lbas.length := by omega
    obtain ⟨hvalid', hidx'⟩ := hlist _ (List.getElem_mem hlt)
    have heq : a = lbas[j] := eq_of_sector h hbits hvalid hvalid' (hidx.trans hidx'.symm)
      (hj.trans (getSectr_getElem rfl hlist htype hcheck hlt).symm)
    exact heq ▸ List.getElem_mem hlt

theorem nodup_write
    (hlist : ∀ lba ∈ lbas, oc20LbaValid (oc20NamespaceOf geo) lba ∧
      oc20LbaToChunkIndex (oc20NamespaceOf geo) lba = i)
    (htype : (chunkInfo i).type = oc20ChunkTypeSeq)
    (hcheck : oc20RwCheckWriteReq (oc20NamespaceOf geo) chunkInfo lbas = nvmeSuccess) :
    lbas.Nodup := by
  refine List.nodup_iff_injective_getElem.mpr fun j k hjk => Fin.ext ?_
  have hj := getSectr_getElem rfl hlist htype hcheck j.isLt
  have hk := getSectr_getElem rfl hlist htype hcheck k.isLt
  simp only at hjk
  rw [hjk] at hj
  omega

/-- The writes to different sectors share no byte. -/
theorem writes_apart (h : geo.NonEmpty) (hbits : geo.bits ≤ 31) (hnodup : lbas.Nodup)
    (hvalid : ∀ lba ∈ lbas, oc20LbaValid (oc20NamespaceOf geo) lba)
    (hlen : ∀ p ∈ parts, p.length = 2 ^ 12) :
    ((lbas.map (sectorOff (oc20NamespaceOf geo))).zip parts).Pairwise fun w v =>
      Apart w.1 w.2.length v.1 v.2.length := by
  refine List.pairwise_iff_getElem.mpr fun j k hj hk hjk => ?_
  simp only [List.length_zip, List.length_map, Nat.lt_min] at hj hk
  simp only [List.getElem_zip, List.getElem_map]
  rw [hlen _ (List.getElem_mem hj.2), hlen _ (List.getElem_mem hk.2)]
  refine sectors_apart h hbits (hvalid _ (List.getElem_mem _)) (hvalid _ (List.getElem_mem _)) ?_
  exact fun heq => absurd ((hnodup.getElem_inj_iff).mp heq) (by omega)

/-- A sector of a list comes with its part. -/
theorem exists_part (off : Nat → Nat) (hparts : parts.length = lbas.length) {a : Nat}
    (ha : a ∈ lbas) :
    ∃ p ∈ parts, (a, p) ∈ lbas.zip parts ∧ (off a, p) ∈ (lbas.map off).zip parts := by
  obtain ⟨j, hj, rfl⟩ := List.mem_iff_getElem.mp ha
  have hj' : j < parts.length := hparts ▸ hj
  have hzip : (lbas[j], parts[j]) ∈ lbas.zip parts :=
    List.mem_iff_getElem.mpr ⟨j, by rw [List.length_zip]; omega, List.getElem_zip⟩
  refine ⟨parts[j], List.getElem_mem hj', hzip, ?_⟩
  rw [List.zip_map_left]
  exact List.mem_map.mpr ⟨_, hzip, rfl⟩

/-- **Step lemma for writes**: a write in one chunk writes sectors that have not been
written. -/
theorem Holds.write (h : geo.NonEmpty) (hbits : geo.bits ≤ 31)
    (hm : Holds (oc20NamespaceOf geo) mb chunkInfo m)
    (hinv : ∀ i, ChunkInv (oc20NamespaceOf geo) log i (chunkInfo i)) (hne : lbas ≠ [])
    (hone : OneChunk (oc20NamespaceOf geo) lbas)
    (hcheck : oc20RwCheckWriteReq (oc20NamespaceOf geo) chunkInfo lbas = nvmeSuccess)
    (parts : List (List UInt8)) (hparts : parts.length = lbas.length)
    (hlen : ∀ p ∈ parts, p.length = 2 ^ 12) :
    ∃ m', Run (FlashOp.Step (oc20LbaToChunkIndex (oc20NamespaceOf geo))) m
        (List.zipWith .program lbas parts) m' ∧
      Holds (oc20NamespaceOf geo)
        (overwriteList mb ((lbas.map (sectorOff (oc20NamespaceOf geo))).zip parts))
        (oc20AdvanceWp (oc20NamespaceOf geo) chunkInfo (lbas.headD 0) lbas.length).1 m' := by
  obtain ⟨i, hlist⟩ := hone
  obtain ⟨htype, hopen, hfit⟩ := chunk_of_write hinv hne hlist hcheck
  have hnodup := nodup_write hlist htype hcheck
  have hmem : ∀ {a}, oc20LbaValid (oc20NamespaceOf geo) a → (a ∈ lbas ↔ _) :=
    mem_write_iff h hbits hlist htype hcheck
  have hfree : ∀ a ∈ lbas, m a = none := by
    intro a ha
    by_contra hsome
    have hlt := (hm.written a (hlist a ha).1).mp hsome
    have hge := (hmem (hlist a ha).1).mp ha
    rw [hge.1] at hlt
    omega
  have hadvance : (oc20AdvanceWp (oc20NamespaceOf geo) chunkInfo (lbas.headD 0) lbas.length).1 =
      Function.update chunkInfo i ((chunkInfo i).advanced lbas.length) := by
    have hclba := geo.clba.toNat_lt
    refine oc20AdvanceWp_eq ?_ htype hopen (by omega)
    have hhead : lbas.headD 0 ∈ lbas := by
      obtain ⟨lba, rest, rfl⟩ := List.exists_cons_of_ne_nil hne
      exact List.mem_cons_self
    rw [oc20ChunkGetState, if_pos (hlist _ hhead).1, (hlist _ hhead).2]
  obtain ⟨m', hrun, hin, hout⟩ := FlashOp.run_programs (oc20LbaToChunkIndex (oc20NamespaceOf geo))
    hparts.symm hnodup hfree
  have hlbads : (oc20NamespaceOf geo).lbads = 12 := rfl
  rw [hadvance]
  refine ⟨m', hrun, fun a hvalid => ?_, fun a ha => ?_, fun a x hx => ?_⟩
  · by_cases ha : a ∈ lbas
    · obtain ⟨p, -, hp, -⟩ := exists_part (sectorOff (oc20NamespaceOf geo)) hparts ha
      obtain ⟨hidx, -, hlt⟩ := (hmem hvalid).mp ha
      rw [hin _ hp, hidx, Function.update_self]
      exact iff_of_true (Option.some_ne_none p) hlt
    · rw [hout a ha, hm.written a hvalid]
      by_cases hidx : oc20LbaToChunkIndex (oc20NamespaceOf geo) a = i
      · rw [hidx, Function.update_self]
        have hnot := mt (hmem hvalid).mpr ha
        have hwp : ((chunkInfo i).advanced lbas.length).wp = (chunkInfo i).wp + lbas.length := rfl
        omega
      · rw [Function.update_of_ne hidx]
  · by_cases hin : a ∈ lbas
    · exact (hlist a hin).1
    · exact hm.valid a (hout a hin ▸ ha)
  · have hvalid : ∀ lba ∈ lbas, oc20LbaValid (oc20NamespaceOf geo) lba :=
      fun lba hlba => (hlist lba hlba).1
    by_cases ha : a ∈ lbas
    · obtain ⟨p, hp, hzip, hoff⟩ := exists_part (sectorOff (oc20NamespaceOf geo)) hparts ha
      have hslice := slice_overwriteList (m := mb) (writes_apart h hbits hnodup hvalid hlen) _ hoff
      have hsome := hin _ hzip
      rw [hx, Option.some.injEq] at hsome
      rw [hlen p hp, ← hsome] at hslice
      rw [hlbads, hslice]
    · rw [hout a ha] at hx
      rw [← hm.data a x hx]
      refine slice_overwriteList_apart fun w hw => ?_
      obtain ⟨hoff, hp⟩ := List.of_mem_zip hw
      obtain ⟨b, hb, hb'⟩ := List.mem_map.mp hoff
      rw [hlen _ hp, ← hb', hlbads]
      exact sectors_apart h hbits (hvalid b hb) (hm.valid a (by rw [hx]; exact Option.some_ne_none x))
        fun heq => ha (heq ▸ hb)

/-- **Step lemma for resets**: a reset of a chunk erases its sectors. -/
theorem Holds.reset {lns : Oc20Namespace} (hm : Holds lns mb chunkInfo m) (i : Nat) :
    ∃ m', Run (FlashOp.Step (oc20LbaToChunkIndex lns)) m [.erase i] m' ∧
      Holds lns mb (Function.update chunkInfo i (chunkInfo i).freed) m' := by
  refine ⟨_, .cons rfl (.nil _), fun a hvalid => ?_, fun a ha => ?_, fun a x hx => ?_⟩
  · by_cases hidx : oc20LbaToChunkIndex lns a = i
    · rw [if_pos hidx, hidx, Function.update_self]
      exact iff_of_false (fun hne => hne rfl) (Nat.not_lt_zero _)
    · rw [if_neg hidx, Function.update_of_ne hidx]
      exact hm.written a hvalid
  · refine hm.valid a fun hnone => ha ?_
    rw [hnone, ite_self]
  · refine hm.data a x ?_
    split at hx
    · cases hx
    · exact hx

/-- The resets of a command erase chunks one after the other. -/
theorem Holds.erase {lns : Oc20Namespace} {rand : Nat → Nat}
    (hrand : ∀ i k, ¬ rc.fails i (rand k)) (lbas : List Nat) (mptr k : Nat) {s : Oc20State}
    (hm : Holds lns mb s.chunkInfo m) :
    Ends (eraseLoop n lns rc rand lbas mptr k) s fun l _ s' =>
      ∃ m', Run (FlashOp.Step (oc20LbaToChunkIndex lns)) m (l.map .erase) m' ∧
        Holds lns mb s'.chunkInfo m' := by
  induction lbas generalizing mptr k m s with
  | nil => exact (ends_pure _).mpr ⟨m, .nil m, hm⟩
  | cons lba rest ih =>
      unfold eraseLoop
      split
      · exact (ends_pure _).mpr ⟨m, .nil m, hm⟩
      · rw [ends_bind]
        refine (setFree_cases (fun i => hrand i k) lba mptr s).imp fun l err s₁ hcases => ?_
        have h₁ : ∃ m₁, Run (FlashOp.Step (oc20LbaToChunkIndex lns)) m (l.map .erase) m₁ ∧
            Holds lns mb s₁.chunkInfo m₁ := by
          obtain ⟨rfl, hsame⟩ | ⟨i, rfl, -, hchunks⟩ := hcases
          · exact ⟨m, .nil m, hsame ▸ hm⟩
          · rw [hchunks]
            exact hm.reset i
        obtain ⟨m₁, hrun₁, hm₁⟩ := h₁
        rw [ends_ite, ends_pure]
        refine ⟨fun _ => ?_, fun _ => ?_⟩
        · rw [List.append_nil]
          exact ⟨m₁, hrun₁, hm₁⟩
        · refine (ih _ (k + 1) hm₁).imp fun l' _ s₂ ⟨m₂, hrun₂, hm₂⟩ => ⟨m₂, ?_, hm₂⟩
          rw [List.map_append]
          exact hrun₁.append hrun₂

end Steps

/-! ## commands -/

section Commands

variable {n : Oc20Ctrl} {lns : Oc20Namespace} {rc : Oc20Resets} {cmd : NvmeCmd} {vector : Bool}
  {s s' : Oc20State} {status : Status}

/-- The program changes neither the memory of the host nor the backend. -/
abbrev KeepsBackend {ε α : Type} (p : Traced Oc20State ε α) : Prop :=
  Tracks (fun s : Oc20State => (s.mem.host, s.mb)) (fun b _ => b) p

theorem keepsBackend_advanceLoop (bs : List Oc20AddrBucket) (total : Int) :
    KeepsBackend (advanceLoop n lns bs total) := by
  induction bs generalizing total with
  | nil => exact .pure _
  | cons b bs ih =>
      refine .bind .get fun s => .bind ?_ fun t => ih _
      refine .bind (.emit fun _ => rfl) fun _ => .bind (.assert _) fun _ => ?_
      exact .bind .get fun s => .bind (.modify fun _ => rfl) fun _ => .pure _

theorem keepsBackend_advanceStatus : KeepsBackend (oc20AdvanceStatus n lns) := by
  refine .bind .get fun s => ?_
  split
  · exact .ofState fun s a s' hr => by cases hr
  · refine .bind (.assert _) fun _ => .bind (keepsBackend_advanceLoop _ 0) fun total => ?_
    exact .modify fun _ => rfl

/-- What a command has transferred: the segments that its PRP entries describe, and the sectors
of its list. -/
def Transferred (n : Oc20Ctrl) (lns : Oc20Namespace) (cmd : NvmeCmd) (vector : Bool)
    (s : Oc20State) (status : Status) (s' : Oc20State) : Prop :=
  if status = nvmeSuccess then
    ∃ q, PrpMapped n.toDmaCtrl s.mem cmd.prp1.toNat cmd.prp2.toNat
        ((cmd.nlb + 1) * 2 ^ lns.lbads) q ∧
      backendRw .ocssd q ((lbaList n.toDmaCtrl s.mem cmd vector).map (sectorOff lns))
        (oc20RwIsWrite cmd.opcode) s.mem.host s.mb = some (s'.mem.host, s'.mb)
  else s'.mb = s.mb

theorem ends_oc20Rw (hp : n.toDmaCtrl.Paged) (hlen : oc20CmdMaxLbas * 2 ^ lns.lbads < 2 ^ 32)
    (cmd : NvmeCmd) (vector : Bool) (s : Oc20State) :
    Ends (oc20Rw n lns cmd vector) s fun _ status s' =>
      Transferred n lns cmd vector s status s' := by
  have hfail : ∀ {st : Status} {t : Oc20State}, st ≠ nvmeSuccess → t.mb = s.mb →
      Transferred n lns cmd vector s st t := fun hst hmb => by rwa [Transferred, if_neg hst]
  unfold oc20Rw
  simp only [ends_bind, ends_ite, ends_get, ends_modify, ends_pure, ends_ofState]
  refine ⟨fun _ _ s' hs' => ?_, fun hnlb => ⟨fun herr => hfail herr rfl, fun _ => ?_⟩⟩
  · obtain ⟨errs, -, heq⟩ := Option.map_eq_some_iff.mp hs'
    cases heq
    exact hfail invalidField_ne_success rfl
  · simp only [oc20RwTransfer, ends_bind, ends_ite, ends_pure]
    intro status s₁ hreq
    obtain ⟨map, hmap, rfl⟩ := mapReq_eq_some.mp hreq
    refine ⟨fun _ => hfail invalidField_ne_success rfl, fun hst => ?_⟩
    have hsize : (cmd.nlb + 1) * 2 ^ lns.lbads < 2 ^ 32 :=
      Nat.lt_of_le_of_lt (Nat.mul_le_mul_right _ (Nat.not_lt.mp hnlb)) hlen
    have hmapped : PrpMapped n.toDmaCtrl s.mem cmd.prp1.toNat cmd.prp2.toNat
        ((cmd.nlb + 1) * 2 ^ lns.lbads) map.qsg := by
      obtain ⟨st, t, hrun, -, hmapped⟩ := nvmeMapPrp_stub hp s.mem s.map hsize
        (mapEnds_of_run hp hsize hmap)
      rw [hmap] at hrun
      cases hrun
      exact hmapped (not_not.mp hst)
    simp only [backendReq, ends_bind, ends_get]
    refine emitLbas_frame _ _ fun _ s₂ hs₂ => ?_
    obtain ⟨⟨host, mb⟩, hrw, heq⟩ := Option.map_eq_some_iff.mp hs₂
    cases heq
    simp only [oc20RwComplete, ends_bind, ends_modify, ends_pure]
    refine (keepsBackend_advanceStatus.eq_of_const _).imp fun _ _ s₃ hkeep => ?_
    simp only [Prod.mk.injEq] at hkeep
    rw [Transferred, if_pos rfl]
    refine ⟨map.qsg, hmapped, ?_⟩
    rw [hkeep.1, hkeep.2]
    exact hrw

/-- A reset of chunks changes nothing in the backend. -/
abbrev KeepsMb {ε α : Type} (p : Traced Oc20State ε α) : Prop :=
  Tracks (fun s : Oc20State => s.mb) (fun b _ => b) p

theorem keepsMb_setFree (lba mptr rand : Nat) : KeepsMb (oc20ChunkSetFree n lns rc lba mptr rand) := by
  unfold oc20ChunkSetFree
  split
  · exact .pure _
  · refine .bind .get fun s => .ite (.bind (.modify fun _ => rfl) fun _ => .pure _) (.ite (.pure _) ?_)
    refine .ite (.pure _) (.ite (.pure _) ?_)
    exact .bind (.emit fun _ => rfl) fun _ => .bind (.modify fun _ => rfl) fun _ => .pure _

theorem keepsMb_eraseLoop (rand : Nat → Nat) (lbas : List Nat) (mptr k : Nat) :
    KeepsMb (eraseLoop n lns rc rand lbas mptr k) := by
  induction lbas generalizing mptr k with
  | nil => exact .pure _
  | cons lba rest ih =>
      unfold eraseLoop
      split
      · exact .pure _
      · exact .bind (keepsMb_setFree _ _ _) fun err => .ite (.pure _) (ih _ _)

theorem keepsMb_erase (rand : Nat → Nat) (cmd : NvmeCmd) (mptr : UInt64) :
    KeepsMb (oc20Erase n lns rc rand cmd mptr) :=
  .bind .get fun _ => .bind (.modify fun _ => rfl) fun _ => keepsMb_eraseLoop _ _ _ _

end Commands

/-! ## runs -/

section Runs

variable {geo : Oc20IdGeo} {n : Oc20Ctrl} {rc : Oc20Resets} {s s' : Oc20State}
  {m : Nat → Option (List UInt8)}

/-- The invariant: the chunks are tracked, and the device holds the data of the flash memory. -/
structure FlashInv (lns : Oc20Namespace) (s : Oc20State) (m : Nat → Option (List UInt8)) : Prop where
  chunks : ∃ log, RunInv lns ⟨s, log⟩
  holds : Holds lns s.mb s.chunkInfo m

theorem flashInv_init (h : geo.NonEmpty)
    (hinit : s.chunkInfo = oc20InitChunkInfo (oc20NamespaceOf geo) (oc20ChksTotal geo)) :
    FlashInv (oc20NamespaceOf geo) s fun _ => none := by
  have hwp : ∀ i, (s.chunkInfo i).wp = 0 := by
    intro i
    rw [hinit, oc20InitChunkInfo]
    split
    · rfl
    · rfl
  refine ⟨⟨[], runInv_init (Nat.ne_of_gt h.sec) _ hinit⟩, fun lba _ => ?_, fun lba hlba => ?_,
    fun lba x hx => ?_⟩
  · rw [hwp]
    exact iff_of_false (fun hne => hne rfl) (Nat.not_lt_zero _)
  · exact absurd rfl hlba
  · cases hx

/-- Sectors that can be read have been written. -/
theorem Holds.readable {lns : Oc20Namespace} {mwCunits : Nat} {lba : Nat}
    (hm : Holds lns s.mb s.chunkInfo m) {log : List ChunkEvent} (hinv : RunInv lns ⟨s, log⟩)
    (hread : Readable lns mwCunits s.chunkInfo lba) :
    m lba = some (slice s.mb (sectorOff lns lba) (2 ^ lns.lbads)) := by
  have htype : (s.chunkInfo (oc20LbaToChunkIndex lns lba)).type ≠ oc20ChunkTypeRan := by
    obtain ⟨ht, -⟩ | hz := hinv (oc20LbaToChunkIndex lns lba)
    · rw [ht]
      decide
    · rw [hz]
      decide
  obtain ⟨hvalid, hstate⟩ := (readable_iff htype).mp hread
  have hne : m lba ≠ none := by
    rw [hm.written lba hvalid]
    obtain ⟨-, hlt⟩ | ⟨-, hlt⟩ := hstate
    · exact hlt
    · omega
  obtain ⟨x, hx⟩ := Option.ne_none_iff_exists'.mp hne
  rw [hx, hm.data lba x hx]

/-- **Step lemma for reads and writes**. -/
theorem Holds.rw (hp : n.toDmaCtrl.Paged) (h : geo.NonEmpty) (hbits : geo.bits ≤ 31)
    {log : List ChunkEvent} (hinv : RunInv (oc20NamespaceOf geo) ⟨s, log⟩)
    (hm : Holds (oc20NamespaceOf geo) s.mb s.chunkInfo m) {cmd : NvmeCmd} {vector : Bool}
    {status : Status}
    (hrun : (oc20Rw n (oc20NamespaceOf geo) cmd vector s).2 = some (status, s'))
    (hlines : Accepted n (oc20NamespaceOf geo) cmd vector s →
      LinesUp n (oc20NamespaceOf geo) cmd vector s.mem ∧ (oc20RwIsWrite cmd.opcode = true →
        OneChunk (oc20NamespaceOf geo) (lbaList n.toDmaCtrl s.mem cmd vector))) :
    ∃ m', Run (FlashOp.Step (oc20LbaToChunkIndex (oc20NamespaceOf geo))) m
        (rwOps n (oc20NamespaceOf geo) cmd vector s s' status) m' ∧
      Holds (oc20NamespaceOf geo) s'.mb s'.chunkInfo m' := by
  have hsize : oc20CmdMaxLbas * 2 ^ (oc20NamespaceOf geo).lbads < 2 ^ 32 := by
    show 64 * 2 ^ 12 < 2 ^ 32
    decide
  have hchunks : s'.chunkInfo = if status = nvmeSuccess ∧ oc20RwIsWrite cmd.opcode then
      (oc20AdvanceWp (oc20NamespaceOf geo) s.chunkInfo
        ((lbaList n.toDmaCtrl s.mem cmd vector).headD 0) (cmd.nlb + 1)).1
    else s.chunkInfo := oc20Rw_chunkInfo cmd vector s status s' hrun
  have htransfer : Transferred n (oc20NamespaceOf geo) cmd vector s status s' :=
    ends_oc20Rw hp hsize cmd vector s status s' hrun
  have hlength := length_lbaList n.toDmaCtrl s.mem cmd vector
  unfold Transferred at htransfer
  unfold rwOps
  by_cases hst : status = nvmeSuccess
  case neg =>
    rw [if_neg fun hw => hst hw.1] at hchunks
    rw [if_neg hst] at htransfer
    rw [if_pos hst, hchunks, htransfer]
    exact ⟨m, .nil m, hm⟩
  subst hst
  have hacc := accepted_of_success hrun
  obtain ⟨hlines, hone⟩ := hlines hacc
  rw [if_pos rfl] at htransfer
  obtain ⟨q, hmapped, hrw⟩ := htransfer
  -- the list of the transfer is that of the command
  have hsg : q.sg = sectorSegments n (oc20NamespaceOf geo) cmd s.mem := hmapped.sg_eq
  have htotal : sgTotal q.sg = ((lbaList n.toDmaCtrl s.mem cmd vector).map
      (sectorOff (oc20NamespaceOf geo))).length * 2 ^ (oc20NamespaceOf geo).lbads := by
    rw [List.length_map, hlength]
    exact hmapped.covers.total_eq
  have hfollow : BytesFollow q ((lbaList n.toDmaCtrl s.mem cmd vector).map
      (sectorOff (oc20NamespaceOf geo))) (2 ^ (oc20NamespaceOf geo).lbads) := by
    have hfollow := hlines.follow
    unfold BytesFollow at hfollow ⊢
    rwa [sglist_eq, ← hsg] at hfollow
  rw [if_neg (not_not.mpr rfl)]
  cases hw : oc20RwIsWrite cmd.opcode with
  | true =>
      have hcheck := hacc.check
      rw [hw] at hcheck
      rw [hw, backendRw_sectors_write hmapped.covers.nsg_eq htotal hfollow, Option.some.injEq,
        Prod.mk.injEq, List.length_map, hlength, hsg] at hrw
      rw [if_pos ⟨rfl, hw⟩] at hchunks
      have hne : lbaList n.toDmaCtrl s.mem cmd vector ≠ [] := by
        rw [← List.length_pos_iff, hlength]
        omega
      have hpieces : (cmd.nlb + 1) * 2 ^ (oc20NamespaceOf geo).lbads ≤
          (gather s.mem.host (sectorSegments n (oc20NamespaceOf geo) cmd s.mem)).length := by
        rw [length_gather, ← hsg, htotal, List.length_map, hlength]
      have hwrite := hm.write h hbits hinv hne (hone hw) hcheck
        (sectorData n (oc20NamespaceOf geo) cmd s.mem s.mem.host)
        (by rw [sectorData, length_pieces, hlength]) (length_of_mem_pieces hpieces)
      rw [hlength, ← hchunks] at hwrite
      rw [if_pos rfl, ← hrw.2]
      exact hwrite
  | false =>
      rw [hw, backendRw_sectors_read hmapped.covers.nsg_eq htotal hfollow, Option.some.injEq,
        Prod.mk.injEq, hsg] at hrw
      rw [if_neg fun hc => by rw [hw] at hc; cases hc.2] at hchunks
      rw [if_neg Bool.false_ne_true, hchunks, ← hrw.2]
      refine ⟨m, FlashOp.run_reads _ fun p hpair => ?_, hm⟩
      obtain ⟨hpair, hread⟩ := List.mem_filter.mp hpair
      rw [decide_eq_true_eq] at hread
      have hdata : sectorData n (oc20NamespaceOf geo) cmd s.mem s'.mem.host =
          (lbaList n.toDmaCtrl s.mem cmd vector).map fun lba =>
            slice s.mb (sectorOff (oc20NamespaceOf geo) lba) (2 ^ (oc20NamespaceOf geo).lbads) := by
        rw [sectorData, ← hrw.1, gather_scatter (hlines.disjoint hw) (by
          rw [length_sectors, ← hsg, htotal]), ← hlength, pieces_sectors]
      rw [hdata, zip_map_self] at hpair
      obtain ⟨lba, -, rfl⟩ := List.mem_map.mp hpair
      dsimp only at hread ⊢
      rw [hm.readable hinv hread]

/-- A step is one of the device and its chunks. -/
theorem SectorStep.chunks (h : geo.NonEmpty) {e : SectorEvent}
    (hstep : SectorStep n (oc20NamespaceOf geo) rc s e s') {log : List ChunkEvent}
    (hinv : RunInv (oc20NamespaceOf geo) ⟨s, log⟩) :
    ∃ log', RunInv (oc20NamespaceOf geo) ⟨s', log'⟩ := by
  have hclba : (oc20NamespaceOf geo).geo.clba.toNat ≠ 0 := Nat.ne_of_gt h.sec
  obtain ⟨ev, ops⟩ := e
  cases ev with
  | env t =>
      obtain ⟨rfl, -⟩ := hstep
      exact ⟨log, hinv⟩
  | erase cmd mptr rand =>
      obtain ⟨resets, status, hrun, -, hrand⟩ := hstep
      have hnext : Oc20Run.step n (oc20NamespaceOf geo) rc ⟨s, log⟩ (.erase cmd mptr rand) =
          some ⟨s', log ++ resets.map .reset⟩ := by
        rw [Oc20Run.step, hrun]
        rfl
      have hstays : StaysInChunk n (oc20NamespaceOf geo) rc ⟨s, log⟩ (.erase cmd mptr rand) := hrand
      exact ⟨_, step_runInv rfl hclba hinv hstays hnext⟩
  | rw cmd vector =>
      obtain ⟨status, hrun, -, hlines⟩ := hstep
      have hnext : Oc20Run.step n (oc20NamespaceOf geo) rc ⟨s, log⟩ (.rw cmd vector) =
          some ⟨s', log ++ writtenBy n s cmd vector status⟩ := by
        rw [Oc20Run.step, hrun]
        rfl
      have hstays : StaysInChunk n (oc20NamespaceOf geo) rc ⟨s, log⟩ (.rw cmd vector) :=
        fun hw hacc => (hlines hacc).2 hw
      exact ⟨_, step_runInv rfl hclba hinv hstays hnext⟩

/-- **Step lemma**: what an event does to the device is what its operations do to a flash
memory. -/
theorem SectorStep.flash (hp : n.toDmaCtrl.Paged) (h : geo.NonEmpty) (hbits : geo.bits ≤ 31)
    {e : SectorEvent} (hstep : SectorStep n (oc20NamespaceOf geo) rc s e s')
    (hm : FlashInv (oc20NamespaceOf geo) s m) :
    ∃ m', Run (FlashOp.Step (oc20LbaToChunkIndex (oc20NamespaceOf geo))) m e.ops m' ∧
      FlashInv (oc20NamespaceOf geo) s' m' := by
  obtain ⟨⟨log, hinv⟩, hholds⟩ := hm
  have hchunks := hstep.chunks h hinv
  suffices hflash : ∃ m', Run (FlashOp.Step (oc20LbaToChunkIndex (oc20NamespaceOf geo))) m e.ops m' ∧
      Holds (oc20NamespaceOf geo) s'.mb s'.chunkInfo m' by
    obtain ⟨m', hrun, hholds'⟩ := hflash
    exact ⟨m', hrun, hchunks, hholds'⟩
  obtain ⟨ev, ops⟩ := e
  cases ev with
  | env t =>
      obtain ⟨rfl, rfl⟩ := hstep
      exact ⟨m, .nil m, hholds⟩
  | erase cmd mptr rand =>
      obtain ⟨resets, status, hrun, rfl, hrand⟩ := hstep
      have hends : Ends (oc20Erase n (oc20NamespaceOf geo) rc rand cmd mptr) s fun l _ s' =>
          ∃ m', Run (FlashOp.Step (oc20LbaToChunkIndex (oc20NamespaceOf geo))) m (l.map .erase) m' ∧
            Holds (oc20NamespaceOf geo) s.mb s'.chunkInfo m' := by
        unfold oc20Erase
        simp only [ends_bind, ends_get, ends_modify, List.nil_append]
        exact Holds.erase (s := { s with lbas := lbaList n.toDmaCtrl s.mem cmd true }) hrand _ _ 0
          hholds
      have hend := hends status s' (congrArg Prod.snd hrun)
      have hmb : s'.mb = s.mb :=
        (keepsMb_erase rand cmd mptr).eq_of_const s status s' (congrArg Prod.snd hrun)
      rw [hrun] at hend
      obtain ⟨m', hflash, hholds'⟩ := hend
      exact ⟨m', hflash, hmb ▸ hholds'⟩
  | rw cmd vector =>
      obtain ⟨status, hrun, rfl, hlines⟩ := hstep
      exact hholds.rw hp h hbits hinv hrun hlines

theorem run_flash (hp : n.toDmaCtrl.Paged) (h : geo.NonEmpty) (hbits : geo.bits ≤ 31)
    {evs : List SectorEvent} (hrun : Run (SectorStep n (oc20NamespaceOf geo) rc) s evs s')
    (hm : FlashInv (oc20NamespaceOf geo) s m) :
    ∃ m', Run (FlashOp.Step (oc20LbaToChunkIndex (oc20NamespaceOf geo))) m
        (evs.flatMap SectorEvent.ops) m' ∧ FlashInv (oc20NamespaceOf geo) s' m' := by
  induction hrun generalizing m with
  | nil s => exact ⟨m, .nil m, hm⟩
  | cons head tail ih =>
      obtain ⟨m₁, hfirst, hm₁⟩ := head.flash hp h hbits hm
      obtain ⟨m₂, hrest, hm₂⟩ := ih hm₁
      rw [List.flatMap_cons]
      exact ⟨m₂, hfirst.append hrest, hm₂⟩

/-- The device in a state that a host has reached by the events. -/
structure IsFlash (geo : Oc20IdGeo) (evs : List SectorEvent) (s : Oc20State) : Prop where
  /-- The events are operations on a flash memory, and the device holds its data. -/
  run : ∃ m, Run (FlashOp.Step (oc20LbaToChunkIndex (oc20NamespaceOf geo))) (fun _ => none)
      (evs.flatMap SectorEvent.ops) m ∧ Holds (oc20NamespaceOf geo) s.mb s.chunkInfo m
  /-- A sector that is read gives what was last written to it, and its chunk has not been reset
  since. -/
  reads : ∀ pre lba x post, evs.flatMap SectorEvent.ops = pre ++ .read lba x :: post →
    ∃ pre' mid, pre = pre' ++ .program lba x :: mid ∧
      ∀ op ∈ mid, op.Spares (oc20LbaToChunkIndex (oc20NamespaceOf geo)) lba
  /-- Between two writes of a sector its chunk is reset. -/
  once : ∀ pre lba x mid y post, evs.flatMap SectorEvent.ops =
      pre ++ .program lba x :: (mid ++ .program lba y :: post) →
    .erase (oc20LbaToChunkIndex (oc20NamespaceOf geo) lba) ∈ mid

/-- Segments that are as long as the sectors line up with any of them. -/
theorem bytesFollow_pages {q : QEMUSGList} {lbal : List Nat} {len : Nat}
    (h : ∀ e ∈ q.sg, e.len = len) : BytesFollow q lbal len := by
  intro i r j k _ hr hjk
  rw [List.eq_replicate_of_mem (List.forall_mem_map.mpr h), blockAt_replicate] at hjk
  obtain ⟨-, hk, hp⟩ := hjk
  have hdiv : ∀ a b, b < len → (a * len + b) / len = a := fun a b hb => by
    rw [Nat.mul_comm, Nat.mul_add_div (by omega), Nat.div_eq_of_lt hb, Nat.add_zero]
  obtain rfl : i = j := by rw [← hdiv i r hr, ← hdiv j k hk, hp]
  omega

/-- Two chunks of two sectors. -/
def twoByTwo : Oc20IdGeo := ⟨1, 1, 2, 2⟩

/-- The device with its chunks, and the memory of a host whose pages hold their numbers. -/
def freshTwoChunks : Oc20State :=
  { freshOc20 with
    mem := ⟨fun a => (a / 4096).toUInt8, fun _ => 0⟩
    chunkInfo := oc20InitChunkInfo (oc20NamespaceOf twoByTwo) (oc20ChksTotal twoByTwo) }

/-- A write of both sectors of a chunk from two pages, a read of the first chunk, and its
reset. -/
def writeChunk (slba : UInt32) (prp1 prp2 : UInt64) : NvmeCmd :=
  { opcode := nvmeCmdWrite, nsid := 1, prp1 := prp1, prp2 := prp2, cdw10 := slba, cdw12 := 1 }
def readFirst : NvmeCmd :=
  { opcode := nvmeCmdRead, nsid := 1, prp1 := 16384, prp2 := 20480, cdw12 := 1 }
def resetFirst : NvmeCmd := { nsid := 1 }

/-- A read or write of a whole chunk between two pages of the host. -/
theorem sectorStep_chunk {cmd : NvmeCmd} {s : Oc20State} {r : Status × Oc20State} {a b : Nat}
    (hrun : (oc20Rw plainOc20 (oc20NamespaceOf twoByTwo) cmd false s).2 = some r)
    (hsg : sectorSegments plainOc20 (oc20NamespaceOf twoByTwo) cmd s.mem =
      [⟨a, 4096⟩, ⟨b, 4096⟩]) (hab : Apart a 4096 b 4096)
    (hone : OneChunk (oc20NamespaceOf twoByTwo) (lbaList plainOc20.toDmaCtrl s.mem cmd false)) :
    SectorStep plainOc20 (oc20NamespaceOf twoByTwo) earlyResets s
      ⟨.rw cmd false, rwOps plainOc20 (oc20NamespaceOf twoByTwo) cmd false s r.2 r.1⟩ r.2 := by
  refine ⟨_, hrun, rfl, fun _ => ⟨⟨bytesFollow_pages ?_, fun _ => ?_⟩, fun _ => hone⟩⟩
  · rw [hsg, sglist_eq]
    simp [oc20NamespaceOf]
  · rw [hsg]
    simpa [SgDisjoint] using hab

/-- Both chunks are written and the first one is read, reset, written anew and read again. -/
def chunkEvents (put second got again got' : List SectorOp) : List SectorEvent :=
  [⟨.rw (writeChunk 0 4096 8192) false, put⟩, ⟨.rw (writeChunk 2 8192 12288) false, second⟩,
    ⟨.rw readFirst false, got⟩, ⟨.erase resetFirst 0 fun _ => 0, [.erase 0]⟩,
    ⟨.rw (writeChunk 0 12288 4096) false, again⟩, ⟨.rw readFirst false, got'⟩]

end Runs

end Femu.Ocssd
