import Femu.Lib.Log
import Femu.Simbricks.Notify.Memory

/-!
# Femu.Simbricks.Notify.Coherence

What a step of the device does to the accesses. Most steps of a thread only go on with its own
call, of which nothing else knows yet (`Continues`). The copy gives a DMA its place in the
order, sending and taking a message only move it on, and an answer is what was found when the
access was made. So DMA goes to one memory in every run (`dma_coherent`).
-/

namespace Femu.Simbricks

open Lib

namespace DmaSys

variable {P : Type} {s s' : DmaSys P} {mem : Nat → UInt8} {t t' : Thread P} {op : DmaOp}

/-! ## steps of the device -/

/-- The rest of the device matters to nothing. -/
theorem DmaInv.frame (h : s.DmaInv mem) {d : Notify P} (hd : d.Inv)
    (hsame : d.call = s.dev.call ∧ d.calls = s.dev.calls ∧ d.op = s.dev.op ∧
      d.opReady = s.dev.opReady ∧ d.reads = s.dev.reads ∧ d.hand = s.dev.hand ∧
      d.d2h = s.dev.d2h) : DmaInv mem { s with dev := d } := by
  obtain ⟨ring, slotBody, slotType, call, calls, op, opReady, reads, hand, d2h, _, _, _⟩ := d
  obtain ⟨rfl, rfl, rfl, rfl, rfl, rfl, rfl⟩ := hsame
  exact ⟨hd, { h.calls with }, { h.access with }⟩

/-- A thread goes on with its call, or makes the next one. Nothing refers to its operation. -/
structure Continues (s : DmaSys P) (t : Thread P) (d : Notify P) (made : List Outgoing) : Prop where
  free : ∀ t' p, s.dev.At t' p → t' ≠ t
  same : d.reads = s.dev.reads ∧ d.hand = s.dev.hand ∧ d.d2h = s.dev.d2h
  other : ∀ t', t' ≠ t → d.call t' = s.dev.call t' ∧ d.op t' = s.dev.op t' ∧
    d.opReady t' = s.dev.opReady t'
  grown : s.made <+: made
  length : made.length = d.calls
  call : ∀ m op, d.inCall t = some m → m.op? = some op → made[op.id]? = some m ∧
    (op.id = s.dev.calls ∨ s.dev.inCall t = some m ∧ s.dev.Uncopied t)
  wait : ∀ m, d.call t = .dmaWait m → d.opReady t = false ∧ ∀ op, m = .dmaRead op → d.op t = op

namespace Continues

variable {d : Notify P} {made : List Outgoing}

theorem inCall (hc : s.Continues t d made) (ht : t' ≠ t) : d.inCall t' = s.dev.inCall t' := by
  simp only [Notify.inCall, (hc.other t' ht).1]

theorem lookup (hc : s.Continues t d made) {k : Nat} {m : Outgoing} (hk : s.made[k]? = some m) :
    made[k]? = some m := by
  obtain ⟨rest, rfl⟩ := hc.grown
  obtain ⟨hlt, -⟩ := List.getElem?_eq_some_iff.mp hk
  rw [List.getElem?_append_left hlt, hk]

theorem calls_le (hc : s.Continues t d made) (h : s.CallsInv) : s.dev.calls ≤ d.calls := by
  rw [← h.length, ← hc.length]
  exact hc.grown.length_le

/-- A thread that waits and may go on is another one. -/
theorem ne_of_ready (hc : s.Continues t d made) {m : Outgoing} (hcall : d.call t' = .dmaWait m)
    (hready : d.opReady t' = true) : t' ≠ t := by
  rintro rfl
  rw [(hc.wait m hcall).1] at hready
  cases hready

/-- The call of the thread is none of the others. -/
theorem apart (hc : s.Continues t d made) (h : s.CallsInv) {m m' : Outgoing} {op op' : DmaOp}
    (hm : d.inCall t = some m) (hop : m.op? = some op) (ht : t' ≠ t)
    (hm' : d.inCall t' = some m') (hop' : m'.op? = some op') : op.id ≠ op'.id := by
  intro heq
  rw [hc.inCall ht] at hm'
  rcases (hc.call m op hm hop).2 with hnew | ⟨hold, -⟩
  · have hlt := h.lt (h.made t' m' op' hm' hop')
    omega
  · exact ht (h.distinct t t' m m' op op' hold hm' hop hop' heq).symm

theorem callsInv (hc : s.Continues t d made) (h : s.DmaInv mem) :
    CallsInv { s with dev := d, made := made } where
  length := hc.length
  made t' m op hm hop := by
    by_cases ht : t' = t
    · subst ht
      exact (hc.call m op hm hop).1
    · exact hc.lookup (h.calls.made t' m op (hc.inCall ht ▸ hm) hop)
  distinct t₁ t₂ m m' op op' hm hm' hop hop' heq := by
    by_cases h₁ : t₁ = t <;> by_cases h₂ : t₂ = t
    · rw [h₁, h₂]
    · subst h₁
      exact absurd heq (hc.apart h.calls hm hop h₂ hm' hop')
    · subst h₂
      exact absurd heq.symm (hc.apart h.calls hm' hop' h₁ hm hop)
    · exact h.calls.distinct t₁ t₂ m m' op op' (hc.inCall h₁ ▸ hm) (hc.inCall h₂ ▸ hm') hop hop' heq
  reading t' op hop := by
    by_cases ht : t' = t
    · subst ht
      exact ⟨op.data, (hc.wait _ hop).2 op rfl, rfl⟩
    · obtain ⟨hcall', hop', -⟩ := hc.other t' ht
      dsimp only
      rw [hop']
      exact h.calls.reading t' op (hcall' ▸ hop)
  uncopied t' m op hm hop hun hmem := by
    by_cases ht : t' = t
    · subst ht
      rcases (hc.call m op hm hop).2 with hnew | ⟨hold, hun'⟩
      · have hlt := h.access.lt _ hmem
        omega
      · exact h.calls.uncopied t' m op hold hop hun' hmem
    · refine h.calls.uncopied t' m op (hc.inCall ht ▸ hm) hop ?_ hmem
      obtain ⟨hcall', -, hready'⟩ := hc.other t' ht
      obtain ⟨hreads, hhand, -⟩ := hc.same
      simpa only [Notify.Uncopied, hcall', hready', hreads, hhand] using hun

theorem accessInv (hc : s.Continues t d made) (h : s.DmaInv mem) :
    AccessInv mem { s with dev := d, made := made } := by
  obtain ⟨hreads, hhand, hd2h⟩ := hc.same
  have hpending : pending { s with dev := d, made := made } = s.pending := by
    simp only [pending, hhand, hd2h]
  refine
    { run := h.access.run
      handled := hd2h ▸ h.access.handled
      reads := by
        dsimp only
        rw [hreads, hd2h]
        exact h.access.reads
      order := ?_
      nodup := h.access.nodup
      lt := fun k hk => Nat.lt_of_lt_of_le (h.access.lt k hk) (hc.calls_le h.calls)
      pending := fun m hm => ?_
      answered := fun a ha op hop => ?_
      asked := fun k op hop => ?_
      write := fun t' op hop hready => ?_
      read := fun t' op hop hready => ?_ }
  · have hid : ∀ t' p, s.dev.At t' p → (d.op t').id = (s.dev.op t').id := fun t' p hp =>
      congrArg DmaOp.id (hc.other t' (hc.free t' p hp)).2.1
    rw [hpending, h.access.callOf_congr hid]
    exact h.access.order
  · rw [hpending] at hm
    have hproper := h.access.pending m hm
    cases m with
    | read t' hwaddr len =>
        obtain ⟨p, hp⟩ := h.access.at_of_pending hm
        obtain ⟨op, hop, hrest⟩ := hproper
        exact ⟨op, (hc.other t' (hc.free t' p hp)).1.trans hop, hrest⟩
    | write op => exact hc.lookup hproper
    | readcomp reqId data => trivial
    | writecomp reqId => trivial
    | interrupt vector inttype vouched => trivial
  · have ht := hc.free a.1 _ (h.access.at_of_answer ha)
    exact h.access.answered a ha op ((hc.other a.1 ht).1 ▸ hop)
  · obtain ⟨m, hm, hasks⟩ := h.access.asked k op hop
    exact ⟨m, hc.lookup hm, hasks⟩
  · obtain ⟨hcall', -, hready'⟩ := hc.other t' (hc.ne_of_ready hop hready)
    exact h.access.write t' op (hcall' ▸ hop) (hready' ▸ hready)
  · obtain ⟨hcall', hop', hready'⟩ := hc.other t' (hc.ne_of_ready hop hready)
    have hread := h.access.read t' op (hcall' ▸ hop) (hready' ▸ hready)
    rwa [← hop'] at hread

theorem dmaInv (hc : s.Continues t d made) (h : s.DmaInv mem) (hd : d.Inv) :
    DmaInv mem { s with dev := d, made := made } := ⟨hd, hc.callsInv h, hc.accessInv h⟩

end Continues

section Steps

variable [DecidableEq P] {d : Notify P} {m : Outgoing}

theorem DmaInv.call (h : s.DmaInv mem) (hd : d.Inv) (hstep : s.dev.Step (.call t m) d) :
    DmaInv mem { s with dev := d, made := s.made ++ [m] } := by
  obtain ⟨hcall, hfresh, rfl⟩ := hstep.call
  have hne : ∀ t' p, s.dev.At t' p → t' ≠ t := fun t' p hp =>
    h.dev.refs.ne_of_call hp fun m => by simp [hcall]
  refine Continues.dmaInv ⟨hne, ⟨rfl, rfl, rfl⟩,
    fun t' ht => ⟨Function.update_of_ne ht _ _, rfl, rfl⟩, List.prefix_append _ _, ?_, ?_, ?_⟩ h hd
  · rw [List.length_append, h.calls.length]
    rfl
  · intro m' op hm hop
    obtain rfl : m = m' := by simpa [Notify.inCall] using hm
    have hid : op.id = s.dev.calls := hfresh.1 op hop
    refine ⟨?_, .inl hid⟩
    rw [hid, ← h.calls.length]
    exact List.getElem?_concat_length
  · intro m' hm
    simp at hm

theorem DmaInv.storeBody (h : s.DmaInv mem) (hd : d.Inv) (hstep : s.dev.Step (.storeBody t) d) :
    DmaInv mem { s with dev := d } := by
  obtain ⟨m, i, k, hcall, -, rfl⟩ := hstep.storeBody
  have hne : ∀ t' p, s.dev.At t' p → t' ≠ t := fun t' p hp =>
    h.dev.refs.ne_of_call hp fun m => by simp [hcall]
  have hin : s.dev.inCall t = some m := by simp [Notify.inCall, hcall]
  refine Continues.dmaInv ⟨hne, ⟨rfl, rfl, rfl⟩, fun t' ht => ?_, List.prefix_refl _,
    h.calls.length, ?_, ?_⟩ h hd
  · refine ⟨Function.update_of_ne ht _ _, ?_⟩
    cases hm : m.op? <;> simp [Notify.initOp, hm, ht]
  · intro m' op hm hop
    obtain rfl : m = m' := by simpa [Notify.inCall] using hm
    exact ⟨h.calls.made t m op hin hop, .inr ⟨hin, by simp [Notify.Uncopied, hcall]⟩⟩
  · intro m' hm
    simp at hm

theorem DmaInv.publish (h : s.DmaInv mem) (hd : d.Inv) (hstep : s.dev.Step (.publish t) d) :
    DmaInv mem { s with dev := d } := by
  obtain ⟨m, q, hcall, -, rfl⟩ := hstep.publish
  have hne : ∀ t' p, s.dev.At t' p → t' ≠ t := fun t' p hp =>
    h.dev.refs.ne_of_call hp fun m => by simp [hcall]
  have hin : s.dev.inCall t = some m := by simp [Notify.inCall, hcall]
  have hinit := h.dev.thread t
  simp only [Notify.ThreadInv, hcall] at hinit
  have hafter : ∀ m', Notify.afterPublish m = .dmaWait m' → m = m' ∧ ∃ op, m.op? = some op := by
    intro m' hm
    unfold Notify.afterPublish at hm
    split at hm
    · next op hop => exact ⟨DevCall.dmaWait.inj hm, op, hop⟩
    · cases hm
  refine Continues.dmaInv ⟨hne, ⟨rfl, rfl, rfl⟩,
    fun t' ht => ⟨Function.update_of_ne ht _ _, rfl, rfl⟩, List.prefix_refl _, h.calls.length, ?_,
    ?_⟩ h hd
  · intro m' op hm hop
    have hm' : m = m' := by
      simp only [Notify.inCall, Function.update_self, Notify.afterPublish] at hm
      cases hop? : m.op? with
      | none => simp [hop?] at hm
      | some op' => simpa [hop?] using hm
    subst hm'
    exact ⟨h.calls.made t m op hin hop, .inr ⟨hin, by simp [Notify.Uncopied, hcall]⟩⟩
  · intro m' hm
    obtain ⟨rfl, op, hop⟩ := hafter m' (by simpa using hm)
    refine ⟨(hinit.1 op hop).2, fun op' hread => ?_⟩
    subst hread
    exact (hinit.1 op' rfl).1

theorem DmaInv.dmaDone (h : s.DmaInv mem) (hd : d.Inv) (hstep : s.dev.Step (.dmaDone t) d) :
    DmaInv mem { s with dev := d } := by
  obtain ⟨m, hcall, hready, rfl⟩ := hstep.dmaDone
  have hne : ∀ t' p, s.dev.At t' p → t' ≠ t := by
    rintro t' p hp rfl
    obtain ⟨m', -, hwait, -⟩ := h.dev.refs.awaits t' p hp
    simp [hready] at hwait
  refine Continues.dmaInv ⟨hne, ⟨rfl, rfl, rfl⟩,
    fun t' ht => ⟨Function.update_of_ne ht _ _, rfl, rfl⟩, List.prefix_refl _, h.calls.length, ?_,
    ?_⟩ h hd
  · intro m' op hm
    simp [Notify.inCall] at hm
  · intro m' hm
    simp at hm

theorem DmaInv.findSet {en vector : Nat} (h : s.DmaInv mem) (hd : d.Inv)
    (hstep : s.dev.Step (.findSet en vector) d) : DmaInv mem { s with dev := d } := by
  obtain ⟨hcall, rfl⟩ := hstep.findSet
  have hne : ∀ t' p, s.dev.At t' p → t' ≠ .main := fun t' p hp =>
    h.dev.refs.ne_of_call hp fun m => by simp [hcall]
  refine Continues.dmaInv ⟨hne, ⟨rfl, rfl, rfl⟩,
    fun t' ht => ⟨Function.update_of_ne ht _ _, rfl, rfl⟩, List.prefix_refl _, h.calls.length, ?_,
    ?_⟩ h hd
  · intro m' op hm hop
    obtain rfl : Outgoing.int vector .msix (s.dev.vouched en) = m' := by
      simpa [Notify.inCall] using hm
    cases hop
  · intro m' hm
    simp at hm

theorem DmaInv.writecomp {reqId : Nat} (h : s.DmaInv mem) (hd : d.Inv)
    (hstep : s.dev.Step (.writecomp reqId) d) : DmaInv mem { s with dev := d } := by
  obtain rfl := hstep.writecomp
  have hdrop : (s.dev.d2h ++ [D2H.writecomp reqId]).drop s.handled =
      s.dev.d2h.drop s.handled ++ [.writecomp reqId] :=
    List.drop_append_of_le_length h.access.handled
  have hpending : ∀ m, m ∈ DmaSys.pending { s with
      dev := { s.dev with d2h := s.dev.d2h ++ [.writecomp reqId] } } →
      m ∈ s.pending ∨ m = .writecomp reqId := by
    intro m hm
    simp only [DmaSys.pending, hdrop, List.mem_append, List.mem_singleton] at hm ⊢
    tauto
  refine ⟨hd, { h.calls with }, { h.access with
    handled := Nat.le_trans h.access.handled (by simp)
    reads := ?_
    order := ?_
    pending := fun m hm => ?_ }⟩
  · dsimp only
    rw [hdrop, List.flatMap_append, h.access.reads]
    simp [D2H.reads]
  · rw [h.access.order]
    simp only [DmaSys.pending, hdrop, List.filterMap_append]
    simp [Notify.callOf]
    rfl
  · rcases hpending m hm with hold | rfl
    · have hproper := h.access.pending m hold
      cases m <;> exact hproper
    · trivial

/-- **Sending** moves a message on, which is on its way before and after. -/
theorem DmaInv.send (h : s.DmaInv mem) (hd : d.Inv) (hstep : s.dev.Step .send d) :
    DmaInv mem { s with dev := d } := by
  obtain ⟨m, hhand, rfl⟩ := hstep.send
  have hdrop : (s.dev.d2h ++ [m]).drop s.handled = s.dev.d2h.drop s.handled ++ [m] :=
    List.drop_append_of_le_length h.access.handled
  have hpending : DmaSys.pending { s with dev := { s.dev with
      d2h := s.dev.d2h ++ [m]
      hand := none
      reads := s.dev.reads ++ m.reads } } = s.pending := by
    simp [DmaSys.pending, hdrop, hhand]
  refine ⟨hd, { h.calls with uncopied := fun t m' op hm hop hun => ?_ }, { h.access with
    handled := Nat.le_trans h.access.handled (by simp)
    reads := ?_
    order := ?_
    pending := fun m' hm => ?_ }⟩
  · refine h.calls.uncopied t m' op hm hop (hun.of_call rfl fun hdown hreads _ => ?_)
    simp only [List.mem_append, not_or] at hreads
    refine ⟨hdown, hreads.1, ?_⟩
    rintro hwaddr len heq
    obtain rfl : m = .read t hwaddr len := Option.some.inj (hhand.symm.trans heq)
    exact hreads.2 (List.mem_singleton_self t)
  · dsimp only
    rw [hdrop, List.flatMap_append, h.access.reads, List.append_assoc]
    simp
  · rw [hpending]
    exact h.access.order
  · rw [hpending] at hm
    have hproper := h.access.pending m' hm
    cases m' <;> exact hproper

/-- What `simbricks_thread` copies: the DMA of a thread that waits for it and has not been
copied before, or no DMA. -/
theorem DmaInv.fetch_cases {m : D2H P} (h : s.DmaInv mem) (hseen : s.dev.ring.consumer = .seen)
    (hfetch : s.dev.fetch = some m) :
    (∃ t out op, s.dev.call t = .dmaWait out ∧ out.op? = some op ∧ s.dev.Uncopied t ∧
      s.dev.callOf m = some op.id ∧
      (out = .dmaRead op ∧ s.dev.raise = s.dev.opReady ∧ m = .read t op.hwaddr op.data.length ∨
        out = .dmaWrite op ∧ s.dev.raise = Function.update s.dev.opReady t true ∧
          m = .write op)) ∨
    s.dev.callOf m = none ∧ s.dev.raise = s.dev.opReady ∧ s.Proper m := by
  obtain ⟨c, hinv⟩ := h.dev.ring
  have hhead : ∀ t, s.dev.slotBody s.dev.ring.q2sbHead = .dma t →
      s.dev.At t (.slot s.dev.ring.q2sbHead) :=
    fun t hbody => ⟨hinv.seen_ready hseen, by simp [Notify.Taken, hseen], hbody⟩
  have huncopied : ∀ t, s.dev.slotBody s.dev.ring.q2sbHead = .dma t → s.dev.Uncopied t := by
    intro t hbody
    obtain ⟨out, hcall, hwait, -⟩ := h.dev.refs.awaits t _ (hhead t hbody)
    simp only [Notify.Uncopied, hcall]
    refine ⟨hwait, fun hmem => ?_, fun hwaddr len heq => ?_⟩
    · cases h.dev.refs.unique t (.slot _) .host (hhead t hbody) hmem
    · cases h.dev.refs.unique t (.slot _) .hand (hhead t hbody) ⟨hwaddr, len, heq⟩
  rcases Notify.fetch_cases hfetch with ⟨t, hbody, hdma⟩ | ⟨hraise, hother⟩
  · obtain ⟨out, hcall, -, hfits⟩ := h.dev.refs.awaits t _ (hhead t hbody)
    refine .inl ⟨t, out, ?_⟩
    rcases hdma with ⟨htype, hraise, rfl⟩ | ⟨htype, hraise, rfl⟩
    · obtain ⟨op, rfl⟩ : ∃ op, out = .dmaRead op := by
        have : out.type = .dmaRead := hfits.symm.trans htype
        cases out <;> cases this
        exact ⟨_, rfl⟩
      obtain ⟨data, hop, hlen⟩ := h.calls.reading t op hcall
      refine ⟨op, hcall, rfl, huncopied t hbody, ?_, .inl ⟨rfl, hraise, ?_⟩⟩
      · simp [Notify.callOf, hop]
      · simp [hop, hlen]
    · obtain ⟨op, rfl⟩ : ∃ op, out = .dmaWrite op := by
        have : out.type = .dmaWrite := hfits.symm.trans htype
        cases out <;> cases this
        exact ⟨_, rfl⟩
      have hold := h.dev.thread t
      simp only [Notify.ThreadInv, hcall] at hold
      have hop : s.dev.op t = op := hold.2 op rfl
      exact ⟨op, hcall, rfl, huncopied t hbody, by simp [Notify.callOf, hop],
        .inr ⟨rfl, hraise, by rw [hop]⟩⟩
  · refine .inr ?_
    rcases hother with ⟨_, _, rfl⟩ | ⟨_, _, _, -, rfl⟩
    · exact ⟨rfl, hraise, trivial⟩
    · exact ⟨rfl, hraise, trivial⟩

/-- **The copy** of a DMA is its place in the order. -/
theorem DmaInv.copy (h : s.DmaInv mem) (hd : d.Inv) (hstep : s.dev.Step .copy d) :
    DmaInv mem { s with dev := d, order := s.order ++ d.copied .copy } := by
  obtain ⟨m, hfetch, hseen, rfl⟩ := hstep.copy
  have hcases := h.fetch_cases hseen hfetch
  have hpending : s.pending = s.dev.d2h.drop s.handled := by
    simp [DmaSys.pending, h.dev.idle (by simp [hseen])]
  have hnew : ∀ k, s.dev.callOf m = some k → k ∉ s.order ∧ k < s.dev.calls := by
    intro k hk
    rcases hcases with ⟨t, out, op, hcall, hop, hun, hof, -⟩ | ⟨hof, -⟩
    · obtain rfl : op.id = k := Option.some.inj (hof.symm.trans hk)
      have hin : s.dev.inCall t = some out := by simp [Notify.inCall, hcall]
      exact ⟨h.calls.uncopied t out op hin hop hun, h.calls.lt (h.calls.made t out op hin hop)⟩
    · cases hof.symm.trans hk
  have hready : ∀ t, s.dev.raise t = false → s.dev.opReady t = false := by
    intro t ht
    rcases hcases with ⟨t', out, op, -, -, -, -, ⟨-, hraise, -⟩ | ⟨-, hraise, -⟩⟩ | ⟨-, hraise, -⟩
    · rwa [hraise] at ht
    · rw [hraise] at ht
      by_cases htt : t = t'
      · simp [htt] at ht
      · simpa [htt] using ht
    · rwa [hraise] at ht
  refine ⟨hd, { h.calls with uncopied := fun t out op hin hop hun hmem => ?_ }, { h.access with
    order := ?_
    nodup := ?_
    lt := fun k hk => ?_
    pending := fun m' hm => ?_
    write := fun t op hcall hup => ?_
    read := fun t op hcall hup => ?_ }⟩
  · have hold : s.dev.Uncopied t := hun.of_call rfl fun hdown hreads _ =>
      ⟨hready t hdown, hreads, by simp [h.dev.idle (by simp [hseen])]⟩
    rcases List.mem_append.mp hmem with hbefore | hcopied
    · exact h.calls.uncopied t out op hin hop hold hbefore
    · -- the call that is copied is not that of a thread of which the call is not copied yet
      have hk : s.dev.callOf m = some op.id := Option.mem_toList.mp hcopied
      rcases hcases with ⟨t', out', op', hcall, hop', -, hof, hdma⟩ | ⟨hof, -⟩
      · have hin' : s.dev.inCall t' = some out' := by simp [Notify.inCall, hcall]
        have hid : op.id = op'.id := Option.some.inj (hk.symm.trans hof)
        obtain rfl := h.calls.distinct t t' out out' op op' hin hin' hop hop' hid
        simp only [Notify.Uncopied, hcall] at hun
        rcases hdma with ⟨-, -, rfl⟩ | ⟨-, hraise, -⟩
        · exact hun.2.2 _ _ rfl
        · simp [hraise] at hun
      · cases hof.symm.trans hk
  · have horder := h.access.order
    rw [hpending] at horder
    change s.order ++ (s.dev.callOf m).toList = s.trace.filterMap Access.call ++
      (s.dev.d2h.drop s.handled ++ [m]).filterMap s.dev.callOf
    rw [List.filterMap_append, ← List.append_assoc, ← horder]
    cases hof : s.dev.callOf m <;> simp [hof]
  · refine List.nodup_append.mpr ⟨h.access.nodup, ?_, fun k hk k' hk' heq => ?_⟩
    · change (s.dev.callOf m).toList.Nodup
      cases s.dev.callOf m <;> simp
    · exact (hnew k' (Option.mem_toList.mp hk')).1 (heq ▸ hk)
  · rcases List.mem_append.mp hk with hbefore | hcopied
    · exact h.access.lt k hbefore
    · exact (hnew k (Option.mem_toList.mp hcopied)).2
  · rcases List.mem_append.mp hm with hold | hlast
    · have hproper := h.access.pending m' (hpending ▸ hold)
      cases m' <;> exact hproper
    · obtain rfl : m = m' := Option.some.inj (Option.mem_toList.mp hlast)
      rcases hcases with ⟨t, out, op, hcall, hop, -, -, ⟨rfl, -, rfl⟩ | ⟨rfl, -, rfl⟩⟩ | ⟨-, -, hproper⟩
      · exact ⟨op, hcall, rfl, rfl⟩
      · exact h.calls.made t _ op (by simp [Notify.inCall, hcall]) rfl
      · cases m <;> exact hproper
  · rcases hcases with ⟨t', out, op', hcall', hop', -, hof, ⟨rfl, hraise, -⟩ | ⟨rfl, hraise, -⟩⟩ |
      ⟨-, hraise, -⟩
    · exact List.mem_append_left _ (h.access.write t op hcall (congrFun hraise t ▸ hup))
    · by_cases ht : t = t'
      · subst ht
        obtain rfl : op = op' := by simpa using hcall.symm.trans hcall'
        exact List.mem_append_right _ (Option.mem_toList.mpr hof)
      · have hsame : s.dev.raise t = s.dev.opReady t :=
          (congrFun hraise t).trans (Function.update_of_ne ht _ _)
        exact List.mem_append_left _ (h.access.write t op hcall (hsame ▸ hup))
    · exact List.mem_append_left _ (h.access.write t op hcall (congrFun hraise t ▸ hup))
  · rcases hcases with ⟨t', out, op', hcall', hop', -, hof, ⟨rfl, hraise, -⟩ | ⟨rfl, hraise, -⟩⟩ |
      ⟨-, hraise, -⟩
    · exact h.access.read t op hcall (congrFun hraise t ▸ hup)
    · have ht : t ≠ t' := by
        rintro rfl
        cases hcall.symm.trans hcall'
      have hsame : s.dev.raise t = s.dev.opReady t :=
        (congrFun hraise t).trans (Function.update_of_ne ht _ _)
      exact h.access.read t op hcall (hsame ▸ hup)
    · exact h.access.read t op hcall (congrFun hraise t ▸ hup)

/-- **A step of the device** that takes no answer. -/
theorem DmaInv.device {a : NotifyAct P} (h : s.DmaInv mem) (ha : a.takesAnswer = false)
    (hin : s.dev.AllocInTime a) (hstep : s.dev.Step a d) :
    DmaInv mem { s with dev := d, made := s.made ++ a.made, order := s.order ++ d.copied a } := by
  have hd : d.Inv := Notify.StepInTime.inv ⟨hin, hstep⟩ h.dev
  have hquiet : DmaInv mem { s with dev := d } → a.made = [] → d.copied a = [] →
      DmaInv mem { s with dev := d, made := s.made ++ a.made, order := s.order ++ d.copied a } := by
    intro h hmade hcopied
    rw [hmade, hcopied, List.append_nil, List.append_nil]
    exact h
  cases a with
  | dmaReadComp t data => cases ha
  | copy =>
      simp only [NotifyAct.made, List.append_nil]
      exact h.copy hd hstep
  | call t m =>
      simp only [NotifyAct.made, Notify.copied, List.append_nil]
      exact h.call hd hstep
  | storeBody t => exact hquiet (h.storeBody hd hstep) rfl rfl
  | publish t => exact hquiet (h.publish hd hstep) rfl rfl
  | dmaDone t => exact hquiet (h.dmaDone hd hstep) rfl rfl
  | findSet en vector => exact hquiet (h.findSet hd hstep) rfl rfl
  | writecomp reqId => exact hquiet (h.writecomp hd hstep) rfl rfl
  | send => exact hquiet (h.send hd hstep) rfl rfl
  | alloc t =>
      obtain ⟨m, q, -, -, rfl⟩ := hstep.alloc
      exact hquiet (h.frame hd ⟨rfl, rfl, rfl, rfl, rfl, rfl, rfl⟩) rfl rfl
  | seeClear t =>
      obtain ⟨q, -, rfl⟩ := Notify.onRing_eq_some.mp hstep
      exact hquiet (h.frame hd ⟨rfl, rfl, rfl, rfl, rfl, rfl, rfl⟩) rfl rfl
  | storeType t =>
      obtain ⟨m, i, k, -, -, rfl⟩ := hstep.storeType
      exact hquiet (h.frame hd ⟨rfl, rfl, rfl, rfl, rfl, rfl, rfl⟩) rfl rfl
  | setEvent t en =>
      obtain rfl := hstep.setEvent
      exact hquiet (h.frame hd ⟨rfl, rfl, rfl, rfl, rfl, rfl, rfl⟩) rfl rfl
  | seeReady =>
      obtain ⟨q, -, rfl⟩ := Notify.onRing_eq_some.mp hstep
      exact hquiet (h.frame hd ⟨rfl, rfl, rfl, rfl, rfl, rfl, rfl⟩) rfl rfl
  | clear =>
      obtain ⟨-, -, rfl⟩ := hstep.clear
      exact hquiet (h.frame hd ⟨rfl, rfl, rfl, rfl, rfl, rfl, rfl⟩) rfl rfl
  | advanceHead =>
      obtain ⟨q, -, rfl⟩ := Notify.onRing_eq_some.mp hstep
      exact hquiet (h.frame hd ⟨rfl, rfl, rfl, rfl, rfl, rfl, rfl⟩) rfl rfl

/-- **An answer** is what the host found when it made the access. -/
theorem DmaInv.answer {data : List UInt8} {rest : List (Thread P × List UInt8)} (h : s.DmaInv mem)
    (hanswers : s.answers = (t, data) :: rest) (hstep : s.dev.Step (.dmaReadComp t data) d) :
    DmaInv mem { s with dev := d, answers := rest } := by
  have hd : d.Inv := h.dev.dmaReadComp hstep
  obtain ⟨hmem, rfl⟩ := hstep.dmaReadComp
  obtain ⟨m, hcall, hdown, hfits⟩ := h.dev.refs.awaits t .host hmem
  obtain ⟨op, rfl⟩ : ∃ op, m = .dmaRead op := by
    cases m <;> cases hfits
    exact ⟨_, rfl⟩
  obtain ⟨hmade, hlen⟩ := h.access.answered (t, data) (by simp [hanswers]) op hcall
  obtain ⟨old, hop, -⟩ := h.calls.reading t op hcall
  refine ⟨hd, { h.calls with reading := ?_, uncopied := ?_ }, { h.access with
    reads := ?_
    order := ?_
    pending := ?_
    answered := ?_
    write := ?_
    read := ?_ }⟩
  · intro t' op' hcall'
    by_cases ht : t' = t
    · subst ht
      obtain rfl : op = op' := by simpa using hcall.symm.trans hcall'
      exact ⟨data, by simp [hop], hlen⟩
    · simpa [ht] using h.calls.reading t' op' hcall'
  · intro t' m' op' hin hop' hun
    refine h.calls.uncopied t' m' op' hin hop' (hun.of_call rfl fun hdown hreads hhand => ?_)
    have ht : t' ≠ t := by
      rintro rfl
      simp at hdown
    refine ⟨by simpa [ht] using hdown, fun hmem' => hreads ?_, hhand⟩
    exact (List.mem_erase_of_ne ht).mpr hmem'
  · have hreads := h.access.reads
    simp only [hanswers, List.map_cons, List.cons_append] at hreads
    simp [hreads]
  · have hid : ∀ t' p, s.dev.At t' p → (Function.update s.dev.op t { s.dev.op t with data := data } t').id =
        (s.dev.op t').id := by
      intro t' _ _
      by_cases ht : t' = t
      · subst ht
        rw [Function.update_self]
      · rw [Function.update_of_ne ht]
    rw [h.access.order]
    exact congrArg _ (h.access.callOf_congr hid).symm
  · intro m' hm
    have hproper := h.access.pending m' hm
    cases m' <;> exact hproper
  · intro a ha op' hcall'
    exact h.access.answered a (hanswers ▸ List.mem_cons_of_mem _ ha) op' hcall'
  · intro t' op' hcall' hready
    have ht : t' ≠ t := by
      rintro rfl
      cases hcall.symm.trans hcall'
    exact h.access.write t' op' hcall' (by simpa [ht] using hready)
  · intro t' op' hcall' hready
    by_cases ht : t' = t
    · subst ht
      obtain rfl : op = op' := by simpa using hcall.symm.trans hcall'
      simpa using hmade
    · simpa [ht] using h.access.read t' op' hcall' (by simpa [ht] using hready)

/-! ## runs -/

theorem Step.dev {a : NotifyAct P} (h : s.Step (.dev a) s') : a.takesAnswer = false ∧
    ∃ d, s.dev.Step a d ∧
      s' = { s with dev := d, made := s.made ++ a.made, order := s.order ++ d.copied a } := by
  unfold Step step? at h
  simp only at h
  split at h
  case isTrue => cases h
  case isFalse ha =>
    obtain ⟨d, hd, rfl⟩ := Option.map_eq_some_iff.mp h
    exact ⟨Bool.eq_false_of_not_eq_true ha, d, hd, rfl⟩

theorem Step.answer (h : s.Step .answer s') : ∃ t data rest d, s.answers = (t, data) :: rest ∧
    s.dev.Step (.dmaReadComp t data) d ∧ s' = { s with dev := d, answers := rest } := by
  unfold Step step? at h
  simp only at h
  split at h
  case h_1 => cases h
  case h_2 t data rest hanswers =>
    obtain ⟨d, hd, rfl⟩ := Option.map_eq_some_iff.mp h
    exact ⟨t, data, rest, d, hanswers, hd, rfl⟩

/-- **Step lemma**: the accesses stay those of one memory. -/
theorem StepInTime.inv {a : DmaAct P} (h : s.StepInTime a s') (hi : s.DmaInv mem) :
    s'.DmaInv mem := by
  obtain ⟨hin, h⟩ := h
  cases a with
  | dev a =>
      obtain ⟨ha, d, hd, rfl⟩ := h.dev
      exact hi.device ha hin hd
  | store off xs =>
      obtain rfl := Option.some.inj h
      exact hi.store off xs
  | handle =>
      obtain ⟨m, hm, rfl⟩ := Option.map_eq_some_iff.mp h
      exact hi.handle hm
  | answer =>
      obtain ⟨t, data, rest, d, hanswers, hd, rfl⟩ := h.answer
      exact hi.answer hanswers hd

theorem Step.order_grows {a : DmaAct P} (h : s.Step a s') : s.order <+: s'.order := by
  cases a with
  | dev a =>
      obtain ⟨-, d, -, rfl⟩ := h.dev
      exact List.prefix_append _ _
  | store off xs =>
      obtain rfl := Option.some.inj h
      exact List.prefix_refl _
  | handle =>
      obtain ⟨m, -, rfl⟩ := Option.map_eq_some_iff.mp h
      cases m <;> exact List.prefix_refl _
  | answer =>
      obtain ⟨t, data, rest, d, -, -, rfl⟩ := h.answer
      exact List.prefix_refl _

/-- **DMA goes to one memory**, in any run in which no producer is overtaken by a whole ring of
allocations before it has published. An access for a call that is made after `s` comes after
all those that were copied up to `s`. -/
theorem dma_coherent {s₀ : DmaSys P} {acts acts' : List (DmaAct P)} (h0 : s₀.Init)
    (hrun : Run StepInTime s₀ acts s) (hrun' : Run StepInTime s acts' s') :
    s.Coherent s₀.mem ∧
      ∀ k ∈ s.order, ∀ j, s.dev.calls ≤ j → ∀ before after,
        s'.trace.filterMap Access.call = before ++ j :: after → k ∈ before := by
  have hinv := hrun.invariant (I := DmaInv s₀.mem) (fun _ _ _ hi h => h.inv hi) h0.inv
  have hinv' := hrun'.invariant (I := DmaInv s₀.mem) (fun _ _ _ hi h => h.inv hi) hinv
  refine ⟨hinv.coherent, fun k hk j hj before after heq => ?_⟩
  obtain ⟨later, hlater⟩ := hrun'.invariant (I := fun u => s.order <+: u.order)
    (fun _ _ _ hle h => hle.trans h.2.order_grows) (List.prefix_refl _)
  have hnew : j ∉ s.order := fun hmem => absurd (hinv.access.lt j hmem) (by omega)
  have hle : before ++ j :: after <+: s.order ++ later := by
    rw [hlater, ← heq]
    exact hinv'.coherent.order
  exact (prefix_of_not_mem hle hnew).subset hk

end Steps

instance (s : DmaSys Bool) : ∀ a, Decidable (s.InTime a)
  | .dev a => inferInstanceAs (Decidable (s.dev.AllocInTime a))
  | .store _ _ | .handle | .answer => isTrue trivial

/-- The device at the start, with a host the memory of which is empty. -/
def start (P : Type) : DmaSys P :=
  { dev := .start P
    mem := fun _ => 0
    handled := 0
    answers := []
    made := []
    order := []
    trace := [] }

theorem start_init : (start P).Init := ⟨Notify.start_init, rfl, rfl, rfl, rfl, rfl, rfl⟩

/-- A poller writes, and its write returns before it is sent. -/
def writeReturns : List (DmaAct Bool) :=
  (Notify.sendCall (.poller false) (.dmaWrite ⟨0, 8192, [1, 2]⟩) ++
    ([.seeReady, .copy, .dmaDone (.poller false)] : List (NotifyAct Bool))).map .dev

/-- Another poller reads what was written, and the host makes both accesses. -/
def thenReads : List (DmaAct Bool) :=
  (Notify.sendCall (.poller true) (.dmaRead ⟨1, 8193, [0]⟩) ++
    ([.send, .clear, .advanceHead] : List (NotifyAct Bool)) ++ Notify.sendNext).map .dev ++
  [.handle, .handle, .answer, .dev (.dmaDone (.poller true))]

theorem dma_coherent_small : ∃ s s', Run StepInTime (start Bool) writeReturns s ∧
    Run StepInTime s thenReads s' ∧ s.order = [0] ∧ s.trace.length = 0 ∧
      s'.trace.filterMap Access.call = [0, 1] ∧ (s'.dev.op (.poller true)).data = [2] ∧
      s.Coherent (fun _ => 0) ∧
        ∀ k ∈ s.order, ∀ j, s.dev.calls ≤ j → ∀ before after,
          s'.trace.filterMap Access.call = before ++ j :: after → k ∈ before := by
  have hends : ((exec (allowed InTime step?) writeReturns (start Bool)).bind fun s =>
      (exec (allowed InTime step?) thenReads s).map fun s' =>
        (s.order, s.trace.length, s'.trace.filterMap Access.call,
          (s'.dev.op (.poller true)).data)) = some ([0], 0, [0, 1], [2]) := by
    decide +kernel
  obtain ⟨s, hs, hends'⟩ := Option.bind_eq_some_iff.mp hends
  obtain ⟨s', hs', heq⟩ := Option.map_eq_some_iff.mp hends'
  simp only [Prod.mk.injEq] at heq
  obtain ⟨horder, htrace, hcalls, hdata⟩ := heq
  have hrun : Run StepInTime (start Bool) writeReturns s := run_of_exec_allowed hs
  have hrun' : Run StepInTime s thenReads s' := run_of_exec_allowed hs'
  exact ⟨s, s', hrun, hrun', horder, htrace, hcalls, hdata, dma_coherent start_init hrun hrun'⟩

end DmaSys

end Femu.Simbricks
