import Femu.Nvme.Dma
import Mathlib.Data.List.Pairwise

/-!
# Femu.Qemu.Props

The default values of the device properties: `props_init` of `wrapper-qemu.c`, which
`type_register_static` runs on the object it has just allocated with `calloc`.

Memory is a function of the distance from the start of the object; a store at a distance
past the object's size is a store outside it. The case of the string properties casts the
object to `const char **` before it adds the offset, so that the pointer lands at eight
times the offset.
-/

namespace Femu.Qemu

open Lib Nvme

/-! ## properties -/

/-- `enum PropType`; `other` stands for the values that are none of its names. -/
inductive PropType
  | str
  | num8
  | num16
  | num32
  | other
deriving DecidableEq

/-- The size of a field of the type. -/
def PropType.width : PropType → Nat
  | .str => 8
  | .num8 => 1
  | .num16 => 2
  | .num32 => 4
  | .other => 0

/-- `Property`. `dflt` is the 64 bits of the union `def`: a pointer or a number. -/
structure Property where
  name : Option String
  offset : Nat
  type : PropType
  dflt : UInt64
deriving DecidableEq

/-- `DEFINE_PROP_STRING`. -/
def definePropString (n : String) (field : Nat) : Property := ⟨some n, field, .str, 0⟩

/-- `DEFINE_PROP_UINT8`. -/
def definePropUint8 (n : String) (field : Nat) (d : UInt64) : Property := ⟨some n, field, .num8, d⟩

/-- `DEFINE_PROP_UINT16`. -/
def definePropUint16 (n : String) (field : Nat) (d : UInt64) : Property := ⟨some n, field, .num16, d⟩

/-- `DEFINE_PROP_UINT32`. -/
def definePropUint32 (n : String) (field : Nat) (d : UInt64) : Property := ⟨some n, field, .num32, d⟩

/-- `DEFINE_PROP_END_OF_LIST`. The members it does not name are zero. -/
def definePropEndOfList : Property := ⟨none, 0, .str, 0⟩

namespace Property

/-- The store for one property, `none` being the `abort()` for an invalid type. -/
def store (p : Property) (dev : Bytes) : Option Bytes :=
  match p.type with
  -- *((const char **) ((uint8_t *) dev) + offset): the cast comes before the sum
  | .str => some (overwrite dev (8 * p.offset) (leBytes 8 p.dflt.toNat))
  | .num8 => some (overwrite dev p.offset (leBytes 1 p.dflt.toNat))
  | .num16 => some (overwrite dev p.offset (leBytes 2 p.dflt.toNat))
  | .num32 => some (overwrite dev p.offset (leBytes 4 p.dflt.toNat))
  | .other => none

end Property

/-- `props_init`, on the properties from one entry of the list on. `none` is a run that
does not come back: an `abort()`, or a list whose end is not marked. -/
def propsInit : List Property → Bytes → Option Bytes
  | [], _ => none
  | p :: ps, dev =>
      match p.name with
      | none => some dev
      | some _ => (p.store dev).bind (propsInit ps)

/-! ## what it is for -/

/-- A list of properties for an object of the given size: named, of a known type, with
fields that lie in the object and share no byte. -/
structure PropsFit (size : Nat) (ps : List Property) : Prop where
  named : ∀ p ∈ ps, p.name.isSome
  typed : ∀ p ∈ ps, p.type ≠ .other
  inside : ∀ p ∈ ps, p.offset + p.type.width ≤ size
  apart : ps.Pairwise fun p q => Apart p.offset p.type.width q.offset q.type.width

/-- Every field holds the default of its property, and the bytes outside the fields are
those of before. -/
structure Lands (ps : List Property) (dev dev' : Bytes) : Prop where
  field : ∀ p ∈ ps, leNat (slice dev' p.offset p.type.width) = p.dflt.toNat
  outside : ∀ a, (∀ p ∈ ps, a < p.offset ∨ p.offset + p.type.width ≤ a) → dev' a = dev a

/-- The run of `props_init` on the list comes back with every default in its field and
the other bytes unchanged. -/
def Inits (ps : List Property) (dev : Bytes) : Prop :=
  ∃ dev', propsInit (ps ++ [definePropEndOfList]) dev = some dev' ∧ Lands ps dev dev'

/-- The bytes of a new object, whatever lies behind it. -/
def Zeroed (size : Nat) (dev : Bytes) : Prop := ∀ a < size, dev a = 0

/-! ## the condition -/

namespace Property

/-- The default is a number of the field's width. -/
def Fits (p : Property) : Prop := p.dflt.toNat < 256 ^ p.type.width

/-- The bytes of the default. -/
def byte (p : Property) (i : Nat) : UInt8 := (p.dflt.toNat / 256 ^ i).toUInt8

/-- A string property that is not at the start of the object. -/
def Stray (p : Property) : Prop := p.type = .str ∧ p.offset ≠ 0

/-- The eight bytes at eight times the offset of a stray property have no byte in the
field of `p` that its default needs. -/
def SparedBy (p q : Property) : Prop :=
  q.Stray → ∀ i < p.type.width, 8 * q.offset ≤ p.offset + i → p.offset + i < 8 * q.offset + 8 →
    p.byte i = 0

end Property

/-! ## the stores of a run -/

namespace Property

/-- Where the default is stored. -/
def target (p : Property) : Nat := if p.type = .str then 8 * p.offset else p.offset

/-- The store as a range and its bytes. -/
def write (p : Property) : Nat × List UInt8 := (p.target, leBytes p.type.width p.dflt.toNat)

theorem store_eq {p : Property} (h : p.type ≠ .other) (dev : Bytes) :
    p.store dev = some (overwrite dev p.write.1 p.write.2) := by
  cases ht : p.type with
  | other => exact absurd ht h
  | _ => simp [store, write, target, ht, PropType.width]

theorem Stray.target {p : Property} (h : p.Stray) : p.target = 8 * p.offset := if_pos h.1

theorem Stray.width {p : Property} (h : p.Stray) : p.type.width = 8 := by rw [h.1, PropType.width]

theorem target_of_not_stray {p : Property} (h : ¬ p.Stray) : p.target = p.offset := by
  rw [target]
  split
  case isTrue hstr =>
    have hzero : p.offset = 0 := by
      by_contra hne
      exact h ⟨hstr, hne⟩
    rw [hzero]
  case isFalse => rfl

theorem byte_of_null {p : Property} (h : p.dflt = 0) (i : Nat) : p.byte i = 0 := by
  simp [byte, h]

/-- A default without a byte that is set is null. -/
theorem dflt_eq_zero {p : Property} (h : ∀ i < 8, p.byte i = 0) : p.dflt = 0 := by
  have hbytes : leBytes 8 p.dflt.toNat = leBytes 8 0 := by
    refine List.map_congr_left fun i hi => ?_
    have hbyte : (p.dflt.toNat / 256 ^ i).toUInt8 = 0 := h i (List.mem_range.mp hi)
    simp [hbyte]
  have hnum := congrArg leNat hbytes
  have hlt : p.dflt.toNat < 256 ^ 8 := p.dflt.toNat_lt
  rw [leNat_leBytes hlt, leNat_leBytes (by simp)] at hnum
  exact UInt64.toNat.inj hnum

/-- A field holds the default of its property when each byte does and the default is a
number of that width. -/
theorem holds_iff (p : Property) (dev : Bytes) :
    leNat (slice dev p.offset p.type.width) = p.dflt.toNat ↔
      (∀ i < p.type.width, dev (p.offset + i) = p.byte i) ∧ p.Fits := by
  constructor
  · intro h
    have hbytes := leBytes_leNat (slice dev p.offset p.type.width)
    have hlt := leNat_lt (slice dev p.offset p.type.width)
    rw [h, length_slice] at hbytes hlt
    refine ⟨fun i hi => ?_, hlt⟩
    have hget := getElem?_slice dev p.offset hi
    rw [← hbytes, getElem?_leBytes hi, Option.some.injEq] at hget
    exact hget.symm
  · rintro ⟨hbytes, hfits⟩
    have hslice : slice dev p.offset p.type.width = leBytes p.type.width p.dflt.toNat := by
      refine List.map_congr_left fun i hi => ?_
      exact hbytes i (List.mem_range.mp hi)
    rw [hslice]
    exact leNat_leBytes hfits

end Property

/-- The bytes after the stores of a list of properties. -/
def stores (ps : List Property) (dev : Bytes) : Bytes :=
  overwriteList dev (ps.map Property.write)

theorem propsInit_eq {size : Nat} {ps : List Property} (h : PropsFit size ps) (dev : Bytes) :
    propsInit (ps ++ [definePropEndOfList]) dev = some (stores ps dev) := by
  obtain ⟨hnamed, htyped, -, -⟩ := h
  induction ps generalizing dev with
  | nil => rfl
  | cons p ps ih =>
      obtain ⟨n, hn⟩ := Option.isSome_iff_exists.mp (hnamed p List.mem_cons_self)
      simp only [List.cons_append, propsInit, hn, Property.store_eq (htyped p List.mem_cons_self),
        Option.bind_some]
      exact ih _ (fun q hq => hnamed q (List.mem_cons_of_mem p hq))
        fun q hq => htyped q (List.mem_cons_of_mem p hq)

theorem inits_iff {size : Nat} {ps : List Property} (h : PropsFit size ps) (dev : Bytes) :
    Inits ps dev ↔ Lands ps dev (stores ps dev) := by
  simp [Inits, propsInit_eq h]

theorem stores_append (ps qs : List Property) (dev : Bytes) :
    stores (ps ++ qs) dev = stores qs (stores ps dev) := by
  rw [stores, List.map_append, overwriteList_append]
  rfl

/-- What the stores leave at an address: a property of every byte stored there holds of
it, if the old byte has it or the address is stored to at all. -/
theorem stores_induction {P : UInt8 → Prop} {ps : List Property} {dev : Bytes} {a : Nat}
    (hm : P (dev a) ∨ ∃ p ∈ ps, p.target ≤ a ∧ a < p.target + p.type.width)
    (hw : ∀ p ∈ ps, ∀ i < p.type.width, p.target + i = a → P (p.byte i)) : P (stores ps dev a) := by
  refine overwriteList_induction ?_ fun w hmem i x hi hadd => ?_
  · obtain hm | ⟨p, hp, hlo, hhi⟩ := hm
    · exact .inl hm
    · refine .inr ⟨p.write, List.mem_map_of_mem hp, hlo, ?_⟩
      rwa [Property.write, length_leBytes]
  · obtain ⟨p, hp, rfl⟩ := List.mem_map.mp hmem
    obtain ⟨hlt, -⟩ := List.getElem?_eq_some_iff.mp hi
    rw [Property.write, length_leBytes] at hlt
    rw [Property.write, getElem?_leBytes hlt, Option.some.injEq] at hi
    rw [← hi]
    exact hw p hp i hlt hadd

section Fit

variable {size : Nat} {ps : List Property} {p q : Property}

theorem PropsFit.apart_of_ne (h : PropsFit size ps) (hp : p ∈ ps) (hq : q ∈ ps) (hne : p ≠ q) :
    Apart p.offset p.type.width q.offset q.type.width := by
  have hsymm : Std.Symm fun p q : Property =>
      Apart p.offset p.type.width q.offset q.type.width := ⟨fun _ _ hpq => hpq.symm⟩
  exact h.apart.forall hp hq hne

/-- A byte of a field is stored to by its own property and by stray ones only. -/
theorem PropsFit.eq_of_target (h : PropsFit size ps) (hp : p ∈ ps) (hq : q ∈ ps) {i j : Nat}
    (hi : i < p.type.width) (hj : j < q.type.width) (hadd : q.target + j = p.offset + i)
    (hstray : ¬ q.Stray) : q = p := by
  by_contra hne
  rw [Property.target_of_not_stray hstray] at hadd
  obtain hz | hz | hle | hle := h.apart_of_ne hq hp hne <;> omega

/-- The field of a stray property is stored to by stray ones only. -/
theorem PropsFit.stray_of_target (h : PropsFit size ps) (hp : p ∈ ps) (hq : q ∈ ps)
    (hstray : p.Stray) {i j : Nat} (hi : i < p.type.width) (hj : j < q.type.width)
    (hadd : q.target + j = p.offset + i) : q.Stray := by
  by_contra hqs
  exact hqs (h.eq_of_target hp hq hi hj hadd hqs ▸ hstray)

/-! ## when the defaults land -/

/-- The field of a stray property stays zero, if the others that are stray store zeros. -/
theorem PropsFit.field_stray (h : PropsFit size ps) {dev : Bytes}
    (hnull : ∀ p ∈ ps, p.Stray → p.dflt = 0) (hp : p ∈ ps) (hstray : p.Stray) {i : Nat}
    (hi : i < p.type.width) (hzero : dev (p.offset + i) = 0) :
    stores ps dev (p.offset + i) = p.byte i := by
  rw [Property.byte_of_null (hnull p hp hstray)]
  refine stores_induction (P := fun x => x = 0) (.inl hzero) fun q hq j hj hadd => ?_
  exact Property.byte_of_null (hnull q hq (h.stray_of_target hp hq hstray hi hj hadd)) j

/-- Any other property puts its default into its field, and the later ones keep it. -/
theorem PropsFit.field_own (h : PropsFit size ps) (dev : Bytes)
    (hnull : ∀ p ∈ ps, p.Stray → p.dflt = 0) (hlater : ps.Pairwise Property.SparedBy) (hp : p ∈ ps)
    (hstray : ¬ p.Stray) {i : Nat} (hi : i < p.type.width) :
    stores ps dev (p.offset + i) = p.byte i := by
  obtain ⟨pre, post, rfl⟩ := List.append_of_mem hp
  have hspare := (List.pairwise_cons.mp (List.pairwise_append.mp hlater).2.1).1
  have htarget := Property.target_of_not_stray hstray
  rw [stores_append]
  refine stores_induction (P := fun x => x = p.byte i)
    (.inr ⟨p, List.mem_cons_self, by omega, by omega⟩) fun q hq j hj hadd => ?_
  have hqps : q ∈ pre ++ p :: post := List.mem_append_right pre hq
  by_cases hqs : q.Stray
  · rw [Property.byte_of_null (hnull q hqps hqs)]
    rw [hqs.target] at hadd
    rw [hqs.width] at hj
    obtain rfl | hq := List.mem_cons.mp hq
    · exact absurd hqs hstray
    · exact (hspare q hq hqs i hi (by omega) (by omega)).symm
  · obtain rfl := h.eq_of_target hp hqps hi hj hadd hqs
    rw [show j = i by omega]

/-- With null strings it is enough that the bytes which the stray properties should fill or
leave alone are zero beforehand, and that no default is undone by a later property. -/
theorem PropsFit.lands (h : PropsFit size ps) {dev : Bytes} (hfits : ∀ p ∈ ps, p.Fits)
    (hnull : ∀ p ∈ ps, p.Stray → p.dflt = 0)
    (hfield : ∀ p ∈ ps, p.Stray → ∀ i < 8, dev (p.offset + i) = 0)
    (hout : ∀ p ∈ ps, p.Stray → ∀ i < 8,
      (∀ q ∈ ps, 8 * p.offset + i < q.offset ∨ q.offset + q.type.width ≤ 8 * p.offset + i) →
        dev (8 * p.offset + i) = 0)
    (hlater : ps.Pairwise Property.SparedBy) : Lands ps dev (stores ps dev) := by
  constructor
  case field =>
    intro p hp
    refine (p.holds_iff _).mpr ⟨fun i hi => ?_, hfits p hp⟩
    by_cases hstray : p.Stray
    · exact h.field_stray hnull hp hstray hi
        (hfield p hp hstray i (by rwa [hstray.width] at hi))
    · exact h.field_own dev hnull hlater hp hstray hi
  case outside =>
    intro a ha
    refine stores_induction (P := fun x => x = dev a) (.inl rfl) fun p hp i hi hadd => ?_
    by_cases hstray : p.Stray
    · rw [hstray.target] at hadd
      rw [hstray.width] at hi
      subst hadd
      rw [Property.byte_of_null (hnull p hp hstray), hout p hp hstray i hi ha]
    · rw [Property.target_of_not_stray hstray] at hadd
      have := ha p hp
      omega

theorem Lands.fits {dev dev' : Bytes} (h : Lands ps dev dev') (hp : p ∈ ps) : p.Fits :=
  ((p.holds_iff dev').mp (h.field p hp)).2

theorem Lands.byte {dev dev' : Bytes} (h : Lands ps dev dev') (hp : p ∈ ps) {i : Nat}
    (hi : i < p.type.width) : dev' (p.offset + i) = p.byte i :=
  ((p.holds_iff dev').mp (h.field p hp)).1 i hi

/-- The first byte of the field of the first stray property is stored to by nothing, so
that it holds the default only by chance. -/
theorem PropsFit.not_stray (h : PropsFit size ps)
    (hland : ∀ dev, Lands ps dev (stores ps dev)) (hp : p ∈ ps) : ¬ p.Stray := by
  induction ho : p.offset using Nat.strong_induction_on generalizing p with
  | _ o ih =>
      intro hstray
      have hw : 0 < p.type.width := by rw [hstray.width]; omega
      let fill : UInt8 := p.byte 0 + 1
      have hkeep : stores ps (fun _ => fill) (p.offset + 0) = fill := by
        refine stores_induction (P := fun x => x = fill) (.inl rfl) fun q hq j hj hadd => ?_
        have hqs := h.stray_of_target hp hq hstray hw hj hadd
        have hne := hqs.2
        have hlt : ¬ q.offset < o := fun hlt => ih q.offset hlt hq rfl hqs
        rw [hqs.target] at hadd
        omega
      have hbyte := (hland fun _ => fill).byte hp hw
      rw [hkeep] at hbyte
      have hne : p.byte 0 + 1 ≠ p.byte 0 := by simp
      exact hne hbyte

/-- The default of a stray property of a new object is null: its field stays as
`calloc` left it, down to what its own store may put there. -/
theorem PropsFit.dflt_eq_zero (h : PropsFit size ps) {dev : Bytes} (hz : Zeroed size dev)
    (hland : Lands ps dev (stores ps dev)) (hp : p ∈ ps) (hstray : p.Stray) : p.dflt = 0 := by
  induction ho : p.offset using Nat.strong_induction_on generalizing p with
  | _ o ih =>
      have hinside := h.inside p hp
      have hw := hstray.width
      have hne := hstray.2
      have hbyte : ∀ i < 8, p.byte i = 0 := by
        intro i
        induction i using Nat.strong_induction_on with
        | _ i ihi =>
            intro hi
            rw [← hland.byte hp (by omega : i < p.type.width)]
            refine stores_induction (P := fun x => x = 0) (.inl (hz _ (by omega)))
              fun q hq j hj hadd => ?_
            have hqs := h.stray_of_target hp hq hstray (by omega) hj hadd
            rw [hqs.target] at hadd
            by_cases hlt : q.offset < o
            · exact Property.byte_of_null (ih q.offset hlt hq hqs rfl) j
            · -- no stray property stores to a field before its own, and the own store can
              -- only come from a lower byte
              by_cases heq : q = p
              · subst heq
                exact ihi j (by omega) (by omega)
              · have := hqs.width
                obtain hz | hz | hle | hle := h.apart_of_ne hq hp heq <;> omega
      exact Property.dflt_eq_zero hbyte

/-- The store of a stray property stays inside a new object if it changes nothing that
may lie behind it. -/
theorem PropsFit.stray_inside (h : PropsFit size ps)
    (hland : ∀ dev, Zeroed size dev → Lands ps dev (stores ps dev)) (hp : p ∈ ps)
    (hstray : p.Stray) : 8 * p.offset + 8 ≤ size := by
  by_contra hlt
  let dev : Bytes := fun a => if a < size then 0 else 1
  have hz : Zeroed size dev := fun a ha => if_pos ha
  have hzero : stores ps dev (8 * p.offset + 7) = 0 := by
    refine stores_induction (P := fun x => x = 0) (.inr ⟨p, hp, ?_, ?_⟩) fun q hq j hj hadd => ?_
    · rw [hstray.target]
      omega
    · rw [hstray.target, hstray.width]
      omega
    · by_cases hqs : q.Stray
      · exact Property.byte_of_null (h.dflt_eq_zero hz (hland dev hz) hq hqs) j
      · have := h.inside q hq
        rw [Property.target_of_not_stray hqs] at hadd
        omega
  have hkeep := (hland dev hz).outside (8 * p.offset + 7) fun q hq => by
    have := h.inside q hq
    omega
  rw [hzero] at hkeep
  simp only [dev] at hkeep
  rw [if_neg (by omega)] at hkeep
  exact absurd hkeep (by decide)

/-- A later stray property leaves zeros, which an earlier default must be able to do with. -/
theorem PropsFit.sparedBy (h : PropsFit size ps) {dev : Bytes} (hz : Zeroed size dev)
    (hland : Lands ps dev (stores ps dev)) : ps.Pairwise Property.SparedBy := by
  refine List.pairwise_iff_forall_sublist.mpr fun {p q} hsub hstray i hi hlo hhi => ?_
  have hsplit : List.Sublist ([p] ++ [q]) ps := hsub
  obtain ⟨pre, post, rfl, hpre, hpost⟩ := List.append_sublist_iff.mp hsplit
  have hp := List.singleton_sublist.mp hpre
  have hq := List.singleton_sublist.mp hpost
  have happ := (List.pairwise_append.mp h.apart).2.2
  rw [← hland.byte (List.mem_append_left post hp) hi, stores_append]
  refine stores_induction (P := fun x => x = 0) (.inr ⟨q, hq, ?_, ?_⟩) fun r hr j hj hadd => ?_
  · rw [hstray.target]
    omega
  · rw [hstray.target, hstray.width]
    omega
  · have hrps := List.mem_append_right pre hr
    by_cases hrs : r.Stray
    · exact Property.byte_of_null (h.dflt_eq_zero hz hland hrps hrs) j
    · -- only the property itself stores to its field, and it came earlier
      obtain rfl := h.eq_of_target (List.mem_append_left post hp) hrps hi hj hadd hrs
      obtain hw | hw | hle | hle := happ r hp r hr <;> omega

/-- The defaults land whatever memory held if and only if every default has the width of
its field and no string property is anywhere but at the start of the object. In an object
new from `calloc` a string property does no harm elsewhere if its default is null, the
eight bytes at eight times its offset are still inside the object, and no property before
it in the list has a nonzero default among them. -/
theorem props_init_lands_iff (h : PropsFit size ps) :
    ((∀ dev, Inits ps dev) ↔ (∀ p ∈ ps, p.Fits) ∧ ∀ p ∈ ps, ¬ p.Stray) ∧
      ((∀ dev, Zeroed size dev → Inits ps dev) ↔
        (∀ p ∈ ps, p.Fits) ∧ (∀ p ∈ ps, p.Stray → p.dflt = 0 ∧ 8 * p.offset + 8 ≤ size) ∧
          ps.Pairwise Property.SparedBy) := by
  simp only [inits_iff h]
  constructor
  · constructor
    · intro hland
      exact ⟨fun p hp => (hland fun _ => 0).fits hp, fun p hp => h.not_stray hland hp⟩
    · rintro ⟨hfits, hno⟩ dev
      refine h.lands hfits (fun p hp hs => absurd hs (hno p hp))
        (fun p hp hs => absurd hs (hno p hp)) (fun p hp hs => absurd hs (hno p hp)) ?_
      exact List.pairwise_of_forall_mem_list fun p _ q hq hs => absurd hs (hno q hq)
  · constructor
    · intro hland
      have hz : Zeroed size fun _ => 0 := fun _ _ => rfl
      refine ⟨fun p hp => (hland _ hz).fits hp, fun p hp hs => ?_, h.sparedBy hz (hland _ hz)⟩
      exact ⟨h.dflt_eq_zero hz (hland _ hz) hp hs, h.stray_inside hland hp hs⟩
    · rintro ⟨hfits, hnull, hlater⟩ dev hz
      refine h.lands hfits (fun p hp hs => (hnull p hp hs).1) (fun p hp hs i hi => hz _ ?_)
        (fun p hp hs i hi _ => hz _ ?_) hlater
      · have := h.inside p hp
        have := hs.width
        omega
      · have := (hnull p hp hs).2
        omega

end Fit

/-- A string and a number, in this order in the list. -/
def serialFirst (serial devsz : Nat) : List Property :=
  [definePropString "serial" serial, definePropUint32 "devsz_mb" devsz 1024]

theorem propsFit_serialFirst (size serial devsz : Nat) (hs : serial + 8 ≤ devsz)
    (hd : devsz + 4 ≤ size) : PropsFit size (serialFirst serial devsz) := by
  constructor
  · simp [serialFirst, definePropString, definePropUint32]
  · simp [serialFirst, definePropString, definePropUint32]
  · simp [serialFirst, definePropString, definePropUint32, PropType.width]
    omega
  · simp [serialFirst, definePropString, definePropUint32, PropType.width, Apart]
    omega

/-- Defaults that land everywhere, and ones that land in a new object only: there the
string comes first in the list and stores zeros over a number that is not set yet. -/
theorem props_init_lands_serial :
    (∀ dev, Inits (serialFirst 0 8) dev) ∧
      ∀ dev, Zeroed 72 dev → Inits (serialFirst 8 64) dev := by
  have hfits : ∀ serial devsz, ∀ p ∈ serialFirst serial devsz, p.Fits := by
    simp [serialFirst, definePropString, definePropUint32, Property.Fits, PropType.width]
  constructor
  · refine (props_init_lands_iff (propsFit_serialFirst 12 0 8 (by omega) (by omega))).1.mpr
      ⟨hfits 0 8, ?_⟩
    simp [serialFirst, definePropString, definePropUint32, Property.Stray]
  · refine (props_init_lands_iff (propsFit_serialFirst 72 8 64 (by omega) (by omega))).2.mpr
      ⟨hfits 8 64, ?_, ?_⟩
    · simp [serialFirst, definePropString, definePropUint32, Property.Stray]
    · simp [serialFirst, definePropString, definePropUint32, Property.SparedBy, Property.Stray]

/-- A number and a string, in this order in the list. -/
def serialLast (serial devsz : Nat) : List Property :=
  [definePropUint32 "devsz_mb" devsz 1024, definePropString "serial" serial]

/-- In a new object of 72 bytes a string property at byte 8 stores its null pointer over
the number at byte 64. In one of 24 bytes it stores it behind the object. -/
theorem props_init_misses :
    (PropsFit 72 (serialLast 8 64) ∧ Zeroed 72 (fun _ => 0) ∧
      ¬ Inits (serialLast 8 64) fun _ => 0) ∧
    (PropsFit 24 (serialFirst 8 16) ∧ Zeroed 24 (fun a => if a < 24 then 0 else 1) ∧
      ¬ Inits (serialFirst 8 16) fun a => if a < 24 then 0 else 1) := by
  have hlast : PropsFit 72 (serialLast 8 64) := by
    constructor
    · simp [serialLast, definePropString, definePropUint32]
    · simp [serialLast, definePropString, definePropUint32]
    · simp [serialLast, definePropString, definePropUint32, PropType.width]
    · simp [serialLast, definePropString, definePropUint32, PropType.width, Apart]
  have hfirst := propsFit_serialFirst 24 8 16 (by omega) (by omega)
  refine ⟨⟨hlast, fun _ _ => rfl, fun h => ?_⟩, hfirst, fun a ha => if_pos ha, fun h => ?_⟩
  · have hbyte := ((inits_iff hlast _).mp h).byte (p := definePropUint32 "devsz_mb" 64 1024)
      List.mem_cons_self (i := 1) (by decide)
    exact absurd hbyte (by decide)
  · have hkeep := ((inits_iff hfirst _).mp h).outside 64 (by decide)
    exact absurd hkeep (by decide)

end Femu.Qemu
