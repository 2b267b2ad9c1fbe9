/-
  Vm/Segments.lean --- the descriptors of the segments: `fill_segment_descriptor` of `vm/gdt.c`,
  which `kernel/c/gdt.c` repeats, and the table that the machine starts with.

  A descriptor is one entry of the table with its fields in pieces; that of a system segment
  takes the next entry as well, and the next entry is written for every segment.  So the table
  comes out right because it is filled in ascending order.
-/
import BufferVM.Common.Word
import BufferVM.Lib.BitFields
import Mathlib.Logic.Function.Basic

set_option autoImplicit false

namespace BufferVM

open BitFields

/-! ## `fill_segment_descriptor` -/

/-- `struct kvm_segment`, and `struct gdt_segment` of the kernel. -/
structure Segment where
  base : U64
  limit : BitVec 32
  selector : BitVec 16
  type : BitVec 8
  present : BitVec 8
  dpl : BitVec 8
  db : BitVec 8
  s : BitVec 8
  l : BitVec 8
  g : BitVec 8
  avl : BitVec 8
deriving DecidableEq, Repr

/-- `index`. -/
def Segment.index (seg : Segment) : Nat := (seg.selector >>> 3).toNat

/-- `limit`. -/
def Segment.limitField (seg : Segment) : U64 :=
  if seg.g ≠ 0#8 then (seg.limit >>> 12).setWidth 64 else seg.limit.setWidth 64

/-- `dt[index]`. -/
def Segment.descriptor (seg : Segment) : U64 :=
  (seg.limitField &&& 0xffff#64)
    ||| (seg.base &&& 0xffffff#64) <<< 16
    ||| seg.type.setWidth 64 <<< 40
    ||| seg.s.setWidth 64 <<< 44
    ||| seg.dpl.setWidth 64 <<< 45
    ||| seg.present.setWidth 64 <<< 47
    ||| ((seg.limitField &&& 0xf0000#64) >>> 16) <<< 48
    ||| seg.avl.setWidth 64 <<< 52
    ||| seg.l.setWidth 64 <<< 53
    ||| seg.db.setWidth 64 <<< 54
    ||| seg.g.setWidth 64 <<< 55
    ||| ((seg.base &&& 0xff000000#64) >>> 24) <<< 56

/-- `dt[index+1]`. -/
def Segment.highHalf (seg : Segment) : U64 := (seg.base &&& 0xffffffff00000000#64) >>> 32

/-- `fill_segment_descriptor`. -/
def fillSegmentDescriptor (dt : Nat → U64) (seg : Segment) : Nat → U64 :=
  Function.update (Function.update dt seg.index seg.descriptor) (seg.index + 1) seg.highHalf

/-! ## What the processor reads -/

/-- A field of a word. -/
def bits (e : U64) (start len : Nat) : Nat := e.toNat / 2 ^ start % 2 ^ len

/-- The segment at a selector. -/
def readSegment (dt : Nat → U64) (selector : BitVec 16) : Segment :=
  let e := dt (selector >>> 3).toNat
  let high := dt ((selector >>> 3).toNat + 1)
  let limit := bits e 0 16 + 2 ^ 16 * bits e 48 4
  { base := BitVec.ofNat 64 (bits e 16 24 + 2 ^ 24 * bits e 56 8 +
      if bits e 44 1 = 0 then 2 ^ 32 * bits high 0 32 else 0)
    limit := BitVec.ofNat 32 (if bits e 55 1 = 0 then limit else limit * 4096 + 4095)
    selector := selector
    type := BitVec.ofNat 8 (bits e 40 4)
    present := BitVec.ofNat 8 (bits e 47 1)
    dpl := BitVec.ofNat 8 (bits e 45 2)
    db := BitVec.ofNat 8 (bits e 54 1)
    s := BitVec.ofNat 8 (bits e 44 1)
    l := BitVec.ofNat 8 (bits e 53 1)
    g := BitVec.ofNat 8 (bits e 55 1)
    avl := BitVec.ofNat 8 (bits e 52 1) }

/-- Every field has the width that the descriptor has for it. -/
structure Segment.Fits (seg : Segment) : Prop where
  type : seg.type.toNat < 16
  present : seg.present.toNat < 2
  dpl : seg.dpl.toNat < 4
  db : seg.db.toNat < 2
  s : seg.s.toNat < 2
  l : seg.l.toNat < 2
  g : seg.g.toNat < 2
  avl : seg.avl.toNat < 2

/-- The limit and the base are among those that a descriptor can say. -/
structure Segment.Exact (seg : Segment) : Prop where
  limit : if seg.g = 0#8 then seg.limit.toNat < 2 ^ 20 else seg.limit.toNat % 4096 = 4095
  base : seg.s ≠ 0#8 → seg.base.toNat < 2 ^ 32

instance (seg : Segment) : Decidable seg.Fits :=
  decidable_of_iff (seg.type.toNat < 16 ∧ seg.present.toNat < 2 ∧ seg.dpl.toNat < 4 ∧
      seg.db.toNat < 2 ∧ seg.s.toNat < 2 ∧ seg.l.toNat < 2 ∧ seg.g.toNat < 2 ∧ seg.avl.toNat < 2)
    ⟨fun h => ⟨h.1, h.2.1, h.2.2.1, h.2.2.2.1, h.2.2.2.2.1, h.2.2.2.2.2.1, h.2.2.2.2.2.2.1,
      h.2.2.2.2.2.2.2⟩, fun h => ⟨h.type, h.present, h.dpl, h.db, h.s, h.l, h.g, h.avl⟩⟩

instance (seg : Segment) : Decidable seg.Exact :=
  decidable_of_iff ((if seg.g = 0#8 then seg.limit.toNat < 2 ^ 20
      else seg.limit.toNat % 4096 = 4095) ∧ (seg.s ≠ 0#8 → seg.base.toNat < 2 ^ 32))
    ⟨fun h => ⟨h.1, h.2⟩, fun h => ⟨h.limit, h.base⟩⟩

/-! ## The fields of a descriptor -/

/-- The fields, from the lowest on. -/
def Segment.fields (seg : Segment) : List (Nat × Nat) :=
  [(16, seg.limitField.toNat % 2 ^ 16), (24, seg.base.toNat % 2 ^ 24), (4, seg.type.toNat),
    (1, seg.s.toNat), (2, seg.dpl.toNat), (1, seg.present.toNat),
    (4, seg.limitField.toNat / 2 ^ 16 % 2 ^ 4), (1, seg.avl.toNat), (1, seg.l.toNat),
    (1, seg.db.toNat), (1, seg.g.toNat), (8, seg.base.toNat / 2 ^ 24 % 2 ^ 8)]

theorem toNat_byte (x : BitVec 8) : (x.setWidth 64).toNat = x.toNat := by
  have hlt := x.isLt
  rw [BitVec.toNat_setWidth]
  omega

section

variable {seg : Segment} {dt : Nat → U64}

theorem Segment.toNat_limitField (seg : Segment) : seg.limitField.toNat =
    if seg.g = 0#8 then seg.limit.toNat else seg.limit.toNat / 4096 := by
  have hlt := seg.limit.isLt
  by_cases hg : seg.g = 0#8
  · rw [Segment.limitField, if_neg (not_not.mpr hg), if_pos hg, BitVec.toNat_setWidth]
    omega
  · rw [Segment.limitField, if_pos hg, if_neg hg, BitVec.toNat_setWidth,
      BitVec.toNat_ushiftRight, Nat.shiftRight_eq_div_pow]
    omega

/-- The descriptor is packed from its fields. -/
theorem Segment.Fits.descriptor (h : seg.Fits) :
    seg.descriptor.toNat = pack seg.fields ∧ BitFields.Fits seg.fields := by
  have hlow := toNat_and_mask seg.limitField 0xffff#64 (n := 16) (by decide)
  have hbase := toNat_and_mask seg.base 0xffffff#64 (n := 24) (by decide)
  have hlimit := toNat_and_mask_shift seg.limitField 0xf0000#64 (k := 16) (n := 4) (by decide)
  have hhigh := toNat_and_mask_shift seg.base 0xff000000#64 (k := 24) (n := 8) (by decide)
  have hmod : ∀ a k : Nat, a % 2 ^ k < 2 ^ k := fun a k => Nat.mod_lt _ (Nat.two_pow_pos k)
  have f₀ : BitFields.Fits [(16, seg.limitField.toNat % 2 ^ 16)] := fits_nil.concat (hmod _ 16)
  have e₀ : (seg.limitField &&& 0xffff#64).toNat =
      pack [(16, seg.limitField.toNat % 2 ^ 16)] := by
    rw [hlow]
    rfl
  obtain ⟨e₁, f₁⟩ := or_shift (k := 16) e₀ f₀ hbase (hmod _ 24) rfl (by decide)
  obtain ⟨e₂, f₂⟩ := or_shift (k := 40) (n := 4) e₁ f₁ (toNat_byte seg.type) h.type rfl (by decide)
  obtain ⟨e₃, f₃⟩ := or_shift (k := 44) (n := 1) e₂ f₂ (toNat_byte seg.s) h.s rfl (by decide)
  obtain ⟨e₄, f₄⟩ := or_shift (k := 45) (n := 2) e₃ f₃ (toNat_byte seg.dpl) h.dpl rfl (by decide)
  obtain ⟨e₅, f₅⟩ := or_shift (k := 47) (n := 1) e₄ f₄ (toNat_byte seg.present) h.present rfl
    (by decide)
  obtain ⟨e₆, f₆⟩ := or_shift (k := 48) e₅ f₅ hlimit (hmod _ 4) rfl (by decide)
  obtain ⟨e₇, f₇⟩ := or_shift (k := 52) (n := 1) e₆ f₆ (toNat_byte seg.avl) h.avl rfl (by decide)
  obtain ⟨e₈, f₈⟩ := or_shift (k := 53) (n := 1) e₇ f₇ (toNat_byte seg.l) h.l rfl (by decide)
  obtain ⟨e₉, f₉⟩ := or_shift (k := 54) (n := 1) e₈ f₈ (toNat_byte seg.db) h.db rfl (by decide)
  obtain ⟨e₁₀, f₁₀⟩ := or_shift (k := 55) (n := 1) e₉ f₉ (toNat_byte seg.g) h.g rfl (by decide)
  obtain ⟨e₁₁, f₁₁⟩ := or_shift (k := 56) e₁₀ f₁₀ hhigh (hmod _ 8) rfl (by decide)
  rw [Segment.descriptor]
  exact ⟨e₁₁, f₁₁⟩

/-- The field at an index is read back from the descriptor. -/
theorem Segment.Fits.bits (h : seg.Fits) {i k n v : Nat} (hi : seg.fields[i]? = some (n, v))
    (hk : k = width (seg.fields.take i)) : BufferVM.bits seg.descriptor k n = v := by
  obtain ⟨he, hfits⟩ := h.descriptor
  rw [BufferVM.bits, he, hk]
  exact pack_read hfits hi

theorem Segment.toNat_highHalf (seg : Segment) : seg.highHalf.toNat = seg.base.toNat / 2 ^ 32 := by
  have hlt := seg.base.isLt
  rw [Segment.highHalf, toNat_and_mask_shift seg.base _ (k := 32) (n := 32) (by decide)]
  omega

/-! ## One segment -/

theorem fillSegmentDescriptor_index (dt : Nat → U64) (seg : Segment) :
    fillSegmentDescriptor dt seg seg.index = seg.descriptor := by
  rw [fillSegmentDescriptor, Function.update_of_ne (by omega), Function.update_self]

theorem fillSegmentDescriptor_next (dt : Nat → U64) (seg : Segment) :
    fillSegmentDescriptor dt seg (seg.index + 1) = seg.highHalf := by
  rw [fillSegmentDescriptor, Function.update_self]

theorem fillSegmentDescriptor_other {i : Nat} (h : i ≠ seg.index) (h' : i ≠ seg.index + 1) :
    fillSegmentDescriptor dt seg i = dt i := by
  rw [fillSegmentDescriptor, Function.update_of_ne h', Function.update_of_ne h]

theorem ofNat_byte (x : BitVec 8) : BitVec.ofNat 8 x.toNat = x := by
  rw [BitVec.ofNat_toNat, BitVec.setWidth_eq]

/-- The fields that are read at the selector. -/
theorem Segment.Fits.readSegment (h : seg.Fits) :
    BufferVM.readSegment (fillSegmentDescriptor dt seg) seg.selector = { seg with
      base := if seg.s = 0#8 then seg.base else BitVec.ofNat 64 (seg.base.toNat % 2 ^ 32)
      limit := if seg.g = 0#8 then BitVec.ofNat 32 (seg.limit.toNat % 2 ^ 20)
        else BitVec.ofNat 32 (seg.limit.toNat / 4096 * 4096 + 4095) } := by
  have hfield := seg.toNat_limitField
  have hlimit := seg.limit.isLt
  have hbase := seg.base.isLt
  have hidx : fillSegmentDescriptor dt seg (seg.selector >>> 3).toNat = seg.descriptor :=
    fillSegmentDescriptor_index dt seg
  have hnext : fillSegmentDescriptor dt seg ((seg.selector >>> 3).toNat + 1) = seg.highHalf :=
    fillSegmentDescriptor_next dt seg
  have hszero : seg.s = 0#8 ↔ seg.s.toNat = 0 := by
    rw [← BitVec.toNat_inj]
    rfl
  have hgzero : seg.g = 0#8 ↔ seg.g.toNat = 0 := by
    rw [← BitVec.toNat_inj]
    rfl
  have hbits : BufferVM.bits seg.highHalf 0 32 = seg.base.toNat / 2 ^ 32 := by
    rw [BufferVM.bits, seg.toNat_highHalf]
    omega
  simp only [BufferVM.readSegment, hidx, hnext, hbits, Segment.mk.injEq,
    h.bits (i := 0) (k := 0) rfl rfl, h.bits (i := 1) (k := 16) rfl rfl,
    h.bits (i := 2) (k := 40) rfl rfl, h.bits (i := 3) (k := 44) rfl rfl,
    h.bits (i := 4) (k := 45) rfl rfl, h.bits (i := 5) (k := 47) rfl rfl,
    h.bits (i := 6) (k := 48) rfl rfl, h.bits (i := 7) (k := 52) rfl rfl,
    h.bits (i := 8) (k := 53) rfl rfl, h.bits (i := 9) (k := 54) rfl rfl,
    h.bits (i := 10) (k := 55) rfl rfl, h.bits (i := 11) (k := 56) rfl rfl, ofNat_byte,
    ← hszero, ← hgzero, and_true]
  constructor
  · apply BitVec.eq_of_toNat_eq
    by_cases hsys : seg.s = 0#8
    · rw [if_pos hsys, if_pos hsys, BitVec.toNat_ofNat]
      omega
    · rw [if_neg hsys, if_neg hsys, BitVec.toNat_ofNat, BitVec.toNat_ofNat]
      omega
  · by_cases hgran : seg.g = 0#8
    · rw [if_pos hgran] at hfield
      rw [if_pos hgran, if_pos hgran]
      exact congrArg (BitVec.ofNat 32) (by omega)
    · rw [if_neg hgran] at hfield
      rw [if_neg hgran, if_neg hgran]
      exact congrArg (BitVec.ofNat 32) (by omega)

/-- **A descriptor reads as its segment** exactly when the limit is one that 20 bits and the
granularity can say, and the base of a segment for code or data has 32 bits. -/
theorem readSegment_fill_iff (dt : Nat → U64) (h : seg.Fits) :
    readSegment (fillSegmentDescriptor dt seg) seg.selector = seg ↔ seg.Exact := by
  have hbase := seg.base.isLt
  have hlimit := seg.limit.isLt
  have hsame : readSegment (fillSegmentDescriptor dt seg) seg.selector = seg ↔
      (if seg.s = 0#8 then seg.base else BitVec.ofNat 64 (seg.base.toNat % 2 ^ 32)) = seg.base ∧
      (if seg.g = 0#8 then BitVec.ofNat 32 (seg.limit.toNat % 2 ^ 20)
        else BitVec.ofNat 32 (seg.limit.toNat / 4096 * 4096 + 4095)) = seg.limit := by
    rw [h.readSegment]
    constructor
    · intro heq
      exact ⟨congrArg Segment.base heq, congrArg Segment.limit heq⟩
    · rintro ⟨h1, h2⟩
      rw [h1, h2]
  rw [hsame]
  have hbaseIff : (if seg.s = 0#8 then seg.base
      else BitVec.ofNat 64 (seg.base.toNat % 2 ^ 32)) = seg.base ↔
      (seg.s ≠ 0#8 → seg.base.toNat < 2 ^ 32) := by
    by_cases hsys : seg.s = 0#8
    · simp [hsys]
    · rw [if_neg hsys, ← BitVec.toNat_inj, BitVec.toNat_ofNat]
      constructor
      · intro heq _
        omega
      · intro hlt
        have := hlt hsys
        omega
  have hlimitIff : (if seg.g = 0#8 then BitVec.ofNat 32 (seg.limit.toNat % 2 ^ 20)
        else BitVec.ofNat 32 (seg.limit.toNat / 4096 * 4096 + 4095)) = seg.limit ↔
      if seg.g = 0#8 then seg.limit.toNat < 2 ^ 20 else seg.limit.toNat % 4096 = 4095 := by
    by_cases hgran : seg.g = 0#8
    · rw [if_pos hgran, if_pos hgran, ← BitVec.toNat_inj, BitVec.toNat_ofNat]
      omega
    · rw [if_neg hgran, if_neg hgran, ← BitVec.toNat_inj, BitVec.toNat_ofNat]
      omega
  rw [hbaseIff, hlimitIff]
  exact ⟨fun hx => ⟨hx.2, hx.1⟩, fun hx => ⟨hx.base, hx.limit⟩⟩

/-! ## A table -/

/-- The entries that a descriptor takes. -/
def Segment.entries (seg : Segment) : Nat := if seg.s = 0#8 then 2 else 1

/-- What a segment reads as depends on its own entries only. -/
theorem readSegment_congr {dt' : Nat → U64} (h : dt' seg.index = dt seg.index)
    (hnext : seg.entries = 2 → dt' (seg.index + 1) = dt (seg.index + 1))
    (hread : readSegment dt seg.selector = seg) : readSegment dt' seg.selector = seg := by
  have hidx : dt' (seg.selector >>> 3).toNat = dt (seg.selector >>> 3).toNat := h
  have hs : BitVec.ofNat 8 (bits (dt (seg.selector >>> 3).toNat) 44 1) = seg.s :=
    congrArg Segment.s hread
  have hsame : readSegment dt' seg.selector = readSegment dt seg.selector := by
    rw [readSegment, readSegment]
    simp only [hidx]
    by_cases hsys : bits (dt (seg.selector >>> 3).toNat) 44 1 = 0
    · have hentries : seg.entries = 2 := by
        rw [Segment.entries, ← hs, hsys]
        rfl
      have hnext' : dt' ((seg.selector >>> 3).toNat + 1) = dt ((seg.selector >>> 3).toNat + 1) :=
        hnext hentries
      rw [hnext']
    · simp only [if_neg hsys]
  rw [hsame, hread]

/-- **A table that is filled in ascending order** reads as the segments at their selectors,
although every descriptor overwrites the entry behind it; and no other entry is changed. -/
theorem table_reads (segs : List Segment) (hsegs : ∀ seg ∈ segs, seg.Fits ∧ seg.Exact)
    (hasc : segs.Pairwise fun a b => a.index + a.entries ≤ b.index) (dt : Nat → U64) :
    (∀ seg ∈ segs, readSegment (segs.foldl fillSegmentDescriptor dt) seg.selector = seg) ∧
      ∀ i, (∀ seg ∈ segs, i ≠ seg.index ∧ i ≠ seg.index + 1) →
        segs.foldl fillSegmentDescriptor dt i = dt i := by
  induction segs generalizing dt with
  | nil => exact ⟨fun seg hseg => absurd hseg List.not_mem_nil, fun _ _ => rfl⟩
  | cons seg segs ih =>
      obtain ⟨hbehind, hasc'⟩ := List.pairwise_cons.mp hasc
      obtain ⟨hreads, hothers⟩ := ih (fun s hs => hsegs s (List.mem_cons_of_mem _ hs)) hasc'
        (fillSegmentDescriptor dt seg)
      obtain ⟨hfits, hexact⟩ := hsegs seg List.mem_cons_self
      -- the later segments leave the entries of this one alone
      have hkept : ∀ i, i < seg.index + seg.entries →
          segs.foldl fillSegmentDescriptor (fillSegmentDescriptor dt seg) i =
            fillSegmentDescriptor dt seg i := by
        intro i hi
        refine hothers i fun s hs => ?_
        have hle := hbehind s hs
        omega
      refine ⟨fun s hs => ?_, fun i hi => ?_⟩
      · rw [List.foldl_cons]
        rcases List.mem_cons.mp hs with rfl | hs
        · have hpos : 0 < s.entries := by
            rw [Segment.entries]
            split
            · exact Nat.two_pos
            · exact Nat.one_pos
          exact readSegment_congr (hkept _ (by omega)) (fun htwo => hkept _ (by omega))
            ((readSegment_fill_iff dt hfits).mpr hexact)
        · exact hreads s hs
      · obtain ⟨hne, hne'⟩ := hi seg List.mem_cons_self
        rw [List.foldl_cons, hothers i fun s hs => hi s (List.mem_cons_of_mem _ hs),
          fillSegmentDescriptor_other hne hne']

end

/-! ## The table of the machine -/

/-- The 32-bit code segment of `setup_long_mode`. -/
def bootstrapCode : Segment where
  base := 0#64
  limit := 0xffffffff#32
  selector := 0x08#16
  type := 11#8
  present := 1#8
  dpl := 0#8
  db := 1#8
  s := 1#8
  l := 0#8
  g := 1#8
  avl := 0#8

/-- The segments of `setup_long_mode`, in its order. -/
def longModeSegments : List Segment :=
  let seg := bootstrapCode
  let kernelCode := { seg with l := 1#8, selector := 0x10#16, db := 0#8 }
  let kernelData := { kernelCode with type := 3#8, selector := 0x18#16 }
  let userData := { kernelData with dpl := 3#8, selector := 0x28#16 }
  let userCode := { userData with type := 11#8, selector := 0x30#16 }
  [seg, kernelCode, kernelData, userData, userCode]

/-- The segment of `setup_kernel_tss`; `TSS_SIZE` of `common/tss.h` is a page. -/
def tssSegment (tssStart : U64) : Segment where
  base := tssStart
  limit := 0xfff#32
  selector := 0x40#16
  type := 9#8
  present := 1#8
  dpl := 3#8
  db := 0#8
  s := 0#8
  l := 1#8
  g := 0#8
  avl := 0#8

/-- The table after `setup_long_mode` and `setup_kernel_tss`. -/
def bootGdt (tssStart : U64) (dt : Nat → U64) : Nat → U64 :=
  fillSegmentDescriptor (longModeSegments.foldl fillSegmentDescriptor
    (Function.update dt 0 0xDEADBEEF#64)) (tssSegment tssStart)

/-- **Every selector of the machine** leads to its segment, wherever the TSS is and whatever
was in memory. -/
theorem bootGdt_reads (tssStart : U64) (dt : Nat → U64) :
    (∀ seg ∈ longModeSegments ++ [tssSegment tssStart],
      readSegment (bootGdt tssStart dt) seg.selector = seg) ∧
    bootGdt tssStart dt 0 = 0xDEADBEEF#64 ∧
    ∀ i, 10 ≤ i → bootGdt tssStart dt i = dt i := by
  have htss : (tssSegment tssStart).Fits ∧ (tssSegment tssStart).Exact :=
    ⟨⟨show 9 < 16 by decide, show 1 < 2 by decide, show 3 < 4 by decide, show 0 < 2 by decide,
      show 0 < 2 by decide, show 1 < 2 by decide, show 0 < 2 by decide, show 0 < 2 by decide⟩,
      ⟨show 0xfff < 2 ^ 20 by decide, fun h => absurd rfl h⟩⟩
  have htssIndex : (tssSegment tssStart).index = 8 := show (0x40#16 >>> 3).toNat = 8 by decide
  have hsegs : ∀ seg ∈ longModeSegments, (seg.Fits ∧ seg.Exact) ∧ 0 < seg.index ∧
      seg.index + seg.entries ≤ 8 ∧ seg.index < 8 := by
    decide
  have hasc : (longModeSegments ++ [tssSegment tssStart]).Pairwise
      fun a b => a.index + a.entries ≤ b.index := by
    refine List.pairwise_append.mpr ⟨by decide, List.pairwise_singleton _ _, fun a ha b hb => ?_⟩
    obtain rfl := List.mem_singleton.mp hb
    rw [htssIndex]
    exact (hsegs a ha).2.2.1
  have hfold : bootGdt tssStart dt = (longModeSegments ++ [tssSegment tssStart]).foldl
      fillSegmentDescriptor (Function.update dt 0 0xDEADBEEF#64) := by
    rw [List.foldl_append]
    rfl
  obtain ⟨hreads, hothers⟩ := table_reads (longModeSegments ++ [tssSegment tssStart])
    (fun seg hseg => by
      rcases List.mem_append.mp hseg with hseg | hseg
      · exact (hsegs seg hseg).1
      · obtain rfl := List.mem_singleton.mp hseg
        exact htss) hasc (Function.update dt 0 0xDEADBEEF#64)
  have hindex : ∀ seg ∈ longModeSegments ++ [tssSegment tssStart],
      0 < seg.index ∧ seg.index ≤ 8 := by
    intro seg hseg
    rcases List.mem_append.mp hseg with hseg | hseg
    · obtain ⟨-, hpos, -, hlt⟩ := hsegs seg hseg
      exact ⟨hpos, Nat.le_of_lt hlt⟩
    · obtain rfl := List.mem_singleton.mp hseg
      rw [htssIndex]
      exact ⟨Nat.succ_pos 7, Nat.le_refl 8⟩
  rw [hfold]
  refine ⟨hreads, ?_, fun i hi => ?_⟩
  · rw [hothers 0 fun seg hseg => ?_, Function.update_self]
    have := hindex seg hseg
    omega
  · rw [hothers i fun seg hseg => ?_, Function.update_of_ne (by omega)]
    have := hindex seg hseg
    omega

end BufferVM
