/-
  Vm/OwnPages.lean --- the memory of a machine whose pages show frames of their own.

  No page shows a page table or a frame that has not been handed out, and no two pages show
  the same frame.  Then a byte that is written is read back at every address with the same
  lower 39 bits, which are all that the tables look at, and at no other.
-/
import BufferVM.Vm.LoadSegment

set_option autoImplicit false

namespace BufferVM

/-- The pages of a machine show frames of their own. -/
structure Vm.Separate (vm : Vm) : Prop where
  paged : vm.Paged
  fresh : vm.Fresh
  data : ∀ v e, vm.pte v = some e → vm.IsData (pageFormat.frame e)
  apart : ∀ v w e e', vm.pte v = some e → vm.pte w = some e' →
    pageFormat.frame e = pageFormat.frame e' → pageNumber v = pageNumber w

/-- Some page shows the frame. -/
def Vm.Shows (vm : Vm) (f : Nat) : Prop := ∃ v e, vm.pte v = some e ∧ pageFormat.frame e = f

/-- The byte that is read at an address, and zero when no page is there. -/
def Vm.seen (vm : Vm) (v : U64) : BitVec 8 := (vm.readByte v).getD 0#8

/-- Two addresses that the tables do not tell apart. -/
def SameByte (v w : U64) : Prop := v.toNat % 2 ^ 39 = w.toNat % 2 ^ 39

instance (v w : U64) : Decidable (SameByte v w) := inferInstanceAs (Decidable (_ = _))

section

variable {vm vm' : Vm} {v w p virt phys flags : U64} {noOverwrite : Bool}

theorem sameByte_iff : SameByte v w ↔
    pageNumber v = pageNumber w ∧ v.toNat % 4096 = w.toNat % 4096 := by
  rw [SameByte, pageNumber, pageNumber]
  omega

/-- A physical address lies in the frame of the page's entry, as far from its beginning as the
address from that of the page. -/
theorem Vm.Paged.frame_physAddr (h : vm.Paged) (hp : getPhysAddr v vm = some p) :
    ∃ e, vm.pte v = some e ∧ frameOf p = pageFormat.frame e ∧ p.toNat % 4096 = v.toNat % 4096 := by
  rw [getPhysAddr_eq h, Option.map_eq_some_iff] at hp
  obtain ⟨e, he, rfl⟩ := hp
  have hoff := toNat_physOffset v
  have halign : (e &&& entryMask).toNat % 4096 = 0 := by
    have hlow := congrArg BitVec.toNat (show (e &&& entryMask) &&& 0xFFF#64 = 0#64 by
      rw [BitVec.and_assoc, show entryMask &&& 0xFFF#64 = 0#64 by decide, BitVec.and_zero])
    rw [BitVec.toNat_and] at hlow
    exact (Nat.and_two_pow_sub_one_eq_mod _ 12).symm.trans hlow
  have hlt := (e &&& entryMask).isLt
  have hadd : ((e &&& entryMask) + (getVirtAddrInfo v).physOffset).toNat =
      (e &&& entryMask).toNat + v.toNat % 4096 := by
    rw [BitVec.toNat_add, hoff]
    omega
  refine ⟨e, he, ?_, by omega⟩
  rw [frameOf, hadd]
  show _ = frameOf (e &&& entryMask)
  rw [frameOf]
  omega

/-- The tables do not tell the addresses apart, and they tell all others apart. -/
theorem Vm.Separate.physAddr_eq_iff (h : vm.Separate) (hp : getPhysAddr v vm = some p) :
    getPhysAddr w vm = some p ↔ SameByte w v := by
  constructor
  · intro hq
    obtain ⟨e, he, hframe, hoff⟩ := h.paged.frame_physAddr hp
    obtain ⟨e', he', hframe', hoff'⟩ := h.paged.frame_physAddr hq
    exact sameByte_iff.mpr ⟨h.apart w v e' e he' he (hframe'.symm.trans hframe),
      hoff'.symm.trans hoff⟩
  · intro hsame
    rw [getPhysAddr_congr hsame, hp]

/-! ## The entries of the pages -/

/-- Frames that no page shows may be shown at one page each. -/
theorem Vm.Separate.of_entries (h : vm.Separate) (hp : vm'.Paged) (hf : vm'.Fresh)
    (hdata : vm.KeepsData vm')
    (hnew : ∀ v e, vm'.pte v = some e → vm.pte v = some e ∨
      vm'.IsData (pageFormat.frame e) ∧ ∀ w e', vm'.pte w = some e' →
        pageFormat.frame e' = pageFormat.frame e → pageNumber w = pageNumber v) :
    vm'.Separate := by
  refine ⟨hp, hf, fun v e he => ?_, fun v w e e' he he' heq => ?_⟩
  · rcases hnew v e he with hold | ⟨hd, -⟩
    · exact hdata _ (h.data v e hold)
    · exact hd
  · rcases hnew v e he with hold | ⟨-, honly⟩
    · rcases hnew w e' he' with hold' | ⟨-, honly⟩
      · exact h.apart v w e e' hold hold' heq
      · exact honly v e he heq
    · exact (honly w e' he' heq.symm).symm

/-- The memory changes, the tables do not. -/
theorem Vm.Separate.sameTables (h : vm.Separate) (hs : vm.SameTables vm')
    (hc : vm'.pageCounter = vm.pageCounter) (hf : vm'.Fresh) : vm'.Separate :=
  h.of_entries hs.paged hf (fun f hd => (hs.isData hc f).mpr hd) fun v _ he =>
    Or.inl ((hs.pte v).symm.trans he)

theorem Vm.SameTables.shows_iff (hs : vm.SameTables vm') (f : Nat) : vm'.Shows f ↔ vm.Shows f := by
  simp only [Vm.Shows, hs.pte]

/-- What an update leaves untouched is blank if it was. -/
theorem Vm.Updates.fresh {k : Nat} {ps : Finset (List U64)} {us : List PageUpdate}
    (hu : vm.Updates vm' k ps us) (hf : vm.Fresh) : vm'.Fresh := by
  intro f i hle
  rw [hu.mem f fun ht => absurd (hu.paged.isTable_lt ht) (Nat.not_lt.mpr hle)]
  exact hf f i (hu.pageCounter_le.trans hle)

/-- Frames are handed out. -/
theorem Vm.Separate.alloc (h : vm.Separate) (n : Nat) :
    Vm.Separate { vm with pageCounter := vm.pageCounter + n } := by
  have hu := h.paged.updates_alloc n
  exact h.of_entries hu.paged (hu.fresh h.fresh) hu.keepsData fun v e he =>
    Or.inl ((hu.pte v).symm.trans he)

/-- A frame that has just been handed out holds no table, and no page shows it. -/
theorem Vm.Separate.own_alloc (h : vm.Separate) {n f : Nat} (hf : vm.pageCounter ≤ f)
    (hn : f < vm.pageCounter + n) :
    Vm.IsData { vm with pageCounter := vm.pageCounter + n } f ∧
      ¬ Vm.Shows { vm with pageCounter := vm.pageCounter + n } f := by
  have hu := h.paged.updates_alloc n
  refine ⟨⟨hn, fun ht => ?_⟩, fun hshown => ?_⟩
  · have hlt := h.paged.isTable_lt ht
    omega
  · obtain ⟨v, e, he, hfe⟩ := hshown
    have hold : vm.pte v = some e := (hu.pte v).symm.trans he
    have hlt := (h.data v e hold).lt
    omega

/-- The frame of a page that is mapped with flag bits only. -/
theorem frame_leafEntry (hflags : flags &&& ~~~flagBits = 0#64) {f : Nat} (hf : f < maxFrames) :
    pageFormat.frame (leafEntry flags (frameAddr f)) = f := by
  rw [maxFrames] at hf
  have hphys : PhysPage (frameAddr f) := ⟨pageAligned_frameAddr f, by
    rw [toNat_frameAddr (by omega)]
    omega⟩
  show frameOf (_ &&& entryMask) = _
  rw [leafEntry_and_entryMask hflags hphys, frameOf_frameAddr (by omega)]

/-- One page is mapped to a frame that no page shows. -/
theorem Vm.Separate.page (h : vm.Separate) (hflags : flags &&& ~~~flagBits = 0#64) {c : Nat}
    (hc : vm.IsData c ∧ ¬ vm.Shows c)
    (hb : (mapPhysicalPage virt (frameAddr c) flags noOverwrite vm).pageCounter ≤ maxFrames) :
    (mapPhysicalPage virt (frameAddr c) flags noOverwrite vm).Separate ∧
      ∀ f, (mapPhysicalPage virt (frameAddr c) flags noOverwrite vm).Shows f →
        vm.Shows f ∨ f = c := by
  have hle := le_pageCounter_mapPhysicalPage virt (frameAddr c) flags noOverwrite vm
  have hu := mapPhysicalPage_spec h.paged virt (frameAddr c) flags noOverwrite
    (pageAligned_frameAddr c).ne_pageCreate hb
  have hframe := frame_leafEntry hflags (hc.1.lt.trans_le (hle.trans hb))
  generalize mapPhysicalPage virt (frameAddr c) flags noOverwrite vm = vm' at *
  have hentry : ∀ v e, vm'.pte v = some e → vm.pte v = some e ∨
      pageNumber v = pageNumber virt ∧ pageFormat.frame e = c := by
    intro v e he
    have hpte : vm'.pte v = if pageNumber v = pageNumber virt then
        mapUpdate (frameAddr c) flags noOverwrite (vm.pte v) else vm.pte v := hu.pte v
    rw [hpte] at he
    split at he
    · next hv =>
        rw [mapUpdate] at he
        split at he
        · exact Or.inr ⟨hv, (Option.some.inj he) ▸ hframe⟩
        · exact Or.inl he
    · exact Or.inl he
  refine ⟨h.of_entries hu.paged (hu.fresh h.fresh) hu.keepsData fun v e he => ?_,
    fun f hf => ?_⟩
  · refine (hentry v e he).imp_right fun hnew => ?_
    obtain ⟨hv, hec⟩ := hnew
    refine ⟨hec ▸ hu.keepsData c hc.1, fun w e' he' heq => ?_⟩
    rcases hentry w e' he' with hold | ⟨hw, -⟩
    · exact absurd ⟨w, e', hold, heq.trans hec⟩ hc.2
    · exact hw.trans hv.symm
  · obtain ⟨v, e, he, hfe⟩ := hf
    rcases hentry v e he with hold | ⟨-, hec⟩
    · exact Or.inl ⟨v, e, hold, hfe⟩
    · exact Or.inr (hfe.symm.trans hec)

/-! ## A byte is written -/

/-- A write to a page leaves the tables alone. -/
theorem Vm.Separate.sameTables_setByte (h : vm.Separate) (hp : getPhysAddr v vm = some p)
    (b : BitVec 8) : vm.SameTables (vm.setByte p b) := by
  obtain ⟨e, he, hframe, -⟩ := h.paged.frame_physAddr hp
  refine h.paged.sameTables_data rfl rfl fun f hf => ?_
  have hne : f ≠ frameOf p := by
    rintro rfl
    rw [hframe] at hf
    exact hf (h.data v e he)
  funext i
  simp [Vm.setByte, Vm.setEntry, Radix.write, hne]

theorem Vm.Separate.setByte (h : vm.Separate) (hp : getPhysAddr v vm = some p) (b : BitVec 8) :
    (vm.setByte p b).Separate := by
  have hs := h.sameTables_setByte hp b
  obtain ⟨e, he, hframe, -⟩ := h.paged.frame_physAddr hp
  refine h.sameTables hs rfl fun f i hf => ?_
  have hle : vm.pageCounter ≤ f := hf
  have hne : f ≠ frameOf p := by
    rintro rfl
    rw [hframe] at hle
    exact absurd (h.data v e he).lt (Nat.not_lt.mpr hle)
  rw [← h.fresh f i hle]
  simp [Vm.setByte, Vm.setEntry, Radix.write, hne]

/-- It is read at the addresses that the tables do not tell apart from its own. -/
theorem Vm.Separate.readByte_setByte (h : vm.Separate) (hp : getPhysAddr v vm = some p)
    (b : BitVec 8) (w : U64) :
    (vm.setByte p b).readByte w = if SameByte w v then some b else vm.readByte w := by
  have hs := h.sameTables_setByte hp b
  have hphys : getPhysAddr w (vm.setByte p b) = getPhysAddr w vm := by
    rw [getPhysAddr_eq hs.paged, getPhysAddr_eq h.paged, hs.pte]
  have hread : (vm.setByte p b).readByte w =
      (getPhysAddr w vm).map fun q => if q = p then b else vm.byte q := by
    rw [Vm.readByte, hphys]
    exact congrArg (fun f => (getPhysAddr w vm).map f) (funext fun q => Vm.byte_setByte vm p q b)
  rw [hread]
  by_cases hsame : SameByte w v
  · rw [(h.physAddr_eq_iff hp).mpr hsame, if_pos hsame, Option.map_some, if_pos rfl]
  · rw [if_neg hsame, Vm.readByte]
    cases hq : getPhysAddr w vm with
    | none => rfl
    | some q =>
        have hne : q ≠ p := by
          rintro rfl
          exact hsame ((h.physAddr_eq_iff hp).mp hq)
        rw [Option.map_some, Option.map_some, if_neg hne]
        rfl

/-! ## A page is mapped -/

/-- A page is mapped to the next frame. -/
theorem Vm.Separate.mapPage (h : vm.Separate) {prot : U64}
    (hprot : prot &&& ~~~flagBits = 0#64)
    (hvm : vm' = mapPhysicalPage virt (frameAddr vm.pageCounter) prot false
      { vm with pageCounter := vm.pageCounter + 1 })
    (hb : vm'.pageCounter ≤ maxFrames) :
    vm'.Separate ∧
      (∀ w, pageNumber w = pageNumber virt → vm'.readByte w = some 0#8) ∧
      ∀ w, pageNumber w ≠ pageNumber virt → vm'.readByte w = vm.readByte w := by
  subst hvm
  have halloc := h.alloc 1
  have hown := h.own_alloc (n := 1) le_rfl (Nat.lt_succ_self vm.pageCounter)
  have hsep := (halloc.page hprot hown hb).1
  have hu := mapPhysicalPage_spec halloc.paged virt (frameAddr vm.pageCounter) prot false
    (pageAligned_frameAddr _).ne_pageCreate hb
  have hlt := (hu.keepsData _ hown.1).lt
  generalize mapPhysicalPage virt (frameAddr vm.pageCounter) prot false
    { vm with pageCounter := vm.pageCounter + 1 } = vm' at *
  have hpte : ∀ w, vm'.pte w = if pageNumber w = pageNumber virt then
      some (leafEntry prot (frameAddr vm.pageCounter)) else vm.pte w := hu.pte
  have hmem : ∀ f, Vm.IsData { vm with pageCounter := vm.pageCounter + 1 } f →
      vm'.mem f = vm.mem f := fun f hf => hu.mem f (hu.keepsData f hf).notTable
  refine ⟨hsep, fun w hw => ?_, fun w hw => ?_⟩
  · have hblank : vm.mem vm.pageCounter = zeroPage := funext fun i => h.fresh _ i le_rfl
    rw [readByte_of_pte hsep.paged hprot (hlt.trans_le hb) (by rw [hpte, if_pos hw]),
      hmem _ hown.1, hblank, byteOf_zeroPage]
  · have hphys : getPhysAddr w vm' = getPhysAddr w vm := by
      rw [getPhysAddr_eq hsep.paged, getPhysAddr_eq h.paged, hpte, if_neg hw]
    rw [Vm.readByte, Vm.readByte, hphys]
    cases hq : getPhysAddr w vm with
    | none => rfl
    | some q =>
        obtain ⟨e, he, hfe, -⟩ := h.paged.frame_physAddr hq
        have hdata := (h.paged.updates_alloc 1).keepsData _ (h.data w e he)
        rw [Option.map_some, Option.map_some, hfe, hmem _ hdata]

end

end BufferVM
