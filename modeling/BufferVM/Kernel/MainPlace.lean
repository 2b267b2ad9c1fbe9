/-
  Kernel/MainPlace.lean --- where a program is put.

  A program that may be anywhere is hinted at an address below the kernel; if its first header
  has pages of the file, the first mapping takes a free region of the size of the whole image,
  and what that header does not need of it is unmapped again.
-/
import BufferVM.Kernel.MainImage

set_option autoImplicit false

namespace BufferVM

variable {σ η : Type} {s t : St σ η} {E : Env σ η}

/-! ## Where a program is put -/

/-- The pages from the first header to the end of the last. -/
def imageSpan (phdrs : List Phdr) : Nat :=
  match (loads phdrs).head? with
  | some first => (imageEnd phdrs - first.pVaddr.toNat / 4096 * 4096 + 4095) / 4096 * 4096
  | none => 0

theorem imageSpan_cons {phdrs rest : List Phdr} {p : Phdr} (hl : loads phdrs = p :: rest) :
    imageSpan phdrs = (imageEnd phdrs - p.pVaddr.toNat / 4096 * 4096 + 4095) / 4096 * 4096 := by
  rw [imageSpan, hl]
  rfl

/-- The image may be anywhere, and its first header has pages of the file: the first mapping
takes the size of the whole image. -/
def Reserves (type : ElfType) (phdrs : List Phdr) : Prop :=
  type = .dyn ∧ ∃ p, (loads phdrs).head? = some p ∧ p.mapSize ≠ 0#64

/-- The bias of an image for which no region is reserved. -/
def mainBias (type : ElfType) (phdrs : List Phdr) (glob : Globals) : U64 :=
  match type, (loads phdrs).head? with
  | .dyn, some p => hintOffset glob p
  | _, _ => 0#64

/-- The image has its place in the address space. -/
def FitsSpace (type : ElfType) (phdrs : List Phdr) (kernelMinAddress : U64) : Prop :=
  match type with
  | .exec => imageEnd phdrs + 4095 < 2 ^ 64
  | .dyn => imageSpan phdrs ≤ kernelMinAddress.toNat

/-- What is at the addresses of the image before its headers are mapped: nothing in a region
that has been reserved for them, what the store has there otherwise. -/
def StartsFrom (s : St σ η) (type : ElfType) (phdrs : List Phdr) (bias : U64)
    (byte : U64 → Option PageByte) : Prop :=
  ∀ p ∈ loads phdrs, ∀ k, k < p.pMemsz → ((byte (p.pVaddr + bias + k)).isSome = true ↔
    ¬ Reserves type phdrs ∧ s.Covered (p.pVaddr + mainBias type phdrs s.glob + k))

section First

variable {F : E.toNodeHeap.Fresh} {gx gy : ElfProgress × Loader σ η} {phdrs rest : List Phdr}
  {p : Phdr} {dev inode stray : U64} {fd : BitVec 32}

theorem MainImage.biased_exec (h : MainImage phdrs) (hfits : imageEnd phdrs + 4095 < 2 ^ 64) :
    Biased phdrs 0#64 0 0 :=
  ⟨h, rfl, rfl, rfl, fun _ _ => Nat.zero_le _, by omega⟩

/-- No header starts before the first. -/
theorem MainImage.first_le (h : MainImage phdrs) (hl : loads phdrs = p :: rest) :
    ∀ q ∈ loads phdrs, p.pVaddr.toNat ≤ q.pVaddr.toNat := by
  have hasc := h.ascending
  rw [hl] at hasc ⊢
  intro q hq
  rcases List.mem_cons.mp hq with rfl | hq
  · exact le_rfl
  · have hle := (List.pairwise_cons.mp hasc).1 q hq
    omega

/-- `total_mapping_size`, and what is reserved for it. -/
theorem MainImage.toNat_totalMappingSize (h : MainImage phdrs) (hl : loads phdrs = p :: rest)
    (hspan : imageSpan phdrs < 2 ^ 64) :
    (totalMappingSize phdrs).toNat = imageEnd phdrs - p.pVaddr.toNat / 4096 * 4096 ∧
      (pageAlign (totalMappingSize phdrs)).toNat = imageSpan phdrs ∧
      p.pVaddr.toNat + p.pMemsz.toNat ≤ imageEnd phdrs := by
  obtain ⟨last, hlast⟩ : ∃ last, (p :: rest).getLast? = some last :=
    ⟨_, List.getLast?_eq_some_getLast (List.cons_ne_nil _ _)⟩
  have hmem : last ∈ loads phdrs := by
    rw [hl]
    exact List.mem_of_getLast? hlast
  have hend : imageEnd phdrs = last.pVaddr.toNat + last.pMemsz.toNat := by
    rw [imageEnd, hl, hlast]
  have hwrap := h.no_wrap last hmem
  have hfirst := h.first_le hl last hmem
  have hpend := le_imageEnd h.ascending (show p ∈ loads phdrs by
    rw [hl]
    exact List.mem_cons_self)
  have htotal : (totalMappingSize phdrs).toNat = imageEnd phdrs - p.pVaddr.toNat / 4096 * 4096 := by
    rw [totalMappingSize, hl, hlast, hend]
    show (last.pVaddr + last.pMemsz - pageAlignDown p.pVaddr).toNat = _
    rw [BitVec.toNat_sub, toNat_pageAlignDown, BitVec.toNat_add]
    omega
  refine ⟨htotal, ?_, hpend⟩
  rw [imageSpan, hl] at hspan ⊢
  simp only [List.head?_cons] at hspan ⊢
  rw [toNat_pageAlign, htotal]
  omega

theorem ElfProgress.next_hinted {g : ElfProgress} {v : U64} (hfound : g.foundEntry = false) :
    (g.next .dyn false p v).foundEntry = true ∧
      (g.next .dyn false p v).loadOffset =
        g.loadOffset + (v - pageAlignDown (g.loadOffset + p.pVaddr)) ∧
      (g.next .dyn false p v).maxFaddr =
        if g.maxFaddr < p.pVaddr + p.pFilesz then p.pVaddr + p.pFilesz else g.maxFaddr := by
  simp [ElfProgress.next, hfound]

theorem toNat_hintOffset (glob : Globals) (p : Phdr) :
    (hintOffset glob p).toNat =
      (glob.kernelMinAddress.toNat / 3 * 2 + 2 ^ 64 - p.pVaddr.toNat) % 2 ^ 64 / 4096 * 4096 := by
  have hk := glob.kernelMinAddress.isLt
  have hp := p.pVaddr.isLt
  have hthree : (3#64 : U64).toNat = 3 := rfl
  have htwo : (2#64 : U64).toNat = 2 := rfl
  rw [hintOffset, toNat_pageAlignDown, BitVec.toNat_sub, BitVec.toNat_mul, BitVec.toNat_udiv,
    hthree,
    htwo]
  omega

/-- The first header of a program that may be anywhere, when it has no pages of the file: it is
put where the hint says, without a look at the store. -/
theorem mainLoop_hinted (h : Linked F s) (hal : PageEdges s) (himg : MainImage phdrs)
    (hk : s.glob.kernelMinAddress.toNat ≤ 2 ^ 63)
    (hfits : imageSpan phdrs ≤ s.glob.kernelMinAddress.toNat) (hl : loads phdrs = p :: rest)
    (hzero : p.mapSize = 0#64)
    (hrun : loadPhdr E stray fd .dyn phdrs false (mainStart, ⟨s, [], []⟩) p = some gy) :
    ∃ bias origin base byte, Biased phdrs bias origin base ∧ StartsFrom s .dyn phdrs bias byte ∧
      MainLoop F 6 s .dyn bias dev inode byte [p] gy := by
  have hmem : p ∈ loads phdrs := by
    rw [hl]
    exact List.mem_cons_self
  have hload : p.pType = ptLoad := by simpa using (List.mem_filter.mp hmem).2
  obtain ⟨-, v, y, hmap, -, -, rfl⟩ := loadPhdr_hinted hload rfl hrun
  rw [elfMap, if_pos hzero] at hmap
  obtain ⟨rfl, rfl⟩ := Prod.mk.inj (Option.some.inj hmap)
  obtain ⟨htotal, -, hend⟩ := himg.toNat_totalMappingSize hl (by omega)
  have hspan := imageSpan_cons hl
  have hle := BitVec.le_def.mp (himg.filesz_le p hmem)
  have hwrap := himg.no_wrap p hmem
  have hsize : p.pFilesz.toNat = 0 ∧ p.pVaddr.toNat % 4096 = 0 := by
    have h0 : p.mapSize.toNat = 0 := by
      rw [hzero]
      rfl
    rw [p.toNat_mapSize (by omega)] at h0
    omega
  have hhint := toNat_hintOffset s.glob p
  have hb : Biased phdrs (hintOffset s.glob p) p.pVaddr.toNat
      (s.glob.kernelMinAddress.toNat / 3 * 2 / 4096 * 4096) := by
    refine ⟨himg, by omega, hsize.2, by omega, himg.first_le hl, by omega⟩
  obtain ⟨hnext₁, hnext₂, hnext₃⟩ := ElfProgress.next_hinted (p := p)
    (v := pageAlignDown (p.pVaddr + hintOffset s.glob p)) (g := { mainStart with
      totalSize := totalMappingSize phdrs, loadOffset := hintOffset s.glob p }) rfl
  refine ⟨hintOffset s.glob p, _, _, s.byte, hb, fun q hq k hk => ?_,
    ⟨h, hal, rfl, Nat.le_add_right _ _,
    fun a => ?_⟩, Or.inr hnext₁, ?_, ?_, fun _ _ => List.not_mem_nil⟩
  · have hnot : ¬ Reserves .dyn phdrs := by
      rw [Reserves, hl]
      rintro ⟨-, q, hq, hne⟩
      obtain rfl := Option.some.inj hq
      exact hne hzero
    have hbias : mainBias .dyn phdrs s.glob = hintOffset s.glob p := by
      simp only [mainBias, hl, List.head?_cons]
    rw [hbias, St.byte_isSome, and_iff_right hnot]
  · rw [← List.nil_append [p], imageBytes_append hb.align, fileBytes, hzero,
      if_neg (BitVec.not_lt.mpr (BitVec.le_def.mpr (Nat.zero_le _)))]
    rfl
  · show (ElfProgress.next .dyn false p _ _).loadOffset = _
    rw [hnext₂]
    show hintOffset s.glob p + (pageAlignDown (p.pVaddr + hintOffset s.glob p) -
      pageAlignDown (hintOffset s.glob p + p.pVaddr)) = _
    rw [BitVec.add_comm p.pVaddr, BitVec.sub_self, BitVec.add_zero]
  · show (ElfProgress.next .dyn false p _ _).maxFaddr.toNat = _
    rw [hnext₃]
    exact toNat_maxFaddr rfl (himg.file_no_wrap hmem)

/-- The load offset that the first header leaves does not depend on its hint. -/
theorem hintOffset_add_sub (g : Globals) (p : Phdr) (v : U64) :
    hintOffset g p + (v - pageAlignDown (hintOffset g p + p.pVaddr)) =
      v - pageAlignDown p.pVaddr := by
  have hhint : (hintOffset g p).toNat % 4096 = 0 := by
    rw [toNat_hintOffset]
    omega
  have hself : pageAlignDown p.pVaddr = p.pVaddr - pageOffset p.pVaddr := by
    have hzero : pageAlignDown (p.pVaddr + 0#64) = p.pVaddr + 0#64 - pageOffset p.pVaddr :=
      pageAlignDown_bias p.pVaddr rfl
    rwa [BitVec.add_zero] at hzero
  rw [BitVec.add_comm (hintOffset g p) p.pVaddr, pageAlignDown_bias p.pVaddr hhint, hself]
  generalize pageOffset p.pVaddr = o
  generalize hintOffset g p = hint
  bv_omega

/-- An image in a region of its own. -/
theorem MainImage.biased_region (himg : MainImage phdrs) (hl : loads phdrs = p :: rest) {v : U64}
    (halign : v.toNat % 4096 = 0) (hfit : v.toNat + imageSpan phdrs ≤ 2 ^ 63) :
    Biased phdrs (v - pageAlignDown p.pVaddr) (p.pVaddr.toNat / 4096 * 4096) v.toNat := by
  have hspan := imageSpan_cons hl
  refine ⟨himg, ?_, by omega, halign, fun q hq => ?_, by omega⟩
  · have hcancel := congrArg BitVec.toNat (BitVec.sub_add_cancel v (pageAlignDown p.pVaddr))
    rwa [BitVec.toNat_add, toNat_pageAlignDown] at hcancel
  · have hfirst := himg.first_le hl q hq
    omega

/-- The first header of a program that may be anywhere, in the region that is found for the
whole image. -/
theorem mainLoop_reserved (h : Linked F s) (hal : PageEdges s) (hav : 6 ≤ F.avail s.heap)
    (hdup : DupSucceeds E) (hfd : fd ≠ noFd) (hfile : IsFile E fd dev inode)
    (himg : MainImage phdrs) (hk : s.glob.kernelMinAddress.toNat ≤ 2 ^ 63)
    (hfits : imageSpan phdrs ≤ s.glob.kernelMinAddress.toNat) (hl : loads phdrs = p :: rest)
    (hzero : p.mapSize ≠ 0#64)
    (hun : ∀ q host, mainRequest E stray fd .dyn phdrs mainStart s p = some (some q, host) →
      q.Unmerged s.regions)
    (hrun : loadPhdr E stray fd .dyn phdrs false (mainStart, ⟨s, [], []⟩) p = some gy) :
    ∃ bias origin base byte, Biased phdrs bias origin base ∧ StartsFrom s .dyn phdrs bias byte ∧
      MainLoop F 6 s .dyn bias dev inode byte [p] gy := by
  have hmem : p ∈ loads phdrs := by
    rw [hl]
    exact List.mem_cons_self
  have hload : p.pType = ptLoad := by simpa using (List.mem_filter.mp hmem).2
  obtain ⟨htotal, v, y, hmap, hv, hlt, rfl⟩ := loadPhdr_hinted hload rfl hrun
  obtain ⟨hsize, hspanSize, hend⟩ := himg.toNat_totalMappingSize hl (by omega)
  have hspan := imageSpan_cons hl
  have hle := BitVec.le_def.mp (himg.filesz_le p hmem)
  have hwrap := himg.no_wrap p hmem
  have hmapSize := p.toNat_mapSize (by omega)
  have hmapAlign : p.mapSize.toNat % 4096 = 0 := by
    rw [hmapSize]
    exact Nat.mul_mod_left _ _
  have hmapLe : p.mapSize ≤ pageAlign (totalMappingSize phdrs) := by
    rw [BitVec.le_def, hmapSize, hspanSize, hspan]
    exact Nat.mul_le_mul_right 4096 (Nat.div_le_div_right (by omega))
  have hroom : pageAlign (totalMappingSize phdrs) ≤ s.glob.kernelMinAddress :=
    BitVec.le_def.mpr (by omega)
  obtain ⟨halign, hfit, -, ⟨cs, hcs, hclean⟩, hpaged⟩ :=
      elfMap_reserve h hal hav hdup hfd hfile htotal rfl hzero hmapAlign hmapLe hroom
    (fun q host hq => by
      apply hun q host
      simp only [mainRequest, if_neg hzero, reduceCtorEq, mainStart, Bool.false_eq_true, or_self,
        if_false]
      exact hq) hmap hv hlt
  rw [hspanSize] at hfit
  have hb := himg.biased_region hl halign (hfit.trans hk)
  have hplace : pageAlignDown (p.pVaddr + (v - pageAlignDown p.pVaddr)) = v := by
    apply BitVec.eq_of_toNat_eq
    rw [(hb.toNat_pages hmem).1]
    omega
  obtain ⟨hnext₁, hnext₂, hnext₃⟩ := ElfProgress.next_hinted (p := p) (v := v)
    (g := { mainStart with
      totalSize := totalMappingSize phdrs, loadOffset := hintOffset s.glob p }) rfl
  refine ⟨v - pageAlignDown p.pVaddr, _, _,
    regionBytes v (pageAlign (totalMappingSize phdrs)) s.byte, hb, fun q hq k hkm => ?_,
    ⟨hpaged.linked, hpaged.edges, hpaged.glob, hpaged.avail, fun a => ?_⟩, Or.inr hnext₁, ?_, ?_,
    fun addr length hc => ?_⟩
  · have hres : Reserves .dyn phdrs := ⟨rfl, p, by rw [hl]; rfl, hzero⟩
    have haddr := hb.toNat_addr hq (k := k) (BitVec.le_of_lt hkm)
    have hqend := le_imageEnd himg.ascending hq
    have hqlow := hb.origin_le q hq
    have hkm' := BitVec.lt_def.mp hkm
    have hin : q.pVaddr + (v - pageAlignDown p.pVaddr) + k - v < pageAlign
        (totalMappingSize phdrs) := by
      have hge : v ≤ q.pVaddr + (v - pageAlignDown p.pVaddr) + k :=
        BitVec.le_def.mpr (haddr ▸ Nat.le_add_right_of_le (Nat.le_add_right _ _))
      rw [BitVec.lt_def, BitVec.toNat_sub_of_le hge, haddr, hspanSize, hspan]
      omega
    rw [regionBytes, if_pos hin]
    simp [hres]
  · rw [← List.nil_append [p], imageBytes_append hb.align, hplace]
    exact hpaged.byte a
  · show (ElfProgress.next .dyn false p _ _).loadOffset = _
    rw [hnext₂]
    show hintOffset s.glob p + (v - pageAlignDown (hintOffset s.glob p + p.pVaddr)) = _
    exact hintOffset_add_sub s.glob p v
  · show (ElfProgress.next .dyn false p _ _).maxFaddr.toNat = _
    rw [hnext₃]
    exact toNat_maxFaddr rfl (himg.file_no_wrap hmem)
  · have hc' : ElfCall.memset addr length ∈ cs := by
      rw [← List.nil_append cs, ← hcs]
      exact hc
    exact hclean addr length hc'

/-- The loop over all headers of a program that has one. -/
theorem mainLoop_all (h : Linked F s) (hal : PageEdges s) (hdup : DupSucceeds E) (hfd : fd ≠ noFd)
    (hfile : IsFile E fd dev inode) (himg : MainImage phdrs)
    (hk : s.glob.kernelMinAddress.toNat ≤ 2 ^ 63) {type : ElfType}
    (hfits : FitsSpace type phdrs s.glob.kernelMinAddress) (hl : loads phdrs = p :: rest)
    (hav : 3 * ((loads phdrs).length + 1) ≤ F.avail s.heap)
    (hnone : NoneMerged E stray fd type phdrs s)
    (hrun : (loads phdrs).foldlM (loadPhdr E stray fd type phdrs false) (mainStart, ⟨s, [], []⟩) =
      some gy) :
    ∃ l bias origin base byte, Biased phdrs bias origin base ∧ StartsFrom s type phdrs bias byte ∧
      MainLoop F l s type bias dev inode byte (loads phdrs) gy := by
  cases type with
  | exec =>
      have hb := himg.biased_exec hfits
      have hstart : MainLoop F 0 s .exec 0#64 dev inode s.byte [] (mainStart, ⟨s, [], []⟩) :=
        ⟨⟨h, hal, rfl, le_rfl, fun _ => rfl⟩, Or.inl rfl, rfl, rfl, fun _ _ => List.not_mem_nil⟩
      have hall : loads phdrs = [] ++ loads phdrs := rfl
      obtain ⟨l, hloop⟩ := hstart.run (by omega) hdup hfd hfile hb hall hnone rfl hrun
      refine ⟨l, 0#64, 0, 0, s.byte, hb, fun q hq k hk => ?_, hloop⟩
      have hnot : ¬ Reserves .exec phdrs := fun hres => by cases hres.1
      rw [St.byte_isSome, and_iff_right hnot, mainBias]
      simp
  | dyn =>
      rw [hl, List.length_cons] at hav
      rw [hl, List.foldlM_cons] at hrun
      obtain ⟨gx, hfirst, hrest⟩ := Option.bind_eq_some_iff.mp hrun
      obtain ⟨bias, origin, base, byte, hb, hstart, hloop⟩ : ∃ bias origin base byte,
          Biased phdrs bias origin base ∧ StartsFrom s .dyn phdrs bias byte ∧
            MainLoop F 6 s .dyn bias dev inode byte [p] gx := by
        by_cases hzero : p.mapSize = 0#64
        · exact mainLoop_hinted h hal himg hk hfits hl hzero hfirst
        · exact mainLoop_reserved h hal (by omega) hdup hfd hfile himg hk hfits hl hzero
            (fun q host hq => hnone [] p rest mainStart ⟨s, [], []⟩ q host hl rfl hq) hfirst
      obtain ⟨l, hloop'⟩ := hloop.run (by omega) hdup hfd hfile hb hl hnone (by
        rw [List.foldlM_cons, hfirst]
        rfl) hrest
      exact ⟨l, bias, origin, base, byte, hb, hstart, hloop'⟩

end First

end BufferVM
