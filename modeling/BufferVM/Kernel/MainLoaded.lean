/-
  Kernel/MainLoaded.lean --- the program itself is loaded without its zeroed end.

  Every file part of a header is mapped, and the rest of the page on which the last file part
  ends is cleared.  `do_brk` is called for an interpreter only: of a header that is longer in
  memory than in the file, the pages behind the file are in no VMA, unless another header has
  them.
-/
import BufferVM.Kernel.MainPlace

set_option autoImplicit false

namespace BufferVM

variable {σ η : Type} {s t : St σ η} {E : Env σ η}

/-! ## What is loaded -/

/-- The loader has cleared a byte. -/
def Loader.zeroed (x : Loader σ η) (a : U64) : Bool :=
  x.calls.any fun c =>
    match c with
    | .memset addr length => decide (a - addr < length)
    | _ => false

/-- What is read at an address when the loader has come back: it clears memory after it has
mapped the file. -/
def Loader.reads (x : Loader σ η) (a : U64) : Option PageByte :=
  (x.store.byte a).map fun b => if x.zeroed a = true then .zero else b

/-- No segment of the image ends behind that of the header. -/
def Highest (phdrs : List Phdr) (p : Phdr) : Prop :=
  ∀ q ∈ loads phdrs, q.pVaddr.toNat + q.pMemsz.toNat ≤ p.pVaddr.toNat + p.pMemsz.toNat

/-- The image is loaded completely: the segments are in memory, their file parts are read from
the file, where the last header that is mapped on a page wins, and the last segment is zero behind
its file part. -/
structure LoadedWhole (dev inode : U64) (phdrs : List Phdr) (r : ElfLoaded) (x : Loader σ η) :
    Prop where
  covered : ∀ p ∈ loads phdrs, ∀ k, k < p.pMemsz → x.store.Covered (p.pVaddr + r.elfBias + k)
  file : ∀ p ∈ loads phdrs, ∀ k, k < p.pFilesz →
    ∃ q, lastOn r.elfBias (loads phdrs) (p.pVaddr + r.elfBias + k) = some q ∧
      x.reads (p.pVaddr + r.elfBias + k) =
        some (.file dev inode (q.fileOffset r.elfBias (p.pVaddr + r.elfBias + k)))
  zero : ∀ p ∈ loads phdrs, Highest phdrs p → ∀ k, p.pFilesz ≤ k → k < p.pMemsz →
    x.reads (p.pVaddr + r.elfBias + k) = some .zero

/-- Behind their file parts, the segments have only addresses on pages of file parts, or ones that
the store has had before; and the last of them ends on the page on which the file ends. -/
structure BssOnFilePages (type : ElfType) (phdrs : List Phdr) (s : St σ η) : Prop where
  pages : ∀ p ∈ loads phdrs, ∀ k, p.pFilesz ≤ k → k < p.pMemsz →
    (∃ q ∈ loads phdrs, q.OnPage 0#64 (p.pVaddr + k)) ∨
      ¬ Reserves type phdrs ∧ s.Covered (p.pVaddr + mainBias type phdrs s.glob + k)
  highest : ∀ p ∈ loads phdrs, Highest phdrs p → p.pFilesz = p.pMemsz ∨
    p.pVaddr.toNat + p.pFilesz.toNat = fileEnd (loads phdrs) ∧
      p.pVaddr.toNat + p.pMemsz.toNat ≤ (fileEnd (loads phdrs) + 4095) / 4096 * 4096

section Loaded

variable {F : E.toNodeHeap.Fresh} {phdrs : List Phdr} {p : Phdr} {dev inode bias stray : U64}
  {fd : BitVec 32} {type : ElfType} {origin base l : Nat} {byte : U64 → Option PageByte}
  {g : ElfProgress} {x y : Loader σ η} {r : ElfLoaded} {k : U64}

theorem St.byte_ne_zero (s : St σ η) (a : U64) : s.byte a ≠ some .zero := by
  rw [St.byte]
  intro h
  obtain ⟨m, -, hm⟩ := Option.map_eq_some_iff.mp h
  rw [PageMeaning.byte] at hm
  split at hm
  · cases hm
  · cases hm

theorem Loader.reads_eq_zero {a : U64} :
    x.reads a = some .zero ↔ x.zeroed a = true ∧ x.store.Covered a := by
  rw [← St.byte_isSome, Loader.reads]
  cases hb : x.store.byte a with
  | none => simp
  | some b =>
      have hne : b ≠ .zero := fun h => x.store.byte_ne_zero a (by rw [hb, h])
      by_cases hz : x.zeroed a = true
      · simp [hz]
      · simp [hz, hne]

/-- The end of the loader for a program. -/
theorem loadElf64PgHdrs_main
    (hrun : loadElf64PgHdrs E stray fd type phdrs false s = some (r, x)) :
    ∃ g y, (loads phdrs).foldlM (loadPhdr E stray fd type phdrs false) (mainStart, ⟨s, [], []⟩) =
        some (g, y) ∧ r.elfBias = g.loadOffset ∧ x = y.padZero (g.maxFaddr + g.loadOffset) := by
  simp only [loadElf64PgHdrs, Bool.false_eq_true, if_false, false_and, Option.bind_eq_bind,
    Option.bind_eq_some_iff] at hrun
  obtain ⟨⟨g, y⟩, hloop, hrun⟩ := hrun
  rw [foldlM_loads] at hloop
  obtain ⟨rfl, rfl⟩ := Prod.mk.inj (Option.some.inj hrun)
  exact ⟨g, y, hloop, rfl, rfl⟩

theorem Loader.store_padZero (y : Loader σ η) (e : U64) : (y.padZero e).store = y.store := by
  rw [Loader.padZero]
  split
  · rfl
  · rfl

theorem Loader.zeroed_padZero (hclean : ∀ addr length, .memset addr length ∉ y.calls) (e a : U64) :
    (y.padZero e).zeroed a = true ↔ pageOffset e ≠ 0#64 ∧ a - e < pageSize - pageOffset e := by
  have hold : y.zeroed a = false := by
    rw [Loader.zeroed, List.any_eq_false]
    intro c hc
    cases c with
    | memset addr length => exact absurd hc (hclean addr length)
    | mmap addr length flags mapAddr => simp
    | munmap addr length => simp
    | doBrk addr length => simp
  rw [Loader.padZero]
  by_cases hoff : pageOffset e = 0#64
  · rw [if_neg (not_not.mpr hoff), hold]
    simp [hoff]
  · rw [if_pos hoff, Loader.zeroed, List.any_append, ← Loader.zeroed, hold]
    simp [hoff]

/-- The bytes of a segment that are cleared: those behind the file on its last page. -/
theorem MainLoop.zeroed_iff (h : MainLoop F l s type bias dev inode byte (loads phdrs) (g, y))
    (hb : Biased phdrs bias origin base) (hp : p ∈ loads phdrs) (hk : k < p.pMemsz) :
    (y.padZero (g.maxFaddr + bias)).zeroed (p.pVaddr + bias + k) = true ↔
      fileEnd (loads phdrs) ≤ p.pVaddr.toNat + k.toNat ∧
        p.pVaddr.toNat + k.toNat < (fileEnd (loads phdrs) + 4095) / 4096 * 4096 := by
  have hfaddr := h.maxFaddr
  simp only at hfaddr
  have hle : fileEnd (loads phdrs) ≤ imageEnd phdrs := by
    apply fileEnd_le
    intro q hq
    have h1 := le_imageEnd hb.image.ascending hq
    have h2 := BitVec.le_def.mp (hb.image.filesz_le q hq)
    omega
  have hge := le_fileEnd hp
  have h1 := hb.bias_eq
  have h2 := hb.origin_align
  have h3 := hb.base_align
  have h4 := hb.origin_le p hp
  have h5 := hb.fits
  have h6 := hb.toNat_addr hp (BitVec.le_of_lt hk)
  have h7 := le_imageEnd hb.image.ascending hp
  have h8 := BitVec.lt_def.mp hk
  have hend : (g.maxFaddr + bias).toNat = base + (fileEnd (loads phdrs) - origin) := by
    rw [BitVec.toNat_add]
    omega
  have hoff := toNat_pageOffset (g.maxFaddr + bias)
  have hzero : pageOffset (g.maxFaddr + bias) ≠ 0#64 ↔ fileEnd (loads phdrs) % 4096 ≠ 0 := by
    rw [Ne, pageOffset_eq_zero_iff, hend]
    omega
  have hpage : (pageSize - pageOffset (g.maxFaddr + bias)).toNat =
      4096 - fileEnd (loads phdrs) % 4096 := by
    have hsize : pageSize.toNat = 4096 := rfl
    rw [BitVec.toNat_sub, hoff, hsize, hend]
    omega
  rw [Loader.zeroed_padZero h.clean, hzero, BitVec.lt_def, hpage, BitVec.toNat_sub, hend, h6]
  omega

/-- The addresses of a segment that are in a VMA. -/
theorem MainLoop.covered_iff (h : MainLoop F l s type bias dev inode byte (loads phdrs) (g, y))
    (hb : Biased phdrs bias origin base) (hstart : StartsFrom s type phdrs bias byte)
    (hp : p ∈ loads phdrs) (hk : k < p.pMemsz) :
    y.store.Covered (p.pVaddr + bias + k) ↔
      (∃ q ∈ loads phdrs, q.OnPage 0#64 (p.pVaddr + k)) ∨
        ¬ Reserves type phdrs ∧ s.Covered (p.pVaddr + mainBias type phdrs s.glob + k) := by
  have hbyte := h.paged.byte
  simp only at hbyte
  have hpage : (∃ q ∈ loads phdrs, q.OnPage 0#64 (p.pVaddr + k)) ↔
      (lastOn bias (loads phdrs) (p.pVaddr + bias + k)).isSome = true := by
    rw [lastOn_isSome]
    have hswap : p.pVaddr + bias + k = p.pVaddr + k + bias := by bv_omega
    rw [hswap]
    simp only [Phdr.onPage_bias hb.align]
  rw [← St.byte_isSome, hbyte, ← hstart p hp k hk, hpage, imageBytes]
  cases lastOn bias (loads phdrs) (p.pVaddr + bias + k) with
  | none => simp
  | some q => simp

/-- What has been cleared and mapped decides whether the image is loaded completely. -/
theorem MainLoop.loadedWhole_iff
    (h : MainLoop F l s type bias dev inode byte (loads phdrs) (g, y))
    (hb : Biased phdrs bias origin base) (hstart : StartsFrom s type phdrs bias byte)
    (hr : r.elfBias = bias) :
    LoadedWhole dev inode phdrs r (y.padZero (g.maxFaddr + bias)) ↔
      BssOnFilePages type phdrs s := by
  have hstore := y.store_padZero (g.maxFaddr + bias)
  have hlt : ∀ {p : Phdr} {k : U64}, p ∈ loads phdrs → k < p.pFilesz → k < p.pMemsz := by
    intro p k hp hk
    have h1 := BitVec.lt_def.mp hk
    have h2 := BitVec.le_def.mp (hb.image.filesz_le p hp)
    exact BitVec.lt_def.mpr (by omega)
  constructor
  · intro hwhole
    refine ⟨fun p hp k _ hk => ?_, fun p hp hhigh => ?_⟩
    · have hcov := hwhole.covered p hp k hk
      rw [hstore, hr] at hcov
      exact (h.covered_iff hb hstart hp hk).mp hcov
    · by_cases hne : p.pFilesz = p.pMemsz
      · exact Or.inl hne
      · right
        have h1 := BitVec.le_def.mp (hb.image.filesz_le p hp)
        have h2 : p.pFilesz.toNat ≠ p.pMemsz.toNat := fun heq => hne (BitVec.eq_of_toNat_eq heq)
        have hzeroed : ∀ k, p.pFilesz ≤ k → k < p.pMemsz →
            fileEnd (loads phdrs) ≤ p.pVaddr.toNat + k.toNat ∧
              p.pVaddr.toNat + k.toNat < (fileEnd (loads phdrs) + 4095) / 4096 * 4096 := by
          intro k hfk hk
          have hread := hwhole.zero p hp hhigh k hfk hk
          rw [hr] at hread
          exact (h.zeroed_iff hb hp hk).mp (Loader.reads_eq_zero.mp hread).1
        -- the first byte behind the file part, and the last of the segment
        obtain ⟨hfirst, -⟩ := hzeroed p.pFilesz (BitVec.le_refl _) (BitVec.lt_def.mpr (by omega))
        have hlast : (p.pMemsz - 1#64).toNat = p.pMemsz.toNat - 1 := by bv_omega
        obtain ⟨-, hend⟩ := hzeroed (p.pMemsz - 1#64) (BitVec.le_def.mpr (by omega))
          (BitVec.lt_def.mpr (by omega))
        have hfile := le_fileEnd hp
        exact ⟨by omega, by omega⟩
  · intro hbss
    have hcovered : ∀ p ∈ loads phdrs, ∀ k, k < p.pMemsz →
        (y.padZero (g.maxFaddr + bias)).store.Covered (p.pVaddr + r.elfBias + k) := by
      intro p hp k hk
      rw [hstore, hr]
      apply (h.covered_iff hb hstart hp hk).mpr
      by_cases hfk : k < p.pFilesz
      · left
        refine ⟨p, hp, (Phdr.onPage_bias hb.align _).mp ?_⟩
        have hon := hb.onPage hp hfk
        have hswap : p.pVaddr + bias + k = p.pVaddr + k + bias := by bv_omega
        rw [hswap] at hon
        exact hon
      · exact hbss.pages p hp k (BitVec.not_lt.mp hfk) hk
    refine ⟨hcovered, fun p hp k hk => ?_, fun p hp hhigh k hfk hk => ?_⟩
    · have hon := hb.onPage hp hk
      obtain ⟨q, hq⟩ := Option.isSome_iff_exists.mp (lastOn_isSome.mpr ⟨p, hp, hon⟩)
      have hnot : ¬ (y.padZero (g.maxFaddr + bias)).zeroed (p.pVaddr + bias + k) = true := by
        rw [h.zeroed_iff hb hp (hlt hp hk)]
        have h1 := le_fileEnd hp
        have h2 := BitVec.lt_def.mp hk
        omega
      have hbyte := h.paged.byte (p.pVaddr + bias + k)
      simp only [imageBytes, hq] at hbyte
      rw [hr]
      refine ⟨q, hq, ?_⟩
      rw [Loader.reads, hstore, hbyte, Option.map_some, if_neg hnot]
    · have hcov := hcovered p hp k hk
      rw [hr] at hcov ⊢
      refine Loader.reads_eq_zero.mpr ⟨(h.zeroed_iff hb hp hk).mpr ?_, hcov⟩
      have h1 := BitVec.le_def.mp hfk
      have h2 := BitVec.lt_def.mp hk
      rcases hbss.highest p hp hhigh with heq | ⟨hfile, hpage⟩
      · rw [heq] at h1
        omega
      · omega

/-- **A program is loaded completely only if it needs no pages behind the file.**  The pages
of the segments behind their file parts are in a VMA, and the last segment is zero there, exactly
when they are pages of file parts. -/
theorem mainImage_loadedWhole_iff (F : E.toNodeHeap.Fresh) (hs : Valid s) (ho : NodesOwned F s)
    (hal : PageEdges s) (hk : s.glob.kernelMinAddress.toNat ≤ 2 ^ 63) (hdup : DupSucceeds E)
    (hfd : fd ≠ noFd) (hfile : IsFile E fd dev inode) (himg : MainImage phdrs)
    (hfits : FitsSpace type phdrs s.glob.kernelMinAddress)
    (hav : 3 * ((loads phdrs).length + 1) ≤ F.avail s.heap)
    (hnone : NoneMerged E stray fd type phdrs s)
    (hrun : loadElf64PgHdrs E stray fd type phdrs false s = some (r, x)) :
    LoadedWhole dev inode phdrs r x ↔ BssOnFilePages type phdrs s := by
  obtain ⟨g, y, hloop, hr, rfl⟩ := loadElf64PgHdrs_main hrun
  cases hl : loads phdrs with
  | nil =>
      have hno : ∀ p, p ∉ loads phdrs := by
        rw [hl]
        exact fun p => List.not_mem_nil
      exact ⟨fun _ => ⟨fun p hp => absurd hp (hno p), fun p hp => absurd hp (hno p)⟩,
        fun _ => ⟨fun p hp => absurd hp (hno p), fun p hp => absurd hp (hno p),
          fun p hp => absurd hp (hno p)⟩⟩
  | cons p rest =>
      obtain ⟨l, bias, origin, base, byte, hb, hstart, hmain⟩ := mainLoop_all
        (hs.linked F ho) hal hdup
        hfd hfile himg hk hfits hl hav hnone hloop
      have hoff := hmain.loadOffset
      simp only at hoff
      rw [hoff] at hr ⊢
      exact hmain.loadedWhole_iff hb hstart hr

end Loaded

/-- A program whose only segment goes on behind the file, on the same page. -/
def tightProgram : List Phdr := [⟨ptLoad, pfR ||| pfW, 0#64, 0x6000#64, 0x100#64, 0x200#64⟩]

/-- It is loaded completely on the small machine. -/
theorem mainImage_loadedWhole_tight :
    ∃ r x, loadElf64PgHdrs quietEnv 0#64 3#32 .dyn tightProgram false (oneVmaStore .black) =
        some (r, x) ∧ LoadedWhole 0#64 0#64 tightProgram r x := by
  have hfits : FitsSpace .dyn tightProgram (oneVmaStore .black).glob.kernelMinAddress := by
    show imageSpan tightProgram ≤ 0x10000
    decide
  have hsome : (loadElf64PgHdrs quietEnv 0#64 3#32 .dyn tightProgram false
      (oneVmaStore .black)).isSome := by
    decide +kernel
  obtain ⟨⟨r, x⟩, hrun⟩ := Option.isSome_iff_exists.mp hsome
  have hnone : NoneMerged quietEnv 0#64 3#32 .dyn tightProgram (oneVmaStore .black) := by
    intro done p rest g x q host hall hdone hq
    have hrequest : (mainRequest quietEnv 0#64 3#32 .dyn tightProgram mainStart (oneVmaStore .black)
        ⟨ptLoad, pfR ||| pfW, 0#64, 0x6000#64, 0x100#64, 0x200#64⟩).map (fun x => x.1.map fun q =>
          decide (¬ q.MeetsFront (oneVmaStore .black).regions ∧
            ¬ q.MeetsBack (oneVmaStore .black).regions)) = some (some true) := by
      decide +kernel
    cases done with
    | nil =>
        obtain ⟨rfl, -⟩ := List.cons.inj hall
        obtain ⟨rfl, rfl⟩ := Prod.mk.inj (Option.some.inj hdone)
        rw [hq] at hrequest
        obtain ⟨hfront, hback⟩ := of_decide_eq_true (Option.some.inj (Option.some.inj hrequest))
        exact ⟨hfront, hback⟩
    | cons d done =>
        have htail : ([] : List Phdr) = done ++ p :: rest := (List.cons.inj hall).2
        simp at htail
  refine ⟨r, x, hrun, (mainImage_loadedWhole_iff (E := quietEnv) bumpFresh valid_oneVmaStore
    (nodesOwned_oneVmaStore .black) ?_ (by decide) ⟨fun _ _ h => h, fun _ => rfl⟩ (by decide)
    (fun _ => rfl) ⟨by decide, by decide, by decide⟩ hfits (by decide +kernel) hnone hrun).mpr
    ⟨fun p hp k hfk hk => ?_, fun p hp _ => ?_⟩⟩
  · rw [PageEdges, EdgesIn]
    decide +kernel
  · obtain rfl := List.mem_singleton.mp hp
    left
    refine ⟨_, List.mem_cons_self, ?_⟩
    have hsize : Phdr.mapSize ⟨ptLoad, pfR ||| pfW, 0#64, 0x6000#64, 0x100#64, 0x200#64⟩ =
        0x1000#64 := by
      decide
    have hdown : pageAlignDown (0x6000#64 + 0#64) = 0x6000#64 := by decide
    rw [Phdr.OnPage, hsize, hdown]
    simp only at hk
    bv_omega
  · obtain rfl := List.mem_singleton.mp hp
    right
    decide

/-- A program whose only segment has a page more in memory than in the file. -/
def bssProgram : List Phdr := [⟨ptLoad, pfR ||| pfW, 0#64, 0x6000#64, 0x100#64, 0x2000#64⟩]

/-- The loader comes back without that page. -/
theorem bss_not_mapped :
    MainImage bssProgram ∧
    ∃ r x, loadElf64PgHdrs quietEnv 0#64 3#32 .exec bssProgram false (oneVmaStore .black) =
        some (r, x) ∧ ¬ LoadedWhole 0#64 0#64 bssProgram r x := by
  have hrun : (loadElf64PgHdrs quietEnv 0#64 3#32 .exec bssProgram false (oneVmaStore .black)).map
      (fun y => (y.1.elfBias, y.2.store.regions.map fun r => (r.startAddr, r.endAddr))) =
        some (0#64, [(0x1000#64, 0x5000#64), (0x6000#64, 0x7000#64)]) := by
    decide +kernel
  obtain ⟨⟨r, x⟩, hload, hx⟩ := Option.map_eq_some_iff.mp hrun
  obtain ⟨hbias, hregions⟩ := Prod.mk.inj hx
  refine ⟨⟨by decide, by decide, by decide⟩, r, x, hload, fun hwhole => ?_⟩
  obtain ⟨z, hz, hcov⟩ := hwhole.covered _ List.mem_cons_self 0x1000#64 (by decide)
  have hmem := List.mem_map_of_mem (f := fun r => (r.startAddr, r.endAddr)) hz
  rw [hregions] at hmem
  simp only at hbias
  rw [hbias] at hcov
  obtain ⟨hlow, hhigh⟩ := hcov
  rcases List.mem_cons.mp hmem with heq | hmem
  · obtain ⟨-, h2⟩ := Prod.mk.inj heq
    rw [h2] at hhigh
    exact absurd hhigh (by decide)
  · obtain ⟨-, h2⟩ := Prod.mk.inj (List.mem_singleton.mp hmem)
    rw [h2] at hhigh
    exact absurd hhigh (by decide)

end BufferVM
