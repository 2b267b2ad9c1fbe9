/-
  Kernel/Interp.lean --- the interpreter is loaded into free memory.

  Only the first header of an interpreter is placed by the gap search, with the size of the
  whole image; the headers after it are mapped over whatever is there.  Every range that the
  loader asks for lies in the pages of the image, because the pages of no header and of no
  zeroed part end behind the last header.
-/
import BufferVM.Kernel.ElfFrame

set_option autoImplicit false

namespace BufferVM

variable {σ η : Type} {s t : St σ η} {E : Env σ η}

/-! ## The headers of an interpreter -/

/-- The headers of an interpreter: ascending, apart, without wrap-around of an end that is rounded
up, and the first in page `0` with bytes from the file. -/
structure InterpImage (phdrs : List Phdr) : Prop where
  ascending : (loads phdrs).Pairwise fun p q => p.pVaddr.toNat + p.pMemsz.toNat ≤ q.pVaddr.toNat
  filesz_le : ∀ p ∈ loads phdrs, p.pFilesz ≤ p.pMemsz
  no_wrap : ∀ p ∈ loads phdrs, p.pVaddr.toNat + p.pMemsz.toNat + 4095 < 2 ^ 64
  first : ∀ p, (loads phdrs).head? = some p → p.pFilesz ≠ 0#64 ∧ p.pVaddr.toNat < 4096

/-- Where the last header ends. -/
def imageEnd (phdrs : List Phdr) : Nat :=
  match (loads phdrs).getLast? with
  | some last => last.pVaddr.toNat + last.pMemsz.toNat
  | none => 0

section Image

variable {phdrs : List Phdr} {base size : U64} {imgEnd : Nat} {p : Phdr}

/-- No header ends behind the last one. -/
theorem le_imageEnd (hasc : (loads phdrs).Pairwise fun p q =>
    p.pVaddr.toNat + p.pMemsz.toNat ≤ q.pVaddr.toNat) (hp : p ∈ loads phdrs) :
    p.pVaddr.toNat + p.pMemsz.toNat ≤ imageEnd phdrs := by
  rw [imageEnd]
  rcases List.eq_nil_or_concat (loads phdrs) with hnil | ⟨l, last, hl⟩
  · rw [hnil] at hp
    cases hp
  · rw [List.concat_eq_append] at hl
    rw [hl] at hp hasc ⊢
    rw [List.getLast?_append]
    show _ ≤ last.pVaddr.toNat + last.pMemsz.toNat
    rcases List.mem_append.mp hp with hp | hp
    · have hle := (List.pairwise_append.mp hasc).2.2 p hp last (List.mem_singleton.mpr rfl)
      omega
    · obtain rfl := List.mem_singleton.mp hp
      exact le_rfl

theorem InterpImage.le_imageEnd (h : InterpImage phdrs) (hp : p ∈ loads phdrs) :
    p.pVaddr.toNat + p.pMemsz.toNat ≤ imageEnd phdrs :=
  BufferVM.le_imageEnd h.ascending hp

theorem InterpImage.imageEnd_lt (h : InterpImage phdrs) : imageEnd phdrs + 4095 < 2 ^ 64 := by
  have hwrap := h.no_wrap
  rw [imageEnd]
  cases hlast : (loads phdrs).getLast? with
  | none => decide
  | some last => exact hwrap last (List.mem_of_getLast? hlast)

theorem InterpImage.toNat_totalMappingSize (h : InterpImage phdrs) :
    (totalMappingSize phdrs).toNat = imageEnd phdrs := by
  have hfirst := h.first
  have hwrap := h.no_wrap
  rw [totalMappingSize, imageEnd]
  cases hl : loads phdrs with
  | nil => rfl
  | cons first l =>
      rw [hl] at hfirst hwrap
      obtain ⟨-, hv⟩ := hfirst first rfl
      obtain ⟨last, hlast⟩ : ∃ last, (first :: l).getLast? = some last :=
        ⟨_, List.getLast?_eq_some_getLast (List.cons_ne_nil _ _)⟩
      have hmem : last ∈ first :: l := List.mem_of_getLast? hlast
      have hlt := hwrap last hmem
      have hdown : pageAlignDown first.pVaddr = 0#64 := by
        apply BitVec.eq_of_toNat_eq
        rw [toNat_pageAlignDown, Nat.div_eq_of_lt hv]
        rfl
      rw [hlast]
      show (last.pVaddr + last.pMemsz - pageAlignDown first.pVaddr).toNat =
        last.pVaddr.toNat + last.pMemsz.toNat
      rw [hdown, BitVec.sub_zero, BitVec.toNat_add, Nat.mod_eq_of_lt (by omega)]

/-- The pages of the file part of a header. -/
theorem Phdr.toNat_mapSize (p : Phdr)
    (hfit : p.pFilesz.toNat + p.pVaddr.toNat % 4096 + 4095 < 2 ^ 64) :
    p.mapSize.toNat = (p.pFilesz.toNat + p.pVaddr.toNat % 4096 + 4095) / 4096 * 4096 := by
  rw [mapSize, toNat_pageAlign, BitVec.toNat_add, toNat_pageOffset]
  omega

/-- The pages for an image that ends at `imgEnd`, from its page `0` on. -/
structure ImagePages (base size : U64) (imgEnd : Nat) : Prop where
  align : base.toNat % 4096 = 0
  size_eq : size.toNat = (imgEnd + 4095) / 4096 * 4096
  fits : base.toNat + size.toNat < 2 ^ 64

/-- The pages of the file part of a header are pages of the image. -/
theorem ImagePages.header (h : ImagePages base size imgEnd)
    (hp : p.pVaddr.toNat + p.pFilesz.toNat ≤ imgEnd) :
    (pageAlignDown (p.pVaddr + base)).toNat = base.toNat + p.pVaddr.toNat / 4096 * 4096 ∧
      p.mapSize.toNat = (p.pFilesz.toNat + p.pVaddr.toNat % 4096 + 4095) / 4096 * 4096 := by
  have h1 := h.align
  have h2 := h.size_eq
  have h3 := h.fits
  constructor
  · rw [toNat_pageAlignDown, BitVec.toNat_add]
    omega
  · exact p.toNat_mapSize (by omega)

/-- The body of the loop for a header of an interpreter. -/
theorem loadPhdr_interp {stray : U64} {fd : BitVec 32} {g : ElfProgress} {x : Loader σ η}
    {gy : ElfProgress × Loader σ η} (hp : p.pType = ptLoad)
    (hrun : loadPhdr E stray fd .dyn phdrs true (g, x) p = some gy) :
    ∃ v y, elfMap E stray fd (p.pVaddr + g.loadOffset) p (elfProt p.pFlags)
        (if g.foundEntry = true then mapPrivate ||| mapFixed else mapPrivate) g.totalSize x =
          some (v, y) ∧
      isErrValue v = false ∧ v < x.store.glob.kernelMinAddress ∧
      gy = (ElfProgress.next .dyn true p v { g with totalSize := 0#64 },
        { y with placed := y.placed ++ [(p, v)] }) := by
  simp only [loadPhdr, hp, ne_eq, not_true_eq_false, if_false, reduceCtorEq, false_or,
    Bool.true_eq_false,
    and_false, if_true, Option.bind_eq_bind, Option.bind_eq_some_iff, false_and] at hrun
  obtain ⟨⟨v, y⟩, hmap, hrun⟩ := hrun
  refine ⟨v, y, hmap, ?_⟩
  split at hrun
  · cases hrun
  · rename_i hval
    split at hrun
    · cases hrun
    · obtain rfl := Option.some.inj hrun
      rw [not_or, not_not] at hval
      exact ⟨Bool.eq_false_iff.mpr hval.1, hval.2, rfl⟩

theorem foldlM_loads {stray : U64} {fd : BitVec 32} {type : ElfType} {isInterp : Bool}
    (all : List Phdr) (gx : ElfProgress × Loader σ η) :
    phdrs.foldlM (loadPhdr E stray fd type all isInterp) gx =
      (loads phdrs).foldlM (loadPhdr E stray fd type all isInterp) gx := by
  induction phdrs generalizing gx with
  | nil => rfl
  | cons p phdrs ih =>
      by_cases hp : p.pType = ptLoad
      · rw [loads, List.filter_cons_of_pos (by simpa using hp), List.foldlM_cons, List.foldlM_cons]
        congr 1
        funext gy
        exact ih gy
      · rw [loads, List.filter_cons_of_neg (by simpa using hp), List.foldlM_cons]
        have hskip : loadPhdr E stray fd type all isInterp gx p = some gx := by
          rw [loadPhdr, if_pos hp]
        rw [hskip]
        exact ih gx

end Image

/-! ## `elf_map` -/

section ElfMap

variable {F : E.toNodeHeap.Fresh} {base size : U64} {imgEnd : Nat} {p : Phdr} {x y : Loader σ η}
  {stray prot v : U64} {fd : BitVec 32}

/-- A header after the first is mapped over the pages of the image. -/
theorem elfMap_fixed (h : Linked F x.store) (hav : 3 ≤ F.avail x.store.heap)
    (hpages : ImagePages base size imgEnd)
    (hk : base.toNat + size.toNat ≤ x.store.glob.kernelMinAddress.toNat)
    (hp : p.pVaddr.toNat + p.pFilesz.toNat ≤ imgEnd)
    (hrun : elfMap E stray fd (p.pVaddr + base) p prot (mapPrivate ||| mapFixed) 0#64 x = some
      (v, y))
    (hv : isErrValue v = false) :
    v = pageAlignDown (p.pVaddr + base) ∧ y.placed = x.placed ∧ Loader.Moved F base size 3 x y := by
  obtain ⟨haddr, hsize⟩ := hpages.header hp
  have halign := hpages.align
  have hsizeEq := hpages.size_eq
  rw [elfMap] at hrun
  by_cases hzero : p.mapSize = 0#64
  · rw [if_pos hzero] at hrun
    obtain ⟨rfl, rfl⟩ := Prod.mk.inj (Option.some.inj hrun)
    exact ⟨rfl, rfl, (Loader.Moved.refl h).mono (Nat.zero_le 3)⟩
  · rw [if_neg hzero, if_neg (not_not.mpr rfl)] at hrun
    apply Loader.mmap_fixed h hav mapFixed_flags _ _ _ hpages.fits hrun hv
    · omega
    · exact ⟨by omega, by omega, hzero, by omega⟩
    · omega

theorem syscallMmap_empty {s : St σ η} {addr prot flags offset : U64} {z : U64 × St σ η}
    (hrun : syscallMmap E stray addr 0#64 prot flags fd offset s = some z) : z.1 = eINVAL := by
  rw [syscallMmap] at hrun
  split at hrun
  · rw [← Option.some.inj hrun]
  · rw [if_pos rfl] at hrun
    rw [← Option.some.inj hrun]

/-- The first header takes free pages for the whole image, and gives back those after its own. -/
theorem elfMap_first (h : Linked F x.store) (hsearch : Searchable x.store)
    (hav : 6 ≤ F.avail x.store.heap)
    (hmin : x.store.glob.userStackMin ≤ x.store.glob.kernelMinAddress) {addr totalSize : U64}
    (haddr : pageAlignDown addr = 0#64) (htotal : totalSize ≠ 0#64) (hzero : p.mapSize ≠ 0#64)
    (halign : p.mapSize.toNat % 4096 = 0)
    (hsize : pageAlign totalSize ≠ 0#64 → p.mapSize ≤ pageAlign totalSize)
    (hrun : elfMap E stray fd addr p prot mapPrivate totalSize x = some (v, y))
    (hv : isErrValue v = false) (hlt : v < x.store.glob.kernelMinAddress) :
    InBounds x.store.glob.kernelMinAddress v (pageAlign totalSize) ∧
      FreeAt x.store (pageAlign totalSize) v ∧ y.placed = x.placed ∧
      (∃ cs, y.calls = x.calls ++ .mmap 0#64 (pageAlign totalSize) mapPrivate v :: cs) ∧
      Loader.Moved F v (pageAlign totalSize) 6 x y := by
  rw [elfMap] at hrun
  simp only [if_neg hzero, ne_eq, htotal, not_false_eq_true, if_true, haddr, Option.bind_eq_bind,
    Option.bind_eq_some_iff] at hrun
  obtain ⟨⟨w, x₁⟩, hmap, hrun⟩ := hrun
  simp only [Loader.mmap, Option.bind_eq_bind, Option.bind_eq_some_iff] at hmap
  obtain ⟨⟨w', u⟩, hmap, hx₁⟩ := hmap
  obtain ⟨rfl, rfl⟩ := Prod.mk.inj (Option.some.inj hx₁)
  have hvw : w' = v := by
    split at hrun
    · obtain ⟨z, -, hz⟩ := Option.bind_eq_some_iff.mp hrun
      exact congrArg Prod.fst (Option.some.inj hz)
    · exact congrArg Prod.fst (Option.some.inj hrun)
  subst hvw
  have hne : pageAlign totalSize ≠ 0#64 := by
    intro h0
    rw [h0] at hmap
    have herr := syscallMmap_empty hmap
    simp only at herr
    rw [herr, isErrValue_eINVAL] at hv
    cases hv
  have hle := hsize hne
  generalize hT : pageAlign totalSize = size at *
  have hsizeAlign : size.toNat % 4096 = 0 := by
    rw [← hT, toNat_pageAlign]
    omega
  have hself := pageAlign_of_aligned hsizeAlign
  have hpos : 0#64 < size := by bv_omega
  obtain ⟨hplace, hframed⟩ := framed_mmap h (by omega) (fun a ha haerr => by
    rw [hself] at ha ⊢
    exact (getUnmappedArea_search hsearch hpos hsizeAlign hmin mapPrivate_flags ha haerr).1) hmap hv
  rw [hself] at hplace hframed
  obtain ⟨hin, hfree⟩ :=
    getUnmappedArea_search hsearch hpos hsizeAlign hmin mapPrivate_flags hplace hv
  refine ⟨hin, hfree, ?_⟩
  have hinLe := hin.le
  have hinAlign := hin.addr_align
  have hk := x.store.glob.kernelMinAddress.isLt
  have hroom : w'.toNat + size.toNat < 2 ^ 64 := by omega
  have hfirst : Loader.Moved F w' size 3 x ⟨u, x.calls ++ [.mmap 0#64 size mapPrivate w'],
      x.placed⟩ :=
    Framed.moved (c := .mmap 0#64 size mapPrivate w') hframed ⟨le_rfl, le_rfl⟩ hroom x.placed
  -- the pages after those of the header
  have hlt' : w' < u.glob.kernelMinAddress := by
    rw [hframed.glob]
    exact hlt
  rw [if_pos hlt'] at hrun
  obtain ⟨z, hunmap, hz⟩ := Option.bind_eq_some_iff.mp hrun
  obtain rfl : z = y := congrArg Prod.snd (Option.some.inj hz)
  simp only at hunmap
  have hadd : (w' + p.mapSize).toNat = w'.toNat + p.mapSize.toNat := by bv_omega
  have hsub : (size - p.mapSize).toNat = size.toNat - p.mapSize.toNat := by bv_omega
  have hroom : p.mapSize.toNat ≤ size.toNat := hle
  obtain ⟨hplaced, hmoved⟩ : z.placed = x.placed ∧ Loader.Moved F w' size 3
      ⟨u, x.calls ++ [.mmap 0#64 size mapPrivate w'], x.placed⟩ z :=
    Loader.munmap_moved hfirst.linked (by have havail := hfirst.avail; omega)
    (fun hrest => ⟨by omega, by omega, hrest, by
      show _ ≤ u.glob.kernelMinAddress.toNat
      rw [hframed.glob]
      omega⟩)
    ⟨by omega, by omega⟩ (by omega) hunmap
  obtain ⟨cs, hcs, -⟩ := hmoved.calls
  exact ⟨hplaced, ⟨cs, by rw [hcs, List.append_assoc]; rfl⟩, hfirst.trans hmoved⟩

end ElfMap

/-! ## The loop over the headers -/

/-- Between two headers, after the first. -/
structure InterpLoop {H : NodeHeap σ} (F : H.Fresh) (s : St σ η) (base size : U64) (imgEnd k : Nat)
    (gx : ElfProgress × Loader σ η) : Prop where
  moved : Loader.Moved F base size k ⟨s, [], []⟩ gx.2
  first : gx.2.calls.head? = some (.mmap 0#64 size mapPrivate base)
  placed : ∀ y ∈ gx.2.placed, y.2 = pageAlignDown (y.1.pVaddr + base)
  found : gx.1.foundEntry = true
  totalSize : gx.1.totalSize = 0#64
  loadOffset : gx.1.loadOffset = base
  maddr_le : gx.1.maxMaddr.toNat ≤ base.toNat + imgEnd
  faddr_le : gx.1.maxFaddr.toNat ≤ base.toNat + imgEnd
  le_faddr : base.toNat ≤ gx.1.maxFaddr.toNat

section Loop

variable {F : E.toNodeHeap.Fresh} {base size : U64} {imgEnd k : Nat} {p : Phdr} {stray : U64}
  {fd : BitVec 32} {phdrs : List Phdr} {gx gy : ElfProgress × Loader σ η}

/-- A maximum of the loop. -/
theorem toNat_max_le {old new : U64} {n : Nat} (hold : old.toNat ≤ n) (hnew : new.toNat ≤ n) :
    (if old < new then new else old).toNat ≤ n := by
  split
  · exact hnew
  · exact hold

theorem le_toNat_max {old new : U64} {n : Nat} (hnew : n ≤ new.toNat) :
    n ≤ (if old < new then new else old).toNat := by
  split
  · exact hnew
  · rename_i hle
    have := BitVec.le_def.mp (BitVec.not_lt.mp hle)
    omega

/-- The ends of a header in the image. -/
theorem ImagePages.ends (h : ImagePages base size imgEnd) (hle : p.pFilesz ≤ p.pMemsz)
    (hp : p.pVaddr.toNat + p.pMemsz.toNat ≤ imgEnd) :
    (p.pVaddr + p.pMemsz + base).toNat = base.toNat + (p.pVaddr.toNat + p.pMemsz.toNat) ∧
      (p.pVaddr + p.pFilesz + base).toNat = base.toNat + (p.pVaddr.toNat + p.pFilesz.toNat) := by
  have h1 := h.size_eq
  have h2 := h.fits
  have h3 := BitVec.le_def.mp hle
  constructor
  · rw [BitVec.toNat_add, BitVec.toNat_add]
    omega
  · rw [BitVec.toNat_add, BitVec.toNat_add]
    omega

/-- Calls that place no header. -/
theorem InterpLoop.go {g : ElfProgress} {x y : Loader σ η} {l : Nat}
    (h : InterpLoop F s base size imgEnd k (g, x)) (hmoved : Loader.Moved F base size l x y)
    (hplaced : y.placed = x.placed) : InterpLoop F s base size imgEnd (k + l) (g, y) := by
  obtain ⟨cs, hcs, -⟩ := hmoved.calls
  have hfirst := h.first
  simp only at hfirst
  refine ⟨h.moved.trans hmoved, ?_, ?_, h.found, h.totalSize, h.loadOffset, h.maddr_le, h.faddr_le,
    h.le_faddr⟩
  · rw [hcs, List.head?_append, hfirst]
    rfl
  · rw [hplaced]
    exact h.placed

/-- One header after the first. -/
theorem InterpLoop.step (h : InterpLoop F s base size imgEnd k gx)
    (hav : 3 ≤ F.avail gx.2.store.heap) (hpages : ImagePages base size imgEnd)
    (hk : base.toNat + size.toNat ≤ s.glob.kernelMinAddress.toNat) (hload : p.pType = ptLoad)
    (hle : p.pFilesz ≤ p.pMemsz) (hp : p.pVaddr.toNat + p.pMemsz.toNat ≤ imgEnd)
    (hrun : loadPhdr E stray fd .dyn phdrs true gx p = some gy) :
    InterpLoop F s base size imgEnd (k + 3) gy ∧
      F.avail gx.2.store.heap ≤ F.avail gy.2.store.heap + 3 ∧
      gy.2.placed.map Prod.fst = gx.2.placed.map Prod.fst ++ [p] := by
  obtain ⟨g, x⟩ := gx
  have hmoved := h.moved
  have hfound := h.found
  obtain ⟨v, y, hmap, hv, -, rfl⟩ := loadPhdr_interp hload hrun
  simp only at hmoved hfound
  rw [if_pos hfound, h.totalSize, h.loadOffset] at hmap
  have hle' := BitVec.le_def.mp hle
  obtain ⟨hplace, hplaced, hmoved'⟩ := elfMap_fixed hmoved.linked hav hpages
    (by rw [hmoved.glob]; exact hk) (by omega) hmap hv
  obtain ⟨hmend, hfend⟩ := hpages.ends hle hp
  obtain ⟨cs, hcs, -⟩ := hmoved'.calls
  have hnext : ElfProgress.next .dyn true p v { g with totalSize := 0#64 } =
      { g with
        totalSize := 0#64
        minAddr := if v < g.minAddr then v else g.minAddr
        maxMaddr := if g.maxMaddr < p.pVaddr + p.pMemsz + g.loadOffset then
          p.pVaddr + p.pMemsz + g.loadOffset else g.maxMaddr
        maxFaddr := if g.maxFaddr < p.pVaddr + p.pFilesz + g.loadOffset then
          p.pVaddr + p.pFilesz + g.loadOffset else g.maxFaddr } := by
    simp only [ElfProgress.next, hfound, if_true]
  rw [hnext]
  refine ⟨⟨?_, ?_, ?_, hfound, rfl, h.loadOffset, ?_, ?_, ?_⟩, hmoved'.avail, ?_⟩
  · have htrans := hmoved.trans hmoved'
    exact ⟨htrans.linked, htrans.glob, htrans.avail, htrans.covered, htrans.calls⟩
  · have hfirst := h.first
    simp only at hfirst ⊢
    rw [hcs, List.head?_append, hfirst]
    rfl
  · intro z hz
    rcases List.mem_append.mp hz with hz | hz
    · rw [hplaced] at hz
      exact h.placed z hz
    · obtain rfl := List.mem_singleton.mp hz
      exact hplace
  · have hoff := h.loadOffset
    simp only at hoff
    simp only [hoff]
    exact toNat_max_le h.maddr_le (by omega)
  · have hoff := h.loadOffset
    simp only at hoff
    simp only [hoff]
    exact toNat_max_le h.faddr_le (by omega)
  · have hoff := h.loadOffset
    simp only at hoff
    simp only [hoff]
    exact le_toNat_max (by omega)
  · rw [hplaced, List.map_append]
    rfl

/-- The headers after the first. -/
theorem InterpLoop.run {rest : List Phdr} (h : InterpLoop F s base size imgEnd k gx)
    (hav : 3 * rest.length + 3 ≤ F.avail gx.2.store.heap) (hpages : ImagePages base size imgEnd)
    (hk : base.toNat + size.toNat ≤ s.glob.kernelMinAddress.toNat)
    (hrest : ∀ p ∈ rest, p.pType = ptLoad ∧ p.pFilesz ≤ p.pMemsz ∧
      p.pVaddr.toNat + p.pMemsz.toNat ≤ imgEnd)
    (hrun : rest.foldlM (loadPhdr E stray fd .dyn phdrs true) gx = some gy) :
    ∃ l, InterpLoop F s base size imgEnd l gy ∧ 3 ≤ F.avail gy.2.store.heap ∧
      gy.2.placed.map Prod.fst = gx.2.placed.map Prod.fst ++ rest := by
  induction rest generalizing gx k with
  | nil =>
      obtain rfl := Option.some.inj hrun
      exact ⟨k, h, by simpa using hav, (List.append_nil _).symm⟩
  | cons p rest ih =>
      rw [List.foldlM_cons] at hrun
      obtain ⟨gz, hstep, hrun⟩ := Option.bind_eq_some_iff.mp hrun
      obtain ⟨hload, hle, hp⟩ := hrest p List.mem_cons_self
      rw [List.length_cons] at hav
      obtain ⟨hloop, havail, hplaced⟩ := h.step (by omega) hpages hk hload hle hp hstep
      obtain ⟨l, hloop', havail', hplaced'⟩ := ih hloop (by omega)
        (fun q hq => hrest q (List.mem_cons_of_mem p hq)) hrun
      refine ⟨l, hloop', havail', ?_⟩
      rw [hplaced', hplaced, List.append_assoc]
      rfl

/-- The first header starts the loop. -/
theorem interpLoop_first (hs : Linked F s) (hsearch : Searchable s) (hav : 6 ≤ F.avail s.heap)
    (hmin : s.glob.userStackMin ≤ s.glob.kernelMinAddress) {g : ElfProgress}
    (hnew : g.foundEntry = false) (hoff : g.loadOffset = 0#64) (hmaddr : g.maxMaddr = 0#64)
    (hfaddr : g.maxFaddr = 0#64) (htotal : g.totalSize ≠ 0#64) (hend : g.totalSize.toNat = imgEnd)
    (hwrap : imgEnd + 4095 < 2 ^ 64) (hload : p.pType = ptLoad) (hpos : p.pFilesz ≠ 0#64)
    (hpage : p.pVaddr.toNat < 4096)
    (hle : p.pFilesz ≤ p.pMemsz) (hp : p.pVaddr.toNat + p.pMemsz.toNat ≤ imgEnd)
    (hrun : loadPhdr E stray fd .dyn phdrs true (g, ⟨s, [], []⟩) p = some gy) :
    ∃ base, ImagePages base (pageAlign g.totalSize) imgEnd ∧
      base.toNat + (pageAlign g.totalSize).toNat ≤ s.glob.kernelMinAddress.toNat ∧
      FreeAt s (pageAlign g.totalSize) base ∧
      InterpLoop F s base (pageAlign g.totalSize) imgEnd 6 gy ∧
      F.avail s.heap ≤ F.avail gy.2.store.heap + 6 ∧ gy.2.placed.map Prod.fst = [p] := by
  obtain ⟨v, y, hmap, hv, hlt, rfl⟩ := loadPhdr_interp hload hrun
  rw [hnew, if_neg Bool.false_ne_true, hoff, BitVec.add_zero] at hmap
  have hle' := BitVec.le_def.mp hle
  have hpos' : p.pFilesz.toNat ≠ 0 := fun h0 => hpos (BitVec.eq_of_toNat_eq h0)
  have hdown : pageAlignDown p.pVaddr = 0#64 := by
    apply BitVec.eq_of_toNat_eq
    rw [toNat_pageAlignDown, Nat.div_eq_of_lt hpage]
    rfl
  have hsize : (pageAlign g.totalSize).toNat = (imgEnd + 4095) / 4096 * 4096 := by
    rw [toNat_pageAlign, hend]
    omega
  have hmapSize : p.mapSize.toNat = (p.pFilesz.toNat + p.pVaddr.toNat + 4095) / 4096 * 4096 := by
    rw [p.toNat_mapSize (by omega), Nat.mod_eq_of_lt hpage]
  have hzero : p.mapSize ≠ 0#64 := by
    intro h0
    rw [h0] at hmapSize
    have hnil : (0#64 : U64).toNat = 0 := rfl
    omega
  obtain ⟨hin, hfree, hplaced, ⟨cs, hcs⟩, hmoved⟩ := elfMap_first (F := F) hs hsearch hav hmin hdown
    htotal hzero (by omega) (fun _ => BitVec.le_def.mpr (by omega)) hmap hv hlt
  generalize hT : pageAlign g.totalSize = size at *
  have hinLe := hin.le
  have hk := s.glob.kernelMinAddress.isLt
  simp only at hinLe
  have hpages : ImagePages v size imgEnd := ⟨hin.addr_align, hsize, by omega⟩
  obtain ⟨hmend, hfend⟩ := hpages.ends hle hp
  have hbias : v - pageAlignDown p.pVaddr = v := by rw [hdown, BitVec.sub_zero]
  have hnext : ElfProgress.next .dyn true p v { g with totalSize := 0#64 } =
      { g with
        foundEntry := true
        totalSize := 0#64
        loadOffset := v
        minAddr := if v < g.minAddr then v else g.minAddr
        maxMaddr := if 0#64 < p.pVaddr + p.pMemsz + v then p.pVaddr + p.pMemsz + v else 0#64
        maxFaddr := if 0#64 < p.pVaddr + p.pFilesz + v then p.pVaddr + p.pFilesz +
          v else 0#64 } := by
    simp only [ElfProgress.next, hnew, Bool.false_eq_true, if_false, and_self, if_true, hbias,
      hmaddr,
      hfaddr]
  rw [hnext]
  have hzeroLe : (0#64 : U64).toNat ≤ v.toNat + imgEnd := Nat.zero_le _
  refine ⟨v, hpages, hinLe, hfree, ⟨⟨hmoved.linked, hmoved.glob, hmoved.avail, hmoved.covered,
    hmoved.calls⟩, ?_, ?_, rfl, rfl, rfl, ?_, ?_, ?_⟩, hmoved.avail, ?_⟩
  · rw [hcs]
    rfl
  · intro z hz
    rw [hplaced] at hz
    obtain rfl := List.mem_singleton.mp hz
    show v = pageAlignDown (p.pVaddr + v)
    apply BitVec.eq_of_toNat_eq
    have halign := hpages.align
    have hfits := hpages.fits
    rw [toNat_pageAlignDown, BitVec.toNat_add]
    omega
  · exact toNat_max_le hzeroLe (by omega)
  · exact toNat_max_le hzeroLe (by omega)
  · exact le_toNat_max (by omega)
  · rw [hplaced]
    rfl

/-- The pages behind the file. -/
theorem InterpLoop.brk {g : ElfProgress} {x y : Loader σ η}
    (h : InterpLoop F s base size imgEnd k (g, x)) (hav : 3 ≤ F.avail x.store.heap)
    (hpages : ImagePages base size imgEnd)
    (hk : base.toNat + size.toNat ≤ s.glob.kernelMinAddress.toNat) {flags error : U64}
    (hlt : pageAlign g.maxFaddr < pageAlign g.maxMaddr)
    (hrun : x.doBrk E (pageAlign g.maxFaddr) (pageAlign g.maxMaddr - pageAlign g.maxFaddr) flags =
      some (error, y)) : y.placed = x.placed ∧ Loader.Moved F base size 3 x y := by
  have halign := hpages.align
  have hsize := hpages.size_eq
  have hfits := hpages.fits
  have hm := h.maddr_le
  have hf := h.faddr_le
  have hlow := h.le_faddr
  simp only at hm hf hlow
  have hfPage : (pageAlign g.maxFaddr).toNat = (g.maxFaddr.toNat + 4095) / 4096 * 4096 := by
    rw [toNat_pageAlign]
    omega
  have hmPage : (pageAlign g.maxMaddr).toNat = (g.maxMaddr.toNat + 4095) / 4096 * 4096 := by
    rw [toNat_pageAlign]
    omega
  have hlt' := BitVec.lt_def.mp hlt
  have hsub : (pageAlign g.maxMaddr - pageAlign g.maxFaddr).toNat =
      (pageAlign g.maxMaddr).toNat - (pageAlign g.maxFaddr).toNat := by bv_omega
  apply Loader.doBrk_moved h.moved.linked hav _ _ hfits hrun
  · rw [h.moved.glob]
    refine ⟨by omega, by omega, fun h0 => ?_, ?_⟩
    · rw [h0] at hsub
      have hnil : (0#64 : U64).toNat = 0 := rfl
      omega
    · show _ ≤ s.glob.kernelMinAddress.toNat
      omega
  · omega

end Loop

/-- The whole image is placed in one free region, and nothing is changed outside of it. -/
structure PlacedClear (s : St σ η) (phdrs : List Phdr) (r : ElfLoaded) (x : Loader σ η)
    (base size : U64) : Prop where
  /-- The region is that of the first mapping. -/
  first : x.calls.head? = some (.mmap 0#64 size mapPrivate base)
  inside : base.toNat + size.toNat ≤ s.glob.kernelMinAddress.toNat
  free : FreeAt s size base
  calls : ∀ c ∈ x.calls, c.Within base size
  covered : ∀ a, ¬ (base ≤ a ∧ a < base + size) → (x.store.Covered a ↔ s.Covered a)
  bias : r.elfBias = base
  headers : x.placed.map Prod.fst = loads phdrs
  placed : ∀ y ∈ x.placed, y.2 = pageAlignDown (y.1.pVaddr + r.elfBias)

theorem InterpLoop.clear {H : NodeHeap σ} {F : H.Fresh} {base size : U64} {imgEnd k : Nat}
    {phdrs : List Phdr} {g : ElfProgress} {x : Loader σ η}
    (h : InterpLoop F s base size imgEnd k (g, x))
    (hk : base.toNat + size.toNat ≤ s.glob.kernelMinAddress.toNat) (hfree : FreeAt s size base)
    (hheaders : x.placed.map Prod.fst = loads phdrs) {r : ElfLoaded}
    (hr : r.elfBias = g.loadOffset) :
    PlacedClear s phdrs r x base size := by
  have hbias : r.elfBias = base := hr.trans h.loadOffset
  obtain ⟨cs, hcs, hin⟩ := h.moved.calls
  refine ⟨h.first, hk, hfree, fun c hc => ?_, h.moved.covered, hbias, hheaders, ?_⟩
  · rw [hcs] at hc
    exact hin c hc
  · rw [hbias]
    exact h.placed

/-- **The interpreter is loaded into free memory.**  When the loader comes back, everything it
has asked for lies in one region, which was free. -/
theorem interp_placedClear (F : E.toNodeHeap.Fresh) (hs : Valid s) (ho : NodesOwned F s)
    {phdrs : List Phdr} (himg : InterpImage phdrs)
    (hav : 3 * ((loads phdrs).length + 2) ≤ F.avail s.heap)
    (hmin : s.glob.userStackMin ≤ s.glob.kernelMinAddress) {stray : U64} {fd : BitVec 32}
    {r : ElfLoaded} {x : Loader σ η}
    (hrun : loadElf64PgHdrs E stray fd .dyn phdrs true s = some (r, x)) :
    ∃ base, PlacedClear s phdrs r x base (pageAlign (totalMappingSize phdrs)) := by
  have hlinked := hs.linked F ho
  have htotal := himg.toNat_totalMappingSize
  simp only [loadElf64PgHdrs, if_true, true_and] at hrun
  split at hrun
  · cases hrun
  · rename_i hne
    simp only [Option.bind_eq_bind, Option.bind_eq_some_iff] at hrun
    obtain ⟨⟨g, y⟩, hloop, hrun⟩ := hrun
    rw [foldlM_loads] at hloop
    cases hloads : loads phdrs with
    | nil =>
        rw [imageEnd, hloads] at htotal
        exact absurd (BitVec.eq_of_toNat_eq htotal) hne
    | cons p rest =>
        have hmem : ∀ q ∈ p :: rest, q.pType = ptLoad ∧ q.pFilesz ≤ q.pMemsz ∧
            q.pVaddr.toNat + q.pMemsz.toNat ≤ imageEnd phdrs := by
          intro q hq
          rw [← hloads] at hq
          refine ⟨?_, himg.filesz_le q hq, himg.le_imageEnd hq⟩
          simpa using (List.mem_filter.mp hq).2
        obtain ⟨hload, hle, hp⟩ := hmem p List.mem_cons_self
        obtain ⟨hpos, hpage⟩ := himg.first p (by rw [hloads]; rfl)
        rw [hloads, List.length_cons] at hav
        rw [hloads, List.foldlM_cons] at hloop
        obtain ⟨gx, hfirst, hrest⟩ := Option.bind_eq_some_iff.mp hloop
        obtain ⟨base, hpages, hk, hfree, hloop₁, havail₁, hplaced₁⟩ := interpLoop_first hlinked
          hs.searchable (by omega) hmin rfl rfl rfl rfl hne htotal himg.imageEnd_lt hload hpos hpage
          hle hp hfirst
        obtain ⟨l, hloop₂, havail₂, hplaced₂⟩ := hloop₁.run (by omega) hpages hk
          (fun q hq => hmem q (List.mem_cons_of_mem p hq)) hrest
        rw [hplaced₁] at hplaced₂
        -- the zeroed end of the file
        have halign := hpages.align
        have hsize := hpages.size_eq
        have hfaddr := hloop₂.faddr_le
        simp only at hsize hfaddr
        obtain ⟨hpad, hmoved₃⟩ : (y.padZero g.maxFaddr).placed = y.placed ∧
            Loader.Moved F base (pageAlign (totalMappingSize phdrs)) 0 y (y.padZero g.maxFaddr) :=
          Loader.padZero_moved hloop₂.moved.linked hloop₂.le_faddr (by omega) (by omega)
        have hloop₃ := hloop₂.go hmoved₃ hpad
        have hplaced₃ : (y.padZero g.maxFaddr).placed.map Prod.fst = loads phdrs := by
          rw [hpad, hloads]
          exact hplaced₂
        have havail₃ : 3 ≤ F.avail (y.padZero g.maxFaddr).store.heap := havail₂.trans hmoved₃.avail
        simp only [BitVec.add_zero] at hrun
        split at hrun
        · -- the pages behind it
          rename_i hlt
          simp only [Option.bind_eq_some_iff] at hrun
          obtain ⟨⟨error, z⟩, hbrk, hrun⟩ := hrun
          obtain ⟨hplaced₄, hmoved₄⟩ := hloop₃.brk havail₃ hpages hk hlt hbrk
          split at hrun
          · cases hrun
          · obtain ⟨rfl, rfl⟩ := Prod.mk.inj (Option.some.inj hrun)
            refine ⟨base, (hloop₃.go hmoved₄ hplaced₄).clear hk hfree ?_ rfl⟩
            rw [hplaced₄]
            exact hplaced₃
        · obtain ⟨rfl, rfl⟩ := Prod.mk.inj (Option.some.inj hrun)
          exact ⟨base, hloop₃.clear hk hfree hplaced₃ rfl⟩

/-- An interpreter with two headers, the second of them longer than its part of the file. -/
def smallInterp : List Phdr :=
  [⟨ptLoad, pfR ||| pfX, 0#64, 0#64, 0x100#64, 0x100#64⟩, ⟨2#32, pfR, 0#64, 0#64, 0#64, 0#64⟩,
    ⟨ptLoad, pfR ||| pfW, 0x1200#64, 0x1200#64, 0x50#64, 0xe50#64⟩]

theorem interpImage_smallInterp : InterpImage smallInterp := by
  refine ⟨by decide, by decide, by decide, fun p hp => ?_⟩
  obtain rfl := Option.some.inj hp
  decide

/-- It is placed above the only VMA of the small machine. -/
theorem interp_placedClear_small :
    ∃ r x, loadElf64PgHdrs quietEnv 0#64 3#32 .dyn smallInterp true (oneVmaStore .black) = some
      (r, x) ∧
      ∃ base, PlacedClear (oneVmaStore .black) smallInterp r x base
        (pageAlign (totalMappingSize smallInterp)) := by
  have hsome : (loadElf64PgHdrs quietEnv 0#64 3#32 .dyn smallInterp true
      (oneVmaStore .black)).isSome := by
    decide +kernel
  obtain ⟨⟨r, x⟩, hrun⟩ := Option.isSome_iff_exists.mp hsome
  exact ⟨r, x, hrun, interp_placedClear (E := quietEnv) bumpFresh valid_oneVmaStore
    (nodesOwned_oneVmaStore .black) interpImage_smallInterp (by decide +kernel) (by decide) hrun⟩

end BufferVM
