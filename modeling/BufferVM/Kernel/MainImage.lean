/-
  Kernel/MainImage.lean --- the mappings of the program itself.

  Every file part of a header is mapped, so that behind the loop a page of the image has the
  bytes of the last header that is mapped on it.
-/
import BufferVM.Kernel.StoreBytes

set_option autoImplicit false

namespace BufferVM

variable {σ η : Type} {s t : St σ η} {E : Env σ η}

/-! ## The headers of a program -/

/-- The headers of a program: ascending and apart, without wrap-around. -/
structure MainImage (phdrs : List Phdr) : Prop where
  ascending : (loads phdrs).Pairwise fun p q => p.pVaddr.toNat + p.pMemsz.toNat ≤ q.pVaddr.toNat
  filesz_le : ∀ p ∈ loads phdrs, p.pFilesz ≤ p.pMemsz
  no_wrap : ∀ p ∈ loads phdrs, p.pVaddr.toNat + p.pMemsz.toNat < 2 ^ 64

/-- The address is on a page that the file part of a header is mapped on. -/
def Phdr.OnPage (bias : U64) (p : Phdr) (a : U64) : Prop :=
  a - pageAlignDown (p.pVaddr + bias) < p.mapSize

instance (bias : U64) (p : Phdr) (a : U64) : Decidable (p.OnPage bias a) :=
  inferInstanceAs (Decidable (_ < _))

/-- The place that a header has in the file for an address. -/
def Phdr.fileOffset (bias : U64) (p : Phdr) (a : U64) : U64 := p.pOffset + (a - (p.pVaddr + bias))

/-- The last of the headers that are mapped on the page of an address. -/
def lastOn (bias : U64) (l : List Phdr) (a : U64) : Option Phdr :=
  l.reverse.find? fun p => decide (p.OnPage bias a)

/-- The bytes after the file parts of the headers have been mapped one after the other. -/
def imageBytes (dev inode bias : U64) (l : List Phdr) (byte : U64 → Option PageByte) (a : U64) :
    Option PageByte :=
  match lastOn bias l a with
  | some p => some (.file dev inode (p.fileOffset bias a))
  | none => byte a

/-- Where the last file part ends. -/
def fileEnd (l : List Phdr) : Nat :=
  l.foldl (fun n p => max n (p.pVaddr.toNat + p.pFilesz.toNat)) 0

section Image

variable {phdrs l : List Phdr} {p : Phdr} {bias dev inode : U64} {byte : U64 → Option PageByte}

theorem MainImage.file_no_wrap (h : MainImage phdrs) (hp : p ∈ loads phdrs) :
    p.pVaddr.toNat + p.pFilesz.toNat < 2 ^ 64 :=
  (Nat.add_le_add_left (BitVec.le_def.mp (h.filesz_le p hp)) _).trans_lt (h.no_wrap p hp)

theorem lastOn_append (l : List Phdr) (p : Phdr) (a : U64) :
    lastOn bias (l ++ [p]) a = if p.OnPage bias a then some p else lastOn bias l a := by
  rw [lastOn, List.reverse_append, List.reverse_singleton, List.singleton_append, List.find?_cons]
  by_cases h : p.OnPage bias a
  · simp [h]
  · simp [h, lastOn]

theorem lastOn_isSome {a : U64} : (lastOn bias l a).isSome = true ↔ ∃ p ∈ l, p.OnPage bias a := by
  rw [lastOn, List.find?_isSome]
  simp

theorem pageAlignDown_bias (v : U64) (hbias : bias.toNat % 4096 = 0) :
    pageAlignDown (v + bias) = v + bias - pageOffset v := by
  apply BitVec.eq_of_toNat_eq
  rw [toNat_pageAlignDown, BitVec.toNat_sub, toNat_pageOffset, BitVec.toNat_add]
  omega

/-- The next header takes its pages. -/
theorem imageBytes_append (hbias : bias.toNat % 4096 = 0) (a : U64) :
    imageBytes dev inode bias (l ++ [p]) byte a =
      fileBytes dev inode (pageAlignDown (p.pVaddr + bias)) p.mapSize
        (p.pOffset - pageOffset p.pVaddr) (imageBytes dev inode bias l byte) a := by
  rw [imageBytes, lastOn_append, fileBytes]
  by_cases h : p.OnPage bias a
  · have hoff : p.fileOffset bias a =
        p.pOffset - pageOffset p.pVaddr + (a - pageAlignDown (p.pVaddr + bias)) := by
      rw [Phdr.fileOffset, pageAlignDown_bias p.pVaddr hbias]
      generalize pageOffset p.pVaddr = o
      bv_omega
    rw [if_pos h, if_pos (show a - pageAlignDown (p.pVaddr + bias) < p.mapSize from h), ← hoff]
  · rw [if_neg h, if_neg (show ¬ a - pageAlignDown (p.pVaddr + bias) < p.mapSize from h),
      imageBytes]

/-- The bias does not matter for which pages a header is mapped on. -/
theorem Phdr.onPage_bias (hbias : bias.toNat % 4096 = 0) (a : U64) :
    p.OnPage bias (a + bias) ↔ p.OnPage 0#64 a := by
  rw [OnPage, OnPage, pageAlignDown_bias p.pVaddr hbias, pageAlignDown_bias p.pVaddr rfl]
  generalize pageOffset p.pVaddr = o
  have hsame : a + bias - (p.pVaddr + bias - o) = a - (p.pVaddr + 0#64 - o) := by bv_omega
  rw [hsame]

theorem fileEnd_append (l : List Phdr) (p : Phdr) :
    fileEnd (l ++ [p]) = max (fileEnd l) (p.pVaddr.toNat + p.pFilesz.toNat) := by
  rw [fileEnd, List.foldl_append]
  rfl

theorem le_fileEnd (hp : p ∈ l) : p.pVaddr.toNat + p.pFilesz.toNat ≤ fileEnd l := by
  induction l using List.reverseRecOn with
  | nil => cases hp
  | append_singleton l q ih =>
      rw [fileEnd_append]
      rcases List.mem_append.mp hp with hp | hp
      · have hle := ih hp
        omega
      · obtain rfl := List.mem_singleton.mp hp
        omega

theorem fileEnd_le {n : Nat} (h : ∀ p ∈ l, p.pVaddr.toNat + p.pFilesz.toNat ≤ n) :
    fileEnd l ≤ n := by
  induction l using List.reverseRecOn with
  | nil => exact Nat.zero_le n
  | append_singleton l q ih =>
      rw [fileEnd_append]
      exact max_le (ih fun p hp => h p (List.mem_append_left _ hp))
        (h q (List.mem_append_right _ (List.mem_singleton.mpr rfl)))

/-- Biased by `bias`, the image lies from `base` on, where its addresses start at the page
`origin`. -/
structure Biased (phdrs : List Phdr) (bias : U64) (origin base : Nat) : Prop where
  image : MainImage phdrs
  bias_eq : (bias.toNat + origin) % 2 ^ 64 = base
  origin_align : origin % 4096 = 0
  base_align : base % 4096 = 0
  origin_le : ∀ p ∈ loads phdrs, origin ≤ p.pVaddr.toNat
  fits : base + (imageEnd phdrs - origin) + 4095 < 2 ^ 64

section Biased

variable {origin base : Nat} (h : Biased phdrs bias origin base) (hp : p ∈ loads phdrs)

include h

theorem Biased.align : bias.toNat % 4096 = 0 := by
  have h1 := h.bias_eq
  have h2 := h.origin_align
  have h3 := h.base_align
  omega

include hp

/-- Where an address of a header is. -/
theorem Biased.toNat_addr {k : U64} (hk : k ≤ p.pMemsz) :
    (p.pVaddr + bias + k).toNat = base + (p.pVaddr.toNat - origin) + k.toNat := by
  have h1 := h.bias_eq
  have h2 := h.origin_le p hp
  have h3 := h.fits
  have h4 := le_imageEnd h.image.ascending hp
  have h5 := BitVec.le_def.mp hk
  rw [BitVec.toNat_add, BitVec.toNat_add]
  omega

theorem Biased.toNat_vaddr : (p.pVaddr + bias).toNat = base + (p.pVaddr.toNat - origin) := by
  have heq := h.toNat_addr hp (k := 0#64) (BitVec.le_def.mpr (Nat.zero_le _))
  rw [BitVec.add_zero] at heq
  exact heq

/-- The pages of a header. -/
theorem Biased.toNat_pages :
    (pageAlignDown (p.pVaddr + bias)).toNat = base + (p.pVaddr.toNat - origin) / 4096 * 4096 ∧
      p.mapSize.toNat = (p.pFilesz.toNat + p.pVaddr.toNat % 4096 + 4095) / 4096 * 4096 ∧
      base + (p.pVaddr.toNat - origin) + p.pFilesz.toNat + 4095 < 2 ^ 64 := by
  have h1 := h.base_align
  have h2 := h.origin_le p hp
  have h3 := h.fits
  have h4 := le_imageEnd h.image.ascending hp
  have h5 := BitVec.le_def.mp (h.image.filesz_le p hp)
  have h6 := h.origin_align
  refine ⟨?_, ?_, by omega⟩
  · rw [toNat_pageAlignDown, h.toNat_vaddr hp]
    omega
  · exact p.toNat_mapSize (by omega)

/-- Every byte of the file part is on a page of its header. -/
theorem Biased.onPage {k : U64} (hk : k < p.pFilesz) : p.OnPage bias (p.pVaddr + bias + k) := by
  obtain ⟨h1, h2, h3⟩ := h.toNat_pages hp
  have h4 := BitVec.lt_def.mp hk
  have h5 := BitVec.le_def.mp (h.image.filesz_le p hp)
  have h6 := h.toNat_addr hp (k := k) (BitVec.le_def.mpr (by omega))
  have h7 := h.origin_align
  have h8 := h.origin_le p hp
  rw [Phdr.OnPage, BitVec.lt_def, BitVec.toNat_sub, h1, h2, h6]
  omega

end Biased

end Image

/-! ## The mappings of the loader -/

section Loop

variable {F : E.toNodeHeap.Fresh} {x y : Loader σ η} {gx gy : ElfProgress × Loader σ η}
  {phdrs done : List Phdr} {p : Phdr} {type : ElfType} {bias dev inode stray v prot : U64}
  {fd : BitVec 32} {origin base k : Nat} {byte : U64 → Option PageByte}

theorem Paged.trans {l : Nat} {s t u : St σ η} {b c : U64 → Option PageByte} (h : Paged F k s t b)
    (h' : Paged F l t u c) : Paged F (k + l) s u c := by
  refine ⟨h'.linked, h'.edges, h'.glob.trans h.glob, ?_, h'.byte⟩
  have h1 := h.avail
  have h2 := h'.avail
  omega

/-- A header with `MAP_FIXED` is mapped on its pages. -/
theorem elfMap_pages (h : Linked F x.store) (hal : PageEdges x.store)
    (hav : 3 ≤ F.avail x.store.heap) (hdup : DupSucceeds E) (hfd : fd ≠ noFd)
    (hfile : IsFile E fd dev inode) (hb : Biased phdrs bias origin base) (hp : p ∈ loads phdrs)
    (hun : p.mapSize ≠ 0#64 → ∀ q host, mmapPrepare E stray
      (pageAlignDown (p.pVaddr + bias)) p.mapSize
      prot (mapPrivate ||| mapFixed) fd (p.pOffset - pageOffset p.pVaddr) x.store =
        some (some q, host) → q.Unmerged x.store.regions)
    (hrun : elfMap E stray fd (p.pVaddr + bias) p prot (mapPrivate ||| mapFixed) 0#64 x = some
      (v, y))
    (hv : isErrValue v = false) :
    y.placed = x.placed ∧ (∃ cs, y.calls = x.calls ++ cs ∧ ∀ addr length,
      .memset addr length ∉ cs) ∧
      Paged F 3 x.store y.store (fileBytes dev inode (pageAlignDown (p.pVaddr + bias)) p.mapSize
        (p.pOffset - pageOffset p.pVaddr) x.store.byte) := by
  obtain ⟨haddr, hsize, hfits⟩ := hb.toNat_pages hp
  rw [elfMap] at hrun
  by_cases hzero : p.mapSize = 0#64
  · rw [if_pos hzero] at hrun
    obtain ⟨rfl, rfl⟩ := Prod.mk.inj (Option.some.inj hrun)
    refine ⟨rfl, ⟨[], (List.append_nil _).symm, fun _ _ => List.not_mem_nil⟩, h, hal, rfl,
      Nat.le_add_right _ _, fun a => ?_⟩
    rw [fileBytes, hzero, if_neg (BitVec.not_lt.mpr (BitVec.le_def.mpr (Nat.zero_le _)))]
  · rw [if_neg hzero, if_neg (not_not.mpr rfl)] at hrun
    have hself : pageAlign p.mapSize = p.mapSize := pageAlign_of_aligned (by omega)
    have halign := hb.base_align
    have horigin := hb.origin_align
    have hlow := hb.origin_le p hp
    obtain ⟨hplace, hplaced, hcalls, hpaged⟩ := Loader.mmap_file h hal hav hdup hfd hfile
      (fun a ha _ => by
        rw [getUnmappedArea_fixed stray _ _ mapFixed_flags] at ha
        rw [← Option.some.inj ha, hself]
        omega) (hun hzero) hrun hv
    rw [getUnmappedArea_fixed stray _ _ mapFixed_flags] at hplace
    obtain rfl := Option.some.inj hplace
    rw [hself] at hpaged
    refine ⟨hplaced, ⟨_, hcalls, fun addr length hmem => ?_⟩, hpaged⟩
    cases List.mem_singleton.mp hmem

/-- Without `MAP_FIXED` only a page below the end of user space is returned. -/
theorem getUnmappedArea_bounds {addr length flags a : U64} (hflags : flags &&& mapFixed = 0#64)
    (ha : getUnmappedArea stray addr length flags s = some a) (hval : isErrValue a = false) :
    a ≤ s.glob.kernelMinAddress - length ∧ a.toNat % 4096 = 0 := by
  rw [getUnmappedArea, if_neg (not_not.mpr hflags), Option.bind_eq_bind,
    Option.bind_eq_some_iff] at ha
  obtain ⟨b, -, ha⟩ := ha
  split at ha
  · rw [← Option.some.inj ha, isErrValue_eNOMEM] at hval
    cases hval
  · rename_i hle
    split at ha
    · rw [← Option.some.inj ha, isErrValue_eINVAL] at hval
      cases hval
    · rename_i hoff
      obtain rfl := Option.some.inj ha
      exact ⟨BitVec.not_lt.mp hle, (pageOffset_eq_zero_iff b).mp (not_not.mp hoff)⟩

/-- The bytes after a region has been reserved and given back. -/
def regionBytes (addr size : U64) (byte : U64 → Option PageByte) (a : U64) : Option PageByte :=
  if a - addr < size then none else byte a

/-- The file mapped over a whole region and taken away again behind the first header: the file
in the header's pages, and nothing in the rest of the region. -/
theorem clearBytes_fileBytes {addr size length offset : U64} (byte : U64 → Option PageByte)
    (hle : length ≤ size) (hfit : addr.toNat + size.toNat < 2 ^ 64) (a : U64) :
    clearBytes (addr + length) (addr + length + (size - length))
        (fileBytes dev inode addr size offset byte) a =
      fileBytes dev inode addr length offset (regionBytes addr size byte) a := by
  rw [clearBytes, fileBytes, fileBytes, regionBytes]
  have hrest : (addr + length ≤ a ∧ a < addr + length + (size - length)) ↔
      ¬ a - addr < length ∧ a - addr < size := by bv_omega
  simp only [hrest]
  by_cases hhead : a - addr < length
  · have hin : a - addr < size :=
      BitVec.lt_def.mpr ((BitVec.lt_def.mp hhead).trans_le (BitVec.le_def.mp hle))
    rw [if_pos hhead, if_pos hin, if_neg fun hc => hc.1 hhead]
  · by_cases hin : a - addr < size
    · rw [if_pos ⟨hhead, hin⟩, if_neg hhead, if_pos hin]
    · rw [if_neg fun hc => hin hc.2, if_neg hin, if_neg hhead, if_neg hin]

/-- `elf_map` returns what `mmap` has returned. -/
theorem elfMap_mmap {addr totalSize : U64} (htotal : totalSize ≠ 0#64) (hzero : p.mapSize ≠ 0#64)
    (hrun : elfMap E stray fd addr p prot mapPrivate totalSize x = some (v, y)) :
    ∃ x₁, Loader.mmap E stray (pageAlignDown addr) (pageAlign totalSize) prot mapPrivate fd
        (p.pOffset - pageOffset p.pVaddr) x = some (v, x₁) ∧
      (v < x₁.store.glob.kernelMinAddress → ∃ t error,
        syscallMunmap E (v + p.mapSize) (pageAlign totalSize - p.mapSize) x₁.store =
          some (error, t) ∧
        y.store = t ∧ y.placed = x₁.placed ∧
        y.calls = x₁.calls ++ [.munmap (v + p.mapSize) (pageAlign totalSize - p.mapSize)]) := by
  rw [elfMap] at hrun
  simp only [if_neg hzero, ne_eq, htotal, not_false_eq_true, if_true, Option.bind_eq_bind,
    Option.bind_eq_some_iff] at hrun
  obtain ⟨⟨w, x₁⟩, hmap, hrun⟩ := hrun
  have hwv : w = v := by
    simp only at hrun
    split at hrun
    · obtain ⟨z, -, hz⟩ := Option.bind_eq_some_iff.mp hrun
      exact congrArg Prod.fst (Option.some.inj hz)
    · exact congrArg Prod.fst (Option.some.inj hrun)
  subst hwv
  refine ⟨x₁, hmap, fun hlt => ?_⟩
  simp only [if_pos hlt, Option.bind_eq_some_iff, Loader.munmap, Option.bind_eq_bind] at hrun
  obtain ⟨z, ⟨⟨error, t⟩, hunmap, hz⟩, hrun⟩ := hrun
  obtain rfl := Option.some.inj hz
  obtain ⟨-, rfl⟩ := Prod.mk.inj (Option.some.inj hrun)
  exact ⟨t, error, hunmap, rfl, rfl, rfl⟩

/-- The first header of a program that may be anywhere: a region of the size of the image is
mapped, and what is behind the pages of the header is given back. -/
theorem elfMap_reserve (h : Linked F x.store) (hal : PageEdges x.store)
    (hav : 6 ≤ F.avail x.store.heap) (hdup : DupSucceeds E) (hfd : fd ≠ noFd)
    (hfile : IsFile E fd dev inode) {addr totalSize size : U64} (htotal : totalSize ≠ 0#64)
    (hsize : pageAlign totalSize = size) (hzero : p.mapSize ≠ 0#64)
    (hmapAlign : p.mapSize.toNat % 4096 = 0) (hle : p.mapSize ≤ size)
    (hk : size ≤ x.store.glob.kernelMinAddress)
    (hun : ∀ q host, mmapPrepare E stray (pageAlignDown addr) size prot mapPrivate fd
      (p.pOffset - pageOffset p.pVaddr) x.store = some (some q, host) → q.Unmerged x.store.regions)
    (hrun : elfMap E stray fd addr p prot mapPrivate totalSize x = some (v, y))
    (hv : isErrValue v = false) (hlt : v < x.store.glob.kernelMinAddress) :
    v.toNat % 4096 = 0 ∧ v.toNat + size.toNat ≤ x.store.glob.kernelMinAddress.toNat ∧
      y.placed = x.placed ∧ (∃ cs, y.calls = x.calls ++ cs ∧ ∀ addr length,
        .memset addr length ∉ cs) ∧
      Paged F 6 x.store y.store (fileBytes dev inode v p.mapSize (p.pOffset - pageOffset p.pVaddr)
        (regionBytes v size x.store.byte)) := by
  obtain ⟨x₁, hmap, hrest⟩ := elfMap_mmap htotal hzero hrun
  rw [hsize] at hmap hrest
  have hself : pageAlign size = size := by
    rw [← hsize]
    apply pageAlign_of_aligned
    rw [toNat_pageAlign]
    omega
  have hsizeAlign : size.toNat % 4096 = 0 := by
    rw [← hsize, toNat_pageAlign]
    omega
  have hkNat := BitVec.le_def.mp hk
  have htop := x.store.glob.kernelMinAddress.isLt
  have hbounds : ∀ a, getUnmappedArea stray (pageAlignDown addr)
      (pageAlign size) mapPrivate x.store =
      some a → isErrValue a = false → a.toNat % 4096 = 0 ∧
        a.toNat + size.toNat ≤ x.store.glob.kernelMinAddress.toNat := by
    intro a ha haerr
    rw [hself] at ha
    obtain ⟨hbelow, halign⟩ := getUnmappedArea_bounds mapPrivate_flags ha haerr
    have hsub := BitVec.toNat_sub_of_le hk
    have hbelow' := BitVec.le_def.mp hbelow
    exact ⟨halign, by omega⟩
  obtain ⟨hplace, hplaced, hcalls, hpaged⟩ := Loader.mmap_file h hal (by omega) hdup hfd hfile
    (fun a ha haerr => by
      obtain ⟨halign, hfit⟩ := hbounds a ha haerr
      rw [hself]
      exact ⟨halign, by omega⟩) hun hmap hv
  obtain ⟨halign, hfit⟩ := hbounds v hplace hv
  refine ⟨halign, hfit, ?_⟩
  rw [hself] at hpaged
  -- the pages behind those of the header
  obtain ⟨t, error, hunmap, hstore, hsame, hcall⟩ := hrest (by rw [hpaged.glob]; exact hlt)
  have hleNat := BitVec.le_def.mp hle
  have hadd : (v + p.mapSize).toNat = v.toNat + p.mapSize.toNat := by
    rw [BitVec.toNat_add]
    omega
  have hsub := BitVec.toNat_sub_of_le hle
  have havail := hpaged.avail
  have hclear := paged_munmap (F := F) hpaged.linked hpaged.edges (by omega) hdup (fun hrest => by
    refine ⟨by omega, by omega, hrest, ?_⟩
    rw [hpaged.glob]
    omega) hunmap
  refine ⟨hsame.trans hplaced, ⟨[.mmap (pageAlignDown addr) size mapPrivate v,
    .munmap (v + p.mapSize) (size - p.mapSize)], ?_, fun addr length hmem => ?_⟩, ?_⟩
  · rw [hcall, hcalls, List.append_assoc]
    rfl
  · simp at hmem
  · obtain ⟨hlinked, hedges, hglob, havail', hbyte⟩ := hpaged.trans hclear
    rw [hstore]
    refine ⟨hlinked, hedges, hglob, havail', fun a => ?_⟩
    rw [hbyte, ← clearBytes_fileBytes x.store.byte hle (by omega) a, clearBytes, clearBytes,
      hpaged.byte]

end Loop

/-! ## The loop over the headers -/

/-- The variables of the loop before the first header of a program. -/
def mainStart : ElfProgress := ⟨false, 0#64, 0#64, 0#64, -1#64, 0#64, 0#64⟩

/-- `load_offset` that a program which may be anywhere is hinted at. -/
def hintOffset (glob : Globals) (p : Phdr) : U64 :=
  pageAlignDown (glob.kernelMinAddress / 3#64 * 2#64 - p.pVaddr)

/-- The mapping that the next header of a program asks for. -/
def mainRequest (E : Env σ η) (stray : U64) (fd : BitVec 32) (type : ElfType) (phdrs : List Phdr)
    (g : ElfProgress) (s : St σ η) (p : Phdr) : Option (Option Request × η) :=
  let prot := elfProt p.pFlags
  let off := p.pOffset - pageOffset p.pVaddr
  if p.mapSize = 0#64 then some (none, s.host)
  else if type = .exec ∨ g.foundEntry = true then
    mmapPrepare E stray (pageAlignDown (p.pVaddr + g.loadOffset)) p.mapSize prot
      (mapPrivate ||| mapFixed) fd off s
  else
    mmapPrepare E stray (pageAlignDown (p.pVaddr + hintOffset s.glob p))
      (pageAlign (totalMappingSize phdrs)) prot mapPrivate fd off s

/-- No mapping of the program is merged with a VMA that is there before it. -/
def NoneMerged (E : Env σ η) (stray : U64) (fd : BitVec 32) (type : ElfType) (phdrs : List Phdr)
    (s : St σ η) : Prop :=
  ∀ done p rest g x q host, loads phdrs = done ++ p :: rest →
    done.foldlM (loadPhdr E stray fd type phdrs false) (mainStart, ⟨s, [], []⟩) = some (g, x) →
      mainRequest E stray fd type phdrs g x.store p = some (some q, host) →
        q.Unmerged x.store.regions

/-- After some of the headers. -/
structure MainLoop {H : NodeHeap σ} (F : H.Fresh) (k : Nat) (s : St σ η) (type : ElfType)
    (bias dev inode : U64) (byte : U64 → Option PageByte) (done : List Phdr)
    (gx : ElfProgress × Loader σ η) : Prop where
  paged : Paged F k s gx.2.store (imageBytes dev inode bias done byte)
  fixed : type = .exec ∨ gx.1.foundEntry = true
  loadOffset : gx.1.loadOffset = bias
  maxFaddr : gx.1.maxFaddr.toNat = fileEnd done
  clean : ∀ addr length, .memset addr length ∉ gx.2.calls

section Loop

variable {F : E.toNodeHeap.Fresh} {x y : Loader σ η} {gx gy : ElfProgress × Loader σ η}
  {phdrs done : List Phdr} {p : Phdr} {type : ElfType} {bias dev inode stray v : U64}
  {fd : BitVec 32} {origin base k : Nat} {byte : U64 → Option PageByte} {g : ElfProgress}

/-- A header with `MAP_FIXED`. -/
theorem loadPhdr_fixed (hp : p.pType = ptLoad) (hfixed : type = .exec ∨ g.foundEntry = true)
    (hrun : loadPhdr E stray fd type phdrs false (g, x) p = some gy) :
    ∃ v y, elfMap E stray fd (p.pVaddr + g.loadOffset) p (elfProt p.pFlags)
        (mapPrivate ||| mapFixed) 0#64 x = some (v, y) ∧ isErrValue v = false ∧
      gy = (ElfProgress.next type false p v { g with totalSize := 0#64 },
        { y with placed := y.placed ++ [(p, v)] }) := by
  have hf : (type = .exec ∨ g.foundEntry = true) = True := eq_true hfixed
  simp only [loadPhdr, hp, hf, ne_eq, not_true_eq_false, false_and, if_false, if_true,
    Bool.false_eq_true, true_and, Option.bind_eq_bind, Option.bind_eq_some_iff] at hrun
  obtain ⟨⟨v, y⟩, hmap, hrun⟩ := hrun
  refine ⟨v, y, hmap, ?_⟩
  split at hrun
  · cases hrun
  · rename_i hval
    split at hrun
    · cases hrun
    · rw [not_or] at hval
      exact ⟨Bool.eq_false_iff.mpr hval.1, (Option.some.inj hrun).symm⟩

/-- The first header of a program that may be anywhere. -/
theorem loadPhdr_hinted (hp : p.pType = ptLoad) (hfound : g.foundEntry = false)
    (hrun : loadPhdr E stray fd .dyn phdrs false (g, x) p = some gy) :
    totalMappingSize phdrs ≠ 0#64 ∧
    ∃ v y, elfMap E stray fd (p.pVaddr + hintOffset x.store.glob p) p (elfProt p.pFlags) mapPrivate
        (totalMappingSize phdrs) x = some (v, y) ∧ isErrValue v = false ∧
      v < x.store.glob.kernelMinAddress ∧
      gy = (ElfProgress.next .dyn false p v
          { g with totalSize := totalMappingSize phdrs, loadOffset := hintOffset x.store.glob p },
        { y with placed := y.placed ++ [(p, v)] }) := by
  simp only [loadPhdr, hp, ne_eq, not_true_eq_false, if_false, hfound, reduceCtorEq, or_self,
    Bool.false_eq_true, not_false_eq_true, and_self, if_true, true_and, Option.bind_eq_bind,
    false_and] at hrun
  split at hrun
  · cases hrun
  · rename_i htotal
    refine ⟨htotal, ?_⟩
    obtain ⟨⟨v, y⟩, hmap, hrun⟩ := Option.bind_eq_some_iff.mp hrun
    refine ⟨v, y, hmap, ?_⟩
    simp only at hrun
    split at hrun
    · cases hrun
    · rename_i hval
      rw [not_or, not_not] at hval
      refine ⟨Bool.eq_false_iff.mpr hval.1, hval.2, ?_⟩
      rw [hfound]
      exact (Option.some.inj hrun).symm

theorem ElfProgress.next_fixed (hfixed : type = .exec ∨ g.foundEntry = true) :
    (g.next type false p v).foundEntry = true ∧ (g.next type false p v).loadOffset = g.loadOffset ∧
      (g.next type false p v).maxFaddr =
        if g.maxFaddr < p.pVaddr + p.pFilesz then p.pVaddr + p.pFilesz else g.maxFaddr := by
  cases hfound : g.foundEntry with
  | true => simp [ElfProgress.next, hfound]
  | false =>
      obtain rfl : type = .exec := by simpa [hfound] using hfixed
      simp [ElfProgress.next, hfound]

theorem toNat_maxFaddr {old : U64} {n : Nat} (hold : old.toNat = n)
    (hp : p.pVaddr.toNat + p.pFilesz.toNat < 2 ^ 64) :
    (if old < p.pVaddr + p.pFilesz then p.pVaddr + p.pFilesz else old).toNat =
      max n (p.pVaddr.toNat + p.pFilesz.toNat) := by
  have hadd : (p.pVaddr + p.pFilesz).toNat = p.pVaddr.toNat + p.pFilesz.toNat := by
    rw [BitVec.toNat_add]
    omega
  split
  · rename_i hlt
    have hlt' := BitVec.lt_def.mp hlt
    omega
  · rename_i hge
    have hge' := BitVec.le_def.mp (BitVec.not_lt.mp hge)
    omega

/-- One header with `MAP_FIXED`. -/
theorem MainLoop.step (h : MainLoop F k s type bias dev inode byte done gx)
    (hav : 3 + k ≤ F.avail s.heap) (hdup : DupSucceeds E) (hfd : fd ≠ noFd)
    (hfile : IsFile E fd dev inode) (hb : Biased phdrs bias origin base) (hp : p ∈ loads phdrs)
    (hun : ∀ q host, mainRequest E stray fd type phdrs gx.1 gx.2.store p = some (some q, host) →
      q.Unmerged gx.2.store.regions)
    (hrun : loadPhdr E stray fd type phdrs false gx p = some gy) :
    MainLoop F (k + 3) s type bias dev inode byte (done ++ [p]) gy := by
  obtain ⟨g, x⟩ := gx
  have hpaged := h.paged
  have hfixed := h.fixed
  have hoff := h.loadOffset
  have havail := hpaged.avail
  simp only at hpaged hfixed hoff havail
  have hload : p.pType = ptLoad := by simpa using (List.mem_filter.mp hp).2
  obtain ⟨v, y, hmap, hv, rfl⟩ := loadPhdr_fixed hload hfixed hrun
  rw [hoff] at hmap
  obtain ⟨-, ⟨cs, hcs, hclean⟩, hpaged'⟩ := elfMap_pages hpaged.linked hpaged.edges (by omega) hdup
    hfd hfile hb hp (fun hzero q host hq => by
      apply hun q host
      simp only [mainRequest, if_neg hzero, if_pos hfixed]
      rw [hoff]
      exact hq) hmap hv
  obtain ⟨hnext₁, hnext₂, hnext₃⟩ := ElfProgress.next_fixed (p := p) (v := v)
    (g := { g with totalSize := 0#64 }) hfixed
  obtain ⟨hlinked, hedges, hglob, havail', hbyte⟩ := hpaged.trans hpaged'
  refine ⟨⟨hlinked, hedges, hglob, havail', fun a => ?_⟩, Or.inr hnext₁, ?_, ?_, ?_⟩
  · show y.store.byte a = _
    rw [hbyte, imageBytes_append hb.align, fileBytes, fileBytes, hpaged.byte]
  · show (ElfProgress.next type false p v _).loadOffset = bias
    rw [hnext₂]
    exact hoff
  · show (ElfProgress.next type false p v _).maxFaddr.toNat = _
    rw [hnext₃, fileEnd_append]
    exact toNat_maxFaddr h.maxFaddr (hb.image.file_no_wrap hp)
  · intro addr length hmem
    have hmem' : ElfCall.memset addr length ∈ x.calls ++ cs := by
      rw [← hcs]
      exact hmem
    rcases List.mem_append.mp hmem' with hold | hnew
    · exact h.clean addr length hold
    · exact hclean addr length hnew

/-- The headers after some of them. -/
theorem MainLoop.run {done rest : List Phdr} (h : MainLoop F k s type bias dev inode byte done gx)
    (hav : 3 * rest.length + k ≤ F.avail s.heap) (hdup : DupSucceeds E) (hfd : fd ≠ noFd)
    (hfile : IsFile E fd dev inode) (hb : Biased phdrs bias origin base)
    (hall : loads phdrs = done ++ rest) (hnone : NoneMerged E stray fd type phdrs s)
    (hdone : done.foldlM (loadPhdr E stray fd type phdrs false) (mainStart, ⟨s, [], []⟩) = some gx)
    (hrun : rest.foldlM (loadPhdr E stray fd type phdrs false) gx = some gy) :
    ∃ l, MainLoop F l s type bias dev inode byte (loads phdrs) gy := by
  induction rest generalizing done gx k with
  | nil =>
      obtain rfl := Option.some.inj hrun
      rw [hall, List.append_nil]
      exact ⟨k, h⟩
  | cons p rest ih =>
      rw [List.foldlM_cons] at hrun
      obtain ⟨gz, hstep, hrun⟩ := Option.bind_eq_some_iff.mp hrun
      rw [List.length_cons] at hav
      have hp : p ∈ loads phdrs := by
        rw [hall]
        exact List.mem_append_right done List.mem_cons_self
      have hloop := h.step (by omega) hdup hfd hfile hb hp
        (fun q host hq => hnone done p rest gx.1 gx.2 q host hall hdone hq) hstep
      apply ih hloop (by omega) _ _ hrun
      · rw [hall, List.append_assoc]
        rfl
      · rw [List.foldlM_append, hdone]
        show [p].foldlM (loadPhdr E stray fd type phdrs false) gx = some gz
        rw [List.foldlM_cons, hstep]
        rfl

end Loop

end BufferVM
