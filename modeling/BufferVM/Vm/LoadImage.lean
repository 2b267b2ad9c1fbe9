/-
  Vm/LoadImage.lean --- `load_elf_binary` of `vm/elf.c`, which loads the kernel's image.

  The headers are taken in their order.  One that is not to be loaded is passed over, and so is
  one without a byte in the file, however much memory it asks for.  Each other one is a call of
  `load_address_space`, and the pages of one call are kept by the calls after it as long as no
  two headers share a page.
-/
import BufferVM.Kernel.ElfLoad
import BufferVM.Vm.LoadSegment

set_option autoImplicit false

namespace BufferVM

/-! ## `load_elf_binary` -/

/-- The flags of a header's pages. -/
def Phdr.pageFlags (p : Phdr) : U64 :=
  let flags := if p.pFlags &&& pfW ≠ 0#32 then pde64Writeable else 0#64
  if p.pFlags &&& pfX = 0#32 then flags ||| pde64NoExe else flags

/-- The bytes from the beginning of a segment on, with `elf_rawfile` at `raw`. -/
def Phdr.fileBytes (raw : Nat → BitVec 8) (p : Phdr) : Nat → BitVec 8 :=
  fun k => raw (p.pOffset.toNat + k)

/-- The loop of `load_elf_binary`, with `min_addr` and `max_addr`.  `some none` is the return
from the middle of the loop. -/
def loadElfHeaders (raw : Nat → BitVec 8) :
    List Phdr → U64 → U64 → Vm → Option (Option (U64 × U64) × Vm)
  | [], minAddr, maxAddr, vm => some (some (minAddr, maxAddr), vm)
  | p :: phdrs, minAddr, maxAddr, vm =>
      if p.pType ≠ ptLoad then loadElfHeaders raw phdrs minAddr maxAddr vm
      else if p.pMemsz < p.pFilesz then some (none, vm)
      else if p.pFilesz = 0#64 then loadElfHeaders raw phdrs minAddr maxAddr vm
      else do
        let (_, vm) ← loadSegment p.pVaddr p.pMemsz (p.fileBytes raw) p.pFilesz p.pageFlags vm
        let sectionMaxAddr := p.pVaddr + p.pMemsz
        loadElfHeaders raw phdrs (if p.pVaddr < minAddr then p.pVaddr else minAddr)
          (if maxAddr < sectionMaxAddr then sectionMaxAddr else maxAddr) vm

/-- What the host keeps of `elf_info`. -/
structure ElfBinary where
  entryAddr : U64
  minPageAddr : U64
  maxPageAddr : U64

/-- `load_elf_binary`, with `e_entry` and the headers of the file. -/
def loadElfBinary (eEntry : U64) (raw : Nat → BitVec 8) (phdrs : List Phdr) (vm : Vm) :
    Option (Option ElfBinary × Vm) :=
  (loadElfHeaders raw phdrs (-1#64) 0#64 vm).map fun x =>
    (x.1.map fun b => ⟨eEntry, pageAlignDown b.1, pageAlign b.2⟩, x.2)

/-! ## Headers -/

/-- A header that is loaded. -/
def Phdr.Loaded (p : Phdr) : Prop := p.pType = ptLoad ∧ p.pFilesz ≠ 0#64

instance (p : Phdr) : Decidable p.Loaded := inferInstanceAs (Decidable (_ ∧ _))

/-- The pages of a header. -/
def Phdr.pages (p : Phdr) : Nat := (p.pMemsz.toNat + 4095) / 4096

/-- The address at an index. -/
def Phdr.addr (p : Phdr) (k : Nat) : U64 := p.pVaddr + BitVec.ofNat 64 k

/-- An address lies on a page of the header. -/
def Phdr.HasPage (p : Phdr) (v : U64) : Prop :=
  ∃ k, k < p.pMemsz.toNat ∧ pageNumber v = pageNumber (p.addr k)

/-- A segment that begins on a page and does not end in the last one of all, and of which no
page begins behind the bytes of the file. -/
structure Phdr.Fits (p : Phdr) : Prop where
  le : p.pFilesz ≤ p.pMemsz
  align : PageAligned p.pVaddr
  ends : p.pVaddr.toNat + p.pMemsz.toNat + 4096 ≤ 2 ^ 64
  small : p.pMemsz.toNat ≤ 2 ^ 39
  covered : 4096 * p.pages ≤ p.pFilesz.toNat + 4096

/-- The pages that an image needs. -/
def imagePages (phdrs : List Phdr) : Nat :=
  ((phdrs.filter fun p => p.Loaded).map Phdr.pages).sum

/-- A kernel's image: its segments fit, and no two of them share a page. -/
structure ImageFits (phdrs : List Phdr) : Prop where
  le : ∀ p ∈ phdrs, p.pType = ptLoad → p.pFilesz ≤ p.pMemsz
  fits : ∀ p ∈ phdrs, p.Loaded → p.Fits
  apart : phdrs.Pairwise fun p q => p.Loaded → q.Loaded → ∀ v, p.HasPage v → ¬ q.HasPage v

/-- Each byte of a header is on a frame of data, mapped with the header's flags. -/
def Phdr.Held (raw : Nat → BitVec 8) (vm : Vm) (p : Phdr) : Prop :=
  ∀ k, k < p.pMemsz.toNat → ∃ f, vm.IsData f ∧
    vm.pte (p.addr k) = some (leafEntry p.pageFlags (frameAddr f)) ∧
    byteOf (vm.mem f) (p.addr k) = segmentByte (p.fileBytes raw) p.pFilesz k

section

variable {raw : Nat → BitVec 8} {vm vm' : Vm} {p : Phdr} {phdrs : List Phdr}

theorem Phdr.pageFlags_flagBits (p : Phdr) : p.pageFlags &&& ~~~flagBits = 0#64 := by
  unfold Phdr.pageFlags
  split <;> split <;> decide

/-- What the loop sees of a segment that fits. -/
theorem Phdr.Fits.range (h : p.Fits) (hl : p.Loaded) :
    0 < p.pMemsz.toNat ∧ p.pVaddr < p.pVaddr + p.pMemsz ∧
      (p.pVaddr + p.pMemsz).toNat = p.pVaddr.toNat + p.pMemsz.toNat ∧
      segmentPages p.pVaddr (p.pVaddr + p.pMemsz) = p.pages := by
  have hle := BitVec.le_def.mp h.le
  have hne := hl.2
  have hends := h.ends
  have hpos : 0 < p.pMemsz.toNat := by
    have hfile : p.pFilesz.toNat ≠ 0 := fun hzero => hne (BitVec.eq_of_toNat_eq hzero)
    omega
  have hlt : p.pVaddr < p.pVaddr + p.pMemsz := by
    rw [BitVec.lt_def, BitVec.toNat_add]
    omega
  obtain ⟨hadd, hpages⟩ := toNat_range hlt
  exact ⟨hpos, hlt, hadd, hpages⟩

/-- A range of pages needs two tables a page at most. -/
theorem missingTables_le (vm : Vm) (n : Nat) : ∀ v : U64, vm.missingTables n v ≤ 2 * n := by
  induction n with
  | zero => intro v; rfl
  | succ n ih =>
      intro v
      have hpaths : (vm.missing (tablePaths v)).card ≤ 2 :=
        (Finset.card_filter_le _ _).trans Finset.card_le_two
      have hrest := ih (v + pageSize)
      rw [Vm.missingTables] at hrest
      rw [missingTables_succ]
      have hunion : vm.missing (tablePaths v ∪ tablesFor (rangePages n (v + pageSize))) =
          vm.missing (tablePaths v) ∪ vm.missing (tablesFor (rangePages n (v + pageSize))) :=
        Finset.filter_union _ _ _
      have hcard := Finset.card_union_le (vm.missing (tablePaths v))
        (vm.missing (tablesFor (rangePages n (v + pageSize))))
      rw [hunion]
      omega

/-! ## One header -/

/-- **One call of `load_address_space`** holds its header and leaves every other page. -/
theorem loadHeader (raw : Nat → BitVec 8) (hp : vm.Paged) (h : p.Fits) (hl : p.Loaded)
    (hroom : vm.pageCounter + 3 * p.pages + 4 ≤ maxFrames) : ∃ reads vm',
    loadSegment p.pVaddr p.pMemsz (p.fileBytes raw) p.pFilesz p.pageFlags vm = some (reads, vm') ∧
      vm'.Paged ∧ vm'.pageCounter ≤ vm.pageCounter + 3 * p.pages ∧ vm.KeepsFrames vm' ∧
      (∀ v, ¬ p.HasPage v → vm'.pte v = vm.pte v) ∧ p.Held raw vm' := by
  obtain ⟨hpos, hlt, hadd, hpages⟩ := h.range hl
  have hends := h.ends
  have hsmall := h.small
  have hcov := h.covered
  have hn : p.pages ≤ 2 ^ 27 ∧ 4096 * p.pages < p.pMemsz.toNat + 4096 ∧
      p.pMemsz.toNat ≤ 4096 * p.pages := by
    rw [Phdr.pages]
    omega
  have hmissing := missingTables_le vm p.pages p.pVaddr
  obtain ⟨vm', hload⟩ : ∃ vm', loadLoop (p.pVaddr + p.pMemsz) p.pageFlags
      (segmentPage (p.fileBytes raw) p.pFilesz) (2 ^ 52 + 1) 0 p.pVaddr vm = some vm' :=
    loadLoop_some (by omega) (by rw [hpages]; omega)
  obtain ⟨hpaged, hcount⟩ := loadLoop_spec hp hload (Or.inl (by rw [hpages]; omega))
  rw [hpages] at hcount
  obtain ⟨hkeeps, hrest, hreads⟩ := loadLoop_reads hp hload (by omega)
  rw [hpages] at hrest hreads
  have haddr : ∀ k, k < p.pMemsz.toNat + 4096 → (p.addr k).toNat = p.pVaddr.toNat + k := by
    intro k hk
    rw [Phdr.addr, BitVec.toNat_add, BitVec.toNat_ofNat]
    omega
  have hpage : ∀ j, p.pVaddr + frameAddr j = p.addr (4096 * j) := by
    intro j
    rw [Phdr.addr, frameAddr, Nat.mul_comm]
  refine ⟨_, vm', by rw [loadSegment_eq, loadAddressSpace, hload, Option.map_some], hpaged,
    by omega, hkeeps, fun v hv => hrest v fun j hj heq => ?_, fun k hk => ?_⟩
  · exact hv ⟨4096 * j, by omega, by rw [heq, hpage]⟩
  · have hal : p.pVaddr.toNat % 4096 = 0 := h.align
    have hj : k / 4096 < p.pages := by omega
    obtain ⟨f, hdata, hpte, hmem⟩ := hreads (k / 4096) hj fun l hl hl' => by
      rw [hpage, hpage, pageNumber, pageNumber, haddr _ (by omega), haddr _ (by omega)]
      omega
    have hsame : pageNumber (p.addr k) = pageNumber (p.pVaddr + frameAddr (k / 4096)) := by
      rw [hpage, pageNumber, pageNumber, haddr _ (by omega), haddr _ (by omega)]
      omega
    refine ⟨f, hdata, (Vm.pte_congr hsame).trans hpte, ?_⟩
    rw [hmem, Nat.zero_add, byteOf_segmentPage (by omega), haddr k (by omega)]
    congr 1
    omega

/-- A header stays held while its pages keep their entries and frames. -/
theorem Phdr.Held.keep (h : p.Held raw vm) (hkeeps : vm.KeepsFrames vm')
    (hpte : ∀ k, k < p.pMemsz.toNat → vm'.pte (p.addr k) = vm.pte (p.addr k)) :
    p.Held raw vm' := by
  intro k hk
  obtain ⟨f, hdata, hentry, hbyte⟩ := h k hk
  obtain ⟨hdata', hmem⟩ := hkeeps f hdata
  exact ⟨f, hdata', (hpte k hk).trans hentry, by rw [hmem, hbyte]⟩

/-- A header that is held reads as its segment. -/
theorem Phdr.Held.readByte (h : p.Held raw vm) (hp : vm.Paged)
    (hb : vm.pageCounter ≤ maxFrames) {k : Nat} (hk : k < p.pMemsz.toNat) :
    vm.readByte (p.addr k) = some (segmentByte (p.fileBytes raw) p.pFilesz k) := by
  obtain ⟨f, hdata, hentry, hbyte⟩ := h k hk
  have hf := hdata.lt
  rw [readByte_of_pte hp p.pageFlags_flagBits (by omega) hentry, hbyte]

/-! ## All headers -/

/-- What loading leaves: every header is held, and every other page and every frame of data
that was there is kept. -/
structure ImageLoaded (raw : Nat → BitVec 8) (phdrs : List Phdr) (vm vm' : Vm) : Prop where
  paged : vm'.Paged
  counter : vm'.pageCounter ≤ vm.pageCounter + 3 * imagePages phdrs
  keeps : vm.KeepsFrames vm'
  others : ∀ v, (∀ p ∈ phdrs, p.Loaded → ¬ p.HasPage v) → vm'.pte v = vm.pte v
  held : ∀ p ∈ phdrs, p.Loaded → p.Held raw vm'

theorem ImageLoaded.skip (h : ImageLoaded raw phdrs vm vm') (hp : ¬ p.Loaded) :
    ImageLoaded raw (p :: phdrs) vm vm' := by
  refine ⟨h.paged, ?_, h.keeps, fun v hv => ?_, fun q hq hl => ?_⟩
  · rw [imagePages, List.filter_cons_of_neg (by simpa using hp)]
    exact h.counter
  · exact h.others v fun q hq => hv q (List.mem_cons_of_mem _ hq)
  · rcases List.mem_cons.mp hq with rfl | hq
    · exact absurd hl hp
    · exact h.held q hq hl

theorem imagePages_loaded (phdrs : List Phdr) (hl : p.Loaded) :
    imagePages (p :: phdrs) = p.pages + imagePages phdrs := by
  rw [imagePages, List.filter_cons_of_pos (by simpa using hl), List.map_cons, List.sum_cons]
  rfl

theorem ImageFits.tail (h : ImageFits (p :: phdrs)) : ImageFits phdrs :=
  ⟨fun q hq => h.le q (List.mem_cons_of_mem _ hq), fun q hq => h.fits q (List.mem_cons_of_mem _ hq),
    h.apart.of_cons⟩

/-- The loop comes to its end and loads every header. -/
theorem loadElfHeaders_loaded (raw : Nat → BitVec 8) (phdrs : List Phdr) :
    ∀ (minAddr maxAddr : U64) {vm : Vm}, vm.Paged → ImageFits phdrs →
      vm.pageCounter + 3 * imagePages phdrs + 4 ≤ maxFrames → ∃ b vm',
        loadElfHeaders raw phdrs minAddr maxAddr vm = some (some b, vm') ∧
          ImageLoaded raw phdrs vm vm' := by
  induction phdrs with
  | nil =>
      intro minAddr maxAddr vm hp _ _
      exact ⟨(minAddr, maxAddr), vm, rfl, hp, Nat.le_add_right _ _, fun f hf => ⟨hf, rfl⟩,
        fun v _ => rfl, fun q hq => absurd hq List.not_mem_nil⟩
  | cons p phdrs ih =>
      intro minAddr maxAddr vm hp hfits hroom
      by_cases hl : p.Loaded
      · obtain ⟨htype, hfile⟩ := hl
        have hl : p.Loaded := ⟨htype, hfile⟩
        rw [imagePages_loaded phdrs hl] at hroom
        obtain ⟨reads, vm₁, hload, hp₁, hcount₁, hkeeps₁, hothers₁, hheld₁⟩ :=
          loadHeader raw hp (hfits.fits p List.mem_cons_self hl) hl (by omega)
        obtain ⟨b, vm₂, hrun, h₂⟩ := ih (if p.pVaddr < minAddr then p.pVaddr else minAddr)
          (if maxAddr < p.pVaddr + p.pMemsz then p.pVaddr + p.pMemsz else maxAddr)
          hp₁ hfits.tail (by omega)
        have hle := hfits.le p List.mem_cons_self htype
        refine ⟨b, vm₂, ?_, h₂.paged, ?_, hkeeps₁.trans h₂.keeps, fun v hv => ?_,
          fun q hq hq' => ?_⟩
        · rw [loadElfHeaders, if_neg (not_not.mpr htype), if_neg (BitVec.not_lt.mpr hle),
            if_neg hfile, hload]
          exact hrun
        · have hcount₂ := h₂.counter
          rw [imagePages_loaded phdrs hl]
          omega
        · rw [h₂.others v fun q hq => hv q (List.mem_cons_of_mem _ hq),
            hothers₁ v (hv p List.mem_cons_self hl)]
        · rcases List.mem_cons.mp hq with rfl | hq
          · -- the later headers have none of its pages
            refine hheld₁.keep h₂.keeps fun k hk => h₂.others _ fun r hr hr' => ?_
            exact (List.pairwise_cons.mp hfits.apart).1 r hr hl hr' _ ⟨k, hk, rfl⟩
          · exact h₂.held q hq hq'
      · have hpages : imagePages (p :: phdrs) = imagePages phdrs := by
          rw [imagePages, List.filter_cons_of_neg (by simpa using hl)]
          rfl
        rw [hpages] at hroom
        obtain ⟨b, vm', hrun, h'⟩ := ih minAddr maxAddr hp hfits.tail hroom
        refine ⟨b, vm', ?_, h'.skip hl⟩
        by_cases htype : p.pType = ptLoad
        · have hfile : p.pFilesz = 0#64 := by
            by_contra hne
            exact hl ⟨htype, hne⟩
          have hle := hfits.le p List.mem_cons_self htype
          rw [loadElfHeaders, if_neg (not_not.mpr htype), if_neg (BitVec.not_lt.mpr hle),
            if_pos hfile]
          exact hrun
        · rw [loadElfHeaders, if_pos htype]
          exact hrun

/-- The bounds of a loop that began with `minAddr` and `maxAddr` hold every header, and the
end can be rounded up to a page. -/
structure BoundsHold (phdrs : List Phdr) (minAddr maxAddr : U64) (b : U64 × U64) : Prop where
  low : b.1.toNat ≤ minAddr.toNat
  high : maxAddr.toNat ≤ b.2.toNat
  top : b.2.toNat + 4096 ≤ 2 ^ 64
  all : ∀ p ∈ phdrs, p.Loaded → b.1 ≤ p.pVaddr ∧ p.pVaddr + p.pMemsz ≤ b.2

theorem BoundsHold.skip {minAddr maxAddr : U64} {b : U64 × U64}
    (h : BoundsHold phdrs minAddr maxAddr b) (hl : ¬ p.Loaded) :
    BoundsHold (p :: phdrs) minAddr maxAddr b := by
  refine ⟨h.low, h.high, h.top, fun q hq hq' => ?_⟩
  rcases List.mem_cons.mp hq with rfl | hq
  · exact absurd hq' hl
  · exact h.all q hq hq'

/-- One header more, with the two comparisons of the loop. -/
theorem BoundsHold.header {minAddr maxAddr : U64} {b : U64 × U64}
    (h : BoundsHold phdrs (if p.pVaddr < minAddr then p.pVaddr else minAddr)
      (if maxAddr < p.pVaddr + p.pMemsz then p.pVaddr + p.pMemsz else maxAddr) b) :
    BoundsHold (p :: phdrs) minAddr maxAddr b := by
  have hlow : b.1.toNat ≤ minAddr.toNat ∧ b.1.toNat ≤ p.pVaddr.toNat := by
    have hlow := h.low
    by_cases hlt : p.pVaddr < minAddr
    · rw [if_pos hlt] at hlow
      rw [BitVec.lt_def] at hlt
      omega
    · rw [if_neg hlt] at hlow
      rw [BitVec.lt_def] at hlt
      omega
  have hhigh : maxAddr.toNat ≤ b.2.toNat ∧ (p.pVaddr + p.pMemsz).toNat ≤ b.2.toNat := by
    have hhigh := h.high
    by_cases hlt : maxAddr < p.pVaddr + p.pMemsz
    · rw [if_pos hlt] at hhigh
      rw [BitVec.lt_def] at hlt
      omega
    · rw [if_neg hlt] at hhigh
      rw [BitVec.lt_def] at hlt
      omega
  refine ⟨hlow.1, hhigh.1, h.top, fun q hq hq' => ?_⟩
  rcases List.mem_cons.mp hq with rfl | hq
  · exact ⟨BitVec.le_def.mpr hlow.2, BitVec.le_def.mpr hhigh.2⟩
  · exact h.all q hq hq'

/-- What the loop reports. -/
theorem loadElfHeaders_bounds (raw : Nat → BitVec 8) (phdrs : List Phdr) :
    ∀ {minAddr maxAddr : U64} {vm vm' : Vm} {b : U64 × U64},
      loadElfHeaders raw phdrs minAddr maxAddr vm = some (some b, vm') →
      (∀ p ∈ phdrs, p.Loaded → p.Fits) → maxAddr.toNat + 4096 ≤ 2 ^ 64 →
      BoundsHold phdrs minAddr maxAddr b := by
  induction phdrs with
  | nil =>
      intro minAddr maxAddr vm vm' b hrun _ hmax
      obtain ⟨hb, -⟩ := Prod.mk.inj (Option.some.inj hrun)
      obtain rfl := Option.some.inj hb
      exact ⟨Nat.le_refl _, Nat.le_refl _, hmax, fun q hq => absurd hq List.not_mem_nil⟩
  | cons p phdrs ih =>
      intro minAddr maxAddr vm vm' b hrun hfits hmax
      have htail : ∀ q ∈ phdrs, q.Loaded → q.Fits := fun q hq => hfits q (List.mem_cons_of_mem _ hq)
      rw [loadElfHeaders] at hrun
      split at hrun
      · rename_i htype
        exact (ih hrun htail hmax).skip fun hl => htype hl.1
      · rename_i htype
        split at hrun
        · exact absurd hrun (by simp)
        · split at hrun
          · rename_i hfile
            exact (ih hrun htail hmax).skip fun hl => hl.2 hfile
          · rename_i hfile
            have hl : p.Loaded := ⟨not_not.mp htype, hfile⟩
            have hp := hfits p List.mem_cons_self hl
            obtain ⟨-, -, hadd, -⟩ := hp.range hl
            have hends := hp.ends
            simp only [Option.bind_eq_bind, Option.bind_eq_some_iff] at hrun
            obtain ⟨x, -, hrun⟩ := hrun
            refine (ih hrun htail ?_).header
            split
            · omega
            · exact hmax

/-- **The kernel's image is loaded.**  When its segments fit, share no page and there are
frames for them, `load_elf_binary` comes back with 0; every byte of every segment with bytes
in the file then reads as in the file, and zero behind them, on a page with the header's flags
and inside the bounds that are reported; and what was mapped on any other page is still
there. -/
theorem kernelImage_loaded (eEntry : U64) (raw : Nat → BitVec 8) (hp : vm.Paged)
    (hfits : ImageFits phdrs) (hroom : vm.pageCounter + 3 * imagePages phdrs + 4 ≤ maxFrames) :
    ∃ info vm', loadElfBinary eEntry raw phdrs vm = some (some info, vm') ∧
      info.entryAddr = eEntry ∧
      (∀ p ∈ phdrs, p.Loaded → ∀ k, k < p.pMemsz.toNat →
        vm'.readByte (p.addr k) = some (segmentByte (p.fileBytes raw) p.pFilesz k) ∧
        (∃ f, vm'.pte (p.addr k) = some (leafEntry p.pageFlags (frameAddr f))) ∧
        info.minPageAddr ≤ p.addr k ∧ p.addr k < info.maxPageAddr) ∧
      (∀ v, (∀ p ∈ phdrs, p.Loaded → ¬ p.HasPage v) → vm'.pte v = vm.pte v) ∧
      vm.KeepsFrames vm' := by
  obtain ⟨b, vm', hrun, h⟩ := loadElfHeaders_loaded raw phdrs (-1#64) 0#64 hp hfits hroom
  obtain ⟨-, -, htop, hbounds⟩ := loadElfHeaders_bounds raw phdrs hrun hfits.fits (by decide)
  have hcount := h.counter
  refine ⟨_, vm', by rw [loadElfBinary, hrun]; rfl, rfl, fun p hpm hl k hk => ?_, h.others,
    h.keeps⟩
  have hheld := h.held p hpm hl
  obtain ⟨f, -, hentry, -⟩ := hheld k hk
  obtain ⟨hmin, hmax⟩ := hbounds p hpm hl
  obtain ⟨-, -, hadd, -⟩ := (hfits.fits p hpm hl).range hl
  have hends := (hfits.fits p hpm hl).ends
  have haddr : (p.addr k).toNat = p.pVaddr.toNat + k := by
    rw [Phdr.addr, BitVec.toNat_add, BitVec.toNat_ofNat]
    omega
  have hdown := toNat_pageAlignDown b.1
  have hup := toNat_pageAlign b.2
  rw [BitVec.le_def] at hmin hmax
  refine ⟨hheld.readByte h.paged (by omega) hk, ⟨f, hentry⟩, BitVec.le_def.mpr ?_,
    BitVec.lt_def.mpr ?_⟩
  · show (pageAlignDown b.1).toNat ≤ _
    omega
  · show _ < (pageAlign b.2).toNat
    omega

end

/-- A small image: code of a page and a half, and 16 bytes of data with a zeroed rest of the
page. -/
def smallImage : List Phdr :=
  [ { pType := ptLoad, pFlags := pfX ||| pfR, pOffset := 0#64, pVaddr := 0x1000#64,
      pFilesz := 0x1800#64, pMemsz := 0x1800#64 },
    { pType := ptLoad, pFlags := pfW ||| pfR, pOffset := 0x1800#64, pVaddr := 0x4000#64,
      pFilesz := 0x10#64, pMemsz := 0x400#64 } ]

theorem imageFits_smallImage : ImageFits smallImage := by
  refine ⟨by decide, ?_, ?_⟩
  · have hall : ∀ p ∈ smallImage, p.pFilesz ≤ p.pMemsz ∧ PageAligned p.pVaddr ∧
        p.pVaddr.toNat + p.pMemsz.toNat + 4096 ≤ 2 ^ 64 ∧ p.pMemsz.toNat ≤ 2 ^ 39 ∧
        4096 * p.pages ≤ p.pFilesz.toNat + 4096 := by
      decide +kernel
    intro p hp _
    obtain ⟨hle, halign, hends, hsmall, hcovered⟩ := hall p hp
    exact ⟨hle, halign, hends, hsmall, hcovered⟩
  · refine List.pairwise_pair.mpr fun _ _ v hv hv' => ?_
    obtain ⟨k, hk, hkv⟩ := hv
    obtain ⟨l, hl, hlv⟩ := hv'
    simp only [Phdr.addr, pageNumber, BitVec.toNat_add, BitVec.toNat_ofNat] at hk hkv hl hlv
    omega

theorem kernelImage_loaded_small : ∃ info vm', loadElfBinary 0x1000#64
      (fun k => BitVec.ofNat 8 k) smallImage (buildPageTables blankVm) = some (some info, vm') ∧
    info.entryAddr = 0x1000#64 ∧
    (∀ p ∈ smallImage, p.Loaded → ∀ k, k < p.pMemsz.toNat →
      vm'.readByte (p.addr k) =
        some (segmentByte (p.fileBytes fun k => BitVec.ofNat 8 k) p.pFilesz k) ∧
      (∃ f, vm'.pte (p.addr k) = some (leafEntry p.pageFlags (frameAddr f))) ∧
      info.minPageAddr ≤ p.addr k ∧ p.addr k < info.maxPageAddr) ∧
    (∀ v, (∀ p ∈ smallImage, p.Loaded → ¬ p.HasPage v) →
      vm'.pte v = (buildPageTables blankVm).pte v) ∧
    (buildPageTables blankVm).KeepsFrames vm' :=
  kernelImage_loaded 0x1000#64 _ initial_blankVm.refines.paged imageFits_smallImage
    (by decide +kernel)

end BufferVM
