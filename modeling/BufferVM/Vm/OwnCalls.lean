/-
  Vm/OwnCalls.lean --- the calls that map pages give every page a frame of its own.

  `build_page_tables` leaves no page at all, and what is mapped after it gets frames that have
  not been handed out before.  Only a call that names its frames could show one at two pages:
  of it the frames have to be shown by no page yet.  `kernel_main` does otherwise once, for
  the frame of the descriptor table, and takes the first of the two pages away afterwards.
-/
import BufferVM.Vm.Contents
import BufferVM.Vm.OwnPages

set_option autoImplicit false

namespace BufferVM

variable {ω : Type}

section

variable {vm vm' : Vm} {virt phys flags : U64} {noOverwrite : Bool}

/-- `build_page_tables` leaves no page. -/
theorem Vm.Built.separate (h : vm.Built) : vm.Separate where
  paged := h.paged
  fresh := h.fresh
  data v e he := absurd (h.pte v) (by rw [he]; exact Option.some_ne_none e)
  apart v _ e _ he := absurd (h.pte v) (by rw [he]; exact Option.some_ne_none e)

/-! ## One page -/

/-- A page is taken away. -/
theorem Vm.Separate.unmapPage (h : vm.Separate) (virt : U64)
    (hb : (unmapPhysicalPage virt vm).pageCounter ≤ maxFrames) :
    (unmapPhysicalPage virt vm).Separate := by
  have hu := unmapPhysicalPage_spec h.paged virt hb
  refine h.of_entries hu.paged (hu.fresh h.fresh) hu.keepsData fun v e he => Or.inl ?_
  have hpte : (unmapPhysicalPage virt vm).pte v =
      if pageNumber v = pageNumber virt then none else vm.pte v := hu.pte v
  rw [hpte] at he
  split at he
  · exact absurd he (by simp)
  · exact he

/-! ## Ranges of pages -/

/-- A range of frames that no page shows is mapped. -/
theorem Vm.Separate.range (h : vm.Separate) (hflags : flags &&& ~~~flagBits = 0#64) {n c : Nat}
    (hc : ∀ f, c ≤ f → f < c + n → vm.IsData f ∧ ¬ vm.Shows f)
    (hb : (mapRange flags noOverwrite n virt (frameAddr c) vm).pageCounter ≤ maxFrames) :
    (mapRange flags noOverwrite n virt (frameAddr c) vm).Separate := by
  induction n generalizing virt c vm with
  | zero => exact h
  | succ n ih =>
      have hnext : mapRange flags noOverwrite (n + 1) virt (frameAddr c) vm =
          mapRange flags noOverwrite n (virt + pageSize) (frameAddr (c + 1))
            (mapPhysicalPage virt (frameAddr c) flags noOverwrite vm) := by
        rw [mapRange, pageSize_eq, frameAddr_add]
      rw [hnext] at hb ⊢
      have hb' := (le_pageCounter_mapRange _ _ n _ _ _).trans hb
      have hfirst := hc c le_rfl (by omega)
      have hu := mapPhysicalPage_spec h.paged virt (frameAddr c) flags noOverwrite
        (pageAligned_frameAddr c).ne_pageCreate hb'
      obtain ⟨hpage, hshows⟩ := h.page hflags hfirst hb'
      refine ih hpage (fun f hf hn => ?_) hb
      obtain ⟨hdata, hnot⟩ := hc f (by omega) (by omega)
      refine ⟨hu.keepsData f hdata, fun hs => ?_⟩
      rcases hshows f hs with hold | heq
      · exact hnot hold
      · omega

/-- Pages are mapped to frames that are handed out one after another. -/
theorem Vm.Separate.each (h : vm.Separate) (hflags : flags &&& ~~~flagBits = 0#64) (n : Nat)
    (hb : (mapEach flags noOverwrite n virt phys vm).2.pageCounter ≤ maxFrames) :
    (mapEach flags noOverwrite n virt phys vm).2.Separate := by
  induction n generalizing virt phys vm with
  | zero => exact h
  | succ n ih =>
      rw [mapEach_succ] at hb ⊢
      have hb' := (le_pageCounter_mapEach _ _ n _ _ _).trans hb
      exact ih ((h.alloc 1).page hflags (h.own_alloc le_rfl (Nat.lt_succ_self _)) hb').1 hb

theorem Vm.Separate.mapPages (h : vm.Separate) {prot numPages : U64}
    (hprot : prot &&& ~~~flagBits = 0#64) (hphys : phys ≠ -1#64 → PageAligned phys)
    (hown : phys ≠ -1#64 → ∀ f, frameOf phys ≤ f → f < frameOf phys + numPages.toNat →
      vm.IsData f ∧ ¬ vm.Shows f)
    (hb : (mapPhysicalPages virt phys prot numPages flags vm).2.pageCounter ≤ maxFrames) :
    (mapPhysicalPages virt phys prot numPages flags vm).2.Separate := by
  unfold mapPhysicalPages at hb ⊢
  simp only at hb ⊢
  by_cases hp : phys = -1#64
  · by_cases hcont : flags &&& mapContinuous = 0#64
    · rw [if_neg (by simp [hcont, hp])] at hb ⊢
      exact h.each hprot _ hb
    · rw [if_pos (Or.inl hcont)] at hb ⊢
      simp only [hp, if_true] at hb ⊢
      by_cases hn : numPages = 0#64
      · simp only [hn, allocatePages, if_true]
        exact h
      · simp only [allocatePages_of_ne hn, frameAddr_ne_neg_one, if_false] at hb ⊢
        exact (h.alloc numPages.toNat).range hprot
          (fun f hf hlt => h.own_alloc hf hlt) hb
  · rw [if_pos (Or.inr hp)] at hb ⊢
    simp only [hp, if_false] at hb ⊢
    rw [(hphys hp).eq_frameAddr] at hb ⊢
    exact h.range hprot (hown hp) hb

/-- The pages of a segment are loaded. -/
theorem Vm.Separate.loadLoop {end' p : U64} {page : Nat → U64 → U64} {fuel i : Nat}
    (h : vm.Separate) (hflags : flags &&& ~~~flagBits = 0#64)
    (hrun : BufferVM.loadLoop end' flags page fuel i p vm = some vm')
    (hb : vm'.pageCounter ≤ maxFrames) : vm'.Separate := by
  induction fuel generalizing i p vm with
  | zero => exact absurd hrun (by simp [BufferVM.loadLoop])
  | succ fuel ih =>
      by_cases hp : p < end'
      · rw [loadLoop_succ flags page fuel i vm hp] at hrun
        have hb' := (le_pageCounter_loadLoop hrun).trans hb
        have hlt : vm.pageCounter < maxFrames :=
          (le_pageCounter_mapPhysicalPage p (frameAddr vm.pageCounter) flags false
            (vm.loaded (page i))).trans hb'
        have hframe : frameOf (frameAddr vm.pageCounter) = vm.pageCounter := by
          rw [maxFrames] at hlt
          exact frameOf_frameAddr (by omega)
        have hsame := h.paged.loaded hlt (page i)
        have hfresh : (vm.loaded (page i)).Fresh := by
          intro f j hf
          have hf' : vm.pageCounter + 1 ≤ f := hf
          have hne : f ≠ vm.pageCounter := by omega
          simp only [Vm.loaded, hframe, if_neg hne]
          exact h.fresh f j (by omega)
        have hown := h.own_alloc (n := 1) le_rfl (Nat.lt_succ_self _)
        have hloaded := (h.alloc 1).sameTables hsame rfl hfresh
        refine ih (hloaded.page hflags ⟨(hsame.isData rfl _).mpr hown.1, fun hs => ?_⟩ hb').1 hrun
        exact hown.2 ((hsame.shows_iff _).mp hs)
      · rw [BufferVM.loadLoop, if_neg hp] at hrun
        exact Option.some.inj hrun ▸ h

end

/-! ## A VMA -/

section

variable {O : HostOs ω} {h h' : Host ω}

/-- The pages of a VMA are mapped to frames that are new. -/
theorem Vm.MapsVma.separate {vm vm' : Vm} {r : VmRegion} (hm : vm.MapsVma vm' r)
    (h : vm.Separate) (hf : vm'.Fresh) (hb : vm'.pageCounter ≤ maxFrames) :
    vm'.Separate := by
  have hle := hm.le
  have hentry : ∀ v e, vm'.pte v = some e → vm.pte v = some e ∨
      (r.first ≤ pageNumber v ∧ pageNumber v < r.last) ∧
        pageFormat.frame e = vm.pageCounter + (pageNumber v - r.first) := by
    intro v e he
    have hlt : pageNumber v < 2 ^ 27 := by
      rw [pageNumber]
      omega
    rw [Vm.pte_eq_leaf, hm.leaf _ hlt, ← Vm.pte_eq_leaf] at he
    split at he
    · next hin =>
        refine Or.inr ⟨hin, ?_⟩
        rw [← Option.some.inj he, frame_leafEntry (vmaProtToPg_flagBits _) (by omega)]
    · exact Or.inl he
  refine h.of_entries hm.paged hf hm.keepsData fun v e he => ?_
  refine (hentry v e he).imp_right fun hnew => ?_
  obtain ⟨hin, hframe⟩ := hnew
  refine ⟨hframe ▸ hm.isData_new h.paged (by omega), fun w e' he' heq => ?_⟩
  rcases hentry w e' he' with hold | ⟨hin', hframe'⟩
  · have hlt := (h.data w e' hold).lt
    omega
  · omega

theorem Vm.Separate.kernelMapVma {r : VmRegion} (hs : h.vm.Separate) (hr : r.InTables)
    (hk : r.Moves → r.Known h.vm) (hb : (h.kernelMapVma O r).1.vm.pageCounter ≤ maxFrames) :
    (h.kernelMapVma O r).1.vm.Separate := by
  by_cases hn : r.NeedsMap
  · exact (kernelMapVma_spec hs.paged hr hn hk hb).1.separate hs
      ((kernelMapVma_contents hs.paged hr hn hk hb).1.fresh hs.fresh) hb
  · rw [kernelMapVma_unchanged hn]
    exact hs

/-! ## Every call -/

/-- The call maps with flag bits only, and shows no frame that some page shows already. -/
def MemoryCall.Owns (vm : Vm) : MemoryCall → Prop
  | .mapPages _ phys prot numPages _ => prot &&& ~~~flagBits = 0#64 ∧
      (phys ≠ -1#64 → ∀ f, frameOf phys ≤ f → f < frameOf phys + numPages.toNat →
        vm.IsData f ∧ ¬ vm.Shows f)
  | .unmapPage _ => True
  | .mapVma _ => True
  | .load _ _ flags _ => flags &&& ~~~flagBits = 0#64

/-- **Every call leaves each page a frame of its own.** -/
theorem Vm.Separate.call {c : MemoryCall} (hs : h.vm.Separate) (hi : c.Issued h)
    (hown : c.Owns h.vm) (hrun : c.run O h = some h') (hb : h'.vm.pageCounter ≤ maxFrames) :
    h'.vm.Separate := by
  cases c with
  | mapPages virt phys prot numPages flags =>
      obtain rfl := Option.some.inj hrun
      exact hs.mapPages hown.1 hi hown.2 hb
  | unmapPage virt =>
      obtain rfl := Option.some.inj hrun
      exact hs.unmapPage virt hb
  | mapVma r =>
      obtain rfl := Option.some.inj hrun
      exact hs.kernelMapVma hi.1 hi.2 hb
  | load startAddr memSize flags page =>
      obtain ⟨vm, hload, rfl⟩ := Option.map_eq_some_iff.mp hrun
      exact hs.loadLoop hown hload hb

/-! ## From the first table on -/

/-- `kernel_main` maps a frame at another page and takes two pages away, the second of which
has shown the frame until then. -/
def Vm.movePage (vm : Vm) (virt phys prot flags other old : U64) : Vm :=
  unmapPhysicalPage old
    (unmapPhysicalPage other (mapPhysicalPages virt phys prot 1#64 flags vm).2)

/-- The entries after a frame has moved. -/
theorem Vm.Paged.movePage_spec {vm : Vm} {virt phys prot flags other old : U64} (h : vm.Paged)
    (hphys : PageAligned phys)
    (hb : (vm.movePage virt phys prot flags other old).pageCounter ≤ maxFrames) :
    vm.Performs (vm.movePage virt phys prot flags other old) 0
      [(virt, mapUpdate phys prot (keepsMapped flags)), (other, unmapUpdate),
        (old, unmapUpdate)] := by
  have hne : phys ≠ -1#64 := by
    rintro rfl
    exact absurd hphys (by decide)
  unfold Vm.movePage at hb ⊢
  have hb₂ := (le_pageCounter_lastTable (getVirtAddrInfo old) _).trans hb
  have hb₁ := (le_pageCounter_lastTable (getVirtAddrInfo other) _).trans hb₂
  have hmap := mapPhysicalPages_spec h (fun _ => hphys) hb₁
  rw [dataPages, if_neg hne, mappedPages, if_pos (Or.inr hne), if_neg hne] at hmap
  have hother := Vm.Performs.single (unmapPhysicalPage_spec hmap.paged other hb₂)
  exact (hmap.trans hother).trans
    (Vm.Performs.single (unmapPhysicalPage_spec hother.paged old hb))

theorem Vm.Separate.movePage {vm : Vm} {virt phys prot flags other old : U64} (h : vm.Separate)
    (hprot : prot &&& ~~~flagBits = 0#64) (hphys : PageAligned phys)
    (hdata : vm.IsData (frameOf phys))
    (hshown : ∀ v e, vm.pte v = some e → pageFormat.frame e = frameOf phys →
      pageNumber v = pageNumber old)
    (hb : (vm.movePage virt phys prot flags other old).pageCounter ≤ maxFrames) :
    (vm.movePage virt phys prot flags other old).Separate := by
  have hu := h.paged.movePage_spec hphys hb
  have hle := hu.pageCounter_le
  have hlt := hdata.lt
  have hframe : pageFormat.frame (leafEntry prot phys) = frameOf phys := by
    rw [hphys.eq_frameAddr, frame_leafEntry hprot (by omega), ← hphys.eq_frameAddr]
  generalize vm.movePage virt phys prot flags other old = vm' at *
  have hentry : ∀ v e, vm'.pte v = some e → pageNumber v ≠ pageNumber old ∧
      (vm.pte v = some e ∨ pageNumber v = pageNumber virt ∧ pageFormat.frame e = frameOf phys) := by
    intro v e he
    have hpte : vm'.pte v = if pageNumber v = pageNumber old then none
        else if pageNumber v = pageNumber other then none
        else if pageNumber v = pageNumber virt then
          mapUpdate phys prot (keepsMapped flags) (vm.pte v) else vm.pte v := hu.pte v
    rw [hpte] at he
    split at he
    · exact absurd he (by simp)
    · next hold =>
        refine ⟨hold, ?_⟩
        split at he
        · exact absurd he (by simp)
        · split at he
          · next hv =>
              rw [mapUpdate] at he
              split at he
              · exact Or.inr ⟨hv, (Option.some.inj he) ▸ hframe⟩
              · exact Or.inl he
          · exact Or.inl he
  refine h.of_entries hu.paged (hu.fresh h.fresh) hu.keepsData fun v e he => ?_
  refine (hentry v e he).2.imp_right fun hnew => ?_
  obtain ⟨hv, hec⟩ := hnew
  refine ⟨hec ▸ hu.keepsData _ hdata, fun w e' he' heq => ?_⟩
  obtain ⟨hne, hold | ⟨hw, -⟩⟩ := hentry w e' he'
  · exact absurd (hshown w e' hold (heq.trans hec)) hne
  · exact hw.trans hv.symm

/-- One step of the machine's memory: a call, the move of a frame, or a byte that is written. -/
inductive PageStep (O : HostOs ω) : Host ω → Host ω → Prop
  | call {h h' : Host ω} {c : MemoryCall} (hi : c.Issued h) (hown : c.Owns h.vm)
      (hrun : c.run O h = some h') (hb : h'.vm.pageCounter ≤ maxFrames) : PageStep O h h'
  | move {h : Host ω} {virt phys prot flags other old : U64}
      (hprot : prot &&& ~~~flagBits = 0#64) (hphys : PageAligned phys)
      (hdata : h.vm.IsData (frameOf phys))
      (hshown : ∀ v e, h.vm.pte v = some e → pageFormat.frame e = frameOf phys →
        pageNumber v = pageNumber old)
      (hb : (h.vm.movePage virt phys prot flags other old).pageCounter ≤ maxFrames) :
      PageStep O h { h with vm := h.vm.movePage virt phys prot flags other old }
  | write {h : Host ω} {v p : U64} (b : BitVec 8) (hp : getPhysAddr v h.vm = some p) :
      PageStep O h { h with vm := h.vm.setByte p b }

/-- **In every machine that has come from the first table by such steps** the pages show frames
of their own. -/
theorem separate_of_steps {vm₀ : Vm} (h₀ : vm₀.Initial) (os : ω)
    (hsteps : Relation.ReflTransGen (PageStep O)
      { vm := buildPageTables vm₀, os := os, stopped := false } h) : h.vm.Separate := by
  have hstart := h₀.built.separate
  generalize buildPageTables vm₀ = vm₁ at hsteps hstart
  induction hsteps with
  | refl => exact hstart
  | tail _ hlast ih =>
      cases hlast with
      | call hi hown hrun hb => exact ih.call hi hown hrun hb
      | move hprot hphys hdata hshown hb => exact ih.movePage hprot hphys hdata hshown hb
      | write b hp => exact ih.setByte hp b

end

end BufferVM
