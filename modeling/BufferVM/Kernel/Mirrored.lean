/-
  Kernel/Mirrored.lean --- `munmap`, down to memory.

  A store is mirrored by the page tables when every VMA has its pages in a row.  A split maps
  the two halves of a VMA anew, each away from the range that both of them claim, and the
  removal takes the entries of whole VMAs.  Each of these steps keeps the store mirrored and
  what the guest reads, and leaves the pages that no VMA covers as they are: also a page of
  the range that a VMA has left behind.
-/
import BufferVM.Kernel.FilePages
import BufferVM.Vm.Resize

set_option autoImplicit false

namespace BufferVM

variable {σ ω : Type} {H : NodeHeap σ} {O : HostOs ω} {C : Nat → Prop}
  {x y z : List VmRegion × Host ω}

/-! ## The store and the page tables -/

/-- Every VMA has its pages in a row, with frames of its own. -/
structure Mirrored (x : List VmRegion × Host ω) : Prop where
  paged : x.2.vm.Paged
  placed : ∀ r ∈ x.1, r.Placed x.2.vm
  consistent : ∀ r ∈ x.1, r.Consistent x.2.vm
  apart : x.1.Pairwise VmRegion.FramesApart

/-- What becomes of the pages: those that are not given up keep their contents, no VMA gets a
page that none had, the entries of the pages that no VMA has stay, and the entry of a page
that is given up goes. -/
structure KeepsPages (C : Nat → Prop) (x y : List VmRegion × Host ω) : Prop where
  keep : ∀ r ∈ x.1, ∀ j, r.HasPage j → ¬ C j →
    ∃ k ∈ y.1, k.HasPage j ∧ k.page y.2.vm j = r.page x.2.vm j
  source : ∀ k ∈ y.1, ∀ j, k.HasPage j →
    ∃ r ∈ x.1, r.HasPage j ∧ (r.fileInfo.fd = noFd → k.fileInfo.fd = noFd)
  bare : ∀ j, j < 2 ^ 27 → (∀ r ∈ x.1, ¬ r.HasPage j) → y.2.vm.leaf j = x.2.vm.leaf j
  gone : ∀ r ∈ x.1, ∀ j, j < 2 ^ 27 → r.HasPage j → (∀ k ∈ y.1, ¬ k.HasPage j) →
    y.2.vm.leaf j = none

theorem KeepsPages.refl (x : List VmRegion × Host ω) : KeepsPages C x x :=
  ⟨fun r hr _ hj _ => ⟨r, hr, hj, rfl⟩, fun k hk _ hj => ⟨k, hk, hj, id⟩, fun _ _ _ => rfl,
    fun r hr _ _ hj hno => absurd hj (hno r hr)⟩

theorem KeepsPages.trans (h₁ : KeepsPages C x y) (h₂ : KeepsPages C y z) : KeepsPages C x z := by
  refine ⟨fun r hr j hj hno => ?_, fun k hk j hj => ?_, fun j hj hno => ?_,
    fun r hr j hj hrj hno => ?_⟩
  · obtain ⟨k, hk, hkj, hpage⟩ := h₁.keep r hr j hj hno
    obtain ⟨n, hn, hnj, hpage'⟩ := h₂.keep k hk j hkj hno
    exact ⟨n, hn, hnj, hpage'.trans hpage⟩
  · obtain ⟨n, hn, hnj, hfd⟩ := h₂.source k hk j hj
    obtain ⟨r, hr, hrj, hfd'⟩ := h₁.source n hn j hnj
    exact ⟨r, hr, hrj, fun hr => hfd (hfd' hr)⟩
  · refine (h₂.bare j hj fun k hk hkj => ?_).trans (h₁.bare j hj hno)
    obtain ⟨r, hr, hrj, -⟩ := h₁.source k hk j hkj
    exact hno r hr hrj
  · by_cases hmid : ∃ k ∈ y.1, k.HasPage j
    · obtain ⟨k, hk, hkj⟩ := hmid
      exact h₂.gone k hk j hj hkj hno
    · have hmid' : ∀ k ∈ y.1, ¬ k.HasPage j := fun k hk hkj => hmid ⟨k, hk, hkj⟩
      exact (h₂.bare j hj hmid').trans (h₁.gone r hr j hj hrj hmid')

/-- What a run of calls keeps. -/
theorem Stocked.mirrored (hx : Stocked True x) (hb : x.2.vm.pageCounter ≤ maxFrames) :
    Mirrored x :=
  ⟨hx.paged, fun r hr => (hx.held r hr).toPlaced,
    fun r hr => (hx.held r hr).consistent hx.paged hb, hx.apart⟩

/-- The guest reads the memory of a VMA that has its pages in a row. -/
theorem VmRegion.Consistent.readByte {vm : Vm} {r : VmRegion} (hc : r.Consistent vm)
    (hr : r.Placed vm) (hb : vm.pageCounter ≤ maxFrames) {v : U64} (hv : r.HasPage (pageNumber v)) :
    vm.readByte v = some (byteOf (r.page vm (pageNumber v)) v) := by
  have hlt := hr.inTables.lt
  have hsame : r.Reshapes r := ⟨hr.inTables, rfl, rfl, rfl, rfl, rfl, id, rfl, rfl, hlt, hlt⟩
  have hfirst : r.oldFirst = r.first := congrArg frameOf hc.oldStart
  have hlast : r.oldLast = r.last := congrArg frameOf hc.oldEnd
  have hmap : r.OldMapped vm := by
    intro i hi
    rw [hc.oldStart]
    rw [hfirst, hlast] at hi
    exact hc.translates i (lt_of_lt_of_eq hi hr.inTables.toNat_pages.symm)
  rw [(hr.known hsame).readByte_old hmap hb (by rw [VmRegion.HadPage, hfirst, hlast]; exact hv),
    hfirst]
  rfl

/-! ## One step -/

section Steps

variable {l₁ l₂ : List VmRegion} {r new kept : VmRegion} {h : Host ω}

/-- The entries outside a VMA that has been split. -/
theorem leaf_split (hp : h.vm.Paged) (hr : r.Placed h.vm) (hparts : SplitParts r new kept)
    (hb : (hostAfter O (hostAfter O h new) kept).vm.pageCounter ≤ maxFrames) {j : Nat}
    (hj : j < 2 ^ 27) (hno : ¬ r.HasPage j) :
    (hostAfter O (hostAfter O h new) kept).vm.leaf j = h.vm.leaf j := by
  have hb₁ : (hostAfter O h new).vm.pageCounter ≤ maxFrames :=
    (le_pageCounter_hostAfter hparts.ofKept.inTables).trans hb
  obtain ⟨hneeds, hneeds'⟩ := hparts.needsMap hr
  obtain ⟨hp₁, -, hkeep, -⟩ := held_kernelMapVma_changed True hp hr hparts.ofNew hneeds hb₁
  obtain ⟨hmap₁, -⟩ := kernelMapVma_spec hp hparts.ofNew.inTables hneeds
    (fun _ => hr.known hparts.ofNew) hb₁
  obtain ⟨hmap₂, -⟩ := kernelMapVma_spec (h := hostAfter O h new) hp₁ hparts.ofKept.inTables hneeds'
    (fun _ => (hr.keep hkeep).known hparts.ofKept) hb
  have hleaf₁ := (hmap₁.leaf j hj).trans (if_neg fun hin => hno (hparts.newWithin.hasPage hin))
  have hleaf₂ := (hmap₂.leaf j hj).trans (if_neg fun hin => hno (hparts.keptWithin.hasPage hin))
  exact hleaf₂.trans hleaf₁

/-- **A split**: both halves of the VMA have their pages in a row, with what they held. -/
theorem Mirrored.split {below : Bool} (hx : Mirrored (l₁ ++ r :: l₂, h))
    (hparts : SplitParts r new kept) (hap : ∀ x ∈ l₁ ++ l₂, r.Apart x)
    (hfd : r.fileInfo.fd = noFd)
    (hb : (hostAfter O (hostAfter O h new) kept).vm.pageCounter ≤ maxFrames)
    (hy : y = (l₁ ++ (if below then
        [hostMapped O h new, hostMapped O (hostAfter O h new) kept]
      else [hostMapped O (hostAfter O h new) kept, hostMapped O h new]) ++ l₂,
      hostAfter O (hostAfter O h new) kept)) :
    Mirrored y ∧ KeepsPages C (l₁ ++ r :: l₂, h) y := by
  have hr := hx.placed r (by simp)
  have hmem : ∀ {x}, x ∈ l₁ ++ l₂ → x ∈ l₁ ++ r :: l₂ := fun hxl => mem_middle.mpr (Or.inr hxl)
  have hb₁ : (hostAfter O h new).vm.pageCounter ≤ maxFrames :=
    (le_pageCounter_hostAfter hparts.ofKept.inTables).trans hb
  obtain ⟨hneeds, hneeds'⟩ := hparts.needsMap hr
  obtain ⟨hp₁, -, hkeep₁, -⟩ := held_kernelMapVma_changed True hx.paged hr hparts.ofNew hneeds hb₁
  obtain ⟨-, -, hkeep₂, -⟩ := held_kernelMapVma_changed True hp₁ (hr.keep hkeep₁) hparts.ofKept
    hneeds' hb
  obtain ⟨hp₂, hnew, hkept, -⟩ := held_split True hx.paged hr hparts hb
  have hsp := splitContents hx.paged hr hparts hb
  obtain ⟨hfr, hpw⟩ := pairwise_framesApart_middle.mp hx.apart
  have hperm := perm_parts l₁ l₂ (hostMapped O h new) (hostMapped O (hostAfter O h new) kept) below
  have hmemY : ∀ {x}, x ∈ y.1 ↔ x = hostMapped O h new ∨
      x = hostMapped O (hostAfter O h new) kept ∨ x ∈ l₁ ++ l₂ := by
    intro x
    rw [hy, hperm.mem_iff, List.mem_cons, List.mem_cons]
  have hvm : y.2 = hostAfter O (hostAfter O h new) kept := by rw [hy]
  have hstays : ∀ x ∈ l₁ ++ r :: l₂, ∀ j, x.HasPage j → ∃ k ∈ y.1, k.HasPage j := by
    intro x hxl j hj
    rcases mem_middle.mp hxl with rfl | hxl
    · rcases hparts.all j hj with hj' | hj'
      · exact ⟨_, hmemY.mpr (Or.inl rfl), hj'⟩
      · exact ⟨_, hmemY.mpr (Or.inr (Or.inl rfl)), hj'⟩
    · exact ⟨x, hmemY.mpr (Or.inr (Or.inr hxl)), hj⟩
  refine ⟨⟨?_, fun x hxl => ?_, fun x hxl => ?_, ?_⟩, fun x hxl j hj _ => ?_,
    fun x hxl j hj => ?_, fun j hj hno => ?_, fun x hxl j _ hj hno => ?_⟩
  · rw [hvm]
    exact hp₂
  · rw [hvm]
    rcases hmemY.mp hxl with rfl | rfl | hxl
    · exact hnew.toPlaced
    · exact hkept.toPlaced
    · exact ((hx.placed x (hmem hxl)).keep hkeep₁).keep hkeep₂
  · rw [hvm]
    rcases hmemY.mp hxl with rfl | rfl | hxl
    · exact hnew.consistent hp₂ hb
    · exact hkept.consistent hp₂ hb
    · have hin := (hx.placed x (hmem hxl)).inTables
      refine (hx.consistent x (hmem hxl)).keep hin hx.paged hp₂ fun j hj => ?_
      have h1 := hj.1
      have h2 := hj.2
      have h3 := hin.le
      apply leaf_split hx.paged hr hparts hb (by omega)
      intro hj'
      have h4 := hj'.1
      have h5 := hj'.2
      rcases hap x hxl with ha | ha
      · omega
      · omega
  · rw [hy, hperm.pairwise_iff VmRegion.FramesApart.symm]
    exact hsp.pairwise (fun x hxl => hx.placed x (hmem hxl)) hpw
  · rw [hvm]
    rcases mem_middle.mp hxl with rfl | hxl
    · rcases hparts.all j hj with hj' | hj'
      · exact ⟨_, hmemY.mpr (Or.inl rfl), hj', hsp.movedNew hfd j hj'⟩
      · exact ⟨_, hmemY.mpr (Or.inr (Or.inl rfl)), hj', hsp.movedKept hfd j hj'⟩
    · exact ⟨x, hmemY.mpr (Or.inr (Or.inr hxl)), hj,
        hsp.others x (hx.placed x (hmem hxl)) (hfr x hxl) j hj⟩
  · rcases hmemY.mp hxl with rfl | rfl | hxl
    · exact ⟨r, by simp, hparts.newWithin.hasPage hj, hparts.ofNew.anonymous⟩
    · exact ⟨r, by simp, hparts.keptWithin.hasPage hj, hparts.ofKept.anonymous⟩
    · exact ⟨x, hmem hxl, hj, id⟩
  · rw [hvm]
    exact leaf_split hx.paged hr hparts hb hj (hno r (by simp))
  · obtain ⟨k, hk, hkj⟩ := hstays x hxl j hj
    exact absurd hkj (hno k hk)

/-- **A removal**: the entries of the VMA are gone, and those of the others are not. -/
theorem Mirrored.remove (os : ω) (hx : Mirrored (l₁ ++ r :: l₂, h))
    (hap : ∀ x ∈ l₁ ++ l₂, r.Apart x) (hC : ∀ j, r.HasPage j → C j)
    (hb : (h.kernelUnmapVma r).vm.pageCounter ≤ maxFrames) :
    Mirrored (l₁ ++ l₂, { h.kernelUnmapVma r with os := os }) ∧
      KeepsPages C (l₁ ++ r :: l₂, h) (l₁ ++ l₂, { h.kernelUnmapVma r with os := os }) := by
  have hr := hx.placed r (by simp)
  have hmem : ∀ {x}, x ∈ l₁ ++ l₂ → x ∈ l₁ ++ r :: l₂ := fun hxl => mem_middle.mpr (Or.inr hxl)
  obtain ⟨hp, hkeep, hleaf, -⟩ := kernelUnmapVma_spec hx.paged hr hb
  have hpages := (kernelUnmapVma_contents hx.paged hr hb).2
  have hpl : ∀ x ∈ l₁ ++ l₂, x.Placed h.vm := fun x hxl => hx.placed x (hmem hxl)
  refine ⟨⟨hp, fun x hxl => (hpl x hxl).keep hkeep, fun x hxl => ?_,
    (pairwise_framesApart_middle.mp hx.apart).2⟩, fun x hxl j hj hno => ?_,
    fun x hxl j hj => ⟨x, hmem hxl, hj, id⟩, fun j hj hno => ?_, fun x hxl j hj hxj hno => ?_⟩
  · have hin := (hpl x hxl).inTables
    refine (hx.consistent x (hmem hxl)).keep hin hx.paged hp fun j hj => ?_
    have h1 := hj.1
    have h2 := hj.2
    have h3 := hin.le
    apply (hleaf j (by omega)).trans
    apply if_neg
    rcases hap x hxl with ha | ha
    · omega
    · omega
  · rcases mem_middle.mp hxl with rfl | hxl
    · exact absurd (hC j hj) hno
    · exact ⟨x, hxl, hj, hpages x (hpl x hxl) j hj⟩
  · exact (hleaf j hj).trans (if_neg (hno r (by simp)))
  · rcases mem_middle.mp hxl with rfl | hxl
    · exact (hleaf j hj).trans (if_pos hxj)
    · exact absurd hxj (hno x hxl)

end Steps

/-! ## `munmap` -/

/-- Every VMA with a page in the range is anonymous. -/
def Anonymous (addr end' : U64) (l : List VmRegion) : Prop :=
  ∀ r ∈ l, ∀ j, r.HasPage j → frameOf addr ≤ j → j < frameOf end' → r.fileInfo.fd = noFd

theorem Anonymous.keeps {addr end' : U64} (h : Anonymous addr end' x.1) (hk : KeepsPages C x y) :
    Anonymous addr end' y.1 := by
  intro k hky j hj h1 h2
  obtain ⟨r, hr, hrj, hfd⟩ := hk.source k hky j hj
  exact hfd (h r hr j hrj h1 h2)

section Unmap

variable {A : Space σ (Host ω)} {addr end' cut : U64}

/-- Cutting the address space at an address where only an anonymous VMA can be cut. -/
theorem Mirrored.splitAt (hO : ∀ os, (O.dup os noFd).2 = noFd) (hs : Sorted A.regions)
    (hx : Mirrored (A.regions, A.host)) (hcut : PageAligned cut)
    (hanon : ∀ r ∈ A.regions, r.startAddr < cut → cut < r.endAddr → r.fileInfo.fd = noFd)
    (nb : Bool) (hb : (A.splitAt (hostEnv H O) cut nb).host.vm.pageCounter ≤ maxFrames) :
    Mirrored ((A.splitAt (hostEnv H O) cut nb).regions,
        (A.splitAt (hostEnv H O) cut nb).host) ∧
      KeepsPages C (A.regions, A.host) ((A.splitAt (hostEnv H O) cut nb).regions,
        (A.splitAt (hostEnv H O) cut nb).host) := by
  rcases splitAt_parts H O hs nb with ⟨heq, -⟩ | ⟨l₁, r, l₂, hA, hlo, hhi, hregions, hhost⟩
  · rw [heq]
    exact ⟨hx, .refl _⟩
  · have hrA : r ∈ A.regions := by rw [hA]; simp
    have hparts := splitParts hO (hx.placed r hrA).inTables hcut hlo hhi A.host.os nb
    rw [hA] at hs hx
    rw [hhost] at hb
    rw [hregions, hhost, hA]
    -- the operating system has been asked for a descriptor
    have hos : Mirrored (l₁ ++ r :: l₂, splitHost O A.host r) :=
      ⟨hx.paged, hx.placed, hx.consistent, hx.apart⟩
    obtain ⟨hm, hk⟩ := hos.split (C := C) hparts hs.apart (hanon r hrA hlo hhi) hb rfl
    exact ⟨hm, hk.keep, hk.source, hk.bare, hk.gone⟩

theorem Mirrored.removeAreas (l₁ l₂ : List VmRegion) (m : List Area) :
    ∀ (heap : σ) (h : Host ω), Sorted (l₁ ++ (m.map Prod.snd ++ l₂)) →
      (∀ n ∈ m, ∀ j, n.2.HasPage j → C j) → Mirrored (l₁ ++ (m.map Prod.snd ++ l₂), h) →
      (BufferVM.removeAreas (hostEnv H O) m (heap, h)).2.vm.pageCounter ≤ maxFrames →
      Mirrored (l₁ ++ l₂, (BufferVM.removeAreas (hostEnv H O) m (heap, h)).2) ∧
        KeepsPages C (l₁ ++ (m.map Prod.snd ++ l₂), h)
          (l₁ ++ l₂, (BufferVM.removeAreas (hostEnv H O) m (heap, h)).2) := by
  induction m with
  | nil => exact fun _ _ _ _ hx _ => ⟨hx, .refl _⟩
  | cons n m ih =>
      intro heap h hs hC hx hb
      obtain ⟨os, hcons⟩ := removeAreas_cons H O heap h n m
      rw [hcons] at hb ⊢
      have hb₁ : (h.kernelUnmapVma n.2).vm.pageCounter ≤ maxFrames :=
        (le_pageCounter_removeAreas m _ { h.kernelUnmapVma n.2 with os := os }).trans hb
      have hrest : Sorted (l₁ ++ (m.map Prod.snd ++ l₂)) := hs.sublist (by simp)
      obtain ⟨hx₁, hk₁⟩ := Mirrored.remove os hx hs.apart (hC n (by simp)) hb₁
      obtain ⟨hx₂, hk₂⟩ := ih ((hostEnv H O).free heap n.1) _ hrest
        (fun y hy => hC y (by simp [hy])) hx₁ hb
      exact ⟨hx₂, hk₁.trans hk₂⟩

variable {F : (hostEnv H O).toNodeHeap.Fresh} {kernelMinAddress : U64}

/-- **`munmap` of the address space** keeps it mirrored, if it cuts and takes anonymous VMAs
only. -/
theorem Mirrored.unmap (hO : ∀ os, (O.dup os noFd).2 = noFd)
    (hmin : kernelMinAddress.toNat ≤ 2 ^ 39) (hso : Sound F A)
    (hedge : EdgesIn (UserEdge kernelMinAddress) A) (hav : 2 ≤ F.avail A.heap)
    (hx : Mirrored (A.regions, A.host))
    (haddr : UserEdge kernelMinAddress addr) (hend : UserEdge kernelMinAddress end')
    (hlt : addr < end') (hanon : Anonymous addr end' A.regions)
    (hb : (A.unmap (hostEnv H O) addr end').host.vm.pageCounter ≤ maxFrames) :
    Mirrored ((A.unmap (hostEnv H O) addr end').regions,
        (A.unmap (hostEnv H O) addr end').host) ∧
      KeepsPages (fun j => frameOf addr ≤ j ∧ j < frameOf end') (A.regions, A.host)
        ((A.unmap (hostEnv H O) addr end').regions,
          (A.unmap (hostEnv H O) addr end').host) := by
  by_cases hover : overlapping addr end' A.areas = true
  · rw [Space.unmap, if_pos hover] at hb ⊢
    obtain ⟨hso₁, hav₁⟩ := hso.splitAt addr false (by omega)
    obtain ⟨hso₂, -⟩ := hso₁.splitAt end' true (by omega)
    have hedge₁ := hedge.splitAt (E := hostEnv H O) hso.sorted haddr false
    have hin := inTables_of_space hmin hso.sorted hedge
    have hin₁ := inTables_of_space hmin hso₁.sorted hedge₁
    have hlo : EdgeAt addr ((A.splitAt (hostEnv H O) addr false).splitAt
        (hostEnv H O) end' true).areas :=
      (edgeAt_splitAt hso.sorted false).splitAt hso₁.sorted true
    have hhi : EdgeAt end' ((A.splitAt (hostEnv H O) addr false).splitAt
        (hostEnv H O) end' true).areas := edgeAt_splitAt hso₁.sorted true
    have hsteps : AreaSteps O False (fun _ => True) (fun _ => True) _ _ :=
      areaSteps_splitAt (H := H) hO hso₁.sorted hin₁ hend.align true
    generalize hA₁ : A.splitAt (hostEnv H O) addr false = A₁ at *
    generalize hA₂ : A₁.splitAt (hostEnv H O) end' true = A₂ at *
    obtain ⟨l₁, m, l₂, hregions₂, hregions, hhost, hm⟩ := removeRange_parts H O hso₂.sorted hlo hhi
    rw [hhost] at hb
    have hb₂ : A₂.host.vm.pageCounter ≤ maxFrames := (le_pageCounter_removeAreas m _ _).trans hb
    have hb₁ : A₁.host.vm.pageCounter ≤ maxFrames := hsteps.le_pageCounter.trans hb₂
    have hpages := frameOf_lt_of_lt haddr.align hend.align hlt
    -- a VMA that is cut at the front of the range has its first page
    have hfront : ∀ r ∈ A.regions, r.startAddr < addr → addr < r.endAddr →
        r.fileInfo.fd = noFd := by
      intro r hr h1 h2
      have hstart := frameOf_le_of_le (BitVec.le_of_lt h1)
      have hlast := frameOf_lt_of_lt haddr.align (hin r hr).limit h2
      exact hanon r hr (frameOf addr) ⟨hstart, hlast⟩ le_rfl hpages
    obtain ⟨hx₁, hk₁⟩ := hx.splitAt (C := fun j => frameOf addr ≤ j ∧ j < frameOf end') hO
      hso.sorted haddr.align hfront false (by rw [hA₁]; exact hb₁)
    rw [hA₁] at hx₁ hk₁
    -- and one that is cut at its back has its last page
    have hanon₁ : Anonymous addr end' A₁.regions := hanon.keeps hk₁
    have hback : ∀ r ∈ A₁.regions, r.startAddr < end' → end' < r.endAddr →
        r.fileInfo.fd = noFd := by
      intro r hr h1 h2
      have hstart : r.first < frameOf end' := frameOf_lt_of_lt (hin₁ r hr).start hend.align h1
      have hlast : frameOf end' ≤ r.last := frameOf_le_of_le (BitVec.le_of_lt h2)
      exact hanon₁ r hr (frameOf end' - 1) ⟨by omega, by omega⟩ (by omega) (by omega)
    obtain ⟨hx₂, hk₂⟩ := hx₁.splitAt (C := fun j => frameOf addr ≤ j ∧ j < frameOf end') hO
      hso₁.sorted hend.align hback true (by rw [hA₂]; exact hb₂)
    rw [hA₂] at hx₂ hk₂
    have hs₂ := hso₂.sorted
    rw [hregions₂] at hs₂ hx₂ hk₂
    obtain ⟨hx₃, hk₃⟩ := hx₂.removeAreas l₁ l₂ m A₂.heap A₂.host hs₂ hm hb
    rw [hregions, hhost]
    exact ⟨hx₃, (hk₁.trans hk₂).trans hk₃⟩
  · rw [Space.unmap, if_neg hover]
    exact ⟨hx, .refl _⟩

end Unmap

/-! ## `syscall_munmap` -/

/-- What is left of memory once a range has been unmapped. -/
structure Unmapped (addr end' : U64) (s t : St σ (Host ω)) : Prop where
  gone : ∀ v, addr ≤ v → v < end' → (∃ r ∈ s.regions, r.Covers v) →
    getPhysAddr v t.host.vm = none
  bare : ∀ v, addr ≤ v → v < end' → (∀ r ∈ s.regions, ¬ r.Covers v) →
    getPhysAddr v t.host.vm = getPhysAddr v s.host.vm
  consistent : ∀ r ∈ t.regions, r.Consistent t.host.vm
  survives : ∀ v, (∃ r ∈ t.regions, r.Covers v) ↔
    (∃ r ∈ s.regions, r.Covers v) ∧ ¬ (addr ≤ v ∧ v < end')
  reads : ∀ r ∈ t.regions, ∀ v, r.Covers v →
    ∃ b, s.host.vm.readByte v = some b ∧ t.host.vm.readByte v = some b

section Munmap

variable {F : (hostEnv H O).toNodeHeap.Fresh} {s t : St σ (Host ω)} {addr length : U64}

/-- The addresses of user space, by the pages of the VMAs. -/
theorem covers_iff_hasPage {r : VmRegion} (hr : r.InTables) {v : U64} (hv : v.toNat < 2 ^ 39) :
    r.Covers v ↔ r.HasPage (pageNumber v) := (mem_range_iff hr.start hr.limit hv).symm

theorem pageNumber_lt (v : U64) : pageNumber v < 2 ^ 27 := by
  rw [pageNumber]
  omega

/-- An address without an entry is not translated. -/
theorem getPhysAddr_eq_none {vm : Vm} (hp : vm.Paged) {v : U64}
    (h : vm.leaf (pageNumber v) = none) :
    getPhysAddr v vm = none := by
  rw [getPhysAddr_eq hp, Vm.pte_eq_leaf, h, Option.map_none]

/-- A mirrored store that has given up the pages of a range, and has no VMA there. -/
theorem unmapped_of_keeps {end' kernelMinAddress : U64} (hmin : kernelMinAddress.toNat ≤ 2 ^ 39)
    (haddr : UserEdge kernelMinAddress addr) (hend : UserEdge kernelMinAddress end')
    (hs : Mirrored s.areas) (ht : Mirrored t.areas)
    (hk : KeepsPages (fun j => frameOf addr ≤ j ∧ j < frameOf end') s.areas t.areas)
    (hfree : ∀ r ∈ t.regions, r.endAddr ≤ addr ∨ end' ≤ r.startAddr)
    (hbs : s.host.vm.pageCounter ≤ maxFrames) (hbt : t.host.vm.pageCounter ≤ maxFrames) :
    Unmapped addr end' s t := by
  have hin : ∀ r ∈ s.regions, r.InTables := fun r hr => (hs.placed r hr).inTables
  have hin' : ∀ r ∈ t.regions, r.InTables := fun r hr => (ht.placed r hr).inTables
  have hclear : ∀ r ∈ t.regions, ∀ v, r.Covers v → ¬ (addr ≤ v ∧ v < end') := by
    intro r hr v hv hc
    have h1 := hv.1
    have h2 := hv.2
    have h3 := hc.1
    have h4 := hc.2
    rcases hfree r hr with h | h
    · bv_omega
    · bv_omega
  have hrange : ∀ {v : U64}, v.toNat < 2 ^ 39 →
      (frameOf addr ≤ pageNumber v ∧ pageNumber v < frameOf end' ↔ addr ≤ v ∧ v < end') :=
    fun hv => mem_range_iff haddr.align hend.align hv
  have hcover : ∀ r ∈ t.regions, ∀ v, r.Covers v →
      ∃ n ∈ s.regions, n.Covers v ∧ n.HasPage (pageNumber v) := by
    intro r hr v hv
    have hlow := (hin' r hr).lt_of_covers hv
    obtain ⟨n, hn, hnj, -⟩ := hk.source r hr _ ((hin' r hr).hasPage hv)
    exact ⟨n, hn, (covers_iff_hasPage (hin n hn) hlow).mpr hnj, hnj⟩
  have hlow : ∀ {v : U64}, v < end' → v.toNat < 2 ^ 39 := by
    intro v h
    have hle := BitVec.le_def.mp hend.le
    have hlt := BitVec.lt_def.mp h
    omega
  -- a page of the range is no VMA's afterwards
  have hfree' : ∀ v, addr ≤ v → v < end' → ∀ k ∈ t.regions, ¬ k.HasPage (pageNumber v) :=
    fun v h1 h2 k hk hkj =>
      hclear k hk v ((covers_iff_hasPage (hin' k hk) (hlow h2)).mpr hkj) ⟨h1, h2⟩
  refine ⟨fun v h1 h2 ⟨r, hr, hv⟩ => ?_, fun v h1 h2 hno => ?_, ht.consistent,
    fun v => ⟨?_, ?_⟩, fun r hr v hv => ?_⟩
  · exact getPhysAddr_eq_none ht.paged
      (hk.gone r hr _ (pageNumber_lt v) ((hin r hr).hasPage hv) (hfree' v h1 h2))
  · have hleaf := hk.bare (pageNumber v) (pageNumber_lt v) fun r hr hrj =>
      hno r hr ((covers_iff_hasPage (hin r hr) (hlow h2)).mpr hrj)
    have hps : s.host.vm.Paged := hs.paged
    have hpt : t.host.vm.Paged := ht.paged
    rw [getPhysAddr_eq hpt, getPhysAddr_eq hps, Vm.pte_eq_leaf, Vm.pte_eq_leaf]
    exact congrArg _ hleaf
  · intro ⟨r, hr, hv⟩
    obtain ⟨n, hn, hnv, -⟩ := hcover r hr v hv
    exact ⟨⟨n, hn, hnv⟩, hclear r hr v hv⟩
  · intro ⟨⟨r, hr, hv⟩, hno⟩
    have hlow := (hin r hr).lt_of_covers hv
    obtain ⟨k, hkt, hkj, -⟩ := hk.keep r hr _ ((hin r hr).hasPage hv)
      fun hc => hno ((hrange hlow).mp hc)
    exact ⟨k, hkt, (covers_iff_hasPage (hin' k hkt) hlow).mpr hkj⟩
  · obtain ⟨n, hn, -, hnj⟩ := hcover r hr v hv
    have hlow := (hin' r hr).lt_of_covers hv
    obtain ⟨k, hkt, hkj, hpage⟩ := hk.keep n hn _ hnj
      fun hc => hclear r hr v hv ((hrange hlow).mp hc)
    refine ⟨_, (hs.consistent n hn).readByte (hs.placed n hn) hbs hnj,
      ((ht.consistent k hkt).readByte (ht.placed k hkt) hbt hkj).trans ?_⟩
    exact congrArg (fun page => some (byteOf page v)) hpage

/-- A call of `munmap` that returns 0 has unmapped its range. -/
theorem Linked.munmap_space (h : Linked F s) (hav : 2 ≤ F.avail s.heap) (hg : GlobOk s.glob)
    (hrun : syscallMunmap (hostEnv H O) addr length s = some (0, t)) :
    InBounds s.glob.kernelMinAddress addr (pageAlign length) ∧ t.glob = s.glob ∧
      t.space = s.space.unmap (hostEnv H O) addr (addr + pageAlign length) := by
  have hacc : munmapRejects s.glob.kernelMinAddress addr length = false := by
    rw [Bool.eq_false_iff]
    intro hrej
    rw [syscallMunmap_rejected hrej] at hrun
    have herr : intEINVAL = 0 := congrArg Prod.fst (Option.some.inj hrun)
    exact absurd herr (by decide)
  obtain ⟨u, hrun', -, hglob, hsp⟩ := h.munmap (E := hostEnv H O) hav hg.align hacc
  have heq := Option.some.inj (hrun'.symm.trans hrun)
  obtain rfl : u = t := congrArg Prod.snd heq
  exact ⟨inBounds_of_accept hg.align hacc, hglob, hsp⟩

/-- **`munmap` is correct down to memory.**  A call that returns 0 and meets anonymous VMAs
only leaves no page translated that a VMA had in its range, and the others of the range as
they were; every VMA that survives has its pages in a row, and what they hold is as it was. -/
theorem syscallMunmap_unmapped (hO : ∀ os, (O.dup os noFd).2 = noFd) (hs : Orderly F s)
    (hmin : s.glob.kernelMinAddress.toNat ≤ 2 ^ 39) (hav : 2 ≤ F.avail s.heap)
    (hx : Mirrored s.areas)
    (hanon : ∀ r ∈ s.regions, r.startAddr < addr + pageAlign length → addr < r.endAddr →
      r.fileInfo.fd = noFd)
    (hrun : syscallMunmap (hostEnv H O) addr length s = some (0, t))
    (hroom : t.host.vm.pageCounter ≤ physicalHeapPages) :
    Unmapped addr (addr + pageAlign length) s t ∧ Mirrored t.areas := by
  obtain ⟨hbounds, -, hsp⟩ := hs.linked.munmap_space hav hs.glob hrun
  obtain ⟨haddr, hend⟩ := hbounds.edges
  have hb := hroom.trans physicalHeapPages_le_maxFrames
  have hsound := hs.linked.sound
  have hhost : t.host = (s.space.unmap (hostEnv H O) addr (addr + pageAlign length)).host :=
    congrArg Space.host hsp
  have hpages : Anonymous addr (addr + pageAlign length) s.space.regions := by
    rw [St.space_regions]
    intro r hr j hj h1 h2
    refine hanon r hr ?_ ?_
    · rw [BitVec.lt_def]
      exact Nat.lt_of_div_lt_div (hj.1.trans_lt h2)
    · rw [BitVec.lt_def]
      exact Nat.lt_of_div_lt_div (h1.trans_lt hj.2)
  have hsteps : AreaSteps O False (fun _ => True) (fun _ => True) _ _ :=
    areaSteps_unmap hO hmin hsound hs.edges hav haddr hend fun _ _ _ => trivial
  have hbs : s.host.vm.pageCounter ≤ maxFrames :=
    hsteps.le_pageCounter.trans (by rw [← hhost]; exact hb)
  obtain ⟨hm, hk⟩ := Mirrored.unmap (A := s.space) hO hmin hsound hs.edges hav
    (by rw [St.space_regions]; exact hx) haddr hend hbounds.lt hpages (by rw [← hhost]; exact hb)
  rw [← hsp, St.space_regions] at hm hk
  rw [St.space_regions] at hk
  refine ⟨unmapped_of_keeps hmin haddr hend hx hm hk (fun r hr => ?_) hbs hb, hm⟩
  rw [← St.space_regions, hsp] at hr
  obtain ⟨x, hxa, rfl⟩ := List.mem_map.mp hr
  exact free_unmap hsound addr (addr + pageAlign length) hav x hxa

end Munmap

/-- A run on the small machine, as far as no mapping is merged on both sides. -/
theorem mirrored_machineRun {cs : List Call} {s : St (Nat × List Ptr) (Host Unit)}
    (hs : machineRun oneSidedTest cs = some s) (hb : s.host.vm.pageCounter ≤ maxFrames) :
    Orderly (H := machineEnv.toNodeHeap) bumpFresh s ∧ s.glob.kernelMinAddress = 0x10000#64 ∧
      Mirrored s.areas := by
  have hruns := (show CallRuns machineEnv bumpFresh oneSidedMarked machine _ s from
    Run.Steps.of_exec (callOk_of_machineTest _ oneSidedMarked_of_test) _ hs).accessRuns
  have hset₀ : Settled (H := bumpHeap) (O := bareOs) True VmRegion.Marked bumpFresh machine :=
    settled_empty bumpFresh (0, []) paged_bareHost fresh_bareHost globOk_smallGlobals
  obtain ⟨hset, hk⟩ := hruns.settled (fun _ => rfl) (hostKeeps_marked bareOs)
    (fun _ _ _ hok => hok.2) (fun _ _ _ _ hok => hok.1) (by decide) hset₀
  exact ⟨hset.orderly, hk, (hset.stocked hb).mirrored hb⟩

/-- The page in the middle of three: the two halves have been moved. -/
theorem syscallMunmap_unmapped_hole :
    ∃ s t, syscallMunmap machineEnv 0x2000#64 0x1000#64 s = some (0, t) ∧
      s.regions.length = 1 ∧ t.regions.length = 2 ∧
      Unmapped 0x2000#64 (0x2000#64 + pageAlign 0x1000#64) s t ∧ Mirrored t.areas := by
  have hrun : (machineRun oneSidedTest [anonymousMap 0x1000#64 0x3000#64]).bind (fun s =>
      (syscallMunmap machineEnv 0x2000#64 0x1000#64 s).map (fun x =>
        (s.regions.map fun r => r.fileInfo.fd,
          decide (2 ≤ bumpFresh.avail s.heap ∧ s.host.vm.pageCounter ≤ maxFrames),
          x.1, x.2.regions.length, decide (x.2.host.vm.pageCounter ≤ physicalHeapPages)))) =
      some ([noFd], true, 0, 2, true) := by decide +kernel
  obtain ⟨s, hs, hrun⟩ := Option.bind_eq_some_iff.mp hrun
  obtain ⟨x, hx, hfacts⟩ := Option.map_eq_some_iff.mp hrun
  obtain ⟨err, t⟩ := x
  simp only [Prod.mk.injEq] at hfacts
  obtain ⟨hfds, hav, rfl, hlen, hroom⟩ := hfacts
  obtain ⟨hav, hb⟩ := of_decide_eq_true hav
  obtain ⟨hs, hk, hmirrored⟩ := mirrored_machineRun hs hb
  have hmin : s.glob.kernelMinAddress.toNat ≤ 2 ^ 39 := by
    rw [hk]
    decide
  have hanon : ∀ r ∈ s.regions, r.fileInfo.fd = noFd := by
    intro r hr
    have hmem : r.fileInfo.fd ∈ s.regions.map fun r => r.fileInfo.fd := List.mem_map_of_mem hr
    rw [hfds] at hmem
    exact List.mem_singleton.mp hmem
  have hone : s.regions.length = 1 := by
    have hcount := congrArg List.length hfds
    rw [List.length_map] at hcount
    exact hcount
  refine ⟨s, t, hx, hone, hlen, ?_⟩
  exact syscallMunmap_unmapped (fun _ => rfl) hs hmin hav hmirrored (fun r hr _ _ => hanon r hr) hx
    (of_decide_eq_true hroom)

/-- The first page of the heap, two pages that are joined to it, and a break at the end of
the first: the two are no VMA's any more, but they are there, and `munmap` leaves them. -/
def leftBehind : List Call :=
  [.brk 0#64, .mmapRegion none 0x5000#64 0x2000#64 vmaGrows heapProt 0#64, .brk 0x4001#64]

theorem syscallMunmap_leaves_page :
    ∃ s t, machineRun oneSidedTest leftBehind = some s ∧
      Orderly (H := machineEnv.toNodeHeap) bumpFresh s ∧ Mirrored s.areas ∧
      2 ≤ bumpFresh.avail s.heap ∧
      (∀ r ∈ s.regions, r.fileInfo.fd = noFd) ∧
      syscallMunmap machineEnv 0x4000#64 0x3000#64 s = some (0, t) ∧
      t.host.vm.pageCounter ≤ physicalHeapPages ∧
      ∃ p, getPhysAddr 0x5000#64 t.host.vm = some p := by
  have hrun : (machineRun oneSidedTest leftBehind).bind (fun s =>
      (syscallMunmap machineEnv 0x4000#64 0x3000#64 s).map (fun x =>
        (s.regions.map fun r => r.fileInfo.fd,
          decide (2 ≤ bumpFresh.avail s.heap ∧ s.host.vm.pageCounter ≤ maxFrames),
          x.1, getPhysAddr 0x5000#64 x.2.host.vm,
          decide (x.2.host.vm.pageCounter ≤ physicalHeapPages)))) =
      some ([noFd], true, 0, some 0x10000#64, true) := by decide +kernel
  obtain ⟨s, hs, hrun⟩ := Option.bind_eq_some_iff.mp hrun
  obtain ⟨x, hx, hfacts⟩ := Option.map_eq_some_iff.mp hrun
  obtain ⟨err, t⟩ := x
  simp only [Prod.mk.injEq] at hfacts
  obtain ⟨hfds, hav, rfl, hphys, hroom⟩ := hfacts
  obtain ⟨hav, hb⟩ := of_decide_eq_true hav
  obtain ⟨horderly, -, hmirrored⟩ := mirrored_machineRun hs hb
  refine ⟨s, t, hs, horderly, hmirrored, hav, fun r hr => ?_, hx, of_decide_eq_true hroom, _, hphys⟩
  have hmem : r.fileInfo.fd ∈ s.regions.map fun r => r.fileInfo.fd := List.mem_map_of_mem hr
  rw [hfds] at hmem
  exact List.mem_singleton.mp hmem

end BufferVM
