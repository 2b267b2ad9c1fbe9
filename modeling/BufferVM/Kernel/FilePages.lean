/-
  Kernel/FilePages.lean --- private file mappings and `munmap`.

  A `munmap` that takes a part of a VMA splits it, and a split maps both halves again.
  For a file VMA the host then calls `mmap` on the file: whatever the guest has written to
  a private page that survives is gone, and the page shows the file.  So the page reads as
  before exactly when it showed the file before.
-/
import BufferVM.Kernel.Memory

set_option autoImplicit false

namespace BufferVM

variable {σ ω : Type} {O : HostOs ω} {H : NodeHeap σ} {h : Host ω} {r k x : VmRegion}

/-! ## Files -/

/-- The files behind the descriptors of the operating system: `mmap` of a private mapping
shows the pages of the file, and `dup` gives another descriptor for the same file. -/
structure HostOs.Files (O : HostOs ω) where
  opened : ω → BitVec 32 → Prop
  /-- The page of a file at a byte offset. -/
  bytes : ω → BitVec 32 → U64 → U64 → U64
  opened_ne : ∀ os fd, opened os fd → fd ≠ noFd
  mmap : ∀ os length prot flags fd offset page, opened os fd → flags &&& mapPrivate ≠ 0#64 →
    flags &&& mapAnonymous = 0#64 → O.mmap os length prot flags fd offset = some page →
    ∀ i, i < length.toNat / 4096 → page i = bytes os fd (offset + frameAddr i)
  dup_new : ∀ os fd, opened os fd → opened (O.dup os fd).1 (O.dup os fd).2 ∧
    bytes (O.dup os fd).1 (O.dup os fd).2 = bytes os fd
  dup_old : ∀ os fd d, opened os d → opened (O.dup os fd).1 d ∧
    bytes (O.dup os fd).1 d = bytes os d

variable {Fs : O.Files} {os : ω} {pages : Nat → U64 → U64}

/-- The page of the file that a page of a VMA stands for. -/
def VmRegion.filePage (Fs : O.Files) (os : ω) (r : VmRegion) (j : Nat) : U64 → U64 :=
  Fs.bytes os r.fileInfo.fd (r.pageOffset + frameAddr (j - r.first))

/-- A private mapping of an open file. -/
structure VmRegion.PrivateFile (Fs : O.Files) (os : ω) (r : VmRegion) : Prop where
  opened : Fs.opened os r.fileInfo.fd
  unshared : r.flags &&& vmaShared = 0#64

/-- A private mapping of a file whose pages are the given ones. -/
structure VmRegion.MapsFile (Fs : O.Files) (os : ω) (pages : Nat → U64 → U64) (r : VmRegion) :
    Prop extends r.PrivateFile Fs os where
  pages : ∀ j, r.HasPage j → r.filePage Fs os j = pages j

/-- A VMA that is backed, with the given contents. -/
structure VmRegion.Shows (vm : Vm) (pages : Nat → U64 → U64) (r : VmRegion) : Prop where
  held : r.Held True vm
  pages : ∀ j, r.HasPage j → r.page vm j = pages j

/-- Another descriptor has been duplicated. -/
theorem VmRegion.MapsFile.dupOther (hr : r.MapsFile Fs os pages) (fd : BitVec 32) :
    r.MapsFile Fs (O.dup os fd).1 pages := by
  obtain ⟨hopen, hbytes⟩ := Fs.dup_old os fd _ hr.opened
  refine ⟨⟨hopen, hr.unshared⟩, fun j hj => ?_⟩
  rw [VmRegion.filePage, hbytes]
  exact hr.pages j hj

/-- The VMA with another descriptor for its file. -/
theorem VmRegion.MapsFile.withDup (hr : r.MapsFile Fs os pages) :
    (r.withFd (O.dup os r.fileInfo.fd).2).MapsFile Fs (O.dup os r.fileInfo.fd).1 pages := by
  obtain ⟨hopen, hbytes⟩ := Fs.dup_new os _ hr.opened
  refine ⟨⟨hopen, hr.unshared⟩, fun j hj => ?_⟩
  rw [VmRegion.filePage]
  show Fs.bytes (O.dup os r.fileInfo.fd).1 (O.dup os r.fileInfo.fd).2 _ = _
  rw [hbytes]
  exact hr.pages j hj

theorem VmRegion.MapsFile.low {addr : U64} (hr : r.MapsFile Fs os pages)
    (hin : (r.low addr).Within r) : (r.low addr).MapsFile Fs os pages :=
  ⟨⟨hr.opened, hr.unshared⟩, fun j hj => hr.pages j (hin.hasPage hj)⟩

/-- The half of a VMA above a page address is further on in the file. -/
theorem VmRegion.MapsFile.high {addr : U64} (hr : r.MapsFile Fs os pages) (hin : r.InTables)
    (haddr : PageAligned addr) (hw : (r.high addr).Within r) :
    (r.high addr).MapsFile Fs os pages := by
  refine ⟨⟨hr.opened, hr.unshared⟩, fun j hj => ?_⟩
  have hle : r.first ≤ frameOf addr := hw.first
  have hle' : frameOf addr ≤ j := hj.1
  have hdown : pageAlignDown (addr - r.startAddr) = frameAddr (frameOf addr - r.first) := by
    have haddr' : addr = frameAddr (frameOf addr) := haddr.eq_frameAddr
    conv_lhs => rw [haddr', hin.startAddr_eq, frameAddr_sub hle]
    exact pageAlignDown_of_aligned (pageAligned_frameAddr _)
  rw [← hr.pages j (hw.hasPage hj), VmRegion.filePage, VmRegion.filePage]
  show Fs.bytes os r.fileInfo.fd (r.pageOffset + pageAlignDown (addr - r.startAddr) +
    frameAddr (j - frameOf addr)) = _
  rw [hdown, BitVec.add_assoc, frameAddr_add]
  congr 3
  omega

/-! ## Mapping a file VMA -/

/-- A call that leaves the operating system alone and does not start a machine again. -/
structure Host.Continues (h h' : Host ω) : Prop where
  os : h'.os = h.os
  running : h'.stopped = false → h.stopped = false

theorem Host.Continues.refl (h : Host ω) : h.Continues h := ⟨rfl, id⟩

theorem continues_remapRegion (O : HostOs ω) (oldStart size newStart : U64) (h : Host ω) :
    h.Continues (remapRegion O oldStart size newStart h) := by
  unfold remapRegion
  split
  · exact ⟨rfl, id⟩
  · exact ⟨rfl, fun hc => absurd hc (by simp)⟩

theorem continues_moveContents (O : HostOs ω) (r : VmRegion) (newPhys : U64) (h : Host ω) :
    h.Continues (moveContents O r newPhys h) := by
  unfold moveContents
  by_cases hle : r.startAddr ≤ r.oldStartAddr
  · simp only [hle, if_true]
    exact continues_remapRegion _ _ _ _ _
  · simp only [hle, if_false]
    exact continues_remapRegion _ _ _ _ _

theorem continues_mapFile (O : HostOs ω) (r : VmRegion) (newPhys : U64) (h : Host ω) :
    h.Continues (mapFile O r newPhys h) := by
  unfold mapFile
  split
  · exact ⟨rfl, id⟩
  · exact ⟨rfl, fun hc => absurd hc (by simp)⟩

theorem continues_hostAfter (hr : r.InTables) : h.Continues (hostAfter O h r) := by
  unfold hostAfter
  by_cases hn : r.NeedsMap
  · rw [kernelMapVma_needs hr hn]
    dsimp only
    have hmove : h.Continues (if r.Moves then moveContents O r (frameAddr h.vm.pageCounter)
        { h with vm := h.vm.mapVmaPages r } else { h with vm := h.vm.mapVmaPages r }) := by
      split
      · obtain ⟨hos, hrun⟩ := continues_moveContents O r (frameAddr h.vm.pageCounter)
          { h with vm := h.vm.mapVmaPages r }
        exact ⟨hos, hrun⟩
      · exact ⟨rfl, id⟩
    split
    · obtain ⟨hos, hrun⟩ := continues_mapFile O r (frameAddr h.vm.pageCounter) (if r.Moves then
        moveContents O r (frameAddr h.vm.pageCounter) { h with vm := h.vm.mapVmaPages r }
        else { h with vm := h.vm.mapVmaPages r })
      exact ⟨hos.trans hmove.os, fun hs => hmove.running (hrun hs)⟩
    · exact hmove
  · rw [kernelMapVma_unchanged hn]
    exact .refl h

/-- The flags of a private mapping ask for a private mapping. -/
theorem vmaToFlags_unshared {flags : U64} (h : flags &&& vmaShared = 0#64) :
    (vmaToFlags flags ||| mapFixed) &&& mapPrivate ≠ 0#64 ∧
      (vmaToFlags flags ||| mapFixed) &&& mapAnonymous = 0#64 := by
  unfold vmaToFlags transferFlag transferInvFlag
  rw [if_pos h, if_neg (by simp [h])]
  decide

/-- The host's marks are not the one of a shared mapping. -/
theorem VmRegion.MapsFile.hostMapped (hk : k.MapsFile Fs os pages) :
    (hostMapped O h k).MapsFile Fs os pages := by
  have hflags : ∀ a b : Bool, (k.flags ||| (if a then vmaHasResized else 0#64) |||
      (if b then vmaIsPrefaulted else 0#64)) &&& vmaShared = 0#64 := by
    intro a b
    rw [or_and_distrib, or_and_distrib, hk.unshared]
    cases a <;> cases b <;> decide
  exact ⟨⟨hk.opened, hflags _ _⟩, hk.pages⟩

/-- **A file VMA that is mapped shows the file.** -/
theorem page_hostMapped (hp : h.vm.Paged) (hk : k.InTables) (hn : k.NeedsMap)
    (hfile : k.MapsFile Fs h.os pages) (hrun : (hostAfter O h k).stopped = false)
    (hb : (hostAfter O h k).vm.pageCounter ≤ maxFrames) {j : Nat} (hj : k.HasPage j) :
    (hostMapped O h k).page (hostAfter O h k).vm j = pages j := by
  have hfd := Fs.opened_ne _ _ hfile.opened
  have hno : k.Moves → k.Known h.vm := fun hm => absurd hm.2.2 hfd
  obtain ⟨page, hpage, hmem⟩ := (kernelMapVma_contents hp hk hn hno hb).2 hfd hrun
  have hfields := (kernelMapVma_spec hp hk hn hno hb).2
  have hc := (le_pageCounter_kernelMapVma hk).trans hb
  obtain ⟨hpriv, hanon⟩ := vmaToFlags_unshared hfile.unshared
  have hlt := hk.lt
  have hle := hk.le
  have h1 := hj.1
  have h2 := hj.2
  have hlen : (k.pages * pageSize).toNat / 4096 = k.last - k.first := by
    rw [hk.pages_mul, toNat_frameAddr (by omega)]
    omega
  have hin := Fs.mmap _ _ _ _ _ _ _ hfile.opened hpriv hanon hpage (j - k.first) (by omega)
  rw [hostMapped, hfields, page_mapped hc]
  exact (hmem j h1 h2).trans (hin.trans (hfile.pages j hj))

/-! ## Splitting -/

section Split

variable {addr : U64} {nb : Bool}

/-- Both halves of a file VMA are mappings of its file. -/
theorem VmRegion.MapsFile.parts (hr : r.MapsFile Fs os pages) (hin : r.InTables)
    (haddr : PageAligned addr) (hlo : r.startAddr < addr) (hhi : addr < r.endAddr) (nb : Bool) :
    (splitNew O os r addr nb).MapsFile Fs (O.dup os r.fileInfo.fd).1 pages ∧
      (splitKept r addr nb).MapsFile Fs (O.dup os r.fileInfo.fd).1 pages := by
  obtain ⟨-, -, hwl, hwh⟩ := reshapes_parts hin haddr hlo hhi
  have hlow := hr.low hwl
  have hhigh := hr.high hin haddr hwh
  cases nb with
  | false => exact ⟨hhigh.withDup, hlow.dupOther _⟩
  | true => exact ⟨hlow.withDup, hhigh.dupOther _⟩

/-- The halves of a file VMA, once both have been mapped, show the file. -/
theorem shows_split {new kept : VmRegion} (hp : h.vm.Paged) (hr : r.Placed h.vm)
    (hparts : SplitParts r new kept) (hnew : new.MapsFile Fs h.os pages)
    (hkept : kept.MapsFile Fs h.os pages)
    (hb : (hostAfter O (hostAfter O h new) kept).vm.pageCounter ≤ maxFrames)
    (hrun : (hostAfter O (hostAfter O h new) kept).stopped = false) :
    (hostMapped O h new).Shows (hostAfter O (hostAfter O h new) kept).vm pages ∧
      (hostMapped O (hostAfter O h new) kept).Shows
        (hostAfter O (hostAfter O h new) kept).vm pages := by
  obtain ⟨-, hheld, hheld', -⟩ := held_split True hp hr hparts hb
  have hb₁ : (hostAfter O h new).vm.pageCounter ≤ maxFrames :=
    (le_pageCounter_hostAfter hparts.ofKept.inTables).trans hb
  have hcont := continues_hostAfter (O := O) (h := h) hparts.ofNew.inTables
  have hrun₁ := (continues_hostAfter (O := O) hparts.ofKept.inTables).running hrun
  obtain ⟨hneeds, hneeds'⟩ := hparts.needsMap hr
  have hp₁ := (held_kernelMapVma_changed True hp hr hparts.ofNew hneeds hb₁).1
  refine ⟨⟨hheld, fun j hj => ?_⟩, hheld', fun j hj => ?_⟩
  · exact ((splitContents hp hr hparts hb).first j hj).trans
      (page_hostMapped hp hparts.ofNew.inTables hneeds hnew hrun₁ hb₁ hj)
  · exact page_hostMapped hp₁ hparts.ofKept.inTables hneeds' (hcont.os.symm ▸ hkept) hrun hb hj

/-- A VMA that is not split shows what it showed. -/
theorem VmRegion.Shows.split {new kept : VmRegion} (hx : x.Shows h.vm pages) (hp : h.vm.Paged)
    (hr : r.Placed h.vm) (hparts : SplitParts r new kept) (hap : r.Apart x) (hfr : x.FramesApart r)
    (hb : (hostAfter O (hostAfter O h new) kept).vm.pageCounter ≤ maxFrames) :
    x.Shows (hostAfter O (hostAfter O h new) kept).vm pages := by
  refine ⟨(held_split True hp hr hparts hb).2.2.2 x hap hx.held, fun j hj => ?_⟩
  exact ((splitContents hp hr hparts hb).others x hx.held.toPlaced hfr j hj).trans (hx.pages j hj)

variable {A : Space σ (Host ω)}

/-- A page of a file mapping when the address space is split: a VMA that is split shows the
file afterwards, and another one is what it was. -/
theorem splitAt_file (hO : ∀ os, (O.dup os noFd).2 = noFd) (hs : Sorted A.regions)
    (hin : ∀ r ∈ A.regions, r.InTables) (haddr : PageAligned addr)
    (hx : Stocked False (A.regions, A.host))
    (hb : (A.splitAt (hostEnv H O) addr nb).host.vm.pageCounter ≤ maxFrames)
    (hrun : (A.splitAt (hostEnv H O) addr nb).host.stopped = false) (hk : k ∈ A.regions)
    (hfile : k.MapsFile Fs A.host.os pages) {j : Nat} (hj : k.HasPage j) :
    ∃ k' ∈ (A.splitAt (hostEnv H O) addr nb).regions, k'.HasPage j ∧
      k'.MapsFile Fs (A.splitAt (hostEnv H O) addr nb).host.os pages ∧
      ((k.startAddr < addr ∧ addr < k.endAddr) ∨ k.Shows A.host.vm pages →
        k'.Shows (A.splitAt (hostEnv H O) addr nb).host.vm pages) ∧
      (¬ (k.startAddr < addr ∧ addr < k.endAddr) → k' = k) := by
  rcases splitAt_parts H O hs nb with ⟨heq, hno⟩ | ⟨l₁, r, l₂, hA, hlo, hhi, hregions, hhost⟩
  · rw [heq]
    exact ⟨k, hk, hj, hfile, fun hc => hc.resolve_left (hno k hk), fun _ => rfl⟩
  · have hr := hin r (by rw [hA]; simp)
    have hparts := splitParts hO hr haddr hlo hhi A.host.os nb
    rw [hA] at hs hx hk
    have hap := hs.apart
    obtain ⟨hrheld, -, hfr, -⟩ := hx.at_middle
    rw [hhost] at hb hrun
    rw [hhost, hregions]
    have hos : (hostAfter O (hostAfter O (splitHost O A.host r) (splitNew O A.host.os r addr nb))
        (splitKept r addr nb)).os = (O.dup A.host.os r.fileInfo.fd).1 :=
      (continues_hostAfter hparts.ofKept.inTables).os.trans
        (continues_hostAfter hparts.ofNew.inTables).os
    have hmem := fun y => (perm_parts l₁ l₂
      (hostMapped O (splitHost O A.host r) (splitNew O A.host.os r addr nb))
      (hostMapped O (hostAfter O (splitHost O A.host r) (splitNew O A.host.os r addr nb))
        (splitKept r addr nb)) nb).mem_iff (a := y)
    rw [hos]
    rcases mem_middle.mp hk with rfl | hk
    · obtain ⟨hnew, hkept⟩ := hfile.parts hr haddr hlo hhi nb
      obtain ⟨hshow, hshow'⟩ := shows_split (h := splitHost O A.host k) hx.paged hrheld.toPlaced
        hparts hnew hkept hb hrun
      rcases hparts.all j hj with hj' | hj'
      · refine ⟨hostMapped O (splitHost O A.host k) (splitNew O A.host.os k addr nb),
          (hmem _).mpr (by simp), hj', hnew.hostMapped, fun _ => hshow, ?_⟩
        exact fun hc => absurd ⟨hlo, hhi⟩ hc
      · refine ⟨hostMapped O (hostAfter O (splitHost O A.host k) (splitNew O A.host.os k addr nb))
          (splitKept k addr nb), (hmem _).mpr (by simp), hj', hkept.hostMapped, fun _ => hshow', ?_⟩
        exact fun hc => absurd ⟨hlo, hhi⟩ hc
    · refine ⟨k, (hmem _).mpr (by simp [List.mem_append.mp hk]), hj, hfile.dupOther _, fun hc => ?_,
        fun _ => rfl⟩
      rcases hc with hc | hc
      · -- the address is inside one VMA only
        obtain ⟨hfront, -, hback⟩ := hs.around
        rcases List.mem_append.mp hk with hk | hk
        · have := hfront k hk
          bv_omega
        · have := (hback k hk).1
          bv_omega
      · exact hc.split (h := splitHost O A.host r) hx.paged hrheld.toPlaced hparts (hap k hk)
          (hfr k hk) hb

end Split

/-! ## Unmapping -/

section Unmap

variable {A : Space σ (Host ω)} {addr end' : U64}

/-- Removing areas, one after the other. -/
theorem removeAreas_cons (H : NodeHeap σ) (O : HostOs ω) (heap : σ) (h : Host ω) (n : Area)
    (m : List Area) :
    ∃ os, (removeAreas (hostEnv H O) (n :: m) (heap, h)).2 =
      (removeAreas (hostEnv H O) m
        ((hostEnv H O).free heap n.1, { h.kernelUnmapVma n.2 with os := os })).2 := by
  obtain ⟨os, hos⟩ := removeArea_hostEnv H O heap h n
  refine ⟨os, ?_⟩
  rw [← hos]
  rfl

theorem le_pageCounter_removeAreas (m : List Area) :
    ∀ (heap : σ) (h : Host ω),
      h.vm.pageCounter ≤ (removeAreas (hostEnv H O) m (heap, h)).2.vm.pageCounter := by
  induction m with
  | nil => exact fun _ _ => le_rfl
  | cons n m ih =>
      intro heap h
      obtain ⟨os, hcons⟩ := removeAreas_cons H O heap h n m
      rw [hcons]
      exact (le_pageCounter_kernelUnmapVma h n.2).trans
        (ih _ { h.kernelUnmapVma n.2 with os := os })

theorem stopped_kernelUnmapVma (h : Host ω) (r : VmRegion) :
    (h.kernelUnmapVma r).stopped = h.stopped := by
  unfold Host.kernelUnmapVma
  split
  · rfl
  · rfl

/-- A machine that has stopped stays so. -/
theorem AreaSteps.running {bridges : Prop} {P : VmRegion → Prop} {C : Nat → Prop}
    {x y : List VmRegion × Host ω} (h : AreaSteps O bridges P C x y) (hy : y.2.stopped = false) :
    x.2.stopped = false := by
  induction h with
  | refl => exact hy
  | tail _ hs ih =>
      apply ih
      cases hs with
      | os l h os => exact hy
      | insert l₁ l₂ k h hk hphys hap hP => exact (continues_hostAfter hk).running hy
      | remap l₁ l₂ r k h hk hap hC => exact (continues_hostAfter hk.inTables).running hy
      | split l₁ l₂ r new kept h below hsp hap =>
          exact (continues_hostAfter hsp.ofNew.inTables).running
            ((continues_hostAfter hsp.ofKept.inTables).running hy)
      | remove l₁ l₂ r h hap hC => exact (stopped_kernelUnmapVma h r).symm.trans hy
      | swallow l₁ l₂ r k n h os hbr hk hap =>
          exact (continues_hostAfter hk.inTables).running
            ((stopped_kernelUnmapVma _ n).symm.trans hy)

theorem stopped_removeAreas (m : List Area) :
    ∀ (heap : σ) (h : Host ω),
      (removeAreas (hostEnv H O) m (heap, h)).2.stopped = h.stopped := by
  induction m with
  | nil => exact fun _ _ => rfl
  | cons n m ih =>
      intro heap h
      obtain ⟨os, hcons⟩ := removeAreas_cons H O heap h n m
      rw [hcons, ih]
      exact stopped_kernelUnmapVma h n.2

/-- A VMA that is apart from those that are removed shows what it showed. -/
theorem VmRegion.Shows.removeAreas (m : List Area) :
    ∀ (heap : σ) (h : Host ω), x.Shows h.vm pages → h.vm.Paged →
      (∀ n ∈ m, n.2.Placed h.vm ∧ n.2.Apart x) →
      (BufferVM.removeAreas (hostEnv H O) m (heap, h)).2.vm.pageCounter ≤ maxFrames →
      x.Shows (BufferVM.removeAreas (hostEnv H O) m (heap, h)).2.vm pages ∧
        (BufferVM.removeAreas (hostEnv H O) m (heap, h)).2.vm.Paged := by
  induction m with
  | nil => exact fun heap h hx hp _ _ => ⟨hx, hp⟩
  | cons n m ih =>
      intro heap h hx hp hm hb
      obtain ⟨os, hcons⟩ := removeAreas_cons H O heap h n m
      rw [hcons] at hb ⊢
      have hb₁ : (h.kernelUnmapVma n.2).vm.pageCounter ≤ maxFrames :=
        (le_pageCounter_removeAreas m _ { h.kernelUnmapVma n.2 with os := os }).trans hb
      obtain ⟨hpl, hap⟩ := hm n (by simp)
      obtain ⟨hp₁, hkeep, -, -⟩ := kernelUnmapVma_spec hp hpl hb₁
      have hpages := (kernelUnmapVma_contents hp hpl hb₁).2 x hx.held.toPlaced
      refine ih _ { h.kernelUnmapVma n.2 with os := os }
        ⟨held_kernelUnmapVma hp hpl hb₁ hx.held fun _ => hap, fun j hj => ?_⟩ hp₁
          (fun y hy => ?_) hb
      · exact (hpages j hj).trans (hx.pages j hj)
      · obtain ⟨hyp, hya⟩ := hm y (by simp [hy])
        exact ⟨hyp.keep hkeep, hya⟩

/-- A VMA with a page outside the range shows what it showed after the range has been
removed. -/
theorem VmRegion.Shows.removeRange (hs : Sorted A.regions) (hlo : EdgeAt addr A.areas)
    (hhi : EdgeAt end' A.areas) (hx : Stocked False (A.regions, A.host)) (hk : k ∈ A.regions)
    (hshow : k.Shows A.host.vm pages) {j : Nat} (hj : k.HasPage j)
    (hout : ¬ (frameOf addr ≤ j ∧ j < frameOf end'))
    (hb : (A.removeRange (hostEnv H O) addr end').host.vm.pageCounter ≤ maxFrames) :
    k.Shows (A.removeRange (hostEnv H O) addr end').host.vm pages ∧
      (A.removeRange (hostEnv H O) addr end').host.vm.Paged := by
  refine hshow.removeAreas _ A.heap A.host hx.paged (fun n hn => ?_) hb
  have hna : n ∈ above addr A.areas := (List.takeWhile_sublist _).subset hn
  have hmem : n.2 ∈ A.regions :=
    List.mem_map.mpr ⟨n, (List.dropWhile_sublist _).subset hna, rfl⟩
  refine ⟨(hx.held n.2 hmem).toPlaced, ?_⟩
  -- the VMA has a page outside the range, so it is not the one that is removed
  have hne : k ≠ n.2 := by
    rintro rfl
    have hstart := hlo.le_start hs hna
    have hlt : n.2.startAddr < end' := by simpa using List.mem_takeWhile_imp hn
    have hend : n.2.endAddr ≤ end' := by
      rcases hhi n ((List.dropWhile_sublist _).subset hna) with h | h
      · exact h
      · exact absurd hlt (BitVec.not_lt.mpr h)
    exact hout ⟨(frameOf_le_of_le hstart).trans hj.1, hj.2.trans_le (frameOf_le_of_le hend)⟩
  obtain ⟨l₁, l₂, hsplit⟩ := List.append_of_mem hmem
  rw [hsplit] at hs hk
  exact hs.apart k ((mem_middle.mp hk).resolve_left hne)

variable {F : (hostEnv H O).toNodeHeap.Fresh} {kernelMinAddress : U64}

/-- **After `munmap` of a part of a private file mapping**, what is left of it shows the
file. -/
theorem readByte_unmap (hO : ∀ os, (O.dup os noFd).2 = noFd)
    (hmin : kernelMinAddress.toNat ≤ 2 ^ 39) (hso : Sound F A)
    (hedge : EdgesIn (UserEdge kernelMinAddress) A) (hav : 2 ≤ F.avail A.heap)
    (haddr : UserEdge kernelMinAddress addr) (hend : UserEdge kernelMinAddress end')
    (hx : Stocked False (A.regions, A.host))
    (hb : (A.unmap (hostEnv H O) addr end').host.vm.pageCounter ≤ maxFrames)
    (hrun : (A.unmap (hostEnv H O) addr end').host.stopped = false) (hr : r ∈ A.regions)
    (hfile : r.PrivateFile Fs A.host.os) (hlo : r.startAddr < end') (hhi : addr < r.endAddr)
    {v : U64} (hv : r.Covers v) (hout : ¬ (addr ≤ v ∧ v < end')) :
    (A.unmap (hostEnv H O) addr end').host.vm.readByte v =
      some (byteOf (r.filePage Fs A.host.os (pageNumber v)) v) := by
  have hover : overlapping addr end' A.areas = true := by
    obtain ⟨x, hxa, rfl⟩ := List.mem_map.mp hr
    exact (overlapping_iff hso.sorted).mpr ⟨x, hxa, hhi, hlo⟩
  rw [Space.unmap, if_pos hover] at hb hrun ⊢
  obtain ⟨hso₁, hav₁⟩ := hso.splitAt addr false (by omega)
  obtain ⟨hso₂, -⟩ := hso₁.splitAt end' true (by omega)
  have hedge₁ := hedge.splitAt (E := hostEnv H O) hso.sorted haddr false
  have hin := inTables_of_space hmin hso.sorted hedge
  have hin₁ := inTables_of_space hmin hso₁.sorted hedge₁
  have hlo₂ : EdgeAt addr ((A.splitAt (hostEnv H O) addr false).splitAt
      (hostEnv H O) end' true).areas :=
    (edgeAt_splitAt hso.sorted false).splitAt hso₁.sorted true
  have hhi₂ : EdgeAt end' ((A.splitAt (hostEnv H O) addr false).splitAt
      (hostEnv H O) end' true).areas := edgeAt_splitAt hso₁.sorted true
  have h₁ : AreaSteps O False (fun _ => True) (fun _ => True) _ _ :=
    areaSteps_splitAt (H := H) hO hso.sorted hin haddr.align false
  have h₂ : AreaSteps O False (fun _ => True) (fun _ => True) _ _ :=
    areaSteps_splitAt (H := H) hO hso₁.sorted hin₁ hend.align true
  generalize hA₁ : A.splitAt (hostEnv H O) addr false = A₁ at *
  generalize hA₂ : A₁.splitAt (hostEnv H O) end' true = A₂ at *
  have hb₂ : A₂.host.vm.pageCounter ≤ maxFrames :=
    (le_pageCounter_removeAreas _ A₂.heap A₂.host).trans hb
  have hrun₂ : A₂.host.stopped = false := (stopped_removeAreas _ A₂.heap A₂.host).symm.trans hrun
  have hb₁ := h₂.le_pageCounter.trans hb₂
  have hx₁ := h₁.stocked hx hb₁ False.elim
  have hx₂ := h₂.stocked hx₁ hb₂ False.elim
  have hj : r.HasPage (pageNumber v) := (hin r hr).hasPage hv
  have hnum := mem_range_iff haddr.align hend.align ((hin r hr).lt_of_covers hv)
  obtain ⟨k₁, hk₁, hj₁, hfile₁, hshow₁, hsame⟩ := splitAt_file hO hso.sorted hin haddr.align hx
    (by rw [hA₁]; exact hb₁) (by rw [hA₁]; exact h₂.running hrun₂) hr ⟨hfile, fun _ _ => rfl⟩ hj
  rw [hA₁] at hk₁ hfile₁ hshow₁
  obtain ⟨k₂, hk₂, hj₂, -, hshow₂, -⟩ := splitAt_file hO hso₁.sorted hin₁ hend.align hx₁
    (by rw [hA₂]; exact hb₂) (by rw [hA₂]; exact hrun₂) hk₁ hfile₁ hj₁
  rw [hA₂] at hk₂ hshow₂
  have hshow : k₂.Shows A₂.host.vm (r.filePage Fs A.host.os) := by
    refine hshow₂ ?_
    by_cases hcut : r.startAddr < addr ∧ addr < r.endAddr
    · exact Or.inr (hshow₁ (Or.inl hcut))
    · -- the range begins before the VMA, so it ends inside
      rw [hsame hcut]
      have h1 := hv.1
      have h2 := hv.2
      exact Or.inl ⟨hlo, by bv_omega⟩
  obtain ⟨hfinal, hp⟩ := hshow.removeRange hso₂.sorted hlo₂ hhi₂ hx₂ hk₂ hj₂
    (fun hc => hout (hnum.mp hc)) hb
  rw [hfinal.held.readByte hp hb hj₂, hfinal.pages _ hj₂]

end Unmap

/-! ## Runs -/

theorem hostKeeps_true (O : HostOs ω) : HostKeeps O fun _ => True :=
  ⟨fun _ _ _ => trivial, fun _ _ _ _ _ => trivial⟩

/-- **`munmap` of a part of a private file mapping**, after any run of calls and stores: the
addresses that survive read as before exactly when they showed the file before. -/
theorem munmap_keeps_privateFile_iff (H : NodeHeap σ) (O : HostOs ω)
    (hO : ∀ os, (O.dup os noFd).2 = noFd) (Fs : O.Files) (F : (hostEnv H O).toNodeHeap.Fresh)
    (heap : σ) (host : Host ω) (hp : host.vm.Paged) (hf : host.vm.Fresh) (glob : Globals)
    (hg : GlobOk glob) (hmin : glob.kernelMinAddress.toNat ≤ 2 ^ 39) (as : List Access)
    (s : St σ (Host ω))
    (h : AccessRuns (hostEnv H O) F (fun _ _ => True) (St.empty heap host glob) as s)
    (hav : 3 ≤ F.avail s.heap) (r : VmRegion) (hr : r ∈ s.regions)
    (hfile : r.PrivateFile Fs s.host.os) (addr length : U64)
    (hacc : munmapRejects s.glob.kernelMinAddress addr length = false)
    (hlo : r.startAddr < addr + pageAlign length) (hhi : addr < r.endAddr) (t : St σ (Host ω))
    (hrun : (Call.munmap addr length).run (hostEnv H O) s = some t)
    (hroom : t.host.vm.pageCounter ≤ physicalHeapPages) (hstop : t.host.stopped = false) :
    (∀ v, r.Covers v → ¬ (addr ≤ v ∧ v < addr + pageAlign length) →
        t.host.vm.readByte v = s.host.vm.readByte v) ↔
      ∀ v, r.Covers v → ¬ (addr ≤ v ∧ v < addr + pageAlign length) →
        s.host.vm.readByte v = some (byteOf (r.filePage Fs s.host.os (pageNumber v)) v) := by
  obtain ⟨hs, hk⟩ : Settled False (fun _ => True) F s ∧
      s.glob.kernelMinAddress = glob.kernelMinAddress :=
    h.settled hO (hostKeeps_true O) (fun _ _ _ _ => trivial) (fun hw => hw.elim) hmin
      (settled_empty F heap hp hf hg)
  have hmin' : s.glob.kernelMinAddress.toNat ≤ 2 ^ 39 := by
    rw [hk]
    exact hmin
  have hb := hroom.trans physicalHeapPages_le_maxFrames
  obtain ⟨t', hrun', -, -, hsp⟩ := hs.orderly.linked.munmap (by omega) hs.orderly.glob.align hacc
  obtain ⟨y, hy, rfl⟩ := Option.map_eq_some_iff.mp hrun
  have heq : y = (0, t') := Option.some.inj (hy.symm.trans hrun')
  subst heq
  have hhost : t'.host = (s.space.unmap (hostEnv H O) addr (addr + pageAlign length)).host := by
    rw [← hsp]
    rfl
  have hbounds := inBounds_of_accept hs.orderly.glob.align hacc
  have hin : r ∈ s.space.regions := by
    rw [St.space_regions]
    exact hr
  have hsteps : AreaSteps O False (fun _ => True) (fun _ => True) _ _ :=
    areaSteps_unmap hO hmin' hs.orderly.linked.sound hs.orderly.edges
      (show 2 ≤ F.avail s.heap by omega)
      hbounds.edges.1 hbounds.edges.2 fun _ _ _ => trivial
  have hstock := hs.stocked (hsteps.le_pageCounter.trans (by rw [← hhost]; exact hb))
  have hafter : ∀ v, r.Covers v → ¬ (addr ≤ v ∧ v < addr + pageAlign length) →
      t'.host.vm.readByte v = some (byteOf (r.filePage Fs s.host.os (pageNumber v)) v) := by
    intro v hv hout
    rw [hhost]
    exact readByte_unmap hO hmin' hs.orderly.linked.sound hs.orderly.edges
      (show 2 ≤ F.avail s.heap by omega) hbounds.edges.1 hbounds.edges.2
      (by rw [St.space_regions]; exact hstock) (by rw [← hhost]; exact hb)
      (by rw [← hhost]; exact hstop) hin hfile hlo hhi hv hout
  refine forall₃_congr fun v hv hout => ?_
  show t'.host.vm.readByte v = _ ↔ _
  rw [hafter v hv hout]
  exact eq_comm

/-! ## A machine with a file -/

/-- An operating system with one file, whose words are the offsets of their pages. -/
def fileOs : HostOs Nat where
  dup n fd := if fd = noFd then (n, noFd) else (n + 1, BitVec.ofNat 32 (n % 2 ^ 31))
  close n _ := n
  fstat n _ := (n, 1#64, 2#64)
  mmap _ _ _ _ _ offset := some fun i _ => offset + frameAddr i
  hole _ _ := 0#64

theorem dup_fileOs_ne (n : Nat) (fd : BitVec 32) (h : fd ≠ noFd) : (fileOs.dup n fd).2 ≠ noFd := by
  have hne : BitVec.ofNat 32 (n % 2 ^ 31) ≠ noFd := by
    intro hc
    have hn := congrArg BitVec.toNat hc
    have hno : noFd.toNat = 2 ^ 32 - 1 := by decide
    rw [BitVec.toNat_ofNat, hno] at hn
    omega
  simp only [fileOs, h, if_false]
  exact hne

/-- Every descriptor is one of that file. -/
def oneFile : fileOs.Files where
  opened _ fd := fd ≠ noFd
  bytes _ _ offset := fun _ => offset
  opened_ne _ _ h := h
  mmap _ _ _ _ _ _ _ _ _ _ h i _ := by
    rw [← Option.some.inj h]
  dup_new n fd h := ⟨dup_fileOs_ne n fd h, rfl⟩
  dup_old _ _ _ h := ⟨h, rfl⟩

/-- The small machine on that operating system. -/
def fileEnv : Env (Nat × List Ptr) (Host Nat) := hostEnv bumpHeap fileOs

/-- Its host, with the tables built. -/
def fileHost : Host Nat := { vm := buildPageTables blankVm, os := 4, stopped := false }

/-- That machine before the first call. -/
def fileMachine : St (Nat × List Ptr) (Host Nat) := St.empty (0, []) fileHost smallGlobals

/-- Two pages of the file, mapped privately. -/
def twoPages : Call :=
  .mmapRegion (some { dev := 1#64, inode := 2#64, fd := 3#32 }) 0x1000#64 0x2000#64 0#64
    (vmaRead ||| vmaWrite) 0#64

theorem paged_fileHost : fileHost.vm.Paged := by
  have hp := initial_blankVm.refines.paged
  unfold fileHost
  generalize buildPageTables blankVm = vm at hp ⊢
  exact hp

theorem fresh_fileHost : fileHost.vm.Fresh := by
  have hf := initial_blankVm.built.fresh
  unfold fileHost
  generalize buildPageTables blankVm = vm at hf ⊢
  exact hf

/-- The file mapping is one call of a run. -/
theorem callOk_twoPages : CallOk fileEnv bumpFresh (fun _ _ => True) fileMachine twoPages :=
  ⟨by decide +kernel, by decide +kernel, trivial⟩

theorem accessRuns_twoPages {s : St (Nat × List Ptr) (Host Nat)}
    (h : twoPages.run fileEnv fileMachine = some s) :
    AccessRuns fileEnv bumpFresh (fun _ _ => True) fileMachine [.call twoPages] s :=
  .cons callOk_twoPages h (.nil s)

/-- The second of two pages is unmapped. -/
theorem munmap_keeps_privateFile_iff_twoPages :
    ∃ s t, AccessRuns fileEnv bumpFresh (fun _ _ => True) fileMachine [.call twoPages] s ∧
      (Call.munmap 0x2000#64 0x1000#64).run fileEnv s = some t ∧
      ∃ r ∈ s.regions, r.startAddr = 0x1000#64 ∧ r.endAddr = 0x3000#64 ∧
        ((∀ v, r.Covers v → ¬ (0x2000#64 ≤ v ∧ v < 0x2000#64 + pageAlign 0x1000#64) →
            t.host.vm.readByte v = s.host.vm.readByte v) ↔
          ∀ v, r.Covers v → ¬ (0x2000#64 ≤ v ∧ v < 0x2000#64 + pageAlign 0x1000#64) →
            s.host.vm.readByte v =
              some (byteOf (r.filePage oneFile s.host.os (pageNumber v)) v)) := by
  have hrun : (twoPages.run fileEnv fileMachine).bind (fun s =>
      ((Call.munmap 0x2000#64 0x1000#64).run fileEnv s).map (fun t =>
        (s.regions.map (fun r => (r.startAddr, r.endAddr, r.fileInfo.fd, r.flags &&& vmaShared)),
          decide (3 ≤ bumpFresh.avail s.heap ∧
            munmapRejects s.glob.kernelMinAddress 0x2000#64 0x1000#64 = false ∧
            t.host.vm.pageCounter ≤ physicalHeapPages ∧ t.host.stopped = false)))) =
      some ([(0x1000#64, 0x3000#64, 3#32, 0#64)], true) := by decide +kernel
  obtain ⟨s, hs, hrun⟩ := Option.bind_eq_some_iff.mp hrun
  obtain ⟨t, ht, hfacts⟩ := Option.map_eq_some_iff.mp hrun
  simp only [Prod.mk.injEq, decide_eq_true_eq] at hfacts
  obtain ⟨hregions, hav, hacc, hroom, hstop⟩ := hfacts
  obtain ⟨r, hr⟩ : ∃ r, s.regions = [r] := List.length_eq_one_iff.mp (by
    simpa using congrArg List.length hregions)
  simp only [hr, List.map_cons, List.map_nil, List.cons.injEq, Prod.mk.injEq, and_true] at hregions
  obtain ⟨hstart, hend, hfd, hflags⟩ := hregions
  have hopen : (3#32 : BitVec 32) ≠ noFd := by decide
  refine ⟨s, t, accessRuns_twoPages hs, ht, r, by rw [hr]; simp, hstart, hend, ?_⟩
  exact munmap_keeps_privateFile_iff bumpHeap fileOs (fun _ => rfl) oneFile bumpFresh
    (0, []) fileHost
    paged_fileHost fresh_fileHost smallGlobals globOk_smallGlobals (by decide) _ s
    (accessRuns_twoPages hs) hav r (by rw [hr]; simp) ⟨by rw [hfd]; exact hopen, hflags⟩
    0x2000#64 0x1000#64 hacc (by rw [hstart]; decide) (by rw [hend]; decide) t ht hroom hstop

/-- The guest has written to the first of the two pages. -/
def writeFirst (s : St (Nat × List Ptr) (Host Nat)) : Nat → U64 → U64 :=
  fun f i => if f = 12 then 0x42#64 else s.host.vm.mem f i

/-- The guest writes to the first of two pages, and the second is unmapped: what it has
written is gone. -/
theorem munmap_loses_privateFile :
    ∃ s t, AccessRuns fileEnv bumpFresh (fun _ _ => True) fileMachine
        [.call twoPages, .store (writeFirst s)] (s.store (writeFirst s)) ∧
      (Call.munmap 0x2000#64 0x1000#64).run fileEnv (s.store (writeFirst s)) = some t ∧
      t.host.vm.pageCounter ≤ physicalHeapPages ∧ t.host.stopped = false ∧
      ∃ r ∈ (s.store (writeFirst s)).regions, r.PrivateFile oneFile s.host.os ∧
        r.startAddr = 0x1000#64 ∧ r.endAddr = 0x3000#64 ∧
        (s.store (writeFirst s)).host.vm.readByte 0x1000#64 = some 0x42#8 ∧
        t.host.vm.readByte 0x1000#64 = some 0#8 := by
  have hrun : (twoPages.run fileEnv fileMachine).bind (fun s =>
      ((Call.munmap 0x2000#64 0x1000#64).run fileEnv (s.store (writeFirst s))).map (fun t =>
        (s.regions.map (fun r => (r.startAddr, r.endAddr, r.fileInfo.fd, r.flags &&& vmaShared)),
          s.regions.map VmRegion.frame,
          decide (s.host.vm.pageCounter ≤ maxFrames ∧ t.host.vm.pageCounter ≤ physicalHeapPages ∧
            t.host.stopped = false ∧
            (s.store (writeFirst s)).host.vm.readByte 0x1000#64 = some 0x42#8 ∧
            t.host.vm.readByte 0x1000#64 = some 0#8)))) =
      some ([(0x1000#64, 0x3000#64, 3#32, 0#64)], [12], true) := by
    decide +kernel
  obtain ⟨s, hs, hrun⟩ := Option.bind_eq_some_iff.mp hrun
  obtain ⟨t, ht, hfacts⟩ := Option.map_eq_some_iff.mp hrun
  simp only [Prod.mk.injEq, decide_eq_true_eq] at hfacts
  obtain ⟨hregions, hframe, hcount, hroom, hstop, hbefore, hafter⟩ := hfacts
  obtain ⟨r, hr⟩ : ∃ r, s.regions = [r] := List.length_eq_one_iff.mp (by
    simpa using congrArg List.length hregions)
  simp only [hr, List.map_cons, List.map_nil, List.cons.injEq, Prod.mk.injEq, and_true]
    at hregions hframe
  obtain ⟨hstart, hend, hfd, hflags⟩ := hregions
  have hopen : (3#32 : BitVec 32) ≠ noFd := by decide
  obtain ⟨hset, -⟩ : Settled False (fun _ => True) bumpFresh s ∧
      s.glob.kernelMinAddress = smallGlobals.kernelMinAddress :=
    (accessRuns_twoPages hs).settled (fun _ => rfl) (hostKeeps_true fileOs) (fun _ _ _ _ => trivial)
      (fun hw => hw.elim) (by decide) (settled_empty bumpFresh (0, []) paged_fileHost fresh_fileHost
        globOk_smallGlobals)
  have hheld := (hset.stocked hcount).held r (by rw [St.areas, hr]; simp)
  -- the frame that is written to is the guest's
  have hdata : s.host.vm.IsData 12 := by
    have hzero := hheld.data 0 (by
      show 0 < frameOf r.endAddr - frameOf r.startAddr
      rw [hstart, hend]
      decide)
    rw [hframe] at hzero
    exact hzero
  have hwrite : ∀ f, ¬ s.host.vm.IsData f → writeFirst s f = s.host.vm.mem f := by
    intro f hf
    have hne : f ≠ 12 := fun hc => hf (hc ▸ hdata)
    funext i
    simp [writeFirst, hne]
  have hstore := hset.regions_store (writeFirst s)
  refine ⟨s, t, ?_, ht, hroom, hstop, r, by rw [hstore, hr]; simp,
    ⟨by rw [hfd]; exact hopen, hflags⟩, hstart, hend, hbefore, hafter⟩
  exact .cons callOk_twoPages hs (.cons hwrite rfl (.nil _))

end BufferVM
