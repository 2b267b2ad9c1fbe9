/-
  Kernel/HostSteps.lean --- a call of the kernel, as the calls it makes to the host.

  Every operation on the address space makes its host calls in an order of its own.
  Between two of them the address space is again a list of VMAs beside a host: `AreaStep`
  lists the few ways to get from one such point to the next, and `SpaceStep.areaSteps`
  takes the operations apart into them.  What the machine does with the host calls is
  then proved for the steps alone.
-/
import BufferVM.Kernel.Joins
import BufferVM.Kernel.UserSpace
import BufferVM.Vm.Backing

set_option autoImplicit false

namespace BufferVM

variable {σ ω : Type}

/-- The kernel beside the host of `vm/vma.c`. -/
def hostEnv (H : NodeHeap σ) (O : HostOs ω) : Env σ (Host ω) :=
  { toNodeHeap := H, toHostCalls := hostCalls O }

/-! ## The steps -/

/-- The VMA as the host leaves it. -/
def hostMapped (O : HostOs ω) (h : Host ω) (k : VmRegion) : VmRegion :=
  k.mapped (h.kernelMapVma O k).2

/-- The host after it has mapped a VMA. -/
def hostAfter (O : HostOs ω) (h : Host ω) (k : VmRegion) : Host ω := (h.kernelMapVma O k).1

@[simp] theorem mapRegionFields_hostEnv (H : NodeHeap σ) (O : HostOs ω) (h : Host ω)
    (k : VmRegion) :
    mapRegionFields (hostEnv H O) h k = hostMapped O h k := rfl

@[simp] theorem mapHost_hostEnv (H : NodeHeap σ) (O : HostOs ω) (h : Host ω) (k : VmRegion) :
    mapHost (hostEnv H O) h k = hostAfter O h k := rfl

@[simp] theorem dup_hostEnv (H : NodeHeap σ) (O : HostOs ω) (h : Host ω) (fd : BitVec 32) :
    (hostEnv H O).dup h fd = ({ h with os := (O.dup h.os fd).1 }, (O.dup h.os fd).2) := rfl

@[simp] theorem close_hostEnv (H : NodeHeap σ) (O : HostOs ω) (h : Host ω) (fd : BitVec 32) :
    (hostEnv H O).close h fd = { h with os := O.close h.os fd } := rfl

@[simp] theorem unmapVma_hostEnv (H : NodeHeap σ) (O : HostOs ω) (h : Host ω) (k : VmRegion) :
    (hostEnv H O).unmapVma h k = h.kernelUnmapVma k := rfl

/-- The VMA covers no page that the other does not. -/
structure VmRegion.Within (k r : VmRegion) : Prop where
  first : r.first ≤ k.first
  last : k.last ≤ r.last

/-- What the two halves have to do with the VMA. -/
structure SplitParts (r new kept : VmRegion) : Prop where
  ofNew : r.Reshapes new
  ofKept : r.Reshapes kept
  newWithin : new.Within r
  keptWithin : kept.Within r
  apart : kept.Apart new
  all : ∀ j, r.HasPage j → new.HasPage j ∨ kept.HasPage j

/-- One point of a call to the next: `P` is known of a VMA that is new, `C` of a page that
is given up, and `bridges` says that a VMA may swallow the one behind it. -/
inductive AreaStep (O : HostOs ω) (bridges : Prop) (P : VmRegion → Prop) (C : Nat → Prop) :
    List VmRegion × Host ω → List VmRegion × Host ω → Prop
  | os (l : List VmRegion) (h : Host ω) (os : ω) :
      AreaStep O bridges P C (l, h) (l, { h with os := os })
  | insert (l₁ l₂ : List VmRegion) (k : VmRegion) (h : Host ω) (hk : k.InTables)
      (hphys : k.physPageStart = -1#64) (hap : ∀ x ∈ l₁ ++ l₂, k.Apart x) (hP : P k) :
      AreaStep O bridges P C (l₁ ++ l₂, h) (l₁ ++ hostMapped O h k :: l₂, hostAfter O h k)
  | remap (l₁ l₂ : List VmRegion) (r k : VmRegion) (h : Host ω) (hk : r.Reshapes k)
      (hap : ∀ x ∈ l₁ ++ l₂, k.Apart x) (hC : ∀ j, r.HasPage j → k.HasPage j ∨ C j) :
      AreaStep O bridges P C (l₁ ++ r :: l₂, h) (l₁ ++ hostMapped O h k :: l₂, hostAfter O h k)
  | split (l₁ l₂ : List VmRegion) (r new kept : VmRegion) (h : Host ω) (below : Bool)
      (hsp : SplitParts r new kept) (hap : ∀ x ∈ l₁ ++ l₂, r.Apart x) :
      AreaStep O bridges P C (l₁ ++ r :: l₂, h)
        (l₁ ++ (if below then
            [hostMapped O h new, hostMapped O (hostAfter O h new) kept]
          else [hostMapped O (hostAfter O h new) kept, hostMapped O h new]) ++ l₂,
          hostAfter O (hostAfter O h new) kept)
  | remove (l₁ l₂ : List VmRegion) (r : VmRegion) (h : Host ω) (hap : ∀ x ∈ l₁ ++ l₂, r.Apart x)
      (hC : ∀ j, r.HasPage j → C j) :
      AreaStep O bridges P C (l₁ ++ r :: l₂, h) (l₁ ++ l₂, h.kernelUnmapVma r)
  | swallow (l₁ l₂ : List VmRegion) (r k n : VmRegion) (h : Host ω) (os : ω) (hbr : bridges)
      (hk : r.Reshapes k) (hap : ∀ x ∈ l₁ ++ l₂, k.Apart x) :
      AreaStep O bridges P C (l₁ ++ r :: n :: l₂, h)
        (l₁ ++ hostMapped O h k :: l₂, { (hostAfter O h k).kernelUnmapVma n with os := os })

/-- The two parts of a VMA in the list, in either order. -/
theorem perm_parts {α : Type} (l₁ l₂ : List α) (a b : α) (below : Bool) :
    (l₁ ++ (if below then [a, b] else [b, a]) ++ l₂).Perm (a :: b :: (l₁ ++ l₂)) := by
  have hpair : (if below then [a, b] else [b, a]).Perm [a, b] := by
    cases below with
    | true => exact List.Perm.refl _
    | false => exact List.Perm.swap _ _ _
  have hfront : (l₁ ++ [a, b]).Perm ([a, b] ++ l₁) := List.perm_append_comm
  exact ((hpair.append_left l₁).trans hfront).append_right l₂

/-- Points one after another. -/
inductive AreaSteps (O : HostOs ω) (bridges : Prop) (P : VmRegion → Prop) (C : Nat → Prop) :
    List VmRegion × Host ω → List VmRegion × Host ω → Prop
  | refl (x : List VmRegion × Host ω) : AreaSteps O bridges P C x x
  | tail {x y z : List VmRegion × Host ω} (h : AreaSteps O bridges P C x y)
      (hs : AreaStep O bridges P C y z) : AreaSteps O bridges P C x z

section Chain

variable {O : HostOs ω} {bridges : Prop} {P : VmRegion → Prop} {C : Nat → Prop}
  {x y z : List VmRegion × Host ω}

theorem AreaStep.steps (h : AreaStep O bridges P C x y) : AreaSteps O bridges P C x y :=
  .tail (.refl x) h

theorem AreaSteps.trans (h₁ : AreaSteps O bridges P C x y) (h₂ : AreaSteps O bridges P C y z) :
    AreaSteps O bridges P C x z := by
  induction h₂ with
  | refl => exact h₁
  | tail _ hs ih => exact .tail ih hs

end Chain

/-! ## Pages of user space -/

/-- An area of user space is inside the tables. -/
theorem inTables_of_edges {kernelMinAddress : U64} (hmin : kernelMinAddress.toNat ≤ 2 ^ 39)
    {r : VmRegion} (hs : UserEdge kernelMinAddress r.startAddr)
    (he : UserEdge kernelMinAddress r.endAddr) (hlt : r.startAddr < r.endAddr) : r.InTables := by
  have h1 := hs.align
  have h2 := he.align
  have h3 := BitVec.le_def.mp he.le
  have h4 := BitVec.lt_def.mp hlt
  refine ⟨h1, h2, ?_, ?_⟩
  · show r.startAddr.toNat / 4096 < r.endAddr.toNat / 4096
    omega
  · show r.endAddr.toNat / 4096 ≤ 2 ^ 27
    omega

/-- An address that a VMA covers is on one of its pages. -/
theorem VmRegion.InTables.hasPage {r : VmRegion} (hr : r.InTables) {v : U64} (hv : r.Covers v) :
    r.HasPage (pageNumber v) := by
  have h1 := BitVec.le_def.mp hv.1
  have h2 := BitVec.lt_def.mp hv.2
  have h3 := hr.limit
  have hle : r.endAddr.toNat / 4096 ≤ 2 ^ 27 := hr.le
  rw [PageAligned] at h3
  refine ⟨?_, ?_⟩
  · show r.startAddr.toNat / 4096 ≤ v.toNat % 2 ^ 39 / 4096
    omega
  · show v.toNat % 2 ^ 39 / 4096 < r.endAddr.toNat / 4096
    omega

theorem VmRegion.InTables.lt_of_covers {r : VmRegion} (hr : r.InTables) {v : U64}
    (hv : r.Covers v) :
    v.toNat < 2 ^ 39 := by
  have h1 := BitVec.lt_def.mp hv.2
  have h2 := hr.limit
  have hle : r.endAddr.toNat / 4096 ≤ 2 ^ 27 := hr.le
  rw [PageAligned] at h2
  omega

theorem frameOf_le_of_le {a b : U64} (h : a ≤ b) : frameOf a ≤ frameOf b :=
  Nat.div_le_div_right (BitVec.le_def.mp h)

theorem frameOf_lt_of_lt {a b : U64} (ha : PageAligned a) (hb : PageAligned b) (h : a < b) :
    frameOf a < frameOf b := by
  have hlt := BitVec.lt_def.mp h
  rw [PageAligned] at ha hb
  show a.toNat / 4096 < b.toNat / 4096
  omega

/-- VMAs in order are apart. -/
theorem apart_of_le {r x : VmRegion} (h : x.endAddr ≤ r.startAddr ∨ r.endAddr ≤ x.startAddr) :
    r.Apart x := by
  rcases h with h | h
  · exact Or.inl (frameOf_le_of_le h)
  · exact Or.inr (frameOf_le_of_le h)

theorem VmRegion.Apart.symm {r x : VmRegion} (h : r.Apart x) : x.Apart r := Or.symm h

theorem Sorted.apart {l₁ l₂ : List VmRegion} {r : VmRegion} (h : Sorted (l₁ ++ r :: l₂)) :
    ∀ x ∈ l₁ ++ l₂, r.Apart x := by
  obtain ⟨h1, -, h3⟩ := h.around
  intro x hx
  rcases List.mem_append.mp hx with hx | hx
  · exact apart_of_le (Or.inl (h1 x hx))
  · exact apart_of_le (Or.inr (h3 x hx).1)

/-- The areas of user space are inside the tables. -/
theorem inTables_of_space {η : Type} {kernelMinAddress : U64}
    (hmin : kernelMinAddress.toNat ≤ 2 ^ 39)
    {A : Space σ η} (hs : Sorted A.regions) (hedge : EdgesIn (UserEdge kernelMinAddress) A) :
    ∀ r ∈ A.regions, r.InTables := by
  intro r hr
  obtain ⟨x, hx, rfl⟩ := List.mem_map.mp hr
  exact inTables_of_edges hmin (hedge x hx).1 (hedge x hx).2 (hs.lt _ hr)

/-! ## Splitting and removing -/

section Operations

variable {H : NodeHeap σ} {O : HostOs ω} {bridges : Prop} {P : VmRegion → Prop} {C : Nat → Prop}
  {A : Space σ (Host ω)} {addr end' : U64}

/-- The parts of a VMA that is cut in its inside. -/
theorem reshapes_parts {r : VmRegion} (hr : r.InTables) (haddr : PageAligned addr)
    (hlo : r.startAddr < addr) (hhi : addr < r.endAddr) :
    r.Reshapes (r.low addr) ∧ r.Reshapes (r.high addr) ∧ (r.low addr).Within r ∧
      (r.high addr).Within r := by
  have hlt := frameOf_lt_of_lt hr.start haddr hlo
  have hlt' := frameOf_lt_of_lt haddr hr.limit hhi
  have hle := hr.le
  have hle' : frameOf r.endAddr ≤ 2 ^ 27 := hle
  refine ⟨⟨⟨hr.start, haddr, hlt, by show frameOf addr ≤ _; omega⟩, rfl, rfl, rfl, rfl, rfl, id,
    rfl, rfl, ?_, ?_⟩,
    ⟨⟨haddr, hr.limit, hlt', hle⟩, rfl, rfl, rfl, rfl, rfl, id, rfl, rfl, ?_, ?_⟩,
    ⟨le_rfl, hlt'.le⟩, ⟨hlt.le, le_rfl⟩⟩
  · exact hlt.trans hlt'
  · exact hlt
  · exact hlt'
  · exact hlt.trans hlt'

/-- A VMA that has been mapped is inside the tables where it was before. -/
theorem inTables_of_hostMapped {h : Host ω} {k : VmRegion} (hk : (hostMapped O h k).InTables) :
    k.InTables := ⟨hk.start, hk.limit, hk.lt, hk.le⟩

/-- Other bounds for a VMA. -/
theorem reshapes_withBounds {r : VmRegion} {start end' offset : U64}
    (hk : VmRegion.InTables { r with startAddr := start, endAddr := end', pageOffset := offset })
    (hfront : frameOf start < r.last) (hback : r.first < frameOf end') :
    r.Reshapes { r with startAddr := start, endAddr := end', pageOffset := offset } :=
  ⟨hk, rfl, rfl, rfl, rfl, rfl, id, rfl, rfl, hfront, hback⟩

/-- Every page of a VMA that is cut is in one of the parts. -/
theorem hasPage_parts (r : VmRegion) (addr : U64) {j : Nat} (h : r.HasPage j) :
    (r.low addr).HasPage j ∨ (r.high addr).HasPage j := by
  rcases Nat.lt_or_ge j (frameOf addr) with hj | hj
  · exact Or.inl ⟨h.1, hj⟩
  · exact Or.inr ⟨hj, h.2⟩

theorem VmRegion.Reshapes.withFd {r k : VmRegion} (h : r.Reshapes k) {fd : BitVec 32}
    (hfd : r.fileInfo.fd = noFd → fd = noFd) : r.Reshapes (k.withFd fd) :=
  ⟨⟨h.inTables.start, h.inTables.limit, h.inTables.lt, h.inTables.le⟩, h.prot, h.phys, h.physEnd,
    h.oldStart, h.oldEnd, hfd, h.dev, h.inode, h.front, h.back⟩

/-- The half of a VMA that gets the new node. -/
def splitNew (O : HostOs ω) (os : ω) (r : VmRegion) (addr : U64) (nb : Bool) : VmRegion :=
  (if nb then r.low addr else r.high addr).withFd (O.dup os r.fileInfo.fd).2

/-- The half of a VMA that keeps its node. -/
def splitKept (r : VmRegion) (addr : U64) (nb : Bool) : VmRegion :=
  if nb then r.high addr else r.low addr

/-- The host after the descriptor of a VMA has been duplicated. -/
def splitHost (O : HostOs ω) (h : Host ω) (r : VmRegion) : Host ω :=
  { h with os := (O.dup h.os r.fileInfo.fd).1 }

/-- A split of the address space, as a list of VMAs beside a host. -/
theorem splitAt_parts (H : NodeHeap σ) (O : HostOs ω) (hs : Sorted A.regions) (nb : Bool) :
    (A.splitAt (hostEnv H O) addr nb = A ∧
      ∀ r ∈ A.regions, ¬ (r.startAddr < addr ∧ addr < r.endAddr)) ∨
    ∃ l₁ r l₂, A.regions = l₁ ++ r :: l₂ ∧ r.startAddr < addr ∧ addr < r.endAddr ∧
      (A.splitAt (hostEnv H O) addr nb).regions =
        l₁ ++ (if nb then
            [hostMapped O (splitHost O A.host r) (splitNew O A.host.os r addr nb),
              hostMapped O (hostAfter O (splitHost O A.host r) (splitNew O A.host.os r addr nb))
                (splitKept r addr nb)]
          else [hostMapped O (hostAfter O (splitHost O A.host r) (splitNew O A.host.os r addr nb))
                (splitKept r addr nb),
              hostMapped O (splitHost O A.host r) (splitNew O A.host.os r addr nb)]) ++ l₂ ∧
      (A.splitAt (hostEnv H O) addr nb).host =
        hostAfter O (hostAfter O (splitHost O A.host r) (splitNew O A.host.os r addr nb))
          (splitKept r addr nb) := by
  rcases splitAt_cases (hostEnv H O) addr nb hs with ⟨heq, habove⟩ | ⟨x, l, -, hA, hlo, hhi, heq⟩
  · refine Or.inl ⟨heq, fun r hr hc => ?_⟩
    obtain ⟨x, hx, rfl⟩ := List.mem_map.mp hr
    rw [← below_append_above addr A.areas] at hx
    rcases List.mem_append.mp hx with hx | hx
    · have := end_le_of_mem_below hx
      bv_omega
    · have := habove x hx
      bv_omega
  · refine Or.inr ⟨(below addr A.areas).map Prod.snd, x.2, l.map Prod.snd, ?_, hlo, hhi, ?_, ?_⟩
    · conv_lhs => rw [Space.regions, hA]
      simp
    · rw [heq]
      cases nb with
      | false => simp [Space.split, Space.regions, splitArea, splitNew, splitKept, splitHost]
      | true => simp [Space.split, Space.regions, splitArea, splitNew, splitKept, splitHost]
    · rw [heq]
      cases nb with
      | false => simp [Space.split, splitArea, splitNew, splitKept, splitHost]
      | true => simp [Space.split, splitArea, splitNew, splitKept, splitHost]

theorem splitParts {r : VmRegion} (hO : ∀ os, (O.dup os noFd).2 = noFd) (hr : r.InTables)
    (haddr : PageAligned addr) (hlo : r.startAddr < addr) (hhi : addr < r.endAddr) (os : ω)
    (nb : Bool) : SplitParts r (splitNew O os r addr nb) (splitKept r addr nb) := by
  obtain ⟨hlow, hhigh, hwl, hwh⟩ := reshapes_parts hr haddr hlo hhi
  have hfd : r.fileInfo.fd = noFd → (O.dup os r.fileInfo.fd).2 = noFd := by
    intro hf
    rw [hf]
    exact hO _
  cases nb with
  | false =>
      exact ⟨hhigh.withFd hfd, hlow, ⟨hwh.first, hwh.last⟩, hwl, Or.inr le_rfl,
        fun j hj => (hasPage_parts r addr hj).symm⟩
  | true =>
      exact ⟨hlow.withFd hfd, hhigh, ⟨hwl.first, hwl.last⟩, hwh, Or.inl le_rfl,
        fun j hj => hasPage_parts r addr hj⟩

theorem areaSteps_splitAt (hO : ∀ os, (O.dup os noFd).2 = noFd) (hs : Sorted A.regions)
    (hin : ∀ r ∈ A.regions, r.InTables) (haddr : PageAligned addr) (nb : Bool) :
    AreaSteps O bridges P C (A.regions, A.host)
      ((A.splitAt (hostEnv H O) addr nb).regions, (A.splitAt (hostEnv H O) addr nb).host) := by
  rcases splitAt_parts H O hs nb with ⟨heq, -⟩ | ⟨l₁, r, l₂, hA, hlo, hhi, hregions, hhost⟩
  · rw [heq]
    exact .refl _
  · have hparts := splitParts hO (hin r (by rw [hA]; simp)) haddr hlo hhi A.host.os nb
    rw [hA] at hs
    rw [hregions, hhost, hA]
    have hos : AreaStep O bridges P C (l₁ ++ r :: l₂, A.host)
        (l₁ ++ r :: l₂, splitHost O A.host r) := .os _ _ _
    refine hos.steps.trans (AreaStep.steps ?_)
    exact .split l₁ l₂ r _ _ _ nb hparts hs.apart

theorem kernelUnmapVma_withOs (h : Host ω) (os : ω) (r : VmRegion) :
    Host.kernelUnmapVma { h with os := os } r = { h.kernelUnmapVma r with os := os } := by
  unfold Host.kernelUnmapVma
  split
  · rfl
  · rfl

/-- The host after one area has been removed: its descriptor is closed and its pages are
unmapped. -/
theorem removeArea_hostEnv (H : NodeHeap σ) (O : HostOs ω) (heap : σ) (h : Host ω) (n : Area) :
    ∃ os, (removeArea (hostEnv H O) (heap, h) n).2 = { h.kernelUnmapVma n.2 with os := os } := by
  by_cases hfd : n.2.fileInfo.fd = noFd
  · refine ⟨(h.kernelUnmapVma n.2).os, ?_⟩
    simp [removeArea, hfd]
  · refine ⟨O.close h.os n.2.fileInfo.fd, ?_⟩
    simp [removeArea, hfd, kernelUnmapVma_withOs]

theorem areaSteps_removeAreas (l₂ : List VmRegion) (m : List Area) :
    ∀ (l₁ : List VmRegion) (heap : σ) (h : Host ω),
      Sorted (l₁ ++ (m.map Prod.snd ++ l₂)) → (∀ x ∈ m, ∀ j, x.2.HasPage j → C j) →
      AreaSteps O bridges P C (l₁ ++ (m.map Prod.snd ++ l₂), h)
        (l₁ ++ l₂, (removeAreas (hostEnv H O) m (heap, h)).2) := by
  induction m with
  | nil => intro l₁ heap h _ _; exact .refl _
  | cons n m ih =>
      intro l₁ heap h hs hC
      obtain ⟨os, hos⟩ := removeArea_hostEnv H O heap h n
      have hrest : Sorted (l₁ ++ (m.map Prod.snd ++ l₂)) := hs.sublist (by simp)
      have hfirst : AreaStep O bridges P C (l₁ ++ n.2 :: (m.map Prod.snd ++ l₂), h)
          (l₁ ++ (m.map Prod.snd ++ l₂), h.kernelUnmapVma n.2) :=
        .remove l₁ _ n.2 h hs.apart (hC n (by simp))
      have hstep := hfirst.steps.trans (AreaStep.os _ _ os).steps
      rw [← hos] at hstep
      refine hstep.trans ?_
      exact ih l₁ ((hostEnv H O).free heap n.1) _ hrest fun x hx => hC x (by simp [hx])

/-- The range that `removeRange` takes out of a list that has been cut at both ends. -/
theorem removeRange_parts (H : NodeHeap σ) (O : HostOs ω) (hs : Sorted A.regions)
    (hlo : EdgeAt addr A.areas) (hhi : EdgeAt end' A.areas) :
    ∃ l₁ m l₂, A.regions = l₁ ++ (m.map Prod.snd ++ l₂) ∧
      (A.removeRange (hostEnv H O) addr end').regions = l₁ ++ l₂ ∧
      (A.removeRange (hostEnv H O) addr end').host =
        (removeAreas (hostEnv H O) m (A.heap, A.host)).2 ∧
      ∀ x ∈ m, ∀ j, x.2.HasPage j → frameOf addr ≤ j ∧ j < frameOf end' := by
  have hcut := congrArg (List.map Prod.snd) (removeRange_cut addr end' A.areas)
  rw [List.map_append, List.map_append] at hcut
  refine ⟨(below addr A.areas).map Prod.snd,
    (above addr A.areas).takeWhile fun a : Area => decide (a.2.startAddr < end'),
    ((above addr A.areas).dropWhile fun a : Area => decide (a.2.startAddr < end')).map Prod.snd,
    hcut, ?_, rfl, fun x hx j hj => ?_⟩
  · simp [Space.regions, Space.removeRange]
  · -- what is removed lies between the two edges
    have hxa : x ∈ above addr A.areas := (List.takeWhile_sublist _).subset hx
    have hstart := hlo.le_start hs hxa
    have hlt : x.2.startAddr < end' := by simpa using List.mem_takeWhile_imp hx
    have hend : x.2.endAddr ≤ end' := by
      rcases hhi x ((List.dropWhile_sublist _).subset hxa) with h | h
      · exact h
      · exact absurd hlt (BitVec.not_lt.mpr h)
    exact ⟨(frameOf_le_of_le hstart).trans hj.1, hj.2.trans_le (frameOf_le_of_le hend)⟩

theorem areaSteps_removeRange (hs : Sorted A.regions) (hlo : EdgeAt addr A.areas)
    (hhi : EdgeAt end' A.areas) (hC : ∀ j, frameOf addr ≤ j → j < frameOf end' → C j) :
    AreaSteps O bridges P C (A.regions, A.host) ((A.removeRange (hostEnv H O) addr end').regions,
      (A.removeRange (hostEnv H O) addr end').host) := by
  obtain ⟨l₁, m, l₂, hA, hregions, hhost, hm⟩ := removeRange_parts H O hs hlo hhi
  rw [hA] at hs
  rw [hregions, hhost, hA]
  refine areaSteps_removeAreas l₂ m l₁ A.heap A.host hs fun x hx j hj => ?_
  obtain ⟨h1, h2⟩ := hm x hx j hj
  exact hC j h1 h2

/-! ## Placing -/

/-- A new area is mapped between those below it and those above. -/
theorem areaStep_insertNew {l₁ l₂ : List Area} {k : VmRegion} (hA : A.areas = l₁ ++ l₂)
    (hs : Sorted (A.insertNew (hostEnv H O) l₁ k l₂).regions)
    (hin : ∀ x ∈ (A.insertNew (hostEnv H O) l₁ k l₂).regions, x.InTables)
    (hphys : k.physPageStart = -1#64) (hP : P k) :
    AreaStep O bridges P C (A.regions, A.host)
      ((A.insertNew (hostEnv H O) l₁ k l₂).regions,
        (A.insertNew (hostEnv H O) l₁ k l₂).host) := by
  have hA' : A.regions = l₁.map Prod.snd ++ l₂.map Prod.snd := by
    rw [Space.regions, hA, List.map_append]
  have hB : (A.insertNew (hostEnv H O) l₁ k l₂).regions =
      l₁.map Prod.snd ++ hostMapped O A.host k :: l₂.map Prod.snd := by
    simp [Space.insertNew, Space.regions]
  rw [hB] at hs hin
  rw [hB, hA']
  have hmapped : (hostMapped O A.host k).InTables := hin _ (by simp)
  exact .insert _ _ k A.host (inTables_of_hostMapped hmapped) hphys hs.apart hP

/-- An area is mapped again with bounds that lie further out. -/
theorem areaStep_regrow {l₁ l₂ : List Area} {p : Ptr} {r : VmRegion} {start stop offset : U64}
    (hA : A.areas = l₁ ++ (p, r) :: l₂) (hr : r.InTables)
    (hs : Sorted (A.regrow (hostEnv H O) l₁ p
      { r with startAddr := start, endAddr := stop, pageOffset := offset } l₂).regions)
    (hin : ∀ x ∈ (A.regrow (hostEnv H O) l₁ p
      { r with startAddr := start, endAddr := stop, pageOffset := offset } l₂).regions, x.InTables)
    (hfirst : frameOf start ≤ r.first) (hlast : r.last ≤ frameOf stop) :
    AreaStep O bridges P C (A.regions, A.host)
      ((A.regrow (hostEnv H O) l₁ p
          { r with startAddr := start, endAddr := stop, pageOffset := offset } l₂).regions,
        (A.regrow (hostEnv H O) l₁ p
          { r with startAddr := start, endAddr := stop, pageOffset := offset } l₂).host) := by
  have hA' : A.regions = l₁.map Prod.snd ++ r :: l₂.map Prod.snd := Space.regions_eq hA
  have hB : (A.regrow (hostEnv H O) l₁ p
      { r with startAddr := start, endAddr := stop, pageOffset := offset } l₂).regions =
      l₁.map Prod.snd ++ hostMapped O A.host
        { r with startAddr := start, endAddr := stop, pageOffset := offset } ::
          l₂.map Prod.snd := by
    simp [Space.regrow, Space.regions]
  rw [hB] at hs hin
  rw [hB, hA']
  have hmapped : (hostMapped O A.host
      { r with startAddr := start, endAddr := stop, pageOffset := offset }).InTables :=
    hin _ (by simp)
  have hk := inTables_of_hostMapped hmapped
  refine .remap _ _ r _ A.host (reshapes_withBounds hk (hfirst.trans_lt hr.lt)
    (hr.lt.trans_le hlast)) hs.apart fun j hj => ?_
  exact Or.inl ⟨hfirst.trans hj.1, hj.2.trans_le hlast⟩

/-- An area takes in the one behind it. -/
theorem areaStep_swallow {l₁ l₂ : List Area} {p : Ptr} {r : VmRegion} {n : Area}
    (hA : A.areas = l₁ ++ (p, r) :: n :: l₂) (hr : r.InTables)
    (hs : Sorted (A.swallow (hostEnv H O) l₁ p { r with endAddr := n.2.endAddr } n l₂).regions)
    (hin : ∀ x ∈ (A.swallow (hostEnv H O) l₁ p { r with endAddr := n.2.endAddr } n l₂).regions,
      x.InTables) (hbridge : bridges) :
    AreaStep O bridges P C (A.regions, A.host)
      ((A.swallow (hostEnv H O) l₁ p { r with endAddr := n.2.endAddr } n l₂).regions,
        (A.swallow (hostEnv H O) l₁ p { r with endAddr := n.2.endAddr } n l₂).host) := by
  have hA' : A.regions = l₁.map Prod.snd ++ r :: n.2 :: l₂.map Prod.snd := Space.regions_eq hA
  obtain ⟨os, hos⟩ := removeArea_hostEnv H O A.heap
    (hostAfter O A.host { r with endAddr := n.2.endAddr }) n
  have hB : (A.swallow (hostEnv H O) l₁ p { r with endAddr := n.2.endAddr } n l₂).regions =
      l₁.map Prod.snd ++ hostMapped O A.host { r with endAddr := n.2.endAddr } ::
        l₂.map Prod.snd := by
    simp [Space.swallow, Space.regions]
  rw [hB] at hs hin
  have hmapped : (hostMapped O A.host { r with endAddr := n.2.endAddr }).InTables :=
    hin _ (by simp)
  have hk : VmRegion.InTables { r with endAddr := n.2.endAddr } := inTables_of_hostMapped hmapped
  rw [hB, hA']
  have hstep : AreaStep O bridges P C _ _ := .swallow _ (l₂.map Prod.snd) r
    { r with endAddr := n.2.endAddr } n.2 A.host os hbridge
    (reshapes_withBounds hk hr.lt hk.lt) hs.apart
  rw [← hos] at hstep
  exact hstep

variable {F : (hostEnv H O).toNodeHeap.Fresh} {kernelMinAddress : U64}

section User

variable (hO : ∀ os, (O.dup os noFd).2 = noFd) (hmin : kernelMinAddress.toNat ≤ 2 ^ 39)
  (hso : Sound F A) (hedge : EdgesIn (UserEdge kernelMinAddress) A)

include hO hmin hso hedge

theorem areaSteps_unmap (hav : 2 ≤ F.avail A.heap) (haddr : UserEdge kernelMinAddress addr)
    (hend : UserEdge kernelMinAddress end')
    (hC : ∀ j, frameOf addr ≤ j → j < frameOf end' → C j) :
    AreaSteps O bridges P C (A.regions, A.host)
      ((A.unmap (hostEnv H O) addr end').regions, (A.unmap (hostEnv H O) addr end').host) := by
  unfold Space.unmap
  split
  · obtain ⟨hso₁, hav₁⟩ := hso.splitAt addr false (by omega)
    obtain ⟨hso₂, -⟩ := hso₁.splitAt end' true (by omega)
    have hedge₁ := hedge.splitAt (E := hostEnv H O) hso.sorted haddr false
    have h₁ : AreaSteps O bridges P C _ _ := areaSteps_splitAt (H := H) hO hso.sorted
      (inTables_of_space hmin hso.sorted hedge) haddr.align false
    have h₂ : AreaSteps O bridges P C _ _ := areaSteps_splitAt (H := H) hO hso₁.sorted
      (inTables_of_space hmin hso₁.sorted hedge₁) hend.align true
    refine (h₁.trans h₂).trans (areaSteps_removeRange hso₂.sorted ?_ ?_ hC)
    · exact (edgeAt_splitAt hso.sorted false).splitAt hso₁.sorted true
    · exact edgeAt_splitAt hso₁.sorted true
  · exact .refl _

omit hO in
/-- A request that finds its range free is placed in one step. -/
theorem areaStep_place {q : Request} (hav : 1 ≤ F.avail A.heap)
    (haddr : UserEdge kernelMinAddress q.addr) (hend : UserEdge kernelMinAddress q.end')
    (hlt : q.addr < q.end') (hfree : ∀ x ∈ A.areas, x.2.endAddr ≤ q.addr ∨ q.end' ≤ x.2.startAddr)
    (hP : (∀ r ∈ A.regions, ¬ (q.joinsPrev r = true ∨ q.joinsNext r = true)) → P q.fresh)
    (hbr : (∃ r ∈ A.regions, q.joinsPrev r = true) → (∃ r ∈ A.regions, q.joinsNext r = true) →
      bridges) :
    AreaStep O bridges P C (A.regions, A.host)
      ((A.place (hostEnv H O) q).regions, (A.place (hostEnv H O) q).host) := by
  have hs := (hso.place (q := q) hlt hfree hav).1.sorted
  have hin := inTables_of_space hmin hs (hedge.place haddr hend)
  have hin₀ := inTables_of_space hmin hso.sorted hedge
  have hstep := placeStep_place (hostEnv H O) q A
  obtain ⟨m₁, m, m₂, y, hpl⟩ := placedIn_place (hostEnv H O) hso.sorted hlt hfree
  generalize A.place (hostEnv H O) q = B at hs hin hstep hpl ⊢
  cases hstep with
  | fresh hA =>
      -- the list has become longer, so no area has been joined
      have hnone : m = [] := by
        have hnew := congrArg List.length hpl.new
        have hold := congrArg List.length hpl.old
        rw [hA] at hold
        simp only [Space.insertNew, List.length_append, List.length_cons] at hnew hold
        exact List.length_eq_zero_iff.mp (by omega)
      refine areaStep_insertNew hA hs hin rfl (hP fun r hr hj => ?_)
      obtain ⟨x, hx, rfl⟩ := List.mem_map.mp hr
      have hxm : x ∈ m := (hpl.joined x).mpr ⟨hx, hj⟩
      rw [hnone] at hxm
      exact absurd hxm List.not_mem_nil
  | extendPrev l₁ l₂ p r hA hj =>
      have hr : r ∈ A.regions := by rw [Space.regions_eq hA]; simp
      have hle : r.last ≤ frameOf q.end' := by
        rw [VmRegion.last, Request.joinsPrev_end hj]
        exact frameOf_le_of_le (BitVec.le_of_lt hlt)
      exact areaStep_regrow hA (hin₀ r hr) hs hin le_rfl hle
  | extendNext l₁ l₂ p r hA hj =>
      have hr : r ∈ A.regions := by rw [Space.regions_eq hA]; simp
      have hle : frameOf q.addr ≤ r.first := by
        rw [VmRegion.first, ← Request.joinsNext_start hj]
        exact frameOf_le_of_le (BitVec.le_of_lt hlt)
      exact areaStep_regrow hA (hin₀ r hr) hs hin hle le_rfl
  | bridge l₁ l₂ p r n hA hj hj' =>
      have hA' := Space.regions_eq hA
      have hr : r ∈ A.regions := by rw [hA']; simp
      have hn : n.2 ∈ A.regions := by rw [hA']; simp
      exact areaStep_swallow hA (hin₀ r hr) hs hin (hbr ⟨r, hr, hj⟩ ⟨n.2, hn, hj'⟩)

theorem areaSteps_map {q : Request} (hav : 3 ≤ F.avail A.heap)
    (hb : InBounds kernelMinAddress q.addr q.length) (hP : q.Unmerged A.regions → P q.fresh)
    (hbr : q.MeetsFront A.regions → q.MeetsBack A.regions → bridges)
    (hC : ∀ j, frameOf q.addr ≤ j → j < frameOf q.end' → C j) :
    AreaSteps O bridges P C (A.regions, A.host)
      ((A.map (hostEnv H O) q).regions, (A.map (hostEnv H O) q).host) := by
  obtain ⟨hso', hav'⟩ := hso.unmap q.addr q.end' (by omega)
  have haddr := hb.edges.1
  have hend := hb.edges.2
  have hfree := free_unmap hso q.addr q.end' (by omega)
  refine (areaSteps_unmap hO hmin hso hedge (by omega) haddr hend hC).trans (AreaStep.steps ?_)
  refine areaStep_place hmin hso' (hedge.unmap hso (by omega) haddr hend) (by omega) haddr hend
    hb.lt hfree (fun hnone => hP ⟨?_, ?_⟩) fun hfront hback => ?_
  · rintro ⟨r, hr, hlo, hhi, hcan⟩
    obtain ⟨k, hk, hj, -⟩ := (joinsPrev_unmap (E := hostEnv H O) hso (by omega) hb.lt).mpr
      ⟨r, hr, hlo, hhi, hcan, rfl⟩
    exact hnone k hk (Or.inl hj)
  · rintro ⟨r, hr, hlo, hhi, hcan⟩
    obtain ⟨k, hk, hj, -⟩ := (joinsNext_unmap (E := hostEnv H O) hso (by omega) hb.lt hb.addr_align
      hb.end_align).mpr ⟨r, hr, hlo, hhi, hcan, rfl⟩
    exact hnone k hk (Or.inr hj)
  · obtain ⟨r, hr, hj⟩ := hfront
    obtain ⟨n, hn, hj'⟩ := hback
    exact hbr (meetsFront_of_joinsPrev hso hav hb hr hj) (meetsBack_of_joinsNext hso hav hb hn hj')

end User

theorem areaStep_resize {l₁ l₂ : List Area} {p : Ptr} {r : VmRegion} {start : U64}
    (hmin : kernelMinAddress.toNat ≤ 2 ^ 39) (hso : Sound F A)
    (hedge : EdgesIn (UserEdge kernelMinAddress) A)
    (hr : Resizes kernelMinAddress A l₁ p r l₂ start end')
    (hedge' : EdgesIn (UserEdge kernelMinAddress) (A.resize (hostEnv H O) l₁ p r l₂ start end'))
    (hso' : Sound F (A.resize (hostEnv H O) l₁ p r l₂ start end')) (hC : ∀ j, C j) :
    AreaStep O bridges P C (A.regions, A.host)
      ((A.resize (hostEnv H O) l₁ p r l₂ start end').regions,
        (A.resize (hostEnv H O) l₁ p r l₂ start end').host) := by
  have hin := inTables_of_space hmin hso'.sorted hedge'
  have hA' : A.regions = l₁.map Prod.snd ++ r :: l₂.map Prod.snd := Space.regions_eq hr.areas
  have hB : (A.resize (hostEnv H O) l₁ p r l₂ start end').regions = l₁.map Prod.snd ++
      hostMapped O A.host { r with startAddr := start, endAddr := end' } :: l₂.map Prod.snd := by
    simp [Space.resize, Space.regrow, Space.regions]
  have hs := hso'.sorted
  have hrin := inTables_of_space hmin hso.sorted hedge r (by rw [hA']; simp)
  rw [hB] at hs hin
  rw [hB, hA']
  have hk : VmRegion.InTables { r with startAddr := start, endAddr := end' } :=
    inTables_of_hostMapped (O := O) (h := A.host) (hin _ (by simp))
  refine .remap _ _ r { r with startAddr := start, endAddr := end' } A.host
    (reshapes_withBounds hk ?_ ?_) hs.apart fun j _ => Or.inr (hC j)
  · rcases hr.keeps with rfl | ⟨-, hlt⟩
    · exact hrin.lt
    · exact (frameOf_le_of_le (BitVec.le_of_lt hlt)).trans_lt hrin.lt
  · rcases hr.keeps with rfl | ⟨rfl, -⟩
    · exact hk.lt
    · exact hrin.lt

/-- **A call, as its host calls.**  Every step of the address space is a sequence of the few
steps above. -/
theorem SpaceStep.areaSteps {ok : Space σ (Host ω) → Mapping → Prop} {B : Space σ (Host ω)}
    (hO : ∀ os, (O.dup os noFd).2 = noFd) (hmin : kernelMinAddress.toNat ≤ 2 ^ 39)
    (hstep : SpaceStep (hostEnv H O) kernelMinAddress ok A B) (hso : Sound F A)
    (hav : 3 ≤ F.avail A.heap) (hedge : EdgesIn (UserEdge kernelMinAddress) A)
    (hP : ∀ A fd q, ok A (.map fd q) → q.Unmerged A.regions → P q.fresh)
    (hbr : ∀ A fd q, ok A (.map fd q) → q.MeetsFront A.regions → q.MeetsBack A.regions → bridges) :
    AreaSteps O bridges P (fun _ => True) (A.regions, A.host) (B.regions, B.host) := by
  have hedge' := hstep.edges hso hav hedge
  have hso' := hstep.sound hso hav
  have hstat : ∀ fd, AreaSteps O bridges P (fun _ => True) (A.regions, A.host)
      ((A.stat (hostEnv H O) fd).regions, (A.stat (hostEnv H O) fd).host) := by
    intro fd
    by_cases hfd : fd = noFd
    · subst hfd
      rw [Space.stat_noFd]
      exact .refl _
    · have hhost : (A.stat (hostEnv H O) fd).host = { A.host with
          os := (O.fstat (O.dup A.host.os fd).1 (O.dup A.host.os fd).2).1 } := by
        simp only [Space.stat, mmapFile, ne_eq, hfd, not_false_eq_true, if_true]
        rfl
      rw [hhost]
      exact (AreaStep.os _ _ _).steps
  cases hstep with
  | stay => exact .refl _
  | fail fd hok => exact hstat fd
  | unmap addr length hb =>
      exact areaSteps_unmap hO hmin hso hedge (by omega) hb.edges.1 hb.edges.2 fun _ _ _ => trivial
  | map fd q hb hfile hok =>
      refine (hstat fd).trans (areaSteps_map hO hmin (hso.stat fd) hedge hav hb (hP _ _ _ hok)
        (hbr _ _ _ hok) fun _ _ _ => trivial)
  | resize l₁ l₂ p r start end' hr =>
      exact (areaStep_resize hmin hso hedge hr hedge' hso' fun _ => trivial).steps

end Operations

end BufferVM
