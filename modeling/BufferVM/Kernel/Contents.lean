/-
  Kernel/Contents.lean --- anonymous memory across the calls of the kernel.

  Between two host calls no two VMAs have a frame in common, and what has never been
  handed out is zero.  A step then carries the contents of every anonymous page over,
  unless it gives the page up, and a page that no VMA had before it is zero.
-/
import BufferVM.Kernel.Backing
import BufferVM.Vm.Contents

set_option autoImplicit false

namespace BufferVM

variable {σ ω : Type} {O : HostOs ω} {bridges whole : Prop} {P : VmRegion → Prop} {C : Nat → Prop}
  {x y z : List VmRegion × Host ω}

/-! ## The invariant between host calls -/

/-- Every VMA is held, with frames of its own, and the free frames are zero. -/
structure Stocked (whole : Prop) (x : List VmRegion × Host ω) : Prop extends Backed whole x where
  fresh : x.2.vm.Fresh
  apart : x.1.Pairwise VmRegion.FramesApart

/-- What becomes of anonymous pages: they keep their contents unless they are given up, and
new ones are zero. -/
structure Carries (C : Nat → Prop) (x y : List VmRegion × Host ω) : Prop where
  keep : ∀ r ∈ x.1, r.fileInfo.fd = noFd → ∀ j, r.HasPage j → ¬ C j →
    ∃ k ∈ y.1, k.fileInfo.fd = noFd ∧ k.HasPage j ∧ k.page y.2.vm j = r.page x.2.vm j
  blank : ∀ k ∈ y.1, k.fileInfo.fd = noFd → ∀ j, k.HasPage j → (∀ r ∈ x.1, ¬ r.HasPage j) →
    k.page y.2.vm j = zeroPage

theorem mem_middle {α : Type} {l₁ l₂ : List α} {a b : α} :
    b ∈ l₁ ++ a :: l₂ ↔ b = a ∨ b ∈ l₁ ++ l₂ :=
  List.perm_middle.mem_iff.trans List.mem_cons

theorem pairwise_framesApart_middle {l₁ l₂ : List VmRegion} {r : VmRegion} :
    (l₁ ++ r :: l₂).Pairwise VmRegion.FramesApart ↔
      (∀ x ∈ l₁ ++ l₂, x.FramesApart r) ∧ (l₁ ++ l₂).Pairwise VmRegion.FramesApart := by
  rw [List.pairwise_middle VmRegion.FramesApart.symm, List.pairwise_cons]
  constructor
  · rintro ⟨h1, h2⟩
    exact ⟨fun x hx => (h1 x hx).symm, h2⟩
  · rintro ⟨h1, h2⟩
    exact ⟨fun x hx => (h1 x hx).symm, h2⟩

/-! ## One step -/

section Steps

variable {l₁ l₂ : List VmRegion} {r k n : VmRegion} {h : Host ω}

/-- A VMA in the list, beside the others. -/
theorem Stocked.at_middle (hx : Stocked whole (l₁ ++ r :: l₂, h)) :
    r.Held whole h.vm ∧ (∀ x ∈ l₁ ++ l₂, x.Held whole h.vm) ∧
      (∀ x ∈ l₁ ++ l₂, x.FramesApart r) ∧ (l₁ ++ l₂).Pairwise VmRegion.FramesApart := by
  obtain ⟨h1, h2⟩ := pairwise_framesApart_middle.mp hx.apart
  exact ⟨hx.held r (by simp), fun x hxl => hx.held x (mem_middle.mpr (Or.inr hxl)), h1, h2⟩

theorem carries_insert (hx : Stocked whole (l₁ ++ l₂, h)) (hk : k.InTables)
    (hphys : k.physPageStart = -1#64)
    (hb : (hostAfter O h k).vm.pageCounter ≤ maxFrames)
    (hback : Backed whole (l₁ ++ hostMapped O h k :: l₂, hostAfter O h k)) :
    Stocked whole (l₁ ++ hostMapped O h k :: l₂, hostAfter O h k) ∧
      Carries C (l₁ ++ l₂, h) (l₁ ++ hostMapped O h k :: l₂, hostAfter O h k) := by
  obtain ⟨hfresh, hold, hblank⟩ := remaps_kernelMapVma_fresh hx.paged hk hphys hb
  have hpl : ∀ x ∈ l₁ ++ l₂, x.Placed h.vm := fun x hxl => (hx.held x hxl).toPlaced
  refine ⟨⟨hback, hfresh hx.fresh, pairwise_framesApart_middle.mpr
    ⟨fun x hxl => (hold x (hpl x hxl)).2, hx.apart⟩⟩, fun r hr hfd j hj _ => ?_,
    fun x hxl hfd j hj hno => ?_⟩
  · exact ⟨r, mem_middle.mpr (Or.inr hr), hfd, hj, (hold r (hpl r hr)).1 j hj⟩
  · rcases mem_middle.mp hxl with rfl | hxl
    · exact hblank hx.fresh hfd j hj
    · exact absurd hj (hno x hxl)

theorem carries_remap (hx : Stocked whole (l₁ ++ r :: l₂, h)) (hk : r.Reshapes k)
    (hC : ∀ j, r.HasPage j → k.HasPage j ∨ C j)
    (hb : (hostAfter O h k).vm.pageCounter ≤ maxFrames)
    (hback : Backed whole (l₁ ++ hostMapped O h k :: l₂, hostAfter O h k)) :
    Stocked whole (l₁ ++ hostMapped O h k :: l₂, hostAfter O h k) ∧
      Carries C (l₁ ++ r :: l₂, h) (l₁ ++ hostMapped O h k :: l₂, hostAfter O h k) := by
  obtain ⟨hr, hheld, hap, hpw⟩ := hx.at_middle
  have hmap := remaps_kernelMapVma hx.paged hr.toPlaced hk hb
  refine ⟨⟨hback, hmap.fresh hx.fresh, pairwise_framesApart_middle.mpr
    ⟨fun x hxl => hmap.apart x (hheld x hxl).toPlaced (Or.inl (hap x hxl)), hpw⟩⟩,
    fun x hxl hfd j hj hno => ?_, fun x hxl hfd j hj hno => ?_⟩
  · rcases mem_middle.mp hxl with rfl | hxl
    · have hjk := (hC j hj).resolve_right hno
      exact ⟨hostMapped O h k, by simp, hk.anonymous hfd, hjk, hmap.moved hfd j hj hjk⟩
    · exact ⟨x, mem_middle.mpr (Or.inr hxl), hfd, hj,
        hmap.others x (hheld x hxl).toPlaced (hap x hxl) j hj⟩
  · rcases mem_middle.mp hxl with rfl | hxl
    · exact hmap.blank hx.fresh hfd j hj (hno r (by simp))
    · exact absurd hj (hno x (mem_middle.mpr (Or.inr hxl)))

theorem carries_remove (hx : Stocked whole (l₁ ++ r :: l₂, h)) (hC : ∀ j, r.HasPage j → C j)
    (hb : (h.kernelUnmapVma r).vm.pageCounter ≤ maxFrames)
    (hback : Backed whole (l₁ ++ l₂, h.kernelUnmapVma r)) :
    Stocked whole (l₁ ++ l₂, h.kernelUnmapVma r) ∧
      Carries C (l₁ ++ r :: l₂, h) (l₁ ++ l₂, h.kernelUnmapVma r) := by
  obtain ⟨hr, hheld, -, hpw⟩ := hx.at_middle
  obtain ⟨hfresh, hold⟩ := kernelUnmapVma_contents hx.paged hr.toPlaced hb
  refine ⟨⟨hback, hfresh hx.fresh, hpw⟩, fun x hxl hfd j hj hno => ?_,
    fun x hxl hfd j hj hno => ?_⟩
  · rcases mem_middle.mp hxl with rfl | hxl
    · exact absurd (hC j hj) hno
    · exact ⟨x, hxl, hfd, hj, hold x (hheld x hxl).toPlaced j hj⟩
  · exact absurd hj (hno x (mem_middle.mpr (Or.inr hxl)))

/-- The two halves of a VMA once both have been mapped: where their frames are, and what
becomes of the contents. -/
structure SplitContents (O : HostOs ω) (h : Host ω) (r new kept : VmRegion) : Prop where
  fresh : h.vm.Fresh → (hostAfter O (hostAfter O h new) kept).vm.Fresh
  others : ∀ x : VmRegion, x.Placed h.vm → x.FramesApart r → ∀ j, x.HasPage j →
    x.page (hostAfter O (hostAfter O h new) kept).vm j = x.page h.vm j
  first : ∀ j, new.HasPage j →
    (hostMapped O h new).page (hostAfter O (hostAfter O h new) kept).vm j =
      (hostMapped O h new).page (hostAfter O h new).vm j
  movedNew : r.fileInfo.fd = noFd → ∀ j, new.HasPage j →
    (hostMapped O h new).page (hostAfter O (hostAfter O h new) kept).vm j = r.page h.vm j
  movedKept : r.fileInfo.fd = noFd → ∀ j, kept.HasPage j →
    (hostMapped O (hostAfter O h new) kept).page (hostAfter O (hostAfter O h new) kept).vm j =
      r.page h.vm j
  apart : (hostMapped O h new).FramesApart (hostMapped O (hostAfter O h new) kept)
  apartNew : ∀ x : VmRegion, x.Placed h.vm → x.FramesApart (hostMapped O h new)
  apartKept : ∀ x : VmRegion, x.Placed h.vm →
    x.FramesApart (hostMapped O (hostAfter O h new) kept)

theorem VmRegion.Within.hasPage (hin : k.Within r) {j : Nat} (hj : k.HasPage j) : r.HasPage j :=
  ⟨hin.first.trans hj.1, hj.2.trans_le hin.last⟩

theorem splitContents {new kept : VmRegion} (hp : h.vm.Paged) (hr : r.Placed h.vm)
    (hparts : SplitParts r new kept)
    (hb : (hostAfter O (hostAfter O h new) kept).vm.pageCounter ≤ maxFrames) :
    SplitContents O h r new kept := by
  have hb₁ : (hostAfter O h new).vm.pageCounter ≤ maxFrames :=
    (le_pageCounter_hostAfter hparts.ofKept.inTables).trans hb
  obtain ⟨hneeds', hneeds⟩ := hparts.needsMap hr
  obtain ⟨hp₁, hnew, hkeep, -⟩ := held_kernelMapVma_changed True hp hr hparts.ofNew hneeds' hb₁
  have hmap₁ := remaps_kernelMapVma hp hr hparts.ofNew hb₁
  have hr₁ : r.Placed (hostAfter O h new).vm := hr.keep hkeep
  have hmap₂ := remaps_kernelMapVma (h := hostAfter O h new) hp₁ hr₁ hparts.ofKept hb
  have hfirst : ∀ j, new.HasPage j →
      (hostMapped O h new).page (hostAfter O (hostAfter O h new) kept).vm j =
        (hostMapped O h new).page (hostAfter O h new).vm j := fun j hj =>
    hmap₂.others (hostMapped O h new) hnew.toPlaced (hmap₁.apart r hr (Or.inr hneeds')).symm j hj
  refine ⟨fun hf => hmap₂.fresh (hmap₁.fresh hf), fun x hx hap j hj => ?_, hfirst,
    fun hfd j hj => ?_, fun hfd j hj => ?_, ?_, fun x hx => ?_, fun x hx => ?_⟩
  · exact (hmap₂.others x (hx.keep hkeep) hap j hj).trans (hmap₁.others x hx hap j hj)
  · exact (hfirst j hj).trans (hmap₁.moved hfd j (hparts.newWithin.hasPage hj) hj)
  · have hno : ¬ new.HasPage j := by
      intro hj'
      have h1 := hj.1
      have h2 := hj.2
      have h3 := hj'.1
      have h4 := hj'.2
      rcases hparts.apart with ha | ha
      · omega
      · omega
    have hjr := hparts.keptWithin.hasPage hj
    exact (hmap₂.moved hfd j hjr hj).trans (hmap₁.rest j hjr hno)
  · exact hmap₂.apart (hostMapped O h new) hnew.toPlaced (Or.inr hneeds)
  · exact hmap₁.apart x hx (Or.inr hneeds')
  · exact hmap₂.apart x (hx.keep hkeep) (Or.inr hneeds)

/-- The frames of the two halves are apart, and apart from those of the other VMAs. -/
theorem SplitContents.pairwise {new kept : VmRegion} {l : List VmRegion}
    (hsp : SplitContents O h r new kept) (hl : ∀ x ∈ l, x.Placed h.vm)
    (hpw : l.Pairwise VmRegion.FramesApart) :
    (hostMapped O h new :: hostMapped O (hostAfter O h new) kept :: l).Pairwise
      VmRegion.FramesApart := by
  rw [List.pairwise_cons, List.pairwise_cons]
  refine ⟨fun x hxl => ?_, fun x hxl => ?_, hpw⟩
  · rcases List.mem_cons.mp hxl with rfl | hxl
    · exact hsp.apart
    · exact (hsp.apartNew x (hl x hxl)).symm
  · exact (hsp.apartKept x (hl x hxl)).symm

theorem carries_split {new kept : VmRegion} {below : Bool} (hx : Stocked whole (l₁ ++ r :: l₂, h))
    (hparts : SplitParts r new kept)
    (hb : (hostAfter O (hostAfter O h new) kept).vm.pageCounter ≤ maxFrames)
    (hy : y = (l₁ ++ (if below then
        [hostMapped O h new, hostMapped O (hostAfter O h new) kept]
      else [hostMapped O (hostAfter O h new) kept, hostMapped O h new]) ++ l₂,
      hostAfter O (hostAfter O h new) kept))
    (hback : Backed whole y) : Stocked whole y ∧ Carries C (l₁ ++ r :: l₂, h) y := by
  obtain ⟨hr, hheld, hap, hpw⟩ := hx.at_middle
  have hsp := splitContents hx.paged hr.toPlaced hparts hb
  have hperm := perm_parts l₁ l₂ (hostMapped O h new) (hostMapped O (hostAfter O h new) kept) below
  have hmem : ∀ {x}, x ∈ y.1 ↔ x = hostMapped O h new ∨
      x = hostMapped O (hostAfter O h new) kept ∨ x ∈ l₁ ++ l₂ := by
    intro x
    rw [hy, hperm.mem_iff, List.mem_cons, List.mem_cons]
  have hvm : y.2 = hostAfter O (hostAfter O h new) kept := by rw [hy]
  refine ⟨⟨hback, ?_, ?_⟩, fun x hxl hfd j hj hno => ?_, fun x hxl hfd j hj hno => ?_⟩
  · rw [hvm]
    exact hsp.fresh hx.fresh
  · rw [hy, hperm.pairwise_iff VmRegion.FramesApart.symm]
    exact hsp.pairwise (fun x hxl => (hheld x hxl).toPlaced) hpw
  · rw [hvm]
    rcases mem_middle.mp hxl with rfl | hxl
    · rcases hparts.all j hj with hj' | hj'
      · exact ⟨_, hmem.mpr (Or.inl rfl), hparts.ofNew.anonymous hfd, hj', hsp.movedNew hfd j hj'⟩
      · exact ⟨_, hmem.mpr (Or.inr (Or.inl rfl)), hparts.ofKept.anonymous hfd, hj',
          hsp.movedKept hfd j hj'⟩
    · exact ⟨x, hmem.mpr (Or.inr (Or.inr hxl)), hfd, hj,
        hsp.others x (hheld x hxl).toPlaced (hap x hxl) j hj⟩
  · rcases hmem.mp hxl with rfl | rfl | hxl
    · exact absurd (hparts.newWithin.hasPage hj) (hno r (by simp))
    · exact absurd (hparts.keptWithin.hasPage hj) (hno r (by simp))
    · exact absurd hj (hno x (mem_middle.mpr (Or.inr hxl)))

end Steps

/-- A VMA that swallows the one behind it gets frames of its own. -/
theorem stocked_swallow {l₁ l₂ : List VmRegion} {r k n : VmRegion} {h : Host ω} {os : ω}
    (hx : Stocked whole (l₁ ++ r :: n :: l₂, h)) (hk : r.Reshapes k)
    (hb : ((hostAfter O h k).kernelUnmapVma n).vm.pageCounter ≤ maxFrames)
    (hback : Backed whole
      (l₁ ++ hostMapped O h k :: l₂, { (hostAfter O h k).kernelUnmapVma n with os := os })) :
    Stocked whole
      (l₁ ++ hostMapped O h k :: l₂, { (hostAfter O h k).kernelUnmapVma n with os := os }) := by
  obtain ⟨hr, hheld, hap, hpw⟩ := hx.at_middle
  have hb₁ : (hostAfter O h k).vm.pageCounter ≤ maxFrames :=
    (le_pageCounter_kernelUnmapVma _ n).trans hb
  have hmap := remaps_kernelMapVma hx.paged hr.toPlaced hk hb₁
  obtain ⟨hp₁, -, hkeep, -⟩ := held_kernelMapVma hx.paged hr hk hb₁
  have hsub : ∀ {x}, x ∈ l₁ ++ l₂ → x ∈ l₁ ++ n :: l₂ := fun hxl => mem_middle.mpr (Or.inr hxl)
  have hn := (hheld n (by simp)).toPlaced.keep hkeep
  refine ⟨hback, (kernelUnmapVma_contents hp₁ hn hb).1 (hmap.fresh hx.fresh),
    pairwise_framesApart_middle.mpr ⟨fun x hxl => ?_, ?_⟩⟩
  · exact hmap.apart x (hheld x (hsub hxl)).toPlaced (Or.inl (hap x (hsub hxl)))
  · exact (pairwise_framesApart_middle.mp hpw).2

/-- Every step keeps the frames of the VMAs apart. -/
theorem AreaStep.stocked (hstep : AreaStep O bridges P C x y) (hx : Stocked whole x)
    (hb : y.2.vm.pageCounter ≤ maxFrames) (hbr : bridges → ¬ whole) : Stocked whole y := by
  have hback : Backed whole y := hstep.backed hx.toBacked hb hbr
  cases hstep with
  | os l h os => exact ⟨hback, hx.fresh, hx.apart⟩
  | insert l₁ l₂ k h hk hphys hap hP =>
      exact (carries_insert (C := fun _ => True) hx hk hphys hb hback).1
  | remap l₁ l₂ r k h hk hap hC =>
      exact (carries_remap (C := fun _ => True) hx hk (fun _ _ => Or.inr trivial) hb hback).1
  | split l₁ l₂ r new kept h below hparts hap =>
      exact (carries_split (C := fun _ => True) hx hparts hb rfl hback).1
  | remove l₁ l₂ r h hap hC =>
      exact (carries_remove (C := fun _ => True) hx (fun _ _ => trivial) hb hback).1
  | swallow l₁ l₂ r k n h os hbr hk hap => exact stocked_swallow hx hk hb hback

theorem AreaSteps.stocked (hsteps : AreaSteps O bridges P C x y) (hx : Stocked whole x)
    (hb : y.2.vm.pageCounter ≤ maxFrames) (hbr : bridges → ¬ whole) : Stocked whole y := by
  induction hsteps with
  | refl => exact hx
  | tail _ hs ih => exact hs.stocked (ih (hs.le_pageCounter.trans hb)) hb hbr

/-- **One step carries anonymous memory over**, as long as no VMA swallows another. -/
theorem AreaStep.carries (hstep : AreaStep O False P C x y) (hx : Stocked whole x)
    (hb : y.2.vm.pageCounter ≤ maxFrames) : Carries C x y := by
  have hback : Backed whole y := hstep.backed hx.toBacked hb False.elim
  cases hstep with
  | os l h os =>
      exact ⟨fun r hr hfd j hj _ => ⟨r, hr, hfd, hj, rfl⟩,
        fun k hk _ j hj hno => absurd hj (hno k hk)⟩
  | insert l₁ l₂ k h hk hphys hap hP => exact (carries_insert hx hk hphys hb hback).2
  | remap l₁ l₂ r k h hk hap hC => exact (carries_remap hx hk hC hb hback).2
  | split l₁ l₂ r new kept h below hparts hap =>
      exact (carries_split hx hparts hb rfl hback).2
  | remove l₁ l₂ r h hap hC => exact (carries_remove hx hC hb hback).2
  | swallow l₁ l₂ r k n h os hbr hk hap => exact hbr.elim

theorem AreaSteps.carries (hsteps : AreaSteps O False P C x y) (hx : Stocked whole x)
    (hb : y.2.vm.pageCounter ≤ maxFrames) :
    ∀ r ∈ x.1, r.fileInfo.fd = noFd → ∀ j, r.HasPage j → ¬ C j →
      ∃ k ∈ y.1, k.fileInfo.fd = noFd ∧ k.HasPage j ∧ k.page y.2.vm j = r.page x.2.vm j := by
  induction hsteps with
  | refl => exact fun r hr hfd j hj _ => ⟨r, hr, hfd, hj, rfl⟩
  | tail h hs ih =>
      have hb' := hs.le_pageCounter.trans hb
      have hcar := hs.carries (h.stocked hx hb' False.elim) hb
      intro r hr hfd j hj hno
      obtain ⟨k, hk, hkfd, hkj, hpage⟩ := ih hb' r hr hfd j hj hno
      obtain ⟨n, hn, hnfd, hnj, hpage'⟩ := hcar.keep k hk hkfd j hkj hno
      exact ⟨n, hn, hnfd, hnj, hpage'.trans hpage⟩

end BufferVM
