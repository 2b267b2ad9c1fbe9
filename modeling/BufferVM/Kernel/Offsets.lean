/-
  Kernel/Offsets.lean --- file pages and their offsets.

  `page_offset` counts bytes, and a split moves it on by bytes.  The tests of `vma_merge`
  add a number of pages to it.  A merge of file mappings therefore puts pages at the wrong
  offset, whatever its lengths are; without one, every page keeps the offset it was
  mapped at through any sequence of mappings and removals.
-/
import BufferVM.Kernel.Joins
import BufferVM.Kernel.UserSpace

set_option autoImplicit false

namespace BufferVM

variable {σ η : Type} {s t : St σ η} {E : Env σ η} {F : E.toNodeHeap.Fresh}

/-! ## The offset a VMA denotes -/

/-- The byte offset that a VMA denotes for an address. -/
def VmRegion.offsetAt (r : VmRegion) (a : U64) : U64 := r.pageOffset + (a - r.startAddr)

theorem splitStable_offsetAt {addr : U64} (halign : addr.toNat % 4096 = 0) :
    SplitStable E VmRegion.offsetAt VmRegion.Aligned addr := by
  intro x heap host nb hx hlo _
  obtain ⟨h1, h2, h3, h4⟩ := splitArea_bounds E x addr nb heap host
  have hdown : pageAlignDown (addr - x.2.startAddr) = addr - x.2.startAddr := by
    refine pageAlignDown_of_aligned ?_
    have := hx.start
    rw [BitVec.toNat_sub_of_le (BitVec.le_of_lt hlo)]
    omega
  have hlow : (splitArea E x addr nb heap host).1.2.pageOffset = x.2.pageOffset := by
    cases nb <;> rfl
  have hhigh : (splitArea E x addr nb heap host).2.1.2.pageOffset =
      x.2.pageOffset + (addr - x.2.startAddr) := by
    rw [← hdown]
    cases nb <;> rfl
  refine ⟨⟨⟨by rw [h1]; exact hx.start, by rw [h2]; exact halign⟩,
    ⟨by rw [h3]; exact halign, by rw [h4]; exact hx.limit⟩⟩, fun a => ⟨fun _ => ?_, fun _ => ?_⟩⟩
  · rw [VmRegion.offsetAt, VmRegion.offsetAt, hlow, h1]
  · rw [VmRegion.offsetAt, VmRegion.offsetAt, hhigh, h3]
    bv_omega

theorem Orderly.aligned (h : Orderly F s) : ∀ r ∈ s.space.regions, r.Aligned := by
  intro r hr
  have := h.inUserSpace r (by rw [← St.space_regions]; exact hr)
  exact ⟨this.start, this.limit⟩

/-! ## The offset that was asked for -/

/-- The offsets asked for after a call.  An address belongs to the last mapping that
covered it, until it is removed. -/
def Call.offsets (E : Env σ η) (s : St σ η) (m : U64 → Option U64) : Call → U64 → Option U64
  | .mmap stray addr length prot flags fd offset, a =>
      match mmapPrepare E stray addr length prot flags fd offset s with
      | some (some q, _) =>
          if q.addr ≤ a ∧ a < q.end' then some (offset + (a - q.addr)) else m a
      | _ => m a
  | .munmap addr length, a =>
      if munmapRejects s.glob.kernelMinAddress addr length = false ∧
        addr ≤ a ∧ a < addr + pageAlign length then none else m a
  | _, a => m a

/-- A file mapping inside the bounds that is not merged, or a removal. -/
def Call.FileOk (E : Env σ η) (s : St σ η) : Call → Prop
  | .mmap stray addr length prot flags fd offset =>
      fd ≠ noFd ∧
        ∀ q host, mmapPrepare E stray addr length prot flags fd offset s = some (some q, host) →
          InBounds s.glob.kernelMinAddress q.addr q.length ∧ q.Unmerged s.regions
  | .munmap _ _ => True
  | _ => False

/-- A step of the store together with the offsets asked for. -/
def offsetStep (E : Env σ η) (x : St σ η × (U64 → Option U64)) (c : Call) :
    Option (St σ η × (U64 → Option U64)) :=
  (c.run E x.1).map fun t => (t, c.offsets E x.1 x.2)

theorem Call.FileOk.ok {c : Call} (h : c.FileOk E s) : c.Ok E (fun _ _ => True) s := by
  cases c with
  | mmap stray addr length prot flags fd offset =>
      intro x hprep
      obtain ⟨q, host⟩ := x
      cases q with
      | none => exact fun _ => trivial
      | some q => exact ⟨fun _ => trivial, fun hout => absurd (h.2 q host hprep).1 hout⟩
  | munmap addr length => trivial
  | mmapRegion fileInfo addr length flags prot offset => exact h.elim
  | brk request => exact h.elim
  | fault addr errorCode => exact h.elim

/-- A file mapping passes its offset on. -/
theorem mmapPrepare_offset {stray addr length prot flags : U64} {fd : BitVec 32} {offset : U64}
    {q : Request} {host : η} (hfd : fd ≠ noFd)
    (h : mmapPrepare E stray addr length prot flags fd offset s = some (some q, host)) :
    q.offset = offset := by
  unfold mmapPrepare at h
  split at h
  · exact absurd (Prod.mk.inj (Option.some.inj h)).1 (by simp)
  · simp only [Option.bind_eq_bind, Option.bind_eq_some_iff] at h
    obtain ⟨a, -, h⟩ := h
    obtain ⟨x, hx, rfl⟩ := Option.map_eq_some_iff.mp (Prod.mk.inj (Option.some.inj h)).1
    simp only [hfd, decide_false, mmapType] at hx
    split at hx
    · simp only [Bool.false_eq_true, if_false, Option.some.injEq] at hx
      rw [← hx]
    · split at hx
      · rw [← Option.some.inj hx]
      · exact absurd hx (by simp)

/-! ## The invariant -/

/-- One call keeps what the VMAs denote equal to what was asked for. -/
theorem offsets_step (h : Orderly F s) (hav : 3 ≤ F.avail s.heap) {c : Call} (hc : c.FileOk E s)
    (hrun : c.run E s = some t) (a : U64) :
    t.view VmRegion.offsetAt a = c.offsets E s (s.view VmRegion.offsetAt) a := by
  have hal := h.aligned
  have hso := h.linked.sound
  have hview : ∀ addr length : U64, InBounds s.glob.kernelMinAddress addr length →
      view VmRegion.offsetAt (s.space.unmap E addr (addr + length)).regions a =
        if addr ≤ a ∧ a < addr + length then none else s.view VmRegion.offsetAt a := by
    intro addr length hb
    rw [St.view, ← St.space_regions]
    exact (view_unmap (splitStable_offsetAt hb.edges.1.align)
      (splitStable_offsetAt hb.edges.2.align) hso (by exact Nat.le_of_succ_le hav) hal).1 a
  cases c with
  | munmap addr length =>
      obtain ⟨x, hx, rfl⟩ := Option.map_eq_some_iff.mp hrun
      cases hacc : munmapRejects s.glob.kernelMinAddress addr length with
      | true =>
          rw [syscallMunmap_rejected hacc] at hx
          obtain rfl := Option.some.inj hx
          simp [Call.offsets, hacc]
      | false =>
          have hb := inBounds_of_accept h.glob.align hacc
          obtain ⟨u, hrun', -, -, hsp⟩ := h.linked.munmap (by omega) h.glob.align hacc
          obtain rfl := Option.some.inj (hrun'.symm.trans hx)
          rw [St.view, ← St.space_regions, hsp, hview addr _ hb]
          simp [Call.offsets, hacc]
  | mmap stray addr length prot flags fd offset =>
      obtain ⟨x, hx, rfl⟩ := Option.map_eq_some_iff.mp hrun
      obtain ⟨hfd, hq⟩ := hc
      rw [syscallMmap_eq, Option.bind_eq_some_iff] at hx
      obtain ⟨⟨q, host⟩, hprep, hx⟩ := hx
      simp only [Call.offsets, hprep]
      cases q with
      | none =>
          obtain rfl := Option.some.inj hx
          rw [St.view, ← St.space_regions, (h.linked.withHost host).2]
          exact congrArg (fun l => view _ l a) (St.space_regions s)
      | some q =>
          obtain ⟨y, hy, rfl⟩ := Option.map_eq_some_iff.mp hx
          obtain ⟨hb, hun⟩ := hq q host hprep
          obtain ⟨-, -, -, -, hfile⟩ := mmapPrepare_length hprep
          obtain rfl : host = (mmapFile E s.host fd).2 := congrArg Prod.snd hfile
          obtain ⟨-, -, -, hsp, -⟩ := stepped_request (fun _ _ => True) fd h.linked hav hb
            (fun _ => congrArg Prod.fst hfile) trivial hy
          rw [St.view, ← St.space_regions, hsp, view_map_unmerged (hso.stat fd) hav hb (by
            rw [show (s.space.stat E fd).regions = s.regions from St.space_regions s]; exact hun)]
          have hoff : q.offset = offset := mmapPrepare_offset hfd hprep
          dsimp only
          by_cases hin : q.addr ≤ a ∧ a < q.end'
          · rw [if_pos hin, if_pos hin, ← hoff]
            rfl
          · rw [if_neg hin, if_neg hin]
            have hclear := (view_unmap (A := s.space.stat E fd)
              (splitStable_offsetAt hb.edges.1.align)
              (splitStable_offsetAt hb.edges.2.align) (hso.stat fd) (by exact Nat.le_of_succ_le hav)
              hal).1 a
            rw [Request.end'] at hin ⊢
            rw [hclear, if_neg hin]
            exact congrArg (fun l => view _ l a) (St.space_regions s)
  | mmapRegion fileInfo addr length flags prot offset => exact hc.elim
  | brk request => exact hc.elim
  | fault addr errorCode => exact hc.elim

/-- **File pages keep their offset** along every run of file mappings and removals inside
the bounds in which no mapping is merged with a VMA. -/
theorem offsets_of_runs (F : E.toNodeHeap.Fresh) (s : St σ η) (hs : Orderly F s) (cs : List Call)
    (t : St σ η) (m : U64 → Option U64)
    (h : Run.Steps (offsetStep E) (fun x c => 3 ≤ F.avail x.1.heap ∧ c.FileOk E x.1)
      (s, s.view VmRegion.offsetAt) cs (t, m)) (a : U64) :
    t.view VmRegion.offsetAt a = m a := by
  have hinv := Run.Steps.invariant (fun x : St σ η × (U64 → Option U64) =>
    Orderly F x.1 ∧ x.1.view VmRegion.offsetAt = x.2) h ?_ ⟨hs, rfl⟩
  · exact congrFun hinv.2 a
  · rintro ⟨u, n⟩ c ⟨v, n'⟩ ⟨hu, hn⟩ ⟨hav, hc⟩ hstep
    obtain ⟨w, hw, heq⟩ := Option.map_eq_some_iff.mp hstep
    obtain ⟨rfl, rfl⟩ := Prod.mk.inj heq
    have hn' : u.view VmRegion.offsetAt = n := hn
    refine ⟨(hu.call hav hc.ok hw).1, ?_⟩
    rw [← hn']
    exact funext fun a => offsets_step hu hav hc hw a

/-! ## A machine with room for large files -/

/-- Globals with a user space of a gigabyte. -/
def wideGlobals : Globals :=
  { smallGlobals with
    kernelMinAddress := 0x40000000#64
    userStackStart := 0x40000000#64
    userStackMin := 0x3fff0000#64 }

/-- The machine before the first call. -/
def wideStore : St (Nat × List Ptr) Unit := St.empty (0, []) () wideGlobals

theorem orderly_wideStore : Orderly bumpFresh wideStore :=
  orderly_empty (E := quietEnv) bumpFresh _ _ ⟨by decide, by decide, by decide⟩

/-- A private mapping of descriptor 3 at a fixed address. -/
def fileMap (addr length offset : U64) : Call :=
  .mmap 0#64 addr length protRead (mapPrivate ||| mapFixed) 3#32 offset

theorem fileMap_ok {s : St σ η} {addr length offset : U64}
    (hb : InBounds s.glob.kernelMinAddress addr (pageAlign length)) (hs : s.regions = []) :
    (fileMap addr length offset).FileOk E s := by
  refine ⟨by decide, fun q host hprep => ?_⟩
  obtain ⟨hlen, -, -, haddr, -⟩ := mmapPrepare_length hprep
  have hfix : (mapPrivate ||| mapFixed) &&& mapFixed ≠ 0#64 := by decide
  rw [getUnmappedArea, if_pos hfix] at haddr
  refine ⟨?_, ⟨fun h => ?_, fun h => ?_⟩⟩
  · rw [hlen, ← Option.some.inj haddr]
    exact hb
  · obtain ⟨r, hr, -⟩ := h
    simp [hs] at hr
  · obtain ⟨r, hr, -⟩ := h
    simp [hs] at hr

/-- Two pages of a file from its second page on. -/
theorem offsets_of_runs_wide :
    ∃ t m, Run.Steps (offsetStep quietEnv)
        (fun x c => 3 ≤ bumpFresh.avail x.1.heap ∧ c.FileOk quietEnv x.1)
        (wideStore, wideStore.view VmRegion.offsetAt) [fileMap 0x2000#64 0x2000#64 0x1000#64]
          (t, m) ∧
      t.view VmRegion.offsetAt 0x3000#64 = some 0x2000#64 := by
  obtain ⟨t, ht⟩ : ∃ t, (fileMap 0x2000#64 0x2000#64 0x1000#64).run quietEnv wideStore = some t :=
    Option.isSome_iff_exists.mp (by decide +kernel)
  have hsteps : Run.Steps (offsetStep quietEnv)
      (fun x c => 3 ≤ bumpFresh.avail x.1.heap ∧ c.FileOk quietEnv x.1)
      (wideStore, wideStore.view VmRegion.offsetAt) [fileMap 0x2000#64 0x2000#64 0x1000#64]
      (t, (fileMap 0x2000#64 0x2000#64 0x1000#64).offsets quietEnv wideStore
        (wideStore.view VmRegion.offsetAt)) :=
    .cons ⟨by decide +kernel, fileMap_ok ⟨by decide, by decide, by decide, by decide⟩ rfl⟩
      (by rw [offsetStep, ht]; rfl) (.nil _)
  refine ⟨t, _, hsteps, ?_⟩
  rw [offsets_of_runs (E := quietEnv) bumpFresh wideStore orderly_wideStore _ t _ hsteps]
  decide +kernel

/-- A file mapping of 4096 pages, and the second page of the same file mapped behind it:
the two are merged, and the last page denotes offset 16 MiB of the file. -/
theorem merge_moves_offset :
    ∃ t₁ t₂, (fileMap 0x1000000#64 0x1000000#64 0#64).run quietEnv wideStore = some t₁ ∧
      (fileMap 0x2000000#64 0x1000#64 0x1000#64).run quietEnv t₁ = some t₂ ∧
      (fileMap 0x2000000#64 0x1000#64 0x1000#64).offsets quietEnv t₁
        (t₁.view VmRegion.offsetAt) 0x2000000#64 = some 0x1000#64 ∧
      t₂.view VmRegion.offsetAt 0x2000000#64 = some 0x1000000#64 := by
  have hrun : (((fileMap 0x1000000#64 0x1000000#64 0#64).run quietEnv wideStore).bind fun t₁ =>
      ((fileMap 0x2000000#64 0x1000#64 0x1000#64).run quietEnv t₁).map fun t₂ =>
        ((fileMap 0x2000000#64 0x1000#64 0x1000#64).offsets quietEnv t₁
          (t₁.view VmRegion.offsetAt) 0x2000000#64, t₂.view VmRegion.offsetAt 0x2000000#64)) =
      some (some 0x1000#64, some 0x1000000#64) := by decide +kernel
  obtain ⟨t₁, h₁, hrun⟩ := Option.bind_eq_some_iff.mp hrun
  obtain ⟨t₂, h₂, hpair⟩ := Option.map_eq_some_iff.mp hrun
  obtain ⟨h₃, h₄⟩ := Prod.mk.inj hpair
  exact ⟨t₁, t₂, h₁, h₂, h₃, h₄⟩

end BufferVM
