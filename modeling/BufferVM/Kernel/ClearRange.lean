/-
  Kernel/ClearRange.lean --- the loop at the head of `mmap_region` and of `do_brk`.

  The loop asks `vma_find_links` for a place and calls `syscall_munmap` as long as there is
  none.  The two read the same range: what `munmap` accepts does not wrap around, so that a VMA
  in the way is one that it removes, and everything else it rejects, changing nothing.  One
  call is therefore enough.
-/
import BufferVM.Kernel.SimCalls

set_option autoImplicit false

namespace BufferVM

variable {σ η : Type} {s t : St σ η} {E : Env σ η} {addr length : U64}

/-- How the loop comes back: with a place that is there, with an error of `munmap` that leaves
the store as it is, or with a place that one successful `munmap` has cleared. -/
inductive ClearedOnce (E : Env σ η) (addr length : U64) (s : St σ η) :
    Option FindLinks → St σ η → Prop
  | free {f : FindLinks} (hfind : vmaFindLinks addr (addr + length) s = some (some f)) :
      ClearedOnce E addr length s (some f) s
  | refused {error : Int} (hfind : vmaFindLinks addr (addr + length) s = some none)
      (hrun : syscallMunmap E addr length s = some (error, s)) (herror : error ≠ 0) :
      ClearedOnce E addr length s none s
  | cleared {f : FindLinks} {t : St σ η}
      (hfind : vmaFindLinks addr (addr + length) s = some none)
      (hrun : syscallMunmap E addr length s = some (0, t))
      (hplace : vmaFindLinks addr (addr + length) t = some (some f)) :
      ClearedOnce E addr length s (some f) t

/-- The loop takes two rounds then, however many it may take. -/
theorem ClearedOnce.clearRange {found : Option FindLinks} (h : ClearedOnce E addr length s found t)
    (fuel : Nat) : clearRange E addr length (fuel + 2) s = some (found, t) := by
  cases h with
  | free hfind => simp [BufferVM.clearRange, hfind]
  | refused hfind hrun herror => simp [BufferVM.clearRange, hfind, hrun, herror]
  | cleared hfind hrun hplace => simp [BufferVM.clearRange, hfind, hrun, hplace]

/-- The loop within the bound that its callers give it. -/
theorem ClearedOnce.clearRange_walkBound {found : Option FindLinks}
    (h : ClearedOnce E addr length s found t) :
    BufferVM.clearRange E addr length walkBound s = some (found, t) :=
  h.clearRange (walkBound - 2)

/-- A range of pages that `munmap` accepts does not wrap around. -/
theorem lt_end_of_accept {kernelMinAddress : U64}
    (h : munmapRejects kernelMinAddress addr length = false) : addr < addr + length := by
  simp only [munmapRejects, Bool.or_eq_false_iff, decide_eq_false_iff_not] at h
  obtain ⟨⟨⟨-, habove⟩, hlong⟩, hzero⟩ := h
  have hsub : (kernelMinAddress - addr).toNat = kernelMinAddress.toNat - addr.toNat :=
    BitVec.toNat_sub_of_le (BitVec.not_lt.mp habove)
  have hle : addr.toNat ≤ kernelMinAddress.toNat := BitVec.le_def.mp (BitVec.not_lt.mp habove)
  have hfit : length.toNat ≤ kernelMinAddress.toNat - addr.toNat :=
    hsub ▸ BitVec.le_def.mp (BitVec.not_lt.mp hlong)
  have hpos : 0 < length.toNat := by bv_omega
  have hlt := kernelMinAddress.isLt
  rw [BitVec.lt_def, BitVec.toNat_add, Nat.mod_eq_of_lt (by omega)]
  omega

variable {F : E.toNodeHeap.Fresh}

/-- Every range of pages is cleared by one call or not at all. -/
theorem Linked.clearedOnce (h : Linked F s) (hav : 2 ≤ F.avail s.heap) (addr : U64)
    (halign : length.toNat % 4096 = 0) : ∃ found t, ClearedOnce E addr length s found t := by
  obtain ⟨a, hh⟩ := h.holds
  obtain ⟨hin, hout⟩ := hh.vmaFindLinks h.sound.sorted addr (addr + length)
  cases hover : overlapping addr (addr + length) s.space.areas with
  | false =>
      obtain ⟨c, par, hfind, -⟩ := hout hover
      exact ⟨_, _, .free hfind⟩
  | true =>
      cases hrej : munmapRejects s.glob.kernelMinAddress addr length with
      | true => exact ⟨_, _, .refused (hin hover) (syscallMunmap_rejected hrej) (by decide)⟩
      | false =>
          have hend : addr + length = addr + pageAlign length := by
            rw [pageAlign_of_aligned halign]
          obtain ⟨t, b, c, par, hrun, hplace, -⟩ := munmap_vmaFindLinks F hh h.sound hav hend
            (lt_end_of_accept hrej) hrej
          exact ⟨_, _, .cleared (hin hover) hrun hplace⟩

/-- `mmap_region` returns `-ENOMEM` where the loop finds no place. -/
theorem ClearedOnce.mmapRegion_none (h : ClearedOnce E addr length s none t)
    (fileInfo : Option VmFile) (flags prot offset : U64) :
    mmapRegion E fileInfo addr length flags prot offset s = some (eNOMEM, 0#64, t) := by
  simp [mmapRegion, h.clearRange_walkBound]

/-- So does `do_brk`, once it is past its own tests. -/
theorem ClearedOnce.doBrk_none {request : U64} (h : ClearedOnce E addr (pageAlign request) s none t)
    (hoff : pageOffset addr = 0#64) (hle : request ≤ pageAlign request)
    (h0 : pageAlign request ≠ 0#64) (flags : U64) :
    doBrk E addr request flags s = some (eNOMEM, t) := by
  have hnot : ¬ pageAlign request < request := BitVec.not_lt.mpr hle
  simp [doBrk, hnot, h0, hoff, h.clearRange_walkBound]

/-- **The loops that clear a range and map it end** after at most one successful `munmap`, for
every address and every range of pages: either `munmap` has reported an error, and the caller
returns `-ENOMEM`, or there is a place. -/
theorem clearRange_ends (F : E.toNodeHeap.Fresh) (h : Linked F s) (hav : 2 ≤ F.avail s.heap)
    (addr length : U64) (halign : length.toNat % 4096 = 0) (h0 : length ≠ 0#64) :
    ∃ found t, ClearedOnce E addr length s found t ∧
      (∀ fuel, clearRange E addr length (fuel + 2) s = some (found, t)) ∧
      (found = none →
        (∀ fileInfo flags prot offset,
          mmapRegion E fileInfo addr length flags prot offset s = some (eNOMEM, 0#64, t)) ∧
        ∀ request flags, pageOffset addr = 0#64 → request ≤ pageAlign request →
          pageAlign request = length → doBrk E addr request flags s = some (eNOMEM, t)) := by
  obtain ⟨found, t, honce⟩ := h.clearedOnce hav addr halign
  refine ⟨found, t, honce, honce.clearRange, ?_⟩
  rintro rfl
  refine ⟨honce.mmapRegion_none, fun request flags hoff hle hlen => ?_⟩
  subst hlen
  exact honce.doBrk_none hoff hle h0 flags

/-- A page inside a VMA, and a range that begins in it and wraps around the end of the address
space: `vma_find_links` finds the VMA in its way, and `munmap` rejects it. -/
theorem clearRange_ends_oneVma :
    (∃ found t, ClearedOnce quietEnv 0x2000#64 0x1000#64 (oneVmaStore .black) found t ∧
      found ≠ none) ∧
    ∃ t, ClearedOnce quietEnv 0x3000#64 0xfffffffffffff000#64 (oneVmaStore .black) none t ∧
      mmapRegion quietEnv none 0x3000#64 0xfffffffffffff000#64 0#64 0#64 0#64
        (oneVmaStore .black) = some (eNOMEM, 0#64, t) := by
  have hlinked : Linked bumpFresh (oneVmaStore .black) :=
    valid_oneVmaStore.linked (E := quietEnv) bumpFresh (nodesOwned_oneVmaStore .black)
  obtain ⟨found, t, hin, hloop, -⟩ := clearRange_ends (E := quietEnv) bumpFresh hlinked
    (by decide +kernel) 0x2000#64 0x1000#64 (by decide) (by decide)
  obtain ⟨found', t', hwrap, hloop', hnone⟩ := clearRange_ends (E := quietEnv) bumpFresh hlinked
    (by decide +kernel) 0x3000#64 0xfffffffffffff000#64 (by decide) (by decide)
  have hfound : (clearRange quietEnv 0x2000#64 0x1000#64 2 (oneVmaStore .black)).map
      (fun x => x.1.isSome) = some true := by decide +kernel
  have hfound' : (clearRange quietEnv 0x3000#64 0xfffffffffffff000#64 2 (oneVmaStore .black)).map
      (fun x => x.1.isSome) = some false := by decide +kernel
  rw [hloop 0] at hfound
  rw [hloop' 0] at hfound'
  obtain rfl : found' = none := by simpa using hfound'
  refine ⟨⟨found, t, hin, ?_⟩, t', hwrap, (hnone rfl).1 none 0#64 0#64 0#64⟩
  rintro rfl
  simp at hfound

end BufferVM
