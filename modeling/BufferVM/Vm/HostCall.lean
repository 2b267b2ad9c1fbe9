/-
  Vm/HostCall.lean --- the pointers that the host takes from an app, `vm/host.c`.

  `handle_host_call` turns the pointer arguments of an app's call into pointers of the host
  with `vm_ptr`: the first VMA that ends above the address, and the distance from its start.
  An address in a hole is taken to be in front of the next VMA, and nobody looks at the length
  of the buffer.  The calls of the kernel go through `read_virtual_addr` instead, page by page.
  A pointer of the host is kept as its distance from `vm.mem`.
-/
import BufferVM.Kernel.Version
import BufferVM.Kernel.WellFormed
import BufferVM.Vm.GuestBytes

set_option autoImplicit false

namespace BufferVM

open PtrTree PtrTree.PTree PtrList

variable {σ η ω : Type}

/-! ## The calls -/

/-- `arg_entry_t`: the arguments that are pointers. -/
structure ArgEntry where
  a : Bool
  b : Bool
  c : Bool
  d : Bool
  e : Bool
  f : Bool

/-- The calls of an app, `common/host.h`. -/
inductive AppCall where
  | write
  | read
  | open'
  | openat
  | close
  | dup
  | fstat
  | stat
  | mmap
  | lseek
  | access
  | writev
  | uname

/-- `hostcall_arg_table`. -/
def AppCall.argEntry : AppCall → ArgEntry
  | .write => ⟨false, true, false, false, false, false⟩
  | .read => ⟨false, true, false, false, false, false⟩
  | .open' => ⟨true, false, false, false, false, false⟩
  | .openat => ⟨false, true, false, false, false, false⟩
  | .close => ⟨false, false, false, false, false, false⟩
  | .dup => ⟨false, false, false, false, false, false⟩
  | .fstat => ⟨false, true, false, false, false, false⟩
  | .stat => ⟨true, true, false, false, false, false⟩
  | .mmap => ⟨true, false, false, false, false, false⟩
  | .lseek => ⟨false, false, false, false, false, false⟩
  | .access => ⟨true, false, false, false, false, false⟩
  | .writev => ⟨false, false, false, false, false, false⟩
  | .uname => ⟨true, false, false, false, false, false⟩

/-- The registers that hold the arguments of a call. -/
structure CallRegs where
  rdi : U64
  rsi : U64
  rdx : U64
  rcx : U64
  r8 : U64
  r9 : U64
  deriving DecidableEq

/-- `vm_ptr`: `none` when the search does not come back, `some none` when the host exits. -/
def vmPtr (addr : U64) (s : St σ η) : Option (Option U64) :=
  (vmaFind addr s).map fun vma =>
    if vma = 0#64 then none
    else some ((s.region vma).physPageStart + (addr - (s.region vma).startAddr))

/-- `CALL_ARG`. -/
def callArg (key : Bool) (val : U64) (s : St σ η) : Option (Option U64) :=
  if key then vmPtr val s else some (some val)

/-- The arguments that `handle_host_call` passes on. -/
def AppCall.hostArgs (c : AppCall) (regs : CallRegs) (s : St σ η) : Option (Option CallRegs) := do
  let rdi ← callArg c.argEntry.a regs.rdi s
  let rsi ← callArg c.argEntry.b regs.rsi s
  let rdx ← callArg c.argEntry.c regs.rdx s
  let rcx ← callArg c.argEntry.d regs.rcx s
  let r8 ← callArg c.argEntry.e regs.r8 s
  let r9 ← callArg c.argEntry.f regs.r9 s
  some do
    let rdi ← rdi
    let rsi ← rsi
    let rdx ← rdx
    let rcx ← rcx
    let r8 ← r8
    let r9 ← r9
    some ⟨rdi, rsi, rdx, rcx, r8, r9⟩

/-- The calls of an app that move bytes: `read` and `write`. -/
inductive AppIo where
  | read
  | write

/-- The call. -/
def AppIo.call : AppIo → AppCall
  | .read => .read
  | .write => .write

/-! ## Displacements -/

/-- How far the memory of a VMA is from its addresses. -/
def VmRegion.displacement (r : VmRegion) : U64 := r.physPageStart - r.startAddr

theorem WellFormed.vmPtr {s : St σ η} (h : WellFormed s) (addr : U64) :
    BufferVM.vmPtr addr s = some ((s.firstAbove addr).map fun r => addr + r.displacement) := by
  obtain ⟨p, hp, habove⟩ := h.vmaFind addr
  rw [BufferVM.vmPtr, hp, habove, Option.map_some]
  split
  · rfl
  · rw [Option.map_some, VmRegion.displacement]
    congr 2
    bv_omega

theorem displaced (phys start page offset : U64) :
    phys + page + offset = start + page + offset + (phys - start) := by
  calc phys + page + offset = start + (phys - start) + (page + offset) := by
        rw [add_sub_cancel, add_assoc]
    _ = start + page + offset + (phys - start) := by rw [add_right_comm, ← add_assoc start]

/-- A byte of a VMA whose pages are in a row. -/
theorem VmRegion.Consistent.getPhysAddr {vm : Vm} {r : VmRegion} (h : r.Consistent vm)
    (hr : r.InTables) {v : U64} (hv : r.Covers v) :
    BufferVM.getPhysAddr v vm = some (v + r.displacement) := by
  obtain ⟨hlo, hhi⟩ := hv
  have hlo' := BitVec.le_def.mp hlo
  have hhi' := BitVec.lt_def.mp hhi
  have hle : r.first ≤ frameOf v := Nat.div_le_div_right hlo'
  have hstart := hr.startAddr_eq
  have hal := hr.limit
  rw [PageAligned] at hal
  have hpages := hr.toNat_pages
  have hlt : frameOf v < r.last := by
    rw [VmRegion.last, frameOf, frameOf]
    omega
  have hpage : pageAlignDown v = r.startAddr + BitVec.ofNat 64
      (frameOf v - r.first) * pageSize := by
    rw [ofNat_mul_pageSize, hstart, frameAddr_add, pageAlignDown_eq_frameAddr,
      show r.first + (frameOf v - r.first) = frameOf v by omega]
  have hsplit : v = pageAlignDown v + offsetInPage v := by
    rw [pageAlignDown_eq_frameAddr]
    exact eq_frameAddr_add_offset v
  rw [getPhysAddr_page, hpage, h.translates (frameOf v - r.first) (by omega), Option.map_some]
  rw [hpage] at hsplit
  congr 1
  generalize offsetInPage v = o at hsplit ⊢
  generalize BitVec.ofNat 64 (frameOf v - r.first) * pageSize = b at hsplit ⊢
  rw [hsplit, VmRegion.displacement]
  exact displaced _ _ _ _

/-! ## `read` and `write` -/

/-- The second argument is a pointer, the others are passed on. -/
theorem AppIo.hostArgs_eq (io : AppIo) (regs : CallRegs) (s : St σ η) :
    io.call.hostArgs regs s =
      (vmPtr regs.rsi s).map (Option.map fun ptr => { regs with rsi := ptr }) := by
  cases io with
  | read =>
      simp only [AppCall.hostArgs, AppIo.call, AppCall.argEntry, callArg]
      cases vmPtr regs.rsi s with
      | none => rfl
      | some ptr => cases ptr <;> rfl
  | write =>
      simp only [AppCall.hostArgs, AppIo.call, AppCall.argEntry, callArg]
      cases vmPtr regs.rsi s with
      | none => rfl
      | some ptr => cases ptr <;> rfl

/-- The bytes of a buffer are in VMAs with the displacement of the first one that ends above
its start; a byte in no VMA is on a page that is mapped at that displacement. -/
def St.BufferInRow (s : St σ (Host ω)) (addr count : U64) : Prop :=
  ∀ r, s.firstAbove addr = some r → ∀ i, i < count.toNat →
    (∃ x ∈ s.regions, x.Covers (addr + BitVec.ofNat 64 i) ∧ x.displacement = r.displacement) ∨
      (¬ s.Covered (addr + BitVec.ofNat 64 i) ∧
        getPhysAddr (addr + BitVec.ofNat 64 i) s.host.vm =
          some (addr + BitVec.ofNat 64 i + r.displacement))

/-- What the host is handed: every byte of the buffer is where the guest has it. -/
def St.HandsOver (s : St σ (Host ω)) (io : AppIo) (regs : CallRegs) : Prop :=
  ∀ args, io.call.hostArgs regs s = some (some args) → ∀ i, i < args.rdx.toNat →
    getPhysAddr (regs.rsi + BitVec.ofNat 64 i) s.host.vm = some (args.rsi + BitVec.ofNat 64 i)

/-- A byte is at a displacement exactly when its VMA is. -/
theorem getPhysAddr_displaced_iff {s : St σ (Host ω)}
    (hvmas : ∀ r ∈ s.regions, r.InTables ∧ r.Consistent s.host.vm) (v d : U64) :
    getPhysAddr v s.host.vm = some (v + d) ↔
      (∃ x ∈ s.regions, x.Covers v ∧ x.displacement = d) ∨
        (¬ s.Covered v ∧ getPhysAddr v s.host.vm = some (v + d)) := by
  constructor
  · intro hv
    by_cases hcov : s.Covered v
    · obtain ⟨x, hx, hxv⟩ := hcov
      obtain ⟨htables, hcons⟩ := hvmas x hx
      have hphys := hcons.getPhysAddr htables hxv
      rw [hv] at hphys
      exact Or.inl ⟨x, hx, hxv, (add_left_cancel (Option.some.inj hphys)).symm⟩
    · exact Or.inr ⟨hcov, hv⟩
  · rintro (⟨x, hx, hxv, rfl⟩ | ⟨-, hv⟩)
    · obtain ⟨htables, hcons⟩ := hvmas x hx
      exact hcons.getPhysAddr htables hxv
    · exact hv

/-- **The host is handed the bytes of the app's buffer** exactly when the buffer is in VMAs
that are in a row in physical memory, from the first one that ends above its start on. -/
theorem handsOver_iff (s : St σ (Host ω)) (hwf : WellFormed s)
    (hvmas : ∀ r ∈ s.regions, r.InTables ∧ r.Consistent s.host.vm) (io : AppIo) (regs : CallRegs) :
    s.HandsOver io regs ↔ s.BufferInRow regs.rsi regs.rdx := by
  have hargs := io.hostArgs_eq regs s
  rw [hwf.vmPtr, Option.map_some, Option.map_map] at hargs
  have hbyte : ∀ r : VmRegion, ∀ i : Nat, regs.rsi + r.displacement + BitVec.ofNat 64 i =
      regs.rsi + BitVec.ofNat 64 i + r.displacement := fun r i => add_right_comm _ _ _
  constructor
  · intro h r hr i hi
    rw [hr, Option.map_some] at hargs
    have hphys : getPhysAddr (regs.rsi + BitVec.ofNat 64 i) s.host.vm =
        some (regs.rsi + r.displacement + BitVec.ofNat 64 i) := h _ hargs i hi
    rw [hbyte] at hphys
    exact (getPhysAddr_displaced_iff hvmas _ _).mp hphys
  · intro h args ha i hi
    rw [hargs] at ha
    obtain ⟨r, hr, rfl⟩ := Option.map_eq_some_iff.mp (Option.some.inj ha)
    show _ = some (regs.rsi + r.displacement + BitVec.ofNat 64 i)
    rw [hbyte]
    exact (getPhysAddr_displaced_iff hvmas _ _).mpr (h r hr i hi)

/-! ## A VMA of two pages -/

/-- A store with one VMA of two pages at `0x4000`, which the host has mapped. -/
def bufferStore : St Unit (Host Unit) :=
  let mapped := mapPhysicalPages 0x4000#64 (-1#64) pde64User 2#64 mapContinuous
    (buildPageTables blankVm)
  let node : VmArea :=
    { VmArea.zero with
      startAddr := 0x4000#64
      endAddr := 0x6000#64
      oldStartAddr := 0x4000#64
      oldEndAddr := 0x6000#64
      physPageStart := mapped.1
      physPageEnd := mapped.1 + 0x2000#64
      pageProt := vmaRead ||| vmaWrite
      fileInfo := nullFileInfo
      rbColor := .black
      rbSubtreeGap := 0x4000#64 }
  { St.empty () ⟨mapped.2, (), false⟩ smallGlobals with
    vma := fun p => if p = 1#64 then node else VmArea.zero
    vmaRbRoot := 1#64
    vmaListStart := 1#64
    vmaHighestAddr := 0x6000#64 }

theorem nodes_bufferStore : bufferStore.nodes = [1#64] := by decide +kernel

theorem wellFormed_bufferStore : WellFormed bufferStore := by
  have hnodes := nodes_bufferStore
  refine ⟨?_, ?_, ⟨node leaf 1#64 leaf, ?_, hnodes.symm, ?_⟩, ?_⟩
  · rw [hnodes]
    decide +kernel
  · rw [St.regions, hnodes]
    exact sorted_cons.mpr ⟨by decide, by simp, sorted_nil⟩
  · decide +kernel
  · decide +kernel
  · rw [hnodes]
    decide +kernel

theorem consistent_bufferStore :
    ∀ r ∈ bufferStore.regions, r.InTables ∧ r.Consistent bufferStore.host.vm := by
  intro r hr
  rw [St.regions, nodes_bufferStore] at hr
  obtain rfl := List.mem_singleton.mp hr
  refine ⟨⟨by decide, by decide, by decide, by decide⟩, ⟨rfl, rfl, ?_⟩⟩
  decide +kernel

/-- A call on a buffer. -/
def bufferRegs (addr count : U64) : CallRegs := ⟨1#64, addr, count, 0#64, 0#64, 0#64⟩

/-- A buffer over both pages. -/
theorem handsOver_iff_bufferStore : bufferStore.HandsOver .write (bufferRegs 0x4ff8#64 16#64) := by
  refine (handsOver_iff bufferStore wellFormed_bufferStore consistent_bufferStore .write
    (bufferRegs 0x4ff8#64 16#64)).mpr fun r hr i hi => Or.inl ?_
  have hfirst : bufferStore.firstAbove 0x4ff8#64 = some (bufferStore.region 1#64) := by
    decide +kernel
  have hin : ∀ i, i < (16#64 : U64).toNat →
      (bufferStore.region 1#64).Covers (0x4ff8#64 + BitVec.ofNat 64 i) := by decide +kernel
  obtain rfl := Option.some.inj (hr.symm.trans hfirst)
  refine ⟨_, ?_, hin i hi, rfl⟩
  rw [St.regions, nodes_bufferStore]
  exact List.mem_singleton.mpr rfl

/-- A buffer in the hole in front of the VMA is not mapped, and the host is handed the page
table in front of the VMA's memory; a buffer that runs over the end of the VMA is handed over
with the table behind it. -/
theorem host_handed_pageTables :
    WellFormed bufferStore ∧
      (∀ r ∈ bufferStore.regions, r.InTables ∧ r.Consistent bufferStore.host.vm) ∧
      ¬ bufferStore.HandsOver .write (bufferRegs 0x3ff8#64 8#64) ∧
      ¬ bufferStore.HandsOver .read (bufferRegs 0x5ff8#64 16#64) := by
  refine ⟨wellFormed_bufferStore, consistent_bufferStore, fun h => ?_, fun h => ?_⟩
  · have hbyte := h (bufferRegs 0xbff8#64 8#64) (by decide +kernel) 0 (by decide)
    have hnone : getPhysAddr 0x3ff8#64 bufferStore.host.vm = none := by decide +kernel
    rw [show (bufferRegs 0x3ff8#64 8#64).rsi + BitVec.ofNat 64 0 =
      0x3ff8#64 by decide, hnone] at hbyte
    exact absurd hbyte (by simp)
  · have hbyte := h (bufferRegs 0xdff8#64 16#64) (by decide +kernel) 8 (by decide)
    have hnone : getPhysAddr 0x6000#64 bufferStore.host.vm = none := by decide +kernel
    rw [show (bufferRegs 0x5ff8#64 16#64).rsi + BitVec.ofNat 64 8 =
      0x6000#64 by decide, hnone] at hbyte
    exact absurd hbyte (by simp)

/-! ## Pointers with a version -/

/-- A pointer with a version means the same byte to both translators. -/
structure St.Transparent (s : St σ (Host ω)) (version addr : U64) : Prop where
  physical : ∃ p, getPhysAddr addr s.host.vm = some p ∧
    getPhysAddr (setVersionPtr version addr) s.host.vm = some p
  host : ∃ p, vmPtr addr s = some (some p) ∧ vmPtr (setVersionPtr version addr) s = some (some p)

/-- No VMA ends above a pointer with a version. -/
theorem firstAbove_setVersionPtr {s : St σ η} (htables : ∀ r ∈ s.regions, r.InTables) {addr : U64}
    (hlt : addr.toNat < 2 ^ 39) {version : U64} (hne : version.toNat % 256 ≠ 0) :
    s.firstAbove (setVersionPtr version addr) = none := by
  have hptr := VersionCheck.toNat_setVersionPtr (show addr.toNat < 2 ^ 48 by omega) version
  rw [firstAbove_eq_none_iff]
  intro r hr
  have hr' := htables r hr
  have hle := hr'.le
  rw [hr'.endAddr_eq, BitVec.le_def, toNat_frameAddr (by omega), hptr]
  omega

/-- **Versions are transparent** to both translators exactly when there is none: `vm_ptr` looks
for a VMA around the whole pointer. -/
theorem transparent_iff (s : St σ (Host ω)) (hwf : WellFormed s)
    (hvmas : ∀ r ∈ s.regions, r.InTables ∧ r.Consistent s.host.vm) (version addr : U64)
    (hlt : addr.toNat < 2 ^ 39) (hcov : s.Covered addr) :
    s.Transparent version addr ↔ version.toNat % 256 = 0 := by
  have hptr := VersionCheck.toNat_setVersionPtr (show addr.toNat < 2 ^ 48 by omega) version
  obtain ⟨r, hr, hra⟩ := hcov
  obtain ⟨htables, hcons⟩ := hvmas r hr
  constructor
  · intro ht
    by_contra hne
    obtain ⟨p, -, hp⟩ := ht.host
    rw [hwf.vmPtr, firstAbove_setVersionPtr (fun r hr => (hvmas r hr).1) hlt hne] at hp
    exact absurd hp (by simp)
  · intro hzero
    have hsame : setVersionPtr version addr = addr := by
      apply BitVec.eq_of_toNat_eq
      omega
    have hphys := hcons.getPhysAddr htables hra
    have hsome : s.firstAbove addr ≠ none := by
      rw [ne_eq, firstAbove_eq_none_iff]
      intro hall
      exact absurd hra.2 (BitVec.not_lt.mpr (hall r hr))
    obtain ⟨x, hx⟩ := Option.ne_none_iff_exists'.mp hsome
    have hhost := hwf.vmPtr addr
    rw [hx, Option.map_some] at hhost
    exact ⟨⟨_, hphys, by rw [hsame]; exact hphys⟩, _, hhost, by rw [hsame]; exact hhost⟩

theorem covered_bufferStore : bufferStore.Covered 0x4010#64 := by
  refine ⟨bufferStore.region 1#64, ?_, by decide⟩
  rw [St.regions, nodes_bufferStore]
  exact List.mem_singleton.mpr rfl

/-- Of the versions three times 256 is none, and that and four more is one. -/
theorem transparent_iff_multiple : bufferStore.Transparent 0x300#64 0x4010#64 ∧
    ¬ bufferStore.Transparent 0x304#64 0x4010#64 := by
  have htransparent := fun version => transparent_iff bufferStore wellFormed_bufferStore
    consistent_bufferStore version 0x4010#64 (by decide) covered_bufferStore
  exact ⟨(htransparent 0x300#64).mpr (by decide), fun h => absurd ((htransparent 0x304#64).mp h)
    (by decide)⟩

/-- A pointer with the version 4 into the VMA makes the host exit. -/
theorem host_exits_on_version :
    WellFormed bufferStore ∧
      (∀ r ∈ bufferStore.regions, r.InTables ∧ r.Consistent bufferStore.host.vm) ∧
      bufferStore.Covered 0x4010#64 ∧ vmPtr (setVersionPtr 4#64 0x4010#64) bufferStore = some none ∧
      ¬ bufferStore.Transparent 4#64 0x4010#64 := by
  have hexit : vmPtr (setVersionPtr 4#64 0x4010#64) bufferStore = some none := by decide +kernel
  refine ⟨wellFormed_bufferStore, consistent_bufferStore, covered_bufferStore, hexit, fun h => ?_⟩
  obtain ⟨p, -, hp⟩ := h.host
  rw [hexit] at hp
  exact absurd hp (by simp)

end BufferVM
