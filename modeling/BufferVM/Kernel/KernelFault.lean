/-
  Kernel/KernelFault.lean --- a page fault of the kernel itself.

  The handler gets the code segment where it looks for the error, and every register is given
  back but `rcx`.
-/
import BufferVM.Kernel.FaultEntry

set_option autoImplicit false

namespace BufferVM

open X86 ByteMem

/-! ## A fault of the kernel -/

/-- `handle_kernel_page_fault` is called: with the address, the code segment for the error, and
where the kernel is. -/
structure AtKernelFault (L : Layout) (k mc : Machine) : Prop where
  rdi : mc.reg .rdi = k.cr2
  rsi : mc.reg .rsi = trunc .l k.cs
  rdx : mc.reg .rdx = k.rip
  gs : mc.msr = k.msr
  mem : StackOnly L k mc

/-- The kernel is back at the instruction that has faulted.  `rcx` is what the handler has left
in it. -/
structure KernelRetried (k m k' : Machine) : Prop where
  rip : k'.rip = k.rip
  cs : k'.cs = k.cs
  ss : k'.ss = k.ss
  rflags : k'.rflags = setBit k.rflags resumeFlag true
  reg : ∀ r, r ≠ .rcx → k'.reg r = k.reg r
  rcx : k'.reg .rcx = m.reg .rcx
  msr : k'.msr = m.msr
  mem : k'.mem = m.mem

/-- How a fault of the kernel ends. -/
def KernelFaultEnds (L : Layout) (fns : Functions Fn) (k : Machine) (x : Option Machine) : Prop :=
  ∃ mc, AtKernelFault L k mc ∧
    match fns.named .handleKernelPageFault mc with
    | some m => ∃ k', x = some k' ∧ KernelRetried k m k'
    | none => x = none

/-- The machine at the call of `handle_kernel_page_fault`. -/
def atKernelFault (k m : Machine) : Machine :=
  (((m.pushAll scratchRegs).setReg .rdi k.cr2).setReg .rsi (trunc .l k.cs)).setReg .rdx k.rip

section KernelFault

variable {L : Layout} {k m m' : Machine} {e : Word} {d : Nat}

theorem Delivered.pushed (hm : Delivered L k e d m) (hroom : d + 256 ≤ L.stackSize) :
    StackOnly L m (atKernelFault k (faultTested false m)) := by
  obtain ⟨t, ht, hdeep⟩ := hm.deep
  have hpushed : StackOnly L m ((faultTested false m).pushAll scratchRegs) :=
    StackOnly.pushAll (s := faultTested false m) (StackOnly.refl L m) hdeep
      (by rw [show scratchRegs.length = 8 from rfl]; omega)
  exact hpushed

theorem Delivered.atKernelFault (hm : Delivered L k e d m) (hroom : d + 256 ≤ L.stackSize) :
    AtKernelFault L k (BufferVM.atKernelFault k (faultTested false m)) where
  rdi := rfl
  rsi := rfl
  rdx := rfl
  gs := ((faultTested false m).sameBut_pushAll scratchRegs).msr.trans hm.msr
  mem := hm.only.trans (hm.pushed hroom)

/-- The registers are given back, and the frame is left. -/
theorem Delivered.restored (hL : L.Sound) (hm : Delivered L k e d m)
    (hroom : d + 256 ≤ L.stackSize)
    (hret : Returns L (BufferVM.atKernelFault k (faultTested false m)) m') :
    Restored (faultTested false m) m' (m'.popAll scratchRegs.reverse)
      [e, k.rip, k.cs, setBit k.rflags resumeFlag true, k.reg .rsp, k.ss] := by
  obtain ⟨t, ht, hdeep⟩ := hm.deep
  have hreg : ∀ r ∈ calleeSaved, (BufferVM.atKernelFault k (faultTested false m)).reg r =
      ((faultTested false m).pushAll scratchRegs).reg r := by
    intro r hr
    rw [BufferVM.atKernelFault, reg_setReg_saved (by decide) hr, reg_setReg_saved (by decide) hr,
      reg_setReg_saved (by decide) hr]
  have hmem : (BufferVM.atKernelFault k (faultTested false m)).mem =
      ((faultTested false m).pushAll scratchRegs).mem := rfl
  exact BufferVM.restored hL (m := faultTested false m) hdeep (hm.stack.congr rfl rfl)
    (by simp only [List.length_cons, List.length_nil]; omega) (by omega) hreg hmem hret

theorem Delivered.kernelRetried (hm : Delivered L k e d m) {mr x : Machine} {vs : List Word}
    (hr : Restored (faultTested false m) m' mr vs)
    (hx : x = { (mr.setReg .rsp (k.reg .rsp)) with
      rip := k.rip, cs := k.cs, rflags := setBit k.rflags resumeFlag true, ss := k.ss }) :
    KernelRetried k m' x := by
  have hreg : ∀ r, r ≠ .rsp → x.reg r = mr.reg r := by
    intro r hrsp
    rw [hx]
    exact if_neg hrsp
  exact
    { rip := by rw [hx]
      cs := by rw [hx]
      ss := by rw [hx]
      rflags := by rw [hx]
      reg := by
        intro r hrcx
        by_cases hrsp : r = .rsp
        · rw [hx, hrsp]
          rfl
        · rw [hreg r hrsp, hr.reg r hrcx]
          exact hm.reg r hrsp
      rcx := by rw [hreg .rcx (by decide), hr.rcx]
      msr := by
        rw [hx]
        exact hr.same.msr
      mem := by
        rw [hx]
        exact hr.mem }

end KernelFault

theorem kernelPageFault_ends {L : Layout} {fns : Functions Fn} {k : Machine} {e : Word} {d : Nat}
    (hL : L.Sound)
    (habi : ∀ m m', fns.named .handleKernelPageFault m = some m' → Returns L m m')
    (hk : k.inUser = false) (hdeep : Deep L k d)
    (hroom : d + 256 ≤ L.stackSize) (hkernel : e.getLsbD 2 = false) :
    Leaves fns (idtPageFaultHandler L) (idtPageFaultHandler L) (pageFault L k e)
      (KernelFaultEnds L fns k) := by
  have hd : (if k.inUser then L.top else k.reg .rsp) = L.top - BitVec.ofNat 64 d := by
    rw [hk, if_neg Bool.false_ne_true, hdeep]
  have hm := delivered_pageFault e hd (by omega)
  generalize pageFault L k e = m at hm ⊢
  have hword : m.loadAt .q (m.reg .rsp + 0#64) = e := hm.stack.word (i := 0) (Nat.zero_lt_succ _)
  let cleared := m.setFlags (setBit m.rflags interruptFlag false)
  refine Leaves.go (s := cleared) rfl (Leaves.go (s := faultTested false m) ?_
    (Leaves.taken (holds_nc_bt cleared cleared.rflags false) ?_))
  · show Next.go (cleared.setFlags (setBit cleared.rflags carryFlag
      ((m.loadAt .q (m.reg .rsp + 0#64)).getLsbD 2))) = _
    rw [hword, hkernel]
    rfl
  rw [target_kernelPageFault]
  have hstack : (faultTested false m).Stack
      [e, k.rip, k.cs, setBit k.rflags resumeFlag true, k.reg .rsp, k.ss] := hm.stack.congr rfl rfl
  have hstackP := hstack.pushAll scratchRegs (by decide) (by
    simp only [List.length_cons, List.length_nil, show scratchRegs.length = 8 from rfl]; omega)
  have hcs := half_of_scratch hstackP (i := 2) (by simp)
  have hrip := word_of_scratch hstackP (i := 1) (by simp)
  have hcr2 : ((faultTested false m).pushAll scratchRegs).cr2 = k.cr2 :=
    ((faultTested false m).sameBut_pushAll scratchRegs).cr2.trans hm.cr2
  have hcall := hm.atKernelFault hroom
  have hrestored : ∀ m', Returns L (BufferVM.atKernelFault k (faultTested false m)) m' →
      Restored (faultTested false m) m' (m'.popAll scratchRegs.reverse)
        [e, k.rip, k.cs, setBit k.rflags resumeFlag true, k.reg .rsp, k.ss] :=
    fun _ => hm.restored hL hroom
  refine Leaves.label (Leaves.pushes ?_)
  rw [BufferVM.atKernelFault] at hcall hrestored
  generalize (faultTested false m).pushAll scratchRegs = mp at hcs hrip hcr2 hcall hrestored ⊢
  refine Leaves.go (s := mp.setReg .rdi k.cr2) ?_
    (Leaves.go (s := (mp.setReg .rdi k.cr2).setReg .rsi (trunc .l k.cs)) ?_
    (Leaves.go (s := ((mp.setReg .rdi k.cr2).setReg .rsi (trunc .l k.cs)).setReg .rdx k.rip) ?_
    (Leaves.call (fun m' hback => ?_) fun hgone => ⟨_, hcall, ?_⟩)))
  · exact congrArg (fun v => Next.go (mp.setReg .rdi v)) hcr2
  · show Next.go ((mp.setReg .rdi k.cr2).setReg .rsi
      (trunc .l (mp.loadAt .l (mp.reg .rsp + 80#64)))) = _
    have hcs' : mp.loadAt .l (mp.reg .rsp + 80#64) = trunc .l k.cs := hcs
    rw [hcs', trunc_trunc]
  · exact congrArg (fun v => Next.go (((mp.setReg .rdi k.cr2).setReg .rsi
      (trunc .l k.cs)).setReg .rdx v)) hrip
  · have hr := hrestored m' (habi _ _ hback)
    refine Leaves.pops ?_
    generalize m'.popAll scratchRegs.reverse = mr at hr ⊢
    refine Leaves.jump rfl ?_
    rw [target_pageFaultExit]
    refine pageFaultExit_runs hr.stack fun x hx => ⟨_, hcall, ?_⟩
    rw [hback]
    exact ⟨x, rfl, hm.kernelRetried hr hx⟩
  · rw [hgone]

/-- The kernel itself, 512 bytes down its stack. -/
def sampleKernel : Machine :=
  { sampleUser.setReg .rsp (0x100000#64 - 512#64) with cs := kernelCs, ss := 0x18#64 }

/-- The kernel writes to a part of the version store that is not there yet. -/
theorem kernelPageFault_ends_write :
    Leaves sampleFns (idtPageFaultHandler sampleLayout) (idtPageFaultHandler sampleLayout)
      (pageFault sampleLayout sampleKernel 2#64)
      (KernelFaultEnds sampleLayout sampleFns sampleKernel) :=
  kernelPageFault_ends (d := 512) sampleLayout_sound (sampleFns_abi.named _) (by decide) rfl
    (by decide) (by decide)

end BufferVM
