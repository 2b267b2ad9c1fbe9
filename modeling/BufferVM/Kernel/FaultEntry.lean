/-
  Kernel/FaultEntry.lean --- what a page fault does to the program that it interrupts.

  The scratch registers are saved around the call of a handler, and `rcx`, which the entry code
  needs itself, is put aside in `cpu_info`.  A fault on a missing page that is handled gives
  every register back.
-/
import BufferVM.Kernel.SyscallEntry

set_option autoImplicit false

namespace BufferVM

open X86 ByteMem

/-! ## Saved around a call -/

/-- The scratch registers have been saved, a function of C has been called, and they are
restored: `mc` is the machine at the call and `m'` what comes back. -/
structure Restored (m m' mr : Machine) (vs : List Word) : Prop where
  reg : ∀ r, r ≠ .rcx → mr.reg r = m.reg r
  rcx : mr.reg .rcx = m'.reg .rcx
  stack : mr.Stack vs
  mem : mr.mem = m'.mem
  same : m'.SameBut mr

theorem restored {L : Layout} (hL : L.Sound) {m mc m' : Machine} {vs : List Word} {d : Nat}
    (hdeep : Deep L m d) (hstack : m.Stack vs) (hlen : 8 * vs.length ≤ d)
    (hd : d + 64 ≤ L.stackSize)
    (hreg : ∀ r ∈ calleeSaved, mc.reg r = (m.pushAll scratchRegs).reg r)
    (hmem : mc.mem = (m.pushAll scratchRegs).mem) (hret : Returns L mc m') :
    Restored m m' (m'.popAll scratchRegs.reverse) vs := by
  have hsize := hL.size
  have hpushed := hstack.pushAll scratchRegs (by decide)
    (by rw [show scratchRegs.length = 8 from rfl]; omega)
  have hdeep' : Deep L mc (d + 64) := (hreg .rsp (by decide)).trans (hdeep.pushAll scratchRegs)
  have hcall : mc.Stack ((scratchRegs.map m.reg).reverse ++ vs) :=
    hpushed.congr (hreg .rsp (by decide)) hmem
  have hback := hcall.returns hdeep' (by
    rw [List.length_append, List.length_reverse, List.length_map,
      show scratchRegs.length = 8 from rfl]
    omega) (by omega) hret
  obtain ⟨hrest, hregs⟩ := hback.popAll scratchRegs.reverse (by simp) (by decide)
    (by decide)
  have hscratch : ∀ r ∈ scratchRegs, (m'.popAll scratchRegs.reverse).reg r = m.reg r := by
    rw [← List.map_reverse] at hregs
    intro r hr
    exact List.map_inj_left.mp hregs r (List.mem_reverse.mpr hr)
  exact
    { reg := by
        intro r hr
        by_cases hin : r ∈ scratchRegs
        · exact hscratch r hin
        have hsaved : r ∈ calleeSaved := by
          revert hr hin
          cases r <;> simp [scratchRegs, calleeSaved]
        by_cases hrsp : r = .rsp
        · subst hrsp
          have hfull : (m.pushAll scratchRegs).reg .rsp = m.reg .rsp - 64#64 :=
            Machine.rsp_pushAll m scratchRegs
          rw [Machine.rsp_popAll _ _ (by decide), hret.saved .rsp (by decide),
            hreg .rsp (by decide), hfull]
          exact BitVec.sub_add_cancel _ _
        · rw [Machine.reg_popAll_of_notMem _ _ (by rwa [List.mem_reverse]) hrsp,
            hret.saved r hsaved, hreg r hsaved, Machine.reg_pushAll _ _ hrsp]
      rcx := Machine.reg_popAll_of_notMem _ _ (by decide) (by decide)
      stack := hrest
      mem := Machine.mem_popAll _ _
      same := Machine.sameBut_popAll _ _ }

/-- A register of an argument is none of those that C saves. -/
theorem reg_setReg_saved {m : Machine} {q r : Reg} {v : Word} (hq : q ∉ calleeSaved)
    (hr : r ∈ calleeSaved) : (m.setReg q v).reg r = m.reg r := by
  rw [Machine.reg_setReg, if_neg]
  rintro rfl
  exact hq hr

/-! ## Where the frame is -/

/-- The frame of an exception begins at most 15 bytes below the place it is meant for. -/
theorem deep_raise {L : Layout} {m : Machine} {d : Nat} (flags : Word) (error : Option Word)
    (hd : (if m.inUser then L.top else m.reg .rsp) = L.top - BitVec.ofNat 64 d) :
    ∃ t < 16, Deep L (m.raise kernelCs L.top flags error)
      (d + t + 8 * (m.exceptionFrame flags error).length) := by
  refine ⟨((L.top - BitVec.ofNat 64 d) % 16#64).toNat, ?_, ?_⟩
  · rw [BitVec.toNat_umod]
    exact Nat.mod_lt _ (by decide)
  · rw [Deep, Machine.rsp_raise, Machine.exceptionTop, hd, BitVec.ofNat_add, BitVec.ofNat_add,
      BitVec.ofNat_toNat, BitVec.setWidth_eq, BitVec.sub_sub, BitVec.sub_sub, BitVec.add_assoc]

/-- The delivery of an exception writes its frame. -/
theorem stackOnly_raise {L : Layout} {m : Machine} {d : Nat} {flags : Word}
    {error : Option Word}
    (hd : (if m.inUser then L.top else m.reg .rsp) = L.top - BitVec.ofNat 64 d)
    (hroom : d + 64 ≤ L.stackSize) : StackOnly L m (m.raise kernelCs L.top flags error) := by
  let start := m.setReg .rsp (m.exceptionTop L.top)
  let t := ((L.top - BitVec.ofNat 64 d) % 16#64).toNat
  have ht : t < 16 := by
    rw [show t = _ from BitVec.toNat_umod]
    exact Nat.mod_lt _ (by decide)
  have hdeep : Deep L start (d + t) := by
    show m.exceptionTop L.top = _
    rw [Machine.exceptionTop, hd, BitVec.ofNat_add, BitVec.ofNat_toNat, BitVec.setWidth_eq,
      BitVec.sub_sub]
  have h1 := StackOnly.push (m := m) (s := start) (fun _ _ => rfl) hdeep (by omega) m.ss
  have h2 := h1.push (hdeep.push _) (by omega) (m.reg .rsp)
  have h3 := h2.push ((hdeep.push _).push _) (by omega) flags
  have h4 := h3.push (((hdeep.push _).push _).push _) (by omega) m.cs
  have h5 := h4.push ((((hdeep.push _).push _).push _).push _) (by omega) m.rip
  cases error with
  | none => exact h5
  | some e => exact h5.push (((((hdeep.push _).push _).push _).push _).push _) (by omega) e

/-! ## A fault of the program -/

/-- The delivery of a page fault.  The flags are saved so that the instruction runs again. -/
def pageFault (L : Layout) (m : Machine) (e : Word) : Machine :=
  m.raise kernelCs L.top (setBit m.rflags resumeFlag true) (some e)

/-- The fault has come in, `rcx` is put aside and the frame is on the stack. -/
structure Faulted (L : Layout) (u : Machine) (e : Word) (m : Machine) : Prop where
  reg : ∀ r, r ≠ .rsp → r ≠ .rcx → m.reg r = u.reg r
  deep : ∃ t < 16, Deep L m (t + 48)
  stack : m.Stack [e, u.rip, u.cs, setBit u.rflags resumeFlag true, u.reg .rsp, u.ss]
  cs : m.cs = kernelCs
  cr2 : m.cr2 = u.cr2
  flags : m.flag interruptFlag = false
  gs : m.msr msrGsBase = L.cpuInfo
  kernelGs : m.msr msrKernelGsBase = u.msr msrGsBase
  msr : ∀ i, i ≠ msrGsBase → i ≠ msrKernelGsBase → m.msr i = u.msr i
  rcx : m.loadAt .q (offset L.cpuInfo 0) = u.reg .rcx
  dcntr : m.loadAt .l (offset L.cpuInfo 24) = 0#64
  mem : KeepsMem L u m

theorem inUser_of_atUser {L : Layout} {u : Machine} (hu : AtUser L u) : u.inUser = true := by
  rw [Machine.inUser, hu.cs]
  decide

theorem target_pageFaultUserCheck (L : Layout) :
    target (idtPageFaultHandler L) .pageFaultUserCheck
      = pageFaultUserCheck (pageFaultVersionCheck (versionError L)) := rfl

theorem target_pageFaultUserExit (L : Layout) :
    target (idtPageFaultHandler L) .pageFaultUserExit
      = pageFaultUserExit (pageFaultExit (kernelPageFault (unhandledPageFault L
          (pageFaultUserCheck (pageFaultVersionCheck (versionError L)))))) := rfl

theorem target_pageFaultExit (L : Layout) :
    target (idtPageFaultHandler L) .pageFaultExit
      = pageFaultExit (kernelPageFault (unhandledPageFault L
          (pageFaultUserCheck (pageFaultVersionCheck (versionError L))))) := rfl

theorem target_kernelPageFault (L : Layout) :
    target (idtPageFaultHandler L) .kernelPageFault
      = kernelPageFault (unhandledPageFault L
          (pageFaultUserCheck (pageFaultVersionCheck (versionError L)))) := rfl

theorem target_unhandledPageFault (L : Layout) :
    target (idtPageFaultHandler L) .unhandledPageFault
      = unhandledPageFault L (pageFaultUserCheck (pageFaultVersionCheck (versionError L))) := rfl

theorem target_pageFaultVersionCheck (L : Layout) :
    target (idtPageFaultHandler L) .pageFaultVersionCheck
      = pageFaultVersionCheck (versionError L) := rfl

theorem target_versionError (L : Layout) :
    target (idtPageFaultHandler L) .versionError = versionError L := rfl

/-- The processor has delivered the fault, to a stack that is `d` bytes deep. -/
structure Delivered (L : Layout) (u : Machine) (e : Word) (d : Nat) (m : Machine) : Prop where
  reg : ∀ r, r ≠ .rsp → m.reg r = u.reg r
  deep : ∃ t < 16, Deep L m (d + t + 48)
  stack : m.Stack [e, u.rip, u.cs, setBit u.rflags resumeFlag true, u.reg .rsp, u.ss]
  cs : m.cs = kernelCs
  cr2 : m.cr2 = u.cr2
  msr : m.msr = u.msr
  only : StackOnly L u m

theorem delivered_pageFault {L : Layout} {u : Machine} {d : Nat} (e : Word)
    (hd : (if u.inUser then L.top else u.reg .rsp) = L.top - BitVec.ofNat 64 d)
    (hroom : d + 64 ≤ L.stackSize) : Delivered L u e d (pageFault L u e) := by
  obtain ⟨t, ht, hdeep⟩ := deep_raise (setBit u.rflags resumeFlag true) (some e) hd
  exact
    { reg := fun r hr => Machine.reg_raise _ _ _ _ _ hr
      deep := ⟨t, ht, hdeep⟩
      stack := Machine.stack_raise u kernelCs L.top _ (some e)
      cs := Machine.cs_raise u kernelCs L.top _ (some e)
      cr2 := Machine.cr2_raise u kernelCs L.top _ (some e)
      msr := Machine.msr_raise _ _ _ _ _
      only := stackOnly_raise hd hroom }

/-- Interrupts are off and the privilege of the fault has been tested. -/
def faultTested (user : Bool) (m : Machine) : Machine :=
  let cleared := m.setFlags (setBit m.rflags interruptFlag false)
  cleared.setFlags (setBit cleared.rflags carryFlag user)

/-- `%gs` has been swapped and `rcx` put aside. -/
def rcxKept (L : Layout) (u m : Machine) : Machine :=
  let swapped := ((faultTested true m).setMsr msrGsBase L.cpuInfo).setMsr msrKernelGsBase
    (u.msr msrGsBase)
  let marked := swapped.storeAt .b (offset L.cpuInfo 32)
    (if swapped.flag signFlag then 1#64 else 0#64)
  marked.storeAt .q (offset L.cpuInfo 0) (u.reg .rcx)

section Fault

variable {L : Layout} {u m : Machine} {e : Word}

theorem Delivered.stack_rcxKept (hL : L.Sound) (h : Delivered L u e 0 m) :
    (rcxKept L u m).Stack
      [e, u.rip, u.cs, setBit u.rflags resumeFlag true, u.reg .rsp, u.ss] := by
  have hroom := hL.room
  obtain ⟨t, ht, hdeep⟩ := h.deep
  have hclear : ∀ {i n : Nat}, 0 < n → i + n ≤ 168 →
      Clear (offset L.cpuInfo i) n (m.reg .rsp) 48 := fun hn hi => by
    rw [hdeep]
    exact (Layout.clear_frame (hL.cpu.symm.part hn hi).symm (by omega) (by decide)
      (by omega)).symm
  have hswapped : Machine.Stack (((faultTested true m).setMsr msrGsBase L.cpuInfo).setMsr
      msrKernelGsBase (u.msr msrGsBase))
      [e, u.rip, u.cs, setBit u.rflags resumeFlag true, u.reg .rsp, u.ss] :=
    h.stack.congr rfl rfl
  exact (hswapped.storeAt (hclear (by decide) (by decide))).storeAt
    (hclear (by decide) (by decide))

theorem Delivered.keepsMem_rcxKept (h : Delivered L u e 0 m) : KeepsMem L u (rcxKept L u m) := by
  have hswapped : KeepsMem L u (((faultTested true m).setMsr msrGsBase L.cpuInfo).setMsr
      msrKernelGsBase (u.msr msrGsBase)) := h.only.keepsMem
  exact (hswapped.storeCpu rfl (by decide)).storeCpu rfl (by decide)

/-- The count of the exceptions is what it was. -/
theorem Delivered.dcntr_rcxKept (hL : L.Sound) (hu : AtUser L u) (h : Delivered L u e 0 m) :
    (rcxKept L u m).loadAt .l (offset L.cpuInfo 24) = 0#64 := by
  have hload : (rcxKept L u m).loadAt .l (offset L.cpuInfo 24) =
      m.loadAt .l (offset L.cpuInfo 24) := by
    rw [rcxKept, Machine.loadAt_storeAt_of_clear _
      (clear_cpu L (by decide) (by decide) (by decide) (by decide)),
      Machine.loadAt_storeAt_of_clear _
      (clear_cpu L (by decide) (by decide) (by decide) (by decide)).symm]
    rfl
  exact hload.trans ((h.only.loadCpu hL (by decide)).trans hu.dcntr)

/-- The code of the fault is in `rcx`, and its lowest bit in the carry flag. -/
theorem Delivered.faulted (hL : L.Sound) (hu : AtUser L u) (h : Delivered L u e 0 m) :
    Faulted L u e (((rcxKept L u m).setReg .rcx e).setFlags
      (setBit (rcxKept L u m).rflags carryFlag (e.getLsbD 0))) where
  reg r hrsp hrcx := by
    show (if r = .rcx then e else m.reg r) = _
    rw [if_neg hrcx]
    exact h.reg r hrsp
  deep := by
    obtain ⟨t, ht, hdeep⟩ := h.deep
    rw [Nat.zero_add] at hdeep
    exact ⟨t, ht, hdeep⟩
  stack := (h.stack_rcxKept hL).congr rfl rfl
  cs := h.cs
  cr2 := h.cr2
  flags := by
    show (setBit (setBit (setBit m.rflags interruptFlag false) carryFlag true) carryFlag
      (e.getLsbD 0)).getLsbD interruptFlag = false
    rw [getLsbD_setBit _ _ _ _ (by decide), if_neg (by decide),
      getLsbD_setBit _ _ _ _ (by decide), if_neg (by decide),
      getLsbD_setBit _ _ _ _ (by decide), if_pos rfl]
  gs := rfl
  kernelGs := rfl
  msr i hi hi' := by
    show (if i = msrKernelGsBase then _ else if i = msrGsBase then _ else m.msr i) = _
    rw [if_neg hi', if_neg hi, h.msr]
  rcx := (Machine.loadAt_storeAt _ .q _ _).trans (trunc_q _)
  dcntr := h.dcntr_rcxKept hL hu
  mem := h.keepsMem_rcxKept

end Fault

/-- The beginning of the handler, for a fault of the program. -/
theorem rcxKept_runs {L : Layout} {fns : Functions Fn} {u m : Machine} {e : Word}
    {Q : Option Machine → Prop} (hu : AtUser L u) (huser : e.getLsbD 2 = true)
    (hm : Delivered L u e 0 m)
    (h : Leaves fns (idtPageFaultHandler L)
      (target (idtPageFaultHandler L) .pageFaultUserCheck) (rcxKept L u m) Q) :
    Leaves fns (idtPageFaultHandler L) (idtPageFaultHandler L) m Q := by
  let cleared := m.setFlags (setBit m.rflags interruptFlag false)
  let swapped := ((faultTested true m).setMsr msrGsBase L.cpuInfo).setMsr msrKernelGsBase
    (u.msr msrGsBase)
  let marked := swapped.storeAt .b (offset L.cpuInfo 32)
    (if swapped.flag signFlag then 1#64 else 0#64)
  have hword : m.loadAt .q (m.reg .rsp + 0#64) = e := hm.stack.word (i := 0) (Nat.zero_lt_succ _)
  refine Leaves.go (s := cleared) rfl (Leaves.go (s := faultTested true m) ?_ (Leaves.notTaken ?_
    (Leaves.go (s := swapped) ?_ (Leaves.go (s := marked) ?_ (Leaves.go (s := rcxKept L u m) ?_
    (Leaves.taken (holds_c_bt cleared cleared.rflags true) h))))))
  · show Next.go (cleared.setFlags (setBit cleared.rflags carryFlag
      ((m.loadAt .q (m.reg .rsp + 0#64)).getLsbD 2))) = _
    rw [hword, huser]
    rfl
  · exact holds_nc_bt cleared cleared.rflags true
  · show Next.go (((faultTested true m).setMsr msrGsBase (m.msr msrKernelGsBase)).setMsr
      msrKernelGsBase (m.msr msrGsBase)) = _
    rw [hm.msr, hu.kernelGs]
  · rfl
  · show Next.go (marked.storeAt .q (offset L.cpuInfo 0) (trunc .q (m.reg .rcx))) = _
    rw [trunc_q, hm.reg .rcx (by decide)]
    rfl

theorem faulted_runs {L : Layout} {fns : Functions Fn} {u : Machine} {e : Word}
    {Q : Option Machine → Prop} (hL : L.Sound) (hu : AtUser L u) (huser : e.getLsbD 2 = true)
    (h : ∀ m, Faulted L u e m → Leaves fns (idtPageFaultHandler L)
      (if e.getLsbD 0 then pageFaultVersionCheck (versionError L)
        else target (idtPageFaultHandler L) .pageFaultUserExit) m Q) :
    Leaves fns (idtPageFaultHandler L) (idtPageFaultHandler L) (pageFault L u e) Q := by
  have hroom := hL.room
  have hd : (if u.inUser then L.top else u.reg .rsp) = L.top - BitVec.ofNat 64 0 := by
    rw [inUser_of_atUser hu, if_pos rfl, BitVec.sub_zero]
  have hdelivered := delivered_pageFault e hd (by omega)
  refine rcxKept_runs hu huser hdelivered ?_
  have hword := (hdelivered.stack_rcxKept hL).word (i := 0) (Nat.zero_lt_succ _)
  have hnext := h _ (hdelivered.faulted hL hu)
  rw [target_pageFaultUserCheck]
  generalize rcxKept L u (pageFault L u e) = kept at hword hnext ⊢
  refine Leaves.label (Leaves.go (s := kept.setReg .rcx e) ?_ (Leaves.go (s :=
    (kept.setReg .rcx e).setFlags (setBit kept.rflags carryFlag (e.getLsbD 0))) ?_ ?_))
  · exact congrArg (fun v => Next.go (kept.setReg .rcx v)) hword
  · show Next.go ((kept.setReg .rcx e).setFlags (setBit kept.rflags carryFlag
      ((trunc .q e).getLsbD 0))) = _
    rw [trunc_q]
  · cases hbit : e.getLsbD 0 with
    | true =>
        rw [hbit, if_pos rfl] at hnext
        refine Leaves.taken ((holds_c_bt _ _ _).trans rfl) ?_
        rw [target_pageFaultVersionCheck]
        exact hnext
    | false =>
        rw [hbit, if_neg Bool.false_ne_true] at hnext
        exact Leaves.notTaken ((holds_c_bt _ _ _).trans rfl) (Leaves.jump rfl hnext)

/-- `handle_user_page_fault` is called: with the address, the code and where the program is. -/
structure AtFault (L : Layout) (u : Machine) (e : Word) (mc : Machine) : Prop where
  rdi : mc.reg .rdi = u.cr2
  rsi : mc.reg .rsi = e
  rdx : mc.reg .rdx = u.rip
  cs : mc.cs = kernelCs
  flags : mc.flag interruptFlag = false
  kernelGs : mc.msr msrKernelGsBase = u.msr msrGsBase
  mem : KeepsMem L u mc

/-- The program is back at the instruction that has faulted, with all of its registers and its
`%gs`; `m` is what the handler has come back with. -/
structure Retried (L : Layout) (u m u' : Machine) : Prop where
  atUser : AtUser L u'
  rip : u'.rip = u.rip
  rflags : u'.rflags = setBit u.rflags resumeFlag true
  reg : ∀ r, u'.reg r = u.reg r
  gs : u'.msr msrGsBase = u.msr msrGsBase
  mem : u'.mem = m.mem

theorem Returns.ofTest {L : Layout} {m m' : Machine} (h : Returns L m m') (v : Word) :
    Returns L m (m'.logicFlags .q v) :=
  ⟨h.saved, h.cs, h.ss, h.gs, h.star, h.lstar, h.sfmask, h.frame, h.cpu, h.var⟩

/-- The words of a frame, below the saved registers. -/
theorem word_of_scratch {m mp : Machine} {vs : List Word}
    (h : mp.Stack ((scratchRegs.map m.reg).reverse ++ vs)) {i : Nat} (hi : i < vs.length) :
    loadWord mp.mem (mp.reg .rsp + BitVec.ofNat 64 (64 + 8 * i)) = vs[i] := by
  have hlen : (scratchRegs.map m.reg).reverse.length = 8 := by
    rw [List.length_reverse, List.length_map]
    rfl
  have hword := h.word (i := 8 + i) (by rw [List.length_append, hlen]; omega)
  rw [List.getElem_append_right (by rw [hlen]; omega)] at hword
  simp only [hlen, Nat.add_sub_cancel_left, Nat.mul_add] at hword
  exact hword

/-- The end of the handler: the error is taken off, the frame is followed, and `%gs` is the
program's again if it was the program that has faulted. -/
theorem pageFaultExit_runs {L : Layout} {fns : Functions Fn} {m : Machine}
    {e rip cs flags rsp ss : Word} {k : List (Item Label Fn)} {Q : Option Machine → Prop}
    (hstack : m.Stack [e, rip, cs, flags, rsp, ss])
    (h : ∀ x : Machine, x = { (m.setReg .rsp rsp) with
      rip := rip, cs := cs, rflags := flags, ss := ss } → Q (some x)) :
    Leaves fns (idtPageFaultHandler L) (pageFaultExit k) m Q := by
  let added := m.addFlags .q (m.reg .rsp) 8#64
  let dropped := added.setReg .rsp (m.reg .rsp + 8#64)
  have hrest : dropped.Stack [rip, cs, flags, rsp, ss] := hstack.drop.congr rfl rfl
  refine Leaves.label (Leaves.go (s := dropped) ?_ (Leaves.leave (s := dropped.iret) rfl (h _ ?_)))
  · show Next.go ((m.addFlags .q (trunc .q (m.reg .rsp)) (trunc .q 8#64)).setReg .rsp
      (trunc .q (m.reg .rsp) + trunc .q 8#64)) = _
    rw [trunc_q, trunc_q]
  · rw [hrest.iret, show dropped.setReg .rsp rsp = added.setReg .rsp rsp from
      Machine.setReg_setReg _ _ _ _]
    rfl

/-- Half a word of a frame, below the saved registers. -/
theorem half_of_scratch {m mp : Machine} {vs : List Word}
    (h : mp.Stack ((scratchRegs.map m.reg).reverse ++ vs)) {i : Nat} (hi : i < vs.length) :
    mp.loadAt .l (mp.reg .rsp + BitVec.ofNat 64 (64 + 8 * i)) = trunc .l vs[i] := by
  have hlen : (scratchRegs.map m.reg).reverse.length = 8 := by
    rw [List.length_reverse, List.length_map]
    rfl
  have hword := h.half (i := 8 + i) (by rw [List.length_append, hlen]; omega)
  rw [List.getElem_append_right (by rw [hlen]; omega)] at hword
  simp only [hlen, Nat.add_sub_cancel_left, Nat.mul_add] at hword
  exact hword

/-- A function of C has been called over the saved registers, and has come back with `m'`. -/
structure Called (L : Layout) (m mc m' : Machine) : Prop where
  reg : ∀ r ∈ calleeSaved, mc.reg r = (m.pushAll scratchRegs).reg r
  mem : mc.mem = (m.pushAll scratchRegs).mem
  cs : mc.cs = m.cs
  msr : mc.msr = m.msr
  ret : Returns L mc m'
  kernelGs : m'.msr msrKernelGsBase = mc.msr msrKernelGsBase

/-- The saved registers are back after it, in `mr`. -/
structure Given (L : Layout) (u : Machine) (e : Word) (m' mr : Machine) : Prop where
  reg : ∀ r, r ≠ .rsp → r ≠ .rcx → mr.reg r = u.reg r
  deep : ∃ t < 16, Deep L mr (t + 48)
  stack : mr.Stack [e, u.rip, u.cs, setBit u.rflags resumeFlag true, u.reg .rsp, u.ss]
  cs : mr.cs = kernelCs
  mem : mr.mem = m'.mem
  gs : mr.msr msrGsBase = L.cpuInfo
  kernelGs : mr.msr msrKernelGsBase = u.msr msrGsBase
  msr : ∀ i ∈ [msrStar, msrLstar, msrSfmask], mr.msr i = u.msr i
  rcx : mr.loadAt .q (offset L.cpuInfo 0) = u.reg .rcx
  dcntr : mr.loadAt .l (offset L.cpuInfo 24) = 0#64
  var : loadWord mr.mem L.kernelStack = L.top

theorem given {L : Layout} {u m mc m' : Machine} {e : Word} (hL : L.Sound) (hu : AtUser L u)
    (hm : Faulted L u e m) (hc : Called L m mc m') :
    Given L u e m' (m'.popAll scratchRegs.reverse) := by
  obtain ⟨t, ht, hdeep⟩ := hm.deep
  have hroom := hL.room
  have hback := restored hL hdeep hm.stack (by simp only [List.length_cons, List.length_nil]; omega)
    (by omega) hc.reg hc.mem hc.ret
  have hpushed : StackOnly L m (m.pushAll scratchRegs) :=
    (StackOnly.refl L m).pushAll hdeep (by rw [show scratchRegs.length = 8 from rfl]; omega)
  have hload : ∀ {size : Width} {i : Nat}, i + size.bytes ≤ 168 →
      (m'.popAll scratchRegs.reverse).loadAt size (offset L.cpuInfo i)
        = m.loadAt size (offset L.cpuInfo i) := by
    intro size i hi
    rw [← hpushed.loadCpu hL hi]
    have hcall : mc.loadAt size (offset L.cpuInfo i)
        = (m.pushAll scratchRegs).loadAt size (offset L.cpuInfo i) :=
      loadAt_congr fun _ _ => congrFun hc.mem _
    rw [← hcall, ← hc.ret.loadCpu hi]
    exact loadAt_congr fun _ _ => congrFun hback.mem _
  have hmsr : ∀ i, m'.msr i = mc.msr i → i ≠ msrGsBase → i ≠ msrKernelGsBase →
      (m'.popAll scratchRegs.reverse).msr i = u.msr i := by
    intro i hi hgs hkernel
    rw [hback.same.msr, hi, hc.msr, hm.msr i hgs hkernel]
  exact
    { reg := fun r hrsp hrcx => (hback.reg r hrcx).trans (hm.reg r hrsp hrcx)
      deep := ⟨t, ht, (hback.reg .rsp (by decide)).trans hdeep⟩
      stack := hback.stack
      cs := by rw [hback.same.cs, hc.ret.cs, hc.cs, hm.cs]
      mem := hback.mem
      gs := by rw [hback.same.msr, hc.ret.gs, hc.msr, hm.gs]
      kernelGs := by rw [hback.same.msr, hc.kernelGs, hc.msr, hm.kernelGs]
      msr := by
        intro i hi
        simp only [List.mem_cons, List.not_mem_nil, or_false] at hi
        rcases hi with rfl | rfl | rfl
        · exact hmsr _ hc.ret.star (by decide) (by decide)
        · exact hmsr _ hc.ret.lstar (by decide) (by decide)
        · exact hmsr _ hc.ret.sfmask (by decide) (by decide)
      rcx := (hload (by decide)).trans hm.rcx
      dcntr := (hload (by decide)).trans hm.dcntr
      var := by
        rw [← hu.var]
        refine loadWord_congr fun i hi => ?_
        rw [hback.mem, hc.ret.var i hi, hc.mem]
        exact (hm.mem.trans hpushed.keepsMem).run hL.var hL.cpuVar hi }

/-- What the handler of a page fault has come back with: the rest gives the registers back. -/
theorem retried_runs {L : Layout} {fns : Functions Fn} {u m mc m' : Machine} {e : Word}
    {k : List (Item Label Fn)} {Q : Option Machine → Prop} (hL : L.Sound) (hu : AtUser L u)
    (huser : e.getLsbD 2 = true) (hm : Faulted L u e m) (hc : Called L m mc m')
    (h : ∀ u', Retried L u m' u' → Q (some u')) :
    Leaves fns (idtPageFaultHandler L)
      (pops scratchRegs.reverse
      ++ (ins (.mov .q (.of (.gs cpuTmpR15)) (.reg .rcx))
      :: ins (.bt 2 (.mem 0#64 .rsp))
      :: ins (.jcc .nc .pageFaultExit)
      :: ins .swapgs
      :: pageFaultExit k)) m' Q := by
  have hback := given hL hu hm hc
  refine Leaves.pops ?_
  generalize m'.popAll scratchRegs.reverse = mr at hback ⊢
  let restored := mr.setReg .rcx (u.reg .rcx)
  let tested := restored.setFlags (setBit restored.rflags carryFlag true)
  let swapped := (tested.setMsr msrGsBase (u.msr msrGsBase)).setMsr msrKernelGsBase L.cpuInfo
  have hstack : restored.Stack
      [e, u.rip, u.cs, setBit u.rflags resumeFlag true, u.reg .rsp, u.ss] :=
    hback.stack.congr rfl rfl
  have hword : restored.loadAt .q (restored.reg .rsp + 0#64) = e :=
    hstack.word (i := 0) (Nat.zero_lt_succ _)
  refine Leaves.go (s := restored) ?_ (Leaves.go (s := tested) ?_ (Leaves.notTaken
    (holds_nc_bt _ _ _) (Leaves.go (s := swapped) ?_
    (pageFaultExit_runs (hstack.congr rfl rfl) fun x hx => h x ?_))))
  · show Next.go (mr.setReg .rcx (mr.loadAt .q (mr.msr msrGsBase + 0#64))) = _
    rw [hback.gs, show L.cpuInfo + 0#64 = offset L.cpuInfo 0 from rfl, hback.rcx]
  · show Next.go (restored.setFlags (setBit restored.rflags carryFlag
      ((restored.loadAt .q (restored.reg .rsp + 0#64)).getLsbD 2))) = _
    rw [hword, huser]
  · show Next.go ((tested.setMsr msrGsBase (mr.msr msrKernelGsBase)).setMsr msrKernelGsBase
      (mr.msr msrGsBase)) = _
    rw [hback.gs, hback.kernelGs]
  · have hmsr : ∀ i ∈ [msrStar, msrLstar, msrSfmask], x.msr i = u.msr i := by
      intro i hi
      rw [hx, ← hback.msr i hi]
      show (if i = msrKernelGsBase then _ else if i = msrGsBase then _ else mr.msr i) = _
      rw [if_neg (by rintro rfl; revert hi; decide), if_neg (by rintro rfl; revert hi; decide)]
    exact
      { atUser :=
          { cs := by rw [hx]; exact hu.cs
            ss := by rw [hx]; exact hu.ss
            kernelGs := by rw [hx]; rfl
            star := by rw [hmsr _ (by decide)]; exact hu.star
            lstar := by rw [hmsr _ (by decide)]; exact hu.lstar
            sfmask := by rw [hmsr _ (by decide)]; exact hu.sfmask
            var := by rw [hx]; exact hback.var
            dcntr := by rw [hx]; exact hback.dcntr }
        rip := by rw [hx]
        rflags := by rw [hx]
        reg := by
          intro r
          rw [hx]
          show (if r = .rsp then u.reg .rsp else if r = .rcx then u.reg .rcx else mr.reg r) = _
          by_cases hrsp : r = .rsp
          · rw [if_pos hrsp, hrsp]
          · rw [if_neg hrsp]
            by_cases hrcx : r = .rcx
            · rw [if_pos hrcx, hrcx]
            · rw [if_neg hrcx, hback.reg r hrsp hrcx]
        gs := by rw [hx]; rfl
        mem := by rw [hx]; exact hback.mem }

/-! ## A page that is missing -/

/-- The fault is not handled: what is left ends in `kernel_exit`. -/
theorem unhandled_runs {L : Layout} {fns : Functions Fn} {m : Machine} {Q : Option Machine → Prop}
    (habi : Abi L fns) (h : Q none) :
    Leaves fns (idtPageFaultHandler L)
      (unhandledPageFault L (pageFaultUserCheck (pageFaultVersionCheck (versionError L)))) m Q := by
  refine Leaves.label (Leaves.pops ?_)
  refine Leaves.go rfl (Leaves.go rfl (Leaves.go rfl (Leaves.go rfl (Leaves.go rfl
    (Leaves.go rfl (Leaves.call (fun m' _ => ?_) fun _ => h))))))
  refine Leaves.go rfl (Leaves.go rfl (Leaves.call (fun m'' _ => ?_) fun _ => h))
  exact Leaves.gone (by rw [step, habi.exits]) h

/-- A fault on a page that is missing, whatever its error may say. -/
def MissingEnds (L : Layout) (fns : Functions Fn) (u : Machine) (e : Word)
    (x : Option Machine) : Prop :=
  ∃ mc, AtFault L u e mc ∧
    match fns.named .handleUserPageFault mc with
    | some m => if m.reg .rax = 0#64 then x = none else ∃ u', x = some u' ∧ Retried L u m u'
    | none => x = none

theorem missing_runs {L : Layout} {fns : Functions Fn} {u m : Machine} {e : Word} (hL : L.Sound)
    (habi : Abi L fns) (hu : AtUser L u) (huser : e.getLsbD 2 = true) (hm : Faulted L u e m) :
    Leaves fns (idtPageFaultHandler L) (target (idtPageFaultHandler L) .pageFaultUserExit) m
      (MissingEnds L fns u e) := by
  rw [target_pageFaultUserExit]
  obtain ⟨t, ht, hdeep⟩ := hm.deep
  have hroom := hL.room
  have hstack := hm.stack.pushAll scratchRegs (by decide) (by
    simp only [List.length_cons, List.length_nil, show scratchRegs.length = 8 from rfl]; omega)
  have hpushed : StackOnly L m (m.pushAll scratchRegs) :=
    (StackOnly.refl L m).pushAll hdeep (by rw [show scratchRegs.length = 8 from rfl]; omega)
  have hsame := m.sameBut_pushAll scratchRegs
  refine Leaves.label (Leaves.pushes ?_)
  have herr := word_of_scratch hstack (i := 0) (Nat.zero_lt_succ _)
  have hrip := word_of_scratch hstack (i := 1) (Nat.succ_lt_succ (Nat.zero_lt_succ _))
  generalize hmp : m.pushAll scratchRegs = mp at hstack hpushed hsame herr hrip ⊢
  let mc := ((mp.setReg .rdi u.cr2).setReg .rsi e).setReg .rdx u.rip
  have hcall : AtFault L u e mc :=
    { rdi := rfl
      rsi := rfl
      rdx := rfl
      cs := hsame.cs.trans hm.cs
      flags := by
        rw [← hm.flags]
        exact congrArg (fun v => v.getLsbD interruptFlag) hsame.rflags
      kernelGs := (congrFun hsame.msr _).trans hm.kernelGs
      mem := hm.mem.trans hpushed.keepsMem }
  have hregs : ∀ r ∈ calleeSaved, mc.reg r = mp.reg r := by
    intro r hr
    rw [reg_setReg_saved (by decide) hr, reg_setReg_saved (by decide) hr,
      reg_setReg_saved (by decide) hr]
  refine Leaves.go (s := mp.setReg .rdi u.cr2) ?_
    (Leaves.go (s := (mp.setReg .rdi u.cr2).setReg .rsi e) ?_ (Leaves.go (s := mc) ?_
    (Leaves.call (fun m' hback => ?_) fun hgone => ?_)))
  · show Next.go (mp.setReg .rdi mp.cr2) = _
    rw [hsame.cr2, hm.cr2]
  · show Next.go ((mp.setReg .rdi u.cr2).setReg .rsi (mp.loadAt .q (mp.reg .rsp + 64#64))) = _
    exact congrArg (fun v => Next.go ((mp.setReg .rdi u.cr2).setReg .rsi v)) herr
  · show Next.go (((mp.setReg .rdi u.cr2).setReg .rsi e).setReg .rdx
      (mp.loadAt .q (mp.reg .rsp + 72#64))) = _
    exact congrArg (fun v => Next.go (((mp.setReg .rdi u.cr2).setReg .rsi e).setReg .rdx v)) hrip
  · have hret := (habi.named _ _ _ hback).ofTest (m'.reg .rax)
    refine Leaves.go (s := m'.logicFlags .q (m'.reg .rax)) ?_ ?_
    · show Next.go (m'.logicFlags .q (trunc .q (m'.reg .rax) &&& trunc .q (m'.reg .rax))) = _
      rw [trunc_q, BitVec.and_self]
    by_cases hzero : m'.reg .rax = 0#64
    · refine Leaves.taken (by rw [holds_e_test, hzero]; rfl) ?_
      rw [target_unhandledPageFault]
      refine unhandled_runs habi ⟨mc, hcall, ?_⟩
      rw [hback]
      exact (if_pos hzero).mpr rfl
    · refine Leaves.notTaken (by rw [holds_e_test, decide_eq_false hzero]) ?_
      have hcalled : Called L m mc (m'.logicFlags .q (m'.reg .rax)) :=
        ⟨by rw [hmp]; exact hregs, by rw [hmp]; rfl, hsame.cs, hsame.msr, hret,
          habi.kernelGs _ mc m' hback⟩
      refine retried_runs hL hu huser hm hcalled fun u' hu' => ⟨mc, hcall, ?_⟩
      rw [hback]
      exact (if_neg hzero).mpr ⟨u', rfl, hu'.atUser, hu'.rip, hu'.rflags, hu'.reg, hu'.gs, hu'.mem⟩
  · refine ⟨mc, hcall, ?_⟩
    rw [hgone]

theorem missingPage_ends {L : Layout} {fns : Functions Fn} {u : Machine} {e : Word}
    (hL : L.Sound) (habi : Abi L fns) (hu : AtUser L u) (huser : e.getLsbD 2 = true)
    (hmissing : e.getLsbD 0 = false) :
    Leaves fns (idtPageFaultHandler L) (idtPageFaultHandler L) (pageFault L u e)
      (MissingEnds L fns u e) := by
  refine faulted_runs hL hu huser fun m hm => ?_
  rw [hmissing, if_neg Bool.false_ne_true]
  exact missing_runs hL habi hu huser hm

/-- A fault on a page that is missing comes back exactly if the handler gives something other
than zero: to the instruction that has faulted, with every register and `%gs` as they were. -/
theorem missingPage_retried {L : Layout} {fns : Functions Fn} {u : Machine} {e : Word}
    (hL : L.Sound) (habi : Abi L fns) (hu : AtUser L u) (huser : e.getLsbD 2 = true)
    (hmissing : e.getLsbD 0 = false) :
    ∃ mc, AtFault L u e mc ∧
      ((∃ u', LeftWith fns (idtPageFaultHandler L) (pageFault L u e) u') ↔
        ∃ m, fns.named .handleUserPageFault mc = some m ∧ m.reg .rax ≠ 0#64) ∧
      ∀ u', LeftWith fns (idtPageFaultHandler L) (pageFault L u e) u' →
        ∃ m, fns.named .handleUserPageFault mc = some m ∧ Retried L u m u' := by
  obtain ⟨n, x, hrun, mc, hcall, hends⟩ := missingPage_ends hL habi hu huser hmissing
  have hunique : ∀ u', LeftWith fns (idtPageFaultHandler L) (pageFault L u e) u' → x = some u' :=
    fun u' h => h.of_leaves (Q := fun y => x = y) ⟨n, x, hrun, rfl⟩
  have hnone : x = none → ∀ v, ¬ LeftWith fns (idtPageFaultHandler L) (pageFault L u e) v :=
    fun hx v hv => by
      have hv' := hunique v hv
      rw [hx] at hv'
      exact absurd hv' (by simp)
  cases hback : fns.named .handleUserPageFault mc with
  | none =>
      rw [hback] at hends
      refine ⟨mc, hcall, ⟨fun ⟨v, hv⟩ => absurd hv (hnone hends v), fun ⟨m, hm, _⟩ => ?_⟩,
        fun v hv => absurd hv (hnone hends v)⟩
      rw [hback] at hm
      exact absurd hm (by simp)
  | some m =>
      rw [hback] at hends
      by_cases hzero : m.reg .rax = 0#64
      · have hx := (if_pos hzero).mp hends
        refine ⟨mc, hcall, ⟨fun ⟨v, hv⟩ => absurd hv (hnone hx v), fun ⟨m', hm', hne⟩ => ?_⟩,
          fun v hv => absurd hv (hnone hx v)⟩
        obtain rfl := Option.some.inj (hback.symm.trans hm')
        exact absurd hzero hne
      · obtain ⟨u', rfl, hretried⟩ := (if_neg hzero).mp hends
        refine ⟨mc, hcall, ⟨fun _ => ⟨m, hback, hzero⟩, fun _ => ⟨u', n, hrun⟩⟩, fun v hv => ?_⟩
        obtain rfl := Option.some.inj (hunique v hv)
        exact ⟨m, hback, hretried⟩

/-- A program reads a page of its heap for the first time. -/
theorem missingPage_retried_read : ∃ mc, AtFault sampleLayout sampleUser 4#64 mc ∧
    ((∃ u', LeftWith sampleFns (idtPageFaultHandler sampleLayout)
        (pageFault sampleLayout sampleUser 4#64) u') ↔
      ∃ m, sampleFns.named .handleUserPageFault mc = some m ∧ m.reg .rax ≠ 0#64) ∧
    ∀ u', LeftWith sampleFns (idtPageFaultHandler sampleLayout)
        (pageFault sampleLayout sampleUser 4#64) u' →
      ∃ m, sampleFns.named .handleUserPageFault mc = some m ∧
        Retried sampleLayout sampleUser m u' :=
  missingPage_retried sampleLayout_sound sampleFns_abi sampleUser_atUser (by decide) (by decide)

end BufferVM
