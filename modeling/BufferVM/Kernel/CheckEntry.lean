/-
  Kernel/CheckEntry.lean --- a page fault on a page that is there: the version check.

  An access that the check lets through is run by itself.  The frame of the fault is taken apart
  on the stack, so that a `popf` and a `ret` lead to the instruction of the program with the
  privilege of the kernel and the trap flag, and two debug exceptions are to be counted.
-/
import BufferVM.Kernel.FaultEntry

set_option autoImplicit false

namespace BufferVM

open X86 ByteMem

/-! ## A version to be checked -/

/-- `check_version` is called: with the address and where the program is. -/
structure AtCheck (L : Layout) (u mc : Machine) : Prop where
  rdi : mc.reg .rdi = u.cr2
  rsi : mc.reg .rsi = u.rip
  cs : mc.cs = kernelCs
  flags : mc.flag interruptFlag = false
  kernelGs : mc.msr msrKernelGsBase = u.msr msrGsBase
  mem : KeepsMem L u mc

/-- The processor is set up for the entries into the kernel, `n` debug exceptions away from the
program `u`, whose stack pointer is kept. -/
structure Armed (L : Layout) (rsp : Word) (n : Word) (s : Machine) : Prop where
  cs : s.cs = kernelCs
  deep : ∃ d, d + 256 ≤ L.stackSize ∧ Deep L s d
  kernelGs : s.msr msrKernelGsBase = L.cpuInfo
  star : s.msr msrStar >>> 32 = kernelCs ||| (userDs - 8#64) <<< 16
  lstar : s.msr msrLstar = L.syscallEntry
  sfmask : s.msr msrSfmask = singleStepF
  var : loadWord s.mem L.kernelStack = L.top
  dcntr : s.loadAt .l (offset L.cpuInfo 24) = n
  dsp : s.loadAt .q (offset L.cpuInfo 16) = rsp

/-- The instruction of the program is to run by itself with the privilege of the kernel; `m` is
what the check has come back with. -/
structure Stepping (L : Layout) (u m s : Machine) : Prop where
  armed : Armed L (u.reg .rsp) 2#64 s
  rip : s.rip = u.rip
  rflags : s.rflags = setBit (u.rflags ||| singleStepF) resumeFlag false
  reg : ∀ r, r ≠ .rsp → s.reg r = u.reg r
  gs : s.msr msrGsBase = u.msr msrGsBase
  mem : KeepsMem L m s

/-- The flags of an instruction that is to run again, for one that is stepped. -/
theorem steppedFlags (v : Word) : setBit (setBit v resumeFlag true ||| singleStepF) resumeFlag false
    = setBit (v ||| singleStepF) resumeFlag false := by
  apply BitVec.eq_of_getLsbD_eq
  intro i hi
  rw [getLsbD_setBit _ _ _ _ (by decide), getLsbD_setBit _ _ _ _ (by decide)]
  by_cases heq : i = resumeFlag
  · rw [if_pos heq, if_pos heq]
  · rw [if_neg heq, if_neg heq, BitVec.getLsbD_or, BitVec.getLsbD_or,
      getLsbD_setBit _ _ _ _ (by decide), if_neg heq]

/-- How a fault on a page that is there ends. -/
def CheckEnds (L : Layout) (fns : Functions Fn) (u : Machine) (x : Option Machine) : Prop :=
  ∃ mc, AtCheck L u mc ∧
    match fns.named .checkVersion mc with
    | some m => if m.reg .rax = 0#64 then x = none else ∃ s, x = some s ∧ Stepping L u m s
    | none => x = none

theorem versionError_runs {L : Layout} {fns : Functions Fn} {m : Machine}
    {Q : Option Machine → Prop} (habi : Abi L fns) (h : Q none) :
    Leaves fns (idtPageFaultHandler L) (versionError L) m Q := by
  refine Leaves.label (Leaves.go rfl (Leaves.go rfl (Leaves.call (fun m' _ => ?_) fun _ => h)))
  exact Leaves.gone (by rw [step, habi.exits]) h

/-- On the way to the instruction: `e` is the word on top of the stack, and `cpu_info` behind
the first two words is not looked at. -/
structure Preparing (L : Layout) (u : Machine) (e : Word) (m' s : Machine) : Prop where
  reg : ∀ r, r ≠ .rsp → r ≠ .rcx → s.reg r = u.reg r
  deep : ∃ t < 16, Deep L s (t + 48)
  stack : s.Stack [e, u.rip, u.cs, setBit u.rflags resumeFlag true, u.reg .rsp, u.ss]
  cs : s.cs = kernelCs
  gs : s.msr msrGsBase = L.cpuInfo
  kernelGs : s.msr msrKernelGsBase = u.msr msrGsBase
  msr : ∀ i ∈ [msrStar, msrLstar, msrSfmask], s.msr i = u.msr i
  rcx : s.loadAt .q (offset L.cpuInfo 0) = u.reg .rcx
  mem : KeepsMem L m' s
  var : loadWord s.mem L.kernelStack = L.top

section Preparing

variable {L : Layout} {u m' s : Machine} {e : Word}

theorem Given.preparing (h : Given L u e m' s) : Preparing L u e m' s :=
  ⟨h.reg, h.deep, h.stack, h.cs, h.gs, h.kernelGs, h.msr, h.rcx, fun b _ => congrFun h.mem b, h.var⟩

theorem Preparing.setRcx (h : Preparing L u e m' s) (v : Word) :
    Preparing L u e m' (s.setReg .rcx v) where
  reg := fun r hrsp hrcx => (if_neg hrcx).trans (h.reg r hrsp hrcx)
  deep := h.deep
  stack := h.stack.congr rfl rfl
  cs := h.cs
  gs := h.gs
  kernelGs := h.kernelGs
  msr := h.msr
  rcx := h.rcx
  mem := h.mem
  var := h.var

theorem Preparing.logicFlags (h : Preparing L u e m' s) (v : Word) :
    Preparing L u e m' (s.logicFlags .q v) :=
  ⟨h.reg, h.deep, h.stack.congr rfl rfl, h.cs, h.gs, h.kernelGs, h.msr, h.rcx, h.mem, h.var⟩

/-- The words of the frame lie apart from `cpu_info`. -/
theorem Preparing.clear (h : Preparing L u e m' s) (hL : L.Sound) {i n : Nat} (hn : 0 < n)
    (hi : i + n ≤ 168) : Clear (offset L.cpuInfo i) n (s.reg .rsp) 48 := by
  obtain ⟨t, ht, hdeep⟩ := h.deep
  have hroom := hL.room
  rw [hdeep]
  exact (Layout.clear_frame (hL.cpu.symm.part hn hi).symm (by omega) (by decide) (by omega)).symm

/-- The word on top of the stack is written over. -/
theorem Preparing.putTop (h : Preparing L u e m' s) (hL : L.Sound) (v : Word) :
    Preparing L u v m' (s.storeAt .q (s.reg .rsp + 0#64) v) ∧
      ∀ {size : Width} {i : Nat}, 0 < size.bytes → i + size.bytes ≤ 168 →
        (s.storeAt .q (s.reg .rsp + 0#64) v).loadAt size (offset L.cpuInfo i) =
          s.loadAt size (offset L.cpuInfo i) := by
  obtain ⟨t, ht, hdeep⟩ := h.deep
  have hroom := hL.room
  have hload : ∀ {size : Width} {i : Nat}, 0 < size.bytes → i + size.bytes ≤ 168 →
      (s.storeAt .q (s.reg .rsp + 0#64) v).loadAt size (offset L.cpuInfo i) =
        s.loadAt size (offset L.cpuInfo i) := by
    intro size i hpos hi
    refine Machine.loadAt_storeAt_of_clear s ?_
    rw [BitVec.add_zero]
    exact (h.clear hL hpos hi).symm.mono (by decide) (Nat.le_refl _)
  have honly : KeepsMem L s (s.storeAt .q (s.reg .rsp + 0#64) v) :=
    (StackOnly.put (i := 0) (StackOnly.refl L s) hdeep (by omega) (by omega) v).keepsMem
  refine ⟨?_, hload⟩
  exact
    { reg := h.reg
      deep := ⟨t, ht, hdeep⟩
      stack := h.stack.put (i := 0) (by simp) (by simp) v
      cs := h.cs
      gs := h.gs
      kernelGs := h.kernelGs
      msr := h.msr
      rcx := (hload (by decide) (by decide)).trans h.rcx
      mem := h.mem.trans honly
      var := by
        rw [← h.var]
        exact loadWord_congr fun i hi => honly.run hL.var hL.cpuVar hi }

/-- A word of `cpu_info` behind the first two is written. -/
theorem Preparing.putCpu (h : Preparing L u e m' s) (hL : L.Sound) {size : Width} {i : Nat}
    (hpos : 0 < size.bytes) (h8 : 8 ≤ i) (hi : i + size.bytes ≤ 168) (v : Word) :
    Preparing L u e m' (s.storeAt size (offset L.cpuInfo i) v) where
  reg := h.reg
  deep := h.deep
  stack := h.stack.storeAt (h.clear hL hpos hi)
  cs := h.cs
  gs := h.gs
  kernelGs := h.kernelGs
  msr := h.msr
  rcx := (Machine.loadAt_storeAt_of_clear s
    (clear_cpu L (by decide) hpos (show 0 + 8 ≤ i by omega) hi).symm).trans h.rcx
  mem := h.mem.storeCpu rfl hi
  var := by
    rw [← h.var]
    exact loadWord_congr fun j hj =>
      ((KeepsMem.refl L s).storeCpu rfl hi).run hL.var hL.cpuVar hj

/-- The last four lines: `rcx` and `%gs` are given back, and `popf` and `ret` take the flags and
the address off the stack. -/
theorem Preparing.steps {fns : Functions Fn} {k : List (Item Label Fn)}
    {Q : Option Machine → Prop}
    (h : Preparing L u (setBit u.rflags resumeFlag true ||| singleStepF) m' s) (hL : L.Sound)
    (hu : AtUser L u) (hdcntr : s.loadAt .l (offset L.cpuInfo 24) = 2#64)
    (hdsp : s.loadAt .q (offset L.cpuInfo 16) = u.reg .rsp)
    (hQ : ∀ x, Stepping L u m' x → Q (some x)) :
    Leaves fns (idtPageFaultHandler L)
      (ins (.mov .q (.of (.gs cpuTmpR15)) (.reg .rcx))
      :: ins .swapgs
      :: ins .popf
      :: ins .ret
      :: k) s Q := by
  obtain ⟨t, ht, hdeep⟩ := h.deep
  have hroom := hL.room
  let fl := setBit u.rflags resumeFlag true ||| singleStepF
  let s1 := s.setReg .rcx (u.reg .rcx)
  let s2 := (s1.setMsr msrGsBase (u.msr msrGsBase)).setMsr msrKernelGsBase L.cpuInfo
  let s3 := s2.drop.setFlags (setBit fl resumeFlag false)
  let s4 := { s3.drop with rip := u.rip }
  have hs2 : s2.Stack [fl, u.rip, u.cs, setBit u.rflags resumeFlag true, u.reg .rsp, u.ss] :=
    h.stack.congr rfl rfl
  have hs3 : s3.Stack [u.rip, u.cs, setBit u.rflags resumeFlag true, u.reg .rsp, u.ss] :=
    hs2.drop.congr rfl rfl
  have hmsr : ∀ i ∈ [msrStar, msrLstar, msrSfmask], s4.msr i = u.msr i := by
    intro i hi
    rw [← h.msr i hi]
    show (if i = msrKernelGsBase then _ else if i = msrGsBase then _ else s.msr i) = _
    rw [if_neg (by rintro rfl; revert hi; decide), if_neg (by rintro rfl; revert hi; decide)]
  have hdeep4 : Deep L s4 (t + 32) := by
    show s.reg .rsp + 8#64 + 8#64 = _
    rw [hdeep, BitVec.add_assoc, show t + 48 = t + 32 + 16 from rfl, BitVec.ofNat_add _ 16,
      ← BitVec.sub_sub]
    exact BitVec.sub_add_cancel _ _
  have hs4 : Stepping L u m' s4 :=
    { armed :=
        { cs := h.cs
          deep := ⟨t + 32, by omega, hdeep4⟩
          kernelGs := rfl
          star := by rw [hmsr _ (by decide)]; exact hu.star
          lstar := by rw [hmsr _ (by decide)]; exact hu.lstar
          sfmask := by rw [hmsr _ (by decide)]; exact hu.sfmask
          var := h.var
          dcntr := hdcntr
          dsp := hdsp }
      rip := rfl
      rflags := steppedFlags u.rflags
      reg := by
        intro r hr
        show (if r = .rsp then _ else if r = .rsp then _ else if r = .rcx then u.reg .rcx else
          s.reg r) = _
        rw [if_neg hr, if_neg hr]
        by_cases hrcx : r = .rcx
        · rw [if_pos hrcx, hrcx]
        · rw [if_neg hrcx, h.reg r hr hrcx]
      gs := rfl
      mem := h.mem }
  refine Leaves.go (s := s1) ?_ (Leaves.go (s := s2) ?_ (Leaves.go (s := s3) ?_
    (Leaves.leave (s := s4) ?_ (hQ s4 hs4))))
  · show Next.go (s.setReg .rcx (s.loadAt .q (s.msr msrGsBase + 0#64))) = _
    rw [h.gs, show L.cpuInfo + 0#64 = offset L.cpuInfo 0 from rfl, h.rcx]
  · show Next.go ((s1.setMsr msrGsBase (s.msr msrKernelGsBase)).setMsr msrKernelGsBase
      (s.msr msrGsBase)) = _
    rw [h.gs, h.kernelGs]
  · show Next.go (s2.drop.setFlags (setBit s2.top resumeFlag false)) = _
    rw [hs2.top]
  · show Next.leave { s3.drop with rip := s3.top } = _
    rw [hs3.top]

/-- What the check has come back with is made ready for one instruction. -/
theorem stepping_runs {fns : Functions Fn} {m mc : Machine} {k : List (Item Label Fn)}
    {Q : Option Machine → Prop} (hL : L.Sound) (hu : AtUser L u) (hm : Faulted L u e m)
    (hc : Called L m mc m') (h : ∀ s, Stepping L u m' s → Q (some s)) :
    Leaves fns (idtPageFaultHandler L)
      (pops scratchRegs.reverse
      ++ (ins (.mov .q (.of (.mem 8#64 .rsp)) (.reg .rcx))
      :: ins (.mov .q (.of (.reg .rcx)) (.mem 0#64 .rsp))
      :: ins (.mov .l (.imm 2#64) (.gs cpuTmpDcntr))
      :: ins (.mov .q (.of (.mem 32#64 .rsp)) (.reg .rcx))
      :: ins (.mov .q (.of (.reg .rcx)) (.gs cpuTmpDsp))
      :: ins (.mov .q (.of (.mem 24#64 .rsp)) (.reg .rcx))
      :: ins (.or .q (.imm singleStepF) (.reg .rcx))
      :: ins (.mov .q (.of (.reg .rcx)) (.mem 0#64 .rsp))
      :: ins (.mov .q (.of (.gs cpuTmpR15)) (.reg .rcx))
      :: ins .swapgs
      :: ins .popf
      :: ins .ret
      :: k)) m' Q := by
  have hback := (given hL hu hm hc).preparing
  refine Leaves.pops ?_
  generalize m'.popAll scratchRegs.reverse = mr at hback ⊢
  let fl := setBit u.rflags resumeFlag true
  let m1 := mr.setReg .rcx u.rip
  let m2 := m1.storeAt .q (m1.reg .rsp + 0#64) u.rip
  let m3 := m2.storeAt .l (offset L.cpuInfo 24) 2#64
  let m4 := m3.setReg .rcx (u.reg .rsp)
  let m5 := m4.storeAt .q (offset L.cpuInfo 16) (u.reg .rsp)
  let m6 := m5.setReg .rcx fl
  let m7 := (m6.logicFlags .q (fl ||| singleStepF)).setReg .rcx (fl ||| singleStepF)
  let m8 := m7.storeAt .q (m7.reg .rsp + 0#64) (fl ||| singleStepF)
  have h2 : Preparing L u u.rip m' m2 := ((hback.setRcx u.rip).putTop hL u.rip).1
  have h3 : Preparing L u u.rip m' m3 := h2.putCpu hL (by decide) (by decide) (by decide) _
  have h5 : Preparing L u u.rip m' m5 :=
    (h3.setRcx (u.reg .rsp)).putCpu hL (by decide) (by decide) (by decide) _
  obtain ⟨h8, hload⟩ := (((h5.setRcx fl).logicFlags (fl ||| singleStepF)).setRcx
    (fl ||| singleStepF)).putTop hL (fl ||| singleStepF)
  have hdcntr : m8.loadAt .l (offset L.cpuInfo 24) = 2#64 := by
    have hapart : m5.loadAt .l (offset L.cpuInfo 24) = m3.loadAt .l (offset L.cpuInfo 24) :=
      Machine.loadAt_storeAt_of_clear m4
        (clear_cpu L (by decide) (by decide) (by decide) (by decide))
    exact (hload (by decide) (by decide)).trans
      (hapart.trans (Machine.loadAt_storeAt m2 .l _ _))
  have hdsp : m8.loadAt .q (offset L.cpuInfo 16) = u.reg .rsp :=
    (hload (by decide) (by decide)).trans
      ((Machine.loadAt_storeAt m4 .q _ _).trans (trunc_q _))
  refine Leaves.go (s := m1) ?_ (Leaves.go (s := m2) ?_ (Leaves.go (s := m3) ?_
    (Leaves.go (s := m4) ?_ (Leaves.go (s := m5) ?_ (Leaves.go (s := m6) ?_
    (Leaves.go (s := m7) ?_ (Leaves.go (s := m8) ?_ (h8.steps hL hu hdcntr hdsp h))))))))
  · exact congrArg (fun v => Next.go (mr.setReg .rcx v))
      (hback.stack.word (i := 1) (Nat.succ_lt_succ (Nat.zero_lt_succ _)))
  · show Next.go (m1.storeAt .q (m1.reg .rsp + 0#64) (trunc .q u.rip)) = _
    rw [trunc_q]
  · show Next.go (m2.storeAt .l (mr.msr msrGsBase + 24#64) 2#64) = _
    rw [hback.gs]
    rfl
  · exact congrArg (fun v => Next.go (m3.setReg .rcx v)) (h3.stack.word (i := 4) (by simp))
  · show Next.go (m4.storeAt .q (mr.msr msrGsBase + 16#64) (trunc .q (u.reg .rsp))) = _
    rw [hback.gs, trunc_q]
    rfl
  · exact congrArg (fun v => Next.go (m5.setReg .rcx v)) (h5.stack.word (i := 3) (by simp))
  · show Next.go ((m6.logicFlags .q (trunc .q fl ||| trunc .q singleStepF)).setReg .rcx
      (trunc .q fl ||| trunc .q singleStepF)) = _
    rw [trunc_q, trunc_q]
  · show Next.go (m7.storeAt .q (m7.reg .rsp + 0#64) (trunc .q (fl ||| singleStepF))) = _
    rw [trunc_q]

end Preparing

theorem check_runs {L : Layout} {fns : Functions Fn} {u m : Machine} {e : Word} (hL : L.Sound)
    (habi : Abi L fns) (hu : AtUser L u) (hm : Faulted L u e m) :
    Leaves fns (idtPageFaultHandler L) (pageFaultVersionCheck (versionError L)) m
      (CheckEnds L fns u) := by
  obtain ⟨t, ht, hdeep⟩ := hm.deep
  have hroom := hL.room
  have hstack := hm.stack.pushAll scratchRegs (by decide) (by
    simp only [List.length_cons, List.length_nil, show scratchRegs.length = 8 from rfl]; omega)
  have hpushed : StackOnly L m (m.pushAll scratchRegs) :=
    (StackOnly.refl L m).pushAll hdeep (by rw [show scratchRegs.length = 8 from rfl]; omega)
  have hsame := m.sameBut_pushAll scratchRegs
  refine Leaves.label (Leaves.pushes ?_)
  have hrip := word_of_scratch hstack (i := 1) (Nat.succ_lt_succ (Nat.zero_lt_succ _))
  generalize hmp : m.pushAll scratchRegs = mp at hstack hpushed hsame hrip ⊢
  let mc := (mp.setReg .rdi u.cr2).setReg .rsi u.rip
  have hcall : AtCheck L u mc :=
    { rdi := rfl
      rsi := rfl
      cs := hsame.cs.trans hm.cs
      flags := by
        rw [← hm.flags]
        exact congrArg (fun v => v.getLsbD interruptFlag) hsame.rflags
      kernelGs := (congrFun hsame.msr _).trans hm.kernelGs
      mem := hm.mem.trans hpushed.keepsMem }
  have hregs : ∀ r ∈ calleeSaved, mc.reg r = mp.reg r := by
    intro r hr
    rw [reg_setReg_saved (by decide) hr, reg_setReg_saved (by decide) hr]
  refine Leaves.go (s := mp.setReg .rdi u.cr2) ?_
    (Leaves.go (s := mc) ?_ (Leaves.call (fun m' hback => ?_) fun hgone => ?_))
  · show Next.go (mp.setReg .rdi mp.cr2) = _
    rw [hsame.cr2, hm.cr2]
  · exact congrArg (fun v => Next.go ((mp.setReg .rdi u.cr2).setReg .rsi v)) hrip
  · have hret := (habi.named _ _ _ hback).ofTest (m'.reg .rax)
    refine Leaves.go (s := m'.logicFlags .q (m'.reg .rax)) ?_ ?_
    · show Next.go (m'.logicFlags .q (trunc .q (m'.reg .rax) &&& trunc .q (m'.reg .rax))) = _
      rw [trunc_q, BitVec.and_self]
    by_cases hzero : m'.reg .rax = 0#64
    · refine Leaves.taken (by rw [holds_e_test, hzero]; rfl) ?_
      rw [target_versionError]
      refine versionError_runs habi ⟨mc, hcall, ?_⟩
      rw [hback]
      exact (if_pos hzero).mpr rfl
    · refine Leaves.notTaken (by rw [holds_e_test, decide_eq_false hzero]) ?_
      have hcalled : Called L m mc (m'.logicFlags .q (m'.reg .rax)) :=
        ⟨by rw [hmp]; exact hregs, by rw [hmp]; rfl, hsame.cs, hsame.msr, hret,
          habi.kernelGs _ mc m' hback⟩
      refine stepping_runs hL hu hm hcalled fun s hs => ⟨mc, hcall, ?_⟩
      rw [hback]
      exact (if_neg hzero).mpr ⟨s, rfl, hs.armed, hs.rip, hs.rflags, hs.reg, hs.gs, hs.mem⟩
  · refine ⟨mc, hcall, ?_⟩
    rw [hgone]

/-- A fault of the program is checked for its version if the page is there, and handled as a
missing page if it is not. -/
theorem userPageFault_ends {L : Layout} {fns : Functions Fn} {u : Machine} {e : Word}
    (hL : L.Sound) (habi : Abi L fns) (hu : AtUser L u) (huser : e.getLsbD 2 = true) :
    Leaves fns (idtPageFaultHandler L) (idtPageFaultHandler L) (pageFault L u e)
      (if e.getLsbD 0 then CheckEnds L fns u else MissingEnds L fns u e) := by
  refine faulted_runs hL hu huser fun m hm => ?_
  cases hbit : e.getLsbD 0 with
  | true =>
      rw [if_pos rfl, if_pos rfl]
      exact check_runs hL habi hu hm
  | false =>
      rw [if_neg Bool.false_ne_true, if_neg Bool.false_ne_true]
      exact missing_runs hL habi hu huser hm

end BufferVM
