/-
  Kernel/SyscallEntry.lean --- what a system call does to the program that makes it.

  The number picks the function, the arguments reach it where C looks for them, and when it
  comes back the program goes on with its own stack and the registers that it can rely on.
  A number out of the table calls nothing.
-/
import BufferVM.Kernel.Entry

set_option autoImplicit false

namespace BufferVM

open X86 ByteMem

/-! ## A program that runs -/

/-- A program runs, and the processor is set up for its entries into the kernel. -/
structure AtUser (L : Layout) (u : Machine) : Prop where
  cs : u.cs = userCs ||| 3#64
  ss : u.ss = userDs ||| 3#64
  kernelGs : u.msr msrKernelGsBase = L.cpuInfo
  star : u.msr msrStar >>> 32 = kernelCs ||| (userDs - 8#64) <<< 16
  lstar : u.msr msrLstar = L.syscallEntry
  sfmask : u.msr msrSfmask = singleStepF
  var : loadWord u.mem L.kernelStack = L.top
  dcntr : u.loadAt .l (offset L.cpuInfo 24) = 0#64

/-- The number of the system call has a place in the table. -/
def inTable (u : Machine) : Bool := !(u.reg .rax).slt 0#64 && (u.reg .rax).slt syscallMax

/-- The address in the table. -/
def handlerAt (L : Layout) (u : Machine) : Word := u.loadAt .q (L.syscallTable + u.reg .rax * 8#64)

/-- The function of a system call is called: with the number and five arguments where they
are, the fourth one in `rcx`, on the stack of the kernel. -/
structure AtCall (L : Layout) (u mc : Machine) : Prop where
  same : ∀ r ∈ [Reg.rax, .rdi, .rsi, .rdx, .r8, .r9, .rbx, .rbp, .r12, .r13, .r14],
    mc.reg r = u.reg r
  rcx : mc.reg .rcx = u.reg .r10
  rsp : Deep L mc 24
  cs : mc.cs = kernelCs
  gs : mc.msr msrGsBase = L.cpuInfo
  kernelGs : mc.msr msrKernelGsBase = u.msr msrGsBase
  flags : mc.flag trapFlag = false
  mem : KeepsMem L u mc

/-- The program goes on: `m` is what the function has come back with. -/
structure Resumed (L : Layout) (u m u' : Machine) : Prop where
  atUser : AtUser L u'
  rip : u'.rip = u.rip
  rflags : u'.rflags = (u.rflags &&& sysretMask) ||| 2#64
  saved : ∀ r ∈ calleeSaved, u'.reg r = u.reg r
  rcx : u'.reg .rcx = u.rip
  r11 : u'.reg .r11 = u.rflags
  result : ∀ r ∈ [Reg.rax, .rdi, .rsi, .rdx, .r8, .r9], u'.reg r = m.reg r
  r10 : u'.reg .r10 = m.reg .rcx
  gs : u'.msr msrGsBase = m.msr msrKernelGsBase
  mem : u'.mem = m.mem

/-- The program goes on as if nothing had been asked. -/
structure BailedOut (L : Layout) (u u' : Machine) : Prop where
  atUser : AtUser L u'
  rip : u'.rip = u.rip
  rflags : u'.rflags = (u.rflags &&& sysretMask) ||| 2#64
  rcx : u'.reg .rcx = u.rip
  r11 : u'.reg .r11 = u.rflags
  same : ∀ r, r ≠ .rcx → r ≠ .r11 → u'.reg r = u.reg r
  gs : u'.msr msrGsBase = u.msr msrGsBase
  mem : KeepsMem L u u'

/-- The function of this system call keeps the calling convention. -/
def CallReturns (L : Layout) (fns : Functions Fn) (u : Machine) : Prop :=
  ∀ mc m, AtCall L u mc → fns.at' (handlerAt L u) mc = some m → Returns L mc m

/-- How a system call ends. -/
def SyscallEnds (L : Layout) (fns : Functions Fn) (u : Machine) (x : Option Machine) : Prop :=
  if inTable u then
    ∃ mc, AtCall L u mc ∧
      match fns.at' (handlerAt L u) mc with
      | some m => ∃ u', x = some u' ∧ Resumed L u m u'
      | none => x = none
  else ∃ u', x = some u' ∧ BailedOut L u u'

/-! ## The way in -/

/-- The stack is that of the kernel, and what the program needs again is kept. -/
structure Entered (L : Layout) (u m : Machine) : Prop where
  reg : ∀ r, r ≠ .rsp → m.reg r = u.syscall.reg r
  deep : Deep L m 24
  stack : m.Stack [u.rflags, u.rip, u.reg .rbp]
  cs : m.cs = kernelCs
  flags : m.flag trapFlag = false
  gs : m.msr msrGsBase = L.cpuInfo
  kernelGs : m.msr msrKernelGsBase = u.msr msrGsBase
  msr : ∀ i, i ≠ msrGsBase → i ≠ msrKernelGsBase → m.msr i = u.msr i
  r15 : m.loadAt .q (offset L.cpuInfo 0) = u.reg .r15
  rsp : m.loadAt .q (offset L.cpuInfo 8) = u.reg .rsp
  dcntr : m.loadAt .l (offset L.cpuInfo 24) = 0#64
  mem : KeepsMem L u m

/-- Two parts of `cpu_info`. -/
theorem clear_cpu (L : Layout) {i n j k : Nat} (hn : 0 < n) (hk : 0 < k) (hij : i + n ≤ j)
    (hj : j + k ≤ 168) : Clear (offset L.cpuInfo i) n (offset L.cpuInfo j) k := by
  have hclear := (clear_offset (offset L.cpuInfo i) (n := j - i) (k := k) (by omega) (by omega)
    hk).mono (show n ≤ j - i by omega) (Nat.le_refl k)
  rwa [offset_offset, Nat.add_sub_cancel' (by omega)] at hclear

theorem entered_runs {L : Layout} {fns : Functions Fn} {u : Machine} {code k : List (Item Label Fn)}
    {Q : Option Machine → Prop} (hL : L.Sound) (hu : AtUser L u)
    (h : ∀ m, Entered L u m → Leaves fns code k m Q) :
    Leaves fns code
      ([ins .swapgs,
        ins (.mov .q (.of (.reg .r15)) (.gs cpuTmpR15)),
        ins (.mov .q (.of (.reg .rsp)) (.gs cpuTmpRsp)),
        ins (.mov .q (.imm L.kernelStack) (.reg .rsp)),
        ins (.mov .q (.of (.mem 0#64 .rsp)) (.reg .rsp))]
      ++ (pushes [.rbp, .rcx, .r11] ++ k)) u.syscall Q := by
  have hsize := hL.size
  have hroom := hL.room
  let swapped := (u.syscall.setMsr msrGsBase L.cpuInfo).setMsr msrKernelGsBase (u.msr msrGsBase)
  let stored := (swapped.storeAt .q (offset L.cpuInfo 0) (u.reg .r15)).storeAt .q
    (offset L.cpuInfo 8) (u.reg .rsp)
  have hgs : swapped.msr msrGsBase = L.cpuInfo := rfl
  have hkeeps : KeepsMem L u stored :=
    ((KeepsMem.refl L u).trans (t := swapped) (fun _ _ => rfl)).storeCpu rfl (by decide)
      |>.storeCpu rfl (by decide)
  have hvar : stored.loadAt .q L.kernelStack = L.top := by
    rw [← hu.var]
    exact loadAt_congr fun i hi => hkeeps.run hL.var hL.cpuVar hi
  have hr15 : stored.loadAt .q (offset L.cpuInfo 0) = u.reg .r15 := by
    rw [Machine.loadAt_storeAt_of_clear _
      (clear_cpu L (by decide) (by decide) (by decide) (by decide)).symm,
      Machine.loadAt_storeAt, trunc_q]
  have hrsp : stored.loadAt .q (offset L.cpuInfo 8) = u.reg .rsp := by
    rw [Machine.loadAt_storeAt, trunc_q]
  have hdcntr : stored.loadAt .l (offset L.cpuInfo 24) = 0#64 := by
    rw [Machine.loadAt_storeAt_of_clear _
      (clear_cpu L (by decide) (by decide) (by decide) (by decide)),
      Machine.loadAt_storeAt_of_clear _
      (clear_cpu L (by decide) (by decide) (by decide) (by decide))]
    exact hu.dcntr
  let onStack := stored.setReg .rsp L.top
  have hdeep : Deep L onStack 0 := (BitVec.sub_zero L.top).symm
  refine Leaves.go (s := swapped) ?_ (Leaves.go (s := swapped.storeAt .q (offset L.cpuInfo 0)
    (u.reg .r15)) ?_ (Leaves.go (s := stored) ?_
    (Leaves.go (s := stored.setReg .rsp L.kernelStack) ?_
    (Leaves.go (s := onStack) ?_ (Leaves.pushes (h _ ?_))))))
  · show Next.go ((u.syscall.setMsr msrGsBase (u.msr msrKernelGsBase)).setMsr msrKernelGsBase
      (u.msr msrGsBase)) = _
    rw [hu.kernelGs]
  · show Next.go (swapped.storeAt .q (swapped.msr msrGsBase + 0#64) (trunc .q (u.reg .r15))) = _
    rw [trunc_q]
    rfl
  · show Next.go (Machine.storeAt _ .q (swapped.msr msrGsBase + 8#64) (trunc .q (u.reg .rsp))) = _
    rw [trunc_q]
    rfl
  · show Next.go (stored.setReg .rsp (trunc .q L.kernelStack)) = _
    rw [trunc_q]
  · show Next.go ((stored.setReg .rsp L.kernelStack).setReg .rsp
      (stored.loadAt .q (L.kernelStack + 0#64))) = _
    rw [BitVec.add_zero, hvar, Machine.setReg_setReg]
  · have hpushed := onStack.sameBut_pushAll [.rbp, .rcx, .r11]
    have hstack := (Machine.stack_nil onStack).pushAll [.rbp, .rcx, .r11] (by decide)
      (by decide)
    have hstackOnly : StackOnly L stored (onStack.pushAll [.rbp, .rcx, .r11]) :=
      StackOnly.pushAll (s := onStack) (fun _ _ => rfl) hdeep
        (by simp only [List.length_cons, List.length_nil]; omega)
    exact
      { reg := fun r hr => by
          rw [Machine.reg_pushAll _ _ hr, Machine.reg_setReg, if_neg hr]
          rfl
        deep := hdeep.pushAll [.rbp, .rcx, .r11]
        stack := hstack
        cs := by
          rw [hpushed.cs]
          show trunc .w (u.msr msrStar >>> 32) &&& ~~~3#64 = kernelCs
          rw [hu.star]
          decide
        flags := by
          rw [Machine.flag, hpushed.rflags]
          show (u.rflags &&& ~~~u.msr msrSfmask).getLsbD trapFlag = false
          rw [hu.sfmask, BitVec.getLsbD_and,
            show (~~~singleStepF).getLsbD trapFlag = false from rfl, Bool.and_false]
        gs := by rw [hpushed.msr]; rfl
        kernelGs := by rw [hpushed.msr]; rfl
        msr := fun i hi hi' => by
          rw [hpushed.msr]
          show (if i = msrKernelGsBase then _ else if i = msrGsBase then _ else u.msr i) = _
          rw [if_neg hi', if_neg hi]
        r15 := (hstackOnly.loadCpu hL (by decide)).trans hr15
        rsp := (hstackOnly.loadCpu hL (by decide)).trans hrsp
        dcntr := (hstackOnly.loadCpu hL (by decide)).trans hdcntr
        mem := hkeeps.trans hstackOnly.keepsMem }

/-! ## The way out -/

/-- What the end of the code relies on; `r10` and the registers that C hands over are as they
are in `m`. -/
structure Leaving (L : Layout) (u m : Machine) : Prop where
  stack : m.Stack [u.rflags, u.rip, u.reg .rbp]
  saved : ∀ r ∈ [Reg.rbx, .r12, .r13, .r14], m.reg r = u.reg r
  gs : m.msr msrGsBase = L.cpuInfo
  star : m.msr msrStar = u.msr msrStar
  lstar : m.msr msrLstar = u.msr msrLstar
  sfmask : m.msr msrSfmask = u.msr msrSfmask
  r15 : m.loadAt .q (offset L.cpuInfo 0) = u.reg .r15
  rsp : m.loadAt .q (offset L.cpuInfo 8) = u.reg .rsp
  dcntr : m.loadAt .l (offset L.cpuInfo 24) = 0#64
  var : loadWord m.mem L.kernelStack = L.top

/-- What the end of the code gives back. -/
structure Left (L : Layout) (u m u' : Machine) : Prop where
  atUser : AtUser L u'
  rip : u'.rip = u.rip
  rflags : u'.rflags = (u.rflags &&& sysretMask) ||| 2#64
  saved : ∀ r ∈ calleeSaved, u'.reg r = u.reg r
  rcx : u'.reg .rcx = u.rip
  r11 : u'.reg .r11 = u.rflags
  kept : ∀ r ∈ [Reg.rax, .rdi, .rsi, .rdx, .r8, .r9, .r10], u'.reg r = m.reg r
  gs : u'.msr msrGsBase = m.msr msrKernelGsBase
  mem : u'.mem = m.mem

/-- The machine before the `sysret`: the saved registers are popped, the stack pointer and `r15`
are read back and `%gs` is swapped. -/
def beforeSysret (L : Layout) (u m : Machine) : Machine :=
  ((((m.popAll [.r11, .rcx, .rbp]).setReg .r15 (u.reg .r15)).setReg .rsp (u.reg .rsp)).setMsr
    msrGsBase (m.msr msrKernelGsBase)).setMsr msrKernelGsBase L.cpuInfo

section Leaving

variable {L : Layout} {u m : Machine}

theorem Leaving.popped (hm : Leaving L u m) :
    (m.popAll [.r11, .rcx, .rbp]).reg .r11 = u.rflags ∧
      (m.popAll [.r11, .rcx, .rbp]).reg .rcx = u.rip ∧
      (m.popAll [.r11, .rcx, .rbp]).reg .rbp = u.reg .rbp := by
  have hstack : m.Stack ([u.rflags, u.rip, u.reg .rbp] ++ []) := hm.stack
  obtain ⟨-, hregs⟩ := hstack.popAll [.r11, .rcx, .rbp] rfl (by decide) (by decide)
  exact ⟨(List.cons.inj hregs).1, (List.cons.inj (List.cons.inj hregs).2).1,
    (List.cons.inj (List.cons.inj (List.cons.inj hregs).2).2).1⟩

theorem reg_sysret {r : Reg} (h15 : r ≠ .r15) (hsp : r ≠ .rsp) :
    (beforeSysret L u m).sysret.reg r = (m.popAll [.r11, .rcx, .rbp]).reg r := by
  show (if r = .rsp then _ else if r = .r15 then _ else (m.popAll [.r11, .rcx, .rbp]).reg r) = _
  rw [if_neg hsp, if_neg h15]

/-- The registers that are not on the stack. -/
theorem reg_sysret_of_notMem {r : Reg} (hr : r ∉ [Reg.r11, .rcx, .rbp, .rsp, .r15]) :
    (beforeSysret L u m).sysret.reg r = m.reg r := by
  rw [reg_sysret (fun heq => hr (by simp [heq])) fun heq => hr (by simp [heq])]
  exact m.reg_popAll_of_notMem _ (fun hmem => hr (by simp_all)) (fun heq => hr (by simp [heq]))

theorem msr_beforeSysret {i : Word} (hgs : i ≠ msrGsBase) (hkernel : i ≠ msrKernelGsBase) :
    (beforeSysret L u m).msr i = m.msr i := by
  have hpopped := m.sameBut_popAll [.r11, .rcx, .rbp]
  show (if i = msrKernelGsBase then _ else if i = msrGsBase then _
    else (m.popAll [.r11, .rcx, .rbp]).msr i) = _
  rw [if_neg hkernel, if_neg hgs, hpopped.msr]

theorem mem_beforeSysret : (beforeSysret L u m).mem = m.mem := m.mem_popAll [.r11, .rcx, .rbp]

/-- `sysret` gives the program its selectors. -/
theorem Leaving.atUser (hu : AtUser L u) (hm : Leaving L u m) :
    AtUser L (beforeSysret L u m).sysret := by
  have hmem := mem_beforeSysret (L := L) (u := u) (m := m)
  have hmsr := fun i => msr_beforeSysret (L := L) (u := u) (m := m) (i := i)
  have hstar : (beforeSysret L u m).msr msrStar >>> 48 = userDs - 8#64 := by
    rw [hmsr msrStar (by decide) (by decide), hm.star]
    have hhigh : (u.msr msrStar >>> 32) >>> 16 = userDs - 8#64 := by
      rw [hu.star]
      decide
    rwa [← BitVec.shiftRight_add] at hhigh
  exact
    { cs := by
        show ((beforeSysret L u m).msr msrStar >>> 48) + 16#64 ||| 3#64 = _
        rw [hstar]
        decide
      ss := by
        show ((beforeSysret L u m).msr msrStar >>> 48) + 8#64 ||| 3#64 = _
        rw [hstar]
        decide
      kernelGs := rfl
      star := by
        show (beforeSysret L u m).msr msrStar >>> 32 = _
        rw [hmsr msrStar (by decide) (by decide), hm.star]
        exact hu.star
      lstar := (hmsr msrLstar (by decide) (by decide)).trans (hm.lstar.trans hu.lstar)
      sfmask := (hmsr msrSfmask (by decide) (by decide)).trans (hm.sfmask.trans hu.sfmask)
      var := by
        show loadWord (beforeSysret L u m).mem L.kernelStack = _
        rw [hmem, hm.var]
      dcntr := by
        rw [← hm.dcntr]
        exact loadAt_congr fun _ _ => congrFun hmem _ }

theorem Leaving.left (hu : AtUser L u) (hm : Leaving L u m) :
    Left L u m (beforeSysret L u m).sysret := by
  obtain ⟨hr11, hrcx, hrbp⟩ := hm.popped
  have hsaved : ∀ r ∈ [Reg.rbx, .r12, .r13, .r14],
      (beforeSysret L u m).sysret.reg r = u.reg r := by
    intro r hr
    rw [reg_sysret_of_notMem (by revert hr; cases r <;> simp), hm.saved r hr]
  exact
    { atUser := hm.atUser hu
      rip := by
        show (beforeSysret L u m).sysret.reg .rcx = _
        rw [reg_sysret (by decide) (by decide), hrcx]
      rflags := by
        show ((beforeSysret L u m).sysret.reg .r11 &&& sysretMask) ||| 2#64 = _
        rw [reg_sysret (by decide) (by decide), hr11]
      saved := by
        intro r hr
        simp only [calleeSaved, List.mem_cons, List.not_mem_nil, or_false] at hr
        rcases hr with rfl | rfl | rfl | rfl | rfl | rfl | rfl
        · exact hsaved _ (by decide)
        · rw [reg_sysret (by decide) (by decide), hrbp]
        · rfl
        · exact hsaved _ (by decide)
        · exact hsaved _ (by decide)
        · exact hsaved _ (by decide)
        · rfl
      rcx := by rw [reg_sysret (by decide) (by decide), hrcx]
      r11 := by rw [reg_sysret (by decide) (by decide), hr11]
      kept := fun r hr => reg_sysret_of_notMem (by revert hr; cases r <;> simp)
      gs := rfl
      mem := by
        show (beforeSysret L u m).mem = _
        exact mem_beforeSysret }

end Leaving

theorem left_runs {L : Layout} {fns : Functions Fn} {u m : Machine} {code : List (Item Label Fn)}
    {Q : Option Machine → Prop} (hu : AtUser L u) (hm : Leaving L u m)
    (h : ∀ u', Left L u m u' → Q (some u')) :
    Leaves fns code
      (.label .syscallEntryBail :: (pops [.r11, .rcx, .rbp]
        ++ [ins (.mov .q (.of (.gs cpuTmpR15)) (.reg .r15)),
          ins (.mov .q (.of (.gs cpuTmpRsp)) (.reg .rsp)),
          ins .swapgs,
          ins .sysret])) m Q := by
  let popped := m.popAll [.r11, .rcx, .rbp]
  have hpopped := m.sameBut_popAll [.r11, .rcx, .rbp]
  have hmem : popped.mem = m.mem := m.mem_popAll [.r11, .rcx, .rbp]
  have hgs : popped.msr msrGsBase = L.cpuInfo := by rw [hpopped.msr]; exact hm.gs
  have hload : ∀ size a, popped.loadAt size a = m.loadAt size a :=
    fun _ _ => loadAt_congr fun _ _ => congrFun hmem _
  let restored := (popped.setReg .r15 (u.reg .r15)).setReg .rsp (u.reg .rsp)
  refine Leaves.label (Leaves.pops (Leaves.go (s := popped.setReg .r15 (u.reg .r15)) ?_
    (Leaves.go (s := restored) ?_ (Leaves.go (s := beforeSysret L u m) ?_
    (Leaves.leave (s := (beforeSysret L u m).sysret) rfl (h _ (hm.left hu)))))))
  · show Next.go (popped.setReg .r15 (popped.loadAt .q (popped.msr msrGsBase + 0#64))) = _
    rw [hgs, hload, show L.cpuInfo + 0#64 = offset L.cpuInfo 0 from rfl, hm.r15]
  · show Next.go ((popped.setReg .r15 (u.reg .r15)).setReg .rsp
      (popped.loadAt .q (popped.msr msrGsBase + 8#64))) = _
    rw [hgs, hload, show L.cpuInfo + 8#64 = offset L.cpuInfo 8 from rfl, hm.rsp]
  · show Next.go ((restored.setMsr msrGsBase (popped.msr msrKernelGsBase)).setMsr msrKernelGsBase
      (popped.msr msrGsBase)) = _
    rw [hgs, hpopped.msr]
    rfl

/-! ## The whole of it -/

/-- The end of the code, from the label on. -/
def syscallExit : List (Item Label Fn) :=
  .label .syscallEntryBail :: (pops [.r11, .rcx, .rbp]
    ++ [ins (.mov .q (.of (.gs cpuTmpR15)) (.reg .r15)),
      ins (.mov .q (.of (.gs cpuTmpRsp)) (.reg .rsp)),
      ins .swapgs,
      ins .sysret])

theorem target_syscallEntryBail (L : Layout) :
    target (syscallEntry L) .syscallEntryBail = syscallExit := rfl

theorem Entered.var {L : Layout} (hL : L.Sound) {u m : Machine} (h : Entered L u m)
    (hu : AtUser L u) : loadWord m.mem L.kernelStack = L.top := by
  rw [← hu.var]
  exact loadWord_congr fun i hi => h.mem.run hL.var hL.cpuVar hi

/-- What has only been compared can leave at once. -/
theorem Entered.leaving {L : Layout} (hL : L.Sound) {u m m' : Machine} (h : Entered L u m)
    (hu : AtUser L u) (hreg : m'.reg = m.reg) (hmem : m'.mem = m.mem) (hmsr : m'.msr = m.msr) :
    Leaving L u m' := by
  have hload : ∀ size a, m'.loadAt size a = m.loadAt size a :=
    fun _ _ => loadAt_congr fun _ _ => congrFun hmem _
  exact
    { stack := h.stack.congr (congrFun hreg _) hmem
      saved := fun r hr => by
        rw [hreg, h.reg r (by rintro rfl; simp at hr)]
        revert hr
        cases r <;> simp [Machine.syscall]
      gs := by rw [hmsr, h.gs]
      star := by rw [hmsr, h.msr _ (by decide) (by decide)]
      lstar := by rw [hmsr, h.msr _ (by decide) (by decide)]
      sfmask := by rw [hmsr, h.msr _ (by decide) (by decide)]
      r15 := by rw [hload, h.r15]
      rsp := by rw [hload, h.rsp]
      dcntr := by rw [hload, h.dcntr]
      var := by rw [hmem, h.var hL hu] }

theorem Left.bailedOut {L : Layout} {u m m' u' : Machine} (h : Left L u m' u')
    (hm : Entered L u m) (hreg : m'.reg = m.reg) (hmem : m'.mem = m.mem) (hmsr : m'.msr = m.msr) :
    BailedOut L u u' where
  atUser := h.atUser
  rip := h.rip
  rflags := h.rflags
  rcx := h.rcx
  r11 := h.r11
  same := by
    intro r hrcx hr11
    by_cases hsaved : r ∈ calleeSaved
    · exact h.saved r hsaved
    · rw [h.kept r (by revert hsaved hrcx hr11; cases r <;> simp [calleeSaved]), hreg,
        hm.reg r (by rintro rfl; exact hsaved (by decide))]
      revert hrcx hr11
      cases r <;> simp [Machine.syscall]
  gs := by rw [h.gs, hmsr, hm.kernelGs]
  mem := by
    intro b hb
    rw [h.mem, hmem]
    exact hm.mem b hb

/-- A number in the table is a small one. -/
theorem toNat_of_inTable {v : Word} (hneg : v.slt 0#64 = false) (hlt : v.slt syscallMax = true) :
    v.toNat < 315 := by
  rw [BitVec.slt, decide_eq_false_iff_not] at hneg
  rw [BitVec.slt, decide_eq_true_iff] at hlt
  have hzero : (0#64).toInt = 0 := rfl
  have hmax : syscallMax.toInt = 315 := rfl
  have hcond := BitVec.toInt_eq_toNat_cond (x := v)
  have hv := v.isLt
  rw [hzero] at hneg
  rw [hmax] at hlt
  split at hcond <;> omega

/-- The entry of the table is read as the program has left it. -/
theorem Entered.handler {L : Layout} (hL : L.Sound) {u m : Machine} (h : Entered L u m)
    (hn : (u.reg .rax).toNat < 315) :
    m.loadAt .q (L.syscallTable + u.reg .rax * 8#64) = handlerAt L u := by
  have haddr : L.syscallTable + u.reg .rax * 8#64
      = offset L.syscallTable (8 * (u.reg .rax).toNat) := by
    rw [offset]
    congr 1
    apply BitVec.eq_of_toNat_eq
    rw [BitVec.toNat_mul, BitVec.toNat_ofNat, BitVec.toNat_ofNat, Nat.mul_comm]
  refine loadAt_congr fun i hi => ?_
  rw [haddr, offset_offset]
  have hi8 : i < 8 := hi
  exact h.mem.run hL.table hL.cpuTable (by omega)

/-- A number without a place in the table: nothing is called. -/
theorem bailedOut_runs {L : Layout} {fns : Functions Fn} {u m m' : Machine} (hL : L.Sound)
    (hu : AtUser L u) (hm : Entered L u m) (hreg : m'.reg = m.reg) (hmem : m'.mem = m.mem)
    (hmsr : m'.msr = m.msr) (hout : inTable u = false) :
    Leaves fns (syscallEntry L) (target (syscallEntry L) .syscallEntryBail) m'
      (SyscallEnds L fns u) := by
  rw [target_syscallEntryBail]
  refine left_runs hu (hm.leaving hL hu hreg hmem hmsr) fun u' hu' => ?_
  rw [SyscallEnds, hout]
  exact ⟨u', rfl, hu'.bailedOut hm hreg hmem hmsr⟩

/-- The function of the table is about to be called. -/
theorem Entered.atCall {L : Layout} {u m c : Machine} (hm : Entered L u m) {v : Word}
    (hreg : c.reg = m.reg) (hmem : c.mem = m.mem) (hmsr : c.msr = m.msr) (hcs : c.cs = m.cs)
    (hflag : c.flag trapFlag = m.flag trapFlag) :
    AtCall L u ((c.setReg .rcx (u.reg .r10)).setReg .r15 v) where
  same := by
    intro r hr
    have hne : r ≠ .rcx ∧ r ≠ .r15 ∧ r ≠ .rsp ∧ r ≠ .r11 := by
      revert hr
      cases r <;> simp
    show (if r = .r15 then _ else if r = .rcx then _ else c.reg r) = _
    rw [if_neg hne.2.1, if_neg hne.1, hreg, hm.reg r hne.2.2.1]
    show (if r = .r11 then _ else if r = .rcx then _ else u.reg r) = _
    rw [if_neg hne.2.2.2, if_neg hne.1]
  rcx := rfl
  rsp := (congrFun hreg _).trans hm.deep
  cs := hcs.trans hm.cs
  gs := (congrFun hmsr _).trans hm.gs
  kernelGs := (congrFun hmsr _).trans hm.kernelGs
  flags := hflag.trans hm.flags
  mem := fun b hb => (congrFun hmem b).trans (hm.mem b hb)

/-- What the function has come back with can leave. -/
theorem Returns.leaving {L : Layout} {u m mc m' : Machine} (hret : Returns L mc m')
    (hL : L.Sound) (hu : AtUser L u) (hm : Entered L u m) (hcall : AtCall L u mc)
    (hmem : mc.mem = m.mem) (hmsr : mc.msr = m.msr) :
    Leaving L u (m'.setReg .r10 (m'.reg .rcx)) := by
  have hsize := hL.size
  have hroom := hL.room
  have hrsp : mc.reg .rsp = m.reg .rsp := Eq.trans hcall.rsp hm.deep.symm
  have hload : ∀ {size : Width} {i : Nat}, i + size.bytes ≤ 168 →
      m'.loadAt size (offset L.cpuInfo i) = m.loadAt size (offset L.cpuInfo i) := fun hi =>
    (hret.loadCpu hi).trans (loadAt_congr fun _ _ => congrFun hmem _)
  have hkept : ∀ i, i ≠ msrGsBase → i ≠ msrKernelGsBase → mc.msr i = u.msr i := fun i hi hi' =>
    (congrFun hmsr i).trans (hm.msr i hi hi')
  exact
    { stack := (Machine.Stack.returns (hm.stack.congr hrsp hmem : mc.Stack _) hcall.rsp
        (Nat.le_refl 24) (by decide) hret).congr rfl rfl
      saved := by
        intro r hr
        have hne : r ≠ .r10 := by rintro rfl; simp at hr
        rw [Machine.reg_setReg, if_neg hne,
          hret.saved r (by revert hr; cases r <;> simp [calleeSaved])]
        exact hcall.same r (by revert hr; cases r <;> simp)
      gs := hret.gs.trans hcall.gs
      star := hret.star.trans (hkept _ (by decide) (by decide))
      lstar := hret.lstar.trans (hkept _ (by decide) (by decide))
      sfmask := hret.sfmask.trans (hkept _ (by decide) (by decide))
      r15 := (hload (by decide)).trans hm.r15
      rsp := (hload (by decide)).trans hm.rsp
      dcntr := (hload (by decide)).trans hm.dcntr
      var := by
        rw [← hm.var hL hu, ← hmem]
        exact loadWord_congr hret.var }

/-- The program goes on with what the function has come back with. -/
theorem Left.resumed {L : Layout} {u m u' : Machine}
    (h : Left L u (m.setReg .r10 (m.reg .rcx)) u') : Resumed L u m u' where
  atUser := h.atUser
  rip := h.rip
  rflags := h.rflags
  saved := h.saved
  rcx := h.rcx
  r11 := h.r11
  result := by
    intro r hr
    have hne : r ≠ .r10 := by rintro rfl; simp at hr
    rw [h.kept r (by revert hr; cases r <;> simp), Machine.reg_setReg, if_neg hne]
  r10 := (h.kept .r10 (by decide)).trans rfl
  gs := h.gs
  mem := h.mem

/-- The call of a function of the table and the way out; `c` is `m` after the comparisons. -/
theorem called_runs {L : Layout} {fns : Functions Fn} {u m c : Machine} (hL : L.Sound)
    (hret : CallReturns L fns u) (hu : AtUser L u) (hm : Entered L u m) (hin : inTable u = true)
    (hn : (u.reg .rax).toNat < 315) (hreg : c.reg = m.reg) (hmem : c.mem = m.mem)
    (hmsr : c.msr = m.msr) (hcs : c.cs = m.cs) (hflag : c.flag trapFlag = m.flag trapFlag) :
    Leaves fns (syscallEntry L)
      (ins (.mov .q (.of (.reg .r10)) (.reg .rcx))
      :: ins (.mov .q (.imm L.syscallTable) (.reg .r15))
      :: ins (.mov .q (.of (.index .r15 .rax 8#64)) (.reg .r15))
      :: ins (.callReg .r15)
      :: ins (.mov .q (.of (.reg .rcx)) (.reg .r10))
      :: syscallExit) c (SyscallEnds L fns u) := by
  have hrax : c.reg .rax = u.reg .rax := by rw [hreg, hm.reg .rax (by decide)]; rfl
  have hr10 : c.reg .r10 = u.reg .r10 := by rw [hreg, hm.reg .r10 (by decide)]; rfl
  have hentry : c.loadAt .q (L.syscallTable + u.reg .rax * 8#64) = handlerAt L u :=
    (loadAt_congr fun _ _ => congrFun hmem _).trans (hm.handler hL hn)
  let mc := (c.setReg .rcx (u.reg .r10)).setReg .r15 (handlerAt L u)
  have hcall : AtCall L u mc := hm.atCall hreg hmem hmsr hcs hflag
  refine Leaves.go (s := c.setReg .rcx (u.reg .r10)) ?_
    (Leaves.go (s := (c.setReg .rcx (u.reg .r10)).setReg .r15 L.syscallTable) ?_
    (Leaves.go (s := mc) ?_ (Leaves.callReg (fun m' hback => ?_) fun hgone => ?_)))
  · show Next.go (c.setReg .rcx (trunc .q (c.reg .r10))) = _
    rw [trunc_q, hr10]
  · show Next.go ((c.setReg .rcx (u.reg .r10)).setReg .r15 (trunc .q L.syscallTable)) = _
    rw [trunc_q]
  · show Next.go (((c.setReg .rcx (u.reg .r10)).setReg .r15 L.syscallTable).setReg .r15
      (c.loadAt .q (L.syscallTable + c.reg .rax * 8#64))) = _
    rw [hrax, hentry, Machine.setReg_setReg]
  · have hback' : fns.at' (handlerAt L u) mc = some m' := hback
    have hleave := (hret mc m' hcall hback').leaving hL hu hm hcall hmem hmsr
    refine Leaves.go (s := m'.setReg .r10 (m'.reg .rcx)) ?_
      (left_runs hu hleave fun u' hu' => ?_)
    · show Next.go (m'.setReg .r10 (trunc .q (m'.reg .rcx))) = _
      rw [trunc_q]
    · rw [SyscallEnds, hin]
      refine ⟨mc, hcall, ?_⟩
      rw [hback']
      exact ⟨u', rfl, hu'.resumed⟩
  · have hgone' : fns.at' (handlerAt L u) mc = none := hgone
    rw [SyscallEnds, hin]
    refine ⟨mc, hcall, ?_⟩
    rw [hgone']

theorem syscallEntry_ends {L : Layout} {fns : Functions Fn} {u : Machine} (hL : L.Sound)
    (hret : CallReturns L fns u) (hu : AtUser L u) :
    Leaves fns (syscallEntry L) (syscallEntry L) u.syscall (SyscallEnds L fns u) := by
  refine entered_runs hL hu fun m hm => ?_
  have hrax : m.reg .rax = u.reg .rax := hm.reg .rax (by decide)
  refine Leaves.go (s := m.subFlags .q (u.reg .rax) 0#64) ?_ ?_
  · show Next.go (m.subFlags .q (trunc .q (m.reg .rax)) (trunc .q 0#64)) = _
    rw [trunc_q, trunc_q, hrax]
  by_cases hneg : (u.reg .rax).slt 0#64 = true
  · -- a negative number
    have hout : inTable u = false := by rw [inTable, hneg]; rfl
    refine Leaves.taken (by rw [holds_l_cmp, hneg]) ?_
    exact bailedOut_runs hL hu hm rfl rfl rfl hout
  rw [Bool.not_eq_true] at hneg
  refine Leaves.notTaken (by rw [holds_l_cmp, hneg]) ?_
  refine Leaves.go (s := (m.subFlags .q (u.reg .rax) 0#64).subFlags .q (u.reg .rax) syscallMax)
    ?_ ?_
  · show Next.go ((m.subFlags .q (u.reg .rax) 0#64).subFlags .q (trunc .q (m.reg .rax))
      (trunc .q syscallMax)) = _
    rw [trunc_q, trunc_q, hrax]
  by_cases hlt : (u.reg .rax).slt syscallMax = true
  · have hin : inTable u = true := by rw [inTable, hneg, hlt]; rfl
    refine Leaves.notTaken (by rw [holds_ge_cmp, hlt]; rfl) ?_
    exact called_runs hL hret hu hm hin (toNat_of_inTable hneg hlt) rfl rfl rfl rfl
      ((flag_subFlags _ _ _ _ (by decide)).trans (flag_subFlags _ _ _ _ (by decide)))
  · -- a number behind the table
    rw [Bool.not_eq_true] at hlt
    have hout : inTable u = false := by rw [inTable, hlt, Bool.and_false]
    refine Leaves.taken (by rw [holds_ge_cmp, hlt]; rfl) ?_
    exact bailedOut_runs hL hu hm rfl rfl rfl hout

/-- A system call whose function keeps the calling convention comes back exactly if the function
does, and if its number has none it comes back at once: to the next instruction, on the
program's own stack and with the registers that C gives back. -/
theorem syscall_comesBack {L : Layout} {fns : Functions Fn} {u : Machine} (hL : L.Sound)
    (hret : CallReturns L fns u) (hu : AtUser L u) :
    if inTable u then
      ∃ mc, AtCall L u mc ∧
        ((∃ u', LeftWith fns (syscallEntry L) u.syscall u') ↔
          ∃ m, fns.at' (handlerAt L u) mc = some m) ∧
        ∀ u', LeftWith fns (syscallEntry L) u.syscall u' →
          ∃ m, fns.at' (handlerAt L u) mc = some m ∧ Resumed L u m u'
    else
      (∃ u', LeftWith fns (syscallEntry L) u.syscall u') ∧
        ∀ u', LeftWith fns (syscallEntry L) u.syscall u' → BailedOut L u u' := by
  have hleaves := syscallEntry_ends hL hret hu
  obtain ⟨n, x, hrun, hends⟩ := hleaves
  have hunique : ∀ u', LeftWith fns (syscallEntry L) u.syscall u' → x = some u' :=
    fun u' h => h.of_leaves (Q := fun y => x = y) ⟨n, x, hrun, rfl⟩
  rw [SyscallEnds] at hends
  split
  · next hin =>
      rw [if_pos hin] at hends
      obtain ⟨mc, hcall, hends⟩ := hends
      cases hback : fns.at' (handlerAt L u) mc with
      | some m =>
          rw [hback] at hends
          obtain ⟨u', rfl, hresumed⟩ := hends
          refine ⟨mc, hcall, ⟨fun _ => ⟨m, hback⟩, fun _ => ⟨u', n, hrun⟩⟩, fun v hv => ?_⟩
          obtain rfl := Option.some.inj (hunique v hv)
          exact ⟨m, hback, hresumed⟩
      | none =>
          rw [hback] at hends
          have hnone : ∀ v, ¬ LeftWith fns (syscallEntry L) u.syscall v := fun v hv => by
            rw [hends] at hunique
            exact absurd (hunique v hv) (by simp)
          exact ⟨mc, hcall, ⟨fun ⟨v, hv⟩ => absurd hv (hnone v), fun ⟨m, hm⟩ => absurd hm (by
            rw [hback]; simp)⟩, fun v hv => absurd hv (hnone v)⟩
  · next hin =>
      rw [if_neg hin] at hends
      obtain ⟨u', rfl, hout⟩ := hends
      refine ⟨⟨u', n, hrun⟩, fun v hv => ?_⟩
      obtain rfl := Option.some.inj (hunique v hv)
      exact hout

/-- Where things may lie. -/
def sampleLayout : Layout where
  cpuInfo := 0x10000#64
  kernelStack := 0x20000#64
  syscallTable := 0x30000#64
  syscallEntry := 0x40000#64
  lc0 := 0x50000#64
  lc1 := 0x60000#64
  top := 0x100000#64
  stackSize := 0x14000

/-- Faults are handled, and `brk` gives the end of the heap. -/
def sampleFns : Functions Fn where
  named
    | .kernelExit, _ => none
    | .handleUserPageFault, m => some (m.setReg .rax 1#64)
    | .checkVersion, m => some (m.setReg .rax 1#64)
    | _, m => some (m.setReg .rax 0#64)
  at' _ m := some (m.setReg .rax 0x600000#64)

/-- A program that calls `brk`. -/
def sampleUser : Machine where
  reg r := if r = .rax then 12#64 else 0x7000#64
  rip := 0x400000#64
  rflags := 0x202#64
  cs := userCs ||| 3#64
  ss := userDs ||| 3#64
  msr i :=
    if i = msrKernelGsBase then 0x10000#64
    else if i = msrStar then (kernelCs ||| (userDs - 8#64) <<< 16) <<< 32
    else if i = msrLstar then 0x40000#64
    else if i = msrSfmask then singleStepF
    else 0#64
  cr2 := 0#64
  mem := store (fun _ => 0#8) 0x20000#64 (wordBytes 0x100000#64)

theorem sampleLayout_sound : sampleLayout.Sound := by
  constructor <;> decide

theorem returns_setRax (L : Layout) (m : Machine) (v : Word) : Returns L m (m.setReg .rax v) := by
  constructor
  case saved =>
    intro r hr
    rw [Machine.reg_setReg, if_neg (by rintro rfl; simp [calleeSaved] at hr)]
  all_goals intros; rfl

theorem sampleFns_named {f : Fn} {m m' : Machine} (h : sampleFns.named f m = some m') :
    ∃ v, m' = m.setReg .rax v := by
  cases f
  case kernelExit => exact absurd h (by simp [sampleFns])
  all_goals
    cases h
    exact ⟨_, rfl⟩

theorem sampleFns_abi : Abi sampleLayout sampleFns := by
  constructor
  · intro f m m' h
    obtain ⟨v, rfl⟩ := sampleFns_named h
    exact returns_setRax sampleLayout m v
  · intro f m m' h
    obtain ⟨v, rfl⟩ := sampleFns_named h
    rfl
  · intro m
    rfl

/-- `brk` only gives its result. -/
theorem sampleFns_callReturns (u : Machine) : CallReturns sampleLayout sampleFns u := by
  intro mc m _ h
  cases h
  exact returns_setRax sampleLayout mc _

theorem sampleUser_atUser : AtUser sampleLayout sampleUser := by
  constructor <;> decide

theorem syscall_comesBack_brk : inTable sampleUser = true ∧
    (if inTable sampleUser then
      ∃ mc, AtCall sampleLayout sampleUser mc ∧
        ((∃ u', LeftWith sampleFns (syscallEntry sampleLayout) sampleUser.syscall u') ↔
          ∃ m, sampleFns.at' (handlerAt sampleLayout sampleUser) mc = some m) ∧
        ∀ u', LeftWith sampleFns (syscallEntry sampleLayout) sampleUser.syscall u' →
          ∃ m, sampleFns.at' (handlerAt sampleLayout sampleUser) mc = some m ∧
            Resumed sampleLayout sampleUser m u'
    else
      (∃ u', LeftWith sampleFns (syscallEntry sampleLayout) sampleUser.syscall u') ∧
        ∀ u', LeftWith sampleFns (syscallEntry sampleLayout) sampleUser.syscall u' →
          BailedOut sampleLayout sampleUser u') :=
  ⟨by decide, syscall_comesBack sampleLayout_sound (sampleFns_callReturns _) sampleUser_atUser⟩

end BufferVM
