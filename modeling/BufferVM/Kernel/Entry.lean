/-
  Kernel/Entry.lean --- the ways into the kernel, and the calling convention behind them.

  The code is `syscall.S`, `page_fault.S`, `idt.S`, `cpu.S` and the end of `start.S`, line by
  line.  What the linker and the host decide, where the symbols lie and where the stack
  ends, is a `Layout`.  The functions of C behind a `call` are any; one that comes back is
  taken to keep the calling convention: it gives the callee-saved registers back and leaves
  what lies above the stack pointer alone, and so the words that the entry code keeps for
  itself.
-/
import BufferVM.Lib.X86Stack
import BufferVM.Kernel.VersionStore

set_option autoImplicit false

namespace BufferVM

open X86 ByteMem

/-! ## Constants -/

/-- `USER_CS`, the selector of the code of a program. -/
def userCs : Word := 0x30#64
/-- `USER_DS`, that of its data. -/
def userDs : Word := 0x28#64
/-- `SINGLE_STEP_F`. -/
def singleStepF : Word := 0x100#64
/-- `SYSCALL_NO_LINUX + SYSCALL_BUFFERVM`. -/
def syscallMax : Word := 315#64

/-- The fields of `cpu_info`, from `%gs` on. -/
def cpuTmpR15 : Word := 0#64
def cpuTmpRsp : Word := 8#64
def cpuTmpDsp : Word := 16#64
def cpuTmpDcntr : Word := 24#64
def cpuInKern : Word := 32#64
def cpuRegBase : Word := 40#64

/-- The places in `cpu_info` that `pushAllRegs` and `popAllRegs` use, `%rsp` apart. -/
def cpuRegs : List (Reg × Word) :=
  [(.rax, cpuRegBase), (.rdi, cpuRegBase + 8#64), (.rsi, cpuRegBase + 16#64),
    (.rdx, cpuRegBase + 24#64), (.rcx, cpuRegBase + 32#64), (.rbx, cpuRegBase + 40#64),
    (.rbp, cpuRegBase + 56#64), (.r8, cpuRegBase + 64#64), (.r9, cpuRegBase + 72#64),
    (.r10, cpuRegBase + 80#64), (.r11, cpuRegBase + 88#64), (.r12, cpuRegBase + 96#64),
    (.r13, cpuRegBase + 104#64), (.r14, cpuRegBase + 112#64), (.r15, cpuRegBase + 120#64)]

/-- `CPU_REG_RSP`. -/
def cpuRegRsp : Word := cpuRegBase + 48#64

/-! ## Symbols -/

/-- The labels that the code jumps to. -/
inductive Label where
  | syscallEntryBail
  | kernelPageFault | pageFaultUserExit | pageFaultExit | unhandledPageFault
  | pageFaultUserCheck | pageFaultVersionCheck | versionError
  | idtDebugExit | idtDebugUserland
  deriving DecidableEq, Repr

/-- The functions that it calls by name. -/
inductive Fn where
  | handleUserPageFault | handleKernelPageFault | checkVersion
  | disassembleAddress | disassembleInstr | printf | kernelExit
  deriving DecidableEq, Repr

/-- Where things are.  `top` is what `kernel_stack` and the task state segment hold. -/
structure Layout where
  cpuInfo : Word
  kernelStack : Word
  syscallTable : Word
  syscallEntry : Word
  lc0 : Word
  lc1 : Word
  top : Word
  stackSize : Nat

namespace Layout

variable (L : Layout)

/-- The low end of the stack. -/
def low : Word := L.top - BitVec.ofNat 64 L.stackSize

/-- The stack lies apart from the data of the kernel, and the data apart from each other. -/
structure Sound : Prop where
  room : 1024 ≤ L.stackSize
  size : L.stackSize < 2 ^ 64
  cpu : Clear L.low L.stackSize L.cpuInfo 168
  var : Clear L.low L.stackSize L.kernelStack 8
  table : Clear L.low L.stackSize L.syscallTable 2520
  cpuVar : Clear L.cpuInfo 168 L.kernelStack 8
  cpuTable : Clear L.cpuInfo 168 L.syscallTable 2520

end Layout

/-! ## The code -/

section Code

/-- A line with an instruction. -/
def ins (i : Instr Label Fn) : Item Label Fn := .instr i

/-- What `pushScratchRegs` pushes. -/
def scratchRegs : List Reg := [.rax, .rdi, .rsi, .rdx, .r8, .r9, .r10, .r11]

/-- `syscall_entry`. -/
def syscallEntry (L : Layout) : List (Item Label Fn) :=
  [ins .swapgs,
    ins (.mov .q (.of (.reg .r15)) (.gs cpuTmpR15)),
    ins (.mov .q (.of (.reg .rsp)) (.gs cpuTmpRsp)),
    ins (.mov .q (.imm L.kernelStack) (.reg .rsp)),
    ins (.mov .q (.of (.mem 0#64 .rsp)) (.reg .rsp))]
  ++ (pushes [.rbp, .rcx, .r11]
  ++ ([ins (.cmp .q (.imm 0#64) (.reg .rax)),
    ins (.jcc .l .syscallEntryBail),
    ins (.cmp .q (.imm syscallMax) (.reg .rax)),
    ins (.jcc .ge .syscallEntryBail),
    -- the fourth argument, where C looks for it
    ins (.mov .q (.of (.reg .r10)) (.reg .rcx)),
    ins (.mov .q (.imm L.syscallTable) (.reg .r15)),
    ins (.mov .q (.of (.index .r15 .rax 8#64)) (.reg .r15)),
    ins (.callReg .r15),
    ins (.mov .q (.of (.reg .rcx)) (.reg .r10)),
    .label .syscallEntryBail]
  ++ (pops [.r11, .rcx, .rbp]
  ++ [ins (.mov .q (.of (.gs cpuTmpR15)) (.reg .r15)),
    ins (.mov .q (.of (.gs cpuTmpRsp)) (.reg .rsp)),
    ins .swapgs,
    ins .sysret])))

/-- `syscall_setup`. -/
def syscallSetup (L : Layout) : List (Item Label Fn) :=
  [ins (.mov .l (.imm singleStepF) (.reg .rax)),
    ins (.mov .l (.imm 0#64) (.reg .rdx)),
    ins (.mov .l (.imm msrSfmask) (.reg .rcx)),
    ins .wrmsr,
    -- the lower half of the selectors' register, which is for 32-bit code, stays as `eax` has it
    ins (.mov .l (.imm (kernelCs ||| (userDs - 8#64) <<< 16)) (.reg .rdx)),
    ins (.mov .l (.imm msrStar) (.reg .rcx)),
    ins .wrmsr,
    ins (.mov .q (.imm L.syscallEntry) (.reg .rcx)),
    ins (.mov .l (.of (.reg .rcx)) (.reg .rax)),
    ins (.shr 32 .rcx),
    ins (.mov .l (.of (.reg .rcx)) (.reg .rdx)),
    ins (.mov .l (.imm msrLstar) (.reg .rcx)),
    ins .wrmsr,
    ins (.mov .l (.imm msrEfer) (.reg .rcx)),
    ins .rdmsr,
    ins (.or .l (.imm 1#64) (.reg .rax)),
    ins .wrmsr,
    ins .ret]

/-- `cpu_init`. -/
def cpuInit (L : Layout) : List (Item Label Fn) :=
  [ins (.mov .w (.imm 0#64) (.reg .rax)),
    ins (.movGs .rax),
    ins (.mov .l (.imm (kernelCs ||| (userDs - 8#64) <<< 16)) (.reg .rdx)),
    ins (.mov .q (.imm L.cpuInfo) (.reg .rcx)),
    ins (.mov .l (.of (.reg .rcx)) (.reg .rax)),
    ins (.shr 32 .rcx),
    ins (.mov .l (.of (.reg .rcx)) (.reg .rdx)),
    ins (.mov .l (.imm msrGsBase) (.reg .rcx)),
    ins .wrmsr,
    ins (.mov .l (.imm 0#64) (.gs cpuTmpDcntr)),
    ins .ret]

/-- `.page_fault_user_exit` and what follows it; `k` is the code behind that. -/
def pageFaultUserExit (k : List (Item Label Fn)) : List (Item Label Fn) :=
  .label .pageFaultUserExit
  :: (pushes scratchRegs
  ++ (ins (.mov .q .cr2 (.reg .rdi))
  :: ins (.mov .q (.of (.mem 64#64 .rsp)) (.reg .rsi))
  :: ins (.mov .q (.of (.mem 72#64 .rsp)) (.reg .rdx))
  :: ins (.call .handleUserPageFault)
  :: ins (.test .q (.of (.reg .rax)) (.reg .rax))
  :: ins (.jcc .e .unhandledPageFault)
  :: (pops scratchRegs.reverse
  ++ (ins (.mov .q (.of (.gs cpuTmpR15)) (.reg .rcx))
  :: ins (.bt 2 (.mem 0#64 .rsp))
  :: ins (.jcc .nc .pageFaultExit)
  :: ins .swapgs
  :: k))))

/-- `.page_fault_exit`. -/
def pageFaultExit (k : List (Item Label Fn)) : List (Item Label Fn) :=
  .label .pageFaultExit
  :: ins (.add .q (.imm 8#64) (.reg .rsp))
  :: ins .iret
  :: k

/-- `.kernel_page_fault`. -/
def kernelPageFault (k : List (Item Label Fn)) : List (Item Label Fn) :=
  .label .kernelPageFault
  :: (pushes scratchRegs
  ++ (ins (.mov .q .cr2 (.reg .rdi))
  -- the fault's code is at 64; what is at 80 is the code segment
  :: ins (.mov .l (.of (.mem 80#64 .rsp)) (.reg .rsi))
  :: ins (.mov .q (.of (.mem 72#64 .rsp)) (.reg .rdx))
  :: ins (.call .handleKernelPageFault)
  :: (pops scratchRegs.reverse
  ++ (ins (.jmp .pageFaultExit)
  :: k))))

/-- `.unhandled_page_fault`. -/
def unhandledPageFault (L : Layout) (k : List (Item Label Fn)) : List (Item Label Fn) :=
  .label .unhandledPageFault
  :: (pops scratchRegs.reverse
  ++ (ins (.mov .q (.imm L.lc0) (.reg .rdi))
  :: ins (.mov .q .cr2 (.reg .rsi))
  :: ins (.mov .q (.of (.mem 8#64 .rsp)) (.reg .rdx))
  :: ins (.mov .q (.of (.mem 0#64 .rsp)) (.reg .rcx))
  :: ins (.mov .q (.of (.mem 24#64 .rsp)) (.reg .r8))
  :: ins (.clr .rax)
  :: ins (.call .printf)
  :: ins (.mov .q (.of (.mem 8#64 .rsp)) (.reg .rdi))
  :: ins (.mov .q (.imm 5#64) (.reg .rsi))
  :: ins (.call .disassembleAddress)
  :: ins (.call .kernelExit)
  :: k))

/-- `.page_fault_user_check`. -/
def pageFaultUserCheck (k : List (Item Label Fn)) : List (Item Label Fn) :=
  .label .pageFaultUserCheck
  :: ins (.mov .q (.of (.mem 0#64 .rsp)) (.reg .rcx))
  :: ins (.bt 0 (.reg .rcx))
  :: ins (.jcc .c .pageFaultVersionCheck)
  :: ins (.jmp .pageFaultUserExit)
  :: k

/-- `.page_fault_version_check`. -/
def pageFaultVersionCheck (k : List (Item Label Fn)) : List (Item Label Fn) :=
  .label .pageFaultVersionCheck
  :: (pushes scratchRegs
  ++ (ins (.mov .q .cr2 (.reg .rdi))
  :: ins (.mov .q (.of (.mem 72#64 .rsp)) (.reg .rsi))
  :: ins (.call .checkVersion)
  :: ins (.test .q (.of (.reg .rax)) (.reg .rax))
  :: ins (.jcc .e .versionError)
  :: (pops scratchRegs.reverse
  -- the return address goes to where the error was, and the flags then over it
  ++ (ins (.mov .q (.of (.mem 8#64 .rsp)) (.reg .rcx))
  :: ins (.mov .q (.of (.reg .rcx)) (.mem 0#64 .rsp))
  :: ins (.mov .l (.imm 2#64) (.gs cpuTmpDcntr))
  :: ins (.mov .q (.of (.mem 32#64 .rsp)) (.reg .rcx))
  :: ins (.mov .q (.of (.reg .rcx)) (.gs cpuTmpDsp))
  :: ins (.mov .q (.of (.mem 24#64 .rsp)) (.reg .rcx))
  :: ins (.or .q (.imm singleStepF) (.reg .rcx))
  :: ins (.mov .q (.of (.reg .rcx)) (.mem 0#64 .rsp))
  :: ins (.mov .q (.of (.gs cpuTmpR15)) (.reg .rcx))
  :: ins .swapgs
  :: ins .popf
  :: ins .ret
  :: k))))

/-- `.version_error`. -/
def versionError (L : Layout) : List (Item Label Fn) :=
  [.label .versionError,
    ins (.mov .q (.imm L.lc1) (.reg .rdi)),
    ins (.clr .rax),
    ins (.call .printf),
    ins (.call .kernelExit)]

/-- `idt_page_fault_handler`. -/
def idtPageFaultHandler (L : Layout) : List (Item Label Fn) :=
  ins .cli
  :: ins (.bt 2 (.mem 0#64 .rsp))
  :: ins (.jcc .nc .kernelPageFault)
  :: ins .swapgs
  :: ins (.sets (.gs cpuInKern))
  :: ins (.mov .q (.of (.reg .rcx)) (.gs cpuTmpR15))
  :: ins (.jcc .c .pageFaultUserCheck)
  :: pageFaultUserExit (pageFaultExit (kernelPageFault (unhandledPageFault L
    (pageFaultUserCheck (pageFaultVersionCheck (versionError L))))))

/-- `pushAllRegs(24(%rsp))`. -/
def pushAllRegs (k : List (Item Label Fn)) : List (Item Label Fn) :=
  tableSaves (cpuRegs.take 6)
  ++ (ins (.mov .q (.of (.mem 24#64 .rsp)) (.reg .rbx))
  :: ins (.mov .q (.of (.reg .rbx)) (.gs cpuRegRsp))
  :: (tableSaves (cpuRegs.drop 6)
  ++ k))

/-- `popAllRegs()`. -/
def popAllRegs (k : List (Item Label Fn)) : List (Item Label Fn) := tableLoads cpuRegs ++ k

/-- `.idt_debug_exit`. -/
def idtDebugExit (k : List (Item Label Fn)) : List (Item Label Fn) :=
  .label .idtDebugExit
  :: ins (.sub .l (.imm 1#64) (.gs cpuTmpDcntr))
  :: ins (.push (.of (.reg .rax)))
  :: ins (.mov .q (.imm (userDs ||| 3#64)) (.mem 40#64 .rsp))
  :: ins (.mov .q (.of (.gs cpuTmpDsp)) (.reg .rax))
  :: ins (.mov .q (.of (.reg .rax)) (.mem 32#64 .rsp))
  :: ins (.btr 8 (.mem 24#64 .rsp))
  :: ins (.mov .q (.imm (userCs ||| 3#64)) (.mem 16#64 .rsp))
  :: ins .swapgs
  :: ins (.pop (.reg .rax))
  :: ins .iret
  :: k

/-- `.idt_debug_userland`. -/
def idtDebugUserland (L : Layout) : List (Item Label Fn) :=
  .label .idtDebugUserland
  :: pushAllRegs
  (ins (.mov .q (.of (.mem 0#64 .rsp)) (.reg .rdi))
  :: ins (.mov .q (.imm (L.cpuInfo + cpuRegBase)) (.reg .rsi))
  :: ins (.call .disassembleInstr)
  :: popAllRegs
  [ins .swapgs, ins .iret])

/-- `idt_debug_handler`. -/
def idtDebugHandler (L : Layout) : List (Item Label Fn) :=
  ins .swapgs
  :: ins (.cmp .l (.imm 0#64) (.gs cpuTmpDcntr))
  :: ins (.jcc .e .idtDebugUserland)
  :: ins (.cmp .l (.imm 1#64) (.gs cpuTmpDcntr))
  :: ins (.jcc .e .idtDebugExit)
  :: ins (.sub .l (.imm 1#64) (.gs cpuTmpDcntr))
  :: ins .swapgs
  :: ins .iret
  :: idtDebugExit (idtDebugUserland L)

end Code

/-! ## The calling convention -/

/-- The registers that a function of C gives back. -/
def calleeSaved : List Reg := [.rbx, .rbp, .rsp, .r12, .r13, .r14, .r15]

/-- What a function of C that has come back has kept. -/
structure Returns (L : Layout) (m m' : Machine) : Prop where
  saved : ∀ r ∈ calleeSaved, m'.reg r = m.reg r
  cs : m'.cs = m.cs
  ss : m'.ss = m.ss
  gs : m'.msr msrGsBase = m.msr msrGsBase
  star : m'.msr msrStar = m.msr msrStar
  lstar : m'.msr msrLstar = m.msr msrLstar
  sfmask : m'.msr msrSfmask = m.msr msrSfmask
  frame : ∀ i < (L.top - m.reg .rsp).toNat,
    m'.mem (offset (m.reg .rsp) i) = m.mem (offset (m.reg .rsp) i)
  cpu : ∀ i < 168, m'.mem (offset L.cpuInfo i) = m.mem (offset L.cpuInfo i)
  var : ∀ i < 8, m'.mem (offset L.kernelStack i) = m.mem (offset L.kernelStack i)

/-- The functions that are called by name keep the calling convention and the program's `%gs`,
and `kernel_exit` does not come back.  Nothing is said of the functions in the table. -/
structure Abi (L : Layout) (fns : Functions Fn) : Prop where
  named : ∀ f m m', fns.named f m = some m' → Returns L m m'
  kernelGs : ∀ f m m', fns.named f m = some m' → m'.msr msrKernelGsBase = m.msr msrKernelGsBase
  exits : ∀ m, fns.named .kernelExit m = none

/-- The code, run from its beginning, is left with this machine. -/
def LeftWith (fns : Functions Fn) (code : List (Item Label Fn)) (m m' : Machine) : Prop :=
  ∃ n, run fns code n code m = some (some m')

/-- What the code leaves behind is what it is left with. -/
theorem leftWith_of_leaves {fns : Functions Fn} {code : List (Item Label Fn)} {m : Machine}
    {P : Machine → Prop} (h : Leaves fns code code m (fun x => ∃ m', x = some m' ∧ P m')) :
    ∃ m', LeftWith fns code m m' ∧ P m' := by
  obtain ⟨n, _, hrun, m', rfl, hm'⟩ := h
  exact ⟨m', ⟨n, hrun⟩, hm'⟩

/-- What holds at the end holds of what it is left with. -/
theorem LeftWith.of_leaves {fns : Functions Fn} {code : List (Item Label Fn)} {m m' : Machine}
    {Q : Option Machine → Prop} (h : LeftWith fns code m m') (hq : Leaves fns code code m Q) :
    Q (some m') := by
  obtain ⟨n, hrun⟩ := h
  exact hq.unique hrun

/-! ## Where the stack pointer is -/

/-- The stack pointer is this far below the end of the stack. -/
def Deep (L : Layout) (m : Machine) (d : Nat) : Prop := m.reg .rsp = L.top - BitVec.ofNat 64 d

/-- Outside of what the entry code writes. -/
structure Layout.Outside (L : Layout) (b : Word) : Prop where
  stack : Clear L.low L.stackSize b 1
  cpu : Clear L.cpuInfo 168 b 1

/-- Nothing but the stack and `cpu_info` has been written. -/
def KeepsMem (L : Layout) (m m' : Machine) : Prop := ∀ b, L.Outside b → m'.mem b = m.mem b

section Stack

variable {L : Layout} {m s : Machine} {d : Nat}

theorem Deep.push (h : Deep L m d) (v : Word) : Deep L (m.push v) (d + 8) := by
  rw [Deep, Machine.reg_push, if_pos rfl, h, BitVec.ofNat_add, BitVec.sub_sub]

theorem Deep.pushAll (h : Deep L m d) (rs : List Reg) :
    Deep L (m.pushAll rs) (d + 8 * rs.length) := by
  rw [Deep, Machine.rsp_pushAll, h, BitVec.ofNat_add, BitVec.sub_sub]

/-- A depth is a place in the stack. -/
theorem Layout.offset_low (hd : d ≤ L.stackSize) :
    offset L.low (L.stackSize - d) = L.top - BitVec.ofNat 64 d := by
  have hsplit : BitVec.ofNat 64 L.stackSize
      = BitVec.ofNat 64 d + BitVec.ofNat 64 (L.stackSize - d) := by
    rw [← BitVec.ofNat_add, Nat.add_sub_cancel' hd]
  rw [offset, low, hsplit, ← BitVec.sub_sub, BitVec.sub_add_cancel]

/-- What is apart from the stack is apart from a part of it. -/
theorem Layout.clear_frame {b : Word} {n k : Nat} (h : Clear L.low L.stackSize b k)
    (hd : d ≤ L.stackSize) (hn : 0 < n) (hnd : n ≤ d) :
    Clear (L.top - BitVec.ofNat 64 d) n b k := by
  rw [← L.offset_low hd]
  exact h.part hn (by omega)

theorem Deep.toNat_top_sub (h : Deep L m d) (hd : d < 2 ^ 64) : (L.top - m.reg .rsp).toNat = d := by
  rw [h]
  have hcancel : L.top - (L.top - BitVec.ofNat 64 d) = BitVec.ofNat 64 d := sub_sub_cancel _ _
  rw [hcancel, BitVec.toNat_ofNat, Nat.mod_eq_of_lt hd]

theorem loadAt_congr {size : Width} {a : Word}
    (h : ∀ i < size.bytes, s.mem (offset a i) = m.mem (offset a i)) :
    s.loadAt size a = m.loadAt size a := by
  have hload : load s.mem a size.bytes = load m.mem a size.bytes :=
    List.map_congr_left fun i hi => h i (List.mem_range.mp hi)
  rw [Machine.loadAt, hload, Machine.loadAt]

theorem loadWord_congr {a : Word} (h : ∀ i < 8, s.mem (offset a i) = m.mem (offset a i)) :
    loadWord s.mem a = loadWord m.mem a := by
  have hload : load s.mem a 8 = load m.mem a 8 :=
    List.map_congr_left fun i hi => h i (List.mem_range.mp hi)
  rw [loadWord, hload, loadWord]

theorem X86.Machine.Stack.returns {vs : List Word} (h : m.Stack vs) (hdeep : Deep L m d)
    (hlen : 8 * vs.length ≤ d) (hd : d < 2 ^ 64) (hret : Returns L m s) : s.Stack vs := by
  refine h.keeps (hret.saved .rsp (by decide)) fun i hi => hret.frame i ?_
  rw [hdeep.toNat_top_sub hd]
  omega

theorem Returns.loadCpu (h : Returns L m s) {size : Width} {i : Nat} (hi : i + size.bytes ≤ 168) :
    s.loadAt size (offset L.cpuInfo i) = m.loadAt size (offset L.cpuInfo i) := by
  refine loadAt_congr fun j hj => ?_
  rw [offset_offset]
  exact h.cpu _ (by omega)

/-- A run of bytes outside of what the entry code writes. -/
theorem KeepsMem.run (h : KeepsMem L m s) {b : Word} {n : Nat}
    (hstack : Clear L.low L.stackSize b n) (hcpu : Clear L.cpuInfo 168 b n) {i : Nat} (hi : i < n) :
    s.mem (offset b i) = m.mem (offset b i) :=
  h _ ⟨(hstack.symm.part (j := 1) (by omega) (by omega)).symm,
    (hcpu.symm.part (j := 1) (by omega) (by omega)).symm⟩

theorem KeepsMem.refl (L : Layout) (m : Machine) : KeepsMem L m m := fun _ _ => rfl

theorem KeepsMem.trans {t : Machine} (h : KeepsMem L m s) (h' : KeepsMem L s t) :
    KeepsMem L m t := fun b hb => (h' b hb).trans (h b hb)

/-- Nothing but the stack has been written. -/
def StackOnly (L : Layout) (m s : Machine) : Prop :=
  ∀ b, Clear L.low L.stackSize b 1 → s.mem b = m.mem b

theorem StackOnly.refl (L : Layout) (m : Machine) : StackOnly L m m := fun _ _ => rfl

theorem StackOnly.trans {t : Machine} (h : StackOnly L m s) (h' : StackOnly L s t) :
    StackOnly L m t := fun b hb => (h' b hb).trans (h b hb)

theorem StackOnly.push (h : StackOnly L m s) (hdeep : Deep L s d) (hd : d + 8 ≤ L.stackSize)
    (v : Word) : StackOnly L m (s.push v) := by
  intro b hb
  have hclear : Clear (s.reg .rsp - 8#64) 8 b 1 := by
    rw [hdeep, BitVec.sub_sub, ← BitVec.ofNat_add d 8]
    exact Layout.clear_frame hb hd (by decide) (by omega)
  have hmem := store_of_clear s.mem (b := b) (k := 1) (i := 0)
    (by rwa [length_wordBytes v]) (by decide)
  rw [offset_zero] at hmem
  exact hmem.trans (h b hb)

theorem StackOnly.pushAll (h : StackOnly L m s) (hdeep : Deep L s d) {rs : List Reg}
    (hd : d + 8 * rs.length ≤ L.stackSize) : StackOnly L m (s.pushAll rs) := by
  induction rs generalizing s d with
  | nil => exact h
  | cons r rs ih =>
      rw [List.length_cons] at hd
      exact ih (h.push hdeep (by omega) _) (hdeep.push _) (by omega)

/-- A word of the stack is written. -/
theorem StackOnly.put (h : StackOnly L m s) (hdeep : Deep L s d) (hd : d ≤ L.stackSize) {i : Nat}
    (hi : 8 * i + 8 ≤ d) (v : Word) :
    StackOnly L m (s.storeAt .q (s.reg .rsp + BitVec.ofNat 64 (8 * i)) v) := by
  intro b hb
  have hclear : Clear (s.reg .rsp + BitVec.ofNat 64 (8 * i)) 8 b 1 := by
    have hpart := (Layout.clear_frame (n := d) hb hd (by omega) (Nat.le_refl d)).part (i := 8 * i)
      (j := 8) (by decide) hi
    rwa [← hdeep] at hpart
  have hmem := store_of_clear s.mem (b := b) (k := 1) (i := 0)
    (by rwa [length_toBytes Width.q.bytes v.toNat]) (by decide)
  rw [offset_zero] at hmem
  exact hmem.trans (h b hb)

theorem StackOnly.keepsMem (h : StackOnly L m s) : KeepsMem L m s := fun b hb => h b hb.stack

theorem StackOnly.loadCpu (h : StackOnly L m s) (hL : L.Sound) {size : Width} {i : Nat}
    (hi : i + size.bytes ≤ 168) :
    s.loadAt size (offset L.cpuInfo i) = m.loadAt size (offset L.cpuInfo i) := by
  refine loadAt_congr fun j hj => ?_
  rw [offset_offset]
  exact h _ (hL.cpu.symm.part (j := 1) (by decide) (by omega)).symm

theorem KeepsMem.storeCpu (h : KeepsMem L m s) {size : Width} {a v : Word} {i : Nat}
    (ha : a = offset L.cpuInfo i) (hi : i + size.bytes ≤ 168) :
    KeepsMem L m (s.storeAt size a v) := by
  have hpos : 0 < size.bytes := by cases size <;> decide
  intro b hb
  have hclear : Clear a (toBytes size.bytes v.toNat).length b 1 := by
    rw [length_toBytes, ha]
    exact hb.cpu.part hpos hi
  have hmem := store_of_clear s.mem (i := 0) hclear (by decide)
  rw [offset_zero] at hmem
  rw [← h b hb]
  exact hmem

end Stack

end BufferVM
