/-
  Lib/X86.lean --- a machine for the assembly of a kernel.

  The instructions are those that entry code is written in: moves, the stack, tests and
  jumps, the model-specific registers, and the ways in and out of the kernel.  Code is a list
  of labels and instructions, and what is left to run is a tail of it.  A `call` goes to a
  function that is given, and the calling convention is what is known of one.  Memory is a
  function from addresses to bytes.

  The processor's own part, `syscall` and the delivery of an exception, is here too.  The
  parity and the adjust flag are left out.
-/
import BufferVM.Lib.ByteMem

set_option autoImplicit false

namespace BufferVM

namespace X86

open ByteMem

/-! ## The machine -/

/-- A 64-bit word. -/
abbrev Word : Type := BitVec 64

/-- The general registers. -/
inductive Reg where
  | rax | rdi | rsi | rdx | rcx | rbx | rsp | rbp
  | r8 | r9 | r10 | r11 | r12 | r13 | r14 | r15
  deriving DecidableEq, Repr

/-- The width of an operand. -/
inductive Width where
  | b | w | l | q
  deriving DecidableEq, Repr

/-- The number of its bytes. -/
def Width.bytes : Width → Nat
  | .b => 1
  | .w => 2
  | .l => 4
  | .q => 8

/-- The number of its bits. -/
def Width.bits (size : Width) : Nat := 8 * size.bytes

/-- The processor and its memory.  `rip` is where it goes on when it leaves the code. -/
structure Machine where
  reg : Reg → Word
  rip : Word
  rflags : Word
  cs : Word
  ss : Word
  msr : Word → Word
  cr2 : Word
  mem : Word → BitVec 8

/-- The base that `%gs` addresses are relative to. -/
def msrGsBase : Word := 0xc0000101#64
/-- What `swapgs` exchanges it with. -/
def msrKernelGsBase : Word := 0xc0000102#64
/-- The selectors of `syscall` and `sysret`. -/
def msrStar : Word := 0xc0000081#64
/-- Where `syscall` goes. -/
def msrLstar : Word := 0xc0000082#64
/-- The flags that `syscall` clears. -/
def msrSfmask : Word := 0xc0000084#64
/-- The features that are enabled. -/
def msrEfer : Word := 0xc0000080#64

/-- The carry flag. -/
def carryFlag : Nat := 0
/-- The zero flag. -/
def zeroFlag : Nat := 6
/-- The sign flag. -/
def signFlag : Nat := 7
/-- The trap flag: a debug exception after the next instruction. -/
def trapFlag : Nat := 8
/-- The interrupt flag. -/
def interruptFlag : Nat := 9
/-- The overflow flag. -/
def overflowFlag : Nat := 11
/-- The flag for a nested task, which the delivery of an exception clears. -/
def nestedFlag : Nat := 14
/-- The resume flag: set in what is saved for an instruction that is to run again. -/
def resumeFlag : Nat := 16

/-- One bit of a word is written. -/
def setBit (v : Word) (i : Nat) (b : Bool) : Word :=
  if b then v ||| (1#64 <<< i) else v &&& ~~~(1#64 <<< i)

theorem getLsbD_setBit (v : Word) (i j : Nat) (b : Bool) (hi : i < 64) :
    (setBit v i b).getLsbD j = if j = i then b else v.getLsbD j := by
  unfold setBit
  by_cases hj : j < 64
  · have hone : (1#64 <<< i).getLsbD j = decide (j = i) := by
      rw [BitVec.getLsbD_shiftLeft, BitVec.getLsbD_one]
      by_cases heq : j = i
      · simp [heq, hi]
      · simp only [heq, decide_false]
        by_cases hlt : j < i
        · simp [hlt]
        · have hne : j - i ≠ 0 := by omega
          simp [hlt, hne]
    cases b
    · simp only [Bool.false_eq_true, if_false, BitVec.getLsbD_and, BitVec.getLsbD_not, hj, hone]
      by_cases heq : j = i <;> simp [heq]
    · simp only [if_true, BitVec.getLsbD_or, hone]
      by_cases heq : j = i <;> simp [heq]
  · have hne : j ≠ i := by omega
    rw [if_neg hne, BitVec.getLsbD_of_ge _ _ (by omega), BitVec.getLsbD_of_ge _ _ (by omega)]

namespace Machine

/-- Write a register. -/
def setReg (m : Machine) (r : Reg) (v : Word) : Machine :=
  { m with reg := fun q => if q = r then v else m.reg q }

/-- Write memory. -/
def setMem (m : Machine) (mem : Word → BitVec 8) : Machine := { m with mem := mem }

/-- Write the flags. -/
def setFlags (m : Machine) (v : Word) : Machine := { m with rflags := v }

/-- Write a model-specific register. -/
def setMsr (m : Machine) (i v : Word) : Machine :=
  { m with msr := fun j => if j = i then v else m.msr j }

section Fields

variable (m : Machine) (r q : Reg) (v i j : Word) (mem : Word → BitVec 8)

@[simp] theorem reg_setReg : (m.setReg r v).reg q = if q = r then v else m.reg q := rfl
@[simp] theorem rip_setReg : (m.setReg r v).rip = m.rip := rfl
@[simp] theorem rflags_setReg : (m.setReg r v).rflags = m.rflags := rfl
@[simp] theorem cs_setReg : (m.setReg r v).cs = m.cs := rfl
@[simp] theorem ss_setReg : (m.setReg r v).ss = m.ss := rfl
@[simp] theorem msr_setReg : (m.setReg r v).msr = m.msr := rfl
@[simp] theorem cr2_setReg : (m.setReg r v).cr2 = m.cr2 := rfl
@[simp] theorem mem_setReg : (m.setReg r v).mem = m.mem := rfl

@[simp] theorem reg_setMem : (m.setMem mem).reg = m.reg := rfl
@[simp] theorem rip_setMem : (m.setMem mem).rip = m.rip := rfl
@[simp] theorem rflags_setMem : (m.setMem mem).rflags = m.rflags := rfl
@[simp] theorem cs_setMem : (m.setMem mem).cs = m.cs := rfl
@[simp] theorem ss_setMem : (m.setMem mem).ss = m.ss := rfl
@[simp] theorem msr_setMem : (m.setMem mem).msr = m.msr := rfl
@[simp] theorem cr2_setMem : (m.setMem mem).cr2 = m.cr2 := rfl
@[simp] theorem mem_setMem : (m.setMem mem).mem = mem := rfl

@[simp] theorem reg_setFlags : (m.setFlags v).reg = m.reg := rfl
@[simp] theorem rip_setFlags : (m.setFlags v).rip = m.rip := rfl
@[simp] theorem rflags_setFlags : (m.setFlags v).rflags = v := rfl
@[simp] theorem cs_setFlags : (m.setFlags v).cs = m.cs := rfl
@[simp] theorem ss_setFlags : (m.setFlags v).ss = m.ss := rfl
@[simp] theorem msr_setFlags : (m.setFlags v).msr = m.msr := rfl
@[simp] theorem cr2_setFlags : (m.setFlags v).cr2 = m.cr2 := rfl
@[simp] theorem mem_setFlags : (m.setFlags v).mem = m.mem := rfl

@[simp] theorem reg_setMsr : (m.setMsr i v).reg = m.reg := rfl
@[simp] theorem rip_setMsr : (m.setMsr i v).rip = m.rip := rfl
@[simp] theorem rflags_setMsr : (m.setMsr i v).rflags = m.rflags := rfl
@[simp] theorem cs_setMsr : (m.setMsr i v).cs = m.cs := rfl
@[simp] theorem ss_setMsr : (m.setMsr i v).ss = m.ss := rfl
@[simp] theorem msr_setMsr : (m.setMsr i v).msr j = if j = i then v else m.msr j := rfl
@[simp] theorem cr2_setMsr : (m.setMsr i v).cr2 = m.cr2 := rfl
@[simp] theorem mem_setMsr : (m.setMsr i v).mem = m.mem := rfl

/-- Only the last write of a register counts. -/
theorem setReg_setReg : (m.setReg r v).setReg r i = m.setReg r i := by
  rw [setReg, setReg, setReg]
  congr 1
  funext q
  by_cases hq : q = r <;> simp [hq]

end Fields

end Machine

/-! ## Operands -/

/-- A value at a width. -/
def trunc (size : Width) (v : Word) : Word := BitVec.ofNat 64 (v.toNat % 2 ^ size.bits)

@[simp] theorem trunc_q (v : Word) : trunc .q v = v := by
  have hv := v.isLt
  apply BitVec.eq_of_toNat_eq
  rw [trunc, BitVec.toNat_ofNat, show Width.bits .q = 64 from rfl, Nat.mod_eq_of_lt hv,
    Nat.mod_eq_of_lt hv]

theorem trunc_trunc (size : Width) (v : Word) : trunc size (trunc size v) = trunc size v := by
  have hv := v.isLt
  apply BitVec.eq_of_toNat_eq
  have hle : v.toNat % 2 ^ size.bits ≤ v.toNat := Nat.mod_le _ _
  rw [trunc, trunc, BitVec.toNat_ofNat, BitVec.toNat_ofNat,
    Nat.mod_eq_of_lt (a := v.toNat % 2 ^ size.bits) (by omega), Nat.mod_mod,
    Nat.mod_eq_of_lt (by omega)]

theorem getLsbD_trunc (size : Width) (v : Word) (i : Nat) :
    (trunc size v).getLsbD i = (decide (i < size.bits) && v.getLsbD i) := by
  have hv := v.isLt
  have hle : v.toNat % 2 ^ size.bits ≤ v.toNat := Nat.mod_le _ _
  rw [BitVec.getLsbD, BitVec.getLsbD, trunc, BitVec.toNat_ofNat, Nat.mod_eq_of_lt (by omega),
    Nat.testBit_mod_two_pow]

/-- A word is its two halves. -/
theorem shiftLeft_or_trunc (v : Word) :
    trunc .l (v >>> 32) <<< 32 ||| trunc .l v = v := by
  apply BitVec.eq_of_getLsbD_eq
  intro i hi
  simp only [BitVec.getLsbD_or, BitVec.getLsbD_shiftLeft, getLsbD_trunc,
    BitVec.getLsbD_ushiftRight, show Width.bits .l = 32 from rfl]
  by_cases hlow : i < 32
  · simp [hlow]
  · have hsplit : 32 + (i - 32) = i := by omega
    have hhigh : i - 32 < 32 := by omega
    simp [hlow, hi, hhigh, hsplit]

/-- What an instruction can write to. -/
inductive Place where
  | reg (r : Reg)
  | mem (disp : Word) (base : Reg)
  | index (base index : Reg) (scale : Word)
  | gs (disp : Word)
  deriving DecidableEq, Repr

/-- What an instruction can read.  An immediate is given as it is extended. -/
inductive Source where
  | of (p : Place)
  | imm (v : Word)
  | cr2
  deriving DecidableEq, Repr

namespace Machine

/-- The bytes at an address, as a number. -/
def loadAt (m : Machine) (size : Width) (a : Word) : Word :=
  BitVec.ofNat 64 (fromBytes (load m.mem a size.bytes))

/-- Write the low bytes of a word. -/
def storeAt (m : Machine) (size : Width) (a v : Word) : Machine :=
  m.setMem (store m.mem a (toBytes size.bytes v.toNat))

/-- The address of a place in memory. -/
def addr (m : Machine) : Place → Option Word
  | .reg _ => none
  | .mem disp base => some (m.reg base + disp)
  | .index base index scale => some (m.reg base + m.reg index * scale)
  | .gs disp => some (m.msr msrGsBase + disp)

/-- Read a place. -/
def readPlace (m : Machine) (size : Width) : Place → Word
  | .reg r => trunc size (m.reg r)
  | .mem disp base => m.loadAt size (m.reg base + disp)
  | .index base index scale => m.loadAt size (m.reg base + m.reg index * scale)
  | .gs disp => m.loadAt size (m.msr msrGsBase + disp)

/-- Read an operand. -/
def read (m : Machine) (size : Width) : Source → Word
  | .of p => m.readPlace size p
  | .imm v => trunc size v
  | .cr2 => m.cr2

/-- What a register holds after a write: 32 bits clear the upper half, fewer leave the rest. -/
def merge (size : Width) (old v : Word) : Word :=
  match size with
  | .q => v
  | .l => trunc .l v
  | size => old - trunc size old + trunc size v

/-- Write a place. -/
def write (m : Machine) (size : Width) (v : Word) : Place → Machine
  | .reg r => m.setReg r (merge size (m.reg r) v)
  | .mem disp base => m.storeAt size (m.reg base + disp) v
  | .index base index scale => m.storeAt size (m.reg base + m.reg index * scale) v
  | .gs disp => m.storeAt size (m.msr msrGsBase + disp) v

/-- Put a word on the stack. -/
def push (m : Machine) (v : Word) : Machine :=
  (m.setReg .rsp (m.reg .rsp - 8#64)).setMem (store m.mem (m.reg .rsp - 8#64) (wordBytes v))

/-- The word on top of the stack. -/
def top (m : Machine) : Word := loadWord m.mem (m.reg .rsp)

/-- Take the word off the stack. -/
def drop (m : Machine) : Machine := m.setReg .rsp (m.reg .rsp + 8#64)

/-- A flag. -/
def flag (m : Machine) (i : Nat) : Bool := m.rflags.getLsbD i

/-- The flags after `x - y`. -/
def subFlags (m : Machine) (size : Width) (x y : Word) : Machine :=
  let x := x.setWidth size.bits
  let y := y.setWidth size.bits
  m.setFlags (setBit (setBit (setBit (setBit m.rflags carryFlag (decide (x < y)))
    zeroFlag (decide (x = y))) signFlag (x - y).msb) overflowFlag (BitVec.ssubOverflow x y))

/-- The flags after `x + y`. -/
def addFlags (m : Machine) (size : Width) (x y : Word) : Machine :=
  let x := x.setWidth size.bits
  let y := y.setWidth size.bits
  m.setFlags (setBit (setBit (setBit (setBit m.rflags carryFlag (BitVec.uaddOverflow x y))
    zeroFlag (decide (x + y = 0))) signFlag (x + y).msb) overflowFlag (BitVec.saddOverflow x y))

/-- The flags after a logical operation with this result. -/
def logicFlags (m : Machine) (size : Width) (v : Word) : Machine :=
  let v := v.setWidth size.bits
  m.setFlags (setBit (setBit (setBit (setBit m.rflags carryFlag false)
    zeroFlag (decide (v = 0))) signFlag v.msb) overflowFlag false)

end Machine

/-! ## Instructions -/

/-- The conditions of the jumps. -/
inductive Cond where
  | c | nc | e | l | ge
  deriving DecidableEq, Repr

/-- Whether a condition holds. -/
def Machine.holds (m : Machine) : Cond → Bool
  | .c => m.flag carryFlag
  | .nc => !m.flag carryFlag
  | .e => m.flag zeroFlag
  | .l => m.flag signFlag != m.flag overflowFlag
  | .ge => m.flag signFlag == m.flag overflowFlag

/-- An instruction; `L` are the labels, and `F` the functions. -/
inductive Instr (L F : Type) where
  | mov (size : Width) (src : Source) (dst : Place)
  | push (src : Source)
  | pop (dst : Place)
  | add (size : Width) (src : Source) (dst : Place)
  | sub (size : Width) (src : Source) (dst : Place)
  | or (size : Width) (src : Source) (dst : Place)
  | clr (r : Reg)
  | shr (k : Nat) (r : Reg)
  | cmp (size : Width) (src : Source) (dst : Place)
  | test (size : Width) (src : Source) (dst : Place)
  | bt (i : Nat) (src : Place)
  | btr (i : Nat) (dst : Place)
  | sets (dst : Place)
  | movGs (r : Reg)
  | jmp (l : L)
  | jcc (cond : Cond) (l : L)
  | call (f : F)
  | callReg (r : Reg)
  | swapgs
  | cli
  | popf
  | rdmsr
  | wrmsr
  | sysret
  | iret
  | ret

/-- A line of the code. -/
inductive Item (L F : Type) where
  | label (l : L)
  | instr (i : Instr L F)

/-- The functions that can be called: by name, and through a pointer.  `none` is a function
that does not come back. -/
structure Functions (F : Type) where
  named : F → Machine → Option Machine
  at' : Word → Machine → Option Machine

/-- What comes after an instruction. -/
inductive Next (L : Type) where
  | go (m : Machine)
  | jump (l : L) (m : Machine)
  | leave (m : Machine)
  | gone

/-- The word that two halves make up. -/
def Machine.wide (m : Machine) (high low : Reg) : Word :=
  trunc .l (m.reg high) <<< 32 ||| trunc .l (m.reg low)

/-- The flags that `sysret` takes over. -/
def sysretMask : Word := 0x3c7fd7#64

/-- `sysret`: back to the address in `rcx`, with the flags of `r11`. -/
def Machine.sysret (m : Machine) : Machine :=
  { m with
    rip := m.reg .rcx
    rflags := (m.reg .r11 &&& sysretMask) ||| 2#64
    cs := (m.msr msrStar >>> 48) + 16#64 ||| 3#64
    ss := (m.msr msrStar >>> 48) + 8#64 ||| 3#64 }

/-- `iretq`: the five words that the delivery of an exception has put on the stack. -/
def Machine.iret (m : Machine) : Machine :=
  let frame := fun i => loadWord m.mem (m.reg .rsp + BitVec.ofNat 64 (8 * i))
  { (m.setReg .rsp (frame 3)) with rip := frame 0, cs := frame 1, rflags := frame 2, ss := frame 4 }

section Step

variable {L F : Type}

/-- One instruction. -/
def step (fns : Functions F) : Instr L F → Machine → Next L
  | .mov size src dst, m => .go (m.write size (m.read size src) dst)
  | .push src, m => .go (m.push (m.read .q src))
  | .pop dst, m => .go (m.drop.write .q m.top dst)
  | .add size src dst, m =>
      .go ((m.addFlags size (m.readPlace size dst) (m.read size src)).write size
        (m.readPlace size dst + m.read size src) dst)
  | .sub size src dst, m =>
      .go ((m.subFlags size (m.readPlace size dst) (m.read size src)).write size
        (m.readPlace size dst - m.read size src) dst)
  | .or size src dst, m =>
      let v := m.readPlace size dst ||| m.read size src
      .go ((m.logicFlags size v).write size v dst)
  | .clr r, m => .go ((m.logicFlags .q 0#64).setReg r 0#64)
  | .shr k r, m =>
      -- the carry is the last bit that falls out; the overflow flag is that of a shift by one
      let v := m.reg r >>> k
      .go (((m.logicFlags .q v).setFlags (setBit (m.logicFlags .q v).rflags carryFlag
        ((m.reg r).getLsbD (k - 1)))).setReg r v)
  | .cmp size src dst, m => .go (m.subFlags size (m.readPlace size dst) (m.read size src))
  | .test size src dst, m => .go (m.logicFlags size (m.readPlace size dst &&& m.read size src))
  | .bt i src, m => .go (m.setFlags (setBit m.rflags carryFlag ((m.readPlace .q src).getLsbD i)))
  | .btr i dst, m =>
      .go ((m.setFlags (setBit m.rflags carryFlag ((m.readPlace .q dst).getLsbD i))).write .q
        (setBit (m.readPlace .q dst) i false) dst)
  | .sets dst, m => .go (m.write .b (if m.flag signFlag then 1#64 else 0#64) dst)
  | .movGs _, m => .go (m.setMsr msrGsBase 0#64)
  | .jmp l, m => .jump l m
  | .jcc cond l, m => if m.holds cond then .jump l m else .go m
  | .call f, m =>
      match fns.named f m with
      | some m => .go m
      | none => .gone
  | .callReg r, m =>
      match fns.at' (m.reg r) m with
      | some m => .go m
      | none => .gone
  | .swapgs, m =>
      .go ((m.setMsr msrGsBase (m.msr msrKernelGsBase)).setMsr msrKernelGsBase (m.msr msrGsBase))
  | .cli, m => .go (m.setFlags (setBit m.rflags interruptFlag false))
  | .popf, m => .go (m.drop.setFlags (setBit m.top resumeFlag false))
  | .rdmsr, m =>
      let v := m.msr (trunc .l (m.reg .rcx))
      .go ((m.setReg .rax (trunc .l v)).setReg .rdx (v >>> 32))
  | .wrmsr, m => .go (m.setMsr (trunc .l (m.reg .rcx)) (m.wide .rdx .rax))
  | .sysret, m => .leave m.sysret
  | .iret, m => .leave m.iret
  | .ret, m => .leave { m.drop with rip := m.top }

/-- The line is this label. -/
def Item.isLabel [DecidableEq L] (l : L) : Item L F → Bool
  | .label l' => decide (l' = l)
  | .instr _ => false

/-- What follows a label. -/
def target [DecidableEq L] (code : List (Item L F)) (l : L) : List (Item L F) :=
  code.dropWhile fun i => !i.isLabel l

/-- Run a tail of the code until it is left: `none` when the fuel or the code is used up,
`some none` when a call has not come back. -/
def run [DecidableEq L] (fns : Functions F) (code : List (Item L F)) :
    Nat → List (Item L F) → Machine → Option (Option Machine)
  | 0, _, _ => none
  | _ + 1, [], _ => none
  | n + 1, .label _ :: k, m => run fns code n k m
  | n + 1, .instr i :: k, m =>
      match step fns i m with
      | .go m => run fns code n k m
      | .jump l m => run fns code n (target code l) m
      | .leave m => some (some m)
      | .gone => some none

/-! ## Runs of code -/

/-- The code, run from here, is left with `Q`; `none` is a call that has not come back. -/
def Leaves [DecidableEq L] (fns : Functions F) (code k : List (Item L F)) (m : Machine)
    (Q : Option Machine → Prop) : Prop := ∃ n x, run fns code n k m = some x ∧ Q x

section Rules

variable [DecidableEq L] {fns : Functions F} {code k : List (Item L F)} {m s : Machine}
  {Q : Option Machine → Prop} {i : Instr L F} {l : L}

theorem Leaves.label (h : Leaves fns code k m Q) : Leaves fns code (.label l :: k) m Q := by
  obtain ⟨n, x, hrun, hQ⟩ := h
  exact ⟨n + 1, x, hrun, hQ⟩

theorem Leaves.go (hstep : step fns i m = .go s) (h : Leaves fns code k s Q) :
    Leaves fns code (.instr i :: k) m Q := by
  obtain ⟨n, x, hrun, hQ⟩ := h
  refine ⟨n + 1, x, ?_, hQ⟩
  rw [run, hstep]
  exact hrun

theorem Leaves.jump (hstep : step fns i m = .jump l s)
    (h : Leaves fns code (target code l) s Q) :
    Leaves fns code (.instr i :: k) m Q := by
  obtain ⟨n, x, hrun, hQ⟩ := h
  refine ⟨n + 1, x, ?_, hQ⟩
  rw [run, hstep]
  exact hrun

theorem Leaves.leave (hstep : step fns i m = .leave s) (h : Q (some s)) :
    Leaves fns code (.instr i :: k) m Q := by
  refine ⟨1, some s, ?_, h⟩
  rw [run, hstep]

theorem Leaves.gone (hstep : step fns i m = .gone) (h : Q none) :
    Leaves fns code (.instr i :: k) m Q := by
  refine ⟨1, none, ?_, h⟩
  rw [run, hstep]

theorem Leaves.mono {Q' : Option Machine → Prop} (h : Leaves fns code k m Q)
    (hQ : ∀ x, Q x → Q' x) : Leaves fns code k m Q' := by
  obtain ⟨n, x, hrun, hx⟩ := h
  exact ⟨n, x, hrun, hQ x hx⟩

/-- A jump that is taken. -/
theorem Leaves.taken {cond : Cond} (hcond : m.holds cond = true)
    (h : Leaves fns code (target code l) m Q) :
    Leaves fns code (.instr (.jcc cond l) :: k) m Q :=
  .jump (by rw [step, if_pos hcond]) h

/-- A jump that is not taken. -/
theorem Leaves.notTaken {cond : Cond} (hcond : m.holds cond = false) (h : Leaves fns code k m Q) :
    Leaves fns code (.instr (.jcc cond l) :: k) m Q :=
  .go (by rw [step, if_neg (by rw [hcond]; exact Bool.false_ne_true)]) h

/-- A call, whether it comes back or not. -/
theorem Leaves.call {f : F} (hback : ∀ m', fns.named f m = some m' → Leaves fns code k m' Q)
    (hgone : fns.named f m = none → Q none) : Leaves fns code (.instr (.call f) :: k) m Q := by
  cases hf : fns.named f m with
  | none => exact .gone (by rw [step, hf]) (hgone hf)
  | some m' => exact .go (by rw [step, hf]) (hback m' hf)

/-- A call through a register, whether it comes back or not. -/
theorem Leaves.callReg {r : Reg}
    (hback : ∀ m', fns.at' (m.reg r) m = some m' → Leaves fns code k m' Q)
    (hgone : fns.at' (m.reg r) m = none → Q none) :
    Leaves fns code (.instr (.callReg r) :: k) m Q := by
  cases hf : fns.at' (m.reg r) m with
  | none => exact .gone (by rw [step, hf]) (hgone hf)
  | some m' => exact .go (by rw [step, hf]) (hback m' hf)

/-- More fuel changes nothing. -/
theorem run_mono {n n' : Nat} {x : Option Machine} (h : run fns code n k m = some x)
    (hn : n ≤ n') : run fns code n' k m = some x := by
  induction n generalizing n' k m with
  | zero => exact absurd h (by simp [run])
  | succ n ih =>
      obtain ⟨n', rfl⟩ : ∃ p, n' = p + 1 := ⟨n' - 1, by omega⟩
      have hle : n ≤ n' := by omega
      cases k with
      | nil => exact absurd h (by simp [run])
      | cons item k =>
          cases item with
          | label l =>
              rw [run] at h ⊢
              exact ih h hle
          | instr i =>
              rw [run] at h ⊢
              cases hstep : step fns i m with
              | go m' => rw [hstep] at h; exact ih h hle
              | jump l m' => rw [hstep] at h; exact ih h hle
              | leave m' => rw [hstep] at h; exact h
              | gone => rw [hstep] at h; exact h

/-- What a run ends with does not depend on the fuel. -/
theorem Leaves.unique {x : Option Machine} {n : Nat} (h : Leaves fns code k m Q)
    (hrun : run fns code n k m = some x) : Q x := by
  obtain ⟨n', x', hrun', hQ⟩ := h
  have h1 := run_mono hrun' (Nat.le_max_left n' n)
  have h2 := run_mono hrun (Nat.le_max_right n' n)
  obtain rfl := Option.some.inj (h1.symm.trans h2)
  exact hQ

end Rules

end Step

/-! ## The flags -/

section Flags

variable (m : Machine) (size : Width) (x y v : Word)

@[simp] theorem reg_subFlags : (m.subFlags size x y).reg = m.reg := rfl
@[simp] theorem rip_subFlags : (m.subFlags size x y).rip = m.rip := rfl
@[simp] theorem cs_subFlags : (m.subFlags size x y).cs = m.cs := rfl
@[simp] theorem ss_subFlags : (m.subFlags size x y).ss = m.ss := rfl
@[simp] theorem msr_subFlags : (m.subFlags size x y).msr = m.msr := rfl
@[simp] theorem cr2_subFlags : (m.subFlags size x y).cr2 = m.cr2 := rfl
@[simp] theorem mem_subFlags : (m.subFlags size x y).mem = m.mem := rfl

@[simp] theorem reg_addFlags : (m.addFlags size x y).reg = m.reg := rfl
@[simp] theorem rip_addFlags : (m.addFlags size x y).rip = m.rip := rfl
@[simp] theorem cs_addFlags : (m.addFlags size x y).cs = m.cs := rfl
@[simp] theorem ss_addFlags : (m.addFlags size x y).ss = m.ss := rfl
@[simp] theorem msr_addFlags : (m.addFlags size x y).msr = m.msr := rfl
@[simp] theorem cr2_addFlags : (m.addFlags size x y).cr2 = m.cr2 := rfl
@[simp] theorem mem_addFlags : (m.addFlags size x y).mem = m.mem := rfl

@[simp] theorem reg_logicFlags : (m.logicFlags size v).reg = m.reg := rfl
@[simp] theorem rip_logicFlags : (m.logicFlags size v).rip = m.rip := rfl
@[simp] theorem cs_logicFlags : (m.logicFlags size v).cs = m.cs := rfl
@[simp] theorem ss_logicFlags : (m.logicFlags size v).ss = m.ss := rfl
@[simp] theorem msr_logicFlags : (m.logicFlags size v).msr = m.msr := rfl
@[simp] theorem cr2_logicFlags : (m.logicFlags size v).cr2 = m.cr2 := rfl
@[simp] theorem mem_logicFlags : (m.logicFlags size v).mem = m.mem := rfl

/-- The sign of a difference is that of the exact one, unless it overflows. -/
theorem msb_ne_ssubOverflow (x y : Word) :
    ((x - y).msb != BitVec.ssubOverflow x y) = x.slt y := by
  have hx := BitVec.toInt_lt (x := x)
  have hx' := BitVec.le_toInt (x := x)
  have hy := BitVec.toInt_lt (x := y)
  have hy' := BitVec.le_toInt (x := y)
  simp only [show (64 : Nat) - 1 = 63 from rfl] at hx hx' hy hy'
  have hdiff := BitVec.toInt_sub (x := x) (y := y)
  rw [BitVec.msb_eq_toInt, BitVec.ssubOverflow, BitVec.slt, hdiff, Int.bmod]
  simp only [show (64 : Nat) - 1 = 63 from rfl]
  by_cases hlt : x.toInt < y.toInt
  · by_cases hover : x.toInt - y.toInt < -2 ^ 63
    · rw [decide_eq_false (by split <;> omega), decide_eq_false (by omega),
        decide_eq_true (by omega), decide_eq_true hlt]
      rfl
    · rw [decide_eq_true (by split <;> omega), decide_eq_false (by omega),
        decide_eq_false (by omega), decide_eq_true hlt]
      rfl
  · by_cases hover : x.toInt - y.toInt ≥ 2 ^ 63
    · rw [decide_eq_true (by split <;> omega), decide_eq_true (by omega), decide_eq_false hlt]
      rfl
    · rw [decide_eq_false (by split <;> omega), decide_eq_false (by omega),
        decide_eq_false (by omega), decide_eq_false hlt]
      rfl

theorem flag_setFlags (i : Nat) : (m.setFlags v).flag i = v.getLsbD i := rfl

/-- A comparison writes four flags only. -/
theorem flag_subFlags {i : Nat} (hi : i ∉ [carryFlag, zeroFlag, signFlag, overflowFlag]) :
    (m.subFlags size x y).flag i = m.flag i := by
  simp only [List.mem_cons, List.not_mem_nil, or_false, not_or] at hi
  obtain ⟨hcarry, hzero, hsign, hover⟩ := hi
  rw [Machine.subFlags, flag_setFlags, getLsbD_setBit _ _ _ _ (by decide), if_neg hover,
    getLsbD_setBit _ _ _ _ (by decide), if_neg hsign, getLsbD_setBit _ _ _ _ (by decide),
    if_neg hzero, getLsbD_setBit _ _ _ _ (by decide), if_neg hcarry]
  rfl

theorem flag_zero_subFlags : (m.subFlags size x y).flag zeroFlag
    = decide (x.setWidth size.bits = y.setWidth size.bits) := by
  rw [Machine.subFlags, flag_setFlags, getLsbD_setBit _ _ _ _ (by decide), if_neg (by decide),
    getLsbD_setBit _ _ _ _ (by decide), if_neg (by decide), getLsbD_setBit _ _ _ _ (by decide),
    if_pos rfl]

theorem flag_zero_logicFlags : (m.logicFlags size v).flag zeroFlag
    = decide (v.setWidth size.bits = 0) := by
  rw [Machine.logicFlags, flag_setFlags, getLsbD_setBit _ _ _ _ (by decide), if_neg (by decide),
    getLsbD_setBit _ _ _ _ (by decide), if_neg (by decide), getLsbD_setBit _ _ _ _ (by decide),
    if_pos rfl]

/-- After a comparison of whole words, `l` is the signed order. -/
theorem holds_l_cmp : (m.subFlags .q x y).holds .l = x.slt y := by
  have hsign : (m.subFlags .q x y).flag signFlag = (x - y).msb := by
    rw [Machine.subFlags, flag_setFlags, getLsbD_setBit _ _ _ _ (by decide), if_neg (by decide),
      getLsbD_setBit _ _ _ _ (by decide), if_pos rfl]
    exact congrArg₂ (fun a b : Word => (a - b).msb) (BitVec.setWidth_eq x) (BitVec.setWidth_eq y)
  have hover : (m.subFlags .q x y).flag overflowFlag = BitVec.ssubOverflow x y := by
    rw [Machine.subFlags, flag_setFlags, getLsbD_setBit _ _ _ _ (by decide), if_pos rfl]
    exact congrArg₂ BitVec.ssubOverflow (BitVec.setWidth_eq x) (BitVec.setWidth_eq y)
  rw [Machine.holds, hsign, hover, msb_ne_ssubOverflow]

theorem holds_ge_cmp : (m.subFlags .q x y).holds .ge = !x.slt y := by
  rw [← holds_l_cmp m x y, Machine.holds, Machine.holds]
  cases (m.subFlags .q x y).flag signFlag <;> cases (m.subFlags .q x y).flag overflowFlag <;> rfl

theorem holds_c_bt (b : Bool) : (m.setFlags (setBit v carryFlag b)).holds .c = b := by
  rw [Machine.holds, flag_setFlags, getLsbD_setBit _ _ _ _ (by decide), if_pos rfl]

theorem holds_nc_bt (b : Bool) : (m.setFlags (setBit v carryFlag b)).holds .nc = !b := by
  rw [Machine.holds, flag_setFlags, getLsbD_setBit _ _ _ _ (by decide), if_pos rfl]

theorem holds_e_test : (m.logicFlags .q v).holds .e = decide (v = 0#64) := by
  rw [Machine.holds, flag_zero_logicFlags]
  exact congrArg (fun a : Word => decide (a = 0#64)) (BitVec.setWidth_eq v)

theorem holds_e_cmp : (m.subFlags size x y).holds .e
    = decide (x.setWidth size.bits = y.setWidth size.bits) := flag_zero_subFlags m size x y

end Flags

end X86

end BufferVM
