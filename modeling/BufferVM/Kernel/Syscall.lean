/-
  Kernel/Syscall.lean --- `syscall_brk`, `kernel/c/stack.c` and the page faults of user code.

  `kernel_exit` does not come back, so a fault that ends the machine yields `none`, as
  the use of a `NULL` `user_heap_vma` does.
-/
import BufferVM.Kernel.Mmap

set_option autoImplicit false

namespace BufferVM

variable {σ η : Type}

/-! ## The stack -/

/-- `user_stack_init`. -/
def userStackInit (E : Env σ η) (userStackStart stackPageLimit : U64) (s : St σ η) :
    Option (St σ η) := do
  let userStackPage := userStackStart - pageSize
  let s := { s with glob := { s.glob with
    userStackStart := userStackStart
    userStackPage := userStackPage
    userStackMin := userStackStart - stackPageLimit * pageSize
    userStackPageLimit := stackPageLimit } }
  let (addr, vma, s) ← mmapRegion E none userStackPage pageSize vmaGrows
    (vmaWrite ||| vmaRead) 0#64 s
  let s := { s with glob := { s.glob with userStackVma := vma } }
  if addr = s.glob.userStackPage then some s else none

/-- `new_start` of `grow_stack`. -/
def growStart (addr : U64) : U64 := pageAlign addr - pageSize

/-- `grow_stack`: `1` when the stack would pass its limit. -/
def growStack (E : Env σ η) (vma : Ptr) (addr : U64) (s : St σ η) : Option (Int × St σ η) :=
  if s.glob.userStackPageLimit < pageDifference s.glob.userStackStart (growStart addr) then
    some (1, s)
  else do
    let s ← deref vma (s.setRegion vma { s.region vma with startAddr := growStart addr })
    let s := { s with glob := { s.glob with userStackPage := growStart addr } }
    let s ← vmaGapUpdate vma s
    some (0, kernelMapVma E vma s)

/-! ## Page faults -/

/-- `PF_PROT`. -/
def pfProt : U64 := 1#64

/-- `handle_user_page_fault`; `handle_segfault` and a failed `VERIFY` end the machine. -/
def handleUserPageFault (E : Env σ η) (addr errorCode : U64) (s : St σ η) :
    Option (Int × St σ η) :=
  if errorCode &&& pfProt ≠ 0#64 then none
  else do
    let vma ← vmaFind addr s
    if vma = 0#64 then none
    else if (s.region vma).startAddr ≤ addr then
      if (s.region vma).flags &&& vmaIsPrefaulted = 0#64 then some (1, s) else none
    else if (s.region vma).flags &&& vmaGrows = 0#64 then none
    else do
      let (failed, s) ← growStack E vma addr s
      if failed ≠ 0 then none else some (1, s)

/-! ## `syscall_brk` -/

/-- The flags of the first page of the heap. -/
def heapProt : U64 := vmaWrite ||| vmaRead ||| vmaIsVersioned

/-- The last branch of `syscall_brk` is taken: the break moves. -/
def St.BrkMoves (s : St σ η) (brk : U64) : Prop :=
  ¬ (brk = 0#64 ∧ s.glob.currBrk = 0#64) ∧ ¬ brk < s.glob.currBrk ∧
    (s.region s.glob.userHeapVma).startAddr < pageAlign brk ∧
    ((s.vma s.glob.userHeapVma).next ≠ 0#64 →
      pageAlign brk ≤ (s.region (s.vma s.glob.userHeapVma).next).startAddr)

instance (s : St σ η) (brk : U64) : Decidable (s.BrkMoves brk) :=
  inferInstanceAs (Decidable (_ ∧ _))

/-- `syscall_brk`. -/
def syscallBrk (E : Env σ η) (brk : U64) (s : St σ η) : Option (U64 × St σ η) :=
  if brk = 0#64 ∧ s.glob.currBrk = 0#64 then do
    let s := { s with glob := { s.glob with currBrk := s.glob.userHeapStart } }
    let (addr, vma, s) ← mmapRegion E none s.glob.currBrk pageSize vmaGrows heapProt 0#64 s
    let s := { s with glob := { s.glob with userHeapVma := vma } }
    if vma ≠ 0#64 ∧ addr = s.glob.currBrk then some (s.glob.currBrk, s) else none
  else if brk < s.glob.currBrk then some (s.glob.currBrk, s)
  else do
    let newBrk := pageAlign brk
    let vma ← deref s.glob.userHeapVma s.glob.userHeapVma
    let next := (s.vma vma).next
    if newBrk ≤ (s.region vma).startAddr ∨
        (next ≠ 0#64 ∧ (s.region next).startAddr < newBrk) then some (s.glob.currBrk, s)
    else do
      let s ← vmaGapUpdate vma (s.setRegion vma { s.region vma with endAddr := newBrk })
      let s := kernelMapVma E vma s
      some (newBrk, { s with glob := { s.glob with currBrk := newBrk } })

/-! ## What a user program can ask for -/

/-- A system call that changes the address space, a page fault, or a call of
`mmap_region` by the kernel itself.  `stray` is what `get_unmapped_area_unchecked` leaves
behind when it runs off its end. -/
inductive Call where
  | mmapRegion (fileInfo : Option VmFile) (addr length flags prot offset : U64)
  | mmap (stray addr length prot flags : U64) (fd : BitVec 32) (offset : U64)
  | munmap (addr length : U64)
  | brk (addr : U64)
  | fault (addr errorCode : U64)

/-- The state after a call. -/
def Call.run (E : Env σ η) (s : St σ η) : Call → Option (St σ η)
  | .mmapRegion fileInfo addr length flags prot offset =>
      (BufferVM.mmapRegion E fileInfo addr length flags prot offset s).map fun x => x.2.2
  | .mmap stray addr length prot flags fd offset =>
      (syscallMmap E stray addr length prot flags fd offset s).map Prod.snd
  | .munmap addr length => (syscallMunmap E addr length s).map Prod.snd
  | .brk addr => (syscallBrk E addr s).map Prod.snd
  | .fault addr errorCode => (handleUserPageFault E addr errorCode s).map Prod.snd

end BufferVM
