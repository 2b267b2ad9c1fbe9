/-
  Kernel/UserLand.lean --- the arguments of the program: `run` of `vm/vm.c`, and
  `load_user_land` of `kernel/c/kernel.c`.

  The host writes the strings and two arrays of pointers below the kernel's stack; the kernel
  copies the strings with one `memcpy` each to the user's stack and lays out the pointers
  below them.  Memory is that of the guest by virtual address, in which no two addresses are
  one byte.  The kernel's own frames are not a part of it.
-/
import BufferVM.Kernel.Syscall
import BufferVM.Lib.ByteMem

set_option autoImplicit false

namespace BufferVM

open ByteMem

variable {σ η : Type}

/-! ## Memory -/

/-- The guest's memory. -/
abbrev GuestMem : Type := U64 → BitVec 8

/-- A string of C. -/
def CString : Type := { s : List (BitVec 8) // 0#8 ∉ s }

/-- The bytes of a string with the `NUL` at its end. -/
def CString.bytes (s : CString) : List (BitVec 8) := s.1 ++ [0#8]

/-- `memcpy`. -/
def memcpy (dest src : U64) : Nat → GuestMem → GuestMem
  | 0, m => m
  | n + 1, m =>
      let m := memcpy dest src n m
      Function.update m (offset dest n) (m (offset src n))

/-- The loop of `strlen`. -/
def strlenLoop (m : GuestMem) : Nat → U64 → Option Nat
  | 0, _ => none
  | fuel + 1, str => if m str = 0#8 then some 0 else (strlenLoop m fuel (offset str 1)).map (· + 1)

/-- `strlen`. -/
def strlen (m : GuestMem) (str : U64) : Option Nat :=
  if str = 0#64 then some 0 else strlenLoop m walkBound str

/-! ## `run` -/

/-- The loop of `write_virtual_addr`; `mapped` says that `get_phys_addr` finds the page. -/
def writePages (mapped : U64 → Bool) : Nat → U64 → List (BitVec 8) → GuestMem → Bool × GuestMem
  | 0, _, _, m => (true, m)
  | fuel + 1, virtualAddr, source, m =>
      if source = [] then (true, m)
      else if mapped virtualAddr = false then (false, m)
      else
        let pageBytes := min (4096 - virtualAddr.toNat % 4096) source.length
        writePages mapped fuel (offset virtualAddr pageBytes) (source.drop pageBytes)
          (store m virtualAddr (source.take pageBytes))

/-- `write_virtual_addr` of the host. -/
def hostWrite (mapped : U64 → Bool) (virtualAddr : U64) (source : List (BitVec 8)) (m : GuestMem) :
    Bool × GuestMem := writePages mapped (source.length + 1) virtualAddr source m

/-- The loops of `run` that write `argv` and `envp`, from the last string to the first: the
pointers, `ksp` and the memory.  `none` stands for the `exit` after a failed write. -/
def pushStrings (mapped : U64 → Bool) : List CString → U64 → GuestMem → Option
    (List U64 × U64 × GuestMem)
  | [], ksp, m => some ([], ksp, m)
  | s :: strings, ksp, m => do
      let (ptrs, ksp, m) ← pushStrings mapped strings ksp m
      let argSize := s.bytes.length
      let ksp := ksp - BitVec.ofNat 64 argSize
      let (written, m) := hostWrite mapped ksp s.bytes m
      if written = true then some (ksp :: ptrs, ksp, m) else none

/-- `MIN_ALIGN`. -/
def minAlign : U64 := 8#64

/-- What `run` hands to the kernel in registers, and the memory. -/
structure KernelArgs where
  argvStart : U64
  envpStart : U64
  mem : GuestMem

/-- The part of `run` that lays out the arguments.  Whether the arrays have been written is
not looked at. -/
def runArgs (mapped : U64 → Bool) (kspMax : U64) (argv envp : List CString) (m : GuestMem) :
    Option KernelArgs := do
  let (kernelArgv, ksp, m) ← pushStrings mapped argv kspMax m
  let (kernelEnvp, ksp, m) ← pushStrings mapped envp ksp m
  let ksp := p2Align ksp minAlign
  let argvStart := ksp - BitVec.ofNat 64 (8 * argv.length)
  let m := (hostWrite mapped argvStart (wordsBytes kernelArgv) m).2
  let envpStart := argvStart - BitVec.ofNat 64 (8 * (envp.length + 1))
  let m := (hostWrite mapped envpStart (wordsBytes (kernelEnvp ++ [0#64])) m).2
  some ⟨argvStart, envpStart, m⟩

/-! ## `load_user_land` -/

/-- The fields of `elf_info_t` that the auxiliary vector is made of. -/
structure ElfInfo where
  entryAddr : U64
  baseAddr : U64
  loadAddr : U64
  phdrOff : U64
  phdrNum : U64

/-- `AT_PHDR`. -/
def atPhdr : U64 := 3#64
/-- `AT_PHENT`. -/
def atPhent : U64 := 4#64
/-- `AT_PHNUM`. -/
def atPhnum : U64 := 5#64
/-- `AT_PAGESZ`. -/
def atPagesz : U64 := 6#64
/-- `AT_BASE`. -/
def atBase : U64 := 7#64
/-- `AT_FLAGS`. -/
def atFlags : U64 := 8#64
/-- `AT_ENTRY`. -/
def atEntry : U64 := 9#64
/-- `AT_RANDOM`. -/
def atRandom : U64 := 25#64
/-- `sizeof(elf64_phdr_t)`. -/
def sizeofPhdr : U64 := 56#64
/-- `MAX_ENTRIES`. -/
def maxAuxEntries : Nat := 10

/-- `new_aux_entry`. -/
def newAuxEntry (id value : U64) (entries : List U64) : List U64 :=
  if maxAuxEntries * 2 < entries.length + 2 then entries else entries ++ [id, value]

/-- The calls of `new_aux_entry` in `load_user_land`. -/
def auxEntries (info : ElfInfo) (randomBytes : U64) : List U64 :=
  let entries := newAuxEntry atEntry info.entryAddr []
  let entries := newAuxEntry atFlags 0#64 entries
  let entries := newAuxEntry atBase info.baseAddr entries
  let entries := newAuxEntry atPhnum info.phdrNum entries
  let entries := newAuxEntry atPhent sizeofPhdr entries
  let entries := newAuxEntry atPhdr (info.loadAddr + info.phdrOff) entries
  let entries := newAuxEntry atPagesz pageSize entries
  newAuxEntry atRandom randomBytes entries

/-- `stack_alloc`. -/
def stackAlloc (sp : U64) (length : Nat) : U64 := sp - BitVec.ofNat 64 length

/-- `stack_round`. -/
def stackRound (sp : U64) : U64 := sp &&& ~~~15#64

/-- The loop that counts `envp`. -/
def countEnvp (m : GuestMem) : Nat → U64 → Option Nat
  | 0, _ => none
  | fuel + 1, envpCopy =>
      if loadWord m envpCopy = 0#64 then some 0 else (countEnvp m fuel (offset envpCopy 8)).map
        (· + 1)

/-- The words of an array. -/
def loadWords (m : GuestMem) (array : U64) (n : Nat) : List U64 :=
  (List.range n).map fun i => loadWord m (offset array (8 * i))

/-- The loops that reserve the strings of `argv` and `envp`, from the last to the first: the
addresses, the size of all and the stack pointer. -/
def reserveStrings (m : GuestMem) : List U64 → U64 → Option (List U64 × Nat × U64)
  | [], esp => some ([], 0, esp)
  | ptr :: ptrs, esp => do
      let (args, size, esp) ← reserveStrings m ptrs esp
      let argSize := (← strlen m ptr) + 1
      let arg := stackAlloc esp argSize
      some (arg :: args, size + argSize, arg)

/-- Words are written from `usp` up. -/
def putWords (words : List U64) (x : U64 × GuestMem) : U64 × GuestMem :=
  (offset x.1 (8 * words.length), store x.2 x.1 (wordsBytes words))

/-- The writes of `load_user_land` after `grow_stack`: the strings, and the words from `esp` up. -/
def writeUserLand (argc : Nat) (argv envp : U64) (userArgv userEnvp entries : List U64)
    (argvArrayStart : U64) (argvArraySize : Nat) (envpArrayStart : U64) (envpArraySize : Nat)
    (esp : U64) (m : GuestMem) : GuestMem :=
  let m := memcpy argvArrayStart (loadWord m argv) argvArraySize m
  let m := memcpy envpArrayStart (loadWord m envp) envpArraySize m
  let x := putWords [BitVec.ofNat 64 argc] (esp, m)
  let x := putWords userArgv x
  let x := putWords [0#64] x
  let x := putWords userEnvp x
  let x := putWords [0#64] x
  let x := entries.foldl (fun x entry => putWords [entry] x) x
  -- the null pair at the end
  ByteMem.store x.2 x.1 (List.replicate 16 0#8)

/-- What the user's program starts with. -/
structure UserStart (σ η : Type) where
  esp : U64
  mem : GuestMem
  store : St σ η

/-- `load_user_land` up to the switch. -/
def loadUserLand (E : Env σ η) (esp : U64) (info : ElfInfo) (argc : Nat) (argv envp : U64)
    (m : GuestMem) (s : St σ η) : Option (UserStart σ η) := do
  let envc ← countEnvp m walkBound envp
  let (userArgv, argvArraySize, esp) ← reserveStrings m (loadWords m argv argc) esp
  let argvArrayStart := esp
  let (userEnvp, envpArraySize, esp) ← reserveStrings m (loadWords m envp envc) esp
  let envpArrayStart := esp
  let randomBytes := stackAlloc esp 16
  let entries := auxEntries info randomBytes
  let esp := stackAlloc randomBytes ((entries.length + 2) * 8)
  let items := ((argc + 1) + (envc + 1) + 1) * 8
  let esp := stackRound (stackAlloc esp items)
  let (_, s) ← growStack E s.glob.userStackVma esp s
  some ⟨esp, writeUserLand argc argv envp userArgv userEnvp entries argvArrayStart argvArraySize
    envpArrayStart envpArraySize esp m, s⟩

end BufferVM
