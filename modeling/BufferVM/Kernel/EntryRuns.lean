/-
  Kernel/EntryRuns.lean --- the entries into the kernel, one after the other.

  `switch_user_land` enters the program for the first time.  From then on the program runs,
  makes system calls, faults and is stepped over its checked writes, in any order; every time
  it runs the processor is set up for the next entry, and it has the privilege of the kernel
  for one instruction at most.
-/
import BufferVM.Kernel.DebugEntry
import BufferVM.Kernel.KernelFault

set_option autoImplicit false

namespace BufferVM

open X86 ByteMem

/-! ## One checked write -/

/-- The program's instruction is to run: it is the one that has faulted, and the registers are
the program's but for the stack pointer.  A debug exception follows it. -/
structure AtInstruction (L : Layout) (u k : Machine) : Prop where
  armed : Armed L (u.reg .rsp) 1#64 k
  rip : k.rip = u.rip
  rflags : k.rflags = setBit (u.rflags ||| singleStepF) resumeFlag false
  reg : ∀ r, r ≠ .rsp → k.reg r = u.reg r

/-- An instruction that runs with the privilege of the kernel: the kernel's own data is left
alone, and the stack pointer stays in the stack. -/
structure Executed (L : Layout) (k k' : Machine) : Prop where
  cs : k'.cs = k.cs
  deep : ∃ d, d + 256 ≤ L.stackSize ∧ Deep L k' d
  msr : k'.msr = k.msr
  cpu : ∀ i < 168, k'.mem (offset L.cpuInfo i) = k.mem (offset L.cpuInfo i)
  var : ∀ i < 8, k'.mem (offset L.kernelStack i) = k.mem (offset L.kernelStack i)

/-- The program goes on behind the instruction, with what the instruction has left in the
registers, the stack pointer apart. -/
structure BackFrom (L : Layout) (u k' u' : Machine) : Prop where
  atUser : AtUser L u'
  rip : u'.rip = k'.rip
  rflags : u'.rflags = setBit k'.rflags trapFlag false
  rsp : u'.reg .rsp = u.reg .rsp
  reg : ∀ r, r ≠ .rsp → u'.reg r = k'.reg r

theorem Armed.executed {L : Layout} {rsp n : Word} {k k' : Machine} (h : Armed L rsp n k)
    (hk : Executed L k k') : Armed L rsp n k' where
  cs := hk.cs.trans h.cs
  deep := hk.deep
  kernelGs := by rw [hk.msr, h.kernelGs]
  star := by rw [hk.msr, h.star]
  lstar := by rw [hk.msr, h.lstar]
  sfmask := by rw [hk.msr, h.sfmask]
  var := by
    rw [← h.var]
    exact loadWord_congr hk.var
  dcntr := by
    rw [← h.dcntr]
    exact loadAt_congr fun i hi => by
      rw [offset_offset]
      exact hk.cpu _ (by have hi4 : i < 4 := hi; omega)
  dsp := by
    rw [← h.dsp]
    exact loadAt_congr fun i hi => by
      rw [offset_offset]
      exact hk.cpu _ (by have hi8 : i < 8 := hi; omega)

/-- After the first exception the instruction is to run. -/
theorem Stepping.continued {L : Layout} {u m s k : Machine} (h : Stepping L u m s)
    (hk : Continued L (u.reg .rsp) s k) : AtInstruction L u k where
  armed := hk.armed
  rip := hk.rip.trans h.rip
  rflags := hk.rflags.trans h.rflags
  reg := fun r hr => (hk.reg r).trans (h.reg r hr)

/-- What comes of an access that the check has let through, `m` being what the check has come
back with: the two exceptions and the instruction between them. -/
def StepsOver (L : Layout) (fns : Functions Fn) (u m s : Machine) : Prop :=
  Stepping L u m s ∧ ∃ k, LeftWith fns (idtDebugHandler L) (debugTrap L s) k ∧
    AtInstruction L u k ∧ ∀ k', Executed L k k' →
      ∃ u', LeftWith fns (idtDebugHandler L) (debugTrap L k') u' ∧ BackFrom L u k' u'

theorem Stepping.stepsOver {L : Layout} {u m s : Machine} (h : Stepping L u m s)
    (fns : Functions Fn) (hL : L.Sound) : StepsOver L fns u m s := by
  obtain ⟨k, hk, hcontinued⟩ := leftWith_of_leaves (debugContinue_ends fns hL h.armed)
  have hat := h.continued hcontinued
  refine ⟨h, k, hk, hat, fun k' hexec => ?_⟩
  obtain ⟨u', hu', hback⟩ := leftWith_of_leaves
    (debugExit_ends fns hL (hat.armed.executed hexec))
  exact ⟨u', hu', hback.atUser, hback.rip, hback.rflags, hback.rsp, hback.reg⟩

/-- A checked write: the code is left exactly if the check gives something other than zero.  Then
the instruction that has faulted runs once, and if it leaves the kernel's data alone, the
program goes on behind it. -/
theorem checkedWrite_steps {L : Layout} {fns : Functions Fn} {u : Machine} {e : Word}
    (hL : L.Sound) (habi : Abi L fns) (hu : AtUser L u) (huser : e.getLsbD 2 = true)
    (hpresent : e.getLsbD 0 = true) :
    ∃ mc, AtCheck L u mc ∧
      ((∃ s, LeftWith fns (idtPageFaultHandler L) (pageFault L u e) s) ↔
        ∃ m, fns.named .checkVersion mc = some m ∧ m.reg .rax ≠ 0#64) ∧
      ∀ s, LeftWith fns (idtPageFaultHandler L) (pageFault L u e) s →
        ∃ m, fns.named .checkVersion mc = some m ∧ StepsOver L fns u m s := by
  have hleaves := userPageFault_ends hL habi hu huser
  rw [hpresent, if_pos rfl] at hleaves
  obtain ⟨n, x, hrun, mc, hcall, hends⟩ := hleaves
  have hunique : ∀ s, LeftWith fns (idtPageFaultHandler L) (pageFault L u e) s → x = some s :=
    fun s h => h.of_leaves (Q := fun y => x = y) ⟨n, x, hrun, rfl⟩
  have hnone : x = none → ∀ s, ¬ LeftWith fns (idtPageFaultHandler L) (pageFault L u e) s := by
    intro hx s hs
    rw [hx] at hunique
    exact absurd (hunique s hs) (by simp)
  cases hcheck : fns.named .checkVersion mc with
  | none =>
      -- the check itself does not come back
      rw [hcheck] at hends
      refine ⟨mc, hcall, ⟨fun ⟨s, hs⟩ => absurd hs (hnone hends s), fun ⟨m, hm, _⟩ => ?_⟩,
        fun s hs => absurd hs (hnone hends s)⟩
      exact absurd (hcheck.symm.trans hm) (by simp)
  | some m =>
      rw [hcheck] at hends
      by_cases hzero : m.reg .rax = 0#64
      · -- the check refuses
        have hx := (if_pos hzero).mp hends
        refine ⟨mc, hcall, ⟨fun ⟨s, hs⟩ => absurd hs (hnone hx s), fun ⟨m', hm', hne⟩ => ?_⟩,
          fun s hs => absurd hs (hnone hx s)⟩
        obtain rfl := Option.some.inj (hcheck.symm.trans hm')
        exact absurd hzero hne
      · obtain ⟨s, rfl, hstep⟩ := (if_neg hzero).mp hends
        refine ⟨mc, hcall, ⟨fun _ => ⟨m, hcheck, hzero⟩, fun _ => ⟨s, n, hrun⟩⟩, fun t ht => ?_⟩
        obtain rfl := Option.some.inj (hunique t ht)
        exact ⟨m, hcheck, hstep.stepsOver fns hL⟩

/-- A program writes to a page that is there: the check lets it through. -/
theorem checkedWrite_steps_write : ∃ s m k u',
    LeftWith sampleFns (idtPageFaultHandler sampleLayout)
      (pageFault sampleLayout sampleUser 7#64) s ∧
    StepsOver sampleLayout sampleFns sampleUser m s ∧ AtInstruction sampleLayout sampleUser k ∧
    LeftWith sampleFns (idtDebugHandler sampleLayout)
      (debugTrap sampleLayout (k.setReg .rbx 1#64)) u' ∧
    BackFrom sampleLayout sampleUser (k.setReg .rbx 1#64) u' := by
  obtain ⟨mc, -, hiff, hsteps⟩ :=
    checkedWrite_steps (u := sampleUser) (e := 7#64) sampleLayout_sound sampleFns_abi
      sampleUser_atUser (by decide) (by decide)
  obtain ⟨s, hs⟩ := hiff.mpr ⟨mc.setReg .rax 1#64, rfl, by
    rw [Machine.reg_setReg, if_pos rfl]
    decide⟩
  obtain ⟨m, -, hover⟩ := hsteps s hs
  obtain ⟨hstep, k, hk, hat, hgo⟩ := hover
  have hexec : Executed sampleLayout k (k.setReg .rbx 1#64) := by
    obtain ⟨d, hroom, hdeep⟩ := hat.armed.deep
    exact ⟨rfl, ⟨d, hroom, hdeep⟩, rfl, fun _ _ => rfl, fun _ _ => rfl⟩
  obtain ⟨u', hu', hback⟩ := hgo _ hexec
  exact ⟨s, m, k, u', hs, ⟨hstep, k, hk, hat, hgo⟩, hat, hu', hback⟩

/-! ## The processor is set up -/

/-- `cpu_init` gives the kernel its `%gs`, and no exception is to be counted. -/
structure CpuReady (L : Layout) (m m' : Machine) : Prop where
  gs : m'.msr msrGsBase = L.cpuInfo
  msr : ∀ i, i ≠ msrGsBase → m'.msr i = m.msr i
  dcntr : m'.loadAt .l (offset L.cpuInfo 24) = 0#64
  rip : m'.rip = m.top
  rsp : m'.reg .rsp = m.reg .rsp + 8#64
  mem : KeepsMem L m m'

theorem cpuInit_ready {L : Layout} (fns : Functions Fn) {m : Machine} {d : Nat} (hL : L.Sound)
    (hdeep : Deep L m d) (hd : d ≤ L.stackSize) (h8 : 8 ≤ d) :
    Leaves fns (cpuInit L) (cpuInit L) m (fun x => ∃ m', x = some m' ∧ CpuReady L m m') := by
  let m1 := m.setReg .rax (Machine.merge .w (m.reg .rax) (trunc .w 0#64))
  let m2 := m1.setMsr msrGsBase 0#64
  let m3 := m2.setReg .rdx (trunc .l (trunc .l (kernelCs ||| (userDs - 8#64) <<< 16)))
  let m4 := m3.setReg .rcx L.cpuInfo
  let m5 := m4.setReg .rax (trunc .l (trunc .l L.cpuInfo))
  let m6 := (((m5.logicFlags .q (L.cpuInfo >>> 32)).setFlags (setBit
    (m5.logicFlags .q (L.cpuInfo >>> 32)).rflags carryFlag (L.cpuInfo.getLsbD 31))).setReg .rcx
    (L.cpuInfo >>> 32))
  let m7 := m6.setReg .rdx (trunc .l (trunc .l (L.cpuInfo >>> 32)))
  let m8 := m7.setReg .rcx (trunc .l (trunc .l msrGsBase))
  let m9 := m8.setMsr msrGsBase L.cpuInfo
  let m10 := m9.storeAt .l (offset L.cpuInfo 24) 0#64
  let m11 := { m10.drop with rip := m.top }
  have hclear : Clear (offset L.cpuInfo 24) 4 (m.reg .rsp) 8 := by
    rw [hdeep]
    exact (Layout.clear_frame (hL.cpu.symm.part (by decide) (by decide)).symm hd (by decide)
      h8).symm
  have htop : m10.top = m.top :=
    (Machine.loadAt_storeAt_of_clear m9 hclear :
      m10.loadAt .q (m.reg .rsp) = m9.loadAt .q (m.reg .rsp))
  have hwide : m8.wide .rdx .rax = L.cpuInfo := by
    show trunc .l (trunc .l (trunc .l (L.cpuInfo >>> 32))) <<< 32
      ||| trunc .l (trunc .l (trunc .l L.cpuInfo)) = _
    simp only [trunc_trunc, shiftLeft_or_trunc]
  refine Leaves.go (s := m1) rfl (Leaves.go (s := m2) rfl (Leaves.go (s := m3) rfl
    (Leaves.go (s := m4) ?_ (Leaves.go (s := m5) rfl (Leaves.go (s := m6) rfl
    (Leaves.go (s := m7) rfl (Leaves.go (s := m8) rfl (Leaves.go (s := m9) ?_
    (Leaves.go (s := m10) rfl (Leaves.leave (s := m11) ?_ ⟨m11, rfl, ?_⟩))))))))))
  · show Next.go (m3.setReg .rcx (trunc .q L.cpuInfo)) = _
    rw [trunc_q]
  · show Next.go (m8.setMsr (trunc .l (trunc .l (trunc .l msrGsBase))) (m8.wide .rdx .rax)) = _
    rw [hwide]
    rfl
  · show Next.leave { m10.drop with rip := m10.top } = _
    rw [htop]
  · exact
      { gs := rfl
        msr := by
          intro i hi
          show (if i = msrGsBase then _ else if i = msrGsBase then _ else m.msr i) = _
          rw [if_neg hi, if_neg hi]
        dcntr := Machine.loadAt_storeAt m9 .l _ _
        rip := rfl
        rsp := rfl
        mem := KeepsMem.storeCpu (s := m9) (fun _ _ => rfl) rfl (by decide) }

/-- `syscall_setup` makes a system call go to `syscall_entry`, with the selectors of the kernel
and back with those of the program, and with the trap flag off. -/
structure SyscallReady (L : Layout) (m m' : Machine) : Prop where
  star : m'.msr msrStar >>> 32 = kernelCs ||| (userDs - 8#64) <<< 16
  lstar : m'.msr msrLstar = L.syscallEntry
  sfmask : m'.msr msrSfmask = singleStepF
  efer : (m'.msr msrEfer).getLsbD 0 = true
  msr : ∀ i, i ∉ [msrStar, msrLstar, msrSfmask, msrEfer] → m'.msr i = m.msr i
  rip : m'.rip = m.top
  rsp : m'.reg .rsp = m.reg .rsp + 8#64
  mem : m'.mem = m.mem

theorem syscallSetup_ready {L : Layout} (fns : Functions Fn) (m : Machine) :
    Leaves fns (syscallSetup L) (syscallSetup L) m
      (fun x => ∃ m', x = some m' ∧ SyscallReady L m m') := by
  let sel := kernelCs ||| (userDs - 8#64) <<< 16
  let entry := L.syscallEntry
  let m1 := m.setReg .rax (trunc .l (trunc .l singleStepF))
  let m2 := m1.setReg .rdx (trunc .l (trunc .l 0#64))
  let m3 := m2.setReg .rcx (trunc .l (trunc .l msrSfmask))
  let m4 := m3.setMsr msrSfmask singleStepF
  let m5 := m4.setReg .rdx (trunc .l (trunc .l sel))
  let m6 := m5.setReg .rcx (trunc .l (trunc .l msrStar))
  let m7 := m6.setMsr msrStar (sel <<< 32 ||| singleStepF)
  let m8 := m7.setReg .rcx entry
  let m9 := m8.setReg .rax (trunc .l (trunc .l entry))
  let m10 := ((m9.logicFlags .q (entry >>> 32)).setFlags (setBit
    (m9.logicFlags .q (entry >>> 32)).rflags carryFlag (entry.getLsbD 31))).setReg .rcx
    (entry >>> 32)
  let m11 := m10.setReg .rdx (trunc .l (trunc .l (entry >>> 32)))
  let m12 := m11.setReg .rcx (trunc .l (trunc .l msrLstar))
  let m13 := m12.setMsr msrLstar entry
  let m14 := m13.setReg .rcx (trunc .l (trunc .l msrEfer))
  let m15 := (m14.setReg .rax (trunc .l (m.msr msrEfer))).setReg .rdx (m.msr msrEfer >>> 32)
  let low := trunc .l (trunc .l (m.msr msrEfer)) ||| trunc .l 1#64
  let m16 := (m15.logicFlags .l low).setReg .rax (trunc .l low)
  let m17 := m16.setMsr msrEfer (m16.wide .rdx .rax)
  let m18 := { m17.drop with rip := m.top }
  -- the register that `wrmsr` writes, and what it writes
  have hindex : ∀ {i : Word}, i.toNat < 2 ^ 32 → trunc .l (trunc .l (trunc .l i)) = i := by
    intro i hi
    rw [trunc_trunc, trunc_trunc]
    apply BitVec.eq_of_toNat_eq
    rw [trunc, BitVec.toNat_ofNat, show Width.bits .l = 32 from rfl, Nat.mod_eq_of_lt hi,
      Nat.mod_eq_of_lt i.isLt]
  have hmask : m3.wide .rdx .rax = singleStepF := by
    show trunc .l (trunc .l (trunc .l 0#64)) <<< 32
      ||| trunc .l (trunc .l (trunc .l singleStepF)) = _
    decide
  have hsel : m6.wide .rdx .rax = sel <<< 32 ||| singleStepF := by
    show trunc .l (trunc .l (trunc .l sel)) <<< 32
      ||| trunc .l (trunc .l (trunc .l singleStepF)) = _
    decide
  have hentry : m12.wide .rdx .rax = entry := by
    show trunc .l (trunc .l (trunc .l (entry >>> 32))) <<< 32
      ||| trunc .l (trunc .l (trunc .l entry)) = _
    simp only [trunc_trunc, shiftLeft_or_trunc]
  refine Leaves.go (s := m1) rfl (Leaves.go (s := m2) rfl (Leaves.go (s := m3) rfl
    (Leaves.go (s := m4) ?_ (Leaves.go (s := m5) rfl (Leaves.go (s := m6) rfl
    (Leaves.go (s := m7) ?_ (Leaves.go (s := m8) ?_ (Leaves.go (s := m9) rfl
    (Leaves.go (s := m10) rfl (Leaves.go (s := m11) rfl (Leaves.go (s := m12) rfl
    (Leaves.go (s := m13) ?_ (Leaves.go (s := m14) rfl (Leaves.go (s := m15) ?_
    (Leaves.go (s := m16) rfl (Leaves.go (s := m17) ?_
    (Leaves.leave (s := m18) rfl ⟨m18, rfl, ?_⟩)))))))))))))))))
  · show Next.go (m3.setMsr (trunc .l (trunc .l (trunc .l msrSfmask))) (m3.wide .rdx .rax)) = _
    rw [hmask, hindex (by decide)]
  · show Next.go (m6.setMsr (trunc .l (trunc .l (trunc .l msrStar))) (m6.wide .rdx .rax)) = _
    rw [hsel, hindex (by decide)]
  · show Next.go (m7.setReg .rcx (trunc .q entry)) = _
    rw [trunc_q]
  · show Next.go (m12.setMsr (trunc .l (trunc .l (trunc .l msrLstar))) (m12.wide .rdx .rax)) = _
    rw [hentry, hindex (by decide)]
  · show Next.go ((m14.setReg .rax (trunc .l (m14.msr (trunc .l (trunc .l (trunc .l
      msrEfer)))))).setReg .rdx (m14.msr (trunc .l (trunc .l (trunc .l msrEfer))) >>> 32)) = _
    rw [hindex (by decide)]
    rfl
  · show Next.go (m16.setMsr (trunc .l (trunc .l (trunc .l msrEfer))) (m16.wide .rdx .rax)) = _
    rw [hindex (by decide)]
  · exact
      { star := by
          show (sel <<< 32 ||| singleStepF) >>> 32 = _
          decide
        lstar := rfl
        sfmask := rfl
        efer := by
          show (trunc .l (m.msr msrEfer >>> 32) <<< 32 ||| trunc .l (trunc .l low)).getLsbD 0 = true
          rw [BitVec.getLsbD_or, trunc_trunc, getLsbD_trunc, BitVec.getLsbD_or]
          simp [trunc, Width.bits, Width.bytes]
        msr := by
          intro i hi
          simp only [List.mem_cons, List.not_mem_nil, or_false, not_or] at hi
          obtain ⟨hstar, hlstar, hsfmask, hefer⟩ := hi
          show (if i = msrEfer then _ else if i = msrLstar then _ else if i = msrStar then _ else
            if i = msrSfmask then _ else m.msr i) = _
          rw [if_neg hefer, if_neg hlstar, if_neg hstar, if_neg hsfmask]
        rip := rfl
        rsp := rfl
        mem := rfl }

/-! ## The first entry -/

/-- The kernel is about to enter the program: the processor is set up. -/
structure KernelReady (L : Layout) (k : Machine) : Prop where
  deep : ∃ d, d + 40 ≤ L.stackSize ∧ Deep L k d
  gs : k.msr msrGsBase = L.cpuInfo
  star : k.msr msrStar >>> 32 = kernelCs ||| (userDs - 8#64) <<< 16
  lstar : k.msr msrLstar = L.syscallEntry
  sfmask : k.msr msrSfmask = singleStepF
  var : loadWord k.mem L.kernelStack = L.top
  dcntr : k.loadAt .l (offset L.cpuInfo 24) = 0#64

/-- What the code of the kernel between two steps of the boot leaves as it is. -/
structure Undisturbed (L : Layout) (m m' : Machine) : Prop where
  gs : m'.msr msrGsBase = m.msr msrGsBase
  star : m'.msr msrStar = m.msr msrStar
  lstar : m'.msr msrLstar = m.msr msrLstar
  sfmask : m'.msr msrSfmask = m.msr msrSfmask
  cpu : ∀ i < 168, m'.mem (offset L.cpuInfo i) = m.mem (offset L.cpuInfo i)

/-- `kernel_main` from `cpu_init` on: `m`, and then `syscall_init`; `k` is at the end of
`load_user_land`, with the kernel's stack still in `kernel_stack`. -/
inductive Boots (L : Layout) (fns : Functions Fn) (m k : Machine) : Prop
  | mk {m1 m2 m3 : Machine} {d d' : Nat} (start : Deep L m d) (hd : d ≤ L.stackSize) (h8 : 8 ≤ d)
      (cpu : LeftWith fns (cpuInit L) m m1) (between : Undisturbed L m1 m2)
      (setup : LeftWith fns (syscallSetup L) m2 m3) (rest : Undisturbed L m3 k)
      (var : loadWord k.mem L.kernelStack = L.top) (deep : Deep L k d')
      (room : d' + 40 ≤ L.stackSize)

/-- Two words of `cpu_info` of which no byte has changed. -/
theorem Undisturbed.loadCpu {L : Layout} {m m' : Machine} (h : Undisturbed L m m') {size : Width}
    {i : Nat} (hi : i + size.bytes ≤ 168) :
    m'.loadAt size (offset L.cpuInfo i) = m.loadAt size (offset L.cpuInfo i) := by
  refine loadAt_congr fun j hj => ?_
  rw [offset_offset]
  exact h.cpu _ (by omega)

theorem Boots.ready {L : Layout} {fns : Functions Fn} {m k : Machine} (hL : L.Sound)
    (h : Boots L fns m k) : KernelReady L k := by
  obtain ⟨start, hd, h8, ⟨n, hcpu⟩, between, ⟨n', hsetup⟩, rest, var, deep, room⟩ := h
  obtain ⟨_, heq, hready⟩ := (cpuInit_ready fns hL start hd h8).unique hcpu
  cases heq
  obtain ⟨_, heq, hcall⟩ := (syscallSetup_ready fns (L := L) _).unique hsetup
  cases heq
  exact
    { deep := ⟨_, room, deep⟩
      gs := by rw [rest.gs, hcall.msr _ (by decide), between.gs, hready.gs]
      star := by rw [rest.star, hcall.star]
      lstar := by rw [rest.lstar, hcall.lstar]
      sfmask := by rw [rest.sfmask, hcall.sfmask]
      var := var
      dcntr := by
        rw [rest.loadCpu (by decide), ← hready.dcntr, ← between.loadCpu (by decide)]
        exact loadAt_congr fun _ _ => congrFun hcall.mem _ }

/-- An instruction of the program with its own privilege: it cannot change the segments, the
model-specific registers or the memory of the kernel. -/
structure ProgramStep (L : Layout) (u u' : Machine) : Prop where
  cs : u'.cs = u.cs
  ss : u'.ss = u.ss
  msr : ∀ i, i ≠ msrGsBase → u'.msr i = u.msr i
  cpu : ∀ i < 168, u'.mem (offset L.cpuInfo i) = u.mem (offset L.cpuInfo i)
  var : ∀ i < 8, u'.mem (offset L.kernelStack i) = u.mem (offset L.kernelStack i)

theorem ProgramStep.atUser {L : Layout} {u u' : Machine} (h : ProgramStep L u u')
    (hu : AtUser L u) : AtUser L u' where
  cs := h.cs.trans hu.cs
  ss := h.ss.trans hu.ss
  kernelGs := (h.msr _ (by decide)).trans hu.kernelGs
  star := by rw [h.msr _ (by decide), hu.star]
  lstar := (h.msr _ (by decide)).trans hu.lstar
  sfmask := (h.msr _ (by decide)).trans hu.sfmask
  var := by
    rw [← hu.var]
    exact loadWord_congr h.var
  dcntr := by
    rw [← hu.dcntr]
    refine loadAt_congr fun i hi => ?_
    have hi4 : i < 4 := hi
    rw [offset_offset]
    exact h.cpu _ (by omega)

theorem SyscallEnds.atUser {L : Layout} {fns : Functions Fn} {u u' : Machine}
    (h : SyscallEnds L fns u (some u')) : AtUser L u' := by
  rw [SyscallEnds] at h
  split at h
  · obtain ⟨mc, _, h⟩ := h
    split at h
    · obtain ⟨x, hx, hback⟩ := h
      cases hx
      exact hback.atUser
    · exact absurd h (by simp)
  · obtain ⟨x, hx, hout⟩ := h
    cases hx
    exact hout.atUser

theorem MissingEnds.atUser {L : Layout} {fns : Functions Fn} {u u' : Machine} {e : Word}
    (h : MissingEnds L fns u e (some u')) : AtUser L u' := by
  obtain ⟨mc, _, h⟩ := h
  split at h
  · split at h
    · exact absurd h (by simp)
    · obtain ⟨x, hx, hback⟩ := h
      cases hx
      exact hback.atUser
  · exact absurd h (by simp)

theorem ShowEnds.atUser {L : Layout} {fns : Functions Fn} {u u' : Machine}
    (h : ShowEnds L fns u (some u')) : AtUser L u' := by
  obtain ⟨mc, _, h⟩ := h
  split at h
  · obtain ⟨x, hx, hback⟩ := h
    cases hx
    exact hback.atUser
  · exact absurd h (by simp)

end BufferVM
