/-
  Kernel/DebugEntry.lean --- the debug exceptions that a checked write is run between.

  The first one comes when the fault handler has jumped back, and only counts.  The second one
  comes when the instruction of the program has run, and brings the program back to its own
  privilege and stack.  One that the program has asked for itself shows the instruction and
  gives every register back.
-/
import BufferVM.Kernel.CheckEntry

set_option autoImplicit false

namespace BufferVM

open X86 ByteMem

/-- The delivery of a debug exception after an instruction. -/
def debugTrap (L : Layout) (m : Machine) : Machine := m.raise kernelCs L.top m.rflags none

/-- The exception has come in, and `%gs` is the kernel's. -/
structure Trapped (L : Layout) (s m : Machine) : Prop where
  reg : ∀ r, r ≠ .rsp → m.reg r = s.reg r
  stack : m.Stack [s.rip, s.cs, s.rflags, s.reg .rsp, s.ss]
  deep : ∃ d, d + 176 ≤ L.stackSize ∧ 40 ≤ d ∧ Deep L m d
  cs : m.cs = kernelCs
  gs : m.msr msrGsBase = L.cpuInfo
  kernelGs : m.msr msrKernelGsBase = s.msr msrGsBase
  msr : ∀ i, i ≠ msrGsBase → i ≠ msrKernelGsBase → m.msr i = s.msr i
  mem : StackOnly L s m

/-- The handler begins. -/
theorem trapped_runs {L : Layout} {fns : Functions Fn} {s : Machine} {d : Nat}
    {code k : List (Item Label Fn)} {Q : Option Machine → Prop}
    (hgs : s.msr msrKernelGsBase = L.cpuInfo)
    (hd : (if s.inUser then L.top else s.reg .rsp) = L.top - BitVec.ofNat 64 d)
    (hroom : d + 256 ≤ L.stackSize) (h : ∀ m, Trapped L s m → Leaves fns code k m Q) :
    Leaves fns code (ins .swapgs :: k) (debugTrap L s) Q := by
  obtain ⟨t, ht, hdeep⟩ := deep_raise s.rflags none hd
  have honly : StackOnly L s (debugTrap L s) := stackOnly_raise hd (by omega)
  have hmsr : (debugTrap L s).msr = s.msr := Machine.msr_raise s kernelCs L.top s.rflags none
  have hm : Trapped L s (((debugTrap L s).setMsr msrGsBase L.cpuInfo).setMsr msrKernelGsBase
      (s.msr msrGsBase)) :=
    { reg := fun r hr => Machine.reg_raise s kernelCs L.top s.rflags none hr
      stack := (Machine.stack_raise s kernelCs L.top s.rflags none).congr rfl rfl
      deep := ⟨d + t + 40, by omega, by omega, hdeep⟩
      cs := Machine.cs_raise s kernelCs L.top s.rflags none
      gs := rfl
      kernelGs := rfl
      msr := fun i hi hi' => by
        show (if i = msrKernelGsBase then _ else if i = msrGsBase then _ else
          (debugTrap L s).msr i) = _
        rw [if_neg hi', if_neg hi, hmsr]
      mem := honly }
  refine Leaves.go ?_ (h _ hm)
  show Next.go (((debugTrap L s).setMsr msrGsBase ((debugTrap L s).msr msrKernelGsBase)).setMsr
    msrKernelGsBase ((debugTrap L s).msr msrGsBase)) = _
  rw [hmsr, hgs]

theorem target_idtDebugExit (L : Layout) :
    target (idtDebugHandler L) .idtDebugExit = idtDebugExit (idtDebugUserland L) := rfl

/-- The comparison of the count. -/
theorem step_cmpDcntr {L : Layout} {fns : Functions Fn} {m : Machine}
    (hgs : m.msr msrGsBase = L.cpuInfo) (v : Word) :
    step fns (Instr.cmp .l (.imm v) (.gs cpuTmpDcntr) : Instr Label Fn) m =
      .go (m.subFlags .l (m.loadAt .l (offset L.cpuInfo 24)) (trunc .l v)) := by
  show Next.go (m.subFlags .l (m.loadAt .l (m.msr msrGsBase + 24#64)) (trunc .l v)) = _
  rw [hgs]
  rfl

/-! ## The first exception -/

/-- Nothing but the count has changed. -/
structure Continued (L : Layout) (rsp : Word) (s k : Machine) : Prop where
  armed : Armed L rsp 1#64 k
  rip : k.rip = s.rip
  rflags : k.rflags = s.rflags
  reg : ∀ r, k.reg r = s.reg r
  gs : k.msr msrGsBase = s.msr msrGsBase
  mem : KeepsMem L s k

/-- The count is 1 now, and `%gs` is what it was before the exception. -/
def counted (L : Layout) (s m : Machine) : Machine :=
  (((((m.subFlags .l 2#64 0#64).subFlags .l 2#64 1#64).subFlags .l 2#64 1#64).storeAt .l
    (offset L.cpuInfo 24) 1#64).setMsr msrGsBase (s.msr msrGsBase)).setMsr msrKernelGsBase L.cpuInfo

section Counted

variable {L : Layout} {s m : Machine}

theorem Trapped.stack_counted (hL : L.Sound) (hm : Trapped L s m) :
    (counted L s m).Stack [s.rip, s.cs, s.rflags, s.reg .rsp, s.ss] := by
  obtain ⟨d, hroom, hd40, hdeep⟩ := hm.deep
  have hclear : Clear (offset L.cpuInfo 24) 4 (m.reg .rsp) 40 := by
    rw [hdeep]
    exact (Layout.clear_frame (hL.cpu.symm.part (by decide) (by decide)).symm (by omega)
      (by decide) (by omega)).symm
  let compared := ((m.subFlags .l 2#64 0#64).subFlags .l 2#64 1#64).subFlags .l 2#64 1#64
  have hstored : (compared.storeAt .l (offset L.cpuInfo 24) 1#64).Stack
      [s.rip, s.cs, s.rflags, s.reg .rsp, s.ss] :=
    Machine.Stack.storeAt (m := compared) (hm.stack.congr rfl rfl) hclear
  exact hstored.congr rfl rfl

theorem Trapped.keepsMem_counted (hm : Trapped L s m) : KeepsMem L s (counted L s m) :=
  let compared := ((m.subFlags .l 2#64 0#64).subFlags .l 2#64 1#64).subFlags .l 2#64 1#64
  KeepsMem.storeCpu (s := compared) hm.mem.keepsMem rfl (by decide)

theorem Trapped.msr_counted (hm : Trapped L s m) {i : Word} (hi : i ≠ msrGsBase)
    (hi' : i ≠ msrKernelGsBase) : (counted L s m).msr i = s.msr i := by
  show (if i = msrKernelGsBase then _ else if i = msrGsBase then _ else m.msr i) = _
  rw [if_neg hi', if_neg hi, hm.msr i hi hi']

/-- The return from the exception goes back to where it has come in. -/
theorem Trapped.continued (hL : L.Sound) {rsp : Word} (hs : Armed L rsp 2#64 s)
    (hm : Trapped L s m) : Continued L rsp s (counted L s m).iret := by
  rw [(hm.stack_counted hL).iret]
  obtain ⟨d, hroom, hdeep⟩ := hs.deep
  have hkeeps := hm.keepsMem_counted
  have hstar : (counted L s m).msr msrStar >>> 32 = kernelCs ||| (userDs - 8#64) <<< 16 := by
    rw [hm.msr_counted (i := msrStar) (by decide) (by decide)]
    exact hs.star
  have hreg : ∀ r, ((counted L s m).setReg .rsp (s.reg .rsp)).reg r = s.reg r := by
    intro r
    rw [Machine.reg_setReg]
    by_cases hr : r = .rsp
    · rw [if_pos hr, hr]
    · rw [if_neg hr]
      exact hm.reg r hr
  have hdsp : (counted L s m).loadAt .q (offset L.cpuInfo 16) = rsp := by
    rw [← hs.dsp, ← hm.mem.loadCpu hL (by decide)]
    exact Machine.loadAt_storeAt_of_clear _
      (clear_cpu L (by decide) (by decide) (by decide) (by decide)).symm
  exact
    { armed :=
        { cs := hs.cs
          deep := ⟨d, hroom, (hreg .rsp).trans hdeep⟩
          kernelGs := rfl
          star := hstar
          lstar := (hm.msr_counted (i := msrLstar) (by decide) (by decide)).trans hs.lstar
          sfmask := (hm.msr_counted (i := msrSfmask) (by decide) (by decide)).trans hs.sfmask
          var := by
            rw [← hs.var]
            exact loadWord_congr fun i hi => hkeeps.run hL.var hL.cpuVar hi
          dcntr := Machine.loadAt_storeAt _ .l _ _
          dsp := hdsp }
      rip := rfl
      rflags := rfl
      reg := hreg
      gs := rfl
      mem := hkeeps }

end Counted

theorem debugContinue_ends {L : Layout} (fns : Functions Fn) {s : Machine} {rsp : Word}
    (hL : L.Sound) (hs : Armed L rsp 2#64 s) :
    Leaves fns (idtDebugHandler L) (idtDebugHandler L) (debugTrap L s)
      (fun x => ∃ k, x = some k ∧ Continued L rsp s k) := by
  obtain ⟨d, hroom, hdeep⟩ := hs.deep
  have huser : s.inUser = false := by
    rw [Machine.inUser, hs.cs]
    decide
  have hd : (if s.inUser then L.top else s.reg .rsp) = L.top - BitVec.ofNat 64 d := by
    rw [huser, if_neg Bool.false_ne_true, hdeep]
  refine trapped_runs hs.kernelGs hd hroom fun m hm => ?_
  have hdcntr : m.loadAt .l (offset L.cpuInfo 24) = 2#64 :=
    (hm.mem.loadCpu hL (by decide)).trans hs.dcntr
  let c0 := m.subFlags .l 2#64 0#64
  let c1 := c0.subFlags .l 2#64 1#64
  let stored := (c1.subFlags .l 2#64 1#64).storeAt .l (offset L.cpuInfo 24) 1#64
  refine Leaves.go (s := c0) ?_ (Leaves.notTaken ?_ (Leaves.go (s := c1) ?_ (Leaves.notTaken ?_
    (Leaves.go (s := stored) ?_ (Leaves.go (s := counted L s m) ?_
    (Leaves.leave (s := (counted L s m).iret) rfl ⟨_, rfl, hm.continued hL hs⟩))))))
  · rw [step_cmpDcntr hm.gs, hdcntr]
    rfl
  · exact holds_e_cmp m .l 2#64 0#64
  · rw [step_cmpDcntr (m := c0) hm.gs, show c0.loadAt .l (offset L.cpuInfo 24) = 2#64 from hdcntr]
    rfl
  · exact holds_e_cmp c0 .l 2#64 1#64
  · show Next.go ((c1.subFlags .l (c1.loadAt .l (m.msr msrGsBase + 24#64)) 1#64).storeAt .l
      (m.msr msrGsBase + 24#64) (c1.loadAt .l (m.msr msrGsBase + 24#64) - 1#64)) = _
    have hload : c1.loadAt .l (L.cpuInfo + 24#64) = 2#64 := hdcntr
    rw [hm.gs, hload]
    rfl
  · show Next.go ((stored.setMsr msrGsBase (m.msr msrKernelGsBase)).setMsr msrKernelGsBase
      (m.msr msrGsBase)) = _
    rw [hm.gs, hm.kernelGs]
    rfl

/-! ## The second exception -/

/-- The program goes on behind its instruction; `rsp` is its stack pointer. -/
structure SteppedBack (L : Layout) (rsp : Word) (s u' : Machine) : Prop where
  atUser : AtUser L u'
  rip : u'.rip = s.rip
  rflags : u'.rflags = setBit s.rflags trapFlag false
  rsp : u'.reg .rsp = rsp
  reg : ∀ r, r ≠ .rsp → u'.reg r = s.reg r
  gs : u'.msr msrGsBase = s.msr msrGsBase
  mem : KeepsMem L s u'

/-- The exception is counted, and the frame is being rewritten for the program: `vs` is on the
stack. -/
structure Unwinding (L : Layout) (rsp : Word) (s : Machine) (vs : List Word) (m : Machine) :
    Prop where
  reg : ∀ r, r ≠ .rsp → r ≠ .rax → m.reg r = s.reg r
  stack : m.Stack vs
  deep : ∃ d, d ≤ L.stackSize ∧ 8 * vs.length ≤ d ∧ Deep L m d
  gs : m.msr msrGsBase = L.cpuInfo
  kernelGs : m.msr msrKernelGsBase = s.msr msrGsBase
  msr : ∀ i, i ≠ msrGsBase → i ≠ msrKernelGsBase → m.msr i = s.msr i
  dcntr : m.loadAt .l (offset L.cpuInfo 24) = 0#64
  dsp : m.loadAt .q (offset L.cpuInfo 16) = rsp
  mem : KeepsMem L s m

section Unwinding

variable {L : Layout} {s m : Machine} {rsp : Word} {vs : List Word}

theorem Unwinding.setRax (h : Unwinding L rsp s vs m) (v : Word) :
    Unwinding L rsp s vs (m.setReg .rax v) :=
  ⟨fun r hrsp hrax => (if_neg hrax).trans (h.reg r hrsp hrax), h.stack.congr rfl rfl, h.deep, h.gs,
    h.kernelGs, h.msr, h.dcntr, h.dsp, h.mem⟩

theorem Unwinding.setFlags (h : Unwinding L rsp s vs m) (v : Word) :
    Unwinding L rsp s vs (m.setFlags v) :=
  ⟨h.reg, h.stack.congr rfl rfl, h.deep, h.gs, h.kernelGs, h.msr, h.dcntr, h.dsp, h.mem⟩

/-- What is written to the stack only leaves the rest as it is. -/
theorem Unwinding.stackOnly {m' : Machine} {ws : List Word} (h : Unwinding L rsp s vs m)
    (hL : L.Sound) (honly : StackOnly L m m') (hstack : m'.Stack ws)
    (hdeep : ∃ d, d ≤ L.stackSize ∧ 8 * ws.length ≤ d ∧ Deep L m' d)
    (hreg : ∀ r, r ≠ .rsp → m'.reg r = m.reg r) (hmsr : m'.msr = m.msr) :
    Unwinding L rsp s ws m' where
  reg := fun r hrsp hrax => (hreg r hrsp).trans (h.reg r hrsp hrax)
  stack := hstack
  deep := hdeep
  gs := (congrFun hmsr _).trans h.gs
  kernelGs := (congrFun hmsr _).trans h.kernelGs
  msr := fun i hi hi' => (congrFun hmsr i).trans (h.msr i hi hi')
  dcntr := (honly.loadCpu hL (by decide)).trans h.dcntr
  dsp := (honly.loadCpu hL (by decide)).trans h.dsp
  mem := h.mem.trans honly.keepsMem

/-- A word of the frame is written over. -/
theorem Unwinding.put (h : Unwinding L rsp s vs m) (hL : L.Sound) {i : Nat} (hi : i < vs.length)
    (v : Word) :
    Unwinding L rsp s (vs.set i v) (m.storeAt .q (m.reg .rsp + BitVec.ofNat 64 (8 * i)) v) := by
  obtain ⟨d, hroom, hlen, hdeep⟩ := h.deep
  have hsize := hL.size
  refine h.stackOnly hL ((StackOnly.refl L m).put hdeep hroom (by omega) v)
    (h.stack.put (by omega) hi v) ⟨d, hroom, ?_, hdeep⟩ (fun _ _ => rfl) rfl
  rw [List.length_set]
  exact hlen

/-- The last three lines: `%gs` and `rax` are given back, and the frame leads to the program. -/
theorem Unwinding.ends {fns : Functions Fn} {k : List (Item Label Fn)}
    (h : Unwinding L rsp s [s.reg .rax, s.rip, userCs ||| 3#64, setBit s.rflags trapFlag false,
      rsp, userDs ||| 3#64] m) (hL : L.Sound) (hs : Armed L rsp 1#64 s) :
    Leaves fns (idtDebugHandler L) (ins .swapgs :: ins (.pop (.reg .rax)) :: ins .iret :: k) m
      (fun x => ∃ u', x = some u' ∧ SteppedBack L rsp s u') := by
  let m1 := (m.setMsr msrGsBase (s.msr msrGsBase)).setMsr msrKernelGsBase L.cpuInfo
  let m2 := m1.drop.setReg .rax (s.reg .rax)
  have hs1 : m1.Stack [s.reg .rax, s.rip, userCs ||| 3#64, setBit s.rflags trapFlag false, rsp,
      userDs ||| 3#64] := h.stack.congr rfl rfl
  have hs2 : m2.Stack [s.rip, userCs ||| 3#64, setBit s.rflags trapFlag false, rsp,
      userDs ||| 3#64] := hs1.drop.congr rfl rfl
  refine Leaves.go (s := m1) ?_ (Leaves.go (s := m2) ?_ (Leaves.leave (s := m2.iret) rfl ?_))
  · show Next.go ((m.setMsr msrGsBase (m.msr msrKernelGsBase)).setMsr msrKernelGsBase
      (m.msr msrGsBase)) = _
    rw [h.gs, h.kernelGs]
  · show Next.go (m1.drop.setReg .rax m1.top) = _
    rw [hs1.top]
  rw [hs2.iret]
  refine ⟨_, rfl, ?_⟩
  have hmsr : ∀ i, i ≠ msrGsBase → i ≠ msrKernelGsBase → m2.msr i = s.msr i := by
    intro i hi hi'
    show (if i = msrKernelGsBase then _ else if i = msrGsBase then _ else m.msr i) = _
    rw [if_neg hi', if_neg hi, h.msr i hi hi']
  have hstar : m2.msr msrStar >>> 32 = kernelCs ||| (userDs - 8#64) <<< 16 := by
    rw [hmsr msrStar (by decide) (by decide)]
    exact hs.star
  exact
    { atUser :=
        { cs := rfl
          ss := rfl
          kernelGs := rfl
          star := hstar
          lstar := (hmsr msrLstar (by decide) (by decide)).trans hs.lstar
          sfmask := (hmsr msrSfmask (by decide) (by decide)).trans hs.sfmask
          var := by
            rw [← hs.var]
            exact loadWord_congr fun i hi => h.mem.run hL.var hL.cpuVar hi
          dcntr := h.dcntr }
      rip := rfl
      rflags := rfl
      rsp := rfl
      reg := by
        intro r hr
        show (if r = .rsp then _ else if r = .rax then s.reg .rax else if r = .rsp then _ else
          m.reg r) = _
        rw [if_neg hr]
        by_cases hrax : r = .rax
        · rw [if_pos hrax, hrax]
        · rw [if_neg hrax, if_neg hr, h.reg r hr hrax]
      gs := rfl
      mem := h.mem }

/-- The first two lines of `.idt_debug_exit`: the last exception is counted, and `rax` is
saved.  `m` is the machine after the comparisons. -/
theorem Trapped.unwinding (hm : Trapped L s m) (hL : L.Sound)
    (hdsp : m.loadAt .q (offset L.cpuInfo 16) = rsp) (v : Word) :
    Unwinding L rsp s [s.reg .rax, s.rip, s.cs, s.rflags, s.reg .rsp, s.ss]
      (((m.setFlags v).storeAt .l (offset L.cpuInfo 24) 0#64).push (s.reg .rax)) := by
  obtain ⟨d, hroom, hd40, hdeep⟩ := hm.deep
  let m1 := (m.setFlags v).storeAt .l (offset L.cpuInfo 24) 0#64
  have hclear : Clear (offset L.cpuInfo 24) 4 (m.reg .rsp) 40 := by
    rw [hdeep]
    exact (Layout.clear_frame (hL.cpu.symm.part (by decide) (by decide)).symm (by omega)
      (by decide) (by omega)).symm
  have hs1 : m1.Stack [s.rip, s.cs, s.rflags, s.reg .rsp, s.ss] :=
    Machine.Stack.storeAt (m := m.setFlags v) (hm.stack.congr rfl rfl) hclear
  have h1 : Unwinding L rsp s [s.rip, s.cs, s.rflags, s.reg .rsp, s.ss] m1 :=
    { reg := fun r hrsp _ => hm.reg r hrsp
      stack := hs1
      deep := ⟨d, by omega, hd40, hdeep⟩
      gs := hm.gs
      kernelGs := hm.kernelGs
      msr := hm.msr
      dcntr := Machine.loadAt_storeAt (m.setFlags v) .l _ _
      dsp := by
        rw [← hdsp]
        exact Machine.loadAt_storeAt_of_clear (m.setFlags v)
          (clear_cpu L (by decide) (by decide) (by decide) (by decide)).symm
      mem := KeepsMem.storeCpu (s := m.setFlags v) hm.mem.keepsMem rfl (by decide) }
  have hdeep1 : Deep L m1 d := hdeep
  refine h1.stackOnly hL ((StackOnly.refl L m1).push hdeep1 (by omega) _) (hs1.push (by simp) _)
    ⟨d + 8, by omega, ?_, hdeep1.push _⟩ (fun r hr => ?_) rfl
  · simp only [List.length_cons, List.length_nil]
    omega
  · rw [Machine.reg_push, if_neg hr]

theorem debugExit_ends (fns : Functions Fn) (hL : L.Sound) (hs : Armed L rsp 1#64 s) :
    Leaves fns (idtDebugHandler L) (idtDebugHandler L) (debugTrap L s)
      (fun x => ∃ u', x = some u' ∧ SteppedBack L rsp s u') := by
  obtain ⟨d, hroom, hdeep⟩ := hs.deep
  have huser : s.inUser = false := by
    rw [Machine.inUser, hs.cs]
    decide
  have hd : (if s.inUser then L.top else s.reg .rsp) = L.top - BitVec.ofNat 64 d := by
    rw [huser, if_neg Bool.false_ne_true, hdeep]
  refine trapped_runs hs.kernelGs hd hroom fun m hm => ?_
  have hdcntr : m.loadAt .l (offset L.cpuInfo 24) = 1#64 :=
    (hm.mem.loadCpu hL (by decide)).trans hs.dcntr
  have hdsp : m.loadAt .q (offset L.cpuInfo 16) = rsp :=
    (hm.mem.loadCpu hL (by decide)).trans hs.dsp
  let m0 := m.subFlags .l 1#64 0#64
  let m1 := m0.subFlags .l 1#64 1#64
  let flags := setBit s.rflags trapFlag false
  let m2 := (m1.subFlags .l 1#64 1#64).storeAt .l (offset L.cpuInfo 24) 0#64
  let m3 := m2.push (s.reg .rax)
  let m4 := m3.storeAt .q (m3.reg .rsp + 40#64) (userDs ||| 3#64)
  let m5 := m4.setReg .rax rsp
  let m6 := m5.storeAt .q (m5.reg .rsp + 32#64) rsp
  let m7 := (m6.setFlags (setBit m6.rflags carryFlag (s.rflags.getLsbD 8))).storeAt .q
    (m6.reg .rsp + 24#64) flags
  let m8 := m7.storeAt .q (m7.reg .rsp + 16#64) (userCs ||| 3#64)
  have h3 : Unwinding L rsp s [s.reg .rax, s.rip, s.cs, s.rflags, s.reg .rsp, s.ss] m3 :=
    hm.unwinding hL hdsp _
  have h4 : Unwinding L rsp s [s.reg .rax, s.rip, s.cs, s.rflags, s.reg .rsp, userDs ||| 3#64] m4 :=
    h3.put hL (i := 5) (by simp) _
  have h6 : Unwinding L rsp s [s.reg .rax, s.rip, s.cs, s.rflags, rsp, userDs ||| 3#64] m6 :=
    (h4.setRax rsp).put hL (i := 4) (by simp) _
  have h7 : Unwinding L rsp s [s.reg .rax, s.rip, s.cs, flags, rsp, userDs ||| 3#64] m7 :=
    (h6.setFlags _).put hL (i := 3) (by simp) _
  have h8 : Unwinding L rsp s [s.reg .rax, s.rip, userCs ||| 3#64, flags, rsp, userDs ||| 3#64]
      m8 := h7.put hL (i := 2) (by simp) _
  refine Leaves.go (s := m0) ?_ (Leaves.notTaken ?_ (Leaves.go (s := m1) ?_ (Leaves.taken ?_ ?_)))
  · rw [step_cmpDcntr hm.gs, hdcntr]
    rfl
  · exact holds_e_cmp m .l 1#64 0#64
  · rw [step_cmpDcntr (m := m0) hm.gs, show m0.loadAt .l (offset L.cpuInfo 24) = 1#64 from hdcntr]
    rfl
  · exact holds_e_cmp m0 .l 1#64 1#64
  rw [target_idtDebugExit]
  refine Leaves.label (Leaves.go (s := m2) ?_ (Leaves.go (s := m3) ?_ (Leaves.go (s := m4) ?_
    (Leaves.go (s := m5) ?_ (Leaves.go (s := m6) ?_ (Leaves.go (s := m7) ?_
    (Leaves.go (s := m8) ?_ (h8.ends hL hs))))))))
  · show Next.go ((m1.subFlags .l (m1.loadAt .l (m.msr msrGsBase + 24#64)) 1#64).storeAt .l
      (m.msr msrGsBase + 24#64) (m1.loadAt .l (m.msr msrGsBase + 24#64) - 1#64)) = _
    have hload : m1.loadAt .l (L.cpuInfo + 24#64) = 1#64 := hdcntr
    rw [hm.gs, hload]
    rfl
  · show Next.go (m2.push (trunc .q (m.reg .rax))) = _
    rw [trunc_q, hm.reg .rax (by decide)]
  · show Next.go (m3.storeAt .q (m3.reg .rsp + 40#64) (trunc .q (userDs ||| 3#64))) = _
    rw [trunc_q]
  · show Next.go (m4.setReg .rax (m4.loadAt .q (m.msr msrGsBase + 16#64))) = _
    rw [hm.gs]
    exact congrArg (fun v => Next.go (m4.setReg .rax v)) h4.dsp
  · show Next.go (m5.storeAt .q (m5.reg .rsp + 32#64) (trunc .q rsp)) = _
    rw [trunc_q]
  · have hword : m6.loadAt .q (m6.reg .rsp + 24#64) = s.rflags := h6.stack.word (i := 3) (by simp)
    show Next.go ((m6.setFlags (setBit m6.rflags carryFlag
      ((m6.loadAt .q (m6.reg .rsp + 24#64)).getLsbD 8))).storeAt .q (m6.reg .rsp + 24#64)
      (setBit (m6.loadAt .q (m6.reg .rsp + 24#64)) 8 false)) = _
    rw [hword]
    rfl
  · show Next.go (m7.storeAt .q (m7.reg .rsp + 16#64) (trunc .q (userCs ||| 3#64))) = _
    rw [trunc_q]

end Unwinding

/-! ## An exception of the program's own -/

/-- `disassemble_instr` is called: with where the program is, and its registers in memory. -/
structure AtShow (L : Layout) (u mc : Machine) : Prop where
  rdi : mc.reg .rdi = u.rip
  rsi : mc.reg .rsi = L.cpuInfo + cpuRegBase
  regs : ∀ p ∈ cpuRegs, mc.loadAt .q (L.cpuInfo + p.2) = u.reg p.1
  rsp : mc.loadAt .q (L.cpuInfo + cpuRegRsp) = u.reg .rsp
  mem : KeepsMem L u mc

/-- The program goes on; `m` is what the function has come back with. -/
structure Shown (L : Layout) (u m u' : Machine) : Prop where
  atUser : AtUser L u'
  rip : u'.rip = u.rip
  rflags : u'.rflags = u.rflags
  reg : ∀ r, u'.reg r = u.reg r
  gs : u'.msr msrGsBase = u.msr msrGsBase
  mem : u'.mem = m.mem

/-- How an exception of the program's own ends. -/
def ShowEnds (L : Layout) (fns : Functions Fn) (u : Machine) (x : Option Machine) : Prop :=
  ∃ mc, AtShow L u mc ∧
    match fns.named .disassembleInstr mc with
    | some m => ∃ u', x = some u' ∧ Shown L u m u'
    | none => x = none

/-- The place of a register is one in `cpu_info`. -/
theorem offset_cpuReg (L : Layout) (p : Reg × Word) :
    L.cpuInfo + p.2 = offset L.cpuInfo p.2.toNat := by
  rw [offset, BitVec.ofNat_toNat, BitVec.setWidth_eq]

theorem KeepsMem.saveAll {L : Layout} {m m' : Machine} (h : KeepsMem L m m')
    (hgs : m'.msr msrGsBase = L.cpuInfo) {ps : List (Reg × Word)}
    (hps : ∀ p ∈ ps, p.2.toNat + 8 ≤ 168) : KeepsMem L m (m'.saveAll ps) := by
  induction ps generalizing m' with
  | nil => exact h
  | cons p ps ih =>
      refine ih (KeepsMem.storeCpu h (i := p.2.toNat) ?_ (hps p List.mem_cons_self)) hgs
        fun q hq => hps q (List.mem_cons_of_mem _ hq)
      rw [hgs, offset_cpuReg]

section Table

variable {L : Layout} {u m : Machine}

end Table

section Shown

variable {L : Layout} {u m m' : Machine}

end Shown

end BufferVM
