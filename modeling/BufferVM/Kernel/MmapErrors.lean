/-
  Kernel/MmapErrors.lean --- `syscall_mmap` when it returns an error.

  The errors of `get_unmapped_area` are addresses like any other to the code that follows:
  `syscall_mmap` hands them on to `mmap_region`, which finds no VMA up there and makes one.
  The call then returns the error, with a VMA more in the store.  Every other error comes
  before anything has been changed.
-/
import BufferVM.Kernel.Backing

set_option autoImplicit false

namespace BufferVM

open PtrTree PtrTree.PTree PtrList

variable {σ ω : Type} {H : NodeHeap σ} {O : HostOs ω} {s t : St σ (Host ω)}

/-- The VMA store and the page tables are what they were. -/
structure SameMemory (s t : St σ (Host ω)) : Prop where
  vma : t.vma = s.vma
  listStart : t.vmaListStart = s.vmaListStart
  rbRoot : t.vmaRbRoot = s.vmaRbRoot
  highest : t.vmaHighestAddr = s.vmaHighestAddr
  tables : t.host.vm = s.host.vm

/-- Stores that are the same have the same nodes. -/
theorem SameMemory.nodes (h : SameMemory s t) : t.nodes = s.nodes :=
  St.nodes_congr h.vma h.listStart

/-! ## A request at an error value -/

variable {F : (hostEnv H O).toNodeHeap.Fresh} {q : Request}

/-- A request at an error value is served, with a VMA of its own. -/
theorem Orderly.run_isErrValue (hs : Orderly F s) (hav : 1 ≤ F.avail s.heap)
    (he : isErrValue q.addr = true) :
    ∃ p t, q.run (hostEnv H O) s = some (q.addr, p, t) ∧ t.nodes.length = s.nodes.length + 1 := by
  obtain ⟨p, r, t, hrun, hareas⟩ := hs.linked.run_isErrValue (q := q)
    (fun x hx => ⟨(hs.edges x hx).1.align, (hs.edges x hx).2.align⟩) hav he
  refine ⟨p, t, hrun, ?_⟩
  rw [← St.space_nodes, ← St.space_nodes, Space.nodes, Space.nodes, hareas]
  simp

/-- The two ways in which `mmap_region` comes back. -/
theorem Request.run_cases {E : Env σ (Host ω)} {v : U64} {p : Ptr}
    (hrun : q.run E s = some (v, p, t)) :
    v = q.addr ∨ clearRange E q.addr q.length walkBound s = some (none, t) := by
  unfold Request.run BufferVM.mmapRegion at hrun
  simp only [Option.bind_eq_bind, Option.bind_eq_some_iff] at hrun
  obtain ⟨⟨found, u⟩, hclear, hrun⟩ := hrun
  cases found with
  | none =>
      simp only [Option.some.injEq, Prod.mk.injEq] at hrun
      exact Or.inr (hrun.2.2 ▸ hclear)
  | some found =>
      simp only [Option.bind_eq_some_iff] at hrun
      obtain ⟨y, -, hrun⟩ := hrun
      simp only [Option.some.injEq, Prod.mk.injEq] at hrun
      exact Or.inl hrun.1.symm

/-- At any other address an error comes before anything has been changed. -/
theorem Orderly.run_error (hs : Orderly F s) (hav : 3 ≤ F.avail s.heap) (h0 : q.length ≠ 0#64)
    (hal : q.length.toNat % 4096 = 0) (hq : isErrValue q.addr = false) {v : U64} {p : Ptr}
    (hrun : q.run (hostEnv H O) s = some (v, p, t)) (hv : isErrValue v = true) : t = s := by
  have hne : v ≠ q.addr := by
    rintro rfl
    rw [hq] at hv
    cases hv
  by_cases hin : InBounds s.glob.kernelMinAddress q.addr q.length
  · obtain ⟨u, p', hrun', -⟩ := hs.linked.mmapRegion hav hin
    rw [hrun'] at hrun
    simp only [Option.some.injEq, Prod.mk.injEq] at hrun
    exact absurd hrun.1.symm hne
  · have hrej := munmapRejects_of_not_inBounds h0 hal hin
    have hclear := (Request.run_cases hrun).resolve_left hne
    change clearRange (hostEnv H O) q.addr q.length (walkBound - 1 + 1) s = _ at hclear
    rw [clearRange] at hclear
    simp only [Option.bind_eq_bind, Option.bind_eq_some_iff] at hclear
    obtain ⟨found, -, hclear⟩ := hclear
    cases found with
    | some f => simp at hclear
    | none =>
        simp only [syscallMunmap_rejected hrej, Option.bind_some, intEINVAL] at hclear
        simp only [ne_eq, Int.reduceNeg, Int.neg_eq_zero, OfNat.ofNat_ne_zero, not_false_eq_true,
          if_true, Option.some.injEq, Prod.mk.injEq, true_and] at hclear
        exact hclear.symm

/-! ## `syscall_mmap` -/

/-- The calls on the descriptor do not touch memory. -/
theorem vm_mmapFile (host : Host ω) (fd : BitVec 32) :
    (mmapFile (hostEnv H O) host fd).2.vm = host.vm := by
  unfold mmapFile
  split
  · rfl
  · rfl

theorem sameMemory_withHost (s : St σ (Host ω)) {host : Host ω} (h : host.vm = s.host.vm) :
    SameMemory s { s with host := host } := ⟨rfl, rfl, rfl, rfl, h⟩

/-- The arguments pass the checks of `syscall_mmap`, and what `get_unmapped_area` yields is an
error value. -/
structure MmapAtError (stray addr length flags : U64) (fd : BitVec 32) (offset : U64)
    (s : St σ (Host ω)) : Prop where
  accepted : mmapArgsRejected length offset = false
  typed : (mmapType (decide (fd = noFd)) flags (flagToVma flags) offset).isSome = true
  atError : ∃ a, getUnmappedArea stray addr (pageAlign length) flags s = some a ∧
    isErrValue a = true

section Prepare

variable {stray addr length prot flags : U64} {fd : BitVec 32} {offset : U64}

/-- What is prepared: the checks have passed where there is a request, and memory has not
been touched. -/
theorem mmapPrepare_cases {x : Option Request × Host ω}
    (h : mmapPrepare (hostEnv H O) stray addr length prot flags fd offset s = some x) :
    x.2.vm = s.host.vm ∧ ∀ q, x.1 = some q → mmapArgsRejected length offset = false ∧
      (mmapType (decide (fd = noFd)) flags (flagToVma flags) offset).isSome = true ∧
      getUnmappedArea stray addr (pageAlign length) flags s = some q.addr := by
  unfold mmapPrepare at h
  cases hrej : mmapArgsRejected length offset with
  | true =>
      rw [hrej, if_pos rfl] at h
      obtain rfl := Option.some.inj h
      exact ⟨rfl, fun q hq => absurd hq (by simp)⟩
  | false =>
      rw [hrej, if_neg (by simp)] at h
      simp only [Option.bind_eq_bind, Option.bind_eq_some_iff] at h
      obtain ⟨a, ha, h⟩ := h
      obtain rfl := Option.some.inj h
      refine ⟨vm_mmapFile s.host fd, fun q hq => ?_⟩
      obtain ⟨y, hy, rfl⟩ := Option.map_eq_some_iff.mp hq
      exact ⟨rfl, by rw [hy]; rfl, ha⟩

/-- The request at an error value. -/
theorem MmapAtError.prepare (h : MmapAtError stray addr length flags fd offset s) (prot : U64) :
    ∃ q host, mmapPrepare (hostEnv H O) stray addr length prot flags fd offset s =
      some (some q, host) ∧ isErrValue q.addr = true := by
  obtain ⟨a, ha, he⟩ := h.atError
  obtain ⟨y, hy⟩ := Option.isSome_iff_exists.mp h.typed
  unfold mmapPrepare
  rw [h.accepted, if_neg (by simp), ha, hy]
  exact ⟨_, _, rfl, he⟩

end Prepare

theorem Orderly.withHost (hs : Orderly F s) (host : Host ω) :
    Orderly F { s with host := host } := by
  obtain ⟨hl, hsp⟩ := hs.linked.withHost host
  refine ⟨hl, hs.glob, fun x hx => ?_⟩
  rw [hsp] at hx
  exact hs.edges x hx

/-- **`syscall_mmap` is atomic on error**, from every state that a run reaches, unless
`get_unmapped_area` yields an error value to a request whose arguments are accepted. -/
theorem mmap_atomic_iff (H : NodeHeap σ) (O : HostOs ω) (F : (hostEnv H O).toNodeHeap.Fresh)
    (heap : σ) (host : Host ω) (glob : Globals) (hg : GlobOk glob) (cs : List Call)
    (s : St σ (Host ω))
    (h : CallRuns (hostEnv H O) F (fun _ _ => True) (St.empty heap host glob) cs s)
    (hav : 3 ≤ F.avail s.heap) (stray addr length prot flags : U64) (fd : BitVec 32)
    (offset : U64) :
    (∀ v t, syscallMmap (hostEnv H O) stray addr length prot flags fd offset s = some (v, t) →
        isErrValue v = true → SameMemory s t) ↔
      ¬ MmapAtError stray addr length flags fd offset s := by
  have hs := (h.orderly (orderly_empty F heap host hg)).1
  constructor
  · intro hatomic hbad
    obtain ⟨q, host', hprep, he⟩ := hbad.prepare (H := H) (O := O) prot
    obtain ⟨p, t, hrun, hlen⟩ := (hs.withHost host').run_isErrValue (q := q)
      (show 1 ≤ F.avail s.heap by omega) he
    have hcall : syscallMmap (hostEnv H O) stray addr length prot flags fd offset s =
        some (q.addr, t) := by
      rw [syscallMmap_eq, hprep]
      show (q.run (hostEnv H O) { s with host := host' }).map _ = _
      rw [hrun]
      rfl
    have hnodes := (hatomic _ _ hcall he).nodes
    have hsame := (sameMemory_withHost s (mmapPrepare_cases hprep).1).nodes
    rw [hnodes, hsame] at hlen
    omega
  · intro hgood v t hcall hv
    rw [syscallMmap_eq] at hcall
    obtain ⟨⟨x, host'⟩, hprep, hcall⟩ := Option.bind_eq_some_iff.mp hcall
    obtain ⟨hvm, hq⟩ := mmapPrepare_cases hprep
    cases x with
    | none =>
        obtain ⟨-, rfl⟩ := Prod.mk.inj (Option.some.inj hcall)
        exact sameMemory_withHost s hvm
    | some q =>
        obtain ⟨hacc, htype, ha⟩ := hq q rfl
        obtain ⟨-, h0, hal, -, -⟩ := mmapPrepare_length hprep
        have he : isErrValue q.addr = false := by
          cases he : isErrValue q.addr with
          | false => rfl
          | true => exact absurd ⟨hacc, htype, q.addr, ha, he⟩ hgood
        obtain ⟨⟨v', p, t'⟩, hrun, heq⟩ := Option.map_eq_some_iff.mp hcall
        obtain ⟨rfl, rfl⟩ := Prod.mk.inj heq
        have hsame := (hs.withHost host').run_error
          (show 3 ≤ F.avail s.heap by omega) h0 hal he hrun hv
        rw [hsame]
        exact sameMemory_withHost s hvm

/-- A fixed request that is not at a page address, with a page in its way: it is refused,
and nothing has changed. -/
theorem mmap_atomic_iff_refused :
    ∃ s t, CallRuns machineEnv bumpFresh (fun _ _ => True) machine
        [anonymousMap 0x1000#64 0x1000#64] s ∧
      syscallMmap machineEnv 0#64 0x1800#64 0x1000#64 protRead
        (mapPrivate ||| mapAnonymous ||| mapFixed) noFd 0#64 s = some (eNOMEM, t) ∧
      SameMemory s t := by
  have hrun : (machineRun (fun _ _ => true) [anonymousMap 0x1000#64 0x1000#64]).bind (fun s =>
      (syscallMmap machineEnv 0#64 0x1800#64 0x1000#64 protRead
        (mapPrivate ||| mapAnonymous ||| mapFixed) noFd 0#64 s).map
          (fun x => (x.1, decide (3 ≤ bumpFresh.avail s.heap)))) = some (eNOMEM, true) := by
    decide +kernel
  obtain ⟨s, hs, hrun⟩ := Option.bind_eq_some_iff.mp hrun
  obtain ⟨⟨v, t⟩, ht, hfacts⟩ := Option.map_eq_some_iff.mp hrun
  simp only [Prod.mk.injEq, decide_eq_true_eq] at hfacts
  obtain ⟨rfl, hav⟩ := hfacts
  have hruns := Run.Steps.of_exec
    (callOk_of_machineTest (fun _ _ => True) fun _ _ _ => trivial) _ hs
  refine ⟨s, t, hruns, ht, ?_⟩
  refine (mmap_atomic_iff bumpHeap bareOs bumpFresh
    (0, []) bareHost smallGlobals globOk_smallGlobals
    _ s hruns hav 0#64 0x1800#64 0x1000#64 protRead (mapPrivate ||| mapAnonymous ||| mapFixed) noFd
    0#64).mpr ?_ eNOMEM t ht (by decide)
  rintro ⟨-, -, a, ha, he⟩
  have hfix : (mapPrivate ||| mapAnonymous ||| mapFixed) &&& mapFixed ≠ 0#64 := by decide
  rw [getUnmappedArea, if_pos hfix] at ha
  obtain rfl := Option.some.inj ha
  exact absurd he (by decide)

/-- A request that is larger than the address space: it fails, and there is a VMA at the
address of the error. -/
theorem failed_mmap_makes_vma :
    ∃ t, getUnmappedArea 0#64 0#64 (pageAlign 0x9000#64) (mapPrivate ||| mapAnonymous) machine =
        some eNOMEM ∧
      syscallMmap machineEnv 0#64 0#64 0x9000#64 protRead (mapPrivate ||| mapAnonymous) noFd 0#64
        machine = some (eNOMEM, t) ∧
      isErrValue eNOMEM = true ∧ t.regions.map VmRegion.startAddr = [eNOMEM] ∧
      ¬ SameMemory machine t := by
  have hrun : (syscallMmap machineEnv 0#64 0#64 0x9000#64 protRead (mapPrivate ||| mapAnonymous)
      noFd 0#64 machine).map (fun x => (x.1, x.2.regions.map VmRegion.startAddr,
        x.2.nodes.length)) =
      some (eNOMEM, [eNOMEM], 1) := by decide +kernel
  obtain ⟨⟨v, t⟩, ht, hfacts⟩ := Option.map_eq_some_iff.mp hrun
  simp only [Prod.mk.injEq] at hfacts
  obtain ⟨rfl, hregions, hnodes⟩ := hfacts
  refine ⟨t, by decide +kernel, ht, by decide, hregions, fun hsame => ?_⟩
  rw [hsame.nodes, machine, St.nodes_empty] at hnodes
  exact absurd hnodes (by simp)

end BufferVM
