/-
  Kernel/Calls.lean --- what a system call or a fault does to the address space.

  Each call is one step of the address space: nothing but calls on a descriptor, a range
  removed, a request mapped, or one area resized.  `Call.spaceStep` is the only place
  where the calls are taken apart; every invariant over runs of calls is proved for the
  four steps.
-/
import BufferVM.Kernel.SimCalls
import BufferVM.Lib.Run

set_option autoImplicit false

namespace BufferVM

open PtrTree PtrTree.PTree PtrList

/-- What a mapping call comes to: it fails after the calls on a descriptor, or it maps a
request. -/
inductive Mapping where
  | fail (fd : BitVec 32)
  | map (fd : BitVec 32) (q : Request)

variable {σ η : Type} {s t : St σ η} {E : Env σ η} {A B : Space σ η} {addr length : U64}
  {ok : Space σ η → Mapping → Prop} {kernelMinAddress : U64}

/-! ## What a call does to the address space -/

/-- The address space after the calls of `syscall_mmap` on a descriptor. -/
def Space.stat (E : Env σ η) (fd : BitVec 32) (A : Space σ η) : Space σ η :=
  { A with host := (mmapFile E A.host fd).2 }

@[simp] theorem Space.stat_noFd (A : Space σ η) : A.stat E noFd = A := by
  simp [Space.stat, mmapFile]

/-- One call, as a step of the address space; `ok` is a condition on mapping calls. -/
inductive SpaceStep (E : Env σ η) (kernelMinAddress : U64) (ok : Space σ η → Mapping → Prop)
    (A : Space σ η) : Space σ η → Prop
  | stay : SpaceStep E kernelMinAddress ok A A
  | fail (fd : BitVec 32) (hok : ok A (.fail fd)) : SpaceStep E kernelMinAddress ok A (A.stat E fd)
  | unmap (addr length : U64) (h : InBounds kernelMinAddress addr length) :
      SpaceStep E kernelMinAddress ok A (A.unmap E addr (addr + length))
  | map (fd : BitVec 32) (q : Request) (h : InBounds kernelMinAddress q.addr q.length)
      (hfile : fd ≠ noFd → q.fileInfo = (mmapFile E A.host fd).1)
      (hok : ok (A.stat E fd) (.map fd q)) : SpaceStep E kernelMinAddress ok A
      ((A.stat E fd).map E q)
  | resize (l₁ l₂ : List Area) (p : Ptr) (r : VmRegion) (start end' : U64)
      (h : Resizes kernelMinAddress A l₁ p r l₂ start end') :
      SpaceStep E kernelMinAddress ok A (A.resize E l₁ p r l₂ start end')

/-- The first page of the heap. -/
def heapRequest (glob : Globals) : Request where
  fileInfo := nullFileInfo
  addr := glob.userHeapStart
  length := pageSize
  flags := vmaGrows
  prot := heapProt
  offset := 0#64

/-- A request of `syscall_mmap` is inside the bounds, or a VMA is in its way. -/
structure Request.Ok (E : Env σ η) (ok : Space σ η → Mapping → Prop) (fd : BitVec 32) (q : Request)
    (s : St σ η) : Prop where
  inside : InBounds s.glob.kernelMinAddress q.addr q.length → ok (s.space.stat E fd) (.map fd q)
  outside : ¬ InBounds s.glob.kernelMinAddress q.addr q.length →
    q.Blocked s ∧ ok s.space (.fail fd)

/-- A condition on calls.  A mapping stays inside the bounds, or meets a VMA and is
refused; the break moves with its VMA in the store and stays inside the bounds; a fault at
a page address does not meet a VMA that ends there. -/
def Call.Ok (E : Env σ η) (ok : Space σ η → Mapping → Prop) (s : St σ η) : Call → Prop
  | .mmapRegion fileInfo addr length flags prot offset =>
      InBounds s.glob.kernelMinAddress addr length ∧
        ok s.space (.map noFd (mmapRequest fileInfo addr length flags prot offset))
  | .mmap stray addr length prot flags fd offset =>
      ∀ x, mmapPrepare E stray addr length prot flags fd offset s = some x →
        match x.1 with
        | none => mmapArgsRejected length offset = false → ok s.space (.fail fd)
        | some q => q.Ok E ok fd s
  | .munmap _ _ => True
  | .brk request =>
      (request = 0#64 → s.glob.currBrk = 0#64 →
        InBounds s.glob.kernelMinAddress s.glob.userHeapStart pageSize ∧
          ok s.space (.map noFd (heapRequest s.glob))) ∧
      (s.BrkMoves request →
        s.glob.userHeapVma ∈ s.nodes ∧ pageAlign request ≤ s.glob.kernelMinAddress)
  | .fault addr _ => pageOffset addr = 0#64 → ∀ r ∈ s.regions, r.endAddr ≠ addr

/-- The globals as `kernel_main` sets them up: the bounds are page addresses and the stack
has room for its limit. -/
structure GlobOk (glob : Globals) : Prop where
  align : glob.kernelMinAddress.toNat % 4096 = 0
  top : glob.userStackStart.toNat + 4096 < 2 ^ 64
  limit : glob.userStackPageLimit.toNat * 4096 ≤ glob.userStackStart.toNat

/-- A page address of user space. -/
structure UserEdge (kernelMinAddress e : U64) : Prop where
  align : e.toNat % 4096 = 0
  le : e ≤ kernelMinAddress

/-! ## Each step keeps the order and the bounds -/

theorem Sound.stat {F : E.toNodeHeap.Fresh} (h : Sound F A) (fd : BitVec 32) :
    Sound F (A.stat E fd) := ⟨h.sorted, h.nodup, h.owned⟩

theorem SpaceStep.sound {F : E.toNodeHeap.Fresh} (hstep : SpaceStep E kernelMinAddress ok A B)
    (h : Sound F A) (hav : 3 ≤ F.avail A.heap) : Sound F B := by
  cases hstep with
  | stay => exact h
  | fail fd hok => exact h.stat fd
  | unmap addr length hb => exact (h.unmap _ _ (by omega)).1
  | map fd q hb hfile hok => exact ((h.stat fd).map hb.lt hav).1
  | resize l₁ l₂ p r start end' hr => exact h.regrow hr.areas hr.lt hr.front hr.back

theorem InBounds.edges (h : InBounds kernelMinAddress addr length) :
    UserEdge kernelMinAddress addr ∧ UserEdge kernelMinAddress (addr + length) := by
  have h1 := h.addr_align
  have h2 := h.length_align
  have h3 := h.le
  have h4 := kernelMinAddress.isLt
  have hadd : (addr + length).toNat = addr.toNat + length.toNat := by
    rw [BitVec.toNat_add, Nat.mod_eq_of_lt (by omega)]
  refine ⟨⟨h1, BitVec.le_def.mpr (by omega)⟩, ⟨by omega, BitVec.le_def.mpr (by omega)⟩⟩

theorem SpaceStep.edges {F : E.toNodeHeap.Fresh} (hstep : SpaceStep E kernelMinAddress ok A B)
    (hso : Sound F A) (hav : 3 ≤ F.avail A.heap) (h : EdgesIn (UserEdge kernelMinAddress) A) :
    EdgesIn (UserEdge kernelMinAddress) B := by
  cases hstep with
  | stay => exact h
  | fail fd hok => exact h
  | unmap addr length hb => exact h.unmap hso (by omega) hb.edges.1 hb.edges.2
  | map fd q hb hfile hok =>
      refine EdgesIn.map (A := A.stat E fd) h (hso.stat fd) hav hb.edges.1 ?_
      exact hb.edges.2
  | resize l₁ l₂ p r start end' hr =>
      have hr' := h (p, r) (by rw [hr.areas]; simp)
      refine h.regrow hr.areas ?_ ?_
      · have hlt := hr.lt
        have hle : end' ≤ kernelMinAddress := by
          rcases hr.le with rfl | hle
          · exact hr'.2.le
          · exact hle
        rcases hr.start_align with rfl | hal
        · exact hr'.1
        · exact ⟨hal, by bv_omega⟩
      · rcases hr.end_align with rfl | hal
        · exact hr'.2
        · rcases hr.le with rfl | hle
          · exact hr'.2
          · exact ⟨hal, hle⟩

/-! ## Each call is one step -/

/-- A call has left a linked store, and has made one step of the address space. -/
structure Stepped {H : NodeHeap σ} (F : H.Fresh) (E : Env σ η) (ok : Space σ η → Mapping → Prop)
    (s t : St σ η) : Prop where
  linked : Linked F t
  kernelMin : t.glob.kernelMinAddress = s.glob.kernelMinAddress
  stackStart : t.glob.userStackStart = s.glob.userStackStart
  stackLimit : t.glob.userStackPageLimit = s.glob.userStackPageLimit
  step : SpaceStep E s.glob.kernelMinAddress ok s.space t.space

theorem Stepped.globOk {F : E.toNodeHeap.Fresh} (h : Stepped F E ok s t) (hg : GlobOk s.glob) :
    GlobOk t.glob := by
  refine ⟨h.kernelMin ▸ hg.align, h.stackStart ▸ hg.top, ?_⟩
  rw [h.stackLimit, h.stackStart]
  exact hg.limit

section Steps

variable {F : E.toNodeHeap.Fresh}

theorem Linked.stay (h : Linked F s) : Stepped F E ok s s := ⟨h, rfl, rfl, rfl, .stay⟩

theorem stepped_munmap (h : Linked F s) (hav : 3 ≤ F.avail s.heap) (hg : GlobOk s.glob)
    (addr length : U64) {x : Int × St σ η} (hrun : syscallMunmap E addr length s = some x) :
    Stepped F E ok s x.2 := by
  cases hacc : munmapRejects s.glob.kernelMinAddress addr length with
  | true =>
      rw [syscallMunmap_rejected hacc] at hrun
      obtain rfl := Option.some.inj hrun
      exact h.stay
  | false =>
      obtain ⟨t, hrun', hl, hglob, hsp⟩ := h.munmap (by omega) hg.align hacc
      obtain rfl := Option.some.inj (hrun'.symm.trans hrun)
      refine ⟨hl, by rw [hglob], by rw [hglob], by rw [hglob], ?_⟩
      rw [hsp]
      exact .unmap addr _ (inBounds_of_accept hg.align hacc)

/-- Whole pages out of the bounds are refused by `syscall_munmap`. -/
theorem munmapRejects_of_not_inBounds {kernelMinAddress addr length : U64} (h0 : length ≠ 0#64)
    (hal : length.toNat % 4096 = 0) (hin : ¬ InBounds kernelMinAddress addr length) :
    munmapRejects kernelMinAddress addr length = true := by
  by_contra hacc
  refine hin ?_
  simp only [munmapRejects, Bool.or_eq_true, decide_eq_true_eq, not_or, not_not,
    ne_eq, BitVec.not_lt] at hacc
  obtain ⟨⟨⟨h1, h2⟩, h3⟩, -⟩ := hacc
  refine ⟨(pageOffset_eq_zero_iff _).mp h1, hal, h0, ?_⟩
  bv_omega

/-- A request inside the bounds, after the calls on a descriptor. -/
theorem stepped_request (ok : Space σ η → Mapping → Prop) (fd : BitVec 32) {q : Request}
    (h : Linked F s)
    (hav : 3 ≤ F.avail s.heap) (hq : InBounds s.glob.kernelMinAddress q.addr q.length)
    (hfile : fd ≠ noFd → q.fileInfo = (mmapFile E s.host fd).1)
    (hok : ok (s.space.stat E fd) (.map fd q)) {x : U64 × Ptr × St σ η}
    (hrun : q.run E { s with host := (mmapFile E s.host fd).2 } = some x) :
    Stepped F E ok s x.2.2 ∧ x.1 = q.addr ∧ x.2.1 ≠ 0#64 ∧
      x.2.2.space = (s.space.stat E fd).map E q ∧ x.2.2.glob = s.glob ∧
      x.2.1 = ((s.space.stat E fd).unmap E q.addr q.end').placedNode E q := by
  obtain ⟨hl, hsp⟩ := h.withHost (mmapFile E s.host fd).2
  obtain ⟨t, p, hrun', hp0, hlt, hglob, hspt, hp⟩ := hl.mmapRegion hav hq
  obtain rfl := Option.some.inj (hrun'.symm.trans hrun)
  have hsp' : St.space { s with host := (mmapFile E s.host fd).2 } = s.space.stat E fd := hsp
  rw [hsp'] at hspt hp
  refine ⟨⟨hlt, by rw [hglob], by rw [hglob], by rw [hglob], ?_⟩, rfl, hp0, hspt, hglob, hp⟩
  rw [hspt]
  exact .map fd q hq hfile hok

theorem stepped_mmapRegion (h : Linked F s) (hav : 3 ≤ F.avail s.heap)
    {fileInfo : Option VmFile} {addr length flags prot offset : U64}
    (hc : (Call.mmapRegion fileInfo addr length flags prot offset).Ok E ok s)
    {x : U64 × Ptr × St σ η}
    (hrun : mmapRegion E fileInfo addr length flags prot offset s = some x) :
    Stepped F E ok s x.2.2 := by
  refine (stepped_request ok noFd (q := mmapRequest fileInfo addr length flags prot offset) h
    hav hc.1 (fun h => absurd rfl h) (by rw [Space.stat_noFd]; exact hc.2) ?_).1
  have hhost : (mmapFile E s.host noFd).2 = s.host := by simp [mmapFile]
  rw [hhost, ← hrun]
  rfl

theorem stepped_mmap (h : Linked F s) (hav : 3 ≤ F.avail s.heap)
    {stray addr length prot flags : U64} {fd : BitVec 32} {offset : U64}
    (hc : (Call.mmap stray addr length prot flags fd offset).Ok E ok s) {x : U64 × St σ η}
    (hrun : syscallMmap E stray addr length prot flags fd offset s = some x) :
    Stepped F E ok s x.2 := by
  have hfail : ok s.space (.fail fd) →
      Stepped F E ok s { s with host := (mmapFile E s.host fd).2 } := by
    intro hok
    obtain ⟨hl, hsp⟩ := h.withHost (mmapFile E s.host fd).2
    refine ⟨hl, rfl, rfl, rfl, ?_⟩
    rw [hsp]
    exact .fail fd hok
  rw [syscallMmap_eq, Option.bind_eq_some_iff] at hrun
  obtain ⟨⟨q, host⟩, hprep, hrun⟩ := hrun
  cases q with
  | none =>
      obtain rfl := Option.some.inj hrun
      have hc' := hc _ hprep
      unfold mmapPrepare at hprep
      split at hprep
      · obtain rfl := (Prod.mk.inj (Option.some.inj hprep)).2
        exact h.stay
      · rename_i hrej
        simp only [Option.bind_eq_bind, Option.bind_eq_some_iff] at hprep
        obtain ⟨a, -, hprep⟩ := hprep
        obtain rfl := (Prod.mk.inj (Option.some.inj hprep)).2
        exact hfail (hc' (by simpa using hrej))
  | some q =>
      obtain ⟨y, hy, rfl⟩ := Option.map_eq_some_iff.mp hrun
      obtain ⟨-, h0, hal, -, hfile⟩ := mmapPrepare_length hprep
      obtain rfl : host = (mmapFile E s.host fd).2 := congrArg Prod.snd hfile
      have hq : q.Ok E ok fd s := hc _ hprep
      by_cases hin : InBounds s.glob.kernelMinAddress q.addr q.length
      · exact (stepped_request ok fd h hav hin (fun _ => congrArg Prod.fst hfile)
          (hq.inside hin) hy).1
      · have hrej := munmapRejects_of_not_inBounds h0 hal hin
        obtain ⟨hb, hok⟩ := hq.outside hin
        have hb' : q.Blocked { s with host := (mmapFile E s.host fd).2 } := by
          rw [Request.Blocked, vmaFindLinks_withHost]
          exact hb
        rw [Request.run_blocked hb' hrej] at hy
        obtain rfl := Option.some.inj hy
        exact hfail hok

/-- What `syscall_brk` does, branch by branch. -/
theorem syscallBrk_cases {brk : U64} {x : U64 × St σ η} (hrun : syscallBrk E brk s = some x) :
    (brk = 0#64 ∧ s.glob.currBrk = 0#64 ∧ ∃ y : U64 × Ptr × St σ η,
      mmapRegion E none s.glob.userHeapStart pageSize vmaGrows heapProt 0#64
        { s with glob := { s.glob with currBrk := s.glob.userHeapStart } } = some y ∧
      y.2.1 ≠ 0#64 ∧ y.1 = y.2.2.glob.currBrk ∧
      x = (y.2.2.glob.currBrk,
        { y.2.2 with glob := { y.2.2.glob with userHeapVma := y.2.1 } })) ∨
    (x = (s.glob.currBrk, s) ∧ ¬ s.BrkMoves brk) ∨
    (s.BrkMoves brk ∧ s.glob.userHeapVma ≠ 0#64 ∧ ∃ v,
      vmaGapUpdate s.glob.userHeapVma (s.setRegion s.glob.userHeapVma
        { s.region s.glob.userHeapVma with endAddr := pageAlign brk }) = some v ∧
      x = (pageAlign brk, { kernelMapVma E s.glob.userHeapVma v with
        glob := { (kernelMapVma E s.glob.userHeapVma v).glob with
          currBrk := pageAlign brk } })) := by
  unfold syscallBrk at hrun
  by_cases h1 : brk = 0#64 ∧ s.glob.currBrk = 0#64
  · rw [if_pos h1] at hrun
    simp only [Option.bind_eq_bind, Option.bind_eq_some_iff] at hrun
    obtain ⟨y, hy, hrun⟩ := hrun
    split at hrun
    · rename_i hcond
      exact Or.inl ⟨h1.1, h1.2, y, hy, hcond.1, hcond.2, (Option.some.inj hrun).symm⟩
    · exact absurd hrun (by simp)
  · rw [if_neg h1] at hrun
    by_cases h2 : brk < s.glob.currBrk
    · rw [if_pos h2] at hrun
      exact Or.inr (Or.inl ⟨(Option.some.inj hrun).symm, fun hm => hm.2.1 h2⟩)
    · rw [if_neg h2] at hrun
      by_cases h0 : s.glob.userHeapVma = 0#64
      · simp [h0, deref] at hrun
      · simp only [deref_of_ne _ h0, Option.bind_eq_bind, Option.bind_some] at hrun
        split at hrun
        · rename_i hstop
          refine Or.inr (Or.inl ⟨(Option.some.inj hrun).symm, fun hm => ?_⟩)
          rcases hstop with hle | ⟨hn, hlt⟩
          · have := hm.2.2.1
            bv_omega
          · have := hm.2.2.2 hn
            bv_omega
        · rename_i hgo
          simp only [Option.bind_eq_some_iff] at hrun
          obtain ⟨v, hv, hrun⟩ := hrun
          refine Or.inr (Or.inr ⟨⟨h1, h2, ?_, fun hn => ?_⟩, h0, v, hv,
            (Option.some.inj hrun).symm⟩)
          · by_contra hc
            exact hgo (Or.inl (BitVec.not_lt.mp hc))
          · by_contra hc
            exact hgo (Or.inr ⟨hn, BitVec.not_le.mp hc⟩)

/-- The globals may be written while the store is at rest. -/
theorem Stepped.withGlob {glob : Globals} (h : Stepped F E ok s t)
    (h1 : glob.kernelMinAddress = t.glob.kernelMinAddress)
    (h2 : glob.userStackStart = t.glob.userStackStart)
    (h3 : glob.userStackPageLimit = t.glob.userStackPageLimit) :
    Stepped F E ok s { t with glob := glob } := by
  obtain ⟨hl, hsp⟩ := h.linked.withGlob glob
  exact ⟨hl, h1.trans h.kernelMin, h2.trans h.stackStart, h3.trans h.stackLimit, by
    rw [hsp]; exact h.step⟩

/-- The globals may be written before a call as well. -/
theorem Stepped.ofGlob {glob : Globals} (h : Stepped F E ok { s with glob := glob } t)
    (hl : Linked F s) (h1 : glob.kernelMinAddress = s.glob.kernelMinAddress)
    (h2 : glob.userStackStart = s.glob.userStackStart)
    (h3 : glob.userStackPageLimit = s.glob.userStackPageLimit) : Stepped F E ok s t := by
  have hsp := (hl.withGlob glob).2
  have hstep := h.step
  rw [hsp] at hstep
  refine ⟨h.linked, h.kernelMin.trans h1, h.stackStart.trans h2, h.stackLimit.trans h3, ?_⟩
  have hk : (St.glob { s with glob := glob }).kernelMinAddress = s.glob.kernelMinAddress := h1
  rwa [hk] at hstep

/-- The break moves: the VMA of the heap gets another end. -/
theorem Linked.brkMoves (h : Linked F s) {brk : U64} (hm : s.BrkMoves brk)
    (hmem : s.glob.userHeapVma ∈ s.nodes) {v : St σ η}
    (hv : vmaGapUpdate s.glob.userHeapVma (s.setRegion s.glob.userHeapVma
      { s.region s.glob.userHeapVma with endAddr := pageAlign brk }) = some v) :
    ∃ l₁ l₂, s.space.areas = l₁ ++ (s.glob.userHeapVma, s.region s.glob.userHeapVma) :: l₂ ∧
      (∀ x ∈ l₁, x.2.endAddr ≤ (s.region s.glob.userHeapVma).startAddr) ∧
      (∀ x ∈ l₂, pageAlign brk ≤ x.2.startAddr) ∧
      Linked F (kernelMapVma E s.glob.userHeapVma v) ∧
      (kernelMapVma E s.glob.userHeapVma v).glob = s.glob ∧
      (kernelMapVma E s.glob.userHeapVma v).space = s.space.resize E l₁ s.glob.userHeapVma
        (s.region s.glob.userHeapVma) l₂ (s.region s.glob.userHeapVma).startAddr
        (pageAlign brk) := by
  obtain ⟨l₁, l₂, v', hA, hnext, hv', hglob, hres⟩ := h.resize (E := E) hmem
    { s.region s.glob.userHeapVma with endAddr := pageAlign brk }
  obtain rfl := Option.some.inj (hv.symm.trans hv')
  have hs := h.sound.sorted
  rw [Space.regions_eq hA] at hs
  obtain ⟨hfront, -, hback⟩ := hs.around
  have hfront' : ∀ x ∈ l₁, x.2.endAddr ≤ (s.region s.glob.userHeapVma).startAddr := fun x hx =>
    hfront x.2 (List.mem_map_of_mem hx)
  have hback' : ∀ x ∈ l₂, pageAlign brk ≤ x.2.startAddr := by
    cases l₂ with
    | nil => simp
    | cons n l₂ =>
        -- the break has been compared with the next VMA only
        obtain ⟨a, hh⟩ := h.holds
        have hn : n ∈ s.space.areas := by rw [hA]; simp
        have hn0 : n.1 ≠ 0#64 := hh.laid.ne_null _ (List.mem_map_of_mem hn)
        have hle : pageAlign brk ≤ n.2.startAddr := by
          have := hm.2.2.2
          rw [hnext, List.map_cons, headPtr_cons, hh.region n hn] at this
          exact this hn0
        obtain ⟨-, hs', -⟩ := sorted_cons.mp (sorted_cons.mp hs.append.2.1).2.2
        intro x hx
        rcases List.mem_cons.mp hx with rfl | hx
        · exact hle
        · have := hs' x.2 (List.mem_map_of_mem hx)
          have := (hback n.2 (by simp)).2
          bv_omega
  obtain ⟨hl, hsp⟩ := hres hm.2.2.1 hfront' hback'
  exact ⟨l₁, l₂, hA, hfront', hback', hl, hglob, hsp⟩

theorem stepped_brk (h : Linked F s) (hav : 3 ≤ F.avail s.heap) {brk : U64}
    (hc : (Call.brk brk).Ok E ok s) {x : U64 × St σ η} (hrun : syscallBrk E brk s = some x) :
    Stepped F E ok s x.2 := by
  rcases syscallBrk_cases hrun with ⟨h1, h2, y, hy, -, -, rfl⟩ | ⟨rfl, -⟩ |
    ⟨hm, -, v, hv, rfl⟩
  · obtain ⟨hb, hok⟩ := hc.1 h1 h2
    obtain ⟨hl, hsp⟩ := h.withGlob { s.glob with currBrk := s.glob.userHeapStart }
    have hstep : Stepped F E ok { s with glob := { s.glob with currBrk := s.glob.userHeapStart } }
        y.2.2 := by
      refine stepped_mmapRegion hl hav ⟨hb, ?_⟩ hy
      rw [hsp]
      exact hok
    exact (hstep.ofGlob h rfl rfl rfl).withGlob rfl rfl rfl
  · exact h.stay
  · obtain ⟨hmem, hle⟩ := hc.2 hm
    obtain ⟨l₁, l₂, hA, hfront, hback, hl, hglob, hsp⟩ := h.brkMoves (E := E) hm hmem hv
    have hstep : Stepped F E ok s (kernelMapVma E s.glob.userHeapVma v) := by
      refine ⟨hl, by rw [hglob], by rw [hglob], by rw [hglob], ?_⟩
      rw [hsp]
      refine .resize l₁ l₂ _ _ (s.region s.glob.userHeapVma).startAddr (pageAlign brk)
        ⟨hA, Or.inl rfl, hm.2.2.1, hfront, hback, Or.inl rfl, Or.inr ?_, Or.inr hle⟩
      rw [toNat_pageAlign]
      omega
    exact hstep.withGlob rfl rfl rfl

/-- What a fault does when the machine goes on: nothing, or the VMA above it grows. -/
theorem handleUserPageFault_cases {addr errorCode : U64} {x : Int × St σ η}
    (hrun : handleUserPageFault E addr errorCode s = some x) :
    x.2 = s ∨ ∃ p v, vmaFind addr s = some p ∧ p ≠ 0#64 ∧ addr < (s.region p).startAddr ∧
      (s.region p).flags &&& vmaGrows ≠ 0#64 ∧
      pageDifference s.glob.userStackStart (growStart addr) ≤ s.glob.userStackPageLimit ∧
      vmaGapUpdate p (St.setRegion
        { s with glob := { s.glob with userStackPage := growStart addr } } p
        { s.region p with startAddr := growStart addr }) = some v ∧
      x.2 = kernelMapVma E p v := by
  unfold handleUserPageFault at hrun
  split at hrun
  · exact absurd hrun (by simp)
  · simp only [Option.bind_eq_bind, Option.bind_eq_some_iff] at hrun
    obtain ⟨p, hfind, hrun⟩ := hrun
    split at hrun
    · exact absurd hrun (by simp)
    · rename_i hp0
      split at hrun
      · split at hrun
        · exact Or.inl (congrArg Prod.snd (Option.some.inj hrun)).symm
        · exact absurd hrun (by simp)
      · rename_i hlt
        split at hrun
        · exact absurd hrun (by simp)
        · rename_i hgrows
          simp only [Option.bind_eq_some_iff] at hrun
          obtain ⟨y, hgrow, hrun⟩ := hrun
          unfold growStack at hgrow
          split at hgrow
          · obtain rfl := Option.some.inj hgrow
            simp at hrun
          · rename_i hlim
            simp only [deref_of_ne _ hp0, Option.bind_eq_bind, Option.bind_some,
              Option.bind_eq_some_iff] at hgrow
            obtain ⟨v, hv, hgrow⟩ := hgrow
            obtain rfl := Option.some.inj hgrow
            refine Or.inr ⟨p, v, hfind, hp0, BitVec.not_le.mp hlt, hgrows, BitVec.not_lt.mp hlim,
              hv, ?_⟩
            simp only [ne_eq, not_true_eq_false, if_false, Option.some.injEq] at hrun
            rw [← hrun]

/-- Where `grow_stack` puts the new start.  Below a page address it goes one page too far,
unless that address is free. -/
theorem growStart_bounds {addr start e : U64} {glob : Globals} (hg : GlobOk glob)
    (hlim : pageDifference glob.userStackStart (growStart addr) ≤ glob.userStackPageLimit)
    (hlt : addr < start) (hstart : start.toNat % 4096 = 0) :
    growStart addr < start ∧ (growStart addr).toNat % 4096 = 0 ∧
      (e.toNat % 4096 = 0 → e ≤ addr → (pageOffset addr = 0#64 → e ≠ addr) →
        e ≤ growStart addr) := by
  have hs := start.isLt
  have hlt' : addr.toNat < start.toNat := BitVec.lt_def.mp hlt
  have halign : (pageAlign addr).toNat = (addr.toNat + 4095) / 4096 * 4096 := by
    rw [toNat_pageAlign]
    omega
  have hval : (growStart addr).toNat = (2 ^ 64 - 4096 + (pageAlign addr).toNat) % 2 ^ 64 := by
    rw [growStart, BitVec.toNat_sub]
    rfl
  -- at address zero the new start wraps around, and the limit refuses it
  have hpos : 0 < addr.toNat := by
    by_contra h0
    have h1 := BitVec.le_def.mp hlim
    have h2 := hg.top
    have h3 := hg.limit
    rw [toNat_pageDifference, BitVec.toNat_sub, hval, halign] at h1
    have h4 : addr.toNat = 0 := by omega
    rw [h4] at h1
    omega
  refine ⟨BitVec.lt_def.mpr (by omega), by omega, fun he hle hne => BitVec.le_def.mpr ?_⟩
  have hle' := BitVec.le_def.mp hle
  have hne' : addr.toNat % 4096 = 0 → e.toNat ≠ addr.toNat := fun h0 heq =>
    hne ((pageOffset_eq_zero_iff addr).mpr h0) (BitVec.eq_of_toNat_eq heq)
  rcases Nat.eq_zero_or_pos (addr.toNat % 4096) with h0 | h0
  · have := hne' h0
    omega
  · omega

theorem stepped_fault (h : Linked F s) (hg : GlobOk s.glob)
    (he : EdgesIn (UserEdge s.glob.kernelMinAddress) s.space) {addr errorCode : U64}
    (hc : (Call.fault addr errorCode).Ok E ok s) {x : Int × St σ η}
    (hrun : handleUserPageFault E addr errorCode s = some x) : Stepped F E ok s x.2 := by
  rcases handleUserPageFault_cases hrun with heq | ⟨p, v, hfind, hp0, hlt, -, hlim, hv, heq⟩
  · rw [heq]
    exact h.stay
  · rw [heq]
    have hs := h.sound.sorted
    obtain ⟨a, hh⟩ := h.holds
    rw [hh.vmaFind hs] at hfind
    obtain ⟨r, l, habove⟩ : ∃ r l, above addr s.space.areas = (p, r) :: l := by
      cases hab : above addr s.space.areas with
      | nil =>
          rw [hab] at hfind
          exact absurd (Option.some.inj hfind).symm hp0
      | cons y l =>
          rw [hab] at hfind
          exact ⟨y.2, l, by rw [show p = y.1 from (Option.some.inj hfind).symm]⟩
    have hmem : (p, r) ∈ s.space.areas := (List.dropWhile_sublist _).subset
      (show (p, r) ∈ above addr s.space.areas by simp [habove])
    obtain ⟨hpn, rfl⟩ := (St.mem_space_areas _ _).mp hmem
    obtain ⟨hlg, hsp⟩ := h.withGlob { s.glob with userStackPage := growStart addr }
    have hnodes : p ∈ St.nodes { s with glob :=
        { s.glob with userStackPage := growStart addr } } := by
      rw [← St.space_nodes, hsp, St.space_nodes]
      exact hpn
    obtain ⟨l₁, l₂, v', hA, -, hv', hglob, hres⟩ := hlg.resize (E := E) hnodes
      { s.region p with startAddr := growStart addr }
    obtain rfl := Option.some.inj (hv.symm.trans hv')
    rw [hsp] at hA hres
    have hA' : s.space.areas = l₁ ++ (p, s.region p) :: l₂ := hA
    have hs' := hs
    rw [Space.regions, hA', List.map_append, List.map_cons] at hs'
    obtain ⟨hfront, hlt', hback⟩ := hs'.around
    have hedge := he _ hmem
    -- a VMA in front of the one found ends at or below the address
    have hle : ∀ y ∈ l₁, y.2.endAddr ≤ addr := by
      intro y hy
      by_contra hc'
      have hyA : y ∈ s.space.areas := by rw [hA']; simp [hy]
      have hya : y ∈ above addr s.space.areas := by
        rw [← below_append_above addr s.space.areas] at hyA
        rcases List.mem_append.mp hyA with hb | hb
        · exact absurd (end_le_of_mem_below hb) hc'
        · exact hb
      have h1 := hfront y.2 (List.mem_map_of_mem hy)
      have h2 := hs.lt y.2 (List.mem_map_of_mem hyA)
      have h3 : (s.region p).startAddr ≤ y.2.startAddr := by
        have hsa : Sorted ((above addr s.space.areas).map Prod.snd) :=
          hs.sublist ((List.dropWhile_sublist _).map Prod.snd)
        rw [habove, List.map_cons] at hsa
        rw [habove] at hya
        obtain ⟨h4, h5, -⟩ := sorted_cons.mp hsa
        rcases List.mem_cons.mp hya with rfl | hy'
        · exact BitVec.le_refl _
        · have := h5 y.2 (List.mem_map_of_mem hy')
          bv_omega
      bv_omega
    obtain ⟨hg1, hg2, -⟩ := growStart_bounds (e := 0#64) hg hlim hlt hedge.1.align
    have hfront' : ∀ y ∈ l₁, y.2.endAddr ≤ growStart addr := by
      intro y hy
      have hyA : y ∈ s.space.areas := by rw [hA']; simp [hy]
      obtain ⟨-, -, hg3⟩ := growStart_bounds (e := y.2.endAddr) hg hlim hlt hedge.1.align
      refine hg3 (he y hyA).2.align (hle y hy) fun h0 => hc h0 y.2 ?_
      rw [← St.space_regions]
      exact List.mem_map_of_mem hyA
    have hback' : ∀ y ∈ l₂, (s.region p).endAddr ≤ y.2.startAddr := fun y hy =>
      (hback y.2 (List.mem_map_of_mem hy)).1
    obtain ⟨hl, hsp'⟩ := hres (by simp only; bv_omega) hfront' hback'
    have hglob' : (kernelMapVma E p v).glob = { s.glob with userStackPage := growStart addr } :=
      hglob
    refine ⟨hl, by rw [hglob'], by rw [hglob'], by rw [hglob'], ?_⟩
    rw [hsp']
    exact .resize l₁ l₂ p (s.region p) (growStart addr) (s.region p).endAddr
      ⟨hA', Or.inr ⟨rfl, hg1⟩, by bv_omega, hfront', hback', Or.inr hg2, Or.inl rfl, Or.inl rfl⟩

/-- Every call that meets the condition is one step of the address space. -/
theorem Call.spaceStep (h : Linked F s) (hav : 3 ≤ F.avail s.heap) (hg : GlobOk s.glob)
    (he : EdgesIn (UserEdge s.glob.kernelMinAddress) s.space) {c : Call} (hc : c.Ok E ok s)
    (hrun : c.run E s = some t) : Stepped F E ok s t := by
  cases c with
  | mmapRegion fileInfo addr length flags prot offset =>
      obtain ⟨x, hx, rfl⟩ := Option.map_eq_some_iff.mp hrun
      exact stepped_mmapRegion h hav hc hx
  | mmap stray addr length prot flags fd offset =>
      obtain ⟨x, hx, rfl⟩ := Option.map_eq_some_iff.mp hrun
      exact stepped_mmap h hav hc hx
  | munmap addr length =>
      obtain ⟨x, hx, rfl⟩ := Option.map_eq_some_iff.mp hrun
      exact stepped_munmap h hav hg addr length hx
  | brk request =>
      obtain ⟨x, hx, rfl⟩ := Option.map_eq_some_iff.mp hrun
      exact stepped_brk h hav hc hx
  | fault addr errorCode =>
      obtain ⟨x, hx, rfl⟩ := Option.map_eq_some_iff.mp hrun
      exact stepped_fault h hg he hc hx

end Steps

end BufferVM
