/-
  Kernel/Backing.lean --- the VMAs of the store and the page tables.

  Every VMA of the store is held by the machine at every point between two host calls, and
  backed as long as no request has been merged with VMAs on both of its sides: the merged
  VMA is mapped before the one it has swallowed is unmapped, and the unmapping then takes
  away entries of the merged one.  The entries that a VMA has carry its protection, but the
  writable bit is set in every one of them.
-/
import BufferVM.Kernel.HostSteps
import BufferVM.Vm.Capacity

set_option autoImplicit false

namespace BufferVM

variable {σ ω : Type} {O : HostOs ω} {bridges whole : Prop} {P : VmRegion → Prop} {C : Nat → Prop}
  {x y : List VmRegion × Host ω}

/-! ## The invariant between host calls -/

/-- The page tables are in order and the machine holds every VMA. -/
structure Backed (whole : Prop) (x : List VmRegion × Host ω) : Prop where
  paged : x.2.vm.Paged
  held : ∀ r ∈ x.1, r.Held whole x.2.vm

theorem le_pageCounter_hostAfter {h : Host ω} {k : VmRegion} (hk : k.InTables) :
    h.vm.pageCounter ≤ (hostAfter O h k).vm.pageCounter := le_pageCounter_kernelMapVma hk

/-- Pages are handed out and never taken back. -/
theorem AreaStep.le_pageCounter (h : AreaStep O bridges P C x y) :
    x.2.vm.pageCounter ≤ y.2.vm.pageCounter := by
  cases h with
  | os l h os => exact le_rfl
  | insert l₁ l₂ k h hk hphys hap hP => exact le_pageCounter_hostAfter hk
  | remap l₁ l₂ r k h hk hap hC => exact le_pageCounter_hostAfter hk.inTables
  | split l₁ l₂ r new kept h below hsp hap =>
      exact (le_pageCounter_hostAfter hsp.ofNew.inTables).trans
        (le_pageCounter_hostAfter hsp.ofKept.inTables)
  | remove l₁ l₂ r h hap hC => exact le_pageCounter_kernelUnmapVma h r
  | swallow l₁ l₂ r k n h os hbr hk hap =>
      exact (le_pageCounter_hostAfter hk.inTables).trans (le_pageCounter_kernelUnmapVma _ n)

theorem AreaSteps.le_pageCounter (h : AreaSteps O bridges P C x y) :
    x.2.vm.pageCounter ≤ y.2.vm.pageCounter := by
  induction h with
  | refl => exact le_rfl
  | tail _ hs ih => exact ih.trans hs.le_pageCounter

/-- What is left of a VMA that has been split differs from it. -/
theorem needsMap_of_part {vm : Vm} {r new kept : VmRegion} (hr : r.Placed vm)
    (hn : new.InTables) (hk : r.Reshapes kept) (hin : new.Within r) (hapart : kept.Apart new) :
    kept.NeedsMap := by
  by_contra hno
  obtain ⟨hstart, hend⟩ := hk.bounds_eq hr hno
  have hfirst : kept.first = r.first := congrArg frameOf hstart
  have hlast : kept.last = r.last := congrArg frameOf hend
  have h1 := hn.lt
  have h2 := hin.first
  have h3 := hin.last
  rcases hapart with h | h
  · omega
  · omega

theorem SplitParts.needsMap {vm : Vm} {r new kept : VmRegion} (hsp : SplitParts r new kept)
    (hr : r.Placed vm) : new.NeedsMap ∧ kept.NeedsMap :=
  ⟨needsMap_of_part hr hsp.ofKept.inTables hsp.ofNew hsp.keptWithin hsp.apart.symm,
    needsMap_of_part hr hsp.ofNew.inTables hsp.ofKept hsp.newWithin hsp.apart⟩

/-- A VMA apart from another is apart from its parts. -/
theorem VmRegion.Apart.within {r k x : VmRegion} (h : r.Apart x) (hk : k.Within r) : k.Apart x := by
  have h1 := hk.first
  have h2 := hk.last
  rcases h with h | h
  · exact Or.inl (h.trans h1)
  · exact Or.inr (h2.trans h)

/-- The two halves of a VMA, once both have been mapped, are backed, and others are what
they were. -/
theorem held_split {h : Host ω} {r new kept : VmRegion} (whole : Prop) (hp : h.vm.Paged)
    (hr : r.Placed h.vm) (hsp : SplitParts r new kept)
    (hb : (hostAfter O (hostAfter O h new) kept).vm.pageCounter ≤ maxFrames) :
    (hostAfter O (hostAfter O h new) kept).vm.Paged ∧
      (hostMapped O h new).Held whole (hostAfter O (hostAfter O h new) kept).vm ∧
      (hostMapped O (hostAfter O h new) kept).Held whole
        (hostAfter O (hostAfter O h new) kept).vm ∧
      ∀ x : VmRegion, r.Apart x → x.Held whole h.vm →
        x.Held whole (hostAfter O (hostAfter O h new) kept).vm := by
  have hb₁ : (hostAfter O h new).vm.pageCounter ≤ maxFrames :=
    (le_pageCounter_hostAfter hsp.ofKept.inTables).trans hb
  obtain ⟨hneeds, hneeds'⟩ := hsp.needsMap hr
  obtain ⟨hp₁, hnew, hkeep, hold₁⟩ := held_kernelMapVma_changed whole hp hr hsp.ofNew hneeds hb₁
  obtain ⟨hp₂, hkept, -, hold₂⟩ := held_kernelMapVma_changed whole hp₁ (hr.keep hkeep) hsp.ofKept
    hneeds' hb
  refine ⟨hp₂, hold₂ _ hsp.apart hnew, hkept, fun x hap hx => ?_⟩
  exact hold₂ x (hap.within hsp.keptWithin) (hold₁ x (hap.within hsp.newWithin) hx)

/-- **One step keeps every VMA held**, and backed if the step does not make one VMA swallow
another. -/
theorem AreaStep.backed (h : AreaStep O bridges P C x y) (hx : Backed whole x)
    (hb : y.2.vm.pageCounter ≤ maxFrames) (hbr : bridges → ¬ whole) : Backed whole y := by
  cases h with
  | os l h os => exact ⟨hx.paged, hx.held⟩
  | insert l₁ l₂ k h hk hphys hap hP =>
      obtain ⟨hp, hnew, hold⟩ := held_kernelMapVma_fresh whole hx.paged hk hphys hb
      refine ⟨hp, fun r hr => ?_⟩
      rcases List.mem_append.mp hr with hr | hr
      · exact hold r (hap r (by simp [hr])) (hx.held r (by simp [hr]))
      · rcases List.mem_cons.mp hr with rfl | hr
        · exact hnew
        · exact hold r (hap r (by simp [hr])) (hx.held r (by simp [hr]))
  | remap l₁ l₂ r k h hk hap hC =>
      obtain ⟨hp, hnew, -, hold⟩ := held_kernelMapVma hx.paged (hx.held r (by simp)) hk hb
      refine ⟨hp, fun x hxr => ?_⟩
      rcases List.mem_append.mp hxr with hxr | hxr
      · exact hold x (hap x (by simp [hxr])) (hx.held x (by simp [hxr]))
      · rcases List.mem_cons.mp hxr with rfl | hxr
        · exact hnew
        · exact hold x (hap x (by simp [hxr])) (hx.held x (by simp [hxr]))
  | split l₁ l₂ r new kept h below hsp hap =>
      obtain ⟨hp, hnew, hkept, hold⟩ := held_split whole hx.paged
        (hx.held r (by simp)).toPlaced hsp hb
      refine ⟨hp, fun x hxr => ?_⟩
      rcases List.mem_cons.mp ((perm_parts l₁ l₂ _ _ below).mem_iff.mp hxr) with rfl | hxr
      · exact hnew
      · rcases List.mem_cons.mp hxr with rfl | hxr
        · exact hkept
        · refine hold x (hap x hxr) (hx.held x ?_)
          rcases List.mem_append.mp hxr with hxr | hxr
          · simp [hxr]
          · simp [hxr]
  | remove l₁ l₂ r h hap hC =>
      have hr := (hx.held r (by simp)).toPlaced
      refine ⟨(kernelUnmapVma_spec hx.paged hr hb).1, fun x hxl => ?_⟩
      refine held_kernelUnmapVma hx.paged hr hb (hx.held x ?_) fun _ => hap x hxl
      rcases List.mem_append.mp hxl with hxl | hxl
      · simp [hxl]
      · simp [hxl]
  | swallow l₁ l₂ r k n h os hbr' hk hap =>
      have hno := hbr hbr'
      have hb₁ : (hostAfter O h k).vm.pageCounter ≤ maxFrames :=
        (le_pageCounter_kernelUnmapVma _ n).trans hb
      obtain ⟨hp₁, hnew, hkeep, hold⟩ := held_kernelMapVma hx.paged (hx.held r (by simp)) hk hb₁
      have hn := (hx.held n (by simp)).toPlaced.keep hkeep
      refine ⟨(kernelUnmapVma_spec hp₁ hn hb).1, fun x hxr => ?_⟩
      -- the entries of the VMA that is gone are taken away, whoever they belong to now
      refine held_kernelUnmapVma hp₁ hn hb ?_ fun hw => absurd hw hno
      rcases List.mem_append.mp hxr with hxr | hxr
      · exact hold x (hap x (by simp [hxr])) (hx.held x (by simp [hxr]))
      · rcases List.mem_cons.mp hxr with rfl | hxr
        · exact hnew
        · exact hold x (hap x (by simp [hxr])) (hx.held x (by simp [hxr]))

theorem AreaSteps.backed (h : AreaSteps O bridges P C x y) (hx : Backed whole x)
    (hb : y.2.vm.pageCounter ≤ maxFrames) (hbr : bridges → ¬ whole) : Backed whole y := by
  induction h with
  | refl => exact hx
  | tail h hs ih => exact hs.backed (ih (hs.le_pageCounter.trans hb)) hb hbr

/-- What a new VMA has and what a VMA with other bounds keeps, every VMA has. -/
theorem AreaStep.all {Q : VmRegion → Prop} (h : AreaStep O bridges P C x y)
    (hP : ∀ h k, P k → Q (hostMapped O h k))
    (hQ : ∀ h r k, r.Reshapes k → Q r → Q (hostMapped O h k)) (hx : ∀ r ∈ x.1, Q r) :
    ∀ r ∈ y.1, Q r := by
  cases h with
  | os l h os => exact hx
  | insert l₁ l₂ k h hk hphys hap hPk =>
      simp only [List.forall_mem_append, List.forall_mem_cons] at hx ⊢
      exact ⟨hx.1, hP h k hPk, hx.2⟩
  | remap l₁ l₂ r k h hk hap hC =>
      simp only [List.forall_mem_append, List.forall_mem_cons] at hx ⊢
      exact ⟨hx.1, hQ h r k hk hx.2.1, hx.2.2⟩
  | split l₁ l₂ r new kept h below hsp hap =>
      intro x hxr
      have hr := hx r (by simp)
      rcases List.mem_cons.mp ((perm_parts l₁ l₂ _ _ below).mem_iff.mp hxr) with rfl | hxr
      · exact hQ h r new hsp.ofNew hr
      · rcases List.mem_cons.mp hxr with rfl | hxr
        · exact hQ _ r kept hsp.ofKept hr
        · refine hx x ?_
          rcases List.mem_append.mp hxr with hxr | hxr
          · simp [hxr]
          · simp [hxr]
  | remove l₁ l₂ r h hap hC =>
      simp only [List.forall_mem_append, List.forall_mem_cons] at hx ⊢
      exact ⟨hx.1, hx.2.2⟩
  | swallow l₁ l₂ r k n h os hbr hk hap =>
      simp only [List.forall_mem_append, List.forall_mem_cons] at hx ⊢
      exact ⟨hx.1, hQ h r k hk hx.2.1, hx.2.2.2⟩

theorem AreaSteps.all {Q : VmRegion → Prop} (h : AreaSteps O bridges P C x y)
    (hP : ∀ h k, P k → Q (hostMapped O h k))
    (hQ : ∀ h r k, r.Reshapes k → Q r → Q (hostMapped O h k)) (hx : ∀ r ∈ x.1, Q r) :
    ∀ r ∈ y.1, Q r := by
  induction h with
  | refl => exact hx
  | tail _ hs ih => exact hs.all hP hQ ih

/-! ## Runs of calls -/

section Runs

variable {H : NodeHeap σ} {F : (hostEnv H O).toNodeHeap.Fresh} {s t : St σ (Host ω)}
  {ok : Space σ (Host ω) → Mapping → Prop}

/-- The VMAs of a store beside the host. -/
def St.areas (s : St σ (Host ω)) : List VmRegion × Host ω := (s.regions, s.host)

/-- A run of calls, as its host calls. -/
theorem CallRuns.areaSteps {cs : List Call} (h : CallRuns (hostEnv H O) F ok s cs t)
    (hO : ∀ os, (O.dup os noFd).2 = noFd) (hmin : s.glob.kernelMinAddress.toNat ≤ 2 ^ 39)
    (hP : ∀ A fd q, ok A (.map fd q) → q.Unmerged A.regions → P q.fresh)
    (hbr : ∀ A fd q, ok A (.map fd q) → q.MeetsFront A.regions → q.MeetsBack A.regions → bridges)
    (hs : Orderly F s) : AreaSteps O bridges P (fun _ => True) s.areas t.areas := by
  refine (Run.Steps.invariant (fun u => Orderly F u ∧
    u.glob.kernelMinAddress = s.glob.kernelMinAddress ∧
    AreaSteps O bridges P (fun _ => True) s.areas u.areas) h ?_ ⟨hs, rfl, .refl _⟩).2.2
  rintro u c v ⟨hu, hk, hsteps⟩ ⟨hav, hc⟩ hrun
  obtain ⟨hv, hst⟩ := hu.call hav hc hrun
  refine ⟨hv, hst.kernelMin.trans hk, hsteps.trans ?_⟩
  rw [← hk] at hmin
  have hstep := hst.step.areaSteps hO hmin hu.linked.sound hav hu.edges hP hbr
  rw [St.space_regions, St.space_regions] at hstep
  exact hstep

/-- A machine without VMAs. -/
theorem backed_empty (heap : σ) {host : Host ω} (glob : Globals) (hp : host.vm.Paged) :
    Backed whole (St.empty heap host glob).areas := by
  refine ⟨hp, fun r hr => ?_⟩
  have hnone : (St.empty heap host glob).regions = [] := by simp [St.regions, St.nodes_empty]
  rw [St.areas, hnone] at hr
  exact absurd hr List.not_mem_nil

end Runs

/-- A mapping is not merged with VMAs on both of its sides at once. -/
def oneSided (A : Space σ (Host ω)) : Mapping → Prop
  | .fail _ => True
  | .map _ q => ¬ (q.MeetsFront A.regions ∧ q.MeetsBack A.regions)

/-- **VMAs and page tables agree** along every run in which no mapping is merged with VMAs
on both of its sides, as long as physical memory is not exhausted: of every VMA the host's
record is up to date, and its pages translate to its frames, one after the other. -/
theorem consistent_of_runs (H : NodeHeap σ) (O : HostOs ω) (hO : ∀ os, (O.dup os noFd).2 = noFd)
    (F : (hostEnv H O).toNodeHeap.Fresh) (heap : σ) (host : Host ω) (hp : host.vm.Paged)
    (glob : Globals) (hg : GlobOk glob) (hmin : glob.kernelMinAddress.toNat ≤ 2 ^ 39)
    (cs : List Call) (t : St σ (Host ω))
    (h : CallRuns (hostEnv H O) F oneSided (St.empty heap host glob) cs t)
    (hroom : t.host.vm.pageCounter ≤ physicalHeapPages) :
    ∀ r ∈ t.regions, r.Consistent t.host.vm := by
  have hsteps : AreaSteps O False (fun _ => True) (fun _ => True) _ t.areas :=
    h.areaSteps hO hmin (fun _ _ _ _ _ => trivial)
      (fun _ _ _ hok hfront hback => hok ⟨hfront, hback⟩) (orderly_empty F heap host hg)
  have hb := hroom.trans physicalHeapPages_le_maxFrames
  have hback : Backed True t.areas := hsteps.backed (backed_empty heap glob hp) hb False.elim
  exact fun r hr => (hback.held r hr).consistent hback.paged hb

/-! ## A small machine -/

/-- The small machine with page tables and memory. -/
def machineEnv : Env (Nat × List Ptr) (Host Unit) := hostEnv bumpHeap bareOs

/-- That machine before the first call. -/
def machine : St (Nat × List Ptr) (Host Unit) := St.empty (0, []) bareHost smallGlobals

/-- An anonymous mapping by the kernel. -/
def anonymousMap (addr length : U64) : Call :=
  .mmapRegion none addr length 0#64 (vmaRead ||| vmaWrite) 0#64

/-- A test for runs of mappings, unmappings and breaks on the small machine. -/
def machineTest (test : St (Nat × List Ptr) (Host Unit) → Request → Bool)
    (s : St (Nat × List Ptr) (Host Unit)) : Call → Bool
  | .mmapRegion fileInfo addr length flags prot offset =>
      decide (3 ≤ bumpFresh.avail s.heap) &&
        decide (InBounds s.glob.kernelMinAddress addr length) &&
        test s (mmapRequest fileInfo addr length flags prot offset)
  | .munmap _ _ => decide (3 ≤ bumpFresh.avail s.heap)
  | .brk request =>
      decide (3 ≤ bumpFresh.avail s.heap) &&
        (decide ¬ (request = 0#64 ∧ s.glob.currBrk = 0#64) ||
          decide (InBounds s.glob.kernelMinAddress s.glob.userHeapStart pageSize) &&
            test s (heapRequest s.glob)) &&
        (decide ¬ s.BrkMoves request ||
          s.nodes.contains s.glob.userHeapVma &&
            decide (pageAlign request ≤ s.glob.kernelMinAddress))
  | _ => false

theorem callOk_of_machineTest (ok : Space (Nat × List Ptr) (Host Unit) → Mapping → Prop)
    {test : St (Nat × List Ptr) (Host Unit) → Request → Bool}
    (htest : ∀ s q, test s q = true → ok s.space (.map noFd q))
    (s : St (Nat × List Ptr) (Host Unit)) (c : Call) (h : machineTest test s c = true) :
    CallOk machineEnv bumpFresh ok s c := by
  cases c with
  | mmapRegion fileInfo addr length flags prot offset =>
      simp only [machineTest, Bool.and_eq_true, decide_eq_true_eq] at h
      exact ⟨h.1.1, h.1.2, htest _ _ h.2⟩
  | munmap addr length =>
      simp only [machineTest, decide_eq_true_eq] at h
      exact ⟨h, trivial⟩
  | mmap => exact absurd h (by simp [machineTest])
  | brk request =>
      simp only [machineTest, Bool.and_eq_true, Bool.or_eq_true, decide_eq_true_eq,
        List.contains_iff_mem] at h
      obtain ⟨⟨hav, hfirst⟩, hmoves⟩ := h
      refine ⟨hav, fun hzero hbrk => ?_, fun hm => hmoves.resolve_left fun hno => hno hm⟩
      obtain ⟨hb, hq⟩ := hfirst.resolve_left fun hno => hno ⟨hzero, hbrk⟩
      exact ⟨hb, htest _ _ hq⟩
  | fault => exact absurd h (by simp [machineTest])

/-- Run calls on the small machine, testing each mapping. -/
def machineRun (test : St (Nat × List Ptr) (Host Unit) → Request → Bool) (cs : List Call) :
    Option (St (Nat × List Ptr) (Host Unit)) :=
  Run.exec (fun s c => c.run machineEnv s) (machineTest test) cs machine

theorem paged_bareHost : bareHost.vm.Paged := by
  have hp := initial_blankVm.refines.paged
  unfold bareHost
  generalize buildPageTables blankVm = vm at hp ⊢
  exact hp

/-- Three pages, with the one in the middle unmapped: the two that are left have been moved
and are consistent. -/
theorem consistent_of_runs_hole :
    ∃ t, CallRuns machineEnv bumpFresh oneSided machine
        [anonymousMap 0x1000#64 0x3000#64, .munmap 0x2000#64 0x1000#64] t ∧
      t.regions.length = 2 ∧ ∀ r ∈ t.regions, r.Consistent t.host.vm := by
  have hrun : (machineRun (fun s q => decide ¬ (q.MeetsFront s.regions ∧ q.MeetsBack s.regions))
      [anonymousMap 0x1000#64 0x3000#64, .munmap 0x2000#64 0x1000#64]).map
        (fun t => (t.regions.length, decide (t.host.vm.pageCounter ≤ physicalHeapPages))) =
      some (2, true) := by decide +kernel
  obtain ⟨t, ht, hfacts⟩ := Option.map_eq_some_iff.mp hrun
  obtain ⟨hlen, hroom⟩ := Prod.mk.inj hfacts
  have hruns : CallRuns machineEnv bumpFresh oneSided machine
      [anonymousMap 0x1000#64 0x3000#64, .munmap 0x2000#64 0x1000#64] t := by
    refine Run.Steps.of_exec (callOk_of_machineTest _ fun s q hq => ?_) _ ht
    have hno := of_decide_eq_true hq
    rw [← St.space_regions] at hno
    exact hno
  exact ⟨t, hruns, hlen, consistent_of_runs bumpHeap bareOs (fun _ => rfl) bumpFresh (0, [])
    bareHost paged_bareHost smallGlobals globOk_smallGlobals (by decide) _ t hruns
    (of_decide_eq_true hroom)⟩

/-- A page between two others of the same kind: the merged VMA is mapped, and then the last
of its pages is unmapped with the VMA that was there before. -/
theorem bridge_unmaps_page :
    ∃ t, CallRuns machineEnv bumpFresh (fun _ _ => True) machine
        [anonymousMap 0x1000#64 0x1000#64, anonymousMap 0x3000#64 0x1000#64,
          anonymousMap 0x2000#64 0x1000#64] t ∧
      t.host.vm.pageCounter ≤ physicalHeapPages ∧ t.host.stopped = false ∧
      ∃ r ∈ t.regions, ¬ r.Consistent t.host.vm := by
  have hrun : (machineRun (fun _ _ => true) [anonymousMap 0x1000#64 0x1000#64,
      anonymousMap 0x3000#64 0x1000#64, anonymousMap 0x2000#64 0x1000#64]).map
        (fun t => (decide (t.host.vm.pageCounter ≤ physicalHeapPages), t.host.stopped,
          t.regions.map (fun r => (r.startAddr, r.pages)), getPhysAddr 0x3000#64 t.host.vm)) =
      some (true, false, [(0x1000#64, 3#64)], none) := by decide +kernel
  obtain ⟨t, ht, hfacts⟩ := Option.map_eq_some_iff.mp hrun
  simp only [Prod.mk.injEq] at hfacts
  obtain ⟨hroom, hstop, hregions, hphys⟩ := hfacts
  have hruns := Run.Steps.of_exec
    (callOk_of_machineTest (fun _ _ => True) fun _ _ _ => trivial) _ ht
  obtain ⟨r, hr⟩ : ∃ r, t.regions = [r] := List.length_eq_one_iff.mp (by
    simpa using congrArg List.length hregions)
  simp only [hr, List.map_cons, List.map_nil, List.cons.injEq, Prod.mk.injEq, and_true] at hregions
  refine ⟨t, hruns, of_decide_eq_true hroom, hstop, r, by rw [hr]; simp, fun hc => ?_⟩
  have htwo := hc.translates 2 (by rw [hregions.2]; decide)
  have haddr : r.startAddr + BitVec.ofNat 64 2 * pageSize = 0x3000#64 := by
    rw [hregions.1]
    decide
  rw [haddr, hphys] at htwo
  exact absurd htwo (by simp)

end BufferVM
