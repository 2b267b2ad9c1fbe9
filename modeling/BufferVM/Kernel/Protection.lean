/-
  Kernel/Protection.lean --- the protection of a VMA in the page tables.

  `vma_prot_to_pg` turns the protection of a VMA into flags, `kernel_map_vma` hands them to
  `map_physical_pages`, and `map_physical_page` writes them into the entry with
  `PDE64_WRITEABLE` added.  So the bits for execution and for user access are those of the
  VMA, and the bit for writing is set whatever the VMA says.
-/
import BufferVM.Kernel.Backing

set_option autoImplicit false

namespace BufferVM

variable {σ ω : Type}

/-! ## One entry -/

/-- An entry has the bits that a protection asks for. -/
structure EntryMatches (prot e : U64) : Prop where
  write : e &&& pde64Writeable ≠ 0#64 ↔ prot &&& vmaWrite ≠ 0#64
  exec : e &&& pde64NoExe ≠ 0#64 ↔ prot &&& vmaExec = 0#64
  user : e &&& pde64User ≠ 0#64 ↔ prot &&& vmaIsVersioned = 0#64

/-- The bits of an entry outside its address. -/
theorem leafEntry_and_flag (flags phys : U64) {bit : U64} (h : entryMask &&& bit = 0#64) :
    leafEntry flags phys &&& bit = (pde64Present ||| (flags ||| pde64Writeable)) &&& bit := by
  rw [leafEntry, or_and_distrib, BitVec.and_assoc phys, h]
  simp

/-- The entry of a page matches the protection of its VMA exactly when that allows writing. -/
theorem entryMatches_iff (prot phys : U64) :
    EntryMatches prot (leafEntry (vmaProtToPg prot) phys) ↔ prot &&& vmaWrite ≠ 0#64 := by
  have hwrite : leafEntry (vmaProtToPg prot) phys &&& pde64Writeable ≠ 0#64 := by
    rw [leafEntry_and_flag _ _ (by decide)]
    unfold vmaProtToPg transferFlag transferInvFlag
    split <;> split <;> split <;> split <;> decide
  have hexec : leafEntry (vmaProtToPg prot) phys &&& pde64NoExe ≠ 0#64 ↔ prot &&& vmaExec =
      0#64 := by
    rw [leafEntry_and_flag _ _ (by decide)]
    unfold vmaProtToPg transferFlag transferInvFlag
    by_cases hx : prot &&& vmaExec = 0#64
    · simp only [hx, if_true, iff_true]
      split <;> split <;> split <;> decide
    · simp only [hx, if_false, iff_false, not_not]
      split <;> split <;> split <;> decide
  have huser : leafEntry (vmaProtToPg prot) phys &&& pde64User ≠ 0#64 ↔
      prot &&& vmaIsVersioned = 0#64 := by
    rw [leafEntry_and_flag _ _ (by decide)]
    unfold vmaProtToPg transferFlag transferInvFlag
    by_cases hx : prot &&& vmaIsVersioned = 0#64
    · simp only [hx, if_true, iff_true]
      split <;> split <;> split <;> decide
    · simp only [hx, if_false, iff_false, not_not]
      split <;> split <;> split <;> decide
  exact ⟨fun h => h.write.mp hwrite, fun h => ⟨iff_of_true hwrite h, hexec, huser⟩⟩

/-! ## A VMA -/

/-- Every entry of a VMA's pages has the bits of its protection. -/
def VmRegion.Protects (vm : Vm) (r : VmRegion) : Prop :=
  ∀ v e, r.Covers v → vm.pte v = some e → EntryMatches r.pageProt e

theorem VmRegion.Held.protects {whole : Prop} {vm : Vm} {r : VmRegion} (h : r.Held whole vm)
    (hw : r.pageProt &&& vmaWrite ≠ 0#64) : r.Protects vm := by
  intro v e hv he
  have hpage := h.inTables.hasPage hv
  rw [Vm.pte_eq_leaf] at he
  rw [h.entries (pageNumber v) e hpage.1 hpage.2 he]
  exact (entryMatches_iff _ _).mpr hw

/-! ## Runs -/

/-- A mapping that gets a VMA of its own allows writing. -/
def writableOk (A : Space σ (Host ω)) : Mapping → Prop
  | .fail _ => True
  | .map _ q => q.Unmerged A.regions → q.prot &&& vmaWrite ≠ 0#64

/-- **Page-table protection matches the VMA** along every run in which each mapping that
gets a VMA of its own asks for write access, as long as physical memory is not exhausted. -/
theorem protects_of_runs (H : NodeHeap σ) (O : HostOs ω) (hO : ∀ os, (O.dup os noFd).2 = noFd)
    (F : (hostEnv H O).toNodeHeap.Fresh) (heap : σ) (host : Host ω) (hp : host.vm.Paged)
    (glob : Globals) (hg : GlobOk glob) (hmin : glob.kernelMinAddress.toNat ≤ 2 ^ 39)
    (cs : List Call) (t : St σ (Host ω))
    (h : CallRuns (hostEnv H O) F writableOk (St.empty heap host glob) cs t)
    (hroom : t.host.vm.pageCounter ≤ physicalHeapPages) :
    ∀ r ∈ t.regions, r.Protects t.host.vm := by
  have hsteps : AreaSteps O True (fun k => k.pageProt &&& vmaWrite ≠ 0#64) (fun _ => True) _
      t.areas :=
    h.areaSteps hO hmin (fun _ _ _ hok hun => hok hun) (fun _ _ _ _ _ _ => trivial)
      (orderly_empty F heap host hg)
  have hnone : (St.empty heap host glob).regions = [] := by simp [St.regions, St.nodes_empty]
  have hwrite := hsteps.all (Q := fun r => r.pageProt &&& vmaWrite ≠ 0#64) (fun _ _ hk => hk)
    (fun _ r k hk hr => hk.prot ▸ hr) (by
      rw [St.areas, hnone]
      exact fun r hr => absurd hr List.not_mem_nil)
  have hback : Backed False t.areas := hsteps.backed (backed_empty heap glob hp)
    (hroom.trans physicalHeapPages_le_maxFrames) fun _ => id
  exact fun r hr => (hback.held r hr).protects (hwrite r hr)

instance (q : Request) (l : List VmRegion) : Decidable (q.Unmerged l) :=
  decidable_of_iff (¬ q.MeetsFront l ∧ ¬ q.MeetsBack l)
    ⟨fun h => ⟨h.1, h.2⟩, fun h => ⟨h.front, h.back⟩⟩

/-- Two writable VMAs of the small machine, one of them extended. -/
theorem protects_of_runs_machine :
    ∃ t, CallRuns machineEnv bumpFresh writableOk machine
        [anonymousMap 0x1000#64 0x1000#64, anonymousMap 0x4000#64 0x1000#64,
          anonymousMap 0x2000#64 0x1000#64] t ∧
      t.regions.length = 2 ∧ ∀ r ∈ t.regions, r.Protects t.host.vm := by
  have hrun : (machineRun
      (fun s q => decide (q.Unmerged s.regions → q.prot &&& vmaWrite ≠ 0#64))
      [anonymousMap 0x1000#64 0x1000#64, anonymousMap 0x4000#64 0x1000#64,
        anonymousMap 0x2000#64 0x1000#64]).map
        (fun t => (t.regions.length, decide (t.host.vm.pageCounter ≤ physicalHeapPages))) =
      some (2, true) := by decide +kernel
  obtain ⟨t, ht, hfacts⟩ := Option.map_eq_some_iff.mp hrun
  obtain ⟨hlen, hroom⟩ := Prod.mk.inj hfacts
  have hruns : CallRuns machineEnv bumpFresh writableOk machine
      [anonymousMap 0x1000#64 0x1000#64, anonymousMap 0x4000#64 0x1000#64,
        anonymousMap 0x2000#64 0x1000#64] t := by
    refine Run.Steps.of_exec (callOk_of_machineTest _ fun s q hq => ?_) _ ht
    have hok := of_decide_eq_true hq
    rw [← St.space_regions] at hok
    exact hok
  exact ⟨t, hruns, hlen, protects_of_runs bumpHeap bareOs (fun _ => rfl) bumpFresh (0, [])
    bareHost paged_bareHost smallGlobals globOk_smallGlobals (by decide) _ t hruns
    (of_decide_eq_true hroom)⟩

/-- A page that is mapped for reading only. -/
def readOnlyMap (addr length : U64) : Call := .mmapRegion none addr length 0#64 vmaRead 0#64

/-- The entry of a page that is mapped for reading only has the writable bit. -/
theorem readOnly_page_is_writable :
    ∃ t, CallRuns machineEnv bumpFresh (fun _ _ => True) machine
        [readOnlyMap 0x1000#64 0x1000#64] t ∧ t.host.stopped = false ∧
      ∃ r ∈ t.regions, ¬ r.Protects t.host.vm := by
  have hrun : (machineRun (fun _ _ => true) [readOnlyMap 0x1000#64 0x1000#64]).map
      (fun t => (t.host.stopped, t.regions.map (fun r => (r.startAddr, r.endAddr, r.pageProt)),
        (t.host.vm.pte 0x1000#64).map fun e => decide (e &&& pde64Writeable ≠ 0#64))) =
      some (false, [(0x1000#64, 0x2000#64, vmaRead)], some true) := by decide +kernel
  obtain ⟨t, ht, hfacts⟩ := Option.map_eq_some_iff.mp hrun
  simp only [Prod.mk.injEq] at hfacts
  obtain ⟨hstop, hregions, hpte⟩ := hfacts
  have hruns := Run.Steps.of_exec (callOk_of_machineTest
    (fun _ _ => True) fun _ _ _ => trivial) _ ht
  obtain ⟨r, hr⟩ : ∃ r, t.regions = [r] := List.length_eq_one_iff.mp (by
    simpa using congrArg List.length hregions)
  simp only [hr, List.map_cons, List.map_nil, List.cons.injEq, Prod.mk.injEq, and_true] at hregions
  obtain ⟨e, he, hw⟩ := Option.map_eq_some_iff.mp hpte
  refine ⟨t, hruns, hstop, r, by rw [hr]; simp, fun hprot => ?_⟩
  have hcovers : r.Covers 0x1000#64 := by
    rw [VmRegion.Covers, hregions.1, hregions.2.1]
    decide
  have hno := (hprot 0x1000#64 e hcovers he).write.mp (of_decide_eq_true hw)
  rw [hregions.2.2] at hno
  exact hno (by decide)

end BufferVM
