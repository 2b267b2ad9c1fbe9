/-
  Kernel/Memory.lean --- what the guest reads, before and after `mmap_region`.

  The calls of the kernel are interleaved with stores of the guest, which may change any
  page that has been handed out and holds no table.  From every state that such a run
  reaches, an anonymous mapping leaves the anonymous pages outside its range as they are,
  and the pages of its range read as zero.
-/
import BufferVM.Kernel.Contents

set_option autoImplicit false

namespace BufferVM

variable {σ ω : Type} {O : HostOs ω} {H : NodeHeap σ} {F : (hostEnv H O).toNodeHeap.Fresh}
  {s t : St σ (Host ω)} {ok : Space σ (Host ω) → Mapping → Prop}

/-! ## Stores of the guest -/

/-- What happens to the machine: a call of the kernel, or a store of the guest. -/
inductive Access where
  | call (c : Call)
  | store (mem : Nat → U64 → U64)

/-- The machine with other contents of memory. -/
def St.store (mem : Nat → U64 → U64) (s : St σ (Host ω)) : St σ (Host ω) :=
  { s with host := { s.host with vm := { s.host.vm with mem := mem } } }

/-- One access. -/
def Access.run (E : Env σ (Host ω)) (s : St σ (Host ω)) : Access → Option (St σ (Host ω))
  | .call c => c.run E s
  | .store mem => some (s.store mem)

/-- A store changes pages that have been handed out and hold no table. -/
def Access.Ok (E : Env σ (Host ω)) (F : E.toNodeHeap.Fresh) (ok : Space σ (Host ω) → Mapping → Prop)
    (s : St σ (Host ω)) : Access → Prop
  | .call c => CallOk E F ok s c
  | .store mem => ∀ f, ¬ s.host.vm.IsData f → mem f = s.host.vm.mem f

/-- A run of calls and stores. -/
def AccessRuns (E : Env σ (Host ω)) (F : E.toNodeHeap.Fresh)
    (ok : Space σ (Host ω) → Mapping → Prop) : St σ (Host ω) → List Access → St σ (Host ω) → Prop :=
  Run.Steps (fun s a => a.run E s) (Access.Ok E F ok)

/-- A store of the guest keeps every VMA held. -/
theorem Stocked.store {whole : Prop} {l : List VmRegion} {h : Host ω} (hx : Stocked whole (l, h))
    {mem : Nat → U64 → U64} (hmem : ∀ f, ¬ h.vm.IsData f → mem f = h.vm.mem f) :
    Stocked whole (l, { h with vm := { h.vm with mem := mem } }) := by
  have hsame : h.vm.SameTables { h.vm with mem := mem } := hx.paged.sameTables_data rfl rfl hmem
  have hkeep : h.vm.KeepsData { h.vm with mem := mem } := fun f hf => (hsame.isData rfl f).mpr hf
  refine ⟨⟨hsame.paged, fun r hr => ?_⟩, fun f i hf => ?_, hx.apart⟩
  · exact (hx.held r hr).keep hkeep fun k _ _ => hsame.pte _
  · have hno : ¬ h.vm.IsData f := by
      intro hd
      have hlt := hd.lt
      have hle : h.vm.pageCounter ≤ f := hf
      omega
    show mem f i = 0#64
    rw [hmem f hno]
    exact hx.fresh f i hf

/-! ## Runs -/

/-- The state between two accesses. -/
structure Settled (whole : Prop) (Q : VmRegion → Prop) (F : (hostEnv H O).toNodeHeap.Fresh)
    (s : St σ (Host ω)) : Prop where
  orderly : Orderly F s
  has : ∀ r ∈ s.regions, Q r
  stocked : s.host.vm.pageCounter ≤ maxFrames → Stocked whole s.areas

/-- A property that the host does not touch, and that VMAs with other bounds keep. -/
structure HostKeeps (O : HostOs ω) (Q : VmRegion → Prop) : Prop where
  mapped : ∀ h k, Q k → Q (hostMapped O h k)
  reshaped : ∀ h r k, r.Reshapes k → Q r → Q (hostMapped O h k)

variable {whole : Prop} {Q : VmRegion → Prop}

/-- A store of the guest does not touch the VMAs. -/
theorem Settled.regions_store (hs : Settled whole Q F s) (mem : Nat → U64 → U64) :
    (s.store mem).regions = s.regions := by
  obtain ⟨-, hsp⟩ := hs.orderly.linked.withHost
    { s.host with vm := { s.host.vm with mem := mem } }
  have hr := congrArg Space.regions hsp
  rw [St.space_regions] at hr
  rw [St.store, hr, ← St.space_regions]
  rfl

theorem Settled.store {mem : Nat → U64 → U64} (hs : Settled whole Q F s)
    (hmem : ∀ f, ¬ s.host.vm.IsData f → mem f = s.host.vm.mem f) :
    Settled whole Q F (s.store mem) := by
  obtain ⟨hl, hsp⟩ := hs.orderly.linked.withHost
    { s.host with vm := { s.host.vm with mem := mem } }
  have hregions := hs.regions_store mem
  refine ⟨⟨hl, hs.orderly.glob, ?_⟩, by rw [hregions]; exact hs.has, fun hb => ?_⟩
  · intro x hx
    rw [St.store, hsp] at hx
    exact hs.orderly.edges x hx
  · have hst := (hs.stocked hb).store hmem
    rw [St.areas, hregions]
    exact hst

section Runs

variable (hO : ∀ os, (O.dup os noFd).2 = noFd) (hQ : HostKeeps O Q)
  (hnew : ∀ A fd q, ok A (.map fd q) → Q q.fresh)
  (hbr : whole → ∀ A fd q, ok A (.map fd q) → ¬ (q.MeetsFront A.regions ∧ q.MeetsBack A.regions))

include hO hQ hnew hbr

theorem Settled.call {c : Call} (hmin : s.glob.kernelMinAddress.toNat ≤ 2 ^ 39)
    (hs : Settled whole Q F s) (hc : CallOk (hostEnv H O) F ok s c)
    (hrun : c.run (hostEnv H O) s = some t) :
    Settled whole Q F t ∧ t.glob.kernelMinAddress = s.glob.kernelMinAddress := by
  obtain ⟨ht, hst⟩ := hs.orderly.call hc.1 hc.2 hrun
  have hsteps : AreaSteps O (¬ whole) Q (fun _ => True) _ _ :=
    hst.step.areaSteps hO hmin hs.orderly.linked.sound hc.1 hs.orderly.edges
      (fun A fd q hok _ => hnew A fd q hok)
      (fun A fd q hok hfront hback hw => hbr hw A fd q hok ⟨hfront, hback⟩)
  rw [St.space_regions, St.space_regions] at hsteps
  refine ⟨⟨ht, ?_, fun hb => ?_⟩, hst.kernelMin⟩
  · exact hsteps.all hQ.mapped hQ.reshaped hs.has
  · exact hsteps.stocked (hs.stocked (hsteps.le_pageCounter.trans hb)) hb id

theorem AccessRuns.settled {as : List Access} (hmin : s.glob.kernelMinAddress.toNat ≤ 2 ^ 39)
    (h : AccessRuns (hostEnv H O) F ok s as t) (hs : Settled whole Q F s) :
    Settled whole Q F t ∧ t.glob.kernelMinAddress = s.glob.kernelMinAddress := by
  refine Run.Steps.invariant
    (fun u => Settled whole Q F u ∧ u.glob.kernelMinAddress = s.glob.kernelMinAddress) h ?_
      ⟨hs, rfl⟩
  rintro u a v ⟨hu, hk⟩ hok hrun
  cases a with
  | call c =>
      obtain ⟨hv, hk'⟩ := hu.call hO hQ hnew hbr (hk ▸ hmin) hok hrun
      exact ⟨hv, hk'.trans hk⟩
  | store mem =>
      obtain rfl := Option.some.inj hrun
      exact ⟨hu.store hok, hk⟩

end Runs

/-- A machine that has been set up but has no VMA yet. -/
theorem settled_empty (F : (hostEnv H O).toNodeHeap.Fresh) (heap : σ) {host : Host ω}
    (hp : host.vm.Paged) (hf : host.vm.Fresh) {glob : Globals} (hg : GlobOk glob) :
    Settled whole Q F (St.empty heap host glob) := by
  have hnone : (St.empty heap host glob).regions = [] := by simp [St.regions, St.nodes_empty]
  refine ⟨orderly_empty F heap host hg, fun r hr => ?_, fun _ =>
    ⟨backed_empty heap glob hp, hf, ?_⟩⟩
  · rw [hnone] at hr
    exact absurd hr List.not_mem_nil
  · rw [St.areas, hnone]
    exact List.Pairwise.nil

/-! ## Anonymous VMAs -/

/-- A VMA with the device and inode of anonymous memory has no descriptor. -/
def VmRegion.Marked (r : VmRegion) : Prop :=
  r.fileInfo.dev = nullFileInfo.dev → r.fileInfo.inode = nullFileInfo.inode →
    r.fileInfo.fd = noFd

theorem hostKeeps_marked (O : HostOs ω) : HostKeeps O VmRegion.Marked := by
  refine ⟨fun _ _ hk => hk, fun h r k hk hr hdev hino => ?_⟩
  exact hk.anonymous (hr (hk.dev.symm.trans hdev) (hk.inode.symm.trans hino))

/-- A mapping is not merged with VMAs on both of its sides at once, and a file mapping does
not look like anonymous memory. -/
def oneSidedMarked (A : Space σ (Host ω)) : Mapping → Prop
  | .fail _ => True
  | .map _ q => ¬ (q.MeetsFront A.regions ∧ q.MeetsBack A.regions) ∧ q.fresh.Marked

/-! ## One mapping -/

section Mapping

variable {A : Space σ (Host ω)} {q : Request} {kernelMinAddress : U64}

/-- The pages of a range are those of its addresses. -/
theorem mem_range_iff {addr end' v : U64} (ha : PageAligned addr) (he : PageAligned end')
    (hv : v.toNat < 2 ^ 39) :
    frameOf addr ≤ pageNumber v ∧ pageNumber v < frameOf end' ↔ addr ≤ v ∧ v < end' := by
  rw [PageAligned] at ha he
  rw [BitVec.le_def, BitVec.lt_def]
  show addr.toNat / 4096 ≤ v.toNat % 2 ^ 39 / 4096 ∧ v.toNat % 2 ^ 39 / 4096 < end'.toNat / 4096 ↔ _
  omega

/-- The VMA that covers the range of an anonymous request looks like anonymous memory. -/
theorem placed_null {E : Env σ (Host ω)} (hs : Sorted A.regions) (hlt : q.addr < q.end')
    (hfree : ∀ x ∈ A.areas, x.2.endAddr ≤ q.addr ∨ q.end' ≤ x.2.startAddr) {v : U64}
    (hv : q.addr ≤ v ∧ v < q.end') :
    ∃ k ∈ (A.place E q).regions, k.Covers v ∧ k.fileInfo.dev = q.fileInfo.dev ∧
      k.fileInfo.inode = q.fileInfo.inode := by
  obtain ⟨l₁, m, l₂, x, hpl⟩ := placedIn_place E hs hlt hfree
  refine ⟨x.2, by rw [Space.regions, hpl.new]; simp, (hpl.covers v).mpr (Or.inr hv), ?_⟩
  have hattrs : x.2.attrs.dev = q.attrs.dev ∧ x.2.attrs.inode = q.attrs.inode := by
    rcases hpl.source with ⟨heq, -⟩ | ⟨y, hy, heq⟩
    · rw [heq]
      exact ⟨rfl, rfl⟩
    · rw [heq, attrs_of_joins ((hpl.joined y).mp hy).2]
      exact ⟨rfl, rfl⟩
  exact hattrs

/-- A mapping that is not merged on both sides, as what it does to the VMAs. -/
theorem carries_map (hO : ∀ os, (O.dup os noFd).2 = noFd) (hmin : kernelMinAddress.toNat ≤ 2 ^ 39)
    (hso : Sound F A) (hedge : EdgesIn (UserEdge kernelMinAddress) A) (hav : 3 ≤ F.avail A.heap)
    (hb : InBounds kernelMinAddress q.addr q.length)
    (hone : ¬ (q.MeetsFront A.regions ∧ q.MeetsBack A.regions))
    (hx : Stocked True (A.regions, A.host))
    (hroom : (A.map (hostEnv H O) q).host.vm.pageCounter ≤ maxFrames) :
    (∀ r ∈ A.regions, r.fileInfo.fd = noFd → ∀ j, r.HasPage j →
      ¬ (frameOf q.addr ≤ j ∧ j < frameOf q.end') →
      ∃ k ∈ (A.map (hostEnv H O) q).regions, k.fileInfo.fd = noFd ∧ k.HasPage j ∧
        k.page (A.map (hostEnv H O) q).host.vm j = r.page A.host.vm j) ∧
    ∀ k ∈ (A.map (hostEnv H O) q).regions, k.fileInfo.fd = noFd → ∀ j, k.HasPage j →
      frameOf q.addr ≤ j ∧ j < frameOf q.end' →
      k.page (A.map (hostEnv H O) q).host.vm j = zeroPage := by
  obtain ⟨hso', hav'⟩ := hso.unmap q.addr q.end' (by omega)
  have haddr := hb.edges.1
  have hend := hb.edges.2
  have hfree := free_unmap hso q.addr q.end' (by omega)
  have hunmap : AreaSteps O False (fun _ => True)
      (fun j => frameOf q.addr ≤ j ∧ j < frameOf q.end') _ _ :=
    areaSteps_unmap hO hmin hso hedge (by omega) haddr hend fun j h1 h2 => ⟨h1, h2⟩
  have hplace : AreaStep O False (fun _ => True)
      (fun j => frameOf q.addr ≤ j ∧ j < frameOf q.end') _ _ :=
    areaStep_place (q := q) hmin hso' (hedge.unmap hso (by omega) haddr hend) (by omega) haddr hend
      hb.lt hfree (fun _ => trivial) fun ⟨r, hr, hj⟩ ⟨n, hn, hj'⟩ =>
        hone ⟨meetsFront_of_joinsPrev hso hav hb hr hj, meetsBack_of_joinsNext hso hav hb hn hj'⟩
  have hmid := hunmap.stocked hx (hplace.le_pageCounter.trans hroom) False.elim
  have hkeep := (hunmap.trans hplace.steps).carries hx hroom
  have hcar := hplace.carries hmid hroom
  refine ⟨hkeep, fun k hk hfd j hj hin => hcar.blank k hk hfd j hj fun r hr hrj => ?_⟩
  -- the range has been cleared
  obtain ⟨x, hxa, rfl⟩ := List.mem_map.mp hr
  have h1 := hrj.1
  have h2 := hrj.2
  rcases hfree x hxa with hle | hle
  · have hle' : x.2.last ≤ frameOf q.addr := frameOf_le_of_le hle
    omega
  · have hle' : frameOf q.end' ≤ x.2.first := frameOf_le_of_le hle
    omega

end Mapping

/-- What an anonymous mapping of a range leaves of memory: an anonymous page outside the
range reads as before, and a page of the range reads as zero. -/
structure KeepsContents (addr end' : U64) (s t : St σ (Host ω)) : Prop where
  keep : ∀ r ∈ s.regions, r.fileInfo.fd = noFd → ∀ v, r.Covers v → ¬ (addr ≤ v ∧ v < end') →
    ∃ b, s.host.vm.readByte v = some b ∧ t.host.vm.readByte v = some b
  zero : ∀ v, addr ≤ v → v < end' → t.host.vm.readByte v = some 0#8

/-- The address space after `mmap_region`. -/
theorem Linked.space_mmapRegion {fileInfo : Option VmFile} {addr length flags prot offset : U64}
    (h : Linked F s) (hav : 3 ≤ F.avail s.heap)
    (hb : InBounds s.glob.kernelMinAddress addr length)
    (hrun : (Call.mmapRegion fileInfo addr length flags prot offset).run (hostEnv H O) s = some t) :
    t.space = s.space.map (hostEnv H O) (mmapRequest fileInfo addr length flags prot offset) := by
  obtain ⟨t', p, hrun', -, -, -, hsp, -⟩ := h.mmapRegion (E := hostEnv H O)
    (q := mmapRequest fileInfo addr length flags prot offset) hav hb
  obtain ⟨y, hy, rfl⟩ := Option.map_eq_some_iff.mp hrun
  have heq : (mmapRequest fileInfo addr length flags prot offset).run (hostEnv H O) s = some y := hy
  rw [hrun'] at heq
  rw [← Option.some.inj heq]
  exact hsp

/-- **One anonymous mapping**, from a state between two accesses. -/
theorem Settled.keepsContents {addr length flags prot offset : U64}
    (hO : ∀ os, (O.dup os noFd).2 = noFd) (hmin : s.glob.kernelMinAddress.toNat ≤ 2 ^ 39)
    (hs : Settled True VmRegion.Marked F s)
    (hc : CallOk (hostEnv H O) F oneSidedMarked s
      (.mmapRegion none addr length flags prot offset))
    (hrun : (Call.mmapRegion none addr length flags prot offset).run (hostEnv H O) s = some t)
    (hroom : t.host.vm.pageCounter ≤ maxFrames) : KeepsContents addr (addr + length) s t := by
  have hav : 3 ≤ F.avail s.space.heap := hc.1
  have hb := hc.2.1
  have hsp := hs.orderly.linked.space_mmapRegion hav hb hrun
  have hone := hc.2.2.1
  have hset := (hs.call hO (hostKeeps_marked O) (fun _ _ _ hok => hok.2)
    (fun _ _ _ _ hok => hok.1) hmin hc hrun).1
  generalize hq : mmapRequest none addr length flags prot offset = q at hsp hone
  have hrange : q.addr = addr ∧ q.end' = addr + length := by rw [← hq]; exact ⟨rfl, rfl⟩
  have hbq : InBounds s.glob.kernelMinAddress q.addr q.length := by rw [← hq]; exact hb
  have hso := hs.orderly.linked.sound
  have hregions : t.regions = (s.space.map (hostEnv H O) q).regions := by
    rw [← St.space_regions, hsp]
  have hhost : t.host = (s.space.map (hostEnv H O) q).host := congrArg Space.host hsp
  have hsteps : AreaSteps O True (fun _ => True) (fun _ => True) _ _ :=
    areaSteps_map hO hmin hso hs.orderly.edges hav hbq (fun _ => trivial) (fun _ _ => trivial)
      fun _ _ _ => trivial
  have hle : s.host.vm.pageCounter ≤ maxFrames :=
    hsteps.le_pageCounter.trans (by rw [← hhost]; exact hroom)
  have hstock₀ : Stocked True (s.regions, s.host) := hs.stocked hle
  have hstock : Stocked True (t.regions, t.host) := hset.stocked hroom
  obtain ⟨hkeep, hblank⟩ := carries_map hO hmin hso hs.orderly.edges hav hbq hone
    (by rw [St.space_regions]; exact hstock₀) (by rw [← hhost]; exact hroom)
  rw [← hregions, ← hhost, St.space_regions] at hkeep
  rw [← hregions, ← hhost] at hblank
  -- the pages of the range, as addresses
  have hin : ∀ {v : U64}, v.toNat < 2 ^ 39 →
      (frameOf q.addr ≤ pageNumber v ∧ pageNumber v < frameOf q.end' ↔
        addr ≤ v ∧ v < addr + length) := by
    intro v hv
    rw [← hrange.2, ← hrange.1]
    exact mem_range_iff hbq.addr_align hbq.end_align hv
  refine ⟨fun r hr hfd v hv hout => ?_, fun v h1 h2 => ?_⟩
  · have hheld := hstock₀.held r hr
    have hj := hheld.inTables.hasPage hv
    obtain ⟨k, hk, -, hkj, hpage⟩ := hkeep r hr hfd _ hj
      fun hc => hout ((hin (hheld.inTables.lt_of_covers hv)).mp hc)
    refine ⟨_, hheld.readByte hstock₀.paged hle hj,
      ((hstock.held k hk).readByte hstock.paged hroom hkj).trans ?_⟩
    exact congrArg (fun page => some (byteOf page v)) hpage
  · have hso' := (hso.unmap (E := hostEnv H O) q.addr q.end' (by omega)).1
    obtain ⟨k, hk, hkv, hdev, hino⟩ := placed_null (E := hostEnv H O) hso'.sorted hbq.lt
      (free_unmap hso q.addr q.end' (by omega)) (v := v)
      (by rw [hrange.1, hrange.2]; exact ⟨h1, h2⟩)
    have hkt : k ∈ t.regions := by rw [hregions]; exact hk
    have hfd : k.fileInfo.fd = noFd := by
      refine hset.has k hkt ?_ ?_
      · rw [hdev, ← hq]
        rfl
      · rw [hino, ← hq]
        rfl
    have hheld := hstock.held k hkt
    have hj := hheld.inTables.hasPage hkv
    have hzero := hblank k hkt hfd _ hj ((hin (hheld.inTables.lt_of_covers hkv)).mpr ⟨h1, h2⟩)
    refine (hheld.readByte hstock.paged hroom hj).trans ?_
    rw [hzero, byteOf_zeroPage]

/-- **Anonymous memory is neither lost nor leaked** by an anonymous mapping, from every state
that a run of calls and stores reaches in which no mapping is merged with VMAs on both of
its sides. -/
theorem keepsContents_of_runs (H : NodeHeap σ) (O : HostOs ω)
    (hO : ∀ os, (O.dup os noFd).2 = noFd) (F : (hostEnv H O).toNodeHeap.Fresh) (heap : σ)
    (host : Host ω) (hp : host.vm.Paged) (hf : host.vm.Fresh) (glob : Globals) (hg : GlobOk glob)
    (hmin : glob.kernelMinAddress.toNat ≤ 2 ^ 39) (as : List Access) (s : St σ (Host ω))
    (h : AccessRuns (hostEnv H O) F oneSidedMarked (St.empty heap host glob) as s)
    (addr length flags prot offset : U64) (t : St σ (Host ω))
    (hc : CallOk (hostEnv H O) F oneSidedMarked s (.mmapRegion none addr length flags prot offset))
    (hrun : (Call.mmapRegion none addr length flags prot offset).run (hostEnv H O) s = some t)
    (hroom : t.host.vm.pageCounter ≤ physicalHeapPages) :
    KeepsContents addr (addr + length) s t := by
  obtain ⟨hs, hk⟩ := h.settled hO (hostKeeps_marked O) (fun _ _ _ hok => hok.2)
    (fun _ _ _ _ hok => hok.1) hmin (settled_empty F heap hp hf hg)
  exact hs.keepsContents hO (hk ▸ hmin) hc hrun (hroom.trans physicalHeapPages_le_maxFrames)

/-- A run of calls is a run of accesses. -/
theorem CallRuns.accessRuns {E : Env σ (Host ω)} {F : E.toNodeHeap.Fresh} {cs : List Call}
    (h : CallRuns E F ok s cs t) : AccessRuns E F ok s (cs.map .call) t := by
  induction h with
  | nil s => exact .nil s
  | cons hok hstep _ ih => exact .cons hok hstep ih

theorem fresh_bareHost : bareHost.vm.Fresh := by
  have hf := initial_blankVm.built.fresh
  unfold bareHost
  generalize buildPageTables blankVm = vm at hf ⊢
  exact hf

/-- The test for the condition on the small machine. -/
def oneSidedTest (s : St (Nat × List Ptr) (Host Unit)) (q : Request) : Bool :=
  decide ¬ (q.MeetsFront s.regions ∧ q.MeetsBack s.regions) && decide (q.fileInfo.fd = noFd)

theorem oneSidedMarked_of_test (s : St (Nat × List Ptr) (Host Unit)) (q : Request)
    (h : oneSidedTest s q = true) : oneSidedMarked s.space (.map noFd q) := by
  simp only [oneSidedTest, Bool.and_eq_true, decide_eq_true_eq, ← St.space_regions] at h
  exact ⟨h.1, fun _ _ => h.2⟩

/-- A page behind another: the merged VMA has moved, and reads as before. -/
theorem keepsContents_of_runs_behind :
    ∃ s t, AccessRuns machineEnv bumpFresh oneSidedMarked machine
        [.call (anonymousMap 0x1000#64 0x1000#64)] s ∧
      (anonymousMap 0x2000#64 0x1000#64).run machineEnv s = some t ∧
      s.regions.length = 1 ∧ t.regions.length = 1 ∧
      KeepsContents 0x2000#64 (0x2000#64 + 0x1000#64) s t := by
  have hrun : (machineRun oneSidedTest [anonymousMap 0x1000#64 0x1000#64]).bind (fun s =>
      if machineTest oneSidedTest s (anonymousMap 0x2000#64 0x1000#64) then
        ((anonymousMap 0x2000#64 0x1000#64).run machineEnv s).map (fun t =>
          (s.regions.length, t.regions.length,
            decide (t.host.vm.pageCounter ≤ physicalHeapPages)))
      else none) = some (1, 1, true) := by decide +kernel
  obtain ⟨s, hs, hrun⟩ := Option.bind_eq_some_iff.mp hrun
  split at hrun
  · rename_i htest
    obtain ⟨t, ht, hfacts⟩ := Option.map_eq_some_iff.mp hrun
    simp only [Prod.mk.injEq] at hfacts
    have hruns := (show CallRuns machineEnv bumpFresh oneSidedMarked machine _ s from
      Run.Steps.of_exec (callOk_of_machineTest _ oneSidedMarked_of_test) _ hs).accessRuns
    refine ⟨s, t, hruns, ht, hfacts.1, hfacts.2.1, ?_⟩
    exact keepsContents_of_runs bumpHeap bareOs (fun _ => rfl) bumpFresh (0, []) bareHost
      paged_bareHost fresh_bareHost smallGlobals globOk_smallGlobals (by decide) _ s hruns
      0x2000#64 0x1000#64 0#64 (vmaRead ||| vmaWrite) 0#64 t
      (callOk_of_machineTest _ oneSidedMarked_of_test _ _ htest) ht
      (of_decide_eq_true hfacts.2.2)
  · exact absurd hrun (by simp)

/-- A page between two others: the last one cannot be read any more. -/
theorem bridge_loses_contents :
    ∃ s t, AccessRuns machineEnv bumpFresh (fun _ _ => True) machine
        [.call (anonymousMap 0x1000#64 0x1000#64), .call (anonymousMap 0x3000#64 0x1000#64)] s ∧
      CallOk machineEnv bumpFresh (fun _ _ => True) s (anonymousMap 0x2000#64 0x1000#64) ∧
      (anonymousMap 0x2000#64 0x1000#64).run machineEnv s = some t ∧
      t.host.vm.pageCounter ≤ physicalHeapPages ∧ t.host.stopped = false ∧
      ¬ KeepsContents 0x2000#64 (0x2000#64 + 0x1000#64) s t := by
  have hrun : (machineRun (fun _ _ => true) [anonymousMap 0x1000#64 0x1000#64,
      anonymousMap 0x3000#64 0x1000#64]).bind (fun s =>
      if machineTest (fun _ _ => true) s (anonymousMap 0x2000#64 0x1000#64) then
        ((anonymousMap 0x2000#64 0x1000#64).run machineEnv s).map (fun t =>
          (s.regions.map (fun r => (r.startAddr, r.endAddr, r.fileInfo.fd)),
            decide (t.host.vm.pageCounter ≤ physicalHeapPages), t.host.stopped,
            t.host.vm.readByte 0x3000#64))
      else none) =
      some ([(0x1000#64, 0x2000#64, noFd), (0x3000#64, 0x4000#64, noFd)], true, false, none) := by
    decide +kernel
  obtain ⟨s, hs, hrun⟩ := Option.bind_eq_some_iff.mp hrun
  split at hrun
  · rename_i htest
    obtain ⟨t, ht, hfacts⟩ := Option.map_eq_some_iff.mp hrun
    simp only [Prod.mk.injEq] at hfacts
    obtain ⟨hregions, hroom, hstop, hread⟩ := hfacts
    have hruns := (show CallRuns machineEnv bumpFresh (fun _ _ => True) machine _ s from
      Run.Steps.of_exec (callOk_of_machineTest _ fun _ _ _ => trivial) _ hs).accessRuns
    have hok := callOk_of_machineTest (fun _ _ => True) (fun _ _ _ => trivial) s _ htest
    refine ⟨s, t, hruns, hok, ht, of_decide_eq_true hroom, hstop, fun hk => ?_⟩
    have hmem : (0x3000#64, 0x4000#64, noFd) ∈
        s.regions.map (fun r => (r.startAddr, r.endAddr, r.fileInfo.fd)) := by
      rw [hregions]
      simp
    obtain ⟨r, hr, heq⟩ := List.mem_map.mp hmem
    simp only [Prod.mk.injEq] at heq
    obtain ⟨b, -, hb⟩ := hk.keep r hr heq.2.2 0x3000#64
      (by rw [VmRegion.Covers, heq.1, heq.2.1]; decide) (by decide)
    rw [hread] at hb
    exact absurd hb (by simp)
  · exact absurd hrun (by simp)

end BufferVM
