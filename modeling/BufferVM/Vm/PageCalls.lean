/-
  Vm/PageCalls.lean --- what the calls of `vm/paging.c` do to the page tables.

  Every call comes to a list of page updates: `map_physical_pages` maps a range of
  physical pages, or one allocated page after another, and creates the tables it meets.
  `build_page_tables` leaves the empty tree, and a write to a frame that holds no table
  leaves every tree alone.
-/
import BufferVM.Vm.PageTables

set_option autoImplicit false

namespace BufferVM

/-! ## Writes outside the tables -/

/-- The page tables of two machines are the same. -/
structure Vm.SameTables (vm vm' : Vm) : Prop where
  paged : vm'.Paged
  pml4Addr : vm'.pml4Addr = vm.pml4Addr
  tableAt : ∀ p : List U64, p.length < 3 → vm'.tableAt p = vm.tableAt p
  pte : ∀ v, vm'.pte v = vm.pte v
  isTable : ∀ f, vm'.IsTable f ↔ vm.IsTable f

/-- A machine with the same tables, and with nothing but blank pages to hand out. -/
theorem Vm.Paged.sameTables {vm vm' : Vm} (h : vm.Paged) (hpml4 : vm'.pml4Addr = vm.pml4Addr)
    (hle : vm.pageCounter ≤ vm'.pageCounter) (hmem : ∀ f, vm.IsTable f → vm'.mem f = vm.mem f)
    (hnew : ∀ f, vm'.pageCounter ≤ f → vm'.mem f = vm.mem f) : vm.SameTables vm' := by
  have hroot : vm'.pml4 = vm.pml4 := congrArg frameOf hpml4
  have hpdpt : vm'.pdpt = vm.pdpt := by
    rw [Vm.pdpt, Vm.pdpt, hroot, hmem _ (Or.inl rfl)]
  have hsame : ∀ f, Radix.IsTable pageFormat 3 vm.pdpt vm.mem f → vm'.mem f = vm.mem f :=
    fun f hf => hmem f (Or.inr hf)
  have hwalk : ∀ p : List U64, p.length < 3 → vm'.tableAt p = vm.tableAt p := by
    intro p hp
    rw [Vm.tableAt, hpdpt]
    exact Radix.walk_congr hsame p hp
  have hiff : ∀ f, Radix.IsTable pageFormat 3 vm'.pdpt vm'.mem f ↔
      Radix.IsTable pageFormat 3 vm.pdpt vm.mem f := by
    intro f
    constructor
    · rintro ⟨q, hq, hw⟩
      exact ⟨q, hq, (hwalk q hq).symm.trans hw⟩
    · rintro ⟨q, hq, hw⟩
      exact ⟨q, hq, (hwalk q hq).trans hw⟩
  refine ⟨⟨fun slot hslot => ?_, ?_, ?_, ?_⟩, hpml4, hwalk, fun v => ?_, fun f => ?_⟩
  · rw [hroot, hmem _ (Or.inl rfl), hpdpt]
    exact h.root slot hslot
  · rw [hpdpt]
    refine h.tables.congr hsame (fun f hf => hle.trans hf) fun f i hf => ?_
    rw [hnew f hf]
    exact h.tables.blank f i (hle.trans hf)
  · rw [hroot, hiff]
    exact h.apart
  · rw [hroot]
    exact Nat.lt_of_lt_of_le h.below hle
  · rw [Vm.pte, hpdpt]
    exact Radix.entry_congr hsame _ (by simp) _
  · rw [Vm.IsTable, Vm.IsTable, hroot, hiff]

/-- A call that only hands out pages. -/
theorem Vm.Paged.updates_alloc {vm : Vm} (h : vm.Paged) (n : Nat) :
    vm.Updates { vm with pageCounter := vm.pageCounter + n } n ∅ [] := by
  have hsame : vm.SameTables { vm with pageCounter := vm.pageCounter + n } :=
    h.sameTables rfl (Nat.le_add_right _ _) (fun _ _ => rfl) (fun _ _ => rfl)
  refine ⟨hsame.paged, rfl, fun p f _ hw => hw, fun p _ => ?_, fun f _ hf => hf, ?_, fun _ => rfl,
    fun _ _ => rfl⟩
  · show vm.tableAt p = none ↔ _
    simp
  · simp [Vm.missing]

theorem allocatePages_of_ne {numPages : U64} (hn : numPages ≠ 0#64) (vm : Vm) :
    allocatePages numPages vm =
      (frameAddr vm.pageCounter, { vm with pageCounter := vm.pageCounter + numPages.toNat }) := by
  rw [allocatePages, if_neg hn]

/-! ## Lists of updates -/

/-- The paths of the tables that some pages need. -/
def tablesFor : List U64 → Finset (List U64)
  | [] => ∅
  | v :: vs => tablePaths v ∪ tablesFor vs

theorem tablesFor_append (vs ws : List U64) :
    tablesFor (vs ++ ws) = tablesFor vs ∪ tablesFor ws := by
  induction vs with
  | nil => simp [tablesFor]
  | cons v vs ih => simp [tablesFor, ih, Finset.union_assoc]

theorem length_of_mem_tablesFor {vs : List U64} {p : List U64} (hp : p ∈ tablesFor vs) :
    p.length < 3 := by
  induction vs with
  | nil => simp [tablesFor] at hp
  | cons v vs ih =>
      rcases Finset.mem_union.mp hp with hp | hp
      · exact length_of_mem_tablePaths hp
      · exact ih hp

/-- The paths of the tables that some updates need. -/
def pathsOf (us : List PageUpdate) : Finset (List U64) := tablesFor (us.map Prod.fst)

/-- A call has handed out `k` pages and has made the updates `us`, with the tables they
need. -/
def Vm.Performs (vm vm' : Vm) (k : Nat) (us : List PageUpdate) : Prop :=
  vm.Updates vm' k (pathsOf us) us

namespace Vm.Performs

variable {vm vm₁ vm₂ : Vm} {us ws : List PageUpdate} {k l : Nat}

theorem refl (h : vm.Paged) : vm.Performs vm 0 [] := Vm.Updates.refl h

theorem trans (h₁ : vm.Performs vm₁ k us) (h₂ : vm₁.Performs vm₂ l ws) :
    vm.Performs vm₂ (k + l) (us ++ ws) := by
  rw [Vm.Performs, pathsOf, List.map_append, tablesFor_append]
  exact Vm.Updates.trans h₁ h₂ fun p hp => length_of_mem_tablesFor hp

theorem single {v : U64} {f : Option U64 → Option U64}
    (h : vm.Updates vm₁ 0 (tablePaths v) [(v, f)]) : vm.Performs vm₁ 0 [(v, f)] := by
  have hset : pathsOf [(v, f)] = tablePaths v := Finset.union_empty _
  rw [Vm.Performs, hset]
  exact h

end Vm.Performs

/-! ## The loops of `map_physical_pages` -/

/-- The updates that map a list of physical pages, one after another. -/
def pageUpdates (pageProt : U64) (noOverwrite : Bool) : List U64 → U64 → List PageUpdate
  | [], _ => []
  | p :: ps, virt =>
      (virt, mapUpdate p pageProt noOverwrite) ::
        pageUpdates pageProt noOverwrite ps (virt + pageSize)

/-- A range of physical pages. -/
def rangePages : Nat → U64 → List U64
  | 0, _ => []
  | n + 1, phys => phys :: rangePages n (phys + pageSize)

theorem length_rangePages (n : Nat) (phys : U64) : (rangePages n phys).length = n := by
  induction n generalizing phys with
  | zero => rfl
  | succ n ih => rw [rangePages, List.length_cons, ih]

/-- The pages that are mapped are those of a range. -/
theorem map_fst_pageUpdates (pageProt : U64) (noOverwrite : Bool) (ps : List U64) (virt : U64) :
    (pageUpdates pageProt noOverwrite ps virt).map Prod.fst = rangePages ps.length virt := by
  induction ps generalizing virt with
  | nil => rfl
  | cons p ps ih => rw [pageUpdates, List.map_cons, ih, List.length_cons, rangePages]

/-- A page address. -/
def PageAligned (a : U64) : Prop := a.toNat % 4096 = 0

instance (a : U64) : Decidable (PageAligned a) := inferInstanceAs (Decidable (_ = _))

theorem PageAligned.add {a : U64} (h : PageAligned a) : PageAligned (a + pageSize) := by
  rw [PageAligned] at h ⊢
  have hs : pageSize.toNat = 4096 := by decide
  rw [BitVec.toNat_add, hs]
  omega

theorem PageAligned.ne_pageCreate {a : U64} (h : PageAligned a) : a ≠ pageCreate := by
  rintro rfl
  exact absurd h (by decide)

theorem pageAligned_frameAddr (k : Nat) : PageAligned (frameAddr k) := by
  rw [PageAligned, frameAddr, BitVec.toNat_ofNat]
  omega

theorem le_pageCounter_mapPhysicalPage (v phys flags : U64) (noOverwrite : Bool) (vm : Vm) :
    vm.pageCounter ≤ (mapPhysicalPage v phys flags noOverwrite vm).pageCounter := by
  refine (le_pageCounter_lastTable (getVirtAddrInfo v) vm).trans ?_
  unfold mapPhysicalPage
  simp only
  split
  · exact le_pageCounter_mapPageEntry _ _ _ _ _
  · exact le_rfl

theorem le_pageCounter_mapRange (pageProt : U64) (noOverwrite : Bool) (n : Nat) (virt phys : U64)
    (vm : Vm) : vm.pageCounter ≤ (mapRange pageProt noOverwrite n virt phys vm).pageCounter := by
  induction n generalizing virt phys vm with
  | zero => exact le_rfl
  | succ n ih => exact (le_pageCounter_mapPhysicalPage _ _ _ _ _).trans (ih _ _ _)

theorem mapRange_spec {vm : Vm} (h : vm.Paged) (pageProt : U64) (noOverwrite : Bool) (n : Nat)
    (virt phys : U64) (hphys : PageAligned phys)
    (hb : (mapRange pageProt noOverwrite n virt phys vm).pageCounter ≤ maxFrames) :
    vm.Performs (mapRange pageProt noOverwrite n virt phys vm) 0
      (pageUpdates pageProt noOverwrite (rangePages n phys) virt) := by
  induction n generalizing virt phys vm with
  | zero => exact Vm.Performs.refl h
  | succ n ih =>
      have hfirst := Vm.Performs.single (mapPhysicalPage_spec h virt phys pageProt noOverwrite
        hphys.ne_pageCreate ((le_pageCounter_mapRange _ _ n _ _ _).trans hb))
      exact hfirst.trans (ih hfirst.paged _ _ hphys.add hb)

/-- The pages that `map_physical_pages` maps when it allocates each page on its own. -/
def eachPages (pageProt : U64) (noOverwrite : Bool) : Nat → U64 → Vm → List U64
  | 0, _, _ => []
  | n + 1, virt, vm =>
      (allocatePages 1#64 vm).1 ::
        eachPages pageProt noOverwrite n (virt + pageSize)
          (mapPhysicalPage virt (allocatePages 1#64 vm).1 pageProt noOverwrite
            (allocatePages 1#64 vm).2)

theorem length_eachPages (pageProt : U64) (noOverwrite : Bool) (n : Nat) (virt : U64) (vm : Vm) :
    (eachPages pageProt noOverwrite n virt vm).length = n := by
  induction n generalizing virt vm with
  | zero => rfl
  | succ n ih => rw [eachPages, List.length_cons, ih]

theorem mapEach_succ (pageProt : U64) (noOverwrite : Bool) (n : Nat) (virt phys : U64) (vm : Vm) :
    mapEach pageProt noOverwrite (n + 1) virt phys vm =
      mapEach pageProt noOverwrite n (virt + pageSize) (allocatePages 1#64 vm).1
        (mapPhysicalPage virt (allocatePages 1#64 vm).1 pageProt noOverwrite
          (allocatePages 1#64 vm).2) := by
  rw [mapEach]
  simp only
  rw [if_neg]
  exact frameAddr_ne_neg_one _

theorem le_pageCounter_mapEach (pageProt : U64) (noOverwrite : Bool) (n : Nat) (virt phys : U64)
    (vm : Vm) : vm.pageCounter ≤ (mapEach pageProt noOverwrite n virt phys vm).2.pageCounter := by
  induction n generalizing virt phys vm with
  | zero => exact le_rfl
  | succ n ih =>
      rw [mapEach_succ]
      refine le_trans ?_ (ih _ _ _)
      refine le_trans ?_ (le_pageCounter_mapPhysicalPage _ _ _ _ _)
      exact Nat.le_add_right _ _

theorem mapEach_spec {vm : Vm} (h : vm.Paged) (pageProt : U64) (noOverwrite : Bool) (n : Nat)
    (virt phys : U64)
    (hb : (mapEach pageProt noOverwrite n virt phys vm).2.pageCounter ≤ maxFrames) :
    vm.Performs (mapEach pageProt noOverwrite n virt phys vm).2 n
      (pageUpdates pageProt noOverwrite (eachPages pageProt noOverwrite n virt vm) virt) := by
  induction n generalizing virt phys vm with
  | zero => exact Vm.Performs.refl h
  | succ n ih =>
      rw [mapEach_succ] at hb ⊢
      have halloc : vm.Performs (allocatePages 1#64 vm).2 1 [] := h.updates_alloc 1
      have hpage := Vm.Performs.single (mapPhysicalPage_spec halloc.paged virt
        (allocatePages 1#64 vm).1 pageProt noOverwrite
        (pageAligned_frameAddr _).ne_pageCreate ((le_pageCounter_mapEach _ _ n _ _ _).trans hb))
      have hrest := ih hpage.paged _ _ hb
      have hall := (halloc.trans hpage).trans hrest
      rw [show 1 + 0 + n = n + 1 by omega] at hall
      exact hall

/-! ## `map_physical_pages` -/

/-- The number of pages that `map_physical_pages` hands out for data. -/
def dataPages (physicalPageAddr numPages : U64) : Nat :=
  if physicalPageAddr = -1#64 then numPages.toNat else 0

/-- The flag `MAP_NO_OVERWRITE`. -/
def keepsMapped (flags : U64) : Bool := decide (flags &&& mapNoOverwrite ≠ 0#64)

/-- The physical pages that `map_physical_pages` maps, in order: those given, the next
ones in a row, or one allocated page after another. -/
def mappedPages (virtualPageAddr physicalPageAddr pageProt numPages flags : U64) (vm : Vm) :
    List U64 :=
  if flags &&& mapContinuous ≠ 0#64 ∨ physicalPageAddr ≠ -1#64 then
    rangePages numPages.toNat
      (if physicalPageAddr = -1#64 then frameAddr vm.pageCounter else physicalPageAddr)
  else eachPages pageProt (keepsMapped flags) numPages.toNat virtualPageAddr vm

theorem length_mappedPages (virtualPageAddr physicalPageAddr pageProt numPages flags : U64)
    (vm : Vm) :
    (mappedPages virtualPageAddr physicalPageAddr pageProt numPages flags vm).length =
      numPages.toNat := by
  unfold mappedPages
  split
  · exact length_rangePages _ _
  · exact length_eachPages _ _ _ _ _

theorem mapPhysicalPages_spec {vm : Vm} (h : vm.Paged)
    {virtualPageAddr physicalPageAddr pageProt numPages flags : U64}
    (hphys : physicalPageAddr ≠ -1#64 → PageAligned physicalPageAddr)
    (hb : (mapPhysicalPages virtualPageAddr physicalPageAddr pageProt numPages flags
      vm).2.pageCounter ≤ maxFrames) :
    vm.Performs (mapPhysicalPages virtualPageAddr physicalPageAddr pageProt numPages flags vm).2
      (dataPages physicalPageAddr numPages)
      (pageUpdates pageProt (keepsMapped flags)
        (mappedPages virtualPageAddr physicalPageAddr pageProt numPages flags vm)
        virtualPageAddr) := by
  unfold mapPhysicalPages at hb ⊢
  unfold mappedPages dataPages keepsMapped
  simp only at hb ⊢
  by_cases hp : physicalPageAddr = -1#64
  · subst hp
    by_cases hcont : flags &&& mapContinuous = 0#64
    · have hc : ¬ (flags &&& mapContinuous ≠ 0#64 ∨ (-1#64 : U64) ≠ -1#64) := by simp [hcont]
      rw [if_neg hc] at hb ⊢
      rw [if_neg hc, if_pos rfl]
      exact mapEach_spec h _ _ _ _ _ hb
    · have hc : flags &&& mapContinuous ≠ 0#64 ∨ (-1#64 : U64) ≠ -1#64 := Or.inl hcont
      rw [if_pos hc, if_pos rfl] at hb ⊢
      rw [if_pos hc, if_pos rfl, if_pos rfl]
      by_cases hn : numPages = 0#64
      · subst hn
        exact Vm.Performs.refl h
      · rw [allocatePages_of_ne hn] at hb ⊢
        simp only [frameAddr_ne_neg_one, if_false] at hb ⊢
        have halloc : vm.Performs { vm with pageCounter := vm.pageCounter + numPages.toNat }
          numPages.toNat [] := h.updates_alloc numPages.toNat
        exact halloc.trans (mapRange_spec halloc.paged _ _ _ _ _ (pageAligned_frameAddr _) hb)
  · have hc : flags &&& mapContinuous ≠ 0#64 ∨ physicalPageAddr ≠ -1#64 := Or.inr hp
    rw [if_pos hc, if_neg hp] at hb ⊢
    rw [if_pos hc, if_neg hp, if_neg hp]
    simp only [hp, if_false] at hb ⊢
    exact mapRange_spec h _ _ _ _ _ (hphys hp) hb

/-! ## `build_page_tables` -/

/-- The pages that have not been handed out are zero, as the host's fresh mapping is. -/
def Vm.Fresh (vm : Vm) : Prop := ∀ f i, vm.pageCounter ≤ f → vm.mem f i = 0#64

/-- The entry that `build_page_tables` writes into the first table. -/
def rootEntry (pdpt : U64) : U64 := pdpt ||| pde64Present ||| pde64User ||| pde64Writeable

theorem foldl_setEntry (pml4 e : U64) (vm : Vm) (n : Nat) :
    (List.range n).foldl (fun vm i => vm.setEntry pml4 (BitVec.ofNat 64 i) e) vm =
      { vm with mem := fun f j =>
          if f = frameOf pml4 ∧ ∃ i < n, j = BitVec.ofNat 64 i then e else vm.mem f j } := by
  induction n with
  | zero => simp
  | succ n ih =>
      rw [List.range_succ, List.foldl_append, ih]
      simp only [List.foldl_cons, List.foldl_nil, Vm.setEntry, Vm.mk.injEq, and_true]
      funext f j
      simp only [Radix.write]
      by_cases hf : f = frameOf pml4
      · by_cases hj : j = BitVec.ofNat 64 n
        · rw [if_pos ⟨hf, hj⟩, if_pos ⟨hf, n, Nat.lt_succ_self n, hj⟩]
        · rw [if_neg fun hc => hj hc.2]
          refine if_congr (and_congr_right fun _ => ⟨?_, ?_⟩) rfl rfl
          · rintro ⟨i, hi, rfl⟩
            exact ⟨i, by omega, rfl⟩
          · rintro ⟨i, hi, rfl⟩
            refine ⟨i, ?_, rfl⟩
            rcases Nat.lt_succ_iff_lt_or_eq.mp hi with hlt | rfl
            · exact hlt
            · exact absurd rfl hj
      · simp [hf]

/-- The machine after `build_page_tables`. -/
theorem buildPageTables_eq (vm : Vm) :
    buildPageTables vm =
      { mem := fun f j =>
          if f = frameOf (frameAddr vm.pageCounter) ∧ ∃ i < 512, j = BitVec.ofNat 64 i then
            rootEntry (frameAddr (vm.pageCounter + 1)) else vm.mem f j
        pageCounter := vm.pageCounter + 2
        pml4Addr := frameAddr vm.pageCounter } := by
  unfold buildPageTables
  simp only [allocatePages_of_ne (show (1#64 : U64) ≠ 0#64 by decide)]
  rw [foldl_setEntry]
  rfl

theorem pageFormat_next_rootEntry {k : Nat} (h : k < 2 ^ 44) :
    pageFormat.next (rootEntry (frameAddr k)) = some k := by
  have hswap : rootEntry (frameAddr k) = pde64Present ||| tableFlags ||| frameAddr k := by
    rw [rootEntry, tableFlags]
    ac_rfl
  rw [hswap]
  exact pageFormat_next_table h

/-- The empty tree. -/
structure Vm.Built (vm : Vm) : Prop where
  paged : vm.Paged
  fresh : vm.Fresh
  tableAt : ∀ p : List U64, p ≠ [] → vm.tableAt p = none
  pte : ∀ v, vm.pte v = none

/-- All entries of the first table lead to the second, which is blank like everything behind
it. -/
structure Vm.Bare (vm : Vm) : Prop where
  root : ∀ slot : U64, slot.toNat < 512 →
    pageFormat.next (vm.mem vm.pml4 slot) = some vm.pdpt
  blank : ∀ f i, vm.pdpt ≤ f → vm.mem f i = 0#64
  lt : vm.pml4 < vm.pdpt
  top : vm.pageCounter = vm.pdpt + 1

theorem Vm.Bare.tableAt {vm : Vm} (h : vm.Bare) {p : List U64} (hp : p ≠ []) :
    vm.tableAt p = none := by
  obtain ⟨i, q, rfl⟩ := List.exists_cons_of_ne_nil hp
  have hcell : pageFormat.next (vm.mem vm.pdpt i) = none := by
    rw [h.blank _ _ le_rfl]
    rfl
  rw [Vm.tableAt, Radix.walk, hcell]
  rfl

/-- The second table is the only one below the first. -/
theorem Vm.Bare.walk {vm : Vm} (h : vm.Bare) {p : List U64} {f : Nat}
    (hw : Radix.walk pageFormat vm.mem vm.pdpt p = some f) : p = [] ∧ f = vm.pdpt := by
  by_cases hp : p = []
  · subst hp
    exact ⟨rfl, (Option.some.inj hw).symm⟩
  · have hcontra := h.tableAt hp
    rw [Vm.tableAt, hw] at hcontra
    exact absurd hcontra (by simp)

theorem Vm.Bare.entry {vm : Vm} (h : vm.Bare) (p : List U64) (i : U64) :
    Radix.entry pageFormat vm.mem vm.pdpt p i = none := by
  rw [Radix.entry]
  cases hw : Radix.walk pageFormat vm.mem vm.pdpt p with
  | none => rfl
  | some f =>
      rw [(h.walk hw).2]
      show pageFormat.read (vm.mem vm.pdpt i) = none
      rw [h.blank _ _ le_rfl]
      rfl

theorem Vm.Bare.paged {vm : Vm} (h : vm.Bare) : vm.Paged := by
  have htop := h.top
  have hlt := h.lt
  refine ⟨fun slot hslot => h.root slot hslot, ⟨fun p q f _ _ hp hq => ?_, fun p f _ hp hf => ?_,
    fun f i hf => ?_, fun p i e _ he => ?_⟩, ?_, ?_⟩
  · exact (h.walk hp).1.trans (h.walk hq).1.symm
  · have hf' := (h.walk hp).2
    omega
  · rw [h.blank f i (by omega)]
    rfl
  · rw [h.entry] at he
    exact absurd he (by simp)
  · rintro ⟨p, -, hp⟩
    have hp' := (h.walk hp).2
    omega
  · omega

theorem Vm.Bare.built {vm : Vm} (h : vm.Bare) : vm.Built :=
  ⟨h.paged, fun f i hf => h.blank f i (by have := h.top; omega), fun _ hp => h.tableAt hp,
    fun _ => h.entry _ _⟩

theorem bare_buildPageTables {vm : Vm} (hfresh : vm.Fresh)
    (hb : (buildPageTables vm).pageCounter ≤ maxFrames) : (buildPageTables vm).Bare := by
  rw [buildPageTables_eq] at hb ⊢
  have hc : vm.pageCounter + 2 ≤ 2 ^ 40 := hb
  have hpml4 : frameOf (frameAddr vm.pageCounter) = vm.pageCounter := frameOf_frameAddr (by omega)
  rw [hpml4]
  generalize hvm' : Vm.mk (fun f j => if f = vm.pageCounter ∧ ∃ i < 512, j = BitVec.ofNat 64 i then
    rootEntry (frameAddr (vm.pageCounter + 1)) else vm.mem f j) (vm.pageCounter + 2)
    (frameAddr vm.pageCounter) = vm'
  have hfirst : vm'.pml4 = vm.pageCounter := by
    rw [← hvm']
    exact hpml4
  have hcount : vm'.pageCounter = vm.pageCounter + 2 := by rw [← hvm']
  have hroot : ∀ slot : U64, slot.toNat < 512 →
      pageFormat.next (vm'.mem vm'.pml4 slot) = some (vm.pageCounter + 1) := by
    intro slot hslot
    have hcell : vm'.mem vm'.pml4 slot = rootEntry (frameAddr (vm.pageCounter + 1)) := by
      rw [hfirst, ← hvm']
      exact if_pos ⟨rfl, slot.toNat, hslot, by simp⟩
    rw [hcell]
    exact pageFormat_next_rootEntry (by omega)
  have hpdpt : vm'.pdpt = vm.pageCounter + 1 := by
    obtain ⟨e, he, hf⟩ := Option.map_eq_some_iff.mp (hroot 0#64 (by decide))
    have hcell : vm'.mem vm'.pml4 0#64 = e := by
      unfold Radix.Format.read at he
      split at he
      · exact Option.some.inj he
      · exact absurd he (by simp)
    rw [Vm.pdpt, hcell]
    exact hf
  refine ⟨fun slot hslot => hpdpt ▸ hroot slot hslot, fun f i hf => ?_, by omega, by omega⟩
  -- every frame but the first table is blank
  rw [← hvm']
  show (if _ then _ else _) = _
  rw [if_neg fun hcase => by omega]
  exact hfresh f i (by omega)

theorem built_buildPageTables {vm : Vm} (hfresh : vm.Fresh)
    (hb : (buildPageTables vm).pageCounter ≤ maxFrames) : (buildPageTables vm).Built :=
  (bare_buildPageTables hfresh hb).built

end BufferVM
