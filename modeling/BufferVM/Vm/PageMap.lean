/-
  Vm/PageMap.lean --- the page tables refine a finite map.

  The map takes a page number of the 39-bit address space to a physical page.  A call of
  `map_physical_pages` installs the pages it maps in order, `unmap_physical_page` removes
  one, and along every run of calls `get_phys_addr` reads the map; so does the processor,
  whichever entry of the first table it goes through.
-/
import BufferVM.Lib.Run
import BufferVM.Vm.PageCalls
import Mathlib.Logic.Function.Basic

set_option autoImplicit false

namespace BufferVM

/-! ## The map -/

/-- A map from page numbers to physical pages. -/
abbrev PageMap : Type := Nat → Option U64

/-- Install one page. -/
def PageMap.install (noOverwrite : Bool) (v p : U64) (M : PageMap) : PageMap :=
  if noOverwrite = true ∧ M (pageNumber v) ≠ none then M
  else Function.update M (pageNumber v) (some p)

/-- Install pages one after another. -/
def PageMap.installAll (noOverwrite : Bool) : List U64 → U64 → PageMap → PageMap
  | [], _, M => M
  | p :: ps, v, M => installAll noOverwrite ps (v + pageSize) (M.install noOverwrite v p)

/-- A call on the page tables. -/
inductive PagingCall where
  | map (virt phys prot numPages flags : U64)
  | unmap (virt : U64)

/-- The machine after a call. -/
def PagingCall.run (vm : Vm) : PagingCall → Vm
  | .map virt phys prot numPages flags => (mapPhysicalPages virt phys prot numPages flags vm).2
  | .unmap virt => unmapPhysicalPage virt vm

/-- The map after a call. -/
def PagingCall.apply (vm : Vm) (M : PageMap) : PagingCall → PageMap
  | .map virt phys prot numPages flags =>
      M.installAll (keepsMapped flags) (mappedPages virt phys prot numPages flags vm) virt
  | .unmap virt => Function.update M (pageNumber virt) none

/-- The bits of an entry that are flags: 0 to 11, and 63. -/
def flagBits : U64 := 0x8000000000000FFF#64

/-- A call with flag bits only, on physical pages that the machine can address, that does
not exhaust physical memory. -/
structure PagingCall.Ok (vm : Vm) (c : PagingCall) : Prop where
  room : (c.run vm).pageCounter ≤ physicalHeapPages
  flags : ∀ virt phys prot numPages flags, c = .map virt phys prot numPages flags →
    prot &&& ~~~flagBits = 0#64
  pages : ∀ virt phys prot numPages flags, c = .map virt phys prot numPages flags →
    phys ≠ -1#64 → PageAligned phys ∧ phys.toNat + 4096 * numPages.toNat ≤ 2 ^ 52

/-- A step of the machine beside a step of the map. -/
def pagingStep (x : Vm × PageMap) (c : PagingCall) : Option (Vm × PageMap) :=
  some (c.run x.1, c.apply x.1 x.2)

/-! ## The refinement -/

/-- A physical page that an entry can hold. -/
structure PhysPage (p : U64) : Prop where
  align : PageAligned p
  lt : p.toNat < 2 ^ 52

theorem PhysPage.and_entryMask {p : U64} (h : PhysPage p) : p &&& entryMask = p := by
  apply BitVec.eq_of_toNat_eq
  have h1 := h.align
  have h2 := h.lt
  rw [PageAligned] at h1
  rw [toNat_and_entryMask]
  omega

/-- The entry of a page that is mapped with flag bits only holds its address. -/
theorem leafEntry_and_entryMask {prot p : U64} (hprot : prot &&& ~~~flagBits = 0#64)
    (hp : PhysPage p) : leafEntry prot p &&& entryMask = p := by
  have hmask : entryMask = ~~~flagBits &&& entryMask := by decide
  have hflags : prot &&& entryMask = 0#64 := by
    rw [hmask, ← BitVec.and_assoc, hprot]
    rfl
  have hp1 : pde64Present &&& entryMask = 0#64 := by decide
  have hw : pde64Writeable &&& entryMask = 0#64 := by decide
  rw [leafEntry, or_and_distrib, or_and_distrib, or_and_distrib, hflags, hp1, hw,
    hp.and_entryMask, hp.and_entryMask]
  simp

/-- The machine's translations are those of the map. -/
structure PageMap.Refines (M : PageMap) (vm : Vm) : Prop where
  paged : vm.Paged
  room : vm.pageCounter ≤ physicalHeapPages
  lookup : ∀ v, (vm.pte v).map (· &&& entryMask) = M (pageNumber v)
  phys : ∀ k p, M k = some p → PhysPage p

section Install

variable {M : PageMap} {prot : U64} (noOverwrite : Bool)

theorem install_lookup (hprot : prot &&& ~~~flagBits = 0#64) {p : U64} (hp : PhysPage p)
    (u v : U64) {x : Option U64} (hx : x.map (· &&& entryMask) = M (pageNumber v)) :
    (updatedEntry [(u, mapUpdate p prot noOverwrite)] v x).map (· &&& entryMask) =
      M.install noOverwrite u p (pageNumber v) := by
  have hnone : x = none ↔ M (pageNumber v) = none := by
    rw [← hx]
    simp
  simp only [updatedEntry, List.foldl_cons, List.foldl_nil, PageMap.install]
  by_cases huv : pageNumber v = pageNumber u
  · rw [if_pos huv, ← huv, mapUpdate]
    by_cases hkeep : noOverwrite = true ∧ M (pageNumber v) ≠ none
    · have hcond : ¬ (noOverwrite = false ∨ x = none) := by
        rw [hnone]
        rintro (hf | hn)
        · exact absurd (hkeep.1.symm.trans hf) (by simp)
        · exact hkeep.2 hn
      rw [if_neg hcond, if_pos hkeep]
      exact hx
    · have hcond : noOverwrite = false ∨ x = none := by
        rw [hnone]
        cases noOverwrite with
        | false => exact Or.inl rfl
        | true => exact Or.inr (by simpa using hkeep)
      rw [if_pos hcond, if_neg hkeep, Function.update_self, Option.map_some,
        leafEntry_and_entryMask hprot hp]
  · rw [if_neg huv]
    split
    · exact hx
    · rw [Function.update_of_ne huv]
      exact hx

theorem install_phys (hphys : ∀ k p, M k = some p → PhysPage p) {u p : U64} (hp : PhysPage p) :
    ∀ k q, M.install noOverwrite u p k = some q → PhysPage q := by
  intro k q hq
  rw [PageMap.install] at hq
  split at hq
  · exact hphys k q hq
  · by_cases hk : k = pageNumber u
    · rw [hk, Function.update_self] at hq
      exact Option.some.inj hq ▸ hp
    · rw [Function.update_of_ne hk] at hq
      exact hphys k q hq

theorem installAll_phys (ps : List U64) (hps : ∀ p ∈ ps, PhysPage p) (u : U64)
    (hphys : ∀ k p, M k = some p → PhysPage p) :
    ∀ k p, M.installAll noOverwrite ps u k = some p → PhysPage p := by
  induction ps generalizing u M with
  | nil => exact hphys
  | cons p ps ih =>
      have hp := hps p List.mem_cons_self
      have hrest : ∀ q ∈ ps, PhysPage q := fun q hq => hps q (List.mem_cons_of_mem _ hq)
      rw [PageMap.installAll]
      exact ih hrest (u + pageSize) (install_phys noOverwrite hphys hp)

/-- Mapping a list of pages is installing them. -/
theorem installAll_lookup (hprot : prot &&& ~~~flagBits = 0#64) (ps : List U64)
    (hps : ∀ p ∈ ps, PhysPage p) (u v : U64) {x : Option U64}
    (hx : x.map (· &&& entryMask) = M (pageNumber v)) :
    (updatedEntry (pageUpdates prot noOverwrite ps u) v x).map (· &&& entryMask) =
      M.installAll noOverwrite ps u (pageNumber v) := by
  induction ps generalizing u M x with
  | nil => exact hx
  | cons p ps ih =>
      have hp := hps p List.mem_cons_self
      have hrest : ∀ q ∈ ps, PhysPage q := fun q hq => hps q (List.mem_cons_of_mem _ hq)
      rw [PageMap.installAll, pageUpdates, updatedEntry_cons]
      exact ih hrest (u + pageSize) (install_lookup noOverwrite hprot hp u v hx)

end Install

/-! ## The pages that a call maps -/

theorem rangePages_phys {n : Nat} {phys : U64} (hal : PageAligned phys)
    (hlt : phys.toNat + 4096 * n ≤ 2 ^ 52) : ∀ p ∈ rangePages n phys, PhysPage p := by
  induction n generalizing phys with
  | zero => simp [rangePages]
  | succ n ih =>
      have hs : pageSize.toNat = 4096 := by decide
      have hadd : (phys + pageSize).toNat = phys.toNat + 4096 := by
        rw [BitVec.toNat_add, hs, Nat.mod_eq_of_lt (by omega)]
      have hrest : (phys + pageSize).toNat + 4096 * n ≤ 2 ^ 52 := by omega
      have hfirst : phys.toNat < 2 ^ 52 := by omega
      intro p hp
      rw [rangePages] at hp
      rcases List.mem_cons.mp hp with rfl | hp
      · exact ⟨hal, hfirst⟩
      · exact ih hal.add hrest p hp

theorem eachPages_phys {vm : Vm} {prot : U64} {noOverwrite : Bool} {n : Nat} {virt phys : U64}
    (hb : (mapEach prot noOverwrite n virt phys vm).2.pageCounter ≤ maxFrames) :
    ∀ p ∈ eachPages prot noOverwrite n virt vm, PhysPage p := by
  induction n generalizing virt phys vm with
  | zero => simp [eachPages]
  | succ n ih =>
      rw [mapEach_succ] at hb
      intro p hp
      rcases List.mem_cons.mp hp with rfl | hp
      · have hle := (le_pageCounter_mapPhysicalPage _ _ _ _ _).trans
          ((le_pageCounter_mapEach prot noOverwrite n _ _ _).trans hb)
        have hle' : vm.pageCounter + 1 ≤ 2 ^ 40 := hle
        refine ⟨pageAligned_frameAddr _, ?_⟩
        show (frameAddr vm.pageCounter).toNat < _
        rw [toNat_frameAddr (by omega)]
        omega
      · exact ih hb p hp

theorem mappedPages_phys {vm : Vm} {virt phys prot numPages flags : U64} (h : vm.Paged)
    (hok : phys ≠ -1#64 → PageAligned phys ∧ phys.toNat + 4096 * numPages.toNat ≤ 2 ^ 52)
    (hb : (mapPhysicalPages virt phys prot numPages flags vm).2.pageCounter ≤ maxFrames) :
    ∀ p ∈ mappedPages virt phys prot numPages flags vm, PhysPage p := by
  have hcount := (mapPhysicalPages_spec h (fun hne => (hok hne).1) hb).counter
  unfold mappedPages
  by_cases hp : phys = -1#64
  · by_cases hcont : flags &&& mapContinuous = 0#64
    · have hc : ¬ (flags &&& mapContinuous ≠ 0#64 ∨ phys ≠ -1#64) := by simp [hcont, hp]
      rw [if_neg hc]
      unfold mapPhysicalPages at hb
      simp only at hb
      rw [if_neg hc] at hb
      exact eachPages_phys hb
    · rw [if_pos (Or.inl hcont), if_pos hp]
      rw [dataPages, if_pos hp] at hcount
      have hle : vm.pageCounter + numPages.toNat ≤ 2 ^ 40 := by
        rw [maxFrames] at hb
        omega
      by_cases hz : numPages.toNat = 0
      · rw [hz]
        simp [rangePages]
      · refine rangePages_phys (pageAligned_frameAddr _) ?_
        rw [toNat_frameAddr (by omega)]
        omega
  · rw [if_pos (Or.inr hp), if_neg hp]
    exact rangePages_phys (hok hp).1 (hok hp).2

/-! ## One call -/

theorem physicalHeapPages_le_maxFrames : physicalHeapPages ≤ maxFrames := by decide

theorem PageMap.Refines.call {vm : Vm} {M : PageMap} (h : M.Refines vm) {c : PagingCall}
    (hc : c.Ok vm) :
    (c.apply vm M).Refines (c.run vm) := by
  have hb := hc.room.trans physicalHeapPages_le_maxFrames
  cases c with
  | map virt phys prot numPages flags =>
      have hprot := hc.flags _ _ _ _ _ rfl
      have hpages := hc.pages _ _ _ _ _ rfl
      have hspec := mapPhysicalPages_spec h.paged (fun hne => (hpages hne).1) hb
      have hps := mappedPages_phys h.paged hpages hb
      refine ⟨hspec.paged, hc.room, fun v => ?_, installAll_phys _ _ hps virt h.phys⟩
      have hv := installAll_lookup (keepsMapped flags) hprot _ hps virt v (h.lookup v)
      rw [← hspec.pte v] at hv
      exact hv
  | unmap virt =>
      have hspec := unmapPhysicalPage_spec h.paged virt hb
      refine ⟨hspec.paged, hc.room, fun v => ?_, fun k p hk => ?_⟩
      · show ((unmapPhysicalPage virt vm).pte v).map (· &&& entryMask) =
          Function.update M (pageNumber virt) none (pageNumber v)
        rw [hspec.pte v]
        simp only [updatedEntry, List.foldl_cons, List.foldl_nil]
        by_cases hv : pageNumber v = pageNumber virt
        · rw [if_pos hv, hv, Function.update_self]
          rfl
        · rw [if_neg hv, Function.update_of_ne hv]
          exact h.lookup v
      · by_cases hkv : k = pageNumber virt
        · rw [PagingCall.apply, hkv, Function.update_self] at hk
          exact absurd hk (by simp)
        · rw [PagingCall.apply, Function.update_of_ne hkv] at hk
          exact h.phys k p hk

/-- The offset of an address in its page. -/
def offsetInPage (v : U64) : U64 := BitVec.ofNat 64 (v.toNat % 4096)

theorem physOffset_eq (v : U64) : (getVirtAddrInfo v).physOffset = offsetInPage v := by
  apply BitVec.eq_of_toNat_eq
  rw [toNat_physOffset, offsetInPage, BitVec.toNat_ofNat]
  omega

/-- An address is its offset in its page. -/
theorem eq_frameAddr_add_offset (v : U64) : v = frameAddr (frameOf v) + offsetInPage v := by
  have hv := v.isLt
  apply BitVec.eq_of_toNat_eq
  rw [BitVec.toNat_add, toNat_frameAddr (by rw [frameOf]; omega), offsetInPage, BitVec.toNat_ofNat,
    frameOf]
  omega

theorem PageMap.Refines.getPhysAddr {vm : Vm} {M : PageMap} (h : M.Refines vm) (v : U64) :
    getPhysAddr v vm = (M (pageNumber v)).map (· + offsetInPage v) := by
  rw [getPhysAddr_eq h.paged, ← h.lookup v, Option.map_map, physOffset_eq]
  rfl

/-! ## The processor's walk -/

/-- The bits of an entry that the processor takes as an address. -/
def hardwareMask : U64 := 0xFFFFFFFFFF000#64

/-- An entry of a table, when it is present. -/
def hardwareEntry (vm : Vm) (table index : U64) : Option U64 :=
  if vm.mem (frameOf table) index &&& pde64Present ≠ 0#64 then
    some (vm.mem (frameOf table) index) else none

/-- The walk of the processor from an entry of the first table; an entry with the `PS` bit
maps a large page. -/
def hardwareWalk (slot v : U64) (vm : Vm) : Option U64 := do
  let pml4e ← hardwareEntry vm vm.pml4Addr slot
  let pdpte ← hardwareEntry vm (pml4e &&& hardwareMask) (getVirtAddrInfo v).pgDirPtrOffset
  if pdpte &&& pde64Ps ≠ 0#64 then
    some ((pdpte &&& 0xFFFFFC0000000#64) + (v &&& 0x3FFFFFFF#64))
  else
    let pde ← hardwareEntry vm (pdpte &&& hardwareMask) (getVirtAddrInfo v).pgDirOffset
    if pde &&& pde64Ps ≠ 0#64 then
      some ((pde &&& 0xFFFFFFFE00000#64) + (v &&& 0x1FFFFF#64))
    else
      let pte ← hardwareEntry vm (pde &&& hardwareMask) (getVirtAddrInfo v).pgTblOffset
      some ((pte &&& hardwareMask) + (getVirtAddrInfo v).physOffset)

theorem hardwareEntry_eq (vm : Vm) (table index : U64) :
    hardwareEntry vm table index = pageFormat.read (vm.mem (frameOf table) index) := by
  unfold hardwareEntry Radix.Format.read pageFormat
  simp only [decide_eq_true_eq]

/-- An address that fits the processor's field. -/
theorem and_hardwareMask {e : U64} (h : (e &&& entryMask).toNat < 2 ^ 52) :
    e &&& hardwareMask = e &&& entryMask := by
  have hmask : hardwareMask = entryMask &&& 0xFFFFFFFFFFFFF#64 := by decide
  rw [hmask, ← BitVec.and_assoc]
  apply BitVec.eq_of_toNat_eq
  rw [BitVec.toNat_and]
  exact (Nat.and_two_pow_sub_one_eq_mod _ 52).trans (Nat.mod_eq_of_lt h)

/-- The frame of an entry that leads to a table. -/
theorem and_hardwareMask_of_frame {e : U64} {f : Nat} (h : pageFormat.frame e = f)
    (hlt : f < 2 ^ 40) : e &&& hardwareMask = e &&& entryMask ∧ frameOf (e &&& entryMask) = f := by
  refine ⟨and_hardwareMask ?_, h⟩
  have hf : (e &&& entryMask).toNat / 4096 = f := h
  omega

/-- **The processor reads what `get_phys_addr` reads**, through any entry of the first
table. -/
theorem PageMap.Refines.hardwareWalk {vm : Vm} {M : PageMap} (h : M.Refines vm) {slot : U64}
    (hslot : slot.toNat < 512) (v : U64) : hardwareWalk slot v vm = BufferVM.getPhysAddr v vm := by
  have hlt : ∀ (p : List U64) f, p.length < 3 → vm.tableAt p = some f → f < 2 ^ 40 := by
    intro p f hp hw
    have hf : vm.IsTable f := Or.inr ⟨p, hp, hw⟩
    have h1 := h.paged.isTable_lt hf
    have h2 := h.room.trans physicalHeapPages_le_maxFrames
    rw [maxFrames] at h2
    omega
  have hroot := h.paged.root slot hslot
  obtain ⟨e, he, hpdpt⟩ := Option.map_eq_some_iff.mp hroot
  have he' : hardwareEntry vm vm.pml4Addr slot = some e := by
    rw [hardwareEntry_eq]
    exact he
  obtain ⟨hm, hf⟩ := and_hardwareMask_of_frame hpdpt (hlt [] _ (by decide) rfl)
  have hlook := h.lookup v
  rw [getPhysAddr_eq h.paged, BufferVM.hardwareWalk, he']
  simp only [Option.bind_eq_bind, Option.bind_some, hm, hardwareEntry_eq, hf]
  have hup := h.paged.tables.upper
  cases hx : pageFormat.read (vm.mem vm.pdpt (getVirtAddrInfo v).pgDirPtrOffset) with
  | none =>
      rw [Vm.pte, Radix.entry, tablePath, Radix.walk, Radix.Format.next, hx]
      rfl
  | some x =>
      have hcell : Radix.entry pageFormat vm.mem vm.pdpt [] (getVirtAddrInfo v).pgDirPtrOffset =
          some x := hx
      have hsmall : x &&& pde64Ps = 0#64 := hup [] _ x (by decide) hcell
      have hw1 : vm.tableAt [(getVirtAddrInfo v).pgDirPtrOffset] = some (pageFormat.frame x) := by
        rw [Vm.tableAt, Radix.walk, Radix.Format.next, hx]
        rfl
      obtain ⟨hm1, hf1⟩ := and_hardwareMask_of_frame rfl (hlt _ _ (by simp) hw1)
      simp only [Option.bind_some, hsmall, ne_eq, not_true_eq_false, if_false, hm1, hf1]
      cases hy : pageFormat.read (vm.mem (pageFormat.frame x) (getVirtAddrInfo v).pgDirOffset) with
      | none =>
          rw [Vm.pte, Radix.entry, tablePath, Radix.walk, Radix.Format.next, hx]
          simp only [Option.map_some, Option.bind_some, Radix.walk, Radix.Format.next, hy]
          rfl
      | some y =>
          have hcell1 : Radix.entry pageFormat vm.mem vm.pdpt [(getVirtAddrInfo v).pgDirPtrOffset]
              (getVirtAddrInfo v).pgDirOffset = some y := by
            rw [Radix.entry]
            rw [Vm.tableAt] at hw1
            rw [hw1]
            exact hy
          have hsmall1 : y &&& pde64Ps = 0#64 := hup _ _ y (by simp) hcell1
          have hw2 : vm.tableAt (tablePath v) = some (pageFormat.frame y) := by
            rw [tablePath, show [(getVirtAddrInfo v).pgDirPtrOffset,
              (getVirtAddrInfo v).pgDirOffset] =
              [(getVirtAddrInfo v).pgDirPtrOffset] ++ [(getVirtAddrInfo v).pgDirOffset] from rfl,
              Vm.tableAt, Radix.walk_snoc, hcell1]
            rfl
          obtain ⟨hm2, hf2⟩ := and_hardwareMask_of_frame rfl (hlt _ _ (by simp) hw2)
          have hpte : vm.pte v =
              pageFormat.read (vm.mem (pageFormat.frame y) (getVirtAddrInfo v).pgTblOffset) := by
            rw [Vm.pte, Radix.entry]
            rw [Vm.tableAt] at hw2
            rw [hw2]
            rfl
          simp only [Option.bind_some, hsmall1, not_true_eq_false, if_false, hm2, hf2]
          rw [← hpte]
          cases hz : vm.pte v with
          | none => rfl
          | some z =>
              have hmz : M (pageNumber v) = some (z &&& entryMask) := by
                rw [← hlook, hz]
                rfl
              simp only [Option.bind_some, Option.map_some,
                and_hardwareMask (h.phys _ _ hmz).lt]

/-! ## One page at a time -/

/-- The call is about one page. -/
def PagingCall.OnePage (u : U64) : PagingCall → Prop
  | .map virt _ _ numPages _ => virt = u ∧ numPages = 1#64
  | .unmap virt => virt = u

theorem install_of_ne (noOverwrite : Bool) {u p : U64} {M : PageMap} {k : Nat}
    (h : k ≠ pageNumber u) : M.install noOverwrite u p k = M k := by
  rw [PageMap.install]
  split
  · rfl
  · exact Function.update_of_ne h _ _

theorem apply_of_ne {vm : Vm} {M : PageMap} {c : PagingCall} {u : U64} (hc : c.OnePage u) {k : Nat}
    (h : k ≠ pageNumber u) : c.apply vm M k = M k := by
  cases c with
  | map virt phys prot numPages flags =>
      obtain ⟨rfl, rfl⟩ := hc
      obtain ⟨p, hp⟩ : ∃ p, mappedPages virt phys prot 1#64 flags vm = [p] := by
        unfold mappedPages
        split
        · exact ⟨_, rfl⟩
        · exact ⟨_, rfl⟩
      rw [PagingCall.apply, hp]
      exact install_of_ne _ h
  | unmap virt =>
      obtain rfl := hc
      exact Function.update_of_ne h _ _

/-! ## Every run -/

/-- The machine when it starts: ten pages are reserved and the rest of its memory is
fresh. -/
structure Vm.Initial (vm : Vm) : Prop where
  counter : vm.pageCounter = 10
  fresh : vm.Fresh

theorem Vm.Initial.counter_built {vm : Vm} (h : vm.Initial) :
    (buildPageTables vm).pageCounter = 12 := by
  rw [buildPageTables_eq, h.counter]

theorem Vm.Initial.built {vm : Vm} (h : vm.Initial) : (buildPageTables vm).Built :=
  built_buildPageTables h.fresh (by rw [h.counter_built]; decide)

theorem Vm.Initial.refines {vm : Vm} (h : vm.Initial) :
    PageMap.Refines (fun _ => none) (buildPageTables vm) := by
  refine ⟨h.built.paged, by rw [h.counter_built]; decide, fun v => ?_,
    fun k p hk => absurd hk (by simp)⟩
  rw [h.built.pte v]
  rfl

/-- **The page tables refine a finite map**: after every run of calls, `get_phys_addr` and
the processor read the map that the run has built, and a call on one page changes no
other. -/
theorem getPhysAddr_of_runs (vm₀ : Vm) (h₀ : vm₀.Initial) (cs : List PagingCall) (vm : Vm)
    (M : PageMap) (hrun : Run.Steps pagingStep (fun x c => c.Ok x.1)
      (buildPageTables vm₀, fun _ => none) cs (vm, M)) :
    (∀ v, getPhysAddr v vm = (M (pageNumber v)).map (· + offsetInPage v)) ∧
      (∀ slot v : U64, slot.toNat < 512 → hardwareWalk slot v vm = getPhysAddr v vm) ∧
      ∀ (c : PagingCall) (u w : U64), c.Ok vm → c.OnePage u → pageNumber w ≠ pageNumber u →
        getPhysAddr w (c.run vm) = getPhysAddr w vm := by
  have hinv : M.Refines vm := by
    have hstart := h₀.refines
    generalize buildPageTables vm₀ = vm₁ at hrun hstart
    refine Run.Steps.invariant (fun x : Vm × PageMap => x.2.Refines x.1) hrun ?_ hstart
    intro x c y hx hc hstep
    obtain rfl := Option.some.inj hstep
    exact PageMap.Refines.call hx hc
  refine ⟨hinv.getPhysAddr, fun slot v hslot => hinv.hardwareWalk hslot v,
    fun c u w hc hone hw => ?_⟩
  rw [hinv.getPhysAddr, (hinv.call hc).getPhysAddr, apply_of_ne hone hw]

/-- A machine with nothing but fresh memory. -/
def blankVm : Vm := { mem := fun _ _ => 0#64, pageCounter := 10, pml4Addr := 0#64 }

theorem initial_blankVm : blankVm.Initial := ⟨rfl, fun _ _ _ => rfl⟩

/-- A test of the conditions on a call. -/
def PagingCall.test (x : Vm × PageMap) (c : PagingCall) : Bool :=
  decide ((c.run x.1).pageCounter ≤ physicalHeapPages) &&
    match c with
    | .map _ phys prot numPages _ => decide (prot &&& ~~~flagBits = 0#64 ∧
        (phys ≠ -1#64 → PageAligned phys ∧ phys.toNat + 4096 * numPages.toNat ≤ 2 ^ 52))
    | .unmap _ => true

theorem PagingCall.ok_of_test (x : Vm × PageMap) (c : PagingCall) (h : c.test x = true) :
    c.Ok x.1 := by
  obtain ⟨hroom, hrest⟩ := Bool.and_eq_true_iff.mp h
  refine ⟨of_decide_eq_true hroom, ?_, ?_⟩
  · rintro virt phys prot numPages flags rfl
    exact (of_decide_eq_true hrest).1
  · rintro virt phys prot numPages flags rfl
    exact (of_decide_eq_true hrest).2

/-- Two pages are mapped, the second once more over a page that is given, and the first is
unmapped. -/
def threeCalls : List PagingCall :=
  [.map 0x1000#64 (-1#64) pde64User 2#64 0#64, .map 0x2000#64 0x8000#64 pde64User 1#64 0#64,
    .unmap 0x1000#64]

theorem getPhysAddr_of_runs_threeCalls : ∃ vm M, Run.Steps pagingStep (fun x c => c.Ok x.1)
      (buildPageTables blankVm, fun _ => none) threeCalls (vm, M) ∧
    getPhysAddr 0x1234#64 vm = none ∧ getPhysAddr 0x2234#64 vm = some 0x8234#64 ∧
    hardwareWalk 7#64 0x2234#64 vm = some 0x8234#64 := by
  have hexec : (Run.exec pagingStep PagingCall.test threeCalls
      (buildPageTables blankVm, fun _ => none)).any (fun x =>
        x.2 (pageNumber 0x1234#64) = none ∧
          x.2 (pageNumber 0x2234#64) = some 0x8000#64) = true := by
    decide +kernel
  obtain ⟨⟨vm, M⟩, ht, hfacts⟩ := (Option.any_eq_true _ _).mp hexec
  obtain ⟨hgone, hover⟩ : M (pageNumber 0x1234#64) = none ∧
      M (pageNumber 0x2234#64) = some 0x8000#64 := of_decide_eq_true hfacts
  have hsteps := Run.Steps.of_exec PagingCall.ok_of_test _ ht
  obtain ⟨haddr, hwalk, -⟩ := getPhysAddr_of_runs blankVm initial_blankVm threeCalls vm M hsteps
  have hsecond : getPhysAddr 0x2234#64 vm = some 0x8234#64 := by
    rw [haddr, hover]
    decide
  refine ⟨vm, M, hsteps, ?_, hsecond, ?_⟩
  · rw [haddr, hgone]
    rfl
  · rw [hwalk 7#64 0x2234#64 (by decide), hsecond]

end BufferVM
