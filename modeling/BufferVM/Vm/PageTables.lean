/-
  Vm/PageTables.lean --- the page tables are a tree, and what each call does to it.

  The tables below the `pdpt` are a radix tree of depth three; all 512 entries of the
  first table lead to its root.  `Vm.Updates` says what a call has done in terms of the
  pages it touches: which tables it has created, what it has done to the last entry of
  each page, and that it has written to no frame but tables.  Calls compose by
  `Vm.Updates.trans`.
-/
import BufferVM.Vm.Paging
import Mathlib.Data.Finset.Card
import Mathlib.Data.Finset.Lattice.Basic

set_option autoImplicit false

namespace BufferVM

/-! ## Words of a page table -/

theorem or_and_distrib (x y m : U64) : (x ||| y) &&& m = x &&& m ||| y &&& m := by
  ext i hi
  simp [Bool.and_or_distrib_right]

theorem toNat_and_entryMask (e : U64) :
    (e &&& entryMask).toNat = e.toNat % 2 ^ 56 / 4096 * 4096 := by
  have hmask : entryMask = 0xFFFFFFFFFFFFFF#64 &&& -pageSize := by decide
  have hlow : (e &&& 0xFFFFFFFFFFFFFF#64).toNat = e.toNat % 2 ^ 56 := by
    rw [BitVec.toNat_and]
    exact Nat.and_two_pow_sub_one_eq_mod e.toNat 56
  have hdown := toNat_pageAlignDown (e &&& 0xFFFFFFFFFFFFFF#64)
  rw [pageAlignDown, p2Align, hlow] at hdown
  rw [hmask, ← BitVec.and_assoc, hdown]

theorem toNat_frameAddr {k : Nat} (h : k < 2 ^ 52) : (frameAddr k).toNat = k * 4096 := by
  rw [frameAddr, BitVec.toNat_ofNat, Nat.mod_eq_of_lt (by omega)]

theorem frameOf_frameAddr {k : Nat} (h : k < 2 ^ 52) : frameOf (frameAddr k) = k := by
  rw [frameOf, toNat_frameAddr h]
  omega

theorem frameAddr_ne_neg_one (k : Nat) : frameAddr k ≠ -1#64 := by
  intro h
  have hn := congrArg BitVec.toNat h
  rw [frameAddr, BitVec.toNat_ofNat] at hn
  have hneg : (-1#64 : U64).toNat = 2 ^ 64 - 1 := by decide
  omega

theorem frameAddr_and_entryMask {k : Nat} (h : k < 2 ^ 44) :
    frameAddr k &&& entryMask = frameAddr k := by
  apply BitVec.eq_of_toNat_eq
  rw [toNat_and_entryMask, toNat_frameAddr (by omega)]
  omega

/-- How the code reads an entry. -/
def pageFormat : Radix.Format Nat U64 where
  present e := decide (e &&& pde64Present ≠ 0#64)
  frame e := frameOf (e &&& entryMask)

theorem pageFormat_present_or {x : U64} (y : U64) (h : pageFormat.present x = true) :
    pageFormat.present (x ||| y) = true := by
  simp only [pageFormat, decide_eq_true_eq, ne_eq] at h ⊢
  rw [or_and_distrib]
  intro hz
  exact h (BitVec.or_eq_zero_iff.mp hz).1

theorem pageFormat_frame_or {x y : U64} (h : x &&& entryMask = 0#64) :
    pageFormat.frame (x ||| y) = pageFormat.frame y := by
  simp [pageFormat, or_and_distrib, h]

/-- The flags of a table leave the address alone. -/
theorem tableFlags_and : (pde64Present ||| tableFlags) &&& entryMask = 0#64 := by decide

theorem pageFormat_next_table {k : Nat} (h : k < 2 ^ 44) :
    pageFormat.next (pde64Present ||| tableFlags ||| frameAddr k) = some k := by
  rw [Radix.Format.next_of_present (pageFormat_present_or _ (by decide)),
    pageFormat_frame_or tableFlags_and]
  simp only [pageFormat, frameAddr_and_entryMask h, frameOf_frameAddr (show k < 2 ^ 52 by omega)]

theorem pageFormat_next_or {e : U64} (h : pageFormat.present e = true) :
    pageFormat.next (e ||| tableFlags) = pageFormat.next e := by
  rw [Radix.Format.next_of_present (pageFormat_present_or _ h), Radix.Format.next_of_present h,
    BitVec.or_comm, pageFormat_frame_or (by decide)]

/-! ## Virtual addresses -/

/-- The page of the 39-bit address space that an address lies in. -/
def pageNumber (v : U64) : Nat := v.toNat % 2 ^ 39 / 4096

/-- The indices that lead to the last table of an address. -/
def tablePath (v : U64) : List U64 :=
  [(getVirtAddrInfo v).pgDirPtrOffset, (getVirtAddrInfo v).pgDirOffset]

@[simp] theorem length_tablePath (v : U64) : (tablePath v).length = 2 := rfl

/-- The index of an address in its last table. -/
def tableIndex (v : U64) : U64 := (getVirtAddrInfo v).pgTblOffset

theorem toNat_field (v : U64) (k : Nat) (mask : U64) (h : mask >>> k = 0x1FF#64) :
    ((v &&& mask) >>> k).toNat = v.toNat / 2 ^ k % 512 := by
  rw [BitVec.ushiftRight_and_distrib, h, BitVec.toNat_and, BitVec.toNat_ushiftRight,
    Nat.shiftRight_eq_div_pow]
  exact Nat.and_two_pow_sub_one_eq_mod _ 9

theorem toNat_pgDirPtrOffset (v : U64) :
    (getVirtAddrInfo v).pgDirPtrOffset.toNat = v.toNat / 2 ^ 30 % 512 :=
  toNat_field v 30 _ (by decide)

theorem toNat_pgDirOffset (v : U64) :
    (getVirtAddrInfo v).pgDirOffset.toNat = v.toNat / 2 ^ 21 % 512 :=
  toNat_field v 21 _ (by decide)

theorem toNat_pgTblOffset (v : U64) :
    (getVirtAddrInfo v).pgTblOffset.toNat = v.toNat / 2 ^ 12 % 512 :=
  toNat_field v 12 _ (by decide)

theorem toNat_physOffset (v : U64) : (getVirtAddrInfo v).physOffset.toNat = v.toNat % 4096 := by
  show (v &&& 0xFFF#64).toNat = _
  rw [BitVec.toNat_and]
  exact Nat.and_two_pow_sub_one_eq_mod _ 12

/-- The indices of an address determine its page. -/
theorem pageNumber_eq_iff (v w : U64) :
    pageNumber v = pageNumber w ↔ tablePath v = tablePath w ∧ tableIndex v = tableIndex w := by
  simp only [tablePath, tableIndex, List.cons.injEq, and_true, BitVec.toNat_inj.symm,
    toNat_pgDirPtrOffset, toNat_pgDirOffset, toNat_pgTblOffset, pageNumber]
  omega

/-- The walk of the page tables looks at 39 bits. -/
theorem getPhysAddr_congr {v w : U64} (h : v.toNat % 2 ^ 39 = w.toNat % 2 ^ 39) (vm : Vm) :
    getPhysAddr v vm = getPhysAddr w vm := by
  have h1 : (getVirtAddrInfo v).pgDirPtrOffset = (getVirtAddrInfo w).pgDirPtrOffset := by
    rw [← BitVec.toNat_inj, toNat_pgDirPtrOffset, toNat_pgDirPtrOffset]
    omega
  have h2 : (getVirtAddrInfo v).pgDirOffset = (getVirtAddrInfo w).pgDirOffset := by
    rw [← BitVec.toNat_inj, toNat_pgDirOffset, toNat_pgDirOffset]
    omega
  have h3 : (getVirtAddrInfo v).pgTblOffset = (getVirtAddrInfo w).pgTblOffset := by
    rw [← BitVec.toNat_inj, toNat_pgTblOffset, toNat_pgTblOffset]
    omega
  have h4 : (getVirtAddrInfo v).physOffset = (getVirtAddrInfo w).physOffset := by
    rw [← BitVec.toNat_inj, toNat_physOffset, toNat_physOffset]
    omega
  simp only [getPhysAddr, h1, h2, h3, h4]

/-! ## The invariant -/

/-- The frame of the first table. -/
def Vm.pml4 (vm : Vm) : Nat := frameOf vm.pml4Addr

/-- The frame that the first entry of the first table leads to. -/
def Vm.pdpt (vm : Vm) : Nat := pageFormat.frame (vm.mem vm.pml4 0#64)

/-- The table that a path of indices leads to. -/
def Vm.tableAt (vm : Vm) (p : List U64) : Option Nat := Radix.walk pageFormat vm.mem vm.pdpt p

/-- The entry of a page, when it is present. -/
def Vm.pte (vm : Vm) (v : U64) : Option U64 :=
  Radix.entry pageFormat vm.mem vm.pdpt (tablePath v) (tableIndex v)

/-- The frame holds a page table. -/
def Vm.IsTable (vm : Vm) (f : Nat) : Prop :=
  f = vm.pml4 ∨ Radix.IsTable pageFormat 3 vm.pdpt vm.mem f

/-- An entry that leads to a table and not to a large page. -/
def SmallEntry (e : U64) : Prop := e &&& pde64Ps = 0#64

/-- The page tables of a machine that has been set up. -/
structure Vm.Paged (vm : Vm) : Prop where
  root : ∀ slot : U64, slot.toNat < 512 → pageFormat.next (vm.mem vm.pml4 slot) = some vm.pdpt
  tables : Radix.Tables pageFormat 3 SmallEntry vm.pdpt (fun f => vm.pageCounter ≤ f) vm.mem
  apart : ¬ Radix.IsTable pageFormat 3 vm.pdpt vm.mem vm.pml4
  below : vm.pml4 < vm.pageCounter

theorem Vm.Paged.isTable_lt {vm : Vm} (h : vm.Paged) {f : Nat} (hf : vm.IsTable f) :
    f < vm.pageCounter := by
  rcases hf with rfl | ⟨p, hp, hw⟩
  · exact h.below
  · exact Nat.lt_of_not_le (h.tables.used p f hp hw)

theorem Vm.Paged.tableAt_nil {vm : Vm} : vm.tableAt [] = some vm.pdpt := rfl

/-- `get_page_entry` reads an entry of a frame. -/
theorem getPageEntry_eq (table index : U64) (vm : Vm) :
    getPageEntry table index vm =
      (pageFormat.read (vm.mem (frameOf table) index)).map (· &&& entryMask) := by
  unfold getPageEntry Radix.Format.read pageFormat Vm.entry
  simp only [decide_eq_true_eq]
  split
  · rfl
  · rfl

/-- `get_phys_addr` looks the page up in the tree. -/
theorem getPhysAddr_eq {vm : Vm} (h : vm.Paged) (v : U64) :
    getPhysAddr v vm =
      (vm.pte v).map fun e => (e &&& entryMask) + (getVirtAddrInfo v).physOffset := by
  have hroot := h.root 0#64 (by decide)
  obtain ⟨e, he, hpdpt⟩ := Option.map_eq_some_iff.mp hroot
  have he' : pageFormat.read (vm.mem (frameOf vm.pml4Addr) 0#64) = some e := he
  have hnext : ∀ (x : U64), frameOf (x &&& entryMask) = pageFormat.frame x := fun _ => rfl
  simp only [getPhysAddr, getPageEntry_eq, he', Vm.pte, Radix.entry, tablePath, Radix.walk,
    tableIndex, Radix.Format.next, Option.bind_eq_bind, Option.map_some, Option.bind_some,
    Option.bind_map, Function.comp_def, hnext, hpdpt, Option.bind_assoc, Option.map_bind]
  cases pageFormat.read (vm.mem vm.pdpt (getVirtAddrInfo v).pgDirPtrOffset) with
  | none => rfl
  | some x =>
      simp only [Option.bind_some]
      cases pageFormat.read (vm.mem (pageFormat.frame x) (getVirtAddrInfo v).pgDirOffset) with
      | none => rfl
      | some y =>
          simp only [Option.bind_some]
          cases pageFormat.read (vm.mem (pageFormat.frame y) (getVirtAddrInfo v).pgTblOffset) with
          | none => rfl
          | some z => rfl

/-! ## What a call does -/

/-- A page and what is done to its entry. -/
abbrev PageUpdate : Type := U64 × (Option U64 → Option U64)

/-- The entry of page `v` after some updates. -/
def updatedEntry (us : List PageUpdate) (v : U64) (x : Option U64) : Option U64 :=
  us.foldl (fun x u => if pageNumber v = pageNumber u.1 then u.2 x else x) x

theorem updatedEntry_cons (u : PageUpdate) (us : List PageUpdate) (v : U64) (x : Option U64) :
    updatedEntry (u :: us) v x = updatedEntry us v (updatedEntry [u] v x) := rfl

/-- The tables on these paths that are not there yet. -/
def Vm.missing (vm : Vm) (ps : Finset (List U64)) : Finset (List U64) :=
  ps.filter fun p => vm.tableAt p = none

/-- A call has handed out `k` pages, has created the tables on the paths `ps` and has made
the updates `us`. -/
structure Vm.Updates (vm vm' : Vm) (k : Nat) (ps : Finset (List U64)) (us : List PageUpdate) :
    Prop where
  paged : vm'.Paged
  pml4Addr : vm'.pml4Addr = vm.pml4Addr
  keep : ∀ p f, p.length < 3 → vm.tableAt p = some f → vm'.tableAt p = some f
  absent : ∀ p, p.length < 3 → (vm'.tableAt p = none ↔ vm.tableAt p = none ∧ p ∉ ps)
  old : ∀ f, f < vm.pageCounter → vm'.IsTable f → vm.IsTable f
  counter : vm'.pageCounter = vm.pageCounter + k + (vm.missing ps).card
  pte : ∀ v, vm'.pte v = updatedEntry us v (vm.pte v)
  mem : ∀ f, ¬ vm'.IsTable f → vm'.mem f = vm.mem f

namespace Vm.Updates

variable {vm vm₁ vm₂ : Vm} {ps qs : Finset (List U64)} {us ws : List PageUpdate}
  {k l : Nat}

theorem refl (h : vm.Paged) : vm.Updates vm 0 ∅ [] where
  paged := h
  pml4Addr := rfl
  keep _ _ _ hw := hw
  absent p _ := by simp
  old _ _ hf := hf
  counter := by simp [Vm.missing]
  pte _ := rfl
  mem _ _ := rfl

theorem pageCounter_le (h : vm.Updates vm₁ k ps us) : vm.pageCounter ≤ vm₁.pageCounter := by
  have := h.counter
  omega

theorem isTable (h : vm.Updates vm₁ k ps us) {f : Nat} (hf : vm.IsTable f) : vm₁.IsTable f := by
  rcases hf with rfl | ⟨p, hp, hw⟩
  · exact Or.inl (congrArg frameOf h.pml4Addr).symm
  · exact Or.inr ⟨p, hp, h.keep p f hp hw⟩

theorem pdpt (h : vm.Updates vm₁ k ps us) : vm₁.pdpt = vm.pdpt :=
  Option.some.inj (h.keep [] vm.pdpt (by decide) rfl)

/-- The tables that two calls create, counted from the first state. -/
theorem card_missing (h : vm.Updates vm₁ k ps us) (hqs : ∀ p ∈ qs, p.length < 3) :
    (vm.missing (ps ∪ qs)).card = (vm.missing ps).card + (vm₁.missing qs).card := by
  have hsecond : vm₁.missing qs = vm.missing qs \ vm.missing ps := by
    ext p
    simp only [Vm.missing, Finset.mem_filter, Finset.mem_sdiff, not_and]
    constructor
    · rintro ⟨hp, hn⟩
      obtain ⟨hn, hps⟩ := (h.absent p (hqs p hp)).mp hn
      exact ⟨⟨hp, hn⟩, fun h => absurd h hps⟩
    · rintro ⟨⟨hp, hn⟩, hps⟩
      exact ⟨hp, (h.absent p (hqs p hp)).mpr ⟨hn, fun h => hps h hn⟩⟩
  have hunion : vm.missing (ps ∪ qs) = vm.missing ps ∪ (vm.missing qs \ vm.missing ps) := by
    rw [Vm.missing, Finset.filter_union, Finset.union_sdiff_self_eq_union]
    rfl
  rw [hsecond, hunion, Finset.card_union_of_disjoint Finset.disjoint_sdiff]

theorem trans (h₁ : vm.Updates vm₁ k ps us) (h₂ : vm₁.Updates vm₂ l qs ws)
    (hqs : ∀ p ∈ qs, p.length < 3) : vm.Updates vm₂ (k + l) (ps ∪ qs) (us ++ ws) where
  paged := h₂.paged
  pml4Addr := h₂.pml4Addr.trans h₁.pml4Addr
  keep p f hp hw := h₂.keep p f hp (h₁.keep p f hp hw)
  absent p hp := by
    rw [h₂.absent p hp, h₁.absent p hp, Finset.mem_union]
    tauto
  old f hf ht := h₁.old f hf (h₂.old f (Nat.lt_of_lt_of_le hf h₁.pageCounter_le) ht)
  counter := by
    rw [h₂.counter, h₁.counter, h₁.card_missing hqs]
    omega
  pte v := by
    rw [h₂.pte, h₁.pte, updatedEntry, updatedEntry, updatedEntry, List.foldl_append]
  mem f hf := by
    rw [h₂.mem f hf, h₁.mem f fun hc => hf (h₂.isTable hc)]

end Vm.Updates

/-! ## One entry -/

section Entry

variable {vm : Vm} {p : List U64} {table index e : U64} {n : Nat}

/-- The machine after one entry has been written and `n` pages are handed out. -/
def Vm.written (vm : Vm) (table index e : U64) (n : Nat) : Vm :=
  { vm.setEntry table index e with pageCounter := n }

/-- What may be written to a table above the last ones: an entry for the table that is
there, or one for the next page. -/
def Vm.Leads (vm : Vm) (table index e : U64) (n : Nat) : Prop :=
  SmallEntry e ∧
    ((pageFormat.next e = pageFormat.next (vm.entry table index) ∧
        pageFormat.next e ≠ none ∧ n = vm.pageCounter) ∨
      (pageFormat.next (vm.entry table index) = none ∧
        pageFormat.next e = some vm.pageCounter ∧ n = vm.pageCounter + 1))

theorem Vm.Leads.grows (h : vm.Leads table index e n) :
    Radix.Grows pageFormat (fun f => vm.pageCounter ≤ f) (vm.mem (frameOf table) index) e := by
  rcases h.2 with ⟨hs, -, -⟩ | ⟨hnone, hnew, -⟩
  · exact Or.inl hs
  · refine Or.inr ⟨hnone, fun g hg => ?_⟩
    rw [hnew] at hg
    exact (Option.some.inj hg).le

theorem Vm.Leads.le (h : vm.Leads table index e n) : vm.pageCounter ≤ n := by
  rcases h.2 with ⟨-, -, rfl⟩ | ⟨-, -, rfl⟩
  · exact le_rfl
  · omega

theorem Vm.Leads.ne_none (h : vm.Leads table index e n) : pageFormat.next e ≠ none := by
  rcases h.2 with ⟨-, hs, -⟩ | ⟨-, he, -⟩
  · exact hs
  · simp [he]

/-- A frame from before that the entry leads to is the one it led to before. -/
theorem Vm.Leads.next_eq (h : vm.Leads table index e n) {g : Nat} (hg : pageFormat.next e = some g)
    (hlt : g < vm.pageCounter) : pageFormat.next (vm.entry table index) = some g := by
  rcases h.2 with ⟨hs, -, -⟩ | ⟨-, he, -⟩
  · exact hs.symm.trans hg
  · rw [he] at hg
    have := Option.some.inj hg
    omega

/-- The table at the end of a path, read off the entry. -/
theorem tableAt_snoc (hw : vm.tableAt p = some (frameOf table)) :
    vm.tableAt (p ++ [index]) = pageFormat.next (vm.entry table index) := by
  rw [Vm.tableAt, Radix.walk_snoc, Radix.entry]
  rw [Vm.tableAt] at hw
  rw [hw]
  rfl

section Written

variable (h : vm.Paged) (hp : p.length < 3) (hw : vm.tableAt p = some (frameOf table))
  (hle : vm.pageCounter ≤ n) (hup : p.length + 1 < 3 → vm.Leads table index e n)

include h hp hw

theorem Vm.Paged.pml4_written (i : U64) :
    (vm.written table index e n).mem vm.pml4 i = vm.mem vm.pml4 i := by
  refine Radix.write_frame_ne _ _ _ _ fun heq => ?_
  exact h.apart ⟨p, hp, heq ▸ hw⟩

theorem Vm.Paged.pdpt_written : (vm.written table index e n).pdpt = vm.pdpt :=
  congrArg pageFormat.frame (h.pml4_written hp hw 0#64)

include hup

theorem Vm.Paged.tableAt_written {q : List U64} (hq : q.length < 3) :
    (vm.written table index e n).tableAt q =
      if q = p ++ [index] then pageFormat.next e else vm.tableAt q := by
  rw [Vm.tableAt, h.pdpt_written hp hw]
  exact h.tables.walk_write hp hw (fun hlt => (hup hlt).grows) hq

theorem Vm.Paged.isTable_of_written {f : Nat} (hf : f < vm.pageCounter)
    (ht : Radix.IsTable pageFormat 3 (vm.written table index e n).pdpt
      (vm.written table index e n).mem f) : Radix.IsTable pageFormat 3 vm.pdpt vm.mem f := by
  obtain ⟨q, hq, hwq⟩ := ht
  have hwq' := (h.tableAt_written hp hw hup hq).symm.trans hwq
  by_cases hqp : q = p ++ [index]
  · rw [if_pos hqp] at hwq'
    have hlen : p.length + 1 < 3 := by simpa [hqp] using hq
    refine ⟨q, hq, ?_⟩
    rw [hqp]
    exact (tableAt_snoc hw).trans ((hup hlen).next_eq hwq' hf)
  · rw [if_neg hqp] at hwq'
    exact ⟨q, hq, hwq'⟩

include hle

theorem Vm.Paged.paged_written : (vm.written table index e n).Paged := by
  have hpdpt : (vm.written table index e n).pdpt = vm.pdpt := h.pdpt_written hp hw
  refine ⟨fun slot hslot => ?_, ?_, fun ht => ?_, Nat.lt_of_lt_of_le h.below hle⟩
  · have hpml4 : (vm.written table index e n).mem vm.pml4 slot = vm.mem vm.pml4 slot :=
      h.pml4_written hp hw slot
    have hroot := h.root slot hslot
    rw [← hpml4, ← hpdpt] at hroot
    exact hroot
  · rw [hpdpt]
    refine h.tables.write hp hw (fun hlt => (hup hlt).grows) (fun g hg => Nat.le_trans hle hg)
      (fun hlt g hg hng => ?_) (fun hlt _ => (hup hlt).1)
    rcases (hup hlt).2 with ⟨hs, -, rfl⟩ | ⟨-, he, rfl⟩
    · rw [hs, ← tableAt_snoc hw] at hg
      exact h.tables.used _ g (by simpa using hlt) hg hng
    · rw [he] at hg
      have hge : vm.pageCounter + 1 ≤ g := hng
      have := Option.some.inj hg
      omega
  · exact h.apart (h.isTable_of_written hp hw hup h.below ht)

/-- What writing one entry of a table does. -/
theorem Vm.Paged.updates_written {ps : Finset (List U64)} {us : List PageUpdate}
    (hps : ∀ q, q.length < 3 → (q = p ++ [index] ↔ q ∈ ps))
    (hn : n = vm.pageCounter + 0 + (vm.missing ps).card)
    (hus : ∀ v, (if tablePath v = p ∧ tableIndex v = index then pageFormat.read e else vm.pte v) =
      updatedEntry us v (vm.pte v)) :
    vm.Updates (vm.written table index e n) 0 ps us where
  paged := h.paged_written hp hw hle hup
  pml4Addr := rfl
  keep q f hq hwq := by
    rw [h.tableAt_written hp hw hup hq]
    by_cases hqp : q = p ++ [index]
    · rw [if_pos hqp]
      rw [hqp, tableAt_snoc hw] at hwq
      have hlen : p.length + 1 < 3 := by simpa [hqp] using hq
      rcases (hup hlen).2 with ⟨hs, -, -⟩ | ⟨hnone, -, -⟩
      · exact hs.trans hwq
      · rw [hnone] at hwq
        exact absurd hwq (by simp)
    · rw [if_neg hqp]
      exact hwq
  absent q hq := by
    rw [h.tableAt_written hp hw hup hq, ← hps q hq]
    by_cases hqp : q = p ++ [index]
    · have hlen : p.length + 1 < 3 := by simpa [hqp] using hq
      simp [hqp, (hup hlen).ne_none]
    · simp [hqp]
  old f hf ht := by
    rcases ht with rfl | ht
    · exact Or.inl rfl
    · exact Or.inr (h.isTable_of_written hp hw hup hf ht)
  counter := hn
  pte v := by
    rw [← hus v, Vm.pte, h.pdpt_written hp hw]
    exact h.tables.entry_write hp hw (fun hlt => (hup hlt).grows) (by simp)
  mem f hf := by
    funext i
    refine Radix.write_frame_ne _ _ _ _ ?_
    rintro rfl
    refine hf (Or.inr ⟨p, hp, ?_⟩)
    have hwp := h.tableAt_written hp hw hup hp
    rw [if_neg (by simp)] at hwp
    exact hwp.trans hw

end Written

end Entry

/-! ## The tables on the way to a page -/

section Create

variable {vm : Vm} {p : List U64} {table index : U64}

/-- The number of pages that the address field of an entry has room for. -/
def maxFrames : Nat := 2 ^ 40

theorem le_pageCounter_mapPageEntry (table index flags page : U64) (vm : Vm) :
    vm.pageCounter ≤ (mapPageEntry table index flags page vm).2.pageCounter := by
  unfold mapPageEntry
  split
  · split
    · exact Nat.le_add_right _ _
    · exact le_rfl
  · exact le_rfl

theorem le_pageCounter_lastTable (info : VirtAddrInfo) (vm : Vm) :
    vm.pageCounter ≤ (lastTable info vm).2.pageCounter := by
  unfold lastTable
  exact ((le_pageCounter_mapPageEntry _ _ _ _ _).trans
    (le_pageCounter_mapPageEntry _ _ _ _ _)).trans
    (le_pageCounter_mapPageEntry _ _ _ _ _)

theorem pageFormat_present_iff (e : U64) :
    pageFormat.present e = true ↔ e &&& pde64Present ≠ 0#64 := by
  simp [pageFormat]

theorem entry_written (vm : Vm) (table index e : U64) (n : Nat) :
    (vm.written table index e n).entry table index = e := Radix.write_same _ _ _ _

/-- `map_page_entry` with `PAGE_CREATE` on an entry that is present. -/
theorem mapPageEntry_present (h : pageFormat.present (vm.entry table index) = true) :
    mapPageEntry table index tableFlags pageCreate vm =
      ((vm.entry table index ||| tableFlags) &&& entryMask,
        vm.written table index (vm.entry table index ||| tableFlags) vm.pageCounter) := by
  have h' := (pageFormat_present_iff _).mp h
  unfold mapPageEntry
  rw [if_pos rfl, if_neg h']
  exact congrArg (fun x => (x &&& entryMask, _)) (entry_written vm table index _ vm.pageCounter)

/-- `map_page_entry` with `PAGE_CREATE` on an entry that is not present. -/
theorem mapPageEntry_absent (h : pageFormat.present (vm.entry table index) = false) :
    mapPageEntry table index tableFlags pageCreate vm =
      ((pde64Present ||| tableFlags ||| frameAddr vm.pageCounter) &&& entryMask,
        vm.written table index (pde64Present ||| tableFlags ||| frameAddr vm.pageCounter)
          (vm.pageCounter + 1)) := by
  have h' : vm.entry table index &&& pde64Present = 0#64 := by
    simpa [pageFormat] using h
  unfold mapPageEntry
  rw [if_pos rfl, if_pos h']
  exact congrArg (fun x => (x &&& entryMask, _))
    (entry_written vm table index _ (vm.pageCounter + 1))

/-- An entry of a table above the last ones leads to a table after `map_page_entry`. -/
theorem mapPageEntry_create (h : vm.Paged) (hp : p.length + 1 < 3)
    (hw : vm.tableAt p = some (frameOf table))
    (hb : (mapPageEntry table index tableFlags pageCreate vm).2.pageCounter ≤ maxFrames) :
    vm.Updates (mapPageEntry table index tableFlags pageCreate vm).2 0 {p ++ [index]} [] ∧
      (mapPageEntry table index tableFlags pageCreate vm).2.tableAt (p ++ [index]) =
        some (frameOf (mapPageEntry table index tableFlags pageCreate vm).1) := by
  have hps : ∀ q : List U64, q.length < 3 → (q = p ++ [index] ↔ q ∈ ({p ++ [index]} : Finset _)) :=
    fun q _ => by simp
  have hus : ∀ (e v : U64), (if tablePath v = p ∧ tableIndex v = index then pageFormat.read e
      else vm.pte v) = updatedEntry [] v (vm.pte v) := by
    intro e v
    rw [if_neg]
    · rfl
    · rintro ⟨rfl, -⟩
      simp at hp
  have hmiss : vm.missing {p ++ [index]} =
      if pageFormat.next (vm.entry table index) = none then {p ++ [index]} else ∅ := by
    rw [Vm.missing, Finset.filter_singleton, tableAt_snoc hw]
  have hlast : (p ++ [index]).length < 3 := by simpa using hp
  cases hpres : pageFormat.present (vm.entry table index) with
  | true =>
      have hnext := Radix.Format.next_of_present hpres
      have hleads : vm.Leads table index (vm.entry table index ||| tableFlags) vm.pageCounter := by
        have hcell : Radix.entry pageFormat vm.mem vm.pdpt p index =
            some (vm.entry table index) := by
          rw [Radix.entry]
          rw [Vm.tableAt] at hw
          rw [hw]
          exact if_pos hpres
        have hsmall := h.tables.upper p index _ hp hcell
        refine ⟨?_, Or.inl ⟨pageFormat_next_or hpres, ?_, rfl⟩⟩
        · have hflags : tableFlags &&& pde64Ps = 0#64 := by decide
          rw [SmallEntry, or_and_distrib, hflags, hsmall]
          rfl
        · rw [pageFormat_next_or hpres, hnext]
          simp
      rw [mapPageEntry_present hpres]
      refine ⟨h.updates_written (by omega) hw le_rfl (fun _ => hleads) hps ?_ (hus _), ?_⟩
      · simp [hmiss, hnext]
      · rw [h.tableAt_written (by omega) hw (fun _ => hleads) hlast, if_pos rfl]
        exact Radix.Format.next_of_present (pageFormat_present_or _ hpres)
  | false =>
      have hnext := Radix.Format.next_of_not_present hpres
      rw [mapPageEntry_absent hpres] at hb ⊢
      have hlt : vm.pageCounter < 2 ^ 44 := by
        have hb' : vm.pageCounter + 1 ≤ maxFrames := hb
        rw [maxFrames] at hb'
        omega
      have htable := pageFormat_next_table hlt
      have hleads : vm.Leads table index
          (pde64Present ||| tableFlags ||| frameAddr vm.pageCounter) (vm.pageCounter + 1) := by
        refine ⟨?_, Or.inr ⟨hnext, htable, rfl⟩⟩
        have hflags : (pde64Present ||| tableFlags) &&& pde64Ps = 0#64 := by decide
        have hps : pde64Ps &&& ~~~pageMask = pde64Ps := by decide
        have haddr : pageOffset (frameAddr vm.pageCounter) = 0#64 := by
          rw [pageOffset_eq_zero_iff, toNat_frameAddr (by omega)]
          omega
        have hzero : frameAddr vm.pageCounter &&& pde64Ps = 0#64 := by
          rw [← hps, BitVec.and_comm pde64Ps, ← BitVec.and_assoc]
          rw [pageOffset] at haddr
          rw [haddr]
          rfl
        rw [SmallEntry, or_and_distrib, hflags, hzero]
        rfl
      refine ⟨h.updates_written (by omega) hw (by omega) (fun _ => hleads) hps ?_ (hus _), ?_⟩
      · simp [hmiss, hnext]
      · rw [h.tableAt_written (by omega) hw (fun _ => hleads) hlast, if_pos rfl]
        exact Radix.Format.next_of_present (pageFormat_present_or _ (by decide))

/-- The first entry of the first table is there already. -/
theorem mapPageEntry_root (h : vm.Paged) :
    vm.Updates (mapPageEntry vm.pml4Addr 0#64 tableFlags pageCreate vm).2 0 ∅ [] ∧
      frameOf (mapPageEntry vm.pml4Addr 0#64 tableFlags pageCreate vm).1 = vm.pdpt := by
  have hroot := h.root 0#64 (by decide)
  have hpres : pageFormat.present (vm.entry vm.pml4Addr 0#64) = true := by
    by_contra hc
    have hnone : pageFormat.next (vm.mem vm.pml4 0#64) = none :=
      Radix.Format.next_of_not_present (Bool.not_eq_true _ ▸ hc)
    rw [hnone] at hroot
    exact absurd hroot (by simp)
  rw [mapPageEntry_present hpres]
  let e := vm.entry vm.pml4Addr 0#64 ||| tableFlags
  let vm' := vm.written vm.pml4Addr 0#64 e vm.pageCounter
  have hframe : pageFormat.frame e = vm.pdpt := by
    have hnext := pageFormat_next_or hpres
    rw [Radix.Format.next_of_present (pageFormat_present_or _ hpres),
      Radix.Format.next_of_present hpres] at hnext
    exact Option.some.inj hnext
  have hpdpt : vm'.pdpt = vm.pdpt :=
    (congrArg pageFormat.frame (entry_written vm vm.pml4Addr 0#64 e vm.pageCounter)).trans hframe
  -- the first table is not one of the others
  have hmem : ∀ f, f ≠ vm.pml4 → vm'.mem f = vm.mem f := by
    intro f hf
    funext i
    exact Radix.write_frame_ne _ _ _ _ hf
  have hsame : ∀ f, Radix.IsTable pageFormat 3 vm.pdpt vm.mem f → vm'.mem f = vm.mem f := by
    intro f hf
    refine hmem f ?_
    rintro rfl
    exact h.apart hf
  have hwalk : ∀ q : List U64, q.length < 3 → vm'.tableAt q = vm.tableAt q := by
    intro q hq
    rw [Vm.tableAt, hpdpt]
    exact Radix.walk_congr hsame q hq
  have hold : ∀ f, Radix.IsTable pageFormat 3 vm'.pdpt vm'.mem f →
      Radix.IsTable pageFormat 3 vm.pdpt vm.mem f := by
    rintro f ⟨q, hq, hwq⟩
    exact ⟨q, hq, (hwalk q hq).symm.trans hwq⟩
  refine ⟨⟨⟨fun slot hslot => ?_, ?_, fun ht => h.apart (hold _ ht), h.below⟩, rfl, ?_, ?_, ?_, ?_,
    ?_, ?_⟩, hframe⟩
  · show pageFormat.next (vm'.mem vm.pml4 slot) = some vm'.pdpt
    rw [hpdpt]
    by_cases hs : slot = 0#64
    · subst hs
      have hcell : vm'.mem vm.pml4 0#64 = e := entry_written vm vm.pml4Addr 0#64 e vm.pageCounter
      rw [hcell, Radix.Format.next_of_present (pageFormat_present_or _ hpres), hframe]
    · have hcell : vm'.mem vm.pml4 slot = vm.mem vm.pml4 slot := Radix.write_index_ne _ _ _ hs
      rw [hcell]
      exact h.root slot hslot
  · rw [hpdpt]
    refine h.tables.congr hsame (fun f hf => hf) fun f i hf => ?_
    have hf' : vm.pageCounter ≤ f := hf
    have hne : f ≠ vm.pml4 := fun heq => absurd h.below (by omega)
    rw [hmem f hne]
    exact h.tables.blank f i hf
  · intro q f hq hwq
    rw [hwalk q hq]
    exact hwq
  · intro q hq
    rw [hwalk q hq]
    simp
  · rintro f - (rfl | ht)
    · exact Or.inl rfl
    · exact Or.inr (hold f ht)
  · simp [Vm.missing, Vm.written]
  · intro v
    rw [Vm.pte, hpdpt]
    exact Radix.entry_congr hsame _ (by simp) _
  · intro f hf
    refine hmem f ?_
    rintro rfl
    exact hf (Or.inl rfl)

/-- The paths of the tables that an address needs. -/
def tablePaths (v : U64) : Finset (List U64) :=
  {[(getVirtAddrInfo v).pgDirPtrOffset], tablePath v}

theorem length_of_mem_tablePaths {v : U64} {q : List U64} (hq : q ∈ tablePaths v) :
    q.length < 3 := by
  simp only [tablePaths, Finset.mem_insert, Finset.mem_singleton] at hq
  rcases hq with rfl | rfl
  · simp
  · simp

/-- `map_physical_page` and `unmap_physical_page` find the last table of an address. -/
theorem lastTable_spec (h : vm.Paged) (v : U64)
    (hb : (lastTable (getVirtAddrInfo v) vm).2.pageCounter ≤ maxFrames) :
    vm.Updates (lastTable (getVirtAddrInfo v) vm).2 0 (tablePaths v) [] ∧
      (lastTable (getVirtAddrInfo v) vm).2.tableAt (tablePath v) =
        some (frameOf (lastTable (getVirtAddrInfo v) vm).1) := by
  obtain ⟨hroot, hpdpt⟩ := mapPageEntry_root h
  rcases h₁ : mapPageEntry vm.pml4Addr 0#64 tableFlags pageCreate vm with ⟨pdpt, vm₁⟩
  rcases h₂ : mapPageEntry pdpt (getVirtAddrInfo v).pgDirPtrOffset tableFlags pageCreate vm₁
    with ⟨pd, vm₂⟩
  have hlast : lastTable (getVirtAddrInfo v) vm =
      mapPageEntry pd (getVirtAddrInfo v).pgDirOffset tableFlags pageCreate vm₂ := by
    rw [lastTable, h₁]
    simp only [h₂]
  rw [hlast] at hb ⊢
  rw [h₁] at hroot hpdpt
  have hw₁ : vm₁.tableAt [] = some (frameOf pdpt) := by
    rw [Vm.Paged.tableAt_nil, hroot.pdpt]
    exact congrArg some hpdpt.symm
  have hb₁ : vm₂.pageCounter ≤ maxFrames := (le_pageCounter_mapPageEntry _ _ _ _ _).trans hb
  have hb₂ : (mapPageEntry pdpt (getVirtAddrInfo v).pgDirPtrOffset tableFlags pageCreate
      vm₁).2.pageCounter ≤ maxFrames := by
    rw [h₂]
    exact hb₁
  obtain ⟨hup₂, hw₂⟩ := mapPageEntry_create hroot.paged (by simp) hw₁ hb₂
  rw [h₂] at hup₂ hw₂
  obtain ⟨hup₃, hw₃⟩ := mapPageEntry_create (p := [(getVirtAddrInfo v).pgDirPtrOffset])
    hup₂.paged (by simp) hw₂ hb
  refine ⟨?_, hw₃⟩
  have htrans := (hroot.trans hup₂ (by simp)).trans hup₃ (by simp)
  have hset : ∅ ∪ {[] ++ [(getVirtAddrInfo v).pgDirPtrOffset]} ∪
      {[(getVirtAddrInfo v).pgDirPtrOffset] ++ [(getVirtAddrInfo v).pgDirOffset]} =
      tablePaths v := by
    rw [Finset.empty_union]
    rfl
  rw [hset] at htrans
  exact htrans

end Create

/-! ## One page -/

section Page

variable {vm : Vm}

/-- The entry that `map_physical_page` writes. -/
def leafEntry (flags phys : U64) : U64 :=
  pde64Present ||| (flags ||| pde64Writeable) ||| (phys &&& entryMask)

theorem leafEntry_present (flags phys : U64) :
    pageFormat.present (leafEntry flags phys) = true := by
  rw [leafEntry, BitVec.or_assoc]
  exact pageFormat_present_or _ (by decide)

/-- Writing the entry of a page in its last table. -/
theorem Vm.Paged.updates_leaf (h : vm.Paged) (v : U64) {table e : U64}
    (hw : vm.tableAt (tablePath v) = some (frameOf table)) {f : Option U64 → Option U64}
    (hf : pageFormat.read e = f (vm.pte v)) :
    vm.Updates (vm.setEntry table (tableIndex v) e) 0 ∅ [(v, f)] := by
  refine h.updates_written (n := vm.pageCounter) (by simp) hw le_rfl
    (fun hlt => absurd hlt (by simp)) (fun q hq => ?_) ?_ fun w => ?_
  · simp only [Finset.notMem_empty, iff_false]
    rintro rfl
    simp at hq
  · simp [Vm.missing]
  · simp only [updatedEntry, List.foldl_cons, List.foldl_nil, pageNumber_eq_iff w v]
    by_cases hc : tablePath w = tablePath v ∧ tableIndex w = tableIndex v
    · rw [if_pos hc, if_pos hc, hf, Vm.pte, Vm.pte, hc.1, hc.2]
    · rw [if_neg hc, if_neg hc]

/-- What `map_physical_page` does to the entry of its page. -/
def mapUpdate (phys flags : U64) (noOverwrite : Bool) (x : Option U64) : Option U64 :=
  if noOverwrite = false ∨ x = none then some (leafEntry flags phys) else x

theorem mapPhysicalPage_spec (h : vm.Paged) (v phys flags : U64) (noOverwrite : Bool)
    (hphys : phys ≠ pageCreate)
    (hb : (mapPhysicalPage v phys flags noOverwrite vm).pageCounter ≤ maxFrames) :
    vm.Updates (mapPhysicalPage v phys flags noOverwrite vm) 0 (tablePaths v)
      [(v, mapUpdate phys flags noOverwrite)] := by
  have hb' : (lastTable (getVirtAddrInfo v) vm).2.pageCounter ≤ maxFrames := by
    refine le_trans ?_ hb
    unfold mapPhysicalPage
    simp only
    split
    · exact le_pageCounter_mapPageEntry _ _ _ _ _
    · exact le_rfl
  obtain ⟨hup, hw⟩ := lastTable_spec h v hb'
  unfold mapPhysicalPage
  simp only
  clear hb
  revert hb' hup hw
  generalize lastTable (getVirtAddrInfo v) vm = r
  obtain ⟨pd2, vm'⟩ := r
  intro hb' hup hw
  have hcell : getPageEntry pd2 (getVirtAddrInfo v).pgTblOffset vm' =
      (vm'.pte v).map (· &&& entryMask) := by
    rw [getPageEntry_eq, Vm.pte, Radix.entry]
    rw [Vm.tableAt] at hw
    rw [hw]
    rfl
  have hgoal : ∀ {u : Vm}, vm'.Updates u 0 ∅ [(v, mapUpdate phys flags noOverwrite)] →
      vm.Updates u 0 (tablePaths v) [(v, mapUpdate phys flags noOverwrite)] := by
    intro u hu
    have htrans := hup.trans hu (by simp)
    rw [Finset.union_empty] at htrans
    exact htrans
  refine hgoal ?_
  by_cases hcond : noOverwrite = false ∨
      getPageEntry pd2 (getVirtAddrInfo v).pgTblOffset vm' = none
  · rw [if_pos hcond]
    unfold mapPageEntry
    rw [if_neg hphys]
    refine hup.paged.updates_leaf v hw ?_
    have hcond' : noOverwrite = false ∨ vm'.pte v = none := by simpa [hcell] using hcond
    rw [mapUpdate, if_pos hcond']
    exact if_pos (leafEntry_present flags phys)
  · rw [if_neg hcond]
    have hcond' : ¬ (noOverwrite = false ∨ vm'.pte v = none) := by simpa [hcell] using hcond
    have hrefl := Vm.Updates.refl hup.paged
    refine ⟨hrefl.paged, rfl, hrefl.keep, hrefl.absent, hrefl.old, hrefl.counter, fun w => ?_,
      hrefl.mem⟩
    simp only [updatedEntry, List.foldl_cons, List.foldl_nil]
    by_cases hwv : pageNumber w = pageNumber v
    · obtain ⟨h1, h2⟩ := (pageNumber_eq_iff w v).mp hwv
      have hpte : vm'.pte w = vm'.pte v := by rw [Vm.pte, Vm.pte, h1, h2]
      rw [if_pos hwv, hpte, mapUpdate, if_neg hcond']
    · rw [if_neg hwv]

/-- What `unmap_physical_page` does to the entry of its page. -/
def unmapUpdate (_ : Option U64) : Option U64 := none

theorem unmapPhysicalPage_spec (h : vm.Paged) (v : U64)
    (hb : (unmapPhysicalPage v vm).pageCounter ≤ maxFrames) :
    vm.Updates (unmapPhysicalPage v vm) 0 (tablePaths v) [(v, unmapUpdate)] := by
  obtain ⟨hup, hw⟩ := lastTable_spec h v hb
  have hleaf := hup.paged.updates_leaf (e := 0#64) (f := unmapUpdate) v hw rfl
  have htrans := hup.trans hleaf (by simp)
  rw [Finset.union_empty] at htrans
  exact htrans

end Page

end BufferVM
