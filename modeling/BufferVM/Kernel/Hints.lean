/-
  Kernel/Hints.lean --- address hints.

  `get_unmapped_area_unchecked` takes a hint when the search finds nothing in the way, and
  otherwise runs off its end: what the caller gets then is the value `stray`, which passes
  the two tests of `get_unmapped_area` whenever it is a low enough page address.  The limit
  `kernel_min_address - length` wraps around for a length above `kernel_min_address`.
-/
import BufferVM.Kernel.GapSearch
import BufferVM.Kernel.SimCalls

set_option autoImplicit false

namespace BufferVM

variable {σ η : Type} {s t : St σ η} {E : Env σ η} {length : U64}

/-! ## Free ranges below the limit -/

/-- The range is in no VMA and below `kernel_min_address`. -/
def FreeBelow (s : St σ η) (length a : U64) : Prop :=
  a.toNat + length.toNat ≤ s.glob.kernelMinAddress.toNat ∧ FreeAt s length a

/-- The test of `get_unmapped_area_unchecked` on a hint. -/
def HintTaken (s : St σ η) (length a : U64) : Prop :=
  a ≤ s.glob.kernelMinAddress - length ∧
    ∀ r, s.firstAbove a = some r → a + length ≤ r.startAddr

/-- Everything in front of the first VMA that ends above an address ends at or below it. -/
theorem firstAbove_eq_some (hs : Sorted s.regions) {a : U64} {r : VmRegion}
    (h : s.firstAbove a = some r) :
    r ∈ s.regions ∧ a < r.endAddr ∧
      ∀ x ∈ s.regions, x.endAddr ≤ a ∨ r.startAddr ≤ x.startAddr := by
  have hcut := below_append_above a s.space.areas
  have hsort : Sorted s.space.regions := by rw [St.space_regions]; exact hs
  obtain ⟨x, hx, rfl⟩ := Option.map_eq_some_iff.mp h
  obtain ⟨l, hl⟩ := List.head?_eq_some_iff.mp hx
  have hmem : x ∈ above a s.space.areas := by rw [hl]; simp
  refine ⟨?_, lt_end_of_mem_above hsort hmem, fun y hy => ?_⟩
  · rw [← St.space_regions]
    exact List.mem_map_of_mem (hcut ▸ List.mem_append_right _ hmem)
  · rw [← St.space_regions] at hy
    obtain ⟨z, hz, rfl⟩ := List.mem_map.mp hy
    rw [← hcut] at hz
    rcases List.mem_append.mp hz with hz | hz
    · exact Or.inl (end_le_of_mem_below hz)
    · rw [hl] at hz
      rcases List.mem_cons.mp hz with rfl | hz
      · exact Or.inr (BitVec.le_refl _)
      · rw [Space.regions, ← hcut, hl, List.map_append, List.map_cons] at hsort
        have h1 := hsort.around.2
        have h2 := (h1.2 _ (List.mem_map_of_mem hz)).1
        right
        have h3 := h1.1
        bv_omega

/-- A free range below the limit passes the test. -/
theorem FreeBelow.taken (hs : Sorted s.regions) (hlen : length ≠ 0#64) {a : U64}
    (h : FreeBelow s length a) : HintTaken s length a := by
  obtain ⟨hle, hfree⟩ := h
  refine ⟨by bv_omega, fun r hr => ?_⟩
  obtain ⟨hmem, hend, -⟩ := firstAbove_eq_some hs hr
  have hlt := hs.lt r hmem
  have hk := s.glob.kernelMinAddress.isLt
  by_contra hover
  by_cases hin : a ≤ r.startAddr
  · exact hfree r.startAddr hin (by bv_omega) ⟨r, hmem, BitVec.le_refl _, hlt⟩
  · exact hfree a (BitVec.le_refl _) (by bv_omega) ⟨r, hmem, by bv_omega, hend⟩

/-! ## `get_unmapped_area` with a hint -/

/-- What `get_unmapped_area` makes of the value `stray`. -/
def strayChecked (s : St σ η) (stray length : U64) : U64 :=
  if s.glob.kernelMinAddress - length < stray then eNOMEM
  else if pageOffset stray ≠ 0#64 then eINVAL
  else stray

theorem pageOffset_pageAlign (x : U64) : pageOffset (pageAlign x) = 0#64 := by
  rw [pageOffset_eq_zero_iff, toNat_pageAlign]
  omega

section Hint

variable {stray addr flags : U64}

theorem getUnmappedArea_taken (hwf : WellFormed s) (haddr : addr ≠ 0#64)
    (hflags : flags &&& mapFixed = 0#64) (h : HintTaken s length (pageAlign addr)) :
    getUnmappedArea stray addr length flags s = some (pageAlign addr) := by
  obtain ⟨p, hfind, hfirst⟩ := hwf.vmaFind (pageAlign addr)
  obtain ⟨hle, hroom⟩ := h
  have hclear : p = 0#64 ∨ pageAlign addr + length ≤ (s.region p).startAddr := by
    by_cases hp : p = 0#64
    · exact Or.inl hp
    · rw [if_neg hp] at hfirst
      exact Or.inr (hroom _ hfirst)
  have hlimit : ¬ s.glob.kernelMinAddress - length < pageAlign addr := by bv_omega
  simp only [getUnmappedArea, hflags, ne_eq, not_true_eq_false, if_false,
    getUnmappedAreaUnchecked, if_true, haddr, not_false_eq_true, hfind, Option.bind_eq_bind,
    Option.bind_some, hle, hclear, and_self, hlimit, pageOffset_pageAlign]

theorem getUnmappedArea_stray (hwf : WellFormed s) (haddr : addr ≠ 0#64)
    (hflags : flags &&& mapFixed = 0#64) (h : ¬ HintTaken s length (pageAlign addr)) :
    getUnmappedArea stray addr length flags s = some (strayChecked s stray length) := by
  obtain ⟨p, hfind, hfirst⟩ := hwf.vmaFind (pageAlign addr)
  have hno : ¬ (pageAlign addr ≤ s.glob.kernelMinAddress - length ∧
      (p = 0#64 ∨ pageAlign addr + length ≤ (s.region p).startAddr)) := by
    rintro ⟨hle, hclear⟩
    refine h ⟨hle, fun r hr => ?_⟩
    by_cases hp : p = 0#64
    · rw [hfirst, if_pos hp] at hr
      cases hr
    · rw [hfirst, if_neg hp] at hr
      obtain rfl := Option.some.inj hr
      exact hclear.resolve_left hp
  simp only [getUnmappedArea, hflags, ne_eq, not_true_eq_false, if_false,
    getUnmappedAreaUnchecked, if_true, haddr, not_false_eq_true, hfind, Option.bind_eq_bind,
    Option.bind_some, if_neg hno, strayChecked]
  split
  · rfl
  · split <;> rfl

/-- `get_unmapped_area` does with a hint what it is to do: a free range below the limit is
taken, and otherwise the result is the page address of such a range or an error. -/
def HintRespected (stray addr length flags : U64) (s : St σ η) : Prop :=
  ∃ r, getUnmappedArea stray addr length flags s = some r ∧
    (FreeBelow s length (pageAlign addr) → r = pageAlign addr) ∧
    (¬ FreeBelow s length (pageAlign addr) →
      (pageOffset r = 0#64 ∧ FreeBelow s length r) ∨ isErrValue r = true)

/-- Every VMA of the first store is inside one of the second. -/
def KeepsVmas (s t : St σ η) : Prop :=
  ∀ r ∈ s.regions, ∃ k ∈ t.regions, k.startAddr ≤ r.startAddr ∧ r.endAddr ≤ k.endAddr

/-- The value `stray` is refused, or is the page address of a free range below the limit. -/
def StrayHarmless (stray length : U64) (s : St σ η) : Prop :=
  s.glob.kernelMinAddress - length < stray ∨ pageOffset stray ≠ 0#64 ∨ FreeBelow s length stray

theorem hintRespected_iff (hwf : WellFormed s) (haddr : addr ≠ 0#64) (hlen : length ≠ 0#64)
    (hflags : flags &&& mapFixed = 0#64) :
    HintRespected stray addr length flags s ↔
      FreeBelow s length (pageAlign addr) ∨
        (¬ HintTaken s length (pageAlign addr) ∧ StrayHarmless stray length s) := by
  by_cases hfree : FreeBelow s length (pageAlign addr)
  · have htaken := hfree.taken hwf.sorted hlen
    refine ⟨fun _ => Or.inl hfree, fun _ => ?_⟩
    exact ⟨_, getUnmappedArea_taken hwf haddr hflags htaken, fun _ => rfl, fun h => absurd hfree h⟩
  · by_cases htaken : HintTaken s length (pageAlign addr)
    · -- the limit has wrapped around: the hint is taken as it is
      have hrun : getUnmappedArea stray addr length flags s = some (pageAlign addr) :=
        getUnmappedArea_taken hwf haddr hflags htaken
      constructor
      · rintro ⟨r, hr, -, hbad⟩
        obtain rfl := Option.some.inj (hrun.symm.trans hr)
        rcases hbad hfree with h | h
        · exact absurd h.2 hfree
        · refine absurd ?_ (not_aligned_of_isErrValue h)
          exact (pageOffset_eq_zero_iff _).mp (pageOffset_pageAlign addr)
      · rintro (h | h)
        · exact absurd h hfree
        · exact absurd htaken h.1
    · have hrun : getUnmappedArea stray addr length flags s = some (strayChecked s stray length) :=
        getUnmappedArea_stray hwf haddr hflags htaken
      constructor
      · rintro ⟨r, hr, -, hbad⟩
        obtain rfl := Option.some.inj (hrun.symm.trans hr)
        refine Or.inr ⟨htaken, ?_⟩
        by_cases h1 : s.glob.kernelMinAddress - length < stray
        · exact Or.inl h1
        by_cases h2 : pageOffset stray = 0#64
        · rw [strayChecked, if_neg h1, if_neg (by simp [h2])] at hbad
          rcases hbad hfree with h | h
          · exact Or.inr (Or.inr h.2)
          · exact absurd ((pageOffset_eq_zero_iff _).mp h2) (not_aligned_of_isErrValue h)
        · exact Or.inr (Or.inl h2)
      · rintro (h | ⟨-, hstray⟩)
        · exact absurd h hfree
        · refine ⟨_, hrun, fun h => absurd h hfree, fun _ => ?_⟩
          rw [strayChecked]
          split
          · exact Or.inr (by decide)
          · split
            · exact Or.inr (by decide)
            · rename_i h1 h2
              refine Or.inl ⟨by simpa using h2, ?_⟩
              exact (hstray.resolve_left h1).resolve_left h2

end Hint

/-! ## `syscall_mmap` with a hint -/

theorem keepsVmas_of_areas {A B : Space σ η} (hs : s.space.areas = A.areas)
    (ht : t.space.areas = B.areas)
    (h : ∀ y ∈ A.areas, ∃ x ∈ B.areas, x.2.startAddr ≤ y.2.startAddr ∧ y.2.endAddr ≤ x.2.endAddr) :
    KeepsVmas s t := by
  intro r hr
  rw [← St.space_regions, Space.regions, hs] at hr
  obtain ⟨y, hy, rfl⟩ := List.mem_map.mp hr
  obtain ⟨x, hx, hxy⟩ := h y hy
  refine ⟨x.2, ?_, hxy⟩
  rw [← St.space_regions, Space.regions, ht]
  exact List.mem_map_of_mem hx

/-- A request that is placed in a free range takes nothing away. -/
theorem place_keeps {A : Space σ η} {q : Request} (hs : Sorted A.regions) (hlt : q.addr < q.end')
    (hfree : ∀ x ∈ A.areas, x.2.endAddr ≤ q.addr ∨ q.end' ≤ x.2.startAddr) :
    ∀ y ∈ A.areas, ∃ x ∈ (A.place E q).areas,
      x.2.startAddr ≤ y.2.startAddr ∧ y.2.endAddr ≤ x.2.endAddr := by
  obtain ⟨l₁, m, l₂, x, hpl⟩ := placedIn_place E hs hlt hfree
  intro y hy
  have hylt := hs.lt y.2 (List.mem_map_of_mem hy)
  rw [hpl.old] at hy
  rw [hpl.new]
  have hside : y ∈ m ∨ y ∈ l₁ ++ x :: l₂ := by
    simp only [List.mem_append, List.mem_cons] at hy ⊢
    tauto
  rcases hside with hy | hy
  · -- the joined area covers the first and the last address of the old one
    have h1 := (hpl.covers y.2.startAddr).mpr (Or.inl ⟨y, hy, BitVec.le_refl _, hylt⟩)
    have h2 := (hpl.covers (y.2.endAddr - 1#64)).mpr (Or.inl ⟨y, hy, by bv_omega, by bv_omega⟩)
    have h3 := h1.1
    have h4 := h2.2
    exact ⟨x, by simp, h3, by bv_omega⟩
  · exact ⟨y, hy, BitVec.le_refl _, BitVec.le_refl _⟩

/-- Every `syscall_mmap` whose page-aligned length is the given one keeps the VMAs. -/
def MmapKeeps (E : Env σ η) (stray addr length flags : U64) (s : St σ η) : Prop :=
  ∀ (len prot : U64) (fd : BitVec 32) (offset v : U64) (t : St σ η), pageAlign len = length →
    syscallMmap E stray addr len prot flags fd offset s = some (v, t) → KeepsVmas s t

theorem HintRespected.mmapKeeps {F : E.toNodeHeap.Fresh} {stray addr flags : U64}
    (h : HintRespected stray addr length flags s) (hl : Linked F s) (hav : 1 ≤ F.avail s.heap)
    (hal : EdgesIn (fun x => x.toNat % 4096 = 0) s.space) :
    MmapKeeps E stray addr length flags s := by
  rintro len prot fd offset v t rfl hcall
  obtain ⟨r, hr, hhint, hother⟩ := h
  rw [syscallMmap_eq] at hcall
  obtain ⟨⟨x, host⟩, hprep, hcall⟩ := Option.bind_eq_some_iff.mp hcall
  have hareas : (St.space { s with host := host }).areas = s.space.areas := by
    rw [(hl.withHost host).2]
  cases x with
  | none =>
      obtain ⟨-, rfl⟩ := Prod.mk.inj (Option.some.inj hcall)
      exact keepsVmas_of_areas rfl hareas fun y hy => ⟨y, hy, BitVec.le_refl _, BitVec.le_refl _⟩
  | some q =>
      obtain ⟨hqlen, hq0, -, hqaddr, -⟩ := mmapPrepare_length hprep
      obtain rfl := Option.some.inj (hr.symm.trans hqaddr)
      obtain ⟨⟨v', p, t'⟩, hrun, heq⟩ := Option.map_eq_some_iff.mp hcall
      obtain ⟨rfl, rfl⟩ := Prod.mk.inj heq
      have hlinked := (hl.withHost host).1
      have hcases : FreeBelow s q.length q.addr ∨ isErrValue q.addr = true := by
        rw [hqlen]
        by_cases hf : FreeBelow s (pageAlign len) (pageAlign addr)
        · rw [hhint hf]
          exact Or.inl hf
        · exact (hother hf).imp_left And.right
      rcases hcases with ⟨hle, hfree⟩ | herr
      · have hk := s.glob.kernelMinAddress.isLt
        have hend : q.end'.toNat = q.addr.toNat + q.length.toNat := by
          rw [Request.end', BitVec.toNat_add, Nat.mod_eq_of_lt (by omega)]
        have hlt : q.addr < q.end' := by bv_omega
        have hroom : ∀ x ∈ s.space.areas, x.2.endAddr ≤ q.addr ∨ q.end' ≤ x.2.startAddr := by
          intro x hx
          have hxlt := hl.sound.sorted.lt x.2 (List.mem_map_of_mem hx)
          have hmem : x.2 ∈ s.regions := by
            rw [← St.space_regions]
            exact List.mem_map_of_mem hx
          by_contra hover
          rw [not_or] at hover
          by_cases hin : q.addr ≤ x.2.startAddr
          · exact hfree x.2.startAddr hin (by bv_omega) ⟨x.2, hmem, BitVec.le_refl _, hxlt⟩
          · exact hfree q.addr (BitVec.le_refl _) (by bv_omega)
              ⟨x.2, hmem, by bv_omega, by bv_omega⟩
        obtain ⟨t', p', hrun', -, -, hsp⟩ := hlinked.run_free (E := E) (q := q) (by exact hav) hlt
          (by rw [hareas]; exact hroom)
        rw [hrun] at hrun'
        obtain ⟨-, -, rfl⟩ := by simpa using hrun'
        refine keepsVmas_of_areas hareas.symm (congrArg Space.areas hsp) ?_
        exact place_keeps hlinked.sound.sorted hlt (by rw [hareas]; exact hroom)
      · obtain ⟨p', r', t', hrun', hsp⟩ := hlinked.run_isErrValue (E := E) (q := q)
          (fun x hx => hal x (hareas ▸ hx)) (by exact hav) herr
        rw [hrun] at hrun'
        obtain ⟨-, -, rfl⟩ := by simpa using hrun'
        rw [hareas] at hsp
        refine keepsVmas_of_areas (B := { s.space with areas := s.space.areas ++
          [(p', r')] }) rfl hsp
          fun y hy => ⟨y, List.mem_append_left _ hy, BitVec.le_refl _, BitVec.le_refl _⟩

/-- **Address hints never disturb existing mappings** exactly when the hinted range is free
and below the limit, or the hint is not taken and the value that the caller gets then is
refused or free. -/
theorem hint_keeps_iff (F : E.toNodeHeap.Fresh) (s : St σ η) (hwf : WellFormed s)
    (hb : RootBlack s) (ho : NodesOwned F s) (hav : 1 ≤ F.avail s.heap)
    (hal : ∀ r ∈ s.regions, r.startAddr.toNat % 4096 = 0 ∧ r.endAddr.toNat % 4096 = 0)
    (stray addr length flags : U64) (haddr : addr ≠ 0#64) (hlen : length ≠ 0#64)
    (hflags : flags &&& mapFixed = 0#64) :
    (HintRespected stray addr length flags s ∧ MmapKeeps E stray addr length flags s) ↔
      FreeBelow s length (pageAlign addr) ∨
        (¬ HintTaken s length (pageAlign addr) ∧ StrayHarmless stray length s) := by
  have hl : Linked F s := Valid.linked F ⟨hwf, hb⟩ ho
  have hedges : EdgesIn (fun x => x.toNat % 4096 = 0) s.space := by
    intro x hx
    refine hal x.2 ?_
    rw [← St.space_regions]
    exact List.mem_map_of_mem hx
  rw [← hintRespected_iff hwf haddr hlen hflags]
  exact ⟨And.left, fun h => ⟨h, h.mmapKeeps hl hav hedges⟩⟩

/-- `MAP_PRIVATE | MAP_ANONYMOUS`. -/
def hintedAnonymous : U64 := mapPrivate ||| mapAnonymous

theorem regions_oneVmaStore :
    (oneVmaStore .black).regions.map (fun r => (r.startAddr, r.endAddr)) =
      [(0x1000#64, 0x5000#64)] := by
  decide +kernel

theorem covered_oneVmaStore {a : U64} :
    (oneVmaStore .black).Covered a ↔ 0x1000#64 ≤ a ∧ a < 0x5000#64 := by
  have hmap := regions_oneVmaStore
  obtain ⟨r, hr, hbounds⟩ := List.map_eq_singleton_iff.mp hmap
  obtain ⟨h1, h2⟩ := Prod.mk.inj hbounds
  rw [St.Covered, hr]
  simp [VmRegion.Covers, h1, h2]

/-- A hint behind the only VMA of the small machine, not at a page address. -/
theorem hint_keeps_iff_free :
    HintRespected 0x1000#64 0x7800#64 0x1000#64 hintedAnonymous (oneVmaStore .black) ∧
      MmapKeeps quietEnv 0x1000#64 0x7800#64 0x1000#64 hintedAnonymous (oneVmaStore .black) := by
  refine (hint_keeps_iff (E := quietEnv) bumpFresh (oneVmaStore .black)
    (wellFormed_oneVmaStore .black) (fun _ => by decide +kernel) (nodesOwned_oneVmaStore .black)
    (by decide +kernel) (fun r hr => ?_) 0x1000#64 0x7800#64 0x1000#64 hintedAnonymous (by decide)
    (by decide) (by decide)).mpr (Or.inl ⟨by decide, fun x h1 h2 => ?_⟩)
  · have hmem := List.mem_map_of_mem (f := fun r => (r.startAddr, r.endAddr)) hr
    rw [regions_oneVmaStore, List.mem_singleton] at hmem
    obtain ⟨h1, h2⟩ := Prod.mk.inj hmem
    rw [h1, h2]
    decide
  · have hpage : pageAlign 0x7800#64 = 0x8000#64 := by decide
    rw [hpage] at h1
    rw [covered_oneVmaStore]
    bv_omega

/-- A hint that is taken by the only VMA of the small machine, with the start of that VMA
left in the return register: `get_unmapped_area` returns the address of the VMA, and the
mapping removes its first page.  And a length above `kernel_min_address`: the hint is
returned although the range does not end below it. -/
theorem hint_returns_taken :
    getUnmappedArea 0x1000#64 0x2000#64 0x1000#64 hintedAnonymous (oneVmaStore .black) =
        some 0x1000#64 ∧
      ¬ HintRespected 0x1000#64 0x2000#64 0x1000#64 hintedAnonymous (oneVmaStore .black) ∧
      ¬ MmapKeeps quietEnv 0x1000#64 0x2000#64 0x1000#64 hintedAnonymous (oneVmaStore .black) ∧
      getUnmappedArea 0#64 0x8000#64 0x11000#64 hintedAnonymous (oneVmaStore .black) =
        some 0x8000#64 ∧
      ¬ HintRespected 0#64 0x8000#64 0x11000#64 hintedAnonymous (oneVmaStore .black) := by
  have hrun₁ : getUnmappedArea 0x1000#64 0x2000#64 0x1000#64 hintedAnonymous
      (oneVmaStore .black) = some 0x1000#64 := by decide +kernel
  have hrun₂ : getUnmappedArea 0#64 0x8000#64 0x11000#64 hintedAnonymous
      (oneVmaStore .black) = some 0x8000#64 := by decide +kernel
  have hmap : (syscallMmap quietEnv 0x1000#64 0x2000#64 0x1000#64 protRead hintedAnonymous noFd
      0#64 (oneVmaStore .black)).map
        (fun x => x.2.regions.map fun r => (r.startAddr, r.endAddr)) =
      some [(0x1000#64, 0x2000#64), (0x2000#64, 0x5000#64)] := by decide +kernel
  -- a page of the VMA is neither free nor an error
  have hbusy : ∀ a, a = 0x1000#64 ∨ a = 0x2000#64 →
      ¬ FreeBelow (oneVmaStore .black) 0x1000#64 a := by
    rintro a (rfl | rfl) ⟨-, hfree⟩
    · exact hfree 0x1000#64 (by decide) (by decide) (covered_oneVmaStore.mpr (by decide))
    · exact hfree 0x2000#64 (by decide) (by decide) (covered_oneVmaStore.mpr (by decide))
  refine ⟨hrun₁, ?_, ?_, hrun₂, ?_⟩
  · rintro ⟨r, hr, -, hother⟩
    obtain rfl := Option.some.inj (hrun₁.symm.trans hr)
    rcases hother (hbusy _ (Or.inr (by decide))) with h | h
    · exact hbusy _ (Or.inl rfl) h.2
    · exact absurd h (by decide)
  · intro hkeeps
    obtain ⟨⟨v, t⟩, ht, hregions⟩ := Option.map_eq_some_iff.mp hmap
    obtain ⟨r, hr, hbounds⟩ := List.map_eq_singleton_iff.mp regions_oneVmaStore
    obtain ⟨h1, h2⟩ := Prod.mk.inj hbounds
    obtain ⟨k, hk, hk1, hk2⟩ := hkeeps 0x1000#64 protRead noFd 0#64 v t
      (by decide) ht r (by simp [hr])
    have hmem := List.mem_map_of_mem (f := fun r => (r.startAddr, r.endAddr)) hk
    rw [hregions] at hmem
    rw [h1] at hk1
    rw [h2] at hk2
    simp only [List.mem_cons, Prod.mk.injEq, List.not_mem_nil, or_false] at hmem
    rcases hmem with ⟨h3, h4⟩ | ⟨h3, h4⟩
    · rw [h4] at hk2
      exact absurd hk2 (by decide)
    · rw [h3] at hk1
      exact absurd hk1 (by decide)
  · have hlong : ∀ a, ¬ FreeBelow (oneVmaStore .black) 0x11000#64 a := by
      rintro a ⟨hle, -⟩
      have hlimit : (oneVmaStore .black).glob.kernelMinAddress = 0x10000#64 := by decide +kernel
      rw [hlimit] at hle
      have : (0x11000#64 : U64).toNat = 0x11000 := by decide
      have : (0x10000#64 : U64).toNat = 0x10000 := by decide
      omega
    rintro ⟨r, hr, -, hother⟩
    obtain rfl := Option.some.inj (hrun₂.symm.trans hr)
    rcases hother (hlong _) with h | h
    · exact hlong _ h.2
    · exact absurd h (by decide)

end BufferVM
