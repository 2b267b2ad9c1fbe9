/-
  Program/Free.lean --- `free`.

  The two joins behind the search are `Chunks.release`: the headers that they write are those
  of the released block and of the free block below it, and every other one is as it was.
-/
import BufferVM.Program.FreeList

set_option autoImplicit false

namespace BufferVM

namespace Alloc

open ByteMem Chunks PtrList PtrRing

variable {m m' : GuestMem} {p q v : U64} {n : BitVec 32}

section

variable {base : U64} {start b c : Nat} {cs front back : List Chunk}

/-! ## The joins of `free` -/

/-- The end of a block. -/
theorem plus_ptrTo {a k : Nat} (h : 16 * n.toNat = k) : plus (ptrTo a) n = ptrTo (a + k) := by
  have hn := n.isLt
  subst h
  apply BitVec.eq_of_toNat_eq
  simp only [plus, ptrTo, sizeofHeader, BitVec.toNat_add, BitVec.toNat_mul, BitVec.toNat_setWidth,
    BitVec.toNat_ofNat]
  omega

/-- The sum of two sizes does not overflow. -/
theorem sixteen_add {k : BitVec 32} {a d : Nat} (hn : 16 * n.toNat = a) (hk : 16 * k.toNat = d)
    (hlt : a + d < 2 ^ 36) : 16 * (n + k).toNat = a + d := by
  rw [BitVec.toNat_add]
  omega

theorem Laid.header_middle (h : Laid m base start (front ++ ⟨.used, c⟩ :: back)) :
    IsHeader base start (front ++ ⟨.used, c⟩ :: back) (ptrTo (start + span front)) ∧
      (ptrTo (start + span front)).toNat = start + span front ∧
      16 * (sizeAt m (ptrTo (start + span front))).toNat = c := by
  have hmem : (start + span front, (⟨.used, c⟩ : Chunk)) ∈
      located start (front ++ ⟨.used, c⟩ :: back) := by simp
  have hsize := h.sized _ hmem (by simp)
  exact ⟨isHeader_middle (by simp), h.toNat_ptrTo hmem, hsize⟩

/-- The block behind which the released one belongs. -/
theorem Laid.header_lower (h : Laid m base start (front ++ ⟨.used, c⟩ :: back)) :
    IsHeader base start (front ++ ⟨.used, c⟩ :: back) (lastPtr base (freePtrs start front)) ∧
      lastPtr base (freePtrs start front) < ptrTo (start + span front) ∧
      ptrAt m (lastPtr base (freePtrs start front)) =
        headPtr base (freePtrs (start + span front + c) back) := by
  have hround := h.round
  rw [freePtrs_middle (by simp)] at hround
  refine ⟨isHeader_of_mem ?_, h.front_lt _ (lastPtr_mem_cons _ _), hround.cut⟩
  rw [freePtrs_middle (by simp), ← List.cons_append]
  exact List.mem_append_left _ (lastPtr_mem_cons _ _)

/-- Without a free chunk behind the released one the next free block is not its neighbour. -/
theorem Laid.upper_ne (h : Laid m base start (front ++ ⟨.used, c⟩ :: back)) (hnot : NotFree back) :
    ptrTo (start + span front + c) ≠ headPtr base (freePtrs (start + span front + c) back) := by
  have hbelow := h.below
  have hall : span (front ++ ⟨.used, c⟩ :: back) = span front + (c + span back) := by simp
  intro heq
  have hmem := headPtr_mem_cons base (freePtrs (start + span front + c) back)
  rw [← heq] at hmem
  have htop := Alloc.toNat_ptrTo (h.lt (a := start + span front + c) (by omega))
  rcases List.mem_cons.mp hmem with hb | hb
  · rw [hb] at htop
    omega
  · cases back with
    | nil => simp at hb
    | cons d back =>
        rw [freePtrs_cons_of_ne _ _ (hnot d (by simp))] at hb
        obtain ⟨a, ha, hab⟩ := List.mem_map.mp hb
        have hd : 0 < d.bytes := h.fine.pos d (by simp)
        have hge := frees_ge ha
        have hlt := frees_lt h.fine.append.2.tail.tail.pos ha
        rw [span_cons] at hall
        rw [← hab, Alloc.toNat_ptrTo (h.lt (by omega))] at htop
        omega

/-- Without a free chunk in front of the released one the free block below is not its
neighbour. -/
theorem Laid.lower_ne (h : Laid m base start (front ++ ⟨.used, c⟩ :: back))
    (hnot : NotFree front.reverse) :
    plus (lastPtr base (freePtrs start front)) (sizeAt m (lastPtr base (freePtrs start front))) ≠
      ptrTo (start + span front) := by
  have hbelow := h.below
  have hmid := h.header_middle.2.1
  have hall : span (front ++ ⟨.used, c⟩ :: back) = span front + (c + span back) := by simp
  rcases List.mem_cons.mp (lastPtr_mem_cons base (freePtrs start front)) with hb | hb
  · rw [hb, h.baseSize]
    intro heq
    have hplus : plus base 0#32 = base := by simp [plus]
    rw [hplus] at heq
    rw [← heq] at hmid
    omega
  · obtain ⟨a, ha, hab⟩ := List.mem_map.mp hb
    obtain ⟨x, hx, rfl⟩ := List.mem_map.mp ha
    have hx' := mem_blocks.mp hx
    have hsize := h.sized (x.1, ⟨.free, x.2⟩) (by simp [hx']) (by simp)
    rw [← hab, plus_ptrTo hsize]
    intro heq
    obtain ⟨f, r, hfront, hx1⟩ := mem_located.mp hx'
    simp only at hfront hx1
    have hspan : span front = span f + (x.2 + span r) := by rw [hfront]; simp
    rw [← heq, Alloc.toNat_ptrTo (h.lt (by simp only; omega))] at hmid
    -- then nothing lies between the two
    cases r with
    | nil =>
        rw [hfront] at hnot
        exact hnot ⟨.free, x.2⟩ (by simp) rfl
    | cons d r =>
        have hd : 0 < d.bytes := h.fine.pos d (by rw [hfront]; simp)
        rw [span_cons] at hspan
        simp only at hmid
        omega

/-- The upper neighbour is joined if it is free. -/
theorem Laid.joinUpper (h : Laid m base start (front ++ ⟨.used, c⟩ :: back)) :
    WritesAt m (joinUpper m (ptrTo (start + span front)) (lastPtr base (freePtrs start front)))
        [ptrTo (start + span front)] ∧
      16 * (sizeAt (Alloc.joinUpper m (ptrTo (start + span front))
        (lastPtr base (freePtrs start front))) (ptrTo (start + span front))).toNat =
          (absorb c back).1 ∧
      ptrAt (Alloc.joinUpper m (ptrTo (start + span front))
        (lastPtr base (freePtrs start front))) (ptrTo (start + span front)) =
          headPtr base (freePtrs (start + span front + (absorb c back).1) (absorb c back).2) := by
  obtain ⟨hbp, hval, hsize⟩ := h.header_middle
  obtain ⟨hp, hlt, hnext⟩ := h.header_lower
  have hfits := h.fits hbp
  have hne : lastPtr base (freePtrs start front) ≠ ptrTo (start + span front) := fun heq => by
    rw [heq] at hlt
    exact BitVec.lt_irrefl _ hlt
  generalize lastPtr base (freePtrs start front) = p at *
  rw [Alloc.joinUpper, plus_ptrTo hsize, hnext]
  rcases absorb_cases c back with ⟨d, rest, rfl, habsorb⟩ | ⟨hnot, habsorb⟩
  · rw [habsorb, freePtrs_cons_free, headPtr_cons, if_pos rfl]
    have hrmem : (start + span front + c, (⟨.free, d⟩ : Chunk)) ∈
        located start (front ++ ⟨.used, c⟩ :: ⟨.free, d⟩ :: rest) := by simp
    have hr : IsHeader base start (front ++ ⟨.used, c⟩ :: ⟨.free, d⟩ :: rest)
        (ptrTo (start + span front + c)) := Or.inr ⟨_, hrmem, by simp, rfl⟩
    have hrsize := h.sized _ hrmem (by simp)
    have hrne : ptrTo (start + span front + c) ≠ ptrTo (start + span front) := by
      intro heq
      have := congrArg BitVec.toNat heq
      have hc : 0 < c := h.fine.pos ⟨.used, c⟩ (by simp)
      rw [h.toNat_ptrTo hrmem, hval] at this
      simp only at this
      omega
    have hround := h.round
    rw [freePtrs_middle (by simp), freePtrs_cons_free] at hround
    have hrnext : ptrAt m (ptrTo (start + span front + c)) =
        headPtr base (freePtrs (start + span front + c + d) rest) := by
      have hcut := Round.cut (a := freePtrs start front ++ [ptrTo (start + span front + c)])
        (by simpa using hround)
      rwa [lastPtr_append_singleton] at hcut
    have hw := writesAt_setSize (m := m) (n := sizeAt m (ptrTo (start + span front)) +
      sizeAt m (ptrTo (start + span front + c))) hfits
    have hpkeep := (hw.header (h.fits hp) (by simpa using h.apart hp hbp hne)).1
    have hrkeep := (hw.header (h.fits hr) (by simpa using h.apart hr hbp hrne)).1
    simp only [hpkeep, hnext, freePtrs_cons_free, headPtr_cons, hrkeep, hrnext, ptrAt_setPtr]
    refine ⟨(hw.trans (writesAt_setPtr hfits)).mono (by simp), ?_, ?_⟩
    · rw [sizeAt_setPtr hfits, sizeAt_setSize]
      have hbound := h.bound
      refine sixteen_add hsize hrsize ?_
      simp only [span_append, span_cons] at hbound
      omega
    · rw [Nat.add_assoc (start + span front)]
  · rw [habsorb, if_neg (h.upper_ne hnot)]
    refine ⟨writesAt_setPtr hfits, ?_, ptrAt_setPtr _ _ _⟩
    rw [sizeAt_setPtr hfits, hsize]

/-- What lies behind the joined chunk was behind the released one. -/
theorem located_absorb (a c : Nat) (back : List Chunk) {x : Nat × Chunk}
    (hx : x ∈ located (a + (absorb c back).1) (absorb c back).2) : x ∈ located (a + c) back := by
  rcases absorb_cases c back with ⟨d, rest, rfl, h⟩ | ⟨-, h⟩
  · rw [h] at hx
    rw [located_cons, Nat.add_assoc]
    exact List.mem_cons_of_mem _ hx
  · rwa [h] at hx

theorem freePtrs_absorb (a c : Nat) (back : List Chunk) :
    ∃ w, freePtrs (a + c) back = w ++ freePtrs (a + (absorb c back).1) (absorb c back).2 := by
  rcases absorb_cases c back with ⟨d, rest, rfl, h⟩ | ⟨-, h⟩
  · exact ⟨[ptrTo (a + c)], by rw [h, freePtrs_cons_free, Nat.add_assoc]; rfl⟩
  · exact ⟨[], by rw [h]; rfl⟩

/-- The chunks around the released one keep their headers. -/
theorem Laid.around (h : Laid m base start (front ++ ⟨.used, c⟩ :: back)) {x : Nat × Chunk}
    (hx : x ∈ located start front ∨
      x ∈ located (start + span front + (absorb c back).1) (absorb c back).2) :
    x ∈ located start (front ++ ⟨.used, c⟩ :: back) ∧ ptrTo x.1 ≠ ptrTo (start + span front) := by
  have hc : 0 < c := h.fine.pos ⟨.used, c⟩ (by simp)
  have hmem : x ∈ located start front ∨ x ∈ located (start + span front + c) back :=
    hx.imp id (located_absorb _ _ _)
  have hall : x ∈ located start (front ++ ⟨.used, c⟩ :: back) := by
    rw [located_append, located_cons]
    simp only [List.mem_append, List.mem_cons]
    tauto
  refine ⟨hall, fun heq => ?_⟩
  have hval := congrArg BitVec.toNat heq
  rw [h.toNat_ptrTo hall, h.header_middle.2.1] at hval
  rcases hmem with hmem | hmem
  · have hbounds := located_bounds hmem
    obtain ⟨f, r, hfront, -⟩ := mem_located.mp hmem
    have hpos : 0 < x.2.bytes := h.fine.pos x.2 (by rw [hfront]; simp)
    omega
  · have hbounds := located_bounds hmem
    omega

/-- The ring without the blocks that have been joined; `mid` is what is put in their place. -/
theorem Laid.round_release (h : Laid m base start (front ++ ⟨.used, c⟩ :: back)) (mid : List U64)
    (hw : WritesAt m m' [ptrTo (start + span front), lastPtr base (freePtrs start front)])
    (hmid : List.IsChain (fun y z => ptrAt m' y = z) (lastPtr base (freePtrs start front) ::
      (mid ++ [headPtr base
        (freePtrs (start + span front + (absorb c back).1) (absorb c back).2)]))) :
    Round (ptrAt m') base (freePtrs start front ++ mid ++
      freePtrs (start + span front + (absorb c back).1) (absorb c back).2) := by
  obtain ⟨w, hcut⟩ := freePtrs_absorb (start + span front) c back
  have hround := h.round
  have hnd := h.nodup
  rw [freePtrs_middle (by simp), hcut, ← List.append_assoc] at hround
  have hsub : ∀ y ∈ base :: (freePtrs start front ++
      freePtrs (start + span front + (absorb c back).1) (absorb c back).2),
      y ∈ base :: freePtrs start (front ++ ⟨.used, c⟩ :: back) := by
    intro y hy
    rw [freePtrs_middle (by simp), hcut]
    simp only [List.mem_cons, List.mem_append] at hy ⊢
    tauto
  rw [freePtrs_middle (by simp), hcut] at hnd
  refine hround.splice mid ?_ ?_ hmid
  · refine hnd.sublist (List.Sublist.cons_cons _ ?_)
    exact (List.sublist_append_right _ _).append_left _
  · intro y hy hyp
    have hheader := isHeader_of_mem (hsub y hy)
    have hmiddle := h.header_middle.1
    have hyb : y ≠ ptrTo (start + span front) := by
      rintro rfl
      rcases List.mem_cons.mp hy with hb | hy
      · exact BitVec.lt_irrefl _ (hb ▸ h.front_lt base (by simp))
      · rcases List.mem_append.mp hy with hy | hy
        · exact BitVec.lt_irrefl _ (h.front_lt _ (by simp [hy]))
        · exact BitVec.lt_irrefl _ (h.back_gt _ (by rw [hcut]; simp [hy]))
    refine (hw.header (h.fits hheader) fun r hr => ?_).1
    simp only [List.mem_cons, List.not_mem_nil, or_false] at hr
    rcases hr with rfl | rfl
    · exact h.apart hheader hmiddle hyb
    · exact h.apart hheader h.header_lower.1 hyp

/-- What the first join leaves: the block to be released has its size, which covers the upper
neighbour if that is free, and the link to what comes behind. -/
structure JoinedUpper (m m' : GuestMem) (base : U64) (start : Nat) (front : List Chunk) (c : Nat)
    (back : List Chunk) : Prop where
  writes : WritesAt m m' [ptrTo (start + span front)]
  size : 16 * (sizeAt m' (ptrTo (start + span front))).toNat = (absorb c back).1
  next : ptrAt m' (ptrTo (start + span front)) =
    headPtr base (freePtrs (start + span front + (absorb c back).1) (absorb c back).2)

/-- Every other chunk has had its size before. -/
theorem JoinedUpper.others (hj : JoinedUpper m m' base start front c back)
    (h : Laid m base start (front ++ ⟨.used, c⟩ :: back)) {x : Nat × Chunk}
    (hx : x ∈ located start front ∨
      x ∈ located (start + span front + (absorb c back).1) (absorb c back).2)
    (hk : x.2.kind ≠ .lost) : 16 * (sizeAt m' (ptrTo x.1)).toNat = x.2.bytes := by
  obtain ⟨hall, hxne⟩ := h.around hx
  exact Sized.keeps h hj.writes (by simpa using h.header_middle.1) hall hk (by simpa using hxne)

theorem JoinedUpper.baseSize (hj : JoinedUpper m m' base start front c back)
    (h : Laid m base start (front ++ ⟨.used, c⟩ :: back)) : sizeAt m' base = 0#32 := by
  have hne : base ≠ ptrTo (start + span front) := fun heq =>
    BitVec.lt_irrefl _ (heq ▸ h.front_lt base (by simp))
  rw [(hj.writes.header (h.fits (Or.inl rfl))
    (by simpa using h.apart (Or.inl rfl) h.header_middle.1 hne)).2, h.baseSize]

/-- The block in front of the released one, and that it is another one. -/
theorem Laid.lower_fits (h : Laid m base start (front ++ ⟨.used, c⟩ :: back)) :
    Fits (lastPtr base (freePtrs start front)) 16 ∧
      lastPtr base (freePtrs start front) ≠ ptrTo (start + span front) := by
  obtain ⟨hp, hlt, -⟩ := h.header_lower
  refine ⟨h.fits hp, fun heq => ?_⟩
  rw [heq] at hlt
  exact BitVec.lt_irrefl _ hlt

theorem span_released (front : List Chunk) (c : Nat) (back : List Chunk) :
    span (release front c back) = span (front ++ ⟨.used, c⟩ :: back) := by
  rw [span_release]
  simp [Nat.add_assoc]

/-- A chunk is released into the free one in front of it. -/
theorem Laid.releasedInto {m'' : GuestMem} {a : Nat} {rest : List Chunk}
    (h : Laid m base start (rest ++ [⟨.free, a⟩] ++ ⟨.used, c⟩ :: back))
    (hj : JoinedUpper m m' base start (rest ++ [⟨.free, a⟩]) c back)
    (hw : WritesAt m' m'' [ptrTo (start + span rest)])
    (hnext : ptrAt m'' (ptrTo (start + span rest)) =
      ptrAt m' (ptrTo (start + span (rest ++ [⟨.free, a⟩]))))
    (hsize : 16 * (sizeAt m'' (ptrTo (start + span rest))).toNat = a + (absorb c back).1) :
    Laid m'' base start (rest ++ ⟨.free, a + (absorb c back).1⟩ :: (absorb c back).2) := by
  have hptr : lastPtr base (freePtrs start (rest ++ [⟨.free, a⟩])) =
      ptrTo (start + span rest) := by
    rw [freePtrs_append, freePtrs_cons_free, freePtrs_nil, lastPtr_append_singleton]
  have hb : start + span (rest ++ [⟨.free, a⟩]) = start + span rest + a := by
    simp [Nat.add_assoc]
  have hp := h.header_lower.1
  rw [hptr] at hp
  have hrel : release (rest ++ [⟨.free, a⟩]) c back =
      rest ++ ⟨.free, a + (absorb c back).1⟩ :: (absorb c back).2 := by simp [release]
  have hspan := span_released (rest ++ [⟨.free, a⟩]) c back
  have hamem : (start + span rest, (⟨.free, a⟩ : Chunk)) ∈
      located start (rest ++ [⟨.free, a⟩]) := by simp
  have haval := h.toNat_ptrTo (h.around (Or.inl hamem)).1
  simp only at haval
  refine ⟨h.below, h.room, by rw [← hrel, hspan]; exact h.bound,
    by rw [← hrel]; exact fine_release h.fine, ?_, ?_, ?_⟩
  · have hwrites : WritesAt m m'' [ptrTo (start + span (rest ++ [⟨.free, a⟩])),
        lastPtr base (freePtrs start (rest ++ [⟨.free, a⟩]))] := by
      rw [hptr]
      exact (hj.writes.trans hw).mono (by simp)
    have hround := h.round_release [] hwrites (by
      rw [hptr]
      simpa using hnext.trans hj.next)
    rw [freePtrs_append, freePtrs_cons_free, ← Nat.add_assoc, ← hb]
    rwa [List.append_nil, freePtrs_append, freePtrs_cons_free, freePtrs_nil, List.append_assoc,
      List.singleton_append] at hround
  · have hpbase : base ≠ ptrTo (start + span rest) := by
      intro heq
      have hval := congrArg BitVec.toNat heq
      have hbelow := h.below
      rw [haval] at hval
      omega
    rw [(hw.header (h.fits (Or.inl rfl)) (by simpa using h.apart (Or.inl rfl) hp hpbase)).2,
      hj.baseSize h]
  · intro x hx hk
    rw [located_append, located_cons] at hx
    simp only [List.mem_append, List.mem_cons] at hx
    have hother : x.1 ≠ start + span rest → (x ∈ located start (rest ++ [⟨.free, a⟩]) ∨
        x ∈ located (start + span (rest ++ [⟨.free, a⟩]) + (absorb c back).1)
          (absorb c back).2) → 16 * (sizeAt m'' (ptrTo x.1)).toNat = x.2.bytes := by
      intro hxne hx
      have hall := (h.around hx).1
      have hxne' : ptrTo x.1 ≠ ptrTo (start + span rest) := by
        intro heq
        have hval := congrArg BitVec.toNat heq
        rw [h.toNat_ptrTo hall, haval] at hval
        exact hxne hval
      have hxhead : IsHeader base start (rest ++ [⟨.free, a⟩] ++ ⟨.used, c⟩ :: back)
        (ptrTo x.1) := Or.inr ⟨x, hall, hk, rfl⟩
      rw [(hw.header (h.fits hxhead) (by simpa using h.apart hxhead hp hxne')).2]
      exact hj.others h hx hk
    rcases hx with hx | rfl | hx
    · have hbounds := located_bounds hx
      obtain ⟨f, r, hrest, -⟩ := mem_located.mp hx
      have hpos : 0 < x.2.bytes := h.fine.pos x.2 (by rw [hrest]; simp)
      exact hother (by omega) (Or.inl (by simp [hx]))
    · exact hsize
    · have hpos : 0 < a := h.fine.pos ⟨.free, a⟩ (by simp)
      have hbounds := located_bounds hx
      refine hother (by omega) (Or.inr ?_)
      rwa [hb, Nat.add_assoc (start + span rest)]

/-- A chunk is released into a place of its own. -/
theorem Laid.releasedAlone {m'' : GuestMem}
    (h : Laid m base start (front ++ ⟨.used, c⟩ :: back))
    (hj : JoinedUpper m m' base start front c back)
    (hw : WritesAt m' m'' [lastPtr base (freePtrs start front)])
    (hlink : ptrAt m'' (lastPtr base (freePtrs start front)) = ptrTo (start + span front))
    (hsize : sizeAt m'' (lastPtr base (freePtrs start front)) =
      sizeAt m' (lastPtr base (freePtrs start front)))
    (hrel : release front c back =
      front ++ ⟨.free, (absorb c back).1⟩ :: (absorb c back).2) :
    Laid m'' base start (front ++ ⟨.free, (absorb c back).1⟩ :: (absorb c back).2) := by
  obtain ⟨hbp, -, -⟩ := h.header_middle
  have hp := h.header_lower.1
  obtain ⟨-, hne⟩ := h.lower_fits
  have hspan := span_released front c back
  have hsame : ∀ q, IsHeader base start (front ++ ⟨.used, c⟩ :: back) q →
      sizeAt m'' q = sizeAt m' q := by
    intro q hq
    by_cases hqp : q = lastPtr base (freePtrs start front)
    · rw [hqp, hsize]
    · exact (hw.header (h.fits hq) (by simpa using h.apart hq hp hqp)).2
  refine ⟨h.below, h.room, by rw [← hrel, hspan]; exact h.bound,
    by rw [← hrel]; exact fine_release h.fine, ?_, ?_, ?_⟩
  · have hkeep := (hw.header (h.fits hbp) (by simpa using h.apart hbp hp hne.symm)).1
    have hround := h.round_release [ptrTo (start + span front)]
      ((hj.writes.trans hw).mono (by simp)) (by simp [hkeep, hj.next, hlink])
    rw [freePtrs_append, freePtrs_cons_free]
    rwa [List.append_assoc, List.singleton_append] at hround
  · rw [hsame base (Or.inl rfl), hj.baseSize h]
  · intro x hx hk
    rw [located_append, located_cons] at hx
    simp only [List.mem_append, List.mem_cons] at hx
    rcases hx with hx | rfl | hx
    · rw [hsame _ (Or.inr ⟨x, (h.around (Or.inl hx)).1, hk, rfl⟩)]
      exact hj.others h (Or.inl hx) hk
    · rw [hsame _ hbp]
      exact hj.size
    · rw [hsame _ (Or.inr ⟨x, (h.around (Or.inr hx)).1, hk, rfl⟩)]
      exact hj.others h (Or.inr hx) hk

/-- The lower neighbour is joined if it is free, and the chunks are those of `release`. -/
theorem Laid.joinLower (h : Laid m base start (front ++ ⟨.used, c⟩ :: back))
    (hj : JoinedUpper m m' base start front c back) :
    Laid (joinLower m' (ptrTo (start + span front)) (lastPtr base (freePtrs start front)))
        base start (release front c back) ∧
      WritesAt m
        (Alloc.joinLower m' (ptrTo (start + span front)) (lastPtr base (freePtrs start front)))
        [ptrTo (start + span front), lastPtr base (freePtrs start front)] ∧
      lastPtr base (freePtrs start front) ∈ base :: freePtrs start (release front c back) := by
  have hbp := h.header_middle.1
  have hp := h.header_lower.1
  obtain ⟨hpfits, hne⟩ := h.lower_fits
  rcases release_cases front c back with ⟨a, rest, rfl, hrel⟩ | ⟨hnot, hrel⟩
  · -- the free chunk in front
    have hptr : lastPtr base (freePtrs start (rest ++ [⟨.free, a⟩])) =
        ptrTo (start + span rest) := by
      rw [freePtrs_append, freePtrs_cons_free, freePtrs_nil, lastPtr_append_singleton]
    have hb : start + span (rest ++ [⟨.free, a⟩]) = start + span rest + a := by
      simp [Nat.add_assoc]
    have hasize := hj.others h (x := (start + span rest, ⟨.free, a⟩)) (Or.inl (by simp))
      (by simp)
    simp only at hasize
    have hjoin : plus (ptrTo (start + span rest)) (sizeAt m' (ptrTo (start + span rest))) =
        ptrTo (start + span (rest ++ [⟨.free, a⟩])) := by
      rw [plus_ptrTo hasize, hb]
    rw [hptr] at hp hpfits hne ⊢
    rw [Alloc.joinLower, if_pos hjoin]
    have hw1 := writesAt_setSize (m := m') (n := sizeAt m' (ptrTo (start + span rest)) +
      sizeAt m' (ptrTo (start + span (rest ++ [⟨.free, a⟩])))) hpfits
    have hkeep := (hw1.header (h.fits hbp) (by simpa using h.apart hbp hp hne.symm)).1
    simp only [hkeep]
    have hw2 := hw1.trans (writesAt_setPtr (v := ptrAt m' (ptrTo (start + span
      (rest ++ [⟨.free, a⟩])))) hpfits)
    have hlater := hw2.mono (show _ ⊆ [ptrTo (start + span rest)] by simp)
    refine ⟨?_, (hj.writes.trans hlater).mono (by simp), ?_⟩
    · rw [hrel]
      refine h.releasedInto hj hlater (ptrAt_setPtr _ _ _) ?_
      rw [sizeAt_setPtr hpfits, sizeAt_setSize]
      refine sixteen_add hasize hj.size ?_
      have hbound := h.bound
      rw [← span_released, hrel] at hbound
      simp only [span_append, span_cons] at hbound
      omega
    · rw [hrel, freePtrs_append, freePtrs_cons_free]
      simp
  · have hsame : sizeAt m' (lastPtr base (freePtrs start front)) =
        sizeAt m (lastPtr base (freePtrs start front)) :=
      (hj.writes.header hpfits (by simpa using h.apart hp hbp hne)).2
    have hw := writesAt_setPtr (m := m') (v := ptrTo (start + span front)) hpfits
    rw [Alloc.joinLower, if_neg (by rw [hsame]; exact h.lower_ne hnot)]
    refine ⟨?_, (hj.writes.trans hw).mono (by simp), ?_⟩
    · rw [hrel]
      exact h.releasedAlone hj hw (ptrAt_setPtr _ _ _) (sizeAt_setPtr hpfits) hrel
    · rw [hrel, freePtrs_append, ← List.cons_append]
      exact List.mem_append_left _ (lastPtr_mem_cons _ _)

/-! ## `free` -/

variable {κ : Type}

/-- A byte of the program's own: in a block behind its header, or neither in the heap nor in
`base`. -/
def Owns (base : U64) (start : Nat) (cs : List Chunk) (x : U64) : Prop :=
  (∃ y ∈ blocks .used start cs, y.1 + 16 ≤ x.toNat ∧ x.toNat < y.1 + y.2) ∨
    ((x.toNat < start ∨ start + span cs ≤ x.toNat) ∧
      (x.toNat < base.toNat ∨ base.toNat + 16 ≤ x.toNat))

/-- A heap that has the blocks of another one, and at most new bytes at its end. -/
theorem Owns.mono {x : U64} {ds : List Chunk} (hx : Owns base start cs x)
    (hblocks : ∀ y ∈ blocks .used start cs, y ∈ blocks .used start ds)
    (hout : x.toNat < start + span cs ∨ start + span ds ≤ x.toNat) : Owns base start ds x := by
  rcases hx with ⟨y, hy, h1, h2⟩ | ⟨h1, h2⟩
  · exact Or.inl ⟨y, hblocks y hy, h1, h2⟩
  · exact Or.inr ⟨by omega, h2⟩

/-- The program's bytes are not in the header of a block. -/
theorem Laid.owns_header (h : Laid m base start cs) {x : U64} (hx : Owns base start cs x)
    (hq : IsHeader base start cs q) : x.toNat < q.toNat ∨ q.toNat + 16 ≤ x.toNat := by
  have hbelow := h.below
  rcases hq with rfl | ⟨y, hy, hk, rfl⟩
  · rcases hx with ⟨z, hz, h1, h2⟩ | ⟨h1, h2⟩
    · have hbounds := blocks_bounds hz
      omega
    · exact h2
  · rw [h.toNat_ptrTo hy]
    have hbounds := located_bounds hy
    have hbytes := h.bytes_ge hy hk
    rcases hx with ⟨z, hz, h1, h2⟩ | ⟨h1, h2⟩
    · have hz' := mem_blocks.mp hz
      by_cases heq : y = (z.1, ⟨.used, z.2⟩)
      · rw [heq]
        simp only
        omega
      · have hapart := located_apart hy hz' heq
        simp only at hapart
        omega
    · omega

/-- The program's bytes are not in a free chunk. -/
theorem owns_free {x : U64} (hx : Owns base start cs x) {y : Nat × Chunk}
    (hy : y ∈ located start cs) (hk : y.2.kind = .free) :
    x.toNat < y.1 ∨ y.1 + y.2.bytes ≤ x.toNat := by
  have hbounds := located_bounds hy
  rcases hx with ⟨z, hz, h1, h2⟩ | ⟨h1, -⟩
  · have hne : y ≠ (z.1, ⟨.used, z.2⟩) := by
      rintro rfl
      simp at hk
    have hapart := located_apart hy (mem_blocks.mp hz) hne
    simp only at hapart
    omega
  · omega

/-- Writes to headers keep the program's bytes. -/
theorem Laid.owns_keeps (h : Laid m base start cs) {qs : List U64} (hw : WritesAt m m' qs)
    (hqs : ∀ q ∈ qs, IsHeader base start cs q) {x : U64} (hx : Owns base start cs x) :
    m' x = m x := hw x fun q hq => h.owns_header hx (hqs q hq)

/-- **`free`** of a block ends, and releases its chunk and nothing else. -/
theorem Laid.free {g : Program κ} (h : Laid g.mem base start (front ++ ⟨.used, c⟩ :: back))
    (hentry : g.freep ∈ base :: freePtrs start (front ++ ⟨.used, c⟩ :: back)) {fuel : Nat}
    (hfuel : (freePtrs start (front ++ ⟨.used, c⟩ :: back)).length < fuel) :
    ∃ g' : Program κ, free fuel (ptrTo (start + span front) + sizeofHeader) g = .ok g' ∧
      Laid g'.mem base start (release front c back) ∧
      g'.freep ∈ base :: freePtrs start (release front c back) ∧
      (∀ x, Owns base start (front ++ ⟨.used, c⟩ :: back) x → g'.mem x = g.mem x) ∧
      g'.curbrk = g.curbrk ∧ g'.kern = g.kern := by
  obtain ⟨hw, hsize, hnext⟩ := h.joinUpper
  obtain ⟨hlaid, hwrites, hmem⟩ := h.joinLower ⟨hw, hsize, hnext⟩
  have hsearch := h.freeSearch hentry hfuel
  have hbp := h.header_middle.1
  have hlower := h.header_lower.1
  have hfree : Alloc.free fuel (ptrTo (start + span front) + sizeofHeader) g =
      .ok { g with
        mem := Alloc.joinLower (Alloc.joinUpper g.mem (ptrTo (start + span front))
          (lastPtr base (freePtrs start front))) (ptrTo (start + span front))
          (lastPtr base (freePtrs start front))
        freep := lastPtr base (freePtrs start front) } := by
    rw [Alloc.free, BitVec.add_sub_cancel, hsearch]
    rfl
  generalize Alloc.joinLower (Alloc.joinUpper g.mem (ptrTo (start + span front))
    (lastPtr base (freePtrs start front))) (ptrTo (start + span front))
    (lastPtr base (freePtrs start front)) = joined at hfree hlaid hwrites
  refine ⟨_, hfree, hlaid, hmem, fun x hx => h.owns_keeps hwrites ?_ hx, rfl, rfl⟩
  intro q hq
  simp only [List.mem_cons, List.not_mem_nil, or_false] at hq
  rcases hq with rfl | rfl
  · exact hbp
  · exact hlower

end

end Alloc

end BufferVM
