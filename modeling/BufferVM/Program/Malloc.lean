/-
  Program/Malloc.lean --- `sbrk`, `morecore` and `malloc`.

  `BrkSpec` is what `sbrk.c` relies on of the system call.  When no block is large enough
  `morecore` adds one, and then the second round of the loop ends at a block.
-/
import BufferVM.Program.HandOut

set_option autoImplicit false

namespace BufferVM

namespace Alloc

open ByteMem Chunks PtrList PtrRing

variable {κ : Type} {I : Image κ} {m m' : GuestMem} {p q prevp : U64} {n : BitVec 32}
  {base : U64} {start b k : Nat} {cs front back : List Chunk}

/-! ## The kernel -/

/-- What `sbrk` relies on: the first `_brk(0)` gives the start of the heap, and a higher
argument is refused with the old break or granted with one that is not below it. -/
structure BrkSpec (I : Image κ) where
  start : Nat
  /-- The program has not asked for its break. -/
  Ready : κ → Prop
  /-- The break is known to the kernel. -/
  Ok : κ → U64 → Prop
  base_ne : I.base ≠ 0#64
  below : I.base.toNat + 16 ≤ start
  room : start + 2 ^ 37 ≤ 2 ^ 64
  first : ∀ {s t : κ} {c : U64}, Ready s → I.brk 0#64 s = some (c, t) → c.toNat = start ∧ Ok t c
  next : ∀ {s t : κ} {c e r : U64}, Ok s c → c < e → I.brk e s = some (r, t) →
    Ok t r ∧ (r = c ∨ (e ≤ r ∧ r ≠ -1#64))

/-- The allocator between two calls, with the chunks of its heap. -/
structure Sound (S : BrkSpec I) (g : Program κ) (cs : List Chunk) : Prop where
  laid : Laid g.mem I.base S.start cs
  entry : g.freep ∈ I.base :: freePtrs S.start cs
  brk : (g.curbrk = 0#64 ∧ cs = [] ∧ S.Ready g.kern) ∨
    (g.curbrk.toNat = S.start + span cs ∧ S.Ok g.kern g.curbrk)

/-- The allocator before the first call. -/
structure Fresh (S : BrkSpec I) (g : Program κ) : Prop where
  freep : g.freep = 0#64
  curbrk : g.curbrk = 0#64
  ready : S.Ready g.kern

/-! ## `morecore` -/

variable {S : BrkSpec I} {g : Program κ}

theorem initBrk_cases (h : Sound S g cs) : initBrk I g = .error .ended ∨
    ∃ g', initBrk I g = .ok g' ∧ g'.mem = g.mem ∧ g'.freep = g.freep ∧
      g'.curbrk.toNat = S.start + span cs ∧ S.Ok g'.kern g'.curbrk := by
  rw [initBrk]
  rcases h.brk with ⟨hzero, rfl, hready⟩ | ⟨hcurbrk, hok⟩
  · rw [if_pos hzero, callBrk]
    cases hcall : I.brk 0#64 g.kern with
    | none => exact Or.inl rfl
    | some x =>
        obtain ⟨c, t⟩ := x
        obtain ⟨hstart, hok⟩ := S.first hready hcall
        exact Or.inr ⟨_, rfl, rfl, rfl, hstart, hok⟩
  · have hbelow := S.below
    have hne : g.curbrk ≠ 0#64 := by
      intro hzero
      rw [hzero] at hcurbrk
      simp at hcurbrk
      omega
    rw [if_neg hne]
    exact Or.inr ⟨g, rfl, rfl, rfl, hcurbrk, hok⟩

/-- What `sbrk` does for an increment: the kernel refuses, or the heap has the bytes behind it,
and what the kernel has rounded up. -/
theorem sbrk_cases (h : Sound S g cs) {inc : U64} (h0 : 0 < inc.toNat)
    (hinc : inc.toNat ≤ 2 ^ 36) : sbrk I inc g = .error .ended ∨
    (∃ g' g₁ r, sbrk I inc g = .ok (-1#64, g') ∧ Sound S g' cs ∧ g'.mem = g.mem ∧
      g'.freep = g.freep ∧ initBrk I g = .ok g₁ ∧
      I.brk (ptrTo (S.start + span cs + inc.toNat)) g₁.kern = some (r, g'.kern) ∧
      r.toNat < S.start + span cs + inc.toNat) ∨
    ∃ g' slack, sbrk I inc g = .ok (ptrTo (S.start + span cs), g') ∧ g'.mem = g.mem ∧
      g'.freep = g.freep ∧ g'.curbrk.toNat = S.start + span cs + inc.toNat + slack ∧
      S.Ok g'.kern g'.curbrk := by
  have hroom := S.room
  have hne : inc ≠ 0#64 := by
    rintro rfl
    simp at h0
  rcases initBrk_cases h with hinit | ⟨g₁, hinit, hmem, hfreep, hcurbrk, hok⟩
  · left
    rw [sbrk, hinit]
    rfl
  · have hbound := h.laid.bound
    have hlast : (g₁.curbrk + inc).toNat = S.start + span cs + inc.toNat := by
      rw [BitVec.toNat_add]
      omega
    have hlt : g₁.curbrk < g₁.curbrk + inc := by
      rw [BitVec.lt_def]
      omega
    have hptr : ptrTo (S.start + span cs + inc.toNat) = g₁.curbrk + inc := by
      rw [← hlast, ptrTo, BitVec.ofNat_toNat, BitVec.setWidth_eq]
    have hold : ptrTo (S.start + span cs) = g₁.curbrk := by
      rw [← hcurbrk, ptrTo, BitVec.ofNat_toNat, BitVec.setWidth_eq]
    cases hcall : I.brk (g₁.curbrk + inc) g₁.kern with
    | none =>
        left
        simp only [sbrk, hinit, bind, Except.bind, if_neg hne, callBrk, hcall]
    | some x =>
        obtain ⟨r, u⟩ := x
        right
        obtain ⟨hok', hcase⟩ := S.next hok hlt hcall
        have hsbrk : sbrk I inc g =
            if r = -1#64 then .ok (r, { g₁ with kern := u })
            else if r < g₁.curbrk + inc then .ok (-1#64, { g₁ with kern := u })
            else .ok (g₁.curbrk, { g₁ with kern := u, curbrk := r }) := by
          simp only [sbrk, hinit, bind, Except.bind, if_neg hne, callBrk, hcall]
        have hlaid : Laid g₁.mem I.base S.start cs := by
          rw [hmem]
          exact h.laid
        rcases hcase with rfl | ⟨hge, hne1⟩
        · left
          have hne1 : g₁.curbrk ≠ -1#64 := by
            intro heq
            rw [heq] at hcurbrk
            simp at hcurbrk
            omega
          rw [if_neg hne1, if_pos hlt] at hsbrk
          refine ⟨_, g₁, g₁.curbrk, hsbrk, ⟨hlaid, ?_, Or.inr ⟨hcurbrk, hok'⟩⟩, hmem, hfreep,
            hinit, ?_, ?_⟩
          · simp only [hfreep]
            exact h.entry
          · rw [hptr]
            exact hcall
          · omega
        · right
          rw [if_neg hne1, if_neg (BitVec.not_lt.mpr hge), ← hold] at hsbrk
          rw [BitVec.le_def, hlast] at hge
          exact ⟨_, r.toNat - (S.start + span cs + inc.toNat), hsbrk, hmem, hfreep,
            by simp only; omega, hok'⟩

theorem callBrk_frame (I : Image κ) (addr : U64) (g : Program κ) (m : GuestMem) (p : U64) :
    callBrk I addr { g with mem := m, freep := p } =
      (callBrk I addr g).map fun x => (x.1, { x.2 with mem := m, freep := p }) := by
  rw [callBrk, callBrk]
  cases I.brk addr g.kern <;> rfl

theorem initBrk_frame (I : Image κ) (g : Program κ) (m : GuestMem) (p : U64) :
    initBrk I { g with mem := m, freep := p } =
      (initBrk I g).map fun g => { g with mem := m, freep := p } := by
  rw [initBrk, initBrk, callBrk_frame]
  split
  · cases callBrk I 0#64 g <;> rfl
  · rfl

/-- `sbrk` has nothing to do with memory or the free list. -/
theorem sbrk_frame (I : Image κ) (inc : U64) (g : Program κ) (m : GuestMem) (p : U64) :
    sbrk I inc { g with mem := m, freep := p } =
      (sbrk I inc g).map fun x => (x.1, { x.2 with mem := m, freep := p }) := by
  rw [sbrk, sbrk, initBrk_frame]
  cases initBrk I g with
  | error e => rfl
  | ok g =>
      simp only [Except.map, bind, Except.bind, callBrk_frame]
      split
      · rfl
      · cases callBrk I (g.curbrk + inc) g with
        | error e => rfl
        | ok x =>
            simp only
            split
            · rfl
            · split <;> rfl

/-- A chunk in use behind the heap, once its size has been written. -/
theorem Laid.grow (h : Laid m base start cs) {c slack : Nat} (hc : 16 * n.toNat = c) (h0 : 0 < c)
    (hbound : span cs + c + slack < 2 ^ 36) :
    Laid (setSize m (ptrTo (start + span cs)) n) base start
      (cs ++ ⟨.used, c⟩ :: remainder slack) := by
  have hroom := h.room
  have hbelow := h.below
  have htop := Alloc.toNat_ptrTo (h.lt (a := start + span cs) le_rfl)
  have hfits : Fits (ptrTo (start + span cs)) 16 := by
    rw [Fits, htop]
    omega
  have hw := writesAt_setSize (m := m) (n := n) hfits
  have hkeep : ∀ q, IsHeader base start cs q →
      ptrAt (setSize m (ptrTo (start + span cs)) n) q = ptrAt m q ∧
        sizeAt (setSize m (ptrTo (start + span cs)) n) q = sizeAt m q := by
    intro q hq
    refine hw.header (h.fits hq) fun r hr => ?_
    rw [List.mem_singleton.mp hr, Apart, htop]
    rcases hq with rfl | ⟨x, hx, hk, rfl⟩
    · omega
    · have hbounds := located_bounds hx
      have hbytes := h.bytes_ge hx hk
      rw [h.toNat_ptrTo hx]
      omega
  have hfrees : freePtrs start (cs ++ ⟨.used, c⟩ :: remainder slack) = freePtrs start cs := by
    rw [freePtrs_append, freePtrs_cons_of_ne _ _ (by simp), freePtrs, freePtrs,
      frees_remainder, List.map_nil, List.append_nil]
  refine ⟨hbelow, hroom, ?_, fine_grow h.fine h0 slack, ?_, ?_, ?_⟩
  · simp only [span_append, span_cons, span_remainder]
    omega
  · rw [hfrees]
    exact h.round.frame fun y hy => (hkeep y (isHeader_of_mem hy)).1
  · rw [(hkeep base (Or.inl rfl)).2, h.baseSize]
  · intro x hx hk
    rw [located_append, located_cons] at hx
    simp only [List.mem_append, List.mem_cons] at hx
    rcases hx with hx | rfl | hx
    · rw [(hkeep _ (Or.inr ⟨x, hx, hk, rfl⟩)).2]
      exact h.sized x hx hk
    · simp only
      rw [sizeAt_setSize]
      exact hc
    · exact absurd (kind_remainder hx) hk

/-- The bytes that `morecore` asks for. -/
def coreBytes (n : BitVec 32) : Nat := 16 * max n.toNat 1024

/-- With what `sbrk` gets for `n` units the heap stays below 64 GiB, which is what an `unsigned`
number of units can count.  It is a condition on a run: neither `sbrk` nor the kernel sees to
it. -/
def Counted (S : BrkSpec I) (n : BitVec 32) (g : Program κ) : Prop :=
  ∀ p g', sbrk I (ptrTo (coreBytes n)) g = .ok (p, g') → g'.curbrk.toNat < S.start + 2 ^ 36

instance (S : BrkSpec I) (n : BitVec 32) (g : Program κ) : Decidable (Counted S n g) :=
  match h : sbrk I (ptrTo (coreBytes n)) g with
  | .error _ => .isTrue fun p g' hrun => nomatch h.symm.trans hrun
  | .ok (p, g') =>
      if hlt : g'.curbrk.toNat < S.start + 2 ^ 36 then
        .isTrue fun p₁ g₁ hrun => by
          obtain ⟨-, rfl⟩ := Prod.mk.inj (Except.ok.inj (h.symm.trans hrun))
          exact hlt
      else .isFalse fun hcount => hlt (hcount p g' h)

theorem Counted.frame (h : Counted S n g) (m : GuestMem) (p : U64) :
    Counted S n { g with mem := m, freep := p } := by
  intro r g' hrun
  rw [sbrk_frame] at hrun
  cases hs : sbrk I (ptrTo (coreBytes n)) g with
  | error e =>
      rw [hs] at hrun
      exact absurd hrun (by simp [Except.map])
  | ok x =>
      rw [hs] at hrun
      obtain ⟨-, rfl⟩ := Prod.mk.inj (Except.ok.inj hrun)
      exact h x.1 x.2 hs

/-- The free list has a block for the request. -/
theorem Laid.fits_of_block (h : Laid m base start cs) {x : Nat × Nat}
    (hx : x ∈ blocks .free start cs) (hle : 16 * n.toNat ≤ x.2) :
    ptrTo x.1 ∈ base :: freePtrs start cs ∧ n ≤ sizeAt m (ptrTo x.1) := by
  have hsize := h.sized _ (mem_blocks.mp hx) (by simp)
  refine ⟨List.mem_cons_of_mem _ (List.mem_map_of_mem (List.mem_map_of_mem hx)), ?_⟩
  rw [BitVec.le_def]
  simp only at hsize
  omega

/-- The units that `morecore` asks for. -/
theorem toNat_coreUnits (n : BitVec 32) :
    (if n.setWidth 64 < nalloc then nalloc else n.setWidth 64).toNat = max n.toNat 1024 := by
  have hn := n.isLt
  have hw : (n.setWidth 64).toNat = n.toNat := by
    rw [BitVec.toNat_setWidth]
    omega
  have hna : nalloc.toNat = 1024 := rfl
  split
  · rename_i hlt
    rw [BitVec.lt_def] at hlt
    omega
  · rename_i hge
    rw [BitVec.lt_def] at hge
    omega

/-- Memory that the kernel has given is made a chunk and released: the program owns the bytes
it owned, and they are what they were. -/
theorem Sound.grown (h : Sound S g cs) {fuel : Nat} (hfuel : (freePtrs S.start cs).length < fuel)
    {g₁ : Program κ} {c slack : Nat} (hsize : 16 * n.toNat = c) (hpos : 0 < c)
    (hmem : g₁.mem = g.mem) (hfreep : g₁.freep = g.freep)
    (hcur : g₁.curbrk.toNat = S.start + span cs + c + slack) (hok : S.Ok g₁.kern g₁.curbrk)
    (hlimit : g₁.curbrk.toNat < S.start + 2 ^ 36) :
    ∃ g₂, free fuel (ptrTo (S.start + span cs) + sizeofHeader)
        { g₁ with mem := setSize g₁.mem (ptrTo (S.start + span cs)) n } = .ok g₂ ∧
      Sound S g₂ (release cs c (remainder slack)) ∧
      ∀ x, Owns I.base S.start (cs ++ ⟨.used, c⟩ :: remainder slack) x → g₂.mem x = g.mem x := by
  have hroom := S.room
  have hgrow := h.laid.grow hsize hpos (show span cs + c + slack < 2 ^ 36 by omega)
  have hfrees : freePtrs S.start (cs ++ ⟨.used, c⟩ :: remainder slack) = freePtrs S.start cs := by
    rw [freePtrs_middle (by simp), freePtrs, freePtrs, frees_remainder, List.map_nil,
      List.append_nil]
  have hentry : g₁.freep ∈ I.base :: freePtrs S.start (cs ++ ⟨.used, c⟩ :: remainder slack) := by
    rw [hfrees, hfreep]
    exact h.entry
  rw [← hmem] at hgrow
  obtain ⟨g₂, hfree, hlaid, hentry', hkeeps, hcurbrk, hkern⟩ :=
    Laid.free (g := { g₁ with mem := setSize g₁.mem (ptrTo (S.start + span cs)) n })
      hgrow hentry (by rw [hfrees]; exact hfuel)
  have hcurbrk' : g₂.curbrk = g₁.curbrk := hcurbrk
  have hkern' : g₂.kern = g₁.kern := hkern
  refine ⟨g₂, hfree, ⟨hlaid, hentry', Or.inr ⟨?_, ?_⟩⟩, fun x hx => ?_⟩
  · rw [hcurbrk', hcur, span_release, span_remainder, Nat.add_assoc, Nat.add_assoc,
      Nat.add_assoc]
  · rw [hkern', hcurbrk']
    exact hok
  · have hfits : Fits (ptrTo (S.start + span cs)) 16 := by
      rw [Fits, Alloc.toNat_ptrTo (h.laid.lt (a := S.start + span cs) le_rfl)]
      omega
    rw [hkeeps x hx, ← hmem]
    refine writesAt_setSize hfits x fun q hq => ?_
    rw [List.mem_singleton.mp hq]
    exact hgrow.owns_header hx (isHeader_middle (by simp))

/-- What `morecore` does: the kernel refuses, or the heap has grown and the new bytes are
free. -/
theorem morecore_cases (h : Sound S g cs) (hcount : Counted S n g) {fuel : Nat}
    (hfuel : (freePtrs S.start cs).length < fuel) :
    morecore I fuel (n.setWidth 64) g = .error .ended ∨
    (∃ g' g₁ r, morecore I fuel (n.setWidth 64) g = .ok (0#64, g') ∧ Sound S g' cs ∧
      g'.mem = g.mem ∧ g'.freep = g.freep ∧ initBrk I g = .ok g₁ ∧
      I.brk (ptrTo (S.start + span cs + coreBytes n)) g₁.kern = some (r, g'.kern) ∧
      r.toNat < S.start + span cs + coreBytes n) ∨
    ∃ g' slack, morecore I fuel (n.setWidth 64) g = .ok (g'.freep, g') ∧
      Sound S g' (release cs (coreBytes n) (remainder slack)) ∧
      (∀ x, Owns I.base S.start (cs ++ ⟨.used, coreBytes n⟩ :: remainder slack) x →
        g'.mem x = g.mem x) := by
  have hn := n.isLt
  obtain ⟨nu, hnu⟩ : ∃ nu : U64, nu = if n.setWidth 64 < nalloc then nalloc else n.setWidth 64 :=
    ⟨_, rfl⟩
  have hcore : morecore I fuel (n.setWidth 64) g =
      (sbrk I (nu * sizeofHeader) g).bind fun x =>
        if x.1 = -1#64 then .ok (0#64, x.2)
        else (free fuel (x.1 + sizeofHeader)
          { x.2 with mem := setSize x.2.mem x.1 (nu.setWidth 32) }).bind fun g =>
            .ok (g.freep, g) := by
    rw [hnu]
    rfl
  have hunits : nu.toNat = max n.toNat 1024 := by
    rw [hnu]
    exact toNat_coreUnits n
  have hmul : (nu * sizeofHeader).toNat = coreBytes n := by
    have hs : sizeofHeader.toNat = 16 := rfl
    rw [BitVec.toNat_mul, hunits, hs, coreBytes]
    omega
  have hbytes : 0 < coreBytes n ∧ coreBytes n ≤ 2 ^ 36 := by
    rw [coreBytes]
    omega
  have hptr : nu * sizeofHeader = ptrTo (coreBytes n) := by
    rw [← hmul, ptrTo, BitVec.ofNat_toNat, BitVec.setWidth_eq]
  rw [hcore]
  rcases sbrk_cases h (show 0 < (nu * sizeofHeader).toNat by omega) (by omega) with
    hs | ⟨g₁, g₀, r, hs, hsound, hmem, hfreep, hinit, hbrk, hr⟩ |
    ⟨g₁, slack, hs, hmem, hfreep, hcur, hok⟩
  · left
    rw [hs]
    rfl
  · refine Or.inr (Or.inl ⟨g₁, g₀, r, ?_, hsound, hmem, hfreep, hinit, ?_, ?_⟩)
    · rw [hs]
      rfl
    · rwa [hmul] at hbrk
    · rwa [hmul] at hr
  · rw [hmul] at hcur
    have hsize : 16 * (nu.setWidth 32).toNat = coreBytes n := by
      rw [BitVec.toNat_setWidth, hunits, coreBytes]
      omega
    obtain ⟨g₂, hfree, hsound, hkeeps⟩ := h.grown hfuel hsize hbytes.1 hmem hfreep hcur hok
      (hcount _ _ (hptr ▸ hs))
    have hne : ptrTo (S.start + span cs) ≠ -1#64 := by
      have htop := Alloc.toNat_ptrTo (h.laid.lt (a := S.start + span cs) le_rfl)
      have hroom := S.room
      have hbound := h.laid.bound
      intro heq
      rw [heq] at htop
      simp at htop
      omega
    refine Or.inr (Or.inr ⟨g₂, slack, ?_, hsound, hkeeps⟩)
    simp only [hs, Except.bind, if_neg hne, hfree]

/-! ## `malloc` -/

/-- A block of `c` bytes with its header is in use at `r`; the other blocks are what they were,
and so are the bytes of the program. -/
structure Malloced (S : BrkSpec I) (g : Program κ) (cs : List Chunk) (c : Nat) (r : U64)
    (g' : Program κ) (cs' : List Chunk) : Prop where
  sound : Sound S g' cs'
  used : ∃ a us vs, blocks .used S.start cs = us ++ vs ∧
    blocks .used S.start cs' = us ++ (a, c) :: vs ∧ r = ptrTo (a + 16)
  grows : span cs ≤ span cs'
  frees : (freePtrs S.start cs').length ≤ (freePtrs S.start cs).length + 1
  keeps : ∀ x, Owns I.base S.start cs x →
    (x.toNat < S.start + span cs ∨ S.start + span cs' ≤ x.toNat) → g'.mem x = g.mem x

theorem ptrTo_add_sizeofHeader (a : Nat) : ptrTo a + sizeofHeader = ptrTo (a + 16) := by
  rw [ptrTo, ptrTo, BitVec.ofNat_add]
  rfl

theorem Took.used {r : U64} {g' : Program κ} {cs' : List Chunk} {start : Nat}
    (h : Took I start cs k g r g' cs') : ∃ a us vs, blocks .used start cs = us ++ vs ∧
      blocks .used start cs' = us ++ (a, k) :: vs ∧ r = ptrTo (a + 16) := by
  obtain ⟨front, b, back, rfl, hle, rfl, rfl⟩ := h.chunks
  exact ⟨_, _, _, used_free _ _ _, used_take hle _ _ _, ptrTo_add_sizeofHeader _⟩

theorem Took.span {r : U64} {g' : Program κ} {cs' : List Chunk} {start : Nat}
    (h : Took I start cs k g r g' cs') : Chunks.span cs' = Chunks.span cs := by
  obtain ⟨front, b, back, rfl, hle, rfl, -⟩ := h.chunks
  rw [span_take hle]
  simp [Nat.add_assoc]

theorem Took.frees {r : U64} {g' : Program κ} {cs' : List Chunk} {start : Nat}
    (h : Took I start cs k g r g' cs') :
    (freePtrs start cs').length ≤ (freePtrs start cs).length := by
  obtain ⟨front, b, back, rfl, hle, rfl, -⟩ := h.chunks
  simpa [freePtrs] using length_frees_take hle start front back

/-- A taken block leaves the allocator sound. -/
theorem Took.sound {r : U64} {g' : Program κ} {cs' : List Chunk} (h : Sound S g cs)
    (ht : Took I S.start cs k g r g' cs') : Sound S g' cs' := by
  refine ⟨ht.laid, ht.entry, Or.inr ?_⟩
  rw [ht.curbrk, ht.kern, ht.span]
  rcases h.brk with ⟨-, rfl, -⟩ | hbrk
  · obtain ⟨front, b, back, hcs, -⟩ := ht.chunks
    simp at hcs
  · exact hbrk

theorem Sound.freep_ne (h : Sound S g cs) : g.freep ≠ 0#64 := by
  have hbelow := S.below
  rcases List.mem_cons.mp h.entry with hb | hb
  · rw [hb]
    exact S.base_ne
  · obtain ⟨a, ha, hab⟩ := List.mem_map.mp hb
    have hge := frees_ge ha
    have hlt := frees_lt h.laid.fine.pos ha
    intro hzero
    have hval := Alloc.toNat_ptrTo (h.laid.lt (a := a) (by omega))
    rw [hab, hzero] at hval
    simp at hval
    omega

theorem Sound.initList (h : Sound S g cs) : initList I g = g := by
  rw [Alloc.initList, if_neg h.freep_ne]

theorem Counted.initList (h : Counted S n g) : Counted S n (Alloc.initList I g) := by
  rw [Alloc.initList]
  split
  · exact h.frame _ _
  · exact h

/-- The list that the first call makes does not matter to the break. -/
theorem initBrk_of_initList {g₁ : Program κ} (h : initBrk I (Alloc.initList I g) = .ok g₁) :
    ∃ g₂, initBrk I g = .ok g₂ ∧ g₂.kern = g₁.kern := by
  rw [Alloc.initList] at h
  split at h
  · rw [initBrk_frame] at h
    cases hinit : initBrk I g with
    | error e =>
        rw [hinit] at h
        exact absurd h (by simp [Except.map])
    | ok g₂ =>
        rw [hinit] at h
        obtain rfl := Except.ok.inj h
        exact ⟨g₂, rfl, rfl⟩
  · exact ⟨g₁, h, rfl⟩

/-- The first call makes a ring of `base` alone. -/
theorem Fresh.sound (h : Fresh S g) : Sound S (Alloc.initList I g) [] := by
  have hbelow := S.below
  have hroom := S.room
  have hfits : Fits I.base 16 := by
    rw [Fits]
    omega
  rw [Alloc.initList, if_pos h.freep]
  refine ⟨⟨hbelow, hroom, by simp, ⟨by simp, List.IsChain.nil⟩, ?_, sizeAt_setSize _ _ _, ?_⟩,
    by simp, Or.inl ⟨h.curbrk, rfl, h.ready⟩⟩
  · rw [Round, freePtrs_nil, List.nil_append]
    simp [ptrAt_setSize hfits]
  · intro x hx
    simp at hx

/-- The number of units is what the request needs, as long as it can be counted. -/
theorem toNat_nunits {nbytes : U64} (h : nbytes.toNat + 32 ≤ 2 ^ 36) :
    (nunits nbytes).toNat = (nbytes.toNat + 15) / 16 + 1 := by
  have hs : sizeofHeader.toNat = 16 := rfl
  have h1 : (1#64).toNat = 1 := rfl
  rw [nunits, BitVec.toNat_setWidth, BitVec.toNat_add, BitVec.toNat_udiv, BitVec.toNat_sub,
    BitVec.toNat_add, hs, h1]
  omega

/-- What `malloc` does: the kernel ends the machine, or no free block is large enough and the
kernel refuses more, or a block is handed out. -/
theorem Sound.malloc (h : Sound S g cs) {nbytes : U64} (hn : 0 < (nunits nbytes).toNat)
    (hcount : Counted S (nunits nbytes) g) {fuel : Nat}
    (hfuel : 2 * (freePtrs S.start cs).length + 4 ≤ fuel) :
    Alloc.malloc I fuel nbytes g = .error .ended ∨
    (∃ g' g₁ r, Alloc.malloc I fuel nbytes g = .ok (0#64, g') ∧ Sound S g' cs ∧ g'.mem = g.mem ∧
      g'.freep = g.freep ∧
      (∀ q ∈ I.base :: freePtrs S.start cs, sizeAt g.mem q < nunits nbytes) ∧
      initBrk I g = .ok g₁ ∧
      I.brk (ptrTo (S.start + Chunks.span cs + coreBytes (nunits nbytes))) g₁.kern =
        some (r, g'.kern) ∧
      r.toNat < S.start + Chunks.span cs + coreBytes (nunits nbytes)) ∨
    ∃ r g' cs', Alloc.malloc I fuel nbytes g = .ok (r, g') ∧
      Malloced S g cs (16 * (nunits nbytes).toNat) r g' cs' := by
  have hmalloc : Alloc.malloc I fuel nbytes g =
      mallocLoop I (nunits nbytes) fuel g.freep (ptrAt g.mem g.freep) g := by
    rw [Alloc.malloc, h.initList]
  generalize nunits nbytes = n at *
  rw [hmalloc]
  by_cases hfit : ∃ q ∈ I.base :: freePtrs S.start cs, n ≤ sizeAt g.mem q
  · obtain ⟨q, hq, hfit⟩ := hfit
    obtain ⟨r, g', cs', hloop, htook⟩ := h.laid.mallocLoop_fit h.entry hn hq hfit
      (show _ < fuel by omega)
    refine Or.inr (Or.inr ⟨r, g', cs', hloop, htook.sound h, htook.used, ?_,
      htook.frees.trans (Nat.le_succ _), ?_⟩)
    · rw [htook.span]
    · exact fun x hx _ => htook.keeps x hx
  · have hsmall : ∀ q ∈ I.base :: freePtrs S.start cs, ¬ n ≤ sizeAt g.mem q :=
      fun q hq hle => hfit ⟨q, hq, hle⟩
    obtain ⟨rest, hrest, hloop⟩ := h.laid.mallocLoop_more h.entry hsmall
      (show _ < fuel by omega)
    rw [hloop]
    rcases morecore_cases (n := n) h hcount (show _ < rest by omega) with
      hm | ⟨g₁, g₀, r, hm, hsound, hmem, hfreep, hinit, hbrk, hr⟩ |
      ⟨g₁, slack, hm, hsound, hkeeps⟩
    · left
      rw [hm]
      rfl
    · refine Or.inr (Or.inl ⟨g₁, g₀, r, ?_, hsound, hmem, hfreep,
        fun q hq => BitVec.not_le.mp (hsmall q hq), hinit, hbrk, hr⟩)
      rw [hm]
      rfl
    · refine Or.inr (Or.inr ?_)
      have hcore : 16 * n.toNat ≤ coreBytes n := by
        rw [coreBytes]
        omega
      obtain ⟨x, hx, hxle⟩ := mem_release S.start cs (coreBytes n) (remainder slack)
      obtain ⟨hq, hle⟩ := hsound.laid.fits_of_block (n := n) hx (by omega)
      have hlen : (freePtrs S.start (release cs (coreBytes n) (remainder slack))).length ≤
          (freePtrs S.start cs).length + 1 := by
        have hrel := length_frees_release S.start cs (coreBytes n) (remainder slack)
        rw [frees_remainder] at hrel
        simpa [freePtrs] using hrel
      obtain ⟨r, g', cs', hsecond, htook⟩ := hsound.laid.mallocLoop_fit hsound.entry hn hq hle
        (show _ < rest by omega)
      have hused := htook.used
      rw [blocks_release (by simp), used_remainder, List.append_nil] at hused
      have hspan : Chunks.span cs' = Chunks.span cs + coreBytes n + slack := by
        rw [htook.span, span_release, span_remainder]
      refine ⟨r, g', cs', ?_, htook.sound hsound, hused, by omega, htook.frees.trans hlen,
        fun y hy hout => ?_⟩
      · rw [hm]
        simp only [Except.bind, if_neg hsound.freep_ne]
        exact hsecond
      · have hspan' : Chunks.span (cs ++ ⟨.used, coreBytes n⟩ :: remainder slack) =
            Chunks.span cs' := by
          rw [hspan]
          simp [Nat.add_assoc]
        have hrelspan : Chunks.span (release cs (coreBytes n) (remainder slack)) =
            Chunks.span cs' := htook.span.symm
        have hbig : Owns I.base S.start (cs ++ ⟨.used, coreBytes n⟩ :: remainder slack) y := by
          refine hy.mono (fun z hz => ?_) (by rw [hspan']; exact hout)
          rw [blocks_append]
          exact List.mem_append_left _ hz
        have hrel : Owns I.base S.start (release cs (coreBytes n) (remainder slack)) y := by
          refine hy.mono (fun z hz => ?_) (by rw [hrelspan]; exact hout)
          rw [blocks_release (by simp)]
          exact List.mem_append_left _ hz
        rw [htook.keeps y hrel, hkeeps y hbig]

end Alloc

end BufferVM
