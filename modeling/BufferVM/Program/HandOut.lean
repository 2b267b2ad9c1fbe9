/-
  Program/HandOut.lean --- the loop of `malloc`, as long as it does not grow the heap.

  The loop goes once round the ring.  It ends at the first block that is large enough, which
  is handed out, or its end is; or it is back where it began, and no block is large enough.
-/
import BufferVM.Program.Free
import Mathlib.Data.Nat.Find

set_option autoImplicit false

namespace BufferVM

namespace Alloc

open ByteMem Chunks PtrList PtrRing

variable {κ : Type} {I : Image κ} {m m' : GuestMem} {p q prevp : U64} {n : BitVec 32}
  {base : U64} {start b k : Nat} {cs front back : List Chunk}

/-! ## A block is handed out -/

/-- A block large enough is none of size 0. -/
theorem Laid.free_of_fits (h : Laid m base start cs) (hp : p ∈ base :: freePtrs start cs)
    (hn : 0 < n.toNat) (hfit : n ≤ sizeAt m p) :
    ∃ front b back, cs = front ++ ⟨.free, b⟩ :: back ∧ p = ptrTo (start + span front) ∧
      16 * n.toNat ≤ b := by
  rw [BitVec.le_def] at hfit
  rcases List.mem_cons.mp hp with rfl | hp
  · rw [h.baseSize] at hfit
    simp at hfit
    omega
  · obtain ⟨a, ha, rfl⟩ := List.mem_map.mp hp
    obtain ⟨x, hx, rfl⟩ := List.mem_map.mp ha
    have hx' := mem_blocks.mp hx
    have hsize := h.sized _ hx' (by simp)
    obtain ⟨front, back, rfl, hx1⟩ := mem_located.mp hx'
    refine ⟨front, x.2, back, rfl, ?_, ?_⟩
    · simp only at hx1
      rw [hx1]
    · simp only at hsize
      omega

/-- The free block at `start + span front`. -/
theorem Laid.header_free (h : Laid m base start (front ++ ⟨.free, b⟩ :: back)) :
    IsHeader base start (front ++ ⟨.free, b⟩ :: back) (ptrTo (start + span front)) ∧
      (ptrTo (start + span front)).toNat = start + span front ∧
      16 * (sizeAt m (ptrTo (start + span front))).toNat = b := by
  have hmem : (start + span front, (⟨.free, b⟩ : Chunk)) ∈
      located start (front ++ ⟨.free, b⟩ :: back) := by simp
  exact ⟨isHeader_middle (by simp), h.toNat_ptrTo hmem, h.sized _ hmem (by simp)⟩

theorem freePtrs_free (front back : List Chunk) :
    freePtrs start (front ++ ⟨.free, b⟩ :: back) = freePtrs start front ++
      ptrTo (start + span front) :: freePtrs (start + span front + b) back := by
  rw [freePtrs_append, freePtrs_cons_free]

/-- A block of the right size leaves the ring. -/
theorem Laid.unlink (h : Laid m base start (front ++ ⟨.free, b⟩ :: back))
    (hprev : prevp ∈ base :: freePtrs start (front ++ ⟨.free, b⟩ :: back))
    (hnext : ptrAt m prevp = ptrTo (start + span front)) :
    Laid (setPtr m prevp (ptrAt m (ptrTo (start + span front)))) base start
        (front ++ ⟨.used, b⟩ :: back) ∧
      prevp ∈ base :: freePtrs start (front ++ ⟨.used, b⟩ :: back) := by
  have hround := h.round
  have hnd := h.nodup
  have hhead := isHeader_of_mem hprev
  have hfits := h.fits hhead
  have hw := writesAt_setPtr (m := m) (v := ptrAt m (ptrTo (start + span front))) hfits
  rw [freePtrs_free] at hround hnd hprev
  have hlast := hround.pred_eq hnd hprev hnext
  have hafter : ptrAt m (ptrTo (start + span front)) =
      headPtr base (freePtrs (start + span front + b) back) := by
    have hcut := Round.cut (a := freePtrs start front ++ [ptrTo (start + span front)])
      (by simpa using hround)
    rwa [lastPtr_append_singleton] at hcut
  have hkind : (⟨.used, b⟩ : Chunk).kind ≠ .free := by simp
  have hsame : ∀ q, IsHeader base start (front ++ ⟨.free, b⟩ :: back) q →
      sizeAt (setPtr m prevp (ptrAt m (ptrTo (start + span front)))) q = sizeAt m q := by
    intro q hq
    by_cases hqp : q = prevp
    · rw [hqp, sizeAt_setPtr hfits]
    · exact (hw.header (h.fits hq) (by simpa using h.apart hq hhead hqp)).2
  refine ⟨⟨h.below, h.room, ?_, ?_, ?_, ?_, ?_⟩, ?_⟩
  · have hbound := h.bound
    simpa using hbound
  · have hb : 0 < b := h.fine.pos ⟨.free, b⟩ (by simp)
    have hfine := fine_take hb le_rfl h.fine
    rwa [take, if_pos rfl] at hfine
  · have hsplice : Round (ptrAt (setPtr m prevp (ptrAt m (ptrTo (start + span front))))) base
        (freePtrs start front ++ [] ++ freePtrs (start + span front + b) back) :=
      Round.splice (w := [ptrTo (start + span front)]) [] (by simpa using hround)
      (hnd.sublist (List.Sublist.cons_cons _
        ((List.sublist_cons_self _ _).append_left _)))
      (fun y hy hne => by
        have hyhead : IsHeader base start (front ++ ⟨.free, b⟩ :: back) y := by
          apply isHeader_of_mem
          rw [freePtrs_free]
          simp only [List.mem_cons, List.mem_append] at hy ⊢
          tauto
        rw [← hlast] at hne
        exact (hw.header (h.fits hyhead) (by simpa using h.apart hyhead hhead hne)).1)
      (by simp [← hlast, hafter])
    rw [freePtrs_append, freePtrs_cons_of_ne _ _ hkind]
    simpa using hsplice
  · rw [hsame base (Or.inl rfl), h.baseSize]
  · intro x hx hk
    rw [located_append, located_cons] at hx
    simp only [List.mem_append, List.mem_cons] at hx
    have hother : x ∈ located start (front ++ ⟨.free, b⟩ :: back) →
        16 * (sizeAt (setPtr m prevp (ptrAt m (ptrTo (start + span front)))) (ptrTo x.1)).toNat =
          x.2.bytes := by
      intro hall
      rw [hsame _ (Or.inr ⟨x, hall, hk, rfl⟩)]
      exact h.sized x hall hk
    rcases hx with hx | rfl | hx
    · exact hother (by simp [hx])
    · simp only
      rw [hsame _ h.header_free.1]
      exact h.header_free.2.2
    · exact hother (by
        simp only [located_append, located_cons, List.mem_append, List.mem_cons]
        tauto)
  · rw [freePtrs_append, freePtrs_cons_of_ne _ _ hkind, hlast, ← List.cons_append]
    exact List.mem_append_left _ (lastPtr_mem_cons _ _)

/-- A header inside a free chunk, behind the header of the chunk, meets no other. -/
theorem Laid.apart_inside (h : Laid m base start (front ++ ⟨.free, b⟩ :: back)) {d : Nat}
    (hd : 16 ≤ d) (hdb : d + 16 ≤ b) {y : U64}
    (hy : IsHeader base start (front ++ ⟨.free, b⟩ :: back) y) :
    Apart y 16 (ptrTo (start + span front + d)) 16 := by
  have hbound := h.bound
  have hroom := h.room
  have hall : span (front ++ ⟨.free, b⟩ :: back) = span front + (b + span back) := by simp
  obtain ⟨-, hval, -⟩ := h.header_free
  rw [Apart, Alloc.toNat_ptrTo (h.lt (a := start + span front + d) (by omega))]
  by_cases hyp : y = ptrTo (start + span front)
  · rw [hyp, hval]
    omega
  · rcases hy with rfl | ⟨x, hx, hxk, rfl⟩
    · have hbelow := h.below
      omega
    · rw [h.toNat_ptrTo hx]
      have hxb := h.bytes_ge hx hxk
      have hne : x ≠ (start + span front, (⟨.free, b⟩ : Chunk)) := by
        rintro rfl
        exact hyp rfl
      have hapart := located_apart hx (y := (start + span front, (⟨.free, b⟩ : Chunk)))
        (by simp) hne
      simp only at hapart
      omega

/-- The chunks around a free one have other headers. -/
theorem Laid.ne_header_free (h : Laid m base start (front ++ ⟨.free, b⟩ :: back))
    {x : Nat × Chunk} (hk : x.2.kind ≠ .lost)
    (hx : x ∈ located start front ∨ x ∈ located (start + span front + b) back) :
    x ∈ located start (front ++ ⟨.free, b⟩ :: back) ∧ ptrTo x.1 ≠ ptrTo (start + span front) := by
  have hmem : x ∈ located start (front ++ ⟨.free, b⟩ :: back) := by
    simp only [located_append, located_cons, List.mem_append, List.mem_cons]
    tauto
  refine ⟨hmem, fun heq => ?_⟩
  have hval := h.header_free.2.1
  have hb : 0 < b := h.fine.pos ⟨.free, b⟩ (by simp)
  have hbytes := h.bytes_ge hmem hk
  rw [← heq, h.toNat_ptrTo hmem] at hval
  rcases hx with hx | hx
  · have hbounds := located_bounds hx
    omega
  · have hbounds := located_bounds hx
    omega

/-- A new size in the header of a free chunk, and a header with a size inside the chunk: the
links stay, and so do the other sizes. -/
theorem Laid.sizes_cut (h : Laid m base start (front ++ ⟨.free, b⟩ :: back)) {d : Nat}
    (hd : 16 ≤ d) (hdb : d + 16 ≤ b) (c n : BitVec 32) {m' : GuestMem}
    (hm : m' = setSize (setSize m (ptrTo (start + span front)) c)
      (ptrTo (start + span front + d)) n) :
    sizeAt m' (ptrTo (start + span front)) = c ∧ sizeAt m' (ptrTo (start + span front + d)) = n ∧
      ∀ y, IsHeader base start (front ++ ⟨.free, b⟩ :: back) y → ptrAt m' y = ptrAt m y ∧
        (y ≠ ptrTo (start + span front) → sizeAt m' y = sizeAt m y) := by
  have hbound := h.bound
  have hroom := h.room
  have hall : span (front ++ ⟨.free, b⟩ :: back) = span front + (b + span back) := by simp
  have hp := h.header_free.1
  have hpfits := h.fits hp
  have hqfits : Fits (ptrTo (start + span front + d)) 16 := by
    rw [Fits, Alloc.toNat_ptrTo (h.lt (a := start + span front + d) (by omega))]
    omega
  have hw1 := writesAt_setSize (m := m) (n := c) hpfits
  have hw2 := writesAt_setSize (m := setSize m (ptrTo (start + span front)) c) (n := n) hqfits
  rw [← hm] at hw2
  -- the second write is read at the headers as if it had not been made
  have hsecond := fun y (hy : IsHeader base start (front ++ ⟨.free, b⟩ :: back) y) =>
    hw2.header (h.fits hy) (by simpa using h.apart_inside hd hdb hy)
  refine ⟨?_, ?_, fun y hy => ⟨?_, fun hne => ?_⟩⟩
  · rw [(hsecond _ hp).2, sizeAt_setSize]
  · rw [hm, sizeAt_setSize]
  · rw [(hsecond y hy).1]
    by_cases hyp : y = ptrTo (start + span front)
    · rw [hyp, ptrAt_setSize hpfits]
    · exact (hw1.header (h.fits hy) (by simpa using h.apart hy hp hyp)).1
  · rw [(hsecond y hy).2]
    exact (hw1.header (h.fits hy) (by simpa using h.apart hy hp hne)).2

/-- A larger block gives up its end. -/
theorem Laid.split (h : Laid m base start (front ++ ⟨.free, b⟩ :: back)) (hk : 16 * n.toNat = k)
    (h0 : 0 < k) (hlt : k < b) :
    Laid (setSize (setSize m (ptrTo (start + span front))
        (sizeAt m (ptrTo (start + span front)) - n)) (ptrTo (start + span front + (b - k))) n)
      base start (front ++ ⟨.free, b - k⟩ :: ⟨.used, k⟩ :: back) := by
  obtain ⟨hp, hval, hsize⟩ := h.header_free
  generalize hm : setSize (setSize m (ptrTo (start + span front))
    (sizeAt m (ptrTo (start + span front)) - n)) (ptrTo (start + span front + (b - k))) n = m'
  obtain ⟨hold, hnew, hkeep⟩ := h.sizes_cut (d := b - k) (by omega) (by omega) _ n hm.symm
  have hback : start + span front + (b - k) + k = start + span front + b := by omega
  refine ⟨h.below, h.room, ?_, ?_, ?_, ?_, fun x hx hxk => ?_⟩
  · have hbound := h.bound
    simp only [span_append, span_cons] at hbound ⊢
    omega
  · have hfine := fine_take h0 (Nat.le_of_lt hlt) h.fine
    rwa [take, if_neg (by omega)] at hfine
  · have heq : freePtrs start (front ++ ⟨.free, b - k⟩ :: ⟨.used, k⟩ :: back) =
        freePtrs start (front ++ ⟨.free, b⟩ :: back) := by
      rw [freePtrs_free, freePtrs_free, freePtrs_cons_of_ne _ _ (by simp)]
      simp only
      rw [hback]
    rw [heq]
    exact h.round.frame fun y hy => (hkeep y (isHeader_of_mem hy)).1
  · have hne : base ≠ ptrTo (start + span front) := by
      intro heq
      have hbelow := h.below
      rw [← heq] at hval
      omega
    rw [(hkeep base (Or.inl rfl)).2 hne, h.baseSize]
  · have hrest : x ∈ located start front ∨ x ∈ located (start + span front + b) back →
        16 * (sizeAt m' (ptrTo x.1)).toNat = x.2.bytes := by
      intro hx
      obtain ⟨hmem, hne⟩ := h.ne_header_free hxk hx
      rw [(hkeep _ (Or.inr ⟨x, hmem, hxk, rfl⟩)).2 hne]
      exact h.sized x hmem hxk
    rw [located_append, located_cons, located_cons] at hx
    simp only [List.mem_append, List.mem_cons] at hx
    rw [hback] at hx
    rcases hx with hx | rfl | rfl | hx
    · exact hrest (Or.inl hx)
    · have hn := n.isLt
      have hs := (sizeAt m (ptrTo (start + span front))).isLt
      simp only
      rw [hold, BitVec.toNat_sub]
      omega
    · simp only
      rw [hnew]
      exact hk
    · exact hrest (Or.inr hx)

/-- A block is handed out: its chunk, or the end of it, is in use. -/
theorem Laid.handOut {g : Program κ} (h : Laid g.mem base start (front ++ ⟨.free, b⟩ :: back))
    (hk : 16 * n.toNat = k) (h0 : 0 < k) (hle : k ≤ b)
    (hprev : prevp ∈ base :: freePtrs start (front ++ ⟨.free, b⟩ :: back))
    (hnext : ptrAt g.mem prevp = ptrTo (start + span front)) :
    ∃ g' : Program κ, handOut n prevp (ptrTo (start + span front)) g =
        (ptrTo (start + span front + (b - k)) + sizeofHeader, g') ∧
      Laid g'.mem base start (take front b back k) ∧
      g'.freep ∈ base :: freePtrs start (take front b back k) ∧
      (∀ x, Owns base start (front ++ ⟨.free, b⟩ :: back) x → g'.mem x = g.mem x) ∧
      g'.curbrk = g.curbrk ∧ g'.kern = g.kern := by
  obtain ⟨hp, hval, hsize⟩ := h.header_free
  rw [Alloc.handOut, take]
  by_cases heq : b = k
  · have hsame : sizeAt g.mem (ptrTo (start + span front)) = n := BitVec.eq_of_toNat_eq (by omega)
    obtain ⟨hlaid, hmem⟩ := h.unlink hprev hnext
    rw [if_pos hsame, if_pos heq, ← heq, Nat.sub_self, Nat.add_zero]
    refine ⟨_, rfl, hlaid, hmem, fun x hx => ?_, rfl, rfl⟩
    have hhead := isHeader_of_mem hprev
    exact h.owns_keeps (writesAt_setPtr (h.fits hhead)) (by simpa using hhead) hx
  · have hne : sizeAt g.mem (ptrTo (start + span front)) ≠ n := by
      intro hs
      rw [hs] at hsize
      omega
    have hlaid := h.split hk h0 (by omega)
    have hrest : 16 * (sizeAt g.mem (ptrTo (start + span front)) - n).toNat = b - k := by
      have hn := n.isLt
      have hs := (sizeAt g.mem (ptrTo (start + span front))).isLt
      rw [BitVec.toNat_sub]
      omega
    rw [if_neg hne, if_neg heq]
    simp only [sizeAt_setSize, plus_ptrTo hrest]
    refine ⟨_, rfl, hlaid, ?_, fun x hx => ?_, rfl, rfl⟩
    · rw [freePtrs_free] at hprev
      rw [freePtrs_free, freePtrs_cons_of_ne _ _ (by simp)]
      have hback : start + span front + (b - k) + k = start + span front + b := by omega
      simpa [hback] using hprev
    · have hfree := owns_free hx (y := (start + span front, (⟨.free, b⟩ : Chunk))) (by simp) rfl
      have hbound := h.bound
      have hall : span (front ++ ⟨.free, b⟩ :: back) = span front + (b + span back) := by simp
      have hqval := Alloc.toNat_ptrTo (h.lt (a := start + span front + (b - k)) (by omega))
      have hqfits : Fits (ptrTo (start + span front + (b - k))) 16 := by
        have hroom := h.room
        rw [Fits, hqval]
        omega
      simp only at hfree
      have hfirst : setSize g.mem (ptrTo (start + span front))
          (sizeAt g.mem (ptrTo (start + span front)) - n) x = g.mem x := by
        refine writesAt_setSize (h.fits hp) x fun q hq => ?_
        rw [List.mem_singleton.mp hq, hval]
        omega
      rw [← hfirst]
      refine writesAt_setSize hqfits x fun q hq => ?_
      rw [List.mem_singleton.mp hq, hqval]
      omega

/-! ## The walk of `malloc` -/

/-- The loop goes on over blocks that are too small. -/
theorem mallocLoop_walk (I : Image κ) (n : BitVec 32) (g : Program κ) {k : Nat} {prevp p : U64}
    (hp : ptrAt g.mem prevp = p)
    (h : ∀ i < k, ¬ n ≤ sizeAt g.mem ((ptrAt g.mem)^[i] p) ∧ (ptrAt g.mem)^[i] p ≠ g.freep)
    (fuel : Nat) :
    ptrAt g.mem ((ptrAt g.mem)^[k] prevp) = (ptrAt g.mem)^[k] p ∧
      mallocLoop I n (fuel + k) prevp p g =
        mallocLoop I n fuel ((ptrAt g.mem)^[k] prevp) ((ptrAt g.mem)^[k] p) g := by
  induction k generalizing prevp p with
  | zero => exact ⟨hp, rfl⟩
  | succ k ih =>
      obtain ⟨hsmall, hne⟩ := h 0 (by omega)
      simp only [Function.iterate_zero, id_eq] at hsmall hne
      obtain ⟨hlink, hloop⟩ := ih (show ptrAt g.mem p = _ from rfl) fun i hi => by
        have hstep := h (i + 1) (by omega)
        rwa [Function.iterate_succ_apply] at hstep
      rw [Function.iterate_succ_apply, Function.iterate_succ_apply, hp]
      refine ⟨hlink, ?_⟩
      rw [← hloop, ← Nat.add_assoc, mallocLoop, if_neg hsmall, if_neg hne]

/-- The ring has a block that is large enough: the walk comes to one. -/
theorem Laid.walk_fit (h : Laid m base start cs) (hentry : p ∈ base :: freePtrs start cs)
    (hq : q ∈ base :: freePtrs start cs) (hfit : n ≤ sizeAt m q) :
    ∃ k ≤ (freePtrs start cs).length, n ≤ sizeAt m ((ptrAt m)^[k] (ptrAt m p)) ∧
      ∀ i < k, ¬ n ≤ sizeAt m ((ptrAt m)^[i] (ptrAt m p)) ∧ (ptrAt m)^[i] (ptrAt m p) ≠ p := by
  classical
  obtain ⟨k, hk, hreach⟩ := h.round.reaches (h.round.next_mem hentry) hq
  have hex : ∃ i, n ≤ sizeAt m ((ptrAt m)^[i] (ptrAt m p)) := ⟨k, by rw [hreach]; exact hfit⟩
  refine ⟨Nat.find hex, (Nat.find_min' hex (by rw [hreach]; exact hfit)).trans hk,
    Nat.find_spec hex, fun i hi => ⟨Nat.find_min hex hi, fun hback => ?_⟩⟩
  -- a walk that is back at its start has been everywhere before
  have hearlier : n ≤ sizeAt m ((ptrAt m)^[Nat.find hex - (i + 1)] (ptrAt m p)) := by
    have hspec := Nat.find_spec hex
    have hsplit : Nat.find hex = (Nat.find hex - (i + 1)) + (i + 1) := by omega
    rw [hsplit, Function.iterate_add_apply, Function.iterate_succ_apply', hback] at hspec
    exact hspec
  exact Nat.find_min hex (by omega) hearlier

/-- No block of the ring is large enough: the walk comes back to where it began. -/
theorem Laid.walk_none (h : Laid m base start cs) (hentry : p ∈ base :: freePtrs start cs) :
    ∃ k ≤ (freePtrs start cs).length, (ptrAt m)^[k] (ptrAt m p) = p ∧
      ∀ i < k, (ptrAt m)^[i] (ptrAt m p) ≠ p := by
  classical
  obtain ⟨k, hk, hreach⟩ := h.round.reaches (h.round.next_mem hentry) hentry
  have hex : ∃ i, (ptrAt m)^[i] (ptrAt m p) = p := ⟨k, hreach⟩
  exact ⟨Nat.find hex, (Nat.find_min' hex hreach).trans hk, Nat.find_spec hex,
    fun i hi => Nat.find_min hex hi⟩

/-- A block of a heap is taken. -/
structure Took (I : Image κ) (start : Nat) (cs : List Chunk) (k : Nat) (g : Program κ)
    (r : U64) (g' : Program κ) (cs' : List Chunk) : Prop where
  chunks : ∃ front b back, cs = front ++ ⟨.free, b⟩ :: back ∧ k ≤ b ∧
    cs' = take front b back k ∧
    r = ptrTo (start + span front + (b - k)) + sizeofHeader
  laid : Laid g'.mem I.base start cs'
  entry : g'.freep ∈ I.base :: freePtrs start cs'
  keeps : ∀ x, Owns I.base start cs x → g'.mem x = g.mem x
  curbrk : g'.curbrk = g.curbrk
  kern : g'.kern = g.kern

/-- The loop, when a block is large enough. -/
theorem Laid.mallocLoop_fit {g : Program κ} (h : Laid g.mem I.base start cs)
    (hentry : g.freep ∈ I.base :: freePtrs start cs) (hn : 0 < n.toNat)
    (hq : q ∈ I.base :: freePtrs start cs) (hfit : n ≤ sizeAt g.mem q) {fuel : Nat}
    (hfuel : (freePtrs start cs).length < fuel) :
    ∃ r g' cs', mallocLoop I n fuel g.freep (ptrAt g.mem g.freep) g = .ok (r, g') ∧
      Took I start cs (16 * n.toNat) g r g' cs' := by
  obtain ⟨k, hk, hkfit, hwalk⟩ := h.walk_fit hentry hq hfit
  obtain ⟨hlink, hloop⟩ := mallocLoop_walk I n g rfl hwalk (fuel - k)
  have hmem := h.round.iterate_mem (h.round.next_mem hentry) k
  obtain ⟨front, b, back, rfl, hptr, hle⟩ := h.free_of_fits hmem hn hkfit
  have hprev := h.round.iterate_mem hentry k
  rw [hptr] at hlink
  obtain ⟨g', hout, hlaid, hentry', hkeeps, hcurbrk, hkern⟩ :=
    h.handOut rfl (by omega) hle hprev hlink
  refine ⟨_, g', _, ?_, ⟨⟨front, b, back, rfl, hle, rfl, rfl⟩, hlaid, hentry', hkeeps, hcurbrk,
    hkern⟩⟩
  have hsplit : fuel = (fuel - k) + k := by omega
  obtain ⟨f, hf⟩ : ∃ f, fuel - k = f + 1 := ⟨fuel - k - 1, by omega⟩
  rw [hsplit, hloop, hf, mallocLoop, if_pos hkfit, hptr, hout]

/-- The loop, when no block is large enough. -/
theorem Laid.mallocLoop_more {g : Program κ} (h : Laid g.mem I.base start cs)
    (hentry : g.freep ∈ I.base :: freePtrs start cs)
    (hsmall : ∀ q ∈ I.base :: freePtrs start cs, ¬ n ≤ sizeAt g.mem q) {fuel : Nat}
    (hfuel : (freePtrs start cs).length < fuel) :
    ∃ rest, fuel ≤ rest + (freePtrs start cs).length + 1 ∧
      mallocLoop I n fuel g.freep (ptrAt g.mem g.freep) g =
        (morecore I rest (n.setWidth 64) g).bind fun x =>
          if x.1 = 0#64 then .ok (0#64, x.2)
          else mallocLoop I n rest x.1 (ptrAt x.2.mem x.1) x.2 := by
  obtain ⟨k, hk, hback, hwalk⟩ := h.walk_none hentry
  have hmem := h.round.next_mem hentry
  obtain ⟨-, hloop⟩ := mallocLoop_walk I n g rfl
    (fun i hi => ⟨hsmall _ (h.round.iterate_mem hmem i), hwalk i hi⟩) (fuel - k)
  obtain ⟨f, hf⟩ : ∃ f, fuel - k = f + 1 := ⟨fuel - k - 1, by omega⟩
  refine ⟨f, by omega, ?_⟩
  have hsplit : fuel = (fuel - k) + k := by omega
  rw [hsplit, hloop, hf, mallocLoop, hback, if_neg (hsmall _ hentry), if_pos rfl]
  rfl

end Alloc

end BufferVM
