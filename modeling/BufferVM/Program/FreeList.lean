/-
  Program/FreeList.lean --- what the free list says of the heap.

  `Laid` says that memory holds a list of chunks from the heap's start: the ring of `s.ptr`
  goes through the free ones in ascending order, and every header has the size of its chunk.
  The search of `free` ends at the last free block below the released one.
-/
import BufferVM.Lib.Chunks
import BufferVM.Lib.PtrRing
import BufferVM.Program.Alloc

set_option autoImplicit false

namespace BufferVM

namespace Alloc

open ByteMem Chunks PtrList PtrRing

variable {m m' : GuestMem} {p q v : U64} {n : BitVec 32}

/-! ## Headers -/

theorem toNat_add_eight (h : Fits p 16) : (p + 8#64).toNat = p.toNat + 8 :=
  toNat_offset (i := 8) h (by omega)

/-- Only the headers at `qs` have been written. -/
def WritesAt (m m' : GuestMem) (qs : List U64) : Prop :=
  ∀ x : U64, (∀ q ∈ qs, x.toNat < q.toNat ∨ q.toNat + 16 ≤ x.toNat) → m' x = m x

theorem WritesAt.trans {m'' : GuestMem} {qs rs : List U64} (h : WritesAt m m' qs)
    (h' : WritesAt m' m'' rs) : WritesAt m m'' (qs ++ rs) := by
  intro x hx
  rw [h' x fun q hq => hx q (by simp [hq]), h x fun q hq => hx q (by simp [hq])]

theorem WritesAt.mono {qs rs : List U64} (h : WritesAt m m' qs) (hsub : qs ⊆ rs) :
    WritesAt m m' rs := fun x hx => h x fun q hq => hx q (hsub hq)

theorem writesAt_setPtr (h : Fits p 16) : WritesAt m (setPtr m p v) [p] := by
  intro x hx
  have hx' := hx p (by simp)
  rw [Fits] at h
  rw [setPtr]
  refine store_of_apart _ ?_ ?_
  · rw [Fits, length_wordBytes]
    omega
  · rw [length_wordBytes]
    omega

theorem writesAt_setSize (h : Fits p 16) : WritesAt m (setSize m p n) [p] := by
  intro x hx
  have hx' := hx p (by simp)
  have hadd := toNat_add_eight h
  rw [Fits] at h
  rw [setSize]
  refine store_of_apart _ ?_ ?_
  · rw [Fits, length_toBytes]
    omega
  · rw [length_toBytes]
    omega

/-- The bytes of a run are read where they have not changed. -/
theorem load_congr {a : U64} {k : Nat} (hfits : Fits a k)
    (h : ∀ x : U64, a.toNat ≤ x.toNat → x.toNat < a.toNat + k → m' x = m x) :
    load m' a k = load m a k := by
  refine List.map_congr_left fun i hi => ?_
  have hoff := toNat_offset hfits (List.mem_range.mp hi)
  have hlt := List.mem_range.mp hi
  exact h _ (by omega) (by omega)

/-- A header whose bytes have not changed. -/
theorem header_congr (hfits : Fits q 16)
    (hbyte : ∀ x : U64, q.toNat ≤ x.toNat → x.toNat < q.toNat + 16 → m' x = m x) :
    ptrAt m' q = ptrAt m q ∧ sizeAt m' q = sizeAt m q := by
  have hadd := toNat_add_eight hfits
  rw [Fits] at hfits
  constructor
  · rw [ptrAt, ptrAt, loadWord, loadWord, load_congr]
    · rw [Fits]
      omega
    · intro x hlow hhigh
      exact hbyte x hlow (by omega)
  · rw [sizeAt, sizeAt, load_congr]
    · rw [Fits]
      omega
    · intro x hlow hhigh
      exact hbyte x (by omega) (by omega)

/-- A header that has not been written. -/
theorem WritesAt.header {qs : List U64} (h : WritesAt m m' qs) (hfits : Fits q 16)
    (hapart : ∀ r ∈ qs, Apart q 16 r 16) : ptrAt m' q = ptrAt m q ∧ sizeAt m' q = sizeAt m q := by
  refine header_congr hfits fun x hlow hhigh => h x fun r hr => ?_
  have hr' := hapart r hr
  rw [Apart] at hr'
  omega

@[simp] theorem ptrAt_setPtr (m : GuestMem) (p v : U64) : ptrAt (setPtr m p v) p = v := by
  rw [ptrAt, setPtr]
  exact loadWord_of_bytesAt (bytesAt_store m (by rw [length_wordBytes]; decide))

@[simp] theorem sizeAt_setSize (m : GuestMem) (p : U64) (n : BitVec 32) :
    sizeAt (setSize m p n) p = n := by
  have hload : load (setSize m p n) (p + 8#64) 4 = toBytes 4 n.toNat := by
    have hbytes : BytesAt (setSize m p n) (p + 8#64) (toBytes 4 n.toNat) := by
      rw [setSize]
      exact bytesAt_store m (by rw [length_toBytes]; decide)
    simpa using hbytes.load
  have hn := n.isLt
  apply BitVec.eq_of_toNat_eq
  rw [sizeAt, hload, fromBytes_toBytes, BitVec.toNat_ofNat]
  omega

theorem sizeAt_setPtr (h : Fits p 16) : sizeAt (setPtr m p v) p = sizeAt m p := by
  have hadd := toNat_add_eight h
  rw [Fits] at h
  rw [sizeAt, sizeAt, load_congr]
  · rw [Fits]
    omega
  · intro x hlow hhigh
    rw [setPtr]
    refine store_of_apart _ ?_ ?_
    · rw [Fits, length_wordBytes]
      omega
    · rw [length_wordBytes]
      omega

theorem ptrAt_setSize (h : Fits p 16) : ptrAt (setSize m p n) p = ptrAt m p := by
  have hadd := toNat_add_eight h
  rw [Fits] at h
  rw [ptrAt, ptrAt, loadWord, loadWord, load_congr]
  · rw [Fits]
    omega
  · intro x hlow hhigh
    rw [setSize]
    refine store_of_apart _ ?_ ?_
    · rw [Fits, length_toBytes]
      omega
    · rw [length_toBytes]
      omega

/-! ## Chunks in memory -/

/-- The pointer to an address. -/
def ptrTo (a : Nat) : U64 := BitVec.ofNat 64 a

theorem toNat_ptrTo {a : Nat} (h : a < 2 ^ 64) : (ptrTo a).toNat = a := by
  rw [ptrTo, BitVec.toNat_ofNat, Nat.mod_eq_of_lt h]

/-- The blocks of the free list behind `base`. -/
def freePtrs (a : Nat) (cs : List Chunk) : List U64 := (frees a cs).map ptrTo

/-- Every chunk that has a header has its size there. -/
def Sized (m : GuestMem) (a : Nat) (cs : List Chunk) : Prop :=
  ∀ x ∈ located a cs, x.2.kind ≠ .lost → 16 * (sizeAt m (ptrTo x.1)).toNat = x.2.bytes

/-- Memory holds the chunks, behind `base`. -/
structure Laid (m : GuestMem) (base : U64) (start : Nat) (cs : List Chunk) : Prop where
  below : base.toNat + 16 ≤ start
  room : start + 2 ^ 37 ≤ 2 ^ 64
  bound : span cs < 2 ^ 36
  fine : Fine cs
  round : Round (ptrAt m) base (freePtrs start cs)
  baseSize : sizeAt m base = 0#32
  sized : Sized m start cs

/-- The address of a header. -/
def IsHeader (base : U64) (start : Nat) (cs : List Chunk) (q : U64) : Prop :=
  q = base ∨ ∃ x ∈ located start cs, x.2.kind ≠ .lost ∧ q = ptrTo x.1

theorem freePtrs_append (a : Nat) (front back : List Chunk) :
    freePtrs a (front ++ back) = freePtrs a front ++ freePtrs (a + span front) back := by
  rw [freePtrs, frees_append, List.map_append, freePtrs, freePtrs]

@[simp] theorem freePtrs_nil (a : Nat) : freePtrs a [] = [] := rfl

@[simp] theorem freePtrs_cons_free (a b : Nat) (cs : List Chunk) :
    freePtrs a (⟨.free, b⟩ :: cs) = ptrTo a :: freePtrs (a + b) cs := by
  rw [freePtrs, frees_cons_free, List.map_cons, freePtrs]

theorem freePtrs_cons_of_ne {c : Chunk} (a : Nat) (cs : List Chunk) (h : c.kind ≠ .free) :
    freePtrs a (c :: cs) = freePtrs (a + c.bytes) cs := by
  rw [freePtrs, frees_cons_of_ne a cs h, freePtrs]

section

variable {base : U64} {start : Nat} {cs front back : List Chunk}

/-- A chunk with a header has room for it. -/
theorem Laid.bytes_ge (h : Laid m base start cs) {x : Nat × Chunk} (hx : x ∈ located start cs)
    (hk : x.2.kind ≠ .lost) : 16 ≤ x.2.bytes := by
  have hsize := h.sized x hx hk
  obtain ⟨front, back, rfl, -⟩ := mem_located.mp hx
  have hpos := h.fine.pos x.2 (by simp)
  omega

theorem Laid.lt (h : Laid m base start cs) {a : Nat} (ha : a ≤ start + span cs) : a < 2 ^ 64 := by
  have hroom := h.room
  have hbound := h.bound
  omega

theorem Laid.toNat_ptrTo (h : Laid m base start cs) {x : Nat × Chunk} (hx : x ∈ located start cs) :
    (ptrTo x.1).toNat = x.1 := by
  have hbounds := located_bounds hx
  exact Alloc.toNat_ptrTo (h.lt (by omega))

theorem Laid.fits (h : Laid m base start cs) (hq : IsHeader base start cs q) : Fits q 16 := by
  have hbelow := h.below
  have hroom := h.room
  have hbound := h.bound
  rw [Fits]
  rcases hq with rfl | ⟨x, hx, hk, rfl⟩
  · omega
  · have hbounds := located_bounds hx
    have hbytes := h.bytes_ge hx hk
    rw [h.toNat_ptrTo hx]
    omega

/-- Two headers do not overlap. -/
theorem Laid.apart (h : Laid m base start cs) (hp : IsHeader base start cs p)
    (hq : IsHeader base start cs q) (hne : p ≠ q) : Apart p 16 q 16 := by
  have hbelow := h.below
  rw [Apart]
  rcases hp with rfl | ⟨x, hx, hxk, rfl⟩
  · rcases hq with rfl | ⟨y, hy, hyk, rfl⟩
    · exact absurd rfl hne
    · rw [h.toNat_ptrTo hy]
      have hbounds := located_bounds hy
      omega
  · rw [h.toNat_ptrTo hx]
    rcases hq with rfl | ⟨y, hy, hyk, rfl⟩
    · have hbounds := located_bounds hx
      omega
    · rw [h.toNat_ptrTo hy]
      have hxy : x ≠ y := by
        rintro rfl
        exact hne rfl
      have hapart := located_apart hx hy hxy
      have hxb := h.bytes_ge hx hxk
      have hyb := h.bytes_ge hy hyk
      omega

/-- A block of the free list has a header. -/
theorem isHeader_of_mem (hq : q ∈ base :: freePtrs start cs) : IsHeader base start cs q := by
  rcases List.mem_cons.mp hq with rfl | hq
  · exact Or.inl rfl
  · obtain ⟨a, ha, rfl⟩ := List.mem_map.mp hq
    obtain ⟨x, hx, rfl⟩ := List.mem_map.mp ha
    exact Or.inr ⟨_, mem_blocks.mp hx, by simp, rfl⟩

theorem isHeader_middle {c : Chunk} (hk : c.kind ≠ .lost) :
    IsHeader base start (front ++ c :: back) (ptrTo (start + span front)) :=
  Or.inr ⟨(start + span front, c), by simp, hk, rfl⟩

/-- The free list is in ascending order. -/
theorem Laid.pairwise (h : Laid m base start cs) :
    (base :: freePtrs start cs).Pairwise (· < ·) := by
  have hbelow := h.below
  refine List.pairwise_cons.mpr ⟨fun q hq => ?_, ?_⟩
  · obtain ⟨a, ha, rfl⟩ := List.mem_map.mp hq
    have hge := frees_ge ha
    have hlt := frees_lt h.fine.pos ha
    rw [BitVec.lt_def, Alloc.toNat_ptrTo (h.lt (by omega))]
    omega
  · rw [freePtrs, List.pairwise_map]
    refine (pairwise_frees h.fine.pos).imp_of_mem fun {a b} ha hb hab => ?_
    have hla := frees_lt h.fine.pos ha
    have hlb := frees_lt h.fine.pos hb
    rw [BitVec.lt_def, Alloc.toNat_ptrTo (h.lt (by omega)), Alloc.toNat_ptrTo (h.lt (by omega))]
    exact hab

theorem Laid.nodup (h : Laid m base start cs) : (base :: freePtrs start cs).Nodup :=
  h.pairwise.imp fun hlt heq => by
    rw [heq] at hlt
    exact BitVec.lt_irrefl _ hlt

/-- Chunks none of whose headers is written stay as they are. -/
theorem Sized.keeps {qs : List U64} (h : Laid m base start cs) (hw : WritesAt m m' qs)
    (hqs : ∀ q ∈ qs, IsHeader base start cs q) {x : Nat × Chunk} (hx : x ∈ located start cs)
    (hk : x.2.kind ≠ .lost) (hne : ptrTo x.1 ∉ qs) :
    16 * (sizeAt m' (ptrTo x.1)).toNat = x.2.bytes := by
  have hx' : IsHeader base start cs (ptrTo x.1) := Or.inr ⟨x, hx, hk, rfl⟩
  have hheader := hw.header (h.fits hx') fun q hq =>
    h.apart hx' (hqs q hq) fun heq => hne (heq ▸ hq)
  rw [hheader.2]
  exact h.sized x hx hk

/-! ## The search of `free` -/

/-- Two ways to cut a list at a threshold are one. -/
theorem cut_unique {t : U64} {a b c d : List U64} (h : a ++ b = c ++ d) (ha : ∀ x ∈ a, x < t)
    (hb : ∀ x ∈ b, ¬ x < t) (hc : ∀ x ∈ c, x < t) (hd : ∀ x ∈ d, ¬ x < t) : a = c ∧ b = d := by
  have hfront : ∀ {l r : List U64}, (∀ x ∈ l, x < t) → (∀ x ∈ r, ¬ x < t) →
      (l ++ r).filter (fun x => decide (x < t)) = l := by
    intro l r hl hr
    rw [List.filter_append, List.filter_eq_self.mpr (by simpa using hl),
      List.filter_eq_nil_iff.mpr (by simpa using hr), List.append_nil]
  have hac : a = c := by rw [← hfront ha hb, h, hfront hc hd]
  subst hac
  exact ⟨rfl, List.append_cancel_left h⟩

/-- The last pointer of an ascending list is the highest one. -/
theorem le_lastPtr {l : List U64} (h : (base :: l).Pairwise (· < ·)) :
    ∀ q ∈ base :: l, q ≤ lastPtr base l := by
  obtain ⟨a, ha⟩ := exists_lastPtr base l
  intro q hq
  rw [ha] at h hq
  rcases List.mem_append.mp hq with hq | hq
  · exact BitVec.le_of_lt ((List.pairwise_append.mp h).2.2 q hq _ (by simp))
  · rw [List.mem_singleton.mp hq]
    exact BitVec.le_refl _

/-- The condition on which the loop of `free` ends. -/
def Stops (m : GuestMem) (bp p : U64) : Prop :=
  (p < bp ∧ bp < ptrAt m p) ∨ (ptrAt m p ≤ p ∧ (p < bp ∨ bp < ptrAt m p))

variable {b c : Nat}

/-- The free blocks around a chunk in use. -/
theorem freePtrs_middle (hc : (⟨.used, c⟩ : Chunk).kind ≠ .free) :
    freePtrs start (front ++ ⟨.used, c⟩ :: back) =
      freePtrs start front ++ freePtrs (start + span front + c) back := by
  rw [freePtrs_append, freePtrs_cons_of_ne _ _ hc]

theorem Laid.front_lt (h : Laid m base start (front ++ ⟨.used, c⟩ :: back)) :
    ∀ q ∈ base :: freePtrs start front, q < ptrTo (start + span front) := by
  have hbelow := h.below
  have hall : span front ≤ span (front ++ ⟨.used, c⟩ :: back) := by simp
  intro q hq
  rw [BitVec.lt_def, Alloc.toNat_ptrTo (h.lt (by omega))]
  rcases List.mem_cons.mp hq with rfl | hq
  · omega
  · obtain ⟨a, ha, rfl⟩ := List.mem_map.mp hq
    have hlt := frees_lt h.fine.append.1.pos ha
    rw [Alloc.toNat_ptrTo (h.lt (by omega))]
    exact hlt

theorem Laid.back_gt (h : Laid m base start (front ++ ⟨.used, c⟩ :: back)) :
    ∀ q ∈ freePtrs (start + span front + c) back, ptrTo (start + span front) < q := by
  have hc : 0 < c := h.fine.pos ⟨.used, c⟩ (by simp)
  have hall : span (front ++ ⟨.used, c⟩ :: back) = span front + (c + span back) := by simp
  intro q hq
  obtain ⟨a, ha, rfl⟩ := List.mem_map.mp hq
  have hge := frees_ge ha
  have hlt := frees_lt h.fine.append.2.tail.pos ha
  rw [BitVec.lt_def, Alloc.toNat_ptrTo (h.lt (by omega)), Alloc.toNat_ptrTo (h.lt (by omega))]
  omega

/-- A sorted ring that is cut behind a pointer: the loop ends there exactly when the pointer
is below the released block and everything behind the cut is above it. -/
theorem stops_cut {x y : List U64} {bp : U64} (hpair : ((base :: x) ++ y).Pairwise (· < ·))
    (hnext : ptrAt m (lastPtr base x) = headPtr base y) (hbase : base < bp) :
    Stops m bp (lastPtr base x) ↔ lastPtr base x < bp ∧ ∀ z ∈ y, bp < z := by
  obtain ⟨hpx, hpy, hacross⟩ := List.pairwise_append.mp hpair
  rw [Stops, hnext]
  cases y with
  | nil =>
      -- the ring comes back to `base`, which is the lowest pointer
      have hle := le_lastPtr hpx base List.mem_cons_self
      rw [headPtr_nil]
      constructor
      · rintro (⟨hlt, -⟩ | ⟨-, hlt | hlt⟩)
        · exact ⟨hlt, by simp⟩
        · exact ⟨hlt, by simp⟩
        · bv_omega
      · rintro ⟨hlt, -⟩
        exact Or.inr ⟨hle, Or.inl hlt⟩
  | cons r y =>
      have hr : lastPtr base x < r := hacross _ (lastPtr_mem_cons base x) r List.mem_cons_self
      rw [headPtr_cons]
      constructor
      · rintro (⟨hlt, habove⟩ | ⟨hle, -⟩)
        · refine ⟨hlt, fun z hz => ?_⟩
          rcases List.mem_cons.mp hz with rfl | hz
          · exact habove
          · have hrz := (List.pairwise_cons.mp hpy).1 z hz
            bv_omega
        · bv_omega
      · rintro ⟨hlt, habove⟩
        exact Or.inl ⟨hlt, habove r List.mem_cons_self⟩

/-- The loop of `free` ends behind the last free block below the released one, and nowhere
else. -/
theorem Laid.stops_iff (h : Laid m base start (front ++ ⟨.used, c⟩ :: back))
    (hq : q ∈ base :: freePtrs start (front ++ ⟨.used, c⟩ :: back)) :
    Stops m (ptrTo (start + span front)) q ↔ q = lastPtr base (freePtrs start front) := by
  have hfront := h.front_lt
  have hback := h.back_gt
  have hround := h.round
  have hpair := h.pairwise
  rw [freePtrs_middle (by simp)] at hround hpair hq
  generalize freePtrs start front = fr at *
  generalize freePtrs (start + span front + c) back = bk at *
  generalize ptrTo (start + span front) = bp at *
  have hpf : (base :: fr).Pairwise (· < ·) := by
    rw [← List.cons_append] at hpair
    exact (List.pairwise_append.mp hpair).1
  obtain ⟨x, y, hxy, rfl⟩ := exists_front hq
  have hmem : ∀ z ∈ y, z ∈ fr ∨ z ∈ bk := by
    intro z hz
    rw [← List.mem_append, hxy]
    exact List.mem_append_right x hz
  rw [hxy] at hround
  rw [hxy, ← List.cons_append] at hpair
  obtain ⟨hpx, -, hacross⟩ := List.pairwise_append.mp hpair
  rw [stops_cut hpair hround.cut (hfront base List.mem_cons_self)]
  constructor
  · rintro ⟨hlt, habove⟩
    -- both cuts of the ring are between the pointers below the block and those above it
    have hbelow : ∀ z ∈ x, z < bp := by
      intro z hz
      have hle := le_lastPtr hpx z (List.mem_cons_of_mem _ hz)
      bv_omega
    have hcut := cut_unique hxy.symm hbelow
      (fun z hz => BitVec.not_lt.mpr (BitVec.le_of_lt (habove z hz)))
      (fun z hz => hfront z (List.mem_cons_of_mem _ hz))
      (fun z hz => BitVec.not_lt.mpr (BitVec.le_of_lt (hback z hz)))
    rw [hcut.1]
  · intro heq
    refine ⟨?_, fun z hz => ?_⟩
    · rw [heq]
      exact hfront _ (lastPtr_mem_cons base fr)
    · have hgt := hacross _ (lastPtr_mem_cons base x) z hz
      rcases hmem z hz with hz | hz
      · have hle := le_lastPtr hpf z (List.mem_cons_of_mem _ hz)
        rw [← heq] at hle
        bv_omega
      · exact hback z hz

theorem freeSearch_of_stops {bp : U64} (h : Stops m bp p) (fuel : Nat) :
    Alloc.freeSearch m bp (fuel + 1) p = .ok p := by
  rw [Alloc.freeSearch]
  by_cases h1 : p < bp ∧ bp < ptrAt m p
  · rw [if_pos h1]
  · rw [if_neg h1, if_pos (h.resolve_left h1)]

theorem freeSearch_of_not_stops {bp : U64} (h : ¬ Stops m bp p) (fuel : Nat) :
    Alloc.freeSearch m bp (fuel + 1) p = Alloc.freeSearch m bp fuel (ptrAt m p) := by
  obtain ⟨h1, h2⟩ := not_or.mp h
  rw [Alloc.freeSearch, if_neg h1, if_neg h2]

/-- The search, from anywhere in the ring. -/
theorem Laid.freeSearch (h : Laid m base start (front ++ ⟨.used, c⟩ :: back))
    (hq : q ∈ base :: freePtrs start (front ++ ⟨.used, c⟩ :: back)) {fuel : Nat}
    (hfuel : (freePtrs start (front ++ ⟨.used, c⟩ :: back)).length < fuel) :
    freeSearch m (ptrTo (start + span front)) fuel q =
      .ok (lastPtr base (freePtrs start front)) := by
  have hmem : lastPtr base (freePtrs start front) ∈
      base :: freePtrs start (front ++ ⟨.used, c⟩ :: back) := by
    rw [freePtrs_middle (by simp), ← List.cons_append]
    exact List.mem_append_left _ (lastPtr_mem_cons _ _)
  obtain ⟨k, hk, hreach⟩ := h.round.reaches hq hmem
  have hkf : k < fuel := by omega
  clear hk hfuel
  induction k generalizing q fuel with
  | zero =>
      obtain ⟨fuel, rfl⟩ : ∃ f, fuel = f + 1 := ⟨fuel - 1, by omega⟩
      rw [freeSearch_of_stops ((h.stops_iff hq).mpr hreach), ← hreach]
      rfl
  | succ k ih =>
      obtain ⟨fuel, rfl⟩ : ∃ f, fuel = f + 1 := ⟨fuel - 1, by omega⟩
      by_cases hstop : Stops m (ptrTo (start + span front)) q
      · rw [freeSearch_of_stops hstop, (h.stops_iff hq).mp hstop]
      · rw [freeSearch_of_not_stops hstop]
        exact ih (h.round.next_mem hq) hreach (by omega)

end

end Alloc

end BufferVM
