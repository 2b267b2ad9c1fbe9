/-
  Program/Realloc.lean --- what the sizes of `alloc.c` amount to.

  `nunits` is an `unsigned`, so a request of 64 GiB gets a block that does not hold it.
  `realloc` compares the number of units with a number of bytes and copies as many bytes as
  the block has units.
-/
import BufferVM.Kernel.UserStrings
import BufferVM.Program.AllocRuns

set_option autoImplicit false

namespace BufferVM

namespace Alloc

open ByteMem Chunks PtrList PtrRing

variable {κ : Type} {I : Image κ} {S : BrkSpec I} {s t : Session κ}

/-! ## `nunits` -/

/-- The number of units holds the request and a header exactly when it can be counted. -/
theorem room_nunits_iff (nbytes : U64) : nbytes.toNat + 16 ≤ 16 * (nunits nbytes).toNat ↔
    nbytes.toNat + 32 ≤ 2 ^ 36 := by
  constructor
  · intro h
    have hn := (nunits nbytes).isLt
    omega
  · intro h
    rw [toNat_nunits h]
    omega

/-- A request for no units is answered with the first block in the list. -/
theorem Sound.malloc_zero {g g' : Program κ} {cs : List Chunk} {nbytes r : U64} {fuel : Nat}
    (h : Sound S g cs) (hn : nunits nbytes = 0#32)
    (hrun : Alloc.malloc I fuel nbytes g = .ok (r, g')) :
    sizeAt g'.mem (r - sizeofHeader) = 0#32 := by
  rw [Alloc.malloc, h.initList, hn] at hrun
  cases fuel with
  | zero => exact absurd hrun (by simp [mallocLoop])
  | succ fuel =>
      have hzero : 0#32 ≤ sizeAt g.mem (ptrAt g.mem g.freep) := by
        rw [BitVec.le_def]
        exact Nat.zero_le _
      rw [mallocLoop, if_pos hzero] at hrun
      have hout := Except.ok.inj hrun
      rw [handOut] at hout
      split at hout
      · rename_i hsize
        obtain ⟨rfl, rfl⟩ := Prod.mk.inj hout
        have hentry := isHeader_of_mem h.entry
        have hnext := isHeader_of_mem (h.laid.round.next_mem h.entry)
        rw [BitVec.add_sub_cancel]
        by_cases heq : ptrAt g.mem g.freep = g.freep
        · rw [heq] at hsize ⊢
          rw [sizeAt_setPtr (h.laid.fits hentry), hsize]
        · rw [((writesAt_setPtr (h.laid.fits hentry)).header (h.laid.fits hnext)
            (by simpa using h.laid.apart hnext hentry heq)).2, hsize]
      · obtain ⟨rfl, rfl⟩ := Prod.mk.inj hout
        rw [BitVec.add_sub_cancel]
        exact sizeAt_setSize _ _ _

/-- **A block holds what was asked for exactly when that and two headers are no more than
64 GiB.** -/
theorem malloc_room_iff {es : List (Event κ)} (h : s.Runs S es t) (hs : Starts S s)
    {nbytes r : U64} (hcount : Counted S (nunits nbytes) t.prog) {fuel : Nat} {g : Program κ}
    (hrun : malloc I fuel nbytes t.prog = .ok (r, g)) (hr : r ≠ 0#64) :
    nbytes.toNat + 16 ≤ 16 * (sizeAt g.mem (r - sizeofHeader)).toNat ↔
      nbytes.toNat + 32 ≤ 2 ^ 36 := by
  obtain ⟨cs, hcase, hh⟩ := h.inv hs
  have hany : ∀ g₀ : Program κ, Sound S g₀ cs → Counted S (nunits nbytes) g₀ →
      malloc I fuel nbytes g₀ = .ok (r, g) →
      (nbytes.toNat + 16 ≤ 16 * (sizeAt g.mem (r - sizeofHeader)).toNat ↔
        nbytes.toNat + 32 ≤ 2 ^ 36) := by
    intro g₀ hsound hcount hrun
    rw [← room_nunits_iff]
    by_cases hn : nunits nbytes = 0#32
    · rw [hsound.malloc_zero hn hrun, hn]
    · have hpos : 0 < (nunits nbytes).toNat := by
        by_contra hc
        have hzero : (nunits nbytes).toNat = (0#32).toNat := Nat.eq_zero_of_not_pos hc
        exact hn (BitVec.eq_of_toNat_eq hzero)
      rcases hsound.malloc_ok hpos hcount hrun with ⟨hnull, -⟩ | ⟨cs', hm⟩
      · exact absurd hnull hr
      · obtain ⟨a, hmem, rfl, -⟩ := hm.block
        have hsize := hm.sound.laid.sized _ (mem_blocks.mp hmem) (by simp)
        simp only at hsize
        rw [← ptrTo_add_sizeofHeader, BitVec.add_sub_cancel, hsize]
  rcases hcase with ⟨hfresh, rfl⟩ | hsound
  · exact hany _ hfresh.sound hcount.initList (by rw [← malloc_initList hfresh]; exact hrun)
  · exact hany _ hsound hcount hrun

/-- A result that has been evaluated. -/
theorem ok_of_toOption {α : Type} {e : Except Halt α} {x : α} (h : e.toOption = some x) :
    e = .ok x := by
  cases e with
  | error halt => exact absurd h (by simp [Except.toOption])
  | ok y => exact congrArg Except.ok (Option.some.inj h)

theorem malloc_room_iff_two : ∃ (r : U64) (g : Program U64),
    (100#64).toNat + 16 ≤ 16 * (sizeAt g.mem (r - sizeofHeader)).toNat ↔
      (100#64).toNat + 32 ≤ 2 ^ 36 := by
  have hexec : (Run.exec (Alloc.step pagedImage) (callTest pagedSpec) twoBlocks pagedStart).any
      (fun t => Counted pagedSpec (nunits 100#64) t.prog ∧
        (malloc pagedImage 8 100#64 t.prog).toOption.any fun x => x.1 ≠ 0#64) = true := by
    decide +kernel
  obtain ⟨t, ht, hfacts⟩ := (Option.any_eq_true _ _).mp hexec
  obtain ⟨hcount, hsome⟩ := of_decide_eq_true hfacts
  obtain ⟨⟨r, g⟩, hx, hr⟩ := (Option.any_eq_true _ _).mp hsome
  exact ⟨r, g, malloc_room_iff (Run.Steps.of_exec (allowed_of_callTest _) _ ht) starts_pagedStart
    hcount (ok_of_toOption hx) (of_decide_eq_true hr)⟩

/-! ## `realloc` -/

/-- The size of a block in units, as its header has it. -/
def Program.units (g : Program κ) (b : Block) : Nat :=
  (sizeAt g.mem (b.1 - sizeofHeader)).toNat

/-- The block that a program holds, as a chunk. -/
theorem Holds.header {g : Program κ} {base : U64} {start : Nat} {cs : List Chunk}
    {live : List Block} {b : Block} (h : Holds start cs live) (hl : Laid g.mem base start cs)
    (hb : b ∈ live) : ∃ a c, (a, c) ∈ blocks .used start cs ∧ b.1.toNat = a + 16 ∧
      b.2 + 16 ≤ c ∧ 16 * g.units b = c ∧ a + c ≤ start + span cs := by
  obtain ⟨⟨a, c⟩, hx, hbx, hroom⟩ := h.room b hb
  refine ⟨a, c, hx, ?_, hroom, ?_, (blocks_bounds hx).2⟩
  · rw [hbx]
    exact hl.toNat_block hx
  · rw [Program.units, hbx, ← ptrTo_add_sizeofHeader, BitVec.add_sub_cancel]
    exact hl.sized _ (mem_blocks.mp hx) (by simp)

/-- What a block contains after some bytes have been copied to it. -/
theorem load_memcpy {m : GuestMem} {dest src : U64} {n size : Nat} (hn : n ≤ size)
    (hdest : Fits dest size) (hsrc : Fits src n) (hapart : Apart dest size src n) {i : Nat}
    (hi : i < size) : memcpy dest src n m (offset dest i) =
      if i < n then m (offset src i) else m (offset dest i) := by
  have hdest' : Fits dest n := by
    rw [Fits] at hdest ⊢
    omega
  have hapart' : Apart dest n src n := by
    rw [Apart] at hapart ⊢
    omega
  rw [memcpy_eq m hdest' hsrc hapart']
  split
  · rename_i hlt
    have hlen : (load m src n).length ≤ 2 ^ 64 := by
      rw [length_load]
      rw [Fits] at hdest'
      omega
    have hbytes := bytesAt_store m (a := dest) hlen
    rw [hbytes i (by rw [length_load]; exact hlt)]
    simp [load]
  · rename_i hge
    have hoff := toNat_offset hdest hi
    refine store_of_apart _ ?_ ?_
    · rwa [length_load]
    · rw [length_load]
      omega

/-- What `realloc` copies, once there is a new block: one byte for each unit of the old one. -/
theorem Holds.copied {u : Session κ} {b : Block} {r : U64} {size : Nat} {cs : List Chunk}
    (hh : Holds S.start cs u.live) (hu : Sound S u.prog cs) (hlive : u.live = (r, size) :: t.live)
    (hb : b ∈ t.live) (hlt : u.prog.units b < size) :
    b.1 ≠ r ∧ (∀ x, ¬ Mine S u x → memcpy r b.1 (u.prog.units b) u.prog.mem x = u.prog.mem x) ∧
      ∀ i < size, memcpy r b.1 (u.prog.units b) u.prog.mem (offset r i) =
        if i < u.prog.units b then u.prog.mem (offset b.1 i) else u.prog.mem (offset r i) := by
  have hroom := S.room
  have hbound := hu.laid.bound
  have hnd : ((r, size) :: t.live).map Prod.fst |>.Nodup := by
    rw [← hlive]
    exact hh.perm.nodup_iff.mpr hu.laid.nodup_blocks
  have hne : b.1 ≠ r := by
    intro heq
    have hmem : b.1 ∈ t.live.map Prod.fst := List.mem_map_of_mem hb
    rw [heq] at hmem
    exact (List.nodup_cons.mp hnd).1 hmem
  obtain ⟨a, c, hac, hbval, -, hbsize, hbtop⟩ :=
    hh.header hu.laid (b := b) (by rw [hlive]; simp [hb])
  obtain ⟨d, e, hde, hrval, hrroom, -, hrtop⟩ :=
    hh.header hu.laid (b := (r, size)) (by rw [hlive]; simp)
  simp only at hrval hrroom
  have hapart := located_apart (mem_blocks.mp hac) (mem_blocks.mp hde) (fun heq => hne (by
    have h1 : a = d := congrArg (fun z : Nat × Chunk => z.1) heq
    exact BitVec.eq_of_toNat_eq (by rw [hbval, hrval, h1])))
  simp only at hapart
  have hbytes := hu.laid.bytes_ge (mem_blocks.mp hac) (by simp)
  simp only at hbytes
  have hdest : Fits r size := by
    rw [Fits]
    omega
  have hsrc : Fits b.1 (u.prog.units b) := by
    rw [Fits]
    omega
  have happ : Apart r size b.1 (u.prog.units b) := by
    rw [Apart]
    omega
  refine ⟨hne, fun x hx => ?_, fun i hi => load_memcpy (Nat.le_of_lt hlt) hdest hsrc happ hi⟩
  have hout : x.toNat < r.toNat ∨ r.toNat + size ≤ x.toNat := by
    by_contra hin
    refine hx (Or.inl ⟨(r, size), by rw [hlive]; simp, ?_, ?_⟩)
    · simp only
      omega
    · simp only
      omega
  rw [memcpy_eq _ (by rw [Fits] at hdest ⊢; omega) hsrc (by rw [Apart] at happ ⊢; omega)]
  refine store_of_apart _ ?_ ?_
  · rw [length_load, Fits]
    rw [Fits] at hdest
    omega
  · rw [length_load]
    omega

/-- A block is moved by three events: a new one, a copy to it, and the old one is freed. -/
theorem Inv.moves {b : Block} {size new : U64} {fuel : Nat} {g g₁ : Program κ} {mem : GuestMem}
    (h : Inv S t) (hb : b ∈ t.live) (hok : Allowed S t (.malloc fuel size))
    (hmalloc : malloc I fuel size t.prog = .ok (new, g₁)) (hnew : new ≠ 0#64) (hne : b.1 ≠ new)
    (hwrite : ∀ x, ¬ Mine S ⟨g₁, (new, size.toNat) :: t.live⟩ x → mem x = g₁.mem x)
    (hfree : free fuel b.1 { g₁ with mem := mem } = .ok g) :
    t.Runs S [.malloc fuel size, .write mem, .free fuel b]
        ⟨g, (new, size.toNat) :: t.live.erase b⟩ ∧
      ∀ x, InBlock (new, size.toNat) x → g.mem x = mem x := by
  have hfirst : Alloc.step I t (.malloc fuel size) =
      some ⟨g₁, (new, size.toNat) :: t.live⟩ := by
    rw [Alloc.step, hmalloc]
    simp only [if_neg hnew]
  have hsecond : Alloc.step I ⟨g₁, (new, size.toNat) :: t.live⟩ (.write mem) =
      some ⟨{ g₁ with mem := mem }, (new, size.toNat) :: t.live⟩ := rfl
  have hthird : Alloc.step I ⟨{ g₁ with mem := mem }, (new, size.toNat) :: t.live⟩
      (.free fuel b) = some ⟨g, (new, size.toNat) :: t.live.erase b⟩ := by
    rw [Alloc.step, hfree]
    have herase : ((new, size.toNat) :: t.live).erase b = (new, size.toNat) :: t.live.erase b :=
      List.erase_cons_tail (by simpa using fun heq => absurd (congrArg Prod.fst heq).symm hne)
    simp only [herase]
  have hb' : b ∈ (new, size.toNat) :: t.live := List.mem_cons_of_mem _ hb
  have hinv := (h.step hok hfirst).step (e := .write mem) hwrite hsecond
  refine ⟨.cons hok hfirst (.cons hwrite hsecond (.cons hb' hthird (.nil _))), fun x hx => ?_⟩
  exact hinv.keepsMine (e := .free fuel b) hb' hthird (Or.inr ⟨_, _, rfl⟩)
    (Or.inl ⟨(new, size.toNat), by simp, by simp, hx⟩)

/-- `realloc` has moved the block `b` to `r`: the events of a run, and what the new block
contains.  `g₁` is the program when `malloc` has answered. -/
structure Moved (S : BrkSpec I) (t : Session κ) (b : Block) (fuel : Nat) (size r : U64)
    (g₁ g : Program κ) : Prop where
  got : malloc I fuel size t.prog = .ok (r, g₁)
  ne_null : r ≠ 0#64
  ne_old : r ≠ b.1
  runs : ∃ es, t.Runs S es ⟨g, (r, size.toNat) :: t.live.erase b⟩
  copied : ∀ i < t.prog.units b, i < b.2 → g.mem (offset r i) = t.prog.mem (offset b.1 i)
  rest : ∀ i < size.toNat, t.prog.units b ≤ i → g.mem (offset r i) = g₁.mem (offset r i)

/-- The two ways of `realloc`. -/
theorem realloc_eq {b : Block} (hb : b.1 ≠ 0#64) (fuel : Nat) (size : U64) (g : Program κ) :
    realloc I fuel b.1 size g =
      if g.units b < size.toNat then
        (malloc I fuel size g).bind fun x =>
          if x.1 = 0#64 then .ok (0#64, x.2)
          else (free fuel b.1 { x.2 with mem := memcpy x.1 b.1 (x.2.units b) x.2.mem }).bind
            fun g => .ok (x.1, g)
      else .ok (b.1, g) := by
  have hlt := (sizeAt g.mem (b.1 - sizeofHeader)).isLt
  have hwiden : ((sizeAt g.mem (b.1 - sizeofHeader)).setWidth 64 < size) =
      (g.units b < size.toNat) := by
    rw [BitVec.lt_def, BitVec.toNat_setWidth, Nat.mod_eq_of_lt (by omega), Program.units]
  rw [Alloc.realloc, if_neg hb]
  simp only [hwiden]
  rfl

/-- `malloc` does not touch the header of a block that the program holds. -/
theorem Malloced.units {b : Block} {c : Nat} {r : U64} {g₁ : Program κ} {cs cs' : List Chunk}
    (hm : Malloced S t.prog cs c r g₁ cs') (hsound : Sound S t.prog cs)
    (hh : Holds S.start cs t.live) (hb : b ∈ t.live) : g₁.units b = t.prog.units b := by
  obtain ⟨x, hx, hbx, -⟩ := hh.room b hb
  obtain ⟨a, us, vs, hold, hused, -⟩ := hm.used
  have hx' : x ∈ blocks .used S.start cs' := by
    rw [hold] at hx
    rw [hused]
    simp only [List.mem_append, List.mem_cons] at hx ⊢
    tauto
  have hbefore := hsound.laid.sized _ (mem_blocks.mp hx) (by simp)
  have hafter := hm.sound.laid.sized _ (mem_blocks.mp hx') (by simp)
  simp only at hbefore hafter
  rw [Program.units, Program.units, hbx, ← ptrTo_add_sizeofHeader, BitVec.add_sub_cancel]
  omega

/-- `malloc` has found a new block: the old one is moved to it. -/
theorem Inv.moved {b : Block} {size new : U64} (fuel : Nat) {g₁ : Program κ}
    {cs cs' : List Chunk} (h : Inv S t) (hsound : Sound S t.prog cs)
    (hh : Holds S.start cs t.live) (hb : b ∈ t.live) (hok : Allowed S t (.malloc fuel size))
    (hmalloc : malloc I fuel size t.prog = .ok (new, g₁))
    (hm : Malloced S t.prog cs (16 * (nunits size).toNat) new g₁ cs')
    (hlt : t.prog.units b < size.toNat) (hfuel : (freePtrs S.start cs).length + 1 < fuel) :
    ∃ g, realloc I fuel b.1 size t.prog = .ok (new, g) ∧ Moved S t b fuel size new g₁ g := by
  obtain ⟨a, c, hac, hbval, hbroom, -, hbtop⟩ := hh.header hsound.laid hb
  obtain ⟨d, hde, -, hnewval, hnew0⟩ := hm.block
  obtain ⟨d', us, vs, hold, hused, hnew'⟩ := hm.used
  have hb0 : b.1 ≠ 0#64 := by
    intro hzero
    rw [hzero] at hbval
    simp at hbval
  have hroom := (room_nunits_iff size).mpr hok.1
  have hh' : Holds S.start cs' ((new, size.toNat) :: t.live) := hh.cons hold hused hnew' hroom
  have hunits := hm.units hsound hh hb
  obtain ⟨hne, hwrite, hcopy⟩ := hh'.copied (u := ⟨g₁, (new, size.toNat) :: t.live⟩) hm.sound rfl
    hb (by simp only [hunits]; exact hlt)
  simp only [hunits] at hwrite hcopy
  have hwritten := hm.sound.write (s := ⟨g₁, (new, size.toNat) :: t.live⟩) hh' hwrite
  obtain ⟨g, hfree⟩ := hwritten.free_block hh' (List.mem_cons_of_mem _ hb)
    fuel (by have := hm.frees; omega)
  obtain ⟨hruns, hblock⟩ := h.moves hb hok hmalloc hnew0 hne hwrite hfree
  have hoff : ∀ i < size.toNat, InBlock (new, size.toNat) (offset new i) := by
    intro i hi
    have htop := hm.sound.laid.lt (a := d + 16 + size.toNat) (by
      have hbounds := blocks_bounds hde
      omega)
    have hval := toNat_offset (a := new) (n := size.toNat) (by rw [Fits]; omega) hi
    simp only [InBlock, hval]
    omega
  refine ⟨g, ?_, hmalloc, hnew0, hne.symm, ⟨_, hruns⟩, fun i hi hib => ?_, fun i hi hui => ?_⟩
  · rw [realloc_eq hb0, if_pos hlt, hmalloc]
    simp only [Except.bind, if_neg hnew0, hunits, hfree]
  · rw [hblock _ (hoff i (by omega)), hcopy i (by omega), if_pos hi]
    have hfits : Fits b.1 b.2 := by
      have hlast := hsound.laid.lt (a := a + c) hbtop
      rw [Fits]
      omega
    have hval := toNat_offset hfits hib
    refine h.keepsMine hok (u := ⟨g₁, (new, size.toNat) :: t.live⟩) ?_ (Or.inl ⟨_, _, rfl⟩)
      (Or.inl ⟨b, hb, List.mem_cons_of_mem _ hb, by rw [InBlock]; omega⟩)
    rw [Alloc.step, hmalloc]
    simp only [if_neg hnew0]
  · rw [hblock _ (hoff i hi), hcopy i hi, if_neg (by omega)]

/-- **`realloc` answers with the block itself exactly when it has as many units as bytes are
asked for.**  Otherwise `malloc` is called, and unless the kernel ends the machine it comes
back: with `NULL`, and memory is as it was, or with a new block, after a run of `malloc`, a
copy and `free`.  Of the old block only as many bytes are in the new one as it had units. -/
theorem realloc_answers {es : List (Event κ)} (h : s.Runs S es t) (hs : Starts S s) {b : Block}
    (hb : b ∈ t.live) {size : U64} (hsize : size.toNat + 32 ≤ 2 ^ 36)
    (hcount : Counted S (nunits size) t.prog) : ∃ need, ∀ fuel, need ≤ fuel →
      ((∃ g, realloc I fuel b.1 size t.prog = .ok (b.1, g)) ↔ size.toNat ≤ t.prog.units b) ∧
      (size.toNat ≤ t.prog.units b → realloc I fuel b.1 size t.prog = .ok (b.1, t.prog)) ∧
      (t.prog.units b < size.toNat →
        realloc I fuel b.1 size t.prog = .error .ended ∨
        (∃ g, realloc I fuel b.1 size t.prog = .ok (0#64, g) ∧ g.mem = t.prog.mem ∧
          Inv S ⟨g, t.live⟩) ∨
        ∃ r g₁ g, realloc I fuel b.1 size t.prog = .ok (r, g) ∧
          Moved S t b fuel size r g₁ g) := by
  obtain ⟨cs, hcase, hh⟩ := h.inv hs
  rcases hcase with ⟨hfresh, rfl⟩ | hsound
  · obtain ⟨y, hy, -⟩ := hh.room b hb
    simp at hy
  obtain ⟨a, c, -, hbval, -⟩ := hh.header hsound.laid hb
  have hb0 : b.1 ≠ 0#64 := by
    intro hzero
    rw [hzero] at hbval
    simp at hbval
  refine ⟨2 * (freePtrs S.start cs).length + 4, fun fuel hfuel => ?_⟩
  have hstays : size.toNat ≤ t.prog.units b →
      realloc I fuel b.1 size t.prog = .ok (b.1, t.prog) := by
    intro hle
    rw [realloc_eq hb0, if_neg (by omega)]
  have hmoves : t.prog.units b < size.toNat →
      realloc I fuel b.1 size t.prog = .error .ended ∨
      (∃ g, realloc I fuel b.1 size t.prog = .ok (0#64, g) ∧ g.mem = t.prog.mem ∧
        Inv S ⟨g, t.live⟩) ∨
      ∃ r g₁ g, realloc I fuel b.1 size t.prog = .ok (r, g) ∧ Moved S t b fuel size r g₁ g := by
    intro hlt
    have hpos : 0 < (nunits size).toNat := by
      rw [toNat_nunits hsize]
      omega
    rcases hsound.malloc hpos hcount hfuel with hend | ⟨g, -, -, hnull, hsound', hmem, -⟩ |
      ⟨r, g₁, cs', hmalloc, hm⟩
    · left
      rw [realloc_eq hb0, if_pos hlt, hend]
      rfl
    · refine Or.inr (Or.inl ⟨g, ?_, hmem, cs, Or.inr hsound', hh⟩)
      rw [realloc_eq hb0, if_pos hlt, hnull]
      rfl
    · obtain ⟨g, hrun, hmoved⟩ := (h.inv hs).moved fuel hsound hh hb ⟨hsize, hcount⟩ hmalloc
        hm hlt (by omega)
      exact Or.inr (Or.inr ⟨r, g₁, g, hrun, hmoved⟩)
  refine ⟨⟨fun ⟨g, hrun⟩ => ?_, fun hle => ⟨_, hstays hle⟩⟩, hstays, hmoves⟩
  by_contra hle
  rcases hmoves (by omega) with hend | ⟨g', hnull, -⟩ | ⟨r, g₁, g', hnew, hmoved⟩
  · rw [hend] at hrun
    exact absurd hrun (by simp)
  · rw [hnull] at hrun
    exact hb0 (Prod.mk.inj (Except.ok.inj hrun)).1.symm
  · rw [hnew] at hrun
    exact hmoved.ne_old (Prod.mk.inj (Except.ok.inj hrun)).1

theorem realloc_answers_two : ∃ t : Session U64,
    t.live = [(0x13f50#64, 40), (0x13f90#64, 100)] ∧ t.prog.units (0x13f90#64, 100) = 8 ∧
    ∃ need, ∀ fuel, need ≤ fuel →
      ((∃ g, realloc pagedImage fuel 0x13f90#64 200#64 t.prog = .ok (0x13f90#64, g)) ↔
        (200#64).toNat ≤ t.prog.units (0x13f90#64, 100)) ∧
      ((200#64).toNat ≤ t.prog.units (0x13f90#64, 100) →
        realloc pagedImage fuel 0x13f90#64 200#64 t.prog = .ok (0x13f90#64, t.prog)) ∧
      (t.prog.units (0x13f90#64, 100) < (200#64).toNat →
        realloc pagedImage fuel 0x13f90#64 200#64 t.prog = .error .ended ∨
        (∃ g, realloc pagedImage fuel 0x13f90#64 200#64 t.prog = .ok (0#64, g) ∧
          g.mem = t.prog.mem ∧ Inv pagedSpec ⟨g, t.live⟩) ∨
        ∃ r g₁ g, realloc pagedImage fuel 0x13f90#64 200#64 t.prog = .ok (r, g) ∧
          Moved pagedSpec t (0x13f90#64, 100) fuel 200#64 r g₁ g) := by
  have hexec : (Run.exec (Alloc.step pagedImage) (callTest pagedSpec) twoBlocks pagedStart).any
      (fun t => t.live = [(0x13f50#64, 40), (0x13f90#64, 100)] ∧
        t.prog.units (0x13f90#64, 100) = 8 ∧ Counted pagedSpec (nunits 200#64) t.prog) = true := by
    decide +kernel
  obtain ⟨t, ht, hfacts⟩ := (Option.any_eq_true _ _).mp hexec
  obtain ⟨hlive, hunits, hcount⟩ := of_decide_eq_true hfacts
  have hb : ((0x13f90#64, 100) : Block) ∈ t.live := by
    rw [hlive]
    simp
  have hsize : (200#64).toNat + 32 ≤ 2 ^ 36 := by simp
  exact ⟨t, hlive, hunits, realloc_answers (Run.Steps.of_exec (allowed_of_callTest _) _ ht)
    starts_pagedStart hb hsize hcount⟩

end Alloc

end BufferVM
