/-
  Program/AllocRuns.lean --- a program that uses its heap.

  The program asks for blocks, gives them back, and writes what is its own: its blocks, and
  whatever is neither the heap nor `base`.  Other system calls may come between; they too write
  what is the program's own, as `read` fills a buffer.  In every state of a run the heap is cut
  into the blocks of the program, the free ones, and what the kernel's rounding has left over.
-/
import BufferVM.Lib.Run
import BufferVM.Program.Malloc

set_option autoImplicit false

namespace BufferVM

namespace Alloc

open ByteMem Chunks PtrList PtrRing

variable {κ : Type} {I : Image κ} {S : BrkSpec I}

/-! ## More fuel -/

theorem freeSearch_mono {m : GuestMem} {bp p q : U64} {fuel : Nat}
    (h : freeSearch m bp fuel p = .ok q) (j : Nat) : freeSearch m bp (fuel + j) p = .ok q := by
  induction fuel generalizing p with
  | zero => exact absurd h (by simp [freeSearch])
  | succ fuel ih =>
      have hadd : fuel + 1 + j = fuel + j + 1 := by omega
      rw [hadd]
      by_cases hstop : Stops m bp p
      · rw [freeSearch_of_stops hstop] at h ⊢
        exact h
      · rw [freeSearch_of_not_stops hstop] at h ⊢
        exact ih h

theorem free_mono {ap : U64} {g g' : Program κ} {fuel : Nat} (h : free fuel ap g = .ok g')
    (j : Nat) : free (fuel + j) ap g = .ok g' := by
  rw [free] at h ⊢
  cases hs : freeSearch g.mem (ap - sizeofHeader) fuel g.freep with
  | error e =>
      rw [hs] at h
      exact absurd h (by simp [bind, Except.bind])
  | ok p =>
      rw [hs] at h
      rw [freeSearch_mono hs j]
      exact h

theorem morecore_mono {nu : U64} {g : Program κ} {x : U64 × Program κ} {fuel : Nat}
    (h : morecore I fuel nu g = .ok x) (j : Nat) : morecore I (fuel + j) nu g = .ok x := by
  simp only [morecore, bind, Except.bind] at h ⊢
  split at h
  · exact absurd h (by simp)
  · split at h
    · rename_i heq
      rw [if_pos heq]
      exact h
    · rename_i hne
      rw [if_neg hne]
      split at h
      · exact absurd h (by simp)
      · rename_i hfree
        rw [free_mono hfree j]
        exact h

theorem mallocLoop_mono {n : BitVec 32} {prevp p : U64} {g : Program κ} {x : U64 × Program κ}
    {fuel : Nat} (h : mallocLoop I n fuel prevp p g = .ok x) (j : Nat) :
    mallocLoop I n (fuel + j) prevp p g = .ok x := by
  induction fuel generalizing prevp p g with
  | zero => exact absurd h (by simp [mallocLoop])
  | succ fuel ih =>
      have hadd : fuel + 1 + j = fuel + j + 1 := by omega
      rw [hadd]
      rw [mallocLoop] at h ⊢
      split at h
      · rename_i hfit
        rw [if_pos hfit]
        exact h
      · rename_i hfit
        rw [if_neg hfit]
        split at h
        · rename_i hback
          rw [if_pos hback]
          simp only [bind, Except.bind] at h ⊢
          split at h
          · exact absurd h (by simp)
          · rename_i hcore
            rw [morecore_mono hcore j]
            simp only
            split at h
            · rename_i hnull
              rw [if_pos hnull]
              exact h
            · rename_i hnull
              rw [if_neg hnull]
              exact ih h
        · rename_i hback
          rw [if_neg hback]
          exact ih h

/-- What `malloc` answers it answers with more fuel as well. -/
theorem malloc_mono {nbytes : U64} {g : Program κ} {x : U64 × Program κ} {fuel : Nat}
    (h : malloc I fuel nbytes g = .ok x) (j : Nat) : malloc I (fuel + j) nbytes g = .ok x :=
  mallocLoop_mono h j

/-! ## Runs -/

/-- A block as the program knows it: its address and the bytes asked for. -/
abbrev Block : Type := U64 × Nat

/-- A byte of a block. -/
def InBlock (b : Block) (x : U64) : Prop := b.1.toNat ≤ x.toNat ∧ x.toNat < b.1.toNat + b.2

/-- A program and the blocks it holds. -/
structure Session (κ : Type) where
  prog : Program κ
  live : List Block

/-- What happens to a program.  The fuel is whatever the call needed. -/
inductive Event (κ : Type) where
  | malloc (fuel : Nat) (nbytes : U64)
  | free (fuel : Nat) (b : Block)
  | write (mem : GuestMem)
  | kernel (mem : GuestMem) (kern : κ)

/-- The state after an event. -/
def step (I : Image κ) (s : Session κ) : Event κ → Option (Session κ)
  | .malloc fuel nbytes =>
      match Alloc.malloc I fuel nbytes s.prog with
      | .error _ => none
      | .ok (r, g) => some ⟨g, if r = 0#64 then s.live else (r, nbytes.toNat) :: s.live⟩
  | .free fuel b =>
      match Alloc.free fuel b.1 s.prog with
      | .error _ => none
      | .ok g => some ⟨g, s.live.erase b⟩
  | .write mem => some ⟨{ s.prog with mem := mem }, s.live⟩
  | .kernel mem kern => some ⟨{ s.prog with mem := mem, kern := kern }, s.live⟩

/-- The bytes that the program may write. -/
def Mine (S : BrkSpec I) (s : Session κ) (x : U64) : Prop :=
  (∃ b ∈ s.live, InBlock b x) ∨
    ((x.toNat < S.start ∨ s.prog.curbrk.toNat ≤ x.toNat) ∧
      (x.toNat < I.base.toNat ∨ I.base.toNat + 16 ≤ x.toNat))

/-- What the program may do: ask for what can be counted in units, free what it holds, write
what is its own; and what the kernel may do in between, which leaves the break alone. -/
def Allowed (S : BrkSpec I) (s : Session κ) : Event κ → Prop
  | .malloc _ nbytes => nbytes.toNat + 32 ≤ 2 ^ 36 ∧ Counted S (nunits nbytes) s.prog
  | .free _ b => b ∈ s.live
  | .write mem => ∀ x, ¬ Mine S s x → mem x = s.prog.mem x
  | .kernel mem kern => (∀ x, ¬ Mine S s x → mem x = s.prog.mem x) ∧
      if s.prog.curbrk = 0#64 then S.Ready kern else S.Ok kern s.prog.curbrk

/-- The blocks of the program are the chunks in use, and each has room for what was asked. -/
structure Holds (start : Nat) (cs : List Chunk) (live : List Block) : Prop where
  perm : (live.map Prod.fst).Perm ((blocks .used start cs).map fun x => ptrTo (x.1 + 16))
  room : ∀ b ∈ live, ∃ x ∈ blocks .used start cs, b.1 = ptrTo (x.1 + 16) ∧ b.2 + 16 ≤ x.2

/-- The invariant of a run. -/
def Inv (S : BrkSpec I) (s : Session κ) : Prop :=
  ∃ cs, ((Fresh S s.prog ∧ cs = []) ∨ Sound S s.prog cs) ∧ Holds S.start cs s.live

/-- The session in which a program starts. -/
def Starts (S : BrkSpec I) (s : Session κ) : Prop := Fresh S s.prog ∧ s.live = []

section

variable {s t : Session κ} {cs : List Chunk} {start : Nat} {live : List Block} {b : Block}

/-- Where a block in use lies. -/
theorem Laid.toNat_block {m : GuestMem} {base : U64} (h : Laid m base start cs) {x : Nat × Nat}
    (hx : x ∈ blocks .used start cs) : (ptrTo (x.1 + 16)).toNat = x.1 + 16 := by
  have hbytes := h.bytes_ge (mem_blocks.mp hx) (by simp)
  have hbounds := blocks_bounds hx
  simp only at hbytes
  exact Alloc.toNat_ptrTo (h.lt (by omega))

/-- The block that has been handed out. -/
theorem Malloced.block {g g' : Program κ} {c : Nat} {r : U64} {cs' : List Chunk}
    (h : Malloced S g cs c r g' cs') : ∃ a, (a, c) ∈ blocks .used S.start cs' ∧
      r = ptrTo (a + 16) ∧ r.toNat = a + 16 ∧ r ≠ 0#64 := by
  obtain ⟨a, us, vs, -, hnew, rfl⟩ := h.used
  have hmem : (a, c) ∈ blocks .used S.start cs' := by
    rw [hnew]
    simp
  have hval := h.sound.laid.toNat_block hmem
  refine ⟨a, hmem, rfl, hval, fun hzero => ?_⟩
  rw [hzero] at hval
  simp at hval

theorem Laid.block_inj {m : GuestMem} {base : U64} (h : Laid m base start cs) {x y : Nat × Nat}
    (hx : x ∈ blocks .used start cs) (hy : y ∈ blocks .used start cs)
    (heq : ptrTo (x.1 + 16) = ptrTo (y.1 + 16)) : x = y := by
  by_contra hne
  have hxval := h.toNat_block hx
  have hyval := h.toNat_block hy
  rw [heq, hyval] at hxval
  have hxb := h.bytes_ge (mem_blocks.mp hx) (by simp)
  have hyb := h.bytes_ge (mem_blocks.mp hy) (by simp)
  have hapart := located_apart (mem_blocks.mp hx) (mem_blocks.mp hy) (fun hc => hne (by
    have h1 := congrArg Prod.fst hc
    have h2 := congrArg (fun z => z.2.bytes) hc
    exact Prod.ext h1 h2))
  simp only at hxb hyb hapart
  omega

/-- What the program may write, as far as the chunks are concerned. -/
theorem Mine.owns (hs : Sound S s.prog cs) (hh : Holds S.start cs s.live) {x : U64}
    (hx : Mine S s x) : Owns I.base S.start cs x := by
  rcases hx with ⟨b, hb, h1, h2⟩ | ⟨h1, h2⟩
  · obtain ⟨y, hy, hby, hroom⟩ := hh.room b hb
    have hval := hs.laid.toNat_block hy
    rw [hby, hval] at h1 h2
    exact Or.inl ⟨y, hy, h1, by omega⟩
  · refine Or.inr ⟨?_, h2⟩
    rcases hs.brk with ⟨-, rfl, -⟩ | ⟨hcur, -⟩
    · rw [span_nil]
      omega
    · omega

/-- Memory may change wherever no header lies. -/
theorem Laid.congr {m m' : GuestMem} {base : U64} (h : Laid m base start cs)
    (hm : ∀ x, ¬ Owns base start cs x → m' x = m x) : Laid m' base start cs := by
  have hheader : ∀ q, IsHeader base start cs q →
      ptrAt m' q = ptrAt m q ∧ sizeAt m' q = sizeAt m q := by
    intro q hq
    refine header_congr (h.fits hq) fun x hlow hhigh => hm x fun hx => ?_
    have hout := h.owns_header hx hq
    omega
  refine ⟨h.below, h.room, h.bound, h.fine, ?_, ?_, fun x hx hk => ?_⟩
  · exact h.round.frame fun y hy => (hheader y (isHeader_of_mem hy)).1
  · rw [(hheader base (Or.inl rfl)).2, h.baseSize]
  · rw [(hheader _ (Or.inr ⟨x, hx, hk, rfl⟩)).2]
    exact h.sized x hx hk

/-! ## What one event keeps -/

/-- A block more. -/
theorem Holds.cons {cs' : List Chunk} {a c n : Nat} {r : U64} {us vs : List (Nat × Nat)}
    (h : Holds start cs live) (hold : blocks .used start cs = us ++ vs)
    (hnew : blocks .used start cs' = us ++ (a, c) :: vs) (hr : r = ptrTo (a + 16))
    (hn : n + 16 ≤ c) : Holds start cs' ((r, n) :: live) := by
  constructor
  · have hperm := h.perm
    rw [hold] at hperm
    rw [hnew, List.map_cons, List.map_append, List.map_cons, hr]
    rw [List.map_append] at hperm
    exact (hperm.cons _).trans List.perm_middle.symm
  · intro b hb
    rcases List.mem_cons.mp hb with rfl | hb
    · exact ⟨(a, c), by rw [hnew]; simp, hr, hn⟩
    · obtain ⟨x, hx, hbx, hroom⟩ := h.room b hb
      refine ⟨x, ?_, hbx, hroom⟩
      rw [hold] at hx
      rw [hnew]
      simp only [List.mem_append, List.mem_cons] at hx ⊢
      tauto

/-- A block less. -/
theorem Holds.erase {m : GuestMem} {base : U64} {cs' : List Chunk} {x : Nat × Nat}
    {us vs : List (Nat × Nat)} (h : Holds start cs live) (hl : Laid m base start cs)
    (hb : b ∈ live) (hbx : b.1 = ptrTo (x.1 + 16)) (hold : blocks .used start cs = us ++ x :: vs)
    (hnew : blocks .used start cs' = us ++ vs) : Holds start cs' (live.erase b) := by
  have hperm := h.perm
  rw [hold, List.map_append, List.map_cons, ← hbx] at hperm
  have hrest : ((live.erase b).map Prod.fst).Perm
      ((us ++ vs).map fun x => ptrTo (x.1 + 16)) := by
    have hcons := ((List.perm_cons_erase hb).map Prod.fst).symm.trans
      (hperm.trans List.perm_middle)
    rw [List.map_append]
    exact hcons.cons_inv
  constructor
  · rwa [hnew]
  · intro d hd
    obtain ⟨y, hy, hdy, hroom⟩ := h.room d (List.mem_of_mem_erase hd)
    have hmem : d.1 ∈ (us ++ vs).map fun x => ptrTo (x.1 + 16) :=
      hrest.mem_iff.mp (List.mem_map_of_mem hd)
    obtain ⟨z, hz, hdz⟩ := List.mem_map.mp hmem
    have hzold : z ∈ blocks .used start cs := by
      rw [hold]
      simp only [List.mem_append, List.mem_cons] at hz ⊢
      tauto
    obtain rfl := hl.block_inj hy hzold (by rw [← hdy, ← hdz])
    exact ⟨y, by rw [hnew]; exact hz, hdy, hroom⟩

/-- What `malloc` of a sound allocator does, whatever its fuel. -/
theorem Sound.malloc_ok {g g' : Program κ} {nbytes r : U64} {fuel : Nat} (h : Sound S g cs)
    (hn : 0 < (nunits nbytes).toNat) (hcount : Counted S (nunits nbytes) g)
    (hrun : Alloc.malloc I fuel nbytes g = .ok (r, g')) :
    (r = 0#64 ∧ Sound S g' cs ∧ g'.mem = g.mem) ∨
      ∃ cs', Malloced S g cs (16 * (nunits nbytes).toNat) r g' cs' := by
  have hmono := malloc_mono hrun (2 * (freePtrs S.start cs).length + 4)
  rcases h.malloc hn hcount
      (show _ ≤ fuel + (2 * (freePtrs S.start cs).length + 4) by omega) with
    hend | ⟨g₁, _, _, hnull, hsound, hmem, -⟩ | ⟨r₁, g₁, cs', hok, hm⟩
  · rw [hend] at hmono
    exact absurd hmono (by simp)
  · rw [hnull] at hmono
    obtain ⟨rfl, rfl⟩ := Prod.mk.inj (Except.ok.inj hmono)
    exact Or.inl ⟨rfl, hsound, hmem⟩
  · rw [hok] at hmono
    obtain ⟨rfl, rfl⟩ := Prod.mk.inj (Except.ok.inj hmono)
    exact Or.inr ⟨cs', hm⟩

/-- The first call of `malloc` works on the ring of `base`. -/
theorem malloc_initList {g : Program κ} (h : Fresh S g) (fuel : Nat) (nbytes : U64) :
    malloc I fuel nbytes g = malloc I fuel nbytes (initList I g) := by
  have htwice : initList I (initList I g) = initList I g := h.sound.initList
  rw [malloc, malloc, htwice]

/-- What `free` of a block in use does, whatever its fuel. -/
theorem Sound.free_ok {g g' : Program κ} {fuel : Nat} {front back : List Chunk} {c : Nat}
    (h : Sound S g (front ++ ⟨.used, c⟩ :: back))
    (hrun : free fuel (ptrTo (S.start + span front + 16)) g = .ok g') :
    Sound S g' (release front c back) ∧
      (∀ x, Owns I.base S.start (front ++ ⟨.used, c⟩ :: back) x → g'.mem x = g.mem x) ∧
      g'.curbrk = g.curbrk := by
  have hmono := free_mono hrun ((freePtrs S.start (front ++ ⟨.used, c⟩ :: back)).length + 1)
  obtain ⟨g₁, hfree, hlaid, hentry, hkeeps, hcur, hkern⟩ := h.laid.free h.entry
    (show _ < fuel + ((freePtrs S.start (front ++ ⟨.used, c⟩ :: back)).length + 1) by omega)
  rw [ptrTo_add_sizeofHeader, hmono] at hfree
  obtain rfl := Except.ok.inj hfree
  refine ⟨⟨hlaid, hentry, ?_⟩, hkeeps, hcur⟩
  rw [hcur, hkern, span_release]
  rcases h.brk with ⟨-, hcs, -⟩ | hbrk
  · simp at hcs
  · refine Or.inr ?_
    simpa [Nat.add_assoc] using hbrk

/-- A block of the program, as a chunk between others. -/
theorem Holds.split {m : GuestMem} {base : U64} (h : Holds start cs live)
    (hl : Laid m base start cs) (hb : b ∈ live) : ∃ front c back,
    cs = front ++ ⟨.used, c⟩ :: back ∧ b.1 = ptrTo (start + span front + 16) ∧ b.2 + 16 ≤ c := by
  obtain ⟨x, hx, hbx, hroom⟩ := h.room b hb
  obtain ⟨front, back, rfl, hx1⟩ := mem_located.mp (mem_blocks.mp hx)
  simp only at hx1
  exact ⟨front, x.2, back, rfl, by rw [hbx, hx1], hroom⟩

/-- What is written to bytes of the program's own is nothing to the allocator. -/
theorem Sound.write (h : Sound S s.prog cs) (hh : Holds S.start cs s.live) {mem : GuestMem}
    (hmem : ∀ x, ¬ Mine S s x → mem x = s.prog.mem x) :
    Sound S { s.prog with mem := mem } cs :=
  ⟨h.laid.congr fun x hx => hmem x fun hmine => hx (hmine.owns h hh), h.entry, h.brk⟩

/-- A block that the program holds can be given back. -/
theorem Sound.free_block {g : Program κ} (h : Sound S g cs) (hh : Holds S.start cs live)
    (hb : b ∈ live) (fuel : Nat) (hfuel : (freePtrs S.start cs).length < fuel) :
    ∃ g', free fuel b.1 g = .ok g' := by
  obtain ⟨front, c, back, rfl, hbp, -⟩ := hh.split h.laid hb
  obtain ⟨g', hfree, -⟩ := h.laid.free h.entry hfuel
  rw [ptrTo_add_sizeofHeader] at hfree
  exact ⟨g', by rw [hbp]; exact hfree⟩

/-- **Every event keeps the invariant.** -/
theorem Inv.step {e : Event κ} (h : Inv S s) (hok : Allowed S s e) (hstep : step I s e = some t) :
    Inv S t := by
  obtain ⟨cs, hcase, hh⟩ := h
  cases e with
  | malloc fuel nbytes =>
      have hn : 0 < (nunits nbytes).toNat := by
        rw [toNat_nunits hok.1]
        omega
      have hroom : nbytes.toNat + 16 ≤ 16 * (nunits nbytes).toNat := by
        rw [toNat_nunits hok.1]
        omega
      rw [Alloc.step] at hstep
      split at hstep
      · exact absurd hstep (by simp)
      · rename_i r g hrun
        obtain rfl := Option.some.inj hstep
        -- the first call works on the ring of `base`
        have hany : ∀ g₀ : Program κ, Sound S g₀ cs → Counted S (nunits nbytes) g₀ →
            malloc I fuel nbytes g₀ = .ok (r, g) →
            Inv S ⟨g, if r = 0#64 then s.live else (r, nbytes.toNat) :: s.live⟩ := by
          intro g₀ hs hcount hrun
          rcases hs.malloc_ok hn hcount hrun with ⟨rfl, hsound, -⟩ | ⟨cs', hm⟩
          · rw [if_pos rfl]
            exact ⟨cs, Or.inr hsound, hh⟩
          · obtain ⟨a, us, vs, hold, hnew, hr⟩ := hm.used
            obtain ⟨-, -, -, -, hne⟩ := hm.block
            rw [if_neg hne]
            exact ⟨cs', Or.inr hm.sound, hh.cons hold hnew hr hroom⟩
        rcases hcase with ⟨hfresh, rfl⟩ | hs
        · exact hany _ hfresh.sound hok.2.initList (by rw [← malloc_initList hfresh]; exact hrun)
        · exact hany _ hs hok.2 hrun
  | free fuel b =>
      rcases hcase with ⟨hfresh, rfl⟩ | hs
      · obtain ⟨x, hx, -⟩ := hh.room b hok
        simp at hx
      · obtain ⟨front, c, back, rfl, hb, -⟩ := hh.split hs.laid hok
        rw [Alloc.step] at hstep
        split at hstep
        · exact absurd hstep (by simp)
        · rename_i g hrun
          obtain rfl := Option.some.inj hstep
          rw [hb] at hrun
          obtain ⟨hsound, -, -⟩ := hs.free_ok hrun
          refine ⟨_, Or.inr hsound, hh.erase hs.laid hok
            (x := (S.start + span front, c)) hb ?_ (blocks_release (by simp) _ _ _ _)⟩
          rw [blocks_append, blocks_cons_self]
  | write mem =>
      obtain rfl := Option.some.inj hstep
      rcases hcase with ⟨hfresh, rfl⟩ | hs
      · exact ⟨[], Or.inl ⟨⟨hfresh.freep, hfresh.curbrk, hfresh.ready⟩, rfl⟩, hh⟩
      · exact ⟨cs, Or.inr (hs.write hh hok), hh⟩
  | kernel mem kern =>
      obtain rfl := Option.some.inj hstep
      obtain ⟨hmem, hok⟩ := hok
      rcases hcase with ⟨hfresh, rfl⟩ | hs
      · rw [if_pos hfresh.curbrk] at hok
        exact ⟨[], Or.inl ⟨⟨hfresh.freep, hfresh.curbrk, hok⟩, rfl⟩, hh⟩
      · refine ⟨cs, Or.inr ⟨(hs.write hh hmem).laid, hs.entry, ?_⟩, hh⟩
        rcases hs.brk with ⟨hzero, hcs, -⟩ | ⟨hcur, hbrk⟩
        · rw [if_pos hzero] at hok
          exact Or.inl ⟨hzero, hcs, hok⟩
        · have hbelow := S.below
          have hne : s.prog.curbrk ≠ 0#64 := by
            intro hzero
            rw [hzero] at hcur
            simp at hcur
            omega
          rw [if_neg hne] at hok
          exact Or.inr ⟨hcur, hok⟩

/-- The invariant holds at the start. -/
theorem Starts.inv (h : Starts S s) : Inv S s :=
  ⟨[], Or.inl ⟨h.1, rfl⟩, ⟨by rw [h.2]; simp, by rw [h.2]; simp⟩⟩

/-- The events that a program goes through. -/
abbrev Session.Runs (S : BrkSpec I) (s : Session κ) (es : List (Event κ)) (t : Session κ) : Prop :=
  Run.Steps (Alloc.step I) (Allowed S) s es t

/-- The invariant holds in every state of a run. -/
theorem Session.Runs.inv {es : List (Event κ)} (h : s.Runs S es t) (hs : Starts S s) : Inv S t :=
  Run.Steps.invariant (Inv S) h (fun _ _ _ hi hok hstep => hi.step hok hstep) hs.inv

/-! ## A program on a small kernel -/

/-- A kernel that knows no more than its break, which it keeps at the end of a page. -/
def pagedBrk (addr curr : U64) : Option (U64 × U64) :=
  if addr = 0#64 ∧ curr = 0#64 then some (0x10000#64, 0x10000#64)
  else if addr < curr ∨ pageAlign addr ≤ 0x10000#64 ∨ 0x100000#64 < pageAlign addr then
    some (curr, curr)
  else some (pageAlign addr, pageAlign addr)

def pagedImage : Image U64 := ⟨0x8000#64, pagedBrk⟩

def pagedSpec : BrkSpec pagedImage where
  start := 0x10000
  Ready curr := curr = 0#64
  Ok curr c := curr = c ∧ 0x10000 ≤ c.toNat ∧ c.toNat ≤ 0x100000
  base_ne := by decide
  below := by decide
  room := by decide
  first := by
    rintro s t c rfl hrun
    obtain ⟨rfl, rfl⟩ := Prod.mk.inj (Option.some.inj hrun)
    decide
  next := by
    rintro s t c e r ⟨rfl, hlow, hhigh⟩ hlt hrun
    have hne : ¬ (e = 0#64 ∧ s = 0#64) := by bv_omega
    simp only [pagedImage, pagedBrk, if_neg hne] at hrun
    split at hrun
    · obtain ⟨rfl, rfl⟩ := Prod.mk.inj (Option.some.inj hrun)
      exact ⟨⟨rfl, hlow, hhigh⟩, Or.inl rfl⟩
    · rename_i hin
      obtain ⟨rfl, rfl⟩ := Prod.mk.inj (Option.some.inj hrun)
      have hround := toNat_pageAlign e
      have he := e.isLt
      generalize pageAlign e = top at hin hround ⊢
      simp only [not_or, BitVec.le_def, BitVec.lt_def, BitVec.toNat_ofNat] at hin hlt
      refine ⟨⟨rfl, by omega, by omega⟩, Or.inr ⟨by rw [BitVec.le_def]; omega, ?_⟩⟩
      rintro rfl
      simp at hin

/-- A program that has not called `malloc`. -/
def pagedStart : Session U64 := ⟨⟨fun _ => 0, 0#64, 0#64, 0#64⟩, []⟩

theorem starts_pagedStart : Starts pagedSpec pagedStart := ⟨⟨rfl, rfl, rfl⟩, rfl⟩

/-- A test of the calls. -/
def callTest (S : BrkSpec I) (s : Session κ) : Event κ → Bool
  | .malloc _ nbytes => decide (nbytes.toNat + 32 ≤ 2 ^ 36 ∧ Counted S (nunits nbytes) s.prog)
  | .free _ b => decide (b ∈ s.live)
  | _ => false

theorem allowed_of_callTest (S : BrkSpec I) (s : Session κ) (e : Event κ)
    (h : callTest S s e = true) : Allowed S s e := by
  cases e with
  | malloc fuel nbytes => simpa [callTest, Allowed] using h
  | free fuel b => simpa [callTest, Allowed] using h
  | write mem => exact absurd h (by simp [callTest])
  | kernel mem kern => exact absurd h (by simp [callTest])

/-- Two blocks are asked for. -/
def twoBlocks : List (Event U64) := [.malloc 8 100#64, .malloc 8 40#64]

theorem runs_twoBlocks : ∃ t, pagedStart.Runs pagedSpec twoBlocks t ∧
    t.live = [(0x13f50#64, 40), (0x13f90#64, 100)] ∧ t.prog.freep ≠ 0#64 := by
  have hexec : (Run.exec (Alloc.step pagedImage) (callTest pagedSpec) twoBlocks pagedStart).any
      (fun t => t.live = [(0x13f50#64, 40), (0x13f90#64, 100)] ∧ t.prog.freep ≠ 0#64) = true := by
    decide +kernel
  obtain ⟨t, ht, hfacts⟩ := (Option.any_eq_true _ _).mp hexec
  exact ⟨t, Run.Steps.of_exec (allowed_of_callTest _) _ ht, of_decide_eq_true hfacts⟩

/-! ## What holds in every run -/

theorem Laid.nodup_blocks {m : GuestMem} {base : U64} (h : Laid m base start cs) :
    ((blocks .used start cs).map fun x => ptrTo (x.1 + 16)).Nodup := by
  refine List.Nodup.map_on (fun x hx y hy heq => h.block_inj hx hy heq) ?_
  refine (pairwise_blocks .used start cs).imp_of_mem fun {x y} hx hy hle heq => ?_
  have hbytes := h.bytes_ge (mem_blocks.mp hx) (by simp)
  simp only at hbytes
  rw [← heq] at hle
  omega

/-- **The blocks of a program lie in its heap, and each has its header between itself and
every other one.** -/
theorem blocks_apart {es : List (Event κ)} (h : s.Runs S es t) (hs : Starts S s) :
    (∀ b ∈ t.live, S.start + 16 ≤ b.1.toNat ∧ b.1.toNat + b.2 ≤ t.prog.curbrk.toNat) ∧
      t.live.Pairwise fun a b =>
        a.1.toNat + a.2 + 16 ≤ b.1.toNat ∨ b.1.toNat + b.2 + 16 ≤ a.1.toNat := by
  obtain ⟨cs, hcase, hh⟩ := h.inv hs
  rcases hcase with ⟨-, rfl⟩ | hsound
  · have hnil : t.live = [] := by
      have hperm := hh.perm
      rw [blocks_nil, List.map_nil, List.perm_nil, List.map_eq_nil_iff] at hperm
      exact hperm
    rw [hnil]
    simp
  · have hplace : ∀ b ∈ t.live, ∃ x ∈ blocks .used S.start cs, b.1.toNat = x.1 + 16 ∧
        b.2 + 16 ≤ x.2 := by
      intro b hb
      obtain ⟨x, hx, hbx, hroom⟩ := hh.room b hb
      exact ⟨x, hx, by rw [hbx, hsound.laid.toNat_block hx], hroom⟩
    constructor
    · intro b hb
      obtain ⟨x, hx, hval, hroom⟩ := hplace b hb
      have hbounds := blocks_bounds hx
      rcases hsound.brk with ⟨-, rfl, -⟩ | ⟨hcur, -⟩
      · simp at hx
      · omega
    · have hnd : (t.live.map Prod.fst).Nodup := hh.perm.nodup_iff.mpr hsound.laid.nodup_blocks
      rw [List.Nodup, List.pairwise_map] at hnd
      refine hnd.imp_of_mem fun {a b} ha hb hne => ?_
      obtain ⟨x, hx, hax, hxroom⟩ := hplace a ha
      obtain ⟨y, hy, hby, hyroom⟩ := hplace b hb
      have hxy : (x.1, (⟨.used, x.2⟩ : Chunk)) ≠ (y.1, ⟨.used, y.2⟩) := by
        intro heq
        have h1 : x.1 = y.1 := congrArg (fun z : Nat × Chunk => z.1) heq
        exact hne (BitVec.eq_of_toNat_eq (by rw [hax, hby, h1]))
      have hapart := located_apart (mem_blocks.mp hx) (mem_blocks.mp hy) hxy
      simp only at hapart
      omega

theorem blocks_apart_two : ∃ t : Session U64,
    t.live = [(0x13f50#64, 40), (0x13f90#64, 100)] ∧
      (∀ b ∈ t.live, 0x10000 + 16 ≤ b.1.toNat ∧ b.1.toNat + b.2 ≤ t.prog.curbrk.toNat) ∧
      t.live.Pairwise fun a b =>
        a.1.toNat + a.2 + 16 ≤ b.1.toNat ∨ b.1.toNat + b.2 + 16 ≤ a.1.toNat := by
  obtain ⟨t, hruns, hlive, -⟩ := runs_twoBlocks
  exact ⟨t, hlive, blocks_apart hruns starts_pagedStart⟩

/-- The bytes that a call of `malloc` or `free` leaves to the program. -/
def StaysMine (S : BrkSpec I) (s t : Session κ) (x : U64) : Prop :=
  (∃ b ∈ s.live, b ∈ t.live ∧ InBlock b x) ∨
    ((x.toNat < S.start ∨ (s.prog.curbrk.toNat ≤ x.toNat ∧ t.prog.curbrk.toNat ≤ x.toNat)) ∧
      (x.toNat < I.base.toNat ∨ I.base.toNat + 16 ≤ x.toNat))

theorem StaysMine.mine {x : U64} (h : StaysMine S s t x) : Mine S s x := by
  rcases h with ⟨b, hb, -, hx⟩ | ⟨h1, h2⟩
  · exact Or.inl ⟨b, hb, hx⟩
  · exact Or.inr ⟨by omega, h2⟩

/-- What `malloc` leaves alone. -/
theorem Malloced.keepsMine {c : Nat} {r : U64} {g : Program κ} {cs cs' : List Chunk} {x : U64}
    (h : Malloced S s.prog cs c r g cs') (hs : Sound S s.prog cs) (hh : Holds S.start cs s.live)
    (hx : StaysMine S s ⟨g, live⟩ x) : g.mem x = s.prog.mem x := by
  refine h.keeps x (hx.mine.owns hs hh) ?_
  have hcur : g.curbrk.toNat = S.start + Chunks.span cs' := by
    rcases h.sound.brk with ⟨-, rfl, -⟩ | ⟨hcur, -⟩
    · obtain ⟨a, us, vs, -, hnew, -⟩ := h.used
      simp at hnew
    · exact hcur
  rcases hx with ⟨b, hb, -, hbx⟩ | ⟨h1, -⟩
  · obtain ⟨y, hy, hby, hroom⟩ := hh.room b hb
    have hval := hs.laid.toNat_block hy
    have hbounds := blocks_bounds hy
    rw [InBlock, hby, hval] at hbx
    omega
  · simp only [hcur] at h1
    rcases hs.brk with ⟨hzero, rfl, -⟩ | ⟨hold, -⟩
    · rw [span_nil]
      omega
    · omega

/-- A call leaves the bytes of the program alone. -/
theorem Inv.keepsMine {u : Session κ} {e : Event κ} {x : U64} (h : Inv S t) (hok : Allowed S t e)
    (hstep : Alloc.step I t e = some u)
    (he : (∃ fuel nbytes, e = .malloc fuel nbytes) ∨ ∃ fuel b, e = .free fuel b)
    (hx : StaysMine S t u x) : u.prog.mem x = t.prog.mem x := by
  obtain ⟨cs, hcase, hh⟩ := h
  rcases he with ⟨fuel, nbytes, rfl⟩ | ⟨fuel, b, rfl⟩
  · have hn : 0 < (nunits nbytes).toNat := by
      rw [toNat_nunits hok.1]
      omega
    rw [Alloc.step] at hstep
    split at hstep
    · exact absurd hstep (by simp)
    · rename_i r g hrun
      obtain rfl := Option.some.inj hstep
      have hany : ∀ v : Session κ, v.live = t.live → v.prog.curbrk = t.prog.curbrk →
          Sound S v.prog cs → Counted S (nunits nbytes) v.prog →
          malloc I fuel nbytes v.prog = .ok (r, g) → g.mem x = v.prog.mem x := by
        intro v hlive hcur hsound hcount hrun
        rcases hsound.malloc_ok hn hcount hrun with ⟨-, -, hmem⟩ | ⟨cs', hm⟩
        · rw [hmem]
        · have hstays : StaysMine S v
              ⟨g, if r = 0#64 then t.live else (r, nbytes.toNat) :: t.live⟩ x := by
            rw [StaysMine, hlive, hcur]
            exact hx
          exact hm.keepsMine (s := v) hsound (by rw [hlive]; exact hh) hstays
      rcases hcase with ⟨hfresh, rfl⟩ | hsound
      · rw [malloc_initList hfresh] at hrun
        have hbelow := S.below
        have hroom := S.room
        have hfits : Fits I.base 16 := by
          rw [Fits]
          omega
        have hinit : (initList I t.prog).mem x = t.prog.mem x := by
          have hbase : x.toNat < I.base.toNat ∨ I.base.toNat + 16 ≤ x.toNat := by
            rcases hx with ⟨b, hb, -⟩ | ⟨-, h2⟩
            · obtain ⟨y, hy, -⟩ := hh.room b hb
              simp at hy
            · exact h2
          rw [initList, if_pos hfresh.freep]
          exact ((writesAt_setPtr hfits).trans (writesAt_setSize hfits)) x (by simpa using hbase)
        have hcur : (initList I t.prog).curbrk = t.prog.curbrk := by
          rw [initList, if_pos hfresh.freep]
        rw [hany ⟨initList I t.prog, t.live⟩ rfl hcur hfresh.sound hok.2.initList hrun, hinit]
      · exact hany t rfl rfl hsound hok.2 hrun
  · rcases hcase with ⟨hfresh, rfl⟩ | hsound
    · obtain ⟨y, hy, -⟩ := hh.room b hok
      simp at hy
    · have howns := hx.mine.owns hsound hh
      obtain ⟨front, c, back, rfl, hb, -⟩ := hh.split hsound.laid hok
      rw [Alloc.step] at hstep
      split at hstep
      · exact absurd hstep (by simp)
      · rename_i g hrun
        obtain rfl := Option.some.inj hstep
        rw [hb] at hrun
        exact (hsound.free_ok hrun).2.1 x howns

/-- The break of a sound allocator, as far as the program knows it. -/
def Program.top (S : BrkSpec I) (g : Program κ) : Nat :=
  if g.curbrk = 0#64 then S.start else g.curbrk.toNat

theorem Sound.top {g : Program κ} (h : Sound S g cs) : g.top S = S.start + span cs := by
  have hbelow := S.below
  rw [Program.top]
  rcases h.brk with ⟨hzero, rfl, -⟩ | ⟨hcur, -⟩
  · rw [if_pos hzero, span_nil, Nat.add_zero]
  · have hne : g.curbrk ≠ 0#64 := by
      intro hzero
      rw [hzero] at hcur
      simp at hcur
      omega
    rw [if_neg hne, hcur]

/-- **`malloc` always answers**: when it finds no block it has looked at all of them, the
kernel has refused it more, and memory is as it was. -/
theorem malloc_answers {es : List (Event κ)} (h : s.Runs S es t) (hs : Starts S s) {nbytes : U64}
    (hn : nbytes.toNat + 32 ≤ 2 ^ 36) (hcount : Counted S (nunits nbytes) t.prog) :
    ∃ need, ∀ fuel, need ≤ fuel →
      malloc I fuel nbytes t.prog = .error .ended ∨
      (∃ g g₁ r, malloc I fuel nbytes t.prog = .ok (0#64, g) ∧
        g.mem = (initList I t.prog).mem ∧
        (∀ j, sizeAt g.mem ((ptrAt g.mem)^[j] g.freep) < nunits nbytes) ∧
        initBrk I t.prog = .ok g₁ ∧
        I.brk (ptrTo (t.prog.top S + coreBytes (nunits nbytes))) g₁.kern = some (r, g.kern) ∧
        r.toNat < t.prog.top S + coreBytes (nunits nbytes)) ∨
      ∃ g r, malloc I fuel nbytes t.prog = .ok (r, g) ∧ r ≠ 0#64 := by
  obtain ⟨cs, hcase, hh⟩ := h.inv hs
  have hpos : 0 < (nunits nbytes).toNat := by
    rw [toNat_nunits hn]
    omega
  refine ⟨2 * (freePtrs S.start cs).length + 4, fun fuel hfuel => ?_⟩
  have hany : ∀ g₀ : Program κ, Sound S g₀ cs → Counted S (nunits nbytes) g₀ →
      malloc I fuel nbytes g₀ = .error .ended ∨
      (∃ g g₁ r, malloc I fuel nbytes g₀ = .ok (0#64, g) ∧ g.mem = g₀.mem ∧
        (∀ j, sizeAt g.mem ((ptrAt g.mem)^[j] g.freep) < nunits nbytes) ∧
        initBrk I g₀ = .ok g₁ ∧
        I.brk (ptrTo (g₀.top S + coreBytes (nunits nbytes))) g₁.kern = some (r, g.kern) ∧
        r.toNat < g₀.top S + coreBytes (nunits nbytes)) ∨
      ∃ g r, malloc I fuel nbytes g₀ = .ok (r, g) ∧ r ≠ 0#64 := by
    intro g₀ hsound hcount
    rw [hsound.top]
    rcases hsound.malloc hpos hcount hfuel with hend | ⟨g, g₁, r, hnull, -, hmem, hfreep, hsmall,
      hinit, hbrk, hr⟩ | ⟨r, g, cs', hok, hm⟩
    · exact Or.inl hend
    · refine Or.inr (Or.inl ⟨g, g₁, r, hnull, hmem, fun j => ?_, hinit, hbrk, hr⟩)
      rw [hmem, hfreep]
      exact hsmall _ (hsound.laid.round.iterate_mem hsound.entry j)
    · obtain ⟨-, -, -, -, hne⟩ := hm.block
      exact Or.inr (Or.inr ⟨g, r, hok, hne⟩)
  rcases hcase with ⟨hfresh, rfl⟩ | hsound
  · have htop : (initList I t.prog).top S = t.prog.top S := by
      rw [Program.top, Program.top, initList, if_pos hfresh.freep]
    rw [malloc_initList hfresh, ← htop]
    rcases hany _ hfresh.sound hcount.initList with hend | ⟨g, g₁, r, hnull, hmem, hsmall, hinit,
      hbrk, hr⟩ | hok
    · exact Or.inl hend
    · obtain ⟨g₂, hinit', hkern⟩ := initBrk_of_initList hinit
      exact Or.inr (Or.inl ⟨g, g₂, r, hnull, hmem, hsmall, hinit', hkern ▸ hbrk, hr⟩)
    · exact Or.inr (Or.inr hok)
  · rw [hsound.initList]
    exact hany _ hsound hcount

theorem malloc_answers_two : ∃ t : Session U64,
    t.live = [(0x13f50#64, 40), (0x13f90#64, 100)] ∧ ∃ need, ∀ fuel, need ≤ fuel →
      malloc pagedImage fuel 0x100000#64 t.prog = .error .ended ∨
      (∃ g g₁ r, malloc pagedImage fuel 0x100000#64 t.prog = .ok (0#64, g) ∧
        g.mem = (initList pagedImage t.prog).mem ∧
        (∀ j, sizeAt g.mem ((ptrAt g.mem)^[j] g.freep) < nunits 0x100000#64) ∧
        initBrk pagedImage t.prog = .ok g₁ ∧
        pagedImage.brk (ptrTo (t.prog.top pagedSpec + coreBytes (nunits 0x100000#64))) g₁.kern =
          some (r, g.kern) ∧
        r.toNat < t.prog.top pagedSpec + coreBytes (nunits 0x100000#64)) ∨
      ∃ g r, malloc pagedImage fuel 0x100000#64 t.prog = .ok (r, g) ∧ r ≠ 0#64 := by
  have hexec : (Run.exec (Alloc.step pagedImage) (callTest pagedSpec) twoBlocks pagedStart).any
      (fun t => t.live = [(0x13f50#64, 40), (0x13f90#64, 100)] ∧
        Counted pagedSpec (nunits 0x100000#64) t.prog) = true := by
    decide +kernel
  obtain ⟨t, ht, hfacts⟩ := (Option.any_eq_true _ _).mp hexec
  obtain ⟨hlive, hcount⟩ := of_decide_eq_true hfacts
  have hn : (0x100000#64).toNat + 32 ≤ 2 ^ 36 := by simp
  exact ⟨t, hlive, malloc_answers (Run.Steps.of_exec (allowed_of_callTest _) _ ht)
    starts_pagedStart hn hcount⟩

end

end Alloc

end BufferVM
