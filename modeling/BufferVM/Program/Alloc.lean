/-
  Program/Alloc.lean --- `alloc.c` and `sbrk.c` of the example program.

  A header of 16 bytes stands in front of every block: `ptr`, the next block of the free
  list, and `size`, which counts units of 16 bytes, the header included.  The free list is a
  ring in the order of addresses, and `freep` is where the next search begins.  Memory is that
  of the program byte by byte, so that what the program itself writes lies in the same memory.

  `_brk` is the system call, whatever kernel answers it.  The loops run on fuel: in a ring
  that is not well formed they need not end.
-/
import BufferVM.Kernel.UserLand

set_option autoImplicit false

namespace BufferVM

namespace Alloc

open ByteMem

/-- Why no result comes back: the fuel is used up, or the kernel has ended the machine. -/
inductive Halt where
  | fuel
  | ended
deriving DecidableEq, Repr

variable {κ : Type}

/-- What the files are linked with: `&base` and `_brk`, a step of the kernel's state. -/
structure Image (κ : Type) where
  base : U64
  brk : U64 → κ → Option (U64 × κ)

/-- The memory of the program, `freep`, `__curbrk` and the kernel's state. -/
structure Program (κ : Type) where
  mem : GuestMem
  freep : U64
  curbrk : U64
  kern : κ

/-! ## `union header` -/

/-- `sizeof(Header)`. -/
def sizeofHeader : U64 := 16#64

/-- `NALLOC`. -/
def nalloc : U64 := 1024#64

/-- `p->s.ptr`. -/
def ptrAt (m : GuestMem) (p : U64) : U64 := loadWord m p

/-- `p->s.size`. -/
def sizeAt (m : GuestMem) (p : U64) : BitVec 32 := BitVec.ofNat 32 (fromBytes (load m (p + 8#64) 4))

/-- `p->s.ptr = v`. -/
def setPtr (m : GuestMem) (p v : U64) : GuestMem := store m p (wordBytes v)

/-- `p->s.size = n`. -/
def setSize (m : GuestMem) (p : U64) (n : BitVec 32) : GuestMem :=
  store m (p + 8#64) (toBytes 4 n.toNat)

/-- `p + n`, with `p` a pointer to a header. -/
def plus (p : U64) (n : BitVec 32) : U64 := p + sizeofHeader * n.setWidth 64

-- a proof about the list never looks into the bytes of a header
attribute [irreducible] ptrAt sizeAt setPtr setSize plus

/-! ## `sbrk` -/

/-- A call of `_brk`. -/
def callBrk (I : Image κ) (addr : U64) (g : Program κ) : Except Halt (U64 × Program κ) :=
  match I.brk addr g.kern with
  | none => .error .ended
  | some (newBrk, kern) => .ok (newBrk, { g with kern := kern })

/-- The first lines of `sbrk`: the break is asked for once. -/
def initBrk (I : Image κ) (g : Program κ) : Except Halt (Program κ) :=
  if g.curbrk = 0#64 then do
    let (curbrk, g) ← callBrk I 0#64 g
    .ok { g with curbrk := curbrk }
  else .ok g

/-- `sbrk`. -/
def sbrk (I : Image κ) (increment : U64) (g : Program κ) : Except Halt (U64 × Program κ) := do
  let g ← initBrk I g
  if increment = 0#64 then .ok (g.curbrk, g)
  else do
    let oldBrk := g.curbrk
    let last := g.curbrk + increment
    let (newBrk, g) ← callBrk I last g
    if newBrk = -1#64 then .ok (newBrk, g)
    else if newBrk < last then .ok (-1#64, g)
    else .ok (oldBrk, { g with curbrk := newBrk })

/-! ## `free` -/

/-- The loop of `free`: the block in the ring behind which `bp` belongs. -/
def freeSearch (m : GuestMem) (bp : U64) : Nat → U64 → Except Halt U64
  | 0, _ => .error .fuel
  | fuel + 1, p =>
      if p < bp ∧ bp < ptrAt m p then .ok p
      -- `bp` lies in front of the lowest block or behind the highest one
      else if ptrAt m p ≤ p ∧ (p < bp ∨ bp < ptrAt m p) then .ok p
      else freeSearch m bp fuel (ptrAt m p)

/-- The first `if` behind the loop: the upper neighbour is joined. -/
def joinUpper (m : GuestMem) (bp p : U64) : GuestMem :=
  if plus bp (sizeAt m bp) = ptrAt m p then
    let m := setSize m bp (sizeAt m bp + sizeAt m (ptrAt m p))
    setPtr m bp (ptrAt m (ptrAt m p))
  else setPtr m bp (ptrAt m p)

/-- The second `if` behind the loop: the lower neighbour is joined. -/
def joinLower (m : GuestMem) (bp p : U64) : GuestMem :=
  if plus p (sizeAt m p) = bp then
    let m := setSize m p (sizeAt m p + sizeAt m bp)
    setPtr m p (ptrAt m bp)
  else setPtr m p bp

/-- `free`. -/
def free (fuel : Nat) (ap : U64) (g : Program κ) : Except Halt (Program κ) := do
  let bp := ap - sizeofHeader
  let p ← freeSearch g.mem bp fuel g.freep
  .ok { g with mem := joinLower (joinUpper g.mem bp p) bp p, freep := p }

/-! ## `malloc` -/

/-- `morecore`; `0` is `NULL`. -/
def morecore (I : Image κ) (fuel : Nat) (nu : U64) (g : Program κ) :
    Except Halt (U64 × Program κ) := do
  let nu := if nu < nalloc then nalloc else nu
  let (cp, g) ← sbrk I (nu * sizeofHeader) g
  if cp = -1#64 then .ok (0#64, g)
  else do
    let g ← free fuel (cp + sizeofHeader)
      { g with mem := setSize g.mem cp (nu.setWidth 32) }
    .ok (g.freep, g)

/-- `nunits` of `malloc`, which is an `unsigned`. -/
def nunits (nbytes : U64) : BitVec 32 :=
  ((nbytes + sizeofHeader - 1#64) / sizeofHeader + 1#64).setWidth 32

/-- A block that is large enough has been found: it, or its end, is handed out. -/
def handOut (n : BitVec 32) (prevp p : U64) (g : Program κ) : U64 × Program κ :=
  if sizeAt g.mem p = n then
    (p + sizeofHeader, { g with mem := setPtr g.mem prevp (ptrAt g.mem p), freep := prevp })
  else
    let m := setSize g.mem p (sizeAt g.mem p - n)
    let q := plus p (sizeAt m p)
    (q + sizeofHeader, { g with mem := setSize m q n, freep := prevp })

/-- The loop of `malloc`. -/
def mallocLoop (I : Image κ) (n : BitVec 32) :
    Nat → U64 → U64 → Program κ → Except Halt (U64 × Program κ)
  | 0, _, _, _ => .error .fuel
  | fuel + 1, prevp, p, g =>
      if n ≤ sizeAt g.mem p then .ok (handOut n prevp p g)
      else if p = g.freep then do
        let (p, g) ← morecore I fuel (n.setWidth 64) g
        if p = 0#64 then .ok (0#64, g)
        else mallocLoop I n fuel p (ptrAt g.mem p) g
      else mallocLoop I n fuel p (ptrAt g.mem p) g

/-- The first call: `base` becomes a ring of one block of size 0. -/
def initList (I : Image κ) (g : Program κ) : Program κ :=
  if g.freep = 0#64 then
    { g with mem := setSize (setPtr g.mem I.base I.base) I.base 0#32, freep := I.base }
  else g

/-- `malloc`. -/
def malloc (I : Image κ) (fuel : Nat) (nbytes : U64) (g : Program κ) :
    Except Halt (U64 × Program κ) :=
  let g := initList I g
  mallocLoop I (nunits nbytes) fuel g.freep (ptrAt g.mem g.freep) g

/-- `realloc`, which compares and copies units where its argument counts bytes. -/
def realloc (I : Image κ) (fuel : Nat) (ptr size : U64) (g : Program κ) :
    Except Halt (U64 × Program κ) :=
  if ptr = 0#64 then malloc I fuel size g
  else
    let bp := ptr - sizeofHeader
    if (sizeAt g.mem bp).setWidth 64 < size then do
      let (new, g) ← malloc I fuel size g
      if new = 0#64 then .ok (0#64, g)
      else do
        let g ← free fuel ptr { g with mem := memcpy new ptr (sizeAt g.mem bp).toNat g.mem }
        .ok (new, g)
    else .ok (ptr, g)

end Alloc

end BufferVM
