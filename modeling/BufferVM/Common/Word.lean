/-
  Common/Word.lean --- 64-bit words and the page arithmetic of `common/paging.h`.

  Addresses, lengths, flags and pointers are 64-bit words, and C's unsigned
  arithmetic on them is `BitVec` arithmetic, which wraps.  The macros are written
  as the header has them; the lemmas say what they are in terms of `toNat`, which
  is the form every proof about ranges uses.
-/
import Mathlib.Data.BitVec

set_option autoImplicit false

namespace BufferVM

/-- `uint64_t`, `size_t` and pointers. -/
abbrev U64 : Type := BitVec 64

/-- A guest address of a VMA node; `0` is `NULL`. -/
abbrev Ptr : Type := U64

/-! ## `common/paging.h` -/

/-- `PAGE_SHIFT`. -/
def pageShift : Nat := 12

/-- `PAGE_SIZE`. -/
def pageSize : U64 := 0x1000#64

/-- `PAGE_MASK`. -/
def pageMask : U64 := ~~~(pageSize - 1#64)

/-- `P2ALIGN(x, align)`. -/
def p2Align (x align : U64) : U64 := x &&& -align

/-- `P2ROUNDUP(x, align)`. -/
def p2RoundUp (x align : U64) : U64 := -(-x &&& -align)

/-- `PAGE_ALIGN(addr)`. -/
def pageAlign (addr : U64) : U64 := p2RoundUp addr pageSize

/-- `PAGE_ALIGN_DOWN(addr)`. -/
def pageAlignDown (addr : U64) : U64 := p2Align addr pageSize

/-- `PAGE_OFFSET(addr)`. -/
def pageOffset (addr : U64) : U64 := addr &&& ~~~pageMask

/-- `PAGE_DIFFERENCE(left, right)`. -/
def pageDifference (left right : U64) : U64 := (left - right) >>> pageShift

/-- `TRANSFER_FLAG(x, bit1, bit2)` of `common/utils.h`. -/
def transferFlag (x bit1 bit2 : U64) : U64 := if x &&& bit1 ≠ 0#64 then bit2 else 0#64

/-- `TRANSFER_INV_FLAG(x, bit1, bit2)` of `common/utils.h`. -/
def transferInvFlag (x bit1 bit2 : U64) : U64 := if x &&& bit1 = 0#64 then bit2 else 0#64

/-! ## The errors of `common/syscall.h` -/

/-- `-ENOMEM` as it is stored in a 64-bit return value. -/
def eNOMEM : U64 := -12#64

/-- `-EINVAL` as it is stored in a 64-bit return value. -/
def eINVAL : U64 := -22#64

/-- `IS_ERR_VALUE(x)`. -/
def isErrValue (x : U64) : Bool := decide (-4095#64 ≤ x)

/-! ## What the macros compute -/

theorem and_allOnes_shiftLeft (x : U64) (k : Nat) :
    x &&& BitVec.allOnes 64 <<< k = (x >>> k) <<< k := by
  ext i hi
  simp only [BitVec.getElem_and, BitVec.getElem_shiftLeft, BitVec.getElem_ushiftRight,
    BitVec.getElem_allOnes]
  by_cases h : i < k
  · simp [h]
  · have : k + (i - k) = i := by omega
    simp [h, this, BitVec.getLsbD_eq_getElem hi]

/-- Rounding down to a power of two. -/
theorem toNat_and_allOnes_shiftLeft (x : U64) (k : Nat) :
    (x &&& BitVec.allOnes 64 <<< k).toNat = x.toNat / 2 ^ k * 2 ^ k := by
  have hx := x.isLt
  have hle := Nat.div_mul_le_self x.toNat (2 ^ k)
  rw [and_allOnes_shiftLeft, BitVec.toNat_shiftLeft, BitVec.toNat_ushiftRight,
    Nat.shiftRight_eq_div_pow, Nat.shiftLeft_eq]
  exact Nat.mod_eq_of_lt (by omega)

theorem neg_pageSize : -pageSize = BitVec.allOnes 64 <<< 12 := by decide

@[simp] theorem toNat_pageAlignDown (x : U64) :
    (pageAlignDown x).toNat = x.toNat / 4096 * 4096 := by
  rw [pageAlignDown, p2Align, neg_pageSize]
  exact toNat_and_allOnes_shiftLeft x 12

theorem toNat_pageAlign (x : U64) :
    (pageAlign x).toNat = (x.toNat + 4095) / 4096 * 4096 % 2 ^ 64 := by
  have hx := x.isLt
  have hdown : (-x &&& -pageSize).toNat = (-x).toNat / 4096 * 4096 :=
    toNat_pageAlignDown (-x)
  rw [pageAlign, p2RoundUp, BitVec.toNat_neg, hdown, BitVec.toNat_neg]
  omega

@[simp] theorem toNat_pageOffset (x : U64) : (pageOffset x).toNat = x.toNat % 4096 := by
  have hmask : ~~~pageMask = 4095#64 := by decide
  rw [pageOffset, hmask, BitVec.toNat_and]
  exact Nat.and_two_pow_sub_one_eq_mod x.toNat 12

@[simp] theorem toNat_pageDifference (x y : U64) :
    (pageDifference x y).toNat = (x - y).toNat / 4096 := by
  rw [pageDifference, pageShift, BitVec.toNat_ushiftRight, Nat.shiftRight_eq_div_pow]

/-- The test `addr & ~PAGE_MASK` of the code. -/
theorem pageOffset_eq_zero_iff (x : U64) : pageOffset x = 0#64 ↔ x.toNat % 4096 = 0 := by
  rw [← toNat_pageOffset]
  constructor
  · intro h; rw [h]; rfl
  · intro h; exact BitVec.eq_of_toNat_eq h

theorem pageAlign_of_aligned {x : U64} (h : x.toNat % 4096 = 0) : pageAlign x = x := by
  apply BitVec.eq_of_toNat_eq
  have hx := x.isLt
  rw [toNat_pageAlign]
  omega

theorem pageAlignDown_of_aligned {x : U64} (h : x.toNat % 4096 = 0) : pageAlignDown x = x := by
  apply BitVec.eq_of_toNat_eq
  rw [toNat_pageAlignDown]
  omega

/-! ## Error values -/

/-- An error value is above every page address. -/
theorem lt_of_isErrValue {e a : U64} (he : isErrValue e = true) (ha : a.toNat % 4096 = 0) :
    a < e := by
  simp only [isErrValue, decide_eq_true_eq, BitVec.le_def] at he
  have hneg : (-4095#64 : U64).toNat = 2 ^ 64 - 4095 := by decide
  have hlt := a.isLt
  rw [BitVec.lt_def]
  omega

/-- An error value is not a page address. -/
theorem not_aligned_of_isErrValue {e : U64} (he : isErrValue e = true) : e.toNat % 4096 ≠ 0 := by
  intro ha
  have hlt := lt_of_isErrValue he ha
  exact absurd hlt (BitVec.lt_irrefl _)

end BufferVM
