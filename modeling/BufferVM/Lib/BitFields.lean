/-
  Lib/BitFields.lean --- words that are packed from fields.

  The fields of a word are a list, from the lowest on, each with its width and its value.  The
  word is put together by shifting every field behind the ones below it, and a field is read
  back by a shift and a mask.
-/
import Mathlib.Data.BitVec

set_option autoImplicit false

namespace BitFields

/-- The value of a word with these fields: width and value, the lowest first. -/
def pack : List (Nat × Nat) → Nat
  | [] => 0
  | (n, v) :: fs => v + 2 ^ n * pack fs

/-- The bits that the fields take. -/
def width : List (Nat × Nat) → Nat
  | [] => 0
  | (n, _) :: fs => n + width fs

/-- Every value has the width of its field. -/
def Fits (fs : List (Nat × Nat)) : Prop := ∀ x ∈ fs, x.2 < 2 ^ x.1

variable {fs : List (Nat × Nat)} {n v : Nat}

theorem fits_nil : Fits [] := by simp [Fits]

theorem fits_cons : Fits ((n, v) :: fs) ↔ v < 2 ^ n ∧ Fits fs := by simp [Fits]

theorem Fits.concat (h : Fits fs) (hv : v < 2 ^ n) : Fits (fs ++ [(n, v)]) := by
  intro x hx
  rcases List.mem_append.mp hx with hx | hx
  · exact h x hx
  · obtain rfl := List.mem_singleton.mp hx
    exact hv

theorem pack_lt (h : Fits fs) : pack fs < 2 ^ width fs := by
  induction fs with
  | nil => exact Nat.one_pos
  | cons x fs ih =>
      obtain ⟨n, v⟩ := x
      obtain ⟨hv, hfs⟩ := fits_cons.mp h
      have hrest := ih hfs
      rw [pack, width, Nat.pow_add]
      calc v + 2 ^ n * pack fs < 2 ^ n + 2 ^ n * pack fs := Nat.add_lt_add_right hv _
        _ = 2 ^ n * (pack fs + 1) := by rw [Nat.mul_add, Nat.mul_one, Nat.add_comm]
        _ ≤ 2 ^ n * 2 ^ width fs := Nat.mul_le_mul_left _ hrest

theorem pack_concat (fs : List (Nat × Nat)) (n v : Nat) :
    pack (fs ++ [(n, v)]) = pack fs + v * 2 ^ width fs := by
  induction fs with
  | nil => simp [pack, width]
  | cons x fs ih =>
      obtain ⟨m, u⟩ := x
      rw [List.cons_append, pack, ih, pack, width, Nat.pow_add, Nat.mul_add, Nat.add_assoc,
        Nat.mul_left_comm]

theorem width_concat (fs : List (Nat × Nat)) (n v : Nat) :
    width (fs ++ [(n, v)]) = width fs + n := by
  induction fs with
  | nil => simp [width]
  | cons x fs ih =>
      obtain ⟨m, u⟩ := x
      rw [List.cons_append, width, ih, width, Nat.add_assoc]

/-- A field is put above the others. -/
theorem or_shift {w k : Nat} {a x : BitVec w} (ha : a.toNat = pack fs) (hfs : Fits fs)
    (hx : x.toNat = v) (hv : v < 2 ^ n) (hk : k = width fs) (hw : k + n ≤ w) :
    (a ||| x <<< k).toNat = pack (fs ++ [(n, v)]) ∧ Fits (fs ++ [(n, v)]) := by
  subst hk
  have hfits := hfs.concat hv
  have hlt := pack_lt hfits
  have hle : 2 ^ width (fs ++ [(n, v)]) ≤ 2 ^ w := by
    rw [width_concat]
    exact Nat.pow_le_pow_right (by decide) hw
  rw [pack_concat] at hlt ⊢
  have hshift : (x <<< width fs).toNat = v * 2 ^ width fs := by
    rw [BitVec.toNat_shiftLeft, Nat.shiftLeft_eq, hx, Nat.mod_eq_of_lt (by omega)]
  refine ⟨?_, hfits⟩
  rw [BitVec.toNat_or, hshift, ha, Nat.or_comm, Nat.mul_comm,
    ← Nat.two_pow_add_eq_or_of_lt (pack_lt hfs)]
  exact Nat.add_comm _ _

/-- A field is read back. -/
theorem pack_read (h : Fits fs) : ∀ {i : Nat}, fs[i]? = some (n, v) →
    pack fs / 2 ^ width (fs.take i) % 2 ^ n = v := by
  induction fs with
  | nil => intro i hi; exact absurd hi (by simp)
  | cons x fs ih =>
      obtain ⟨m, u⟩ := x
      obtain ⟨hu, hfs⟩ := fits_cons.mp h
      intro i hi
      cases i with
      | zero =>
          obtain ⟨rfl, rfl⟩ := Prod.mk.inj (Option.some.inj hi)
          simp [pack, width, Nat.mod_eq_of_lt hu]
      | succ i =>
          have hrest := ih hfs hi
          rw [List.take_succ_cons, width, pack, Nat.pow_add, ← Nat.div_div_eq_div_mul,
            Nat.add_mul_div_left _ _ (Nat.two_pow_pos m), Nat.div_eq_of_lt hu, Nat.zero_add]
          exact hrest

/-- A field is cut out of a word with its mask. -/
theorem toNat_and_mask {w : Nat} (x m : BitVec w) (hm : m.toNat = 2 ^ n - 1) :
    (x &&& m).toNat = x.toNat % 2 ^ n := by
  rw [BitVec.toNat_and, hm, Nat.and_two_pow_sub_one_eq_mod]

theorem toNat_and_mask_shift {w k : Nat} (x m : BitVec w) (hm : m.toNat >>> k = 2 ^ n - 1) :
    ((x &&& m) >>> k).toNat = x.toNat / 2 ^ k % 2 ^ n := by
  rw [BitVec.toNat_ushiftRight, BitVec.toNat_and, Nat.shiftRight_and_distrib, hm,
    Nat.and_two_pow_sub_one_eq_mod, Nat.shiftRight_eq_div_pow]

end BitFields
