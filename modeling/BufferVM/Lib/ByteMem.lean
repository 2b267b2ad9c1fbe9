/-
  Lib/ByteMem.lean --- memory as a function from addresses to bytes.

  Addresses are machine words.  A run of bytes is written at an address, and `BytesAt` says
  that it can be read there; a write elsewhere leaves it.  Words are kept with their low
  byte first.
-/
import Mathlib.Data.BitVec
import Mathlib.Logic.Function.Basic

set_option autoImplicit false

namespace BufferVM

namespace ByteMem

variable {w : Nat} {β : Type}

/-! ## Runs of bytes -/

/-- The address `i` behind another. -/
def offset (a : BitVec w) (i : Nat) : BitVec w := a + BitVec.ofNat w i

/-- A run of bytes is written. -/
def store (m : BitVec w → β) (a : BitVec w) (bs : List β) : BitVec w → β :=
  fun x => (bs[(x - a).toNat]?).getD (m x)

/-- A run of bytes is read. -/
def load (m : BitVec w → β) (a : BitVec w) (n : Nat) : List β :=
  (List.range n).map fun i => m (offset a i)

/-- The bytes at an address. -/
def BytesAt (m : BitVec w → β) (a : BitVec w) (bs : List β) : Prop :=
  ∀ i (hi : i < bs.length), m (offset a i) = bs[i]

/-- The run does not go round the end of memory. -/
def Fits (a : BitVec w) (n : Nat) : Prop := a.toNat + n ≤ 2 ^ w

/-- Two runs do not overlap. -/
def Apart (a : BitVec w) (n : Nat) (b : BitVec w) (k : Nat) : Prop :=
  a.toNat + n ≤ b.toNat ∨ b.toNat + k ≤ a.toNat

@[simp] theorem length_load (m : BitVec w → β) (a : BitVec w) (n : Nat) :
    (load m a n).length = n := by
  simp [load]

@[simp] theorem offset_zero (a : BitVec w) : offset a 0 = a := BitVec.add_zero a

theorem offset_offset (a : BitVec w) (i j : Nat) : offset (offset a i) j = offset a (i + j) := by
  rw [offset, offset, offset, BitVec.ofNat_add, BitVec.add_assoc]

theorem toNat_offset {a : BitVec w} {n i : Nat} (h : Fits a n) (hi : i < n) :
    (offset a i).toNat = a.toNat + i := by
  rw [Fits] at h
  rw [offset, BitVec.toNat_add, BitVec.toNat_ofNat, Nat.add_mod_mod]
  exact Nat.mod_eq_of_lt (by omega)

/-- The offset of an address in a run is found again. -/
theorem toNat_offset_sub {a : BitVec w} {i : Nat} (hi : i < 2 ^ w) :
    (offset a i - a).toNat = i := by
  have hcancel : offset a i - a = BitVec.ofNat w i := by
    rw [offset, BitVec.add_comm, BitVec.add_sub_cancel]
  rw [hcancel, BitVec.toNat_ofNat, Nat.mod_eq_of_lt hi]

theorem store_offset (m : BitVec w → β) (a : BitVec w) (bs : List β) {i : Nat} (hi : i < 2 ^ w) :
    store m a bs (offset a i) = (bs[i]?).getD (m (offset a i)) := by
  rw [store, toNat_offset_sub hi]

theorem bytesAt_store (m : BitVec w → β) {a : BitVec w} {bs : List β} (hlen : bs.length ≤ 2 ^ w) :
    BytesAt (store m a bs) a bs := by
  intro i hi
  rw [store_offset m a bs (by omega), List.getElem?_eq_getElem hi, Option.getD_some]

/-- What lies outside of the run stays. -/
theorem store_of_apart (m : BitVec w → β) {a x : BitVec w} {bs : List β} (hfits : Fits a bs.length)
    (hx : x.toNat < a.toNat ∨ a.toNat + bs.length ≤ x.toNat) : store m a bs x = m x := by
  have hlen : bs.length ≤ (x - a).toNat := by
    have hxlt := x.isLt
    have halt := a.isLt
    rw [Fits] at hfits
    rw [BitVec.toNat_sub]
    rcases hx with hx | hx
    · rw [Nat.mod_eq_of_lt (by omega)]
      omega
    · have heq : 2 ^ w - a.toNat + x.toNat = (x.toNat - a.toNat) + 2 ^ w := by omega
      rw [heq, Nat.add_mod_right, Nat.mod_eq_of_lt (by omega)]
      omega
  rw [store, List.getElem?_eq_none hlen, Option.getD_none]

/-- Nothing outside of the run has changed. -/
def KeepsOutside (m m' : BitVec w → β) (a : BitVec w) (n : Nat) : Prop :=
  ∀ x : BitVec w, x.toNat < a.toNat ∨ a.toNat + n ≤ x.toNat → m' x = m x

theorem keepsOutside_store (m : BitVec w → β) {a : BitVec w} {bs : List β} (h : Fits a bs.length) :
    KeepsOutside m (ByteMem.store m a bs) a bs.length := fun _ hx => store_of_apart m h hx

/-- A change in a part of the run is a change in the run. -/
theorem KeepsOutside.mono {m m' : BitVec w → β} {a b : BitVec w} {n k : Nat}
    (h : KeepsOutside m m' a n)
    (hlow : b.toNat ≤ a.toNat) (hhigh : a.toNat + n ≤ b.toNat + k) : KeepsOutside m m' b k := by
  intro x hx
  apply h
  omega

theorem KeepsOutside.trans {m m' m'' : BitVec w → β} {a : BitVec w} {n : Nat}
    (h : KeepsOutside m m' a n)
    (h' : KeepsOutside m' m'' a n) : KeepsOutside m m'' a n := fun x hx => (h' x hx).trans (h x hx)

theorem BytesAt.congr {m m' : BitVec w → β} {b : BitVec w} {bs : List β} (h : BytesAt m b bs)
    (hfits : Fits b bs.length)
    (hm : ∀ x : BitVec w, b.toNat ≤ x.toNat → x.toNat < b.toNat + bs.length → m' x = m x) :
    BytesAt m' b bs := by
  intro i hi
  have hoff := toNat_offset hfits hi
  rw [hm _ (by omega) (by omega)]
  exact h i hi

theorem BytesAt.keeps {m m' : BitVec w → β} {a b : BitVec w} {bs : List β} {n : Nat}
    (h : BytesAt m b bs)
    (hk : KeepsOutside m m' a n) (hfits : Fits b bs.length) (hapart : Apart b bs.length a n) :
    BytesAt m' b bs := by
  rw [Apart] at hapart
  apply h.congr hfits
  intro x hx hx'
  apply hk
  omega

theorem bytesAt_append {m : BitVec w → β} {a : BitVec w} {bs cs : List β} :
    BytesAt m a (bs ++ cs) ↔ BytesAt m a bs ∧ BytesAt m (offset a bs.length) cs := by
  constructor
  · intro h
    constructor
    · intro i hi
      have hall := h i (by rw [List.length_append]; omega)
      rwa [List.getElem_append_left hi] at hall
    · intro i hi
      have hall := h (bs.length + i) (by rw [List.length_append]; omega)
      rw [List.getElem_append_right (by omega)] at hall
      rw [offset_offset]
      simpa using hall
  · rintro ⟨hbs, hcs⟩ i hi
    by_cases hlt : i < bs.length
    · rw [List.getElem_append_left hlt]
      exact hbs i hlt
    · rw [List.length_append] at hi
      have hrest := hcs (i - bs.length) (by omega)
      rw [offset_offset, Nat.add_sub_cancel' (by omega)] at hrest
      rw [List.getElem_append_right (by omega)]
      exact hrest

theorem BytesAt.load {m : BitVec w → β} {a : BitVec w} {bs : List β} (h : BytesAt m a bs) :
    ByteMem.load m a bs.length = bs := by
  apply List.ext_getElem
  · simp
  · intro i hi hi'
    have hget : (ByteMem.load m a bs.length)[i] = m (offset a i) := by
      simp [ByteMem.load]
    rw [hget]
    exact h i hi'

theorem bytesAt_nil (m : BitVec w → β) (a : BitVec w) : BytesAt m a [] := by
  intro i hi
  exact absurd hi (Nat.not_lt_zero i)

/-- Two runs one behind the other are one. -/
theorem store_append (m : BitVec w → β) {a : BitVec w} {bs cs : List β}
    (h : Fits a (bs.length + cs.length)) :
    store (store m a bs) (offset a bs.length) cs = store m a (bs ++ cs) := by
  funext x
  obtain ⟨i, hi, rfl⟩ : ∃ i, i < 2 ^ w ∧ offset a i = x := by
    refine ⟨(x - a).toNat, (x - a).isLt, ?_⟩
    rw [offset, BitVec.ofNat_toNat, BitVec.setWidth_eq, BitVec.add_comm, BitVec.sub_add_cancel]
  rw [store_offset m a (bs ++ cs) hi]
  by_cases hlt : i < bs.length
  · have hfirst : store (store m a bs) (offset a bs.length) cs (offset a i) = store m a bs
      (offset a i) := by
      cases cs with
      | nil => rw [store, List.getElem?_nil, Option.getD_none]
      | cons c cs =>
          rw [List.length_cons] at h
          have hoff := toNat_offset h (i := i) (by omega)
          have hbehind := toNat_offset h (i := bs.length) (by omega)
          rw [Fits] at h
          refine store_of_apart _ ?_ (Or.inl (by omega))
          rw [Fits, hbehind, List.length_cons]
          omega
    rw [hfirst, store_offset m a bs hi, List.getElem?_append_left hlt]
  · rw [Fits] at h
    have hsplit : i = bs.length + (i - bs.length) := by omega
    rw [hsplit, ← offset_offset, store_offset _ _ _ (by omega), offset_offset, ← hsplit,
      store_offset m a bs hi, List.getElem?_eq_none (l := bs) (by omega), Option.getD_none,
      List.getElem?_append_right (by omega)]

@[simp] theorem store_nil (m : BitVec w → β) (a : BitVec w) : store m a [] = m := by
  funext x
  rw [store, List.getElem?_nil, Option.getD_none]

/-- One byte. -/
theorem store_singleton (m : BitVec w → β) (a : BitVec w) (b : β) :
    store m a [b] = Function.update m a b := by
  funext x
  by_cases hx : x = a
  · subst hx
    simp [store]
  · have hpos : 1 ≤ (x - a).toNat := by
      by_contra hc
      have hzero : x - a = 0#w := BitVec.eq_of_toNat_eq
        (by rw [BitVec.toNat_ofNat, Nat.zero_mod]; omega)
      exact hx (sub_eq_zero.mp hzero)
    rw [store, List.getElem?_eq_none (by simpa using hpos), Option.getD_none,
      Function.update_of_ne hx]

theorem load_succ (m : BitVec w → β) (a : BitVec w) (n : Nat) :
    load m a (n + 1) = load m a n ++ [m (offset a n)] := by
  rw [load, List.range_succ, List.map_append]
  rfl

/-! ## Words -/

/-- The number whose digits, the lowest first, are these bytes. -/
def fromBytes : List (BitVec 8) → Nat
  | [] => 0
  | b :: bs => b.toNat + 256 * fromBytes bs

/-- The `n` lowest digits of a number. -/
def toBytes : Nat → Nat → List (BitVec 8)
  | 0, _ => []
  | n + 1, x => BitVec.ofNat 8 x :: toBytes n (x / 256)

@[simp] theorem length_toBytes (n x : Nat) : (toBytes n x).length = n := by
  induction n generalizing x with
  | zero => rfl
  | succ n ih => rw [toBytes, List.length_cons, ih]

theorem fromBytes_toBytes (n x : Nat) : fromBytes (toBytes n x) = x % 256 ^ n := by
  induction n generalizing x with
  | zero => rw [toBytes, fromBytes, Nat.pow_zero, Nat.mod_one]
  | succ n ih =>
      have hmod : x % 256 ^ (n + 1) = x % 256 + 256 * (x / 256 % 256 ^ n) := by
        rw [Nat.pow_succ, Nat.mul_comm, Nat.mod_mul]
      rw [toBytes, fromBytes, ih, BitVec.toNat_ofNat, hmod]

/-- The bytes of a word. -/
def wordBytes (v : BitVec 64) : List (BitVec 8) := toBytes 8 v.toNat

/-- The word at an address. -/
def loadWord (m : BitVec w → BitVec 8) (a : BitVec w) : BitVec 64 :=
  BitVec.ofNat 64 (fromBytes (load m a 8))

@[simp] theorem length_wordBytes (v : BitVec 64) : (wordBytes v).length = 8 := length_toBytes 8 _

theorem loadWord_of_bytesAt {m : BitVec w → BitVec 8} {a : BitVec w} {v : BitVec 64}
    (h : BytesAt m a (wordBytes v)) : loadWord m a = v := by
  have hload := h.load
  rw [length_wordBytes] at hload
  rw [loadWord, hload, wordBytes, fromBytes_toBytes]
  have hv := v.isLt
  have hbound : (256 : Nat) ^ 8 = 2 ^ 64 := by decide
  apply BitVec.eq_of_toNat_eq
  rw [BitVec.toNat_ofNat, hbound, Nat.mod_eq_of_lt hv, Nat.mod_eq_of_lt hv]

/-- The bytes of a row of words. -/
def wordsBytes (vs : List (BitVec 64)) : List (BitVec 8) := vs.flatMap wordBytes

theorem length_wordsBytes (vs : List (BitVec 64)) : (wordsBytes vs).length = 8 * vs.length := by
  induction vs with
  | nil => rfl
  | cons v vs ih =>
      rw [wordsBytes, List.flatMap_cons, List.length_append, length_wordBytes]
      rw [wordsBytes] at ih
      rw [ih, List.length_cons]
      omega

/-- A word of a row. -/
theorem BytesAt.word {m : BitVec w → BitVec 8} {a : BitVec w} {vs : List (BitVec 64)}
    (h : BytesAt m a (wordsBytes vs)) {i : Nat} (hi : i < vs.length) :
    loadWord m (offset a (8 * i)) = vs[i] := by
  induction vs generalizing a i with
  | nil => exact absurd hi (Nat.not_lt_zero i)
  | cons v vs ih =>
      rw [wordsBytes, List.flatMap_cons, bytesAt_append, length_wordBytes] at h
      obtain ⟨hfirst, hrest⟩ := h
      cases i with
      | zero =>
          rw [Nat.mul_zero, offset_zero]
          exact loadWord_of_bytesAt hfirst
      | succ i =>
          have hnext := ih hrest (by simpa using hi)
          rw [offset_offset] at hnext
          rw [List.getElem_cons_succ, ← hnext]
          congr 2
          omega

end ByteMem

end BufferVM
