/-
  Vm/CString.lean --- `read_virtual_cstr` and the string it is to read.

  The scan counts the bytes of all pages in `bytes_read`, and uses that number as an index
  behind the physical address of the page it is on.  On the first page this is the byte of
  the string; on a later page it is one as many bytes behind it as were read before that
  page.  The bytes read in the end are one more than those up to the zero that the scan has
  found.  `ScannedWell` says when the string is nevertheless read.
-/
import BufferVM.Vm.GuestBytes

set_option autoImplicit false

namespace BufferVM

/-! ## The first byte that ends a walk -/

/-- The walk along `f` goes over bytes that are not zero and ends at `n` with `x`. -/
structure StopsAt (f : Nat → Option (BitVec 8)) (x : Option (BitVec 8)) (n : Nat) : Prop where
  last : f n = x
  before : ∀ i, i < n → ∃ b, f i = some b ∧ b ≠ 0#8

/-- A zero byte, or no byte at all. -/
def Terminal (x : Option (BitVec 8)) : Prop := ∀ b, x = some b → b = 0#8

theorem terminal_none : Terminal none := by simp [Terminal]

theorem terminal_zero : Terminal (some 0#8) := by simp [Terminal]

section Walk

variable {f : Nat → Option (BitVec 8)} {x y : Option (BitVec 8)} {n m : Nat}

theorem StopsAt.le (h : StopsAt f x n) (hy : Terminal (f m)) : n ≤ m := by
  by_contra hlt
  obtain ⟨b, hb, hne⟩ := h.before m (by omega)
  exact hne (hy b hb)

theorem StopsAt.unique (h : StopsAt f x n) (hx : Terminal x) (h' : StopsAt f y m)
    (hy : Terminal y) :
    n = m ∧ x = y := by
  have heq : n = m := Nat.le_antisymm (h.le (h'.last ▸ hy)) (h'.le (h.last ▸ hx))
  subst heq
  exact ⟨rfl, h.last.symm.trans h'.last⟩

/-- A walk ends with a zero or without a page, or does not end. -/
theorem stopsAt_cases (f : Nat → Option (BitVec 8)) :
    (∃ n, StopsAt f (some 0#8) n) ∨ (∃ n, StopsAt f none n) ∨
      ∀ i, ∃ b, f i = some b ∧ b ≠ 0#8 := by
  classical
  by_cases hall : ∀ i, ∃ b, f i = some b ∧ b ≠ 0#8
  · exact Or.inr (Or.inr hall)
  · rw [not_forall] at hall
    have hbefore : ∀ i, i < Nat.find hall → ∃ b, f i = some b ∧ b ≠ 0#8 := fun i hi =>
      not_not.mp (Nat.find_min hall hi)
    have hstop := Nat.find_spec hall
    cases hf : f (Nat.find hall) with
    | none => exact Or.inr (Or.inl ⟨_, hf, hbefore⟩)
    | some b =>
        have hb : b = 0#8 := by
          by_contra hne
          exact hstop ⟨b, hf, hne⟩
        exact Or.inl ⟨_, hb ▸ hf, hbefore⟩

end Walk

/-! ## What the scan looks at -/

/-- The byte of the string at an index. -/
def stringByte (v : U64) (vm : Vm) (i : Nat) : Option (BitVec 8) :=
  vm.readByte (v + BitVec.ofNat 64 i)

/-- The number of bytes on the pages before that of a byte. -/
def bytesBefore (v : U64) (i : Nat) : Nat :=
  if i < 4096 - v.toNat % 4096 then 0 else i - (v + BitVec.ofNat 64 i).toNat % 4096

/-- The byte that the scan compares with zero at an index. -/
def scannedByte (v : U64) (vm : Vm) (i : Nat) : Option (BitVec 8) :=
  (getPhysAddr (v + BitVec.ofNat 64 i) vm).map fun p =>
    vm.byte (p + BitVec.ofNat 64 (bytesBefore v i))

/-- The number of bytes that the scan has gone over at an index that begins a page. -/
def PageStart (v : U64) (r : Nat) : Prop := r = 0 ∨ (v + BitVec.ofNat 64 r).toNat % 4096 = 0

section Scan

variable {v : U64} {vm : Vm} {r k : Nat}

theorem toNat_add_mod (v : U64) (i : Nat) :
    (v + BitVec.ofNat 64 i).toNat % 4096 = (v.toNat % 4096 + i) % 4096 := by
  rw [BitVec.toNat_add, BitVec.toNat_ofNat]
  omega

theorem pageStart_next (v : U64) (r : Nat) :
    PageStart v (r + (4096 - (v + BitVec.ofNat 64 r).toNat % 4096)) := by
  right
  rw [toNat_add_mod, toNat_add_mod]
  omega

/-- The bytes of a page have the same number of bytes before them. -/
theorem bytesBefore_page (h : PageStart v r) {i : Nat}
    (hi : (v + BitVec.ofNat 64 r).toNat % 4096 + i < 4096) : bytesBefore v (r + i) = r := by
  rw [bytesBefore, toNat_add_mod]
  rw [PageStart] at h
  rw [toNat_add_mod] at h hi
  rcases h with h | h
  · rw [if_pos (by omega), h]
  · split
    · omega
    · omega

theorem scannedByte_page (vm : Vm) (h : PageStart v r) {i : Nat}
    (hi : (v + BitVec.ofNat 64 r).toNat % 4096 + i < 4096) :
    scannedByte v vm (r + i) =
      (getPhysAddr (v + BitVec.ofNat 64 r) vm).map fun p => vm.byte
      (p + BitVec.ofNat 64 (r + i)) := by
  rw [scannedByte, bytesBefore_page h hi, add_ofNat_add, getPhysAddr_add hi, Option.map_map]
  congr 1
  funext p
  show vm.byte (p + BitVec.ofNat 64 i + BitVec.ofNat 64 r) = _
  rw [add_ofNat_add, BitVec.add_assoc, BitVec.add_assoc, BitVec.add_comm (BitVec.ofNat 64 i)]

/-- The inner loop ends at the first zero of the page. -/
theorem cstrPage_stop {phys : U64} {n : Nat} : ∀ r : Nat, r ≤ k → k < r + n →
    vm.byte (phys + BitVec.ofNat 64 k) = 0#8 →
    (∀ i, r ≤ i → i < k → vm.byte (phys + BitVec.ofNat 64 i) ≠ 0#8) →
    cstrPage vm phys n r = some (k + 1) := by
  induction n with
  | zero => intro r hr hk; omega
  | succ n ih =>
      intro r hr hk hzero hbefore
      rw [cstrPage]
      rcases Nat.eq_or_lt_of_le hr with heq | hlt
      · rw [heq, if_pos hzero]
      · rw [if_neg (hbefore r le_rfl hlt)]
        exact ih (r + 1) hlt (by omega) hzero fun i hi => hbefore i (by omega)

/-- The inner loop goes over a page without a zero. -/
theorem cstrPage_over {phys : U64} {n : Nat} : ∀ r : Nat,
    (∀ i, r ≤ i → i < r + n → vm.byte (phys + BitVec.ofNat 64 i) ≠ 0#8) →
    cstrPage vm phys n r = none := by
  induction n with
  | zero => intro r _; rfl
  | succ n ih =>
      intro r hbefore
      rw [cstrPage, if_neg (hbefore r le_rfl (by omega))]
      exact ih (r + 1) fun i hi hlt => hbefore i (by omega) (by omega)

/-- One turn of the outer loop, over a page without a zero. -/
theorem cstrLength_over (h : PageStart v r)
    (hover : ∀ i, r ≤ i → i < r + (4096 - (v + BitVec.ofNat 64 r).toNat % 4096) →
      ∃ b, scannedByte v vm i = some b ∧ b ≠ 0#8) (fuel : Nat) :
    cstrLength v vm (fuel + 1) r =
      cstrLength v vm fuel (r + (4096 - (v + BitVec.ofNat 64 r).toNat % 4096)) := by
  have hoff := Nat.mod_lt (v + BitVec.ofNat 64 r).toNat (show 0 < 4096 by decide)
  have hbyte : ∀ i, r ≤ i → i < r + (4096 - (v + BitVec.ofNat 64 r).toNat % 4096) →
      ∃ p, getPhysAddr (v + BitVec.ofNat 64 r) vm = some p ∧
        vm.byte (p + BitVec.ofNat 64 i) ≠ 0#8 := by
    intro i hi hlt
    obtain ⟨b, hb, hne⟩ := hover i hi hlt
    have hpage := scannedByte_page vm h (i := i - r) (by omega)
    rw [Nat.add_sub_cancel' hi, hb] at hpage
    obtain ⟨p, hp, hpb⟩ := Option.map_eq_some_iff.mp hpage.symm
    exact ⟨p, hp, hpb ▸ hne⟩
  obtain ⟨phys, hphys, -⟩ := hbyte r le_rfl (by omega)
  rw [cstrLength, hphys]
  simp only
  rw [cstrPage_over r]
  intro i hi hlt
  obtain ⟨p, hp, hne⟩ := hbyte i hi hlt
  rw [hphys] at hp
  rw [Option.some.inj hp]
  exact hne

/-- **The scan ends with the first zero among the bytes that it looks at.** -/
theorem cstrLength_zero (h : StopsAt (scannedByte v vm) (some 0#8) k) (fuel : Nat) :
    ∀ r : Nat, PageStart v r → r ≤ k →
      k < r + (4096 * fuel - (v + BitVec.ofNat 64 r).toNat % 4096) →
      cstrLength v vm fuel r = some (some ((k + 2) % 2 ^ 64)) := by
  induction fuel with
  | zero => intro r _ hr hk; omega
  | succ fuel ih =>
      intro r hstart hr hk
      rcases Nat.lt_or_ge k (r + (4096 - (v + BitVec.ofNat 64 r).toNat % 4096)) with hin | hout
      · -- the zero is on this page
        have hbyte : ∀ i, r ≤ i → i ≤ k → scannedByte v vm i =
            (getPhysAddr (v + BitVec.ofNat 64 r) vm).map fun p => vm.byte
            (p + BitVec.ofNat 64 i) := by
          intro i hi hle
          have hpage := scannedByte_page vm hstart (i := i - r) (by omega)
          rwa [Nat.add_sub_cancel' hi] at hpage
        have hlast := h.last
        rw [hbyte k hr le_rfl] at hlast
        obtain ⟨phys, hphys, hzero⟩ := Option.map_eq_some_iff.mp hlast
        rw [cstrLength, hphys]
        simp only
        rw [cstrPage_stop r hr hin hzero]
        intro i hi hlt
        obtain ⟨b, hb, hne⟩ := h.before i hlt
        rw [hbyte i hi (Nat.le_of_lt hlt), hphys] at hb
        have hsame : vm.byte (phys + BitVec.ofNat 64 i) = b := Option.some.inj hb
        rw [hsame]
        exact hne
      · rw [cstrLength_over hstart fun i _ hlt => h.before i (by omega)]
        have hnext := pageStart_next v r
        apply ih _ hnext hout
        have hmod := add_mod_page v r (4096 - (v + BitVec.ofNat 64 r).toNat % 4096)
        omega

/-- The scan ends at the first page that is not there. -/
theorem cstrLength_absent (h : StopsAt (scannedByte v vm) none k) (fuel : Nat) :
    ∀ r : Nat, PageStart v r → r ≤ k →
      k < r + (4096 * fuel - (v + BitVec.ofNat 64 r).toNat % 4096) →
      cstrLength v vm fuel r = some none := by
  induction fuel with
  | zero => intro r _ hr hk; omega
  | succ fuel ih =>
      intro r hstart hr hk
      rcases Nat.lt_or_ge k (r + (4096 - (v + BitVec.ofNat 64 r).toNat % 4096)) with hin | hout
      · have hpage := scannedByte_page vm hstart (i := k - r) (by omega)
        rw [Nat.add_sub_cancel' hr, h.last] at hpage
        rw [cstrLength, Option.map_eq_none_iff.mp hpage.symm]
      · rw [cstrLength_over hstart fun i _ hlt => h.before i (by omega)]
        apply ih _ (pageStart_next v r) hout
        have hmod := add_mod_page v r (4096 - (v + BitVec.ofNat 64 r).toNat % 4096)
        omega

/-- A scan that finds neither does not come back. -/
theorem cstrLength_endless (h : ∀ i, ∃ b, scannedByte v vm i = some b ∧ b ≠ 0#8) (fuel : Nat) :
    ∀ r : Nat, PageStart v r → cstrLength v vm fuel r = none := by
  induction fuel with
  | zero => intro r _; rfl
  | succ fuel ih =>
      intro r hstart
      rw [cstrLength_over hstart fun i _ _ => h i]
      exact ih _ (pageStart_next v r)

/-- The bytes that the scan looks at repeat when the counter has wrapped round. -/
theorem scannedByte_wrap (v : U64) (vm : Vm) {i : Nat} (hi : 4096 - v.toNat % 4096 ≤ i) :
    scannedByte v vm (i + 2 ^ 64) = scannedByte v vm i := by
  have hwrap : ∀ j : Nat, BitVec.ofNat 64 (j + 2 ^ 64) = BitVec.ofNat 64 j := by
    intro j
    apply BitVec.eq_of_toNat_eq
    rw [BitVec.toNat_ofNat, BitVec.toNat_ofNat, Nat.add_mod_right]
  have hle : (v + BitVec.ofNat 64 i).toNat % 4096 ≤ i := by
    rw [toNat_add_mod]
    omega
  have hbefore : BitVec.ofNat 64 (bytesBefore v (i + 2 ^ 64)) = BitVec.ofNat 64
      (bytesBefore v i) := by
    rw [bytesBefore, bytesBefore, if_neg (by omega), if_neg (by omega), hwrap,
      Nat.sub_add_comm hle, hwrap]
  rw [scannedByte, scannedByte, hwrap, hbefore]

/-- A scan that ends does so before the counter has wrapped round and a page is done again. -/
theorem StopsAt.scanned_lt {x : Option (BitVec 8)} (h : StopsAt (scannedByte v vm) x k)
    (hx : Terminal x) : k < 4096 * (2 ^ 52 + 1) - v.toNat % 4096 := by
  by_contra hge
  have hoff := Nat.mod_lt v.toNat (show 0 < 4096 by decide)
  have hwrap := scannedByte_wrap v vm (i := k - 2 ^ 64) (by omega)
  rw [Nat.sub_add_cancel (by omega), h.last] at hwrap
  have hle := h.le (m := k - 2 ^ 64) (hwrap ▸ hx)
  omega

theorem pageStart_zero (v : U64) : PageStart v 0 := Or.inl rfl

/-- The bytes that are read when the scan has found its zero. -/
theorem readVirtualCstr_zero (h : StopsAt (scannedByte v vm) (some 0#8) k) :
    readVirtualCstr v vm = some (guestBytes vm ((k + 2) % 2 ^ 64) v) := by
  have hlt := h.scanned_lt terminal_zero
  have hlength := cstrLength_zero h (2 ^ 52 + 1) 0 (pageStart_zero v) (Nat.zero_le k) (by
    rw [BitVec.add_zero]
    omega)
  rw [readVirtualCstr, hlength, Option.bind_eq_bind, Option.bind_some]
  exact readVirtualAddr_eq _ _ _

theorem readVirtualCstr_absent (h : StopsAt (scannedByte v vm) none k) :
    readVirtualCstr v vm = some none := by
  have hlt := h.scanned_lt terminal_none
  have hlength := cstrLength_absent h (2 ^ 52 + 1) 0 (pageStart_zero v) (Nat.zero_le k) (by
    rw [BitVec.add_zero]
    omega)
  rw [readVirtualCstr, hlength, Option.bind_eq_bind, Option.bind_some]

theorem readVirtualCstr_endless (h : ∀ i, ∃ b, scannedByte v vm i = some b ∧ b ≠ 0#8) :
    readVirtualCstr v vm = none := by
  rw [readVirtualCstr, cstrLength_endless h _ 0 (pageStart_zero v)]
  rfl

end Scan

/-! ## The string that is read -/

/-- `read_virtual_cstr` reads the string at an address, and fails when a page on the way to
its end is not there. -/
structure ReadsString (v : U64) (vm : Vm) : Prop where
  string : ∀ n, StopsAt (stringByte v vm) (some 0#8) n →
    ∃ buffer, readVirtualCstr v vm = some (some buffer) ∧ n < buffer.length ∧
      ∀ i, i ≤ n → buffer[i]? = stringByte v vm i
  absent : ∀ n, StopsAt (stringByte v vm) none n → readVirtualCstr v vm = some none

/-- The zero that the scan finds is not more than a byte before that of the string, and the
bytes up to the one behind it are there; on the way to a page that is not there, it finds
none except at the last byte. -/
structure ScannedWell (v : U64) (vm : Vm) : Prop where
  string : ∀ n, StopsAt (stringByte v vm) (some 0#8) n →
    ∃ k, StopsAt (scannedByte v vm) (some 0#8) k ∧ n < (k + 2) % 2 ^ 64 ∧
      ∀ i, i < (k + 2) % 2 ^ 64 → (getPhysAddr (v + BitVec.ofNat 64 i) vm).isSome
  absent : ∀ n, StopsAt (stringByte v vm) none n →
    ∀ k, k + 1 < n → scannedByte v vm k ≠ some 0#8

section String

variable {v : U64} {vm : Vm} {n k : Nat}

/-- Addresses that agree in 39 bits are translated alike. -/
theorem getPhysAddr_wrap (v : U64) (i : Nat) (vm : Vm) :
    getPhysAddr (v + BitVec.ofNat 64 (i + 2 ^ 39)) vm = getPhysAddr (v + BitVec.ofNat 64 i) vm := by
  have hadd : (v + BitVec.ofNat 64 (i + 2 ^ 39)).toNat % 2 ^ 39 =
      (v + BitVec.ofNat 64 i).toNat % 2 ^ 39 := by
    rw [BitVec.toNat_add, BitVec.toNat_add, BitVec.toNat_ofNat, BitVec.toNat_ofNat]
    omega
  exact getPhysAddr_congr hadd vm

theorem stringByte_eq_none_iff (v : U64) (vm : Vm) (i : Nat) :
    stringByte v vm i = none ↔ getPhysAddr (v + BitVec.ofNat 64 i) vm = none :=
  Option.map_eq_none_iff

theorem scannedByte_eq_none_iff (v : U64) (vm : Vm) (i : Nat) :
    scannedByte v vm i = none ↔ getPhysAddr (v + BitVec.ofNat 64 i) vm = none :=
  Option.map_eq_none_iff

/-- A walk that ends without a page does so within the address space. -/
theorem StopsAt.absent_lt (h : StopsAt (stringByte v vm) none n) : n < 2 ^ 39 := by
  by_contra hge
  obtain ⟨b, hb, -⟩ := h.before (n - 2 ^ 39) (by omega)
  have hwrap := getPhysAddr_wrap v (n - 2 ^ 39) vm
  rw [Nat.sub_add_cancel (by omega), (stringByte_eq_none_iff v vm n).mp h.last, eq_comm,
    ← stringByte_eq_none_iff, hb] at hwrap
  exact absurd hwrap (by simp)

/-- On the first page the scan looks at the bytes of the string. -/
theorem scannedByte_first (vm : Vm) {i : Nat} (hi : i < 4096 - v.toNat % 4096) :
    scannedByte v vm i = stringByte v vm i := by
  rw [scannedByte, bytesBefore, if_pos hi]
  simp only [BitVec.add_zero]
  rfl

/-- The scan does not go beyond a page that is not there. -/
theorem StopsAt.scanned_le (h : StopsAt (stringByte v vm) none n)
    (hk : StopsAt (scannedByte v vm) (some 0#8) k) : k < n := by
  have habsent := (scannedByte_eq_none_iff v vm n).mpr ((stringByte_eq_none_iff v vm n).mp h.last)
  have hle := hk.le (m := n) (habsent ▸ terminal_none)
  rcases Nat.eq_or_lt_of_le hle with heq | hlt
  · rw [← heq, hk.last] at habsent
    exact absurd habsent (by simp)
  · exact hlt

theorem string_iff :
    (∃ buffer, readVirtualCstr v vm = some (some buffer) ∧ n < buffer.length ∧
      ∀ i, i ≤ n → buffer[i]? = stringByte v vm i) ↔
    ∃ k, StopsAt (scannedByte v vm) (some 0#8) k ∧ n < (k + 2) % 2 ^ 64 ∧
      ∀ i, i < (k + 2) % 2 ^ 64 → (getPhysAddr (v + BitVec.ofNat 64 i) vm).isSome := by
  constructor
  · intro hread
    obtain ⟨buffer, hrun, hlen, -⟩ := hread
    rcases stopsAt_cases (scannedByte v vm) with hzero | habsent | hall
    · obtain ⟨k, hk⟩ := hzero
      rw [readVirtualCstr_zero hk] at hrun
      have hbytes := Option.some.inj hrun
      have hlength := (guestBytes_eq_some_iff.mp hbytes).1
      exact ⟨k, hk, by omega, guestBytes_isSome_iff.mp (hbytes ▸ rfl)⟩
    · obtain ⟨k, hk⟩ := habsent
      rw [readVirtualCstr_absent hk] at hrun
      exact absurd hrun (by simp)
    · rw [readVirtualCstr_endless hall] at hrun
      exact absurd hrun (by simp)
  · intro hscan
    obtain ⟨k, hk, hn, hpresent⟩ := hscan
    obtain ⟨buffer, hbytes⟩ := Option.isSome_iff_exists.mp (guestBytes_isSome_iff.mpr hpresent)
    obtain ⟨hlen, hget⟩ := guestBytes_eq_some_iff.mp hbytes
    refine ⟨buffer, by rw [readVirtualCstr_zero hk, hbytes], by omega, fun i hi => ?_⟩
    exact (hget i (by omega)).symm

theorem absent_iff (h : StopsAt (stringByte v vm) none n) :
    readVirtualCstr v vm = some none ↔ ∀ k, k + 1 < n → scannedByte v vm k ≠ some 0#8 := by
  have hn := h.absent_lt
  have hlast := (stringByte_eq_none_iff v vm n).mp h.last
  constructor
  · intro hrun k hk hzero
    rcases stopsAt_cases (scannedByte v vm) with hfound | habsent | hall
    · obtain ⟨j, hj⟩ := hfound
      have hle := hj.le (m := k) (hzero ▸ terminal_zero)
      rw [readVirtualCstr_zero hj, Nat.mod_eq_of_lt (by omega)] at hrun
      -- all the bytes that are read are there
      have hsome : (guestBytes vm (j + 2) v).isSome := by
        apply guestBytes_isSome_iff.mpr
        intro i hi
        obtain ⟨b, hb, -⟩ := h.before i (by omega)
        rw [← readByte_isSome]
        exact Option.isSome_iff_exists.mpr ⟨b, hb⟩
      rw [Option.some.inj hrun] at hsome
      exact absurd hsome (by simp)
    · obtain ⟨j, hj⟩ := habsent
      have hle := hj.le (m := k) (hzero ▸ terminal_zero)
      obtain ⟨b, hb, -⟩ := h.before j (by omega)
      have hnone := (stringByte_eq_none_iff v vm j).mpr
        ((scannedByte_eq_none_iff v vm j).mp hj.last)
      rw [hb] at hnone
      exact absurd hnone (by simp)
    · rw [readVirtualCstr_endless hall] at hrun
      exact absurd hrun (by simp)
  · intro hno
    rcases stopsAt_cases (scannedByte v vm) with hfound | habsent | hall
    · obtain ⟨j, hj⟩ := hfound
      have hlt := h.scanned_le hj
      have hge : n ≤ j + 1 := by
        by_contra hc
        exact hno j (by omega) hj.last
      rw [readVirtualCstr_zero hj, Nat.mod_eq_of_lt (by omega)]
      congr 1
      rw [← Option.not_isSome_iff_eq_none, guestBytes_isSome_iff]
      intro hall
      have hpresent := hall n (by omega)
      rw [hlast] at hpresent
      exact absurd hpresent (by simp)
    · obtain ⟨j, hj⟩ := habsent
      exact readVirtualCstr_absent hj
    · obtain ⟨b, hb, -⟩ := hall n
      have hnone := (scannedByte_eq_none_iff v vm n).mpr hlast
      rw [hb] at hnone
      exact absurd hnone (by simp)

/-- **A guest string is read** exactly when the scan goes well. -/
theorem readsString_iff (v : U64) (vm : Vm) : ReadsString v vm ↔ ScannedWell v vm := by
  constructor
  · intro h
    exact ⟨fun n hn => string_iff.mp (h.string n hn),
      fun n hn => (absent_iff hn).mp (h.absent n hn)⟩
  · intro h
    exact ⟨fun n hn => string_iff.mpr (h.string n hn),
      fun n hn => (absent_iff hn).mpr (h.absent n hn)⟩

/-- Where there is a string, only its own zero matters. -/
theorem readsString_iff_string (h : StopsAt (stringByte v vm) (some 0#8) n) :
    ReadsString v vm ↔ ∃ k, StopsAt (scannedByte v vm) (some 0#8) k ∧ n < (k + 2) % 2 ^ 64 ∧
      ∀ i, i < (k + 2) % 2 ^ 64 → (getPhysAddr (v + BitVec.ofNat 64 i) vm).isSome := by
  rw [← string_iff]
  constructor
  · intro hread
    exact hread.string n h
  · intro hread
    refine ⟨fun m hm => ?_, fun m hm => ?_⟩
    · obtain ⟨heq, -⟩ := h.unique terminal_zero hm terminal_zero
      exact heq ▸ hread
    · exact absurd (h.unique terminal_zero hm terminal_none).2 (by simp)

/-- A string that ends on its first page is read when the byte behind it is there. -/
theorem readsString_firstPage (h : StopsAt (stringByte v vm) (some 0#8) n)
    (hn : n < 4096 - v.toNat % 4096) :
    ReadsString v vm ↔ (getPhysAddr (v + BitVec.ofNat 64 (n + 1)) vm).isSome := by
  have hscan : StopsAt (scannedByte v vm) (some 0#8) n := by
    refine ⟨?_, fun i hi => ?_⟩
    · rw [scannedByte_first vm hn]
      exact h.last
    · rw [scannedByte_first vm (by omega)]
      exact h.before i hi
  rw [readsString_iff_string h]
  constructor
  · intro hread
    obtain ⟨k, hk, -, hall⟩ := hread
    obtain ⟨rfl, -⟩ := hscan.unique terminal_zero hk terminal_zero
    exact hall (n + 1) (by omega)
  · intro hnext
    refine ⟨n, hscan, by omega, fun i hi => ?_⟩
    rcases Nat.lt_or_ge i n with hlt | hge
    · obtain ⟨b, hb, -⟩ := h.before i hlt
      rw [← readByte_isSome]
      exact Option.isSome_iff_exists.mpr ⟨b, hb⟩
    · rcases Nat.eq_or_lt_of_le hge with heq | hgt
      · rw [← readByte_isSome, ← heq]
        exact Option.isSome_iff_exists.mpr ⟨_, h.last⟩
      · rw [show i = n + 1 by omega]
        exact hnext

end String

/-! ## Strings that are not read -/

/-- A machine with the pages at `0x1000` and `0x2000` mapped, on frames 5 and 7; `abcdefg`
begins with the last three bytes of the first one. -/
def twoPageVm : Vm where
  mem f i :=
    if f = 1 ∧ i = 0#64 then 0x2001#64
    else if f = 2 ∧ i = 0#64 then 0x3001#64
    else if f = 3 ∧ i = 0#64 then 0x4001#64
    else if f = 4 ∧ i = 1#64 then 0x5001#64
    else if f = 4 ∧ i = 2#64 then 0x7001#64
    else if f = 5 ∧ i = 511#64 then 0x6362610000000000#64
    else if f = 7 ∧ i = 0#64 then 0x67666564#64
    else 0#64
  pageCounter := 10
  pml4Addr := 0x1000#64

theorem stopsAt_of_all {f : Nat → Option (BitVec 8)} {x : Option (BitVec 8)} {n : Nat}
    (hlast : f n = x)
    (hbefore : ∀ i, i < n → (f i).any (· ≠ 0#8) = true) : StopsAt f x n := by
  refine ⟨hlast, fun i hi => ?_⟩
  obtain ⟨b, hb, hne⟩ := (Option.any_eq_true _ _).mp (hbefore i hi)
  exact ⟨b, hb, of_decide_eq_true hne⟩

/-- An empty string at the end of the last page is not read; of one that crosses into a page
elsewhere the end is missing. -/
theorem string_notRead : ¬ ReadsString 0x1FFF#64 onePageVm ∧ ¬ ReadsString 0x1FFD#64 twoPageVm := by
  constructor
  · have hstring : StopsAt (stringByte 0x1FFF#64 onePageVm) (some 0#8) 0 :=
      stopsAt_of_all (by decide +kernel) fun i hi => absurd hi (Nat.not_lt_zero i)
    rw [readsString_firstPage hstring (by decide)]
    decide +kernel
  · have hstring : StopsAt (stringByte 0x1FFD#64 twoPageVm) (some 0#8) 7 :=
      stopsAt_of_all (by decide +kernel) (by decide +kernel)
    have hscan : StopsAt (scannedByte 0x1FFD#64 twoPageVm) (some 0#8) 4 :=
      stopsAt_of_all (by decide +kernel) (by decide +kernel)
    rw [readsString_iff_string hstring]
    intro hread
    obtain ⟨k, hk, hn, -⟩ := hread
    obtain ⟨rfl, -⟩ := hscan.unique terminal_zero hk terminal_zero
    exact absurd hn (by decide)

end BufferVM
