/-
  Kernel/Version.lean --- the version store and the check of an access,
  `kernel/c/version.c` and `libc/version.c`.

  Bits 40 to 47 of a user pointer are its version, and the version store holds a version for
  every byte.  A fault of a versioned access is checked by comparing the versions of the
  bytes from the faulting address on with the pointer's.  The loop looks at ten bytes at
  most, and asks the decoder for the width of the access only when it stops: at a byte of
  another version, or at the first byte of another page, which is taken for one that the
  access must not reach.
-/
import BufferVM.Vm.PageMap

set_option autoImplicit false

namespace BufferVM

/-! ## `libc/version.c` -/

/-- The bits of a pointer that hold its version. -/
def versionBits : U64 := 0xFF#64 <<< 40

/-- `normalise_version_ptr`. -/
def normaliseVersionPtr (addr : U64) : U64 := addr &&& ~~~versionBits

/-- `set_version_ptr`. -/
def setVersionPtr (version pointer : U64) : U64 :=
  normaliseVersionPtr pointer ||| ((version &&& 0xFF#64) <<< 40)

/-- `get_version_ptr`. -/
def getVersionPtr (pointer : U64) : U64 := pointer >>> 40

/-! ## The state -/

/-- What the check reads: the page tables, the bytes that a read of the kernel yields, and the
decoder, which gives the operand width of the instruction at an address in bits unless it
cannot decode it.  The check writes nothing. -/
structure VersionCheck where
  vm : Vm
  userVersionStart : U64
  byteAt : U64 → BitVec 8
  xedDecode : U64 → Option U64

/-- What is printed when an access is refused. -/
structure VersionReport where
  vaddr : U64
  rip : U64
  pVer : U64
  mVer : BitVec 8
  byte : Nat
  deriving DecidableEq, Repr

/-- `is_vpage_present`. -/
def isVpagePresent (virtualAddr : U64) (vm : Vm) : Bool := (getPhysAddr virtualAddr vm).isSome

/-- `on_same_page`. -/
def onSamePage (addr1 addr2 : U64) : Bool := decide (pageAlignDown addr1 = pageAlignDown addr2)

/-- The byte `i` behind an address. -/
def byteOffset (addr : U64) (i : Nat) : U64 := addr + BitVec.ofNat 64 i

namespace VersionCheck

variable (s : VersionCheck)

/-- `get_version`. -/
def getVersion (addr : U64) : BitVec 8 := s.byteAt (s.userVersionStart + normaliseVersionPtr addr)

/-- `check_version_instruction`.  The version that is printed is that of another byte:
`addr` is a pointer to 64-bit words here. -/
def checkVersionInstruction (addr rip : U64) (offset : Nat) (ptrVer : U64) :
    Except VersionReport Unit :=
  let refused : VersionReport :=
    { vaddr := addr, rip := rip, pVer := ptrVer
      mVer := s.getVersion (byteOffset addr (8 * offset)), byte := offset }
  match s.xedDecode rip with
  | some width => if (width / 8#64).toNat ≤ offset then .ok () else .error refused
  | none => .error refused

/-- The loop stops at the byte: it is on another page that is present, or of another
version. -/
def Stops (addr : U64) (i : Nat) : Prop :=
  (onSamePage (normaliseVersionPtr addr) (normaliseVersionPtr (byteOffset addr i)) = false ∧
      isVpagePresent (normaliseVersionPtr (byteOffset addr i)) s.vm = true) ∨
    (s.getVersion (byteOffset addr i)).setWidth 64 ≠ getVersionPtr addr

instance (addr : U64) (i : Nat) : Decidable (s.Stops addr i) := inferInstanceAs (Decidable (_ ∨ _))

/-- The loop of `check_version` over the bytes from `i` on. -/
def checkBytes (addr rip : U64) : Nat → Nat → Except VersionReport Unit
  | 0, _ => .ok ()
  | n + 1, i =>
      if s.Stops addr i then s.checkVersionInstruction addr rip i (getVersionPtr addr)
      else checkBytes addr rip n (i + 1)

/-- `check_version`. -/
def checkVersion (addr rip : U64) : Except VersionReport Unit := s.checkBytes addr rip 10 0

/-! ## The check -/

variable {s} {addr rip width : U64}

theorem checkVersionInstruction_ok (hxed : s.xedDecode rip = some width) (i : Nat) (ptrVer : U64) :
    s.checkVersionInstruction addr rip i ptrVer = .ok () ↔ (width / 8#64).toNat ≤ i := by
  rw [checkVersionInstruction, hxed]
  simp only
  split
  · rename_i hle
    exact ⟨fun _ => hle, fun _ => rfl⟩
  · rename_i hgt
    exact ⟨fun hc => absurd hc (by simp), fun hle => absurd hle hgt⟩

/-- The loop accepts unless it stops at a byte of the access. -/
theorem checkBytes_ok (hxed : s.xedDecode rip = some width) (n i : Nat) :
    s.checkBytes addr rip n i = .ok () ↔
      ∀ j, i ≤ j → j < i + n → s.Stops addr j → (∀ k, i ≤ k → k < j → ¬ s.Stops addr k) →
        (width / 8#64).toNat ≤ j := by
  induction n generalizing i with
  | zero => exact ⟨fun _ j hi hj => absurd hj (by omega), fun _ => rfl⟩
  | succ n ih =>
      rw [checkBytes]
      by_cases hstop : s.Stops addr i
      · rw [if_pos hstop, checkVersionInstruction_ok hxed]
        constructor
        · intro hle j hij hj _ hfirst
          obtain rfl : j = i := by
            by_contra hne
            exact hfirst i le_rfl (by omega) hstop
          exact hle
        · intro hall
          exact hall i le_rfl (by omega) hstop fun k hik hki => absurd hki (by omega)
      · rw [if_neg hstop, ih (i + 1)]
        constructor
        · intro hall j hij hj hj' hfirst
          have hne : j ≠ i := fun hc => hstop (hc ▸ hj')
          exact hall j (by omega) (by omega) hj' fun k hik hkj => hfirst k (by omega) hkj
        · intro hall j hij hj hj' hfirst
          refine hall j (by omega) (by omega) hj' fun k hik hkj => ?_
          by_cases hki : k = i
          · exact hki ▸ hstop
          · exact hfirst k (by omega) hkj

/-- The byte carries the version of the pointer. -/
def Carries (s : VersionCheck) (addr : U64) (k : Nat) : Prop :=
  s.getVersion (byteOffset addr k) = (addr >>> 40).setWidth 8

instance (s : VersionCheck) (addr : U64) (k : Nat) : Decidable (s.Carries addr k) :=
  inferInstanceAs (Decidable (_ = _))

/-- The byte is on the page of the pointer. -/
def SamePage (addr : U64) (k : Nat) : Prop :=
  pageAlignDown (normaliseVersionPtr (byteOffset addr k)) = pageAlignDown (normaliseVersionPtr addr)

instance (addr : U64) (k : Nat) : Decidable (SamePage addr k) := inferInstanceAs (Decidable (_ = _))

/-! ## Tagged pointers -/

theorem toNat_normaliseVersionPtr (huser : addr.toNat < 2 ^ 48) :
    (normaliseVersionPtr addr).toNat = addr.toNat % 2 ^ 40 := by
  have hmask : (~~~versionBits : U64) = 0xFFFF00FFFFFFFFFF#64 := by decide
  have hsmall : addr = addr &&& 0xFFFFFFFFFFFF#64 := by
    apply BitVec.eq_of_toNat_eq
    rw [BitVec.toNat_and]
    exact ((Nat.and_two_pow_sub_one_eq_mod _ 48).trans (Nat.mod_eq_of_lt huser)).symm
  rw [normaliseVersionPtr, hmask, hsmall, BitVec.and_assoc,
    show (0xFFFFFFFFFFFF#64 &&& 0xFFFF00FFFFFFFFFF#64 : U64) = 0xFFFFFFFFFF#64 by decide,
    BitVec.toNat_and, ← hsmall]
  exact Nat.and_two_pow_sub_one_eq_mod _ 40

/-- The pointer that `set_version` returns. -/
theorem toNat_setVersionPtr (huser : addr.toNat < 2 ^ 48) (version : U64) :
    (setVersionPtr version addr).toNat = version.toNat % 256 * 2 ^ 40 + addr.toNat % 2 ^ 40 := by
  have hbits : (version &&& 0xFF#64).toNat = version.toNat % 256 := by
    rw [BitVec.toNat_and]
    exact Nat.and_two_pow_sub_one_eq_mod _ 8
  have hshift : ((version &&& 0xFF#64) <<< 40).toNat = 2 ^ 40 * (version.toNat % 256) := by
    rw [BitVec.toNat_shiftLeft, hbits, Nat.shiftLeft_eq]
    omega
  rw [setVersionPtr, BitVec.toNat_or, toNat_normaliseVersionPtr huser, hshift, Nat.or_comm,
    ← Nat.two_pow_add_eq_or_of_lt (Nat.mod_lt _ (by decide))]
  omega

/-- The pointer that `set_version` returns leads to the same byte. -/
theorem normaliseVersionPtr_setVersionPtr (huser : addr.toNat < 2 ^ 48) (version : U64) :
    normaliseVersionPtr (setVersionPtr version addr) = normaliseVersionPtr addr := by
  have hptr := toNat_setVersionPtr huser version
  apply BitVec.eq_of_toNat_eq
  rw [toNat_normaliseVersionPtr (by omega), toNat_normaliseVersionPtr huser, hptr]
  omega

/-- It has the version that was set. -/
theorem toNat_getVersionPtr_setVersionPtr (huser : addr.toNat < 2 ^ 48) (version : U64) :
    (getVersionPtr (setVersionPtr version addr)).toNat = version.toNat % 256 := by
  rw [getVersionPtr, BitVec.toNat_ushiftRight, Nat.shiftRight_eq_div_pow,
    toNat_setVersionPtr huser version]
  omega

/-! ## What the check accepts -/

/-- The version of a user pointer is eight bits wide. -/
theorem setWidth_eq_getVersionPtr_iff (huser : addr.toNat < 2 ^ 48) (x : BitVec 8) :
    x.setWidth 64 = getVersionPtr addr ↔ x = (addr >>> 40).setWidth 8 := by
  have hx := x.isLt
  have hshift : (addr >>> 40).toNat = addr.toNat / 2 ^ 40 := by
    rw [BitVec.toNat_ushiftRight, Nat.shiftRight_eq_div_pow]
  rw [getVersionPtr, ← BitVec.toNat_inj, ← BitVec.toNat_inj, BitVec.toNat_setWidth,
    BitVec.toNat_setWidth, hshift]
  omega

/-- Where the loop stops, for a user pointer. -/
theorem stops_iff (huser : addr.toNat < 2 ^ 48) (i : Nat) :
    s.Stops addr i ↔
      (¬ SamePage addr i ∧ isVpagePresent (normaliseVersionPtr (byteOffset addr i)) s.vm = true) ∨
        ¬ s.Carries addr i := by
  have hpage : onSamePage (normaliseVersionPtr addr) (normaliseVersionPtr (byteOffset addr i)) =
      false ↔
      ¬ SamePage addr i := by
    rw [onSamePage, decide_eq_false_iff_not, SamePage, eq_comm]
  rw [Stops, hpage, Carries, ne_eq, setWidth_eq_getVersionPtr_iff huser]

/-- The access crosses into another page within the window, and every byte of it carries the
version. -/
def CrossesPage (s : VersionCheck) (addr : U64) (w : Nat) : Prop :=
  (∃ i, i < 10 ∧ i < w ∧ ¬ SamePage addr i) ∧ ∀ k, k < w → s.Carries addr k

/-- The window is on one page and carries the version, and a byte behind it does not. -/
def LeavesWindow (s : VersionCheck) (addr : U64) (w : Nat) : Prop :=
  (∀ i, i < 10 → SamePage addr i ∧ s.Carries addr i) ∧ ∃ k, k < w ∧ ¬ s.Carries addr k

/-- What the loop accepts, for an access whose pages are present. -/
theorem checkVersion_ok_iff (huser : addr.toNat < 2 ^ 48) (hxed : s.xedDecode rip = some width)
    (hpresent : ∀ k, k < (width / 8#64).toNat →
      isVpagePresent (normaliseVersionPtr (byteOffset addr k)) s.vm = true) :
    s.checkVersion addr rip = .ok () ↔
      ∀ i, i < 10 → i < (width / 8#64).toNat → SamePage addr i ∧ s.Carries addr i := by
  rw [checkVersion, checkBytes_ok hxed]
  generalize (width / 8#64).toNat = w at hpresent
  constructor
  · intro hall i
    -- by induction on the byte: none before it has stopped the loop
    induction i using Nat.strong_induction_on with
    | _ i ih =>
        intro hi hiw
        have hfirst : ∀ k, 0 ≤ k → k < i → ¬ s.Stops addr k := by
          intro k _ hki hstop
          obtain ⟨hsame, hcarry⟩ := ih k hki (by omega) (by omega)
          rcases (stops_iff huser k).mp hstop with hstop | hstop
          · exact hstop.1 hsame
          · exact hstop hcarry
        have hnot : ¬ s.Stops addr i := by
          intro hstop
          have := hall i (Nat.zero_le i) (by omega) hstop hfirst
          omega
        rw [stops_iff huser, not_or, not_and, not_not] at hnot
        refine ⟨?_, hnot.2⟩
        by_contra hsame
        exact hnot.1 hsame (hpresent i hiw)
  · intro hall j _ hj hstop _
    by_contra hlt
    obtain ⟨hsame, hcarry⟩ := hall j (by omega) (by omega)
    rcases (stops_iff huser j).mp hstop with hstop | hstop
    · exact hstop.1 hsame
    · exact hstop hcarry

end VersionCheck

open VersionCheck

/-- **The check accepts exactly the accesses whose bytes carry the pointer's version** unless
the access crosses into another page, which is refused, or is wider than the window, behind
which nothing is looked at. -/
theorem checkVersion_exact_iff (s : VersionCheck) (addr rip width : U64)
    (huser : addr.toNat < 2 ^ 48)
    (hxed : s.xedDecode rip = some width)
    (hpresent : ∀ k, k < (width / 8#64).toNat →
      isVpagePresent (normaliseVersionPtr (byteOffset addr k)) s.vm = true) :
    (s.checkVersion addr rip = .ok () ↔ ∀ k, k < (width / 8#64).toNat → s.Carries addr k) ↔
      ¬ s.CrossesPage addr (width / 8#64).toNat ∧ ¬ s.LeavesWindow addr (width / 8#64).toNat := by
  rw [checkVersion_ok_iff huser hxed hpresent]
  generalize (width / 8#64).toNat = w
  constructor
  · intro hexact
    refine ⟨fun ⟨⟨i, hi, hiw, hcross⟩, hall⟩ => ?_, fun ⟨hwindow, k, hkw, hk⟩ => ?_⟩
    · exact hcross (hexact.mpr hall i hi hiw).1
    · exact hk (hexact.mp (fun i hi _ => hwindow i hi) k hkw)
  · rintro ⟨hcross, hleaves⟩
    constructor
    · intro hok k hkw
      by_contra hk
      refine hleaves ⟨fun i hi => ?_, k, hkw, hk⟩
      have hki : ¬ k < 10 := fun hk10 => hk (hok k hk10 hkw).2
      exact hok i hi (by omega)
    · intro hall i hi hiw
      refine ⟨?_, hall i hiw⟩
      by_contra hsame
      exact hcross ⟨⟨i, hi, hiw, hsame⟩, hall⟩

/-- A machine with two pages of a user, whose bytes have version 5; those from `0x100c` to
`0x17ff` have version 6.  Every instruction is 8 bytes wide. -/
def versionedPages : VersionCheck where
  vm := (mapPhysicalPages 0x1000#64 (-1#64) pde64User 2#64 0#64 (buildPageTables blankVm)).2
  userVersionStart := 0x4000000000#64
  byteAt a := if 0x400000100c#64 ≤ a ∧ a < 0x4000001800#64 then 6#8 else 5#8
  xedDecode _ := some 64#64

/-- A pointer of version 5. -/
def fifthPtr (addr : U64) : U64 := setVersionPtr 5#64 addr

/-- Eight bytes that carry the version. -/
theorem checkVersion_exact_iff_eight :
    versionedPages.checkVersion (fifthPtr 0x1000#64) 0#64 = .ok () ↔
      ∀ k, k < (64#64 / 8#64 : U64).toNat → versionedPages.Carries (fifthPtr 0x1000#64) k := by
  have hpresent : ∀ k, k < (64#64 / 8#64 : U64).toNat →
      isVpagePresent (normaliseVersionPtr (byteOffset (fifthPtr 0x1000#64) k)) versionedPages.vm =
        true := by
    decide +kernel
  refine (checkVersion_exact_iff versionedPages (fifthPtr 0x1000#64) 0#64 64#64 (by decide) rfl
    hpresent).mpr ⟨?_, ?_⟩
  · rintro ⟨⟨i, -, hi, hcross⟩, -⟩
    have hsame : ∀ k, k < (64#64 / 8#64 : U64).toNat → SamePage (fifthPtr 0x1000#64) k := by
      decide +kernel
    exact hcross (hsame i hi)
  · rintro ⟨-, k, hk, hnot⟩
    have hcarry : ∀ k, k < (64#64 / 8#64 : U64).toNat → versionedPages.Carries
        (fifthPtr 0x1000#64) k := by
      decide +kernel
    exact hnot (hcarry k hk)

/-- Eight bytes that carry the version are refused when they cross into the next page. -/
theorem checkVersion_misjudges :
    (∀ k, k < 8 → versionedPages.Carries (fifthPtr 0x1ffc#64) k ∧
        isVpagePresent (normaliseVersionPtr (byteOffset (fifthPtr 0x1ffc#64) k)) versionedPages.vm =
          true) ∧
      versionedPages.xedDecode 0#64 = some 64#64 ∧
      versionedPages.checkVersion (fifthPtr 0x1ffc#64) 0#64 ≠ .ok () :=
  ⟨by decide +kernel, rfl, by decide +kernel⟩

end BufferVM
