/-
  Vm/GuestBytes.lean --- `read_virtual_addr` and `write_virtual_addr` byte by byte.

  The two copies go from page to page.  An address and the ones behind it in its page have
  the same tables, so the part of a copy that lies in a page is the bytes of it one after
  the other.  A write leaves the translation of every address whose tables it does not
  write into.
-/
import BufferVM.Vm.HostRead

set_option autoImplicit false

namespace BufferVM

/-! ## Addresses of a page -/

theorem toNat_add_page {a : U64} {k : Nat} (h : a.toNat % 4096 + k < 4096) :
    (a + BitVec.ofNat 64 k).toNat = a.toNat + k := by
  have ha := a.isLt
  rw [BitVec.toNat_add, BitVec.toNat_ofNat]
  omega

theorem add_ofNat_add (a : U64) (i k : Nat) :
    a + BitVec.ofNat 64 (i + k) = a + BitVec.ofNat 64 i + BitVec.ofNat 64 k := by
  rw [BitVec.ofNat_add, BitVec.add_assoc]

theorem toNat_version (v : U64) : (getVirtAddrInfo v).version.toNat = v.toNat / 2 ^ 39 % 512 :=
  toNat_field v 39 _ (by decide)

theorem VirtAddrInfo.eq_of_toNat {x y : VirtAddrInfo} (hver : x.version.toNat = y.version.toNat)
    (hptr : x.pgDirPtrOffset.toNat = y.pgDirPtrOffset.toNat)
    (hdir : x.pgDirOffset.toNat = y.pgDirOffset.toNat)
    (htbl : x.pgTblOffset.toNat = y.pgTblOffset.toNat)
    (hoff : x.physOffset.toNat = y.physOffset.toNat) : x = y := by
  cases x
  cases y
  simp only [VirtAddrInfo.mk.injEq, ← BitVec.toNat_inj]
  exact ⟨hver, hptr, hdir, htbl, hoff⟩

/-- Behind an address in its page only the offset changes. -/
theorem getVirtAddrInfo_add {a : U64} {k : Nat} (h : a.toNat % 4096 + k < 4096) :
    getVirtAddrInfo (a + BitVec.ofNat 64 k) =
      { getVirtAddrInfo a with
        physOffset := (getVirtAddrInfo a).physOffset + BitVec.ofNat 64 k } := by
  have hadd := toNat_add_page h
  have hlow := toNat_physOffset a
  apply VirtAddrInfo.eq_of_toNat
  · rw [toNat_version, toNat_version, hadd]
    omega
  · rw [toNat_pgDirPtrOffset, toNat_pgDirPtrOffset, hadd]
    omega
  · rw [toNat_pgDirOffset, toNat_pgDirOffset, hadd]
    omega
  · rw [toNat_pgTblOffset, toNat_pgTblOffset, hadd]
    omega
  · rw [toNat_physOffset, hadd, BitVec.toNat_add, hlow, BitVec.toNat_ofNat]
    omega

/-- **A page is translated as a whole.** -/
theorem getPhysAddr_add {a : U64} {k : Nat} (h : a.toNat % 4096 + k < 4096) (vm : Vm) :
    getPhysAddr (a + BitVec.ofNat 64 k) vm = (getPhysAddr a vm).map (· + BitVec.ofNat 64 k) := by
  simp only [getPhysAddr, getVirtAddrInfo_add h, Option.bind_eq_bind, Option.map_bind,
    Function.comp_def, Option.map_some, BitVec.add_assoc]

/-- An address is translated with its page. -/
theorem getPhysAddr_page (v : U64) (vm : Vm) :
    getPhysAddr v vm = (getPhysAddr (pageAlignDown v) vm).map (· + offsetInPage v) := by
  have hsplit : v = pageAlignDown v + BitVec.ofNat 64 (v.toNat % 4096) := by
    rw [pageAlignDown_eq_frameAddr]
    exact eq_frameAddr_add_offset v
  have hdown := toNat_pageAlignDown v
  conv_lhs => rw [hsplit]
  exact getPhysAddr_add (by omega) vm

theorem frameOf_add {p : U64} {k : Nat} (h : p.toNat % 4096 + k < 4096) :
    frameOf (p + BitVec.ofNat 64 k) = frameOf p := by
  rw [frameOf, frameOf, toNat_add_page h]
  omega

/-! ## The tables that a translation reads -/

/-- The frames of the tables that `get_phys_addr` reads for an address. -/
def tableFrames (virtualAddr : U64) (vm : Vm) : List Nat :=
  frameOf vm.pml4Addr :: (getPageEntry vm.pml4Addr 0#64 vm).elim [] fun pdpt =>
    frameOf pdpt :: (getPageEntry pdpt (getVirtAddrInfo virtualAddr).pgDirPtrOffset vm).elim []
      fun pd => frameOf pd :: (getPageEntry pd (getVirtAddrInfo virtualAddr).pgDirOffset vm).elim []
        fun pd2 => [frameOf pd2]

theorem getPageEntry_congr {vm vm' : Vm} {table : U64} (index : U64)
    (h : vm'.mem (frameOf table) = vm.mem (frameOf table)) :
    getPageEntry table index vm' = getPageEntry table index vm := by
  unfold getPageEntry Vm.entry
  rw [h]

/-- An address is translated alike when its tables are the same. -/
theorem getPhysAddr_of_tables {vm vm' : Vm} {v : U64} (hroot : vm'.pml4Addr = vm.pml4Addr)
    (h : ∀ f ∈ tableFrames v vm, vm'.mem f = vm.mem f) : getPhysAddr v vm' = getPhysAddr v vm := by
  unfold getPhysAddr
  simp only [hroot, Option.bind_eq_bind]
  rw [getPageEntry_congr _ (h _ (List.mem_cons_self ..))]
  cases hpdpt : getPageEntry vm.pml4Addr 0#64 vm with
  | none => rfl
  | some pdpt =>
      simp only [tableFrames, hpdpt, Option.elim_some, List.forall_mem_cons] at h
      obtain ⟨-, hmem, h⟩ := h
      simp only [Option.bind_some]
      rw [getPageEntry_congr _ hmem]
      cases hpd : getPageEntry pdpt (getVirtAddrInfo v).pgDirPtrOffset vm with
      | none => rfl
      | some pd =>
          simp only [hpd, Option.elim_some, List.forall_mem_cons] at h
          obtain ⟨hmem, h⟩ := h
          simp only [Option.bind_some]
          rw [getPageEntry_congr _ hmem]
          cases hpd2 : getPageEntry pd (getVirtAddrInfo v).pgDirOffset vm with
          | none => rfl
          | some pd2 =>
              simp only [hpd2, Option.elim_some, List.forall_mem_cons] at h
              simp only [Option.bind_some]
              rw [getPageEntry_congr _ h.1]

/-- No byte of the range lies in a table that translates one of its addresses. -/
def Vm.ApartFromTables (vm : Vm) (v : U64) (n : Nat) : Prop :=
  ∀ i, i < n → ∀ j, j < n → ∀ p ∈ getPhysAddr (v + BitVec.ofNat 64 i) vm,
    frameOf p ∉ tableFrames (v + BitVec.ofNat 64 j) vm

instance (vm : Vm) (v : U64) (n : Nat) : Decidable (vm.ApartFromTables v n) :=
  @Nat.decidableBallLT n _ fun _ _ => @Nat.decidableBallLT n _ fun _ _ =>
    Option.decidableForallMem _

/-! ## Reading -/

/-- The bytes at an address, read one at a time. -/
def guestBytes (vm : Vm) : Nat → U64 → Option (List (BitVec 8))
  | 0, _ => some []
  | n + 1, v => do
      let b ← vm.readByte v
      let bs ← guestBytes vm n (v + 1#64)
      some (b :: bs)

section Reading

variable {vm : Vm} {v : U64}

theorem readByte_isSome (v : U64) (vm : Vm) : (vm.readByte v).isSome = (getPhysAddr v vm).isSome :=
  Option.isSome_map

theorem add_succ (v : U64) (i : Nat) :
    v + BitVec.ofNat 64 (i + 1) = v + 1#64 + BitVec.ofNat 64 i := by
  rw [Nat.add_comm, add_ofNat_add]

/-- **The bytes of a range**, one by one. -/
theorem guestBytes_eq_some_iff {n : Nat} {bs : List (BitVec 8)} :
    guestBytes vm n v = some bs ↔
      bs.length = n ∧ ∀ i, i < n → vm.readByte (v + BitVec.ofNat 64 i) = bs[i]? := by
  induction n generalizing v bs with
  | zero =>
      rw [guestBytes, Option.some.injEq, List.length_eq_zero_iff]
      exact ⟨fun h => ⟨h.symm, fun i hi => absurd hi (Nat.not_lt_zero i)⟩, fun h => h.1.symm⟩
  | succ n ih =>
      simp only [guestBytes, Option.bind_eq_bind, Option.bind_eq_some_iff, Option.some.injEq]
      constructor
      · intro h
        obtain ⟨b, hb, bs', hbs, heq⟩ := h
        obtain ⟨hlen, hget⟩ := ih.mp hbs
        subst heq
        refine ⟨by simp [hlen], fun i hi => ?_⟩
        cases i with
        | zero => simpa using hb
        | succ i =>
            rw [add_succ, hget i (by omega)]
            rfl
      · intro h
        obtain ⟨hlen, hget⟩ := h
        cases bs with
        | nil => exact absurd hlen (by simp)
        | cons b bs' =>
            have hb := hget 0 (by omega)
            refine ⟨b, by simpa using hb, bs', ih.mpr ⟨by simpa using hlen, fun i hi => ?_⟩, rfl⟩
            rw [← add_succ, hget (i + 1) (by omega)]
            rfl

/-- The bytes of a range are there when each of them is. -/
theorem guestBytes_isSome_iff {n : Nat} :
    (guestBytes vm n v).isSome ↔ ∀ i, i < n → (getPhysAddr (v + BitVec.ofNat 64 i) vm).isSome := by
  constructor
  · intro h i hi
    obtain ⟨bs, hbs⟩ := Option.isSome_iff_exists.mp h
    obtain ⟨hlen, hget⟩ := guestBytes_eq_some_iff.mp hbs
    rw [← readByte_isSome, hget i hi, List.getElem?_eq_getElem (by omega)]
    rfl
  · intro h
    induction n generalizing v with
    | zero => rfl
    | succ n ih =>
        have hhead := h 0 (by omega)
        rw [← readByte_isSome, BitVec.add_zero] at hhead
        have htail := ih (v := v + 1#64) fun i hi => by
          rw [← add_succ]
          exact h (i + 1) (by omega)
        obtain ⟨b, hb⟩ := Option.isSome_iff_exists.mp hhead
        obtain ⟨bs, hbs⟩ := Option.isSome_iff_exists.mp htail
        simp only [guestBytes, hb, hbs, Option.bind_eq_bind, Option.bind_some, Option.isSome_some]

theorem guestBytes_none {n : Nat} (hn : n ≠ 0) (h : getPhysAddr v vm = none) :
    guestBytes vm n v = none := by
  obtain ⟨n, rfl⟩ := Nat.exists_eq_succ_of_ne_zero hn
  rw [guestBytes, Vm.readByte, h]
  rfl

theorem guestBytes_add (vm : Vm) (v : U64) (a b : Nat) :
    guestBytes vm (a + b) v = (guestBytes vm a v).bind fun bs =>
      (guestBytes vm b (v + BitVec.ofNat 64 a)).map (bs ++ ·) := by
  induction a generalizing v with
  | zero => simp [guestBytes]
  | succ a ih =>
      rw [show a + 1 + b = a + b + 1 by omega, guestBytes, guestBytes, ih, ← add_succ]
      cases vm.readByte v with
      | none => rfl
      | some x =>
          cases guestBytes vm a (v + 1#64) with
          | none => rfl
          | some bs =>
              cases guestBytes vm b (v + BitVec.ofNat 64 (a + 1)) with
              | none => rfl
              | some bs' => rfl

/-- The bytes of a range that does not leave its page. -/
theorem guestBytes_page {n : Nat} (hn : v.toNat % 4096 + n ≤ 4096) {p : U64}
    (hp : getPhysAddr v vm = some p) :
    guestBytes vm n v = some ((List.range n).map fun i => vm.byte (p + BitVec.ofNat 64 i)) := by
  apply guestBytes_eq_some_iff.mpr
  refine ⟨by simp, fun i hi => ?_⟩
  rw [Vm.readByte, getPhysAddr_add (by omega), hp]
  simp [hi, Vm.byte]

theorem readVirtualAddrLoop_eq (fuel : Nat) : ∀ (bytesRead left : Nat) (buffer : List (BitVec 8)),
    left < fuel → readVirtualAddrLoop v vm fuel bytesRead left buffer =
      some ((guestBytes vm left (v + BitVec.ofNat 64 bytesRead)).map (buffer ++ ·)) := by
  induction fuel with
  | zero => intro bytesRead left buffer h; omega
  | succ fuel ih =>
      intro bytesRead left buffer h
      rw [readVirtualAddrLoop]
      by_cases hleft : left = 0
      · rw [if_pos hleft, hleft, guestBytes, Option.map_some, List.append_nil]
      · rw [if_neg hleft]
        cases hphys : getPhysAddr (v + BitVec.ofNat 64 bytesRead) vm with
        | none => rw [guestBytes_none hleft hphys, Option.map_none]
        | some phys =>
            obtain ⟨hpos, hle, -⟩ := pageBytes_pos (v + BitVec.ofNat 64 bytesRead) hleft
            have hpage : (v + BitVec.ofNat 64 bytesRead).toNat % 4096 +
                pageBytes (v + BitVec.ofNat 64 bytesRead) left ≤ 4096 := by
              rw [pageBytes]
              omega
            generalize pageBytes (v + BitVec.ofNat 64 bytesRead) left = n at *
            have hsplit := guestBytes_add vm (v + BitVec.ofNat 64 bytesRead) n (left - n)
            rw [Nat.add_sub_cancel' hle, guestBytes_page hpage hphys, Option.bind_some,
              ← add_ofNat_add] at hsplit
            rw [hsplit, Option.map_map]
            simp only
            rw [ih _ _ _ (by omega)]
            congr 2
            funext bs
            exact List.append_assoc _ _ _

/-- **`read_virtual_addr` reads the bytes one by one.** -/
theorem readVirtualAddr_eq (v : U64) (n : Nat) (vm : Vm) :
    readVirtualAddr v n vm = some (guestBytes vm n v) := by
  rw [readVirtualAddr, readVirtualAddrLoop_eq _ _ _ _ (Nat.lt_succ_self n), BitVec.add_zero]
  cases guestBytes vm n v with
  | none => rfl
  | some bs => rfl

end Reading

/-! ## Writing -/

/-- Bytes are stored one after the other, each at the physical address that it has. -/
def storeBytes (phys : Nat → Option U64) (source : Nat → BitVec 8) : Nat → Vm → Vm
  | 0, vm => vm
  | n + 1, vm =>
      match phys n with
      | none => storeBytes phys source n vm
      | some p => (storeBytes phys source n vm).setByte p (source n)

/-- The physical addresses of a range. -/
def physAddrs (v : U64) (vm : Vm) (i : Nat) : Option U64 := getPhysAddr (v + BitVec.ofNat 64 i) vm

section Writing

variable {vm : Vm} {v : U64} {phys : Nat → Option U64} {source : Nat → BitVec 8}

theorem pml4Addr_storeBytes (phys : Nat → Option U64) (source : Nat → BitVec 8) (n : Nat)
    (vm : Vm) :
    (storeBytes phys source n vm).pml4Addr = vm.pml4Addr := by
  induction n with
  | zero => rfl
  | succ n ih =>
      rw [storeBytes]
      cases phys n with
      | none => exact ih
      | some p => exact ih

/-- A frame that no byte lies in stays. -/
theorem mem_storeBytes {n : Nat} {f : Nat} (h : ∀ i, i < n → ∀ p ∈ phys i, frameOf p ≠ f) :
    (storeBytes phys source n vm).mem f = vm.mem f := by
  induction n with
  | zero => rfl
  | succ n ih =>
      have hrest := ih fun i hi => h i (by omega)
      rw [storeBytes]
      cases hp : phys n with
      | none => exact hrest
      | some p =>
          rw [← hrest]
          funext i
          exact Radix.write_frame_ne _ _ _ _ (Ne.symm (h n (by omega) p hp))

/-- The bytes of a page are stored by `memcpy`. -/
theorem memcpy_storeBytes (written n : Nat) {p : U64}
    (h : ∀ i, i < n → phys (written + i) = some (p + BitVec.ofNat 64 i)) :
    (storeBytes phys source written vm).memcpy (fun i => source (written + i)) n p =
      storeBytes phys source (written + n) vm := by
  induction n with
  | zero => rfl
  | succ n ih =>
      rw [Vm.memcpy, ih fun i hi => h i (by omega), ← Nat.add_assoc, storeBytes, h n (by omega)]

/-- The bytes stored so far leave the translation of the range. -/
theorem getPhysAddr_storeBytes {n m i : Nat} (h : vm.ApartFromTables v n) (hm : m ≤ n)
    (hi : i < n) :
    getPhysAddr (v + BitVec.ofNat 64 i) (storeBytes (physAddrs v vm) source m vm) =
      physAddrs v vm i := by
  apply getPhysAddr_of_tables (pml4Addr_storeBytes _ _ _ _)
  intro f hf
  apply mem_storeBytes
  intro j hj p hp heq
  subst heq
  exact h j (by omega) i hi p hp hf

theorem writeVirtualAddrLoop_bytes {n : Nat} (h : vm.ApartFromTables v n) (fuel : Nat) :
    ∀ written left : Nat, left < fuel → written + left = n →
      (∀ i, i < written → (physAddrs v vm i).isSome) →
      ∃ m, m ≤ n ∧ (∀ i, i < m → (physAddrs v vm i).isSome) ∧ (m < n → physAddrs v vm m = none) ∧
        writeVirtualAddrLoop v source fuel written left
            (storeBytes (physAddrs v vm) source written vm) =
          some (decide (m = n), storeBytes (physAddrs v vm) source m vm) := by
  induction fuel with
  | zero => intro written left hf; omega
  | succ fuel ih =>
      intro written left hf hn hpresent
      rw [writeVirtualAddrLoop]
      by_cases hleft : left = 0
      · have hw : written = n := by omega
        refine ⟨written, hw.le, hpresent, fun hlt => by omega, ?_⟩
        rw [if_pos hleft, decide_eq_true hw]
      · rw [if_neg hleft, getPhysAddr_storeBytes h (by omega) (by omega)]
        cases hphys : physAddrs v vm written with
        | none =>
            refine ⟨written, by omega, hpresent, fun _ => hphys, ?_⟩
            rw [decide_eq_false (by omega)]
        | some p =>
            obtain ⟨hpos, hle, -⟩ := pageBytes_pos (v + BitVec.ofNat 64 written) hleft
            have hpage : (v + BitVec.ofNat 64 written).toNat % 4096 +
                pageBytes (v + BitVec.ofNat 64 written) left ≤ 4096 := by
              rw [pageBytes]
              omega
            generalize pageBytes (v + BitVec.ofNat 64 written) left = c at *
            have hchunk : ∀ i, i < c →
                physAddrs v vm (written + i) = some (p + BitVec.ofNat 64 i) := by
              intro i hi
              rw [physAddrs] at hphys ⊢
              rw [add_ofNat_add, getPhysAddr_add (by omega), hphys, Option.map_some]
            simp only
            rw [memcpy_storeBytes written c hchunk]
            apply ih _ _ (by omega) (by omega)
            intro i hi
            rcases Nat.lt_or_ge i written with hlt | hge
            · exact hpresent i hlt
            · have hi' := hchunk (i - written) (by omega)
              rw [Nat.add_sub_cancel' hge] at hi'
              rw [hi']
              rfl

/-- **`write_virtual_addr` stores the bytes one by one** up to the first that has no page. -/
theorem writeVirtualAddr_bytes {n : Nat} (h : vm.ApartFromTables v n) (source : Nat → BitVec 8) :
    ∃ m, m ≤ n ∧ (∀ i, i < m → (physAddrs v vm i).isSome) ∧ (m < n → physAddrs v vm m = none) ∧
      writeVirtualAddr v source n vm =
        some (decide (m = n), storeBytes (physAddrs v vm) source m vm) :=
  writeVirtualAddrLoop_bytes h (n + 1) 0 n (Nat.lt_succ_self n) (Nat.zero_add n)
    fun i hi => absurd hi (Nat.not_lt_zero i)

end Writing

/-! ## Both copies -/

/-- **Host copies to and from the guest are what they are byte by byte.** -/
theorem hostCopy_bytes {vm : Vm} {v : U64} {n : Nat} (h : vm.ApartFromTables v n)
    (source : Nat → BitVec 8) :
    (∃ r, readVirtualAddr v n vm = some r ∧
      (r.isSome ↔ ∀ i, i < n → (physAddrs v vm i).isSome) ∧
      ∀ buffer, r = some buffer → buffer.length = n ∧
        ∀ i, i < n → ∃ p, physAddrs v vm i = some p ∧ buffer[i]? = some (vm.byte p)) ∧
    ∃ ok vm', writeVirtualAddr v source n vm = some (ok, vm') ∧
      (ok = true ↔ ∀ i, i < n → (physAddrs v vm i).isSome) ∧
      (ok = true → vm' = storeBytes (physAddrs v vm) source n vm) ∧
      (ok = false → ∃ m, m < n ∧ (∀ i, i < m → (physAddrs v vm i).isSome) ∧
        physAddrs v vm m = none ∧ vm' = storeBytes (physAddrs v vm) source m vm) := by
  constructor
  · refine ⟨_, readVirtualAddr_eq v n vm, guestBytes_isSome_iff, fun buffer hbuf => ?_⟩
    obtain ⟨hlen, hget⟩ := guestBytes_eq_some_iff.mp hbuf
    refine ⟨hlen, fun i hi => ?_⟩
    have hi' := hget i hi
    rw [List.getElem?_eq_getElem (by omega), Vm.readByte, Option.map_eq_some_iff] at hi'
    obtain ⟨p, hp, hbyte⟩ := hi'
    refine ⟨p, hp, ?_⟩
    rw [List.getElem?_eq_getElem (by omega), ← hbyte]
    rfl
  · obtain ⟨m, hm, hpresent, habsent, hrun⟩ := writeVirtualAddr_bytes h source
    refine ⟨_, _, hrun, ?_, fun hok => ?_, fun hok => ?_⟩
    · rw [decide_eq_true_iff]
      constructor
      · intro heq
        rw [← heq]
        exact hpresent
      · intro hall
        by_contra hne
        have hno := hall m (by omega)
        rw [habsent (by omega)] at hno
        exact absurd hno (by simp)
    · rw [of_decide_eq_true hok]
    · have hne := of_decide_eq_false hok
      exact ⟨m, by omega, hpresent, habsent (by omega), rfl⟩

/-- A copy of four bytes to the last two of the only page: it fails, and has stored them. -/
theorem hostCopy_bytes_edge :
    ∃ vm', writeVirtualAddr 0x1FFE#64 (fun _ => 0x68#8) 4 onePageVm = some (false, vm') ∧
      ∃ m, m < 4 ∧ vm' = storeBytes (physAddrs 0x1FFE#64 onePageVm)
        (fun _ => 0x68#8) m onePageVm := by
  have hapart : onePageVm.ApartFromTables 0x1FFE#64 4 := by decide +kernel
  have habsent : (physAddrs 0x1FFE#64 onePageVm 2).isSome = false := by decide +kernel
  obtain ⟨-, ok, vm', hrun, hok, -, hfail⟩ := hostCopy_bytes hapart fun _ => 0x68#8
  have hfalse : ok = false := by
    apply Bool.eq_false_iff.mpr
    intro htrue
    have hall := hok.mp htrue 2 (by decide)
    rw [habsent] at hall
    exact absurd hall (by decide)
  obtain ⟨m, hm, -, -, hstored⟩ := hfail hfalse
  exact ⟨vm', by rw [hrun, hfalse], m, hm, hstored⟩

end BufferVM
