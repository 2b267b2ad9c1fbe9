/-
  Vm/HostWritev.lean --- `host_writev` of `vm/host.c`.

  The array of the guest is read into a local one, and each of its buffers into memory from
  `malloc`; only when all of them are there is the host's `writev` called.  The local array
  is as long as the guest asks for, and so is each buffer: the stack may not have the room,
  and `malloc` may return `NULL`, which `read_virtual_addr` then writes to.  Where the host
  dies of that is `fault`.  What is freed is not kept track of.
-/
import BufferVM.Vm.GuestBytes

set_option autoImplicit false

namespace BufferVM

/-! ## `common/syscall.h` -/

/-- `-EFAULT` as it is stored in a 64-bit return value. -/
def eFAULT : U64 := -14#64

/-- `vm_iovec_t`. -/
structure VmIovec where
  iovBase : U64
  iovLen : U64
  deriving DecidableEq, Repr

/-- `sizeof(struct iovec)`. -/
def sizeofIovec : Nat := 16

/-- A word of memory, low byte first. -/
def wordOfBytes (bs : List (BitVec 8)) : U64 :=
  bs.foldr (fun b w => (w <<< 8) ||| b.setWidth 64) 0#64

/-- The entries of an array in memory. -/
def iovecsOf : Nat → List (BitVec 8) → List VmIovec
  | 0, _ => []
  | n + 1, bs =>
      ⟨wordOfBytes (bs.take 8), wordOfBytes ((bs.drop 8).take 8)⟩ ::
        iovecsOf n (bs.drop sizeofIovec)

/-! ## `vm/host.c` -/

/-- What `host_writev` needs from the host: whether an array of so many entries fits on the
stack, whether `malloc` has memory for a length, and what `writev` returns. -/
structure HostVectors where
  stack : Nat → Bool
  malloc : U64 → Bool
  writev : BitVec 32 → List (List (BitVec 8)) → U64

/-- How a call ends: with a value and the calls of the host's `writev`, or with the host's
death. -/
inductive WritevRun where
  | returned (ret : U64) (calls : List (BitVec 32 × List (List (BitVec 8))))
  | fault
  deriving DecidableEq

/-- The loop that reads the buffers: it ends with `ret` and the vectors, or never. -/
inductive Gathered where
  | finished (ret : U64) (vectors : List (List (BitVec 8)))
  | fault

/-- `malloc` and the read of a buffer into the memory it has returned; into `NULL` the first
byte cannot be copied. -/
def readBuffer (L : HostVectors) (v : VmIovec) (vm : Vm) :
    Option (Option (Option (List (BitVec 8)))) :=
  if L.malloc v.iovLen = true then (readVirtualAddr v.iovBase v.iovLen.toNat vm).map some
  else if v.iovLen = 0#64 then some (some (some []))
  else match getPhysAddr v.iovBase vm with
    | none => some (some none)
    | some _ => some none

/-- The loop of `host_writev` over the entries. -/
def gatherLoop (L : HostVectors) (vm : Vm) :
    List VmIovec → List (List (BitVec 8)) → Option Gathered
  | [], vectors => some (.finished 0#64 vectors)
  | v :: rest, vectors => do
      let buffer ← readBuffer L v vm
      match buffer with
      | none => some .fault
      | some none => some (.finished eFAULT vectors)
      | some (some vecbuf) => gatherLoop L vm rest (vectors ++ [vecbuf])

/-- `host_writev`; `flags` is not used by the code. -/
def hostWritev (L : HostVectors) (fd : BitVec 32) (vec : U64) (vlen : BitVec 32) (vm : Vm) :
    Option WritevRun :=
  if vlen.toInt < 0 then some (.returned eINVAL [])
  else if L.stack vlen.toNat = false then some .fault
  else do
    let array ← readVirtualAddr vec (vlen.signExtend 64 * BitVec.ofNat 64 sizeofIovec).toNat vm
    match array with
    | none => some (.returned eFAULT [])
    | some bytes =>
        let gathered ← gatherLoop L vm (iovecsOf vlen.toNat bytes) []
        match gathered with
        | .fault => some .fault
        | .finished ret vectors =>
            if isErrValue ret = true then some (.returned ret [])
            else some (.returned (L.writev fd vectors) [(fd, vectors)])

/-! ## The buffers of the guest -/

/-- The entries of the guest's array. -/
def guestIovecs (vec : U64) (n : Nat) (vm : Vm) : Option (List VmIovec) :=
  (guestBytes vm (n * sizeofIovec) vec).map (iovecsOf n)

/-- All bytes of a buffer are on pages that are there. -/
def VmIovec.OnPages (v : VmIovec) (vm : Vm) : Prop :=
  ∀ i, i < v.iovLen.toNat → (getPhysAddr (v.iovBase + BitVec.ofNat 64 i) vm).isSome

/-- The array and its buffers are on pages that are there. -/
def VectorsOnPages (vec : U64) (n : Nat) (vm : Vm) : Prop :=
  ∃ entries, guestIovecs vec n vm = some entries ∧ ∀ v ∈ entries, v.OnPages vm

/-- What a vector holds of the guest. -/
def VmIovec.Holds (vm : Vm) (v : VmIovec) (vecbuf : List (BitVec 8)) : Prop :=
  guestBytes vm v.iovLen.toNat v.iovBase = some vecbuf

/-- The call fails without `writev` exactly when a page is not there, and otherwise calls it
once, with the bytes of the guest. -/
structure GathersVectors (L : HostVectors) (fd : BitVec 32) (vec : U64) (vlen : BitVec 32)
    (vm : Vm) :
    Prop where
  efault : hostWritev L fd vec vlen vm = some (.returned eFAULT []) ↔
    ¬ VectorsOnPages vec vlen.toNat vm
  once : ∀ entries, guestIovecs vec vlen.toNat vm = some entries → (∀ v ∈ entries, v.OnPages vm) →
    ∃ vectors, List.Forall₂ (VmIovec.Holds vm) entries vectors ∧
      hostWritev L fd vec vlen vm = some (.returned (L.writev fd vectors) [(fd, vectors)])

/-- Memory is there for each buffer that a byte is copied to. -/
def BuffersAllocated (L : HostVectors) (vm : Vm) : List VmIovec → Prop
  | [] => True
  | v :: rest =>
      (L.malloc v.iovLen = true ∨ v.iovLen = 0#64 ∨ getPhysAddr v.iovBase vm = none) ∧
        (v.OnPages vm → BuffersAllocated L vm rest)

/-- The host has the memory that the call needs. -/
structure VectorsAllocated (L : HostVectors) (vec : U64) (vlen : BitVec 32) (vm : Vm) : Prop where
  stack : L.stack vlen.toNat = true
  buffers : ∀ entries, guestIovecs vec vlen.toNat vm = some entries → BuffersAllocated L vm entries

section Gather

variable {L : HostVectors} {vm : Vm} {fd vlen : BitVec 32} {vec : U64}

theorem VmIovec.onPages_iff (v : VmIovec) :
    v.OnPages vm ↔ (guestBytes vm v.iovLen.toNat v.iovBase).isSome := guestBytes_isSome_iff.symm

/-- A buffer that memory is there for is read as it is in the guest. -/
theorem readBuffer_eq {v : VmIovec}
    (h : L.malloc v.iovLen = true ∨ v.iovLen = 0#64 ∨ getPhysAddr v.iovBase vm = none) :
    readBuffer L v vm = some (some (guestBytes vm v.iovLen.toNat v.iovBase)) := by
  rw [readBuffer]
  by_cases hm : L.malloc v.iovLen = true
  · rw [if_pos hm, readVirtualAddr_eq]
    rfl
  · rw [if_neg hm]
    by_cases hz : v.iovLen = 0#64
    · rw [if_pos hz, hz]
      rfl
    · have hne : v.iovLen.toNat ≠ 0 := fun hc => hz (BitVec.eq_of_toNat_eq hc)
      have habsent := (h.resolve_left hm).resolve_left hz
      rw [if_neg hz, habsent, guestBytes_none hne habsent]

theorem readBuffer_fault {v : VmIovec}
    (h : ¬ (L.malloc v.iovLen = true ∨ v.iovLen = 0#64 ∨ getPhysAddr v.iovBase vm = none)) :
    readBuffer L v vm = some none := by
  rw [not_or, not_or] at h
  obtain ⟨hm, hz, hp⟩ := h
  obtain ⟨p, hp⟩ := Option.ne_none_iff_exists'.mp hp
  rw [readBuffer, if_neg hm, if_neg hz, hp]

/-- All buffers are read, one after the other. -/
theorem gatherLoop_all {entries : List VmIovec} : ∀ vectors, BuffersAllocated L vm entries →
    (∀ v ∈ entries, v.OnPages vm) → ∃ rest, List.Forall₂ (VmIovec.Holds vm) entries rest ∧
      gatherLoop L vm entries vectors = some (.finished 0#64 (vectors ++ rest)) := by
  induction entries with
  | nil =>
      intro vectors _ _
      exact ⟨[], .nil, by rw [gatherLoop, List.append_nil]⟩
  | cons v entries ih =>
      intro vectors halloc hall
      obtain ⟨hmem, hnext⟩ := halloc
      obtain ⟨hv, hrest⟩ := List.forall_mem_cons.mp hall
      obtain ⟨vecbuf, hbuf⟩ := Option.isSome_iff_exists.mp (v.onPages_iff.mp hv)
      obtain ⟨rest, hholds, hrun⟩ := ih (vectors ++ [vecbuf]) (hnext hv) hrest
      refine ⟨vecbuf :: rest, .cons hbuf hholds, ?_⟩
      rw [gatherLoop, readBuffer_eq hmem, hbuf, Option.bind_eq_bind, Option.bind_some]
      simp only
      rw [hrun, List.append_assoc]
      rfl

/-- The loop ends at the first buffer that is not on pages. -/
theorem gatherLoop_efault {entries : List VmIovec} : ∀ vectors, BuffersAllocated L vm entries →
    ¬ (∀ v ∈ entries, v.OnPages vm) →
      ∃ done, gatherLoop L vm entries vectors = some (.finished eFAULT done) := by
  induction entries with
  | nil =>
      intro vectors _ hno
      exact absurd (List.forall_mem_nil _) hno
  | cons v entries ih =>
      intro vectors halloc hno
      obtain ⟨hmem, hnext⟩ := halloc
      rw [gatherLoop, readBuffer_eq hmem, Option.bind_eq_bind, Option.bind_some]
      by_cases hv : v.OnPages vm
      · obtain ⟨vecbuf, hbuf⟩ := Option.isSome_iff_exists.mp (v.onPages_iff.mp hv)
        rw [hbuf]
        apply ih _ (hnext hv)
        intro hrest
        exact hno (List.forall_mem_cons.mpr ⟨hv, hrest⟩)
      · have hnone := Option.not_isSome_iff_eq_none.mp fun hc => hv (v.onPages_iff.mpr hc)
        rw [hnone]
        exact ⟨vectors, rfl⟩

/-- The loop does not survive a buffer that there is no memory for. -/
theorem gatherLoop_fault {entries : List VmIovec} : ∀ vectors, ¬ BuffersAllocated L vm entries →
    gatherLoop L vm entries vectors = some .fault := by
  induction entries with
  | nil =>
      intro vectors hno
      exact absurd trivial hno
  | cons v entries ih =>
      intro vectors hno
      rw [gatherLoop]
      by_cases hmem : L.malloc v.iovLen = true ∨ v.iovLen = 0#64 ∨ getPhysAddr v.iovBase vm = none
      · rw [BuffersAllocated, not_and, Classical.not_imp] at hno
        obtain ⟨hv, hrest⟩ := hno hmem
        obtain ⟨vecbuf, hbuf⟩ := Option.isSome_iff_exists.mp (v.onPages_iff.mp hv)
        rw [readBuffer_eq hmem, hbuf, Option.bind_eq_bind, Option.bind_some]
        exact ih _ hrest
      · rw [readBuffer_fault hmem]
        rfl

theorem toNat_arraySize (h : 0 ≤ vlen.toInt) :
    (vlen.signExtend 64 * BitVec.ofNat 64 sizeofIovec).toNat = vlen.toNat * sizeofIovec := by
  have hlt := vlen.isLt
  have hmsb : vlen.msb = false := by
    rw [BitVec.msb_eq_toInt]
    simpa using h
  rw [BitVec.signExtend_eq_setWidth_of_msb_false hmsb, BitVec.toNat_mul, BitVec.toNat_setWidth,
    BitVec.toNat_ofNat, sizeofIovec]
  omega

/-- The call for an array that fits on the stack. -/
theorem hostWritev_eq (fd : BitVec 32) (vec : U64) (vm : Vm) (h : 0 ≤ vlen.toInt)
    (hstack : L.stack vlen.toNat = true) :
    hostWritev L fd vec vlen vm =
      match guestIovecs vec vlen.toNat vm with
      | none => some (.returned eFAULT [])
      | some entries => (gatherLoop L vm entries []).bind fun gathered =>
          match gathered with
          | .fault => some .fault
          | .finished ret vectors =>
              if isErrValue ret = true then some (.returned ret [])
              else some (.returned (L.writev fd vectors) [(fd, vectors)]) := by
  rw [hostWritev, if_neg (by omega), if_neg (by simp [hstack]), toNat_arraySize h,
    readVirtualAddr_eq, guestIovecs, Option.bind_eq_bind, Option.bind_some]
  cases guestBytes vm (vlen.toNat * sizeofIovec) vec with
  | none => rfl
  | some bytes => rfl

/-- A call that does what it is to do comes back, whether the pages are there or not. -/
theorem GathersVectors.ne_fault (hg : GathersVectors L fd vec vlen vm) :
    hostWritev L fd vec vlen vm ≠ some .fault := by
  intro hfault
  by_cases hpages : VectorsOnPages vec vlen.toNat vm
  · obtain ⟨entries, hentries, hall⟩ := hpages
    obtain ⟨vectors, -, hrun⟩ := hg.once entries hentries hall
    rw [hfault] at hrun
    exact absurd hrun (by simp)
  · rw [hg.efault.mpr hpages] at hfault
    exact absurd hfault (by simp)

/-- **`writev` gathers exactly the guest's buffers** when the host has the memory, and only
then. -/
theorem gathersVectors_iff (L : HostVectors) (fd : BitVec 32) (vec : U64) {vlen : BitVec 32}
    (h : 0 ≤ vlen.toInt) (vm : Vm) :
    GathersVectors L fd vec vlen vm ↔ VectorsAllocated L vec vlen vm := by
  constructor
  · intro hg
    have hreturns := hg.ne_fault
    have hstack : L.stack vlen.toNat = true := by
      apply Bool.not_eq_false _ |>.mp
      intro hno
      exact hreturns (by rw [hostWritev, if_neg (by omega), if_pos hno])
    refine ⟨hstack, fun entries hentries => ?_⟩
    by_contra hno
    apply hreturns
    rw [hostWritev_eq fd vec vm h hstack, hentries]
    simp only
    rw [gatherLoop_fault [] hno, Option.bind_some]
  · intro ha
    have hrun := hostWritev_eq fd vec vm h ha.stack
    have hone : ∀ entries, guestIovecs vec vlen.toNat vm = some entries →
        (∀ v ∈ entries, v.OnPages vm) →
        ∃ vectors, List.Forall₂ (VmIovec.Holds vm) entries vectors ∧
          hostWritev L fd vec vlen vm = some (.returned (L.writev fd vectors) [(fd, vectors)]) := by
      intro entries hentries hall
      obtain ⟨vectors, hholds, hloop⟩ := gatherLoop_all [] (ha.buffers entries hentries) hall
      refine ⟨vectors, hholds, ?_⟩
      rw [hrun, hentries]
      simp only
      rw [hloop, Option.bind_some]
      exact if_neg (by decide)
    refine ⟨⟨fun hfail hpages => ?_, fun hno => ?_⟩, hone⟩
    · obtain ⟨entries, hentries, hall⟩ := hpages
      obtain ⟨vectors, -, hcall⟩ := hone entries hentries hall
      rw [hfail] at hcall
      exact absurd hcall (by simp)
    · rw [hrun]
      cases hentries : guestIovecs vec vlen.toNat vm with
      | none => rfl
      | some entries =>
          have hbad : ¬ ∀ v ∈ entries, v.OnPages vm := fun hall => hno ⟨entries, hentries, hall⟩
          obtain ⟨vectors, hloop⟩ := gatherLoop_efault [] (ha.buffers entries hentries) hbad
          simp only
          rw [hloop, Option.bind_some]
          exact if_pos (by decide)

end Gather

/-! ## A host with memory of the usual size -/

/-- A host with a stack of 8 MiB, where `malloc` has memory for every length but those that
no object has, and `writev` writes everything. -/
def usualHost : HostVectors where
  stack n := decide (n * sizeofIovec ≤ 0x800000)
  malloc n := decide (n.toNat < 2 ^ 63)
  writev _ vectors := BitVec.ofNat 64 vectors.flatten.length

/-- A machine with the pages at `0x1000` and `0x2000` mapped, and an array of three entries at
`0x1000`: four bytes across the end of the first page, none, and `2 ^ 63` bytes. -/
def vectorVm : Vm where
  mem f i :=
    if f = 1 ∧ i = 0#64 then 0x2001#64
    else if f = 2 ∧ i = 0#64 then 0x3001#64
    else if f = 3 ∧ i = 0#64 then 0x4001#64
    else if f = 4 ∧ i = 1#64 then 0x5001#64
    else if f = 4 ∧ i = 2#64 then 0x7001#64
    else if f = 5 ∧ i = 0#64 then 0x1FFE#64
    else if f = 5 ∧ i = 1#64 then 4#64
    else if f = 5 ∧ i = 4#64 then 0x1000#64
    else if f = 5 ∧ i = 5#64 then 0x8000000000000000#64
    else 0#64
  pageCounter := 10
  pml4Addr := 0x1000#64

/-- The first two entries are gathered. -/
theorem gathersVectors_two : GathersVectors usualHost 1#32 0x1000#64 2#32 vectorVm := by
  apply (gathersVectors_iff usualHost 1#32 0x1000#64 (by decide) vectorVm).mpr
  refine ⟨by decide, fun entries hentries => ?_⟩
  have hread : guestIovecs 0x1000#64 2 vectorVm = some [⟨0x1FFE#64, 4#64⟩, ⟨0#64, 0#64⟩] := by
    decide +kernel
  obtain rfl := Option.some.inj (hentries.symm.trans hread)
  exact ⟨Or.inl (by decide), fun _ => ⟨Or.inl (by decide), fun _ => trivial⟩⟩

/-- The third entry is longer than `malloc` has memory for, and its first byte is there: the
call is not refused, and does not come back. -/
theorem longVector_fault : ¬ GathersVectors usualHost 1#32 0x1000#64 3#32 vectorVm := by
  intro h
  exact h.ne_fault (by decide +kernel)

end BufferVM
