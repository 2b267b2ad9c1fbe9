/-
  Kernel/VersionMap.lean --- `set_version` and `get_version` on the bytes in memory,
  `kernel/c/version.c`.

  The versions are bytes of the kernel's address space, so they are reached through the page
  tables, and a page of them that is not there is mapped on the way.  The tables look at 39
  bits of an address, and every one of the 512 entries of the first table leads to the same
  second one.  That is how a tagged pointer reaches its byte, and it drops bit 39 of a pointer
  as well as the eight bits of the tag: the versions of two addresses that are 2^39 apart are
  one byte.
-/
import BufferVM.Kernel.VersionStore
import BufferVM.Vm.OwnCalls

set_option autoImplicit false

namespace BufferVM

namespace VersionMap

variable {σ η : Type} (s : VersionStore σ η)

/-! ## The calls -/

/-- One write of the kernel, with the faults that `VersionStore.storeByte` has for it, and the
byte in memory. -/
def storeByte (a : U64) (b : BitVec 8) : VersionStore σ η :=
  let s := s.storeByte a b
  if s.stopped = true then s
  else match getPhysAddr a s.vm with
    | some p => { s with vm := s.vm.setByte p b }
    | none => s

/-- The loop of `set_version`. -/
def storeBytes (buf : U64) (version : BitVec 8) : Nat → VersionStore σ η
  | 0 => s
  | n + 1 =>
      let s := storeBytes buf version n
      if s.stopped = true then s else storeByte s (byteOffset buf n) version

/-- `set_version`. -/
def setVersion (addr length version : U64) : U64 × VersionStore σ η :=
  (setVersionPtr version addr,
    storeBytes s (s.versionBuf addr) (version.setWidth 8) length.toNat)

/-- One read of the kernel.  A page that is not there is mapped first, as for a write. -/
def loadByte (a : U64) : Option (BitVec 8 × VersionStore σ η) :=
  if s.CanWrite a then some (s.vm.seen a, s)
  else if Canonical a then
    let s := s.handleKernelPageFault a kernelCs
    if s.stopped = false ∧ s.CanWrite a then some (s.vm.seen a, s) else none
  else none

/-- `get_version`. -/
def getVersion (addr : U64) : Option (BitVec 8 × VersionStore σ η) := loadByte s (s.versionBuf addr)

/-! ## One access -/

/-- The machine goes on, with pages of their own. -/
structure Ready (s : VersionStore σ η) : Prop where
  separate : s.vm.Separate
  room : s.vm.pageCounter ≤ physicalHeapPages
  running : s.stopped = false

section

variable {s} {t : VersionStore σ η} {a : U64} {b : BitVec 8}

theorem canWrite_iff : s.CanWrite a ↔ Canonical a ∧ s.vm.readByte a ≠ none := by
  rw [VersionStore.CanWrite, isVpagePresent, Vm.readByte, ne_eq, Option.map_eq_none_iff,
    Option.isSome_iff_ne_none]

/-- The handler takes the next frame. -/
theorem mapStorePage_vm (s : VersionStore σ η) (page : U64) :
    (s.mapStorePage page).vm = mapPhysicalPage page (frameAddr s.vm.pageCounter)
      (pde64NoExe ||| pde64Writeable) false
      { s.vm with pageCounter := s.vm.pageCounter + 1 } := by
  have hne := frameAddr_ne_neg_one s.vm.pageCounter
  have heach : ¬ (mapZeroPages &&& mapContinuous ≠ 0#64 ∨ (-1#64 : U64) ≠ -1#64) := by decide
  simp only [VersionStore.mapStorePage, mapPhysicalPages, if_neg heach]
  show (mapEach _ _ 1 page (-1#64) s.vm).2 = _
  rw [mapEach]
  simp only [allocatePages_of_ne (show (1#64 : U64) ≠ 0#64 by decide), if_neg hne]
  rfl

/-- The handler maps a page of zeros. -/
theorem Ready.mapStorePage (h : Ready s) (hnone : s.vm.readByte a = none)
    (hrun : (s.mapStorePage (pageAlignDown a)).stopped = false) :
    Ready (s.mapStorePage (pageAlignDown a)) ∧
      (s.mapStorePage (pageAlignDown a)).vm.readByte a = some 0#8 ∧
      ∀ c, (s.mapStorePage (pageAlignDown a)).vm.seen c = s.vm.seen c ∧
        (s.vm.readByte c ≠ none →
          (s.mapStorePage (pageAlignDown a)).vm.readByte c = s.vm.readByte c) := by
  have hnum : pageNumber a = pageNumber (pageAlignDown a) := by
    rw [pageNumber, pageNumber, toNat_pageAlignDown]
    omega
  have hpte : s.vm.pte (pageAlignDown a) = none := by
    rw [Vm.readByte, getPhysAddr_eq h.separate.paged, Option.map_map,
      Option.map_eq_none_iff] at hnone
    rw [← hnone]
    exact Vm.pte_congr hnum.symm
  have hroom : (s.mapStorePage (pageAlignDown a)).vm.pageCounter ≤ physicalHeapPages :=
    Nat.not_lt.mp (of_decide_eq_false hrun)
  have hmax : physicalHeapPages ≤ maxFrames := by decide
  have hflags : (pde64NoExe ||| pde64Writeable) &&& ~~~flagBits = 0#64 := by decide
  obtain ⟨hsep, hzero, hother⟩ := h.separate.mapPage hflags (mapStorePage_vm s _)
    (hroom.trans hmax)
  refine ⟨⟨hsep, hroom, hrun⟩, hzero a hnum, fun c => ?_⟩
  by_cases hc : pageNumber c = pageNumber (pageAlignDown a)
  · have habsent : s.vm.readByte c = none := by
      rw [Vm.readByte, getPhysAddr_eq h.separate.paged, Vm.pte_congr hc, hpte]
      rfl
    rw [Vm.seen, Vm.seen, hzero c hc, habsent]
    exact ⟨rfl, fun hne => absurd rfl hne⟩
  · rw [Vm.seen, Vm.seen, hother c hc]
    exact ⟨rfl, fun _ => rfl⟩

/-- `t` is `s` with some more pages, all of zeros. -/
structure Faulted (s t : VersionStore σ η) : Prop where
  ready : Ready t
  start : t.userVersionStart = s.userVersionStart
  limit : t.userVersionEnd = s.userVersionEnd
  seen : ∀ c, t.vm.seen c = s.vm.seen c
  keeps : ∀ c, s.vm.readByte c ≠ none → t.vm.readByte c = s.vm.readByte c

theorem Ready.faulted (h : Ready s) : Faulted s s := ⟨h, rfl, rfl, fun _ => rfl, fun _ _ => rfl⟩

/-- A fault that is served. -/
theorem Ready.fault (h : Ready s) (hcanon : Canonical a) (hnot : ¬ s.CanWrite a)
    (hrun : (s.handleKernelPageFault a kernelCs).stopped = false) :
    Faulted s (s.handleKernelPageFault a kernelCs) ∧
      (s.handleKernelPageFault a kernelCs).CanWrite a := by
  have hnone : s.vm.readByte a = none := by
    by_contra hne
    exact hnot (canWrite_iff.mpr ⟨hcanon, hne⟩)
  rw [VersionStore.handleKernelPageFault_eq] at hrun ⊢
  split at hrun
  · rename_i hserved
    rw [if_pos hserved]
    obtain ⟨hready, hzero, hkeeps⟩ := h.mapStorePage hnone hrun
    refine ⟨⟨hready, rfl, rfl, fun c => (hkeeps c).1, fun c => (hkeeps c).2⟩, canWrite_iff.mpr
      ⟨hcanon, ?_⟩⟩
    rw [hzero]
    exact Option.some_ne_none _
  · exact absurd hrun (by simp [VersionStore.stop])

theorem storeByte_of_writeByte {u : VersionStore σ η} {p : U64}
    (heq : s.storeByte a b = u.writeByte a b) (hrun : u.stopped = false)
    (hp : getPhysAddr a u.vm = some p) :
    storeByte s a b = { u.writeByte a b with vm := u.vm.setByte p b } := by
  have hgoes : (u.writeByte a b).stopped = false := hrun
  have hp' : getPhysAddr a (u.writeByte a b).vm = some p := hp
  rw [storeByte, heq]
  simp only [hgoes, Bool.false_eq_true, if_false, hp']
  rfl

/-- **A write that comes back** has been made on a page that is there now. -/
theorem Ready.storeByte_eq (h : Ready s) (hrun : (storeByte s a b).stopped = false) :
    ∃ u p, Faulted s u ∧ Canonical a ∧ getPhysAddr a u.vm = some p ∧
      storeByte s a b = { u.writeByte a b with vm := u.vm.setByte p b } := by
  have hwrite : ∀ u : VersionStore σ η, Faulted s u → u.CanWrite a →
      s.storeByte a b = u.writeByte a b → ∃ u p, Faulted s u ∧ Canonical a ∧
        getPhysAddr a u.vm = some p ∧
        storeByte s a b = { u.writeByte a b with vm := u.vm.setByte p b } := by
    intro u hu hcan heq
    obtain ⟨p, hp⟩ := Option.isSome_iff_exists.mp hcan.2
    exact ⟨u, p, hu, hcan.1, hp, storeByte_of_writeByte heq hu.ready.running hp⟩
  by_cases hcan : s.CanWrite a
  · refine hwrite s h.faulted hcan ?_
    rw [VersionStore.storeByte, if_pos hcan]
  · by_cases hcanon : Canonical a
    · by_cases hgo : (s.handleKernelPageFault a kernelCs).stopped = false ∧
          (s.handleKernelPageFault a kernelCs).CanWrite a
      · obtain ⟨hfault, hcan'⟩ := h.fault hcanon hcan hgo.1
        refine hwrite _ hfault hcan' ?_
        rw [VersionStore.storeByte, if_neg hcan, if_pos hcanon]
        exact if_pos hgo
      · have hstop : s.storeByte a b = (s.handleKernelPageFault a kernelCs).stop := by
          rw [VersionStore.storeByte, if_neg hcan, if_pos hcanon]
          exact if_neg hgo
        rw [storeByte, hstop] at hrun
        exact absurd hrun (by simp [VersionStore.stop])
    · have hstop : s.storeByte a b = s.stop := by
        rw [VersionStore.storeByte, if_neg hcan, if_neg hcanon]
      rw [storeByte, hstop] at hrun
      exact absurd hrun (by simp [VersionStore.stop])

/-- A read yields what is seen at the address. -/
theorem Ready.loadByte_eq (h : Ready s) {x : BitVec 8} (hrun : loadByte s a = some (x, t)) :
    x = s.vm.seen a ∧ Faulted s t := by
  rw [loadByte] at hrun
  split at hrun
  · obtain ⟨rfl, rfl⟩ := Prod.mk.inj (Option.some.inj hrun)
    exact ⟨rfl, h.faulted⟩
  · rename_i hcan
    split at hrun
    · rename_i hcanon
      simp only at hrun
      split at hrun
      · rename_i hgo
        obtain ⟨hfault, -⟩ := h.fault hcanon hcan hgo.1
        obtain ⟨rfl, rfl⟩ := Prod.mk.inj (Option.some.inj hrun)
        exact ⟨hfault.seen a, hfault⟩
      · exact absurd hrun (by simp)
    · exact absurd hrun (by simp)

/-! ## The loop -/

/-- What a run of writes of `b` at the addresses `as` has left: they are there and read `b`, and
so do the addresses that the tables do not tell apart from one of them; everything else
reads as before. -/
structure Filled (s : VersionStore σ η) (As : U64 → Prop) (b : BitVec 8) (t : VersionStore σ η) :
    Prop where
  ready : Ready t
  start : t.userVersionStart = s.userVersionStart
  limit : t.userVersionEnd = s.userVersionEnd
  inside : ∀ a, As a → ∀ c, SameByte c a → t.vm.readByte c = some b
  outside : ∀ c, (∀ a, As a → ¬ SameByte c a) → t.vm.seen c = s.vm.seen c ∧
    (s.vm.readByte c ≠ none → t.vm.readByte c = s.vm.readByte c)

theorem Filled.bounds {As : U64 → Prop} (h : Filled s As b t) (hs : s.Bounds) : t.Bounds :=
  ⟨h.limit ▸ hs.limit, h.limit ▸ hs.whole, h.limit ▸ h.start ▸ hs.start, h.start ▸ hs.startWhole⟩

/-- One write more. -/
theorem Filled.storeByte {As : U64 → Prop} (h : Filled s As b t)
    (hrun : (storeByte t a b).stopped = false) :
    Filled s (fun c => As c ∨ c = a) b (storeByte t a b) := by
  obtain ⟨u, p, hu, -, hp, heq⟩ := h.ready.storeByte_eq hrun
  have hread := hu.ready.separate.readByte_setByte hp b
  have hseen : ∀ c, ¬ SameByte c a → (u.vm.setByte p b).seen c = t.vm.seen c := by
    intro c hc
    rw [Vm.seen, hread, if_neg hc]
    exact hu.seen c
  rw [heq]
  refine ⟨⟨hu.ready.separate.setByte hp b, hu.ready.room, hu.ready.running⟩, hu.start.trans h.start,
    hu.limit.trans h.limit, ?_, fun c hc => ⟨?_, fun hne => ?_⟩⟩
  · rintro d (hd | rfl) c hc
    · show (u.vm.setByte p b).readByte c = some b
      rw [hread]
      split
      · rfl
      · have hthere := h.inside d hd c hc
        rw [hu.keeps c (by rw [hthere]; exact Option.some_ne_none b), hthere]
    · show (u.vm.setByte p b).readByte c = some b
      rw [hread, if_pos hc]
  · exact (hseen c (hc a (Or.inr rfl))).trans (h.outside c fun d hd => hc d (Or.inl hd)).1
  · have hold := (h.outside c fun d hd => hc d (Or.inl hd)).2 hne
    show (u.vm.setByte p b).readByte c = s.vm.readByte c
    rw [hread, if_neg (hc a (Or.inr rfl)), hu.keeps c (hold ▸ hne), hold]

theorem stopped_storeBytes_succ {buf : U64} {n : Nat}
    (hrun : (storeBytes s buf b (n + 1)).stopped = false) :
    (storeBytes s buf b n).stopped = false ∧
      storeBytes s buf b (n + 1) = storeByte (storeBytes s buf b n) (byteOffset buf n) b := by
  rw [storeBytes] at hrun ⊢
  cases hstop : (storeBytes s buf b n).stopped with
  | true =>
      simp only [hstop, if_true] at hrun
      exact absurd hrun (by simp)
  | false => exact ⟨rfl, by simp only [Bool.false_eq_true, if_false]⟩

/-- The whole loop. -/
theorem Ready.storeBytes (h : Ready s) {buf : U64} {n : Nat}
    (hrun : (storeBytes s buf b n).stopped = false) :
    Filled s (fun a => ∃ i, i < n ∧ a = byteOffset buf i) b (storeBytes s buf b n) := by
  induction n with
  | zero =>
      refine ⟨h, rfl, rfl, ?_, fun c _ => ⟨rfl, fun _ => rfl⟩⟩
      rintro a ⟨i, hi, -⟩
      exact absurd hi (Nat.not_lt_zero i)
  | succ n ih =>
      obtain ⟨hprev, heq⟩ := stopped_storeBytes_succ hrun
      rw [heq] at hrun ⊢
      have hnext := (ih hprev).storeByte hrun
      refine ⟨hnext.ready, hnext.start, hnext.limit, ?_, fun c hc => hnext.outside c ?_⟩
      · rintro a ⟨i, hi, rfl⟩
        refine hnext.inside _ ?_
        rcases Nat.lt_succ_iff_lt_or_eq.mp hi with hlt | rfl
        · exact Or.inl ⟨i, hlt, rfl⟩
        · exact Or.inr rfl
      · rintro a (⟨i, hi, rfl⟩ | rfl)
        · exact hc _ ⟨i, Nat.lt_succ_of_lt hi, rfl⟩
        · exact hc _ ⟨n, Nat.lt_succ_self n, rfl⟩

theorem Ready.setVersion (h : Ready s) {p n v : U64}
    (hback : (setVersion s p n v).2.stopped = false) :
    Filled s (fun a => ∃ i, i < n.toNat ∧ a = byteOffset (s.versionBuf p) i) (v.setWidth 8)
      (setVersion s p n v).2 := h.storeBytes hback

/-! ## The writes as they are recorded -/

/-- `u` has the same pages as `t`, and the same has been written and mapped, whatever the bytes
are. -/
structure Alike (t u : VersionStore σ η) : Prop where
  paged : u.vm.Paged
  start : u.userVersionStart = t.userVersionStart
  limit : u.userVersionEnd = t.userVersionEnd
  wrote : u.wrote = t.wrote
  mapped : u.mapped = t.mapped
  stopped : u.stopped = t.stopped
  counter : u.vm.pageCounter = t.vm.pageCounter
  present : ∀ v, u.vm.pte v = none ↔ t.vm.pte v = none
  tables : ∀ q : List U64, q.length < 3 → (u.vm.tableAt q = none ↔ t.vm.tableAt q = none)

section Alike

variable {u : VersionStore σ η}

theorem Alike.canWrite (h : Alike t u) (ht : t.vm.Paged) : u.CanWrite a ↔ t.CanWrite a := by
  have hsome : isVpagePresent a u.vm = isVpagePresent a t.vm := by
    rw [isVpagePresent, isVpagePresent, getPhysAddr_eq h.paged, getPhysAddr_eq ht,
      Option.isSome_map, Option.isSome_map, Bool.eq_iff_iff, Option.isSome_iff_ne_none,
      Option.isSome_iff_ne_none, not_iff_not]
    exact h.present a
  rw [VersionStore.CanWrite, VersionStore.CanWrite, hsome]

theorem Alike.stop (h : Alike t u) : Alike t.stop u.stop :=
  ⟨h.paged, h.start, h.limit, h.wrote, h.mapped, rfl, h.counter, h.present, h.tables⟩

/-- A page takes the same of both. -/
theorem Alike.mapStorePage (h : Alike t u) (ht : Ready t) (page : U64) :
    Alike (t.mapStorePage page) (u.mapStorePage page) := by
  have hroom : u.vm.pageCounter ≤ physicalHeapPages := h.counter ▸ ht.room
  obtain ⟨p, hp⟩ := VersionStore.mapStorePage_updates ht.separate.paged ht.room page
  obtain ⟨q, hq⟩ := VersionStore.mapStorePage_updates h.paged hroom page
  have hlen : ∀ x ∈ tablePaths page, x.length < 3 := fun x hx => length_of_mem_tablePaths hx
  have hmissing : u.vm.missing (tablePaths page) = t.vm.missing (tablePaths page) :=
    Finset.filter_congr fun x hx => h.tables x (hlen x hx)
  have hcounter : (u.mapStorePage page).vm.pageCounter = (t.mapStorePage page).vm.pageCounter := by
    rw [hp.counter, hq.counter, h.counter, hmissing]
  refine ⟨hq.paged, h.start, h.limit, h.wrote, congrArg (page :: ·) h.mapped, ?_, hcounter,
    fun v => ?_, fun x hx => ?_⟩
  · show decide (_ < (u.mapStorePage page).vm.pageCounter) = decide (_ < _)
    rw [hcounter]
    rfl
  · rw [hp.pte, hq.pte]
    simp only [updatedEntry, List.foldl_cons, List.foldl_nil]
    split
    · exact iff_of_false (by simp [mapUpdate]) (by simp [mapUpdate])
    · exact h.present v
  · rw [hp.absent x hx, hq.absent x hx, h.tables x hx]

theorem Alike.fault (h : Alike t u) (ht : Ready t) (a : U64) :
    Alike (t.handleKernelPageFault a kernelCs) (u.handleKernelPageFault a kernelCs) := by
  rw [VersionStore.handleKernelPageFault_eq, VersionStore.handleKernelPageFault_eq, h.start,
    h.limit]
  split
  · exact h.mapStorePage ht _
  · exact h.stop

/-- The byte itself changes no page. -/
theorem Alike.writeByte (h : Alike t u) (ht : t.vm.Separate) {p : U64}
    (hp : getPhysAddr a t.vm = some p) (b : BitVec 8) :
    Alike { t.writeByte a b with vm := t.vm.setByte p b } (u.writeByte a b) := by
  have hs := ht.sameTables_setByte hp b
  refine ⟨h.paged, h.start, h.limit, congrArg ((a, b) :: ·) h.wrote, h.mapped, h.stopped,
    h.counter, fun v => ?_, fun q hq => ?_⟩
  · exact (h.present v).trans (by rw [hs.pte])
  · exact (h.tables q hq).trans (by rw [hs.tableAt q hq])

/-- One write more. -/
theorem Alike.storeByte (h : Alike t u) (ht : Ready t) (a : U64) (b : BitVec 8) :
    Alike (storeByte t a b) (u.storeByte a b) := by
  have hwrite : ∀ v w : VersionStore σ η, Alike v w → Ready v → v.CanWrite a →
      t.storeByte a b = v.writeByte a b → Alike (VersionMap.storeByte t a b) (w.writeByte a b) := by
    intro v w hvw hv hcan heq
    obtain ⟨p, hp⟩ := Option.isSome_iff_exists.mp hcan.2
    rw [VersionMap.storeByte_of_writeByte heq hv.running hp]
    exact hvw.writeByte hv.separate hp b
  have hends : ∀ v w : VersionStore σ η, Alike v w → t.storeByte a b = v.stop →
      Alike (VersionMap.storeByte t a b) w.stop := by
    intro v w hvw heq
    rw [VersionMap.storeByte, heq]
    exact hvw.stop
  by_cases hcan : t.CanWrite a
  · rw [show u.storeByte a b = _ from if_pos ((h.canWrite ht.separate.paged).mpr hcan)]
    exact hwrite t u h ht hcan (if_pos hcan)
  · have hnot : ¬ u.CanWrite a := fun hc => hcan ((h.canWrite ht.separate.paged).mp hc)
    by_cases hcanon : Canonical a
    · have hfault := h.fault ht a
      by_cases hgo : (t.handleKernelPageFault a kernelCs).stopped = false ∧
          (t.handleKernelPageFault a kernelCs).CanWrite a
      · obtain ⟨hserved, hthere⟩ := ht.fault hcanon hcan hgo.1
        have hgo' : (u.handleKernelPageFault a kernelCs).stopped = false ∧
            (u.handleKernelPageFault a kernelCs).CanWrite a :=
          ⟨hfault.stopped.trans hgo.1, (hfault.canWrite hserved.ready.separate.paged).mpr hthere⟩
        rw [show u.storeByte a b = (u.handleKernelPageFault a kernelCs).writeByte a b by
          rw [VersionStore.storeByte, if_neg hnot, if_pos hcanon]; exact if_pos hgo']
        refine hwrite _ _ hfault hserved.ready hthere ?_
        rw [VersionStore.storeByte, if_neg hcan, if_pos hcanon]
        exact if_pos hgo
      · have hstop : ¬ (t.handleKernelPageFault a kernelCs).stopped = false := fun hc =>
          hgo ⟨hc, (ht.fault hcanon hcan hc).2⟩
        have hgo' : ¬ ((u.handleKernelPageFault a kernelCs).stopped = false ∧
            (u.handleKernelPageFault a kernelCs).CanWrite a) := fun hc =>
          hstop (hfault.stopped.symm.trans hc.1)
        rw [show u.storeByte a b = (u.handleKernelPageFault a kernelCs).stop by
          rw [VersionStore.storeByte, if_neg hnot, if_pos hcanon]; exact if_neg hgo']
        refine hends _ _ hfault ?_
        rw [VersionStore.storeByte, if_neg hcan, if_pos hcanon]
        exact if_neg hgo
    · rw [show u.storeByte a b = u.stop by rw [VersionStore.storeByte, if_neg hnot, if_neg hcanon]]
      refine hends t u h ?_
      rw [VersionStore.storeByte, if_neg hcan, if_neg hcanon]

/-- What is recorded of the whole loop is what the bytes in memory have taken. -/
theorem Ready.alike_storeBytes (h : Ready s) (buf : U64) (b : BitVec 8) (n : Nat) :
    Alike (VersionMap.storeBytes s buf b n) (s.storeBytes buf b n) := by
  induction n with
  | zero =>
      exact ⟨h.separate.paged, rfl, rfl, rfl, rfl, rfl, rfl, fun _ => Iff.rfl, fun _ _ => Iff.rfl⟩
  | succ n ih =>
      rw [VersionMap.storeBytes, VersionStore.storeBytes]
      simp only [ih.stopped]
      split
      · exact ih
      · rename_i hgoes
        exact ih.storeByte (h.storeBytes (by simpa using hgoes)).ready _ b

end Alike

/-! ## The version store as a map -/

/-- The pointer leads to one of the bytes of a range, as far as the tables look. -/
def Covers (p length r : U64) : Prop :=
  ∃ i, i < length.toNat ∧
    SameByte (normaliseVersionPtr r) (byteOffset (normaliseVersionPtr p) i)

/-- A byte of the store that leads there is one of those written, and no other. -/
theorem covers_iff (hs : s.Bounds) {p length r : U64} (hp : p.toNat < 2 ^ 48)
    (hr : r.toNat < 2 ^ 48) :
    Covers p length r ↔ ∃ a, (∃ i, i < length.toNat ∧ a = byteOffset (s.versionBuf p) i) ∧
      SameByte (s.versionBuf r) a := by
  have hstart := hs.start
  have hlimit := hs.limit
  have hp' := VersionCheck.toNat_normaliseVersionPtr hp
  have hr' := VersionCheck.toNat_normaliseVersionPtr hr
  have hbuf : ∀ i, i < length.toNat → (SameByte (normaliseVersionPtr r)
      (byteOffset (normaliseVersionPtr p) i) ↔
      SameByte (s.versionBuf r) (byteOffset (s.versionBuf p) i)) := by
    intro i hi
    rw [SameByte, SameByte, byteOffset, byteOffset, VersionStore.versionBuf,
      VersionStore.versionBuf, BitVec.toNat_add, BitVec.toNat_add, BitVec.toNat_add,
      BitVec.toNat_add, BitVec.toNat_ofNat]
    omega
  constructor
  · rintro ⟨i, hi, hsame⟩
    exact ⟨_, ⟨i, hi, rfl⟩, (hbuf i hi).mp hsame⟩
  · rintro ⟨a, ⟨i, hi, rfl⟩, hsame⟩
    exact ⟨i, hi, (hbuf i hi).mpr hsame⟩

/-- Below `2 ^ 39` these are the pointers into the range. -/
theorem covers_iff_mem {p length r : U64}
    (hfit : (normaliseVersionPtr p).toNat + length.toNat ≤ 2 ^ 39)
    (hlow : (normaliseVersionPtr r).toNat < 2 ^ 39) :
    Covers p length r ↔ (normaliseVersionPtr p).toNat ≤ (normaliseVersionPtr r).toNat ∧
      (normaliseVersionPtr r).toNat < (normaliseVersionPtr p).toNat + length.toNat := by
  have hoff : ∀ i, i < length.toNat → (SameByte (normaliseVersionPtr r)
      (byteOffset (normaliseVersionPtr p) i) ↔
      (normaliseVersionPtr r).toNat = (normaliseVersionPtr p).toNat + i) := by
    intro i hi
    rw [SameByte, VersionStore.toNat_byteOffset _ _ (by omega)]
    omega
  constructor
  · rintro ⟨i, hi, hsame⟩
    have heq := (hoff i hi).mp hsame
    omega
  · rintro ⟨hle, hlt⟩
    refine ⟨(normaliseVersionPtr r).toNat - (normaliseVersionPtr p).toNat, by omega, ?_⟩
    rw [hoff _ (by omega)]
    omega

theorem canonical_versionBuf (hs : s.Bounds) {r : U64} (hr : r.toNat < 2 ^ 48) :
    Canonical (s.versionBuf r) := by
  have hstart := hs.start
  have hlimit := hs.limit
  have hr' := VersionCheck.toNat_normaliseVersionPtr hr
  left
  rw [VersionStore.versionBuf, BitVec.toNat_add]
  omega

theorem getVersion_of_readByte {r : U64} (hcanon : Canonical (s.versionBuf r))
    {x : BitVec 8} (hread : s.vm.readByte (s.versionBuf r) = some x) :
    getVersion s r = some (x, s) := by
  have hcan : s.CanWrite (s.versionBuf r) :=
    canWrite_iff.mpr ⟨hcanon, hread ▸ Option.some_ne_none x⟩
  rw [getVersion, loadByte, if_pos hcan, Vm.seen, hread]
  rfl

/-- What the check of an access reads: the bytes in memory. -/
def check (s : VersionStore σ η) (xedDecode : U64 → Option U64) : VersionCheck :=
  { vm := s.vm
    userVersionStart := s.userVersionStart
    byteAt := s.vm.seen
    xedDecode := xedDecode }

/-- The check looks at the versions that `get_version` yields. -/
theorem Ready.getVersion_check (h : Ready s) {r : U64} {x : BitVec 8}
    (hget : getVersion s r = some (x, t)) (xedDecode : U64 → Option U64) :
    (check s xedDecode).getVersion r = x := (h.loadByte_eq hget).1.symm

/-- **The version store is a map from bytes to versions**, whatever tags the pointers have, as
far as the tables look at an address: when `set_version` comes back, `get_version` yields the
new version for the pointers whose lower 39 bits lead into its range, and for every other
pointer what it would have yielded before, at once if the page was there; and the pointer
that is returned leads to the same byte and has the version. -/
theorem setVersion_versionMap (hs : s.Bounds) (h : Ready s) (p n v : U64)
    (hp : p.toNat < 2 ^ 48) (hback : (setVersion s p n v).2.stopped = false) :
    (∀ r : U64, r.toNat < 2 ^ 48 →
      (Covers p n r →
        getVersion (setVersion s p n v).2 r = some (v.setWidth 8, (setVersion s p n v).2)) ∧
      (¬ Covers p n r → ∀ x t, getVersion s r = some (x, t) →
        (isVpagePresent (s.versionBuf r) s.vm = true →
          getVersion (setVersion s p n v).2 r = some (x, (setVersion s p n v).2)) ∧
        ∀ y u, getVersion (setVersion s p n v).2 r = some (y, u) → y = x)) ∧
    normaliseVersionPtr (setVersion s p n v).1 = normaliseVersionPtr p ∧
    (getVersionPtr (setVersion s p n v).1).toNat = v.toNat % 256 := by
  have hfilled := h.setVersion hback
  generalize (setVersion s p n v).2 = u at *
  have hbuf : ∀ r, u.versionBuf r = s.versionBuf r := by
    intro r
    rw [VersionStore.versionBuf, VersionStore.versionBuf, hfilled.start]
  refine ⟨fun r hr => ⟨fun hin => ?_, fun hout x t hx => ?_⟩,
    VersionCheck.normaliseVersionPtr_setVersionPtr hp v,
    VersionCheck.toNat_getVersionPtr_setVersionPtr hp v⟩
  · obtain ⟨a, ha, hsame⟩ := (covers_iff hs hp hr).mp hin
    have hcanon := canonical_versionBuf hs hr
    rw [← hbuf] at hcanon hsame
    exact getVersion_of_readByte hcanon (hfilled.inside a ha _ hsame)
  · have hapart : ∀ a, (∃ i, i < n.toNat ∧ a = byteOffset (s.versionBuf p) i) →
        ¬ SameByte (s.versionBuf r) a := fun a ha hsame =>
      hout ((covers_iff hs hp hr).mpr ⟨a, ha, hsame⟩)
    obtain ⟨hseen, hkeeps⟩ := hfilled.outside _ hapart
    obtain ⟨rfl, -⟩ := h.loadByte_eq hx
    refine ⟨fun hthere => ?_, fun y w hy => ?_⟩
    · obtain ⟨q, hq⟩ := Option.isSome_iff_exists.mp hthere
      have hread : s.vm.readByte (s.versionBuf r) = some (s.vm.seen (s.versionBuf r)) := by
        rw [Vm.seen, Vm.readByte, hq]
        rfl
      have hcanon := canonical_versionBuf hs hr
      have hstays := (hkeeps (by rw [hread]; exact Option.some_ne_none _)).trans hread
      rw [← hbuf] at hcanon
      exact getVersion_of_readByte hcanon (hbuf r ▸ hstays)
    · rw [(hfilled.ready.loadByte_eq hy).1, hbuf, hseen]

/-- In the store it comes back as long as there is room for its pages. -/
theorem setVersion_back {kernelMinAddress : U64} (hs : s.Laid kernelMinAddress) (h : Ready s)
    {p n : U64} (hin : s.InStore (s.versionBuf p))
    (hn : (s.versionBuf p).toNat + n.toNat ≤ s.userVersionEnd.toNat)
    (hroom : s.HasRoom (s.versionBuf p)) (v : U64) : (setVersion s p n v).2.stopped = false := by
  have hserves := (hs.storeBytes hin (v.setWidth 8) n.toNat hn).1
  have halike := h.alike_storeBytes (s.versionBuf p) (v.setWidth 8) n.toNat
  have hneeds := hserves.needs
  rw [VersionStore.HasRoom] at hroom
  exact halike.stopped.symm.trans (hserves.room.mpr (by omega))

end

end VersionMap

open VersionMap

theorem ready_storeMachine : Ready storeMachine := by
  have hvm : storeMachine.vm = buildPageTables blankVm := by simp only [storeMachine]
  refine ⟨?_, laid_storeMachine.room, laid_storeMachine.stopped⟩
  rw [hvm]
  exact initial_blankVm.built.separate

/-- A page of a user whose bytes have version 3. -/
def thirdMachine : VersionStore (Nat × List Ptr) Unit :=
  (setVersion storeMachine 0x1000#64 0x20#64 3#64).2

theorem thirdMachine_filled : Ready thirdMachine ∧ thirdMachine.Bounds := by
  have hback : (setVersion storeMachine 0x1000#64 0x20#64 3#64).2.stopped = false := by
    decide +kernel
  have hfilled := ready_storeMachine.setVersion hback
  rw [thirdMachine]
  exact ⟨hfilled.ready, hfilled.bounds laid_storeMachine.bounds⟩

/-- Four of the bytes get version 7, whatever tags the pointers have, and the next one keeps
its version. -/
theorem setVersion_versionMap_tags :
    (getVersion (setVersion thirdMachine (fifthPtr 0x1010#64) 4#64 0x107#64).2
        (setVersionPtr 9#64 0x1012#64)).map Prod.fst = some 7#8 ∧
      ∀ y u, getVersion (setVersion thirdMachine (fifthPtr 0x1010#64) 4#64 0x107#64).2
        (setVersionPtr 9#64 0x1014#64) = some (y, u) → y = 3#8 := by
  obtain ⟨hready, hbounds⟩ := thirdMachine_filled
  have hback : (setVersion thirdMachine (fifthPtr 0x1010#64) 4#64 0x107#64).2.stopped = false := by
    decide +kernel
  have hmap := (setVersion_versionMap hbounds hready (fifthPtr 0x1010#64) 4#64 0x107#64 (by decide)
    hback).1
  constructor
  · rw [(hmap (setVersionPtr 9#64 0x1012#64) (by decide)).1 ⟨2, by decide, by decide⟩]
    rfl
  · have hold : (getVersion thirdMachine (setVersionPtr 9#64 0x1014#64)).map Prod.fst =
        some 3#8 := by
      decide +kernel
    obtain ⟨⟨x, t⟩, hx, hx3⟩ := Option.map_eq_some_iff.mp hold
    have hout : ¬ Covers (fifthPtr 0x1010#64) 4#64 (setVersionPtr 9#64 0x1014#64) := by
      rw [covers_iff_mem (by decide) (by decide)]
      decide
    intro y u hy
    exact (((hmap (setVersionPtr 9#64 0x1014#64) (by decide)).2 hout x t hx).2 y u hy).trans hx3

/-- The version of the byte at `0x1000` is that of the byte at `0x8000001000` as well. -/
theorem setVersion_aliased :
    Ready thirdMachine ∧ thirdMachine.Bounds ∧
      ¬ ((normaliseVersionPtr 0x1000#64).toNat ≤ (normaliseVersionPtr 0x8000001000#64).toNat ∧
        (normaliseVersionPtr 0x8000001000#64).toNat < (normaliseVersionPtr 0x1000#64).toNat + 1) ∧
      (setVersion thirdMachine 0x1000#64 1#64 7#64).2.stopped = false ∧
      (getVersion thirdMachine 0x8000001000#64).map Prod.fst = some 3#8 ∧
      (getVersion (setVersion thirdMachine 0x1000#64 1#64 7#64).2 0x8000001000#64).map Prod.fst =
        some 7#8 :=
  ⟨thirdMachine_filled.1, thirdMachine_filled.2, by decide, by decide +kernel, by decide +kernel,
    by decide +kernel⟩

end BufferVM
