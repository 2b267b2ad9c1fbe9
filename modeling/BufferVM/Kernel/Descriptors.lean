/-
  Kernel/Descriptors.lean --- who owns a duplicated descriptor.

  `syscall_mmap` duplicates the descriptor it is given, and `vma_split` the one of the VMA
  it splits; `vma_remove` closes.  The books are balanced when the descriptors that the
  kernel has duplicated and not closed are, each once, those of the VMAs.  A mapping that
  fails after the duplication, or that is merged into a VMA that has a descriptor already,
  leaves one that no VMA owns.
-/
import BufferVM.Kernel.Joins
import BufferVM.Kernel.UserSpace
import Mathlib.Algebra.Group.Nat.Even

set_option autoImplicit false

namespace BufferVM

variable {σ η : Type} {s t : St σ η} {E : Env σ η} {F : E.toNodeHeap.Fresh} {A B : Space σ η}

/-! ## Descriptors -/

/-- The descriptors that the kernel has duplicated and not closed, and what the host calls
do to them.  As long as there is room in the table `kernel_dup` returns a fresh one; it
fails on `-1`. -/
structure Descriptors (E : Env σ η) where
  opened : η → BitVec 32 → Prop
  opened_ne : ∀ h d, opened h d → d ≠ noFd
  /-- A number of descriptors that can certainly still be made. -/
  room : η → Nat
  dup_file : ∀ h fd, fd ≠ noFd → 0 < room h → (E.dup h fd).2 ≠ noFd ∧
    ¬ opened h (E.dup h fd).2 ∧ (∀ d, opened (E.dup h fd).1 d ↔ d = (E.dup h fd).2 ∨ opened h d) ∧
    room h ≤ room (E.dup h fd).1 + 1
  dup_none : ∀ h, (E.dup h noFd).2 = noFd ∧ (∀ d, opened (E.dup h noFd).1 d ↔ opened h d) ∧
    room h ≤ room (E.dup h noFd).1
  close : ∀ h fd, (∀ d, opened (E.close h fd) d ↔ opened h d ∧ d ≠ fd) ∧
    room h ≤ room (E.close h fd)
  fstat : ∀ h fd, (∀ d, opened (E.fstat h fd).1 d ↔ opened h d) ∧ room h ≤ room (E.fstat h fd).1
  map : ∀ h r, (∀ d, opened (E.mapVma h r).1 d ↔ opened h d) ∧ room h ≤ room (E.mapVma h r).1
  unmap : ∀ h r, (∀ d, opened (E.unmapVma h r) d ↔ opened h d) ∧ room h ≤ room (E.unmapVma h r)

/-- The descriptors of a list of areas. -/
def fdsOf (l : List Area) : List (BitVec 32) :=
  (l.map fun x => x.2.fileInfo.fd).filter fun fd => decide (fd ≠ noFd)

@[simp] theorem fdsOf_append (l l' : List Area) : fdsOf (l ++ l') = fdsOf l ++ fdsOf l' := by
  simp [fdsOf]

theorem fdsOf_cons (x : Area) (l : List Area) :
    fdsOf (x :: l) = fdsOf [x] ++ fdsOf l := fdsOf_append [x] l

theorem fdsOf_singleton (x : Area) :
    fdsOf [x] = if x.2.fileInfo.fd = noFd then [] else [x.2.fileInfo.fd] := by
  by_cases h : x.2.fileInfo.fd = noFd <;> simp [fdsOf, h]

/-- An area that is rewritten keeps its descriptor. -/
theorem fdsOf_regrow (E : Env σ η) (host : η) (l₁ l₂ : List Area) (p : Ptr) {r k : VmRegion}
    (h : k.fileInfo = r.fileInfo) :
    fdsOf (l₁ ++ (p, mapRegionFields E host k) :: l₂) = fdsOf (l₁ ++ (p, r) :: l₂) := by
  simp [fdsOf, mapRegionFields, h]

/-- The open descriptors are those of a list without repetition, and there is room for
some more. -/
structure Balanced (D : Descriptors E) (n : Nat) (host : η) (l : List (BitVec 32)) : Prop where
  nodup : l.Nodup
  opened : ∀ d, D.opened host d ↔ d ∈ l
  room : n ≤ D.room host

section Host

variable {D : Descriptors E} {n : Nat} {host : η} {l l' : List (BitVec 32)}

theorem Balanced.perm (h : Balanced D n host l) (hp : l.Perm l') : Balanced D n host l' :=
  ⟨hp.nodup_iff.mp h.nodup, fun d => (h.opened d).trans hp.mem_iff, h.room⟩

theorem Balanced.mapHost (h : Balanced D n host l) (r : VmRegion) :
    Balanced D n (mapHost E host r) l :=
  ⟨h.nodup, fun d => ((D.map host r).1 d).trans (h.opened d), h.room.trans (D.map host r).2⟩

theorem Balanced.unmapVma (h : Balanced D n host l) (r : VmRegion) :
    Balanced D n (E.unmapVma host r) l :=
  ⟨h.nodup, fun d => ((D.unmap host r).1 d).trans (h.opened d), h.room.trans (D.unmap host r).2⟩

theorem Balanced.dup (h : Balanced D (n + 1) host l) {fd : BitVec 32} (hfd : fd ≠ noFd) :
    Balanced D n (E.dup host fd).1 ((E.dup host fd).2 :: l) := by
  have hroom := h.room
  obtain ⟨-, hnew, hopen, hleft⟩ := D.dup_file host fd hfd (by omega)
  refine ⟨List.nodup_cons.mpr ⟨fun hm => hnew ((h.opened _).mpr hm), h.nodup⟩, fun d => ?_,
    by omega⟩
  rw [hopen, h.opened, List.mem_cons]

theorem Balanced.dup_noFd (h : Balanced D (n + 1) host l) : Balanced D n (E.dup host noFd).1 l := by
  have hroom := h.room
  have hleft := (D.dup_none host).2.2
  exact ⟨h.nodup, fun d => ((D.dup_none host).2.1 d).trans (h.opened d), by omega⟩

theorem Balanced.close {fd : BitVec 32} (h : Balanced D n host (fd :: l)) :
    Balanced D n (E.close host fd) l := by
  obtain ⟨hnot, hnd⟩ := List.nodup_cons.mp h.nodup
  refine ⟨hnd, fun d => ?_, h.room.trans (D.close host fd).2⟩
  rw [(D.close host fd).1, h.opened, List.mem_cons]
  constructor
  · rintro ⟨rfl | hd, hne⟩
    · exact absurd rfl hne
    · exact hd
  · intro hd
    exact ⟨Or.inr hd, fun heq => hnot (heq ▸ hd)⟩

/-- The descriptor of `syscall_mmap`. -/
theorem Balanced.mmapFile (h : Balanced D (n + 1) host l) {fd : BitVec 32} (hfd : fd ≠ noFd) :
    Balanced D n (mmapFile E host fd).2 ((mmapFile E host fd).1.fd :: l) := by
  have hdup := h.dup hfd
  simp only [BufferVM.mmapFile, ne_eq, hfd, not_false_eq_true, if_true]
  exact ⟨hdup.nodup, fun d => ((D.fstat _ _).1 d).trans (hdup.opened d),
    hdup.room.trans (D.fstat _ _).2⟩

/-- The removal of areas closes their descriptors. -/
theorem Balanced.removeAreas (m : List Area) : ∀ (heap : σ) {host : η} {l : List (BitVec 32)},
    Balanced D n host (fdsOf m ++ l) → Balanced D n (removeAreas E m (heap, host)).2 l := by
  induction m with
  | nil => intro heap host l h; exact h
  | cons x m ih =>
      intro heap host l h
      rw [fdsOf_cons, List.append_assoc] at h
      refine ih (E.free heap x.1) (Balanced.unmapVma ?_ x.2)
      rw [fdsOf_singleton] at h
      by_cases hfd : x.2.fileInfo.fd = noFd
      · simpa [hfd] using h
      · rw [if_neg hfd, List.singleton_append] at h
        simpa [hfd] using h.close

end Host

/-! ## The address space -/

section Space

variable {D : Descriptors E} {n : Nat} {l : List (BitVec 32)}

/-- A split duplicates the descriptor of a file VMA for the new half. -/
theorem Balanced.splitAt (h : Balanced D (n + 1) A.host (l ++ fdsOf A.areas))
    (hs : Sorted A.regions) (addr : U64) (nb : Bool) :
    Balanced D n (A.splitAt E addr nb).host (l ++ fdsOf (A.splitAt E addr nb).areas) := by
  rcases splitAt_cases E addr nb hs with ⟨heq, -⟩ | ⟨x, m, -, hA, -, -, heq⟩
  · rw [heq]
    exact ⟨h.nodup, h.opened, Nat.le_of_succ_le h.room⟩
  · rw [heq]
    generalize hl₁ : below addr A.areas = l₁ at hA
    rw [hA] at h
    have hhost : ∀ {l'}, Balanced D n (E.dup A.host x.2.fileInfo.fd).1 l' →
        Balanced D n (A.split E l₁ x m addr nb).host l' := by
      intro l' h'
      cases nb <;> exact (h'.mapHost _).mapHost _
    have hfds : fdsOf (A.split E l₁ x m addr nb).areas =
        if nb then fdsOf l₁ ++ (if (E.dup A.host x.2.fileInfo.fd).2 = noFd then []
            else [(E.dup A.host x.2.fileInfo.fd).2]) ++ fdsOf [x] ++ fdsOf m
        else fdsOf l₁ ++ fdsOf [x] ++ (if (E.dup A.host x.2.fileInfo.fd).2 = noFd then []
            else [(E.dup A.host x.2.fileInfo.fd).2]) ++ fdsOf m := by
      cases nb
      · simp only [Space.split, splitArea, fdsOf_append, fdsOf_cons _ (_ :: _), fdsOf_cons _ m,
          Bool.false_eq_true, if_false, fdsOf_singleton, ← List.append_assoc]
        rfl
      · simp only [Space.split, splitArea, fdsOf_append, fdsOf_cons _ (_ :: _), fdsOf_cons _ m,
          if_true, fdsOf_singleton, ← List.append_assoc]
        rfl
    refine hhost ?_
    rw [hfds]
    rw [fdsOf_append, fdsOf_cons] at h
    by_cases hfd : x.2.fileInfo.fd = noFd
    · have hnone : (E.dup A.host x.2.fileInfo.fd).2 = noFd := by rw [hfd]; exact (D.dup_none _).1
      have hdup : Balanced D n (E.dup A.host x.2.fileInfo.fd).1
          (l ++ (fdsOf l₁ ++ (fdsOf [x] ++ fdsOf m))) := by
        rw [hfd]
        exact h.dup_noFd
      refine hdup.perm ?_
      cases nb <;> simp [hnone]
    · have hroom := h.room
      have hne := (D.dup_file A.host x.2.fileInfo.fd hfd (by omega)).1
      refine (h.dup hfd).perm ?_
      cases nb
      · simp only [hne, if_false, Bool.false_eq_true]
        grind
      · simp only [hne, if_false, if_true]
        grind

theorem Balanced.unmap (h : Balanced D (n + 2) A.host (l ++ fdsOf A.areas)) (hso : Sound F A)
    (hav : 2 ≤ F.avail A.heap) (addr end' : U64) :
    Balanced D n (A.unmap E addr end').host (l ++ fdsOf (A.unmap E addr end').areas) := by
  unfold Space.unmap
  split
  · obtain ⟨hso₁, -⟩ := hso.splitAt addr false (by omega)
    have h₂ := (h.splitAt hso.sorted addr false).splitAt hso₁.sorted end' true
    generalize (A.splitAt E addr false).splitAt E end' true = C at h₂
    have hcut := removeRange_cut addr end' C.areas
    unfold Space.removeRange
    refine Balanced.removeAreas _ _ (h₂.perm ?_)
    conv_lhs => rw [hcut]
    simp only [fdsOf_append]
    grind
  · exact ⟨h.nodup, h.opened, by have := h.room; omega⟩

/-- A merge keeps the descriptor of the VMA that is extended, and closes that of one that
is swallowed; an anonymous request brings none. -/
theorem Balanced.place_anonymous {q : Request} (h : Balanced D n A.host (fdsOf A.areas))
    (hq : q.fileInfo.fd = noFd) : Balanced D n (A.place E q).host (fdsOf (A.place E q).areas) := by
  have hstep := placeStep_place E q A
  generalize A.place E q = B at hstep ⊢
  cases hstep with
  | fresh hA =>
      rw [hA, fdsOf_append] at h
      refine (h.mapHost q.fresh).perm ?_
      have hnew : fdsOf [((E.alloc A.heap).1, mapRegionFields E A.host q.fresh)] = [] := by
        rw [fdsOf_singleton]
        exact if_pos hq
      simp only [Space.insertNew, fdsOf_append, fdsOf_cons _ (above q.addr A.areas), hnew,
        List.nil_append]
      exact List.Perm.refl _
  | extendPrev l₁ l₂ p r hA hj =>
      rw [hA] at h
      have hfds := fdsOf_regrow E A.host l₁ l₂ p (r := r) (k := { r with endAddr := q.end' }) rfl
      simp only [Space.regrow, hfds]
      exact h.mapHost _
  | extendNext l₁ l₂ p r hA hj =>
      rw [hA] at h
      have hfds := fdsOf_regrow E A.host l₁ l₂ p (r := r)
        (k := { r with startAddr := q.addr, pageOffset := r.pageOffset - q.pglen }) rfl
      simp only [Space.regrow, hfds]
      exact h.mapHost _
  | bridge l₁ l₂ p r m hA hj hj' =>
      rw [hA] at h
      have hfds := fdsOf_regrow E A.host l₁ l₂ p (r := r)
        (k := { r with endAddr := m.2.endAddr }) rfl
      simp only [Space.swallow, hfds]
      refine Balanced.removeAreas [m] A.heap ((h.mapHost { r with endAddr := m.2.endAddr }).perm ?_)
      simp only [fdsOf_append, fdsOf_cons _ (_ :: _), fdsOf_cons _ l₂]
      grind

theorem Balanced.resize {l₁ l₂ : List Area} {p : Ptr} {r : VmRegion} {start end' : U64}
    (h : Balanced D n A.host (fdsOf A.areas)) (hA : A.areas = l₁ ++ (p, r) :: l₂) :
    Balanced D n (A.resize E l₁ p r l₂ start end').host
      (fdsOf (A.resize E l₁ p r l₂ start end').areas) := by
  rw [hA] at h
  have hfds := fdsOf_regrow E A.host l₁ l₂ p (r := r)
    (k := { r with startAddr := start, endAddr := end' }) rfl
  simp only [Space.resize, Space.regrow, hfds]
  exact h.mapHost _

end Space

/-! ## Runs of calls -/

/-- A mapping call does not fail after it has duplicated a descriptor, and is not merged
when it has one. -/
def fdOk (A : Space σ η) : Mapping → Prop
  | .fail fd => fd = noFd
  | .map fd q => (fd = noFd → q.fileInfo.fd = noFd) ∧ (fd ≠ noFd → q.Unmerged A.regions)

theorem Balanced.weaken {D : Descriptors E} {m n : Nat} {host : η} {l : List (BitVec 32)}
    (h : Balanced D n host l) (hle : m ≤ n) : Balanced D m host l :=
  ⟨h.nodup, h.opened, hle.trans h.room⟩

theorem SpaceStep.balanced {D : Descriptors E} {kernelMinAddress : U64}
    (hstep : SpaceStep E kernelMinAddress fdOk A B) (hso : Sound F A) (hav : 3 ≤ F.avail A.heap)
    (h : Balanced D 3 A.host (fdsOf A.areas)) : Balanced D 0 B.host (fdsOf B.areas) := by
  cases hstep with
  | stay => exact h.weaken (by omega)
  | fail fd hok =>
      obtain rfl : fd = noFd := hok
      rw [Space.stat_noFd]
      exact h.weaken (by omega)
  | unmap addr length hb =>
      exact (Balanced.unmap (l := []) h hso (by omega) addr (addr + length)).weaken (by omega)
  | map fd q hb hfile hok =>
      by_cases hfd : fd = noFd
      · subst hfd
        rw [Space.stat_noFd] at hok ⊢
        have hun := Balanced.unmap (l := []) h hso (by omega) q.addr q.end'
        exact (hun.place_anonymous (hok.1 rfl)).weaken (by omega)
      · have hstat := h.mmapFile hfd
        rw [← hfile hfd] at hstat
        have hun := Balanced.unmap (A := A.stat E fd) (l := [q.fileInfo.fd]) hstat (hso.stat fd)
          (by exact Nat.le_of_succ_le hav) q.addr q.end'
        obtain ⟨hcut, hmap⟩ := map_unmerged (hso.stat fd) hav hb (hok.2 hfd)
        have hne : q.fileInfo.fd ≠ noFd := D.opened_ne _ _ ((hun.opened _).mpr (by simp))
        rw [hcut, fdsOf_append] at hun
        rw [hmap]
        refine (hun.mapHost q.fresh).perm ?_
        simp only [Space.insertNew, fdsOf_append, fdsOf_cons _ (above _ _), fdsOf_singleton]
        have hnew : ∀ host, (mapRegionFields E host q.fresh).fileInfo.fd = q.fileInfo.fd :=
          fun _ => rfl
        simp only [hnew, if_neg hne]
        grind
  | resize l₁ l₂ p r start end' hr => exact (h.resize hr.areas).weaken (by omega)

/-- Every open descriptor belongs to exactly one VMA, and that of every file VMA is open. -/
structure DescriptorsOwned (D : Descriptors E) (s : St σ η) : Prop where
  owner : ∀ d, D.opened s.host d → ∃! p, p ∈ s.nodes ∧ (s.region p).fileInfo.fd = d
  live : ∀ p ∈ s.nodes, (s.region p).fileInfo.fd ≠ noFd →
    D.opened s.host (s.region p).fileInfo.fd

theorem mem_fdsOf_space (d : BitVec 32) : d ∈ fdsOf s.space.areas ↔
    ∃ p ∈ s.nodes, (s.region p).fileInfo.fd = d ∧ d ≠ noFd := by
  simp only [fdsOf, St.space, areasAt, List.map_map, List.mem_filter, List.mem_map,
    Function.comp_apply, decide_eq_true_eq]
  constructor
  · rintro ⟨⟨p, hp, rfl⟩, hd⟩
    exact ⟨p, hp, rfl, hd⟩
  · rintro ⟨p, hp, rfl, hd⟩
    exact ⟨⟨p, hp, rfl⟩, hd⟩

theorem nodup_fdsOf_space (hnd : s.nodes.Nodup) : (fdsOf s.space.areas).Nodup ↔
    ∀ p ∈ s.nodes, ∀ q ∈ s.nodes, (s.region p).fileInfo.fd ≠ noFd →
      (s.region p).fileInfo.fd = (s.region q).fileInfo.fd → p = q := by
  have hfds : fdsOf s.space.areas =
      (s.nodes.filter fun p => decide ((s.region p).fileInfo.fd ≠ noFd)).map
        fun p => (s.region p).fileInfo.fd := by
    simp only [fdsOf, St.space, areasAt, List.map_map, List.filter_map, Function.comp_def]
  rw [hfds, List.nodup_map_iff_inj_on (hnd.filter _)]
  simp only [List.mem_filter, decide_eq_true_eq]
  constructor
  · intro h p hp q hq hne heq
    exact h p ⟨hp, hne⟩ q ⟨hq, heq ▸ hne⟩ heq
  · rintro h p ⟨hp, hne⟩ q ⟨hq, -⟩ heq
    exact h p hp q hq hne heq

/-- The books of a store, as a list of its descriptors. -/
theorem descriptorsOwned_iff {D : Descriptors E} (hnd : s.nodes.Nodup) :
    DescriptorsOwned D s ↔ Balanced D 0 s.host (fdsOf s.space.areas) := by
  constructor
  · intro h
    refine ⟨(nodup_fdsOf_space hnd).mpr fun p hp q hq hne heq => ?_, fun d => ?_, Nat.zero_le _⟩
    · obtain ⟨p', -, huniq⟩ := h.owner _ (h.live p hp hne)
      rw [huniq p ⟨hp, rfl⟩, huniq q ⟨hq, heq.symm⟩]
    · rw [mem_fdsOf_space]
      constructor
      · intro hd
        obtain ⟨p, ⟨hp, hpd⟩, -⟩ := h.owner d hd
        exact ⟨p, hp, hpd, D.opened_ne _ _ hd⟩
      · rintro ⟨p, hp, rfl, hne⟩
        exact h.live p hp hne
  · intro h
    have hinj := (nodup_fdsOf_space hnd).mp h.nodup
    refine ⟨fun d hd => ?_, fun p hp hne => ?_⟩
    · obtain ⟨p, hp, rfl, hne⟩ := (mem_fdsOf_space d).mp ((h.opened d).mp hd)
      exact ⟨p, ⟨hp, rfl⟩, fun q hq => (hinj p hp q hq.1 hne hq.2.symm).symm⟩
    · exact (h.opened _).mpr ((mem_fdsOf_space _).mpr ⟨p, hp, rfl, hne⟩)

/-- **Descriptors are balanced** along every run in which no mapping call fails after it has
duplicated its descriptor and no file mapping is merged with a VMA. -/
theorem descriptorsOwned_of_runs (F : E.toNodeHeap.Fresh) (D : Descriptors E) (s : St σ η)
    (hs : Orderly F s) (hd : DescriptorsOwned D s) (cs : List Call) (t : St σ η)
    (h : Run.Steps (fun s c => Call.run E s c)
      (fun s c => 3 ≤ D.room s.host ∧ CallOk E F fdOk s c) s cs t) : DescriptorsOwned D t := by
  have hnodes : ∀ {u : St σ η}, Orderly F u → u.nodes.Nodup := fun hu => by
    rw [← St.space_nodes]
    exact hu.linked.sound.nodup
  refine (Run.Steps.invariant (fun u => Orderly F u ∧ DescriptorsOwned D u) h ?_
    ⟨hs, hd⟩).2
  rintro u c v ⟨hu, hdu⟩ ⟨hroom, hav, hc⟩ hrun
  obtain ⟨hv, hst⟩ := hu.call hav hc hrun
  have hb := (descriptorsOwned_iff (hnodes hu)).mp hdu
  exact ⟨hv, (descriptorsOwned_iff (hnodes hv)).mpr
    (hst.step.balanced hu.linked.sound hav ⟨hb.nodup, hb.opened, hroom⟩)⟩

/-! ## A machine that counts descriptors -/

/-- A host that numbers the descriptors it duplicates and keeps the open ones. -/
def countingHost : HostCalls (Nat × List (BitVec 32)) where
  mapVma h r := (h, ⟨r.physPageStart, r.physPageEnd, r.startAddr, r.endAddr, false, true⟩)
  unmapVma h _ := h
  dup h fd := if fd = noFd then (h, noFd)
    else ((h.1 + 1, BitVec.ofNat 32 (h.1 + 1) :: h.2), BitVec.ofNat 32 (h.1 + 1))
  close h fd := (h.1, h.2.filter (· ≠ fd))
  fstat h _ := (h, 0#64, 0#64)

/-- The small machine with that host. -/
def countingEnv : Env (Nat × List Ptr) (Nat × List (BitVec 32)) := { bumpHeap, countingHost with }

/-- The open descriptors of that host. -/
def countingDescriptors : Descriptors countingEnv where
  opened h d := d ∈ h.2 ∧ d.toNat ≤ h.1 ∧ d ≠ noFd
  opened_ne h d hd := hd.2.2
  room h := 2 ^ 32 - 2 - h.1
  dup_file h fd hfd hroom := by
    have hnew : (BitVec.ofNat 32 (h.1 + 1)).toNat = h.1 + 1 := by
      rw [BitVec.toNat_ofNat, Nat.mod_eq_of_lt (by omega)]
    have hne : BitVec.ofNat 32 (h.1 + 1) ≠ noFd := by
      intro heq
      rw [heq] at hnew
      have : noFd.toNat = 2 ^ 32 - 1 := by decide
      omega
    have hdup : countingEnv.dup h fd =
        ((h.1 + 1, BitVec.ofNat 32 (h.1 + 1) :: h.2), BitVec.ofNat 32 (h.1 + 1)) := if_neg hfd
    rw [hdup]
    refine ⟨hne, fun hd => ?_, fun d => ?_, ?_⟩
    · have : (BitVec.ofNat 32 (h.1 + 1)).toNat ≤ h.1 := hd.2.1
      omega
    · show (d ∈ BitVec.ofNat 32 (h.1 + 1) :: h.2 ∧ d.toNat ≤ h.1 + 1 ∧ d ≠ noFd) ↔
        d = BitVec.ofNat 32 (h.1 + 1) ∨ d ∈ h.2 ∧ d.toNat ≤ h.1 ∧ d ≠ noFd
      rw [List.mem_cons]
      constructor
      · rintro ⟨rfl | hd, hle, hn⟩
        · exact Or.inl rfl
        · rcases Nat.lt_or_ge h.1 d.toNat with hlt | hge
          · exact Or.inl (BitVec.eq_of_toNat_eq (by omega))
          · exact Or.inr ⟨hd, hge, hn⟩
      · rintro (rfl | ⟨hd, hle, hn⟩)
        · exact ⟨Or.inl rfl, by omega, hne⟩
        · exact ⟨Or.inr hd, by omega, hn⟩
    · show 2 ^ 32 - 2 - h.1 ≤ 2 ^ 32 - 2 - (h.1 + 1) + 1
      omega
  dup_none h := by
    have hdup : countingEnv.dup h noFd = (h, noFd) := by simp [countingEnv, countingHost]
    rw [hdup]
    exact ⟨rfl, fun d => Iff.rfl, Nat.le_refl _⟩
  close h fd := by
    refine ⟨fun d => ?_, Nat.le_refl _⟩
    simp only [countingEnv, countingHost, List.mem_filter, decide_eq_true_eq]
    tauto
  fstat h fd := ⟨fun d => Iff.rfl, Nat.le_refl _⟩
  map h r := ⟨fun d => Iff.rfl, Nat.le_refl _⟩
  unmap h r := ⟨fun d => Iff.rfl, Nat.le_refl _⟩

/-- That machine before the first call. -/
def countingStore : St (Nat × List Ptr) (Nat × List (BitVec 32)) :=
  St.empty (0, []) (0, []) smallGlobals

theorem descriptorsOwned_countingStore : DescriptorsOwned countingDescriptors countingStore := by
  refine ⟨fun d hd => absurd hd.1 (by simp [countingStore, St.empty]), fun p hp => ?_⟩
  rw [show countingStore.nodes = [] from rfl] at hp
  simp at hp

theorem orderly_countingStore : Orderly bumpFresh countingStore :=
  orderly_empty (E := countingEnv) bumpFresh _ _ globOk_smallGlobals

/-- A fixed mapping of descriptor 3. -/
def fixedFile (addr length flags : U64) : Call :=
  .mmap 0#64 addr length protRead (flags ||| mapFixed) 3#32 0#64

/-- A private file mapping of the counting machine. -/
theorem descriptorsOwned_of_runs_counting :
    ∃ t, (fixedFile 0x2000#64 0x1000#64 mapPrivate).run countingEnv countingStore = some t ∧
      DescriptorsOwned countingDescriptors t := by
  obtain ⟨t, ht⟩ : ∃ t,
      (fixedFile 0x2000#64 0x1000#64 mapPrivate).run countingEnv countingStore = some t :=
    Option.isSome_iff_exists.mp (by decide +kernel)
  refine ⟨t, ht, descriptorsOwned_of_runs (E := countingEnv) bumpFresh countingDescriptors
    countingStore orderly_countingStore descriptorsOwned_countingStore _ t
    (.cons ⟨by decide +kernel, by decide +kernel, ?_⟩ ht (.nil t))⟩
  rintro ⟨q, host⟩ hprep
  have hsome : (mmapPrepare countingEnv 0#64 0x2000#64 0x1000#64 protRead (mapPrivate ||| mapFixed)
      3#32 0#64 countingStore).map (fun x => x.1.isSome) = some true := by decide +kernel
  rw [hprep] at hsome
  cases q with
  | none => exact absurd hsome (by simp)
  | some q =>
      obtain ⟨hlen, -, -, haddr, -⟩ := mmapPrepare_length hprep
      have hfix : (mapPrivate ||| mapFixed) &&& mapFixed ≠ 0#64 := by decide
      rw [getUnmappedArea, if_pos hfix] at haddr
      have hnone : (countingStore.space.stat countingEnv 3#32).regions = [] := rfl
      refine ⟨fun _ => ⟨fun h => absurd h (by decide), fun _ => ⟨?_, ?_⟩⟩,
        fun hout => absurd ?_ hout⟩
      · rintro ⟨r, hr, -⟩
        simp [hnone] at hr
      · rintro ⟨r, hr, -⟩
        simp [hnone] at hr
      · rw [hlen, ← Option.some.inj haddr]
        exact ⟨by decide, by decide, by decide, by decide⟩

/-- A file mapping that is neither shared nor private fails with `-EINVAL`; the descriptor
that was duplicated for it stays open, and there is no VMA at all. -/
theorem failed_mmap_leaks_descriptor :
    ∃ t, syscallMmap countingEnv 0#64 0x2000#64 0x1000#64 protRead mapFixed 3#32 0#64
        countingStore = some (eINVAL, t) ∧
      DescriptorsOwned countingDescriptors countingStore ∧
      ¬ DescriptorsOwned countingDescriptors t := by
  have hrun : (syscallMmap countingEnv 0#64 0x2000#64 0x1000#64 protRead mapFixed 3#32 0#64
      countingStore).map (fun x => (x.1, x.2.host, x.2.nodes)) =
      some (eINVAL, (1, [1#32]), []) := by decide +kernel
  obtain ⟨⟨ret, t⟩, ht, heq⟩ := Option.map_eq_some_iff.mp hrun
  simp only [Prod.mk.injEq] at heq
  obtain ⟨rfl, hhost, hnodes⟩ := heq
  refine ⟨t, ht, descriptorsOwned_countingStore, fun h => ?_⟩
  obtain ⟨p, ⟨hp, -⟩, -⟩ := h.owner 1#32 (by
    rw [hhost]
    exact ⟨by simp, by decide, by decide⟩)
  simp [hnodes] at hp

end BufferVM
