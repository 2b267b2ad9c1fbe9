/-
  Vm/HostRead.lean --- `kernel_read`, `kernel_stat` and `kernel_fstat` of `vm/host.c`.

  Each of them lets the host fill a local buffer and copies the whole of the buffer to the
  guest with `write_virtual_addr`.  What the host's call has not filled is what was on the
  stack before (`junk`).  Memory is written byte by byte here, and every page is looked up
  in the tables as the copy so far has left them.
-/
import BufferVM.Vm.Contents

set_option autoImplicit false

namespace BufferVM

/-! ## Bytes of physical memory -/

/-- A word with one of its bytes replaced. -/
def setWordByte (w : U64) (k : Nat) (b : BitVec 8) : U64 :=
  (w &&& ~~~(0xFF#64 <<< (k * 8))) ||| (b.setWidth 64 <<< (k * 8))

/-- `vm.mem[addr]`. -/
def Vm.byte (vm : Vm) (p : U64) : BitVec 8 := byteOf (vm.mem (frameOf p)) p

/-- `vm.mem[addr] = b`. -/
def Vm.setByte (vm : Vm) (p : U64) (b : BitVec 8) : Vm :=
  vm.setEntry p (BitVec.ofNat 64 (p.toNat % 4096 / 8))
    (setWordByte (vm.entry p (BitVec.ofNat 64 (p.toNat % 4096 / 8))) (p.toNat % 8) b)

/-- `memcpy(vm.mem + phys, source, n)`. -/
def Vm.memcpy (source : Nat → BitVec 8) : Nat → U64 → Vm → Vm
  | 0, _, vm => vm
  | n + 1, phys, vm => (vm.memcpy source n phys).setByte (phys + BitVec.ofNat 64 n) (source n)

theorem setWordByte_same (w : U64) {k : Nat} (hk : k < 8) (b : BitVec 8) :
    (setWordByte w k b >>> (k * 8)).setWidth 8 = b := by
  ext i hi
  simp only [setWordByte, BitVec.getElem_setWidth, BitVec.getLsbD_ushiftRight, BitVec.getLsbD_or,
    BitVec.getLsbD_and, BitVec.getLsbD_not, BitVec.getLsbD_shiftLeft, BitVec.getLsbD_setWidth]
  have h1 : k * 8 + i < 64 := by omega
  have h2 : ¬ k * 8 + i < k * 8 := by omega
  have h3 : k * 8 + i - k * 8 = i := by omega
  have h4 : (0xFF#64 : U64).getLsbD i = true := by
    have : ∀ i, i < 8 → (0xFF#64 : U64).getLsbD i = true := by decide
    exact this i hi
  simp [h1, h2, h3, h4, BitVec.getLsbD_eq_getElem hi]
  omega

theorem setWordByte_other (w : U64) {j k : Nat} (hj : j < 8) (hjk : j ≠ k) (b : BitVec 8) :
    (setWordByte w k b >>> (j * 8)).setWidth 8 = (w >>> (j * 8)).setWidth 8 := by
  ext i hi
  simp only [setWordByte, BitVec.getElem_setWidth, BitVec.getLsbD_ushiftRight, BitVec.getLsbD_or,
    BitVec.getLsbD_and, BitVec.getLsbD_not, BitVec.getLsbD_shiftLeft, BitVec.getLsbD_setWidth]
  have h1 : j * 8 + i < 64 := by omega
  rcases Nat.lt_or_gt_of_ne hjk with h | h
  · have h2 : j * 8 + i < k * 8 := by omega
    simp [h1, h2]
  · have h2 : ¬ j * 8 + i < k * 8 := by omega
    have h3 : 8 ≤ j * 8 + i - k * 8 := by omega
    have h4 : (0xFF#64 : U64).getLsbD (j * 8 + i - k * 8) = false := by
      have : (0xFF#64 : U64) = (0xFF#8).setWidth 64 := by decide
      rw [this, BitVec.getLsbD_setWidth]
      simp [BitVec.getLsbD_of_ge _ _ h3]
    have h5 : b.getLsbD (j * 8 + i - k * 8) = false := BitVec.getLsbD_of_ge _ _ h3
    simp [h1, h2, h4, h5]

/-- A byte after another has been written. -/
theorem Vm.byte_setByte (vm : Vm) (p q : U64) (b : BitVec 8) :
    (vm.setByte p b).byte q = if q = p then b else vm.byte q := by
  have hp := p.isLt
  have hq := q.isLt
  have hword : ∀ a : U64, (BitVec.ofNat 64 (a.toNat % 4096 / 8)).toNat = a.toNat % 4096 / 8 := by
    intro a
    rw [BitVec.toNat_ofNat, Nat.mod_eq_of_lt (by omega)]
  by_cases hf : frameOf q = frameOf p
  · by_cases hi : q.toNat % 4096 / 8 = p.toNat % 4096 / 8
    · have hmem : (vm.setByte p b).mem (frameOf q) (BitVec.ofNat 64 (q.toNat % 4096 / 8)) =
          setWordByte (vm.mem (frameOf p) (BitVec.ofNat 64 (p.toNat % 4096 / 8)))
            (p.toNat % 8) b := by
        rw [hf, hi]
        simp [Vm.setByte, Vm.setEntry, Vm.entry, Radix.write]
      rw [Vm.byte, byteOf, hmem]
      by_cases hqp : q = p
      · subst hqp
        rw [if_pos rfl]
        exact setWordByte_same _ (Nat.mod_lt _ (by decide)) b
      · rw [if_neg hqp, setWordByte_other _ (Nat.mod_lt _ (by decide)), Vm.byte, byteOf, hf, hi]
        intro hk
        refine hqp (BitVec.eq_of_toNat_eq ?_)
        simp only [frameOf] at hf
        omega
    · have hne : q ≠ p := by
        rintro rfl
        exact hi rfl
      have hidx : BitVec.ofNat 64 (q.toNat % 4096 / 8) ≠ BitVec.ofNat 64 (p.toNat % 4096 / 8) := by
        intro h
        have := congrArg BitVec.toNat h
        rw [hword, hword] at this
        exact hi this
      rw [if_neg hne, Vm.byte, byteOf, Vm.byte, byteOf]
      simp [Vm.setByte, Vm.setEntry, Radix.write, hidx]
  · have hne : q ≠ p := by
      rintro rfl
      exact hf rfl
    rw [if_neg hne, Vm.byte, byteOf, Vm.byte, byteOf]
    simp [Vm.setByte, Vm.setEntry, Radix.write, hf]

/-- The bytes that `memcpy` has written. -/
theorem Vm.byte_memcpy (source : Nat → BitVec 8) (phys : U64) (vm : Vm) {n : Nat} (hn : n ≤ 4096)
    {i : Nat} (hi : i < n) :
    (vm.memcpy source n phys).byte (phys + BitVec.ofNat 64 i) = source i := by
  induction n with
  | zero => omega
  | succ n ih =>
      rw [Vm.memcpy, Vm.byte_setByte]
      rcases Nat.lt_or_ge i n with hlt | hge
      · rw [if_neg, ih (by omega) hlt]
        intro h
        have h1 : BitVec.ofNat 64 i = BitVec.ofNat 64 n := by
          have := congrArg (fun x => x - phys) h
          simpa [BitVec.add_comm phys, BitVec.add_sub_cancel] using this
        have h2 := congrArg BitVec.toNat h1
        rw [BitVec.toNat_ofNat, BitVec.toNat_ofNat, Nat.mod_eq_of_lt (by omega),
          Nat.mod_eq_of_lt (by omega)] at h2
        omega
      · obtain rfl : i = n := by omega
        rw [if_pos rfl]

theorem Vm.memcpy_congr {source source' : Nat → BitVec 8} (phys : U64) (vm : Vm) {n : Nat}
    (h : ∀ i, i < n → source i = source' i) :
    vm.memcpy source n phys = vm.memcpy source' n phys := by
  induction n with
  | zero => rfl
  | succ n ih => rw [Vm.memcpy, Vm.memcpy, ih fun i hi => h i (by omega), h n (by omega)]

/-! ## `vm/paging.c` -/

/-- The bytes from an address to the end of its page, at most `left`. -/
def pageBytes (addr : U64) (left : Nat) : Nat := min (4096 - addr.toNat % 4096) left

/-- The loop of `write_virtual_addr`. -/
def writeVirtualAddrLoop (virtualAddr : U64) (source : Nat → BitVec 8) :
    Nat → Nat → Nat → Vm → Option (Bool × Vm)
  | 0, _, _, _ => none
  | fuel + 1, written, left, vm =>
      if left = 0 then some (true, vm)
      else match getPhysAddr (virtualAddr + BitVec.ofNat 64 written) vm with
        | none => some (false, vm)
        | some phys =>
            let n := pageBytes (virtualAddr + BitVec.ofNat 64 written) left
            writeVirtualAddrLoop virtualAddr source fuel (written + n) (left - n)
              (vm.memcpy (fun i => source (written + i)) n phys)

/-- `write_virtual_addr`. -/
def writeVirtualAddr (virtualAddr : U64) (source : Nat → BitVec 8) (length : Nat) (vm : Vm) :
    Option (Bool × Vm) :=
  writeVirtualAddrLoop virtualAddr source (length + 1) 0 length vm

/-- The loop of `read_virtual_addr`. -/
def readVirtualAddrLoop (virtualAddr : U64) (vm : Vm) :
    Nat → Nat → Nat → List (BitVec 8) → Option (Option (List (BitVec 8)))
  | 0, _, _, _ => none
  | fuel + 1, bytesRead, left, buffer =>
      if left = 0 then some (some buffer)
      else match getPhysAddr (virtualAddr + BitVec.ofNat 64 bytesRead) vm with
        | none => some none
        | some phys =>
            let n := pageBytes (virtualAddr + BitVec.ofNat 64 bytesRead) left
            readVirtualAddrLoop virtualAddr vm fuel (bytesRead + n) (left - n)
              (buffer ++ (List.range n).map fun i => vm.byte (phys + BitVec.ofNat 64 i))

/-- `read_virtual_addr`: the bytes, or none of them. -/
def readVirtualAddr (virtualAddr : U64) (size : Nat) (vm : Vm) :
    Option (Option (List (BitVec 8))) :=
  readVirtualAddrLoop virtualAddr vm (size + 1) 0 size []

/-- The inner loop of `read_virtual_cstr`: `bytes_read` behind the first zero byte of a page.
It indexes from the page found for the first byte not yet read with the number of all bytes
read. -/
def cstrPage (vm : Vm) (phys : U64) : Nat → Nat → Option Nat
  | 0, _ => none
  | n + 1, bytesRead =>
      if vm.byte (phys + BitVec.ofNat 64 bytesRead) = 0#8 then some (bytesRead + 1)
      else cstrPage vm phys n (bytesRead + 1)

/-- The outer loop of `read_virtual_cstr`: the number of bytes it goes on to read.  The
counter is a 64-bit word and wraps round, so that a longer walk does not end. -/
def cstrLength (virtualAddr : U64) (vm : Vm) : Nat → Nat → Option (Option Nat)
  | 0, _ => none
  | fuel + 1, bytesRead =>
      match getPhysAddr (virtualAddr + BitVec.ofNat 64 bytesRead) vm with
      | none => some none
      | some phys =>
          let n := 4096 - (virtualAddr + BitVec.ofNat 64 bytesRead).toNat % 4096
          match cstrPage vm phys n bytesRead with
          | some k => some (some ((k + 1) % 2 ^ 64))
          | none => cstrLength virtualAddr vm fuel (bytesRead + n)

/-- `read_virtual_cstr`: `none` when it does not come back, `some none` when a page is not
mapped. -/
def readVirtualCstr (virtualAddr : U64) (vm : Vm) : Option (Option (List (BitVec 8))) := do
  let length ← cstrLength virtualAddr vm (2 ^ 52 + 1) 0
  match length with
  | none => some none
  | some n => readVirtualAddr virtualAddr n vm

/-! ## `vm/host.c` -/

/-- The calls of the host's C library: what they return, and the bytes they have put into
the buffer. -/
structure HostFiles where
  read : BitVec 32 → U64 → Int × List (BitVec 8)
  stat : List (BitVec 8) → Int × List (BitVec 8)
  fstat : BitVec 32 → Int × List (BitVec 8)

/-- A local buffer after a call: the bytes of the call, and behind them what was there. -/
def localBuffer (data : List (BitVec 8)) (junk : Nat → BitVec 8) (i : Nat) : BitVec 8 :=
  data.getD i (junk i)

/-- `sizeof(struct stat)`. -/
def sizeofStat : Nat := 144

/-- The end of the three calls: copy the buffer to the guest, and return `-1` when that
fails. -/
def copyBack (addr : U64) (size : Nat) (reply : Int × List (BitVec 8)) (junk : Nat → BitVec 8)
    (vm : Vm) : Option (Int × Vm) :=
  (writeVirtualAddr addr (localBuffer reply.2 junk) size vm).map fun x =>
    (if x.1 then reply.1 else -1, x.2)

/-- `kernel_read`. -/
def kernelRead (L : HostFiles) (fd : BitVec 32) (buf count : U64) (junk : Nat → BitVec 8)
    (vm : Vm) : Option (Int × Vm) :=
  copyBack buf count.toNat (L.read fd count) junk vm

/-- `kernel_stat`. -/
def kernelStat (L : HostFiles) (path stats : U64) (junk : Nat → BitVec 8) (vm : Vm) :
    Option (Int × Vm) := do
  let file ← readVirtualCstr path vm
  match file with
  | none => some (-1, vm)
  | some file => copyBack stats sizeofStat (L.stat file) junk vm

/-- `kernel_fstat`. -/
def kernelFstat (L : HostFiles) (fd : BitVec 32) (stats : U64) (junk : Nat → BitVec 8) (vm : Vm) :
    Option (Int × Vm) :=
  copyBack stats sizeofStat (L.fstat fd) junk vm

/-- The calls that fill a local buffer. -/
inductive FillCall where
  | read (fd : BitVec 32) (buf count : U64)
  | stat (path stats : U64)
  | fstat (fd : BitVec 32) (stats : U64)

/-- The value that a call returns and the guest's memory after it. -/
def FillCall.run (L : HostFiles) (junk : Nat → BitVec 8) (vm : Vm) :
    FillCall → Option (Int × Vm)
  | .read fd buf count => kernelRead L fd buf count junk vm
  | .stat path stats => kernelStat L path stats junk vm
  | .fstat fd stats => kernelFstat L fd stats junk vm

/-! ## How far the copy gets -/

section Copy

variable {addr : U64} {source source' : Nat → BitVec 8} {vm : Vm}

theorem pageBytes_pos (addr : U64) {left : Nat} (h : left ≠ 0) :
    0 < pageBytes addr left ∧ pageBytes addr left ≤ left ∧ pageBytes addr left ≤ 4096 := by
  rw [pageBytes]
  omega

/-- The number of bytes that the loop has written when it ends. -/
def reached (addr : U64) (source : Nat → BitVec 8) : Nat → Nat → Nat → Vm → Nat
  | 0, written, _, _ => written
  | fuel + 1, written, left, vm =>
      if left = 0 then written
      else match getPhysAddr (addr + BitVec.ofNat 64 written) vm with
        | none => written
        | some phys =>
            let n := pageBytes (addr + BitVec.ofNat 64 written) left
            reached addr source fuel (written + n) (left - n)
              (vm.memcpy (fun i => source (written + i)) n phys)

theorem reached_bounds (addr : U64) (source : Nat → BitVec 8) (fuel : Nat) :
    ∀ (written left : Nat) (vm : Vm),
    written ≤ reached addr source fuel written left vm ∧
      reached addr source fuel written left vm ≤ written + left := by
  induction fuel with
  | zero => intro written left vm; simp [reached]
  | succ fuel ih =>
      intro written left vm
      rw [reached]
      by_cases hleft : left = 0
      · simp [hleft]
      · rw [if_neg hleft]
        cases getPhysAddr (addr + BitVec.ofNat 64 written) vm with
        | none => simp
        | some phys =>
            obtain ⟨hpos, hle, -⟩ := pageBytes_pos (addr + BitVec.ofNat 64 written) hleft
            obtain ⟨h1, h2⟩ := ih (written + pageBytes (addr + BitVec.ofNat 64 written) left)
              (left - pageBytes (addr + BitVec.ofNat 64 written) left)
              (vm.memcpy (fun i => source (written + i))
                (pageBytes (addr + BitVec.ofNat 64 written) left) phys)
            exact ⟨by simp only; omega, by simp only; omega⟩

/-- Only the bytes that are reached matter. -/
theorem writeVirtualAddrLoop_congr (fuel : Nat) : ∀ (written left : Nat) (vm : Vm),
    (∀ i, i < reached addr source fuel written left vm → source i = source' i) →
    writeVirtualAddrLoop addr source fuel written left vm =
      writeVirtualAddrLoop addr source' fuel written left vm := by
  induction fuel with
  | zero => intro written left vm _; rfl
  | succ fuel ih =>
      intro written left vm h
      rw [writeVirtualAddrLoop, writeVirtualAddrLoop]
      by_cases hleft : left = 0
      · rw [if_pos hleft, if_pos hleft]
      · rw [if_neg hleft, if_neg hleft]
        rw [reached, if_neg hleft] at h
        cases hphys : getPhysAddr (addr + BitVec.ofNat 64 written) vm with
        | none => rfl
        | some phys =>
            rw [hphys] at h
            simp only at h ⊢
            obtain ⟨h1, -⟩ := reached_bounds addr source fuel
              (written + pageBytes (addr + BitVec.ofNat 64 written) left)
              (left - pageBytes (addr + BitVec.ofNat 64 written) left)
              (vm.memcpy (fun i => source (written + i))
                (pageBytes (addr + BitVec.ofNat 64 written) left) phys)
            rw [← Vm.memcpy_congr phys vm fun i hi => h (written + i) (by omega)]
            exact ih _ _ _ h

/-- A copy that gets no further leaves memory alone. -/
theorem writeVirtualAddrLoop_stop {fuel written left : Nat} (hf : left < fuel)
    (h : reached addr source fuel written left vm = written) :
    ∃ ok, writeVirtualAddrLoop addr source fuel written left vm = some (ok, vm) := by
  obtain ⟨fuel, rfl⟩ : ∃ n, fuel = n + 1 := ⟨fuel - 1, by omega⟩
  rw [writeVirtualAddrLoop]
  rw [reached] at h
  by_cases hleft : left = 0
  · exact ⟨true, if_pos hleft⟩
  · rw [if_neg hleft] at h ⊢
    cases hphys : getPhysAddr (addr + BitVec.ofNat 64 written) vm with
    | none => exact ⟨false, rfl⟩
    | some phys =>
        rw [hphys] at h
        simp only at h
        obtain ⟨hpos, -, -⟩ := pageBytes_pos (addr + BitVec.ofNat 64 written) hleft
        obtain ⟨h1, -⟩ := reached_bounds addr source fuel
          (written + pageBytes (addr + BitVec.ofNat 64 written) left)
          (left - pageBytes (addr + BitVec.ofNat 64 written) left)
          (vm.memcpy (fun i => source (written + i))
            (pageBytes (addr + BitVec.ofNat 64 written) left) phys)
        omega

/-- When the last byte that is reached changes, so does memory, unless the copy gets
further. -/
theorem writeVirtualAddrLoop_differ (fuel : Nat) : ∀ (written left : Nat) (vm : Vm) (k : Nat),
    left < fuel → written ≤ k → reached addr source fuel written left vm = k + 1 →
    (∀ i, i ≠ k → source' i = source i) → source' k ≠ source k →
    (writeVirtualAddrLoop addr source fuel written left vm).map Prod.snd ≠
        (writeVirtualAddrLoop addr source' fuel written left vm).map Prod.snd ∨
      k + 1 < reached addr source' fuel written left vm := by
  induction fuel with
  | zero => intro written left vm k h; omega
  | succ fuel ih =>
      intro written left vm k hf hwk hreach hsame hdiff
      by_cases hleft : left = 0
      · rw [reached, if_pos hleft] at hreach
        omega
      rw [writeVirtualAddrLoop, writeVirtualAddrLoop, if_neg hleft, if_neg hleft]
      rw [reached, if_neg hleft] at hreach ⊢
      cases hphys : getPhysAddr (addr + BitVec.ofNat 64 written) vm with
      | none =>
          rw [hphys] at hreach
          simp only at hreach
          omega
      | some phys =>
          rw [hphys] at hreach
          simp only at hreach ⊢
          obtain ⟨hpos, hle, hpage⟩ := pageBytes_pos (addr + BitVec.ofNat 64 written) hleft
          generalize pageBytes (addr + BitVec.ofNat 64 written) left = n at *
          rcases Nat.lt_or_ge k (written + n) with hk | hk
          · -- the byte is in this page, which is the last one
            have hlast := (reached_bounds addr source fuel (written + n)
              (left - n) (vm.memcpy (fun i => source (written + i)) n phys)).1
            have hkn : k + 1 = written + n := by omega
            rw [hkn] at hreach ⊢
            have hge := (reached_bounds addr source' fuel (written + n)
              (left - n) (vm.memcpy (fun i => source' (written + i)) n phys)).1
            rcases Nat.lt_or_ge (written + n) (reached addr source' fuel (written + n) (left - n)
              (vm.memcpy (fun i => source' (written + i)) n phys)) with hfar | hstop
            · exact Or.inr hfar
            · obtain ⟨ok, hrun⟩ := writeVirtualAddrLoop_stop (by omega) hreach
              obtain ⟨ok', hrun'⟩ := writeVirtualAddrLoop_stop (by omega)
                (Nat.le_antisymm hstop hge)
              refine Or.inl fun heq => hdiff ?_
              rw [hrun, hrun'] at heq
              have hvm := Option.some.inj heq
              simp only at hvm
              have h1 := Vm.byte_memcpy (fun i => source (written + i)) phys vm hpage
                (i := k - written) (by omega)
              have h2 := Vm.byte_memcpy (fun i => source' (written + i)) phys vm hpage
                (i := k - written) (by omega)
              rw [← hvm, h1] at h2
              simpa [show written + (k - written) = k by omega] using h2.symm
          · have hchunk : vm.memcpy (fun i => source (written + i)) n phys =
                vm.memcpy (fun i => source' (written + i)) n phys :=
              Vm.memcpy_congr phys vm fun i hi => (hsame (written + i) (by omega)).symm
            rw [hchunk] at hreach ⊢
            exact ih (written + n) (left - n) _ k (by omega) hk hreach hsame hdiff

/-- The copy of a buffer whose last byte reached is not one that the call has produced: with
another byte there memory differs, or the copy gets further. -/
theorem differ_or_further {size : Nat} {data : List (BitVec 8)} (junk : Nat → BitVec 8)
    (h : data.length < reached addr (localBuffer data junk) (size + 1) 0 size vm) :
    ∃ junk', (writeVirtualAddr addr (localBuffer data junk) size vm).map Prod.snd ≠
        (writeVirtualAddr addr (localBuffer data junk') size vm).map Prod.snd ∨
      reached addr (localBuffer data junk) (size + 1) 0 size vm <
        reached addr (localBuffer data junk') (size + 1) 0 size vm := by
  obtain ⟨k, hk⟩ : ∃ k, reached addr (localBuffer data junk) (size + 1) 0 size vm = k + 1 :=
    ⟨reached addr (localBuffer data junk) (size + 1) 0 size vm - 1, by omega⟩
  rw [hk] at h ⊢
  refine ⟨fun i => if i = k then junk k + 1#8 else junk i, ?_⟩
  refine writeVirtualAddrLoop_differ (size + 1) 0 size vm k (by omega) (Nat.zero_le k) hk
    (fun i hi => ?_) ?_
  · simp [localBuffer, hi]
  · have hnone : data[k]? = none := List.getElem?_eq_none (by omega)
    simp [localBuffer, List.getD, hnone]

/-- A copy that reaches a byte the call has not produced leaks it. -/
theorem leak_of_reached {size : Nat} {data : List (BitVec 8)} :
    ∀ (room : Nat) (junk : Nat → BitVec 8),
      size < reached addr (localBuffer data junk) (size + 1) 0 size vm + room →
      data.length < reached addr (localBuffer data junk) (size + 1) 0 size vm →
      ∃ junk₁ junk₂, (writeVirtualAddr addr (localBuffer data junk₁) size vm).map Prod.snd ≠
        (writeVirtualAddr addr (localBuffer data junk₂) size vm).map Prod.snd := by
  intro room
  induction room with
  | zero =>
      intro junk hroom _
      have := (reached_bounds addr (localBuffer data junk) (size + 1) 0 size vm).2
      omega
  | succ room ih =>
      intro junk hroom hd
      obtain ⟨junk', hdiff | hfar⟩ := differ_or_further junk hd
      · exact ⟨junk, junk', hdiff⟩
      · exact ih junk' (by omega) (by omega)

end Copy

/-! ## The bytes that the call has produced -/

/-- Copying the bytes that the call has produced stops before anything behind them: a page of
theirs is not mapped, or they end with a page and the next one is not mapped then. -/
def StopsBehind (addr : U64) (data : List (BitVec 8)) (vm : Vm) : Prop :=
  ∃ ok vm', writeVirtualAddr addr (fun i => data.getD i 0#8) data.length vm = some (ok, vm') ∧
    (ok = true → (data = [] ∨ (addr + BitVec.ofNat 64 data.length).toNat % 4096 = 0) ∧
      getPhysAddr (addr + BitVec.ofNat 64 data.length) vm' = none)

/-- Copying back does not show the buffer behind the bytes that the call has produced. -/
def CopyConfined (addr : U64) (size : Nat) (data : List (BitVec 8)) (vm : Vm) : Prop :=
  size ≤ data.length ∨ StopsBehind addr data vm

section Produced

variable {addr : U64} {source : Nat → BitVec 8}

/-- Where a step of `k` bytes from an address leads within pages. -/
theorem add_mod_page (addr : U64) (i k : Nat) :
    (addr + BitVec.ofNat 64 (i + k)).toNat % 4096 =
      ((addr + BitVec.ofNat 64 i).toNat % 4096 + k) % 4096 := by
  rw [BitVec.toNat_add, BitVec.toNat_add, BitVec.toNat_ofNat, BitVec.toNat_ofNat]
  omega

/-- The loop on the first `d` bytes and the loop on more of them go together up to there. -/
theorem reached_iff (addr : U64) (source : Nat → BitVec 8) (d fuel : Nat) :
    ∀ (written left fuel' : Nat) (vm : Vm),
    written ≤ d → d < written + left → d - written < fuel' → left < fuel →
    (written = 0 ∨ (addr + BitVec.ofNat 64 written).toNat % 4096 = 0) →
    (reached addr source fuel written left vm ≤ d ↔
      ∃ ok vm', writeVirtualAddrLoop addr source fuel' written (d - written) vm = some (ok, vm') ∧
        (ok = true → (d = 0 ∨ (addr + BitVec.ofNat 64 d).toNat % 4096 = 0) ∧
          getPhysAddr (addr + BitVec.ofNat 64 d) vm' = none)) := by
  induction fuel with
  | zero => intro written left fuel' vm _ _ _ h; omega
  | succ fuel ih =>
      intro written left fuel' vm hwd hdl hf' hf hbound
      obtain ⟨fuel', rfl⟩ : ∃ n, fuel' = n + 1 := ⟨fuel' - 1, by omega⟩
      have hleft : left ≠ 0 := by omega
      rw [reached, if_neg hleft, writeVirtualAddrLoop]
      by_cases hd : d - written = 0
      · -- the bytes are all copied: the next one is looked up
        obtain rfl : written = d := by omega
        rw [if_pos hd]
        cases hphys : getPhysAddr (addr + BitVec.ofNat 64 written) vm with
        | none => exact ⟨fun _ => ⟨true, vm, rfl, fun _ => ⟨hbound, hphys⟩⟩, fun _ => hwd⟩
        | some phys =>
            obtain ⟨hpos, -, -⟩ := pageBytes_pos (addr + BitVec.ofNat 64 written) hleft
            have hge := (reached_bounds addr source fuel
              (written + pageBytes (addr + BitVec.ofNat 64 written) left)
              (left - pageBytes (addr + BitVec.ofNat 64 written) left)
              (vm.memcpy (fun i => source (written + i))
                (pageBytes (addr + BitVec.ofNat 64 written) left) phys)).1
            refine ⟨fun h => ?_, ?_⟩
            · simp only at h
              omega
            · rintro ⟨ok, vm', heq, hno⟩
              obtain ⟨rfl, rfl⟩ := Prod.mk.inj (Option.some.inj heq)
              rw [hphys] at hno
              exact absurd (hno rfl).2 (by simp)
      · rw [if_neg hd]
        cases hphys : getPhysAddr (addr + BitVec.ofNat 64 written) vm with
        | none => exact ⟨fun _ => ⟨false, vm, rfl, by simp⟩, fun _ => hwd⟩
        | some phys =>
            simp only
            have hoff := Nat.mod_lt (addr + BitVec.ofNat 64 written).toNat
              (show 0 < 4096 by decide)
            by_cases hpage : 4096 - (addr + BitVec.ofNat 64 written).toNat % 4096 ≤ d - written
            · -- both copy the rest of the page
              have h1 : pageBytes (addr + BitVec.ofNat 64 written) left =
                  4096 - (addr + BitVec.ofNat 64 written).toNat % 4096 := by
                rw [pageBytes]
                omega
              have h2 : pageBytes (addr + BitVec.ofNat 64 written) (d - written) =
                  4096 - (addr + BitVec.ofNat 64 written).toNat % 4096 := by
                rw [pageBytes]
                omega
              rw [h1, h2, Nat.sub_sub]
              refine ih _ _ fuel' _ (by omega) (by omega) (by omega) (by omega) (Or.inr ?_)
              rw [add_mod_page]
              omega
            · -- the byte behind them is in the same page
              have h1 : d - written < pageBytes (addr + BitVec.ofNat 64 written) left := by
                rw [pageBytes]
                omega
              have h2 : pageBytes (addr + BitVec.ofNat 64 written) (d - written) = d - written := by
                rw [pageBytes]
                omega
              obtain ⟨fuel', rfl⟩ : ∃ n, fuel' = n + 1 := ⟨fuel' - 1, by omega⟩
              have hge := (reached_bounds addr source fuel
                (written + pageBytes (addr + BitVec.ofNat 64 written) left)
                (left - pageBytes (addr + BitVec.ofNat 64 written) left)
                (vm.memcpy (fun i => source (written + i))
                  (pageBytes (addr + BitVec.ofNat 64 written) left) phys)).1
              refine ⟨fun h => by omega, ?_⟩
              rintro ⟨ok, vm', heq, hno⟩
              rw [h2, Nat.sub_self, writeVirtualAddrLoop, if_pos rfl] at heq
              obtain ⟨rfl, -⟩ := Prod.mk.inj (Option.some.inj heq)
              have hmod := add_mod_page addr written (d - written)
              rw [show written + (d - written) = d by omega] at hmod
              rcases (hno rfl).1 with h | h
              · omega
              · omega

theorem stopsBehind_iff {data : List (BitVec 8)} {size : Nat} (hlt : data.length < size)
    (junk : Nat → BitVec 8) (vm : Vm) :
    reached addr (localBuffer data junk) (size + 1) 0 size vm ≤ data.length ↔
      StopsBehind addr data vm := by
  have hiff := reached_iff addr (localBuffer data junk) data.length
    (size + 1) 0 size (data.length + 1) vm (Nat.zero_le _) (by omega) (by omega) (by omega)
    (Or.inl rfl)
  have hsame : writeVirtualAddrLoop addr (localBuffer data junk) (data.length + 1) 0
      (data.length - 0) vm = writeVirtualAddr addr (fun i => data.getD i 0#8) data.length vm := by
    refine writeVirtualAddrLoop_congr _ _ _ _ fun i hi => ?_
    have hle := (reached_bounds addr (localBuffer data junk)
      (data.length + 1) 0 (data.length - 0) vm).2
    have hlen : i < data.length := by omega
    simp [localBuffer, List.getD, hlen]
  rw [hsame] at hiff
  rw [hiff, StopsBehind]
  simp only [List.length_eq_zero_iff]

/-- Copying back is the same for every buffer exactly when it is confined. -/
theorem copyBack_iff (size : Nat) (reply : Int × List (BitVec 8)) (vm : Vm) :
    (∀ junk junk', copyBack addr size reply junk vm = copyBack addr size reply junk' vm) ↔
      CopyConfined addr size reply.2 vm := by
  have hmem : ∀ junk, (copyBack addr size reply junk vm).map Prod.snd =
      (writeVirtualAddr addr (localBuffer reply.2 junk) size vm).map Prod.snd := by
    intro junk
    rw [copyBack, Option.map_map]
    rfl
  constructor
  · intro hall
    by_contra hno
    rw [CopyConfined, not_or, Nat.not_le] at hno
    have hreach : reply.2.length <
        reached addr (localBuffer reply.2 fun _ => 0#8) (size + 1) 0 size vm := by
      rw [← Nat.not_le, stopsBehind_iff hno.1]
      exact hno.2
    obtain ⟨junk₁, junk₂, hdiff⟩ := leak_of_reached (size + 1) (fun _ => 0#8) (by omega) hreach
    rw [← hmem, ← hmem] at hdiff
    exact hdiff (by rw [hall junk₁ junk₂])
  · intro hconf junk junk'
    rw [copyBack, copyBack]
    congr 1
    refine writeVirtualAddrLoop_congr _ _ _ _ fun i hi => ?_
    have hlen : i < reply.2.length := by
      have hle := (reached_bounds addr (localBuffer reply.2 junk)
        (size + 1) 0 size vm).2
      rcases Nat.lt_or_ge reply.2.length size with hlt | hge
      · have := (stopsBehind_iff hlt junk vm).mpr (hconf.resolve_left (by omega))
        omega
      · omega
    simp [localBuffer, List.getD, hlen]

end Produced

/-! ## Two executions -/

/-- A call puts nothing into guest memory that the host's call has not produced. -/
def FillCall.Confined (L : HostFiles) (vm : Vm) : FillCall → Prop
  | .read fd buf count => CopyConfined buf count.toNat (L.read fd count).2 vm
  | .stat path stats => ∀ file, readVirtualCstr path vm = some (some file) →
      CopyConfined stats sizeofStat (L.stat file).2 vm
  | .fstat fd stats => CopyConfined stats sizeofStat (L.fstat fd).2 vm

/-- **Host stack contents never leak to the guest** exactly when the host's call fills the
whole buffer, or copying back stops before the first byte it has not filled. -/
theorem noLeak_iff (L : HostFiles) (vm : Vm) (c : FillCall) :
    (∀ junk junk', c.run L junk vm = c.run L junk' vm) ↔ c.Confined L vm := by
  cases c with
  | read fd buf count => exact copyBack_iff count.toNat (L.read fd count) vm
  | fstat fd stats => exact copyBack_iff sizeofStat (L.fstat fd) vm
  | stat path stats =>
      simp only [FillCall.run, kernelStat, FillCall.Confined]
      cases hpath : readVirtualCstr path vm with
      | none => simp
      | some file =>
          cases file with
          | none => simp
          | some file =>
              simp only [Option.bind_eq_bind, Option.bind_some, Option.some.injEq, forall_eq']
              exact copyBack_iff sizeofStat (L.stat file) vm

/-- A machine with one page mapped, at `0x1000`, on frame 5. -/
def onePageVm : Vm where
  mem f i :=
    if f = 1 ∧ i = 0#64 then 0x2001#64
    else if f = 2 ∧ i = 0#64 then 0x3001#64
    else if f = 3 ∧ i = 0#64 then 0x4001#64
    else if f = 4 ∧ i = 1#64 then 0x5001#64
    else 0#64
  pageCounter := 10
  pml4Addr := 0x1000#64

/-- A host on which every read is short by some bytes and every `fstat` fails. -/
def shortFiles : HostFiles where
  read _ _ := (2, [0x68#8, 0x69#8])
  stat _ := (-1, [])
  fstat _ := (-1, [])

/-- A read of four bytes that yields two, and an `fstat` that fails: the guest sees the bytes
that were on the host's stack. -/
theorem short_read_leaks :
    ((FillCall.read 0#32 0x1000#64 4#64).run shortFiles (fun _ => 0x11#8) onePageVm ≠
      (FillCall.read 0#32 0x1000#64 4#64).run shortFiles (fun _ => 0x22#8) onePageVm) ∧
    ((FillCall.fstat 7#32 0x1000#64).run shortFiles (fun _ => 0x11#8) onePageVm ≠
      (FillCall.fstat 7#32 0x1000#64).run shortFiles (fun _ => 0x22#8) onePageVm) := by
  have hread : ∀ b, b = 0x11#8 ∨ b = 0x22#8 →
      ((FillCall.read 0#32 0x1000#64 4#64).run shortFiles (fun _ => b) onePageVm).map
        (fun x => x.2.byte 0x5002#64) = some b := by
    rintro b (rfl | rfl) <;> decide +kernel
  have hstat : ∀ b, b = 0x11#8 ∨ b = 0x22#8 →
      ((FillCall.fstat 7#32 0x1000#64).run shortFiles (fun _ => b) onePageVm).map
        (fun x => x.2.byte 0x5002#64) = some b := by
    rintro b (rfl | rfl) <;> decide +kernel
  constructor
  · intro heq
    have h := hread 0x11#8 (Or.inl rfl)
    rw [heq, hread 0x22#8 (Or.inr rfl)] at h
    exact absurd h (by decide)
  · intro heq
    have h := hstat 0x11#8 (Or.inl rfl)
    rw [heq, hstat 0x22#8 (Or.inr rfl)] at h
    exact absurd h (by decide)

end BufferVM
