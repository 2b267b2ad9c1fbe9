/-
  Kernel/UserStrings.lean --- the strings on the kernel's stack.

  What the host writes the kernel finds again: every string is in front of the zero byte that
  `strlen` looks for, and the pointers in the two arrays lead to the strings.
-/
import BufferVM.Kernel.StoreLink
import BufferVM.Kernel.UserLand

set_option autoImplicit false

namespace BufferVM

open ByteMem PtrTree PtrTree.PTree

variable {σ η : Type}

/-! ## Strings -/

section Strings

variable {m : GuestMem} {mapped : U64 → Bool}

theorem memcpy_eq (m : GuestMem) {dest src : U64} {n : Nat} (hdest : Fits dest n)
    (hsrc : Fits src n)
    (hapart : Apart dest n src n) : memcpy dest src n m = store m dest (load m src n) := by
  induction n with
  | zero => exact (store_nil m dest).symm
  | succ n ih =>
      rw [Fits] at hdest hsrc
      rw [Apart] at hapart
      have hsofar : memcpy dest src n m = store m dest (load m src n) := by
        apply ih
        · rw [Fits]
          omega
        · rw [Fits]
          omega
        · rw [Apart]
          omega
      have hoff := toNat_offset hsrc (Nat.lt_succ_self n)
      have hread : store m dest (load m src n) (offset src n) = m (offset src n) := by
        apply store_of_apart
        · rw [length_load, Fits]
          omega
        · rw [length_load]
          omega
      have hlen : Fits dest ((load m src n).length + [m (offset src n)].length) := by
        rw [length_load, List.length_singleton, Fits]
        exact hdest
      have happend := store_append m hlen
      rw [length_load, store_singleton] at happend
      rw [memcpy, hsofar, hread, happend, ← load_succ]

theorem strlenLoop_eq (l : List (BitVec 8)) (hl : 0#8 ∉ l) {a : U64} (h : BytesAt m a (l ++ [0#8]))
    {fuel : Nat} (hfuel : l.length < fuel) : strlenLoop m fuel a = some l.length := by
  induction l generalizing a fuel with
  | nil =>
      obtain ⟨n, rfl⟩ : ∃ n, fuel = n + 1 := ⟨fuel - 1, by rw [List.length_nil] at hfuel; omega⟩
      have hzero : m (offset a 0) = 0#8 := h 0 (by simp)
      rw [offset_zero] at hzero
      rw [strlenLoop, if_pos hzero]
      rfl
  | cons b l ih =>
      obtain ⟨n, rfl⟩ : ∃ n, fuel = n + 1 := ⟨fuel - 1, by rw [List.length_cons] at hfuel; omega⟩
      have hsplit : b :: l ++ [0#8] = [b] ++ (l ++ [0#8]) := rfl
      rw [hsplit, bytesAt_append] at h
      obtain ⟨hfirst, hrest⟩ := h
      have hb : m (offset a 0) = b := hfirst 0 (by simp)
      rw [offset_zero] at hb
      have hne : m a ≠ 0#8 := by
        rw [hb]
        exact fun hc => hl (hc ▸ List.mem_cons_self)
      have hn : l.length < n := by
        rw [List.length_cons] at hfuel
        omega
      have hrec := ih (fun hc => hl (List.mem_cons_of_mem b hc)) hrest hn
      rw [strlenLoop, if_neg hne]
      rw [List.length_singleton] at hrec
      rw [hrec]
      rfl

theorem strlen_eq (s : CString) {a : U64} (h : BytesAt m a s.bytes) (ha : a ≠ 0#64)
    (hlen : s.bytes.length < walkBound) : strlen m a = some s.1.length := by
  rw [strlen, if_neg ha]
  rw [CString.bytes, List.length_append] at hlen
  exact strlenLoop_eq s.1 s.2 h (by omega)

/-- The bytes of strings one behind the other. -/
def stringsBytes (strings : List CString) : List (BitVec 8) := strings.flatMap CString.bytes

/-- The addresses of strings one behind the other. -/
def stringAddrs : U64 → List CString → List U64
  | _, [] => []
  | a, s :: strings => a :: stringAddrs (offset a s.bytes.length) strings

@[simp] theorem length_stringAddrs (a : U64) (strings : List CString) :
    (stringAddrs a strings).length = strings.length := by
  induction strings generalizing a with
  | nil => rfl
  | cons s strings ih => rw [stringAddrs, List.length_cons, ih, List.length_cons]

theorem stringsBytes_cons (s : CString) (strings : List CString) :
    stringsBytes (s :: strings) = s.bytes ++ stringsBytes strings := List.flatMap_cons

/-- The string is at the pointer, and in the area. -/
structure StringIn (m : GuestMem) (low high : Nat) (p : U64) (s : CString) : Prop where
  bytes : BytesAt m p s.bytes
  low : low ≤ p.toNat
  high : p.toNat + s.bytes.length ≤ high

theorem StringIn.mono {m : GuestMem} {low high low' high' : Nat} {p : U64} {s : CString}
    (h : StringIn m low high p s) (hlow : low' ≤ low) (hhigh : high ≤ high') :
    StringIn m low' high' p s := ⟨h.bytes, hlow.trans h.low, h.high.trans hhigh⟩

/-- Every address is that of its string. -/
theorem stringIn_stringAddrs {a : U64} {strings : List CString}
    (h : BytesAt m a (stringsBytes strings))
    (hhigh : a.toNat + (stringsBytes strings).length < 2 ^ 64) :
    List.Forall₂ (StringIn m a.toNat (a.toNat + (stringsBytes strings).length))
      (stringAddrs a strings) strings := by
  induction strings generalizing a with
  | nil => exact List.Forall₂.nil
  | cons s strings ih =>
      rw [stringsBytes_cons, bytesAt_append] at h
      rw [stringsBytes_cons, List.length_append] at hhigh ⊢
      have hfits : Fits a (s.bytes.length + 1) := by
        rw [Fits]
        omega
      have hoff := toNat_offset hfits (Nat.lt_succ_self _)
      have hrest := ih h.2 (by omega)
      apply List.Forall₂.cons
      · exact ⟨h.1, le_rfl, by omega⟩
      · exact hrest.imp fun p s hp => hp.mono (by omega) (by omega)

theorem ne_null_of_stringIn {ptrs : List U64} {strings : List CString} {low high : Nat}
    (h : List.Forall₂ (StringIn m low high) ptrs strings) (hlow : 0 < low) :
    ∀ p ∈ ptrs, p ≠ 0#64 := by
  induction h with
  | nil => exact fun p hp => absurd hp List.not_mem_nil
  | cons hs _ ih =>
      intro p hp
      rcases List.mem_cons.mp hp with heq | hmem
      · intro hzero
        have hle := hs.low
        rw [← heq, hzero] at hle
        exact absurd hle (Nat.not_le.mpr hlow)
      · exact ih p hmem

/-! ## The host's writes -/

/-- The pages of a run are mapped. -/
def MappedRun (mapped : U64 → Bool) (a : U64) (n : Nat) : Prop :=
  ∀ x : U64, a.toNat ≤ x.toNat → x.toNat < a.toNat + n → mapped x = true

theorem writePages_eq (fuel : Nat) {a : U64} {bs : List (BitVec 8)} (hfuel : bs.length < fuel)
    (hfits : Fits a bs.length) (hmapped : MappedRun mapped a bs.length) (m : GuestMem) :
    writePages mapped fuel a bs m = (true, store m a bs) := by
  induction fuel generalizing a bs m with
  | zero => exact absurd hfuel (Nat.not_lt_zero _)
  | succ fuel ih =>
      rw [writePages]
      by_cases hnil : bs = []
      · subst hnil
        rw [if_pos rfl, store_nil]
      · have hpos : 0 < bs.length := List.length_pos_iff.mpr hnil
        have hfirst : mapped a = true := hmapped a le_rfl (by omega)
        rw [if_neg hnil, hfirst, if_neg (by simp)]
        simp only
        generalize hn : min (4096 - a.toNat % 4096) bs.length = n
        have hn1 : 0 < n := by omega
        have hn2 : n ≤ bs.length := by omega
        have htake : (bs.take n).length = n := List.length_take_of_le hn2
        have hdrop : (bs.drop n).length = bs.length - n := List.length_drop
        have happend : store (store m a (bs.take n)) (offset a n) (bs.drop n) = store m a bs := by
          have hlen : Fits a ((bs.take n).length + (bs.drop n).length) := by
            rw [htake, hdrop, Nat.add_sub_cancel' hn2]
            exact hfits
          have happend := store_append m hlen
          rw [htake, List.take_append_drop] at happend
          exact happend
        rw [← happend]
        by_cases hend : n = bs.length
        · have hempty : bs.drop n = [] := by rw [hend, List.drop_length]
          rw [hempty, store_nil]
          cases fuel with
          | zero => omega
          | succ fuel => rw [writePages, if_pos rfl]
        · have hoff := toNat_offset hfits (i := n) (by omega)
          rw [Fits] at hfits
          apply ih
          · omega
          · rw [Fits]
            omega
          · intro x hx hx'
            exact hmapped x (by omega) (by omega)

theorem hostWrite_eq {a : U64} {bs : List (BitVec 8)} (hfits : Fits a bs.length)
    (hmapped : MappedRun mapped a bs.length) (m : GuestMem) :
    hostWrite mapped a bs m = (true, store m a bs) :=
  writePages_eq _ (Nat.lt_succ_self _) hfits hmapped m

/-! ## Stack pointers -/

theorem toNat_stackAlloc {sp : U64} {n : Nat} (h : n ≤ sp.toNat) :
    (stackAlloc sp n).toNat = sp.toNat - n := by
  have hsp := sp.isLt
  rw [stackAlloc, BitVec.toNat_sub, BitVec.toNat_ofNat, Nat.mod_eq_of_lt (show n < 2 ^ 64 by omega)]
  omega

theorem fits_stackAlloc {sp : U64} {n : Nat} (h : n ≤ sp.toNat) : Fits (stackAlloc sp n) n := by
  have hsp := sp.isLt
  rw [Fits, toNat_stackAlloc h]
  omega

theorem stackAlloc_stackAlloc (sp : U64) (k n : Nat) :
    stackAlloc (stackAlloc sp k) n = stackAlloc sp (n + k) := by
  rw [stackAlloc, stackAlloc, stackAlloc, BitVec.ofNat_add]
  bv_omega

theorem offset_stackAlloc (sp : U64) (n : Nat) : offset (stackAlloc sp n) n = sp := by
  rw [offset, stackAlloc, BitVec.sub_add_cancel]

/-- The end of a run that has been reserved below another. -/
theorem offset_stackAlloc_add (sp : U64) (k n : Nat) :
    offset (stackAlloc sp (n + k)) n = stackAlloc sp k := by
  rw [← stackAlloc_stackAlloc, offset_stackAlloc]

/-- One string is written below those that come after it. -/
theorem pushStrings_cons {mapped : U64 → Bool} {s : CString} {strings : List CString}
    {ksp ksp₁ : U64} {m m₁ m₂ : GuestMem} {ptrs : List U64}
    (hrest : pushStrings mapped strings ksp m = some (ptrs, ksp₁, m₁))
    (hwrite : hostWrite mapped (stackAlloc ksp₁ s.bytes.length) s.bytes m₁ = (true, m₂)) :
    pushStrings mapped (s :: strings) ksp m =
      some (stackAlloc ksp₁ s.bytes.length :: ptrs, stackAlloc ksp₁ s.bytes.length, m₂) := by
  rw [stackAlloc] at hwrite
  simp only [pushStrings, hrest, hwrite, Option.bind_eq_bind, Option.bind_some, if_true, stackAlloc]

/-- The strings that `run` writes. -/
theorem pushStrings_spec (mapped : U64 → Bool) (strings : List CString) (ksp : U64) (m : GuestMem)
    (hroom : (stringsBytes strings).length ≤ ksp.toNat)
    (hmapped : MappedRun mapped (stackAlloc ksp (stringsBytes strings).length)
      (stringsBytes strings).length) :
    ∃ m', pushStrings mapped strings ksp m =
        some (stringAddrs (stackAlloc ksp (stringsBytes strings).length) strings,
          stackAlloc ksp (stringsBytes strings).length, m') ∧
      BytesAt m' (stackAlloc ksp (stringsBytes strings).length) (stringsBytes strings) ∧
      KeepsOutside m m' (stackAlloc ksp (stringsBytes strings).length)
        (stringsBytes strings).length := by
  induction strings generalizing m with
  | nil =>
      have hbase : stackAlloc ksp (stringsBytes []).length = ksp := BitVec.sub_zero ksp
      rw [hbase]
      exact ⟨m, rfl, bytesAt_nil m ksp, fun _ _ => rfl⟩
  | cons s strings ih =>
      rw [stringsBytes_cons, List.length_append] at hroom hmapped ⊢
      generalize hk : (stringsBytes strings).length = k at *
      generalize hn : s.bytes.length = n at *
      have hlow := toNat_stackAlloc hroom
      have hmid := toNat_stackAlloc (show k ≤ ksp.toNat by omega)
      have hfits := fits_stackAlloc hroom
      have hmidfits := fits_stackAlloc (show k ≤ ksp.toNat by omega)
      obtain ⟨m₁, hrun, hbytes, hkeep⟩ := ih m (by omega) fun x hx hx' =>
        hmapped x (by omega) (by omega)
      have hn' : Fits (stackAlloc ksp (n + k)) s.bytes.length := by
        rw [hn, Fits, hlow]
        omega
      have hwrite := hostWrite_eq hn' (fun x hx hx' => hmapped x hx (by omega)) m₁
      have hkeep₂ := keepsOutside_store m₁ hn'
      refine ⟨store m₁ (stackAlloc ksp (n + k)) s.bytes, ?_, ?_, ?_⟩
      · have hplace : stackAlloc (stackAlloc ksp k) s.bytes.length = stackAlloc ksp (n + k) := by
          rw [hn, stackAlloc_stackAlloc]
        rw [pushStrings_cons hrun (hplace.symm ▸ hwrite), hplace, stringAddrs, hn,
          offset_stackAlloc_add]
      · rw [bytesAt_append]
        refine ⟨bytesAt_store m₁ (by rw [Fits] at hn'; omega), ?_⟩
        rw [hn, offset_stackAlloc_add]
        refine hbytes.keeps hkeep₂ (hk.symm ▸ hmidfits) (Or.inr ?_)
        omega
      · exact (hkeep.mono (by omega) (by omega)).trans (hkeep₂.mono le_rfl (by omega))

/-! ## What the kernel reads -/

theorem wordsBytes_append (vs ws : List U64) :
    wordsBytes (vs ++ ws) = wordsBytes vs ++ wordsBytes ws :=
  List.flatMap_append

theorem loadWords_eq {a : U64} {ptrs rest : List U64}
    (h : BytesAt m a (wordsBytes (ptrs ++ rest))) :
    loadWords m a ptrs.length = ptrs := by
  apply List.ext_getElem
  · simp [loadWords]
  · intro i hi hi'
    have hword := h.word (i := i) (by rw [List.length_append]; omega)
    rw [List.getElem_append_left hi'] at hword
    rw [← hword]
    simp [loadWords]

theorem countEnvp_eq {a : U64} {ptrs : List U64} (h : BytesAt m a (wordsBytes (ptrs ++ [0#64])))
    (hptrs : ∀ p ∈ ptrs, p ≠ 0#64) {fuel : Nat} (hfuel : ptrs.length < fuel) :
    countEnvp m fuel a = some ptrs.length := by
  induction ptrs generalizing a fuel with
  | nil =>
      obtain ⟨n, rfl⟩ : ∃ n, fuel = n + 1 := ⟨fuel - 1, by rw [List.length_nil] at hfuel; omega⟩
      have hword : loadWord m (offset a (8 * 0)) = 0#64 := h.word (by simp)
      rw [Nat.mul_zero, offset_zero] at hword
      rw [countEnvp, if_pos hword]
      rfl
  | cons p ptrs ih =>
      obtain ⟨n, rfl⟩ : ∃ n, fuel = n + 1 := ⟨fuel - 1, by rw [List.length_cons] at hfuel; omega⟩
      have hsplit : wordsBytes (p :: ptrs ++ [0#64]) = wordBytes p ++ wordsBytes (ptrs ++ [0#64]) :=
        List.flatMap_cons
      rw [hsplit, bytesAt_append, length_wordBytes] at h
      have hne : loadWord m a ≠ 0#64 := by
        rw [loadWord_of_bytesAt h.1]
        exact hptrs p List.mem_cons_self
      have hn : ptrs.length < n := by
        rw [List.length_cons] at hfuel
        omega
      rw [countEnvp, if_neg hne, ih h.2 (fun q hq => hptrs q (List.mem_cons_of_mem p hq)) hn]
      rfl

/-- The strings that `load_user_land` reserves. -/
theorem reserveStrings_eq {ptrs : List U64} {strings : List CString}
    (h : List.Forall₂ (fun p s => BytesAt m p s.bytes) ptrs strings) (hptrs : ∀ p ∈ ptrs, p ≠ 0#64)
    (hlen : (stringsBytes strings).length < walkBound) (esp : U64) :
    reserveStrings m ptrs esp =
      some (stringAddrs (stackAlloc esp (stringsBytes strings).length) strings,
        (stringsBytes strings).length, stackAlloc esp (stringsBytes strings).length) := by
  induction h with
  | nil =>
      have hbase : stackAlloc esp (stringsBytes []).length = esp := BitVec.sub_zero esp
      rw [hbase]
      rfl
  | @cons p s ptrs strings hp _ ih =>
      rw [stringsBytes_cons, List.length_append] at hlen ⊢
      have hrest := ih (fun q hq => hptrs q (List.mem_cons_of_mem p hq)) (by omega)
      have hstr := strlen_eq s hp (hptrs p List.mem_cons_self) (by omega)
      have hsize : s.1.length + 1 = s.bytes.length := by
        rw [CString.bytes, List.length_append, List.length_singleton]
      rw [reserveStrings, hrest]
      simp only [Option.bind_eq_bind, Option.bind_some, hstr, hsize]
      rw [stackAlloc_stackAlloc, stringAddrs, offset_stackAlloc_add, Nat.add_comm s.bytes.length]

/-! ## What the kernel writes -/

theorem putWords_putWords {x : U64 × GuestMem} (vs ws : List U64)
    (h : Fits x.1 (8 * (vs.length + ws.length))) :
    putWords ws (putWords vs x) = putWords (vs ++ ws) x := by
  have hfits : Fits x.1 ((wordsBytes vs).length + (wordsBytes ws).length) := by
    rw [length_wordsBytes, length_wordsBytes, ← Nat.mul_add]
    exact h
  have happend := store_append x.2 hfits
  rw [length_wordsBytes] at happend
  rw [putWords, putWords, putWords, happend, offset_offset, ← Nat.mul_add, wordsBytes_append,
    List.length_append]

/-- The loop that writes the auxiliary vector. -/
theorem foldl_putWords {x : U64 × GuestMem} (us vs : List U64)
    (h : Fits x.1 (8 * (us.length + vs.length))) :
    vs.foldl (fun x v => putWords [v] x) (putWords us x) = putWords (us ++ vs) x := by
  induction vs using List.reverseRecOn with
  | nil => rw [List.foldl_nil, List.append_nil]
  | append_singleton vs v ih =>
      rw [List.length_append, List.length_singleton] at h
      have hvs : Fits x.1 (8 * (us.length + vs.length)) := by
        rw [Fits] at h ⊢
        omega
      have hlast : Fits x.1 (8 * ((us ++ vs).length + [v].length)) := by
        rw [List.length_append, List.length_singleton, Nat.add_assoc]
        exact h
      rw [List.foldl_append, ih hvs, List.foldl_cons, List.foldl_nil, putWords_putWords _ _ hlast,
        List.append_assoc]

end Strings

/-! ## The layout on the kernel's stack -/

/-- The bytes that the strings and the arrays take on the kernel's stack. -/
def kernelStackBytes (argv envp : List CString) : Nat :=
  ((stringsBytes argv).length + (stringsBytes envp).length + 7) / 8 * 8 +
    8 * (argv.length + (envp.length + 1))

/-- The strings and the arrays are in an area. -/
structure KernelArgs.Laid (k : KernelArgs) (low high : Nat) (argvAt envpAt : U64)
    (argv envp : List CString) : Prop where
  argvStrings : BytesAt k.mem argvAt (stringsBytes argv)
  envpStrings : BytesAt k.mem envpAt (stringsBytes envp)
  argvPtrs : BytesAt k.mem k.argvStart (wordsBytes (stringAddrs argvAt argv))
  envpPtrs : BytesAt k.mem k.envpStart (wordsBytes (stringAddrs envpAt envp ++ [0#64]))
  argvLow : low ≤ argvAt.toNat
  envpLow : low ≤ envpAt.toNat
  argvPtrsLow : low ≤ k.argvStart.toNat
  envpPtrsLow : low ≤ k.envpStart.toNat
  argvHigh : argvAt.toNat + (stringsBytes argv).length ≤ high
  envpHigh : envpAt.toNat + (stringsBytes envp).length ≤ high
  argvPtrsHigh : k.argvStart.toNat + 8 * argv.length ≤ high
  envpPtrsHigh : k.envpStart.toNat + 8 * (envp.length + 1) ≤ high
  high_lt : high < 2 ^ 64

/-- The kernel may change what is not in the area. -/
theorem KernelArgs.Laid.congr {k : KernelArgs} {low high : Nat} {argvAt envpAt : U64}
    {argv envp : List CString} (h : k.Laid low high argvAt envpAt argv envp) {m : GuestMem}
    (hm : ∀ x : U64, low ≤ x.toNat → x.toNat < high → m x = k.mem x) :
    ({ k with mem := m } : KernelArgs).Laid low high argvAt envpAt argv envp := by
  obtain ⟨h1, h2, h3, h4, hlow1, hlow2, hlow3, hlow4, hhigh1, hhigh2, hhigh3, hhigh4, hlt⟩ := h
  have hlen3 : (wordsBytes (stringAddrs argvAt argv)).length = 8 * argv.length := by
    rw [length_wordsBytes, length_stringAddrs]
  have hlen4 : (wordsBytes (stringAddrs envpAt envp ++ [0#64])).length = 8 * (envp.length + 1) := by
    rw [length_wordsBytes, List.length_append, length_stringAddrs, List.length_singleton]
  refine ⟨?_, ?_, ?_, ?_, hlow1, hlow2, hlow3, hlow4, hhigh1, hhigh2, hhigh3, hhigh4, hlt⟩
  · exact h1.congr (by rw [Fits]; omega) fun x hx hx' => hm x (by omega) (by omega)
  · exact h2.congr (by rw [Fits]; omega) fun x hx hx' => hm x (by omega) (by omega)
  · exact h3.congr (by rw [Fits]; omega) fun x hx hx' => hm x (by omega) (by omega)
  · exact h4.congr (by rw [Fits]; omega) fun x hx hx' => hm x (by omega) (by omega)

theorem toNat_p2Align_minAlign (x : U64) : (p2Align x minAlign).toNat = x.toNat / 8 * 8 := by
  have hmask : -minAlign = BitVec.allOnes 64 <<< 3 := by decide
  rw [p2Align, hmask]
  exact toNat_and_allOnes_shiftLeft x 3

/-- The kernel's stack: 20 pages that end at a page. -/
def kernelStackSize : Nat := 20 * 4096

/-- One block is written below another: both are there then, and so is what lies above them. -/
theorem hostWrite_below {mapped : U64 → Bool} {a b : U64} {as bs : List (BitVec 8)} (m : GuestMem)
    (hfits : Fits a as.length) (hfits' : Fits b bs.length) (hbelow : b.toNat + bs.length ≤ a.toNat)
    (hmapped : MappedRun mapped a as.length) (hmapped' : MappedRun mapped b bs.length) :
    BytesAt (hostWrite mapped b bs (hostWrite mapped a as m).2).2 a as ∧
      BytesAt (hostWrite mapped b bs (hostWrite mapped a as m).2).2 b bs ∧
      ∀ (c : U64) (cs : List (BitVec 8)), BytesAt m c cs → Fits c cs.length →
        a.toNat + as.length ≤ c.toNat →
        BytesAt (hostWrite mapped b bs (hostWrite mapped a as m).2).2 c cs := by
  rw [hostWrite_eq hfits hmapped, hostWrite_eq hfits' hmapped']
  have hkeep := keepsOutside_store m hfits
  have hkeep' := keepsOutside_store (store m a as) hfits'
  refine ⟨(bytesAt_store m (by rw [Fits] at hfits; omega)).keeps hkeep' hfits
    (by rw [Apart]; omega), bytesAt_store _ (by rw [Fits] at hfits'; omega),
    fun c cs hc hcfits hle => ?_⟩
  exact (hc.keeps hkeep hcfits (by rw [Apart]; omega)).keeps hkeep' hcfits (by rw [Apart]; omega)

theorem runArgs_spec {mapped : U64 → Bool} {kspMax : U64} {argv envp : List CString} (m : GuestMem)
    (hpage : kspMax.toNat % 4096 = 0) (hstack : kernelStackSize ≤ kspMax.toNat)
    (hmapped : MappedRun mapped (stackAlloc kspMax kernelStackSize) kernelStackSize)
    (hfit : kernelStackBytes argv envp ≤ kernelStackSize) :
    ∃ k argvAt envpAt, runArgs mapped kspMax argv envp m = some k ∧
      k.Laid (kspMax.toNat - kernelStackSize) kspMax.toNat argvAt envpAt argv envp := by
  rw [kernelStackBytes] at hfit
  have hlow := toNat_stackAlloc hstack
  generalize hA : (stringsBytes argv).length = A at hfit
  generalize hV : (stringsBytes envp).length = V at hfit
  have hargvAt := toNat_stackAlloc (show A ≤ kspMax.toNat by omega)
  have henvpAt := toNat_stackAlloc (show V ≤ (stackAlloc kspMax A).toNat by omega)
  have hargvFits := fits_stackAlloc (show A ≤ kspMax.toNat by omega)
  have henvpFits := fits_stackAlloc (show V ≤ (stackAlloc kspMax A).toNat by omega)
  -- the strings
  obtain ⟨m₁, hrun₁, hbytes₁, -⟩ := pushStrings_spec mapped argv kspMax m
    (by omega) (by rw [hA]; exact fun x hx hx' => hmapped x (by omega) (by omega))
  rw [hA] at hrun₁ hbytes₁
  obtain ⟨m₂, hrun₂, hbytes₂, hkeep₂⟩ := pushStrings_spec mapped envp
    (stackAlloc kspMax A) m₁ (by omega)
    (by rw [hV]; exact fun x hx hx' => hmapped x (by omega) (by omega))
  rw [hV] at hrun₂ hbytes₂ hkeep₂
  -- the arrays
  generalize hksp : p2Align (stackAlloc (stackAlloc kspMax A) V) minAlign = ksp
  have hkspNat := toNat_p2Align_minAlign (stackAlloc (stackAlloc kspMax A) V)
  rw [hksp] at hkspNat
  have hargvStart := toNat_stackAlloc (show 8 * argv.length ≤ ksp.toNat by omega)
  have hargvPtrsFits := fits_stackAlloc (show 8 * argv.length ≤ ksp.toNat by omega)
  generalize hstart : stackAlloc ksp (8 * argv.length) = argvStart at hargvStart hargvPtrsFits
  have henvpStart := toNat_stackAlloc (show 8 * (envp.length + 1) ≤ argvStart.toNat by omega)
  have henvpPtrsFits := fits_stackAlloc (show 8 * (envp.length + 1) ≤ argvStart.toNat by omega)
  generalize hestart : stackAlloc argvStart (8 * (envp.length + 1)) =
    envpStart at henvpStart henvpPtrsFits
  have hlen₃ : (wordsBytes (stringAddrs (stackAlloc kspMax A) argv)).length = 8 * argv.length := by
    rw [length_wordsBytes, length_stringAddrs]
  have hlen₄ : (wordsBytes (stringAddrs (stackAlloc (stackAlloc kspMax A) V) envp ++
      [0#64])).length =
      8 * (envp.length + 1) := by
    rw [length_wordsBytes, List.length_append, length_stringAddrs, List.length_singleton]
  generalize hwords₃ : wordsBytes (stringAddrs (stackAlloc kspMax A) argv) = bs₃ at hlen₃
  generalize hwords₄ : wordsBytes (stringAddrs (stackAlloc (stackAlloc kspMax A) V) envp ++
    [0#64]) = bs₄
    at hlen₄
  have hfits₃ : Fits argvStart bs₃.length := by
    rw [hlen₃]
    exact hargvPtrsFits
  have hfits₄ : Fits envpStart bs₄.length := by
    rw [hlen₄]
    exact henvpPtrsFits
  obtain ⟨hptrs, heptrs, habove⟩ := hostWrite_below m₂ hfits₃ hfits₄ (by omega)
    (by rw [hlen₃]; exact fun x hx hx' => hmapped x (by omega) (by omega))
    (by rw [hlen₄]; exact fun x hx hx' => hmapped x (by omega) (by omega))
  generalize hm₄ : (hostWrite mapped envpStart bs₄ (hostWrite mapped argvStart bs₃ m₂).2).2 = m₄
    at hptrs heptrs habove
  -- nothing is written over
  have hargv₂ := hbytes₁.keeps hkeep₂ (by rw [hA]; exact hargvFits) (by rw [Apart, hA]; omega)
  have hargv₄ := habove _ _ hargv₂ (by rw [hA]; exact hargvFits) (by omega)
  have henvp₄ := habove _ _ hbytes₂ (by rw [hV]; exact henvpFits) (by omega)
  refine ⟨⟨argvStart, envpStart, m₄⟩, stackAlloc kspMax A, stackAlloc (stackAlloc kspMax A) V,
    ?_, ?_⟩
  · rw [runArgs, hrun₁]
    simp only [Option.bind_eq_bind, Option.bind_some, hrun₂, hksp]
    show some (KernelArgs.mk (stackAlloc ksp (8 * argv.length))
      (stackAlloc (stackAlloc ksp (8 * argv.length)) (8 * (envp.length + 1)))
      (hostWrite mapped (stackAlloc (stackAlloc ksp (8 * argv.length)) (8 * (envp.length + 1)))
        (wordsBytes (stringAddrs (stackAlloc (stackAlloc kspMax A) V) envp ++ [0#64]))
        (hostWrite mapped (stackAlloc ksp (8 * argv.length))
          (wordsBytes (stringAddrs (stackAlloc kspMax A) argv)) m₂).2).2) = _
    rw [hstart, hestart, hwords₃, hwords₄, hm₄]
  · refine ⟨hargv₄, henvp₄, hwords₃ ▸ hptrs, hwords₄ ▸ heptrs, by omega, by omega, ?_, ?_,
      by omega, by omega, ?_, ?_, kspMax.isLt⟩
    · show kspMax.toNat - kernelStackSize ≤ argvStart.toNat
      omega
    · show kspMax.toNat - kernelStackSize ≤ envpStart.toNat
      omega
    · show argvStart.toNat + 8 * argv.length ≤ kspMax.toNat
      omega
    · show envpStart.toNat + 8 * (envp.length + 1) ≤ kspMax.toNat
      omega

end BufferVM
