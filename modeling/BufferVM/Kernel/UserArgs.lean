/-
  Kernel/UserArgs.lean --- the program finds its arguments.

  The stack grows by the bytes that are needed before anything is written to it; the strings,
  the random bytes and the words for the program are then one above the other in its VMA.
-/
import BufferVM.Kernel.UserStrings
import BufferVM.Kernel.WellFormed

set_option autoImplicit false

namespace BufferVM

open ByteMem PtrTree PtrTree.PTree

variable {σ η : Type}

/-! ## The user's stack -/

/-- The limit that `kernel_main` gives `user_stack_init`. -/
def stackPageLimit : U64 := 16000#64

/-- The stack as `user_stack_init` leaves it, in a store that is well formed. -/
structure StackReady (s : St σ η) : Prop where
  wellFormed : WellFormed s
  mem : s.glob.userStackVma ∈ s.nodes
  endAddr : (s.region s.glob.userStackVma).endAddr = s.glob.userStackStart
  align : s.glob.userStackStart.toNat % 4096 = 0
  limit : s.glob.userStackPageLimit = stackPageLimit
  room : 16000 * 4096 ≤ s.glob.userStackStart.toNat

theorem growStart_le {start addr : U64} (halign : start.toNat % 4096 = 0) (hle : addr ≤ start)
    (hroom : start.toNat ≤ addr.toNat + 15999 * 4096) (hstart : 16000 * 4096 ≤ start.toNat) :
    (growStart addr).toNat ≤ addr.toNat ∧
      ¬ stackPageLimit < pageDifference start (growStart addr) := by
  have hs := start.isLt
  have hle' := BitVec.le_def.mp hle
  have hpage : (pageAlign addr).toNat = (addr.toNat + 4095) / 4096 * 4096 := by
    rw [toNat_pageAlign]
    omega
  have hval : (growStart addr).toNat = (addr.toNat + 4095) / 4096 * 4096 - 4096 := by
    rw [growStart, BitVec.toNat_sub, hpage, pageSize, BitVec.toNat_ofNat]
    omega
  constructor
  · omega
  · have hlimit : stackPageLimit.toNat = 16000 := rfl
    rw [BitVec.lt_def, toNat_pageDifference, BitVec.toNat_sub, hval, hlimit]
    omega

/-- `grow_stack` lowers the start of the stack to the page of the address, or by one more. -/
theorem growStack_spec {s : St σ η} (E : Env σ η) (h : StackReady s) {addr : U64}
    (hle : addr ≤ s.glob.userStackStart)
    (hroom : s.glob.userStackStart.toNat ≤ addr.toNat + 15999 * 4096) :
    ∃ t, growStack E s.glob.userStackVma addr s = some (0, t) ∧
      t.glob.userStackVma = s.glob.userStackVma ∧
      (t.region s.glob.userStackVma).startAddr ≤ addr ∧
      (t.region s.glob.userStackVma).endAddr = s.glob.userStackStart := by
  obtain ⟨hstart, hlimit⟩ := growStart_le h.align hle hroom h.room
  obtain ⟨a, hshape, hnodes, -⟩ := h.wellFormed.tree
  have hend := h.endAddr
  generalize hp : s.glob.userStackVma = p at *
  have hmem : p ∈ a.toList := by
    rw [hnodes, ← hp]
    exact h.mem
  have hne : p ≠ 0#64 := hshape.ne_null p hmem
  generalize hu : St.setRegion s p { s.region p with startAddr := growStart addr } = u
  have hushape :
      Shape ({ u with glob := { u.glob with userStackPage := growStart addr } } : St σ η).rbLinks
        0#64 u.vmaRbRoot a := by
    have htree := s.tree_setRegion p { s.region p with startAddr := growStart addr }
    rw [hu] at htree
    show Shape u.rbLinks 0#64 u.vmaRbRoot a
    rw [St.rbLinks_of_tree htree, St.root_of_tree htree]
    exact hshape
  have hnd : a.toList.Nodup := by
    rw [hnodes]
    exact h.wellFormed.sorted.nodup
  obtain ⟨v, hrun, hgap, -⟩ := vmaGapUpdate_spec hushape hnd hmem
  have hregion : v.region p = { s.region p with startAddr := growStart addr } := by
    rw [St.region_of_base hgap.base]
    show u.region p = _
    rw [← hu, St.region_setRegion, if_pos rfl]
  have hglob : v.glob = { u.glob with userStackPage := growStart addr } :=
    congrArg (fun x => x.2.2.2.2.2) hgap.base
  refine ⟨kernelMapVma E p v, ?_, ?_, ?_, ?_⟩
  · rw [growStack, h.limit, if_neg hlimit]
    simp only [hu, deref_of_ne _ hne, Option.bind_eq_bind, Option.bind_some, hrun]
  · show v.glob.userStackVma = p
    rw [hglob, ← hu]
    exact hp
  · rw [kernelMapVma]
    show ((v.setRegion p _).region p).startAddr ≤ addr
    rw [St.region_setRegion, if_pos rfl, VmRegion.mapped_startAddr, hregion]
    exact BitVec.le_def.mpr hstart
  · rw [kernelMapVma]
    show ((v.setRegion p _).region p).endAddr = _
    rw [St.region_setRegion, if_pos rfl, VmRegion.mapped_endAddr, hregion]
    exact hend

/-! ## The start of the program -/

@[simp] theorem length_auxEntries (info : ElfInfo) (randomBytes : U64) :
    (auxEntries info randomBytes).length = 16 := by
  simp [auxEntries, newAuxEntry, maxAuxEntries]

theorem toNat_stackRound (sp : U64) : (stackRound sp).toNat = sp.toNat / 16 * 16 := by
  have hmask : ~~~15#64 = BitVec.allOnes 64 <<< 4 := by decide
  rw [stackRound, hmask]
  exact toNat_and_allOnes_shiftLeft sp 4

/-- The words from the stack pointer up. -/
def startWords (info : ElfInfo) (randomBytes : U64) (argvPtrs envpPtrs : List U64) : List U64 :=
  [BitVec.ofNat 64 argvPtrs.length] ++ argvPtrs ++ [0#64] ++ envpPtrs ++ [0#64] ++
    auxEntries info randomBytes ++ [0#64, 0#64]

/-- The program finds its arguments: the words from the stack pointer up, the random bytes and
the strings are one above the other in the VMA of the stack. -/
structure UserStart.Intact (u : UserStart σ η) (info : ElfInfo) (argv envp : List CString)
    (argvPtrs envpPtrs : List U64) (randomBytes : U64) (stringsLow : Nat) : Prop where
  aligned : u.esp.toNat % 16 = 0
  words : BytesAt u.mem u.esp (wordsBytes (startWords info randomBytes argvPtrs envpPtrs))
  argvStrings : List.Forall₂ (StringIn u.mem stringsLow
    (u.store.region u.store.glob.userStackVma).endAddr.toNat) argvPtrs argv
  envpStrings : List.Forall₂ (StringIn u.mem stringsLow
    (u.store.region u.store.glob.userStackVma).endAddr.toNat) envpPtrs envp
  start_le : (u.store.region u.store.glob.userStackVma).startAddr ≤ u.esp
  words_le : u.esp.toNat + 8 * (startWords info randomBytes argvPtrs envpPtrs).length ≤
    randomBytes.toNat
  random_le : randomBytes.toNat + 16 ≤ stringsLow
  strings_le : stringsLow ≤ (u.store.region u.store.glob.userStackVma).endAddr.toNat

@[simp] theorem length_startWords (info : ElfInfo) (randomBytes : U64)
    (argvPtrs envpPtrs : List U64) :
    (startWords info randomBytes argvPtrs envpPtrs).length = argvPtrs.length + envpPtrs.length +
    21 := by
  simp only [startWords, List.length_append, length_auxEntries, List.length_cons, List.length_nil]
  omega

/-- One `memcpy` copies the strings of an array, since they are one behind the other. -/
theorem memcpy_strings {m : GuestMem} {array a dest : U64} {strings : List CString}
    {rest : List U64}
    (hptrs : BytesAt m array (wordsBytes (stringAddrs a strings ++ rest)))
    (hbytes : BytesAt m a (stringsBytes strings)) (hfits : Fits a (stringsBytes strings).length)
    (hdest : Fits dest (stringsBytes strings).length)
    (hapart : Apart dest (stringsBytes strings).length a (stringsBytes strings).length) :
    memcpy dest (loadWord m array) (stringsBytes strings).length m =
      store m dest (stringsBytes strings) := by
  cases strings with
  | nil => exact (store_nil m dest).symm
  | cons s strings =>
      have hword := hptrs.word (i := 0) (by simp [stringAddrs])
      rw [Nat.mul_zero, offset_zero] at hword
      have hfirst : loadWord m array = a := hword
      rw [hfirst, memcpy_eq m hdest hfits hapart, hbytes.load]

/-- What is written from the stack pointer up. -/
theorem putWords_startWords (info : ElfInfo) (randomBytes : U64) (argvPtrs envpPtrs : List U64)
    {x : U64 × GuestMem} (h : Fits x.1 (8 * (argvPtrs.length + envpPtrs.length + 21))) :
    (let x' := (auxEntries info randomBytes).foldl (fun x entry => putWords [entry] x)
      (putWords [0#64] (putWords envpPtrs (putWords [0#64] (putWords argvPtrs
        (putWords [BitVec.ofNat 64 argvPtrs.length] x)))))
    store x'.2 x'.1 (List.replicate 16 0#8)) =
      store x.2 x.1 (wordsBytes (startWords info randomBytes argvPtrs envpPtrs)) := by
  rw [startWords]
  have hfits : ∀ us vs : List U64, us.length + vs.length ≤ argvPtrs.length + envpPtrs.length + 21 →
      Fits x.1 (8 * (us.length + vs.length)) := by
    intro us vs hle
    rw [Fits] at h ⊢
    omega
  have hzeros : List.replicate 16 0#8 = wordsBytes [0#64, 0#64] := by decide
  generalize BitVec.ofNat 64 argvPtrs.length = argc
  have hargv := putWords_putWords (x := x) [argc] argvPtrs
    (hfits _ _ (by simp only [List.length_singleton]; omega))
  have hnull := putWords_putWords (x := x) ([argc] ++ argvPtrs) [0#64]
    (hfits _ _ (by simp only [List.length_append, List.length_singleton]; omega))
  have henvp := putWords_putWords (x := x) ([argc] ++ argvPtrs ++ [0#64]) envpPtrs
    (hfits _ _ (by simp only [List.length_append, List.length_singleton]; omega))
  have hnull' := putWords_putWords (x := x) ([argc] ++ argvPtrs ++ [0#64] ++ envpPtrs) [0#64]
    (hfits _ _ (by simp only [List.length_append, List.length_singleton]; omega))
  have haux := foldl_putWords (x := x) ([argc] ++ argvPtrs ++ [0#64] ++ envpPtrs ++ [0#64])
    (auxEntries info randomBytes)
    (hfits _ _ (by simp only [List.length_append, List.length_singleton, length_auxEntries]; omega))
  have hend := putWords_putWords (x := x)
    ([argc] ++ argvPtrs ++ [0#64] ++ envpPtrs ++ [0#64] ++ auxEntries info randomBytes) [0#64, 0#64]
    (hfits _ _ (by
      simp only [List.length_append, List.length_cons, List.length_nil, length_auxEntries]
      omega))
  rw [hargv, hnull, henvp, hnull', haux, hzeros]
  exact congrArg Prod.snd hend

/-- The strings are copied, and the words are below them. -/
theorem writeUserLand_spec {k : KernelArgs} {argv envp : List CString} {argvAt envpAt : U64}
    {low high : Nat}
    (info : ElfInfo) (hk : k.Laid low high argvAt envpAt argv envp)
    (argvU envpU randomBytes esp : U64)
    (hargv : argvU.toNat + (stringsBytes argv).length ≤ low)
    (henvp : envpU.toNat + (stringsBytes envp).length ≤ argvU.toNat)
    (hesp : esp.toNat + 8 * (argv.length + envp.length + 21) ≤ envpU.toNat) :
    ∃ m', writeUserLand argv.length k.argvStart k.envpStart (stringAddrs argvU argv)
        (stringAddrs envpU envp) (auxEntries info randomBytes) argvU
          (stringsBytes argv).length envpU
        (stringsBytes envp).length esp k.mem = m' ∧
      BytesAt m' argvU (stringsBytes argv) ∧ BytesAt m' envpU (stringsBytes envp) ∧
      BytesAt m' esp (wordsBytes (startWords info randomBytes (stringAddrs argvU argv)
        (stringAddrs envpU envp))) := by
  have hargvLow := hk.argvLow
  have henvpLow := hk.envpLow
  have henvpPtrsLow := hk.envpPtrsLow
  have hargvHigh := hk.argvHigh
  have henvpHigh := hk.envpHigh
  have hlow := argvAt.isLt
  have hhigh := hk.high_lt
  have hargvFits : Fits argvAt (stringsBytes argv).length := hargvHigh.trans hhigh.le
  have henvpFits : Fits envpAt (stringsBytes envp).length := henvpHigh.trans hhigh.le
  have henvpPtrsFits : Fits k.envpStart (8 * (envp.length + 1)) := hk.envpPtrsHigh.trans hhigh.le
  have hargvUFits : Fits argvU (stringsBytes argv).length := by
    rw [Fits]
    omega
  have henvpUFits : Fits envpU (stringsBytes envp).length := by
    rw [Fits]
    omega
  -- the strings of `argv`
  have hargvPtrs := hk.argvPtrs
  rw [← List.append_nil (stringAddrs argvAt argv)] at hargvPtrs
  have hcopy₁ := memcpy_strings hargvPtrs hk.argvStrings hargvFits hargvUFits
    (by rw [Apart]; omega)
  have hbytes₁ : BytesAt (store k.mem argvU (stringsBytes argv)) argvU (stringsBytes argv) :=
    bytesAt_store k.mem (by omega)
  have hkeep₁ := keepsOutside_store k.mem hargvUFits
  generalize store k.mem argvU (stringsBytes argv) = m₁ at hcopy₁ hbytes₁ hkeep₁
  -- the strings of `envp`
  have henvpPtrs := hk.envpPtrs.keeps hkeep₁
    (by rw [length_wordsBytes, List.length_append, length_stringAddrs]; exact henvpPtrsFits)
    (by rw [Apart]; omega)
  have henvpStrings := hk.envpStrings.keeps hkeep₁ henvpFits (by rw [Apart]; omega)
  have hcopy₂ := memcpy_strings henvpPtrs henvpStrings henvpFits henvpUFits (by rw [Apart]; omega)
  have hbytes₂ : BytesAt (store m₁ envpU (stringsBytes envp)) envpU (stringsBytes envp) :=
    bytesAt_store m₁ (by omega)
  have hkeep₂ := keepsOutside_store m₁ henvpUFits
  generalize store m₁ envpU (stringsBytes envp) = m₂ at hcopy₂ hbytes₂ hkeep₂
  -- the words
  have hlen : (wordsBytes (startWords info randomBytes (stringAddrs argvU argv)
      (stringAddrs envpU envp))).length = 8 * (argv.length + envp.length + 21) := by
    rw [length_wordsBytes, length_startWords, length_stringAddrs, length_stringAddrs]
  have hwords := putWords_startWords info randomBytes (stringAddrs argvU argv)
    (stringAddrs envpU envp)
    (x := (esp, m₂)) (by
      rw [length_stringAddrs, length_stringAddrs]
      show esp.toNat + _ ≤ _
      omega)
  generalize wordsBytes (startWords info randomBytes (stringAddrs argvU argv)
      (stringAddrs envpU envp)) = bs at hlen hwords ⊢
  have hfits₃ : Fits esp bs.length := by
    rw [Fits]
    omega
  have hkeep₃ := keepsOutside_store m₂ hfits₃
  refine ⟨store m₂ esp bs, ?_, ?_, ?_, bytesAt_store m₂ (by omega)⟩
  · rw [length_stringAddrs] at hwords
    simp only [writeUserLand, hcopy₁, hcopy₂]
    exact hwords
  · have hargv₂ := hbytes₁.keeps hkeep₂ hargvUFits (by rw [Apart]; omega)
    exact hargv₂.keeps hkeep₃ hargvUFits (by rw [Apart]; omega)
  · exact hbytes₂.keeps hkeep₃ henvpUFits (by rw [Apart]; omega)

/-- `load_user_land` on arguments that the host has laid out above the user's stack. -/
theorem loadUserLand_spec {s : St σ η} (E : Env σ η) (info : ElfInfo) {k : KernelArgs}
    {argv envp : List CString} {argvAt envpAt : U64} {low high : Nat} (hready : StackReady s)
    (hk : k.Laid low high argvAt envpAt argv envp) (hlow : s.glob.userStackStart.toNat ≤ low)
    (hfit : kernelStackBytes argv envp ≤ kernelStackSize) :
    ∃ u argvPtrs envpPtrs randomBytes stringsLow,
      loadUserLand E s.glob.userStackStart info argv.length k.argvStart k.envpStart k.mem s =
        some u ∧
        u.Intact info argv envp argvPtrs envpPtrs randomBytes stringsLow := by
  have hroom := hready.room
  have hstart := s.glob.userStackStart.isLt
  generalize hesp₀ : s.glob.userStackStart = esp₀ at *
  rw [kernelStackBytes, kernelStackSize] at hfit
  have hargvLow := hk.argvLow
  have henvpLow := hk.envpLow
  -- what the kernel reads
  have hargvIn := stringIn_stringAddrs hk.argvStrings (hk.argvHigh.trans_lt hk.high_lt)
  have henvpIn := stringIn_stringAddrs hk.envpStrings (hk.envpHigh.trans_lt hk.high_lt)
  have hargvNull := ne_null_of_stringIn hargvIn (by omega)
  have henvpNull := ne_null_of_stringIn henvpIn (by omega)
  have hargvPtrs := hk.argvPtrs
  rw [← List.append_nil (stringAddrs argvAt argv)] at hargvPtrs
  have hargvLoad := loadWords_eq hargvPtrs
  have henvpLoad := loadWords_eq hk.envpPtrs
  rw [length_stringAddrs] at hargvLoad henvpLoad
  have hbound : walkBound = 2 ^ 64 := rfl
  have hcount : countEnvp k.mem walkBound k.envpStart = some (stringAddrs envpAt envp).length :=
    countEnvp_eq hk.envpPtrs henvpNull (by rw [length_stringAddrs]; omega)
  rw [length_stringAddrs] at hcount
  -- what it reserves
  have hreserve₁ := reserveStrings_eq (hargvIn.imp fun _ _ h => h.bytes) hargvNull (by omega) esp₀
  have hargvNat := toNat_stackAlloc (show (stringsBytes argv).length ≤ esp₀.toNat by omega)
  generalize stackAlloc esp₀ (stringsBytes argv).length = argvU at hreserve₁ hargvNat
  have hreserve₂ := reserveStrings_eq (henvpIn.imp fun _ _ h => h.bytes) henvpNull (by omega) argvU
  have henvpNat := toNat_stackAlloc (show (stringsBytes envp).length ≤ argvU.toNat by omega)
  generalize stackAlloc argvU (stringsBytes envp).length = envpU at hreserve₂ henvpNat
  have hrandomNat := toNat_stackAlloc (show 16 ≤ envpU.toNat by omega)
  generalize hrandom : stackAlloc envpU 16 = randomBytes at hrandomNat
  have hauxNat := toNat_stackAlloc (show (16 + 2) * 8 ≤ randomBytes.toNat by omega)
  generalize haux : stackAlloc randomBytes ((16 + 2) * 8) = auxLow at hauxNat
  generalize hitems : ((argv.length + 1) + (envp.length + 1) + 1) * 8 = items
  have hitemsNat := toNat_stackAlloc (show items ≤ auxLow.toNat by omega)
  have hespNat := toNat_stackRound (stackAlloc auxLow items)
  generalize hesp : stackRound (stackAlloc auxLow items) = esp at hespNat
  have hle : esp ≤ s.glob.userStackStart := by
    rw [hesp₀]
    exact BitVec.le_def.mpr (by omega)
  obtain ⟨t, hgrow, hglob, hregion, hend⟩ := growStack_spec E hready hle (by rw [hesp₀]; omega)
  rw [hesp₀] at hend
  -- what it writes
  obtain ⟨m', hwrite, hargv, henvp, hwords⟩ :=
      writeUserLand_spec info hk argvU envpU randomBytes esp
    (by omega) (by omega) (by omega)
  refine ⟨⟨esp, m', t⟩, stringAddrs argvU argv, stringAddrs envpU envp, randomBytes, envpU.toNat,
    ?_, ?_⟩
  · rw [loadUserLand, hcount]
    simp only [Option.bind_eq_bind, Option.bind_some, hargvLoad, henvpLoad, hreserve₁, hreserve₂,
      hrandom, length_auxEntries, haux, hitems, hesp, hgrow, hwrite]
  · have hargvU := stringIn_stringAddrs hargv (by omega)
    have henvpU := stringIn_stringAddrs henvp (by omega)
    have hendNat : (t.region t.glob.userStackVma).endAddr.toNat = esp₀.toNat := by
      rw [hglob, hend]
    constructor
    · show esp.toNat % 16 = 0
      omega
    · exact hwords
    · exact hargvU.imp fun p s hp => hp.mono (by omega) (hendNat ▸ by omega)
    · exact henvpU.imp fun p s hp => hp.mono le_rfl (hendNat ▸ by omega)
    · show (t.region t.glob.userStackVma).startAddr ≤ esp
      rw [hglob]
      exact hregion
    · rw [length_startWords, length_stringAddrs, length_stringAddrs]
      show esp.toNat + _ ≤ _
      omega
    · omega
    · show envpU.toNat ≤ (t.region t.glob.userStackVma).endAddr.toNat
      omega

/-- The program receives what `run` was given, whatever else the kernel has written before. -/
theorem arguments_intact {mapped : U64 → Bool} {kspMax : U64} {argv envp : List CString}
    {s : St σ η}
    (E : Env σ η) (info : ElfInfo) (m : GuestMem) (hpage : kspMax.toNat % 4096 = 0)
    (hmapped : MappedRun mapped (stackAlloc kspMax kernelStackSize) kernelStackSize)
    (hfit : kernelStackBytes argv envp ≤ kernelStackSize) (hready : StackReady s)
    (hbelow : s.glob.userStackStart.toNat + kernelStackSize ≤ kspMax.toNat) :
    ∃ k, runArgs mapped kspMax argv envp m = some k ∧
      ∀ m' : GuestMem, (∀ x : U64, kspMax.toNat - kernelStackSize ≤ x.toNat → x.toNat <
        kspMax.toNat →
          m' x = k.mem x) →
        ∃ u argvPtrs envpPtrs randomBytes stringsLow,
          loadUserLand E s.glob.userStackStart info argv.length k.argvStart k.envpStart m' s =
            some u ∧
            u.Intact info argv envp argvPtrs envpPtrs randomBytes stringsLow := by
  obtain ⟨k, argvAt, envpAt, hrun, hlaid⟩ := runArgs_spec m hpage
    ((Nat.le_add_left _ _).trans hbelow) hmapped hfit
  refine ⟨k, hrun, fun m' hm' => ?_⟩
  have hlaid' := hlaid.congr hm'
  have hlow : s.glob.userStackStart.toNat ≤ kspMax.toNat - kernelStackSize :=
      Nat.le_sub_of_add_le hbelow
  obtain ⟨u, argvPtrs, envpPtrs, randomBytes, stringsLow, hload, hintact⟩ :=
    loadUserLand_spec E info hready hlaid' hlow hfit
  simp only at hload
  exact ⟨u, argvPtrs, envpPtrs, randomBytes, stringsLow, hload, hintact⟩

/-! ## A stack of one page -/

/-- A store with the first page of a stack that starts at page `16000`. -/
def stackStore : St (Nat × List Ptr) Unit :=
  let node : VmArea :=
    { VmArea.zero with
      startAddr := 0x3e7f000#64
      endAddr := 0x3e80000#64
      flags := vmaGrows
      pageProt := vmaWrite ||| vmaRead
      fileInfo := nullFileInfo
      rbColor := .black
      rbSubtreeGap := 0x3e7f000#64 }
  { St.empty (1, [1#64]) ()
      { smallGlobals with
        userStackStart := 0x3e80000#64
        userStackPageLimit := stackPageLimit
        userStackVma := 1#64 } with
    vma := fun p => if p = 1#64 then node else VmArea.zero
    vmaRbRoot := 1#64
    vmaListStart := 1#64
    vmaHighestAddr := 0x3e80000#64 }

theorem nodes_stackStore : stackStore.nodes = [1#64] := by decide +kernel

theorem stackReady_stackStore : StackReady stackStore := by
  have hnodes := nodes_stackStore
  refine ⟨⟨?_, ?_, ⟨node leaf 1#64 leaf, ?_, hnodes.symm, ?_⟩, ?_⟩, ?_, ?_, ?_, rfl, ?_⟩
  · rw [hnodes]
    decide +kernel
  · rw [St.regions, hnodes]
    exact sorted_cons.mpr ⟨by decide, by simp, sorted_nil⟩
  · decide +kernel
  · decide +kernel
  · rw [hnodes]
    decide +kernel
  · rw [hnodes]
    exact List.mem_singleton.mpr rfl
  · decide +kernel
  · decide +kernel
  · decide +kernel

/-- `ls -l`. -/
def listArgs : List CString := [⟨[108#8, 115#8], by decide⟩, ⟨[45#8, 108#8], by decide⟩]

/-- A variable that is set, one that is empty, and the empty string. -/
def listEnv : List CString :=
  [⟨[65#8, 61#8, 49#8], by decide⟩, ⟨[66#8, 61#8], by decide⟩, ⟨[], by decide⟩]

theorem arguments_intact_stackStore :
    ∃ k, runArgs (fun _ => true) 0x3e94000#64 listArgs listEnv (fun _ => 0#8) = some k ∧
      ∀ m' : GuestMem, (∀ x : U64, (0x3e94000#64).toNat - kernelStackSize ≤ x.toNat →
          x.toNat < (0x3e94000#64).toNat → m' x = k.mem x) →
        ∃ u argvPtrs envpPtrs randomBytes stringsLow,
          loadUserLand quietEnv stackStore.glob.userStackStart
            ⟨0x1000#64, 0#64, 0x1000#64, 64#64, 2#64⟩
              2 k.argvStart k.envpStart m' stackStore = some u ∧
            u.Intact ⟨0x1000#64, 0#64, 0x1000#64, 64#64, 2#64⟩ listArgs listEnv argvPtrs envpPtrs
              randomBytes stringsLow :=
  arguments_intact quietEnv ⟨0x1000#64, 0#64, 0x1000#64, 64#64, 2#64⟩ (fun _ => 0#8) (by decide)
    (fun _ _ _ => rfl) (by decide) stackReady_stackStore (by decide)

end BufferVM
