/-
  Lib/X86Stack.lean --- the stack of entry code, and what calls and exceptions do to it.

  `Stack` names the words that the stack pointer is at.  One rule for each instruction says
  how they change, and the runs of pushes and pops that save registers are taken as one step.
  Two runs of bytes are apart when neither begins inside of the other, round the end of
  memory or not.
-/
import BufferVM.Lib.X86

set_option autoImplicit false

namespace BufferVM

namespace X86

open ByteMem

/-! ## Runs of bytes that are apart -/

/-- Neither of two runs of bytes begins inside of the other. -/
def Clear (a : Word) (n : Nat) (b : Word) (k : Nat) : Prop :=
  n ≤ (b - a).toNat ∧ k ≤ (a - b).toNat

instance (a : Word) (n : Nat) (b : Word) (k : Nat) : Decidable (Clear a n b k) :=
  inferInstanceAs (Decidable (_ ∧ _))

theorem Clear.symm {a b : Word} {n k : Nat} (h : Clear a n b k) : Clear b k a n := ⟨h.2, h.1⟩

theorem Clear.mono {a b : Word} {n k n' k' : Nat} (h : Clear a n b k) (hn : n' ≤ n) (hk : k' ≤ k) :
    Clear a n' b k' := ⟨hn.trans h.1, hk.trans h.2⟩

theorem toNat_offset_sub_of_lt {a b : Word} {i : Nat} (h : (b - a).toNat + i < 2 ^ 64) :
    (offset b i - a).toNat = (b - a).toNat + i := by
  have hsplit : offset b i - a = (b - a) + BitVec.ofNat 64 i := by
    rw [offset, BitVec.sub_eq_add_neg, BitVec.sub_eq_add_neg, BitVec.add_assoc, BitVec.add_assoc,
      BitVec.add_comm (BitVec.ofNat 64 i)]
  rw [hsplit, BitVec.toNat_add, BitVec.toNat_ofNat, Nat.add_mod_mod, Nat.mod_eq_of_lt h]

theorem toNat_sub_offset {a b : Word} {i : Nat} (h : i ≤ (b - a).toNat) :
    (b - offset a i).toNat = (b - a).toNat - i := by
  have hb := (b - a).isLt
  have hsplit : b - offset a i = (b - a) - BitVec.ofNat 64 i := by
    rw [offset, BitVec.sub_sub]
  have hi : (BitVec.ofNat 64 i).toNat = i := by
    rw [BitVec.toNat_ofNat, Nat.mod_eq_of_lt (by omega)]
  rw [hsplit, BitVec.toNat_sub_of_le (by rw [BitVec.le_def, hi]; exact h), hi]

/-- The two ways round. -/
theorem toNat_sub_comm {a b : Word} (h : 0 < (b - a).toNat) :
    (a - b).toNat = 2 ^ 64 - (b - a).toNat := by
  have hneg : a - b = -(b - a) := (neg_sub b a).symm
  have hb := (b - a).isLt
  rw [hneg, BitVec.toNat_neg, Nat.mod_eq_of_lt (by omega)]

/-- The byte at an offset of one run is not one of the other. -/
theorem Clear.le_offset {a b : Word} {n k i : Nat} (h : Clear a n b k) (hi : i < k) :
    n ≤ (offset b i - a).toNat := by
  obtain ⟨hn, hk⟩ := h
  have hcomm := toNat_sub_comm (a := b) (b := a) (by omega)
  have hb := (a - b).isLt
  rw [toNat_offset_sub_of_lt (by omega)]
  omega

/-- A part of a run. -/
theorem Clear.part {a b : Word} {n k i j : Nat} (h : Clear a n b k) (hj : 0 < j)
    (hi : i + j ≤ n) : Clear (offset a i) j b k := by
  obtain ⟨hn, hk⟩ := h
  have hcomm := toNat_sub_comm (a := a) (b := b) (by omega)
  have hb := (b - a).isLt
  constructor
  · rw [toNat_sub_offset (by omega)]
    omega
  · rw [toNat_offset_sub_of_lt (by omega)]
    omega

/-- What begins where a run ends. -/
theorem clear_offset (a : Word) {n k : Nat} (hn : 0 < n) (hlen : n + k ≤ 2 ^ 64) (hk : 0 < k) :
    Clear a n (offset a n) k := by
  have hdiff : (offset a n - a).toNat = n := toNat_offset_sub (by omega)
  constructor
  · exact hdiff.ge
  · rw [toNat_sub_comm (by omega), hdiff]
    omega

theorem store_of_clear (m : Word → BitVec 8) {a b : Word} {bs : List (BitVec 8)} {k i : Nat}
    (h : Clear a bs.length b k) (hi : i < k) : store m a bs (offset b i) = m (offset b i) := by
  rw [store, List.getElem?_eq_none (h.le_offset hi), Option.getD_none]

theorem load_store_of_clear (m : Word → BitVec 8) {a b : Word} {bs : List (BitVec 8)} {k : Nat}
    (h : Clear a bs.length b k) : load (store m a bs) b k = load m b k := by
  apply List.ext_getElem
  · simp
  · intro i hi _
    rw [length_load] at hi
    simp only [load, List.getElem_map, List.getElem_range]
    exact store_of_clear m h hi

theorem bytesAt_store_of_clear {m : Word → BitVec 8} {a b : Word} {bs cs : List (BitVec 8)}
    (hb : BytesAt m b cs) (h : 0 < cs.length → Clear a bs.length b cs.length) :
    BytesAt (store m a bs) b cs := by
  intro i hi
  rw [store_of_clear m (h (by omega)) hi]
  exact hb i hi

namespace Machine

variable {m m' : Machine}

theorem loadAt_storeAt_of_clear (m : Machine) {size size' : Width} {a b v : Word}
    (h : Clear a size.bytes b size'.bytes) :
    (m.storeAt size a v).loadAt size' b = m.loadAt size' b := by
  rw [loadAt, storeAt, mem_setMem, load_store_of_clear _ (by rwa [length_toBytes])]
  rfl

theorem loadAt_storeAt (m : Machine) (size : Width) (a v : Word) :
    (m.storeAt size a v).loadAt size a = trunc size v := by
  have hbytes : (toBytes size.bytes v.toNat).length ≤ 2 ^ 64 := by
    rw [length_toBytes]
    cases size <;> decide
  have hload := (bytesAt_store m.mem hbytes).load (a := a)
  rw [length_toBytes] at hload
  rw [loadAt, storeAt, mem_setMem, hload, fromBytes_toBytes, trunc]
  congr 2
  cases size <;> rfl

@[simp] theorem reg_storeAt (m : Machine) (size : Width) (a v : Word) :
    (m.storeAt size a v).reg = m.reg := rfl
@[simp] theorem rip_storeAt (m : Machine) (size : Width) (a v : Word) :
    (m.storeAt size a v).rip = m.rip := rfl
@[simp] theorem rflags_storeAt (m : Machine) (size : Width) (a v : Word) :
    (m.storeAt size a v).rflags = m.rflags := rfl
@[simp] theorem cs_storeAt (m : Machine) (size : Width) (a v : Word) :
    (m.storeAt size a v).cs = m.cs := rfl
@[simp] theorem ss_storeAt (m : Machine) (size : Width) (a v : Word) :
    (m.storeAt size a v).ss = m.ss := rfl
@[simp] theorem msr_storeAt (m : Machine) (size : Width) (a v : Word) :
    (m.storeAt size a v).msr = m.msr := rfl
@[simp] theorem cr2_storeAt (m : Machine) (size : Width) (a v : Word) :
    (m.storeAt size a v).cr2 = m.cr2 := rfl

@[simp] theorem rip_push (m : Machine) (v : Word) : (m.push v).rip = m.rip := rfl
@[simp] theorem rflags_push (m : Machine) (v : Word) : (m.push v).rflags = m.rflags := rfl
@[simp] theorem cs_push (m : Machine) (v : Word) : (m.push v).cs = m.cs := rfl
@[simp] theorem ss_push (m : Machine) (v : Word) : (m.push v).ss = m.ss := rfl
@[simp] theorem msr_push (m : Machine) (v : Word) : (m.push v).msr = m.msr := rfl
@[simp] theorem cr2_push (m : Machine) (v : Word) : (m.push v).cr2 = m.cr2 := rfl
@[simp] theorem reg_push (m : Machine) (v : Word) (r : Reg) :
    (m.push v).reg r = if r = .rsp then m.reg .rsp - 8#64 else m.reg r := rfl

@[simp] theorem rip_drop (m : Machine) : m.drop.rip = m.rip := rfl
@[simp] theorem rflags_drop (m : Machine) : m.drop.rflags = m.rflags := rfl
@[simp] theorem cs_drop (m : Machine) : m.drop.cs = m.cs := rfl
@[simp] theorem ss_drop (m : Machine) : m.drop.ss = m.ss := rfl
@[simp] theorem msr_drop (m : Machine) : m.drop.msr = m.msr := rfl
@[simp] theorem cr2_drop (m : Machine) : m.drop.cr2 = m.cr2 := rfl
@[simp] theorem mem_drop (m : Machine) : m.drop.mem = m.mem := rfl
@[simp] theorem reg_drop (m : Machine) (r : Reg) :
    m.drop.reg r = if r = .rsp then m.reg .rsp + 8#64 else m.reg r := rfl

/-! ## The words on the stack -/

/-- The words on the stack, from the top on. -/
def Stack (m : Machine) (vs : List Word) : Prop := BytesAt m.mem (m.reg .rsp) (wordsBytes vs)

theorem Stack.congr {vs : List Word} (h : m.Stack vs) (hreg : m'.reg .rsp = m.reg .rsp)
    (hmem : m'.mem = m.mem) : m'.Stack vs := by
  rw [Stack, hreg, hmem]
  exact h

theorem stack_nil (m : Machine) : m.Stack [] := bytesAt_nil _ _

theorem sub_eight_add (a : Word) : offset (a - 8#64) 8 = a := by
  rw [offset]
  exact BitVec.sub_add_cancel a 8#64

/-- A push puts its word on top. -/
theorem Stack.push {vs : List Word} (h : m.Stack vs) (hlen : 8 * vs.length + 8 ≤ 2 ^ 64)
    (v : Word) : (m.push v).Stack (v :: vs) := by
  rw [Stack, show wordsBytes (v :: vs) = wordBytes v ++ wordsBytes vs from rfl, bytesAt_append,
    length_wordBytes]
  have hrsp : (m.push v).reg .rsp = m.reg .rsp - 8#64 := rfl
  have hmem : (m.push v).mem = store m.mem (m.reg .rsp - 8#64) (wordBytes v) := rfl
  rw [hrsp, hmem, sub_eight_add]
  refine ⟨bytesAt_store _ (by rw [length_wordBytes]; decide),
    bytesAt_store_of_clear h fun hpos => ?_⟩
  rw [length_wordsBytes] at hpos
  have hclear := clear_offset (m.reg .rsp - 8#64) (n := 8) (by omega)
    (k := 8 * vs.length) (by omega) hpos
  rw [sub_eight_add] at hclear
  rwa [length_wordBytes, length_wordsBytes]

theorem Stack.top {v : Word} {vs : List Word} (h : m.Stack (v :: vs)) : m.top = v := by
  rw [Stack, show wordsBytes (v :: vs) = wordBytes v ++ wordsBytes vs from rfl,
    bytesAt_append] at h
  exact loadWord_of_bytesAt h.1

theorem Stack.drop {v : Word} {vs : List Word} (h : m.Stack (v :: vs)) : m.drop.Stack vs := by
  rw [Stack, show wordsBytes (v :: vs) = wordBytes v ++ wordsBytes vs from rfl, bytesAt_append,
    length_wordBytes] at h
  exact h.2

/-- A word further down is read. -/
theorem Stack.word {vs : List Word} (h : m.Stack vs) {i : Nat} (hi : i < vs.length) :
    loadWord m.mem (m.reg .rsp + BitVec.ofNat 64 (8 * i)) = vs[i] :=
  BytesAt.word h hi

theorem toBytes_low (n k x : Nat) : (toBytes (n + k) x).take n = toBytes n x := by
  induction n generalizing x with
  | zero => rfl
  | succ n ih => rw [Nat.succ_add, toBytes, List.take_succ_cons, ih, toBytes]

theorem load_take (m : Word → BitVec 8) (a : Word) {n k : Nat} (h : n ≤ k) :
    (load m a k).take n = load m a n := by
  rw [load, load, ← List.map_take, List.take_range, Nat.min_eq_left h]

/-- Half a word further down is read. -/
theorem Stack.half {vs : List Word} (h : m.Stack vs) {i : Nat} (hi : i < vs.length) :
    m.loadAt .l (m.reg .rsp + BitVec.ofNat 64 (8 * i)) = trunc .l vs[i] := by
  have hword : BytesAt m.mem (m.reg .rsp + BitVec.ofNat 64 (8 * i)) (wordBytes vs[i]) := by
    have hsplit : vs = vs.take i ++ vs[i] :: vs.drop (i + 1) := by
      rw [List.getElem_cons_drop, List.take_append_drop]
    have hall : BytesAt m.mem (m.reg .rsp) (wordsBytes (vs.take i ++ vs[i] :: vs.drop (i + 1))) :=
      hsplit ▸ h
    rw [wordsBytes, List.flatMap_append, List.flatMap_cons, bytesAt_append, bytesAt_append] at hall
    have hlen : (List.flatMap wordBytes (vs.take i)).length = 8 * i := by
      have hwords := length_wordsBytes (vs.take i)
      rwa [List.length_take, Nat.min_eq_left (Nat.le_of_lt hi)] at hwords
    rw [hlen] at hall
    exact hall.2.1
  have hload := hword.load
  rw [length_wordBytes] at hload
  have hlow := congrArg (List.take 4) hload
  rw [load_take _ _ (by decide), wordBytes, toBytes_low 4 4] at hlow
  rw [loadAt, show Width.bytes .l = 4 from rfl, hlow, fromBytes_toBytes, trunc]
  rfl

/-- A word further down is written. -/
theorem Stack.put {vs : List Word} (h : m.Stack vs) (hlen : 8 * vs.length ≤ 2 ^ 64) {i : Nat}
    (hi : i < vs.length) (v : Word) :
    (m.storeAt .q (m.reg .rsp + BitVec.ofNat 64 (8 * i)) v).Stack (vs.set i v) := by
  have hsplit : vs = vs.take i ++ vs[i] :: vs.drop (i + 1) := by
    rw [List.getElem_cons_drop, List.take_append_drop]
  have hset : vs.set i v = vs.take i ++ v :: vs.drop (i + 1) := by
    rw [List.set_eq_take_append_cons_drop, if_pos hi]
  have hwords : (List.flatMap wordBytes (vs.take i)).length = 8 * i := by
    have htake := length_wordsBytes (vs.take i)
    rwa [List.length_take, Nat.min_eq_left (Nat.le_of_lt hi)] at htake
  have hrest : (List.flatMap wordBytes (vs.drop (i + 1))).length = 8 * (vs.length - (i + 1)) := by
    have hdrop := length_wordsBytes (vs.drop (i + 1))
    rwa [List.length_drop] at hdrop
  have hall : BytesAt m.mem (m.reg .rsp) (wordsBytes (vs.take i ++ vs[i] :: vs.drop (i + 1))) :=
    hsplit ▸ h
  rw [wordsBytes, List.flatMap_append, List.flatMap_cons, bytesAt_append, bytesAt_append, hwords,
    length_wordBytes, offset_offset] at hall
  obtain ⟨hfirst, _, hlast⟩ := hall
  rw [Stack, hset, wordsBytes, List.flatMap_append, List.flatMap_cons, bytesAt_append,
    bytesAt_append, hwords, length_wordBytes, offset_offset, reg_storeAt]
  have hbytes : (toBytes Width.q.bytes v.toNat).length = 8 := length_toBytes 8 _
  refine ⟨bytesAt_store_of_clear hfirst fun hpos => ?_,
    bytesAt_store _ (by rw [hbytes]; decide), bytesAt_store_of_clear hlast fun hpos => ?_⟩
  · rw [hwords] at hpos ⊢
    rw [hbytes]
    exact (clear_offset (m.reg .rsp) hpos (by omega) (by omega)).symm
  · rw [hrest] at hpos ⊢
    rw [hbytes, ← offset_offset]
    exact clear_offset _ (by omega) (by omega) hpos

/-- Nothing at the stack has changed. -/
theorem Stack.keeps {vs : List Word} (h : m.Stack vs) (hrsp : m'.reg .rsp = m.reg .rsp)
    (hmem : ∀ i < 8 * vs.length, m'.mem (offset (m.reg .rsp) i) = m.mem (offset (m.reg .rsp) i)) :
    m'.Stack vs := by
  intro i hi
  rw [hrsp, hmem i (by rwa [← length_wordsBytes])]
  exact h i hi

/-- A write to a place apart from the stack. -/
theorem Stack.storeAt {vs : List Word} (h : m.Stack vs) {size : Width} {a v : Word}
    (hclear : Clear a size.bytes (m.reg .rsp) (8 * vs.length)) : (m.storeAt size a v).Stack vs := by
  refine h.keeps rfl fun i hi => ?_
  exact store_of_clear m.mem (by rwa [length_toBytes]) hi

/-- `iretq` takes its words from the stack. -/
theorem Stack.iret {rip cs flags rsp ss : Word} {vs : List Word}
    (h : m.Stack (rip :: cs :: flags :: rsp :: ss :: vs)) :
    m.iret = { (m.setReg .rsp rsp) with rip := rip, cs := cs, rflags := flags, ss := ss } := by
  have hword : ∀ {i : Nat} {v : Word},
      (rip :: cs :: flags :: rsp :: ss :: vs)[i]? = some v →
      loadWord m.mem (m.reg .rsp + BitVec.ofNat 64 (8 * i)) = v := by
    intro i v hv
    obtain ⟨hi, hget⟩ := List.getElem?_eq_some_iff.mp hv
    rw [h.word hi, hget]
  simp only [Machine.iret, hword (i := 0) rfl, hword (i := 1) rfl, hword (i := 2) rfl,
    hword (i := 3) rfl, hword (i := 4) rfl]

/-! ## Registers saved and restored -/

/-- Push these registers, in turn. -/
def pushAll (m : Machine) (rs : List Reg) : Machine := rs.foldl (fun m r => m.push (m.reg r)) m

/-- Pop these registers, in turn. -/
def popAll (m : Machine) (rs : List Reg) : Machine :=
  rs.foldl (fun m r => m.drop.setReg r m.top) m

@[simp] theorem pushAll_nil (m : Machine) : m.pushAll [] = m := rfl

theorem pushAll_cons (m : Machine) (r : Reg) (rs : List Reg) :
    m.pushAll (r :: rs) = (m.push (m.reg r)).pushAll rs := rfl

@[simp] theorem popAll_nil (m : Machine) : m.popAll [] = m := rfl

theorem popAll_cons (m : Machine) (r : Reg) (rs : List Reg) :
    m.popAll (r :: rs) = (m.drop.setReg r m.top).popAll rs := rfl

/-- What a run of pushes leaves as it is. -/
structure SameBut (m m' : Machine) : Prop where
  rip : m'.rip = m.rip
  rflags : m'.rflags = m.rflags
  cs : m'.cs = m.cs
  ss : m'.ss = m.ss
  msr : m'.msr = m.msr
  cr2 : m'.cr2 = m.cr2

theorem sameBut_pushAll (m : Machine) (rs : List Reg) : SameBut m (m.pushAll rs) := by
  induction rs generalizing m with
  | nil => exact ⟨rfl, rfl, rfl, rfl, rfl, rfl⟩
  | cons r rs ih =>
      obtain ⟨hrip, hflags, hcs, hss, hmsr, hcr2⟩ := ih (m.push (m.reg r))
      exact ⟨hrip, hflags, hcs, hss, hmsr, hcr2⟩

theorem sameBut_popAll (m : Machine) (rs : List Reg) : SameBut m (m.popAll rs) := by
  induction rs generalizing m with
  | nil => exact ⟨rfl, rfl, rfl, rfl, rfl, rfl⟩
  | cons r rs ih =>
      obtain ⟨hrip, hflags, hcs, hss, hmsr, hcr2⟩ := ih (m.drop.setReg r m.top)
      exact ⟨hrip, hflags, hcs, hss, hmsr, hcr2⟩

theorem reg_pushAll (m : Machine) (rs : List Reg) {r : Reg} (hr : r ≠ .rsp) :
    (m.pushAll rs).reg r = m.reg r := by
  induction rs generalizing m with
  | nil => rfl
  | cons q rs ih => rw [pushAll_cons, ih, reg_push, if_neg hr]

theorem rsp_pushAll (m : Machine) (rs : List Reg) :
    (m.pushAll rs).reg .rsp = m.reg .rsp - BitVec.ofNat 64 (8 * rs.length) := by
  induction rs generalizing m with
  | nil => exact (BitVec.sub_zero _).symm
  | cons q rs ih =>
      rw [pushAll_cons, ih, reg_push, if_pos rfl, List.length_cons, Nat.mul_succ, BitVec.ofNat_add,
        BitVec.sub_sub, BitVec.add_comm]

/-- What is pushed lies on the stack, the last one on top. -/
theorem Stack.pushAll {vs : List Word} (h : m.Stack vs) (rs : List Reg) (hrs : .rsp ∉ rs)
    (hlen : 8 * (rs.length + vs.length) ≤ 2 ^ 64) :
    (m.pushAll rs).Stack ((rs.map m.reg).reverse ++ vs) := by
  induction rs generalizing m vs with
  | nil => exact h
  | cons r rs ih =>
      have hrest : .rsp ∉ rs := fun hmem => hrs (List.mem_cons_of_mem _ hmem)
      rw [List.length_cons] at hlen
      have hnext := ih (h.push (by omega) (m.reg r)) hrest (by rw [List.length_cons]; omega)
      have hsame : rs.map (m.push (m.reg r)).reg = rs.map m.reg :=
        List.map_congr_left fun q hq => by
          have hne : q ≠ .rsp := fun heq => hrest (heq ▸ hq)
          rw [reg_push, if_neg hne]
      rw [hsame] at hnext
      rw [pushAll_cons, List.map_cons, List.reverse_cons, List.append_assoc]
      exact hnext

theorem reg_popAll_of_notMem (m : Machine) (rs : List Reg) {r : Reg} (hr : r ∉ rs)
    (hrsp : r ≠ .rsp) : (m.popAll rs).reg r = m.reg r := by
  induction rs generalizing m with
  | nil => rfl
  | cons q rs ih =>
      rw [List.mem_cons, not_or] at hr
      rw [popAll_cons, ih _ hr.2, reg_setReg, if_neg hr.1, reg_drop, if_neg hrsp]

theorem mem_popAll (m : Machine) (rs : List Reg) : (m.popAll rs).mem = m.mem := by
  induction rs generalizing m with
  | nil => rfl
  | cons q rs ih => rw [popAll_cons, ih, mem_setReg, mem_drop]

theorem rsp_popAll (m : Machine) (rs : List Reg) (hrs : .rsp ∉ rs) :
    (m.popAll rs).reg .rsp = m.reg .rsp + BitVec.ofNat 64 (8 * rs.length) := by
  induction rs generalizing m with
  | nil => exact (BitVec.add_zero _).symm
  | cons q rs ih =>
      rw [List.mem_cons, not_or] at hrs
      rw [popAll_cons, ih _ hrs.2, reg_setReg, if_neg hrs.1, reg_drop, if_pos rfl, List.length_cons,
        Nat.mul_succ, BitVec.ofNat_add, BitVec.add_assoc, BitVec.add_comm 8#64]

/-- The pops take the words off, each into its register. -/
theorem Stack.popAll {ws vs : List Word} (h : m.Stack (ws ++ vs)) (rs : List Reg)
    (hlen : ws.length = rs.length) (hrs : .rsp ∉ rs) (hnd : rs.Nodup) :
    (m.popAll rs).Stack vs ∧ rs.map (m.popAll rs).reg = ws := by
  induction rs generalizing m ws with
  | nil =>
      obtain rfl := List.eq_nil_of_length_eq_zero hlen
      exact ⟨h, rfl⟩
  | cons r rs ih =>
      cases ws with
      | nil => exact absurd hlen (by simp)
      | cons w ws =>
          rw [List.cons_append] at h
          rw [List.mem_cons, not_or] at hrs
          rw [List.nodup_cons] at hnd
          have hdrop : (m.drop.setReg r m.top).Stack (ws ++ vs) :=
            h.drop.congr (by rw [reg_setReg, if_neg hrs.1]) rfl
          obtain ⟨hstack, hregs⟩ := ih hdrop (by simpa using hlen) hrs.2 hnd.2
          refine ⟨hstack, ?_⟩
          rw [List.map_cons, popAll_cons, hregs,
            reg_popAll_of_notMem _ _ hnd.1 (fun heq => hrs.1 heq.symm), reg_setReg, if_pos rfl,
            h.top]

/-! ## Registers kept in a table -/

/-- Write these registers to their places in a table that `%gs` is the base of. -/
def saveAll (m : Machine) (ps : List (Reg × Word)) : Machine :=
  ps.foldl (fun m p => m.storeAt .q (m.msr msrGsBase + p.2) (m.reg p.1)) m

/-- Read these registers from their places in the table. -/
def loadAll (m : Machine) (ps : List (Reg × Word)) : Machine :=
  ps.foldl (fun m p => m.setReg p.1 (m.loadAt .q (m.msr msrGsBase + p.2))) m

/-- Two places of a table that do not overlap. -/
def PlacesApart (p q : Reg × Word) : Prop := Clear p.2 8 q.2 8

instance (p q : Reg × Word) : Decidable (PlacesApart p q) :=
  inferInstanceAs (Decidable (Clear p.2 8 q.2 8))

theorem PlacesApart.clear {p q : Reg × Word} (h : PlacesApart p q) (g : Word) :
    Clear (g + p.2) 8 (g + q.2) 8 := by
  obtain ⟨hn, hk⟩ := h
  constructor
  · rwa [add_sub_add_left_eq_sub]
  · rwa [add_sub_add_left_eq_sub]

end Machine

/-! ## Runs of pushes and pops -/

section Rules

variable {L F : Type}

/-- The code that saves these registers. -/
def pushes (rs : List Reg) : List (Item L F) := rs.map fun r => .instr (.push (.of (.reg r)))

/-- The code that restores these registers. -/
def pops (rs : List Reg) : List (Item L F) := rs.map fun r => .instr (.pop (.reg r))

/-- The code that writes these registers to the table. -/
def tableSaves (ps : List (Reg × Word)) : List (Item L F) :=
  ps.map fun p => .instr (.mov .q (.of (.reg p.1)) (.gs p.2))

/-- The code that reads these registers from the table. -/
def tableLoads (ps : List (Reg × Word)) : List (Item L F) :=
  ps.map fun p => .instr (.mov .q (.of (.gs p.2)) (.reg p.1))

variable [DecidableEq L] {fns : Functions F} {code k : List (Item L F)} {m : Machine}
  {Q : Option Machine → Prop}

theorem Leaves.tableSaves {ps : List (Reg × Word)} (h : Leaves fns code k (m.saveAll ps) Q) :
    Leaves fns code (X86.tableSaves ps ++ k) m Q := by
  induction ps generalizing m with
  | nil => exact h
  | cons p ps ih =>
      refine Leaves.go (s := m.storeAt .q (m.msr msrGsBase + p.2) (m.reg p.1)) ?_ (ih h)
      show Next.go (m.storeAt .q (m.msr msrGsBase + p.2) (trunc .q (m.reg p.1))) = _
      rw [trunc_q]

theorem Leaves.tableLoads {ps : List (Reg × Word)} (h : Leaves fns code k (m.loadAll ps) Q) :
    Leaves fns code (X86.tableLoads ps ++ k) m Q := by
  induction ps generalizing m with
  | nil => exact h
  | cons p ps ih =>
      exact Leaves.go (s := m.setReg p.1 (m.loadAt .q (m.msr msrGsBase + p.2))) rfl (ih h)

theorem Leaves.pushes {rs : List Reg} (h : Leaves fns code k (m.pushAll rs) Q) :
    Leaves fns code (X86.pushes rs ++ k) m Q := by
  induction rs generalizing m with
  | nil => exact h
  | cons r rs ih =>
      refine Leaves.go (s := m.push (m.reg r)) ?_ (ih h)
      show Next.go (m.push (trunc .q (m.reg r))) = _
      rw [trunc_q]

theorem Leaves.pops {rs : List Reg} (h : Leaves fns code k (m.popAll rs) Q) :
    Leaves fns code (X86.pops rs ++ k) m Q := by
  induction rs generalizing m with
  | nil => exact h
  | cons r rs ih => exact Leaves.go (s := m.drop.setReg r m.top) rfl (ih h)

end Rules

/-! ## Exceptions -/

namespace Machine

/-- The code runs with the privilege of a user. -/
def inUser (m : Machine) : Bool := (m.cs &&& 3#64) == 3#64

/-- Where the frame of an exception is put: a new stack if the privilege changes, from a
multiple of 16 down. -/
def exceptionTop (m : Machine) (rsp0 : Word) : Word :=
  let sp := if m.inUser then rsp0 else m.reg .rsp
  sp - sp % 16#64

/-- The flags with which a handler starts. -/
def handlerFlags (v : Word) : Word :=
  setBit (setBit (setBit (setBit v trapFlag false) interruptFlag false) nestedFlag false)
    resumeFlag false

/-- An exception is delivered through an interrupt gate.  `flags` are the flags that are
saved, and `error` is the code that some exceptions push. -/
def raise (m : Machine) (cs rsp0 flags : Word) (error : Option Word) : Machine :=
  let framed := (((((m.setReg .rsp (m.exceptionTop rsp0)).push m.ss).push (m.reg .rsp)).push
    flags).push m.cs).push m.rip
  let framed := match error with
    | some e => framed.push e
    | none => framed
  { framed with
    cs := cs
    ss := if m.inUser then 0#64 else m.ss
    rflags := handlerFlags m.rflags }

/-- What an exception leaves on the stack. -/
def exceptionFrame (m : Machine) (flags : Word) (error : Option Word) : List Word :=
  error.toList ++ [m.rip, m.cs, flags, m.reg .rsp, m.ss]

section Raise

variable (m : Machine) (cs rsp0 flags : Word) (error : Option Word)

@[simp] theorem cs_raise : (m.raise cs rsp0 flags error).cs = cs := rfl
@[simp] theorem rflags_raise :
    (m.raise cs rsp0 flags error).rflags = handlerFlags m.rflags := rfl

@[simp] theorem msr_raise : (m.raise cs rsp0 flags error).msr = m.msr := by
  cases error <;> rfl

@[simp] theorem cr2_raise : (m.raise cs rsp0 flags error).cr2 = m.cr2 := by
  cases error <;> rfl

theorem reg_raise {r : Reg} (hr : r ≠ .rsp) : (m.raise cs rsp0 flags error).reg r = m.reg r := by
  cases error <;> simp [raise, hr]

theorem rsp_raise : (m.raise cs rsp0 flags error).reg .rsp
    = m.exceptionTop rsp0 - BitVec.ofNat 64 (8 * (exceptionFrame m flags error).length) := by
  cases error <;> simp [raise, exceptionFrame, BitVec.sub_sub]

/-- The frame is on the stack. -/
theorem stack_raise : (m.raise cs rsp0 flags error).Stack (exceptionFrame m flags error) := by
  have hframe := (((((stack_nil (m.setReg .rsp (m.exceptionTop rsp0))).push (by simp) m.ss).push
    (by simp) (m.reg .rsp)).push (by simp) flags).push (by simp) m.cs).push (by simp) m.rip
  cases error with
  | none => exact hframe
  | some e => exact hframe.push (by simp) e

end Raise

/-- What a system call does before the code of the kernel runs. -/
def syscall (m : Machine) : Machine :=
  { ((m.setReg .rcx m.rip).setReg .r11 m.rflags) with
    rip := m.msr msrLstar
    rflags := m.rflags &&& ~~~m.msr msrSfmask
    cs := trunc .w (m.msr msrStar >>> 32) &&& ~~~3#64
    ss := trunc .w (m.msr msrStar >>> 32) + 8#64 }

end Machine

end X86

end BufferVM
