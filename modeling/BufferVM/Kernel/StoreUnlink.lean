/-
  Kernel/StoreUnlink.lean --- taking VMAs out of the store.

  `detach_vmas_to_be_unmapped` erases a run of VMAs from the tree while the list
  still holds them, and mends the list at the end.  The own gap of a node is read
  through the stale `prev` links in between; it does not change until the mending,
  which concerns the first VMA behind the run only.
-/
import BufferVM.Kernel.StoreLink
import BufferVM.Kernel.Areas

set_option autoImplicit false

namespace BufferVM

open PtrTree PtrTree.PTree PtrList

variable {σ η : Type} {s t u v : St σ η}

/-! ## `rb_erase` on the traversal -/

/-- The place of a node in a list without repetition is unique. -/
theorem split_unique {l₁ l₂ : List Ptr} (m₁ m₂ : List Ptr) {z : Ptr} (hnd : (l₁ ++ z :: l₂).Nodup)
    (h : m₁ ++ z :: m₂ = l₁ ++ z :: l₂) : m₁ = l₁ ∧ m₂ = l₂ := by
  rcases List.append_eq_append_iff.mp h with ⟨x, rfl, hx⟩ | ⟨x, rfl, hx⟩
  · cases x with
    | nil => simpa using hx
    | cons y x =>
        obtain ⟨rfl, rfl⟩ := List.cons.inj hx
        simp [List.nodup_append] at hnd
  · cases x with
    | nil => simpa using hx.symm
    | cons y x =>
        obtain ⟨rfl, rfl⟩ := List.cons.inj hx
        simp [List.nodup_append] at hnd

/-- The tree part of a store after some nodes have been erased. -/
structure TreeLeft (u v : St σ η) (l : List Ptr) (b : PTree Ptr) : Prop where
  shape : Shape v.rbLinks 0#64 v.vmaRbRoot b
  list : b.toList = l
  base : v.base = u.base
  black : v.vmaRbRoot ≠ 0#64 → v.color v.vmaRbRoot = .black

/-- `rb_erase` takes one node out of the traversal.  The own gap of that node need
not be what its stored gap was computed from. -/
theorem rbErase_tree {a : PTree Ptr} {l₁ l₂ : List Ptr} {z : Ptr}
    (hshape : Shape u.rbLinks 0#64 u.vmaRbRoot a) (hlist : a.toList = l₁ ++ z :: l₂)
    (hnd : (l₁ ++ z :: l₂).Nodup)
    (hblack : u.vmaRbRoot ≠ 0#64 → u.color u.vmaRbRoot = .black) :
    ∃ v b, (∃ reb, rbErase z u = some (reb, v)) ∧ TreeLeft u v (l₁ ++ l₂) b ∧
      ∀ own₀, Aug own₀ u.gapNat a → (∀ q ∈ l₁ ++ l₂, u.own q = own₀ q) →
        Aug u.own v.gapNat b := by
  obtain ⟨c, l, r, rfl⟩ := exists_path_of_mem (t := a) (p := z) (by simp [hlist])
  have hnd' : (plug c (node l z r)).toList.Nodup := hlist ▸ hnd
  have hne : u.vmaRbRoot ≠ 0#64 := by
    intro h0
    have := hshape.eq_leaf h0
    rw [this] at hlist
    simp at hlist
  obtain ⟨par, x, hpath, hsub⟩ := shape_plug.mp hshape
  obtain rfl : x = z := hsub.1
  have hat : AtNode u c x par (node l x r) :=
    ⟨hpath, hsub, hsub.2.1, hnd', fun _ => hblack hne⟩
  obtain ⟨v, b, hrun, hb, -⟩ := rbErase_spec hat (hblack hne)
  have hsplit : before c ++ l.toList = l₁ ∧ r.toList ++ after c = l₂ := by
    refine split_unique _ _ hnd ?_
    rw [← hlist, toList_plug]
    simp
  have hlist' : before c ++ (l.toList ++ r.toList) ++ after c = l₁ ++ l₂ := by
    rw [← hsplit.1, ← hsplit.2]
    simp
  refine ⟨v, b, hrun, ⟨hb.shape, hb.list.trans hlist', hb.base, hb.black⟩, ?_⟩
  intro own₀ h0 hown
  have hmem : ∀ q, q ∈ l.toList ∨ q ∈ r.toList ∨ q ∈ ptrs c → u.own q = own₀ q := by
    intro q hq
    have hq' : q ∈ before c ∨ q ∈ l.toList ∨ q ∈ r.toList ∨ q ∈ after c := by
      rcases hq with hq | hq | hq
      · simp [hq]
      · simp [hq]
      · have := (mem_plug (c := c) (t := leaf) (q := q)).mpr (Or.inr hq)
        rw [toList_plug] at this
        simp only [toList_leaf, List.append_nil, List.mem_append] at this
        tauto
    refine hown q ?_
    rw [← hlist']
    simp only [List.mem_append]
    tauto
  obtain ⟨⟨hx, hal, har⟩, hac⟩ := aug_plug.mp h0
  refine hb.aug ⟨hal.congr (fun q hq => hmem q (by simp [hq])) fun _ _ => rfl,
    har.congr (fun q hq => hmem q (by simp [hq])) fun _ _ => rfl, ?_⟩
  rw [hx]
  exact hac.congr (fun q hq => hmem q (by simp [hq])) fun _ _ => rfl

/-! ## `detach_vmas_to_be_unmapped` -/

/-- Following `next` from node to node. -/
def NextChain (s : St σ η) (l : List Ptr) : Prop :=
  l.IsChain fun x y => (s.vma x).next = y

theorem nextChain_of_chain (l₁ l₂ : List Ptr) (h : Chain s.listLinks (l₁ ++ l₂))
    (h0 : 0#64 ∉ l₂) : NextChain s (l₂ ++ [0#64]) := by
  have hch : List.IsChain (Linked s.listLinks) (0#64 :: (l₁ ++ l₂ ++ [0#64])) := h
  have hsuf : List.IsChain (Linked s.listLinks) (l₂ ++ [0#64]) := by
    refine hch.suffix ?_
    exact ⟨0#64 :: l₁, by simp⟩
  unfold NextChain
  rw [List.isChain_iff_forall_rel_of_append_cons_cons] at hsuf ⊢
  intro x y m₁ m₂ hm
  have hx : x ∈ l₂ := fst_mem_of_infix (m := 0#64) (y := y) ⟨m₁, m₂, by simp [hm]⟩
  have hx0 : x ≠ 0#64 := by
    rintro rfl
    exact h0 hx
  have := (hsuf hm).1
  simpa [St.listLinks, hx0] using this

theorem Laid.nextChain (l₁ l₂ : List Ptr) {a : PTree Ptr} (h : Laid s (l₁ ++ l₂) a) :
    NextChain s (l₂ ++ [0#64]) :=
  nextChain_of_chain l₁ l₂ h.chain fun h0 => h.ne_null _ (List.mem_append_right l₁ h0) rfl

/-- The loop: the run `z :: m` leaves the tree, and the loop stops at `k`. -/
theorem detachLoop_spec (end' : U64) (l₁ l₃ : List Ptr) {k : Ptr} (m : List Ptr) :
    ∀ (fuel : Nat) (z : Ptr) (a : PTree Ptr) (u : St σ η), m.length < fuel →
      Shape u.rbLinks 0#64 u.vmaRbRoot a → a.toList = l₁ ++ z :: (m ++ l₃) →
      (l₁ ++ z :: (m ++ l₃)).Nodup →
      (u.vmaRbRoot ≠ 0#64 → u.color u.vmaRbRoot = .black) →
      NextChain u (z :: (m ++ [k])) → (∀ q ∈ m, (u.region q).startAddr < end') →
      (k ≠ 0#64 → ¬ (u.region k).startAddr < end') →
      ∃ v b, detachLoop end' fuel z u = some (lastPtr z m, k, v) ∧ TreeLeft u v (l₁ ++ l₃) b ∧
        ∀ own₀, Aug own₀ u.gapNat a → (∀ q ∈ l₁ ++ (m ++ l₃), u.own q = own₀ q) →
          Aug u.own v.gapNat b := by
  induction m with
  | nil =>
      intro fuel z a u hf hshape hlist hnd hblack hnext _ hk
      obtain ⟨n, rfl⟩ : ∃ n, fuel = n + 1 := ⟨fuel - 1, by simp at hf; omega⟩
      obtain ⟨v, b, ⟨reb, hrun⟩, hv, haug⟩ := rbErase_tree hshape hlist hnd hblack
      have hzk : (v.vma z).next = k := by
        rw [St.next_of_base hv.base]
        exact (List.isChain_cons_cons.mp hnext).1
      refine ⟨v, b, ?_, hv, haug⟩
      have hstop : ¬ (k ≠ 0#64 ∧ (v.region k).startAddr < end') := by
        rintro ⟨h0, hlt⟩
        rw [St.region_of_base hv.base] at hlt
        exact hk h0 hlt
      simp only [detachLoop, hrun, Option.bind_eq_bind, Option.bind_some, hzk, if_neg hstop]
      rfl
  | cons y m ih =>
      intro fuel z a u hf hshape hlist hnd hblack hnext hm hk
      obtain ⟨n, rfl⟩ : ∃ n, fuel = n + 1 := ⟨fuel - 1, by simp at hf; omega⟩
      obtain ⟨v, b, ⟨reb, hrun⟩, hv, haug⟩ := rbErase_tree hshape hlist hnd hblack
      obtain ⟨hzy, hrest⟩ := List.isChain_cons_cons.mp hnext
      have hzy' : (v.vma z).next = y := by
        rw [St.next_of_base hv.base]
        exact hzy
      have hy0 : y ≠ 0#64 := hshape.ne_null y (by simp [hlist])
      have hylt : (v.region y).startAddr < end' := by
        rw [St.region_of_base hv.base]
        exact hm y (by simp)
      have hnd' : (l₁ ++ y :: (m ++ l₃)).Nodup := by grind
      obtain ⟨v', b', hrun', hv', haug'⟩ := ih n y b v
        (by simp only [List.length_cons] at hf; omega) hv.shape hv.list hnd' hv.black
        (by
          unfold NextChain
          simp only [St.next_of_base hv.base]
          exact hrest)
        (fun q hq => by rw [St.region_of_base hv.base]; exact hm q (by simp [hq]))
        (by rw [St.region_of_base hv.base]; exact hk)
      have hown : v.own = u.own := St.own_of_base hv.base
      refine ⟨v', b', ?_, ⟨hv'.shape, hv'.list, hv'.base.trans hv.base, hv'.black⟩, ?_⟩
      · simp only [detachLoop, hrun, Option.bind_eq_bind, Option.bind_some, hzy',
          if_pos (show y ≠ 0#64 ∧ (v.region y).startAddr < end' from ⟨hy0, hylt⟩), hrun']
        simp [lastPtr]
      · intro own₀ h0 hown₀
        have h1 := haug own₀ h0 fun q hq => hown₀ q hq
        have h2 := haug' u.own h1 fun q hq => by rw [hown]
        rw [hown] at h2
        exact h2

/-- Mending the list around a run that is taken out. -/
theorem chain_mend {l₁ m l₃ : List Ptr} (h : Chain u.listLinks (l₁ ++ m ++ l₃))
    (hnd : (l₁ ++ l₃).Nodup) (h0 : 0#64 ∉ l₁ ++ l₃)
    (hstart : v.vmaListStart = if lastPtr 0#64 l₁ = 0#64 then headPtr 0#64 l₃ else u.vmaListStart)
    (hnext : ∀ x ∈ l₁ ++ l₃,
      (v.vma x).next = if x = lastPtr 0#64 l₁ then headPtr 0#64 l₃ else (u.vma x).next)
    (hprev : ∀ x ∈ l₁ ++ l₃,
      (v.vma x).prev = if x = headPtr 0#64 l₃ then lastPtr 0#64 l₁ else (u.vma x).prev) :
    Chain v.listLinks (l₁ ++ l₃) := by
  have hsplice := Chain.splice (L := u.listLinks) (M := v.listLinks) [] h rfl hnd h0
  simp only [List.append_nil, List.nil_append] at hsplice
  have hne : ∀ x ∈ l₁ ++ l₃, x ≠ 0#64 := by rintro x hx rfl; exact h0 hx
  refine hsplice ?_ ?_ ?_
  · intro x hx hxl
    simp only [St.listLinks_null] at hx hxl
    by_cases hx0 : x = 0#64
    · subst hx0
      simp [St.listLinks, hstart, hxl.symm]
    · have hmem : x ∈ l₁ ++ l₃ := by simpa [hx0] using hx
      simp [St.listLinks, hx0, hnext x hmem, hxl]
  · intro x hx hxh
    simp only [St.listLinks_null] at hxh
    simp [St.listLinks, hprev x hx, hxh]
  · simp only [St.listLinks_null]
    refine List.isChain_cons_cons.mpr ⟨⟨?_, fun hh => ?_⟩, by simp⟩
    · by_cases hp : lastPtr 0#64 l₁ = 0#64
      · simp [St.listLinks, hp, hstart]
      · have hmem : lastPtr 0#64 l₁ ∈ l₁ ++ l₃ := by simp [lastPtr_mem hp]
        simp [St.listLinks, hp, hnext _ hmem]
    · have hmem : headPtr 0#64 l₃ ∈ l₁ ++ l₃ := by simp [headPtr_mem hh]
      simp [St.listLinks, hprev _ hmem]

theorem lastPtr_append {l l' : List Ptr} (h : l' ≠ []) :
    lastPtr 0#64 (l ++ l') = lastPtr 0#64 l' := by
  obtain ⟨m, x, rfl⟩ := List.eq_nil_or_concat l' |>.resolve_left h
  rw [List.concat_eq_append, ← List.append_assoc, lastPtr_append_singleton,
    lastPtr_append_singleton]

/-- The gap behind the run, or the highest address. -/
theorem mendGap_spec {ps : List Ptr} (k : Ptr) (hi : U64) {b : PTree Ptr} (h : Laid u ps b)
    (hk : k ≠ 0#64 → k ∈ ps) :
    ∃ v, (if k ≠ 0#64 then vmaGapUpdate k u else some (u.setHighest hi)) = some v ∧
      Laid v ps b ∧ v.data = u.data ∧ (∀ q, (v.vma q).next = (u.vma q).next) ∧
      v.vmaHighestAddr = (if k = 0#64 then hi else u.vmaHighestAddr) ∧
      v.own = u.own ∧
      ∀ own₀, Aug own₀ u.gapNat b → (∀ q ∈ ps, q ≠ k → u.own q = own₀ q) →
        Aug v.own v.gapNat b := by
  by_cases hk0 : k = 0#64
  · refine ⟨u.setHighest hi, by simp [hk0], h.of_tree rfl rfl, by simp, fun q => by simp,
      by simp [hk0, St.setHighest], rfl, fun own₀ h1 h2 => ?_⟩
    exact h1.congr (fun q hq => h2 q (h.list ▸ hq) (hk0 ▸ h.ne_null q (h.list ▸ hq)))
      fun _ _ => rfl
  · obtain ⟨v, hrun, hg, haug⟩ := vmaGapUpdate_spec h.shape (h.list ▸ h.nodup)
      (p := k) (h.list ▸ hk hk0)
    have hown : v.own = u.own := St.own_of_base hg.base
    refine ⟨v, by simp [hk0, hrun], h.of_gapOnly hg, St.data_of_base hg.base,
      fun q => St.next_of_base hg.base q, by simp [hk0, St.highest_of_base hg.base], hown, ?_⟩
    intro own₀ h1 h2
    rw [hown]
    exact haug own₀ h1 fun q hq => h2 q (h.list ▸ hq)

/-- The list of the store `v` is that of `s` with a run taken out; the tree of `v` is
`b` already. -/
structure Mended (s v : St σ η) (l₁ m l₃ : List Ptr) (b : PTree Ptr) : Prop where
  shape : Shape v.rbLinks 0#64 v.vmaRbRoot b
  list : b.toList = l₁ ++ l₃
  black : v.vmaRbRoot ≠ 0#64 → v.color v.vmaRbRoot = .black
  start : v.vmaListStart = if lastPtr 0#64 l₁ = 0#64 then headPtr 0#64 l₃ else s.vmaListStart
  next : ∀ x ∈ l₁ ++ l₃,
    (v.vma x).next = if x = lastPtr 0#64 l₁ then headPtr 0#64 l₃ else (s.vma x).next
  prev : ∀ x ∈ l₁ ++ l₃,
    (v.vma x).prev = if x = headPtr 0#64 l₃ then lastPtr 0#64 l₁ else (s.vma x).prev

theorem Mended.laid {l₁ m l₃ : List Ptr} {a b : PTree Ptr} (hv : Mended s v l₁ m l₃ b)
    (h : Laid s (l₁ ++ m ++ l₃) a) : Laid v (l₁ ++ l₃) b := by
  have hnd : (l₁ ++ l₃).Nodup := by
    have := h.nodup
    grind
  have h0 : 0#64 ∉ l₁ ++ l₃ := by
    intro hq
    refine h.ne_null 0#64 ?_ rfl
    simp only [List.mem_append] at hq ⊢
    tauto
  exact ⟨hv.list, hnd, hv.shape, chain_mend h.chain hnd h0 hv.start hv.next hv.prev, hv.black⟩

/-- The list links across the place that a run leaves. -/
def St.bridge (prev next : Ptr) (s : St σ η) : St σ η :=
  let s := if prev ≠ 0#64 then s.setNext prev next else s.setListStart next
  if next ≠ 0#64 then s.setPrev next prev else s

section Bridge

variable (prev next : Ptr) (s : St σ η)

theorem St.tree_bridge : (s.bridge prev next).tree = s.tree := by
  by_cases h1 : prev = 0#64 <;> by_cases h2 : next = 0#64 <;> simp [St.bridge, h1, h2]

theorem St.data_bridge : (s.bridge prev next).data = s.data := by
  by_cases h1 : prev = 0#64 <;> by_cases h2 : next = 0#64 <;> simp [St.bridge, h1, h2]

theorem St.highest_bridge : (s.bridge prev next).vmaHighestAddr = s.vmaHighestAddr := by
  unfold St.bridge
  split <;> split <;> rfl

theorem St.listStart_bridge :
    (s.bridge prev next).vmaListStart = if prev = 0#64 then next else s.vmaListStart := by
  by_cases h1 : prev = 0#64 <;> by_cases h2 : next = 0#64 <;> simp [St.bridge, h1, h2]

theorem St.next_bridge (q : Ptr) : ((s.bridge prev next).vma q).next =
    if prev ≠ 0#64 ∧ q = prev then next else (s.vma q).next := by
  by_cases h1 : prev = 0#64 <;> by_cases h2 : next = 0#64 <;> simp [St.bridge, h1, h2]

theorem St.prev_bridge (q : Ptr) : ((s.bridge prev next).vma q).prev =
    if next ≠ 0#64 ∧ q = next then prev else (s.vma q).prev := by
  by_cases h1 : prev = 0#64 <;> by_cases h2 : next = 0#64 <;> simp [St.bridge, h1, h2]

end Bridge

/-- A store whose tree has lost the run already, once the links are bridged. -/
theorem Mended.of_bridge {l₁ m l₃ : List Ptr} {b : PTree Ptr}
    (hshape : Shape v.rbLinks 0#64 v.vmaRbRoot b) (hlist : b.toList = l₁ ++ l₃)
    (hblack : v.vmaRbRoot ≠ 0#64 → v.color v.vmaRbRoot = .black)
    (hstart : v.vmaListStart = s.vmaListStart) (hnext : ∀ q, (v.vma q).next = (s.vma q).next)
    (hprev : ∀ q ∈ l₁ ++ l₃, (v.vma q).prev = (s.vma q).prev) :
    Mended s (v.bridge (lastPtr 0#64 l₁) (headPtr 0#64 l₃)) l₁ m l₃ b := by
  have h0 : ∀ q ∈ l₁ ++ l₃, q ≠ 0#64 := hlist ▸ hshape.ne_null
  have htree := v.tree_bridge (lastPtr 0#64 l₁) (headPtr 0#64 l₃)
  refine ⟨?_, hlist, ?_, ?_, fun x hx => ?_, fun x hx => ?_⟩
  · rw [St.rbLinks_of_tree htree, St.root_of_tree htree]
    exact hshape
  · rw [St.root_of_tree htree, St.color_of_tree htree]
    exact hblack
  · rw [St.listStart_bridge, hstart]
  · rw [St.next_bridge, hnext]
    by_cases hx1 : x = lastPtr 0#64 l₁
    · rw [if_pos ⟨hx1 ▸ h0 x hx, hx1⟩, if_pos hx1]
    · rw [if_neg fun h => hx1 h.2, if_neg hx1]
  · rw [St.prev_bridge, hprev x hx]
    by_cases hx1 : x = headPtr 0#64 l₃
    · rw [if_pos ⟨hx1 ▸ h0 x hx, hx1⟩, if_pos hx1]
    · rw [if_neg fun h => hx1 h.2, if_neg hx1]

/-- The highest address after the removal of a run. -/
theorem highestEnd_mend (s : St σ η) (l₁ m : List Ptr) {l₃ : List Ptr} (h0 : 0#64 ∉ l₃) :
    (if headPtr 0#64 l₃ = 0#64 then
      (if lastPtr 0#64 l₁ ≠ 0#64 then (s.region (lastPtr 0#64 l₁)).endAddr else 0#64)
      else highestEnd s (l₁ ++ m ++ l₃)) = highestEnd s (l₁ ++ l₃) := by
  by_cases hl₃ : l₃ = []
  · subst hl₃
    by_cases hp : lastPtr 0#64 l₁ = 0#64 <;> simp [highestEnd, hp]
  · have hk : headPtr 0#64 l₃ ≠ 0#64 := fun h => hl₃ ((headPtr_eq_null h0).mp h)
    rw [if_neg hk, highestEnd, highestEnd, lastPtr_append hl₃, lastPtr_append hl₃]

/-- A chain of `next` links cut off behind its last node. -/
theorem nextChain_close {z k : Ptr} {m : List Ptr} (h : NextChain s (z :: (m ++ [k])))
    (hnd : (z :: m).Nodup) (hlast : (v.vma (lastPtr z m)).next = 0#64)
    (hkeep : ∀ q ∈ z :: m, q ≠ lastPtr z m → (v.vma q).next = (s.vma q).next) :
    NextChain v (z :: (m ++ [0#64])) := by
  obtain ⟨a, ha⟩ := exists_lastPtr z m
  generalize lastPtr z m = tail at *
  have cut : ∀ x : Ptr, z :: (m ++ [x]) = a ++ tail :: [x] := by
    intro x
    rw [← List.cons_append, ha]
    simp
  unfold NextChain at h ⊢
  rw [cut, List.isChain_split] at h ⊢
  refine ⟨?_, List.isChain_cons_cons.mpr ⟨hlast, by simp⟩⟩
  have h1 := h.1
  rw [List.isChain_iff_forall_rel_of_append_cons_cons] at h1 ⊢
  intro x y l₁ l₂ hl
  have hx : x ∈ a := fst_mem_of_infix (m := tail) (y := y) ⟨l₁, l₂, by simp [hl]⟩
  have hxt : x ≠ tail := by
    rw [ha] at hnd
    rintro rfl
    exact (List.nodup_append.mp hnd).2.2 x hx x (by simp) rfl
  rw [hkeep x (by rw [ha]; simp [hx]) hxt]
  exact h1 hl

/-- The links lead from the run to the VMA behind it. -/
theorem Laid.nextChain_run {l₁ m l₃ : List Ptr} {z : Ptr} {a : PTree Ptr}
    (h : Laid s (l₁ ++ z :: m ++ l₃) a) : NextChain s (z :: (m ++ [headPtr 0#64 l₃])) := by
  have hall : NextChain s (z :: m ++ l₃ ++ [0#64]) :=
    Laid.nextChain l₁ (z :: m ++ l₃) (a := a) (by simpa using h)
  refine List.IsChain.prefix hall ?_
  obtain ⟨y, hy⟩ := exists_headPtr 0#64 l₃
  exact ⟨y, by simp [hy]⟩

/-- Behind the loop: the run is out of the tree, and the list still holds it. -/
structure Detached (s v : St σ η) (z : Ptr) (l : List Ptr) (a b : PTree Ptr) : Prop where
  left : TreeLeft (s.setPrev z 0#64) v l b
  next : ∀ q, (v.vma q).next = (s.vma q).next
  prev : ∀ q, q ≠ z → (v.vma q).prev = (s.vma q).prev
  data : v.data = s.data
  highest : v.vmaHighestAddr = s.vmaHighestAddr
  aug : Aug s.own s.gapNat a → Aug (s.setPrev z 0#64).own v.gapNat b

/-- The loop erases the run from the tree. -/
theorem Laid.detachLoop {l₁ m l₃ : List Ptr} {z : Ptr} {a : PTree Ptr} (end' : U64)
    (h : Laid s (l₁ ++ z :: m ++ l₃) a) (hm : ∀ q ∈ m, (s.region q).startAddr < end')
    (hl₃ : ∀ q ∈ l₃, ¬ (s.region q).startAddr < end') :
    ∃ v b, BufferVM.detachLoop end' walkBound z (s.setPrev z 0#64) =
        some (lastPtr z m, headPtr 0#64 l₃, v) ∧ Detached s v z (l₁ ++ l₃) a b := by
  have hassoc : l₁ ++ z :: m ++ l₃ = l₁ ++ z :: (m ++ l₃) := by simp
  have hnd := h.nodup
  rw [hassoc] at hnd
  have htree : (s.setPrev z 0#64).tree = s.tree := by simp
  have hmlen : m.length < walkBound := by
    have := h.length_lt
    simp only [List.length_append, List.length_cons] at this
    omega
  have hnext := h.nextChain_run
  obtain ⟨v, b, hrun, hv, haug⟩ := detachLoop_spec end' l₁ l₃
    (k := headPtr 0#64 l₃) m walkBound z a (s.setPrev z 0#64) hmlen
    (by rw [St.rbLinks_of_tree htree, St.root_of_tree htree]; exact h.shape)
    (h.list.trans hassoc) hnd
    (by rw [St.root_of_tree htree, St.color_of_tree htree]; exact h.black)
    (by unfold NextChain at hnext ⊢; simpa using hnext)
    (by simpa using hm)
    (fun hk0 => by simpa using hl₃ _ (headPtr_mem hk0))
  refine ⟨v, b, hrun, hv, fun q => ?_, fun q hq => ?_, ?_, ?_, fun hg => ?_⟩
  · rw [St.next_of_base hv.base]
    simp
  · rw [St.prev_of_base hv.base]
    simp [hq]
  · exact (St.data_of_base hv.base).trans (by simp)
  · exact (St.highest_of_base hv.base).trans rfl
  · refine haug s.own (gapNat_of_tree htree ▸ hg) fun q hq => ?_
    have hqz : q ≠ z := by grind
    exact own_congr (by simp [hqz]) (by simp) fun _ => by simp

section Detached

variable {l₁ m l₃ : List Ptr} {z : Ptr} {a b : PTree Ptr}

/-- A node that stays is not of the run. -/
theorem Laid.outside_run (h : Laid s (l₁ ++ z :: m ++ l₃) a) {x : Ptr} (hx : x ∈ l₁ ++ l₃) :
    x ≠ z ∧ x ∉ m := by
  have hnd := h.nodup
  constructor <;> grind

/-- With the links bridged, the store without the run is laid out. -/
theorem Detached.laid (hv : Detached s v z (l₁ ++ l₃) a b) (h : Laid s (l₁ ++ z :: m ++ l₃) a) :
    Laid (v.bridge (lastPtr 0#64 l₁) (headPtr 0#64 l₃)) (l₁ ++ l₃) b :=
  Mended.laid (m := z :: m) (Mended.of_bridge hv.left.shape hv.left.list hv.left.black
    (congrArg (fun x => x.2.1) hv.left.base) hv.next
    fun q hq => hv.prev q (h.outside_run hq).1) h

/-- The last of the run, whose `next` is cleared at the end, is not in the list any more. -/
theorem Laid.tail_run (h : Laid s (l₁ ++ z :: m ++ l₃) a) :
    lastPtr z m ∉ l₁ ++ l₃ ∧ lastPtr z m ≠ 0#64 := by
  have hmem : lastPtr z m ∈ z :: m := by
    rcases m.eq_nil_or_concat with rfl | ⟨m, x, rfl⟩ <;> simp
  constructor
  · intro hx
    obtain ⟨h1, h2⟩ := h.outside_run hx
    rcases List.mem_cons.mp hmem with h3 | h3
    · exact h1 h3
    · exact h2 h3
  · refine h.ne_null _ ?_
    simp only [List.mem_append, List.mem_cons] at hmem ⊢
    tauto

/-- The run keeps its links, up to its last node. -/
theorem Detached.nextChain {w : St σ η} (hv : Detached s v z (l₁ ++ l₃) a b)
    (h : Laid s (l₁ ++ z :: m ++ l₃) a)
    (hw : ∀ q, (w.vma q).next =
      ((v.bridge (lastPtr 0#64 l₁) (headPtr 0#64 l₃)).vma q).next) :
    NextChain (w.setNext (lastPtr z m) 0#64) (z :: (m ++ [0#64])) := by
  have hnd := (List.nodup_append.mp (List.nodup_append.mp h.nodup).1).2.1
  refine nextChain_close h.nextChain_run hnd (by simp) fun q hq hqt => ?_
  have hqp : ¬ (lastPtr 0#64 l₁ ≠ 0#64 ∧ q = lastPtr 0#64 l₁) := by
    rintro ⟨hp0, rfl⟩
    obtain ⟨hqz, hqm⟩ := h.outside_run (List.mem_append_left l₃ (lastPtr_mem hp0))
    rcases List.mem_cons.mp hq with hq | hq
    · exact hqz hq
    · exact hqm hq
  simp [hqt, hw, St.next_bridge, hv.next, hqp]

/-- The stored gaps are exact once that of the VMA behind the run is. -/
theorem Detached.gaps {w : St σ η} (hv : Detached s v z (l₁ ++ l₃) a b)
    (h : Laid s (l₁ ++ z :: m ++ l₃) a) (hdata : w.data = s.data)
    (hhigh : w.vmaHighestAddr = highestEnd s (l₁ ++ l₃))
    (hmend : ∀ own₀, Aug own₀ (v.bridge (lastPtr 0#64 l₁) (headPtr 0#64 l₃)).gapNat b →
      (∀ q ∈ l₁ ++ l₃, q ≠ headPtr 0#64 l₃ →
        (v.bridge (lastPtr 0#64 l₁) (headPtr 0#64 l₃)).own q = own₀ q) → Aug w.own w.gapNat b)
    (hg : Gaps s (l₁ ++ z :: m ++ l₃) a) :
    Gaps (w.setNext (lastPtr z m) 0#64) (l₁ ++ l₃) b := by
  have hregion : ∀ q, (v.bridge (lastPtr 0#64 l₁) (headPtr 0#64 l₃)).region q = s.region q :=
    St.region_of_data ((St.data_bridge _ _ _).trans hv.data)
  have haug := hmend (s.setPrev z 0#64).own
    (gapNat_of_tree (St.tree_bridge _ _ v) ▸ hv.aug hg.aug) fun q hq hqk => by
      obtain ⟨hqz, -⟩ := h.outside_run hq
      refine own_congr ?_ ?_ fun _ => ?_
      · simp [St.prev_bridge, hv.prev q hqz, hqk, hqz]
      · rw [hregion]
        simp
      · rw [hregion]
        simp
  refine ⟨?_, ?_⟩
  · have hown : (w.setNext (lastPtr z m) 0#64).own = w.own :=
      funext fun q => own_congr (by simp) (by simp) fun _ => by simp
    rw [hown, gapNat_of_tree (w.tree_setNext _ 0#64)]
    exact haug
  · have hreg : ∀ q, (w.setNext (lastPtr z m) 0#64).region q = s.region q := by
      intro q
      rw [St.region_setNext, St.region_of_data hdata]
    rw [highestEnd_of_region hreg, ← hhigh]
    rfl

/-- `detach_vmas_to_be_unmapped` after its loop: the links are bridged and the gap behind the
run is computed again. -/
theorem Detached.run {w : St σ η} {end' : U64} (hv : Detached s v z (l₁ ++ l₃) a b)
    (hz0 : z ≠ 0#64) (hloop : detachLoop end' walkBound z (s.setPrev z 0#64) =
      some (lastPtr z m, headPtr 0#64 l₃, v))
    (hmend : (if headPtr 0#64 l₃ ≠ 0#64 then
        vmaGapUpdate (headPtr 0#64 l₃) (v.bridge (lastPtr 0#64 l₁) (headPtr 0#64 l₃))
      else some ((v.bridge (lastPtr 0#64 l₁) (headPtr 0#64 l₃)).setHighest
        (if lastPtr 0#64 l₁ ≠ 0#64 then (s.region (lastPtr 0#64 l₁)).endAddr else 0#64))) =
      some w) :
    detachVmasToBeUnmapped z (lastPtr 0#64 l₁) end' s = some (w.setNext (lastPtr z m) 0#64) := by
  generalize headPtr 0#64 l₃ = k at hloop hmend
  generalize lastPtr 0#64 l₁ = prev at hmend
  have hregion : (if prev ≠ 0#64 then v.setNext prev k else v.setListStart k).region prev =
      s.region prev := by
    rw [← St.region_of_data ((St.data_bridge prev k v).trans hv.data) prev]
    by_cases h2 : k = 0#64 <;> simp [St.bridge, h2]
  simp only [detachVmasToBeUnmapped, deref_of_ne _ hz0, Option.bind_eq_bind, Option.bind_some,
    hloop, hregion]
  have hrun : (if k ≠ 0#64 then vmaGapUpdate k
      ((if prev ≠ 0#64 then v.setNext prev k else v.setListStart k).setPrev k prev)
      else some ((if prev ≠ 0#64 then v.setNext prev k else v.setListStart k).setHighest
        (if prev ≠ 0#64 then (s.region prev).endAddr else 0#64))) = some w := by
    rw [← hmend]
    by_cases hk0 : k = 0#64 <;> simp [St.bridge, hk0]
  rw [hrun]
  rfl

/-- `detach_vmas_to_be_unmapped` takes the run `z :: m` out of the list and of the
tree. -/
theorem detachVmasToBeUnmapped_spec (end' : U64)
    (h : Laid s (l₁ ++ z :: m ++ l₃) a) (hm : ∀ q ∈ m, (s.region q).startAddr < end')
    (hl₃ : ∀ q ∈ l₃, ¬ (s.region q).startAddr < end') :
    ∃ v b, detachVmasToBeUnmapped z (lastPtr 0#64 l₁) end' s = some v ∧ Laid v (l₁ ++ l₃) b ∧
      v.data = s.data ∧ NextChain v (z :: (m ++ [0#64])) ∧
      (Gaps s (l₁ ++ z :: m ++ l₃) a → Gaps v (l₁ ++ l₃) b) := by
  have hz0 : z ≠ 0#64 := h.ne_null z (by simp)
  have h0₃ : 0#64 ∉ l₃ := fun hq => h.ne_null 0#64 (by simp [hq]) rfl
  obtain ⟨v, b, hloop, hv⟩ := h.detachLoop end' hm hl₃
  obtain ⟨w, hmend, hlaid, hdata, hnext, hhigh, -, haug⟩ := mendGap_spec (headPtr 0#64 l₃)
    (if lastPtr 0#64 l₁ ≠ 0#64 then (s.region (lastPtr 0#64 l₁)).endAddr else 0#64) (hv.laid h)
    (fun hk0 => by simp [headPtr_mem hk0])
  have hdata' : w.data = s.data := hdata.trans ((St.data_bridge _ _ _).trans hv.data)
  obtain ⟨htail, htail0⟩ := h.tail_run
  refine ⟨w.setNext (lastPtr z m) 0#64, b, hv.run hz0 hloop hmend, hlaid.setNext htail htail0,
    (St.data_setNext ..).trans hdata', hv.nextChain h hnext, fun hg => ?_⟩
  refine hv.gaps h hdata' ?_ haug hg
  rw [hhigh, St.highest_bridge, hv.highest, hg.highest]
  exact highestEnd_mend s l₁ (z :: m) h0₃

end Detached

/-! ## `vma_unlink` -/

/-- `vma_unlink` takes one VMA with a predecessor out of the list and of the tree. -/
theorem vmaUnlink_spec {l₀ l₃ : List Ptr} {p z : Ptr} {a : PTree Ptr}
    (h : Laid s (l₀ ++ p :: z :: l₃) a) :
    ∃ v b, vmaUnlink z p s = some v ∧ Laid v (l₀ ++ p :: l₃) b ∧ v.data = s.data ∧
      v.vmaHighestAddr = s.vmaHighestAddr ∧
      (∀ q ∈ l₀ ++ p :: l₃, q ≠ headPtr 0#64 l₃ → v.own q = s.own q) ∧
      ∀ own₀, Aug own₀ s.gapNat a → (∀ q ∈ l₀ ++ p :: l₃, s.own q = own₀ q) →
        Aug s.own v.gapNat b := by
  have hassoc : l₀ ++ p :: z :: l₃ = (l₀ ++ [p]) ++ z :: l₃ := by simp
  have hassoc' : (l₀ ++ [p]) ++ l₃ = l₀ ++ p :: l₃ := by simp
  have hnd := h.nodup
  rw [hassoc] at h hnd
  have hp0 : p ≠ 0#64 := h.ne_null p (by simp)
  obtain ⟨v₁, b, ⟨reb, hrun₁⟩, hv₁, haug₁⟩ := rbErase_tree h.shape h.list hnd h.black
  have hk : (v₁.vma z).next = headPtr 0#64 l₃ := by
    have := h.chain.next_eq
    rw [St.next_of_base hv₁.base]
    simpa [St.listLinks, h.ne_null z (by simp)] using this
  have hkmem : headPtr 0#64 l₃ ≠ 0#64 → headPtr 0#64 l₃ ∈ l₃ := headPtr_mem
  have hhead : headPtr 0#64 l₃ ≠ p := by
    intro heq
    have := hkmem (heq ▸ hp0)
    rw [heq] at this
    grind
  have hmend : ∀ {v : St σ η}, Mended s v (l₀ ++ [p]) [z] l₃ b → Laid v (l₀ ++ p :: l₃) b :=
    fun hv => hassoc' ▸ hv.laid (by simpa using h)
  generalize hkd : headPtr 0#64 l₃ = k at *
  have hnext₁ := St.next_of_base hv₁.base
  have hprev₁ := St.prev_of_base hv₁.base
  have hlaid : Laid (v₁.bridge p k) (l₀ ++ p :: l₃) b := by
    have hb := Mended.of_bridge (m := [z]) hv₁.shape hv₁.list hv₁.black
      (congrArg (fun x => x.2.1) hv₁.base) hnext₁ fun q _ => hprev₁ q
    rw [lastPtr_append_singleton, hkd] at hb
    exact hmend hb
  have hdata : (v₁.bridge p k).data = s.data :=
    (St.data_bridge _ _ _).trans (St.data_of_base hv₁.base)
  refine ⟨v₁.bridge p k, b, ?_, hlaid, hdata,
    (St.highest_bridge _ _ _).trans (St.highest_of_base hv₁.base), ?_, ?_⟩
  · simp only [vmaUnlink, hrun₁, Option.bind_eq_bind, Option.bind_some, hk]
    simp [St.bridge, hp0]
  · intro q _ hqk
    exact own_congr (by simp [St.prev_bridge, hprev₁, hqk]) (by rw [St.region_of_data hdata])
      fun _ => by rw [St.region_of_data hdata]
  · intro own₀ h1 h2
    rw [gapNat_of_tree (v₁.tree_bridge p k)]
    exact haug₁ own₀ h1 fun q hq => h2 q (hassoc' ▸ hq)

/-! ## `vma_list_remove` -/

/-- The nodes of a list with the regions they hold. -/
def areasAt (s : St σ η) (ps : List Ptr) : List Area := ps.map fun p => (p, s.region p)

/-- The store with another allocator state and another host. -/
def St.withHost (s : St σ η) (x : σ × η) : St σ η := { s with heap := x.1, host := x.2 }

/-- `vma_remove` on a node. -/
theorem vmaRemove_eq {E : Env σ η} {p : Ptr} (hp : p ≠ 0#64) :
    vmaRemove E p s = some ((s.vma p).next,
      s.withHost (removeArea E (s.heap, s.host) (p, s.region p))) := by
  unfold vmaRemove closeFile removeArea
  simp only [deref_of_ne _ hp, Option.bind_eq_bind, Option.bind_some]
  split <;> rfl

/-- `vma_list_remove` removes the areas of a detached list one after the other. -/
theorem vmaListRemove_spec {E : Env σ η} (m : List Ptr) :
    ∀ (fuel : Nat) (z : Ptr) (s : St σ η), m.length < fuel → NextChain s (z :: (m ++ [0#64])) →
      (∀ q ∈ z :: m, q ≠ 0#64) →
      vmaListRemove E fuel z s =
        some (s.withHost (removeAreas E (areasAt s (z :: m)) (s.heap, s.host))) := by
  induction m with
  | nil =>
      intro fuel z s hf hch hne
      obtain ⟨n, rfl⟩ : ∃ n, fuel = n + 1 := ⟨fuel - 1, by simp at hf; omega⟩
      have hz : (s.vma z).next = 0#64 := (List.isChain_cons_cons.mp hch).1
      simp only [vmaListRemove, vmaRemove_eq (hne z (by simp)), Option.bind_eq_bind,
        Option.bind_some, hz]
      rfl
  | cons y m ih =>
      intro fuel z s hf hch hne
      obtain ⟨n, rfl⟩ : ∃ n, fuel = n + 1 := ⟨fuel - 1, by simp at hf; omega⟩
      obtain ⟨hz, hrest⟩ := List.isChain_cons_cons.mp hch
      have hy0 : y ≠ 0#64 := hne y (by simp)
      simp only [vmaListRemove, vmaRemove_eq (hne z (by simp)), Option.bind_eq_bind,
        Option.bind_some, hz, if_pos hy0]
      exact ih n y (s.withHost _) (by simp only [List.length_cons] at hf; omega) hrest
        (fun q hq => hne q (by simp only [List.mem_cons] at hq ⊢; tauto))

end BufferVM
