/-
  Kernel/Store.lean --- the VMA store as a layout of one list of nodes.

  `Laid s ps t` says that the nodes `ps` are threaded both by the list links and, in
  the same order, by the tree links, the tree being `t`; `Gaps` says that what is
  stored besides the links is exact.  `Laid` alone is what keeps the code from going
  astray, so it is kept apart from `Gaps` and from the order of the addresses.

  This file has the lookups: with the regions in order, the walks down the tree find
  the place where the list is cut at an address.
-/
import BufferVM.Kernel.RbErase
import BufferVM.Kernel.SpaceSorted

set_option autoImplicit false

namespace BufferVM

open PtrTree PtrTree.PTree PtrList

variable {σ η : Type} {s t u v : St σ η}

/-! ## The layout -/

/-- The list links and the tree links of the store thread the nodes `ps`. -/
structure Laid (s : St σ η) (ps : List Ptr) (t : PTree Ptr) : Prop where
  list : t.toList = ps
  nodup : ps.Nodup
  shape : Shape s.rbLinks 0#64 s.vmaRbRoot t
  chain : Chain s.listLinks ps
  black : s.vmaRbRoot ≠ 0#64 → s.color s.vmaRbRoot = .black

/-- The end of the last VMA, or `0`. -/
def highestEnd (s : St σ η) (ps : List Ptr) : U64 :=
  if lastPtr 0#64 ps = 0#64 then 0#64 else (s.region (lastPtr 0#64 ps)).endAddr

/-- The stored gaps and the stored highest address are exact. -/
structure Gaps (s : St σ η) (ps : List Ptr) (t : PTree Ptr) : Prop where
  aug : Aug s.own s.gapNat t
  highest : s.vmaHighestAddr = highestEnd s ps

theorem Laid.ne_null {ps : List Ptr} {t : PTree Ptr} (h : Laid s ps t) :
    ∀ p ∈ ps, p ≠ 0#64 := by
  rw [← h.list]
  exact h.shape.ne_null

theorem Laid.length_lt {ps : List Ptr} {t : PTree Ptr} (h : Laid s ps t) :
    ps.length < walkBound :=
  length_lt_walkBound h.nodup fun h0 => h.ne_null _ h0 rfl

/-- `ps` cut at an address: what ends at or below it, and what ends above it. -/
structure Cut (s : St σ η) (addr : U64) (l₁ l₂ : List Ptr) : Prop where
  below : ∀ p ∈ l₁, (s.region p).endAddr ≤ addr
  above : ∀ p ∈ l₂, addr < (s.region p).endAddr

/-! ## `vma_find` -/

theorem Sorted.node {l r : PTree Ptr} {p : Ptr}
    (h : Sorted ((PTree.node l p r).toList.map s.region)) :
    Sorted (l.toList.map s.region) ∧ Sorted (r.toList.map s.region) ∧
      (s.region p).startAddr < (s.region p).endAddr ∧
      (∀ q ∈ l.toList, (s.region q).endAddr ≤ (s.region p).startAddr) ∧
      ∀ q ∈ r.toList, (s.region p).endAddr ≤ (s.region q).startAddr := by
  rw [toList_node, List.map_append, List.map_cons] at h
  obtain ⟨h1, h2, h3⟩ := h.append
  obtain ⟨h4, h5⟩ := List.pairwise_cons.mp h2.pairwise
  refine ⟨h1, ⟨h5, fun r hr => h2.lt r (by simp [hr])⟩, h2.lt _ (by simp), ?_, ?_⟩
  · intro q hq
    exact h3 _ (List.mem_map_of_mem hq) _ (by simp)
  · intro q hq
    exact h4 _ (List.mem_map_of_mem hq)

/-- Where the root of a subtree lies relative to a cut of its nodes. -/
theorem cut_node {l r : PTree Ptr} {p : Ptr} {l₁ l₂ : List Ptr}
    (h : (PTree.node l p r).toList = l₁ ++ l₂) :
    (∃ x, l.toList = l₁ ++ x ∧ l₂ = x ++ p :: r.toList) ∨
      ∃ y, l₁ = l.toList ++ p :: y ∧ r.toList = y ++ l₂ := by
  rw [toList_node] at h
  rcases List.append_eq_append_iff.mp h with ⟨y, hl₁, hy⟩ | ⟨x, hl, hl₂⟩
  · cases y with
    | nil => exact Or.inl ⟨[], by simpa using hl₁.symm, by simpa using hy.symm⟩
    | cons q y =>
        obtain ⟨rfl, hr⟩ := List.cons.inj hy
        exact Or.inr ⟨y, hl₁, hr⟩
  · exact Or.inl ⟨x, hl, hl₂⟩

/-- The walk of `vma_find` through a subtree: the head of what ends above the
address, or else what had been found before. -/
theorem vmaFindLoop_spec {addr : U64} (a : PTree Ptr) :
    ∀ (fuel : Nat) (par x vma : Ptr) (l₁ l₂ : List Ptr), a.toList.length < fuel →
      Shape s.rbLinks par x a → Sorted (a.toList.map s.region) → a.toList = l₁ ++ l₂ →
      Cut s addr l₁ l₂ → vmaFindLoop addr fuel x vma s = some (headPtr vma l₂) := by
  induction a with
  | leaf =>
      intro fuel par x vma l₁ l₂ hf hs _ hl _
      obtain ⟨n, rfl⟩ : ∃ n, fuel = n + 1 := ⟨fuel - 1, by omega⟩
      obtain ⟨-, rfl⟩ := List.append_eq_nil_iff.mp hl.symm
      have hx : x = 0#64 := hs
      simp [vmaFindLoop, hx]
  | node l p r ihl ihr =>
      intro fuel par x vma l₁ l₂ hf hs hsort hl hcut
      obtain ⟨n, rfl⟩ : ∃ n, fuel = n + 1 := ⟨fuel - 1, by omega⟩
      obtain ⟨rfl, hne, -, hsl, hsr⟩ := hs
      simp only [St.rbLinks_null, St.rbLinks_child] at hne hsl hsr
      obtain ⟨hsortl, hsortr, hlt, hpl, hpr⟩ := hsort.node
      simp only [toList_node, List.length_append, List.length_cons] at hf
      rcases cut_node hl with ⟨y, hly, rfl⟩ | ⟨y, rfl, hry⟩
      · -- the root ends above the address
        have hp : addr < (s.region x).endAddr := hcut.above x (by simp)
        by_cases hin : (s.region x).startAddr ≤ addr
        · have hy : y = [] := by
            rcases y with _ | ⟨q, y⟩
            · rfl
            · have h1 := hcut.above q (by simp)
              have h2 := hpl q (by simp [hly])
              bv_omega
          subst hy
          simp [vmaFindLoop, hne, hp, hin]
        · rw [vmaFindLoop, if_neg hne, if_pos hp, if_neg hin,
            ihl n x (s.child .left x) x l₁ y (by omega) hsl hsortl hly
              ⟨hcut.below, fun q hq => hcut.above q (by simp [hq])⟩]
          cases y <;> simp
      · have hp : (s.region x).endAddr ≤ addr := hcut.below x (by simp)
        have hp' : ¬ addr < (s.region x).endAddr := by bv_omega
        rw [vmaFindLoop, if_neg hne, if_neg hp',
          ihr n x (s.child .right x) vma y l₂ (by omega) hsr hsortr hry
            ⟨fun q hq => hcut.below q (by simp [hq]), hcut.above⟩]

/-- `vma_find` returns the first VMA that ends above the address. -/
theorem vmaFind_spec {ps l₁ l₂ : List Ptr} {t : PTree Ptr} {addr : U64} (h : Laid s ps t)
    (hs : Sorted (ps.map s.region)) (hps : ps = l₁ ++ l₂) (hcut : Cut s addr l₁ l₂) :
    vmaFind addr s = some (headPtr 0#64 l₂) :=
  vmaFindLoop_spec t walkBound 0#64 s.vmaRbRoot 0#64 l₁ l₂ (by rw [h.list]; exact h.length_lt)
    h.shape (by rw [h.list]; exact hs) (h.list.trans hps) hcut

/-! ## `vma_find_links` -/

/-- The link that a path ends in. -/
def linkOf : Path Ptr → Link
  | [] => .root
  | f :: _ => .child f.side f.ptr

/-- What `vma_find_links` hands back at the end of a path. -/
def foundAt (c : Path Ptr) (par : Ptr) : FindLinks :=
  { prev := lastPtr 0#64 (before c), link := linkOf c, parent := par }

/-- The VMA overlaps the area, in the sense in which `vma_find_links` tests it. -/
def Overlaps (s : St σ η) (addr end' : U64) (p : Ptr) : Prop :=
  addr < (s.region p).endAddr ∧ (s.region p).startAddr < end'

theorem before_cons_left (c : Path Ptr) (p : Ptr) (r : PTree Ptr) :
    before (⟨.left, p, r⟩ :: c) = before c := by simp [before]

theorem after_cons_left (c : Path Ptr) (p : Ptr) (r : PTree Ptr) :
    after (⟨.left, p, r⟩ :: c) = p :: r.toList ++ after c := by simp [after]

theorem before_cons_right (c : Path Ptr) (p : Ptr) (l : PTree Ptr) :
    before (⟨.right, p, l⟩ :: c) = before c ++ l.toList ++ [p] := by simp [before]

theorem after_cons_right (c : Path Ptr) (p : Ptr) (l : PTree Ptr) :
    after (⟨.right, p, l⟩ :: c) = after c := by simp [after]

/-- The walk of `vma_find_links` through a subtree at the end of the path `c`. -/
theorem vmaFindLinksLoop_spec (addr end' : U64) (a : PTree Ptr) :
    ∀ (fuel : Nat) (c : Path Ptr) (par x : Ptr), a.toList.length < fuel →
      PathShape s.rbLinks 0#64 s.vmaRbRoot c par x → Shape s.rbLinks par x a →
      Sorted (a.toList.map s.region) → Cut s addr (before c) (after c) →
      ((∃ q ∈ a.toList, Overlaps s addr end' q) →
        vmaFindLinksLoop addr end' fuel x (foundAt c par) s = some none) ∧
      ((∀ q ∈ a.toList, ¬ Overlaps s addr end' q) →
        ∃ c' par', vmaFindLinksLoop addr end' fuel x (foundAt c par) s =
            some (some (foundAt c' par')) ∧
          plug c' leaf = plug c a ∧ PathShape s.rbLinks 0#64 s.vmaRbRoot c' par' 0#64 ∧
          Cut s addr (before c') (after c')) := by
  induction a with
  | leaf =>
      intro fuel c par x hf hc hs _ hcut
      obtain ⟨n, rfl⟩ : ∃ n, fuel = n + 1 := ⟨fuel - 1, by omega⟩
      obtain rfl : x = 0#64 := hs
      exact ⟨by simp, fun _ => ⟨c, par, by simp [vmaFindLinksLoop], rfl, hc, hcut⟩⟩
  | node l p r ihl ihr =>
      intro fuel c par x hf hc hs hsort hcut
      obtain ⟨n, rfl⟩ : ∃ n, fuel = n + 1 := ⟨fuel - 1, by omega⟩
      obtain ⟨rfl, hne, hpar, hsl, hsr⟩ := hs
      simp only [St.rbLinks_null, St.rbLinks_child, St.rbLinks_parent] at hne hsl hsr hpar
      obtain ⟨hsortl, hsortr, hlt, hpl, hpr⟩ := hsort.node
      simp only [toList_node, List.length_append, List.length_cons] at hf
      by_cases hp : addr < (s.region x).endAddr
      · by_cases hover : (s.region x).startAddr < end'
        · refine ⟨fun _ => by simp [vmaFindLinksLoop, hne, hp, hover], fun hno => ?_⟩
          exact absurd ⟨hp, hover⟩ (hno x (by simp))
        · -- everything from the root on starts at or above `end'`
          have hright : ∀ q, q = x ∨ q ∈ r.toList → ¬ Overlaps s addr end' q := by
            rintro q (rfl | hq) ⟨-, h2⟩
            · exact hover h2
            · have := hpr q hq
              bv_omega
          have hstep : vmaFindLinksLoop addr end' (n + 1) x (foundAt c par) s =
              vmaFindLinksLoop addr end' n (s.child .left x)
                (foundAt (⟨.left, x, r⟩ :: c) x) s := by
            rw [vmaFindLinksLoop, if_neg hne, if_pos hp, if_neg hover]
            simp [foundAt, linkOf, before_cons_left]
          have hcut' : Cut s addr (before (⟨.left, x, r⟩ :: c)) (after (⟨.left, x, r⟩ :: c)) := by
            rw [before_cons_left, after_cons_left]
            refine ⟨hcut.below, fun q hq => ?_⟩
            simp only [List.cons_append, List.mem_cons, List.mem_append] at hq
            rcases hq with rfl | hq | hq
            · exact hp
            · have h1 := hpr q hq
              have h2 := hsortr.lt _ (List.mem_map_of_mem hq)
              bv_omega
            · exact hcut.above q hq
          obtain ⟨h1, h2⟩ := ihl n (⟨.left, x, r⟩ :: c) x (s.child .left x) (by omega)
            ⟨rfl, hne, rfl, hsr, by rw [St.rbLinks_parent, hpar]; exact hc⟩ hsl hsortl hcut'
          rw [hstep]
          refine ⟨?_, fun hno => ?_⟩
          · rintro ⟨q, hq, hov⟩
            simp only [toList_node, List.mem_append, List.mem_cons] at hq
            rcases hq with hq | hq
            · exact h1 ⟨q, hq, hov⟩
            · exact absurd hov (hright q hq)
          · exact h2 fun q hq => hno q (by simp [hq])
      · -- everything up to the root ends at or below the address
        have hleft : ∀ q, q ∈ l.toList ∨ q = x → (s.region q).endAddr ≤ addr := by
          rintro q (hq | rfl)
          · have := hpl q hq
            bv_omega
          · bv_omega
        have hstep : vmaFindLinksLoop addr end' (n + 1) x (foundAt c par) s =
            vmaFindLinksLoop addr end' n (s.child .right x)
              (foundAt (⟨.right, x, l⟩ :: c) x) s := by
          rw [vmaFindLinksLoop, if_neg hne, if_neg hp]
          simp only [foundAt, linkOf, before_cons_right, lastPtr_append_singleton]
        have hcut' : Cut s addr (before (⟨.right, x, l⟩ :: c)) (after (⟨.right, x, l⟩ :: c)) := by
          rw [before_cons_right, after_cons_right]
          refine ⟨fun q hq => ?_, hcut.above⟩
          simp only [List.mem_append, List.mem_singleton] at hq
          rcases hq with (hq | hq) | hq
          · exact hcut.below q hq
          · exact hleft q (Or.inl hq)
          · exact hleft q (Or.inr hq)
        obtain ⟨h1, h2⟩ := ihr n (⟨.right, x, l⟩ :: c) x (s.child .right x) (by omega)
          ⟨rfl, hne, rfl, hsl, by rw [St.rbLinks_parent, hpar]; exact hc⟩ hsr hsortr hcut'
        rw [hstep]
        refine ⟨?_, fun hno => ?_⟩
        · rintro ⟨q, hq, hov⟩
          simp only [toList_node, List.mem_append, List.mem_cons] at hq
          rcases hq with hq | rfl | hq
          · exact absurd hov.1 (by have := hleft q (Or.inl hq); bv_omega)
          · exact absurd hov.1 hp
          · exact h1 ⟨q, hq, hov⟩
        · exact h2 fun q hq => hno q (by simp [hq])

/-- Two cuts of a sorted list at the same address are the same. -/
theorem Cut.unique {addr : U64} {l₁ l₂ m₁ m₂ : List Ptr} (h : Cut s addr l₁ l₂)
    (h' : Cut s addr m₁ m₂) (heq : l₁ ++ l₂ = m₁ ++ m₂) : l₁ = m₁ ∧ l₂ = m₂ := by
  have key : ∀ {a b c d x : List Ptr}, Cut s addr a b → Cut s addr c d → c = a ++ x →
      b = x ++ d → x = [] := by
    intro a b c d x h h' hc hb
    rcases x with _ | ⟨q, x⟩
    · rfl
    · have h1 := h.above q (by simp [hb])
      have h2 := h'.below q (by simp [hc])
      bv_omega
  rcases List.append_eq_append_iff.mp heq with ⟨x, hm, hl⟩ | ⟨x, hl, hm⟩
  · obtain rfl := key h h' hm hl
    exact ⟨by simpa using hm.symm, by simpa using hl⟩
  · obtain rfl := key h' h hl hm
    exact ⟨by simpa using hl, by simpa using hm.symm⟩

/-- `vma_find_links` fails exactly when a VMA overlaps the area, and else finds the
empty link between the VMAs on both sides of the address. -/
theorem vmaFindLinks_spec {ps l₁ l₂ : List Ptr} {t : PTree Ptr} {addr : U64} (end' : U64)
    (h : Laid s ps t) (hs : Sorted (ps.map s.region)) (hps : ps = l₁ ++ l₂)
    (hcut : Cut s addr l₁ l₂) :
    ((∃ q ∈ ps, Overlaps s addr end' q) → vmaFindLinks addr end' s = some none) ∧
    ((∀ q ∈ ps, ¬ Overlaps s addr end' q) →
      ∃ c par, vmaFindLinks addr end' s = some (some (foundAt c par)) ∧ plug c leaf = t ∧
        PathShape s.rbLinks 0#64 s.vmaRbRoot c par 0#64 ∧ before c = l₁ ∧ after c = l₂) := by
  obtain ⟨h1, h2⟩ := vmaFindLinksLoop_spec addr end' t walkBound [] 0#64
    s.vmaRbRoot (by rw [h.list]; exact h.length_lt) ⟨rfl, rfl⟩ h.shape (by rw [h.list]; exact hs)
    ⟨by simp [before], by simp [after]⟩
  rw [h.list] at h1 h2
  refine ⟨h1, fun hno => ?_⟩
  obtain ⟨c, par, hrun, hplug, hpath, hcut'⟩ := h2 hno
  have hlist : before c ++ after c = l₁ ++ l₂ := by
    have := congrArg toList hplug
    rw [toList_plug, plug, h.list, hps] at this
    simpa using this
  obtain ⟨hb, ha⟩ := hcut'.unique hcut hlist
  exact ⟨c, par, hrun, hplug, hpath, hb, ha⟩

end BufferVM
