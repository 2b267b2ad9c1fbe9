/-
  Kernel/GapSearch.lean --- `find_next_gap` finds the highest gap.

  The loops of `find_next_gap` visit the nodes of the tree from the last to the first and
  skip a subtree only when none of its nodes has a gap that would do.  What they return is
  therefore the last node of the list whose gap would do, whatever the shape of the tree
  is; the stored gaps need not be exact, they only must not be too small.
-/
import BufferVM.Kernel.WellFormed

set_option autoImplicit false

namespace BufferVM

open PtrTree PtrTree.PTree PtrList

variable {σ η : Type} {s : St σ η}

/-! ## The gap in front of a node -/

/-- The gap in front of a node would do: it does not begin above `highRange`, is long
enough, and does not end below `lowRange`. -/
def GapFits (s : St σ η) (lowRange highRange length : U64) (p : Ptr) : Prop :=
  prevEnd s p ≤ highRange ∧ length ≤ (s.region p).startAddr - prevEnd s p ∧
    lowRange ≤ (s.region p).startAddr

instance (s : St σ η) (lowRange highRange length : U64) (p : Ptr) :
    Decidable (GapFits s lowRange highRange length p) := inferInstanceAs (Decidable (_ ∧ _))

/-- The last node of a list whose gap would do. -/
def lastFit (s : St σ η) (lowRange highRange length : U64) (l : List Ptr) : Option Ptr :=
  l.reverse.find? fun p => decide (GapFits s lowRange highRange length p)

/-- `gap_start` and `gap_end` at a node. -/
def gapOf (s : St σ η) (p : Ptr) : U64 × U64 := (prevEnd s p, (s.region p).startAddr)

/-- The nodes are in order: what is before a node ends at or below the end of its
predecessor, and that is not above its start. -/
structure GapOrder (s : St σ η) (ps : List Ptr) : Prop where
  before_le : ∀ l₁ q l₂, ps = l₁ ++ q :: l₂ → ∀ p ∈ l₁, (s.region p).endAddr ≤ prevEnd s q
  prev_le : ∀ q ∈ ps, prevEnd s q ≤ (s.region q).startAddr
  lt : ∀ q ∈ ps, (s.region q).startAddr < (s.region q).endAddr

theorem highestEnd_le {ps : List Ptr} {a : U64} (h : ∀ p ∈ ps, (s.region p).endAddr ≤ a) :
    highestEnd s ps ≤ a := by
  rw [highestEnd]
  split
  · bv_omega
  · rename_i hne
    exact h _ (lastPtr_mem hne)

theorem le_highestEnd {ps : List Ptr} (h0 : 0#64 ∉ ps) (hs : Sorted (ps.map s.region)) :
    ∀ p ∈ ps, (s.region p).endAddr ≤ highestEnd s ps := by
  intro p hp
  rcases ps.eq_nil_or_concat with rfl | ⟨l, x, rfl⟩
  · simp at hp
  · have hx : x ≠ 0#64 := fun h => h0 (by simp [h])
    rw [highestEnd, List.concat_eq_append, lastPtr_append_singleton, if_neg hx]
    rw [List.concat_eq_append, List.map_append] at hs
    obtain ⟨-, hlast, hlt⟩ := hs.append
    rcases List.mem_append.mp (List.concat_eq_append ▸ hp) with hp | hp
    · have h1 := hlt _ (List.mem_map_of_mem hp) (s.region x) (by simp)
      have h2 := hlast.lt (s.region x) (by simp)
      bv_omega
    · rw [List.mem_singleton.mp hp]
      exact BitVec.le_refl _

theorem prevEnd_eq {l₁ l₂ : List Ptr} {q : Ptr} (h : Chain s.listLinks (l₁ ++ q :: l₂))
    (hq : q ≠ 0#64) : prevEnd s q = highestEnd s l₁ := by
  have hprev : (s.vma q).prev = lastPtr 0#64 l₁ := h.prev_eq hq
  rw [prevEnd, highestEnd, hprev]
  split <;> simp_all

theorem gapOrder_of_chain {ps : List Ptr} (hch : Chain s.listLinks ps)
    (hs : Sorted (ps.map s.region)) (h0 : 0#64 ∉ ps) : GapOrder s ps := by
  have hcut : ∀ l₁ q l₂, ps = l₁ ++ q :: l₂ → prevEnd s q = highestEnd s l₁ := by
    rintro l₁ q l₂ rfl
    exact prevEnd_eq hch fun h => h0 (by simp [h])
  refine ⟨fun l₁ q l₂ hps p hp => ?_, fun q hq => ?_, fun q hq => hs.lt _ (List.mem_map_of_mem hq)⟩
  · rw [hcut l₁ q l₂ hps]
    subst hps
    rw [List.map_append] at hs
    exact le_highestEnd (fun h => h0 (by simp [h])) hs.append.1 p hp
  · obtain ⟨l₁, l₂, rfl⟩ := List.append_of_mem hq
    rw [hcut l₁ q l₂ rfl]
    rw [List.map_append, List.map_cons] at hs
    exact highestEnd_le fun p hp => hs.around.1 _ (List.mem_map_of_mem hp)

theorem own_eq_prevEnd (s : St σ η) (p : Ptr) :
    s.own p = ((s.region p).startAddr - prevEnd s p).toNat := by
  rw [St.own, prevEnd, St.region, St.region]
  split <;> simp_all

/-! ## The order of the visits -/

section Loop

variable {lowRange highRange length : U64} {ps : List Ptr}

theorem lastFit_append (l₁ l₂ : List Ptr) :
    lastFit s lowRange highRange length (l₁ ++ l₂) =
      (lastFit s lowRange highRange length l₂).or (lastFit s lowRange highRange length l₁) := by
  rw [lastFit, List.reverse_append, List.find?_append]
  rfl

theorem lastFit_eq_none {l : List Ptr}
    (h : ∀ p ∈ l, ¬ GapFits s lowRange highRange length p) :
    lastFit s lowRange highRange length l = none := by
  rw [lastFit, List.find?_eq_none]
  intro p hp
  simpa using h p (List.mem_reverse.mp hp)

/-- What is behind the nodes that do not fit is what counts. -/
theorem lastFit_append_of_none {l₁ l₂ : List Ptr}
    (h : ∀ p ∈ l₂, ¬ GapFits s lowRange highRange length p) :
    lastFit s lowRange highRange length (l₁ ++ l₂) = lastFit s lowRange highRange length l₁ := by
  rw [lastFit_append, lastFit_eq_none h, Option.none_or]

theorem lastFit_concat_of_fits {l : List Ptr} {p : Ptr}
    (h : GapFits s lowRange highRange length p) :
    lastFit s lowRange highRange length (l ++ [p]) = some p := by
  simp [lastFit, h]

/-- The steps that are enough to leave a path from its hole: what hangs to the left of it
has yet to be searched. -/
def climbSteps : Path Ptr → Nat
  | [] => 1
  | ⟨.left, _, _⟩ :: c => climbSteps c + 1
  | ⟨.right, _, l⟩ :: c => 4 * l.toList.length + 3 + climbSteps c

/-- Leaving the subtree at `x`, the search goes on with what is in front of it. -/
def Climbs (s : St σ η) (lowRange highRange length : U64) (c : Path Ptr) (x : Ptr) : Prop :=
  ∀ fuel, climbSteps c ≤ fuel → findNextGapLoop lowRange highRange length fuel .climb x s =
    some ((lastFit s lowRange highRange length (before c)).map (gapOf s))

/-- No node of a subtree fits when the search skips it for its stored gap. -/
theorem not_fits_of_gap {par x : Ptr} {a : PTree Ptr} (ha : AugBound s.own s.gapNat a)
    (hs : Shape s.rbLinks par x a) (hgap : ¬ (x ≠ 0#64 ∧ length ≤ s.gap x)) :
    ∀ q ∈ a.toList, ¬ GapFits s lowRange highRange length q := by
  rintro q hq ⟨-, hlen, -⟩
  have hx : x ≠ 0#64 := by
    intro h
    rw [hs.eq_leaf h] at hq
    simp at hq
  have hroot := ha.le_root hs hq
  rw [own_eq_prevEnd, St.gapNat] at hroot
  have : length ≤ s.gap x := by bv_omega
  exact hgap ⟨hx, this⟩

/-- From the label `check_current` at a node on, its left subtree and what is in front of
it are searched. -/
theorem checkCurrent_spec (hord : GapOrder s ps) {c : Path Ptr} {par x : Ptr} {l r : PTree Ptr}
    (hps : (plug c (node l x r)).toList = ps) (hs : Shape s.rbLinks par x (node l x r))
    (ha : AugBound s.own s.gapNat l) (hup : Climbs s lowRange highRange length c x)
    (hdescend : ∀ fuel, s.child .left x ≠ 0#64 → 4 * l.toList.length + climbSteps c + 1 ≤ fuel →
      findNextGapLoop lowRange highRange length fuel .descend (s.child .left x) s =
        some ((lastFit s lowRange highRange length (before c ++ l.toList)).map (gapOf s)))
    {fuel : Nat} (hf : 4 * l.toList.length + climbSteps c + 2 ≤ fuel) :
    findNextGapLoop lowRange highRange length fuel (.checkCurrent (prevEnd s x)) x s =
      some ((lastFit s lowRange highRange length (before c ++ l.toList ++ [x])).map (gapOf s)) := by
  obtain ⟨n, rfl⟩ : ∃ n, fuel = n + 1 := ⟨fuel - 1, by omega⟩
  obtain ⟨-, -, -, hsl, -⟩ := hs
  have hlist : ps = (before c ++ l.toList) ++ x :: (r.toList ++ after c) := by
    rw [← hps, toList_plug]
    simp
  rw [findNextGapLoop]
  by_cases hlow : (s.region x).startAddr < lowRange
  · -- nothing in front of the node starts higher
    rw [if_pos hlow, lastFit_eq_none, Option.map_none]
    rintro q hq ⟨-, -, hqlow⟩
    rcases List.mem_append.mp hq with hq | hq
    · have h1 := hord.before_le _ x _ hlist q hq
      have h2 := hord.prev_le x (by simp [hlist])
      have h3 := hord.lt q (by rw [hlist]; exact List.mem_append_left _ hq)
      bv_omega
    · rw [List.mem_singleton.mp hq] at hqlow
      bv_omega
  · rw [if_neg hlow]
    have hlow' : lowRange ≤ (s.region x).startAddr := by bv_omega
    by_cases hfit : prevEnd s x ≤ highRange ∧
        length ≤ (s.region x).startAddr - prevEnd s x
    · rw [if_pos hfit, lastFit_concat_of_fits ⟨hfit.1, hfit.2, hlow'⟩]
      rfl
    · have hnot : ¬ GapFits s lowRange highRange length x := fun h => hfit ⟨h.1, h.2.1⟩
      rw [if_neg hfit, lastFit_append_of_none (by simpa using hnot)]
      by_cases hleft : s.child .left x ≠ 0#64 ∧ length ≤ s.gap (s.child .left x)
      · rw [if_pos hleft]
        exact hdescend n hleft.1 (by omega)
      · rw [if_neg hleft, lastFit_append_of_none (not_fits_of_gap ha hsl hleft)]
        exact hup n (by omega)

/-- From the head of the outer loop at the root of a subtree on, the subtree and what is
in front of it are searched. -/
theorem descend_spec (hord : GapOrder s ps) (hnd : ps.Nodup) (a : PTree Ptr) :
    ∀ (c : Path Ptr) (par x : Ptr) (fuel : Nat), (plug c a).toList = ps →
      Shape s.rbLinks par x a → AugBound s.own s.gapNat a → x ≠ 0#64 →
      Climbs s lowRange highRange length c x → 4 * a.toList.length + climbSteps c ≤ fuel →
      findNextGapLoop lowRange highRange length fuel .descend x s =
        some ((lastFit s lowRange highRange length (before c ++ a.toList)).map (gapOf s)) := by
  induction a with
  | leaf =>
      intro c par x fuel _ hs _ hx
      exact absurd hs hx
  | node l p r ihl ihr =>
      intro c par x fuel hps hs ha hx hup hf
      obtain ⟨rfl, -, -, hsl, hsr⟩ := id hs
      simp only [St.rbLinks_child] at hsl hsr
      simp only [toList_node, List.length_append, List.length_cons] at hf
      obtain ⟨n, rfl⟩ : ∃ n, fuel = n + 1 := ⟨fuel - 1, by omega⟩
      rw [← hps, nodup_plug] at hnd
      obtain ⟨-, -, -, -, hdisj⟩ := (nodup_join (d := .left)).mp hnd.1
      -- leaving a child on the left, the search passes the node by
      have hupLeft : s.child .left x ≠ 0#64 →
          Climbs s lowRange highRange length (⟨.left, x, r⟩ :: c) (s.child .left x) := by
        intro hne fuel hfuel
        rw [climbSteps] at hfuel
        obtain ⟨m, rfl⟩ : ∃ m, fuel = m + 1 := ⟨fuel - 1, by omega⟩
        obtain ⟨_, _, -, hparent, -⟩ := hsl.exists_join .left hne
        have hright : s.child .left x ≠ s.child .right x := by
          intro heq
          exact hdisj _ (hsl.root_mem hne) (heq ▸ hsr.root_mem (heq ▸ hne))
        simp only [St.rbLinks_parent] at hparent
        rw [findNextGapLoop, hparent, if_neg hx, if_neg hright, before_cons_left]
        exact hup m (by omega)
      have hcheck : ∀ fuel, 4 * l.toList.length + climbSteps c + 2 ≤ fuel →
          findNextGapLoop lowRange highRange length fuel (.checkCurrent (prevEnd s x)) x s =
            some ((lastFit s lowRange highRange length (before c ++ l.toList ++ [x])).map
              (gapOf s)) := by
        intro fuel hfuel
        refine checkCurrent_spec hord hps hs ha.2.1 hup (fun m hne hm => ?_) hfuel
        have hleft := ihl (⟨.left, x, r⟩ :: c) x (s.child .left x) m hps hsl ha.2.1 hne
          (hupLeft hne) (by rw [climbSteps]; omega)
        rwa [before_cons_left] at hleft
      have hlist : before c ++ (node l x r).toList =
          before c ++ l.toList ++ [x] ++ r.toList := by simp
      rw [findNextGapLoop, hlist]
      by_cases hright : prevEnd s x ≤ highRange ∧ s.child .right x ≠ 0#64 ∧
          length ≤ s.gap (s.child .right x)
      · -- leaving the child on the right, the search comes back to the node
        have hupRight : Climbs s lowRange highRange length (⟨.right, x, l⟩ :: c)
            (s.child .right x) := by
          intro fuel hfuel
          rw [climbSteps] at hfuel
          obtain ⟨m, rfl⟩ : ∃ m, fuel = m + 1 := ⟨fuel - 1, by omega⟩
          obtain ⟨_, _, -, hparent, -⟩ := hsr.exists_join .right hright.2.1
          simp only [St.rbLinks_parent] at hparent
          rw [findNextGapLoop, hparent, if_neg hx, if_pos rfl, before_cons_right]
          exact hcheck m (by omega)
        have hr := ihr (⟨.right, x, l⟩ :: c) x (s.child .right x) n hps hsr ha.2.2 hright.2.1
          hupRight (by rw [climbSteps]; omega)
        rw [if_pos hright]
        rwa [before_cons_right] at hr
      · have hnone : ∀ q ∈ r.toList, ¬ GapFits s lowRange highRange length q := by
          intro q hq hfit
          by_cases hhigh : prevEnd s x ≤ highRange
          · exact not_fits_of_gap ha.2.2 hsr (fun h => hright ⟨hhigh, h⟩) q hq hfit
          · -- the gaps to the right begin above the end of the node
            obtain ⟨l₁, l₂, hql⟩ := List.append_of_mem hq
            have hqlist : ps = (before c ++ l.toList ++ [x] ++ l₁) ++ q :: (l₂ ++ after c) := by
              rw [← hps, toList_plug, toList_node, hql]
              simp
            have h1 := hord.before_le _ q _ hqlist x (by simp)
            have hxps : x ∈ ps := by rw [hqlist]; simp
            have h2 := hord.prev_le x hxps
            have h3 := hord.lt x hxps
            have h4 := hfit.1
            bv_omega
        rw [if_neg hright, hcheck n (by omega), lastFit_append_of_none hnone]

/-- The loops find the last node of the list that fits. -/
theorem findNextGapLoop_spec {a : PTree Ptr} (hord : GapOrder s ps) (hnd : ps.Nodup)
    (h0 : 0#64 ∉ ps) (hshape : Shape s.rbLinks 0#64 s.vmaRbRoot a) (hlist : a.toList = ps)
    (ha : AugBound s.own s.gapNat a) (hroot : s.vmaRbRoot ≠ 0#64) :
    findNextGapLoop lowRange highRange length (4 * walkBound) .descend s.vmaRbRoot s =
      some ((lastFit s lowRange highRange length ps).map (gapOf s)) := by
  obtain ⟨_, _, -, hparent, -⟩ := hshape.exists_join .left hroot
  simp only [St.rbLinks_parent] at hparent
  have htop : Climbs s lowRange highRange length [] s.vmaRbRoot := by
    intro fuel hfuel
    obtain ⟨n, rfl⟩ : ∃ n, fuel = n + 1 := ⟨fuel - 1, by rw [climbSteps] at hfuel; omega⟩
    simp [findNextGapLoop, hparent, before, lastFit]
  have hlen := length_lt_walkBound hnd h0
  have hrun := descend_spec hord hnd a [] 0#64 s.vmaRbRoot (4 * walkBound) hlist hshape ha hroot
    htop (by rw [hlist, climbSteps]; omega)
  rw [hrun, ← hlist]
  rfl

end Loop

/-! ## Free ranges -/

/-- List and tree agree, the highest address is the end of the last VMA, and the stored
gaps are not too small. -/
structure Searchable (s : St σ η) : Prop where
  list : Chain s.listLinks s.nodes
  sorted : Sorted s.regions
  tree : ∃ a, Shape s.rbLinks 0#64 s.vmaRbRoot a ∧ a.toList = s.nodes ∧
    AugBound s.own s.gapNat a
  highest : s.vmaHighestAddr = highestEnd s s.nodes

theorem WellFormed.searchable (h : WellFormed s) : Searchable s := by
  obtain ⟨a, hshape, hlist, haug⟩ := h.tree
  exact ⟨h.list, h.sorted, ⟨a, hshape, hlist, haug.bound⟩, h.highest⟩

/-- The bytes from `a` on are in no VMA. -/
def FreeAt (s : St σ η) (length a : U64) : Prop :=
  ∀ x : U64, a ≤ x → x.toNat < a.toNat + length.toNat → ¬ s.Covered x

/-- A range of the length that is free and inside the bounds. -/
structure GapAt (s : St σ η) (lowRange highRange length a : U64) : Prop where
  low_le : lowRange ≤ a
  le_high : a.toNat + length.toNat ≤ highRange.toNat
  free : FreeAt s length a

section Search

variable {low high length : U64}

theorem Searchable.ne_null (h : Searchable s) : 0#64 ∉ s.nodes := by
  obtain ⟨a, hshape, hlist, -⟩ := h.tree
  intro h0
  exact hshape.ne_null _ (hlist ▸ h0) rfl

theorem Searchable.order (h : Searchable s) : GapOrder s s.nodes :=
  gapOrder_of_chain h.list h.sorted h.ne_null

/-- Above the highest address everything is free. -/
theorem Searchable.free_of_highest (h : Searchable s) {a : U64} (ha : s.vmaHighestAddr ≤ a) :
    FreeAt s length a := by
  rintro x hax - ⟨r, hr, hcov⟩
  obtain ⟨p, hp, rfl⟩ := List.mem_map.mp hr
  have h1 := le_highestEnd h.ne_null h.sorted p hp
  have h2 := h.highest
  have h3 := hcov.2
  bv_omega

/-- A gap that would do has a free range at its upper end. -/
theorem Searchable.gapAt_of_fits (h : Searchable s) (hhigh : length ≤ high)
    (hlow : low ≤ high - length) {q : Ptr} (hq : q ∈ s.nodes)
    (hfit : GapFits s (low + length) (high - length) length q) :
    GapAt s low high length
        ((if high < (s.region q).startAddr then high else (s.region q).startAddr) - length) ∧
      prevEnd s q ≤
        (if high < (s.region q).startAddr then high else (s.region q).startAddr) - length := by
  obtain ⟨hprev, hlen, hstart⟩ := hfit
  have hle := h.order.prev_le q hq
  generalize hg : (if high < (s.region q).startAddr then high else (s.region q).startAddr) = g
  have hgq : g ≤ (s.region q).startAddr ∧ g ≤ high ∧ low + length ≤ g ∧ prevEnd s q ≤
      g - length := by
    split at hg
    · subst hg
      bv_omega
    · subst hg
      bv_omega
  obtain ⟨hgs, hgh, hgl, hgp⟩ := hgq
  refine ⟨⟨by bv_omega, by bv_omega, ?_⟩, hgp⟩
  rintro x hgx hxg ⟨r, hr, hcov⟩
  obtain ⟨p, hp, rfl⟩ := List.mem_map.mp hr
  obtain ⟨l₁, l₂, hps⟩ := List.append_of_mem hq
  have hsorted := h.sorted
  rw [St.regions, hps, List.map_append, List.map_cons] at hsorted
  obtain ⟨-, hlt, hbehind⟩ := hsorted.around
  rw [hps] at hp
  obtain ⟨hc1, hc2⟩ := hcov
  rcases List.mem_append.mp hp with hp | hp
  · have h1 := h.order.before_le l₁ q l₂ hps p hp
    bv_omega
  · rcases List.mem_cons.mp hp with rfl | hp
    · bv_omega
    · have h1 := (hbehind _ (List.mem_map_of_mem hp)).1
      bv_omega

/-- A free range below the highest address is in the gap in front of a node, and that gap
would do. -/
theorem Searchable.fits_of_gapAt (h : Searchable s) (hlen : 0 < length) {a : U64}
    (ha : GapAt s low high length a) (hhigh : ¬ s.vmaHighestAddr ≤ high - length) :
    ∃ q ∈ s.nodes, GapFits s (low + length) (high - length) length q ∧
      a.toNat + length.toNat ≤ (s.region q).startAddr.toNat := by
  obtain ⟨hlow, hle, hfree⟩ := ha
  -- the first node that ends above the range
  obtain ⟨l₁, q, l₂, hps, hbelow, hq⟩ : ∃ l₁ q l₂, s.nodes = l₁ ++ q :: l₂ ∧
      (∀ p ∈ l₁, (s.region p).endAddr ≤ a) ∧ a < (s.region q).endAddr := by
    by_cases hall : ∀ p ∈ s.nodes, (s.region p).endAddr ≤ a
    · have h1 := highestEnd_le hall
      have h2 := h.highest
      exact absurd (by bv_omega) hhigh
    · simp only [not_forall] at hall
      obtain ⟨p, hp, hend⟩ := hall
      obtain ⟨q, hfind⟩ := Option.isSome_iff_exists.mp
        (List.find?_isSome (p := fun p => decide (a < (s.region p).endAddr)) |>.mpr
          ⟨p, hp, by simp only [decide_eq_true_eq]; bv_omega⟩)
      obtain ⟨hq, l₁, l₂, hps, hnone⟩ := List.find?_eq_some_iff_append.mp hfind
      refine ⟨l₁, q, l₂, hps, fun p hp => ?_, by simpa using hq⟩
      have := hnone p hp
      simp only [Bool.not_eq_eq_eq_not, Bool.not_true, decide_eq_false_iff_not] at this
      bv_omega
  have hqmem : q ∈ s.nodes := by rw [hps]; simp
  have hlt := h.order.lt q hqmem
  have hprev : prevEnd s q ≤ a := by
    rw [prevEnd_eq (hps ▸ h.list) fun h0 => h.ne_null (h0 ▸ hqmem)]
    exact highestEnd_le hbelow
  -- the node covers its start, so that is not in the range
  have hstart : a.toNat + length.toNat ≤ (s.region q).startAddr.toNat := by
    by_contra hover
    by_cases hin : a ≤ (s.region q).startAddr
    · exact hfree _ hin (by omega) ⟨_, List.mem_map_of_mem hqmem, BitVec.le_refl _, hlt⟩
    · exact hfree a (BitVec.le_refl _) (by bv_omega)
        ⟨_, List.mem_map_of_mem hqmem, by bv_omega, hq⟩
  refine ⟨q, hqmem, ⟨by bv_omega, by bv_omega, by bv_omega⟩, hstart⟩

/-- What `find_next_gap` is to return: the highest free range of the length inside the
bounds, or `-ENOMEM` when there is none. -/
def IsHighestGap (s : St σ η) (lowRange highRange length r : U64) : Prop :=
  (GapAt s lowRange highRange length r ∧ ∀ a, GapAt s lowRange highRange length a → a ≤ r) ∨
    ((∀ a, ¬ GapAt s lowRange highRange length a) ∧ r = eNOMEM)

theorem findNextGapFound_eq {gapStart gapEnd : U64} (hlow : low ≤ gapEnd - length)
    (hstart : gapStart ≤ gapEnd - length) :
    findNextGapFound low gapStart gapEnd length = some (gapEnd - length) := by
  rw [findNextGapFound, if_pos ⟨hlow, hstart⟩]

/-- The range at the upper end of the gap of the last node that fits is the highest. -/
theorem Searchable.highest_of_lastFit (h : Searchable s) (hlen : 0 < length)
    (hbelow : ¬ s.vmaHighestAddr ≤ high - length) {q : Ptr}
    (hq : lastFit s (low + length) (high - length) length s.nodes = some q) {a : U64}
    (ha : GapAt s low high length a) :
    a ≤ (if high < (s.region q).startAddr then high else (s.region q).startAddr) - length := by
  obtain ⟨hfit, l₁, l₂, hrev, hnone⟩ := List.find?_eq_some_iff_append.mp hq
  obtain ⟨p, hp, hpfit, hap⟩ := h.fits_of_gapAt hlen ha hbelow
  have hps : s.nodes = l₂.reverse ++ q :: l₁.reverse := by
    rw [← List.reverse_reverse s.nodes, hrev]
    simp
  -- the node in whose gap the range is does not come behind the last one that fits
  have hpq : (s.region p).startAddr ≤ (s.region q).startAddr := by
    rw [hps] at hp
    rcases List.mem_append.mp hp with hp | hp
    · have h1 := h.order.before_le _ q _ hps p hp
      have h2 := h.order.prev_le q (by simp [hps])
      have h3 := h.order.lt p (by rw [hps]; exact List.mem_append_left _ hp)
      bv_omega
    · rcases List.mem_cons.mp hp with rfl | hp
      · exact BitVec.le_refl _
      · have h1 := hnone p (List.mem_reverse.mp hp)
        simp [hpfit] at h1
  have hle := ha.le_high
  split <;> bv_omega

/-- `find_next_gap`, whatever the tree looks like. -/
theorem Searchable.findNextGap (h : Searchable s) (lowRange highRange : U64) {length : U64}
    (hlen : 0 < length) :
    ∃ r, BufferVM.findNextGap lowRange highRange length s = some r ∧
      IsHighestGap s lowRange highRange length r := by
  have hnone : (∀ a, ¬ GapAt s lowRange highRange length a) →
      IsHighestGap s lowRange highRange length eNOMEM := fun hno => Or.inr ⟨hno, rfl⟩
  rw [BufferVM.findNextGap]
  by_cases hshort : highRange < length
  · rw [if_pos hshort]
    refine ⟨_, rfl, hnone fun a ha => ?_⟩
    have := ha.le_high
    bv_omega
  rw [if_neg hshort]
  have hhigh : length ≤ highRange := by bv_omega
  by_cases hempty : highRange - length < lowRange
  · simp only [if_pos hempty]
    refine ⟨_, rfl, hnone fun a ha => ?_⟩
    have h1 := ha.le_high
    have h2 := ha.low_le
    bv_omega
  simp only [if_neg hempty]
  have hlow : lowRange ≤ highRange - length := by bv_omega
  by_cases htop : s.vmaHighestAddr ≤ highRange - length
  · -- the range above the last VMA
    rw [if_pos htop, findNextGapFound_eq hlow htop]
    refine ⟨_, rfl, Or.inl ⟨⟨hlow, by bv_omega, h.free_of_highest htop⟩, fun a ha => ?_⟩⟩
    have := ha.le_high
    bv_omega
  rw [if_neg htop]
  obtain ⟨t, hshape, hlist, haug⟩ := h.tree
  have hroot : s.vmaRbRoot ≠ 0#64 := by
    intro h0
    have hnil : s.nodes = [] := by rw [← hlist, hshape.eq_leaf h0, toList_leaf]
    have hzero : s.vmaHighestAddr = 0#64 := by rw [h.highest, hnil]; rfl
    rw [hzero] at htop
    bv_omega
  rw [if_neg hroot]
  -- without a node that fits there is no range
  have hno : (∀ p ∈ s.nodes,
      ¬ GapFits s (lowRange + length) (highRange - length) length p) →
      IsHighestGap s lowRange highRange length eNOMEM := by
    intro hfits
    refine hnone fun a ha => ?_
    obtain ⟨q, hq, hfit, -⟩ := h.fits_of_gapAt hlen ha htop
    exact hfits q hq hfit
  by_cases hgap : s.gap s.vmaRbRoot < length
  · rw [if_pos hgap]
    refine ⟨_, rfl, hno fun p hp => ?_⟩
    refine not_fits_of_gap haug hshape (fun hge => ?_) p (hlist ▸ hp)
    have := hge.2
    bv_omega
  rw [if_neg hgap, findNextGapLoop_spec h.order h.sorted.nodup h.ne_null hshape hlist haug hroot]
  cases hlast : lastFit s (lowRange + length) (highRange - length) length s.nodes with
  | none =>
      refine ⟨_, rfl, hno fun p hp => ?_⟩
      rw [lastFit, List.find?_eq_none] at hlast
      simpa using hlast p (List.mem_reverse.mpr hp)
  | some q =>
      obtain ⟨hfit, -⟩ := List.find?_eq_some_iff_append.mp hlast
      have hq : q ∈ s.nodes := List.mem_reverse.mp (List.mem_of_find?_eq_some hlast)
      obtain ⟨hgapAt, hstart⟩ := h.gapAt_of_fits hhigh hlow hq (by simpa using hfit)
      refine ⟨_, findNextGapFound_eq hgapAt.low_le hstart, Or.inl ⟨hgapAt, fun a ha => ?_⟩⟩
      exact h.highest_of_lastFit hlen htop hlast ha

/-- **The gap search is sound, complete and highest.**  `find_next_gap` returns, so that
neither of its `ASSERT`s fails, and what it returns is the highest free range of the
length inside the bounds, or `-ENOMEM` when there is none. -/
theorem findNextGap_highest (s : St σ η) (h : Searchable s) (lowRange highRange length : U64)
    (hlen : 0 < length) :
    ∃ r, findNextGap lowRange highRange length s = some r ∧
      IsHighestGap s lowRange highRange length r :=
  h.findNextGap lowRange highRange hlen

/-- Of three VMAs: a page fits between the last two, two pages fit below the second only, and
five pages nowhere. -/
theorem findNextGap_highest_threeVmas :
    (∃ r, findNextGap 0#64 0x8000#64 0x2000#64 threeVmaStore = some r ∧
        IsHighestGap threeVmaStore 0#64 0x8000#64 0x2000#64 r) ∧
      findNextGap 0#64 0x8000#64 0x1000#64 threeVmaStore = some 0x7000#64 ∧
      findNextGap 0#64 0x8000#64 0x2000#64 threeVmaStore = some 0x4000#64 ∧
      findNextGap 0#64 0x8000#64 0x5000#64 threeVmaStore = some eNOMEM :=
  ⟨findNextGap_highest threeVmaStore wellFormed_threeVmaStore.searchable 0#64 0x8000#64 0x2000#64
    (by decide), by decide +kernel, by decide +kernel, by decide +kernel⟩

end Search

end BufferVM
