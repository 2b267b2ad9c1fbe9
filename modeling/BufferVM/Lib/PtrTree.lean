/-
  Lib/PtrTree.lean --- binary trees laid out in a pointer store.

  A tree whose nodes are cells of some memory is described here twice: as an
  inductive `PTree` of pointers, and as the two child links and the parent link
  that the memory holds for every pointer (`Links`).  `Shape` relates the two.
  `Path` is the zipper of a tree, innermost frame first, and `PathShape` says
  that the links lay it out; `shape_plug` glues a path and a subtree together.

  The last part is about augmented trees: every node stores the maximum of an
  attribute over its subtree.  `Aug` and `AugPath` say that these stored maxima
  are exact, the latter relative to the value found at the hole.
-/
import Mathlib.Data.List.Nodup

set_option autoImplicit false

namespace PtrTree

/-! ## Trees and their zippers -/

/-- The two sides a child can hang on. -/
inductive Side where
  | left
  | right
  deriving DecidableEq, Repr

/-- The opposite side. -/
def Side.flip : Side → Side
  | .left => .right
  | .right => .left

@[simp] theorem Side.flip_flip (d : Side) : d.flip.flip = d := by cases d <;> rfl

@[simp] theorem Side.flip_ne (d : Side) : d.flip ≠ d := by cases d <;> decide

@[simp] theorem Side.ne_flip (d : Side) : d ≠ d.flip := by cases d <;> decide

theorem Side.eq_or_eq_flip (d e : Side) : e = d ∨ e = d.flip := by
  cases d <;> cases e <;> simp [Side.flip]

/-- A binary tree of pointers. -/
inductive PTree (P : Type) where
  | leaf
  | node (l : PTree P) (p : P) (r : PTree P)

/-- One step of a path: the hole hangs on `side` of `ptr`, and `sib` hangs on
the other side. -/
structure Frame (P : Type) where
  side : Side
  ptr : P
  sib : PTree P

/-- The way from a hole up to the root, innermost frame first. -/
abbrev Path (P : Type) : Type := List (Frame P)

section

variable {P : Type}

namespace PTree

/-- The in-order traversal. -/
def toList : PTree P → List P
  | leaf => []
  | node l p r => l.toList ++ p :: r.toList

/-- The node `p` with `t` on side `d` and `u` on the other side. -/
def join (d : Side) (t : PTree P) (p : P) (u : PTree P) : PTree P :=
  match d with
  | .left => node t p u
  | .right => node u p t

@[simp] theorem toList_leaf : (leaf : PTree P).toList = [] := rfl

@[simp] theorem toList_node (l r : PTree P) (p : P) :
    (node l p r).toList = l.toList ++ p :: r.toList := rfl

@[simp] theorem mem_join {d : Side} {t u : PTree P} {p q : P} :
    q ∈ (join d t p u).toList ↔ q = p ∨ q ∈ t.toList ∨ q ∈ u.toList := by
  cases d <;> simp [join] <;> tauto

theorem nodup_join {d : Side} {t u : PTree P} {p : P} :
    (join d t p u).toList.Nodup ↔
      p ∉ t.toList ∧ p ∉ u.toList ∧ t.toList.Nodup ∧ u.toList.Nodup ∧
        ∀ q ∈ t.toList, q ∉ u.toList := by
  cases d <;> simp [join, List.nodup_append, List.nodup_cons] <;> grind

/-- A node is a `join` seen from either side. -/
theorem node_eq_join (d : Side) (l r : PTree P) (p : P) :
    ∃ t u, node l p r = join d t p u := by
  cases d
  · exact ⟨l, r, rfl⟩
  · exact ⟨r, l, rfl⟩

end PTree

open PTree

/-- Put a tree back into the hole of a path. -/
def plug : Path P → PTree P → PTree P
  | [], t => t
  | f :: c, t => plug c (join f.side t f.ptr f.sib)

/-- What the traversal of a plugged tree visits before the hole. -/
def before : Path P → List P
  | [] => []
  | f :: c => before c ++ (match f.side with
      | .left => []
      | .right => f.sib.toList ++ [f.ptr])

/-- What the traversal of a plugged tree visits after the hole. -/
def after : Path P → List P
  | [] => []
  | f :: c => (match f.side with
      | .left => f.ptr :: f.sib.toList
      | .right => []) ++ after c

theorem toList_plug (c : Path P) (t : PTree P) :
    (plug c t).toList = before c ++ t.toList ++ after c := by
  induction c generalizing t with
  | nil => simp [plug, before, after]
  | cons f c ih =>
      rw [plug, ih]
      cases hs : f.side <;> simp [before, after, join, hs]

/-- The pointers of a path: its frames and everything hanging off them. -/
def ptrs (c : Path P) : List P := c.flatMap fun f => f.ptr :: f.sib.toList

@[simp] theorem ptrs_nil : ptrs ([] : Path P) = [] := rfl

@[simp] theorem mem_ptrs_cons {f : Frame P} {c : Path P} {q : P} :
    q ∈ ptrs (f :: c) ↔ q = f.ptr ∨ q ∈ f.sib.toList ∨ q ∈ ptrs c := by
  simp [ptrs]

theorem mem_plug {c : Path P} {t : PTree P} {q : P} :
    q ∈ (plug c t).toList ↔ q ∈ t.toList ∨ q ∈ ptrs c := by
  induction c generalizing t with
  | nil => simp [plug]
  | cons f c ih =>
      rw [plug, ih]
      simp
      tauto

/-- Distinctness of a plugged tree, split at the hole. -/
theorem nodup_plug {c : Path P} {t : PTree P} :
    (plug c t).toList.Nodup ↔
      t.toList.Nodup ∧ (plug c leaf).toList.Nodup ∧ ∀ q ∈ t.toList, q ∉ ptrs c := by
  have hmem : ∀ q, q ∈ ptrs c ↔ q ∈ before c ∨ q ∈ after c := by
    intro q
    have := mem_plug (c := c) (t := leaf) (q := q)
    simp [toList_plug] at this
    tauto
  simp only [toList_plug, toList_leaf, List.append_nil, List.nodup_append, List.mem_append]
  grind

theorem nodup_plug_cons {f : Frame P} {c : Path P} {t : PTree P} :
    (plug (f :: c) t).toList.Nodup ↔
      (join f.side t f.ptr f.sib).toList.Nodup ∧ (plug c leaf).toList.Nodup ∧
        ∀ q ∈ (join f.side t f.ptr f.sib).toList, q ∉ ptrs c := by
  rw [plug, nodup_plug]

theorem length_plug (c : Path P) (t : PTree P) :
    (plug c t).toList.length = t.toList.length + (ptrs c).length := by
  induction c generalizing t with
  | nil => simp [plug]
  | cons f c ih =>
      rw [plug, ih]
      cases hs : f.side <;> simp [join, ptrs] <;> omega

theorem length_le_ptrs (c : Path P) : c.length ≤ (ptrs c).length := by
  induction c with
  | nil => simp
  | cons f c ih =>
      simp only [ptrs, List.flatMap_cons, List.length_append, List.length_cons] at ih ⊢
      omega

/-- Paths compose. -/
theorem plug_append (c c' : Path P) (t : PTree P) :
    plug (c ++ c') t = plug c' (plug c t) := by
  induction c generalizing t with
  | nil => rfl
  | cons f c ih => simpa [plug] using ih _

/-- Every node of a tree is the root of a subtree at the end of some path. -/
theorem exists_path_of_mem {t : PTree P} {p : P} (h : p ∈ t.toList) :
    ∃ (c : Path P) (l r : PTree P), t = plug c (node l p r) := by
  induction t with
  | leaf => simp at h
  | node l q r ihl ihr =>
      simp only [toList_node, List.mem_append, List.mem_cons] at h
      rcases h with hl | rfl | hr
      · obtain ⟨c, a, b, rfl⟩ := ihl hl
        exact ⟨c ++ [⟨.left, q, r⟩], a, b, by simp [plug_append, plug, join]⟩
      · exact ⟨[], l, r, rfl⟩
      · obtain ⟨c, a, b, rfl⟩ := ihr hr
        exact ⟨c ++ [⟨.right, q, l⟩], a, b, by simp [plug_append, plug, join]⟩

end

/-! ## Links and shapes -/

/-- The links a memory holds for every pointer. -/
structure Links (P : Type) where
  null : P
  child : Side → P → P
  parent : P → P

/-- `Shape L par p t`: the pointer `p`, whose parent is `par`, is the root of
the tree `t`. -/
def Shape {P : Type} (L : Links P) : P → P → PTree P → Prop
  | _, p, .leaf => p = L.null
  | par, p, .node l q r => p = q ∧ q ≠ L.null ∧ L.parent q = par ∧
      Shape L q (L.child .left q) l ∧ Shape L q (L.child .right q) r

instance Shape.decidable {P : Type} [DecidableEq P] (L : Links P) :
    (par p : P) → (t : PTree P) → Decidable (Shape L par p t)
  | _, p, .leaf => inferInstanceAs (Decidable (p = L.null))
  | par, p, .node l q r =>
      have := Shape.decidable L q (L.child .left q) l
      have := Shape.decidable L q (L.child .right q) r
      inferInstanceAs (Decidable (p = q ∧ q ≠ L.null ∧ L.parent q = par ∧
        Shape L q (L.child .left q) l ∧ Shape L q (L.child .right q) r))

/-- `PathShape L tp top c par p`: the path `c` leads from the pointer `top`,
whose parent is `tp`, down to the pointer `p`, whose parent is `par`. -/
def PathShape {P : Type} (L : Links P) (tp top : P) : Path P → P → P → Prop
  | [], par, p => par = tp ∧ p = top
  | f :: c, par, p => par = f.ptr ∧ f.ptr ≠ L.null ∧ L.child f.side f.ptr = p ∧
      Shape L f.ptr (L.child f.side.flip f.ptr) f.sib ∧
      PathShape L tp top c (L.parent f.ptr) f.ptr

instance PathShape.decidable {P : Type} [DecidableEq P] (L : Links P) (tp top : P) :
    (c : Path P) → (par p : P) → Decidable (PathShape L tp top c par p)
  | [], par, p => inferInstanceAs (Decidable (par = tp ∧ p = top))
  | f :: c, par, p =>
      have := PathShape.decidable L tp top c (L.parent f.ptr) f.ptr
      inferInstanceAs (Decidable (par = f.ptr ∧ f.ptr ≠ L.null ∧ L.child f.side f.ptr = p ∧
        Shape L f.ptr (L.child f.side.flip f.ptr) f.sib ∧
        PathShape L tp top c (L.parent f.ptr) f.ptr))

section

variable {P : Type} {L L' : Links P}

open PTree

@[simp] theorem shape_leaf {par p : P} : Shape L par p leaf ↔ p = L.null := Iff.rfl

theorem shape_join {d : Side} {par p q : P} {t u : PTree P} :
    Shape L par p (join d t q u) ↔ p = q ∧ q ≠ L.null ∧ L.parent q = par ∧
      Shape L q (L.child d q) t ∧ Shape L q (L.child d.flip q) u := by
  cases d
  · exact Iff.rfl
  · simp only [join, Shape, Side.flip]
    tauto

/-- The root pointer of a nonempty shape is one of its nodes. -/
theorem Shape.root_mem {par p : P} {t : PTree P} (h : Shape L par p t) (hp : p ≠ L.null) :
    p ∈ t.toList := by
  cases t with
  | leaf => exact absurd h hp
  | node l q r => simp [h.1]

theorem Shape.ne_null {par p : P} {t : PTree P} (h : Shape L par p t) :
    ∀ q ∈ t.toList, q ≠ L.null := by
  induction t generalizing par p with
  | leaf => simp
  | node l q r ihl ihr =>
      obtain ⟨-, hq, -, hl, hr⟩ := h
      simp only [toList_node, List.mem_append, List.mem_cons]
      rintro x (hx | rfl | hx)
      · exact ihl hl x hx
      · exact hq
      · exact ihr hr x hx

/-- A shape at the null pointer is empty. -/
theorem Shape.eq_leaf {par p : P} {t : PTree P} (h : Shape L par p t) (hp : p = L.null) :
    t = leaf := by
  cases t with
  | leaf => rfl
  | node l q r => exact absurd (h.1.symm.trans hp) h.2.1

/-- The links lay out one tree only. -/
theorem Shape.unique {par par' p : P} {t t' : PTree P} (h : Shape L par p t)
    (h' : Shape L par' p t') : t = t' := by
  induction t generalizing par par' p t' with
  | leaf => exact (h'.eq_leaf h).symm
  | node l q r ihl ihr =>
      obtain ⟨rfl, hq, -, hl, hr⟩ := h
      cases t' with
      | leaf => exact absurd h' hq
      | node l' q' r' =>
          obtain ⟨rfl, -, -, hl', hr'⟩ := h'
          rw [ihl hl hl', ihr hr hr']

/-- A shape at a pointer that is not null is a node, split from either side. -/
theorem Shape.exists_join {par p : P} {t : PTree P} (d : Side) (h : Shape L par p t)
    (hp : p ≠ L.null) : ∃ a b, t = join d a p b ∧ L.parent p = par ∧
      Shape L p (L.child d p) a ∧ Shape L p (L.child d.flip p) b := by
  cases t with
  | leaf => exact absurd h hp
  | node l q r =>
      obtain ⟨a, b, hab⟩ := node_eq_join d l r q
      rw [hab] at h ⊢
      obtain ⟨rfl, -, hpar, ha, hb⟩ := shape_join.mp h
      exact ⟨a, b, rfl, hpar, ha, hb⟩

/-- A shape survives every change that keeps the links of its nodes; the parent
of its root may become another one. -/
theorem Shape.congr {par par' p : P} {t : PTree P} (h : Shape L par p t)
    (hnd : t.toList.Nodup) (hnull : L'.null = L.null)
    (hc : ∀ q ∈ t.toList, ∀ d, L'.child d q = L.child d q)
    (hp : ∀ q ∈ t.toList, q ≠ p → L'.parent q = L.parent q)
    (hroot : p ≠ L.null → L'.parent p = par') : Shape L' par' p t := by
  induction t generalizing par par' p with
  | leaf => exact h.trans hnull.symm
  | node l q r ihl ihr =>
      obtain ⟨rfl, hq, -, hl, hr⟩ := h
      obtain ⟨hpl, hpr, hndl, hndr, hdisj⟩ := (nodup_join (d := .left)).mp hnd
      -- the children keep `p` as their parent, and none of their nodes is `p`
      have parentOf : ∀ x ∈ (node l p r).toList, x ≠ p → L'.parent x = L.parent x := hp
      have rootl : L.child .left p ≠ L.null → L'.parent (L.child .left p) = p := by
        intro hne
        have hm := hl.root_mem hne
        rw [parentOf _ (by simp [hm]) (by grind)]
        obtain ⟨a, b, -, hpar, -⟩ := hl.exists_join .left hne
        exact hpar
      have rootr : L.child .right p ≠ L.null → L'.parent (L.child .right p) = p := by
        intro hne
        have hm := hr.root_mem hne
        rw [parentOf _ (by simp [hm]) (by grind)]
        obtain ⟨a, b, -, hpar, -⟩ := hr.exists_join .left hne
        exact hpar
      refine ⟨rfl, hnull ▸ hq, hroot hq, ?_, ?_⟩
      · rw [hc p (by simp) .left]
        exact ihl hl hndl (fun x hx => hc x (by simp [hx]))
          (fun x hx hne => parentOf x (by simp [hx]) (by grind)) rootl
      · rw [hc p (by simp) .right]
        exact ihr hr hndr (fun x hx => hc x (by simp [hx]))
          (fun x hx hne => parentOf x (by simp [hx]) (by grind)) rootr

/-- The shape of a subtree whose nodes keep all their links. -/
theorem Shape.frame {par p : P} {t : PTree P} (h : Shape L par p t)
    (hnull : L'.null = L.null)
    (hc : ∀ q ∈ t.toList, ∀ d, L'.child d q = L.child d q)
    (hp : ∀ q ∈ t.toList, L'.parent q = L.parent q) : Shape L' par p t := by
  induction t generalizing par p with
  | leaf => exact h.trans hnull.symm
  | node l q r ihl ihr =>
      obtain ⟨rfl, hq, hpar, hl, hr⟩ := h
      refine ⟨rfl, hnull ▸ hq, by rw [hp p (by simp), hpar], ?_, ?_⟩
      · rw [hc p (by simp)]
        exact ihl hl (fun x hx => hc x (by simp [hx])) (fun x hx => hp x (by simp [hx]))
      · rw [hc p (by simp)]
        exact ihr hr (fun x hx => hc x (by simp [hx])) (fun x hx => hp x (by simp [hx]))

/-- A plugged tree is laid out when its path and the subtree in the hole are. -/
theorem shape_plug {tp top : P} {c : Path P} {t : PTree P} :
    Shape L tp top (plug c t) ↔
      ∃ par p, PathShape L tp top c par p ∧ Shape L par p t := by
  induction c generalizing t with
  | nil =>
      simp only [plug, PathShape]
      constructor
      · intro h; exact ⟨tp, top, ⟨rfl, rfl⟩, h⟩
      · rintro ⟨_, _, ⟨rfl, rfl⟩, h⟩; exact h
  | cons f c ih =>
      rw [plug, ih]
      constructor
      · rintro ⟨par, p, hc, h⟩
        obtain ⟨rfl, hq, rfl, ht, hu⟩ := shape_join.mp h
        exact ⟨f.ptr, _, ⟨rfl, hq, rfl, hu, hc⟩, ht⟩
      · rintro ⟨par, p, ⟨rfl, hq, rfl, hu, hc⟩, ht⟩
        exact ⟨_, _, hc, shape_join.mpr ⟨rfl, hq, rfl, ht, hu⟩⟩

theorem PathShape.ne_null {tp top par p : P} {c : Path P}
    (h : PathShape L tp top c par p) : ∀ q ∈ ptrs c, q ≠ L.null := by
  induction c generalizing par p with
  | nil => simp
  | cons f c ih =>
      obtain ⟨-, hq, -, hu, hc⟩ := h
      simp only [mem_ptrs_cons]
      rintro x (rfl | hx | hx)
      · exact hq
      · exact hu.ne_null x hx
      · exact ih hc x hx

/-- A path whose pointers keep all their links. -/
theorem PathShape.frame {tp top par p : P} {c : Path P}
    (h : PathShape L tp top c par p) (hnull : L'.null = L.null)
    (hc : ∀ q ∈ ptrs c, ∀ d, L'.child d q = L.child d q)
    (hp : ∀ q ∈ ptrs c, L'.parent q = L.parent q) : PathShape L' tp top c par p := by
  induction c generalizing par p with
  | nil => exact h
  | cons f c ih =>
      obtain ⟨rfl, hq, hch, hu, hrest⟩ := h
      refine ⟨rfl, hnull ▸ hq, ?_, ?_, ?_⟩
      · rw [hc f.ptr (by simp), hch]
      · rw [hc f.ptr (by simp)]
        exact hu.frame hnull (fun x hx => hc x (by simp [hx])) (fun x hx => hp x (by simp [hx]))
      · rw [hp f.ptr (by simp)]
        exact ih hrest (fun x hx => hc x (by simp [hx])) (fun x hx => hp x (by simp [hx]))

/-- The pointer at the top of a path is one of its frames. -/
theorem PathShape.top_mem {tp top par p : P} {c : Path P}
    (h : PathShape L tp top c par p) (hc : c ≠ []) : top ∈ ptrs c := by
  induction c generalizing par p with
  | nil => exact absurd rfl hc
  | cons f c ih =>
      obtain ⟨-, -, -, -, hrest⟩ := h
      cases c with
      | nil => simp [hrest.2]
      | cons g c => exact mem_ptrs_cons.mpr (Or.inr (Or.inr (ih hrest (by simp))))

/-- The parent seen at the end of a path is null exactly at the root. -/
theorem PathShape.par_eq {top par p : P} {c : Path P}
    (h : PathShape L L.null top c par p) : par = L.null ↔ c = [] := by
  cases c with
  | nil => simp [h.1]
  | cons f c => simp [h.1, h.2.1]

/-- A path whose pointers keep all their links but for the parent of the topmost
one. -/
theorem PathShape.retop {tp tp' top par p : P} {c : Path P}
    (h : PathShape L tp top c par p) (hne : c ≠ []) (hnull : L'.null = L.null)
    (hnd : (plug c leaf).toList.Nodup)
    (hc : ∀ q ∈ ptrs c, ∀ d, L'.child d q = L.child d q)
    (hp : ∀ q ∈ ptrs c, q ≠ top → L'.parent q = L.parent q)
    (htop : L'.parent top = tp') : PathShape L' tp' top c par p := by
  induction c generalizing par p with
  | nil => exact absurd rfl hne
  | cons f c ih =>
      obtain ⟨rfl, hq, hch, hu, hrest⟩ := h
      obtain ⟨hj, hndc, hdisj⟩ := nodup_plug_cons.mp hnd
      obtain ⟨-, hfu, -, -, -⟩ := nodup_join.mp hj
      have hsibTop : ∀ x ∈ f.sib.toList, x ≠ top := by
        rintro x hx rfl
        cases c with
        | nil => exact hfu (hrest.2 ▸ hx)
        | cons g c => exact hdisj x (by simp [hx]) (hrest.top_mem (by simp))
      refine ⟨rfl, hnull ▸ hq, ?_, ?_, ?_⟩
      · rw [hc f.ptr (by simp), hch]
      · rw [hc f.ptr (by simp)]
        exact hu.frame hnull (fun x hx => hc x (by simp [hx]))
          (fun x hx => hp x (by simp [hx]) (hsibTop x hx))
      · cases c with
        | nil => exact ⟨by rw [hrest.2, htop], hrest.2⟩
        | cons g c =>
            have hmem := hrest.top_mem (by simp)
            have hft : f.ptr ≠ top := by rintro rfl; exact hdisj f.ptr (by simp) hmem
            rw [hp f.ptr (by simp) hft]
            exact ih hrest (by simp) hndc
              (fun x hx => hc x (mem_ptrs_cons.mpr (Or.inr (Or.inr hx))))
              (fun x hx => hp x (mem_ptrs_cons.mpr (Or.inr (Or.inr hx))))

/-- A path survives every change that keeps the links of its pointers, except
that another pointer may be hung into the hole. -/
theorem PathShape.congr {tp top top' par p p' : P} {c : Path P}
    (h : PathShape L tp top c par p) (hnull : L'.null = L.null)
    (hnd : (plug c leaf).toList.Nodup)
    (hc : ∀ q ∈ ptrs c, ∀ d, (∀ f ∈ c.head?, ¬ (q = f.ptr ∧ d = f.side)) →
      L'.child d q = L.child d q)
    (hp : ∀ q ∈ ptrs c, L'.parent q = L.parent q)
    (hhole : ∀ f ∈ c.head?, L'.child f.side f.ptr = p')
    (htop : top' = if c = [] then p' else top) :
    PathShape L' tp top' c par p' := by
  cases c with
  | nil =>
      obtain ⟨rfl, rfl⟩ := h
      exact ⟨rfl, by simp [htop]⟩
  | cons f c =>
      obtain ⟨rfl, hq, rfl, hu, hrest⟩ := h
      obtain ⟨hj, hndc, hdisj⟩ := nodup_plug_cons.mp hnd
      obtain ⟨-, hfu, -, -, -⟩ := nodup_join.mp hj
      simp only [reduceCtorEq, if_false] at htop
      subst htop
      refine ⟨rfl, hnull ▸ hq, hhole f (by simp), ?_, ?_⟩
      · rw [hc f.ptr (by simp) f.side.flip (by simp)]
        refine hu.frame hnull (fun x hx d => hc x (by simp [hx]) d ?_)
          (fun x hx => hp x (by simp [hx]))
        rintro g hg ⟨rfl, -⟩
        simp only [List.head?_cons, Option.mem_def, Option.some.injEq] at hg
        subst hg
        exact hfu hx
      · rw [hp f.ptr (by simp)]
        -- the rest of the path does not see the hole at all
        have hcx : ∀ q ∈ ptrs c, ∀ d, L'.child d q = L.child d q := by
          intro x hx d
          refine hc x (by simp [hx]) d ?_
          rintro g hg ⟨rfl, -⟩
          simp only [List.head?_cons, Option.mem_def, Option.some.injEq] at hg
          subst hg
          exact hdisj f.ptr (by simp) hx
        have hpx : ∀ q ∈ ptrs c, L'.parent q = L.parent q :=
          fun x hx => hp x (by simp [hx])
        exact hrest.frame hnull hcx hpx

end

/-! ## Augmented trees -/

/-- The maximum of an attribute over a list of pointers. -/
def sup {P : Type} (own : P → Nat) (l : List P) : Nat :=
  l.foldr (fun p m => max (own p) m) 0

/-- Every node stores the maximum of the attribute over its subtree. -/
def Aug {P : Type} (own stored : P → Nat) : PTree P → Prop
  | .leaf => True
  | .node l p r => stored p = sup own (PTree.node l p r).toList ∧
      Aug own stored l ∧ Aug own stored r

instance Aug.decidable {P : Type} (own stored : P → Nat) :
    (t : PTree P) → Decidable (Aug own stored t)
  | .leaf => .isTrue trivial
  | .node l p r =>
      have := Aug.decidable own stored l
      have := Aug.decidable own stored r
      inferInstanceAs (Decidable (stored p = sup own (PTree.node l p r).toList ∧
        Aug own stored l ∧ Aug own stored r))

/-- Every node stores at least the maximum of the attribute over its subtree. -/
def AugBound {P : Type} (own stored : P → Nat) : PTree P → Prop
  | .leaf => True
  | .node l p r => sup own (PTree.node l p r).toList ≤ stored p ∧
      AugBound own stored l ∧ AugBound own stored r

/-- Every frame of a path stores the maximum over the subtree below it, when the
subtree in the hole has the maximum `m`. -/
def AugPath {P : Type} (own stored : P → Nat) : Path P → Nat → Prop
  | [], _ => True
  | f :: c, m => stored f.ptr = max (own f.ptr) (max m (sup own f.sib.toList)) ∧
      Aug own stored f.sib ∧ AugPath own stored c (stored f.ptr)

/-- The stored maxima above the innermost frame are exact; that frame itself may
be stale. -/
def AugAbove {P : Type} (own stored : P → Nat) : Path P → Prop
  | [] => True
  | f :: c => Aug own stored f.sib ∧ AugPath own stored c (stored f.ptr)

section

variable {P : Type} {own stored stored' : P → Nat}

open PTree

@[simp] theorem sup_nil : sup own ([] : List P) = 0 := rfl

@[simp] theorem sup_cons (p : P) (l : List P) :
    sup own (p :: l) = max (own p) (sup own l) := rfl

@[simp] theorem sup_append (l l' : List P) :
    sup own (l ++ l') = max (sup own l) (sup own l') := by
  induction l with
  | nil => simp
  | cons p l ih => simp [ih, Nat.max_assoc]

theorem sup_congr {own' : P → Nat} {l : List P} (h : ∀ p ∈ l, own' p = own p) :
    sup own' l = sup own l := by
  induction l with
  | nil => rfl
  | cons p l ih =>
      rw [sup_cons, sup_cons, h p (by simp), ih fun q hq => h q (by simp [hq])]

theorem sup_join (d : Side) (t u : PTree P) (p : P) :
    sup own (join d t p u).toList =
      max (own p) (max (sup own t.toList) (sup own u.toList)) := by
  cases d <;> simp [join] <;> omega

theorem aug_join {d : Side} {t u : PTree P} {p : P} :
    Aug own stored (join d t p u) ↔
      stored p = max (own p) (max (sup own t.toList) (sup own u.toList)) ∧
        Aug own stored t ∧ Aug own stored u := by
  cases d <;> simp only [join, Aug, toList_node, sup_append, sup_cons] <;> grind

theorem Aug.congr {t : PTree P} (h : Aug own stored t) {own' : P → Nat}
    (ho : ∀ p ∈ t.toList, own' p = own p)
    (hs : ∀ p ∈ t.toList, stored' p = stored p) : Aug own' stored' t := by
  induction t with
  | leaf => trivial
  | node l p r ihl ihr =>
      obtain ⟨hp, hl, hr⟩ := h
      refine ⟨?_, ?_, ?_⟩
      · rw [hs p (by simp), hp, sup_congr ho]
      · exact ihl hl (fun x hx => ho x (by simp [hx])) fun x hx => hs x (by simp [hx])
      · exact ihr hr (fun x hx => ho x (by simp [hx])) fun x hx => hs x (by simp [hx])

theorem le_sup {l : List P} {p : P} (h : p ∈ l) : own p ≤ sup own l := by
  induction l with
  | nil => simp at h
  | cons q l ih =>
      rw [sup_cons]
      rcases List.mem_cons.mp h with rfl | hp
      · exact Nat.le_max_left _ _
      · exact Nat.le_trans (ih hp) (Nat.le_max_right _ _)

theorem Aug.bound {t : PTree P} (h : Aug own stored t) : AugBound own stored t := by
  induction t with
  | leaf => trivial
  | node l p r ihl ihr => exact ⟨Nat.le_of_eq h.1.symm, ihl h.2.1, ihr h.2.2⟩

/-- No node of a laid-out tree has an attribute above what its root stores. -/
theorem AugBound.le_root {L : Links P} {par p q : P} {t : PTree P} (h : AugBound own stored t)
    (hs : Shape L par p t) (hq : q ∈ t.toList) : own q ≤ stored p := by
  cases t with
  | leaf => simp at hq
  | node l r' r =>
      obtain ⟨rfl, -⟩ := hs
      exact Nat.le_trans (le_sup hq) h.1

theorem AugPath.congr {c : Path P} {m : Nat} (h : AugPath own stored c m)
    {own' : P → Nat} (ho : ∀ p ∈ ptrs c, own' p = own p)
    (hs : ∀ p ∈ ptrs c, stored' p = stored p) : AugPath own' stored' c m := by
  induction c generalizing m with
  | nil => trivial
  | cons f c ih =>
      obtain ⟨hp, hu, hc⟩ := h
      refine ⟨?_, ?_, ?_⟩
      · rw [hs f.ptr (by simp), hp, ho f.ptr (by simp),
          sup_congr fun x hx => ho x (by simp [hx])]
      · exact hu.congr (fun x hx => ho x (by simp [hx])) fun x hx => hs x (by simp [hx])
      · rw [hs f.ptr (by simp)]
        exact ih hc (fun x hx => ho x (by simp [hx])) fun x hx => hs x (by simp [hx])

theorem AugPath.above {c : Path P} {m : Nat} (h : AugPath own stored c m) :
    AugAbove own stored c := by
  cases c with
  | nil => trivial
  | cons f c => exact h.2

theorem aug_plug {c : Path P} {t : PTree P} :
    Aug own stored (plug c t) ↔
      Aug own stored t ∧ AugPath own stored c (sup own t.toList) := by
  induction c generalizing t with
  | nil => simp [plug, AugPath]
  | cons f c ih =>
      rw [plug, ih, aug_join, sup_join, AugPath]
      constructor
      · rintro ⟨⟨hp, ht, hu⟩, hc⟩; exact ⟨ht, hp, hu, hp ▸ hc⟩
      · rintro ⟨ht, hp, hu, hc⟩; exact ⟨⟨hp, ht, hu⟩, hp ▸ hc⟩

/-- When the attribute of one node changes, the stored maxima stay exact if and only if the
maximum of its subtree stays the same. -/
theorem aug_change_iff {c : Path P} {l r : PTree P} {p : P} (own' : P → Nat)
    (hnd : (plug c (node l p r)).toList.Nodup) (h : Aug own stored (plug c (node l p r)))
    (ho : ∀ q ∈ (plug c (node l p r)).toList, q ≠ p → own' q = own q) :
    Aug own' stored (plug c (node l p r)) ↔
      max (own' p) (max (sup own l.toList) (sup own r.toList)) =
        max (own p) (max (sup own l.toList) (sup own r.toList)) := by
  obtain ⟨hj, -, hdisj⟩ := nodup_plug.mp hnd
  obtain ⟨hpl, hpr, -, -, -⟩ := (nodup_join (d := .left)).mp hj
  have hmem : ∀ q, q ∈ l.toList ∨ q ∈ r.toList ∨ q ∈ ptrs c → own' q = own q := by
    intro q hq
    refine ho q (mem_plug.mpr ?_) ?_
    · simp only [toList_node, List.mem_append, List.mem_cons]
      tauto
    · rintro rfl
      rcases hq with hq | hq | hq
      · exact hpl hq
      · exact hpr hq
      · exact hdisj q (by simp) hq
  have hsl : sup own' l.toList = sup own l.toList := sup_congr fun q hq => hmem q (Or.inl hq)
  have hsr : sup own' r.toList = sup own r.toList :=
    sup_congr fun q hq => hmem q (Or.inr (Or.inl hq))
  have hnode : sup own' (node l p r).toList =
      max (own' p) (max (sup own l.toList) (sup own r.toList)) := by
    rw [← hsl, ← hsr]
    exact sup_join .left l r p
  have hnode' : sup own (node l p r).toList =
      max (own p) (max (sup own l.toList) (sup own r.toList)) := sup_join .left l r p
  rw [← hnode, ← hnode']
  obtain ⟨⟨hp, hl, hr⟩, hc⟩ := aug_plug.mp h
  constructor
  · intro h'
    obtain ⟨⟨hp', -, -⟩, -⟩ := aug_plug.mp h'
    exact hp'.symm.trans hp
  · intro heq
    refine aug_plug.mpr ⟨⟨hp.trans heq.symm, ?_, ?_⟩, ?_⟩
    · exact hl.congr (fun q hq => hmem q (Or.inl hq)) fun _ _ => rfl
    · exact hr.congr (fun q hq => hmem q (Or.inr (Or.inl hq))) fun _ _ => rfl
    · rw [heq]
      exact hc.congr (fun q hq => hmem q (Or.inr (Or.inr hq))) fun _ _ => rfl

/-- The stored maximum of the root of a laid-out augmented tree. -/
theorem Aug.stored_root {L : Links P} {par p : P} {t : PTree P} (h : Aug own stored t)
    (hs : Shape L par p t) (hp : p ≠ L.null) : stored p = sup own t.toList := by
  cases t with
  | leaf => exact absurd hs hp
  | node l q r => rw [hs.1]; exact h.1

end

end PtrTree
