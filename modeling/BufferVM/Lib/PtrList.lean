/-
  Lib/PtrList.lean --- null-terminated doubly linked lists in a pointer store.

  The list head is treated as the successor of the null pointer, so that a list
  is one chain of links from null back to null and an edit at either end is an
  edit in the middle.  `Chain.splice` is the one edit rule: replacing a segment
  of a list touches the successor of the node before it, the predecessor of the
  node after it, and the segment itself.
-/
import Mathlib.Data.List.Chain
import Mathlib.Data.List.Nodup

set_option autoImplicit false

namespace PtrList

/-- The links a memory holds for every pointer; `next null` is the list head. -/
structure Links (P : Type) where
  null : P
  next : P → P
  prev : P → P

section

variable {P : Type} {L M : Links P}

/-- `y` follows `x`, and knows it. -/
def Linked (L : Links P) (x y : P) : Prop :=
  L.next x = y ∧ (y ≠ L.null → L.prev y = x)

/-- The links lay out the list `l`. -/
def Chain (L : Links P) (l : List P) : Prop :=
  List.IsChain (Linked L) (L.null :: (l ++ [L.null]))

instance [DecidableEq P] (L : Links P) (l : List P) : Decidable (Chain L l) :=
  have : DecidableRel (Linked L) := fun x y =>
    inferInstanceAs (Decidable (L.next x = y ∧ (y ≠ L.null → L.prev y = x)))
  inferInstanceAs (Decidable (List.IsChain (Linked L) (L.null :: (l ++ [L.null]))))

/-- The last pointer of `l`, or `null` when `l` is empty. -/
def lastPtr (null : P) (l : List P) : P := (null :: l).getLast (by simp)

/-- The first pointer of `l`, or `null` when `l` is empty. -/
def headPtr (null : P) (l : List P) : P := (l ++ [null]).head (by simp)

@[simp] theorem lastPtr_nil (null : P) : lastPtr null [] = null := rfl

@[simp] theorem lastPtr_append_singleton (null x : P) (l : List P) :
    lastPtr null (l ++ [x]) = x := by
  simp [lastPtr]

@[simp] theorem headPtr_nil (null : P) : headPtr null [] = null := rfl

@[simp] theorem headPtr_cons (null x : P) (l : List P) : headPtr null (x :: l) = x := rfl

theorem lastPtr_mem {null : P} {l : List P} (h : lastPtr null l ≠ null) :
    lastPtr null l ∈ l := by
  rcases l.eq_nil_or_concat with rfl | ⟨l, x, rfl⟩
  · exact absurd rfl h
  · simp

theorem headPtr_mem {null : P} {l : List P} (h : headPtr null l ≠ null) :
    headPtr null l ∈ l := by
  cases l with
  | nil => exact absurd rfl h
  | cons x l => simp

theorem exists_lastPtr (null : P) (l : List P) :
    ∃ a, null :: l = a ++ [lastPtr null l] :=
  ⟨(null :: l).dropLast, ((null :: l).dropLast_append_getLast (by simp)).symm⟩

theorem exists_headPtr (null : P) (l : List P) :
    ∃ b, l ++ [null] = headPtr null l :: b :=
  ⟨(l ++ [null]).tail, (List.cons_head_tail (by simp)).symm⟩

/-- A chain, cut in front of and behind a segment. -/
theorem isChain_segment {R : P → P → Prop} (a b mid : List P) (m k : P) :
    List.IsChain R (a ++ [m] ++ mid ++ k :: b) ↔
      List.IsChain R (a ++ [m]) ∧ List.IsChain R (m :: (mid ++ [k])) ∧
        List.IsChain R (k :: b) := by
  have hm : a ++ [m] ++ mid ++ k :: b = a ++ m :: (mid ++ k :: b) := by simp
  have hk : List.IsChain R (m :: (mid ++ k :: b)) ↔
      List.IsChain R (m :: (mid ++ [k])) ∧ List.IsChain R (k :: b) :=
    @List.isChain_split _ _ _ (m :: mid) _
  rw [hm, List.isChain_split, hk]

/-- The first of two neighbours is not the last pointer. -/
theorem fst_mem_of_infix {a : List P} {m x y : P} (h : [x, y] <:+: a ++ [m]) : x ∈ a := by
  obtain ⟨u, v, huv⟩ := h
  have ha : a = (u ++ [x, y] ++ v).dropLast := by rw [huv]; simp
  rcases v.eq_nil_or_concat with rfl | ⟨v, z, rfl⟩
  · simp [ha]
  · have hz : u ++ [x, y] ++ (v ++ [z]) = (u ++ [x, y] ++ v) ++ [z] := by simp
    rw [ha, List.concat_eq_append, hz, List.dropLast_concat]
    simp

/-- The second of two neighbours is not the first pointer. -/
theorem snd_mem_of_infix {b : List P} {k x y : P} (h : [x, y] <:+: k :: b) : y ∈ b := by
  obtain ⟨u, v, huv⟩ := h
  cases u with
  | nil =>
      obtain ⟨-, rfl⟩ := List.cons.inj huv
      simp
  | cons z u =>
      obtain ⟨-, rfl⟩ := List.cons.inj huv
      simp

/-- Links of consecutive pointers of a list without repetition carry over as
long as the successor of every pointer but the last and the predecessor of every
pointer but the first are kept. -/
theorem isChain_linked_congr {l : List P} (h : List.IsChain (Linked L) l)
    (hnull : M.null = L.null)
    (hn : ∀ x y, [x, y] <:+: l → M.next x = L.next x)
    (hp : ∀ x y, [x, y] <:+: l → y ≠ L.null → M.prev y = L.prev y) :
    List.IsChain (Linked M) l := by
  rw [List.isChain_iff_forall_rel_of_append_cons_cons] at h ⊢
  intro x y l₁ l₂ hl
  have hxy : [x, y] <:+: l := ⟨l₁, l₂, by simp [hl]⟩
  obtain ⟨hnext, hprev⟩ := h hl
  refine ⟨by rw [hn x y hxy, hnext], fun hy => ?_⟩
  rw [hnull] at hy
  rw [hp x y hxy hy, hprev hy]

/-- Replacing the segment `mid` of a list by `mid'`. -/
theorem Chain.splice {l₁ l₂ w : List P} (mid : List P) (h : Chain L (l₁ ++ w ++ l₂))
    (hnull : M.null = L.null) (hnd : (l₁ ++ l₂).Nodup) (hl : L.null ∉ l₁ ++ l₂)
    (hn : ∀ x, (x = L.null ∨ x ∈ l₁ ∨ x ∈ l₂) → x ≠ lastPtr L.null l₁ →
      M.next x = L.next x)
    (hp : ∀ x ∈ l₁ ++ l₂, x ≠ headPtr L.null l₂ → M.prev x = L.prev x)
    (hmid : List.IsChain (Linked M)
      (lastPtr L.null l₁ :: (mid ++ [headPtr L.null l₂]))) :
    Chain M (l₁ ++ mid ++ l₂) := by
  obtain ⟨a, ha⟩ := exists_lastPtr L.null l₁
  obtain ⟨b, hb⟩ := exists_headPtr L.null l₂
  generalize hm : lastPtr L.null l₁ = m at *
  generalize hk : headPtr L.null l₂ = k at *
  have cut : ∀ seg : List P, L.null :: (l₁ ++ seg ++ l₂ ++ [L.null]) =
      a ++ [m] ++ seg ++ k :: b := by
    intro seg
    rw [← ha, ← hb]
    simp
  unfold Chain at h ⊢
  rw [cut, isChain_segment] at h
  rw [hnull, cut, isChain_segment]
  refine ⟨isChain_linked_congr h.1 hnull ?_ ?_, hmid, isChain_linked_congr h.2.2 hnull ?_ ?_⟩
  · intro x y hxy
    -- `x` is not the last pointer of `null :: l₁`, which has no repetition
    have hx : x ∈ a := fst_mem_of_infix hxy
    have hnd' : (a ++ [m]).Nodup := by rw [← ha]; grind
    have hmem : x ∈ L.null :: l₁ := by rw [ha]; simp [hx]
    exact hn x (by grind) (by grind)
  · intro x y hxy hy
    have hmem : y ∈ L.null :: l₁ := by rw [ha]; exact hxy.subset (by simp)
    have hkmem : k ∈ l₂ ++ [L.null] := by rw [hb]; simp
    exact hp y (by grind) (by grind)
  · intro x y hxy
    have hx : x ∈ l₂ := fst_mem_of_infix (hb ▸ hxy)
    have hmmem : m ∈ L.null :: l₁ := by rw [ha]; simp
    exact hn x (Or.inr (Or.inr hx)) (by grind)
  · intro x y hxy hy
    have hyb : y ∈ b := snd_mem_of_infix hxy
    have hnd' : (k :: b).Nodup := by rw [← hb]; grind
    have hmem : y ∈ l₂ ++ [L.null] := by rw [hb]; simp [hyb]
    exact hp y (by grind) (by grind)

/-- A list whose nodes keep their links. -/
theorem Chain.frame {l : List P} (h : Chain L l) (hnull : M.null = L.null)
    (hhead : M.next L.null = L.next L.null)
    (hn : ∀ x ∈ l, M.next x = L.next x) (hp : ∀ x ∈ l, M.prev x = L.prev x) :
    Chain M l := by
  unfold Chain at h ⊢
  rw [hnull]
  refine isChain_linked_congr h hnull ?_ ?_
  · rintro x y ⟨u, v, huv⟩
    have hmem : x ∈ L.null :: (l ++ [L.null]) := by rw [← huv]; simp
    by_cases hx : x = L.null
    · rw [hx, hhead]
    · exact hn x (by simpa [hx] using hmem)
  · rintro x y ⟨u, v, huv⟩ hy
    have hmem : y ∈ L.null :: (l ++ [L.null]) := by rw [← huv]; simp
    exact hp y (by simpa [hy] using hmem)

/-- What a chain says around one cut. -/
theorem Chain.cut (l₁ l₂ : List P) (h : Chain L (l₁ ++ l₂)) :
    L.next (lastPtr L.null l₁) = headPtr L.null l₂ ∧
      (headPtr L.null l₂ ≠ L.null →
        L.prev (headPtr L.null l₂) = lastPtr L.null l₁) := by
  obtain ⟨a, ha⟩ := exists_lastPtr L.null l₁
  obtain ⟨b, hb⟩ := exists_headPtr L.null l₂
  have heq : L.null :: (l₁ ++ l₂ ++ [L.null]) =
      a ++ [lastPtr L.null l₁] ++ [] ++ headPtr L.null l₂ :: b := by
    rw [← ha, ← hb]
    simp
  unfold Chain at h
  rw [heq, isChain_segment] at h
  simpa [Linked] using h.2.1

/-- The successor of a node is the head of what follows it. -/
theorem Chain.next_eq {l₁ l₂ : List P} {x : P} (h : Chain L (l₁ ++ x :: l₂)) :
    L.next x = headPtr L.null l₂ := by
  have := (Chain.cut (l₁ ++ [x]) l₂ (by simpa using h)).1
  simpa using this

/-- The predecessor of a node is the last of what precedes it. -/
theorem Chain.prev_eq {l₁ l₂ : List P} {x : P} (h : Chain L (l₁ ++ x :: l₂))
    (hx : x ≠ L.null) : L.prev x = lastPtr L.null l₁ := by
  simpa using (Chain.cut l₁ (x :: l₂) h).2 (by simpa using hx)

/-- The head of the list is the successor of null. -/
theorem Chain.head_eq {l : List P} (h : Chain L l) : L.next L.null = headPtr L.null l := by
  simpa using (Chain.cut [] l (by simpa using h)).1

end

end PtrList
