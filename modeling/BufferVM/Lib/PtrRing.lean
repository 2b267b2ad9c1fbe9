/-
  Lib/PtrRing.lean --- rings of pointers in a pointer store.

  The links lead from a fixed node through a list of others and back to it, which is the
  chain of `Lib/PtrList.lean` closed at its fixed node.  `Round.splice` is the one edit rule:
  replacing a segment touches the link of the node in front of it.  A walk from any node
  comes past every other one before it is back.
-/
import BufferVM.Lib.PtrList
import Mathlib.Logic.Function.Iterate

set_option autoImplicit false

namespace PtrRing

open PtrList

variable {P : Type} {next next' : P → P} {x y z : P} {l : List P}

/-- From `x` the links lead through `l` and back to `x`. -/
def Round (next : P → P) (x : P) (l : List P) : Prop :=
  List.IsChain (fun y z => next y = z) (x :: (l ++ [x]))

/-- Every node of the ring is the last one of a front part. -/
theorem exists_front (h : y ∈ x :: l) : ∃ a b, l = a ++ b ∧ lastPtr x a = y := by
  rcases List.mem_cons.mp h with rfl | hy
  · exact ⟨[], l, rfl, rfl⟩
  · obtain ⟨a, b, rfl⟩ := List.append_of_mem hy
    exact ⟨a ++ [y], b, by simp, by simp⟩

theorem lastPtr_mem_cons (x : P) (a : List P) : lastPtr x a ∈ x :: a := by
  obtain ⟨a', ha⟩ := exists_lastPtr x a
  rw [ha]
  simp

theorem headPtr_mem_cons (x : P) (b : List P) : headPtr x b ∈ x :: b := by
  cases b with
  | nil => simp
  | cons y b => simp

/-- Links that are kept, but for the last node, keep the chain. -/
theorem isChain_congr {a : List P} (h : List.IsChain (fun y z => next y = z) (a ++ [x]))
    (hkeep : ∀ y ∈ a, next' y = next y) :
    List.IsChain (fun y z => next' y = z) (a ++ [x]) := by
  rw [List.isChain_iff_forall_rel_of_append_cons_cons] at h ⊢
  intro y z l₁ l₂ hl
  have hy : y ∈ a := fst_mem_of_infix (m := x) (y := z) ⟨l₁, l₂, by rw [hl]; simp⟩
  rw [hkeep y hy]
  exact h hl

/-- The link across a cut. -/
theorem Round.cut {a b : List P} (h : Round next x (a ++ b)) :
    next (lastPtr x a) = headPtr x b := by
  obtain ⟨a', ha⟩ := exists_lastPtr x a
  obtain ⟨b', hb⟩ := exists_headPtr x b
  have heq : x :: (a ++ b ++ [x]) = a' ++ [lastPtr x a] ++ [] ++ headPtr x b :: b' := by
    rw [← ha, ← hb]
    simp
  rw [Round, heq, isChain_segment] at h
  simpa using h.2.1

theorem Round.next_mem (h : Round next x l) (hy : y ∈ x :: l) : next y ∈ x :: l := by
  obtain ⟨a, b, rfl, rfl⟩ := exists_front hy
  rw [h.cut]
  have hmem := headPtr_mem_cons x b
  simp only [List.mem_cons, List.mem_append] at hmem ⊢
  tauto

/-- A node has one predecessor. -/
theorem Round.pred_eq {a b : List P} (h : Round next x (a ++ z :: b))
    (hnd : (x :: (a ++ z :: b)).Nodup) (hy : y ∈ x :: (a ++ z :: b)) (hyz : next y = z) :
    y = lastPtr x a := by
  obtain ⟨c, d, hcd, rfl⟩ := exists_front hy
  rw [hcd] at h hnd
  rw [h.cut] at hyz
  cases d with
  | nil =>
      have hz : z ∈ c := by rw [List.append_nil] at hcd; rw [← hcd]; simp
      rw [headPtr_nil] at hyz
      subst hyz
      exact absurd hz (by simpa using (List.nodup_cons.mp hnd).1)
  | cons w d =>
      rw [headPtr_cons] at hyz
      subst hyz
      have hnd' := (List.nodup_cons.mp hnd).2
      have hwc : w ∉ c := by grind
      have hwd : w ∉ d := by grind
      have hac : c = a := ((List.append_cons_inj_of_notMem hwc hwd).mp hcd.symm).1
      rw [hac]

/-- Replacing the segment `w` of a ring by `mid`. -/
theorem Round.splice {a w b : List P} (mid : List P) (h : Round next x (a ++ w ++ b))
    (hnd : (x :: (a ++ b)).Nodup)
    (hkeep : ∀ y ∈ x :: (a ++ b), y ≠ lastPtr x a → next' y = next y)
    (hmid : List.IsChain (fun y z => next' y = z) (lastPtr x a :: (mid ++ [headPtr x b]))) :
    Round next' x (a ++ mid ++ b) := by
  obtain ⟨a', ha⟩ := exists_lastPtr x a
  obtain ⟨b', hb⟩ := exists_headPtr x b
  generalize hm : lastPtr x a = m at *
  generalize hk : headPtr x b = k at *
  have cut : ∀ seg : List P, x :: (a ++ seg ++ b ++ [x]) = a' ++ [m] ++ seg ++ k :: b' := by
    intro seg
    rw [← ha, ← hb]
    simp
  have hnd' : (a' ++ [m] ++ b).Nodup := by
    rw [← ha]
    simpa using hnd
  unfold Round at h ⊢
  rw [cut, isChain_segment] at h ⊢
  refine ⟨isChain_congr h.1 ?_, hmid, ?_⟩
  · intro y hy
    have hmem : y ∈ x :: a := by rw [ha]; simp [hy]
    exact hkeep y (by grind) (by grind)
  · rw [← hb] at h ⊢
    refine isChain_congr h.2.2 fun y hy => hkeep y (by simp [hy]) (by grind)

/-- A ring whose links are kept. -/
theorem Round.frame (h : Round next x l) (hkeep : ∀ y ∈ x :: l, next' y = next y) :
    Round next' x l := by
  have hchain : List.IsChain (fun y z => next y = z) ((x :: l) ++ [x]) := h
  exact isChain_congr hchain hkeep

/-! ## Walks -/

/-- Where a walk from the fixed node is. -/
theorem Round.iterate (h : Round next x l) (i : Nat) (hi : i ≤ l.length) :
    next^[i] x = lastPtr x (l.take i) := by
  induction i with
  | zero => rfl
  | succ i ih =>
      have hlt : i < l.length := hi
      have hcut : next (lastPtr x (l.take i)) = headPtr x (l.drop i) :=
        Round.cut (by rwa [List.take_append_drop])
      rw [Function.iterate_succ_apply', ih (by omega), hcut, List.drop_eq_getElem_cons hlt,
        headPtr_cons, List.take_succ_eq_append_getElem hlt, lastPtr_append_singleton]

theorem Round.iterate_full (h : Round next x l) : next^[l.length + 1] x = x := by
  have hcut : next (lastPtr x l) = headPtr x [] := Round.cut (by rwa [List.append_nil])
  rw [Function.iterate_succ_apply', h.iterate _ le_rfl, List.take_length, hcut, headPtr_nil]

/-- Every node is reached from every other one. -/
theorem Round.reaches (h : Round next x l) (hy : y ∈ x :: l) (hz : z ∈ x :: l) :
    ∃ k ≤ l.length, next^[k] y = z := by
  obtain ⟨a, b, hab, rfl⟩ := exists_front hy
  obtain ⟨c, d, hcd, rfl⟩ := exists_front hz
  have hlen : l.length = a.length + b.length := by rw [hab, List.length_append]
  have hlen' : l.length = c.length + d.length := by rw [hcd, List.length_append]
  have hfrom : next^[a.length] x = lastPtr x a := by
    rw [h.iterate a.length (by omega), hab, List.take_left]
  have hto : next^[c.length] x = lastPtr x c := by
    rw [h.iterate c.length (by omega), hcd, List.take_left]
  by_cases hle : a.length ≤ c.length
  · refine ⟨c.length - a.length, by omega, ?_⟩
    rw [← hfrom, ← Function.iterate_add_apply, Nat.sub_add_cancel hle, hto]
  · -- the walk passes the fixed node
    refine ⟨c.length + (b.length + 1), by omega, ?_⟩
    have hround : next^[b.length + 1] (lastPtr x a) = x := by
      rw [← hfrom, ← Function.iterate_add_apply]
      have hall : b.length + 1 + a.length = l.length + 1 := by omega
      rw [hall, h.iterate_full]
    rw [Function.iterate_add_apply, hround, hto]

theorem Round.iterate_mem (h : Round next x l) (hy : y ∈ x :: l) (k : Nat) :
    next^[k] y ∈ x :: l := by
  induction k with
  | zero => exact hy
  | succ k ih =>
      rw [Function.iterate_succ_apply']
      exact h.next_mem ih

end PtrRing
