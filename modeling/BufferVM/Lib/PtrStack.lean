/-
  Lib/PtrStack.lean --- null-terminated singly linked stacks in a pointer store.

  A stack is a top pointer and a function that gives the pointer below each one.  Popping
  leaves the link of the popped pointer behind; pushing sets it, and is an update of one
  link only, so a stack that does not hold a pointer is not changed by its link.
-/
import Mathlib.Data.List.Nodup
import Mathlib.Logic.Function.Basic

set_option autoImplicit false

namespace PtrStack

variable {P : Type} {null : P} {next next' : P → P} {p x : P} {l : List P}

/-- The links lay out the stack `l` below the pointer `p`. -/
def Stack (null : P) (next : P → P) : P → List P → Prop
  | p, [] => p = null
  | p, x :: l => p = x ∧ x ≠ null ∧ Stack null next (next x) l

theorem Stack.ne_null (h : Stack null next p l) : ∀ x ∈ l, x ≠ null := by
  induction l generalizing p with
  | nil => simp
  | cons y l ih =>
      intro x hx
      rcases List.mem_cons.mp hx with rfl | hx
      · exact h.2.1
      · exact ih h.2.2 x hx

/-- The stack is empty when its top is null. -/
theorem Stack.eq_nil_iff (h : Stack null next p l) : l = [] ↔ p = null := by
  cases l with
  | nil => exact ⟨fun _ => h, fun _ => rfl⟩
  | cons x l =>
      refine ⟨fun hc => absurd hc (by simp), fun hp => ?_⟩
      exact absurd (h.1.symm.trans hp) h.2.1

/-- A stack depends on the links of its pointers only. -/
theorem Stack.frame (h : Stack null next p l) (hn : ∀ x ∈ l, next' x = next x) :
    Stack null next' p l := by
  induction l generalizing p with
  | nil => exact h
  | cons y l ih =>
      refine ⟨h.1, h.2.1, ?_⟩
      rw [hn y List.mem_cons_self]
      exact ih h.2.2 fun x hx => hn x (List.mem_cons_of_mem _ hx)

/-- A pointer whose link has been set to the top. -/
theorem Stack.push [DecidableEq P] (h : Stack null next p l) (hx : x ∉ l) (hx0 : x ≠ null) :
    Stack null (Function.update next x p) x (x :: l) := by
  refine ⟨rfl, hx0, ?_⟩
  rw [Function.update_self]
  refine h.frame fun y hy => Function.update_of_ne ?_ _ _
  rintro rfl
  exact hx hy

/-- A pointer has at most one stack below it. -/
theorem Stack.unique (h : Stack null next p l) {l' : List P} (h' : Stack null next p l') :
    l = l' := by
  induction l generalizing p l' with
  | nil => exact (h'.eq_nil_iff.mpr h).symm
  | cons y l ih =>
      cases l' with
      | nil => exact absurd (h.1.symm.trans h') h.2.1
      | cons z l' =>
          obtain ⟨rfl, -, hrest⟩ := h
          obtain ⟨rfl, -, hrest'⟩ := h'
          rw [ih hrest hrest']

/-- The stack below one of its pointers is shorter. -/
theorem Stack.below (h : Stack null next p l) (hx : x ∈ l) :
    ∃ m, Stack null next x (x :: m) ∧ m.length < l.length := by
  induction l generalizing p with
  | nil => cases hx
  | cons y l ih =>
      obtain ⟨rfl, hp0, hrest⟩ := h
      rcases List.mem_cons.mp hx with rfl | hx
      · exact ⟨l, ⟨rfl, hp0, hrest⟩, Nat.lt_succ_self _⟩
      · obtain ⟨m, hm, hlt⟩ := ih hrest hx
        exact ⟨m, hm, Nat.lt_succ_of_lt hlt⟩

/-- No pointer is on a stack twice: the stack below it would be two. -/
theorem Stack.nodup (h : Stack null next p l) : l.Nodup := by
  induction l generalizing p with
  | nil => exact List.nodup_nil
  | cons y l ih =>
      have hself := h
      obtain ⟨rfl, -, hrest⟩ := h
      refine List.nodup_cons.mpr ⟨fun hp => ?_, ih hrest⟩
      obtain ⟨m, hm, hlt⟩ := hrest.below hp
      have heq := congrArg List.length (hm.unique hself)
      simp only [List.length_cons] at heq
      omega

/-! ## The links of all pointers -/

/-- Every walk along the links ends. -/
def Grounded (null : P) (next : P → P) : Prop := ∀ p, ∃ l, Stack null next p l

/-- A link from one pointer to another. -/
def Leads (null : P) (next : P → P) (p q : P) : Prop := next p = q ∧ q ≠ null

theorem Grounded.of_null (h : ∀ p, next p = null) : Grounded null next := by
  intro p
  by_cases hp : p = null
  · exact ⟨[], hp⟩
  · exact ⟨[p], rfl, hp, h p⟩

/-- The link of a pointer is set to the top of a stack that does not hold it. -/
theorem Grounded.update [DecidableEq P] (h : Grounded null next) (hl : Stack null next p l)
    (hx : x ∉ l) : Grounded null (Function.update next x p) := by
  intro q
  obtain ⟨m, hm⟩ := h q
  induction m generalizing q with
  | nil => exact ⟨[], hm⟩
  | cons y m ih =>
      obtain ⟨rfl, hq0, hrest⟩ := hm
      by_cases hqx : q = x
      · subst hqx
        exact ⟨q :: l, hl.push hx hq0⟩
      · obtain ⟨m', hm'⟩ := ih _ hrest
        refine ⟨q :: m', rfl, hq0, ?_⟩
        rwa [Function.update_of_ne hqx]

/-- The stack gets shorter along the links. -/
theorem Stack.length_lt {q : P} {m : List P} (hl : Stack null next (next p) l)
    (hm : Stack null next (next q) m) (hpq : Relation.TransGen (Leads null next) p q) :
    m.length < l.length := by
  induction hpq generalizing m with
  | single hlead =>
      obtain ⟨rfl, hq0⟩ := hlead
      have hpush : Stack null next (next p) (next p :: m) := ⟨rfl, hq0, hm⟩
      rw [hl.unique hpush]
      exact Nat.lt_succ_self _
  | @tail r q _ hlead ih =>
      obtain ⟨rfl, hq0⟩ := hlead
      have hpush : Stack null next (next r) (next r :: m) := ⟨rfl, hq0, hm⟩
      exact Nat.lt_trans (Nat.lt_succ_self _) (ih hpush)

/-- Grounded links have no cycle. -/
theorem Grounded.acyclic (h : Grounded null next) (p : P) :
    ¬ Relation.TransGen (Leads null next) p p := by
  intro hp
  obtain ⟨l, hl⟩ := h (next p)
  exact Nat.lt_irrefl _ (hl.length_lt hl hp)

end PtrStack
