/-
  Lib/Chunks.lean --- an address range cut into chunks.

  The chunks lie one behind the other.  Each is free, in use, or lost, that is, never handed
  out again.  A chunk in use is released by joining it with its free neighbours, and a free
  one gives up its end to a request; neither touches the other chunks in use.
-/
import Mathlib.Algebra.Ring.Nat
import Mathlib.Data.List.Chain

set_option autoImplicit false

namespace Chunks

inductive Kind where
  | free
  | used
  | lost
deriving DecidableEq, Repr

structure Chunk where
  kind : Kind
  bytes : Nat
deriving DecidableEq, Repr

variable {a n b : Nat} {k : Kind} {c : Chunk} {cs front back : List Chunk}

/-- The bytes of all chunks. -/
def span (cs : List Chunk) : Nat := (cs.map Chunk.bytes).sum

/-- The chunks with their addresses. -/
def located : Nat → List Chunk → List (Nat × Chunk)
  | _, [] => []
  | a, c :: cs => (a, c) :: located (a + c.bytes) cs

/-- Address and bytes of every chunk of a kind. -/
def blocks (k : Kind) (a : Nat) (cs : List Chunk) : List (Nat × Nat) :=
  ((located a cs).filter fun x => x.2.kind = k).map fun x => (x.1, x.2.bytes)

/-- The addresses of the free chunks. -/
def frees (a : Nat) (cs : List Chunk) : List Nat := (blocks .free a cs).map Prod.fst

@[simp] theorem span_nil : span [] = 0 := rfl

@[simp] theorem span_cons (c : Chunk) (cs : List Chunk) : span (c :: cs) = c.bytes + span cs := by
  simp [span]

@[simp] theorem span_append (front back : List Chunk) :
    span (front ++ back) = span front + span back := by
  simp [span]

@[simp] theorem located_nil (a : Nat) : located a [] = [] := rfl

@[simp] theorem located_cons (a : Nat) (c : Chunk) (cs : List Chunk) :
    located a (c :: cs) = (a, c) :: located (a + c.bytes) cs := rfl

@[simp] theorem located_append (a : Nat) (front back : List Chunk) :
    located a (front ++ back) = located a front ++ located (a + span front) back := by
  induction front generalizing a with
  | nil => rfl
  | cons c front ih =>
      rw [List.cons_append, located_cons, ih, located_cons, span_cons, List.cons_append,
        Nat.add_assoc]

theorem blocks_append (k : Kind) (a : Nat) (front back : List Chunk) :
    blocks k a (front ++ back) = blocks k a front ++ blocks k (a + span front) back := by
  simp [blocks]

@[simp] theorem blocks_nil (k : Kind) (a : Nat) : blocks k a [] = [] := rfl

theorem blocks_cons_self (k : Kind) (a n : Nat) (cs : List Chunk) :
    blocks k a (⟨k, n⟩ :: cs) = (a, n) :: blocks k (a + n) cs := by
  simp [blocks]

theorem blocks_cons_of_ne (a : Nat) (cs : List Chunk) (h : c.kind ≠ k) :
    blocks k a (c :: cs) = blocks k (a + c.bytes) cs := by
  simp [blocks, h]

theorem frees_append (a : Nat) (front back : List Chunk) :
    frees a (front ++ back) = frees a front ++ frees (a + span front) back := by
  simp [frees, blocks_append]

@[simp] theorem frees_nil (a : Nat) : frees a [] = [] := rfl

@[simp] theorem frees_cons_free (a n : Nat) (cs : List Chunk) :
    frees a (⟨.free, n⟩ :: cs) = a :: frees (a + n) cs := by
  simp [frees, blocks]

theorem frees_cons_of_ne (a : Nat) (cs : List Chunk) (h : c.kind ≠ .free) :
    frees a (c :: cs) = frees (a + c.bytes) cs := by
  rw [frees, blocks_cons_of_ne a cs h, frees]

theorem mem_blocks {x : Nat × Nat} : x ∈ blocks k a cs ↔ (x.1, ⟨k, x.2⟩) ∈ located a cs := by
  simp only [blocks, List.mem_map, List.mem_filter, decide_eq_true_eq]
  constructor
  · rintro ⟨⟨p, c⟩, ⟨hmem, rfl⟩, rfl⟩
    exact hmem
  · intro h
    exact ⟨_, ⟨h, rfl⟩, rfl⟩

/-- A chunk and what lies around it. -/
theorem mem_located {x : Nat × Chunk} :
    x ∈ located a cs ↔ ∃ front back, cs = front ++ x.2 :: back ∧ x.1 = a + span front := by
  constructor
  · intro h
    induction cs generalizing a with
    | nil => simp at h
    | cons c cs ih =>
        rcases List.mem_cons.mp h with rfl | h
        · exact ⟨[], cs, rfl, rfl⟩
        · obtain ⟨front, back, rfl, hx⟩ := ih h
          refine ⟨c :: front, back, rfl, ?_⟩
          rw [hx, span_cons, Nat.add_assoc]
  · rintro ⟨front, back, rfl, hx⟩
    simp [← hx]

/-- A chunk lies in the range. -/
theorem located_bounds {x : Nat × Chunk} (h : x ∈ located a cs) :
    a ≤ x.1 ∧ x.1 + x.2.bytes ≤ a + span cs := by
  obtain ⟨front, back, rfl, hx⟩ := mem_located.mp h
  rw [hx, span_append, span_cons]
  omega

theorem pairwise_located (a : Nat) (cs : List Chunk) :
    (located a cs).Pairwise fun x y => x.1 + x.2.bytes ≤ y.1 := by
  induction cs generalizing a with
  | nil => exact List.Pairwise.nil
  | cons c cs ih =>
      exact List.pairwise_cons.mpr ⟨fun y hy => (located_bounds hy).1, ih _⟩

/-- Two chunks do not overlap. -/
theorem located_apart {x y : Nat × Chunk} (hx : x ∈ located a cs) (hy : y ∈ located a cs)
    (hne : x ≠ y) : x.1 + x.2.bytes ≤ y.1 ∨ y.1 + y.2.bytes ≤ x.1 := by
  let R := fun x y : Nat × Chunk => x.1 + x.2.bytes ≤ y.1 ∨ y.1 + y.2.bytes ≤ x.1
  have hsymm : Std.Symm R := ⟨fun _ _ h => h.symm⟩
  have hpair : (located a cs).Pairwise R := (pairwise_located a cs).imp fun h => Or.inl h
  exact hpair.forall hx hy hne

theorem blocks_bounds {x : Nat × Nat} (h : x ∈ blocks k a cs) :
    a ≤ x.1 ∧ x.1 + x.2 ≤ a + span cs := located_bounds (mem_blocks.mp h)

/-- No chunk is empty, and no two free ones are neighbours. -/
structure Fine (cs : List Chunk) : Prop where
  pos : ∀ c ∈ cs, 0 < c.bytes
  joined : cs.IsChain fun c d => c.kind ≠ .free ∨ d.kind ≠ .free

theorem frees_ge {p : Nat} (h : p ∈ frees a cs) : a ≤ p := by
  obtain ⟨x, hx, rfl⟩ := List.mem_map.mp h
  exact (blocks_bounds hx).1

/-- A free chunk that is not empty begins before the end. -/
theorem frees_lt {p : Nat} (hpos : ∀ c ∈ cs, 0 < c.bytes) (h : p ∈ frees a cs) :
    p < a + span cs := by
  obtain ⟨x, hx, rfl⟩ := List.mem_map.mp h
  obtain ⟨front, back, hcs, -⟩ := mem_located.mp (mem_blocks.mp hx)
  have hx0 : 0 < x.2 := hpos ⟨.free, x.2⟩ (by rw [hcs]; simp)
  have := (blocks_bounds hx).2
  omega

/-- The free chunks of chunks that are not empty lie in ascending order. -/
theorem pairwise_frees (hpos : ∀ c ∈ cs, 0 < c.bytes) : (frees a cs).Pairwise (· < ·) := by
  induction cs generalizing a with
  | nil => exact List.Pairwise.nil
  | cons c cs ih =>
      have hc := hpos c (by simp)
      have hrest := ih (a := a + c.bytes) fun d hd => hpos d (by simp [hd])
      by_cases h : c.kind = .free
      · obtain ⟨k, n⟩ := c
        subst h
        rw [frees_cons_free]
        refine List.pairwise_cons.mpr ⟨fun p hp => ?_, hrest⟩
        have hp' := frees_ge hp
        have hn : 0 < n := hc
        omega
      · rw [frees_cons_of_ne a cs h]
        exact hrest

theorem pairwise_blocks (k : Kind) (a : Nat) (cs : List Chunk) :
    (blocks k a cs).Pairwise fun x y => x.1 + x.2 ≤ y.1 := by
  rw [blocks, List.pairwise_map]
  exact (pairwise_located a cs).filter _

/-- The bytes of a chunk with those of a free one behind it, and what lies behind. -/
def absorb (n : Nat) : List Chunk → Nat × List Chunk
  | ⟨.free, b⟩ :: back => (n + b, back)
  | back => (n, back)

/-- `n` bytes between `front` and `back` become free. -/
def release (front : List Chunk) (n : Nat) (back : List Chunk) : List Chunk :=
  match front.reverse with
  | ⟨.free, a⟩ :: rest => rest.reverse ++ ⟨.free, a + (absorb n back).1⟩ :: (absorb n back).2
  | _ => front ++ ⟨.free, (absorb n back).1⟩ :: (absorb n back).2

/-- A list does not begin with a free chunk. -/
def NotFree (cs : List Chunk) : Prop := ∀ c ∈ cs.head?, c.kind ≠ .free

/-- Either a free chunk lies behind, or none. -/
theorem absorb_cases (n : Nat) (back : List Chunk) :
    (∃ b rest, back = ⟨.free, b⟩ :: rest ∧ absorb n back = (n + b, rest)) ∨
      (NotFree back ∧ absorb n back = (n, back)) := by
  cases back with
  | nil => exact Or.inr ⟨by simp [NotFree], rfl⟩
  | cons c back =>
      obtain ⟨k, b⟩ := c
      cases k with
      | free => exact Or.inl ⟨b, back, rfl, rfl⟩
      | used => exact Or.inr ⟨by simp [NotFree], rfl⟩
      | lost => exact Or.inr ⟨by simp [NotFree], rfl⟩

/-- Either a free chunk lies in front, or none. -/
theorem release_cases (front : List Chunk) (n : Nat) (back : List Chunk) :
    (∃ a rest, front = rest ++ [⟨.free, a⟩] ∧
      release front n back = rest ++ ⟨.free, a + (absorb n back).1⟩ :: (absorb n back).2) ∨
    (NotFree front.reverse ∧
      release front n back = front ++ ⟨.free, (absorb n back).1⟩ :: (absorb n back).2) := by
  rcases front.eq_nil_or_concat with rfl | ⟨rest, c, rfl⟩
  · exact Or.inr ⟨by simp [NotFree], rfl⟩
  · obtain ⟨k, a⟩ := c
    rw [List.concat_eq_append]
    cases k with
    | free => exact Or.inl ⟨a, rest, rfl, by simp [release]⟩
    | used => exact Or.inr ⟨by simp [NotFree], by simp [release]⟩
    | lost => exact Or.inr ⟨by simp [NotFree], by simp [release]⟩

theorem span_absorb (n : Nat) (back : List Chunk) :
    (absorb n back).1 + span (absorb n back).2 = n + span back := by
  rcases absorb_cases n back with ⟨b, rest, rfl, h⟩ | ⟨-, h⟩
  · rw [h, span_cons, Nat.add_assoc]
  · rw [h]

theorem span_release (front : List Chunk) (n : Nat) (back : List Chunk) :
    span (release front n back) = span front + n + span back := by
  have habsorb := span_absorb n back
  rcases release_cases front n back with ⟨a, rest, rfl, h⟩ | ⟨-, h⟩
  · rw [h]
    simp only [span_append, span_cons, span_nil]
    omega
  · rw [h, span_append, span_cons]
    simp only
    omega

theorem blocks_absorb (hk : k ≠ .free) (n a : Nat) (back : List Chunk) :
    blocks k (a + (absorb n back).1) (absorb n back).2 = blocks k (a + n) back := by
  rcases absorb_cases n back with ⟨b, rest, rfl, h⟩ | ⟨-, h⟩
  · rw [h, blocks_cons_of_ne _ _ (by simpa using hk.symm), Nat.add_assoc]
  · rw [h]

/-- The other chunks stay where they are. -/
theorem blocks_release (hk : k ≠ .free) (a : Nat) (front : List Chunk) (n : Nat)
    (back : List Chunk) :
    blocks k a (release front n back) = blocks k a front ++ blocks k (a + span front + n) back := by
  have hfree : ∀ b, (⟨.free, b⟩ : Chunk).kind ≠ k := fun b => hk.symm
  rcases release_cases front n back with ⟨b, rest, rfl, h⟩ | ⟨-, h⟩
  · rw [h, blocks_append, blocks_append, blocks_cons_of_ne _ _ (hfree _),
      blocks_cons_of_ne _ _ (hfree _), blocks_nil, List.append_nil, span_append, span_cons,
      span_nil, ← blocks_absorb hk n, Nat.add_zero]
    simp only [Nat.add_assoc]
  · rw [h, blocks_append, blocks_cons_of_ne _ _ (hfree _), ← blocks_absorb hk n]

theorem Fine.append (h : Fine (front ++ back)) : Fine front ∧ Fine back := by
  obtain ⟨hfront, hback, -⟩ := List.isChain_append.mp h.joined
  exact ⟨⟨fun c hc => h.pos c (by simp [hc]), hfront⟩, ⟨fun c hc => h.pos c (by simp [hc]), hback⟩⟩

theorem Fine.of_append (hfront : Fine front) (hback : Fine back)
    (h : NotFree front.reverse ∨ NotFree back) : Fine (front ++ back) := by
  constructor
  · intro c hc
    rcases List.mem_append.mp hc with hc | hc
    · exact hfront.pos c hc
    · exact hback.pos c hc
  · refine List.isChain_append.mpr ⟨hfront.joined, hback.joined, fun c hc d hd => ?_⟩
    rcases h with h | h
    · exact Or.inl (h c (by simpa using hc))
    · exact Or.inr (h d hd)

theorem Fine.cons (hc : 0 < c.bytes) (h : Fine cs) (hk : c.kind ≠ .free ∨ NotFree cs) :
    Fine (c :: cs) := by
  constructor
  · intro d hd
    rcases List.mem_cons.mp hd with rfl | hd
    · exact hc
    · exact h.pos d hd
  · refine List.isChain_cons.mpr ⟨fun d hd => ?_, h.joined⟩
    exact hk.imp id fun hk => hk d hd

theorem Fine.tail (h : Fine (c :: cs)) : Fine cs :=
  ⟨fun d hd => h.pos d (by simp [hd]), (List.isChain_cons.mp h.joined).2⟩

/-- What lies behind a free chunk is not free. -/
theorem Fine.notFree (h : Fine (⟨.free, n⟩ :: cs)) : NotFree cs := fun d hd =>
  ((List.isChain_cons.mp h.joined).1 d hd).resolve_left (by simp)

/-- What lies in front of a free chunk is not free. -/
theorem Fine.notFree_reverse (h : Fine (front ++ ⟨.free, n⟩ :: cs)) : NotFree front.reverse := by
  intro d hd
  have hd' : d ∈ front.getLast? := by simpa using hd
  exact ((List.isChain_append.mp h.joined).2.2 d hd' ⟨.free, n⟩ (by simp)).resolve_right (by simp)

theorem fine_absorb (hn : 0 < n) (h : Fine back) :
    0 < (absorb n back).1 ∧ Fine (absorb n back).2 ∧ NotFree (absorb n back).2 := by
  rcases absorb_cases n back with ⟨b, rest, rfl, heq⟩ | ⟨hnot, heq⟩
  · rw [heq]
    exact ⟨by simp; omega, h.tail, h.notFree⟩
  · rw [heq]
    exact ⟨hn, h, hnot⟩

theorem fine_release (h : Fine (front ++ ⟨.used, n⟩ :: back)) : Fine (release front n back) := by
  obtain ⟨hfront, hrest⟩ := h.append
  have hn : 0 < n := hrest.pos ⟨.used, n⟩ (by simp)
  obtain ⟨hpos, hback, hnot⟩ := fine_absorb hn hrest.tail
  rcases release_cases front n back with ⟨a, rest, rfl, heq⟩ | ⟨hnotFront, heq⟩
  · rw [heq]
    refine hfront.append.1.of_append (hback.cons ?_ (Or.inr hnot)) (Or.inl hfront.notFree_reverse)
    have ha : 0 < a := hfront.pos ⟨.free, a⟩ (by simp)
    simp
    omega
  · rw [heq]
    exact hfront.of_append (hback.cons hpos (Or.inr hnot)) (Or.inl hnotFront)

theorem length_frees_absorb (a n : Nat) (back : List Chunk) :
    (frees (a + (absorb n back).1) (absorb n back).2).length ≤ (frees (a + n) back).length := by
  rcases absorb_cases n back with ⟨b, rest, rfl, h⟩ | ⟨-, h⟩
  · rw [h, frees_cons_free, List.length_cons, Nat.add_assoc]
    exact Nat.le_succ _
  · rw [h]

/-- There is one free chunk more, at most. -/
theorem length_frees_release (a : Nat) (front : List Chunk) (n : Nat) (back : List Chunk) :
    (frees a (release front n back)).length ≤
      (frees a front).length + (frees (a + span front + n) back).length + 1 := by
  have habsorb := length_frees_absorb (a + span front) n back
  rcases release_cases front n back with ⟨b, rest, rfl, h⟩ | ⟨-, h⟩
  · have hat : a + span rest + (b + (absorb n back).1) =
        a + span (rest ++ [⟨.free, b⟩]) + (absorb n back).1 := by
      simp only [span_append, span_cons, span_nil]
      omega
    rw [h, frees_append, frees_append, frees_cons_free, frees_cons_free, frees_nil, hat]
    simp only [List.length_append, List.length_cons, List.length_nil]
    omega
  · rw [h, frees_append, frees_cons_free, List.length_append, List.length_cons]
    omega

/-- The released bytes are in a free chunk. -/
theorem mem_release (a : Nat) (front : List Chunk) (n : Nat) (back : List Chunk) :
    ∃ x ∈ blocks .free a (release front n back), n ≤ x.2 := by
  have habsorb : n ≤ (absorb n back).1 := by
    rcases absorb_cases n back with ⟨b, rest, rfl, h⟩ | ⟨-, h⟩
    · rw [h]
      exact Nat.le_add_right _ _
    · rw [h]
  rcases release_cases front n back with ⟨b, rest, rfl, h⟩ | ⟨-, h⟩
  · refine ⟨(a + span rest, b + (absorb n back).1), ?_, by simp only; omega⟩
    rw [h, blocks_append, blocks_cons_self]
    simp
  · refine ⟨(a + span front, (absorb n back).1), ?_, habsorb⟩
    rw [h, blocks_append, blocks_cons_self]
    simp

/-! ## The range grows -/

/-- What lies behind the last chunk in use, if anything does. -/
def remainder (slack : Nat) : List Chunk := if slack = 0 then [] else [⟨.lost, slack⟩]

@[simp] theorem span_remainder (slack : Nat) : span (remainder slack) = slack := by
  rw [remainder]
  split
  · rename_i h
    rw [h, span_nil]
  · simp

theorem frees_remainder (a slack : Nat) : frees a (remainder slack) = [] := by
  rw [remainder]
  split
  · rfl
  · rw [frees_cons_of_ne _ _ (by simp), frees_nil]

theorem used_remainder (a slack : Nat) : blocks .used a (remainder slack) = [] := by
  rw [remainder]
  split
  · rfl
  · rw [blocks_cons_of_ne _ _ (by simp), blocks_nil]

theorem kind_remainder {a slack : Nat} {x : Nat × Chunk} (h : x ∈ located a (remainder slack)) :
    x.2.kind = .lost := by
  rw [remainder] at h
  split at h
  · simp at h
  · rw [located_cons, located_nil, List.mem_singleton] at h
    rw [h]

theorem fine_grow (h : Fine cs) (hn : 0 < n) (slack : Nat) :
    Fine (cs ++ ⟨.used, n⟩ :: remainder slack) := by
  have hrest : Fine (remainder slack) := by
    rw [remainder]
    split
    · exact ⟨by simp, List.IsChain.nil⟩
    · exact ⟨by simp; omega, List.IsChain.singleton _⟩
  exact h.of_append (hrest.cons hn (Or.inl (by simp))) (Or.inr (by simp [NotFree]))

/-! ## A free chunk is taken -/

/-- `n` bytes of the free chunk of `b` bytes between `front` and `back` are taken from its
end. -/
def take (front : List Chunk) (b : Nat) (back : List Chunk) (n : Nat) : List Chunk :=
  if b = n then front ++ ⟨.used, n⟩ :: back
  else front ++ ⟨.free, b - n⟩ :: ⟨.used, n⟩ :: back

theorem span_take (hn : n ≤ b) : span (take front b back n) = span front + b + span back := by
  rw [take]
  split
  · rename_i heq
    rw [span_append, span_cons, heq, Nat.add_assoc]
  · rw [span_append, span_cons, span_cons]
    simp only
    omega

theorem fine_take (hn : 0 < n) (hle : n ≤ b) (h : Fine (front ++ ⟨.free, b⟩ :: back)) :
    Fine (take front b back n) := by
  obtain ⟨hfront, hrest⟩ := h.append
  have hused : Fine (⟨.used, n⟩ :: back) := hrest.tail.cons hn (Or.inl (by simp))
  rw [take]
  split
  · exact hfront.of_append hused (Or.inl h.notFree_reverse)
  · refine hfront.of_append (hused.cons ?_ (Or.inr ?_)) (Or.inl h.notFree_reverse)
    · simp only
      omega
    · simp [NotFree]

/-- No free chunk is new. -/
theorem length_frees_take (hle : n ≤ b) (a : Nat) (front back : List Chunk) :
    (frees a (take front b back n)).length ≤ (frees a (front ++ ⟨.free, b⟩ :: back)).length := by
  rw [take]
  split
  · rename_i heq
    rw [frees_append, frees_append, frees_cons_of_ne _ _ (by simp), frees_cons_free, heq]
    simp
  · have hend : a + span front + (b - n) + n = a + span front + b := by omega
    rw [frees_append, frees_append, frees_cons_free, frees_cons_free,
      frees_cons_of_ne _ _ (by simp)]
    simp [hend]

/-- One more chunk is in use. -/
theorem used_take (hle : n ≤ b) (a : Nat) (front back : List Chunk) :
    blocks .used a (take front b back n) = blocks .used a front ++
      (a + span front + (b - n), n) :: blocks .used (a + span front + b) back := by
  rw [take]
  split
  · rename_i heq
    rw [blocks_append, blocks_cons_self, heq, Nat.sub_self,
      Nat.add_zero]
  · rw [blocks_append, blocks_cons_of_ne _ _ (by simp),
      blocks_cons_self]
    simp only
    rw [Nat.add_assoc (a + span front) (b - n) n, Nat.sub_add_cancel hle]

theorem used_free (a : Nat) (front back : List Chunk) :
    blocks .used a (front ++ ⟨.free, b⟩ :: back) = blocks .used a front ++
      blocks .used (a + span front + b) back := by
  rw [blocks_append, blocks_cons_of_ne _ _ (by simp)]

end Chunks
