/-
  Lib/Radix.lean --- radix trees of tables kept in a memory of frames.

  A memory maps a frame and an index to an entry.  An entry may be present, and then
  names a frame; so a path of indices from a root frame leads to a frame.  The frames
  reached by fewer than `depth` indices are the tables, and the entries of the last
  tables are what the tree maps.  The tables form a tree when no two paths lead to one
  table, and they can grow when the frames that are free hold no present entry.  Under
  these two conditions one write of an entry changes the entry at one path and no other.
-/
import Mathlib.Data.List.Induction
import Mathlib.Tactic.Common

set_option autoImplicit false

namespace Radix

/-- How an entry is read: whether it is present, and the frame it names. -/
structure Format (F E : Type) where
  present : E → Bool
  frame : E → F

variable {F I E : Type}

/-- The entry, when it is present. -/
def Format.read (R : Format F E) (e : E) : Option E := if R.present e then some e else none

/-- The frame of the entry, when it is present. -/
def Format.next (R : Format F E) (e : E) : Option F := (R.read e).map R.frame

theorem Format.next_of_present {R : Format F E} {e : E} (h : R.present e = true) :
    R.next e = some (R.frame e) := by
  simp [Format.next, Format.read, h]

theorem Format.next_of_not_present {R : Format F E} {e : E} (h : R.present e = false) :
    R.next e = none := by
  simp [Format.next, Format.read, h]

/-- The frame that a path of indices leads to. -/
def walk (R : Format F E) (m : F → I → E) : F → List I → Option F
  | f, [] => some f
  | f, i :: p => (R.next (m f i)).bind fun g => walk R m g p

/-- The entry at an index of the table that a path leads to. -/
def entry (R : Format F E) (m : F → I → E) (root : F) (p : List I) (i : I) : Option E :=
  (walk R m root p).bind fun f => R.read (m f i)

section Walk

variable {R : Format F E} {m : F → I → E} {root : F}

@[simp] theorem walk_nil : walk R m root [] = some root := rfl

theorem walk_snoc (p : List I) (i : I) :
    walk R m root (p ++ [i]) = (entry R m root p i).map R.frame := by
  induction p generalizing root with
  | nil =>
      show (R.next (m root i)).bind some = _
      simp [entry, Format.next]
  | cons k p ih =>
      show (R.next (m root k)).bind (fun g => walk R m g (p ++ [i])) = _
      simp only [ih, entry, walk, Option.bind_assoc]
      rw [Option.map_bind]
      rfl

end Walk

/-! ## Trees of tables -/

/-- The tables form a tree, and the frames that are free are blank.  `good` is what is
known of the entries that lead to tables. -/
structure Tables (R : Format F E) (depth : Nat) (good : E → Prop) (root : F) (free : F → Prop)
    (m : F → I → E) : Prop where
  distinct : ∀ p q f, p.length < depth → q.length < depth →
    walk R m root p = some f → walk R m root q = some f → p = q
  used : ∀ p f, p.length < depth → walk R m root p = some f → ¬ free f
  blank : ∀ f i, free f → R.present (m f i) = false
  upper : ∀ p i e, p.length + 1 < depth → entry R m root p i = some e → good e

/-- The frame is one of the tables. -/
def IsTable (R : Format F E) (depth : Nat) (root : F) (m : F → I → E) (f : F) : Prop :=
  ∃ p : List I, p.length < depth ∧ walk R m root p = some f

section Congr

variable {R : Format F E} {depth : Nat} {good : E → Prop} {root : F} {free : F → Prop}
  {m n : F → I → E}

/-- A memory with the same tables has the same paths. -/
theorem walk_congr (h : ∀ f, IsTable R depth root m f → n f = m f) (p : List I)
    (hp : p.length < depth) : walk R n root p = walk R m root p := by
  induction p using List.reverseRecOn with
  | nil => rfl
  | append_singleton p i ih =>
      have hlen : p.length < depth := by
        simp only [List.length_append, List.length_singleton] at hp
        omega
      rw [walk_snoc, walk_snoc, entry, entry, ih hlen]
      cases hw : walk R m root p with
      | none => rfl
      | some f => simp [h f ⟨p, hlen, hw⟩]

theorem entry_congr (h : ∀ f, IsTable R depth root m f → n f = m f) (p : List I)
    (hp : p.length < depth) (i : I) : entry R n root p i = entry R m root p i := by
  rw [entry, entry, walk_congr h p hp]
  cases hw : walk R m root p with
  | none => rfl
  | some f => simp [h f ⟨p, hp, hw⟩]

/-- A memory with the same tables keeps the tree, as long as what is free is blank. -/
theorem Tables.congr {free' : F → Prop} (hT : Tables R depth good root free m)
    (h : ∀ f, IsTable R depth root m f → n f = m f) (hsub : ∀ f, free' f → free f)
    (hblank : ∀ f i, free' f → R.present (n f i) = false) :
    Tables R depth good root free' n where
  distinct p q f hp hq hwp hwq := by
    rw [walk_congr h p hp] at hwp
    rw [walk_congr h q hq] at hwq
    exact hT.distinct p q f hp hq hwp hwq
  used p f hp hw hf := by
    rw [walk_congr h p hp] at hw
    exact hT.used p f hp hw (hsub f hf)
  blank := hblank
  upper p i e hp he := by
    rw [entry_congr h p (by omega) i] at he
    exact hT.upper p i e hp he

end Congr

/-! ## Writing an entry -/

variable [DecidableEq F] [DecidableEq I]

/-- Overwrite one entry. -/
def write (m : F → I → E) (f : F) (i : I) (e : E) : F → I → E :=
  fun g j => if g = f ∧ j = i then e else m g j

@[simp] theorem write_same (m : F → I → E) (f : F) (i : I) (e : E) : write m f i e f i = e := by
  simp [write]

theorem write_frame_ne {f g : F} (m : F → I → E) (i j : I) (e : E) (h : g ≠ f) :
    write m f i e g j = m g j := by
  simp [write, h]

theorem write_index_ne {i j : I} (m : F → I → E) (f : F) (e : E) (h : j ≠ i) :
    write m f i e f j = m f j := by
  simp [write, h]

section Write

variable {R : Format F E} {depth : Nat} {good : E → Prop} {root f : F} {free free' : F → Prop}
  {m : F → I → E} {p q : List I} {i j : I} {e : E}

/-- What an entry that leads to a table may be replaced by: one that names the same
table, or, where there was none, one that names a free frame. -/
def Grows (R : Format F E) (free : F → Prop) (e e' : E) : Prop :=
  R.next e' = R.next e ∨ (R.next e = none ∧ ∀ g, R.next e' = some g → free g)

/-- One step past a path after a write. -/
theorem Tables.entry_write_of_walk (hT : Tables R depth good root free m) (hp : p.length < depth)
    (hw : walk R m root p = some f) (hgrow : p.length + 1 < depth → Grows R free (m f i) e)
    (hq : q.length < depth)
    (hwalk : walk R (write m f i e) root q =
      if q = p ++ [i] then R.next e else walk R m root q) :
    entry R (write m f i e) root q j =
      if q = p ∧ j = i then R.read e else entry R m root q j := by
  -- a table other than the one written to is read as before
  have hother : ∀ g, q ≠ p → walk R m root q = some g →
      R.read (write m f i e g j) = R.read (m g j) := by
    intro g hqp hg
    have hgf : g ≠ f := by
      rintro rfl
      exact hqp (hT.distinct _ _ g hq hp hg hw)
    rw [write_frame_ne m i j e hgf]
  by_cases hqp : q = p
  · subst hqp
    rw [if_neg (by simp)] at hwalk
    rw [entry, hwalk, hw, entry, hw]
    by_cases hj : j = i
    · subst hj
      simp
    · simp [hj, write_index_ne m f e hj]
  · rw [if_neg (fun h : q = p ∧ j = i => hqp h.1), entry, hwalk]
    by_cases hsub : q = p ++ [i]
    · -- the table that the entry leads to
      have hlen : p.length + 1 < depth := by simpa [hsub] using hq
      have hold : walk R m root q = R.next (m f i) := by
        rw [hsub, walk_snoc, entry, hw]
        rfl
      rw [if_pos hsub, entry, hold]
      rcases hgrow hlen with hsame | ⟨hnone, hfree⟩
      · rw [hsame]
        cases hg : R.next (m f i) with
        | none => rfl
        | some g => exact hother g hqp (hold.trans hg)
      · rw [hnone]
        cases hg : R.next e with
        | none => rfl
        | some g =>
            have hgf : g ≠ f := by
              rintro rfl
              exact hT.used p g hp hw (hfree g hg)
            simp [write_frame_ne m i j e hgf, Format.read, hT.blank g j (hfree g hg)]
    · rw [if_neg hsub, entry]
      cases hg : walk R m root q with
      | none => rfl
      | some g => exact hother g hqp hg

/-- A write changes the path that ends in it, and no other. -/
theorem Tables.walk_write (hT : Tables R depth good root free m) (hp : p.length < depth)
    (hw : walk R m root p = some f) (hgrow : p.length + 1 < depth → Grows R free (m f i) e)
    (hq : q.length < depth) :
    walk R (write m f i e) root q = if q = p ++ [i] then R.next e else walk R m root q := by
  induction q using List.reverseRecOn with
  | nil => simp
  | append_singleton q k ih =>
      have hqd : q.length < depth := by
        simp only [List.length_append, List.length_singleton] at hq
        omega
      rw [walk_snoc, hT.entry_write_of_walk hp hw hgrow hqd (ih hqd), walk_snoc]
      simp only [List.append_singleton_inj]
      split
      · rfl
      · rfl

/-- A write changes the entry it writes, and no other. -/
theorem Tables.entry_write (hT : Tables R depth good root free m) (hp : p.length < depth)
    (hw : walk R m root p = some f) (hgrow : p.length + 1 < depth → Grows R free (m f i) e)
    (hq : q.length < depth) :
    entry R (write m f i e) root q j =
      if q = p ∧ j = i then R.read e else entry R m root q j :=
  hT.entry_write_of_walk hp hw hgrow hq (hT.walk_write hp hw hgrow hq)

/-- The tables still form a tree after a write; a frame that has become a table is no
longer free. -/
theorem Tables.write (hT : Tables R depth good root free m) (hp : p.length < depth)
    (hw : walk R m root p = some f) (hgrow : p.length + 1 < depth → Grows R free (m f i) e)
    (hsub : ∀ g, free' g → free g)
    (hnew : p.length + 1 < depth → ∀ g, R.next e = some g → ¬ free' g)
    (hgood : p.length + 1 < depth → R.present e = true → good e) :
    Tables R depth good root free' (write m f i e) := by
  have hwalk : ∀ q, q.length < depth → walk R (Radix.write m f i e) root q =
      if q = p ++ [i] then R.next e else walk R m root q := fun q hq =>
    hT.walk_write hp hw hgrow hq
  -- the path that ends in the write leads to no table of another path
  have hnot : ∀ q g, q.length < depth → (p ++ [i]).length < depth → q ≠ p ++ [i] →
      R.next e = some g → walk R m root q ≠ some g := by
    intro q g hq hlen hne hg hwq
    have hlen' : p.length + 1 < depth := by simpa using hlen
    rcases hgrow hlen' with hsame | ⟨-, hfree⟩
    · refine hne (hT.distinct _ _ g hq hlen hwq ?_)
      rw [walk_snoc, entry, hw]
      exact hsame.symm.trans hg
    · exact hT.used q g hq hwq (hfree g hg)
  refine ⟨fun q r g hq hr hwq hwr => ?_, fun q g hq hwq hg => ?_, fun g k hg => ?_,
    fun q k x hq hx => ?_⟩
  · rw [hwalk q hq] at hwq
    rw [hwalk r hr] at hwr
    by_cases h1 : q = p ++ [i]
    · by_cases h2 : r = p ++ [i]
      · exact h1.trans h2.symm
      · rw [if_pos h1] at hwq
        rw [if_neg h2] at hwr
        exact absurd hwr (hnot r g hr (h1 ▸ hq) h2 hwq)
    · rw [if_neg h1] at hwq
      by_cases h2 : r = p ++ [i]
      · rw [if_pos h2] at hwr
        exact absurd hwq (hnot q g hq (h2 ▸ hr) h1 hwr)
      · rw [if_neg h2] at hwr
        exact hT.distinct q r g hq hr hwq hwr
  · rw [hwalk q hq] at hwq
    by_cases h1 : q = p ++ [i]
    · rw [if_pos h1] at hwq
      exact hnew (by simpa [h1] using hq) g hwq hg
    · rw [if_neg h1] at hwq
      exact hT.used q g hq hwq (hsub g hg)
  · have hgf : g ≠ f := by
      rintro rfl
      exact hT.used p g hp hw (hsub g hg)
    rw [write_frame_ne m i k e hgf]
    exact hT.blank g k (hsub g hg)
  · rw [hT.entry_write hp hw hgrow (by omega)] at hx
    by_cases h1 : q = p ∧ k = i
    · rw [if_pos h1] at hx
      obtain ⟨rfl, rfl⟩ := h1
      cases hpres : R.present e with
      | true =>
          rw [Format.read, if_pos hpres] at hx
          exact Option.some.inj hx ▸ hgood hq hpres
      | false => simp [Format.read, hpres] at hx
    · rw [if_neg h1] at hx
      exact hT.upper q k x hq hx

end Write

end Radix
