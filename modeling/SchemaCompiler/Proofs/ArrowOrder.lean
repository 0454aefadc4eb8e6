import Mathlib.Algebra.Ring.Int.Defs
import Mathlib.Data.List.Sort
import Mathlib.Data.Prod.Lex
import SchemaCompiler.Diagram.Class

/-!
# The order of arrows

Arrows are to be drawn in three groups: those with a negative index, those with any other index,
and those without one; the first two groups ascend.  Ranks are machine integers and are compared
by their difference, so they keep that order for the indexes of `InRange` and for no others.
-/

namespace SchemaCompiler.Diagram

open List

/-- The group in which an index is drawn, and its place there. -/
def place : Option Int → Nat ×ₗ Int
  | some i => toLex (if i < 0 then 0 else 1, i)
  | none => toLex (2, 0)

/-- An integer of 64 bits. -/
def IsWord (i : Int) : Prop := -2 ^ 63 ≤ i ∧ i < 2 ^ 63

def InRange (i : Int) : Prop := -2 ^ 63 + 2 ^ 31 < i ∧ i < 2 ^ 30

variable {a b : Option Int} {i : Int}

/-! ## Comparing ranks -/

theorem wrap_eq (n : Int) : wrap n = (n + 2 ^ 63) % 2 ^ 64 - 2 ^ 63 := by
  have hsize : ((Nat.pow 2 64 : Nat) : Int) = 2 ^ 64 := rfl
  rw [wrap, Int.bmod, hsize]
  split_ifs <;> omega

theorem wrap_of_isWord (h : IsWord i) : wrap i = i := by
  obtain ⟨_, _⟩ := h
  rw [wrap_eq]
  omega

theorem unindexed_eq : unindexed = 2 ^ 30 := rfl

theorem rank_eq (h : ∀ i ∈ a, InRange i) :
    rank a = a.elim (2 ^ 30) fun i => if i < 0 then i - 2 ^ 30 else i := by
  cases a with
  | none => rfl
  | some i =>
    obtain ⟨_, _⟩ := h i rfl
    have hword : IsWord (i - 2 ^ 30) := ⟨by omega, by omega⟩
    rw [rank, unindexed_eq, wrap_of_isWord hword, Option.elim]

/-- Ranks are so close together that their differences are words. -/
theorem rank_bounds (h : ∀ i ∈ a, InRange i) : -2 ^ 63 + 2 ^ 30 < rank a ∧ rank a ≤ 2 ^ 30 := by
  rw [rank_eq h]
  cases a with
  | none => decide
  | some i =>
    obtain ⟨_, _⟩ := h i rfl
    rw [Option.elim]
    split_ifs <;> omega

theorem rank_lt_rank_iff (ha : ∀ i ∈ a, InRange i) (hb : ∀ i ∈ b, InRange i) :
    rank a < rank b ↔ place a < place b := by
  rw [rank_eq ha, rank_eq hb]
  obtain _ | i := a <;> obtain _ | j := b
  · simp only [lt_self_iff_false]
  all_goals
    simp only [InRange, Option.mem_def, Option.some.injEq, forall_eq'] at ha hb
    simp only [Option.elim, place, Prod.Lex.toLex_lt_toLex]
    split_ifs <;> omega

/-- The comparison of two indexes has the sign of their order. -/
def Agrees (a b : Option Int) : Prop :=
  (wrap (rank a - rank b) < 0 ↔ place a < place b) ∧
    (wrap (rank a - rank b) = 0 ↔ place a = place b)

theorem agrees_of_inRange (ha : ∀ i ∈ a, InRange i) (hb : ∀ i ∈ b, InRange i) : Agrees a b := by
  have hword : IsWord (rank a - rank b) := by
    have := rank_bounds ha
    have := rank_bounds hb
    constructor <;> omega
  have hlt := rank_lt_rank_iff ha hb
  have hgt := rank_lt_rank_iff hb ha
  rw [Agrees, wrap_of_isWord hword, ← hlt, eq_iff_le_not_lt (a := place a), ← hlt, ← not_lt, ← hgt]
  constructor <;> omega

/-- Any other index is compared wrongly with none, in one order or the other. -/
theorem before_of_not_inRange (hword : IsWord i) (h : ¬ InRange i) :
    before (some i) none = false ∨ before none (some i) = true := by
  obtain ⟨_, _⟩ := hword
  simp only [InRange, before, rank, wrap_eq, unindexed_eq, decide_eq_false_iff_not,
    decide_eq_true_eq] at h ⊢
  split_ifs <;> omega

theorem place_some_lt_place_none (i : Int) : place (some i) < place none := by
  rw [place, place, Prod.Lex.toLex_lt_toLex]
  split_ifs <;> simp

/-! ## Sorting -/

/-- All arrows by place; those that ascend already are kept in their order. -/
structure Ordered (arrows sorted : List Arrow) : Prop where
  perm : sorted.Perm arrows
  ascending : sorted.Pairwise fun a b => place a.index ≤ place b.index
  stable : ∀ part : List Arrow, part.Sublist arrows →
    (part.Pairwise fun a b => place a.index ≤ place b.index) → part.Sublist sorted

theorem sortArrows_eq (arrows : List Arrow) :
    sortArrows arrows =
      (arrows.reverse.insertionSort fun a b => ¬ before a.index b.index = true).reverse := by
  have hinsert : ∀ (a : Arrow) (sorted : List Arrow), insertBehind a sorted =
      sorted.orderedInsert (fun a b => ¬ before a.index b.index = true) a := by
    intro a sorted
    induction sorted with
    | nil => rfl
    | cons b rest ih => rw [insertBehind, orderedInsert_cons, ih, ite_not]
  rw [sortArrows, insertionSort, foldr_reverse]
  simp only [hinsert]

theorem sortArrows_perm (arrows : List Arrow) : (sortArrows arrows).Perm arrows := by
  rw [sortArrows_eq]
  exact (reverse_perm _).trans ((perm_insertionSort _ _).trans (reverse_perm _))

theorem ordered_sortArrows {arrows : List Arrow}
    (h : ∀ a ∈ arrows, ∀ i ∈ a.index, InRange i) : Ordered arrows (sortArrows arrows) := by
  have hsort : sortArrows arrows =
      (arrows.reverse.insertionSort fun a b => place b.index ≤ place a.index).reverse := by
    have hmap := map_insertionSort (fun a b : Arrow => ¬ before a.index b.index = true)
      (fun a b : Arrow => place b.index ≤ place a.index) id arrows.reverse fun a ha b hb => by
        have hagrees := agrees_of_inRange (h a (mem_reverse.mp ha)) (h b (mem_reverse.mp hb))
        simp only [before, decide_eq_true_eq, hagrees.1, not_lt, id]
    rw [sortArrows_eq]
    simpa using hmap
  refine ⟨sortArrows_perm arrows, ?_, fun part hpart hascending => ?_⟩ <;> rw [hsort]
  · exact pairwise_reverse.mpr (pairwise_insertionSort _ _)
  · rw [← reverse_reverse part]
    exact (sublist_insertionSort (pairwise_reverse.mpr hascending) hpart.reverse).reverse

/-- An arrow of which only the index matters. -/
def indexed (index : Option Int) : Arrow := ⟨default, .blank, .uses, "", "", index⟩

/-- Beyond the range, one order of a pair is sorted so that the arrow with an index is last. -/
theorem exists_not_ordered (hword : IsWord i) (h : ¬ InRange i) :
    ∃ arrows, (∀ a ∈ arrows, ∀ j ∈ a.index, j = i) ∧
      ¬ Ordered arrows (sortArrows arrows) := by
  have hsorted : ∃ arrows, (∀ a ∈ arrows, ∀ j ∈ a.index, j = i) ∧
      sortArrows arrows = [indexed none, indexed (some i)] := by
    rcases before_of_not_inRange hword h with hnot | hbefore
    · exact ⟨[indexed none, indexed (some i)], by simp [indexed, eq_comm],
        by simp [sortArrows, insertBehind, indexed, hnot]⟩
    · exact ⟨[indexed (some i), indexed none], by simp [indexed, eq_comm],
        by simp [sortArrows, insertBehind, indexed, hbefore]⟩
  obtain ⟨arrows, hindexes, hsorted⟩ := hsorted
  refine ⟨arrows, hindexes, fun hordered => ?_⟩
  have hascending := hordered.ascending
  rw [hsorted, pairwise_pair] at hascending
  exact not_lt_of_ge hascending (place_some_lt_place_none i)

/-- For arrows with indexes of one kind, or none: all lists are drawn in order exactly when each
index of the kind is in range, and this is also when all comparisons have the sign of the order. -/
theorem arrows_ordered_iff (P : Int → Prop) :
    ((∀ arrows : List Arrow, (∀ a ∈ arrows, ∀ i ∈ a.index, IsWord i ∧ P i) →
        Ordered arrows (sortArrows arrows)) ↔ ∀ i, IsWord i → P i → InRange i) ∧
      ((∀ a b : Option Int, (∀ i ∈ a, IsWord i ∧ P i) → (∀ i ∈ b, IsWord i ∧ P i) → Agrees a b) ↔
        ∀ i, IsWord i → P i → InRange i) := by
  refine ⟨⟨fun h i hword hi => ?_, fun h arrows hindexes => ?_⟩,
    ⟨fun h i hword hi => ?_, fun h a b ha hb => ?_⟩⟩
  · by_contra hout
    obtain ⟨arrows, hindexes, hnot⟩ := exists_not_ordered hword hout
    exact hnot (h arrows fun a ha j hj => hindexes a ha j hj ▸ ⟨hword, hi⟩)
  · exact ordered_sortArrows fun a ha i hi => (hindexes a ha i hi).elim (h i)
  · by_contra hout
    have hsome : ∀ j ∈ some i, IsWord j ∧ P j := fun j hj => Option.some.inj hj ▸ ⟨hword, hi⟩
    have hlt := place_some_lt_place_none i
    rcases before_of_not_inRange hword hout with hnot | hbefore
    · exact of_decide_eq_false hnot ((h _ _ hsome (by simp)).1.mpr hlt)
    · exact lt_asymm hlt ((h _ _ (by simp) hsome).1.mp (of_decide_eq_true hbefore))
  · exact agrees_of_inRange (fun i hi => (ha i hi).elim (h i)) fun i hi => (hb i hi).elim (h i)

end SchemaCompiler.Diagram
