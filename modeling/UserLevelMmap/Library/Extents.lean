import Mathlib.Algebra.Order.Ring.Int
import Mathlib.Order.Interval.Finset.Nat

/-!
# Listings of extents

A listing of the numbers with a property between two bounds is a list of extents: they
are in ascending order and do not overlap, they lie between the bounds, and together they
hold exactly the numbers with the property. Listings of adjacent ranges are concatenated,
so a loop that lists one block after the other lists the range of all of them.
-/

namespace UserLevelMmap

/-- The numbers from `start` on, `size` of them. -/
structure Extent where
  start : ℕ
  size : ℕ
  deriving DecidableEq, Repr

namespace Extent

/-- The end of an extent, which is not part of it. -/
def stop (extent : Extent) : ℕ :=
  extent.start + extent.size

def Contains (extent : Extent) (number : ℕ) : Prop :=
  extent.start ≤ number ∧ number < extent.stop

/-- The size of all extents of a list. -/
def totalSize (extents : List Extent) : ℕ :=
  (extents.map size).sum

@[simp]
theorem totalSize_nil : totalSize [] = 0 :=
  rfl

@[simp]
theorem totalSize_singleton (extent : Extent) : totalSize [extent] = extent.size := by
  simp [totalSize]

@[simp]
theorem totalSize_append (first second : List Extent) :
    totalSize (first ++ second) = totalSize first + totalSize second := by
  simp [totalSize]

end Extent

open Extent

variable {P : ℕ → Prop} {low middle high : ℕ}

/-- The extents list the numbers with the property between two bounds. -/
structure Lists (P : ℕ → Prop) (low high : ℕ) (found : List Extent) : Prop where
  bounds : low ≤ high
  ascending : found.Pairwise (fun first second => first.stop ≤ second.start)
  inside : ∀ extent ∈ found, low ≤ extent.start ∧ extent.stop ≤ high
  holds_iff : ∀ number, low ≤ number → number < high →
    (P number ↔ ∃ extent ∈ found, extent.Contains number)

namespace Lists

theorem nil (bounds : low ≤ high)
    (none : ∀ number, low ≤ number → number < high → ¬P number) : Lists P low high [] where
  bounds := bounds
  ascending := List.Pairwise.nil
  inside := by simp
  holds_iff number isLow isHigh := by simp [none number isLow isHigh]

theorem single {size : ℕ} (high_eq : high = low + size)
    (all : ∀ number, low ≤ number → number < high → P number) :
    Lists P low high [⟨low, size⟩] where
  bounds := by omega
  ascending := List.pairwise_singleton _ _
  inside := by simp [stop, high_eq]
  holds_iff number isLow isHigh := by
    simp only [all number isLow isHigh, List.mem_singleton, exists_eq_left, Contains, stop,
      true_iff]
    omega

theorem append {first second : List Extent} (lists : Lists P low middle first)
    (lists' : Lists P middle high second) : Lists P low high (first ++ second) where
  bounds := lists.bounds.trans lists'.bounds
  ascending := by
    refine List.pairwise_append.mpr ⟨lists.ascending, lists'.ascending, ?_⟩
    intro before isBefore after isAfter
    exact (lists.inside before isBefore).2.trans (lists'.inside after isAfter).1
  inside := by
    intro extent isListed
    have bounds := lists.bounds
    have bounds' := lists'.bounds
    rcases List.mem_append.mp isListed with isFirst | isSecond
    · have inside := lists.inside extent isFirst
      omega
    · have inside := lists'.inside extent isSecond
      omega
  holds_iff := by
    intro number isLow isHigh
    simp only [List.mem_append, or_and_right, exists_or]
    -- The extents of the other half do not reach the number.
    by_cases isFirst : number < middle
    · have notSecond : ¬∃ extent ∈ second, extent.Contains number := by
        rintro ⟨extent, isSecond, contains⟩
        have inside := lists'.inside extent isSecond
        have isStart := contains.1
        omega
      rw [lists.holds_iff number isLow isFirst]
      simp only [notSecond, or_false]
    · have notFirst : ¬∃ extent ∈ first, extent.Contains number := by
        rintro ⟨extent, isListed, contains⟩
        have inside := lists.inside extent isListed
        have isStop := contains.2
        omega
      rw [lists'.holds_iff number (by omega) isHigh]
      simp only [notFirst, false_or]

theorem holds_iff_cons {first : Extent} {rest : List Extent}
    (lists : Lists P low high (first :: rest)) {number : ℕ} (isLow : low ≤ number)
    (isHigh : number < high) :
    P number ↔ first.Contains number ∨ ∃ extent ∈ rest, extent.Contains number := by
  rw [lists.holds_iff number isLow isHigh]
  simp only [List.mem_cons, or_and_right, exists_or, exists_eq_left]

theorem tail {first : Extent} {rest : List Extent} (lists : Lists P low high (first :: rest)) :
    Lists P first.stop high rest := by
  have inside := lists.inside first (List.mem_cons_self ..)
  have ascending := List.pairwise_cons.mp lists.ascending
  have isStop : first.stop = first.start + first.size := rfl
  refine ⟨inside.2, ascending.2, ?_, ?_⟩
  · intro extent isRest
    exact ⟨ascending.1 extent isRest, (lists.inside extent (List.mem_cons_of_mem _ isRest)).2⟩
  · intro number isLow isHigh
    have notFirst : ¬first.Contains number := fun contains => by
      have isBefore := contains.2
      omega
    rw [lists.holds_iff_cons (by omega) isHigh]
    simp only [notFirst, false_or]

/-- Up to the end of the first extent only its own numbers have the property. -/
theorem head_iff {first : Extent} {rest : List Extent} (lists : Lists P low high (first :: rest))
    {number : ℕ} (isLow : low ≤ number) (isBefore : number < first.stop) :
    P number ↔ first.start ≤ number := by
  have inside := lists.inside first (List.mem_cons_self ..)
  have notRest : ¬∃ extent ∈ rest, extent.Contains number := by
    rintro ⟨extent, isRest, contains⟩
    have isAfter := (lists.tail.inside extent isRest).1
    have isStart := contains.1
    omega
  rw [lists.holds_iff_cons isLow (by omega)]
  constructor
  · rintro (contains | contains)
    · exact contains.1
    · exact absurd contains notRest
  · intro isStart
    exact Or.inl ⟨isStart, isBefore⟩

/-- The numbers of a listing are counted by its extents. -/
theorem totalSize_eq [DecidablePred P] {found : List Extent} (lists : Lists P low high found) :
    totalSize found = ((Finset.Ico low high).filter P).card := by
  induction found generalizing low with
  | nil =>
      rw [totalSize_nil, Finset.filter_eq_empty_iff.mpr, Finset.card_empty]
      intro number inRange
      rw [Finset.mem_Ico] at inRange
      rw [lists.holds_iff number inRange.1 inRange.2]
      simp
  | cons first rest ih =>
      have inside := lists.inside first (List.mem_cons_self ..)
      have isStop : first.stop = first.start + first.size := rfl
      have split : (Finset.Ico low high).filter P =
          Finset.Ico first.start first.stop ∪ (Finset.Ico first.stop high).filter P := by
        ext number
        simp only [Finset.mem_filter, Finset.mem_Ico, Finset.mem_union]
        by_cases isBefore : number < first.stop
        · by_cases isLow : low ≤ number
          · rw [lists.head_iff isLow isBefore]
            omega
          · omega
        · constructor
          · rintro ⟨⟨-, isHigh⟩, holds⟩
            exact Or.inr ⟨⟨by omega, isHigh⟩, holds⟩
          · rintro (isFirst | ⟨⟨-, isHigh⟩, holds⟩)
            · omega
            · exact ⟨⟨by omega, isHigh⟩, holds⟩
      have disjoint : Disjoint (Finset.Ico first.start first.stop)
          ((Finset.Ico first.stop high).filter P) := by
        rw [Finset.disjoint_left]
        intro number isFirst isRest
        rw [Finset.mem_Ico] at isFirst
        rw [Finset.mem_filter, Finset.mem_Ico] at isRest
        omega
      have size_eq : first.stop - first.start = first.size := by omega
      rw [split, Finset.card_union_of_disjoint disjoint, Nat.card_Ico, size_eq, ← ih lists.tail]
      simp [totalSize]

end Lists

end UserLevelMmap
