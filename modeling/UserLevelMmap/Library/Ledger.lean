import Mathlib.Data.List.Nodup
import Mathlib.Data.List.Perm.Basic

/-!
# Ledgers of exclusively placed items

A ledger lists the items that are at each place. It is exclusive when no item
is at two places or twice at one place. Items move from place to place one at a
time; a move keeps the ledger exclusive and keeps the recorded items. Items may
also get lost, which keeps the ledger exclusive as well.

The order of the items at one place is immaterial here: all hypotheses are up
to permutation.
-/

namespace UserLevelMmap

universe u v

/-- The items at every place. -/
abbrev Ledger (Place : Type u) (Item : Type v) :=
  Place → List Item

namespace Ledger

variable {Place : Type u} {Item : Type v}

/-- No item is at two places or twice at one place. -/
structure Exclusive (ledger : Ledger Place Item) : Prop where
  nodup : ∀ place, (ledger place).Nodup
  disjoint : ∀ {place other : Place}, place ≠ other →
    List.Disjoint (ledger place) (ledger other)

/-- The item is recorded somewhere in the ledger. -/
def Records (ledger : Ledger Place Item) (item : Item) : Prop :=
  ∃ place, item ∈ ledger place

/-- One item leaves its place for another one. -/
structure Moves (before after : Ledger Place Item) (source target : Place) (item : Item) :
    Prop where
  distinct : source ≠ target
  leaves : (before source).Perm (item :: after source)
  enters : (after target).Perm (item :: before target)
  stay : ∀ {place : Place}, place ≠ source → place ≠ target →
    (after place).Perm (before place)

variable {before after : Ledger Place Item} {source target : Place} {item : Item}

theorem Exclusive.eq_of_mem {ledger : Ledger Place Item} (exclusive : ledger.Exclusive)
    (place other : Place) (mem : item ∈ ledger place) (memOther : item ∈ ledger other) :
    place = other := by
  by_contra distinct
  exact exclusive.disjoint distinct mem memOther

theorem Exclusive.shrink (exclusive : before.Exclusive)
    (fewer : ∀ place, (after place).Subperm (before place)) : after.Exclusive where
  nodup place := by
    rcases fewer place with ⟨kept, reordered, sublist⟩
    exact reordered.nodup_iff.mp (sublist.nodup (exclusive.nodup place))
  disjoint := by
    intro place other distinct found mem memOther
    exact exclusive.disjoint distinct ((fewer place).subset mem) ((fewer other).subset memOther)

namespace Moves

theorem notMem_source (moves : Moves before after source target item)
    (exclusive : before.Exclusive) : item ∉ after source := by
  have nodup := moves.leaves.nodup_iff.mp (exclusive.nodup source)
  exact (List.nodup_cons.mp nodup).1

theorem mem_source (moves : Moves before after source target item) : item ∈ before source :=
  moves.leaves.mem_iff.mpr List.mem_cons_self

theorem mem_iff (moves : Moves before after source target item) {other : Item}
    (other_ne : other ≠ item) (place : Place) :
    other ∈ after place ↔ other ∈ before place := by
  by_cases atSource : place = source
  · subst place
    rw [moves.leaves.mem_iff]
    simp [other_ne]
  · by_cases atTarget : place = target
    · subst place
      rw [moves.enters.mem_iff]
      simp [other_ne]
    · exact (moves.stay atSource atTarget).mem_iff

/-- After the move the moved item is at its target and nowhere else. -/
theorem mem_item_iff (moves : Moves before after source target item)
    (exclusive : before.Exclusive) (place : Place) :
    item ∈ after place ↔ place = target := by
  constructor
  · intro mem
    by_contra notTarget
    by_cases atSource : place = source
    · subst place
      exact moves.notMem_source exclusive mem
    · have memBefore := (moves.stay atSource notTarget).mem_iff.mp mem
      exact atSource (exclusive.eq_of_mem _ _ memBefore moves.mem_source)
  · rintro rfl
    exact moves.enters.mem_iff.mpr List.mem_cons_self

theorem exclusive (moves : Moves before after source target item)
    (exclusive : before.Exclusive) : after.Exclusive where
  nodup place := by
    by_cases atSource : place = source
    · subst place
      have nodup := moves.leaves.nodup_iff.mp (exclusive.nodup source)
      exact (List.nodup_cons.mp nodup).2
    · by_cases atTarget : place = target
      · rw [atTarget]
        rw [moves.enters.nodup_iff, List.nodup_cons]
        refine ⟨?_, exclusive.nodup target⟩
        intro mem
        exact moves.distinct (exclusive.eq_of_mem _ _ moves.mem_source mem)
      · exact (moves.stay atSource atTarget).nodup_iff.mpr (exclusive.nodup place)
  disjoint := by
    intro place other distinct found mem memOther
    by_cases isItem : found = item
    · subst found
      rw [moves.mem_item_iff exclusive] at mem memOther
      exact distinct (mem.trans memOther.symm)
    · rw [moves.mem_iff isItem] at mem memOther
      exact exclusive.disjoint distinct mem memOther

theorem records_iff (moves : Moves before after source target item)
    (exclusive : before.Exclusive) (other : Item) :
    after.Records other ↔ before.Records other := by
  by_cases isItem : other = item
  · subst other
    constructor
    · intro _
      exact ⟨source, moves.mem_source⟩
    · intro _
      exact ⟨target, (moves.mem_item_iff exclusive target).mpr rfl⟩
  · simp only [Records, moves.mem_iff isItem]

end Moves

theorem Exclusive.reorder (exclusive : before.Exclusive)
    (same : ∀ place, (after place).Perm (before place)) : after.Exclusive :=
  exclusive.shrink (fun place => (same place).subperm)

theorem records_reorder (same : ∀ place, (after place).Perm (before place)) (other : Item) :
    after.Records other ↔ before.Records other := by
  simp only [Records, (same _).mem_iff]

end Ledger

end UserLevelMmap
