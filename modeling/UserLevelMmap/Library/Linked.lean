import Mathlib.Data.Nat.Notation
import Mathlib.Data.List.Basic
import Mathlib.Data.List.GetD
import Mathlib.Data.List.Nodup
import Mathlib.Logic.Function.Basic

/-!
# Null-terminated lists threaded through a memory of links

`Linked next null head cells` says that following `next` from `head` visits
exactly `cells`, in this order, and then reaches `null`. The links are an
arbitrary function, so a link may be overwritten at any cell; the lemmas below
say which overwrites leave a list alone and which ones push or pop a cell.

`visit` follows the links a given number of times. It is the way to speak about
the cells that are reachable from a head when nothing is known about the list
yet: a cyclic or dangling chain of links still has visits.
-/

namespace UserLevelMmap

universe u

variable {Cell : Type u}

/-- Following the links from `head` visits exactly the listed cells and ends in `null`. -/
def Linked (next : Cell → Cell) (null : Cell) : Cell → List Cell → Prop
  | head, [] => head = null
  | head, cell :: rest => head = cell ∧ cell ≠ null ∧ Linked next null (next cell) rest

/-- The cell reached from `head` by following `count` links; `null` has no link to follow. -/
def visit [DecidableEq Cell] (next : Cell → Cell) (null : Cell) : ℕ → Cell → Cell
  | 0, head => head
  | count + 1, head => if head = null then null else visit next null count (next head)

namespace Linked

variable {next : Cell → Cell} {null head cell : Cell} {cells rest : List Cell}

@[simp]
theorem nil_iff : Linked next null head [] ↔ head = null :=
  Iff.rfl

@[simp]
theorem cons_iff :
    Linked next null head (cell :: rest) ↔
      head = cell ∧ cell ≠ null ∧ Linked next null (next cell) rest :=
  Iff.rfl

theorem null_notMem (linked : Linked next null head cells) : null ∉ cells := by
  induction cells generalizing head with
  | nil => simp
  | cons cell rest ih =>
      rcases linked with ⟨_, cell_ne, linkedRest⟩
      simp only [List.mem_cons, not_or]
      exact ⟨cell_ne.symm, ih linkedRest⟩

theorem eq_nil_iff (linked : Linked next null head cells) : cells = [] ↔ head = null := by
  cases cells with
  | nil => simpa using linked
  | cons cell rest =>
      rcases linked with ⟨rfl, cell_ne, _⟩
      simp [cell_ne]

theorem head_mem (linked : Linked next null head cells) (head_ne : head ≠ null) :
    head ∈ cells := by
  cases cells with
  | nil => exact absurd linked head_ne
  | cons cell rest =>
      rcases linked with ⟨rfl, _, _⟩
      exact List.mem_cons_self

theorem unique {other : List Cell} (linked : Linked next null head cells)
    (linkedOther : Linked next null head other) : cells = other := by
  induction cells generalizing head other with
  | nil => exact ((eq_nil_iff linkedOther).mpr linked).symm
  | cons cell rest ih =>
      rcases linked with ⟨rfl, cell_ne, linkedRest⟩
      cases other with
      | nil => exact absurd linkedOther cell_ne
      | cons otherCell otherRest =>
          rcases linkedOther with ⟨rfl, _, linkedOtherRest⟩
          rw [ih linkedRest linkedOtherRest]

theorem congr {other : Cell → Cell} (linked : Linked next null head cells)
    (agree : ∀ cell ∈ cells, other cell = next cell) : Linked other null head cells := by
  induction cells generalizing head with
  | nil => exact linked
  | cons first rest ih =>
      rcases linked with ⟨rfl, first_ne, linkedRest⟩
      refine ⟨rfl, first_ne, ?_⟩
      rw [agree head List.mem_cons_self]
      exact ih linkedRest (fun cell mem => agree cell (List.mem_cons_of_mem _ mem))

theorem write [DecidableEq Cell] {link : Cell} (linked : Linked next null head cells)
    (notMem : cell ∉ cells) :
    Linked (Function.update next cell link) null head cells := by
  apply linked.congr
  intro other other_mem
  apply Function.update_of_ne
  rintro rfl
  exact notMem other_mem

theorem push (linked : Linked next null head cells) (cell_ne : cell ≠ null)
    (link_eq : next cell = head) :
    Linked next null cell (cell :: cells) := by
  refine ⟨rfl, cell_ne, ?_⟩
  rw [link_eq]
  exact linked

theorem suffix (linked : Linked next null head cells) (mem : cell ∈ cells) :
    ∃ skipped rest, cells = skipped ++ cell :: rest ∧
      Linked next null cell (cell :: rest) := by
  induction cells generalizing head with
  | nil => simp at mem
  | cons first others ih =>
      rcases linked with ⟨rfl, first_ne, linkedOthers⟩
      rcases List.mem_cons.mp mem with rfl | memOthers
      · exact ⟨[], others, rfl, rfl, first_ne, linkedOthers⟩
      · rcases ih linkedOthers memOthers with ⟨skipped, rest, rfl, linkedCell⟩
        exact ⟨head :: skipped, rest, rfl, linkedCell⟩

end Linked

namespace Linked

variable [DecidableEq Cell] {next : Cell → Cell} {null head cell : Cell} {cells : List Cell}

/-- The visits of a linked list are its cells, followed by `null`. -/
theorem visit_eq (linked : Linked next null head cells) (count : ℕ) :
    visit next null count head = cells.getD count null := by
  induction count generalizing head cells with
  | zero =>
      cases cells with
      | nil => simpa [visit] using linked
      | cons cell rest => simpa [visit] using linked.1
  | succ count ih =>
      cases cells with
      | nil =>
          rw [nil_iff] at linked
          simp [visit, linked]
      | cons cell rest =>
          rcases linked with ⟨rfl, cell_ne, linkedRest⟩
          simpa [visit, cell_ne] using ih linkedRest

theorem visit_mem (linked : Linked next null head cells) {count : ℕ}
    (visited : visit next null count head ≠ null) :
    visit next null count head ∈ cells := by
  rw [linked.visit_eq] at visited ⊢
  by_cases inside : count < cells.length
  · rw [List.getD_eq_getElem _ _ inside]
    exact List.getElem_mem inside
  · exact absurd (List.getD_eq_default _ _ (Nat.le_of_not_lt inside)) visited

theorem visit_injective (linked : Linked next null head cells) (nodup : cells.Nodup)
    {first second : ℕ} (visited : visit next null first head ≠ null)
    (same : visit next null first head = visit next null second head) :
    first = second := by
  have visitedSecond : visit next null second head ≠ null := same ▸ visited
  rw [linked.visit_eq] at visited visitedSecond same
  rw [linked.visit_eq] at same
  have firstInside : first < cells.length := by
    by_contra outside
    exact visited (List.getD_eq_default _ _ (Nat.le_of_not_lt outside))
  have secondInside : second < cells.length := by
    by_contra outside
    exact visitedSecond (List.getD_eq_default _ _ (Nat.le_of_not_lt outside))
  rw [List.getD_eq_getElem _ _ firstInside, List.getD_eq_getElem _ _ secondInside] at same
  exact (nodup.getElem_inj_iff).mp same

end Linked

end UserLevelMmap
