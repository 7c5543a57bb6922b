import Mathlib.Data.List.Induction
import Mathlib.Data.Nat.Notation

/-!
# Trees of tables

A tree of tables is stored flat: `slots frame index` is the entry of a table, and
`child level entry` is the table to which an entry of this level points, if any.
`tableAt` follows a path of indices from a root. In a tree every table is reached
by one path only, so that writing one entry of a table at the last level leaves
every table where it was and changes no other entry.
-/

namespace UserLevelMmap.RadixTree

universe u v w

variable {Frame : Type u} {Index : Type v} {Entry : Type w}
  (slots slots' : Frame → Index → Entry) (child : ℕ → Entry → Option Frame)

/-- The table reached from a table of the given level along a path of indices. -/
def tableAt : ℕ → Frame → List Index → Option Frame
  | _, frame, [] => some frame
  | level, frame, index :: rest =>
      (child level (slots frame index)).bind (fun next => tableAt (level + 1) next rest)

/-- Every table of the first `depth` levels is reached by one path only. -/
def IsTree (root : Frame) (depth : ℕ) : Prop :=
  ∀ (path other : List Index) (frame : Frame), path.length < depth → other.length < depth →
    tableAt slots child 0 root path = some frame →
      tableAt slots child 0 root other = some frame → path = other

variable {slots slots' child}

theorem tableAt_append (level : ℕ) (frame : Frame) (path : List Index) (index : Index) :
    tableAt slots child level frame (path ++ [index]) =
      (tableAt slots child level frame path).bind
        (fun table => child (level + path.length) (slots table index)) := by
  induction path generalizing level frame with
  | nil =>
      simp only [List.nil_append, tableAt, List.length_nil, Nat.add_zero, Option.bind_some]
      cases child level (slots frame index) <;> rfl
  | cons first rest ih =>
      simp only [List.cons_append, tableAt, List.length_cons]
      cases child level (slots frame first) with
      | none => rfl
      | some next =>
          simp only [Option.bind_some, ih]
          rw [Nat.add_assoc, Nat.add_comm 1]

/-- Tables whose entries point where they did before are reached as before. -/
theorem tableAt_of_children {root : Frame} {depth : ℕ}
    (agree : ∀ {path : List Index} {frame : Frame}, path.length < depth →
      tableAt slots child 0 root path = some frame →
        ∀ index, child path.length (slots' frame index) = child path.length (slots frame index))
    {path : List Index} (short : path.length ≤ depth) :
    tableAt slots' child 0 root path = tableAt slots child 0 root path := by
  induction path using List.reverseRecOn with
  | nil => rfl
  | append_singleton path index ih =>
      rw [List.length_append, List.length_singleton] at short
      rw [tableAt_append, tableAt_append, ih (by omega)]
      cases found : tableAt slots child 0 root path with
      | none => rfl
      | some frame =>
          simp only [Option.bind_some, Nat.zero_add]
          exact agree (by omega) found index

theorem tableAt_congr {root : Frame} {depth : ℕ}
    (agree : ∀ {path : List Index} {frame : Frame}, path.length < depth →
      tableAt slots child 0 root path = some frame →
        ∀ index, slots' frame index = slots frame index)
    {path : List Index} (short : path.length ≤ depth) :
    tableAt slots' child 0 root path = tableAt slots child 0 root path := by
  refine tableAt_of_children ?_ short
  intro above frame isAbove found index
  rw [agree isAbove found index]

theorem IsTree.congr {root : Frame} {depth : ℕ} (tree : IsTree slots child root depth)
    (same : ∀ {path : List Index}, path.length < depth →
      tableAt slots' child 0 root path = tableAt slots child 0 root path) :
    IsTree slots' child root depth := by
  intro path other frame short shortOther found foundOther
  rw [same short] at found
  rw [same shortOther] at foundOther
  exact tree path other frame short shortOther found foundOther

/-- Writing an entry of a table at the last level moves no table. -/
theorem IsTree.tableAt_write {root : Frame} {depth : ℕ}
    (tree : IsTree slots child root (depth + 1)) {leaf : List Index} {table : Frame}
    {written : Index} (isLeaf : leaf.length = depth)
    (found : tableAt slots child 0 root leaf = some table)
    (elsewhere : ∀ frame index, frame ≠ table ∨ index ≠ written →
      slots' frame index = slots frame index)
    {path : List Index} (short : path.length ≤ depth) :
    tableAt slots' child 0 root path = tableAt slots child 0 root path := by
  refine tableAt_congr ?_ short
  intro above frame isAbove foundAbove index
  refine elsewhere frame index (Or.inl ?_)
  rintro rfl
  have same := tree _ _ _ (by omega) (by omega) foundAbove found
  rw [same] at isAbove
  omega

theorem IsTree.slots_write {root : Frame} {depth : ℕ}
    (tree : IsTree slots child root (depth + 1)) {leaf : List Index} {table : Frame}
    {written : Index} (isLeaf : leaf.length = depth)
    (found : tableAt slots child 0 root leaf = some table)
    (elsewhere : ∀ frame index, frame ≠ table ∨ index ≠ written →
      slots' frame index = slots frame index)
    {path : List Index} (short : path.length ≤ depth) {frame : Frame} {index : Index}
    (foundPath : tableAt slots child 0 root path = some frame)
    (distinct : path ++ [index] ≠ leaf ++ [written]) :
    slots' frame index = slots frame index := by
  apply elsewhere
  by_contra both
  rw [not_or, not_not, not_not] at both
  rcases both with ⟨rfl, rfl⟩
  have same := tree _ _ _ (by omega) (by omega) foundPath found
  apply distinct
  rw [same]

/-! ## The entry at which a walk stops -/

section Stop

variable (slots child)

/-- The level and the entry at which the walk along a path stops: the entry points to no
table, or it is the last one of the path. -/
def stop : ℕ → Frame → List Index → Option (ℕ × Entry)
  | _, _, [] => none
  | level, frame, [index] => some (level, slots frame index)
  | level, frame, index :: second :: rest =>
      match child level (slots frame index) with
      | none => some (level, slots frame index)
      | some next => stop (level + 1) next (second :: rest)

end Stop

theorem stop_of_tableAt {level : ℕ} {root frame : Frame} {above rest : List Index} {index : Index}
    (found : tableAt slots child level root above = some frame)
    (ends : rest = [] ∨ child (level + above.length) (slots frame index) = none) :
    stop slots child level root (above ++ index :: rest) =
      some (level + above.length, slots frame index) := by
  induction above generalizing level root with
  | nil =>
      rw [tableAt, Option.some.injEq] at found
      subst frame
      cases rest with
      | nil => rfl
      | cons second rest =>
          have isLast : child level (slots root index) = none := by simpa using ends
          simp [stop, isLast]
  | cons first above ih =>
      rw [tableAt, Option.bind_eq_some_iff] at found
      rcases found with ⟨next, isChild, found⟩
      have isNext : level + (first :: above).length = level + 1 + above.length := by
        rw [List.length_cons]
        omega
      rw [isNext] at ends ⊢
      have nonempty : ∃ second tail, above ++ index :: rest = second :: tail := by
        cases above with
        | nil => exact ⟨index, rest, rfl⟩
        | cons second above => exact ⟨second, above ++ index :: rest, rfl⟩
      rcases nonempty with ⟨second, tail, isTail⟩
      rw [List.cons_append, isTail, stop, isChild]
      dsimp only
      rw [← isTail]
      exact ih found ends

variable (slots child) in
/-- Every walk stops, at an entry of a table that it has reached. -/
theorem exists_stop (level : ℕ) (root : Frame) {path : List Index} (nonempty : path ≠ []) :
    ∃ above index rest frame, path = above ++ index :: rest ∧
      tableAt slots child level root above = some frame ∧
      (rest = [] ∨ child (level + above.length) (slots frame index) = none) := by
  induction path generalizing level root with
  | nil => contradiction
  | cons index rest ih =>
      by_cases isEnd : rest = []
      · exact ⟨[], index, rest, root, rfl, rfl, Or.inl isEnd⟩
      · cases isChild : child level (slots root index) with
        | none => exact ⟨[], index, rest, root, rfl, rfl, Or.inr (by simpa using isChild)⟩
        | some next =>
            rcases ih (level + 1) next isEnd with ⟨above, last, tail, frame, rfl, found, ends⟩
            refine ⟨index :: above, last, tail, frame, rfl, ?_, ?_⟩
            · rw [tableAt, isChild, Option.bind_some, found]
            · rw [List.length_cons, Nat.add_comm above.length, ← Nat.add_assoc]
              exact ends

/-- Two entries reached by different paths are at different places. -/
theorem IsTree.place_ne {root : Frame} {depth : ℕ} (tree : IsTree slots child root depth)
    {above target : List Index} {frame table : Frame} {index written : Index}
    (short : above.length < depth) (shortTarget : target.length < depth)
    (found : tableAt slots child 0 root above = some frame)
    (foundTarget : tableAt slots child 0 root target = some table)
    (distinct : above ++ [index] ≠ target ++ [written]) : frame ≠ table ∨ index ≠ written := by
  by_contra both
  rw [not_or, not_not, not_not] at both
  rcases both with ⟨rfl, rfl⟩
  have same := tree _ _ _ short shortTarget found foundTarget
  exact distinct (by rw [same])

section Write

variable {root : Frame} {depth : ℕ} {target : List Index} {table : Frame} {written : Index}

/-- Writing an entry at which walks stop, before and after, moves no table. -/
theorem IsTree.tableAt_write_stopped (tree : IsTree slots child root depth)
    (short : target.length < depth) (found : tableAt slots child 0 root target = some table)
    (stopped : target.length + 1 < depth → child target.length (slots table written) = none)
    (stops : target.length + 1 < depth → child target.length (slots' table written) = none)
    (elsewhere : ∀ frame index, frame ≠ table ∨ index ≠ written →
      slots' frame index = slots frame index)
    {above : List Index} (isAbove : above.length < depth) :
    tableAt slots' child 0 root above = tableAt slots child 0 root above := by
  have upTo : above.length ≤ depth - 1 := by omega
  refine tableAt_of_children ?_ upTo
  intro path frame isShort foundPath index
  by_cases isPlace : path ++ [index] = target ++ [written]
  · rcases List.append_inj' isPlace rfl with ⟨rfl, isIndex⟩
    rw [List.cons.injEq] at isIndex
    rw [found, Option.some.injEq] at foundPath
    rw [← foundPath, isIndex.1, stopped (by omega), stops (by omega)]
  · rw [elsewhere frame index (tree.place_ne (by omega) short foundPath found isPlace)]

/-- Such a write moves no stop of a path that does not lead through the entry. -/
theorem IsTree.stop_write_of_ne (tree : IsTree slots child root depth)
    (short : target.length < depth) (found : tableAt slots child 0 root target = some table)
    (stopped : target.length + 1 < depth → child target.length (slots table written) = none)
    (stops : target.length + 1 < depth → child target.length (slots' table written) = none)
    (elsewhere : ∀ frame index, frame ≠ table ∨ index ≠ written →
      slots' frame index = slots frame index)
    {path : List Index} (isWhole : path.length = depth)
    (notThrough : ¬target ++ [written] <+: path) :
    stop slots' child 0 root path = stop slots child 0 root path := by
  have nonempty : path ≠ [] := by
    rintro rfl
    rw [List.length_nil] at isWhole
    omega
  rcases exists_stop slots child 0 root nonempty with
    ⟨above, index, rest, frame, rfl, foundAbove, ends⟩
  rw [List.length_append, List.length_cons] at isWhole
  have isAbove : above.length < depth := by omega
  have same := tree.tableAt_write_stopped short found stopped stops elsewhere isAbove
  have distinct : above ++ [index] ≠ target ++ [written] := by
    intro isPlace
    apply notThrough
    rw [← isPlace]
    exact ⟨rest, by simp⟩
  have kept := elsewhere frame index
    (tree.place_ne (by omega) short foundAbove found distinct)
  have ends' : rest = [] ∨ child (0 + above.length) (slots' frame index) = none := by
    rw [kept]
    exact ends
  rw [stop_of_tableAt foundAbove ends, stop_of_tableAt (same.trans foundAbove) ends', kept]

end Write

end UserLevelMmap.RadixTree
