import Mathlib.Data.Finset.Card
import UserLevelMmap.BufferManager.Workload
import UserLevelMmap.Library.Congruential

/-!
# The pages that a test draws

The number of pages is a multiple of `16`, so the page id of a round has the lowest four bits
of the generator's state. These bits come back after `16` draws and not before: the pages of
`16` rounds in a row are all different, and every test spreads its accesses evenly over the
classes of pages modulo `16`, whatever the seed.
-/

namespace UserLevelMmap.BufferManager

theorem lcgNext_eq : lcgNext = congruential 1664525 1013904223 (2 ^ 32) := by
  funext current
  simp only [lcgNext, congruential, Nat.reducePow]

/-- The lowest `k` bits of the generator's state come back after the multiples of `2 ^ k`
draws. -/
theorem lcgNext_mod_iff {k : ℕ} (low : k ≤ 32) (seed first second : ℕ) :
    lcgNext^[first] seed % 2 ^ k = lcgNext^[second] seed % 2 ^ k ↔
      first % 2 ^ k = second % 2 ^ k := by
  -- The later state is drawn from the earlier one.
  have later : ∀ {early late : ℕ}, early ≤ late →
      (lcgNext^[late] seed % 2 ^ k = lcgNext^[early] seed % 2 ^ k ↔
        early % 2 ^ k = late % 2 ^ k) := by
    intro early late ordered
    obtain ⟨between, rfl⟩ := Nat.exists_eq_add_of_le' ordered
    have again := congruential_modEq_iff low (show 1664525 % 4 = 1 by norm_num)
      (show 1013904223 % 2 = 1 by norm_num) between (lcgNext^[early] seed)
    rw [← lcgNext_eq, ← Function.iterate_add_apply] at again
    refine again.trans ?_
    have rounds := Nat.modEq_iff_dvd' (n := 2 ^ k) (Nat.le_add_left early between)
    rw [Nat.add_sub_cancel] at rounds
    exact rounds.symm
  rcases Nat.le_total first second with ordered | ordered
  · have states := later ordered
    exact ⟨fun same => states.mp same.symm, fun same => (states.mpr same).symm⟩
  · have states := later ordered
    exact ⟨fun same => (states.mp same).symm, fun same => states.mpr same.symm⟩

theorem pageIds_eq_map (count seed : ℕ) :
    pageIds count seed = (List.range count).map (fun i => lcgNext^[i + 1] seed % numPages) := by
  induction count generalizing seed with
  | zero => rfl
  | succ count ih =>
      rw [pageIds, ih, List.range_succ_eq_map, List.map_cons, List.map_map,
        Function.iterate_succ_apply, Function.iterate_zero_apply]
      refine congrArg _ (List.map_congr_left ?_)
      intro i _
      rw [Function.comp_apply, Function.iterate_succ_apply lcgNext (Nat.succ i)]

theorem pageIds_add (first second seed : ℕ) :
    pageIds (first + second) seed =
      pageIds first seed ++ pageIds second (lcgNext^[first] seed) := by
  induction first generalizing seed with
  | zero => rw [Nat.zero_add, pageIds, Function.iterate_zero_apply, List.nil_append]
  | succ first ih =>
      rw [Nat.add_right_comm, pageIds, pageIds, ih, Function.iterate_succ_apply, List.cons_append]

/-- Two draws agree modulo `16` if and only if their rounds do. -/
theorem draws_mod_sixteen (seed first second : ℕ) :
    lcgNext^[first + 1] seed % numPages % 16 = lcgNext^[second + 1] seed % numPages % 16 ↔
      first % 16 = second % 16 := by
  have divides : 16 ∣ numPages := by decide
  have states := lcgNext_mod_iff (show 4 ≤ 32 by decide) seed (first + 1) (second + 1)
  rw [Nat.mod_mod_of_dvd _ divides, Nat.mod_mod_of_dvd _ divides]
  simp only [Nat.reducePow] at states
  rw [states]
  omega

/-- A block of `16` rounds draws one page of every class. -/
theorem countP_block (seed : ℕ) {residue : ℕ} (below : residue < 16) :
    (pageIds 16 seed).countP (fun pid => pid % 16 = residue) = 1 := by
  have classes : ((pageIds 16 seed).map (fun pid => pid % 16)).Nodup := by
    rw [pageIds_eq_map, List.map_map]
    apply List.Nodup.map_on _ List.nodup_range
    intro first first_mem second second_mem same
    rw [List.mem_range] at first_mem second_mem
    simp only [Function.comp_apply] at same
    rw [draws_mod_sixteen] at same
    omega
  have every : ((pageIds 16 seed).map (fun pid => pid % 16)).toFinset = Finset.range 16 := by
    apply Finset.eq_of_subset_of_card_le
    · intro residue residue_mem
      rw [List.mem_toFinset, List.mem_map] at residue_mem
      rcases residue_mem with ⟨pid, _, rfl⟩
      exact Finset.mem_range.mpr (Nat.mod_lt _ (by decide))
    · rw [List.toFinset_card_of_nodup classes, pageIds_eq_map, List.length_map, List.length_map,
        List.length_range, Finset.card_range]
  have drawn : residue ∈ (pageIds 16 seed).map (fun pid => pid % 16) := by
    rw [← List.mem_toFinset, every]
    exact Finset.mem_range.mpr below
  have once := List.count_eq_one_of_mem classes drawn
  rw [List.count, List.countP_map] at once
  rw [← once]
  apply List.countP_congr
  intro pid _
  simp only [decide_eq_true_eq, Function.comp_apply, beq_iff_eq]

theorem countP_blocks (blocks seed : ℕ) {residue : ℕ} (below : residue < 16) :
    (pageIds (16 * blocks) seed).countP (fun pid => pid % 16 = residue) = blocks := by
  induction blocks generalizing seed with
  | zero => rfl
  | succ blocks ih =>
      rw [Nat.mul_succ, Nat.add_comm (16 * blocks), pageIds_add, List.countP_append,
        countP_block seed below, ih, Nat.add_comm]

theorem getElem?_pageIds {count seed i pid : ℕ} (drawn : (pageIds count seed)[i]? = some pid) :
    pid = lcgNext^[i + 1] seed % numPages := by
  rw [pageIds_eq_map, List.getElem?_map, Option.map_eq_some_iff] at drawn
  rcases drawn with ⟨index, isIndex, isPid⟩
  have same := (List.getElem?_eq_some_iff.mp isIndex).2
  rw [List.getElem_range] at same
  rw [← isPid, same]

/-- Whatever the seed and the number of rounds: two rounds draw pages of one class modulo `16`
if and only if they are a multiple of `16` rounds apart, so the pages of `16` rounds in a row
are all different, and every `16` rounds draw every class once. -/
theorem pages_drawn_evenly (seed : ℕ) :
    (∀ count i j first second, (pageIds count seed)[i]? = some first →
      (pageIds count seed)[j]? = some second → (first % 16 = second % 16 ↔ i % 16 = j % 16)) ∧
    ∀ blocks residue, residue < 16 →
      (pageIds (16 * blocks) seed).countP (fun pid => pid % 16 = residue) = blocks := by
  constructor
  · intro count i j first second isFirst isSecond
    rw [getElem?_pageIds isFirst, getElem?_pageIds isSecond, draws_mod_sixteen]
  · intro blocks residue below
    exact countP_blocks blocks seed below

/-- Each test of the experiment draws `625000` pages of every class. -/
theorem experiment_draws_evenly :
    (pageIds 10000000 42).countP (fun pid => pid % 16 = 3) = 625000 :=
  (pages_drawn_evenly 42).2 625000 3 (by decide)

end UserLevelMmap.BufferManager
