import Mathlib.Algebra.Ring.GeomSum
import Mathlib.Algebra.Ring.Parity
import Mathlib.Data.Nat.ModEq
import Mathlib.Data.Nat.Prime.Basic
import Mathlib.Logic.Function.Iterate
import Mathlib.Tactic.Ring

/-!
# Linear congruential generators

The states of a generator whose modulus is a power of two, whose multiplier is `1` modulo
`4` and whose increment is odd. Between two draws that are `n` steps apart the state changes
by an odd multiple of the geometric sum of `n` powers of the multiplier, and that sum is
divisible by the same powers of two as `n`. So the states agree in their lowest `k` bits if
and only if `2 ^ k` divides `n`.
-/

namespace UserLevelMmap

open Finset

/-- One step of a generator. -/
def congruential (a c m current : ℕ) : ℕ :=
  (a * current + c) % m

variable {a c : ℕ}

theorem congruential_iterate (a c m x n : ℕ) :
    (congruential a c m)^[n] x ≡ a ^ n * x + c * ∑ i ∈ range n, a ^ i [MOD m] := by
  induction n with
  | zero => simp [Nat.ModEq]
  | succ n ih =>
      rw [Function.iterate_succ_apply']
      calc congruential a c m ((congruential a c m)^[n] x)
          ≡ a * (congruential a c m)^[n] x + c [MOD m] := Nat.mod_modEq _ _
        _ ≡ a * (a ^ n * x + c * ∑ i ∈ range n, a ^ i) + c [MOD m] :=
            Nat.ModEq.add_right _ (Nat.ModEq.mul_left _ ih)
        _ = a ^ (n + 1) * x + c * ∑ i ∈ range (n + 1), a ^ i := by
            rw [geom_sum_succ]
            ring

theorem geom_sum_double (a n : ℕ) :
    ∑ i ∈ range (2 * n), a ^ i = (1 + a ^ n) * ∑ i ∈ range n, a ^ i := by
  rw [Nat.two_mul, sum_range_add, add_mul, one_mul, mul_sum]
  simp only [pow_add]

/-- The geometric sum of `n` powers is even exactly when `n` is. -/
theorem geom_sum_mod_two (odd : a % 4 = 1) (n : ℕ) : (∑ i ∈ range n, a ^ i) % 2 = n % 2 := by
  have oddPower : ∀ i, a ^ i % 2 = 1 := fun i => by
    rw [Nat.pow_mod]
    have : a % 2 = 1 := by omega
    simp [this]
  induction n with
  | zero => rfl
  | succ n ih =>
      rw [sum_range_succ, Nat.add_mod, ih, oddPower]
      omega

theorem two_pow_dvd_geom_sum (odd : a % 4 = 1) (k n : ℕ) :
    2 ^ k ∣ ∑ i ∈ range n, a ^ i ↔ 2 ^ k ∣ n := by
  induction k generalizing n with
  | zero => simp
  | succ k ih =>
      have parity := geom_sum_mod_two odd n
      by_cases even : n % 2 = 0
      · obtain ⟨half, rfl⟩ : 2 ∣ n := by omega
        -- The factor beside the sum for the half is twice an odd number.
        have power : a ^ half % 4 = 1 := by
          simp [Nat.pow_mod, odd]
        obtain ⟨factor, isFactor⟩ : ∃ factor, 1 + a ^ half = 2 * (2 * factor + 1) :=
          ⟨a ^ half / 4, by omega⟩
        have coprime : Nat.Coprime (2 ^ k) (2 * factor + 1) := by
          apply Nat.Coprime.pow_left
          rw [Nat.coprime_two_left]
          exact ⟨factor, rfl⟩
        rw [geom_sum_double, isFactor, pow_succ', Nat.mul_assoc,
          Nat.mul_dvd_mul_iff_left (by decide), Nat.mul_dvd_mul_iff_left (by decide),
          coprime.dvd_mul_left, ih]
      · have notEven : ∀ {number : ℕ}, number % 2 ≠ 0 → ¬ 2 ^ (k + 1) ∣ number := by
          intro number isOdd divides
          have two : 2 ∣ number := (Dvd.intro_left (2 ^ k) rfl).trans divides
          omega
        exact iff_of_false (notEven (by omega)) (notEven even)

/-- The lowest `k` bits of the state come back exactly after the multiples of `2 ^ k` steps. -/
theorem congruential_modEq_iff {width k : ℕ} (low : k ≤ width) (multiplier : a % 4 = 1)
    (increment : c % 2 = 1) (n x : ℕ) :
    (congruential a c (2 ^ width))^[n] x ≡ x [MOD 2 ^ k] ↔ 2 ^ k ∣ n := by
  have state := (congruential_iterate a c (2 ^ width) x n).of_dvd (Nat.pow_dvd_pow 2 low)
  obtain ⟨d, rfl⟩ : ∃ d, a = d + 1 := ⟨a - 1, by omega⟩
  have change : (d + 1) ^ n * x + c * ∑ i ∈ range n, (d + 1) ^ i =
      x + (d * x + c) * ∑ i ∈ range n, (d + 1) ^ i := by
    rw [← geom_sum_mul_add d n]
    ring
  have odd : (d * x + c) % 2 = 1 := by
    have even : d % 2 = 0 := by omega
    rw [Nat.add_mod, Nat.mul_mod, even, increment]
    simp
  have coprime : Nat.Coprime (2 ^ k) (d * x + c) := by
    apply Nat.Coprime.pow_left
    rw [Nat.coprime_two_left]
    exact Nat.odd_iff.mpr odd
  calc (congruential (d + 1) c (2 ^ width))^[n] x ≡ x [MOD 2 ^ k]
      ↔ x + (d * x + c) * ∑ i ∈ range n, (d + 1) ^ i ≡ x [MOD 2 ^ k] := by
        rw [← change]
        exact ⟨state.symm.trans, state.trans⟩
    _ ↔ 2 ^ k ∣ (d * x + c) * ∑ i ∈ range n, (d + 1) ^ i := by
        have added := Nat.modEq_iff_dvd' (n := 2 ^ k)
          (Nat.le_add_right x ((d * x + c) * ∑ i ∈ range n, (d + 1) ^ i))
        rw [Nat.add_sub_cancel_left] at added
        exact ⟨fun same => added.mp same.symm, fun divides => (added.mpr divides).symm⟩
    _ ↔ 2 ^ k ∣ n := by
        rw [coprime.dvd_mul_left, two_pow_dvd_geom_sum multiplier]

end UserLevelMmap
