import Mathlib.Algebra.BigOperators.Group.Finset.Basic
import Mathlib.Algebra.BigOperators.Group.List.Basic
import Mathlib.Data.Fintype.Defs
import UserLevelMmap.Library.Run

/-!
# Accounts of a run

Every step of a run may be charged a cost. When the cost of each step is covered by what the
step pays together with the change of a potential of the states, the cost of a whole run is
covered by what the run pays and the potential of its first state. A charge may also be
summed over the members of a family of which a step changes one.

Nothing in this file is specific to the programs verified with it.
-/

namespace UserLevelMmap

universe u v

variable {State : Type u} {Action : Type v}

/-- The sum of a charge over the steps of a run. -/
def total (charge : State → Action → ℕ) (past : History State Action) : ℕ :=
  (past.map (fun moment => charge moment.1 moment.2)).sum

@[simp]
theorem total_nil (charge : State → Action → ℕ) : total charge [] = 0 := rfl

@[simp]
theorem total_cons (charge : State → Action → ℕ) (before : State) (action : Action)
    (past : History State Action) :
    total charge ((before, action) :: past) = charge before action + total charge past := by
  rw [total, List.map_cons, List.sum_cons, total]

theorem total_add (charge other : State → Action → ℕ) (past : History State Action) :
    total (fun state action => charge state action + other state action) past =
      total charge past + total other past := by
  induction past with
  | nil => rfl
  | cons moment past ih =>
      rw [total_cons, total_cons, total_cons, ih]
      omega

theorem total_mul (factor : ℕ) (charge : State → Action → ℕ) (past : History State Action) :
    total (fun state action => factor * charge state action) past = factor * total charge past := by
  induction past with
  | nil => rfl
  | cons moment past ih => rw [total_cons, total_cons, ih, Nat.mul_add]

/-- The potential of the first state and the payments cover the cost of a run. -/
theorem Run.total_le {next : Transition State Action} {start : State}
    (cost pay : State → Action → ℕ) (potential : State → ℕ)
    (covered : ∀ {before after : State} {action : Action}, next before action = some after →
      cost before action + potential after ≤ pay before action + potential before)
    {past : History State Action} {final : State} (run : Run next start past final) :
    total cost past + potential final ≤ total pay past + potential start := by
  induction run with
  | start => simp
  | step run stepped ih =>
      have here := covered stepped
      rw [total_cons, total_cons]
      omega

/-- A sum over the members of a family, after one of them has changed. -/
theorem sum_update_add {Member Value Charge : Type} [AddCommMonoid Charge] [Fintype Member]
    [DecidableEq Member] (charge : Value → Charge) (family : Member → Value) (member : Member)
    (value : Value) :
    ∑ other, charge (Function.update family member value other) + charge (family member) =
      ∑ other, charge (family other) + charge value := by
  have split : ∀ values : Member → Value, ∑ other, charge (values other) =
      charge (values member) + ∑ other ∈ Finset.univ.erase member, charge (values other) :=
    fun values => (Finset.add_sum_erase _ _ (Finset.mem_univ member)).symm
  have rest : ∑ other ∈ Finset.univ.erase member,
        charge (Function.update family member value other) =
      ∑ other ∈ Finset.univ.erase member, charge (family other) := by
    apply Finset.sum_congr rfl
    intro other other_mem
    rw [Function.update_of_ne (Finset.ne_of_mem_erase other_mem)]
  rw [split, split family, rest, Function.update_self, add_right_comm, add_comm (charge value),
    add_right_comm]

end UserLevelMmap
