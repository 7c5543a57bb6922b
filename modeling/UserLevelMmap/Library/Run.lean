import Mathlib.Algebra.Order.Ring.Int
import Mathlib.Data.Nat.Notation
import Mathlib.Data.List.Basic

/-!
# Runs of a transition system

A system is a partial transition function: `next state action` is `none` when
the action is not enabled. A run carries its whole past, newest moment first,
so that a property may speak about the state before every step taken, about
the order of two steps, or about the instants inside one operation.

Nothing in this file is specific to the programs verified with it.
-/

namespace UserLevelMmap

universe u v

/-- A transition function; `none` means that the action is not enabled. -/
abbrev Transition (State : Type u) (Action : Type v) :=
  State → Action → Option State

/-- The past of a run, newest moment first: the state before each step and the action taken. -/
abbrev History (State : Type u) (Action : Type v) :=
  List (State × Action)

variable {State : Type u} {Action : Type v}

/-- The runs of a transition function from a fixed start state. -/
inductive Run (next : Transition State Action) (start : State) :
    History State Action → State → Prop where
  | start : Run next start [] start
  | step {past : History State Action} {before after : State} {action : Action}
      (run : Run next start past before) (stepped : next before action = some after) :
      Run next start ((before, action) :: past) after

/-- Every step of the past was taken in a state that allows it. -/
def Guarded (guard : State → Action → Prop) (past : History State Action) : Prop :=
  ∀ moment ∈ past, guard moment.1 moment.2

namespace Guarded

variable {guard : State → Action → Prop} {past : History State Action}
  {before : State} {action : Action}

theorem head (guarded : Guarded guard ((before, action) :: past)) : guard before action :=
  guarded (before, action) List.mem_cons_self

theorem tail (guarded : Guarded guard ((before, action) :: past)) : Guarded guard past :=
  fun moment moment_mem => guarded moment (List.mem_cons_of_mem _ moment_mem)

theorem nil : Guarded guard [] := by
  simp [Guarded]

theorem cons (allowed : guard before action) (guarded : Guarded guard past) :
    Guarded guard ((before, action) :: past) := by
  intro moment moment_mem
  rcases List.mem_cons.mp moment_mem with rfl | older
  · exact allowed
  · exact guarded moment older

end Guarded

/-- Every step of a run has a property of its own past, its state before and its state after. -/
def EveryStep (P : History State Action → State → Action → State → Prop) :
    History State Action → State → Prop
  | [], _ => True
  | (before, action) :: past, after => P past before action after ∧ EveryStep P past before

theorem EveryStep.of_forall {P : History State Action → State → Action → State → Prop}
    (always : ∀ past before action after, P past before action after)
    (past : History State Action) (final : State) : EveryStep P past final := by
  induction past generalizing final with
  | nil => trivial
  | cons moment past ih => exact ⟨always past moment.1 moment.2 final, ih moment.1⟩

namespace Run

variable {next : Transition State Action} {start : State}

/-- An invariant of the guarded steps holds after every run made of guarded steps. -/
theorem invariant (guard : State → Action → Prop) (Inv : State → Prop)
    (initial : Inv start)
    (preserved : ∀ {before after : State} {action : Action},
      Inv before → guard before action → next before action = some after → Inv after)
    {past : History State Action} {final : State}
    (run : Run next start past final) (guarded : Guarded guard past) :
    Inv final := by
  induction run with
  | start => exact initial
  | step run stepped ih => exact preserved (ih guarded.tail) guarded.head stepped

theorem extend {past : History State Action} {before after : State}
    (run : Run next start past before) (action : Action)
    (stepped : next before action = some after) :
    Run next start ((before, action) :: past) after :=
  run.step stepped

/-- A run continued by another one. -/
theorem trans {past later : History State Action} {middle final : State}
    (run : Run next start past middle) (continued : Run next middle later final) :
    Run next start (later ++ past) final := by
  induction continued with
  | start => exact run
  | step _ stepped ih => exact ih.step stepped

/-- Two properties that agree on the steps of the runs agree on whole runs. -/
theorem everyStep_iff {P Q : History State Action → State → Action → State → Prop}
    (agree : ∀ {past : History State Action} {before after : State} {action : Action},
      Run next start past before → next before action = some after →
        (P past before action after ↔ Q past before action after))
    {past : History State Action} {final : State} (run : Run next start past final) :
    EveryStep P past final ↔ EveryStep Q past final := by
  induction run with
  | start => exact Iff.rfl
  | step run stepped ih => exact and_congr (agree run stepped) ih

/-- Perform a list of actions, collecting the past of the resulting run. -/
def perform (next : Transition State Action) :
    List Action → History State Action → State → Option (History State Action × State)
  | [], past, state => some (past, state)
  | action :: rest, past, state =>
      match next state action with
      | some after => perform next rest ((state, action) :: past) after
      | none => none

theorem of_perform {actions : List Action} {past finalPast : History State Action}
    {state final : State} (run : Run next start past state)
    (performed : perform next actions past state = some (finalPast, final)) :
    Run next start finalPast final := by
  induction actions generalizing past state with
  | nil =>
      simp only [perform, Option.some.injEq, Prod.mk.injEq] at performed
      rcases performed with ⟨rfl, rfl⟩
      exact run
  | cons action rest ih =>
      simp only [perform] at performed
      split at performed
      · next after stepped => exact ih (run.step stepped) performed
      · contradiction

/-- A run exhibited by performing its actions and evaluating a test on the outcome. -/
theorem exists_of_perform (next : Transition State Action) (start : State) (actions : List Action)
    (test : History State Action → State → Bool)
    (passes : (perform next actions [] start).any (fun outcome => test outcome.1 outcome.2)) :
    ∃ past final, Run next start past final ∧ test past final = true := by
  rw [Option.any_eq_true_iff_get] at passes
  rcases passes with ⟨defined, holds⟩
  refine ⟨_, _, of_perform Run.start (Option.some_get defined).symm, holds⟩

end Run

end UserLevelMmap
