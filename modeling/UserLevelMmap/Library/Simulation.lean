import Mathlib.Data.List.Basic
import UserLevelMmap.Library.Run

/-!
# Simulation of one system by another

A concrete system is compared with an abstract one through a relation between their
states. Every guarded step of the concrete system either has a label, and then the abstract
system takes the labelled step, or it has none, and then the abstract state stays. The
labels of a whole concrete run are then a run of the abstract system.

Nothing in this file is specific to the programs verified with it.
-/

namespace UserLevelMmap

universe u v w x

variable {State : Type u} {Action : Type v} {Spec : Type w} {Label : Type x}

/-- The labels of a run, newest first. -/
def labels (label : State → Action → Option Label) (past : History State Action) : List Label :=
  past.filterMap (fun moment => label moment.1 moment.2)

@[simp]
theorem labels_nil (label : State → Action → Option Label) : labels label [] = [] := rfl

theorem labels_cons (label : State → Action → Option Label) (before : State) (action : Action)
    (past : History State Action) :
    labels label ((before, action) :: past) =
      (label before action).toList ++ labels label past := by
  rw [labels, List.filterMap_cons]
  cases label before action with
  | none => rfl
  | some event => rfl

theorem guarded_iff_labels {label : State → Action → Option Label} {allowed : Label → Prop}
    {past : History State Action} :
    Guarded (fun state action => ∀ event, label state action = some event → allowed event) past ↔
      ∀ event ∈ labels label past, allowed event := by
  simp only [Guarded, labels, List.mem_filterMap]
  constructor
  · rintro guarded event ⟨moment, moment_mem, isLabel⟩
    exact guarded moment moment_mem event isLabel
  · intro always moment moment_mem event isLabel
    exact always event ⟨moment, moment_mem, isLabel⟩

/-- How the abstract system answers a step of the concrete one. -/
def Answers (spec : Transition Spec Label) (related : Spec → Prop) (abstract : Spec) :
    Option Label → Prop
  | none => related abstract
  | some label => ∃ abstract', spec abstract label = some abstract' ∧ related abstract'

/-- The abstract system takes the labelled steps of every guarded run. -/
theorem Run.simulation {next : Transition State Action} {start : State}
    (spec : Transition Spec Label) (guard : State → Action → Prop)
    (label : State → Action → Option Label) (Related : State → Spec → Prop) {abstractStart : Spec}
    (initial : Related start abstractStart)
    (answers : ∀ {before after : State} {action : Action} {abstract : Spec},
      Related before abstract → guard before action → next before action = some after →
        Answers spec (Related after) abstract (label before action))
    {past : History State Action} {final : State} (run : Run next start past final)
    (guarded : Guarded guard past) :
    ∃ trace abstract, Run spec abstractStart trace abstract ∧
      trace.map Prod.snd = labels label past ∧ Related final abstract := by
  induction run with
  | start => exact ⟨[], abstractStart, .start, rfl, initial⟩
  | @step past before after action run stepped ih =>
      rcases ih guarded.tail with ⟨trace, abstract, abstractRun, trace_eq, related⟩
      have answer := answers related guarded.head stepped
      cases isLabel : label before action with
      | none =>
          rw [isLabel] at answer
          refine ⟨trace, abstract, abstractRun, ?_, answer⟩
          rw [trace_eq, labels_cons, isLabel, Option.toList_none, List.nil_append]
      | some event =>
          rw [isLabel] at answer
          rcases answer with ⟨abstract', taken, relatedAfter⟩
          refine ⟨_, abstract', abstractRun.step taken, ?_, relatedAfter⟩
          rw [List.map_cons, trace_eq, labels_cons, isLabel, Option.toList_some,
            List.singleton_append]

end UserLevelMmap
