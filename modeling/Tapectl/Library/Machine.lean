import Mathlib

/-!
# Machines driven by a schedule

A machine is a partial step function: `act state action` is the state after the action, or `none`
where the action is not enabled. A schedule is a list of actions.
-/

namespace Machine

variable {State Action : Type*} (act : State → Action → Option State)

/-- The state a schedule leads to, if every action of it was enabled in its turn. -/
def run (state : State) (schedule : List Action) : Option State := schedule.foldlM act state

variable {state : State}

theorem run_cons {action : Action} {rest : List Action} {final : State} :
    run act state (action :: rest) = some final ↔
      ∃ next, act state action = some next ∧ run act next rest = some final := by
  rw [run, List.foldlM_cons, Option.bind_eq_bind, Option.bind_eq_some_iff]
  rfl

/-- What holds at the start and is kept by every action holds wherever a schedule leads. -/
theorem run_keeps {Holds : State → Prop}
    (step : ∀ {state next} action, act state action = some next → Holds state → Holds next)
    {final : State} {schedule : List Action} (ran : run act state schedule = some final)
    (start : Holds state) : Holds final := by
  induction schedule generalizing state with
  | nil =>
    cases ran
    exact start
  | cons action rest ih =>
    obtain ⟨next, stepped, ran⟩ := (run_cons act).1 ran
    exact ih ran (step action stepped start)

/-- If every action that is enabled where `Holds` does lowers a rank and keeps `Holds`, no schedule goes
on for ever. -/
theorem runs_end {Holds : State → Prop} (rank : State → Nat)
    (step : ∀ {state next} action, act state action = some next → Holds state →
      Holds next ∧ rank next < rank state) (start : Holds state) :
    Acc (fun next state => ∃ action, act state action = some next) state := by
  generalize bound : rank state = n
  induction n using Nat.strongRecOn generalizing state with
  | ind n ih =>
    constructor
    rintro next ⟨action, stepped⟩
    obtain ⟨holds, lower⟩ := step action stepped start
    exact ih _ (bound ▸ lower) holds rfl

end Machine
