import Mathlib

/-!
Owns programs that change a state and may fail, where a failure keeps what was
changed before it: what such a program keeps of the state, whether it fails or
not, and the rules to show it along the program's text.
-/

namespace ReadySet.Library

universe u v

/-- A program that changes a state, and returns a value or fails. -/
abbrev Effect (ε σ : Type u) := ExceptT ε (StateM σ)

namespace Effect

variable {ε σ α β : Type u}

/-- A call that is given as what it does to the state. -/
def call (change : σ → Except ε α × σ) : Effect ε σ α := ExceptT.mk change

/-- The value and the state after a program. -/
def after (program : Effect ε σ α) (state : σ) : Except ε α × σ := program.run.run state

/-- A property of the state that holds before a program holds after it. -/
def Keeps (property : σ → Prop) (program : Effect ε σ α) : Prop :=
  ∀ state, property state → property (program.after state).2

variable {property : σ → Prop} {program : Effect ε σ α} {next : α → Effect ε σ β} {state middle : σ}

theorem after_bind_ok {value : α} (ran : program.after state = (.ok value, middle)) :
    (program >>= next).after state = (next value).after middle := by
  rw [after] at ran
  simp only [after, ExceptT.run_bind, StateT.run_bind, ran]
  rfl

theorem after_bind_error {problem : ε} (ran : program.after state = (.error problem, middle)) :
    (program >>= next).after state = (.error problem, middle) := by
  rw [after] at ran
  simp only [after, ExceptT.run_bind, StateT.run_bind, ran]
  rfl

theorem keeps_pure (value : α) : Keeps property (pure value : Effect ε σ α) := fun _ holds => holds

theorem keeps_throw (problem : ε) : Keeps property (throw problem : Effect ε σ α) :=
  fun _ holds => holds

theorem keeps_get : Keeps property (get : Effect ε σ σ) := fun _ holds => holds

theorem keeps_modify {change : σ → σ} (keeps : ∀ state, property state → property (change state)) :
    Keeps property (modify change : Effect ε σ PUnit) :=
  keeps

theorem keeps_bind (first : Keeps property program) (rest : ∀ value, Keeps property (next value)) :
    Keeps property (program >>= next) := by
  intro state holds
  have kept := first state holds
  rcases ran : program.after state with ⟨problem | value, middle⟩
  · rw [ran] at kept
    rw [after_bind_error ran]
    exact kept
  · rw [ran] at kept
    rw [after_bind_ok ran]
    exact rest value middle kept

theorem keeps_mapM {program : α → Effect ε σ β} (each : ∀ value, Keeps property (program value))
    (values : List α) : Keeps property (values.mapM program) := by
  induction values with
  | nil => exact keeps_pure []
  | cons value values ih =>
    rw [List.mapM_cons]
    exact keeps_bind (each value) fun _ =>
      keeps_bind ih fun _ => keeps_pure _

end Effect

end ReadySet.Library
