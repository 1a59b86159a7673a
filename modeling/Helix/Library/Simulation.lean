import Mathlib.Logic.Relation

/-!
# Simulations

A relation between the states of two systems is a simulation if the second system answers every step of the
first with some number of its own steps that lead to related states again. It then answers every run with a
run (`Simulation.run`).
-/

namespace Helix

open Relation (ReflTransGen)

variable {α β : Type*} {step : α → α → Prop} {step' : β → β → Prop} {R : α → β → Prop}

/-- From related states, every step is answered by steps to related states. -/
def Simulation (step : α → α → Prop) (step' : β → β → Prop) (R : α → β → Prop) : Prop :=
  ∀ a a' b, R a b → step a a' → ∃ b', ReflTransGen step' b b' ∧ R a' b'

namespace Simulation

/-- Runs are answered by runs. -/
theorem run (h : Simulation step step' R) {a a' : α} {b : β} (hab : R a b)
    (hrun : ReflTransGen step a a') : ∃ b', ReflTransGen step' b b' ∧ R a' b' := by
  induction hrun with
  | refl => exact ⟨b, .refl, hab⟩
  | tail _ hstep ih =>
    obtain ⟨b', hrun', hR⟩ := ih
    obtain ⟨b'', hsteps, hR'⟩ := h _ _ b' hR hstep
    exact ⟨b'', hrun'.trans hsteps, hR'⟩

/-- What holds of the first system throughout a run may be used in every step. -/
theorem of_invariant {I : α → Prop} (hI : ∀ a a', I a → step a a' → I a')
    (h : ∀ a a' b, I a → R a b → step a a' → ∃ b', ReflTransGen step' b b' ∧ R a' b') :
    Simulation step step' fun a b => I a ∧ R a b := by
  rintro a a' b ⟨ha, hab⟩ hstep
  obtain ⟨b', hsteps, hR⟩ := h a a' b ha hab hstep
  exact ⟨b', hsteps, hI a a' ha hstep, hR⟩

end Simulation

end Helix
