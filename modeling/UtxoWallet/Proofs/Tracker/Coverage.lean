import UtxoWallet.Book
import UtxoWallet.Proofs.Tracker.Run

/-! # Nothing tracked is lost

The item that stands for a transaction may change: it gives way to one that covers more. That the
tracker has the transaction does not change with it, until the transaction itself is cleared.

* `Tracker.has_perform`: a step that does not clear a transaction does not lose it.
* `Tracker.has_until_cleared`: so no run does.
-/

namespace UtxoWallet

namespace Tracker

variable {τ : Type} [Trackable τ]

/-- Does the step clear all identifiers of the transaction? -/
def Step.Clears (tx : τ) : Step τ → Prop
  | .clear other => covers other tx
  | .clearIds ids => isWithin tx ids
  | .add _ | .saveVerdict .. | .saveVerdictIds .. => False

/-- **One step.** -/
theorem has_perform {tracker : Tracker τ} {tx : τ} (h : tracker.has tx) {step : Step τ}
    (uncleared : ¬ step.Clears tx) : (tracker.perform step).has tx := by
  cases step with
  | add other => exact has_add_iff.mpr (.inl h)
  | clear other => exact has_clearIds h uncleared
  | clearIds ids => exact has_clearIds h uncleared
  | saveVerdict other verdict =>
      rw [perform, has_eq_of_txs (txs_saveVerdict tracker other verdict)]
      exact h
  | saveVerdictIds ids verdict =>
      rw [perform, has_eq_of_txs (txs_saveVerdictIds tracker ids verdict)]
      exact h

/-- **A run.** -/
theorem has_after {tracker : Tracker τ} {tx : τ} (h : tracker.has tx) {steps : List (Step τ)}
    (uncleared : ∀ step ∈ steps, ¬ step.Clears tx) : (tracker.after steps).has tx := by
  induction steps generalizing tracker with
  | nil => exact h
  | cons step rest ih =>
      rw [List.forall_mem_cons] at uncleared
      exact ih (has_perform h uncleared.1) uncleared.2

/-- **Nothing tracked is lost.** Once a transaction is added, the tracker has it for as long as no step
clears all of its identifiers, whatever else is asked for. In detail, to add a transaction makes a
tracker have what that transaction covers, besides all that it had. -/
theorem has_until_cleared (start : Tracker τ) (tx : τ) :
    (∀ before later : List (Step τ), (∀ step ∈ later, ¬ step.Clears tx) →
      (start.after (before ++ .add tx :: later)).has tx) ∧
      ∀ other : τ, (start.add tx).has other ↔ start.has other ∨ covers tx other := by
  refine ⟨fun before later uncleared => ?_, fun other => has_add_iff⟩
  have added : ((start.after before).add tx).has tx := has_add_iff.mpr (.inr (covers_refl tx))
  rw [after_append]
  exact has_after added uncleared

/-- A transaction of one intent gives way to one with a second intent. A clearing of that second
intent alone does not lose it. -/
theorem has_until_cleared_of_second_intent :
    let single := Transaction.ofIntent "net" ⟨0, none, .numbered 1⟩
    let other := Transaction.ofIntent "net" ⟨0, none, .numbered 2⟩
    let both := { single with intents := single.intents.insert 2 ⟨0, none, .numbered 2⟩ }
    let later := [Step.add both, .clear other, .saveVerdict both ⟨.failure, []⟩,
      .clearIds other.identifiers]
    (∀ step ∈ later, ¬ step.Clears single) ∧
      (empty.after ([.add other] ++ .add single :: later)).has single := by
  intro single other both later
  have outside : ¬ isWithin single other.identifiers := by decide +kernel
  have uncleared : ∀ step ∈ later, ¬ step.Clears single := by
    simp only [later, List.forall_mem_cons]
    exact ⟨id, outside, id, outside, nofun⟩
  exact ⟨uncleared, (has_until_cleared empty single).1 [.add other] later uncleared⟩

end Tracker

end UtxoWallet
