import Mathlib.Data.List.Forall2
import Mathlib.Data.List.Pairwise
import UtxoWallet.Proofs.Tracker.Run

/-! # The tracked transactions are an antichain

A transaction takes the place of those that it covers, and does not join those that cover it. So no
tracked transaction covers another, and a report that confirms one of them ends no other's tracking by
accident. What a step leaves in the list stays as it was, where it was.

* `Tracker.perform_evolves`: all that a step can do to the list.
* `Tracker.after_empty_antichain`: the invariant of every run.
-/

namespace UtxoWallet

namespace Tracker

variable {τ : Type} [Trackable τ]

/-- Neither transaction has all identifiers of the other. -/
def Incomparable (a b : τ) : Prop :=
  ¬ covers a b ∧ ¬ covers b a

/-- Any two tracked transactions are incomparable. -/
def Antichain (tracker : Tracker τ) : Prop :=
  tracker.txs.Pairwise Incomparable

/-- In an antichain an item covers no other one than itself. -/
theorem Antichain.eq_of_covers {tracker : Tracker τ} (h : tracker.Antichain) {a b : Tracked τ}
    (ha : a ∈ tracker.items) (hb : b ∈ tracker.items) (hcovers : covers a.tx b.tx) : a = b := by
  by_contra distinct
  have symmetric : Std.Symm fun a b : Tracked τ => Incomparable a.tx b.tx :=
    ⟨fun _ _ apart => ⟨apart.2, apart.1⟩⟩
  have pairs := List.pairwise_map.mp h
  exact (pairs.forall ha hb distinct).1 hcovers

/-! ## What a step leaves -/

/-- Does the step save an outcome? -/
def Step.Saves : Step τ → Prop
  | .saveVerdict .. | .saveVerdictIds .. => True
  | .add _ | .clear _ | .clearIds _ => False

/-- What becomes of an item that a step leaves in the list. -/
structure Step.Keeps (step : Step τ) (item next : Tracked τ) : Prop where
  tx : next.tx = item.tx
  verdict : ¬ step.Saves → next.verdict = item.verdict

/-- What becomes of the list in a step: the items that are left stand in their order, and at most one
comes behind them. -/
inductive Step.Evolves (step : Step τ) (items : List (Tracked τ)) : List (Tracked τ) → Prop where
  | stay {kept next : List (Tracked τ)} (sublist : kept.Sublist items)
      (keeps : List.Forall₂ step.Keeps kept next) : Evolves step items next
  /-- What joins was asked for, is new, and is related to nothing that is left. -/
  | join {kept next : List (Tracked τ)} {tx : τ} (sublist : kept.Sublist items)
      (keeps : List.Forall₂ step.Keeps kept next) (asked : step = .add tx)
      (uncovered : ∀ item ∈ items, ¬ covers item.tx tx)
      (unrelated : ∀ item ∈ next, Incomparable item.tx tx) :
      Evolves step items (next ++ [⟨tx, none⟩])

section Keeping

omit [Trackable τ]

variable {step : Step τ}

theorem Step.keeps_refl (step : Step τ) (items : List (Tracked τ)) :
    List.Forall₂ step.Keeps items items :=
  List.forall₂_same.mpr fun _ _ => ⟨rfl, fun _ => rfl⟩

/-- A step that saves an outcome need only leave the transactions as they are. -/
theorem Step.keeps_of_saves (saves : step.Saves) {l r : Tracker τ} (same : r.txs = l.txs) :
    List.Forall₂ step.Keeps l.items r.items := by
  have pairs : List.Forall₂ Eq (l.items.map (·.tx)) (r.items.map (·.tx)) := by
    rw [List.forall₂_eq_eq_eq]
    exact same.symm
  exact (List.forall₂_map_right_iff.mp (List.forall₂_map_left_iff.mp pairs)).imp
    fun _ _ htx => ⟨htx.symm, fun unsaved => absurd saves unsaved⟩

theorem Step.map_tx_of_keeps {kept next : List (Tracked τ)}
    (h : List.Forall₂ step.Keeps kept next) : next.map (·.tx) = kept.map (·.tx) := by
  induction h with
  | nil => rfl
  | cons head _ ih => rw [List.map_cons, List.map_cons, head.tx, ih]

end Keeping

/-- Every step evolves the list in its own way. -/
theorem perform_evolves (tracker : Tracker τ) (step : Step τ) :
    step.Evolves tracker.items (tracker.perform step).items := by
  cases step with
  | add tx =>
      rw [perform]
      by_cases h : tracker.has tx
      · rw [add_of_has h]
        exact .stay (.refl _) (Step.keeps_refl _ _)
      · rw [items_add h]
        have uncovered : ∀ item ∈ tracker.items, ¬ covers item.tx tx :=
          fun item hmem hcovers => h (has_iff.mpr ⟨item, hmem, hcovers⟩)
        -- What the new transaction covers leaves as it joins, so neither covers the other.
        refine .join List.filter_sublist (Step.keeps_refl _ _) rfl uncovered fun item hmem => ?_
        obtain ⟨hmem, hkept⟩ := List.mem_filter.mp hmem
        exact ⟨uncovered item hmem, by simpa using hkept⟩
  | clear tx => exact .stay (items_clearIds_sublist _ _) (Step.keeps_refl _ _)
  | clearIds ids => exact .stay (items_clearIds_sublist _ _) (Step.keeps_refl _ _)
  | saveVerdict tx verdict =>
      exact .stay (.refl _) (Step.keeps_of_saves (by trivial) (txs_saveVerdict tracker tx verdict))
  | saveVerdictIds ids verdict =>
      exact .stay (.refl _) (Step.keeps_of_saves (by trivial) (txs_saveVerdictIds tracker ids verdict))

/-! ## Runs -/

/-- **One step.** The tracked sets of identifiers stay an antichain. -/
theorem Antichain.perform {tracker : Tracker τ} (h : tracker.Antichain) (step : Step τ) :
    (tracker.perform step).Antichain := by
  have left : ∀ {kept next : List (Tracked τ)}, kept.Sublist tracker.items →
      List.Forall₂ step.Keeps kept next → (next.map (·.tx)).Pairwise Incomparable := by
    intro kept next sublist keeps
    rw [Step.map_tx_of_keeps keeps]
    exact h.sublist (sublist.map _)
  -- Nothing is asked about the step itself, only what it leaves and what joins.
  have evolves := perform_evolves tracker step
  rw [Antichain, txs]
  generalize (tracker.perform step).items = items at evolves ⊢
  cases evolves with
  | stay sublist keeps => exact left sublist keeps
  | join sublist keeps asked uncovered unrelated =>
      rw [List.map_append, List.pairwise_append]
      refine ⟨left sublist keeps, List.pairwise_singleton _ _, fun a ha b hb => ?_⟩
      obtain ⟨item, hmem, rfl⟩ := List.mem_map.mp ha
      rw [List.map_singleton, List.mem_singleton] at hb
      rw [hb]
      exact unrelated item hmem

/-- **A run.** So they do through any number of steps. -/
theorem Antichain.after {tracker : Tracker τ} (h : tracker.Antichain) (steps : List (Step τ)) :
    (tracker.after steps).Antichain := by
  induction steps generalizing tracker with
  | nil => exact h
  | cons step rest ih => exact ih (h.perform step)

/-- **Tracked transactions are incomparable**, whatever a tracker is asked for from the start on. Each
step leaves of an item its transaction and its place among the others that are left, and its outcome
too, unless the step saves one. -/
theorem after_empty_antichain (steps : List (Step τ)) :
    let tracker := (empty : Tracker τ).after steps
    tracker.Antichain ∧
      ∀ step : Step τ, step.Evolves tracker.items (tracker.perform step).items := by
  have start : (empty : Tracker τ).Antichain := .nil
  exact ⟨start.after steps, perform_evolves _⟩

end Tracker

end UtxoWallet
