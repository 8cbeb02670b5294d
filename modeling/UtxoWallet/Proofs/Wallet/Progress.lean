import UtxoWallet.Proofs.Wallet.Order
import UtxoWallet.Proofs.Wallet.Run

/-! # How far a wallet follows the chain

A wallet is taken up with the last id that it took in before, if there is one. Then reports come in, with
their ids in any order and more than once, and the connection is lost and comes back. The progress is a
summary of all that (`Progress.Tells`): the latest id that has been taken in, the latest one that is
known, and whether a sign of life has come since the connection was last lost. Each operation keeps it so
(`Progress.Tells.operate`).

`Wallet.progress_exact`: hence the wallet never has more than it knows of, neither id ever goes down, and
a wallet is in sync just when the ids that are outstanding are few enough.
-/

namespace UtxoWallet

/-- The id of the transaction that a report settles. -/
def Notice.settledId? : Notice → Option UInt64
  | .progress _ => none
  | .transaction update => some update.id

/-- The id that is known to exist from a report. -/
def Notice.knownId : Notice → UInt64
  | .progress highest => highest
  | .transaction update => update.id

namespace Wallet

/-! ## What has been reported -/

/-- The report that comes in with an operation. -/
def Operation.report? : Operation → Option Notice
  | .apply notice => some notice
  | .balance .. | .revert _ | .disconnect => none

/-- The transactions that have been taken in: the last one before the wallet was taken up, and those that
are reported from then on. -/
def settledIds (resumed : Option UInt64) (operations : List Operation) : List UInt64 :=
  resumed.toList ++ (operations.filterMap Operation.report?).filterMap Notice.settledId?

/-- All ids that the wallet has heard of: those of the transactions, and those that signs of life name. It
starts from 0. -/
def knownIds (resumed : Option UInt64) (operations : List Operation) : List UInt64 :=
  0 :: resumed.toList ++ (operations.filterMap Operation.report?).map Notice.knownId

/-- A sign of life has come since the connection was last lost. -/
def Heard (operations : List Operation) : Prop :=
  ∃ before highest later, operations = before ++ .apply (.progress highest) :: later ∧
    Operation.disconnect ∉ later

section Reports

variable (resumed : Option UInt64) (operations : List Operation)

/-- One operation more settles one id at most. -/
theorem settledIds_concat (operation : Operation) :
    settledIds resumed (operations ++ [operation]) =
      settledIds resumed operations ++ (operation.report?.bind Notice.settledId?).toList := by
  cases h : operation.report? with
  | none => simp [settledIds, h]
  | some notice => cases hid : notice.settledId? <;> simp [settledIds, h, hid]

/-- One report more makes one id known. -/
theorem knownIds_concat (operation : Operation) :
    knownIds resumed (operations ++ [operation]) =
      knownIds resumed operations ++ (operation.report?.map Notice.knownId).toList := by
  cases h : operation.report? <;> simp [knownIds, h]

/-- Whatever is settled is known. -/
theorem mem_knownIds_of_settled {id : UInt64} (h : id ∈ settledIds resumed operations) :
    id ∈ knownIds resumed operations := by
  rw [settledIds, List.mem_append] at h
  rcases h with h | h
  · exact List.mem_cons_of_mem 0 (List.mem_append_left _ h)
  · obtain ⟨notice, hmem, hid⟩ := List.mem_filterMap.mp h
    refine List.mem_append_right _ (List.mem_map.mpr ⟨notice, hmem, ?_⟩)
    cases notice with
    | progress highest => cases hid
    | transaction update => exact Option.some.inj hid

variable {operations}

/-- The connection is up after a sign of life, and down after its loss; anything else leaves it as it
is. -/
theorem heard_concat_iff {operation : Operation} :
    Heard (operations ++ [operation]) ↔
      (∃ highest, operation = .apply (.progress highest)) ∨
        operation ≠ .disconnect ∧ Heard operations := by
  constructor
  · rintro ⟨before, highest, later, h, absent⟩
    rcases List.eq_nil_or_concat later with rfl | ⟨front, last, rfl⟩
    · obtain ⟨-, hlast⟩ := List.append_inj' h rfl
      exact .inl ⟨highest, (List.cons.inj hlast).1⟩
    · -- The sign of life came earlier, so the last operation is one of those behind it.
      rw [List.concat_eq_append, ← List.cons_append, ← List.append_assoc] at h
      obtain ⟨hfront, hlast⟩ := List.append_inj' h rfl
      obtain rfl : operation = last := (List.cons.inj hlast).1
      rw [List.concat_eq_append, List.mem_append, not_or, List.mem_singleton] at absent
      exact .inr ⟨Ne.symm absent.2, before, highest, front, hfront, absent.1⟩
  · rintro (⟨highest, rfl⟩ | ⟨hne, before, highest, later, rfl, absent⟩)
    · exact ⟨operations, highest, [], rfl, List.not_mem_nil⟩
    · refine ⟨before, highest, later ++ [operation], by simp, ?_⟩
      rw [List.mem_append, not_or, List.mem_singleton]
      exact ⟨absent, Ne.symm hne⟩

end Reports

end Wallet

/-! ## What an operation does -/

open Wallet

/-- The progress after an operation. Payments and reverts leave it alone. -/
def Progress.operate (progress : Progress) : Operation → Progress
  | .apply notice => progress.take notice
  | .disconnect => progress.disconnect
  | .balance .. | .revert _ => progress

/-- What an operation does to the progress does not hang on the coins. -/
theorem Wallet.perform_progress (wallet : Wallet) (operation : Operation) :
    (wallet.perform operation).progress = wallet.progress.operate operation := by
  cases operation with
  | balance native fees ttl tx bindings =>
      rw [(handedOut_spec wallet native fees ttl tx bindings).2.2]
      rfl
  | revert tx =>
      rw [perform, revert]
      cases (tx.inputs.map (·.key)).foldlM revertKey (wallet.ledger, 0) <;> rfl
  | apply notice =>
      rw [perform, applyNotice_eq]
      rfl
  | disconnect => rfl

/-- No operation sets the progress back. -/
theorem Progress.behind_operate (progress : Progress) (operation : Operation) :
    progress.Behind (progress.operate operation) := by
  cases operation with
  | apply notice => exact progress.behind_take notice
  | balance _ _ _ _ _ | revert _ | disconnect => exact behind_of_ids rfl (UInt64.le_refl _)

/-! ## The summary -/

/-- What the progress tells of the operations since the wallet was taken up. -/
structure Progress.Tells (resumed : Option UInt64) (operations : List Operation)
    (progress : Progress) : Prop where
  applied : IsLatest (settledIds resumed operations) progress.applied
  highest : IsLatest (knownIds resumed operations) (some progress.highest)
  connected : progress.connected ↔ Heard operations

namespace Progress.Tells

variable {resumed : Option UInt64} {operations : List Operation} {progress : Progress}

/-- The progress that a wallet is taken up with tells the empty history. -/
theorem restored (resumed : Option UInt64) : (Progress.restored resumed).Tells resumed [] := by
  constructor
  · cases resumed <;> simp [IsLatest, settledIds, Progress.restored]
  · cases resumed <;> simp [IsLatest, knownIds, Progress.restored]
  · simp [Heard, Progress.restored]

/-- In every history the last settled id is at most the highest known one. -/
theorem ordered (h : progress.Tells resumed operations) : progress.Ordered := by
  intro id hid
  have happlied := h.applied
  rw [hid] at happlied
  exact h.highest.2 id (mem_knownIds_of_settled resumed operations happlied.1)

/-- An operation without a report adds no ids. -/
theorem of_silent {next : Progress} (h : progress.Tells resumed operations) {operation : Operation}
    (silent : operation.report? = none)
    (applied : next.applied = progress.applied) (highest : next.highest = progress.highest)
    (connected : next.connected ↔ Heard (operations ++ [operation])) :
    next.Tells resumed (operations ++ [operation]) := by
  have hsettled : settledIds resumed (operations ++ [operation]) = settledIds resumed operations := by
    rw [settledIds_concat, silent]
    exact List.append_nil _
  have hknown : knownIds resumed (operations ++ [operation]) = knownIds resumed operations := by
    rw [knownIds_concat, silent]
    exact List.append_nil _
  constructor
  · rw [hsettled, applied]
    exact h.applied
  · rw [hknown, highest]
    exact h.highest
  · exact connected

/-- A report that is taken in is told by the progress after it. -/
theorem take (h : progress.Tells resumed operations) (notice : Notice) :
    (progress.take notice).Tells resumed (operations ++ [.apply notice]) := by
  constructor
  case applied =>
    rw [settledIds_concat]
    cases notice with
    | progress marker =>
        -- A sign of life settles nothing.
        show IsLatest (settledIds resumed operations ++ []) progress.applied
        rw [List.append_nil]
        exact h.applied
    | transaction update => exact h.applied.concat update.id
  case highest =>
    have hlatest := h.highest.concat notice.knownId
    rw [knownIds_concat]
    cases notice with
    | progress marker => exact hlatest
    | transaction update =>
        show IsLatest _ (some (progress.record update.id).highest)
        rw [h.ordered.highest_record]
        exact hlatest
  case connected =>
    rw [heard_concat_iff]
    cases notice with
    | progress marker => exact ⟨fun _ => .inl ⟨marker, rfl⟩, fun _ => rfl⟩
    | transaction update =>
        show progress.connected ↔ _
        rw [h.connected]
        simp

/-- **One step.** -/
theorem operate (h : progress.Tells resumed operations) (operation : Operation) :
    (progress.operate operation).Tells resumed (operations ++ [operation]) := by
  cases operation with
  | apply notice => exact h.take notice
  | disconnect =>
      refine h.of_silent rfl rfl rfl ?_
      show false = true ↔ Heard (operations ++ [.disconnect])
      rw [heard_concat_iff]
      simp
  | balance _ _ _ _ _ | revert _ =>
      refine h.of_silent rfl rfl rfl ?_
      show progress.connected ↔ _
      rw [heard_concat_iff, h.connected]
      simp

end Progress.Tells

namespace Wallet

/-- **A run.** -/
theorem tells_after (wallet : Wallet) (resumed : Option UInt64) (operations : List Operation) :
    ({ wallet with progress := .restored resumed }.after operations).progress.Tells resumed
      operations := by
  induction operations using List.reverseRecOn with
  | nil => exact .restored resumed
  | append_singleton operations operation ih =>
      rw [after_append]
      show ((after _ operations).perform operation).progress.Tells resumed _
      rw [perform_progress]
      exact ih.operate operation

/-- **What the progress says.** Let a wallet be taken up with an id, or start with none
(`Progress.initial`), and perform any operations. The applied id is the latest of the one it was taken up
with and those of all transactions reported since; it is absent iff there are no such ids. The highest id
is the latest of 0, of these, and of all that signs of life have named. The connection is up iff a sign of
life has come since it was last lost. So the wallet has taken in nothing beyond what it knows of; no
further operation lowers one of the two ids; and the wallet is in sync iff the connection is up and the
ids that are missing up to the highest one are at most as many as the gap. -/
theorem progress_exact (wallet : Wallet) (resumed : Option UInt64) (operations : List Operation) :
    let now := { wallet with progress := .restored resumed }.after operations
    now.progress.Tells resumed operations ∧ now.progress.Ordered ∧
      (∀ operation, now.progress.Behind (now.perform operation).progress) ∧
      ∀ gap, now.progress.isSynced gap ↔ Heard operations ∧ ∃ outstanding ≤ gap.toNat,
        (now.progress.applied.getD 0).toNat + outstanding = now.progress.highest.toNat := by
  intro now
  have tells : now.progress.Tells resumed operations := tells_after wallet resumed operations
  refine ⟨tells, tells.ordered, fun operation => ?_, fun gap => ?_⟩
  · rw [perform_progress]
    exact now.progress.behind_operate operation
  · rw [tells.ordered.isSynced_iff, tells.connected]

end Wallet

end UtxoWallet
