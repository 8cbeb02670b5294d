import UtxoWallet.Proofs.Wallet.Run

/-! # A confirmed spend is final

Once the indexer has confirmed that a coin is spent, the wallet forgets the coin. It keeps no list of
coins that are gone, so it takes later reports at their word: the coin is back as soon as a report
says that it is created, or that a failed transaction would have spent it. Nothing else brings it
back, no balancing and no revert.

* `Wallet.lacks_perform_iff`: what brings a coin back in one step.
* `Wallet.confirmed_spend_final`: so a spent coin is gone for just as long as no report brings it back.
* `Wallet.failure_brings_spent_coin_back`: that no report creates it is not enough.
-/

namespace UtxoWallet

/-- The ledger has no coin with the key. -/
def Ledger.Lacks (ledger : Ledger) (key : UtxoKey) : Prop :=
  ledger.available.get? key = none ∧ ledger.pending.get? key = none

namespace Ledger

variable {ledger : Ledger} {key : UtxoKey}

theorem Lacks.reserve (h : ledger.Lacks key) (keys : List UtxoKey) :
    (ledger.reserve keys).Lacks key := by
  rw [Lacks, get?_available_reserve, get?_pending_reserve, h.1, h.2]
  simp

theorem Lacks.release (h : ledger.Lacks key) (keys : List UtxoKey) :
    (ledger.release keys).Lacks key := by
  rw [Lacks, get?_available_release, get?_pending_release, h.1, h.2]
  simp

/-- A report puts a coin in if it creates it, or if it says that the transaction failed which would
have spent it. -/
theorem Lacks.settled_iff (h : ledger.Lacks key) (update : Update) :
    (ledger.settled update).Lacks key ↔
      if update.status = .failure then key ∉ update.spentKeys else key ∉ update.createdKeys := by
  rw [Lacks, get?_available_settled, get?_pending_settled, h.1, h.2]
  simp only [ite_self, Option.or_none, and_true]
  split
  · exact lastCoin?_eq_none_iff
  · exact lastCoin?_eq_none_iff

/-- A transaction that takes effect takes the coins out that it spends, unless it creates them too. -/
theorem lacks_settled {update : Update} (applied : update.status ≠ .failure)
    (spent : key ∈ update.spentKeys) (uncreated : key ∉ update.createdKeys) :
    (ledger.settled update).Lacks key := by
  rw [Lacks, get?_available_settled, get?_pending_settled, if_neg applied, if_pos spent, if_pos spent,
    lastCoin?_eq_none uncreated]
  exact ⟨rfl, rfl⟩

end Ledger

namespace Wallet

/-! ## What brings a coin back -/

/-- Is the operation the report that the coin is created? -/
def Operation.Creates (key : UtxoKey) : Operation → Prop
  | .apply (.transaction update) => update.status ≠ .failure ∧ key ∈ update.createdKeys
  | .balance .. | .revert _ | .apply (.progress _) | .disconnect => False

/-- Is the operation the report that a transaction failed which would have spent the coin? -/
def Operation.GivesBack (key : UtxoKey) : Operation → Prop
  | .apply (.transaction update) => update.status = .failure ∧ key ∈ update.spentKeys
  | .balance .. | .revert _ | .apply (.progress _) | .disconnect => False

variable {wallet : Wallet} {key : UtxoKey}

/-- **One step.** -/
theorem lacks_perform_iff (h : wallet.ledger.WellKeyed) (absent : wallet.ledger.Lacks key)
    (operation : Operation) : (wallet.perform operation).ledger.Lacks key ↔
      ¬ operation.Creates key ∧ ¬ operation.GivesBack key := by
  cases operation with
  | balance native fees ttl tx bindings =>
      rw [(handedOut_spec wallet native fees ttl tx bindings).2.2]
      exact ⟨fun _ => ⟨id, id⟩, fun _ => absent.reserve _⟩
  | revert tx =>
      rw [perform_revert h]
      exact ⟨fun _ => ⟨id, id⟩, fun _ => absent.release _⟩
  | apply notice =>
      cases notice with
      | progress highest => exact ⟨fun _ => ⟨id, id⟩, fun _ => absent⟩
      | transaction update =>
          rw [perform_transaction, absent.settled_iff]
          by_cases failed : update.status = .failure
          · simp [Operation.Creates, Operation.GivesBack, failed]
          · simp [Operation.Creates, Operation.GivesBack, failed]
  | disconnect => exact ⟨fun _ => ⟨id, id⟩, fun _ => absent⟩

/-- **A run.** -/
theorem lacks_after_iff (h : wallet.ledger.WellKeyed) (absent : wallet.ledger.Lacks key)
    (operations : List Operation) :
    (∀ later ∈ operations.scanl perform wallet, later.ledger.Lacks key) ↔
      ∀ operation ∈ operations, ¬ operation.Creates key ∧ ¬ operation.GivesBack key := by
  -- One operation at a time: the wallet each leaves is the start of the rest.
  induction operations generalizing wallet with
  | nil =>
      rw [List.scanl_nil]
      refine ⟨fun _ _ hmem => absurd hmem List.not_mem_nil, fun _ later hmem => ?_⟩
      rw [List.mem_singleton.mp hmem]
      exact absent
  | cons operation rest ih =>
      have step := lacks_perform_iff h absent operation
      simp only [List.scanl_cons, List.forall_mem_cons, absent, true_and]
      by_cases still : (wallet.perform operation).ledger.Lacks key
      · rw [ih (h.operate operation) still]
        exact ⟨fun hrest => ⟨step.mp still, hrest⟩, And.right⟩
      · -- The coin is back already, so that both sides are false.
        constructor
        · intro hall
          exact absurd (hall _ (List.mem_of_head? List.head?_scanl)) still
        · rintro ⟨hnow, -⟩
          exact absurd (step.mpr hnow) still

/-- **A confirmed spend is final.** After a report that a transaction took effect which spends a coin
and does not create it, the wallet lacks the coin in every state of the run, just as long as no
report says that it is created or that a failed transaction would have spent it. -/
theorem confirmed_spend_final {start : Wallet} (reachable : start.ledger.Reachable)
    (before later : List Operation) {update : Update} (applied : update.status ≠ .failure)
    (spent : key ∈ update.spentKeys) (uncreated : key ∉ update.createdKeys) :
    (∀ wallet ∈ later.scanl perform (start.after (before ++ [.apply (.transaction update)])),
      wallet.ledger.Lacks key) ↔
      ∀ operation ∈ later, ¬ operation.Creates key ∧ ¬ operation.GivesBack key := by
  have keyed := Ledger.reachable_iff_wellKeyed.mp reachable
  refine lacks_after_iff (keyed.operateAll _) ?_ later
  rw [after_append]
  show ((start.after before).perform (.apply (.transaction update))).ledger.Lacks key
  rw [perform_transaction]
  exact Ledger.lacks_settled applied spent uncreated

/-- A coin is reserved for a payment, and confirmed to be spent. To revert the payment does not bring
it back, nor does the failure of a transaction that spends another coin. -/
theorem confirmed_spend_final_of_payment :
    let coin := Coin.ofValue ⟨100, by decide⟩
    let other := { coin with key := ⟨⟨[0x22]⟩, 0⟩ }
    let start := { start "pk" "net" with ledger := .restore [coin] [] }
    let pay := Operation.balance coin.token .free Instant.latest
      (.ofIntent "net" ⟨0, some ⟨[], [⟨⟨40, by decide⟩, "bob", coin.token⟩]⟩, .zero⟩) .fresh
    let spending : Update := ⟨1, .empty, [other], [coin], .success, []⟩
    let later := [.revert (.ofIntent "net" ⟨0, some ⟨[coin.toUtxo], []⟩, .zero⟩),
      .apply (.transaction ⟨2, .empty, [], [other], .failure, []⟩), .apply (.progress 9), pay]
    (∀ operation ∈ later, ¬ operation.Creates coin.key ∧ ¬ operation.GivesBack coin.key) ∧
      ∀ wallet ∈ later.scanl perform (start.after ([pay] ++ [.apply (.transaction spending)])),
        wallet.ledger.Lacks coin.key := by
  intro coin other start pay spending later
  have reachable : start.ledger.Reachable := ⟨[coin], [], [], rfl⟩
  have kept : ∀ operation ∈ later, ¬ operation.Creates coin.key ∧ ¬ operation.GivesBack coin.key := by
    simp only [later, List.forall_mem_cons]
    have differs : coin.key ∉ [other.key] := by decide
    exact ⟨⟨id, id⟩, ⟨fun h => h.1 rfl, fun h => differs h.2⟩, ⟨id, id⟩, ⟨id, id⟩,
      fun _ hmem => absurd hmem List.not_mem_nil⟩
  have applied : spending.status ≠ .failure := by decide
  have spent : coin.key ∈ spending.spentKeys := by decide
  have uncreated : coin.key ∉ spending.createdKeys := by decide
  exact ⟨kept, (confirmed_spend_final reachable [pay] later applied spent uncreated).mpr kept⟩

/-- Of two transactions that spend the same coin, the first succeeds and the second fails. The coin is
available again, though no report creates it. -/
theorem failure_brings_spent_coin_back :
    let coin := Coin.ofValue ⟨100, by decide⟩
    let start := { start "pk" "net" with ledger := .restore [coin] [] }
    let spending : Update := ⟨1, .empty, [], [coin], .success, []⟩
    let failing := Operation.apply (.transaction ⟨2, .empty, [], [coin], .failure, []⟩)
    spending.status ≠ .failure ∧ coin.key ∈ spending.spentKeys ∧
      coin.key ∉ spending.createdKeys ∧ ¬ failing.Creates coin.key ∧
      (start.after [.apply (.transaction spending)]).ledger.Lacks coin.key ∧
      (start.after [.apply (.transaction spending), failing]).ledger.available.contains coin.key := by
  exact ⟨by decide, by decide, by decide, fun h => h.1 rfl, ⟨by decide +kernel, by decide +kernel⟩,
    by decide +kernel⟩

end Wallet

end UtxoWallet
