import UtxoWallet.Proofs.Transaction.Accounts
import UtxoWallet.Proofs.Wallet.Balance

/-! # The accounts of a balanced transaction

What the wallet adds to a transaction is its selection, whether that takes an intent or not
(`Wallet.balance_adds`). The accounts of the transaction and those of the selection then add up:
`Wallet.balance_accounts`.
-/

namespace UtxoWallet

namespace Transaction

variable {tx balanced : Transaction} {added : List (UInt16 × Intent)}

/-- What is read off a transaction intent by intent is read off the added ones last. -/
theorem flatMap_of_entries {α : Type} (f : Intent → List α)
    (h : balanced.intents.entries = tx.intents.entries ++ added) :
    balanced.intents.values.flatMap f = tx.intents.values.flatMap f ++ added.flatMap (f ·.2) := by
  simp only [OrderedMap.values, h, List.map_append, List.flatMap_append, List.flatMap_map]

/-- The inputs of the balanced transaction are the given ones, and those of what was added. -/
theorem inputs_of_entries (h : balanced.intents.entries = tx.intents.entries ++ added) :
    balanced.inputs = tx.inputs ++ added.flatMap (·.2.inputs) :=
  flatMap_of_entries Intent.inputs h

theorem outputs_of_entries (h : balanced.intents.entries = tx.intents.entries ++ added) :
    balanced.outputs = tx.outputs ++ added.flatMap (·.2.outputs) :=
  flatMap_of_entries Intent.outputs h

end Transaction

namespace Wallet

variable {wallet wallet' : Wallet} {native : TokenType} {fees : Fees} {ttl : Instant}
  {tx balanced : Transaction} {bindings bindings' : BindingSource}

/-- The output that gives change back to the owner. -/
def changeOutput (wallet : Wallet) (change : Change) : Output :=
  { value := change.value, owner := wallet.owner, token := change.token }

/-- A selection for a transaction settles its imbalances after fees from the available coins. -/
theorem selectFor_eq_ok {selection : Selection Coin}
    (h : wallet.selectFor native fees tx = .ok selection) :
    ∃ imbalances, tx.imbalancesAfterFees fees native = .ok imbalances ∧
      Selection.ofImbalances wallet.ledger.availableCoins imbalances fees native =
        .ok selection := by
  rw [selectFor] at h
  split at h
  · cases h
  · obtain ⟨imbalances, himbalances, h⟩ := bind_eq_ok.mp h
    exact ⟨imbalances, mapError_eq_ok.mp himbalances, mapError_eq_ok.mp h⟩

/-- A balanced transaction has the intents of the given one, and at most one more, which holds the
selection. -/
theorem balance_adds
    (h : wallet.balance native fees ttl tx bindings = (.ok (balanced, wallet'), bindings')) :
    ∃ selection added, wallet.selectFor native fees tx = .ok selection ∧ added.length ≤ 1 ∧
      balanced.intents.entries = tx.intents.entries ++ added ∧
      added.flatMap (·.2.inputs) = selection.inputs.map (·.toUtxo) ∧
      added.flatMap (·.2.outputs) = selection.outputs.map wallet.changeOutput := by
  obtain ⟨selection, hselect, ⟨hempty, rfl, -⟩ | ⟨happend, -⟩⟩ := balance_eq_ok h
  · rw [Selection.isEmpty, Bool.and_eq_true, List.isEmpty_iff, List.isEmpty_iff] at hempty
    refine ⟨selection, [], hselect, Nat.zero_le 1, (List.append_nil _).symm, ?_, ?_⟩
    · rw [hempty.1]
      rfl
    · rw [hempty.2]
      rfl
  · obtain ⟨segment, hentries⟩ := Transaction.withIntent_eq_ok happend
    refine ⟨selection, [(segment, wallet.balancingIntent ttl bindings selection)], hselect,
      Nat.le_refl 1, hentries, ?_, ?_⟩
    · exact List.append_nil _
    · exact List.append_nil _

/-- **Fees are paid once, and nothing else is lost.** A balanced transaction has the intents of the
given one and at most one more. It spends as much as it creates of every token but the native one. In
the native token it spends what it creates, the fees of all its inputs and outputs, and at most the
fee of one more output, which is lost only where the added intent has no native change. -/
theorem balance_accounts
    (h : wallet.balance native fees ttl tx bindings = (.ok (balanced, wallet'), bindings')) :
    ∃ added : List (UInt16 × Intent), added.length ≤ 1 ∧
      balanced.intents.entries = tx.intents.entries ++ added ∧
      (∀ token, token ≠ native → balanced.worthIn token = balanced.worthOut token) ∧
      ∃ slack, (slack = 0 ∨ slack = fees.output.toNat) ∧
        (slack ≠ 0 → ∀ output ∈ added.flatMap (·.2.outputs), output.token ≠ native) ∧
        balanced.worthIn native = balanced.worthOut native +
          fees.input.toNat * balanced.inputs.length +
          fees.output.toNat * balanced.outputs.length + slack := by
  obtain ⟨selection, added, hselect, hlength, hentries, hinputs, houtputs⟩ := balance_adds h
  obtain ⟨imbalances, himbalances, hselection⟩ := selectFor_eq_ok hselect
  obtain ⟨hothers, slack, hslack, hchange, hnative⟩ := Selection.ofImbalances_accounts hselection
  -- What is added to the transaction is just what has been selected, in each token and in number.
  have hin : ∀ token, balanced.worthIn token = tx.worthIn token + worth token selection.inputs := by
    intro token
    rw [Transaction.worthIn, Transaction.inputs_of_entries hentries, worth_append, hinputs,
      worth_map (f := Coin.toUtxo) (fun _ => rfl) (fun _ => rfl)]
    rfl
  have hout : ∀ token,
      balanced.worthOut token = tx.worthOut token + worth token selection.outputs := by
    intro token
    rw [Transaction.worthOut, Transaction.outputs_of_entries hentries, worth_append, houtputs,
      worth_map (f := wallet.changeOutput) (fun _ => rfl) (fun _ => rfl)]
    rfl
  have hinCount : balanced.inputs.length = tx.inputs.length + selection.inputs.length := by
    rw [Transaction.inputs_of_entries hentries, List.length_append, hinputs, List.length_map]
  have houtCount : balanced.outputs.length = tx.outputs.length + selection.outputs.length := by
    rw [Transaction.outputs_of_entries hentries, List.length_append, houtputs, List.length_map]
  refine ⟨added, hlength, hentries, ?_, slack, hslack, ?_, ?_⟩
  · intro token htoken
    have hsum : (imbalances.of token).toInt + worth token selection.inputs =
        worth token selection.outputs := hothers token htoken
    rw [Transaction.imbalancesAfterFees_eq_ok himbalances, if_neg htoken] at hsum
    rw [hin, hout]
    omega
  · intro hne output hmem
    rw [houtputs] at hmem
    obtain ⟨change, hgiven, rfl⟩ := List.mem_map.mp hmem
    exact hchange hne change hgiven
  · have hsum : (imbalances.of native).toInt + worth native selection.inputs =
        worth native selection.outputs + fees.input.toNat * selection.inputs.length +
          fees.output.toNat * selection.outputs.length + slack := hnative
    rw [Transaction.imbalancesAfterFees_eq_ok himbalances, if_pos rfl] at hsum
    rw [hin, hout, hinCount, houtCount, Nat.mul_add, Nat.mul_add]
    push_cast at hsum
    omega

/-- A coin of a hundred pays forty, fees of two for each output and one for its input, and change. -/
theorem balance_accounts_of_payment :
    let coin := Coin.ofValue ⟨100, by decide⟩
    let fees : Fees := ⟨⟨1, by decide⟩, ⟨2, by decide⟩⟩
    let wallet := { start "pk" "net" with ledger := .restore [coin] [] }
    let tx := Transaction.ofIntent "net"
      ⟨0, some ⟨[], [⟨⟨40, by decide⟩, "bob", coin.token⟩]⟩, .zero⟩
    ∃ balanced wallet' bindings',
      wallet.balance coin.token fees Instant.latest tx .fresh =
        (.ok (balanced, wallet'), bindings') ∧
      ∃ added : List (UInt16 × Intent), added.length ≤ 1 ∧
        balanced.intents.entries = tx.intents.entries ++ added ∧
        (∀ token, token ≠ coin.token → balanced.worthIn token = balanced.worthOut token) ∧
        ∃ slack, (slack = 0 ∨ slack = fees.output.toNat) ∧
          (slack ≠ 0 → ∀ output ∈ added.flatMap (·.2.outputs), output.token ≠ coin.token) ∧
          balanced.worthIn coin.token = balanced.worthOut coin.token +
            fees.input.toNat * balanced.inputs.length +
            fees.output.toNat * balanced.outputs.length + slack := by
  intro coin fees wallet tx
  have hok : (wallet.balance coin.token fees Instant.latest tx .fresh).1.isOk := by
    decide +kernel
  rcases h : wallet.balance coin.token fees Instant.latest tx .fresh with
    ⟨error | ⟨balanced, wallet'⟩, bindings'⟩
  · rw [h] at hok
    cases hok
  · exact ⟨balanced, wallet', bindings', rfl, balance_accounts h⟩

end Wallet

end UtxoWallet
