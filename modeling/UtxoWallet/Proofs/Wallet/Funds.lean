import UtxoWallet.Proofs.Ledger.Worth
import UtxoWallet.Proofs.Transaction.Created
import UtxoWallet.Proofs.Wallet.Inputs

/-! # How a wallet funds a payment

A wallet pays with coins that it holds, and gives itself change in at most one more intent
(`Wallet.balance_funds`). When the indexer confirms the payment, these coins are gone
(`Wallet.Funds.coin?_confirmed`), and the change is there: `Wallet.Funds.worth_confirmed`.
-/

namespace UtxoWallet

/-! ## Own outputs -/

namespace Transaction

variable {tx balanced : Transaction} {added : List (UInt16 × Intent)} {name : String}

/-- If a transaction has no output for an owner, and the added intents have outputs for no one else,
then what belongs to the owner is of the added intents. -/
theorem filter_owner_of_entries {α : Type} {f : Intent → List α} {owner : α → String}
    (howner : ∀ intent, ∀ item ∈ f intent, owner item ∈ intent.outputs.map (·.owner))
    (hentries : balanced.intents.entries = tx.intents.entries ++ added)
    (foreign : ∀ output ∈ tx.outputs, output.owner ≠ name)
    (own : ∀ output ∈ added.flatMap (·.2.outputs), output.owner = name) :
    (balanced.intents.values.flatMap f).filter (owner · = name) = (added.map (·.2)).flatMap f := by
  have hforeign : ∀ item ∈ tx.intents.values.flatMap f, ¬ owner item = name := by
    intro item hmem
    obtain ⟨intent, hintent, hitem⟩ := List.mem_flatMap.mp hmem
    obtain ⟨output, houtput, same⟩ := List.mem_map.mp (howner intent item hitem)
    rw [← same]
    exact foreign output (List.mem_flatMap.mpr ⟨intent, hintent, houtput⟩)
  have hown : ∀ item ∈ added.flatMap (f ·.2), owner item = name := by
    intro item hmem
    obtain ⟨entry, hentry, hitem⟩ := List.mem_flatMap.mp hmem
    obtain ⟨output, houtput, same⟩ := List.mem_map.mp (howner entry.2 item hitem)
    rw [← same]
    exact own output (List.mem_flatMap.mpr ⟨entry, hentry, houtput⟩)
  -- The old part has no output under this name, the new part has only such.
  rw [flatMap_of_entries f hentries, List.filter_append, List.filter_eq_nil_iff.mpr,
    List.filter_eq_self.mpr, List.nil_append, List.flatMap_map]
  · simpa using hown
  · simpa using hforeign

theorem inputs_ofIntent (network : String) (intent : Intent) :
    (ofIntent network intent).inputs = intent.inputs :=
  List.append_nil _

theorem outputs_ofIntent (network : String) (intent : Intent) :
    (ofIntent network intent).outputs = intent.outputs :=
  List.append_nil _

end Transaction

namespace Wallet

variable {wallet wallet' : Wallet} {native : TokenType} {fees : Fees} {ttl : Instant}
  {tx balanced : Transaction} {bindings bindings' : BindingSource}

/-! ## What a payment is made of -/

/-- A selection closes the accounts of a transaction. -/
theorem selectFor_accounts {selection : Selection Coin}
    (h : wallet.selectFor native fees tx = .ok selection) :
    ∃ slack, (slack = 0 ∨ slack = fees.output.toNat) ∧ ∀ token,
      tx.worthIn token + worth token selection.inputs =
        tx.worthOut token + worth token selection.outputs +
          if token = native then
            fees.input.toNat * (tx.inputs.length + selection.inputs.length) +
              fees.output.toNat * (tx.outputs.length + selection.outputs.length) + slack
          else 0 := by
  obtain ⟨imbalances, himbalances, hselection⟩ := selectFor_eq_ok h
  obtain ⟨hothers, slack, hslack, -, hnative⟩ := Selection.ofImbalances_accounts hselection
  refine ⟨slack, hslack, fun token => ?_⟩
  have himbalance := Transaction.imbalancesAfterFees_eq_ok himbalances token
  by_cases htoken : token = native
  · subst htoken
    have hsum : (imbalances.of token).toInt + worth token selection.inputs =
        worth token selection.outputs + fees.input.toNat * selection.inputs.length +
          fees.output.toNat * selection.outputs.length + slack := hnative
    rw [if_pos rfl] at himbalance ⊢
    rw [Nat.mul_add, Nat.mul_add]
    push_cast at himbalance
    omega
  · have hsum : (imbalances.of token).toInt + worth token selection.inputs =
        worth token selection.outputs := hothers token htoken
    rw [if_neg htoken] at himbalance ⊢
    omega

/-- A wallet funds a transaction with coins that it holds, and gives itself the change. -/
structure Funds (wallet : Wallet) (tx balanced : Transaction) (coins : List Coin)
    (added : List (UInt16 × Intent)) : Prop where
  entries : balanced.intents.entries = tx.intents.entries ++ added
  length_le : added.length ≤ 1
  inputs : added.flatMap (·.2.inputs) = coins.map (·.toUtxo)
  held : ∀ coin ∈ coins, coin ∈ wallet.ledger.coins
  distinct : (coins.map (·.key)).Nodup
  own : ∀ output ∈ added.flatMap (·.2.outputs), output.owner = wallet.owner

/-- Balancing a transaction moves the coins that it is funded with, and closes its accounts. -/
theorem balance_funds (exclusive : wallet.ledger.Exclusive)
    (h : wallet.balance native fees ttl tx bindings = (.ok (balanced, wallet'), bindings')) :
    wallet'.owner = wallet.owner ∧ wallet.ledger.Moved wallet'.ledger ∧
      ∃ coins added, wallet'.Funds tx balanced coins added ∧
        ∃ slack, (slack = 0 ∨ slack = fees.output.toNat) ∧ ∀ token,
          tx.worthIn token + worth token coins =
            tx.worthOut token + worth token (added.flatMap (·.2.outputs)) +
              if token = native then
                fees.input.toNat * balanced.inputs.length +
                  fees.output.toNat * balanced.outputs.length + slack
              else 0 := by
  obtain ⟨selection, added, hselect, hlength, hentries, hinputs, houtputs⟩ := balance_adds h
  obtain ⟨others, hothers, hdistinct, -, rfl⟩ := balance_reserves h
  -- Both lemmas speak of the same new intents.
  obtain rfl : others = added := List.append_cancel_left (hothers.symm.trans hentries)
  obtain ⟨imbalances, -, hselection⟩ := selectFor_eq_ok hselect
  obtain ⟨slack, hslack, haccounts⟩ := selectFor_accounts hselect
  have moved := Ledger.Moved.reserve wallet.ledger (keysOf others)
  refine ⟨rfl, moved, selection.inputs, others, ?_, slack, hslack, fun token => ?_⟩
  · refine ⟨hentries, hlength, hinputs, fun coin hmem => ?_, ?_, fun output hmem => ?_⟩
    · have held := Selection.mem_of_ofImbalances hselection coin hmem
      exact (moved.coins_perm exclusive).mem_iff.mpr (List.mem_append_left _ held)
    · -- Spending each key once means that no coin is chosen twice.
      rw [keysOf, hinputs, List.map_map] at hdistinct
      exact hdistinct
    · rw [houtputs] at hmem
      obtain ⟨change, -, rfl⟩ := List.mem_map.mp hmem
      rfl
  · rw [haccounts token, Transaction.inputs_of_entries hentries,
      Transaction.outputs_of_entries hentries, List.length_append, List.length_append, hinputs,
      houtputs, List.length_map, List.length_map,
      worth_map (f := wallet.changeOutput) (fun _ => rfl) (fun _ => rfl)]

end Wallet

/-! ## Confirmations -/

/-- The update reports that the transaction took effect: it spends all coins that the wallet holds for
the inputs, and creates, under new keys, the outputs that belong to the wallet. -/
structure Update.Confirms (update : Update) (wallet : Wallet) (tx : Transaction) : Prop where
  applied : update.status ≠ .failure
  spent : ∀ coin, coin ∈ update.spent ↔
    ∃ key ∈ tx.inputKeys, wallet.ledger.coin? key = some coin
  created : (update.created.map (·.toUtxo)).Perm (tx.created.filter (·.owner = wallet.owner))
  fresh : ∀ key ∈ update.createdKeys, wallet.ledger.coin? key = none

/-- The update that confirms a transaction, if what it creates for the wallet is new. -/
def Wallet.confirmation (wallet : Wallet) (tx : Transaction) : Update where
  id := 1
  identifiers := tx.identifiers
  created := (tx.created.filter (·.owner = wallet.owner)).map fun utxo =>
    { utxo with createdAt := none, dustRegistered := false }
  spent := tx.inputKeys.filterMap wallet.ledger.coin?
  status := .success
  segments := []

/-- The report of success that a wallet would expect confirms the transaction, if none of the coins
it creates is known yet. -/
theorem Wallet.confirmation_confirms {wallet : Wallet} {tx : Transaction}
    (fresh : ∀ key ∈ (wallet.confirmation tx).createdKeys, wallet.ledger.coin? key = none) :
    (wallet.confirmation tx).Confirms wallet tx where
  applied := Status.noConfusion
  spent _ := List.mem_filterMap
  created := by
    rw [confirmation, List.map_map]
    exact .of_eq (List.map_id _)
  fresh := fresh

namespace Wallet.Funds

variable {wallet : Wallet} {tx balanced : Transaction} {coins : List Coin}
  {added : List (UInt16 × Intent)} {update : Update} (funds : wallet.Funds tx balanced coins added)
include funds

/-! ### The change -/

section Change

variable (foreign : ∀ output ∈ tx.outputs, output.owner ≠ wallet.owner)
  (confirmed : update.Confirms wallet balanced)
include foreign

/-- If the given transaction pays the owner nothing, the owner's coins of the balanced one are those
that the added intents create. -/
theorem created_eq : balanced.created.filter (·.owner = wallet.owner) =
    (added.map (·.2)).flatMap Intent.created := by
  refine Transaction.filter_owner_of_entries (fun intent utxo hmem => ?_) funds.entries foreign
    funds.own
  exact List.mem_map_of_mem (Intent.toOutput_mem_of_mem_created hmem)

/-- The same holds of the outputs that no key can name. -/
theorem unnamed_eq : balanced.unnamed.filter (·.owner = wallet.owner) =
    (added.map (·.2)).flatMap Intent.unnamed := by
  refine Transaction.filter_owner_of_entries (fun intent output hmem => ?_) funds.entries foreign
    funds.own
  exact List.mem_map_of_mem (List.mem_of_mem_drop hmem)

include confirmed

/-- The created coins have distinct names, because they are of one intent. -/
theorem nodup_createdKeys : update.createdKeys.Nodup := by
  have created := confirmed.created
  rw [funds.created_eq foreign] at created
  have hkeys : update.createdKeys = (update.created.map (·.toUtxo)).map (·.key) := by
    rw [Update.createdKeys, List.map_map]
    rfl
  rw [hkeys, (created.map _).nodup_iff]
  match added, funds.length_le with
  | [], _ => exact .nil
  | [entry], _ =>
      rw [List.map_singleton, List.flatMap_singleton]
      exact entry.2.nodup_keys_created

/-- The change is what is created for the wallet, and what is left without a name. -/
theorem worth_change (token : TokenType) :
    worth token update.created +
        worth token (balanced.unnamed.filter (·.owner = wallet.owner)) =
      worth token (added.flatMap (·.2.outputs)) := by
  have created := confirmed.created
  rw [funds.created_eq foreign] at created
  rw [← worth_map (f := Coin.toUtxo) (fun _ => rfl) (fun _ => rfl) token update.created,
    worth_perm created, funds.unnamed_eq foreign, Intent.worth_created_all, List.flatMap_map]

end Change

/-! ### The inputs -/

variable (noInputs : tx.inputs = []) (keyed : wallet.ledger.WellKeyed)
  (exclusive : wallet.ledger.Exclusive) (confirmed : update.Confirms wallet balanced)
include noInputs keyed exclusive confirmed

omit keyed exclusive confirmed in
/-- The balanced transaction spends exactly the chosen coins. -/
theorem inputKeys_eq : balanced.inputKeys = coins.map (·.key) := by
  rw [Transaction.inputKeys, Transaction.inputs_of_entries funds.entries, noInputs, List.nil_append,
    funds.inputs, List.map_map]
  rfl

/-- A confirmation reports spent what the transaction was funded with. -/
theorem mem_spentKeys_iff (key : UtxoKey) :
    key ∈ update.spentKeys ↔ key ∈ coins.map (·.key) := by
  have hspent := confirmed.spent
  rw [funds.inputKeys_eq noInputs] at hspent
  constructor
  · intro hkey
    obtain ⟨coin, hmem, rfl⟩ := List.mem_map.mp hkey
    obtain ⟨key, hinput, hcoin⟩ := (hspent coin).mp hmem
    rwa [Ledger.key_of_coin? keyed hcoin]
  · intro hkey
    obtain ⟨coin, hmem, rfl⟩ := List.mem_map.mp hkey
    have hcoin := (Ledger.mem_coins_iff keyed exclusive).mp (funds.held coin hmem)
    exact List.mem_map_of_mem ((hspent coin).mpr ⟨coin.key, hkey, hcoin⟩)

/-- No input is left in the ledger. -/
theorem coin?_confirmed {key : UtxoKey} (hkey : key ∈ balanced.inputKeys) :
    (wallet.ledger.settled update).coin? key = none := by
  rw [funds.inputKeys_eq noInputs] at hkey
  have hspent := (funds.mem_spentKeys_iff noInputs keyed exclusive confirmed key).mpr hkey
  have uncreated : key ∉ update.createdKeys := by
    intro created
    obtain ⟨coin, hmem, rfl⟩ := List.mem_map.mp hkey
    have hcoin := (Ledger.mem_coins_iff keyed exclusive).mp (funds.held coin hmem)
    rw [confirmed.fresh coin.key created] at hcoin
    cases hcoin
  rw [Ledger.coin?_settled confirmed.applied confirmed.fresh, lastCoin?_eq_none uncreated,
    if_pos hspent, Option.none_or]

/-- A confirmation takes away what the transaction was funded with, and brings the change, as far as
that has a name. -/
theorem worth_confirmed (foreign : ∀ output ∈ tx.outputs, output.owner ≠ wallet.owner)
    (token : TokenType) :
    worth token (wallet.ledger.settled update).coins + worth token coins +
        worth token (balanced.unnamed.filter (·.owner = wallet.owner)) =
      worth token wallet.ledger.coins + worth token (added.flatMap (·.2.outputs)) := by
  have hchange := funds.worth_change foreign confirmed token
  have hsettled := Ledger.worth_settled confirmed.applied confirmed.fresh keyed exclusive
    (funds.nodup_createdKeys foreign confirmed) token
  simp only [funds.mem_spentKeys_iff noInputs keyed exclusive confirmed] at hsettled
  rw [worth_perm (Ledger.coins_filter_perm keyed exclusive funds.distinct funds.held)] at hsettled
  omega

end Wallet.Funds

end UtxoWallet
