import UtxoWallet.Proofs.Wallet.Funds

/-! # Balancing once more

A balanced transaction has no imbalance left but at most the fee of one output in the native token: a
rest that would pay for a change output, with nothing to put into it. That is where the native
selection stops, so nothing is selected for such a transaction, and for no other
(`Selection.ofImbalances_eq_empty_iff`).

* `Wallet.balance_balanced`: to balance a balanced transaction changes nothing.
-/

namespace UtxoWallet

/-! ## Nothing to select -/

/-- All imbalances are closed; in the native token the fee of one output may be left over. -/
structure Imbalances.Closed (imbalances : Imbalances) (fees : Fees) (native : TokenType) : Prop where
  others : ∀ token, token ≠ native → (imbalances.of token).toInt = 0
  own : (imbalances.of native).toInt = 0 ∨ (imbalances.of native).toInt = fees.output.toNat

namespace Selection

variable {γ : Type} [Spendable γ]

theorem gather_zero (sum : Amount) (coins : List γ) : gather .zero sum coins = .ok ([], sum) := by
  cases coins with
  | nil => rfl
  | cons coin coins => exact if_pos (Nat.zero_le _)

theorem ofToken_zero (coins : List γ) (token : TokenType) {imbalance : Delta}
    (h : imbalance.toInt = 0) : ofToken coins token imbalance = .ok empty := by
  have hsurplus : imbalance.surplus = .zero := by
    refine Amount.toNat_injective ?_
    show imbalance.toInt.toNat = 0
    omega
  have hdeficit : imbalance.deficit = .zero := by
    refine Amount.toNat_injective ?_
    show (-imbalance.toInt).toNat = 0
    omega
  rw [ofToken, hsurplus, hdeficit, gather_zero]
  rfl

theorem nativeTarget_zero (fees : Fees) : nativeTarget fees .zero 0 = .ok (.zero, fees.output) := by
  have hfees : fees.input.times? 0 = some .zero := Amount.times?_eq_some.mpr (Nat.mul_zero _)
  have hneed : Amount.zero.add? .zero = some .zero := rfl
  have hchange : Amount.zero.add? fees.output = some fees.output :=
    Amount.add?_eq_some.mpr (Nat.zero_add _)
  rw [nativeTarget, hfees]
  show (checked .nativeNeed (Amount.zero.add? .zero) >>= _) = _
  rw [hneed]
  show (checked .nativeChangeFee (Amount.zero.add? fees.output) >>= _) = _
  rw [hchange]
  rfl

/-- Nothing to pay, and nothing there or the fee of one output: the native selection stops at once. -/
theorem gatherNative_zero {fees : Fees} {sum : Amount}
    (h : sum.toNat = 0 ∨ sum.toNat = fees.output.toNat) (native : TokenType) (coins : List γ) :
    gatherNative fees native .zero 0 sum coins = .ok empty := by
  rw [gatherNative.eq_def, nativeTarget_zero]
  show (if sum = Amount.zero then _ else _) = _
  split
  · rfl
  · next hsum =>
      have hnot : sum.toNat ≠ 0 := fun heq => hsum (Amount.toNat_injective heq)
      have hfee := h.resolve_left hnot
      have hrest : (sum.minus fees.output).toNat = 0 := by
        rw [Amount.minus_toNat, hfee, Nat.sub_self]
      rw [if_pos (Nat.le_of_eq hfee.symm), Change.ofRest, if_pos hrest]
      rfl

/-- The native token adds nothing if its imbalance is settled, or is a rest that is too small for a
change output. -/
theorem ofNative_closed {imbalance : Delta} {fees : Fees}
    (h : imbalance.toInt = 0 ∨ imbalance.toInt = fees.output.toNat) (coins : List γ)
    (native : TokenType) : ofNative coins native imbalance fees empty = .ok empty := by
  have hdeficit : imbalance.deficit = .zero := by
    refine Amount.toNat_injective ?_
    show (-imbalance.toInt).toNat = 0
    omega
  have hsurplus : imbalance.surplus.toNat = 0 ∨ imbalance.surplus.toNat = fees.output.toNat := by
    show imbalance.toInt.toNat = 0 ∨ imbalance.toInt.toNat = fees.output.toNat
    omega
  have hinput : fees.input.times? 0 = some .zero := Amount.times?_eq_some.mpr (Nat.mul_zero _)
  have houtput : fees.output.times? 0 = some .zero := Amount.times?_eq_some.mpr (Nat.mul_zero _)
  have howed : fees.total 0 0 = .ok .zero := by
    rw [Fees.total, hinput, houtput]
    rfl
  rw [ofNative]
  show fees.total 0 0 >>= _ = _
  rw [howed, hdeficit]
  exact gatherNative_zero hsurplus native _

/-- If no token but the native one has an imbalance, their parts are empty. -/
theorem mapM_closed {entries : List (TokenType × Delta)} (h : ∀ entry ∈ entries, entry.2.toInt = 0)
    (coins : List γ) :
    ∃ parts, entries.mapM (fun entry => ofToken coins entry.1 entry.2) = .ok parts ∧
      parts.foldl append empty = empty := by
  induction entries with
  | nil => exact ⟨[], rfl, rfl⟩
  | cons entry entries ih =>
      rw [List.forall_mem_cons] at h
      obtain ⟨parts, hparts, hempty⟩ := ih h.2
      exact ⟨empty :: parts, mapM_cons_eq_ok.mpr
        ⟨empty, parts, ofToken_zero coins entry.1 h.1, hparts, rfl⟩, hempty⟩

/-- Nothing is selected iff all imbalances are closed. -/
theorem ofImbalances_eq_empty_iff {coins : List γ} {imbalances : Imbalances} {fees : Fees}
    {native : TokenType} :
    ofImbalances coins imbalances fees native = .ok empty ↔ imbalances.Closed fees native := by
  constructor
  · intro h
    obtain ⟨hothers, slack, hslack, -, hnative⟩ := ofImbalances_accounts h
    refine ⟨fun token htoken => ?_, ?_⟩
    · -- An empty selection adds nothing, so its accounts speak of the imbalances alone.
      have hsum : (imbalances.of token).toInt + 0 = 0 := hothers token htoken
      omega
    · have hsum : (imbalances.of native).toInt + 0 =
          0 + fees.input.toNat * 0 + fees.output.toNat * 0 + slack := hnative
      omega
  · rintro ⟨others, own⟩
    have zero : ∀ entry ∈ imbalances.entries.filter fun entry => entry.1 ≠ native,
        entry.2.toInt = 0 := by
      rintro ⟨token, imbalance⟩ hmem
      obtain ⟨hmem, htoken⟩ := List.mem_filter.mp hmem
      have hzero := others token (of_decide_eq_true htoken)
      rwa [Imbalances.of, OrderedMap.mem_entries_iff.mp hmem, Option.getD_some] at hzero
    obtain ⟨parts, hparts, hempty⟩ := mapM_closed zero coins
    refine bind_eq_ok.mpr ⟨parts, hparts, bind_eq_ok.mpr ⟨empty, ?_, ?_⟩⟩
    · rw [hempty]
      exact ofNative_closed own coins native
    · rw [hempty]
      rfl

end Selection

/-! ## Wallets -/

namespace Wallet

variable {wallet wallet' : Wallet} {native : TokenType} {fees : Fees} {ttl : Instant}
  {tx balanced : Transaction} {bindings bindings' : BindingSource} {imbalances : Imbalances}

/-- Coins are only selected for a transaction of the same network. -/
theorem selectFor_network {selection : Selection Coin}
    (h : wallet.selectFor native fees tx = .ok selection) : tx.network = wallet.network := by
  rw [selectFor] at h
  split at h
  · cases h
  · next hnetwork => exact not_not.mp hnetwork

/-- A balanced transaction is of the wallet's network. -/
theorem balance_network
    (h : wallet.balance native fees ttl tx bindings = (.ok (balanced, wallet'), bindings')) :
    balanced.network = wallet.network := by
  obtain ⟨selection, hselect, ⟨-, rfl, -⟩ | ⟨happend, -⟩⟩ := balance_eq_ok h
  · exact selectFor_network hselect
  · have hsame : tx.network = wallet.network := selectFor_network hselect
    rw [Transaction.withIntent] at happend
    split at happend
    · cases happend
    · cases happend
      exact hsame

/-- Where all imbalances are closed, nothing is added to a transaction, and nothing is drawn. -/
theorem balance_of_closed (hnetwork : tx.network = wallet.network)
    (himbalances : tx.imbalancesAfterFees fees native = .ok imbalances)
    (closed : imbalances.Closed fees native) :
    wallet.balance native fees ttl tx bindings = (.ok (tx, wallet), bindings) := by
  have hselect : wallet.selectFor native fees tx = .ok Selection.empty := by
    rw [selectFor, if_neg (not_not_intro hnetwork), himbalances]
    exact mapError_eq_ok.mpr (Selection.ofImbalances_eq_empty_iff.mpr closed)
  rw [balance, hselect]
  rfl

/-- What a balanced transaction spends of each token is what it creates, and the fees on top. -/
theorem balance_worth
    (h : wallet.balance native fees ttl tx bindings = (.ok (balanced, wallet'), bindings')) :
    ∃ slack, (slack = 0 ∨ slack = fees.output.toNat) ∧ ∀ token,
      balanced.worthIn token = balanced.worthOut token +
        if token = native then
          fees.input.toNat * balanced.inputs.length + fees.output.toNat * balanced.outputs.length +
            slack
        else 0 := by
  obtain ⟨selection, added, hselect, -, hentries, hinputs, houtputs⟩ := balance_adds h
  obtain ⟨slack, hslack, haccounts⟩ := selectFor_accounts hselect
  refine ⟨slack, hslack, fun token => ?_⟩
  rw [Transaction.worthIn, Transaction.worthOut, Transaction.inputs_of_entries hentries,
    Transaction.outputs_of_entries hentries, hinputs, houtputs, worth_append, worth_append,
    worth_map (f := Coin.toUtxo) (fun _ => rfl) (fun _ => rfl),
    worth_map (f := wallet.changeOutput) (fun _ => rfl) (fun _ => rfl), List.length_append,
    List.length_append, List.length_map, List.length_map]
  exact haccounts token

/-- The imbalances of a balanced transaction are closed. -/
theorem closed_of_balance
    (h : wallet.balance native fees ttl tx bindings = (.ok (balanced, wallet'), bindings'))
    (himbalances : balanced.imbalancesAfterFees fees native = .ok imbalances) :
    imbalances.Closed fees native := by
  obtain ⟨slack, hslack, hworth⟩ := balance_worth h
  refine ⟨fun token htoken => ?_, ?_⟩
  · rw [Transaction.imbalancesAfterFees_eq_ok himbalances, hworth token, if_neg htoken,
      if_neg htoken]
    omega
  · rw [Transaction.imbalancesAfterFees_eq_ok himbalances, hworth native, if_pos rfl, if_pos rfl]
    push_cast
    omega

/-- **Balancing is idempotent.** If the imbalances of a balanced transaction can be computed, to balance
it once more, with any time to live, gives the transaction itself, leaves the wallet as it is, and draws
no binding. -/
theorem balance_balanced
    (h : wallet.balance native fees ttl tx bindings = (.ok (balanced, wallet'), bindings'))
    (fits : balanced.imbalancesAfterFees fees native = .ok imbalances) (later : Instant)
    (supply : BindingSource) :
    wallet'.balance native fees later balanced supply = (.ok (balanced, wallet'), supply) := by
  have hnetwork : balanced.network = wallet'.network := by
    obtain ⟨_, -, -, -, hwallet⟩ := balance_reserves h
    rw [balance_network h, hwallet]
  exact balance_of_closed hnetwork fits (closed_of_balance h fits)

/-- A coin of 45 pays forty and a fee of two for the output and one for its input. The two that are left
would pay for a change output of nothing, so they go to the network, also the second time. -/
theorem balance_balanced_of_absorbed_rest :
    let coin := Coin.ofValue ⟨45, by decide⟩
    let fees : Fees := ⟨⟨1, by decide⟩, ⟨2, by decide⟩⟩
    let wallet := { start "pk" "net" with ledger := .restore [coin] [] }
    let tx := Transaction.ofIntent "net"
      ⟨0, some ⟨[], [⟨⟨40, by decide⟩, "bob", coin.token⟩]⟩, .zero⟩
    ∃ balanced wallet' bindings' imbalances,
      wallet.balance coin.token fees Instant.latest tx .fresh =
        (.ok (balanced, wallet'), bindings') ∧
      balanced.imbalancesAfterFees fees coin.token = .ok imbalances ∧
      (imbalances.of coin.token).toInt = 2 ∧
      wallet'.balance coin.token fees Instant.latest balanced bindings' =
        (.ok (balanced, wallet'), bindings') := by
  intro coin fees wallet tx
  have hrest : (wallet.balance coin.token fees Instant.latest tx .fresh).1.toOption.bind
      (fun result => (result.1.imbalancesAfterFees fees coin.token).toOption.map
        fun imbalances => (imbalances.of coin.token).toInt) = some 2 := by
    decide +kernel
  rcases h : wallet.balance coin.token fees Instant.latest tx .fresh with
    ⟨error | ⟨balanced, wallet'⟩, bindings'⟩
  · rw [h] at hrest
    cases hrest
  · rw [h] at hrest
    obtain ⟨imbalances, himbalances, htwo⟩ := Option.map_eq_some_iff.mp hrest
    have fits : balanced.imbalancesAfterFees fees coin.token = .ok imbalances := by
      cases hcases : balanced.imbalancesAfterFees fees coin.token with
      | error error =>
          rw [hcases] at himbalances
          cases himbalances
      | ok found =>
          rw [hcases] at himbalances
          cases himbalances
          rfl
    exact ⟨balanced, wallet', bindings', imbalances, rfl, fits, htwo,
      balance_balanced h fits Instant.latest bindings'⟩

end Wallet

end UtxoWallet
