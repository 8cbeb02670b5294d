import Mathlib.Data.List.Pairwise
import UtxoWallet.Proofs.Book.Race
import UtxoWallet.Proofs.Book.Replay

/-! # Unrelated reports in any order

A report of the indexer looks at no coin but those that it names, and the progress only ever grows. So
reports that have no coin in common can come in any order, and a coin that a report does not name can
be spent, or given back, before the report as well as after it.

* `Ledger.settled_comm`: updates that touch different coins commute.
* `Ledger.spend_settled`, `Ledger.rollback_settled`: so do the local transitions of other coins, and
  they are refused before an update iff they are after it.
* `Wallet.applyNotice_confluent`: so every order of unrelated reports leads to the same wallet.
-/

namespace UtxoWallet

/-! ## What a report touches -/

/-- The keys of the coins that an update names, as spent or as created. -/
def Update.touchedKeys (update : Update) : List UtxoKey :=
  update.spentKeys ++ update.createdKeys

/-- The keys of the coins that a report names. -/
def Notice.touchedKeys : Notice → List UtxoKey
  | .progress _ => []
  | .transaction update => update.touchedKeys

/-- The two reports have no coin in common. -/
def Notice.Apart (s t : Notice) : Prop :=
  ∀ key ∈ s.touchedKeys, key ∉ t.touchedKeys

instance (s t : Notice) : Decidable (s.Apart t) :=
  inferInstanceAs (Decidable (∀ key ∈ s.touchedKeys, key ∉ t.touchedKeys))

theorem Notice.Apart.symm {s t : Notice} (h : s.Apart t) : t.Apart s :=
  fun key ht hs => h key hs ht

theorem Update.availableAt?_eq_none {update : Update} {key : UtxoKey}
    (h : key ∉ update.touchedKeys) : update.availableAt? key = none := by
  rw [touchedKeys, List.mem_append, not_or] at h
  obtain ⟨unspent, uncreated⟩ := h
  rw [availableAt?, lastCoin?_eq_none unspent, lastCoin?_eq_none uncreated, if_neg unspent]
  exact ite_self _

/-! ## Ledgers -/

namespace Ledger

variable {ledger : Ledger} {update : Update} {key : UtxoKey}

theorem get?_available_settled_of_untouched (h : key ∉ update.touchedKeys) :
    (ledger.settled update).available.get? key = ledger.available.get? key := by
  rw [get?_available_settled_eq_getD, Update.availableAt?_eq_none h, Option.getD_none]

theorem get?_pending_settled_of_untouched (h : key ∉ update.touchedKeys) :
    (ledger.settled update).pending.get? key = ledger.pending.get? key := by
  have unspent : key ∉ update.spentKeys := fun hmem => h (List.mem_append_left _ hmem)
  rw [get?_pending_settled, if_neg unspent]

/-- Two updates that touch no common key may be settled in either order. -/
theorem settled_comm (ledger : Ledger) {s t : Update}
    (apart : ∀ key ∈ s.touchedKeys, key ∉ t.touchedKeys) :
    (ledger.settled s).settled t = (ledger.settled t).settled s := by
  refine ext_get? (fun key => ?_) (fun key => ?_)
  · simp only [get?_available_settled_eq_getD]
    -- At most one of the two updates says anything of a coin.
    by_cases hs : key ∈ s.touchedKeys
    · rw [Update.availableAt?_eq_none (apart key hs), Option.getD_none, Option.getD_none]
    · rw [Update.availableAt?_eq_none hs, Option.getD_none, Option.getD_none]
  · simp only [get?_pending_settled]
    by_cases hs : key ∈ s.spentKeys
    · simp [hs]
    · simp [hs]

/-! ### Local transitions -/

/-- A spend succeeds if its coin is available, and then reserves it. -/
theorem spend_eq (ledger : Ledger) (key : UtxoKey) :
    ledger.spend key = if ledger.available.contains key then .ok (ledger.reserve [key])
      else .error (.utxoNotFound key) := by
  split
  · next h => exact spend_eq_ok_reserve.mpr ⟨h, rfl⟩
  · next h => rw [spend, OrderedMap.not_contains_iff.mp h]

/-- A rollback succeeds if its coin is pending, and then releases it. -/
theorem rollback_eq (ledger : Ledger) (key : UtxoKey) :
    ledger.rollback key = if ledger.pending.contains key then .ok (ledger.release [key])
      else .error (.utxoNotFound key) := by
  -- A rollback is a spend in the ledger with its maps exchanged.
  have mirrored : ledger.rollback key = (ledger.swap.spend key).map swap := by
    have exchanged : ledger.swap.available.get? key = ledger.pending.get? key := rfl
    rw [rollback, spend, exchanged]
    cases ledger.pending.get? key <;> rfl
  rw [mirrored, spend_eq]
  show Except.map swap (if ledger.pending.contains key then _ else _) = _
  split <;> rfl

theorem settled_reserve (ledger : Ledger) (h : key ∉ update.touchedKeys) :
    (ledger.reserve [key]).settled update = (ledger.settled update).reserve [key] := by
  refine ext_get? (fun k => ?_) (fun k => ?_)
  · by_cases hk : k = key
    · rw [hk, get?_available_settled_of_untouched h, get?_available_reserve,
        get?_available_reserve]
      simp
    · simp [get?_available_settled_eq_getD, hk]
  · by_cases hk : k = key
    · rw [hk, get?_pending_settled_of_untouched h, get?_pending_reserve, get?_pending_reserve,
        get?_pending_settled_of_untouched h, get?_available_settled_of_untouched h]
    · simp [get?_pending_reserve, hk]

/-- A spend of an untouched coin has the same outcome before the report and after it. -/
theorem spend_settled (ledger : Ledger) (h : key ∉ update.touchedKeys) :
    (ledger.settled update).spend key = (ledger.spend key).map (·.settled update) := by
  rw [spend_eq, spend_eq, OrderedMap.contains, get?_available_settled_of_untouched h,
    ← OrderedMap.contains]
  split
  · rw [Except.map, settled_reserve ledger h]
  · rfl

/-- So has a rollback. -/
theorem rollback_settled (ledger : Ledger) (h : key ∉ update.touchedKeys) :
    (ledger.settled update).rollback key = (ledger.rollback key).map (·.settled update) := by
  have uncreated : ∀ k ∈ [key], k ∈ update.createdKeys → k ∈ update.spentKeys := by
    intro k hk hmem
    rw [List.mem_singleton.mp hk] at hmem
    exact absurd (List.mem_append_right _ hmem) h
  rw [rollback_eq, rollback_eq, OrderedMap.contains, get?_pending_settled_of_untouched h,
    ← OrderedMap.contains]
  split
  · rw [Except.map, settled_release ledger (.inr uncreated)]
  · rfl

end Ledger

/-! ## Wallets -/

namespace Wallet

/-- The wallet after a report. -/
def taken (wallet : Wallet) (notice : Notice) : Wallet :=
  { wallet with
    ledger := byUpdate Ledger.settled wallet.ledger notice
    progress := wallet.progress.take notice }

/-- Every report is taken in. -/
theorem applyNotice_eq (wallet : Wallet) (notice : Notice) :
    wallet.applyNotice notice = .ok (wallet.taken notice) := by
  cases notice with
  | progress highest => rfl
  | transaction update =>
      rw [applyNotice, Ledger.settleLedger_eq]
      rfl

theorem applyAll_eq (wallet : Wallet) (notices : List Notice) :
    notices.foldlM applyNotice wallet = .ok (notices.foldl taken wallet) := by
  induction notices generalizing wallet with
  | nil => rfl
  | cons notice notices ih =>
      rw [List.foldlM_cons, applyNotice_eq]
      exact ih (wallet.taken notice)

/-- Two reports that are apart may come in either order. -/
theorem taken_comm (wallet : Wallet) {s t : Notice} (apart : s.Apart t) :
    (wallet.taken s).taken t = (wallet.taken t).taken s := by
  have hledger : byUpdate Ledger.settled (byUpdate Ledger.settled wallet.ledger s) t =
      byUpdate Ledger.settled (byUpdate Ledger.settled wallet.ledger t) s := by
    cases s with
    | progress _ => rfl
    | transaction update =>
        cases t with
        | progress _ => rfl
        | transaction other => exact wallet.ledger.settled_comm apart
  simp only [taken, hledger, wallet.progress.take_comm s t]

/-- Reports that are apart in pairs may come in any order. -/
theorem foldl_taken_perm {l r : List Notice} (apart : l.Pairwise Notice.Apart) (perm : l.Perm r)
    (wallet : Wallet) : l.foldl taken wallet = r.foldl taken wallet := by
  refine perm.foldl_eq' (fun s hs t ht wallet => ?_) wallet
  by_cases same : s = t
  · rw [same]
  · -- Reports at different places of the list are apart, in either order.
    have symmetric : Std.Symm Notice.Apart := ⟨fun _ _ => Notice.Apart.symm⟩
    exact wallet.taken_comm (apart.forall hs ht same)

/-- **Unrelated reports come in any order.** If no two updates of a list name the same coin, each order
of the list is taken in whole, to the same ledger and the same progress. And a coin that an update does
not name can be spent or given back before the update as well as after it: with the same outcome, and
to the same ledger if it is not refused. -/
theorem applyNotice_confluent :
    (∀ (wallet : Wallet) (l r : List Notice), l.Pairwise Notice.Apart → l.Perm r →
      ∃ final, l.foldlM applyNotice wallet = .ok final ∧
        r.foldlM applyNotice wallet = .ok final) ∧
    ∀ (ledger : Ledger) (update : Update) (key : UtxoKey), key ∉ update.touchedKeys →
      settleLedger ledger update >>= (·.spend key) =
          ledger.spend key >>= (settleLedger · update) ∧
        settleLedger ledger update >>= (·.rollback key) =
          ledger.rollback key >>= (settleLedger · update) := by
  constructor
  · intro wallet l r apart perm
    refine ⟨l.foldl taken wallet, applyAll_eq wallet l, ?_⟩
    rw [applyAll_eq, foldl_taken_perm apart perm]
  · intro ledger update key h
    have later : ∀ x : Except LedgerError Ledger,
        x >>= (settleLedger · update) = x.map (·.settled update) := by
      intro x
      cases x with
      | error error => rfl
      | ok next => exact Ledger.settleLedger_eq next update
    rw [Ledger.settleLedger_eq, later, later]
    exact ⟨ledger.spend_settled h, ledger.rollback_settled h⟩

/-- A pending coin is confirmed as spent, the transaction of an available one failed, and each report
names its coin twice. A third coin can be spent before the confirmation as well as after it. -/
theorem applyNotice_confluent_of_two_updates :
    let coin := Coin.ofValue ⟨10, by decide⟩
    let other : Coin := { coin with key := ⟨⟨[0x22]⟩, 0⟩ }
    let third : Coin := { coin with key := ⟨⟨[0x33]⟩, 0⟩ }
    let wallet := { start "pk" "net" with ledger := .restore [other, third] [coin] }
    let confirmed : Update := ⟨7, OrderedMap.empty, [], [coin, coin], .partialSuccess, []⟩
    let failed : Update := ⟨3, OrderedMap.empty, [], [other, other], .failure, []⟩
    let reports : List Notice := [.transaction confirmed, .progress 9, .transaction failed]
    reports.Pairwise Notice.Apart ∧
      (∃ final, reports.foldlM applyNotice wallet = .ok final ∧
        reports.reverse.foldlM applyNotice wallet = .ok final) ∧
      third.key ∉ confirmed.touchedKeys ∧
      settleLedger wallet.ledger confirmed >>= (·.spend third.key) =
        wallet.ledger.spend third.key >>= (settleLedger · confirmed) := by
  intro coin other third wallet confirmed failed reports
  have apart : reports.Pairwise Notice.Apart := by decide
  have untouched : third.key ∉ confirmed.touchedKeys := by decide
  exact ⟨apart, applyNotice_confluent.1 wallet _ _ apart (List.reverse_perm _).symm, untouched,
    (applyNotice_confluent.2 wallet.ledger confirmed third.key untouched).1⟩

end Wallet

end UtxoWallet
