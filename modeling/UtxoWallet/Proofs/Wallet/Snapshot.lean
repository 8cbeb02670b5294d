import UtxoWallet.Json.RoundTrip
import UtxoWallet.Proofs.Json.Records
import UtxoWallet.Proofs.Ledger.Exclusive
import UtxoWallet.Wallet.Snapshot

/-! # Persisted wallets are taken up again

A ledger whose maps are disjoint, with each coin behind its own key, is the ledger of its two lists
of coins (`Ledger.restore_coins`), and each coin reads back if a text can stand for its time. So the
text of a wallet tells all of it but the progress beyond the last transaction that it took in. The other
way round, whatever text a wallet is taken up from, its ledger is of that kind: `Wallet.snapshot_exact`.
-/

namespace UtxoWallet

/-! ## Ledgers of two lists -/

namespace Ledger

/-- A ledger is told by the lists of its coins, if each is behind its own key in one map only. -/
theorem restore_coins {ledger : Ledger} (keyed : ledger.WellKeyed)
    (exclusive : ledger.Exclusive) :
    restore ledger.availableCoins ledger.pendingCoins = ledger := by
  have hcoins : ∀ coinMap : CoinMap, CoinMap.WellKeyed coinMap →
      OrderedMap.ofList (UtxoWallet.keyed coinMap.values) = coinMap := by
    intro coinMap h
    rw [keyed_values h, OrderedMap.ofList_entries]
  rw [restore, availableCoins, pendingCoins, hcoins _ keyed.available, hcoins _ keyed.pending]
  refine ext_get? (fun key => ?_) (fun key => rfl)
  dsimp only
  rw [OrderedMap.get?_filter]
  by_cases h : ledger.pending.contains key
  · -- An exclusive ledger has no available coin for a key that is pending.
    have absent : ¬ ledger.available.contains key := fun ha => exclusive key ha h
    rw [h, OrderedMap.not_contains_iff.mp absent]
    rfl
  · rw [if_pos (by simpa using h)]

/-- Can texts stand for the times of all coins of the ledger? -/
structure Representable (ledger : Ledger) : Prop where
  available : ∀ coin ∈ ledger.availableCoins, coin.Representable
  pending : ∀ coin ∈ ledger.pendingCoins, coin.Representable

/-- The ledger of two lists holds none but their coins. -/
theorem Representable.restore {available pending : List Coin}
    (havailable : ∀ coin ∈ available, coin.Representable)
    (hpending : ∀ coin ∈ pending, coin.Representable) :
    (restore available pending).Representable := by
  constructor
  · intro coin hmem
    obtain ⟨key, h⟩ := OrderedMap.mem_values_iff.mp hmem
    rw [Ledger.restore, OrderedMap.get?_filter, get?_ofList_keyed] at h
    split at h
    · exact havailable coin (lastCoin?_eq_some h).1
    · cases h
  · intro coin hmem
    obtain ⟨key, h⟩ := OrderedMap.mem_values_iff.mp hmem
    rw [Ledger.restore, get?_ofList_keyed] at h
    exact hpending coin (lastCoin?_eq_some h).1

end Ledger

namespace Wallet

/-! ## Records -/

/-- The record of a ledger. -/
def ledgerToJson (ledger : Ledger) : Json :=
  .record [
    ("availableUtxos", Json.list Coin.toJson ledger.availableCoins),
    ("pendingUtxos", Json.list Coin.toJson ledger.pendingCoins)]

/-- Such a ledger reads back if its coins do. -/
theorem ledgerOfJson?_ledgerToJson {ledger : Ledger} (keyed : ledger.WellKeyed)
    (exclusive : ledger.Exclusive) (representable : ledger.Representable) :
    ledgerOfJson? (ledgerToJson ledger) = some ledger := by
  have havailable := Json.list?_list_of_mem fun coin hmem =>
    Coin.ofJson?_toJson (representable.available coin hmem)
  have hpending := Json.list?_list_of_mem fun coin hmem =>
    Coin.ofJson?_toJson (representable.pending coin hmem)
  rw [ledgerOfJson?, ledgerToJson, Json.fields?_record]
  · simp only [List.map_cons, List.map_nil, Option.bind_eq_bind, Option.bind_some,
      Json.required_some, havailable, hpending]
    rw [Ledger.restore_coins keyed exclusive]
    rfl
  · rfl
  · decide

/-- The wallet as it is taken up again: it is not connected, and knows of no transaction beyond the
last one that it took in. -/
def restarted (wallet : Wallet) : Wallet :=
  { wallet with progress := .restored wallet.progress.applied }

/-- The record of a wallet tells all of it that survives a restart. -/
theorem ofJson?_toJson {wallet : Wallet} (keyed : wallet.ledger.WellKeyed)
    (exclusive : wallet.ledger.Exclusive) (representable : wallet.ledger.Representable) :
    ofJson? wallet.toJson = some wallet.restarted := by
  have hstate := ledgerOfJson?_ledgerToJson keyed exclusive representable
  rw [ledgerToJson] at hstate
  have happlied : Json.optional Json.uint64? (some (Json.nullable (fun id => .natural id.toNat)
      wallet.progress.applied)) = some wallet.progress.applied :=
    Json.optional_nullable (fun id _ => Json.uint64?_natural id) fun id => Json.natural_ne_null _
  rw [ofJson?, toJson, Json.fields?_record]
  · simp only [List.map_cons, List.map_nil, Option.bind_eq_bind, Option.bind_some,
      Json.required_some, Json.text?_text, Json.uint32?_natural, happlied, hstate]
    rfl
  · rfl
  · decide

/-! ## Whatever is read -/

/-- A ledger that is read is that of two lists of coins, which have been read too. -/
theorem restored_of_ledgerOfJson? {json : Json} {ledger : Ledger}
    (h : ledgerOfJson? json = some ledger) :
    (∃ available pending, ledger = .restore available pending) ∧ ledger.Representable := by
  simp only [ledgerOfJson?, Option.bind_eq_bind] at h
  obtain ⟨fields, -, h⟩ := Option.bind_eq_some_iff.mp h
  split at h
  · obtain ⟨available, havailable, h⟩ := Option.bind_eq_some_iff.mp h
    obtain ⟨pending, hpending, h⟩ := Option.bind_eq_some_iff.mp h
    cases h
    obtain ⟨first, -, havailable⟩ := Json.required_eq_some_iff.mp havailable
    obtain ⟨second, -, hpending⟩ := Json.required_eq_some_iff.mp hpending
    have only := fun json coin => @Coin.representable_of_ofJson? json coin
    exact ⟨⟨available, pending, rfl⟩,
      .restore (Json.forall_mem_of_list? only havailable) (Json.forall_mem_of_list? only hpending)⟩
  · cases h

/-- Only restarted wallets are read. -/
theorem restored_of_ofJson? {json : Json} {wallet : Wallet} (h : ofJson? json = some wallet) :
    (∃ available pending, wallet.ledger = .restore available pending) ∧
      wallet.ledger.Representable ∧ wallet.restarted = wallet := by
  simp only [ofJson?, Option.bind_eq_bind] at h
  obtain ⟨fields, -, h⟩ := Option.bind_eq_some_iff.mp h
  split at h
  · obtain ⟨owner, -, h⟩ := Option.bind_eq_some_iff.mp h
    obtain ⟨ledger, hledger, h⟩ := Option.bind_eq_some_iff.mp h
    obtain ⟨version, -, h⟩ := Option.bind_eq_some_iff.mp h
    obtain ⟨applied, -, h⟩ := Option.bind_eq_some_iff.mp h
    obtain ⟨network, -, h⟩ := Option.bind_eq_some_iff.mp h
    cases h
    obtain ⟨value, -, hledger⟩ := Json.required_eq_some_iff.mp hledger
    obtain ⟨restored, representable⟩ := restored_of_ledgerOfJson? hledger
    exact ⟨restored, representable, rfl⟩
  · cases h

/-! ## Texts -/

/-- Can the wallet be taken up from its text? Its version is the one in use, its ledger holds each
coin once, behind its own key, and texts can stand for the times of the coins: none is a leap second
within a minute. -/
structure Persistable (wallet : Wallet) : Prop where
  version : wallet.version = currentVersion
  exclusive : wallet.ledger.Exclusive
  keyed : wallet.ledger.WellKeyed
  representable : wallet.ledger.Representable

/-- A text is taken up if it is read as a wallet of the expected network and the current version. -/
theorem deserialize_eq_ok {text network : String} {wallet : Wallet} :
    deserialize text network = .ok wallet ↔
      (Json.read? text).bind ofJson? = some wallet ∧ wallet.network = network ∧
        wallet.version = currentVersion := by
  rw [deserialize]
  split
  · next h => simp [h]
  · next found h =>
      rw [h, Option.some_inj]
      constructor
      · intro hok
        split_ifs at hok with hnetwork hversion
        cases hok
        exact ⟨rfl, not_not.mp hnetwork, not_not.mp hversion⟩
      · rintro ⟨rfl, hnetwork, hversion⟩
        rw [if_neg (not_not.mpr hnetwork), if_neg (not_not.mpr hversion)]

/-- The text of a wallet does not depend on what only the running wallet knows. -/
theorem serialize_restarted (wallet : Wallet) : wallet.restarted.serialize = wallet.serialize := rfl

/-- A persistable wallet is taken up from its own text. -/
theorem deserialize_serialize {wallet : Wallet} (h : wallet.Persistable) :
    deserialize wallet.serialize wallet.network = .ok wallet.restarted := by
  refine deserialize_eq_ok.mpr ⟨?_, rfl, h.version⟩
  rw [serialize, Json.read?_write, Option.bind_some,
    ofJson?_toJson h.keyed h.exclusive h.representable]

/-- Only persistable wallets are taken up. -/
theorem persistable_of_deserialize {text network : String} {wallet : Wallet}
    (h : deserialize text network = .ok wallet) :
    wallet.Persistable ∧ wallet.restarted = wallet ∧ wallet.network = network := by
  obtain ⟨hread, hnetwork, hversion⟩ := deserialize_eq_ok.mp h
  obtain ⟨json, -, hjson⟩ := Option.bind_eq_some_iff.mp hread
  obtain ⟨⟨available, pending, hledger⟩, representable, hrestarted⟩ := restored_of_ofJson? hjson
  refine ⟨⟨hversion, ?_, ?_, representable⟩, hrestarted, hnetwork⟩
  · rw [hledger]
    exact .restore available pending
  · rw [hledger]
    exact .restore available pending

/-- A restart does not make a wallet persistable. -/
theorem persistable_of_restarted {wallet : Wallet} (h : wallet.restarted.Persistable) :
    wallet.Persistable :=
  ⟨h.version, h.exclusive, h.keyed, h.representable⟩

/-- **Nothing is lost at a restart.** A wallet is taken up from its text just as it was, except for the
progress beyond the last transaction that it took in, if and only if it is persistable; and that wallet
has the same text. Whatever text a wallet is taken up from, it is persistable, and the text that is
written of it gives it back. -/
theorem snapshot_exact (wallet : Wallet) :
    (wallet.Persistable ↔
      deserialize wallet.serialize wallet.network =
        .ok { wallet with progress := .restored wallet.progress.applied }) ∧
      serialize { wallet with progress := .restored wallet.progress.applied } =
        wallet.serialize ∧
      ∀ text network, deserialize text network = .ok wallet →
        wallet.Persistable ∧ deserialize wallet.serialize network = .ok wallet := by
  refine ⟨⟨deserialize_serialize, fun h => ?_⟩, serialize_restarted wallet, ?_⟩
  · exact persistable_of_restarted (persistable_of_deserialize h).1
  · intro text network h
    obtain ⟨persistable, hrestarted, rfl⟩ := persistable_of_deserialize h
    refine ⟨persistable, ?_⟩
    rw [deserialize_serialize persistable, hrestarted]

/-- A wallet with an unusual owner, which follows the chain and holds two unusual coins: one was
created in the leap second before 1970, the other at the last instant. -/
theorem snapshot_exact_of_unusual :
    let first : Coin := {
      value := .greatest, owner := "\"\u0001\\é😀", token := ⟨[]⟩, key := ⟨⟨[]⟩, 0⟩
      createdAt := some ⟨-1, 1999999999, by decide, by decide, by decide⟩
      dustRegistered := true }
    let second : Coin := { first with
      value := .zero, key := ⟨⟨[0xFF]⟩, 4294967295⟩, createdAt := some Instant.latest }
    let wallet : Wallet := { start first.owner "" with
      ledger := .restore [second] [first]
      progress := ⟨some 18446744073709551615, 18446744073709551615, true⟩ }
    let again := { wallet with progress := .restored wallet.progress.applied }
    wallet.Persistable ∧ deserialize wallet.serialize "" = .ok again ∧
      again.serialize = wallet.serialize ∧ again.Persistable ∧
      deserialize again.serialize "" = .ok again := by
  intro first second wallet again
  have representable : wallet.ledger.Representable :=
    .restore (List.forall_mem_singleton.mpr (by decide)) (List.forall_mem_singleton.mpr (by decide))
  have persistable : wallet.Persistable := ⟨rfl, .restore _ _, .restore _ _, representable⟩
  obtain ⟨hread, htext, -⟩ := snapshot_exact wallet
  have hagain := (snapshot_exact again).2.2 wallet.serialize "" (hread.mp persistable)
  exact ⟨persistable, hread.mp persistable, htext, hagain⟩

end Wallet

end UtxoWallet
