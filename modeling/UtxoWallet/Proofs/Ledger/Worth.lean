import Mathlib.Data.List.Nodup
import UtxoWallet.Proofs.Ledger.Holdings
import UtxoWallet.Proofs.Selection.Worth

/-! # What a ledger is worth

An exclusive ledger, with each coin behind its own key, is its coins without an order: a coin is one
of them iff it is found for its key (`Ledger.mem_coins_iff`), and none of them is there twice
(`Ledger.nodup_coins`). So an update that takes effect replaces the coins that it reports spent by
those that it reports created, if these are new (`Ledger.coins_settled`), and what the ledger is worth
changes by just that much (`Ledger.worth_settled`).
-/

namespace UtxoWallet

/-- The last coin with a key, where no two coins have one key. -/
theorem lastCoin?_eq_some_iff {coins : List Coin} (distinct : (coins.map (·.key)).Nodup)
    {key : UtxoKey} {coin : Coin} :
    lastCoin? coins key = some coin ↔ coin ∈ coins ∧ coin.key = key := by
  constructor
  · exact lastCoin?_eq_some
  · rintro ⟨hmem, rfl⟩
    have hkey : coin.key ∈ coins.map (·.key) := List.mem_map_of_mem hmem
    obtain ⟨last, hlast⟩ := Option.isSome_iff_exists.mp (lastCoin?_isSome.mpr hkey)
    obtain ⟨hmember, same⟩ := lastCoin?_eq_some hlast
    rw [hlast, List.inj_on_of_nodup_map distinct hmember hmem same]

namespace Ledger

section Coins

variable {ledger : Ledger} (keyed : ledger.WellKeyed) (exclusive : ledger.Exclusive)
include keyed exclusive

omit exclusive in
theorem keyed_coins : UtxoWallet.keyed ledger.coins = ledger.entries := by
  rw [UtxoWallet.keyed, coins, List.map_append]
  exact congr (congrArg _ (keyed_values keyed.available)) (keyed_values keyed.pending)

/-- A coin belongs to the ledger if it is what is found under its key. -/
theorem mem_coins_iff {coin : Coin} : coin ∈ ledger.coins ↔ ledger.coin? coin.key = some coin := by
  rw [← exclusive.mem_entries_iff, ← keyed_coins keyed, UtxoWallet.keyed, List.mem_map]
  constructor
  · intro hmem
    exact ⟨coin, hmem, rfl⟩
  · rintro ⟨other, hmem, same⟩
    have hcoin : other = coin := congrArg Prod.snd same
    rwa [hcoin] at hmem

theorem nodup_coins : ledger.coins.Nodup := by
  have distinct := exclusive.nodup_entries
  rw [← keyed_coins keyed] at distinct
  exact List.Nodup.of_map _ distinct

omit exclusive in
theorem key_of_coin? {key : UtxoKey} {coin : Coin} (h : ledger.coin? key = some coin) :
    coin.key = key := by
  rcases Option.or_eq_some_iff.mp h with h | ⟨-, h⟩
  · exact keyed.pending key coin h
  · exact keyed.available key coin h

/-- The coins of a ledger with the keys of some of them are just these. -/
theorem coins_filter_perm {taken : List Coin} (distinct : (taken.map (·.key)).Nodup)
    (held : ∀ coin ∈ taken, coin ∈ ledger.coins) :
    (ledger.coins.filter (·.key ∈ taken.map (·.key))).Perm taken := by
  rw [List.perm_ext_iff_of_nodup ((nodup_coins keyed exclusive).filter _)
    (List.Nodup.of_map _ distinct)]
  intro coin
  rw [List.mem_filter, decide_eq_true_eq]
  constructor
  · rintro ⟨hmem, hkey⟩
    obtain ⟨other, htaken, same⟩ := List.mem_map.mp hkey
    rw [mem_coins_iff keyed exclusive, ← same] at hmem
    -- A ledger has one coin for a key, so it is the one that is taken.
    have hother := (mem_coins_iff keyed exclusive).mp (held other htaken)
    rw [hother] at hmem
    cases hmem
    exact htaken
  · intro htaken
    exact ⟨held coin htaken, List.mem_map_of_mem htaken⟩

end Coins

/-! ## Settled transactions -/

section Settled

variable {ledger : Ledger} {update : Update} (applied : update.status ≠ .failure)
  (fresh : ∀ key ∈ update.createdKeys, ledger.coin? key = none)
include applied fresh

/-- After a settled transaction a key shows the coin that it created last, and else the old one
unless it was spent. -/
theorem coin?_settled (key : UtxoKey) :
    (ledger.settled update).coin? key = (lastCoin? update.created key).or
      (if key ∈ update.spentKeys then none else ledger.coin? key) := by
  rw [coin?, get?_pending_settled, get?_available_settled, if_neg applied]
  by_cases created : key ∈ update.createdKeys
  · -- There is no coin for the key but the created one.
    obtain ⟨hpending, havailable⟩ := Option.or_eq_none_iff.mp (fresh key created)
    rw [hpending, havailable, fresh key created, ite_self, Option.none_or]
  · rw [lastCoin?_eq_none created, Option.none_or, Option.none_or]
    split
    · rfl
    · rfl

/-- Coins with new keys cannot get into both maps. -/
theorem Exclusive.settled_of_fresh (exclusive : ledger.Exclusive) :
    (ledger.settled update).Exclusive := by
  refine exclusive.success applied ?_
  rintro ⟨-, key, created, -, pending⟩
  obtain ⟨hpending, -⟩ := Option.or_eq_none_iff.mp (fresh key created)
  exact OrderedMap.not_contains_iff.mpr hpending pending

variable (keyed : ledger.WellKeyed) (exclusive : ledger.Exclusive)
  (distinct : update.createdKeys.Nodup)
include keyed exclusive distinct

/-- The coins after a settled transaction: those that it created, and the old ones but for the
spent. -/
theorem coins_settled : (ledger.settled update).coins.Perm
    (update.created ++ ledger.coins.filter (·.key ∉ update.spentKeys)) := by
  have hexclusive := exclusive.settled_of_fresh applied fresh
  have apart : ∀ coin ∈ update.created, ∀ other ∈ ledger.coins, coin ≠ other := by
    rintro coin created _ hmem rfl
    rw [mem_coins_iff keyed exclusive, fresh _ (List.mem_map_of_mem created)] at hmem
    cases hmem
  -- Neither side has a coin twice, so it is enough that they have the same coins.
  rw [List.perm_ext_iff_of_nodup (nodup_coins (keyed.settled update) hexclusive)]
  · intro coin
    rw [mem_coins_iff (keyed.settled update) hexclusive, coin?_settled applied fresh,
      Option.or_eq_some_iff, lastCoin?_eq_some_iff distinct, List.mem_append, List.mem_filter,
      mem_coins_iff keyed exclusive, decide_eq_true_eq]
    constructor
    · rintro (⟨created, -⟩ | ⟨-, kept⟩)
      · exact .inl created
      · split at kept
        · cases kept
        · next unspent => exact .inr ⟨kept, unspent⟩
    · rintro (created | ⟨kept, unspent⟩)
      · exact .inl ⟨created, rfl⟩
      · have uncreated : coin.key ∉ update.createdKeys := by
          intro created
          rw [fresh _ created] at kept
          cases kept
        rw [lastCoin?_eq_none uncreated, if_neg unspent]
        exact .inr ⟨rfl, kept⟩
  · refine List.nodup_append.mpr
      ⟨List.Nodup.of_map _ distinct, (nodup_coins keyed exclusive).filter _, ?_⟩
    intro coin created other hmem
    exact apart coin created other (List.mem_of_mem_filter hmem)

/-- **What an update changes.** The ledger loses what its spent coins are worth, and gains what the
created ones are. -/
theorem worth_settled (token : TokenType) :
    worth token (ledger.settled update).coins +
        worth token (ledger.coins.filter (·.key ∈ update.spentKeys)) =
      worth token ledger.coins + worth token update.created := by
  have hkept := worth_perm (coins_settled applied fresh keyed exclusive distinct) token
  have hparts := worth_perm
    (List.filter_append_perm (fun coin => coin.key ∈ update.spentKeys) ledger.coins) token
  simp only [worth_append, decide_not] at hkept hparts
  omega

end Settled

end Ledger

end UtxoWallet
