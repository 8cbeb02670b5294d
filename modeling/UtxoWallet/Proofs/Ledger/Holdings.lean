import UtxoWallet.Proofs.Ledger.Exclusive
import UtxoWallet.Proofs.Ledger.Reserve

/-! # What a ledger holds

A ledger holds the coins of both its maps. Reserving and releasing coins moves them between the maps,
so what an exclusive ledger holds stays the same, coin by coin (`Ledger.coin?_reserve`,
`Ledger.coin?_release`). So do all its coins together (`Ledger.coins_perm`), and the total balances
(`Ledger.totalBalances_eq`).
-/

namespace UtxoWallet

/-! ## Balances -/

theorem Amount.toNat_addSaturating (a b : Amount) :
    (a.addSaturating b).toNat = min (a.toNat + b.toNat) (Amount.size - 1) := by
  rw [addSaturating, add?, ofNat?]
  split
  · next hfits => exact (Nat.min_eq_left (Nat.le_sub_one_of_lt hfits)).symm
  · next hbig => exact (Nat.min_eq_right (Nat.sub_le_of_le_add (by omega))).symm

theorem Amount.addSaturating_right_comm (a b c : Amount) :
    (a.addSaturating b).addSaturating c = (a.addSaturating c).addSaturating b := by
  apply toNat_injective
  simp only [toNat_addSaturating]
  omega

/-- Adds a coin to the balance of its token. -/
def addCoin (sums : OrderedMap TokenType Amount) (coin : Coin) : OrderedMap TokenType Amount :=
  sums.insert coin.token (((sums.get? coin.token).getD Amount.zero).addSaturating coin.value)

/-- Two coins may be counted in either order, because a sum that is full stays full. -/
theorem addCoin_right_comm (sums : OrderedMap TokenType Amount) (a b : Coin) :
    addCoin (addCoin sums a) b = addCoin (addCoin sums b) a := by
  refine OrderedMap.ext_get? fun token => ?_
  simp only [addCoin, OrderedMap.get?_insert]
  by_cases same : a.token = b.token
  · simp only [same, if_true, Option.getD_some, Amount.addSaturating_right_comm _ a.value]
    split <;> rfl
  · simp only [if_neg same, if_neg (Ne.symm same)]
    split
    · next hb => rw [if_neg (fun ha => same (ha.trans hb.symm))]
    · rfl

/-- The order of the coins does not matter. -/
theorem balancesOf_perm {l r : List Coin} (h : l.Perm r) : balancesOf l = balancesOf r :=
  h.foldl_eq' (fun a _ b _ sums => addCoin_right_comm sums a b) OrderedMap.empty

namespace Ledger

/-! ## Coins -/

/-- The coin that the ledger holds for a key. -/
def coin? (ledger : Ledger) (key : UtxoKey) : Option Coin :=
  (ledger.pending.get? key).or (ledger.available.get? key)

/-- Nothing in this notion tells the two maps apart. -/
theorem Exclusive.swap {ledger : Ledger} (h : ledger.Exclusive) : ledger.swap.Exclusive :=
  fun key hp ha => h key ha hp

theorem Exclusive.release {ledger : Ledger} (h : ledger.Exclusive) (keys : List UtxoKey) :
    (ledger.release keys).Exclusive := by
  intro key ha hp
  rw [OrderedMap.contains, get?_pending_release] at hp
  rw [OrderedMap.contains, get?_available_release] at ha
  split at hp
  · cases hp
  · next hkey =>
      rw [if_neg hkey] at ha
      exact h key ha hp

theorem Exclusive.reserve {ledger : Ledger} (h : ledger.Exclusive) (keys : List UtxoKey) :
    (ledger.reserve keys).Exclusive :=
  (h.swap.release keys).swap

/-- A release loses no coin, nor does it change one. -/
theorem coin?_release (ledger : Ledger) (keys : List UtxoKey) (key : UtxoKey) :
    (ledger.release keys).coin? key = ledger.coin? key := by
  rw [coin?, coin?, get?_pending_release, get?_available_release]
  split
  · rfl
  · rfl

theorem Exclusive.available_eq_none {ledger : Ledger} (h : ledger.Exclusive) {key : UtxoKey}
    {coin : Coin} (hp : ledger.pending.get? key = some coin) :
    ledger.available.get? key = none := by
  rw [← OrderedMap.not_contains_iff]
  intro ha
  exact h key ha (Option.isSome_of_eq_some hp)

/-- In an exclusive ledger it does not matter which map is asked first. -/
theorem Exclusive.coin?_swap {ledger : Ledger} (h : ledger.Exclusive) (key : UtxoKey) :
    ledger.swap.coin? key = ledger.coin? key := by
  show (ledger.available.get? key).or (ledger.pending.get? key) =
    (ledger.pending.get? key).or (ledger.available.get? key)
  cases hp : ledger.pending.get? key with
  | none => rw [Option.or_none, Option.none_or]
  | some coin => rw [h.available_eq_none hp, Option.none_or, Option.or_none]

/-- A reservation is a release seen from the other side. -/
theorem coin?_reserve {ledger : Ledger} (h : ledger.Exclusive) (keys : List UtxoKey)
    (key : UtxoKey) : (ledger.reserve keys).coin? key = ledger.coin? key := by
  rw [reserve_eq_swap, (h.swap.release keys).coin?_swap, coin?_release, h.coin?_swap]

theorem Moved.exclusive {before after : Ledger} (h : Moved before after)
    (hx : before.Exclusive) : after.Exclusive := by
  obtain ⟨reserved, released, rfl⟩ := h
  exact (hx.reserve reserved).release released

/-- Whatever only moves coins between the maps leaves each of them as it is. -/
theorem Moved.coin?_eq {before after : Ledger} (h : Moved before after) (hx : before.Exclusive)
    (key : UtxoKey) : after.coin? key = before.coin? key := by
  obtain ⟨reserved, released, rfl⟩ := h
  rw [coin?_release, coin?_reserve hx]

/-! ## Total balances -/

/-- The entries of both maps. -/
def entries (ledger : Ledger) : List (UtxoKey × Coin) :=
  ledger.available.entries ++ ledger.pending.entries

/-- The entries of an exclusive ledger are its coins behind their keys. -/
theorem Exclusive.mem_entries_iff {ledger : Ledger} (h : ledger.Exclusive) {key : UtxoKey}
    {coin : Coin} : (key, coin) ∈ ledger.entries ↔ ledger.coin? key = some coin := by
  rw [entries, List.mem_append, OrderedMap.mem_entries_iff, OrderedMap.mem_entries_iff, coin?]
  cases hp : ledger.pending.get? key with
  | none => simp
  | some other => simp [h.available_eq_none hp]

theorem Exclusive.nodup_entries {ledger : Ledger} (h : ledger.Exclusive) :
    ledger.entries.Nodup := by
  have distinct : ∀ coinMap : CoinMap, coinMap.entries.Nodup := by
    intro coinMap
    exact coinMap.distinct_entries.imp fun hne same => hne (congrArg Prod.fst same)
  refine List.nodup_append.mpr ⟨distinct _, distinct _, ?_⟩
  rintro ⟨key, coin⟩ ha other hp rfl
  rw [OrderedMap.mem_entries_iff] at ha hp
  rw [h.available_eq_none hp] at ha
  cases ha

/-- The coins of both maps. -/
def coins (ledger : Ledger) : List Coin :=
  ledger.availableCoins ++ ledger.pendingCoins

/-- Exclusive ledgers with the same coin for each key hold the same coins, in some order. -/
theorem coins_perm {l r : Ledger} (hl : l.Exclusive) (hr : r.Exclusive)
    (h : ∀ key, l.coin? key = r.coin? key) : l.coins.Perm r.coins := by
  have hperm : l.entries.Perm r.entries := by
    rw [List.perm_ext_iff_of_nodup hl.nodup_entries hr.nodup_entries]
    rintro ⟨key, coin⟩
    rw [hl.mem_entries_iff, hr.mem_entries_iff, h]
  have hvalues : ∀ ledger : Ledger, ledger.coins = ledger.entries.map (·.2) := by
    intro ledger
    exact (List.map_append).symm
  rw [hvalues, hvalues]
  exact hperm.map _

/-- Moving coins between the maps changes their order at most. -/
theorem Moved.coins_perm {before after : Ledger} (h : Moved before after) (hx : before.Exclusive) :
    after.coins.Perm before.coins :=
  Ledger.coins_perm (h.exclusive hx) hx (h.coin?_eq hx)

/-- The totals are told by which coins there are, in whichever of the maps. -/
theorem totalBalances_eq {l r : Ledger} (hl : l.Exclusive) (hr : r.Exclusive)
    (h : ∀ key, l.coin? key = r.coin? key) : l.totalBalances = r.totalBalances :=
  balancesOf_perm (coins_perm hl hr h)

end Ledger

end UtxoWallet
