import UtxoWallet.Proofs.Results
import UtxoWallet.Proofs.Wallet.Revert

/-! # Reserving coins

To spend coins locally is to reserve them: they leave the available coins for the pending ones. It is
what a release does in the ledger with its two maps exchanged, so it has the same laws.

`Ledger.spendAll_eq_ok`: coins that are spent one after the other are reserved at once, if their keys
are distinct and all of them are available; otherwise nothing is spent.
-/

namespace UtxoWallet

namespace Ledger

/-- The ledger with every available coin that has one of the keys made pending. -/
def reserve (ledger : Ledger) (keys : List UtxoKey) : Ledger :=
  { available := ledger.available.filter (!keys.contains ·)
    pending := ledger.pending.insertAll (ledger.available.filter (keys.contains ·)).entries }

/-- The ledger with its two maps exchanged. -/
def swap (ledger : Ledger) : Ledger :=
  ⟨ledger.pending, ledger.available⟩

/-- To reserve is to release with the two maps exchanged, so each law of one is a law of the other.
-/
theorem reserve_eq_swap (ledger : Ledger) (keys : List UtxoKey) :
    ledger.reserve keys = (ledger.swap.release keys).swap := rfl

@[simp] theorem get?_available_reserve (ledger : Ledger) (keys : List UtxoKey) (key : UtxoKey) :
    (ledger.reserve keys).available.get? key =
      if key ∈ keys then none else ledger.available.get? key :=
  get?_pending_release ledger.swap keys key

theorem get?_pending_reserve (ledger : Ledger) (keys : List UtxoKey) (key : UtxoKey) :
    (ledger.reserve keys).pending.get? key =
      if key ∈ keys then (ledger.available.get? key).or (ledger.pending.get? key)
      else ledger.pending.get? key :=
  get?_available_release ledger.swap keys key

theorem available_reserve_contains_iff {ledger : Ledger} {keys : List UtxoKey} {key : UtxoKey} :
    (ledger.reserve keys).available.contains key ↔
      key ∉ keys ∧ ledger.available.contains key := by
  rw [OrderedMap.contains, get?_available_reserve]
  split
  · next hmem => simp [hmem]
  · next hmem => simp [hmem, OrderedMap.contains]

@[simp] theorem reserve_nil (ledger : Ledger) : ledger.reserve [] = ledger :=
  congrArg swap (release_nil ledger.swap)

theorem reserve_append (ledger : Ledger) (l r : List UtxoKey) :
    ledger.reserve (l ++ r) = (ledger.reserve l).reserve r :=
  congrArg swap (release_append ledger.swap l r)

theorem WellKeyed.reserve {ledger : Ledger} (h : ledger.WellKeyed) (keys : List UtxoKey) :
    (ledger.reserve keys).WellKeyed := by
  have hswap : ledger.swap.WellKeyed := ⟨h.pending, h.available⟩
  exact ⟨(hswap.release keys).pending, (hswap.release keys).available⟩

/-- What is reserved and released again, among other keys, has not moved: only the others count. -/
theorem release_reserve {ledger : Ledger} {reserved released : List UtxoKey}
    (all : ∀ key ∈ reserved, key ∈ released)
    (idle : ∀ key ∈ reserved, ¬ ledger.pending.contains key) :
    (ledger.reserve reserved).release released = ledger.release released := by
  refine ext_get? (fun key => ?_) (fun key => ?_)
  · rw [get?_available_release, get?_available_release, get?_pending_reserve,
      get?_available_reserve]
    by_cases hreserved : key ∈ reserved
    · have none := OrderedMap.not_contains_iff.mp (idle key hreserved)
      simp [hreserved, all key hreserved, none]
    · rw [if_neg hreserved, if_neg hreserved]
  · rw [get?_pending_release, get?_pending_release, get?_pending_reserve]
    by_cases hreserved : key ∈ reserved
    · rw [if_pos (all key hreserved), if_pos (all key hreserved)]
    · rw [if_neg hreserved]

/-! ## Coins that move between the maps -/

/-- Some coins have been reserved, and then some released. -/
def Moved (before after : Ledger) : Prop :=
  ∃ reserved released, after = (before.reserve reserved).release released

namespace Moved

theorem reserve (ledger : Ledger) (keys : List UtxoKey) : Moved ledger (ledger.reserve keys) :=
  ⟨keys, [], (release_nil _).symm⟩

theorem release (ledger : Ledger) (keys : List UtxoKey) : Moved ledger (ledger.release keys) := by
  refine ⟨[], keys, ?_⟩
  rw [reserve_nil]

theorem refl (ledger : Ledger) : Moved ledger ledger := by
  have := reserve ledger []
  rwa [reserve_nil] at this

/-- Whatever only moves coins keeps each behind its own key. -/
theorem wellKeyed {before after : Ledger} (h : Moved before after) (hk : before.WellKeyed) :
    after.WellKeyed := by
  obtain ⟨reserved, released, rfl⟩ := h
  exact (hk.reserve reserved).release released

end Moved

/-! ## Spending coins one after the other -/

/-- A spend that succeeds reserves its one key. -/
theorem spend_eq_ok_reserve {ledger ledger' : Ledger} {key : UtxoKey} :
    ledger.spend key = .ok ledger' ↔
      ledger.available.contains key ∧ ledger' = ledger.reserve [key] := by
  have moved : ∀ coin, ledger.available.get? key = some coin →
      ⟨ledger.available.erase key, ledger.pending.insert key coin⟩ = ledger.reserve [key] := by
    intro coin hcoin
    refine ext_get? (fun k => ?_) (fun k => ?_)
    · simp
    · by_cases hk : k = key
      · simp [get?_pending_reserve, hk, hcoin]
      · simp [get?_pending_reserve, hk, Ne.symm hk]
  rw [spend_eq_ok, OrderedMap.contains, Option.isSome_iff_exists]
  constructor
  · rintro ⟨coin, hcoin, rfl⟩
    exact ⟨⟨coin, hcoin⟩, moved coin hcoin⟩
  · rintro ⟨⟨coin, hcoin⟩, rfl⟩
    exact ⟨coin, hcoin, (moved coin hcoin).symm⟩

/-- A list of spends succeeds if its keys are available and no key is there twice; it reserves them
all. -/
theorem spendAll_eq_ok {keys : List UtxoKey} {ledger ledger' : Ledger} :
    keys.foldlM spend ledger = .ok ledger' ↔
      keys.Nodup ∧ (∀ key ∈ keys, ledger.available.contains key) ∧
        ledger' = ledger.reserve keys := by
  induction keys generalizing ledger with
  | nil =>
      rw [reserve_nil]
      constructor
      · intro h
        cases h
        exact ⟨.nil, nofun, rfl⟩
      · rintro ⟨-, -, rfl⟩
        rfl
  | cons key keys ih =>
      rw [foldlM_cons_eq_ok, List.nodup_cons, List.forall_mem_cons, ← List.singleton_append,
        reserve_append]
      simp only [spend_eq_ok_reserve, ih]
      constructor
      · rintro ⟨next, ⟨hkey, rfl⟩, hdistinct, hkeys, rfl⟩
        -- Once it is reserved a key is not available, so the other keys differ from it.
        simp only [available_reserve_contains_iff, List.mem_singleton] at hkeys
        exact ⟨⟨fun hmem => (hkeys key hmem).1 rfl, hdistinct⟩,
          ⟨hkey, fun k hk => (hkeys k hk).2⟩, rfl⟩
      · rintro ⟨⟨hnew, hdistinct⟩, ⟨hkey, hkeys⟩, rfl⟩
        refine ⟨_, ⟨hkey, rfl⟩, hdistinct, fun k hk => ?_, rfl⟩
        rw [available_reserve_contains_iff, List.mem_singleton]
        exact ⟨fun same => hnew (same ▸ hk), hkeys k hk⟩

end Ledger

end UtxoWallet
