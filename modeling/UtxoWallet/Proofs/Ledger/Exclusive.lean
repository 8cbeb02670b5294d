import UtxoWallet.Proofs.Ledger.Run

/-! # Coins that are available and pending at once

A coin has its place in one of the two maps. The start of a ledger, the local transitions and the
failures keep to that. An update that takes effect does not look at the pending coins that it
creates: the second delivery of the update that created a coin, when the coin has been spent locally
in between, makes it available beside the pending one.

* `Ledger.exclusive_step_iff`: from a ledger without such a coin, that is the only way to one.
* `Ledger.run_exclusive_iff`: so a run never meets one iff none of its updates does that.
-/

namespace UtxoWallet

/-- Does the transition create a pending coin, and not report it spent? -/
def Transition.Recreates (ledger : Ledger) : Transition → Prop
  | .apply update => update.status ≠ .failure ∧
      ∃ key ∈ update.createdKeys, key ∉ update.spentKeys ∧ ledger.pending.contains key
  | _ => False

namespace Ledger

/-- No available coin is pending. -/
def Exclusive (ledger : Ledger) : Prop :=
  ∀ key, ledger.available.contains key → ¬ ledger.pending.contains key

/-- A ledger that is taken up is exclusive: a key in both lists goes to the pending coins. -/
theorem Exclusive.restore (available pending : List Coin) :
    (restore available pending).Exclusive := by
  intro key ha hp
  simp only [Ledger.restore, OrderedMap.contains, OrderedMap.get?_filter] at ha hp
  simp [hp] at ha

/-! ## One transition -/

/-- A coin that moves from one map to the other is still in one of them only. -/
theorem move_exclusive {source target : CoinMap}
    (h : ∀ key, source.contains key → ¬ target.contains key) (key : UtxoKey) (coin : Coin) :
    ∀ k, (source.erase key).contains k → ¬ (target.insert key coin).contains k := by
  intro k hs ht
  rw [OrderedMap.contains, OrderedMap.get?_erase] at hs
  rw [OrderedMap.contains, OrderedMap.get?_insert] at ht
  by_cases hk : k = key
  · rw [if_pos hk] at hs
    cases hs
  · rw [if_neg hk] at hs
    rw [if_neg (Ne.symm hk)] at ht
    exact h k hs ht

/-- A spend moves its coin, so it leaves no copy behind. -/
theorem Exclusive.spend {ledger ledger' : Ledger} {key : UtxoKey} (h : ledger.Exclusive)
    (hs : ledger.spend key = .ok ledger') : ledger'.Exclusive := by
  obtain ⟨coin, -, rfl⟩ := spend_eq_ok.mp hs
  exact move_exclusive h key coin

theorem Exclusive.rollback {ledger ledger' : Ledger} {key : UtxoKey} (h : ledger.Exclusive)
    (hr : ledger.rollback key = .ok ledger') : ledger'.Exclusive := by
  obtain ⟨coin, -, rfl⟩ := rollback_eq_ok.mp hr
  have hback := move_exclusive (fun k hp ha => h k ha hp) key coin
  exact fun k ha hp => hback k hp ha

/-- A coin that is still pending after an update is not one of the spent ones. -/
theorem pending_settled {ledger : Ledger} {update : Update} {key : UtxoKey}
    (h : (ledger.settled update).pending.contains key) :
    key ∉ update.spentKeys ∧ ledger.pending.contains key := by
  rw [OrderedMap.contains, get?_pending_settled] at h
  split at h
  · cases h
  · exact ⟨‹_›, h⟩

/-- A failed transaction takes from the pending coins all that it gives back. -/
theorem Exclusive.failure {ledger : Ledger} {update : Update} (h : ledger.Exclusive)
    (hf : update.status = .failure) : (ledger.settled update).Exclusive := by
  intro key ha hp
  obtain ⟨unspent, hp⟩ := pending_settled hp
  rw [OrderedMap.contains, get?_available_settled, if_pos hf, lastCoin?_eq_none unspent,
    Option.none_or] at ha
  exact h key ha hp

/-- A settled transaction keeps the maps apart, as long as it creates no coin that stays pending. -/
theorem Exclusive.success {ledger : Ledger} {update : Update} (h : ledger.Exclusive)
    (hs : update.status ≠ .failure) (hr : ¬ (Transition.apply update).Recreates ledger) :
    (ledger.settled update).Exclusive := by
  intro key ha hp
  obtain ⟨unspent, hp⟩ := pending_settled hp
  have uncreated : key ∉ update.createdKeys := by
    intro created
    exact hr ⟨hs, key, created, unspent, hp⟩
  rw [OrderedMap.contains, get?_available_settled, if_neg hs, lastCoin?_eq_none uncreated,
    Option.none_or, if_neg unspent] at ha
  exact h key ha hp

/-- A transition that creates a pending coin anew puts it into both maps. -/
theorem not_exclusive_of_recreates {ledger : Ledger} {transition : Transition}
    (h : transition.Recreates ledger) : ¬ (ledger.step transition).Exclusive := by
  cases transition with
  | apply update =>
      obtain ⟨hs, key, created, unspent, hp⟩ := h
      rw [step_apply hs]
      intro exclusive
      refine exclusive key ?_ ?_
      · obtain ⟨coin, hcoin⟩ := Option.isSome_iff_exists.mp (lastCoin?_isSome.mpr created)
        rw [OrderedMap.contains, get?_available_settled, if_neg hs, hcoin]
        rfl
      · rw [OrderedMap.contains, get?_pending_settled, if_neg unspent]
        exact hp
  | _ => exact h.elim

/-- **One way only.** A transition makes a pending coin available too, or an available one pending
too, only by creating it once more. -/
theorem exclusive_step_iff {ledger : Ledger} (h : ledger.Exclusive) (transition : Transition) :
    (ledger.step transition).Exclusive ↔ ¬ transition.Recreates ledger := by
  constructor
  · intro exclusive recreates
    exact not_exclusive_of_recreates recreates exclusive
  · intro hr
    rcases step_cases ledger transition with
      hs | ⟨key, hs⟩ | ⟨key, hs⟩ | ⟨update, rfl, applied, hs⟩ | ⟨update, -, failed, hs⟩
    · rwa [hs]
    · exact h.spend hs
    · exact h.rollback hs
    · rw [hs]
      exact h.success applied hr
    · rw [hs]
      exact h.failure failed

/-! ## Runs -/

/-- A run keeps the maps apart if and only if none of its transitions creates a pending coin anew.
-/
theorem run_exclusive_iff_of_exclusive {ledger : Ledger} (h : ledger.Exclusive)
    (transitions : List Transition) :
    (∀ met ∈ transitions.scanl step ledger, met.Exclusive) ↔
      ∀ before transition after, transitions = before ++ transition :: after →
        ¬ transition.Recreates (before.foldl step ledger) := by
  -- If the first transition recreates a coin, the next ledger fails both sides at once.
  induction transitions generalizing ledger with
  | nil =>
      constructor
      · intro _ before transition after hsplit
        simp at hsplit
      · intro _ met hmet
        rw [List.scanl_nil, List.mem_singleton] at hmet
        rwa [hmet]
  | cons first rest ih =>
      rw [List.scanl_cons, List.forall_mem_cons]
      constructor
      · rintro ⟨-, hmet⟩ before transition after hsplit
        have next : (ledger.step first).Exclusive := hmet _ (List.mem_of_head? List.head?_scanl)
        cases before with
        | nil =>
            cases hsplit
            exact (exclusive_step_iff h first).mp next
        | cons _ before =>
            cases hsplit
            exact (ih next).mp hmet before transition after rfl
      · intro never
        have next : (ledger.step first).Exclusive :=
          (exclusive_step_iff h first).mpr (never [] first rest rfl)
        refine ⟨h, (ih next).mpr ?_⟩
        rintro before transition after rfl
        exact never (first :: before) transition after rfl

/-- **When a run stays exclusive.** However a ledger starts and whatever it is asked for, no ledger
of the run holds a coin in both maps iff no update that takes effect creates a coin that is pending
at that moment and that it does not report spent. -/
theorem run_exclusive_iff (available pending : List Coin) (transitions : List Transition) :
    (∀ ledger ∈ transitions.scanl step (restore available pending), ledger.Exclusive) ↔
      ∀ before transition after, transitions = before ++ transition :: after →
        ¬ transition.Recreates (before.foldl step (restore available pending)) :=
  run_exclusive_iff_of_exclusive (Exclusive.restore available pending) transitions

-- A new ledger is one of no coins.
example : restore [] [] = empty := rfl

/-! ## A second delivery -/

/-- The update that brings a coin. -/
def receipt (coin : Coin) : Update :=
  ⟨1, OrderedMap.empty, [coin], [], .success, []⟩

/-- The coin is spent locally, and the update that created it comes once more: now it can be spent
a second time. -/
theorem second_delivery_not_exclusive :
    let coin := Coin.ofValue ⟨10, by decide⟩
    ¬ ∀ ledger ∈ [.apply (receipt coin), .spend coin, .apply (receipt coin)].scanl step empty,
      ledger.Exclusive := by
  intro coin h
  have last := h _ (List.mem_of_getLast? rfl) coin.key
  exact last (by decide) (by decide)

end Ledger

end UtxoWallet
