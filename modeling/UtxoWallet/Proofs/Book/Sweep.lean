import UtxoWallet.Proofs.Book.Run
import UtxoWallet.Proofs.Tracker.Antichain
import UtxoWallet.Proofs.Transaction.Expiry

/-! # Sweeps

A sweep looks through the tracked transactions once, and abandons those that are due one after the
other. Each is reverted by the keys of its inputs, in the ledger that those before it have left, and
dropped from the tracker with all that it covers. Two that are due may share an input, and a covered
transaction need not be due. Neither does any harm: a release does not look at who has reserved a coin,
and in an antichain no tracked transaction covers another.

* `Tracker.Antichain.items_clearAll`: the items that are due go, and no others.
* `Book.sweep_exact`: what is left of a sweep, and that it leaves nothing to another one.
-/

namespace UtxoWallet

namespace Tracker

variable {τ : Type} [Trackable τ] {tracker : Tracker τ}

/-! ## Dropping several transactions -/

/-- Each item that is due is dropped with its own transaction, and with no other one. -/
theorem Antichain.items_clearAll (antichain : tracker.Antichain)
    (identified : ∀ item ∈ tracker.items, ¬ (Trackable.ids item.tx).entries.isEmpty)
    (due : Tracked τ → Prop) [DecidablePred due] :
    (((tracker.items.filter (due ·)).map (·.tx)).foldl clear tracker).items =
      tracker.items.filter (¬ due ·) := by
  rw [Tracker.items_clearAll]
  refine List.filter_congr fun item hitem => ?_
  rw [decide_not, Bool.not_inj_iff, Bool.eq_iff_iff, List.any_eq_true, decide_eq_true_iff]
  constructor
  · rintro ⟨tx, htx, hdrops⟩
    obtain ⟨other, hother, rfl⟩ := List.mem_map.mp htx
    obtain ⟨hmem, hdue⟩ := List.mem_filter.mp hother
    rw [antichain.eq_of_covers hmem hitem (drops_iff.mp hdrops).2] at hdue
    exact of_decide_eq_true hdue
  · intro hdue
    have hlisted : item ∈ tracker.items.filter (due ·) :=
      List.mem_filter.mpr ⟨hitem, decide_eq_true hdue⟩
    exact ⟨item.tx, List.mem_map_of_mem hlisted,
      drops_iff.mpr ⟨identified item hitem, covers_refl _⟩⟩

end Tracker

/-! ## The two sweeps -/

/-- What the tracked transactions are swept for. -/
inductive Sweep where
  /-- A time to live that has passed before the outcome is known. -/
  | stale
  /-- An outcome that is a failure. -/
  | failed

namespace Sweep

/-- Is the tracked transaction due at the time of the sweep? -/
def Due (now : Instant) (item : Tracked Transaction) : Sweep → Prop
  | .stale => item.verdict = none ∧ ∃ ttl, item.tx.ExpiresAt ttl ∧ ttl.isBefore now
  | .failed => ∃ verdict, item.verdict = some verdict ∧ verdict.status = .failure

variable {now : Instant} {item : Tracked Transaction}

theorem due_stale_iff : Due now item .stale ↔ item.verdict.isNone ∧ item.tx.isExpired now := by
  rw [Due, Transaction.isExpired_iff, Option.isNone_iff_eq_none]

theorem due_failed_iff : Due now item .failed ↔ item.verdict.any (·.status = .failure) := by
  simp only [Due, Option.any_eq_true, decide_eq_true_iff]

instance decidableDue (now : Instant) (sweep : Sweep) : DecidablePred (sweep.Due now ·) :=
  fun _ => match sweep with
  | .stale => decidable_of_iff _ due_stale_iff.symm
  | .failed => decidable_of_iff _ due_failed_iff.symm

/-- The transactions that a sweep lists, the oldest first. -/
def listed (sweep : Sweep) (now : Instant) (tracker : Tracker Transaction) : List Transaction :=
  (tracker.items.filter (sweep.Due now ·)).map (·.tx)

theorem expired_eq_listed (tracker : Tracker Transaction) (now : Instant) :
    tracker.expired now = stale.listed now tracker := by
  rw [Tracker.expired, Tracker.unsettled, List.filter_map, List.filter_filter, listed]
  refine congrArg (List.map _) (List.filter_congr fun item _ => ?_)
  rw [Bool.eq_iff_iff, decide_eq_true_iff, due_stale_iff, and_comm]
  exact Bool.and_eq_true_iff

theorem failed_eq_listed (tracker : Tracker Transaction) (now : Instant) :
    tracker.failed = failed.listed now tracker := by
  rw [Tracker.failed, listed]
  refine congrArg (List.map _) (List.filter_congr fun item _ => ?_)
  rw [Bool.eq_iff_iff, decide_eq_true_iff, due_failed_iff]

end Sweep

namespace Book

/-- Lists the tracked transactions that are due, and abandons them. -/
def sweep (services : Services) (book : Book) : Sweep → List Transaction × Book
  | .stale => book.expireStale services
  | .failed => book.abandonFailed services

/-- A sweep lists what is due, and abandons it in order. -/
theorem sweep_eq (services : Services) (book : Book) (sweep : Sweep) :
    book.sweep services sweep =
      (sweep.listed services.now book.tracker,
        (sweep.listed services.now book.tracker).foldl (abandon services) book) := by
  cases sweep with
  | stale => rw [Book.sweep, expireStale, Sweep.expired_eq_listed]
  | failed => rw [Book.sweep, abandonFailed, Sweep.failed_eq_listed _ services.now]

/-- What a sweep leaves when it is for the items that are due. -/
structure Swept (due : Tracked Transaction → Prop) [DecidablePred due] (before : Book)
    (txs : List Transaction) (after : Book) : Prop where
  /-- It lists the items that are due, in order. -/
  listed : txs = (before.tracker.items.filter (due ·)).map (·.tx)
  /-- The others stay tracked, in order and with their outcomes. -/
  tracked : after.tracker.items = before.tracker.items.filter (¬ due ·)
  /-- The inputs that were pending are available, with the coins that were stored. -/
  released : ∀ tx ∈ txs, ∀ key ∈ tx.inputKeys, ∀ coin,
    before.wallet.ledger.pending.get? key = some coin →
      after.wallet.ledger.available.get? key = some coin ∧
        after.wallet.ledger.pending.get? key = none
  /-- Any other key is where it was. -/
  kept : ∀ key,
    (∀ tx ∈ txs, key ∈ tx.inputKeys → ¬ before.wallet.ledger.pending.contains key) →
      after.wallet.ledger.available.get? key = before.wallet.ledger.available.get? key ∧
        after.wallet.ledger.pending.get? key = before.wallet.ledger.pending.get? key
  /-- Nothing else of the wallet has changed. -/
  rest : after.wallet = { before.wallet with ledger := after.wallet.ledger }

/-- What a sweep leaves behind, in one pass over what is due. -/
theorem sweep_swept {book : Book} (keyed : book.wallet.ledger.WellKeyed)
    (antichain : book.tracker.Antichain)
    (identified : ∀ item ∈ book.tracker.items, ¬ item.tx.identifiers.entries.isEmpty)
    (services : Services) (sweep : Sweep) :
    Swept (sweep.Due services.now ·) book (sweep.listed services.now book.tracker)
      (book.sweep services sweep).2 := by
  have hwallet := abandonAll_wallet services keyed (sweep.listed services.now book.tracker)
  have htracker := abandonAll_tracker services keyed (sweep.listed services.now book.tracker)
  rw [sweep_eq]
  constructor
  case listed => rfl
  case tracked =>
    rw [htracker]
    exact antichain.items_clearAll identified (sweep.Due services.now ·)
  case released =>
    intro tx htx key hkey coin hcoin
    rw [hwallet]
    exact Ledger.get?_release_of_pending (List.mem_flatMap.mpr ⟨tx, htx, hkey⟩) hcoin
  case kept =>
    intro key idle
    rw [hwallet]
    refine Ledger.get?_release_of_idle fun hmem => ?_
    obtain ⟨tx, htx, hkey⟩ := List.mem_flatMap.mp hmem
    exact idle tx htx hkey
  case rest => rw [hwallet]

/-- **Sweeps are exact.** Let the tracked transactions have identifiers, and none of them cover another
one. Then a sweep lists those that are due, in order; these are no longer tracked, all others are, with
their outcomes; and in the ledger just the pending inputs of those that are listed have moved back to
the available coins. A second sweep at the same time finds nothing, and changes nothing. -/
theorem sweep_exact {book : Book} (reachable : book.wallet.ledger.Reachable)
    (antichain : book.tracker.Antichain)
    (identified : ∀ item ∈ book.tracker.items, ¬ item.tx.identifiers.entries.isEmpty)
    (services : Services) (sweep : Sweep) :
    ∃ txs next, book.sweep services sweep = (txs, next) ∧
      Swept (sweep.Due services.now ·) book txs next ∧
      next.sweep services sweep = ([], next) := by
  have keyed := Ledger.reachable_iff_wellKeyed.mp reachable
  have swept := sweep_swept keyed antichain identified services sweep
  refine ⟨_, (book.sweep services sweep).2, ?_, swept, ?_⟩
  · rw [sweep_eq]
  · have none : sweep.listed services.now (book.sweep services sweep).2.tracker = [] := by
      rw [Sweep.listed, swept.tracked, List.filter_filter]
      simp
    rw [sweep_eq, none]
    rfl

/-- Four coins are pending. Two transactions of the past spend a coin in common, one of them with an
intent besides whose time to live is no instant; one has failed, and one is live. -/
theorem sweep_exact_of_shared_input :
    let coin (no : UInt32) : Coin := { Coin.ofValue ⟨100, by decide⟩ with key := ⟨⟨[0x11]⟩, no⟩ }
    let spend (ttl : Int64) (coins : List Coin) : Intent :=
      ⟨ttl, some ⟨coins.map Coin.toUtxo, []⟩, .zero⟩
    let past := Transaction.ofIntent "net" (spend 10 [coin 1, coin 2])
    let mixed := { past with
      intents := OrderedMap.ofList [(1, spend .maxValue [coin 5]), (2, spend 20 [coin 2])] }
    let refused := Transaction.ofIntent "net" (spend 10 [coin 3])
    let live := Transaction.ofIntent "net" (spend 100 [coin 4])
    let book := openWith
      { Wallet.start "pk" "net" with ledger := .restore [] [coin 1, coin 2, coin 3, coin 4] }
      ⟨[⟨past, none⟩, ⟨live, none⟩, ⟨refused, some ⟨.failure, []⟩⟩, ⟨mixed, none⟩]⟩ .fresh
    let services : Services :=
      { now := ⟨50, 0, by decide, by decide, by decide⟩, prove := .ok
        submit := fun _ => ⟨0, .ok .finalized⟩, partners := [] }
    (book.wallet.ledger.Reachable ∧ book.tracker.Antichain ∧
      ∀ item ∈ book.tracker.items, ¬ item.tx.identifiers.entries.isEmpty) ∧
      (book.sweep services .stale).1 = [past, mixed] ∧ (book.sweep services .failed).1 = [refused] ∧
      ∀ sweep : Sweep, ∃ txs next, book.sweep services sweep = (txs, next) ∧
        Swept (sweep.Due services.now ·) book txs next ∧
        next.sweep services sweep = ([], next) := by
  intro coin spend past mixed refused live book services
  have reachable : book.wallet.ledger.Reachable :=
    ⟨[], [coin 1, coin 2, coin 3, coin 4], [], rfl⟩
  have antichain : book.tracker.Antichain := by
    unfold Tracker.Antichain Tracker.Incomparable
    decide +kernel
  have identified : ∀ item ∈ book.tracker.items, ¬ item.tx.identifiers.entries.isEmpty := by
    decide +kernel
  have stale : (book.sweep services .stale).1 = [past, mixed] := by decide +kernel
  have failed : (book.sweep services .failed).1 = [refused] := by decide +kernel
  exact ⟨⟨reachable, antichain, identified⟩, stale, failed,
    sweep_exact reachable antichain identified services⟩

end Book

end UtxoWallet
