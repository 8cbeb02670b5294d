import UtxoWallet.Proofs.Book.Run
import UtxoWallet.Proofs.Tracker.Run

/-! # A submission that fails is made up for

A transaction is tracked before the network sees it. If the network takes it, nothing else changes. If
the network refuses it, takes it not far enough, or does not answer in time, every ledger is asked to
revert it, the wallet first and the others after it, whatever they answer; and the tracker is as if
the transaction, and all that it covers, had been dropped from the start.

* `Book.judge_ends`: how a submission ends, by the network's reply.
* `Book.submit_compensates`: what is left of a submission.
-/

namespace UtxoWallet

theorem Transaction.not_isEmpty_identifiers {tx : Transaction} (h : tx.intents.entries ≠ []) :
    ¬ tx.identifiers.entries.isEmpty := by
  obtain ⟨entry, hentry⟩ := List.exists_mem_of_ne_nil _ h
  have hidentifier : OrderedMap.contains tx.identifiers entry.2.hash.hex :=
    OrderedSet.contains_ofList_iff.mpr
      (List.mem_map_of_mem (List.mem_map_of_mem (f := Prod.snd) hentry))
  intro hempty
  rw [← OrderedSet.mem_toList_iff, OrderedSet.toList, OrderedMap.keys,
    List.isEmpty_iff.mp hempty] at hidentifier
  cases hidentifier

namespace Book

/-! ## The network's reply -/

/-- How a submission ends. -/
inductive Ends (terms : Terms) (reply : Reply) : Except SubmissionError Stage → Prop where
  | reached {stage : Stage} (inTime : reply.delay ≤ terms.submissionTimeout)
      (answer : reply.answer = .ok stage) (enough : terms.requiredStage.rank ≤ stage.rank) :
      Ends terms reply (.ok stage)
  | refused {error : SubmissionError} (inTime : reply.delay ≤ terms.submissionTimeout)
      (answer : reply.answer = .error error) : Ends terms reply (.error error)
  | notReached {stage : Stage} (inTime : reply.delay ≤ terms.submissionTimeout)
      (answer : reply.answer = .ok stage) (short : stage.rank < terms.requiredStage.rank) :
      Ends terms reply (.error (.stageNotReached terms.requiredStage stage))
  | late (late : terms.submissionTimeout < reply.delay) :
      Ends terms reply (.error (.timeout terms.submissionTimeout))

/-- Every reply ends the submission in one of these ways. -/
theorem judge_ends (terms : Terms) (reply : Reply) : Ends terms reply (judge terms reply) := by
  rw [judge]
  split
  · next late => exact .late late
  · next notLate =>
      have inTime := Nat.not_lt.mp notLate
      split
      · next error answer => exact .refused inTime answer
      · next stage answer =>
          split
          · next short => exact .notReached inTime answer (by simpa [Stage.isBelow] using short)
          · next enough => exact .reached inTime answer (by simpa [Stage.isBelow] using enough)

/-! ## What is left of a submission -/

/-- What is seen until the network has answered, or the time for it has passed. -/
def submissionEvents (terms : Terms) (services : Services) (tx : Transaction) : List Event :=
  [.trackerPublished, .submitted tx.toBytes,
    .waited (min (services.submit tx.toBytes).delay terms.submissionTimeout)]

/-- The transaction is tracked, and nothing else has happened: no ledger was asked for a revert. -/
structure Accepted (terms : Terms) (services : Services) (before : Book) (tx : Transaction)
    (next : Book) : Prop where
  wallet : next.wallet = before.wallet
  tracker : next.tracker = before.tracker.add tx
  journal : next.journal = before.journal ++ submissionEvents terms services tx

/-- Every ledger was asked for a revert once, and nothing of the transaction is tracked. -/
structure Compensated (terms : Terms) (services : Services) (before : Book) (tx : Transaction)
    (next : Book) : Prop where
  /-- The wallet comes first, the others follow, and then the tracker is cleared. -/
  reverted : ∃ count, before.wallet.revert tx = .ok (next.wallet, count) ∧
    next.journal = before.journal ++ submissionEvents terms services tx ++ releaseEvents count ++
      revertCalls services.partners tx ++ [.trackerPublished]
  released : ∀ key ∈ tx.inputKeys, ¬ next.wallet.ledger.pending.contains key
  tracker : next.tracker.items =
    before.tracker.items.filter fun item => !Tracker.covers tx item.tx

/-- **A submission that fails is made up for.** It ends as the network's reply says. When it succeeds
the transaction is tracked, and that is all; when it fails every ledger has been asked to revert the
transaction, none of its inputs is pending, and what is tracked is what was tracked before, without
the transactions that it covers. -/
theorem submit_compensates {book : Book} (reachable : book.wallet.ledger.Reachable) (terms : Terms)
    (services : Services) {tx : Transaction} (intents : tx.intents.entries ≠ []) :
    ∃ outcome next, book.submit terms services tx = (outcome, next) ∧
      Ends terms (services.submit tx.toBytes) outcome ∧
      match outcome with
      | .ok _ => Accepted terms services book tx next
      | .error _ => Compensated terms services book tx next := by
  have hkeyed := Ledger.reachable_iff_wellKeyed.mp reachable
  have hends := judge_ends terms (services.submit tx.toBytes)
  rw [submit]
  cases hjudge : judge terms (services.submit tx.toBytes) with
  | ok stage =>
      rw [hjudge] at hends
      exact ⟨_, _, rfl, hends, rfl, rfl, by simp [track, publishTracker, note, submissionEvents]⟩
  | error error =>
      rw [hjudge] at hends
      refine ⟨_, _, rfl, hends, ?_⟩
      rw [abandon_eq services (by exact hkeyed)]
      have identified := Transaction.not_isEmpty_identifiers intents
      refine ⟨⟨_, Wallet.revert_eq hkeyed tx, ?_⟩, fun key hkey => ?_, ?_⟩
      · simp [track, publishTracker, note, submissionEvents]
      · -- However far the other ledgers come, the wallet has released its coins.
        show ¬ (book.wallet.ledger.release tx.inputKeys).pending.contains key
        rw [OrderedMap.not_contains_iff, Ledger.get?_pending_release, if_pos hkey]
      · -- The transaction is dropped again, with what it took the place of.
        show ((book.tracker.add tx).clear tx).items = _
        rw [Tracker.clear_add identified, Tracker.clear_eq_filter identified]

/-- A transaction with a pending input and a tracked first part, which the network takes but does not
put into a block. One of the other ledgers fails to revert it. -/
theorem submit_compensates_of_early_stage :
    let coin := Coin.ofValue ⟨10, by decide⟩
    let first := Transaction.ofIntent "net" ⟨0, some ⟨[coin.toUtxo], []⟩, .numbered 1⟩
    let other := Transaction.ofIntent "net" ⟨0, none, .numbered 2⟩
    let tx := { first with intents := first.intents.insert 2 ⟨0, none, .numbered 3⟩ }
    let book := openWith { Wallet.start "pk" "net" with ledger := .restore [] [coin] }
      ⟨[⟨first, some ⟨.failure, []⟩⟩, ⟨other, none⟩]⟩ .fresh
    let terms : Terms := { (default : Terms) with requiredStage := .inBlock }
    let services : Services :=
      { now := .latest, prove := .ok, submit := fun _ => ⟨0, .ok .submitted⟩
        partners := [⟨"dust", fun _ => none⟩, ⟨"shielded", fun _ => some 2⟩] }
    ∃ next, book.submit terms services tx =
        (.error (.stageNotReached .inBlock .submitted), next) ∧
      Compensated terms services book tx next := by
  intro coin first other tx book terms services
  have reachable : book.wallet.ledger.Reachable := ⟨[], [coin], [], rfl⟩
  have intents : tx.intents.entries ≠ [] := by decide
  obtain ⟨outcome, next, hsubmit, hends, hleft⟩ :=
    submit_compensates reachable terms services intents
  cases hends with
  | reached _ answer enough =>
      cases answer
      exact absurd enough (by decide)
  | refused _ answer => cases answer
  | notReached _ answer _ =>
      cases answer
      exact ⟨next, hsubmit, hleft⟩
  | late late => exact absurd late (by decide)

end Book

end UtxoWallet
