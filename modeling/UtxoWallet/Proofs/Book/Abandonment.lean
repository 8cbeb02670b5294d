import UtxoWallet.Proofs.Book.Run

/-! # Abandoning failed transactions

When the indexer reports a failure, the wallet takes the coins of the failed transaction back at
once. The sweep that abandons the transaction later, to reach the other ledgers, reverts it in the
wallet once more, and a revert knows coins by their keys only. If another payment has reserved one of
the coins in the meantime, the sweep takes it away from that payment.

* `Book.abandonFailed_ledger_iff`: the sweep leaves the wallet's ledger as it is iff no input of a
  failed transaction is reserved like that.
-/

namespace UtxoWallet

/-! ## Histories -/

section History

variable {α β : Type} {f : β → α → β}

theorem foldl_mem_scanl (b : β) (l r : List α) : l.foldl f b ∈ (l ++ r).scanl f b := by
  rw [List.scanl_append, List.mem_append]
  exact .inl (List.mem_of_getLast? List.getLast?_scanl)

/-- What is false at first and true in the end came true for the last time at some step. -/
theorem exists_last_rise (P : β → Prop) {b : β} {l : List α} (hb : ¬ P b)
    (hl : P (l.foldl f b)) :
    ∃ before step later, l = before ++ step :: later ∧ ¬ P (before.foldl f b) ∧
      ∀ c ∈ later.scanl f (f (before.foldl f b) step), P c := by
  -- From the end, so that the last rise is the first one met.
  induction l using List.reverseRecOn with
  | nil => exact absurd hl hb
  | append_singleton l last ih =>
      rw [List.foldl_append] at hl
      by_cases hp : P (l.foldl f b)
      · -- True before the last step too: the rise is an earlier one, and has lasted.
        obtain ⟨before, step, later, rfl, hbefore, hlater⟩ := ih hp
        refine ⟨before, step, later ++ [last], by simp, hbefore, ?_⟩
        intro c hc
        rw [List.scanl_append, List.mem_append] at hc
        rcases hc with hc | hc
        · exact hlater c hc
        · have hend : c = (before ++ step :: later ++ [last]).foldl f b := by
            simpa using hc
          rw [hend, List.foldl_append]
          exact hl
      · refine ⟨l, last, [], rfl, hp, ?_⟩
        intro c hc
        rw [List.scanl_nil, List.mem_singleton] at hc
        rw [hc]
        exact hl

end History

namespace Book

/-! ## Failures and reservations -/

/-- An update reported that the transaction failed, and all its inputs with it, and the failure has
been on record ever since. -/
def FailureReported (start : Book) (actions : List Action) (tx : Transaction) : Prop :=
  ∃ before history update later,
    actions = before ++ .take history (.transaction update) :: later ∧
    update.status = .failure ∧
    (∀ key ∈ tx.inputKeys, key ∈ update.spentKeys) ∧
    ∀ book ∈ later.scanl perform
      ((start.after before).perform (.take history (.transaction update))),
      tx ∈ book.tracker.failed

/-- With the failure of the transaction on record, a payment reserved the coin, which has been
pending ever since. -/
def ReservedAfterFailure (start : Book) (actions : List Action) (tx : Transaction)
    (key : UtxoKey) : Prop :=
  ∃ before terms services outputs ttl later,
    actions = before ++ .transfer terms services outputs ttl :: later ∧
    tx ∈ (start.after before).tracker.failed ∧
    ¬ (start.after before).wallet.ledger.pending.contains key ∧
    ∀ book ∈ later.scanl perform
      ((start.after before).perform (.transfer terms services outputs ttl)),
      book.wallet.ledger.pending.contains key

/-- Only a payment makes a coin pending. -/
theorem transfer_of_reserves {book : Book} (h : book.wallet.ledger.WellKeyed) {action : Action}
    {key : UtxoKey} (hbefore : ¬ book.wallet.ledger.pending.contains key)
    (hafter : (book.perform action).wallet.ledger.pending.contains key) :
    ∃ terms services outputs ttl, action = .transfer terms services outputs ttl := by
  have absent := OrderedMap.not_contains_iff.mp hbefore
  rcases perform_ledger h action with htransfer | ⟨keys, hkeys⟩ | ⟨update, hupdate⟩
  · exact htransfer
  · rw [hkeys, OrderedMap.contains, Ledger.get?_pending_release, absent] at hafter
    simp at hafter
  · rw [hupdate, OrderedMap.contains, Ledger.get?_pending_settled, absent] at hafter
    simp at hafter

/-- Once the failure of a transaction is reported, an input that is pending again has been reserved
by a payment. -/
theorem reserved_of_pending {start : Book} (h : start.wallet.ledger.WellKeyed)
    {actions : List Action} {tx : Transaction} {key : UtxoKey}
    (reported : FailureReported start actions tx) (hkey : key ∈ tx.inputKeys)
    (hp : (start.after actions).wallet.ledger.pending.contains key) :
    ReservedAfterFailure start actions tx key := by
  obtain ⟨before, history, update, later, rfl, -, hspent, hfailed⟩ := reported
  let told := (start.after before).perform (.take history (.transaction update))
  -- The update takes the coin out of the pending ones, so it has to come back later on.
  have hreturned : ¬ told.wallet.ledger.pending.contains key := by
    rw [perform_take_transaction, OrderedMap.contains, Ledger.get?_pending_settled,
      if_pos (hspent key hkey)]
    exact Bool.false_ne_true
  have htold : told.wallet.ledger.WellKeyed := (h.after before).perform _
  have hend : start.after (before ++ .take history (.transaction update) :: later) =
      later.foldl perform told := after_append start before _
  rw [hend] at hp
  obtain ⟨l, action, r, rfl, hl, hr⟩ := exists_last_rise
    (fun book : Book => book.wallet.ledger.pending.contains key) hreturned hp
  have hnow := hr _ (List.mem_of_head? List.head?_scanl)
  obtain ⟨terms, services, outputs, ttl, rfl⟩ :=
    transfer_of_reserves (htold.after l) hl hnow
  have hpoint : start.after (before ++ .take history (.transaction update) :: l) =
      told.after l := after_append start before _
  refine ⟨before ++ .take history (.transaction update) :: l, terms, services, outputs, ttl, r,
    by simp, ?_, ?_, ?_⟩
  · rw [hpoint]
    exact hfailed _ (foldl_mem_scanl told l _)
  · rw [hpoint]
    exact hl
  · rw [hpoint]
    exact hr

/-- **When the sweep of failed transactions leaves the ledger alone.** Let each failure on record
come from an update that reports all inputs of its transaction. Then the sweep changes the wallet's
ledger iff a payment holds an input of a failed transaction that it reserved with the failure on
record. -/
theorem abandonFailed_ledger_iff {start : Book} (reachable : start.wallet.ledger.Reachable)
    (actions : List Action) (services : Services)
    (reported : ∀ tx ∈ (start.after actions).tracker.failed, FailureReported start actions tx) :
    ((start.after actions).abandonFailed services).2.wallet.ledger =
        (start.after actions).wallet.ledger ↔
      ∀ tx ∈ (start.after actions).tracker.failed, ∀ key ∈ tx.inputKeys,
        ¬ ReservedAfterFailure start actions tx key := by
  have h := Ledger.reachable_iff_wellKeyed.mp reachable
  have hsweep : ((start.after actions).abandonFailed services).2.wallet.ledger =
      (start.after actions).wallet.ledger.release
        ((start.after actions).tracker.failed.flatMap Transaction.inputKeys) :=
    congrArg Wallet.ledger (abandonAll_wallet services (h.after actions) _)
  rw [hsweep, Ledger.release_eq_self_iff]
  constructor
  · rintro hnone tx htx key hkey ⟨before, terms, services, outputs, ttl, later, rfl, -, -, hlater⟩
    refine hnone key (List.mem_flatMap.mpr ⟨tx, htx, hkey⟩) ?_
    rw [after_append]
    exact hlater _ (List.mem_of_getLast? List.getLast?_scanl)
  · intro hnone key hmem hp
    obtain ⟨tx, htx, hkey⟩ := List.mem_flatMap.mp hmem
    exact hnone tx htx key hkey (reserved_of_pending h (reported tx htx) hkey hp)

/-! ## A payment that is tried again -/

/-- Fees of one for an input and two for an output. -/
def retryTerms : Terms :=
  { native := (Coin.ofValue .zero).token, fees := ⟨⟨1, by decide⟩, ⟨2, by decide⟩⟩
    requiredStage := .inBlock, submissionTimeout := 60000, lifetime := 3600 }

/-- A prover and a network that take everything. -/
def retryServices : Services :=
  { now := ⟨0, 0, by decide, by decide, by decide⟩, prove := .ok
    submit := fun _ => ⟨0, .ok .finalized⟩, partners := [] }

/-- A book with one coin. -/
def retryStart : Book :=
  openWith { Wallet.start "pk" "net" with ledger := .restore [Coin.ofValue ⟨100, by decide⟩] [] }
    .empty .fresh

/-- The transaction that pays forty. -/
def tryToPay (book : Book) : Transaction :=
  (book.transfer retryTerms retryServices
    [⟨⟨40, by decide⟩, "bob", retryTerms.native⟩] none).1.toOption.getD default

/-- The payment is made and submitted. -/
def tryActions (book : Book) : List Action :=
  [.transfer retryTerms retryServices [⟨⟨40, by decide⟩, "bob", retryTerms.native⟩] none,
    .submit retryTerms retryServices (tryToPay book)]

/-- The report that the first try failed. -/
def retryFailure : Update :=
  ⟨2, (tryToPay retryStart).identifiers, [], [Coin.ofValue ⟨100, by decide⟩], .failure, []⟩

/-- The book when the failure is on record. -/
def retryFailed : Book :=
  (retryStart.after (tryActions retryStart)).perform (.take none (.transaction retryFailure))

/-- The first try fails, and the payment is tried again. -/
def retryActions : List Action :=
  tryActions retryStart ++ .take none (.transaction retryFailure) :: tryActions retryFailed

/-- How the run ends: the failure of the first try is on record with its input, the coin is pending
for the second try, and the sweep makes it available. -/
theorem retry_run :
    (∀ tx ∈ (retryStart.after retryActions).tracker.failed,
      (∀ key ∈ tx.inputKeys, key ∈ retryFailure.spentKeys) ∧
      ∀ book ∈ (tryActions retryFailed).scanl perform retryFailed, tx ∈ book.tracker.failed) ∧
    ∃ tx ∈ (retryStart.after retryActions).tracker.unsettled, ∃ key ∈ tx.inputKeys,
      (retryStart.after retryActions).wallet.ledger.pending.contains key ∧
      ¬ ((retryStart.after retryActions).abandonFailed
        retryServices).2.wallet.ledger.pending.contains key ∧
      ((retryStart.after retryActions).abandonFailed
        retryServices).2.wallet.ledger.available.contains key := by
  decide +kernel

/-- Every transaction that the sweep finds has had its failure reported. -/
theorem retry_reported :
    ∀ tx ∈ (retryStart.after retryActions).tracker.failed,
      FailureReported retryStart retryActions tx := by
  intro tx htx
  obtain ⟨hinputs, hsince⟩ := retry_run.1 tx htx
  exact ⟨_, none, retryFailure, _, rfl, rfl, hinputs, hsince⟩

/-- The general statement at the run in which a payment is made again on the restored coin. -/
theorem abandonFailed_ledger_iff_of_retry :
    ((retryStart.after retryActions).abandonFailed retryServices).2.wallet.ledger =
        (retryStart.after retryActions).wallet.ledger ↔
      ∀ tx ∈ (retryStart.after retryActions).tracker.failed, ∀ key ∈ tx.inputKeys,
        ¬ ReservedAfterFailure retryStart retryActions tx key :=
  abandonFailed_ledger_iff ⟨_, [], [], rfl⟩ retryActions retryServices retry_reported

/-- The failed try is reported with its input, and still the sweep changes the ledger: the coin that
is pending for the second try, whose outcome is open, is available again. -/
theorem abandonFailed_takes_retried_coin :
    (∀ tx ∈ (retryStart.after retryActions).tracker.failed,
      FailureReported retryStart retryActions tx) ∧
    ((retryStart.after retryActions).abandonFailed retryServices).2.wallet.ledger ≠
      (retryStart.after retryActions).wallet.ledger ∧
    ∃ tx ∈ (retryStart.after retryActions).tracker.unsettled, ∃ key ∈ tx.inputKeys,
      (retryStart.after retryActions).wallet.ledger.pending.contains key ∧
      ((retryStart.after retryActions).abandonFailed
        retryServices).2.wallet.ledger.available.contains key := by
  obtain ⟨tx, htx, key, hkey, hbefore, hafter, havailable⟩ := retry_run.2
  refine ⟨retry_reported, ?_, tx, htx, key, hkey, hbefore, havailable⟩
  intro same
  rw [same] at hafter
  exact hafter hbefore

end Book

end UtxoWallet
