import UtxoWallet.Proofs.Book.Run

/-! # Abandonment races with synchronisation

A transaction is abandoned in two steps, a revert of the wallet and a clearing of the tracker. A
report of the indexer is taken in by two steps as well, one on the wallet and one on the tracker.
The steps of the two may alternate in any way.

* `Ledger.settled_release`: reverts and settled transactions commute, unless an input is created
  anew without being spent.
* `Tracker.settle_clear`: so do what they do to the tracker.
* `Book.race_confluent`: so every order of the four steps has the same outcome.
-/

namespace UtxoWallet

/-! ## Ledgers and trackers -/

namespace Ledger

/-- Reverting some keys and settling an update commute: what the update reports is settled either way. -/
theorem settled_release (ledger : Ledger) {update : Update} {keys : List UtxoKey}
    (h : update.status = .failure ∨
      ∀ key ∈ keys, key ∈ update.createdKeys → key ∈ update.spentKeys) :
    (ledger.release keys).settled update = (ledger.settled update).release keys := by
  refine ext_get? (fun key => ?_) (fun key => ?_)
  · simp only [get?_available_settled, get?_available_release, get?_pending_settled]
    by_cases hk : key ∈ keys
    · by_cases hs : key ∈ update.spentKeys
      · -- What was pending is settled now, whichever side came first.
        obtain ⟨coin, hcoin⟩ := Option.isSome_iff_exists.mp (lastCoin?_isSome.mpr hs)
        simp [hk, hs, hcoin]
      · by_cases hf : update.status = .failure
        · simp [hk, hs, hf, lastCoin?_eq_none hs]
        · have uncreated : key ∉ update.createdKeys := by
            intro created
            exact hs (h.resolve_left hf key hk created)
          simp [hk, hs, hf, lastCoin?_eq_none uncreated]
    · simp [hk]
  · simp only [get?_pending_settled, get?_pending_release]
    by_cases hk : key ∈ keys <;> by_cases hs : key ∈ update.spentKeys <;> simp [hk, hs]

end Ledger

namespace Tracker

variable {τ : Type} [Trackable τ]

theorem clearIds_comm (tracker : Tracker τ) (l r : OrderedSet String) :
    (tracker.clearIds l).clearIds r = (tracker.clearIds r).clearIds l := by
  by_cases hl : l.entries.isEmpty <;> by_cases hr : r.entries.isEmpty
  all_goals simp [clearIds, hl, hr, List.filter_filter, Bool.and_comm]

theorem saveVerdictIds_clearIds (tracker : Tracker τ) (l r : OrderedSet String)
    (verdict : Verdict) :
    (tracker.clearIds l).saveVerdictIds r verdict =
      (tracker.saveVerdictIds r verdict).clearIds l := by
  by_cases hl : l.entries.isEmpty <;> by_cases hr : r.entries.isEmpty
  · simp [clearIds, saveVerdictIds, hl, hr]
  · simp [clearIds, saveVerdictIds, hl, hr]
  · simp [clearIds, saveVerdictIds, hl, hr]
  · simp only [clearIds, saveVerdictIds, hl, hr, Bool.false_eq_true, ite_false,
      List.filter_map, Tracker.mk.injEq]
    refine congrArg (List.map _) (List.filter_congr fun item _ => ?_)
    -- A verdict leaves the transaction as it is, and with it what the tracker drops.
    rw [Function.comp_apply]
    split <;> rfl

/-- Clearing a transaction and settling an update commute, because a verdict leaves the
transactions as they are. -/
theorem settle_clear (tracker : Tracker τ) (tx : τ) (update : Update) :
    (tracker.clear tx).settle update = (tracker.settle update).clear tx := by
  rw [settle, settle, clear, clear]
  split
  · exact saveVerdictIds_clearIds tracker _ _ _
  · exact clearIds_comm tracker _ _

end Tracker

/-! ## Interleavings -/

/-- The orders in which two parties can take their steps, each its own in the given order. -/
inductive Interleaving {σ : Type} : List σ → List σ → List σ → Prop where
  | nil : Interleaving [] [] []
  | left {l r order : List σ} {step : σ} :
      Interleaving l r order → Interleaving (step :: l) r (step :: order)
  | right {l r order : List σ} {step : σ} :
      Interleaving l r order → Interleaving l (step :: r) (step :: order)

theorem foldl_act_comm {α σ : Type} {act : α → σ → α} {l : List σ} {step : σ}
    (h : ∀ other ∈ l, ∀ a, act (act a other) step = act (act a step) other) (a : α) :
    l.foldl act (act a step) = act (l.foldl act a) step := by
  induction l generalizing a with
  | nil => rfl
  | cons first rest ih =>
      rw [List.forall_mem_cons] at h
      rw [List.foldl_cons, List.foldl_cons, ← h.1, ih h.2]

/-- If the steps of the two parties commute, one party may as well go first. -/
theorem Interleaving.foldl_eq {α σ : Type} {act : α → σ → α} {l r order : List σ}
    (h : Interleaving l r order)
    (comm : ∀ x ∈ l, ∀ y ∈ r, ∀ a, act (act a x) y = act (act a y) x) (a : α) :
    order.foldl act a = r.foldl act (l.foldl act a) := by
  induction h generalizing a with
  | nil => rfl
  | left _ ih =>
      rw [List.forall_mem_cons] at comm
      exact ih comm.2 _
  | @right l r order step _ ih =>
      -- The step of the second party is moved behind all steps of the first.
      have later : ∀ x ∈ l, ∀ y ∈ r, ∀ a, act (act a x) y = act (act a y) x :=
        fun x hx y hy => comm x hx y (List.mem_cons_of_mem step hy)
      have now : ∀ x ∈ l, ∀ a, act (act a x) step = act (act a step) x :=
        fun x hx => comm x hx step List.mem_cons_self
      rw [List.foldl_cons, List.foldl_cons, ih later, foldl_act_comm now]

/-! ## The race -/

/-- A step of the abandonment of a transaction, or of the synchronisation with an update. -/
inductive RaceStep where
  | revert
  | clear
  | apply
  | settle

namespace Book

variable {tx : Transaction} {update : Update}

/-- Takes one step of the race. -/
def raceStep (tx : Transaction) (update : Update) (book : Book) : RaceStep → Except FeedError Book
  | .revert => .ok (book.revert tx).2
  | .clear => .ok (book.clear tx)
  | .apply => book.applyNotice (.transaction update)
  | .settle => .ok (book.settle update)

/-- What a step of the race does to the wallet and to the tracker. -/
def raceEffect (tx : Transaction) (update : Update) (state : Wallet × Tracker Transaction) :
    RaceStep → Wallet × Tracker Transaction
  | .revert => ({ state.1 with ledger := state.1.ledger.release tx.inputKeys }, state.2)
  | .clear => (state.1, state.2.clear tx)
  | .apply => ({ state.1 with
      ledger := state.1.ledger.settled update
      progress := state.1.progress.record update.id }, state.2)
  | .settle => (state.1, state.2.settle update)

/-- No step of the race fails, and each has its effect on wallet and tracker. -/
theorem raceStep_spec (tx : Transaction) (update : Update) {book : Book}
    (h : book.wallet.ledger.WellKeyed) (step : RaceStep) :
    ∃ next, book.raceStep tx update step = .ok next ∧
      (next.wallet, next.tracker) = raceEffect tx update (book.wallet, book.tracker) step ∧
      next.wallet.ledger.WellKeyed := by
  cases step with
  | revert =>
      refine ⟨_, rfl, ?_, ?_⟩
      · rw [revert_eq h]
        rfl
      · rw [revert_eq h]
        exact h.release tx.inputKeys
  | clear => exact ⟨_, rfl, rfl, h⟩
  | apply => exact ⟨_, applyNotice_transaction book update, rfl, h.settled update⟩
  | settle => exact ⟨_, rfl, rfl, h⟩

/-- So has any sequence of them. -/
theorem race_spec (tx : Transaction) (update : Update) {book : Book}
    (h : book.wallet.ledger.WellKeyed) (order : List RaceStep) :
    ∃ final, order.foldlM (raceStep tx update) book = .ok final ∧
      (final.wallet, final.tracker) =
        order.foldl (raceEffect tx update) (book.wallet, book.tracker) :=
  -- A revert needs each coin behind its own key, and every step keeps it there.
  foldlM_eq_ok_of_step (fun book : Book => book.wallet.ledger.WellKeyed)
    (fun book => (book.wallet, book.tracker)) (fun _ hb => raceStep_spec tx update hb) h order

/-- The steps of the one party commute with those of the other. -/
theorem raceEffect_comm
    (h : update.status = .failure ∨
      ∀ key ∈ tx.inputKeys, key ∈ update.createdKeys → key ∈ update.spentKeys) :
    ∀ x ∈ [RaceStep.revert, .clear], ∀ y ∈ [RaceStep.apply, .settle], ∀ state,
      raceEffect tx update (raceEffect tx update state x) y =
        raceEffect tx update (raceEffect tx update state y) x := by
  simp only [List.forall_mem_cons, List.not_mem_nil, false_implies, implies_true, and_true]
  refine ⟨⟨fun state => ?_, fun _ => rfl⟩, fun _ => rfl, fun state => ?_⟩
  · simp only [raceEffect, Ledger.settled_release state.1.ledger h]
  · simp only [raceEffect, Tracker.settle_clear]

/-- **Abandonment and synchronisation are confluent.** In whichever order their steps alternate, the
wallet and the tracked transactions end up the same, if the update failed or creates no input of the
transaction without reporting it spent. -/
theorem race_confluent {book : Book} (reachable : book.wallet.ledger.Reachable)
    (h : update.status = .failure ∨
      ∀ key ∈ tx.inputKeys, key ∈ update.createdKeys → key ∈ update.spentKeys) :
    ∃ wallet tracker, ∀ order, Interleaving [.revert, .clear] [.apply, .settle] order →
      ∃ final, order.foldlM (raceStep tx update) book = .ok final ∧
        final.wallet = wallet ∧ final.tracker = tracker := by
  have hkeyed := Ledger.reachable_iff_wellKeyed.mp reachable
  let outcome := [RaceStep.revert, .clear, .apply, .settle].foldl (raceEffect tx update)
    (book.wallet, book.tracker)
  refine ⟨outcome.1, outcome.2, fun order horder => ?_⟩
  obtain ⟨final, hfinal, hstate⟩ := race_spec tx update hkeyed order
  rw [horder.foldl_eq (raceEffect_comm h)] at hstate
  exact ⟨final, hfinal, congrArg Prod.fst hstate, congrArg Prod.snd hstate⟩

/-- A tracked transaction spends a pending coin, and one more that the report of its success lists as
spent and creates. In every order the created coin is available in the end, the other is gone, and only
the other transaction is still tracked. -/
theorem race_confluent_of_success :
    let coin := Coin.ofValue ⟨10, by decide⟩
    let later : Coin := { coin with key := ⟨⟨[0x22]⟩, 0⟩ }
    let tx := Transaction.ofIntent "net" ⟨0, some ⟨[coin.toUtxo, later.toUtxo], []⟩, .zero⟩
    let other := Transaction.ofIntent "net" ⟨0, none, .numbered 1⟩
    let update : Update := ⟨1, tx.identifiers, [later], [coin, later], .success, []⟩
    let wallet := { Wallet.start "pk" "net" with ledger := .restore [] [coin] }
    let book := Book.openWith wallet ⟨[⟨tx, none⟩, ⟨other, none⟩]⟩ .fresh
    (∀ key ∈ tx.inputKeys, key ∈ update.createdKeys → key ∈ update.spentKeys) ∧
      later.key ∈ tx.inputKeys ∧ later.key ∈ update.createdKeys ∧
      ∀ order, Interleaving [.revert, .clear] [.apply, .settle] order →
        ∃ final, order.foldlM (raceStep tx update) book = .ok final ∧
          final.wallet = { wallet with
            ledger := .restore [later] [], progress := wallet.progress.record 1 } ∧
          final.tracker = ⟨[⟨other, none⟩]⟩ := by
  intro coin later tx other update wallet book
  have spent : ∀ key ∈ tx.inputKeys, key ∈ update.createdKeys → key ∈ update.spentKeys := by decide
  obtain ⟨wallet', tracker', confluent⟩ := @race_confluent tx update book ⟨[], _, [], rfl⟩ (.inr spent)
  -- One order tells the outcome of all.
  obtain ⟨final, hfinal, rfl, rfl⟩ := confluent [.revert, .clear, .apply, .settle]
    (.left (.left (.right (.right .nil))))
  have outcome : ([RaceStep.revert, .clear, .apply, .settle].foldlM (raceStep tx update) book
      |>.toOption.map fun final => (final.wallet, final.tracker)) =
      some ({ wallet with
        ledger := .restore [later] [], progress := wallet.progress.record 1 },
        ⟨[⟨other, none⟩]⟩) := by
    decide +kernel
  rw [hfinal] at outcome
  obtain ⟨hwallet, htracker⟩ := Prod.mk.inj (Option.some.inj outcome)
  rw [hwallet, htracker] at confluent
  exact ⟨spent, by decide, by decide, confluent⟩

end Book

end UtxoWallet
