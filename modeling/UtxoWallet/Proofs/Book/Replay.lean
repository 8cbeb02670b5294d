import UtxoWallet.Proofs.Book.Run
import UtxoWallet.Proofs.Progress

/-! # Replay of the stream

The indexer may deliver a part of its stream once more. What a report says of a coin, of a tracked
transaction or of the progress replaces what was known before, or adds to it in a way that does not
hang on the order. So a report that comes again later makes its earlier delivery void
(`LastCounts`), and taking in what has been taken in already changes nothing: `Book.take_replay`.
-/

namespace UtxoWallet

/-! ## Steps of which the last counts -/

/-- A step that is taken again later might as well have been left out. -/
structure LastCounts {α σ : Type} (act : α → σ → α) : Prop where
  once : ∀ a s, act (act a s) s = act a s
  later : ∀ a s t, act (act (act a s) t) s = act (act a t) s

namespace LastCounts

section Runs

variable {α σ : Type} {act : α → σ → α}

theorem of_comm (once : ∀ a s, act (act a s) s = act a s)
    (comm : ∀ a s t, act (act a s) t = act (act a t) s) : LastCounts act := by
  refine ⟨once, fun a s t => ?_⟩
  rw [comm a s t, once]

/-- A step that comes again later may as well be left out. -/
theorem foldl_step (h : LastCounts act) {l : List σ} {s : σ} (hs : s ∈ l) (a : α) :
    l.foldl act (act a s) = l.foldl act a := by
  induction l generalizing a with
  | nil => cases hs
  | cons first rest ih =>
      rw [List.foldl_cons, List.foldl_cons]
      rcases List.mem_cons.mp hs with rfl | hrest
      · rw [h.once]
      · -- The step comes again behind the first one, where it makes the early one void.
        calc rest.foldl act (act (act a s) first)
            = rest.foldl act (act (act (act a s) first) s) := (ih hrest _).symm
          _ = rest.foldl act (act (act a first) s) := by rw [h.later]
          _ = rest.foldl act (act a first) := ih hrest _

/-- Steps that all come again later might as well have been left out. -/
theorem foldl_foldl (h : LastCounts act) {early l : List σ} (hearly : ∀ s ∈ early, s ∈ l) (a : α) :
    l.foldl act (early.foldl act a) = l.foldl act a := by
  induction early generalizing a with
  | nil => rfl
  | cons s rest ih =>
      rw [List.forall_mem_cons] at hearly
      rw [List.foldl_cons, ih hearly.2, h.foldl_step hearly.1]

end Runs

end LastCounts

/-- What updates do, as what the stream does: a report on the chain alone does nothing. -/
def byUpdate {α : Type} (act : α → Update → α) (a : α) : Notice → α
  | .progress _ => a
  | .transaction update => act a update

theorem LastCounts.byUpdate {α : Type} {act : α → Update → α} (h : LastCounts act) :
    LastCounts (byUpdate act) where
  once a notice := by
    cases notice with
    | progress _ => rfl
    | transaction update => exact h.once a update
  later a s t := by
    cases s with
    | progress _ => rfl
    | transaction update =>
        cases t with
        | progress _ => exact h.once a update
        | transaction other => exact h.later a update other

/-! ## What a report replaces -/

/-- What a settled transaction makes of the available coin with a key: none if it leaves it alone. -/
def Update.availableAt? (update : Update) (key : UtxoKey) : Option (Option Coin) :=
  if update.status = .failure then (lastCoin? update.spent key).map some
  else ((lastCoin? update.created key).map some).or
    (if key ∈ update.spentKeys then some none else none)

theorem Ledger.get?_available_settled_eq_getD (ledger : Ledger) (update : Update) (key : UtxoKey) :
    (ledger.settled update).available.get? key =
      (update.availableAt? key).getD (ledger.available.get? key) := by
  rw [get?_available_settled, Update.availableAt?]
  split
  · cases lastCoin? update.spent key <;> rfl
  · cases lastCoin? update.created key with
    | some coin => rfl
    | none =>
        split <;> rfl

/-- For the ledger, the last report on a key counts. -/
theorem Ledger.settled_lastCounts : LastCounts Ledger.settled where
  once ledger update := by
    refine ext_get? (fun key => ?_) (fun key => ?_)
    · simp only [get?_available_settled_eq_getD]
      cases update.availableAt? key <;> rfl
    · simp only [get?_pending_settled]
      split <;> rfl
  later ledger s t := by
    refine ext_get? (fun key => ?_) (fun key => ?_)
    · simp only [get?_available_settled_eq_getD]
      cases s.availableAt? key <;> rfl
    · simp only [get?_pending_settled]
      split <;> rfl

namespace Tracker

variable {τ : Type} [Trackable τ]

/-- What an update says of a tracked transaction, if it says anything: its outcome when it failed,
the end of its tracking otherwise. -/
def fate? (update : Update) (tx : τ) : Option (Option Verdict) :=
  if update.identifiers.entries.isEmpty ∨ ¬ isWithin tx update.identifiers then none
  else some (if update.status = .failure then some update.verdict else none)

/-- What an update leaves of a tracked transaction: none if its tracking ends. -/
def settleItem? (update : Update) (item : Tracked τ) : Option (Tracked τ) :=
  match fate? update item.tx with
  | none => some item
  | some outcome => outcome.map fun verdict => { item with verdict := some verdict }

theorem settle_eq_filterMap (tracker : Tracker τ) (update : Update) :
    tracker.settle update = ⟨tracker.items.filterMap (settleItem? update)⟩ := by
  rw [settle, saveVerdictIds, clearIds]
  by_cases hids : update.identifiers.entries.isEmpty
  · have hsame : settleItem? (τ := τ) update = some := by
      funext item
      simp [settleItem?, fate?, hids]
    rw [if_pos hids, if_pos hids, ite_self, hsame, List.filterMap_some]
  · rw [if_neg hids, if_neg hids]
    split
    · next hf =>
        rw [← List.filterMap_eq_map]
        refine congrArg Tracker.mk (List.filterMap_congr fun item _ => ?_)
        by_cases hw : isWithin item.tx update.identifiers <;>
          simp [settleItem?, fate?, hids, hw, hf]
    · next hf =>
        rw [← List.filterMap_eq_filter]
        refine congrArg Tracker.mk (List.filterMap_congr fun item _ => ?_)
        by_cases hw : isWithin item.tx update.identifiers <;>
          simp [settleItem?, fate?, hids, hw, hf, Option.guard]

/-- What an update says hangs on the transaction alone, which no update changes. -/
theorem settle_lastCounts : LastCounts (settle (τ := τ)) where
  once tracker update := by
    simp only [settle_eq_filterMap, List.filterMap_filterMap, mk.injEq]
    refine List.filterMap_congr fun item _ => ?_
    rcases h : fate? update item.tx with _ | _ | verdict <;> simp [settleItem?, h]
  later tracker s t := by
    simp only [settle_eq_filterMap, List.filterMap_filterMap, mk.injEq]
    refine List.filterMap_congr fun item _ => ?_
    rcases hs : fate? s item.tx with _ | _ | verdict <;>
      rcases ht : fate? t item.tx with _ | _ | other <;> simp [settleItem?, hs, ht]

end Tracker

/-- The progress only keeps maxima, so order and repetition do not matter. -/
theorem Progress.take_lastCounts : LastCounts Progress.take :=
  .of_comm Progress.take_self Progress.take_comm

/-! ## The stream -/

namespace Book

/-- What a report does to the wallet and to the tracked transactions. -/
def takeEffect (state : Wallet × Tracker Transaction) (notice : Notice) :
    Wallet × Tracker Transaction :=
  ({ state.1 with
      ledger := byUpdate Ledger.settled state.1.ledger notice
      progress := state.1.progress.take notice },
    byUpdate Tracker.settle state.2 notice)

theorem takeEffect_lastCounts : LastCounts takeEffect where
  once state notice := by
    simp only [takeEffect, Ledger.settled_lastCounts.byUpdate.once,
      Tracker.settle_lastCounts.byUpdate.once, Progress.take_lastCounts.once]
  later state s t := by
    simp only [takeEffect, Ledger.settled_lastCounts.byUpdate.later,
      Tracker.settle_lastCounts.byUpdate.later, Progress.take_lastCounts.later]

/-- A report is always taken in, whatever becomes of the history. -/
theorem take_eq_ok (history : Option History) (book : Book) (notice : Notice) :
    ∃ next, book.take history notice = .ok next ∧
      (next.wallet, next.tracker) = takeEffect (book.wallet, book.tracker) notice := by
  cases notice with
  | progress highest => exact ⟨_, rfl, rfl⟩
  | transaction update =>
      rw [take, applyNotice_transaction]
      refine ⟨_, rfl, ?_⟩
      rw [record_wallet, record_tracker]
      rfl

/-- A sequence of reports is always taken in, and its effect is the fold of theirs. -/
theorem takeAll_eq_ok (history : Option History) (book : Book) (notices : List Notice) :
    ∃ next, notices.foldlM (take history) book = .ok next ∧
      (next.wallet, next.tracker) = notices.foldl takeEffect (book.wallet, book.tracker) := by
  refine foldlM_eq_ok_of_step (fun _ => True) (fun book : Book => (book.wallet, book.tracker))
    (fun book _ notice => ?_) trivial notices
  obtain ⟨next, hnext, heffect⟩ := take_eq_ok history book notice
  exact ⟨next, hnext, heffect, trivial⟩

/-- **Replay is harmless.** When the last part of the stream, or all of it, is delivered once more,
it is taken in, and the wallet and the tracked transactions stay as they are. -/
theorem take_replay (history : Option History) (book : Book) (before again : List Notice) :
    ∃ once twice, (before ++ again).foldlM (take history) book = .ok once ∧
      again.foldlM (take history) once = .ok twice ∧
      twice.wallet = once.wallet ∧ twice.tracker = once.tracker := by
  obtain ⟨once, honce, hstate⟩ := takeAll_eq_ok history book (before ++ again)
  obtain ⟨twice, htwice, hreplayed⟩ := takeAll_eq_ok history once again
  rw [hstate, List.foldl_append, takeEffect_lastCounts.foldl_foldl (fun _ => id),
    ← List.foldl_append, ← hstate] at hreplayed
  exact ⟨once, twice, honce, htwice, congrArg Prod.fst hreplayed, congrArg Prod.snd hreplayed⟩

end Book

end UtxoWallet
