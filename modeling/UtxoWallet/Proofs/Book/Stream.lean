import UtxoWallet.Proofs.Book.Replay

/-! # Taking the stream in is a fold

The stream stops at a shutdown, at the first item that failed on the way, or at its end. Where that is
can be told from the items alone (`Feed.stopPoint`), since every report is taken in. So a run is the
fold of `Book.take` over the reports before that point (`Book.run_eq`), after which the connection is
given up unless there was a shutdown. The history hangs on none of it: `Book.run_eq_fold`.
-/

namespace UtxoWallet

/-! ## Where the stream stops -/

/-- What keeps the wallet from taking more of the stream in. -/
inductive Stop where
  | shutdown
  /-- An item failed on the way. -/
  | failure (error : FeedError)
  /-- There are no more items. -/
  | finish
  deriving DecidableEq

namespace Feed

/-- The reports before the first item that failed. -/
def goodPrefix : List FeedItem → List Notice
  | .ok notice :: rest => notice :: goodPrefix rest
  | .error _ :: _ | [] => []

/-- What went wrong with the first item that failed. -/
def firstError? : List FeedItem → Option FeedError
  | .ok _ :: rest => firstError? rest
  | .error error :: _ => some error
  | [] => none

/-- The reports that are taken in, and what stops the stream behind them, if a shutdown is seen once
`stop` items are handed out. -/
def stopPoint (stop : Option Nat) (items : List FeedItem) : List Notice × Stop :=
  let good := goodPrefix items
  if stop.any (· ≤ good.length) then (good.take (stop.getD 0), .shutdown)
  else (good, (firstError? items).elim .finish .failure)

variable {stop : Option Nat}

theorem stopPoint_zero (items : List FeedItem) : stopPoint (some 0) items = ([], .shutdown) := by
  simp [stopPoint]

theorem stopPoint_nil (h : stop ≠ some 0) : stopPoint stop [] = ([], .finish) := by
  cases stop <;> simp_all [stopPoint, goodPrefix, firstError?]

theorem stopPoint_error (h : stop ≠ some 0) (error : FeedError) (rest : List FeedItem) :
    stopPoint stop (.error error :: rest) = ([], .failure error) := by
  cases stop <;> simp_all [stopPoint, goodPrefix, firstError?]

/-- A notice is taken in before the stream stops, and uses up one step to the shutdown. -/
theorem stopPoint_ok (h : stop ≠ some 0) (notice : Notice) (rest : List FeedItem) :
    stopPoint stop (.ok notice :: rest) =
      (notice :: (stopPoint (stop.map (· - 1)) rest).1, (stopPoint (stop.map (· - 1)) rest).2) := by
  rcases stop with _ | _ | n
  · rfl
  · exact absurd rfl h
  · by_cases hn : n ≤ (goodPrefix rest).length <;> simp [stopPoint, goodPrefix, firstError?, hn]

/-- Items behind the point where the stream stops do not move it. -/
theorem stopPoint_append {items : List FeedItem} (h : (stopPoint stop items).2 ≠ .finish)
    (more : List FeedItem) : stopPoint stop (items ++ more) = stopPoint stop items := by
  induction items generalizing stop with
  | nil =>
      by_cases hstop : stop = some 0
      · rw [hstop, stopPoint_zero, stopPoint_zero]
      · rw [stopPoint_nil hstop] at h
        exact absurd rfl h
  | cons item rest ih =>
      by_cases hstop : stop = some 0
      · rw [hstop, stopPoint_zero, stopPoint_zero]
      · cases item with
        | error error =>
            rw [List.cons_append, stopPoint_error hstop, stopPoint_error hstop]
        | ok notice =>
            rw [stopPoint_ok hstop] at h
            rw [List.cons_append, stopPoint_ok hstop, stopPoint_ok hstop, ih h]

theorem mem_of_firstError? {items : List FeedItem} {error : FeedError}
    (h : firstError? items = some error) : .error error ∈ items := by
  induction items with
  | nil => cases h
  | cons item rest ih =>
      cases item with
      | ok notice => exact List.mem_cons_of_mem _ (ih h)
      | error other =>
          cases h
          exact List.mem_cons_self

/-- An item that failed stops the stream only if it is one of the items. -/
theorem mem_of_failure {items : List FeedItem} {error : FeedError}
    (h : (stopPoint stop items).2 = .failure error) : .error error ∈ items := by
  simp only [stopPoint] at h
  split at h
  · cases h
  · cases hfirst : firstError? items with
    | none =>
        rw [hfirst] at h
        cases h
    | some other =>
        rw [hfirst] at h
        cases h
        exact mem_of_firstError? hfirst

end Feed

/-! ## Runs -/

namespace Stop

/-- What a run answers. -/
def outcome : Stop → Except FeedError Unit
  | .failure error => .error error
  | .shutdown | .finish => .ok ()

theorem outcome_eq_error {stop : Stop} {error : FeedError} :
    stop.outcome = .error error ↔ stop = .failure error := by
  cases stop <;> simp [outcome]

/-- What a run leaves behind. -/
def leave (book : Book) : Stop → Book
  | .shutdown => book
  | .failure _ | .finish => book.disconnect

end Stop

namespace Book

theorem disconnect_wallet (book : Book) : book.disconnect.wallet = book.wallet.disconnect := by
  rw [disconnect]
  split
  · rfl
  · next down =>
      rw [Wallet.disconnect, Progress.disconnect_of_down down]

theorem disconnect_tracker (book : Book) : book.disconnect.tracker = book.tracker := by
  rw [disconnect]
  split <;> rfl

theorem leave_tracker (book : Book) (stop : Stop) : (stop.leave book).tracker = book.tracker := by
  cases stop with
  | shutdown => rfl
  | failure error => exact book.disconnect_tracker
  | finish => exact book.disconnect_tracker

/-- A shutdown leaves the connection as it is; all other ends lose it. -/
theorem leave_wallet (book : Book) (stop : Stop) :
    (stop.leave book).wallet =
      if stop = .shutdown then book.wallet else book.wallet.disconnect := by
  cases stop with
  | shutdown => rfl
  | failure error => exact book.disconnect_wallet
  | finish => exact book.disconnect_wallet

section Runs

theorem run_zero (history : Option History) (book : Book) (items : List FeedItem) :
    book.run history (some 0) items = (.ok (), book) := by
  rw [run]

/-- A report that is taken in is one step of the stream. -/
theorem run_ok {history : Option History} {stop : Option Nat} (hstop : stop ≠ some 0)
    {book next : Book} {notice : Notice} (h : book.take history notice = .ok next)
    (rest : List FeedItem) :
    book.run history stop (.ok notice :: rest) = next.run history (stop.map (· - 1)) rest := by
  rw [run]
  · rw [h]
  · exact hstop

variable (history : Option History) (stop : Option Nat) (book : Book) (items : List FeedItem)

/-- **A run is a fold.** It takes in the reports before the point where it stops, one after the
other, and answers and leaves what that point says. -/
theorem run_eq :
    ∃ folded, (Feed.stopPoint stop items).1.foldlM (take history) book = .ok folded ∧
      book.run history stop items = ((Feed.stopPoint stop items).2.outcome,
        (Feed.stopPoint stop items).2.leave folded) := by
  induction items generalizing stop book with
  | nil =>
      -- A shutdown is seen before the next item, and before the end of the stream.
      by_cases hstop : stop = some 0
      · rw [hstop, Feed.stopPoint_zero, run_zero]
        exact ⟨book, rfl, rfl⟩
      · rw [Feed.stopPoint_nil hstop, run]
        · exact ⟨book, rfl, rfl⟩
        · exact hstop
  | cons item rest ih =>
      by_cases hstop : stop = some 0
      · rw [hstop, Feed.stopPoint_zero, run_zero]
        exact ⟨book, rfl, rfl⟩
      · cases item with
        | error error =>
            rw [Feed.stopPoint_error hstop, run]
            · exact ⟨book, rfl, rfl⟩
            · exact hstop
        | ok notice =>
            obtain ⟨next, hnext, -⟩ := take_eq_ok history book notice
            obtain ⟨folded, hfolded, hrun⟩ := ih (stop.map (· - 1)) next
            rw [Feed.stopPoint_ok hstop, run_ok hstop hnext rest]
            exact ⟨folded, foldlM_cons_eq_ok.mpr ⟨next, hnext, hfolded⟩, hrun⟩

/-- What a run leaves of the wallet and of the tracked transactions can be told from the reports
alone. -/
theorem run_effect :
    let state := (Feed.stopPoint stop items).1.foldl takeEffect (book.wallet, book.tracker)
    (book.run history stop items).1 = (Feed.stopPoint stop items).2.outcome ∧
      (book.run history stop items).2.wallet = (if (Feed.stopPoint stop items).2 = .shutdown
        then state.1 else state.1.disconnect) ∧
      (book.run history stop items).2.tracker = state.2 := by
  obtain ⟨folded, hfolded, hrun⟩ := run_eq history stop book items
  obtain ⟨next, hnext, hstate⟩ := takeAll_eq_ok history book (Feed.stopPoint stop items).1
  rw [hfolded] at hnext
  cases hnext
  rw [hrun, ← hstate]
  exact ⟨rfl, leave_wallet folded _, leave_tracker folded _⟩

/-- **Taking the stream in is a fold.** Whatever the items, and wherever a shutdown is seen:

* a run takes in the reports before the point where it stops, which always goes well, and it fails
  with the item that failed if that is what stops it;
* the connection stays as the reports left it on a shutdown, and is given up otherwise;
* another history, one that refuses or stalls, or none at all, makes no difference to the outcome,
  the wallet and the tracked transactions;
* items behind the point where the stream stops do nothing. -/
theorem run_eq_fold :
    (∃ folded, (Feed.stopPoint stop items).1.foldlM (take history) book = .ok folded ∧
      book.run history stop items = ((Feed.stopPoint stop items).2.outcome,
        (Feed.stopPoint stop items).2.leave folded) ∧
      (book.run history stop items).2.wallet.progress.connected =
        (if (Feed.stopPoint stop items).2 = .shutdown then folded.wallet.progress.connected
          else false)) ∧
    (∀ other : Option History,
      (book.run other stop items).1 = (book.run history stop items).1 ∧
      (book.run other stop items).2.wallet = (book.run history stop items).2.wallet ∧
      (book.run other stop items).2.tracker = (book.run history stop items).2.tracker) ∧
    ∀ more : List FeedItem, (Feed.stopPoint stop items).2 ≠ .finish →
      book.run history stop (items ++ more) = book.run history stop items := by
  refine ⟨?_, fun other => ?_, fun more h => ?_⟩
  · obtain ⟨folded, hfolded, hrun⟩ := run_eq history stop book items
    refine ⟨folded, hfolded, hrun, ?_⟩
    rw [hrun, leave_wallet]
    split <;> rfl
  · have here := run_effect history stop book items
    have there := run_effect other stop book items
    exact ⟨there.1.trans here.1.symm, there.2.1.trans here.2.1.symm,
      there.2.2.trans here.2.2.symm⟩
  · obtain ⟨folded, hfolded, hrun⟩ := run_eq history stop book items
    obtain ⟨other, hother, hmore⟩ := run_eq history stop book (items ++ more)
    rw [Feed.stopPoint_append h] at hother hmore
    rw [hfolded] at hother
    cases hother
    rw [hmore, hrun]

/-- A history stalls, and the second item fails: what was reported first stays, the report behind the
failure is lost. -/
theorem run_eq_fold_of_failure :
    let book := openWith (Wallet.start "pk" "net") default .fresh
    let stalling : History := { timeout := 5000, reply := fun _ _ => .stalled }
    let created : Update := ⟨7, OrderedMap.empty, [Coin.ofValue ⟨10, by decide⟩], [], .success, []⟩
    let later : List FeedItem := [.ok (.progress 40)]
    let items : List FeedItem := [.ok (.progress 9), .ok (.transaction created),
      .error (.transport "reset by peer")]
    (Feed.stopPoint none items).2 ≠ .finish ∧
      (book.run (some stalling) none (items ++ later)).1 = .error (.transport "reset by peer") ∧
      (book.run none none (items ++ later)).2.wallet.progress = ⟨some 7, 9, false⟩ := by
  intro book stalling created later items
  have stops : (Feed.stopPoint none items).2 ≠ .finish := by decide
  have behind := (run_eq_fold (some stalling) none book items).2.2 later stops
  have same := (run_eq_fold (some stalling) none book (items ++ later)).2.1 none
  refine ⟨stops, ?_, ?_⟩
  · rw [behind]
    rfl
  · rw [same.2.1, behind]
    rfl

end Runs

/-- A run fails with what went wrong on the way, and with nothing else. -/
theorem mem_of_run_error {history : Option History} {stop : Option Nat} {book : Book}
    {items : List FeedItem} {error : FeedError}
    (h : (book.run history stop items).1 = .error error) : .error error ∈ items := by
  obtain ⟨folded, -, hrun⟩ := run_eq history stop book items
  rw [hrun] at h
  exact Feed.mem_of_failure (Stop.outcome_eq_error.mp h)

end Book

end UtxoWallet
