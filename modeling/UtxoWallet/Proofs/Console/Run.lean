import UtxoWallet.Proofs.Console.Atomic
import UtxoWallet.Proofs.Transaction.Bytes

/-! # Runs of the console

From its start on, the console tracks only transactions that it has made itself, each of intents with
bindings of their own from the supply, which outlives the sessions. What a command submits has bindings
that have not been drawn before. So its identifiers are new, unless hashes collide or the supply runs
out: `Console.fresh_after_run`.
-/

namespace UtxoWallet

/-! ## Bindings -/

/-- The binding of an intent was drawn when at least `first` were drawn already, and less than
`last`. -/
def Intent.DrawnIn (intent : Intent) (draw : Nat → Binding) (first last : Nat) : Prop :=
  ∃ n, first ≤ n ∧ n < last ∧ intent.binding = draw n

/-- A transaction of at least one intent, all of whose bindings were drawn in between. -/
structure Transaction.DrawnIn (tx : Transaction) (draw : Nat → Binding) (first last : Nat) :
    Prop where
  intents : tx.intents.entries ≠ []
  drawn : ∀ intent ∈ tx.intents.values, intent.DrawnIn draw first last

theorem Intent.DrawnIn.mono {intent : Intent} {draw : Nat → Binding}
    {first last first' last' : Nat} (h : intent.DrawnIn draw first last) (hfirst : first' ≤ first)
    (hlast : last ≤ last') : intent.DrawnIn draw first' last' := by
  obtain ⟨n, hn, hlt, hbinding⟩ := h
  exact ⟨n, Nat.le_trans hfirst hn, Nat.lt_of_lt_of_le hlt hlast, hbinding⟩

theorem Transaction.DrawnIn.mono {tx : Transaction} {draw : Nat → Binding}
    {first last first' last' : Nat} (h : tx.DrawnIn draw first last) (hfirst : first' ≤ first)
    (hlast : last ≤ last') : tx.DrawnIn draw first' last' :=
  ⟨h.intents, fun intent hmem => (h.drawn intent hmem).mono hfirst hlast⟩

/-- Numbers that fit six bytes have bindings of their own. -/
theorem Binding.numbered_injective {m n : Nat} (hm : m < Nat.pow 256 6) (hn : n < Nat.pow 256 6)
    (h : Binding.numbered m = Binding.numbered n) : m = n := by
  have hbytes := List.append_cancel_left (congrArg Binding.bytes h)
  rw [← Wire.ofLittleEndian_littleEndian hm, ← Wire.ofLittleEndian_littleEndian hn,
    List.reverse_injective hbytes]

/-- The hashed bytes of an intent tell its binding, whatever the lengths in it. -/
theorem Intent.binding_eq_of_hashedBytes_eq {a b : Intent} (h : a.hashedBytes = b.hashedBytes) :
    a.binding = b.binding := by
  simp only [hashedBytes, List.append_assoc] at h
  have hlength := a.binding.length_eq.trans b.binding.length_eq.symm
  exact Binding.bytes_injective (List.append_inj (List.append_cancel_left h) hlength).1

/-! ## What a payment draws -/

/-- The intent that balancing adds has the binding that is drawn for it. -/
theorem Wallet.balance_draws {wallet wallet' : Wallet} {native : TokenType} {fees : Fees}
    {ttl : Instant} {tx balanced : Transaction} {bindings bindings' : BindingSource}
    (h : wallet.balance native fees ttl tx bindings = (.ok (balanced, wallet'), bindings')) :
    ∃ added : List (UInt16 × Intent), balanced.intents.entries = tx.intents.entries ++ added ∧
      ∀ entry ∈ added, entry.2.DrawnIn bindings.draw bindings.drawn bindings'.drawn := by
  rw [balance] at h
  split at h
  · cases h
  · split at h
    · cases h
      exact ⟨[], (List.append_nil _).symm, fun _ hmem => absurd hmem List.not_mem_nil⟩
    · obtain ⟨hcommit, hrest⟩ := Prod.mk.inj h
      obtain ⟨happend, -⟩ := commit_eq_ok hcommit
      obtain ⟨segment, hentries⟩ := Transaction.withIntent_eq_ok happend
      refine ⟨_, hentries, fun entry hmem => ?_⟩
      rw [List.mem_singleton.mp hmem, ← hrest]
      exact ⟨bindings.drawn, Nat.le_refl _, Nat.lt_succ_self _, rfl⟩

theorem Wallet.balance_bindings (wallet : Wallet) (native : TokenType) (fees : Fees)
    (ttl : Instant) (tx : Transaction) (bindings : BindingSource) :
    let bindings' := (wallet.balance native fees ttl tx bindings).2
    bindings'.draw = bindings.draw ∧ bindings.drawn ≤ bindings'.drawn ∧
      bindings'.drawn ≤ bindings.drawn + 1 := by
  rw [balance]
  split
  · exact ⟨rfl, Nat.le_refl _, Nat.le_succ _⟩
  · split
    · exact ⟨rfl, Nat.le_refl _, Nat.le_succ _⟩
    · exact ⟨rfl, Nat.le_succ _, Nat.le_refl _⟩

namespace Book

variable {book next : Book} {terms : Terms} {services : Services} {tx : Transaction}

theorem complete_draws {ttl : Instant} {proven : Transaction}
    (prover : ∀ given proven, services.prove given = .ok proven → proven.intents = given.intents)
    (h : book.complete terms services ttl tx = (.ok proven, next)) :
    ∃ added : List (UInt16 × Intent), proven.intents.entries = tx.intents.entries ++ added ∧
      ∀ entry ∈ added,
        entry.2.DrawnIn book.bindings.draw book.bindings.drawn next.bindings.drawn := by
  have hbindings := (complete_rest terms services ttl book tx).2
  rw [h] at hbindings
  rw [complete] at h
  rcases hb : book.balance terms ttl tx with ⟨failure | balanced, drawn⟩
  · rw [hb] at h
    cases h
  · rw [hb] at h
    dsimp only at h
    obtain ⟨bindings, hwallet⟩ := balance_eq_ok hb
    obtain ⟨added, hentries, hadded⟩ := Wallet.balance_draws hwallet
    rw [hwallet] at hbindings
    rw [proveOrRevert] at h
    split at h
    · next marked hprove =>
        obtain ⟨hmarked, -⟩ := Prod.mk.inj h
        rw [Except.ok.inj hmarked] at hprove
        -- The prover leaves the intents alone, so they are those of the balanced transaction.
        rw [prover balanced proven (mapError_eq_ok.mp hprove), hbindings]
        exact ⟨added, hentries, hadded⟩
    · cases h

/-- A payment draws a binding for itself, and one more at most to balance it. -/
theorem transfer_bindings (book : Book) (terms : Terms) (services : Services)
    (outputs : List Output) (ttl : Option Instant) :
    let next := (book.transfer terms services outputs ttl).2
    next.bindings.draw = book.bindings.draw ∧ book.bindings.drawn < next.bindings.drawn ∧
      next.bindings.drawn ≤ book.bindings.drawn + 2 := by
  rw [transfer]
  dsimp only
  rw [(complete_rest _ _ _ _ _).2]
  exact Wallet.balance_bindings _ _ _ _ _ book.bindings.rest

/-- The transaction of a payment has the bindings that the payment draws. -/
theorem transfer_draws {outputs : List Output} {ttl : Option Instant}
    (prover : ∀ given proven, services.prove given = .ok proven → proven.intents = given.intents)
    (h : book.transfer terms services outputs ttl = (.ok tx, next)) :
    tx.DrawnIn book.bindings.draw book.bindings.drawn next.bindings.drawn := by
  have hdrawn := transfer_bindings book terms services outputs ttl
  rw [h] at hdrawn
  rw [transfer] at h
  obtain ⟨added, hentries, hadded⟩ := complete_draws prover h
  constructor
  · rw [hentries]
    exact List.append_ne_nil_of_left_ne_nil (List.cons_ne_nil _ _) _
  · intro intent hmem
    rw [OrderedMap.values, hentries, List.map_append] at hmem
    rcases List.mem_append.mp hmem with hown | hmem
    · rw [List.mem_singleton.mp hown]
      exact ⟨book.bindings.drawn, Nat.le_refl _, hdrawn.2.1, rfl⟩
    · obtain ⟨entry, hentry, rfl⟩ := List.mem_map.mp hmem
      exact (hadded entry hentry).mono (Nat.le_succ _) (Nat.le_refl _)

/-! ## What is tracked -/

/-- A book goes on to another, with the same supply: what is tracked then was tracked before, or is
made of intents with bindings that were drawn on the way. -/
structure Evolves (before after : Book) : Prop where
  draw : after.bindings.draw = before.bindings.draw
  drawn : before.bindings.drawn ≤ after.bindings.drawn
  tracked : ∀ tx ∈ after.tracker.txs, tx ∈ before.tracker.txs ∨
    tx.DrawnIn before.bindings.draw before.bindings.drawn after.bindings.drawn

namespace Evolves

theorem of_subset {before after : Book} (hbindings : after.bindings = before.bindings)
    (htracked : ∀ tx ∈ after.tracker.txs, tx ∈ before.tracker.txs) : Evolves before after :=
  ⟨congrArg BindingSource.draw hbindings,
    Nat.le_of_eq (congrArg BindingSource.drawn hbindings.symm),
    fun tx hmem => .inl (htracked tx hmem)⟩

theorem refl (book : Book) : Evolves book book :=
  of_subset rfl fun _ => id

theorem trans {a b c : Book} (hab : Evolves a b) (hbc : Evolves b c) : Evolves a c := by
  refine ⟨hbc.draw.trans hab.draw, Nat.le_trans hab.drawn hbc.drawn, fun tx hmem => ?_⟩
  rcases hbc.tracked tx hmem with hmem | hdrawn
  · exact (hab.tracked tx hmem).imp_right fun h => h.mono (Nat.le_refl _) hbc.drawn
  · rw [hab.draw] at hdrawn
    exact .inr (hdrawn.mono hab.drawn (Nat.le_refl _))

end Evolves

theorem abandon_evolves (services : Services) (book : Book) (tx : Transaction) :
    book.Evolves (book.abandon services tx) := by
  obtain ⟨wallet, journal, hrevert⟩ := exists_revertEverywhere_eq services book tx
  rw [abandon, hrevert]
  exact .of_subset rfl fun other => Tracker.mem_txs_of_clear

theorem expireStale_evolves (services : Services) (book : Book) :
    book.Evolves (book.expireStale services).2 := by
  show book.Evolves ((book.tracker.expired services.now).foldl (abandon services) book)
  generalize book.tracker.expired services.now = txs
  induction txs generalizing book with
  | nil => exact .refl book
  | cons tx txs ih => exact (abandon_evolves services book tx).trans (ih _)

theorem take_evolves {notice : Notice} (h : book.take none notice = .ok next) :
    book.Evolves next := by
  cases notice with
  | progress highest =>
      cases h
      exact .of_subset rfl fun _ => id
  | transaction update =>
      rw [take, applyNotice_transaction] at h
      cases h
      exact .of_subset rfl fun _ => Tracker.mem_txs_of_settle

/-- A payment tracks nothing yet. -/
theorem transfer_evolves (book : Book) (terms : Terms) (services : Services)
    (outputs : List Output) (ttl : Option Instant) :
    book.Evolves (book.transfer terms services outputs ttl).2 := by
  obtain ⟨hdraw, hdrawn, -⟩ := transfer_bindings book terms services outputs ttl
  refine ⟨hdraw, Nat.le_of_lt hdrawn, fun tx hmem => .inl ?_⟩
  rwa [transfer_tracker] at hmem

/-- A submission tracks what it submits at most. -/
theorem submit_tracks (terms : Terms) (services : Services) (book : Book) (tx : Transaction) :
    (book.submit terms services tx).2.bindings = book.bindings ∧
      ∀ other ∈ (book.submit terms services tx).2.tracker.txs,
        other ∈ book.tracker.txs ∨ other = tx := by
  rw [submit]
  split
  · exact ⟨rfl, fun _ => Tracker.mem_txs_of_add⟩
  · dsimp only
    obtain ⟨wallet, journal, hrevert⟩ := exists_revertEverywhere_eq services
      (((book.track tx).note (.submitted tx.toBytes)).note
        (.waited (min (services.submit tx.toBytes).delay terms.submissionTimeout))) tx
    rw [abandon, hrevert]
    exact ⟨rfl, fun _ hmem => Tracker.mem_txs_of_add (Tracker.mem_txs_of_clear hmem)⟩

end Book

/-! ## Commands -/

namespace Console

/-- A transfer tracks what it has made itself at most. -/
theorem handleTransfer_evolves (now : Instant) (state : State) (session : Session)
    (outputs : List Output) (ttl : Option Instant) (reject : Bool) :
    ∃ book, (handleTransfer now state session outputs ttl reject).2 = state.withBook session book ∧
      session.book.Evolves book := by
  have paying := Book.transfer_evolves session.book session.settings.terms (services now reject)
    outputs ttl
  rw [handleTransfer]
  rcases hpay : session.book.transfer session.settings.terms (services now reject) outputs ttl with
    ⟨failure | tx, paid⟩
  · rw [hpay] at paying
    exact ⟨paid, rfl, paying⟩
  · rw [hpay] at paying
    have drawn := Book.transfer_draws markProven_intents hpay
    obtain ⟨hbindings, htracked⟩ :=
      Book.submit_tracks session.settings.terms (services now reject) paid tx
    -- What is tracked at the end was tracked before, or is the payment itself.
    have evolved : session.book.Evolves
        (paid.submit session.settings.terms (services now reject) tx).2 := by
      refine ⟨hbindings ▸ paying.draw, hbindings ▸ paying.drawn, fun other hmem => ?_⟩
      rw [hbindings]
      rcases htracked other hmem with hmem | rfl
      · exact paying.tracked other hmem
      · exact .inr drawn
    dsimp only
    rcases hsubmit : paid.submit session.settings.terms (services now reject) tx with
      ⟨failure | stage, submitted⟩
    · rw [hsubmit] at evolved
      exact ⟨submitted, rfl, evolved⟩
    · rw [hsubmit] at evolved
      exact ⟨submitted, rfl, evolved⟩

/-- How a session comes out of a state of the console: it is new, draws from the supply that is there,
and tracks nothing, or it goes on. -/
def Session.Follows (session : Session) (state : State) : Prop :=
  session.book.bindings = state.bindings ∧ session.book.tracker.items = [] ∨
    ∃ before ∈ state.session, before.book.Evolves session.book

theorem follows_none {state : State} :
    ∀ session ∈ (none : Option Session), session.Follows state := by
  rintro _ ⟨⟩

theorem follows_self {state : State} : ∀ session ∈ state.session, session.Follows state :=
  fun session hmem => .inr ⟨session, hmem, .refl session.book⟩

theorem follows_openSession {state : State} {settings : Settings} {wallet : Wallet} :
    ∀ session ∈ (state.openSession settings wallet).session, session.Follows state := by
  rintro _ ⟨⟩
  exact .inl ⟨rfl, rfl⟩

theorem follows_withBook {state : State} {before : Session} {book : Book}
    (hmem : before ∈ state.session) (evolved : before.book.Evolves book) :
    ∀ session ∈ (state.withBook before book).session, session.Follows state := by
  rintro _ ⟨⟩
  exact .inr ⟨before, hmem, evolved⟩

/-- **One step.** After any command the session is new, or goes on from the one before. -/
theorem handle_follows (now : Instant) (state : State) (command : Command) :
    ∀ session ∈ (handle now state command).2.session, session.Follows state := by
  obtain ⟨base, session⟩ := state
  cases command with
  | init owner network native inputFee outputFee =>
      show ∀ session ∈ (handleInit _ owner network native inputFee outputFee).2.session, _
      rw [handleInit]
      split
      · exact follows_self
      · exact follows_openSession
  | shutdown => exact follows_none
  | balances | serializeState | pending =>
      cases session <;> exact follows_self
  | applyUpdate notice =>
      cases session with
      | none => exact follows_none
      | some before =>
          show ∀ session ∈ (handleUpdate _ before notice).2.session, _
          rw [handleUpdate]
          split
          · exact follows_self
          · next book htake => exact follows_withBook rfl (Book.take_evolves htake)
  | transfer outputs ttl reject =>
      cases session with
      | none => exact follows_none
      | some before =>
          obtain ⟨book, hstate, evolved⟩ := handleTransfer_evolves now ⟨base, some before⟩ before
            outputs ttl reject
          show ∀ session ∈ (handleTransfer _ _ before outputs ttl reject).2.session, _
          rw [hstate]
          exact follows_withBook rfl evolved
  | expireStale pinned =>
      cases session with
      | none => exact follows_none
      | some before =>
          exact follows_withBook rfl (Book.expireStale_evolves (services (pinned.getD now) false) _)
  | restoreState text =>
      cases session with
      | none => exact follows_none
      | some before =>
          show ∀ session ∈ (handleRestore _ before text).2.session, _
          rw [handleRestore]
          split
          · exact follows_self
          · exact follows_openSession

/-! ## Runs -/

/-- The console after some commands, each at its time. -/
def State.after (state : State) (commands : List (Instant × Command)) : State :=
  commands.foldl (fun state entry => (handle entry.1 state entry.2).2) state

/-- The supply is that of numbered bindings, and all that is tracked is made of intents with bindings
from it. -/
structure Session.Own (session : Session) : Prop where
  draw : session.book.bindings.draw = BindingSource.fresh.draw
  tracked : ∀ tx ∈ session.book.tracker.txs,
    tx.DrawnIn BindingSource.fresh.draw 0 session.book.bindings.drawn

/-- The supply of numbered bindings outlives the sessions. -/
theorem State.draw_bindings {state : State} (own : ∀ session ∈ state.session, session.Own) :
    state.bindings.draw = BindingSource.fresh.draw := by
  obtain ⟨base, session⟩ := state
  cases session with
  | none => rfl
  | some session => exact (own session rfl).draw

theorem Session.Own.of_follows {session : Session} {state : State}
    (own : ∀ before ∈ state.session, before.Own) (h : session.Follows state) : session.Own := by
  rcases h with ⟨hbindings, hnew⟩ | ⟨before, hbefore, evolved⟩
  · constructor
    · rw [hbindings]
      exact state.draw_bindings own
    · intro tx hmem
      rw [Tracker.txs, hnew] at hmem
      cases hmem
  · obtain ⟨hdraw, htracked⟩ := own before hbefore
    refine ⟨evolved.draw.trans hdraw, fun tx hmem => ?_⟩
    rcases evolved.tracked tx hmem with hold | hdrawn
    · exact (htracked tx hold).mono (Nat.le_refl _) evolved.drawn
    · rw [hdraw] at hdrawn
      exact hdrawn.mono (Nat.zero_le _) (Nat.le_refl _)

/-- **A run.** Every session tracks only what the console has made itself. -/
theorem own_after {state : State} (own : ∀ session ∈ state.session, session.Own)
    (commands : List (Instant × Command)) :
    ∀ session ∈ (state.after commands).session, session.Own := by
  induction commands generalizing state with
  | nil => exact own
  | cons entry commands ih =>
      refine ih fun session hmem => ?_
      exact .of_follows own (handle_follows entry.1 state entry.2 session hmem)

/-- What a command submits has bindings that had not been drawn before. -/
theorem drawn_of_payment? {session : Session} {now : Instant} {command : Command}
    {tx : Transaction} (h : tx ∈ session.payment? now command) :
    tx.DrawnIn session.book.bindings.draw session.book.bindings.drawn
      (session.book.bindings.drawn + 2) := by
  cases command with
  | transfer outputs ttl reject =>
      rw [Session.payment?] at h
      rcases hpay : session.book.transfer session.settings.terms (services now reject) outputs ttl
        with ⟨failure | made, paid⟩
      · rw [hpay] at h
        cases h
      · have hdrawn := Book.transfer_bindings session.book session.settings.terms
          (services now reject) outputs ttl
        rw [hpay] at h hdrawn
        cases h
        exact (Book.transfer_draws markProven_intents hpay).mono (Nat.le_refl _) hdrawn.2.2
  | _ => cases h

/-- **New identifiers.** In a run of the console whose supply of bindings does not run out, the tracked
transactions have intents, and what a command submits has no identifier of theirs, if no hash of its
intents collides with that of a tracked one. -/
theorem fresh_after_run {base : Settings} {commands : List (Instant × Command)} {session : Session}
    (reached : session ∈ ((start base).after commands).session)
    (left : session.book.bindings.drawn + 2 < Nat.pow 256 6) {now : Instant} {command : Command}
    (collisionFree : ∀ tx ∈ session.payment? now command, ∀ item ∈ session.book.tracker.items,
      ∀ a ∈ tx.intents.values, ∀ b ∈ item.tx.intents.values,
        a.hash = b.hash → a.hashedBytes = b.hashedBytes) :
    (∀ item ∈ session.book.tracker.items, item.tx.intents.entries ≠ []) ∧
      session.Fresh now command := by
  have start_own : ∀ session ∈ (start base).session, session.Own := nofun
  have own := own_after start_own commands session reached
  constructor
  · intro item hitem
    exact (own.tracked item.tx (List.mem_map_of_mem hitem)).intents
  · intro tx htx item hitem id hid hid'
    obtain ⟨a, ha, rfl⟩ := List.mem_map.mp (OrderedSet.contains_ofList_iff.mp hid)
    obtain ⟨b, hb, hhex⟩ := List.mem_map.mp (OrderedSet.contains_ofList_iff.mp hid')
    have hhash := Intent.hash_eq_of_hex_eq hhex.symm
    have hbytes := collisionFree tx htx item hitem a ha b hb hhash
    -- One binding has been drawn already, the other has not.
    obtain ⟨m, hm, hm', hma⟩ := (drawn_of_payment? htx).drawn a ha
    obtain ⟨n, -, hn, hnb⟩ := (own.tracked item.tx (List.mem_map_of_mem hitem)).drawn b hb
    have hbinding := Intent.binding_eq_of_hashedBytes_eq hbytes
    rw [hma, hnb, own.draw] at hbinding
    have same := Binding.numbered_injective (by omega) (by omega) hbinding
    omega

end Console

end UtxoWallet
