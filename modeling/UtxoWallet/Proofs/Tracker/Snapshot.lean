import UtxoWallet.Book
import UtxoWallet.Json.RoundTrip
import UtxoWallet.Proofs.Json.Records
import UtxoWallet.Proofs.Results
import UtxoWallet.Tracker.Snapshot
import UtxoWallet.Transaction.RoundTrip

/-! # Persisted lists of tracked transactions are taken up again

The text of a list holds the message of each transaction in hexadecimal, in the order of the list. So
there are three formats, one in the other, and each of them reads back what it writes: then the list
comes back with its transactions in their places, and only the outcomes are gone.

* `Tracker.deserialize_serialize`: for whatever can be tracked, if its messages read back.
* `Tracker.snapshot_keeps_transactions`: for transactions.
-/

namespace UtxoWallet

namespace Tracker

open UtxoWallet.Text

variable {τ : Type} [Trackable τ]

/-- The messages of the tracked transactions, in hexadecimal. -/
def messages (tracker : Tracker τ) : List String :=
  tracker.items.map fun item => Hex.encode (Trackable.toBytes item.tx)

/-- The list as it is taken up again: no outcome is known. -/
def restarted (tracker : Tracker τ) : Tracker τ :=
  ⟨tracker.items.map fun item => ⟨item.tx, none⟩⟩

/-! ## Records -/

theorem toJson_eq (tracker : Tracker τ) :
    tracker.toJson = .record [
      ("version", .text currentVersion), ("transactions", Json.list Json.text tracker.messages)] := by
  rw [toJson, messages, Json.list, Json.list, List.map_map]
  rfl

theorem wireOfJson?_toJson (tracker : Tracker τ) :
    wireOfJson? tracker.toJson = some (currentVersion, tracker.messages) := by
  rw [toJson_eq, wireOfJson?, Json.fields?_record]
  · simp only [List.map_cons, List.map_nil, Option.bind_eq_bind, Option.bind_some,
      Json.required_some, Json.text?_text, Json.list?_list Json.text?_text]
    rfl
  · rfl
  · decide

/-! ## Messages -/

/-- A message that reads back gives its transaction, without an outcome. -/
theorem decodeAt_encode {tx : τ} (h : Trackable.ofBytes (Trackable.toBytes tx) = .ok tx)
    (index : Nat) : decodeAt (Hex.encode (Trackable.toBytes tx)) index = .ok ⟨tx, none⟩ := by
  refine bind_eq_ok.mpr ⟨_, mapError_eq_ok.mpr (Hex.decode_encode _), ?_⟩
  exact bind_eq_ok.mpr ⟨tx, mapError_eq_ok.mpr h, rfl⟩

/-- Each message is read at its place, wherever the list begins. -/
theorem decodeAll_messages {items : List (Tracked τ)}
    (h : ∀ item ∈ items, Trackable.ofBytes (Trackable.toBytes item.tx) = .ok item.tx)
    (start : Nat) :
    ((messages ⟨items⟩).zipIdx start).mapM (fun entry => decodeAt entry.1 entry.2) =
      .ok (restarted ⟨items⟩).items := by
  induction items generalizing start with
  | nil => rfl
  | cons item items ih =>
      rw [List.forall_mem_cons] at h
      rw [messages, List.map_cons, List.zipIdx_cons]
      exact mapM_cons_eq_ok.mpr
        ⟨⟨item.tx, none⟩, _, decodeAt_encode h.1 start, ih h.2 (start + 1), rfl⟩

/-! ## Texts -/

/-- The text of a list does not depend on the outcomes. -/
theorem serialize_restarted (tracker : Tracker τ) :
    tracker.restarted.serialize = tracker.serialize := by
  have same : tracker.restarted.messages = tracker.messages := by
    rw [messages, restarted, List.map_map]
    rfl
  rw [serialize, serialize, toJson_eq, toJson_eq, same]

/-- Whatever is tracked comes back in order, without the outcomes, if its messages read back. -/
theorem deserialize_serialize {tracker : Tracker τ}
    (h : ∀ item ∈ tracker.items, Trackable.ofBytes (Trackable.toBytes item.tx) = .ok item.tx) :
    deserialize tracker.serialize = .ok tracker.restarted := by
  have hwire : (Json.read? tracker.serialize).bind wireOfJson? =
      some (currentVersion, tracker.messages) := by
    rw [serialize, Json.read?_write, Option.bind_some, wireOfJson?_toJson]
  rw [deserialize, hwire]
  show ((tracker.messages.zipIdx).mapM fun entry => decodeAt entry.1 entry.2).map Tracker.mk = _
  rw [decodeAll_messages h]
  rfl

/-- **Nothing tracked is lost at a restart.** Let the lengths inside the tracked transactions fit the
format of messages. Then the text of the list gives back the same transactions in the same order,
each with its outcome unknown; and that list has the same text. -/
theorem snapshot_keeps_transactions {tracker : Tracker Transaction}
    (fits : ∀ item ∈ tracker.items, item.tx.Fits) :
    let again : Tracker Transaction := ⟨tracker.items.map fun item => ⟨item.tx, none⟩⟩
    deserialize tracker.serialize = .ok again ∧ again.serialize = tracker.serialize := by
  constructor
  · exact deserialize_serialize fun item hmem => Transaction.ofBytes_toBytes (fits item hmem)
  · exact serialize_restarted tracker

/-- An empty transaction, a payment that failed, and the same payment once more without an outcome. -/
theorem snapshot_keeps_transactions_of_repeated :
    let token : TokenType := ⟨List.replicate 32 7⟩
    let intent : Intent := ⟨-1, some ⟨[], [⟨Amount.greatest, "bob", token⟩]⟩, .zero⟩
    let tx : Transaction := ⟨"testnet", OrderedMap.empty.insert 300 intent, true⟩
    let tracker : Tracker Transaction :=
      ⟨[⟨⟨"", OrderedMap.empty, false⟩, none⟩, ⟨tx, some ⟨.failure, []⟩⟩, ⟨tx, none⟩]⟩
    let again : Tracker Transaction := ⟨tracker.items.map fun item => ⟨item.tx, none⟩⟩
    (∀ item ∈ tracker.items, item.tx.Fits) ∧ again ≠ tracker ∧
      deserialize tracker.serialize = .ok again ∧ again.serialize = tracker.serialize := by
  intro token intent tx tracker again
  have payment : tx.Fits := by
    refine ⟨by decide, ?_⟩
    intro _ hintent offer hoffer
    cases List.mem_singleton.mp hintent
    cases hoffer
    refine ⟨⟨by decide, nofun⟩, by decide, ?_⟩
    intro output hmem
    cases List.mem_singleton.mp hmem
    exact ⟨by decide, by decide⟩
  have fits : ∀ item ∈ tracker.items, item.tx.Fits := by
    simp only [tracker, List.forall_mem_cons]
    exact ⟨⟨by decide, nofun⟩, payment, payment, nofun⟩
  exact ⟨fits, by decide, snapshot_keeps_transactions fits⟩

end Tracker

end UtxoWallet
