import Mathlib.Data.List.Nodup
import UtxoWallet.Proofs.Selection.Worth
import UtxoWallet.Transaction.Identity

/-! # The outputs that a transaction creates

An intent names its outputs by their places, each by one of its own (`Intent.nodup_keys_created`). A
place has 32 bits: outputs behind the last place have no name, so no update can report them. What an
intent creates, and what it leaves unnamed, is worth as much as its outputs (`Intent.worth_created`).
-/

namespace UtxoWallet

namespace Intent

/-- The outputs behind the last place. -/
def unnamed (intent : Intent) : List Output :=
  intent.outputs.drop UInt32.size

/-- The created coins are the outputs in order, as far as 32 bits can number them. -/
theorem toOutput_created (intent : Intent) :
    intent.created.map (·.toOutput) = intent.outputs.take UInt32.size := by
  rw [created, List.map_map]
  exact List.zipIdx_map_fst 0 _

/-- The keys of the created coins: the hash of the intent, with the places from 0 on. -/
theorem keys_created (intent : Intent) :
    intent.created.map (·.key) = (List.range (intent.outputs.take UInt32.size).length).map
      fun place => ⟨intent.hash, UInt32.ofNat place⟩ := by
  rw [created, List.map_map, List.range_eq_range', ← List.zipIdx_map_snd 0, List.map_map]
  rfl

/-- No two coins of one intent share a key. -/
theorem nodup_keys_created (intent : Intent) : (intent.created.map (·.key)).Nodup := by
  rw [keys_created]
  refine List.Nodup.map_on ?_ List.nodup_range
  have fits : ∀ place ∈ List.range (intent.outputs.take UInt32.size).length,
      place < UInt32.size := by
    intro place hmem
    rw [List.mem_range, List.length_take] at hmem
    exact Nat.lt_of_lt_of_le hmem (Nat.min_le_left _ _)
  intro a ha b hb same
  have hplace : UInt32.ofNat a = UInt32.ofNat b := congrArg UtxoKey.outputNo same
  rw [← UInt32.toNat_ofNat_of_lt' (fits a ha), hplace, UInt32.toNat_ofNat_of_lt' (fits b hb)]

theorem toOutput_mem_of_mem_created {intent : Intent} {utxo : Utxo} (h : utxo ∈ intent.created) :
    utxo.toOutput ∈ intent.outputs := by
  have hmem : utxo.toOutput ∈ intent.created.map (·.toOutput) := List.mem_map_of_mem h
  rw [toOutput_created] at hmem
  exact List.mem_of_mem_take hmem

/-- What an intent pays out goes to coins, or to outputs that no key can name. -/
theorem worth_created (intent : Intent) (token : TokenType) :
    worth token intent.created + worth token intent.unnamed = worth token intent.outputs := by
  rw [← worth_map (f := Utxo.toOutput) (fun _ => rfl) (fun _ => rfl) token intent.created,
    toOutput_created, unnamed, ← worth_append, List.take_append_drop]

/-- The same holds of several intents together. -/
theorem worth_created_all (token : TokenType) (intents : List Intent) :
    worth token (intents.flatMap created) + worth token (intents.flatMap unnamed) =
      worth token (intents.flatMap outputs) := by
  induction intents with
  | nil => rfl
  | cons intent intents ih =>
      have hintent := intent.worth_created token
      simp only [List.flatMap_cons, worth_append]
      omega

end Intent

namespace Transaction

/-- The outputs of a transaction that have no name. -/
def unnamed (tx : Transaction) : List Output :=
  tx.intents.values.flatMap Intent.unnamed

/-- If no intent has more outputs than 32 bits can number, every output becomes a coin. -/
theorem unnamed_eq_nil {tx : Transaction}
    (fits : ∀ intent ∈ tx.intents.values, intent.outputs.length ≤ UInt32.size) :
    tx.unnamed = [] := by
  rw [unnamed, List.flatMap_eq_nil_iff]
  intro intent hmem
  exact List.drop_eq_nil_of_le (fits intent hmem)

end Transaction

end UtxoWallet
