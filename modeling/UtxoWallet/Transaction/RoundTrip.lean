import UtxoWallet.Transaction.Message
import UtxoWallet.Wire.Spelling

/-!
# Messages read back

The message of a transaction spells it (`Transaction.spells_encode`): reading the message gives the
transaction again, and a message with anything behind it, or cut short, is refused. The lengths of
all lists and texts have to fit 64 bits, as the format requires.
-/

namespace UtxoWallet

open UtxoWallet.Text UtxoWallet.Wire

/-! ### Lengths -/

def Output.Fits (output : Output) : Prop :=
  (utf8 output.owner).length < UInt64.size ∧ output.token.bytes.length < UInt64.size

def Utxo.Fits (utxo : Utxo) : Prop :=
  utxo.toOutput.Fits ∧ utxo.key.intentHash.bytes.length < UInt64.size

def Offer.Fits (offer : Offer) : Prop :=
  (offer.inputs.length < UInt64.size ∧ ∀ utxo ∈ offer.inputs, utxo.Fits) ∧
    offer.outputs.length < UInt64.size ∧ ∀ output ∈ offer.outputs, output.Fits

/-- The lengths inside a transaction fit the format. Its intents are never too many, as each has a
segment of its own. -/
def Transaction.Fits (tx : Transaction) : Prop :=
  (utf8 tx.network).length < UInt64.size ∧
    ∀ intent ∈ tx.intents.values, ∀ offer ∈ intent.offer, offer.Fits

/-! ### Parts of a message -/

theorem Output.spells_encode {output : Output} (h : output.Fits) :
    Spells decode output.encode output := by
  have value : (⟨output.value.toNat % Amount.size, Nat.mod_lt _ (by decide)⟩ : Amount) = output.value :=
    Amount.toNat_injective (Nat.mod_eq_of_lt output.value.isLt)
  rw [encode, List.append_assoc]
  refine (@spells_encodeNat 16 _ output.value.isLt rfl).bind ?_
  refine (spells_encodeText h.1).bind ((spells_encodeBytes h.2).bind_nil ?_)
  rw [value]
  exact Spells.pure output

theorem Utxo.spells_encode {utxo : Utxo} (h : utxo.Fits) : Spells decode utxo.encode utxo := by
  rw [encode, List.append_assoc]
  refine (Output.spells_encode h.1).bind ((spells_encodeBytes h.2).bind ?_)
  refine (@spells_encodeNat 4 _ utxo.key.outputNo.toNat_lt rfl).bind_nil ?_
  rw [UInt32.ofNat_toNat]
  exact Spells.pure utxo

theorem Offer.spells_encode {offer : Offer} (h : offer.Fits) : Spells decode offer.encode offer :=
  (spells_encodeList h.1.1 fun utxo mem => Utxo.spells_encode (h.1.2 utxo mem)).bind
    ((spells_encodeList h.2.1 fun output mem => Output.spells_encode (h.2.2 output mem)).bind_nil
      (Spells.pure offer))

theorem Binding.spells_bytes (binding : Binding) : Spells decode binding.bytes binding := by
  have spelled := spells_raw binding.bytes
  rw [binding.length_eq] at spelled
  refine ⟨fun rest => ?_, fun front rest split present => ?_⟩
  · rw [decode, spelled.reads rest]
    exact dif_pos binding.length_eq
  · rw [decode, spelled.runsOut front rest split present]

theorem Intent.spells_encode {intent : Intent} (h : ∀ offer ∈ intent.offer, offer.Fits) :
    Spells decode intent.encode intent := by
  rw [encode, List.append_assoc]
  refine (spells_encodeInt64 intent.ttl).bind ?_
  refine (spells_encodeOption fun offer mem => Offer.spells_encode (h offer mem)).bind ?_
  exact intent.binding.spells_bytes.bind_nil (Spells.pure intent)

/-! ### Messages -/

/-- Ascending numbers from `least` on and below `bound` are no more than there are such numbers. -/
theorem length_le_of_ascending {least bound : Nat} {l : List Nat} (ascends : l.Pairwise (· < ·))
    (h : ∀ n ∈ l, least ≤ n ∧ n < bound) : l.length ≤ bound - least := by
  induction l generalizing least with
  | nil => exact Nat.zero_le _
  | cons n rest ih =>
    obtain ⟨greater, ascends⟩ := List.pairwise_cons.1 ascends
    have first := h n List.mem_cons_self
    have := @ih (n + 1) ascends fun m mem => ⟨greater m mem, (h m (List.mem_cons_of_mem n mem)).2⟩
    rw [List.length_cons]
    omega

namespace Transaction

theorem length_intents_le (tx : Transaction) : tx.intents.entries.length ≤ UInt16.size := by
  have ascends : (tx.intents.entries.map (·.1.toNat)).Pairwise (· < ·) :=
    List.pairwise_map.2 (tx.intents.ascending.imp fun {a b} lt =>
      UInt16.lt_iff_toNat_lt.1 (Std.compare_eq_lt.1 lt))
  have := @length_le_of_ascending 0 (UInt16.size) _ ascends fun n mem => by
    obtain ⟨entry, -, rfl⟩ := List.mem_map.1 mem
    exact ⟨Nat.zero_le _, entry.1.toNat_lt⟩
  rwa [List.length_map] at this

theorem spells_encodeEntry {entry : UInt16 × Intent}
    (h : ∀ offer ∈ entry.2.offer, offer.Fits) : Spells decodeEntry (encodeEntry entry) entry := by
  refine (@spells_encodeNat 2 _ entry.1.toNat_lt rfl).bind ?_
  refine (Intent.spells_encode h).bind_nil ?_
  rw [UInt16.ofNat_toNat]
  exact Spells.pure entry

theorem spells_encode {tx : Transaction} (h : tx.Fits) : Spells decode tx.encode tx := by
  have entries : ∀ entry ∈ tx.intents.entries, Spells decodeEntry (encodeEntry entry) entry :=
    fun entry mem => spells_encodeEntry (h.2 entry.2 (List.mem_map_of_mem mem))
  rw [encode, List.append_assoc]
  refine (spells_encodeText h.1).bind ?_
  have few := Nat.lt_of_le_of_lt tx.length_intents_le (by decide : UInt16.size < UInt64.size)
  refine (spells_encodeList few entries).bind ?_
  refine (spells_encodeBool tx.proven).bind_nil ?_
  rw [OrderedMap.ofList_entries]
  exact Spells.pure tx

/-- The message of a transaction reads back. -/
theorem ofBytes_toBytes {tx : Transaction} (h : tx.Fits) : ofBytes tx.toBytes = .ok tx :=
  decodeMessage_of_spells (spells_encode h)

/-- The message of a transaction in hexadecimal reads back. -/
theorem ofHex_toHex {tx : Transaction} (h : tx.Fits) : ofHex tx.toHex = .ok tx := by
  rw [ofHex, toHex, decodeHexMessage, Hex.decode_encode]
  exact ofBytes_toBytes h

end Transaction

end UtxoWallet
