import UtxoWallet.BindingSource
import UtxoWallet.Transaction.Identity
import UtxoWallet.Transaction.RoundTrip

/-! # What the bytes of a transaction tell

Two sequences of bytes are made from a transaction: the message that is sent and kept, and, for each
of its intents, the bytes that are hashed to identify it.

* `Transaction.message_exact`: the message tells the transaction, and neither anything behind it nor
  a missing end goes unnoticed.
* `Intent.hashedBytes_tell`: the hashed bytes tell all of an intent but whether an empty offer is
  there, so intents with different bindings create outputs with different names, as far as the hash
  keeps their bytes apart.

The hashed bytes are not read back by anything. That they tell the intent is seen from two intents
with the same bytes: field by field, what is laid out first is the same on both sides, and so is
what follows. Each lemma `…_append_inj` is this step for one kind of field.
-/

namespace UtxoWallet

open UtxoWallet.Text UtxoWallet.Wire

/-! ## Messages -/

namespace Transaction

/-- **A message is exact.** If the lengths inside a transaction fit the format, its message reads back,
as bytes and in hexadecimal. With anything behind it, the message is refused for just that, and cut
short anywhere, for its early end. -/
theorem message_exact {tx : Transaction} (h : tx.Fits) :
    ofBytes tx.toBytes = .ok tx ∧ ofHex tx.toHex = .ok tx ∧
      (∀ more, more ≠ [] → ofBytes (tx.toBytes ++ more) =
        .error (.trailingBytes tx.toBytes.length (tx.toBytes.length + more.length))) ∧
      ∀ front, front <+: tx.toBytes → front ≠ tx.toBytes →
        ofBytes front = .error (.malformed .unexpectedEnd) := by
  refine ⟨ofBytes_toBytes h, ofHex_toHex h, ?_, ?_⟩
  · intro more present
    exact decodeMessage_append (spells_encode h) present
  · rintro front ⟨rest, whole⟩ short
    have spelled : Spells decode (front ++ rest) tx := by
      rw [whole]
      exact spells_encode h
    have missing : rest ≠ [] := by
      rintro rfl
      exact short ((List.append_nil front).symm.trans whole)
    exact decodeMessage_front spelled missing

/-- The greatest amount goes from one owner to another in segment 300, before 1970. -/
theorem message_exact_of_greatest :
    let token : TokenType := ⟨List.replicate 32 7⟩
    let input : Utxo := ⟨⟨Amount.greatest, "", token⟩, ⟨⟨[]⟩, 0xffffffff⟩⟩
    let intent : Intent := ⟨-1, some ⟨[input], [⟨Amount.greatest, "bob", token⟩]⟩, .zero⟩
    let tx : Transaction := ⟨"testnet", OrderedMap.empty.insert 300 intent, true⟩
    tx.Fits ∧ ofBytes tx.toBytes = .ok tx ∧ ofHex tx.toHex = .ok tx ∧
      (∀ more, more ≠ [] → ofBytes (tx.toBytes ++ more) =
        .error (.trailingBytes tx.toBytes.length (tx.toBytes.length + more.length))) ∧
      ∀ front, front <+: tx.toBytes → front ≠ tx.toBytes →
        ofBytes front = .error (.malformed .unexpectedEnd) := by
  intro token input intent tx
  have fits : tx.Fits := by
    refine ⟨by decide, ?_⟩
    intro _ hintent offer hoffer
    cases List.mem_singleton.mp hintent
    cases hoffer
    refine ⟨⟨by decide, ?_⟩, by decide, ?_⟩
    · intro utxo hmem
      cases List.mem_singleton.mp hmem
      exact ⟨⟨by decide, by decide⟩, by decide⟩
    · intro output hmem
      cases List.mem_singleton.mp hmem
      exact ⟨by decide, by decide⟩
  exact ⟨fits, message_exact fits⟩

end Transaction

/-! ## Fields -/

section Fields

variable {r s : List UInt8}

theorem littleEndian_append_inj {width m n : Nat} (hm : m < Nat.pow 256 width)
    (hn : n < Nat.pow 256 width)
    (h : littleEndian width m ++ r = littleEndian width n ++ s) : m = n ∧ r = s := by
  have widths : (littleEndian width m).length = (littleEndian width n).length := by
    rw [length_littleEndian, length_littleEndian]
  obtain ⟨hnumber, hrest⟩ := List.append_inj h widths
  refine ⟨?_, hrest⟩
  rw [← ofLittleEndian_littleEndian hm, hnumber, ofLittleEndian_littleEndian hn]

/-- Bytes that follow their length can be told from what follows them, if the length fits. -/
theorem lengthFirst_append_inj {a b : List UInt8} (ha : a.length < UInt64.size)
    (hb : b.length < UInt64.size) (h : lengthFirst a ++ r = lengthFirst b ++ s) :
    a = b ∧ r = s := by
  rw [lengthFirst, lengthFirst, List.append_assoc, List.append_assoc] at h
  obtain ⟨hlength, h⟩ := @littleEndian_append_inj _ _ 8 _ _ ha hb h
  exact List.append_inj h hlength

/-- Items one after the other, in two lists of one length. -/
theorem flatMap_append_inj {α : Type} {encode : α → List UInt8} {Fits : α → Prop}
    (hitem : ∀ a b r s, Fits a → Fits b → encode a ++ r = encode b ++ s → a = b ∧ r = s)
    {l m : List α} (hl : ∀ a ∈ l, Fits a) (hm : ∀ a ∈ m, Fits a) (hlength : l.length = m.length)
    (h : l.flatMap encode ++ r = m.flatMap encode ++ s) : l = m ∧ r = s := by
  induction l generalizing m with
  | nil =>
      rw [List.eq_nil_of_length_eq_zero hlength.symm] at h ⊢
      exact ⟨rfl, h⟩
  | cons a l ih =>
      cases m with
      | nil => cases hlength
      | cons b m =>
          simp only [List.flatMap_cons, List.append_assoc] at h
          rw [List.forall_mem_cons] at hl hm
          obtain ⟨rfl, htail⟩ := hitem a b _ _ hl.1 hm.1 h
          obtain ⟨rfl, hrest⟩ := ih hl.2 hm.2 (Nat.succ.inj hlength) htail
          exact ⟨rfl, hrest⟩

/-- Items behind their number. -/
theorem counted_append_inj {α : Type} {encode : α → List UInt8} {Fits : α → Prop}
    (hitem : ∀ a b r s, Fits a → Fits b → encode a ++ r = encode b ++ s → a = b ∧ r = s)
    {l m : List α} (hl : l.length < UInt64.size ∧ ∀ a ∈ l, Fits a)
    (hm : m.length < UInt64.size ∧ ∀ a ∈ m, Fits a)
    (h : littleEndian 8 l.length ++ (l.flatMap encode ++ r) =
      littleEndian 8 m.length ++ (m.flatMap encode ++ s)) : l = m ∧ r = s := by
  obtain ⟨hlength, h⟩ := @littleEndian_append_inj _ _ 8 _ _ hl.1 hm.1 h
  exact flatMap_append_inj hitem hl.2 hm.2 hlength h

end Fields

/-! ## Hashed bytes -/

/-- The bytes of an output tell it, and where it ends. -/
theorem Output.hashedBytes_append_inj (a b : Output) (r s : List UInt8) (ha : a.Fits) (hb : b.Fits)
    (h : a.hashedBytes ++ r = b.hashedBytes ++ s) : a = b ∧ r = s := by
  simp only [hashedBytes, List.append_assoc] at h
  obtain ⟨hvalue, h⟩ := @littleEndian_append_inj _ _ 16 _ _ a.value.isLt b.value.isLt h
  obtain ⟨howner, h⟩ := lengthFirst_append_inj ha.1 hb.1 h
  obtain ⟨htoken, h⟩ := lengthFirst_append_inj ha.2 hb.2 h
  refine ⟨?_, h⟩
  obtain ⟨value, owner, ⟨token⟩⟩ := a
  obtain ⟨value', owner', ⟨token'⟩⟩ := b
  cases Amount.toNat_injective hvalue
  cases utf8_injective howner
  cases htoken
  rfl

/-- So do those of an input. -/
theorem Utxo.hashedBytes_append_inj (a b : Utxo) (r s : List UInt8) (ha : a.Fits) (hb : b.Fits)
    (h : a.hashedBytes ++ r = b.hashedBytes ++ s) : a = b ∧ r = s := by
  simp only [hashedBytes, List.append_assoc] at h
  obtain ⟨houtput, h⟩ := Output.hashedBytes_append_inj _ _ _ _ ha.1 hb.1 h
  obtain ⟨hhash, h⟩ := lengthFirst_append_inj ha.2 hb.2 h
  obtain ⟨hplace, h⟩ := @littleEndian_append_inj _ _ 4 _ _ a.key.outputNo.toNat_lt
    b.key.outputNo.toNat_lt h
  refine ⟨?_, h⟩
  obtain ⟨output, ⟨⟨hash⟩, place⟩⟩ := a
  obtain ⟨output', ⟨⟨hash'⟩, place'⟩⟩ := b
  cases houtput
  cases hhash
  cases UInt32.toNat.inj hplace
  rfl

theorem Binding.bytes_injective {a b : Binding} (h : a.bytes = b.bytes) : a = b := by
  cases a
  cases b
  cases h
  rfl

namespace Intent

/-- The lengths inside an intent fit 64 bits. -/
def Fits (intent : Intent) : Prop :=
  ∀ offer ∈ intent.offer, offer.Fits

variable {a b : Intent}

theorem Fits.inputs (h : a.Fits) : a.inputs.length < UInt64.size ∧ ∀ utxo ∈ a.inputs, utxo.Fits := by
  cases hoffer : a.offer with
  | none =>
      rw [Intent.inputs, hoffer]
      exact ⟨by decide, nofun⟩
  | some offer =>
      rw [Intent.inputs, hoffer]
      exact (h offer hoffer).1

theorem Fits.outputs (h : a.Fits) :
    a.outputs.length < UInt64.size ∧ ∀ output ∈ a.outputs, output.Fits := by
  cases hoffer : a.offer with
  | none =>
      rw [Intent.outputs, hoffer]
      exact ⟨by decide, nofun⟩
  | some offer =>
      rw [Intent.outputs, hoffer]
      exact (h offer hoffer).2

/-- The hashed bytes tell all parts of an intent, but not an absent offer from an empty one. -/
theorem hashedBytes_inj (ha : a.Fits) (hb : b.Fits) (h : a.hashedBytes = b.hashedBytes) :
    a.binding = b.binding ∧ a.ttl = b.ttl ∧ a.inputs = b.inputs ∧ a.outputs = b.outputs := by
  -- Nothing follows the outputs, on either side.
  have h := congrArg (· ++ []) h
  simp only [hashedBytes, List.append_assoc] at h
  replace h := List.append_cancel_left h
  obtain ⟨hbinding, h⟩ := List.append_inj h (a.binding.length_eq.trans b.binding.length_eq.symm)
  obtain ⟨httl, h⟩ := @littleEndian_append_inj _ _ 8 _ _ a.ttl.toUInt64.toNat_lt
    b.ttl.toUInt64.toNat_lt h
  obtain ⟨hinputs, h⟩ := counted_append_inj Utxo.hashedBytes_append_inj ha.inputs hb.inputs h
  obtain ⟨houtputs, -⟩ := counted_append_inj Output.hashedBytes_append_inj ha.outputs hb.outputs h
  have httl : a.ttl = b.ttl := congrArg Int64.ofUInt64 (UInt64.toNat.inj httl)
  exact ⟨Binding.bytes_injective hbinding, httl, hinputs, houtputs⟩

/-- Intents that spend and create the same have the same offer, or one of them has none and the other
an empty one. -/
theorem eq_or_empty_offer (hbinding : a.binding = b.binding) (httl : a.ttl = b.ttl)
    (hinputs : a.inputs = b.inputs) (houtputs : a.outputs = b.outputs) :
    a = b ∨ a.offer = none ∧ b.offer = some ⟨[], []⟩ ∨ a.offer = some ⟨[], []⟩ ∧ b.offer = none := by
  obtain ⟨ttl, offer, binding⟩ := a
  obtain ⟨ttl', offer', binding'⟩ := b
  cases hbinding
  cases httl
  -- Inputs and outputs tell an offer, unless both are empty: then it may be absent as well.
  cases offer with
  | none =>
      cases offer' with
      | none => exact .inl rfl
      | some offer' =>
          obtain ⟨inputs', outputs'⟩ := offer'
          cases hinputs
          cases houtputs
          exact .inr (.inl ⟨rfl, rfl⟩)
  | some offer =>
      obtain ⟨inputs, outputs⟩ := offer
      cases offer' with
      | none =>
          cases hinputs
          cases houtputs
          exact .inr (.inr ⟨rfl, rfl⟩)
      | some offer' =>
          cases hinputs
          cases houtputs
          exact .inl rfl

/-! ## Names -/

theorem hash_eq_of_hex_eq (h : a.hash.hex = b.hash.hex) : a.hash = b.hash := by
  have hbytes : Except.ok a.hash.bytes = (Except.ok b.hash.bytes : Except Hex.Error _) := by
    rw [← Hex.decode_encode, ← Hex.decode_encode]
    exact congrArg Hex.decode h
  exact congrArg IntentHash.mk (Except.ok.inj hbytes)

/-- Every output that an intent creates is named by the hash of the intent. -/
theorem intentHash_of_mem_created {utxo : Utxo} (h : utxo ∈ a.created) :
    utxo.key.intentHash = a.hash := by
  obtain ⟨_, -, rfl⟩ := List.mem_map.mp h
  rfl

/-- **The hashed bytes tell the intent.** Two intents have the same hashed bytes iff they have the same
binding and time to live, and spend and create the same; they differ then at most in an empty offer
that one of them lacks. So two intents with different bindings, whose bytes do not collide under the
hash, have different identifiers and create no output of one name. -/
theorem hashedBytes_tell (ha : a.Fits) (hb : b.Fits) :
    (a.hashedBytes = b.hashedBytes ↔
      a.binding = b.binding ∧ a.ttl = b.ttl ∧ a.inputs = b.inputs ∧ a.outputs = b.outputs) ∧
    (a.hashedBytes = b.hashedBytes → a = b ∨
      a.offer = none ∧ b.offer = some ⟨[], []⟩ ∨ a.offer = some ⟨[], []⟩ ∧ b.offer = none) ∧
    ((Sha256.hash a.hashedBytes = Sha256.hash b.hashedBytes → a.hashedBytes = b.hashedBytes) →
      a.binding ≠ b.binding →
        a.hash.hex ≠ b.hash.hex ∧ ∀ utxo ∈ a.created, ∀ other ∈ b.created, utxo.key ≠ other.key) := by
  refine ⟨⟨hashedBytes_inj ha hb, ?_⟩, ?_, ?_⟩
  · rintro ⟨hbinding, httl, hinputs, houtputs⟩
    rw [hashedBytes, hashedBytes, hbinding, httl, hinputs, houtputs]
  · intro h
    obtain ⟨hbinding, httl, hinputs, houtputs⟩ := hashedBytes_inj ha hb h
    exact eq_or_empty_offer hbinding httl hinputs houtputs
  · intro collisionFree hbinding
    have hhash : a.hash ≠ b.hash := by
      intro h
      have hbytes := collisionFree (congrArg IntentHash.bytes h)
      exact hbinding (hashedBytes_inj ha hb hbytes).1
    refine ⟨fun h => hhash (hash_eq_of_hex_eq h), ?_⟩
    intro utxo hutxo other hother hkey
    apply hhash
    rw [← intentHash_of_mem_created hutxo, hkey, intentHash_of_mem_created hother]

/-- Two payments of one wallet, equal in all but the bindings they draw. -/
theorem hashedBytes_tell_of_draws :
    let token : TokenType := ⟨[0]⟩
    let offer : Offer := ⟨[⟨⟨⟨50, by decide⟩, "pk", token⟩, ⟨⟨[0x11]⟩, 0⟩⟩],
      [⟨⟨40, by decide⟩, "bob", token⟩]⟩
    let a := Intent.make Instant.latest offer BindingSource.fresh.next
    let b := Intent.make Instant.latest offer BindingSource.fresh.rest.next
    a.Fits ∧ b.Fits ∧ a.binding ≠ b.binding ∧
      (Sha256.hash a.hashedBytes = Sha256.hash b.hashedBytes → a.hashedBytes = b.hashedBytes) ∧
      a.hashedBytes ≠ b.hashedBytes ∧ a.hash.hex ≠ b.hash.hex ∧
      ∀ utxo ∈ a.created, ∀ other ∈ b.created, utxo.key ≠ other.key := by
  intro token offer a b
  have fits : offer.Fits := by
    refine ⟨⟨by decide, ?_⟩, by decide, ?_⟩
    · intro utxo hmem
      cases List.mem_singleton.mp hmem
      exact ⟨⟨by decide, by decide⟩, by decide⟩
    · intro output hmem
      cases List.mem_singleton.mp hmem
      exact ⟨by decide, by decide⟩
  have ha : a.Fits := by
    rintro _ ⟨⟩
    exact fits
  have hb : b.Fits := by
    rintro _ ⟨⟩
    exact fits
  have hbinding : a.binding ≠ b.binding := by decide
  have collisionFree :
      Sha256.hash a.hashedBytes = Sha256.hash b.hashedBytes → a.hashedBytes = b.hashedBytes := by
    intro h
    exact absurd h (by decide +kernel)
  obtain ⟨htell, -, hnames⟩ := hashedBytes_tell ha hb
  have hbytes : a.hashedBytes ≠ b.hashedBytes := by
    intro h
    exact hbinding (htell.mp h).1
  exact ⟨ha, hb, hbinding, collisionFree, hbytes, hnames collisionFree hbinding⟩

end Intent

end UtxoWallet
