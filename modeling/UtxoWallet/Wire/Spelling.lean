import UtxoWallet.Wire

/-!
# Bytes that spell a value

Some bytes spell a value for a decoder if the decoder takes exactly them off the front of any bytes
and gives the value, and if it runs out of bytes on every proper beginning of them. Spellings
compose like decoders: what comes first is spelled by what the first decoder takes, and the rest by
what the next one takes. So each encoder is shown to spell its value from the spellings of its parts.
-/

namespace UtxoWallet.Wire

open UtxoWallet.Text

variable {α β : Type}

/-- The bytes are all that the decoder needs to give the value. -/
structure Spells (decode : Decoder α) (bytes : List UInt8) (a : α) : Prop where
  reads : ∀ rest, decode (bytes ++ rest) = .ok (a, rest)
  runsOut : ∀ front rest, front ++ rest = bytes → rest ≠ [] → decode front = .error .unexpectedEnd

/-! ### Decoders one after the other -/

theorem bind_ok {decode : Decoder α} {next : α → Decoder β} {bytes rest : List UInt8} {a : α}
    (h : decode bytes = .ok (a, rest)) : (decode >>= next) bytes = next a rest := by
  simp [bind, StateT.bind, h, Except.bind]

theorem bind_error {decode : Decoder α} {next : α → Decoder β} {bytes : List UInt8}
    {reason : Malformation} (h : decode bytes = .error reason) :
    (decode >>= next) bytes = .error reason := by
  simp [bind, StateT.bind, h, Except.bind]

namespace Spells

theorem pure (a : α) : Spells (Pure.pure a) [] a where
  reads _ := rfl
  runsOut front rest h present := by
    obtain ⟨-, rfl⟩ := List.append_eq_nil_iff.1 h
    exact absurd rfl present

theorem bind {first : Decoder α} {next : α → Decoder β} {bytes more : List UInt8} {a : α} {b : β}
    (h : Spells first bytes a) (h' : Spells (next a) more b) :
    Spells (first >>= next) (bytes ++ more) b where
  reads rest := by
    rw [List.append_assoc, bind_ok (h.reads _), h'.reads]
  runsOut front rest split present := by
    -- The cut is before the end of the first part, or else in the second.
    rcases List.append_eq_append_iff.1 split with ⟨missing, whole, last⟩ | ⟨taken, parts, whole⟩
    · by_cases empty : missing = []
      · subst empty
        have reads := h.reads []
        rw [whole, List.append_nil, List.append_nil] at reads
        rw [bind_ok reads]
        exact h'.runsOut [] rest last present
      · exact bind_error (h.runsOut front missing whole.symm empty)
    · subst parts
      rw [bind_ok (h.reads taken)]
      exact h'.runsOut taken rest whole.symm present

/-- What comes last may take nothing. -/
theorem bind_nil {first : Decoder α} {next : α → Decoder β} {bytes : List UInt8} {a : α} {b : β}
    (h : Spells first bytes a) (h' : Spells (next a) [] b) : Spells (first >>= next) bytes b :=
  List.append_nil bytes ▸ h.bind h'

theorem map {decode : Decoder α} {bytes : List UInt8} {a : α} (f : α → β)
    (h : Spells decode bytes a) : Spells (f <$> decode) bytes (f a) :=
  @bind_nil _ _ decode (fun a => Pure.pure (f a)) bytes a (f a) h (Spells.pure (f a))

end Spells

/-! ### Bytes -/

theorem spells_byte (b : UInt8) : Spells byte [b] b where
  reads _ := rfl
  runsOut front rest split present := by
    cases front with
    | nil => rfl
    | cons c front => simp_all

theorem spells_raw (bytes : List UInt8) : Spells (raw bytes.length) bytes bytes where
  reads rest := by simp [raw]
  runsOut front rest split present := by
    have longer : 0 < rest.length := List.length_pos_iff.2 present
    have : bytes.length = front.length + rest.length := by rw [← split, List.length_append]
    rw [raw, if_neg (by omega)]

/-! ### Natural numbers -/

theorem length_littleEndian (width n : Nat) : (littleEndian width n).length = width := by
  induction width generalizing n with
  | zero => rfl
  | succ width ih => rw [littleEndian, List.length_cons, ih]

theorem ofLittleEndian_littleEndian {width n : Nat} (h : n < Nat.pow 256 width) :
    ofLittleEndian (littleEndian width n) = n := by
  induction width generalizing n with
  | zero => simp at h; subst h; rfl
  | succ width ih =>
    have fits : n < Nat.pow 256 width * 256 := h
    have quotient : n / 256 < Nat.pow 256 width := by omega
    rw [littleEndian, ofLittleEndian, ih quotient, UInt8.toNat_ofNat']
    omega

theorem spells_littleEndian {width n : Nat} (h : n < Nat.pow 256 width) :
    Spells (ofLittleEndian <$> raw width) (littleEndian width n) n := by
  have := (spells_raw (littleEndian width n)).map ofLittleEndian
  rwa [length_littleEndian, ofLittleEndian_littleEndian h] at this

/-- The widths of the types whose numbers are laid out. -/
def isTypeWidth (width : Nat) : Bool :=
  width = 2 || width = 4 || width = 8 || width = 16

theorem spells_encodeNat {width n : Nat} (h : n < Nat.pow 256 width) (type : isTypeWidth width) :
    Spells (decodeNat width) (encodeNat n) n := by
  have widths : width = 2 ∧ n < 65536 ∨ width = 4 ∧ n < 4294967296 ∨
      width = 8 ∧ n < 18446744073709551616 ∨ width = 16 := by
    have : width = 2 ∨ width = 4 ∨ width = 8 ∨ width = 16 := by
      simpa [isTypeWidth, or_assoc] using type
    rcases this with rfl | rfl | rfl | rfl
    · exact .inl ⟨rfl, h⟩
    · exact .inr (.inl ⟨rfl, h⟩)
    · exact .inr (.inr (.inl ⟨rfl, h⟩))
    · exact .inr (.inr (.inr rfl))
  have marked : ∀ marker size, ¬marker < 251 → markedWidth? marker = some size → size ≤ width →
      n < Nat.pow 256 size → Spells (decodeNat width) (marker :: littleEndian size n) n := by
    intro marker size marks announces fits small
    refine (spells_byte marker).bind ?_
    simp only [marks, announces, fits, if_false, if_true]
    exact spells_littleEndian small
  unfold encodeNat UInt16.size UInt32.size UInt64.size
  split
  · next small =>
    have first : (UInt8.ofNat n).toNat = n := by rw [UInt8.toNat_ofNat']; omega
    have isSmall : UInt8.ofNat n < 251 := by rw [UInt8.lt_iff_toNat_lt, first]; exact small
    refine (spells_byte _).bind_nil ?_
    simp only [isSmall, if_true, first]
    exact Spells.pure n
  split
  · next two => exact marked 251 2 (by decide) rfl (by omega) two
  split
  · next two four =>
    exact marked 252 4 (by decide) rfl (by omega) four
  split
  · next two four eight =>
    exact marked 253 8 (by decide) rfl (by omega) eight
  · next two four eight =>
    have sixteen : width = 16 := by omega
    subst sixteen
    exact marked 254 16 (by decide) rfl (by decide) h

/-! ### Integers and truth values -/

theorem zigzag_toInt_lt (n : Int64) : zigzag n.toInt < UInt64.size := by
  have lower := n.le_toInt
  have upper := n.toInt_lt
  unfold UInt64.size
  cases h : n.toInt with
  | ofNat m =>
    have : n.toInt = m := h
    rw [zigzag]
    omega
  | negSucc m =>
    rw [zigzag]
    omega

theorem spells_encodeInt64 (n : Int64) : Spells decodeInt64 (encodeInt64 n) n := by
  have small : zigzag n.toInt < Nat.pow 256 8 := zigzag_toInt_lt n
  have := (spells_encodeNat small rfl).map fun m => Int64.ofInt (unzigzag m)
  rw [unzigzag_zigzag, Int64.ofInt_toInt] at this
  exact this

theorem spells_encodeBool (b : Bool) : Spells decodeBool (encodeBool b) b := by
  cases b <;> exact (spells_byte _).bind (Spells.pure _)

/-! ### Bytes and texts -/

theorem spells_encodeBytes {bytes : List UInt8} (h : bytes.length < UInt64.size) :
    Spells decodeBytes (encodeBytes bytes) bytes :=
  (@spells_encodeNat 8 _ h rfl).bind (spells_raw bytes)

theorem spells_encodeText {text : String} (h : (utf8 text).length < UInt64.size) :
    Spells decodeText (encodeText text) text := by
  refine (spells_encodeBytes h).bind_nil ?_
  simp only [ofUtf8?_utf8]
  exact Spells.pure text

/-! ### Lists and options -/

theorem spells_items {encode : α → List UInt8} {decode : Decoder α} (items : List α)
    (h : ∀ a ∈ items, Spells decode (encode a) a) :
    Spells (decodeItems decode items.length) (items.flatMap encode) items := by
  induction items with
  | nil => exact Spells.pure []
  | cons a items ih =>
    have rest := (ih fun b mem => h b (List.mem_cons_of_mem a mem)).map (a :: ·)
    exact (h a List.mem_cons_self).bind rest

theorem spells_encodeList {encode : α → List UInt8} {decode : Decoder α} {items : List α}
    (length : items.length < UInt64.size) (h : ∀ a ∈ items, Spells decode (encode a) a) :
    Spells (decodeList decode) (encodeList encode items) items :=
  (@spells_encodeNat 8 _ length rfl).bind (spells_items items h)

theorem spells_encodeOption {encode : α → List UInt8} {decode : Decoder α} {value : Option α}
    (h : ∀ a ∈ value, Spells decode (encode a) a) :
    Spells (decodeOption decode) (encodeOption encode value) value := by
  cases value with
  | none => exact (spells_byte 0).bind (Spells.pure none)
  | some a => exact (spells_byte 1).bind ((h a rfl).map some)

/-! ### Messages -/

theorem decodeMessage_of_spells {decode : Decoder α} {bytes : List UInt8} {a : α}
    (h : Spells decode bytes a) : decodeMessage decode bytes = .ok a := by
  have := h.reads []
  rw [List.append_nil] at this
  rw [decodeMessage, this]

/-- A message with something behind its value is refused. -/
theorem decodeMessage_append {decode : Decoder α} {bytes more : List UInt8} {a : α}
    (h : Spells decode bytes a) (present : more ≠ []) :
    decodeMessage decode (bytes ++ more) =
      .error (.trailingBytes bytes.length (bytes.length + more.length)) := by
  rw [decodeMessage, h.reads]
  cases more with
  | nil => exact absurd rfl present
  | cons b more =>
    simp only [List.length_append]
    rw [Nat.add_sub_cancel]

/-- A message that breaks off is refused. -/
theorem decodeMessage_front {decode : Decoder α} {front rest : List UInt8} {a : α}
    (h : Spells decode (front ++ rest) a) (present : rest ≠ []) :
    decodeMessage decode front = .error (.malformed .unexpectedEnd) := by
  rw [decodeMessage, h.runsOut front rest rfl present]

end UtxoWallet.Wire
