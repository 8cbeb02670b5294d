/-!
# Text as bytes

The formats of this library give lengths and positions in bytes, so a text meets them through its
UTF-8 encoding. `ofUtf8? (utf8 s) = some s`: no text is lost on the way.
-/

namespace UtxoWallet.Text

/-- The UTF-8 encoding of a text. -/
def utf8 (s : String) : List UInt8 :=
  s.toByteArray.data.toList

/-- The text that some bytes encode, if they are valid UTF-8. -/
def ofUtf8? (bytes : List UInt8) : Option String :=
  String.fromUTF8? ⟨bytes.toArray⟩

theorem ofUtf8?_utf8 (s : String) : ofUtf8? (utf8 s) = some s := by
  obtain ⟨⟨⟨bytes⟩⟩, valid⟩ := s
  simp [ofUtf8?, utf8, String.fromUTF8?, String.fromUTF8, valid]

theorem utf8_injective {s t : String} (h : utf8 s = utf8 t) : s = t :=
  Option.some.inj (by rw [← ofUtf8?_utf8 s, ← ofUtf8?_utf8 t, h])

theorem utf8_ofList (s : List Char) : utf8 (String.ofList s) = s.flatMap String.utf8EncodeChar := by
  simp [utf8, List.utf8Encode]

theorem utf8EncodeChar_of_lt {c : Char} (h : c.toNat < 128) :
    String.utf8EncodeChar c = [UInt8.ofNat c.toNat] := by
  unfold String.utf8EncodeChar
  exact if_pos (by show c.toNat ≤ 127; omega)

/-- An ASCII text has a byte for each character. -/
theorem utf8_ofList_of_lt {s : List Char} (h : ∀ c ∈ s, c.toNat < 128) :
    utf8 (String.ofList s) = s.map fun c => UInt8.ofNat c.toNat := by
  rw [utf8_ofList]
  induction s with
  | nil => rfl
  | cons c s ih =>
    rw [List.flatMap_cons, List.map_cons, utf8EncodeChar_of_lt (h c List.mem_cons_self),
      ih fun d mem => h d (List.mem_cons_of_mem _ mem)]
    rfl

end UtxoWallet.Text
