import UtxoWallet.Coin.Format
import UtxoWallet.Time.RoundTrip

/-! # Written records read back

A record is written as an object of its fields in order. Read with the same names, the object gives
the value of each field back (`Json.fields?_record`), because its keys are distinct. So a value reads
back if each of its fields does. All that outputs and coins are made of does, but for the times that no
text can stand for; so a coin comes back if its time is none of those (`Coin.ofJson?_toJson`), and only
such coins are ever read (`Coin.representable_of_ofJson?`).
-/

namespace UtxoWallet

open UtxoWallet.Text

namespace Json

/-! ## Fields -/

/-- The members of the object that a record is written as. -/
def membersOf (fields : List (String × Json)) : List (Option String × Json) :=
  fields.map fun (key, value) => (some key, value)

theorem occurrences_membersOf (name : String) (fields : List (String × Json)) :
    occurrences name (membersOf fields) = (fields.map (·.1)).count name := by
  rw [occurrences, membersOf, List.countP_map, List.count, List.countP_map]
  rfl

/-- A name finds the first field that has it. -/
theorem member?_membersOf_cons (name key : String) (value : Json)
    (fields : List (String × Json)) :
    member? name (membersOf ((key, value) :: fields)) =
      if key = name then some value else member? name (membersOf fields) := by
  by_cases h : key = name <;> simp [member?, membersOf, h]

/-- Fields with distinct keys are found by them. -/
theorem map_member?_membersOf {fields : List (String × Json)}
    (distinct : (fields.map (·.1)).Nodup) :
    (fields.map (·.1)).map (member? · (membersOf fields)) =
      fields.map fun field => some field.2 := by
  induction fields with
  | nil => rfl
  | cons field fields ih =>
      obtain ⟨key, value⟩ := field
      rw [List.map_cons, List.nodup_cons] at distinct
      obtain ⟨hnew, distinct⟩ := distinct
      simp only [List.map_cons, member?_membersOf_cons, if_true]
      rw [← ih distinct]
      congr 1
      apply List.map_congr_left
      intro name hmem
      apply if_neg
      rintro rfl
      exact hnew hmem

theorem fields?_record_eq_map {fields : List (String × Json)}
    (distinct : (fields.map (·.1)).Nodup) (names : List String) (least : Nat) :
    (record fields).fields? names least =
      some (names.map (member? · (membersOf fields))) := by
  have texts : (membersOf fields).all (·.1.isSome) := by
    simp [membersOf]
  have once : names.all (occurrences · (membersOf fields) ≤ 1) := by
    rw [List.all_eq_true]
    intro name _
    rw [occurrences_membersOf, decide_eq_true_eq]
    exact List.nodup_iff_count.mp distinct name
  exact if_pos ⟨texts, once⟩

/-- The fields of a written record, read by their names. -/
theorem fields?_record {fields : List (String × Json)} {names : List String} {least : Nat}
    (order : fields.map (·.1) = names) (distinct : names.Nodup) :
    (record fields).fields? names least = some (fields.map fun field => some field.2) := by
  subst order
  rw [fields?_record_eq_map distinct, map_member?_membersOf distinct]

section Tagged

variable {tag : String} {value : Json} {fields : List (String × Json)} {least : Nat}

/-- The tag of a written record. -/
theorem fields?_tag (distinct : (tag :: fields.map (·.1)).Nodup) :
    (record ((tag, value) :: fields)).fields? [tag] least = some [some value] := by
  have keys : (((tag, value) :: fields).map (·.1)).Nodup := distinct
  rw [fields?_record_eq_map keys, List.map_singleton, member?_membersOf_cons, if_pos rfl]

/-- The fields of a written record that has a tag. -/
theorem fields?_tagged {names : List String} (order : fields.map (·.1) = names)
    (distinct : (tag :: names).Nodup) :
    (record ((tag, value) :: fields)).fields? names least =
      some (fields.map fun field => some field.2) := by
  subst order
  have keys : (((tag, value) :: fields).map (·.1)).Nodup := distinct
  obtain ⟨other, distinct⟩ := List.nodup_cons.mp distinct
  rw [fields?_record_eq_map keys, ← map_member?_membersOf distinct]
  refine congrArg some (List.map_congr_left fun name hmem => ?_)
  rw [member?_membersOf_cons, if_neg]
  rintro rfl
  exact other hmem

end Tagged

/-! ## Values -/

theorem required_some {α : Type} (read : Json → Option α) (value : Json) :
    required read (some value) = read value := rfl

/-- A field that has been read is there. -/
theorem required_eq_some_iff {α : Type} {read : Json → Option α} {field : Option Json} {a : α} :
    required read field = some a ↔ ∃ value, field = some value ∧ read value = some a :=
  Option.bind_eq_some_iff

theorem orElse_some {α : Type} (default : α) (read : Json → Option α) (value : Json) :
    orElse default read (some value) = read value := rfl

theorem text?_text (s : String) : (text s).text? = some s := rfl

theorem text_ne_null (s : String) : text s ≠ .null := by
  intro h
  cases h

theorem below?_natural {n bound : Nat} (h : n < bound) : (natural n).below? bound = some n := by
  simp [below?, natural?, natural, h]

theorem uint16?_natural (n : UInt16) : (natural n.toNat).uint16? = some n := by
  rw [uint16?, below?_natural n.toNat_lt, Option.map_some, UInt16.ofNat_toNat]

theorem uint32?_natural (n : UInt32) : (natural n.toNat).uint32? = some n := by
  rw [uint32?, below?_natural n.toNat_lt, Option.map_some, UInt32.ofNat_toNat]

theorem uint64?_natural (n : UInt64) : (natural n.toNat).uint64? = some n := by
  rw [uint64?, below?_natural n.toNat_lt, Option.map_some, UInt64.ofNat_toNat]

theorem bytes?_text_encode (bytes : List UInt8) :
    (text (Hex.encode bytes)).bytes? = some bytes := by
  show (Hex.decode (Hex.encode bytes)).toOption = some bytes
  rw [Hex.decode_encode]
  rfl

variable {α : Type} {read : Json → Option α} {write : α → Json}

theorem natural_ne_null (n : Nat) : natural n ≠ .null := by
  intro h
  cases h

/-- A field that may be null, if what is there is not written as null. -/
theorem optional_nullable {value : Option α} (h : ∀ a ∈ value, read (write a) = some a)
    (present : ∀ a, write a ≠ .null) : optional read (some (nullable write value)) = some value := by
  cases value with
  | none => rfl
  | some a =>
      show optional read (some (write a)) = some (some a)
      rw [optional, h a rfl, Option.map_some]
      exact present a

/-- A list reads back if each of its members does. -/
theorem list?_list_of_mem {items : List α} (h : ∀ a ∈ items, read (write a) = some a) :
    (list write items).list? read = some items := by
  show (items.map write).mapM read = some items
  induction items with
  | nil => rfl
  | cons a items ih =>
      rw [List.forall_mem_cons] at h
      rw [List.map_cons, List.mapM_cons, h.1, ih h.2]
      rfl

theorem list?_list (h : ∀ a, read (write a) = some a) (items : List α) :
    (list write items).list? read = some items :=
  list?_list_of_mem fun a _ => h a

section OnlySuch

variable {Such : α → Prop} (only : ∀ json a, read json = some a → Such a)

include only

/-- What a reader gives is also such if the field may be absent. -/
theorem forall_mem_of_optional {field : Option Json} {value : Option α}
    (h : optional read field = some value) : ∀ a ∈ value, Such a := by
  unfold optional at h
  split at h
  · cases h
    nofun
  · cases h
    nofun
  · obtain ⟨a, hread, rfl⟩ := Option.map_eq_some_iff.mp h
    rintro _ ⟨⟩
    exact only _ a hread

/-- So are all members of a list that it reads. -/
theorem forall_mem_of_list? {json : Json} {items : List α} (h : json.list? read = some items) :
    ∀ a ∈ items, Such a := by
  cases json with
  | array given =>
      replace h : given.mapM read = some items := h
      induction given generalizing items with
      | nil =>
          cases h
          nofun
      | cons first given ih =>
          rw [List.mapM_cons] at h
          obtain ⟨a, hread, h⟩ := Option.bind_eq_some_iff.mp h
          obtain ⟨others, hothers, h⟩ := Option.bind_eq_some_iff.mp h
          cases h
          exact List.forall_mem_cons.mpr ⟨only _ a hread, ih hothers⟩
  | _ => cases h

theorem forall_mem_of_orElse_list? {field : Option Json} {items : List α}
    (h : orElse [] (list? read) field = some items) : ∀ a ∈ items, Such a := by
  cases field with
  | none =>
      cases h
      nofun
  | some value => exact forall_mem_of_list? only h

end OnlySuch

end Json

/-! ## Outputs and coins -/

theorem Output.ofJson?_toJson (output : Output) : ofJson? output.toJson = some output := by
  rw [ofJson?, toJson, Json.fields?_record]
  · simp only [List.map_cons, List.map_nil, Option.bind_eq_bind, Option.bind_some,
      Json.required_some, Amount.ofJson?_toJson, Json.text?_text, TokenType.hex,
      Json.bytes?_text_encode]
    rfl
  · rfl
  · decide

theorem Utxo.ofJson?_toJson (utxo : Utxo) : ofJson? utxo.toJson = some utxo := by
  rw [ofJson?, toJson, Json.fields?_record]
  · simp only [List.map_cons, List.map_nil, Option.bind_eq_bind, Option.bind_some,
      Json.required_some, Amount.ofJson?_toJson, Json.text?_text, TokenType.hex, IntentHash.hex,
      Json.bytes?_text_encode, Json.uint32?_natural]
    rfl
  · rfl
  · decide

namespace Coin

/-- Can a text stand for the time of the coin, if that is known? -/
def Representable (coin : Coin) : Prop :=
  ∀ t ∈ coin.createdAt, t.Representable

instance (coin : Coin) : Decidable coin.Representable :=
  inferInstanceAs (Decidable (∀ t ∈ coin.createdAt, t.Representable))

theorem metaOfJson?_metaToJson {createdAt : Option Instant}
    (h : ∀ t ∈ createdAt, t.Representable) (dustRegistered : Bool) :
    metaOfJson? (metaToJson createdAt dustRegistered) = some (createdAt, dustRegistered) := by
  have hcreated := Json.optional_nullable
    (fun t hmem => Timestamp.ofJson?_toJson_iff.mpr (h t hmem)) (fun t => Json.text_ne_null _)
  rw [metaOfJson?, metaToJson, Json.fields?_record]
  · simp only [List.map_cons, List.map_nil, Option.bind_eq_bind, Option.bind_some, hcreated]
    rfl
  · rfl
  · decide

/-- A coin reads back if a text can stand for its time. -/
theorem ofJson?_toJson {coin : Coin} (h : coin.Representable) : ofJson? coin.toJson = some coin := by
  rw [ofJson?, toJson, Json.fields?_record]
  · simp only [List.map_cons, List.map_nil, Option.bind_eq_bind, Option.bind_some,
      Json.required_some, metaOfJson?_metaToJson h, Utxo.ofJson?_toJson]
    rfl
  · rfl
  · decide

/-- Only such coins are read. -/
theorem representable_of_ofJson? {json : Json} {coin : Coin} (h : ofJson? json = some coin) :
    coin.Representable := by
  simp only [ofJson?, Option.bind_eq_bind] at h
  obtain ⟨fields, -, h⟩ := Option.bind_eq_some_iff.mp h
  split at h
  · obtain ⟨⟨createdAt, dustRegistered⟩, hmeta, h⟩ := Option.bind_eq_some_iff.mp h
    obtain ⟨utxo, -, h⟩ := Option.bind_eq_some_iff.mp h
    cases h
    obtain ⟨value, -, hmeta⟩ := Json.required_eq_some_iff.mp hmeta
    simp only [metaOfJson?, Option.bind_eq_bind] at hmeta
    obtain ⟨fields, -, hmeta⟩ := Option.bind_eq_some_iff.mp hmeta
    split at hmeta
    · obtain ⟨time, htime, hmeta⟩ := Option.bind_eq_some_iff.mp hmeta
      obtain ⟨registered, -, hmeta⟩ := Option.bind_eq_some_iff.mp hmeta
      cases hmeta
      exact Json.forall_mem_of_optional (fun _ _ => Timestamp.representable_of_ofJson?) htime
    · cases hmeta
  · cases h

end Coin

end UtxoWallet
