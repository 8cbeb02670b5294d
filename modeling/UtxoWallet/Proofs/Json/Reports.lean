import UtxoWallet.Json.RoundTrip
import UtxoWallet.Proofs.Json.Records
import UtxoWallet.Update.Format

/-! # Reports survive their text

A report is a record of records and lists, down to texts, numbers and instants, and each of these
reads back what it writes; only an instant does not if no text can stand for it, and such instants are
never read. A report that names its type has the fields of an update behind the type, and is read
twice: by its type alone, and by the fields of the update, which leave the type alone
(`Json.fields?_tag` and `Json.fields?_tagged`). Before that the whole text has to be sound, which all
that is written is, at the depth where it stands.

`reports_survive` says so of texts: what is written reads back, for just the values that are ever read,
so that of all the spellings of a value the written one settles.
-/

namespace UtxoWallet

/-! ## What is written is sound -/

namespace Json

variable {depth : Nat}

theorem isSound_natural {n : Nat} (h : n < UInt64.size) : (natural n).isSound depth :=
  Number.isFinite_natural h

theorem isSound_text (s : String) : (text s).isSound depth := rfl

theorem isSound_nullable {α : Type} {write : α → Json} (h : ∀ a, (write a).isSound depth)
    (value : Option α) : (nullable write value).isSound depth := by
  cases value with
  | none => rfl
  | some a => exact h a

theorem isSound_list {α : Type} {write : α → Json} (h : ∀ a, (write a).isSound depth)
    (items : List α) : (list write items).isSound (depth + 1) := by
  show areSound depth (items.map write)
  induction items with
  | nil => rfl
  | cons a items ih => exact Bool.and_eq_true_iff.mpr ⟨h a, ih⟩

/-- A record is as sound as its fields, one level deeper. -/
theorem isSound_record {fields : List (String × Json)}
    (h : ∀ field ∈ fields, field.2.isSound depth) : (record fields).isSound (depth + 1) := by
  show membersAreSound depth (membersOf fields)
  induction fields with
  | nil => rfl
  | cons field fields ih =>
      rw [List.forall_mem_cons] at h
      exact Bool.and_eq_true_iff.mpr ⟨h.1, ih h.2⟩

end Json

section Sound

variable (depth : Nat)

theorem Utxo.isSound_toJson (utxo : Utxo) : utxo.toJson.isSound (depth + 1) := by
  refine Json.isSound_record ?_
  simp only [List.forall_mem_cons]
  refine ⟨rfl, rfl, rfl, rfl, Json.isSound_natural ?_, nofun⟩
  exact Nat.lt_trans utxo.key.outputNo.toNat_lt (by decide)

theorem Coin.isSound_toJson (coin : Coin) : coin.toJson.isSound (depth + 2) := by
  have created : (Json.nullable Timestamp.toJson coin.createdAt).isSound depth :=
    Json.isSound_nullable (fun _ => rfl) _
  refine Json.isSound_record ?_
  simp only [List.forall_mem_cons]
  refine ⟨Utxo.isSound_toJson depth coin.toUtxo, Json.isSound_record ?_, nofun⟩
  simp only [List.forall_mem_cons]
  exact ⟨created, rfl, nofun⟩

theorem SegmentResult.isSound_toJson (result : SegmentResult) :
    result.toJson.isSound (depth + 1) := by
  refine Json.isSound_record ?_
  simp only [List.forall_mem_cons]
  exact ⟨Json.isSound_natural (Nat.lt_trans result.segment.toNat_lt (by decide)), rfl, nofun⟩

theorem Update.isSound_members (update : Update) :
    ∀ field ∈ update.members, field.2.isSound (depth + 3) := by
  simp only [Update.members, List.forall_mem_cons]
  exact ⟨Json.isSound_natural update.id.toNat_lt,
    Json.isSound_list Json.isSound_text _,
    Json.isSound_list (Coin.isSound_toJson depth) _,
    Json.isSound_list (Coin.isSound_toJson depth) _, rfl,
    Json.isSound_list (SegmentResult.isSound_toJson (depth + 1)) _, nofun⟩

/-- No notice is nested deeper than four levels. -/
theorem Notice.isSound_toJson (notice : Notice) : notice.toJson.isSound (depth + 4) := by
  cases notice with
  | progress highest =>
      refine Json.isSound_record ?_
      simp only [List.forall_mem_cons]
      exact ⟨rfl, Json.isSound_natural highest.toNat_lt, nofun⟩
  | transaction update =>
      refine Json.isSound_record ?_
      rw [List.forall_mem_cons]
      exact ⟨rfl, update.isSound_members depth⟩

end Sound

/-! ## Each record reads back -/

theorem Status.ofJson?_toJson (leniency : Json.Leniency) (status : Status) :
    ofJson? leniency status.toJson = some status := by
  cases status <;> rfl

theorem SegmentResult.ofJson?_toJson (result : SegmentResult) :
    ofJson? result.toJson = some result := by
  rw [ofJson?, toJson, Json.fields?_record]
  · simp only [List.map_cons, List.map_nil, Option.bind_eq_bind, Option.bind_some,
      Json.required_some, Json.uint16?_natural]
    rfl
  · rfl
  · decide

theorem Verdict.ofJson?_toJson (leniency : Json.Leniency) (verdict : Verdict) :
    ofJson? leniency verdict.toJson = some verdict := by
  rw [ofJson?, toJson, Json.fields?_record]
  · simp only [List.map_cons, List.map_nil, Option.bind_eq_bind, Option.bind_some,
      Json.required_some, Json.orElse_some, Status.ofJson?_toJson,
      Json.list?_list SegmentResult.ofJson?_toJson]
    rfl
  · rfl
  · decide

namespace Update

/-- Can texts stand for the times of all coins of the update? -/
structure Representable (update : Update) : Prop where
  created : ∀ coin ∈ update.created, coin.Representable
  spent : ∀ coin ∈ update.spent, coin.Representable

/-- The names of the fields of an update. -/
def fieldNames : List String :=
  ["transactionId", "identifiers", "createdUtxos", "spentUtxos", "status", "segments"]

/-- An update is told by its fields, whatever stands beside them. -/
theorem ofJson?_of_fields {leniency : Json.Leniency} {update : Update} {json : Json}
    (representable : update.Representable)
    (h : json.fields? fieldNames 5 = some (update.members.map fun field => some field.2)) :
    ofJson? leniency json = some update := by
  have hcreated := Json.list?_list_of_mem fun coin hmem =>
    Coin.ofJson?_toJson (representable.created coin hmem)
  have hspent := Json.list?_list_of_mem fun coin hmem =>
    Coin.ofJson?_toJson (representable.spent coin hmem)
  rw [fieldNames] at h
  rw [ofJson?, h]
  simp only [members, List.map_cons, List.map_nil, Option.bind_eq_bind, Option.bind_some,
    Json.required_some, Json.orElse_some, Json.uint64?_natural, Json.list?_list Json.text?_text,
    hcreated, hspent, Status.ofJson?_toJson, Json.list?_list SegmentResult.ofJson?_toJson,
    OrderedSet.ofList_toList]
  rfl

theorem ofJson?_toJson (leniency : Json.Leniency) {update : Update}
    (representable : update.Representable) : ofJson? leniency update.toJson = some update :=
  ofJson?_of_fields representable (Json.fields?_record rfl (by decide))

theorem representable_of_ofJson? {leniency : Json.Leniency} {json : Json} {update : Update}
    (h : ofJson? leniency json = some update) : update.Representable := by
  simp only [ofJson?, Option.bind_eq_bind] at h
  obtain ⟨fields, -, h⟩ := Option.bind_eq_some_iff.mp h
  split at h
  · obtain ⟨id, -, h⟩ := Option.bind_eq_some_iff.mp h
    obtain ⟨identifiers, -, h⟩ := Option.bind_eq_some_iff.mp h
    obtain ⟨created, hcreated, h⟩ := Option.bind_eq_some_iff.mp h
    obtain ⟨spent, hspent, h⟩ := Option.bind_eq_some_iff.mp h
    obtain ⟨status, -, h⟩ := Option.bind_eq_some_iff.mp h
    obtain ⟨segments, -, h⟩ := Option.bind_eq_some_iff.mp h
    cases h
    have only := fun json coin => @Coin.representable_of_ofJson? json coin
    exact ⟨Json.forall_mem_of_orElse_list? only hcreated, Json.forall_mem_of_orElse_list? only hspent⟩
  · cases h

end Update

namespace Notice

/-- Can texts stand for the times of all coins of the notice? -/
def Representable : Notice → Prop
  | .progress _ => True
  | .transaction update => update.Representable

/-- A record is read by its type first, if it has one. -/
theorem untag?_record {fields : List (String × Json)} (tag : Json)
    (distinct : ("type" :: fields.map (·.1)).Nodup) :
    untag? (.record (("type", tag) :: fields)) =
      some (tag, .record (("type", tag) :: fields)) := by
  have read : (Json.record (("type", tag) :: fields)).fields? ["type"] 1 = some [some tag] :=
    Json.fields?_tag distinct
  rw [Json.record, List.map_cons] at read ⊢
  rw [untag?, read]
  rfl

theorem ofJson?_toJson (leniency : Json.Leniency) {notice : Notice}
    (representable : notice.Representable) : ofJson? leniency notice.toJson = some notice := by
  cases notice with
  | progress highest =>
      have distinct : ("type" :: ["highestTransactionId"]).Nodup := by decide
      rw [ofJson?, toJson, untag?_record]
      · simp only [Option.bind_eq_bind, Option.bind_some, typeName?, Json.text]
        rw [Json.fields?_tagged]
        · simp only [List.map_cons, List.map_nil, Option.bind_some, Json.required_some,
            Json.uint64?_natural]
          rfl
        · rfl
        · exact distinct
      · exact distinct
  | transaction update =>
      have distinct : ("type" :: Update.fieldNames).Nodup := by decide
      rw [ofJson?, toJson, untag?_record]
      · simp only [Option.bind_eq_bind, Option.bind_some, typeName?, Json.text]
        rw [Update.ofJson?_of_fields representable (Json.fields?_tagged rfl distinct)]
        rfl
      · exact distinct

theorem representable_of_ofJson? {leniency : Json.Leniency} {json : Json} {notice : Notice}
    (h : ofJson? leniency json = some notice) : notice.Representable := by
  simp only [ofJson?, Option.bind_eq_bind] at h
  obtain ⟨⟨tag, rest⟩, -, h⟩ := Option.bind_eq_some_iff.mp h
  obtain ⟨name, -, h⟩ := Option.bind_eq_some_iff.mp h
  split at h
  · obtain ⟨fields, -, h⟩ := Option.bind_eq_some_iff.mp h
    split at h
    · obtain ⟨highest, -, h⟩ := Option.bind_eq_some_iff.mp h
      cases h
      trivial
    · cases h
  · obtain ⟨update, hupdate, h⟩ := Option.bind_eq_some_iff.mp h
    cases h
    exact Update.representable_of_ofJson? hupdate
  · cases h

/-- A written notice is as sound as it has to be. -/
theorem read?_write {notice : Notice} (representable : notice.Representable) :
    read? notice.toJson.write = some notice := by
  have sound : notice.toJson.isSound Json.maxDepth := notice.isSound_toJson 123
  rw [read?, Json.read?_write]
  show (if notice.toJson.isSound Json.maxDepth then _ else _) = _
  rw [if_pos sound, ofJson?_toJson _ representable]

theorem representable_of_read? {text : String} {notice : Notice} (h : read? text = some notice) :
    notice.Representable := by
  simp only [read?, Option.bind_eq_bind] at h
  obtain ⟨json, -, h⟩ := Option.bind_eq_some_iff.mp h
  split at h
  · exact representable_of_ofJson? h
  · cases h

end Notice

/-! ## Texts -/

namespace Json

/-- Reads the text of a value. -/
def readAs {α : Type} (ofJson? : Json → Option α) (text : String) : Option α :=
  (read? text).bind ofJson?

/-- The text that is written of a text that has been read. -/
def rewrite {α : Type} (read : String → Option α) (toJson : α → Json) (text : String) :
    Option String :=
  (read text).map fun a => (toJson a).write

/-- The values that come back from what is written of them are just those that are `Told`, and only
such values are read. So if a text is read, however it spells a value, the text that is written of that
value is read as the same value, and is the text that is written of itself. -/
structure Survives {α : Type} (read : String → Option α) (toJson : α → Json) (Told : α → Prop) :
    Prop where
  back : ∀ a, read (toJson a).write = some a ↔ Told a
  only : ∀ text a, read text = some a → Told a
  settled : ∀ text written, rewrite read toJson text = some written →
    read written = read text ∧ rewrite read toJson written = some written

/-- A text settles because what it is read as comes back. -/
theorem survives_of_back {α : Type} {read : String → Option α} {toJson : α → Json}
    {Told : α → Prop} (back : ∀ a, Told a → read (toJson a).write = some a)
    (only : ∀ text a, read text = some a → Told a) : Survives read toJson Told where
  back a := ⟨only _ a, back a⟩
  only := only
  settled text written h := by
    obtain ⟨a, hread, rfl⟩ := Option.map_eq_some_iff.mp h
    rw [rewrite, back a (only text a hread), hread]
    exact ⟨rfl, rfl⟩

theorem survives_readAs {α : Type} {ofJson? : Json → Option α} {toJson : α → Json}
    {Told : α → Prop} (back : ∀ a, Told a → ofJson? (toJson a) = some a)
    (only : ∀ json a, ofJson? json = some a → Told a) : Survives (readAs ofJson?) toJson Told := by
  refine survives_of_back (fun a told => ?_) fun text a h => ?_
  · rw [readAs, read?_write, Option.bind_some, back a told]
  · obtain ⟨json, -, h⟩ := Option.bind_eq_some_iff.mp h
    exact only json a h

theorem survives_readAs_of_forall {α : Type} {ofJson? : Json → Option α} {toJson : α → Json}
    (back : ∀ a, ofJson? (toJson a) = some a) :
    Survives (readAs ofJson?) toJson fun _ => True :=
  survives_readAs (fun a _ => back a) fun _ _ _ => trivial

end Json

/-- **Reports survive their text.** The text that is written of an outcome or an output gives it back,
and so does that of a report, an update or a coin if texts can stand for the times in it, whatever else
it holds; only such ones are ever read. However a text spells one of these, writing it again changes
the text once at most. -/
theorem reports_survive :
    Json.Survives Notice.read? Notice.toJson Notice.Representable ∧
    (∀ leniency,
      Json.Survives (Json.readAs (Notice.ofJson? leniency)) Notice.toJson Notice.Representable) ∧
    (∀ leniency,
      Json.Survives (Json.readAs (Update.ofJson? leniency)) Update.toJson Update.Representable) ∧
    (∀ leniency,
      Json.Survives (Json.readAs (Verdict.ofJson? leniency)) Verdict.toJson fun _ => True) ∧
    Json.Survives (Json.readAs Coin.ofJson?) Coin.toJson Coin.Representable ∧
    Json.Survives (Json.readAs Output.ofJson?) Output.toJson fun _ => True :=
  ⟨Json.survives_of_back (fun _ => Notice.read?_write) fun _ _ => Notice.representable_of_read?,
    fun leniency => Json.survives_readAs (fun _ => Notice.ofJson?_toJson leniency)
      fun _ _ => Notice.representable_of_ofJson?,
    fun leniency => Json.survives_readAs (fun _ => Update.ofJson?_toJson leniency)
      fun _ _ => Update.representable_of_ofJson?,
    fun leniency => Json.survives_readAs_of_forall (Verdict.ofJson?_toJson leniency),
    Json.survives_readAs (fun _ => Coin.ofJson?_toJson) fun _ _ => Coin.representable_of_ofJson?,
    Json.survives_readAs_of_forall Output.ofJson?_toJson⟩

/-- The type comes last, two lists are missing, and there is an unknown field. Each segment and coin
is an array; the coin is of a leap second, in another time zone. -/
theorem reports_survive_of_spelled :
    let text :=
      "\x7b\"status\":\x7b\"FAILURE\":\x7b\x7d\x7d,\"more\":[1e2,null],\"segments\":[[3,false]]," ++
      "\"spentUtxos\":[[[\"+007\",\"\\u00e9\\n\",\"aB\",\"\",1]," ++
      "[\"1972-07-01 01:59:60.5 +02:00\",true]]],\"transactionId\":18446744073709551615," ++
      "\"type\":\"TransactionUpdate\"\x7d"
    let coin : Coin := {
      value := ⟨7, by decide⟩, owner := "é\n", token := ⟨[0xAB]⟩, key := ⟨⟨[]⟩, 1⟩
      createdAt := some ⟨78796799, 1500000000, by decide, by decide, by decide⟩
      dustRegistered := true }
    let notice : Notice :=
      .transaction ⟨18446744073709551615, OrderedMap.empty, [], [coin], .failure, [⟨3, false⟩]⟩
    Notice.read? text = some notice ∧ notice.toJson.write ≠ text ∧
      Notice.read? notice.toJson.write = some notice ∧
      Json.rewrite Notice.read? Notice.toJson notice.toJson.write = some notice.toJson.write := by
  intro text coin notice
  have read : Notice.read? text = some notice := by decide +kernel
  have written : Json.rewrite Notice.read? Notice.toJson text = some notice.toJson.write := by
    rw [Json.rewrite, read, Option.map_some]
  obtain ⟨same, settled⟩ := reports_survive.1.settled text _ written
  exact ⟨read, by decide +kernel, same.trans read, settled⟩

end UtxoWallet
