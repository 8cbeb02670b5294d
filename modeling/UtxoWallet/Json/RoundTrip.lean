import UtxoWallet.Json.Reader

/-!
# Written JSON reads back

A value is written as the texts of its tokens, with nothing between them. The lexer finds these
tokens again: it takes a quoted literal from quote to quote, punctuation character by character, and
a word or number up to the character that ends it. That works because the tokens of a value are
spaced, which is to say that punctuation stands between any two words or numbers.

    lex v.write = some v.tokens        ofTokens? v.tokens = some v

Together they give the main statement, `read? v.write = some v` (`Json.read?_write`).
-/

namespace UtxoWallet.Json

namespace Lexer

theorem run_nil (lexer : Lexer) : run lexer [] = lexer.finish :=
  rfl

theorem run_cons (lexer : Lexer) (c : Char) (s : List Char) :
    run lexer (c :: s) = (lexer.step c).bind (run · s) := by
  cases h : lexer.step c <;> simp [run, h]

/-! ### Quoted literals -/

theorem run_escape (read : List Token) (acc : List Char) (c : Char) (rest : List Char) :
    run ⟨.quoted acc false, read⟩ (Quoted.escape c ++ rest) =
      run ⟨.quoted ((Quoted.escape c).reverse ++ acc) false, read⟩ rest := by
  unfold Quoted.escape
  cases h : Quoted.shortName? c with
  | some name => simp [run_cons, step]
  | none =>
    have plain : c ≠ '\\' ∧ c ≠ '"' := by
      constructor <;> rintro rfl <;> cases h
    by_cases control : c.toNat < 0x20
    · have digits : ∀ n < 16, Text.hexDigit n ≠ '\\' ∧ Text.hexDigit n ≠ '"' := by decide
      have high := digits (c.toNat / 16) (by omega)
      have low := digits (c.toNat % 16) (by omega)
      simp [run_cons, step, control, high, low]
    · simp [run_cons, step, control, plain]

theorem run_encode (read : List Token) (s : List Char) : ∀ (acc rest : List Char),
    run ⟨.quoted acc false, read⟩ (Quoted.encode s ++ rest) =
      run ⟨.quoted ((Quoted.encode s).reverse ++ acc) false, read⟩ rest := by
  induction s with
  | nil => intro acc rest; rfl
  | cons c s ih =>
    intro acc rest
    rw [Quoted.encode, List.flatMap_cons, List.append_assoc, run_escape, ← Quoted.encode, ih,
      List.reverse_append, List.append_assoc]

theorem run_stringText (read : List Token) (s : Option String) (rest : List Char) :
    run ⟨.between, read⟩ (Token.text (.string s) ++ rest) =
      run ⟨.between, .string s :: read⟩ rest := by
  cases s with
  | none =>
    have closing : stringToken? ['\\', 'u', 'd', '8', '0', '0'] = some (.string none) := by cbv
    simp [Token.text, run_cons, step, stepBetween, isSpace, closing]
  | some s =>
    have closing : stringToken? (Quoted.encode s.toList) = some (.string (some s)) := by
      simp [stringToken?, Quoted.decode?_encode]
    rw [Token.text, List.cons_append, List.append_assoc, run_cons]
    simp only [step, stepBetween]
    simp [isSpace, run_encode, run_cons, step, closing]

/-! ### Literals without quotes -/

theorem endsBare_of_isDigit {c : Char} (h : c.isDigit) : endsBare c = false := by
  have other : ∀ d : Char, d.isDigit = false → c ≠ d := by
    rintro d notDigit rfl
    rw [h] at notDigit
    cases notDigit
  simp [endsBare, isSpace, punctuation?, other ' ' rfl, other '\t' rfl, other '\n' rfl,
    other '\r' rfl, other '"' rfl, other '[' rfl, other ']' rfl, other '\x7b' rfl,
    other '\x7d' rfl, other ',' rfl, other ':' rfl]

theorem endsBare_of_mem_digits {n : Nat} {c : Char} (h : c ∈ Text.Decimal.digits n) :
    endsBare c = false :=
  endsBare_of_isDigit (Text.Decimal.isDigit_of_mem_digits h)

theorem endsBare_of_mem_writeInt {n : Int} {c : Char}
    (h : c ∈ (Text.Decimal.writeInt n).toList) : endsBare c = false := by
  cases n with
  | ofNat n =>
    rw [Text.Decimal.writeInt, Text.Decimal.write, String.toList_ofList] at h
    exact endsBare_of_mem_digits h
  | negSucc n =>
    rw [Text.Decimal.writeInt, String.toList_ofList] at h
    rcases List.mem_cons.1 h with rfl | h
    · decide
    · exact endsBare_of_mem_digits h

theorem endsBare_of_mem_write {n : Number} {c : Char} (h : c ∈ n.write) : endsBare c = false := by
  cases n with
  | natural n => exact endsBare_of_mem_digits h
  | scaled mantissa exponent =>
    rcases List.mem_append.1 h with h | h
    · exact endsBare_of_mem_digits h
    rcases List.mem_cons.1 h with rfl | h
    · decide
    · exact endsBare_of_mem_writeInt h

end Lexer

/-- Is the token written without quotes, as a word or a number? -/
def Token.isBare : Token → Bool
  | .null | .bool _ | .number _ => true
  | _ => false

theorem endsBare_of_mem_text {t : Token} (bare : t.isBare) {c : Char} (h : c ∈ t.text) :
    Lexer.endsBare c = false := by
  have word : ∀ s : List Char, s.all (!Lexer.endsBare ·) → ∀ c ∈ s, Lexer.endsBare c = false :=
    fun s all c mem => by simpa using List.all_eq_true.1 all c mem
  cases t with
  | null => exact word _ (by decide) c h
  | bool b => cases b <;> exact word _ (by decide) c h
  | number n => exact Lexer.endsBare_of_mem_write h
  | _ => cases bare

theorem exists_digit_of_write (n : Number) : ∃ c s, n.write = c :: s ∧ c.isDigit := by
  have first : ∀ n rest, ∃ c s, Text.Decimal.digits n ++ rest = c :: s ∧ c.isDigit := by
    intro n rest
    obtain ⟨c, s, parts⟩ := List.exists_cons_of_ne_nil (Text.Decimal.digits_ne_nil n)
    exact ⟨c, s ++ rest, by rw [parts]; rfl,
      Text.Decimal.isDigit_of_mem_digits (parts ▸ List.mem_cons_self)⟩
  cases n with
  | natural n => simpa [Number.write] using first n []
  | scaled mantissa exponent => exact first mantissa _

theorem text_ne_nil {t : Token} (bare : t.isBare) : t.text ≠ [] := by
  cases t with
  | null => decide
  | bool b => cases b <;> decide
  | number n =>
    obtain ⟨c, s, parts, -⟩ := exists_digit_of_write n
    rw [Token.text, parts]
    exact List.cons_ne_nil c s
  | _ => cases bare

theorem bareToken?_text {t : Token} (bare : t.isBare) : bareToken? t.text = some t := by
  cases t with
  | null => rfl
  | bool b => cases b <;> rfl
  | number n =>
    obtain ⟨c, s, parts, isDigit⟩ := exists_digit_of_write n
    have other : ∀ d s, d.isDigit = false → n.write ≠ d :: s := by
      rintro d s notDigit same
      rw [same] at parts
      cases parts
      rw [isDigit] at notDigit
      cases notDigit
    simp [bareToken?, Token.text, other 'n' _ rfl, other 't' _ rfl, other 'f' _ rfl,
      Number.read?_write]
  | _ => cases bare

namespace Lexer

theorem run_bare (read : List Token) : ∀ (s acc rest : List Char), (∀ c ∈ s, endsBare c = false) →
    run ⟨.bare acc, read⟩ (s ++ rest) = run ⟨.bare (s.reverse ++ acc), read⟩ rest
  | [], _, _, _ => rfl
  | c :: s, acc, rest, h => by
    rw [List.cons_append, run_cons]
    simp only [step, h c List.mem_cons_self]
    simpa using run_bare read s (c :: acc) rest fun d mem => h d (List.mem_cons_of_mem c mem)

/-- A literal without quotes is one token, if nothing follows that could belong to it. -/
theorem run_bareText (read : List Token) {t : Token} (bare : t.isBare) {rest : List Char}
    (h : rest.head?.all endsBare) :
    run ⟨.between, read⟩ (t.text ++ rest) = run ⟨.between, t :: read⟩ rest := by
  obtain ⟨c, s, parts⟩ := List.exists_cons_of_ne_nil (text_ne_nil bare)
  have inside : ∀ d ∈ c :: s, endsBare d = false := fun d mem =>
    endsBare_of_mem_text bare (parts ▸ mem)
  have reads : bareToken? (s.reverse ++ [c]).reverse = some t := by
    simpa [← parts] using bareToken?_text bare
  have opens : stepBetween read c = ⟨.bare [c], read⟩ := by
    have := inside c List.mem_cons_self
    simp [endsBare] at this
    simp [stepBetween, this]
  rw [parts, List.cons_append, run_cons]
  simp only [step, opens, Option.bind_some]
  rw [run_bare read s [c] rest fun d mem => inside d (List.mem_cons_of_mem c mem)]
  -- The token is complete where the text ends, or where the next character ends it.
  cases rest with
  | nil =>
    simp only [run_nil, finish, reads]
    rfl
  | cons d rest =>
    have ends : endsBare d = true := by simpa using h
    simp only [run_cons, step, ends, if_true, reads]
    rfl

/-! ### Tokens -/

theorem run_text (read : List Token) (t : Token) {rest : List Char}
    (h : t.isBare → rest.head?.all endsBare) :
    run ⟨.between, read⟩ (t.text ++ rest) = run ⟨.between, t :: read⟩ rest := by
  cases t with
  | null => exact run_bareText read rfl (h rfl)
  | bool b => exact run_bareText read rfl (h rfl)
  | number n => exact run_bareText read rfl (h rfl)
  | string s => exact run_stringText read s rest
  | _ => simp [Token.text, run_cons, step, stepBetween, isSpace, punctuation?]

end Lexer

/-- Does no literal without quotes stand right before another? -/
def spaced : List Token → Bool
  | a :: b :: rest => !(a.isBare && b.isBare) && spaced (b :: rest)
  | _ => true

/-- Is the first token, if there is one, set off from a literal before it? -/
def setOff (tokens : List Token) : Bool :=
  tokens.head?.all (!·.isBare)

theorem spaced_cons {t : Token} {rest : List Token} (h : t.isBare = false ∨ setOff rest) :
    spaced (t :: rest) = spaced rest := by
  cases rest with
  | nil => rfl
  | cons b rest => rcases h with h | h <;> simp_all [spaced, setOff]

theorem setOff_of_spaced {t : Token} {rest : List Token} (h : spaced (t :: rest))
    (bare : t.isBare) : setOff rest := by
  cases rest with
  | nil => rfl
  | cons b rest => simp_all [spaced, setOff]

theorem endsBare_head?_flatMap {tokens : List Token} (h : setOff tokens) :
    (tokens.flatMap Token.text).head?.all Lexer.endsBare := by
  cases tokens with
  | nil => rfl
  | cons t rest =>
    cases t with
    | string s => cases s <;> rfl
    | null | bool _ | number _ => cases h
    | _ => rfl

theorem Lexer.run_flatMap_text (tokens : List Token) : ∀ (read : List Token), spaced tokens →
    run ⟨.between, read⟩ (tokens.flatMap Token.text) = some (read.reverse ++ tokens) := by
  induction tokens with
  | nil => intro read _; simp [run_nil, finish]
  | cons t rest ih =>
    intro read h
    have inner : spaced rest := by
      cases bare : t.isBare with
      | false => rwa [spaced_cons (.inl bare)] at h
      | true => rwa [spaced_cons (.inr (setOff_of_spaced h bare))] at h
    rw [List.flatMap_cons,
      run_text read t fun bare => endsBare_head?_flatMap (setOff_of_spaced h bare),
      ih (t :: read) inner]
    simp

/-! ### The tokens of a value -/

theorem setOff_moreElementTokens (items : List Json) (rest : List Token) :
    setOff (moreElementTokens items ++ rest) := by
  cases items <;> rfl

theorem setOff_moreMemberTokens (members : List (Option String × Json)) (rest : List Token) :
    setOff (moreMemberTokens members ++ rest) := by
  cases members <;> rfl

mutual

theorem spaced_tokens (value : Json) {rest : List Token} (h : setOff rest) :
    spaced (value.tokens ++ rest) = spaced rest := by
  cases value with
  | array items =>
    exact (spaced_cons (.inl rfl)).trans (spaced_elementTokens items rest)
  | object members =>
    exact (spaced_cons (.inl rfl)).trans (spaced_memberTokens members rest)
  | _ => exact spaced_cons (.inr h)

theorem spaced_elementTokens (items : List Json) (rest : List Token) :
    spaced (elementTokens items ++ rest) = spaced rest := by
  cases items with
  | nil => exact spaced_cons (.inl rfl)
  | cons item items =>
    rw [elementTokens, List.append_assoc, spaced_tokens item (setOff_moreElementTokens items rest)]
    exact spaced_moreElementTokens items rest

theorem spaced_moreElementTokens (items : List Json) (rest : List Token) :
    spaced (moreElementTokens items ++ rest) = spaced rest := by
  cases items with
  | nil => exact spaced_cons (.inl rfl)
  | cons item items =>
    rw [moreElementTokens, List.cons_append, spaced_cons (.inl rfl), List.append_assoc,
      spaced_tokens item (setOff_moreElementTokens items rest)]
    exact spaced_moreElementTokens items rest

theorem spaced_memberTokens (members : List (Option String × Json)) (rest : List Token) :
    spaced (memberTokens members ++ rest) = spaced rest := by
  match members with
  | [] => exact spaced_cons (.inl rfl)
  | (key, value) :: members =>
    rw [memberTokens, List.cons_append, spaced_cons (.inl rfl), List.cons_append,
      spaced_cons (.inl rfl), List.append_assoc,
      spaced_tokens value (setOff_moreMemberTokens members rest)]
    exact spaced_moreMemberTokens members rest

theorem spaced_moreMemberTokens (members : List (Option String × Json)) (rest : List Token) :
    spaced (moreMemberTokens members ++ rest) = spaced rest := by
  match members with
  | [] => exact spaced_cons (.inl rfl)
  | (key, value) :: members =>
    rw [moreMemberTokens, List.cons_append, spaced_cons (.inl rfl), List.cons_append,
      spaced_cons (.inl rfl), List.cons_append, spaced_cons (.inl rfl), List.append_assoc,
      spaced_tokens value (setOff_moreMemberTokens members rest)]
    exact spaced_moreMemberTokens members rest

end

theorem lex_write (value : Json) : lex value.write.toList = some value.tokens := by
  have h := @spaced_tokens value [] rfl
  rw [List.append_nil] at h
  rw [write, String.toList_ofList]
  exact Lexer.run_flatMap_text value.tokens [] h

/-- A written value reads back. -/
theorem read?_write (value : Json) : read? value.write = some value := by
  rw [read?, lex_write, Option.bind_some, ofTokens?_tokens]

end UtxoWallet.Json
