import UtxoWallet.Json.Basic

/-!
# Reading JSON text

Text is split into tokens, and tokens are assembled into a value; both steps are folds, over the
characters and over the tokens. The grammar is strict: blanks are the four of JSON, a literal ends
where a blank, a quote or punctuation begins, and nothing may follow the value.

Assembling inverts `Json.tokens`: running the assembler over `v.tokens` completes `v`, whatever it
is nested in (`ofTokens?_tokens`).
-/

namespace UtxoWallet.Json

/-! ### From characters to tokens -/

/-- Is the character white space between tokens? -/
def isSpace (c : Char) : Bool :=
  c = ' ' || c = '\t' || c = '\n' || c = '\r'

/-- The token of a punctuation character. -/
def punctuation? (c : Char) : Option Token :=
  if c = '[' then some .openArray
  else if c = ']' then some .closeArray
  else if c = '\x7b' then some .openObject
  else if c = '\x7d' then some .closeObject
  else if c = ',' then some .comma
  else if c = ':' then some .colon
  else none

/-- The token of a literal without quotes. -/
def bareToken? (s : List Char) : Option Token :=
  if s = ['n', 'u', 'l', 'l'] then some .null
  else if s = ['t', 'r', 'u', 'e'] then some (.bool true)
  else if s = ['f', 'a', 'l', 's', 'e'] then some (.bool false)
  else (Number.read? s).map .number

/-- The token of a literal whose inside is given. -/
def stringToken? (s : List Char) : Option Token :=
  (Quoted.decode? s).map fun text => .string (text.map String.ofList)

/-- Where the lexer stands: between tokens, inside a literal without quotes, or inside a quoted one,
perhaps right after a backslash. What has been read of a literal is kept in reverse. -/
inductive Lexer.Place where
  | between
  | bare (read : List Char)
  | quoted (read : List Char) (escaped : Bool)

/-- The lexer: its place, and the tokens so far in reverse. -/
structure Lexer where
  place : Lexer.Place
  read : List Token

namespace Lexer

/-- The lexer before the first character. -/
def start : Lexer :=
  ⟨.between, []⟩

/-- Takes a character that stands between tokens. -/
def stepBetween (read : List Token) (c : Char) : Lexer :=
  if isSpace c then ⟨.between, read⟩
  else if c = '"' then ⟨.quoted [] false, read⟩
  else match punctuation? c with
    | some token => ⟨.between, token :: read⟩
    | none => ⟨.bare [c], read⟩

/-- Does the character end a literal without quotes? -/
def endsBare (c : Char) : Bool :=
  isSpace c || c = '"' || (punctuation? c).isSome

/-- Takes one character. -/
def step (lexer : Lexer) (c : Char) : Option Lexer :=
  match lexer.place with
  | .between => some (stepBetween lexer.read c)
  | .bare s =>
    if endsBare c then (bareToken? s.reverse).map fun token => stepBetween (token :: lexer.read) c
    else some ⟨.bare (c :: s), lexer.read⟩
  | .quoted s true => some ⟨.quoted (c :: s) false, lexer.read⟩
  | .quoted s false =>
    if c = '\\' then some ⟨.quoted (c :: s) true, lexer.read⟩
    else if c = '"' then
      (stringToken? s.reverse).map fun token => ⟨.between, token :: lexer.read⟩
    else some ⟨.quoted (c :: s) false, lexer.read⟩

/-- The tokens at the end of the text, unless a quoted literal is open. -/
def finish (lexer : Lexer) : Option (List Token) :=
  match lexer.place with
  | .between => some lexer.read.reverse
  | .bare s => (bareToken? s.reverse).map fun token => (token :: lexer.read).reverse
  | .quoted _ _ => none

/-- The tokens at the end of the text, if `s` is what is left of it. -/
def run (lexer : Lexer) (s : List Char) : Option (List Token) :=
  (s.foldlM step lexer).bind finish

end Lexer

/-- The tokens of a text. -/
def lex (s : List Char) : Option (List Token) :=
  Lexer.start.run s

/-! ### From tokens to a value -/

/-- An open container, with what it holds so far in reverse; an object waits for the value of a
key. -/
inductive Frame where
  | array (items : List Json)
  | object (members : List (Option String × Json)) (key : Option String)

/-- What may come next, inside the open containers of `stack`, innermost first. -/
inductive Assembler where
  | atValue (stack : List Frame)
  | firstElement (stack : List Frame)
  | firstMember (stack : List Frame)
  | atKey (stack : List Frame) (members : List (Option String × Json))
  | atColon (stack : List Frame) (members : List (Option String × Json)) (key : Option String)
  | afterElement (stack : List Frame) (items : List Json)
  | afterMember (stack : List Frame) (members : List (Option String × Json))
  | done (result : Json)

namespace Assembler

/-- Puts a complete value into the container around it. -/
def complete (value : Json) : List Frame → Assembler
  | [] => .done value
  | .array items :: stack => .afterElement stack (value :: items)
  | .object members key :: stack => .afterMember stack ((key, value) :: members)

/-- Begins a value with its first token. -/
def beginValue (stack : List Frame) : Token → Option Assembler
  | .openArray => some (.firstElement stack)
  | .openObject => some (.firstMember stack)
  | .null => some (complete .null stack)
  | .bool b => some (complete (.bool b) stack)
  | .number n => some (complete (.number n) stack)
  | .string s => some (complete (.string s) stack)
  | _ => none

/-- Takes one token. -/
def step : Assembler → Token → Option Assembler
  | .atValue stack, token => beginValue stack token
  | .firstElement stack, .closeArray => some (complete (.array []) stack)
  | .firstElement stack, token => beginValue (.array [] :: stack) token
  | .firstMember stack, .closeObject => some (complete (.object []) stack)
  | .firstMember stack, .string key => some (.atColon stack [] key)
  | .atKey stack members, .string key => some (.atColon stack members key)
  | .atColon stack members key, .colon => some (.atValue (.object members key :: stack))
  | .afterElement stack items, .comma => some (.atValue (.array items :: stack))
  | .afterElement stack items, .closeArray => some (complete (.array items.reverse) stack)
  | .afterMember stack members, .comma => some (.atKey stack members)
  | .afterMember stack members, .closeObject => some (complete (.object members.reverse) stack)
  | _, _ => none

/-- The value, if it is complete. -/
def result? : Assembler → Option Json
  | .done value => some value
  | _ => none

end Assembler

/-- The value that some tokens spell. -/
def ofTokens? (tokens : List Token) : Option Json :=
  (tokens.foldlM Assembler.step (.atValue [])).bind Assembler.result?

def read? (s : String) : Option Json :=
  (lex s.toList).bind ofTokens?

/-! ### Assembling the tokens of a value -/

mutual

theorem step_tokens (value : Json) (stack : List Frame) (rest : List Token) :
    (value.tokens ++ rest).foldlM Assembler.step (.atValue stack) =
      rest.foldlM Assembler.step (Assembler.complete value stack) := by
  cases value with
  | array items =>
    exact step_elementTokens items stack rest
  | object members =>
    exact step_memberTokens members stack rest
  | _ => rfl

theorem step_tokens_first (value : Json) (stack : List Frame) (rest : List Token) :
    (value.tokens ++ rest).foldlM Assembler.step (.firstElement stack) =
      rest.foldlM Assembler.step (.afterElement stack [value]) := by
  cases value with
  | array items =>
    exact step_elementTokens items (.array [] :: stack) rest
  | object members =>
    exact step_memberTokens members (.array [] :: stack) rest
  | _ => rfl

theorem step_elementTokens (items : List Json) (stack : List Frame) (rest : List Token) :
    (elementTokens items ++ rest).foldlM Assembler.step (.firstElement stack) =
      rest.foldlM Assembler.step (Assembler.complete (.array items) stack) := by
  cases items with
  | nil => rfl
  | cons item items =>
    simp only [elementTokens, List.append_assoc]
    rw [step_tokens_first item stack, step_moreElementTokens items stack [item] rest]
    rfl

theorem step_moreElementTokens (items : List Json) (stack : List Frame) (done : List Json)
    (rest : List Token) :
    (moreElementTokens items ++ rest).foldlM Assembler.step (.afterElement stack done) =
      rest.foldlM Assembler.step (Assembler.complete (.array (done.reverse ++ items)) stack) := by
  cases items with
  | nil => simp [moreElementTokens, Assembler.step]
  | cons item items =>
    simp only [moreElementTokens, List.cons_append, List.append_assoc]
    refine (step_tokens item (.array done :: stack) _).trans ?_
    refine (step_moreElementTokens items stack (item :: done) rest).trans ?_
    simp

theorem step_memberTokens (members : List (Option String × Json)) (stack : List Frame)
    (rest : List Token) :
    (memberTokens members ++ rest).foldlM Assembler.step (.firstMember stack) =
      rest.foldlM Assembler.step (Assembler.complete (.object members) stack) := by
  match members with
  | [] => rfl
  | (key, value) :: members =>
    simp only [memberTokens, List.cons_append, List.append_assoc]
    refine (step_tokens value (.object [] key :: stack) _).trans ?_
    exact step_moreMemberTokens members stack [(key, value)] rest

theorem step_moreMemberTokens (members : List (Option String × Json)) (stack : List Frame)
    (done : List (Option String × Json)) (rest : List Token) :
    (moreMemberTokens members ++ rest).foldlM Assembler.step (.afterMember stack done) =
      rest.foldlM Assembler.step
        (Assembler.complete (.object (done.reverse ++ members)) stack) := by
  match members with
  | [] => simp [moreMemberTokens, Assembler.step]
  | (key, value) :: members =>
    simp only [moreMemberTokens, List.cons_append, List.append_assoc]
    refine (step_tokens value (.object done key :: stack) _).trans ?_
    refine (step_moreMemberTokens members stack ((key, value) :: done) rest).trans ?_
    simp

end

theorem ofTokens?_tokens (value : Json) : ofTokens? value.tokens = some value := by
  have h := step_tokens value [] []
  rw [List.append_nil] at h
  simp [ofTokens?, h, Assembler.complete, Assembler.result?]

end UtxoWallet.Json
