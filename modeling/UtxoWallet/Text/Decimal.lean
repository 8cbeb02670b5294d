/-!
# Natural numbers and integers in decimal

A number is written with the digits it needs and no sign but a minus. It is read from ASCII digits
with one optional sign before them; leading zeros are allowed, separators and blanks are not.
-/

namespace UtxoWallet.Text.Decimal

/-- The digits of a number, most significant first. -/
def digits (n : Nat) : List Char :=
  Nat.toDigits 10 n

/-- The number that a text of digits stands for. -/
def ofDigits (s : List Char) : Nat :=
  Nat.ofDigitChars 10 s 0

theorem ofDigits_digits (n : Nat) : ofDigits (digits n) = n :=
  Nat.ofDigitChars_toDigits (by decide) (by decide)

theorem isDigit_of_mem_digits {n : Nat} {c : Char} (h : c ∈ digits n) : c.isDigit :=
  Nat.isDigit_of_mem_toDigits (by decide) (by decide) h

theorem digits_ne_nil (n : Nat) : digits n ≠ [] :=
  Nat.toDigits_ne_nil

/-- So many digits stand for a number below that power of ten. -/
theorem ofDigits_lt {s : List Char} (digits : ∀ c ∈ s, c.isDigit) :
    ofDigits s < Nat.pow 10 s.length := by
  induction s with
  | nil => decide
  | cons c s ih =>
    rw [List.forall_mem_cons] at digits
    obtain ⟨isDigit, digits⟩ := digits
    have low := ih digits
    have first : c.toNat - '0'.toNat ≤ 9 := by
      simp only [Char.isDigit, Bool.and_eq_true, decide_eq_true_eq] at isDigit
      have bounds : 48 ≤ c.toNat ∧ c.toNat ≤ 57 := isDigit
      exact Nat.sub_le_of_le_add bounds.2
    rw [ofDigits, Nat.ofDigitChars_cons, Nat.ofDigitChars_eq_ofDigitChars_zero, ← ofDigits,
      List.length_cons]
    calc Nat.pow 10 s.length * (10 * 0 + (c.toNat - '0'.toNat)) + ofDigits s
      _ < Nat.pow 10 s.length * (10 * 0 + (c.toNat - '0'.toNat)) + Nat.pow 10 s.length :=
        Nat.add_lt_add_left low _
      _ = Nat.pow 10 s.length * (c.toNat - '0'.toNat + 1) := by
        rw [Nat.mul_zero, Nat.zero_add, Nat.mul_add_one]
      _ ≤ Nat.pow 10 s.length * 10 := Nat.mul_le_mul_left _ (Nat.succ_le_succ first)

/-- No number but zero begins with a zero. -/
theorem head?_digits {n : Nat} (h : (digits n).head? = some '0') : n = 0 := by
  induction n using Nat.strongRecOn with
  | ind n ih =>
    by_cases small : n < 10
    · rw [digits, Nat.toDigits_of_lt_base small, List.head?_cons, Option.some_inj] at h
      exact Nat.digitChar_eq_zero.1 h
    · obtain ⟨c, s, parts⟩ := List.exists_cons_of_ne_nil (digits_ne_nil (n / 10))
      have first : (digits (n / 10)).head? = some '0' := by
        rw [digits, Nat.toDigits_of_base_le (by decide) (by omega), ← digits, parts] at h
        rw [parts]
        exact h
      have := ih (n / 10) (by omega) first
      omega

/-- Reads one or more digits and nothing else. -/
def readDigits? (s : List Char) : Option Nat :=
  if !s.isEmpty && s.all Char.isDigit then some (ofDigits s) else none

/-- Reads a natural number, which may have a plus sign. -/
def read? : List Char → Option Nat
  | '+' :: s => readDigits? s
  | s => readDigits? s

def readInt? : List Char → Option Int
  | '-' :: s => (readDigits? s).map fun n => -(n : Int)
  | s => (read? s).map Int.ofNat

def write (n : Nat) : String :=
  String.ofList (digits n)

def writeInt : Int → String
  | .ofNat n => write n
  | .negSucc n => String.ofList ('-' :: digits (n + 1))

/-- Writes at least `width` digits, filling up with zeros. -/
def pad (width n : Nat) : List Char :=
  List.replicate (width - (digits n).length) '0' ++ digits n

theorem readDigits?_digits (n : Nat) : readDigits? (digits n) = some n := by
  have all : (digits n).all Char.isDigit := List.all_eq_true.2 fun _ => isDigit_of_mem_digits
  simp [readDigits?, digits_ne_nil, all, ofDigits_digits]

/-- Digits with something else behind them are the leading digits of the text. -/
theorem takeWhile_digits_append (n : Nat) {rest : List Char} (h : rest.head?.all (!·.isDigit)) :
    (digits n ++ rest).takeWhile Char.isDigit = digits n := by
  rw [List.takeWhile_append_of_pos fun _ => isDigit_of_mem_digits]
  cases rest <;> simp_all

theorem dropWhile_digits_append (n : Nat) {rest : List Char} (h : rest.head?.all (!·.isDigit)) :
    (digits n ++ rest).dropWhile Char.isDigit = rest := by
  rw [List.dropWhile_append_of_pos fun _ => isDigit_of_mem_digits]
  cases rest <;> simp_all

theorem read?_digits (n : Nat) : read? (digits n) = some n := by
  unfold read?
  split
  · next s h =>
    have : '+' ∈ digits n := h ▸ List.mem_cons_self
    exact absurd (isDigit_of_mem_digits this) (by decide)
  · exact readDigits?_digits n

theorem readInt?_writeInt (n : Int) : readInt? (writeInt n).toList = some n := by
  cases n with
  | ofNat n =>
    unfold readInt?
    rw [writeInt, write, String.toList_ofList]
    split
    · next s h =>
      have : '-' ∈ digits n := h ▸ List.mem_cons_self
      exact absurd (isDigit_of_mem_digits this) (by decide)
    · rw [read?_digits]
      rfl
  | negSucc n =>
    rw [writeInt, String.toList_ofList, readInt?, readDigits?_digits]
    rfl

/-! ### Padded digits -/

theorem ofDigits_pad (width n : Nat) : ofDigits (pad width n) = n := by
  rw [pad, ofDigits, Nat.ofDigitChars_append, Nat.ofDigitChars_replicate_zero, Nat.mul_zero]
  exact ofDigits_digits n

theorem isDigit_of_mem_pad {width n : Nat} {c : Char} (h : c ∈ pad width n) : c.isDigit := by
  rcases List.mem_append.1 h with h | h
  · cases List.eq_of_mem_replicate h
    decide
  · exact isDigit_of_mem_digits h

theorem pad_ne_nil (width n : Nat) : pad width n ≠ [] :=
  List.append_ne_nil_of_right_ne_nil _ (digits_ne_nil n)

/-- A number that fits the width takes it exactly. -/
theorem length_pad {width n : Nat} (positive : 0 < width) (h : n < Nat.pow 10 width) :
    (pad width n).length = width := by
  have fits : (digits n).length ≤ width := (Nat.length_toDigits_le_iff (by decide) positive).2 h
  rw [pad, List.length_append, List.length_replicate]
  omega

end UtxoWallet.Text.Decimal
