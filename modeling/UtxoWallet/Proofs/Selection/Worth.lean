import UtxoWallet.Selection
import UtxoWallet.Transaction

/-! # What coins are worth

The sum of the values of one token, exactly: in the natural numbers no sum overflows. Outputs, unspent
outputs and change outputs have a token and a value as coins have, so all of them are summed up in the
same way.
-/

namespace UtxoWallet

instance : Spendable Output := ⟨(·.token), (·.value)⟩

instance : Spendable Utxo := ⟨(·.token), (·.value)⟩

instance : Spendable Change := ⟨(·.token), (·.value)⟩

variable {γ δ : Type} [Spendable γ] [Spendable δ]

/-- What the items of one token are worth together. -/
def worth (token : TokenType) : List γ → Nat
  | [] => 0
  | item :: items =>
    (if Spendable.token item = token then (Spendable.value item).toNat else 0) + worth token items

@[simp] theorem worth_nil (token : TokenType) : worth token ([] : List γ) = 0 := rfl

theorem worth_cons (token : TokenType) (item : γ) (items : List γ) :
    worth token (item :: items) =
      (if Spendable.token item = token then (Spendable.value item).toNat else 0) +
        worth token items := rfl

@[simp] theorem worth_append (token : TokenType) (l r : List γ) :
    worth token (l ++ r) = worth token l + worth token r := by
  induction l with
  | nil => rw [List.nil_append, worth_nil, Nat.zero_add]
  | cons item l ih => rw [List.cons_append, worth_cons, worth_cons, ih, Nat.add_assoc]

/-- Items of other tokens do not count. -/
theorem worth_of_ne {token : TokenType} {items : List γ}
    (h : ∀ item ∈ items, Spendable.token item ≠ token) : worth token items = 0 := by
  induction items with
  | nil => rfl
  | cons item items ih =>
      rw [List.forall_mem_cons] at h
      rw [worth_cons, if_neg h.1, ih h.2]

/-- The worth of items is told by their tokens and values. -/
theorem worth_map {f : γ → δ} (htoken : ∀ item, Spendable.token (f item) = Spendable.token item)
    (hvalue : ∀ item, Spendable.value (f item) = Spendable.value item) (token : TokenType)
    (items : List γ) : worth token (items.map f) = worth token items := by
  induction items with
  | nil => rfl
  | cons item items ih => rw [List.map_cons, worth_cons, worth_cons, htoken, hvalue, ih]

/-- The order of the items does not matter. -/
theorem worth_perm {l r : List γ} (h : l.Perm r) (token : TokenType) :
    worth token l = worth token r := by
  induction h with
  | nil => rfl
  | cons item _ ih => rw [worth_cons, worth_cons, ih]
  | swap a b items => rw [worth_cons, worth_cons, worth_cons, worth_cons, Nat.add_left_comm]
  | trans _ _ ihl ihr => exact ihl.trans ihr

/-- What a transaction spends of a token. -/
def Transaction.worthIn (tx : Transaction) (token : TokenType) : Nat :=
  worth token tx.inputs

/-- What a transaction creates of a token. -/
def Transaction.worthOut (tx : Transaction) (token : TokenType) : Nat :=
  worth token tx.outputs

end UtxoWallet
