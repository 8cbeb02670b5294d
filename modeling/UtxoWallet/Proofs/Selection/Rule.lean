import UtxoWallet.Proofs.Selection.Queue

/-! # The rule of coin selection

What a selection is, said without the loops that make it, in natural numbers that do not overflow. For
each token the shortest beginning of its queue is taken that reaches the deficit; the native token has
to reach a need that grows with each coin, and goes on while there is a rest that cannot pay for an
output of its own.

`Selection.TokenRule`, `Selection.NativeRule` and `Selection.Rule` are the rule for one token, for the
native one, and for all of them. Each admits one outcome only: `Selection.Rule.unique`.
-/

namespace UtxoWallet

namespace Selection

variable {γ : Type} [Spendable γ]

/-! ## The rule -/

/-- One change output of what is left over, or none if nothing is. -/
def IsChange (token : TokenType) (rest : Nat) (outputs : List Change) : Prop :=
  outputs.map (fun change => (change.token, change.value.toNat)) =
    if rest = 0 then [] else [(token, rest)]

/-- What is chosen for a token that fees are not paid in. -/
inductive TokenRule (coins : List γ) (token : TokenType) (imbalance : Delta) :
    Except BalanceError (Selection γ) → Prop where
  | surplus {outputs : List Change} (surplus : 0 ≤ imbalance.toInt)
      (change : IsChange token imbalance.surplus.toNat outputs) :
      TokenRule coins token imbalance (.ok ⟨[], outputs⟩)
  | covered {queue : List γ} {k : Nat} {outputs : List Change} (deficit : imbalance.toInt < 0)
      (ordered : IsQueue coins token queue)
      (shortest : Shortest queue
        (fun j => imbalance.deficit.toNat ≤ worth token (queue.take j)) k)
      (change : IsChange token (worth token (queue.take k) - imbalance.deficit.toNat) outputs) :
      TokenRule coins token imbalance (.ok ⟨queue.take k, outputs⟩)
  | short {queue : List γ} {missing : Amount} (deficit : imbalance.toInt < 0)
      (ordered : IsQueue coins token queue)
      (never : Never queue fun j => imbalance.deficit.toNat ≤ worth token (queue.take j))
      (lacking : missing.toNat = imbalance.deficit.toNat - worth token coins) :
      TokenRule coins token imbalance (.error (.insufficientFunds token missing))

/-- What is chosen for several tokens, one after the other; the first one that is short counts. -/
inductive TokensRule (coins : List γ) :
    List (TokenType × Delta) → Except BalanceError (Selection γ) → Prop where
  | nil : TokensRule coins [] (.ok empty)
  | short {token : TokenType} {imbalance : Delta} {rest : List (TokenType × Delta)}
      {error : BalanceError} (first : TokenRule coins token imbalance (.error error)) :
      TokensRule coins ((token, imbalance) :: rest) (.error error)
  | cons {token : TokenType} {imbalance : Delta} {rest : List (TokenType × Delta)}
      {part : Selection γ} {outcome : Except BalanceError (Selection γ)}
      (first : TokenRule coins token imbalance (.ok part)) (others : TokensRule coins rest outcome) :
      TokensRule coins ((token, imbalance) :: rest) (outcome.map part.append)

section Native

variable (fees : Fees) (native : TokenType) (held owed : Nat) (queue : List γ)

/-- What there is of the native token with the first `k` coins of the queue. -/
def nativeFunds (k : Nat) : Nat :=
  held + worth native (queue.take k)

/-- What has to be paid in the native token if `k` coins are taken: each raises the fee. -/
def nativeNeed (k : Nat) : Nat :=
  owed + k * fees.input.toNat

/-- Either the need is met exactly, or a change output can be paid for too. -/
def Settles (k : Nat) : Prop :=
  nativeFunds native held queue k = nativeNeed fees owed k ∨
    nativeNeed fees owed k + fees.output.toNat ≤ nativeFunds native held queue k

/-- What is chosen for the native token, when `held` is there of it already, and `owed` is to be paid
before any fee of its own coins. -/
inductive NativeRule : Except BalanceError (Selection γ) → Prop where
  | settled {k : Nat} {outputs : List Change}
      (shortest : Shortest queue (Settles fees native held owed queue) k)
      (change : IsChange native (nativeFunds native held queue k -
        (nativeNeed fees owed k + fees.output.toNat)) outputs) :
      NativeRule (.ok ⟨queue.take k, outputs⟩)
  /-- If all coins do not reach the need, the rest of it is missing, and if they do, what a change
  output would cost beyond them. -/
  | short {missing : Amount} (never : Never queue (Settles fees native held owed queue))
      (lacking : missing.toNat =
        (if nativeFunds native held queue queue.length < nativeNeed fees owed queue.length then
          nativeNeed fees owed queue.length
        else nativeNeed fees owed queue.length + fees.output.toNat) -
          nativeFunds native held queue queue.length) :
      NativeRule (.error (.insufficientFunds native missing))

end Native

/-- What is chosen for all tokens: those that fees are not paid in come first, in their order, and the
native one pays for all that is chosen. -/
inductive Rule (coins : List γ) (imbalances : OrderedMap TokenType Delta) (fees : Fees)
    (native : TokenType) : Except BalanceError (Selection γ) → Prop where
  | short {error : BalanceError}
      (others : TokensRule coins (imbalances.entries.filter fun entry => entry.1 ≠ native)
        (.error error)) :
      Rule coins imbalances fees native (.error error)
  | native {chosen : Selection γ} {imbalance : Delta} {queue : List γ}
      {outcome : Except BalanceError (Selection γ)}
      (others : TokensRule coins (imbalances.entries.filter fun entry => entry.1 ≠ native)
        (.ok chosen))
      (own : imbalance = (imbalances.get? native).getD Delta.zero)
      (ordered : IsQueue coins native queue)
      (last : NativeRule fees native imbalance.surplus.toNat
        (imbalance.deficit.toNat + (fees.input.toNat * chosen.inputs.length +
          fees.output.toNat * chosen.outputs.length)) queue outcome) :
      Rule coins imbalances fees native (outcome.map chosen.append)

/-! ## One outcome only -/

/-- What is left determines the change. -/
theorem IsChange.unique {token : TokenType} {rest : Nat} {l m : List Change}
    (hl : IsChange token rest l) (hm : IsChange token rest m) : l = m := by
  refine (List.map_inj_right ?_).mp (hl.trans hm.symm)
  intro a b h
  obtain ⟨htoken, hvalue⟩ := Prod.mk.inj h
  cases a
  cases b
  rw [Change.mk.injEq]
  exact ⟨htoken, Amount.toNat_injective hvalue⟩

/-- The change that is made of an amount is the one that the rule asks for. -/
theorem isChange_ofRest (token : TokenType) (rest : Amount) :
    IsChange token rest.toNat (Change.ofRest token rest) := by
  rw [IsChange, Change.ofRest]
  split <;> rfl

/-- The rule leaves no choice for a token: the queue and the shortest beginning of it are
determined. -/
theorem TokenRule.unique {coins : List γ} {token : TokenType} {imbalance : Delta}
    {x y : Except BalanceError (Selection γ)} (hx : TokenRule coins token imbalance x)
    (hy : TokenRule coins token imbalance y) : x = y := by
  -- The sign of the imbalance tells a surplus from the other cases; a queue tells those apart.
  cases hx with
  | surplus surplus change =>
      cases hy with
      | surplus _ change' => rw [change.unique change']
      | covered deficit _ _ _ => omega
      | short deficit _ _ _ => omega
  | covered deficit ordered shortest change =>
      cases hy with
      | surplus surplus _ => omega
      | covered _ ordered' shortest' change' =>
          obtain rfl := ordered.unique ordered'
          obtain rfl := shortest.unique shortest'
          rw [change.unique change']
      | short _ ordered' never _ =>
          obtain rfl := ordered.unique ordered'
          exact absurd never shortest.not_never
  | short deficit ordered never lacking =>
      cases hy with
      | surplus surplus _ => omega
      | covered _ ordered' shortest _ =>
          obtain rfl := ordered.unique ordered'
          exact absurd never shortest.not_never
      | short _ _ _ lacking' => rw [Amount.toNat_injective (lacking.trans lacking'.symm)]

/-- Nor does it for several tokens, one after the other; the first failure ends it. -/
theorem TokensRule.unique {coins : List γ} {entries : List (TokenType × Delta)}
    {x y : Except BalanceError (Selection γ)} (hx : TokensRule coins entries x)
    (hy : TokensRule coins entries y) : x = y := by
  induction hx generalizing y with
  | nil => cases hy with
    | nil => rfl
  | short first =>
      cases hy with
      | short first' => exact congrArg _ (Except.error.inj (first.unique first'))
      | cons first' _ => cases first.unique first'
  | cons first _ ih =>
      cases hy with
      | short first' => cases first.unique first'
      | cons first' others =>
          cases first.unique first'
          rw [ih others]

/-- For the native token, a queue either has a shortest beginning that settles the account or has
none. -/
theorem NativeRule.unique {fees : Fees} {native : TokenType} {held owed : Nat} {queue : List γ}
    {x y : Except BalanceError (Selection γ)} (hx : NativeRule fees native held owed queue x)
    (hy : NativeRule fees native held owed queue y) : x = y := by
  cases hx with
  | settled shortest change =>
      cases hy with
      | settled shortest' change' =>
          obtain rfl := shortest.unique shortest'
          rw [change.unique change']
      | short never _ => exact absurd never shortest.not_never
  | short never lacking =>
      cases hy with
      | settled shortest _ => exact absurd never shortest.not_never
      | short _ lacking' => rw [Amount.toNat_injective (lacking.trans lacking'.symm)]

/-- **Uniqueness.** The rule admits one outcome, a selection or an error, so it can stand for the
function. -/
theorem Rule.unique {coins : List γ} {imbalances : OrderedMap TokenType Delta} {fees : Fees}
    {native : TokenType} {x y : Except BalanceError (Selection γ)}
    (hx : Rule coins imbalances fees native x) (hy : Rule coins imbalances fees native y) :
    x = y := by
  cases hx with
  | short others =>
      cases hy with
      | short others' => exact congrArg _ (Except.error.inj (others.unique others'))
      | native others' _ _ _ => cases others.unique others'
  | native others own ordered last =>
      cases hy with
      | short others' => cases others.unique others'
      | native others' own' ordered' last' =>
          cases others.unique others'
          obtain rfl := own.trans own'.symm
          obtain rfl := ordered.unique ordered'
          rw [last.unique last']

end Selection

end UtxoWallet
