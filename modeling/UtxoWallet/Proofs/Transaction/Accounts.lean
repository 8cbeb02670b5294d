import UtxoWallet.Proofs.Selection.Accounts
import UtxoWallet.Transaction.Imbalance

/-! # The accounts of a transaction

* `Transaction.imbalancesAfterFees_eq_ok`: the imbalances, when there are any, are exact.
* `Transaction.withIntent_eq_ok`: one more intent takes its place after all others.
-/

namespace UtxoWallet

namespace Imbalances

theorem of_insert (imbalances : Imbalances) (token other : TokenType) (delta : Delta) :
    Imbalances.of (imbalances.insert token delta) other =
      if token = other then delta else imbalances.of other := by
  rw [Imbalances.of, OrderedMap.get?_insert]
  split <;> rfl

/-- Nothing but the sum of the token changes. -/
theorem adjust_eq_insert {change : Int → Int → Int} {imbalances next : Imbalances}
    {token : TokenType} {value : Amount} (h : imbalances.adjust change token value = .ok next) :
    ∃ sum, next = imbalances.insert token sum ∧
      sum.toInt = change (imbalances.of token).toInt value.toNat := by
  obtain ⟨delta, hdelta, h⟩ := bind_eq_ok.mp h
  obtain ⟨sum, hsum, h⟩ := bind_eq_ok.mp h
  cases h
  refine ⟨sum, rfl, ?_⟩
  rw [Delta.ofInt?_eq_some (checked_eq_ok.mp hsum), Delta.ofInt?_eq_some (checked_eq_ok.mp hdelta)]

/-- An adjustment changes the sum of its own token, by the plain number, and no other. -/
theorem adjust_eq_ok {change : Int → Int → Int} {imbalances next : Imbalances}
    {token : TokenType} {value : Amount}
    (h : imbalances.adjust change token value = .ok next) (other : TokenType) :
    (next.of other).toInt =
      if token = other then change (imbalances.of token).toInt value.toNat
      else (imbalances.of other).toInt := by
  obtain ⟨sum, rfl, hsum⟩ := adjust_eq_insert h
  rw [of_insert, apply_ite Delta.toInt, hsum]

section Signed

variable {change : Int → Int → Int} {sign : Int}
  (hchange : ∀ sum value, change sum value = sum + sign * value)

include hchange

/-- An output that is taken in counts in the sum instead of among those to come. -/
theorem adjust_total {output : Output} {imbalances next : Imbalances}
    (h : imbalances.adjust change output.token output.value = .ok next) (token : TokenType)
    (outputs : List Output) : (next.of token).toInt + sign * worth token outputs =
      (imbalances.of token).toInt + sign * worth token (output :: outputs) := by
  rw [adjust_eq_ok h, worth_cons]
  by_cases htoken : output.token = token
  · subst htoken
    have hown : Spendable.token output = output.token := rfl
    rw [if_pos rfl, if_pos hown, hchange, Int.natCast_add, Int.mul_add, Int.add_assoc]
    rfl
  · have hforeign : Spendable.token output ≠ token := htoken
    rw [if_neg htoken, if_neg hforeign, Nat.zero_add]

/-- Outputs that are taken in one after the other, each with the same sign. -/
theorem adjustAll_eq_ok {outputs : List Output} {imbalances next : Imbalances}
    (h : outputs.foldlM (fun sums output => sums.adjust change output.token output.value)
      imbalances = .ok next) (token : TokenType) :
    (next.of token).toInt = (imbalances.of token).toInt + sign * worth token outputs := by
  induction outputs generalizing imbalances with
  | nil =>
      cases h
      rw [worth_nil]
      omega
  | cons output outputs ih =>
      obtain ⟨more, hmore, h⟩ := foldlM_cons_eq_ok.mp h
      rw [ih h, adjust_total hchange hmore]

end Signed

/-- Outputs that are gained add what they are worth. -/
theorem gainAll_eq_ok {outputs : List Output} {imbalances next : Imbalances}
    (h : outputs.foldlM gain imbalances = .ok next) (token : TokenType) :
    (next.of token).toInt = (imbalances.of token).toInt + worth token outputs := by
  have hgain : ∀ sum value : Int, sum + value = sum + 1 * value := by
    intro sum value
    rw [Int.one_mul]
  rw [adjustAll_eq_ok hgain h, Int.one_mul]

theorem loseAll_eq_ok {outputs : List Output} {imbalances next : Imbalances}
    (h : outputs.foldlM lose imbalances = .ok next) (token : TokenType) :
    (next.of token).toInt = (imbalances.of token).toInt - worth token outputs := by
  have hlose : ∀ sum value : Int, sum - value = sum + -1 * value := by
    intro sum value
    omega
  rw [adjustAll_eq_ok hlose h, ← hlose]

end Imbalances

namespace Transaction

variable {tx : Transaction}

theorem worth_inputs (tx : Transaction) (token : TokenType) :
    worth token (tx.inputs.map (·.toOutput)) = tx.worthIn token :=
  worth_map (f := Utxo.toOutput) (fun _ => rfl) (fun _ => rfl) token tx.inputs

/-- The imbalance of a token is what comes in of it less what goes out. -/
theorem imbalances_eq_ok {imbalances : Imbalances} (h : tx.imbalances = .ok imbalances)
    (token : TokenType) :
    (imbalances.of token).toInt = tx.worthIn token - tx.worthOut token := by
  obtain ⟨spent, hspent, h⟩ := bind_eq_ok.mp h
  have hnone : (Imbalances.of OrderedMap.empty token).toInt = 0 := rfl
  rw [Imbalances.loseAll_eq_ok h, Imbalances.gainAll_eq_ok hspent, hnone, worth_inputs, worthOut,
    Int.zero_add]

/-- Inputs less outputs, and less the fees in the native token. -/
theorem imbalancesAfterFees_eq_ok {fees : Fees} {native : TokenType} {imbalances : Imbalances}
    (h : tx.imbalancesAfterFees fees native = .ok imbalances) (token : TokenType) :
    (imbalances.of token).toInt = tx.worthIn token - tx.worthOut token -
      if token = native then
        (fees.input.toNat * tx.inputs.length + fees.output.toNat * tx.outputs.length : Nat)
      else 0 := by
  obtain ⟨before, hbefore, h⟩ := bind_eq_ok.mp h
  obtain ⟨fee, hfee, h⟩ := bind_eq_ok.mp h
  rw [Imbalances.adjust_eq_ok h, Fees.total_eq_ok hfee, imbalances_eq_ok hbefore,
    imbalances_eq_ok hbefore]
  by_cases htoken : native = token
  · subst htoken
    rw [if_pos rfl, if_pos rfl]
  · rw [if_neg htoken, if_neg (Ne.symm htoken)]
    omega

end Transaction

/-! ## One more intent -/

theorem OrderedMap.entries_insert_last {κ ν : Type} [Ord κ] [Std.TransOrd κ] [Std.LawfulEqOrd κ]
    {m : OrderedMap κ ν} {key : κ} {value : ν} (h : ∀ k ∈ m.keys, compare k key = .lt) :
    (m.insert key value).entries = m.entries ++ [(key, value)] := by
  obtain ⟨entries, ascending⟩ := m
  show insertEntry key value entries = entries ++ [(key, value)]
  have hkeys : ∀ entry ∈ entries, compare entry.1 key = .lt :=
    fun entry hmem => h entry.1 (List.mem_map_of_mem hmem)
  clear h ascending
  induction entries with
  | nil => rfl
  | cons entry entries ih =>
      rw [List.forall_mem_cons] at hkeys
      rw [insertEntry, Std.OrientedCmp.gt_iff_lt.mpr hkeys.1, ih hkeys.2]
      rfl

namespace Transaction

/-- The next segment is above all that are taken. -/
theorem lt_nextSegment {tx : Transaction} {segment : UInt16} (h : tx.nextSegment? = some segment) :
    ∀ key ∈ tx.intents.keys, compare key segment = .lt := by
  rw [nextSegment?] at h
  split at h
  · next hlast =>
      rw [List.getLast?_eq_none_iff.mp hlast]
      exact nofun
  · next last hlast =>
      split at h
      · next hfits =>
          cases h
          have hnext : last < last + 1 := by
            have hno : (last + 1).toNat = last.toNat + 1 := by
              rw [UInt16.toNat_add]
              exact Nat.mod_eq_of_lt hfits
            rw [UInt16.lt_iff_toNat_lt, hno]
            exact Nat.lt_succ_self last.toNat
          -- The keys ascend, so the last one is the greatest.
          obtain ⟨others, hkeys⟩ := List.getLast?_eq_some_iff.mp hlast
          have ascending : (others ++ [last]).Pairwise fun a b => compare a b = .lt := by
            rw [← hkeys]
            exact List.pairwise_map.mpr tx.intents.ascending
          obtain ⟨-, -, hbefore⟩ := List.pairwise_append.mp ascending
          intro key hmem
          rw [hkeys, List.mem_append] at hmem
          rcases hmem with hmem | hmem
          · exact Std.TransCmp.lt_trans (hbefore key hmem last List.mem_cons_self)
              (Std.compare_eq_lt.mpr hnext)
          · rw [List.mem_singleton.mp hmem]
            exact Std.compare_eq_lt.mpr hnext
      · cases h

/-- A new intent goes behind those that are there. -/
theorem withIntent_eq_ok {tx balanced : Transaction} {intent : Intent}
    (h : tx.withIntent intent = .ok balanced) :
    ∃ segment, balanced.intents.entries = tx.intents.entries ++ [(segment, intent)] := by
  rw [withIntent] at h
  split at h
  · cases h
  · next segment hnext =>
      cases h
      exact ⟨segment, OrderedMap.entries_insert_last (lt_nextSegment hnext)⟩

end Transaction

end UtxoWallet
