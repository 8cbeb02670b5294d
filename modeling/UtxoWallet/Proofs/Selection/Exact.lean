import UtxoWallet.Proofs.Selection.Accounts
import UtxoWallet.Proofs.Selection.Rule

/-! # Coin selection follows the rule

As long as no calculation overflows (`Selection.Exact`), the loops of the selection stop where the rule
has the shortest beginning of a queue that is enough, and fail where there is none.

* `Selection.ofToken_rule`, `Selection.gatherNative_rule`: what comes out for a token, and for the
  native one.
* `Selection.ofImbalances_eq_iff`: a selection comes out as the rule says, and so does the failure to
  make one.
-/

namespace UtxoWallet

namespace Selection

variable {γ : Type} [Spendable γ]

/-! ## Calculations that do not overflow -/

/-- Does no calculation of a result overflow? -/
def Exact {α : Type} (x : Except BalanceError α) : Prop :=
  ∀ calculation, x ≠ .error (.overflow calculation)

namespace Exact

variable {α β : Type} {x : Except BalanceError α} {f : α → Except BalanceError β}

/-- If the whole calculation stays in range, so does its first step. -/
theorem first (exact : Exact (x >>= f)) : Exact x := by
  rintro calculation rfl
  exact exact calculation rfl

/-- A checked calculation, and what is computed from its result. -/
theorem checked {calculation : Calculation} {amount : Option α}
    (exact : Exact (UtxoWallet.checked calculation amount >>= f)) :
    ∃ a, amount = some a ∧ UtxoWallet.checked calculation amount >>= f = f a ∧ Exact (f a) := by
  cases amount with
  | none => exact absurd rfl (exact calculation)
  | some a => exact ⟨a, rfl, rfl, exact⟩

/-- Where no fee is out of range, the fee of some inputs and outputs is the plain sum. -/
theorem total {fees : Fees} {inputs outputs : Nat} {f : Amount → Except BalanceError β}
    (exact : Exact (fees.total inputs outputs >>= f)) :
    ∃ fee, fee.toNat = fees.input.toNat * inputs + fees.output.toNat * outputs ∧
      fees.total inputs outputs >>= f = f fee ∧ Exact (f fee) := by
  obtain ⟨fee, hfee⟩ : ∃ fee, fees.total inputs outputs = .ok fee := by
    have hfees := exact.first
    rw [Fees.total] at hfees ⊢
    obtain ⟨forInputs, -, heq, hfees⟩ := hfees.checked
    rw [heq]
    obtain ⟨forOutputs, -, heq, hfees⟩ := hfees.checked
    rw [heq]
    cases hsum : forInputs.add? forOutputs with
    | none =>
        rw [hsum] at hfees
        exact absurd rfl (hfees .totalFees)
    | some fee => exact ⟨fee, rfl⟩
  rw [hfee] at exact ⊢
  exact ⟨fee, Fees.total_eq_ok hfee, rfl, exact⟩

/-- Where nothing is out of range, both target sums are the plain ones. -/
theorem nativeTarget {fees : Fees} {base : Amount} {count : Nat}
    {f : Amount × Amount → Except BalanceError β}
    (exact : Exact (Selection.nativeTarget fees base count >>= f)) :
    ∃ need withChange, need.toNat = base.toNat + fees.input.toNat * count ∧
      withChange.toNat = need.toNat + fees.output.toNat ∧
      Selection.nativeTarget fees base count >>= f = f (need, withChange) ∧
      Exact (f (need, withChange)) := by
  obtain ⟨need, withChange, htarget⟩ :
      ∃ need withChange, Selection.nativeTarget fees base count = .ok (need, withChange) := by
    have hfees := exact.first
    rw [Selection.nativeTarget] at hfees ⊢
    obtain ⟨inputFees, -, heq, hfees⟩ := hfees.checked
    rw [heq]
    obtain ⟨need, -, heq, hfees⟩ := hfees.checked
    rw [heq]
    obtain ⟨withChange, -, heq, -⟩ := hfees.checked
    rw [heq]
    exact ⟨need, withChange, rfl⟩
  rw [htarget] at exact ⊢
  obtain ⟨hneed, hchange⟩ := nativeTarget_eq_ok htarget
  exact ⟨need, withChange, hneed, hchange, rfl, exact⟩

end Exact

/-! ## Tokens that fees are not paid in -/

/-- The coins that are gathered: the shortest beginning that reaches the target, or all of them. -/
theorem gather_of_exact {target sum : Amount} {token : TokenType} {coins : List γ}
    (htoken : ∀ coin ∈ coins, Spendable.token coin = token)
    (exact : Exact (gather target sum coins)) :
    ∃ k total, gather target sum coins = .ok (coins.take k, total) ∧
      total.toNat = sum.toNat + worth token (coins.take k) ∧
      let Enough := fun j => target.toNat ≤ sum.toNat + worth token (coins.take j)
      (Shortest coins Enough k ∨ k = coins.length ∧ Never coins Enough) := by
  induction coins generalizing sum with
  | nil =>
      refine ⟨0, sum, rfl, rfl, ?_⟩
      by_cases henough : target.toNat ≤ sum.toNat
      · exact .inl (.zero henough)
      · refine .inr ⟨rfl, fun k _ => ?_⟩
        dsimp only
        rw [List.take_nil]
        exact henough
  -- A coin that is taken moves the question on: what is enough after it is one coin longer here.
  | cons coin coins ih =>
      rw [gather] at exact ⊢
      split at exact
      · next henough => exact ⟨0, sum, if_pos henough, rfl, .inl (.zero henough)⟩
      · next hless =>
          rw [if_neg hless]
          obtain ⟨next, hnext, heq, exact⟩ := exact.checked
          rw [List.forall_mem_cons] at htoken
          obtain ⟨k, total, hgather, htotal, hstop⟩ := ih htoken.2 exact.first
          have hworth : ∀ j, sum.toNat + worth token ((coin :: coins).take (j + 1)) =
              next.toNat + worth token (coins.take j) := by
            intro j
            rw [List.take_succ_cons, worth_cons, if_pos htoken.1, ← Nat.add_assoc,
              Amount.add?_eq_some.mp hnext]
          refine ⟨k + 1, total, ?_, (hworth k).symm ▸ htotal, ?_⟩
          · rw [heq, hgather]
            rfl
          · simp only [← hworth] at hstop
            rcases hstop with shortest | ⟨rfl, never⟩
            · exact .inl (.cons hless shortest)
            · exact .inr ⟨rfl, .cons hless never⟩

/-- What is chosen for a token, in terms of what is gathered for it. -/
theorem ofToken_eq {coins taken : List γ} {token : TokenType} {imbalance : Delta} {total : Amount}
    (h : gather imbalance.deficit imbalance.surplus (candidates coins token) = .ok (taken, total)) :
    ofToken coins token imbalance =
      if total.toNat < imbalance.deficit.toNat then
        .error (.insufficientFunds token (imbalance.deficit.minus total))
      else .ok ⟨taken, Change.ofRest token (total.minus imbalance.deficit)⟩ := by
  rw [ofToken, h]
  show (if _ then _ else _) = _
  split <;> rfl

/-- The choice for one token follows the rule of a token. -/
theorem ofToken_rule {coins : List γ} {token : TokenType} {imbalance : Delta}
    (exact : Exact (ofToken coins token imbalance)) :
    TokenRule coins token imbalance (ofToken coins token imbalance) := by
  have hexact := exact
  rw [ofToken] at hexact
  obtain ⟨k, total, hgather, htotal, hstop⟩ :=
    gather_of_exact (fun _ hmem => (mem_candidates hmem).2) hexact.first
  rw [ofToken_eq hgather]
  have hrest := isChange_ofRest token (total.minus imbalance.deficit)
  rw [Amount.minus_toNat] at hrest
  have hdelta := imbalance.toInt_eq
  have hsurplus : imbalance.surplus.toNat = imbalance.toInt.toNat := rfl
  by_cases hsign : 0 ≤ imbalance.toInt
  · -- There is no deficit, so no coin at all is enough.
    have hdeficit : imbalance.deficit.toNat = 0 := by omega
    have henough : imbalance.deficit.toNat ≤
        imbalance.surplus.toNat + worth token ((candidates coins token).take 0) := by omega
    obtain rfl : k = 0 := by
      rcases hstop with shortest | ⟨-, never⟩
      · exact shortest.unique (.zero henough)
      · exact absurd henough (never 0 (Nat.zero_le _))
    rw [List.take_zero, worth_nil, Nat.add_zero] at htotal
    rw [htotal, hdeficit, Nat.sub_zero] at hrest
    rw [if_neg (by omega), List.take_zero]
    exact .surplus hsign hrest
  · have hnone : imbalance.surplus.toNat = 0 := by omega
    simp only [hnone, Nat.zero_add] at htotal hstop
    rw [htotal] at hrest
    -- With a deficit, either the loop stopped at the shortest beginning or it ran out of coins.
    rcases hstop with shortest | ⟨rfl, never⟩
    · have henough := shortest.enough
      rw [if_neg (by omega)]
      exact .covered (Int.not_le.mp hsign) (isQueue_candidates coins token) shortest hrest
    · have hless := never _ (Nat.le_refl _)
      dsimp only at hless
      rw [List.take_length, worth_candidates] at htotal hless
      rw [if_pos (by omega)]
      refine .short (Int.not_le.mp hsign) (isQueue_candidates coins token) never ?_
      rw [Amount.minus_toNat, htotal]

/-- So does the choice for all tokens but the native one, in the order of the tokens. -/
theorem tokens_rule {coins : List γ} {entries : List (TokenType × Delta)}
    (exact : Exact (entries.mapM fun entry => ofToken coins entry.1 entry.2)) :
    TokensRule coins entries
      ((entries.mapM fun entry => ofToken coins entry.1 entry.2).map
        fun parts => parts.foldl append empty) := by
  induction entries with
  | nil => exact .nil
  | cons entry entries ih =>
      rw [List.mapM_cons] at exact ⊢
      -- The first token that is short ends the list, as it ends the rule.
      have hfirst := ofToken_rule exact.first
      cases hpart : ofToken coins entry.1 entry.2 with
      | error error =>
          rw [hpart] at hfirst
          exact .short hfirst
      | ok part =>
          rw [hpart] at hfirst exact
          have hrest : Exact ((entries.mapM fun entry => ofToken coins entry.1 entry.2) >>=
            fun parts => pure (part :: parts)) := exact
          have hothers := ih hrest.first
          cases hparts : entries.mapM fun entry => ofToken coins entry.1 entry.2 with
          | error error =>
              rw [hparts] at hothers
              exact .cons hfirst hothers
          | ok parts =>
              rw [hparts] at hothers
              have hcons : (part :: parts).foldl append empty =
                  part.append (parts.foldl append empty) := by
                simp [foldl_append, append, empty]
              refine (congrArg (TokensRule coins _) ?_).mpr (.cons hfirst hothers)
              exact congrArg Except.ok hcons

/-! ## The native token -/

/-- The rule allows to stop as soon as the account of the native token is settled. -/
theorem NativeRule.stop {fees : Fees} {native : TokenType} {held owed : Nat} {queue : List γ}
    {outputs : List Change} (settles : Settles fees native held owed queue 0)
    (change : IsChange native (held - (owed + fees.output.toNat)) outputs) :
    NativeRule fees native held owed queue (.ok ⟨[], outputs⟩) := by
  refine .settled (.zero settles) ?_
  rw [nativeFunds, nativeNeed, List.take_zero, worth_nil, Nat.zero_mul]
  exact change

/-- Otherwise the first coin of the queue is taken, and the rule goes on with the rest. -/
theorem NativeRule.cons {fees : Fees} {native : TokenType} {held owed : Nat} {coin : γ}
    {queue : List γ} {outcome : Except BalanceError (Selection γ)}
    (htoken : Spendable.token coin = native)
    (none : ¬ Settles fees native held owed (coin :: queue) 0)
    (h : NativeRule fees native (held + (Spendable.value coin).toNat) (owed + fees.input.toNat)
      queue outcome) :
    NativeRule fees native held owed (coin :: queue)
      (outcome.map fun more => ⟨coin :: more.inputs, more.outputs⟩) := by
  have hfunds : ∀ k, nativeFunds native held (coin :: queue) (k + 1) =
      nativeFunds native (held + (Spendable.value coin).toNat) queue k := by
    intro k
    rw [nativeFunds, nativeFunds, List.take_succ_cons, worth_cons, if_pos htoken, Nat.add_assoc]
  have hneed : ∀ k, nativeNeed fees owed (k + 1) = nativeNeed fees (owed + fees.input.toNat) k := by
    intro k
    rw [nativeNeed, nativeNeed, Nat.succ_mul, Nat.add_comm (k * _), Nat.add_assoc]
  -- What settles the account after the coin is what settles it before, one place further on.
  have hsettles : Settles fees native (held + (Spendable.value coin).toNat)
      (owed + fees.input.toNat) queue =
        fun k => Settles fees native held owed (coin :: queue) (k + 1) := by
    funext k
    rw [Settles, Settles, hfunds, hneed]
  cases h with
  | settled shortest change =>
      rw [hsettles] at shortest
      rw [← hfunds, ← hneed] at change
      exact .settled (shortest.cons none) change
  | short never lacking =>
      rw [hsettles] at never
      rw [← hfunds, ← hneed] at lacking
      exact .short (never.cons none) lacking

/-- A native selection ends where the sum settles the need, fails there if no coin is left, and goes
on with the next coin otherwise. -/
theorem gatherNative_of_exact {fees : Fees} {native : TokenType} {base sum : Amount} {count : Nat}
    {coins : List γ} (exact : Exact (gatherNative fees native base count sum coins)) :
    let owed := base.toNat + fees.input.toNat * count
    (Settles fees native sum.toNat owed coins 0 ∧
      ∃ outputs, IsChange native (sum.toNat - (owed + fees.output.toNat)) outputs ∧
        gatherNative fees native base count sum coins = .ok ⟨[], outputs⟩) ∨
    ¬ Settles fees native sum.toNat owed coins 0 ∧
      ((coins = [] ∧ ∃ missing,
        missing.toNat =
          (if sum.toNat < owed then owed else owed + fees.output.toNat) - sum.toNat ∧
        gatherNative fees native base count sum coins =
          .error (.insufficientFunds native missing)) ∨
      ∃ coin rest next, coins = coin :: rest ∧ sum.add? (Spendable.value coin) = some next ∧
        Exact (gatherNative fees native base (count + 1) next rest) ∧
        gatherNative fees native base count sum coins =
          (gatherNative fees native base (count + 1) next rest).map
            fun more => ⟨coin :: more.inputs, more.outputs⟩) := by
  intro owed
  rw [gatherNative.eq_def] at exact ⊢
  obtain ⟨need, withChange, (hneed : need.toNat = owed), hchange, heq, exact⟩ := exact.nativeTarget
  rw [heq]
  have hsettles : Settles fees native sum.toNat owed coins 0 ↔
      sum.toNat = need.toNat ∨ withChange.toNat ≤ sum.toNat := by
    rw [Settles, nativeFunds, nativeNeed, List.take_zero, worth_nil, Nat.zero_mul, Nat.add_zero,
      Nat.add_zero, hchange, hneed]
  rw [hsettles]
  dsimp only at exact ⊢
  -- The loop looks at the exact sum first, then at the sum with a change output, then at the coins.
  by_cases hexact : sum = need
  · rw [if_pos hexact]
    refine .inl ⟨.inl (congrArg _ hexact), [], ?_, rfl⟩
    rw [IsChange, List.map_nil, if_pos (by rw [hexact]; omega)]
  by_cases henough : withChange.toNat ≤ sum.toNat
  · rw [if_neg hexact, if_pos henough]
    refine .inl ⟨.inr henough, _, ?_, rfl⟩
    rw [← hneed, ← hchange]
    exact isChange_ofRest native (sum.minus withChange)
  rw [if_neg hexact, if_neg henough] at exact ⊢
  refine .inr ⟨not_or.mpr ⟨fun h => hexact (Amount.toNat_injective h), henough⟩, ?_⟩
  cases coins with
  | nil =>
      refine .inl ⟨rfl, _, ?_, rfl⟩
      rw [Amount.minus_toNat, apply_ite Amount.toNat, hchange, hneed]
  | cons coin rest =>
      obtain ⟨next, hnext, hstep, exact⟩ := Exact.checked exact
      refine .inr ⟨coin, rest, next, rfl, hnext, exact.first, hstep.trans ?_⟩
      cases gatherNative fees native base (count + 1) next rest <;> rfl

/-- The native loop follows the rule of the native token, from any sum and count on. -/
theorem gatherNative_rule {fees : Fees} {native : TokenType} {base sum : Amount} {count : Nat}
    {coins : List γ} (htoken : ∀ coin ∈ coins, Spendable.token coin = native)
    (exact : Exact (gatherNative fees native base count sum coins)) :
    NativeRule fees native sum.toNat (base.toNat + fees.input.toNat * count) coins
      (gatherNative fees native base count sum coins) := by
  -- Each coin raises sum and count, which is what the rule does to what is held and owed.
  induction coins generalizing count sum with
  | nil =>
      obtain ⟨settles, outputs, change, heq⟩ | ⟨none, ⟨-, missing, lacking, heq⟩ |
        ⟨_, _, _, hcoins, -⟩⟩ := gatherNative_of_exact exact
      · rw [heq]
        exact .stop settles change
      · rw [heq]
        refine .short (fun k hk => ?_) ?_
        · obtain rfl := Nat.le_zero.mp hk
          exact none
        · rw [nativeFunds, nativeNeed, List.length_nil, List.take_zero, worth_nil, Nat.zero_mul]
          exact lacking
      · cases hcoins
  | cons coin coins ih =>
      obtain ⟨settles, outputs, change, heq⟩ | ⟨none, ⟨hcoins, -⟩ |
        ⟨_, _, next, hcoins, hnext, exact, heq⟩⟩ := gatherNative_of_exact exact
      · rw [heq]
        exact .stop settles change
      · cases hcoins
      · cases hcoins
        rw [List.forall_mem_cons] at htoken
        rw [heq]
        refine NativeRule.cons htoken.1 none ?_
        have hmore := ih htoken.2 exact
        rw [← Amount.add?_eq_some.mp hnext, Nat.mul_succ, ← Nat.add_assoc] at hmore
        exact hmore

/-! ## All tokens -/

theorem ofNative_rule {coins : List γ} {native : TokenType} {imbalance : Delta} {fees : Fees}
    {chosen : Selection γ} (exact : Exact (ofNative coins native imbalance fees chosen)) :
    NativeRule fees native imbalance.surplus.toNat
      (imbalance.deficit.toNat + (fees.input.toNat * chosen.inputs.length +
        fees.output.toNat * chosen.outputs.length)) (candidates coins native)
      (ofNative coins native imbalance fees chosen) := by
  rw [ofNative] at exact ⊢
  obtain ⟨owed, howed, heq, exact⟩ := exact.total
  rw [heq]
  obtain ⟨base, hbase, heq, exact⟩ := exact.checked
  rw [heq, ← howed, Amount.add?_eq_some.mp hbase]
  exact gatherNative_rule (fun _ hmem => (mem_candidates hmem).2) exact

/-- **Soundness.** Where nothing overflows, a selection follows the rule. -/
theorem ofImbalances_rule {coins : List γ} {imbalances : OrderedMap TokenType Delta} {fees : Fees}
    {native : TokenType} (exact : Exact (ofImbalances coins imbalances fees native)) :
    Rule coins imbalances fees native (ofImbalances coins imbalances fees native) := by
  rw [ofImbalances] at exact ⊢
  have hothers := tokens_rule exact.first
  -- The other tokens come first; the native one only when none of them is short.
  cases hparts : (imbalances.entries.filter fun entry => entry.1 ≠ native).mapM fun entry =>
      ofToken coins entry.1 entry.2 with
  | error error =>
      rw [hparts] at hothers
      exact .short hothers
  | ok parts =>
      rw [hparts] at hothers exact
      have hlast : Exact (ofNative coins native ((imbalances.get? native).getD Delta.zero) fees
        (parts.foldl append empty) >>= fun more => pure ((parts.foldl append empty).append more)) :=
        exact
      have hrule := Rule.native hothers rfl (isQueue_candidates coins native)
        (ofNative_rule hlast.first)
      refine (congrArg (Rule coins imbalances fees native) ?_).mpr hrule
      show (ofNative _ _ _ _ _ >>= fun more => pure _) = _
      cases ofNative coins native ((imbalances.get? native).getD Delta.zero) fees
        (parts.foldl append empty) <;> rfl

/-- **A selection is what the rule says.** As long as no calculation overflows, what comes out is the
one outcome that the rule admits, a selection or the token that is short and what is missing of it. -/
theorem ofImbalances_eq_iff {coins : List γ} {imbalances : OrderedMap TokenType Delta} {fees : Fees}
    {native : TokenType} (exact : Exact (ofImbalances coins imbalances fees native))
    (outcome : Except BalanceError (Selection γ)) :
    ofImbalances coins imbalances fees native = outcome ↔
      Rule coins imbalances fees native outcome := by
  constructor
  · rintro rfl
    exact ofImbalances_rule exact
  · exact (ofImbalances_rule exact).unique

/-- Two coins of one value are taken in the order given, after a smaller one. The native coin of six
pays the fees with a rest of one, which is less than a change output costs, so another is taken. -/
theorem ofImbalances_eq_iff_of_small_rest :
    let native : TokenType := ⟨[0]⟩
    let token : TokenType := ⟨[1]⟩
    let coins : List Output := [⟨⟨5, by decide⟩, "first", token⟩, ⟨⟨9, by decide⟩, "pk", native⟩,
      ⟨⟨5, by decide⟩, "second", token⟩, ⟨⟨6, by decide⟩, "pk", native⟩,
      ⟨⟨3, by decide⟩, "small", token⟩]
    let imbalances := OrderedMap.empty.insert token ⟨-7, by decide, by decide⟩
    let fees : Fees := ⟨⟨1, by decide⟩, ⟨2, by decide⟩⟩
    let chosen : Selection Output := ⟨[⟨⟨3, by decide⟩, "small", token⟩,
      ⟨⟨5, by decide⟩, "first", token⟩, ⟨⟨6, by decide⟩, "pk", native⟩,
      ⟨⟨9, by decide⟩, "pk", native⟩], [⟨token, ⟨1, by decide⟩⟩, ⟨native, ⟨7, by decide⟩⟩]⟩
    Exact (ofImbalances coins imbalances fees native) ∧
      Rule coins imbalances fees native (.ok chosen) := by
  intro native token coins imbalances fees chosen
  have tokens : candidates coins token = [⟨⟨3, by decide⟩, "small", token⟩,
      ⟨⟨5, by decide⟩, "first", token⟩, ⟨⟨5, by decide⟩, "second", token⟩] :=
    (isQueue_candidates coins token).unique (by decide)
  have natives : candidates coins native =
      [⟨⟨6, by decide⟩, "pk", native⟩, ⟨⟨9, by decide⟩, "pk", native⟩] :=
    (isQueue_candidates coins native).unique (by decide)
  have other : ofToken coins token ⟨-7, by decide, by decide⟩ =
      .ok ⟨[⟨⟨3, by decide⟩, "small", token⟩, ⟨⟨5, by decide⟩, "first", token⟩],
        [⟨token, ⟨1, by decide⟩⟩]⟩ := by
    rw [ofToken, tokens]
    rfl
  have last : ofNative coins native Delta.zero fees ⟨[⟨⟨3, by decide⟩, "small", token⟩,
      ⟨⟨5, by decide⟩, "first", token⟩], [⟨token, ⟨1, by decide⟩⟩]⟩ =
      .ok ⟨[⟨⟨6, by decide⟩, "pk", native⟩, ⟨⟨9, by decide⟩, "pk", native⟩],
        [⟨native, ⟨7, by decide⟩⟩]⟩ := by
    rw [ofNative, natives]
    rfl
  have chosen_eq : ofImbalances coins imbalances fees native = .ok chosen :=
    bind_eq_ok.mpr ⟨_, mapM_cons_eq_ok.mpr ⟨_, [], other, rfl, rfl⟩,
      bind_eq_ok.mpr ⟨_, last, rfl⟩⟩
  have exact : Exact (ofImbalances coins imbalances fees native) := by
    rw [chosen_eq]
    exact nofun
  exact ⟨exact, (ofImbalances_eq_iff exact (.ok chosen)).mp chosen_eq⟩

end Selection

end UtxoWallet
