import UtxoWallet.Proofs.Results
import UtxoWallet.Proofs.Selection.Worth

/-! # The accounts of a selection

What a selection adds to a transaction, in exact arithmetic. Fees are products and sums of amounts
that fit, or there is no selection.

* `Selection.ofToken_accounts`: a token that fees are not paid in is balanced exactly, by coins and
  change of that token only.
* `Selection.gatherNative_accounts`: the native coins pay the need, the fees of their own inputs, and
  the change output with its fee. Without a change output, a rest up to its fee may be left.
* `Selection.ofImbalances_accounts`: so a whole selection closes every imbalance and pays all fees.
-/

namespace UtxoWallet

/-! ## Amounts -/

theorem Amount.add?_eq_some {a b c : Amount} : a.add? b = some c ↔ a.toNat + b.toNat = c.toNat :=
  Amount.ofNat?_eq_some_iff

theorem Amount.times?_eq_some {a c : Amount} {count : Nat} :
    a.times? count = some c ↔ a.toNat * count = c.toNat :=
  Amount.ofNat?_eq_some_iff

theorem Fees.total_eq_ok {fees : Fees} {inputs outputs : Nat} {fee : Amount}
    (h : fees.total inputs outputs = .ok fee) :
    fee.toNat = fees.input.toNat * inputs + fees.output.toNat * outputs := by
  obtain ⟨forInputs, hin, h⟩ := bind_eq_ok.mp h
  obtain ⟨forOutputs, hout, h⟩ := bind_eq_ok.mp h
  rw [Amount.times?_eq_some.mp (checked_eq_ok.mp hin),
    Amount.times?_eq_some.mp (checked_eq_ok.mp hout),
    Amount.add?_eq_some.mp (checked_eq_ok.mp h)]

/-- A difference that is in range stands for the number it was made of. -/
theorem Delta.ofInt?_eq_some {n : Int} {d : Delta} (h : Delta.ofInt? n = some d) :
    d.toInt = n := by
  rw [Delta.ofInt?] at h
  split at h
  · cases h
    rfl
  · cases h

theorem Amount.minus_toNat (a b : Amount) : (a.minus b).toNat = a.toNat - b.toNat := rfl

/-- A delta is its surplus less its deficit. -/
theorem Delta.toInt_eq (d : Delta) : d.toInt = d.surplus.toNat - d.deficit.toNat := by
  show d.toInt = d.toInt.toNat - ((-d.toInt).toNat : Int)
  omega

namespace Selection

variable {γ : Type} [Spendable γ]

/-! ## Change -/

theorem ofRest_token {token : TokenType} {rest : Amount} {change : Change}
    (h : change ∈ Change.ofRest token rest) : change.token = token := by
  rw [Change.ofRest] at h
  split at h
  · cases h
  · rw [List.mem_singleton] at h
    rw [h]

/-- The change is worth what is left. -/
theorem worth_ofRest (token : TokenType) (rest : Amount) :
    worth token (Change.ofRest token rest) = rest.toNat := by
  rw [Change.ofRest]
  split
  · next h => rw [h, worth_nil]
  · simp [worth, Spendable.token, Spendable.value]

/-! ## One token -/

/-- The candidates for a token are the coins of the token. -/
theorem mem_candidates {coins : List γ} {token : TokenType} {coin : γ}
    (h : coin ∈ candidates coins token) : coin ∈ coins ∧ Spendable.token coin = token := by
  rw [candidates, List.mem_mergeSort, List.mem_filter] at h
  exact ⟨h.1, of_decide_eq_true h.2⟩

/-- The coins taken are the first ones, and the total is the sum of their values. -/
theorem gather_accounts {target sum total : Amount} {coins taken : List γ} {token : TokenType}
    (htoken : ∀ coin ∈ coins, Spendable.token coin = token)
    (h : gather target sum coins = .ok (taken, total)) :
    taken <+: coins ∧ total.toNat = sum.toNat + worth token taken := by
  induction coins generalizing sum taken with
  | nil =>
      cases h
      exact ⟨List.nil_prefix, rfl⟩
  | cons coin coins ih =>
      rw [gather] at h
      split at h
      · cases h
        exact ⟨List.nil_prefix, rfl⟩
      · obtain ⟨more, hmore, h⟩ := bind_eq_ok.mp h
        obtain ⟨⟨others, rest⟩, hrest, h⟩ := bind_eq_ok.mp h
        cases h
        rw [List.forall_mem_cons] at htoken
        obtain ⟨hothers, htotal⟩ := ih htoken.2 hrest
        refine ⟨(List.prefix_cons_inj coin).mpr hothers, ?_⟩
        have hsum := Amount.add?_eq_some.mp (checked_eq_ok.mp hmore)
        rw [htotal, ← hsum, worth_cons, if_pos htoken.1, Nat.add_assoc]

/-- All that a selection adds is of one token. -/
def IsOf (s : Selection γ) (token : TokenType) : Prop :=
  (∀ coin ∈ s.inputs, Spendable.token coin = token) ∧ ∀ change ∈ s.outputs, change.token = token

/-- A selection of one token does not touch another. -/
theorem IsOf.worth_eq_zero {s : Selection γ} {token other : TokenType} (h : s.IsOf token)
    (hne : token ≠ other) : worth other s.inputs = 0 ∧ worth other s.outputs = 0 := by
  constructor
  · refine worth_of_ne fun coin hmem hcoin => ?_
    exact hne ((h.1 coin hmem).symm.trans hcoin)
  · refine worth_of_ne fun change hmem hchange => ?_
    exact hne ((h.2 change hmem).symm.trans hchange)

/-- What is chosen for a token settles its imbalance exactly: what is missing and the change
together are worth the chosen coins. -/
theorem ofToken_accounts {coins : List γ} {token : TokenType} {imbalance : Delta}
    {s : Selection γ} (h : ofToken coins token imbalance = .ok s) :
    s.IsOf token ∧ (∀ coin ∈ s.inputs, coin ∈ coins) ∧
      imbalance.toInt + worth token s.inputs = worth token s.outputs := by
  obtain ⟨⟨inputs, total⟩, hgather, h⟩ := bind_eq_ok.mp h
  have hcandidates := fun coin (hmem : coin ∈ candidates coins token) => mem_candidates hmem
  obtain ⟨htaken, htotal⟩ := gather_accounts (fun coin hmem => (hcandidates coin hmem).2) hgather
  dsimp only at h
  split at h
  · cases h
  · next henough =>
      cases h
      refine ⟨⟨fun coin hmem => (hcandidates coin (htaken.subset hmem)).2, fun _ => ofRest_token⟩,
        fun coin hmem => (hcandidates coin (htaken.subset hmem)).1, ?_⟩
      show imbalance.toInt + worth token inputs =
        worth token (Change.ofRest token (total.minus imbalance.deficit))
      rw [worth_ofRest, Amount.minus_toNat, imbalance.toInt_eq]
      omega

/-! ## The native token -/

/-- The two sums that stop the native loop: the base with the fees of the coins so far, and the same
with the fee of an output for the change. -/
theorem nativeTarget_eq_ok {fees : Fees} {base need withChange : Amount} {count : Nat}
    (h : nativeTarget fees base count = .ok (need, withChange)) :
    need.toNat = base.toNat + fees.input.toNat * count ∧
      withChange.toNat = need.toNat + fees.output.toNat := by
  obtain ⟨forInputs, hin, h⟩ := bind_eq_ok.mp h
  obtain ⟨sum, hsum, h⟩ := bind_eq_ok.mp h
  obtain ⟨more, hmore, h⟩ := bind_eq_ok.mp h
  cases h
  have hinputs := Amount.times?_eq_some.mp (checked_eq_ok.mp hin)
  have hneed := Amount.add?_eq_some.mp (checked_eq_ok.mp hsum)
  have hchange := Amount.add?_eq_some.mp (checked_eq_ok.mp hmore)
  rw [hinputs]
  exact ⟨hneed.symm, hchange.symm⟩

/-- What is left to the network beside the fees: nothing, or the fee of a change output that is not
made. -/
def IsSlack (fees : Fees) (outputs : List Change) (slack : Nat) : Prop :=
  slack = 0 ∨ slack = fees.output.toNat ∧ outputs = []

/-- Every native selection stops at its need, stops with change, or goes on with one more coin. -/
theorem gatherNative_cases {fees : Fees} {native : TokenType} {base sum : Amount} {count : Nat}
    {coins : List γ} {s : Selection γ}
    (h : gatherNative fees native base count sum coins = .ok s) :
    ∃ need withChange, nativeTarget fees base count = .ok (need, withChange) ∧
      ((sum = need ∧ s = empty ∨
        withChange.toNat ≤ sum.toNat ∧
          s = ⟨[], Change.ofRest native (sum.minus withChange)⟩) ∨
       ∃ coin rest next more, coins = coin :: rest ∧
        sum.add? (Spendable.value coin) = some next ∧
        gatherNative fees native base (count + 1) next rest = .ok more ∧
        s = ⟨coin :: more.inputs, more.outputs⟩) := by
  rw [gatherNative.eq_def] at h
  obtain ⟨⟨need, withChange⟩, htarget, h⟩ := bind_eq_ok.mp h
  refine ⟨need, withChange, htarget, ?_⟩
  dsimp only at h
  -- The loop tests for the exact sum before it tests for a change output.
  split at h
  · next hexact =>
      cases h
      exact .inl (.inl ⟨hexact, rfl⟩)
  split at h
  · next henough =>
      cases h
      exact .inl (.inr ⟨henough, rfl⟩)
  cases coins with
  | nil => cases h
  | cons coin rest =>
      obtain ⟨next, hnext, h⟩ := bind_eq_ok.mp h
      obtain ⟨more, hmore, h⟩ := bind_eq_ok.mp h
      cases h
      exact .inr ⟨coin, rest, next, more, rfl, checked_eq_ok.mp hnext, hmore, rfl⟩

/-- The account of a native selection: the sum that is there already and its inputs pay the need,
its fees and its change. -/
def PaysNative (fees : Fees) (native : TokenType) (base sum count : Nat) (s : Selection γ) : Prop :=
  s.IsOf native ∧ ∃ slack, IsSlack fees s.outputs slack ∧
    sum + worth native s.inputs =
      base + fees.input.toNat * (count + s.inputs.length) + worth native s.outputs +
        fees.output.toNat * s.outputs.length + slack

/-- Where the native loop stops, with no change or with change that pays for itself, the accounts
are settled. -/
theorem paysNative_of_stop {fees : Fees} {native : TokenType} {base count : Nat}
    {sum need withChange : Amount} {s : Selection γ}
    (hneed : need.toNat = base + fees.input.toNat * count)
    (hchange : withChange.toNat = need.toNat + fees.output.toNat)
    (hstop : sum = need ∧ s = empty ∨
      withChange.toNat ≤ sum.toNat ∧ s = ⟨[], Change.ofRest native (sum.minus withChange)⟩) :
    PaysNative fees native base sum.toNat count s := by
  rcases hstop with ⟨rfl, rfl⟩ | ⟨henough, rfl⟩
  · exact ⟨⟨nofun, nofun⟩, 0, .inl rfl, hneed⟩
  · refine ⟨⟨nofun, fun _ => ofRest_token⟩, ?_⟩
    simp only [worth_ofRest, worth_nil, List.length_nil, Amount.minus_toNat, Nat.add_zero]
    by_cases hrest : sum.toNat - withChange.toNat = 0
    · -- The sum would pay for a change output, but nothing is left to put into it.
      refine ⟨fees.output.toNat, .inr ⟨rfl, if_pos hrest⟩, ?_⟩
      rw [Change.ofRest, Amount.minus_toNat, if_pos hrest, List.length_nil]
      omega
    · refine ⟨0, .inl rfl, ?_⟩
      rw [Change.ofRest, Amount.minus_toNat, if_neg hrest, List.length_singleton]
      omega

/-- A coin more adds its value to the sum and its fee to the count. -/
theorem PaysNative.cons {fees : Fees} {native : TokenType} {base sum count : Nat} {coin : γ}
    {more : Selection γ} (htoken : Spendable.token coin = native)
    (h : PaysNative fees native base (sum + (Spendable.value coin).toNat) (count + 1) more) :
    PaysNative fees native base sum count ⟨coin :: more.inputs, more.outputs⟩ := by
  obtain ⟨⟨hinputs, houtputs⟩, slack, hslack, hsum⟩ := h
  refine ⟨⟨List.forall_mem_cons.mpr ⟨htoken, hinputs⟩, houtputs⟩, slack, hslack, ?_⟩
  rw [worth_cons, if_pos htoken, List.length_cons, Nat.add_comm more.inputs.length,
    ← Nat.add_assoc count, ← Nat.add_assoc sum]
  exact hsum

/-- The native loop pays for whatever it takes, from any sum and count on. -/
theorem gatherNative_accounts {fees : Fees} {native : TokenType} {base sum : Amount} {count : Nat}
    {coins : List γ} {s : Selection γ} (htoken : ∀ coin ∈ coins, Spendable.token coin = native)
    (h : gatherNative fees native base count sum coins = .ok s) :
    PaysNative fees native base.toNat sum.toNat count s := by
  induction coins generalizing sum count s with
  | nil =>
      obtain ⟨need, withChange, htarget, hstop | ⟨_, _, _, _, hcoins, -⟩⟩ := gatherNative_cases h
      · obtain ⟨hneed, hchange⟩ := nativeTarget_eq_ok htarget
        exact paysNative_of_stop hneed hchange hstop
      · cases hcoins
  | cons coin coins ih =>
      obtain ⟨need, withChange, htarget, hstop | ⟨_, _, next, more, hcoins, hnext, hmore, rfl⟩⟩ :=
        gatherNative_cases h
      · obtain ⟨hneed, hchange⟩ := nativeTarget_eq_ok htarget
        exact paysNative_of_stop hneed hchange hstop
      · cases hcoins
        rw [List.forall_mem_cons] at htoken
        have hrest := ih htoken.2 hmore
        rw [← Amount.add?_eq_some.mp hnext] at hrest
        exact hrest.cons htoken.1

/-- The native coins taken are the first ones. -/
theorem prefix_of_gatherNative {fees : Fees} {native : TokenType} {base sum : Amount} {count : Nat}
    {coins : List γ} {s : Selection γ}
    (h : gatherNative fees native base count sum coins = .ok s) : s.inputs <+: coins := by
  induction coins generalizing sum count s with
  | nil =>
      obtain ⟨_, _, -, (⟨-, rfl⟩ | ⟨-, rfl⟩) | ⟨_, _, _, _, hcoins, -⟩⟩ := gatherNative_cases h
      · exact List.nil_prefix
      · exact List.nil_prefix
      · cases hcoins
  | cons coin coins ih =>
      obtain ⟨_, _, -, (⟨-, rfl⟩ | ⟨-, rfl⟩) | ⟨_, _, _, more, hcoins, -, hmore, rfl⟩⟩ :=
        gatherNative_cases h
      · exact List.nil_prefix
      · exact List.nil_prefix
      · cases hcoins
        exact (List.prefix_cons_inj coin).mpr (ih hmore)

/-- What is chosen of the native token settles the imbalance and the fees of the whole selection, up
to the slack that is too small for a change output. -/
theorem ofNative_accounts {coins : List γ} {native : TokenType} {imbalance : Delta} {fees : Fees}
    {chosen s : Selection γ} (h : ofNative coins native imbalance fees chosen = .ok s) :
    s.IsOf native ∧ ∃ slack, IsSlack fees s.outputs slack ∧
      imbalance.toInt + worth native s.inputs = worth native s.outputs +
        fees.input.toNat * ↑(chosen.inputs.length + s.inputs.length) +
        fees.output.toNat * ↑(chosen.outputs.length + s.outputs.length) + slack := by
  obtain ⟨owed, howed, h⟩ := bind_eq_ok.mp h
  obtain ⟨base, hbase, h⟩ := bind_eq_ok.mp h
  obtain ⟨hof, slack, hslack, hsum⟩ :=
    gatherNative_accounts (fun _ hmem => (mem_candidates hmem).2) h
  refine ⟨hof, slack, hslack, ?_⟩
  have hneed := Amount.add?_eq_some.mp (checked_eq_ok.mp hbase)
  rw [Fees.total_eq_ok howed] at hneed
  rw [Nat.zero_add] at hsum
  rw [imbalance.toInt_eq]
  push_cast
  simp only [Int.mul_add]
  omega

/-! ## All tokens -/

omit [Spendable γ] in
/-- The parts of a selection stand in it one after the other. -/
theorem foldl_append (parts : List (Selection γ)) (s : Selection γ) :
    parts.foldl append s =
      ⟨s.inputs ++ parts.flatMap (·.inputs), s.outputs ++ parts.flatMap (·.outputs)⟩ := by
  induction parts generalizing s with
  | nil => simp
  | cons part parts ih => simp [ih, append]

/-- Each token is balanced by the part of the selection that is its own. -/
theorem parts_accounts {coins : List γ} {entries : List (TokenType × Delta)}
    {parts : List (Selection γ)} (distinct : entries.Pairwise fun a b => a.1 ≠ b.1)
    (h : entries.mapM (fun entry => ofToken coins entry.1 entry.2) = .ok parts)
    (token : TokenType) :
    ((OrderedMap.find? token entries).getD Delta.zero).toInt +
      worth token (parts.flatMap (·.inputs)) = worth token (parts.flatMap (·.outputs)) := by
  induction entries generalizing parts with
  | nil =>
      cases h
      rfl
  | cons entry entries ih =>
      obtain ⟨own, imbalance⟩ := entry
      obtain ⟨part, rest, hpart, hrest, rfl⟩ := mapM_cons_eq_ok.mp h
      obtain ⟨hof, -, hsum⟩ : part.IsOf own ∧ (∀ coin ∈ part.inputs, coin ∈ coins) ∧
        imbalance.toInt + worth own part.inputs = worth own part.outputs := ofToken_accounts hpart
      have hothers := ih distinct.of_cons hrest
      rw [List.flatMap_cons, List.flatMap_cons, worth_append, worth_append, OrderedMap.find?_cons]
      by_cases htoken : own = token
      · -- Keys are distinct, so the other parts have nothing to close for this token.
        subst htoken
        have hzero : Delta.zero.toInt = 0 := rfl
        rw [OrderedMap.find?_tail distinct, Option.getD_none, hzero] at hothers
        rw [if_pos rfl, Option.getD_some]
        push_cast
        omega
      · obtain ⟨hin, hout⟩ := hof.worth_eq_zero htoken
        rw [if_neg htoken, hin, hout, Nat.zero_add, Nat.zero_add]
        exact hothers

/-- The parts take given coins only, and add change of the listed tokens only. -/
theorem parts_members {coins : List γ} {entries : List (TokenType × Delta)}
    {parts : List (Selection γ)}
    (h : entries.mapM (fun entry => ofToken coins entry.1 entry.2) = .ok parts) :
    (∀ coin ∈ parts.flatMap (·.inputs), coin ∈ coins) ∧
      ∀ change ∈ parts.flatMap (·.outputs), change.token ∈ entries.map (·.1) := by
  constructor
  · intro coin hmem
    obtain ⟨part, hpart, hmem⟩ := List.mem_flatMap.mp hmem
    obtain ⟨entry, -, hentry⟩ := exists_of_mem_mapM h part hpart
    exact (ofToken_accounts hentry).2.1 coin hmem
  · intro change hmem
    obtain ⟨part, hpart, hmem⟩ := List.mem_flatMap.mp hmem
    obtain ⟨entry, hmember, hentry⟩ := exists_of_mem_mapM h part hpart
    rw [(ofToken_accounts hentry).1.2 change hmem]
    exact List.mem_map_of_mem hmember

/-- Only given coins are selected. -/
theorem mem_of_ofImbalances {coins : List γ} {imbalances : OrderedMap TokenType Delta}
    {fees : Fees} {native : TokenType} {s : Selection γ}
    (h : ofImbalances coins imbalances fees native = .ok s) : ∀ coin ∈ s.inputs, coin ∈ coins := by
  obtain ⟨parts, hparts, h⟩ := bind_eq_ok.mp h
  obtain ⟨more, hmore, h⟩ := bind_eq_ok.mp h
  obtain ⟨owed, -, hmore⟩ := bind_eq_ok.mp hmore
  obtain ⟨base, -, hmore⟩ := bind_eq_ok.mp hmore
  cases h
  rw [foldl_append]
  intro coin hmem
  rcases List.mem_append.mp hmem with hmem | hmem
  · exact (parts_members hparts).1 coin hmem
  · exact (mem_candidates ((prefix_of_gatherNative hmore).subset hmem)).1

/-- **What a selection adds up to.** Every token but the native one is balanced exactly. The native
token pays the fees of all that is selected; at most the fee of one output is left over, and only if
there is no native change. -/
theorem ofImbalances_accounts {coins : List γ} {imbalances : OrderedMap TokenType Delta}
    {fees : Fees} {native : TokenType} {s : Selection γ}
    (h : ofImbalances coins imbalances fees native = .ok s) :
    (∀ token, token ≠ native →
      ((imbalances.get? token).getD Delta.zero).toInt + worth token s.inputs =
        worth token s.outputs) ∧
    ∃ slack, (slack = 0 ∨ slack = fees.output.toNat) ∧
      (slack ≠ 0 → ∀ change ∈ s.outputs, change.token ≠ native) ∧
      ((imbalances.get? native).getD Delta.zero).toInt + worth native s.inputs =
        worth native s.outputs + fees.input.toNat * s.inputs.length +
          fees.output.toNat * s.outputs.length + slack := by
  obtain ⟨parts, hparts, h⟩ := bind_eq_ok.mp h
  obtain ⟨more, hmore, h⟩ := bind_eq_ok.mp h
  cases h
  rw [foldl_append] at hmore ⊢
  have distinct : (imbalances.entries.filter fun entry => entry.1 ≠ native).Pairwise
      fun a b => a.1 ≠ b.1 := imbalances.distinct_entries.filter _
  have hfind : ∀ token, OrderedMap.find? token
      (imbalances.entries.filter fun entry => entry.1 ≠ native) =
        if token ≠ native then imbalances.get? token else none := by
    intro token
    rw [OrderedMap.find?_filter (fun key => key ≠ native), OrderedMap.get?]
    simp only [decide_eq_true_eq]
  have hsums := parts_accounts distinct hparts
  obtain ⟨hof, slack, hslack, hnative⟩ := ofNative_accounts hmore
  -- The parts are of other tokens, so they give no native change.
  have hforeign : ∀ change ∈ parts.flatMap (·.outputs), change.token ≠ native := by
    intro change hmem
    obtain ⟨entry, hentry, htoken⟩ := List.mem_map.mp ((parts_members hparts).2 change hmem)
    rw [← htoken]
    exact of_decide_eq_true (List.mem_filter.mp hentry).2
  simp only [append, empty, List.nil_append, worth_append, List.length_append] at hnative ⊢
  constructor
  · intro token htoken
    -- The native part is worth nothing in any other token.
    obtain ⟨hin, hout⟩ := hof.worth_eq_zero (Ne.symm htoken)
    rw [hin, hout, Nat.add_zero, Nat.add_zero, ← hsums token, hfind, if_pos htoken]
  · -- The native token is not among the others, so the parts leave it as it is.
    have hparts : (worth native (parts.flatMap (·.inputs)) : Int) =
        worth native (parts.flatMap (·.outputs)) := by
      have hsum := hsums native
      rw [hfind, if_neg (not_not_intro rfl), Option.getD_none] at hsum
      exact (Int.zero_add _).symm.trans hsum
    refine ⟨slack, hslack.imp_right And.left, ?_, ?_⟩
    · intro hne change hmem
      obtain ⟨-, hnone⟩ := hslack.resolve_left hne
      rw [hnone, List.append_nil] at hmem
      exact hforeign change hmem
    · push_cast at hnative ⊢
      omega

end Selection

end UtxoWallet
