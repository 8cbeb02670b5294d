import UtxoWallet.Proofs.Selection.Exact
import UtxoWallet.Proofs.Selection.Insertion

/-! # When a received coin strands a transaction

The smallest coins are taken first, so a further coin may be taken beside all others, and be worth less
than the fees that it adds. A transaction that could be balanced without it then needs more of the
native token, and there may be no more.

`Selection.Strands` says when that is so, by the selection that is made without the coin and by the
native coins there are. `Selection.ofImbalances_receive` is the proof that it is so then and only then.
-/

namespace UtxoWallet

namespace Selection

variable {γ : Type} [Spendable γ] {coins l r queue before after : List γ} {coin : γ}
  {imbalances : OrderedMap TokenType Delta} {fees : Fees} {native : TokenType}
  {s chosen chosen' more : Selection γ}

/-! ## The condition -/

/-- A rest of the native token with which a selection ends: none, or one that pays for a change
output. -/
def IsSettled (fees : Fees) (rest : Int) : Prop :=
  rest = 0 ∨ fees.output.toNat ≤ rest

/-- By how much the native token is out of balance. -/
def nativeImbalance (imbalances : OrderedMap TokenType Delta) (native : TokenType) : Delta :=
  (imbalances.get? native).getD Delta.zero

/-- What is left of the native token after all fees if its first `count` coins are taken, and of the
selection only what is of other tokens. -/
def restAfter (coins : List γ) (imbalances : OrderedMap TokenType Delta) (fees : Fees)
    (native : TokenType) (s : Selection γ) (count : Nat) : Int :=
  (nativeImbalance imbalances native).toInt + worth native ((candidates coins native).take count) -
    (fees.input.toNat * (s.inputs.countP (Spendable.token · ≠ native) + count) +
      fees.output.toNat * s.outputs.countP (·.token ≠ native) : Nat)

/-- What a coin that is taken besides adds to the rest of the native token. -/
def gain (fees : Fees) (native : TokenType) (s : Selection γ) (coin : γ) : Int :=
  if Spendable.token coin = native then (Spendable.value coin).toNat - (fees.input.toNat : Int)
  else -surcharge fees s coin

/-- A coin strands a transaction that a selection balances without it: it is taken beside all others,
and then no number of native coins that are taken settles the need. A native coin is taken before those
that are worth more only, so the numbers that count are those from its place on. -/
structure Strands (coins : List γ) (imbalances : OrderedMap TokenType Delta) (fees : Fees)
    (native : TokenType) (s : Selection γ) (coin : γ) : Prop where
  besides : IsExtra s coin
  never : ∀ count ≤ (candidates coins native).length,
    (∀ left ∈ (candidates coins native).drop count, Spendable.token left = Spendable.token coin →
      (Spendable.value coin).toNat ≤ (Spendable.value left).toNat) →
    ¬ IsSettled fees (restAfter coins imbalances fees native s count + gain fees native s coin)

/-! ## The native queue -/

section Native

variable {held owed k : Nat} {outputs : List Change}

/-- What is left of the need, below zero if there is too little. -/
def nativeRest (fees : Fees) (native : TokenType) (held owed : Nat) (queue : List γ) (k : Nat) : Int :=
  (nativeFunds native held queue k : Int) - nativeNeed fees owed k

/-- A beginning of the queue settles the account if what it leaves is nothing, or enough for a
change output. -/
theorem settles_iff :
    Settles fees native held owed queue k ↔
      IsSettled fees (nativeRest fees native held owed queue k) := by
  rw [Settles, IsSettled, nativeRest]
  omega

/-- One coin more adds its value, and takes its fee. -/
theorem nativeRest_succ (hof : ∀ item ∈ queue, Spendable.token item = native)
    (hk : k < queue.length) :
    nativeRest fees native held owed queue (k + 1) =
      nativeRest fees native held owed queue k +
        ((Spendable.value queue[k]).toNat - (fees.input.toNat : Int)) := by
  rw [nativeRest, nativeRest, nativeFunds, nativeFunds, nativeNeed, nativeNeed,
    worth_take_succ hof hk, Nat.succ_mul]
  omega

/-- Up to the place of the new coin the rests are what they were, -/
theorem nativeRest_insert_of_le (hk : k ≤ before.length) :
    nativeRest fees native held owed (before ++ coin :: after) k =
      nativeRest fees native held owed (before ++ after) k := by
  rw [nativeRest, nativeRest, nativeFunds, nativeFunds, take_insert_of_le hk]

/-- and from there on they are moved by one, with the value of the coin less its fee. -/
theorem nativeRest_insert_of_ge (hk : before.length ≤ k) :
    nativeRest fees (Spendable.token coin) held owed (before ++ coin :: after) (k + 1) =
      nativeRest fees (Spendable.token coin) held owed (before ++ after) k +
        ((Spendable.value coin).toNat - (fees.input.toNat : Int)) := by
  rw [nativeRest, nativeRest, nativeFunds, nativeFunds, nativeNeed, nativeNeed,
    worth_take_insert_of_ge hk, Nat.succ_mul]
  omega

/-- A larger debt lowers every rest alike. -/
theorem nativeRest_add (n : Nat) :
    nativeRest fees native held (owed + n) queue k = nativeRest fees native held owed queue k - n := by
  rw [nativeRest, nativeRest, nativeNeed, nativeNeed]
  omega

/-- With a further native coin, no beginning settles the need iff the one that does without it goes
beyond the place of the coin, and none does from there on. -/
theorem never_insert_iff_place
    (shortest : Shortest (before ++ after)
      (Settles fees (Spendable.token coin) held owed (before ++ after)) k) :
    Never (before ++ coin :: after)
        (Settles fees (Spendable.token coin) held owed (before ++ coin :: after)) ↔
      before.length < k ∧
      ∀ j, before.length ≤ j → j ≤ (before ++ after).length →
        ¬ IsSettled fees (nativeRest fees (Spendable.token coin) held owed (before ++ after) j +
          ((Spendable.value coin).toNat - (fees.input.toNat : Int))) := by
  have hlength : (before ++ coin :: after).length = (before ++ after).length + 1 := by simp; omega
  have hwithin := shortest.within
  constructor
  · -- Beginnings before the place of the coin are as they were, so none of them may be enough.
    intro never
    refine ⟨Nat.lt_of_not_le fun hle => never k (by omega) ?_, fun j hplace hj => ?_⟩
    · rw [settles_iff, nativeRest_insert_of_le hle, ← settles_iff]
      exact shortest.enough
    · rw [← nativeRest_insert_of_ge hplace, ← settles_iff]
      exact never (j + 1) (by omega)
  · rintro ⟨hplace, never⟩ j hj
    rw [settles_iff]
    rcases Nat.lt_or_ge before.length j with hlt | hle
    · obtain ⟨i, rfl⟩ := Nat.exists_eq_add_of_lt hlt
      rw [nativeRest_insert_of_ge (Nat.le_add_right _ _)]
      exact never _ (Nat.le_add_right _ _) (by omega)
    · rw [nativeRest_insert_of_le hle, ← settles_iff]
      exact shortest.shorter j (by omega)

/-- In terms of values: the coin is taken before one that is worth more than it and the change, and no
beginning settles the need that leaves only coins worth as much as it, or more. -/
theorem never_insert_iff
    (ascending : (before ++ coin :: after).Pairwise fun a b =>
      (Spendable.value a).toNat ≤ (Spendable.value b).toNat)
    (hof : ∀ item ∈ before ++ after, Spendable.token item = Spendable.token coin)
    (shortest : Shortest (before ++ after)
      (Settles fees (Spendable.token coin) held owed (before ++ after)) k)
    (change : IsChange (Spendable.token coin)
      (nativeFunds (Spendable.token coin) held (before ++ after) k -
        (nativeNeed fees owed k + fees.output.toNat)) outputs) :
    Never (before ++ coin :: after)
        (Settles fees (Spendable.token coin) held owed (before ++ coin :: after)) ↔
      IsExtra ⟨(before ++ after).take k, outputs⟩ coin ∧
      ∀ j ≤ (before ++ after).length,
        (∀ left ∈ (before ++ after).drop j,
          (Spendable.value coin).toNat ≤ (Spendable.value left).toNat) →
        ¬ IsSettled fees (nativeRest fees (Spendable.token coin) held owed (before ++ after) j +
          ((Spendable.value coin).toNat - (fees.input.toNat : Int))) := by
  have hbefore := value_le_of_mem_before ascending
  have hafter := value_le_of_mem_after ascending
  have hwithin := shortest.within
  rw [never_insert_iff_place shortest, isExtra_take_iff hof change]
  constructor
  · rintro ⟨hplace, never⟩
    constructor
    · obtain ⟨j, rfl⟩ : ∃ j, k = j + 1 := Nat.exists_eq_add_one_of_ne_zero (by omega)
      rw [exists_worth_more_iff (ascending_without ascending) hwithin]
      -- Otherwise the coin in the place of the last one would settle the need as well.
      refine Nat.lt_of_not_le fun hle => never j (Nat.le_of_lt_succ hplace) (by omega) ?_
      have hvalue : (Spendable.value coin).toNat ≤
          (Spendable.value (before ++ after)[j]).toNat := by
        rw [List.getElem_append_right (Nat.le_of_lt_succ hplace)]
        exact hafter _ (List.getElem_mem _)
      have hlast : nativeRest fees _ held owed _ (j + 1) = _ := nativeRest_succ hof hwithin
      have hsettled := settles_iff.mp shortest.enough
      rw [nativeRest] at hlast
      rw [IsSettled] at hsettled ⊢
      rw [nativeRest] at hsettled
      omega
    · intro j hj hleft
      rcases Nat.lt_or_ge j before.length with hlt | hge
      · -- The coins from there to the place of the coin are worth as much as it.
        have hj' : j < (before ++ after).length := by omega
        have hvalue : (Spendable.value (before ++ after)[j]).toNat =
            (Spendable.value coin).toNat := by
          refine Nat.le_antisymm ?_ (hleft _ ?_)
          · rw [List.getElem_append_left hlt]
            exact hbefore _ (List.getElem_mem _)
          · rw [List.drop_eq_getElem_cons hj']
            exact List.mem_cons_self
        rw [← hvalue, ← nativeRest_succ hof hj', ← settles_iff]
        exact shortest.shorter (j + 1) (by omega)
      · exact never j hge hj
  · rintro ⟨⟨taken, hmem, hless⟩, never⟩
    constructor
    · -- What is worth more than the coin stands behind it.
      refine Nat.lt_of_not_le fun hle => ?_
      rw [List.take_append_of_le_length hle] at hmem
      have hvalue := hbefore taken (List.mem_of_mem_take hmem)
      omega
    · intro j hplace hj
      obtain ⟨i, rfl⟩ := Nat.exists_eq_add_of_le hplace
      refine never _ hj fun left hleft => hafter left ?_
      rw [List.drop_length_add_append] at hleft
      exact List.mem_of_mem_drop hleft

end Native

/-! ## All tokens -/

theorem native_not_mem (imbalances : OrderedMap TokenType Delta) (native : TokenType) :
    native ∉ (imbalances.entries.filter fun entry => entry.1 ≠ native).map (·.1) := by
  intro hmem
  obtain ⟨entry, hentry, heq⟩ := List.mem_map.mp hmem
  exact of_decide_eq_true (List.mem_filter.mp hentry).2 heq

/-- What is chosen before the native token is of other tokens. -/
theorem TokensRule.isFreeOf_native
    (h : TokensRule coins (imbalances.entries.filter fun entry => entry.1 ≠ native) (.ok chosen)) :
    chosen.IsFreeOf native :=
  h.isFreeOf (native_not_mem imbalances native)

/-- What is chosen for the native token when the others take `chosen`. -/
def LastRule (coins : List γ) (imbalances : OrderedMap TokenType Delta) (fees : Fees)
    (native : TokenType) (chosen : Selection γ) (outcome : Except BalanceError (Selection γ)) : Prop :=
  NativeRule fees native (nativeImbalance imbalances native).surplus.toNat
    ((nativeImbalance imbalances native).deficit.toNat + cost fees chosen) (candidates coins native)
    outcome

/-- The last part is all of the native token. -/
theorem LastRule.isOf (h : LastRule coins imbalances fees native chosen (.ok more)) :
    more.IsOf native := by
  cases h with
  | settled _ change =>
      exact ⟨fun taken hmem => (mem_candidates (List.mem_of_mem_take hmem)).2, change.token_eq⟩

/-- The native coins do not settle the need when the others take `chosen`. -/
def NeverSettles (coins : List γ) (imbalances : OrderedMap TokenType Delta) (fees : Fees)
    (native : TokenType) (chosen : Selection γ) : Prop :=
  Never (candidates coins native)
    (Settles fees native (nativeImbalance imbalances native).surplus.toNat
      ((nativeImbalance imbalances native).deficit.toNat + cost fees chosen)
      (candidates coins native))

/-- A selection by the rule is a part for the other tokens, and one for the native token. -/
theorem Rule.eq_append (h : Rule coins imbalances fees native (.ok s)) :
    ∃ chosen more, s = chosen.append more ∧
      TokensRule coins (imbalances.entries.filter fun entry => entry.1 ≠ native) (.ok chosen) ∧
      LastRule coins imbalances fees native chosen (.ok more) := by
  generalize hx : Except.ok s = x at h
  cases h with
  | short => cases hx
  | @native chosen _ _ outcome others own ordered last =>
      cases outcome with
      | error error => cases hx
      | ok more =>
          cases hx
          subst own
          obtain rfl := ordered.unique (isQueue_candidates coins native)
          exact ⟨chosen, more, rfl, others, last⟩

/-- With a further coin, the tokens that fees are not paid in are covered still. -/
theorem Rule.receive {x : Except BalanceError (Selection γ)}
    (h' : Rule (l ++ coin :: r) imbalances fees native x)
    (others : TokensRule (l ++ r) (imbalances.entries.filter fun entry => entry.1 ≠ native)
      (.ok chosen)) :
    ∃ chosen' outcome, x = outcome.map chosen'.append ∧
      LastRule (l ++ coin :: r) imbalances fees native chosen' outcome ∧
      Receives fees coin chosen chosen' ∧ (Spendable.token coin = native → chosen' = chosen) := by
  have distinct : (imbalances.entries.filter fun entry => entry.1 ≠ native).Pairwise
      fun a b => a.1 ≠ b.1 := imbalances.distinct_entries.filter _
  cases h' with
  | short others' =>
      obtain ⟨_, herror, -⟩ := others.receive distinct others' fees
      cases herror
  | @native chosen' _ _ outcome others' own ordered last =>
      obtain ⟨_, hchosen, hreceives⟩ := others.receive distinct others' fees
      cases hchosen
      subst own
      -- The coins determine the queue of the native token: both sides speak of the same one.
      obtain rfl := ordered.unique (isQueue_candidates _ native)
      refine ⟨chosen', outcome, rfl, last, hreceives, ?_⟩
      rintro rfl
      have hsame := (others'.of_insert (native_not_mem imbalances _)).unique others
      exact Except.ok.inj hsame

/-- A list of which exactly the front has a property has as many such members as the front has. -/
theorem countP_append_eq_length {α : Type} {p : α → Bool} {front back : List α}
    (hfront : ∀ a ∈ front, p a) (hback : ∀ a ∈ back, ¬ p a) :
    (front ++ back).countP p = front.length := by
  rw [List.countP_append, List.countP_eq_length.mpr hfront, List.countP_eq_zero.mpr hback,
    Nat.add_zero]

/-- The rest by the selection as a whole is the one that the native selection looks at. -/
theorem restAfter_eq
    (others : TokensRule coins (imbalances.entries.filter fun entry => entry.1 ≠ native)
      (.ok chosen))
    (last : LastRule coins imbalances fees native chosen (.ok more)) (count : Nat) :
    restAfter coins imbalances fees native (chosen.append more) count =
      nativeRest fees native (nativeImbalance imbalances native).surplus.toNat
        ((nativeImbalance imbalances native).deficit.toNat + cost fees chosen)
        (candidates coins native) count := by
  have free := others.isFreeOf_native
  have own := last.isOf
  have hinputs : (chosen.append more).inputs.countP (Spendable.token · ≠ native) =
      chosen.inputs.length :=
    countP_append_eq_length (fun taken hmem => decide_eq_true (free.1 taken hmem))
      fun taken hmem => by simpa using own.1 taken hmem
  have houtputs : (chosen.append more).outputs.countP (·.token ≠ native) = chosen.outputs.length :=
    countP_append_eq_length (fun change hmem => decide_eq_true (free.2 change hmem))
      fun change hmem => by simpa using own.2 change hmem
  rw [restAfter, hinputs, houtputs, nativeRest, nativeFunds, nativeNeed, cost,
    (nativeImbalance imbalances native).toInt_eq, Nat.mul_add, Nat.mul_comm count]
  omega

/-- A native coin strands a transaction if no beginning of the longer queue settles the need. -/
theorem strands_iff_of_native
    (others : TokensRule (l ++ r)
      (imbalances.entries.filter fun entry => entry.1 ≠ Spendable.token coin) (.ok chosen))
    (last : LastRule (l ++ r) imbalances fees (Spendable.token coin) chosen (.ok more)) :
    Strands (l ++ r) imbalances fees (Spendable.token coin) (chosen.append more) coin ↔
      NeverSettles (l ++ coin :: r) imbalances fees (Spendable.token coin) chosen := by
  have free := others.isFreeOf_native
  have ordered := isQueue_candidates (l ++ r) (Spendable.token coin)
  have ordered' := isQueue_candidates (l ++ coin :: r) (Spendable.token coin)
  obtain ⟨before, after, hplace, hothers⟩ := ordered'.exists_insert
  have hqueue := ordered.unique hothers
  have hof : ∀ item ∈ before ++ after, Spendable.token item = Spendable.token coin :=
    fun item hmem => (hothers.mem_iff.mp hmem).2
  have hrest := restAfter_eq others last
  rw [LastRule, hqueue] at last
  rw [hplace] at ordered'
  rw [hqueue] at hrest
  rw [NeverSettles, hplace]
  -- A selection that went through is settled at a shortest beginning.
  cases last with
  | settled shortest change =>
      rw [never_insert_iff ordered'.ascending hof shortest change]
      constructor
      · rintro ⟨besides, never⟩
        refine ⟨free.isExtra_append_right.mp besides, fun j hj hleft => ?_⟩
        rw [hqueue] at never
        have hnot := never j hj fun left hmem _ => hleft left hmem
        rw [hrest, gain, if_pos rfl] at hnot
        exact hnot
      · rintro ⟨besides, never⟩
        refine ⟨free.isExtra_append_right.mpr besides, ?_⟩
        rw [hqueue]
        intro j hj hleft
        rw [hrest, gain, if_pos rfl]
        exact never j hj fun left hmem => hleft left hmem (hof left (List.mem_of_mem_drop hmem))

/-- A coin of another token strands a transaction if the native coins do not settle what it adds to the
fees. -/
theorem strands_iff_of_ne (hne : Spendable.token coin ≠ native)
    (others : TokensRule (l ++ r) (imbalances.entries.filter fun entry => entry.1 ≠ native)
      (.ok chosen))
    (last : LastRule (l ++ r) imbalances fees native chosen (.ok more))
    (receives : Receives fees coin chosen chosen') :
    Strands (l ++ r) imbalances fees native (chosen.append more) coin ↔
      NeverSettles (l ++ coin :: r) imbalances fees native chosen' := by
  have foreign := last.isOf.isFreeOf (Ne.symm hne)
  have hrest := restAfter_eq others last
  have hqueue : candidates (l ++ coin :: r) native = candidates (l ++ r) native :=
    ((isQueue_insert_iff_of_ne hne).mp (isQueue_candidates _ native)).unique
      (isQueue_candidates _ native)
  have hgain : gain fees native (chosen.append more) coin = -surcharge fees chosen coin := by
    rw [gain, if_neg hne, surcharge, surcharge, foreign.worth_append_left]
  have hvalue : ∀ count, ∀ left ∈ (candidates (l ++ r) native).drop count,
      Spendable.token left = Spendable.token coin →
      (Spendable.value coin).toNat ≤ (Spendable.value left).toNat := by
    intro count left hmem htoken
    exact absurd (htoken.symm.trans (mem_candidates (List.mem_of_mem_drop hmem)).2) hne
  rw [NeverSettles, hqueue]
  constructor
  · rintro ⟨besides, never⟩ j hj
    have hnot := never j hj (hvalue j)
    rw [hrest, hgain, ← Int.sub_eq_add_neg, ← nativeRest_add, ← settles_iff, Nat.add_assoc,
      ← receives.besides (foreign.isExtra_append_left.mp besides)] at hnot
    exact hnot
  · intro never
    have besides : IsExtra chosen coin := by
      refine Classical.byContradiction fun hnot => ?_
      cases last with
      | @settled k _ shortest _ =>
          -- The fees are not higher, so what settles the need without the coin settles it with it.
          refine never k shortest.within ?_
          have henough := shortest.enough
          rcases receives.instead hnot with hcost | hcost
          · rwa [hcost]
          · rw [settles_iff, hcost, ← Nat.add_assoc, nativeRest_add, IsSettled] at henough
            rw [settles_iff, IsSettled]
            omega
    refine ⟨foreign.isExtra_append_left.mpr besides, fun j hj _ => ?_⟩
    rw [hrest, hgain, ← Int.sub_eq_add_neg, ← nativeRest_add, ← settles_iff, Nat.add_assoc,
      ← receives.besides besides]
    exact never j hj

/-- A native coin that pays for itself, exactly or with a change output, is in nobody's way. -/
theorem not_strands_of_native
    (others : TokensRule (l ++ r)
      (imbalances.entries.filter fun entry => entry.1 ≠ Spendable.token coin) (.ok chosen))
    (last : LastRule (l ++ r) imbalances fees (Spendable.token coin) chosen (.ok more))
    (hvalue : (Spendable.value coin).toNat = fees.input.toNat ∨
      fees.input.toNat + fees.output.toNat ≤ (Spendable.value coin).toNat) :
    ¬ Strands (l ++ r) imbalances fees (Spendable.token coin) (chosen.append more) coin := by
  intro strands
  have free := others.isFreeOf_native
  have hrest := restAfter_eq others last
  obtain ⟨taken, hmem, -, hless⟩ := free.isExtra_append_right.mp strands.besides
  cases last with
  | @settled k _ shortest change =>
      -- The coins that are left are worth no less than any that is taken without the coin.
      have hleft : ∀ left ∈ (candidates (l ++ r) (Spendable.token coin)).drop k,
          (Spendable.value coin).toNat ≤ (Spendable.value left).toNat := by
        intro left hleft
        have ascending := (isQueue_candidates (l ++ r) (Spendable.token coin)).ascending
        rw [← List.take_append_drop k (candidates _ _), List.pairwise_append] at ascending
        have hle := ascending.2.2 taken hmem left hleft
        omega
      refine strands.never k shortest.within (fun left hmem _ => hleft left hmem) ?_
      have hsettled := settles_iff.mp shortest.enough
      rw [hrest, gain, if_pos rfl]
      rw [IsSettled] at hsettled ⊢
      omega

/-- What comes of the longer list is told by the condition, unless a calculation overflows. -/
theorem Rule.strands_iff {x : Except BalanceError (Selection γ)}
    (h : Rule (l ++ r) imbalances fees native (.ok s))
    (h' : Rule (l ++ coin :: r) imbalances fees native x) :
    ∃ chosen outcome, x = outcome.map chosen.append ∧
      LastRule (l ++ coin :: r) imbalances fees native chosen outcome ∧
      (Strands (l ++ r) imbalances fees native s coin ↔
        NeverSettles (l ++ coin :: r) imbalances fees native chosen) := by
  obtain ⟨chosen, more, rfl, others, last⟩ := h.eq_append
  obtain ⟨chosen', outcome, rfl, last', receives, same⟩ := h'.receive others
  refine ⟨chosen', outcome, rfl, last', ?_⟩
  by_cases htoken : Spendable.token coin = native
  · subst htoken
    rw [same rfl]
    exact strands_iff_of_native others last
  · exact strands_iff_of_ne htoken others last receives

/-- The native token comes last, and what is chosen before it stands. -/
theorem ofImbalances_eq_map {parts : List (Selection γ)}
    (h : (imbalances.entries.filter fun entry => entry.1 ≠ native).mapM
      (fun entry => ofToken coins entry.1 entry.2) = .ok parts) :
    ofImbalances coins imbalances fees native =
      (ofNative coins native (nativeImbalance imbalances native) fees
        (parts.foldl append empty)).map (parts.foldl append empty).append := by
  rw [ofImbalances, h]
  show (ofNative _ _ (nativeImbalance imbalances native) _ _ >>= _) = _
  cases ofNative coins native (nativeImbalance imbalances native) fees
    (parts.foldl append empty) <;> rfl

theorem rule_of_eq {x : Except BalanceError (Selection γ)}
    (h : ofImbalances coins imbalances fees native = x) (exact : Exact x) :
    Rule coins imbalances fees native x := by
  subst h
  exact ofImbalances_rule exact

/-- **When a received coin strands a transaction.** Let some coins balance a transaction, and let a
further coin stand among them. Then funds are missing only if the coin strands the transaction, and only
native ones; if it does strand it, there is no selection. A native coin that is worth the fee of an
input, or enough for a change output besides, never does. -/
theorem ofImbalances_receive (h : ofImbalances (l ++ r) imbalances fees native = .ok s) (coin : γ) :
    (∀ token missing, ofImbalances (l ++ coin :: r) imbalances fees native =
        .error (.insufficientFunds token missing) →
      token = native ∧ Strands (l ++ r) imbalances fees native s coin) ∧
    (Strands (l ++ r) imbalances fees native s coin →
      ∀ s', ofImbalances (l ++ coin :: r) imbalances fees native ≠ .ok s') ∧
    (Spendable.token coin = native →
      ((Spendable.value coin).toNat = fees.input.toNat ∨
        fees.input.toNat + fees.output.toNat ≤ (Spendable.value coin).toNat) →
      ¬ Strands (l ++ r) imbalances fees native s coin) := by
  have rule := rule_of_eq h nofun
  refine ⟨fun token missing hshort => ?_, fun strands s' hs' => ?_, ?_⟩
  · obtain ⟨chosen, outcome, hx, last, hstrands⟩ := rule.strands_iff (rule_of_eq hshort nofun)
    -- A coin more never makes another token short, so it is the native one that may be.
    cases last with
    | settled => cases hx
    | short never _ =>
        cases hx
        exact ⟨rfl, hstrands.mpr never⟩
  · obtain ⟨chosen, outcome, hx, last, hstrands⟩ := rule.strands_iff (rule_of_eq hs' nofun)
    cases last with
    | settled shortest _ => exact shortest.not_never (hstrands.mp strands)
    | short => cases hx
  · rintro rfl hvalue
    obtain ⟨chosen, more, rfl, others, last⟩ := rule.eq_append
    exact not_strands_of_native others last hvalue

/-- A coin of one comes before the coin of five that a token needs, and with its input and a change
output for it the native coin of six is one short. -/
theorem ofImbalances_receive_of_other_token :
    let native : TokenType := ⟨[0]⟩
    let token : TokenType := ⟨[1]⟩
    let needed : Output := ⟨⟨5, by decide⟩, "pk", token⟩
    let paying : Output := ⟨⟨6, by decide⟩, "pk", native⟩
    let dust : Output := ⟨⟨1, by decide⟩, "pk", token⟩
    let imbalances := OrderedMap.empty.insert token ⟨-5, by decide, by decide⟩
    let fees : Fees := ⟨⟨1, by decide⟩, ⟨2, by decide⟩⟩
    let s : Selection Output := ⟨[needed, paying], [⟨native, ⟨2, by decide⟩⟩]⟩
    ofImbalances ([needed] ++ [paying]) imbalances fees native = .ok s ∧
      ofImbalances ([needed] ++ dust :: [paying]) imbalances fees native =
        .error (.insufficientFunds native ⟨1, by decide⟩) ∧
      Strands ([needed] ++ [paying]) imbalances fees native s dust := by
  intro native token needed paying dust imbalances fees s
  have balanced : ofImbalances ([needed] ++ [paying]) imbalances fees native = .ok s := by
    have tokens : candidates ([needed] ++ [paying]) token = [needed] :=
      (isQueue_candidates _ token).unique (by decide)
    have natives : candidates ([needed] ++ [paying]) native = [paying] :=
      (isQueue_candidates _ native).unique (by decide)
    have other : ofToken ([needed] ++ [paying]) token ⟨-5, by decide, by decide⟩ =
        .ok ⟨[needed], []⟩ := by
      rw [ofToken, tokens]
      rfl
    have parts : (imbalances.entries.filter fun entry => entry.1 ≠ native).mapM
        (fun entry => ofToken ([needed] ++ [paying]) entry.1 entry.2) = .ok [⟨[needed], []⟩] :=
      mapM_cons_eq_ok.mpr ⟨_, [], other, rfl, rfl⟩
    refine (ofImbalances_eq_map parts).trans ?_
    rw [ofNative, natives]
    rfl
  -- The dust is taken first, and the change that this makes costs one output too many.
  have short : ofImbalances ([needed] ++ dust :: [paying]) imbalances fees native =
      .error (.insufficientFunds native ⟨1, by decide⟩) := by
    have tokens : candidates ([needed] ++ dust :: [paying]) token = [dust, needed] :=
      (isQueue_candidates _ token).unique (by decide)
    have natives : candidates ([needed] ++ dust :: [paying]) native = [paying] :=
      (isQueue_candidates _ native).unique (by decide)
    have other : ofToken ([needed] ++ dust :: [paying]) token ⟨-5, by decide, by decide⟩ =
        .ok ⟨[dust, needed], [⟨token, ⟨1, by decide⟩⟩]⟩ := by
      rw [ofToken, tokens]
      rfl
    have parts : (imbalances.entries.filter fun entry => entry.1 ≠ native).mapM
        (fun entry => ofToken ([needed] ++ dust :: [paying]) entry.1 entry.2) =
          .ok [⟨[dust, needed], [⟨token, ⟨1, by decide⟩⟩]⟩] :=
      mapM_cons_eq_ok.mpr ⟨_, [], other, rfl, rfl⟩
    refine (ofImbalances_eq_map parts).trans ?_
    rw [ofNative, natives]
    rfl
  exact ⟨balanced, short, ((ofImbalances_receive balanced dust).1 native _ short).2⟩

/-- So a coin may do harm: a native coin of nine pays exactly what is needed, and once there is a coin of
one, which costs more than it is worth, one is missing. -/
theorem ofImbalances_short_of_dust :
    let native : TokenType := ⟨[0]⟩
    let paying : Output := ⟨⟨9, by decide⟩, "pk", native⟩
    let dust : Output := ⟨⟨1, by decide⟩, "pk", native⟩
    let imbalances := OrderedMap.empty.insert native ⟨-7, by decide, by decide⟩
    let fees : Fees := ⟨⟨2, by decide⟩, ⟨1, by decide⟩⟩
    ofImbalances [paying] imbalances fees native = .ok ⟨[paying], []⟩ ∧
      ofImbalances [dust, paying] imbalances fees native =
        .error (.insufficientFunds native ⟨1, by decide⟩) := by
  intro native paying dust imbalances fees
  constructor
  · have natives : candidates [paying] native = [paying] :=
      (isQueue_candidates _ native).unique (by decide)
    refine (ofImbalances_eq_map rfl).trans ?_
    rw [ofNative, natives]
    rfl
  · have natives : candidates [dust, paying] native = [dust, paying] :=
      (isQueue_candidates _ native).unique (by decide)
    refine (ofImbalances_eq_map rfl).trans ?_
    rw [ofNative, natives]
    rfl

end Selection

end UtxoWallet
