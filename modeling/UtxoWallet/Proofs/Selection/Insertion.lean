import UtxoWallet.Proofs.Selection.Accounts
import UtxoWallet.Proofs.Selection.Rule

/-! # One more coin among those to choose from

A further coin leaves the queues of other tokens alone. In the queue of its own token it stands
somewhere, behind coins that are worth no more and before coins that are worth no less, and the other
coins keep their order (`Selection.IsQueue.exists_insert`).

So for a token that fees are not paid in there are two ways only (`Selection.Receives`). The coin is
taken beside all that were taken without it, which costs the fee of an input, and of a change output if
there was no change before; or as many coins as before are enough, and at most a change output is saved.

* `Selection.Shortest.insert`: the shortest beginning that is enough, with the coin and without.
* `Selection.TokenRule.receive`, `Selection.TokensRule.receive`: what is chosen for one token, and for
  all that fees are not paid in, is covered still, and its fees change in one of these ways.
-/

namespace UtxoWallet

namespace Selection

variable {γ : Type} [Spendable γ] {coins l r queue before after : List γ} {coin : γ}
  {token : TokenType}

/-! ## Queues -/

/-- The queue of a token holds its coins. -/
theorem IsQueue.mem_iff (h : IsQueue coins token queue) {item : γ} :
    item ∈ queue ↔ item ∈ coins ∧ Spendable.token item = token := by
  have hfilter := congrArg (item ∈ ·) (h.stable (Spendable.value item))
  simpa using hfilter

/-- A coin of another token does not matter. -/
theorem isQueue_insert_iff_of_ne (hne : Spendable.token coin ≠ token) :
    IsQueue (l ++ coin :: r) token queue ↔ IsQueue (l ++ r) token queue := by
  have same : ∀ value, (l ++ coin :: r).filter
      (fun item => Spendable.token item = token ∧ Spendable.value item = value) =
        (l ++ r).filter fun item => Spendable.token item = token ∧ Spendable.value item = value := by
    intro value
    simp [hne]
  constructor
  · rintro ⟨ascending, stable⟩
    exact ⟨ascending, fun value => (stable value).trans (same value)⟩
  · rintro ⟨ascending, stable⟩
    exact ⟨ascending, fun value => (stable value).trans (same value).symm⟩

/-- A coin of the token has a place in the queue, and the others keep their order. -/
theorem IsQueue.exists_insert (h : IsQueue (l ++ coin :: r) (Spendable.token coin) queue) :
    ∃ before after, queue = before ++ coin :: after ∧
      IsQueue (l ++ r) (Spendable.token coin) (before ++ after) := by
  -- Among the items of its value, the coin stands between those of `l` and those of `r`.
  have hsame := h.stable (Spendable.value coin)
  rw [List.filter_append, List.filter_cons, if_pos (by simp)] at hsame
  obtain ⟨front, back, rfl, hfront, hback⟩ := List.filter_eq_append_iff.mp hsame
  obtain ⟨between, after, rfl, hbetween, -, hafter⟩ := List.filter_eq_cons_iff.mp hback
  refine ⟨front ++ between, after, (List.append_assoc _ _ _).symm, ?_, fun value => ?_⟩
  · refine h.ascending.sublist ?_
    rw [List.append_assoc]
    exact (List.Sublist.refl _).append ((List.Sublist.refl _).append (List.sublist_cons_self _ _))
  · by_cases hvalue : Spendable.value coin = value
    · rw [← hvalue, List.filter_append, List.filter_append, hfront, hafter,
        List.filter_eq_nil_iff.mpr hbetween, List.append_nil, List.filter_append]
    · have hother := h.stable value
      simpa [List.filter_cons, hvalue] using hother

section Place

variable (ascending : (before ++ coin :: after).Pairwise fun a b =>
  (Spendable.value a).toNat ≤ (Spendable.value b).toNat)

include ascending

theorem ascending_without :
    (before ++ after).Pairwise fun a b => (Spendable.value a).toNat ≤ (Spendable.value b).toNat :=
  ascending.sublist ((List.Sublist.refl _).append (List.sublist_cons_self _ _))

theorem value_le_of_mem_before :
    ∀ item ∈ before, (Spendable.value item).toNat ≤ (Spendable.value coin).toNat :=
  fun item hmem => (List.pairwise_append.mp ascending).2.2 item hmem coin List.mem_cons_self

theorem value_le_of_mem_after :
    ∀ item ∈ after, (Spendable.value coin).toNat ≤ (Spendable.value item).toNat :=
  fun _ hmem => List.rel_of_pairwise_cons (List.pairwise_append.mp ascending).2.1 hmem

end Place

/-! ## Sums over a beginning -/

omit [Spendable γ] in
/-- A beginning that ends before the coin does not notice it. -/
theorem take_insert_of_le {k : Nat} (hk : k ≤ before.length) :
    (before ++ coin :: after).take k = (before ++ after).take k := by
  rw [List.take_append_of_le_length hk, List.take_append_of_le_length hk]

/-- From the place of the coin on, it comes on top of what there is without it. -/
theorem worth_take_insert_of_ge {k : Nat} (hk : before.length ≤ k) :
    worth (Spendable.token coin) ((before ++ coin :: after).take (k + 1)) =
      worth (Spendable.token coin) ((before ++ after).take k) + (Spendable.value coin).toNat := by
  obtain ⟨j, rfl⟩ := Nat.exists_eq_add_of_le hk
  rw [Nat.add_assoc, List.take_length_add_append, List.take_length_add_append, List.take_succ_cons,
    worth_append, worth_append, worth_cons, if_pos rfl]
  omega

theorem worth_take_succ {k : Nat} (hof : ∀ item ∈ queue, Spendable.token item = token)
    (hk : k < queue.length) :
    worth token (queue.take (k + 1)) =
      worth token (queue.take k) + (Spendable.value queue[k]).toNat := by
  rw [← List.take_append_getElem hk, worth_append, worth_cons,
    if_pos (hof _ (List.getElem_mem hk)), worth_nil]
  rfl

/-- The last coin of a beginning is worth the most. -/
theorem exists_worth_more_iff {k bound : Nat}
    (ascending : queue.Pairwise fun a b => (Spendable.value a).toNat ≤ (Spendable.value b).toNat)
    (hk : k < queue.length) :
    (∃ taken ∈ queue.take (k + 1), bound < (Spendable.value taken).toNat) ↔
      bound < (Spendable.value queue[k]).toNat := by
  constructor
  · rintro ⟨taken, hmem, hbound⟩
    obtain ⟨i, hi, rfl⟩ := List.mem_take_iff_getElem.mp hmem
    rcases Nat.lt_or_eq_of_le (Nat.le_of_lt_succ (Nat.lt_of_lt_of_le hi (Nat.min_le_left _ _)))
      with hlt | rfl
    · exact Nat.lt_of_lt_of_le hbound (List.pairwise_iff_getElem.mp ascending i k _ hk hlt)
    · exact hbound
  · intro hbound
    exact ⟨queue[k], List.mem_take_iff_getElem.mpr ⟨k, by omega, rfl⟩, hbound⟩

/-- A coin that stands before those worth more makes no beginning worth more. -/
theorem worth_take_insert_le {k : Nat}
    (ascending : (before ++ coin :: after).Pairwise fun a b =>
      (Spendable.value a).toNat ≤ (Spendable.value b).toNat)
    (hof : ∀ item ∈ before ++ after, Spendable.token item = Spendable.token coin)
    (hk : k ≤ (before ++ after).length) :
    worth (Spendable.token coin) ((before ++ coin :: after).take k) ≤
      worth (Spendable.token coin) ((before ++ after).take k) := by
  rcases Nat.lt_or_ge before.length k with hlt | hle
  · obtain ⟨j, rfl⟩ := Nat.exists_eq_add_of_lt hlt
    rw [worth_take_insert_of_ge (Nat.le_add_right _ _), worth_take_succ hof hk]
    refine Nat.add_le_add_left ?_ _
    rw [List.getElem_append_right (Nat.le_add_right _ _)]
    exact value_le_of_mem_after ascending _ (List.getElem_mem _)
  · exact Nat.le_of_eq (congrArg _ (take_insert_of_le hle))

/-! ## The shortest beginning -/

/-- If one of the coins taken is worth more than the coin and all that is left over, the coin is taken
besides. If not, as many coins as before are enough, and no more is left over. -/
theorem Shortest.insert {need k : Nat}
    (ascending : (before ++ coin :: after).Pairwise fun a b =>
      (Spendable.value a).toNat ≤ (Spendable.value b).toNat)
    (hof : ∀ item ∈ before ++ after, Spendable.token item = Spendable.token coin)
    (hneed : 0 < need)
    (shortest : Shortest (before ++ after)
      (fun j => need ≤ worth (Spendable.token coin) ((before ++ after).take j)) k) :
    let sum := fun j => worth (Spendable.token coin) ((before ++ after).take j)
    let sum' := fun j => worth (Spendable.token coin) ((before ++ coin :: after).take j)
    let Extra := ∃ taken ∈ (before ++ after).take k,
      (Spendable.value coin).toNat + (sum k - need) < (Spendable.value taken).toNat
    (Extra ∧ Shortest (before ++ coin :: after) (fun j => need ≤ sum' j) (k + 1) ∧
      sum' (k + 1) = sum k + (Spendable.value coin).toNat) ∨
    (¬ Extra ∧ Shortest (before ++ coin :: after) (fun j => need ≤ sum' j) k ∧ sum' k ≤ sum k) := by
  intro sum sum' Extra
  have hwithin := shortest.within
  have henough : need ≤ sum k := shortest.enough
  have hlength : (before ++ coin :: after).length = (before ++ after).length + 1 := by simp; omega
  have hshorter : ∀ j < k, ¬ need ≤ sum' j := by
    intro j hj
    have hless := shortest.shorter j hj
    have hle := worth_take_insert_le ascending hof (Nat.le_trans (Nat.le_of_lt hj) hwithin)
    show ¬ need ≤ worth _ _
    omega
  have hle : sum' k ≤ sum k := worth_take_insert_le ascending hof hwithin
  -- At least one coin is taken, and the last one is worth the most.
  obtain ⟨j, rfl⟩ : ∃ j, k = j + 1 := by
    refine Nat.exists_eq_add_one_of_ne_zero ?_
    rintro rfl
    exact absurd henough (Nat.not_le.mpr hneed)
  have hextra : Extra ↔ (Spendable.value coin).toNat + (sum (j + 1) - need) <
      (Spendable.value (before ++ after)[j]).toNat :=
    exists_worth_more_iff (ascending_without ascending) hwithin
  have hlast : sum (j + 1) = sum j + (Spendable.value (before ++ after)[j]).toNat :=
    worth_take_succ hof hwithin
  rcases Nat.lt_or_ge j before.length with hlt | hge
  · -- All coins taken stand before the coin, so none is worth more.
    have hsame : sum' (j + 1) = sum (j + 1) := congrArg _ (take_insert_of_le hlt)
    have hvalue : (Spendable.value (before ++ after)[j]).toNat ≤ (Spendable.value coin).toNat := by
      rw [List.getElem_append_left hlt]
      exact value_le_of_mem_before ascending _ (List.getElem_mem _)
    exact .inr ⟨fun h => absurd (hextra.mp h) (by omega), ⟨by omega, by omega, hshorter⟩, hle⟩
  · have hinsert : sum' (j + 1) = sum j + (Spendable.value coin).toNat := worth_take_insert_of_ge hge
    have hnext : sum' (j + 1 + 1) = sum (j + 1) + (Spendable.value coin).toNat :=
      worth_take_insert_of_ge (Nat.le_succ_of_le hge)
    rcases Nat.lt_or_ge (sum j + (Spendable.value coin).toNat) need with hless | hreach
    · refine .inl ⟨hextra.mpr (by omega), ⟨by omega, by omega, fun i hi => ?_⟩, hnext⟩
      rcases Nat.lt_succ_iff_lt_or_eq.mp hi with hi | rfl
      · exact hshorter i hi
      · omega
    · exact .inr ⟨fun h => absurd (hextra.mp h) (by omega), ⟨by omega, by omega, hshorter⟩, hle⟩

/-! ## What a selection costs -/

/-- The fees of all that is selected. -/
def cost (fees : Fees) (s : Selection γ) : Nat :=
  fees.input.toNat * s.inputs.length + fees.output.toNat * s.outputs.length

/-- A coin of the same token is taken that is worth more than the coin and the change of the token
together, so the coin could not stand in for it. -/
def IsExtra (s : Selection γ) (coin : γ) : Prop :=
  ∃ taken ∈ s.inputs, Spendable.token taken = Spendable.token coin ∧
    (Spendable.value coin).toNat + worth (Spendable.token coin) s.outputs <
      (Spendable.value taken).toNat

/-- What a coin costs that is taken besides: the fee of an input, and of a change output if there is
none without it. -/
def surcharge (fees : Fees) (s : Selection γ) (coin : γ) : Nat :=
  fees.input.toNat +
    if worth (Spendable.token coin) s.outputs = 0 ∧ (Spendable.value coin).toNat ≠ 0 then
      fees.output.toNat
    else 0

/-- What a further coin of a token that fees are not paid in does to the fees: it is taken besides, or
it saves a change output at best. -/
structure Receives (fees : Fees) (coin : γ) (s s' : Selection γ) : Prop where
  besides : IsExtra s coin → cost fees s' = cost fees s + surcharge fees s coin
  instead : ¬ IsExtra s coin →
    cost fees s' = cost fees s ∨ cost fees s = cost fees s' + fees.output.toNat

/-- Nothing is added of a token. -/
def IsFreeOf (s : Selection γ) (token : TokenType) : Prop :=
  (∀ taken ∈ s.inputs, Spendable.token taken ≠ token) ∧ ∀ change ∈ s.outputs, change.token ≠ token

section Cost

variable {fees : Fees} {s s' t : Selection γ} {rest : Nat} {outputs : List Change}

omit [Spendable γ] in
theorem cost_append : cost fees (s.append t) = cost fees s + cost fees t := by
  simp only [cost, append, List.length_append, Nat.mul_add]
  omega

/-- Change is one output at most, and none if nothing is left. -/
theorem IsChange.eq_nil_or_singleton (h : IsChange token rest outputs) :
    rest = 0 ∧ outputs = [] ∨
      rest ≠ 0 ∧ ∃ change : Change, outputs = [change] ∧ change.token = token ∧
        change.value.toNat = rest := by
  rw [IsChange] at h
  split at h
  · next hrest => exact .inl ⟨hrest, List.map_eq_nil_iff.mp h⟩
  · next hrest =>
      obtain ⟨change, rfl, hchange⟩ := List.map_eq_singleton_iff.mp h
      obtain ⟨htoken, hvalue⟩ := Prod.mk.inj hchange
      exact .inr ⟨hrest, change, rfl, htoken, hvalue⟩

theorem IsChange.worth_eq (h : IsChange token rest outputs) : worth token outputs = rest := by
  obtain ⟨rfl, rfl⟩ | ⟨-, change, rfl, htoken, rfl⟩ := h.eq_nil_or_singleton
  · rfl
  · rw [worth_cons, worth_nil, Nat.add_zero]
    exact if_pos htoken

theorem IsChange.length_eq (h : IsChange token rest outputs) :
    outputs.length = if rest = 0 then 0 else 1 := by
  obtain ⟨rfl, rfl⟩ | ⟨hrest, change, rfl, -⟩ := h.eq_nil_or_singleton
  · rfl
  · rw [if_neg hrest, List.length_singleton]

theorem IsChange.token_eq (h : IsChange token rest outputs) :
    ∀ change ∈ outputs, change.token = token := by
  obtain ⟨-, rfl⟩ | ⟨-, change, rfl, htoken, -⟩ := h.eq_nil_or_singleton
  · exact nofun
  · exact List.forall_mem_singleton.mpr htoken

theorem IsOf.isFreeOf {other : TokenType} (h : s.IsOf token) (hne : token ≠ other) :
    s.IsFreeOf other :=
  ⟨fun taken hmem heq => hne ((h.1 taken hmem).symm.trans heq),
    fun change hmem heq => hne ((h.2 change hmem).symm.trans heq)⟩

theorem IsFreeOf.append (hs : s.IsFreeOf token) (ht : t.IsFreeOf token) :
    (s.append t).IsFreeOf token :=
  ⟨List.forall_mem_append.mpr ⟨hs.1, ht.1⟩, List.forall_mem_append.mpr ⟨hs.2, ht.2⟩⟩

/-- A part without a token adds nothing to what is paid out in it. -/
theorem IsFreeOf.worth_append_left (h : t.IsFreeOf token) :
    worth token (s.append t).outputs = worth token s.outputs := by
  rw [Selection.append, worth_append, worth_of_ne h.2, Nat.add_zero]

theorem IsFreeOf.worth_append_right (h : s.IsFreeOf token) :
    worth token (s.append t).outputs = worth token t.outputs := by
  rw [Selection.append, worth_append, worth_of_ne h.2, Nat.zero_add]

/-- Only what is selected of the token of the coin matters. -/
theorem IsFreeOf.isExtra_append_left (h : t.IsFreeOf (Spendable.token coin)) :
    IsExtra (s.append t) coin ↔ IsExtra s coin := by
  rw [IsExtra, IsExtra, h.worth_append_left]
  constructor
  · rintro ⟨taken, hmem, htoken, hless⟩
    rcases List.mem_append.mp hmem with hmem | hmem
    · exact ⟨taken, hmem, htoken, hless⟩
    · exact absurd htoken (h.1 taken hmem)
  · rintro ⟨taken, hmem, hrest⟩
    exact ⟨taken, List.mem_append_left _ hmem, hrest⟩

/-- Which coins are extra does not hang on the order of two parts. -/
theorem isExtra_append_comm : IsExtra (s.append t) coin ↔ IsExtra (t.append s) coin := by
  simp only [IsExtra, Selection.append, List.mem_append, worth_append, or_comm, Nat.add_comm]

theorem IsFreeOf.isExtra_append_right (h : s.IsFreeOf (Spendable.token coin)) :
    IsExtra (s.append t) coin ↔ IsExtra t coin :=
  isExtra_append_comm.trans h.isExtra_append_left

/-- A coin that is not extra may leave the selection as it is. -/
theorem Receives.refl (h : ¬ IsExtra s coin) : Receives fees coin s s :=
  ⟨fun hextra => absurd hextra h, fun _ => .inl rfl⟩

/-- What is selected of other tokens does not matter. -/
theorem Receives.shift {u u' : Selection γ} {n : Nat} (h : Receives fees coin s s')
    (hextra : IsExtra u coin ↔ IsExtra s coin)
    (hworth : worth (Spendable.token coin) u.outputs = worth (Spendable.token coin) s.outputs)
    (hcost : cost fees u = cost fees s + n) (hcost' : cost fees u' = cost fees s' + n) :
    Receives fees coin u u' := by
  constructor
  · intro hu
    have hs := h.besides (hextra.mp hu)
    rw [surcharge] at hs ⊢
    rw [hworth]
    omega
  · intro hu
    have hs := h.instead (mt hextra.mpr hu)
    omega

/-- A part that is free of the token may stand behind both selections. -/
theorem Receives.append_left (h : Receives fees coin s s')
    (free : t.IsFreeOf (Spendable.token coin)) :
    Receives fees coin (s.append t) (s'.append t) :=
  h.shift free.isExtra_append_left free.worth_append_left cost_append cost_append

/-- Such a part may as well stand before both. -/
theorem Receives.append_right (h : Receives fees coin s s')
    (free : t.IsFreeOf (Spendable.token coin)) :
    Receives fees coin (t.append s) (t.append s') :=
  h.shift free.isExtra_append_right free.worth_append_right
    (cost_append.trans (Nat.add_comm _ _)) (cost_append.trans (Nat.add_comm _ _))

end Cost

/-! ## Tokens that fees are not paid in -/

section Tokens

variable {fees : Fees} {imbalance : Delta} {part chosen : Selection γ}
  {entries : List (TokenType × Delta)} {x : Except BalanceError (Selection γ)}

/-- What the rule chooses for a token is all of that token. -/
theorem TokenRule.isOf (h : TokenRule coins token imbalance (.ok part)) : part.IsOf token := by
  cases h with
  | surplus _ change => exact ⟨nofun, change.token_eq⟩
  | covered _ ordered _ change =>
      exact ⟨fun taken hmem => (ordered.mem_iff.mp (List.mem_of_mem_take hmem)).2, change.token_eq⟩

/-- What the rule chooses for several tokens is a part for the first of them and the rest. -/
theorem TokensRule.eq_append {entry : TokenType × Delta}
    (h : TokensRule coins (entry :: entries) (.ok chosen)) :
    ∃ part rest, chosen = part.append rest ∧ TokenRule coins entry.1 entry.2 (.ok part) ∧
      TokensRule coins entries (.ok rest) := by
  generalize hx : Except.ok chosen = x at h
  cases h with
  | short => cases hx
  | @cons _ _ _ part outcome first others =>
      cases outcome with
      | error error => cases hx
      | ok rest =>
          cases hx
          exact ⟨part, rest, rfl, first, others⟩

/-- Nothing is chosen of a token that has no imbalance. -/
theorem TokensRule.isFreeOf (h : TokensRule coins entries (.ok chosen))
    (hmem : token ∉ entries.map (·.1)) : chosen.IsFreeOf token := by
  induction entries generalizing chosen with
  | nil =>
      cases h
      exact ⟨nofun, nofun⟩
  | cons entry entries ih =>
      rw [List.map_cons, List.mem_cons, not_or] at hmem
      obtain ⟨part, rest, rfl, first, others⟩ := h.eq_append
      exact (first.isOf.isFreeOf (Ne.symm hmem.1)).append (ih others hmem.2)

/-- A coin of another token does not matter for what is chosen for a token. -/
theorem TokenRule.of_insert (hne : Spendable.token coin ≠ token)
    (h : TokenRule (l ++ coin :: r) token imbalance x) : TokenRule (l ++ r) token imbalance x := by
  cases h with
  | surplus surplus change => exact .surplus surplus change
  | covered deficit ordered shortest change =>
      exact .covered deficit ((isQueue_insert_iff_of_ne hne).mp ordered) shortest change
  | short deficit ordered never lacking =>
      rw [worth_append, worth_cons, if_neg hne, Nat.zero_add, ← worth_append] at lacking
      exact .short deficit ((isQueue_insert_iff_of_ne hne).mp ordered) never lacking

/-- A coin of a token that nothing is chosen of may be left out. -/
theorem TokensRule.of_insert (hmem : Spendable.token coin ∉ entries.map (·.1))
    (h : TokensRule (l ++ coin :: r) entries x) : TokensRule (l ++ r) entries x := by
  induction h with
  | nil => exact .nil
  | short first =>
      rw [List.map_cons, List.mem_cons, not_or] at hmem
      exact .short (first.of_insert hmem.1)
  | cons first _ ih =>
      rw [List.map_cons, List.mem_cons, not_or] at hmem
      exact .cons (first.of_insert hmem.1) (ih hmem.2)

/-- In a beginning of the queue, some coin is worth more than the new one and the rest together. -/
theorem isExtra_take_iff {k rest : Nat} {outputs : List Change}
    (hof : ∀ item ∈ queue, Spendable.token item = Spendable.token coin)
    (change : IsChange (Spendable.token coin) rest outputs) :
    IsExtra ⟨queue.take k, outputs⟩ coin ↔
      ∃ taken ∈ queue.take k, (Spendable.value coin).toNat + rest < (Spendable.value taken).toNat := by
  rw [IsExtra, change.worth_eq]
  constructor
  · rintro ⟨taken, hmem, -, hless⟩
    exact ⟨taken, hmem, hless⟩
  · rintro ⟨taken, hmem, hless⟩
    exact ⟨taken, hmem, hof taken (List.mem_of_mem_take hmem), hless⟩

omit [Spendable γ] in
/-- A beginning of the queue costs a fee for each coin, and one for the change if there is any. -/
theorem cost_take (fees : Fees) {k rest : Nat} {outputs : List Change} (hk : k ≤ queue.length)
    (change : IsChange token rest outputs) :
    cost fees ⟨queue.take k, outputs⟩ =
      fees.input.toNat * k + if rest = 0 then 0 else fees.output.toNat := by
  rw [cost, change.length_eq, List.length_take_of_le hk]
  split <;> simp

/-- For a token that is short, the rule takes the shortest beginning of the queue that covers the
deficit, and gives the rest back. -/
theorem TokenRule.eq_covered {k : Nat} (h : TokenRule coins token imbalance x)
    (deficit : imbalance.toInt < 0) (ordered : IsQueue coins token queue)
    (shortest : Shortest queue
      (fun j => imbalance.deficit.toNat ≤ worth token (queue.take j)) k) :
    ∃ outputs, x = .ok ⟨queue.take k, outputs⟩ ∧
      IsChange token (worth token (queue.take k) - imbalance.deficit.toNat) outputs := by
  cases h with
  | surplus surplus _ => omega
  | covered _ ordered' shortest' change =>
      obtain rfl := ordered.unique ordered'
      obtain rfl := shortest.unique shortest'
      exact ⟨_, rfl, change⟩
  | short _ ordered' never _ =>
      obtain rfl := ordered.unique ordered'
      exact absurd never shortest.not_never

/-- With a further coin of its own, a token is covered still. -/
theorem TokenRule.receive (h : TokenRule (l ++ r) (Spendable.token coin) imbalance (.ok part))
    (h' : TokenRule (l ++ coin :: r) (Spendable.token coin) imbalance x) (fees : Fees) :
    ∃ part', x = .ok part' ∧ Receives fees coin part part' := by
  cases h with
  | surplus surplus change =>
      exact ⟨_, h'.unique (.surplus surplus change), .refl fun ⟨_, hmem, _⟩ => nomatch hmem⟩
  | @covered _ k _ deficit ordered shortest change =>
      have ordered' := isQueue_candidates (l ++ coin :: r) (Spendable.token coin)
      obtain ⟨before, after, hplace, hothers⟩ := ordered'.exists_insert
      obtain rfl := ordered.unique hothers
      rw [hplace] at ordered'
      have hof : ∀ item ∈ before ++ after, Spendable.token item = Spendable.token coin :=
        fun item hmem => (ordered.mem_iff.mp hmem).2
      have hneed : 0 < imbalance.deficit.toNat := by
        have hdelta := imbalance.toInt_eq
        omega
      have hextra := isExtra_take_iff (k := k) hof change
      have hcost := cost_take fees shortest.within change
      have henough := shortest.enough
      obtain ⟨extra, shortest', hsum⟩ | ⟨extra, shortest', hle⟩ :=
        Shortest.insert ordered'.ascending hof hneed shortest
      · obtain ⟨outputs', rfl, change'⟩ := h'.eq_covered deficit ordered' shortest'
        refine ⟨_, rfl, fun _ => ?_, fun hnot => absurd (hextra.mpr extra) hnot⟩
        dsimp only at hsum
        rw [hcost, cost_take fees shortest'.within change', surcharge, change.worth_eq, hsum,
          Nat.mul_succ]
        grind
      · obtain ⟨outputs', rfl, change'⟩ := h'.eq_covered deficit ordered' shortest'
        refine ⟨_, rfl, fun hextra' => absurd (hextra.mp hextra') extra, fun _ => ?_⟩
        rw [hcost, cost_take fees shortest'.within change']
        grind

/-- With a further coin, all tokens that fees are not paid in are covered still. -/
theorem TokensRule.receive (distinct : entries.Pairwise fun a b => a.1 ≠ b.1)
    (h : TokensRule (l ++ r) entries (.ok chosen)) (h' : TokensRule (l ++ coin :: r) entries x)
    (fees : Fees) : ∃ chosen', x = .ok chosen' ∧ Receives fees coin chosen chosen' := by
  induction entries generalizing chosen x with
  | nil =>
      cases h
      cases h'
      exact ⟨empty, rfl, .refl fun ⟨_, hmem, _⟩ => nomatch hmem⟩
  | cons entry entries ih =>
      obtain ⟨own, imbalance⟩ := entry
      obtain ⟨part, rest, rfl, first, others⟩ := h.eq_append
      by_cases htoken : Spendable.token coin = own
      · -- Keys are distinct, so the coin does not matter for the others.
        subst htoken
        have hmem : Spendable.token coin ∉ entries.map (·.1) := by
          intro hmem
          obtain ⟨entry, hentry, heq⟩ := List.mem_map.mp hmem
          exact List.rel_of_pairwise_cons distinct hentry heq.symm
        cases h' with
        | short first' =>
            obtain ⟨_, herror, -⟩ := first.receive first' fees
            cases herror
        | cons first' others' =>
            obtain ⟨part', hpart, hreceives⟩ := first.receive first' fees
            cases hpart
            obtain rfl := others.unique (others'.of_insert hmem)
            exact ⟨_, rfl, hreceives.append_left (others.isFreeOf hmem)⟩
      · cases h' with
        | short first' => cases first.unique (first'.of_insert htoken)
        | cons first' others' =>
            cases first.unique (first'.of_insert htoken)
            obtain ⟨rest', rfl, hreceives⟩ := ih distinct.of_cons others others'
            exact ⟨_, rfl, hreceives.append_right (first.isOf.isFreeOf (Ne.symm htoken))⟩

end Tokens

end Selection

end UtxoWallet
