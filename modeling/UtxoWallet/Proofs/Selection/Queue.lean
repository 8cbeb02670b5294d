import UtxoWallet.Proofs.Selection.Worth

/-! # The order in which coins are taken

The coins of a token stand in a queue, the smallest first and those of one value in the order given.
There is just one such queue (`Selection.IsQueue.unique`), and it is the one that coins are taken from
(`Selection.isQueue_candidates`). A selection takes the shortest beginning of it that is enough.
-/

namespace UtxoWallet

namespace Selection

variable {γ : Type} [Spendable γ]

/-! ## Queues -/

/-- The coins of a token, ascending by value; those of one value are in the order given. -/
structure IsQueue (coins : List γ) (token : TokenType) (queue : List γ) : Prop where
  ascending : queue.Pairwise fun a b => (Spendable.value a).toNat ≤ (Spendable.value b).toNat
  stable : ∀ value, queue.filter (Spendable.value · = value) =
    coins.filter fun coin => Spendable.token coin = token ∧ Spendable.value coin = value

/-- There are as many values to look at as occur, so queues can be decided. -/
theorem isQueue_iff {coins queue : List γ} {token : TokenType} :
    IsQueue coins token queue ↔
      (queue.Pairwise fun a b => (Spendable.value a).toNat ≤ (Spendable.value b).toNat) ∧
      ∀ value ∈ (queue ++ coins).map Spendable.value, queue.filter (Spendable.value · = value) =
        coins.filter fun coin => Spendable.token coin = token ∧ Spendable.value coin = value := by
  constructor
  · intro h
    exact ⟨h.ascending, fun value _ => h.stable value⟩
  · rintro ⟨ascending, stable⟩
    refine ⟨ascending, fun value => ?_⟩
    by_cases hmem : value ∈ (queue ++ coins).map Spendable.value
    · exact stable value hmem
    · rw [List.map_append, List.mem_append, not_or] at hmem
      have none : ∀ {l : List γ}, value ∉ l.map Spendable.value →
          ∀ coin ∈ l, Spendable.value coin ≠ value :=
        fun h coin hcoin heq => h (List.mem_map.mpr ⟨coin, hcoin, heq⟩)
      -- A value that no coin has leaves both filters empty.
      rw [List.filter_eq_nil_iff.mpr, List.filter_eq_nil_iff.mpr]
      · intro coin hcoin heq
        exact none hmem.2 coin hcoin (of_decide_eq_true heq).2
      · intro coin hcoin heq
        exact none hmem.1 coin hcoin (of_decide_eq_true heq)

instance [DecidableEq γ] (coins : List γ) (token : TokenType) (queue : List γ) :
    Decidable (IsQueue coins token queue) :=
  decidable_of_iff _ isQueue_iff.symm

/-- An ascending list does not begin with more than any of its members is worth. -/
theorem value_le_of_mem {coin other : γ} {queue : List γ}
    (ascending : (coin :: queue).Pairwise fun a b =>
      (Spendable.value a).toNat ≤ (Spendable.value b).toNat)
    (h : other ∈ coin :: queue) : (Spendable.value coin).toNat ≤ (Spendable.value other).toNat := by
  rcases List.mem_cons.mp h with rfl | hmem
  · exact Nat.le_refl _
  · exact List.rel_of_pairwise_cons ascending hmem

/-- Ascending lists that agree on the items of each value are the same. -/
theorem eq_of_filter_value_eq {l m : List γ}
    (hl : l.Pairwise fun a b => (Spendable.value a).toNat ≤ (Spendable.value b).toNat)
    (hm : m.Pairwise fun a b => (Spendable.value a).toNat ≤ (Spendable.value b).toNat)
    (h : ∀ value, l.filter (Spendable.value · = value) = m.filter (Spendable.value · = value)) :
    l = m := by
  have members : ∀ {l m : List γ},
      (∀ value, l.filter (Spendable.value · = value) = m.filter (Spendable.value · = value)) →
      ∀ coin ∈ l, coin ∈ m := by
    intro l m h coin hmem
    have hfilter : coin ∈ l.filter (Spendable.value · = Spendable.value coin) :=
      List.mem_filter.mpr ⟨hmem, decide_eq_true rfl⟩
    rw [h] at hfilter
    exact (List.mem_filter.mp hfilter).1
  induction l generalizing m with
  | nil =>
      cases m with
      | nil => rfl
      | cons b m => cases members (fun value => (h value).symm) b List.mem_cons_self
  | cons a l ih =>
      cases m with
      | nil => cases members h a List.mem_cons_self
      | cons b m =>
          -- Both begin with the least value, and with the first item that has it.
          have hvalue : Spendable.value b = Spendable.value a := by
            refine Amount.toNat_injective (Nat.le_antisymm ?_ ?_)
            · exact value_le_of_mem hm (members h a List.mem_cons_self)
            · exact value_le_of_mem hl (members (fun value => (h value).symm) b List.mem_cons_self)
          have hfirst := h (Spendable.value a)
          rw [List.filter_cons, List.filter_cons, if_pos (decide_eq_true rfl),
            if_pos (decide_eq_true hvalue)] at hfirst
          obtain rfl := (List.cons.inj hfirst).1
          rw [ih hl.of_cons hm.of_cons]
          intro value
          have htail := h value
          rw [List.filter_cons, List.filter_cons] at htail
          split at htail
          · exact (List.cons.inj htail).2
          · exact htail

/-- A token has one queue only: the order of values and the order within each value leave no choice.
-/
theorem IsQueue.unique {coins l m : List γ} {token : TokenType} (hl : IsQueue coins token l)
    (hm : IsQueue coins token m) : l = m :=
  eq_of_filter_value_eq hl.ascending hm.ascending fun value =>
    (hl.stable value).trans (hm.stable value).symm

/-- Is the first item worth no more than the second? -/
def isNotWorthMore (a b : γ) : Bool :=
  (Spendable.value a).toNat ≤ (Spendable.value b).toNat

theorem isNotWorthMore_trans (a b c : γ) (hab : isNotWorthMore a b) (hbc : isNotWorthMore b c) :
    isNotWorthMore a c :=
  decide_eq_true (Nat.le_trans (of_decide_eq_true hab) (of_decide_eq_true hbc))

theorem isNotWorthMore_total (a b : γ) : isNotWorthMore a b || isNotWorthMore b a := by
  rw [isNotWorthMore, isNotWorthMore, Bool.or_eq_true, decide_eq_true_eq, decide_eq_true_eq]
  exact Nat.le_total _ _

/-- Sorting leaves the items of one value in the order in which they stand. -/
theorem filter_value_mergeSort (items : List γ) (value : Amount) :
    (items.mergeSort isNotWorthMore).filter (Spendable.value · = value) =
      items.filter (Spendable.value · = value) := by
  let same := items.filter (Spendable.value · = value)
  have hvalue : ∀ item ∈ same, Spendable.value item = value := by
    intro item hmem
    exact of_decide_eq_true (List.mem_filter.mp hmem).2
  have ascending : same.Pairwise fun a b => isNotWorthMore a b := by
    refine List.pairwise_of_forall_mem_list fun a ha b hb => ?_
    rw [isNotWorthMore, hvalue a ha, hvalue b hb]
    exact decide_eq_true (Nat.le_refl _)
  have kept : same.Sublist (items.mergeSort isNotWorthMore) :=
    List.sublist_mergeSort isNotWorthMore_trans isNotWorthMore_total ascending List.filter_sublist
  -- There are no others of that value, so what is kept is all there is.
  have hperm := (List.mergeSort_perm items isNotWorthMore).filter (Spendable.value · = value)
  have hsame := kept.filter (Spendable.value · = value)
  rw [List.filter_eq_self.mpr fun item hmem => decide_eq_true (hvalue item hmem)] at hsame
  exact (hsame.eq_of_length hperm.length_eq.symm).symm

theorem candidates_eq (coins : List γ) (token : TokenType) :
    candidates coins token =
      (coins.filter fun coin => Spendable.token coin = token).mergeSort isNotWorthMore := rfl

/-- Sorting the coins of a token gives its queue. -/
theorem isQueue_candidates (coins : List γ) (token : TokenType) :
    IsQueue coins token (candidates coins token) := by
  rw [candidates_eq]
  constructor
  · exact (List.pairwise_mergeSort isNotWorthMore_trans isNotWorthMore_total _).imp
      of_decide_eq_true
  · intro value
    rw [filter_value_mergeSort, List.filter_filter]
    exact List.filter_congr fun coin _ => by rw [Bool.decide_and, Bool.and_comm]

/-- A queue holds all that the coins of its token are worth. -/
theorem worth_candidates (coins : List γ) (token : TokenType) :
    worth token (candidates coins token) = worth token coins := by
  rw [candidates, worth_perm (List.mergeSort_perm _ _)]
  induction coins with
  | nil => rfl
  | cons coin coins ih =>
      rw [List.filter_cons, worth_cons]
      split
      · next htoken => rw [worth_cons, ih]
      · next htoken =>
          rw [if_neg (by simpa using htoken), Nat.zero_add, ih]

/-! ## Beginnings that are enough -/

/-- The shortest beginning of a queue that is enough has `k` coins. -/
structure Shortest (queue : List γ) (Enough : Nat → Prop) (k : Nat) : Prop where
  within : k ≤ queue.length
  enough : Enough k
  shorter : ∀ j < k, ¬ Enough j

/-- No beginning of a queue is enough, not even all of it. -/
def Never (queue : List γ) (Enough : Nat → Prop) : Prop :=
  ∀ k ≤ queue.length, ¬ Enough k

section Beginnings

omit [Spendable γ]

variable {coin : γ} {queue : List γ} {Enough : Nat → Prop} {j k : Nat}

/-- There is one shortest beginning at most. -/
theorem Shortest.unique (hj : Shortest queue Enough j) (hk : Shortest queue Enough k) : j = k := by
  rcases Nat.lt_trichotomy j k with hlt | rfl | hlt
  · exact absurd hj.enough (hk.shorter j hlt)
  · rfl
  · exact absurd hk.enough (hj.shorter k hlt)

theorem Shortest.not_never (h : Shortest queue Enough k) : ¬ Never queue Enough :=
  fun never => never k h.within h.enough

theorem Shortest.zero (h : Enough 0) : Shortest queue Enough 0 :=
  ⟨Nat.zero_le _, h, nofun⟩

/-- Where no coin is too few, one coin is taken, and the others are taken as if it were not there. -/
theorem Shortest.cons (none : ¬ Enough 0) (h : Shortest queue (fun k => Enough (k + 1)) k) :
    Shortest (coin :: queue) Enough (k + 1) := by
  refine ⟨Nat.succ_le_succ h.within, h.enough, fun j hj => ?_⟩
  cases j with
  | zero => exact none
  | succ j => exact h.shorter j (Nat.lt_of_succ_lt_succ hj)

/-- If neither the empty beginning is enough nor any with the first item, none is. -/
theorem Never.cons (none : ¬ Enough 0) (h : Never queue fun k => Enough (k + 1)) :
    Never (coin :: queue) Enough := by
  intro k hk
  cases k with
  | zero => exact none
  | succ k => exact h k (Nat.le_of_succ_le_succ hk)

end Beginnings

end Selection

end UtxoWallet
