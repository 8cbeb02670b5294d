import UtxoWallet.Proofs.Results
import UtxoWallet.Proofs.Transaction.Expiry
import UtxoWallet.Transaction.Identity

/-! # Merging transactions

A merge goes over the segments of one side, and stops at the first that the other side uses for another
intent. A conflict needs both sides, though, so neither is preferred.

* `Transaction.merge_eq_ok_iff`: transactions of one network that agree wherever both have an intent
  become one, with the intents of both.
* `Transaction.merge_eq_conflict_iff`: any others of one network fail with their lowest conflict.
* `Transaction.merge_laws`: so merging has the laws of a union, as far as it is defined.
-/

namespace UtxoWallet

namespace Transaction

variable {a b c merged : Transaction} {segment : UInt16}

/-! ## Conflicts -/

/-- The two transactions have different intents in the segment. -/
def Conflict (a b : Transaction) (segment : UInt16) : Prop :=
  ∃ left right, a.intents.get? segment = some left ∧ b.intents.get? segment = some right ∧
    left ≠ right

/-- The segment is the lowest one with a conflict. -/
def LowestConflict (a b : Transaction) (segment : UInt16) : Prop :=
  a.Conflict b segment ∧ ∀ lower < segment, ¬ a.Conflict b lower

theorem conflict_comm : a.Conflict b segment ↔ b.Conflict a segment := by
  constructor
  · rintro ⟨left, right, hleft, hright, hne⟩
    exact ⟨right, left, hright, hleft, hne.symm⟩
  · rintro ⟨left, right, hleft, hright, hne⟩
    exact ⟨right, left, hright, hleft, hne.symm⟩

theorem lowestConflict_comm : a.LowestConflict b segment ↔ b.LowestConflict a segment := by
  simp only [LowestConflict, conflict_comm (a := a)]

/-- An intent of the one side is in conflict iff the other side has another one in its place. -/
theorem conflictsAt_iff {intent : Intent} (h : (segment, intent) ∈ b.intents.entries) :
    a.conflictsAt segment intent ↔ a.Conflict b segment := by
  have hright := OrderedMap.mem_entries_iff.mp h
  rw [conflictsAt, Option.any_eq_true]
  constructor
  · rintro ⟨left, hleft, hne⟩
    exact ⟨left, intent, hleft, hright, of_decide_eq_true hne⟩
  · rintro ⟨left, right, hleft, hright', hne⟩
    cases hright.symm.trans hright'
    exact ⟨left, hleft, decide_eq_true hne⟩

/-- The walk over the segments finds no conflict iff there is none. -/
theorem find?_conflict_eq_none_iff :
    b.intents.entries.find? (fun entry => a.conflictsAt entry.1 entry.2) = none ↔
      ∀ segment, ¬ a.Conflict b segment := by
  rw [List.find?_eq_none]
  constructor
  · intro h segment conflict
    obtain ⟨left, right, hleft, hright, hne⟩ := conflict
    have hmem := OrderedMap.mem_entries_iff.mpr hright
    exact h _ hmem ((conflictsAt_iff hmem).mpr ⟨left, right, hleft, hright, hne⟩)
  · intro h entry hmem hconflict
    exact h entry.1 ((conflictsAt_iff hmem).mp hconflict)

/-- The walk goes upwards, so the first conflict that it finds is the lowest. -/
theorem lowestConflict_of_find? {intent : Intent}
    (h : b.intents.entries.find? (fun entry => a.conflictsAt entry.1 entry.2) =
      some (segment, intent)) : a.LowestConflict b segment := by
  obtain ⟨hconflict, before, after, hsplit, hfree⟩ := List.find?_eq_some_iff_append.mp h
  have hmem : (segment, intent) ∈ b.intents.entries := by
    rw [hsplit]
    exact List.mem_append_right _ List.mem_cons_self
  refine ⟨(conflictsAt_iff hmem).mp hconflict, fun lower hlower conflict => ?_⟩
  obtain ⟨left, right, hleft, hright, hne⟩ := conflict
  have hother := OrderedMap.mem_entries_iff.mpr hright
  -- Segments ascend, so a lower one comes before the one found and has no conflict.
  have hnot : ¬ a.conflictsAt lower right := by
    have ascending := b.intents.ascending
    rw [hsplit, List.pairwise_append, List.pairwise_cons] at ascending
    rw [hsplit, List.mem_append, List.mem_cons] at hother
    rcases hother with hbefore | heq | hafter
    · simpa using hfree _ hbefore
    · cases heq
      exact absurd hlower (UInt16.lt_irrefl _)
    · have hgreater := Std.compare_eq_lt.mp (ascending.2.1.1 _ hafter)
      exact absurd (UInt16.lt_trans hlower hgreater) (UInt16.lt_irrefl _)
  exact hnot ((conflictsAt_iff (OrderedMap.mem_entries_iff.mpr hright)).mpr
    ⟨left, right, hleft, hright, hne⟩)

/-! ## What a merge gives -/

/-- The transactions are of one network, and no segment has two intents. -/
structure Compatible (a b : Transaction) : Prop where
  network : a.network = b.network
  agree : ∀ segment, ¬ a.Conflict b segment

theorem Compatible.symm (h : a.Compatible b) : b.Compatible a :=
  ⟨h.network.symm, fun segment conflict => h.agree segment (conflict_comm.mp conflict)⟩

/-- The transaction of both sides' intents, proven if both sides are. -/
def union (a b : Transaction) : Transaction :=
  { network := a.network
    intents := a.intents.insertAll b.intents.entries
    proven := a.proven && b.proven }

/-- Two transactions can be merged if they are compatible, and then the merged one is their union.
-/
theorem merge_eq_ok_iff : a.merge b = .ok merged ↔ a.Compatible b ∧ a.union b = merged := by
  -- A merge is refused for the network first, and then for the first segment in conflict.
  have agree := find?_conflict_eq_none_iff (a := a) (b := b)
  rw [merge]
  split
  · next hnetwork =>
      constructor
      · intro h
        cases h
      · rintro ⟨h, -⟩
        exact absurd h.network hnetwork
  · next hnetwork =>
      split
      · next segment intent hfind =>
          constructor
          · intro h
            cases h
          · rintro ⟨h, -⟩
            rw [agree.mpr h.agree] at hfind
            cases hfind
      · next hfind =>
          rw [Except.ok.injEq]
          constructor
          · intro h
            exact ⟨⟨not_not.mp hnetwork, agree.mp hfind⟩, h⟩
          · rintro ⟨-, h⟩
            exact h

/-- Two transactions of one network become one, or their lowest conflict is reported. -/
theorem merge_cases (h : a.network = b.network) :
    a.merge b = .ok (a.union b) ∨
      ∃ segment, a.LowestConflict b segment ∧ a.merge b = .error (.segmentConflict segment) := by
  rw [merge, if_neg (not_not_intro h)]
  split
  · next segment intent hfind => exact .inr ⟨segment, lowestConflict_of_find? hfind, rfl⟩
  · exact .inl rfl

/-- There is one lowest conflict at most. -/
theorem LowestConflict.unique {other : UInt16} (h : a.LowestConflict b segment)
    (ho : a.LowestConflict b other) : segment = other := by
  by_contra hne
  rcases UInt16.lt_or_lt_of_ne hne with hlt | hgt
  · exact ho.2 segment hlt h.1
  · exact h.2 other hgt ho.1

/-- A merge that fails names the lowest segment in which the two differ. -/
theorem merge_eq_conflict_iff : a.merge b = .error (.segmentConflict segment) ↔
    a.network = b.network ∧ a.LowestConflict b segment := by
  constructor
  · intro h
    have hnetwork : a.network = b.network := by
      rw [merge] at h
      split at h
      · cases h
      · next hnetwork => exact not_not.mp hnetwork
    refine ⟨hnetwork, ?_⟩
    obtain hok | ⟨lowest, hlowest, herror⟩ := merge_cases hnetwork
    · cases hok.symm.trans h
    · cases herror.symm.trans h
      exact hlowest
  · rintro ⟨hnetwork, hlowest⟩
    obtain hok | ⟨other, hother, herror⟩ := merge_cases hnetwork
    · exact absurd hlowest.1 ((merge_eq_ok_iff.mp hok).1.agree segment)
    · rw [herror, hother.unique hlowest]

/-! ## Intents of both sides -/

/-- The right side comes last; where the sides agree that makes no difference. -/
theorem get?_union (a b : Transaction) (segment : UInt16) :
    (a.union b).intents.get? segment = (b.intents.get? segment).or (a.intents.get? segment) :=
  OrderedMap.get?_insertAll_entries a.intents b.intents segment

theorem ext_intents (network : a.network = b.network)
    (intents : ∀ segment, a.intents.get? segment = b.intents.get? segment)
    (proven : a.proven = b.proven) : a = b := by
  have same : a.intents = b.intents := OrderedMap.ext_get? intents
  cases a
  cases b
  simp_all

/-- Where both have an intent, it is the same one. -/
theorem Compatible.or_comm (h : a.Compatible b) (segment : UInt16) :
    (a.intents.get? segment).or (b.intents.get? segment) =
      (b.intents.get? segment).or (a.intents.get? segment) := by
  cases ha : a.intents.get? segment with
  | none => rw [Option.none_or, Option.or_none]
  | some left =>
      cases hb : b.intents.get? segment with
      | none => rfl
      | some right =>
          have same : left = right := by
            by_contra hne
            exact h.agree segment ⟨left, right, ha, hb, hne⟩
          rw [same]

theorem Compatible.union_comm (h : a.Compatible b) : a.union b = b.union a := by
  refine ext_intents h.network (fun segment => ?_) (Bool.and_comm _ _)
  rw [get?_union, get?_union, h.or_comm]

/-- A union asks its parts in order, however they are grouped. -/
theorem union_assoc (a b c : Transaction) : (a.union b).union c = a.union (b.union c) := by
  refine ext_intents rfl (fun segment => ?_) (Bool.and_assoc _ _ _)
  simp only [get?_union, Option.or_assoc]

/-- An intent of either side is one of both together. -/
theorem Compatible.get?_union_eq_some_iff (h : a.Compatible b) {intent : Intent} :
    (a.union b).intents.get? segment = some intent ↔
      a.intents.get? segment = some intent ∨ b.intents.get? segment = some intent := by
  rw [get?_union]
  constructor
  · intro hget
    rcases Option.or_eq_some_iff.mp hget with hright | ⟨-, hleft⟩
    · exact .inr hright
    · exact .inl hleft
  · rintro (hleft | hright)
    · rw [← h.or_comm, hleft, Option.some_or]
    · rw [hright, Option.some_or]

/-- Three transactions that become one are compatible in pairs. -/
theorem compatible_union_iff (h : a.Compatible b) :
    (a.union b).Compatible c ↔ a.Compatible c ∧ b.Compatible c := by
  constructor
  · intro hc
    refine ⟨⟨hc.network, ?_⟩, ⟨h.network.symm.trans hc.network, ?_⟩⟩
    · rintro segment ⟨left, right, hleft, hright, hne⟩
      exact hc.agree segment
        ⟨left, right, h.get?_union_eq_some_iff.mpr (.inl hleft), hright, hne⟩
    · rintro segment ⟨left, right, hleft, hright, hne⟩
      exact hc.agree segment
        ⟨left, right, h.get?_union_eq_some_iff.mpr (.inr hleft), hright, hne⟩
  · rintro ⟨ha, hb⟩
    refine ⟨ha.network, ?_⟩
    rintro segment ⟨left, right, hleft, hright, hne⟩
    rcases h.get?_union_eq_some_iff.mp hleft with hleft | hleft
    · exact ha.agree segment ⟨left, right, hleft, hright, hne⟩
    · exact hb.agree segment ⟨left, right, hleft, hright, hne⟩

/-! ## The laws -/

theorem compatible_self (a : Transaction) : a.Compatible a := by
  refine ⟨rfl, ?_⟩
  rintro segment ⟨left, right, hleft, hright, hne⟩
  exact hne (Option.some.inj (hleft.symm.trans hright))

theorem merge_self (a : Transaction) : a.merge a = .ok a := by
  refine merge_eq_ok_iff.mpr ⟨compatible_self a, ?_⟩
  refine ext_intents rfl (fun segment => ?_) (Bool.and_self _)
  rw [get?_union, Option.or_self]

/-- The proven transaction of no intents. -/
def neutral (network : String) : Transaction :=
  { network, intents := OrderedMap.empty, proven := true }

theorem merge_neutral (a : Transaction) : a.merge (neutral a.network) = .ok a := by
  refine merge_eq_ok_iff.mpr ⟨⟨rfl, ?_⟩, ext_intents rfl (fun _ => rfl) (Bool.and_true _)⟩
  rintro segment ⟨left, right, -, hright, -⟩
  cases hright

theorem merge_eq_ok_comm : a.merge b = .ok merged ↔ b.merge a = .ok merged := by
  have swap : ∀ {a b : Transaction}, a.merge b = .ok merged → b.merge a = .ok merged := by
    intro a b h
    obtain ⟨compatible, rfl⟩ := merge_eq_ok_iff.mp h
    exact merge_eq_ok_iff.mpr ⟨compatible.symm, compatible.union_comm.symm⟩
  exact ⟨swap, swap⟩

/-- Both orders name the same conflict. -/
theorem merge_eq_conflict_comm :
    a.merge b = .error (.segmentConflict segment) ↔
      b.merge a = .error (.segmentConflict segment) := by
  rw [merge_eq_conflict_iff, merge_eq_conflict_iff, lowestConflict_comm, eq_comm]

/-- Three transactions can be merged if any two of them can. -/
theorem merge_merge_eq_ok_iff : a.merge b >>= (·.merge c) = .ok merged ↔
    (a.Compatible b ∧ a.Compatible c ∧ b.Compatible c) ∧ (a.union b).union c = merged := by
  rw [bind_eq_ok]
  simp only [merge_eq_ok_iff]
  constructor
  · rintro ⟨_, ⟨hab, rfl⟩, hc, h⟩
    exact ⟨⟨hab, (compatible_union_iff hab).mp hc⟩, h⟩
  · rintro ⟨⟨hab, hc⟩, h⟩
    exact ⟨_, ⟨hab, rfl⟩, (compatible_union_iff hab).mpr hc, h⟩

/-- The grouping of three does not matter, nor whether they can be merged at all. -/
theorem merge_assoc :
    a.merge b >>= (·.merge c) = .ok merged ↔ b.merge c >>= a.merge = .ok merged := by
  -- The right side is the left one of `b`, `c` and `a`, since a merge has no preferred side.
  have turned : b.merge c >>= a.merge = .ok merged ↔ b.merge c >>= (·.merge a) = .ok merged := by
    simp only [bind_eq_ok, merge_eq_ok_comm (a := a)]
  rw [turned, merge_merge_eq_ok_iff, merge_merge_eq_ok_iff]
  constructor
  · rintro ⟨⟨hab, hac, hbc⟩, rfl⟩
    refine ⟨⟨hbc, hab.symm, hac.symm⟩, ?_⟩
    rw [union_assoc a b c]
    exact ((compatible_union_iff hbc).mpr ⟨hab.symm, hac.symm⟩).union_comm
  · rintro ⟨⟨hbc, hba, hca⟩, rfl⟩
    refine ⟨⟨hba.symm, hca.symm, hbc⟩, ?_⟩
    rw [union_assoc a b c]
    exact ((compatible_union_iff hbc).mpr ⟨hba, hca⟩).union_comm.symm

/-! ## What is read off a merged transaction -/

/-- The merged transaction has the intents of both sides and no others. -/
theorem Compatible.mem_values_union_iff (h : a.Compatible b) {intent : Intent} :
    intent ∈ (a.union b).intents.values ↔
      intent ∈ a.intents.values ∨ intent ∈ b.intents.values := by
  simp only [OrderedMap.mem_values_iff, h.get?_union_eq_some_iff, exists_or]

/-- A merged transaction has the identifiers of its parts. -/
theorem Compatible.contains_identifiers_union_iff (h : a.Compatible b) {id : String} :
    (a.union b).identifiers.contains id ↔ a.identifiers.contains id ∨ b.identifiers.contains id := by
  simp only [identifiers, OrderedSet.contains_ofList_iff, List.mem_map, h.mem_values_union_iff,
    or_and_right, exists_or]

/-- A merged transaction expires with the first of its parts. -/
theorem Compatible.expiry?_union (h : a.Compatible b) :
    (a.union b).expiry? = Option.merge Instant.earlier a.expiry? b.expiry? := by
  have members : ∀ ttl, ttl ∈ (a.union b).expiries ↔ ttl ∈ a.expiries ++ b.expiries := by
    intro ttl
    simp only [expiries, List.mem_append, List.mem_filterMap, h.mem_values_union_iff,
      or_and_right, exists_or]
  calc (a.union b).expiry?
      = Instant.earliest? (a.expiries ++ b.expiries) := Instant.earliest?_congr members
    _ = Option.merge Instant.earlier a.expiry? b.expiry? := Instant.earliest?_append _ _

/-- **Merging has the laws of a union.** It is idempotent, has a neutral element in each network, and
comes out the same from both sides: with one result, or with the lowest conflict. Of three transactions
it does not matter which two become one first. What comes out has the identifiers of both sides, and
expires with the one that expires earlier. -/
theorem merge_laws (a b c : Transaction) :
    a.merge a = .ok a ∧
    a.merge (neutral a.network) = .ok a ∧
    (∀ merged, a.merge b = .ok merged ↔ b.merge a = .ok merged) ∧
    (∀ error, a.network = b.network → a.merge b = .error error →
      ∃ segment, a.LowestConflict b segment ∧ error = .segmentConflict segment ∧
        b.merge a = .error (.segmentConflict segment)) ∧
    (∀ merged, a.merge b >>= (·.merge c) = .ok merged ↔ b.merge c >>= a.merge = .ok merged) ∧
    ∀ merged, a.merge b = .ok merged →
      (∀ id, merged.identifiers.contains id ↔
        a.identifiers.contains id ∨ b.identifiers.contains id) ∧
      merged.expiry? = Option.merge Instant.earlier a.expiry? b.expiry? := by
  refine ⟨merge_self a, merge_neutral a, fun _ => merge_eq_ok_comm, ?_, fun _ => merge_assoc, ?_⟩
  · intro error hnetwork herror
    obtain hok | ⟨segment, hlowest, hconflict⟩ := merge_cases hnetwork
    · cases hok.symm.trans herror
    · cases hconflict.symm.trans herror
      exact ⟨segment, hlowest, rfl, merge_eq_conflict_comm.mp hconflict⟩
  · intro merged hmerged
    obtain ⟨compatible, rfl⟩ := merge_eq_ok_iff.mp hmerged
    exact ⟨fun _ => compatible.contains_identifiers_union_iff, compatible.expiry?_union⟩

/-- Two legs share an intent in segment 1, and each has one of its own. A third transaction has another
intent in segments 2 and 3, so it does not go with either, and segment 2 is reported. -/
theorem merge_laws_of_three :
    let shared : Intent := ⟨1000, none, .zero⟩
    let other : Intent := ⟨2000, some ⟨[], []⟩, .zero⟩
    let tx (intents : List (UInt16 × Intent)) (proven : Bool) : Transaction :=
      ⟨"net", OrderedMap.ofList intents, proven⟩
    let left := tx [(1, shared), (2, shared)] true
    let right := tx [(1, shared), (3, shared)] false
    let third := tx [(3, other), (2, other)] true
    let both := tx [(1, shared), (2, shared), (3, shared)] false
    left.merge right = .ok both ∧ right.merge left = .ok both ∧
      both.expiry? = Option.merge Instant.earlier left.expiry? right.expiry? ∧
      left.network = third.network ∧ left.merge third = .error (.segmentConflict 2) ∧
      third.merge left = .error (.segmentConflict 2) := by
  intro shared other tx left right third both
  have merged : left.merge right = .ok both := by decide
  have conflict : left.merge third = .error (.segmentConflict 2) := by decide
  obtain ⟨-, -, comm, -, -, read⟩ := merge_laws left right third
  obtain ⟨-, -, -, refused, -, -⟩ := merge_laws left third right
  obtain ⟨segment, -, hsegment, turned⟩ := refused _ rfl conflict
  cases hsegment
  exact ⟨merged, (comm both).mp merged, (read both merged).2, rfl, conflict, turned⟩

end Transaction

end UtxoWallet
