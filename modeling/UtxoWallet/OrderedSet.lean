import UtxoWallet.OrderedMap

/-!
# Finite sets in order

A finite set is a finite map to `Unit`, so it too has one representation only.
-/

namespace UtxoWallet

/-- A finite set of `κ`, in order. -/
abbrev OrderedSet (κ : Type) [Ord κ] := OrderedMap κ Unit

namespace OrderedSet

variable {κ : Type} [Ord κ]

/-- The members, ascending. -/
def toList (s : OrderedSet κ) : List κ :=
  OrderedMap.keys s

/-- Is every member of `s` a member of `t`? -/
def isSubset (s t : OrderedSet κ) : Bool :=
  (toList s).all (OrderedMap.contains t)

variable [Std.TransOrd κ] [Std.LawfulEqOrd κ]

/-- Adds several members. -/
def insertMembers (s : OrderedSet κ) (members : List κ) : OrderedSet κ :=
  OrderedMap.insertAll s (members.map fun member => (member, ()))

/-- The set of some members. -/
def ofList (members : List κ) : OrderedSet κ :=
  insertMembers OrderedMap.empty members

/-! ### Members -/

omit [Std.TransOrd κ] in
theorem mem_toList_iff {s : OrderedSet κ} {member : κ} :
    member ∈ toList s ↔ OrderedMap.contains s member :=
  OrderedMap.mem_keys_iff

omit [Std.TransOrd κ] in
theorem isSubset_iff {s t : OrderedSet κ} :
    s.isSubset t ↔ ∀ member, OrderedMap.contains s member → OrderedMap.contains t member := by
  simp only [isSubset, List.all_eq_true, mem_toList_iff]

omit [Std.TransOrd κ] in
@[simp] theorem isSubset_refl (s : OrderedSet κ) : s.isSubset s :=
  isSubset_iff.2 fun _ => id

omit [Std.TransOrd κ] in
theorem isSubset_trans {s t u : OrderedSet κ} (hst : s.isSubset t) (htu : t.isSubset u) :
    s.isSubset u :=
  isSubset_iff.2 fun member hmem => isSubset_iff.1 htu member (isSubset_iff.1 hst member hmem)

theorem isSubset_antisymm {s t : OrderedSet κ} (hst : s.isSubset t) (hts : t.isSubset s) :
    s = t := by
  refine OrderedMap.ext_get? fun member => ?_
  have same : OrderedMap.contains s member = OrderedMap.contains t member :=
    Bool.eq_iff_iff.2 ⟨isSubset_iff.1 hst member, isSubset_iff.1 hts member⟩
  -- A member has no value but `()`.
  rw [OrderedMap.contains, OrderedMap.contains] at same
  cases hs : OrderedMap.get? s member <;> cases ht : OrderedMap.get? t member <;> simp_all

theorem contains_insertMembers_iff [DecidableEq κ] {s : OrderedSet κ} {members : List κ}
    {member : κ} : OrderedMap.contains (s.insertMembers members) member ↔
      member ∈ members ∨ OrderedMap.contains s member := by
  induction members generalizing s with
  | nil => simp [insertMembers, OrderedMap.insertAll]
  | cons first rest ih =>
    have step : s.insertMembers (first :: rest) = insertMembers (s.insert first ()) rest := rfl
    rw [step, ih, OrderedMap.contains, OrderedMap.get?_insert, List.mem_cons]
    by_cases same : first = member
    · simp [same]
    · simp [same, Ne.symm same, OrderedMap.contains]

theorem contains_ofList_iff [DecidableEq κ] {members : List κ} {member : κ} :
    OrderedMap.contains (ofList members) member ↔ member ∈ members := by
  rw [ofList, contains_insertMembers_iff]
  simp [OrderedMap.contains]

/-- A set is the set of its members. -/
theorem ofList_toList (s : OrderedSet κ) : ofList (toList s) = s := by
  have entries : (toList s).map (fun member => (member, ())) = OrderedMap.entries s := by
    rw [toList, OrderedMap.keys, List.map_map]
    exact List.map_id _
  rw [ofList, insertMembers, entries]
  exact OrderedMap.ofList_entries s

end OrderedSet

end UtxoWallet
