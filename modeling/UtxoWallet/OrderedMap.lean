/-!
# Finite maps in key order

A finite map is kept as the list of its entries in strictly ascending key order. Each map has one
representation only, so two maps with the same lookups are equal (`OrderedMap.ext_get?`), and a
walk over the entries meets them in key order.

Every operation is described by the lookups after it: `get?_insert`, `get?_insertAll`,
`get?_filter`, `get?_erase`.
-/

namespace UtxoWallet

/-- A finite map from `κ` to `ν`, in key order. -/
structure OrderedMap (κ ν : Type) [Ord κ] where
  entries : List (κ × ν)
  ascending : entries.Pairwise fun a b => compare a.1 b.1 = .lt
  deriving DecidableEq

namespace OrderedMap

variable {κ ν : Type} [Ord κ]

/-! ### Views -/

/-- The value that an ascending list of entries holds for a key. -/
def find? (key : κ) : List (κ × ν) → Option ν
  | [] => none
  | (k, v) :: rest => if compare k key = .eq then some v else find? key rest

/-- The value of a key. -/
def get? (m : OrderedMap κ ν) (key : κ) : Option ν :=
  find? key m.entries

/-- Does the map have a value for the key? -/
def contains (m : OrderedMap κ ν) (key : κ) : Bool :=
  (m.get? key).isSome

/-- The keys, ascending. -/
def keys (m : OrderedMap κ ν) : List κ :=
  m.entries.map (·.1)

/-- The values in key order. -/
def values (m : OrderedMap κ ν) : List ν :=
  m.entries.map (·.2)

def size (m : OrderedMap κ ν) : Nat :=
  m.entries.length

/-! ### Building maps -/

def empty : OrderedMap κ ν :=
  ⟨[], .nil⟩

instance : EmptyCollection (OrderedMap κ ν) := ⟨empty⟩

instance : Inhabited (OrderedMap κ ν) := ⟨empty⟩

/-- Puts an entry into an ascending list, in the place of one with the same key. -/
def insertEntry (key : κ) (value : ν) : List (κ × ν) → List (κ × ν)
  | [] => [(key, value)]
  | (k, v) :: rest =>
    match compare key k with
    | .lt => (key, value) :: (k, v) :: rest
    | .eq => (key, value) :: rest
    | .gt => (k, v) :: insertEntry key value rest

theorem mem_insertEntry {key : κ} {value : ν} {entry : κ × ν} {l : List (κ × ν)}
    (h : entry ∈ insertEntry key value l) : entry = (key, value) ∨ entry ∈ l := by
  induction l with
  | nil => simpa [insertEntry] using h
  | cons head rest ih =>
    simp only [insertEntry] at h
    split at h <;> grind

/-- Keeps the entries whose key passes a test. -/
def filter (m : OrderedMap κ ν) (keep : κ → Bool) : OrderedMap κ ν :=
  ⟨m.entries.filter fun entry => keep entry.1, m.ascending.filter _⟩

def erase (m : OrderedMap κ ν) (key : κ) : OrderedMap κ ν :=
  m.filter fun k => compare k key != .eq

variable [Std.TransOrd κ] [Std.LawfulEqOrd κ]

theorem ascending_insertEntry (key : κ) (value : ν) {l : List (κ × ν)}
    (h : l.Pairwise fun a b => compare a.1 b.1 = .lt) :
    (insertEntry key value l).Pairwise fun a b => compare a.1 b.1 = .lt := by
  induction l with
  | nil => simp [insertEntry]
  | cons head rest ih =>
    obtain ⟨k, v⟩ := head
    obtain ⟨least, tail⟩ := List.pairwise_cons.1 h
    simp only [insertEntry]
    split
    · next c =>
      refine List.pairwise_cons.2 ⟨fun entry mem => ?_, h⟩
      rcases List.mem_cons.1 mem with rfl | mem
      · exact c
      · exact Std.TransCmp.lt_trans c (least entry mem)
    · next c =>
      cases Std.LawfulEqCmp.eq_of_compare c
      exact List.pairwise_cons.2 ⟨least, tail⟩
    · next c =>
      refine List.pairwise_cons.2 ⟨fun entry mem => ?_, ih tail⟩
      rcases mem_insertEntry mem with rfl | mem
      · exact Std.OrientedCmp.gt_iff_lt.1 c
      · exact least entry mem

/-- Gives a key a value, in the place of any value that it has. -/
def insert (m : OrderedMap κ ν) (key : κ) (value : ν) : OrderedMap κ ν :=
  ⟨insertEntry key value m.entries, ascending_insertEntry key value m.ascending⟩

/-- Gives several keys their values, one after the other. -/
def insertAll (m : OrderedMap κ ν) (entries : List (κ × ν)) : OrderedMap κ ν :=
  entries.foldl (fun m entry => m.insert entry.1 entry.2) m

/-- The map of some entries; of two with one key, the later counts. -/
def ofList (entries : List (κ × ν)) : OrderedMap κ ν :=
  empty.insertAll entries

/-! ### Lookups -/

omit [Std.TransOrd κ] [Std.LawfulEqOrd κ] in
@[simp] theorem get?_empty (key : κ) : (empty : OrderedMap κ ν).get? key = none := rfl

omit [Std.TransOrd κ] [Std.LawfulEqOrd κ] in
theorem not_contains_iff {m : OrderedMap κ ν} {key : κ} :
    ¬ m.contains key ↔ m.get? key = none := by
  rw [contains, Option.not_isSome_iff_eq_none]

omit [Std.TransOrd κ] in
theorem find?_insertEntry (key k : κ) (value : ν) (l : List (κ × ν)) :
    find? k (insertEntry key value l) = if compare key k = .eq then some value else find? k l := by
  induction l with
  | nil => rfl
  | cons head rest ih =>
    obtain ⟨k', v'⟩ := head
    simp only [insertEntry]
    split
    · simp [find?]
    · next c =>
      cases Std.LawfulEqCmp.eq_of_compare c
      by_cases h : compare key k = .eq <;> simp [find?, h]
    · next c =>
      simp only [find?, ih]
      by_cases h : compare key k = .eq
      · cases Std.LawfulEqCmp.eq_of_compare h
        have : compare k' key ≠ .eq := by
          intro same
          cases Std.LawfulEqCmp.eq_of_compare same
          simp at c
        simp [this]
      · simp [h]

@[simp] theorem get?_insert [DecidableEq κ] (m : OrderedMap κ ν) (key k : κ) (value : ν) :
    (m.insert key value).get? k = if key = k then some value else m.get? k := by
  simp only [get?, insert, find?_insertEntry, Std.LawfulEqCmp.compare_eq_iff_eq]

omit [Std.TransOrd κ] in
theorem find?_filter (keep : κ → Bool) (k : κ) (l : List (κ × ν)) :
    find? k (l.filter fun entry => keep entry.1) = if keep k then find? k l else none := by
  induction l with
  | nil => simp [find?]
  | cons head rest ih =>
    obtain ⟨k', v'⟩ := head
    by_cases same : k' = k
    · subst same
      by_cases kept : keep k' <;> simp [find?, kept, ih]
    · by_cases kept : keep k' <;> simp [find?, kept, ih, same]

omit [Std.TransOrd κ] in
@[simp] theorem get?_filter (m : OrderedMap κ ν) (keep : κ → Bool) (k : κ) :
    (m.filter keep).get? k = if keep k then m.get? k else none :=
  find?_filter keep k m.entries

omit [Std.TransOrd κ] in
@[simp] theorem get?_erase [DecidableEq κ] (m : OrderedMap κ ν) (key k : κ) :
    (m.erase key).get? k = if k = key then none else m.get? k := by
  simp only [erase, get?_filter]
  by_cases same : k = key <;> simp [same]

omit [Std.TransOrd κ] in
/-- A list with distinct keys holds the entries that a search in it finds. -/
theorem find?_eq_some_iff {l : List (κ × ν)} (distinct : l.Pairwise fun a b => a.1 ≠ b.1)
    {key : κ} {value : ν} : find? key l = some value ↔ (key, value) ∈ l := by
  induction l with
  | nil => simp [find?]
  | cons head rest ih =>
    obtain ⟨k, v⟩ := head
    obtain ⟨other, tail⟩ := List.pairwise_cons.1 distinct
    simp only [List.mem_cons, Prod.mk.injEq, find?, Std.LawfulEqCmp.compare_eq_iff_eq]
    by_cases same : k = key
    · subst same
      have absent : (k, value) ∉ rest := fun mem => other (k, value) mem rfl
      simp [absent, eq_comm]
    · simp [same, Ne.symm same, ih tail]

omit [Std.TransOrd κ] in
theorem find?_cons [DecidableEq κ] (key k : κ) (value : ν) (l : List (κ × ν)) :
    find? key ((k, value) :: l) = if k = key then some value else find? key l := by
  simp only [find?, Std.LawfulEqCmp.compare_eq_iff_eq]

omit [Std.TransOrd κ] in
/-- In a list with distinct keys, the first key does not come again. -/
theorem find?_tail {key : κ} {value : ν} {l : List (κ × ν)}
    (distinct : ((key, value) :: l).Pairwise fun a b => a.1 ≠ b.1) : find? key l = none := by
  obtain ⟨other, tail⟩ := List.pairwise_cons.1 distinct
  rw [Option.eq_none_iff_forall_ne_some]
  intro found h
  exact other _ ((find?_eq_some_iff tail).1 h) rfl

omit [Std.TransOrd κ] in
/-- Ascending keys are distinct. -/
theorem distinct_entries (m : OrderedMap κ ν) : m.entries.Pairwise fun a b => a.1 ≠ b.1 :=
  m.ascending.imp fun ascends same => by simp [same] at ascends

omit [Std.TransOrd κ] in
theorem mem_entries_iff {m : OrderedMap κ ν} {key : κ} {value : ν} :
    (key, value) ∈ m.entries ↔ m.get? key = some value :=
  (find?_eq_some_iff m.distinct_entries).symm

omit [Std.TransOrd κ] in
theorem mem_keys_iff {m : OrderedMap κ ν} {key : κ} : key ∈ m.keys ↔ m.contains key := by
  rw [keys, List.mem_map, contains, Option.isSome_iff_exists]
  constructor
  · rintro ⟨⟨_, value⟩, hmem, rfl⟩
    exact ⟨value, mem_entries_iff.1 hmem⟩
  · rintro ⟨value, hget⟩
    exact ⟨(key, value), mem_entries_iff.2 hget, rfl⟩

omit [Std.TransOrd κ] in
theorem nodup_keys (m : OrderedMap κ ν) : m.keys.Nodup :=
  List.pairwise_map.2 m.distinct_entries

omit [Std.TransOrd κ] in
theorem mem_values_iff {m : OrderedMap κ ν} {value : ν} :
    value ∈ m.values ↔ ∃ key, m.get? key = some value := by
  rw [values, List.mem_map]
  constructor
  · rintro ⟨⟨key, _⟩, hmem, rfl⟩
    exact ⟨key, mem_entries_iff.1 hmem⟩
  · rintro ⟨key, hget⟩
    exact ⟨(key, value), mem_entries_iff.2 hget, rfl⟩

/-- Maps with the same lookups are equal. -/
theorem ext_get? {m n : OrderedMap κ ν} (h : ∀ key, m.get? key = n.get? key) : m = n := by
  have members : ∀ entry, entry ∈ m.entries ↔ entry ∈ n.entries := fun (key, value) => by
    rw [mem_entries_iff, mem_entries_iff, h]
  obtain ⟨l, hl⟩ := m
  obtain ⟨r, hr⟩ := n
  congr 1
  simp only at members
  clear h
  -- Two ascending lists with the same members have the same first member, and so on.
  induction l generalizing r with
  | nil =>
    cases r with
    | nil => rfl
    | cons head rest => simpa using members head
  | cons a as ih =>
    cases r with
    | nil => simpa using members a
    | cons b bs =>
      obtain ⟨leastA, tailA⟩ := List.pairwise_cons.1 hl
      obtain ⟨leastB, tailB⟩ := List.pairwise_cons.1 hr
      have same : a = b := by
        rcases List.mem_cons.1 ((members a).1 List.mem_cons_self) with h | inB
        · exact h
        rcases List.mem_cons.1 ((members b).2 List.mem_cons_self) with h | inA
        · exact h.symm
        · have := Std.TransCmp.lt_trans (leastA b inA) (leastB a inB)
          simp at this
      subst same
      congr 1
      refine ih tailA bs tailB fun entry => ?_
      have notA : entry ∈ as → entry ≠ a := fun mem h => by
        subst h; simpa using leastA entry mem
      have notB : entry ∈ bs → entry ≠ a := fun mem h => by
        subst h; simpa using leastB entry mem
      have := members entry
      simp only [List.mem_cons] at this
      grind

/-! ### Several entries at once -/

omit [Std.TransOrd κ] [Std.LawfulEqOrd κ] in
theorem find?_append (key : κ) (l r : List (κ × ν)) :
    find? key (l ++ r) = (find? key l).or (find? key r) := by
  induction l with
  | nil => rfl
  | cons head rest ih =>
    obtain ⟨k, v⟩ := head
    by_cases same : compare k key = .eq <;> simp [find?, same, ih]

/-- Of the entries that are put into a map, the last one for a key counts. -/
theorem get?_insertAll (m : OrderedMap κ ν) (entries : List (κ × ν)) (key : κ) :
    (m.insertAll entries).get? key = (find? key entries.reverse).or (m.get? key) := by
  induction entries generalizing m with
  | nil => rfl
  | cons head rest ih =>
    obtain ⟨k, v⟩ := head
    have step : m.insertAll ((k, v) :: rest) = (m.insert k v).insertAll rest := rfl
    have inserted : (m.insert k v).get? key = (find? key [(k, v)]).or (m.get? key) := by
      simp only [get?, insert, find?_insertEntry, find?]
      split <;> rfl
    rw [step, ih, List.reverse_cons, find?_append, inserted, Option.or_assoc]

/-- Putting all of a map into another lets the values of the former win. -/
theorem get?_insertAll_entries (m n : OrderedMap κ ν) (key : κ) :
    (m.insertAll n.entries).get? key = (n.get? key).or (m.get? key) := by
  have distinct := List.pairwise_reverse.2 (n.distinct_entries.imp Ne.symm)
  have same : find? key n.entries.reverse = n.get? key := by
    refine Option.ext fun value => ?_
    rw [find?_eq_some_iff distinct, List.mem_reverse, mem_entries_iff]
  rw [get?_insertAll, same]

/-- A map is the map of its entries. -/
theorem ofList_entries (m : OrderedMap κ ν) : ofList m.entries = m := by
  refine ext_get? fun key => ?_
  rw [ofList, get?_insertAll_entries]
  exact Option.or_none

end OrderedMap

end UtxoWallet
