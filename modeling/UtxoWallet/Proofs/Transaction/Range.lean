import UtxoWallet.Proofs.Transaction.Accounts

/-! # When imbalances fit

Imbalances are summed up item by item, and no sum may leave the range of a delta. Inputs only add to
the sum of their token, and outputs only take from it. So each sum on the way lies between where it
starts and where it ends, and it is the totals alone that have to fit, in whatever order the items
come. A delta is at least `-Delta.bound` and below `Delta.bound`, the 127th power of two, and an amount
is below `Amount.size`, the 128th.

* `Imbalances.exists_adjustAll_iff`: a run of adjustments of one sign has a result iff every value is
  a delta and every total is.
* `Transaction.exists_imbalances_iff`, `Transaction.exists_imbalancesAfterFees_iff`: so the imbalances
  exist iff the totals of the transaction, and its fee, fit.
* `Transaction.imbalances_exact`: together with what they are then.
-/

namespace UtxoWallet

/-! ## Amounts and deltas that fit -/

/-- Does the integer fit a delta? -/
def Delta.Fits (n : Int) : Prop :=
  -Delta.bound ≤ n ∧ n < Delta.bound

theorem Delta.exists_ofInt?_iff {n : Int} : (∃ d, Delta.ofInt? n = some d) ↔ Delta.Fits n := by
  rw [Delta.ofInt?, Delta.Fits]
  split
  · next fits => exact ⟨fun _ => fits, fun _ => ⟨_, rfl⟩⟩
  · next big =>
      constructor
      · rintro ⟨d, h⟩
        cases h
      · exact fun fits => absurd fits big

theorem Delta.fits (d : Delta) : Delta.Fits d.toInt :=
  ⟨d.lower, d.upper⟩

/-- A natural number is never too small. -/
theorem Delta.fits_natCast_iff {n : Nat} : Delta.Fits n ↔ n < Delta.bound := by
  rw [Delta.Fits, Delta.bound]
  omega

theorem Amount.exists_ofNat?_iff {n : Nat} : (∃ a, Amount.ofNat? n = some a) ↔ n < Amount.size := by
  rw [Amount.ofNat?]
  split
  · next fits => exact ⟨fun _ => fits, fun _ => ⟨_, rfl⟩⟩
  · next big =>
      constructor
      · rintro ⟨a, h⟩
        cases h
      · exact fun fits => absurd fits big

/-! ## Computations that overflow at worst -/

variable {α β : Type}

/-- Is an overflow all that can go wrong? -/
def OnlyOverflows (x : Except BalanceError α) : Prop :=
  ∀ error, x = .error error → ∃ calculation, error = .overflow calculation

namespace OnlyOverflows

theorem ok (a : α) : OnlyOverflows (.ok a) := nofun

theorem checked (calculation : Calculation) (x : Option α) :
    OnlyOverflows (UtxoWallet.checked calculation x) := by
  intro error h
  cases x with
  | none =>
      cases h
      exact ⟨calculation, rfl⟩
  | some a => cases h

/-- If overflow is all that can go wrong in each of two steps, so it is in both together. -/
theorem bind {x : Except BalanceError α} {f : α → Except BalanceError β} (hx : OnlyOverflows x)
    (hf : ∀ a, OnlyOverflows (f a)) : OnlyOverflows (x >>= f) := by
  intro error h
  rcases bind_eq_error.mp h with h | ⟨a, -, h⟩
  · exact hx error h
  · exact hf a error h

theorem foldlM {f : β → α → Except BalanceError β} (hf : ∀ b a, OnlyOverflows (f b a)) (l : List α)
    (b : β) : OnlyOverflows (l.foldlM f b) := by
  induction l generalizing b with
  | nil => exact .ok b
  | cons a l ih =>
      rw [List.foldlM_cons]
      exact (hf b a).bind ih

end OnlyOverflows

/-! ## Fees -/

/-- Fees can be added up if both products and their sum are in range. -/
theorem Fees.exists_total_iff {fees : Fees} {inputs outputs : Nat} :
    (∃ fee, fees.total inputs outputs = .ok fee) ↔
      fees.input.toNat * inputs < Amount.size ∧ fees.output.toNat * outputs < Amount.size ∧
        fees.input.toNat * inputs + fees.output.toNat * outputs < Amount.size := by
  simp only [Fees.total, exists_bind_iff, Amount.add?, Amount.exists_ofNat?_iff,
    checked_eq_ok, Amount.times?_eq_some]
  constructor
  · rintro ⟨forInputs, hin, forOutputs, hout, hsum⟩
    rw [hin, hout]
    exact ⟨forInputs.isLt, forOutputs.isLt, hsum⟩
  · rintro ⟨hin, hout, hsum⟩
    exact ⟨⟨_, hin⟩, rfl, ⟨_, hout⟩, rfl, hsum⟩

theorem Fees.total_onlyOverflows (fees : Fees) (inputs outputs : Nat) :
    OnlyOverflows (fees.total inputs outputs) :=
  (OnlyOverflows.checked _ _).bind fun _ =>
    (OnlyOverflows.checked _ _).bind fun _ => .checked _ _

/-! ## One adjustment -/

namespace Imbalances

variable {change : Int → Int → Int} {imbalances next : Imbalances}

/-- An adjustment goes through if the value and the sum after it are in range. -/
theorem exists_adjust_iff {token : TokenType} {value : Amount} :
    (∃ next, imbalances.adjust change token value = .ok next) ↔
      value.toNat < Delta.bound ∧ Delta.Fits (change (imbalances.of token).toInt value.toNat) := by
  simp only [adjust, exists_bind_iff, checked_eq_ok]
  constructor
  · rintro ⟨delta, hdelta, sum, hsum, -⟩
    have hvalue := Delta.exists_ofInt?_iff.mp ⟨delta, hdelta⟩
    rw [Delta.ofInt?_eq_some hdelta] at hsum
    exact ⟨Delta.fits_natCast_iff.mp hvalue, Delta.exists_ofInt?_iff.mp ⟨sum, hsum⟩⟩
  · rintro ⟨hvalue, hsum⟩
    obtain ⟨delta, hdelta⟩ := Delta.exists_ofInt?_iff.mpr (Delta.fits_natCast_iff.mpr hvalue)
    rw [← Delta.ofInt?_eq_some hdelta] at hsum
    obtain ⟨sum, hsum⟩ := Delta.exists_ofInt?_iff.mpr hsum
    exact ⟨delta, hdelta, sum, hsum, _, rfl⟩

theorem adjust_contains_iff {token other : TokenType} {value : Amount}
    (h : imbalances.adjust change token value = .ok next) :
    OrderedMap.contains next other ↔ token = other ∨ OrderedMap.contains imbalances other := by
  obtain ⟨sum, rfl, -⟩ := adjust_eq_insert h
  rw [OrderedMap.contains, OrderedMap.get?_insert]
  by_cases same : token = other
  · simp [same]
  · simp [same, OrderedMap.contains]

theorem adjust_onlyOverflows (token : TokenType) (value : Amount) :
    OnlyOverflows (imbalances.adjust change token value) :=
  (OnlyOverflows.checked _ _).bind fun _ => (OnlyOverflows.checked _ _).bind fun _ => .ok _

/-! ## Adjustments of one sign -/

/-- **Only the totals have to fit.** What is added goes up all the way, and what is taken goes down,
so no sum in between leaves the range if the last one is in it. -/
theorem exists_adjustAll_iff {sign : Int} (hsign : sign = 1 ∨ sign = -1)
    (hchange : ∀ sum value, change sum value = sum + sign * value) (outputs : List Output)
    (imbalances : Imbalances) :
    (∃ next, outputs.foldlM (fun sums output => sums.adjust change output.token output.value)
      imbalances = .ok next) ↔
      (∀ output ∈ outputs, output.value.toNat < Delta.bound) ∧
        ∀ token, Delta.Fits ((imbalances.of token).toInt + sign * worth token outputs) := by
  induction outputs generalizing imbalances with
  | nil =>
      refine ⟨fun _ => ⟨nofun, fun token => ?_⟩, fun _ => ⟨imbalances, rfl⟩⟩
      rw [worth_nil, Int.natCast_zero, Int.mul_zero, Int.add_zero]
      exact (imbalances.of token).fits
  | cons output outputs ih =>
      rw [List.forall_mem_cons, List.foldlM_cons, exists_bind_iff]
      constructor
      · rintro ⟨more, hmore, hrest⟩
        obtain ⟨hvalues, hfits⟩ := (ih more).mp hrest
        simp only [adjust_total hchange hmore] at hfits
        exact ⟨⟨(exists_adjust_iff.mp ⟨more, hmore⟩).1, hvalues⟩, hfits⟩
      · rintro ⟨⟨hvalue, hvalues⟩, hfits⟩
        -- The sum after the first output lies between the start and the total, and both fit.
        have hfirst : Delta.Fits (change (imbalances.of output.token).toInt output.value.toNat) := by
          have hstart := (imbalances.of output.token).fits
          have hend := hfits output.token
          have hown : Spendable.token output = output.token := rfl
          have hworth : Spendable.value output = output.value := rfl
          rw [worth_cons, if_pos hown, hworth] at hend
          rw [hchange]
          unfold Delta.Fits at hstart hend ⊢
          rcases hsign with rfl | rfl <;> omega
        obtain ⟨more, hmore⟩ := exists_adjust_iff.mpr ⟨hvalue, hfirst⟩
        refine ⟨more, hmore, (ih more).mpr ⟨hvalues, ?_⟩⟩
        simp only [adjust_total hchange hmore]
        exact hfits

/-- A token is listed as soon as it occurs, even if its sum comes to nothing. -/
theorem adjustAll_contains_iff {outputs : List Output} {token : TokenType}
    (h : outputs.foldlM (fun sums output => sums.adjust change output.token output.value)
      imbalances = .ok next) :
    OrderedMap.contains next token ↔
      token ∈ outputs.map (·.token) ∨ OrderedMap.contains imbalances token := by
  induction outputs generalizing imbalances with
  | nil =>
      cases h
      simp
  | cons output outputs ih =>
      obtain ⟨more, hmore, h⟩ := foldlM_cons_eq_ok.mp h
      rw [ih h, adjust_contains_iff hmore, List.map_cons, List.mem_cons, eq_comm (a := token)]
      exact or_left_comm.trans or_assoc.symm

/-- Outputs can be gained in a row if each value and the totals are in range, for the sums on the way
only rise. -/
theorem exists_gainAll_iff {outputs : List Output} :
    (∃ next, outputs.foldlM gain imbalances = .ok next) ↔
      (∀ output ∈ outputs, output.value.toNat < Delta.bound) ∧
        ∀ token, Delta.Fits ((imbalances.of token).toInt + worth token outputs) := by
  have hgain : ∀ sum value : Int, sum + value = sum + 1 * value := by
    intro sum value
    rw [Int.one_mul]
  have h := exists_adjustAll_iff (.inl rfl) hgain outputs imbalances
  simp only [Int.one_mul] at h
  exact h

theorem exists_loseAll_iff {outputs : List Output} :
    (∃ next, outputs.foldlM lose imbalances = .ok next) ↔
      (∀ output ∈ outputs, output.value.toNat < Delta.bound) ∧
        ∀ token, Delta.Fits ((imbalances.of token).toInt - worth token outputs) := by
  have hlose : ∀ sum value : Int, sum - value = sum + -1 * value := by
    intro sum value
    omega
  have h := exists_adjustAll_iff (.inr rfl) hlose outputs imbalances
  simp only [← hlose] at h
  exact h

theorem adjustAll_onlyOverflows (outputs : List Output) (imbalances : Imbalances) :
    OnlyOverflows (outputs.foldlM
      (fun sums output => sums.adjust change output.token output.value) imbalances) :=
  .foldlM (fun _ _ => adjust_onlyOverflows _ _) outputs imbalances

end Imbalances

/-! ## Transactions -/

namespace Transaction

/-- The tokens of the inputs and outputs. -/
def tokens (tx : Transaction) : List TokenType :=
  tx.inputs.map (·.token) ++ tx.outputs.map (·.token)

/-- The fee of the inputs and outputs. -/
def feeOf (tx : Transaction) (fees : Fees) : Nat :=
  fees.input.toNat * tx.inputs.length + fees.output.toNat * tx.outputs.length

/-- Do the values and the totals of a transaction fit a delta? -/
structure InRange (tx : Transaction) : Prop where
  input : ∀ input ∈ tx.inputs, input.value.toNat < Delta.bound
  output : ∀ output ∈ tx.outputs, output.value.toNat < Delta.bound
  spent : ∀ token, tx.worthIn token < Delta.bound
  rest : ∀ token, -Delta.bound ≤ tx.worthIn token - tx.worthOut token

/-- Does the fee of a transaction fit, and what is left when it is paid? -/
structure FeeInRange (tx : Transaction) (fees : Fees) (native : TokenType) : Prop where
  inputs : fees.input.toNat * tx.inputs.length < Amount.size
  outputs : fees.output.toNat * tx.outputs.length < Amount.size
  total : tx.feeOf fees < Amount.size
  signed : tx.feeOf fees < Delta.bound
  rest : -Delta.bound ≤ tx.worthIn native - tx.worthOut native - tx.feeOf fees

variable {tx : Transaction} {fees : Fees} {native : TokenType} {imbalances : Imbalances}

/-- The imbalances can be told if the transaction is in range. -/
theorem exists_imbalances_iff : (∃ imbalances, tx.imbalances = .ok imbalances) ↔ tx.InRange := by
  have hspent : ∀ spent, (tx.inputs.map (·.toOutput)).foldlM Imbalances.gain OrderedMap.empty =
      .ok spent → ∀ token, (Imbalances.of spent token).toInt = tx.worthIn token := by
    intro spent h token
    rw [Imbalances.gainAll_eq_ok h, worth_inputs]
    exact Int.zero_add _
  have hnone : ∀ token, (Imbalances.of OrderedMap.empty token).toInt = 0 := fun _ => rfl
  -- Gaining comes first, so the sums on the way are those of the inputs alone.
  rw [imbalances, exists_bind_iff]
  constructor
  · rintro ⟨spent, hgain, hlose⟩
    obtain ⟨hinput, hin⟩ := Imbalances.exists_gainAll_iff.mp ⟨spent, hgain⟩
    obtain ⟨houtput, hrest⟩ := Imbalances.exists_loseAll_iff.mp hlose
    simp only [hnone, worth_inputs, Int.zero_add] at hin
    simp only [hspent spent hgain] at hrest
    refine ⟨fun input hmem => ?_, houtput, fun token => ?_, fun token => (hrest token).1⟩
    · exact hinput input.toOutput (List.mem_map_of_mem hmem)
    · exact (hin token).2
  · rintro ⟨hinput, houtput, hin, hrest⟩
    have hgain : ∃ spent, (tx.inputs.map (·.toOutput)).foldlM Imbalances.gain OrderedMap.empty =
        .ok spent := by
      refine Imbalances.exists_gainAll_iff.mpr ⟨List.forall_mem_map.mpr hinput, fun token => ?_⟩
      rw [hnone, worth_inputs, Int.zero_add]
      exact Delta.fits_natCast_iff.mpr (hin token)
    obtain ⟨spent, hgain⟩ := hgain
    refine ⟨spent, hgain, Imbalances.exists_loseAll_iff.mpr ⟨houtput, fun token => ?_⟩⟩
    rw [hspent spent hgain]
    -- Only the lower bound asks for anything: a rest is at most what came in.
    have hless := hin token
    refine ⟨hrest token, ?_⟩
    have hout : worth token tx.outputs = tx.worthOut token := rfl
    omega

theorem get?_imbalances (h : tx.imbalances = .ok imbalances) (token : TokenType) :
    (imbalances.get? token).map Delta.toInt =
      if token ∈ tx.tokens then some (tx.worthIn token - tx.worthOut token : Int) else none := by
  have hof := imbalances_eq_ok h token
  obtain ⟨spent, hgain, hlose⟩ := bind_eq_ok.mp h
  have hcontains : OrderedMap.contains imbalances token ↔ token ∈ tx.tokens := by
    rw [Imbalances.adjustAll_contains_iff hlose, Imbalances.adjustAll_contains_iff hgain, tokens,
      List.mem_append, List.map_map, or_comm]
    exact or_congr_left (or_iff_left Bool.false_ne_true)
  rw [OrderedMap.contains, Option.isSome_iff_exists] at hcontains
  split
  · next hmem =>
      obtain ⟨delta, hdelta⟩ := hcontains.mpr hmem
      rw [Imbalances.of, hdelta] at hof
      rw [hdelta]
      exact congrArg some hof
  · next hmem =>
      cases hget : OrderedMap.get? imbalances token with
      | none => rfl
      | some delta => exact absurd (hcontains.mp ⟨delta, hget⟩) hmem

/-- The fee is taken from the native entry, which is zero if there is none. -/
theorem imbalancesAfterFees_eq_insert (h : tx.imbalancesAfterFees fees native = .ok imbalances) :
    ∃ before left, tx.imbalances = .ok before ∧ imbalances = OrderedMap.insert before native left ∧
      left.toInt = (Imbalances.of before native).toInt - tx.feeOf fees := by
  obtain ⟨before, hbefore, h⟩ := bind_eq_ok.mp h
  obtain ⟨fee, hfee, h⟩ := bind_eq_ok.mp h
  obtain ⟨left, hinsert, hleft⟩ := Imbalances.adjust_eq_insert h
  rw [Fees.total_eq_ok hfee] at hleft
  exact ⟨before, left, hbefore, hinsert, hleft⟩

/-- So can those after fees, if the fee is in range too. -/
theorem exists_imbalancesAfterFees_iff :
    (∃ imbalances, tx.imbalancesAfterFees fees native = .ok imbalances) ↔
      tx.InRange ∧ tx.FeeInRange fees native := by
  rw [← exists_imbalances_iff, imbalancesAfterFees, exists_bind_iff]
  constructor
  · rintro ⟨before, hbefore, h⟩
    obtain ⟨fee, hfee, hleft⟩ := exists_bind_iff.mp h
    obtain ⟨hin, hout, htotal⟩ := Fees.exists_total_iff.mp ⟨fee, hfee⟩
    obtain ⟨hsigned, hrest⟩ := Imbalances.exists_adjust_iff.mp hleft
    rw [imbalances_eq_ok hbefore, Fees.total_eq_ok hfee] at hrest
    rw [Fees.total_eq_ok hfee] at hsigned
    exact ⟨⟨before, hbefore⟩, hin, hout, htotal, hsigned, hrest.1⟩
  · rintro ⟨⟨before, hbefore⟩, hin, hout, htotal, hsigned, hrest⟩
    obtain ⟨fee, hfee⟩ := Fees.exists_total_iff.mpr ⟨hin, hout, htotal⟩
    have hown := imbalances_eq_ok hbefore native
    have hless := (Imbalances.of before native).fits.2
    refine ⟨before, hbefore, exists_bind_iff.mpr ⟨fee, hfee, Imbalances.exists_adjust_iff.mpr ?_⟩⟩
    rw [Fees.total_eq_ok hfee, hown]
    rw [hown] at hless
    refine ⟨hsigned, hrest, ?_⟩
    omega

theorem imbalances_onlyOverflows (tx : Transaction) : OnlyOverflows tx.imbalances :=
  (Imbalances.adjustAll_onlyOverflows _ _).bind fun _ => Imbalances.adjustAll_onlyOverflows _ _

theorem imbalancesAfterFees_onlyOverflows (tx : Transaction) (fees : Fees) (native : TokenType) :
    OnlyOverflows (tx.imbalancesAfterFees fees native) :=
  tx.imbalances_onlyOverflows.bind fun _ =>
    (fees.total_onlyOverflows _ _).bind fun _ => Imbalances.adjust_onlyOverflows _ _

/-- **Imbalances are exact up to their limits.** They exist iff the values and the totals of the
transaction are in range, and then each token of an input or output, and no other, has the difference
of its totals. They exist after fees iff the fee is in range besides, and then it has been taken from
the native entry, which is made if there is none. Anything else is an overflow. -/
theorem imbalances_exact (tx : Transaction) (fees : Fees) (native : TokenType) :
    ((∃ imbalances, tx.imbalances = .ok imbalances) ↔ tx.InRange) ∧
      (∀ imbalances, tx.imbalances = .ok imbalances → ∀ token,
        (imbalances.get? token).map Delta.toInt =
          if token ∈ tx.tokens then some (tx.worthIn token - tx.worthOut token : Int) else none) ∧
      ((∃ imbalances, tx.imbalancesAfterFees fees native = .ok imbalances) ↔
        tx.InRange ∧ tx.FeeInRange fees native) ∧
      (∀ imbalances, tx.imbalancesAfterFees fees native = .ok imbalances →
        ∃ before left, tx.imbalances = .ok before ∧
          imbalances = OrderedMap.insert before native left ∧
          left.toInt = (Imbalances.of before native).toInt - tx.feeOf fees) ∧
      OnlyOverflows tx.imbalances ∧ OnlyOverflows (tx.imbalancesAfterFees fees native) :=
  ⟨exists_imbalances_iff, fun _ => get?_imbalances, exists_imbalancesAfterFees_iff,
    fun _ => imbalancesAfterFees_eq_insert, tx.imbalances_onlyOverflows,
    tx.imbalancesAfterFees_onlyOverflows fees native⟩

/-- A transaction whose native imbalance is the least that there is. A fee for its input, be it of
one, makes it overflow; a fee of nothing does not. -/
theorem imbalances_exact_of_least :
    let one : Amount := ⟨1, by decide⟩
    let most : Amount := ⟨Delta.bound.toNat - 1, by decide⟩
    let native : TokenType := ⟨[]⟩
    let tx := Transaction.ofIntent "net" ⟨0, some ⟨[⟨⟨most, "pk", native⟩, ⟨⟨[0x11]⟩, 0⟩⟩],
      [⟨most, "bob", native⟩, ⟨most, "bob", native⟩, ⟨one, "bob", native⟩]⟩, .zero⟩
    tx.InRange ∧ (∃ imbalances, tx.imbalances = .ok imbalances ∧
      (imbalances.get? native).map Delta.toInt = some (-Delta.bound)) ∧
      tx.FeeInRange .free native ∧ ¬ tx.FeeInRange ⟨one, .zero⟩ native ∧
      ∃ calculation,
        tx.imbalancesAfterFees ⟨one, .zero⟩ native = .error (.overflow calculation) := by
  intro one most native tx
  obtain ⟨hrange, hget, hfree, -⟩ := imbalances_exact tx .free native
  obtain ⟨-, -, hfees, -, -, honly⟩ := imbalances_exact tx ⟨one, .zero⟩ native
  have hok : (tx.imbalancesAfterFees .free native).isOk := by decide +kernel
  have hfails : ¬ (tx.imbalancesAfterFees ⟨one, .zero⟩ native).isOk := by decide +kernel
  have hworth : native ∈ tx.tokens ∧ (tx.worthIn native - tx.worthOut native : Int) = -Delta.bound := by
    decide +kernel
  rcases hafter : tx.imbalancesAfterFees .free native with error | after
  · rw [hafter] at hok
    cases hok
  obtain ⟨inRange, feeInRange⟩ := hfree.mp ⟨after, hafter⟩
  obtain ⟨imbalances, himbalances⟩ := hrange.mpr inRange
  refine ⟨inRange, ⟨imbalances, himbalances, ?_⟩, feeInRange, fun fits => ?_, ?_⟩
  · rw [hget imbalances himbalances, if_pos hworth.1, hworth.2]
  · obtain ⟨after, hafter⟩ := hfees.mpr ⟨inRange, fits⟩
    rw [hafter] at hfails
    exact hfails rfl
  · rcases hafter : tx.imbalancesAfterFees ⟨one, .zero⟩ native with error | after
    · obtain ⟨calculation, rfl⟩ := honly error hafter
      exact ⟨calculation, rfl⟩
    · rw [hafter] at hfails
      exact absurd rfl hfails

end Transaction

end UtxoWallet
