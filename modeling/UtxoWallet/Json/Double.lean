/-!
# Sizes in double precision

A size `mantissa · 10 ^ exponent` is read as a double in plain steps: of the digits of the mantissa
as many count as 64 bits hold, these digits and the power of ten are rounded, and so is their
product. Close to the largest double the product may overflow where the exact size would not.
-/

namespace UtxoWallet.Json.Double

/-- The nearest number of 53 significant bits, the even one of two that are equally near. -/
def round (n : Nat) : Nat :=
  let unit := Nat.pow 2 (n.log2 - 52)
  let rest := 2 * (n % unit)
  if rest < unit ∨ (rest = unit ∧ n / unit % 2 = 0) then n / unit * unit
  else (n / unit + 1) * unit

/-- The least size that rounds to no finite double: half a step above the largest double. -/
def overflowBound : Nat :=
  (Nat.pow 2 54 - 1) * Nat.pow 2 970

/-- The first digits of a number, as many as 64 bits hold, and how many digits follow them. -/
def leading (n : Nat) : Nat × Nat :=
  if n < UInt64.size then (n, 0)
  else
    let (first, dropped) := leading (n / 10)
    (first, dropped + 1)
termination_by n
decreasing_by simp_all [UInt64.size]; omega

/-- Does the size `mantissa · 10 ^ exponent` read as a finite double? -/
def isFinite (mantissa : Nat) (exponent : Int) : Bool :=
  let (first, dropped) := leading mantissa
  match exponent + dropped with
  | .negSucc _ => true
  | .ofNat power =>
    -- A larger power than this one is no finite double itself.
    first = 0 || (power ≤ 308 && round first * round (Nat.pow 10 power) < overflowBound)

/-! ### What is always finite -/

theorem leading_of_lt {n : Nat} (h : n < UInt64.size) : leading n = (n, 0) := by
  rw [leading, if_pos h]

theorem round_le (n : Nat) : round n ≤ 2 * n := by
  have whole : n / Nat.pow 2 (n.log2 - 52) * Nat.pow 2 (n.log2 - 52) ≤ n := Nat.div_mul_le_self ..
  rcases Nat.eq_zero_or_pos n with rfl | positive
  · decide
  have small : Nat.pow 2 (n.log2 - 52) ≤ n :=
    Nat.le_trans (Nat.pow_le_pow_right (by decide) (Nat.sub_le ..))
      (Nat.log2_self_le (Nat.ne_of_gt positive))
  simp only [round]
  split
  · omega
  · rw [Nat.add_mul, Nat.one_mul]
    omega

/-- Whole numbers of 64 bits are finite. -/
theorem isFinite_of_lt {n : Nat} (h : n < UInt64.size) : isFinite n 0 := by
  have bound := round_le n
  have one : round (Nat.pow 10 0) = 1 := by decide
  have wide : Nat.pow 2 65 < overflowBound := by
    have powers : ∀ n, 65 < n → Nat.pow 2 65 < (Nat.pow 2 54 - 1) * Nat.pow 2 n := fun _ h =>
      Nat.lt_of_lt_of_le (Nat.pow_lt_pow_right (by decide) h)
        (Nat.le_mul_of_pos_left _ (by decide))
    rw [overflowBound]
    exact powers 970 (by decide)
  have product : round n * round (Nat.pow 10 0) < overflowBound := by
    rw [one, Nat.mul_one]
    have : 2 * UInt64.size = Nat.pow 2 65 := rfl
    omega
  simp only [isFinite, leading_of_lt h]
  exact Bool.or_eq_true_iff.2 (.inr (Bool.and_eq_true_iff.2 ⟨rfl, decide_eq_true product⟩))

end UtxoWallet.Json.Double
