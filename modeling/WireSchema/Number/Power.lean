/-!
# Powers of two and of ten

The two powers that number formats are made of, as functions of their own.  A power of
two is a shift, which stays cheap for large exponents.
-/

namespace WireSchema

/-- Two to the power `k`. -/
def twoPow (k : Nat) : Nat :=
  1 <<< k

/-- Ten to the power `k`. -/
def tenPow (k : Nat) : Nat :=
  Nat.pow 10 k

@[simp]
theorem twoPow_zero : twoPow 0 = 1 := rfl

theorem twoPow_succ (k : Nat) : twoPow (k + 1) = 2 * twoPow k := by
  simp [twoPow, Nat.shiftLeft_succ]

@[simp]
theorem tenPow_zero : tenPow 0 = 1 := rfl

theorem tenPow_succ (k : Nat) : tenPow (k + 1) = tenPow k * 10 := rfl

end WireSchema
