/-!
# What a search has not seen

A search over a finite domain ends because every step forward shrinks the part of
the domain that it has not seen.  `remaining domain seen` is that part, and
`length_remaining_lt` the step.
-/

namespace WireSchema

/-- The members of `domain` that are not in `seen`. -/
def remaining {α : Type} [DecidableEq α] (domain seen : List α) : List α :=
  domain.filter fun x => x ∉ seen

/-- Seeing one more member of the domain leaves less. -/
theorem length_remaining_lt {α : Type} [DecidableEq α] {domain seen more : List α} {x : α}
    (hx : x ∈ domain) (hNew : x ∉ seen) (hMore : ∀ y, y ∈ more ↔ y ∈ seen ∨ y = x) :
    (remaining domain more).length < (remaining domain seen).length := by
  unfold remaining
  have hSub : domain.filter (fun y => y ∉ more) =
      (domain.filter fun y => y ∉ seen).filter fun y => y ≠ x := by
    rw [List.filter_filter]
    congr 1
    funext y
    by_cases hs : y ∈ seen <;> by_cases hy : y = x <;> simp [hMore, hs, hy]
  rw [hSub]
  have hMem : x ∈ domain.filter fun y => y ∉ seen := by simp [hx, hNew]
  refine Nat.lt_of_le_of_ne (List.length_filter_le _ _) fun hEq => ?_
  have hAll := List.length_filter_eq_length_iff.1 hEq x hMem
  simp at hAll

end WireSchema
