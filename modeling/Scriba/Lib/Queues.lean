import Mathlib.Data.List.Basic
import Mathlib.Logic.Function.Basic

/-! # Families of queues

Where the elements come from, after one queue, or all but one, got an element at its end, or an
element was taken out. -/

namespace Scriba.Lib.Queues

variable {ι α : Type} [DecidableEq ι] {q : ι → List α} {i j : ι} {a b : List α} {x y : α}

theorem mem_push :
    y ∈ Function.update q i (q i ++ [x]) j ↔ y ∈ q j ∨ j = i ∧ y = x := by
  by_cases hj : j = i
  · subst hj
    simp
  · simp [hj]

theorem mem_pushOthers :
    y ∈ (if j = i then q j else q j ++ [x]) ↔ y ∈ q j ∨ j ≠ i ∧ y = x := by
  by_cases hj : j = i <;> simp [hj]

/-- What is left was there before. -/
theorem mem_of_take (hq : q i = a ++ x :: b) (hy : y ∈ Function.update q i (a ++ b) j) :
    y ∈ q j := by
  by_cases hj : j = i
  · subst hj
    rw [hq]
    rcases List.mem_append.mp (show y ∈ a ++ b by simpa using hy) with hy | hy <;> simp [hy]
  · simpa [hj] using hy

theorem mem_of_pop (hq : q i = x :: b) (hy : y ∈ Function.update q i b j) : y ∈ q j :=
  mem_of_take (a := []) hq hy

end Scriba.Lib.Queues
