/-! # Cells written in place

The storages of buffers and windows are arrays of fixed size, overwritten a run of cells at a time.
`Cells.overwrite` lays a list over the cells from a start on and leaves all others alone, as
`Cells.getElem?_overwrite` says cell by cell; what would lie past the end is dropped. -/

namespace BitTransducer
namespace Cells

variable {α : Type}

/-- Lays `values` over the cells from `start` on. -/
def overwrite (cells : Array α) (start : Nat) : List α → Array α
  | [] => cells
  | value :: values => overwrite (cells.setIfInBounds start value) (start + 1) values

/-- Sets the first `count` cells to `value`. -/
def fillFirst (cells : Array α) (count : Nat) (value : α) : Array α :=
  overwrite cells 0 (List.replicate count value)

@[simp] theorem size_overwrite (cells : Array α) (start : Nat) (values : List α) :
    (overwrite cells start values).size = cells.size := by
  induction values generalizing cells start with
  | nil => rfl
  | cons value values ih => simp [overwrite, ih]

/-- A cell holds its new value if one was laid over it, and its old value otherwise. -/
theorem getElem?_overwrite (cells : Array α) (start : Nat) (values : List α) (i : Nat) :
    (overwrite cells start values)[i]? =
      if start ≤ i ∧ i < start + values.length ∧ i < cells.size then values[i - start]?
      else cells[i]? := by
  induction values generalizing cells start with
  | nil => simp [overwrite]; omega
  | cons value values ih =>
    rw [overwrite, ih]
    simp only [Array.size_setIfInBounds, List.length_cons]
    by_cases h : start = i
    · subst h
      grind
    · rw [Array.getElem?_setIfInBounds_ne h]
      by_cases hs : start ≤ i
      · have e : i - start = i - (start + 1) + 1 := by omega
        rw [e, List.getElem?_cons_succ]
        split <;> rename_i hc <;> split <;> grind
      · grind

@[simp] theorem size_fillFirst (cells : Array α) (count : Nat) (value : α) :
    (fillFirst cells count value).size = cells.size := by simp [fillFirst]

end Cells
end BitTransducer
