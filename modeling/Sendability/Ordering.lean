/-
  Sorting and removal of repetitions on lists.

  `sortBy` is a stable insertion sort, `distinct` keeps the first of equal
  elements in the order of first appearance. Both recurse on the list, so
  that closed instances evaluate by reduction.
-/
import Sendability.Text.Basic

namespace Sendability

universe u

variable {α : Type u}

/-- Puts `a` before the first element it does not exceed. -/
def insertBy (le : α → α → Bool) (a : α) : List α → List α
  | [] => [a]
  | b :: bs => if le a b then a :: b :: bs else b :: insertBy le a bs

/-- The elements in ascending order; equal ones keep their order. -/
def sortBy (le : α → α → Bool) : List α → List α
  | [] => []
  | a :: as => insertBy le a (sortBy le as)

/-- The elements in the order of first appearance, each once. -/
def distinct [DecidableEq α] : List α → List α
  | [] => []
  | a :: as => a :: (distinct as).filter (· ≠ a)

/-- Sorting a list of texts by code point. -/
def sortText (l : List Text) : List Text := sortBy (fun a b => decide (a ≤ b)) l

/-! ## Elements are neither lost nor invented -/

@[simp] theorem mem_insertBy (le : α → α → Bool) (a x : α) (l : List α) :
    x ∈ insertBy le a l ↔ x = a ∨ x ∈ l := by
  induction l with
  | nil => simp [insertBy]
  | cons b bs ih =>
    by_cases h : le a b
    · simp [insertBy, h]
    · simp only [insertBy, h, Bool.false_eq_true, if_false, List.mem_cons, ih]
      exact ⟨fun h => by rcases h with h | h | h <;> simp [h],
        fun h => by rcases h with h | h | h <;> simp [h]⟩

@[simp] theorem mem_sortBy (le : α → α → Bool) (x : α) (l : List α) :
    x ∈ sortBy le l ↔ x ∈ l := by
  induction l with
  | nil => simp [sortBy]
  | cons a as ih => simp [sortBy, ih]

@[simp] theorem mem_distinct [DecidableEq α] (x : α) (l : List α) :
    x ∈ distinct l ↔ x ∈ l := by
  induction l with
  | nil => simp [distinct]
  | cons a as ih =>
    by_cases h : x = a
    · simp [distinct, h]
    · simp [distinct, ih, h]

/-- No element of `distinct l` appears twice. -/
theorem nodup_distinct [DecidableEq α] (l : List α) : (distinct l).Nodup := by
  induction l with
  | nil => simp [distinct]
  | cons a as ih =>
    simp only [distinct, List.nodup_cons]
    exact ⟨by simp, ih.filter _⟩

end Sendability
