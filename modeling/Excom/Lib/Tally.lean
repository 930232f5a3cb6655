import Mathlib.Algebra.BigOperators.Group.Finset.Piecewise
import Mathlib.Algebra.Order.BigOperators.Group.Finset
import Mathlib.Data.Fintype.BigOperators

/-!
# Sums over the parties of a system

Each of finitely many parties is somewhere, and `tally f` adds up what `f` says of the places.  A party that
moves changes the sum by its own part only (`tally_update`).
-/

variable {ι α : Type} [Fintype ι]

def tally (f : α → Nat) (place : ι → α) : Nat := ∑ i, f (place i)

theorem tally_eq_zero {f : α → Nat} {place : ι → α} : tally f place = 0 ↔ ∀ i, f (place i) = 0 := by
  simp [tally]

theorem tally_update [DecidableEq ι] (f : α → Nat) (place : ι → α) (i : ι) (a : α) :
    tally f (Function.update place i a) + f (place i) = tally f place + f a := by
  have hrest : ∑ j ∈ Finset.univ.erase i, f (Function.update place i a j) =
      ∑ j ∈ Finset.univ.erase i, f (place j) := by
    apply Finset.sum_congr rfl
    intro j hj
    rw [Function.update_of_ne (Finset.ne_of_mem_erase hj)]
  have hbefore := Finset.add_sum_erase Finset.univ (fun j => f (place j)) (Finset.mem_univ i)
  have hafter := Finset.add_sum_erase Finset.univ (fun j => f (Function.update place i a j)) (Finset.mem_univ i)
  rw [hrest] at hafter
  simp only [Function.update_self] at hafter
  unfold tally
  omega
