import Mathlib.Algebra.Order.BigOperators.Group.Finset

/-!
# Counters that cover what threads hold

A counter covers the tokens of any number of threads if it is at least as large as the sum of the
tokens that the first `n` threads hold, for each `n`. It goes on covering them when it changes by
no less than the number of tokens that one thread takes or gives back.
-/
namespace BourseServer.Concurrency

variable {m m' : Int} {f f' : Nat → Nat} {t v : Nat}

/-- The counter `m` covers the tokens `f t` of all threads `t`. -/
def Covers (m : Int) (f : Nat → Nat) : Prop :=
  ∀ n, ((∑ u ∈ Finset.range n, f u : Nat) : Int) ≤ m

namespace Covers

theorem of_zero (hm : 0 ≤ m) (h : ∀ t, f t = 0) : Covers m f := by
  intro n
  simpa [h] using hm

theorem nonneg (h : Covers m f) : 0 ≤ m := by simpa using h 0

/-- One thread takes tokens or gives them back. -/
theorem update (h : Covers m f) (hm : m + v ≤ m' + f t) :
    Covers m' (Function.update f t v) := by
  intro n
  have hlt : t ∈ Finset.range (n + t + 1) := Finset.mem_range.mpr (by omega)
  have hrest : ∑ u ∈ (Finset.range (n + t + 1)).erase t, Function.update f t v u =
      ∑ u ∈ (Finset.range (n + t + 1)).erase t, f u := by
    refine Finset.sum_congr rfl fun u hu => ?_
    rw [Function.update_of_ne (Finset.ne_of_mem_erase hu)]
  have hnew := Finset.add_sum_erase _ (Function.update f t v) hlt
  have hold := Finset.add_sum_erase _ f hlt
  have hle : ∑ u ∈ Finset.range n, Function.update f t v u ≤
      ∑ u ∈ Finset.range (n + t + 1), Function.update f t v u :=
    Finset.sum_le_sum_of_subset (Finset.range_subset_range.mpr (by omega))
  have hbound := h (n + t + 1)
  rw [Function.update_self] at hnew
  omega

end Covers

end BourseServer.Concurrency
