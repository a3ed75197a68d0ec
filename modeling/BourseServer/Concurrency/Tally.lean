import Mathlib.Data.Finset.Card

/-!
# Counting the threads with a property

`Tally p k` says that exactly `k` threads have the property `p`, out of any number of them. A
counting semaphore is verified by a tally of the threads that hold one of its permits. When one
thread's ghost value changes, a tally changes by at most one.
-/
namespace BourseServer.Concurrency

variable {ι G : Type} {p q : ι → Prop} {k l : Nat}

/-- Exactly `k` threads have the property. -/
def Tally (p : ι → Prop) (k : Nat) : Prop := ∃ T : Finset ι, (∀ t, t ∈ T ↔ p t) ∧ T.card = k

namespace Tally

theorem none : Tally (fun _ : ι => False) 0 := ⟨∅, by simp, rfl⟩

theorem unique (h : Tally p k) (h' : Tally p l) : k = l := by
  obtain ⟨T, hT, rfl⟩ := h
  obtain ⟨T', hT', rfl⟩ := h'
  have hsame : T = T' := Finset.ext fun t => (hT t).trans (hT' t).symm
  rw [hsame]

theorem congr (h : Tally p k) (hpq : ∀ t, p t ↔ q t) : Tally q k := by
  obtain ⟨T, hT, hk⟩ := h
  exact ⟨T, fun t => (hT t).trans (hpq t), hk⟩

theorem eq_zero_iff (h : Tally p k) : k = 0 ↔ ∀ t, ¬ p t := by
  obtain ⟨T, hT, rfl⟩ := h
  rw [Finset.card_eq_zero, Finset.eq_empty_iff_forall_notMem]
  exact forall_congr' fun t => not_congr (hT t)

theorem pos (h : Tally p k) {t : ι} (ht : p t) : 0 < k := by
  by_contra hk
  exact h.eq_zero_iff.mp (by omega) t ht

/-- Two different threads with the property. -/
theorem two_le (h : Tally p k) {t u : ι} (ht : p t) (hu : p u) (hne : t ≠ u) : 2 ≤ k := by
  obtain ⟨T, hT, rfl⟩ := h
  have hlt : 1 < T.card :=
    Finset.one_lt_card.mpr ⟨t, (hT t).mpr ht, u, (hT u).mpr hu, hne⟩
  omega

/-- Every thread with `p` has `q`, and thread `t` has only `q`. -/
theorem lt_of_imp (h : Tally p k) (h' : Tally q l) (hpq : ∀ t, p t → q t) {t : ι} (hq : q t)
    (hp : ¬ p t) : k < l := by
  obtain ⟨T, hT, rfl⟩ := h
  obtain ⟨T', hT', rfl⟩ := h'
  apply Finset.card_lt_card
  apply Finset.ssubset_iff_subset_ne.mpr
  constructor
  · exact fun u hu => (hT' u).mpr (hpq u ((hT u).mp hu))
  · intro hsame
    have ht : t ∈ T := hsame ▸ (hT' t).mpr hq
    exact hp ((hT t).mp ht)

variable [DecidableEq ι]

theorem insert (h : Tally p k) {t : ι} (ht : ¬ p t) : Tally (fun u => u = t ∨ p u) (k + 1) := by
  obtain ⟨T, hT, rfl⟩ := h
  refine ⟨Insert.insert t T, fun u => ?_, ?_⟩
  · rw [Finset.mem_insert, hT u]
  · exact Finset.card_insert_of_notMem fun hmem => ht ((hT t).mp hmem)

theorem erase (h : Tally p k) {t : ι} (ht : p t) : Tally (fun u => u ≠ t ∧ p u) (k - 1) := by
  obtain ⟨T, hT, rfl⟩ := h
  refine ⟨T.erase t, fun u => ?_, ?_⟩
  · rw [Finset.mem_erase, hT u]
  · exact Finset.card_erase_of_mem ((hT t).mpr ht)

/-! ## A flag of the ghost value -/

variable {f : G → Bool} {g : ι → G} {t : ι}

/-- The threads other than `t`, and thread `t`. -/
theorem others (h : Tally (fun u => f (g u) = true) k) (t : ι) :
    ∃ m, Tally (fun u => u ≠ t ∧ f (g u) = true) m ∧ k = m + (f (g t)).toNat := by
  cases hf : f (g t) with
  | false =>
    refine ⟨k, h.congr fun u => ?_, by simp⟩
    constructor
    · rintro hu
      refine ⟨?_, hu⟩
      rintro rfl
      simp [hf] at hu
    · exact And.right
  | true =>
    have hpos := h.pos hf
    refine ⟨k - 1, h.erase hf, ?_⟩
    simp
    omega

theorem of_others {m : Nat} (h : Tally (fun u => u ≠ t ∧ f (g u) = true) m) :
    Tally (fun u => f (g u) = true) (m + (f (g t)).toNat) := by
  cases hf : f (g t) with
  | false =>
    refine h.congr fun u => ?_
    constructor
    · exact And.right
    · intro hu
      refine ⟨?_, hu⟩
      rintro rfl
      simp [hf] at hu
  | true =>
    refine (h.insert (t := t) (by simp)).congr fun u => ?_
    by_cases hu : u = t
    · subst hu
      simp [hf]
    · simp [hu]

/-- The tally of a flag after the ghost value of one thread has changed. -/
theorem update (h : Tally (fun u => f (g u) = true) k) (t : ι) (v : G) :
    ∃ m, k = m + (f (g t)).toNat ∧
      Tally (fun u => f (Function.update g t v u) = true) (m + (f v).toNat) := by
  obtain ⟨m, hm, hk⟩ := h.others t
  refine ⟨m, hk, ?_⟩
  have hrest : Tally (fun u => u ≠ t ∧ f (Function.update g t v u) = true) m := by
    refine hm.congr fun u => ?_
    by_cases hu : u = t
    · simp [hu]
    · simp [hu]
  have hnew := hrest.of_others
  rwa [Function.update_self] at hnew

/-- The flag of that thread is still the same. -/
theorem keep {v : G} (h : Tally (fun u => f (g u) = true) k) (hv : f v = f (g t)) :
    Tally (fun u => f (Function.update g t v u) = true) k := by
  obtain ⟨m, hm, hnew⟩ := h.update t v
  rwa [hv, ← hm] at hnew

end Tally

end BourseServer.Concurrency
