import BourseServer.Concurrency.Sequential

/-!
# Fatal signals

An action may raise a signal that ends the process instead of being done. The executions that a
signal cuts short start like the others, and leave the state they have reached.
-/
namespace BourseServer.Concurrency

variable {I : Interface} {M : Machine I} {ok : Condition M} {raises : I.Op → M.State → Prop}
  {t : Nat} {α β : Type} {s s' : M.State}

/-- A thread that starts the program in the first state comes, by steps that meet the condition,
to an action that raises a signal. The process is ended there, in the last state. -/
inductive Killed (M : Machine I) (ok : Condition M) (raises : I.Op → M.State → Prop) (t : Nat) :
    {α : Type} → Prog I α → M.State → M.State → Prop where
  | here {α : Type} {o : I.Op} {k : I.Reply o → Prog I α} {s : M.State} :
      raises o s → Killed M ok raises t (.op o k) s s
  | op {α : Type} {o : I.Op} {k : I.Reply o → Prog I α} {e : M.Choice} {r : I.Reply o}
      {s s' s'' : M.State} : M.exec t o e s = .done r s' → ok o e s →
      Killed M ok raises t (k r) s' s'' → Killed M ok raises t (.op o k) s s''
  | call {α : Type} {p : I.Proc} {k : I.Result p → Prog I α} {s s' : M.State} :
      Killed M ok raises t (M.body p >>= k) s s' → Killed M ok raises t (.call p k) s s'

namespace Killed

theorem of_bind {p : Prog I α} {f : α → Prog I β}
    (h : Killed M ok raises t (p >>= f) s s') :
    Killed M ok raises t p s s' ∨
      ∃ a u, Runs M ok t p s a u ∧ Killed M ok raises t (f a) u s' := by
  generalize hq : p >>= f = q at h
  induction h generalizing p with
  | @here o k s hraise =>
    cases p with
    | ret a =>
      have hfa : f a = .op o k := hq
      exact .inr ⟨a, s, .ret a s, hfa ▸ .here hraise⟩
    | op o' k' =>
      cases hq
      exact .inl (.here hraise)
    | call p' k' => cases hq
  | @op o k e r s _ _ he hok hk ih =>
    cases p with
    | ret a =>
      have hfa : f a = .op o k := hq
      exact .inr ⟨a, s, .ret a s, hfa ▸ .op he hok hk⟩
    | op o' k' =>
      cases hq
      rcases ih rfl with hc | ⟨a, u, hr, hc⟩
      · exact .inl (.op he hok hc)
      · exact .inr ⟨a, u, .op he hok hr, hc⟩
    | call p' k' => cases hq
  | @call q' k s _ hb ih =>
    cases p with
    | ret a =>
      have hfa : f a = .call q' k := hq
      exact .inr ⟨a, s, .ret a s, hfa ▸ .call hb⟩
    | op o' k' => cases hq
    | call p' k' =>
      cases hq
      rcases ih (Prog.bind_assoc ..) with hc | ⟨a, u, hr, hc⟩
      · exact .inl (.call hc)
      · obtain ⟨r, v, hbody, hk⟩ := Runs.bind_iff.mp hr
        exact .inr ⟨a, u, .call hbody hk, hc⟩

theorem bind_left {p : Prog I α} {f : α → Prog I β} (h : Killed M ok raises t p s s') :
    Killed M ok raises t (p >>= f) s s' := by
  induction h with
  | here hraise => exact .here hraise
  | op he hok _ ih => exact .op he hok ih
  | call _ ih =>
    refine .call ?_
    rwa [Prog.bind_assoc] at ih

theorem bind_right {p : Prog I α} {f : α → Prog I β} {a : α} {u : M.State}
    (hr : Runs M ok t p s a u) (h : Killed M ok raises t (f a) u s') :
    Killed M ok raises t (p >>= f) s s' := by
  induction hr with
  | ret a s => exact h
  | op he hok _ ih => exact .op he hok (ih h)
  | call _ _ ihb ihk => exact .call (ihb (ihk h))

/-- The signal ends a program, or what follows it. -/
theorem bind_iff {p : Prog I α} {f : α → Prog I β} :
    Killed M ok raises t (p >>= f) s s' ↔ Killed M ok raises t p s s' ∨
      ∃ a u, Runs M ok t p s a u ∧ Killed M ok raises t (f a) u s' := by
  refine ⟨of_bind, ?_⟩
  rintro (h | ⟨a, u, hr, h⟩)
  · exact h.bind_left
  · exact bind_right hr h

theorem not_ret {a : α} : ¬ Killed M ok raises t (.ret a) s s' := nofun

@[simp] theorem act_iff {o : I.Op} :
    Killed M ok raises t (.act o) s s' ↔ raises o s ∧ s' = s := by
  constructor
  · intro h
    cases h with
    | here hraise => exact ⟨hraise, rfl⟩
    | op _ _ hk => cases hk
  · rintro ⟨hraise, rfl⟩
    exact .here hraise

/-- What the actions of `P` keep holds until the signal, which one of them raises. -/
theorem of_uses {P : I.Op → Prop} {C : I.Proc → Prop} {R : M.State → M.State → Prop}
    (hrefl : ∀ s, R s s) (htrans : ∀ {s s' s''}, R s s' → R s' s'' → R s s'')
    (hbody : ∀ p, C p → (M.body p).Uses P C)
    (hstep : ∀ o e s r s', P o → M.exec t o e s = .done r s' → ok o e s → R s s')
    {p : Prog I α} (hp : p.Uses P C) (h : Killed M ok raises t p s s') :
    ∃ o, P o ∧ raises o s' ∧ R s s' := by
  induction h with
  | here hraise => exact ⟨_, hp.1, hraise, hrefl _⟩
  | op he hok _ ih =>
    obtain ⟨o, ho, hraise, hR⟩ := ih (hp.2 _)
    exact ⟨o, ho, hraise, htrans (hstep _ _ _ _ _ hp.1 he hok) hR⟩
  | call _ ih => exact ih ((hbody _ hp.1).bind hp.2)

/-- The signal ends a loop in one of its turns, after turns that have found nothing. -/
theorem searchFrom_iff {body : Nat → Prog I (Option α)} {n : Nat} : ∀ {i : Nat} {s : M.State},
    Killed M ok raises t (.searchFrom body n i) s s' ↔
      ∃ j u, j < n ∧ Runs M ok t (.searchFrom body j i) s none u ∧
        Killed M ok raises t (body (i + j)) u s' := by
  induction n with
  | zero =>
    refine fun {i s} => ⟨fun h => absurd h not_ret, ?_⟩
    rintro ⟨j, _, hj, _⟩
    cases hj
  | succ n ih =>
    intro i s
    rw [Prog.searchFrom, bind_iff]
    constructor
    · rintro (h | ⟨r, u, hr, h⟩)
      · exact ⟨0, s, by omega, .ret none s, h⟩
      · cases r with
        | some a => exact absurd h not_ret
        | none =>
          obtain ⟨j, v, hj, hrun, hkilled⟩ := ih.mp h
          refine ⟨j + 1, v, by omega, Runs.searchFrom_iff.mpr ⟨none, u, hr, hrun⟩, ?_⟩
          rwa [show i + (j + 1) = i + 1 + j by omega]
    · rintro ⟨j, v, hj, hrun, hkilled⟩
      cases j with
      | zero =>
        obtain ⟨-, rfl⟩ := Runs.searchFrom_zero.mp hrun
        exact .inl hkilled
      | succ j =>
        obtain ⟨r, u, hr, hrest⟩ := Runs.searchFrom_iff.mp hrun
        cases r with
        | some a => cases hrest.1
        | none =>
          refine .inr ⟨none, u, hr, ih.mpr ⟨j, v, by omega, hrest, ?_⟩⟩
          rwa [show i + 1 + j = i + (j + 1) by omega]

end Killed

end BourseServer.Concurrency
