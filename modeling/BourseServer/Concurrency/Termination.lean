import BourseServer.Concurrency.Sequential

/-!
# Total correctness without interference

The outside world may let an action fail in such a way that the program tries it again, and a
program only comes to an end if this does not go on forever. `Ends` says that every execution in
which it happens at most `n` times ends, is never stuck, and leaves a state that satisfies the
postcondition; `Total` says this for every `n`. So a program that is totally correct has a run,
and every run satisfies the postcondition.
-/
namespace BourseServer.Concurrency

variable {I : Interface} {M : Machine I} {α β : Type}

/-- The steps of the executions under consideration, and those after which an action is to be
tried again. -/
structure Regime (M : Machine I) where
  ok : Condition M
  again : M.Choice → Bool

inductive Ends (G : Regime M) (t : Nat) {α : Type} (Q : α → M.State → Prop) :
    Nat → Prog I α → M.State → Prop where
  | ret {n : Nat} {a : α} {s : M.State} : Q a s → Ends G t Q n (.ret a) s
  | op {n : Nat} {o : I.Op} {k : I.Reply o → Prog I α} {s : M.State} :
      (∃ e r s', M.exec t o e s = .done r s' ∧ G.ok o e s ∧ G.again e = false) →
      (∀ e r s', M.exec t o e s = .done r s' → G.ok o e s → G.again e = false →
        Ends G t Q n (k r) s') →
      (∀ e r s' m, M.exec t o e s = .done r s' → G.ok o e s → G.again e = true → n = m + 1 →
        Ends G t Q m (k r) s') →
      Ends G t Q n (.op o k) s
  | call {n : Nat} {p : I.Proc} {k : I.Result p → Prog I α} {s : M.State} :
      Ends G t Q n (M.body p >>= k) s → Ends G t Q n (.call p k) s

/-- Every execution that tries again finitely often ends with the postcondition. -/
def Total (G : Regime M) (t : Nat) (p : Prog I α) (Q : α → M.State → Prop) (s : M.State) : Prop :=
  ∀ n, Ends G t Q n p s

variable {G : Regime M} {t n : Nat} {Q : α → M.State → Prop} {R : β → M.State → Prop}
  {s s' : M.State}

namespace Ends

theorem bind {p : Prog I α} {f : α → Prog I β} (h : Ends G t Q n p s)
    (hf : ∀ a s', Q a s' → Total G t (f a) R s') : Ends G t R n (p >>= f) s := by
  induction h with
  | ret hQ => exact hf _ _ hQ _
  | op hstep _ _ ih ihAgain =>
    refine .op hstep (fun e r s' he hok ha => ih e r s' he hok ha) ?_
    exact fun e r s' m he hok ha hn => ihAgain e r s' m he hok ha hn
  | call _ ih =>
    refine .call ?_
    rwa [Prog.bind_assoc] at ih

theorem invoke {p : I.Proc} {Q : I.Result p → M.State → Prop} (h : Ends G t Q n (M.body p) s) :
    Ends G t Q n (.invoke p) s :=
  .call ((Prog.bind_ret (M.body p)).symm ▸ h)

/-- What every run comes to holds at the end of every execution. -/
theorem strengthen {p : Prog I α} {Q' : α → M.State → Prop} (h : Ends G t Q n p s)
    (hp : Partial M G.ok t p Q' s) : Ends G t Q' n p s := by
  induction h with
  | ret _ => exact .ret (hp _ _ (.ret _ _))
  | op hstep _ _ ih ihAgain =>
    refine .op hstep (fun e r s' he hok ha => ?_) fun e r s' m he hok ha hn => ?_
    · exact ih e r s' he hok ha fun a s'' hr => hp a s'' (.op he hok hr)
    · exact ihAgain e r s' m he hok ha hn fun a s'' hr => hp a s'' (.op he hok hr)
  | call _ ih =>
    refine .call (ih fun a s' hr => ?_)
    obtain ⟨r, u, hb, hk⟩ := Runs.bind_iff.mp hr
    exact hp a s' (.call hb hk)

/-- There is a run. -/
theorem runs {p : Prog I α} (h : Ends G t Q n p s) :
    ∃ a s', Runs M G.ok t p s a s' ∧ Q a s' := by
  induction h with
  | ret hQ => exact ⟨_, _, .ret _ _, hQ⟩
  | op hstep _ _ ih _ =>
    obtain ⟨e, r, s', he, hok, ha⟩ := hstep
    obtain ⟨a, s'', hr, hQ⟩ := ih e r s' he hok ha
    exact ⟨a, s'', .op he hok hr, hQ⟩
  | call _ ih =>
    obtain ⟨a, s'', hr, hQ⟩ := ih
    obtain ⟨r, s', hb, hk⟩ := Runs.bind_iff.mp hr
    exact ⟨a, s'', .call hb hk, hQ⟩

end Ends

namespace Total

theorem ret {a : α} (h : Q a s) : Total G t (.ret a) Q s := fun _ => .ret h

theorem bind {p : Prog I α} {f : α → Prog I β} (h : Total G t p Q s)
    (hf : ∀ a s', Q a s' → Total G t (f a) R s') : Total G t (p >>= f) R s :=
  fun n => (h n).bind hf

theorem mono {p : Prog I α} {Q' : α → M.State → Prop} (h : Total G t p Q s)
    (hQ : ∀ a s', Q a s' → Q' a s') : Total G t p Q' s := by
  rw [← Prog.bind_ret p]
  exact h.bind fun a s' ha => .ret (hQ a s' ha)

theorem strengthen {p : Prog I α} {Q' : α → M.State → Prop} (h : Total G t p Q s)
    (hp : Partial M G.ok t p Q' s) : Total G t p Q' s := fun n => (h n).strengthen hp

theorem act {o : I.Op} {Q : I.Reply o → M.State → Prop}
    (hstep : ∃ e r s', M.exec t o e s = .done r s' ∧ G.ok o e s ∧ G.again e = false)
    (h : ∀ e r s', M.exec t o e s = .done r s' → G.ok o e s → Q r s') :
    Total G t (.act o) Q s :=
  fun _ => .op hstep (fun e r s' he hok _ => .ret (h e r s' he hok))
    fun e r s' _ he hok _ _ => .ret (h e r s' he hok)

theorem invoke {p : I.Proc} {Q : I.Result p → M.State → Prop}
    (h : Total G t (M.body p) Q s) : Total G t (.invoke p) Q s :=
  fun n => (h n).invoke

/-- A search whose body finds nothing before index `j`, where it finds something. -/
theorem searchFrom {body : Nat → Prog I (Option α)} {Q : Option α → M.State → Prop}
    (A : Nat → M.State → Prop) {n : Nat} : ∀ {i : Nat} {s : M.State}, A i s →
      (∀ j s, i ≤ j → j < i + n → A j s → Total G t (body j) (fun r s' =>
        match r with
        | some a => Q (some a) s'
        | none => A (j + 1) s') s) →
      (∀ s, A (i + n) s → Q none s) → Total G t (.searchFrom body n i) Q s := by
  induction n with
  | zero => exact fun hA _ hend => .ret (hend _ hA)
  | succ n ih =>
    intro i s hA hbody hend
    refine (hbody i s (by omega) (by omega) hA).bind fun r s' hr => ?_
    cases r with
    | some a => exact .ret hr
    | none =>
      refine ih hr (fun j s'' hj hj' => hbody j s'' (by omega) (by omega)) ?_
      rwa [show i + 1 + n = i + (n + 1) by omega]

/-- A totally correct program has a run. -/
theorem exists_runs {p : Prog I α} (h : Total G t p Q s) :
    ∃ a s', Runs M G.ok t p s a s' ∧ Q a s' := (h 0).runs

/-- What follows the program in a run is totally correct too. -/
theorem after {p : Prog I α} {f : α → Prog I β} {a : α} (hr : Runs M G.ok t p s a s')
    (h : Total G t (p >>= f) R s) : Total G t (f a) R s' := by
  induction hr generalizing R with
  | ret a s => exact h
  | op he hok _ ih =>
    refine ih fun n => ?_
    rename_i o k e r s s' s'' a _
    cases ha : G.again e with
    | false =>
      cases h n with
      | op _ hk _ => exact hk e r s' he hok ha
    | true =>
      cases h (n + 1) with
      | op _ _ hk => exact hk e r s' n he hok ha rfl
  | call _ _ ihb ihk =>
    rename_i k _ _ _ _ _ _ _
    refine ihk (ihb (f := fun r => k r >>= f) fun n => ?_)
    cases h n with
    | call hc => exact hc

/-- Every run of a totally correct program satisfies the postcondition. -/
theorem of_runs {p : Prog I α} {a : α} (h : Total G t p Q s) (hr : Runs M G.ok t p s a s') :
    Q a s' := by
  rw [← Prog.bind_ret p] at h
  cases after hr h 0 with
  | ret hQ => exact hQ

/-- The postcondition may mention the run. -/
theorem with_runs {p : Prog I α} (h : Total G t p Q s) :
    Total G t p (fun a s' => Q a s' ∧ Runs M G.ok t p s a s') s :=
  h.strengthen fun _ _ hr => ⟨h.of_runs hr, hr⟩

end Total

end BourseServer.Concurrency
