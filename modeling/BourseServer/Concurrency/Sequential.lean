import BourseServer.Concurrency.Program

/-!
# Programs run by one thread without interference

`Runs` relates the state before a program to its result and the state after, when no other
thread moves in between. The condition `ok` restricts the steps taken, for instance to those in
which no system call fails. What a driven thread comes to is such a run, so a concrete one can be
evaluated.
-/
namespace BourseServer.Concurrency

variable {I : Interface} {M : Machine I} {α β : Type}

/-- A condition on the steps of a run. -/
abbrev Condition (M : Machine I) := (o : I.Op) → M.Choice → M.State → Prop

inductive Runs (M : Machine I) (ok : Condition M) (t : Nat) :
    {α : Type} → Prog I α → M.State → α → M.State → Prop where
  | ret {α : Type} (a : α) (s : M.State) : Runs M ok t (.ret a) s a s
  | op {α : Type} {o : I.Op} {k : I.Reply o → Prog I α} {e : M.Choice} {r : I.Reply o}
      {s s' s'' : M.State} {a : α} :
      M.exec t o e s = .done r s' → ok o e s → Runs M ok t (k r) s' a s'' →
      Runs M ok t (.op o k) s a s''
  | call {α : Type} {p : I.Proc} {k : I.Result p → Prog I α} {r : I.Result p}
      {s s' s'' : M.State} {a : α} :
      Runs M ok t (M.body p) s r s' → Runs M ok t (k r) s' a s'' →
      Runs M ok t (.call p k) s a s''

namespace Runs

variable {ok : Condition M} {t : Nat} {s s' s'' : M.State}

@[simp] theorem ret_iff {a b : α} : Runs M ok t (.ret a) s b s' ↔ b = a ∧ s' = s := by
  constructor
  · intro h
    cases h
    exact ⟨rfl, rfl⟩
  · rintro ⟨rfl, rfl⟩
    exact .ret _ _

theorem op_iff {o : I.Op} {k : I.Reply o → Prog I α} {a : α} :
    Runs M ok t (.op o k) s a s'' ↔
      ∃ e r s', M.exec t o e s = .done r s' ∧ ok o e s ∧ Runs M ok t (k r) s' a s'' := by
  constructor
  · intro h
    cases h with
    | op he hok hk => exact ⟨_, _, _, he, hok, hk⟩
  · rintro ⟨e, r, s', he, hok, hk⟩
    exact .op he hok hk

theorem call_iff {p : I.Proc} {k : I.Result p → Prog I α} {a : α} :
    Runs M ok t (.call p k) s a s'' ↔
      ∃ r s', Runs M ok t (M.body p) s r s' ∧ Runs M ok t (k r) s' a s'' := by
  constructor
  · intro h
    cases h with
    | call hb hk => exact ⟨_, _, hb, hk⟩
  · rintro ⟨r, s', hb, hk⟩
    exact .call hb hk

@[simp] theorem act_iff {o : I.Op} {r : I.Reply o} :
    Runs M ok t (.act o) s r s' ↔ ∃ e, M.exec t o e s = .done r s' ∧ ok o e s := by
  simp only [Prog.act, op_iff, ret_iff]
  constructor
  · rintro ⟨e, r', s', he, hok, rfl, rfl⟩
    exact ⟨e, he, hok⟩
  · rintro ⟨e, he, hok⟩
    exact ⟨e, r, s', he, hok, rfl, rfl⟩

@[simp] theorem invoke_iff {p : I.Proc} {r : I.Result p} :
    Runs M ok t (.invoke p) s r s' ↔ Runs M ok t (M.body p) s r s' := by
  simp only [Prog.invoke, call_iff, ret_iff]
  constructor
  · rintro ⟨r', s', hb, rfl, rfl⟩
    exact hb
  · intro hb
    exact ⟨r, s', hb, rfl, rfl⟩

theorem bind_iff {p : Prog I α} {f : α → Prog I β} {b : β} :
    Runs M ok t (p >>= f) s b s'' ↔
      ∃ a s', Runs M ok t p s a s' ∧ Runs M ok t (f a) s' b s'' := by
  induction p generalizing s with
  | ret a =>
    rw [Prog.ret_bind]
    constructor
    · intro h
      exact ⟨a, s, .ret a s, h⟩
    · rintro ⟨a', u, hr, hf⟩
      obtain ⟨rfl, rfl⟩ := ret_iff.mp hr
      exact hf
  | op o k ih =>
    simp only [Prog.op_bind, op_iff, ih]
    constructor
    · rintro ⟨e, r, u, he, hok, a, v, hk, hf⟩
      exact ⟨a, v, ⟨e, r, u, he, hok, hk⟩, hf⟩
    · rintro ⟨a, v, ⟨e, r, u, he, hok, hk⟩, hf⟩
      exact ⟨e, r, u, he, hok, a, v, hk, hf⟩
  | call p k ih =>
    simp only [Prog.call_bind, call_iff, ih]
    constructor
    · rintro ⟨r, u, hb, a, v, hk, hf⟩
      exact ⟨a, v, ⟨r, u, hb, hk⟩, hf⟩
    · rintro ⟨a, v, ⟨r, u, hb, hk⟩, hf⟩
      exact ⟨r, u, hb, a, v, hk, hf⟩

theorem bind {p : Prog I α} {f : α → Prog I β} {a : α} {b : β} (hp : Runs M ok t p s a s')
    (hf : Runs M ok t (f a) s' b s'') : Runs M ok t (p >>= f) s b s'' :=
  bind_iff.mpr ⟨a, s', hp, hf⟩

/-- Fewer conditions on the steps admit more runs. -/
theorem mono {ok' : Condition M} {p : Prog I α} {a : α} (h : Runs M ok t p s a s')
    (hok : ∀ o e s, ok o e s → ok' o e s) : Runs M ok' t p s a s' := by
  induction h with
  | ret a s => exact .ret a s
  | op he ho _ ih => exact .op he (hok _ _ _ ho) ih
  | call _ _ ihb ihk => exact .call ihb ihk

/-- The runs of a bounded search: the first index whose body yields a value ends it. -/
theorem searchFrom_iff {body : Nat → Prog I (Option α)} {n i : Nat} {r : Option α} :
    Runs M ok t (.searchFrom body (n + 1) i) s r s'' ↔
      ∃ x s', Runs M ok t (body i) s x s' ∧
        match x with
        | some a => r = some a ∧ s'' = s'
        | none => Runs M ok t (.searchFrom body n (i + 1)) s' r s'' := by
  rw [Prog.searchFrom, bind_iff]
  constructor
  · rintro ⟨x, u, hx, hr⟩
    refine ⟨x, u, hx, ?_⟩
    cases x with
    | some a => simpa using hr
    | none => exact hr
  · rintro ⟨x, u, hx, hr⟩
    refine ⟨x, u, hx, ?_⟩
    cases x with
    | some a => simpa using hr
    | none => exact hr

@[simp] theorem searchFrom_zero {body : Nat → Prog I (Option α)} {i : Nat} {r : Option α} :
    Runs M ok t (.searchFrom body 0 i) s r s' ↔ r = none ∧ s' = s := by
  simp [Prog.searchFrom]

end Runs

/-! ## What all runs have in common -/

/-- Every run of the program ends with a result and a state that satisfy `Q`. -/
def Partial (M : Machine I) (ok : Condition M) (t : Nat) (p : Prog I α)
    (Q : α → M.State → Prop) (s : M.State) : Prop :=
  ∀ a s', Runs M ok t p s a s' → Q a s'

namespace Partial

variable {ok : Condition M} {t : Nat} {s : M.State}

theorem ret {a : α} {Q : α → M.State → Prop} (h : Q a s) : Partial M ok t (.ret a) Q s := by
  intro b s' hr
  obtain ⟨rfl, rfl⟩ := Runs.ret_iff.mp hr
  exact h

theorem bind {p : Prog I α} {f : α → Prog I β} {Q : β → M.State → Prop}
    (h : Partial M ok t p (fun a => Partial M ok t (f a) Q) s) :
    Partial M ok t (p >>= f) Q s := by
  intro b s'' hr
  obtain ⟨a, s', hp, hf⟩ := Runs.bind_iff.mp hr
  exact h a s' hp b s'' hf

theorem mono {p : Prog I α} {Q R : α → M.State → Prop} (h : Partial M ok t p Q s)
    (hQ : ∀ a s', Q a s' → R a s') : Partial M ok t p R s :=
  fun a s' hr => hQ a s' (h a s' hr)

theorem and {p : Prog I α} {Q R : α → M.State → Prop} (hQ : Partial M ok t p Q s)
    (hR : Partial M ok t p R s) : Partial M ok t p (fun a s' => Q a s' ∧ R a s') s :=
  fun a s' hr => ⟨hQ a s' hr, hR a s' hr⟩

theorem act {o : I.Op} {Q : I.Reply o → M.State → Prop}
    (h : ∀ e r s', M.exec t o e s = .done r s' → ok o e s → Q r s') :
    Partial M ok t (.act o) Q s := by
  intro r s' hr
  obtain ⟨e, he, hok⟩ := Runs.act_iff.mp hr
  exact h e r s' he hok

/-- A bounded search, from an assertion `A i` that holds when the body is entered with `i`. -/
theorem searchFrom {body : Nat → Prog I (Option α)} {Q : Option α → M.State → Prop}
    (A : Nat → M.State → Prop) {n : Nat} : ∀ {i : Nat} {s : M.State}, A i s →
      (∀ j s, i ≤ j → j < i + n → A j s → Partial M ok t (body j) (fun r s' =>
        (r = none → A (j + 1) s') ∧ ∀ a, r = some a → Q (some a) s') s) →
      (∀ s, A (i + n) s → Q none s) → Partial M ok t (.searchFrom body n i) Q s := by
  induction n with
  | zero => exact fun hA _ hend => ret (hend _ hA)
  | succ n ih =>
    intro i s hA hbody hend
    refine bind ((hbody i s (by omega) (by omega) hA).mono fun r s' hr => ?_)
    cases r with
    | some a => exact ret (hr.2 a rfl)
    | none =>
      apply ih (hr.1 rfl)
      · exact fun j s'' hj hj' => hbody j s'' (by omega) (by omega)
      · rwa [show i + 1 + n = i + (n + 1) by omega]

/-- Every action of a program that uses actions of `P` only makes a change in `R`, and so does
the program. -/
theorem of_uses {P : I.Op → Prop} {C : I.Proc → Prop} {R : M.State → M.State → Prop}
    (hrefl : ∀ s, R s s) (htrans : ∀ {s s' s''}, R s s' → R s' s'' → R s s'')
    (hbody : ∀ p, C p → (M.body p).Uses P C)
    (hstep : ∀ o e s r s', P o → M.exec t o e s = .done r s' → ok o e s → R s s')
    {p : Prog I α} (hp : p.Uses P C) : Partial M ok t p (fun _ => R s) s := by
  intro a s' hr
  induction hr with
  | ret a s => exact hrefl s
  | op he hok _ ih => exact htrans (hstep _ _ _ _ _ hp.1 he hok) (ih (hp.2 _))
  | call _ _ ihb ihk => exact htrans (ihb (hbody _ hp.1)) (ihk (hp.2 _))

end Partial

/-! ## Evaluation -/

/-- A condition that any step meets. -/
def anyStep : Condition M := fun _ _ _ => True

theorem Runs.of_drive {pick : I.Op → M.State → Option M.Choice} {ok : Condition M} {t n : Nat}
    {p : Prog I α} {s s' : M.State} {a : α} (hpick : ∀ o s e, pick o s = some e → ok o e s)
    (h : M.drive pick t n p s = (.ret a, s')) : Runs M ok t p s a s' := by
  induction n generalizing p s with
  | zero =>
    obtain ⟨rfl, rfl⟩ := Prod.mk.inj h
    exact .ret a s
  | succ n ih =>
    cases p with
    | ret b =>
      obtain ⟨hb, rfl⟩ := Prod.mk.inj h
      obtain rfl := Prog.ret.inj hb
      exact .ret b s
    | op o k =>
      simp only [Machine.drive] at h
      split at h
      · cases h
      · rename_i e hp
        split at h
        · rename_i r u he
          exact .op he (hpick o s e hp) (ih h)
        · cases h
    | call q k =>
      obtain ⟨r, u, hb, hk⟩ := bind_iff.mp (ih h)
      exact .call hb hk

/-- What thread `t` comes to within `n` steps, if it comes to its end. -/
def Machine.finish (M : Machine I) (pick : I.Op → M.State → Option M.Choice) (t n : Nat)
    (p : Prog I α) (s : M.State) : Option (α × M.State) :=
  match M.drive pick t n p s with
  | (.ret a, s') => some (a, s')
  | _ => none

theorem Runs.of_finish {pick : I.Op → M.State → Option M.Choice} {ok : Condition M} {t n : Nat}
    {p : Prog I α} {s s' : M.State} {a : α} (hpick : ∀ o s e, pick o s = some e → ok o e s)
    (h : M.finish pick t n p s = some (a, s')) : Runs M ok t p s a s' := by
  unfold Machine.finish at h
  split at h
  · rename_i b u hdrive
    cases h
    exact .of_drive hpick hdrive
  · cases h

end BourseServer.Concurrency
