import BourseServer.Concurrency.Sequential

/-!
# Faults

An action that is not possible in a state may have to wait, or it may be a fault. `Comes` says
which actions the executions of a program, run by one thread alone, come to, and `Sound` that no
such action is bad where it is met and that every run satisfies a postcondition.
-/
namespace BourseServer.Concurrency

variable {I : Interface} {M : Machine I} {t : Nat} {α β : Type}

/-- An execution of the program is about to take action `o` in the last state. -/
inductive Comes (M : Machine I) (t : Nat) :
    {α : Type} → Prog I α → M.State → I.Op → M.State → Prop where
  | here {α : Type} {o : I.Op} {k : I.Reply o → Prog I α} {s : M.State} :
      Comes M t (.op o k) s o s
  | op {α : Type} {o o' : I.Op} {k : I.Reply o → Prog I α} {e : M.Choice} {r : I.Reply o}
      {s s' s'' : M.State} : M.exec t o e s = .done r s' → Comes M t (k r) s' o' s'' →
      Comes M t (.op o k) s o' s''
  | call {α : Type} {p : I.Proc} {k : I.Result p → Prog I α} {o : I.Op} {s s' : M.State} :
      Comes M t (M.body p >>= k) s o s' → Comes M t (.call p k) s o s'

/-- What is done before the action is a run, or contains it. -/
theorem Comes.of_bind {p : Prog I α} {f : α → Prog I β} {o : I.Op} {s s' : M.State}
    (h : Comes M t (p >>= f) s o s') :
    Comes M t p s o s' ∨ ∃ a u, Runs M anyStep t p s a u ∧ Comes M t (f a) u o s' := by
  generalize hq : p >>= f = q at h
  induction h generalizing p with
  | @here o k s =>
    cases p with
    | ret a =>
      have hfa : f a = .op o k := hq
      exact .inr ⟨a, s, .ret a s, hfa ▸ .here⟩
    | op o' k' =>
      cases hq
      exact .inl .here
    | call p' k' => cases hq
  | @op o _ k e r s _ _ he hk ih =>
    cases p with
    | ret a =>
      have hfa : f a = .op o k := hq
      exact .inr ⟨a, s, .ret a s, hfa ▸ .op he hk⟩
    | op o' k' =>
      cases hq
      rcases ih rfl with hc | ⟨a, u, hr, hc⟩
      · exact .inl (.op he hc)
      · exact .inr ⟨a, u, .op he trivial hr, hc⟩
    | call p' k' => cases hq
  | @call q' k _ s _ hb ih =>
    cases p with
    | ret a =>
      have hfa : f a = .call q' k := hq
      exact .inr ⟨a, s, .ret a s, hfa ▸ .call hb⟩
    | op o' k' => cases hq
    | call p' k' =>
      cases hq
      rcases ih (Prog.bind_assoc ..) with hc | ⟨a, u, hr, hc⟩
      · exact .inl (.call hc)
      · obtain ⟨r, v, hbody, hk⟩ := Runs.bind_iff.mp hr
        exact .inr ⟨a, u, .call hbody hk, hc⟩

/-- A driven thread has come to its next action. -/
theorem Comes.of_drive {pick : I.Op → M.State → Option M.Choice} {n : Nat} {p : Prog I α}
    {o : I.Op} {k : I.Reply o → Prog I α} {s s' : M.State}
    (h : M.drive pick t n p s = (.op o k, s')) : Comes M t p s o s' := by
  induction n generalizing p s with
  | zero =>
    obtain ⟨rfl, rfl⟩ := Prod.mk.inj h
    exact .here
  | succ n ih =>
    cases p with
    | ret b => cases h
    | op o' k' =>
      simp only [Machine.drive] at h
      split at h
      · obtain ⟨hp, rfl⟩ := Prod.mk.inj h
        cases hp
        exact .here
      · split at h
        · rename_i hd
          exact .op hd (ih h)
        · obtain ⟨hp, rfl⟩ := Prod.mk.inj h
          cases hp
          exact .here
    | call q k' => exact .call (ih h)

/-- The action can fault. -/
def Machine.Faulty (M : Machine I) (t : Nat) (o : I.Op) (s : M.State) : Prop :=
  ∃ e, M.exec t o e s = .fault

/-- An execution of the program comes to an action that can fault. -/
def Faults (M : Machine I) (t : Nat) (p : Prog I α) (s : M.State) : Prop :=
  ∃ o s', Comes M t p s o s' ∧ M.Faulty t o s'

/-- The rest of a loop: the procedure is called again, or the loop is left. -/
def again {ι : Type} (p : ι → I.Proc) (f : ∀ x, I.Result (p x) → α) (a : α) :
    Option ι → Prog I α
  | some x => .call (p x) fun r => .ret (f x r)
  | none => .ret a

/-- No execution comes to a bad action, and every run ends with a result and a state that
satisfy `Q`. -/
structure Sound (M : Machine I) (bad : I.Op → M.State → Prop) (t : Nat) (p : Prog I α)
    (Q : α → M.State → Prop) (s : M.State) : Prop where
  safe : ∀ o s', Comes M t p s o s' → ¬ bad o s'
  post : Partial M anyStep t p Q s

namespace Sound

variable {bad : I.Op → M.State → Prop} {s : M.State}

theorem ret {a : α} {Q : α → M.State → Prop} (h : Q a s) : Sound M bad t (.ret a) Q s :=
  ⟨nofun, .ret h⟩

theorem bind {p : Prog I α} {f : α → Prog I β} {Q : β → M.State → Prop}
    (h : Sound M bad t p (fun a => Sound M bad t (f a) Q) s) : Sound M bad t (p >>= f) Q s := by
  refine ⟨fun o s' hc => ?_, .bind (h.post.mono fun a s' hs => hs.post)⟩
  rcases hc.of_bind with hc | ⟨a, u, hr, hc⟩
  · exact h.safe o s' hc
  · exact (h.post a u hr).safe o s' hc

theorem mono {p : Prog I α} {Q R : α → M.State → Prop} (h : Sound M bad t p Q s)
    (hQ : ∀ a s', Q a s' → R a s') : Sound M bad t p R s :=
  ⟨h.safe, h.post.mono hQ⟩

theorem and {p : Prog I α} {Q R : α → M.State → Prop} (h : Sound M bad t p Q s)
    (hR : Partial M anyStep t p R s) : Sound M bad t p (fun a s' => Q a s' ∧ R a s') s :=
  ⟨h.safe, h.post.and hR⟩

theorem act {o : I.Op} {Q : I.Reply o → M.State → Prop} (hsafe : ¬ bad o s)
    (h : ∀ e r s', M.exec t o e s = .done r s' → Q r s') : Sound M bad t (.act o) Q s := by
  refine ⟨fun o' s' hc => ?_, .act fun e r s' he _ => h e r s' he⟩
  cases hc with
  | here => exact hsafe
  | op _ hk => cases hk

/-- An action that does not fault. -/
theorem step {o : I.Op} {Q : I.Reply o → M.State → Prop}
    (hsafe : ∀ e, M.exec t o e s ≠ .fault)
    (h : ∀ e r s', M.exec t o e s = .done r s' → Q r s') :
    Sound M (M.Faulty t) t (.act o) Q s :=
  act (not_exists.mpr hsafe) h

theorem not_faults {p : Prog I α} {Q : α → M.State → Prop}
    (h : Sound M (M.Faulty t) t p Q s) : ¬ Faults M t p s := by
  rintro ⟨o, s', hc, hfaulty⟩
  exact h.safe o s' hc hfaulty

theorem of_op {o : I.Op} {k : I.Reply o → Prog I α} {Q : α → M.State → Prop} {e : M.Choice}
    {r : I.Reply o} {s' : M.State} (h : Sound M bad t (.op o k) Q s)
    (he : M.exec t o e s = .done r s') : Sound M bad t (k r) Q s' :=
  ⟨fun o' u hc => h.safe o' u (.op he hc), fun a u hr => h.post a u (.op he trivial hr)⟩

theorem of_call {p : I.Proc} {k : I.Result p → Prog I α} {Q : α → M.State → Prop}
    (h : Sound M bad t (.call p k) Q s) : Sound M bad t (M.body p >>= k) Q s := by
  refine ⟨fun o u hc => h.safe o u (.call hc), fun a u hr => ?_⟩
  obtain ⟨r, v, hb, hk⟩ := Runs.bind_iff.mp hr
  exact h.post a u (.call hb hk)

/-- A bounded search, from an assertion `A i` that holds when the body is entered with `i`. -/
theorem searchFrom {body : Nat → Prog I (Option α)} {Q : Option α → M.State → Prop}
    (A : Nat → M.State → Prop) {n : Nat} : ∀ {i : Nat} {s : M.State}, A i s →
      (∀ j s, i ≤ j → j < i + n → A j s → Sound M bad t (body j) (fun r s' =>
        (r = none → A (j + 1) s') ∧ ∀ a, r = some a → Q (some a) s') s) →
      (∀ s, A (i + n) s → Q none s) → Sound M bad t (.searchFrom body n i) Q s := by
  induction n with
  | zero => exact fun hA _ hend => ret (hend _ hA)
  | succ n ih =>
    intro i s hA hbody hend
    refine bind ((hbody i s (by omega) (by omega) hA).mono fun r s' hr => ?_)
    cases r with
    | some a => exact ret (hr.2 a rfl)
    | none =>
      apply ih (hr.1 rfl)
      · exact fun j s'' hj hj' => hbody j s'' (by omega) (by omega)
      · rwa [show i + 1 + n = i + (n + 1) by omega]

/-- Actions of `P` are not bad as long as the invariant holds, and they keep it. -/
theorem of_uses {P : I.Op → Prop} {C : I.Proc → Prop} {J : M.State → Prop}
    (hbody : ∀ p, C p → (M.body p).Uses P C) (hsafe : ∀ o s, P o → J s → ¬ bad o s)
    (hstep : ∀ o e s r s', P o → J s → M.exec t o e s = .done r s' → J s')
    {p : Prog I α} (hp : p.Uses P C) (h : J s) : Sound M bad t p (fun _ => J) s := by
  constructor
  · intro o s' hc
    induction hc with
    | here => exact hsafe _ _ hp.1 h
    | op he _ ih => exact ih (hp.2 _) (hstep _ _ _ _ _ hp.1 h he)
    | call _ ih => exact ih ((hbody _ hp.1).bind hp.2) h
  · refine (Partial.of_uses (R := fun s s' => J s → J s') (fun _ => id)
      (fun h h' hi => h' (h hi)) hbody ?_ hp).mono fun _ _ hR => hR h
    exact fun o e s r s' ho he _ hi => hstep o e s r s' ho hi he

/-! ### Loops -/

section loop

variable {ι : Type} {p : ι → I.Proc} {f : ∀ x, I.Result (p x) → α} {a : α}
  {next : ι → Prog I (Option ι)} {J : ι → M.State → Prop} {Q : α → M.State → Prop}

/-- What is left of the loop ends in `Q`. -/
theorem post_again {γ : Type}
    (hbody : ∀ x, (M.body (p x) >>= fun r => .ret (f x r)) = next x >>= again p f a)
    (hnext : ∀ x s, J x s → Partial M anyStep t (next x)
      (fun r s' => (∀ y, r = some y → J y s') ∧ (r = none → Q a s')) s)
    {c : γ} {rest : Prog I γ} {s' : M.State} (hr : Runs M anyStep t rest s c s') :
    ∀ (q : Prog I (Option ι)) (g : γ → α),
      (rest >>= fun c => .ret (g c)) = q >>= again p f a →
      Partial M anyStep t q (fun r s' => (∀ y, r = some y → J y s') ∧ (r = none → Q a s')) s →
      Q (g c) s' := by
  induction hr with
  | ret c s =>
    intro q g hrest hq
    cases q with
    | ret r =>
      cases r with
      | none =>
        have hc : g c = a := Prog.ret.inj hrest
        exact hc ▸ (hq _ _ (.ret _ _)).2 rfl
      | some x => cases hrest
    | op o' k' => cases hrest
    | call p' k' => cases hrest
  | op he _ hk ih =>
    intro q g hrest hq
    cases q with
    | ret r => cases r <;> cases hrest
    | op o' k' =>
      obtain ⟨rfl, hk'⟩ := Prog.op.inj hrest
      refine ih (k' _) g (congrFun (eq_of_heq hk') _) fun r u hu => hq r u (.op he trivial hu)
    | call p' k' => cases hrest
  | @call _ p' k r _ _ _ c hb hk ihb ihk =>
    intro q g hrest hq
    cases q with
    | ret r' =>
      cases r' with
      | none => cases hrest
      | some x =>
        obtain ⟨rfl, hk'⟩ := Prog.call.inj hrest
        have hkr := congrFun (eq_of_heq hk')
        have hend := ihb (next x) (f x) (hbody x) (hnext x _ ((hq _ _ (.ret _ _)).1 x rfl))
        have hkx := hkr r
        generalize k r = rest at hk hkx
        cases rest with
        | ret c' =>
          obtain ⟨rfl, rfl⟩ := Runs.ret_iff.mp hk
          have hc : g c = f x r := Prog.ret.inj hkx
          exact hc ▸ hend
        | op o' k' => cases hkx
        | call p' k' => cases hkx
    | op o' k' => cases hrest
    | call p' k' =>
      obtain ⟨rfl, hk'⟩ := Prog.call.inj hrest
      exact ihk (k' _) g (congrFun (eq_of_heq hk') _) fun r u hu => hq r u (.call hb hu)

/-- A loop: what an iteration makes of `J x` is `J` of the next iteration, or `Q`. -/
theorem loop
    (hbody : ∀ x, (M.body (p x) >>= fun r => .ret (f x r)) = next x >>= again p f a)
    (hnext : ∀ x s, J x s → Sound M bad t (next x)
      (fun r s' => (∀ y, r = some y → J y s') ∧ (r = none → Q a s')) s)
    {q : Prog I (Option ι)} (hq : Sound M bad t q
      (fun r s' => (∀ y, r = some y → J y s') ∧ (r = none → Q a s')) s) :
    Sound M bad t (q >>= again p f a) Q s := by
  constructor
  · intro o s' hc
    generalize hrest : q >>= again p f a = rest at hc
    induction hc generalizing q with
    | here =>
      cases q with
      | ret r => cases r <;> cases hrest
      | op o' k' =>
        cases hrest
        exact hq.safe _ _ .here
      | call p' k' => cases hrest
    | op he hk ih =>
      cases q with
      | ret r => cases r <;> cases hrest
      | op o' k' =>
        cases hrest
        exact ih (hq.of_op he) rfl
      | call p' k' => cases hrest
    | call hb ih =>
      cases q with
      | ret r =>
        cases r with
        | none => cases hrest
        | some x =>
          cases hrest
          exact ih (hnext x _ ((hq.post _ _ (.ret _ _)).1 x rfl)) (hbody x).symm
      | op o' k' => cases hrest
      | call p' k' =>
        cases hrest
        exact ih hq.of_call (Prog.bind_assoc ..)
  · intro b s' hr
    exact post_again hbody (fun x s hx => (hnext x s hx).post) hr q id (Prog.bind_ret _) hq.post

end loop

end Sound

end BourseServer.Concurrency
