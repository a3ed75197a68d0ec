import BourseServer.Concurrency.Extension

/-!
# Typestates

A typestate is what a thread's own program makes of it: which locks it has taken, how many calls
are active, whether it has opened a file. It says which actions may come next and how each of them
changes the state. In contrast to an assertion of a discipline it is not about the shared state,
so that a program is checked by following its text, whatever the other threads do.

What a typestate has to do with the shared state is a link, which every step of a run keeps. The
threads of every pool that is reached then follow their typestates, and the link holds.
-/
namespace BourseServer.Concurrency

variable {I : Interface} {Y α β : Type}

structure Typestate (I : Interface) (Y : Type) where
  /-- The actions that a thread may take next. -/
  allow : Y → I.Op → Prop
  /-- The state after an action with this reply. There is none if runs with this reply are not
  looked at. -/
  next : Y → (o : I.Op) → I.Reply o → Option Y
  pre : I.Proc → Y → Prop
  post : (p : I.Proc) → Y → I.Result p → Y → Prop

namespace Typestate

variable (T : Typestate I Y)

/-- Started in the given state, the program takes allowed actions only and ends with `Q`. -/
def Follows : Prog I α → (α → Y → Prop) → Y → Prop
  | .ret a, Q, y => Q a y
  | .op o k, Q, y => T.allow y o ∧ ∀ r y', T.next y o r = some y' → Follows (k r) Q y'
  | .call p k, Q, y => T.pre p y ∧ ∀ r y', T.post p y r y' → Follows (k r) Q y'

variable {T} {y : Y}

theorem Follows.mono {p : Prog I α} {Q R : α → Y → Prop} (h : T.Follows p Q y)
    (hQ : ∀ a y', Q a y' → R a y') : T.Follows p R y := by
  induction p generalizing y with
  | ret a => exact hQ a y h
  | op o k ih => exact ⟨h.1, fun r y' hn => ih r (h.2 r y' hn)⟩
  | call q k ih => exact ⟨h.1, fun r y' hn => ih r (h.2 r y' hn)⟩

/-- Sequential composition. -/
theorem Follows.bind {p : Prog I α} {f : α → Prog I β} {Q : α → Y → Prop} {R : β → Y → Prop}
    (h : T.Follows p Q y) (hf : ∀ a y', Q a y' → T.Follows (f a) R y') :
    T.Follows (p >>= f) R y := by
  induction p generalizing y with
  | ret a => exact hf a y h
  | op o k ih => exact ⟨h.1, fun r y' hn => ih r (h.2 r y' hn)⟩
  | call q k ih => exact ⟨h.1, fun r y' hn => ih r (h.2 r y' hn)⟩

theorem follows_act {o : I.Op} {Q : I.Reply o → Y → Prop} (h : T.allow y o)
    (hQ : ∀ r y', T.next y o r = some y' → Q r y') : T.Follows (.act o) Q y :=
  ⟨h, hQ⟩

theorem follows_invoke {p : I.Proc} {Q : I.Result p → Y → Prop} (h : T.pre p y)
    (hQ : ∀ r y', T.post p y r y' → Q r y') : T.Follows (.invoke p) Q y :=
  ⟨h, hQ⟩

/-- An action that leads to the state `y'`, whatever the reply. -/
theorem follows_step {o : I.Op} {f : I.Reply o → Prog I α} {Q : α → Y → Prop} (y' : Y)
    (h : T.allow y o) (hn : ∀ r, T.next y o r = some y') (hf : ∀ r, T.Follows (f r) Q y') :
    T.Follows (.act o >>= f) Q y := by
  refine ⟨h, fun r y'' hr => ?_⟩
  obtain rfl := Option.some.inj ((hn r).symm.trans hr)
  exact hf r

/-- A search whose body finds something with `Q` or leaves `A`. -/
theorem follows_searchFrom {body : Nat → Prog I (Option α)} {A : Y → Prop}
    {Q : Option α → Y → Prop} {n : Nat} : ∀ {i : Nat} {y : Y}, A y →
      (∀ j y, A y → T.Follows (body j) (fun r y' =>
        match r with
        | some a => Q (some a) y'
        | none => A y') y) →
      (∀ y, A y → Q none y) → T.Follows (.searchFrom body n i) Q y := by
  induction n with
  | zero => exact fun hA _ hend => hend _ hA
  | succ n ih =>
    intro i y hA hbody hend
    refine (hbody i y hA).bind fun r y' hr => ?_
    cases r with
    | some a => exact hr
    | none => exact ih hr hbody hend

theorem follows_search {body : Nat → Prog I (Option α)} {A : Y → Prop}
    {Q : Option α → Y → Prop} {n : Nat} (hA : A y)
    (hbody : ∀ j y, A y → T.Follows (body j) (fun r y' =>
      match r with
      | some a => Q (some a) y'
      | none => A y') y)
    (hend : ∀ y, A y → Q none y) : T.Follows (.search n body) Q y :=
  follows_searchFrom hA hbody hend

/-! ## Further actions -/

/-- The same typestate where programs take none of the further actions. -/
def extend (T : Typestate I Y) (X : Type) (R : X → Type) : Typestate (I.extend X R) Y where
  allow y
    | .inl o => T.allow y o
    | .inr _ => False
  next y
    | .inl o => T.next y o
    | .inr _ => fun _ => none
  pre := T.pre
  post := T.post

theorem Follows.lift {X : Type} {R : X → Type} {p : Prog I α} {Q : α → Y → Prop}
    (h : T.Follows p Q y) : (T.extend X R).Follows p.lift Q y := by
  induction p generalizing y with
  | ret a => exact h
  | op o k ih => exact ⟨h.1, fun r y' hn => ih r (h.2 r y' hn)⟩
  | call q k ih => exact ⟨h.1, fun r y' hn => ih r (h.2 r y' hn)⟩

/-! ## Runs -/

/-- All procedures do what is said of them, and every step of the runs under consideration keeps
the link `J` between the shared state and the states of the threads. Threads end, and begin,
with `last`. -/
structure Sound (T : Typestate I Y) (S : System I) (ok : Pool S → Move S → Prop)
    (J : S.State → (Nat → Y) → Prop) (last : Y → Prop) : Prop where
  body : ∀ p y, T.pre p y → T.Follows (S.body p) (T.post p y) y
  act : ∀ {c : Pool S} {y : Nat → Y} {t e o k r s}, J c.state y → ok c (.run t e) →
    c.prog t = .op o k → T.allow (y t) o → S.exec t o e c.state = .done r s →
    ∃ y', T.next (y t) o r = some y' ∧ J s (Function.update y t y')
  start : ∀ {c : Pool S} {y : Nat → Y} {t q p s}, J c.state y → ok c (.start t q) →
    c.prog t = .ret () → last (y t) → S.launch t q c.state = some (p, s) →
    ∃ y', T.Follows p (fun _ => last) y' ∧ J s (Function.update y t y')

/-- The link holds, and what is left of each thread's program follows the typestate. -/
def Typed {S : System I} (T : Typestate I Y) (J : S.State → (Nat → Y) → Prop)
    (last : Y → Prop) (c : Pool S) : Prop :=
  ∃ y, J c.state y ∧ ∀ t, T.Follows (c.prog t) (fun _ => last) (y t)

variable {S : System I} {ok : Pool S → Move S → Prop} {J : S.State → (Nat → Y) → Prop}
  {last : Y → Prop} {c c' : Pool S}

/-- Thread `t` has moved, and goes on with the program `p`. -/
theorem typed_update {s : S.State} {y : Nat → Y} {t : Nat} {y' : Y} {p : Prog I Unit}
    (h : ∀ u, T.Follows (c.prog u) (fun _ => last) (y u)) (hJ : J s (Function.update y t y'))
    (hp : T.Follows p (fun _ => last) y') :
    Typed T J last (⟨s, Function.update c.prog t p⟩ : Pool S) := by
  refine ⟨Function.update y t y', hJ, fun u => ?_⟩
  change T.Follows (Function.update c.prog t p u) _ _
  by_cases hu : u = t
  · subst hu
    simpa using hp
  · simpa [hu] using h u

theorem Sound.step (hT : T.Sound S ok J last) {m : Move S} (h : Typed T J last c)
    (hm : ok c m) (hs : c.step m = some c') : Typed T J last c' := by
  obtain ⟨y, hJ, hprog⟩ := h
  have hc' : c' = ⟨c'.state, c'.prog⟩ := rfl
  rcases Pool.step_cases hs with ⟨t, e, o, k, r, rfl, hp, he, heq⟩ |
    ⟨t, e, q, k, rfl, hp, hsame, heq⟩ | ⟨t, q, p, rfl, hp, hl, heq⟩
  · have ht := hprog t
    rw [hp] at ht
    obtain ⟨y', hn, hJ'⟩ := hT.act hJ hm hp ht.1 he
    rw [hc', heq]
    exact typed_update hprog hJ' (ht.2 r y' hn)
  · have ht := hprog t
    rw [hp] at ht
    have hsame' : J c'.state (Function.update y t (y t)) := by
      rwa [Function.update_eq_self, hsame]
    rw [hc', heq]
    exact typed_update hprog hsame' ((hT.body q (y t) ht.1).bind ht.2)
  · have ht := hprog t
    rw [hp] at ht
    obtain ⟨y', hf, hJ'⟩ := hT.start hJ hm hp ht hl
    rw [hc', heq]
    exact typed_update hprog hJ' hf

/-- Every pool that is reached is typed. Of the pools on the way, something else may be known. -/
theorem Sound.reach {K : Pool S → Prop} (hT : T.Sound S (fun d m => ok d m ∧ K d) J last)
    (h : Typed T J last c) (hr : Pool.ReachIf ok c c') (hK : ∀ d, Pool.ReachIf ok c d → K d) :
    Typed T J last c' := by
  induction hr with
  | refl => exact h
  | @tail d _ hd hstep ih =>
    obtain ⟨m, hm, hs⟩ := hstep
    exact hT.step ih ⟨hm, hK d hd⟩ hs

end Typestate

end BourseServer.Concurrency
