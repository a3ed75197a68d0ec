import BourseServer.Concurrency.Program

/-!
# Interleavings of a thread pool

Any number of threads run over one shared state. Each step names the thread that moves and the
choice the outside world makes for it. A thread whose program has ended is idle, and the
environment may start a new program on it (a connection is accepted, a client makes a call).

A concrete run is given by a script, which says for how many steps each thread is driven on, so
it can be evaluated.
-/
namespace BourseServer.Concurrency

/-- A machine together with the programs the environment may start on an idle thread. -/
structure System (I : Interface) extends Machine I where
  Request : Type
  launch : Nat → Request → State → Option (Prog I Unit × State)

/-- The shared state and the rest of each thread's program. -/
structure Pool {I : Interface} (S : System I) where
  state : S.State
  prog : Nat → Prog I Unit

/-- Who moves next: a thread of the pool, or the environment that starts a program. -/
inductive Move {I : Interface} (S : System I) where
  | run (t : Nat) (e : S.Choice)
  | start (t : Nat) (q : S.Request)

namespace Pool

variable {I : Interface} {S : System I}

def step (c : Pool S) : Move S → Option (Pool S)
  | .run t e =>
    match S.step t e (c.prog t) c.state with
    | some (p, s) => some ⟨s, Function.update c.prog t p⟩
    | none => none
  | .start t q =>
    match c.prog t with
    | .ret _ =>
      match S.launch t q c.state with
      | some (p, s) => some ⟨s, Function.update c.prog t p⟩
      | none => none
    | _ => none

/-- The moves that satisfy `ok`. -/
def StepIf (ok : Pool S → Move S → Prop) (c c' : Pool S) : Prop :=
  ∃ m, ok c m ∧ c.step m = some c'

/-- What a run reaches from `c` with moves that satisfy `ok`. -/
def ReachIf (ok : Pool S → Move S → Prop) : Pool S → Pool S → Prop :=
  Relation.ReflTransGen (StepIf ok)

/-- What any run reaches from `c`. -/
def Reach : Pool S → Pool S → Prop := ReachIf fun _ _ => True

/-- Every thread is idle and the shared state is `s`. -/
def idle (s : S.State) : Pool S := ⟨s, fun _ => .ret ()⟩

/-- A run from `c` to `d` with moves that satisfy `ok`, and the pools it passes, newest first. -/
inductive Passes (ok : Pool S → Move S → Prop) (c : Pool S) : List (Pool S) → Pool S → Prop where
  | refl : Passes ok c [c] c
  | tail {cs : List (Pool S)} {d d' : Pool S} : Passes ok c cs d → StepIf ok d d' →
      Passes ok c (d' :: cs) d'

/-- Fewer conditions on the moves reach more. -/
theorem ReachIf.mono {ok ok' : Pool S → Move S → Prop} {c c' : Pool S}
    (h : ReachIf ok c c') (hok : ∀ d m, ok d m → ok' d m) : ReachIf ok' c c' :=
  Relation.ReflTransGen.mono (fun _ _ ⟨m, hm, hs⟩ => ⟨m, hok _ _ hm, hs⟩) _ _ h

/-- Everything a step can be: an action, a call, or a launch. -/
theorem step_cases {c c' : Pool S} {m : Move S} (h : c.step m = some c') :
    (∃ t e o k r, m = .run t e ∧ c.prog t = .op o k ∧ S.exec t o e c.state = .done r c'.state ∧
      c'.prog = Function.update c.prog t (k r)) ∨
    (∃ t e q k, m = .run t e ∧ c.prog t = .call q k ∧ c'.state = c.state ∧
      c'.prog = Function.update c.prog t (S.body q >>= k)) ∨
    ∃ t q p, m = .start t q ∧ c.prog t = .ret () ∧ S.launch t q c.state = some (p, c'.state) ∧
      c'.prog = Function.update c.prog t p := by
  cases m with
  | run t e =>
    cases hp : c.prog t with
    | ret a => simp [step, Machine.step, hp] at h
    | op o k =>
      cases he : S.exec t o e c.state with
      | done r s =>
        simp only [step, Machine.step, hp, he, Option.some.injEq] at h
        rw [← h]
        exact .inl ⟨t, e, o, k, r, rfl, hp, he, rfl⟩
      | wait => simp [step, Machine.step, hp, he] at h
      | fault => simp [step, Machine.step, hp, he] at h
    | call q k =>
      simp only [step, Machine.step, hp, Option.some.injEq] at h
      rw [← h]
      exact .inr (.inl ⟨t, e, q, k, rfl, hp, rfl, rfl⟩)
  | start t q =>
    simp only [step] at h
    split at h
    · rename_i hidle
      split at h
      · rename_i p s hlaunched
        cases h
        exact .inr (.inr ⟨t, q, p, rfl, hidle, hlaunched, rfl⟩)
      · cases h
    · cases h

/-- A step of a thread that is at an action performs it. -/
theorem exec_of_step {c c' : Pool S} {t : Nat} {e : S.Choice} {o : I.Op}
    {k : I.Reply o → Prog I Unit} (h : c.step (.run t e) = some c') (hp : c.prog t = .op o k) :
    ∃ r, S.exec t o e c.state = .done r c'.state ∧ c'.prog t = k r := by
  rcases step_cases h with ⟨u, e', o', k', r, hm, hp', he, hprog⟩ |
    ⟨u, e', q, k', hm, hp', _, _⟩ | ⟨u, q, p, hm, _, _, _⟩
  · cases hm
    rw [hp] at hp'
    cases hp'
    exact ⟨r, he, by rw [hprog, Function.update_self]⟩
  · cases hm
    rw [hp] at hp'
    cases hp'
  · cases hm

/-- A step changes the program of one thread. -/
theorem exists_prog_of_step {c c' : Pool S} {m : Move S} (h : c.step m = some c') :
    ∃ t p, ((∃ e, m = .run t e) ∨ ∃ q, m = .start t q) ∧ c'.prog = Function.update c.prog t p := by
  rcases step_cases h with ⟨t, e, _, _, _, hm, _, _, hprog⟩ | ⟨t, e, _, _, hm, _, _, hprog⟩ |
    ⟨t, q, _, hm, _, _, hprog⟩
  · exact ⟨t, _, .inl ⟨e, hm⟩, hprog⟩
  · exact ⟨t, _, .inl ⟨e, hm⟩, hprog⟩
  · exact ⟨t, _, .inr ⟨q, hm⟩, hprog⟩

theorem step_prog_of_ne {c c' : Pool S} {m : Move S} {t : Nat} (h : c.step m = some c')
    (ht : ∀ e, m ≠ .run t e) (ht' : ∀ q, m ≠ .start t q) : c'.prog t = c.prog t := by
  obtain ⟨u, p, hm, hprog⟩ := exists_prog_of_step h
  have hu : t ≠ u := by
    rintro rfl
    rcases hm with ⟨e, rfl⟩ | ⟨q, rfl⟩
    · exact ht e rfl
    · exact ht' q rfl
  rw [hprog, Function.update_of_ne hu]

/-- What every action and every launch preserves holds of the state of every pool reached. -/
theorem ReachIf.invariant {ok : Pool S → Move S → Prop} {P : S.State → Prop} {c c' : Pool S}
    (hexec : ∀ d t e o k r s, d.prog t = .op o k → ok d (.run t e) →
      S.exec t o e d.state = .done r s → P d.state → P s)
    (hlaunch : ∀ t q p s s', S.launch t q s = some (p, s') → P s → P s')
    (h : ReachIf ok c c') (hc : P c.state) : P c'.state := by
  induction h with
  | refl => exact hc
  | @tail d d' _ hstep ih =>
    obtain ⟨m, hm, hs⟩ := hstep
    rcases step_cases hs with ⟨t, e, o, k, r, rfl, hp, he, _⟩ | ⟨t, e, q, k, _, _, hsame, _⟩ |
      ⟨t, q, p, _, _, hlaunched, _⟩
    · exact hexec d t e o k r _ hp hm he ih
    · rw [hsame]
      exact ih
    · exact hlaunch t q p _ _ hlaunched ih

/-- What every program that is started has, and what goes over to its rest and to the bodies of
procedures, every thread's program has. -/
theorem Reach.forall_prog {F : Prog I Unit → Prop} {c c' : Pool S} (h : Reach c c')
    (hop : ∀ o k r, F (.op o k) → F (k r)) (hcall : ∀ q k, F (.call q k) → F (S.body q >>= k))
    (hlaunch : ∀ t q p s s', S.launch t q s = some (p, s') → F p) (hc : ∀ t, F (c.prog t)) :
    ∀ t, F (c'.prog t) := by
  induction h with
  | refl => exact hc
  | @tail d d' _ hstep ih =>
    obtain ⟨m, _, hs⟩ := hstep
    have hset : ∀ (u : Nat) (p : Prog I Unit), F p → ∀ t, F (Function.update d.prog u p t) := by
      intro u p hp t
      by_cases hu : t = u
      · rw [hu, Function.update_self]
        exact hp
      · rw [Function.update_of_ne hu]
        exact ih t
    rcases step_cases hs with ⟨u, _, o, k, r, _, hp, _, hprog⟩ | ⟨u, _, q, k, _, hp, _, hprog⟩ |
      ⟨u, q, p, _, _, hlaunched, hprog⟩
    · rw [hprog]
      exact hset u (k r) (hop o k r (hp ▸ ih u))
    · rw [hprog]
      exact hset u _ (hcall q k (hp ▸ ih u))
    · rw [hprog]
      exact hset u p (hlaunch u q p _ _ hlaunched)

/-- Only finitely many threads are not idle. -/
theorem ReachIf.idle_above {ok : Pool S → Move S → Prop} {c c' : Pool S} (h : ReachIf ok c c')
    (hc : ∃ n, ∀ t, n ≤ t → c.prog t = .ret ()) : ∃ n, ∀ t, n ≤ t → c'.prog t = .ret () := by
  induction h with
  | refl => exact hc
  | @tail d d' _ hstep ih =>
    obtain ⟨m, _, hs⟩ := hstep
    obtain ⟨n, hn⟩ := ih
    obtain ⟨u, p, _, hprog⟩ := exists_prog_of_step hs
    refine ⟨max n (u + 1), fun t ht => ?_⟩
    have hne : t ≠ u := by omega
    rw [hprog, Function.update_of_ne hne]
    exact hn t (by omega)

/-! ## Scripts -/

/-- How the outside world decides the steps of a concrete run, as long as it lets it go on. -/
structure Course (S : System I) where
  pick : Nat → I.Op → S.State → Option S.Choice
  start : Nat → S.Request → S.State → Bool

/-- The course makes moves that satisfy `ok` only. -/
structure Course.Within [Inhabited S.Choice] (w : Course S) (ok : Pool S → Move S → Prop) :
    Prop where
  op : ∀ {c : Pool S} {t o k e}, c.prog t = .op o k → w.pick t o c.state = some e →
    ok c (.run t e)
  call : ∀ {c : Pool S} {t p k}, c.prog t = .call p k → ok c (.run t default)
  start : ∀ {c : Pool S} {t q}, w.start t q c.state = true → ok c (.start t q)

/-- Thread `t` goes on by at most `n` steps. -/
def drive (w : Course S) (t n : Nat) (c : Pool S) : Pool S :=
  let (p, s) := S.drive (w.pick t) t n (c.prog t) c.state
  ⟨s, Function.update c.prog t p⟩

/-- A part of a script: a program is started, or a thread is driven on. -/
inductive Stage (S : System I) where
  | start (t : Nat) (q : S.Request)
  | drive (t n : Nat)

/-- The thread that a part of a script is about. -/
def Stage.thread : Stage S → Nat
  | .start t _ => t
  | .drive t _ => t

/-- The pool after a script, if its programs can be started. -/
def perform (w : Course S) : List (Stage S) → Pool S → Option (Pool S)
  | [], c => some c
  | .start t q :: l, c =>
    if w.start t q c.state then
      match c.step (.start t q) with
      | some c' => perform w l c'
      | none => none
    else none
  | .drive t n :: l, c => perform w l (c.drive w t n)

theorem drive_eq_self {w : Course S} {t n : Nat} {c : Pool S}
    (h : S.drive (w.pick t) t n (c.prog t) c.state = (c.prog t, c.state)) :
    c.drive w t n = c := by
  simp [drive, h]

/-- The pools that a list of moves passes after those in `cs`, newest first, if every move passes
the test. -/
def walk (test : Pool S → Move S → Bool) :
    List (Move S) → List (Pool S) → Pool S → Option (List (Pool S) × Pool S)
  | [], cs, d => some (cs, d)
  | m :: l, cs, d =>
    if test d m then
      match d.step m with
      | some d' => walk test l (d' :: cs) d'
      | none => none
    else none

theorem passes_of_walk {ok : Pool S → Move S → Prop} {test : Pool S → Move S → Bool}
    (htest : ∀ d m, test d m = true → ok d m) {c : Pool S} {l : List (Move S)}
    {cs cs' : List (Pool S)} {d d' : Pool S} (hc : Passes ok c cs d)
    (h : walk test l cs d = some (cs', d')) : Passes ok c cs' d' := by
  induction l generalizing cs d with
  | nil =>
    cases h
    exact hc
  | cons m l ih =>
    simp only [walk] at h
    split at h
    · rename_i hm
      split at h
      · rename_i d₁ hstep
        exact ih (hc.tail ⟨m, htest d m hm, hstep⟩) h
      · cases h
    · cases h

/-- A script leaves the threads alone that it does not name. -/
theorem perform_prog_of_forall_ne {w : Course S} {l : List (Stage S)} {c c' : Pool S} {t : Nat}
    (h : perform w l c = some c') (ht : ∀ a ∈ l, a.thread ≠ t) : c'.prog t = c.prog t := by
  induction l generalizing c with
  | nil =>
    obtain rfl := Option.some.inj h
    rfl
  | cons a l ih =>
    have hl : ∀ a ∈ l, a.thread ≠ t := fun a ha => ht a (List.mem_cons_of_mem _ ha)
    have hne := ht a List.mem_cons_self
    cases a with
    | start u q =>
      simp only [perform] at h
      split at h
      · split at h
        · rename_i d hd
          have hstep : d.prog t = c.prog t := by
            apply step_prog_of_ne hd (by simp)
            rintro q' heq
            cases heq
            exact hne rfl
          exact (ih h hl).trans hstep
        · cases h
      · cases h
    | drive u n =>
      exact (ih h hl).trans (Function.update_of_ne (Ne.symm hne) ..)

/-- Conditions on the moves that need an invariant, which the moves keep. -/
theorem ReachIf.of_invariant {ok ok' : Pool S → Move S → Prop} {J : Pool S → Prop}
    {c c' : Pool S} (h : ReachIf ok' c c') (hc : J c)
    (hstep : ∀ d m d', ok' d m → d.step m = some d' → J d → J d')
    (hok : ∀ d m, ok' d m → J d → ok d m) : ReachIf ok c c' ∧ J c' := by
  induction h with
  | refl => exact ⟨.refl, hc⟩
  | @tail d d' _ hs ih =>
    obtain ⟨m, hm, hs⟩ := hs
    obtain ⟨hr, hd⟩ := ih
    exact ⟨hr.tail ⟨m, hok d m hm hd, hs⟩, hstep d m d' hm hs hd⟩

variable [Inhabited S.Choice] {w : Course S} {ok : Pool S → Move S → Prop}

theorem reach_drive (hw : w.Within ok) (t n : Nat) (c : Pool S) :
    ReachIf ok c (c.drive w t n) := by
  induction n generalizing c with
  | zero =>
    rw [drive_eq_self (n := 0) rfl]
    exact .refl
  | succ n ih =>
    cases hp : c.prog t with
    | ret a =>
      rw [drive_eq_self (by simp [hp, Machine.drive])]
      exact .refl
    | op o k =>
      cases hpick : w.pick t o c.state with
      | none =>
        rw [drive_eq_self (by simp [hp, Machine.drive, hpick])]
        exact .refl
      | some e =>
        cases he : S.exec t o e c.state with
        | done r s =>
          have hstep : c.step (.run t e) = some ⟨s, Function.update c.prog t (k r)⟩ := by
            simp [Pool.step, Machine.step, hp, he]
          have hrest : c.drive w t (n + 1) =
              Pool.drive w t n ⟨s, Function.update c.prog t (k r)⟩ := by
            simp [drive, Machine.drive, hp, hpick, he]
          rw [hrest]
          exact .head ⟨_, hw.op hp hpick, hstep⟩ (ih _)
        | wait =>
          rw [drive_eq_self (by simp [hp, Machine.drive, hpick, he])]
          exact .refl
        | fault =>
          rw [drive_eq_self (by simp [hp, Machine.drive, hpick, he])]
          exact .refl
    | call q k =>
      have hstep : c.step (.run t default) =
          some ⟨c.state, Function.update c.prog t (S.body q >>= k)⟩ := by
        simp [Pool.step, Machine.step, hp]
      have hrest : c.drive w t (n + 1) =
          Pool.drive w t n ⟨c.state, Function.update c.prog t (S.body q >>= k)⟩ := by
        simp [drive, Machine.drive, hp]
      rw [hrest]
      exact .head ⟨_, hw.call hp, hstep⟩ (ih _)

theorem reach_of_perform (hw : w.Within ok) {l : List (Stage S)} {c c' : Pool S}
    (h : perform w l c = some c') : ReachIf ok c c' := by
  induction l generalizing c with
  | nil =>
    obtain rfl := Option.some.inj h
    exact .refl
  | cons a l ih =>
    cases a with
    | start t q =>
      simp only [perform] at h
      split at h
      · rename_i hq
        split at h
        · rename_i d hd
          exact .head ⟨_, hw.start hq, hd⟩ (ih h)
        · cases h
      · cases h
    | drive t n => exact (reach_drive hw t n c).trans (ih h)

/-- A script whose last pool passes a computable test reaches such a pool. -/
theorem exists_reach (hw : w.Within ok) (l : List (Stage S)) (c : Pool S)
    (test : Pool S → Bool) (h : (perform w l c).any test = true) :
    ∃ c', ReachIf ok c c' ∧ test c' = true := by
  cases hf : perform w l c with
  | none => simp [hf] at h
  | some c' => exact ⟨c', reach_of_perform hw hf, by simpa [hf] using h⟩

/-- The same, with what becomes of the threads that the script does not name. -/
theorem exists_reach_apart (hw : w.Within ok) (l : List (Stage S)) (c : Pool S)
    (test : Pool S → Bool) (h : (perform w l c).any test = true) :
    ∃ c', ReachIf ok c c' ∧ test c' = true ∧
      ∀ t, (∀ a ∈ l, a.thread ≠ t) → c'.prog t = c.prog t := by
  cases hf : perform w l c with
  | none => simp [hf] at h
  | some c' =>
    exact ⟨c', reach_of_perform hw hf, by simpa [hf] using h,
      fun t ht => perform_prog_of_forall_ne hf ht⟩

end Pool

end BourseServer.Concurrency
