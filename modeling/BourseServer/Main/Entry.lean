import BourseServer.Main.Startup

/-!
# Entering `terminate`

`terminate` has three ways in: the two checks of the arguments, which come before the modules are
initialised, and the handler, which is installed before them. So the registry and the exchange
are initialised at every entry only if the arguments are right and no signal arrives before the
start-up has come to the point where the exchange is set. `main` does not check what
`exchange_init` returns: after a failure no entry finds an exchange.
-/
namespace BourseServer

open Concurrency

variable {E : Exchange}

namespace Startup

/-- Both global pointers are set. -/
def Initialised (d : Startup E) : Prop := d.clientRegistry = true ∧ d.exchange = true

/-- The pointers are set in the order of `main`, before it allocates the first cell. -/
structure Ordered (d : Startup E) : Prop where
  registry : d.exchange = true → d.clientRegistry = true
  listening : d.listening = true → d.exchange = true
  connfdp : d.connfdp ≠ none → d.exchange = true

/-- A pointer that is set stays set. -/
structure Later (d d' : Startup E) : Prop where
  registry : d.clientRegistry = true → d'.clientRegistry = true
  exchange : d.exchange = true → d'.exchange = true

theorem Later.refl (d : Startup E) : Later d d := ⟨id, id⟩

theorem Later.trans {d d' d'' : Startup E} (h : Later d d') (h' : Later d' d'') : Later d d'' :=
  ⟨h'.registry ∘ h.registry, h'.exchange ∘ h.exchange⟩

/-- In runs that are `sound`, `terminate` is entered with both pointers set. In all of them
`exchange_init` succeeds. -/
def discipline (E : Exchange) (sound : Prop) : Discipline (startSystem E) Unit where
  inv w := Ordered w.state
  rely _ w w' := Later w.state w'.state
  rely_refl _ w := Later.refl w.state
  rely_trans h h' := h.trans h'
  assume _ o e _ := o = .inr .exchangeInit → e ≠ .failed
  safe _ o w := sound → ∀ status, o = .inr (.terminate status) → Initialised w.state
  pre _ _ _ := True
  post _ _ w _ w' := Later w.state w'.state
  idle _ _ := True

variable {sound : Prop} {t : Nat} {w w' : World (startSystem E) Unit}

/-- An assertion that is kept when more pointers are set. -/
def Lasting (P : Startup E → Prop) : Prop := ∀ {d d'}, Later d d' → P d → P d'

theorem Lasting.stable {P : Startup E → Prop} (h : Lasting P) :
    (discipline E sound).Stable t fun w => P w.state :=
  fun _ _ hl _ hw => h hl hw

theorem lasting_true : Lasting fun _ : Startup E => True := fun _ _ => trivial

theorem lasting_registry : Lasting fun d : Startup E => d.clientRegistry = true :=
  fun h => h.registry

theorem lasting_initialised : Lasting (Initialised (E := E)) :=
  fun h hd => ⟨h.registry hd.1, h.exchange hd.2⟩

theorem moves_of_later {s : Startup E} (hi : Ordered s) (hl : Later w.state s) :
    (discipline E sound).Moves t w (w.after t s ()) :=
  ⟨hi, fun _ _ => hl⟩

/-- An action of `main.c` other than the entry of `terminate`. -/
theorem triple_start {o : StartOp} {P : Startup E → Prop} {Q : o.Reply → Startup E → Prop}
    (hP : Lasting P) (hQ : ∀ r, Lasting (Q r)) (ho : ∀ status, o ≠ .terminate status)
    (h : ∀ e d r d', Ordered d → P d → execStart t o e d = .done r d' →
      (o = .exchangeInit → e ≠ .failed) → Ordered d' ∧ Later d d' ∧ Q r d') :
    (discipline E sound).Triple t (fun w => P w.state) (act o) fun r w => Q r w.state := by
  refine .act hP.stable (fun r => Lasting.stable (hQ r)) (fun w _ _ => ?_) ?_
  · rintro _ status heq
    exact absurd (Sum.inr.inj heq) (ho status)
  · intro w hi hw e r d' he hmade
    obtain ⟨hi', hl, hq⟩ := h e w.state r d' hi hw (exec_start he).2
      fun ho => hmade (congrArg Sum.inr ho)
    exact ⟨(), moves_of_later hi' hl, hq⟩

/-- Code of the process sets no pointer. -/
theorem triple_lift {α : Type} {P : Startup E → Prop} (hP : Lasting P) (p : MainCode α) :
    (discipline E sound).Triple t (fun w => P w.state) p.lift fun _ w => P w.state := by
  refine .lift_of_uses (A := fun _ => True) (C := fun _ => True) hP.stable ?_ ?_
    (Prog.uses_of_forall (fun _ => trivial) (fun _ => trivial) p)
  · intro o _
    refine .act hP.stable (fun _ => hP.stable) (fun w _ _ => ?_) ?_
    · rintro _ status heq
      cases heq
    · intro w hi hw e r d' he _
      obtain ⟨_, s, rfl⟩ := exec_process he
      have hl : Later w.state { w.state with proc := s } := ⟨id, id⟩
      exact ⟨(), moves_of_later ⟨hi.registry, hi.listening, hi.connfdp⟩ hl, hP hl hw⟩
  · intro p _
    exact .invoke hP.stable (fun _ => hP.stable) (fun _ _ _ => trivial)
      fun _ _ _ _ hw hl => hP hl hw

/-! ## The code of `main.c` -/

/-- Actions on cells, threads and connections set no pointer. -/
def ofCells : StartOp → Bool
  | .sigaction | .traderInit | .mallocCell | .connfdp | .accept => true
  | .storeCell .. | .createThread _ | .loadCell _ | .freeCell _ => true
  | _ => false

theorem execStart_ofCells {o : StartOp} {e : Choice E} {d d' : Startup E} {r : o.Reply}
    (ho : ofCells o = true) (h : execStart t o e d = .done r d') :
    d'.clientRegistry = d.clientRegistry ∧ d'.exchange = d.exchange ∧
      d'.listening = d.listening ∧ d'.connfdp = d.connfdp := by
  cases o
  case terminate => cases ho
  case cregInit => cases ho
  case exchangeInit => cases ho
  case openListenfd => cases ho
  case setConnfdp => cases ho
  all_goals
    simp only [execStart] at h
    repeat' split at h
    all_goals
      cases h
      try exact ⟨rfl, rfl, rfl, rfl⟩

theorem triple_ofCells {o : StartOp} {P : Startup E → Prop} (hP : Lasting P)
    (ho : ofCells o = true) :
    (discipline E sound).Triple t (fun w => P w.state) (act o) fun _ w => P w.state := by
  refine triple_start (Q := fun _ => P) hP (fun _ => hP) (by rintro _ rfl; cases ho) ?_
  intro e d r d' hi hd he _
  obtain ⟨hregistry, hexchange, hlistening, hconnfdp⟩ := execStart_ofCells ho he
  have hl : Later d d' := ⟨fun h => hregistry.trans h, fun h => hexchange.trans h⟩
  refine ⟨⟨fun h => ?_, fun h => ?_, fun h => ?_⟩, hl, hP hl hd⟩
  · exact hregistry.trans (hi.registry (hexchange.symm.trans h))
  · exact hexchange.trans (hi.listening (hlistening.symm.trans h))
  · rw [hconnfdp] at h
    exact hexchange.trans (hi.connfdp h)

/-- What is known when `terminate` is entered. -/
def Enters (sound : Prop) (d : Startup E) : Prop := sound → Initialised d

theorem lasting_enters : Lasting (Enters (E := E) sound) :=
  fun hl h hs => lasting_initialised hl (h hs)

theorem triple_terminate {status : Int} :
    (discipline E sound).Triple t (fun w => Enters sound w.state) (terminate status)
      fun _ _ => True := by
  refine .bind (Q := fun _ _ => True) ?_ fun _ => triple_lift lasting_true BourseServer.terminate
  refine .act lasting_enters.stable (fun _ => lasting_true.stable) (fun w _ hw => ?_) ?_
  · intro hs _ _
    exact hw hs
  · intro w hi _ e r d' he _
    obtain ⟨_, he⟩ := exec_start he
    cases he
    exact ⟨(), moves_of_later hi (Later.refl w.state), trivial⟩

theorem triple_sigupHandler :
    (discipline E sound).Triple t (fun w => Enters sound w.state) sigupHandler
      fun _ _ => True :=
  .bind (triple_ofCells lasting_enters rfl) fun _ =>
    .bind (triple_ofCells lasting_enters rfl) fun _ => triple_terminate

theorem triple_exitIf {bad : Prop} [Decidable bad] (hbad : bad → ¬ sound) :
    (discipline E sound).Triple t (fun _ => True) (exitIf bad) fun _ _ => True := by
  unfold exitIf
  split_ifs with h
  · exact triple_terminate.pre fun _ _ _ hs => absurd hs (hbad h)
  · exact .ret lasting_true.stable fun _ _ _ => trivial

theorem triple_main {argv : List String}
    (hargv : sound → argv.length = 3 ∧ argv[1]? = some "-p") :
    (discipline E sound).Triple t (fun _ => True) (main argv) fun _ _ => True := by
  refine .bind (triple_ofCells lasting_true rfl) fun _ => ?_
  refine .bind (triple_exitIf fun hbad hs => hbad (hargv hs).1) fun _ => ?_
  refine .bind (triple_exitIf fun hbad hs => hbad (hargv hs).2) fun _ => ?_
  have hregistry : (discipline E sound).Triple t (fun _ => True) (act .cregInit)
      fun _ w => w.state.clientRegistry = true := by
    refine triple_start (o := .cregInit) (Q := fun _ d => d.clientRegistry = true) lasting_true
      (fun _ => lasting_registry) (fun _ h => by cases h) ?_
    intro e d r d' hi _ he _
    cases he
    exact ⟨⟨fun _ => rfl, hi.listening, hi.connfdp⟩, ⟨fun _ => rfl, id⟩, rfl⟩
  have hexchange : (discipline E sound).Triple t (fun w => w.state.clientRegistry = true)
      (act .exchangeInit) fun _ w => Initialised w.state := by
    refine triple_start (o := .exchangeInit) (Q := fun _ => Initialised) lasting_registry
      (fun _ => lasting_initialised) (fun _ h => by cases h) ?_
    intro e d r d' hi hd he hmade
    simp only [execStart] at he
    split at he
    · exact absurd rfl (hmade rfl)
    · cases he
      exact ⟨⟨fun _ => hd, fun _ => rfl, fun _ => rfl⟩, ⟨id, fun _ => rfl⟩, hd, rfl⟩
  refine .bind hregistry fun _ => .bind hexchange fun _ => ?_
  refine .bind (triple_ofCells lasting_initialised rfl) fun _ => ?_
  refine triple_start (o := .openListenfd _) (Q := fun _ _ => True) lasting_initialised
    (fun _ => lasting_true) (fun _ h => by cases h) ?_
  intro e d r d' hi hd he _
  simp only [execStart] at he
  split at he
  · cases he
    exact ⟨⟨hi.registry, hi.listening, hi.connfdp⟩, ⟨id, id⟩, trivial⟩
  · cases he
    exact ⟨⟨hi.registry, fun _ => hd.2, hi.connfdp⟩, ⟨id, id⟩, trivial⟩

theorem triple_acceptTurn :
    (discipline E sound).Triple t (fun w => Initialised w.state) acceptTurn fun _ _ => True := by
  have hset : ∀ p, (discipline E sound).Triple t (fun w => Initialised w.state)
      (act (.setConnfdp p)) fun _ w => Initialised w.state := by
    intro p
    refine triple_start (o := .setConnfdp p) (Q := fun _ => Initialised) lasting_initialised
      (fun _ => lasting_initialised) nofun ?_
    intro e d r d' hi hd he _
    cases he
    exact ⟨⟨hi.registry, hi.listening, fun _ => hd.2⟩, ⟨id, id⟩, hd⟩
  refine .bind (triple_ofCells lasting_initialised rfl) fun cell => .bind (hset cell) fun _ => ?_
  refine .bind (triple_ofCells lasting_initialised rfl) fun fd => ?_
  refine .bind (triple_ofCells lasting_initialised rfl) fun p => ?_
  refine .bind (triple_ofCells lasting_initialised rfl) fun _ => ?_
  refine .bind (triple_ofCells lasting_initialised rfl) fun arg => ?_
  exact (triple_ofCells lasting_initialised rfl).post fun _ _ _ _ => trivial

theorem triple_clientThread {arg : Option Nat} :
    (discipline E sound).Triple t (fun _ => True) (clientThread arg) fun _ _ => True :=
  .bind (triple_ofCells lasting_true rfl) fun fd => .bind (triple_ofCells lasting_true rfl) fun _ =>
    triple_lift lasting_true (brsClientService fd).lift

/-! ## All interleavings -/

/-- The starts of sound runs: the arguments are right, and a signal finds both pointers set. -/
structure Allow (sound : Prop) (q : Request) (d : Startup E) : Prop where
  argv : sound → ∀ argv, q = .run argv → argv.length = 3 ∧ argv[1]? = some "-p"
  signal : sound → ∀ v, q = .signal v → d.exchange = true

theorem triple_launch {q : Request} {d d' : Startup E} {p : StartCode Unit}
    (h : launch t q d = some (p, d')) (hi : Ordered d) (ha : Allow sound q d)
    (hw : w.state = d') (hiw : Ordered w.state) :
    (discipline E sound).wp t p (fun _ _ => True) w := by
  cases q with
  | run argv =>
    obtain ⟨_, rfl, _, _⟩ := launch_run h
    exact triple_main (fun hs => ha.argv hs argv rfl) w hiw trivial
  | turn =>
    obtain ⟨_, hlistening, rfl, _⟩ := launch_turn h
    have hexchange : w.state.exchange = true := by
      rw [hw, (launch_frame h).2.1]
      exact hi.listening hlistening
    exact triple_acceptTurn w hiw ⟨hiw.registry hexchange, hexchange⟩
  | thread =>
    obtain ⟨arg, _, rfl, _, _⟩ := launch_thread h
    exact triple_clientThread w hiw trivial
  | server q =>
    obtain ⟨p', s, rfl, _, _⟩ := launch_server h
    exact triple_lift lasting_true p' w hiw trivial
  | signal v =>
    obtain ⟨_, _, _, rfl, _⟩ := launch_signal h
    refine triple_sigupHandler w hiw fun hs => ?_
    have hexchange : w.state.exchange = true := by
      rw [hw, (launch_frame h).2.1]
      exact ha.signal hs v rfl
    exact ⟨hiw.registry hexchange, hexchange⟩

theorem verified : (discipline E sound).Verified fun _ q d => Allow sound q d where
  body t p w hi _ := by
    have hlast : Lasting fun d => Later w.state d := fun hl h => h.trans hl
    exact triple_lift hlast (body p).lift w hi (Later.refl w.state)
  start t q w p s hi _ h ha := by
    obtain ⟨hregistry, hexchange, hlistening, hconnfdp⟩ := launch_frame h
    have hi' : Ordered s := by
      refine ⟨fun h => ?_, fun h => ?_, fun h => ?_⟩
      · exact hregistry.trans (hi.registry (hexchange.symm.trans h))
      · exact hexchange.trans (hi.listening (hlistening.symm.trans h))
      · rw [hconnfdp] at h
        exact hexchange.trans (hi.connfdp h)
    have hl : Later w.state s := ⟨fun h => hregistry.trans h, fun h => hexchange.trans h⟩
    exact ⟨(), moves_of_later hi' hl, triple_launch h hi ha rfl hi'⟩

/-- The runs in which `main` gets the arguments `argv`, `exchange_init` returns an exchange if
`made` and NULL if not, and signals arrive in states that satisfy `due`. -/
def runsWith (argv : List String) (made : Bool) (due : Startup E → Prop)
    (c : Pool (startSystem E)) : Move (startSystem E) → Prop
  | .run t e => ∀ k, c.prog t = .op (I := bourseProgram) (.inr .exchangeInit) k →
    (made = true ↔ e ≠ .failed)
  | .start _ (.run a) => a = argv
  | .start _ (.signal _) => due c.state
  | .start _ _ => True

/-- A thread that is about to enter `terminate` finds the registry and the exchange. -/
def EntersInitialised (c : Pool (startSystem E)) : Prop :=
  ∀ t status k, c.prog t = .op (.inr (.terminate status)) k → Initialised c.state

variable {argv : List String} {due : Startup E → Prop} {x : E.State} {n : Nat}
  {c c' : Pool (startSystem E)}

theorem step_start {q : Request} (h : c.step (.start t q) = some c') :
    ∃ p s, launch t q c.state = some (p, s) := by
  simp only [Pool.step] at h
  split at h
  · split at h
    · rename_i p s hl
      exact ⟨p, s, hl⟩
    · cases h
  · cases h

theorem holds_init : (discipline E sound).Holds (Pool.idle (Startup.init E x n)) := by
  refine Discipline.holds_idle (g := fun _ => ()) ⟨nofun, nofun, ?_⟩ fun _ _ _ _ => trivial
  exact fun h => absurd rfl h

theorem holds_of_reach (sound : Prop)
    (h : Pool.ReachIf (runsWith argv true due) (Pool.idle (Startup.init E x n)) c)
    (hargv : sound → argv.length = 3 ∧ argv[1]? = some "-p")
    (hdue : sound → ∀ c, Pool.ReachIf (runsWith argv true due) (Pool.idle (Startup.init E x n)) c →
      c.state.installed = true → c.state.proc.exited = false → due c.state →
        c.state.exchange = true) :
    (discipline E sound).Holds c := by
  induction h with
  | refl => exact holds_init
  | @tail d d' hr hstep ih =>
    obtain ⟨m, hm, hs⟩ := hstep
    cases m with
    | run t e =>
      refine Discipline.holds_run verified ih (fun o k hp => ?_) hs
      rintro rfl
      exact (hm k hp).mp rfl
    | start t q =>
      refine Discipline.holds_start verified ih ⟨?_, ?_⟩ hs
      · rintro hsound a rfl
        obtain rfl : a = argv := hm
        exact hargv hsound
      · rintro hsound v rfl
        obtain ⟨p, s, hl⟩ := step_start hs
        obtain ⟨hinstalled, hrunning, _⟩ := launch_signal hl
        exact hdue hsound d hr hinstalled hrunning hm

/-- There are threads that are idle, do not run `main` and have nothing to do with a signal. -/
theorem exists_unused {ok : Pool (startSystem E) → Move (startSystem E) → Prop}
    (h : Pool.ReachIf ok (Pool.idle (Startup.init E x n)) c) :
    ∃ m, ∀ t, m ≤ t → c.prog t = .ret () ∧ c.state.mainThread ≠ some t ∧
      ∀ p ∈ c.state.signals, p.1 ≠ t ∧ p.2 ≠ t := by
  have hstate : ∃ m, ∀ t, m ≤ t → c.state.mainThread ≠ some t ∧
      ∀ p ∈ c.state.signals, p.1 ≠ t ∧ p.2 ≠ t := by
    refine h.invariant (P := fun d : Startup E => ∃ m, ∀ t, m ≤ t → d.mainThread ≠ some t ∧
      ∀ p ∈ d.signals, p.1 ≠ t ∧ p.2 ≠ t) ?_ ?_ ⟨0, fun t _ => ⟨nofun, nofun⟩⟩
    · intro d t e o k r s _ _ he hd
      obtain ⟨hmain, hsignals⟩ := exec_threads he
      rwa [hmain, hsignals]
    · rintro t q p s s' hl ⟨m, hm⟩
      refine ⟨max m (t + 1 + match q with | .signal v => v | _ => 0), fun u hu => ?_⟩
      obtain ⟨hmain, hsignals⟩ := hm u (by omega)
      cases q with
      | run a =>
        obtain ⟨_, _, rfl, _⟩ := launch_run hl
        refine ⟨?_, hsignals⟩
        rintro ⟨⟩
        omega
      | turn =>
        obtain ⟨_, _, _, rfl⟩ := launch_turn hl
        exact ⟨hmain, hsignals⟩
      | thread =>
        obtain ⟨_, _, _, rfl, _⟩ := launch_thread hl
        exact ⟨hmain, hsignals⟩
      | server q =>
        obtain ⟨_, _, _, rfl, _⟩ := launch_server hl
        exact ⟨hmain, hsignals⟩
      | signal v =>
        obtain ⟨_, _, _, _, rfl⟩ := launch_signal hl
        refine ⟨hmain, fun p hp => ?_⟩
        rcases List.mem_cons.mp hp with rfl | hp
        · exact ⟨by dsimp only at hu ⊢; omega, by dsimp only at hu ⊢; omega⟩
        · exact hsignals p hp
  obtain ⟨m, hm⟩ := hstate
  obtain ⟨m', hm'⟩ := h.idle_above ⟨0, fun _ _ => rfl⟩
  exact ⟨max m m', fun t ht => ⟨hm' t (by omega), hm t (by omega)⟩⟩

/-- A thread that has nothing in its way takes a step. -/
theorem reach_act {made : Bool} {o : StartOp}
    {k : bourseProgram.Reply (.inr o) → StartCode Unit} {e : Choice E} {r : o.Reply} {s : Startup E}
    (ho : o ≠ .exchangeInit) (hp : c.prog t = .op (I := bourseProgram) (.inr o) k)
    (hrun : c.state.stopped t = false) (he : execStart t o e c.state = .done r s) :
    Pool.ReachIf (runsWith argv made due) c ⟨s, Function.update c.prog t (k r)⟩ := by
  have hexec : c.state.exec t (.inr o) e = .done r s := by
    simpa [exec, hrun] using he
  refine .single ⟨.run t e, fun k' hk' => ?_, ?_⟩
  · obtain ⟨ho', _⟩ := Prog.op.inj (hp.symm.trans hk')
    exact absurd (Sum.inr.inj ho') ho
  · simp [Pool.step, hp, Machine.step, hexec]

/-- One of the two checks enters `terminate`. -/
theorem exitIf_enters (hargv : ¬ (argv.length = 3 ∧ argv[1]? = some "-p"))
    (f : Unit → StartCode Unit) :
    ∃ k, (exitIf (argv.length ≠ 3) >>= fun _ => exitIf (argv[1]? ≠ some "-p") >>= f) =
      .op (I := bourseProgram) (.inr (.terminate 1)) k := by
  unfold exitIf
  by_cases hlen : argv.length = 3
  · rw [if_neg (not_not.mpr hlen), if_pos fun h => hargv ⟨hlen, h⟩]
    exact ⟨_, rfl⟩
  · rw [if_pos hlen]
    exact ⟨_, rfl⟩

/-- With other arguments `main` enters `terminate` before anything is initialised. -/
theorem enters_of_bad_argv (made : Bool) (due : Startup E → Prop)
    (hargv : ¬ (argv.length = 3 ∧ argv[1]? = some "-p")) :
    ∃ c, Pool.ReachIf (runsWith argv made due) (Pool.idle (Startup.init E x n)) c ∧
      ¬ EntersInitialised c := by
  have hstart : Pool.ReachIf (runsWith argv made due) (Pool.idle (Startup.init E x n))
      ⟨{ Startup.init E x n with mainThread := some 0 },
        Function.update (fun _ => .ret ()) 0 (main argv)⟩ :=
    .single ⟨.start 0 (.run argv), rfl, rfl⟩
  have hinstall := hstart.trans (reach_act (o := .sigaction) (t := 0) (e := .tick) (r := ())
    (by decide) (by dsimp only; rw [Function.update_self]; rfl) rfl rfl)
  obtain ⟨k, hk⟩ := exitIf_enters hargv fun _ => do
    act .cregInit
    act .exchangeInit
    act .traderInit
    act (.openListenfd (argv.getD 2 ""))
  refine ⟨_, hinstall, fun h => ?_⟩
  have hset := h 0 1 k (by dsimp only; rw [Function.update_self]; exact hk)
  cases hset.2

/-- A signal that arrives too early makes the handler enter `terminate` too early. -/
theorem enters_of_early_signal
    (h : Pool.ReachIf (runsWith argv true due) (Pool.idle (Startup.init E x n)) c)
    (hinstalled : c.state.installed = true) (hrunning : c.state.proc.exited = false)
    (hdue : due c.state) (hearly : c.state.exchange = false) :
    ∃ c, Pool.ReachIf (runsWith argv true due) (Pool.idle (Startup.init E x n)) c ∧
      ¬ EntersInitialised c := by
  obtain ⟨g, hi, _⟩ := holds_of_reach False h False.elim False.elim
  have hnull : c.state.connfdp = none := by
    by_contra hcell
    have hset := hi.connfdp hcell
    rw [hearly] at hset
    cases hset
  obtain ⟨m, hm⟩ := exists_unused h
  obtain ⟨hidle, hmain, hsignals⟩ := hm m le_rfl
  obtain ⟨_, _, hvictim⟩ := hm (m + 1) (by omega)
  have hlaunch : launch m (.signal (m + 1)) c.state =
      some (sigupHandler, { c.state with signals := (m + 1, m) :: c.state.signals }) := by
    simp only [launch]
    rw [if_neg, if_pos]
    · refine ⟨hinstalled, hrunning, by omega, hmain, ?_⟩
      simpa using hvictim
    · simpa using fun p hp => (hsignals (p, m) hp).2 rfl
  have hstart : Pool.ReachIf (runsWith argv true due) c
      ⟨{ c.state with signals := (m + 1, m) :: c.state.signals },
        Function.update c.prog m sigupHandler⟩ := by
    refine .single ⟨.start m (.signal (m + 1)), hdue, ?_⟩
    simp only [Pool.step, hidle, hlaunch]
  have hstop : ({ c.state with signals := (m + 1, m) :: c.state.signals } : Startup E).stopped m =
      false := by
    simp only [stopped, hrunning, Bool.false_or, List.any_cons]
    simpa using fun p q hp => (hsignals (p, q) hp).1
  have hload := hstart.trans (reach_act (o := .connfdp) (t := m) (e := .tick)
    (by decide) (Function.update_self ..) hstop rfl)
  have hfree := hload.trans (reach_act (o := .freeCell none) (t := m) (e := .tick) (r := ())
    (by decide) ((Function.update_self ..).trans (by dsimp only; rw [hnull]; rfl))
    hstop rfl)
  refine ⟨_, h.trans hfree, fun hall => ?_⟩
  have hprog := hall m 0 _ (Function.update_self ..)
  have hset := hprog.2
  dsimp only at hset
  rw [hearly] at hset
  cases hset

/-- While `exchange_init` returns NULL, no entry of `terminate` finds an exchange. -/
theorem exchange_of_not_made
    (h : Pool.ReachIf (runsWith argv false due) (Pool.idle (Startup.init E x n)) c) :
    c.state.exchange = false := by
  refine h.invariant (P := fun d : Startup E => d.exchange = false) ?_ ?_ rfl
  · intro d t e o k r s hp hm he hd
    cases o with
    | inl o =>
      obtain ⟨_, s, rfl⟩ := exec_process he
      exact hd
    | inr o =>
      obtain ⟨_, he⟩ := exec_start he
      cases o with
      | exchangeInit =>
        have hnull : e = .failed := by
          by_contra hne
          cases (hm k hp).mpr hne
        subst hnull
        cases he
        exact hd
      | _ =>
        simp only [execStart] at he
        repeat' split at he
        all_goals
          cases he
          try exact hd
  · intro t q p s s' hl hd
    rw [(launch_frame hl).2.1]
    exact hd

/-- If `exchange_init` succeeds, every entry of `terminate` finds the registry and the exchange
initialised, in all runs with the arguments `argv` and signals that arrive when `due`, if and only
if the arguments are right and no signal is due between the installation of the handler and the
initialisation of the exchange. If it fails, no entry does. -/
theorem terminate_initialised_iff :
    ((∀ c, Pool.ReachIf (runsWith argv true due) (Pool.idle (Startup.init E x n)) c →
      EntersInitialised c) ↔
    (argv.length = 3 ∧ argv[1]? = some "-p") ∧
      ∀ c, Pool.ReachIf (runsWith argv true due) (Pool.idle (Startup.init E x n)) c →
        c.state.installed = true → c.state.proc.exited = false → due c.state →
          c.state.exchange = true) ∧
    ∀ c, Pool.ReachIf (runsWith argv false due) (Pool.idle (Startup.init E x n)) c →
      ∀ t status k, c.prog t = .op (.inr (.terminate status)) k → ¬ Initialised c.state := by
  refine ⟨⟨fun h => ⟨?_, ?_⟩, ?_⟩, ?_⟩
  · by_contra hargv
    obtain ⟨c, hc, hbad⟩ := enters_of_bad_argv true due hargv (x := x) (n := n)
    exact hbad (h c hc)
  · intro c hc hinstalled hrunning hdue
    by_contra hearly
    obtain ⟨c', hc', hbad⟩ := enters_of_early_signal hc hinstalled hrunning hdue
      (by simpa using hearly)
    exact hbad (h c' hc')
  · rintro ⟨hargv, hdue⟩ c hc t status k hp
    obtain ⟨g, _, hsafe, _⟩ := (holds_of_reach True hc (fun _ => hargv) fun _ => hdue).safe
    exact hsafe t _ k hp trivial status rfl
  · intro c hc t status k _ hinit
    have hnull := exchange_of_not_made hc
    rw [hinit.2] at hnull
    cases hnull

/-- `bourse` without arguments enters `terminate` with both pointers NULL. -/
theorem terminate_without_arguments :
    ∃ c : Pool (startSystem (.fixed 1 1)),
      Pool.ReachIf (runsWith ["bourse"] true fun _ => False) (Pool.idle (Startup.init _ () 4)) c ∧
        ¬ EntersInitialised c :=
  enters_of_bad_argv _ _ (by decide)

end Startup

end BourseServer
