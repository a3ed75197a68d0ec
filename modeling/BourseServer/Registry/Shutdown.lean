import BourseServer.Registry.Runs

/-!
# The shutdown of the server

`terminate` shuts all registered connections down, waits for the registry to be empty, and frees
it. None of the three steps keeps new clients out, and a client gives its slot back only after it
has woken the waiter. So the shutdown is clean only in runs whose steps meet a condition: nobody
registers after the sweep; nobody is inside the registry, or on the way to it, when it is freed;
and the signal interrupts a thread that the handler does not have to wait for.
-/
namespace BourseServer

open Concurrency Registry

variable {E : Exchange}

/-- The server's own threads and the handler run, and no other thread calls the registry. -/
def OfServer (q : Process.Request) : Prop := ∀ c, q ≠ .call c

/-- All runs of the server. -/
def serverRuns (_ : Pool (mainSystem E)) : Move (mainSystem E) → Prop
  | .run _ _ => True
  | .start _ q => OfServer q

/-- No call of `creg_register` stores its descriptor after `creg_shutdown_all` has given the
mutex back. -/
def sweptRuns (c : Pool (mainSystem E)) : Move (mainSystem E) → Prop
  | .run t _ => ∀ i fd k, c.prog t = .op (.inl (.setRegFd i fd)) k → fd ≠ -1 →
      c.state.swept = false
  | .start _ q => OfServer q

/-- When `creg_fini` frees a block, all slots are free and no service thread has yet to begin to
register; and no connection is accepted after that. -/
def drainedRuns (c : Pool (mainSystem E)) : Move (mainSystem E) → Prop
  | .run t _ => ∀ b k, c.prog t = .op (.inr (.free b)) k →
      c.state.server.registry.sem .slots = c.state.server.registry.n ∧
        ∀ u, c.state.expected u = false
  | .start _ q => OfServer q ∧
      ∀ fd input ended, q = .server (.accept fd input ended) → c.state.Intact

/-- The signal does not interrupt a service thread that holds the registry's mutex or whose
descriptor is registered. -/
def asideRuns (c : Pool (mainSystem E)) : Move (mainSystem E) → Prop
  | .run _ _ => True
  | .start _ q => OfServer q ∧ ∀ t, q = .signal (.service t) →
      c.state.holder ≠ some t ∧ ∀ fd, c.state.Entry fd → c.state.users fd ≠ some t

namespace Registry

/-- Runs of the server, with the conditions that hold in them. -/
def serverWatch (late early aside : Prop) : Watch where
  servers := True
  waiting := True
  late := late
  early := early
  aside := aside
  waiting_of_servers := id
  servers_of_late _ := trivial
  servers_of_early _ := trivial

/-- The moves of the server's runs meet the conditions that are looked at. -/
theorem watched_server {late early aside : Prop} {c : Pool (mainSystem E)}
    {m : Move (mainSystem E)} (hserver : serverRuns c m) (hlate : late → sweptRuns c m)
    (hearly : early → drainedRuns c m) (haside : aside → asideRuns c m) :
    Watched E (serverWatch late early aside) c m := by
  cases m with
  | run t e =>
    intro o k hop
    constructor
    case late =>
      rintro hW i fd rfl
      exact hlate hW i fd k hop
    case early =>
      rintro hW b rfl
      exact hearly hW b k hop
  | start t q =>
    constructor
    case register => exact fun fd hq => absurd hq (hserver _)
    case unregister => exact fun fd hq => absurd hq (hserver _)
    case servers => exact ⟨fun _ => hserver, fun _ => trivial⟩
    case waiting => exact fun _ => trivial
    case early => exact fun hW => (hearly hW).2
    case aside => exact fun hW => (haside hW).2

end Registry

/-! ## The sweep -/

/-- After the sweep, every registered descriptor has been shut down for reading, in runs in which
nobody registers after it. -/
theorem registered_shut_down {x : E.State} {n : Nat} {c : Pool (mainSystem E)}
    (h : Pool.ReachIf sweptRuns (Pool.idle (Process.init E x n)) c)
    (hswept : c.state.swept = true) {fd : Int} (hfd : c.state.Entry fd) :
    c.state.ShutDown fd := by
  have hserver : ∀ (d : Pool (mainSystem E)) m, sweptRuns d m → serverRuns d m := by
    intro d m hm
    cases m with
    | run t e => trivial
    | start t q => exact hm
  have hreach : Pool.ReachIf (Watched E (serverWatch True False False)) _ c :=
    h.mono fun d m hm => watched_server (hserver d m hm) (fun _ => hm) False.elim False.elim
  obtain ⟨g, hg⟩ := settled hreach
  exact hg.inv.shut trivial hswept fd hfd

def fromServer : Process.Request → Bool
  | .call _ => false
  | _ => true

theorem ofServer_of_fromServer {q : Process.Request} (h : fromServer q = true) : OfServer q := by
  rintro c rfl
  cases h

/-- The server before the first connection, with room for two clients. -/
def freshServer : Pool (mainSystem (.fixed 1 1)) := Pool.idle (Process.init (.fixed 1 1) () 2)

def anyCourse : Pool.Course (mainSystem (.fixed 1 1)) :=
  smoothProcess (E := .fixed 1 1) () () (fun _ _ _ => true) fun _ q _ => fromServer q

theorem anyCourse_within : anyCourse.Within serverRuns :=
  smoothProcess_within (fun _ _ _ _ _ _ => trivial) (fun _ _ _ _ _ => trivial)
    fun _ _ _ hq => ofServer_of_fromServer hq

/-- A client is accepted before the sweep and registers after it. -/
theorem late_client_missed : ∃ c : Pool (mainSystem (.fixed 1 1)),
    Pool.ReachIf serverRuns freshServer c ∧ c.state.swept = true ∧
      ∃ fd, c.state.Entry fd ∧ ¬ c.state.ShutDown fd := by
  obtain ⟨c, hc, ht⟩ := Pool.exists_reach anyCourse_within
    [.start 0 (.server (.accept 3 [] false)), .start 1 (.signal .main), .drive 1 9, .drive 0 12]
    freshServer
    (fun c => c.state.swept ∧ 0 < c.state.server.registry.n ∧
      c.state.server.registry.fds 0 = 3 ∧ (c.state.server.conns 3).all fun conn => !conn.shut)
    (by decide +kernel)
  obtain ⟨hswept, hn, hfd, hopen⟩ := of_decide_eq_true ht
  refine ⟨c, hc, hswept, 3, ⟨by decide, 0, hn, hfd⟩, ?_⟩
  rintro ⟨conn, hconn, hshut⟩
  rw [hconn] at hopen
  simp [hshut] at hopen

/-- The smooth course without a late registration. -/
def sweptCourse : Pool.Course (mainSystem (.fixed 1 1)) :=
  smoothProcess (E := .fixed 1 1) () () (fun _ o d =>
    match o with
    | .inl (.setRegFd _ fd) => decide (fd = -1) || !d.swept
    | _ => true) fun _ q _ => fromServer q

theorem sweptCourse_within : sweptCourse.Within sweptRuns := by
  refine smoothProcess_within ?_ ?_ fun _ _ _ hq => ofServer_of_fromServer hq
  · intro c t o k hop hguard i fd k' hop' hne
    rw [hop] at hop'
    cases hop'
    simpa [hne] using hguard
  · intro c t p k hp i fd k' hop'
    rw [hp] at hop'
    cases hop'

theorem registered_shut_down_one : ∃ c : Pool (mainSystem (.fixed 1 1)),
    c.state.swept = true ∧ c.state.Entry 3 ∧ c.state.ShutDown 3 := by
  obtain ⟨c, hc, ht⟩ := Pool.exists_reach sweptCourse_within
    [.start 0 (.server (.accept 3 [] false)), .drive 0 40, .start 1 (.signal .main), .drive 1 9]
    freshServer
    (fun c => c.state.swept ∧ 0 < c.state.server.registry.n ∧
      c.state.server.registry.fds 0 = 3)
    (by decide +kernel)
  obtain ⟨hswept, hn, hfd⟩ := of_decide_eq_true ht
  have hentry : c.state.Entry 3 := ⟨by decide, 0, hn, hfd⟩
  exact ⟨c, hswept, hentry, registered_shut_down hc hswept hentry⟩

/-! ## The end of the registry -/

/-- Nobody is about to access a freed registry, in runs in which it is freed when nobody needs
it any more. -/
theorem freed_untouched {x : E.State} {n : Nat} {c : Pool (mainSystem E)}
    (h : Pool.ReachIf drainedRuns (Pool.idle (Process.init E x n)) c) {t : Nat} {o : Op}
    {k : o.Reply → MainCode Unit} (hop : c.prog t = .op (.inl o) k)
    (ho : o.ofRegistry = true) : c.state.Intact := by
  have hserver : ∀ (d : Pool (mainSystem E)) m, drainedRuns d m → serverRuns d m := by
    intro d m hm
    cases m with
    | run t e => trivial
    | start t q => exact hm.1
  have hreach : Pool.ReachIf (Watched E (serverWatch False True False)) _ c :=
    h.mono fun d m hm => watched_server (hserver d m hm) False.elim (fun _ => hm) False.elim
  obtain ⟨g, hg⟩ := settled hreach
  exact (hg.safe t (.inl o) k hop).intact trivial o rfl ho

/-- The action accesses the registry. -/
def touches : process.Op → Bool
  | .inl o => o.ofRegistry
  | _ => false

theorem exists_of_touches {p : MainCode Unit} (h : p.atOp touches = true) :
    ∃ (o : Op) (k : o.Reply → MainCode Unit), p = .op (.inl o) k ∧ o.ofRegistry = true := by
  obtain ⟨o, k, rfl, ho⟩ := Prog.exists_of_atOp h
  cases o with
  | inl o => exact ⟨o, k, rfl, ho⟩
  | inr o => cases ho

/-- The last client wakes the handler, which frees the registry before the client has given the
mutex and its slot back. -/
theorem freed_under_client : ∃ (c : Pool (mainSystem (.fixed 1 1))) (o : Op)
    (k : o.Reply → MainCode Unit), Pool.ReachIf serverRuns freshServer c ∧
      c.prog 0 = .op (.inl o) k ∧ o.ofRegistry = true ∧ ∀ b, c.state.freed b = true := by
  obtain ⟨c, hc, ht⟩ := Pool.exists_reach anyCourse_within
    [.start 0 (.server (.accept 3 [] false)), .drive 0 40, .start 1 (.signal .main),
      .drive 1 30, .drive 0 11, .drive 1 4]
    freshServer
    (fun c => (c.prog 0).atOp touches ∧ c.state.freed .fds ∧ c.state.freed .registry)
    (by decide +kernel)
  obtain ⟨htouches, hfds, hregistry⟩ := of_decide_eq_true ht
  obtain ⟨o, k, hop, ho⟩ := exists_of_touches htouches
  refine ⟨c, o, k, hc, hop, ho, fun b => ?_⟩
  cases b with
  | fds => exact hfds
  | registry => exact hregistry

/-- No action makes a thread one that has yet to register. -/
theorem exec_expected {t u : Nat} {o : process.Op} {e : Choice E ⊕ E.State} {d d' : Process E}
    {r : process.Reply o} (h : Process.exec t o e d = .done r d')
    (hu : d.expected u = false) : d'.expected u = false := by
  cases o with
  | inl o =>
    obtain ⟨_, _, _, s, _, rfl⟩ := Process.exec_inl h
    unfold Process.record
    split
    case h_1 =>
      by_cases hut : u = t
      · subst hut
        exact Function.update_self ..
      · exact (Function.update_of_ne hut ..).trans hu
    all_goals exact hu
  | inr o =>
    unfold Process.exec Process.execMain at h
    split at h
    · cases h
    cases o with
    | free b =>
      simp only at h
      split at h
      · cases h
      · cases h
        exact hu
    | exchangeFini =>
      cases e with
      | inl e => cases h
      | inr x =>
        cases h
        exact hu
    | _ =>
      cases h
      exact hu

theorem launch_expected {t u : Nat} {q : Process.Request} {d d' : Process E} {p : MainCode Unit}
    (h : Process.launch t q d = some (p, d')) (hne : u ≠ t) (hu : d.expected u = false) :
    d'.expected u = false := by
  cases q with
  | server q =>
    have hserver : ∀ {d₀ : Process E}, d₀.expected u = false →
        Process.launchServer t q d₀ = some (p, d') → d'.expected u = false := by
      intro d₀ hd hq
      obtain ⟨_, _, heq⟩ := Option.map_eq_some_iff.mp hq
      obtain ⟨_, rfl⟩ := Prod.mk.inj heq
      exact hd
    cases q with
    | accept fd input ended =>
      simp only [Process.launch] at h
      split at h
      case isFalse => cases h
      exact hserver ((Function.update_of_ne hne ..).trans hu) h
    | _ => exact hserver hu h
  | call c =>
    cases c with
    | _ =>
      cases h
      exact hu
  | signal v =>
    simp only [Process.launch] at h
    split at h
    case isFalse => cases h
    cases h
    exact hu

/-- Programs are started on the first two threads only. -/
def drainedPair (c : Pool (mainSystem (.fixed 1 1))) : Move (mainSystem (.fixed 1 1)) → Prop
  | .run t _ => ∀ b k, c.prog t = .op (.inr (.free b)) k →
      c.state.server.registry.sem .slots = c.state.server.registry.n ∧
        ∀ u, u < 2 → c.state.expected u = false
  | .start t q => t < 2 ∧ OfServer q ∧
      ∀ fd input ended, q = .server (.accept fd input ended) → c.state.Intact

theorem drained_of_drainedPair {c : Pool (mainSystem (.fixed 1 1))}
    (h : Pool.ReachIf drainedPair freshServer c) : Pool.ReachIf drainedRuns freshServer c := by
  have hothers : ∀ u, 2 ≤ u → freshServer.state.expected u = false := fun _ _ => rfl
  refine (h.of_invariant (J := fun c : Pool (mainSystem (.fixed 1 1)) =>
    ∀ u, 2 ≤ u → c.state.expected u = false) hothers
    ?_ ?_).1
  · intro d m d' hm hstep hd u hu
    cases m with
    | run t e =>
      simp only [Pool.step] at hstep
      split at hstep
      case h_2 => cases hstep
      rename_i p s hs
      cases hstep
      cases hp : d.prog t with
      | ret a => simp [Machine.step, hp] at hs
      | op o k =>
        simp only [Machine.step, hp] at hs
        split at hs
        case h_1 r s' he =>
          obtain ⟨rfl, rfl⟩ := Prod.mk.inj (Option.some.inj hs)
          exact exec_expected he (hd u hu)
        all_goals cases hs
      | call q k =>
        simp only [Machine.step, hp] at hs
        obtain ⟨rfl, rfl⟩ := Prod.mk.inj (Option.some.inj hs)
        exact hd u hu
    | start t q =>
      simp only [Pool.step] at hstep
      split at hstep
      case h_2 => cases hstep
      split at hstep
      case h_2 => cases hstep
      rename_i p s hs
      cases hstep
      exact launch_expected hs (by have := hm.1; omega) (hd u hu)
  · intro d m hm hd
    cases m with
    | run t e =>
      intro b k hop
      obtain ⟨hslots, hpair⟩ := hm b k hop
      refine ⟨hslots, fun u => ?_⟩
      by_cases hu : u < 2
      · exact hpair u hu
      · exact hd u (by omega)
    | start t q => exact hm.2

/-- All slots are free, and the first two threads have begun to register. -/
def findsDrained (d : Process (.fixed 1 1)) : process.Op → Bool
  | .inr (.free _) => decide (d.server.registry.sem .slots = d.server.registry.n ∧
      d.expected 0 = false ∧ d.expected 1 = false)
  | _ => true

def drainedCourse : Pool.Course (mainSystem (.fixed 1 1)) :=
  smoothProcess (E := .fixed 1 1) () () (fun _ o d => findsDrained d o) fun t q d =>
    decide (t < 2) && fromServer q && !d.freed .fds && !d.freed .registry

theorem drainedCourse_within : drainedCourse.Within drainedPair := by
  refine smoothProcess_within ?_ ?_ ?_
  · intro c t o k hop hguard b k' hop'
    rw [hop] at hop'
    cases hop'
    obtain ⟨hslots, hfirst, hsecond⟩ := of_decide_eq_true hguard
    refine ⟨hslots, fun u hu => ?_⟩
    obtain rfl | rfl : u = 0 ∨ u = 1 := by omega
    · exact hfirst
    · exact hsecond
  · intro c t p k hp b k' hop
    rw [hp] at hop
    cases hop
  · intro c t q hq
    simp only [Bool.and_eq_true, decide_eq_true_eq, Bool.not_eq_true'] at hq
    obtain ⟨⟨⟨ht, hserver⟩, hfds⟩, hregistry⟩ := hq
    refine ⟨ht, ofServer_of_fromServer hserver, fun _ _ _ _ b => ?_⟩
    cases b with
    | fds => exact hfds
    | registry => exact hregistry

/-- A client comes and goes before the registry is freed. -/
theorem freed_untouched_after_client : ∃ c : Pool (mainSystem (.fixed 1 1)),
    c.state.freed .registry = true ∧ ∀ t o (k : o.Reply → MainCode Unit),
      c.prog t = .op (.inl o) k → o.ofRegistry = false := by
  obtain ⟨c, hc, ht⟩ := Pool.exists_reach drainedCourse_within
    [.start 0 (.server (.accept 3 [] true)), .drive 0 60, .start 1 (.signal .main), .drive 1 40]
    freshServer (fun c => c.state.freed .registry) (by decide +kernel)
  refine ⟨c, ht, fun t o k hop => ?_⟩
  by_contra ho
  have hintact := freed_untouched (drained_of_drainedPair hc) hop (by simpa using ho)
  rw [hintact .registry] at ht
  cases ht

/-! ## The interrupted thread -/

/-- The handler on thread `u` waits for what only the interrupted thread can provide: the mutex
that this thread has taken, or the end of the registration of the descriptor that it uses. -/
inductive Stuck (c : Pool (mainSystem E)) (v : Victim) (u : Nat) : Prop where
  | mutex (k : Unit → MainCode Unit) (hop : c.prog u = .op (.inl (.semWait .mutex)) k)
      (hzero : c.state.server.registry.sem .mutex = 0)
      (holder : c.state.holder.map Victim.service = some v)
  | registered (k : Unit → MainCode Unit) (hop : c.prog u = .op (.inl (.semWait .countMutex)) k)
      (hzero : c.state.server.registry.sem .countMutex = 0) (fd : Int) (entry : c.state.Entry fd)
      (user : (c.state.users fd).map Victim.service = some v)

/-- Neither the main thread nor one that has nothing to do with the clients takes the mutex or
registers. -/
theorem Stuck.exists_service {c : Pool (mainSystem E)} {v : Victim} {u : Nat}
    (h : Stuck c v u) : ∃ t, v = .service t := by
  cases h with
  | mutex k hop hzero holder =>
    obtain ⟨t, _, ht⟩ := Option.map_eq_some_iff.mp holder
    exact ⟨t, ht.symm⟩
  | registered k hop hzero fd entry user =>
    obtain ⟨t, _, ht⟩ := Option.map_eq_some_iff.mp user
    exact ⟨t, ht.symm⟩

/-- The handler never waits for the thread it has interrupted, in runs in which the signal
interrupts the main thread, or another that neither holds the mutex nor is registered. -/
theorem handler_not_stuck {x : E.State} {n : Nat} {c : Pool (mainSystem E)}
    (h : Pool.ReachIf asideRuns (Pool.idle (Process.init E x n)) c) {v : Victim} {u : Nat}
    (hsignal : c.state.signal = some (v, u)) : ¬ Stuck c v u := by
  have hserver : ∀ (d : Pool (mainSystem E)) m, asideRuns d m → serverRuns d m := by
    intro d m hm
    cases m with
    | run t e => trivial
    | start t q => exact hm.1
  have hreach : Pool.ReachIf (Watched E (serverWatch False False True)) _ c :=
    h.mono fun d m hm => watched_server (hserver d m hm) False.elim False.elim fun _ => hm
  obtain ⟨g, hg⟩ := settled hreach
  intro hstuck
  obtain ⟨t, rfl⟩ := hstuck.exists_service
  obtain ⟨hout, hnot⟩ := hg.inv.aside trivial t u hsignal
  cases hstuck with
  | mutex k hop hzero holder =>
    obtain ⟨t', hholder, ht⟩ := Option.map_eq_some_iff.mp holder
    cases ht
    have hin : (g t).crit = true := (hg.inv.holder t).mp hholder
    change (g t).crit = false at hout
    rw [hin] at hout
    cases hout
  | registered k hop hzero fd entry user =>
    obtain ⟨t', huser, ht⟩ := Option.map_eq_some_iff.mp user
    cases ht
    obtain ⟨v, hv, hst⟩ := hg.inv.users_of_entry entry
    obtain rfl := Option.some.inj (huser.symm.trans hv)
    change (g t).stored = false at hnot
    change (g t).stored = true at hst
    rw [hst] at hnot
    cases hnot

/-- The signal interrupts a registered client, for which the handler waits. -/
theorem handler_stuck_on_client : ∃ c : Pool (mainSystem (.fixed 1 1)),
    Pool.ReachIf serverRuns freshServer c ∧ c.state.signal = some (.service 0, 1) ∧
      Stuck c (.service 0) 1 := by
  obtain ⟨c, hc, ht⟩ := Pool.exists_reach anyCourse_within
    [.start 0 (.server (.accept 3 [] false)), .drive 0 40, .start 1 (.signal (.service 0)),
      .drive 1 10]
    freshServer
    (fun c => c.state.signal = some (.service 0, 1) ∧ (c.prog 1).atOp (takes .countMutex) ∧
      c.state.server.registry.sem .countMutex = 0 ∧ 0 < c.state.server.registry.n ∧
      c.state.server.registry.fds 0 = 3 ∧ c.state.users 3 = some 0)
    (by decide +kernel)
  obtain ⟨hsignal, htakes, hzero, hn, hfd, huser⟩ := of_decide_eq_true ht
  obtain ⟨k, hop⟩ := exists_of_takes htakes
  exact ⟨c, hc, hsignal, .registered k hop hzero 3 ⟨by decide, 0, hn, hfd⟩
    (congrArg (Option.map Victim.service) huser)⟩

/-- The interrupted thread neither holds the mutex nor is registered. -/
def findsAside (d : Process (.fixed 1 1)) : Process.Request → Bool
  | .signal (.service t) => decide (d.holder ≠ some t ∧ ∀ i, i < d.server.registry.n →
      d.server.registry.fds i ≠ -1 → d.users (d.server.registry.fds i) ≠ some t)
  | _ => true

def asideCourse : Pool.Course (mainSystem (.fixed 1 1)) :=
  smoothProcess (E := .fixed 1 1) () () (fun _ _ _ => true) fun _ q d =>
    fromServer q && findsAside d q

theorem asideCourse_within : asideCourse.Within asideRuns := by
  refine smoothProcess_within (fun _ _ _ _ _ _ => trivial) (fun _ _ _ _ _ => trivial) ?_
  intro c u q hq
  obtain ⟨hserver, hfinds⟩ := Bool.and_eq_true_iff.mp hq
  refine ⟨ofServer_of_fromServer hserver, ?_⟩
  rintro t rfl
  obtain ⟨hholder, hentries⟩ := of_decide_eq_true hfinds
  refine ⟨hholder, ?_⟩
  rintro fd ⟨hne, i, hi, rfl⟩
  exact hentries i hi hne

/-- The signal interrupts a client that has not yet begun to register. -/
theorem handler_not_stuck_early : ∃ c : Pool (mainSystem (.fixed 1 1)),
    c.state.signal = some (.service 0, 1) ∧ (c.prog 1).ended = true ∧ ¬ Stuck c (.service 0) 1 := by
  obtain ⟨c, hc, ht⟩ := Pool.exists_reach asideCourse_within
    [.start 0 (.server (.accept 3 [] false)), .start 1 (.signal (.service 0)), .drive 1 40]
    freshServer
    (fun c => c.state.signal = some (.service 0, 1) ∧ (c.prog 1).ended) (by decide +kernel)
  obtain ⟨hsignal, hended⟩ := of_decide_eq_true ht
  exact ⟨c, hsignal, hended, handler_not_stuck hc hsignal⟩

end BourseServer
