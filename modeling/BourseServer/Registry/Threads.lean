import BourseServer.Registry.Calls
import BourseServer.Trader.Nesting

/-!
# The threads of the process, verified

A service thread registers its descriptor, serves it, unregisters it and closes it. Code that is
built from other actions than those on the registry leaves alone what a thread knows of it.
-/
namespace BourseServer.Registry

open Concurrency

variable {E : Exchange} {t : Nat} {W : Watch} {w w' : World E} {g : Tokens} {f : Int}
  {fd : Option Int} {c : Option RegistryCall} {b : Bool} {handler : Prop}

/-! ## Steps that leave the registry alone -/

/-- A step of thread `t` that leaves the registry and all tokens alone. -/
theorem Inv.moves_other (h : Inv W w) (d : Process E)
    (hregistry : d.server.registry = w.state.server.registry) (hwaits : d.waits = w.state.waits)
    (hholder : d.holder = w.state.holder) (hswept : d.swept = w.state.swept)
    (husers : ∀ u, u ≠ t → ∀ fd, d.users fd = some u ↔ w.state.users fd = some u)
    (huser : (w.ghost t).slot = true → d.users (w.ghost t).fd = some t)
    (hcalls : ∀ u, u ≠ t → d.calls u = w.state.calls u)
    (hwindow : (w.ghost t).stored = true → (w.ghost t).opened = true)
    (hexpected : ∀ u, u ≠ t → d.expected u = w.state.expected u)
    (hopen : W.servers → ∀ fd u, d.users fd = some u → d.server.conns fd ≠ none)
    (hshut : ∀ fd, w.state.Entry fd → w.state.ShutDown fd → d.ShutDown fd)
    (hsignal : ∀ p, w.state.signal = some p → d.signal = some p)
    (hintact : d.signal = none → d.Intact)
    (hrely : ∀ u, u ≠ t → ∀ v, w.state.signal = some (v, u) → d.freed = w.state.freed)
    (hfreed : W.early → ¬ d.Intact →
      w.state.server.registry.sem .slots = w.state.server.registry.n ∧
        ∀ u, d.expected u = false)
    (haside : W.aside → ∀ u h, d.signal = some (.service u, h) →
      (w.ghost u).crit = false ∧ (w.ghost u).stored = false) :
    (discipline E W).Moves t w (w.after t d (w.ghost t)) := by
  have hghost : (w.after t d (w.ghost t)).ghost = w.ghost := Function.update_eq_self ..
  have hentry : ∀ fd, d.Entry fd ↔ w.state.Entry fd := by
    intro fd
    unfold Process.Entry
    rw [hregistry]
  constructor
  · constructor
    case balanced =>
      rw [hghost, World.after_state, hregistry, hwaits]
      exact h.balanced
    case waited =>
      rw [World.after_state, hwaits]
      exact h.waited
    case user =>
      intro u hslot
      rw [hghost] at hslot ⊢
      by_cases hu : u = t
      · subst hu
        exact huser hslot
      · exact (husers u hu _).mpr (h.user u hslot)
    case holder =>
      intro u
      rw [hghost, World.after_state, hholder]
      exact h.holder u
    case window =>
      intro hW u hst hop
      rw [hghost] at hst hop ⊢
      by_cases hu : u = t
      · subst hu
        rw [hwindow hst] at hop
        cases hop
      · exact (hcalls u hu).trans (h.window hW u hst hop)
    case open_of_user => exact hopen
    case shut =>
      intro hW hs fd hfd
      rw [World.after_state, hswept] at hs
      rw [World.after_state, hentry] at hfd
      exact hshut fd hfd (h.shut hW hs fd hfd)
    case intact => exact hintact
    case freed =>
      intro hW hf
      rw [World.after_state, hregistry]
      exact hfreed hW hf
    case aside =>
      intro hW u h' hs
      rw [hghost]
      exact haside hW u h' hs
  · intro u hu
    constructor
    case ghost => rw [hghost]
    case size => rw [World.after_state, hregistry]
    case table =>
      intro _
      rw [World.after_state, hregistry]
    case users => exact husers u hu
    case calls => exact hcalls u hu
    case expected => exact hexpected u hu
    case signal => exact hsignal
    case freed => exact hrely u hu
    case shut => exact fun _ => hshut

/-- A step that changes nothing but the server. -/
theorem Inv.moves_server (h : Inv W w) {s : State E}
    (hwindow : (w.ghost t).stored = true → (w.ghost t).opened = true)
    (hregistry : s.registry = w.state.server.registry)
    (hconns : ∀ fd c, w.state.server.conns fd = some c →
      ∃ c', s.conns fd = some c' ∧ (c.shut = true → c'.shut = true)) :
    (discipline E W).Moves t w (w.after t { w.state with server := s } (w.ghost t)) := by
  apply h.moves_other { w.state with server := s } hregistry rfl rfl rfl (fun _ _ _ => .rfl)
  case huser => exact h.user t
  case hcalls => exact fun _ _ => rfl
  case hwindow => exact hwindow
  case hexpected => exact fun _ _ => rfl
  case hopen =>
    intro hW fd u hu
    obtain ⟨conn, hconn⟩ := Option.ne_none_iff_exists'.mp (h.open_of_user hW fd u hu)
    obtain ⟨conn', hconn', _⟩ := hconns fd conn hconn
    exact Option.ne_none_iff_exists'.mpr ⟨conn', hconn'⟩
  case hshut =>
    intro fd _ hs
    obtain ⟨conn, hconn, hs⟩ := hs
    obtain ⟨conn', hconn', hs'⟩ := hconns fd conn hconn
    exact ⟨conn', hconn', hs' hs⟩
  case hsignal => exact fun _ hp => hp
  case hintact => exact h.intact
  case hrely => exact fun _ _ _ _ => rfl
  case hfreed => exact h.freed
  case haside => exact h.aside

/-- An action that has nothing to do with the registry keeps all connections. -/
theorem exec_outside {o : Op} {e : Choice E} {s s' : State E} {r : o.Reply}
    (ho : o.outside = true) (h : exec t o e s = .done r s') :
    s'.registry = s.registry ∧ ∀ fd c, s.conns fd = some c →
      ∃ c', s'.conns fd = some c' ∧ (c.shut = true → c'.shut = true) := by
  have hkept : s'.conns = s.conns → ∀ fd c, s.conns fd = some c →
      ∃ c', s'.conns fd = some c' ∧ (c.shut = true → c'.shut = true) := by
    intro hsame fd c hc
    exact ⟨c, by rw [hsame, hc], id⟩
  have hset : ∀ (fd : Int) (c c' : Conn), s.conns fd = some c → c'.shut = c.shut →
      ∀ fd' d, s.conns fd' = some d →
        ∃ d', (s.setConn fd (some c')).conns fd' = some d' ∧ (d.shut = true → d'.shut = true) := by
    intro fd c c' hc hshut fd' d hd
    by_cases hfd : fd' = fd
    · subst hfd
      obtain rfl := Option.some.inj (hc.symm.trans hd)
      exact ⟨c', by simp [State.setConn], fun hs => hshut.trans hs⟩
    · exact ⟨d, by simp [State.setConn, hfd, hd], id⟩
  refine ⟨(exec_frame h).registry ?_, ?_⟩
  · cases o <;> first | rfl | cases ho
  · cases hw : o.writesConns with
    | false => exact hkept ((exec_frame h).conns hw)
    | true =>
      cases o with
      | read fd n =>
        rcases execRead_conns h with rfl | ⟨c, k, hc, rfl⟩
        · exact hkept rfl
        · exact hset fd c _ hc rfl
      | write fd bs =>
        rcases execWrite_conns h with rfl | ⟨c, k, hc, rfl⟩
        · exact hkept rfl
        · exact hset fd c _ hc rfl
      | close fd => cases ho
      | shutdown fd => cases ho
      | _ => cases hw

theorem record_outside {o : Op} (ho : o.outside = true) (d : Process E) (s : State E) :
    d.record t o s = { d with server := s } := by
  cases o <;> first | rfl | cases ho

/-! ## Other code -/

theorem Local.rely {w₀ : World E} (h : Local t w₀ w) (hr : Rely t w w') : Local t w₀ w' where
  ghost := hr.ghost.trans h.ghost
  users fd := (hr.users fd).trans (h.users fd)
  calls := hr.calls.trans h.calls
  expected := hr.expected.trans h.expected

theorem Local.knows (h : Local t w w') (hk : Knows t g fd c b w) : Knows t g fd c b w' where
  ghost := h.ghost.trans hk.ghost
  users fd := (h.users fd).trans (hk.users fd)
  calls := h.calls.trans hk.calls
  expected := h.expected.trans hk.expected

theorem Local.refl (t : Nat) (w : World E) : Local t w w := ⟨rfl, fun _ => .rfl, rfl, rfl⟩

theorem stable_local {w₀ : World E} : (discipline E W).Stable t (Local t w₀) :=
  fun _ _ hr _ h => h.rely hr

variable {w₀ : World E}

theorem triple_outside {o : Op} (ho : o.outside = true)
    (hw₀ : (w₀.ghost t).stored = true → (w₀.ghost t).opened = true) :
    (discipline E W).Triple t (Local t w₀) (.act (I := process) (.inl o)) fun _ => Local t w₀ := by
  have hno : o.ofRegistry = false := by
    cases o <;> first | rfl | cases ho
  refine triple_act stable_local (fun _ => stable_local) (fun w _ _ => ?_) ?_
  · constructor
    case intact =>
      intro _ o' ho' hreg
      obtain rfl := Sum.inl.inj ho'
      rw [hno] at hreg
      cases hreg
    case items =>
      intro ho'
      obtain rfl := Sum.inl.inj ho'
      cases ho
    case countMutex =>
      intro ho'
      obtain rfl := Sum.inl.inj ho'
      cases ho
    case result => exact fun _ _ h => by cases h
  · intro w e r s hi hw _ he _
    obtain ⟨hregistry, hconns⟩ := exec_outside ho he
    rw [record_outside ho]
    refine ⟨w.ghost t, hi.moves_server ?_ hregistry hconns, ?_⟩
    · rw [hw.ghost]
      exact hw₀
    · exact ⟨by simpa using hw.ghost, hw.users, hw.calls, hw.expected⟩

theorem triple_proc (p : Proc)
    (hw₀ : (w₀.ghost t).stored = true → (w₀.ghost t).opened = true) :
    (discipline E W).Triple t (Local t w₀) (.invoke (I := process) p) fun _ => Local t w₀ := by
  refine .invoke stable_local (fun _ => stable_local) (fun w _ hw => ?_) ?_
  · change (w.ghost t).stored = true → (w.ghost t).opened = true
    rw [hw.ghost]
    exact hw₀
  intro w r w' _ hw hpost
  exact ⟨hpost.ghost.trans hw.ghost, fun fd => (hpost.users fd).trans (hw.users fd),
    hpost.calls.trans hw.calls, hpost.expected.trans hw.expected⟩

/-- Code built from other actions than those on the registry. -/
theorem triple_built {α : Type} {p : Code α} (hp : Built (fun o => o.outside = true) p)
    (hw₀ : (w₀.ghost t).stored = true → (w₀.ghost t).opened = true) :
    (discipline E W).Triple t (Local t w₀) p.lift fun _ => Local t w₀ := by
  induction hp with
  | leaf hu =>
    exact .lift_of_uses stable_local (fun o ho => triple_outside ho hw₀)
      (fun p _ => triple_proc p hw₀) hu
  | bind _ _ ihp ihf => exact .lift_bind ihp ihf
  | @scope α c value p _ ih =>
    apply Discipline.Triple.lift_bind (triple_outside (o := .enter c) rfl hw₀)
    intro _
    apply Discipline.Triple.lift_bind ih
    intro r
    apply Discipline.Triple.lift_bind (triple_outside (o := .leave (value r)) rfl hw₀)
    intro _
    exact .ret stable_local fun _ _ h => h

/-- The same for what a thread knows between its calls. -/
theorem triple_code {α : Type} {p : Code α} (hp : Built (fun o => o.outside = true) p)
    (hg : g.stored = true → g.opened = true) :
    (discipline E W).Triple t (Knows t g fd c b) p.lift fun _ => Knows t g fd c b := by
  intro w hi hw
  have hbuilt : (discipline E W).Triple t (Local t w) p.lift fun _ => Local t w :=
    triple_built hp (by rwa [hw.ghost])
  exact Discipline.wp_mono (hbuilt w hi (Local.refl t w)) fun _ w' _ h => h.knows hw

/-! ## A service thread -/

/-- The entries of a thread that has nothing stored are not its own. -/
theorem Inv.users_of_entry (h : Inv W w) {x : Int} (hx : w.state.Entry x) :
    ∃ u, w.state.users x = some u ∧ (w.ghost u).stored = true := by
  obtain ⟨hne, i, hi, rfl⟩ := hx
  obtain ⟨u, hu, hfd⟩ := h.balanced.owner i hi hne
  refine ⟨u, ?_, hu⟩
  rw [← hfd]
  exact h.user u ((h.balanced.coherent u).slot hu)

/-- The descriptor is closed after it has been unregistered. -/
theorem triple_close :
    (discipline E W).Triple t (Knows t .none (some f) c b) (close f).lift
      fun _ => Knows t .none none c b := by
  refine triple_act (o := .close f) stable_knows (fun _ => stable_knows) (fun w hi hw => ?_) ?_
  · constructor
    case intact =>
      intro _ o' ho' hreg
      obtain rfl := Sum.inl.inj ho'
      cases hreg
    case items => exact fun h => by cases h
    case countMutex => exact fun h => by cases h
    case result => exact fun _ _ h => by cases h
  · intro w e r s hi hw _ he _
    have hs : s = w.state.server.setConn f none := by
      simp only [exec] at he
      split at he
      · cases he
      · cases he
        rfl
    subst hs
    have huser : w.state.users f = some t := (hw.users f).mpr rfl
    have hothers : ∀ u, u ≠ t → ∀ fd,
        Function.update w.state.users f none fd = some u ↔ w.state.users fd = some u := by
      intro u hu fd
      by_cases hfd : fd = f
      · subst hfd
        rw [Function.update_self, huser]
        simp [Ne.symm hu]
      · rw [Function.update_of_ne hfd]
    refine ⟨.none, ?_, ?_⟩
    · rw [← hw.ghost]
      apply hi.moves_other (w.state.record t (.close f) (w.state.server.setConn f none))
        rfl rfl rfl rfl hothers
      case huser => simp [hw.ghost]
      case hcalls => exact fun _ _ => rfl
      case hwindow => simp [hw.ghost]
      case hexpected => exact fun _ _ => rfl
      case hopen =>
        intro hW fd u hu
        change Function.update w.state.users f none fd = some u at hu
        by_cases hfd : fd = f
        · subst hfd
          rw [Function.update_self] at hu
          cases hu
        · rw [Function.update_of_ne hfd] at hu
          have hopen := hi.open_of_user hW fd u hu
          simpa [Process.record, State.setConn, hfd] using hopen
      case hshut =>
        intro x hx hs
        obtain ⟨u, hu, hst⟩ := hi.users_of_entry hx
        have hne : x ≠ f := by
          rintro rfl
          obtain rfl := Option.some.inj (huser.symm.trans hu)
          rw [hw.ghost] at hst
          cases hst
        obtain ⟨conn, hconn, hshut⟩ := hs
        exact ⟨conn, by simpa [Process.record, State.setConn, hne] using hconn, hshut⟩
      case hsignal => exact fun _ hp => hp
      case hintact => exact hi.intact
      case hrely => exact fun _ _ _ _ => rfl
      case hfreed => exact hi.freed
      case haside => exact hi.aside
    · refine ⟨by simp, fun fd => ?_, hw.calls, hw.expected⟩
      change Function.update w.state.users f none fd = some t ↔ _
      by_cases hfd : fd = f
      · subst hfd
        simp
      · rw [Function.update_of_ne hfd, hw.users fd]
        simp [Ne.symm hfd]

/-- A service thread registers its descriptor, serves it, and unregisters and closes it. -/
theorem triple_brsClientService (hf : 0 ≤ f) (hW : W.servers) :
    (discipline E W).Triple t (Knows t .none (some f) none true) (brsClientService f).lift
      fun _ => Knows t .none none none false := by
  have hregister : (discipline E W).Triple t (Knows t .none (some f) none true)
      (cregRegister f).lift fun r w => r = 0 ∧ Knows t (.resting f) (some f) none false w :=
    triple_cregRegister hf (fun _ => rfl) (fun h => absurd hW h) (by simp) (by simp)
  have hleave : (discipline E W).Triple t (Knows t (.resting f) (some f) none false)
      (brsClientLeave f).lift fun _ => Knows t .none none none false := by
    apply Discipline.Triple.lift_bind (triple_cregUnregister (by simp))
    intro r
    apply Discipline.Triple.fact_pre
    intro hr
    rw [hr]
    exact triple_close
  apply Discipline.Triple.lift_bind hregister
  intro r
  apply Discipline.Triple.fact_pre
  intro hr
  rw [hr]
  apply Discipline.Triple.lift_bind (p := .invoke (I := bourse) (.service f ⟨none, none⟩))
    (Q := fun _ => Knows t (.resting f) (some f) none false)
  · intro w hi hw
    have hproc := triple_proc (W := W) (.service f ⟨none, none⟩) (by simp [hw.ghost]) w hi
      (Local.refl t w)
    exact Discipline.wp_mono hproc fun _ w' _ h => h.knows hw
  · exact fun _ => hleave

end BourseServer.Registry
