import BourseServer.Registry.Threads

/-!
# The handler, verified

Calls of the registry begin and end, and the handler makes two of them: the sweep shuts down the
descriptors of all entries, one after the other, and the wait takes `count_mutex`. Then it frees
the registry.
-/
namespace BourseServer.Registry

open Concurrency

variable {E : Exchange} {t : Nat} {W : Watch} {w w' : World E} {g : Tokens} {f : Int}
  {fd : Option Int} {c : Option RegistryCall} {b : Bool} {handler : Prop}

/-! ## Calls of the registry -/

/-- A mark, or another action of the process that leaves the registry and all tokens alone. -/
theorem triple_mark {o : MainOp} {P Q : World E → Prop} (hP : (discipline E W).Stable t P)
    (hQ : (discipline E W).Stable t Q) (hresult : ∀ c v, o = .ended c v → v ≠ .int (-1))
    (h : ∀ w e r d, Inv W w → P w → w.state.execMain t o e = .done r d →
      Assume W (.inr o) w.state →
      (discipline E W).Moves t w (w.after t d (w.ghost t)) ∧ Q (w.after t d (w.ghost t))) :
    (discipline E W).Triple t P (.act (I := process) (.inr o)) fun _ => Q := by
  refine .act hP (fun _ => hQ) (fun w _ _ => ?_) fun w hi hw e r d he ha => ?_
  · constructor
    case intact => exact fun _ _ h => by cases h
    case items => exact fun h => by cases h
    case countMutex => exact fun h => by cases h
    case result => exact fun c v ho => hresult c v (Sum.inr.inj ho)
  · change Process.exec t (.inr o) e w.state = .done r d at he
    unfold Process.exec at he
    split at he
    · cases he
    · exact ⟨w.ghost t, h w e r d hi hw he ha⟩

theorem stable_live : (discipline E W).Stable t fun w : World E =>
    Knows t g fd c b w ∧ Live W t g handler w :=
  fun _ _ hr _ h => ⟨h.1.rely hr, h.2.rely hr⟩

theorem triple_began (hg : g.stored = true → g.opened = true) (c : RegistryCall) :
    (discipline E W).Triple t (fun w => Knows t g fd none b w ∧ Live W t g handler w) (began c)
      fun _ w => Knows t g fd (some c) b w ∧ Live W t g handler w := by
  refine triple_mark (o := .began c) stable_live stable_live (by simp) ?_
  intro w e r d hi hw he _
  cases he
  constructor
  · apply hi.moves_other { w.state with calls := Function.update w.state.calls t (some c) }
      rfl rfl rfl rfl (fun _ _ _ => .rfl)
    case huser => exact hi.user t
    case hcalls => exact fun u hu => Function.update_of_ne hu ..
    case hwindow =>
      rw [hw.1.ghost]
      exact hg
    case hexpected => exact fun _ _ => rfl
    case hopen => exact hi.open_of_user
    case hshut => exact fun _ _ hs => hs
    case hsignal => exact fun _ hp => hp
    case hintact => exact hi.intact
    case hrely => exact fun _ _ _ _ => rfl
    case hfreed => exact hi.freed
    case haside => exact hi.aside
  · exact ⟨⟨by simpa using hw.1.ghost, hw.1.users, by simp, hw.1.expected⟩, hw.2.alive,
      hw.2.granted⟩

/-- A call that does not release a descriptor ends. -/
theorem triple_ended (hg : g.stored = true → g.opened = true) {v : Value} {c : RegistryCall}
    (hv : v ≠ .int (-1)) (hc : ∀ f, c ≠ .unregister f) :
    (discipline E W).Triple t (fun w => Knows t g fd (some c) b w ∧ Live W t g handler w)
      (ended c v) fun _ w => Knows t g fd none b w ∧ Live W t g handler w := by
  refine triple_mark (o := .ended c v) stable_live stable_live ?_ ?_
  · intro c' v' ho
    cases ho
    exact hv
  intro w e r d hi hw he _
  have hd : d = { w.state with calls := Function.update w.state.calls t none } := by
    cases c with
    | unregister f => exact absurd rfl (hc f)
    | _ =>
      cases he
      rfl
  subst hd
  constructor
  · apply hi.moves_other { w.state with calls := Function.update w.state.calls t none }
      rfl rfl rfl rfl (fun _ _ _ => .rfl)
    case huser => exact hi.user t
    case hcalls => exact fun u hu => Function.update_of_ne hu ..
    case hwindow =>
      rw [hw.1.ghost]
      exact hg
    case hexpected => exact fun _ _ => rfl
    case hopen => exact hi.open_of_user
    case hshut => exact fun _ _ hs => hs
    case hsignal => exact fun _ hp => hp
    case hintact => exact hi.intact
    case hrely => exact fun _ _ _ _ => rfl
    case hfreed => exact hi.freed
    case haside => exact hi.aside
  · exact ⟨⟨by simpa using hw.1.ghost, hw.1.users, by simp, hw.1.expected⟩, hw.2.alive,
      hw.2.granted⟩

/-- A call of `creg_unregister` ends: the thread does not use the descriptor any more. -/
theorem triple_endedUnregister {v : Value} (hv : v ≠ .int (-1)) :
    (discipline E W).Triple t (Knows t .none (some f) (some (.unregister f)) b)
      (ended (.unregister f) v) fun _ => Knows t .none none none b := by
  refine triple_mark (o := .ended (.unregister f) v) stable_knows stable_knows ?_ ?_
  · intro c' v' ho
    cases ho
    exact hv
  intro w e r d hi hw he _
  cases he
  have huser : w.state.users f = some t := (hw.users f).mpr rfl
  have hothers : ∀ u, u ≠ t → ∀ fd,
      Function.update w.state.users f none fd = some u ↔ w.state.users fd = some u := by
    intro u hu fd
    by_cases hfd : fd = f
    · subst hfd
      rw [Function.update_self, huser]
      simp [Ne.symm hu]
    · rw [Function.update_of_ne hfd]
  constructor
  · apply hi.moves_other { w.state with
      calls := Function.update w.state.calls t none
      users := Function.update w.state.users f none } rfl rfl rfl rfl hothers
    case huser => simp [hw.ghost]
    case hcalls => exact fun u hu => Function.update_of_ne hu ..
    case hwindow => simp [hw.ghost]
    case hexpected => exact fun _ _ => rfl
    case hopen =>
      intro hW fd u hu
      change Function.update w.state.users f none fd = some u at hu
      by_cases hfd : fd = f
      · subst hfd
        rw [Function.update_self] at hu
        cases hu
      · rw [Function.update_of_ne hfd] at hu
        exact hi.open_of_user hW fd u hu
    case hshut => exact fun _ _ hs => hs
    case hsignal => exact fun _ hp => hp
    case hintact => exact hi.intact
    case hrely => exact fun _ _ _ _ => rfl
    case hfreed => exact hi.freed
    case haside => exact hi.aside
  · refine ⟨by simpa using hw.ghost, fun fd => ?_, by simp, hw.expected⟩
    change Function.update w.state.users f none fd = some t ↔ _
    by_cases hfd : fd = f
    · subst hfd
      simp
    · rw [Function.update_of_ne hfd, hw.users fd]
      simp [Ne.symm hfd]

/-- The wait takes `count_mutex`, and gives no token for it. -/
theorem triple_cregWaitForEmpty (hg : g.stored = true → g.opened = true)
    (hwaiting : W.waiting) :
    (discipline E W).Triple t
      (fun w => Knows t g fd (some .waitForEmpty) b w ∧ Live W t g handler w)
      cregWaitForEmpty.lift
      fun _ w => Knows t g fd (some .waitForEmpty) b w ∧ Live W t g handler w := by
  refine triple_act (o := .semWait .countMutex) stable_live (fun _ => stable_live)
    (fun w hi hw => ?_) ?_
  · constructor
    case intact => exact fun hW _ _ _ => hw.2.intact hi hw.1.ghost hW
    case items => exact fun h => by cases h
    case countMutex => exact fun _ h => absurd ⟨hwaiting, hw.1.calls⟩ h
    case result => exact fun _ _ h => by cases h
  · intro w e r s hi hw hrun he _
    obtain ⟨hpos, rfl⟩ := exec_semWait he
    have hk := hw.1
    have hwaits : w.state.record t (.semWait .countMutex) { w.state.server with
        registry := { w.state.server.registry with
          sem := Function.update w.state.server.registry.sem .countMutex
            (w.state.server.registry.sem .countMutex - 1) } } =
        change w.state { w.state.server.registry with
          sem := Function.update w.state.server.registry.sem .countMutex
            (w.state.server.registry.sem .countMutex - 1) } w.state.expected
          w.state.holder (w.state.waits + 1) w.state.swept := by
      simp [Process.record, change, hk.calls]
    rw [hwaits]
    refine ⟨w.ghost t, ?_, ⟨by simpa using hk.ghost, hk.users, hk.calls, hk.expected⟩,
      hw.2.alive, hw.2.granted⟩
    apply hi.moves_tokens hrun
    case hn => rfl
    case htable => exact .inl rfl
    case hwaits => exact .inr hwaiting
    case hslots => rfl
    case hbalanced =>
      apply hi.balanced.exchange (hi.balanced.coherent t) (hi.balanced.valid t)
      case hgate =>
        intro m _
        rw [Function.update_self]
        omega
      all_goals simp
    case hslot => rfl
    case hcrit => rfl
    case hfd => rfl
    case hwindow =>
      intro _ hst hop
      rw [hk.ghost] at hst hop
      rw [hg hst] at hop
      cases hop
    case hentry => exact fun _ _ _ h => h

/-! ## The sweep -/

/-- In the sweep, the entries before the `j`th are shut down. -/
structure Sweeping (W : Watch) (t : Nat) (g : Tokens) (fd : Option Int) (b : Bool)
    (handler : Prop) (n j : Nat) (w : World E) : Prop where
  knows : Knows t g fd (some .shutdownAll) b w
  live : Live W t g handler w
  size : w.state.server.registry.n = n
  shut : W.servers → ∀ i, i < j → i < n → w.state.server.registry.fds i ≠ -1 →
    w.state.ShutDown (w.state.server.registry.fds i)

theorem stable_sweeping {n j : Nat} (hg : g.crit = true) :
    (discipline E W).Stable t (Sweeping W t g fd b handler n j) := by
  intro w w' hr _ h
  have hin : (w.ghost t).crit = true := by rw [h.knows.ghost, hg]
  have htable : w'.state.server.registry.fds = w.state.server.registry.fds :=
    congrArg Table.fds (hr.table hin)
  refine ⟨h.knows.rely hr, h.live.rely hr, hr.size.trans h.size, ?_⟩
  intro hW i hi hn hne
  rw [htable] at hne ⊢
  exact hr.shut hin _ ⟨hne, i, by rw [h.size]; exact hn, rfl⟩ (h.shut hW i hi hn hne)

/-- The entry at `j` is read and its descriptor shut down. -/
theorem triple_shutdownEntry {n j : Nat} (hg : g.crit = true)
    (hop : g.stored = true → g.opened = true) (hj : j < n) :
    (discipline E W).Triple t (Sweeping W t g fd b handler n j)
      (do
        let x ← regFd j
        shutdown x
        pure none : Code (Option Unit)).lift
      (Discipline.Triple.onSome (fun _ => Sweeping W t g fd b handler n n)
        (Sweeping W t g fd b handler n (j + 1))) := by
  have hstable : ∀ x, (discipline E W).Stable t fun w : World E =>
      Sweeping W t g fd b handler n j w ∧ w.state.server.registry.fds j = x := by
    intro x w w' hr hi h
    have hin : (w.ghost t).crit = true := by rw [h.1.knows.ghost, hg]
    have htable : w'.state.server.registry.fds = w.state.server.registry.fds :=
      congrArg Table.fds (hr.table hin)
    exact ⟨stable_sweeping hg w w' hr hi h.1, by rw [htable, h.2]⟩
  apply Discipline.Triple.lift_bind (Q := fun x w => Sweeping W t g fd b handler n j w ∧
    w.state.server.registry.fds j = x)
  · refine triple_read (o := .regFd j) (stable_sweeping hg) hstable ?_ (fun _ _ => rfl) ?_
    · exact fun w hi hw =>
        safe_of_live hi hw.knows.ghost hw.live (by simp) (by simp)
    · intro w e r s hw he
      cases he
      exact ⟨rfl, hw, rfl⟩
  intro x
  apply Discipline.Triple.lift_bind (Q := fun _ => Sweeping W t g fd b handler n (j + 1))
  · refine triple_act (o := .shutdown x) (hstable x) (fun _ => stable_sweeping hg)
      (fun w hi hw => ?_) ?_
    · constructor
      case intact =>
        intro _ o' ho' hreg
        obtain rfl := Sum.inl.inj ho'
        cases hreg
      case items => exact fun h => by cases h
      case countMutex => exact fun h => by cases h
      case result => exact fun _ _ h => by cases h
    · intro w e r s hi hw _ he _
      obtain ⟨hsw, hx⟩ := hw
      -- nothing is open under -1 or, for other callers, under a descriptor of theirs
      have hs : ∃ conns, s = { w.state.server with conns := conns } ∧
          (∀ y c, w.state.server.conns y = some c →
            ∃ c', conns y = some c' ∧ (c.shut = true → c'.shut = true)) ∧
          ∀ c, w.state.server.conns x = some c → ∃ c', conns x = some c' ∧ c'.shut = true := by
        simp only [exec] at he
        split at he
        · rename_i hnone
          cases he
          refine ⟨w.state.server.conns, rfl, fun y c hc => ⟨c, hc, id⟩, fun c hc => ?_⟩
          rw [hnone] at hc
          cases hc
        · rename_i conn hconn
          cases he
          refine ⟨_, rfl, fun y c hc => ?_, fun c hc => ⟨_, Function.update_self .., rfl⟩⟩
          by_cases hy : y = x
          · subst hy
            exact ⟨_, Function.update_self .., fun _ => rfl⟩
          · exact ⟨c, by rw [Function.update_of_ne hy, hc], id⟩
      obtain ⟨conns, rfl, hkept, hshut⟩ := hs
      refine ⟨w.ghost t, hi.moves_server ?_ rfl hkept, ?_⟩
      · rw [hsw.knows.ghost]
        exact hop
      · have hk := hsw.knows
        refine ⟨⟨by simpa using hk.ghost, hk.users, hk.calls, hk.expected⟩,
          ⟨hsw.live.alive, hsw.live.granted⟩, hsw.size, ?_⟩
        intro hW i hij hn hne
        change w.state.server.registry.fds i ≠ -1 at hne
        rcases Nat.lt_succ_iff_lt_or_eq.mp hij with hlt | rfl
        · obtain ⟨c, hc, hs⟩ := hsw.shut hW i hlt hn hne
          obtain ⟨c', hc', hs'⟩ := hkept _ c hc
          exact ⟨c', hc', hs' hs⟩
        · obtain ⟨u, hu, _⟩ := hi.users_of_entry ⟨hne, i, by rw [hsw.size]; exact hn, rfl⟩
          obtain ⟨c, hc⟩ := Option.ne_none_iff_exists'.mp (hi.open_of_user hW _ u hu)
          change ∃ c, conns (w.state.server.registry.fds i) = some c ∧ c.shut = true
          rw [hx] at hc ⊢
          exact hshut c hc
  · intro _
    exact .ret (stable_sweeping hg) fun _ _ h => h

/-- `creg_shutdown_all` leaves all entries shut down. -/
theorem triple_cregShutdownAll (hg : g.crit = false)
    (hop : g.stored = true → g.opened = true) (hcoherent : g.Coherent)
    (hinside : ({ g with crit := true } : Tokens).Coherent) :
    (discipline E W).Triple t
      (fun w => Knows t g fd (some .shutdownAll) b w ∧ Live W t g handler w)
      cregShutdownAll.lift
      fun _ w => Knows t g fd (some .shutdownAll) b w ∧ Live W t g handler w := by
  have hsame : ({ { g with crit := true } with crit := false } : Tokens) = g := by
    cases g
    simp_all
  apply Discipline.Triple.lift_bind (triple_takeMutex hg hinside)
  intro _
  apply Discipline.Triple.lift_bind (Q := fun n => Sweeping W t { g with crit := true } fd b
    handler n 0)
  · have hstable : (discipline E W).Stable t fun w : World E =>
        Knows t { g with crit := true } fd (some .shutdownAll) b w ∧ Live W t g handler w :=
      fun _ _ hr _ h => ⟨h.1.rely hr, h.2.rely hr⟩
    refine triple_read (o := .regSize) hstable (fun _ => stable_sweeping rfl) ?_
      (fun _ _ => rfl) ?_
    · intro w hi hw
      exact safe_of_live hi hw.1.ghost ⟨hw.2.alive, hw.2.granted⟩ (by simp) (by simp)
    · intro w e r s hw he
      cases he
      refine ⟨rfl, hw.1, ⟨hw.2.alive, hw.2.granted⟩, rfl, ?_⟩
      exact fun _ i hi => absurd hi (by omega)
  intro n
  apply Discipline.Triple.lift_bind (Q := fun _ => Sweeping W t { g with crit := true } fd b
    handler n n)
  · apply Discipline.Triple.lift_search (fun j => Sweeping W t { g with crit := true } fd b
      handler n j) (fun _ => stable_sweeping rfl)
    · exact fun j hj => triple_shutdownEntry rfl hop hj
    · exact fun _ _ hw => hw
  intro _
  have hgive : (discipline E W).Triple t
      (fun w => Knows t { g with crit := true } fd (some .shutdownAll) b w ∧
        Sweeping W t { g with crit := true } fd b handler n n w ∧
        Live W t { g with crit := true } handler w)
      (semPost .mutex).lift
      fun _ w => Knows t { { g with crit := true } with crit := false } fd (some .shutdownAll) b w ∧
        Live W t { g with crit := true } handler w := by
    apply triple_giveMutex rfl (by rwa [hsame])
    · intro w w' hr hi h
      exact ⟨h.1.rely hr, stable_sweeping rfl w w' hr hi h.2.1, h.2.2.rely hr⟩
    · intro hlate _ w hw x hx
      obtain ⟨hne, i, hi, rfl⟩ := hx
      rw [hw.size] at hi
      exact hw.shut (W.servers_of_late hlate) i hi hi hne
  rw [hsame] at hgive
  refine (hgive.pre fun w _ hw => ⟨hw.knows, hw, hw.live⟩).post fun _ w _ hw => ?_
  exact ⟨hw.1, hw.2.alive, hw.2.granted⟩

/-- A call of a function that gives no token to its caller. -/
theorem triple_call (c : RegistryCall) (hc : c = .waitForEmpty ∧ W.waiting ∨ c = .shutdownAll)
    (hg : g.crit = false) (hop : g.stored = true → g.opened = true) (hcoherent : g.Coherent)
    (hinside : ({ g with crit := true } : Tokens).Coherent) :
    (discipline E W).Triple t (fun w => Knows t g fd none b w ∧ Live W t g handler w)
      (registryCall c) fun _ w => Knows t g fd none b w ∧ Live W t g handler w := by
  refine .bind (triple_began hop c) fun _ => ?_
  rcases hc with ⟨rfl, hwaiting⟩ | rfl
  · refine .bind (Q := fun v w => v = .void ∧
      (Knows t g fd (some .waitForEmpty) b w ∧ Live W t g handler w)) ?_ fun v => ?_
    · apply Discipline.Triple.lift_bind (triple_cregWaitForEmpty hop hwaiting)
      exact fun _ => .ret stable_live fun _ _ h => ⟨rfl, h⟩
    · apply Discipline.Triple.fact_pre
      rintro rfl
      exact triple_ended hop (by simp) (by simp)
  · refine .bind (Q := fun v w => v = .void ∧
      (Knows t g fd (some .shutdownAll) b w ∧ Live W t g handler w)) ?_ fun v => ?_
    · apply Discipline.Triple.lift_bind (triple_cregShutdownAll hg hop hcoherent hinside)
      exact fun _ => .ret stable_live fun _ _ h => ⟨rfl, h⟩
    · apply Discipline.Triple.fact_pre
      rintro rfl
      exact triple_ended hop (by simp) (by simp)

theorem live_of_calls (hW : ¬ W.servers) : Live W t g False w :=
  ⟨False.elim, .inr (.inl fun h => hW (W.servers_of_early h))⟩

theorem triple_callRegister (hf : 0 ≤ f) (hW : ¬ W.servers) :
    (discipline E W).Triple t (Knows t .none (some f) none false)
      (registryCall (.register f)) fun _ => Knows t (.resting f) (some f) none false := by
  have hlive : ∀ {g : Tokens} {w : World E}, Live W t g False w := live_of_calls hW
  have hbegan : (discipline E W).Triple t
      (fun w => Knows t .none (some f) none false w ∧ Live W t .none False w)
      (began (.register f)) fun _ w =>
        Knows t .none (some f) (some (.register f)) false w ∧ Live W t .none False w :=
    triple_began (by simp) _
  refine .bind (hbegan.pre fun w _ hw => ⟨hw, hlive⟩) fun _ => ?_
  refine .bind (Q := fun v w => v = .int 0 ∧
    (Knows t (.resting f) (some f) (some (.register f)) false w ∧
      Live W t (.resting f) False w)) ?_ fun v => ?_
  · refine Discipline.Triple.pre ?_ fun w _ hw => hw.1
    apply Discipline.Triple.lift_bind (triple_cregRegister hf ?_ (fun _ => rfl) (by simp) (by simp))
    · intro r
      apply Discipline.Triple.fact_pre
      rintro rfl
      exact .ret stable_knows fun _ _ h => ⟨rfl, h, hlive⟩
    · exact fun h => absurd (W.servers_of_early h) hW
  · apply Discipline.Triple.fact_pre
    rintro rfl
    exact (triple_ended (by simp) (by simp) (by simp)).post fun _ _ _ h => h.1

theorem triple_callUnregister (hW : ¬ W.servers) :
    (discipline E W).Triple t (Knows t (.resting f) (some f) none false)
      (registryCall (.unregister f)) fun _ => Knows t .none none none false := by
  have hbegan : (discipline E W).Triple t
      (fun w => Knows t (.resting f) (some f) none false w ∧ Live W t (.resting f) False w)
      (began (.unregister f)) fun _ w =>
        Knows t (.resting f) (some f) (some (.unregister f)) false w ∧
          Live W t (.resting f) False w :=
    triple_began (by simp) _
  refine .bind (hbegan.pre fun w _ hw => ⟨hw, live_of_calls hW⟩) fun _ => ?_
  refine .bind (Q := fun v w => v = .int 0 ∧
    Knows t .none (some f) (some (.unregister f)) false w) ?_ fun v => ?_
  · refine Discipline.Triple.pre ?_ fun w _ hw => hw.1
    apply Discipline.Triple.lift_bind (triple_cregUnregister (by simp))
    intro r
    apply Discipline.Triple.fact_pre
    rintro rfl
    exact .ret stable_knows fun _ _ h => ⟨rfl, h⟩
  · apply Discipline.Triple.fact_pre
    rintro rfl
    exact triple_endedUnregister (by simp)

/-! ## The handler -/

/-- The handler's thread frees a block of the registry. -/
theorem triple_freeBlock (x : RegistryBlock) :
    (discipline E W).Triple t
      (fun w => Knows t .none none none false w ∧ ∃ v, w.state.signal = some (v, t))
      (freeBlock x)
      fun _ w => Knows t .none none none false w ∧ ∃ v, w.state.signal = some (v, t) := by
  have hstable : (discipline E W).Stable t fun w : World E =>
      Knows t .none none none false w ∧ ∃ v, w.state.signal = some (v, t) := by
    intro w w' hr _ h
    obtain ⟨v, hv⟩ := h.2
    exact ⟨h.1.rely hr, v, hr.signal _ hv⟩
  refine triple_mark (o := .free x) hstable hstable (by simp) ?_
  intro w e r d hi hw he ha
  obtain ⟨hk, v, hv⟩ := hw
  simp only [Process.execMain] at he
  split at he
  · cases he
  cases he
  constructor
  · apply hi.moves_other { w.state with freed := Function.update w.state.freed x true }
      rfl rfl rfl rfl (fun _ _ _ => .rfl)
    case huser => exact hi.user t
    case hcalls => exact fun _ _ => rfl
    case hwindow => simp [hk.ghost]
    case hexpected => exact fun _ _ => rfl
    case hopen => exact hi.open_of_user
    case hshut => exact fun _ _ hs => hs
    case hsignal => exact fun _ hp => hp
    case hintact =>
      intro hnone
      change w.state.signal = none at hnone
      rw [hv] at hnone
      cases hnone
    case hrely =>
      intro u hu v' hv'
      rw [hv] at hv'
      cases hv'
      exact absurd rfl hu
    case hfreed => exact fun hW _ => ha.early hW x rfl
    case haside => exact hi.aside
  · exact ⟨⟨by simpa using hk.ghost, hk.users, hk.calls, hk.expected⟩, v, hv⟩

theorem triple_exchangeFini :
    (discipline E W).Triple t (Knows t .none none none false) exchangeFini
      fun _ => Knows t .none none none false := by
  refine triple_mark (o := .exchangeFini) stable_knows stable_knows (by simp) ?_
  intro w e r d hi hw he _
  cases e with
  | inl e => cases he
  | inr x =>
    cases he
    constructor
    · apply hi.moves_server (s := { w.state.server with exchange := x })
      · simp [hw.ghost]
      · rfl
      · exact fun fd c hc => ⟨c, hc, id⟩
    · exact ⟨by simpa using hw.ghost, hw.users, hw.calls, hw.expected⟩

theorem triple_exit :
    (discipline E W).Triple t (Knows t .none none none false) exit
      fun _ => Knows t .none none none false := by
  refine triple_mark (o := .exit) stable_knows stable_knows (by simp) ?_
  intro w e r d hi hw he _
  cases he
  constructor
  · apply hi.moves_other { w.state with exited := true } rfl rfl rfl rfl (fun _ _ _ => .rfl)
    case huser => exact hi.user t
    case hcalls => exact fun _ _ => rfl
    case hwindow => simp [hw.ghost]
    case hexpected => exact fun _ _ => rfl
    case hopen => exact hi.open_of_user
    case hshut => exact fun _ _ hs => hs
    case hsignal => exact fun _ hp => hp
    case hintact => exact hi.intact
    case hrely => exact fun _ _ _ _ => rfl
    case hfreed => exact hi.freed
    case haside => exact hi.aside
  · exact ⟨by simpa using hw.ghost, hw.users, hw.calls, hw.expected⟩

theorem triple_terminate (hwaiting : W.waiting) :
    (discipline E W).Triple t
      (fun w => Knows t .none none none false w ∧ Live W t .none True w) terminate
      fun _ => Knows t .none none none false := by
  have hinside : ({ Tokens.none with crit := true } : Tokens).Coherent := by
    constructor <;> simp
  refine .bind (triple_call .shutdownAll (.inr rfl) rfl (by simp) Tokens.coherent_none hinside)
    fun _ => ?_
  refine .bind (triple_call .waitForEmpty (.inl ⟨rfl, hwaiting⟩) rfl (by simp)
    Tokens.coherent_none hinside) fun _ => ?_
  refine .bind (Q := fun _ => Knows t .none none none false) ?_ fun _ => ?_
  · apply Discipline.Triple.pre (P := fun w => Knows t .none none none false w ∧
      ∃ v, w.state.signal = some (v, t))
    · refine .bind (triple_freeBlock .fds) fun _ => ?_
      exact (triple_freeBlock .registry).post fun _ _ _ h => h.1
    · exact fun w _ hw => ⟨hw.1, (hw.2.alive trivial).1⟩
  refine .bind triple_exchangeFini fun _ => ?_
  refine .bind (triple_code apart_traderFini.outside (by simp)) fun _ => ?_
  exact triple_exit

end BourseServer.Registry
