import BourseServer.Registry.Gate

/-!
# Waiting for the registry to be empty

A wait takes `count_mutex` for good, so the registry can be waited for only once; and it overlooks
a client that has stored its descriptor and not yet closed the gate. Both are shown for any number
of threads that register and unregister any descriptors in any order.
-/
namespace BourseServer

open Concurrency Registry

variable {E : Exchange}

namespace Gate

variable {proper : Prop} {t : Nat} {w : World E} {p : Phase} {c : RegistryCall}

/-! ## The calls -/

theorem stable_idle : (discipline E proper).Stable t (Idle t) := by
  intro w w' hr _ h
  unfold Idle
  rw [hr.ghost]
  exact h

theorem triple_searchForEmptySlot :
    (discipline E proper).Triple t (Inside t .inside c fun _ _ => True) searchForEmptySlot.lift
      fun r => r.elim (Inside t .inside c fun _ _ => True)
        fun i => Inside t .inside c fun n T => i < n ∧ T.fds i = -1 := by
  have hQ : ∀ r : Option Nat, (discipline E proper).Stable t
      (r.elim (Inside t .inside c fun _ _ => True)
        fun i => Inside t .inside c fun n T => i < n ∧ T.fds i = -1) := by
    intro r
    cases r with
    | none => exact stable_inside (F := fun _ _ => True) rfl
    | some i => exact stable_inside (F := fun n T => i < n ∧ T.fds i = -1) rfl
  apply Discipline.Triple.lift_bind (triple_regSize rfl)
  intro n
  apply Discipline.Triple.pre (P := Inside t .inside c fun m _ => m = n)
  · apply Discipline.Triple.lift_search (fun _ => Inside t .inside c fun m _ => m = n) hQ
    · intro j hj
      apply Discipline.Triple.lift_bind (triple_regFd rfl j)
      intro x
      split_ifs with hx
      · refine .ret (stable_inside rfl) fun w _ hw => ⟨hw.1, ?_, ?_⟩
        · rw [hw.2.1]
          exact hj
        · rw [hw.2.2, hx]
      · exact .ret (stable_inside rfl) fun w _ hw => ⟨hw.1, hw.2.1⟩
    · exact fun w _ hw => ⟨hw.1, trivial⟩
  · exact fun w _ hw => ⟨hw.1, hw.2.2⟩

/-- `creg_register` stores and counts its descriptor and closes the gate for the first one, or
finds the registry full and keeps the mutex. -/
theorem triple_cregRegister {f : Int} (hf : proper → f ≠ -1) (hp : p = .outside ∨ p = .inside) :
    (discipline E proper).Triple t (Is t p (.register f)) (cregRegister f).lift
      fun _ => Idle t := by
  have hend : (discipline E proper).Triple t
      (Inside t .holding (.register f) fun _ _ => True)
      (do semPost .mutex; semPost .items; pure (0 : Int) : Code Int).lift fun _ => Idle t := by
    apply Discipline.Triple.lift_bind
      (triple_giveMutex (p := .holding) (q := .owing) rfl rfl rfl rfl le_rfl)
    intro _
    apply Discipline.Triple.lift_bind triple_giveItem
    intro _
    exact .ret stable_is fun w _ hw => .inl hw.phase
  have hhalf : p.half = false := by
    rcases hp with rfl | rfl <;> rfl
  have hpending : Phase.inside.pending = p.pending := by
    rcases hp with rfl | rfl <;> rfl
  apply Discipline.Triple.lift_bind (triple_takeSlot hhalf)
  intro _
  apply Discipline.Triple.lift_bind (triple_takeMutex (q := .inside) rfl rfl rfl rfl hpending)
  intro _
  apply Discipline.Triple.lift_bind triple_searchForEmptySlot
  intro r
  cases r with
  | none =>
    exact .ret (stable_inside (F := fun _ _ => True) rfl) fun w _ hw => .inr hw.1.phase
  | some i =>
    apply Discipline.Triple.lift_bind (triple_place hf)
    intro _
    apply Discipline.Triple.lift_bind (triple_regCount rfl)
    intro n
    apply Discipline.Triple.lift_bind (Q := fun _ => Inside t .counted (.register f)
      fun _ T => T.count = n + 1)
    · refine (triple_setRegCount (m := n) rfl rfl ?_ ?_ ?_ fun _ => rfl).pre
        fun w _ hw => ⟨hw.1, hw.2.2⟩
      all_goals simp [Phase.gap, Phase.lag, Phase.pending]
      omega
    · intro _
      apply Discipline.Triple.lift_bind
        (triple_test (p := .counted) (q := .holding) (n := 1) rfl rfl rfl rfl rfl ?_)
      · intro x
        dsimp only
        split_ifs with hx
        · apply Discipline.Triple.lift_bind (triple_closeGate (by simp))
          exact fun _ => hend
        · exact hend
      · intro x hle hne
        simp only [Phase.pending, Bool.toNat_true, Nat.cast_one, Phase.lag] at hle ⊢
        omega

/-- The end of `creg_unregister`. -/
theorem triple_giveBoth {q : Phase} {α : Type} (hq : q.crit = true) (hlag : q.lag = 0)
    (hgap : q.gap = 0) (r : α) :
    (discipline E proper).Triple t (Inside t q c fun _ _ => True)
      (do semPost .mutex; semPost .slots; pure r : Code α).lift
      fun r' w => r' = r ∧ Is t .outside c w := by
  apply Discipline.Triple.lift_bind
    (triple_giveMutex (q := .outside) hq hlag hgap rfl (Nat.zero_le _))
  intro _
  apply Discipline.Triple.lift_bind (triple_giveSlot rfl)
  intro _
  exact .ret stable_is fun _ _ hw => ⟨rfl, hw⟩

/-- The entry that `creg_unregister` has found is cleared and counted no more, and the gate is
opened after the last one. -/
theorem triple_removal {j : Nat} {f : Int} (hf : proper → f ≠ -1) :
    (discipline E proper).Triple t (Inside t .holding c fun m T => j < m ∧ T.fds j = f)
      (do
        setRegFd j (-1)
        let count ← regCount
        setRegCount (count - 1)
        let count ← regCount
        if count = 0 then semPost .countMutex else pure ()
        semPost .mutex
        semPost .slots
        pure (some ()) : Code (Option Unit)).lift
      fun r w => r = some () ∧ Is t .outside c w := by
  apply Discipline.Triple.lift_bind (triple_clear hf)
  intro _
  apply Discipline.Triple.lift_bind (triple_regCount rfl)
  intro k
  apply Discipline.Triple.lift_bind (Q := fun _ => Inside t .dropped c fun _ T => T.count = k - 1)
  · refine (triple_setRegCount (m := k) rfl rfl ?_ ?_ ?_ ?_).pre fun w _ hw => ⟨hw.1, hw.2.2⟩
    all_goals simp [Phase.gap, Phase.lag, Phase.pending, Phase.half]
    omega
  · intro _
    apply Discipline.Triple.lift_bind
      (triple_test (p := .dropped) (q := .inside) (n := 0) rfl rfl rfl rfl rfl ?_)
    · intro x
      split_ifs with hx
      · apply Discipline.Triple.lift_bind triple_openGate
        exact fun _ => triple_giveBoth rfl rfl rfl _
      · exact triple_giveBoth rfl rfl rfl _
    · intro x hle hne
      simp only [Phase.pending, Bool.toNat_false, Nat.cast_zero, Phase.lag] at hle ⊢
      omega

/-- `creg_unregister` takes an item and the mutex, searches the entries, and gives the mutex back
in any case. -/
theorem triple_cregUnregister {f : Int} (hf : proper → f ≠ -1)
    (hp : p = .outside ∨ p = .inside) :
    (discipline E proper).Triple t (Is t p c) (cregUnregister f).lift fun _ => Idle t := by
  have hitem : (discipline E proper).Triple t (Is t p c) (semWait .items).lift
      fun _ w => ∃ q : Phase, q.pending = true ∧ Is t q c w := by
    rcases hp with rfl | rfl
    · exact (triple_takeItem (p := .outside) (q := .owing) rfl rfl rfl rfl).post
        fun _ w _ hw => ⟨.owing, rfl, hw⟩
    · exact (triple_takeItem (p := .inside) (q := .holding) rfl rfl rfl rfl).post
        fun _ w _ hw => ⟨.holding, rfl, hw⟩
  apply Discipline.Triple.lift_bind hitem
  intro _
  apply Discipline.Triple.exists_pre
  intro q
  apply Discipline.Triple.fact_pre
  intro hq
  apply Discipline.Triple.lift_bind
    (triple_takeMutex (q := .holding) rfl rfl rfl rfl (by rw [hq]; rfl))
  intro _
  apply Discipline.Triple.lift_bind (triple_regSize rfl)
  intro n
  have hQ : ∀ r : Option Unit, (discipline E proper).Stable t
      (r.elim (Inside t .holding c fun _ _ => True) fun _ => Is t .outside c) := by
    intro r
    cases r with
    | none => exact stable_inside (F := fun _ _ => True) rfl
    | some _ => exact stable_is
  apply Discipline.Triple.lift_bind (Q := fun r : Option Unit =>
    r.elim (Inside t .holding c fun _ _ => True) fun _ => Is t .outside c)
  · apply Discipline.Triple.pre (P := Inside t .holding c fun m _ => m = n)
    · apply Discipline.Triple.lift_search (fun _ => Inside t .holding c fun m _ => m = n) hQ
      · intro j hj
        apply Discipline.Triple.lift_bind (triple_regFd rfl j)
        intro x
        dsimp only
        split_ifs with hx
        · apply Discipline.Triple.pre (P := Inside t .holding c fun m T => j < m ∧ T.fds j = f)
          · refine (triple_removal hf).post fun r w _ hw => ?_
            rw [hw.1]
            exact hw.2
          · intro w _ hw
            refine ⟨hw.1, ?_, ?_⟩
            · rw [hw.2.1]
              exact hj
            · rw [hw.2.2, hx]
        · exact .ret (stable_inside rfl) fun w _ hw => ⟨hw.1, hw.2.1⟩
      · exact fun w _ hw => ⟨hw.1, trivial⟩
    · exact fun w _ hw => ⟨hw.1, hw.2.2⟩
  · intro r
    cases r with
    | some _ => exact .ret stable_is fun w _ hw => .inl hw.phase
    | none =>
      exact (triple_giveBoth rfl rfl rfl (-1)).post fun _ w _ hw => .inl hw.2.phase

/-- A change of what is recorded of thread `t`. -/
theorem Inv.moves_same (h : Inv proper w) (d : Process E)
    (hregistry : d.server.registry = w.state.server.registry)
    (hholder : d.holder = w.state.holder) (hwaits : d.waits = w.state.waits)
    (hcalls : ∀ u, u ≠ t → d.calls u = w.state.calls u) (hhalf : (w.ghost t).half = false) :
    (discipline E proper).Moves t w (w.after t d (w.ghost t)) := by
  have hghost : (w.after t d (w.ghost t)).ghost = w.ghost := Function.update_eq_self ..
  constructor
  · constructor
    all_goals
      simp only [World.after_state, hghost, hregistry, hholder, hwaits]
    case holder => exact h.holder
    case mutex => exact h.mutex
    case items => exact h.items
    case agrees => exact h.agrees
    case half =>
      intro hp u hu
      have hut : u ≠ t := by
        rintro rfl
        rw [hhalf] at hu
        cases hu
      obtain ⟨fd, hcall, hentry⟩ := h.half hp u hu
      refine ⟨fd, (hcalls u hut).trans hcall, ?_⟩
      unfold Process.Entry
      rw [hregistry]
      exact hentry
  · intro u hu
    exact ⟨congrFun hghost u, hcalls u hu, by rw [World.after_state, hregistry],
      fun _ => by rw [World.after_state, hregistry]⟩

theorem Idle.half (h : Idle t w) : (w.ghost t).half = false := by
  rcases h with h | h <;> rw [h] <;> rfl

theorem triple_began :
    (discipline E proper).Triple t (Idle t) (began c)
      fun _ w => ∃ p, (p = .outside ∨ p = .inside) ∧ Is t p c w := by
  refine .act stable_idle (fun _ => .exists fun p => .and (.const _) stable_is)
    (fun _ _ _ h => by cases h) fun w hi hw e r d he _ => ?_
  change Process.exec t (.inr (.began c)) e w.state = .done r d at he
  unfold Process.exec at he
  split at he
  · cases he
  · cases he
    refine ⟨w.ghost t, hi.moves_same _ rfl rfl rfl (fun u hu => Function.update_of_ne hu ..)
      hw.half, w.ghost t, hw, World.after_ghost_self .., Function.update_self ..⟩

theorem triple_ended {v : Value} :
    (discipline E proper).Triple t (Idle t) (ended c v) fun _ => Idle t := by
  refine .act stable_idle (fun _ => stable_idle) (fun _ _ _ h => by cases h)
    fun w hi hw e r d he _ => ?_
  change Process.exec t (.inr (.ended c v)) e w.state = .done r d at he
  unfold Process.exec at he
  split at he
  · cases he
  · cases he
    refine ⟨w.ghost t, hi.moves_same _ rfl rfl rfl (fun u hu => Function.update_of_ne hu ..)
      hw.half, ?_⟩
    unfold Idle
    rw [World.after_ghost_self]
    exact hw

end Gate

/-- No descriptor -1. -/
def RegistryCall.Proper : RegistryCall → Prop
  | .register fd | .unregister fd => fd ≠ -1
  | _ => True

namespace Gate

theorem triple_registryCall (hsweep : c ≠ .shutdownAll) (hproper : proper → c.Proper) :
    (discipline E proper).Triple t (Idle t) (registryCall c) fun _ => Idle t := by
  refine .bind triple_began fun _ => .bind (Q := fun _ => Idle t) ?_ fun _ => triple_ended
  apply Discipline.Triple.exists_pre
  intro p
  apply Discipline.Triple.fact_pre
  intro hp
  cases c with
  | register fd =>
    exact .lift_bind (triple_cregRegister hproper hp)
      fun _ => .ret stable_idle fun _ _ hw => hw
  | unregister fd =>
    exact .lift_bind (triple_cregUnregister hproper hp)
      fun _ => .ret stable_idle fun _ _ hw => hw
  | waitForEmpty =>
    have hhalf : p.half = false := by
      rcases hp with rfl | rfl <;> rfl
    refine .lift_bind (triple_cregWaitForEmpty hhalf) fun _ => .ret stable_is fun w _ hw => ?_
    unfold Idle
    rw [hw.phase]
    exact hp
  | shutdownAll => exact absurd rfl hsweep

/-- The starts: any thread registers, unregisters or waits. -/
def Allow (proper : Prop) (_ : Nat) (q : Process.Request) (_ : Process E) : Prop :=
  ∃ c, q = .call c ∧ c ≠ .shutdownAll ∧ (proper → c.Proper)

theorem verified : (discipline E proper).Verified (Allow proper) where
  body _ _ _ _ h := h.elim
  start t q w p s hi hidle h ha := by
    obtain ⟨c, rfl, hsweep, hproper⟩ := ha
    have hstart : p = registryCall c ∧ s.server.registry = w.state.server.registry ∧
        s.holder = w.state.holder ∧ s.waits = w.state.waits ∧ s.calls = w.state.calls := by
      cases c <;> cases h <;> exact ⟨rfl, rfl, rfl, rfl, rfl⟩
    obtain ⟨rfl, hregistry, hholder, hwaits, hcalls⟩ := hstart
    have hm := hi.moves_same (t := t) s hregistry hholder hwaits
      (fun u _ => congrFun hcalls u) hidle.half
    refine ⟨w.ghost t, hm, triple_registryCall hsweep hproper _ hm.inv ?_⟩
    unfold Idle
    rw [World.after_ghost_self]
    exact hidle

theorem holds_init (x : E.State) (n : Nat) :
    (discipline E proper).Holds (Pool.idle (Process.init E x n)) := by
  refine Discipline.holds_idle (g := fun _ => .outside) ?_ fun t w hr _ => .inl hr.ghost
  constructor
  case holder => simp [Process.init, Phase.crit]
  case mutex => rfl
  case items => exact ⟨0, Tally.none.congr (by simp [Phase.pending]), le_rfl⟩
  case agrees =>
    refine ⟨rfl, fun _ => ?_⟩
    simp [Process.init, State.init, front, Phase.gap, ClientRegistry.occupied]
  case half => exact fun _ _ h => by cases h

/-- What holds of the phases in a reached pool. -/
structure Settled (proper : Prop) (c : Pool (mainSystem E)) (g : Nat → Phase) : Prop where
  inv : Inv proper (⟨c.state, g⟩ : World E)
  safe : ∀ t o k, c.prog t = .op o k → Safe t o c.state
  idle : ∀ t a, c.prog t = .ret a → Idle t (⟨c.state, g⟩ : World E)

theorem settled {x : E.State} {n : Nat} {c : Pool (mainSystem E)}
    (h : Pool.ReachIf ((discipline E proper).Allowed (Allow proper))
      (Pool.idle (Process.init E x n)) c) : ∃ g, Settled proper c g := by
  obtain ⟨g, hinv, hsafe, hidle⟩ := (Discipline.adequacy verified (holds_init x n) h).safe
  exact ⟨g, hinv, hsafe, hidle⟩

/-- Between the calls nobody is in the middle of an update. -/
theorem Settled.front_idle {c : Pool (mainSystem E)} {g : Nat → Phase}
    (h : Settled proper c g) (hquiet : Quiet c) : (front c.state.holder g).lag = 0 := by
  cases hh : c.state.holder with
  | none => rfl
  | some u =>
    rcases h.idle u () (hquiet u) with hu | hu
    · change (g u).lag = 0
      rw [show g u = .outside from hu]
      rfl
    · change (g u).lag = 0
      rw [show g u = .inside from hu]
      rfl

end Gate

/-! ## The wait -/

/-- Threads register and unregister descriptors other than -1, any thread any descriptor, and wait
for the registry to be empty. -/
def waiterRuns (_ : Pool (mainSystem E)) : Move (mainSystem E) → Prop
  | .run _ _ => True
  | .start _ q => ∃ call, q = .call call ∧ call ≠ .shutdownAll ∧ call.Proper

/-- A call of `creg_register` has the mutex and has stored its descriptor. -/
def HalfRegistered (d : Process E) : Prop :=
  ∃ t fd, d.holder = some t ∧ d.calls t = some (.register fd) ∧ d.Entry fd

open Gate in
/-- Whoever takes `count_mutex`, as the wait does, finds no descriptor registered if and only if
no call of `creg_register` is between its store to `fds` and the end of its critical section. -/
theorem wait_finds_empty_iff {x : E.State} {n : Nat} {c c' : Pool (mainSystem E)} {t : Nat}
    {e : Choice E ⊕ E.State} {k : Unit → MainCode Unit}
    (h : Pool.ReachIf waiterRuns (Pool.idle (Process.init E x n)) c)
    (hop : c.prog t = .op (.inl (.semWait .countMutex)) k)
    (hstep : c.step (.run t e) = some c') :
    (c.state.server.registry.count = 0 ∧ ∀ i, i < c.state.server.registry.n →
      c.state.server.registry.fds i = -1) ↔ ¬ HalfRegistered c.state := by
  have hallowed : Pool.ReachIf ((Gate.discipline E True).Allowed (Gate.Allow True))
      (Pool.idle (Process.init E x n)) c := by
    refine h.mono fun d m hm => ?_
    cases m with
    | run t e => exact fun _ _ _ => trivial
    | start t q =>
      obtain ⟨call, hq, hsweep, hproper⟩ := hm
      exact ⟨call, hq, hsweep, fun _ => hproper⟩
  obtain ⟨g, hg⟩ := Gate.settled hallowed
  have hi := hg.inv
  constructor
  · rintro ⟨_, hempty⟩ ⟨u, fd, _, _, hne, i, hi, rfl⟩
    exact hne (hempty i hi)
  intro hno
  have hpos : 0 < c.state.server.registry.sem .countMutex := by
    obtain ⟨r, hexec, _⟩ := Pool.exec_of_step hstep hop
    obtain ⟨_, _, e', s, hexec, _⟩ := Process.exec_inl hexec
    exact (exec_semWait hexec).1
  have hgate := hi.agrees.gate
  have hentries := hi.agrees.entries trivial
  have hcount := hi.count_nonneg
  dsimp only at hgate hentries hcount
  have hshown : ¬ 1 ≤ c.state.server.registry.count + (front c.state.holder g).lag := by
    intro hclosed
    rw [if_pos hclosed] at hgate
    omega
  -- the thread in the critical section has neither a count nor an entry of its own
  have hfront : (front c.state.holder g).lag = 0 ∧ (front c.state.holder g).gap = 0 := by
    cases hh : c.state.holder with
    | none => exact ⟨rfl, rfl⟩
    | some u =>
      rw [hh] at hshown
      change ¬ 1 ≤ c.state.server.registry.count + (g u).lag at hshown
      change (g u).lag = 0 ∧ (g u).gap = 0
      have hpending := hi.pending_le (t := u)
      dsimp only at hpending
      have hhalf : (g u).half = false := by
        by_contra hin
        obtain ⟨fd, hcall, hentry⟩ := hi.half trivial u (by simpa using hin)
        exact hno ⟨u, fd, hh, hcall, hentry⟩
      cases hu : g u with
      | stored | counted =>
        rw [hu] at hhalf
        cases hhalf
      | cleared | dropped =>
        rw [hu] at hshown hpending
        simp [Gate.Phase.lag, Gate.Phase.pending] at hshown hpending
        omega
      | _ => exact ⟨rfl, rfl⟩
  rw [hfront.1] at hshown
  rw [hfront.2] at hentries
  have hzero : c.state.server.registry.count = 0 := by omega
  refine ⟨hzero, fun i hlt => ?_⟩
  by_contra hfull
  have hone := ClientRegistry.occupied_clear hlt hfull
  omega

/-- Everything goes smoothly, and threads register, unregister and wait. -/
def waiterCourse : Pool.Course (mainSystem (.fixed 1 1)) :=
  smoothProcess (E := .fixed 1 1) () () (fun _ _ _ => true) fun _ q _ =>
    match q with
    | .call (.register fd) | .call (.unregister fd) => fd ≠ -1
    | .call .waitForEmpty => true
    | _ => false

theorem waiterCourse_within : waiterCourse.Within waiterRuns := by
  refine smoothProcess_within (fun _ _ _ _ _ _ => trivial) (fun _ _ _ _ _ => trivial) ?_
  intro c t q hq
  split at hq
  · rename_i fd
    exact ⟨_, rfl, by simp, of_decide_eq_true (p := fd ≠ -1) hq⟩
  · rename_i fd
    exact ⟨_, rfl, by simp, of_decide_eq_true (p := fd ≠ -1) hq⟩
  · exact ⟨_, rfl, by simp, trivial⟩
  · cases hq

/-- The registry before the first client, with room for two. -/
def freshRegistry : Pool (mainSystem (.fixed 1 1)) := Pool.idle (Process.init (.fixed 1 1) () 2)

/-- Thread 0 has stored its descriptor when the waiter takes `count_mutex`. -/
theorem exists_overlooked : ∃ (c c' : Pool (mainSystem (.fixed 1 1)))
    (k : Unit → MainCode Unit), Pool.ReachIf waiterRuns freshRegistry c ∧
      c.prog 1 = .op (.inl (.semWait .countMutex)) k ∧
      c.state.calls 1 = some .waitForEmpty ∧ c.step (.run 1 (.inl .tick)) = some c' ∧
      0 < c.state.server.registry.n ∧ c.state.server.registry.fds 0 = 3 := by
  obtain ⟨c, hc, ht⟩ := Pool.exists_reach waiterCourse_within
    [.start 0 (.call (.register 3)), .drive 0 6, .start 1 (.call .waitForEmpty), .drive 1 1]
    freshRegistry
    (fun c => (c.prog 1).atOp (takes .countMutex) ∧ c.state.calls 1 = some .waitForEmpty ∧
      0 < c.state.server.registry.n ∧ c.state.server.registry.fds 0 = 3 ∧
      (c.step (.run 1 (.inl .tick))).isSome)
    (by decide +kernel)
  obtain ⟨hgate, hcall, hn, hfd, hsome⟩ := of_decide_eq_true ht
  obtain ⟨k, hk⟩ := exists_of_takes hgate
  obtain ⟨c', hstep⟩ := Option.isSome_iff_exists.mp hsome
  exact ⟨c, c', k, hc, hk, hcall, hstep, hn, hfd⟩

theorem wait_overlooks_client : ∃ (c c' : Pool (mainSystem (.fixed 1 1)))
    (k : Unit → MainCode Unit), Pool.ReachIf waiterRuns freshRegistry c ∧
      c.prog 1 = .op (.inl (.semWait .countMutex)) k ∧
      c.state.calls 1 = some .waitForEmpty ∧ c.step (.run 1 (.inl .tick)) = some c' ∧
      ¬ (c.state.server.registry.count = 0 ∧ ∀ i, i < c.state.server.registry.n →
        c.state.server.registry.fds i = -1) := by
  obtain ⟨c, c', k, hc, hk, hcall, hstep, hn, hfd⟩ := exists_overlooked
  refine ⟨c, c', k, hc, hk, hcall, hstep, fun h => ?_⟩
  have hempty := h.2 0 hn
  omega

theorem wait_finds_empty_iff_overlooked : ∃ c : Pool (mainSystem (.fixed 1 1)),
    c.state.server.registry.fds 0 = 3 ∧ HalfRegistered c.state := by
  obtain ⟨c, c', k, hc, hk, _, hstep, hn, hfd⟩ := exists_overlooked
  refine ⟨c, hfd, ?_⟩
  by_contra hno
  have hempty := ((wait_finds_empty_iff hc hk hstep).mpr hno).2 0 hn
  omega

/-! ## The gate -/

/-- Any thread registers and unregisters any descriptor, in any order, and waits for the registry
to be empty. The calls may fail. `count` does not leave the range of `int`. -/
def callRuns (c : Pool (mainSystem E)) : Move (mainSystem E) → Prop
  | .run t _ => ∀ n k, c.prog t = .op (.inl (.setRegCount n)) k → FitsInt n
  | .start _ q => ∃ call, q = .call call ∧ call ≠ .shutdownAll

open Gate in
/-- Between the calls, `count_mutex` is 1 exactly when `count` is 0 if and only if no wait has
taken it; and a call of `creg_register` does not block at it if and only if no wait has. -/
theorem gate_iff_no_wait {x : E.State} {n : Nat} {c : Pool (mainSystem E)}
    (h : Pool.ReachIf callRuns (Pool.idle (Process.init E x n)) c) :
    (Quiet c → ((c.state.server.registry.sem .countMutex = 1 ↔
      c.state.server.registry.count = 0) ↔ c.state.waits = 0)) ∧
    ∀ t k, c.prog t = .op (.inl (.semWait .countMutex)) k →
      c.state.calls t ≠ some .waitForEmpty →
      (0 < c.state.server.registry.sem .countMutex ↔ c.state.waits = 0) := by
  have hallowed : Pool.ReachIf ((Gate.discipline E False).Allowed (Gate.Allow False))
      (Pool.idle (Process.init E x n)) c := by
    refine h.mono fun d m hm => ?_
    cases m with
    | run t e => exact fun _ _ _ => trivial
    | start t q =>
      obtain ⟨call, hq, hsweep⟩ := hm
      exact ⟨call, hq, hsweep, False.elim⟩
  obtain ⟨g, hg⟩ := Gate.settled hallowed
  constructor
  · intro hquiet
    have hgate := hg.inv.agrees.gate
    have hcount := hg.inv.count_nonneg
    dsimp only at hgate hcount
    rw [hg.front_idle hquiet] at hgate
    split_ifs at hgate <;> omega
  · intro t k hop hcall
    have hsum := hg.safe t _ k hop rfl hcall
    omega

def callCourse : Pool.Course (mainSystem (.fixed 1 1)) :=
  smoothProcess (E := .fixed 1 1) () ()
    (fun _ o _ =>
      match o with
      | .inl (.setRegCount n) => FitsInt n
      | _ => true)
    fun _ q _ =>
      match q with
      | .call c => c ≠ .shutdownAll
      | _ => false

theorem callCourse_within : callCourse.Within callRuns := by
  refine smoothProcess_within ?_ ?_ ?_
  · intro c t o k hop hguard n k' hop'
    rw [hop] at hop'
    cases hop'
    exact of_decide_eq_true hguard
  · intro c t p k hp n k' hop
    rw [hp] at hop
    cases hop
  · intro c t q hq
    split at hq
    · exact ⟨_, rfl, of_decide_eq_true hq⟩
    · cases hq

/-- A course of events after which no program runs, if only the first two threads act. -/
theorem exists_quiet (stages : List (Pool.Stage (mainSystem (.fixed 1 1))))
    (hstages : ∀ s ∈ stages, s.thread < 2)
    (test : Process (.fixed 1 1) → Bool)
    (h : ((Pool.perform callCourse stages freshRegistry).any fun c =>
      (c.prog 0).ended && (c.prog 1).ended && test c.state) = true) :
    ∃ c : Pool (mainSystem (.fixed 1 1)), Pool.ReachIf callRuns freshRegistry c ∧ Quiet c ∧
      test c.state = true := by
  obtain ⟨c, hc, ht, hprog⟩ := Pool.exists_reach_apart callCourse_within stages freshRegistry
    (fun c => (c.prog 0).ended && (c.prog 1).ended && test c.state) h
  simp only [Bool.and_eq_true] at ht
  obtain ⟨⟨hzero, hone⟩, htest⟩ := ht
  refine ⟨c, hc, fun t => ?_, htest⟩
  by_cases h₀ : t = 0
  · subst h₀
    exact (Prog.eq_ret_of_ended hzero).choose_spec
  by_cases h₁ : t = 1
  · subst h₁
    exact (Prog.eq_ret_of_ended hone).choose_spec
  · refine hprog t fun s hs => ?_
    have hlt := hstages s hs
    omega

/-- A wait returns, and no call is in progress. -/
theorem gate_closed_while_empty : ∃ c : Pool (mainSystem (.fixed 1 1)),
    Pool.ReachIf callRuns freshRegistry c ∧ Quiet c ∧
      ¬ (c.state.server.registry.sem .countMutex = 1 ↔ c.state.server.registry.count = 0) := by
  obtain ⟨c, hc, hquiet, ht⟩ := exists_quiet
    [.start 1 (.call .waitForEmpty), .drive 1 5] (by decide)
    (fun d => d.server.registry.count = 0 ∧ d.server.registry.sem .countMutex = 0)
    (by decide +kernel)
  obtain ⟨hcount, hclosed⟩ := of_decide_eq_true ht
  refine ⟨c, hc, hquiet, fun h => ?_⟩
  have hopen := h.mpr hcount
  omega

/-- A client registers, a thread clears an entry that is not in use, another client registers, and
a descriptor is not found. -/
theorem gate_iff_no_wait_careless : ∃ c : Pool (mainSystem (.fixed 1 1)), Quiet c ∧
    c.state.server.registry.fds 0 = 3 ∧ c.state.server.registry.count = 1 ∧
    ((c.state.server.registry.sem .countMutex = 1 ↔ c.state.server.registry.count = 0) ↔
      c.state.waits = 0) := by
  obtain ⟨c, hc, hquiet, ht⟩ := exists_quiet
    [.start 0 (.call (.register 3)), .drive 0 30, .start 1 (.call (.unregister (-1))),
      .drive 1 30, .start 1 (.call (.register 5)), .drive 1 30, .start 0 (.call (.unregister 7)),
      .drive 0 30]
    (by decide)
    (fun d => d.server.registry.fds 0 = 3 ∧ d.server.registry.count = 1)
    (by decide +kernel)
  obtain ⟨hfd, hcount⟩ := of_decide_eq_true ht
  exact ⟨c, hquiet, hfd, hcount, (gate_iff_no_wait hc).1 hquiet⟩

end BourseServer
