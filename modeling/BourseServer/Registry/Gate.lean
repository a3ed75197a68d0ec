import BourseServer.Registry.Occupancy

/-!
# The gate of the registry

`creg_register` closes the gate `count_mutex` for the first client, and `creg_unregister` opens it
after the last one, both in the critical section and after they have updated `count`. Here any
thread may call them with any descriptor: one that is registered already, one that nobody has
registered, or a negative one; and a call may fail. What is kept in all runs is that the gate shows
whether `count` is positive, up to an update in progress, and that `count` covers the items that
`creg_unregister` needs and the clients on their way to or from them.
-/
namespace BourseServer

open Concurrency Registry

variable {E : Exchange}

namespace Gate

/-- Where a thread is in the registry. A thread that is `owing` has been counted and has not given
its item, or has taken one and not changed the count; the phases after it are in the critical
section. -/
inductive Phase where
  | outside | owing
  | inside | stored | counted | holding | cleared | dropped
  deriving DecidableEq, Repr

namespace Phase

def crit : Phase → Bool
  | .outside | .owing => false
  | _ => true

/-- The thread has a count for which there is no item. -/
def pending : Phase → Bool
  | .owing | .counted | .holding | .cleared => true
  | _ => false

/-- The entries in use, less the count. -/
def gap : Phase → Int
  | .stored => 1
  | .cleared => -1
  | _ => 0

/-- The count that the gate shows, less the count. -/
def lag : Phase → Int
  | .counted => -1
  | .dropped => 1
  | _ => 0

/-- The thread has stored a descriptor, and the gate does not show it. -/
def half : Phase → Bool
  | .stored | .counted => true
  | _ => false

end Phase

abbrev World (E : Exchange) : Type := Concurrency.World (mainSystem E) Phase

/-- The gate shows whether `count` is positive, unless waits have taken it; and if no call is made
for descriptor -1, which marks the entries that are not in use, the count is that of the others. -/
structure Agrees (proper : Prop) (r : ClientRegistry) (waits : Nat) (p : Phase) : Prop where
  gate : r.sem .countMutex + (if 1 ≤ r.count + p.lag then 1 else 0) + waits = 1
  entries : proper → r.count + p.gap = r.occupied

/-- The phase of the thread in the critical section. -/
def front (holder : Option Nat) (g : Nat → Phase) : Phase := holder.elim .outside g

structure Inv (proper : Prop) (w : World E) : Prop where
  holder : ∀ t, w.state.holder = some t ↔ (w.ghost t).crit = true
  mutex : w.state.server.registry.sem .mutex + w.state.holder.isSome.toNat = 1
  items : ∃ k, Tally (fun t => (w.ghost t).pending = true) k ∧
    (w.state.server.registry.sem .items + k : Int) ≤ w.state.server.registry.count
  agrees : Agrees proper w.state.server.registry w.state.waits (front w.state.holder w.ghost)
  half : proper → ∀ t, (w.ghost t).half = true →
    ∃ fd, w.state.calls t = some (.register fd) ∧ w.state.Entry fd

/-- What thread `t` knows to be left alone by the other threads. -/
structure Rely (t : Nat) (w w' : World E) : Prop where
  ghost : w'.ghost t = w.ghost t
  calls : w'.state.calls t = w.state.calls t
  size : w'.state.server.registry.n = w.state.server.registry.n
  table : (w.ghost t).crit = true →
    w'.state.server.registry.table = w.state.server.registry.table

theorem Rely.trans {t : Nat} {u v w : World E} (h : Rely t u v) (h' : Rely t v w) :
    Rely t u w where
  ghost := h'.ghost.trans h.ghost
  calls := h'.calls.trans h.calls
  size := h'.size.trans h.size
  table hin := (h'.table (by rw [h.ghost, hin])).trans (h.table hin)

/-- A thread that is about to close the gate finds it open, unless waits have taken it. -/
def Safe (t : Nat) (o : process.Op) (d : Process E) : Prop :=
  o = .inl (.semWait .countMutex) → d.calls t ≠ some .waitForEmpty →
    d.server.registry.sem .countMutex + d.waits = 1

/-- Between its calls a thread is outside, unless it has found the registry full and kept the
mutex. -/
def Idle (t : Nat) (w : World E) : Prop := w.ghost t = .outside ∨ w.ghost t = .inside

def discipline (E : Exchange) (proper : Prop) : Discipline (mainSystem E) Phase where
  inv := Inv proper
  rely := Rely
  rely_refl _ _ := ⟨rfl, rfl, rfl, fun _ => rfl⟩
  rely_trans := Rely.trans
  assume _ _ _ _ := True
  safe t o w := Safe t o w.state
  pre _ _ _ := False
  post _ _ _ _ _ := True
  idle := Idle

variable {proper : Prop} {t : Nat} {w w' : World E} {p q : Phase} {c : RegistryCall}

/-! ## What keeps the invariant -/

theorem Inv.front_of_crit (h : Inv proper w) (hin : (w.ghost t).crit = true) :
    front w.state.holder w.ghost = w.ghost t := by
  rw [(h.holder t).mpr hin]
  rfl

theorem Inv.crit_unique (h : Inv proper w) {u : Nat} (ht : (w.ghost t).crit = true)
    (hu : (w.ghost u).crit = true) : u = t :=
  Option.some.inj (((h.holder u).mpr hu).symm.trans ((h.holder t).mpr ht))

theorem Phase.crit_of_half (h : p.half = true) : p.crit = true := by
  cases p <;> first | rfl | cases h

/-- An action of thread `t` on the registry, with the phase `p` after it. -/
theorem Inv.moves (h : Inv proper w) {r : ClientRegistry} {expected : Nat → Bool}
    {holder : Option Nat} {waits : Nat} {swept : Bool}
    (hn : r.n = w.state.server.registry.n)
    (htable : r.table = w.state.server.registry.table ∨ (w.ghost t).crit = true)
    (hholder : ∀ u, holder = some u ↔ (Function.update w.ghost t p u).crit = true)
    (hmutex : r.sem .mutex + holder.isSome.toNat = 1)
    (hitems : (r.sem .items + p.pending.toNat + w.state.server.registry.count : Int) ≤
      w.state.server.registry.sem .items + (w.ghost t).pending.toNat + r.count)
    (hagrees : Agrees proper r waits (front holder (Function.update w.ghost t p)))
    (hhalf : proper → p.half = true → ∃ fd, w.state.calls t = some (.register fd) ∧
      (change w.state r expected holder waits swept).Entry fd) :
    (discipline E proper).Moves t w
      (w.after t (change w.state r expected holder waits swept) p) := by
  have htable' : ∀ u, u ≠ t → (w.ghost u).crit = true →
      r.table = w.state.server.registry.table := by
    intro u hu hin
    exact htable.resolve_right fun ht => hu (h.crit_unique ht hin)
  constructor
  · constructor
    case holder => exact hholder
    case mutex => exact hmutex
    case items =>
      obtain ⟨k, hk, hle⟩ := h.items
      obtain ⟨m, hm, hnew⟩ := Tally.update (f := Phase.pending) hk t p
      refine ⟨_, hnew, ?_⟩
      change (r.sem .items + (m + p.pending.toNat : Nat) : Int) ≤ r.count
      push_cast
      omega
    case agrees => exact hagrees
    case half =>
      intro hp u hu
      by_cases hut : u = t
      · subst hut
        rw [World.after_ghost_self] at hu
        exact hhalf hp hu
      · rw [World.after_ghost_of_ne w _ _ hut] at hu
        obtain ⟨fd, hcall, hne, i, hi, hfd⟩ := h.half hp u hu
        have hsame := congrArg Table.fds (htable' u hut (Phase.crit_of_half hu))
        refine ⟨fd, hcall, hne, i, ?_, ?_⟩
        · change i < r.n
          rw [hn]
          exact hi
        · exact (congrFun hsame i).trans hfd
  · intro u hu
    exact ⟨World.after_ghost_of_ne w _ _ hu, rfl, hn, htable' u hu⟩

/-- An action in the critical section that leaves the mutex alone. -/
theorem Inv.moves_inside (h : Inv proper w) {r : ClientRegistry}
    (hin : (w.ghost t).crit = true) (hp : p.crit = true)
    (hn : r.n = w.state.server.registry.n)
    (hmutex : r.sem .mutex = w.state.server.registry.sem .mutex)
    (hitems : (r.sem .items + p.pending.toNat + w.state.server.registry.count : Int) ≤
      w.state.server.registry.sem .items + (w.ghost t).pending.toNat + r.count)
    (hagrees : Agrees proper w.state.server.registry w.state.waits (w.ghost t) →
      Agrees proper r w.state.waits p)
    (hhalf : proper → p.half = true → ∃ fd, w.state.calls t = some (.register fd) ∧
      fd ≠ -1 ∧ ∃ i, i < r.n ∧ r.fds i = fd) :
    (discipline E proper).Moves t w (w.after t
      (change w.state r w.state.expected w.state.holder w.state.waits w.state.swept) p) := by
  have hholder := (h.holder t).mpr hin
  refine h.moves hn (.inr hin) (fun u => ?_) ?_ hitems ?_ hhalf
  · by_cases hu : u = t
    · subst hu
      simp [hholder, hp]
    · rw [Function.update_of_ne hu]
      exact h.holder u
  · rw [hmutex]
    exact h.mutex
  · have hagrees' := hagrees (h.front_of_crit hin ▸ h.agrees)
    rw [hholder]
    simpa [front] using hagrees'

/-- An action on the semaphores other than the mutex, which leaves the table alone. -/
theorem Inv.moves_sem (h : Inv proper w) (expected : Nat → Bool) {sem : Sem → Nat} {waits : Nat}
    (hcrit : p.crit = (w.ghost t).crit) (hlag : p.lag = (w.ghost t).lag)
    (hgap : p.gap = (w.ghost t).gap) (hhalf : p.half = false)
    (hmutex : sem .mutex = w.state.server.registry.sem .mutex)
    (hitems : sem .items + p.pending.toNat ≤
      w.state.server.registry.sem .items + (w.ghost t).pending.toNat)
    (hgate : sem .countMutex + waits =
      w.state.server.registry.sem .countMutex + w.state.waits) :
    (discipline E proper).Moves t w (w.after t
      (change w.state { w.state.server.registry with sem := sem } expected w.state.holder waits
        w.state.swept) p) := by
  have hfront : (front w.state.holder (Function.update w.ghost t p)).lag =
      (front w.state.holder w.ghost).lag ∧
      (front w.state.holder (Function.update w.ghost t p)).gap =
        (front w.state.holder w.ghost).gap := by
    cases w.state.holder with
    | none => exact ⟨rfl, rfl⟩
    | some u =>
      by_cases hu : u = t
      · subst hu
        simp [front, hlag, hgap]
      · simp [front, hu]
  refine h.moves rfl (.inl rfl) (fun u => ?_) ?_ ?_ ⟨?_, ?_⟩ (fun _ hp => ?_)
  · by_cases hu : u = t
    · subst hu
      rw [Function.update_self, hcrit]
      exact h.holder u
    · rw [Function.update_of_ne hu]
      exact h.holder u
  · change sem .mutex + _ = 1
    rw [hmutex]
    exact h.mutex
  · dsimp only
    omega
  · have hold := h.agrees.gate
    rw [hfront.1]
    dsimp only
    omega
  · rw [hfront.2]
    exact h.agrees.entries
  · rw [hhalf] at hp
    cases hp

/-- Thread `t` takes the mutex, which nobody has. -/
theorem Inv.moves_take (h : Inv proper w) {sem : Sem → Nat}
    (hfree : 0 < w.state.server.registry.sem .mutex) (hp : p.crit = true) (hlag : p.lag = 0)
    (hgap : p.gap = 0) (hhalf : p.half = false) (hpending : p.pending = (w.ghost t).pending)
    (hmutex : sem .mutex = w.state.server.registry.sem .mutex - 1)
    (hsem : ∀ x, x ≠ .mutex → sem x = w.state.server.registry.sem x) :
    (discipline E proper).Moves t w (w.after t
      (change w.state { w.state.server.registry with sem := sem } w.state.expected (some t)
        w.state.waits w.state.swept) p) := by
  have hmutex' := h.mutex
  have hnone : w.state.holder = none := by
    cases hh : w.state.holder with
    | none => rfl
    | some u =>
      rw [hh] at hmutex'
      simp at hmutex'
      omega
  have hout : ∀ u, (w.ghost u).crit ≠ true := by
    intro u hu
    cases hnone.symm.trans ((h.holder u).mpr hu)
  have hagrees := h.agrees
  rw [hnone] at hagrees hmutex'
  refine h.moves rfl (.inl rfl) (fun u => ?_) ?_ ?_ ⟨?_, ?_⟩ (fun _ hp => ?_)
  · by_cases hu : u = t
    · subst hu
      simp [hp]
    · simp [hu, hout u, Ne.symm hu]
  · simp at hmutex' ⊢
    omega
  · rw [hpending]
    dsimp only
    rw [hsem .items (by decide)]
  · have hgate := hagrees.gate
    simp only [front, Option.elim, Function.update_self, hlag] at hgate ⊢
    rw [hsem .countMutex (by decide)]
    exact hgate
  · intro hproper
    have hentries := hagrees.entries hproper
    simp only [front, Option.elim, Function.update_self, hgap] at hentries ⊢
    exact hentries
  · rw [hhalf] at hp
    cases hp

/-- Thread `t` gives the mutex back. -/
theorem Inv.moves_give (h : Inv proper w) {sem : Sem → Nat} {swept : Bool}
    (hin : (w.ghost t).crit = true) (hlag : (w.ghost t).lag = 0) (hgap : (w.ghost t).gap = 0)
    (hp : p.crit = false) (hpending : p.pending.toNat ≤ (w.ghost t).pending.toNat)
    (hmutex : sem .mutex = w.state.server.registry.sem .mutex + 1)
    (hsem : ∀ x, x ≠ .mutex → sem x = w.state.server.registry.sem x) :
    (discipline E proper).Moves t w (w.after t
      (change w.state { w.state.server.registry with sem := sem } w.state.expected none
        w.state.waits swept) p) := by
  have hholder := (h.holder t).mpr hin
  have hmutex' := h.mutex
  rw [hholder] at hmutex'
  have hagrees := h.agrees
  rw [h.front_of_crit hin] at hagrees
  refine h.moves rfl (.inl rfl) (fun u => ?_) ?_ ?_ ⟨?_, ?_⟩ (fun _ hhalf => ?_)
  · by_cases hu : u = t
    · subst hu
      simp [hp]
    · rw [Function.update_of_ne hu]
      have hout : (w.ghost u).crit ≠ true := fun h' => hu (h.crit_unique hin h')
      simp [hout]
  · simp at hmutex' ⊢
    omega
  · dsimp only
    rw [hsem .items (by decide)]
    omega
  · have hgate := hagrees.gate
    simp only [front, Option.elim, hlag] at hgate ⊢
    rw [hsem .countMutex (by decide)]
    exact hgate
  · intro hproper
    have hentries := hagrees.entries hproper
    simp only [front, Option.elim, hgap] at hentries ⊢
    exact hentries
  · rw [Phase.crit_of_half hhalf] at hp
    cases hp

/-- The counts that no item stands for are counted. -/
theorem Inv.pending_le (h : Inv proper w) :
    ((w.ghost t).pending.toNat : Int) ≤ w.state.server.registry.count := by
  obtain ⟨k, hk, hle⟩ := h.items
  obtain ⟨m, _, hsum⟩ := hk.others (f := Phase.pending) t
  omega

theorem Inv.count_nonneg (h : Inv proper w) : 0 ≤ w.state.server.registry.count :=
  (Int.natCast_nonneg _).trans (h.pending_le (t := 0))

/-! ## Triples -/

/-- Thread `t` is in phase `p` of the call `c`. -/
structure Is (t : Nat) (p : Phase) (c : RegistryCall) (w : World E) : Prop where
  phase : w.ghost t = p
  call : w.state.calls t = some c

/-- Thread `t` is in the critical section and knows `F` of the size of the registry and of its
table. -/
def Inside (t : Nat) (p : Phase) (c : RegistryCall) (F : Nat → Table → Prop) (w : World E) :
    Prop :=
  Is t p c w ∧ F w.state.server.registry.n w.state.server.registry.table

theorem Is.rely (h : Is t p c w) (hr : Rely t w w') : Is t p c w' :=
  ⟨hr.ghost.trans h.phase, hr.calls.trans h.call⟩

theorem stable_is : (discipline E proper).Stable t (Is t p c) := fun _ _ hr _ h => h.rely hr

theorem stable_inside {F : Nat → Table → Prop} (hp : p.crit = true) :
    (discipline E proper).Stable t (Inside t p c F) := by
  intro w w' hr _ h
  refine ⟨h.1.rely hr, ?_⟩
  rw [hr.size, hr.table (by rw [h.1.phase, hp])]
  exact h.2

/-- An action of the server. -/
theorem triple_act {o : Op} {P : World E → Prop} {Q : o.Reply → World E → Prop}
    (hP : (discipline E proper).Stable t P) (hQ : ∀ r, (discipline E proper).Stable t (Q r))
    (hsafe : ∀ w, Inv proper w → P w → Safe t (.inl o) w.state)
    (h : ∀ w e r s, Inv proper w → P w → exec t o e w.state.server = .done r s →
      ∃ v, (discipline E proper).Moves t w (w.after t (w.state.record t o s) v) ∧
        Q r (w.after t (w.state.record t o s) v)) :
    (discipline E proper).Triple t P (.act (I := process) (.inl o)) Q := by
  refine .act hP hQ hsafe fun w hi hw e r d he _ => ?_
  obtain ⟨_, _, e', s, he', rfl⟩ := Process.exec_inl he
  exact h w e' r s hi hw he'

theorem safe_of_ne {o : Op} {d : Process E} (ho : o ≠ .semWait .countMutex) :
    Safe t (.inl o) d :=
  fun heq => absurd (Sum.inl.inj heq) ho

/-- An action that only reads. -/
theorem triple_read {o : Op} {P : World E → Prop} {Q : o.Reply → World E → Prop}
    (hP : (discipline E proper).Stable t P) (hQ : ∀ r, (discipline E proper).Stable t (Q r))
    (ho : o ≠ .semWait .countMutex)
    (hrecord : ∀ (d : Process E) s, d.record t o s = { d with server := s })
    (h : ∀ w e r s, P w → exec t o e w.state.server = .done r s →
      s = w.state.server ∧ Q r w) :
    (discipline E proper).Triple t P (.act (I := process) (.inl o)) Q := by
  refine triple_act hP hQ (fun _ _ _ => safe_of_ne ho) fun w e r s hi hw he => ?_
  obtain ⟨rfl, hq⟩ := h w e r s hw he
  have hsame : w.after t (w.state.record t o w.state.server) (w.ghost t) = w := by
    rw [hrecord]
    exact w.after_self t
  refine ⟨w.ghost t, ?_⟩
  rw [hsame]
  exact ⟨Discipline.Moves.refl hi, hq⟩

variable {F : Nat → Table → Prop}

theorem triple_regSize (hp : p.crit = true) :
    (discipline E proper).Triple t (Inside t p c F) regSize.lift
      fun n => Inside t p c fun m T => F m T ∧ m = n := by
  refine triple_read (o := .regSize) (stable_inside hp) (fun _ => stable_inside hp) (by simp)
    (fun _ _ => rfl) ?_
  intro w e r s hw he
  cases he
  exact ⟨rfl, hw.1, hw.2, rfl⟩

theorem triple_regFd (hp : p.crit = true) (i : Nat) :
    (discipline E proper).Triple t (Inside t p c F) (regFd i).lift
      fun x => Inside t p c fun m T => F m T ∧ T.fds i = x := by
  refine triple_read (o := .regFd i) (stable_inside hp) (fun _ => stable_inside hp) (by simp)
    (fun _ _ => rfl) ?_
  intro w e r s hw he
  cases he
  exact ⟨rfl, hw.1, hw.2, rfl⟩

theorem triple_regCount (hp : p.crit = true) :
    (discipline E proper).Triple t (Inside t p c F) regCount.lift
      fun x => Inside t p c fun m T => F m T ∧ T.count = x := by
  refine triple_read (o := .regCount) (stable_inside hp) (fun _ => stable_inside hp) (by simp)
    (fun _ _ => rfl) ?_
  intro w e r s hw he
  cases he
  exact ⟨rfl, hw.1, hw.2, rfl⟩

/-- A slot is taken or given back. -/
theorem triple_takeSlot (hp : p.half = false) :
    (discipline E proper).Triple t (Is t p c) (semWait .slots).lift fun _ => Is t p c := by
  refine triple_act stable_is (fun _ => stable_is) (fun _ _ _ => safe_of_ne (by simp)) ?_
  intro w e r s hi hw he
  obtain ⟨_, rfl⟩ := exec_semWait he
  refine ⟨p, ?_, World.after_ghost_self .., hw.call⟩
  rw [← hw.phase] at hp ⊢
  exact hi.moves_sem _ rfl rfl rfl hp rfl le_rfl rfl

theorem triple_giveSlot (hp : p.half = false) :
    (discipline E proper).Triple t (Is t p c) (semPost .slots).lift fun _ => Is t p c := by
  refine triple_act stable_is (fun _ => stable_is) (fun _ _ _ => safe_of_ne (by simp)) ?_
  intro w e r s hi hw he
  obtain rfl := exec_semPost he
  refine ⟨p, ?_, World.after_ghost_self .., hw.call⟩
  rw [← hw.phase] at hp ⊢
  exact hi.moves_sem w.state.expected rfl rfl rfl hp rfl le_rfl rfl

/-- An item is taken. -/
theorem triple_takeItem (hcrit : q.crit = p.crit) (hlag : q.lag = p.lag) (hgap : q.gap = p.gap)
    (hhalf : q.half = false) :
    (discipline E proper).Triple t (Is t p c) (semWait .items).lift fun _ => Is t q c := by
  refine triple_act stable_is (fun _ => stable_is) (fun _ _ _ => safe_of_ne (by simp)) ?_
  intro w e r s hi hw he
  obtain ⟨hpos, rfl⟩ := exec_semWait he
  refine ⟨q, ?_, World.after_ghost_self .., hw.call⟩
  rw [← hw.phase] at hcrit hlag hgap
  refine hi.moves_sem w.state.expected hcrit hlag hgap hhalf rfl ?_ rfl
  rw [Function.update_self]
  have hle := Bool.toNat_le q.pending
  omega

/-- An item is given. -/
theorem triple_giveItem :
    (discipline E proper).Triple t (Is t .owing c) (semPost .items).lift
      fun _ => Is t .outside c := by
  refine triple_act stable_is (fun _ => stable_is) (fun _ _ _ => safe_of_ne (by simp)) ?_
  intro w e r s hi hw he
  obtain rfl := exec_semPost he
  refine ⟨.outside, ?_, World.after_ghost_self .., hw.call⟩
  have hphase := hw.phase
  refine hi.moves_sem w.state.expected ?_ ?_ ?_ rfl rfl ?_ rfl
  all_goals rw [hphase]
  · rfl
  · rfl
  · rfl
  · rw [Function.update_self]
    exact le_rfl

/-- The mutex is taken. -/
theorem triple_takeMutex (hq : q.crit = true) (hlag : q.lag = 0) (hgap : q.gap = 0)
    (hhalf : q.half = false) (hpending : q.pending = p.pending) :
    (discipline E proper).Triple t (Is t p c) (semWait .mutex).lift
      fun _ => Inside t q c fun _ _ => True := by
  refine triple_act stable_is (fun _ => stable_inside hq) (fun _ _ _ => safe_of_ne (by simp)) ?_
  intro w e r s hi hw he
  obtain ⟨hpos, rfl⟩ := exec_semWait he
  refine ⟨q, ?_, ⟨World.after_ghost_self .., hw.call⟩, trivial⟩
  rw [← hw.phase] at hpending
  exact hi.moves_take hpos hq hlag hgap hhalf hpending (Function.update_self ..)
    fun x hx => Function.update_of_ne hx ..

/-- The mutex is given back. -/
theorem triple_giveMutex (hp : p.crit = true) (hlag : p.lag = 0) (hgap : p.gap = 0)
    (hq : q.crit = false) (hpending : q.pending.toNat ≤ p.pending.toNat) :
    (discipline E proper).Triple t (Inside t p c F) (semPost .mutex).lift fun _ => Is t q c := by
  refine triple_act (stable_inside hp) (fun _ => stable_is) (fun _ _ _ => safe_of_ne (by simp)) ?_
  intro w e r s hi hw he
  obtain rfl := exec_semPost he
  refine ⟨q, ?_, World.after_ghost_self .., hw.1.call⟩
  rw [← hw.1.phase] at hp hlag hgap hpending
  exact hi.moves_give hp hlag hgap hq hpending (Function.update_self ..)
    fun x hx => Function.update_of_ne hx ..

/-- A descriptor is stored in an entry that is not in use. -/
theorem triple_place {i : Nat} {f : Int} (hf : proper → f ≠ -1) :
    (discipline E proper).Triple t
      (Inside t .inside (.register f) fun n T => i < n ∧ T.fds i = -1) (setRegFd i f).lift
      fun _ => Inside t .stored (.register f) fun _ _ => True := by
  refine triple_act (o := .setRegFd i f) (stable_inside rfl) (fun _ => stable_inside rfl)
    (fun _ _ _ => safe_of_ne (by simp)) ?_
  intro w e r s hi hw he
  cases he
  obtain ⟨his, hlt, hempty⟩ := hw
  refine ⟨.stored, ?_, ⟨World.after_ghost_self .., his.call⟩, trivial⟩
  refine hi.moves_inside (r := { w.state.server.registry with
    fds := Function.update w.state.server.registry.fds i f }) (by rw [his.phase]; rfl) rfl rfl
    rfl ?_ ?_ ?_
  · rw [his.phase]
    exact le_rfl
  · rw [his.phase]
    rintro ⟨hgate, hentries⟩
    refine ⟨hgate, fun hp => ?_⟩
    rw [ClientRegistry.occupied_set_of_empty hlt hempty (hf hp)]
    have hold := hentries hp
    simp only [Phase.gap] at hold ⊢
    push_cast
    omega
  · exact fun hp _ => ⟨f, his.call, hf hp, i, hlt, Function.update_self ..⟩

/-- The entry of a descriptor is cleared. -/
theorem triple_clear {i : Nat} {f : Int} (hf : proper → f ≠ -1) :
    (discipline E proper).Triple t (Inside t .holding c fun n T => i < n ∧ T.fds i = f)
      (setRegFd i (-1)).lift fun _ => Inside t .cleared c fun _ _ => True := by
  refine triple_act (o := .setRegFd i (-1)) (stable_inside rfl) (fun _ => stable_inside rfl)
    (fun _ _ _ => safe_of_ne (by simp)) ?_
  intro w e r s hi hw he
  cases he
  obtain ⟨his, hlt, hfd⟩ := hw
  refine ⟨.cleared, ?_, ⟨World.after_ghost_self .., his.call⟩, trivial⟩
  refine hi.moves_inside (r := { w.state.server.registry with
    fds := Function.update w.state.server.registry.fds i (-1) }) (by rw [his.phase]; rfl) rfl rfl
    rfl ?_ ?_ ?_
  · rw [his.phase]
    exact le_rfl
  · rw [his.phase]
    rintro ⟨hgate, hentries⟩
    refine ⟨hgate, fun hp => ?_⟩
    have hfull : w.state.server.registry.fds i ≠ -1 := by
      change w.state.server.registry.fds i = f at hfd
      rw [hfd]
      exact hf hp
    have hone := ClientRegistry.occupied_clear hlt hfull
    have hold := hentries hp
    simp only [Phase.gap] at hold ⊢
    omega
  · intro _ hhalf
    cases hhalf

/-- `count` is written back. -/
theorem triple_setRegCount {n m : Int} (hp : p.crit = true) (hq : q.crit = true)
    (hgap : n + q.gap = m + p.gap) (hlag : n + q.lag = m + p.lag)
    (hpending : (q.pending.toNat + m : Int) ≤ p.pending.toNat + n)
    (hhalf : q.half = true → p.half = true) :
    (discipline E proper).Triple t (Inside t p c fun _ T => T.count = m) (setRegCount n).lift
      fun _ => Inside t q c fun _ T => T.count = n := by
  refine triple_act (o := .setRegCount n) (stable_inside hp) (fun _ => stable_inside hq)
    (fun _ _ _ => safe_of_ne (by simp)) ?_
  intro w e r s hi hw he
  cases he
  obtain ⟨his, hcount⟩ := hw
  change w.state.server.registry.count = m at hcount
  refine ⟨q, ?_, ⟨World.after_ghost_self .., his.call⟩, rfl⟩
  refine hi.moves_inside (r := { w.state.server.registry with count := n })
    (by rw [his.phase, hp]) hq rfl rfl ?_ ?_ ?_
  · rw [his.phase, hcount]
    dsimp only
    omega
  · rw [his.phase]
    rintro ⟨hgate, hentries⟩
    rw [hcount] at hgate hentries
    refine ⟨?_, fun hproper => ?_⟩
    · dsimp only
      rw [hlag]
      exact hgate
    · dsimp only
      rw [hgap]
      exact hentries hproper
  · intro hproper hh
    exact hi.half hproper t (by rw [his.phase, hhalf hh])

/-- `count` is tested: the phase changes from `p` to `q` unless it is `n`, the only count for which
the gate has to be changed. -/
theorem triple_test {n : Int} (hp : p.crit = true) (hq : q.crit = true) (hgap : q.gap = p.gap)
    (hpending : q.pending = p.pending) (hhalf : q.half = false)
    (hlag : ∀ x : Int, p.pending.toNat ≤ x → x ≠ n → (1 ≤ x + q.lag ↔ 1 ≤ x + p.lag)) :
    (discipline E proper).Triple t (Inside t p c F) regCount.lift
      fun x w => if x = n then Inside t p c (fun _ T => T.count = n) w
        else Inside t q c (fun _ _ => True) w := by
  refine triple_act (o := .regCount) (stable_inside hp) (fun x => ?_)
    (fun _ _ _ => safe_of_ne (by simp)) ?_
  · split_ifs
    · exact stable_inside hp
    · exact stable_inside hq
  · intro w e r s hi hw he
    cases he
    have his := hw.1
    split_ifs with hn
    · refine ⟨p, ?_⟩
      have hsame : w.after t (w.state.record t .regCount w.state.server) p = w := by
        rw [← his.phase]
        exact w.after_self t
      rw [hsame]
      exact ⟨Discipline.Moves.refl hi, his, hn⟩
    · refine ⟨q, ?_, ⟨World.after_ghost_self .., his.call⟩, trivial⟩
      have hle := hi.pending_le (t := t)
      rw [his.phase] at hle
      refine hi.moves_inside (r := w.state.server.registry) (by rw [his.phase, hp]) hq rfl rfl
        ?_ ?_ ?_
      · rw [his.phase, hpending]
      · rw [his.phase]
        rintro ⟨hgate, hentries⟩
        refine ⟨?_, fun hproper => ?_⟩
        · rw [if_congr (hlag _ hle hn) rfl rfl]
          exact hgate
        · rw [hgap]
          exact hentries hproper
      · intro _ hh
        rw [hhalf] at hh
        cases hh

/-- The first client closes the gate. -/
theorem triple_closeGate (hc : c ≠ .waitForEmpty) :
    (discipline E proper).Triple t (Inside t .counted c fun _ T => T.count = 1)
      (semWait .countMutex).lift fun _ => Inside t .holding c fun _ _ => True := by
  have hopen : ∀ w : World E, Inv proper w → Inside t .counted c (fun _ T => T.count = 1) w →
      w.state.server.registry.sem .countMutex + w.state.waits = 1 := by
    intro w hi hw
    have hgate := hi.agrees.gate
    have hcount : w.state.server.registry.count = 1 := hw.2
    rw [hi.front_of_crit (t := t) (by rw [hw.1.phase]; rfl), hw.1.phase, hcount] at hgate
    exact hgate
  refine triple_act (o := .semWait .countMutex) (stable_inside rfl) (fun _ => stable_inside rfl)
    (fun w hi hw _ _ => hopen w hi hw) ?_
  intro w e r s hi hw he
  obtain ⟨hpos, rfl⟩ := exec_semWait he
  have his := hw.1
  have hcount : w.state.server.registry.count = 1 := hw.2
  have hsum := hopen w hi hw
  have hrecord : ∀ s, w.state.record t (.semWait .countMutex) s =
      { w.state with server := s } := by
    intro s
    simp [Process.record, his.call, hc]
  rw [hrecord]
  refine ⟨.holding, ?_, ⟨World.after_ghost_self .., his.call⟩, trivial⟩
  refine hi.moves_inside (r := { w.state.server.registry with
    sem := Function.update w.state.server.registry.sem .countMutex
      (w.state.server.registry.sem .countMutex - 1) }) (by rw [his.phase]; rfl) rfl rfl rfl
    ?_ ?_ ?_
  · rw [his.phase]
    exact le_rfl
  · rw [his.phase]
    rintro ⟨_, hentries⟩
    refine ⟨?_, hentries⟩
    simp only [Function.update_self, hcount, Phase.lag]
    simp
    omega
  · intro _ hh
    cases hh

/-- The gate is opened after the last client. -/
theorem triple_openGate :
    (discipline E proper).Triple t (Inside t .dropped c fun _ T => T.count = 0)
      (semPost .countMutex).lift fun _ => Inside t .inside c fun _ _ => True := by
  refine triple_act (o := .semPost .countMutex) (stable_inside rfl) (fun _ => stable_inside rfl)
    (fun _ _ _ => safe_of_ne (by simp)) ?_
  intro w e r s hi hw he
  obtain rfl := exec_semPost he
  have his := hw.1
  have hcount : w.state.server.registry.count = 0 := hw.2
  refine ⟨.inside, ?_, ⟨World.after_ghost_self .., his.call⟩, trivial⟩
  refine hi.moves_inside (r := { w.state.server.registry with
    sem := Function.update w.state.server.registry.sem .countMutex
      (w.state.server.registry.sem .countMutex + 1) }) (by rw [his.phase]; rfl) rfl rfl rfl
    ?_ ?_ ?_
  · rw [his.phase]
    exact le_rfl
  · rw [his.phase]
    rintro ⟨hgate, hentries⟩
    refine ⟨?_, hentries⟩
    simp only [Function.update_self, hcount, Phase.lag] at hgate ⊢
    simp at hgate ⊢
    omega
  · intro _ hh
    cases hh

/-- The wait takes the gate. -/
theorem triple_cregWaitForEmpty (hp : p.half = false) :
    (discipline E proper).Triple t (Is t p .waitForEmpty) cregWaitForEmpty.lift
      fun _ => Is t p .waitForEmpty := by
  refine triple_act (o := .semWait .countMutex) stable_is (fun _ => stable_is)
    (fun w _ hw _ hno => absurd hw.call hno) ?_
  intro w e r s hi hw he
  obtain ⟨hpos, rfl⟩ := exec_semWait he
  have hrecord : ∀ s, w.state.record t (.semWait .countMutex) s =
      { w.state with server := s, waits := w.state.waits + 1 } := by
    intro s
    simp [Process.record, hw.call]
  rw [hrecord]
  refine ⟨p, ?_, World.after_ghost_self .., hw.call⟩
  rw [← hw.phase] at hp ⊢
  refine hi.moves_sem w.state.expected rfl rfl rfl hp rfl le_rfl ?_
  rw [Function.update_self]
  omega

end Gate

end BourseServer
