import BourseServer.Registry.Discipline

/-!
# The actions on the registry

Each action of `client_registry.c` exchanges tokens with the semaphores, or reads or writes the
table in the critical section. A thread that tests `count` learns for how many other clients the
gate is closed.
-/
namespace BourseServer

open Concurrency

variable {E : Exchange} {t : Nat}

/-! ## Inversion -/

theorem exec_semWait {x : Sem} {e : Choice E} {s s' : State E} {r : Unit}
    (h : exec t (.semWait x) e s = .done r s') :
    0 < s.registry.sem x ∧ s' = { s with registry := { s.registry with
      sem := Function.update s.registry.sem x (s.registry.sem x - 1) } } := by
  simp only [exec] at h
  split_ifs at h with hx
  cases h
  exact ⟨by omega, rfl⟩

theorem exec_semPost {x : Sem} {e : Choice E} {s s' : State E} {r : Unit}
    (h : exec t (.semPost x) e s = .done r s') :
    s' = { s with registry := { s.registry with
      sem := Function.update s.registry.sem x (s.registry.sem x + 1) } } := by
  cases h
  rfl

/-- An action of the server: the thread is not stopped, and the blocks of the registry that it
accesses are not freed. -/
theorem Process.exec_inl {d d' : Process E} {o : Op} {e : Choice E ⊕ E.State} {r : o.Reply}
    (h : Process.exec t (.inl o) e d = .done r d') :
    d.stopped t = false ∧ (∀ b, o.accesses b = true → d.freed b = false) ∧
      ∃ e' s, BourseServer.exec t o e' d.server = .done r s ∧ d' = d.record t o s := by
  unfold Process.exec at h
  split at h
  · cases h
  rename_i hrun
  cases e with
  | inr x => cases h
  | inl e =>
    simp only [Process.execServer] at h
    split at h
    · cases h
    · rename_i hfreed
      simp only [Bool.or_eq_true, Bool.and_eq_true, not_or, not_and] at hfreed
      split at h
      · rename_i r' s he
        cases h
        refine ⟨by simpa using hrun, fun b hb => ?_, e, s, he, rfl⟩
        cases b with
        | fds => simpa using hfreed.1 hb
        | registry => simpa using hfreed.2 hb
      · cases h
      · cases h

namespace Registry

variable {W : Watch} {w w' : World E} {g v : Tokens} {f : Int} {fd : Option Int}
  {c : Option RegistryCall} {b : Bool}

theorem Knows.rely (h : Knows t g fd c b w) (hr : Rely t w w') : Knows t g fd c b w' where
  ghost := hr.ghost.trans h.ghost
  users fd' := (hr.users fd').trans (h.users fd')
  calls := hr.calls.trans h.calls
  expected := hr.expected.trans h.expected

theorem stable_knows : (discipline E W).Stable t (Knows t g fd c b) :=
  fun _ _ hr _ h => h.rely hr

/-- Facts about the table, for a thread in the critical section. -/
theorem stable_table (hg : g.crit = true) (F : Nat → Table → Prop) :
    (discipline E W).Stable t fun w => Knows t g fd c b w ∧
      F w.state.server.registry.n w.state.server.registry.table := by
  intro w w' hr _ h
  refine ⟨h.1.rely hr, ?_⟩
  rw [hr.size, hr.table (by rw [h.1.ghost, hg])]
  exact h.2

/-! ## A change of the registry -/

/-- What an action on the registry may change. -/
def change (d : Process E) (r : ClientRegistry) (expected : Nat → Bool) (holder : Option Nat)
    (waits : Nat) (swept : Bool) : Process E :=
  { d with
    server := { d.server with registry := r }
    expected := expected
    holder := holder
    waits := waits
    swept := swept }

theorem not_aside (hrun : w.state.stopped t = false) {u h : Nat}
    (hs : w.state.signal = some (.service u, h)) : u ≠ t := by
  rintro rfl
  simp [Process.stopped, hs] at hrun

/-- An action of thread `t` on the registry, with the tokens `v` after it. -/
theorem Inv.moves (h : Inv W w) (hrun : w.state.stopped t = false) {r : ClientRegistry}
    {expected : Nat → Bool} {holder : Option Nat} {waits : Nat} {swept : Bool}
    (hn : r.n = w.state.server.registry.n)
    (htable : r.table = w.state.server.registry.table ∨ (w.ghost t).crit = true)
    (hwaits : waits = w.state.waits ∨ W.waiting)
    (hexpected : ∀ u, u ≠ t → expected u = w.state.expected u)
    (hbalanced : Balanced r waits (Function.update w.ghost t v))
    (huser : v.slot = true → w.state.users v.fd = some t)
    (hholder : ∀ u, holder = some u ↔ (Function.update w.ghost t v u).crit = true)
    (hwindow : ¬ W.servers → v.stored = true → v.opened = false →
      w.state.calls t = some (.register v.fd))
    (hshut : W.late → swept = true → ∀ fd,
      (change w.state r expected holder waits swept).Entry fd → w.state.ShutDown fd)
    (hfreed : W.early → ¬ w.state.Intact → r.sem .slots = r.n ∧ ∀ u, expected u = false) :
    (discipline E W).Moves t w (w.after t (change w.state r expected holder waits swept) v) := by
  have hghost : (w.after t (change w.state r expected holder waits swept) v).ghost =
      Function.update w.ghost t v := rfl
  constructor
  · constructor
    case balanced => exact hbalanced
    case waited =>
      intro hW
      rcases hwaits with hsame | hwaiting
      · exact hsame.trans (h.waited hW)
      · exact absurd hwaiting hW
    case user =>
      intro u
      rw [hghost]
      by_cases hu : u = t
      · subst hu
        rw [Function.update_self]
        exact huser
      · rw [Function.update_of_ne hu]
        exact h.user u
    case holder => exact hholder
    case window =>
      intro hW u
      rw [hghost]
      by_cases hu : u = t
      · subst hu
        rw [Function.update_self]
        exact hwindow hW
      · rw [Function.update_of_ne hu]
        exact h.window hW u
    case open_of_user => exact h.open_of_user
    case shut => exact hshut
    case intact => exact h.intact
    case freed => exact hfreed
    case aside =>
      intro hW u h' hs
      have hu := not_aside hrun hs
      rw [hghost, Function.update_of_ne hu]
      exact h.aside hW u h' hs
  · intro u hu
    have hout : (w.ghost u).crit = true → r.table = w.state.server.registry.table := by
      intro hin
      rcases htable with hsame | ht
      · exact hsame
      · exact absurd (h.balanced.crit_unique ht hin) hu
    constructor
    case ghost => exact w.after_ghost_of_ne _ _ hu
    case size => exact hn
    case table => exact hout
    case users => exact fun _ => .rfl
    case calls => rfl
    case expected => exact hexpected u hu
    case signal => exact fun _ hp => hp
    case freed => exact fun _ _ => rfl
    case shut => exact fun _ _ _ hs => hs

theorem Alive.rely (h : Alive t w) (hr : Rely t w w') : Alive t w' := by
  obtain ⟨⟨v, hv⟩, hintact⟩ := h
  refine ⟨⟨v, hr.signal _ hv⟩, ?_⟩
  unfold Process.Intact
  rw [hr.freed v hv]
  exact hintact

/-- A thread that has a slot, or that runs the handler, finds the registry intact. -/
structure Live (W : Watch) (t : Nat) (g : Tokens) (handler : Prop) (w : World E) : Prop where
  alive : handler → Alive t w
  granted : g.slot = true ∨ ¬ W.early ∨ handler

variable {handler : Prop}

theorem live_of_slot (h : g.slot = true) : Live W t g False w := ⟨False.elim, .inl h⟩

theorem Live.rely (h : Live W t g handler w) (hr : Rely t w w') : Live W t g handler w' :=
  ⟨fun hh => (h.alive hh).rely hr, h.granted⟩

theorem Live.intact (h : Live W t g handler w) (hi : Inv W w) (hk : w.ghost t = g)
    (hW : W.early) : w.state.Intact := by
  rcases h.granted with hslot | hno | hh
  · by_contra hfreed
    obtain ⟨hslots, _⟩ := hi.freed hW hfreed
    obtain ⟨k, hk', hsum⟩ := hi.balanced.slots
    have hpos := hk'.pos (t := t) (by rw [hk, hslot])
    omega
  · exact absurd hW hno
  · exact (h.alive hh).2

/-- An action of the server. -/
theorem triple_act {o : Op} {P : World E → Prop} {Q : o.Reply → World E → Prop}
    (hP : (discipline E W).Stable t P) (hQ : ∀ r, (discipline E W).Stable t (Q r))
    (hsafe : ∀ w, Inv W w → P w → Safe W t (.inl o) w.state)
    (h : ∀ w e r s, Inv W w → P w → w.state.stopped t = false →
      exec t o e w.state.server = .done r s → Assume W (.inl o) w.state →
      ∃ v, (discipline E W).Moves t w (w.after t (w.state.record t o s) v) ∧
        Q r (w.after t (w.state.record t o s) v)) :
    (discipline E W).Triple t P (.act (I := process) (.inl o)) Q := by
  refine .act hP hQ hsafe fun w hi hw e r d he ha => ?_
  obtain ⟨hrun, _, e', s, he', rfl⟩ := Process.exec_inl he
  exact h w e' r s hi hw hrun he' ha

/-- An action of the registry that is neither of the two that have to be enabled. -/
theorem safe_of_live {o : Op} (hi : Inv W w) (hk : w.ghost t = g) (hlive : Live W t g handler w)
    (hitems : o ≠ .semWait .items) (hcount : o ≠ .semWait .countMutex) :
    Safe W t (.inl o) w.state where
  intact hW _ _ _ := hlive.intact hi hk hW
  items h := absurd (Sum.inl.inj h) hitems
  countMutex h := absurd (Sum.inl.inj h) hcount
  result _ _ h := by cases h

/-! ## The way in -/

theorem triple_takeSlot (hf : 0 ≤ f) (hb : W.early → b = true) :
    (discipline E W).Triple t (Knows t .none (some f) c b) (semWait .slots).lift
      fun _ => Knows t (.entered f) (some f) c false := by
  refine triple_act stable_knows (fun _ => stable_knows) (fun w hi hw => ?_) ?_
  · constructor
    case intact =>
      intro hW _ _ _
      by_contra hfreed
      obtain ⟨_, hexpected⟩ := hi.freed hW hfreed
      have hb' := hb hW
      rw [← hw.expected, hexpected t] at hb'
      cases hb'
    case items => exact fun h => by cases h
    case countMutex => exact fun h => by cases h
    case result => exact fun _ _ h => by cases h
  · intro w e r s hi hw hrun he _
    obtain ⟨hpos, rfl⟩ := exec_semWait he
    have hg := hw.ghost
    refine ⟨.entered f, ?_, ?_⟩
    · apply hi.moves hrun
      case hn => rfl
      case htable => exact .inl rfl
      case hwaits => exact .inl rfl
      case hexpected => exact fun u hu => Function.update_of_ne hu ..
      case hbalanced =>
        apply hi.balanced.exchange
        all_goals simp [hg, hf]
        · constructor <;> simp
        · omega
      case huser => exact fun _ => (hw.users f).mpr rfl
      case hholder =>
        intro u
        rw [hi.holder u]
        by_cases hu : u = t
        · subst hu
          simp [hg]
        · rw [Function.update_of_ne hu]
      case hwindow => simp
      case hshut => exact hi.shut
      case hfreed =>
        intro hW hfreed
        obtain ⟨_, hexpected⟩ := hi.freed hW hfreed
        have hb' := hb hW
        rw [← hw.expected, hexpected t] at hb'
        cases hb'
    · exact ⟨by simp, hw.users, hw.calls, Function.update_self ..⟩

/-- Thread `t` takes the mutex. -/
theorem triple_takeMutex (hg : g.crit = false)
    (hcoherent : ({ g with crit := true } : Tokens).Coherent) :
    (discipline E W).Triple t (fun w => Knows t g fd c b w ∧ Live W t g handler w)
      (semWait .mutex).lift
      fun _ w => Knows t { g with crit := true } fd c b w ∧ Live W t g handler w := by
  have hstable : ∀ g', (discipline E W).Stable t fun w =>
      Knows t g' fd c b w ∧ Live W t g handler w :=
    fun g' w w' hr _ hw => ⟨hw.1.rely hr, hw.2.rely hr⟩
  refine triple_act (hstable _) (fun _ => hstable _) ?_ ?_
  · exact fun w hi hw => safe_of_live hi hw.1.ghost hw.2 (by simp) (by simp)
  · intro w e r s hi hw hrun he _
    obtain ⟨hpos, rfl⟩ := exec_semWait he
    obtain ⟨k, hk, hsum⟩ := hi.balanced.mutex
    have hout : ∀ u, (w.ghost u).crit ≠ true := hk.eq_zero_iff.mp (by omega)
    have hghost := hw.1.ghost
    refine ⟨{ g with crit := true }, ?_, ?_, hw.2.alive, hw.2.granted⟩
    · apply hi.moves hrun
      case hn => rfl
      case htable => exact .inl rfl
      case hwaits => exact .inl rfl
      case hexpected => exact fun _ _ => rfl
      case hbalanced =>
        apply hi.balanced.exchange hcoherent
        case hvalid =>
          rw [← hghost]
          exact hi.balanced.valid t
        all_goals simp [hghost, hg]
        omega
      case huser =>
        rw [← hghost]
        exact hi.user t
      case hholder =>
        intro u
        by_cases hu : u = t
        · subst hu
          simp
        · simp [hu, hout u, Ne.symm hu]
      case hwindow =>
        intro hW
        have hold := hi.window hW t
        rw [hghost] at hold
        exact hold
      case hshut => exact hi.shut
      case hfreed =>
        intro hW hfreed
        exact hi.freed hW hfreed
    · exact ⟨by simp, hw.1.users, hw.1.calls, hw.1.expected⟩

/-- Thread `t` gives the mutex back. -/
theorem triple_giveMutex (hg : g.crit = true)
    (hcoherent : ({ g with crit := false } : Tokens).Coherent) {A : World E → Prop}
    (hA : (discipline E W).Stable t fun w => Knows t g fd c b w ∧ A w ∧ Live W t g handler w)
    (hswept : W.late → c = some .shutdownAll → ∀ w, A w → ∀ fd, w.state.Entry fd →
      w.state.ShutDown fd) :
    (discipline E W).Triple t (fun w => Knows t g fd c b w ∧ A w ∧ Live W t g handler w)
      (semPost .mutex).lift
      fun _ w => Knows t { g with crit := false } fd c b w ∧ Live W t g handler w := by
  have hstable : (discipline E W).Stable t fun w =>
      Knows t { g with crit := false } fd c b w ∧ Live W t g handler w :=
    fun w w' hr _ hw => ⟨hw.1.rely hr, hw.2.rely hr⟩
  refine triple_act hA (fun _ => hstable) ?_ ?_
  · exact fun w hi hw => safe_of_live hi hw.1.ghost hw.2.2 (by simp) (by simp)
  · intro w e r s hi hw hrun he _
    obtain rfl := exec_semPost he
    obtain ⟨hk, ha, hlive⟩ := hw
    have hghost := hk.ghost
    have hin : (w.ghost t).crit = true := by rw [hghost, hg]
    refine ⟨{ g with crit := false }, ?_, ?_, hlive.alive, hlive.granted⟩
    · apply hi.moves hrun
      case hn => rfl
      case htable => exact .inl rfl
      case hwaits => exact .inl rfl
      case hexpected => exact fun _ _ => rfl
      case hbalanced =>
        apply hi.balanced.exchange hcoherent
        case hvalid =>
          rw [← hghost]
          exact hi.balanced.valid t
        all_goals simp [hghost, hg]
      case huser =>
        rw [← hghost]
        exact hi.user t
      case hholder =>
        intro u
        by_cases hu : u = t
        · subst hu
          simp
        · rw [Function.update_of_ne hu]
          have hout : (w.ghost u).crit ≠ true := fun h => hu (hi.balanced.crit_unique hin h)
          simp [hout]
      case hwindow =>
        intro hW
        have hold := hi.window hW t
        rw [hghost] at hold
        exact hold
      case hshut =>
        intro hW hswept' fd hfd
        simp only [Bool.or_eq_true, decide_eq_true_eq] at hswept'
        rcases hswept' with hbefore | hcall
        · exact hi.shut hW hbefore fd hfd
        · exact hswept hW (hk.calls.symm.trans hcall) w ha fd hfd
      case hfreed =>
        intro hW hfreed
        exact hi.freed hW hfreed
    · exact ⟨by simp, hk.users, hk.calls, hk.expected⟩

/-! ## Inside the critical section -/

/-- Thread `t` is in the critical section, for the descriptor `f` it uses, and knows `F` of the
size of the registry and of its table. -/
def Inside (t : Nat) (g : Tokens) (f : Int) (c : Option RegistryCall)
    (F : Nat → Table → Prop) (w : World E) : Prop :=
  Knows t g (some f) c false w ∧ F w.state.server.registry.n w.state.server.registry.table

theorem stable_inside {F : Nat → Table → Prop} (hg : g.crit = true) :
    (discipline E W).Stable t (Inside t g f c F) := stable_table hg F

/-- An action that only reads. -/
theorem triple_read {o : Op} {P : World E → Prop} {Q : o.Reply → World E → Prop}
    (hP : (discipline E W).Stable t P) (hQ : ∀ r, (discipline E W).Stable t (Q r))
    (hsafe : ∀ w, Inv W w → P w → Safe W t (.inl o) w.state)
    (hrecord : ∀ (d : Process E) s, d.record t o s = { d with server := s })
    (h : ∀ w e r s, P w → exec t o e w.state.server = .done r s →
      s = w.state.server ∧ Q r w) :
    (discipline E W).Triple t P (.act (I := process) (.inl o)) Q := by
  refine triple_act hP hQ hsafe fun w e r s hi hw _ he _ => ?_
  obtain ⟨rfl, hq⟩ := h w e r s hw he
  have hsame : w.after t (w.state.record t o w.state.server) (w.ghost t) = w := by
    rw [hrecord]
    exact w.after_self t
  refine ⟨w.ghost t, ?_⟩
  rw [hsame]
  exact ⟨Discipline.Moves.refl hi, hq⟩

variable {F : Nat → Table → Prop}

theorem triple_regSize (hg : g.crit = true) (hslot : g.slot = true) :
    (discipline E W).Triple t (Inside t g f c F) regSize.lift
      fun n => Inside t g f c fun m T => F m T ∧ m = n := by
  refine triple_read (o := .regSize) (stable_inside hg) (fun _ => stable_inside hg) ?_
    (fun _ _ => rfl) ?_
  · exact fun w hi hw => safe_of_live hi hw.1.ghost (live_of_slot hslot) (by simp) (by simp)
  · intro w e r s hw he
    cases he
    exact ⟨rfl, hw.1, hw.2, rfl⟩

theorem triple_regFd (hg : g.crit = true) (hslot : g.slot = true) (i : Nat) :
    (discipline E W).Triple t (Inside t g f c F) (regFd i).lift
      fun x => Inside t g f c fun m T => F m T ∧ T.fds i = x := by
  refine triple_read (o := .regFd i) (stable_inside hg) (fun _ => stable_inside hg) ?_
    (fun _ _ => rfl) ?_
  · exact fun w hi hw => safe_of_live hi hw.1.ghost (live_of_slot hslot) (by simp) (by simp)
  · intro w e r s hw he
    cases he
    exact ⟨rfl, hw.1, hw.2, rfl⟩

theorem triple_regCount (hg : g.crit = true) (hslot : g.slot = true) :
    (discipline E W).Triple t (Inside t g f c F) regCount.lift
      fun x => Inside t g f c fun m T => F m T ∧ T.count = x := by
  refine triple_read (o := .regCount) (stable_inside hg) (fun _ => stable_inside hg) ?_
    (fun _ _ => rfl) ?_
  · exact fun w hi hw => safe_of_live hi hw.1.ghost (live_of_slot hslot) (by simp) (by simp)
  · intro w e r s hw he
    cases he
    exact ⟨rfl, hw.1, hw.2, rfl⟩

/-- A change of the registry that leaves the slot, the mutex and the descriptor of thread `t`
as they are. -/
theorem Inv.moves_tokens (h : Inv W w) (hrun : w.state.stopped t = false) {r : ClientRegistry}
    {waits : Nat} (hn : r.n = w.state.server.registry.n)
    (htable : r.table = w.state.server.registry.table ∨ (w.ghost t).crit = true)
    (hwaits : waits = w.state.waits ∨ W.waiting)
    (hslots : r.sem .slots = w.state.server.registry.sem .slots)
    (hbalanced : Balanced r waits (Function.update w.ghost t v))
    (hslot : v.slot = (w.ghost t).slot) (hcrit : v.crit = (w.ghost t).crit)
    (hfd : v.fd = (w.ghost t).fd)
    (hwindow : ¬ W.servers → v.stored = true → v.opened = false →
      w.state.calls t = some (.register v.fd))
    (hentry : W.late → w.state.swept = true → ∀ fd,
      (change w.state r w.state.expected w.state.holder waits w.state.swept).Entry fd →
        w.state.Entry fd) :
    (discipline E W).Moves t w (w.after t
      (change w.state r w.state.expected w.state.holder waits w.state.swept) v) := by
  apply h.moves hrun hn htable hwaits (fun _ _ => rfl) hbalanced
  case huser =>
    rw [hslot, hfd]
    exact h.user t
  case hholder =>
    intro u
    rw [h.holder u]
    by_cases hu : u = t
    · subst hu
      rw [Function.update_self, hcrit]
    · rw [Function.update_of_ne hu]
  case hwindow => exact hwindow
  case hshut => exact fun hW hswept fd hfd => h.shut hW hswept fd (hentry hW hswept fd hfd)
  case hfreed =>
    intro hW hfreed
    rw [hslots, hn]
    exact h.freed hW hfreed

/-- The descriptor of thread `t` is nobody else's. -/
theorem Inv.fd_ne (h : Inv W w) (ht : (w.ghost t).slot = true) {u : Nat} (hu : u ≠ t)
    (hslot : (w.ghost u).slot = true) : (w.ghost u).fd ≠ (w.ghost t).fd := by
  intro heq
  have huser := h.user u hslot
  rw [heq, h.user t ht] at huser
  exact hu (Option.some.inj huser).symm

/-- The descriptor is stored in an empty entry. -/
theorem triple_place {i : Nat} (hc : ¬ W.servers → c = some (.register f)) :
    (discipline E W).Triple t (Inside t (.locked f) f c fun n T => i < n ∧ T.fds i = -1)
      (setRegFd i f).lift fun _ => Inside t (.placed f) f c fun _ _ => True := by
  refine triple_act (o := .setRegFd i f) (stable_inside rfl) (fun _ => stable_inside rfl) ?_ ?_
  · exact fun w hi hw => safe_of_live hi hw.1.ghost (live_of_slot rfl) (by simp) (by simp)
  · intro w e r s hi hw hrun he hassume
    cases he
    obtain ⟨hk, hlt, hempty⟩ := hw
    have hghost := hk.ghost
    have hslot : (w.ghost t).slot = true := by rw [hghost]; rfl
    have hvalid := hi.balanced.valid t hslot
    rw [hghost] at hvalid
    have hf : f ≠ -1 := by
      change 0 ≤ f at hvalid
      omega
    refine ⟨.placed f, ?_, ?_⟩
    · apply hi.moves_tokens hrun
      case hn => rfl
      case htable => exact .inr (by rw [hghost]; rfl)
      case hwaits => exact .inl rfl
      case hslots => rfl
      case hbalanced =>
        have hstore := hi.balanced.store (t := t) hlt hempty hslot
        simp only [hghost] at hstore
        apply hstore
        case hnew =>
          intro u hu hslotu
          have hne := hi.fd_ne hslot hu hslotu
          rwa [hghost] at hne
        all_goals rfl
      case hslot => rw [hghost]; rfl
      case hcrit => rw [hghost]; rfl
      case hfd => rw [hghost]; rfl
      case hwindow =>
        intro hW _ _
        rw [hk.calls]
        exact hc hW
      case hentry =>
        intro hW hswept
        rw [hassume.late hW i f rfl hf] at hswept
        cases hswept
    · exact ⟨⟨by simp, hk.users, hk.calls, hk.expected⟩, trivial⟩

/-- `count` is written back, with the descriptor counted or not. -/
theorem triple_setRegCount {n m : Int} {b : Bool} (hg : g.crit = true) (hslot : g.slot = true)
    (hcoherent : b = true → g.stored = true ∨ g.opened = true)
    (hwindow : ¬ W.servers → g.stored = true → g.opened = false → c = some (.register g.fd))
    (hn : n + g.counted.toNat = m + b.toNat) :
    (discipline E W).Triple t (Inside t g f c fun _ T => T.count = m) (setRegCount n).lift
      fun _ => Inside t { g with counted := b } f c fun _ T => T.count = n := by
  refine triple_act (o := .setRegCount n) (stable_inside hg) (fun _ => stable_inside hg) ?_ ?_
  · exact fun w hi hw => safe_of_live hi hw.1.ghost (live_of_slot hslot) (by simp) (by simp)
  · intro w e r s hi hw hrun he _
    cases he
    obtain ⟨hk, hcount⟩ := hw
    have hghost := hk.ghost
    refine ⟨{ g with counted := b }, ?_, ?_⟩
    · apply hi.moves_tokens hrun
      case hn => rfl
      case htable => exact .inr (by rw [hghost, hg])
      case hwaits => exact .inl rfl
      case hslots => rfl
      case hbalanced =>
        have hset := hi.balanced.setCount (t := t) (b := b) (n := n)
        simp only [hghost] at hset
        apply hset hg hcoherent
        change n + g.counted.toNat = w.state.server.registry.table.count + b.toNat
        rw [hcount, hn]
      case hslot => rw [hghost]
      case hcrit => rw [hghost]
      case hfd => rw [hghost]
      case hwindow =>
        intro hW hst hop
        rw [hk.calls]
        exact hwindow hW hst hop
      case hentry => exact fun _ _ _ h => h
    · exact ⟨⟨by simp, hk.users, hk.calls, hk.expected⟩, rfl⟩

/-- An exchange of tokens for the gate, in the critical section. -/
theorem moves_gate {v : Tokens} (sem : Sem → Nat) (hi : Inv W w)
    (hrun : w.state.stopped t = false) (hk : w.ghost t = g)
    (hv : v.Coherent) (hsame : v = { g with opened := v.opened })
    (hsem : ∀ x, x ≠ .countMutex → sem x = w.state.server.registry.sem x)
    (hgate : ∀ m, Tally (fun u => u ≠ t ∧ (w.ghost u).opened = true) m →
      sem .countMutex + min (m + v.opened.toNat) 1 =
        w.state.server.registry.sem .countMutex + min (m + g.opened.toNat) 1)
    (hwindow : ¬ W.servers → v.stored = true → v.opened = false →
      w.state.calls t = some (.register v.fd)) :
    (discipline E W).Moves t w (w.after t
      (change w.state { w.state.server.registry with sem := sem } w.state.expected
        w.state.holder w.state.waits w.state.swept) v) := by
  have hslot : v.slot = g.slot := by rw [hsame]
  have hcrit : v.crit = g.crit := by rw [hsame]
  have hitem : v.item = g.item := by rw [hsame]
  have hfd : v.fd = g.fd := by rw [hsame]
  have hcounted : v.counted = g.counted := by rw [hsame]
  have hstored : v.stored = g.stored := by rw [hsame]
  apply hi.moves_tokens hrun
  case hn => rfl
  case htable => exact .inl rfl
  case hwaits => exact .inl rfl
  case hslots => exact hsem .slots (by simp)
  case hbalanced =>
    apply hi.balanced.exchange hv
    case hvalid =>
      rw [hslot, hfd, ← hk]
      exact hi.balanced.valid t
    case hslots => rw [hsem .slots (by simp), hslot, hk]
    case hmutex => rw [hsem .mutex (by simp), hcrit, hk]
    case hitems => rw [hsem .items (by simp), hitem, hk]
    case hgate =>
      intro m hm
      rw [hk, hgate m hm]
    case hcounted => rw [hcounted, hk]
    case hstored => rw [hstored, hk]
    case hfd => exact fun _ => by rw [hfd, hk]
  case hslot => rw [hslot, hk]
  case hcrit => rw [hcrit, hk]
  case hfd => rw [hfd, hk]
  case hwindow => exact hwindow
  case hentry => exact fun _ _ _ h => h

/-- The other clients for which the gate is closed, once `count` is read. -/
theorem others_of_count {n : Int} {m : Nat} (hi : Inv W w)
    (hw : Inside t g f c (fun _ T => T.count = n) w) (hg : g.crit = true)
    (hm : Tally (fun u => u ≠ t ∧ (w.ghost u).opened = true) m) :
    n = m + g.counted.toNat := by
  have hothers := hi.balanced.others_opened (t := t) (by rw [hw.1.ghost, hg]) hm
  rw [hw.1.ghost] at hothers
  rw [← hw.2]
  exact hothers

/-- `cr->count == 1` is tested: the gate is closed unless this is the first client. -/
theorem triple_testFirst {n : Int} :
    (discipline E W).Triple t (Inside t (.tallied f) f c fun _ T => T.count = n) regCount.lift
      fun x w => if x = 1 then Inside t (.tallied f) f c (fun _ T => T.count = 1) w
        else Inside t (.gated f) f c (fun _ _ => True) w := by
  refine triple_act (o := .regCount) (stable_inside rfl) (fun x => ?_) ?_ ?_
  · split_ifs
    · exact stable_inside rfl
    · exact stable_inside rfl
  · exact fun w hi hw => safe_of_live hi hw.1.ghost (live_of_slot rfl) (by simp) (by simp)
  · intro w e r s hi hw hrun he _
    cases he
    have hk := hw.1
    split_ifs with hone
    · refine ⟨.tallied f, ?_⟩
      have hsame : w.after t (w.state.record t .regCount w.state.server) (.tallied f) = w := by
        rw [← hk.ghost]
        exact w.after_self t
      rw [hsame]
      exact ⟨Discipline.Moves.refl hi, hk, hone⟩
    · refine ⟨.gated f, ?_, ⟨by simp, hk.users, hk.calls, hk.expected⟩, trivial⟩
      apply moves_gate w.state.server.registry.sem hi hrun hk.ghost
      case hv => constructor <;> simp
      case hsame => rfl
      case hsem => exact fun _ _ => rfl
      case hgate =>
        intro m hm
        have hothers := others_of_count hi ⟨hk, rfl⟩ rfl hm
        have hmany : m ≠ 0 := by
          rintro rfl
          apply hone
          change w.state.server.registry.table.count = 1
          rw [hothers]
          rfl
        simp
        omega
      case hwindow => simp

/-- The first client closes the gate. -/
theorem triple_closeGate (hc : c ≠ some .waitForEmpty) :
    (discipline E W).Triple t (Inside t (.tallied f) f c fun _ T => T.count = 1)
      (semWait .countMutex).lift fun _ => Inside t (.gated f) f c fun _ _ => True := by
  have hzero : ∀ w : World E, Inv W w → Inside t (.tallied f) f c (fun _ T => T.count = 1) w →
      ∀ m, Tally (fun u => u ≠ t ∧ (w.ghost u).opened = true) m → m = 0 := by
    intro w hi hw m hm
    have hothers := others_of_count hi hw rfl hm
    simp at hothers
    omega
  refine triple_act (o := .semWait .countMutex) (stable_inside rfl) (fun _ => stable_inside rfl)
    (fun w hi hw => ?_) ?_
  · constructor
    case intact => exact fun hW _ _ _ => Live.intact (live_of_slot rfl) hi hw.1.ghost hW
    case items => exact fun h => by cases h
    case countMutex =>
      intro _ _
      obtain ⟨k, hk, hsum⟩ := hi.balanced.gate
      obtain ⟨m, hm, hkm⟩ := hk.others (f := Tokens.opened) t
      have hm' := hzero w hi hw m hm
      rw [hw.1.ghost] at hkm
      simp at hkm
      omega
    case result => exact fun _ _ h => by cases h
  · intro w e r s hi hw hrun he _
    obtain ⟨hpos, rfl⟩ := exec_semWait he
    have hk := hw.1
    have hwaits : w.state.record t (.semWait .countMutex) { w.state.server with
        registry := { w.state.server.registry with
          sem := Function.update w.state.server.registry.sem .countMutex
            (w.state.server.registry.sem .countMutex - 1) } } =
        change w.state { w.state.server.registry with
          sem := Function.update w.state.server.registry.sem .countMutex
            (w.state.server.registry.sem .countMutex - 1) } w.state.expected
          w.state.holder w.state.waits w.state.swept := by
      simp [Process.record, change, hk.calls, hc]
    rw [hwaits]
    refine ⟨.gated f, ?_, ⟨by simp, hk.users, hk.calls, hk.expected⟩, trivial⟩
    apply moves_gate _ hi hrun hk.ghost
    case hv => constructor <;> simp
    case hsame => rfl
    case hsem => exact fun x hx => Function.update_of_ne hx ..
    case hgate =>
      intro m hm
      rw [hzero w hi hw m hm, Function.update_self]
      simp
      omega
    case hwindow => simp

/-- `cr->count == 0` is tested: the gate is still closed for the last client. -/
theorem triple_testLast {n : Int} :
    (discipline E W).Triple t (Inside t (.dropped f) f c fun _ T => T.count = n) regCount.lift
      fun x w => if x = 0 then Inside t (.dropped f) f c (fun _ T => T.count = 0) w
        else Inside t (.locked f) f c (fun _ _ => True) w := by
  refine triple_act (o := .regCount) (stable_inside rfl) (fun x => ?_) ?_ ?_
  · split_ifs
    · exact stable_inside rfl
    · exact stable_inside rfl
  · exact fun w hi hw => safe_of_live hi hw.1.ghost (live_of_slot rfl) (by simp) (by simp)
  · intro w e r s hi hw hrun he _
    cases he
    have hk := hw.1
    split_ifs with hnone
    · refine ⟨.dropped f, ?_⟩
      have hsame : w.after t (w.state.record t .regCount w.state.server) (.dropped f) = w := by
        rw [← hk.ghost]
        exact w.after_self t
      rw [hsame]
      exact ⟨Discipline.Moves.refl hi, hk, hnone⟩
    · refine ⟨.locked f, ?_, ⟨by simp, hk.users, hk.calls, hk.expected⟩, trivial⟩
      apply moves_gate w.state.server.registry.sem hi hrun hk.ghost
      case hv => constructor <;> simp
      case hsame => rfl
      case hsem => exact fun _ _ => rfl
      case hgate =>
        intro m hm
        have hothers := others_of_count hi ⟨hk, rfl⟩ rfl hm
        have hmany : m ≠ 0 := by
          rintro rfl
          apply hnone
          change w.state.server.registry.table.count = 0
          rw [hothers]
          rfl
        simp
        omega
      case hwindow => simp

/-- The last client opens the gate. -/
theorem triple_openGate :
    (discipline E W).Triple t (Inside t (.dropped f) f c fun _ T => T.count = 0)
      (semPost .countMutex).lift fun _ => Inside t (.locked f) f c fun _ _ => True := by
  refine triple_act (o := .semPost .countMutex) (stable_inside rfl) (fun _ => stable_inside rfl)
    ?_ ?_
  · exact fun w hi hw => safe_of_live hi hw.1.ghost (live_of_slot rfl) (by simp) (by simp)
  · intro w e r s hi hw hrun he _
    obtain rfl := exec_semPost he
    have hk := hw.1
    refine ⟨.locked f, ?_, ⟨by simp, hk.users, hk.calls, hk.expected⟩, trivial⟩
    apply moves_gate _ hi hrun hk.ghost
    case hv => constructor <;> simp
    case hsame => rfl
    case hsem => exact fun x hx => Function.update_of_ne hx ..
    case hgate =>
      intro m hm
      have hothers := others_of_count hi hw rfl hm
      simp at hothers
      rw [Function.update_self]
      simp
      omega
    case hwindow => simp

/-- The descriptor is removed from its entry. -/
theorem triple_remove {i : Nat} :
    (discipline E W).Triple t (Inside t (.gated f) f c fun n T => i < n ∧ T.fds i = f)
      (setRegFd i (-1)).lift fun _ => Inside t (.cleared f) f c fun _ _ => True := by
  refine triple_act (o := .setRegFd i (-1)) (stable_inside rfl) (fun _ => stable_inside rfl) ?_ ?_
  · exact fun w hi hw => safe_of_live hi hw.1.ghost (live_of_slot rfl) (by simp) (by simp)
  · intro w e r s hi hw hrun he _
    cases he
    obtain ⟨hk, hlt, hentry⟩ := hw
    have hghost := hk.ghost
    have hslot : (w.ghost t).slot = true := by rw [hghost]; rfl
    refine ⟨.cleared f, ?_, ⟨by simp, hk.users, hk.calls, hk.expected⟩, trivial⟩
    apply hi.moves_tokens hrun
    case hn => rfl
    case htable => exact .inr (by rw [hghost]; rfl)
    case hwaits => exact .inl rfl
    case hslots => rfl
    case hbalanced =>
      have hclear := hi.balanced.clear (t := t) hlt
      simp only [hghost] at hclear
      apply hclear hentry
      case hnew =>
        intro u hu hslotu
        have hne := hi.fd_ne hslot hu hslotu
        rwa [hghost] at hne
      all_goals rfl
    case hslot => rw [hghost]; rfl
    case hcrit => rw [hghost]; rfl
    case hfd => rw [hghost]; rfl
    case hwindow => simp
    case hentry =>
      intro _ _ fd hfd
      obtain ⟨hne, j, hj, hfdj⟩ := hfd
      change Function.update w.state.server.registry.fds i (-1) j = fd at hfdj
      by_cases hji : j = i
      · subst hji
        rw [Function.update_self] at hfdj
        exact absurd hfdj.symm hne
      · rw [Function.update_of_ne hji] at hfdj
        exact ⟨hne, j, hj, hfdj⟩

/-! ## Items and slots -/

/-- An exchange of an item. -/
theorem moves_item {v : Tokens} {n : Nat} (hi : Inv W w) (hrun : w.state.stopped t = false)
    (hk : w.ghost t = g) (hv : v.Coherent) (hsame : v = { g with item := v.item })
    (hn : n + g.item.toNat = w.state.server.registry.sem .items + v.item.toNat)
    (hopened : g.opened = true) :
    (discipline E W).Moves t w (w.after t
      (change w.state { w.state.server.registry with
        sem := Function.update w.state.server.registry.sem .items n } w.state.expected
        w.state.holder w.state.waits w.state.swept) v) := by
  have hslot : v.slot = g.slot := by rw [hsame]
  have hcrit : v.crit = g.crit := by rw [hsame]
  have hfd : v.fd = g.fd := by rw [hsame]
  have hcounted : v.counted = g.counted := by rw [hsame]
  have hstored : v.stored = g.stored := by rw [hsame]
  have hopened' : v.opened = g.opened := by rw [hsame]
  apply hi.moves_tokens hrun
  case hn => rfl
  case htable => exact .inl rfl
  case hwaits => exact .inl rfl
  case hslots => rfl
  case hbalanced =>
    apply hi.balanced.exchange hv
    case hvalid =>
      rw [hslot, hfd, ← hk]
      exact hi.balanced.valid t
    case hslots => rw [hslot, hk]; rfl
    case hmutex => rw [hcrit, hk]; rfl
    case hitems => rw [hk, Function.update_self, hn]
    case hgate =>
      intro m hm
      rw [hopened', hk]
      rfl
    case hcounted => rw [hcounted, hk]
    case hstored => rw [hstored, hk]
    case hfd => exact fun _ => by rw [hfd, hk]
  case hslot => rw [hslot, hk]
  case hcrit => rw [hcrit, hk]
  case hfd => rw [hfd, hk]
  case hwindow =>
    intro _ _ hno
    rw [hopened', hopened] at hno
    cases hno
  case hentry => exact fun _ _ _ h => h

theorem triple_giveItem :
    (discipline E W).Triple t (Knows t (.announced f) (some f) c false) (semPost .items).lift
      fun _ => Knows t (.resting f) (some f) c false := by
  refine triple_act (o := .semPost .items) stable_knows (fun _ => stable_knows) ?_ ?_
  · exact fun w hi hw => safe_of_live hi hw.ghost (live_of_slot rfl) (by simp) (by simp)
  · intro w e r s hi hw hrun he _
    obtain rfl := exec_semPost he
    refine ⟨.resting f, ?_, ⟨by simp, hw.users, hw.calls, hw.expected⟩⟩
    apply moves_item hi hrun hw.ghost
    case hv => constructor <;> simp
    case hsame => rfl
    case hn => rfl
    case hopened => rfl

theorem triple_takeItem :
    (discipline E W).Triple t (Knows t (.resting f) (some f) c false) (semWait .items).lift
      fun _ => Knows t (.announced f) (some f) c false := by
  refine triple_act (o := .semWait .items) stable_knows (fun _ => stable_knows)
    (fun w hi hw => ?_) ?_
  · constructor
    case intact => exact fun hW _ _ _ => Live.intact (live_of_slot rfl) hi hw.ghost hW
    case items => exact fun _ => hi.balanced.items_pos (t := t) (by rw [hw.ghost]; rfl)
    case countMutex => exact fun h => by cases h
    case result => exact fun _ _ h => by cases h
  · intro w e r s hi hw hrun he _
    obtain ⟨hpos, rfl⟩ := exec_semWait he
    refine ⟨.announced f, ?_, ⟨by simp, hw.users, hw.calls, hw.expected⟩⟩
    apply moves_item hi hrun hw.ghost
    case hv => constructor <;> simp
    case hsame => rfl
    case hn =>
      simp
      omega
    case hopened => rfl

theorem triple_giveSlot :
    (discipline E W).Triple t (Knows t (.entered f) (some f) c false) (semPost .slots).lift
      fun _ => Knows t .none (some f) c false := by
  refine triple_act (o := .semPost .slots) stable_knows (fun _ => stable_knows) ?_ ?_
  · exact fun w hi hw => safe_of_live hi hw.ghost (live_of_slot rfl) (by simp) (by simp)
  · intro w e r s hi hw hrun he _
    obtain rfl := exec_semPost he
    have hg := hw.ghost
    refine ⟨.none, ?_, ⟨by simp, hw.users, hw.calls, hw.expected⟩⟩
    apply hi.moves hrun
    case hn => rfl
    case htable => exact .inl rfl
    case hwaits => exact .inl rfl
    case hexpected => exact fun _ _ => rfl
    case hbalanced =>
      apply hi.balanced.exchange Tokens.coherent_none
      all_goals simp [hg]
    case huser => simp
    case hholder =>
      intro u
      rw [hi.holder u]
      by_cases hu : u = t
      · subst hu
        simp [hg]
      · rw [Function.update_of_ne hu]
    case hwindow => simp
    case hshut => exact hi.shut
    case hfreed =>
      intro hW hfreed
      exact absurd (Live.intact (live_of_slot rfl) hi hg hW) hfreed

end Registry

end BourseServer
