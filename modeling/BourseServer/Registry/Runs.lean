import BourseServer.Registry.Handler

/-!
# Runs of the process

Every program that is started follows the discipline, so the registry is balanced in every pool
that a run under consideration reaches, and a thread that is about to act is safe.
-/
namespace BourseServer.Registry

open Concurrency

variable {E : Exchange} {t : Nat} {W : Watch} {w : World E} {f : Int}

/-! ## The bodies of the loops -/

theorem wp_body (p : Proc) (hi : Inv W w)
    (hw : (w.ghost t).stored = true → (w.ghost t).opened = true) :
    (discipline E W).wp t (body p).lift (fun _ => Local t w) w := by
  have htransfer : ∀ p : Proc, p.Transfer →
      (discipline E W).wp t (body p).lift (fun _ => Local t w) w := by
    intro p hp
    have huses := uses_transfer (P := fun o => o.outside = true) hp (fun _ _ => rfl)
      fun _ _ => rfl
    exact triple_built (.leaf huses) hw w hi (Local.refl t w)
  cases p with
  | readn fd n nleft got => exact htransfer _ trivial
  | writen fd n rest => exact htransfer _ trivial
  | service fd l =>
    have hloop : (discipline E W).Triple t (Local t w) (serviceLoop fd l).lift
        fun _ => Local t w := by
      apply Discipline.Triple.lift_bind (triple_built (apart_serveNext fd l).outside hw)
      intro r
      cases r with
      | none => exact .ret stable_local fun _ _ h => h
      | some l => exact triple_proc (.service fd l) hw
    exact hloop w hi (Local.refl t w)

/-! ## The starts -/

/-- A connection is accepted. -/
theorem moves_accept (conn : Conn) (hi : Inv W w) (hk : w.ghost t = .none)
    (hfree : w.state.users f = none) (hconns : w.state.server.conns f = none)
    (hintact : W.early → w.state.Intact) :
    (discipline E W).Moves t w (w.after t { w.state with
      server := w.state.server.setConn f (some conn)
      users := Function.update w.state.users f (some t)
      expected := Function.update w.state.expected t true } (w.ghost t)) := by
  apply hi.moves_other { w.state with
    server := w.state.server.setConn f (some conn)
    users := Function.update w.state.users f (some t)
    expected := Function.update w.state.expected t true } rfl rfl rfl rfl
  case husers =>
    intro u hu fd
    change Function.update w.state.users f (some t) fd = some u ↔ _
    by_cases hfd : fd = f
    · subst hfd
      rw [Function.update_self, hfree]
      simp [Ne.symm hu]
    · rw [Function.update_of_ne hfd]
  case huser => simp [hk]
  case hcalls => exact fun _ _ => rfl
  case hwindow => simp [hk]
  case hexpected => exact fun u hu => Function.update_of_ne hu ..
  case hopen =>
    intro hW fd u hu
    change Function.update w.state.users f (some t) fd = some u at hu
    change Function.update w.state.server.conns f (some conn) fd ≠ none
    by_cases hfd : fd = f
    · subst hfd
      simp
    · rw [Function.update_of_ne hfd] at hu ⊢
      exact hi.open_of_user hW fd u hu
  case hshut =>
    intro x _ hs
    obtain ⟨c, hc, hs⟩ := hs
    have hne : x ≠ f := by
      rintro rfl
      rw [hconns] at hc
      cases hc
    exact ⟨c, by simpa [State.setConn, hne] using hc, hs⟩
  case hsignal => exact fun _ hp => hp
  case hintact => exact hi.intact
  case hrely => exact fun _ _ _ _ => rfl
  case hfreed => exact fun hW hno => absurd (hintact hW) hno
  case haside => exact hi.aside

/-- A thread that calls `creg_register` uses the descriptor from then on. -/
theorem moves_use (hi : Inv W w) (hk : w.ghost t = .none) (hfree : w.state.users f = none)
    (hW : ¬ W.servers) :
    (discipline E W).Moves t w (w.after t { w.state with
      users := Function.update w.state.users f (some t) } (w.ghost t)) := by
  apply hi.moves_other { w.state with users := Function.update w.state.users f (some t) }
    rfl rfl rfl rfl
  case husers =>
    intro u hu fd
    change Function.update w.state.users f (some t) fd = some u ↔ _
    by_cases hfd : fd = f
    · subst hfd
      rw [Function.update_self, hfree]
      simp [Ne.symm hu]
    · rw [Function.update_of_ne hfd]
  case huser => simp [hk]
  case hcalls => exact fun _ _ => rfl
  case hwindow => simp [hk]
  case hexpected => exact fun _ _ => rfl
  case hopen => exact fun h => absurd h hW
  case hshut => exact fun _ _ hs => hs
  case hsignal => exact fun _ hp => hp
  case hintact => exact hi.intact
  case hrely => exact fun _ _ _ _ => rfl
  case hfreed => exact hi.freed
  case haside => exact hi.aside

/-- A thread is interrupted. -/
theorem moves_signal {v : Victim} (hi : Inv W w) (hk : w.ghost t = .none)
    (hnone : w.state.signal = none)
    (haside : W.aside → ∀ u, v = .service u →
      w.state.holder ≠ some u ∧ ∀ fd, w.state.Entry fd → w.state.users fd ≠ some u) :
    (discipline E W).Moves t w (w.after t { w.state with signal := some (v, t) }
      (w.ghost t)) := by
  have hintact := hi.intact hnone
  apply hi.moves_other { w.state with signal := some (v, t) } rfl rfl rfl rfl
    (fun _ _ _ => .rfl)
  case huser => exact hi.user t
  case hcalls => exact fun _ _ => rfl
  case hwindow => simp [hk]
  case hexpected => exact fun _ _ => rfl
  case hopen => exact hi.open_of_user
  case hshut => exact fun _ _ hs => hs
  case hsignal =>
    intro p hp
    rw [hnone] at hp
    cases hp
  case hintact => exact fun _ => hintact
  case hrely => exact fun _ _ _ _ => rfl
  case hfreed => exact fun _ hno => absurd hintact hno
  case haside =>
    intro hW u h hs
    obtain ⟨rfl, rfl⟩ := Prod.mk.inj (Option.some.inj hs)
    obtain ⟨hholder, hentry⟩ := haside hW u rfl
    constructor
    · by_contra hin
      exact hholder ((hi.holder u).mpr (by simpa using hin))
    · by_contra hst
      have hst' : (w.ghost u).stored = true := by simpa using hst
      have hslot := (hi.balanced.coherent u).slot hst'
      have hvalid := hi.balanced.valid u hslot
      obtain ⟨i, hlt, hfd⟩ := hi.balanced.entry u hst'
      exact hentry _ ⟨by omega, i, hlt, hfd⟩ (hi.user u hslot)

/-! ## Every thread follows the discipline -/

/-- The start is a move, and the program is verified from there. -/
def Started (W : Watch) (t : Nat) (w : World E) (p : MainCode Unit) (d : Process E) : Prop :=
  ∃ g, (discipline E W).Moves t w (w.after t d g) ∧
    (discipline E W).wp t p (fun _ => Idle W t) (w.after t d g)

theorem Started.of_triple {p : MainCode Unit} {d : Process E} {P : World E → Prop}
    (hm : (discipline E W).Moves t w (w.after t d (w.ghost t)))
    (h : (discipline E W).Triple t P p fun _ => Idle W t)
    (hP : P (w.after t d (w.ghost t))) : Started W t w p d :=
  ⟨w.ghost t, hm, h _ hm.inv hP⟩

theorem Idle.knows (h : Idle W t w) (hW : W.servers) : Knows t .none none none false w := by
  rcases h with hk | ⟨hno, _⟩
  · exact hk
  · exact absurd hW hno

variable {p : MainCode Unit} {d : Process E}

theorem start_accept {input : List UInt8} {ended : Bool} (hi : Inv W w)
    (hk : Knows t .none none none false w) (hW : W.servers)
    (hintact : W.early → w.state.Intact)
    (h : Process.launch t (.server (.accept f input ended)) w.state = some (p, d)) :
    Started W t w p d := by
  simp only [Process.launch] at h
  split at h
  case isFalse => cases h
  rename_i hfree
  simp only [Process.launchServer, Option.map_eq_some_iff, launch] at h
  obtain ⟨q, hq, heq⟩ := h
  obtain ⟨rfl, rfl⟩ := Prod.mk.inj heq
  split at hq
  · cases hq
  rename_i hconns
  split at hq
  case isFalse => cases hq
  rename_i hf
  cases hq
  have hm := moves_accept ⟨t, input, ended, false, []⟩ hi hk.ghost hfree.1 hconns hintact
  apply Started.of_triple hm ((triple_brsClientService hf hW).post fun _ _ _ h => .inl h)
  constructor
  case ghost => simpa using hk.ghost
  case users =>
    intro x
    change Function.update w.state.users f (some t) x = some t ↔ _
    by_cases hx : x = f
    · subst hx
      simp
    · rw [Function.update_of_ne hx, hk.users]
      simp [Ne.symm hx]
  case calls => exact hk.calls
  case expected => exact Function.update_self ..

theorem start_deliver {x : Int} {bytes : List UInt8} {ended : Bool} (hi : Inv W w)
    (hk : Knows t .none none none false w)
    (h : Process.launch t (.server (.deliver x bytes ended)) w.state = some (p, d)) :
    Started W t w p d := by
  simp only [Process.launch, Process.launchServer, launch, Option.map_eq_some_iff] at h
  obtain ⟨q, hq, heq⟩ := h
  obtain ⟨rfl, rfl⟩ := Prod.mk.inj heq
  split at hq
  case h_2 => cases hq
  rename_i conn hconn
  split at hq
  · cases hq
  cases hq
  have hm := hi.moves_server (t := t) (s := w.state.server.setConn x
    (some (conn.deliver bytes ended))) (by simp [hk.ghost]) rfl ?_
  · apply Started.of_triple (P := Knows t .none none none false) hm
    · exact .ret stable_knows fun _ _ h => .inl h
    · exact ⟨by simpa using hk.ghost, hk.users, hk.calls, hk.expected⟩
  · intro y c hc
    by_cases hy : y = x
    · subst hy
      obtain rfl := Option.some.inj (hconn.symm.trans hc)
      exact ⟨_, Function.update_self .., id⟩
    · exact ⟨c, by simpa [State.setConn, hy] using hc, id⟩

theorem start_client {c : ClientCall} (hi : Inv W w) (hk : Knows t .none none none false w)
    (h : Process.launch t (.server (.client c)) w.state = some (p, d)) :
    Started W t w p d := by
  cases h
  have hm : (discipline E W).Moves t w (w.after t w.state (w.ghost t)) := by
    rw [World.after_self]
    exact .refl hi
  apply Started.of_triple (P := Knows t .none none none false) hm
  · exact (triple_code (apart_runClient c).outside (by simp)).post fun _ _ _ h => .inl h
  · rw [World.after_self]
    exact hk

theorem start_call {c : RegistryCall} (hi : Inv W w) (hidle : Idle W t w) (hW : ¬ W.servers)
    (hregister : ∀ f, c = .register f →
      0 ≤ f ∧ w.state.users f = none ∧ ∀ f', w.state.users f' ≠ some t)
    (hunregister : ∀ f, c = .unregister f → w.state.users f = some t)
    (hwait : c = .waitForEmpty → W.waiting)
    (h : Process.launch t (.call c) w.state = some (p, d)) : Started W t w p d := by
  have hstay : (discipline E W).Moves t w (w.after t w.state (w.ghost t)) := by
    rw [World.after_self]
    exact .refl hi
  -- the wait and the sweep, by a thread that has nothing or is a registered client
  have hother : ∀ c, c = .waitForEmpty ∧ W.waiting ∨ c = .shutdownAll →
      Started W t w (registryCall c) w.state := by
    intro c hc
    rcases hidle with hk | ⟨_, f, hk⟩
    · have htriple : (discipline E W).Triple t
          (fun w => Knows t .none none none false w ∧ Live W t .none False w) (registryCall c)
          fun _ w => Knows t .none none none false w ∧ Live W t .none False w :=
        triple_call c hc rfl (by simp) Tokens.coherent_none (by constructor <;> simp)
      apply Started.of_triple hstay (htriple.post fun _ _ _ h => .inl h.1)
      rw [World.after_self]
      exact ⟨hk, live_of_calls hW⟩
    · have htriple : (discipline E W).Triple t
          (fun w => Knows t (.resting f) (some f) none false w ∧ Live W t (.resting f) False w)
          (registryCall c)
          fun _ w => Knows t (.resting f) (some f) none false w ∧ Live W t (.resting f) False w :=
        triple_call c hc rfl (by simp) (by constructor <;> simp) (by constructor <;> simp)
      apply Started.of_triple hstay (htriple.post fun _ _ _ h => .inr ⟨hW, f, h.1⟩)
      rw [World.after_self]
      exact ⟨hk, live_of_calls hW⟩
  cases c with
  | register f =>
    cases h
    obtain ⟨hf, hfree, hnone⟩ := hregister f rfl
    have hk : Knows t .none none none false w := by
      rcases hidle with hk | ⟨_, f', hk⟩
      · exact hk
      · exact absurd ((hk.users f').mpr rfl) (hnone f')
    have hm := moves_use hi hk.ghost hfree hW
    apply Started.of_triple hm ((triple_callRegister hf hW).post
      fun _ _ _ h => .inr ⟨hW, f, h⟩)
    constructor
    case ghost => simpa using hk.ghost
    case users =>
      intro x
      change Function.update w.state.users f (some t) x = some t ↔ _
      by_cases hx : x = f
      · subst hx
        simp
      · rw [Function.update_of_ne hx, hk.users]
        simp [Ne.symm hx]
    case calls => exact hk.calls
    case expected => exact hk.expected
  | unregister f =>
    cases h
    have huser := hunregister f rfl
    have hk : Knows t (.resting f) (some f) none false w := by
      rcases hidle with hk | ⟨_, f', hk⟩
      · cases (hk.users f).mp huser
      · obtain rfl := Option.some.inj ((hk.users f).mp huser)
        exact hk
    apply Started.of_triple hstay ((triple_callUnregister hW).post fun _ _ _ h => .inl h)
    rw [World.after_self]
    exact hk
  | waitForEmpty =>
    cases h
    exact hother _ (.inl ⟨rfl, hwait rfl⟩)
  | shutdownAll =>
    cases h
    exact hother _ (.inr rfl)

theorem start_signal {v : Victim} (hi : Inv W w) (hk : Knows t .none none none false w)
    (hwaiting : W.waiting)
    (haside : W.aside → ∀ u, v = .service u →
      w.state.holder ≠ some u ∧ ∀ fd, w.state.Entry fd → w.state.users fd ≠ some u)
    (h : Process.launch t (.signal v) w.state = some (p, d)) : Started W t w p d := by
  simp only [Process.launch] at h
  split at h
  case isFalse => cases h
  rename_i hnone
  cases h
  have hm := moves_signal hi hk.ghost hnone.1 haside
  apply Started.of_triple hm ((triple_terminate hwaiting).post fun _ _ _ h => .inl h)
  refine ⟨⟨by simpa using hk.ghost, hk.users, hk.calls, hk.expected⟩, fun _ => ?_, ?_⟩
  · exact ⟨⟨v, rfl⟩, hi.intact hnone.1⟩
  · exact .inr (.inr trivial)

theorem verified (E : Exchange) (W : Watch) : (discipline E W).Verified (Allow W) := by
  constructor
  case body => exact fun t p w hi hpre => wp_body p hi hpre
  case start =>
    intro t q w p d hi hidle h hq
    cases q with
    | server q =>
      have hW : W.servers := hq.servers.mpr (by simp)
      have hk := Idle.knows hidle hW
      cases q with
      | accept f input ended =>
        exact start_accept hi hk hW (fun he => hq.early he f input ended rfl) h
      | deliver x bytes ended => exact start_deliver hi hk h
      | client c => exact start_client hi hk h
    | call c =>
      have hW : ¬ W.servers := fun h => hq.servers.mp h c rfl
      apply start_call hi hidle hW ?_ ?_ ?_ h
      · rintro f rfl
        exact hq.register f rfl
      · rintro f rfl
        exact hq.unregister f rfl
      · rintro rfl
        exact hq.waiting rfl
    | signal v =>
      have hW : W.servers := hq.servers.mpr (by simp)
      apply start_signal hi (Idle.knows hidle hW) (W.waiting_of_servers hW) ?_ h
      rintro he u rfl
      exact hq.aside he u rfl

/-! ## Reached pools -/

theorem inv_init (x : E.State) (n : Nat) :
    Inv W (⟨Process.init E x n, fun _ => .none⟩ : World E) := by
  constructor
  case balanced => exact .init n
  case waited => exact fun _ => rfl
  case user => simp
  case holder => simp [Process.init]
  case window => simp
  case open_of_user => simp [Process.init]
  case shut => simp [Process.init]
  case intact => simp [Process.init, Process.Intact]
  case freed => simp [Process.init, Process.Intact]
  case aside => simp [Process.init]

/-- The moves of the runs under consideration. -/
abbrev Watched (E : Exchange) (W : Watch) : Pool (mainSystem E) → Move (mainSystem E) → Prop :=
  (discipline E W).Allowed (Allow W)

/-- What holds of the tokens in a reached pool. -/
structure Settled (W : Watch) (c : Pool (mainSystem E)) (g : Nat → Tokens) : Prop where
  inv : Inv W (⟨c.state, g⟩ : World E)
  safe : ∀ t o k, c.prog t = .op o k → Safe W t o c.state
  idle : ∀ t a, c.prog t = .ret a → Idle W t (⟨c.state, g⟩ : World E)

theorem settled {x : E.State} {n : Nat} {c : Pool (mainSystem E)}
    (h : Pool.ReachIf (Watched E W) (Pool.idle (Process.init E x n)) c) :
    ∃ g, Settled W c g := by
  have hstart : (discipline E W).Holds (Pool.idle (Process.init E x n)) := by
    apply Discipline.holds_idle (inv_init (W := W) x n)
    intro t w hr _
    have hk : Knows t .none none none false (⟨Process.init E x n, fun _ => .none⟩ : World E) :=
      ⟨rfl, by simp [Process.init], rfl, rfl⟩
    exact .inl (hk.rely hr)
  obtain ⟨g, hinv, hsafe, hidle⟩ := (Discipline.adequacy (verified E W) hstart h).safe
  exact ⟨g, hinv, hsafe, hidle⟩

/-- The action is `P` of the semaphore. -/
def takes (x : Sem) : process.Op → Bool
  | .inl (.semWait y) => decide (y = x)
  | _ => false

theorem exists_of_takes {x : Sem} {p : MainCode Unit} (h : p.atOp (takes x) = true) :
    ∃ k, p = .op (.inl (.semWait x)) k := by
  obtain ⟨o, k, rfl, ho⟩ := Prog.exists_of_atOp h
  unfold takes at ho
  split at ho
  · obtain rfl := of_decide_eq_true ho
    exact ⟨k, rfl⟩
  · cases ho

end BourseServer.Registry
