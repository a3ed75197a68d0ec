import BourseServer.Waiting.Link

/-!
# Nobody waits forever for another thread

Before the first signal, and as long as the writes of the trader module succeed, whoever waits for
a mutex waits for a thread that can go on, and whoever waits for a slot waits for a client that has
one and so does not wait for a slot. A wait is at most two threads long, and the threads of the
server never all wait.
-/
namespace BourseServer

open Concurrency Registry

variable {E : Exchange} {n : Nat}

/-- There is no signal, the writes of the trader module succeed, and the memory of a new trader
does not look like a mutex that is held. -/
def servingRuns (c : Pool (mainSystem E)) : Move (mainSystem E) → Prop
  | .run t e =>
    (∀ fd bs k, c.prog t = .op (.inl (.write fd bs)) k → c.state.server.hist.frames t ≠ [] →
      c.state.server.conns fd ≠ none ∧ e ≠ .inl .ioError) ∧
    ∀ k a junk, c.prog t = .op (.inl .mallocTrader) k → e = .inl (.trader a junk) →
      junk.mutex.depth = 0
  | .start _ q => ∃ q', q = .server q'

namespace Waiting

open Typestate

variable {t : Nat} {o : Op} {d : Process E} {h : Nat → Held} {y : Held}

/-- The process before the first signal. -/
structure Before (d : Process E) : Prop where
  signal : d.signal = none
  exited : d.exited = false
  calls : ∀ t, d.calls t = none
  waits : d.waits = 0
  freed : ∀ b, d.freed b = false

/-- What is recorded of thread `t` agrees with what it holds. -/
structure Matches (d : Process E) (t : Nat) (y : Held) : Prop where
  holder : d.holder = some t ↔ y.registry = true
  fresh : d.expected t = y.fresh
  user : ∀ fd, y.fd = some fd → d.users fd = some t
  slot : y.slot = true → y.fresh = false ∧ y.fd ≠ none

structure Link (n : Nat) (d : Process E) (h : Nat → Held) : Prop where
  agrees : Agrees n d.server h
  threads : ∀ t, Matches d t (h t)
  before : Before d

theorem Matches.alike {y' : Held} (hm : Matches d t y) (hy : Alike y y') : Matches d t y' where
  holder := by rw [hy.registry]; exact hm.holder
  fresh := by rw [hy.fresh]; exact hm.fresh
  user := by rw [hy.fd]; exact hm.user
  slot := by rw [hy.slot, hy.fresh, hy.fd]; exact hm.slot

theorem Before.record {s : State E} (hd : Before d) : Before (d.record t o s) := by
  have hserver : Before { d with server := s } :=
    ⟨hd.signal, hd.exited, hd.calls, hd.waits, hd.freed⟩
  cases o
  case semWait x =>
    cases x
    case countMutex =>
      refine { hserver with waits := ?_ }
      change d.waits + (if d.calls t = some .waitForEmpty then 1 else 0) = 0
      simp [hd.waits, hd.calls t]
    all_goals exact ⟨hd.signal, hd.exited, hd.calls, hd.waits, hd.freed⟩
  case semPost x => cases x <;> exact ⟨hd.signal, hd.exited, hd.calls, hd.waits, hd.freed⟩
  case close fd => exact ⟨hd.signal, hd.exited, hd.calls, hd.waits, hd.freed⟩
  all_goals exact hserver

/-- What the action records of its own thread agrees with what this thread holds then. -/
theorem Matches.own {s : State E} {y' : Held} {r : o.Reply} (hm : Matches d t y)
    (hallow : y.allow o) (hn : y.next o r = some y') : Matches (d.record t o s) t y' := by
  cases o
  case semWait x =>
    cases x
    case slots =>
      cases hn
      exact { hm with fresh := Function.update_self .., slot := fun _ => ⟨rfl, hallow.2.2.2⟩ }
    case mutex =>
      cases hn
      exact { hm with holder := by simp [Process.record] }
    all_goals
      cases hn
      exact { hm with }
  case semPost x =>
    cases x
    case mutex =>
      cases hn
      exact { hm with holder := by simp [Process.record] }
    case slots =>
      cases hn
      exact { hm with slot := fun h => by cases h }
    all_goals
      cases hn
      exact { hm with }
  case close fd =>
    cases hn
    exact { hm with
      user := fun x hx => by cases hx
      slot := fun hslot => by simp [hallow.2] at hslot }
  all_goals
    have hy := next_alike hn (fun x hx => by cases hx) (fun x hx => by cases hx)
      fun x hx => by cases hx
    exact { hm.alike hy with }

/-- What the action records leaves the other threads alone. -/
theorem Matches.other {s : State E} {u : Nat} {y' : Held} (hm : Matches d u y) (hu : u ≠ t)
    (ht : Matches d t y') (hallow : y'.allow o) (hfree : o = .semWait .mutex → d.holder = none) :
    Matches (d.record t o s) u y := by
  cases o
  case semWait x =>
    cases x
    case slots => exact { hm with fresh := (Function.update_of_ne hu ..).trans hm.fresh }
    case mutex =>
      have hno := hm.holder
      rw [hfree rfl] at hno
      exact { hm with holder := by simp [Process.record, Ne.symm hu, ← hno] }
    all_goals exact { hm with }
  case semPost x =>
    cases x
    case mutex =>
      have hno := hm.holder
      rw [ht.holder.mpr hallow] at hno
      exact { hm with holder := by simp [Process.record, ← hno, Ne.symm hu] }
    all_goals exact { hm with }
  case close fd =>
    refine { hm with user := fun x hx => ?_ }
    have huser := hm.user x hx
    have hne : x ≠ fd := by
      rintro rfl
      exact hu (Option.some.inj (huser.symm.trans (ht.user x hallow.1)))
    exact (Function.update_of_ne hne ..).trans huser
  all_goals exact { hm with }

/-- Every action that is allowed keeps the link. -/
theorem Link.record {s : State E} {r : o.Reply} (hl : Link n d h) (hallow : (h t).allow o)
    (hn : (h t).next o r = some y) (hfree : o = .semWait .mutex → d.holder = none)
    (ha : Agrees n (d.record t o s).server (Function.update h t y)) :
    Link n (d.record t o s) (Function.update h t y) where
  agrees := ha
  threads u := by
    by_cases hu : u = t
    · subst hu
      rw [Function.update_self]
      exact (hl.threads u).own hallow hn
    · rw [Function.update_of_ne hu]
      exact (hl.threads u).other hu (hl.threads t) hallow hfree
  before := hl.before.record

/-! ## Runs -/

/-- The typestate of the whole process: before the first signal, all programs are the server's. -/
abbrev waiting : Typestate process Held := locking.extend MainOp fun _ => Unit

abbrev unwatched : Watch := serverWatch False False False

theorem watched_of_servingRuns {c : Pool (mainSystem E)} {m : Move (mainSystem E)}
    (hm : servingRuns c m) : Watched E unwatched c m := by
  refine watched_server ?_ False.elim False.elim False.elim
  cases m with
  | run t e => trivial
  | start t q =>
    obtain ⟨q', rfl⟩ := hm
    exact fun c hc => by cases hc

/-- The tokens of the registry, in a pool that is reached. -/
def Tokened (c : Pool (mainSystem E)) : Prop := ∃ g, Settled unwatched c g

variable {c : Pool (mainSystem E)}

/-- Who takes the registry's mutex finds no holder. -/
theorem Tokened.holder_of_free (hc : Tokened c) (hpos : 0 < c.state.server.registry.sem .mutex) :
    c.state.holder = none := by
  obtain ⟨g, hg⟩ := hc
  obtain ⟨k, hk, hsum⟩ := hg.inv.balanced.mutex
  by_contra hne
  obtain ⟨u, hu⟩ := Option.ne_none_iff_exists'.mp hne
  have hone := hk.pos ((hg.inv.holder u).mp hu)
  change c.state.server.registry.sem .mutex + k = 1 at hsum
  omega

/-- A thread that holds the registry's mutex has not come to its end. -/
theorem Tokened.holder_runs (hc : Tokened c) (hholder : c.state.holder = some t) :
    c.prog t ≠ .ret () := by
  obtain ⟨g, hg⟩ := hc
  intro hret
  have hcrit : (g t).crit = true := (hg.inv.holder t).mp hholder
  have hknows := (hg.idle t () hret).knows trivial
  have hghost : g t = .none := hknows.ghost
  rw [hghost] at hcrit
  cases hcrit

theorem Matches.accept {fd : Int} {y : Held} {d' : Process E} (hm : Matches d t y)
    (hslot : y.slot = false) (hholder : d'.holder = d.holder) (hexpected : d'.expected t = true)
    (huser : d'.users fd = some t) : Matches d' t { y with fresh := true, fd := some fd } where
  holder := by rw [hholder]; exact hm.holder
  fresh := hexpected
  user x hx := by
    obtain rfl := Option.some.inj hx
    exact huser
  slot h := by simp [hslot] at h

/-- The environment may change the connections. -/
theorem Agrees.conns {s : State E} {conns : Int → Option Conn} (ha : Agrees n s h) :
    Agrees n { s with conns := conns } h := ⟨ha.frames, ha.depth, ha.sane, ha.slots⟩

theorem Agrees.update {s : State E} (ha : Agrees n s h) (hin : y.inside = (h t).inside)
    (hmutexes : y.mutexes = (h t).mutexes) (hslot : y.slot = (h t).slot) :
    Agrees n s (Function.update h t y) where
  frames u := by
    by_cases hu : u = t
    · subst hu
      simpa [hin] using ha.frames u
    · simpa [hu] using ha.frames u
  depth u a := by
    by_cases hu : u = t
    · subst hu
      simpa [hmutexes] using ha.depth u a
    · simpa [hu] using ha.depth u a
  sane := ha.sane
  slots := by
    obtain ⟨k, hk, hsum⟩ := ha.slots
    exact ⟨k, hk.keep hslot, hsum⟩

/-- The programs that are started follow the typestate. -/
theorem start_server {q : BourseServer.Request} {p : MainCode Unit} {d d' : Process E}
    (hl : Link n d h) (hrest : (h t).Free ∧ (h t).inside = 0 ∧ (h t).slot = false)
    (hq : Process.launch t (.server q) d = some (p, d')) :
    ∃ y, waiting.Follows p (fun _ => Held.Rests) y ∧ Link n d' (Function.update h t y) := by
  obtain ⟨hfree, hin, hslot⟩ := hrest
  have hrests : (h t).Rests := .inr ⟨hfree, hin, hslot⟩
  cases q with
  | accept fd input ended =>
    simp only [Process.launch] at hq
    split_ifs at hq with hunused
    simp only [Process.launchServer, Option.map_eq_some_iff] at hq
    obtain ⟨⟨q, s⟩, hq, heq⟩ := hq
    obtain ⟨rfl, rfl⟩ := Prod.mk.inj heq
    obtain ⟨conns, rfl⟩ := launch_state hq
    simp only [launch] at hq
    split at hq
    · cases hq
    split_ifs at hq
    obtain ⟨rfl, _⟩ := Prod.mk.inj (Option.some.inj hq)
    let y : Held := { h t with fresh := true, fd := some fd }
    have hfree : y.Free := ⟨hfree.mutexes, hfree.registry⟩
    refine ⟨y, (follows_brsClientService hfree hin rfl hslot rfl).lift, ?_⟩
    refine ⟨hl.agrees.conns.update rfl rfl rfl, fun u => ?_, ?_⟩
    · by_cases hu : u = t
      · subst hu
        rw [Function.update_self]
        exact (hl.threads u).accept hslot rfl (Function.update_self ..) (Function.update_self ..)
      · rw [Function.update_of_ne hu]
        have hm := hl.threads u
        refine ⟨hm.holder, (Function.update_of_ne hu ..).trans hm.fresh, fun x hx => ?_, hm.slot⟩
        have huser := hm.user x hx
        have hne : x ≠ fd := by
          rintro rfl
          rw [hunused.1] at huser
          cases huser
        exact (Function.update_of_ne hne ..).trans huser
    · exact { hl.before with }
  | deliver fd bytes ended =>
    simp only [Process.launch, Process.launchServer, Option.map_eq_some_iff] at hq
    obtain ⟨⟨q, s⟩, hq, heq⟩ := hq
    obtain ⟨rfl, rfl⟩ := Prod.mk.inj heq
    obtain ⟨conns, rfl⟩ := launch_state hq
    have hp : q = .ret () := by
      simp only [launch] at hq
      split at hq
      · split_ifs at hq
        exact (Prod.mk.inj (Option.some.inj hq)).1.symm
      · cases hq
    refine ⟨h t, hp ▸ hrests, ?_⟩
    rw [Function.update_eq_self]
    exact ⟨hl.agrees.conns, fun u => { hl.threads u with }, { hl.before with }⟩
  | client c =>
    cases hq
    refine ⟨h t, ((keeps_runClient _ hfree).mono fun _ _ heq => heq ▸ hrests).lift, ?_⟩
    rw [Function.update_eq_self]
    exact hl

/-- The choice for an action of the server is one of the server's. -/
theorem exec_server {d d' : Process E} {e : Choice E ⊕ E.State} {r : o.Reply}
    (he : Process.exec t (.inl o) e d = .done r d') :
    ∃ e' s, e = .inl e' ∧ exec t o e' d.server = .done r s ∧ d' = d.record t o s := by
  unfold Process.exec at he
  split at he
  · cases he
  cases e with
  | inr x => cases he
  | inl e =>
    simp only [Process.execServer] at he
    split at he
    · cases he
    split at he
    · rename_i hdone
      cases he
      exact ⟨e, _, rfl, hdone, rfl⟩
    · cases he
    · cases he

theorem server_record (d : Process E) (t : Nat) (o : Op) (s : State E) :
    (d.record t o s).server = s := by
  cases o
  case semWait x => cases x <;> rfl
  case semPost x => cases x <;> rfl
  all_goals rfl

/-- The state after an action; a write that fails in the module is not looked at. -/
theorem exists_next {r : o.Reply} {y : Held}
    (hsent : ∀ fd bs, o = .write fd bs → 0 < y.inside → HEq r WriteResult.failed → False) :
    ∃ y', y.next o r = some y' := by
  cases o
  case write fd bs =>
    simp only [Held.next]
    split_ifs with hfail
    · exact (hsent fd bs rfl hfail.2 (heq_of_eq hfail.1)).elim
    · exact ⟨y, rfl⟩
  case semWait x => cases x <;> exact ⟨_, rfl⟩
  case semPost x => cases x <;> exact ⟨_, rfl⟩
  all_goals exact ⟨_, rfl⟩

theorem sound (E : Exchange) (n : Nat) :
    waiting.Sound (mainSystem E) (fun c m => servingRuns c m ∧ Tokened c) (Link n) Held.Rests where
  body p y hp := (follows_body p y hp).lift
  act {c h t e o k r d} hl hok hp hallow he := by
    cases o with
    | inr o => exact hallow.elim
    | inl o =>
      obtain ⟨e', s, rfl, he', rfl⟩ := exec_server he
      obtain ⟨y', hn⟩ : ∃ y', (h t).next o r = some y' := by
        apply exists_next
        rintro fd bs rfl hin hr
        have hframes : c.state.server.hist.frames t ≠ [] := by
          intro hnil
          rw [hl.agrees.frames t, hnil] at hin
          cases hin
        obtain ⟨hconn, herr⟩ := hok.1.1 fd bs k hp hframes
        obtain rfl := eq_of_heq hr
        simp only [exec, execWrite] at he'
        split at he'
        · contradiction
        · cases e' <;> simp at he' herr
      refine ⟨y', hn, hl.record hallow hn ?_ ?_⟩
      · rintro rfl
        exact hok.2.holder_of_free (exec_semWait he').1
      · rw [server_record]
        refine hl.agrees.exec he' hallow hn ?_
        rintro a junk rfl rfl
        exact hok.1.2 k a junk hp rfl
  start {c h t q p d} hl hok hp hrest hq := by
    obtain ⟨⟨q', rfl⟩, htokened⟩ := hok
    refine start_server hl ?_ hq
    rcases hrest with hregistry | hrest
    · exact absurd hp (htokened.holder_runs (((hl.threads t).holder).mpr hregistry))
    · exact hrest

theorem typed {x : E.State}
    (hc : Pool.ReachIf servingRuns (Pool.idle (Process.init E x n)) c) :
    Tokened c ∧ Typed waiting (Link n) Held.Rests c := by
  have htokened : ∀ d, Pool.ReachIf servingRuns (Pool.idle (Process.init E x n)) d → Tokened d :=
    fun d hd => settled (hd.mono fun _ _ => watched_of_servingRuns)
  refine ⟨htokened c hc, (sound E n).reach ⟨fun _ => Held.none, ?_, fun t => ?_⟩ hc htokened⟩
  · refine ⟨⟨fun _ => rfl, ?_, ?_, 0, Tally.none.congr (by simp [Held.none]), rfl⟩, ?_, ?_⟩
    · exact fun t a => Nat.zero_le _
    · exact fun a tr htr => by cases htr
    · intro t
      refine ⟨?_, rfl, (fun _ h => by cases h), (fun h => by cases h)⟩
      exact ⟨(fun h => by cases h), (fun h => by cases h)⟩
    · exact ⟨rfl, rfl, fun _ => rfl, rfl, fun _ => rfl⟩
  · exact .inr ⟨⟨rfl, rfl⟩, rfl, rfl⟩

/-! ## Who waits for whom -/

/-- Thread `t` has to wait at the action: the mutex is another thread's, or the semaphore is 0. -/
def Waits (d : Process E) (t : Nat) : Op → Prop
  | .lock a => ∃ tr, d.server.traders a = some tr ∧ tr.mutex.lock t = none
  | .semWait x => d.server.registry.sem x = 0
  | _ => False

/-- Thread `t` has to wait for another thread. -/
def Blocked (c : Pool (mainSystem E)) (t : Nat) : Prop :=
  ∃ o k, c.prog t = .op (.inl o) k ∧ Waits c.state t o

/-- Thread `t` has to wait for a mutex, of a trader or of the registry, which thread `u` has. -/
def WaitsForMutex (c : Pool (mainSystem E)) (t u : Nat) : Prop :=
  ∃ o k, c.prog t = .op (.inl o) k ∧ Waits c.state t o ∧
    match o with
    | .lock a => ∃ tr, c.state.server.traders a = some tr ∧ tr.mutex.owner = some u
    | .semWait .mutex => c.state.holder = some u
    | _ => False

/-- Thread `t` has to wait for a slot of the registry, and thread `u` serves a connection and has
taken a slot. -/
def WaitsForSlot (c : Pool (mainSystem E)) (t u : Nat) : Prop :=
  (∃ k, c.prog t = .op (.inl (.semWait .slots)) k) ∧ Waits c.state t (.semWait .slots) ∧
    (∃ fd, c.state.users fd = some u) ∧ c.state.expected u = false

/-- The next step of the thread is possible at once: it waits for no other thread and for no
input. A write counts as possible, although it blocks while the client does not read. -/
def Ready (c : Pool (mainSystem E)) (t : Nat) : Prop :=
  match c.prog t with
  | .ret _ => False
  | .call _ _ => True
  | .op o _ => (∀ fd m, o ≠ .inl (.read fd m)) ∧
      ∃ e, (mainSystem E).exec t o e c.state ≠ .wait

/-- An action for which the thread does not have to wait is possible. -/
theorem exists_exec (s : State E) (hlock : ∀ a, o = .lock a → ∀ tr, s.traders a = some tr →
    tr.mutex.lock t ≠ none) (hsem : ∀ x, o = .semWait x → s.registry.sem x ≠ 0)
    (hp : o.patient = false) : ∃ e, exec t o e s ≠ .wait := by
  cases o
  case lock a =>
    refine ⟨.tick, ?_⟩
    cases htr : s.traders a with
    | none => simp [exec, execTrader, htr]
    | some tr =>
      obtain ⟨m, hm⟩ := Option.ne_none_iff_exists'.mp (hlock a rfl tr htr)
      simp [exec, execTrader, htr, hm]
  case semWait x => exact ⟨.tick, by simp [exec, hsem x rfl]⟩
  case clock => exact ⟨.time 0 0, by simp [exec]⟩
  case write fd bs =>
    refine ⟨.eintr, ?_⟩
    simp only [exec, execWrite]
    split <;> simp
  case free p =>
    refine ⟨.tick, ?_⟩
    cases p with
    | none => simp [exec]
    | some p =>
      simp only [exec]
      split <;> simp
  case close fd =>
    refine ⟨.tick, ?_⟩
    simp only [exec]
    split <;> simp
  case shutdown fd =>
    refine ⟨.tick, ?_⟩
    simp only [exec]
    split <;> simp
  case unlock a => exact ⟨.tick, by cases htr : s.traders a <;> simp [exec, execTrader, htr]⟩
  case mutexInit a => exact ⟨.tick, by cases htr : s.traders a <;> simp [exec, execTrader, htr]⟩
  case freeTrader a => exact ⟨.tick, by cases htr : s.traders a <;> simp [exec, execTrader, htr]⟩
  case load f a => exact ⟨.tick, by cases htr : s.traders a <;> simp [exec, execTrader, htr]⟩
  case store f a v => exact ⟨.tick, by cases htr : s.traders a <;> simp [exec, execTrader, htr]⟩
  case mallocTrader | malloc | uninit | beyond | read | exchange => cases hp
  all_goals exact ⟨.tick, by simp [exec]⟩

/-- An action of a thread that holds a mutex is possible at once. -/
theorem ready_of_allow {k : o.Reply → MainCode Unit} {y : Held} (hd : Before c.state)
    (hp : c.prog t = .op (.inl o) k) (hallow : y.allow o) (hheld : ¬ y.Free)
    (hlock : ∀ a, o = .lock a → ∀ tr, c.state.server.traders a = some tr →
      tr.mutex.lock t ≠ none)
    (hgate : o = .semWait .countMutex → c.state.server.registry.sem .countMutex ≠ 0) :
    Ready c t := by
  have hpatient : o.patient = false := by
    cases o <;> first | rfl | exact absurd (hallow rfl) hheld
  have hsem : ∀ x, o = .semWait x → c.state.server.registry.sem x ≠ 0 := by
    rintro x rfl
    cases x
    case countMutex => exact hgate rfl
    case slots => exact absurd hallow.1 hheld
    all_goals exact absurd hallow hheld
  obtain ⟨e, he⟩ := exists_exec c.state.server hlock hsem hpatient
  unfold Ready
  rw [hp]
  refine ⟨?_, .inl e, ?_⟩
  · rintro fd m heq
    obtain rfl := Sum.inl.inj heq
    cases hpatient
  · have hstopped : c.state.stopped t = false := by
      simp [Process.stopped, hd.exited, hd.signal]
    intro hwait
    change Process.exec t (.inl o) (.inl e) c.state = .wait at hwait
    unfold Process.exec at hwait
    rw [if_neg (by simp [hstopped])] at hwait
    simp only [Process.execServer] at hwait
    split at hwait
    · cases hwait
    split at hwait
    · cases hwait
    · rename_i hsame
      exact he hsame
    · cases hwait

/-- Nobody but `creg_wait_for_empty` waits at `count_mutex`. -/
theorem Tokened.gate_open (hc : Tokened c) (hd : Before c.state) {k : Unit → MainCode Unit}
    (hp : c.prog t = .op (.inl (.semWait .countMutex)) k) :
    c.state.server.registry.sem .countMutex ≠ 0 := by
  obtain ⟨g, hg⟩ := hc
  have hsafe := hg.safe t (.inl (.semWait .countMutex)) k hp
  have hsum := hsafe.countMutex rfl fun hwait => by simp [hd.calls t] at hwait
  rw [hd.waits] at hsum
  omega

/-- A thread that has the mutex of a trader, or of the registry, goes on. -/
theorem ready_of_holds (hc : Tokened c) (hl : Link n c.state h)
    (hf : waiting.Follows (c.prog t) (fun _ => Held.Rests) (h t))
    (hheld : c.state.holder = some t ∨ ∃ a tr, c.state.server.traders a = some tr ∧
      tr.mutex.owner = some t ∧ tr.mutex.depth ≠ 0) : Ready c t := by
  -- what the owner of a mutex holds
  have hmem : ∀ a tr, c.state.server.traders a = some tr → tr.mutex.owner = some t →
      tr.mutex.depth ≠ 0 → a ∈ (h t).mutexes := by
    intro a tr htr howner hdepth
    have hle := hl.agrees.depth t a
    rw [State.depth_of_some htr, Mutex.heldBy, if_pos howner] at hle
    exact List.count_pos_iff.mp (by omega)
  have hbusy : ¬ (h t).Free := by
    rintro ⟨hnil, hregistry⟩
    rcases hheld with hholder | ⟨a, tr, htr, howner, hdepth⟩
    · rw [(hl.threads t).holder.mp hholder] at hregistry
      cases hregistry
    · have hin := hmem a tr htr howner hdepth
      rw [hnil] at hin
      cases hin
  cases hp : c.prog t with
  | ret x =>
    rw [hp] at hf
    rcases hf with hregistry | ⟨hfree, _⟩
    · exact absurd hp (hc.holder_runs ((hl.threads t).holder.mpr hregistry))
    · exact absurd hfree hbusy
  | call q k => simp [Ready, hp]
  | op o k =>
    rw [hp] at hf
    cases o with
    | inr o => exact hf.1.elim
    | inl o =>
      have hallow : (h t).allow o := hf.1
      refine ready_of_allow hl.before hp hallow hbusy ?_ ?_
      · rintro a rfl tr htr
        rcases hheld with hholder | ⟨b, tr', htr', howner, hdepth⟩
        · have hregistry := (hl.threads t).holder.mp hholder
          rw [hallow.registry] at hregistry
          cases hregistry
        · obtain rfl := hallow.mutexes b (hmem b tr' htr' howner hdepth)
          obtain rfl := Option.some.inj (htr.symm.trans htr')
          simp [Mutex.lock, hdepth, howner]
      · rintro rfl
        exact hc.gate_open hl.before hp

/-- A thread that is ready does not wait. -/
theorem Ready.not_blocked (hr : Ready c t) (hd : Before c.state) : ¬ Blocked c t := by
  rintro ⟨o, k, hp, hw⟩
  unfold Ready at hr
  rw [hp] at hr
  obtain ⟨-, e, he⟩ := hr
  have hstopped : c.state.stopped t = false := by
    simp [Process.stopped, hd.exited, hd.signal]
  apply he
  change Process.exec t (.inl o) e c.state = .wait
  unfold Process.exec
  rw [if_neg (by simp [hstopped])]
  cases e with
  | inr x => rfl
  | inl e =>
    simp only [Process.execServer, hd.freed]
    cases o
    case lock a =>
      obtain ⟨tr, htr, hlock⟩ := hw
      simp [exec, execTrader, htr, hlock]
    case semWait y =>
      have hzero : c.state.server.registry.sem y = 0 := hw
      simp [exec, hzero]
    all_goals exact hw.elim

theorem Ready.runs (hr : Ready c t) : c.prog t ≠ .ret () := by
  intro hp
  simp [Ready, hp] at hr

/-- What is known of a pool that is reached. -/
theorem reached {x : E.State} (hc : Pool.ReachIf servingRuns (Pool.idle (Process.init E x n)) c) :
    Tokened c ∧ ∃ h, Link n c.state h ∧
      ∀ t, waiting.Follows (c.prog t) (fun _ => Held.Rests) (h t) := typed hc

/-- A thread that is about to take an action is allowed to. -/
theorem allow_of_follows {k : o.Reply → MainCode Unit} {y : Held} (hp : c.prog t = .op (.inl o) k)
    (hf : waiting.Follows (c.prog t) (fun _ => Held.Rests) y) : y.allow o := by
  rw [hp] at hf
  exact hf.1

/-- The mutex that a thread waits for belongs to a thread that goes on. -/
theorem ready_of_waitsForMutex {x : E.State} {u : Nat}
    (hc : Pool.ReachIf servingRuns (Pool.idle (Process.init E x n)) c)
    (hw : WaitsForMutex c t u) : Ready c u := by
  obtain ⟨htokened, h, hl, hf⟩ := reached hc
  obtain ⟨o, k, -, hwait, hu⟩ := hw
  refine ready_of_holds htokened hl (hf u) ?_
  cases o
  case lock a =>
    obtain ⟨tr, htr, howner⟩ := hu
    obtain ⟨tr', htr', hlock⟩ := hwait
    obtain rfl := Option.some.inj (htr.symm.trans htr')
    refine .inr ⟨a, tr, htr, howner, fun hzero => ?_⟩
    simp [Mutex.lock, hzero] at hlock
  case semWait y =>
    cases y
    case mutex => exact .inl hu
    all_goals exact hu.elim
  all_goals exact hu.elim

/-- A thread that waits waits for somebody. -/
theorem exists_waitsFor {x : E.State} (hn : 0 < n)
    (hc : Pool.ReachIf servingRuns (Pool.idle (Process.init E x n)) c) (hw : Blocked c t) :
    ∃ u, WaitsForMutex c t u ∨ WaitsForSlot c t u := by
  obtain ⟨htokened, h, hl, hf⟩ := reached hc
  obtain ⟨o, k, hp, hwait⟩ := hw
  cases o
  case lock a =>
    obtain ⟨tr, htr, hlock⟩ := hwait
    have hdepth : tr.mutex.depth ≠ 0 := by
      intro hzero
      simp [Mutex.lock, hzero] at hlock
    cases howner : tr.mutex.owner with
    | none => exact absurd (hl.agrees.sane a tr htr howner) hdepth
    | some u => exact ⟨u, .inl ⟨.lock a, k, hp, ⟨tr, htr, hlock⟩, tr, htr, howner⟩⟩
  case semWait y =>
    have hzero : c.state.server.registry.sem y = 0 := hwait
    cases y
    case mutex =>
      obtain ⟨g, hg⟩ := htokened
      obtain ⟨m, hm, hsum⟩ := hg.inv.balanced.mutex
      change c.state.server.registry.sem .mutex + m = 1 at hsum
      obtain ⟨u, hu⟩ : ∃ u, (g u).crit = true := by
        by_contra hno
        have hnone := hm.eq_zero_iff.mpr fun u hu => hno ⟨u, hu⟩
        omega
      exact ⟨u, .inl ⟨.semWait .mutex, k, hp, hwait, (hg.inv.holder u).mpr hu⟩⟩
    case slots =>
      obtain ⟨m, hm, hsum⟩ := hl.agrees.slots
      obtain ⟨u, hu⟩ : ∃ u, (h u).slot = true := by
        by_contra hno
        have hnone := hm.eq_zero_iff.mpr fun u hu => hno ⟨u, hu⟩
        omega
      obtain ⟨hfresh, hfd⟩ := (hl.threads u).slot hu
      obtain ⟨fd, hfd⟩ := Option.ne_none_iff_exists'.mp hfd
      refine ⟨u, .inr ⟨⟨k, hp⟩, hwait, ⟨fd, (hl.threads u).user fd hfd⟩, ?_⟩⟩
      rw [(hl.threads u).fresh, hfresh]
    case items =>
      obtain ⟨g, hg⟩ := htokened
      have hpos := (hg.safe t (.inl (.semWait .items)) k hp).items rfl
      omega
    case countMutex => exact absurd hzero (htokened.gate_open hl.before hp)
  all_goals exact hwait.elim

/-- A client that has a slot does not wait for one, and has not come to its end. -/
theorem runs_of_waitsForSlot {x : E.State} {u : Nat}
    (hc : Pool.ReachIf servingRuns (Pool.idle (Process.init E x n)) c)
    (hw : WaitsForSlot c t u) : c.prog u ≠ .ret () ∧ ∀ v, ¬ WaitsForSlot c u v := by
  obtain ⟨htokened, h, hl, hf⟩ := reached hc
  obtain ⟨_, _, ⟨fd, huser⟩, hexpected⟩ := hw
  constructor
  · intro hp
    obtain ⟨g, hg⟩ := htokened
    have hknows := (hg.idle u () hp).knows trivial
    have hnone := (hknows.users fd).mp huser
    cases hnone
  · rintro v ⟨⟨k, hp⟩, _⟩
    obtain ⟨_, hfresh, _⟩ := allow_of_follows hp (hf u)
    rw [(hl.threads u).fresh, hfresh] at hexpected
    cases hexpected

end Waiting

open Waiting

/-- Whoever waits, waits for a mutex whose holder goes on, or for a slot that a client has who does
not wait for a slot. So there is no deadlock: unless all threads have come to their end, one of
them does not wait. -/
theorem waits_end {x : E.State} {c : Pool (mainSystem E)} (hn : 0 < n)
    (hc : Pool.ReachIf servingRuns (Pool.idle (Process.init E x n)) c) :
    (∀ t, Blocked c t → ∃ u, WaitsForMutex c t u ∨ WaitsForSlot c t u) ∧
    (∀ t u, WaitsForMutex c t u → Ready c u) ∧
    (∀ t u, WaitsForSlot c t u → c.prog u ≠ .ret () ∧ ∀ v, ¬ WaitsForSlot c u v) ∧
    ((∃ t, c.prog t ≠ .ret ()) → ∃ u, c.prog u ≠ .ret () ∧ ¬ Blocked c u) := by
  obtain ⟨_, h, hl, _⟩ := reached hc
  have hmutex : ∀ t u, WaitsForMutex c t u → c.prog u ≠ .ret () ∧ ¬ Blocked c u := by
    intro t u hw
    have hready := ready_of_waitsForMutex hc hw
    exact ⟨hready.runs, hready.not_blocked hl.before⟩
  refine ⟨fun t => exists_waitsFor hn hc, fun t u => ready_of_waitsForMutex hc,
    fun t u => runs_of_waitsForSlot hc, ?_⟩
  rintro ⟨t, ht⟩
  by_cases hblocked : Blocked c t
  · obtain ⟨u, hu | hu⟩ := exists_waitsFor hn hc hblocked
    · exact ⟨u, hmutex t u hu⟩
    -- a client with a slot, which may in turn wait for a mutex
    obtain ⟨hruns, hslot⟩ := runs_of_waitsForSlot hc hu
    by_cases hblocked' : Blocked c u
    · obtain ⟨v, hv | hv⟩ := exists_waitsFor hn hc hblocked'
      · exact ⟨v, hmutex u v hv⟩
      · exact absurd hv (hslot v)
    · exact ⟨u, hruns, hblocked'⟩
  · exact ⟨t, ht, hblocked⟩

namespace Waiting

/-- The smooth course of events before the first signal, in which no packet is sent to a closed
connection from inside the trader module. -/
def servingCourse : Pool.Course (mainSystem (.fixed 1 1)) :=
  smoothProcess (E := .fixed 1 1) () () (fun t o d =>
    match o with
    | .inl (.write fd _) => d.server.hist.frames t = [] || (d.server.conns fd).isSome
    | _ => true) fun _ q _ =>
    match q with
    | .server _ => true
    | _ => false

theorem servingCourse_within : servingCourse.Within servingRuns := by
  apply smoothProcess_within
  · intro c t o k hp hguard
    refine ⟨fun fd bs k' hp' hframes => ?_, fun k' a junk hp' hjunk => ?_⟩
    · obtain ⟨rfl, _⟩ := Prog.op.inj (hp.symm.trans hp')
      refine ⟨?_, by simp [smoothChoice, Choice.smooth]⟩
      simpa [hframes, Option.isSome_iff_ne_none] using hguard
    · obtain ⟨rfl, _⟩ := Prog.op.inj (hp.symm.trans hp')
      obtain ⟨_, rfl⟩ := Choice.trader.inj (Sum.inl.inj hjunk)
      rfl
  · intro c t p k hp
    refine ⟨fun fd bs k' hp' => ?_, fun k' a junk hp' => ?_⟩ <;> cases hp.symm.trans hp'
  · intro c t q hq
    cases q with
    | server q => exact ⟨q, rfl⟩
    | call c => cases hq
    | signal v => cases hq

/-- A client has logged in, thread 1 sends it a packet, and thread 2 changes its balance. -/
def sendAndChange : List (Pool.Stage (mainSystem (.fixed 1 1))) :=
  [.start 0 (.server (.accept 3 (packet .login [97]) false)), .drive 0 500,
    .start 1 (.server (.client (.sendNack 0))), .drive 1 6,
    .start 2 (.server (.client (.account 0 (.increase .balance 1)))), .drive 2 6]

/-- The action takes the mutex of trader `a`. -/
def locks (a : Nat) : process.Op → Bool
  | .inl (.lock b) => b == a
  | _ => false

/-- Thread 2 waits for thread 1, which is sending the packet. -/
theorem waits_end_send : ∃ c : Pool (mainSystem (.fixed 1 1)), WaitsForMutex c 2 1 ∧ Ready c 1 := by
  obtain ⟨c, hc, ht⟩ := Pool.exists_reach servingCourse_within sendAndChange
    (Pool.idle (Process.init (.fixed 1 1) () 2)) (fun c => (c.prog 2).atOp (locks 0) &&
      (c.state.server.traders 0).any fun tr => (tr.mutex.lock 2).isNone && tr.mutex.owner == some 1)
    (by decide +kernel)
  simp only [Bool.and_eq_true] at ht
  obtain ⟨o, k, hk, ho⟩ := Prog.exists_of_atOp ht.1
  obtain ⟨tr, htr, hlock⟩ := (Option.any_eq_true ..).mp ht.2
  simp only [Bool.and_eq_true, Option.isNone_iff_eq_none, beq_iff_eq] at hlock
  have hwaits : WaitsForMutex c 2 1 := by
    cases o with
    | inr o => cases ho
    | inl o =>
      cases o <;> simp only [locks, beq_iff_eq, Bool.false_eq_true] at ho
      subst ho
      exact ⟨_, k, hk, ⟨tr, htr, hlock.1⟩, tr, htr, hlock.2⟩
  exact ⟨c, hwaits, (waits_end (by decide) hc).2.1 2 1 hwaits⟩

end Waiting

end BourseServer
