import BourseServer.Server.Process

/-!
# The program from `main` on

What `main.c` does around the process of service threads and handler: it installs the handler,
checks its arguments, initialises the modules, and accepts connections. The descriptor of a
connection is passed to its service thread in a cell that `main` allocates and the thread frees;
the global variable `connfdp` points to the cell allocated last, and the handler frees it too.

Each turn of the loop of `main` is a program of its own, started when the turn before it has come
to its end. A signal is delivered to one of the threads, which is suspended from then on, since
its handler does not return. `Startup` records which cells have been passed to a thread, which
ones a handler has found and which signals have been delivered; no program reads this.
-/
namespace BourseServer

open Concurrency

inductive StartOp where
  | sigaction
  | terminate (status : Int)
  | cregInit
  | exchangeInit
  | traderInit
  | openListenfd (port : String)
  | mallocCell
  | connfdp
  | setConnfdp (p : Option Nat)
  | accept
  | storeCell (p : Option Nat) (fd : Int)
  | createThread (arg : Option Nat)
  | loadCell (p : Option Nat)
  | freeCell (p : Option Nat)
  deriving DecidableEq, Repr

@[reducible] def StartOp.Reply : StartOp → Type
  | .mallocCell | .connfdp => Option Nat
  | .accept | .loadCell _ => Int
  | .sigaction | .terminate _ | .cregInit | .exchangeInit | .traderInit | .openListenfd _ => Unit
  | .setConnfdp _ | .storeCell _ _ | .createThread _ | .freeCell _ => Unit

/-- The interface of the program. -/
@[reducible] def bourseProgram : Interface := process.extend StartOp StartOp.Reply

/-- A piece of the program's code. -/
abbrev StartCode := Prog bourseProgram

namespace Startup

def act (o : StartOp) : StartCode o.Reply := .act (I := bourseProgram) (.inr o)

/-- `terminate` of `main.c`; the first action marks its entry. -/
def terminate (status : Int) : StartCode Unit := do
  act (.terminate status)
  BourseServer.terminate.lift

def sigupHandler : StartCode Unit := do
  let p ← act .connfdp
  act (.freeCell p)
  terminate 0

/-- A check of the arguments, with `EXIT_FAILURE`. -/
def exitIf (bad : Prop) [Decidable bad] : StartCode Unit :=
  if bad then terminate 1 else pure ()

/-- `main` up to its loop; `argc` is the length of `argv`. -/
def main (argv : List String) : StartCode Unit := do
  act .sigaction
  exitIf (argv.length ≠ 3)
  exitIf (argv[1]? ≠ some "-p")
  act .cregInit
  act .exchangeInit
  act .traderInit
  act (.openListenfd (argv.getD 2 ""))

/-- The body of the loop of `main`. -/
def acceptTurn : StartCode Unit := do
  let cell ← act .mallocCell
  act (.setConnfdp cell)
  let fd ← act .accept
  act (.storeCell (← act .connfdp) fd)
  act (.createThread (← act .connfdp))

/-- `brs_client_service`, with what it does to its argument. -/
def clientThread (arg : Option Nat) : StartCode Unit := do
  let connfd ← act (.loadCell arg)
  act (.freeCell arg)
  (brsClientService connfd).lift.lift

end Startup

/-! ## State -/

/-- The process; whether the globals `client_registry` and `exchange` are set; the cells that are
allocated, with their content; the threads that are created and have not begun to run; the cells
that have been passed to a thread and those that a handler has found in `connfdp`; whether the
handler is installed and the listening socket is open; the thread that runs `main`; and the
signals, as the thread that is suspended and the thread that stands for its handler. -/
structure Startup (E : Exchange) where
  proc : Process E
  clientRegistry : Bool
  exchange : Bool
  connfdp : Option Nat
  cells : Nat → Option Int
  created : Nat → Option (Option Nat)
  handed : Nat → Bool
  taken : Nat → Bool
  installed : Bool
  listening : Bool
  mainThread : Option Nat
  signals : List (Nat × Nat)

/-- What the outside world decides: a step of the process, the cell that `malloc` yields with its
old content, the connection that `accept` returns, the thread that is created, or that a call
fails: one of the system, or `exchange_init`, which returns NULL then. -/
inductive Startup.Choice (E : Exchange) where
  | process (e : BourseServer.Choice E ⊕ E.State)
  | cell (p : Nat) (junk : Int)
  | connection (fd : Int) (input : List UInt8) (ended : Bool)
  | thread (u : Nat)
  | tick
  | failed

namespace Startup

variable {E : Exchange}

/-- The program before `main`. -/
def init (E : Exchange) (x : E.State) (n : Nat) : Startup E where
  proc := .init E x n
  clientRegistry := false
  exchange := false
  connfdp := none
  cells _ := none
  created _ := none
  handed _ := false
  taken _ := false
  installed := false
  listening := false
  mainThread := none
  signals := []

/-- The process has ended, or a signal has suspended thread `t`. -/
def stopped (d : Startup E) (t : Nat) : Bool :=
  d.proc.exited || d.signals.any fun p => p.1 = t

/-- The program ends, as it does when a wrapper of `csapp.c` finds an error. -/
def exit (d : Startup E) : Startup E :=
  { d with proc := { d.proc with exited := true } }

/-- An action that goes through one of the global pointers. -/
def usesRegistry : process.Op → Bool
  | .inl o => o.ofRegistry
  | .inr (.free _) => true
  | .inr _ => false

def usesExchange : process.Op → Bool
  | .inl (.exchange _) => true
  | .inr .exchangeFini => true
  | _ => false

/-- An action of the process faults if it goes through a pointer that is still NULL. -/
def execProcess (t : Nat) (o : process.Op) (e : Choice E) (d : Startup E) :
    Outcome (process.Reply o) (Startup E) :=
  if usesRegistry o && !d.clientRegistry || usesExchange o && !d.exchange then .fault
  else
    match e with
    | .process e => (d.proc.exec t o e).map fun s => { d with proc := s }
    | _ => .wait

/-- Thread `t` has learned which descriptor it serves. -/
def serves (t : Nat) (fd : Int) (d : Process E) : Process E :=
  { d with
    server := { d.server with
      conns := fun f => (d.server.conns f).map fun c =>
        if f = fd then { c with owner := t } else c }
    users := Function.update d.users fd (some t)
    expected := Function.update d.expected t true }

def execStart (t : Nat) : (o : StartOp) → Choice E → Startup E → Outcome o.Reply (Startup E)
  | .sigaction, _, d => .done () { d with installed := true }
  | .terminate _, _, d => .done () d
  | .cregInit, _, d => .done () { d with clientRegistry := true }
  | .exchangeInit, e, d =>
    match e with
    | .failed => .done () d
    | _ => .done () { d with exchange := true }
  | .traderInit, _, d => .done () d
  | .openListenfd _, e, d =>
    match e with
    | .failed => .done () d.exit
    | _ => .done () { d with listening := true }
  | .mallocCell, e, d =>
    match e with
    | .cell p junk =>
      match d.cells p with
      | some _ => .wait
      | none => .done (some p) { d with
          cells := Function.update d.cells p (some junk)
          handed := Function.update d.handed p false
          taken := Function.update d.taken p false }
    | .failed => .done none d.exit
    | _ => .wait
  | .connfdp, _, d =>
    .done d.connfdp { d with
      taken := fun q => d.taken q || decide (d.mainThread ≠ some t ∧ d.connfdp = some q) }
  | .setConnfdp p, _, d => .done () { d with connfdp := p }
  | .accept, e, d =>
    match e with
    | .connection fd input ended =>
      match d.proc.server.conns fd with
      | some _ => .wait
      | none =>
        if 0 ≤ fd then .done fd { d with proc := { d.proc with
          server := d.proc.server.setConn fd (some ⟨t, input, ended, false, []⟩) } }
        else .wait
    | .failed => .done (-1) d.exit
    | _ => .wait
  | .storeCell p fd, _, d =>
    match p.bind d.cells with
    | none => .fault
    | some _ => .done () { d with cells := fun q => if p = some q then some fd else d.cells q }
  | .createThread arg, e, d =>
    match e with
    | .thread u =>
      if d.mainThread ≠ some u ∧ d.created u = none then
        .done () { d with
          created := Function.update d.created u (some arg)
          handed := fun q => d.handed q || decide (arg = some q) }
      else .wait
    | .failed => .done () d.exit
    | _ => .wait
  | .loadCell p, _, d =>
    match p.bind d.cells with
    | none => .fault
    | some fd => .done fd { d with proc := serves t fd d.proc }
  | .freeCell p, _, d =>
    match p with
    | none => .done () d
    | some q =>
      match d.cells q with
      | none => .fault
      | some _ => .done () { d with cells := Function.update d.cells q none }

def exec (d : Startup E) (t : Nat) (o : bourseProgram.Op) (e : Choice E) :
    Outcome (bourseProgram.Reply o) (Startup E) :=
  if d.stopped t then .wait
  else
    match o with
    | .inl o => d.execProcess t o e
    | .inr o => execStart t o e d

/-- What starts a program: the operating system runs `main`, the next turn of its loop or a
thread that was created; other threads and the peers of connections act; a signal arrives. -/
inductive Request where
  | run (argv : List String)
  | turn
  | thread
  | server (q : BourseServer.Request)
  | signal (v : Nat)
  deriving DecidableEq, Repr

/-- The thread that stands for a handler is not used again. -/
def launch (t : Nat) (q : Request) (d : Startup E) : Option (StartCode Unit × Startup E) :=
  if d.signals.any fun p => p.2 = t then none
  else
    match q with
    | .run argv =>
      if d.mainThread = none then some (main argv, { d with mainThread := some t }) else none
    | .turn => if d.mainThread = some t ∧ d.listening then some (acceptTurn, d) else none
    | .thread =>
      match d.created t with
      | none => none
      | some arg =>
        some (clientThread arg, { d with created := Function.update d.created t none })
    | .server (.accept ..) => none
    | .server q =>
      if d.mainThread = some t then none
      else (d.proc.launchServer t q).map fun p => (p.1.lift, { d with proc := p.2 })
    | .signal v =>
      if d.installed ∧ d.proc.exited = false ∧ v ≠ t ∧ d.mainThread ≠ some t ∧
          d.signals.all fun p => p.1 ≠ v ∧ p.2 ≠ v then
        some (sigupHandler, { d with signals := (v, t) :: d.signals })
      else none

end Startup

/-! ## What a step changes -/

namespace Startup

variable {E : Exchange} {t : Nat} {e : Choice E} {d d' : Startup E}

theorem exec_start {o : StartOp} {r : o.Reply} (h : d.exec t (.inr o) e = .done r d') :
    d.stopped t = false ∧ execStart t o e d = .done r d' := by
  unfold exec at h
  split at h
  · cases h
  · rename_i hrun
    exact ⟨by simpa using hrun, h⟩

/-- An action of the process changes nothing else. -/
theorem exec_process {o : process.Op} {r : process.Reply o}
    (h : d.exec t (.inl o) e = .done r d') :
    d.stopped t = false ∧ ∃ s, d' = { d with proc := s } := by
  unfold exec at h
  split at h
  · cases h
  · rename_i hrun
    simp only [execProcess] at h
    split at h
    · cases h
    · split at h
      · obtain ⟨s, _, hs⟩ := Outcome.map_eq_done.mp h
        exact ⟨by simpa using hrun, s, hs.symm⟩
      · cases h

theorem running_of_stopped (h : d.stopped t = false) : d.proc.exited = false := by
  simp only [stopped, Bool.or_eq_false_iff] at h
  exact h.1

theorem execStart_frame {o : StartOp} {r : o.Reply} (h : execStart t o e d = .done r d') :
    d'.mainThread = d.mainThread ∧ d'.signals = d.signals := by
  cases o
  all_goals
    simp only [execStart] at h
    repeat' split at h
    all_goals
      cases h
      try exact ⟨rfl, rfl⟩

/-- Only the start of a program says who runs `main` and who was interrupted. -/
theorem exec_threads {o : bourseProgram.Op} {r : bourseProgram.Reply o}
    (h : d.exec t o e = .done r d') :
    d'.mainThread = d.mainThread ∧ d'.signals = d.signals := by
  cases o with
  | inl o =>
    obtain ⟨_, s, rfl⟩ := exec_process h
    exact ⟨rfl, rfl⟩
  | inr o => exact execStart_frame (exec_start h).2

theorem unused_of_any (h : ¬ (d.signals.any fun p => p.2 = t) = true) :
    ∀ x ∈ d.signals, x.2 ≠ t := by
  intro x hx ht
  exact h (List.any_eq_true.mpr ⟨x, hx, by simpa using ht⟩)

theorem launch_run {argv : List String} {p : StartCode Unit}
    (h : launch t (.run argv) d = some (p, d')) :
    d.mainThread = none ∧ p = main argv ∧ d' = { d with mainThread := some t } ∧
      ∀ x ∈ d.signals, x.2 ≠ t := by
  simp only [launch] at h
  split_ifs at h with hhandler hmain
  cases h
  exact ⟨hmain, rfl, rfl, unused_of_any hhandler⟩

theorem launch_turn {p : StartCode Unit} (h : launch t .turn d = some (p, d')) :
    d.mainThread = some t ∧ d.listening = true ∧ p = acceptTurn ∧ d' = d := by
  simp only [launch] at h
  split_ifs at h with _ hturn
  cases h
  exact ⟨hturn.1, hturn.2, rfl, rfl⟩

theorem launch_thread {p : StartCode Unit} (h : launch t .thread d = some (p, d')) :
    ∃ arg, d.created t = some arg ∧ p = clientThread arg ∧
      d' = { d with created := Function.update d.created t none } ∧ ∀ x ∈ d.signals, x.2 ≠ t := by
  simp only [launch] at h
  split_ifs at h with hhandler
  split at h
  · cases h
  · rename_i arg harg
    cases h
    exact ⟨arg, harg, rfl, rfl, unused_of_any hhandler⟩

/-- The programs of the process run beside `main`, its threads and the handler. -/
theorem launch_server {q : BourseServer.Request} {p : StartCode Unit}
    (h : launch t (.server q) d = some (p, d')) :
    ∃ (p' : MainCode Unit) (s : State E), p = p'.lift ∧
      d' = { d with proc := { d.proc with server := s } } ∧ d.mainThread ≠ some t := by
  have hmap : ∀ q, d.mainThread ≠ some t →
      ((d.proc.launchServer t q).map fun p => (p.1.lift, { d with proc := p.2 })) = some (p, d') →
      ∃ (p' : MainCode Unit) (s : State E), p = p'.lift ∧
        d' = { d with proc := { d.proc with server := s } } ∧ d.mainThread ≠ some t := by
    intro q ht h
    obtain ⟨x, hx, hp⟩ := Option.map_eq_some_iff.mp h
    obtain ⟨y, _, rfl⟩ := Option.map_eq_some_iff.mp hx
    cases hp
    exact ⟨y.1.lift, y.2, rfl, rfl, ht⟩
  cases q with
  | accept fd input ended =>
    simp only [launch] at h
    split_ifs at h
  | deliver fd bytes ended =>
    simp only [launch] at h
    split_ifs at h with _ ht
    exact hmap _ ht h
  | client c =>
    simp only [launch] at h
    split_ifs at h with _ ht
    exact hmap _ ht h

theorem launch_signal {v : Nat} {p : StartCode Unit} (h : launch t (.signal v) d = some (p, d')) :
    d.installed = true ∧ d.proc.exited = false ∧ d.mainThread ≠ some t ∧ p = sigupHandler ∧
      d' = { d with signals := (v, t) :: d.signals } := by
  simp only [launch] at h
  split_ifs at h with _ hok
  cases h
  exact ⟨hok.1, hok.2.1, hok.2.2.2.1, rfl, rfl⟩

/-- The start of a program changes neither the globals nor the cells. -/
theorem launch_frame {q : Request} {p : StartCode Unit} (h : launch t q d = some (p, d')) :
    d'.clientRegistry = d.clientRegistry ∧ d'.exchange = d.exchange ∧
      d'.listening = d.listening ∧ d'.connfdp = d.connfdp := by
  cases q with
  | run argv =>
    obtain ⟨_, _, rfl, _⟩ := launch_run h
    exact ⟨rfl, rfl, rfl, rfl⟩
  | turn =>
    obtain ⟨_, _, _, rfl⟩ := launch_turn h
    exact ⟨rfl, rfl, rfl, rfl⟩
  | thread =>
    obtain ⟨_, _, _, rfl, _⟩ := launch_thread h
    exact ⟨rfl, rfl, rfl, rfl⟩
  | server q =>
    obtain ⟨_, _, _, rfl, _⟩ := launch_server h
    exact ⟨rfl, rfl, rfl, rfl⟩
  | signal v =>
    obtain ⟨_, _, _, _, rfl⟩ := launch_signal h
    exact ⟨rfl, rfl, rfl, rfl⟩

end Startup

@[reducible] def startMachine (E : Exchange) : Machine bourseProgram where
  State := Startup E
  Choice := Startup.Choice E
  exec t o e d := d.exec t o e
  body p := (body p).lift.lift

/-- The program: `main`, the threads it creates, and the handler. -/
@[reducible] def startSystem (E : Exchange) : System bourseProgram where
  toMachine := startMachine E
  Request := Startup.Request
  launch := Startup.launch

end BourseServer
