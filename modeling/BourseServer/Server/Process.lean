import BourseServer.Concurrency.Extension
import BourseServer.Server.Service

/-!
# The process

What `main.c` adds to the service threads: connections are accepted, a SIGHUP is delivered to
one of the threads, and its handler runs `terminate` on that thread, whose interrupted frame
stays where it is. `free(connfdp)` in the handler is left out, since no other part of the model
looks at that cell.

Other threads may call the client registry too. `Process` records which call of the registry a
thread is in, who uses a descriptor, and how far the shutdown has come; no program reads this.
-/
namespace BourseServer

open Concurrency

/-- The two blocks of a `CLIENT_REGISTRY`. -/
inductive RegistryBlock where
  | fds | registry
  deriving DecidableEq, Repr

/-- A call of a function of the client registry. -/
inductive RegistryCall where
  | register (fd : Int)
  | unregister (fd : Int)
  | waitForEmpty
  | shutdownAll
  deriving DecidableEq, Repr

/-- The actions of `main.c`; a call of the registry begins and ends. -/
inductive MainOp where
  | began (c : RegistryCall)
  | ended (c : RegistryCall) (v : Value)
  | free (b : RegistryBlock)
  | exchangeFini
  | exit
  deriving DecidableEq, Repr

@[reducible] def process : Interface := bourse.extend MainOp fun _ => Unit

/-- A piece of the process's code. -/
abbrev MainCode := Prog process

def began (c : RegistryCall) : MainCode Unit := .act (I := process) (.inr (.began c))
def ended (c : RegistryCall) (v : Value) : MainCode Unit :=
  .act (I := process) (.inr (.ended c v))
def freeBlock (b : RegistryBlock) : MainCode Unit := .act (I := process) (.inr (.free b))
def exchangeFini : MainCode Unit := .act (I := process) (.inr .exchangeFini)
def exit : MainCode Unit := .act (I := process) (.inr .exit)

def RegistryCall.code : RegistryCall → Code Value
  | .register fd => do
    let r ← cregRegister fd
    pure (.int r)
  | .unregister fd => do
    let r ← cregUnregister fd
    pure (.int r)
  | .waitForEmpty => do
    cregWaitForEmpty
    pure .void
  | .shutdownAll => do
    cregShutdownAll
    pure .void

def registryCall (c : RegistryCall) : MainCode Unit := do
  began c
  let v ← c.code.lift
  ended c v

def cregFini : MainCode Unit := do
  freeBlock .fds
  freeBlock .registry

def terminate : MainCode Unit := do
  registryCall .shutdownAll
  registryCall .waitForEmpty
  cregFini
  exchangeFini
  traderFini.lift
  exit

def sigupHandler : MainCode Unit := terminate

/-! ## State -/

/-- The thread that a signal interrupts: the one that accepts connections, a thread with a
program of its own, or one that has nothing to do with the clients. -/
inductive Victim where
  | main
  | service (t : Nat)
  | other
  deriving DecidableEq, Repr

/-- The server; the thread that uses a descriptor; the registry call a thread is in; the service
threads that have not yet begun to register; the thread that has taken the registry's mutex; how
many calls of `creg_wait_for_empty` have taken `count_mutex`; whether `creg_shutdown_all` has
given the mutex back; what is freed; whether the process has ended; and the thread that has been
interrupted, with the thread that stands for its handler. -/
structure Process (E : Exchange) where
  server : State E
  users : Int → Option Nat
  calls : Nat → Option RegistryCall
  expected : Nat → Bool
  holder : Option Nat
  waits : Nat
  swept : Bool
  freed : RegistryBlock → Bool
  exited : Bool
  signal : Option (Victim × Nat)

namespace Op

/-- Accesses to the registry. -/
def ofRegistry : Op → Bool
  | .semWait _ | .semPost _ | .regSize | .regFd _ | .setRegFd .. | .regCount => true
  | .setRegCount _ => true
  | _ => false

/-- The blocks of the registry that an action accesses. -/
def accesses : Op → RegistryBlock → Bool
  | .regFd _, .fds | .setRegFd .., .fds => true
  | o, .registry => o.ofRegistry
  | _, .fds => false

end Op

namespace Process

variable {E : Exchange}

/-- The process before the first connection. -/
def init (E : Exchange) (x : E.State) (n : Nat) : Process E where
  server := .init E x n
  users _ := none
  calls _ := none
  expected _ := false
  holder := none
  waits := 0
  swept := false
  freed _ := false
  exited := false
  signal := none

/-- The process has ended, or a signal has interrupted thread `t`. -/
def stopped (d : Process E) (t : Nat) : Bool :=
  d.exited || d.signal.any fun p => p.1 = .service t

/-- What is recorded of an action of thread `t` that leads to `s`. -/
def record (d : Process E) (t : Nat) (o : Op) (s : State E) : Process E :=
  match o with
  | .semWait .slots => { d with server := s, expected := Function.update d.expected t false }
  | .semWait .mutex => { d with server := s, holder := some t }
  | .semWait .countMutex =>
    { d with server := s, waits := d.waits + if d.calls t = some .waitForEmpty then 1 else 0 }
  | .semPost .mutex =>
    { d with server := s, holder := none, swept := d.swept || d.calls t = some .shutdownAll }
  | .close fd => { d with server := s, users := Function.update d.users fd none }
  | _ => { d with server := s }

/-- An action of the server; the second kind of choice is what the exchange ends in. -/
def execServer (t : Nat) (o : Op) (e : Choice E ⊕ E.State) (d : Process E) :
    Outcome o.Reply (Process E) :=
  match e with
  | .inr _ => .wait
  | .inl e =>
    if o.accesses .fds && d.freed .fds || o.accesses .registry && d.freed .registry then .fault
    else
      match BourseServer.exec t o e d.server with
      | .done r s => .done r (d.record t o s)
      | .wait => .wait
      | .fault => .fault

def execMain (t : Nat) (o : MainOp) (e : Choice E ⊕ E.State) (d : Process E) :
    Outcome Unit (Process E) :=
  match o with
  | .began c => .done () { d with calls := Function.update d.calls t (some c) }
  | .ended c _ =>
    .done () { d with
      calls := Function.update d.calls t none
      users :=
        match c with
        | .unregister fd => Function.update d.users fd none
        | _ => d.users }
  | .free b =>
    if d.freed b then .fault
    else .done () { d with freed := Function.update d.freed b true }
  | .exchangeFini =>
    match e with
    | .inl _ => .wait
    | .inr x => .done () { d with server := { d.server with exchange := x } }
  | .exit => .done () { d with exited := true }

def exec (t : Nat) (o : process.Op) (e : Choice E ⊕ E.State) (d : Process E) :
    Outcome (process.Reply o) (Process E) :=
  if d.stopped t then .wait
  else
    match o with
    | .inl o => d.execServer t o e
    | .inr o => d.execMain t o e

/-- What starts a program: the environment of the server, another thread's call of the registry,
or a signal. -/
inductive Request where
  | server (q : BourseServer.Request)
  | call (c : RegistryCall)
  | signal (v : Victim)
  deriving DecidableEq, Repr

/-- The program and the state of thread `t` after a start that changes the server's state. -/
def launchServer (t : Nat) (q : BourseServer.Request) (d : Process E) :
    Option (MainCode Unit × Process E) :=
  (BourseServer.launch t q d.server).map fun p => (p.1.lift, { d with server := p.2 })

/-- `accept` returns a descriptor that nobody uses, unless its thread is interrupted. Any thread may
call the registry, with any descriptor, which it uses if it registers it. There is one signal. -/
def launch (t : Nat) : Request → Process E → Option (MainCode Unit × Process E)
  | .server (.accept fd input ended), d =>
    if d.users fd = none ∧ d.signal.all fun p => p.1 ≠ .main then
      launchServer t (.accept fd input ended) { d with
        users := Function.update d.users fd (some t)
        expected := Function.update d.expected t true }
    else none
  | .server q, d => launchServer t q d
  | .call (.register fd), d =>
    some (registryCall (.register fd), { d with users := Function.update d.users fd (some t) })
  | .call c, d => some (registryCall c, d)
  | .signal v, d =>
    if d.signal = none ∧ v ≠ .service t then
      some (sigupHandler, { d with signal := some (v, t) })
    else none

end Process

/-- The machine that runs the process. -/
@[reducible] def mainMachine (E : Exchange) : Machine process where
  State := Process E
  Choice := Choice E ⊕ E.State
  exec := Process.exec
  body p := (body p).lift

/-- The process: service threads, other users of the registry, and the handler. -/
@[reducible] def mainSystem (E : Exchange) : System process where
  toMachine := mainMachine E
  Request := Process.Request
  launch := Process.launch

/-! ## A smooth course of events -/

instance {E : Exchange} : Inhabited (mainSystem E).Choice := ⟨.inl default⟩

/-- The smooth choice; the exchange ends in `y`. -/
def smoothChoice {E : Exchange} (x : E.Choice) (y : E.State) (o : process.Op) (d : Process E) :
    Choice E ⊕ E.State :=
  match o with
  | .inl o => .inl (.smooth x o d.server)
  | .inr _ => .inr y

/-- The smooth course of events, as long as the steps satisfy `guard`, and the starts `start`. -/
def smoothProcess {E : Exchange} (x : E.Choice) (y : E.State)
    (guard : Nat → process.Op → Process E → Bool)
    (start : Nat → Process.Request → Process E → Bool) : Pool.Course (mainSystem E) where
  pick t o d := if guard t o d then some (smoothChoice x y o d) else none
  start := start

theorem smoothProcess_within {E : Exchange} {x : E.Choice} {y : E.State}
    {guard : Nat → process.Op → Process E → Bool}
    {start : Nat → Process.Request → Process E → Bool}
    {ok : Pool (mainSystem E) → Move (mainSystem E) → Prop}
    (hop : ∀ c t o k, c.prog t = .op o k → guard t o c.state = true →
      ok c (.run t (smoothChoice x y o c.state)))
    (hcall : ∀ c t p k, c.prog t = .call p k → ok c (.run t default))
    (hstart : ∀ c t q, start t q c.state = true → ok c (.start t q)) :
    (smoothProcess x y guard start).Within ok where
  op {c t o k e} hp hpick := by
    simp only [smoothProcess] at hpick
    split at hpick
    · rename_i hguard
      cases hpick
      exact hop c t o k hp hguard
    · cases hpick
  call hp := hcall _ _ _ _ hp
  start hq := hstart _ _ _ hq

end BourseServer
