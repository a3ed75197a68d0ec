import BourseServer.Machine.State

/-!
# Atomic actions of the server

Each access of the source to memory that threads share, each system call and each operation on
a mutex or a semaphore is one atomic action. Reading and writing back an `int`, as `count++`
does, are two actions. An action on a freed or missing object is a fault.

The interface is independent of the exchange, so programs are too. The exchange only appears in
the state and in the choices.
-/
namespace BourseServer

open Concurrency Bytes

inductive Op where
  /- the call stack of the trader module -/
  | enter (c : Call)
  | leave (v : Value)
  /- trader.c -/
  | lock (a : Nat)
  | unlock (a : Nat)
  | mutexInit (a : Nat)
  | mallocTrader
  | freeTrader (a : Nat)
  | load (f : Field) (a : Nat)
  | store (f : Field) (a : Nat) (v : f.Ty)
  | slot (i : Nat)
  | setSlot (i : Nat) (v : Option Nat)
  | count
  | setCount (n : Nat)
  /- the heap and the stack -/
  | malloc (n : Nat)
  | free (p : Option Nat)
  | uninit (n : Nat)
  | beyond (n : Nat)
  /- system calls -/
  | read (fd : Int) (n : Nat)
  | write (fd : Int) (bs : List UInt8)
  | clock
  | close (fd : Int)
  | shutdown (fd : Int)
  /- client_registry.c -/
  | semWait (x : Sem)
  | semPost (x : Sem)
  | regSize
  | regFd (i : Nat)
  | setRegFd (i : Nat) (fd : Int)
  | regCount
  | setRegCount (n : Int)
  /- the exchange -/
  | exchange (c : ExchangeCall)
  /- dereference of a null pointer -/
  | segfault

/-- The result of `read`: some bytes (none at the end of the stream), `EINTR`, or an error. -/
inductive ReadResult where
  | data (bs : List UInt8)
  | interrupted
  | failed
  deriving DecidableEq, Repr

/-- The result of `write`: the number of bytes taken, `EINTR`, or an error. -/
inductive WriteResult where
  | wrote (k : Nat)
  | interrupted
  | failed
  deriving DecidableEq, Repr

@[reducible] def Op.Reply : Op → Type
  | .enter _ | .leave _ | .lock _ | .unlock _ | .mutexInit _ | .freeTrader _ => Unit
  | .mallocTrader => Nat
  | .load f _ => f.Ty
  | .store _ _ _ | .setSlot _ _ | .setCount _ | .free _ => Unit
  | .slot _ => Option Nat
  | .count => Nat
  | .malloc _ => Nat × List UInt8
  | .uninit _ | .beyond _ => List UInt8
  | .read _ _ => ReadResult
  | .write _ _ => WriteResult
  | .clock => UInt32 × UInt32
  | .close _ | .shutdown _ | .semWait _ | .semPost _ | .setRegFd _ _ | .setRegCount _ => Unit
  | .regSize => Nat
  | .regFd _ => Int
  | .regCount => Int
  | .exchange c => c.Reply
  | .segfault => Empty

/-- The last payload: its block, and the bytes in it. -/
structure Payload where
  block : Nat
  bytes : List UInt8
  deriving DecidableEq, Repr

/-- The variables `payload` and `this_trader` of `brs_client_service`. No payload stands for
the indeterminate value of the pointer before the first assignment. -/
structure Session where
  payload : Option Payload
  thisTrader : Option Nat
  deriving DecidableEq, Repr

/-- The loops without a bound: the two transfer loops of `csapp.c` and the service loop. -/
inductive Proc where
  | readn (fd : Int) (n nleft : Nat) (got : List UInt8)
  | writen (fd : Int) (n : Nat) (rest : List UInt8)
  | service (connfd : Int) (l : Session)
  deriving DecidableEq, Repr

@[reducible] def Proc.Result : Proc → Type
  | .readn .. => Int × List UInt8
  | .writen .. => Int
  | .service .. => Unit

/-- The interface of the server. -/
@[reducible] def bourse : Interface where
  Op := Op
  Reply := Op.Reply
  Proc := Proc
  Result := Proc.Result

/-- A piece of the server's code. -/
abbrev Code := Prog bourse

/-- What the outside world decides about a step: nothing, the block an allocation yields with
its old content, the content of memory that was not written, how much a transfer moves or why
it moves nothing, the time, or the exchange's own choice. -/
inductive Choice (E : Exchange) where
  | tick
  | block (p : Nat) (junk : List UInt8)
  | trader (a : Nat) (junk : Trader)
  | memory (junk : List UInt8)
  | transfer (k : Nat)
  | eintr
  | ioError
  | time (sec nsec : UInt32)
  | exchange (e : E.Choice)

section exec

variable {E : Exchange}

/-- Between 1 and `n` bytes, as close to `k` as possible. -/
def clamp (k n : Nat) : Nat := min (max k 1) n

/-- `read`: the end of the stream is only reported once its bytes have all been read. -/
def execRead (fd : Int) (n : Nat) (e : Choice E) (s : State E) : Outcome ReadResult (State E) :=
  match s.conns fd with
  | none => .done .failed s
  | some c =>
    match e with
    | .transfer k =>
      if c.input = [] then
        if c.ended || c.shut then .done (.data []) s else .wait
      else
        let m := clamp k (min n c.input.length)
        .done (.data (c.input.take m)) (s.setConn fd (some { c with input := c.input.drop m }))
    | .eintr => .done .interrupted s
    | .ioError => .done .failed s
    | _ => .wait

/-- `write`: at least one byte of a non-empty buffer is taken. A write that raises SIGPIPE is not a
step: the server neither handles nor ignores the signal, and no step follows it. -/
def execWrite (fd : Int) (bs : List UInt8) (e : Choice E) (s : State E) :
    Outcome WriteResult (State E) :=
  match s.conns fd with
  | none => .done .failed s
  | some c =>
    match e with
    | .transfer k =>
      let m := clamp k bs.length
      .done (.wrote m) (s.setConn fd (some { c with output := c.output ++ bs.take m }))
    | .eintr => .done .interrupted s
    | .ioError => .done .failed s
    | _ => .wait

/-- `malloc` of a `TRADER`: a record that is not in use, with whatever its memory holds. -/
def execMallocTrader (e : Choice E) (s : State E) : Outcome Nat (State E) :=
  match e with
  | .trader a junk =>
    match s.traders a with
    | some _ => .wait
    | none => .done a
        (s.setTrader a (some { junk with mutex := ⟨false, none, junk.mutex.depth⟩ }))
  | _ => .wait

/-- `malloc` of `n` bytes. -/
def execMalloc (n : Nat) (e : Choice E) (s : State E) :
    Outcome (Nat × List UInt8) (State E) :=
  match e with
  | .block p junk =>
    if p ∉ s.blocks ∧ junk.length = n then
      .done (p, junk) { s with blocks := p :: s.blocks }
    else .wait
  | _ => .wait

/-- An access to the record of trader `a`. -/
def execTrader {ρ : Type} (a : Nat) (s : State E) (f : Trader → Outcome ρ (State E)) :
    Outcome ρ (State E) :=
  match s.traders a with
  | none => .fault
  | some tr => f tr

def exec (t : Nat) : (o : Op) → Choice E → State E → Outcome o.Reply (State E)
  | .enter c, _, s => .done () { s with hist := s.hist.enter t c }
  | .leave v, _, s => .done () { s with hist := s.hist.leave t v }
  | .lock a, _, s => execTrader a s fun tr =>
    match tr.mutex.lock t with
    | none => .wait
    | some m => .done ()
        { s.setTrader a (some { tr with mutex := m }) with hist := s.hist.acquire t a }
  | .unlock a, _, s => execTrader a s fun tr =>
    .done () (s.setTrader a (some { tr with mutex := tr.mutex.unlock t }))
  | .mutexInit a, _, s => execTrader a s fun tr =>
    .done () (s.setTrader a (some { tr with mutex := .fresh }))
  | .mallocTrader, e, s => execMallocTrader e s
  | .freeTrader a, _, s => execTrader a s fun _ => .done () (s.setTrader a none)
  | .load f a, _, s => execTrader a s fun tr => .done (tr.get f) s
  | .store f a v, _, s => execTrader a s fun tr =>
    .done () { s.setTrader a (some (tr.set f v)) with hist := s.hist.store t a f v }
  | .slot i, _, s => .done (s.allTraders i) s
  | .setSlot i v, _, s => .done () { s with allTraders := Function.update s.allTraders i v }
  | .count, _, s => .done s.count s
  | .setCount n, _, s => .done () { s with count := n }
  | .malloc n, e, s => execMalloc n e s
  | .free p, _, s =>
    match p with
    | none => .fault
    | some p =>
      if p ∈ s.blocks then .done () { s with blocks := s.blocks.erase p }
      else .fault
  | .uninit n, e, s =>
    match e with
    | .memory junk => if junk.length = n then .done junk s else .wait
    | _ => .wait
  | .beyond n, e, s =>
    match e with
    | .memory junk => if junk.length = n then .done junk s else .wait
    | _ => .wait
  | .read fd n, e, s => execRead fd n e s
  | .write fd bs, e, s => execWrite fd bs e s
  | .clock, e, s =>
    match e with
    | .time sec nsec => .done (sec, nsec) s
    | _ => .wait
  | .close fd, _, s =>
    match s.conns fd with
    | none => .fault
    | some _ => .done () (s.setConn fd none)
  | .shutdown fd, _, s =>
    match s.conns fd with
    | none => .done () s
    | some c => .done () (s.setConn fd (some { c with shut := true }))
  | .semWait x, _, s =>
    if s.registry.sem x = 0 then .wait
    else .done () { s with registry := { s.registry with
      sem := Function.update s.registry.sem x (s.registry.sem x - 1) } }
  | .semPost x, _, s =>
    .done () { s with registry := { s.registry with
      sem := Function.update s.registry.sem x (s.registry.sem x + 1) } }
  | .regSize, _, s => .done s.registry.n s
  | .regFd i, _, s => .done (s.registry.fds i) s
  | .setRegFd i fd, _, s =>
    .done () { s with registry := { s.registry with
      fds := Function.update s.registry.fds i fd } }
  | .regCount, _, s => .done s.registry.count s
  | .setRegCount n, _, s => .done () { s with registry := { s.registry with count := n } }
  | .exchange c, e, s =>
    match e with
    | .exchange e =>
      .done (E.act c e s.exchange).1
        { s with
          exchange := (E.act c e s.exchange).2
          hist := s.hist.exchange t c (c.result (E.act c e s.exchange).1) }
    | _ => .wait
  | .segfault, _, _ => .fault

end exec

/-! ## A smooth course of events -/

instance {E : Exchange} : Inhabited (Choice E) := ⟨.tick⟩

/-- The first address below 64 that is not in use. -/
def firstFree (used : Nat → Bool) : Nat := ((List.range 64).find? fun p => !used p).getD 64

/-- Every transfer is complete, memory is zero, time stands still, and the exchange chooses
`x`. -/
def Choice.smooth {E : Exchange} (x : E.Choice) (o : Op) (s : State E) : Choice E :=
  match o with
  | .mallocTrader =>
    .trader (firstFree fun a => (s.traders a).isSome) ⟨0, 0, 0, 0, .fresh, ⟨0, []⟩⟩
  | .malloc n => .block (firstFree s.blocks.contains) (List.replicate n 0)
  | .uninit n => .memory (List.replicate n 0)
  | .beyond n => .memory (List.replicate n 0)
  | .read _ n => .transfer n
  | .write _ bs => .transfer bs.length
  | .clock => .time 0 0
  | .exchange _ => .exchange x
  | _ => .tick

/-- An exchange that has no orders: each is posted as number `order`, and can be canceled. -/
def Exchange.fixed (order quantity : UInt32) : Exchange where
  State := Unit
  Choice := Unit
  act c _ _ :=
    match c with
    | .getStatus => ((0, 0, 0), ())
    | .postBuy .. => (([], order), ())
    | .postSell .. => (([], order), ())
    | .cancel .. => (([], 0, some quantity), ())

/-! ## Actions as code -/

def enter (c : Call) : Code Unit := .act (I := bourse) (.enter c)
def leave (v : Value) : Code Unit := .act (I := bourse) (.leave v)
def lock (a : Nat) : Code Unit := .act (I := bourse) (.lock a)
def unlock (a : Nat) : Code Unit := .act (I := bourse) (.unlock a)
def mutexInit (a : Nat) : Code Unit := .act (I := bourse) (.mutexInit a)
def mallocTrader : Code Nat := .act (I := bourse) .mallocTrader
def freeTrader (a : Nat) : Code Unit := .act (I := bourse) (.freeTrader a)
def load (f : Field) (a : Nat) : Code f.Ty := .act (I := bourse) (.load f a)
def store (f : Field) (a : Nat) (v : f.Ty) : Code Unit := .act (I := bourse) (.store f a v)
def slot (i : Nat) : Code (Option Nat) := .act (I := bourse) (.slot i)
def setSlot (i : Nat) (v : Option Nat) : Code Unit := .act (I := bourse) (.setSlot i v)
def count : Code Nat := .act (I := bourse) .count
def setCount (n : Nat) : Code Unit := .act (I := bourse) (.setCount n)
def malloc (n : Nat) : Code (Nat × List UInt8) := .act (I := bourse) (.malloc n)
def free (p : Option Nat) : Code Unit := .act (I := bourse) (.free p)
def uninit (n : Nat) : Code (List UInt8) := .act (I := bourse) (.uninit n)
def beyond (n : Nat) : Code (List UInt8) := .act (I := bourse) (.beyond n)
def read (fd : Int) (n : Nat) : Code ReadResult := .act (I := bourse) (.read fd n)
def write (fd : Int) (bs : List UInt8) : Code WriteResult := .act (I := bourse) (.write fd bs)
def clock : Code (UInt32 × UInt32) := .act (I := bourse) .clock
def close (fd : Int) : Code Unit := .act (I := bourse) (.close fd)
def shutdown (fd : Int) : Code Unit := .act (I := bourse) (.shutdown fd)
def semWait (x : Sem) : Code Unit := .act (I := bourse) (.semWait x)
def semPost (x : Sem) : Code Unit := .act (I := bourse) (.semPost x)
def regSize : Code Nat := .act (I := bourse) .regSize
def regFd (i : Nat) : Code Int := .act (I := bourse) (.regFd i)
def setRegFd (i : Nat) (fd : Int) : Code Unit := .act (I := bourse) (.setRegFd i fd)
def regCount : Code Int := .act (I := bourse) .regCount
def setRegCount (n : Int) : Code Unit := .act (I := bourse) (.setRegCount n)
def exchange (c : ExchangeCall) : Code c.Reply := .act (I := bourse) (.exchange c)
def segfault {α : Type} : Code α := .op (I := bourse) .segfault nofun

/-- A function of the trader module: its frame is on the call stack while its body runs. -/
def scope {α : Type} (c : Call) (value : α → Value) (body : Code α) : Code α := do
  enter c
  let r ← body
  leave (value r)
  pure r

/-- The object a pointer points to. -/
def deref (p : Option Nat) : Code Nat :=
  match p with
  | some a => pure a
  | none => segfault

end BourseServer
