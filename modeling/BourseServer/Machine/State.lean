import BourseServer.Concurrency.ThreadPool
import BourseServer.Protocol.Packet

/-!
# State of the server process

Traders live in a heap that is a partial map from addresses to records: the address of a freed
record has no entry. The other components are the trader table of `trader.c`, the open
connections, the client registry, the blocks that `malloc` has handed out and that are in use,
and the exchange, whose code is not part of the repository and which is a parameter here.

`History` is written by the machine and read by no program. It records which functions of the
trader module are active in each thread, what was called and returned, and who is logged in.
-/
namespace BourseServer

/-! ## Traders -/

/-- `MAX_TRADERS` -/
def maxTraders : Nat := 64

/-- A `char *` that points to the start of a block. -/
structure CString where
  block : Nat
  chars : List UInt8
  deriving DecidableEq, Repr

/-- The characters before the terminating NUL. -/
def CString.text (c : CString) : List UInt8 := c.chars.takeWhile (· != 0)

/-- `strcmp(a, b) == 0` -/
def strcmpEq (a b : CString) : Bool := a.text == b.text

theorem strcmpEq_iff {a b : CString} : strcmpEq a b = true ↔ a.text = b.text := beq_iff_eq

/-- A recursive mutex. Before `pthread_mutex_init` its bytes are those of the allocated block,
which may look locked without an owner that could release it. -/
structure Mutex where
  initialised : Bool
  owner : Option Nat
  depth : Nat
  deriving DecidableEq, Repr

namespace Mutex

/-- The mutex right after `pthread_mutex_init`. -/
def fresh : Mutex := ⟨true, none, 0⟩

/-- `pthread_mutex_lock` by thread `t`, unless it has to wait. -/
def lock (t : Nat) (m : Mutex) : Option Mutex :=
  if m.depth = 0 then some { m with owner := some t, depth := 1 }
  else if m.owner = some t then some { m with depth := m.depth + 1 }
  else none

/-- `pthread_mutex_unlock` by thread `t`; it changes nothing unless `t` is the owner. -/
def unlock (t : Nat) (m : Mutex) : Mutex :=
  if m.owner = some t then
    if m.depth ≤ 1 then { m with owner := none, depth := 0 }
    else { m with depth := m.depth - 1 }
  else m

/-- How many times thread `t` holds the mutex. -/
def heldBy (t : Nat) (m : Mutex) : Nat := if m.owner = some t then m.depth else 0

end Mutex

/-- An `int` can hold this value. -/
def FitsInt (v : Int) : Prop := -2 ^ 31 ≤ v ∧ v < 2 ^ 31

instance (v : Int) : Decidable (FitsInt v) := inferInstanceAs (Decidable (_ ∧ _))

/-- `struct trader`. Here `ref` is an integer of any size: where the result of a run would differ
for an `int`, it is said that the counts of the run fit. -/
structure Trader where
  ref : Int
  fd : Int
  balance : UInt32
  inventory : UInt32
  mutex : Mutex
  name : CString
  deriving DecidableEq, Repr

/-- The fields of a trader that are read and written one at a time. -/
inductive Field where
  | ref | fd | balance | inventory | name
  deriving DecidableEq, Repr

@[reducible] def Field.Ty : Field → Type
  | .ref => Int
  | .fd => Int
  | .balance => UInt32
  | .inventory => UInt32
  | .name => CString

namespace Trader

def get (tr : Trader) : (f : Field) → f.Ty
  | .ref => tr.ref
  | .fd => tr.fd
  | .balance => tr.balance
  | .inventory => tr.inventory
  | .name => tr.name

def set (tr : Trader) : (f : Field) → f.Ty → Trader
  | .ref, v => { tr with ref := v }
  | .fd, v => { tr with fd := v }
  | .balance, v => { tr with balance := v }
  | .inventory, v => { tr with inventory := v }
  | .name, v => { tr with name := v }

end Trader

/-! ## Calls -/

/-- The two quantities of an account. -/
inductive Asset where
  | balance | inventory
  deriving DecidableEq, Repr

/-- The four account operations of `trader.h`. -/
inductive AccountCall where
  | increase (x : Asset) (amount : UInt32)
  | decrease (x : Asset) (amount : UInt32)
  deriving DecidableEq, Repr

/-- A call of a function of the trader module, with its arguments. -/
inductive Call where
  | login (fd : Int) (name : CString)
  | logout (a : Nat)
  | ref (a : Nat)
  | unref (a : Nat)
  | sendPacket (a : Nat) (hdr : PacketHeader) (data : List UInt8)
  | broadcast (hdr : PacketHeader) (data : List UInt8)
  | sendAck (a : Nat) (info : Option StatusInfo)
  | sendNack (a : Nat)
  | account (a : Nat) (c : AccountCall)
  deriving DecidableEq, Repr

/-- What a function of the trader module returns. -/
inductive Value where
  | void
  | int (i : Int)
  | trader (a : Option Nat)
  deriving DecidableEq, Repr

/-- The calls of the trader module that code outside `server.c` makes. -/
inductive ClientCall where
  | ref (a : Nat)
  | unref (a : Nat)
  | sendPacket (a : Nat) (hdr : PacketHeader) (data : List UInt8)
  | broadcast (hdr : PacketHeader) (data : List UInt8)
  | sendAck (a : Nat) (info : Option StatusInfo)
  | sendNack (a : Nat)
  | account (a : Nat) (c : AccountCall)
  deriving DecidableEq, Repr

/-- A call of a function of the exchange, with its arguments. -/
inductive ExchangeCall where
  | getStatus
  | postBuy (a : Nat) (quantity price : UInt32)
  | postSell (a : Nat) (quantity price : UInt32)
  | cancel (a : Nat) (order : UInt32)
  deriving DecidableEq, Repr

/-- The bits `exchange_get_status` stores in the bid, ask and last fields. For the other
functions, the trader calls made on the way, the result and, for a cancellation, what is stored
in the quantity variable, if anything is. -/
@[reducible] def ExchangeCall.Reply : ExchangeCall → Type
  | .getStatus => UInt32 × UInt32 × UInt32
  | .postBuy .. => List ClientCall × UInt32
  | .postSell .. => List ClientCall × UInt32
  | .cancel .. => List ClientCall × Int × Option UInt32

/-- What a function of the exchange returns. -/
inductive ExchangeResult where
  | void
  | order (id : UInt32)
  | canceled (result : Int) (quantity : Option UInt32)
  deriving DecidableEq, Repr

def ExchangeCall.result : (c : ExchangeCall) → c.Reply → ExchangeResult
  | .getStatus, _ => .void
  | .postBuy .., r => .order r.2
  | .postSell .., r => .order r.2
  | .cancel .., r => .canceled r.2.1 r.2.2

/-- The exchange: its state, and what each of its functions does in it. The choice stands for
whatever else the result depends on, such as the matchmaker thread. -/
structure Exchange where
  State : Type
  Choice : Type
  act : (c : ExchangeCall) → Choice → State → c.Reply × State

/-! ## Connections and the client registry -/

/-- An open descriptor: the service thread it belongs to, the bytes still to be read, whether
the peer sends nothing after them, whether reading was shut down, and the bytes written. -/
structure Conn where
  owner : Nat
  input : List UInt8
  ended : Bool
  shut : Bool
  output : List UInt8
  deriving DecidableEq, Repr

/-- The semaphores of `struct client_registry`. -/
inductive Sem where
  | countMutex | mutex | items | slots
  deriving DecidableEq, Repr

/-- `struct client_registry` -/
structure ClientRegistry where
  n : Nat
  fds : Nat → Int
  count : Int
  sem : Sem → Nat

/-! ## History -/

/-- What is recorded of a run. A call comes with the number of calls it is nested in. -/
inductive Event where
  | called (t depth : Nat) (c : Call)
  | acquired (t : Nat) (a : Nat) (c : Option Call)
  | returned (t : Nat) (c : Call) (v : Value)
  | exchanged (t : Nat) (c : ExchangeCall) (r : ExchangeResult)
  deriving DecidableEq, Repr

/-- Active calls of each thread, innermost first; events, newest first; the trader in which a
thread has stored its descriptor and not yet stored -1; and the references taken and not yet
given back by calls of `trader_ref` and `trader_unref` from outside the module. -/
structure History where
  frames : Nat → List Call
  events : List Event
  session : Nat → Option Nat
  outstanding : Nat → Nat

namespace History

def empty : History := ⟨fun _ => [], [], fun _ => none, fun _ => 0⟩

def enter (t : Nat) (c : Call) (h : History) : History where
  frames := Function.update h.frames t (c :: h.frames t)
  events := .called t (h.frames t).length c :: h.events
  session := h.session
  outstanding :=
    match c, h.frames t with
    | .unref a, [] => Function.update h.outstanding a (h.outstanding a - 1)
    | _, _ => h.outstanding

def leave (t : Nat) (v : Value) (h : History) : History :=
  match h.frames t with
  | [] => h
  | c :: rest =>
    { frames := Function.update h.frames t rest
      events := .returned t c v :: h.events
      session := h.session
      outstanding :=
        match c, rest with
        | .ref a, [] => Function.update h.outstanding a (h.outstanding a + 1)
        | _, _ => h.outstanding }

def acquire (t a : Nat) (h : History) : History :=
  { h with events := .acquired t a (h.frames t).head? :: h.events }

def exchange (t : Nat) (c : ExchangeCall) (r : ExchangeResult) (h : History) : History :=
  { h with events := .exchanged t c r :: h.events }

def store (t a : Nat) : (f : Field) → f.Ty → History → History
  | .fd, v, h => { h with session := Function.update h.session t (if v = -1 then none else some a) }
  | .ref, _, h => h
  | .balance, _, h => h
  | .inventory, _, h => h
  | .name, _, h => h

end History

/-! ## The process -/

structure State (E : Exchange) where
  traders : Nat → Option Trader
  allTraders : Nat → Option Nat
  count : Nat
  conns : Int → Option Conn
  registry : ClientRegistry
  blocks : List Nat
  exchange : E.State
  hist : History

namespace State

variable {E : Exchange}

/-- The process after `creg_init`, `exchange_init` and `trader_init`, with a registry for `n`
clients (`FD_SETSIZE` in the server). -/
def init (E : Exchange) (x : E.State) (n : Nat) : State E where
  traders _ := none
  allTraders _ := none
  count := 0
  conns _ := none
  registry :=
    { n := n
      fds := fun _ => -1
      count := 0
      sem := fun
        | .countMutex => 1
        | .mutex => 1
        | .items => 0
        | .slots => n }
  blocks := []
  exchange := x
  hist := .empty

/-- The record at `a` is replaced by `tr`. -/
def setTrader (s : State E) (a : Nat) (tr : Option Trader) : State E :=
  { s with traders := Function.update s.traders a tr }

def setConn (s : State E) (fd : Int) (c : Option Conn) : State E :=
  { s with conns := Function.update s.conns fd c }

end State

end BourseServer
