import BourseServer.Machine.Frame
import BourseServer.Server.Service

/-!
# What the threads share of the traders

Of the state of the process, only a part matters for who is logged in as which trader and for
what is sent to whom: the traders without their accounts, the table, the owner of each open
descriptor and what was written to it, and what the history records of calls and sessions. Each
action changes this part in one of a few ways.
-/
namespace BourseServer

open Concurrency

/-! ## Logins in the history -/

/-- The trader that the last login of thread `t` has returned, unless it has logged out since.
The events are given newest first. -/
def loggedIn (t : Nat) : List Event → Option Nat
  | [] => none
  | .returned u (.login _ _) (.trader r) :: ev => if u = t then r else loggedIn t ev
  | .called u _ (.logout _) :: ev => if u = t then none else loggedIn t ev
  | _ :: ev => loggedIn t ev

/-- The traders that completed logins have returned, and under which names. -/
def loginReturns : List Event → List (CString × Nat)
  | [] => []
  | .returned _ (.login _ name) (.trader (some a)) :: ev => (name, a) :: loginReturns ev
  | _ :: ev => loginReturns ev

/-- The headers and payloads that calls of `trader_send_packet` were given. -/
def sends : List Event → List (PacketHeader × List UInt8)
  | [] => []
  | .called _ _ (.sendPacket _ hdr data) :: ev => (hdr, data) :: sends ev
  | _ :: ev => sends ev

/-! ## The shared part -/

/-- The fields of the traders that have one, the table, the owners and the output of the open
descriptors, and the history of calls and sessions. -/
structure Shared where
  name : Nat → Option CString
  fd : Nat → Option Int
  ref : Nat → Option Int
  mutex : Nat → Option Mutex
  slots : Nat → Option Nat
  owner : Int → Option Nat
  output : Int → Option (List UInt8)
  frames : Nat → List Call
  session : Nat → Option Nat
  outstanding : Nat → Nat
  loggedIn : Nat → Option Nat
  returned : List (CString × Nat)
  sends : List (PacketHeader × List UInt8)

def State.shared {E : Exchange} (s : State E) : Shared where
  name a := (s.traders a).map Trader.name
  fd a := (s.traders a).map Trader.fd
  ref a := (s.traders a).map Trader.ref
  mutex a := (s.traders a).map Trader.mutex
  slots := s.allTraders
  owner x := (s.conns x).map Conn.owner
  output x := (s.conns x).map Conn.output
  frames := s.hist.frames
  session := s.hist.session
  outstanding := s.hist.outstanding
  loggedIn t := BourseServer.loggedIn t s.hist.events
  returned := loginReturns s.hist.events
  sends := BourseServer.sends s.hist.events

namespace Shared

/-- The trader is in the table. -/
def Stored (v : Shared) (a : Nat) : Prop := ∃ i, v.slots i = some a

/-- The trader has a name that is equal to `name`. -/
def Named (v : Shared) (a : Nat) (name : CString) : Prop :=
  ∃ x, v.name a = some x ∧ strcmpEq x name = true

/-- How many times thread `t` holds the mutex of trader `a`. -/
def held (v : Shared) (t a : Nat) : Nat := (v.mutex a).elim 0 (Mutex.heldBy t)

/-- Thread `t` enters the function that `c` calls. -/
def enter (v : Shared) (t : Nat) (c : Call) : Shared :=
  { v with
    frames := Function.update v.frames t (c :: v.frames t)
    outstanding :=
      match c, v.frames t with
      | .unref a, [] => Function.update v.outstanding a (v.outstanding a - 1)
      | _, _ => v.outstanding
    loggedIn :=
      match c with
      | .logout _ => Function.update v.loggedIn t none
      | _ => v.loggedIn
    sends :=
      match c with
      | .sendPacket _ hdr data => (hdr, data) :: v.sends
      | _ => v.sends }

/-- Thread `t`, which is in the function of `c`, leaves it. -/
def leave (v : Shared) (t : Nat) (c : Call) (rest : List Call) (x : Value) : Shared :=
  { v with
    frames := Function.update v.frames t rest
    outstanding :=
      match c, rest with
      | .ref a, [] => Function.update v.outstanding a (v.outstanding a + 1)
      | _, _ => v.outstanding
    loggedIn :=
      match c, x with
      | .login _ _, .trader r => Function.update v.loggedIn t r
      | _, _ => v.loggedIn
    returned :=
      match c, x with
      | .login _ name, .trader (some a) => (name, a) :: v.returned
      | _, _ => v.returned }

end Shared

/-! ## What each action changes -/

section exec

variable {E : Exchange} {t a : Nat} {e : Choice E} {s s' : State E} {tr tr' : Trader}

/-- Actions that leave the shared part alone. -/
def Op.quiet : Op → Bool
  | .enter _ | .leave _ | .lock _ | .unlock _ | .mutexInit _ => false
  | .mallocTrader | .freeTrader _ => false
  | .store .ref _ _ | .store .fd _ _ | .store .name _ _ | .setSlot .. => false
  | .write .. | .close _ => false
  | _ => true

theorem map_setTrader {α : Type} (f : Trader → α) (s : State E) (a : Nat) (tr : Trader) :
    (fun b => ((s.setTrader a (some tr)).traders b).map f) =
      Function.update (fun b => (s.traders b).map f) a (some (f tr)) := by
  funext b
  by_cases hb : b = a
  · subst hb
    simp [State.setTrader]
  · simp [State.setTrader, hb]

theorem map_setConn {α : Type} (f : Conn → α) (s : State E) (fd : Int) (c : Option Conn) :
    (fun x => ((s.setConn fd c).conns x).map f) =
      Function.update (fun x => (s.conns x).map f) fd (c.map f) := by
  funext x
  by_cases hx : x = fd
  · subst hx
    simp [State.setConn]
  · simp [State.setConn, hx]

theorem map_setConn_of_eq {α : Type} {f : Conn → α} {fd : Int} {c c' : Conn}
    (hc : s.conns fd = some c) (hf : f c' = f c) :
    (fun x => ((s.setConn fd (some c')).conns x).map f) = fun x => (s.conns x).map f := by
  rw [map_setConn, Option.map_some, hf]
  exact Function.update_eq_self_iff.mpr (by simp [hc])

theorem shared_setTrader (s : State E) (a : Nat) (tr : Trader) :
    (s.setTrader a (some tr)).shared = { s.shared with
      name := Function.update s.shared.name a (some tr.name)
      fd := Function.update s.shared.fd a (some tr.fd)
      ref := Function.update s.shared.ref a (some tr.ref)
      mutex := Function.update s.shared.mutex a (some tr.mutex) } := by
  simp only [State.shared, map_setTrader]
  rfl

section update

variable (htr : s.traders a = some tr)
include htr

theorem shared_name : s.shared.name a = some tr.name := by simp [State.shared, htr]

theorem shared_fd : s.shared.fd a = some tr.fd := by simp [State.shared, htr]

theorem shared_ref : s.shared.ref a = some tr.ref := by simp [State.shared, htr]

theorem shared_mutex : s.shared.mutex a = some tr.mutex := by simp [State.shared, htr]

theorem update_name : Function.update s.shared.name a (some tr.name) = s.shared.name :=
  Function.update_eq_self_iff.mpr (shared_name htr).symm

theorem update_fd : Function.update s.shared.fd a (some tr.fd) = s.shared.fd :=
  Function.update_eq_self_iff.mpr (shared_fd htr).symm

theorem update_ref : Function.update s.shared.ref a (some tr.ref) = s.shared.ref :=
  Function.update_eq_self_iff.mpr (shared_ref htr).symm

theorem update_mutex : Function.update s.shared.mutex a (some tr.mutex) = s.shared.mutex :=
  Function.update_eq_self_iff.mpr (shared_mutex htr).symm

end update

theorem shared_of_frame {o : Op} (h : o.Frame s s')
    (ho : (o.writesTraders || o.writesTable || o.writesConns || o.writesFrames ||
      o.writesSession || o.writesEvents) = false) : s'.shared = s.shared := by
  simp only [Bool.or_eq_false_iff] at ho
  obtain ⟨⟨⟨⟨⟨htraders, htable⟩, hconns⟩, hframes⟩, hsession⟩, hevents⟩ := ho
  simp [State.shared, h.traders htraders, h.table htable, h.conns hconns, h.frames hframes,
    h.outstanding hframes, h.session hsession, h.events hevents]

theorem shared_setConn_of_eq {fd : Int} {c c' : Conn} (hc : s.conns fd = some c)
    (howner : c'.owner = c.owner) (hout : c'.output = c.output) :
    (s.setConn fd (some c')).shared = s.shared := by
  simp only [State.shared, map_setConn_of_eq hc howner, map_setConn_of_eq hc hout]
  rfl

theorem exec_quiet {o : Op} {r : o.Reply} (ho : o.quiet = true)
    (h : exec t o e s = .done r s') : s'.shared = s.shared := by
  cases o
  case store f a v =>
    obtain ⟨tr, htr, rfl⟩ := exec_store h
    have hshared := shared_setTrader s a (tr.set f v)
    cases f <;> simp only [Op.quiet, Bool.false_eq_true] at ho
    case balance =>
      exact hshared.trans (by simp only [Trader.set, update_name htr, update_fd htr,
        update_ref htr, update_mutex htr])
    case inventory =>
      exact hshared.trans (by simp only [Trader.set, update_name htr, update_fd htr,
        update_ref htr, update_mutex htr])
  case read fd n =>
    rcases execRead_conns h with rfl | ⟨c, k, hc, rfl⟩
    · rfl
    · exact shared_setConn_of_eq hc rfl rfl
  case shutdown fd =>
    simp only [exec] at h
    split at h
    · cases h
      rfl
    · rename_i c hc
      cases h
      exact shared_setConn_of_eq hc rfl rfl
  case exchange c =>
    simp only [exec] at h
    split at h
    · cases h
      rfl
    · cases h
  all_goals first
    | exact shared_of_frame (exec_frame h) rfl
    | cases ho

theorem exec_enter {c : Call} {r : Unit} (h : exec t (.enter c) e s = .done r s') :
    s'.shared = s.shared.enter t c := by
  cases h
  have hlogged : (fun u => loggedIn u (.called t (s.hist.frames t).length c :: s.hist.events)) =
      (s.shared.enter t c).loggedIn := by
    funext u
    cases c <;> try rfl
    by_cases hu : u = t
    · subst hu
      simp [Shared.enter, loggedIn]
    · simp [Shared.enter, loggedIn, hu, Ne.symm hu, State.shared]
  have hout : (s.hist.enter t c).outstanding = (s.shared.enter t c).outstanding := by
    cases c <;> rfl
  have hret : loginReturns (s.hist.enter t c).events = (s.shared.enter t c).returned := by
    cases c <;> rfl
  have hsends : sends (s.hist.enter t c).events = (s.shared.enter t c).sends := by
    cases c <;> rfl
  simp only [State.shared, History.enter] at hout hret hsends ⊢
  simp only [hlogged, hout, hret, hsends]
  rfl

theorem exec_leave {v : Value} {r : Unit} {c : Call} {rest : List Call}
    (hframes : s.hist.frames t = c :: rest) (h : exec t (.leave v) e s = .done r s') :
    s'.shared = s.shared.leave t c rest v := by
  cases h
  have hlogged : (fun u => loggedIn u (.returned t c v :: s.hist.events)) =
      (s.shared.leave t c rest v).loggedIn := by
    funext u
    cases c <;> try rfl
    cases v <;> try rfl
    by_cases hu : u = t
    · subst hu
      simp [Shared.leave, loggedIn]
    · simp [Shared.leave, loggedIn, hu, Ne.symm hu, State.shared]
  have hret : loginReturns (.returned t c v :: s.hist.events) =
      (s.shared.leave t c rest v).returned := by
    cases c <;> try rfl
    cases v <;> try rfl
    rename_i _ _ p
    cases p <;> rfl
  have hout : (s.hist.leave t v).outstanding = (s.shared.leave t c rest v).outstanding := by
    simp only [History.leave, hframes]
    rfl
  simp only [State.shared, History.leave, hframes] at hout ⊢
  simp only [hlogged, hret]
  rfl

theorem exec_lock_shared {r : Unit} (h : exec t (.lock a) e s = .done r s') :
    ∃ m m', s.shared.mutex a = some m ∧ m.lock t = some m' ∧
      s'.shared = { s.shared with mutex := Function.update s.shared.mutex a (some m') } := by
  obtain ⟨tr, m', htr, hm, rfl⟩ := exec_lock h
  refine ⟨tr.mutex, m', shared_mutex htr, hm, ?_⟩
  have hshared := shared_setTrader s a { tr with mutex := m' }
  simp only [update_name htr, update_fd htr, update_ref htr] at hshared
  exact hshared

theorem exec_unlock_shared {r : Unit} (h : exec t (.unlock a) e s = .done r s') :
    ∃ m, s.shared.mutex a = some m ∧
      s'.shared = { s.shared with
        mutex := Function.update s.shared.mutex a (some (m.unlock t)) } := by
  obtain ⟨tr, htr, rfl⟩ := exec_unlock h
  refine ⟨tr.mutex, shared_mutex htr, ?_⟩
  simp only [shared_setTrader, update_name htr, update_fd htr, update_ref htr]

theorem exec_mutexInit_shared {r : Unit} (h : exec t (.mutexInit a) e s = .done r s') :
    ∃ m, s.shared.mutex a = some m ∧
      s'.shared = { s.shared with mutex := Function.update s.shared.mutex a (some .fresh) } := by
  obtain ⟨tr, htr, rfl⟩ := exec_mutexInit h
  refine ⟨tr.mutex, shared_mutex htr, ?_⟩
  simp only [shared_setTrader, update_name htr, update_fd htr, update_ref htr]

theorem exec_mallocTrader_shared {r : Nat} (h : exec t .mallocTrader e s = .done r s') :
    s.shared.name r = none ∧ s.shared.fd r = none ∧ s.shared.mutex r = none ∧
      ∃ junk m, e = .trader r junk ∧ s'.shared = { s.shared with
        name := Function.update s.shared.name r (some junk.name)
        fd := Function.update s.shared.fd r (some junk.fd)
        ref := Function.update s.shared.ref r (some junk.ref)
        mutex := Function.update s.shared.mutex r (some m) } := by
  obtain ⟨junk, he, hr, rfl⟩ := exec_mallocTrader h
  refine ⟨by simp [State.shared, hr], by simp [State.shared, hr], by simp [State.shared, hr],
    junk, ⟨false, none, junk.mutex.depth⟩, he, ?_⟩
  exact shared_setTrader s r _

theorem exec_storeRef_shared {v : Int} {r : Unit} (h : exec t (.store .ref a v) e s = .done r s') :
    (∃ x, s.shared.ref a = some x) ∧
      s'.shared = { s.shared with ref := Function.update s.shared.ref a (some v) } := by
  obtain ⟨tr, htr, rfl⟩ := exec_store h
  refine ⟨⟨tr.ref, shared_ref htr⟩, ?_⟩
  have hshared := shared_setTrader s a (tr.set .ref v)
  simp only [Trader.set, update_name htr, update_fd htr, update_mutex htr] at hshared
  exact hshared

theorem exec_storeName_shared {v : CString} {r : Unit}
    (h : exec t (.store .name a v) e s = .done r s') :
    (∃ x, s.shared.name a = some x) ∧
      s'.shared = { s.shared with name := Function.update s.shared.name a (some v) } := by
  obtain ⟨tr, htr, rfl⟩ := exec_store h
  refine ⟨⟨tr.name, shared_name htr⟩, ?_⟩
  have hshared := shared_setTrader s a (tr.set .name v)
  simp only [Trader.set, update_fd htr, update_ref htr, update_mutex htr] at hshared
  exact hshared

theorem exec_storeFd_shared {v : Int} {r : Unit} (h : exec t (.store .fd a v) e s = .done r s') :
    (∃ x, s.shared.fd a = some x) ∧ s'.shared = { s.shared with
      fd := Function.update s.shared.fd a (some v)
      session := Function.update s.shared.session t (if v = -1 then none else some a) } := by
  obtain ⟨tr, htr, rfl⟩ := exec_store h
  refine ⟨⟨tr.fd, shared_fd htr⟩, ?_⟩
  have hshared := shared_setTrader s a (tr.set .fd v)
  simp only [Trader.set, update_name htr, update_ref htr, update_mutex htr] at hshared
  exact congrArg (fun u : Shared => { u with
    session := Function.update s.shared.session t (if v = -1 then none else some a) }) hshared

theorem exec_setSlot_shared {i : Nat} {v : Option Nat} {r : Unit}
    (h : exec t (.setSlot i v) e s = .done r s') :
    s'.shared = { s.shared with slots := Function.update s.shared.slots i v } := by
  cases h
  rfl

theorem exec_close_shared {fd : Int} {r : Unit} (h : exec t (.close fd) e s = .done r s') :
    s'.shared = { s.shared with
      owner := Function.update s.shared.owner fd none
      output := Function.update s.shared.output fd none } := by
  simp only [exec] at h
  split at h
  · cases h
  · cases h
    simp only [State.shared, map_setConn]
    rfl

/-- A write either fails, changes nothing, or appends to the output of an open descriptor. -/
theorem exec_write_shared {fd : Int} {bs : List UInt8} {r : WriteResult}
    (h : exec t (.write fd bs) e s = .done r s') :
    (s'.shared = s.shared ∧ (r = .interrupted ∨
      r = .failed ∧ (s.shared.owner fd = none ∨ e = .ioError))) ∨
    ∃ k out, r = .wrote k ∧ s.shared.output fd = some out ∧ s'.shared = { s.shared with
      output := Function.update s.shared.output fd (some (out ++ bs.take k)) } := by
  simp only [exec, execWrite] at h
  split at h
  · rename_i hc
    cases h
    exact .inl ⟨rfl, .inr ⟨rfl, .inl (by simp [State.shared, hc])⟩⟩
  · rename_i c hc
    split at h
    · rename_i k
      cases h
      refine .inr ⟨_, c.output, rfl, by simp [State.shared, hc], ?_⟩
      have howner : Function.update s.shared.owner fd (some c.owner) = s.shared.owner :=
        Function.update_eq_self_iff.mpr (by simp [State.shared, hc])
      simp only [State.shared, map_setConn, Option.map_some] at howner ⊢
      rw [howner]
      rfl
    · cases h
      exact .inl ⟨rfl, .inl rfl⟩
    · cases h
      exact .inl ⟨rfl, .inr ⟨rfl, .inr rfl⟩⟩
    · cases h

theorem exists_owner_of_output {fd : Int} {out : List UInt8} (h : s.shared.output fd = some out) :
    ∃ u, s.shared.owner fd = some u := by
  obtain ⟨c, hc, _⟩ := Option.map_eq_some_iff.mp h
  exact ⟨c.owner, by simp [State.shared, hc]⟩

theorem launch_deliver {fd : Int} {bytes : List UInt8} {ended : Bool} {p : Code Unit}
    (h : launch t (.deliver fd bytes ended) s = some (p, s')) :
    p = .ret () ∧ s'.shared = s.shared := by
  simp only [launch] at h
  split at h
  · rename_i c hc
    split at h
    · cases h
    · cases h
      exact ⟨rfl, shared_setConn_of_eq hc rfl rfl⟩
  · cases h

/-- A new connection belongs to the thread that serves it. -/
theorem launch_accept {fd : Int} {input : List UInt8} {ended : Bool} {p : Code Unit}
    (h : launch t (.accept fd input ended) s = some (p, s')) :
    0 ≤ fd ∧ p = brsClientService fd ∧ s.shared.owner fd = none ∧ s'.shared = { s.shared with
      owner := Function.update s.shared.owner fd (some t)
      output := Function.update s.shared.output fd (some []) } := by
  simp only [launch] at h
  split at h
  · cases h
  · rename_i hc
    split at h
    · rename_i hfd
      cases h
      refine ⟨hfd, rfl, by simp [State.shared, hc], ?_⟩
      simp only [State.shared, map_setConn]
      rfl
    · cases h

end exec

end BourseServer
