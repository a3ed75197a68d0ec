import BourseServer.Concurrency.Cover
import BourseServer.Concurrency.Triple
import BourseServer.Protocol.Stream
import BourseServer.Server.Progress
import BourseServer.Sessions.Shared
import BourseServer.Trader.LockBalance

/-!
# Sessions among threads

The discipline of all threads that call the trader module. Between any two steps the traders in
the table have different names, a trader with a descriptor is that of one session, whose thread
serves the connection, and the reference count of a trader covers the table, the references of
outside holders and those that threads have taken. A thread relies on the others for the names
of the traders and, while it holds a trader's mutex, for its reference count and its descriptor.

A login acts on what it has found in the table. `Watch` says which runs are looked at: those in
which logins are executed one at a time, or else those in which what a login has found still
holds when it acts on it; and those in which writes succeed, so that packets are sent whole. In
all of them the reference counts stay in the range of `int`.
-/
namespace BourseServer

open Concurrency

variable {E : Exchange}

namespace Sessions

/-- The runs under consideration. -/
structure Watch where
  /-- Logins are executed one at a time. -/
  apart : Prop
  /-- Writes to open descriptors succeed, and payloads are as long as their headers say. -/
  whole : Prop

/-- A packet on its way to a descriptor: the bytes that are written, and those that are not. -/
structure Sending where
  fd : Int
  sent : List UInt8
  rest : List UInt8

/-- What a thread has: references to traders of the table, holds on mutexes, the trader it is
making, the trader it is logged in as, the connection it serves, and the packet it is sending. -/
structure Holdings where
  refs : Nat → Nat
  locks : Nat → Nat
  fresh : Option Nat
  user : Option Nat
  conn : Option Int
  sending : Option Sending

namespace Holdings

def none : Holdings := ⟨fun _ => 0, fun _ => 0, .none, .none, .none, .none⟩

def setRef (h : Holdings) (a n : Nat) : Holdings := { h with refs := Function.update h.refs a n }

def setLock (h : Holdings) (a n : Nat) : Holdings :=
  { h with locks := Function.update h.locks a n }

end Holdings

/-- What all threads have. -/
structure Census where
  refs : Nat → Nat → Nat
  locks : Nat → Nat → Nat
  fresh : Nat → Option Nat
  user : Nat → Option Nat
  conn : Nat → Option Int
  sending : Nat → Option Sending

def census (g : Nat → Holdings) : Census where
  refs t := (g t).refs
  locks t := (g t).locks
  fresh t := (g t).fresh
  user t := (g t).user
  conn t := (g t).conn
  sending t := (g t).sending

/-- Thread `t` has `h` now. -/
def Census.set (c : Census) (t : Nat) (h : Holdings) : Census where
  refs := Function.update c.refs t h.refs
  locks := Function.update c.locks t h.locks
  fresh := Function.update c.fresh t h.fresh
  user := Function.update c.user t h.user
  conn := Function.update c.conn t h.conn
  sending := Function.update c.sending t h.sending

/-- What thread `t` has. -/
def Census.of (c : Census) (t : Nat) : Holdings :=
  ⟨c.refs t, c.locks t, c.fresh t, c.user t, c.conn t, c.sending t⟩

@[simp] theorem Census.set_of (c : Census) (t : Nat) : c.set t (c.of t) = c := by
  simp [Census.set, Census.of]

theorem census_update (g : Nat → Holdings) (t : Nat) (h : Holdings) :
    census (Function.update g t h) = (census g).set t h := by
  have hcol : ∀ {α : Type} (f : Holdings → α),
      (fun u => f (Function.update g t h u)) = Function.update (fun u => f (g u)) t (f h) := by
    intro α f
    funext u
    by_cases hu : u = t
    · subst hu
      simp
    · simp [hu]
  unfold census Census.set
  simp only [hcol]

/-- Thread `t` is in a login. -/
def InLogin (v : Shared) (t : Nat) : Prop := ∃ fd name, Call.login fd name ∈ v.frames t

/-- The packet is one that `trader_send_packet` makes of this header and this payload. -/
def Carries (p : Packet) (hdr : PacketHeader) (data : List UInt8) : Prop :=
  p.header = { hdr with
    timestampSec := p.header.timestampSec
    timestampNsec := p.header.timestampNsec } ∧ p.payload = data.take hdr.payloadSize

/-- The packet is one with which a login is rejected. -/
def Rejects (p : Packet) : Prop := p.header.type = PacketType.nack.code ∧ p.payload = []

/-- The packet was to be sent. -/
def Genuine (v : Shared) (p : Packet) : Prop :=
  (∃ q ∈ v.sends, Carries p q.1 q.2) ∨ Rejects p

/-- Thread `t` may send packet `p` to descriptor `x`: for a trader whose mutex it holds and that
has this descriptor, or because it serves the connection and is not logged in. -/
def Sends (v : Shared) (c : Census) (t : Nat) (x : Int) (p : Packet) : Prop :=
  x ≠ -1 ∧ ((∃ a hdr data fs, v.frames t = .sendPacket a hdr data :: fs ∧ Carries p hdr data ∧
    0 < c.locks t a ∧ v.Stored a ∧ v.fd a = some x) ∨
    v.frames t = [] ∧ Rejects p ∧ c.conn t = some x ∧ c.user t = none)

/-- `out` consists of whole packets, and of what is written of the packet that a thread is
sending to descriptor `x`. -/
def Stream (v : Shared) (c : Census) (x : Int) (out : List UInt8) : Prop :=
  ∃ ps, (∀ p ∈ ps, Genuine v p) ∧
    ((∃ u m, c.sending u = some m ∧ m.fd = x ∧ out = Packet.encode ps ++ m.sent) ∨
      (∀ u m, c.sending u = some m → m.fd ≠ x) ∧ out = Packet.encode ps)

structure Inv (W : Watch) (v : Shared) (c : Census) : Prop where
  slots : ∀ {i a}, v.slots i = some a → i < maxTraders ∧ v.name a ≠ none
  names : ∀ {i j a b x y}, v.slots i = some a → v.slots j = some b → v.name a = some x →
    v.name b = some y → strcmpEq x y = true → i = j
  session : ∀ {t a}, v.session t = some a → ∃ x, v.fd a = some x ∧ x ≠ -1
  unique : ∀ {t u a}, v.session t = some a → v.session u = some a → t = u
  user : ∀ {t a}, c.user t = some a ↔ v.session t = some a ∧ v.Stored a
  served : ∀ {a x}, v.Stored a → v.fd a = some x → x ≠ -1 →
    ∃ u, v.session u = some a ∧ c.conn u = some x
  conn : ∀ {t x}, c.conn t = some x → v.owner x = some t
  ports : ∀ {x t}, v.owner x = some t → 0 ≤ x
  fresh : ∀ {t a}, c.fresh t = some a → ¬ v.Stored a ∧ v.name a ≠ none ∧
    (∀ u, c.fresh u = some a → u = t) ∧ (∀ u, v.session u = some a → u = t) ∧
    ∀ u, u ≠ t → c.locks u a = 0
  locks : ∀ t a, c.locks t a ≤ v.held t a
  counted : ∀ {a r}, v.Stored a → v.ref a = some r →
    Covers (r - 1 - v.outstanding a) fun u => c.refs u a
  unseen : ∀ {a}, ¬ v.Stored a → v.outstanding a = 0 ∧ ∀ u, c.refs u a = 0
  logged : ∀ {t a}, v.loggedIn t = some a → c.user t = some a
  leaving : ∀ {t a}, Call.logout a ∈ v.frames t → v.loggedIn t = none
  returned : ∀ {n a}, (n, a) ∈ v.returned → v.Stored a ∧ v.Named a n
  alone : W.apart → ∀ {t u}, InLogin v t → InLogin v u → t = u
  called : ∀ {t a hdr data}, Call.sendPacket a hdr data ∈ v.frames t → (hdr, data) ∈ v.sends
  streams : W.whole → ∀ {x out}, v.output x = some out → Stream v c x out
  sends : W.whole → ∀ {t m}, c.sending t = some m →
    m.rest ≠ [] ∧ ∃ p : Packet, m.sent ++ m.rest = p.toBytes ∧ Sends v c t m.fd p

/-- What a thread that has `h` knows to be left alone by the others. -/
structure Kept (W : Watch) (t : Nat) (h : Holdings) (v v' : Shared) : Prop where
  frames : v'.frames t = v.frames t
  session : v'.session t = v.session t
  slots : ∀ {i a}, v.slots i = some a → v'.slots i = some a
  name : ∀ {a}, v.Stored a → v'.name a = v.name a
  locked : ∀ {a}, 0 < h.locks a → v'.ref a = v.ref a ∧ (v.fd a ≠ some (-1) → v'.fd a = v.fd a)
  fresh : ∀ {a}, h.fresh = some a → v'.name a = v.name a ∧ v'.fd a = v.fd a ∧ v'.ref a = v.ref a
  login : W.apart → InLogin v t → v'.slots = v.slots ∧
    ∀ {a}, v.Stored a → v.fd a = some (-1) → v'.fd a = some (-1)

namespace Kept

variable {W : Watch} {t a : Nat} {h : Holdings} {v v' v'' : Shared}

theorem refl (W : Watch) (t : Nat) (h : Holdings) (v : Shared) : Kept W t h v v :=
  ⟨rfl, rfl, fun h => h, fun _ => rfl, fun _ => ⟨rfl, fun _ => rfl⟩, fun _ => ⟨rfl, rfl, rfl⟩,
    fun _ _ => ⟨rfl, fun _ h => h⟩⟩

theorem stored (hk : Kept W t h v v') (hs : v.Stored a) : v'.Stored a := by
  obtain ⟨i, hi⟩ := hs
  exact ⟨i, hk.slots hi⟩

theorem trans (h₁ : Kept W t h v v') (h₂ : Kept W t h v' v'') : Kept W t h v v'' where
  frames := h₂.frames.trans h₁.frames
  session := h₂.session.trans h₁.session
  slots hi := h₂.slots (h₁.slots hi)
  name hs := (h₂.name (h₁.stored hs)).trans (h₁.name hs)
  locked hl := by
    obtain ⟨href, hfd⟩ := h₁.locked hl
    obtain ⟨href', hfd'⟩ := h₂.locked hl
    refine ⟨href'.trans href, fun hne => ?_⟩
    have hsame := hfd hne
    exact (hfd' (hsame ▸ hne)).trans hsame
  fresh hf := by
    obtain ⟨hn, hx, hr⟩ := h₁.fresh hf
    obtain ⟨hn', hx', hr'⟩ := h₂.fresh hf
    exact ⟨hn'.trans hn, hx'.trans hx, hr'.trans hr⟩
  login ha hin := by
    obtain ⟨hs, hfd⟩ := h₁.login ha hin
    have hin' : InLogin v' t := by rwa [InLogin, h₁.frames]
    obtain ⟨hs', hfd'⟩ := h₂.login ha hin'
    exact ⟨hs'.trans hs, fun hst hx => hfd' (h₁.stored hst) (hfd hst hx)⟩

end Kept

/-! ## The runs -/

end Sessions

/-- The payload of a packet is as long as its header says. -/
def ClientCall.Fits : ClientCall → Prop
  | .sendPacket _ hdr data | .broadcast hdr data => hdr.payloadSize ≤ data.length
  | _ => True

namespace Sessions

/-- A call from outside of the module is about a trader of the table. -/
def Fair (whole : Prop) (v : Shared) (c : ClientCall) : Prop :=
  (∀ a, c.trader = some a → v.Stored a) ∧ (whole → c.Fits)

/-- What the code relies on: the count of a new trader does not start negative, no count leaves
the range of `int`, an outside holder only gives back a reference it has taken, and the exchange
only calls for traders of the table. -/
structure Prudent (whole : Prop) (t : Nat) (o : Op) (e : Choice E) (s : State E) : Prop where
  count : ∀ a junk, e = .trader a junk → 0 ≤ junk.ref
  range : ∀ a v, o = .store .ref a v → FitsInt v
  balanced : ∀ a, o = .enter (.unref a) → s.hist.frames t = [] → 0 < s.hist.outstanding a
  fair : ∀ c x, o = .exchange c → e = .exchange x →
    ∀ q ∈ c.clients (E.act c x s.exchange).1, Fair whole s.shared q

/-- No login begins before the last one has returned. -/
def OneLogin (s : State E) (o : Op) : Prop :=
  ∀ fd name, o = .enter (.login fd name) → ∀ u, ¬ InLogin s.shared u

/-- What a login has found in the table still holds when it acts on it. -/
def StillHolds (s : State E) : Op → Prop
  | .store .fd a x => x ≠ -1 → (∃ i, s.allTraders i = some a) →
    ∀ tr, s.traders a = some tr → tr.fd = -1
  | .setSlot i (some a) => s.allTraders i = none ∧ ∀ j b tr new, s.allTraders j = some b →
    s.traders b = some tr → s.traders a = some new → strcmpEq tr.name new.name = false
  | _ => True

/-- No write to an open descriptor fails. -/
def Unbroken (o : Op) (e : Choice E) : Prop := ∀ fd bs, o = .write fd bs → e ≠ .ioError

structure Orderly (W : Watch) (t : Nat) (o : Op) (e : Choice E) (s : State E) : Prop where
  prudent : Prudent W.whole t o e s
  apart : W.apart → OneLogin s o
  found : ¬ W.apart → StillHolds s o
  whole : W.whole → Unbroken o e

/-- Outside of the module a thread writes to its own connection; a packet for a trader goes to
descriptor -1, or to the connection of the thread that is logged in as this trader. -/
def Addressed (t : Nat) (x : Int) (v : Shared) : Prop :=
  (∃ a hdr data rest, v.frames t = .sendPacket a hdr data :: rest ∧
      (x = -1 ∨ ∃ u, v.session u = some a ∧ v.owner x = some u)) ∨
    v.frames t = [] ∧ v.owner x = some t

/-- What a thread may write to. -/
def MayWrite (t : Nat) (h : Holdings) (x : Int) (v : Shared) : Prop :=
  (∃ a hdr data rest, v.frames t = .sendPacket a hdr data :: rest ∧
      (x = -1 ∨ 0 < h.locks a ∧ v.Stored a ∧ v.fd a = some x)) ∨
    v.frames t = [] ∧ h.conn = some x ∧ h.user = none

/-- The bytes that are to be written are those of the packet that is being sent, if any. -/
def Ready (W : Watch) (h : Holdings) (x : Int) (rest : List UInt8) : Prop :=
  h.sending = none ∧ (W.whole → x = -1 ∨ rest = []) ∨
    W.whole ∧ ∃ sent after, h.sending = some ⟨x, sent, rest ++ after⟩

/-- The packet that is still being sent. -/
def Sending.unless (m : Sending) : Option Sending := if m.rest = [] then none else some m

abbrev World (E : Exchange) : Type := Concurrency.World (server E) Holdings

/-- A thread serves connection `fd`, logged in as `u`. -/
structure Holdings.Serves (h : Holdings) (fd : Int) (u : Option Nat) : Prop where
  user : h.user = u
  conn : h.conn = some fd
  sending : h.sending = .none
  token : ∀ a, u = some a → 0 < h.refs a

/-- Thread `t` serves connection `fd`, logged in as `u`, and is in no function of the module. -/
def Out (t : Nat) (fd : Int) (u : Option Nat) (w : World E) : Prop :=
  w.state.shared.frames t = [] ∧ (w.ghost t).Serves fd u

/-- Thread `t` has nothing to do. -/
structure Rest (t : Nat) (w : World E) : Prop where
  frames : w.state.shared.frames t = []
  user : (w.ghost t).user = none
  sending : (w.ghost t).sending = none

/-- What lasts of the table. -/
structure Lasting (v v' : Shared) : Prop where
  slots : ∀ {i a}, v.slots i = some a → v'.slots i = some a
  name : ∀ {a}, v.Stored a → v'.name a = v.name a

def callPre (W : Watch) (t : Nat) (p : Proc) (w : World E) : Prop :=
  match p with
  | .readn .. => True
  | .writen x _ rest =>
    MayWrite t (w.ghost t) x w.state.shared ∧ Ready W (w.ghost t) x rest
  | .service fd l => Out t fd l.thisTrader w

def callPost (W : Watch) (t : Nat) : (p : Proc) → World E → p.Result → World E → Prop
  | .readn .., w, _, w' =>
    w'.ghost t = w.ghost t ∧ Kept W t (w.ghost t) w.state.shared w'.state.shared
  | .writen x _ rest, w, r, w' =>
    ∃ m, w'.ghost t = { w.ghost t with sending := m } ∧
      Kept W t (w.ghost t) w.state.shared w'.state.shared ∧ (rest = [] → r ≠ -1) ∧
      ((w.ghost t).sending = none → m = none) ∧
      (W.whole → ∀ sent after, (w.ghost t).sending = some ⟨x, sent, rest ++ after⟩ →
        r ≠ -1 ∧ m = Sending.unless ⟨x, sent ++ rest, after⟩)
  | .service fd _, w, _, w' => Out t fd none w' ∧ Lasting w.state.shared w'.state.shared

def discipline (E : Exchange) (W : Watch) : Discipline (server E) Holdings where
  inv w := Inv W w.state.shared (census w.ghost)
  rely t w w' := w'.ghost t = w.ghost t ∧ Kept W t (w.ghost t) w.state.shared w'.state.shared
  rely_refl t w := ⟨rfl, .refl ..⟩
  rely_trans := by
    rintro t u v w ⟨hg, hk⟩ ⟨hg', hk'⟩
    exact ⟨hg'.trans hg, hk.trans (hg ▸ hk')⟩
  assume := Orderly W
  safe t o w := ∀ x bs, o = .write x bs → Addressed t x w.state.shared
  pre := callPre W
  post := callPost W
  idle := Rest

end Sessions

end BourseServer
