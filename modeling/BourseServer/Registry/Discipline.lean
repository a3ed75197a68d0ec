import BourseServer.Registry.Tokens
import BourseServer.Server.Process

/-!
# The registry among threads

The discipline of all threads that use the client registry. Between any two steps the registry
is balanced, a thread that has a slot uses its descriptor, and the recorded holder of the mutex
is the thread in the critical section. A thread relies on the others for what only it may
change, and in the critical section for `fds` and `count`.

What is to be shown of the registry differs: of runs of registry calls only, or of runs of the
server's own threads; and of runs whose steps meet one of the conditions under which a shutdown
is clean. `Watch` says which of these runs are looked at.
-/
namespace BourseServer

open Concurrency

variable {E : Exchange}

/-- The two fields of the registry that are guarded by its mutex. -/
structure Table where
  fds : Nat → Int
  count : Int

def ClientRegistry.table (r : ClientRegistry) : Table := ⟨r.fds, r.count⟩

namespace Process

/-- The connection is open, and reading from it was shut down. -/
def ShutDown (d : Process E) (fd : Int) : Prop :=
  ∃ c, d.server.conns fd = some c ∧ c.shut = true

/-- An entry of `fds` that is in use. -/
def Entry (d : Process E) (fd : Int) : Prop :=
  fd ≠ -1 ∧ ∃ i, i < d.server.registry.n ∧ d.server.registry.fds i = fd

/-- Neither block of the registry is freed. -/
def Intact (d : Process E) : Prop := ∀ b, d.freed b = false

end Process

namespace Registry

/-- The runs under consideration. -/
structure Watch where
  /-- The server's own threads run; otherwise other threads call the registry. -/
  servers : Prop
  /-- `creg_wait_for_empty` is called. -/
  waiting : Prop
  /-- Nobody registers after the sweep. -/
  late : Prop
  /-- The registry is freed when nobody needs it any more. -/
  early : Prop
  /-- The signal interrupts a thread that neither holds the mutex nor is registered. -/
  aside : Prop
  waiting_of_servers : servers → waiting
  servers_of_late : late → servers
  servers_of_early : early → servers

abbrev World (E : Exchange) : Type := Concurrency.World (mainSystem E) Tokens

structure Inv (W : Watch) (w : World E) : Prop where
  balanced : Balanced w.state.server.registry w.state.waits w.ghost
  waited : ¬ W.waiting → w.state.waits = 0
  user : ∀ t, (w.ghost t).slot = true → w.state.users (w.ghost t).fd = some t
  holder : ∀ t, w.state.holder = some t ↔ (w.ghost t).crit = true
  window : ¬ W.servers → ∀ t, (w.ghost t).stored = true → (w.ghost t).opened = false →
    w.state.calls t = some (.register (w.ghost t).fd)
  open_of_user : W.servers → ∀ fd t, w.state.users fd = some t → w.state.server.conns fd ≠ none
  shut : W.late → w.state.swept = true → ∀ fd, w.state.Entry fd → w.state.ShutDown fd
  intact : w.state.signal = none → w.state.Intact
  freed : W.early → ¬ w.state.Intact →
    w.state.server.registry.sem .slots = w.state.server.registry.n ∧
      ∀ t, w.state.expected t = false
  aside : W.aside → ∀ t h, w.state.signal = some (.service t, h) →
    (w.ghost t).crit = false ∧ (w.ghost t).stored = false

/-- What thread `t` knows to be left alone by the other threads. -/
structure Rely (t : Nat) (w w' : World E) : Prop where
  ghost : w'.ghost t = w.ghost t
  size : w'.state.server.registry.n = w.state.server.registry.n
  table : (w.ghost t).crit = true →
    w'.state.server.registry.table = w.state.server.registry.table
  users : ∀ fd, w'.state.users fd = some t ↔ w.state.users fd = some t
  calls : w'.state.calls t = w.state.calls t
  expected : w'.state.expected t = w.state.expected t
  signal : ∀ p, w.state.signal = some p → w'.state.signal = some p
  freed : ∀ v, w.state.signal = some (v, t) → w'.state.freed = w.state.freed
  shut : (w.ghost t).crit = true → ∀ fd, w.state.Entry fd → w.state.ShutDown fd →
    w'.state.ShutDown fd

namespace Rely

variable {t : Nat} {u v w : World E}

theorem refl (t : Nat) (w : World E) : Rely t w w :=
  ⟨rfl, rfl, fun _ => rfl, fun _ => .rfl, rfl, rfl, fun _ h => h, fun _ _ => rfl,
    fun _ _ _ h => h⟩

theorem entry (h : Rely t u v) (hin : (u.ghost t).crit = true) {fd : Int} :
    v.state.Entry fd ↔ u.state.Entry fd := by
  have htable := congrArg Table.fds (h.table hin)
  change v.state.server.registry.fds = u.state.server.registry.fds at htable
  unfold Process.Entry
  rw [h.size, htable]

theorem trans (h : Rely t u v) (h' : Rely t v w) : Rely t u w where
  ghost := h'.ghost.trans h.ghost
  size := h'.size.trans h.size
  table hin := (h'.table (by rw [h.ghost, hin])).trans (h.table hin)
  users fd := (h'.users fd).trans (h.users fd)
  calls := h'.calls.trans h.calls
  expected := h'.expected.trans h.expected
  signal p hp := h'.signal p (h.signal p hp)
  freed v hv := (h'.freed v (h.signal _ hv)).trans (h.freed v hv)
  shut hin fd hfd hs :=
    h'.shut (by rw [h.ghost, hin]) fd ((h.entry hin).mpr hfd) (h.shut hin fd hfd hs)

end Rely

/-- What thread `t` holds, the descriptor it uses, the call it is in, and whether it has yet to
begin to register. -/
structure Knows (t : Nat) (g : Tokens) (fd : Option Int) (c : Option RegistryCall) (b : Bool)
    (w : World E) : Prop where
  ghost : w.ghost t = g
  users : ∀ fd', w.state.users fd' = some t ↔ fd = some fd'
  calls : w.state.calls t = c
  expected : w.state.expected t = b

/-- The facts of `Knows` are the same in both worlds. -/
structure Local (t : Nat) (w w' : World E) : Prop where
  ghost : w'.ghost t = w.ghost t
  users : ∀ fd, w'.state.users fd = some t ↔ w.state.users fd = some t
  calls : w'.state.calls t = w.state.calls t
  expected : w'.state.expected t = w.state.expected t

/-- Thread `t` runs the handler, which has not freed the registry. -/
def Alive (t : Nat) (w : World E) : Prop :=
  (∃ v, w.state.signal = some (v, t)) ∧ w.state.Intact

/-- Outside of all calls, a thread has nothing or is a registered client. -/
def Idle (W : Watch) (t : Nat) (w : World E) : Prop :=
  Knows t .none none none false w ∨
    ¬ W.servers ∧ ∃ fd, Knows t (.resting fd) (some fd) none false w

/-- What is to be shown of a thread that is about to act. -/
structure Safe (W : Watch) (t : Nat) (o : process.Op) (d : Process E) : Prop where
  intact : W.early → ∀ o', o = .inl o' → o'.ofRegistry = true → d.Intact
  items : o = .inl (.semWait .items) → 0 < d.server.registry.sem .items
  countMutex : o = .inl (.semWait .countMutex) → ¬ (W.waiting ∧ d.calls t = some .waitForEmpty) →
    d.server.registry.sem .countMutex + d.waits = 1
  result : ∀ c v, o = .inr (.ended c v) → v ≠ .int (-1)

/-- The steps of the runs under consideration. -/
structure Assume (W : Watch) (o : process.Op) (d : Process E) : Prop where
  late : W.late → ∀ i fd, o = .inl (.setRegFd i fd) → fd ≠ -1 → d.swept = false
  early : W.early → ∀ b, o = .inr (.free b) →
    d.server.registry.sem .slots = d.server.registry.n ∧ ∀ t, d.expected t = false

/-- The starts of the runs under consideration. A thread that calls the registry registers one
descriptor at a time, which nobody uses, and unregisters the one it has registered. -/
structure Allow (W : Watch) (t : Nat) (q : Process.Request) (d : Process E) : Prop where
  register : ∀ fd, q = .call (.register fd) →
    0 ≤ fd ∧ d.users fd = none ∧ ∀ fd', d.users fd' ≠ some t
  unregister : ∀ fd, q = .call (.unregister fd) → d.users fd = some t
  servers : W.servers ↔ ∀ c, q ≠ .call c
  waiting : q = .call .waitForEmpty → W.waiting
  early : W.early → ∀ fd input ended, q = .server (.accept fd input ended) → d.Intact
  aside : W.aside → ∀ u, q = .signal (.service u) →
    d.holder ≠ some u ∧ ∀ fd, d.Entry fd → d.users fd ≠ some u

def discipline (E : Exchange) (W : Watch) : Discipline (mainSystem E) Tokens where
  inv := Inv W
  rely := Rely
  rely_refl := Rely.refl
  rely_trans := Rely.trans
  assume _ o _ := Assume W o
  safe t o w := Safe W t o w.state
  pre t _ w := (w.ghost t).stored = true → (w.ghost t).opened = true
  post t _ w _ w' := Local t w w'
  idle := Idle W

end Registry

end BourseServer
