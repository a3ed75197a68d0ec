import BourseServer.Concurrency.Typestate
import BourseServer.Server.Service

/-!
# What a thread holds when it has to wait

A thread of the server can have to wait at the mutex of a trader and at a semaphore of the client
registry. The typestate `locking` says which of them it may hold there. With the mutex of a trader
it waits for no other mutex, no semaphore and no input; with the mutex of the registry for nothing
but `count_mutex`; and it waits for a slot before it has anything else.

Every function of the server follows the typestate, as long as the writes that are made in the
trader module succeed: the exit of `trader_send_packet` that keeps the mutex is not taken.
-/
namespace BourseServer

open Concurrency

namespace Op

/-- The actions that can have to wait for the outside world: for memory, for the client, or for
the exchange. -/
def patient : Op → Bool
  | .mallocTrader | .malloc _ | .uninit _ | .beyond _ | .read .. | .exchange _ => true
  | _ => false

end Op

namespace Waiting

/-- The number of active functions of the trader module, the traders whose mutexes the thread has
taken and not given back, whether it has yet to ask for a slot of the registry, whether it has
a slot and the registry's mutex, and its connection. -/
structure Held where
  inside : Nat
  mutexes : List Nat
  fresh : Bool
  slot : Bool
  registry : Bool
  fd : Option Int

namespace Held

/-- A thread that has done nothing yet. -/
def none : Held := ⟨0, [], false, false, false, .none⟩

/-- No mutex is held. -/
structure Free (h : Held) : Prop where
  mutexes : h.mutexes = []
  registry : h.registry = false

/-- No mutex is held but that of trader `a`. -/
structure Only (a : Nat) (h : Held) : Prop where
  mutexes : ∀ b ∈ h.mutexes, b = a
  registry : h.registry = false

/-- The mutex of trader `a` is taken once more. -/
def take (a : Nat) (h : Held) : Held := { h with mutexes := a :: h.mutexes }

theorem Free.only {h : Held} (hh : h.Free) (a : Nat) : h.Only a :=
  ⟨by simp [hh.mutexes], hh.registry⟩

theorem Only.take {a : Nat} {h : Held} (hh : h.Only a) : (h.take a).Only a :=
  ⟨by simpa [Held.take] using hh.mutexes, hh.registry⟩

def allow (h : Held) : Op → Prop
  | .lock a => h.Only a
  | .semWait .slots => h.Free ∧ h.fresh = true ∧ h.slot = false ∧ h.fd ≠ .none
  | .semWait .mutex => h.Free
  | .semWait .items => h.Free
  | .semPost .mutex => h.registry = true
  | .semPost .slots => h.slot = true
  | .close fd => h.fd = some fd ∧ h.slot = false
  | o => o.patient = true → h.Free

/-- A write that is made in the trader module does not fail. -/
def next (h : Held) : (o : Op) → o.Reply → Option Held
  | .enter _, _ => some { h with inside := h.inside + 1 }
  | .leave _, _ => some { h with inside := h.inside - 1 }
  | .lock a, _ => some (h.take a)
  | .unlock a, _ => some { h with mutexes := h.mutexes.erase a }
  | .write _ _, r => if r = .failed ∧ 0 < h.inside then .none else some h
  | .close _, _ => some { h with fd := .none }
  | .semWait .slots, _ => some { h with fresh := false, slot := true }
  | .semWait .mutex, _ => some { h with registry := true }
  | .semPost .mutex, _ => some { h with registry := false }
  | .semPost .slots, _ => some { h with slot := false }
  | _, _ => some h

/-- Between its programs a thread holds nothing. The exit of `creg_register` for a full registry
keeps the registry's mutex. -/
def Rests (h : Held) : Prop :=
  h.registry = true ∨ h.Free ∧ h.inside = 0 ∧ h.slot = false

end Held

/-- The loops are entered without a mutex, except for the one that sends. -/
def locking : Typestate bourse Held where
  allow := Held.allow
  next := Held.next
  pre
    | .readn .., h => h.Free
    | .writen .., _ => True
    | .service .., h => h.Free
  post p h r h' := h' = h ∧
    match p, r with
    | .writen .., r => 0 < h.inside → 0 ≤ r
    | .readn .., _ => True
    | .service .., _ => True

open Typestate

variable {P : Held → Prop} {α β : Type} {a : Nat}

/-- Code that ends with what it has begun with. -/
def Keeps (P : Held → Prop) {α : Type} (p : Code α) : Prop :=
  ∀ h, P h → locking.Follows p (fun _ h' => h' = h) h

theorem Keeps.mono {P' : Held → Prop} {p : Code α} (hp : Keeps P p) (h : ∀ y, P' y → P y) :
    Keeps P' p := fun y hy => hp y (h y hy)

theorem keeps_ret {x : α} : Keeps P (.ret x) := fun _ _ => rfl

theorem Keeps.bind {p : Code α} {f : α → Code β} (hp : Keeps P p) (hf : ∀ x, Keeps P (f x)) :
    Keeps P (p >>= f) := by
  intro h hh
  refine (hp h hh).bind ?_
  rintro x _ rfl
  exact hf x _ hh

/-- The actions that change nothing of what a thread holds. -/
def quiet : Op → Bool
  | .enter _ | .leave _ | .lock _ | .unlock _ | .write .. | .close _ => false
  | .semWait _ | .semPost _ => false
  | _ => true

theorem next_quiet {o : Op} (ho : quiet o = true) (h : Held) (r : o.Reply) :
    h.next o r = some h := by
  cases o <;> first | rfl | cases ho

theorem keeps_act {o : Op} (ho : quiet o = true) (hp : ∀ h, P h → o.patient = true → h.Free) :
    Keeps P (.act (I := bourse) o) := by
  intro h hh
  have hallow : h.allow o := by
    cases o <;> first | exact hp h hh | cases ho
  refine follows_act hallow fun r h' hn => ?_
  exact (Option.some.inj ((next_quiet ho h r).symm.trans hn)).symm

/-- An action that waits for nothing. -/
theorem keeps_step {o : Op} (ho : quiet o = true) (hp : o.patient = false) :
    Keeps P (.act (I := bourse) o) :=
  keeps_act ho fun _ _ h => by simp [hp] at h

/-- Any quiet action, without a mutex. -/
theorem keeps_free {o : Op} (ho : quiet o = true) : Keeps Held.Free (.act (I := bourse) o) :=
  keeps_act ho fun _ h _ => h

theorem keeps_search {n : Nat} {body : Nat → Code (Option α)} (h : ∀ i, Keeps P (body i)) :
    Keeps P (.search n body) := by
  intro y hy
  refine follows_search (A := fun y' => y' = y) rfl ?_ fun _ hA => hA
  rintro j _ rfl
  refine (h j _ hy).mono fun r y' hr => ?_
  cases r <;> exact hr

theorem keeps_deref {p : Option Nat} : Keeps P (deref p) := by
  cases p with
  | some a => exact keeps_ret
  | none => exact fun _ _ => ⟨(fun hp => by cases hp), fun r => nomatch r⟩

/-- A function of the trader module. -/
theorem Keeps.scope {c : Call} {value : α → Value} {p : Code α}
    (hP : ∀ h n, P h → P { h with inside := n })
    (hp : Keeps (fun h => P h ∧ 0 < h.inside) p) : Keeps P (scope c value p) := by
  intro h hh
  refine follows_step _ (fun hp => by cases hp) (fun _ => rfl) fun _ => ?_
  refine (hp { h with inside := h.inside + 1 } ⟨hP h _ hh, Nat.succ_pos _⟩).bind ?_
  rintro x _ rfl
  exact follows_step h (fun hp => by cases hp) (fun _ => rfl) fun _ => rfl

/-- A thread in the trader module with no other mutex than that of trader `a`. -/
structure Inside (a : Nat) (h : Held) : Prop where
  only : h.Only a
  inside : 0 < h.inside

/-- Code that has taken the mutex of trader `a` and gives it back. -/
def Gives (a : Nat) {α : Type} (p : Code α) : Prop :=
  ∀ h, Inside a h → locking.Follows p (fun _ h' => h' = h) (h.take a)

theorem Gives.bind {p : Code α} {f : α → Code β} (hp : Keeps (Inside a) p)
    (hf : ∀ x, Gives a (f x)) : Gives a (p >>= f) := by
  intro h hh
  refine (hp (h.take a) ⟨hh.only.take, hh.inside⟩).bind ?_
  rintro x _ rfl
  exact hf x h hh

theorem gives_unlock {x : α} : Gives a (unlock a >>= fun _ => .ret x) := by
  intro h _
  refine follows_step h (fun hp => by cases hp) (fun _ => ?_) fun _ => rfl
  change some { h with mutexes := (a :: h.mutexes).erase a } = some h
  rw [List.erase_cons_head]

theorem gives_last : Gives a (unlock a) := gives_unlock (x := ())

/-- A function that takes the mutex of its trader first. -/
theorem keeps_locked {c : Call} {value : α → Value} {p : Code α} (hp : Gives a p) :
    Keeps (Held.Only a) (scope c value (lock a >>= fun _ => p)) := by
  refine Keeps.scope (fun _ _ hh => ⟨hh.mutexes, hh.registry⟩) fun h hh => ?_
  exact follows_step (h.take a) hh.1 (fun _ => rfl) fun _ => hp h ⟨hh.1, hh.2⟩

theorem Keeps.of_only {p : Code α} (hp : Keeps (Held.Only a) p) : Keeps Held.Free p :=
  hp.mono fun _ h => h.only a

/-- The same for functions of the trader module that take no mutex of their own. -/
theorem Keeps.scope_free {c : Call} {value : α → Value} {p : Code α} (hp : Keeps Held.Free p) :
    Keeps Held.Free (BourseServer.scope c value p) :=
  .scope (fun _ _ hh => ⟨hh.mutexes, hh.registry⟩) (hp.mono fun _ hh => hh.1)

end Waiting

end BourseServer
