import BourseServer.Trader.Effects

/-!
# Traders that are freed

A function that brings a reference count to zero frees the trader, and then still stores into its
record. As long as the memory is not in use again, these stores have no effect. `heap` is the
machine in which they can be made; it also records which traders have been freed.

The roster is what the functions of the trader module work on. Since a thread that is alone holds
every mutex that is locked, a mutex is represented by the number of times it is locked.
-/
namespace BourseServer

open Concurrency

variable {E : Exchange}

/-! ## The machine -/

/-- The process, and the traders that have been freed, newest first. -/
structure Heap (E : Exchange) where
  state : State E
  freed : List Nat

namespace Heap

/-- An action on the process. -/
def lift (t : Nat) (o : Op) (e : Choice E) (h : Heap E) : Outcome o.Reply (Heap E) :=
  (BourseServer.exec t o e h.state).map fun s => { h with state := s }

def exec (t : Nat) : (o : Op) → Choice E → Heap E → Outcome o.Reply (Heap E)
  | .unlock a, e, h =>
    match h.state.traders a with
    | none => .done () h
    | some _ => h.lift t (.unlock a) e
  | .store .fd a v, e, h =>
    match h.state.traders a with
    | none => .done () { h with state := { h.state with hist := h.state.hist.store t a .fd v } }
    | some _ => h.lift t (.store .fd a v) e
  | .freeTrader a, e, h =>
    (BourseServer.exec t (.freeTrader a) e h.state).map fun s => ⟨s, a :: h.freed⟩
  | o, e, h => h.lift t o e

end Heap

/-- The machine in which a record that has been freed can be unlocked and its descriptor stored. -/
@[reducible] def heap (E : Exchange) : Machine bourse where
  State := Heap E
  Choice := Choice E
  exec := Heap.exec
  body := body

namespace Heap

variable {t : Nat} {o : Op} {e : Choice E} {h h' : Heap E} {r : o.Reply}

theorem lift_done (hd : h.lift t o e = .done r h') :
    BourseServer.exec t o e h.state = .done r h'.state ∧ h'.freed = h.freed := by
  obtain ⟨s, hs, rfl⟩ := Outcome.map_eq_done.mp hd
  exact ⟨hs, rfl⟩

/-- What the process can do, it can do here. -/
theorem exec_of_exec {s s' : State E} (hd : BourseServer.exec t o e s = .done r s')
    (l : List Nat) : ∃ l', exec t o e ⟨s, l⟩ = .done r ⟨s', l'⟩ := by
  have hlift : lift t o e ⟨s, l⟩ = .done r ⟨s', l⟩ := by
    simp [lift, hd, Outcome.map]
  cases o with
  | unlock a =>
    obtain ⟨tr, htr, _⟩ := exec_unlock hd
    exact ⟨l, by simpa [exec, htr] using hlift⟩
  | store f a v =>
    obtain ⟨tr, htr, _⟩ := exec_store hd
    cases f with
    | fd => exact ⟨l, by simpa [exec, htr] using hlift⟩
    | _ => exact ⟨l, hlift⟩
  | freeTrader a => exact ⟨a :: l, by simp [exec, hd, Outcome.map]⟩
  | _ => exact ⟨l, hlift⟩

/-- A run of the process is a run here. -/
theorem runs_of_runs {α : Type} {ok : Condition (machine E)} {p : Prog bourse α}
    {s s' : (machine E).State} {x : α}
    (hr : Runs (machine E) ok t p s x s') (l : List Nat) :
    ∃ l', Runs (heap E) (fun o e h => ok o e h.state) t p ⟨s, l⟩ x ⟨s', l'⟩ := by
  induction hr generalizing l with
  | ret x s => exact ⟨l, .ret x _⟩
  | op he hok _ ih =>
    obtain ⟨l₁, he₁⟩ := exec_of_exec he l
    obtain ⟨l₂, hk⟩ := ih l₁
    exact ⟨l₂, .op he₁ hok hk⟩
  | call _ _ ihb ihk =>
    obtain ⟨l₁, hb⟩ := ihb l
    obtain ⟨l₂, hk⟩ := ihk l₁
    exact ⟨l₂, .call hb hk⟩

end Heap

/-! ## The roster -/

/-- A trader: how often its mutex is locked, unless that is garbage. -/
structure Item where
  ref : Int
  name : CString
  held : Option Nat
  deriving DecidableEq

/-- The mutex is held `n` times by thread `t`, or it holds garbage without an owner. -/
def Mutex.Shows (t : Nat) (m : Mutex) : Option Nat → Prop
  | some n => m.depth = n ∧ (n ≠ 0 → m.owner = some t)
  | none => m.owner = none

structure Trader.Shows (t : Nat) (tr : Trader) (it : Item) : Prop where
  ref : tr.ref = it.ref
  name : tr.name = it.name
  mutex : tr.mutex.Shows t it.held

structure Roster where
  items : Nat → Option Item
  slots : Nat → Option Nat
  count : Nat
  blocks : List Nat
  freed : List Nat

namespace Roster

def setItem (d : Roster) (a : Nat) (it : Item) : Roster :=
  { d with items := Function.update d.items a (some it) }

@[simp] theorem setItem_self (d : Roster) (a : Nat) (it : Item) :
    (d.setItem a it).items a = some it := Function.update_self ..

@[simp] theorem setItem_setItem (d : Roster) (a : Nat) (it it' : Item) :
    (d.setItem a it).setItem a it' = d.setItem a it' := by
  simp [setItem]

theorem setItem_eq {d : Roster} {a : Nat} {it : Item} (h : d.items a = some it) :
    d.setItem a it = d := by
  unfold setItem
  rw [Function.update_eq_self_iff.mpr h.symm]

theorem setItem_of_ne (d : Roster) {a b : Nat} (it : Item) (h : b ≠ a) :
    (d.setItem a it).items b = d.items b := Function.update_of_ne h ..

/-- The trader is gone. -/
def remove (d : Roster) (a i : Nat) (block : Nat) : Roster where
  items := Function.update d.items a none
  slots := Function.update d.slots i none
  count := d.count
  blocks := d.blocks.erase block
  freed := a :: d.freed

end Roster

/-- The roster shows the heap, as thread `t` finds it. -/
structure Heap.Shows (t : Nat) (h : Heap E) (d : Roster) : Prop where
  items : ∀ a, Option.Rel (Trader.Shows t) (h.state.traders a) (d.items a)
  slots : h.state.allTraders = d.slots
  count : h.state.count = d.count
  blocks : h.state.blocks = d.blocks
  freed : h.freed = d.freed

/-! ## Specifications -/

/-- A new trader's memory holds 0 where its reference count will be. -/
def zeroHeap : Condition (heap E) := fun _ e _ => ∀ a junk, e = .trader a junk → junk.ref = 0

/-- What the code `p` of thread `t` comes to with roster `d`. -/
def Yields (E : Exchange) (t : Nat) {α : Type} (p : Code α) (d : Roster)
    (R : α → Roster → Prop) : Prop :=
  ∀ h : Heap E, h.Shows t d →
    Partial (heap E) zeroHeap t p (fun r h' => ∃ d', Heap.Shows t h' d' ∧ R r d') h

section items

variable {t a : Nat} {h : Heap E} {d : Roster}

theorem Heap.Shows.item {tr : Trader} (hs : h.Shows t d) (htr : h.state.traders a = some tr) :
    ∃ it, d.items a = some it ∧ tr.Shows t it := by
  have hrel := hs.items a
  rw [htr] at hrel
  cases hit : d.items a with
  | none =>
    rw [hit] at hrel
    cases hrel
  | some it =>
    rw [hit] at hrel
    cases hrel with
    | some hshows => exact ⟨it, rfl, hshows⟩

theorem Heap.Shows.trader {it : Item} (hs : h.Shows t d) (hit : d.items a = some it) :
    ∃ tr, h.state.traders a = some tr ∧ tr.Shows t it := by
  have hrel := hs.items a
  rw [hit] at hrel
  cases htr : h.state.traders a with
  | none =>
    rw [htr] at hrel
    cases hrel
  | some tr =>
    rw [htr] at hrel
    cases hrel with
    | some hshows => exact ⟨tr, rfl, hshows⟩

theorem Heap.Shows.none_iff (hs : h.Shows t d) :
    h.state.traders a = none ↔ d.items a = none := by
  constructor
  · intro hnone
    by_contra hsome
    obtain ⟨it, hit⟩ := Option.ne_none_iff_exists'.mp hsome
    obtain ⟨tr, htr, _⟩ := hs.trader hit
    cases hnone.symm.trans htr
  · intro hnone
    by_contra hsome
    obtain ⟨tr, htr⟩ := Option.ne_none_iff_exists'.mp hsome
    obtain ⟨it, hit, _⟩ := hs.item htr
    cases hnone.symm.trans hit

/-- The record of a trader and its item are replaced. -/
theorem Heap.Shows.setItem {tr : Trader} {it : Item} (hs : h.Shows t d) (hshows : tr.Shows t it)
    (hist : History) :
    Heap.Shows t { h with state := { h.state.setTrader a (some tr) with hist := hist } }
      (d.setItem a it) where
  items b := by
    by_cases hb : b = a
    · subst hb
      simpa [State.setTrader] using Option.Rel.some hshows
    · have hrel := hs.items b
      rw [Roster.setItem_of_ne d it hb]
      simpa [State.setTrader, hb] using hrel
  slots := hs.slots
  count := hs.count
  blocks := hs.blocks
  freed := hs.freed

end items

namespace Yields

variable {α β : Type} {t a : Nat} {d : Roster}

theorem ret {x : α} {R : α → Roster → Prop} (hR : R x d) : Yields E t (.ret x) d R :=
  fun _ hs => Partial.ret ⟨d, hs, hR⟩

theorem mono {p : Code α} {R R' : α → Roster → Prop} (hp : Yields E t p d R)
    (hR : ∀ x d', R x d' → R' x d') : Yields E t p d R' := by
  intro h hs
  refine (hp h hs).mono ?_
  rintro x h' ⟨d', hs', hx⟩
  exact ⟨d', hs', hR x d' hx⟩

theorem bind {p : Code α} {f : α → Code β} {R : β → Roster → Prop}
    (hp : Yields E t p d fun x d' => Yields E t (f x) d' R) : Yields E t (p >>= f) d R := by
  intro h hs
  apply Partial.bind
  refine (hp h hs).mono ?_
  rintro x h' ⟨d', hs', hf⟩
  exact hf h' hs'

/-- An action other than an unlocking, a removal and the storing of a descriptor. -/
theorem act {o : Op} {R : o.Reply → Roster → Prop}
    (hlift : ∀ (e : Choice E) (h : Heap E), Heap.exec t o e h = h.lift t o e)
    (hR : ∀ (h : Heap E) e r s', h.Shows t d → BourseServer.exec t o e h.state = .done r s' →
      zeroHeap o e h → ∃ d', Heap.Shows t { h with state := s' } d' ∧ R r d') :
    Yields E t (.act (I := bourse) o) d R := by
  intro h hs
  apply Partial.act
  intro e r h' he hok
  obtain ⟨hexec, hfreed⟩ := Heap.lift_done ((hlift e h).symm.trans he)
  obtain ⟨d', hs', hr⟩ := hR h e r _ hs hexec hok
  refine ⟨d', ?_, hr⟩
  rw [← hfreed] at hs'
  exact hs'

theorem enter {c : Call} {R : Unit → Roster → Prop} (hR : R () d) :
    Yields E t (BourseServer.enter c) d R :=
  act (fun _ _ => rfl) fun h e r s' hs he _ => by
    cases he
    exact ⟨d, ⟨hs.items, hs.slots, hs.count, hs.blocks, hs.freed⟩, hR⟩

theorem leave {v : Value} {R : Unit → Roster → Prop} (hR : R () d) :
    Yields E t (BourseServer.leave v) d R :=
  act (fun _ _ => rfl) fun h e r s' hs he _ => by
    cases he
    exact ⟨d, ⟨hs.items, hs.slots, hs.count, hs.blocks, hs.freed⟩, hR⟩

theorem scope {c : Call} {value : α → Value} {p : Code α} {R : α → Roster → Prop}
    (hp : Yields E t p d R) : Yields E t (scope c value p) d R := by
  refine bind (enter (bind ?_))
  intro h hs
  refine (hp h hs).mono ?_
  rintro x h' ⟨d', hs', hR⟩
  exact ⟨d', hs', bind (leave (ret hR))⟩

/-- An action on the record of a trader. -/
theorem record {o : Op} {R : o.Reply → Roster → Prop}
    (hlift : ∀ (e : Choice E) (h : Heap E), Heap.exec t o e h = h.lift t o e)
    (hexec : ∀ (s : State E) e r s', BourseServer.exec t o e s = .done r s' → ∃ tr tr' hist,
      s.traders a = some tr ∧ s' = { s.setTrader a (some tr') with hist := hist } ∧
        ∀ it, tr.Shows t it → ∃ it', tr'.Shows t it' ∧
          (d.items a = some it → R r (d.setItem a it'))) :
    Yields E t (.act (I := bourse) o) d R := by
  refine act hlift fun h e r s' hs he _ => ?_
  obtain ⟨tr, tr', hist, htr, rfl, hit⟩ := hexec h.state e r s' he
  obtain ⟨it, hitem, hshows⟩ := hs.item htr
  obtain ⟨it', hshows', hR⟩ := hit it hshows
  exact ⟨d.setItem a it', hs.setItem hshows' hist, hR hitem⟩

theorem lock {R : Unit → Roster → Prop} (hR : ∀ it, d.items a = some it →
      R () (d.setItem a { it with held := some (it.held.getD 0 + 1) })) :
    Yields E t (lock a) d R := by
  refine record (a := a) (fun _ _ => rfl) fun s e r s' he => ?_
  obtain ⟨tr, m, htr, hm, rfl⟩ := exec_lock he
  refine ⟨tr, { tr with mutex := m }, _, htr, rfl, fun it hit => ?_⟩
  refine ⟨{ it with held := some (it.held.getD 0 + 1) }, ⟨hit.ref, hit.name, ?_⟩, hR it⟩
  have hshows := hit.mutex
  unfold Mutex.lock at hm
  split_ifs at hm with hfree hown
  · cases hm
    cases hheld : it.held with
    | none => exact ⟨rfl, fun _ => rfl⟩
    | some n =>
      rw [hheld] at hshows
      have hn : n = 0 := hshows.1.symm.trans hfree
      subst hn
      exact ⟨rfl, fun _ => rfl⟩
  · cases hm
    cases hheld : it.held with
    | none =>
      rw [hheld] at hshows
      cases hshows.symm.trans hown
    | some n =>
      rw [hheld] at hshows
      exact ⟨congrArg (· + 1) hshows.1, fun _ => hown⟩

theorem mutexInit {R : Unit → Roster → Prop} (hR : ∀ it, d.items a = some it →
      R () (d.setItem a { it with held := some 0 })) :
    Yields E t (mutexInit a) d R := by
  refine record (a := a) (fun _ _ => rfl) fun s e r s' he => ?_
  obtain ⟨tr, htr, rfl⟩ := exec_mutexInit he
  refine ⟨tr, { tr with mutex := .fresh }, s.hist, htr, rfl, fun it hit => ?_⟩
  refine ⟨{ it with held := some 0 }, ⟨hit.ref, hit.name, ?_⟩, hR it⟩
  exact ⟨rfl, fun h => absurd rfl h⟩

/-- The part of a record that the roster does not show is stored. -/
theorem storeAsset {x : Asset} {v : UInt32} {R : Unit → Roster → Prop} (hR : R () d) :
    Yields E t (storeAsset x a v) d R := by
  have hsame : ∀ it, d.items a = some it → R () (d.setItem a it) := by
    intro it hit
    rwa [Roster.setItem_eq hit]
  cases x with
  | balance =>
    refine record (o := .store .balance a v) (a := a) (fun _ _ => rfl) fun s e r s' he => ?_
    obtain ⟨tr, htr, rfl⟩ := exec_store he
    exact ⟨tr, _, _, htr, rfl, fun it hit => ⟨it, ⟨hit.ref, hit.name, hit.mutex⟩, hsame it⟩⟩
  | inventory =>
    refine record (o := .store .inventory a v) (a := a) (fun _ _ => rfl) fun s e r s' he => ?_
    obtain ⟨tr, htr, rfl⟩ := exec_store he
    exact ⟨tr, _, _, htr, rfl, fun it hit => ⟨it, ⟨hit.ref, hit.name, hit.mutex⟩, hsame it⟩⟩

theorem storeRef {v : Int} {R : Unit → Roster → Prop} (hR : ∀ it, d.items a = some it →
      R () (d.setItem a { it with ref := v })) :
    Yields E t (store .ref a v) d R := by
  refine record (o := .store .ref a v) (a := a) (fun _ _ => rfl) fun s e r s' he => ?_
  obtain ⟨tr, htr, rfl⟩ := exec_store he
  exact ⟨tr, _, _, htr, rfl, fun it hit =>
    ⟨{ it with ref := v }, ⟨rfl, hit.name, hit.mutex⟩, hR it⟩⟩

theorem storeName {v : CString} {R : Unit → Roster → Prop} (hR : ∀ it, d.items a = some it →
      R () (d.setItem a { it with name := v })) :
    Yields E t (store .name a v) d R := by
  refine record (o := .store .name a v) (a := a) (fun _ _ => rfl) fun s e r s' he => ?_
  obtain ⟨tr, htr, rfl⟩ := exec_store he
  exact ⟨tr, _, _, htr, rfl, fun it hit =>
    ⟨{ it with name := v }, ⟨hit.ref, rfl, hit.mutex⟩, hR it⟩⟩

theorem load {f : Field} {R : f.Ty → Roster → Prop}
    (hR : ∀ (tr : Trader) it, d.items a = some it → tr.Shows t it → R (tr.get f) d) :
    Yields E t (BourseServer.load f a) d R := by
  refine act (fun _ _ => rfl) fun h e r s' hs he _ => ?_
  obtain ⟨tr, htr, rfl, rfl⟩ := exec_load he
  obtain ⟨it, hit, hshows⟩ := hs.item htr
  exact ⟨d, hs, hR tr it hit hshows⟩

theorem loadRef {R : Int → Roster → Prop} (hR : ∀ it, d.items a = some it → R it.ref d) :
    Yields E t (BourseServer.load .ref a) d R :=
  load (f := .ref) fun tr it hit hshows => by
    have href : tr.get .ref = it.ref := hshows.ref
    rw [href]
    exact hR it hit

theorem loadName {R : CString → Roster → Prop} (hR : ∀ it, d.items a = some it → R it.name d) :
    Yields E t (BourseServer.load .name a) d R :=
  load (f := .name) fun tr it hit hshows => by
    have hname : tr.get .name = it.name := hshows.name
    rw [hname]
    exact hR it hit

theorem unlock {R : Unit → Roster → Prop}
    (hlive : ∀ it, d.items a = some it → ∃ n, it.held = some n ∧
      R () (d.setItem a { it with held := some (n - 1) }))
    (hgone : d.items a = none → R () d) : Yields E t (unlock a) d R := by
  intro h hs
  apply Partial.act
  intro e r h' he _
  cases htr : h.state.traders a with
  | none =>
    simp only [Heap.exec, htr] at he
    cases he
    exact ⟨d, hs, hgone (hs.none_iff.mp htr)⟩
  | some tr =>
    simp only [Heap.exec, htr] at he
    obtain ⟨hexec, hfreed⟩ := Heap.lift_done he
    obtain ⟨tr', htr', hstate⟩ := exec_unlock hexec
    obtain rfl := Option.some.inj (htr.symm.trans htr')
    obtain ⟨it, hit, hshows⟩ := hs.item htr
    obtain ⟨n, hheld, hR⟩ := hlive it hit
    refine ⟨_, ?_, hR⟩
    have hmutex := hshows.mutex
    rw [hheld] at hmutex
    have hshows' : Trader.Shows t { tr with mutex := tr.mutex.unlock t }
        { it with held := some (n - 1) } := by
      refine ⟨hshows.ref, hshows.name, ?_⟩
      obtain ⟨hdepth, howner⟩ := hmutex
      unfold Mutex.unlock
      by_cases hn : n = 0
      · subst hn
        split_ifs
        · exact ⟨rfl, fun h => absurd rfl h⟩
        · omega
        · exact ⟨hdepth, fun h => absurd rfl h⟩
      · rw [if_pos (howner hn)]
        split_ifs with hone
        · exact ⟨by dsimp only; omega, fun h => absurd (by omega) h⟩
        · exact ⟨by dsimp only; omega, fun _ => howner hn⟩
    have hset := hs.setItem (a := a) hshows' h.state.hist
    obtain ⟨state, freed⟩ := h'
    dsimp only at hstate hfreed
    subst hstate hfreed
    exact hset

/-- A descriptor is not part of the roster. -/
theorem storeFd {v : Int} {R : Unit → Roster → Prop} (hR : R () d) :
    Yields E t (store .fd a v) d R := by
  intro h hs
  apply Partial.act
  intro e r h' he _
  cases htr : h.state.traders a with
  | none =>
    simp only [Heap.exec, htr] at he
    cases he
    exact ⟨d, ⟨hs.items, hs.slots, hs.count, hs.blocks, hs.freed⟩, hR⟩
  | some tr =>
    simp only [Heap.exec, htr] at he
    obtain ⟨hexec, hfreed⟩ := Heap.lift_done he
    obtain ⟨tr', htr', hstate⟩ := exec_store hexec
    obtain rfl := Option.some.inj (htr.symm.trans htr')
    obtain ⟨it, hit, hshows⟩ := hs.item htr
    have hshows' : Trader.Shows t (tr.set .fd v) it := ⟨hshows.ref, hshows.name, hshows.mutex⟩
    have hset := hs.setItem (a := a) hshows' (h.state.hist.store t a .fd v)
    rw [Roster.setItem_eq hit] at hset
    obtain ⟨state, freed⟩ := h'
    dsimp only at hstate hfreed
    subst hstate hfreed
    exact ⟨d, hset, hR⟩

theorem freeTrader {R : Unit → Roster → Prop}
    (hR : R () { d with items := Function.update d.items a none, freed := a :: d.freed }) :
    Yields E t (freeTrader a) d R := by
  intro h hs
  apply Partial.act
  intro e r h' he _
  obtain ⟨s, hexec, rfl⟩ := Outcome.map_eq_done.mp he
  obtain ⟨tr, htr, rfl⟩ := exec_freeTrader hexec
  refine ⟨_, ?_, hR⟩
  constructor
  case items =>
    intro b
    by_cases hb : b = a
    · subst hb
      simp [State.setTrader]
    · simpa [State.setTrader, hb] using hs.items b
  case freed => exact congrArg (a :: ·) hs.freed
  case slots => exact hs.slots
  case count => exact hs.count
  case blocks => exact hs.blocks

theorem free {p : Option Nat} {R : Unit → Roster → Prop}
    (hR : ∀ b, p = some b → b ∈ d.blocks → R () { d with blocks := d.blocks.erase b }) :
    Yields E t (free p) d R := by
  refine act (fun _ _ => rfl) fun h e r s' hs he _ => ?_
  cases p with
  | none => cases he
  | some b =>
    simp only [BourseServer.exec] at he
    split_ifs at he with hb
    cases he
    rw [hs.blocks] at hb
    refine ⟨{ d with blocks := d.blocks.erase b }, ?_, hR b rfl hb⟩
    exact ⟨hs.items, hs.slots, hs.count, congrArg (·.erase b) hs.blocks, hs.freed⟩

theorem malloc {n : Nat} {R : Nat × List UInt8 → Roster → Prop}
    (hR : ∀ b junk, b ∉ d.blocks → R (b, junk) { d with blocks := b :: d.blocks }) :
    Yields E t (malloc n) d R := by
  refine act (fun _ _ => rfl) fun h e r s' hs he _ => ?_
  simp only [BourseServer.exec, execMalloc] at he
  split at he
  · split_ifs at he with hb
    cases he
    rw [hs.blocks] at hb
    refine ⟨_, ?_, hR _ _ hb.1⟩
    exact ⟨hs.items, hs.slots, hs.count, congrArg (_ :: ·) hs.blocks, hs.freed⟩
  · cases he

theorem mallocTrader {R : Nat → Roster → Prop}
    (hR : ∀ b it, d.items b = none → it.ref = 0 → R b (d.setItem b it)) :
    Yields E t mallocTrader d R := by
  refine act (fun _ _ => rfl) fun h e b s' hs he hok => ?_
  obtain ⟨junk, hchoice, hb, rfl⟩ := exec_mallocTrader he
  have hshows : Trader.Shows t { junk with mutex := ⟨false, none, junk.mutex.depth⟩ }
      ⟨0, junk.name, none⟩ := ⟨hok b junk hchoice, rfl, rfl⟩
  exact ⟨_, hs.setItem hshows h.state.hist, hR b _ (hs.none_iff.mp hb) rfl⟩

theorem slot {i : Nat} {R : Option Nat → Roster → Prop} (hR : R (d.slots i) d) :
    Yields E t (slot i) d R := by
  refine act (fun _ _ => rfl) fun h e r s' hs he _ => ?_
  obtain ⟨rfl, rfl⟩ := exec_slot he
  rw [hs.slots]
  exact ⟨d, hs, hR⟩

theorem setSlot {i : Nat} {v : Option Nat} {R : Unit → Roster → Prop}
    (hR : R () { d with slots := Function.update d.slots i v }) :
    Yields E t (setSlot i v) d R := by
  refine act (fun _ _ => rfl) fun h e r s' hs he _ => ?_
  cases he
  refine ⟨{ d with slots := Function.update d.slots i v }, ?_, hR⟩
  exact ⟨hs.items, congrArg (Function.update · i v) hs.slots, hs.count, hs.blocks, hs.freed⟩

theorem count {R : Nat → Roster → Prop} (hR : R d.count d) :
    Yields E t BourseServer.count d R := by
  refine act (fun _ _ => rfl) fun h e r s' hs he _ => ?_
  cases he
  rw [hs.count]
  exact ⟨d, hs, hR⟩

theorem setCount {n : Nat} {R : Unit → Roster → Prop} (hR : R () { d with count := n }) :
    Yields E t (setCount n) d R := by
  refine act (fun _ _ => rfl) fun h e r s' hs he _ => ?_
  cases he
  exact ⟨{ d with count := n }, ⟨hs.items, hs.slots, rfl, hs.blocks, hs.freed⟩, hR⟩

theorem deref {p : Option Nat} {R : Nat → Roster → Prop} (hR : ∀ b, p = some b → R b d) :
    Yields E t (deref p) d R := by
  cases p with
  | some b => exact ret (hR b rfl)
  | none =>
    intro h _ b h' hr
    obtain ⟨e, r, _⟩ := Runs.op_iff.mp hr
    exact r.elim

/-- A bounded search whose body leaves the roster alone until it finds something. -/
theorem search {body : Nat → Code (Option α)} {n : Nat} {R : Option α → Roster → Prop}
    (A : Nat → Prop)
    (hbody : ∀ j, j < n → (∀ i, i < j → A i) → Yields E t (body j) d fun r d' =>
      (r = none → d' = d ∧ A j) ∧ ∀ x, r = some x → R (some x) d')
    (hend : (∀ i, i < n → A i) → R none d) : Yields E t (Prog.search n body) d R := by
  intro h hs
  refine Partial.searchFrom (fun j (h' : Heap E) => h'.Shows t d ∧ ∀ i, i < j → A i)
    ⟨hs, by simp⟩ ?_ ?_
  · intro j h' _ hj ⟨hs', hA⟩
    refine (hbody j (by omega) hA h' hs').mono ?_
    rintro r h'' ⟨d', hs'', hnone, hsome⟩
    constructor
    · intro hr
      obtain ⟨rfl, hj⟩ := hnone hr
      refine ⟨hs'', fun i hi => ?_⟩
      rcases Nat.lt_succ_iff_lt_or_eq.mp hi with hlt | rfl
      · exact hA i hlt
      · exact hj
    · exact fun x hx => ⟨d', hs'', hsome x hx⟩
  · intro h' ⟨hs', hA⟩
    exact ⟨d, hs', hend (by simpa using hA)⟩

end Yields

end BourseServer
