import BourseServer.Concurrency.Triple
import BourseServer.Server.Service
import BourseServer.Trader.Accounts

/-!
# Account operations take effect one at a time

Threads that perform account operations on shared traders interleave access by access. Since
every operation holds its trader's mutex between its first and its last access, the accounts and
the return values are those of a sequential execution, in the order in which the mutexes were
acquired. The ghost value of a thread says how far its current operation has come.
-/
namespace BourseServer

open Concurrency

/-! ## Sequential execution -/

/-- The accounts of all traders. -/
abbrev Accounts := Nat → Option (UInt32 × UInt32)

/-- One operation on the account of trader `a`. -/
def Accounts.step (A : Accounts) (a : Nat) (c : AccountCall) : Accounts :=
  Function.update A a ((A a).map fun acc => (c.perform acc).1)

/-- What an operation on the account of trader `a` returns. -/
def Accounts.result (A : Accounts) (a : Nat) (c : AccountCall) : Value :=
  (A a).elim .void fun acc => (c.perform acc).2

/-- The operations whose mutex has been acquired, executed one at a time from the accounts `A`
in the order of the acquisitions. The events are given newest first. -/
def replay (A : Accounts) : List Event → Accounts
  | [] => A
  | .acquired _ _ (some (.account a c)) :: ev => (replay A ev).step a c
  | _ :: ev => replay A ev

/-- The operations of thread `t` with what they return in that execution, newest first. -/
def results (A : Accounts) (t : Nat) : List Event → List (Nat × AccountCall × Value)
  | [] => []
  | .acquired u _ (some (.account a c)) :: ev =>
    if u = t then (a, c, (replay A ev).result a c) :: results A t ev else results A t ev
  | _ :: ev => results A t ev

/-- The operations that thread `t` has completed with what they have returned, newest first. -/
def returns (t : Nat) : List Event → List (Nat × AccountCall × Value)
  | [] => []
  | .returned u (.account a c) v :: ev =>
    if u = t then (a, c, v) :: returns t ev else returns t ev
  | _ :: ev => returns t ev

/-! ## How far an operation has come -/

/-- No operation; an operation that has not acquired the mutex, that has acquired it, that has
changed the account, or that has released the mutex and will return a value. -/
inductive Phase where
  | outside
  | entered (a : Nat) (c : AccountCall)
  | pending (a : Nat) (c : AccountCall)
  | applied (a : Nat) (c : AccountCall) (v : Value)
  | released (a : Nat) (c : AccountCall) (v : Value)

namespace Phase

def frames : Phase → List Call
  | .outside => []
  | .entered a c => [.account a c]
  | .pending a c => [.account a c]
  | .applied a c _ => [.account a c]
  | .released a c _ => [.account a c]

/-- The trader whose mutex is held. -/
def holds : Phase → Option Nat
  | .pending a _ => some a
  | .applied a _ _ => some a
  | _ => none

/-- The account once the operation has changed it. -/
def settle : Phase → UInt32 × UInt32 → UInt32 × UInt32
  | .pending _ c, acc => (c.perform acc).1
  | _, acc => acc

/-- The operation that has taken effect and has not returned. -/
def due (A : Accounts) : Phase → List (Nat × AccountCall × Value)
  | .outside => []
  | .entered _ _ => []
  | .pending a c => [(a, c, A.result a c)]
  | .applied a c v => [(a, c, v)]
  | .released a c v => [(a, c, v)]

end Phase

variable {E : Exchange}

namespace Linearization

/-- The phase of the thread that holds the mutex. -/
def holder (w : World (server E) Phase) (m : Mutex) : Phase :=
  m.owner.elim .outside w.ghost

/-- The accounts are those of the sequential execution, up to the operations that are pending. -/
structure Inv (A : Accounts) (w : World (server E) Phase) : Prop where
  frames : ∀ t, w.state.hist.frames t = (w.ghost t).frames
  mutex : ∀ a tr, w.state.traders a = some tr →
    (tr.mutex.owner = none ∧ tr.mutex.depth = 0) ∨
      ∃ u, tr.mutex.owner = some u ∧ tr.mutex.depth = 1 ∧ (w.ghost u).holds = some a
  held : ∀ u a, (w.ghost u).holds = some a →
    ∃ tr, w.state.traders a = some tr ∧ tr.mutex.owner = some u
  account : ∀ a, replay A w.state.hist.events a =
    (w.state.traders a).map fun tr => (holder w tr.mutex).settle tr.account
  results : ∀ t, results A t w.state.hist.events =
    (w.ghost t).due w.state.accounts ++ returns t w.state.hist.events

/-- What the other threads leave alone: the phase and the frames of the thread, and the record of
the trader whose mutex it holds. -/
structure Kept (t : Nat) (w w' : World (server E) Phase) : Prop where
  ghost : w'.ghost t = w.ghost t
  frames : w'.state.hist.frames t = w.state.hist.frames t
  trader : ∀ a, (w.ghost t).holds = some a → w'.state.traders a = w.state.traders a

def discipline (E : Exchange) (A : Accounts) : Discipline (server E) Phase where
  inv := Inv A
  rely := Kept
  rely_refl _ _ := ⟨rfl, rfl, fun _ _ => rfl⟩
  rely_trans h g := ⟨g.ghost.trans h.ghost, g.frames.trans h.frames, fun a ha =>
    (g.trader a (by rw [h.ghost, ha])).trans (h.trader a ha)⟩
  assume _ _ _ _ := True
  safe _ _ _ := True
  pre _ _ _ := False
  post _ _ _ _ _ := True
  idle t w := w.ghost t = .outside

variable {A B : Accounts} {t a : Nat} {w : World (server E) Phase} {g g' : Phase} {s : State E}

theorem settle_of_not_holds (h : g.holds = none) (acc : UInt32 × UInt32) : g.settle acc = acc := by
  cases g with
  | pending a c => cases h
  | _ => rfl

theorem due_congr (h : ∀ b, g.holds = some b → A b = B b) : g.due A = g.due B := by
  cases g with
  | pending a c =>
    have ha : A a = B a := h a rfl
    simp only [Phase.due, Accounts.result, ha]
  | _ => rfl

/-- A step that enters or leaves a function and changes no trader. -/
theorem moves_hist (h : Inv A w) (htraders : s.traders = w.state.traders)
    (hg : (w.ghost t).holds = none) (hg' : g'.holds = none)
    (hframes : s.hist.frames = Function.update w.state.hist.frames t g'.frames)
    (hreplay : replay A s.hist.events = replay A w.state.hist.events)
    (hself : results A t s.hist.events = g'.due s.accounts ++ returns t s.hist.events)
    (hother : ∀ u, u ≠ t → results A u s.hist.events = results A u w.state.hist.events ∧
      returns u s.hist.events = returns u w.state.hist.events) :
    (discipline E A).Moves t w (w.after t s g') := by
  have hne : ∀ u b, (w.ghost u).holds = some b → u ≠ t := by
    rintro u b hu rfl
    rw [hg] at hu
    cases hu
  have hghost : ∀ u, u ≠ t → (w.after t s g').ghost u = w.ghost u :=
    fun u hu => w.after_ghost_of_ne s g' hu
  have hacc : s.accounts = w.state.accounts := by
    unfold State.accounts
    rw [htraders]
  refine ⟨⟨fun u => ?_, fun b tr hb => ?_, fun u b hu => ?_, fun b => ?_, fun u => ?_⟩,
    fun u hu => ⟨hghost u hu, ?_, fun b _ => congrFun htraders b⟩⟩
  · rw [World.after_state, hframes]
    by_cases hu : u = t
    · subst hu
      simp
    · rw [Function.update_of_ne hu, hghost u hu]
      exact h.frames u
  · rw [World.after_state, htraders] at hb
    refine (h.mutex b tr hb).imp_right ?_
    rintro ⟨u, howner, hdepth, hu⟩
    exact ⟨u, howner, hdepth, by rwa [hghost u (hne u b hu)]⟩
  · rw [World.after_state, htraders]
    by_cases hut : u = t
    · subst hut
      rw [World.after_ghost_self, hg'] at hu
      cases hu
    · rw [hghost u hut] at hu
      exact h.held u b hu
  · rw [World.after_state, hreplay, htraders, h.account b]
    cases htr : w.state.traders b with
    | none => rfl
    | some tr =>
      rcases h.mutex b tr htr with ⟨howner, _⟩ | ⟨u, howner, _, hu⟩
      · simp [holder, howner]
      · simp [holder, howner, hghost u (hne u b hu)]
  · by_cases hu : u = t
    · subst hu
      rw [World.after_ghost_self]
      exact hself
    · rw [World.after_state, (hother u hu).1, (hother u hu).2, hacc, hghost u hu]
      exact h.results u
  · rw [World.after_state, hframes, Function.update_of_ne hu]

/-- A step that changes the record of one trader, whose mutex no other thread holds. -/
theorem moves_trader {tr tr' : Trader} (h : Inv A w) (htr : w.state.traders a = some tr)
    (htraders : s.traders = Function.update w.state.traders a (some tr'))
    (hfree : ∀ u, u ≠ t → tr.mutex.owner ≠ some u)
    (hg : ∀ b, (w.ghost t).holds = some b → b = a)
    (hg' : (g'.holds = none ∧ tr'.mutex.owner = none ∧ tr'.mutex.depth = 0) ∨
      (g'.holds = some a ∧ tr'.mutex.owner = some t ∧ tr'.mutex.depth = 1))
    (hgframes : g'.frames = (w.ghost t).frames) (hframes : s.hist.frames = w.state.hist.frames)
    (haccount : replay A s.hist.events =
      Function.update (replay A w.state.hist.events) a (some (g'.settle tr'.account)))
    (hself : results A t s.hist.events = g'.due s.accounts ++ returns t s.hist.events)
    (hother : ∀ u, u ≠ t → results A u s.hist.events = results A u w.state.hist.events ∧
      returns u s.hist.events = returns u w.state.hist.events) :
    (discipline E A).Moves t w (w.after t s g') := by
  have hghost : ∀ u, u ≠ t → (w.after t s g').ghost u = w.ghost u :=
    fun u hu => w.after_ghost_of_ne s g' hu
  have hheld : ∀ u b, u ≠ t → (w.ghost u).holds = some b → b ≠ a := by
    rintro u b hu hub rfl
    obtain ⟨tr'', htr'', howner⟩ := h.held u b hub
    rw [htr] at htr''
    obtain rfl := Option.some.inj htr''
    exact hfree u hu howner
  have hkept : ∀ b, b ≠ a → s.traders b = w.state.traders b := by
    intro b hb
    rw [htraders, Function.update_of_ne hb]
  have hnew : s.traders a = some tr' := by
    rw [htraders, Function.update_self]
  refine ⟨⟨fun u => ?_, fun b trb hb => ?_, fun u b hu => ?_, fun b => ?_, fun u => ?_⟩,
    fun u hu => ⟨hghost u hu, congrFun hframes u, fun b hb => hkept b (hheld u b hu hb)⟩⟩
  · rw [World.after_state, hframes]
    by_cases hu : u = t
    · subst hu
      rw [World.after_ghost_self, hgframes]
      exact h.frames u
    · rw [hghost u hu]
      exact h.frames u
  · rw [World.after_state] at hb
    by_cases hba : b = a
    · subst hba
      obtain rfl := Option.some.inj (hnew.symm.trans hb)
      rcases hg' with ⟨_, howner, hdepth⟩ | ⟨hholds, howner, hdepth⟩
      · exact .inl ⟨howner, hdepth⟩
      · exact .inr ⟨t, howner, hdepth, by rwa [World.after_ghost_self]⟩
    · rw [hkept b hba] at hb
      refine (h.mutex b trb hb).imp_right ?_
      rintro ⟨u, howner, hdepth, hu⟩
      have hut : u ≠ t := by
        rintro rfl
        exact hba (hg b hu)
      exact ⟨u, howner, hdepth, by rwa [hghost u hut]⟩
  · rw [World.after_state]
    by_cases hut : u = t
    · subst hut
      rw [World.after_ghost_self] at hu
      rcases hg' with ⟨hholds, _⟩ | ⟨hholds, howner, _⟩
      · rw [hholds] at hu
        cases hu
      · rw [hholds] at hu
        obtain rfl := Option.some.inj hu
        exact ⟨tr', hnew, howner⟩
    · rw [hghost u hut] at hu
      rw [hkept b (hheld u b hut hu)]
      exact h.held u b hu
  · rw [World.after_state, haccount]
    by_cases hba : b = a
    · subst hba
      rw [Function.update_self, hnew]
      rcases hg' with ⟨hholds, howner, _⟩ | ⟨_, howner, _⟩
      · have hsettle := settle_of_not_holds hholds tr'.account
        simp [holder, howner, hsettle, settle_of_not_holds (g := .outside) rfl]
      · simp [holder, howner]
    · rw [Function.update_of_ne hba, hkept b hba, h.account b]
      cases hb : w.state.traders b with
      | none => rfl
      | some trb =>
        rcases h.mutex b trb hb with ⟨howner, _⟩ | ⟨u, howner, _, hu⟩
        · simp [holder, howner]
        · have hut : u ≠ t := by
            rintro rfl
            exact hba (hg b hu)
          simp [holder, howner, hghost u hut]
  · by_cases hu : u = t
    · subst hu
      rw [World.after_ghost_self]
      exact hself
    · rw [World.after_state, (hother u hu).1, (hother u hu).2, hghost u hu, h.results u]
      have hdue : (w.ghost u).due w.state.accounts = (w.ghost u).due s.accounts := by
        refine due_congr fun b hb => ?_
        rw [State.accounts, State.accounts, hkept b (hheld u b hu hb)]
      rw [hdue]

/-! ## The steps of an operation -/

variable {c : AccountCall} {v : Value} {e : Choice E}

theorem moves_enter (h : Inv A w) (hg : w.ghost t = .outside)
    (he : exec t (.enter (.account a c)) e w.state = .done () s) :
    (discipline E A).Moves t w (w.after t s (.entered a c)) := by
  cases he
  have hframes : w.state.hist.frames t = [] := by
    rw [h.frames t, hg]
    rfl
  refine moves_hist h rfl (by rw [hg]; rfl) rfl ?_ rfl ?_ fun _ _ => ⟨rfl, rfl⟩
  · simp [History.enter, hframes, Phase.frames]
  · have hres := h.results t
    rw [hg] at hres
    exact hres

theorem moves_lock (h : Inv A w) (hg : w.ghost t = .entered a c)
    (he : exec t (.lock a) e w.state = .done () s) :
    (discipline E A).Moves t w (w.after t s (.pending a c)) := by
  obtain ⟨tr, m, htr, hm, rfl⟩ := exec_lock he
  have hnot : (w.ghost t).holds = none := by
    rw [hg]
    rfl
  -- the mutex is free: the thread does not hold it, and does not wait for it any longer
  have hfree : tr.mutex.owner = none ∧ tr.mutex.depth = 0 := by
    rcases h.mutex a tr htr with hfree | ⟨u, howner, hdepth, hu⟩
    · exact hfree
    · have hut : u ≠ t := by
        rintro rfl
        rw [hnot] at hu
        cases hu
      simp [Mutex.lock, hdepth, howner, hut] at hm
  have hmutex : m.owner = some t ∧ m.depth = 1 := by
    simp only [Mutex.lock, hfree.2, if_true, Option.some.injEq] at hm
    subst hm
    exact ⟨rfl, rfl⟩
  have hhead : (w.state.hist.frames t).head? = some (.account a c) := by
    rw [h.frames t, hg]
    rfl
  have hbefore : replay A w.state.hist.events a = some tr.account := by
    rw [h.account a, htr]
    simp [holder, hfree.1, settle_of_not_holds (g := .outside) rfl]
  refine moves_trader h htr rfl (by simp [hfree.1]) (by simp [hnot])
    (.inr ⟨rfl, hmutex.1, hmutex.2⟩) (by rw [hg]; rfl) rfl ?_ ?_ ?_
  · simp only [History.acquire, hhead, replay, Accounts.step, hbefore]
    rfl
  · have hres := h.results t
    rw [hg] at hres
    simp only [History.acquire, hhead, results, if_true, hres, Phase.due, returns]
    have hsame : (replay A w.state.hist.events).result a c =
        Accounts.result (State.accounts ({ w.state.setTrader a (some { tr with mutex := m }) with
          hist := w.state.hist.acquire t a })) a c := by
      simp [Accounts.result, hbefore, State.accounts, State.setTrader, Trader.account]
    rw [hsame]
    rfl
  · intro u hu
    simp [History.acquire, hhead, results, returns, Ne.symm hu]

/-- The replayed accounts already contain what the pending operation is about to do. -/
theorem replay_pending (h : Inv A w) (hg : w.ghost t = .pending a c) {acc : UInt32 × UInt32}
    (hacc : w.state.accounts a = some acc) :
    ∃ tr, w.state.traders a = some tr ∧ tr.account = acc ∧ tr.mutex.owner = some t ∧
      tr.mutex.depth = 1 ∧ replay A w.state.hist.events a = some (c.perform acc).1 := by
  have hholds : (w.ghost t).holds = some a := by
    rw [hg]
    rfl
  obtain ⟨tr, htr, howner⟩ := h.held t a hholds
  obtain rfl := Option.some.inj ((accounts_of_some htr).symm.trans hacc)
  refine ⟨tr, htr, rfl, howner, ?_, ?_⟩
  · rcases h.mutex a tr htr with ⟨hnone, _⟩ | ⟨u, _, hdepth, _⟩
    · rw [hnone] at howner
      cases howner
    · exact hdepth
  · rw [h.account a, htr]
    simp [holder, howner, hg, Phase.settle]

/-- The operation changes the account. -/
theorem moves_store (tr' : Trader) {acc : UInt32 × UInt32} (h : Inv A w)
    (hg : w.ghost t = .pending a c) (hacc : w.state.accounts a = some acc)
    (hperform : c.perform acc = (tr'.account, v))
    (htr' : ∀ tr, w.state.traders a = some tr → tr'.mutex = tr.mutex)
    (htraders : s.traders = Function.update w.state.traders a (some tr'))
    (hframes : s.hist.frames = w.state.hist.frames)
    (hevents : s.hist.events = w.state.hist.events) :
    (discipline E A).Moves t w (w.after t s (.applied a c v)) := by
  obtain ⟨tr, htr, rfl, howner, hdepth, hreplay⟩ := replay_pending h hg hacc
  have hmutex := htr' tr htr
  refine moves_trader h htr htraders (by grind) (by simp [hg, Phase.holds])
    (.inr ⟨rfl, hmutex ▸ howner, hmutex ▸ hdepth⟩) (by rw [hg]; rfl) hframes ?_ ?_ ?_
  · rw [hevents]
    rw [hperform] at hreplay
    exact (Function.update_eq_self_iff.mpr hreplay.symm).symm
  · have hres := h.results t
    rw [hg] at hres
    rw [hevents, hres]
    simp [Phase.due, Accounts.result, hacc, hperform]
  · intro u _
    rw [hevents]
    exact ⟨rfl, rfl⟩

/-- The mutex is released after the change, or after a refusal that changes nothing. -/
theorem moves_unlock (acc : UInt32 × UInt32) (h : Inv A w)
    (hg : w.ghost t = .applied a c v ∨
      (w.ghost t = .pending a c ∧ w.state.accounts a = some acc ∧ c.perform acc = (acc, v)))
    (he : exec t (.unlock a) e w.state = .done () s) :
    (discipline E A).Moves t w (w.after t s (.released a c v)) := by
  obtain ⟨tr, htr, rfl⟩ := exec_unlock he
  have hholds : (w.ghost t).holds = some a := by
    rcases hg with hg | ⟨hg, _⟩
    · rw [hg]
      rfl
    · rw [hg]
      rfl
  have howner : tr.mutex.owner = some t ∧ tr.mutex.depth = 1 := by
    obtain ⟨tr', htr', howner⟩ := h.held t a hholds
    obtain rfl := Option.some.inj (htr.symm.trans htr')
    rcases h.mutex a tr htr with ⟨hnone, _⟩ | ⟨u, _, hdepth, _⟩
    · rw [hnone] at howner
      cases howner
    · exact ⟨howner, hdepth⟩
  have hreplay : replay A w.state.hist.events a = some tr.account := by
    rw [h.account a, htr]
    rcases hg with hg | ⟨hg, hacc, hperform⟩
    · simp [holder, howner.1, hg, Phase.settle]
    · obtain rfl := Option.some.inj ((accounts_of_some htr).symm.trans hacc)
      simp [holder, howner.1, hg, Phase.settle, hperform]
  have hdue : (w.ghost t).due w.state.accounts = [(a, c, v)] := by
    rcases hg with hg | ⟨hg, hacc, hperform⟩
    · rw [hg]
      rfl
    · rw [hg]
      simp [Phase.due, Accounts.result, hacc, hperform]
  have hreleased : (tr.mutex.unlock t).owner = none ∧ (tr.mutex.unlock t).depth = 0 := by
    simp [Mutex.unlock, howner.1, howner.2]
  refine moves_trader h htr rfl (by grind) (by grind) (.inl ⟨rfl, hreleased.1, hreleased.2⟩)
    ?_ rfl ?_ ?_ fun _ _ => ⟨rfl, rfl⟩
  · rcases hg with hg | ⟨hg, _⟩
    · rw [hg]
      rfl
    · rw [hg]
      rfl
  · exact (Function.update_eq_self_iff.mpr hreplay.symm).symm
  · have hres := h.results t
    rw [hdue] at hres
    exact hres

theorem moves_leave (h : Inv A w) (hg : w.ghost t = .released a c v)
    (he : exec t (.leave v) e w.state = .done () s) :
    (discipline E A).Moves t w (w.after t s .outside) := by
  cases he
  have hframes : w.state.hist.frames t = [.account a c] := by
    rw [h.frames t, hg]
    rfl
  have hres := h.results t
  rw [hg] at hres
  refine moves_hist h rfl (by rw [hg]; rfl) rfl ?_ ?_ ?_ fun u hu => ?_
  · simp [History.leave, hframes, Phase.frames]
  · simp [History.leave, hframes, replay]
  · simp only [History.leave, hframes, results, returns, if_true]
    exact hres
  · simp [History.leave, hframes, results, returns, Ne.symm hu]

/-! ## Verification of the operations -/

theorem stable_at : (discipline E A).Stable t fun w => w.ghost t = g :=
  fun _ _ hr _ h => hr.ghost.trans h

/-- The operation is under way, and the account is `acc`. -/
def Pending (t a : Nat) (c : AccountCall) (acc : UInt32 × UInt32)
    (w : World (server E) Phase) : Prop :=
  w.ghost t = .pending a c ∧ w.state.accounts a = some acc

theorem stable_pending {acc : UInt32 × UInt32} :
    (discipline E A).Stable t (Pending t a c acc) := by
  rintro w w' hr _ ⟨hg, hacc⟩
  have htrader := hr.trader a (by rw [hg]; rfl)
  refine ⟨hr.ghost.trans hg, ?_⟩
  rw [← hacc, State.accounts, State.accounts, htrader]

theorem triple_enter : (discipline E A).Triple t (fun w => w.ghost t = .outside)
    (enter (.account a c)) fun _ w => w.ghost t = .entered a c := by
  refine .act stable_at (fun _ => stable_at) (fun _ _ _ => trivial) ?_
  intro w hi hg e r s he _
  exact ⟨_, moves_enter (e := e) hi hg he, World.after_ghost_self ..⟩

theorem triple_lock : (discipline E A).Triple t (fun w => w.ghost t = .entered a c) (lock a)
    fun _ w => ∃ acc, Pending t a c acc w := by
  refine .act stable_at (fun _ => .exists fun _ => stable_pending) (fun _ _ _ => trivial) ?_
  intro w hi hg e r s he _
  have hmoves := moves_lock (e := e) hi hg he
  have hholds : ((w.after t s (.pending a c)).ghost t).holds = some a := by
    rw [World.after_ghost_self]
    rfl
  obtain ⟨tr, htr, _⟩ := hmoves.inv.held t a hholds
  exact ⟨_, hmoves, tr.account, World.after_ghost_self .., accounts_of_some htr⟩

theorem triple_load {f : Field} {acc : UInt32 × UInt32} {value : f.Ty}
    (hvalue : ∀ tr : Trader, tr.account = acc → tr.get f = value) :
    (discipline E A).Triple t (Pending t a c acc) (load f a)
      fun r w => r = value ∧ Pending t a c acc w := by
  refine .act stable_pending (fun _ => (Discipline.Stable.const _).and stable_pending)
    (fun _ _ _ => trivial) ?_
  intro w hi hp e r s he _
  obtain ⟨tr, htr, rfl, rfl⟩ := exec_load (t := t) (e := e) he
  have hacc : tr.account = acc := Option.some.inj ((accounts_of_some htr).symm.trans hp.2)
  refine ⟨w.ghost t, ?_, hvalue tr hacc, ?_⟩
  · rw [World.after_self]
    exact .refl hi
  · rw [World.after_self]
    exact hp

theorem triple_loadAsset {x : Asset} {acc : UInt32 × UInt32} :
    (discipline E A).Triple t (Pending t a c acc) (loadAsset x a)
      fun value w => value = x.of acc ∧ Pending t a c acc w := by
  cases x with
  | balance => exact triple_load (f := .balance) fun tr h => congrArg Prod.fst h
  | inventory => exact triple_load (f := .inventory) fun tr h => congrArg Prod.snd h

theorem triple_store {f : Field} {value : f.Ty} {acc acc' : UInt32 × UInt32}
    (hacc' : ∀ tr : Trader, tr.account = acc → (tr.set f value).account = acc')
    (hf : ∀ tr : Trader, (tr.set f value).mutex = tr.mutex) (hperform : c.perform acc = (acc', v)) :
    (discipline E A).Triple t (Pending t a c acc) (store f a value)
      fun _ w => w.ghost t = .applied a c v := by
  refine .act stable_pending (fun _ => stable_at) (fun _ _ _ => trivial) ?_
  intro w hi ⟨hg, hacc⟩ e r s he _
  obtain ⟨tr, htr, rfl⟩ := exec_store (t := t) (e := e) he
  have htracc : tr.account = acc := Option.some.inj ((accounts_of_some htr).symm.trans hacc)
  obtain ⟨hframes, _, hevents⟩ := History.store_frames t a f value w.state.hist
  refine ⟨_, moves_store (tr.set f value) hi hg hacc ?_ ?_ rfl hframes hevents,
    World.after_ghost_self ..⟩
  · rw [hacc' tr htracc]
    exact hperform
  · intro tr' htr'
    obtain rfl := Option.some.inj (htr.symm.trans htr')
    exact hf tr

theorem triple_storeAsset {x : Asset} {value : UInt32} {acc : UInt32 × UInt32}
    (hperform : c.perform acc = (x.put value acc, v)) :
    (discipline E A).Triple t (Pending t a c acc) (storeAsset x a value)
      fun _ w => w.ghost t = .applied a c v := by
  cases x with
  | balance =>
    refine triple_store (f := .balance) ?_ (fun _ => rfl) hperform
    rintro tr rfl
    rfl
  | inventory =>
    refine triple_store (f := .inventory) ?_ (fun _ => rfl) hperform
    rintro tr rfl
    rfl

theorem triple_unlock_applied : (discipline E A).Triple t (fun w => w.ghost t = .applied a c v)
    (unlock a) fun _ w => w.ghost t = .released a c v := by
  refine .act stable_at (fun _ => stable_at) (fun _ _ _ => trivial) ?_
  intro w hi hg e r s he _
  exact ⟨_, moves_unlock (e := e) (0, 0) hi (.inl hg) he, World.after_ghost_self ..⟩

theorem triple_unlock_refused {acc : UInt32 × UInt32} (hperform : c.perform acc = (acc, v)) :
    (discipline E A).Triple t (Pending t a c acc) (unlock a)
      fun _ w => w.ghost t = .released a c v := by
  refine .act stable_pending (fun _ => stable_at) (fun _ _ _ => trivial) ?_
  intro w hi ⟨hg, hacc⟩ e r s he _
  exact ⟨_, moves_unlock (e := e) acc hi (.inr ⟨hg, hacc, hperform⟩) he, World.after_ghost_self ..⟩

theorem triple_leave : (discipline E A).Triple t (fun w => w.ghost t = .released a c v)
    (leave v) fun _ w => w.ghost t = .outside := by
  refine .act stable_at (fun _ => stable_at) (fun _ _ _ => trivial) ?_
  intro w hi hg e r s he _
  exact ⟨_, moves_leave (e := e) hi hg he, World.after_ghost_self ..⟩

theorem triple_increaseAsset {x : Asset} {n : UInt32} :
    (discipline E A).Triple t (fun w => w.ghost t = .outside) (increaseAsset x a n)
      fun _ w => w.ghost t = .outside := by
  refine triple_enter.bind fun _ => ?_
  refine Discipline.Triple.bind (Q := fun _ w => w.ghost t = .released a (.increase x n) .void)
    ?_ fun _ => triple_leave.bind fun _ => .ret stable_at fun _ _ h => h
  refine triple_lock.bind fun _ => .exists_pre fun acc => triple_loadAsset.bind fun value => ?_
  intro w hi hw
  obtain ⟨rfl, hw⟩ := hw
  exact ((triple_storeAsset rfl).bind fun _ => triple_unlock_applied) w hi hw

theorem triple_decreaseAsset {x : Asset} {n : UInt32} :
    (discipline E A).Triple t (fun w => w.ghost t = .outside) (decreaseAsset x a n)
      fun _ w => w.ghost t = .outside := by
  refine triple_enter.bind fun _ => ?_
  refine Discipline.Triple.bind (Q := fun r w => w.ghost t = .released a (.decrease x n) (.int r))
    ?_ fun _ => triple_leave.bind fun _ => .ret stable_at fun _ _ h => h
  refine triple_lock.bind fun _ => .exists_pre fun acc => triple_loadAsset.bind fun value => ?_
  intro w hi hw
  obtain ⟨rfl, hw⟩ := hw
  split_ifs with hle
  · -- the account covers the amount; it is read once more before it is written
    refine (triple_loadAsset.bind fun value => ?_) w hi hw
    intro w' hi' hw'
    obtain ⟨rfl, hw'⟩ := hw'
    have hstore := triple_storeAsset (E := E) (A := A) (t := t) (a := a)
      (AccountCall.perform_of_le (n := n) hle)
    exact (hstore.bind fun _ => triple_unlock_applied.bind fun _ =>
      .ret stable_at fun _ _ h => h) w' hi' hw'
  · have hunlock := triple_unlock_refused (E := E) (A := A) (t := t) (a := a)
      (AccountCall.perform_of_not_le (n := n) hle)
    exact (hunlock.bind fun _ => .ret stable_at fun _ _ h => h) w hi hw

theorem triple_runAccount : (discipline E A).Triple t (fun w => w.ghost t = .outside)
    (runAccount a c) fun _ w => w.ghost t = .outside := by
  cases c with
  | increase x n =>
    cases x with
    | balance => exact triple_increaseAsset
    | inventory => exact triple_increaseAsset
  | decrease x n =>
    cases x with
    | balance => exact triple_decreaseAsset.bind fun _ => .ret stable_at fun _ _ h => h
    | inventory => exact triple_decreaseAsset.bind fun _ => .ret stable_at fun _ _ h => h

/-- The environment makes account calls only. -/
def accountCalls (_t : Nat) (q : Request) (_s : State E) : Prop :=
  ∃ a c, q = .client (.account a c)

theorem verified : (discipline E A).Verified accountCalls where
  body _ _ _ _ hpre := hpre.elim
  start t q w p s hi hg h := by
    rintro ⟨a, c, rfl⟩
    cases h
    refine ⟨w.ghost t, ?_, ?_⟩
    · rw [World.after_self]
      exact .refl hi
    · rw [World.after_self]
      exact triple_runAccount w hi hg

end Linearization

/-! ## Linearization -/

/-- No mutex is held. -/
def State.Unlocked (s : State E) : Prop :=
  ∀ a tr, s.traders a = some tr → tr.mutex.owner = none ∧ tr.mutex.depth = 0

/-- Runs in which the threads make account calls only. -/
def accountRuns (_c : Pool (server E)) : Move (server E) → Prop
  | .run _ _ => True
  | .start _ q => ∃ a c, q = .client (.account a c)

/-- The accounts and the results are those of the calls, executed one at a time in the order in
which they have acquired their trader's mutex. -/
theorem accounts_linearize {s₀ : State E} {c : Pool (server E)} (hunlocked : s₀.Unlocked)
    (hhist : s₀.hist = .empty) (h : Pool.ReachIf accountRuns (Pool.idle s₀) c)
    (hquiet : ∀ t, c.state.hist.frames t = []) :
    State.accounts c.state = replay s₀.accounts c.state.hist.events ∧
      ∀ t, returns t c.state.hist.events = results s₀.accounts t c.state.hist.events := by
  have hinv : Linearization.Inv s₀.accounts
      (⟨s₀, fun _ => .outside⟩ : World (server E) Phase) := by
    refine ⟨fun t => ?_, fun a tr htr => .inl (hunlocked a tr htr), nofun, fun a => ?_, fun t => ?_⟩
    · rw [hhist]
      rfl
    · rw [hhist]
      cases htr : s₀.traders a with
      | none =>
        change s₀.accounts a = _
        simp [State.accounts, htr]
      | some tr =>
        change s₀.accounts a = _
        simp [State.accounts, htr, Linearization.holder, (hunlocked a tr htr).1, Trader.account,
          Phase.settle]
    · rw [hhist]
      rfl
  have hinit : (Linearization.discipline E s₀.accounts).Holds (Pool.idle s₀) :=
    Discipline.holds_idle hinv fun t w hr _ => hr.ghost
  have hallowed : ∀ (d : Pool (server E)) m, accountRuns d m →
      (Linearization.discipline E s₀.accounts).Allowed Linearization.accountCalls d m := by
    intro d m hm
    cases m with
    | start t q => exact hm
    | run t e => exact fun _ _ _ => trivial
  obtain ⟨g, hi, _⟩ := Discipline.adequacy Linearization.verified hinit (h.mono hallowed)
  have hout : ∀ t, g t = .outside := by
    intro t
    have hframes := hi.frames t
    rw [hquiet t] at hframes
    revert hframes
    change [] = (g t).frames → _
    cases g t <;> intro hframes <;> first | rfl | cases hframes
  refine ⟨funext fun a => ?_, fun t => ?_⟩
  · rw [hi.account a]
    cases htr : c.state.traders a with
    | none => simp [State.accounts, htr]
    | some tr =>
      rcases hi.mutex a tr htr with ⟨howner, _⟩ | ⟨u, _, _, hu⟩
      · simp [State.accounts, htr, Linearization.holder, howner, Phase.settle, Trader.account]
      · have hholds : (g u).holds = some a := hu
        rw [hout u] at hholds
        cases hholds
  · have hres : results s₀.accounts t c.state.hist.events =
        (g t).due c.state.accounts ++ returns t c.state.hist.events := hi.results t
    rw [hout t] at hres
    exact hres.symm

/-- Account calls by the first two threads. -/
def firstTwo (c : Pool (server E)) (m : Move (server E)) : Prop :=
  accountRuns c m ∧ ∀ t e o k, m = .run t e → c.prog t = .op o k → t < 2

def firstTwoCourse : Pool.Course (server (.fixed 1 1)) :=
  smoothly (E := .fixed 1 1) () (fun t _ _ => decide (t < 2)) fun _ q _ =>
    match q with
    | .client (.account _ _) => true
    | _ => false

theorem firstTwoCourse_within : firstTwoCourse.Within firstTwo where
  op {c t o k e} hp hpick := by
    refine ⟨trivial, fun u e' o' k' hm _ => ?_⟩
    cases hm
    simp only [firstTwoCourse, smoothly] at hpick
    split at hpick
    · rename_i hlt
      exact of_decide_eq_true hlt
    · cases hpick
  call {c t p k} hp := by
    refine ⟨trivial, fun u e' o' k' hm hop => ?_⟩
    cases hm
    rw [hp] at hop
    cases hop
  start {c t q} hq := by
    refine ⟨?_, fun u e' o' k' hm _ => ?_⟩
    · simp only [firstTwoCourse, smoothly] at hq
      split at hq
      · rename_i a x
        exact ⟨a, x, rfl⟩
      · cases hq
    · cases hm

theorem frames_of_firstTwo {s₀ : State E} {c : Pool (server E)} (hhist : s₀.hist = .empty)
    (h : Pool.ReachIf firstTwo (Pool.idle s₀) c) {t : Nat} (ht : 2 ≤ t) :
    c.state.hist.frames t = [] := by
  refine h.invariant (P := fun s : State E => s.hist.frames t = []) ?_ ?_ ?_
  · intro d u e o k r s hp hok he hs
    have hlt : u < 2 := hok.2 u e o k rfl hp
    exact (exec_frames_of_ne he (by omega)).trans hs
  · intro u q p s s' hq hs
    obtain ⟨conns, rfl⟩ := launch_state hq
    exact hs
  · change s₀.hist.frames t = []
    rw [hhist]
    rfl

/-- A trader with a balance of ten. -/
def oneAccount : State (.fixed 1 1) :=
  (State.init (.fixed 1 1) () 1).setTrader 0 (some ⟨1, -1, 10, 0, .fresh, ⟨0, [0]⟩⟩)

/-- Two threads change one account, and the second waits for the first. -/
theorem accounts_linearize_two : ∃ c : Pool (server (.fixed 1 1)),
    State.accounts c.state 0 = some (3, 0) ∧
      State.accounts c.state = replay oneAccount.accounts c.state.hist.events ∧
      ∀ t, returns t c.state.hist.events = results oneAccount.accounts t c.state.hist.events := by
  obtain ⟨c, hc, ht⟩ := Pool.exists_reach firstTwoCourse_within
    [.start 0 (.client (.account 0 (.increase .balance 5))), .drive 0 3,
      .start 1 (.client (.account 0 (.decrease .balance 12))), .drive 1 9,
      .drive 0 9, .drive 1 9]
    (Pool.idle oneAccount)
    (fun c => c.state.hist.frames 0 = [] ∧ c.state.hist.frames 1 = [] ∧
      State.accounts c.state 0 = some (3, 0))
    (by decide +kernel)
  obtain ⟨h0, h1, hacc⟩ := of_decide_eq_true ht
  have hunlocked : oneAccount.Unlocked := by
    intro a tr htr
    by_cases ha : a = 0
    · subst ha
      cases htr
      exact ⟨rfl, rfl⟩
    · simp [oneAccount, State.setTrader, State.init, ha] at htr
  have hhist : oneAccount.hist = .empty := rfl
  have hquiet : ∀ t, c.state.hist.frames t = [] := by
    intro t
    have ht : t = 0 ∨ t = 1 ∨ 2 ≤ t := by omega
    rcases ht with rfl | rfl | ht
    · exact h0
    · exact h1
    · exact frames_of_firstTwo hhist hc ht
  have hrun : Pool.ReachIf accountRuns (Pool.idle oneAccount) c := hc.mono fun _ _ h => h.1
  exact ⟨c, hacc, accounts_linearize hunlocked hhist hrun hquiet⟩

end BourseServer
