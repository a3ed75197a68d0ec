import BourseServer.Concurrency.RelyGuarantee
import BourseServer.Machine.Frame
import BourseServer.Server.Service

/-!
# Mutexes are released by the functions that take them

Every function of the trader module takes recursive mutexes, and `trader_send_packet` has an
exit that does not release one. In the runs in which the writes of the module succeed this exit
is not taken, and then a thread that is in no function of the module holds no trader's mutex.

A piece of code is neutral when it leaves the thread's frames as they are and its hold depth on
every mutex no higher than before. Neutrality is closed under sequencing, searches and calls,
so it is proved by following the code.
-/
namespace BourseServer

open Concurrency

variable {E : Exchange}

namespace Mutex

variable {t u : Nat} {m m' : Mutex}

theorem heldBy_lock_self (h : m.lock t = some m') : m'.heldBy t = m.heldBy t + 1 := by
  unfold lock at h
  split_ifs at h with hd ho
  · obtain rfl := Option.some.inj h
    simp [heldBy, hd]
  · obtain rfl := Option.some.inj h
    simp [heldBy, ho]

theorem owner_of_lock (h : m.lock t = some m') : m'.owner = some t := by
  unfold lock at h
  split_ifs at h with hd ho
  · obtain rfl := Option.some.inj h
    rfl
  · obtain rfl := Option.some.inj h
    exact ho

theorem heldBy_of_owner_ne (h : m.owner = some t) (hu : u ≠ t) : m.heldBy u = 0 := by
  rw [heldBy, h, if_neg]
  rintro ⟨⟩
  exact hu rfl

theorem heldBy_unlock_self : (m.unlock t).heldBy t = m.heldBy t - 1 := by
  unfold unlock heldBy
  split_ifs with ho hd
  all_goals first | omega | simp_all

theorem heldBy_unlock_of_ne (hu : u ≠ t) : (m.unlock t).heldBy u = m.heldBy u := by
  unfold unlock
  split_ifs with ho hd
  · rw [heldBy_of_owner_ne ho hu]
    simp [heldBy]
  · rw [heldBy_of_owner_ne ho hu]
    exact heldBy_of_owner_ne ho hu
  · rfl

/-- A mutex that is in use is free when it has no owner. -/
def Owned (m : Mutex) : Prop := m.initialised = true → m.owner = none → m.depth = 0

theorem Owned.lock (h : m.lock t = some m') : m'.Owned := by
  intro _ hn
  rw [owner_of_lock h] at hn
  cases hn

theorem Owned.unlock (h : m.Owned) : (m.unlock t).Owned := by
  intro hi hn
  unfold Mutex.unlock at hi hn ⊢
  split_ifs at hi hn ⊢ with ho hd
  · rfl
  · rw [ho] at hn
    cases hn
  · exact h hi hn

end Mutex

/-- How many times thread `t` holds the mutex of trader `a`. -/
def State.depth (s : State E) (t a : Nat) : Nat :=
  (s.traders a).elim 0 fun tr => tr.mutex.heldBy t

theorem State.depth_of_some {s : State E} {a : Nat} {tr : Trader} (h : s.traders a = some tr)
    (t : Nat) : s.depth t a = tr.mutex.heldBy t := by
  rw [State.depth, h]
  rfl

/-- A change of one trader's record that does not raise the hold depth of `t` there. -/
theorem State.depth_le_of_update {s s' : State E} {t a : Nat} {o : Option Trader}
    (hs : s'.traders = Function.update s.traders a o)
    (h : o.elim 0 (fun tr => tr.mutex.heldBy t) ≤ s.depth t a) (b : Nat) :
    s'.depth t b ≤ s.depth t b := by
  unfold State.depth at *
  rw [hs]
  by_cases hb : b = a
  · subst hb
    simpa using h
  · simp [hb]

@[simp] theorem Trader.set_mutex (tr : Trader) (f : Field) (v : f.Ty) :
    (tr.set f v).mutex = tr.mutex := by
  cases f <;> rfl

namespace LockBalance

/-- Only locking raises a hold depth, and only that of the locking thread. -/
theorem exec_depth {t u b : Nat} {o : Op} {e : Choice E} {s s' : State E} {r : o.Reply}
    (h : exec t o e s = .done r s') (hu : ∀ a, o = .lock a → u ≠ t) :
    s'.depth u b ≤ s.depth u b := by
  cases o
  case lock a =>
    obtain ⟨tr, m, htr, hm, rfl⟩ := exec_lock h
    refine State.depth_le_of_update (a := a) rfl ?_ b
    simp [Mutex.heldBy_of_owner_ne (Mutex.owner_of_lock hm) (hu a rfl)]
  case unlock a =>
    obtain ⟨tr, htr, rfl⟩ := exec_unlock h
    refine State.depth_le_of_update (a := a) rfl ?_ b
    rw [State.depth_of_some htr]
    by_cases hut : u = t
    · subst hut
      simp [Mutex.heldBy_unlock_self]
    · simp [Mutex.heldBy_unlock_of_ne hut]
  case mutexInit a =>
    obtain ⟨tr, htr, rfl⟩ := exec_mutexInit h
    exact State.depth_le_of_update (a := a) rfl (by simp [Mutex.fresh, Mutex.heldBy]) b
  case mallocTrader =>
    obtain ⟨junk, _, _, rfl⟩ := exec_mallocTrader h
    exact State.depth_le_of_update (a := r) rfl (by simp [Mutex.heldBy]) b
  case freeTrader a =>
    obtain ⟨tr, htr, rfl⟩ := exec_freeTrader h
    exact State.depth_le_of_update (a := a) rfl (by simp) b
  case store f a v =>
    obtain ⟨tr, htr, rfl⟩ := exec_store h
    refine State.depth_le_of_update (a := a) rfl ?_ b
    simp [State.depth_of_some htr]
  all_goals
    have hf := (exec_frame h).traders rfl
    simp [State.depth, hf]

/-- Locking raises the hold depth by one. -/
theorem exec_lock_depth {t a : Nat} {e : Choice E} {s s' : State E} {r : Unit}
    (h : exec t (.lock a) e s = .done r s') (b : Nat) :
    s'.depth t b ≤ Function.update (s.depth t) a (s.depth t a + 1) b := by
  obtain ⟨tr, m, htr, hm, rfl⟩ := exec_lock h
  by_cases hb : b = a
  · subst hb
    simp [State.depth, State.setTrader, htr, Mutex.heldBy_lock_self hm]
  · simp [State.depth, State.setTrader, hb]

theorem exec_unlock_depth {t a : Nat} {e : Choice E} {s s' : State E} {r : Unit}
    (h : exec t (.unlock a) e s = .done r s') : s'.depth t a = s.depth t a - 1 := by
  obtain ⟨tr, htr, rfl⟩ := exec_unlock h
  simp [State.depth, State.setTrader, htr, Mutex.heldBy_unlock_self]

/-- Between steps: a thread in no function of the module holds no mutex, and a mutex that has
no owner is free. -/
structure Settled (s : State E) : Prop where
  idle : ∀ t, s.hist.frames t = [] → ∀ a, s.depth t a = 0
  owned : ∀ a tr, s.traders a = some tr → tr.mutex.Owned

theorem owned_of_update {s s' : State E} {a : Nat} {o : Option Trader}
    (hs : s'.traders = Function.update s.traders a o)
    (h : ∀ a tr, s.traders a = some tr → tr.mutex.Owned) (ho : ∀ tr, o = some tr → tr.mutex.Owned)
    (b : Nat) (tr : Trader) (hb : s'.traders b = some tr) : tr.mutex.Owned := by
  rw [hs] at hb
  by_cases hba : b = a
  · subst hba
    exact ho tr (by simpa using hb)
  · exact h b tr (by simpa [hba] using hb)

theorem exec_owned {t : Nat} {o : Op} {e : Choice E} {s s' : State E} {r : o.Reply}
    (h : exec t o e s = .done r s') (hs : ∀ a tr, s.traders a = some tr → tr.mutex.Owned) :
    ∀ a tr, s'.traders a = some tr → tr.mutex.Owned := by
  cases o
  case lock a =>
    obtain ⟨tr, m, htr, hm, rfl⟩ := exec_lock h
    refine owned_of_update (a := a) rfl hs ?_
    rintro _ ⟨⟩
    exact Mutex.Owned.lock hm
  case unlock a =>
    obtain ⟨tr, htr, rfl⟩ := exec_unlock h
    refine owned_of_update (a := a) rfl hs ?_
    rintro _ ⟨⟩
    exact (hs a tr htr).unlock
  case mutexInit a =>
    obtain ⟨tr, htr, rfl⟩ := exec_mutexInit h
    refine owned_of_update (a := a) rfl hs ?_
    rintro _ ⟨⟩ _ _
    rfl
  case mallocTrader =>
    obtain ⟨junk, _, _, rfl⟩ := exec_mallocTrader h
    refine owned_of_update (a := r) rfl hs ?_
    rintro _ ⟨⟩ hi
    cases hi
  case freeTrader a =>
    obtain ⟨tr, htr, rfl⟩ := exec_freeTrader h
    exact owned_of_update (a := a) rfl hs (fun _ h => by cases h)
  case store f a v =>
    obtain ⟨tr, htr, rfl⟩ := exec_store h
    refine owned_of_update (a := a) rfl hs ?_
    rintro _ ⟨⟩
    simpa using hs a tr htr
  all_goals
    have hf := (exec_frame h).traders rfl
    rw [hf]
    exact hs

/-! ## The discipline -/

/-- What the other threads leave to thread `t`. -/
structure Kept (t : Nat) (w w' : World (server E) Unit) : Prop where
  frames : w'.state.hist.frames t = w.state.hist.frames t
  depth : ∀ a, w'.state.depth t a ≤ w.state.depth t a

/-- The result of the sending loop when no write fails. -/
def Succeeds : (p : Proc) → p.Result → Prop
  | .writen .., r => 0 ≤ r
  | .readn .., _ => True
  | .service .., _ => True

/-- Writes made inside a function of the trader module succeed. -/
def WriteSucceeds (t : Nat) (o : Op) (e : Choice E) (s : State E) : Prop :=
  match o with
  | .write fd _ => s.hist.frames t ≠ [] → s.conns fd ≠ none ∧ e ≠ .ioError
  | _ => True

def discipline (E : Exchange) : Discipline (server E) Unit where
  inv w := Settled w.state
  rely := Kept
  rely_refl _ _ := ⟨rfl, fun _ => le_rfl⟩
  rely_trans h g := ⟨g.frames.trans h.frames, fun a => (g.depth a).trans (h.depth a)⟩
  assume := WriteSucceeds
  safe _ _ _ := True
  pre _ _ _ := True
  post t p w r w' := Kept t w w' ∧ (w.state.hist.frames t ≠ [] → Succeeds p r)
  idle t w := w.state.hist.frames t = []

/-- Thread `t` is in the functions `fs` and holds each mutex at most `d` times. -/
def At (t : Nat) (fs : List Call) (d : Nat → Nat) (w : World (server E) Unit) : Prop :=
  w.state.hist.frames t = fs ∧ ∀ a, w.state.depth t a ≤ d a

theorem At.kept {t : Nat} {fs : List Call} {d : Nat → Nat} {w w' : World (server E) Unit}
    (h : At t fs d w) (hk : Kept t w w') : At t fs d w' :=
  ⟨hk.frames.trans h.1, fun a => (hk.depth a).trans (h.2 a)⟩

/-- An action other than entering or leaving a function: the frames stay, and no other thread
comes to hold more. -/
theorem moves_of_exec {t : Nat} {o : Op} {e : Choice E} {r : o.Reply}
    {w : World (server E) Unit} {s' : State E} (hi : Settled w.state)
    (h : exec t o e w.state = .done r s') (hf : o.writesFrames = false)
    (ht : ∀ a, o = .lock a → w.state.hist.frames t ≠ []) :
    (discipline E).Moves t w (w.after t s' ()) := by
  have hframes := (exec_frame h).frames hf
  refine ⟨⟨fun u hu a => ?_, exec_owned h hi.owned⟩, fun u hu => ⟨?_, fun a => ?_⟩⟩
  · have hu' : w.state.hist.frames u = [] := by simpa [hframes] using hu
    have hle : s'.depth u a ≤ w.state.depth u a := by
      refine exec_depth h fun b hb hut => ht b hb ?_
      rwa [← hut]
    have h0 := hi.idle u hu' a
    simp only [World.after_state]
    omega
  · simp [hframes]
  · exact exec_depth h fun _ _ => hu

/-- The frame stack is all that entering a function changes. -/
theorem moves_of_enter {t : Nat} {c : Call} {w : World (server E) Unit} (hi : Settled w.state) :
    (discipline E).Moves t w
      (w.after t { w.state with hist := w.state.hist.enter t c } ()) := by
  refine ⟨⟨fun u hu a => hi.idle u ?_ a, hi.owned⟩, fun u hu => ⟨?_, fun a => le_rfl⟩⟩
  · by_cases hut : u = t
    · subst hut
      simp [History.enter] at hu
    · simpa [History.enter, hut] using hu
  · simp [History.enter, hu]

/-- Leaving the last function requires that no mutex is held. -/
theorem moves_of_leave {t : Nat} {v : Value} {c : Call} {fs : List Call}
    {w : World (server E) Unit} (hi : Settled w.state) (hc : w.state.hist.frames t = c :: fs)
    (h0 : fs = [] → ∀ a, w.state.depth t a = 0) :
    (discipline E).Moves t w
      (w.after t { w.state with hist := w.state.hist.leave t v } ()) := by
  refine ⟨⟨fun u hu a => ?_, hi.owned⟩, fun u hu => ⟨?_, fun a => le_rfl⟩⟩
  · by_cases hut : u = t
    · subst hut
      exact h0 (by simpa [History.leave, hc] using hu) a
    · exact hi.idle u (by simpa [History.leave, hc, hut] using hu) a
  · simp [History.leave, hc, hu]

/-! ## Neutral code -/

/-- Code that, in frames that satisfy `ok`, leaves the frames and the hold depths as they are
and yields a value that satisfies `V`. -/
def Neutral (E : Exchange) (ok : List Call → Prop) {α : Type} (p : Code α) (V : α → Prop) :
    Prop :=
  ∀ t fs d (w : World (server E) Unit), ok fs → At t fs d w →
    (discipline E).wp t p (fun a w' => At t fs d w' ∧ V a) w

/-- In some function of the trader module. -/
abbrev Inside (fs : List Call) : Prop := fs ≠ []

/-- Anywhere. -/
abbrev Anywhere (_ : List Call) : Prop := True

variable {ok : List Call → Prop} {α β : Type}

theorem neutral_ret {a : α} {V : α → Prop} (hV : V a) : Neutral E ok (.ret a) V :=
  fun _ _ _ _ _ hat _ hk _ => ⟨hat.kept hk, hV⟩

theorem Neutral.bind {p : Code α} {f : α → Code β} {V : α → Prop} {W : β → Prop}
    (hp : Neutral E ok p V) (hf : ∀ a, V a → Neutral E ok (f a) W) :
    Neutral E ok (p >>= f) W := by
  intro t fs d w hfs hat
  refine Discipline.wp_bind (Discipline.wp_mono (hp t fs d w hfs hat) ?_)
  rintro a w' _ ⟨hat', hV⟩
  exact hf a hV t fs d w' hfs hat'

/-- An action on no mutex and no frame; `V` is what its reply is known to satisfy. -/
theorem neutral_act {o : Op} {V : o.Reply → Prop} (hf : o.writesFrames = false)
    (hl : ∀ a, o ≠ .lock a)
    (hV : ∀ t e (s s' : State E) r, ok (s.hist.frames t) → exec t o e s = .done r s' →
      WriteSucceeds t o e s → V r) :
    Neutral E ok (.act (I := bourse) o) V := by
  intro t fs d w hfs hat
  refine Discipline.wp_act (fun _ _ _ => trivial) fun w' hk hi e r s' he ha => ?_
  have hat' := hat.kept hk
  refine ⟨(), moves_of_exec hi he hf fun a h => absurd h (hl a), fun v hkv _ => ⟨?_, ?_⟩⟩
  · refine At.kept ⟨?_, fun a => ?_⟩ hkv
    · simpa [(exec_frame he).frames hf] using hat'.1
    · exact (exec_depth he fun b h => absurd h (hl b)).trans (hat'.2 a)
  · refine hV t e w'.state s' r ?_ he ha
    rwa [hat'.1]

/-- A search through the slots of a table. -/
theorem neutral_search {n : Nat} {body : Nat → Code (Option α)}
    (h : ∀ i, Neutral E ok (body i) fun _ => True) :
    Neutral E ok (.search n body) fun _ => True := by
  intro t fs d w hfs hat
  refine Discipline.wp_search (fun _ => At t fs d) hat ?_ ?_
  · intro j w' _ hat'
    refine Discipline.wp_mono (h j t fs d w' hfs hat') ?_
    rintro (_ | a) w'' _ ⟨hat'', -⟩
    · exact hat''
    · exact fun v hk _ => ⟨hat''.kept hk, trivial⟩
  · exact fun w' hat' v hk _ => ⟨hat'.kept hk, trivial⟩

theorem neutral_deref {p : Option Nat} : Neutral E ok (deref p) fun _ => True := by
  cases p with
  | some a => exact neutral_ret trivial
  | none => exact fun t fs d w _ _ w' _ _ => ⟨trivial, fun e r => nomatch r⟩

/-- Code that, with the mutex of `a` taken once more than before, gives it back. -/
def Releasing (E : Exchange) (a : Nat) {α : Type} (p : Code α) (V : α → Prop) : Prop :=
  ∀ t fs d (w : World (server E) Unit), Inside fs → At t fs (Function.update d a (d a + 1)) w →
    (discipline E).wp t p (fun x w' => At t fs d w' ∧ V x) w

theorem Releasing.bind {a : Nat} {p : Code α} {f : α → Code β} {V : α → Prop} {W : β → Prop}
    (hp : Neutral E Inside p V) (hf : ∀ x, V x → Releasing E a (f x) W) :
    Releasing E a (p >>= f) W := by
  intro t fs d w hfs hat
  refine Discipline.wp_bind (Discipline.wp_mono (hp t fs _ w hfs hat) ?_)
  rintro x w' _ ⟨hat', hV⟩
  exact hf x hV t fs d w' hfs hat'

theorem neutral_lock {a : Nat} {p : Code α} {V : α → Prop} (hp : Releasing E a p V) :
    Neutral E Inside (lock a >>= fun _ => p) V := by
  intro t fs d w hfs hat
  refine Discipline.wp_bind (Discipline.wp_act (fun _ _ _ => trivial) ?_)
  intro w' hk hi e r s' he _
  have hat' := hat.kept hk
  have he : exec t (.lock a) e w'.state = .done r s' := he
  refine ⟨(), moves_of_exec hi he rfl fun _ _ => by rwa [hat'.1],
    fun v hkv _ => hp t fs d v hfs (At.kept ⟨?_, fun b => ?_⟩ hkv)⟩
  · simpa [(exec_frame he).frames rfl] using hat'.1
  · have ha := hat'.2 a
    refine (exec_lock_depth he b).trans ?_
    by_cases hb : b = a
    · subst hb
      simpa using ha
    · simpa [hb] using hat'.2 b

theorem releasing_unlock {a : Nat} {p : Code α} {V : α → Prop} (hp : Neutral E Inside p V) :
    Releasing E a (unlock a >>= fun _ => p) V := by
  intro t fs d w hfs hat
  refine Discipline.wp_bind (Discipline.wp_act (fun _ _ _ => trivial) ?_)
  intro w' hk hi e r s' he _
  have hat' := hat.kept hk
  have he : exec t (.unlock a) e w'.state = .done r s' := he
  refine ⟨(), moves_of_exec hi he rfl nofun,
    fun v hkv _ => hp t fs d v hfs (At.kept ⟨?_, fun b => ?_⟩ hkv)⟩
  · simpa [(exec_frame he).frames rfl] using hat'.1
  · by_cases hb : b = a
    · subst hb
      have hb := hat'.2 b
      simp only [World.after_state, exec_unlock_depth he, Function.update_self] at hb ⊢
      omega
    · have hle : s'.depth t b ≤ w'.state.depth t b := exec_depth he nofun
      exact hle.trans (by simpa [hb] using hat'.2 b)

theorem releasing_last {a : Nat} : Releasing E a (unlock a) fun _ => True :=
  releasing_unlock (p := .ret ()) (neutral_ret trivial)

/-- A function of the module: a thread that enters its first one holds nothing, so it holds
nothing when it leaves it. -/
theorem neutral_scope {c : Call} {value : α → Value} {p : Code α} {V : α → Prop}
    (hp : Neutral E Inside p V) : Neutral E ok (scope c value p) V := by
  intro t fs d w hfs hat
  refine Discipline.wp_bind (Discipline.wp_act (fun _ _ _ => trivial) ?_)
  intro w' hk hi e r s' he _
  have hat' := hat.kept hk
  cases he
  refine ⟨(), moves_of_enter hi, fun v hkv _ => ?_⟩
  -- the bound that holds inside the function, and that is back when it is left
  obtain ⟨d', hd, h0, hin⟩ : ∃ d' : Nat → Nat, (∀ b, d' b ≤ d b) ∧ (fs = [] → ∀ b, d' b = 0) ∧
      At t (c :: fs) d' v := by
    have hframes : v.state.hist.frames t = c :: fs := by
      simpa [History.enter, hat'.1] using hkv.frames
    have hdepth : ∀ b, v.state.depth t b ≤ w'.state.depth t b := hkv.depth
    cases fs with
    | nil =>
      refine ⟨fun _ => 0, by simp, by simp, hframes, fun b => ?_⟩
      have := hi.idle t hat'.1 b
      have := hdepth b
      omega
    | cons f fs => exact ⟨d, by simp, by simp, hframes, fun b => (hdepth b).trans (hat'.2 b)⟩
  have hbody := hp t (c :: fs) d' v (List.cons_ne_nil c fs) hin
  refine Discipline.wp_bind (Discipline.wp_mono hbody ?_)
  rintro x u _ ⟨hu, hV⟩
  refine Discipline.wp_bind (Discipline.wp_act (fun _ _ _ => trivial) ?_)
  intro u' hku hiu e r s' he _
  have hu' := hu.kept hku
  cases he
  refine ⟨(), moves_of_leave hiu hu'.1 fun hfs b => ?_, fun v' hkv' _ v'' hkv'' _ => ⟨?_, hV⟩⟩
  · have := hu'.2 b
    have := h0 hfs b
    omega
  · refine At.kept (At.kept ⟨?_, fun b => ?_⟩ hkv') hkv''
    · simp [History.leave, hu'.1]
    · exact (hu'.2 b).trans (hd b)

theorem Neutral.seq {p : Code α} {f : α → Code β} {W : β → Prop}
    (hp : Neutral E ok p fun _ => True) (hf : ∀ a, Neutral E ok (f a) W) :
    Neutral E ok (p >>= f) W :=
  hp.bind fun a _ => hf a

theorem Releasing.seq {a : Nat} {p : Code α} {f : α → Code β} {W : β → Prop}
    (hp : Neutral E Inside p fun _ => True) (hf : ∀ x, Releasing E a (f x) W) :
    Releasing E a (p >>= f) W :=
  .bind hp fun x _ => hf x

/-- An action on no mutex and no frame, of which nothing is to be known. -/
theorem neutral_step {o : Op} (hf : o.writesFrames = false) (hl : ∀ a, o ≠ .lock a) :
    Neutral E ok (.act (I := bourse) o) fun _ => True :=
  neutral_act hf hl fun _ _ _ _ _ _ _ _ => trivial

theorem neutral_invoke {p : Proc} :
    Neutral E ok (.invoke (I := bourse) p) fun _ => True := by
  intro t fs d w hfs hat
  refine Discipline.wp_invoke (fun _ _ _ => trivial) fun w' hk r w'' hp _ v hkv _ => ?_
  exact ⟨((hat.kept hk).kept hp.1).kept hkv, trivial⟩

theorem neutral_invoke_inside {p : Proc} :
    Neutral E Inside (.invoke (I := bourse) p) (Succeeds p) := by
  intro t fs d w hfs hat
  refine Discipline.wp_invoke (fun _ _ _ => trivial) fun w' hk r w'' hp _ v hkv _ => ?_
  refine ⟨((hat.kept hk).kept hp.1).kept hkv, hp.2 ?_⟩
  rw [(hat.kept hk).1]
  exact hfs

/-! ## Transfers -/

theorem neutral_readnLoop {fd : Int} {n nleft : Nat} {got : List UInt8} :
    Neutral E ok (readnLoop fd n nleft got) fun _ => True := by
  unfold readnLoop
  split_ifs
  · refine Neutral.seq (neutral_step rfl nofun) fun r => ?_
    cases r with
    | interrupted => exact neutral_invoke
    | failed => exact neutral_ret trivial
    | data bs =>
      dsimp only
      split_ifs
      · exact neutral_ret trivial
      · exact neutral_invoke
  · exact neutral_ret trivial

theorem neutral_writenLoop {fd : Int} {n : Nat} {rest : List UInt8} :
    Neutral E ok (writenLoop fd n rest) fun _ => True := by
  unfold writenLoop
  split_ifs
  · refine Neutral.seq (neutral_step rfl nofun) fun r => ?_
    cases r with
    | interrupted => exact neutral_invoke
    | failed => exact neutral_ret trivial
    | wrote k => exact neutral_invoke
  · exact neutral_ret trivial

/-- Inside the module no write fails, so the loop returns the number of bytes. -/
theorem neutral_writenLoop_inside {fd : Int} {n : Nat} {rest : List UInt8} :
    Neutral E Inside (writenLoop fd n rest) fun r => 0 ≤ r := by
  unfold writenLoop
  split_ifs
  · refine Neutral.bind (V := fun r => r ≠ .failed) (neutral_act rfl nofun ?_) fun r hr => ?_
    · rintro t e s s' r hin he hw rfl
      obtain ⟨hconn, herr⟩ := hw hin
      simp only [exec, execWrite] at he
      split at he
      · contradiction
      · cases e <;> simp at he herr
    · cases r with
      | interrupted => exact neutral_invoke_inside
      | failed => exact absurd rfl hr
      | wrote k => exact neutral_invoke_inside
  · exact neutral_ret (Int.natCast_nonneg n)

theorem neutral_protoSendPacket {fd : Int} {hdr : PacketHeader} {payload : List UInt8} :
    Neutral E ok (protoSendPacket fd hdr payload) fun _ => True := by
  refine Neutral.seq (neutral_step rfl nofun) fun _ => Neutral.seq neutral_invoke fun r => ?_
  split_ifs
  · exact neutral_ret trivial
  · refine Neutral.seq neutral_invoke fun r => ?_
    split_ifs <;> exact neutral_ret trivial
  · exact neutral_ret trivial

/-- A packet sent from inside the module is sent completely. -/
theorem neutral_protoSendPacket_inside {fd : Int} {hdr : PacketHeader} {payload : List UInt8} :
    Neutral E Inside (protoSendPacket fd hdr payload) fun r => r.1 ≠ -1 := by
  refine Neutral.seq (neutral_step rfl nofun) fun _ =>
    Neutral.bind neutral_invoke_inside fun r (hr : 0 ≤ r) => ?_
  split_ifs with h
  · omega
  · refine Neutral.bind neutral_invoke_inside fun r (hr : 0 ≤ r) => ?_
    split_ifs with h
    · omega
    · exact neutral_ret (by simp)
  · exact neutral_ret (by simp)

theorem neutral_protoRecvPacket {fd : Int} {hdr : PacketHeader} {payload : Option Payload} :
    Neutral E ok (protoRecvPacket fd hdr payload) fun _ => True := by
  refine Neutral.seq neutral_invoke fun ⟨read, got⟩ => ?_
  dsimp only
  split_ifs
  · exact neutral_ret trivial
  · exact neutral_ret trivial
  · refine Neutral.seq (neutral_step rfl nofun) fun ⟨block, junk⟩ =>
      Neutral.seq neutral_invoke fun ⟨status, got⟩ => ?_
    dsimp only
    split_ifs <;> exact neutral_ret trivial
  · exact neutral_ret trivial

/-! ## The trader module -/

theorem neutral_traderRef {a : Nat} : Neutral E ok (traderRef a) fun _ => True :=
  neutral_scope <| neutral_lock <| .seq (neutral_step rfl nofun) fun _ =>
    .seq (neutral_step rfl nofun) fun _ => releasing_unlock (neutral_ret trivial)

theorem neutral_slotName {i : Nat} : Neutral E ok (slotName i) fun _ => True :=
  .seq (neutral_step rfl nofun) fun _ => .seq neutral_deref fun _ => neutral_step rfl nofun

theorem neutral_removeTraderIfEmpty {a : Nat} :
    Neutral E ok (removeTraderIfEmpty a) fun _ => True := by
  refine Neutral.seq (neutral_step rfl nofun) fun ref => ?_
  split_ifs
  · exact neutral_ret trivial
  · refine Neutral.seq (neutral_search fun i => ?_) fun _ => neutral_ret trivial
    refine Neutral.seq (neutral_step rfl nofun) fun p => ?_
    cases p with
    | none => exact neutral_ret trivial
    | some b =>
      refine Neutral.seq neutral_slotName fun _ => Neutral.seq (neutral_step rfl nofun) fun _ => ?_
      split_ifs
      · exact .seq (neutral_step rfl nofun) fun _ => .seq (neutral_step rfl nofun) fun _ =>
          .seq (neutral_step rfl nofun) fun _ => .seq (neutral_step rfl nofun) fun _ =>
            neutral_ret trivial
      · exact neutral_ret trivial

theorem neutral_traderUnref {a : Nat} : Neutral E ok (traderUnref a) fun _ => True := by
  refine neutral_scope (neutral_lock ?_)
  exact .seq (neutral_step rfl nofun) fun _ => .seq (neutral_step rfl nofun) fun _ =>
    .seq neutral_removeTraderIfEmpty fun _ => releasing_last

theorem neutral_checkOldTraderAndLogin {fd : Int} {name : CString} :
    Neutral E ok (checkOldTraderAndLogin fd name) fun _ => True := by
  refine neutral_search fun i => Neutral.seq (neutral_step rfl nofun) fun p => ?_
  cases p with
  | none => exact neutral_ret trivial
  | some b =>
    refine Neutral.seq neutral_slotName fun _ => ?_
    split_ifs
    · exact .seq (neutral_step rfl nofun) fun _ => .seq neutral_deref fun _ =>
        .seq neutral_traderRef fun _ => .seq (neutral_step rfl nofun) fun _ =>
          .seq neutral_deref fun _ => neutral_ret trivial
    · exact neutral_ret trivial

theorem neutral_getFirstAvailableIndex : Neutral E ok getFirstAvailableIndex fun _ => True := by
  refine neutral_search fun i => Neutral.seq (neutral_step rfl nofun) fun p => ?_
  cases p <;> exact neutral_ret trivial

theorem neutral_traderLogin {fd : Int} {name : CString} :
    Neutral E ok (traderLogin fd name) fun _ => True := by
  refine neutral_scope (Neutral.seq neutral_checkOldTraderAndLogin fun old => ?_)
  cases old with
  | some old =>
    refine Neutral.seq (neutral_step rfl nofun) fun oldFd => ?_
    split_ifs
    · exact neutral_ret trivial
    · exact .seq (neutral_step rfl nofun) fun _ => neutral_ret trivial
  | none =>
    refine Neutral.seq (neutral_step rfl nofun) fun total => ?_
    split_ifs
    · exact neutral_ret trivial
    · refine Neutral.seq (neutral_step rfl nofun) fun _ =>
        Neutral.seq (neutral_step rfl nofun) fun _ => Neutral.seq (neutral_step rfl nofun) fun _ =>
        Neutral.seq neutral_traderRef fun _ => Neutral.seq neutral_traderRef fun _ =>
        Neutral.seq (neutral_step rfl nofun) fun _ => Neutral.seq (neutral_step rfl nofun) fun _ =>
        Neutral.seq (neutral_step rfl nofun) fun _ => Neutral.seq (neutral_step rfl nofun) fun _ =>
        Neutral.seq (neutral_step rfl nofun) fun _ =>
        Neutral.seq neutral_getFirstAvailableIndex fun i => ?_
      cases i with
      | none => exact neutral_ret trivial
      | some i => exact .seq (neutral_step rfl nofun) fun _ => neutral_ret trivial

theorem neutral_traderLogout {a : Nat} : Neutral E ok (traderLogout a) fun _ => True := by
  refine neutral_scope (neutral_lock (.seq (neutral_search fun i => ?_) fun _ => releasing_last))
  refine Neutral.seq (neutral_step rfl nofun) fun p => ?_
  cases p with
  | none => exact neutral_ret trivial
  | some b =>
    refine Neutral.seq neutral_slotName fun _ => Neutral.seq (neutral_step rfl nofun) fun _ => ?_
    split_ifs
    · exact .seq neutral_traderUnref fun _ => .seq (neutral_step rfl nofun) fun _ =>
        neutral_ret trivial
    · exact neutral_ret trivial

/-- The exit that keeps the mutex is not taken. -/
theorem neutral_traderSendPacket {a : Nat} {hdr : PacketHeader} {data : List UInt8} :
    Neutral E ok (traderSendPacket a hdr data) fun _ => True := by
  refine neutral_scope (neutral_lock (.seq (neutral_step rfl nofun) fun fd =>
    .bind neutral_protoSendPacket_inside fun r hsent => ?_))
  obtain ⟨sent, _⟩ := r
  dsimp only at hsent ⊢
  rw [if_neg hsent]
  exact releasing_unlock (neutral_ret trivial)

theorem neutral_traderBroadcastPacket {hdr : PacketHeader} {data : List UInt8} :
    Neutral E ok (traderBroadcastPacket hdr data) fun _ => True := by
  refine neutral_scope (Neutral.seq (neutral_search fun i => ?_) fun _ => neutral_ret trivial)
  refine Neutral.seq (neutral_step rfl nofun) fun p => ?_
  cases p with
  | none => exact neutral_ret trivial
  | some b =>
    exact .seq (neutral_step rfl nofun) fun _ => .seq neutral_deref fun _ =>
      .seq neutral_traderSendPacket fun _ => neutral_ret trivial

theorem neutral_traderSendAck {a : Nat} {info : Option StatusInfo} :
    Neutral E ok (traderSendAck a info) fun _ => True := by
  refine neutral_scope (Neutral.seq (neutral_step rfl nofun) fun junk => ?_)
  cases info with
  | none => exact .seq neutral_traderSendPacket fun _ => neutral_ret trivial
  | some info =>
    exact .seq (neutral_step rfl nofun) fun _ => .seq (neutral_step rfl nofun) fun _ =>
      .seq neutral_traderSendPacket fun _ => neutral_ret trivial

theorem neutral_traderSendNack {a : Nat} : Neutral E ok (traderSendNack a) fun _ => True :=
  neutral_scope (.seq (neutral_step rfl nofun) fun _ => .seq neutral_traderSendPacket fun _ =>
    neutral_ret trivial)

theorem neutral_loadAsset {x : Asset} {a : Nat} : Neutral E ok (loadAsset x a) fun _ => True := by
  cases x <;> exact neutral_step rfl nofun

theorem neutral_storeAsset {x : Asset} {a : Nat} {v : UInt32} :
    Neutral E ok (storeAsset x a v) fun _ => True := by
  cases x <;> exact neutral_step rfl nofun

theorem neutral_increaseAsset {x : Asset} {a : Nat} {n : UInt32} :
    Neutral E ok (increaseAsset x a n) fun _ => True :=
  neutral_scope (neutral_lock (.seq neutral_loadAsset fun _ => .seq neutral_storeAsset fun _ =>
    releasing_last))

theorem neutral_decreaseAsset {x : Asset} {a : Nat} {n : UInt32} :
    Neutral E ok (decreaseAsset x a n) fun _ => True := by
  refine neutral_scope (neutral_lock (.seq neutral_loadAsset fun v => ?_))
  split_ifs
  · exact .seq neutral_loadAsset fun _ => .seq neutral_storeAsset fun _ =>
      releasing_unlock (neutral_ret trivial)
  · exact releasing_unlock (neutral_ret trivial)

theorem neutral_runAccount {a : Nat} {c : AccountCall} :
    Neutral E ok (runAccount a c) fun _ => True := by
  cases c with
  | increase x n => cases x <;> exact neutral_increaseAsset
  | decrease x n => cases x <;> exact .seq neutral_decreaseAsset fun _ => neutral_ret trivial

theorem neutral_runClient {c : ClientCall} : Neutral E ok (runClient c) fun _ => True := by
  cases c with
  | ref a => exact .seq neutral_traderRef fun _ => neutral_ret trivial
  | unref a => exact neutral_traderUnref
  | sendPacket a hdr data => exact .seq neutral_traderSendPacket fun _ => neutral_ret trivial
  | broadcast hdr data => exact .seq neutral_traderBroadcastPacket fun _ => neutral_ret trivial
  | sendAck a info => exact .seq neutral_traderSendAck fun _ => neutral_ret trivial
  | sendNack a => exact .seq neutral_traderSendNack fun _ => neutral_ret trivial
  | account a c => exact neutral_runAccount

theorem neutral_runClients {cs : List ClientCall} :
    Neutral E ok (runClients cs) fun _ => True := by
  induction cs with
  | nil => exact neutral_ret trivial
  | cons c cs ih => exact .seq neutral_runClient fun _ => ih

end LockBalance

end BourseServer
