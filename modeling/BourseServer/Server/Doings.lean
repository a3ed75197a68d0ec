import BourseServer.Server.PayloadOrigin

/-!
# What a thread does outside of the modules it calls

The calls of the trader module and of the exchange that a thread makes, in order and with their
results. What a function of the trader module calls itself does not count.
-/
namespace BourseServer

open Concurrency Bytes

variable {E : Exchange} {ok : Condition (machine E)} {t a : Nat} {α : Type}

/-- A call of the trader module or of the exchange, with its result. -/
inductive Doing where
  | call (c : Call) (v : Value)
  | exchange (c : ExchangeCall) (r : ExchangeResult)
  deriving DecidableEq, Repr

/-- What thread `t` has done, newest first. The value is the result of a call that has ended and
whose beginning lies further back. -/
def doings (t : Nat) : Option Value → List Event → List Doing
  | _, [] => []
  | none, .returned u _ v :: es => if u = t then doings t (some v) es else doings t none es
  | none, .exchanged u c r :: es =>
    if u = t then .exchange c r :: doings t none es else doings t none es
  | none, _ :: es => doings t none es
  | some v, .called u 0 c :: es =>
    if u = t then .call c v :: doings t none es else doings t (some v) es
  | some v, _ :: es => doings t (some v) es

/-- Thread `t` is in no function of the trader module, and has done `ds`. -/
def Did (t : Nat) (ds : List Doing) (s : State E) : Prop :=
  s.hist.frames t = [] ∧ doings t none s.hist.events = ds

variable {ds : List Doing} {s s' : State E}

/-! ## Calls -/

theorem exec_inner_doings {o : Op} {e : Choice E} {r : o.Reply} (ho : o.inner = true)
    (h : exec t o e s = .done r s') :
    s'.hist.frames t = s.hist.frames t ∧
      ∀ v, doings t v s'.hist.events = doings t v s.hist.events := by
  have hframes : o.writesFrames = false := by
    cases o <;> first | rfl | cases ho
  refine ⟨congrFun ((exec_frame h).frames hframes) t, fun v => ?_⟩
  cases hw : o.writesEvents with
  | false => rw [(exec_frame h).events hw]
  | true =>
    cases o with
    | lock a =>
      obtain ⟨tr, m, _, _, rfl⟩ := exec_lock h
      cases v <;> rfl
    | enter c => cases ho
    | leave v => cases ho
    | exchange c => cases ho
    | _ => cases hw

/-- Inside a function, nothing is done that counts. -/
theorem Built.partial_unnoticed {p : Code α} (hp : Inner p) (s : State E)
    (hs : s.hist.frames t ≠ []) :
    Partial (machine E) ok t p (fun _ s' => s'.hist.frames t = s.hist.frames t ∧
      ∀ v, doings t (some v) s'.hist.events = doings t (some v) s.hist.events) s := by
  induction hp generalizing s with
  | leaf hu =>
    apply Partial.of_uses (I := bourse) (M := machine E) (P := fun o : Op => o.inner = true)
      (R := fun s s' : State E => s'.hist.frames t = s.hist.frames t ∧
        ∀ v, doings t (some v) s'.hist.events = doings t (some v) s.hist.events)
      (fun _ => ⟨rfl, fun _ => rfl⟩)
      (fun h h' => ⟨h'.1.trans h.1, fun v => (h'.2 v).trans (h.2 v)⟩) ?_ ?_ hu
    · exact fun p hp => uses_transfer hp (fun _ _ => rfl) fun _ _ => rfl
    · intro o e s r s' ho he _
      obtain ⟨hframes, hevents⟩ := exec_inner_doings (t := t) ho he
      exact ⟨hframes, fun v => hevents (some v)⟩
  | bind _ _ ihp ihf =>
    refine Partial.bind ((ihp s hs).mono fun a s' h => ?_)
    refine (ihf a s' (by rwa [h.1])).mono fun b s'' h' => ?_
    exact ⟨h'.1.trans h.1, fun v => (h'.2 v).trans (h.2 v)⟩
  | scope _ ih =>
    refine Partial.scope ((ih _ (by simp [History.enter])).mono fun a s' h => ?_)
    obtain ⟨hframes, hevents⟩ := h
    obtain ⟨n, hn⟩ : ∃ n, (s.hist.frames t).length = n + 1 :=
      Nat.exists_eq_succ_of_ne_zero (by simpa using hs)
    simp only [History.enter, Function.update_self, hn] at hframes hevents
    simp only [History.leave, hframes, Function.update_self, true_and]
    exact fun v => hevents v

/-- A function that is called from outside is one call, with the value that it returns. -/
theorem Answers.partial_did {p : Code α} {c : Call} {value : α → Value}
    (hp : Answers (fun o => o.inner = true) p c value) (h : Did t ds s) :
    Partial (machine E) ok t p (fun r s' => Did t (.call c (value r) :: ds) s') s := by
  obtain ⟨body, rfl, hb⟩ := hp
  obtain ⟨hout, rfl⟩ := h
  apply Partial.scope
  refine (hb.partial_unnoticed _ (by simp [History.enter])).mono fun r s' h => ?_
  obtain ⟨hframes, hevents⟩ := h
  simp only [History.enter, Function.update_self, hout] at hframes hevents
  constructor
  · simp [History.leave, hframes]
  · simp only [History.leave, hframes, doings, if_true]
    rw [hevents]
    simp [doings]

/-- The same without the value. -/
theorem Implements.partial_did {p : Code α} {c : Call} (hp : InnerCall p c) (h : Did t ds s) :
    Partial (machine E) ok t p (fun _ s' => ∃ v, Did t (.call c v :: ds) s') s := by
  obtain ⟨value, body, hbody, hb⟩ := hp
  have hanswers : Answers (fun o => o.inner = true) p c value := ⟨body, hbody, hb⟩
  exact (hanswers.partial_did h).mono fun r _ h' => ⟨value r, h'⟩

theorem partial_exchange_did (h : Did t ds s) {c : ExchangeCall} :
    Partial (machine E) ok t (exchange c)
      (fun r s' => Did t (.exchange c (c.result r) :: ds) s') s := by
  apply Partial.act
  intro e r s' he _
  obtain ⟨hout, rfl⟩ := h
  simp only [exec] at he
  split at he
  · cases he
    exact ⟨hout, by simp [History.exchange, doings]⟩
  · cases he

/-- Code that enters no function and calls no exchange. -/
theorem partial_did_of_uses {p : Code α}
    (hp : p.Uses (fun o : Op => o.inner = true) Proc.Transfer) (h : Did t ds s) :
    Partial (machine E) ok t p (fun _ s' => Did t ds s') s := by
  have hkept : Partial (machine E) ok t p (fun _ s' => s'.hist.frames t = s.hist.frames t ∧
      doings t none s'.hist.events = doings t none s.hist.events) s := by
    apply Partial.of_uses (I := bourse) (M := machine E) (P := fun o : Op => o.inner = true)
      (R := fun s s' : State E => s'.hist.frames t = s.hist.frames t ∧
        doings t none s'.hist.events = doings t none s.hist.events)
      (fun _ => ⟨rfl, rfl⟩) (fun h h' => ⟨h'.1.trans h.1, h'.2.trans h.2⟩) ?_ ?_ hp
    · exact fun p hp => uses_transfer hp (fun _ _ => rfl) fun _ _ => rfl
    · intro o e s r s' ho he _
      obtain ⟨hframes, hevents⟩ := exec_inner_doings (t := t) ho he
      exact ⟨hframes, hevents none⟩
  exact hkept.mono fun _ s' hs => ⟨hs.1.trans h.1, hs.2.trans h.2⟩

end BourseServer
