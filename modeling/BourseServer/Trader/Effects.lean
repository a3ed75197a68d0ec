import BourseServer.Machine.Frame
import BourseServer.Trader.Nesting

/-!
# Effects of a piece of code

What code that is built from certain actions does to the state follows from what these actions
do. In particular plain code leaves the accounts alone, and a function of the trader module that
is called from outside counts as one call, whatever it calls itself.
-/
namespace BourseServer

open Concurrency

variable {E : Exchange} {ok : Condition (machine E)} {t : Nat} {α : Type} {P : Op → Prop}

theorem Partial.scope {c : Call} {value : α → Value} {p : Code α} {s : State E}
    {Q : α → State E → Prop}
    (h : Partial (machine E) ok t p
      (fun a s' => Q a { s' with hist := s'.hist.leave t (value a) })
      { s with hist := s.hist.enter t c }) :
    Partial (machine E) ok t (scope c value p) Q s := by
  refine Partial.bind (Partial.act fun e r s' he _ => ?_)
  cases he
  refine Partial.bind (h.mono fun a s' hQ => ?_)
  refine Partial.bind (Partial.act fun e r s'' he _ => ?_)
  cases he
  exact .ret hQ

/-- A relation that holds between the states before and after each action holds between the
states before and after the code. -/
theorem Built.partial_of_step {R : State E → State E → Prop} (hrefl : ∀ s, R s s)
    (htrans : ∀ {s s' s''}, R s s' → R s' s'' → R s s'')
    (hread : ∀ fd n, P (.read fd n)) (hwrite : ∀ fd bs, P (.write fd bs))
    (hstep : ∀ o e s r s', P o ∨ o.writesFrames = true → exec t o e s = .done r s' → ok o e s →
      R s s')
    (hframe : ∀ s h, R s { s with hist := h })
    {p : Code α} (hp : Built P p) (s : State E) :
    Partial (machine E) ok t p (fun _ => R s) s := by
  induction hp generalizing s with
  | leaf hu =>
    refine Partial.of_uses (I := bourse) (M := machine E) (P := P) hrefl htrans ?_ ?_ hu
    · exact fun p hp => uses_transfer hp hread hwrite
    · exact fun o e s r s' ho he hok => hstep o e s r s' (.inl ho) he hok
  | bind _ _ ihp ihf =>
    refine Partial.bind ((ihp s).mono fun a s' h => ?_)
    exact (ihf a s').mono fun b s'' h' => htrans h h'
  | scope _ ih =>
    refine Partial.scope ((ih _).mono fun a s' h => ?_)
    exact htrans (hframe s _) (htrans h (hframe s' _))

/-- A call leaves the call stacks as they were. -/
theorem Built.partial_frames {p : Code α} (hp : Framed p) (s : State E) :
    Partial (machine E) ok t p (fun _ s' => s'.hist.frames = s.hist.frames) s := by
  induction hp generalizing s with
  | leaf hu =>
    refine Partial.of_uses (I := bourse) (M := machine E)
      (R := fun s s' : State E => s'.hist.frames = s.hist.frames) (fun _ => rfl)
      (fun h h' => Eq.trans h' h) ?_ ?_ hu
    · exact fun p hp => uses_transfer hp (fun _ _ => rfl) fun _ _ => rfl
    · exact fun o e s r s' ho he _ => (exec_frame he).frames ho
  | bind _ _ ihp ihf =>
    exact Partial.bind ((ihp s).mono fun a s' h => (ihf a s').mono fun b s'' h' => h'.trans h)
  | @scope _ c _ _ _ ih =>
    refine Partial.scope ((ih _).mono fun a s' h => ?_)
    have hframes : s'.hist.frames = Function.update s.hist.frames t (c :: s.hist.frames t) := h
    simp [History.leave, hframes]

/-! ## References -/

/-- What a call from outside of the module does to the references that are taken. -/
def Call.settle (f : Nat → Nat) : Call → Nat → Nat
  | .ref a => Function.update f a (f a + 1)
  | .unref a => Function.update f a (f a - 1)
  | _ => f

/-- Inside a function, calls take and give back no reference of an outside holder. -/
theorem Built.partial_outstanding {p : Code α} (hp : Framed p) (s : State E)
    (hs : s.hist.frames t ≠ []) :
    Partial (machine E) ok t p (fun _ s' => s'.hist.outstanding = s.hist.outstanding) s := by
  induction hp generalizing s with
  | leaf hu =>
    refine Partial.of_uses (I := bourse) (M := machine E)
      (R := fun s s' : State E => s'.hist.outstanding = s.hist.outstanding) (fun _ => rfl)
      (fun h h' => Eq.trans h' h) ?_ ?_ hu
    · exact fun p hp => uses_transfer hp (fun _ _ => rfl) fun _ _ => rfl
    · exact fun o e s r s' ho he _ => (exec_frame he).outstanding ho
  | bind hp _ ihp ihf =>
    refine Partial.bind (((ihp s hs).and (hp.partial_frames s)).mono fun a s' h => ?_)
    have hs' : s'.hist.frames t ≠ [] := by
      rw [h.2]
      exact hs
    exact (ihf a s' hs').mono fun b s'' h' => h'.trans h.1
  | @scope _ c _ _ hp ih =>
    obtain ⟨c', fs, hfs⟩ := List.exists_cons_of_ne_nil hs
    let s₁ : State E := { s with hist := s.hist.enter t c }
    have hin : s₁.hist.frames t ≠ [] := by simp [s₁, History.enter]
    refine Partial.scope (((ih s₁ hin).and (hp.partial_frames s₁)).mono fun a s' h => ?_)
    have hframes : s'.hist.frames t = c :: c' :: fs := by
      rw [h.2]
      simp [s₁, History.enter, hfs]
    have hkept : s'.hist.outstanding = s.hist.outstanding := by
      rw [h.1]
      cases c <;> simp [s₁, History.enter, hfs]
    cases c <;> simp [History.leave, hframes, hkept]

/-- A call from outside of the module settles the references as `Call.settle` says. -/
theorem Implements.partial_outstanding {p : Code α} {c : Call} (hp : InnerCall p c) {s : State E}
    (hs : s.hist.frames t = []) :
    Partial (machine E) ok t p
      (fun _ s' => s'.hist.outstanding = c.settle s.hist.outstanding) s := by
  obtain ⟨value, body, rfl, hb⟩ := hp
  let s₁ : State E := { s with hist := s.hist.enter t c }
  have hin : s₁.hist.frames t ≠ [] := by simp [s₁, History.enter]
  refine Partial.scope (((hb.framed.partial_outstanding s₁ hin).and
    (hb.framed.partial_frames s₁)).mono fun a s' h => ?_)
  have hframes : s'.hist.frames t = [c] := by
    rw [h.2]
    simp [s₁, History.enter, hs]
  cases c <;> simp [History.leave, hframes, h.1, s₁, History.enter, hs, Call.settle]

/-! ## Accounts -/

/-- The quantities of an account. -/
def Trader.account (tr : Trader) : UInt32 × UInt32 := (tr.balance, tr.inventory)

/-- The accounts of all traders. -/
def State.accounts (s : State E) (a : Nat) : Option (UInt32 × UInt32) :=
  (s.traders a).map Trader.account

theorem State.accounts_setTrader {s : State E} {a : Nat} {tr tr' : Trader}
    (h : s.traders a = some tr) (hacc : tr'.account = tr.account) :
    (s.setTrader a (some tr')).accounts = s.accounts := by
  funext b
  by_cases hb : b = a
  · subst hb
    simp [accounts, setTrader, h, hacc]
  · simp [accounts, setTrader, hb]

theorem exec_plain_accounts {o : Op} {e : Choice E} {s s' : State E} {r : o.Reply}
    (ho : o.plain = true ∨ o.writesFrames = true) (h : exec t o e s = .done r s') :
    s'.accounts = s.accounts := by
  cases hw : o.writesTraders with
  | false =>
    have htr := (exec_frame h).traders hw
    funext a
    simp [State.accounts, htr]
  | true =>
    cases o <;> simp only [Op.writesTraders, Op.writesFrames, Op.plain] at hw ho
    case lock a =>
      obtain ⟨tr, m, htr, _, rfl⟩ := exec_lock h
      exact State.accounts_setTrader htr rfl
    case unlock a =>
      obtain ⟨tr, htr, rfl⟩ := exec_unlock h
      exact State.accounts_setTrader htr rfl
    case mutexInit a =>
      obtain ⟨tr, htr, rfl⟩ := exec_mutexInit h
      exact State.accounts_setTrader htr rfl
    case store f a v =>
      obtain ⟨tr, htr, rfl⟩ := exec_store h
      cases f <;> simp at ho <;> exact State.accounts_setTrader htr rfl
    all_goals simp at hw ho

theorem Built.partial_accounts {p : Code α} (hp : Plain p) (s : State E) :
    Partial (machine E) ok t p (fun _ s' => s'.accounts = s.accounts) s :=
  hp.partial_of_step (R := fun s s' => s'.accounts = s.accounts) (fun _ => rfl)
    (fun h h' => h'.trans h) (fun _ _ => rfl) (fun _ _ => rfl)
    (fun _ _ _ _ _ ho he _ => exec_plain_accounts ho he) (fun _ _ => rfl) s

/-! ## Calls -/

/-- The calls that thread `t` makes outside of the trader module, newest first. -/
def outerCalls (t : Nat) (events : List Event) : List (Call ⊕ ExchangeCall) :=
  events.filterMap fun
    | .called u 0 c => if u = t then some (.inl c) else none
    | .exchanged u c _ => if u = t then some (.inr c) else none
    | _ => none

/-- The frames of thread `t`, the calls it has made outside of the module, and the exchange. -/
def State.calls (s : State E) (t : Nat) : List Call × List (Call ⊕ ExchangeCall) × E.State :=
  (s.hist.frames t, outerCalls t s.hist.events, s.exchange)

theorem exec_inner_calls {o : Op} {e : Choice E} {s s' : State E} {r : o.Reply}
    (ho : o.inner = true) (h : exec t o e s = .done r s') : s'.calls t = s.calls t := by
  have hf : o.writesFrames = false := by
    cases o <;> first | rfl | cases ho
  have hx : o.writesExchange = false := by
    cases o <;> first | rfl | cases ho
  have hframes := (exec_frame h).frames hf
  have hexchange := (exec_frame h).exchange hx
  cases hw : o.writesEvents with
  | false =>
    have hevents := (exec_frame h).events hw
    simp [State.calls, hframes, hevents, hexchange]
  | true =>
    cases o <;> simp only [Op.writesEvents, Op.inner] at hw ho
    case lock a =>
      obtain ⟨tr, m, _, _, rfl⟩ := exec_lock h
      simp [State.calls, outerCalls, History.acquire, State.setTrader]
    all_goals simp at hw ho

/-- Inside a function, calls leave no trace in what is called from outside. -/
theorem Built.partial_inside {p : Code α} (hp : Inner p) (s : State E)
    (hs : s.hist.frames t ≠ []) :
    Partial (machine E) ok t p (fun _ s' => s'.calls t = s.calls t) s := by
  induction hp generalizing s with
  | leaf hu =>
    refine Partial.of_uses (I := bourse) (M := machine E)
      (R := fun s s' : State E => s'.calls t = s.calls t) (fun _ => rfl)
      (fun h h' => Eq.trans h' h) ?_ ?_ hu
    · exact fun p hp => uses_transfer hp (fun _ _ => rfl) fun _ _ => rfl
    · exact fun o e s r s' ho he _ => exec_inner_calls ho he
  | bind _ _ ihp ihf =>
    refine Partial.bind ((ihp s hs).mono fun a s' h => ?_)
    have hframes : s'.hist.frames t = s.hist.frames t := congrArg Prod.fst h
    refine (ihf a s' (by rwa [hframes])).mono fun b s'' h' => h'.trans h
  | scope _ ih =>
    refine Partial.scope ((ih _ (by simp [History.enter])).mono fun a s' h => ?_)
    obtain ⟨hframes, hrest⟩ := Prod.mk.inj h
    obtain ⟨hevents, hexchange⟩ := Prod.mk.inj hrest
    obtain ⟨n, hn⟩ : ∃ n, (s.hist.frames t).length = n + 1 :=
      Nat.exists_eq_succ_of_ne_zero (by simpa using hs)
    simp only [History.enter, Function.update_self] at hframes
    simp only [State.calls, History.leave, hframes, Function.update_self]
    refine Prod.ext rfl (Prod.ext ?_ hexchange)
    simpa [outerCalls, History.enter, hn] using hevents

/-- A function that is called from outside counts as one call. -/
theorem Implements.partial_calls {p : Code α} {c : Call} (hp : InnerCall p c) {s : State E}
    (hs : s.hist.frames t = []) :
    Partial (machine E) ok t p
      (fun _ s' => s'.calls t = ([], .inl c :: outerCalls t s.hist.events, s.exchange)) s := by
  obtain ⟨value, body, rfl, hb⟩ := hp
  refine Partial.scope ((hb.partial_inside _ (by simp [History.enter])).mono fun a s' h => ?_)
  obtain ⟨hframes, hrest⟩ := Prod.mk.inj h
  obtain ⟨hevents, hexchange⟩ := Prod.mk.inj hrest
  simp only [History.enter, Function.update_self, hs] at hframes
  simp only [State.calls, History.leave, hframes, Function.update_self]
  refine Prod.ext rfl (Prod.ext ?_ hexchange)
  simpa [outerCalls, History.enter, hs] using hevents

end BourseServer
