import BourseServer.Server.Service
import BourseServer.Trader.Effects

/-!
# A new trader

`trader_login` takes two references to a new trader before it initialises the mutex, and the
reference count starts with what the memory from `malloc` holds. So the mutex is always locked
before it is initialised, and the trader's count is off by the old content of its memory.
-/
namespace BourseServer

open Concurrency

variable {E : Exchange} {ok : Condition (machine E)} {t a : Nat} {s : State E} {tr : Trader}

/-! ## The record of one trader -/

/-- The record of trader `a` is `tr`, up to its mutex. -/
def State.Has (s : State E) (a : Nat) (tr : Trader) : Prop :=
  ∃ m, s.traders a = some { tr with mutex := m }

theorem has_setTrader {m : Mutex} (hist : History) :
    State.Has { s.setTrader a (some { tr with mutex := m }) with hist := hist } a tr :=
  ⟨m, Function.update_self ..⟩

theorem partial_lock_has {Q : Unit → State E → Prop} (h : s.Has a tr)
    (hQ : ∀ s', s'.Has a tr → Q () s') : Partial (machine E) ok t (lock a) Q s := by
  refine .act fun e r s' he _ => ?_
  obtain ⟨tr', m, htr, _, rfl⟩ := exec_lock (t := t) (e := e) he
  obtain ⟨m', h⟩ := h
  obtain rfl := Option.some.inj (h.symm.trans htr)
  exact hQ _ (has_setTrader (s.hist.acquire t a))

theorem partial_unlock_has {Q : Unit → State E → Prop} (h : s.Has a tr)
    (hQ : ∀ s', s'.Has a tr → Q () s') : Partial (machine E) ok t (unlock a) Q s := by
  refine .act fun e r s' he _ => ?_
  obtain ⟨tr', htr, rfl⟩ := exec_unlock (t := t) (e := e) he
  obtain ⟨m', h⟩ := h
  obtain rfl := Option.some.inj (h.symm.trans htr)
  exact hQ _ (has_setTrader s.hist)

theorem partial_mutexInit_has {Q : Unit → State E → Prop} (h : s.Has a tr)
    (hQ : ∀ s', s'.Has a tr → Q () s') : Partial (machine E) ok t (mutexInit a) Q s := by
  refine .act fun e r s' he _ => ?_
  obtain ⟨tr', htr, rfl⟩ := exec_mutexInit (t := t) (e := e) he
  obtain ⟨m', h⟩ := h
  obtain rfl := Option.some.inj (h.symm.trans htr)
  exact hQ _ (has_setTrader s.hist)

theorem partial_loadRef_has {Q : Int → State E → Prop} (h : s.Has a tr) (hQ : Q tr.ref s) :
    Partial (machine E) ok t (load .ref a) Q s := by
  refine .act fun e r s' he _ => ?_
  obtain ⟨tr', htr, rfl, rfl⟩ := exec_load (t := t) (e := e) he
  obtain ⟨m', h⟩ := h
  obtain rfl := Option.some.inj (h.symm.trans htr)
  exact hQ

theorem partial_store_has {f : Field} {v : f.Ty} {Q : Unit → State E → Prop} (h : s.Has a tr)
    (hQ : ∀ s', s'.Has a (tr.set f v) → Q () s') :
    Partial (machine E) ok t (store f a v) Q s := by
  refine .act fun e r s' he _ => ?_
  obtain ⟨tr', htr, rfl⟩ := exec_store (t := t) (e := e) he
  obtain ⟨m', h⟩ := h
  obtain rfl := Option.some.inj (h.symm.trans htr)
  refine hQ _ ⟨m', ?_⟩
  cases f <;> exact Function.update_self ..

theorem partial_slot {i : Nat} {Q : Option Nat → State E → Prop} (hQ : Q (s.allTraders i) s) :
    Partial (machine E) ok t (slot i) Q s := by
  refine .act fun e r s' he _ => ?_
  obtain ⟨rfl, rfl⟩ := exec_slot (t := t) (e := e) he
  exact hQ

theorem partial_traderRef_has {Q : Nat → State E → Prop} (h : s.Has a tr)
    (hQ : ∀ s', s'.Has a { tr with ref := tr.ref + 1 } → Q a s') :
    Partial (machine E) ok t (traderRef a) Q s := by
  refine Partial.scope (.bind (partial_lock_has h fun s₁ h₁ => .bind (partial_loadRef_has h₁ ?_)))
  refine .bind (partial_store_has h₁ fun s₂ h₂ => .bind (partial_unlock_has h₂ fun s₃ h₃ => ?_))
  exact .ret (hQ _ h₃)

/-- The same, with the mutex as it is found. -/
theorem partial_traderRef_locks {m : Mutex} {Q : Nat → State E → Prop}
    (h : s.traders a = some { tr with mutex := m })
    (hQ : ∀ s', s'.Has a { tr with ref := tr.ref + 1 } →
      (∃ e u, ok (.lock a) e u ∧ State.traders u a = some { tr with mutex := m }) → Q a s') :
    Partial (machine E) ok t (traderRef a) Q s := by
  refine Partial.scope (.bind (.act fun e r s₁ he hok => ?_))
  obtain ⟨tr', m', htr, _, rfl⟩ := exec_lock (t := t) (e := e) he
  obtain rfl := Option.some.inj (h.symm.trans htr)
  have hhas : State.Has { s.setTrader a (some { tr with mutex := m' }) with
      hist := s.hist.acquire t a } a tr := ⟨m', Function.update_self ..⟩
  refine .bind (partial_loadRef_has hhas ?_)
  refine .bind (partial_store_has hhas fun s₂ h₂ => ?_)
  refine .bind (partial_unlock_has h₂ fun s₃ h₃ => .ret ?_)
  exact hQ _ h₃ ⟨e, _, hok, h⟩

theorem partial_mallocTrader {Q : Nat → State E → Prop}
    (hQ : ∀ b junk s', ok .mallocTrader (.trader b junk) s → s.traders b = none →
      s'.traders b = some { junk with mutex := ⟨false, none, junk.mutex.depth⟩ } → Q b s') :
    Partial (machine E) ok t mallocTrader Q s := by
  refine .act fun e b s' he hok => ?_
  obtain ⟨junk, rfl, hfree, rfl⟩ := exec_mallocTrader (t := t) (e := e) he
  exact hQ b junk _ hok hfree (Function.update_self ..)

/-- The search for a slot and the store to it leave the record alone. -/
theorem partial_getFirst_has {Q : Option Nat → State E → Prop} (h : s.Has a tr)
    (hQ : ∀ r s', s'.Has a tr → Q r s') :
    Partial (machine E) ok t getFirstAvailableIndex Q s := by
  refine .searchFrom (fun _ s' => State.Has s' a tr) h ?_ fun s' h' => hQ none s' h'
  intro i s' _ _ h'
  refine .bind (partial_slot ?_)
  cases State.allTraders s' i with
  | none => exact .ret ⟨nofun, fun x _ => hQ _ s' h'⟩
  | some b => exact .ret ⟨fun _ => h', nofun⟩

/-! ## A login under a new name -/

/-- No trader in the table has this name. -/
def State.Unknown (s : State E) (name : CString) : Prop :=
  ∀ i b tr, s.allTraders i = some b → s.traders b = some tr → strcmpEq tr.name name = false

/-- The scan finds nothing. -/
theorem partial_checkOld_unknown {fd : Int} {name : CString} {Q : Option Nat → State E → Prop}
    (hunknown : s.Unknown name) (hQ : Q none s) :
    Partial (machine E) ok t (checkOldTraderAndLogin fd name) Q s := by
  refine .searchFrom (fun _ s' => s' = s) rfl ?_ (by rintro _ rfl; exact hQ)
  rintro i s' _ _ heq
  obtain rfl := heq
  refine .bind (partial_slot ?_)
  cases hslot : s'.allTraders i with
  | none => exact .ret ⟨fun _ => rfl, nofun⟩
  | some b =>
    refine .bind (.bind (partial_slot ?_))
    rw [hslot]
    refine .bind (.ret (.act fun e r s' he _ => ?_))
    obtain ⟨tr, htr, rfl, rfl⟩ := exec_load (t := t) (e := e) he
    have hno : strcmpEq (tr.get .name) name = false := hunknown i b tr hslot htr
    rw [hno]
    exact .ret ⟨fun _ => rfl, nofun⟩

/-- What is true of every run of a login under a new name, whatever condition its steps meet: a
trader is allocated, locked before its mutex is initialised, and has two references more than its
memory held, and no other trader is returned. -/
theorem partial_traderLogin_new {fd : Int} {name : CString} (hunknown : s.Unknown name)
    (hcount : s.count < maxTraders) :
    Partial (machine E) ok t (traderLogin fd name) (fun r s' => ∃ b junk,
      s.traders b = none ∧ (∃ u, ok .mallocTrader (.trader b junk) u) ∧
      (∃ e u tr, ok (.lock b) e u ∧ State.traders u b = some tr ∧
        tr.mutex.initialised = false) ∧
      State.Has s' b ⟨junk.ref + 2, fd, 0, 0, junk.mutex, name⟩ ∧ ∀ a, r = some a → a = b) s := by
  refine Partial.scope (.bind (partial_checkOld_unknown hunknown ?_))
  refine .bind (.act fun e r s' he _ => ?_)
  cases he
  rw [if_neg (by dsimp only; omega)]
  refine .bind (.act fun e r s' he _ => ?_)
  cases he
  refine .bind (.act fun e r s' he _ => ?_)
  cases he
  refine .bind (partial_mallocTrader fun b junk s₁ hmalloc hfree h₁ => ?_)
  refine .bind (partial_traderRef_locks h₁ fun s₂ h₂ hlock => ?_)
  refine .bind (partial_traderRef_has h₂ fun s₃ h₃ => .bind (partial_store_has h₃ fun s₄ h₄ => ?_))
  refine .bind (partial_store_has h₄ fun s₅ h₅ => .bind (partial_store_has h₅ fun s₆ h₆ => ?_))
  refine .bind (partial_store_has h₆ fun s₇ h₇ => ?_)
  refine .bind (partial_mutexInit_has h₇ fun s₈ h₈ => ?_)
  obtain ⟨e, u, hok, hu⟩ := hlock
  refine .bind (partial_getFirst_has h₈ fun r s₉ h₉ => ?_)
  have hhas : State.Has s₉ b ⟨junk.ref + 2, fd, 0, 0, junk.mutex, name⟩ := by
    obtain ⟨m, hm⟩ := h₉
    refine ⟨m, hm.trans ?_⟩
    simp [Trader.set]
    omega
  have hlocked : ∃ e u tr, ok (.lock b) e u ∧ State.traders u b = some tr ∧
      tr.mutex.initialised = false := ⟨e, u, _, hok, hu, rfl⟩
  cases r with
  | none => exact .ret ⟨b, junk, hfree, ⟨_, hmalloc⟩, hlocked, hhas, nofun⟩
  | some i =>
    refine .bind (.act fun e r s' he _ => ?_)
    cases he
    refine .ret ⟨b, junk, hfree, ⟨_, hmalloc⟩, hlocked, hhas, fun a ha => ?_⟩
    exact (Option.some.inj ha).symm

/-- Every mutex that is locked has been initialised. -/
def locksInitialised : Condition (machine E) := fun o _ s =>
  ∀ a tr, o = .lock a → State.traders s a = some tr → tr.mutex.initialised = true

/-- The memory of a new trader holds `junk`. -/
def memoryHolds (junk : Trader) : Condition (machine E) := fun _ e _ =>
  ∀ a junk', e = .trader a junk' → junk' = junk

/-- In no run of a login under a new name is every mutex initialised before it is locked; and the
trader that the login returns has two references more than its memory held, if an `int` can
count them. -/
theorem new_trader_never_sound {fd : Int} {name : CString} (hunknown : s.Unknown name)
    (hcount : s.count < maxTraders) :
    (¬ ∃ r s', Runs (machine E) locksInitialised t (traderLogin fd name) s r s') ∧
      ∀ junk, FitsInt (junk.ref + 2) →
        Partial (machine E) (memoryHolds junk) t (traderLogin fd name) (fun r s' =>
          ∀ a, r = some a →
            State.Has s' a ⟨junk.ref + 2, fd, 0, 0, junk.mutex, name⟩) s := by
  constructor
  · rintro ⟨r, s', hr⟩
    obtain ⟨b, _, _, _, ⟨e, u, tr, hok, htr, hno⟩, _⟩ :=
      partial_traderLogin_new hunknown hcount r s' hr
    rw [hok b tr rfl htr] at hno
    cases hno
  · rintro junk - r s' hr a rfl
    obtain ⟨b, junk', _, ⟨u, hok⟩, _, hhas, hreturn⟩ :=
      partial_traderLogin_new hunknown hcount _ s' hr
    obtain rfl := hok b junk' rfl
    obtain rfl := hreturn a rfl
    exact hhas

/-- The name `a`. -/
def letterA : CString := ⟨0, [97, 0]⟩

/-- The first login is never sound. -/
theorem first_login_never_sound :
    (¬ ∃ r s', Runs (machine (.fixed 1 1)) locksInitialised 0 (traderLogin 3 letterA)
      (State.init _ () 4) r s') ∧
    ∀ junk, FitsInt (junk.ref + 2) →
      Partial (machine (.fixed 1 1)) (memoryHolds junk) 0 (traderLogin 3 letterA)
        (fun r s' => ∀ a, r = some a →
          State.Has s' a ⟨junk.ref + 2, 3, 0, 0, junk.mutex, letterA⟩) (State.init _ () 4) :=
  new_trader_never_sound (fun _ _ _ => nofun) (by decide)

/-- The memory of a trader that was freed with 5 references. -/
def staleTrader : Trader := ⟨5, 0, 0, 0, .fresh, ⟨0, []⟩⟩

def staleCourse (o : Op) (s : State (.fixed 1 1)) : Option (Choice (.fixed 1 1)) :=
  match o with
  | .mallocTrader => some (.trader 0 staleTrader)
  | o => some (.smooth () o s)

/-- In memory of a trader that had 5 references a new trader has 7. -/
theorem stale_references_counted : ∃ s' : State (.fixed 1 1),
    Runs (machine (.fixed 1 1)) anyStep 0 (traderLogin 3 letterA) (State.init _ () 4) (some 0) s' ∧
      (s'.traders 0).map Trader.ref = some 7 := by
  obtain ⟨⟨r, s'⟩, hlogin, hs'⟩ := (Option.any_eq_true _ _).mp
    (show (((machine (.fixed 1 1)).finish staleCourse 0 400 (traderLogin 3 letterA)
      (State.init _ () 4)).any fun p => p.1 = some 0 ∧ (p.2.traders 0).map Trader.ref = some 7) =
        true by decide +kernel)
  obtain ⟨rfl, href⟩ := of_decide_eq_true hs'
  exact ⟨s', .of_finish (fun _ _ _ _ => trivial) hlogin, href⟩

end BourseServer
