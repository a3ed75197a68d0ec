import BourseServer.Protocol.RoundTrip

/-!
# Operations come to an end

A function of the trader module waits for mutexes only, and its loops visit each slot once. So it
comes to its end when the records that it refers to exist and no other thread holds their mutexes,
as long as the outside world lets every system call succeed in the end.
-/
namespace BourseServer

open Concurrency Bytes

variable {E : Exchange} {G : Regime (machine E)} {t a : Nat} {fd : Int} {s s' : State E}

/-! ## The outside world -/

/-- The actions on which the outside world has no influence. -/
def Op.silent : Op → Bool
  | .mallocTrader | .malloc _ | .uninit _ | .beyond _ | .read .. | .write .. | .clock
  | .exchange _ => false
  | _ => true

theorem exec_silent {o : Op} (ho : o.silent = true) (e : Choice E) :
    exec t o e s = exec t o .tick s := by
  cases o <;> first | rfl | cases ho

/-- A regime in which the actions of the thread alone are possible. -/
structure Passive (G : Regime (machine E)) : Prop where
  silent : ∀ {o s}, Op.silent o = true → G.ok o .tick s
  again : G.again .tick = false

namespace Passive

theorem total_silent (hG : Passive G) {o : Op} {r : o.Reply} {s' : State E}
    {Q : o.Reply → State E → Prop} (ho : o.silent = true) (h : exec t o .tick s = .done r s')
    (hQ : Q r s') : Total G t (.act (I := bourse) o) Q s := by
  refine Total.act ⟨.tick, r, s', h, hG.silent ho, hG.again⟩ fun e r' s'' he _ => ?_
  have he' : exec t o e s = .done r' s'' := he
  rw [exec_silent ho, h] at he'
  cases he'
  exact hQ

theorem total_scope (hG : Passive G) {α : Type} {c : Call} {value : α → Value} {p : Code α}
    {Q : α → State E → Prop}
    (h : Total G t p (fun r s' => Q r { s' with hist := s'.hist.leave t (value r) })
      { s with hist := s.hist.enter t c }) :
    Total G t (scope c value p) Q s := by
  refine Total.bind (hG.total_silent (Q := fun _ s' => s' = { s with hist := s.hist.enter t c })
    rfl rfl rfl) ?_
  rintro _ _ rfl
  refine h.bind fun r s' hQ => ?_
  exact Total.bind (hG.total_silent (Q := fun _ s'' => Q r s'') rfl rfl hQ)
    fun _ _ hQ => .ret hQ

end Passive

/-- A regime in which the outside world always finds a way to go on. -/
structure Answering (G : Regime (machine E)) : Prop extends Sending G, Receiving G where
  silent : ∀ {o s}, Op.silent o = true → G.ok o .tick s
  uninit : ∀ n s, ∃ junk : List UInt8, junk.length = n ∧ G.ok (.uninit n) (.memory junk) s
  beyond : ∀ n s, ∃ junk : List UInt8, junk.length = n ∧ G.ok (.beyond n) (.memory junk) s
  exchange : ∀ c s, ∃ e, G.ok (.exchange c) (.exchange e) s

theorem Answering.passive (hG : Answering G) : Passive G := ⟨hG.silent, hG.again .tick⟩

/-- No system call fails, and the memory of a new record does not look like a locked mutex. -/
def civil (E : Exchange) : Regime (machine E) where
  ok o e _ := e ≠ .ioError ∧
    (o = .mallocTrader → ∀ a junk, e = .trader a junk → junk.mutex.depth = 0)
  again := Choice.isEintr

theorem answering_civil (hE : Nonempty E.Choice) : Answering (civil E) where
  again _ := rfl
  write := ⟨And.left, fun h => ⟨h, by simp⟩⟩
  clock := by simp [civil]
  read := ⟨And.left, fun h => ⟨h, by simp⟩⟩
  malloc := by simp [civil]
  silent _ := by simp [civil]
  uninit n _ := ⟨List.replicate n 0, by simp, by simp [civil]⟩
  beyond n _ := ⟨List.replicate n 0, by simp, by simp [civil]⟩
  exchange _ _ := hE.elim fun e => ⟨e, by simp [civil]⟩

theorem reliable_of_civil {o : Op} {e : Choice E} (h : (civil E).ok o e s) :
    (reliable E).ok o e s := h.1

/-! ## Traders that can be worked with -/

theorem Mutex.lock_again {m m' : Mutex} (h : m.lock t = some m') :
    ∃ m'', m'.lock t = some m'' := by
  unfold Mutex.lock at h
  split_ifs at h with hdepth howner
  · cases h
    exact ⟨_, if_pos rfl⟩
  · cases h
    exact ⟨_, by rw [lock, if_neg (by simp), if_pos howner]⟩

theorem Mutex.lock_unlock {m m' : Mutex} (h : m.lock t = some m') :
    ∃ m'', (m.unlock t).lock t = some m'' := by
  unfold Mutex.unlock
  split_ifs with howner hdepth
  · exact ⟨_, if_pos rfl⟩
  · exact ⟨_, by rw [lock, if_neg (by dsimp only; omega), if_pos howner]⟩
  · exact ⟨m', h⟩

/-- No mutex is held by a thread other than `t`. -/
def State.FreeFor (t : Nat) (s : State E) : Prop :=
  ∀ a tr, s.traders a = some tr → ∃ m, tr.mutex.lock t = some m

/-- The slots refer to traders that exist. -/
def State.Linked (s : State E) : Prop :=
  ∀ i a, s.allTraders i = some a → ∃ tr, s.traders a = some tr

/-- The reference counts of the traders. -/
def State.refs (s : State E) (a : Nat) : Option Int := (s.traders a).map Trader.ref

/-- The traders in `ρ` have these reference counts, and thread `t` can lock their mutexes; the
table and the blocks in use are `slots` and `blocks`. -/
structure Working (t : Nat) (ρ : Nat → Option Int) (slots : Nat → Option Nat) (blocks : List Nat)
    (s : State E) : Prop where
  trader : ∀ {a r}, ρ a = some r →
    ∃ tr, s.traders a = some tr ∧ tr.ref = r ∧ ∃ m, tr.mutex.lock t = some m
  table : s.allTraders = slots
  blocks : s.blocks = blocks

theorem State.FreeFor.working (h : s.FreeFor t) : Working t s.refs s.allTraders s.blocks s where
  trader {a r} ha := by
    obtain ⟨tr, htr, rfl⟩ := Option.map_eq_some_iff.mp ha
    exact ⟨tr, htr, rfl, h a tr htr⟩
  table := rfl
  blocks := rfl

theorem State.Linked.refs (h : s.Linked) {i : Nat} (hslot : s.allTraders i = some a) :
    s.refs a ≠ none := by
  obtain ⟨tr, htr⟩ := h i a hslot
  simp [State.refs, htr]

variable {ρ : Nat → Option Int} {slots : Nat → Option Nat} {blocks : List Nat} {r : Int}

namespace Working

/-- What is recorded does not matter. -/
theorem recorded (h : Working t ρ slots blocks s) (u : History) :
    Working t ρ slots blocks { s with hist := u } := ⟨h.trader, h.table, h.blocks⟩

theorem setTrader (h : Working t ρ slots blocks s) {tr : Trader} {m : Mutex}
    (hm : tr.mutex.lock t = some m) :
    Working t (Function.update ρ a (some tr.ref)) slots blocks (s.setTrader a (some tr)) where
  trader {b r} hb := by
    by_cases hba : b = a
    · subst hba
      rw [Function.update_self] at hb
      exact ⟨tr, Function.update_self .., Option.some.inj hb, m, hm⟩
    · rw [Function.update_of_ne hba] at hb
      obtain ⟨trb, htrb, hrest⟩ := h.trader hb
      exact ⟨trb, (Function.update_of_ne hba ..).trans htrb, hrest⟩
  table := h.table
  blocks := h.blocks

/-- The count stays the same. -/
theorem keep (h : Working t ρ slots blocks s) {tr : Trader} {m : Mutex} (ha : ρ a = some tr.ref)
    (hm : tr.mutex.lock t = some m) : Working t ρ slots blocks (s.setTrader a (some tr)) := by
  have hset := h.setTrader (a := a) hm
  rwa [← ha, Function.update_eq_self] at hset

theorem setConns (h : Working t ρ slots blocks s) (conns : Int → Option Conn) :
    Working t ρ slots blocks { s with conns := conns } := ⟨h.trader, h.table, h.blocks⟩

end Working

/-! ## Accesses -/

section passive

variable (hG : Passive G) (h : Working t ρ slots blocks s)
include hG h

theorem total_slot (i : Nat) : Total G t (slot i) (fun v s' => v = slots i ∧ s' = s) s :=
  hG.total_silent rfl rfl ⟨congrFun h.table i, rfl⟩

theorem total_lock (ha : ρ a = some r) :
    Total G t (lock a) (fun _ => Working t ρ slots blocks) s := by
  obtain ⟨tr, htr, rfl, m, hm⟩ := h.trader ha
  obtain ⟨m', hm'⟩ := Mutex.lock_again hm
  have he : exec t (.lock a) .tick s = .done ()
      { s.setTrader a (some { tr with mutex := m }) with hist := s.hist.acquire t a } := by
    simp [exec, execTrader, htr, hm]
  have hkeep : Working t ρ slots blocks (s.setTrader a (some { tr with mutex := m })) :=
    h.keep ha hm'
  exact hG.total_silent rfl he (hkeep.recorded _)

/-- Only the mutex changes. -/
theorem total_unlock_record (ha : ρ a = some r) :
    Total G t (unlock a) (fun _ s' => Working t ρ slots blocks s' ∧
      ∀ {tr}, s.traders a = some tr → ∃ m, s'.traders a = some { tr with mutex := m }) s := by
  obtain ⟨tr, htr, rfl, m, hm⟩ := h.trader ha
  obtain ⟨m', hm'⟩ := Mutex.lock_unlock hm
  have he : exec t (.unlock a) .tick s =
      .done () (s.setTrader a (some { tr with mutex := tr.mutex.unlock t })) := by
    simp [exec, execTrader, htr]
  refine hG.total_silent rfl he ⟨h.keep ha hm', ?_⟩
  intro tr' htr'
  obtain rfl := Option.some.inj (htr.symm.trans htr')
  exact ⟨_, Function.update_self ..⟩

theorem total_unlock (ha : ρ a = some r) :
    Total G t (unlock a) (fun _ => Working t ρ slots blocks) s :=
  (total_unlock_record hG h ha).mono fun _ _ h' => h'.1

theorem total_load (ha : ρ a = some r) (f : Field) :
    Total G t (load f a) (fun v s' => s' = s ∧
      ∃ tr, s.traders a = some tr ∧ tr.ref = r ∧ v = tr.get f) s := by
  obtain ⟨tr, htr, hr, _⟩ := h.trader ha
  have he : exec t (.load f a) .tick s = .done (tr.get f) s := by
    simp [exec, execTrader, htr]
  exact hG.total_silent rfl he ⟨rfl, tr, htr, hr, rfl⟩

theorem total_store (ha : ρ a = some r) (f : Field) (v : f.Ty) :
    Total G t (store f a v) (fun _ s' => ∃ tr : Trader, tr.ref = r ∧
      s'.traders a = some (tr.set f v) ∧
        Working t (Function.update ρ a (some (tr.set f v).ref)) slots blocks s') s := by
  obtain ⟨tr, htr, hr, m, hm⟩ := h.trader ha
  have he : exec t (.store f a v) .tick s =
      .done () { s.setTrader a (some (tr.set f v)) with hist := s.hist.store t a f v } := by
    simp [exec, execTrader, htr]
  have hm' : (tr.set f v).mutex.lock t = some m := by cases f <;> exact hm
  exact hG.total_silent rfl he ⟨tr, hr, Function.update_self ..,
    (h.setTrader (a := a) hm').recorded _⟩

/-- A store into another field than the count. -/
theorem total_storeField (ha : ρ a = some r) {f : Field} (hf : f ≠ .ref) (v : f.Ty) :
    Total G t (store f a v) (fun _ s' => Working t ρ slots blocks s' ∧
      ∃ tr, s'.traders a = some tr ∧ tr.get f = v) s := by
  refine (total_store hG h ha f v).mono ?_
  rintro _ s' ⟨tr, rfl, htr, h'⟩
  have href : (tr.set f v).ref = tr.ref := by
    cases f <;> first | rfl | exact absurd rfl hf
  rw [href, ← ha, Function.update_eq_self] at h'
  refine ⟨h', tr.set f v, htr, ?_⟩
  cases f <;> rfl

theorem total_storeRef (ha : ρ a = some r) (v : Int) :
    Total G t (store .ref a v) (fun _ =>
      Working t (Function.update ρ a (some v)) slots blocks) s := by
  refine (total_store hG h ha .ref v).mono ?_
  rintro _ s' ⟨tr, _, _, h'⟩
  exact h'

theorem total_slotName {i b : Nat} (hslot : slots i = some b) (hb : ρ b = some r) :
    Total G t (slotName i) (fun v s' => s' = s ∧ ∃ tr, s.traders b = some tr ∧ v = tr.name) s := by
  refine Total.bind (total_slot hG h i) ?_
  rintro _ _ ⟨rfl, rfl⟩
  rw [hslot]
  refine (total_load hG h hb .name).mono ?_
  rintro v s' ⟨rfl, tr, htr, _, rfl⟩
  exact ⟨rfl, tr, htr, rfl⟩

/-! ## References -/

theorem total_traderRef (ha : ρ a = some r) :
    Total G t (traderRef a) (fun _ =>
      Working t (Function.update ρ a (some (r + 1))) slots blocks) s := by
  refine hG.total_scope (Total.bind (total_lock hG (h.recorded _) ha) fun _ s₁ h₁ => ?_)
  refine Total.bind (total_load hG h₁ ha .ref) ?_
  rintro v _ ⟨rfl, tr, _, hr, hv⟩
  obtain rfl : v = r := hv.trans hr
  refine Total.bind (total_storeRef hG h₁ ha _) fun _ s₂ h₂ => ?_
  refine Total.bind (total_unlock hG h₂ (Function.update_self ..)) fun _ s₃ h₃ => ?_
  exact .ret (h₃.recorded _)

/-- The record stays, since this is not its last reference. -/
theorem total_traderUnref (ha : ρ a = some r) (hr : r ≠ 1) :
    Total G t (traderUnref a) (fun _ =>
      Working t (Function.update ρ a (some (r - 1))) slots blocks) s := by
  refine hG.total_scope (Total.bind (total_lock hG (h.recorded _) ha) fun _ s₁ h₁ => ?_)
  refine Total.bind (total_load hG h₁ ha .ref) ?_
  rintro v _ ⟨rfl, tr, _, hv, rfl⟩
  refine Total.bind (total_storeRef hG h₁ ha _) fun _ s₂ h₂ => ?_
  change Working t (Function.update ρ a (some (tr.ref - 1))) slots blocks s₂ at h₂
  rw [hv] at h₂
  have ha₂ : Function.update ρ a (some (r - 1)) a = some (r - 1) := Function.update_self ..
  refine Total.bind (Q := fun _ =>
    Working t (Function.update ρ a (some (r - 1))) slots blocks) ?_ fun _ s₃ h₃ => ?_
  · refine Total.bind (total_load hG h₂ ha₂ .ref) ?_
    rintro v _ ⟨rfl, tr', _, hv', rfl⟩
    have hne : tr'.get .ref ≠ 0 := by
      change tr'.ref ≠ 0
      omega
    rw [if_pos hne]
    exact .ret h₂
  · exact (total_unlock hG h₃ ha₂).mono fun _ s₄ h₄ => h₄.recorded _

theorem total_getFirstAvailableIndex :
    Total G t getFirstAvailableIndex (fun _ s' => s' = s) s := by
  refine Total.searchFrom (fun _ s' => s' = s) rfl ?_ fun _ hs => hs
  rintro i _ _ _ rfl
  refine Total.bind (total_slot hG h i) ?_
  rintro v _ ⟨_, rfl⟩
  cases v <;> exact .ret rfl

/-! ## Searches in the table -/

variable (hslots : ∀ {i b}, slots i = some b → ρ b ≠ none)
include hslots

/-- A trader with the name is found if there is one, and gets another reference. -/
theorem total_checkOldTraderAndLogin {name : CString} :
    Total G t (checkOldTraderAndLogin fd name) (fun v s' =>
      match v with
      | none => s' = s ∧ ∀ i, i < maxTraders → ∀ b tr, slots i = some b →
          s.traders b = some tr → strcmpEq tr.name name = false
      | some b => ∃ k, ρ b = some k ∧
          Working t (Function.update ρ b (some (k + 1))) slots blocks s') s := by
  refine Total.searchFrom (fun i (s' : State E) => s' = s ∧ ∀ j, j < i → ∀ b tr,
    slots j = some b → s.traders b = some tr → strcmpEq tr.name name = false) ⟨rfl, by simp⟩ ?_ ?_
  · rintro i _ _ _ ⟨rfl, hbefore⟩
    refine Total.bind (total_slot hG h i) ?_
    rintro _ s ⟨rfl, rfl⟩
    have hnext : (∀ b tr, slots i = some b → s.traders b = some tr →
        strcmpEq tr.name name = false) → ∀ j, j < i + 1 → ∀ b tr, slots j = some b →
        s.traders b = some tr → strcmpEq tr.name name = false := by
      intro hi j hj
      rcases Nat.lt_succ_iff_lt_or_eq.mp hj with hlt | rfl
      · exact hbefore j hlt
      · exact hi
    cases hslot : slots i with
    | none => exact .ret ⟨rfl, hnext fun b tr hb => by rw [hslot] at hb; cases hb⟩
    | some b =>
      obtain ⟨k, hk⟩ := Option.ne_none_iff_exists'.mp (hslots hslot)
      refine Total.bind (total_slotName hG h hslot hk) ?_
      rintro _ s ⟨rfl, tr, htr, rfl⟩
      split_ifs with heq
      · refine Total.bind (total_slot hG h i) ?_
        rintro _ s ⟨rfl, rfl⟩
        rw [hslot]
        refine Total.bind (Q := fun b' s' => b' = b ∧ s' = s) (.ret ⟨rfl, rfl⟩) ?_
        rintro _ s ⟨rfl, rfl⟩
        refine Total.bind (total_traderRef hG h hk) fun _ s₁ h₁ => ?_
        refine Total.bind (total_slot hG h₁ i) ?_
        rintro _ s₁ ⟨rfl, rfl⟩
        rw [hslot]
        exact .ret ⟨k, hk, h₁⟩
      · refine .ret ⟨rfl, hnext fun b' tr' hb' htr' => ?_⟩
        obtain rfl := Option.some.inj (hslot.symm.trans hb')
        obtain rfl := Option.some.inj (htr.symm.trans htr')
        exact Bool.eq_false_iff.mpr heq
  · rintro s' ⟨rfl, hnone⟩
    exact ⟨rfl, fun i hi => hnone i (by omega)⟩

/-- A trader that is in the table and keeps a reference is logged out. -/
theorem total_traderLogout (ha : ρ a = some r) (hr : r ≠ 1) :
    Total G t (traderLogout a) (fun _ s' => ∀ i, i < maxTraders → slots i = some a →
      ∃ tr, s'.traders a = some tr ∧ tr.ref = r - 1 ∧ tr.fd = -1) s := by
  refine hG.total_scope (Total.bind (total_lock hG (h.recorded _) ha) fun _ s₁ h₁ => ?_)
  refine Total.bind (Q := fun found s₂ =>
    match found with
    | none => Working t ρ slots blocks s₂ ∧ ∀ i, i < maxTraders → slots i ≠ some a
    | some () => Working t (Function.update ρ a (some (r - 1))) slots blocks s₂ ∧
        ∃ tr, s₂.traders a = some tr ∧ tr.fd = -1) ?_ fun found s₂ h₂ => ?_
  · refine Total.searchFrom (fun i s' => Working t ρ slots blocks s' ∧
      ∀ j, j < i → slots j ≠ some a) ⟨h₁, by simp⟩ ?_ ?_
    · rintro i s _ _ ⟨h, hbefore⟩
      refine Total.bind (total_slot hG h i) ?_
      rintro _ s ⟨rfl, rfl⟩
      have hnext : slots i ≠ some a → ∀ j, j < i + 1 → slots j ≠ some a := by
        intro hi j hj
        rcases Nat.lt_succ_iff_lt_or_eq.mp hj with hlt | rfl
        · exact hbefore j hlt
        · exact hi
      cases hslot : slots i with
      | none => exact .ret ⟨h, hnext (by simp [hslot])⟩
      | some b =>
        obtain ⟨k, hk⟩ := Option.ne_none_iff_exists'.mp (hslots hslot)
        refine Total.bind (total_slotName hG h hslot hk) ?_
        rintro _ s ⟨rfl, trb, htrb, rfl⟩
        refine Total.bind (total_load hG h ha .name) ?_
        rintro _ s ⟨rfl, tr, htr, _, rfl⟩
        split_ifs with heq
        · refine Total.bind (total_traderUnref hG h ha hr) fun _ s₃ h₃ => ?_
          refine Total.bind (total_storeField hG h₃ (Function.update_self ..)
            (f := .fd) (by decide) (-1)) ?_
          exact fun _ s₄ h₄ => .ret h₄
        · refine .ret ⟨h, hnext fun hb => heq ?_⟩
          obtain rfl := Option.some.inj (hslot.symm.trans hb)
          obtain rfl := Option.some.inj (htr.symm.trans htrb)
          exact strcmpEq_iff.mpr rfl
    · rintro s' ⟨h', hnone⟩
      exact ⟨h', fun i hi => hnone i (by omega)⟩
  · cases found with
    | none => exact (total_unlock hG h₂.1 ha).mono fun _ s₃ _ i hi hi' => absurd hi' (h₂.2 i hi)
    | some _ =>
      obtain ⟨h₂, tr, htr, hfd⟩ := h₂
      have ha₂ : Function.update ρ a (some (r - 1)) a = some (r - 1) := Function.update_self ..
      refine (total_unlock_record hG h₂ ha₂).mono ?_
      rintro _ s₃ ⟨h₃, hrecord⟩ i _ _
      obtain ⟨m, hm⟩ := hrecord htr
      obtain ⟨tr₃, htr₃, href, _⟩ := h₃.trader ha₂
      obtain rfl := Option.some.inj (hm.symm.trans htr₃)
      exact ⟨_, hm, href, hfd⟩

end passive

/-! ## Sending -/

section answering

variable (hG : Answering G)
include hG

theorem total_uninit (n : Nat) :
    Total G t (uninit n) (fun junk s' => s' = s ∧ junk.length = n) s := by
  obtain ⟨junk, hlen, hok⟩ := hG.uninit n s
  refine Total.act ⟨.memory junk, junk, s, by simp [exec, hlen], hok, ?_⟩ fun e r s' he _ => ?_
  · rw [hG.again]
    rfl
  · simp only [exec] at he
    split at he
    · split_ifs at he with h
      cases he
      exact ⟨rfl, h⟩
    · cases he

/-- To a closed descriptor, nothing is written. -/
theorem total_rioWriten_closed (hfd : s.conns fd = none) {bs : List UInt8} (hbs : bs ≠ []) :
    Total G t (rioWriten fd bs) (fun r s' => r = -1 ∧ s' = s) s := by
  refine Total.invoke (I := bourse) (M := machine E) (p := .writen fd bs.length bs) ?_
  change Total G t (writenLoop fd bs.length bs) (fun r s' => r = -1 ∧ s' = s) s
  rw [writenLoop_eq fd _ bs (List.length_pos_iff.mpr hbs)]
  refine Total.bind (p := .act (I := bourse) (.write fd bs))
    (Q := fun r s' => r = .failed ∧ s' = s) ?_ ?_
  · refine Total.act ⟨.tick, .failed, s, by simp [exec, execWrite, hfd],
      hG.write.mpr (by simp), hG.toSending.again _⟩ fun e r s' he _ => ?_
    simp only [exec, execWrite, hfd] at he
    cases he
    exact ⟨rfl, rfl⟩
  · rintro _ _ ⟨rfl, rfl⟩
    exact .ret ⟨rfl, rfl⟩

/-- Sending a packet changes the connections only, whether the descriptor is open or not. -/
theorem total_protoSendPacket_any {hdr : PacketHeader} {payload : List UInt8} :
    Total G t (protoSendPacket fd hdr payload)
      (fun _ s' => ∃ conns, s' = { s with conns := conns }) s := by
  cases hc : s.conns fd with
  | some c =>
    refine (total_protoSendPacket hG.toSending hc).mono ?_
    rintro _ _ ⟨_, _, _, rfl⟩
    exact ⟨_, rfl⟩
  | none =>
    refine Total.bind (Q := fun _ s' => s' = s) ?_ ?_
    · refine Total.act ⟨.time 0 0, (0, 0), s, rfl, hG.clock, hG.toSending.again _⟩ ?_
      intro e r s' he _
      simp only [exec] at he
      split at he <;> cases he
      rfl
    rintro ⟨sec, nsec⟩ _ rfl
    have hhdr : (hdr.stamp sec nsec).toBytes ≠ [] := by
      rw [← List.length_pos_iff, PacketHeader.length_toBytes]
      decide
    refine Total.bind (total_rioWriten_closed hG hc hhdr) ?_
    rintro _ s ⟨rfl, rfl⟩
    exact .ret ⟨s.conns, rfl⟩

section working

variable (h : Working t ρ slots blocks s)
include h

/-- The send comes to an end, and keeps the mutex if it fails. -/
theorem total_traderSendPacket (ha : ρ a = some r) (hdr : PacketHeader) (data : List UInt8) :
    Total G t (traderSendPacket a hdr data) (fun _ => Working t ρ slots blocks) s := by
  have hP := hG.passive
  refine hP.total_scope (Total.bind (total_lock hP (h.recorded _) ha) fun _ s₁ h₁ => ?_)
  refine Total.bind (total_load hP h₁ ha .fd) ?_
  rintro _ _ ⟨rfl, _⟩
  refine Total.bind (total_protoSendPacket_any hG) ?_
  rintro ⟨sent, _⟩ _ ⟨conns, rfl⟩
  dsimp only
  split_ifs
  · exact .ret ((h₁.setConns conns).recorded _)
  · refine Total.bind (total_unlock hP (h₁.setConns conns) ha) fun _ s₃ h₃ => ?_
    exact .ret (h₃.recorded _)

theorem total_traderSendAck (ha : ρ a = some r) (info : Option StatusInfo) :
    Total G t (traderSendAck a info) (fun _ => Working t ρ slots blocks) s := by
  refine hG.passive.total_scope (Total.bind (total_uninit hG headerSize) ?_)
  rintro junk _ ⟨rfl, _⟩
  have hin := h.recorded (s.hist.enter t (.sendAck a info))
  cases info with
  | none =>
    exact Total.bind (total_traderSendPacket hG hin ha _ _) fun _ _ h₁ => .ret (h₁.recorded _)
  | some info =>
    refine Total.bind (total_load hG.passive hin ha .balance) ?_
    rintro _ _ ⟨rfl, _⟩
    refine Total.bind (total_load hG.passive hin ha .inventory) ?_
    rintro _ _ ⟨rfl, _⟩
    exact Total.bind (total_traderSendPacket hG hin ha _ _) fun _ _ h₁ => .ret (h₁.recorded _)

theorem total_traderSendNack (ha : ρ a = some r) :
    Total G t (traderSendNack a) (fun _ => Working t ρ slots blocks) s := by
  refine hG.passive.total_scope (Total.bind (total_uninit hG headerSize) ?_)
  rintro junk _ ⟨rfl, _⟩
  have hin := h.recorded (s.hist.enter t (.sendNack a))
  exact Total.bind (total_traderSendPacket hG hin ha _ _) fun _ _ h₁ => .ret (h₁.recorded _)

theorem total_traderBroadcastPacket (hslots : ∀ {i b}, slots i = some b → ρ b ≠ none)
    (hdr : PacketHeader) (data : List UInt8) :
    Total G t (traderBroadcastPacket hdr data) (fun _ => Working t ρ slots blocks) s := by
  have hP := hG.passive
  refine hP.total_scope (Total.bind (Q := fun _ => Working t ρ slots blocks) ?_ ?_)
  · refine Total.searchFrom (fun _ => Working t ρ slots blocks) (h.recorded _) ?_ fun _ h' => h'
    intro i s _ _ h
    refine Total.bind (total_slot hP h i) ?_
    rintro _ s ⟨rfl, rfl⟩
    cases hslot : slots i with
    | none => exact .ret h
    | some b =>
      obtain ⟨k, hk⟩ := Option.ne_none_iff_exists'.mp (hslots hslot)
      refine Total.bind (total_slot hP h i) ?_
      rintro _ s ⟨rfl, rfl⟩
      rw [hslot]
      refine Total.bind (Q := fun b' s' => b' = b ∧ s' = s) (.ret ⟨rfl, rfl⟩) ?_
      rintro _ s ⟨rfl, rfl⟩
      exact Total.bind (total_traderSendPacket hG h hk hdr data) fun _ _ h₁ => .ret h₁
  · exact fun _ _ h' => .ret (h'.recorded _)

/-! ## Accounts -/

theorem total_loadAsset (ha : ρ a = some r) (x : Asset) :
    Total G t (loadAsset x a) (fun _ => Working t ρ slots blocks) s := by
  cases x <;> exact (total_load hG.passive h ha _).mono fun _ _ h' => h'.1 ▸ h

theorem total_storeAsset (ha : ρ a = some r) (x : Asset) (v : UInt32) :
    Total G t (storeAsset x a v) (fun _ => Working t ρ slots blocks) s := by
  cases x with
  | balance =>
    exact (total_storeField hG.passive h ha (f := .balance) (by decide) v).mono fun _ _ h' => h'.1
  | inventory =>
    exact (total_storeField hG.passive h ha (f := .inventory) (by decide) v).mono fun _ _ h' => h'.1

theorem total_increaseAsset (ha : ρ a = some r) (x : Asset) (n : UInt32) :
    Total G t (increaseAsset x a n) (fun _ => Working t ρ slots blocks) s := by
  have hP := hG.passive
  refine hP.total_scope (Total.bind (total_lock hP (h.recorded _) ha) fun _ s₁ h₁ => ?_)
  refine Total.bind (total_loadAsset hG h₁ ha x) fun v s₂ h₂ => ?_
  refine Total.bind (total_storeAsset hG h₂ ha x _) fun _ s₃ h₃ => ?_
  exact (total_unlock hP h₃ ha).mono fun _ s₄ h₄ => h₄.recorded _

theorem total_decreaseAsset (ha : ρ a = some r) (x : Asset) (n : UInt32) :
    Total G t (decreaseAsset x a n) (fun _ => Working t ρ slots blocks) s := by
  have hP := hG.passive
  refine hP.total_scope (Total.bind (total_lock hP (h.recorded _) ha) fun _ s₁ h₁ => ?_)
  refine Total.bind (total_loadAsset hG h₁ ha x) fun v s₂ h₂ => ?_
  split_ifs
  · refine Total.bind (total_loadAsset hG h₂ ha x) fun v s₃ h₃ => ?_
    refine Total.bind (total_storeAsset hG h₃ ha x _) fun _ s₄ h₄ => ?_
    exact Total.bind (total_unlock hP h₄ ha) fun _ s₅ h₅ => .ret (h₅.recorded _)
  · exact Total.bind (total_unlock hP h₂ ha) fun _ s₃ h₃ => .ret (h₃.recorded _)

theorem total_runAccount (ha : ρ a = some r) (c : AccountCall) :
    Total G t (runAccount a c) (fun _ => Working t ρ slots blocks) s := by
  cases c with
  | increase x n => cases x <;> exact total_increaseAsset hG h ha _ n
  | decrease x n =>
    cases x <;> exact Total.bind (total_decreaseAsset hG h ha _ n) fun _ _ h₁ => .ret h₁

end working

end answering

/-! ## Calls from outside the module -/

/-- The counts after the call. -/
def ClientCall.recount (ρ : Nat → Option Int) : ClientCall → Nat → Option Int
  | .ref a => Function.update ρ a ((ρ a).map (· + 1))
  | .unref a => Function.update ρ a ((ρ a).map (· - 1))
  | _ => ρ

/-- The trader that is passed to the call exists, and does not lose its last reference. -/
def ClientCall.Harmless (ρ : Nat → Option Int) (slots : Nat → Option Nat) (c : ClientCall) : Prop :=
  match c with
  | .unref a => ∃ r, ρ a = some r ∧ r ≠ 1
  | .broadcast .. => ∀ {i b}, slots i = some b → ρ b ≠ none
  | .ref a | .sendPacket a .. | .sendAck a _ | .sendNack a | .account a _ => ρ a ≠ none

/-- Each of the calls is harmless when it is made. -/
def Harmless (slots : Nat → Option Nat) : (Nat → Option Int) → List ClientCall → Prop
  | _, [] => True
  | ρ, c :: cs => c.Harmless ρ slots ∧ Harmless slots (c.recount ρ) cs

theorem ClientCall.recount_ne_none {c : ClientCall} (ha : ρ a ≠ none) : c.recount ρ a ≠ none := by
  cases c <;> simp only [recount] <;>
    first | exact ha | (rw [Function.update_apply]; split_ifs <;> simp_all)

theorem total_runClient (hG : Answering G) (h : Working t ρ slots blocks s) {c : ClientCall}
    (hc : c.Harmless ρ slots) :
    Total G t (runClient c) (fun _ => Working t (c.recount ρ) slots blocks) s := by
  have hlive : ∀ {b}, ρ b ≠ none → ∃ r, ρ b = some r := Option.ne_none_iff_exists'.mp
  cases c with
  | ref b =>
    obtain ⟨r, hr⟩ := hlive hc
    simp only [ClientCall.recount, hr, Option.map_some]
    exact Total.bind (total_traderRef hG.passive h hr) fun _ _ h₁ => .ret h₁
  | unref b =>
    obtain ⟨r, hr, hne⟩ := hc
    simp only [ClientCall.recount, hr, Option.map_some]
    exact total_traderUnref hG.passive h hr hne
  | sendPacket b hdr data =>
    obtain ⟨r, hr⟩ := hlive hc
    exact Total.bind (total_traderSendPacket hG h hr hdr data) fun _ _ h₁ => .ret h₁
  | broadcast hdr data =>
    exact Total.bind (total_traderBroadcastPacket hG h hc hdr data) fun _ _ h₁ => .ret h₁
  | sendAck b info =>
    obtain ⟨r, hr⟩ := hlive hc
    exact Total.bind (total_traderSendAck hG h hr info) fun _ _ h₁ => .ret h₁
  | sendNack b =>
    obtain ⟨r, hr⟩ := hlive hc
    exact Total.bind (total_traderSendNack hG h hr) fun _ _ h₁ => .ret h₁
  | account b c =>
    obtain ⟨r, hr⟩ := hlive hc
    exact total_runAccount hG h hr c

theorem total_runClients (hG : Answering G) {cs : List ClientCall}
    (h : Working t ρ slots blocks s) (hcs : Harmless slots ρ cs) :
    Total G t (runClients cs) (fun _ s' => ∃ ρ', (∀ b, ρ b ≠ none → ρ' b ≠ none) ∧
      Working t ρ' slots blocks s') s := by
  induction cs generalizing ρ s with
  | nil => exact .ret ⟨ρ, fun _ hb => hb, h⟩
  | cons c cs ih =>
    refine Total.bind (total_runClient hG h hcs.1) fun _ s₁ h₁ => ?_
    refine (ih h₁ hcs.2).mono ?_
    rintro _ s₂ ⟨ρ', hρ', h₂⟩
    exact ⟨ρ', fun b hb => hρ' b (ClientCall.recount_ne_none hb), h₂⟩

/-! ## Login -/

/-- A free record is handed out, whose mutex can be locked. -/
theorem total_mallocTrader (h : Working t ρ slots blocks s) (hroom : ∃ a, s.traders a = none) :
    Total (civil E) t mallocTrader (fun a s' => ∃ ref,
      Working t (Function.update ρ a (some ref)) slots blocks s') s := by
  obtain ⟨a, ha⟩ := hroom
  refine Total.act ⟨.trader a ⟨0, 0, 0, 0, .fresh, ⟨0, []⟩⟩, a, _,
    by simp [exec, execMallocTrader, ha]; rfl, ⟨by simp, ?_⟩, rfl⟩ fun e b s' he hok => ?_
  · rintro _ _ _ h
    cases h
    rfl
  · simp only [exec, execMallocTrader] at he
    split at he
    · rename_i junk
      split at he
      · cases he
      · cases he
        have hdepth : junk.mutex.depth = 0 := hok.2 rfl _ _ rfl
        have hlock : ({ initialised := false, owner := none, depth := junk.mutex.depth } :
            Mutex).lock t = some ⟨false, some t, 1⟩ := by
          rw [hdepth]
          rfl
        have hset : Working t _ slots blocks (s.setTrader b (some
            { junk with mutex := ⟨false, none, junk.mutex.depth⟩ })) := h.setTrader hlock
        exact ⟨junk.ref, hset⟩
    · cases he

/-- The mutex of the record is initialised. -/
theorem total_mutexInit (hG : Passive G) (h : Working t ρ slots blocks s) (ha : ρ a = some r) :
    Total G t (mutexInit a) (fun _ => Working t ρ slots blocks) s := by
  obtain ⟨tr, htr, rfl, _⟩ := h.trader ha
  have he : exec t (.mutexInit a) .tick s =
      .done () (s.setTrader a (some { tr with mutex := .fresh })) := by
    simp [exec, execTrader, htr]
  have hlock : Mutex.fresh.lock t = some ⟨true, some t, 1⟩ := rfl
  exact hG.total_silent rfl he (h.keep ha hlock)

/-- A login is accepted or rejected. -/
theorem total_traderLogin (hE : Nonempty E.Choice) (h : Working t ρ slots blocks s)
    (hslots : ∀ {i b}, slots i = some b → ρ b ≠ none) (hroom : ∃ a, s.traders a = none)
    {name : CString} :
    Total (civil E) t (traderLogin fd name) (fun v s' => ∃ ρ' slots',
      Working t ρ' slots' blocks s' ∧ ∀ a, v = some a → ρ' a ≠ none) s := by
  have hG := (answering_civil hE).passive
  have hreturn : ∀ {ρ' : Nat → Option Int} {slots' : Nat → Option Nat} {s' : State E}
      {v : Option Nat} (u : History), Working t ρ' slots' blocks s' →
      (∀ a, v = some a → ρ' a ≠ none) → ∃ ρ'' slots'',
        Working t ρ'' slots'' blocks { s' with hist := u } ∧ ∀ a, v = some a → ρ'' a ≠ none :=
    fun u h' hv => ⟨_, _, h'.recorded u, hv⟩
  refine hG.total_scope (Total.bind
    (total_checkOldTraderAndLogin hG (h.recorded _) hslots) fun old s₁ h₁ => ?_)
  cases old with
  | some old =>
    obtain ⟨k, _, h₁⟩ := h₁
    have hk : Function.update ρ old (some (k + 1)) old = some (k + 1) := Function.update_self ..
    refine Total.bind (total_load hG h₁ hk .fd) ?_
    rintro oldFd _ ⟨rfl, _⟩
    split_ifs
    · exact .ret (hreturn _ h₁ (by simp))
    · refine Total.bind (total_storeField hG h₁ hk (f := .fd) (by decide) fd) fun _ s₂ h₂ => ?_
      refine .ret (hreturn _ h₂.1 fun a ha => ?_)
      obtain rfl := Option.some.inj ha
      simp
  | none =>
    obtain ⟨rfl, _⟩ := h₁
    have hcount : ∀ {u : State E}, Total (civil E) t count (fun _ s' => s' = u) u :=
      hG.total_silent rfl rfl rfl
    refine Total.bind hcount ?_
    rintro total _ rfl
    split_ifs
    · exact .ret (hreturn _ (h.recorded _) (by simp))
    refine Total.bind hcount ?_
    rintro total' _ rfl
    refine Total.bind (Q := fun _ (s' : State E) => Working t ρ slots blocks s' ∧
        ∃ a, s'.traders a = none)
      (hG.total_silent rfl rfl ⟨⟨h.trader, h.table, h.blocks⟩, hroom⟩) ?_
    rintro _ s₂ ⟨h₂, hroom₂⟩
    refine Total.bind (total_mallocTrader h₂ hroom₂) ?_
    rintro a s₃ ⟨ref, h₃⟩
    have hself : ∀ {ρ : Nat → Option Int} {v : Int},
        Function.update ρ a (some v) a = some v := Function.update_self ..
    refine Total.bind (total_traderRef hG h₃ hself) fun _ s₄ h₄ => ?_
    refine Total.bind (total_traderRef hG h₄ hself) fun _ s₅ h₅ => ?_
    have hstore : ∀ {ρ' : Nat → Option Int} {k : Int} {s' : State E} {f : Field} {v : f.Ty},
        Working t ρ' slots blocks s' → ρ' a = some k → f ≠ .ref →
        Total (civil E) t (store f a v) (fun _ => Working t ρ' slots blocks) s' :=
      fun h' hk hf => (total_storeField hG h' hk hf _).mono fun _ _ h'' => h''.1
    refine Total.bind (hstore h₅ hself (f := .fd) (by decide)) fun _ s₆ h₆ => ?_
    refine Total.bind (hstore h₆ hself (f := .balance) (by decide)) fun _ s₇ h₇ => ?_
    refine Total.bind (hstore h₇ hself (f := .inventory) (by decide)) fun _ s₈ h₈ => ?_
    refine Total.bind (hstore h₈ hself (f := .name) (by decide)) fun _ s₉ h₉ => ?_
    refine Total.bind (total_mutexInit hG h₉ hself) fun _ s₁₀ h₁₀ => ?_
    refine Total.bind (total_getFirstAvailableIndex hG h₁₀) ?_
    rintro i _ rfl
    cases i with
    | none => exact .ret (hreturn _ h₁₀ (by simp))
    | some i =>
      refine Total.bind (Q := fun _ s' =>
        Working t _ (Function.update slots i (some a)) blocks s')
        (hG.total_silent rfl rfl ⟨h₁₀.trader, ?_, h₁₀.blocks⟩) fun _ s₁₁ h₁₁ => ?_
      · exact congrArg (fun l => Function.update l i (some a)) h₁₀.table
      · refine .ret (hreturn _ h₁₁ fun b hb => ?_)
        obtain rfl := Option.some.inj hb
        simp

end BourseServer
