import BourseServer.Concurrency.Faults
import BourseServer.Trader.NewTrader

/-!
# Access to freed traders

`trader_unref`, `trader_logout` and `trader_fini` release a mutex after the record that holds it
has been freed. As long as no operation comes to that point, none of them faults: traders that
are alive stay alive, and the table only refers to such traders.
-/
namespace BourseServer

open Concurrency

variable {E : Exchange} {t a : Nat} {e : Choice E} {s s' : State E} {tr : Trader}
  {L : Nat → Prop}

/-! ## The traders that are alive -/

/-- The traders in `L` are alive, and the table contains no others. -/
structure State.Keeps (L : Nat → Prop) (s : State E) : Prop where
  alive : ∀ a, L a → ∃ tr, s.traders a = some tr
  slots : ∀ i a, s.allTraders i = some a → L a
  count : s.count ≤ maxTraders

/-- Actions that only look up traders in `L` and that leave the table and `count` alone. -/
def Op.keeps (L : Nat → Prop) : Op → Prop
  | .lock a | .unlock a | .mutexInit a | .load _ a | .store _ a _ => L a
  | .freeTrader _ | .setSlot .. | .setCount _ | .free _ | .close _ | .segfault => False
  | _ => True

theorem State.Keeps.update (h : s.Keeps L) (tr : Trader) (hist : History) :
    State.Keeps L { s.setTrader a (some tr) with hist := hist } where
  alive b hb := by
    by_cases hba : b = a
    · subst hba
      exact ⟨tr, Function.update_self ..⟩
    · obtain ⟨trb, htrb⟩ := h.alive b hb
      exact ⟨trb, (Function.update_of_ne hba ..).trans htrb⟩
  slots := h.slots
  count := h.count

theorem State.Keeps.insert (h : s.Keeps L) (a : Nat) (tr : Trader) :
    ∃ L', L' a ∧ State.Keeps L' (s.setTrader a (some tr)) := by
  refine ⟨fun b => b = a ∨ L b, .inl rfl, ?_, fun i b hb => .inr (h.slots i b hb), h.count⟩
  rintro b (rfl | hb)
  · exact ⟨tr, Function.update_self ..⟩
  · exact (h.update tr s.hist).alive b hb

theorem State.Keeps.of_same (h : s.Keeps L) (htraders : s'.traders = s.traders)
    (htable : s'.allTraders = s.allTraders) (hcount : s'.count = s.count) : s'.Keeps L where
  alive := htraders ▸ h.alive
  slots := htable ▸ h.slots
  count := hcount ▸ h.count

theorem State.Keeps.history (h : s.Keeps L) (hist : History) :
    State.Keeps L { s with hist := hist } := ⟨h.alive, h.slots, h.count⟩

theorem execTrader_safe {ρ : Type} {f : Trader → Outcome ρ (State E)}
    (h : s.traders a = some tr) (hf : f tr ≠ .fault) : execTrader a s f ≠ .fault := by
  simp only [execTrader, h]
  exact hf

theorem Op.keeps_safe {o : Op} (ho : o.keeps L) (h : s.Keeps L) : exec t o e s ≠ .fault := by
  cases o
  case lock a =>
    obtain ⟨tr, htr⟩ := h.alive a ho
    refine execTrader_safe htr ?_
    split <;> simp
  case unlock a | mutexInit a | load f a | store f a v =>
    obtain ⟨tr, htr⟩ := h.alive a ho
    exact execTrader_safe htr (by simp)
  case freeTrader | setSlot | setCount | free | close | segfault => cases ho
  all_goals
    simp only [exec, execMallocTrader, execMalloc, execRead, execWrite]
    repeat' split
    all_goals simp

theorem Op.keeps_step {o : Op} {r : o.Reply} (ho : o.keeps L) (h : s.Keeps L)
    (he : exec t o e s = .done r s') : s'.Keeps L := by
  cases o
  case lock a =>
    obtain ⟨tr, m, _, _, rfl⟩ := exec_lock he
    exact h.update _ _
  case unlock a =>
    obtain ⟨tr, _, rfl⟩ := exec_unlock he
    exact h.update _ _
  case mutexInit a =>
    obtain ⟨tr, _, rfl⟩ := exec_mutexInit he
    exact h.update _ _
  case mallocTrader =>
    obtain ⟨junk, _, _, rfl⟩ := exec_mallocTrader he
    exact h.update _ _
  case store f a v =>
    obtain ⟨tr, _, rfl⟩ := exec_store he
    exact h.update _ _
  case freeTrader | setSlot | setCount | free | close | segfault => cases ho
  all_goals
    have hframe := exec_frame he
    exact h.of_same (hframe.traders rfl) (hframe.table rfl) (hframe.count rfl)

/-- The code does not fault, and its runs satisfy the postcondition. -/
abbrev Faultless (E : Exchange) (t : Nat) {α : Type} (p : Code α) (Q : α → State E → Prop)
    (s : State E) : Prop :=
  Sound (machine E) ((machine E).Faulty t) t p Q s

theorem Sound.scope {bad : Op → State E → Prop} {α : Type} {c : Call} {value : α → Value}
    {p : Code α} {Q : α → State E → Prop} (henter : ¬ bad (.enter c) s)
    (h : Sound (machine E) bad t p (fun r s' => ¬ bad (.leave (value r)) s' ∧
      Q r { s' with hist := s'.hist.leave t (value r) })
      { s with hist := s.hist.enter t c }) : Sound (machine E) bad t (scope c value p) Q s := by
  refine .bind (.act henter fun e r s' he => ?_)
  cases he
  refine .bind (h.mono fun r s' hs => ?_)
  refine .bind (.act hs.1 fun e r' s'' he => ?_)
  cases he
  exact .ret hs.2

theorem Faultless.scope {α : Type} {c : Call} {value : α → Value} {p : Code α}
    {Q : α → State E → Prop}
    (h : Faultless E t p (fun r s' => Q r { s' with hist := s'.hist.leave t (value r) })
      { s with hist := s.hist.enter t c }) : Faultless E t (scope c value p) Q s := by
  have hsafe : ∀ o : Op, o.writesFrames = true → ∀ s : State E, ¬ (machine E).Faulty t o s := by
    rintro o ho s ⟨e, he⟩
    cases o <;> cases ho <;> cases he
  exact Sound.scope (hsafe _ rfl s) (h.mono fun r s' hQ => ⟨hsafe _ rfl s', hQ⟩)

/-- Code that keeps to the traders in `L` does not fault. -/
theorem Faultless.of_built {α : Type} {p : Code α} (hp : Built (Op.keeps L) p) (h : s.Keeps L) :
    Faultless E t p (fun _ => State.Keeps L) s := by
  induction hp generalizing s with
  | leaf hu =>
    refine Sound.of_uses (fun p hp => ?_) (fun o s ho hs => ?_)
      (fun o e s r s' ho hs he => Op.keeps_step ho hs he) hu h
    · exact uses_transfer hp (fun _ _ => trivial) fun _ _ => trivial
    · exact not_exists.mpr fun e => Op.keeps_safe ho hs
  | bind _ _ ihp ihf => exact .bind ((ihp h).mono fun a s' hs => ihf a hs)
  | scope _ ih =>
    exact Faultless.scope ((ih (h.history _)).mono fun r s' hs => hs.history _)

theorem sound_step {o : Op} {Q : o.Reply → State E → Prop} (ho : o.keeps L) (h : s.Keeps L)
    (hQ : ∀ r s', State.Keeps L s' → Q r s') : Faultless E t (.act (I := bourse) o) Q s :=
  .step (fun _ => Op.keeps_safe ho h) fun _ r s' he => hQ r s' (Op.keeps_step ho h he)

/-- Such code leaves the table as it is. -/
theorem table_of_built {α : Type} {p : Code α} (hp : Built (Op.keeps L) p) (s : State E) :
    Partial (machine E) anyStep t p (fun _ s' => s'.allTraders = s.allTraders) s := by
  refine hp.partial_of_step (R := fun s s' => s'.allTraders = s.allTraders) (fun _ => rfl)
    (fun h h' => h'.trans h) (fun _ _ => trivial) (fun _ _ => trivial) ?_ (fun _ _ => rfl) s
  intro o e s r s' ho he _
  refine (exec_frame he).table ?_
  rcases ho with ho | ho <;> cases o <;> first | rfl | cases ho

theorem accesses_keeps (ha : L a) : Accesses (Op.keeps L) a :=
  ⟨ha, ha, fun _ => ha, fun _ _ _ => ha, trivial, fun _ => trivial⟩

/-! ## Operations on the table -/

section sound

theorem sound_slot {i : Nat} {Q : Option Nat → State E → Prop} (hQ : Q (s.allTraders i) s) :
    Faultless E t (slot i) Q s := by
  refine .step (fun e => by simp [exec]) fun e r s' he => ?_
  obtain ⟨rfl, rfl⟩ := exec_slot (t := t) (e := e) he
  exact hQ

theorem sound_load {f : Field} {Q : f.Ty → State E → Prop} (h : s.traders a = some tr)
    (hQ : Q (tr.get f) s) : Faultless E t (load f a) Q s := by
  refine .step (fun e => execTrader_safe h (by simp)) fun e r s' he => ?_
  obtain ⟨tr', htr, rfl, rfl⟩ := exec_load (t := t) (e := e) he
  obtain rfl := Option.some.inj (h.symm.trans htr)
  exact hQ

theorem sound_lock_has {Q : Unit → State E → Prop} (h : s.Keeps L) (ha : L a) (hhas : s.Has a tr)
    (hQ : ∀ s', State.Keeps L s' → State.Has s' a tr → Q () s') :
    Faultless E t (lock a) Q s :=
  ((sound_step (o := .lock a) ha h fun _ _ h' => h').and
    (partial_lock_has hhas fun _ h' => h')).mono fun _ s' hs' => hQ s' hs'.1 hs'.2

/-- A mutex that another thread holds stops the operation for good. -/
theorem sound_lock_blocked {Q : Unit → State E → Prop} (htr : s.traders a = some tr)
    (hm : tr.mutex.lock t = none) : Faultless E t (lock a) Q s := by
  refine .step (fun e => execTrader_safe htr (by simp [hm])) fun e r s' he => ?_
  obtain ⟨tr', m, htr', hm', _⟩ := exec_lock (t := t) (e := e) he
  obtain rfl := Option.some.inj (htr.symm.trans htr')
  cases hm.symm.trans hm'

/-- The last action of an operation. -/
theorem sound_unlock {hist : History → History} (h : s.Keeps L) (ha : L a) :
    Faultless E t (unlock a)
      (fun _ s' => State.Keeps L { s' with hist := hist s'.hist }) s :=
  sound_step (o := .unlock a) ha h fun _ _ h' => h'.history _

theorem sound_store_has {f : Field} {v : f.Ty} {Q : Unit → State E → Prop} (h : s.Keeps L)
    (ha : L a) (hhas : s.Has a tr)
    (hQ : ∀ s', State.Keeps L s' → State.Has s' a (tr.set f v) → Q () s') :
    Faultless E t (store f a v) Q s :=
  ((sound_step (o := .store f a v) ha h fun _ _ h' => h').and
    (partial_store_has hhas fun _ h' => h')).mono fun _ s' hs' => hQ s' hs'.1 hs'.2

theorem sound_loadRef_has {Q : Int → State E → Prop} (h : s.Keeps L) (ha : L a)
    (hhas : s.Has a tr) (hQ : Q tr.ref s) : Faultless E t (load .ref a) Q s where
  safe := (sound_step (o := .load .ref a) ha h fun _ _ h' => h').safe
  post := partial_loadRef_has hhas hQ

theorem sound_slotName {i b : Nat} {Q : CString → State E → Prop} (h : s.Keeps L)
    (hslot : s.allTraders i = some b) (hQ : ∀ name, Q name s) :
    Faultless E t (slotName i) Q s := by
  refine .bind (sound_slot ?_)
  rw [hslot]
  obtain ⟨tr, htr⟩ := h.alive b (h.slots i b hslot)
  exact .bind (.ret (sound_load htr (hQ _)))

/-- Unless the reference is the last one, nothing is freed. -/
theorem sound_traderUnref (h : s.Keeps L) (ha : L a)
    (hmore : ∀ tr m, s.traders a = some tr → tr.mutex.lock t = some m → tr.ref ≠ 1) :
    Faultless E t (traderUnref a) (fun _ => State.Keeps L) s := by
  refine Faultless.scope (.bind ?_)
  obtain ⟨tr, htr⟩ := h.alive a ha
  cases hm : tr.mutex.lock t with
  | none => exact sound_lock_blocked htr hm
  | some m =>
    have hone : tr.ref ≠ 1 := hmore tr m htr hm
    refine sound_lock_has (h.history _) ha ⟨tr.mutex, htr⟩ fun s₁ h₁ hhas₁ => ?_
    refine .bind (sound_loadRef_has h₁ ha hhas₁ ?_)
    refine .bind (sound_store_has h₁ ha hhas₁ fun s₂ h₂ hhas₂ => ?_)
    refine .bind (.bind (sound_loadRef_has h₂ ha hhas₂ ?_))
    have hzero : (tr.set .ref (tr.ref - 1)).ref ≠ 0 := by
      simp only [Trader.set]
      omega
    rw [if_pos hzero]
    exact .ret (sound_unlock h₂ ha)

/-- The same for the reference that a logout gives back. -/
theorem sound_traderLogout (h : s.Keeps L) (ha : L a)
    (hmore : ∀ tr m, s.traders a = some tr → tr.mutex.lock t = some m → tr.ref ≠ 1) :
    Faultless E t (traderLogout a) (fun _ => State.Keeps L) s := by
  refine Faultless.scope (.bind ?_)
  obtain ⟨tr, htr⟩ := h.alive a ha
  cases hm : tr.mutex.lock t with
  | none => exact sound_lock_blocked htr hm
  | some m =>
    have hone : tr.ref ≠ 1 := hmore tr m htr hm
    refine sound_lock_has (h.history _) ha ⟨tr.mutex, htr⟩ fun s₁ h₁ hhas₁ => .bind ?_
    refine .searchFrom (fun _ s' => State.Keeps L s' ∧ State.Has s' a tr) ⟨h₁, hhas₁⟩ ?_ ?_
    · rintro i s₂ _ _ ⟨h₂, hhas₂⟩
      refine .bind (sound_slot ?_)
      cases hslot : State.allTraders s₂ i with
      | none => exact .ret ⟨fun _ => ⟨h₂, hhas₂⟩, nofun⟩
      | some b =>
        refine .bind (sound_slotName h₂ hslot fun name => ?_)
        obtain ⟨m₂, htr₂⟩ := hhas₂
        refine .bind (sound_load htr₂ ?_)
        split_ifs
        · have hmore₂ : ∀ tr' m', State.traders s₂ a = some tr' → tr'.mutex.lock t = some m' →
              tr'.ref ≠ 1 := by
            intro tr' m' htr' _
            obtain rfl := Option.some.inj (htr₂.symm.trans htr')
            exact hone
          refine .bind ((sound_traderUnref h₂ ha hmore₂).mono fun _ s₃ h₃ => ?_)
          refine .bind (sound_step (o := .store .fd a (-1)) ha h₃ fun _ s₄ h₄ => ?_)
          exact .ret ⟨nofun, fun x hx => sound_unlock h₄ ha⟩
        · exact .ret ⟨fun _ => ⟨h₂, m₂, htr₂⟩, nofun⟩
    · rintro s₂ ⟨h₂, _⟩
      exact sound_unlock h₂ ha

/-- The scan of the table returns a trader that is in it. -/
theorem sound_checkOldTraderAndLogin {fd : Int} {name : CString} (h : s.Keeps L) :
    Faultless E t (checkOldTraderAndLogin fd name)
      (fun r s' => State.Keeps L s' ∧ ∀ b, r = some b → L b) s := by
  refine .searchFrom (fun _ => State.Keeps L) h ?_ fun s₁ h₁ => ⟨h₁, nofun⟩
  intro i s₁ _ _ h₁
  refine .bind (sound_slot ?_)
  cases hslot : State.allTraders s₁ i with
  | none => exact .ret ⟨fun _ => h₁, nofun⟩
  | some b =>
    refine .bind (sound_slotName h₁ hslot fun name' => ?_)
    split_ifs
    · refine .bind (sound_slot ?_)
      rw [hslot]
      have hb : L b := h₁.slots i b hslot
      have href := (accesses_keeps hb).traderRef
      have hkept : Faultless E t (traderRef b) (fun _ s' => State.Keeps L s' ∧
          s'.allTraders = s₁.allTraders) s₁ :=
        (Faultless.of_built href h₁).and (table_of_built href s₁)
      refine .bind (.ret (.bind (hkept.mono ?_)))
      rintro _ s₂ ⟨h₂, htable⟩
      refine .bind (sound_slot ?_)
      rw [htable, hslot]
      refine .bind (.ret (.ret ⟨nofun, ?_⟩))
      rintro _ ⟨⟩
      exact ⟨h₂, fun c hc => Option.some.inj hc ▸ hb⟩
    · exact .ret ⟨fun _ => h₁, nofun⟩

theorem keeps_getFirst : Built (Op.keeps L) getFirstAvailableIndex := by
  refine .search fun i => .bind (.act trivial) fun r => ?_
  cases r <;> exact .ret

/-- A login keeps the traders that are alive, and adds one or none. -/
theorem sound_traderLogin {fd : Int} {name : CString} (h : s.Keeps L) :
    Faultless E t (traderLogin fd name) (fun _ s' => ∃ L', State.Keeps L' s') s := by
  refine Faultless.scope (.bind ((sound_checkOldTraderAndLogin (h.history _)).mono ?_))
  rintro r s₁ ⟨h₁, hold⟩
  cases r with
  | some old =>
    have ho : L old := hold old rfl
    refine .bind (sound_step (o := .load .fd old) ho h₁ fun oldFd s₂ h₂ => ?_)
    split_ifs
    · exact .ret ⟨L, h₂.history _⟩
    · refine .bind (sound_step (o := .store .fd old fd) ho h₂ fun _ s₃ h₃ => ?_)
      exact .ret ⟨L, h₃.history _⟩
  | none =>
    refine .bind (.step (fun e => by simp [exec]) fun e total s' he => ?_)
    cases he
    split_ifs with hfull
    · exact .ret ⟨L, h₁.history _⟩
    · refine .bind (.step (fun e => by simp [exec]) fun e total s' he => ?_)
      cases he
      refine .bind (.step (fun e => by simp [exec]) fun e _ s₂ he => ?_)
      cases he
      have h₂ : State.Keeps L { s₁ with count := s₁.count + 1 } :=
        ⟨h₁.alive, h₁.slots, by dsimp only at hfull ⊢; omega⟩
      refine .bind (.step (fun e => Op.keeps_safe (t := t) (o := .mallocTrader) trivial h₂)
        fun e trader s₃ he => ?_)
      obtain ⟨junk, _, _, rfl⟩ := exec_mallocTrader (t := t) (e := e) he
      obtain ⟨L', hnew, h₃⟩ :=
        h₂.insert trader { junk with mutex := ⟨false, none, junk.mutex.depth⟩ }
      have href := (accesses_keeps hnew).traderRef
      refine .bind ((Faultless.of_built href h₃).mono fun _ s₄ h₄ => ?_)
      refine .bind ((Faultless.of_built href h₄).mono fun _ s₅ h₅ => ?_)
      refine .bind (sound_step (o := .store .fd trader fd) hnew h₅ fun _ s₆ h₆ => ?_)
      refine .bind (sound_step (o := .store .balance trader 0) hnew h₆ fun _ s₇ h₇ => ?_)
      refine .bind (sound_step (o := .store .inventory trader 0) hnew h₇ fun _ s₈ h₈ => ?_)
      refine .bind (sound_step (o := .store .name trader name) hnew h₈ fun _ s₉ h₉ => ?_)
      refine .bind (sound_step (o := .mutexInit trader) hnew h₉ fun _ s₁₀ h₁₀ => ?_)
      refine .bind ((Faultless.of_built keeps_getFirst h₁₀).mono fun r s₁₁ h₁₁ => ?_)
      cases r with
      | none => exact .ret ⟨_, h₁₁.history _⟩
      | some i =>
        refine .bind (.step (fun e => by simp [exec]) fun e _ s₁₂ he => ?_)
        cases he
        refine .ret ⟨L', h₁₁.alive, fun j b hb => ?_, h₁₁.count⟩
        have hb' : Function.update s₁₁.allTraders i (some trader) j = some b := hb
        rw [Function.update_apply] at hb'
        split_ifs at hb'
        · exact Option.some.inj hb' ▸ hnew
        · exact h₁₁.slots j b hb'

theorem sound_traderBroadcastPacket {hdr : PacketHeader} {data : List UInt8} (h : s.Keeps L) :
    Faultless E t (traderBroadcastPacket hdr data) (fun _ => State.Keeps L) s := by
  refine Faultless.scope (.bind (.searchFrom (fun _ => State.Keeps L) (h.history _) ?_ ?_))
  · intro i s₁ _ _ h₁
    refine .bind (sound_slot ?_)
    cases hslot : State.allTraders s₁ i with
    | none => exact .ret ⟨fun _ => h₁, nofun⟩
    | some b =>
      refine .bind (sound_slot ?_)
      rw [hslot]
      have hb : L b := h₁.slots i b hslot
      have hsend := (accesses_keeps hb).traderSendPacket hdr data
      refine .bind (.ret (.bind ((Faultless.of_built hsend h₁).mono ?_)))
      exact fun _ s₂ h₂ => .ret ⟨fun _ => h₂, nofun⟩
  · exact fun s₁ h₁ => .ret (h₁.history _)

/-- If there is a trader below `count`, the first one is locked by another thread. -/
def State.Blocked (t : Nat) (s : State E) : Prop :=
  ∀ i b tr, i < s.count → s.allTraders i = some b → (∀ j, j < i → s.allTraders j = none) →
    s.traders b = some tr → tr.mutex.lock t = none

theorem sound_traderFini (h : s.Keeps L) (hblocked : s.Blocked t) :
    Faultless E t traderFini (fun _ => State.Keeps L) s := by
  refine .bind (.searchFrom (fun j s' => s' = s ∧ ∀ i, i < j → s.allTraders i = none)
    ⟨rfl, by simp⟩ ?_ ?_)
  · rintro i s₁ _ _ ⟨heq, hfree⟩
    subst heq
    refine .bind (.step (fun e => by simp [exec]) fun e total s' he => ?_)
    cases he
    split_ifs with hi
    · refine .bind (sound_slot ?_)
      cases hslot : State.allTraders s₁ i with
      | none =>
        refine .ret ⟨fun _ => ⟨rfl, fun j hj => ?_⟩, by simp⟩
        rcases Nat.lt_succ_iff_lt_or_eq.mp hj with hlt | rfl
        · exact hfree j hlt
        · exact hslot
      | some b =>
        refine .bind (sound_slot ?_)
        rw [hslot]
        obtain ⟨tr, htr⟩ := h.alive b (h.slots i b hslot)
        exact .bind (.ret (.bind (sound_lock_blocked htr (hblocked i b tr hi hslot hfree htr))))
    · exact .ret ⟨by simp, fun _ _ => .ret h⟩
  · rintro s₁ ⟨heq, _⟩
    subst heq
    refine .bind (.step (fun e => by simp [exec]) fun e total s' he => ?_)
    cases he
    have hcount := h.count
    rw [if_neg (by omega)]
    exact .ret h

end sound

/-! ## Sequences of operations -/

/-- A call of a function of the trader module. -/
inductive ModuleCall where
  | login (fd : Int) (name : CString)
  | logout (a : Nat)
  | client (c : ClientCall)
  | fini

namespace ModuleCall

def code : ModuleCall → Code Unit
  | .login fd name => do
    let _ ← traderLogin fd name
    pure ()
  | .logout a => traderLogout a
  | .client c => runClient c
  | .fini => traderFini

/-- The operation is called on a trader that is alive, if it is called on one. -/
def Live (s : State E) : ModuleCall → Prop
  | .logout a => ∃ tr, s.traders a = some tr
  | .client c => ∀ a, c.trader = some a → ∃ tr, s.traders a = some tr
  | .login .. | .fini => True

/-- The operation gets to free a trader: one whose last reference it drops, or the first one that
`trader_fini` finds, and in either case one whose mutex no other thread holds. -/
def Frees (t : Nat) (s : State E) : ModuleCall → Prop
  | .logout a | .client (.unref a) =>
    ∃ tr m, s.traders a = some tr ∧ tr.mutex.lock t = some m ∧ tr.ref = 1
  | .fini => ¬ s.Blocked t
  | _ => False

end ModuleCall

/-- The states that sequences of operations lead to, one after the other and each called on a
trader that is alive. What else the process does between them leaves the traders alone. -/
inductive Operated (allow : Nat → ModuleCall → State E → Prop) : State E → Prop where
  | start {s : State E} : (∀ a, s.traders a = none) → (∀ i, s.allTraders i = none) →
      s.count = 0 → Operated allow s
  | around {s s' : State E} : Operated allow s → s'.traders = s.traders →
      s'.allTraders = s.allTraders → s'.count = s.count → Operated allow s'
  | operation {t : Nat} {c : ModuleCall} {s s' : State E} : Operated allow s → c.Live s →
      allow t c s → Runs (machine E) anyStep t c.code s () s' → Operated allow s'

theorem sound_client {c : ClientCall} (h : s.Keeps L) (hlive : ∀ a, c.trader = some a → L a)
    (hkeep : ¬ (ModuleCall.client c).Frees t s) :
    Faultless E t (runClient c) (fun _ => State.Keeps L) s := by
  cases c with
  | ref a =>
    exact Faultless.of_built (.bind (accesses_keeps (hlive a rfl)).traderRef fun _ => .ret) h
  | unref a =>
    exact sound_traderUnref h (hlive a rfl) fun tr m htr hm hone => hkeep ⟨tr, m, htr, hm, hone⟩
  | sendPacket a hdr data =>
    exact Faultless.of_built (.bind ((accesses_keeps (hlive a rfl)).traderSendPacket hdr data)
      fun _ => .ret) h
  | broadcast hdr data =>
    exact .bind ((sound_traderBroadcastPacket h).mono fun _ s' h' => .ret h')
  | sendAck a info =>
    exact Faultless.of_built (.bind ((accesses_keeps (hlive a rfl)).traderSendAck info)
      fun _ => .ret) h
  | sendNack a =>
    exact Faultless.of_built (.bind (accesses_keeps (hlive a rfl)).traderSendNack fun _ => .ret) h
  | account a c => exact Faultless.of_built ((accesses_keeps (hlive a rfl)).runAccount c) h

/-- An operation that does not get to free a trader keeps those that are alive. -/
theorem sound_operation {c : ModuleCall} (h : s.Keeps fun a => ∃ tr, s.traders a = some tr)
    (hlive : c.Live s) (hkeep : ¬ c.Frees t s) :
    Faultless E t c.code (fun _ s' => ∃ L, State.Keeps L s') s := by
  cases c with
  | login fd name => exact .bind ((sound_traderLogin h).mono fun _ s' h' => .ret h')
  | logout a =>
    refine (sound_traderLogout h hlive fun tr m htr hm hone => ?_).mono fun _ s' h' => ⟨_, h'⟩
    exact hkeep ⟨tr, m, htr, hm, hone⟩
  | client c => exact (sound_client h hlive hkeep).mono fun _ s' h' => ⟨_, h'⟩
  | fini => exact (sound_traderFini h (not_not.mp hkeep)).mono fun _ s' h' => ⟨_, h'⟩

theorem Operated.keeps (h : Operated (fun t c s => ¬ c.Frees t s) s) :
    s.Keeps fun a => ∃ tr, s.traders a = some tr := by
  induction h with
  | start htraders htable hcount =>
    refine ⟨fun a ha => ha, fun i a hi => ?_, by omega⟩
    cases (htable i).symm.trans hi
  | around _ htraders htable hcount ih =>
    rw [htraders]
    exact ih.of_same htraders htable hcount
  | operation _ hlive hkeep hr ih =>
    obtain ⟨L, hL⟩ := (sound_operation ih hlive hkeep).post _ _ hr
    exact ⟨fun a ha => ha, fun i a hi => hL.alive a (hL.slots i a hi), hL.count⟩

/-- As long as no operation gets to free a trader, the next one does not look up a trader that
has been freed, nor does it fault in another way. -/
theorem freed_never_looked_up {c : ModuleCall} (h : Operated (fun t c s => ¬ c.Frees t s) s)
    (hlive : c.Live s) (hkeep : ¬ c.Frees t s) : ¬ Faults (machine E) t c.code s :=
  (sound_operation h.keeps hlive hkeep).not_faults

/-- What an operation comes to when all goes smoothly. -/
def operate (t : Nat) (c : ModuleCall) (s : State (.fixed 1 1)) : Option (State (.fixed 1 1)) :=
  ((machine (.fixed 1 1)).finish (fun o s => some (.smooth () o s)) t 400 c.code s).map Prod.snd

theorem Operated.of_operate {allow : Nat → ModuleCall → State (.fixed 1 1) → Prop} {c : ModuleCall}
    {s s' : State (.fixed 1 1)} (h : Operated allow s) (hlive : c.Live s) (hallow : allow t c s)
    (ho : operate t c s = some s') : Operated allow s' := by
  obtain ⟨⟨_, s''⟩, hfinish, rfl⟩ := Option.map_eq_some_iff.mp ho
  exact h.operation hlive hallow (.of_finish (fun _ _ _ _ => trivial) hfinish)

/-- No trader yet, and the memory for a name. -/
def noTraders : State (.fixed 1 1) := { State.init _ () 4 with blocks := [0] }

/-- After a login the service thread can give its reference back. -/
theorem unref_after_login_safe : ∃ s : State (.fixed 1 1), (s.traders 0).map Trader.ref = some 2 ∧
    ¬ Faults (machine (.fixed 1 1)) 0 (ModuleCall.client (.unref 0)).code s := by
  obtain ⟨s, hlogin, hs⟩ := (Option.any_eq_true _ _).mp
    (show ((operate 0 (.login 3 letterA) noTraders).any fun s =>
      (s.traders 0).map Trader.ref = some 2) = true by decide +kernel)
  have href := of_decide_eq_true hs
  obtain ⟨tr, htr, htwo⟩ := Option.map_eq_some_iff.mp href
  refine ⟨s, href, freed_never_looked_up ?_ (fun a ha => ?_) ?_⟩
  · exact (Operated.start (s := noTraders) (fun _ => rfl) (fun _ => rfl) rfl).of_operate
      (c := .login 3 letterA) trivial not_false hlogin
  · obtain rfl := Option.some.inj ha
    exact ⟨tr, htr⟩
  · rintro ⟨tr', m, htr', _, hone⟩
    obtain rfl := Option.some.inj (htr.symm.trans htr')
    omega

/-- The thread is about to release the mutex of trader `a`, which is no longer there. -/
def releasesFreed (a : Nat) (p : Code Unit × State (.fixed 1 1)) : Bool :=
  match p.1 with
  | .op (.unlock b) _ => b = a && (p.2.traders a).isNone
  | _ => false

theorem faults_of_releasesFreed {t a n : Nat} {p : Code Unit} {s : State (.fixed 1 1)}
    {pick : Op → State (.fixed 1 1) → Option (Choice (.fixed 1 1))}
    (h : releasesFreed a ((machine (.fixed 1 1)).drive pick t n p s) = true) :
    Faults (machine (.fixed 1 1)) t p s := by
  unfold releasesFreed at h
  split at h
  · rename_i b k hp
    obtain ⟨hb, hfreed⟩ := (Bool.and_eq_true _ _).mp h
    obtain rfl := of_decide_eq_true hb
    have hnone := Option.isNone_iff_eq_none.mp hfreed
    refine ⟨.unlock b, _, Comes.of_drive (k := k) (Prod.ext hp rfl), .tick, ?_⟩
    simp [machine, exec, execTrader, hnone]
  · cases h

/-- A login, and both references to the trader are given back: the second call of `trader_unref`
frees the trader and then comes to release its mutex. -/
theorem unref_releases_freed : ∃ s : State (.fixed 1 1), Operated (fun _ _ _ => True) s ∧
    (ModuleCall.client (.unref 0)).Live s ∧
    Faults (machine (.fixed 1 1)) 0 (ModuleCall.client (.unref 0)).code s ∧
    releasesFreed 0 ((machine (.fixed 1 1)).drive (fun o s => some (.smooth () o s)) 0 400
      (ModuleCall.client (.unref 0)).code s) := by
  obtain ⟨s₁, hlogin, hs₁⟩ := (Option.any_eq_true _ _).mp
    (show ((operate 0 (.login 3 letterA) noTraders).any fun s₁ => (s₁.traders 0).isSome &&
      (operate 0 (.client (.unref 0)) s₁).any fun s₂ => (s₂.traders 0).isSome &&
        releasesFreed 0 ((machine (.fixed 1 1)).drive (fun o s => some (.smooth () o s)) 0 400
          (ModuleCall.client (.unref 0)).code s₂)) = true by decide +kernel)
  obtain ⟨halive₁, hs₁⟩ := (Bool.and_eq_true _ _).mp hs₁
  obtain ⟨s₂, hunref, hs₂⟩ := (Option.any_eq_true _ _).mp hs₁
  obtain ⟨halive₂, hfreed⟩ := (Bool.and_eq_true _ _).mp hs₂
  have hlive : ∀ s : State (.fixed 1 1), (s.traders 0).isSome = true →
      (ModuleCall.client (.unref 0)).Live s := by
    intro s hs a ha
    obtain rfl := Option.some.inj ha
    exact Option.isSome_iff_exists.mp hs
  have h₁ : Operated (fun _ _ _ => True) s₁ :=
    (Operated.start (s := noTraders) (fun _ => rfl) (fun _ => rfl) rfl).of_operate
      (c := .login 3 letterA) trivial trivial hlogin
  exact ⟨s₂, h₁.of_operate (hlive s₁ halive₁) trivial hunref, hlive s₂ halive₂,
    faults_of_releasesFreed hfreed, hfreed⟩

end BourseServer
