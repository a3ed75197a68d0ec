import BourseServer.Protocol.RoundTrip
import BourseServer.Trader.FreedAccess

/-!
# The memory of a connection

A service thread allocates a header for each packet, a payload for each packet that has one, and
a name for each login. The header is not freed where the source goes on with `continue`, a
payload is freed only when the connection ends and only if the size field of the header memory
says so, and a name only goes into a new trader.
-/
namespace BourseServer

open Concurrency

variable {E : Exchange} {t a : Nat} {fd : Int} {s s' s'' : State E} {α β : Type}

/-! ## Code that neither allocates nor frees -/

/-- The actions that allocate and free nothing but new traders, and that leave all names alone. -/
def Op.retains : Op → Bool
  | .malloc _ | .free _ | .freeTrader _ | .store .name _ _ => false
  | _ => true

/-- Every trader is still there under its name. -/
def NamesKept (s s' : State E) : Prop :=
  ∀ a tr, s.traders a = some tr → ∃ tr', s'.traders a = some tr' ∧ tr'.name = tr.name

theorem NamesKept.trans (h : NamesKept s s') (h' : NamesKept s' s'') : NamesKept s s'' := by
  intro a tr htr
  obtain ⟨tr', htr', hname⟩ := h a tr htr
  obtain ⟨tr'', htr'', hname'⟩ := h' a tr' htr'
  exact ⟨tr'', htr'', hname'.trans hname⟩

/-- The same blocks are in use, and no trader has lost its name. -/
structure Retained (s s' : State E) : Prop where
  blocks : s'.blocks = s.blocks
  names : NamesKept s s'

namespace Retained

theorem refl (s : State E) : Retained s s := ⟨rfl, fun _ tr htr => ⟨tr, htr, rfl⟩⟩

theorem trans (h : Retained s s') (h' : Retained s' s'') : Retained s s'' where
  blocks := h'.blocks.trans h.blocks
  names := h.names.trans h'.names

theorem of_traders (hblocks : s'.blocks = s.blocks) (htraders : s'.traders = s.traders) :
    Retained s s' := ⟨hblocks, fun _ tr htr => ⟨tr, htraders ▸ htr, rfl⟩⟩

theorem setTrader {tr tr' : Trader} (h : ∀ old, s.traders a = some old → old = tr)
    (hname : tr'.name = tr.name) (hist : History) :
    Retained s { s.setTrader a (some tr') with hist := hist } where
  blocks := rfl
  names b trb htrb := by
    by_cases hb : b = a
    · subst hb
      obtain rfl := h trb htrb
      exact ⟨tr', Function.update_self .., hname⟩
    · exact ⟨trb, (Function.update_of_ne hb ..).trans htrb, rfl⟩

end Retained

theorem exec_retains {o : Op} {e : Choice E} {r : o.Reply} (ho : o.retains = true)
    (h : exec t o e s = .done r s') : Retained s s' := by
  have hrecord : ∀ {a : Nat} {tr tr' : Trader} (hist : History), s.traders a = some tr →
      tr'.name = tr.name → Retained s { s.setTrader a (some tr') with hist := hist } := by
    intro a tr tr' hist htr hname
    refine .setTrader (fun old hold => ?_) hname hist
    exact Option.some.inj (hold.symm.trans htr)
  cases o
  case lock a =>
    obtain ⟨tr, m, htr, _, rfl⟩ := exec_lock h
    exact hrecord _ htr rfl
  case unlock a =>
    obtain ⟨tr, htr, rfl⟩ := exec_unlock h
    exact hrecord s.hist htr rfl
  case mutexInit a =>
    obtain ⟨tr, htr, rfl⟩ := exec_mutexInit h
    exact hrecord s.hist htr rfl
  case mallocTrader =>
    obtain ⟨junk, _, hfree, rfl⟩ := exec_mallocTrader h
    refine ⟨rfl, fun b trb htrb => ⟨trb, ?_, rfl⟩⟩
    have hb : b ≠ r := by
      rintro rfl
      cases hfree.symm.trans htrb
    exact (Function.update_of_ne hb ..).trans htrb
  case store f a v =>
    obtain ⟨tr, htr, rfl⟩ := exec_store h
    refine hrecord _ htr ?_
    cases f <;> first | rfl | cases ho
  case read fd n =>
    rcases execRead_conns h with rfl | ⟨c, k, _, rfl⟩ <;> exact .of_traders rfl rfl
  case write fd bs =>
    rcases execWrite_conns h with rfl | ⟨c, k, _, rfl⟩ <;> exact .of_traders rfl rfl
  case malloc | free | freeTrader => cases ho
  all_goals
    simp only [exec, execTrader] at h
    repeat' split at h
    all_goals cases h
    all_goals exact .of_traders rfl rfl

/-- Every run of the code leaves names and blocks alone. -/
def Retaining (E : Exchange) (t : Nat) (p : Code α) : Prop :=
  ∀ s : State E, Partial (machine E) anyStep t p (fun _ s' => Retained s s') s

namespace Retaining

theorem ret {x : α} : Retaining E t (.ret x) := fun s => .ret (.refl s)

theorem bind {p : Code α} {f : α → Code β} (hp : Retaining E t p)
    (hf : ∀ x, Retaining E t (f x)) : Retaining E t (p >>= f) :=
  fun s => .bind ((hp s).mono fun x s' h => (hf x s').mono fun _ _ h' => h.trans h')

theorem of_built {p : Code α} (hp : Built (fun o => o.retains = true) p) : Retaining E t p := by
  refine fun s => hp.partial_of_step (R := Retained) .refl Retained.trans (fun _ _ => rfl)
    (fun _ _ => rfl) (fun o e s r s' ho he _ => exec_retains ?_ he)
    (fun s h => .of_traders rfl rfl) s
  rcases ho with ho | ho
  · exact ho
  · cases o <;> first | rfl | cases ho

theorem act {o : Op} (ho : o.retains = true) : Retaining E t (.act (I := bourse) o) :=
  .of_built (.act ho)

theorem scope {c : Call} {value : α → Value} {p : Code α} (hp : Retaining E t p) :
    Retaining E t (scope c value p) :=
  .bind (.act rfl) fun _ => .bind hp fun _ => .bind (.act rfl) fun _ => .ret

theorem searchFrom {body : Nat → Code (Option α)} {n : Nat} :
    ∀ {i : Nat}, (∀ j, Retaining E t (body j)) → Retaining E t (.searchFrom body n i) := by
  induction n with
  | zero => exact fun _ => .ret
  | succ n ih =>
    intro i h
    refine .bind (h i) fun r => ?_
    cases r with
    | none => exact ih h
    | some x => exact .ret

end Retaining

/-! ### The functions of the trader module -/

theorem accesses_retains (a : Nat) : Accesses (fun o => o.retains = true) a :=
  ⟨rfl, rfl, fun _ => rfl, fun f v hf => by cases f <;> first | rfl | exact absurd rfl hf, rfl,
    fun _ => rfl⟩

theorem retaining_deref (p : Option Nat) : Retaining E t (deref p) := by
  cases p with
  | some a => exact .ret
  | none => exact .of_built (.leaf ⟨rfl, nofun⟩)

theorem retaining_slotName (i : Nat) : Retaining E t (slotName i) :=
  .bind (.act rfl) fun p => .bind (retaining_deref p) fun _ => .act rfl

/-- The removal of a trader goes wrong when its mutex is released, so no run gets past it. -/
theorem partial_removeTraderIfEmpty :
    Partial (machine E) anyStep t (removeTraderIfEmpty a)
      (fun _ (s' : State E) => Retained s s' ∨ s'.traders a = none) s := by
  refine .bind ((Retaining.act (o := .load .ref a) rfl s).mono fun ref s₁ h₁ => ?_)
  split_ifs
  · exact .ret (.inl h₁)
  refine .bind (.searchFrom (fun _ (s' : State E) => Retained s s') h₁ ?_ ?_)
  case refine_2 => exact fun s₂ h₂ => .ret (.inl h₂)
  intro i s₂ _ _ h₂
  refine .bind ((Retaining.act (o := .slot i) rfl s₂).mono fun p s₃ h₃ => ?_)
  have hs₃ : Retained s s₃ := h₂.trans h₃
  cases p with
  | none => exact .ret ⟨fun _ => hs₃, by simp⟩
  | some b =>
    refine .bind ((retaining_slotName i s₃).mono fun name s₄ h₄ => ?_)
    refine .bind ((Retaining.act (o := .load .name a) rfl s₄).mono fun name' s₅ h₅ => ?_)
    split_ifs
    · refine .bind (Partial.mono (fun _ _ _ => trivial) fun name s₆ _ => ?_)
      refine .bind (Partial.mono (fun _ _ _ => trivial) fun _ s₇ _ => ?_)
      refine .bind (.act fun e r s₈ he _ => ?_)
      obtain ⟨tr, _, rfl⟩ := exec_freeTrader (t := t) (e := e) he
      refine .bind (.act fun e r s₉ he _ => ?_)
      cases he
      exact .ret ⟨by simp, fun _ _ => .ret (.inr (Function.update_self ..))⟩
    · exact .ret ⟨fun _ => hs₃.trans (h₄.trans h₅), by simp⟩

theorem retaining_traderUnref (a : Nat) : Retaining E t (traderUnref a) := by
  refine .scope (.bind (.act rfl) fun _ => .bind (.act rfl) fun ref => .bind (.act rfl) fun _ => ?_)
  refine fun s => .bind (partial_removeTraderIfEmpty.mono fun _ s₁ h₁ => ?_)
  rcases h₁ with h₁ | hgone
  · exact (Retaining.act (o := .unlock a) rfl s₁).mono fun _ s₂ h₂ => h₁.trans h₂
  · refine .act fun e r s₂ he _ => ?_
    obtain ⟨tr, htr, _⟩ := exec_unlock (t := t) (e := e) he
    cases hgone.symm.trans htr

theorem retaining_traderLogout (a : Nat) : Retaining E t (traderLogout a) := by
  refine .scope (.bind (.act rfl) fun _ => .bind (.searchFrom fun i => ?_) fun _ => .act rfl)
  refine .bind (.act rfl) fun p => ?_
  cases p with
  | none => exact .ret
  | some b =>
    refine .bind (retaining_slotName i) fun name => .bind (.act rfl) fun name' => ?_
    split_ifs
    · exact .bind (retaining_traderUnref a) fun _ => .bind (.act rfl) fun _ => .ret
    · exact .ret

theorem retaining_traderBroadcastPacket (hdr : PacketHeader) (data : List UInt8) :
    Retaining E t (traderBroadcastPacket hdr data) := by
  refine .scope (.bind (.searchFrom fun i => .bind (.act rfl) fun p => ?_) fun _ => .ret)
  cases p with
  | none => exact .ret
  | some b =>
    exact .bind (.act rfl) fun p => .bind (retaining_deref p) fun a =>
      .bind (.of_built ((accesses_retains a).traderSendPacket hdr data)) fun _ => .ret

theorem retaining_checkOldTraderAndLogin (fd : Int) (name : CString) :
    Retaining E t (checkOldTraderAndLogin fd name) := by
  refine .searchFrom fun i => .bind (.act rfl) fun p => ?_
  cases p with
  | none => exact .ret
  | some b =>
    refine .bind (retaining_slotName i) fun name' => ?_
    split_ifs
    · exact .bind (.act rfl) fun p => .bind (retaining_deref p) fun a =>
        .bind (.of_built (accesses_retains a).traderRef) fun _ => .bind (.act rfl) fun p =>
          .bind (retaining_deref p) fun _ => .ret
    · exact .ret

theorem retaining_getFirst : Retaining E t getFirstAvailableIndex := by
  refine .searchFrom fun i => .bind (.act rfl) fun p => ?_
  cases p <;> exact .ret

/-- The name goes into a trader that was not there before. -/
theorem retaining_traderLogin (fd : Int) (name : CString) :
    Retaining E t (traderLogin fd name) := by
  refine .scope fun s => .bind ((retaining_checkOldTraderAndLogin fd name s).mono ?_)
  intro r s₁ h₁
  cases r with
  | some old =>
    refine .bind ((Retaining.act (o := .load .fd old) rfl s₁).mono fun oldFd s₂ h₂ => ?_)
    split_ifs
    · exact .ret (h₁.trans h₂)
    · refine .bind ((Retaining.act (o := .store .fd old fd) rfl s₂).mono fun _ s₃ h₃ => ?_)
      exact .ret ((h₁.trans h₂).trans h₃)
  | none =>
    refine .bind ((Retaining.act (o := .count) rfl s₁).mono fun total s₂ h₂ => ?_)
    split_ifs
    · exact .ret (h₁.trans h₂)
    refine .bind ((Retaining.act (o := .count) rfl s₂).mono fun total s₃ h₃ => ?_)
    refine .bind ((Retaining.act (o := .setCount (total + 1)) rfl s₃).mono fun _ s₄ h₄ => ?_)
    have hs₄ : Retained s s₄ := ((h₁.trans h₂).trans h₃).trans h₄
    refine .bind (.act fun e trader s₅ he _ => ?_)
    have hs₅ : Retained s s₅ :=
      hs₄.trans (exec_retains (t := t) (e := e) (o := .mallocTrader) rfl he)
    have hnew : s.traders trader = none := by
      obtain ⟨_, _, hnone, _⟩ := exec_mallocTrader (t := t) (e := e) he
      cases hold : s.traders trader with
      | none => rfl
      | some tr =>
        obtain ⟨tr', htr', _⟩ := hs₄.names trader tr hold
        cases hnone.symm.trans htr'
    have href : Retaining E t (traderRef trader) := .of_built (accesses_retains trader).traderRef
    refine .bind ((href s₅).mono fun _ s₆ h₆ => .bind ((href s₆).mono fun _ s₇ h₇ => ?_))
    refine .bind ((Retaining.act (o := .store .fd trader fd) rfl s₇).mono fun _ s₈ h₈ => ?_)
    refine .bind ((Retaining.act (o := .store .balance trader 0) rfl s₈).mono fun _ s₉ h₉ => ?_)
    refine .bind ((Retaining.act (o := .store .inventory trader 0) rfl s₉).mono fun _ s₁₀ h₁₀ => ?_)
    have hs₁₀ : Retained s s₁₀ := (((hs₅.trans h₆).trans (h₇.trans h₈)).trans h₉).trans h₁₀
    refine .bind (.act fun e _ s₁₁ he _ => ?_)
    have hs₁₁ : Retained s s₁₁ := by
      obtain ⟨tr, _, rfl⟩ := exec_store (t := t) (e := e) he
      refine ⟨hs₁₀.blocks, fun b trb htrb => ?_⟩
      obtain ⟨tr', htr', hname⟩ := hs₁₀.names b trb htrb
      have hb : b ≠ trader := by
        rintro rfl
        cases hnew.symm.trans htrb
      exact ⟨tr', (Function.update_of_ne hb ..).trans htr', hname⟩
    refine .bind ((Retaining.act (o := .mutexInit trader) rfl s₁₁).mono fun _ s₁₂ h₁₂ => ?_)
    refine .bind ((retaining_getFirst s₁₂).mono fun r s₁₃ h₁₃ => ?_)
    have hs₁₃ : Retained s s₁₃ := (hs₁₁.trans h₁₂).trans h₁₃
    cases r with
    | none => exact .ret hs₁₃
    | some i =>
      have hslot : Retaining E t (setSlot i (some trader)) := .act rfl
      exact .bind ((hslot s₁₃).mono fun _ s₁₄ h₁₄ => .ret (hs₁₃.trans h₁₄))

/-! ## What the service thread frees -/

/-- The thread itself, outside the trader module, frees something other than a block that is in
use and that was allocated after the state `s₀`. -/
def Misfrees (t : Nat) (s₀ : State E) (o : Op) (s : State E) : Prop :=
  s.hist.frames t = [] ∧ ∃ p, o = .free p ∧ ¬ ∃ b, p = some b ∧ b ∈ s.blocks ∧ b ∉ s₀.blocks

/-- The actions of the service thread that free nothing and change no call stack. -/
def Op.tame (o : Op) : Bool := o.retains && !o.writesFrames

/-- The code allocates and frees nothing itself, and what it calls leaves names and blocks
alone. -/
def Tame (E : Exchange) (t : Nat) (p : Code α) : Prop :=
  ∀ s₀ s : State E, s.hist.frames t = [] → Sound (machine E) (Misfrees t s₀) t p
    (fun _ s' => s'.hist.frames t = [] ∧ Retained s s') s

/-- Inside the trader module nothing counts. -/
theorem sound_inside {s₀ : State E} {p : Code α} (hp : Framed p) (h : s.hist.frames t ≠ []) :
    Sound (machine E) (Misfrees t s₀) t p (fun _ s' => s'.hist.frames t = s.hist.frames t) s := by
  have hsafe : ∀ (o : Op) (s' : State E), s'.hist.frames t ≠ [] → ¬ Misfrees t s₀ o s' := by
    rintro o s' hs ⟨hnil, _⟩
    exact hs hnil
  induction hp generalizing s with
  | leaf hu =>
    refine Sound.of_uses (I := bourse) (M := machine E) (P := fun o => o.writesFrames = false)
      (J := fun s' : State E => s'.hist.frames t = s.hist.frames t) ?_ ?_ ?_ hu rfl
    · exact fun p hp => uses_transfer hp (fun _ _ => rfl) fun _ _ => rfl
    · exact fun o s' _ hs => hsafe o s' (hs ▸ h)
    · exact fun o e s₁ r s₂ ho hs he => (congrFun ((exec_frame he).frames ho) t).trans hs
  | bind _ _ ihp ihf =>
    refine .bind ((ihp h).mono fun x s₁ hs₁ => ?_)
    exact (ihf x (hs₁ ▸ h)).mono fun _ s₂ hs₂ => hs₂.trans hs₁
  | @scope _ c value p _ ih =>
    have hcons : (s.hist.enter t c).frames t = c :: s.hist.frames t := Function.update_self ..
    refine Sound.scope (hsafe _ s h) ((ih (s := { s with hist := s.hist.enter t c }) ?_).mono ?_)
    · exact hcons ▸ List.cons_ne_nil _ _
    · intro r s' hs'
      have hframes : s'.hist.frames t = c :: s.hist.frames t := hs'.trans hcons
      refine ⟨hsafe _ s' (by simp [hframes]), ?_⟩
      simp [History.leave, hframes]

namespace Tame

theorem ret {x : α} : Tame E t (.ret x) := fun _ s h => .ret ⟨h, .refl s⟩

theorem bind {p : Code α} {f : α → Code β} (hp : Tame E t p) (hf : ∀ x, Tame E t (f x)) :
    Tame E t (p >>= f) := by
  refine fun s₀ s h => .bind ((hp s₀ s h).mono fun x s' hs' => ?_)
  exact (hf x s₀ s' hs'.1).mono fun _ s'' hs'' => ⟨hs''.1, hs'.2.trans hs''.2⟩

theorem of_uses {p : Code α} (hp : p.Uses (fun o : Op => o.tame = true) Proc.Transfer) :
    Tame E t p := by
  refine fun s₀ s h => Sound.and (Sound.of_uses (I := bourse) (M := machine E)
    (P := fun o : Op => o.tame = true) (J := fun s' : State E => s'.hist.frames t = [])
    ?_ ?_ ?_ hp h) ?_
  · exact fun p hp => uses_transfer hp (fun _ _ => rfl) fun _ _ => rfl
  · rintro _ s' ho _ ⟨_, p, rfl, _⟩
    cases ho
  · intro o e s₁ r s₂ ho hs he
    have hw : o.writesFrames = false := by simpa using (Bool.and_eq_true_iff.mp ho).2
    exact (congrFun ((exec_frame he).frames hw) t).trans hs
  · exact Retaining.of_built (.leaf (hp.mono fun o ho => (Bool.and_eq_true_iff.mp ho).1)) s

theorem act {o : Op} (ho : o.tame = true) : Tame E t (.act (I := bourse) o) :=
  of_uses (Prog.uses_act ho)

theorem searchFrom {body : Nat → Code (Option α)} {n : Nat} :
    ∀ {i : Nat}, (∀ j, Tame E t (body j)) → Tame E t (.searchFrom body n i) := by
  induction n with
  | zero => exact fun _ => .ret
  | succ n ih =>
    intro i h
    refine .bind (h i) fun r => ?_
    cases r with
    | none => exact ih h
    | some x => exact .ret

/-- A function of the trader module. -/
theorem of_call {p : Code α} {c : Call} (hp : InnerCall p c) (hr : Retaining E t p) :
    Tame E t p := by
  obtain ⟨value, body, rfl, hbody⟩ := hp
  intro s₀ s h
  have hcons : (s.hist.enter t c).frames t = [c] := by simp [History.enter, h]
  have hsafe : ∀ (o : Op) (s' : State E), o.writesFrames = true → ¬ Misfrees t s₀ o s' := by
    rintro _ s' ho ⟨_, p, rfl, _⟩
    cases ho
  refine Sound.and (Sound.scope (hsafe _ s rfl) ((sound_inside hbody.framed ?_).mono ?_)) (hr s)
  · exact hcons ▸ List.cons_ne_nil _ _
  · intro r s' hs'
    have hframes : s'.hist.frames t = [c] := hs'.trans hcons
    refine ⟨hsafe _ s' rfl, ?_⟩
    simp [History.leave, hframes]

end Tame

/-! ### The functions of the server -/

theorem tame_protoSendPacket (fd : Int) (hdr : PacketHeader) (data : List UInt8) :
    Tame E t (protoSendPacket fd hdr data) := by
  refine .bind (.act rfl) fun _ => .bind (.of_uses (Prog.uses_invoke trivial)) fun r => ?_
  split_ifs
  · exact .ret
  · refine .bind (.of_uses (Prog.uses_invoke trivial)) fun r => ?_
    split_ifs <;> exact .ret
  · exact .ret

theorem tame_alreadyRegistred (fd : Int) : Tame E t (alreadyRegistred fd) :=
  .bind (.act rfl) fun _ => .bind (tame_protoSendPacket fd _ _) fun _ => .ret

theorem tame_loadPayload (payload : Option Payload) (n : Nat) :
    Tame E t (loadPayload payload n) := by
  unfold loadPayload
  dsimp only
  split_ifs
  · exact .bind (.act rfl) fun _ => .ret
  · exact .ret

theorem tame_traderSendAck (a : Nat) (info : Option StatusInfo) :
    Tame E t (traderSendAck a info) :=
  .of_call (plainCall_traderSendAck a info).inner
    (.of_built ((accesses_retains a).traderSendAck info))

theorem tame_traderSendNack (a : Nat) : Tame E t (traderSendNack a) :=
  .of_call (plainCall_traderSendNack a).inner (.of_built (accesses_retains a).traderSendNack)

theorem tame_traderSendPacket (a : Nat) (hdr : PacketHeader) (data : List UInt8) :
    Tame E t (traderSendPacket a hdr data) :=
  .of_call (plainCall_traderSendPacket a hdr data).inner
    (.of_built ((accesses_retains a).traderSendPacket hdr data))

theorem tame_increaseAsset (x : Asset) (a : Nat) (n : UInt32) : Tame E t (increaseAsset x a n) :=
  .of_call (innerCall_increaseAsset x a n) (.of_built ((accesses_retains a).increaseAsset x n))

theorem tame_decreaseAsset (x : Asset) (a : Nat) (n : UInt32) : Tame E t (decreaseAsset x a n) :=
  .of_call (innerCall_decreaseAsset x a n) (.of_built ((accesses_retains a).decreaseAsset x n))

theorem tame_runClient (c : ClientCall) : Tame E t (runClient c) := by
  cases c with
  | ref a =>
    exact .bind (.of_call (plainCall_traderRef a).inner
      (.of_built (accesses_retains a).traderRef)) fun _ => .ret
  | unref a => exact .of_call (closingCall_traderUnref a).inner (retaining_traderUnref a)
  | sendPacket a hdr data => exact .bind (tame_traderSendPacket a hdr data) fun _ => .ret
  | broadcast hdr data =>
    exact .bind (.of_call (plainCall_traderBroadcastPacket hdr data).inner
      (retaining_traderBroadcastPacket hdr data)) fun _ => .ret
  | sendAck a info => exact .bind (tame_traderSendAck a info) fun _ => .ret
  | sendNack a => exact .bind (tame_traderSendNack a) fun _ => .ret
  | account a c =>
    cases c with
    | increase x n => cases x <;> exact tame_increaseAsset _ a n
    | decrease x n => cases x <;> exact .bind (tame_decreaseAsset _ a n) fun _ => .ret

theorem tame_traderLogin (fd : Int) (name : CString) : Tame E t (traderLogin fd name) :=
  .of_call (innerCall_traderLogin fd name) (retaining_traderLogin fd name)

theorem tame_runClients (cs : List ClientCall) : Tame E t (runClients cs) := by
  induction cs with
  | nil => exact .ret
  | cons c cs ih => exact .bind (tame_runClient c) fun _ => ih

theorem tame_serveRequest (a : Nat) (type : UInt8) (payload : Option Payload) :
    Tame E t (serveRequest a type payload) := by
  have hreply : ∀ (ok : Bool) (info : StatusInfo), Tame E t (replyIf ok a info) := by
    intro ok info
    cases ok with
    | true => exact .bind (tame_traderSendAck a _) fun _ => .ret
    | false => exact .bind (tame_traderSendNack a) fun _ => .ret
  have hlocal : Tame E t localStatus := .bind (.act rfl) fun _ => .ret
  have hstatus : ∀ info, Tame E t (exchangeGetStatus info) := fun info =>
    .bind (.act rfl) fun _ => .ret
  have hinc : ∀ x, Tame E t (increaseRequest x a payload) := fun x =>
    .bind (tame_loadPayload payload 4) fun _ =>
      .bind (tame_increaseAsset x a _) fun _ =>
        .bind hlocal fun _ => .bind (hstatus _) fun _ => hreply _ _
  have hdec : ∀ x, Tame E t (decreaseRequest x a payload) := fun x =>
    .bind (tame_loadPayload payload 4) fun _ =>
      .bind (tame_decreaseAsset x a _) fun _ =>
        .bind hlocal fun _ => .bind (hstatus _) fun _ => hreply _ _
  have horder : ∀ (post : Nat → UInt32 → UInt32 → Code UInt32), (∀ q p, Tame E t (post a q p)) →
      Tame E t (orderRequest post a payload) := fun post hpost =>
    .bind (tame_loadPayload payload 8) fun _ => .bind (hpost _ _) fun _ =>
      .bind hlocal fun _ => .bind (hstatus _) fun _ => hreply _ _
  unfold serveRequest
  split_ifs
  · exact .bind hlocal fun _ => .bind (hstatus _) fun _ => hreply _ _
  · exact hinc .balance
  · exact hdec .balance
  · exact hinc .inventory
  · exact hdec .inventory
  · exact horder _ fun q p => .bind (.act rfl) fun r => .bind (tame_runClients r.1) fun _ => .ret
  · exact horder _ fun q p => .bind (.act rfl) fun r => .bind (tame_runClients r.1) fun _ => .ret
  · exact .bind (tame_loadPayload payload 4) fun _ => .bind (.act rfl) fun _ =>
      .bind (.bind (.act rfl) fun r => .bind (tame_runClients r.1) fun _ => .ret) fun _ =>
        .bind hlocal fun _ => .bind (hstatus _) fun _ => hreply _ _
  · exact .ret

/-! ## Allocation -/

theorem exec_malloc {n : Nat} {e : Choice E} {r : Nat × List UInt8}
    (h : exec t (.malloc n) e s = .done r s') :
    r.1 ∉ s.blocks ∧ r.2.length = n ∧ s' = { s with blocks := r.1 :: s.blocks } := by
  simp only [exec, execMalloc] at h
  repeat' split at h
  all_goals cases h
  rename_i hfree
  exact ⟨hfree.1, hfree.2, rfl⟩

theorem sound_malloc {s₀ : State E} {n : Nat} {Q : Nat × List UInt8 → State E → Prop}
    (hQ : ∀ b junk, b ∉ s.blocks → junk.length = n →
      Q (b, junk) { s with blocks := b :: s.blocks }) :
    Sound (machine E) (Misfrees t s₀) t (malloc n) Q s := by
  refine .act (by rintro ⟨_, p, hp, _⟩; cases hp) fun e r s' he => ?_
  obtain ⟨b, junk⟩ := r
  obtain ⟨hfree, hlen, rfl⟩ := exec_malloc (t := t) (e := e) he
  exact hQ b junk hfree hlen

theorem sound_free {s₀ : State E} {b : Nat} {Q : Unit → State E → Prop} (hb : b ∈ s.blocks)
    (hnew : b ∉ s₀.blocks) (hQ : Q () { s with blocks := s.blocks.erase b }) :
    Sound (machine E) (Misfrees t s₀) t (free (some b)) Q s := by
  refine .act ?_ fun e r s' he => ?_
  · rintro ⟨_, p, hp, hbad⟩
    cases hp
    exact hbad ⟨b, rfl, hb, hnew⟩
  · have he' : exec t (.free (some b)) e s = .done r s' := he
    simp only [exec, if_pos hb] at he'
    cases he'
    exact hQ

/-- The block is the name of a trader in the state `s` that was not there in `s₀`. -/
def Stored (s₀ s : State E) (n : Nat) : Prop :=
  ∃ a tr, s₀.traders a = none ∧ s.traders a = some tr ∧ tr.name.block = n

theorem Stored.kept {s₀ : State E} {n : Nat} (h : Stored s₀ s n) (hkept : NamesKept s s') :
    Stored s₀ s' n := by
  obtain ⟨a, tr, hnew, htr, rfl⟩ := h
  obtain ⟨tr', htr', hname⟩ := hkept a tr htr
  exact ⟨a, tr', hnew, htr', congrArg CString.block hname⟩

theorem Stored.since {s₀ : State E} {n : Nat} (h : Stored s s' n) (hkept : NamesKept s₀ s) :
    Stored s₀ s' n := by
  obtain ⟨a, tr, hnew, htr, hname⟩ := h
  refine ⟨a, tr, ?_, htr, hname⟩
  cases hold : s₀.traders a with
  | none => rfl
  | some old =>
    obtain ⟨tr', htr', _⟩ := hkept a old hold
    cases hnew.symm.trans htr'

/-! ## One packet -/

/-- The beginning of an iteration: the header is allocated, and the packet received. -/
def receive (connfd : Int) (l : Session) : Code (Nat × Int × PacketHeader × Option Payload) := do
  let (hdrBlock, _) ← malloc headerSize
  let r ← protoRecvPacket connfd .zero l.payload
  pure (hdrBlock, r)

/-- What `proto_recv_packet` has allocated, if anything, is in the payload variable, and a packet
that it accepts has all of its payload there. -/
def Filled (payload : Option Payload) (s : State E) (r : Int × PacketHeader × Option Payload)
    (s' : State E) : Prop :=
  (r.2.2 = payload ∧ s'.blocks = s.blocks ∧ (r.1 ≠ -1 → r.2.1.payloadSize = 0)) ∨
  ∃ q, r.2.2 = some q ∧ q.block ∉ s.blocks ∧ s'.blocks = q.block :: s.blocks ∧
    r.2.1.payloadSize ≠ 0 ∧ r.2.1.payloadSize ≤ q.bytes.length

theorem sound_protoRecvPacket {s₀ : State E} {hdr : PacketHeader} {payload : Option Payload}
    (h : s.hist.frames t = []) :
    Sound (machine E) (Misfrees t s₀) t (protoRecvPacket fd hdr payload)
      (fun r s' => s'.hist.frames t = [] ∧ NamesKept s s' ∧ Filled payload s r s') s := by
  have hread : ∀ n, Tame E t (rioReadn fd n) := fun n => .of_uses (Prog.uses_invoke trivial)
  refine .bind ((hread headerSize s₀ s h).mono ?_)
  rintro ⟨read, got⟩ s₁ ⟨h₁, hkept₁⟩
  dsimp only
  split_ifs with hfail hend hsize
  · exact .ret ⟨h₁, hkept₁.names, .inl ⟨rfl, hkept₁.blocks, by simp⟩⟩
  · exact .ret ⟨h₁, hkept₁.names, .inl ⟨rfl, hkept₁.blocks, by simp⟩⟩
  · refine .bind (sound_malloc fun block junk hblock hlen => ?_)
    refine .bind ((hread _ s₀ { s₁ with blocks := block :: s₁.blocks } h₁).mono ?_)
    rintro ⟨status, got'⟩ s₂ ⟨h₂, hkept₂⟩
    have hne : (hdr.fill got).payloadSize ≠ 0 := mt PacketHeader.payloadSize_eq_zero.mp hsize
    have hnames : NamesKept s s₂ := NamesKept.trans hkept₁.names hkept₂.names
    have hfilled : ∀ status', Filled payload s
        (status', hdr.fill got, some ⟨block, Bytes.overlay junk got'⟩) s₂ := by
      intro status'
      refine .inr ⟨_, rfl, ?_, ?_, hne, ?_⟩
      · rwa [← hkept₁.blocks]
      · rw [hkept₂.blocks]
        exact congrArg (block :: ·) hkept₁.blocks
      · simp [Bytes.overlay]
        omega
    dsimp only
    split_ifs
    · exact .ret ⟨h₂, hnames, hfilled _⟩
    · exact .ret ⟨h₂, hnames, hfilled _⟩
  · refine .ret ⟨h₁, hkept₁.names, .inl ⟨rfl, hkept₁.blocks, fun _ => ?_⟩⟩
    exact PacketHeader.payloadSize_eq_zero.mpr (not_not.mp hsize)

theorem sound_receive (s₀ : State E) {l : Session} (h : s.hist.frames t = []) :
    Sound (machine E) (Misfrees t s₀) t (receive fd l)
      (fun r s' => s'.hist.frames t = [] ∧ NamesKept s s' ∧ r.1 ∉ s.blocks ∧
        Filled l.payload { s with blocks := r.1 :: s.blocks } r.2 s') s := by
  refine .bind (sound_malloc fun b junk hb _ => .bind
    ((sound_protoRecvPacket (s := { s with blocks := b :: s.blocks }) h).mono ?_))
  rintro r s' ⟨hframes, hnames, hfilled⟩
  exact .ret ⟨hframes, hnames, hb, hfilled⟩

/-- The name in a LOGIN packet, as the service thread passes it on. -/
def loginName (hdr : PacketHeader) (l : Session) : CString :=
  ⟨0, (l.payload.elim [] Payload.bytes).take hdr.payloadSize ++ [0]⟩

/-- The packet gets past the `continue` statements, and if it is a LOGIN packet, it leads to a
new trader. -/
def LeavesNothing (hdr : PacketHeader) (l : Session) (s : State E) : Prop :=
  if hdr.type = PacketType.noPkt.code then True
  else if hdr.type = PacketType.login.code then
    l.thisTrader = none ∧ s.Unknown (loginName hdr l) ∧ s.count < maxTraders
  else l.thisTrader ≠ none

theorem partial_loadPayload_exact {ok : Condition (machine E)} {payload : Option Payload}
    {n : Nat} (hlen : n ≤ (payload.elim [] Payload.bytes).length) :
    Partial (machine E) ok t (loadPayload payload n)
      (fun bytes s' => bytes = (payload.elim [] Payload.bytes).take n ∧ s' = s) s := by
  have hfull : ¬ ((payload.elim [] Payload.bytes).take n).length < n := by
    rw [List.length_take]
    omega
  unfold loadPayload
  dsimp only
  rw [if_neg hfull]
  exact .ret ⟨rfl, rfl⟩

/-- The name of a new trader is in its record. -/
theorem partial_traderLogin_stores (n : Nat) (fd : Int) (name : CString) :
    Partial (machine E) anyStep t (traderLogin fd ⟨n, name.chars⟩)
      (fun _ s' => s.Unknown name → s.count < maxTraders → Stored s s' n)
      { s with blocks := n :: s.blocks } := by
  intro r s' hr hunknown hcount
  have hunknown' : State.Unknown { s with blocks := n :: s.blocks } ⟨n, name.chars⟩ := hunknown
  obtain ⟨b, junk, hnew, _, _, ⟨m, hm⟩, _⟩ := partial_traderLogin_new hunknown' hcount r s' hr
  exact ⟨b, _, hnew, hm, rfl⟩

/-- The name of a login is allocated, and it is stored if the login leads to a new trader. -/
theorem sound_serveLogin {s₀ : State E} {hdr : PacketHeader} {l : Session}
    (h : s.hist.frames t = [])
    (hlen : hdr.payloadSize ≤ (l.payload.elim [] Payload.bytes).length) :
    Sound (machine E) (Misfrees t s₀) t (serveLogin fd hdr l.payload)
      (fun _ s' => s'.hist.frames t = [] ∧ NamesKept s s' ∧ ∃ n, s'.blocks = n :: s.blocks ∧
        (s.Unknown (loginName hdr l) ∧ s.count < maxTraders → Stored s s' n)) s := by
  refine .bind (sound_malloc fun n junk _ _ => ?_)
  have hload : Sound (machine E) (Misfrees t s₀) t (loadPayload l.payload hdr.payloadSize)
      (fun bytes s' => bytes = (l.payload.elim [] Payload.bytes).take hdr.payloadSize ∧
        s' = { s with blocks := n :: s.blocks }) { s with blocks := n :: s.blocks } :=
    ⟨(tame_loadPayload _ _ s₀ { s with blocks := n :: s.blocks } h).safe,
      partial_loadPayload_exact hlen⟩
  refine .bind (hload.mono ?_)
  rintro _ _ ⟨rfl, rfl⟩
  have hlogin := (tame_traderLogin (E := E) (t := t) fd ⟨n, (loginName hdr l).chars⟩ s₀
    { s with blocks := n :: s.blocks } h).and (partial_traderLogin_stores n fd (loginName hdr l))
  refine .bind (hlogin.mono ?_)
  rintro r s₁ ⟨⟨h₁, hkept₁⟩, hstored⟩
  cases r with
  | none =>
    refine .bind ((tame_alreadyRegistred fd s₀ s₁ h₁).mono fun _ s₂ h₂ => .ret ?_)
    exact ⟨h₂.1, hkept₁.names.trans h₂.2.names, n, h₂.2.blocks.trans hkept₁.blocks,
      fun hroom => (hstored hroom.1 hroom.2).kept h₂.2.names⟩
  | some a =>
    refine .bind ((tame_traderSendAck a none s₀ s₁ h₁).mono fun _ s₂ h₂ => .ret ?_)
    exact ⟨h₂.1, hkept₁.names.trans h₂.2.names, n, h₂.2.blocks.trans hkept₁.blocks,
      fun hroom => (hstored hroom.1 hroom.2).kept h₂.2.names⟩

theorem sound_servePacket (s₀ : State E) {hdr : PacketHeader} {l : Session} {b : Nat}
    (h : s.hist.frames t = [])
    (hlen : hdr.payloadSize ≤ (l.payload.elim [] Payload.bytes).length) (hb : b ∈ s.blocks)
    (hnew : b ∉ s₀.blocks) :
    Sound (machine E) (Misfrees t s₀) t (servePacket fd b hdr l)
      (fun l' s' => s'.hist.frames t = [] ∧ NamesKept s s' ∧ l'.payload = l.payload ∧
        (LeavesNothing hdr l s → ∃ ns, s'.blocks = (ns ++ s.blocks).erase b ∧
          ∀ n ∈ ns, Stored s s' n)) s := by
  have hfree : ∀ {α : Type} {x : α} {s₁ : State E} (ns : List Nat) {Q : α → State E → Prop},
      s₁.blocks = ns ++ s.blocks → Q x { s₁ with blocks := (ns ++ s.blocks).erase b } →
      Sound (machine E) (Misfrees t s₀) t (do free (some b); pure x) Q s₁ := by
    intro α x s₁ ns Q hblocks hQ
    rw [← hblocks] at hQ
    refine .bind (sound_free ?_ hnew (.ret hQ))
    rw [hblocks]
    exact List.mem_append_right _ hb
  unfold servePacket
  by_cases hno : hdr.type = PacketType.noPkt.code
  · rw [if_pos hno]
    exact hfree [] rfl
      ⟨h, fun _ tr htr => ⟨tr, htr, rfl⟩, rfl, fun _ => ⟨[], rfl, by simp⟩⟩
  rw [if_neg hno]
  by_cases hlog : hdr.type = PacketType.login.code
  · rw [if_pos hlog]
    cases htrader : l.thisTrader with
    | some a =>
      refine .bind ((tame_traderSendNack a s₀ s h).mono fun _ s₁ h₁ => .ret ?_)
      refine ⟨h₁.1, h₁.2.names, rfl, fun hh => ?_⟩
      rw [LeavesNothing, if_neg hno, if_pos hlog, htrader] at hh
      cases hh.1
    | none =>
      refine .bind ((sound_serveLogin h hlen).mono ?_)
      rintro r s₁ ⟨h₁, hnames, n, hblocks, hstored⟩
      refine hfree [n] hblocks ⟨h₁, hnames, rfl, fun hh => ⟨[n], rfl, ?_⟩⟩
      rw [LeavesNothing, if_neg hno, if_pos hlog] at hh
      intro m hm
      rw [List.mem_singleton.mp hm]
      exact hstored hh.2
  · rw [if_neg hlog]
    cases htrader : l.thisTrader with
    | none =>
      refine .ret ⟨h, fun _ tr htr => ⟨tr, htr, rfl⟩, rfl, fun hh => ?_⟩
      rw [LeavesNothing, if_neg hno, if_neg hlog, htrader] at hh
      exact absurd rfl hh
    | some a =>
      refine .bind ((tame_serveRequest a hdr.type l.payload s₀ s h).mono fun _ s₁ h₁ => ?_)
      exact hfree [] h₁.2.blocks ⟨h₁.1, h₁.2.names, rfl, fun _ => ⟨[], rfl, by simp⟩⟩

/-! ## A connection -/

/-- A packet that was accepted, with the variables of the thread and the state then. -/
structure Arrival (E : Exchange) where
  hdr : PacketHeader
  session : Session
  state : State E

/-- The payloads that were allocated for the packets. -/
def payloads (log : List (Arrival E)) : Nat := log.countP fun x => x.hdr.payloadSize ≠ 0

/-- The service thread has come to the head of its loop, and has accepted the packets of the log,
newest first. -/
inductive Attended (t : Nat) (fd : Int) (s₀ : State E) :
    List (Arrival E) → Session → State E → Prop
  | start {r : Int} {s : State E} : Runs (machine E) anyStep t (cregRegister fd) s₀ r s →
      r ≠ -1 → Attended t fd s₀ [] ⟨none, none⟩ s
  | packet {log : List (Arrival E)} {l l' : Session} {s s₁ s₂ : State E} {b : Nat} {status : Int}
      {hdr : PacketHeader} {payload : Option Payload} : Attended t fd s₀ log l s →
      Runs (machine E) anyStep t (receive fd l) s (b, status, hdr, payload) s₁ → status ≠ -1 →
      Runs (machine E) anyStep t (servePacket fd b hdr { l with payload := payload }) s₁ l' s₂ →
      Attended t fd s₀ (⟨hdr, { l with payload := payload }, s₁⟩ :: log) l' s₂

/-- Besides what was in use at the start, the headers in `hs`, `k` payloads and names of new
traders are in use, and the payload variable points to one of these payloads if there is one. -/
structure Hoard (t : Nat) (s₀ : State E) (hs : List Nat) (k : Nat) (payload : Option Payload)
    (s : State E) : Prop where
  frames : s.hist.frames t = []
  names : NamesKept s₀ s
  blocks : ∃ ps ns, s.blocks.Perm (hs ++ (ps ++ (ns ++ s₀.blocks))) ∧ ps.length = k ∧
    (∀ p ∈ ps, p ∉ s₀.blocks) ∧ (∀ n ∈ ns, Stored s₀ s n) ∧
    (payload = none → ps = []) ∧ ∀ q, payload = some q → q.block ∈ ps

namespace Hoard

variable {s₀ : State E} {hs : List Nat} {k : Nat} {payload : Option Payload}

theorem fresh (h : Hoard t s₀ hs k payload s) {b : Nat} (hb : b ∉ s.blocks) : b ∉ s₀.blocks := by
  obtain ⟨ps, ns, hperm, _⟩ := h.blocks
  intro hold
  apply hb
  rw [hperm.mem_iff]
  simp [hold]

theorem live (h : Hoard t s₀ hs k payload s) {q : Payload} (hq : payload = some q) :
    q.block ∈ s.blocks := by
  obtain ⟨ps, ns, hperm, _, _, _, _, hps⟩ := h.blocks
  rw [hperm.mem_iff]
  simp [hps q hq]

/-- After the packet has been received, its header is in use, and its payload if there is one. -/
theorem receive (h : Hoard t s₀ [] k payload s) {b : Nat}
    {r : Int × PacketHeader × Option Payload} (hframes : s'.hist.frames t = [])
    (hnames : NamesKept s s') (hr : Filled payload { s with blocks := b :: s.blocks } r s') :
    Hoard t s₀ [b] (k + if r.2.2 = payload then 0 else 1) r.2.2 s' := by
  obtain ⟨ps, ns, hperm, rfl, hnew, hstored, hnone, hps⟩ := h.blocks
  have hstored' : ∀ n ∈ ns, Stored s₀ s' n := fun n hn => (hstored n hn).kept hnames
  refine ⟨hframes, h.names.trans hnames, ?_⟩
  rcases hr with ⟨hsame, hblocks, _⟩ | ⟨q, hq, hfree, hblocks, _⟩
  · rw [hsame, if_pos rfl]
    refine ⟨ps, ns, ?_, rfl, hnew, hstored', hnone, hps⟩
    rw [hblocks]
    exact hperm.cons b
  · obtain ⟨hqb, hqs⟩ := not_or.mp (mt List.mem_cons.mpr hfree)
    have hne : r.2.2 ≠ payload := fun heq => hqs (h.live (heq.symm.trans hq))
    rw [if_neg hne]
    refine ⟨q.block :: ps, ns, ?_, rfl, ?_, hstored', by simp [hq], by simp [hq]⟩
    · rw [hblocks]
      exact ((hperm.cons b).cons q.block).trans (List.Perm.swap ..)
    · intro p hp
      rcases List.mem_cons.mp hp with rfl | hp
      · exact h.fresh hqs
      · exact hnew p hp

/-- The header is freed, and names of new traders have been allocated. -/
theorem serve {b : Nat} {ns' : List Nat} (h : Hoard t s₀ [b] k payload s)
    (hframes : s'.hist.frames t = []) (hnames : NamesKept s s')
    (hblocks : s'.blocks = (ns' ++ s.blocks).erase b) (hns : ∀ n ∈ ns', Stored s s' n) :
    Hoard t s₀ [] k payload s' := by
  obtain ⟨ps, ns, hperm, hlen, hnew, hstored, hrest⟩ := h.blocks
  refine ⟨hframes, h.names.trans hnames, ps, ns' ++ ns, ?_, hlen, hnew, ?_, hrest⟩
  · have herase : s'.blocks.Perm (ns' ++ (ps ++ (ns ++ s₀.blocks))) := by
      rw [hblocks]
      refine ((hperm.append_left ns').erase b).trans ?_
      exact (List.perm_middle.erase b).trans (by simp)
    rw [List.append_assoc]
    exact herase.trans (List.perm_append_comm_assoc ..)
  · intro n hn
    rcases List.mem_append.mp hn with hn | hn
    · exact (hns n hn).since h.names
    · exact (hstored n hn).kept hnames

end Hoard

theorem tame_cregRegister (fd : Int) : Tame E t (cregRegister fd) := by
  have hsearch : Tame E t searchForEmptySlot := by
    refine .of_uses (Prog.uses_step rfl fun n => Prog.uses_search fun i => ?_)
    refine Prog.uses_step rfl fun cur => ?_
    split_ifs <;> trivial
  have hrest : Tame E t (do semPost .mutex; semPost .items; pure (0 : Int)) :=
    .bind (.act rfl) fun _ => .bind (.act rfl) fun _ => .ret
  refine .bind (.act rfl) fun _ => .bind (.act rfl) fun _ => .bind hsearch fun r => ?_
  cases r with
  | none => exact .ret
  | some i =>
    refine .bind (.act rfl) fun _ => .bind (.act rfl) fun n => .bind (.act rfl) fun _ => ?_
    refine .bind (.act rfl) fun n => ?_
    dsimp only
    split_ifs
    · exact .bind (.act rfl) fun _ => hrest
    · exact hrest

theorem tame_brsClientLeave (fd : Int) : Tame E t (brsClientLeave fd) := by
  have hend : ∀ {α : Type} (x : α), Tame E t (do semPost .mutex; semPost .slots; pure x) :=
    fun x => .bind (.act rfl) fun _ => .bind (.act rfl) fun _ => .ret
  refine .bind ?_ fun r => ?_
  · refine .bind (.act rfl) fun _ => .bind (.act rfl) fun _ => .bind (.act rfl) fun n => ?_
    refine .bind (.searchFrom fun i => .bind (.act rfl) fun cur => ?_) fun found => ?_
    · split_ifs
      · refine .bind (.act rfl) fun _ => .bind (.act rfl) fun m => .bind (.act rfl) fun _ => ?_
        refine .bind (.act rfl) fun m => ?_
        dsimp only
        split_ifs
        · exact .bind (.act rfl) fun _ => hend _
        · exact hend _
      · exact .ret
    · cases found with
      | some _ => exact .ret
      | none => exact hend _
  · split_ifs
    · exact .ret
    · exact .act rfl

theorem Filled.accepted {payload : Option Payload} {r : Int × PacketHeader × Option Payload}
    (h : Filled payload s r s') (hr : r.1 ≠ -1) :
    r.2.1.payloadSize ≤ (r.2.2.elim [] Payload.bytes).length := by
  rcases h with ⟨_, _, hzero⟩ | ⟨q, hq, _, _, _, hle⟩
  · rw [hzero hr]
    exact Nat.zero_le _
  · rw [hq]
    exact hle

/-- The payload variable of an accepted packet has changed if the packet has a payload. -/
theorem Hoard.changed {s₀ : State E} {hs : List Nat} {k b : Nat} {payload : Option Payload}
    {r : Int × PacketHeader × Option Payload} (h : Hoard t s₀ hs k payload s)
    (hr : Filled payload { s with blocks := b :: s.blocks } r s') (hstatus : r.1 ≠ -1) :
    r.2.2 = payload ↔ r.2.1.payloadSize = 0 := by
  rcases hr with ⟨hsame, _, hzero⟩ | ⟨q, hq, hfree, _, hne, _⟩
  · exact iff_of_true hsame (hzero hstatus)
  · refine iff_of_false (fun heq => hfree ?_) hne
    exact List.mem_cons_of_mem _ (h.live (heq.symm.trans hq))

theorem Attended.hoard {s₀ : State E} {log : List (Arrival E)} {l : Session}
    (hs : Attended t fd s₀ log l s) (h₀ : s₀.hist.frames t = [])
    (hlog : ∀ x ∈ log, LeavesNothing x.hdr x.session x.state) :
    Hoard t s₀ [] (payloads log) l.payload s := by
  induction hs with
  | start hr _ =>
    obtain ⟨hframes, hblocks, hnames⟩ := (tame_cregRegister fd s₀ s₀ h₀).post _ _ hr
    exact ⟨hframes, hnames, [], [], by simp [hblocks], by simp [payloads]⟩
  | @packet log l l' s s₁ s₂ b status hdr payload _ hr hstatus hserve ih =>
    obtain ⟨hnothing, hlog⟩ := List.forall_mem_cons.mp hlog
    have hhoard := ih hlog
    obtain ⟨hframes₁, hnames₁, hb, hfilled⟩ := (sound_receive s₀ hhoard.frames).post _ _ hr
    have hhoard₁ := hhoard.receive hframes₁ hnames₁ hfilled
    have hk : payloads (⟨hdr, { l with payload := payload }, s₁⟩ :: log) =
        payloads log + if payload = l.payload then 0 else 1 := by
      rw [payloads, List.countP_cons, ← payloads]
      have hiff : payload = l.payload ↔ hdr.payloadSize = 0 := hhoard.changed hfilled hstatus
      by_cases hzero : hdr.payloadSize = 0 <;> simp [hiff, hzero]
    have hbs : b ∈ s₁.blocks := by
      obtain ⟨ps, ns, hperm, _⟩ := hhoard₁.blocks
      rw [hperm.mem_iff]
      simp
    obtain ⟨hframes₂, hnames₂, hpayload, hleft⟩ :=
      (sound_servePacket s₀ (l := { l with payload := payload }) hframes₁
        (hfilled.accepted hstatus) hbs (hhoard.fresh hb)).post _ _ hserve
    obtain ⟨ns, hblocks, hns⟩ := hleft hnothing
    rw [hk, hpayload]
    exact hhoard₁.serve hframes₂ hnames₂ hblocks hns

/-! ## The end of a connection -/

/-- The one payload that is freed at the end is the only one that was allocated: one if the size
field of the header memory is not zero, else none. The last packet has allocated one if it has
set the payload variable. -/
def Settles (log : List (Arrival E)) (l : Session) (hdr : PacketHeader)
    (payload : Option Payload) : Prop :=
  (payloads log + if payload = l.payload then 0 else 1) = if ntohs hdr.size > 0 then 1 else 0

/-- Beside what was in use at the start, only names of new traders are in use. -/
def Tidy (s₀ s : State E) : Prop :=
  ∃ ns, s.blocks.Perm (ns ++ s₀.blocks) ∧ ∀ n ∈ ns, Stored s₀ s n

theorem sound_serveEnd {s₀ : State E} {b k : Nat} {hdr : PacketHeader} {l : Session}
    (h : Hoard t s₀ [b] k l.payload s) (hb : b ∉ s₀.blocks)
    (hk : k = if ntohs hdr.size > 0 then 1 else 0) :
    Sound (machine E) (Misfrees t s₀) t (serveEnd b hdr l)
      (fun _ s' => s'.hist.frames t = [] ∧ Tidy s₀ s') s := by
  obtain ⟨ps, ns, hperm, hlen, hnew, hstored, hnone, hps⟩ := h.blocks
  have hlast : ∀ s₁ : State E, s₁.hist.frames t = [] → NamesKept s s₁ →
      s₁.blocks.Perm (b :: (ns ++ s₀.blocks)) → Sound (machine E) (Misfrees t s₀) t
        (do free (some b); serveLogout l) (fun _ s' => s'.hist.frames t = [] ∧ Tidy s₀ s') s₁ := by
    intro s₁ h₁ hnames₁ hperm₁
    have hlogout : Tame E t (serveLogout l) := by
      unfold serveLogout
      split
      · exact .ret
      · exact .of_call (closingCall_traderLogout _).inner (retaining_traderLogout _)
    refine .bind (sound_free (by rw [hperm₁.mem_iff]; simp) hb ?_)
    refine (hlogout s₀ { s₁ with blocks := s₁.blocks.erase b } h₁).mono ?_
    refine fun _ s' hs' => ⟨hs'.1, ns, ?_, ?_⟩
    · rw [hs'.2.blocks]
      exact (hperm₁.erase b).trans (by simp)
    · exact fun n hn => ((hstored n hn).kept hnames₁).kept hs'.2.names
  have hkept : NamesKept s s := fun _ tr htr => ⟨tr, htr, rfl⟩
  unfold serveEnd
  dsimp only
  split_ifs at hk ⊢ with hsize
  · obtain ⟨p, rfl⟩ := List.length_eq_one_iff.mp (hlen.trans hk)
    cases hpayload : l.payload with
    | none => cases hnone hpayload
    | some q =>
      have hq : q.block = p := List.mem_singleton.mp (hps q hpayload)
      rw [Option.map_some, hq]
      refine .bind (sound_free (by rw [hperm.mem_iff]; simp) (hnew p (by simp)) ?_)
      refine hlast { s with blocks := s.blocks.erase p } h.frames hkept ?_
      exact ((hperm.trans (List.Perm.swap ..)).erase p).trans (by simp)
  · obtain rfl := List.length_eq_zero_iff.mp (hlen.trans hk)
    exact hlast s h.frames hkept hperm

theorem Tidy.kept {s₀ : State E} (h : Tidy s₀ s) (hs : Retained s s') : Tidy s₀ s' := by
  obtain ⟨ns, hperm, hstored⟩ := h
  exact ⟨ns, hs.blocks ▸ hperm, fun n hn => (hstored n hn).kept hs.names⟩

/-! ### The actions of the thread -/

/-- After the log, the last packet is not accepted, and the loop ends in the state `s'`. -/
def Parted (t : Nat) (fd : Int) (s₀ s' : State E) : Prop :=
  ∃ log l s b hdr payload s₁, Attended t fd s₀ log l s ∧
    Runs (machine E) anyStep t (receive fd l) s (b, -1, hdr, payload) s₁ ∧
    Runs (machine E) anyStep t (serveEnd b hdr { l with payload := payload }) s₁ () s'

/-- The action belongs to the registration, to a packet, or to the end of the connection. -/
inductive Attends (t : Nat) (fd : Int) (s₀ : State E) (o : Op) (s' : State E) : Prop
  | register : Comes (machine E) t (cregRegister fd) s₀ o s' → Attends t fd s₀ o s'
  | receive {log : List (Arrival E)} {l : Session} {s : State E} : Attended t fd s₀ log l s →
      Comes (machine E) t (receive fd l) s o s' → Attends t fd s₀ o s'
  | packet {log : List (Arrival E)} {l : Session} {s s₁ : State E} {b : Nat} {status : Int}
      {hdr : PacketHeader} {payload : Option Payload} : Attended t fd s₀ log l s →
      Runs (machine E) anyStep t (receive fd l) s (b, status, hdr, payload) s₁ → status ≠ -1 →
      Comes (machine E) t (servePacket fd b hdr { l with payload := payload }) s₁ o s' →
      Attends t fd s₀ o s'
  | finish {log : List (Arrival E)} {l : Session} {s s₁ : State E} {b : Nat}
      {hdr : PacketHeader} {payload : Option Payload} : Attended t fd s₀ log l s →
      Runs (machine E) anyStep t (receive fd l) s (b, -1, hdr, payload) s₁ →
      Comes (machine E) t (serveEnd b hdr { l with payload := payload }) s₁ o s' →
      Attends t fd s₀ o s'
  | leave {s : State E} : Parted t fd s₀ s → Comes (machine E) t (brsClientLeave fd) s o s' →
      Attends t fd s₀ o s'

theorem serveNext_eq (fd : Int) (l : Session) :
    serveNext fd l = (do
      let r ← receive fd l
      if r.2.1 = -1 then do
        serveEnd r.1 r.2.2.1 { l with payload := r.2.2.2 }
        pure none
      else do
        let l' ← servePacket fd r.1 r.2.2.1 { l with payload := r.2.2.2 }
        pure (some l')) := by
  simp only [receive, Prog.bind_assoc]
  rfl

theorem serviceLoop_eq (fd : Int) (l : Session) :
    (body (.service fd l) >>= fun r => .ret r) =
      serveNext fd l >>= again (I := bourse) (Proc.service fd) (fun _ r => r) () := by
  refine (Prog.bind_ret _).trans (congrArg (serveNext fd l >>= ·) (funext fun r => ?_))
  cases r <;> rfl

/-- All that the thread does is part of a connection, and its runs end where one ends. -/
theorem brsClientService_attends (s₀ : State E) :
    Sound (machine E) (fun o s => ¬ Attends t fd s₀ o s) t (brsClientService fd)
      (fun _ s' => Runs (machine E) anyStep t (cregRegister fd) s₀ (-1) s' ∨
        ∃ s, Parted t fd s₀ s ∧ Runs (machine E) anyStep t (brsClientLeave fd) s () s') s₀ := by
  have hpart : ∀ {γ : Type} {p : Code γ} {Q : γ → State E → Prop} {s : State E},
      (∀ o s', Comes (machine E) t p s o s' → Attends t fd s₀ o s') →
      (∀ c s', Runs (machine E) anyStep t p s c s' → Q c s') →
      Sound (machine E) (fun o s => ¬ Attends t fd s₀ o s) t p Q s :=
    fun hcomes hruns => ⟨fun o s' hc hno => hno (hcomes o s' hc), hruns⟩
  have hloop : ∀ l s, (∃ log, Attended t fd s₀ log l s) →
      Sound (machine E) (fun o s => ¬ Attends t fd s₀ o s) t (serveNext fd l)
        (fun r s' => (∀ l', r = some l' → ∃ log, Attended t fd s₀ log l' s') ∧
          (r = none → Parted t fd s₀ s')) s := by
    rintro l s ⟨log, hs⟩
    rw [serveNext_eq]
    refine .bind (hpart (fun o s' hc => .receive hs hc) ?_)
    rintro ⟨b, status, hdr, payload⟩ s₁ hr
    dsimp only
    split_ifs with hstatus
    · cases hstatus
      refine .bind (hpart (fun o s' hc => .finish hs hr hc) fun _ s₂ hend => .ret ⟨by simp, ?_⟩)
      exact fun _ => ⟨log, l, s, b, hdr, payload, s₁, hs, hr, hend⟩
    · refine .bind (hpart (fun o s' hc => .packet hs hr hstatus hc) fun l' s₂ hserve => ?_)
      refine .ret ⟨fun l'' hl => ?_, by simp⟩
      cases hl
      exact ⟨_, .packet hs hr hstatus hserve⟩
  refine .bind (hpart (fun o s' hc => .register hc) fun r s hr => ?_)
  dsimp only
  split_ifs with hregistered
  · cases hregistered
    exact .ret (.inl hr)
  · refine .bind (Sound.mono ?_ fun _ s' hs' => hpart (fun o s'' hc => .leave hs' hc)
      fun _ s'' hr' => .inr ⟨s', hs', hr'⟩)
    refine Sound.loop (M := machine E) (p := Proc.service fd) (q := .ret (some ⟨none, none⟩))
      (J := fun l s => ∃ log, Attended t fd s₀ log l s) (Q := fun _ => Parted t fd s₀)
      (serviceLoop_eq fd) hloop (.ret ⟨fun l hl => ?_, by simp⟩)
    cases hl
    exact ⟨[], .start hr hregistered⟩

/-- In a connection whose packets all leave nothing behind, the thread frees only what is in use
and what it has allocated itself; and at the end, if the payload that is freed is the only one,
nothing is left but the names of new traders. -/
theorem connection_memory {s₀ : State E} {log : List (Arrival E)} {l : Session}
    (h₀ : s₀.hist.frames t = []) (hs : Attended t fd s₀ log l s)
    (hlog : ∀ x ∈ log, LeavesNothing x.hdr x.session x.state) :
    Sound (machine E) (Misfrees t s₀) t (receive fd l) (fun r s₁ =>
      (r.2.1 ≠ -1 → Sound (machine E) (Misfrees t s₀) t
        (servePacket fd r.1 r.2.2.1 { l with payload := r.2.2.2 }) (fun _ _ => True) s₁) ∧
      (r.2.1 = -1 → Settles log l r.2.2.1 r.2.2.2 → Sound (machine E) (Misfrees t s₀) t
        (serveEnd r.1 r.2.2.1 { l with payload := r.2.2.2 })
        (fun _ s₂ => Sound (machine E) (Misfrees t s₀) t (brsClientLeave fd)
          (fun _ s' => Tidy s₀ s') s₂) s₁)) s := by
  have hhoard := hs.hoard h₀ hlog
  refine (sound_receive s₀ hhoard.frames).mono ?_
  rintro ⟨b, status, hdr, payload⟩ s₁ ⟨hframes, hnames, hb, hfilled⟩
  have hhoard₁ := hhoard.receive hframes hnames hfilled
  have hnew : b ∉ s₀.blocks := hhoard.fresh hb
  constructor
  · intro hstatus
    have hbs : b ∈ s₁.blocks := by
      obtain ⟨ps, ns, hperm, _⟩ := hhoard₁.blocks
      rw [hperm.mem_iff]
      simp
    exact (sound_servePacket s₀ (l := { l with payload := payload }) hframes
      (hfilled.accepted hstatus) hbs hnew).mono fun _ _ _ => trivial
  · intro _ hsettles
    refine (sound_serveEnd hhoard₁ hnew hsettles).mono fun _ s₂ hs₂ => ?_
    refine (tame_brsClientLeave fd s₀ s₂ hs₂.1).mono fun _ s' hs' => ?_
    exact hs₂.2.kept hs'.2

/-- A new connection whose client has sent some bytes and closed its end. -/
def clientSends (bytes : List UInt8) : State (.fixed 1 1) :=
  (State.init _ () 4).setConn 3 (some ⟨0, bytes, true, false, []⟩)

/-- The smooth course of events. -/
def smoothPick (o : Op) (s : State (.fixed 1 1)) : Option (Choice (.fixed 1 1)) :=
  some (.smooth () o s)

/-- The smooth course of events, but a read at the end of the stream fails. -/
def resetPick (o : Op) (s : State (.fixed 1 1)) : Option (Choice (.fixed 1 1)) :=
  match o with
  | .read fd n =>
    if (s.conns fd).all fun c => c.input = [] then some .ioError else some (.transfer n)
  | .free none => none
  | o => some (.smooth () o s)

/-- What the service thread comes to within 400 steps of this course of events. -/
def serves (pick : Op → State (.fixed 1 1) → Option (Choice (.fixed 1 1))) (p : Code α)
    (s : State (.fixed 1 1)) : Code α × State (.fixed 1 1) :=
  (machine (.fixed 1 1)).drive pick 0 400 p s

theorem runs_of_serves {pick : Op → State (.fixed 1 1) → Option (Choice (.fixed 1 1))}
    {p : Code α} {a : α} {s s' : State (.fixed 1 1)} (h : serves pick p s = (.ret a, s')) :
    Runs (machine (.fixed 1 1)) anyStep 0 p s a s' :=
  .of_drive (fun _ _ _ _ => trivial) h

/-- A client logs in under the name `a`, and its connection is reset in the next header, behind
its size field. -/
def resetStart : State (.fixed 1 1) := clientSends (packet .login [97] ++ [0, 0, 0, 1])

def loginHeader : PacketHeader :=
  { PacketHeader.zero with type := PacketType.login.code, size := htons 1 }

/-- What that reset leaves in the memory of the header. -/
def resetHeader : PacketHeader := { PacketHeader.zero with size := htons 1 }

/-- The variables of the thread when the login has arrived, and when it has been served. -/
def arrivedSession : Session := ⟨some ⟨1, [97]⟩, none⟩
def servedSession : Session := ⟨some ⟨1, [97]⟩, some 0⟩

def resetRegistered : State (.fixed 1 1) := (serves resetPick (cregRegister 3) resetStart).2

def resetReceived : State (.fixed 1 1) :=
  (serves resetPick (receive 3 ⟨none, none⟩) resetRegistered).2

def resetServed : State (.fixed 1 1) :=
  (serves resetPick (servePacket 3 0 loginHeader arrivedSession) resetReceived).2

def resetFailed : State (.fixed 1 1) := (serves resetPick (receive 3 servedSession) resetServed).2

def resetEnded : State (.fixed 1 1) :=
  (serves resetPick (serveEnd 0 resetHeader servedSession) resetFailed).2

/-- What is left at the end. -/
def resetLeft : State (.fixed 1 1) := (serves resetPick (brsClientLeave 3) resetEnded).2

theorem reset_attended : Attended 0 3 resetStart
    [⟨loginHeader, arrivedSession, resetReceived⟩] servedSession resetServed := by
  have hregister : serves resetPick (cregRegister 3) resetStart = (.ret 0, resetRegistered) := rfl
  have hreceive : serves resetPick (receive 3 ⟨none, none⟩) resetRegistered =
      (.ret (0, 0, loginHeader, some ⟨1, [97]⟩), resetReceived) := rfl
  have hserve : serves resetPick (servePacket 3 0 loginHeader arrivedSession) resetReceived =
      (.ret servedSession, resetServed) := rfl
  have hstart := Attended.start (runs_of_serves hregister) (by decide)
  exact .packet hstart (runs_of_serves hreceive) (by decide) (runs_of_serves hserve)

/-- The payload of the login is freed, and nothing but the name of the new trader is left. -/
theorem reset_connection_tidy : 1 ∈ resetServed.blocks ∧ 1 ∉ resetLeft.blocks ∧
    Tidy resetStart resetLeft := by
  refine ⟨by decide, by decide, ?_⟩
  have hnothing : LeavesNothing loginHeader arrivedSession resetReceived := by
    have htable : resetReceived.allTraders = fun _ => none := rfl
    refine ⟨rfl, fun i b tr hb => ?_, by decide⟩
    rw [htable] at hb
    cases hb
  have hreceive : serves resetPick (receive 3 servedSession) resetServed =
      (.ret (0, -1, resetHeader, some ⟨1, [97]⟩), resetFailed) := rfl
  have hfinish : serves resetPick (serveEnd 0 resetHeader servedSession) resetFailed =
      (.ret (), resetEnded) := rfl
  have hleave : serves resetPick (brsClientLeave 3) resetEnded = (.ret (), resetLeft) := rfl
  have hsound := connection_memory rfl reset_attended (List.forall_mem_singleton.mpr hnothing)
  have hend := (hsound.post _ _ (runs_of_serves hreceive)).2 rfl rfl
  exact (hend.post _ _ (runs_of_serves hfinish)).post _ _ (runs_of_serves hleave)

/-- After a reset in the first header, behind its size field, an indeterminate pointer is freed.
After a request before the login, the header is left. -/
theorem connection_misfrees_and_leaks :
    (∃ s, Comes (machine (.fixed 1 1)) 0 (brsClientService 3) (clientSends [0, 0, 0, 1])
      (.free none) s ∧ Misfrees 0 (clientSends [0, 0, 0, 1]) (.free none) s) ∧
    ∃ s', Runs (machine (.fixed 1 1)) anyStep 0 (brsClientService 3)
      (clientSends (packet .status [])) () s' ∧ ¬ Tidy (clientSends (packet .status [])) s' := by
  constructor
  · have hdrive : (machine (.fixed 1 1)).drive resetPick 0 400 (brsClientService 3)
        (clientSends [0, 0, 0, 1]) = (.op (.free none) _, _) := rfl
    exact ⟨_, .of_drive hdrive, rfl, none, rfl, by simp⟩
  · have hserve : serves smoothPick (brsClientService 3) (clientSends (packet .status [])) =
        (.ret (), _) := rfl
    refine ⟨_, runs_of_serves hserve, ?_⟩
    rintro ⟨ns, hperm, hstored⟩
    have hleft : 0 ∈ ns := by
      have h := hperm.mem_iff.mp (show 0 ∈ [0] from List.mem_singleton.mpr rfl)
      simpa [clientSends, State.setConn, State.init] using h
    obtain ⟨a, tr, _, htr, _⟩ := hstored 0 hleft
    have htraders : none = some tr := htr
    cases htraders

end BourseServer
