import BourseServer.Sessions.Packets

/-!
# The trader module among threads

The functions of `trader.c` that act on a trader of the table. No such trader is ever removed,
since its count covers the table and whoever may give a reference back.
-/
namespace BourseServer.Sessions

open Concurrency

variable {E : Exchange} {W : Watch} {t a : Nat} {fs : List Call} {h k : Holdings}
  {F : Shared → Prop} {v v' : Shared} {α : Type}

/-! ## Facts that last -/

/-- The fact lasts as long as the table does. -/
def Lasts (F : Shared → Prop) : Prop := ∀ v v', Lasting v v' → F v → F v'

theorem lasts_stored : Lasts fun v => v.Stored a := by
  rintro v v' hl ⟨i, hi⟩
  exact ⟨i, hl.slots hi⟩

theorem lasts_slot {i : Nat} : Lasts fun v => v.slots i = some a := fun _ _ hl hi => hl.slots hi

theorem lasts_true : Lasts fun _ => True := fun _ _ _ _ => trivial

theorem Lasts.and {G : Shared → Prop} (hF : Lasts F) (hG : Lasts G) :
    Lasts fun v => F v ∧ G v :=
  fun v v' hl hw => ⟨hF v v' hl hw.1, hG v v' hl hw.2⟩

theorem Kept.lasting (hk : Kept W t h v v') : Lasting v v' := ⟨hk.slots, hk.name⟩

theorem Lasts.steady (hF : Lasts F) : Steady W t fs h F := fun v v' _ hk => hF v v' hk.lasting

theorem Lasts.same (hF : Lasts F) (hw : F v) (hslots : v'.slots = v.slots)
    (hname : v'.name = v.name) : F v' :=
  hF v v' ⟨fun hi => by rwa [hslots], fun _ => by rw [hname]⟩ hw

/-! ## Reads -/

theorem triple_loadRef (hl : 0 < h.locks a) (hF : Steady W t fs h F) :
    (discipline E W).Triple t (At t fs h F) (load .ref a)
      fun r => At t fs h fun v => F v ∧ v.ref a = some r := by
  refine triple_quiet rfl hF (fun r => hF.and (steady_ref hl)) ?_
  intro s c _ hf e r s' he
  obtain ⟨tr, htr, rfl, _⟩ := exec_load he
  exact ⟨hf, shared_ref htr⟩

theorem triple_loadFd (hl : 0 < h.locks a) (hF : Steady W t fs h F) :
    (discipline E W).Triple t (At t fs h F) (load .fd a)
      fun x => At t fs h fun v => F v ∧ (x = -1 ∨ v.fd a = some x) := by
  refine triple_quiet rfl hF (fun x => hF.and (steady_fd hl)) ?_
  intro s c _ hf e x s' he
  obtain ⟨tr, htr, rfl, _⟩ := exec_load he
  exact ⟨hf, .inr (shared_fd htr)⟩

theorem triple_loadName (hst : ∀ v, F v → v.Stored a) (hF : Steady W t fs h F) :
    (discipline E W).Triple t (At t fs h F) (load .name a)
      fun n => At t fs h fun v => F v ∧ v.name a = some n := by
  refine triple_quiet rfl hF (fun n => ?_) ?_
  · rintro v v' hfs hk ⟨hf, hn⟩
    exact ⟨hF v v' hfs hk hf, (hk.name (hst v hf)).trans hn⟩
  · intro s c _ hf e n s' he
    obtain ⟨tr, htr, rfl, _⟩ := exec_load he
    exact ⟨hf, shared_name htr⟩

/-- The slot of a trader that is in it. -/
theorem triple_slotOf {i : Nat} (hi : ∀ v, F v → v.slots i = some a) (hF : Steady W t fs h F) :
    (discipline E W).Triple t (At t fs h F) (slot i) fun r w => r = some a ∧ At t fs h F w := by
  refine .post (triple_quiet (Q := fun r v => r = some a ∧ F v) rfl hF
    (fun r => steady_const.and hF) ?_) ?_
  · intro s c _ hf e r s' he
    obtain ⟨rfl, _⟩ := exec_slot he
    exact ⟨hi _ hf, hf⟩
  · rintro r w _ ⟨hframes, hghost, hr, hf⟩
    exact ⟨hr, hframes, hghost, hf⟩

theorem triple_derefSlot {i : Nat} {f : Nat → Code α} {Q : α → World E → Prop}
    (hi : ∀ v, F v → v.slots i = some a) (hF : Steady W t fs h F)
    (hf : (discipline E W).Triple t (At t fs h F) (f a) Q) :
    (discipline E W).Triple t (At t fs h F) (slot i >>= fun r => deref r >>= f) Q := by
  refine .bind (triple_slotOf hi hF) fun r => .fact_pre ?_
  rintro rfl
  exact hf

theorem triple_slotName {i : Nat} (hi : ∀ v, F v → v.slots i = some a)
    (hF : Steady W t fs h F) :
    (discipline E W).Triple t (At t fs h F) (slotName i)
      fun n => At t fs h fun v => F v ∧ v.name a = some n :=
  triple_derefSlot hi hF (triple_loadName (fun v hf => ⟨i, hi v hf⟩) hF)

/-! ## Calls -/

/-- A function of the module other than login. -/
theorem triple_scope {call : Call} {value : α → Value} {body : Code α} {l : Nat}
    (hcall : ∀ fd name, call ≠ .login fd name) (hF : Lasts F) (hidle : h.sending = none)
    (hk : k.sending = none) (hl : l ≤ k.locks a)
    (href : ∀ b, call = .ref b → fs = [] → 0 < k.refs b)
    (hbody : (discipline E W).Triple t (At t (call :: fs) (h.entering call fs) F) body
      fun _ => At t (call :: fs) k F) :
    (discipline E W).Triple t (At t fs h F) (scope call value body)
      fun _ => At t fs ((k.leaving call fs).setLock a l) F := by
  refine .bind (triple_enter hidle hF.steady hF.steady fun v hf => hF.same hf rfl rfl) fun _ => ?_
  refine .bind hbody fun r => ?_
  refine .bind (triple_leave (x := value r) hl hk href
    (fun fd name hlog => absurd hlog (hcall fd name)) hF.steady hF.steady
    fun v hf => hF.same hf rfl rfl) fun _ => ?_
  exact .ret (stable_at hF.steady) fun _ _ hw => hw

/-- A function that takes no reference and gives none back, and that leaves no mutex locked. -/
theorem triple_plainScope {call : Call} {value : α → Value} {body : Code α}
    (hcall : ∀ fd name, call ≠ .login fd name) (hunref : ∀ b, call ≠ .unref b)
    (href : ∀ b, call ≠ .ref b) (hF : Lasts F) (hidle : h.sending = none)
    (hbody : (discipline E W).Triple t (At t (call :: fs) h F) body
      fun _ => At t (call :: fs) h F) :
    (discipline E W).Triple t (At t fs h F) (scope call value body) fun _ => At t fs h F := by
  have hin : h.entering call fs = h := by
    unfold Holdings.entering
    split
    · exact absurd rfl (hunref _)
    · rfl
  have hout : h.leaving call fs = h := by
    unfold Holdings.leaving
    split
    · exact absurd rfl (href _)
    · rfl
  refine .post (triple_scope (a := 0) (l := h.locks 0) (k := h) hcall hF hidle hidle le_rfl
    (fun b hb => absurd hb (href b)) (by rwa [hin])) fun _ w _ hw => ?_
  rwa [hout, Holdings.setLock_self] at hw

/-! ## References -/

theorem triple_traderRef (hF : Lasts F) (hst : ∀ v, F v → v.Stored a) (hidle : h.sending = none) :
    (discipline E W).Triple t (At t fs h F) (traderRef a)
      fun _ => At t fs ((h.setRef a (h.refs a + 1)).leaving (.ref a) fs) F := by
  have hlocks : ((h.setRef a (h.refs a + 1)).leaving (.ref a) fs).locks a = h.locks a := by
    unfold Holdings.leaving
    split <;> rfl
  refine .post (triple_scope (a := a) (l := h.locks a) (k := h.setRef a (h.refs a + 1)) nofun hF
    hidle hidle le_rfl ?_ ?_) fun _ w _ hw => ?_
  rotate_right
  · rwa [← hlocks, Holdings.setLock_self] at hw
  · rintro b hb _
    cases hb
    simp [Holdings.setRef]
  · have hin : h.entering (.ref a) fs = h := by cases fs <;> rfl
    rw [hin]
    refine .bind (triple_lock hst hidle hF.steady hF.steady fun v m hf => hF.same hf rfl rfl)
      fun _ => ?_
    have hheld : 0 < (h.setLock a (h.locks a + 1)).locks a := by simp [Holdings.setLock]
    refine .bind (triple_loadRef hheld hF.steady) fun (r : Int) => ?_
    refine .bind (triple_storeRef (r := r) (m := r + 1) (n := h.refs a + 1) ?_
      (fun v hf => hst v hf.1) (fun v hf => hf.2) hheld (hF.steady.and (steady_ref hheld))
      hF.steady fun v hf => hF.same hf.1 rfl rfl) fun _ => ?_
    · change r + (h.refs a + 1 : Nat) ≤ r + 1 + h.refs a
      omega
    refine .bind (triple_unlock (n := h.locks a) (by simp [Holdings.setLock, Holdings.setRef]) hst
      hidle hF.steady hF.steady fun v m hf => hF.same hf rfl rfl) fun _ => ?_
    have hback : (((h.setLock a (h.locks a + 1)).setRef a (h.refs a + 1)).setLock a (h.locks a)) =
        h.setRef a (h.refs a + 1) := by
      simp [Holdings.setLock, Holdings.setRef]
    rw [hback]
    exact .ret (stable_at hF.steady) fun _ _ hw => hw

/-- The count of a trader of the table is positive, so nothing is removed. -/
theorem triple_removeTraderIfEmpty (hF : Lasts F) (hst : ∀ v, F v → v.Stored a)
    (hl : 0 < h.locks a) :
    (discipline E W).Triple t (At t fs h F) (removeTraderIfEmpty a) fun _ => At t fs h F := by
  refine .bind (triple_loadRef hl hF.steady) fun (r : Int) => ?_
  refine .pre (P := fun w => r ≠ 0 ∧ At t fs h F w) (.fact_pre fun hr => ?_) ?_
  · rw [if_pos hr]
    exact .ret (stable_at hF.steady) fun _ _ hw => hw
  · rintro w hi ⟨hframes, hghost, hf, hr⟩
    have hpos := (hi.counted (hst _ hf) hr).nonneg
    exact ⟨by omega, hframes, hghost, hf⟩

theorem triple_traderUnref (hF : Lasts F) (hst : ∀ v, F v → v.Stored a) (hidle : h.sending = none)
    (hpos : fs ≠ [] → 0 < h.refs a) :
    (discipline E W).Triple t (At t fs h F) (traderUnref a)
      fun _ => At t fs ((h.entering (.unref a) fs).setRef a
        ((h.entering (.unref a) fs).refs a - 1)) F := by
  obtain ⟨k, hk⟩ : ∃ k, k = h.entering (.unref a) fs := ⟨_, rfl⟩
  have hkidle : k.sending = none := by
    rw [hk]
    unfold Holdings.entering
    split <;> exact hidle
  have hkpos : 0 < k.refs a := by
    rw [hk]
    cases fs with
    | nil => simp [Holdings.entering, Holdings.setRef]
    | cons f fs => exact hpos (List.cons_ne_nil f fs)
  rw [← hk]
  refine .post (triple_scope (a := a) (l := k.locks a) (k := k.setRef a (k.refs a - 1))
    (fun _ _ h => by cases h) hF hidle hkidle le_rfl (fun _ h => by cases h) ?_) fun _ w _ hw => ?_
  rotate_right
  · exact ⟨hw.frames, hw.ghost.trans (Holdings.setLock_self (k.setRef a (k.refs a - 1)) a), hw.fact⟩
  · rw [← hk]
    refine .bind (triple_lock hst hkidle hF.steady hF.steady fun v m hf => hF.same hf rfl rfl)
      fun _ => ?_
    have hheld : 0 < (k.setLock a (k.locks a + 1)).locks a := by simp [Holdings.setLock]
    refine .bind (triple_loadRef hheld hF.steady) fun (r : Int) => ?_
    refine .bind (triple_storeRef (r := r) (m := r - 1) (n := k.refs a - 1) ?_
      (fun v hf => hst v hf.1) (fun v hf => hf.2) hheld (hF.steady.and (steady_ref hheld))
      hF.steady fun v hf => hF.same hf.1 rfl rfl) fun _ => ?_
    · change r + (k.refs a - 1 : Nat) ≤ r - 1 + k.refs a
      omega
    refine .bind (triple_removeTraderIfEmpty hF hst hheld) fun _ => ?_
    have hback : (((k.setLock a (k.locks a + 1)).setRef a (k.refs a - 1)).setLock a (k.locks a)) =
        k.setRef a (k.refs a - 1) := by
      simp [Holdings.setLock, Holdings.setRef]
    rw [← hback]
    exact triple_unlock (n := k.locks a) (by simp [Holdings.setLock, Holdings.setRef]) hst
      hkidle hF.steady hF.steady fun v m hf => hF.same hf rfl rfl

/-! ## Sending -/

/-- The exit after a failed send does not release the mutex. -/
theorem triple_traderSendPacket {hdr : PacketHeader} {data : List UInt8} (hF : Lasts F)
    (hst : ∀ v, F v → v.Stored a) (hidle : h.sending = none)
    (hfits : W.whole → hdr.payloadSize ≤ data.length) :
    (discipline E W).Triple t (At t fs h F) (traderSendPacket a hdr data)
      fun _ => At t fs h F := by
  have hmutex : ∀ v m, F v → F { v with mutex := Function.update v.mutex a m } :=
    fun v m hf => hF.same hf rfl rfl
  refine .bind (triple_enter hidle hF.steady hF.steady fun v hf => hF.same hf rfl rfl) fun _ => ?_
  -- with the mutex, and without it
  have hend : ∀ l r, h.locks a ≤ l → (discipline E W).Triple t
      (At t (.sendPacket a hdr data :: fs) (h.setLock a l) F)
      (do leave (.int r); pure r : Code Int) fun _ => At t fs h F := by
    intro l r hl
    refine .bind (triple_leave (a := a) (l := h.locks a) (x := .int r) (by simpa [Holdings.setLock])
      hidle (fun _ h => by cases h) (fun _ _ h => by cases h) hF.steady hF.steady
      fun v hf => hF.same hf rfl rfl) fun _ => ?_
    have hback :
        ((h.setLock a l).leaving (.sendPacket a hdr data) fs).setLock a (h.locks a) = h := by
      simp [Holdings.leaving, Holdings.setLock]
    rw [hback]
    exact .ret (stable_at hF.steady) fun _ _ hw => hw
  have hin : h.entering (.sendPacket a hdr data) fs = h := rfl
  rw [hin]
  have hheld : 0 < (h.setLock a (h.locks a + 1)).locks a := by simp [Holdings.setLock]
  refine .bind (Q := fun _ w => ∃ l, h.locks a ≤ l ∧
    At t (.sendPacket a hdr data :: fs) (h.setLock a l) F w) ?_ fun r =>
    .exists_pre fun l => .fact_pre fun hl => hend l r hl
  refine .bind (triple_lock hst hidle hF.steady hF.steady hmutex) fun _ => ?_
  refine .bind (triple_loadFd hheld hF.steady) fun (x : Int) => ?_
  refine .bind (triple_protoSendPacket (x := x) hidle (hF.steady.and (steady_fd hheld)) ?_
    hfits ?_) fun r => ?_
  · rintro v hframes ⟨hf, hx⟩
    refine .inl ⟨a, hdr, data, fs, hframes, hx.imp_right fun hx => ⟨hheld, hst v hf, hx⟩⟩
  · rintro hw hne v c p hi hc hframes ⟨hf, hx⟩ hp
    refine ⟨hne, .inl ⟨a, hdr, data, fs, hframes, hp, ?_, hst v hf, hx.resolve_left hne⟩⟩
    change 0 < (c.of t).locks a
    rw [hc]
    exact hheld
  · obtain ⟨sent, _⟩ := r
    dsimp only
    split
    · exact .ret (stable_at (hF.steady.and (steady_fd hheld)))
        fun w _ hw => ⟨h.locks a + 1, by omega, hw.frames, hw.ghost, hw.fact.1⟩
    · refine .bind (triple_unlock (n := h.locks a) (by simp [Holdings.setLock])
        (fun v hf => hst v hf.1) hidle (hF.steady.and (steady_fd hheld)) hF.steady
        fun v m hf => hmutex v m hf.1) fun _ => ?_
      refine .ret (stable_at hF.steady)
        fun w _ hw => ⟨h.locks a, le_rfl, hw.frames, hw.ghost.trans ?_, hw.fact⟩
      simp [Holdings.setLock]

theorem triple_traderBroadcastPacket {hdr : PacketHeader} {data : List UInt8} (hF : Lasts F)
    (hidle : h.sending = none) (hfits : W.whole → hdr.payloadSize ≤ data.length) :
    (discipline E W).Triple t (At t fs h F) (traderBroadcastPacket hdr data)
      fun _ => At t fs h F := by
  refine triple_plainScope nofun nofun nofun hF hidle ?_
  have hstable : ∀ {fs}, (discipline E W).Stable t (At t fs h F) := stable_at hF.steady
  refine .bind (Q := fun _ => At t _ h F) ?_ fun _ => .ret hstable fun _ _ hw => hw
  refine .search (fun _ => At t _ h F) (fun _ => hstable) (fun i _ => ?_) fun _ _ hw => hw
  have hread : ∀ r, Steady W t (.broadcast hdr data :: fs) h fun v =>
      F v ∧ ∀ b, r = some b → v.slots i = some b :=
    fun r => hF.steady.and fun v v' _ hk hr b hb => hk.slots (hr b hb)
  refine .bind (triple_quiet (o := .slot i) rfl hF.steady hread ?_) fun r => ?_
  · intro s c _ hf e r s' he
    obtain ⟨rfl, _⟩ := exec_slot he
    exact ⟨hf, fun b hb => hb⟩
  · cases r with
    | none => exact .ret (stable_at (hread none)) fun _ _ hw => ⟨hw.frames, hw.ghost, hw.fact.1⟩
    | some b =>
      have hboth : Lasts fun v => F v ∧ v.slots i = some b := hF.and lasts_slot
      refine .pre (P := At t _ h fun v => F v ∧ v.slots i = some b) ?_
        fun _ _ hw => ⟨hw.frames, hw.ghost, hw.fact.1, hw.fact.2 b rfl⟩
      refine triple_derefSlot (fun _ hi => hi.2) hboth.steady ?_
      refine .bind (triple_traderSendPacket hboth (fun v hi => ⟨i, hi.2⟩) hidle hfits)
        fun _ => ?_
      exact .ret (stable_at hboth.steady) fun _ _ hw => ⟨hw.frames, hw.ghost, hw.fact.1⟩

theorem triple_traderSendAck {info : Option StatusInfo} (hF : Lasts F)
    (hst : ∀ v, F v → v.Stored a) (hidle : h.sending = none) :
    (discipline E W).Triple t (At t fs h F) (traderSendAck a info) fun _ => At t fs h F := by
  refine triple_plainScope nofun nofun nofun hF hidle ?_
  have hret : ∀ {fs}, (discipline E W).Triple t (At t fs h F) (.ret (0 : Int))
      fun _ => At t fs h F := .ret (stable_at hF.steady) fun _ _ hw => hw
  refine .bind (triple_skip rfl hF.steady) fun junk => ?_
  cases info with
  | none =>
    refine .bind (triple_traderSendPacket hF hst hidle fun _ => ?_) fun _ => hret
    simp [PacketHeader.payloadSize]
  | some info =>
    refine .bind (triple_skip rfl hF.steady) fun balance => ?_
    refine .bind (triple_skip rfl hF.steady) fun inventory => ?_
    refine .bind (triple_traderSendPacket hF hst hidle fun _ => ?_) fun _ => hret
    simp [PacketHeader.payloadSize, statusSize]

theorem triple_traderSendNack (hF : Lasts F) (hst : ∀ v, F v → v.Stored a)
    (hidle : h.sending = none) :
    (discipline E W).Triple t (At t fs h F) (traderSendNack a) fun _ => At t fs h F := by
  refine triple_plainScope nofun nofun nofun hF hidle ?_
  refine .bind (triple_skip rfl hF.steady) fun junk => ?_
  have hzero : (ntohs 0).toNat = 0 := by decide
  refine .bind (triple_traderSendPacket hF hst hidle fun _ => hzero.le) fun _ => ?_
  exact .ret (stable_at hF.steady) fun _ _ hw => hw

/-! ## Accounts -/

theorem triple_loadAsset {x : Asset} (hF : Steady W t fs h F) :
    (discipline E W).Triple t (At t fs h F) (loadAsset x a) fun _ => At t fs h F := by
  cases x
  · exact triple_skip rfl hF
  · exact triple_skip rfl hF

theorem triple_storeAsset {x : Asset} {n : UInt32} (hF : Steady W t fs h F) :
    (discipline E W).Triple t (At t fs h F) (storeAsset x a n) fun _ => At t fs h F := by
  cases x
  · exact triple_skip rfl hF
  · exact triple_skip rfl hF

/-- The mutex is released. -/
theorem triple_release (hF : Lasts F) (hst : ∀ v, F v → v.Stored a) (hidle : h.sending = none) :
    (discipline E W).Triple t (At t fs (h.setLock a (h.locks a + 1)) F) (unlock a)
      fun _ => At t fs h F := by
  have hback : (h.setLock a (h.locks a + 1)).setLock a (h.locks a) = h := by
    simp [Holdings.setLock]
  have hunlock : (discipline E W).Triple t (At t fs (h.setLock a (h.locks a + 1)) F) (unlock a)
      fun _ => At t fs ((h.setLock a (h.locks a + 1)).setLock a (h.locks a)) F :=
    triple_unlock (by simp [Holdings.setLock]) hst hidle hF.steady hF.steady
      fun v m hf => hF.same hf rfl rfl
  rwa [hback] at hunlock

theorem triple_increaseAsset {x : Asset} {n : UInt32} (hF : Lasts F)
    (hst : ∀ v, F v → v.Stored a) (hidle : h.sending = none) :
    (discipline E W).Triple t (At t fs h F) (increaseAsset x a n) fun _ => At t fs h F := by
  refine triple_plainScope nofun nofun nofun hF hidle ?_
  refine .bind (triple_lock hst hidle hF.steady hF.steady fun v m hf => hF.same hf rfl rfl)
    fun _ => ?_
  refine .bind (triple_loadAsset hF.steady) fun value => ?_
  refine .bind (triple_storeAsset hF.steady) fun _ => ?_
  exact triple_release hF hst hidle

theorem triple_decreaseAsset {x : Asset} {n : UInt32} (hF : Lasts F)
    (hst : ∀ v, F v → v.Stored a) (hidle : h.sending = none) :
    (discipline E W).Triple t (At t fs h F) (decreaseAsset x a n) fun _ => At t fs h F := by
  refine triple_plainScope nofun nofun nofun hF hidle ?_
  have hret : ∀ {fs} (r : Int), (discipline E W).Triple t (At t fs h F) (.ret r)
      fun _ => At t fs h F := fun r => .ret (stable_at hF.steady) fun _ _ hw => hw
  refine .bind (triple_lock hst hidle hF.steady hF.steady fun v m hf => hF.same hf rfl rfl)
    fun _ => ?_
  refine .bind (triple_loadAsset hF.steady) fun value => ?_
  split
  · refine .bind (triple_loadAsset hF.steady) fun value => ?_
    refine .bind (triple_storeAsset hF.steady) fun _ => ?_
    exact .bind (triple_release hF hst hidle) fun _ => hret 0
  · exact .bind (triple_release hF hst hidle) fun _ => hret (-1)

/-! ## Calls from outside the module -/

theorem triple_runAccount {c : AccountCall} (hF : Lasts F) (hst : ∀ v, F v → v.Stored a)
    (hidle : h.sending = none) :
    (discipline E W).Triple t (At t fs h F) (runAccount a c) fun _ => At t fs h F := by
  have hret : (discipline E W).Triple t (At t fs h F) (.ret ()) fun _ => At t fs h F :=
    .ret (stable_at hF.steady) fun _ _ hw => hw
  cases c with
  | increase x n =>
    cases x
    · exact triple_increaseAsset hF hst hidle
    · exact triple_increaseAsset hF hst hidle
  | decrease x n =>
    cases x
    · exact .bind (triple_decreaseAsset hF hst hidle) fun _ => hret
    · exact .bind (triple_decreaseAsset hF hst hidle) fun _ => hret

theorem lasts_fair {c : ClientCall} : Lasts fun v => Fair W.whole v c :=
  fun _ _ hl hf => ⟨fun a ha => lasts_stored _ _ hl (hf.1 a ha), hf.2⟩

/-- Outside of the module a thread has the same before a call and after it. -/
theorem triple_runClient {c : ClientCall} (hF : Lasts F) (hfair : ∀ v, F v → Fair W.whole v c)
    (hidle : h.sending = none) :
    (discipline E W).Triple t (At t [] h F) (runClient c) fun _ => At t [] h F := by
  have hret : (discipline E W).Triple t (At t [] h F) (.ret ()) fun _ => At t [] h F :=
    .ret (stable_at hF.steady) fun _ _ hw => hw
  have hfits : ∀ w : World E, At t [] h F w → W.whole → c.Fits :=
    fun w hw => (hfair _ hw.fact).2
  cases c with
  | ref a =>
    have hst : ∀ v, F v → v.Stored a := fun v hf => (hfair v hf).1 a rfl
    refine .bind (triple_traderRef hF hst hidle) fun _ => ?_
    have hback : (h.setRef a (h.refs a + 1)).leaving (.ref a) [] = h := by
      simp [Holdings.leaving, Holdings.setRef]
    rw [hback]
    exact hret
  | unref a =>
    have hst : ∀ v, F v → v.Stored a := fun v hf => (hfair v hf).1 a rfl
    have hback : (h.entering (.unref a) []).setRef a
        ((h.entering (.unref a) []).refs a - 1) = h := by
      simp [Holdings.entering, Holdings.setRef]
    refine .post (triple_traderUnref hF hst hidle fun h => absurd rfl h) fun _ w _ hw => ?_
    rwa [hback] at hw
  | sendPacket a hdr data =>
    have hst : ∀ v, F v → v.Stored a := fun v hf => (hfair v hf).1 a rfl
    intro w hi hw
    exact (Discipline.Triple.bind (triple_traderSendPacket hF hst hidle (hfits w hw))
      fun _ => hret) w hi hw
  | broadcast hdr data =>
    intro w hi hw
    exact (Discipline.Triple.bind (triple_traderBroadcastPacket hF hidle (hfits w hw))
      fun _ => hret) w hi hw
  | sendAck a info =>
    have hst : ∀ v, F v → v.Stored a := fun v hf => (hfair v hf).1 a rfl
    exact .bind (triple_traderSendAck hF hst hidle) fun _ => hret
  | sendNack a =>
    have hst : ∀ v, F v → v.Stored a := fun v hf => (hfair v hf).1 a rfl
    exact .bind (triple_traderSendNack hF hst hidle) fun _ => hret
  | account a c =>
    have hst : ∀ v, F v → v.Stored a := fun v hf => (hfair v hf).1 a rfl
    exact triple_runAccount hF hst hidle

end BourseServer.Sessions
