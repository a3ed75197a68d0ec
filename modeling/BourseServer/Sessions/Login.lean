import BourseServer.Sessions.Traders

/-!
# Login and logout among threads

A login scans the table, and acts on what it has found: when logins are executed one at a time,
what it has found still holds. A logout finds the slot of its own trader, since this is the only
trader of its name.
-/
namespace BourseServer.Sessions

open Concurrency

variable {E : Exchange} {W : Watch} {t a : Nat} {fs : List Call} {h : Holdings}
  {F N : Shared → Prop} {v v' : Shared} {fd : Int} {name : CString}

/-- A read of a slot, with what is known when it is empty. -/
theorem triple_slot {j : Nat} (hF : Steady W t fs h F) (hN : Steady W t fs h N)
    (hnone : ∀ v, F v → v.slots j = none → N v) :
    (discipline E W).Triple t (At t fs h F) (slot j) fun r =>
      r.elim (At t fs h fun v => F v ∧ N v)
        fun b => At t fs h fun v => F v ∧ v.slots j = some b := by
  have hQ : ∀ r : Option Nat, Steady W t fs h fun v =>
      F v ∧ r.elim (N v) fun b => v.slots j = some b := by
    intro r
    refine hF.and ?_
    cases r with
    | none => exact hN
    | some b => exact lasts_slot.steady
  refine (triple_quiet (o := .slot j) rfl hF hQ ?_).post fun r w _ hw => ?_
  · intro s c _ hf e r s' he
    obtain ⟨rfl, _⟩ := exec_slot he
    refine ⟨hf, ?_⟩
    cases hs : s.allTraders j with
    | none => exact hnone _ hf hs
    | some b => exact hs
  · cases r with
    | none => exact hw
    | some b => exact hw

/-! ## Logout -/

theorem triple_traderLogout (hF : Lasts F) (hidle : h.sending = none) (huser : h.user = some a)
    (hpos : 0 < h.refs a) :
    (discipline E W).Triple t (At t [] h F) (traderLogout a)
      fun _ => At t [] ((h.setRef a (h.refs a - 1)).setUser none) F := by
  obtain ⟨k, hk⟩ : ∃ k, k = (h.setRef a (h.refs a - 1)).setUser none := ⟨_, rfl⟩
  rw [← hk]
  have hkidle : k.sending = none := by
    rw [hk]
    exact hidle
  have hklocks : k.locks = h.locks := by
    rw [hk]
    rfl
  refine .pre (P := fun w => ∃ i, At t [] h (fun v => F v ∧ v.slots i = some a) w)
    (.exists_pre fun i => ?_) ?_
  swap
  · rintro w hi ⟨hframes, hghost, hf⟩
    have hmine : (census w.ghost).user t = some a := by
      change (w.ghost t).user = some a
      rw [hghost, huser]
    obtain ⟨i, hslot⟩ := (hi.user.mp hmine).2
    exact ⟨i, hframes, hghost, hf, hslot⟩
  have hG : Lasts fun v => F v ∧ v.slots i = some a := hF.and lasts_slot
  have hst : ∀ v, (F v ∧ v.slots i = some a) → v.Stored a := fun v hv => ⟨i, hv.2⟩
  refine .post (triple_scope (a := a) (l := k.locks a) (k := k) nofun hG hidle hkidle le_rfl
    nofun ?_) fun _ w _ hw => ⟨hw.frames, hw.ghost.trans (Holdings.setLock_self k a), hw.fact.1⟩
  have hin : h.entering (.logout a) [] = h := rfl
  rw [hin]
  refine .bind (triple_lock hst hidle hG.steady hG.steady fun v m hf => hG.same hf rfl rfl)
    fun _ => ?_
  have hheld : 0 < (h.setLock a (h.locks a + 1)).locks a := by simp [Holdings.setLock]
  refine .bind (Q := fun _ => At t [.logout a] (k.setLock a (k.locks a + 1))
    fun v => F v ∧ v.slots i = some a) ?_ fun _ => ?_
  · refine .pre (P := At t [.logout a] (h.setLock a (h.locks a + 1))
      fun v => (F v ∧ v.slots i = some a) ∧ 0 ≤ i) ?_
      fun _ _ hw => ⟨hw.frames, hw.ghost, hw.fact, Nat.zero_le i⟩
    refine .search (fun j => At t [.logout a] (h.setLock a (h.locks a + 1))
      fun v => (F v ∧ v.slots i = some a) ∧ j ≤ i) (fun _ => stable_at hG.steady)
      (fun j _ => ?_) ?_
    · have hj : Lasts fun v => (F v ∧ v.slots i = some a) ∧ j ≤ i :=
        hG.and fun _ _ _ hle => hle
      refine .bind (triple_slot (N := fun _ => j ≠ i) hj.steady steady_const ?_) fun r => ?_
      · rintro v ⟨⟨_, hi⟩, _⟩ hnone rfl
        rw [hnone] at hi
        cases hi
      cases r with
      | none =>
        refine .ret (stable_at (hj.steady.and steady_const)) ?_
        rintro w _ ⟨hframes, hghost, ⟨hf, hle⟩, hne⟩
        exact ⟨hframes, hghost, hf, by omega⟩
      | some b =>
        have hb : Lasts fun v => ((F v ∧ v.slots i = some a) ∧ j ≤ i) ∧ v.slots j = some b :=
          hj.and lasts_slot
        refine .bind (triple_slotName (fun v hv => hv.2) hb.steady) fun n => ?_
        have hn : Lasts fun v => (((F v ∧ v.slots i = some a) ∧ j ≤ i) ∧ v.slots j = some b) ∧
            v.name b = some n :=
          fun v v' hl hv => ⟨hb v v' hl hv.1, (hl.name ⟨j, hv.1.2⟩).trans hv.2⟩
        refine .bind (triple_loadName (fun v hv => ⟨i, hv.1.1.1.2⟩) hn.steady) fun m => ?_
        have hm : Lasts fun v => ((((F v ∧ v.slots i = some a) ∧ j ≤ i) ∧ v.slots j = some b) ∧
            v.name b = some n) ∧ v.name a = some m :=
          fun v v' hl hv => ⟨hn v v' hl hv.1, (hl.name ⟨i, hv.1.1.1.1.2⟩).trans hv.2⟩
        split
        · -- the slot with the trader's name is the trader's own
          refine .pre (P := At t [.logout a] (h.setLock a (h.locks a + 1))
            fun v => F v ∧ v.slots i = some a) ?_
            fun _ _ hw => ⟨hw.frames, hw.ghost, hw.fact.1.1.1.1⟩
          refine .bind (triple_traderUnref hG hst hidle fun _ => hpos) fun _ => ?_
          refine .bind (triple_logOut (G := fun v => F v ∧ v.slots i = some a) huser hheld
            List.mem_cons_self hidle hG.steady hG.steady fun v hf => hG.same hf rfl rfl)
            fun _ => ?_
          refine .ret (stable_at hG.steady) ?_
          rintro w _ ⟨hframes, hghost, hf⟩
          refine ⟨hframes, hghost.trans ?_, hf⟩
          rw [hklocks, hk]
          rfl
        · rename_i hdiffer
          refine .ret (stable_at hm.steady) ?_
          rintro w _ ⟨hframes, hghost, ⟨⟨⟨⟨hf, hslot⟩, hle⟩, hslot'⟩, hname⟩, hname'⟩
          have hne : j ≠ i := by
            rintro rfl
            obtain rfl := Option.some.inj (hslot.symm.trans hslot')
            obtain rfl := Option.some.inj (hname.symm.trans hname')
            exact hdiffer (strcmpEq_iff.mpr rfl)
          exact ⟨hframes, hghost, ⟨hf, hslot⟩, by omega⟩
    · rintro w hi ⟨_, _, ⟨_, hslot⟩, hle⟩
      have hlt := (hi.slots hslot).1
      exact absurd hlt (by omega)
  · exact triple_release hG hst hkidle

/-! ## The scan of a login -/

/-- The first `j` slots are not those of a trader of this name. -/
def MissingBelow (W : Watch) (name : CString) (j : Nat) (v : Shared) : Prop :=
  W.apart → ∀ k, k < j → ∀ b n, v.slots k = some b → v.name b = some n → strcmpEq n name = false

/-- While one thread is in a login and logins are executed one at a time, the table is left
alone. -/
theorem Kept.missingBelow {j : Nat} (hin : ∃ fd name, Call.login fd name ∈ fs)
    (hfs : v.frames t = fs) (hk : Kept W t h v v') (hm : MissingBelow W name j v) :
    MissingBelow W name j v' := by
  intro hap k hlt b n hb hn
  have hlogin : InLogin v t := by
    unfold InLogin
    rwa [hfs]
  rw [(hk.login hap hlogin).1] at hb
  rw [hk.name ⟨k, hb⟩] at hn
  exact hm hap k hlt b n hb hn

theorem steady_missingBelow {j : Nat} (hin : ∃ fd name, Call.login fd name ∈ fs) :
    Steady W t fs h (MissingBelow W name j) :=
  fun _ _ hfs hk hm => hk.missingBelow hin hfs hm

theorem steady_missing (hin : ∃ fd name, Call.login fd name ∈ fs) :
    Steady W t fs h (Missing W name) :=
  fun _ _ hfs hk hm hap j b n hb hn =>
    hk.missingBelow hin hfs (fun hap k _ => hm hap k) hap j (Nat.lt_succ_self j) b n hb hn

theorem steady_empty {j : Nat} (hin : ∃ fd name, Call.login fd name ∈ fs) :
    Steady W t fs h fun v => W.apart → v.slots j = none := by
  intro v v' hfs hk hnone hap
  have hlogin : InLogin v t := by
    unfold InLogin
    rwa [hfs]
  rw [(hk.login hap hlogin).1]
  exact hnone hap

/-- Trader `a` is in the table, under this name. -/
def Known (name : CString) (a : Nat) (v : Shared) : Prop := v.Stored a ∧ v.Named a name

theorem lasts_known : Lasts (Known name a) := by
  rintro v v' hl ⟨hs, x, hx, hxn⟩
  exact ⟨lasts_stored v v' hl hs, x, (hl.name hs).trans hx, hxn⟩

/-- The scan finds a trader and takes a reference to it, or the name is not in the table. -/
theorem triple_checkOldTraderAndLogin (hin : ∃ fd name, Call.login fd name ∈ fs) (hF : Lasts F)
    (hidle : h.sending = none) :
    (discipline E W).Triple t (At t fs h F) (checkOldTraderAndLogin fd name) fun r =>
      r.elim (At t fs h fun v => F v ∧ Missing W name v) fun b =>
        At t fs (h.setRef b (h.refs b + 1)) fun v => F v ∧ Known name b v := by
  have hstored : ∀ b, Lasts fun v => F v ∧ Known name b v := fun b => hF.and lasts_known
  have hQ : ∀ r : Option Nat, (discipline E W).Stable t (r.elim
      (At t fs h fun v => F v ∧ Missing W name v) fun b =>
        At t fs (h.setRef b (h.refs b + 1)) fun v => F v ∧ Known name b v) := by
    intro r
    cases r with
    | none => exact stable_at (hF.steady.and (steady_missing hin))
    | some b => exact stable_at (hstored b).steady
  refine .pre (P := At t fs h fun v => F v ∧ MissingBelow W name 0 v) ?_
    fun _ _ hw => ⟨hw.frames, hw.ghost, hw.fact, fun _ k hk => absurd hk (Nat.not_lt_zero k)⟩
  refine .search (fun j => At t fs h fun v => F v ∧ MissingBelow W name j v) hQ (fun j _ => ?_) ?_
  · have hj : Steady W t fs h fun v => F v ∧ MissingBelow W name j v :=
      hF.steady.and (steady_missingBelow hin)
    refine .bind (triple_slot (N := fun v => W.apart → v.slots j = none) hj (steady_empty hin)
      fun _ _ hnone _ => hnone) fun r => ?_
    cases r with
    | none =>
      refine .ret (stable_at (hj.and (steady_empty hin))) ?_
      rintro w _ ⟨hframes, hghost, ⟨hf, hmissing⟩, hnone⟩
      refine ⟨hframes, hghost, hf, fun hap k hk b n hb hn => ?_⟩
      rcases Nat.lt_succ_iff_lt_or_eq.mp hk with hlt | rfl
      · exact hmissing hap k hlt b n hb hn
      · rw [hnone hap] at hb
        cases hb
    | some b =>
      have hb : Steady W t fs h fun v => (F v ∧ MissingBelow W name j v) ∧ v.slots j = some b :=
        hj.and lasts_slot.steady
      refine .bind (triple_slotName (fun v hv => hv.2) hb) fun n => ?_
      split
      · rename_i heq
        have hslot : Lasts fun v => F v ∧ v.slots j = some b ∧ v.Named b name := by
          rintro v v' hl ⟨hv, hj, x, hx, hxn⟩
          exact ⟨hF v v' hl hv, hl.slots hj, x, (hl.name ⟨j, hj⟩).trans hx, hxn⟩
        refine .pre (P := At t fs h fun v => F v ∧ v.slots j = some b ∧ v.Named b name) ?_
          fun _ _ hw => ⟨hw.frames, hw.ghost, hw.fact.1.1.1, hw.fact.1.2, n, hw.fact.2, heq⟩
        refine triple_derefSlot (fun _ hv => hv.2.1) hslot.steady ?_
        refine .bind (triple_traderRef hslot (fun v hv => ⟨j, hv.2.1⟩) hidle) fun _ => ?_
        have hinner : (h.setRef b (h.refs b + 1)).leaving (.ref b) fs =
            h.setRef b (h.refs b + 1) := by
          obtain ⟨_, _, hmem⟩ := hin
          cases fs with
          | nil => cases hmem
          | cons f fs => rfl
        rw [hinner]
        refine triple_derefSlot (fun _ hv => hv.2.1) hslot.steady ?_
        exact .ret (stable_at hslot.steady)
          fun w _ hw => ⟨hw.frames, hw.ghost, hw.fact.1, ⟨j, hw.fact.2.1⟩, hw.fact.2.2⟩
      · rename_i hdiffer
        have hn : Steady W t fs h fun v =>
            ((F v ∧ MissingBelow W name j v) ∧ v.slots j = some b) ∧ v.name b = some n :=
          fun v v' hfs hk hv => ⟨hb v v' hfs hk hv.1, (hk.name ⟨j, hv.1.2⟩).trans hv.2⟩
        refine .ret (stable_at hn) ?_
        rintro w _ ⟨hframes, hghost, ⟨⟨hf, hmissing⟩, hslot⟩, hname⟩
        refine ⟨hframes, hghost, hf, fun hap k hk b' n' hb' hn' => ?_⟩
        rcases Nat.lt_succ_iff_lt_or_eq.mp hk with hlt | rfl
        · exact hmissing hap k hlt b' n' hb' hn'
        · obtain rfl := Option.some.inj (hslot.symm.trans hb')
          obtain rfl := Option.some.inj (hname.symm.trans hn')
          simpa using hdiffer
  · rintro w hi ⟨hframes, hghost, hf, hmissing⟩
    exact ⟨hframes, hghost, hf, fun hap j b n hb hn =>
      hmissing hap j (hi.slots hb).1 b n hb hn⟩

theorem triple_getFirstAvailableIndex (hin : ∃ fd name, Call.login fd name ∈ fs)
    (hF : Steady W t fs h F) :
    (discipline E W).Triple t (At t fs h F) getFirstAvailableIndex fun r =>
      r.elim (At t fs h F) fun i =>
        At t fs h fun v => (F v ∧ i < maxTraders) ∧ (W.apart → v.slots i = none) := by
  have hQ : ∀ r : Option Nat, (discipline E W).Stable t (r.elim (At t fs h F) fun i =>
      At t fs h fun v => (F v ∧ i < maxTraders) ∧ (W.apart → v.slots i = none)) := by
    intro r
    cases r with
    | none => exact stable_at hF
    | some i => exact stable_at ((hF.and steady_const).and (steady_empty hin))
  refine .search (fun _ => At t fs h F) hQ (fun i hlt => ?_) fun _ _ hw => hw
  refine .bind (triple_slot (N := fun v => W.apart → v.slots i = none) hF (steady_empty hin)
    fun _ _ hnone _ => hnone) fun r => ?_
  cases r with
  | none =>
    exact .ret (stable_at (hF.and (steady_empty hin)))
      fun w _ hw => ⟨hw.frames, hw.ghost, ⟨hw.fact.1, hlt⟩, hw.fact.2⟩
  | some b =>
    exact .ret (stable_at (hF.and lasts_slot.steady))
      fun w _ hw => ⟨hw.frames, hw.ghost, hw.fact.1⟩

/-! ## Login -/

/-- Thread `t` serves connection `fd` in the functions `fs`, logged in as `u`. -/
def Serving (t : Nat) (fs : List Call) (fd : Int) (F : Shared → Prop) (u : Option Nat)
    (w : World E) : Prop :=
  ∃ k : Holdings, k.Serves fd u ∧ At t fs k F w

theorem stable_serving {u : Option Nat} (hF : Lasts F) :
    (discipline E W).Stable t (Serving t fs fd F u) :=
  .exists fun _ => .and (.const _) (stable_at hF.steady)

/-- Thread `t` is about to leave a login with the trader `r`, if any. -/
abbrev Entering (t : Nat) (fs : List Call) (fd : Int) (name : CString) (F : Shared → Prop)
    (r : Option Nat) : World E → Prop :=
  Serving t fs fd (fun v => F v ∧ ∀ a, r = some a → Known name a v) r

/-- A trader with this name is in the table: only when it has no descriptor is it logged in. -/
theorem triple_resume (hin : ∃ fd name, Call.login fd name ∈ fs) (hF : Lasts F)
    (hs : h.Serves fd none) :
    (discipline E W).Triple t (At t fs (h.setRef a (h.refs a + 1)) fun v => F v ∧ Known name a v)
      (do
        let oldFd ← load .fd a
        if oldFd ≠ -1 then pure none
        else do
          store .fd a fd
          pure (some a) : Code (Option Nat))
      (Entering t fs fd name F) := by
  have hst : Lasts fun v => F v ∧ Known name a v := hF.and lasts_known
  have hread : ∀ x : Int, Steady W t fs (h.setRef a (h.refs a + 1)) fun v =>
      (F v ∧ Known name a v) ∧ (W.apart → x = -1 → v.fd a = some (-1)) := by
    rintro x v v' hfs hk ⟨hv, hx⟩
    have hlogin : InLogin v t := by
      unfold InLogin
      rwa [hfs]
    exact ⟨hst v v' hk.lasting hv,
      fun hap hx' => (hk.login hap hlogin).2 hv.2.1 (hx hap hx')⟩
  refine .bind (triple_quiet (o := .load .fd a) rfl hst.steady hread ?_) fun (x : Int) => ?_
  · intro s c _ hf e x s' he
    obtain ⟨tr, htr, rfl, _⟩ := exec_load he
    refine ⟨hf, fun _ hx => ?_⟩
    rw [shared_fd htr]
    exact congrArg some hx
  split
  · refine .ret (stable_at (hread x)) fun w _ hw =>
      ⟨_, ?_, hw.frames, hw.ghost, hw.fact.1.1, nofun⟩
    exact ⟨hs.user, hs.conn, hs.sending, nofun⟩
  · rename_i hx
    refine .bind (triple_logIn (G := fun v => F v ∧ Known name a v) (fun v hv => hv.1.2.1)
      (fun hap v hv => hv.2 hap (not_not.mp hx)) hin hs.conn hs.user hs.sending (hread x)
      hst.steady fun v hv => hst.same hv.1 rfl rfl) fun _ => ?_
    refine .ret (stable_at hst.steady) fun w _ hw =>
      ⟨_, ?_, hw.frames, hw.ghost, hw.fact.1, fun b hb => ?_⟩
    · refine ⟨rfl, hs.conn, hs.sending, fun b hb => ?_⟩
      obtain rfl := Option.some.inj hb
      simp [Holdings.setUser, Holdings.setRef]
    · obtain rfl := Option.some.inj hb
      exact hw.fact.2

/-- A new trader has at least `m` references. -/
def Counted (a : Nat) (m : Int) (v : Shared) : Prop := ∃ r, v.ref a = some r ∧ m ≤ r

theorem steady_counted {m : Int} (hmine : h.fresh = some a) : Steady W t fs h (Counted a m) := by
  rintro v v' _ hk ⟨r, hr, hle⟩
  exact ⟨r, (hk.fresh hmine).2.2.trans hr, hle⟩

/-- A reference to a new trader. -/
theorem triple_freshRef {m : Int} (hin : ∃ fd name, Call.login fd name ∈ fs) (hF : Lasts F)
    (hmine : h.fresh = some a) (hnone : h.locks a = 0) (hidle : h.sending = none) :
    (discipline E W).Triple t (At t fs h fun v => (F v ∧ Missing W name v) ∧ Counted a m v)
      (traderRef a)
      fun _ => At t fs h fun v => (F v ∧ Missing W name v) ∧ Counted a (m + 1) v := by
  have hcons : ∃ fd name, Call.login fd name ∈ Call.ref a :: fs := by
    obtain ⟨fd, name, hmem⟩ := hin
    exact ⟨fd, name, List.mem_cons_of_mem _ hmem⟩
  have hM : ∀ {fs n}, (∃ fd name, Call.login fd name ∈ fs) → Steady W t fs h fun v =>
      (F v ∧ Missing W name v) ∧ Counted a n v :=
    fun hin => (hF.steady.and (steady_missing hin)).and (steady_counted hmine)
  have hread : ∀ r, Steady W t (.ref a :: fs) h fun v =>
      ((F v ∧ Missing W name v) ∧ Counted a m v) ∧ v.ref a = some r :=
    fun r => (hM hcons).and fun v v' _ hk hr => (hk.fresh hmine).2.2.trans hr
  have hin' : h.entering (.ref a) fs = h := by cases fs <;> rfl
  have hout' : (h.leaving (.ref a) fs).setLock a (h.locks a) = h := by
    obtain ⟨_, _, hmem⟩ := hin
    cases fs with
    | nil => cases hmem
    | cons f fs => exact Holdings.setLock_self h a
  have hsame : ∀ {n : Int} {v v' : Shared}, (F v ∧ Missing W name v) ∧ Counted a n v →
      v'.slots = v.slots → v'.name = v.name → v'.ref = v.ref →
        (F v' ∧ Missing W name v') ∧ Counted a n v' := by
    rintro n v v' ⟨⟨hf, hmissing⟩, hcounted⟩ hslots hname href
    refine ⟨⟨hF.same hf hslots hname, ?_⟩, ?_⟩
    · unfold Missing
      rwa [hslots, hname]
    · unfold Counted
      rwa [href]
  have henter : (discipline E W).Triple t
      (At t fs h fun v => (F v ∧ Missing W name v) ∧ Counted a m v) (enter (.ref a))
      fun _ => At t (.ref a :: fs) (h.entering (.ref a) fs)
        fun v => (F v ∧ Missing W name v) ∧ Counted a m v :=
    triple_enter hidle (hM hin) (by rw [hin']; exact hM hcons) fun v hv => hsame hv rfl rfl rfl
  rw [hin'] at henter
  refine .bind henter fun _ => ?_
  refine .bind (Q := fun _ => At t (.ref a :: fs) h fun v =>
    (F v ∧ Missing W name v) ∧ Counted a (m + 1) v) ?_ fun r => ?_
  · refine .bind (triple_freshMutex (.inl rfl) hmine hnone hidle (hM hcons)
      fun v m hv => hsame hv rfl rfl rfl) fun _ => ?_
    refine .bind (triple_quiet (o := .load .ref a) rfl (hM hcons) hread ?_) fun (r : Int) => ?_
    · intro s c _ hf e r s' he
      obtain ⟨tr, htr, rfl, _⟩ := exec_load he
      exact ⟨hf, shared_ref htr⟩
    refine .bind (triple_storeFreshRef
      (G := fun v => (F v ∧ Missing W name v) ∧ Counted a (m + 1) v) hmine (hread r) (hM hcons) ?_)
      fun _ => ?_
    · rintro v ⟨⟨⟨hf, hmissing⟩, k, hk, hle⟩, hr⟩
      obtain rfl := Option.some.inj (hk.symm.trans hr)
      exact ⟨⟨hF.same hf rfl rfl, hmissing⟩, k + 1, Function.update_self .., by omega⟩
    refine .bind (triple_freshMutex (.inr (.inl rfl)) hmine hnone hidle (hM hcons)
      fun v m hv => hsame hv rfl rfl rfl) fun _ => ?_
    exact .ret (stable_at (hM hcons)) fun _ _ hw => hw
  · have hleave : (discipline E W).Triple t
        (At t (.ref a :: fs) h fun v => (F v ∧ Missing W name v) ∧ Counted a (m + 1) v)
        (leave (.trader (some r)))
        fun _ => At t fs ((h.leaving (.ref a) fs).setLock a (h.locks a))
          fun v => (F v ∧ Missing W name v) ∧ Counted a (m + 1) v := by
      refine triple_leave le_rfl hidle ?_ nofun (hM hcons) ?_ fun v hv => hsame hv rfl rfl rfl
      · rintro _ _ rfl
        obtain ⟨_, _, hmem⟩ := hin
        cases hmem
      · rw [hout']
        exact hM hin
    rw [hout'] at hleave
    exact .bind hleave fun _ => .ret (stable_at (hM hin)) fun _ _ hw => hw

/-- What a login has stored in a new trader. -/
structure Made (t : Nat) (fd : Int) (name : CString) (a : Nat) (v : Shared) : Prop where
  fd : v.fd a = some fd
  session : v.session t = some a
  name : v.name a = some name

theorem steady_made (hmine : h.fresh = some a) : Steady W t fs h (Made t fd name a) := by
  rintro v v' _ hk ⟨hfd, hses, hname⟩
  obtain ⟨hname', hfd', _⟩ := hk.fresh hmine
  exact ⟨hfd'.trans hfd, hk.session.trans hses, hname'.trans hname⟩

/-- A new trader is made. -/
theorem triple_make {f : Nat → Code (Option Nat)} {Q : Option Nat → World E → Prop}
    (hin : ∃ fd name, Call.login fd name ∈ fs) (hF : Lasts F) (hs : h.Serves fd none)
    (hf : ∀ a, (discipline E W).Triple t (At t fs (h.setFresh (some a)) fun v =>
      ((F v ∧ Missing W name v) ∧ Counted a 2 v) ∧ Made t fd name a v) (f a) Q) :
    (discipline E W).Triple t (At t fs h fun v => F v ∧ Missing W name v)
      (do
        let trader ← mallocTrader
        let _ ← traderRef trader
        let _ ← traderRef trader
        store .fd trader fd
        store .balance trader 0
        store .inventory trader 0
        store .name trader name
        mutexInit trader
        f trader) Q := by
  have hM : ∀ {h : Holdings} {a n}, h.fresh = some a → Steady W t fs h fun v =>
      (F v ∧ Missing W name v) ∧ Counted a n v :=
    fun hmine => (hF.steady.and (steady_missing hin)).and (steady_counted hmine)
  refine .bind (triple_mallocTrader (Q := fun a v =>
    ((F v ∧ Missing W name v) ∧ Counted a 0 v) ∧ h.locks a = 0)
    (hF.steady.and (steady_missing hin)) (fun a => (hM rfl).and steady_const) ?_) fun a => ?_
  · rintro v a n x k m hother hnone hk ⟨hv, hmissing⟩
    have hname : ∀ {b}, v.Stored b → Function.update v.name a (some n) b = v.name b := by
      rintro b ⟨i, hi⟩
      exact Function.update_of_ne (hother i b hi) ..
    refine ⟨⟨⟨hF v _ ⟨id, hname⟩ hv, fun hap j b n' hb hn => ?_⟩, k, ?_, hk⟩, hnone⟩
    · exact hmissing hap j b n' hb ((hname ⟨j, hb⟩).symm.trans hn)
    · exact Function.update_self ..
  refine .pre (P := fun w => h.locks a = 0 ∧ At t fs (h.setFresh (some a))
    (fun v => (F v ∧ Missing W name v) ∧ Counted a 0 v) w) (.fact_pre fun hnone => ?_)
    fun _ _ hw => ⟨hw.fact.2, hw.frames, hw.ghost, hw.fact.1⟩
  have hmine : (h.setFresh (some a)).fresh = some a := rfl
  refine .bind (triple_freshRef hin hF hmine hnone hs.sending) fun _ => ?_
  refine .bind (triple_freshRef hin hF hmine hnone hs.sending) fun _ => ?_
  have hfd : Steady W t fs (h.setFresh (some a)) fun v =>
      ((F v ∧ Missing W name v) ∧ Counted a 2 v) ∧ v.fd a = some fd ∧ v.session t = some a :=
    (hM hmine).and fun v v' _ hk hv =>
      ⟨(hk.fresh hmine).2.1.trans hv.1, hk.session.trans hv.2⟩
  refine .bind (triple_storeFreshFd hmine hs.conn hs.user (hM hmine) hfd ?_) fun _ => ?_
  · rintro v _ ⟨⟨hv, hmissing⟩, hcounted⟩
    exact ⟨⟨⟨hF.same hv rfl rfl, hmissing⟩, hcounted⟩, Function.update_self ..,
      Function.update_self ..⟩
  refine .bind (triple_skip rfl hfd) fun _ => ?_
  refine .bind (triple_skip rfl hfd) fun _ => ?_
  have hmade : Steady W t fs (h.setFresh (some a)) fun v =>
      ((F v ∧ Missing W name v) ∧ Counted a 2 v) ∧ Made t fd name a v :=
    (hM hmine).and (steady_made hmine)
  refine .bind (triple_storeName hmine hfd hmade ?_) fun _ => ?_
  · rintro v hnst ⟨⟨⟨hv, hmissing⟩, hcounted⟩, hx, hses⟩
    have hname : ∀ {b}, v.Stored b → Function.update v.name a (some name) b = v.name b := by
      intro b hb
      have hba : b ≠ a := fun h => hnst (h ▸ hb)
      exact Function.update_of_ne hba ..
    refine ⟨⟨⟨hF v _ ⟨id, hname⟩ hv, fun hap j b n' hb hn => ?_⟩, hcounted⟩, hx, hses, ?_⟩
    · exact hmissing hap j b n' hb ((hname ⟨j, hb⟩).symm.trans hn)
    · exact Function.update_self ..
  refine .bind (triple_freshMutex (.inr (.inr rfl)) hmine hnone hs.sending hmade ?_) fun _ => hf a
  rintro v m ⟨⟨⟨hv, hmissing⟩, hcounted⟩, hx, hses, hname⟩
  exact ⟨⟨⟨hF.same hv rfl rfl, hmissing⟩, hcounted⟩, hx, hses, hname⟩

/-- A thread that is not logged in logs in, or not. -/
theorem triple_traderLogin (hF : Lasts F) (hs : h.Serves fd none) :
    (discipline E W).Triple t (At t [] h F) (traderLogin fd name) (Serving t [] fd F) := by
  have hin : ∃ fd' name', Call.login fd' name' ∈ [Call.login fd name] :=
    ⟨fd, name, List.mem_singleton_self _⟩
  refine .bind (triple_enter hs.sending hF.steady hF.steady fun v hf => hF.same hf rfl rfl)
    fun _ => ?_
  refine .bind (Q := Entering t [.login fd name] fd name F) ?_ fun r => ?_
  · refine .bind (triple_checkOldTraderAndLogin hin hF hs.sending) fun r => ?_
    have hmissing : Steady W t [.login fd name] h fun v => F v ∧ Missing W name v :=
      hF.steady.and (steady_missing hin)
    cases r with
    | some b => exact triple_resume hin hF hs
    | none =>
      refine .bind (triple_skip rfl hmissing) fun total => ?_
      split
      · exact .ret (stable_at hmissing)
          fun w _ hw => ⟨h, hs, hw.frames, hw.ghost, hw.fact.1, fun _ h => by cases h⟩
      · refine .bind (triple_skip rfl hmissing) fun total => ?_
        refine .bind (triple_skip rfl hmissing) fun _ => ?_
        refine triple_make hin hF hs fun a => ?_
        have hmine : (h.setFresh (some a)).fresh = some a := rfl
        have hmade : Steady W t [.login fd name] (h.setFresh (some a)) fun v =>
            ((F v ∧ Missing W name v) ∧ Counted a 2 v) ∧ Made t fd name a v :=
          ((hF.steady.and (steady_missing hin)).and (steady_counted hmine)).and
            (steady_made hmine)
        refine .bind (triple_getFirstAvailableIndex hin hmade) fun r => ?_
        cases r with
        | none =>
          refine .ret (stable_at hmade) fun w _ hw =>
            ⟨_, ?_, hw.frames, hw.ghost, hw.fact.1.1.1, fun _ h => by cases h⟩
          exact ⟨hs.user, hs.conn, hs.sending, fun _ h => by cases h⟩
        | some i =>
          have hfree : Steady W t [.login fd name] (h.setFresh (some a)) fun v =>
              ((((F v ∧ Missing W name v) ∧ Counted a 2 v) ∧ Made t fd name a v) ∧
                i < maxTraders) ∧ (W.apart → v.slots i = none) :=
            (hmade.and steady_const).and (steady_empty hin)
          intro w hi hw
          have hlt : i < maxTraders := hw.fact.1.2
          have hst : Lasts fun v => F v ∧ Known name a v := hF.and lasts_known
          refine Discipline.Triple.bind (triple_publish (G := fun v => F v ∧ Known name a v)
            (x := fd) (n := name) hmine hlt (fun hap v hv => hv.2 hap)
            (fun v hv => hv.1.1.1.1.2) (fun v hv => hv.1.1.2.name) (fun v hv => hv.1.1.2.fd)
            (fun v hv => hv.1.1.2.session) (fun v hv => hv.1.1.1.2) hin
            hs.conn hs.sending hfree hst.steady ?_) (fun _ => ?_) w hi hw
          · rintro v hnone ⟨⟨⟨⟨⟨hv, _⟩, _⟩, hmade⟩, _⟩, _⟩
            refine ⟨hF v _ ⟨fun {j b} hb => ?_, fun _ => rfl⟩ hv, ⟨i, Function.update_self ..⟩,
              name, hmade.name, strcmpEq_iff.mpr rfl⟩
            have hj : j ≠ i := by
              rintro rfl
              rw [hnone] at hb
              cases hb
            exact (Function.update_of_ne hj ..).trans hb
          · refine .ret (stable_at hst.steady) fun w _ hw =>
              ⟨_, ?_, hw.frames, hw.ghost, hw.fact.1, fun b hb => ?_⟩
            · refine ⟨rfl, hs.conn, hs.sending, fun b hb => ?_⟩
              obtain rfl := Option.some.inj hb
              simp [Holdings.published, Holdings.setRef]
            · obtain rfl := Option.some.inj hb
              exact hw.fact.2
  · refine .exists_pre fun k => .fact_pre fun hk => ?_
    have hknown : Lasts fun v => F v ∧ ∀ a, r = some a → Known name a v :=
      hF.and fun v v' hl hv a ha => lasts_known v v' hl (hv a ha)
    refine .bind (triple_leave (a := 0) (l := k.locks 0) (x := .trader r) le_rfl hk.sending
      (fun _ h => by cases h) (fun fd' name' hcall => ⟨rfl, fun a ha => ?_⟩) hknown.steady hF.steady
      fun v hf => hF.same hf.1 rfl rfl) fun _ => ?_
    · have hr : r = some a := by simpa using ha
      obtain ⟨_, rfl⟩ := Call.login.inj hcall
      exact ⟨hk.user.trans hr, fun v hv => (hv.2 a hr).2⟩
    · exact .ret (stable_at hF.steady) fun w _ hw =>
        ⟨k, hk, hw.frames, hw.ghost.trans (Holdings.setLock_self k 0), hw.fact⟩

end BourseServer.Sessions
