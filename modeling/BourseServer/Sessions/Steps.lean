import BourseServer.Sessions.Actions

/-!
# What a thread asserts around its actions

A triple for each kind of action. A thread asserts in which functions it is, what it has, and a
fact about what is shared that the other threads leave alone.
-/
namespace BourseServer.Sessions

open Concurrency

variable {E : Exchange} {W : Watch} {t a : Nat} {fs fs' : List Call} {h : Holdings}
  {F G : Shared → Prop} {v v' : Shared}

/-! ## Assertions -/

structure At (t : Nat) (fs : List Call) (h : Holdings) (F : Shared → Prop) (w : World E) :
    Prop where
  frames : w.state.shared.frames t = fs
  ghost : w.ghost t = h
  fact : F w.state.shared

/-- The other threads leave the fact alone. -/
def Steady (W : Watch) (t : Nat) (fs : List Call) (h : Holdings) (F : Shared → Prop) : Prop :=
  ∀ v v', v.frames t = fs → Kept W t h v v' → F v → F v'

theorem stable_at (hF : Steady W t fs h F) : (discipline E W).Stable t (At t fs h F) := by
  rintro w w' ⟨hg, hk⟩ _ ⟨hframes, hghost, hfact⟩
  subst hghost
  exact ⟨hk.frames.trans hframes, hg, hF _ _ hframes hk hfact⟩

theorem steady_const {φ : Prop} : Steady W t fs h fun _ => φ := fun _ _ _ _ hφ => hφ

theorem Steady.and {G : Shared → Prop} (hF : Steady W t fs h F) (hG : Steady W t fs h G) :
    Steady W t fs h fun v => F v ∧ G v :=
  fun v v' hfs hk hw => ⟨hF v v' hfs hk hw.1, hG v v' hfs hk hw.2⟩

/-- Who has more knows more to be left alone. -/
theorem Kept.mono {h' : Holdings} (hk : Kept W t h' v v')
    (hlocks : ∀ {a}, 0 < h.locks a → 0 < h'.locks a)
    (hfresh : ∀ {a}, h.fresh = some a → h'.fresh = some a) : Kept W t h v v' :=
  { hk with
    locked := fun ha => hk.locked (hlocks ha)
    fresh := fun ha => hk.fresh (hfresh ha) }

theorem Steady.mono {h' : Holdings} (hF : Steady W t fs h F)
    (hlocks : ∀ {a}, 0 < h.locks a → 0 < h'.locks a)
    (hfresh : ∀ {a}, h.fresh = some a → h'.fresh = some a) : Steady W t fs h' F :=
  fun v v' hfs hk => hF v v' hfs (hk.mono hlocks hfresh)

theorem steady_ref {r : Int} (hl : 0 < h.locks a) : Steady W t fs h fun v => v.ref a = some r :=
  fun _ _ _ hk hr => (hk.locked hl).1.trans hr

/-- The descriptor of a locked trader only changes when it has none. -/
theorem steady_fd {x : Int} (hl : 0 < h.locks a) :
    Steady W t fs h fun v => x = -1 ∨ v.fd a = some x := by
  rintro v v' _ hk (rfl | hx)
  · exact .inl rfl
  · by_cases hne : x = -1
    · exact .inl hne
    · refine .inr (((hk.locked hl).2 ?_).trans hx)
      rw [hx]
      simpa using hne

/-- A step of thread `t`. -/
theorem triple_step {o : Op} {h' : o.Reply → Holdings} {Q : o.Reply → Shared → Prop}
    (hF : Steady W t fs h F) (hQ : ∀ r, Steady W t fs' (h' r) (Q r))
    (hwrite : ∀ x bs, o ≠ .write x bs)
    (hstep : ∀ (s : State E) (c : Census), Inv W s.shared c → c.of t = h →
      s.shared.frames t = fs → F s.shared → ∀ e r s', exec t o e s = .done r s' →
      Orderly W t o e s → Inv W s'.shared (c.set t (h' r)) ∧ s'.shared.frames t = fs' ∧
        Q r s'.shared ∧ ∀ u, u ≠ t → Kept W u (c.of u) s.shared s'.shared) :
    (discipline E W).Triple t (At t fs h F) (.act (I := bourse) o)
      fun r => At t fs' (h' r) (Q r) := by
  refine .act (stable_at hF) (fun r => stable_at (hQ r)) ?_ ?_
  · exact fun _ _ _ x bs ho => absurd ho (hwrite x bs)
  · rintro w hi ⟨hframes, hghost, hfact⟩ e r s he ha
    obtain ⟨hinv, hfs, hq, hk⟩ := hstep w.state (census w.ghost) hi hghost hframes hfact e r s he ha
    refine ⟨h' r, ⟨?_, fun u hu => ?_⟩, ⟨hfs, World.after_ghost_self .., hq⟩⟩
    · change Inv W s.shared (census (Function.update w.ghost t (h' r)))
      rwa [census_update]
    · exact ⟨World.after_ghost_of_ne _ _ _ hu, hk u hu⟩

/-- What the other threads rely on is unchanged. -/
theorem Kept.of_eq {u : Nat} {k : Holdings} (hframes : v'.frames u = v.frames u)
    (hsession : v'.session u = v.session u) (hslots : v'.slots = v.slots)
    (hname : v'.name = v.name) (hfd : v'.fd = v.fd) (href : v'.ref = v.ref) :
    Kept W u k v v' where
  frames := hframes
  session := hsession
  slots hi := by rwa [hslots]
  name _ := by rw [hname]
  locked _ := ⟨by rw [href], fun _ => by rw [hfd]⟩
  fresh _ := ⟨by rw [hname], by rw [hfd], by rw [href]⟩
  login _ _ := ⟨hslots, fun _ hx => by rwa [hfd]⟩

/-! ## Actions that change nothing that is shared -/

theorem triple_quiet {o : Op} {Q : o.Reply → Shared → Prop} (ho : o.quiet = true)
    (hF : Steady W t fs h F) (hQ : ∀ r, Steady W t fs h (Q r))
    (hfact : ∀ (s : State E) (c : Census), Inv W s.shared c → F s.shared → ∀ e r s',
      exec t o e s = .done r s' → Q r s.shared) :
    (discipline E W).Triple t (At t fs h F) (.act (I := bourse) o) fun r => At t fs h (Q r) := by
  refine triple_step hF hQ ?_ ?_
  · rintro x bs rfl
    cases ho
  · rintro s c hi rfl hframes hfact' e r s' he _
    have hsame := exec_quiet ho he
    have hq := hfact s c hi hfact' e r s' he
    rw [← hsame] at hq hframes
    refine ⟨?_, hframes, hq, fun u _ => ?_⟩
    · rwa [Census.set_of, hsame]
    · rw [hsame]
      exact .refl ..

/-- A quiet action whose reply does not matter. -/
theorem triple_skip {o : Op} (ho : o.quiet = true) (hF : Steady W t fs h F) :
    (discipline E W).Triple t (At t fs h F) (.act (I := bourse) o) fun _ => At t fs h F :=
  triple_quiet ho hF (fun _ => hF) fun _ _ _ hf _ _ _ _ => hf

/-! ## Mutexes -/

theorem Census.set_setLock (c : Census) (t a l : Nat) :
    c.set t ((c.of t).setLock a l) =
      { c with locks := Function.update c.locks t (Function.update (c.locks t) a l) } := by
  simp [Census.set, Census.of, Holdings.setLock]

theorem Holdings.setLock_self (h : Holdings) (a : Nat) : h.setLock a (h.locks a) = h := by
  simp [Holdings.setLock]

theorem triple_lock (hst : ∀ v, F v → v.Stored a) (hidle : h.sending = none)
    (hF : Steady W t fs h F) (hG : Steady W t fs (h.setLock a (h.locks a + 1)) G)
    (hfact : ∀ v m, F v → G { v with mutex := Function.update v.mutex a m }) :
    (discipline E W).Triple t (At t fs h F) (lock a)
      fun _ => At t fs (h.setLock a (h.locks a + 1)) G := by
  refine triple_step hF (fun _ => hG) nofun ?_
  rintro s c hi rfl hframes hf e r s' he _
  obtain ⟨m, m', hm, hlock, hs'⟩ := exec_lock_shared he
  rw [hs', Census.set_setLock]
  refine ⟨hi.setMutex ?_ (fun u hu => ?_) (fun u _ hu => (hi.fresh hu).1 (hst _ hf)) hidle,
    hframes, hfact _ _ hf, fun u _ => .of_eq rfl rfl rfl rfl rfl rfl⟩
  · rw [Mutex.heldBy_lock_self hlock]
    exact Nat.succ_le_succ (hi.locks_le hm t)
  · have h0 := hi.locks_le hm u
    rw [heldBy_of_lock_of_ne hlock hu] at h0
    omega

theorem triple_unlock {n : Nat} (hn : h.locks a = n + 1) (hst : ∀ v, F v → v.Stored a)
    (hidle : h.sending = none) (hF : Steady W t fs h F) (hG : Steady W t fs (h.setLock a n) G)
    (hfact : ∀ v m, F v → G { v with mutex := Function.update v.mutex a m }) :
    (discipline E W).Triple t (At t fs h F) (unlock a) fun _ => At t fs (h.setLock a n) G := by
  refine triple_step hF (fun _ => hG) nofun ?_
  rintro s c hi rfl hframes hf e r s' he _
  obtain ⟨m, hm, hs'⟩ := exec_unlock_shared he
  rw [hs', Census.set_setLock]
  refine ⟨hi.setMutex ?_ (fun u hu => ?_) (fun u _ hu => (hi.fresh hu).1 (hst _ hf)) hidle,
    hframes, hfact _ _ hf, fun u _ => .of_eq rfl rfl rfl rfl rfl rfl⟩
  · have hle := hi.locks_le hm t
    change c.locks t a = n + 1 at hn
    rw [Mutex.heldBy_unlock_self]
    omega
  · rw [Mutex.heldBy_unlock_of_ne hu]
    exact hi.locks_le hm u

/-- An action on the mutex of a new trader. -/
theorem triple_freshMutex {o : Op} (ho : o = .lock a ∨ o = .unlock a ∨ o = .mutexInit a)
    (hmine : h.fresh = some a) (hnone : h.locks a = 0) (hidle : h.sending = none)
    (hF : Steady W t fs h F)
    (hfact : ∀ v m, F v → F { v with mutex := Function.update v.mutex a m }) :
    (discipline E W).Triple t (At t fs h F) (.act (I := bourse) o) fun _ => At t fs h F := by
  refine triple_step hF (fun _ => hF) ?_ ?_
  · rintro x bs rfl
    simp at ho
  · rintro s c hi rfl hframes hf e r s' he _
    obtain ⟨m, hs'⟩ : ∃ m, s'.shared =
        { s.shared with mutex := Function.update s.shared.mutex a (some m) } := by
      rcases ho with rfl | rfl | rfl
      · obtain ⟨_, m', _, _, hs'⟩ := exec_lock_shared he
        exact ⟨m', hs'⟩
      · obtain ⟨_, _, hs'⟩ := exec_unlock_shared he
        exact ⟨_, hs'⟩
      · obtain ⟨_, _, hs'⟩ := exec_mutexInit_shared he
        exact ⟨_, hs'⟩
    have hmine' : c.fresh t = some a := hmine
    have hfree : ∀ u, u ≠ t → c.locks u a = 0 := (hi.fresh hmine').2.2.2.2
    have hinv := hi.setMutex (t := t) (a := a) (m := m) (Nat.zero_le _)
      (fun u hu => by simp [hfree u hu]) (fun u hu hu' => hu ((hi.fresh hmine').2.2.1 u hu')) hidle
    rw [← Census.set_setLock, ← hnone, Holdings.setLock_self, Census.set_of] at hinv
    rw [hs', Census.set_of]
    exact ⟨hinv, hframes, hfact _ _ hf, fun u _ => .of_eq rfl rfl rfl rfl rfl rfl⟩

/-! ## Counts -/

theorem Census.set_setRef (c : Census) (t a n : Nat) :
    c.set t ((c.of t).setRef a n) =
      { c with refs := Function.update c.refs t (Function.update (c.refs t) a n) } := by
  simp [Census.set, Census.of, Holdings.setRef]

/-- The count of a trader changes under its mutex, by no less than what the thread has. -/
theorem triple_storeRef {r m : Int} {n : Nat} (hle : r + n ≤ m + h.refs a)
    (hst : ∀ v, F v → v.Stored a) (href : ∀ v, F v → v.ref a = some r) (hlock : 0 < h.locks a)
    (hF : Steady W t fs h F) (hG : Steady W t fs (h.setRef a n) G)
    (hfact : ∀ v, F v → G { v with ref := Function.update v.ref a (some m) }) :
    (discipline E W).Triple t (At t fs h F) (store .ref a m)
      fun _ => At t fs (h.setRef a n) G := by
  refine triple_step hF (fun _ => hG) nofun ?_
  rintro s c hi rfl hframes hf e _ s' he _
  obtain ⟨_, hs'⟩ := exec_storeRef_shared he
  have hinv := hi.recount (t := t) (a := a) (ρ := some m) (m := s.shared.outstanding a) (n := n)
    (fun _ x hx => ⟨r, href _ hf, by
      obtain rfl := Option.some.inj hx
      change r + n ≤ m + c.refs t a at hle
      omega⟩) (fun hno => absurd (hst _ hf) hno)
  rw [Function.update_eq_self] at hinv
  rw [hs', Census.set_setRef]
  refine ⟨hinv, hframes, hfact _ hf, fun u hu => ⟨rfl, rfl, id, fun _ => rfl, fun {b} hb => ?_,
    fun {b} hb => ?_, fun _ _ => ⟨rfl, fun _ hx => hx⟩⟩⟩
  · have hba : b ≠ a := by
      rintro rfl
      exact hu (hi.locks_unique hlock hb)
    exact ⟨Function.update_of_ne hba .., fun _ => rfl⟩
  · have hba : b ≠ a := by
      rintro rfl
      exact (hi.fresh hb).1 (hst _ hf)
    exact ⟨rfl, rfl, Function.update_of_ne hba ..⟩

/-- The count of a new trader. -/
theorem triple_storeFreshRef {r : Int} (hmine : h.fresh = some a) (hF : Steady W t fs h F)
    (hG : Steady W t fs h G)
    (hfact : ∀ v, F v → G { v with ref := Function.update v.ref a (some r) }) :
    (discipline E W).Triple t (At t fs h F) (store .ref a r) fun _ => At t fs h G := by
  refine triple_step hF (fun _ => hG) nofun ?_
  rintro s c hi rfl hframes hf e _ s' he _
  obtain ⟨_, hs'⟩ := exec_storeRef_shared he
  have hmine' : c.fresh t = some a := hmine
  obtain ⟨hnst, _, hone, _, hlocks⟩ := hi.fresh hmine'
  have hinv := hi.recount (t := t) (a := a) (ρ := some r) (m := s.shared.outstanding a)
    (n := c.refs t a) (fun hst => absurd hst hnst)
    (fun hno => ⟨(hi.unseen hno).1, (hi.unseen hno).2 t⟩)
  rw [Function.update_eq_self, Function.update_eq_self, Function.update_eq_self] at hinv
  rw [hs', Census.set_of]
  refine ⟨hinv, hframes, hfact _ hf, fun u hu => ⟨rfl, rfl, id, fun _ => rfl, fun {b} hb => ?_,
    fun {b} hb => ?_, fun _ _ => ⟨rfl, fun _ hx => hx⟩⟩⟩
  · have hba : b ≠ a := by
      rintro rfl
      have h0 : 0 < c.locks u b := hb
      rw [hlocks u hu] at h0
      cases h0
    exact ⟨Function.update_of_ne hba .., fun _ => rfl⟩
  · have hba : b ≠ a := by
      rintro rfl
      exact hu (hone u hb)
    exact ⟨rfl, rfl, Function.update_of_ne hba ..⟩

/-! ## Names and descriptors -/

theorem triple_storeName {n : CString} (hmine : h.fresh = some a) (hF : Steady W t fs h F)
    (hG : Steady W t fs h G)
    (hfact : ∀ v, ¬ v.Stored a → F v → G { v with name := Function.update v.name a (some n) }) :
    (discipline E W).Triple t (At t fs h F) (store .name a n) fun _ => At t fs h G := by
  refine triple_step hF (fun _ => hG) nofun ?_
  rintro s c hi rfl hframes hf e _ s' he _
  obtain ⟨_, hs'⟩ := exec_storeName_shared he
  have hmine' : c.fresh t = some a := hmine
  obtain ⟨hnst, _, hone, _, _⟩ := hi.fresh hmine'
  rw [hs', Census.set_of]
  refine ⟨hi.setName hnst, hframes, hfact _ hnst hf, fun u hu => ⟨rfl, rfl, id, fun {b} hb => ?_,
    fun _ => ⟨rfl, fun _ => rfl⟩, fun {b} hb => ?_, fun _ _ => ⟨rfl, fun _ hx => hx⟩⟩⟩
  · have hba : b ≠ a := fun h => hnst (h ▸ hb)
    exact Function.update_of_ne hba ..
  · have hba : b ≠ a := by
      rintro rfl
      exact hu (hone u hb)
    exact ⟨Function.update_of_ne hba .., rfl, rfl⟩

/-- The descriptor of a new trader. -/
theorem triple_storeFreshFd {x : Int} (hmine : h.fresh = some a) (hconn : h.conn = some x)
    (hout : h.user = none) (hF : Steady W t fs h F) (hG : Steady W t fs h G)
    (hfact : ∀ v, ¬ v.Stored a → F v → G { v with
      fd := Function.update v.fd a (some x)
      session := Function.update v.session t (some a) }) :
    (discipline E W).Triple t (At t fs h F) (store .fd a x) fun _ => At t fs h G := by
  refine triple_step hF (fun _ => hG) nofun ?_
  rintro s c hi rfl hframes hf e _ s' he _
  obtain ⟨_, hs'⟩ := exec_storeFd_shared he
  have hmine' : c.fresh t = some a := hmine
  have hx : x ≠ -1 := by
    have hpos := hi.ports (hi.conn (t := t) hconn)
    omega
  obtain ⟨hnst, _, hone, _, hlocks⟩ := hi.fresh hmine'
  rw [if_neg hx] at hs'
  rw [hs', Census.set_of]
  refine ⟨hi.setFreshFd hmine' hx hout, hframes, hfact _ hnst hf, fun u hu =>
    ⟨rfl, Function.update_of_ne hu .., id, fun _ => rfl, fun {b} hb => ?_, fun {b} hb => ?_,
      fun _ _ => ⟨rfl, fun {b} hb hbx => ?_⟩⟩⟩
  · have hba : b ≠ a := by
      rintro rfl
      have h0 : 0 < c.locks u b := hb
      rw [hlocks u hu] at h0
      cases h0
    exact ⟨rfl, fun _ => Function.update_of_ne hba ..⟩
  · have hba : b ≠ a := by
      rintro rfl
      exact hu (hone u hb)
    exact ⟨rfl, Function.update_of_ne hba .., rfl⟩
  · have hba : b ≠ a := fun h => hnst (h ▸ hb)
    exact (Function.update_of_ne hba ..).trans hbx

def Holdings.setUser (h : Holdings) (u : Option Nat) : Holdings := { h with user := u }

theorem Census.set_setUser (c : Census) (t : Nat) (u : Option Nat) :
    c.set t ((c.of t).setUser u) = { c with user := Function.update c.user t u } := by
  simp [Census.set, Census.of, Holdings.setUser]

/-- A login under a known name. That the trader has no descriptor is what the login has found. -/
theorem triple_logIn {x : Int} (hst : ∀ v, F v → v.Stored a)
    (hfd : W.apart → ∀ v, F v → v.fd a = some (-1)) (hin : ∃ fd name, Call.login fd name ∈ fs)
    (hconn : h.conn = some x) (hout : h.user = none) (hidle : h.sending = none)
    (hF : Steady W t fs h F) (hG : Steady W t fs (h.setUser (some a)) G)
    (hfact : ∀ v, F v → G { v with
      fd := Function.update v.fd a (some x)
      session := Function.update v.session t (some a) }) :
    (discipline E W).Triple t (At t fs h F) (store .fd a x)
      fun _ => At t fs (h.setUser (some a)) G := by
  refine triple_step hF (fun _ => hG) nofun ?_
  rintro s c hi rfl hframes hf e _ s' he ha
  obtain ⟨⟨y, hy⟩, hs'⟩ := exec_storeFd_shared he
  have hx : x ≠ -1 := by
    have hpos := hi.ports (hi.conn (t := t) hconn)
    omega
  have hfree : s.shared.fd a = some (-1) := by
    by_cases hap : W.apart
    · exact hfd hap _ hf
    · obtain ⟨tr, htr, rfl⟩ := Option.map_eq_some_iff.mp hy
      have hno := ha.found hap hx (hst _ hf) tr htr
      rw [hy, hno]
  have hlogin : InLogin s.shared t := by
    unfold InLogin
    rwa [hframes]
  rw [if_neg hx] at hs'
  rw [hs', Census.set_setUser]
  refine ⟨hi.logIn (hst _ hf) hfree hx hconn hout hidle, hframes, hfact _ hf, fun u hu =>
    ⟨rfl, Function.update_of_ne hu .., id, fun _ => rfl, fun {b} _ => ⟨rfl, fun hne => ?_⟩,
      fun {b} hb => ?_, fun hap hu' => absurd (hi.alone hap hu' hlogin) hu⟩⟩
  · have hba : b ≠ a := by
      rintro rfl
      exact hne hfree
    exact Function.update_of_ne hba ..
  · have hba : b ≠ a := by
      rintro rfl
      exact (hi.fresh hb).1 (hst _ hf)
    exact ⟨rfl, Function.update_of_ne hba .., rfl⟩

/-- A logout. -/
theorem triple_logOut (huser : h.user = some a) (hlock : 0 < h.locks a)
    (hin : Call.logout a ∈ fs) (hidle : h.sending = none)
    (hF : Steady W t fs h F) (hG : Steady W t fs (h.setUser none) G)
    (hfact : ∀ v, F v → G { v with
      fd := Function.update v.fd a (some (-1))
      session := Function.update v.session t none }) :
    (discipline E W).Triple t (At t fs h F) (store .fd a (-1 : Int))
      fun _ => At t fs (h.setUser none) G := by
  refine triple_step hF (fun _ => hG) nofun ?_
  rintro s c hi rfl hframes hf e _ s' he _
  obtain ⟨_, hs'⟩ := exec_storeFd_shared he
  obtain ⟨_, hst⟩ := hi.user.mp huser
  have hgone : s.shared.loggedIn t = none := hi.leaving (hframes ▸ hin)
  rw [if_pos rfl] at hs'
  rw [hs', Census.set_setUser]
  refine ⟨hi.logOut huser hlock hgone hidle, hframes, hfact _ hf, fun u hu =>
    ⟨rfl, Function.update_of_ne hu .., id, fun _ => rfl, fun {b} hb => ⟨rfl, fun _ => ?_⟩,
      fun {b} hb => ?_, fun _ _ => ⟨rfl, fun {b} _ hbx => ?_⟩⟩⟩
  · have hba : b ≠ a := by
      rintro rfl
      exact hu (hi.locks_unique hlock hb)
    exact Function.update_of_ne hba ..
  · have hba : b ≠ a := by
      rintro rfl
      exact (hi.fresh hb).1 hst
    exact ⟨rfl, Function.update_of_ne hba .., rfl⟩
  · by_cases hba : b = a
    · subst hba
      simp
    · exact (Function.update_of_ne hba ..).trans hbx

/-! ## The table -/

def Holdings.setFresh (h : Holdings) (a : Option Nat) : Holdings := { h with fresh := a }

theorem triple_mallocTrader {Q : Nat → Shared → Prop} (hF : Steady W t fs h F)
    (hQ : ∀ r, Steady W t fs (h.setFresh (some r)) (Q r))
    (hfact : ∀ v r n x k m, (∀ i b, v.slots i = some b → b ≠ r) → h.locks r = 0 → 0 ≤ k → F v →
      Q r { v with
        name := Function.update v.name r (some n)
        fd := Function.update v.fd r (some x)
        ref := Function.update v.ref r (some k)
        mutex := Function.update v.mutex r (some m) }) :
    (discipline E W).Triple t (At t fs h F) mallocTrader
      fun r => At t fs (h.setFresh (some r)) (Q r) := by
  refine triple_step hF hQ nofun ?_
  rintro s c hi rfl hframes hf e r s' he ha
  obtain ⟨hname, hfd, hmutex, junk, m, rfl, hs'⟩ := exec_mallocTrader_shared he
  have hnst : ¬ s.shared.Stored r := by
    rintro ⟨i, hi'⟩
    exact (hi.slots hi').2 hname
  have hlocks : ∀ u, c.locks u r = 0 := by
    intro u
    have h := hi.locks u r
    rw [Shared.held, hmutex] at h
    exact Nat.le_zero.mp h
  have hset : c.set t ((c.of t).setFresh (some r)) =
      { c with fresh := Function.update c.fresh t (some r) } := by
    simp [Census.set, Census.of, Holdings.setFresh]
  rw [hs', hset]
  refine ⟨hi.malloc hname hfd hmutex, hframes, hfact _ _ _ _ _ _ (fun i b hb hbr => ?_)
    (hlocks t) (ha.prudent.count r junk rfl) hf, fun u _ => ⟨rfl, rfl, id, fun {b} hb => ?_,
      fun {b} hb => ?_, fun {b} hb => ?_, fun _ _ => ⟨rfl, fun {b} hb hx => ?_⟩⟩⟩
  · exact hnst ⟨i, hbr ▸ hb⟩
  · have hbr : b ≠ r := fun h => hnst (h ▸ hb)
    exact Function.update_of_ne hbr ..
  · have hbr : b ≠ r := by
      rintro rfl
      have h0 : 0 < c.locks u b := hb
      rw [hlocks u] at h0
      cases h0
    exact ⟨Function.update_of_ne hbr .., fun _ => Function.update_of_ne hbr ..⟩
  · have hbr : b ≠ r := by
      rintro rfl
      exact (hi.fresh hb).2.1 hname
    exact ⟨Function.update_of_ne hbr .., Function.update_of_ne hbr ..,
      Function.update_of_ne hbr ..⟩
  · have hbr : b ≠ r := fun h => hnst (h ▸ hb)
    exact (Function.update_of_ne hbr ..).trans hx

/-- The name is not in the table. -/
def Missing (W : Watch) (name : CString) (v : Shared) : Prop :=
  W.apart → ∀ j b n, v.slots j = some b → v.name b = some n → strcmpEq n name = false

/-- A login has logged in. -/
def Holdings.published (h : Holdings) (a : Nat) : Holdings :=
  { h.setRef a 1 with fresh := .none, user := some a }

/-- A login under a new name: that the slot is free and the name is not in the table is what the
login has found. -/
theorem triple_publish {i : Nat} {x : Int} {n : CString} (hmine : h.fresh = some a)
    (hlt : i < maxTraders) (hfree : W.apart → ∀ v, F v → v.slots i = none)
    (hmissing : ∀ v, F v → Missing W n v) (hname : ∀ v, F v → v.name a = some n)
    (hfd : ∀ v, F v → v.fd a = some x) (hses : ∀ v, F v → v.session t = some a)
    (href : ∀ v, F v → ∃ r, v.ref a = some r ∧ 2 ≤ r)
    (hin : ∃ fd name, Call.login fd name ∈ fs) (hconn : h.conn = some x)
    (hidle : h.sending = none) (hF : Steady W t fs h F)
    (hG : Steady W t fs (h.published a) G)
    (hfact : ∀ v, v.slots i = none → F v →
      G { v with slots := Function.update v.slots i (some a) }) :
    (discipline E W).Triple t (At t fs h F) (setSlot i (some a))
      fun _ => At t fs (h.published a) G := by
  refine triple_step hF (fun _ => hG) nofun ?_
  rintro s c hi rfl hframes hf e _ s' he ha
  have hs' := exec_setSlot_shared he
  have hmine' : c.fresh t = some a := hmine
  obtain ⟨hnst, _, hone, _, _⟩ := hi.fresh hmine'
  have hslot : s.shared.slots i = none := by
    by_cases hap : W.apart
    · exact hfree hap _ hf
    · exact (ha.found hap).1
  have hclash : ∀ j b n m, s.shared.slots j = some b → s.shared.name b = some n →
      s.shared.name a = some m → strcmpEq n m = false := by
    intro j b n m hb hn hm
    by_cases hap : W.apart
    · obtain rfl := Option.some.inj ((hname _ hf).symm.trans hm)
      exact hmissing _ hf hap j b n hb hn
    · obtain ⟨tr, htr, rfl⟩ := Option.map_eq_some_iff.mp hn
      obtain ⟨new, hnew, rfl⟩ := Option.map_eq_some_iff.mp hm
      exact (ha.found hap).2 j b tr new hb htr hnew
  have hlogin : InLogin s.shared t := by
    unfold InLogin
    rwa [hframes]
  obtain ⟨r, hr, hle⟩ := href _ hf
  have hset : c.set t ((c.of t).published a) =
      { c with
        refs := Function.update c.refs t (Function.update (c.refs t) a 1)
        fresh := Function.update c.fresh t none
        user := Function.update c.user t (some a) } := by
    simp [Census.set, Census.of, Holdings.published, Holdings.setRef]
  have hold : ∀ {j b}, s.shared.slots j = some b →
      Function.update s.shared.slots i (some a) j = some b := by
    intro j b hb
    have hj : j ≠ i := by
      rintro rfl
      rw [hslot] at hb
      cases hb
    rwa [Function.update_of_ne hj]
  rw [hs', hset]
  refine ⟨hi.publish hmine' hslot hlt hclash (hfd _ hf) (hses _ hf) hconn hr hle hidle, hframes,
    hfact _ hslot hf, fun u hu => ⟨rfl, rfl, hold, fun _ => rfl, fun _ => ⟨rfl, fun _ => rfl⟩,
      fun _ => ⟨rfl, rfl, rfl⟩, fun hap hu' => absurd (hi.alone hap hu' hlogin) hu⟩⟩

/-! ## Connections -/

def Holdings.setConn (h : Holdings) (x : Option Int) : Holdings := { h with conn := x }

theorem Census.set_setConn (c : Census) (t : Nat) (x : Option Int) :
    c.set t ((c.of t).setConn x) = { c with conn := Function.update c.conn t x } := by
  simp [Census.set, Census.of, Holdings.setConn]

theorem triple_close {x : Int} (hconn : h.conn = some x) (hout : h.user = none)
    (hidle : h.sending = none) (hF : Steady W t fs h F)
    (hG : Steady W t fs (h.setConn none) G)
    (hfact : ∀ v, F v → G { v with
      owner := Function.update v.owner x none
      output := Function.update v.output x none }) :
    (discipline E W).Triple t (At t fs h F) (close x) fun _ => At t fs (h.setConn none) G := by
  refine triple_step hF (fun _ => hG) nofun ?_
  rintro s c hi rfl hframes hf e _ s' he _
  rw [exec_close_shared he, Census.set_setConn]
  exact ⟨hi.close hconn hout hidle, hframes, hfact _ hf,
    fun u _ => .of_eq rfl rfl rfl rfl rfl rfl⟩

/-! ## Calls -/

@[simp] theorem Census.of_set_self (c : Census) (t : Nat) (h : Holdings) :
    (c.set t h).of t = h := by
  simp [Census.set, Census.of]

@[simp] theorem Census.set_set (c : Census) (t : Nat) (h h' : Holdings) :
    (c.set t h).set t h' = c.set t h' := by
  simp [Census.set]

/-- What a thread has after it has entered a function: an outside holder that calls `trader_unref`
brings its reference. -/
def Holdings.entering (h : Holdings) (call : Call) (fs : List Call) : Holdings :=
  match call, fs with
  | .unref a, [] => h.setRef a (h.refs a + 1)
  | _, _ => h

/-- What a thread has after it has left a function: an outside holder that has called
`trader_ref` takes its reference along. -/
def Holdings.leaving (h : Holdings) (call : Call) (fs : List Call) : Holdings :=
  match call, fs with
  | .ref a, [] => h.setRef a (h.refs a - 1)
  | _, _ => h

theorem Inv.enter {c : Census} {call : Call} (hi : Inv W v c) (hidle : c.sending t = none)
    (hlogin : W.apart → ∀ fd name, call = .login fd name → ∀ u, ¬ InLogin v u)
    (hout : ∀ a, call = .unref a → v.frames t = [] → 0 < v.outstanding a) :
    Inv W (v.enter t call) (c.set t ((c.of t).entering call (v.frames t))) := by
  have hframes : Inv W { v with
      frames := Function.update v.frames t (call :: v.frames t)
      loggedIn := Function.update v.loggedIn t ((v.enter t call).loggedIn t)
      returned := v.returned
      sends := (v.enter t call).sends } c := by
    refine hi.setFrames hidle ?_ ?_ ?_ ?_ ?_ fun _ ha => hi.returned ha
    · rintro hap ⟨fd, name, hmem⟩ u hu
      rcases List.mem_cons.mp hmem with heq | hmem
      · exact absurd hu (hlogin hap fd name heq.symm u)
      · exact hi.alone hap hu ⟨fd, name, hmem⟩
    · intro a hdr data hmem
      rcases List.mem_cons.mp hmem with rfl | hmem
      · simp [Shared.enter]
      · have h := hi.called hmem
        cases call <;> simp [Shared.enter, h]
    · intro q hq
      cases call <;> simp [Shared.enter, hq]
    · intro a ha
      cases call <;> first | exact hi.logged ha | simp [Shared.enter] at ha
    · intro a hmem
      rcases List.mem_cons.mp hmem with rfl | hmem
      · simp [Shared.enter]
      · have h := hi.leaving hmem
        cases call <;> simp [Shared.enter, h]
  have hlogged : Function.update v.loggedIn t ((v.enter t call).loggedIn t) =
      (v.enter t call).loggedIn := by
    cases call <;> simp [Shared.enter]
  rw [hlogged] at hframes
  by_cases hunref : ∃ a, call = .unref a ∧ v.frames t = []
  · obtain ⟨a, rfl, hnil⟩ := hunref
    have hpos := hout a rfl hnil
    have hst : v.Stored a := by
      by_contra hno
      have h0 := (hi.unseen hno).1
      omega
    have hinv := hframes.recount (t := t) (a := a) (ρ := v.ref a) (m := v.outstanding a - 1)
      (n := c.refs t a + 1) (fun _ r hr => ⟨r, hr, by
        change r + (c.refs t a + 1 : Nat) + (v.outstanding a - 1 : Nat) ≤
          r + c.refs t a + v.outstanding a
        omega⟩) (fun hno => absurd hst hno)
    rw [Function.update_eq_self] at hinv
    rw [hnil, Holdings.entering, Census.set_setRef]
    have hshape : v.enter t (.unref a) = { v with
        frames := Function.update v.frames t (.unref a :: v.frames t)
        outstanding := Function.update v.outstanding a (v.outstanding a - 1) } := by
      simp [Shared.enter, hnil]
    rw [hshape]
    exact hinv
  · have hsame : (c.of t).entering call (v.frames t) = c.of t := by
      unfold Holdings.entering
      split
      · rename_i a hnil
        exact absurd ⟨a, rfl, hnil⟩ hunref
      · rfl
    have houtstanding : (v.enter t call).outstanding = v.outstanding := by
      simp only [Shared.enter]
      split
      · rename_i a hnil
        exact absurd ⟨a, rfl, hnil⟩ hunref
      · rfl
    rw [hsame, Census.set_of]
    have hshape : v.enter t call = { v with
        frames := Function.update v.frames t (call :: v.frames t)
        outstanding := (v.enter t call).outstanding
        loggedIn := (v.enter t call).loggedIn
        sends := (v.enter t call).sends } := rfl
    rw [hshape, houtstanding]
    exact hframes

theorem Inv.leave {c : Census} {call : Call} {rest : List Call} {x : Value} (hi : Inv W v c)
    (hcall : v.frames t = call :: rest) (hidle : c.sending t = none)
    (href : ∀ a, call = .ref a → rest = [] → 0 < c.refs t a)
    (hlogin : ∀ fd name, call = .login fd name → rest = [] ∧
      ∀ a, x = .trader (some a) → c.user t = some a ∧ v.Named a name) :
    Inv W (v.leave t call rest x) (c.set t ((c.of t).leaving call rest)) := by
  have hmem : ∀ {q}, q ∈ rest → q ∈ v.frames t := by
    intro q hq
    rw [hcall]
    exact List.mem_cons_of_mem _ hq
  have hplain : (∀ fd name r, call = .login fd name → x ≠ .trader r) →
      (v.leave t call rest x).loggedIn = v.loggedIn ∧
        (v.leave t call rest x).returned = v.returned := by
    intro hno
    cases call with
    | login fd name =>
      cases x with
      | trader r => exact absurd rfl (hno fd name r rfl)
      | void => exact ⟨rfl, rfl⟩
      | int i => exact ⟨rfl, rfl⟩
    | _ => exact ⟨rfl, rfl⟩
  have hframes : Inv W { v with
      frames := Function.update v.frames t rest
      loggedIn := Function.update v.loggedIn t ((v.leave t call rest x).loggedIn t)
      returned := (v.leave t call rest x).returned
      sends := v.sends } c := by
    by_cases hlog : ∃ fd name r, call = .login fd name ∧ x = .trader r
    · obtain ⟨fd, name, r, rfl, rfl⟩ := hlog
      obtain ⟨rfl, huser⟩ := hlogin fd name rfl
      refine hi.setFrames hidle ?_ nofun (fun _ hq => hq) ?_ nofun ?_
      · rintro _ ⟨_, _, hno⟩
        cases hno
      · intro a ha
        refine (huser a ?_).1
        rw [show r = some a by simpa [Shared.leave] using ha]
      · intro q hq
        cases r with
        | none => exact hi.returned hq
        | some b =>
          rcases List.mem_cons.mp hq with rfl | hq
          · exact ⟨(hi.user.mp (huser b rfl).1).2, (huser b rfl).2⟩
          · exact hi.returned hq
    · obtain ⟨hlogged, hret⟩ := hplain fun fd name r hc hx => hlog ⟨fd, name, r, hc, hx⟩
      rw [hlogged, hret]
      refine hi.setFrames hidle ?_ ?_ (fun _ hq => hq) (fun a ha => hi.logged ha) ?_
        fun _ ha => hi.returned ha
      · rintro hap ⟨fd, name, hin⟩ u hu
        exact hi.alone hap hu ⟨fd, name, hmem hin⟩
      · exact fun a hdr data hin => hi.called (hmem hin)
      · exact fun a hin => hi.leaving (hmem hin)
  have hlogged : Function.update v.loggedIn t ((v.leave t call rest x).loggedIn t) =
      (v.leave t call rest x).loggedIn := by
    cases call <;> try exact Function.update_eq_self ..
    cases x <;> simp [Shared.leave]
  rw [hlogged] at hframes
  by_cases hisref : ∃ a, call = .ref a ∧ rest = []
  · obtain ⟨a, rfl, rfl⟩ := hisref
    have hpos := href a rfl rfl
    have hst : v.Stored a := by
      by_contra hno
      have h0 := (hi.unseen hno).2 t
      omega
    have hinv := hframes.recount (t := t) (a := a) (ρ := v.ref a) (m := v.outstanding a + 1)
      (n := c.refs t a - 1) (fun _ r hr => ⟨r, hr, by
        change r + (c.refs t a - 1 : Nat) + (v.outstanding a + 1 : Nat) ≤
          r + c.refs t a + v.outstanding a
        omega⟩) (fun hno => absurd hst hno)
    rw [Function.update_eq_self] at hinv
    rw [Holdings.leaving, Census.set_setRef]
    exact hinv
  · have hsame : (c.of t).leaving call rest = c.of t := by
      unfold Holdings.leaving
      split
      · rename_i a
        exact absurd ⟨a, rfl, rfl⟩ hisref
      · rfl
    have houtstanding : (v.leave t call rest x).outstanding = v.outstanding := by
      simp only [Shared.leave]
      split
      · rename_i a
        exact absurd ⟨a, rfl, rfl⟩ hisref
      · rfl
    rw [hsame, Census.set_of]
    have hshape : v.leave t call rest x = { v with
        frames := Function.update v.frames t rest
        outstanding := (v.leave t call rest x).outstanding
        loggedIn := (v.leave t call rest x).loggedIn
        returned := (v.leave t call rest x).returned } := rfl
    rw [hshape, houtstanding]
    exact hframes

theorem Shared.enter_kept (v : Shared) (call : Call) {u : Nat} {k : Holdings} (hu : u ≠ t) :
    Kept W u k v (v.enter t call) :=
  .of_eq (Function.update_of_ne hu ..) rfl rfl rfl rfl rfl

theorem Shared.leave_kept (v : Shared) (call : Call) (rest : List Call) (x : Value) {u : Nat}
    {k : Holdings} (hu : u ≠ t) : Kept W u k v (v.leave t call rest x) :=
  .of_eq (Function.update_of_ne hu ..) rfl rfl rfl rfl rfl

theorem triple_enter {call : Call} (hidle : h.sending = none) (hF : Steady W t fs h F)
    (hG : Steady W t (call :: fs) (h.entering call fs) G)
    (hfact : ∀ v, F v → G (v.enter t call)) :
    (discipline E W).Triple t (At t fs h F) (enter call)
      fun _ => At t (call :: fs) (h.entering call fs) G := by
  refine triple_step hF (fun _ => hG) nofun ?_
  rintro s c hi rfl rfl hf e _ s' he ha
  rw [exec_enter he]
  refine ⟨hi.enter hidle ?_ ?_, ?_, hfact _ hf, fun u hu => Shared.enter_kept _ _ hu⟩
  · rintro hap fd name rfl
    exact ha.apart hap fd name rfl
  · rintro a rfl hnil
    exact ha.prudent.balanced a rfl hnil
  · exact Function.update_self ..

/-- A function is left; a mutex that is not released is no longer known to be held. -/
theorem triple_leave {call : Call} {x : Value} {l : Nat} (hl : l ≤ h.locks a)
    (hidle : h.sending = none) (href : ∀ a, call = .ref a → fs = [] → 0 < h.refs a)
    (hlogin : ∀ fd name, call = .login fd name → fs = [] ∧
      ∀ a, x = .trader (some a) → h.user = some a ∧ ∀ v, F v → v.Named a name)
    (hF : Steady W t (call :: fs) h F)
    (hG : Steady W t fs ((h.leaving call fs).setLock a l) G)
    (hfact : ∀ v, F v → G (v.leave t call fs x)) :
    (discipline E W).Triple t (At t (call :: fs) h F) (leave x)
      fun _ => At t fs ((h.leaving call fs).setLock a l) G := by
  refine triple_step hF (fun _ => hG) nofun ?_
  rintro s c hi rfl hframes hf e _ s' he ha
  rw [exec_leave hframes he]
  refine ⟨?_, ?_, hfact _ hf, fun u hu => Shared.leave_kept _ _ _ _ hu⟩
  · have hinv := hi.leave (x := x) hframes hidle href fun fd name hcall =>
      ⟨(hlogin fd name hcall).1, fun a ha =>
        ⟨((hlogin fd name hcall).2 a ha).1, ((hlogin fd name hcall).2 a ha).2 _ hf⟩⟩
    have hlocks : ((c.of t).leaving call fs).locks = (c.of t).locks := by
      unfold Holdings.leaving
      split <;> rfl
    have hsending : ((c.of t).leaving call fs).sending = none := by
      unfold Holdings.leaving
      split
      · exact hidle
      · exact hidle
    have hdrop := hinv.dropLock (t := t) (a := a) (l := l) ?_ ?_
    · rw [← Census.set_setLock, Census.of_set_self, Census.set_set] at hdrop
      exact hdrop
    · change l ≤ ((c.set t ((c.of t).leaving call fs)).of t).locks a
      rw [Census.of_set_self, hlocks]
      exact hl
    · change ((c.set t ((c.of t).leaving call fs)).of t).sending = none
      rw [Census.of_set_self, hsending]
  · exact Function.update_self ..

end BourseServer.Sessions
