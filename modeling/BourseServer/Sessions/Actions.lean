import BourseServer.Sessions.Discipline

/-!
# What each action does to the sessions

For each kind of action, when it keeps the invariant and what the other threads rely on.
-/
namespace BourseServer.Sessions

open Concurrency

variable {E : Exchange} {W : Watch} {t a : Nat} {v v' : Shared} {c : Census}

/-! ## Consequences of the invariant -/

theorem heldBy_of_lock_of_ne {m m' : Mutex} {u : Nat} (h : m.lock t = some m') (hu : u ≠ t) :
    m.heldBy u = 0 := by
  unfold Mutex.lock at h
  split_ifs at h with hd ho
  · simp [Mutex.heldBy, hd]
  · exact Mutex.heldBy_of_owner_ne ho hu

theorem Inv.locks_le (hi : Inv W v c) {m : Mutex} (hm : v.mutex a = some m) (u : Nat) :
    c.locks u a ≤ m.heldBy u := by
  have h := hi.locks u a
  rwa [Shared.held, hm] at h

/-- A mutex is held by one thread. -/
theorem Inv.locks_unique (hi : Inv W v c) {u : Nat} (ht : 0 < c.locks t a) (hu : 0 < c.locks u a) :
    u = t := by
  by_contra hne
  have ht' := hi.locks t a
  have hu' := hi.locks u a
  unfold Shared.held at ht' hu'
  cases hm : v.mutex a with
  | none =>
    simp only [hm, Option.elim_none] at ht'
    omega
  | some m =>
    simp only [hm, Option.elim_some] at ht' hu'
    have howner : m.owner = some t := by
      by_contra hno
      have h0 : m.heldBy t = 0 := if_neg hno
      omega
    have h0 := Mutex.heldBy_of_owner_ne howner hne
    omega

/-- The trader that has a descriptor is the one as which its thread is logged in. -/
theorem Inv.owner_of_fd (hi : Inv W v c) {x : Int} (hs : v.Stored a) (hx : v.fd a = some x)
    (hne : x ≠ -1) : ∃ u, v.session u = some a ∧ c.user u = some a ∧ v.owner x = some u := by
  obtain ⟨u, hu, hconn⟩ := hi.served hs hx hne
  exact ⟨u, hu, hi.user.mpr ⟨hu, hs⟩, hi.conn hconn⟩

/-- The connection to whose descriptor thread `t` sends, and who sends to it otherwise. -/
theorem Inv.owner_of_sends (hi : Inv W v c) {x : Int} {p : Packet} (h : Sends v c t x p) :
    (∃ a u, 0 < c.locks t a ∧ v.session u = some a ∧ c.user u = some a ∧ v.owner x = some u) ∨
      c.user t = none ∧ v.owner x = some t := by
  obtain ⟨hne, ⟨a, _, _, _, _, _, hlock, hst, hx⟩ | ⟨_, _, hconn, hout⟩⟩ := h
  · obtain ⟨u, hses, huser, hown⟩ := hi.owner_of_fd hst hx hne
    exact .inl ⟨a, u, hlock, hses, huser, hown⟩
  · exact .inr ⟨hout, hi.conn hconn⟩

/-- A descriptor is sent to by one thread. -/
theorem Inv.sends_unique (hi : Inv W v c) {u : Nat} {x : Int} {p q : Packet}
    (ht : Sends v c t x p) (hu : Sends v c u x q) : u = t := by
  rcases hi.owner_of_sends ht with ⟨a, o, hlock, hses, huser, hown⟩ | ⟨hout, hown⟩
  · rcases hi.owner_of_sends hu with ⟨b, o', hlock', hses', _, hown'⟩ | ⟨hout', hown'⟩
    · obtain rfl := Option.some.inj (hown.symm.trans hown')
      obtain rfl := Option.some.inj (hses.symm.trans hses')
      exact hi.locks_unique hlock hlock'
    · obtain rfl := Option.some.inj (hown.symm.trans hown')
      rw [huser] at hout'
      cases hout'
  · rcases hi.owner_of_sends hu with ⟨b, o', _, _, huser', hown'⟩ | ⟨_, hown'⟩
    · obtain rfl := Option.some.inj (hown.symm.trans hown')
      rw [huser'] at hout
      cases hout
    · exact Option.some.inj (hown'.symm.trans hown)

/-- Whoever may send to a descriptor sends to an open one. -/
theorem Inv.open_of_sends (hi : Inv W v c) {x : Int} {p : Packet} (h : Sends v c t x p) :
    v.owner x ≠ none := by
  rcases hi.owner_of_sends h with ⟨_, u, _, _, _, hown⟩ | ⟨_, hown⟩
  · simp [hown]
  · simp [hown]

theorem Inv.genuine_of_sends (hi : Inv W v c) {x : Int} {p : Packet} (h : Sends v c t x p) :
    Genuine v p := by
  obtain ⟨_, ⟨a, hdr, data, fs, hframes, hp, _⟩ | ⟨_, hp, _⟩⟩ := h
  · exact .inl ⟨(hdr, data), hi.called (a := a) (t := t) (by simp [hframes]), hp⟩
  · exact .inr hp

theorem Sends.of {c' : Census} {x : Int} {p : Packet} (h : Sends v c t x p)
    (hframes : v'.frames t = v.frames t) (hlock : ∀ b, 0 < c.locks t b → 0 < c'.locks t b)
    (hst : ∀ b, v.Stored b → v'.Stored b)
    (hfd : ∀ b, 0 < c.locks t b → v.Stored b → x ≠ -1 → v.fd b = some x → v'.fd b = some x)
    (hconn : c.conn t = some x → c.user t = none → c'.conn t = some x ∧ c'.user t = none) :
    Sends v' c' t x p := by
  obtain ⟨hne, ⟨b, hdr, data, fs, hf, hp, hl, hb, hx⟩ | ⟨hf, hp, hc, hu⟩⟩ := h
  · exact ⟨hne, .inl ⟨b, hdr, data, fs, hframes.trans hf, hp, hlock b hl, hst b hb,
      hfd b hl hb hne hx⟩⟩
  · exact ⟨hne, .inr ⟨hframes.trans hf, hp, hconn hc hu⟩⟩

theorem ne_of_sending {u : Nat} {m : Sending} (ht : c.sending t = none)
    (hu : c.sending u = some m) : u ≠ t := by
  rintro rfl
  rw [ht] at hu
  cases hu

/-! ## Mutexes -/

theorem Inv.setMutex (hi : Inv W v c) {m : Mutex} {l : Nat} (hl : l ≤ m.heldBy t)
    (hother : ∀ u, u ≠ t → c.locks u a ≤ m.heldBy u) (hfresh : ∀ u, u ≠ t → c.fresh u ≠ some a)
    (hidle : c.sending t = none) :
    Inv W { v with mutex := Function.update v.mutex a (some m) }
      { c with locks := Function.update c.locks t (Function.update (c.locks t) a l) } :=
  { hi with
    fresh := by
      intro u b hb
      obtain ⟨hst, hname, hone, hses, hlocks⟩ := hi.fresh hb
      refine ⟨hst, hname, hone, hses, fun x hx => ?_⟩
      by_cases hxt : x = t
      · subst hxt
        have hba : b ≠ a := by
          rintro rfl
          exact hfresh u (Ne.symm hx) hb
        simp [hba, hlocks x hx]
      · simp [hxt, hlocks x hx]
    locks := by
      intro u b
      have h := hi.locks u b
      simp only [Shared.held] at h ⊢
      by_cases hb : b = a
      · subst hb
        by_cases hu : u = t
        · subst hu
          simpa using hl
        · simpa [hu] using hother u hu
      · by_cases hu : u = t
        · subst hu
          simpa [hb] using h
        · simpa [hu, hb] using h
    sends := by
      intro hw u m' hm'
      have hut : u ≠ t := ne_of_sending hidle hm'
      obtain ⟨hrest, p, hp, hsend⟩ := hi.sends hw hm'
      refine ⟨hrest, p, hp, hsend.of rfl (fun b hb => ?_) (fun _ hb => hb)
        (fun _ _ _ _ hx => hx) fun h h' => ⟨h, h'⟩⟩
      simpa [hut] using hb }

/-- A thread is no longer known to hold a mutex. -/
theorem Inv.dropLock (hi : Inv W v c) {l : Nat} (hl : l ≤ c.locks t a)
    (hidle : c.sending t = none) :
    Inv W v { c with locks := Function.update c.locks t (Function.update (c.locks t) a l) } := by
  have hle : ∀ u b, Function.update c.locks t (Function.update (c.locks t) a l) u b ≤
      c.locks u b := by
    intro u b
    by_cases hu : u = t
    · subst hu
      by_cases hb : b = a
      · subst hb
        simpa using hl
      · simp [hb]
    · simp [hu]
  exact { hi with
    fresh := by
      intro u b hb
      obtain ⟨hst, hname, hone, hses, hlocks⟩ := hi.fresh hb
      exact ⟨hst, hname, hone, hses,
        fun u' hu' => Nat.le_zero.mp ((hle u' b).trans (hlocks u' hu').le)⟩
    locks := fun u b => (hle u b).trans (hi.locks u b)
    sends := by
      intro hw u m hm
      have hut : u ≠ t := ne_of_sending hidle hm
      obtain ⟨hrest, p, hp, hsend⟩ := hi.sends hw hm
      refine ⟨hrest, p, hp, hsend.of rfl (fun b hb => ?_) (fun _ hb => hb)
        (fun _ _ _ _ hx => hx) fun h h' => ⟨h, h'⟩⟩
      simpa [hut] using hb }

/-! ## Counts, names and descriptors -/

theorem Inv.recount (hi : Inv W v c) {ρ : Option Int} {m n : Nat}
    (hstored : v.Stored a → ∀ r', ρ = some r' → ∃ r, v.ref a = some r ∧
      r + n + m ≤ r' + c.refs t a + v.outstanding a)
    (hunseen : ¬ v.Stored a → m = 0 ∧ n = 0) :
    Inv W { v with
        ref := Function.update v.ref a ρ
        outstanding := Function.update v.outstanding a m }
      { c with refs := Function.update c.refs t (Function.update (c.refs t) a n) } := by
  have hself : (fun u => Function.update c.refs t (Function.update (c.refs t) a n) u a) =
      Function.update (fun u => c.refs u a) t n := by
    funext u
    by_cases hu : u = t
    · subst hu
      simp
    · simp [hu]
  have hother : ∀ b, b ≠ a →
      (fun u => Function.update c.refs t (Function.update (c.refs t) a n) u b) =
        fun u => c.refs u b := by
    intro b hb
    funext u
    by_cases hu : u = t
    · subst hu
      simp [hb]
    · simp [hu]
  exact { hi with
    counted := by
      intro b r hb hr
      change Covers (r - 1 - (Function.update v.outstanding a m b : Nat))
        fun u => Function.update c.refs t (Function.update (c.refs t) a n) u b
      by_cases hba : b = a
      · subst hba
        simp only [Function.update_self] at hr
        obtain ⟨r₀, hr₀, hle⟩ := hstored hb r hr
        rw [hself, Function.update_self]
        refine (hi.counted hb hr₀).update ?_
        omega
      · simp only [Function.update_of_ne hba] at hr
        rw [hother b hba, Function.update_of_ne hba]
        exact hi.counted hb hr
    unseen := by
      intro b hb
      obtain ⟨hout, hzero⟩ := hi.unseen hb
      change Function.update v.outstanding a m b = 0 ∧
        ∀ u, Function.update c.refs t (Function.update (c.refs t) a n) u b = 0
      by_cases hba : b = a
      · subst hba
        obtain ⟨rfl, rfl⟩ := hunseen hb
        refine ⟨Function.update_self .., fun u => (congrFun hself u).trans ?_⟩
        by_cases hu : u = t
        · subst hu
          simp
        · simpa [hu] using hzero u
      · refine ⟨?_, fun u => (congrFun (hother b hba) u).trans (hzero u)⟩
        rwa [Function.update_of_ne hba] }

theorem Inv.setName (hi : Inv W v c) {x : CString} (hst : ¬ v.Stored a) :
    Inv W { v with name := Function.update v.name a (some x) } c := by
  have hname : ∀ {i b}, v.slots i = some b → Function.update v.name a (some x) b = v.name b := by
    intro i b hb
    have hne : b ≠ a := by
      rintro rfl
      exact hst ⟨i, hb⟩
    exact Function.update_of_ne hne ..
  exact { hi with
    slots := by
      intro i b hb
      obtain ⟨hlt, hne⟩ := hi.slots hb
      refine ⟨hlt, ?_⟩
      change Function.update v.name a (some x) b ≠ none
      rwa [hname hb]
    names := by
      intro i j b b' y y' hb hb' hy hy' heq
      exact hi.names hb hb' ((hname hb).symm.trans hy) ((hname hb').symm.trans hy') heq
    fresh := by
      intro u b hb
      obtain ⟨hnot, hne, hrest⟩ := hi.fresh hb
      refine ⟨hnot, ?_, hrest⟩
      by_cases hba : b = a
      · subst hba
        simp
      · simpa [hba] using hne
    returned := by
      intro n b hb
      obtain ⟨⟨i, hi'⟩, y, hy, heq⟩ := hi.returned hb
      exact ⟨⟨i, hi'⟩, y, (hname hi').trans hy, heq⟩ }

/-- A login under a known name: the trader had no descriptor. -/
theorem Inv.logIn (hi : Inv W v c) {x : Int} (hst : v.Stored a) (hfd : v.fd a = some (-1))
    (hx : x ≠ -1) (hconn : c.conn t = some x) (hout : c.user t = none)
    (hidle : c.sending t = none) :
    Inv W { v with
        fd := Function.update v.fd a (some x)
        session := Function.update v.session t (some a) }
      { c with user := Function.update c.user t (some a) } := by
  have hnobody : ∀ u, v.session u ≠ some a := by
    intro u hu
    obtain ⟨y, hy, hne⟩ := hi.session hu
    rw [hfd] at hy
    exact hne (Option.some.inj hy).symm
  have hnot : ∀ b, v.Stored b → v.session t ≠ some b := by
    intro b hb ht
    rw [hi.user.mpr ⟨ht, hb⟩] at hout
    cases hout
  exact { hi with
    session := by
      intro u b hb
      by_cases hu : u = t
      · subst hu
        obtain rfl : a = b := by simpa using hb
        exact ⟨x, by simp, hx⟩
      · have hb' : v.session u = some b := by simpa [hu] using hb
        have hba : b ≠ a := fun h => hnobody u (h ▸ hb')
        simpa [hba] using hi.session hb'
    unique := by
      intro u u' b hb hb'
      by_cases hu : u = t
      · subst hu
        obtain rfl : a = b := by simpa using hb
        by_contra hne
        exact hnobody u' (by simpa [Ne.symm hne] using hb')
      · have hses : v.session u = some b := by simpa [hu] using hb
        by_cases hu' : u' = t
        · subst hu'
          obtain rfl : a = b := by simpa using hb'
          exact absurd hses (hnobody u)
        · exact hi.unique hses (by simpa [hu'] using hb')
    user := by
      intro u b
      change Function.update c.user t (some a) u = some b ↔
        Function.update v.session t (some a) u = some b ∧ v.Stored b
      by_cases hu : u = t
      · subst hu
        simp only [Function.update_self, Option.some.injEq]
        exact ⟨fun h => ⟨h, h ▸ hst⟩, And.left⟩
      · simp only [Function.update_of_ne hu]
        exact hi.user
    served := by
      intro b y hb hy hne
      by_cases hba : b = a
      · subst hba
        obtain rfl : x = y := by simpa using hy
        exact ⟨t, by simp, hconn⟩
      · obtain ⟨u, hu, hcu⟩ := hi.served hb (by simpa [hba] using hy) hne
        have hut : u ≠ t := by
          rintro rfl
          exact hnot b hb hu
        exact ⟨u, by simpa [hut] using hu, hcu⟩
    fresh := by
      intro u b hb
      obtain ⟨hnst, hname, hone, hses, hlocks⟩ := hi.fresh hb
      refine ⟨hnst, hname, hone, fun u' hu' => ?_, hlocks⟩
      by_cases hut : u' = t
      · subst hut
        obtain rfl : a = b := by simpa using hu'
        exact absurd hst hnst
      · exact hses u' (by simpa [hut] using hu')
    logged := by
      intro u b hb
      have h := hi.logged hb
      have hut : u ≠ t := by
        rintro rfl
        rw [h] at hout
        cases hout
      simpa [hut] using h
    sends := by
      intro hw u m hm
      have hut : u ≠ t := ne_of_sending hidle hm
      obtain ⟨hrest, p, hp, hsend⟩ := hi.sends hw hm
      refine ⟨hrest, p, hp, hsend.of rfl (fun b hb => hb) (fun _ hb => hb) (fun b _ _ hne hb => ?_)
        fun h h' => ⟨h, by simpa [hut] using h'⟩⟩
      have hba : b ≠ a := by
        rintro rfl
        rw [hfd] at hb
        exact hne (Option.some.inj hb).symm
      simpa [hba] using hb }

/-- A new trader gets its descriptor. -/
theorem Inv.setFreshFd (hi : Inv W v c) {x : Int} (hmine : c.fresh t = some a) (hx : x ≠ -1)
    (hout : c.user t = none) :
    Inv W { v with
        fd := Function.update v.fd a (some x)
        session := Function.update v.session t (some a) } c := by
  obtain ⟨hnst, _, _, hses, _⟩ := hi.fresh hmine
  have hother : ∀ b, v.Stored b → b ≠ a := fun b hb h => hnst (h ▸ hb)
  have hnot : ∀ b, v.Stored b → v.session t ≠ some b := by
    intro b hb ht
    rw [hi.user.mpr ⟨ht, hb⟩] at hout
    cases hout
  exact { hi with
    session := by
      intro u b hb
      by_cases hu : u = t
      · subst hu
        obtain rfl : a = b := by simpa using hb
        exact ⟨x, by simp, hx⟩
      · have hb' : v.session u = some b := by simpa [hu] using hb
        have hba : b ≠ a := fun h => hu (hses u (h ▸ hb'))
        simpa [hba] using hi.session hb'
    unique := by
      intro u u' b hb hb'
      by_cases hu : u = t
      · subst hu
        obtain rfl : a = b := by simpa using hb
        by_contra hne
        exact hne (hses u' (by simpa [Ne.symm hne] using hb')).symm
      · have hses' : v.session u = some b := by simpa [hu] using hb
        by_cases hu' : u' = t
        · subst hu'
          obtain rfl : a = b := by simpa using hb'
          exact absurd (hses u hses') hu
        · exact hi.unique hses' (by simpa [hu'] using hb')
    user := by
      intro u b
      change c.user u = some b ↔ Function.update v.session t (some a) u = some b ∧ v.Stored b
      by_cases hu : u = t
      · subst hu
        simp only [Function.update_self, Option.some.injEq, hout]
        exact ⟨nofun, fun h => absurd (h.1 ▸ h.2) hnst⟩
      · simp only [Function.update_of_ne hu]
        exact hi.user
    served := by
      intro b y hb hy hne
      obtain ⟨u, hu, hcu⟩ := hi.served hb (by simpa [hother b hb] using hy) hne
      have hut : u ≠ t := by
        rintro rfl
        exact hnot b hb hu
      exact ⟨u, by simpa [hut] using hu, hcu⟩
    fresh := by
      intro u b hb
      obtain ⟨hnst', hname, hone, hses', hlocks⟩ := hi.fresh hb
      refine ⟨hnst', hname, hone, fun u' hu' => ?_, hlocks⟩
      by_cases hut : u' = t
      · subst hut
        obtain rfl : a = b := by simpa using hu'
        exact hone u' hmine
      · exact hses' u' (by simpa [hut] using hu')
    sends := by
      intro hw u m hm
      obtain ⟨hrest, p, hp, hsend⟩ := hi.sends hw hm
      refine ⟨hrest, p, hp, hsend.of rfl (fun b hb => hb) (fun _ hb => hb) (fun b _ hb _ hbx => ?_)
        fun h h' => ⟨h, h'⟩⟩
      simpa [hother b hb] using hbx }

/-- A logout takes the descriptor away, under the mutex. -/
theorem Inv.logOut (hi : Inv W v c) (huser : c.user t = some a) (hlock : 0 < c.locks t a)
    (hgone : v.loggedIn t = none) (hidle : c.sending t = none) :
    Inv W { v with
        fd := Function.update v.fd a (some (-1))
        session := Function.update v.session t none }
      { c with user := Function.update c.user t none } := by
  obtain ⟨hses, hst⟩ := hi.user.mp huser
  have hother : ∀ {u b}, Function.update v.session t none u = some b →
      u ≠ t ∧ v.session u = some b ∧ b ≠ a := by
    intro u b hb
    have hut : u ≠ t := by
      rintro rfl
      simp at hb
    have hb' : v.session u = some b := by simpa [hut] using hb
    exact ⟨hut, hb', fun h => hut (hi.unique (h ▸ hb') hses)⟩
  exact { hi with
    session := by
      intro u b hb
      obtain ⟨_, hb', hba⟩ := hother hb
      simpa [hba] using hi.session hb'
    unique := by
      intro u u' b hb hb'
      exact hi.unique (hother hb).2.1 (hother hb').2.1
    user := by
      intro u b
      change Function.update c.user t none u = some b ↔
        Function.update v.session t none u = some b ∧ v.Stored b
      by_cases hu : u = t
      · subst hu
        simp
      · simp only [Function.update_of_ne hu]
        exact hi.user
    served := by
      intro b y hb hy hne
      have hba : b ≠ a := by
        rintro rfl
        simp only [Function.update_self, Option.some.injEq] at hy
        exact hne hy.symm
      obtain ⟨u, hu, hcu⟩ := hi.served hb (by simpa [hba] using hy) hne
      have hut : u ≠ t := by
        rintro rfl
        exact hba (Option.some.inj (hu.symm.trans hses))
      exact ⟨u, by simpa [hut] using hu, hcu⟩
    fresh := by
      intro u b hb
      obtain ⟨hnst, hname, hone, hses', hlocks⟩ := hi.fresh hb
      exact ⟨hnst, hname, hone, fun u' hu' => hses' u' (hother hu').2.1, hlocks⟩
    logged := by
      intro u b hb
      have hut : u ≠ t := by
        rintro rfl
        rw [hgone] at hb
        cases hb
      simpa [hut] using hi.logged hb
    sends := by
      intro hw u m hm
      have hut : u ≠ t := ne_of_sending hidle hm
      obtain ⟨hrest, p, hp, hsend⟩ := hi.sends hw hm
      refine ⟨hrest, p, hp, hsend.of rfl (fun b hb => hb) (fun _ hb => hb) (fun b hb _ _ hbx => ?_)
        fun h h' => ⟨h, by simpa [hut] using h'⟩⟩
      have hba : b ≠ a := by
        rintro rfl
        exact hut (hi.locks_unique hlock hb)
      simpa [hba] using hbx }

/-! ## Calls -/

/-- Thread `t` is in the functions `fs`, logged in as `l`. -/
theorem Inv.setFrames (hi : Inv W v c) {fs : List Call} {l : Option Nat}
    {rs : List (CString × Nat)} {ss : List (PacketHeader × List UInt8)} (hidle : c.sending t = none)
    (hlogin : W.apart → (∃ fd name, Call.login fd name ∈ fs) → ∀ u, InLogin v u → u = t)
    (hcalled : ∀ a hdr data, Call.sendPacket a hdr data ∈ fs → (hdr, data) ∈ ss)
    (hsub : ∀ q ∈ v.sends, q ∈ ss) (hl : ∀ a, l = some a → c.user t = some a)
    (hleaving : ∀ a, Call.logout a ∈ fs → l = none)
    (hret : ∀ q ∈ rs, v.Stored q.2 ∧ v.Named q.2 q.1) :
    Inv W { v with
        frames := Function.update v.frames t fs
        loggedIn := Function.update v.loggedIn t l
        returned := rs
        sends := ss } c := by
  have hin : ∀ {u}, u ≠ t → (∃ fd name, Call.login fd name ∈ Function.update v.frames t fs u) →
      InLogin v u := by
    intro u hu h
    rwa [Function.update_of_ne hu] at h
  exact { hi with
    logged := by
      intro u b hb
      by_cases hu : u = t
      · subst hu
        exact hl b (by simpa using hb)
      · exact hi.logged (by simpa [hu] using hb)
    leaving := by
      intro u b hb
      by_cases hu : u = t
      · subst hu
        simpa using hleaving b (by simpa using hb)
      · simpa [hu] using hi.leaving (by simpa [hu] using hb)
    returned := hret _
    alone := by
      intro ha u u' hu hu'
      by_cases hut : u = t
      · subst hut
        by_cases hut' : u' = u
        · exact hut'.symm
        · exact (hlogin ha (by simpa [InLogin] using hu) u' (hin hut' hu')).symm
      · by_cases hut' : u' = t
        · subst hut'
          exact hlogin ha (by simpa [InLogin] using hu') u (hin hut hu)
        · exact hi.alone ha (hin hut hu) (hin hut' hu')
    called := by
      intro u b hdr data hb
      by_cases hu : u = t
      · subst hu
        exact hcalled b hdr data (by simpa using hb)
      · exact hsub _ (hi.called (by simpa [hu] using hb))
    streams := by
      intro hw x out hout
      obtain ⟨ps, hps, hrest⟩ := hi.streams hw hout
      refine ⟨ps, fun p hp => ?_, hrest⟩
      rcases hps p hp with ⟨q, hq, hcarries⟩ | hrej
      · exact .inl ⟨q, hsub q hq, hcarries⟩
      · exact .inr hrej
    sends := by
      intro hw u m hm
      have hut : u ≠ t := ne_of_sending hidle hm
      obtain ⟨hrest, p, hp, hsend⟩ := hi.sends hw hm
      exact ⟨hrest, p, hp, hsend.of (Function.update_of_ne hut ..) (fun _ h => h) (fun _ h => h)
        (fun _ _ _ _ h => h) fun h h' => ⟨h, h'⟩⟩ }

/-! ## Traders -/

/-- A new trader is put into the table. -/
theorem Inv.publish (hi : Inv W v c) {i : Nat} {x r : Int} (hmine : c.fresh t = some a)
    (hfree : v.slots i = none) (hlt : i < maxTraders)
    (hclash : ∀ j b n m, v.slots j = some b → v.name b = some n → v.name a = some m →
      strcmpEq n m = false)
    (hfd : v.fd a = some x) (hses : v.session t = some a) (hconn : c.conn t = some x)
    (href : v.ref a = some r) (hr : 2 ≤ r) (hidle : c.sending t = none) :
    Inv W { v with slots := Function.update v.slots i (some a) }
      { c with
        refs := Function.update c.refs t (Function.update (c.refs t) a 1)
        fresh := Function.update c.fresh t none
        user := Function.update c.user t (some a) } := by
  obtain ⟨hnst, hname, hone, hses', hlocks⟩ := hi.fresh hmine
  have hslot : ∀ {j b}, Function.update v.slots i (some a) j = some b →
      j = i ∧ b = a ∨ j ≠ i ∧ b ≠ a ∧ v.slots j = some b := by
    intro j b hb
    by_cases hj : j = i
    · subst hj
      exact .inl ⟨rfl, by simpa using hb.symm⟩
    · have hb' : v.slots j = some b := by simpa [hj] using hb
      refine .inr ⟨hj, ?_, hb'⟩
      rintro rfl
      exact hnst ⟨j, hb'⟩
  have hold : ∀ {j b}, v.slots j = some b → Function.update v.slots i (some a) j = some b := by
    intro j b hb
    have hj : j ≠ i := by
      rintro rfl
      rw [hfree] at hb
      cases hb
    rwa [Function.update_of_ne hj]
  have hstored : ∀ {b}, (∃ j, Function.update v.slots i (some a) j = some b) ↔
      b = a ∨ v.Stored b := by
    intro b
    constructor
    · rintro ⟨j, hj⟩
      rcases hslot hj with ⟨_, h⟩ | ⟨_, _, h⟩
      · exact .inl h
      · exact .inr ⟨j, h⟩
    · rintro (rfl | ⟨j, hj⟩)
      · exact ⟨i, Function.update_self ..⟩
      · exact ⟨j, hold hj⟩
  have hrefs : ∀ b u, Function.update c.refs t (Function.update (c.refs t) a 1) u b =
      if b = a ∧ u = t then 1 else c.refs u b := by
    intro b u
    by_cases hu : u = t
    · subst hu
      by_cases hb : b = a
      · simp [hb]
      · simp [hb]
    · simp [hu]
  obtain ⟨hzero, hnone⟩ := hi.unseen hnst
  have hout : c.user t = none := by
    cases hu : c.user t with
    | none => rfl
    | some b =>
      obtain ⟨hb, hst⟩ := hi.user.mp hu
      rw [hses] at hb
      cases hb
      exact absurd hst hnst
  exact { hi with
    slots := by
      intro j b hb
      rcases hslot hb with ⟨rfl, rfl⟩ | ⟨_, _, hb'⟩
      · exact ⟨hlt, hname⟩
      · exact hi.slots hb'
    names := by
      intro j k b b' n n' hb hb' hn hn' heq
      rcases hslot hb with ⟨rfl, rfl⟩ | ⟨_, _, hj⟩
      · rcases hslot hb' with ⟨rfl, rfl⟩ | ⟨_, _, hk⟩
        · rfl
        · have hno := hclash k b' n' n hk hn' hn
          rw [strcmpEq_iff] at heq
          rw [strcmpEq_iff.mpr heq.symm] at hno
          cases hno
      · rcases hslot hb' with ⟨rfl, rfl⟩ | ⟨_, _, hk⟩
        · have hno := hclash j b n n' hj hn hn'
          rw [heq] at hno
          cases hno
        · exact hi.names hj hk hn hn' heq
    user := by
      intro u b
      change Function.update c.user t (some a) u = some b ↔
        v.session u = some b ∧ ∃ j, Function.update v.slots i (some a) j = some b
      rw [hstored]
      by_cases hu : u = t
      · subst hu
        simp only [Function.update_self, hses, Option.some.injEq]
        exact ⟨fun h => ⟨h, .inl h.symm⟩, And.left⟩
      · rw [Function.update_of_ne hu, hi.user]
        refine and_congr_right fun hb => ⟨.inr, ?_⟩
        rintro (rfl | h)
        · exact absurd (hses' u hb) hu
        · exact h
    served := by
      intro b y hb hy hne
      rcases hstored.mp hb with rfl | hb'
      · obtain rfl := Option.some.inj (hfd.symm.trans hy)
        exact ⟨t, hses, hconn⟩
      · exact hi.served hb' hy hne
    fresh := by
      intro u b hb
      have hut : u ≠ t := by
        rintro rfl
        simp at hb
      have hb' : c.fresh u = some b := by simpa [hut] using hb
      have hba : b ≠ a := by
        rintro rfl
        exact hut (hone u hb')
      obtain ⟨hnst', hname', hone', hses'', hlocks'⟩ := hi.fresh hb'
      refine ⟨fun h => ?_, hname', fun u' hu' => ?_, hses'', hlocks'⟩
      · rcases hstored.mp h with h | h
        · exact hba h
        · exact hnst' h
      · have hut' : u' ≠ t := by
          rintro rfl
          simp at hu'
        exact hone' u' (by simpa [hut'] using hu')
    counted := by
      intro b r' hb hr'
      change Covers (r' - 1 - v.outstanding b)
        fun u => Function.update c.refs t (Function.update (c.refs t) a 1) u b
      simp only [hrefs]
      by_cases hba : b = a
      · subst hba
        obtain rfl := Option.some.inj (href.symm.trans hr')
        have hcover : Covers 0 fun u => c.refs u b := Covers.of_zero le_rfl hnone
        have hupdate : (fun u => if b = b ∧ u = t then 1 else c.refs u b) =
            Function.update (fun u => c.refs u b) t 1 := by
          funext u
          by_cases hu : u = t <;> simp [hu]
        rw [hupdate]
        refine hcover.update ?_
        rw [hzero, hnone t]
        omega
      · simp only [hba, false_and, if_false]
        exact hi.counted ((hstored.mp hb).resolve_left hba) hr'
    unseen := by
      intro b hb
      have hba : b ≠ a := fun h => hb (hstored.mpr (.inl h))
      obtain ⟨hzero', hnone'⟩ := hi.unseen (a := b) fun h => hb (hstored.mpr (.inr h))
      refine ⟨hzero', fun u => ?_⟩
      change Function.update c.refs t (Function.update (c.refs t) a 1) u b = 0
      rw [hrefs, if_neg fun h => hba h.1]
      exact hnone' u
    logged := by
      intro u b hb
      have h := hi.logged hb
      have hut : u ≠ t := by
        rintro rfl
        rw [hout] at h
        cases h
      simpa [hut] using h
    returned := fun hb => ⟨hstored.mpr (.inr (hi.returned hb).1), (hi.returned hb).2⟩
    sends := by
      intro hw u m hm
      have hut : u ≠ t := ne_of_sending hidle hm
      obtain ⟨hrest, p, hp, hsend⟩ := hi.sends hw hm
      exact ⟨hrest, p, hp, hsend.of rfl (fun _ h => h) (fun _ h => hstored.mpr (.inr h))
        (fun _ _ _ _ h => h) fun h h' => ⟨h, by simpa [hut] using h'⟩⟩ }

/-- A new trader is allocated. -/
theorem Inv.malloc (hi : Inv W v c) {n : CString} {x r : Int} {m : Mutex}
    (hnone : v.name a = none) (hfd : v.fd a = none) (hmutex : v.mutex a = none) :
    Inv W { v with
        name := Function.update v.name a (some n)
        fd := Function.update v.fd a (some x)
        ref := Function.update v.ref a (some r)
        mutex := Function.update v.mutex a (some m) }
      { c with fresh := Function.update c.fresh t (some a) } := by
  have hnst : ¬ v.Stored a := by
    rintro ⟨i, hi'⟩
    exact (hi.slots hi').2 hnone
  have hother : ∀ {b}, v.Stored b → b ≠ a := fun hb h => hnst (h ▸ hb)
  have hses : ∀ u, v.session u ≠ some a := by
    intro u hu
    obtain ⟨y, hy, _⟩ := hi.session hu
    rw [hfd] at hy
    cases hy
  have hlocks : ∀ u, c.locks u a = 0 := by
    intro u
    have h := hi.locks u a
    rw [Shared.held, hmutex] at h
    exact Nat.le_zero.mp h
  have hfresh : ∀ {u b}, c.fresh u = some b → b ≠ a := by
    rintro u b hb rfl
    exact (hi.fresh hb).2.1 hnone
  exact { hi with
    slots := by
      intro i b hb
      obtain ⟨hlt, hne⟩ := hi.slots hb
      exact ⟨hlt, by simpa [hother ⟨i, hb⟩] using hne⟩
    names := by
      intro i j b b' n n' hb hb' hn hn' heq
      exact hi.names hb hb' (by simpa [hother ⟨i, hb⟩] using hn)
        (by simpa [hother ⟨j, hb'⟩] using hn') heq
    session := by
      intro u b hb
      have hba : b ≠ a := fun h => hses u (h ▸ hb)
      simpa [hba] using hi.session hb
    served := by
      intro b y hb hy hne
      exact hi.served hb (by simpa [hother hb] using hy) hne
    fresh := by
      intro u b hb
      by_cases hu : u = t
      · subst hu
        obtain rfl : a = b := by simpa using hb
        refine ⟨hnst, by simp, fun u' hu' => ?_, fun u' hu' => absurd hu' (hses u'),
          fun u' _ => hlocks u'⟩
        by_contra hne
        exact hfresh (by simpa [hne] using hu') rfl
      · have hb' : c.fresh u = some b := by simpa [hu] using hb
        have hba : b ≠ a := hfresh hb'
        obtain ⟨hnst', hname, hone, hrest⟩ := hi.fresh hb'
        refine ⟨hnst', by simpa [hba] using hname, fun u' hu' => ?_, hrest⟩
        by_cases hut : u' = t
        · subst hut
          exact absurd (by simpa using hu') hba.symm
        · exact hone u' (by simpa [hut] using hu')
    locks := by
      intro u b
      by_cases hb : b = a
      · subst hb
        rw [hlocks u]
        exact Nat.zero_le _
      · simpa [Shared.held, hb] using hi.locks u b
    counted := by
      intro b r' hb hr'
      exact hi.counted hb (by simpa [hother hb] using hr')
    returned := by
      intro n' b hb
      obtain ⟨hst, y, hy, heq⟩ := hi.returned hb
      exact ⟨hst, y, by simpa [hother hst] using hy, heq⟩
    sends := by
      intro hw u m' hm'
      obtain ⟨hrest, p, hp, hsend⟩ := hi.sends hw hm'
      refine ⟨hrest, p, hp, hsend.of rfl (fun _ h => h) (fun _ h => h)
        (fun b _ hb _ hbx => ?_) fun h h' => ⟨h, h'⟩⟩
      simpa [hother hb] using hbx }

/-! ## Connections -/

/-- A connection is accepted. -/
theorem Inv.accept (hi : Inv W v c) {x : Int} (hnone : v.owner x = none) (hx : 0 ≤ x)
    (hout : c.user t = none) (hidle : c.sending t = none) :
    Inv W { v with
        owner := Function.update v.owner x (some t)
        output := Function.update v.output x (some []) }
      { c with conn := Function.update c.conn t (some x) } :=
  { hi with
    served := by
      intro b y hb hy hne
      obtain ⟨u, hu, hconn⟩ := hi.served hb hy hne
      have hut : u ≠ t := by
        rintro rfl
        rw [hi.user.mpr ⟨hu, hb⟩] at hout
        cases hout
      exact ⟨u, hu, by simpa [hut] using hconn⟩
    conn := by
      intro u y hy
      by_cases hu : u = t
      · subst hu
        obtain rfl : x = y := by simpa using hy
        simp
      · have hown := hi.conn (by simpa [hu] using hy)
        have hyx : y ≠ x := by
          rintro rfl
          rw [hnone] at hown
          cases hown
        simpa [hyx] using hown
    ports := by
      intro y u hy
      by_cases hyx : y = x
      · rw [hyx]
        exact hx
      · exact hi.ports (by simpa [hyx] using hy)
    streams := by
      intro hw y out hy
      by_cases hyx : y = x
      · subst hyx
        obtain rfl : [] = out := by simpa using hy
        refine ⟨[], by simp, .inr ⟨fun u m hm hfd => ?_, rfl⟩⟩
        obtain ⟨_, p, _, hsend⟩ := hi.sends hw hm
        rw [hfd] at hsend
        exact hi.open_of_sends hsend hnone
      · exact hi.streams hw (by simpa [hyx] using hy)
    sends := by
      intro hw u m hm
      have hut : u ≠ t := ne_of_sending hidle hm
      obtain ⟨hrest, p, hp, hsend⟩ := hi.sends hw hm
      exact ⟨hrest, p, hp, hsend.of rfl (fun _ h => h) (fun _ h => h)
        (fun _ _ _ _ h => h) fun h h' => ⟨by simpa [hut] using h, h'⟩⟩ }

/-- A thread that is not logged in closes its connection. -/
theorem Inv.close (hi : Inv W v c) {x : Int} (hconn : c.conn t = some x)
    (hout : c.user t = none) (hidle : c.sending t = none) :
    Inv W { v with
        owner := Function.update v.owner x none
        output := Function.update v.output x none }
      { c with conn := Function.update c.conn t none } := by
  have hown : v.owner x = some t := hi.conn hconn
  exact { hi with
    served := by
      intro b y hb hy hne
      obtain ⟨u, hu, hconn'⟩ := hi.served hb hy hne
      have hut : u ≠ t := by
        rintro rfl
        rw [hi.user.mpr ⟨hu, hb⟩] at hout
        cases hout
      exact ⟨u, hu, by simpa [hut] using hconn'⟩
    conn := by
      intro u y hy
      have hut : u ≠ t := by
        rintro rfl
        simp at hy
      have hown' := hi.conn (by simpa [hut] using hy)
      have hyx : y ≠ x := by
        rintro rfl
        exact hut (Option.some.inj (hown'.symm.trans hown))
      simpa [hyx] using hown'
    ports := by
      intro y u hy
      have hyx : y ≠ x := by
        rintro rfl
        simp at hy
      exact hi.ports (by simpa [hyx] using hy)
    streams := by
      intro hw y out hy
      have hyx : y ≠ x := by
        rintro rfl
        simp at hy
      exact hi.streams hw (by simpa [hyx] using hy)
    sends := by
      intro hw u m hm
      have hut : u ≠ t := ne_of_sending hidle hm
      obtain ⟨hrest, p, hp, hsend⟩ := hi.sends hw hm
      exact ⟨hrest, p, hp, hsend.of rfl (fun _ h => h) (fun _ h => h)
        (fun _ _ _ _ h => h) fun h h' => ⟨by simpa [hut] using h, h'⟩⟩ }

/-! ## Packets -/

/-- A thread begins to send a packet. -/
theorem Inv.send (hi : Inv W v c) {x : Int} {p : Packet} (hw : W.whole)
    (hsend : Sends v c t x p) (hidle : c.sending t = none) :
    Inv W v { c with sending := Function.update c.sending t (some ⟨x, [], p.toBytes⟩) } := by
  have hfree : ∀ u m, c.sending u = some m → m.fd ≠ x := by
    rintro u m hm rfl
    obtain ⟨_, q, _, hq⟩ := hi.sends hw hm
    exact ne_of_sending hidle hm (hi.sends_unique hsend hq)
  exact { hi with
    streams := by
      intro hw y out hy
      obtain ⟨ps, hps, hrest⟩ := hi.streams hw hy
      refine ⟨ps, hps, ?_⟩
      by_cases hyx : y = x
      · subst hyx
        have hout : out = Packet.encode ps := by
          rcases hrest with ⟨u, m, hm, hfd, _⟩ | ⟨_, hout⟩
          · exact absurd hfd (hfree u m hm)
          · exact hout
        exact .inl ⟨t, ⟨y, [], p.toBytes⟩, by simp, rfl, by simp [hout]⟩
      · rcases hrest with ⟨u, m, hm, hfd, hout⟩ | ⟨hno, hout⟩
        · have hut : u ≠ t := ne_of_sending hidle hm
          exact .inl ⟨u, m, by simpa [hut] using hm, hfd, hout⟩
        · refine .inr ⟨fun u m hm => ?_, hout⟩
          by_cases hu : u = t
          · subst hu
            obtain rfl : ⟨x, [], p.toBytes⟩ = m := by simpa using hm
            exact Ne.symm hyx
          · exact hno u m (by simpa [hu] using hm)
    sends := by
      intro hw u m hm
      by_cases hu : u = t
      · subst hu
        obtain rfl : ⟨x, [], p.toBytes⟩ = m := by simpa using hm
        refine ⟨fun h => ?_, p, rfl, hsend⟩
        have hlen := congrArg List.length h
        simp [headerSize] at hlen
      · exact hi.sends hw (by simpa [hu] using hm) }

/-- A thread writes a part of the packet that it is sending. -/
theorem Inv.wrote (hi : Inv W v c) {x : Int} {out sent bs rest : List UInt8}
    (hout : v.output x = some out) (hsending : c.sending t = some ⟨x, sent, bs ++ rest⟩) :
    Inv W { v with output := Function.update v.output x (some (out ++ bs)) }
      { c with
        sending := Function.update c.sending t (Sending.unless ⟨x, sent ++ bs, rest⟩) } := by
  have hkept : ∀ {m}, Sending.unless ⟨x, sent ++ bs, rest⟩ = some m →
      m = ⟨x, sent ++ bs, rest⟩ ∧ rest ≠ [] := by
    intro m hm
    unfold Sending.unless at hm
    split_ifs at hm with hrest
    exact ⟨(Option.some.inj hm).symm, hrest⟩
  exact { hi with
    streams := by
      intro hw y out' hy
      have hother : ∀ {u m}, c.sending u = some m → m.fd = x → u = t := by
        intro u m hm hfd
        obtain ⟨_, p, _, hp⟩ := hi.sends hw hsending
        obtain ⟨_, q, _, hq⟩ := hi.sends hw hm
        rw [hfd] at hq
        exact hi.sends_unique hp hq
      by_cases hyx : y = x
      · subst hyx
        obtain rfl : out ++ bs = out' := by simpa using hy
        obtain ⟨ps, hps, hstream⟩ := hi.streams hw hout
        have hsent : out = Packet.encode ps ++ sent := by
          rcases hstream with ⟨u, m, hm, hfd, h⟩ | ⟨hno, _⟩
          · obtain rfl := hother hm hfd
            obtain rfl := Option.some.inj (hsending.symm.trans hm)
            exact h
          · exact absurd rfl (hno t _ hsending)
        obtain ⟨_, p, hp, hsend⟩ := hi.sends hw hsending
        by_cases hrest : rest = []
        · -- the packet is complete
          refine ⟨ps ++ [p], ?_, .inr ⟨fun u m hm hfd => ?_, ?_⟩⟩
          · intro q hq
            rcases List.mem_append.mp hq with hq | hq
            · exact hps q hq
            · obtain rfl := List.mem_singleton.mp hq
              exact hi.genuine_of_sends hsend
          · by_cases hu : u = t
            · subst hu
              exact (hkept (by simpa using hm)).2 hrest
            · exact hu (hother (by simpa [hu] using hm) hfd)
          · subst hrest
            simp only [List.append_nil] at hp
            simp [hsent, Packet.encode, ← hp]
        · refine ⟨ps, hps, .inl ⟨t, ⟨y, sent ++ bs, rest⟩, ?_, rfl, by simp [hsent]⟩⟩
          simp [Sending.unless, hrest]
      · obtain ⟨ps, hps, hstream⟩ := hi.streams hw (by simpa [hyx] using hy)
        refine ⟨ps, hps, ?_⟩
        rcases hstream with ⟨u, m, hm, hfd, h⟩ | ⟨hno, h⟩
        · have hut : u ≠ t := by
            rintro rfl
            obtain rfl := Option.some.inj (hsending.symm.trans hm)
            exact hyx hfd.symm
          exact .inl ⟨u, m, by simpa [hut] using hm, hfd, h⟩
        · refine .inr ⟨fun u m hm => ?_, h⟩
          by_cases hu : u = t
          · subst hu
            obtain ⟨rfl, _⟩ := hkept (by simpa using hm)
            exact Ne.symm hyx
          · exact hno u m (by simpa [hu] using hm)
    sends := by
      intro hw u m hm
      by_cases hu : u = t
      · subst hu
        obtain ⟨rfl, hrest⟩ := hkept (by simpa using hm)
        obtain ⟨_, p, hp, hsend⟩ := hi.sends hw hsending
        exact ⟨hrest, p, by simpa using hp, hsend⟩
      · exact hi.sends hw (by simpa [hu] using hm) }

/-- A write that is not a part of a packet in progress changes no open connection's output, or
it is not looked at. -/
theorem Inv.wroteAside (hi : Inv W v c) {x : Int} {out : List UInt8} (hw : ¬ W.whole) :
    Inv W { v with output := Function.update v.output x (some out) } c :=
  { hi with streams := fun h => absurd h hw }

end BourseServer.Sessions
