import BourseServer.Registry.Runs

/-!
# Clients of the registry

Threads register and unregister descriptors, each its own. As long as nobody waits for the
registry to be empty, no call fails, no call blocks where it must not, and between the calls all
parts of the registry agree.
-/
namespace BourseServer

open Concurrency Registry

variable {E : Exchange}

/-- A thread that uses no descriptor registers one that nobody uses, or a thread unregisters the
one it uses. Calls with a negative or foreign descriptor, and those that cannot succeed, are left
out. -/
def Registers (t : Nat) (q : Process.Request) (d : Process E) : Prop :=
  (∃ fd, q = .call (.register fd) ∧ 0 ≤ fd ∧ d.users fd = none ∧ ∀ fd', d.users fd' ≠ some t) ∨
    ∃ fd, q = .call (.unregister fd) ∧ d.users fd = some t

/-- Threads register and unregister. -/
def clientRuns (c : Pool (mainSystem E)) : Move (mainSystem E) → Prop
  | .run _ _ => True
  | .start t q => Registers t q c.state

namespace Registry

/-- Runs of calls of the registry. -/
def callWatch : Watch where
  servers := False
  waiting := False
  late := False
  early := False
  aside := False
  waiting_of_servers := False.elim
  servers_of_late := id
  servers_of_early := id

theorem assume_calls (o : process.Op) (d : Process E) :
    Assume callWatch o d :=
  ⟨False.elim, False.elim⟩

theorem allow_registers {t : Nat} {q : Process.Request} {d : Process E}
    (h : Registers t q d) : Allow callWatch t q d := by
  rcases h with ⟨fd, rfl, hfree⟩ | ⟨fd, rfl, huser⟩
  · constructor
    case register =>
      intro fd' hq
      cases hq
      exact hfree
    case unregister => exact fun _ hq => by cases hq
    case servers => exact ⟨False.elim, fun hq => hq _ rfl⟩
    case waiting => exact fun hq => by cases hq
    case early => exact False.elim
    case aside => exact False.elim
  · constructor
    case register => exact fun _ hq => by cases hq
    case unregister =>
      intro fd' hq
      cases hq
      exact huser
    case servers => exact ⟨False.elim, fun hq => hq _ rfl⟩
    case waiting => exact fun hq => by cases hq
    case early => exact False.elim
    case aside => exact False.elim

theorem watched_of_clientRuns {c : Pool (mainSystem E)} {m : Move (mainSystem E)}
    (h : clientRuns c m) : Watched E callWatch c m := by
  cases m with
  | run t e => exact fun o k _ => assume_calls o c.state
  | start t q => exact allow_registers h

/-! ## Between the calls -/

variable {W : Watch} {c : Pool (mainSystem E)} {g : Nat → Tokens}

/-- No program is running. -/
def Quiet (c : Pool (mainSystem E)) : Prop := ∀ t, c.prog t = .ret ()

/-- A thread outside of all calls has all tokens of a client or none. -/
theorem Settled.whole (h : Settled W c g) (hquiet : Quiet c) (t : Nat) :
    (g t).crit = false ∧ (g t).slot = (g t).stored ∧ (g t).item = (g t).stored ∧
      (g t).counted = (g t).stored ∧ (g t).opened = (g t).stored ∧
      ∀ fd, c.state.users fd = some t ↔ (g t).stored = true ∧ (g t).fd = fd := by
  rcases h.idle t () (hquiet t) with hk | ⟨_, f, hk⟩
  · have hghost : g t = .none := hk.ghost
    rw [hghost]
    exact ⟨rfl, rfl, rfl, rfl, rfl, fun fd => by simpa using hk.users fd⟩
  · have hghost : g t = .resting f := hk.ghost
    rw [hghost]
    exact ⟨rfl, rfl, rfl, rfl, rfl, fun fd => by simpa using hk.users fd⟩

/-- What `client_registry.c` keeps between its calls, apart from `count_mutex`. -/
structure Consistent (d : Process E) : Prop where
  mutex : d.server.registry.sem .mutex = 1
  items : d.server.registry.sem .items = d.server.registry.occupied
  count : d.server.registry.count = d.server.registry.occupied
  slots : d.server.registry.sem .slots + d.server.registry.occupied = d.server.registry.n
  entries : ∀ fd, d.Entry fd ↔ d.users fd ≠ none
  once : ∀ i j, i < d.server.registry.n → j < d.server.registry.n →
    d.server.registry.fds i = d.server.registry.fds j → d.server.registry.fds i ≠ -1 → i = j

theorem Settled.consistent (h : Settled W c g) (hquiet : Quiet c) : Consistent c.state := by
  have hwhole := h.whole hquiet
  have hb := h.inv.balanced
  constructor
  case mutex =>
    obtain ⟨k, hk, hsum⟩ := hb.mutex
    have hzero : k = 0 := hk.eq_zero_iff.mpr fun t => by simp [(hwhole t).1]
    change c.state.server.registry.sem .mutex + k = 1 at hsum
    omega
  case items =>
    have hsame := hb.items.congr (q := fun t => (g t).stored = true) fun t => by
      rw [(hwhole t).2.2.1]
    exact hsame.unique hb.occupied
  case count =>
    obtain ⟨k, hk, hcount⟩ := hb.count
    have hsame := hk.congr (q := fun t => (g t).stored = true) fun t => by
      rw [(hwhole t).2.2.2.1]
    rw [← hsame.unique hb.occupied]
    exact hcount
  case slots =>
    obtain ⟨k, hk, hsum⟩ := hb.slots
    have hsame := hk.congr (q := fun t => (g t).stored = true) fun t => by
      rw [(hwhole t).2.1]
    rw [← hsame.unique hb.occupied]
    exact hsum
  case entries =>
    intro fd
    constructor
    · intro hfd
      obtain ⟨t, huser, _⟩ := h.inv.users_of_entry hfd
      change c.state.users fd = some t at huser
      rw [huser]
      simp
    · intro huser
      obtain ⟨t, ht⟩ := Option.ne_none_iff_exists'.mp huser
      obtain ⟨hst, rfl⟩ := ((hwhole t).2.2.2.2.2 fd).mp ht
      obtain ⟨i, hi, hfd⟩ := hb.entry t hst
      have hvalid : 0 ≤ (g t).fd := hb.valid t ((hb.coherent t).slot hst)
      have hne : (g t).fd ≠ -1 := by omega
      exact ⟨hne, i, hi, hfd⟩
  case once => exact hb.single

/-- The gate between the calls. -/
theorem Settled.gate (h : Settled W c g) (hquiet : Quiet c) :
    c.state.server.registry.sem .countMutex + min c.state.server.registry.occupied 1 +
      c.state.waits = 1 := by
  obtain ⟨k, hk, hsum⟩ := h.inv.balanced.gate
  have hsame := hk.congr (q := fun t => (g t).stored = true) fun t => by
    rw [(h.whole hquiet t).2.2.2.2.1]
  rw [← hsame.unique h.inv.balanced.occupied]
  exact hsum

end Registry

/-- Without a call of `creg_wait_for_empty`, no call returns -1, so none finds the registry
full, neither `P(items)` nor `P(count_mutex)` blocks, and between the calls the registry is
consistent. -/
theorem registry_consistent {x : E.State} {n : Nat} {c : Pool (mainSystem E)}
    (h : Pool.ReachIf clientRuns (Pool.idle (Process.init E x n)) c) :
    (∀ t o k, c.prog t = .op o k →
      (∀ call v, o = .inr (.ended call v) → v ≠ .int (-1)) ∧
      (o = .inl (.semWait .items) → 0 < c.state.server.registry.sem .items) ∧
      (o = .inl (.semWait .countMutex) → 0 < c.state.server.registry.sem .countMutex)) ∧
    (Quiet c → Consistent c.state ∧
      c.state.server.registry.sem .countMutex =
        if c.state.server.registry.count = 0 then 1 else 0) := by
  obtain ⟨g, hg⟩ := settled (h.mono fun _ _ => watched_of_clientRuns)
  have hwaits : c.state.waits = 0 := hg.inv.waited id
  constructor
  · intro t o k hop
    have hsafe := hg.safe t o k hop
    refine ⟨hsafe.result, hsafe.items, fun ho => ?_⟩
    have hsum := hsafe.countMutex ho fun hwait => hwait.1
    omega
  · intro hquiet
    have hconsistent := hg.consistent hquiet
    have hgate := hg.gate hquiet
    refine ⟨hconsistent, ?_⟩
    rw [hconsistent.count]
    split <;> omega

/-! ## Two clients -/

/-- A thread without a descriptor registers 3 or 4, or a thread unregisters its own. -/
def ofPair (t : Nat) (q : Process.Request) (d : Process E) : Bool :=
  match q with
  | .call (.register fd) => decide ((fd = 3 ∨ fd = 4) ∧ d.users fd = none ∧
      d.users 3 ≠ some t ∧ d.users 4 ≠ some t)
  | .call (.unregister fd) => decide (d.users fd = some t)
  | _ => false

def pairRuns (c : Pool (mainSystem E)) : Move (mainSystem E) → Prop
  | .run _ _ => True
  | .start t q => ofPair t q c.state = true

/-- No other descriptor is used. -/
def Pair (d : Process E) : Prop := ∀ fd, fd ≠ 3 → fd ≠ 4 → d.users fd = none

theorem registers_of_ofPair {t : Nat} {q : Process.Request} {d : Process E}
    (h : ofPair t q d = true) (hd : Pair d) : Registers t q d := by
  unfold ofPair at h
  split at h
  · rename_i fd
    obtain ⟨hfd, hfree, hthree, hfour⟩ := of_decide_eq_true h
    refine .inl ⟨fd, rfl, ?_, hfree, fun fd' hfd' => ?_⟩
    · rcases hfd with rfl | rfl <;> decide
    · by_cases h₃ : fd' = 3
      · exact hthree (h₃ ▸ hfd')
      · by_cases h₄ : fd' = 4
        · exact hfour (h₄ ▸ hfd')
        · cases (hd fd' h₃ h₄).symm.trans hfd'
  · exact .inr ⟨_, rfl, of_decide_eq_true h⟩
  · cases h

/-- No action makes anybody use a descriptor. -/
theorem exec_users {t : Nat} {o : process.Op} {e : Choice E ⊕ E.State} {d d' : Process E}
    {r : process.Reply o} (h : Process.exec t o e d = .done r d') {fd : Int}
    (hfd : d.users fd = none) : d'.users fd = none := by
  have hset : ∀ x, Function.update d.users x none fd = none := by
    intro x
    by_cases hx : fd = x
    · subst hx
      exact Function.update_self ..
    · rw [Function.update_of_ne hx, hfd]
  cases o with
  | inl o =>
    obtain ⟨_, _, _, s, _, rfl⟩ := Process.exec_inl h
    unfold Process.record
    split
    case h_5 => exact hset _
    all_goals exact hfd
  | inr o =>
    unfold Process.exec Process.execMain at h
    split at h
    · cases h
    cases o with
    | free b =>
      simp only at h
      split at h
      · cases h
      · cases h
        exact hfd
    | exchangeFini =>
      cases e with
      | inl e => cases h
      | inr x =>
        cases h
        exact hfd
    | ended c v =>
      cases h
      cases c with
      | unregister x => exact hset x
      | _ => exact hfd
    | _ =>
      cases h
      exact hfd

theorem pair_of_step {c c' : Pool (mainSystem E)} {m : Move (mainSystem E)} (hm : pairRuns c m)
    (hs : c.step m = some c') (hc : Pair c.state) : Pair c'.state := by
  intro fd h₃ h₄
  rcases Pool.step_cases hs with ⟨t, e, o, k, r, rfl, _, he, _⟩ | ⟨t, e, q, k, _, _, hsame, _⟩ |
    ⟨t, q, p, rfl, _, hlaunched, _⟩
  · exact exec_users he (hc fd h₃ h₄)
  · rw [hsame]
    exact hc fd h₃ h₄
  · have hm : ofPair t q c.state = true := hm
    unfold ofPair at hm
    split at hm
    · obtain ⟨hfd, _⟩ := of_decide_eq_true hm
      have hne : ∀ x : Int, x = 3 ∨ x = 4 → fd ≠ x := by
        rintro x hx rfl
        exact hx.elim h₃ h₄
      obtain ⟨_, hstate⟩ := Prod.mk.inj (Option.some.inj hlaunched)
      rw [← hstate]
      exact (Function.update_of_ne (hne _ hfd) ..).trans (hc fd h₃ h₄)
    · obtain ⟨_, hstate⟩ := Prod.mk.inj (Option.some.inj hlaunched)
      rw [← hstate]
      exact hc fd h₃ h₄
    · cases hm

/-- Everything goes smoothly. -/
def pairCourse : Pool.Course (mainSystem (.fixed 1 1)) :=
  smoothProcess (E := .fixed 1 1) () () (fun _ _ _ => true) ofPair

theorem pairCourse_within : pairCourse.Within pairRuns :=
  smoothProcess_within (fun _ _ _ _ _ _ => trivial) (fun _ _ _ _ _ => trivial) fun _ _ _ hq => hq

/-- Two clients are registered, and the first one leaves. -/
theorem registry_consistent_pair : ∃ c : Pool (mainSystem (.fixed 1 1)),
    c.state.server.registry.count = 1 ∧ c.state.server.registry.fds 0 = -1 ∧
      c.state.server.registry.fds 1 = 4 ∧ Quiet c ∧ Consistent c.state := by
  obtain ⟨c, hc, ht, hprog⟩ := Pool.exists_reach_apart pairCourse_within
    [.start 0 (.call (.register 3)), .drive 0 30, .start 1 (.call (.register 4)), .drive 1 30,
      .start 0 (.call (.unregister 3)), .drive 0 30]
    (Pool.idle (Process.init (.fixed 1 1) () 2)) (fun c => (c.prog 0).ended ∧ (c.prog 1).ended ∧
      c.state.server.registry.count = 1 ∧ c.state.server.registry.fds 0 = -1 ∧
      c.state.server.registry.fds 1 = 4)
    (by decide +kernel)
  obtain ⟨hzero, hone, hcount, hfirst, hsecond⟩ := of_decide_eq_true ht
  have hquiet : Quiet c := by
    intro t
    by_cases h₀ : t = 0
    · subst h₀
      exact (Prog.eq_ret_of_ended hzero).choose_spec
    · by_cases h₁ : t = 1
      · subst h₁
        exact (Prog.eq_ret_of_ended hone).choose_spec
      · exact hprog t (by simp [Pool.Stage.thread, Ne.symm h₀, Ne.symm h₁])
  have hclients : Pool.ReachIf clientRuns (Pool.idle (Process.init (.fixed 1 1) () 2)) c := by
    refine (hc.of_invariant (J := fun c => Pair c.state) (fun _ _ _ => rfl)
      (fun _ _ _ hm hs hd => pair_of_step hm hs hd) fun _ m hm hd => ?_).1
    cases m with
    | run t e => trivial
    | start t q => exact registers_of_ofPair hm hd
  exact ⟨c, hcount, hfirst, hsecond, hquiet, ((registry_consistent hclients).2 hquiet).1⟩

end BourseServer
