import BourseServer.Concurrency.Sequential
import BourseServer.Registry.Actions

/-!
# Unregistering a descriptor that is not registered

One call after the other, the failing exit of `creg_unregister` keeps the item that the call has
taken and gives back a slot that it has not taken. So each such call makes the items one fewer
than the registered clients, and the slots one more than the empty entries: in the end a client
that is registered cannot unregister, and one too many is let in.
-/
namespace BourseServer

open Concurrency

variable {E : Exchange} {t : Nat} {s s' : State E} {fd v : Int}

/-! ## The actions, one thread alone -/

namespace State

def setSem (s : State E) (x : Sem) (k : Nat) : State E :=
  { s with registry := { s.registry with sem := Function.update s.registry.sem x k } }

def setFd (s : State E) (i : Nat) (fd : Int) : State E :=
  { s with registry := { s.registry with fds := Function.update s.registry.fds i fd } }

def setRegCount (s : State E) (n : Int) : State E :=
  { s with registry := { s.registry with count := n } }

@[simp] theorem setSem_n (s : State E) (x : Sem) (k : Nat) :
    (s.setSem x k).registry.n = s.registry.n := rfl

@[simp] theorem setSem_fds (s : State E) (x : Sem) (k : Nat) :
    (s.setSem x k).registry.fds = s.registry.fds := rfl

@[simp] theorem setSem_sem (s : State E) (x : Sem) (k : Nat) :
    (s.setSem x k).registry.sem = Function.update s.registry.sem x k := rfl

@[simp] theorem setFd_n (s : State E) (i : Nat) (fd : Int) :
    (s.setFd i fd).registry.n = s.registry.n := rfl

@[simp] theorem setFd_fds (s : State E) (i : Nat) (fd : Int) :
    (s.setFd i fd).registry.fds = Function.update s.registry.fds i fd := rfl

@[simp] theorem setFd_sem (s : State E) (i : Nat) (fd : Int) :
    (s.setFd i fd).registry.sem = s.registry.sem := rfl

end State

theorem partial_semWait {x : Sem} {Q : Unit → State E → Prop}
    (h : 0 < s.registry.sem x → Q () (s.setSem x (s.registry.sem x - 1))) :
    Partial (machine E) anyStep t (semWait x) Q s := by
  refine .act fun e r s' he _ => ?_
  obtain ⟨hpos, rfl⟩ := exec_semWait (t := t) (e := e) he
  exact h hpos

theorem partial_semPost {x : Sem} {Q : Unit → State E → Prop}
    (h : Q () (s.setSem x (s.registry.sem x + 1))) :
    Partial (machine E) anyStep t (semPost x) Q s := by
  refine .act fun e r s' he _ => ?_
  obtain rfl := exec_semPost (t := t) (e := e) he
  exact h

theorem partial_regSize {Q : Nat → State E → Prop} (h : Q s.registry.n s) :
    Partial (machine E) anyStep t regSize Q s := by
  refine .act fun e r s' he _ => ?_
  cases he
  exact h

theorem partial_regFd {i : Nat} {Q : Int → State E → Prop} (h : Q (s.registry.fds i) s) :
    Partial (machine E) anyStep t (regFd i) Q s := by
  refine .act fun e r s' he _ => ?_
  cases he
  exact h

theorem partial_setRegFd {i : Nat} {Q : Unit → State E → Prop} (h : Q () (s.setFd i fd)) :
    Partial (machine E) anyStep t (setRegFd i fd) Q s := by
  refine .act fun e r s' he _ => ?_
  cases he
  exact h

theorem partial_regCount {Q : Int → State E → Prop} (h : Q s.registry.count s) :
    Partial (machine E) anyStep t regCount Q s := by
  refine .act fun e r s' he _ => ?_
  cases he
  exact h

theorem partial_setRegCount {n : Int} {Q : Unit → State E → Prop} (h : Q () (s.setRegCount n)) :
    Partial (machine E) anyStep t (setRegCount n) Q s := by
  refine .act fun e r s' he _ => ?_
  cases he
  exact h

/-- The test of `count` does not touch the tokens that the registry's calls exchange. -/
structure SameTokens (s s' : State E) : Prop where
  n : s'.registry.n = s.registry.n
  fds : s'.registry.fds = s.registry.fds
  sem : ∀ x, x ≠ .countMutex → s'.registry.sem x = s.registry.sem x

theorem SameTokens.trans {s'' : State E} (h : SameTokens s s') (h' : SameTokens s' s'') :
    SameTokens s s'' :=
  ⟨h'.n.trans h.n, h'.fds.trans h.fds, fun x hx => (h'.sem x hx).trans (h.sem x hx)⟩

theorem sameTokens_setRegCount (n : Int) : SameTokens s (s.setRegCount n) :=
  ⟨rfl, rfl, fun _ _ => rfl⟩

theorem sameTokens_gate (k : Nat) : SameTokens s (s.setSem .countMutex k) :=
  ⟨rfl, rfl, fun _ hx => Function.update_of_ne hx ..⟩

/-- `count` is changed, and the gate is opened or closed on the way. -/
theorem partial_recount {α : Type} {g : Code Unit} {rest : Code α} {m k : Int}
    {Q : α → State E → Prop}
    (hgate : ∀ {s : State E} {R : Unit → State E → Prop},
      (∀ s', SameTokens s s' → R () s') → Partial (machine E) anyStep t g R s)
    (h : ∀ s', SameTokens s s' → Partial (machine E) anyStep t rest Q s') :
    Partial (machine E) anyStep t (do
      let count ← regCount
      setRegCount (count + k)
      let count ← regCount
      if count = m then g else pure ()
      rest) Q s := by
  refine .bind (partial_regCount (.bind (partial_setRegCount (.bind (partial_regCount ?_)))))
  have hset : SameTokens s (s.setRegCount (s.registry.count + k)) := sameTokens_setRegCount _
  split_ifs
  · exact .bind (hgate fun s' hs => h s' (hset.trans hs))
  · exact h _ hset

/-! ## Whole calls -/

/-- The search for an entry `fd`. -/
theorem partial_searchFd {α : Type} {body : Nat → Code (Option α)} {n : Nat}
    {Q : Option α → State E → Prop}
    (hfound : ∀ i, i < n → s.registry.fds i = fd →
      Partial (machine E) anyStep t (body i) (fun r s' => r ≠ none ∧ Q r s') s)
    (hmissing : (∀ i, i < n → s.registry.fds i ≠ fd) → Q none s) :
    Partial (machine E) anyStep t (Prog.search n fun i => do
      let cur ← regFd i
      if cur = fd then body i else pure none) Q s := by
  refine .searchFrom (fun i s' => s' = s ∧ ∀ j, j < i → s.registry.fds j ≠ fd)
    ⟨rfl, fun j hj => by omega⟩ ?_ ?_
  · rintro i _ _ hi ⟨rfl, hno⟩
    refine .bind (partial_regFd ?_)
    split_ifs with hfd
    · refine (hfound i (by omega) hfd).mono fun r s' hr => ⟨fun h => absurd h hr.1, ?_⟩
      rintro a rfl
      exact hr.2
    · refine .ret ⟨fun _ => ⟨rfl, fun j hj => ?_⟩, nofun⟩
      by_cases hji : j = i
      · subst hji
        exact hfd
      · exact hno j (by omega)
  · rintro _ ⟨rfl, hno⟩
    rw [Nat.zero_add] at hno
    exact hmissing hno

/-- What a call of `creg_unregister` does. -/
structure UnregisterEffect (fd : Int) (v : Int) (s s' : State E) : Prop where
  n : s'.registry.n = s.registry.n
  items : s.registry.sem .items = s'.registry.sem .items + 1
  slots : s'.registry.sem .slots = s.registry.sem .slots + 1
  mutex : 0 < s.registry.sem .mutex ∧ s'.registry.sem .mutex = s.registry.sem .mutex
  table : (v = 0 ∧ ∃ i, i < s.registry.n ∧ s.registry.fds i = fd ∧
      s'.registry.fds = Function.update s.registry.fds i (-1)) ∨
    v = -1 ∧ (∀ i, i < s.registry.n → s.registry.fds i ≠ fd) ∧
      s'.registry.fds = s.registry.fds

/-- What a call of `creg_register` does. Without an empty entry it keeps what it has taken. -/
structure RegisterEffect (fd : Int) (v : Int) (s s' : State E) : Prop where
  n : s'.registry.n = s.registry.n
  slots : s.registry.sem .slots = s'.registry.sem .slots + 1
  mutex : 0 < s.registry.sem .mutex
  table : (v = 0 ∧ (∃ i, i < s.registry.n ∧ s.registry.fds i = -1 ∧
      s'.registry.fds = Function.update s.registry.fds i fd) ∧
      s'.registry.sem .items = s.registry.sem .items + 1 ∧
      s'.registry.sem .mutex = s.registry.sem .mutex) ∨
    v = -1 ∧ (∀ i, i < s.registry.n → s.registry.fds i ≠ -1) ∧
      s'.registry.fds = s.registry.fds ∧ s'.registry.sem .items = s.registry.sem .items ∧
      s.registry.sem .mutex = s'.registry.sem .mutex + 1

theorem partial_cregUnregister :
    Partial (machine E) anyStep t (cregUnregister fd)
      (fun v s' => UnregisterEffect fd v s s') s := by
  refine .bind (partial_semWait fun hitems => .bind (partial_semWait fun hmutex => ?_))
  refine .bind (partial_regSize (.bind ?_))
  have hmutex : 0 < s.registry.sem .mutex := by simpa using hmutex
  refine partial_searchFd (fun i hi hfd => ?_) fun hno => ?_
  · refine .bind (partial_setRegFd ?_)
    refine partial_recount (m := 0) (k := -1) (g := semPost .countMutex)
      (fun h => partial_semPost (h _ (sameTokens_gate _))) fun u hu => ?_
    refine .bind (partial_semPost (.bind (partial_semPost (.ret ⟨nofun, .ret ?_⟩))))
    have hitems' : u.registry.sem .items = s.registry.sem .items - 1 := by
      simpa using hu.sem .items (by decide)
    have hslots' : u.registry.sem .slots = s.registry.sem .slots := by
      simpa using hu.sem .slots (by decide)
    have hmutex' : u.registry.sem .mutex = s.registry.sem .mutex - 1 := by
      simpa using hu.sem .mutex (by decide)
    constructor
    case n => exact hu.n
    case items =>
      simp only [State.setSem_sem]
      simp [hitems']
      omega
    case slots =>
      simp only [State.setSem_sem]
      simp [hslots']
    case mutex =>
      refine ⟨hmutex, ?_⟩
      simp only [State.setSem_sem]
      simp [hmutex']
      omega
    case table => exact .inl ⟨rfl, i, hi, hfd, hu.fds⟩
  · refine .bind (partial_semPost (.bind (partial_semPost (.ret ?_))))
    constructor
    case n => rfl
    case items =>
      simp
      omega
    case slots => simp
    case mutex =>
      refine ⟨hmutex, ?_⟩
      simp
      omega
    case table => exact .inr ⟨rfl, hno, rfl⟩

theorem partial_cregRegister :
    Partial (machine E) anyStep t (cregRegister fd) (fun v s' => RegisterEffect fd v s s') s := by
  refine .bind (partial_semWait fun hslots => .bind (partial_semWait fun hmutex => ?_))
  have hmutex : 0 < s.registry.sem .mutex := by simpa using hmutex
  refine .bind (.bind (partial_regSize ?_))
  refine partial_searchFd (fun i hi hfd => .ret ⟨nofun, ?_⟩) fun hno => ?_
  · refine .bind (partial_setRegFd ?_)
    refine partial_recount (m := 1) (k := 1) (g := semWait .countMutex)
      (fun h => partial_semWait fun _ => h _ (sameTokens_gate _)) fun u hu => ?_
    refine .bind (partial_semPost (.bind (partial_semPost (.ret ?_))))
    have hitems' : u.registry.sem .items = s.registry.sem .items := by
      simpa using hu.sem .items (by decide)
    have hslots' : u.registry.sem .slots = s.registry.sem .slots - 1 := by
      simpa using hu.sem .slots (by decide)
    have hmutex' : u.registry.sem .mutex = s.registry.sem .mutex - 1 := by
      simpa using hu.sem .mutex (by decide)
    constructor
    case n => exact hu.n
    case slots =>
      simp only [State.setSem_sem]
      simp [hslots']
      omega
    case mutex => exact hmutex
    case table =>
      refine .inl ⟨rfl, ⟨i, hi, hfd, hu.fds⟩, ?_, ?_⟩
      · simp only [State.setSem_sem]
        simp [hitems']
      · simp only [State.setSem_sem]
        simp [hmutex']
        omega
  · refine .ret ?_
    constructor
    case n => rfl
    case slots =>
      simp
      omega
    case mutex => exact hmutex
    case table =>
      refine .inr ⟨rfl, hno, rfl, by simp, ?_⟩
      simp
      omega

/-! ## The failing call -/

/-- In no state does a call of `creg_unregister` return -1 and leave the registry as it was. -/
theorem unregister_never_harmless (s : State E) (t : Nat) (fd : Int) :
    ¬ ∃ s', Runs (machine E) anyStep t (cregUnregister fd) s (-1) s' ∧
      s'.registry = s.registry := by
  rintro ⟨s', hr, heq⟩
  have hitems := (partial_cregUnregister (-1) s' hr).items
  rw [heq] at hitems
  omega

/-! ## Sequences of calls -/

/-- The descriptor is in the registry. -/
def ClientRegistry.Registered (r : ClientRegistry) (fd : Int) : Prop :=
  fd ≠ -1 ∧ ∃ i, i < r.n ∧ r.fds i = fd

/-- Calls that have come to their end, one after the other; `k` of them were to unregister a
descriptor that is not registered. -/
inductive RegistryCalls (s₀ : State E) : Nat → State E → Prop where
  | nil : RegistryCalls s₀ 0 s₀
  | register {k t : Nat} {s s' : State E} {fd v : Int} : RegistryCalls s₀ k s → 0 ≤ fd →
      Runs (machine E) anyStep t (cregRegister fd) s v s' → RegistryCalls s₀ k s'
  | unregister {k t : Nat} {s s' : State E} {fd v : Int} : RegistryCalls s₀ k s →
      s.registry.Registered fd → Runs (machine E) anyStep t (cregUnregister fd) s v s' →
      RegistryCalls s₀ k s'
  | unknown {k t : Nat} {s s' : State E} {fd v : Int} : RegistryCalls s₀ k s →
      ¬ s.registry.Registered fd → Runs (machine E) anyStep t (cregUnregister fd) s v s' →
      RegistryCalls s₀ (k + 1) s'

/-- A register call that found no empty entry keeps the mutex. Otherwise there are `k` items too
few and `k` slots too many. -/
structure Drifted (k : Nat) (r : ClientRegistry) : Prop where
  mutex : r.sem .mutex ≤ 1
  items : r.sem .mutex = 1 → r.sem .items + k = r.occupied
  slots : r.sem .mutex = 1 → r.sem .slots + r.occupied = r.n + k

theorem ClientRegistry.occupied_congr {r r' : ClientRegistry} (hn : r'.n = r.n)
    (hfds : r'.fds = r.fds) : r'.occupied = r.occupied := by
  unfold ClientRegistry.occupied
  rw [hn, hfds]

theorem Drifted.register {k : Nat} (h : Drifted k s.registry) (hfd : 0 ≤ fd)
    (hs : RegisterEffect fd v s s') : Drifted k s'.registry := by
  have hone : s.registry.sem .mutex = 1 := by
    have hle := h.mutex
    have hpos := hs.mutex
    omega
  have hitems := h.items hone
  have hslots := h.slots hone
  rcases hs.table with ⟨_, ⟨i, hi, hempty, hfds⟩, hitems', hmutex'⟩ | ⟨_, _, _, _, hmutex'⟩
  · have hocc : s'.registry.occupied = s.registry.occupied + 1 := by
      have hopen : fd ≠ -1 := by omega
      have hset := ClientRegistry.occupied_set_of_empty hi hempty hopen
      exact (ClientRegistry.occupied_congr (r := { s.registry with
        fds := Function.update s.registry.fds i fd }) hs.n hfds).trans hset
    refine ⟨by omega, fun _ => by omega, fun _ => ?_⟩
    have hslots' := hs.slots
    rw [hs.n]
    omega
  · exact ⟨by omega, fun h => by omega, fun h => by omega⟩

theorem Drifted.unregister {k : Nat} (h : Drifted k s.registry) (hfd : s.registry.Registered fd)
    (hs : UnregisterEffect fd v s s') : Drifted k s'.registry := by
  have hone : s.registry.sem .mutex = 1 := by
    have hle := h.mutex
    have hpos := hs.mutex.1
    omega
  have hitems := h.items hone
  have hslots := h.slots hone
  have hocc : s.registry.occupied = s'.registry.occupied + 1 := by
    rcases hs.table with ⟨_, i, hi, hfull, hfds⟩ | ⟨_, hno, _⟩
    · have hclear := ClientRegistry.occupied_clear hi (hfull.trans_ne hfd.1)
      rw [hclear]
      exact congrArg (· + 1) (ClientRegistry.occupied_congr (r := { s.registry with
        fds := Function.update s.registry.fds i (-1) }) hs.n hfds).symm
    · obtain ⟨i, hi, hfull⟩ := hfd.2
      exact absurd hfull (hno i hi)
  have hitems' := hs.items
  have hslots' := hs.slots
  have hmutex' := hs.mutex.2
  refine ⟨by omega, fun _ => by omega, fun _ => ?_⟩
  rw [hs.n]
  omega

theorem Drifted.unknown {k : Nat} (h : Drifted k s.registry) (hfd : ¬ s.registry.Registered fd)
    (hs : UnregisterEffect fd v s s') : Drifted (k + 1) s'.registry := by
  have hone : s.registry.sem .mutex = 1 := by
    have hle := h.mutex
    have hpos := hs.mutex.1
    omega
  have hitems := h.items hone
  have hslots := h.slots hone
  have hocc : s'.registry.occupied = s.registry.occupied := by
    rcases hs.table with ⟨_, i, hi, hfull, hfds⟩ | ⟨_, _, hfds⟩
    · have hempty : fd = -1 := by
        by_contra hne
        exact hfd ⟨hne, i, hi, hfull⟩
      refine ClientRegistry.occupied_congr hs.n ?_
      rw [hfds, ← hempty, ← hfull, Function.update_eq_self]
    · exact ClientRegistry.occupied_congr hs.n hfds
  have hitems' := hs.items
  have hslots' := hs.slots
  have hmutex' := hs.mutex.2
  refine ⟨by omega, fun _ => by omega, fun _ => ?_⟩
  rw [hs.n]
  omega

/-- The items and slots drift by one with each call that unregisters an unknown descriptor. -/
theorem drifted_of_calls {x : E.State} {n k : Nat} (h : RegistryCalls (State.init E x n) k s) :
    Drifted k s.registry := by
  induction h with
  | nil =>
    have hocc : (State.init E x n).registry.occupied = 0 := by
      simp [ClientRegistry.occupied, State.init]
    refine ⟨le_rfl, fun _ => ?_, fun _ => ?_⟩
    · rw [hocc]
      rfl
    · rw [hocc]
      rfl
  | register _ hfd hr ih => exact ih.register hfd (partial_cregRegister _ _ hr)
  | unregister _ hfd hr ih => exact ih.unregister hfd (partial_cregUnregister _ _ hr)
  | unknown _ hfd hr ih => exact ih.unknown hfd (partial_cregUnregister _ _ hr)

/-- As many such calls as there are clients, and no client can unregister. -/
theorem no_unregister_of_drift {x : E.State} {n : Nat}
    (h : RegistryCalls (State.init E x n) s.registry.occupied s) (t : Nat) (fd : Int) :
    ¬ ∃ v s', Runs (machine E) anyStep t (cregUnregister fd) s v s' := by
  rintro ⟨v, s', hr⟩
  have hs := partial_cregUnregister v s' hr
  have hd := drifted_of_calls h
  have hitems := hd.items (by
    have hle := hd.mutex
    have hpos := hs.mutex.1
    omega)
  have hpos := hs.items
  omega

/-- Thread 0 runs the code to its end, and everything goes smoothly. -/
def runAlone (p : Code Int) (s : State (.fixed 1 1)) : Option (Int × State (.fixed 1 1)) :=
  (machine (.fixed 1 1)).finish (fun o s => some (.smooth () o s)) 0 40 p s

theorem runs_of_runAlone {p : Code Int} {s s' : State (.fixed 1 1)} {v : Int}
    (h : runAlone p s = some (v, s')) : Runs (machine (.fixed 1 1)) anyStep 0 p s v s' :=
  .of_finish (fun _ _ _ _ => trivial) h

/-- One client is registered, and descriptor 7 is not: the call that unregisters it returns -1,
and after it the client cannot unregister. -/
theorem unregister_locks_out : ∃ s s' : State (.fixed 1 1),
    RegistryCalls (State.init (.fixed 1 1) () 2) 0 s ∧ s.registry.Registered 3 ∧
      ¬ s.registry.Registered 7 ∧
      Runs (machine (.fixed 1 1)) anyStep 0 (cregUnregister 7) s (-1) s' ∧
      s'.registry.sem .items ≠ s.registry.sem .items ∧ s'.registry.Registered 3 ∧
      ¬ ∃ t v s'', Runs (machine (.fixed 1 1)) anyStep t (cregUnregister 3) s' v s'' := by
  obtain ⟨⟨v, s⟩, hregister, hs⟩   := (Option.any_eq_true _ _).mp
    (show ((runAlone (cregRegister 3) (State.init _ () 2)).any fun p =>
      p.2.registry.n = 2 ∧ p.2.registry.fds 0 = 3 ∧ p.2.registry.fds 1 = -1 ∧
        (runAlone (cregUnregister 7) p.2).any fun q => q.1 = -1 ∧ q.2.registry.sem .items = 0 ∧
          q.2.registry.n = 2 ∧ q.2.registry.fds 0 = 3) = true by decide +kernel)
  obtain ⟨hn, hfirst, hsecond, hfailed⟩ := of_decide_eq_true hs
  obtain ⟨⟨w, s'⟩, hunregister, hs'⟩ := (Option.any_eq_true _ _).mp hfailed
  obtain ⟨rfl, hitems, hn', hfirst'⟩ := of_decide_eq_true hs'
  dsimp only at hn hfirst hsecond hitems hn' hfirst' hunregister
  refine ⟨s, s', .register .nil (by decide) (runs_of_runAlone hregister),
    ⟨by decide, 0, ?_, hfirst⟩, ?_, runs_of_runAlone hunregister, ?_,
    ⟨by decide, 0, ?_, hfirst'⟩, ?_⟩
  · omega
  · rintro ⟨_, i, hi, hfd⟩
    obtain rfl | rfl : i = 0 ∨ i = 1 := by omega
    · omega
    · omega
  · have htaken := (partial_cregUnregister _ _ (runs_of_runAlone hunregister)).items
    omega
  · omega
  · rintro ⟨t, v, s'', hr⟩
    have hpos := (partial_cregUnregister v s'' hr).items
    omega

end BourseServer
