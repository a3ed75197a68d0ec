import BourseServer.Concurrency.Tally
import BourseServer.Machine.State

/-!
# The tokens of the registry

Each thread holds tokens while it registers and unregisters a descriptor: a slot from `P(slots)`
to `V(slots)`, the mutex, an item from `V(items)` to `P(items)`, and one each for having stored
its descriptor, for having counted it, and for having closed the gate `count_mutex`, on its own
or behind another client. `Balanced` says that the registry agrees with what all threads hold.
The lemmas say what keeps the balance: an exchange of tokens with the semaphores, a store to
`fds`, and an update of `count`.
-/
namespace BourseServer

open Concurrency

/-- What a thread holds, and the descriptor it has a slot for. -/
structure Tokens where
  fd : Int
  slot : Bool
  item : Bool
  crit : Bool
  stored : Bool
  counted : Bool
  opened : Bool
  deriving DecidableEq, Repr

namespace Tokens

/-- Nothing at all. -/
@[simp] def none : Tokens := ⟨-1, false, false, false, false, false, false⟩

/-! What a thread holds on its way through `creg_register`, and back through
`creg_unregister`. -/

@[simp] def entered (fd : Int) : Tokens := ⟨fd, true, false, false, false, false, false⟩
@[simp] def locked (fd : Int) : Tokens := { entered fd with crit := true }
@[simp] def placed (fd : Int) : Tokens := { locked fd with stored := true }
@[simp] def tallied (fd : Int) : Tokens := { placed fd with counted := true }
@[simp] def gated (fd : Int) : Tokens := { tallied fd with opened := true }
@[simp] def announced (fd : Int) : Tokens := { gated fd with crit := false }
@[simp] def resting (fd : Int) : Tokens := { announced fd with item := true }
@[simp] def cleared (fd : Int) : Tokens := { gated fd with stored := false }
@[simp] def dropped (fd : Int) : Tokens := { cleared fd with counted := false }

/-- What holds of a thread at any point. Outside the critical section its descriptor is stored
if and only if it is counted, and then the gate is closed for it. -/
structure Coherent (g : Tokens) : Prop where
  outside : g.crit = false → g.counted = g.stored ∧ g.opened = g.stored
  slot : g.stored = true → g.slot = true
  item : g.item = true → g.stored = true
  counted : g.counted = true → g.stored = true ∨ g.opened = true

theorem coherent_none : none.Coherent := by
  constructor <;> simp [none]

end Tokens

namespace ClientRegistry

/-- How many entries of `fds` are descriptors. -/
def occupied (r : ClientRegistry) : Nat := {i ∈ Finset.range r.n | r.fds i ≠ -1}.card

variable {r : ClientRegistry} {i : Nat} {fd : Int}

theorem occupied_set_of_empty (hi : i < r.n) (hempty : r.fds i = -1) (hfd : fd ≠ -1) :
    occupied { r with fds := Function.update r.fds i fd } = r.occupied + 1 := by
  have hset : ({j ∈ Finset.range r.n | Function.update r.fds i fd j ≠ -1} : Finset Nat) =
      insert i {j ∈ Finset.range r.n | r.fds j ≠ -1} := by
    ext j
    by_cases hj : j = i
    · subst hj
      simp [hi, hfd]
    · simp [hj]
  unfold occupied
  rw [hset]
  exact Finset.card_insert_of_notMem (by simp [hempty])

theorem occupied_clear (hi : i < r.n) (hfull : r.fds i ≠ -1) :
    r.occupied = occupied { r with fds := Function.update r.fds i (-1) } + 1 := by
  have hempty : Function.update r.fds i (-1) i = -1 := Function.update_self ..
  have hback := occupied_set_of_empty (r := { r with fds := Function.update r.fds i (-1) })
    hi hempty hfull
  simp only [Function.update_idem, Function.update_eq_self] at hback
  exact hback

/-- A registry that is not full has an empty entry. -/
theorem exists_empty (h : r.occupied < r.n) : ∃ i, i < r.n ∧ r.fds i = -1 := by
  by_contra hno
  push Not at hno
  have hall : ({j ∈ Finset.range r.n | r.fds j ≠ -1} : Finset Nat) = Finset.range r.n := by
    apply Finset.filter_true_of_mem
    intro j hj
    exact hno j (Finset.mem_range.mp hj)
  unfold occupied at h
  rw [hall, Finset.card_range] at h
  omega

end ClientRegistry

/-- The registry agrees with the tokens of the threads; `waits` counts those who have taken
`count_mutex` in `creg_wait_for_empty`. -/
structure Balanced (r : ClientRegistry) (waits : Nat) (g : Nat → Tokens) : Prop where
  slots : ∃ k, Tally (fun t => (g t).slot = true) k ∧ r.sem .slots + k = r.n
  mutex : ∃ k, Tally (fun t => (g t).crit = true) k ∧ r.sem .mutex + k = 1
  items : Tally (fun t => (g t).item = true) (r.sem .items)
  count : ∃ k, Tally (fun t => (g t).counted = true) k ∧ r.count = k
  gate : ∃ k, Tally (fun t => (g t).opened = true) k ∧
    r.sem .countMutex + min k 1 + waits = 1
  occupied : Tally (fun t => (g t).stored = true) r.occupied
  entry : ∀ t, (g t).stored = true → ∃ i, i < r.n ∧ r.fds i = (g t).fd
  owner : ∀ i, i < r.n → r.fds i ≠ -1 → ∃ t, (g t).stored = true ∧ (g t).fd = r.fds i
  single : ∀ i j, i < r.n → j < r.n → r.fds i = r.fds j → r.fds i ≠ -1 → i = j
  coherent : ∀ t, (g t).Coherent
  valid : ∀ t, (g t).slot = true → 0 ≤ (g t).fd

namespace Balanced

variable {r : ClientRegistry} {waits : Nat} {g : Nat → Tokens} {t u : Nat}

theorem forall_update {P : Tokens → Prop} {v : Tokens} (hv : P v) (hg : ∀ u, u ≠ t → P (g u))
    (u : Nat) : P (Function.update g t v u) := by
  by_cases hu : u = t
  · subst hu
    rwa [Function.update_self]
  · rw [Function.update_of_ne hu]
    exact hg u hu

theorem init (n : Nat) :
    Balanced ⟨n, fun _ => -1, 0, fun
      | .countMutex => 1
      | .mutex => 1
      | .items => 0
      | .slots => n⟩ 0 fun _ => .none where
  slots := ⟨0, Tally.none.congr (by simp [Tokens.none]), rfl⟩
  mutex := ⟨0, Tally.none.congr (by simp [Tokens.none]), rfl⟩
  items := Tally.none.congr (by simp [Tokens.none])
  count := ⟨0, Tally.none.congr (by simp [Tokens.none]), rfl⟩
  gate := ⟨0, Tally.none.congr (by simp [Tokens.none]), rfl⟩
  occupied := by
    have hzero : ClientRegistry.occupied ⟨n, fun _ => -1, 0, fun
      | .countMutex => 1
      | .mutex => 1
      | .items => 0
      | .slots => n⟩ = 0 := by simp [ClientRegistry.occupied]
    rw [hzero]
    exact Tally.none.congr (by simp [Tokens.none])
  entry := by simp [Tokens.none]
  owner := by simp
  single := by simp
  coherent _ := Tokens.coherent_none
  valid := by simp [Tokens.none]

/-! ## What the tokens say -/

/-- At most one thread is in the critical section. -/
theorem crit_unique (h : Balanced r waits g) (ht : (g t).crit = true) (hu : (g u).crit = true) :
    u = t := by
  by_contra hne
  obtain ⟨k, hk, hsum⟩ := h.mutex
  have htwo := hk.two_le hu ht hne
  omega

theorem items_pos (h : Balanced r waits g) (ht : (g t).item = true) : 0 < r.sem .items :=
  h.items.pos ht

/-- For the thread in the critical section, the other clients that are counted are those for
which the gate is closed. -/
theorem others_opened (h : Balanced r waits g) (ht : (g t).crit = true) {m : Nat}
    (hm : Tally (fun u => u ≠ t ∧ (g u).opened = true) m) :
    r.count = m + (g t).counted.toNat := by
  obtain ⟨k, hk, hcount⟩ := h.count
  obtain ⟨m', hm', hsum⟩ := hk.others t
  have hsame : m' = m := by
    refine hm'.unique (hm.congr fun u => ?_)
    by_cases hu : u = t
    · simp [hu]
    · have hout : (g u).crit = false := by
        by_contra hin
        exact hu (h.crit_unique ht (by simpa using hin))
      obtain ⟨h₁, h₂⟩ := (h.coherent u).outside hout
      rw [h₁, h₂]
  omega

/-- A thread that has a slot and has stored nothing finds an empty entry. -/
theorem exists_empty (h : Balanced r waits g) (hslot : (g t).slot = true)
    (hstored : (g t).stored = false) : ∃ i, i < r.n ∧ r.fds i = -1 := by
  obtain ⟨k, hk, hsum⟩ := h.slots
  have hlt := h.occupied.lt_of_imp hk (fun u => (h.coherent u).slot) hslot (by simp [hstored])
  apply ClientRegistry.exists_empty
  omega

/-! ## What keeps the balance -/

/-- A tally of a flag that does not change. -/
theorem flag {f : Tokens → Bool} {P : Nat → Prop} {v : Tokens}
    (h : ∃ k, Tally (fun u => f (g u) = true) k ∧ P k) (hv : f v = f (g t)) :
    ∃ k, Tally (fun u => f (Function.update g t v u) = true) k ∧ P k := by
  obtain ⟨k, hk, hP⟩ := h
  exact ⟨k, hk.keep hv, hP⟩

/-- Thread `t` exchanges tokens with the semaphores. -/
theorem exchange {sem : Sem → Nat} {waits' : Nat} {v : Tokens} (h : Balanced r waits g)
    (hv : v.Coherent) (hvalid : v.slot = true → 0 ≤ v.fd)
    (hslots : sem .slots + v.slot.toNat = r.sem .slots + (g t).slot.toNat)
    (hmutex : sem .mutex + v.crit.toNat = r.sem .mutex + (g t).crit.toNat)
    (hitems : sem .items + (g t).item.toNat = r.sem .items + v.item.toNat)
    (hgate : ∀ m, Tally (fun u => u ≠ t ∧ (g u).opened = true) m →
      sem .countMutex + min (m + v.opened.toNat) 1 + waits' =
        r.sem .countMutex + min (m + (g t).opened.toNat) 1 + waits)
    (hcounted : v.counted = (g t).counted) (hstored : v.stored = (g t).stored)
    (hfd : v.stored = true → v.fd = (g t).fd) :
    Balanced { r with sem := sem } waits' (Function.update g t v) := by
  have hkept : ∀ u, (Function.update g t v u).stored = (g u).stored ∧
      ((g u).stored = true → (Function.update g t v u).fd = (g u).fd) := by
    intro u
    by_cases hu : u = t
    · subst hu
      rw [Function.update_self]
      exact ⟨hstored, fun hin => hfd (hstored.trans hin)⟩
    · rw [Function.update_of_ne hu]
      exact ⟨rfl, fun _ => rfl⟩
  constructor
  case slots =>
    obtain ⟨k, hk, hsum⟩ := h.slots
    obtain ⟨m, hm, hnew⟩ := Tally.update (f := Tokens.slot) hk t v
    refine ⟨_, hnew, ?_⟩
    simp only
    omega
  case mutex =>
    obtain ⟨k, hk, hsum⟩ := h.mutex
    obtain ⟨m, hm, hnew⟩ := Tally.update (f := Tokens.crit) hk t v
    refine ⟨_, hnew, ?_⟩
    simp only
    omega
  case items =>
    obtain ⟨m, hm, hnew⟩ := Tally.update (f := Tokens.item) h.items t v
    have hsem : sem .items = m + v.item.toNat := by omega
    rw [← hsem] at hnew
    exact hnew
  case count => exact flag (f := Tokens.counted) h.count hcounted
  case gate =>
    obtain ⟨k, hk, hsum⟩ := h.gate
    obtain ⟨m, hm, hnew⟩ := Tally.update (f := Tokens.opened) hk t v
    obtain ⟨m', hm', hk'⟩ := Tally.others (f := Tokens.opened) hk t
    have hsame : m' = m := by omega
    rw [hsame] at hm'
    refine ⟨_, hnew, ?_⟩
    have hgate := hgate m hm'
    simp only
    omega
  case occupied =>
    exact h.occupied.congr fun u => by rw [(hkept u).1]
  case entry =>
    intro u hu
    rw [(hkept u).1] at hu
    rw [(hkept u).2 hu]
    exact h.entry u hu
  case owner =>
    intro i hi hfull
    obtain ⟨u, hu, hfd'⟩ := h.owner i hi hfull
    exact ⟨u, (hkept u).1.trans hu, ((hkept u).2 hu).trans hfd'⟩
  case single => exact h.single
  case coherent => exact forall_update hv fun u _ => h.coherent u
  case valid =>
    refine forall_update (P := fun x => x.slot = true → 0 ≤ x.fd) hvalid ?_
    exact fun u _ => h.valid u

/-- The thread in the critical section changes its tokens for the table only, and entry `i`. -/
theorem set {i : Nat} {fd : Int} {v : Tokens} (h : Balanced r waits g)
    (hin : (g t).crit = true) (hv : v.Coherent) (hslot : v.slot = (g t).slot)
    (hcrit : v.crit = (g t).crit) (hitem : v.item = (g t).item)
    (hcounted : v.counted = (g t).counted) (hopened : v.opened = (g t).opened)
    (hfd : v.fd = (g t).fd)
    (hoccupied : ∀ m, Tally (fun u => u ≠ t ∧ (g u).stored = true) m →
      m + v.stored.toNat =
        ClientRegistry.occupied { r with fds := Function.update r.fds i fd })
    (hentry : v.stored = true → i < r.n ∧ fd = v.fd)
    (howner : fd ≠ -1 → v.stored = true ∧ v.fd = fd)
    (hlost : ∀ u, u ≠ t → (g u).stored = true → r.fds i ≠ (g u).fd ∧ fd ≠ (g u).fd)
    (hfound : ∀ j, j < r.n → j ≠ i → r.fds j ≠ (g t).fd) :
    Balanced { r with fds := Function.update r.fds i fd } waits (Function.update g t v) := by
  constructor
  case slots => exact flag (f := Tokens.slot) h.slots hslot
  case mutex => exact flag (f := Tokens.crit) h.mutex hcrit
  case items => exact h.items.keep (f := Tokens.item) hitem
  case count => exact flag (f := Tokens.counted) h.count hcounted
  case gate => exact flag (f := Tokens.opened) h.gate hopened
  case occupied =>
    obtain ⟨m, hm, hnew⟩ := Tally.update (f := Tokens.stored) h.occupied t v
    obtain ⟨m', hm', hk'⟩ := Tally.others (f := Tokens.stored) h.occupied t
    have hsame : m' = m := by omega
    rw [hsame] at hm'
    rwa [hoccupied m hm'] at hnew
  case entry =>
    refine forall_update (P := fun x => x.stored = true → ∃ j, j < r.n ∧
      Function.update r.fds i fd j = x.fd) ?_ ?_
    · intro hst
      obtain ⟨hi, hfdv⟩ := hentry hst
      exact ⟨i, hi, by rw [Function.update_self, hfdv]⟩
    · intro u hu hst
      obtain ⟨j, hj, hfdj⟩ := h.entry u hst
      have hji : j ≠ i := by
        rintro rfl
        exact (hlost u hu hst).1 hfdj
      exact ⟨j, hj, by rw [Function.update_of_ne hji, hfdj]⟩
  case owner =>
    intro j hj hfull
    by_cases hji : j = i
    · subst hji
      simp only [Function.update_self] at hfull ⊢
      obtain ⟨hst, hfdv⟩ := howner hfull
      exact ⟨t, by simp [hst], by simp [hfdv]⟩
    · simp only [Function.update_of_ne hji] at hfull ⊢
      obtain ⟨u, hu, hfdu⟩ := h.owner j hj hfull
      have hut : u ≠ t := by
        rintro rfl
        exact hfound j hj hji hfdu.symm
      exact ⟨u, by simp [hut, hu], by simp [hut, hfdu]⟩
  case single =>
    intro j k hj hk heq hfull
    change Function.update r.fds i fd j = Function.update r.fds i fd k at heq
    change Function.update r.fds i fd j ≠ -1 at hfull
    have hnew : ∀ j, j < r.n → j ≠ i → r.fds j ≠ -1 → fd ≠ -1 → r.fds j ≠ fd := by
      intro j hj hji hfullj hfull heq
      obtain ⟨_, hfdv⟩ := howner hfull
      exact hfound j hj hji (by rw [heq, ← hfdv, hfd])
    by_cases hji : j = i
    · by_cases hki : k = i
      · rw [hji, hki]
      · rw [hji, Function.update_self] at heq hfull
        rw [Function.update_of_ne hki] at heq
        exact absurd heq.symm (hnew k hk hki (by rwa [← heq]) hfull)
    · rw [Function.update_of_ne hji] at heq hfull
      by_cases hki : k = i
      · rw [hki, Function.update_self] at heq
        exact absurd heq (hnew j hj hji hfull (by rwa [← heq]))
      · rw [Function.update_of_ne hki] at heq
        exact h.single j k hj hk heq hfull
  case coherent => exact forall_update hv fun u _ => h.coherent u
  case valid =>
    refine forall_update (P := fun x => x.slot = true → 0 ≤ x.fd) ?_ fun u _ => h.valid u
    rw [hslot, hfd]
    exact h.valid t

/-- Thread `t` stores its descriptor in an empty entry. -/
theorem store {i : Nat} (h : Balanced r waits g) (hi : i < r.n) (hempty : r.fds i = -1)
    (hslot : (g t).slot = true) (hin : (g t).crit = true) (hnot : (g t).stored = false)
    (hcounted : (g t).counted = false) (hitem : (g t).item = false)
    (hnew : ∀ u, u ≠ t → (g u).slot = true → (g u).fd ≠ (g t).fd) :
    Balanced { r with fds := Function.update r.fds i (g t).fd } waits
      (Function.update g t { g t with stored := true }) := by
  have hvalid := h.valid t hslot
  have hfd : (g t).fd ≠ -1 := by omega
  apply h.set
  case hin => exact hin
  case hv =>
    constructor
    · simp [hin]
    · simp [hslot]
    · simp
    · simp
  case hoccupied =>
    intro m hm
    obtain ⟨m', hm', hk⟩ := Tally.others (f := Tokens.stored) h.occupied t
    rw [ClientRegistry.occupied_set_of_empty hi hempty hfd, hk, hnot, hm.unique hm']
    rfl
  case hentry => exact fun _ => ⟨hi, rfl⟩
  case howner => exact fun _ => ⟨rfl, rfl⟩
  case hlost =>
    intro u hu hst
    have hother := (h.coherent u).slot hst
    constructor
    · rw [hempty]
      have := h.valid u hother
      omega
    · exact (hnew u hu hother).symm
  case hfound =>
    intro j hj _ heq
    obtain ⟨u, hu, hfdu⟩ := h.owner j hj (by rwa [heq])
    by_cases hut : u = t
    · subst hut
      rw [hnot] at hu
      cases hu
    · exact hnew u hut ((h.coherent u).slot hu) (hfdu.trans heq)
  all_goals rfl

/-- Thread `t` clears the entry of its descriptor. -/
theorem clear {i : Nat} (h : Balanced r waits g) (hi : i < r.n) (hfd : r.fds i = (g t).fd)
    (hin : (g t).crit = true) (hst : (g t).stored = true) (hopened : (g t).opened = true)
    (hitem : (g t).item = false)
    (hnew : ∀ u, u ≠ t → (g u).slot = true → (g u).fd ≠ (g t).fd) :
    Balanced { r with fds := Function.update r.fds i (-1) } waits
      (Function.update g t { g t with stored := false }) := by
  have hvalid := h.valid t ((h.coherent t).slot hst)
  have hfull : r.fds i ≠ -1 := by omega
  apply h.set
  case hin => exact hin
  case hv =>
    constructor
    · simp [hin]
    · simp
    · simp [hitem]
    · simp [hopened]
  case hoccupied =>
    intro m hm
    obtain ⟨m', hm', hk⟩ := Tally.others (f := Tokens.stored) h.occupied t
    have hone := ClientRegistry.occupied_clear hi hfull
    have hsame := hm.unique hm'
    rw [hst] at hk
    simp only [Bool.toNat_true, Bool.toNat_false] at hk ⊢
    omega
  case hentry => simp
  case howner => simp
  case hlost =>
    intro u hu hst'
    have hother := (h.coherent u).slot hst'
    constructor
    · rw [hfd]
      exact (hnew u hu hother).symm
    · have := h.valid u hother
      omega
  case hfound =>
    intro j hj hji heq
    exact hji (h.single j i hj hi (heq.trans hfd.symm) (by rwa [heq, ← hfd]))
  all_goals rfl

/-- Thread `t`, in the critical section, writes back `count`. -/
theorem setCount {b : Bool} {n : Int} (h : Balanced r waits g) (hin : (g t).crit = true)
    (hcoherent : b = true → (g t).stored = true ∨ (g t).opened = true)
    (hn : n + (g t).counted.toNat = r.count + b.toNat) :
    Balanced { r with count := n } waits (Function.update g t { g t with counted := b }) := by
  have hkept : ∀ u, (Function.update g t { g t with counted := b } u).stored = (g u).stored ∧
      (Function.update g t { g t with counted := b } u).fd = (g u).fd := by
    intro u
    by_cases hu : u = t
    · subst hu
      simp
    · simp [hu]
  constructor
  case slots => exact flag (f := Tokens.slot) h.slots rfl
  case mutex => exact flag (f := Tokens.crit) h.mutex rfl
  case items => exact h.items.keep (f := Tokens.item) rfl
  case count =>
    obtain ⟨k, hk, hcount⟩ := h.count
    obtain ⟨m, hm, hnew⟩ := Tally.update (f := Tokens.counted) hk t { g t with counted := b }
    refine ⟨_, hnew, ?_⟩
    simp only
    push_cast
    omega
  case gate => exact flag (f := Tokens.opened) h.gate rfl
  case occupied => exact h.occupied.congr fun u => by rw [(hkept u).1]
  case entry =>
    intro u hu
    rw [(hkept u).1] at hu
    rw [(hkept u).2]
    exact h.entry u hu
  case owner =>
    intro i hi hfull
    obtain ⟨u, hu, hfdu⟩ := h.owner i hi hfull
    exact ⟨u, (hkept u).1.trans hu, (hkept u).2.trans hfdu⟩
  case single => exact h.single
  case coherent =>
    refine forall_update ?_ fun u _ => h.coherent u
    constructor
    · simp [hin]
    · exact (h.coherent t).slot
    · exact (h.coherent t).item
    · exact hcoherent
  case valid =>
    exact forall_update (P := fun x => x.slot = true → 0 ≤ x.fd) (h.valid t) fun u _ => h.valid u

end Balanced

end BourseServer
