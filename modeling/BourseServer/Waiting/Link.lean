import BourseServer.Registry.Shutdown
import BourseServer.Trader.LockBalance
import BourseServer.Waiting.Code

/-!
# What the threads hold, and the process

The state of a mutex, of the semaphore `slots` and the recorded holder of the registry's mutex agree
with what the threads hold. Every action of a run before the first signal keeps this link, if the
writes of the trader module succeed and the memory of a new trader does not look like a mutex that
somebody holds.
-/
namespace BourseServer.Waiting

open Concurrency Typestate

variable {E : Exchange} {t u n : Nat} {o : Op} {e : Choice E} {s s' : State E} {r : o.Reply}
  {h : Nat → Held} {y y' : Held}

/-! ## What an action leaves alone -/

theorem next_inside (hn : y.next o r = some y') (ho : o.writesFrames = false) :
    y'.inside = y.inside := by
  cases o
  case write fd bs =>
    simp only [Held.next] at hn
    split_ifs at hn
    cases hn
    rfl
  case semWait x => cases x <;> cases hn <;> rfl
  case semPost x => cases x <;> cases hn <;> rfl
  all_goals first | (cases hn; rfl) | cases ho

theorem next_mutexes (hn : y.next o r = some y') (hlock : ∀ a, o ≠ .lock a)
    (hunlock : ∀ a, o ≠ .unlock a) : y'.mutexes = y.mutexes := by
  cases o
  case write fd bs =>
    simp only [Held.next] at hn
    split_ifs at hn
    cases hn
    rfl
  case semWait x => cases x <;> cases hn <;> rfl
  case semPost x => cases x <;> cases hn <;> rfl
  case lock a => exact absurd rfl (hlock a)
  case unlock a => exact absurd rfl (hunlock a)
  all_goals (cases hn; rfl)

theorem next_slot (hn : y.next o r = some y') (hwait : o ≠ .semWait .slots)
    (hpost : o ≠ .semPost .slots) : y'.slot = y.slot := by
  cases o
  case write fd bs =>
    simp only [Held.next] at hn
    split_ifs at hn
    cases hn
    rfl
  case semWait x =>
    cases x
    case slots => exact absurd rfl hwait
    all_goals (cases hn; rfl)
  case semPost x =>
    cases x
    case slots => exact absurd rfl hpost
    all_goals (cases hn; rfl)
  all_goals (cases hn; rfl)

/-- The parts that only the registry and the connection concern. -/
structure Alike (y y' : Held) : Prop where
  fresh : y'.fresh = y.fresh
  slot : y'.slot = y.slot
  registry : y'.registry = y.registry
  fd : y'.fd = y.fd

theorem next_alike (hn : y.next o r = some y') (hwait : ∀ x, o ≠ .semWait x)
    (hpost : ∀ x, o ≠ .semPost x) (hclose : ∀ fd, o ≠ .close fd) : Alike y y' := by
  cases o
  case write fd bs =>
    simp only [Held.next] at hn
    split_ifs at hn
    cases hn
    exact ⟨rfl, rfl, rfl, rfl⟩
  case semWait x => exact absurd rfl (hwait x)
  case semPost x => exact absurd rfl (hpost x)
  case close fd => exact absurd rfl (hclose fd)
  all_goals
    cases hn
    exact ⟨rfl, rfl, rfl, rfl⟩

/-- A mutex without an owner is free. -/
def Sane (m : Mutex) : Prop := m.owner = none → m.depth = 0

theorem sane_of_update {a : Nat} {tr : Option Trader}
    (hs : s'.traders = Function.update s.traders a tr)
    (h : ∀ a tr, s.traders a = some tr → Sane tr.mutex) (ho : ∀ x, tr = some x → Sane x.mutex)
    (b : Nat) (x : Trader) (hb : s'.traders b = some x) : Sane x.mutex := by
  rw [hs] at hb
  by_cases hba : b = a
  · subst hba
    exact ho x (by simpa using hb)
  · exact h b x (by simpa [hba] using hb)

theorem sane_unlock {m : Mutex} (h : Sane m) : Sane (m.unlock t) := by
  intro hn
  unfold Mutex.unlock at hn ⊢
  split_ifs at hn ⊢ with ho hd
  · rfl
  · rw [ho] at hn
    cases hn
  · exact h hn

theorem exec_sane (he : exec t o e s = .done r s')
    (hs : ∀ a tr, s.traders a = some tr → Sane tr.mutex)
    (hjunk : ∀ a junk, o = .mallocTrader → e = .trader a junk → junk.mutex.depth = 0) :
    ∀ a tr, s'.traders a = some tr → Sane tr.mutex := by
  cases o
  case lock a =>
    obtain ⟨tr, m, htr, hm, rfl⟩ := exec_lock he
    refine sane_of_update (a := a) rfl hs ?_
    rintro _ ⟨⟩ hn
    rw [Mutex.owner_of_lock hm] at hn
    cases hn
  case unlock a =>
    obtain ⟨tr, htr, rfl⟩ := exec_unlock he
    refine sane_of_update (a := a) rfl hs ?_
    rintro _ ⟨⟩
    exact sane_unlock (hs a tr htr)
  case mutexInit a =>
    obtain ⟨tr, htr, rfl⟩ := exec_mutexInit he
    refine sane_of_update (a := a) rfl hs ?_
    rintro _ ⟨⟩ _
    rfl
  case mallocTrader =>
    obtain ⟨junk, rfl, _, rfl⟩ := exec_mallocTrader he
    refine sane_of_update (a := r) rfl hs ?_
    rintro _ ⟨⟩ _
    exact hjunk r junk rfl rfl
  case freeTrader a =>
    obtain ⟨tr, htr, rfl⟩ := exec_freeTrader he
    exact sane_of_update (a := a) rfl hs (fun _ h => by cases h)
  case store f a v =>
    obtain ⟨tr, htr, rfl⟩ := exec_store he
    refine sane_of_update (a := a) rfl hs ?_
    rintro _ ⟨⟩
    simpa [Sane] using hs a tr htr
  all_goals
    have hf := (exec_frame he).traders rfl
    rw [hf]
    exact hs

/-- The semaphore `slots` is only changed by its own operations. -/
theorem exec_slots (he : exec t o e s = .done r s') (hwait : o ≠ .semWait .slots)
    (hpost : o ≠ .semPost .slots) : s'.registry.sem .slots = s.registry.sem .slots := by
  cases o
  case semWait x =>
    obtain ⟨_, rfl⟩ := exec_semWait he
    cases x
    case slots => exact absurd rfl hwait
    all_goals rfl
  case semPost x =>
    obtain rfl := exec_semPost he
    cases x
    case slots => exact absurd rfl hpost
    all_goals rfl
  case setRegFd i fd =>
    cases he
    rfl
  case setRegCount m =>
    cases he
    rfl
  all_goals rw [(exec_frame he).registry rfl]

/-! ## The server -/

/-- The state of the server agrees with what the threads hold; `n` is the number of slots. -/
structure Agrees (n : Nat) (s : State E) (h : Nat → Held) : Prop where
  frames : ∀ t, (h t).inside = (s.hist.frames t).length
  depth : ∀ t a, s.depth t a ≤ (h t).mutexes.count a
  sane : ∀ a tr, s.traders a = some tr → Sane tr.mutex
  slots : ∃ k, Tally (fun t => (h t).slot = true) k ∧ s.registry.sem .slots + k = n

namespace Agrees

theorem frames_exec (ha : Agrees n s h) (he : exec t o e s = .done r s')
    (hn : (h t).next o r = some y') (u : Nat) :
    (Function.update h t y' u).inside = (s'.hist.frames u).length := by
  by_cases hu : u = t
  · subst hu
    rw [Function.update_self]
    have hin := ha.frames u
    cases o
    case enter c =>
      cases he
      cases hn
      simp [History.enter, hin]
    case leave v =>
      cases he
      cases hn
      unfold History.leave
      split
      · rename_i hnil
        simp [hin, hnil]
      · rename_i c rest hcons
        simp [hin, hcons]
    all_goals rw [next_inside hn rfl, hin, (exec_frame he).frames rfl]
  · rw [Function.update_of_ne hu, exec_frames_of_ne he hu]
    exact ha.frames u

theorem depth_exec (ha : Agrees n s h) (he : exec t o e s = .done r s')
    (hn : (h t).next o r = some y') (u b : Nat) :
    s'.depth u b ≤ (Function.update h t y' u).mutexes.count b := by
  by_cases hu : u = t
  · subst hu
    rw [Function.update_self]
    have hle := ha.depth u b
    cases o
    case lock a =>
      cases hn
      refine (LockBalance.exec_lock_depth he b).trans ?_
      by_cases hb : b = a
      · subst hb
        simpa [Held.take] using hle
      · simpa [Held.take, hb, List.count_cons_of_ne (Ne.symm hb)] using hle
    case unlock a =>
      cases hn
      by_cases hb : b = a
      · subst hb
        rw [LockBalance.exec_unlock_depth he, List.count_erase_self]
        omega
      · rw [List.count_erase_of_ne hb]
        exact (LockBalance.exec_depth he fun _ h => by cases h).trans hle
    all_goals
      rw [next_mutexes hn (fun _ h => by cases h) fun _ h => by cases h]
      exact (LockBalance.exec_depth he fun _ h => by cases h).trans hle
  · rw [Function.update_of_ne hu]
    exact (LockBalance.exec_depth he fun _ _ => hu).trans (ha.depth u b)

theorem slots_exec (ha : Agrees n s h) (he : exec t o e s = .done r s')
    (hallow : (h t).allow o) (hn : (h t).next o r = some y') :
    ∃ k, Tally (fun u => (Function.update h t y' u).slot = true) k ∧
      s'.registry.sem .slots + k = n := by
  obtain ⟨k, hk, hsum⟩ := ha.slots
  by_cases hwait : o = .semWait .slots
  · subst hwait
    obtain ⟨hpos, rfl⟩ := exec_semWait he
    cases hn
    obtain ⟨m, hm, hnew⟩ := hk.update t { h t with fresh := false, slot := true }
    have hslot : (h t).slot = false := hallow.2.2.1
    refine ⟨m + 1, hnew, ?_⟩
    simp only [hslot, Bool.toNat_false, Nat.add_zero] at hm
    simp only [Function.update_self]
    omega
  · by_cases hpost : o = .semPost .slots
    · subst hpost
      obtain rfl := exec_semPost he
      cases hn
      obtain ⟨m, hm, hnew⟩ := hk.update t { h t with slot := false }
      have hslot : (h t).slot = true := hallow
      refine ⟨m, hnew, ?_⟩
      simp only [hslot, Bool.toNat_true] at hm
      simp only [Function.update_self]
      omega
    · rw [exec_slots he hwait hpost]
      exact ⟨k, hk.keep (next_slot hn hwait hpost), hsum⟩

/-- Every action that is allowed keeps the agreement. -/
theorem exec (ha : Agrees n s h) (he : BourseServer.exec t o e s = .done r s')
    (hallow : (h t).allow o) (hn : (h t).next o r = some y')
    (hjunk : ∀ a junk, o = .mallocTrader → e = .trader a junk → junk.mutex.depth = 0) :
    Agrees n s' (Function.update h t y') where
  frames := ha.frames_exec he hn
  depth := ha.depth_exec he hn
  sane := exec_sane he ha.sane hjunk
  slots := ha.slots_exec he hallow hn

end Agrees

end BourseServer.Waiting
