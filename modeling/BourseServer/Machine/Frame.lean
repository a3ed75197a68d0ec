import BourseServer.Machine.Exec

/-!
# What an action can change

Each component of the state is written by a few actions only. `Op.Frame` collects the
components an action leaves alone, and the inversion lemmas below say what an action that does
write has found and done. Later proofs use these instead of unfolding `exec`.
-/
namespace BourseServer

open Concurrency

variable {E : Exchange}

namespace Op

def writesTraders : Op → Bool
  | .lock _ | .unlock _ | .mutexInit _ | .mallocTrader | .freeTrader _ | .store .. => true
  | _ => false

def writesTable : Op → Bool
  | .setSlot .. => true
  | _ => false

def writesCount : Op → Bool
  | .setCount _ => true
  | _ => false

def writesConns : Op → Bool
  | .read .. | .write .. | .close _ | .shutdown _ => true
  | _ => false

def writesRegistry : Op → Bool
  | .semWait _ | .semPost _ | .setRegFd .. | .setRegCount _ => true
  | _ => false

def writesFrames : Op → Bool
  | .enter _ | .leave _ => true
  | _ => false

def writesSession : Op → Bool
  | .store .fd _ _ => true
  | _ => false

def writesEvents : Op → Bool
  | .enter _ | .leave _ | .lock _ | .exchange _ => true
  | _ => false

def writesExchange : Op → Bool
  | .exchange _ => true
  | _ => false

/-- The components that an action leaves as they are. -/
structure Frame (o : Op) (s s' : State E) : Prop where
  traders : o.writesTraders = false → s'.traders = s.traders
  table : o.writesTable = false → s'.allTraders = s.allTraders
  count : o.writesCount = false → s'.count = s.count
  conns : o.writesConns = false → s'.conns = s.conns
  registry : o.writesRegistry = false → s'.registry = s.registry
  exchange : o.writesExchange = false → s'.exchange = s.exchange
  frames : o.writesFrames = false → s'.hist.frames = s.hist.frames
  outstanding : o.writesFrames = false → s'.hist.outstanding = s.hist.outstanding
  session : o.writesSession = false → s'.hist.session = s.hist.session
  events : o.writesEvents = false → s'.hist.events = s.hist.events

end Op

theorem History.store_frames (t a : Nat) (f : Field) (v : f.Ty) (h : History) :
    (h.store t a f v).frames = h.frames ∧ (h.store t a f v).outstanding = h.outstanding ∧
      (h.store t a f v).events = h.events := by
  cases f <;> exact ⟨rfl, rfl, rfl⟩

theorem History.leave_session (t : Nat) (v : Value) (h : History) :
    (h.leave t v).session = h.session := by
  unfold History.leave
  split <;> rfl

/-! ## Inversion -/

variable {t a : Nat} {e : Choice E} {s s' : State E}

theorem execTrader_done {ρ : Type} {f : Trader → Outcome ρ (State E)} {r : ρ}
    (h : execTrader a s f = .done r s') : ∃ tr, s.traders a = some tr ∧ f tr = .done r s' := by
  unfold execTrader at h
  split at h
  · cases h
  · rename_i tr htr
    exact ⟨tr, htr, h⟩

theorem exec_lock {r : Unit} (h : exec t (.lock a) e s = .done r s') :
    ∃ tr m, s.traders a = some tr ∧ tr.mutex.lock t = some m ∧
      s' = { s.setTrader a (some { tr with mutex := m }) with hist := s.hist.acquire t a } := by
  obtain ⟨tr, htr, h⟩ := execTrader_done h
  split at h
  · cases h
  · rename_i m hm
    cases h
    exact ⟨tr, m, htr, hm, rfl⟩

theorem exec_unlock {r : Unit} (h : exec t (.unlock a) e s = .done r s') :
    ∃ tr, s.traders a = some tr ∧
      s' = s.setTrader a (some { tr with mutex := tr.mutex.unlock t }) := by
  obtain ⟨tr, htr, h⟩ := execTrader_done h
  cases h
  exact ⟨tr, htr, rfl⟩

theorem exec_mutexInit {r : Unit} (h : exec t (.mutexInit a) e s = .done r s') :
    ∃ tr, s.traders a = some tr ∧ s' = s.setTrader a (some { tr with mutex := .fresh }) := by
  obtain ⟨tr, htr, h⟩ := execTrader_done h
  cases h
  exact ⟨tr, htr, rfl⟩

theorem exec_mallocTrader {r : Nat} (h : exec t .mallocTrader e s = .done r s') :
    ∃ junk, e = .trader r junk ∧ s.traders r = none ∧
      s' = s.setTrader r (some { junk with mutex := ⟨false, none, junk.mutex.depth⟩ }) := by
  simp only [exec, execMallocTrader] at h
  split at h
  · rename_i b junk
    split at h
    · cases h
    · rename_i hb
      cases h
      exact ⟨junk, rfl, hb, rfl⟩
  · cases h

theorem exec_freeTrader {r : Unit} (h : exec t (.freeTrader a) e s = .done r s') :
    ∃ tr, s.traders a = some tr ∧ s' = s.setTrader a none := by
  obtain ⟨tr, htr, h⟩ := execTrader_done h
  cases h
  exact ⟨tr, htr, rfl⟩

theorem exec_load {f : Field} {r : f.Ty} (h : exec t (.load f a) e s = .done r s') :
    ∃ tr, s.traders a = some tr ∧ r = tr.get f ∧ s' = s := by
  obtain ⟨tr, htr, h⟩ := execTrader_done h
  cases h
  exact ⟨tr, htr, rfl, rfl⟩

theorem exec_store {f : Field} {v : f.Ty} {r : Unit}
    (h : exec t (.store f a v) e s = .done r s') :
    ∃ tr, s.traders a = some tr ∧
      s' = { s.setTrader a (some (tr.set f v)) with hist := s.hist.store t a f v } := by
  obtain ⟨tr, htr, h⟩ := execTrader_done h
  cases h
  exact ⟨tr, htr, rfl⟩

theorem exec_slot {i : Nat} {r : Option Nat} (h : exec t (.slot i) e s = .done r s') :
    r = s.allTraders i ∧ s' = s := by
  cases h
  exact ⟨rfl, rfl⟩

/-- A read returns a part of the input, nothing at its end, or an error code, and leaves the
owner and the output of every connection alone. -/
theorem execRead_conns {fd : Int} {n : Nat} {r : ReadResult}
    (h : execRead fd n e s = .done r s') :
    s' = s ∨ ∃ c k, s.conns fd = some c ∧
      s' = s.setConn fd (some { c with input := c.input.drop k }) := by
  unfold execRead at h
  repeat' split at h
  all_goals cases h
  all_goals first
    | exact .inl rfl
    | exact .inr ⟨_, _, by assumption, rfl⟩

theorem execWrite_conns {fd : Int} {bs : List UInt8} {r : WriteResult}
    (h : execWrite fd bs e s = .done r s') :
    s' = s ∨ ∃ c k, s.conns fd = some c ∧
      s' = s.setConn fd (some { c with output := c.output ++ bs.take k }) := by
  unfold execWrite at h
  repeat' split at h
  all_goals cases h
  all_goals first
    | exact .inl rfl
    | exact .inr ⟨_, _, by assumption, rfl⟩

theorem exec_frame {o : Op} {r : o.Reply} (h : exec t o e s = .done r s') : o.Frame s s' := by
  cases o
  case lock a =>
    obtain ⟨tr, m, _, _, rfl⟩ := exec_lock h
    constructor <;> intro hw <;> first | rfl | cases hw
  case unlock a =>
    obtain ⟨tr, _, rfl⟩ := exec_unlock h
    constructor <;> intro hw <;> first | rfl | cases hw
  case mutexInit a =>
    obtain ⟨tr, _, rfl⟩ := exec_mutexInit h
    constructor <;> intro hw <;> first | rfl | cases hw
  case mallocTrader =>
    obtain ⟨junk, _, _, rfl⟩ := exec_mallocTrader h
    constructor <;> intro hw <;> first | rfl | cases hw
  case freeTrader a =>
    obtain ⟨tr, _, rfl⟩ := exec_freeTrader h
    constructor <;> intro hw <;> first | rfl | cases hw
  case load f a =>
    obtain ⟨tr, _, _, rfl⟩ := exec_load h
    constructor <;> intro hw <;> rfl
  case store f a v =>
    obtain ⟨tr, _, rfl⟩ := exec_store h
    cases f <;> constructor <;> intro hw <;> first | rfl | cases hw
  case read fd n =>
    rcases execRead_conns h with rfl | ⟨c, k, _, rfl⟩ <;>
      constructor <;> intro hw <;> first | rfl | cases hw
  case write fd bs =>
    rcases execWrite_conns h with rfl | ⟨c, k, _, rfl⟩ <;>
      constructor <;> intro hw <;> first | rfl | cases hw
  case leave v =>
    cases h
    constructor <;> intro hw
    case session => exact History.leave_session ..
    all_goals first | rfl | cases hw
  all_goals
    simp only [exec, execMalloc] at h
    repeat' split at h
    all_goals cases h
    all_goals constructor <;> intro hw <;> first | rfl | cases hw

/-- No thread touches the call stack of another. -/
theorem exec_frames_of_ne {o : Op} {u : Nat} {r : o.Reply}
    (h : exec t o e s = .done r s') (hu : u ≠ t) : s'.hist.frames u = s.hist.frames u := by
  cases hf : o.writesFrames with
  | false => exact congrFun ((exec_frame h).frames hf) u
  | true =>
    cases o with
    | enter c =>
      cases h
      simp [History.enter, hu]
    | leave v =>
      cases h
      unfold History.leave
      split
      · rfl
      · simp [hu]
    | _ => cases hf

end BourseServer
