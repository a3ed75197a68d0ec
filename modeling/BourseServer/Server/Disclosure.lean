import BourseServer.Concurrency.Coupling
import BourseServer.Trader.Nesting

/-!
# What a reply discloses

The header of a reply is a local variable, and its padding byte is sent without ever having been
written. So two executions of the service thread for which the outside world decides the same,
but which find different things on the stack, send different bytes as soon as a reply gets past
its first byte. Until then they send the same, whatever the stack holds.
-/
namespace BourseServer

open Concurrency Bytes

variable {E : Exchange} {t a : Nat} {fd : Int} {α β : Type} {s u : State E} {o : Op} {e : Choice E}

/-! ## States that differ in what was written -/

/-- The same state but for the history and what has been written to the connections. -/
def State.disguise (h : History) (out : Int → List UInt8) (s : State E) : State E :=
  { s with
    hist := h
    conns := fun fd => (s.conns fd).map fun c => { c with output := out fd } }

theorem disguise_setConn (h : History) (out : Int → List UInt8) (c : Option Conn) :
    (s.setConn fd c).disguise h out =
      (s.disguise h out).setConn fd (c.map fun c => { c with output := out fd }) := by
  simp only [State.disguise, State.setConn, State.mk.injEq, true_and, and_true]
  funext fd'
  by_cases hfd : fd' = fd
  · subst hfd
    simp
  · simp [hfd]

@[simp] theorem disguise_traders (h : History) (out : Int → List UInt8) :
    (s.disguise h out).traders = s.traders := rfl

@[simp] theorem disguise_blocks (h : History) (out : Int → List UInt8) :
    (s.disguise h out).blocks = s.blocks := rfl

@[simp] theorem disguise_registry (h : History) (out : Int → List UInt8) :
    (s.disguise h out).registry = s.registry := rfl

theorem disguise_conns (h : History) (out : Int → List UInt8) (fd : Int) :
    (s.disguise h out).conns fd = (s.conns fd).map fun c => { c with output := out fd } := rfl

theorem exec_disguise {r : o.Reply} (ho : ∀ fd bs, o ≠ .write fd bs) (h : exec t o e s = .done r u)
    (hist : History) (out : Int → List UInt8) :
    ∃ hist', exec t o e (s.disguise hist out) = .done r (u.disguise hist' out) := by
  cases o
  case write fd bs => exact absurd rfl (ho fd bs)
  case read fd n =>
    simp only [exec, execRead] at h ⊢
    cases hc : s.conns fd with
    | none =>
      rw [hc] at h
      cases h
      refine ⟨hist, ?_⟩
      simp [State.disguise, hc]
    | some c =>
      rw [hc] at h
      dsimp only at h
      have hc' : (s.disguise hist out).conns fd = some { c with output := out fd } := by
        simp [State.disguise, hc]
      rw [hc']
      refine ⟨hist, ?_⟩
      dsimp only
      repeat' split at h
      all_goals cases h
      all_goals simp_all [disguise_setConn]
  case close fd =>
    simp only [exec] at h ⊢
    split at h
    · cases h
    · rename_i c hc
      cases h
      have hc' : (s.disguise hist out).conns fd = some { c with output := out fd } := by
        simp [State.disguise, hc]
      exact ⟨hist, by rw [hc', disguise_setConn]; rfl⟩
  case shutdown fd =>
    simp only [exec] at h ⊢
    split at h
    · rename_i hc
      cases h
      have hc' : (s.disguise hist out).conns fd = none := by
        simp [State.disguise, hc]
      exact ⟨hist, by rw [hc']⟩
    · rename_i c hc
      cases h
      have hc' : (s.disguise hist out).conns fd = some { c with output := out fd } := by
        simp [State.disguise, hc]
      exact ⟨hist, by rw [hc', disguise_setConn]; rfl⟩
  case lock a =>
    obtain ⟨tr, m, htr, hm, rfl⟩ := exec_lock h
    refine ⟨hist.acquire t a, ?_⟩
    simp only [exec, execTrader, disguise_traders, htr, hm]
    rfl
  case store f a v =>
    obtain ⟨tr, htr, rfl⟩ := exec_store h
    refine ⟨hist.store t a f v, ?_⟩
    simp only [exec, execTrader, disguise_traders, htr]
    rfl
  all_goals
    simp only [exec, execTrader, execMalloc, execMallocTrader] at h
    repeat' split at h
    all_goals cases h
  all_goals
    first
    | exact ⟨_, rfl⟩
    | refine ⟨hist, ?_⟩
      (simp only [exec, execTrader, execMalloc, execMallocTrader, disguise_traders,
        disguise_blocks, disguise_registry, *]) <;> rfl

theorem exec_write_disguise {bs bs' : List UInt8} {r : WriteResult}
    (h : exec t (.write fd bs) e s = .done r u) (hlen : bs'.length = bs.length)
    (hist : History) (out : Int → List UInt8) :
    ∃ out', exec t (.write fd bs') e (s.disguise hist out) = .done r (u.disguise hist out') := by
  simp only [exec, execWrite, disguise_conns] at h ⊢
  cases hc : s.conns fd with
  | none =>
    rw [hc] at h
    cases h
    exact ⟨out, rfl⟩
  | some c =>
    rw [hc] at h
    simp only [Option.map_some]
    cases e with
    | transfer k =>
      cases h
      refine ⟨Function.update out fd (out fd ++ bs'.take (clamp k bs.length)), ?_⟩
      rw [hlen]
      refine congrArg (Outcome.done _) ?_
      simp only [State.disguise, State.setConn, State.mk.injEq, true_and, and_true]
      funext fd'
      by_cases hfd : fd' = fd
      · subst hfd
        simp
      · simp [hfd]
    | eintr =>
      cases h
      exact ⟨out, rfl⟩
    | ioError =>
      cases h
      exact ⟨out, rfl⟩
    | _ => cases h

/-! ## How far a reply has come -/

/-- Whether the thread has a new header on its stack, or is sending one: how many bytes of the
packet have been taken since the clock was read. -/
inductive ReplyStage where
  | idle
  | begun
  | sent (n : Nat)
  deriving DecidableEq, Repr

namespace ReplyStage

def fresh (g : ReplyStage) (n : Nat) : ReplyStage := if n = headerSize then .begun else g

def tick : ReplyStage → ReplyStage
  | .begun => .sent 0
  | _ => .idle

def wrote : ReplyStage → WriteResult → ReplyStage
  | .sent n, .wrote k => .sent (n + k)
  | g, _ => g

/-- The reply has got past its first byte. -/
def past : ReplyStage → Bool
  | .sent n => 2 ≤ n
  | _ => false

def next (g : ReplyStage) (x : Step (machine E)) : ReplyStage :=
  match x with
  | ⟨.uninit n, _, _⟩ => g.fresh n
  | ⟨.clock, _, _⟩ => g.tick
  | ⟨.write _ _, _, r⟩ => g.wrote r
  | _ => g

end ReplyStage

/-- A reply gets past its first byte. -/
def discloses (g : ReplyStage) : List (Step (machine E)) → Bool
  | [] => false
  | x :: log => (g.next x).past || discloses (g.next x) log

/-- The bytes that the connections have taken, with their descriptors. -/
def sentBytes : List (Step (machine E)) → List (Int × UInt8)
  | [] => []
  | ⟨.write fd bs, _, .wrote k⟩ :: log => (bs.take k).map (fd, ·) ++ sentBytes log
  | _ :: log => sentBytes log

/-- The outside decides the same, and fresh stack memory may hold anything; if it is to be apart,
a header has another padding byte. -/
inductive Twin (apart : Prop) : Step (machine E) → Step (machine E) → Prop where
  | same {x x' : Step (machine E)} : (∀ n, x.op ≠ .uninit n) → x'.choice = x.choice →
      Twin apart x x'
  | memory {n : Nat} {e e' : Choice E} {junk junk' : List UInt8} :
      (apart → n = headerSize → junk'[1]? ≠ junk[1]?) →
      Twin apart ⟨.uninit n, e, junk⟩ ⟨.uninit n, e', junk'⟩

/-! ## The coupling -/

namespace Op

/-- The actions other than the ones that find fresh stack memory, read the clock or write. -/
def ordinary : Op → Bool
  | .uninit _ | .clock | .write .. => false
  | _ => true

end Op

/-- The loop that writes. -/
def Proc.sends : Proc → Bool
  | .writen .. => true
  | _ => false

/-- What two threads may write next: the same, except that of a reply only the first byte need
be the same. -/
def Buffers (apart : Prop) (g : ReplyStage) (bs bs' : List UInt8) : Prop :=
  bs'.length = bs.length ∧
    match g with
    | .sent n => bs'.take (1 - n) = bs.take (1 - n) ∧ (apart → n ≤ 1 → bs'[1 - n]? ≠ bs[1 - n]?)
    | _ => bs' = bs

inductive Opposite (apart : Prop) (g : ReplyStage) : Op → Op → Prop where
  | same {o : Op} : o.ordinary = true → Opposite apart g o o
  | enter {c c' : Call} : Opposite apart g (.enter c) (.enter c')
  | memory {n : Nat} : Opposite apart g (.uninit n) (.uninit n)
  | clock : Opposite apart g .clock .clock
  | write {fd : Int} {bs bs' : List UInt8} : Buffers apart g bs bs' →
      Opposite apart g (.write fd bs) (.write fd bs')

inductive Responses (apart : Prop) (g : ReplyStage) :
    (o o' : Op) → o.Reply → o'.Reply → ReplyStage → Prop where
  | same {o : Op} {r : o.Reply} : o.ordinary = true → Responses apart g o o r r g
  | enter {c c' : Call} : Responses apart g (.enter c) (.enter c') () () g
  | memory {n : Nat} {junk junk' : List UInt8} : junk.length = n → junk'.length = n →
      (apart → n = headerSize → junk'[1]? ≠ junk[1]?) →
      Responses apart g (.uninit n) (.uninit n) junk junk' (g.fresh n)
  | clock {r : UInt32 × UInt32} : Responses apart g .clock .clock r r g.tick
  | write {fd : Int} {bs bs' : List UInt8} {r : WriteResult} :
      Responses apart g (.write fd bs) (.write fd bs') r r (g.wrote r)

inductive Calls (apart : Prop) (g : ReplyStage) : Proc → Proc → Prop where
  | same {p : Proc} : p.sends = false → g ≠ .begun → Calls apart g p p
  | writen {fd : Int} {n : Nat} {rest rest' : List UInt8} : Buffers apart g rest rest' →
      Calls apart g (.writen fd n rest) (.writen fd n rest')

/-- What is left of `n` bytes has been written, or writing it has failed. -/
def ReplyStage.Written (g : ReplyStage) (n : Nat) (r : Int) (g' : ReplyStage) : Prop :=
  match g with
  | .sent k => ∃ k', g' = .sent k' ∧ (r ≠ -1 → k + n ≤ k')
  | g => g' = g

inductive Returns (g : ReplyStage) :
    (p p' : Proc) → p.Result → p'.Result → ReplyStage → Prop where
  | same {p : Proc} {r : p.Result} {g' : ReplyStage} : p.sends = false → g' ≠ .begun →
      Returns g p p r r g'
  | writen {fd : Int} {n : Nat} {rest rest' : List UInt8} {r : Int} {g' : ReplyStage} :
      g.Written rest.length r g' → Returns g (.writen fd n rest) (.writen fd n rest') r r g'

/-- The code of the service thread beside itself. -/
@[reducible] def disclosure (E : Exchange) (apart : Prop) : Coupling (machine E) where
  Ghost := ReplyStage
  Alike s s' := ∃ hist out, s' = State.disguise hist out s
  Twin := Twin apart
  pre := Opposite apart
  post := Responses apart
  callPre := Calls apart
  callPost := Returns

/-! ## The bytes that are sent -/

variable {apart : Prop} {g g' : ReplyStage}

theorem next_of_ordinary {x : Step (machine E)} (hx : x.op.ordinary = true) : g.next x = g := by
  obtain ⟨o, e, r⟩ := x
  cases o <;> first | rfl | cases hx

theorem sentBytes_cons_of_ordinary (x : Step (machine E)) (hx : x.op.ordinary = true)
    (log : List (Step (machine E))) : sentBytes (x :: log) = sentBytes log := by
  obtain ⟨o, e, r⟩ := x
  cases o <;> first | rfl | cases hx

theorem past_tick : g.tick.past = false := by
  cases g <;> rfl

theorem past_fresh {n : Nat} (hg : g.past = false) : (g.fresh n).past = false := by
  unfold ReplyStage.fresh
  split_ifs
  · rfl
  · exact hg

/-- A reply that does not get past its first byte sends the same, and one that does sends
something else if the headers are apart. -/
theorem Buffers.sent {bs bs' : List UInt8} {k : Nat} (h : Buffers apart g bs bs')
    (hg : g.past = false) :
    ((g.wrote (.wrote k)).past = false → bs'.take k = bs.take k) ∧
      (apart → (g.wrote (.wrote k)).past = true → bs'.take k ≠ bs.take k) := by
  obtain ⟨_, h⟩ := h
  cases g with
  | sent n =>
    obtain ⟨hsame, hdiff⟩ := h
    have hn : n ≤ 1 := by
      simp only [ReplyStage.past, decide_eq_false_iff_not] at hg
      omega
    simp only [ReplyStage.wrote, ReplyStage.past, decide_eq_false_iff_not, decide_eq_true_eq]
    constructor
    · intro hk
      have htake := congrArg (List.take k) hsame
      rwa [List.take_take, List.take_take, min_eq_left (by omega)] at htake
    · intro hapart hk heq
      apply hdiff hapart hn
      have hget := congrArg (fun l : List UInt8 => l[1 - n]?) heq
      simpa [List.getElem?_take, show 1 - n < k by omega] using hget
  | idle =>
    obtain rfl : bs' = bs := h
    exact ⟨fun _ => rfl, fun _ hpast => by cases hpast⟩
  | begun =>
    obtain rfl : bs' = bs := h
    exact ⟨fun _ => rfl, fun _ hpast => by cases hpast⟩

theorem linked_sentBytes {g : (disclosure E apart).Ghost} {log log' : List (Step (machine E))}
    (h : Linked (disclosure E apart) g log log') (hg : ReplyStage.past g = false) :
    (discloses g log = false → sentBytes log' = sentBytes log) ∧
      (apart → discloses g log = true → sentBytes log' ≠ sentBytes log) := by
  induction h with
  | nil => exact ⟨fun _ => rfl, fun _ hd => by cases hd⟩
  | @cons g g' x x' log log' hpre hpost _ ih =>
    -- a step that sends nothing, and after which the reply has not got past its first byte
    have hquiet : g' = ReplyStage.next g x → ReplyStage.past g' = false →
        sentBytes (x :: log) = sentBytes log → sentBytes (x' :: log') = sentBytes log' →
        (discloses g (x :: log) = false → sentBytes (x' :: log') = sentBytes (x :: log)) ∧
          (apart → discloses g (x :: log) = true →
            sentBytes (x' :: log') ≠ sentBytes (x :: log)) := by
      intro hnext hpast hsent hsent'
      rw [hsent, hsent', discloses, ← hnext, hpast, Bool.false_or]
      exact ih hpast
    obtain ⟨o, e, r⟩ := x
    obtain ⟨o', e', r'⟩ := x'
    cases hpost with
    | same ho =>
      exact hquiet (next_of_ordinary ho).symm hg (sentBytes_cons_of_ordinary ⟨o, e, r⟩ ho _)
        (sentBytes_cons_of_ordinary ⟨o, e', r⟩ ho _)
    | enter => exact hquiet rfl hg rfl rfl
    | memory _ _ _ => exact hquiet rfl (past_fresh hg) rfl rfl
    | clock => exact hquiet rfl past_tick rfl rfl
    | @write fd bs bs' r =>
      cases hpre with
      | same ho => cases ho
      | write hbuffers =>
        cases r with
        | interrupted => exact hquiet rfl (by cases g <;> exact hg) rfl rfl
        | failed => exact hquiet rfl (by cases g <;> exact hg) rfl rfl
        | wrote k =>
          obtain ⟨hsame, hdiff⟩ := hbuffers.sent (k := k) hg
          simp only [discloses, ReplyStage.next, sentBytes]
          cases hpast : (ReplyStage.wrote g (.wrote k)).past with
          | true =>
            refine ⟨by simp, fun hapart _ heq => hdiff hapart hpast ?_⟩
            have hlen : (bs'.take k).length = (bs.take k).length := by
              simp [hbuffers.1]
            have htaken := (List.append_inj heq (by simpa using hlen)).1
            exact List.map_injective_iff.mpr (Prod.mk_right_injective fd) htaken
          | false =>
            rw [hsame hpast, Bool.false_or]
            obtain ⟨hsame', hdiff'⟩ := ih hpast
            refine ⟨fun hd => congrArg (_ ++ ·) (hsame' hd), fun hapart hd heq => ?_⟩
            exact hdiff' hapart hd (List.append_cancel_left heq)

/-! ## One step -/

theorem exec_uninit {n : Nat} {junk : List UInt8} (h : exec t (.uninit n) e s = .done junk u) :
    junk.length = n ∧ u = s := by
  simp only [exec] at h
  repeat' split at h
  all_goals cases h
  rename_i hlen
  exact ⟨hlen, rfl⟩

/-- Twin steps opposite each other have the same reply, except for the stack memory they find. -/
theorem Opposite.step {o' : Op} {e' : Choice E} {r : o.Reply} {r' : o'.Reply} {s' u' : State E}
    (h : Opposite apart g o o') (hs : ∃ hist out, s' = State.disguise hist out s)
    (he : exec t o e s = .done r u) (he' : exec t o' e' s' = .done r' u')
    (htwin : Twin (E := E) apart ⟨o, e, r⟩ ⟨o', e', r'⟩) :
    (∃ g', Responses apart g o o' r r' g') ∧ ∃ hist out, u' = State.disguise hist out u := by
  obtain ⟨hist, out, rfl⟩ := hs
  -- the same action with the same choice
  have hsame : ∀ {o : Op} {r r' : o.Reply} {s'' u u' : State E} {out' : Int → List UInt8}
      {hist' : History}, exec t o e s'' = .done r (u.disguise hist' out') →
      exec t o e s'' = .done r' u' → r' = r ∧ ∃ hist out, u' = State.disguise hist out u := by
    intro o r r' s'' u u' out' hist' h h'
    obtain ⟨rfl, rfl⟩ := Outcome.done.inj (h.symm.trans h')
    exact ⟨rfl, _, _, rfl⟩
  cases h with
  | same ho =>
    cases htwin with
    | same _ heq =>
      obtain rfl : e' = e := heq
      obtain ⟨hist', hd⟩ := exec_disguise (by rintro fd bs rfl; cases ho) he hist out
      obtain ⟨rfl, hu⟩ := hsame hd he'
      exact ⟨⟨g, .same ho⟩, hu⟩
    | memory _ => cases ho
  | enter =>
    cases he
    cases he'
    exact ⟨⟨g, .enter⟩, _, out, rfl⟩
  | memory =>
    obtain ⟨hlen, rfl⟩ := exec_uninit he
    obtain ⟨hlen', rfl⟩ := exec_uninit he'
    refine ⟨⟨_, .memory hlen hlen' ?_⟩, hist, out, rfl⟩
    cases htwin with
    | same hno _ => exact absurd rfl (hno _)
    | memory hdiff => exact hdiff
  | clock =>
    cases htwin with
    | same _ heq =>
      obtain rfl : e' = e := heq
      obtain ⟨hist', hd⟩ := exec_disguise (by simp) he hist out
      obtain ⟨rfl, hu⟩ := hsame hd he'
      exact ⟨⟨_, .clock⟩, hu⟩
  | write hbuffers =>
    cases htwin with
    | same _ heq =>
      obtain rfl : e' = e := heq
      obtain ⟨out', hd⟩ := exec_write_disguise he hbuffers.1 hist out
      obtain ⟨rfl, hu⟩ := hsame hd he'
      exact ⟨⟨_, .write⟩, hu⟩

/-- A step has a twin; fresh stack memory is found with other bytes. -/
theorem Opposite.exists_twin {o' : Op} {r : o.Reply} {s' : State E} (h : Opposite apart g o o')
    (hs : ∃ hist out, s' = State.disguise hist out s) (he : exec t o e s = .done r u) :
    ∃ (e' : Choice E) (r' : o'.Reply) (u' : State E), exec t o' e' s' = .done r' u' ∧
      Twin (E := E) apart ⟨o, e, r⟩ ⟨o', e', r'⟩ := by
  obtain ⟨hist, out, rfl⟩ := hs
  cases h with
  | same ho =>
    obtain ⟨hist', hd⟩ := exec_disguise (by rintro fd bs rfl; cases ho) he hist out
    exact ⟨e, r, _, hd, .same (by rintro n rfl; cases ho) rfl⟩
  | enter => exact ⟨e, (), _, rfl, .same (by simp) rfl⟩
  | @memory n =>
    obtain ⟨hlen, rfl⟩ := exec_uninit he
    have hlen' : (r.map (· + 1)).length = n := by rw [List.length_map, hlen]
    refine ⟨.memory (r.map (· + 1)), r.map (· + 1), State.disguise hist out u, ?_,
      .memory fun _ hn => ?_⟩
    · simp only [exec, if_pos hlen']
    · have hone : 1 < r.length := by
        rw [hlen, hn]
        decide
      simp [List.getElem?_eq_getElem hone]
  | clock =>
    obtain ⟨hist', hd⟩ := exec_disguise (by simp) he hist out
    exact ⟨e, r, _, hd, .same (by simp) rfl⟩
  | write hbuffers =>
    obtain ⟨out', hd⟩ := exec_write_disguise he hbuffers.1 hist out
    exact ⟨e, r, _, hd, .same (by simp) rfl⟩

/-! ## The code of the service thread -/

theorem Responses.of_ordinary {r r' : o.Reply} (ho : o.ordinary = true)
    (h : Responses apart g o o r r' g') : r' = r ∧ g' = g := by
  cases h with
  | same _ => exact ⟨rfl, rfl⟩
  | enter => exact ⟨rfl, rfl⟩
  | _ => cases ho

/-- Beside each other, the two programs come to the same result, and neither leaves a header that
has been begun. -/
def Even (E : Exchange) (apart : Prop) (p p' : Code α) : Prop :=
  ∀ g : (disclosure E apart).Ghost, g ≠ ReplyStage.begun →
    Coupled (disclosure E apart) (fun g' x x' => g' ≠ ReplyStage.begun ∧ x' = x) g p p'

/-- An action that the stage of a reply does not depend on. -/
theorem coupled_step {R : (disclosure E apart).Ghost → α → β → Prop}
    {g : (disclosure E apart).Ghost} {f : o.Reply → Code α} {f' : o.Reply → Code β}
    (ho : o.ordinary = true) (hf : ∀ r, Coupled (disclosure E apart) R g (f r) (f' r)) :
    Coupled (disclosure E apart) R g (Prog.act (I := bourse) o >>= f)
      (Prog.act (I := bourse) o >>= f') := by
  refine .op (.same ho) fun r r' g' h => ?_
  obtain ⟨rfl, rfl⟩ := Responses.of_ordinary ho h
  exact hf r'

namespace Even

theorem ret {x : α} : Even E apart (.ret x) (.ret x) := fun _ hg => .ret ⟨hg, rfl⟩

theorem bind {p p' : Code α} {f f' : α → Code β} (hp : Even E apart p p')
    (hf : ∀ x, Even E apart (f x) (f' x)) : Even E apart (p >>= f) (p' >>= f') := by
  refine fun g hg => (hp g hg).bind ?_
  rintro g' x x' ⟨hg', rfl⟩
  exact hf _ g' hg'

theorem act {o : Op} (ho : o.ordinary = true) :
    Even E apart (.act (I := bourse) o) (.act (I := bourse) o) := by
  refine fun g hg => .op (.same ho) fun r r' g' h => .ret ?_
  obtain ⟨rfl, rfl⟩ := Responses.of_ordinary ho h
  exact ⟨hg, rfl⟩

theorem invoke {p : Proc} (hp : p.sends = false) :
    Even E apart (.invoke (I := bourse) p) (.invoke (I := bourse) p) := by
  refine fun g hg => .call (.same hp hg) fun r r' g' h => .ret ?_
  cases h with
  | same _ hg' => exact ⟨hg', rfl⟩
  | writen _ => cases hp

theorem coupled_scope {c c' : Call} {value : α → Value} {p p' : Code α}
    {g : (disclosure E apart).Ghost}
    (hp : Coupled (disclosure E apart) (fun g' r r' => g' ≠ ReplyStage.begun ∧ r' = r) g p p') :
    Coupled (disclosure E apart) (fun g' r r' => g' ≠ ReplyStage.begun ∧ r' = r) g
      (scope c value p) (scope c' value p') := by
  refine .op .enter fun _ _ g' h => ?_
  have hg' : g' = g := by
    cases h with
    | same _ => rfl
    | enter => rfl
  rw [hg']
  change Coupled _ _ _ (p >>= fun r => leave (value r) >>= fun _ => pure r)
    (p' >>= fun r => leave (value r) >>= fun _ => pure r)
  refine hp.bind ?_
  rintro g₁ r r' ⟨hg₁, rfl⟩
  exact Even.bind (Even.act (o := .leave (value r')) rfl) (fun _ => .ret) g₁ hg₁

theorem scope {c c' : Call} {value : α → Value} {p p' : Code α} (hp : Even E apart p p') :
    Even E apart (scope c value p) (scope c' value p') :=
  fun g hg => coupled_scope (hp g hg)

theorem searchFrom {body body' : Nat → Code (Option α)} {n i : Nat}
    (h : ∀ j, Even E apart (body j) (body' j)) :
    Even E apart (.searchFrom body n i) (.searchFrom body' n i) := by
  intro g hg
  refine (Coupled.searchFrom (C := disclosure E apart) (J := fun g => g ≠ ReplyStage.begun)
    (R := fun _ x x' => x' = x) (fun j g hg => (h j g hg).mono ?_) hg).mono ?_
  · rintro g' x x' ⟨hg', rfl⟩
    cases x' with
    | none => exact ⟨hg', .none⟩
    | some x => exact ⟨hg', .some rfl⟩
  · rintro g' x x' ⟨hg', hx⟩
    cases hx with
    | none => exact ⟨hg', rfl⟩
    | some hx => exact ⟨hg', congrArg some hx⟩

end Even

/-! ### Sending -/

theorem Buffers.drop {bs bs' : List UInt8} {k : Nat} (h : Buffers apart g bs bs') :
    Buffers apart (g.wrote (.wrote k)) (bs.drop k) (bs'.drop k) := by
  obtain ⟨hlen, h⟩ := h
  refine ⟨by simp [hlen], ?_⟩
  cases g with
  | sent n =>
    obtain ⟨hsame, hdiff⟩ := h
    constructor
    · rcases Nat.eq_zero_or_pos (n + k) with hzero | hpos
      · obtain ⟨rfl, rfl⟩ := Nat.add_eq_zero_iff.mp hzero
        exact hsame
      · simp [show 1 - (n + k) = 0 by omega]
    · intro hapart hn
      rw [List.getElem?_drop, List.getElem?_drop, show k + (1 - (n + k)) = 1 - n by omega]
      exact hdiff hapart (by omega)
  | idle => exact congrArg (List.drop k) h
  | begun => exact congrArg (List.drop k) h

theorem ReplyStage.Written.refl {n : Nat} {r : Int} (h : r ≠ -1 → n = 0) : g.Written n r g := by
  cases g with
  | sent k => exact ⟨k, rfl, fun hr => by rw [h hr]; exact le_rfl⟩
  | idle => rfl
  | begun => rfl

theorem ReplyStage.Written.of_wrote {n k : Nat} {r : Int}
    (h : (g.wrote (.wrote k)).Written (n - k) r g') : g.Written n r g' := by
  cases g with
  | sent m =>
    obtain ⟨k', rfl, hk⟩ := h
    exact ⟨k', rfl, fun hr => by have := hk hr; omega⟩
  | idle => exact h
  | begun => exact h

theorem Returns.of_writen {n : Nat} {bs bs' : List UInt8} {r r' : Int}
    (h : Returns g (.writen fd n bs) (.writen fd n bs') r r' g') :
    r' = r ∧ g.Written bs.length r g' := by
  cases h with
  | same hp _ => cases hp
  | writen hw => exact ⟨rfl, hw⟩

theorem coupled_writen {n : Nat} {rest rest' : List UInt8} (hb : Buffers apart g rest rest') :
    Coupled (disclosure E apart)
      (fun g' r r' => Returns g (.writen fd n rest) (.writen fd n rest') r r' g') g
      (body (.writen fd n rest)) (body (.writen fd n rest')) := by
  change Coupled _ _ _ (writenLoop fd n rest) (writenLoop fd n rest')
  unfold writenLoop
  rw [hb.1]
  split_ifs with hpos
  · refine .op (.write hb) fun r r' g₁ h => ?_
    cases h with
    | same ho => cases ho
    | write =>
      cases r with
      | interrupted =>
        have hg : g.wrote .interrupted = g := by cases g <;> rfl
        rw [hg]
        exact .call (.writen hb) fun _ _ _ h => .ret h
      | failed =>
        have hg : g.wrote .failed = g := by cases g <;> rfl
        rw [hg]
        exact .ret (.writen (.refl fun h => absurd rfl h))
      | wrote k =>
        refine .call (.writen hb.drop) fun r r' g' h => .ret ?_
        obtain ⟨rfl, hw⟩ := h.of_writen
        rw [List.length_drop] at hw
        exact .writen hw.of_wrote
  · exact .ret (.writen (.refl fun _ => by omega))

theorem coupled_rioWriten {bs bs' : List UInt8} (hb : Buffers apart g bs bs') :
    Coupled (disclosure E apart) (fun g' r r' => r' = r ∧ g.Written bs.length r g') g
      (rioWriten fd bs) (rioWriten fd bs') := by
  unfold rioWriten
  rw [hb.1]
  exact .call (.writen hb) fun _ _ _ h => .ret h.of_writen

/-- Two headers of a reply. -/
structure Headers (apart : Prop) (hdr hdr' : PacketHeader) : Prop where
  type : hdr'.type = hdr.type
  size : hdr'.size = hdr.size
  pad : apart → hdr'.pad ≠ hdr.pad

/-- A reply that has been begun is sent. -/
theorem coupled_protoSendPacket {hdr hdr' : PacketHeader} {data data' : List UInt8}
    (h : Headers apart hdr hdr') (hlen : data'.length = data.length) :
    Coupled (disclosure E apart) (fun g' r r' => g' ≠ ReplyStage.begun ∧ r'.1 = r.1) .begun
      (protoSendPacket fd hdr data) (protoSendPacket fd hdr' data') := by
  refine .op .clock fun time time' g₁ htime => ?_
  obtain ⟨rfl, rfl⟩ : time' = time ∧ g₁ = .sent 0 := by
    cases htime with
    | same ho => cases ho
    | clock => exact ⟨rfl, rfl⟩
  refine (coupled_rioWriten ?_).bind fun g₂ r r' hr => ?_
  · refine ⟨by simp, ?_, fun hapart _ => ?_⟩
    · simp [PacketHeader.toBytes, h.type]
    · simpa [PacketHeader.toBytes] using h.pad hapart
  obtain ⟨rfl, k, rfl, hk⟩ := hr
  rw [PacketHeader.length_toBytes] at hk
  dsimp only
  rw [h.size]
  split_ifs with hfail hsize
  · exact .ret ⟨by simp, rfl⟩
  · refine (coupled_rioWriten ?_).bind fun g₃ r₂ r₂' hr₂ => ?_
    · refine ⟨by simp [PacketHeader.payloadSize, hlen], ?_, fun _ hle => ?_⟩
      · have hzero : 1 - k = 0 := by have := hk hfail; simp [headerSize] at this; omega
        rw [hzero]
        rfl
      · have := hk hfail
        simp [headerSize] at this
        omega
    · obtain ⟨rfl, k', rfl, _⟩ := hr₂
      split_ifs
      · exact .ret ⟨by simp, rfl⟩
      · exact .ret ⟨by simp, rfl⟩
  · exact .ret ⟨by simp, rfl⟩

/-- Other packets are the same. -/
theorem even_protoSendPacket (fd : Int) (hdr : PacketHeader) (data : List UInt8) :
    Even E apart (protoSendPacket fd hdr data) (protoSendPacket fd hdr data) := by
  refine fun g hg => .op .clock fun time time' g₁ htime => ?_
  obtain ⟨rfl, rfl⟩ : time' = time ∧ g₁ = .idle := by
    cases htime with
    | same ho => cases ho
    | clock => exact ⟨rfl, by cases g <;> first | rfl | exact absurd rfl hg⟩
  have hwrite : ∀ bs, Coupled (disclosure E apart) (fun g' r r' => r' = r ∧ g' = ReplyStage.idle)
      .idle (rioWriten fd bs) (rioWriten fd bs) :=
    fun bs => (coupled_rioWriten (g := .idle) ⟨rfl, rfl⟩).mono fun _ _ _ h => h
  refine (hwrite _).bind fun g₂ r r' hr => ?_
  obtain ⟨rfl, rfl⟩ := hr
  dsimp only
  split_ifs
  · exact .ret ⟨by simp, rfl⟩
  · refine (hwrite _).bind fun g₃ r₂ r₂' hr₂ => ?_
    obtain ⟨rfl, rfl⟩ := hr₂
    split_ifs
    · exact .ret ⟨by simp, rfl⟩
    · exact .ret ⟨by simp, rfl⟩
  · exact .ret ⟨by simp, rfl⟩

/-! ### The trader module -/

theorem even_deref (p : Option Nat) : Even E apart (deref p) (deref p) := by
  cases p with
  | some a => exact .ret
  | none => exact fun _ _ => .op (.same rfl) fun r _ _ _ => r.elim

theorem even_slotName (i : Nat) : Even E apart (slotName i) (slotName i) :=
  .bind (.act rfl) fun p => .bind (even_deref p) fun _ => .act rfl

theorem even_traderRef (a : Nat) : Even E apart (traderRef a) (traderRef a) :=
  .scope (.bind (.act rfl) fun _ => .bind (.act rfl) fun _ => .bind (.act rfl) fun _ =>
    .bind (.act rfl) fun _ => .ret)

theorem even_removeTraderIfEmpty (a : Nat) :
    Even E apart (removeTraderIfEmpty a) (removeTraderIfEmpty a) := by
  refine .bind (.act rfl) fun ref => ?_
  split_ifs
  · exact .ret
  refine .bind (.searchFrom fun i => ?_) fun _ => .ret
  refine .bind (.act rfl) fun p => ?_
  cases p with
  | none => exact .ret
  | some b =>
    refine .bind (even_slotName i) fun name => .bind (.act rfl) fun name' => ?_
    split_ifs
    · exact .bind (.act rfl) fun _ => .bind (.act rfl) fun _ => .bind (.act rfl) fun _ =>
        .bind (.act rfl) fun _ => .ret
    · exact .ret

theorem even_traderUnref (a : Nat) : Even E apart (traderUnref a) (traderUnref a) :=
  .scope (.bind (.act rfl) fun _ => .bind (.act rfl) fun _ => .bind (.act rfl) fun _ =>
    .bind (even_removeTraderIfEmpty a) fun _ => .act rfl)

theorem even_checkOldTraderAndLogin (fd : Int) (name : CString) :
    Even E apart (checkOldTraderAndLogin fd name) (checkOldTraderAndLogin fd name) := by
  unfold checkOldTraderAndLogin Prog.search
  refine .searchFrom fun i => .bind (.act rfl) fun p => ?_
  cases p with
  | none => exact .ret
  | some b =>
    refine .bind (even_slotName i) fun name' => ?_
    split_ifs
    · exact .bind (.act rfl) fun p => .bind (even_deref p) fun a =>
        .bind (even_traderRef a) fun _ => .bind (.act rfl) fun p =>
          .bind (even_deref p) fun _ => .ret
    · exact .ret

theorem even_traderLogin (fd : Int) (name : CString) :
    Even E apart (traderLogin fd name) (traderLogin fd name) := by
  refine .scope (.bind (even_checkOldTraderAndLogin fd name) fun r => ?_)
  cases r with
  | some old =>
    refine .bind (.act rfl) fun oldFd => ?_
    split_ifs
    · exact .ret
    · exact .bind (.act rfl) fun _ => .ret
  | none =>
    refine .bind (.act rfl) fun total => ?_
    split_ifs
    · exact .ret
    refine .bind (.act rfl) fun total => .bind (.act rfl) fun _ => .bind (.act rfl) fun trader => ?_
    refine .bind (even_traderRef trader) fun _ => .bind (even_traderRef trader) fun _ => ?_
    refine .bind (.act rfl) fun _ => .bind (.act rfl) fun _ => .bind (.act rfl) fun _ => ?_
    refine .bind (.act rfl) fun _ => .bind (.act rfl) fun _ => .bind ?_ fun r => ?_
    · unfold getFirstAvailableIndex Prog.search
      refine .searchFrom fun i => .bind (.act rfl) fun p => ?_
      cases p <;> exact .ret
    · cases r with
      | none => exact .ret
      | some i => exact .bind (.act rfl) fun _ => .ret

theorem even_traderLogout (a : Nat) : Even E apart (traderLogout a) (traderLogout a) := by
  refine .scope (.bind (.act rfl) fun _ => .bind (.searchFrom fun i => ?_) fun _ => .act rfl)
  refine .bind (.act rfl) fun p => ?_
  cases p with
  | none => exact .ret
  | some b =>
    refine .bind (even_slotName i) fun name => .bind (.act rfl) fun name' => ?_
    split_ifs
    · exact .bind (even_traderUnref a) fun _ => .bind (.act rfl) fun _ => .ret
    · exact .ret

theorem even_loadAsset (x : Asset) (a : Nat) : Even E apart (loadAsset x a) (loadAsset x a) := by
  cases x <;> exact .act rfl

theorem even_storeAsset (x : Asset) (a : Nat) (v : UInt32) :
    Even E apart (storeAsset x a v) (storeAsset x a v) := by
  cases x <;> exact .act rfl

theorem even_increaseAsset (x : Asset) (a : Nat) (n : UInt32) :
    Even E apart (increaseAsset x a n) (increaseAsset x a n) :=
  .scope (.bind (.act rfl) fun _ => .bind (even_loadAsset x a) fun _ =>
    .bind (even_storeAsset x a _) fun _ => .act rfl)

theorem even_decreaseAsset (x : Asset) (a : Nat) (n : UInt32) :
    Even E apart (decreaseAsset x a n) (decreaseAsset x a n) := by
  refine .scope (.bind (.act rfl) fun _ => .bind (even_loadAsset x a) fun value => ?_)
  split_ifs
  · exact .bind (even_loadAsset x a) fun _ => .bind (even_storeAsset x a _) fun _ =>
      .bind (.act rfl) fun _ => .ret
  · exact .bind (.act rfl) fun _ => .ret

/-- The packet of a reply that has been begun, or the same packet. -/
theorem coupled_traderSendPacket {hdr hdr' : PacketHeader} {data data' : List UInt8}
    {g : (disclosure E apart).Ghost}
    (hsend : ∀ fd, Coupled (disclosure E apart)
      (fun g' r r' => g' ≠ ReplyStage.begun ∧ r'.1 = r.1) g
      (protoSendPacket fd hdr data) (protoSendPacket fd hdr' data')) :
    Coupled (disclosure E apart) (fun g' r r' => g' ≠ ReplyStage.begun ∧ r' = r) g
      (traderSendPacket a hdr data) (traderSendPacket a hdr' data') := by
  refine Even.coupled_scope ?_
  refine coupled_step (o := .lock a) rfl fun _ => coupled_step (o := .load .fd a) rfl fun fd => ?_
  refine (hsend fd).bind fun g₁ r r' hr => ?_
  obtain ⟨hg₁, hr⟩ := hr
  dsimp only
  rw [hr]
  split_ifs
  · exact .ret ⟨hg₁, rfl⟩
  · exact Even.bind (Even.act (o := .unlock a) rfl) (fun _ => .ret) g₁ hg₁

theorem even_traderSendPacket (a : Nat) (hdr : PacketHeader) (data : List UInt8) :
    Even E apart (traderSendPacket a hdr data) (traderSendPacket a hdr data) := by
  refine fun g hg => coupled_traderSendPacket fun fd => ?_
  exact (even_protoSendPacket fd hdr data g hg).mono fun g' r r' h => ⟨h.1, congrArg Prod.fst h.2⟩

theorem even_traderBroadcastPacket (hdr : PacketHeader) (data : List UInt8) :
    Even E apart (traderBroadcastPacket hdr data) (traderBroadcastPacket hdr data) := by
  refine .scope (.bind (.searchFrom fun i => ?_) fun _ => .ret)
  refine .bind (.act rfl) fun p => ?_
  cases p with
  | none => exact .ret
  | some b =>
    exact .bind (.act rfl) fun p => .bind (even_deref p) fun a =>
      .bind (even_traderSendPacket a hdr data) fun _ => .ret

/-! ### Replies -/

theorem pad_ofBytes_ne {junk junk' : List UInt8} (hlen : junk.length = headerSize)
    (hlen' : junk'.length = headerSize) (h : junk'[1]? ≠ junk[1]?) :
    (PacketHeader.ofBytes junk').pad ≠ (PacketHeader.ofBytes junk).pad := by
  have hget : ∀ {bs : List UInt8}, bs.length = headerSize →
      bs[1]? = some (PacketHeader.ofBytes bs).pad := by
    intro bs hbs
    have hone : 1 < bs.length := by
      rw [hbs]
      decide
    simp [PacketHeader.ofBytes, List.getElem?_eq_getElem hone]
  rw [hget hlen, hget hlen'] at h
  exact fun heq => h (congrArg some heq)

/-- A reply: a header is begun, its type and size are set, and it is sent. -/
theorem even_begin {f f' : List UInt8 → Code α}
    (hf : ∀ junk junk' : List UInt8, (apart →
      (PacketHeader.ofBytes junk').pad ≠ (PacketHeader.ofBytes junk).pad) →
      Coupled (disclosure E apart) (fun g' r r' => g' ≠ ReplyStage.begun ∧ r' = r)
        ReplyStage.begun (f junk) (f' junk')) :
    Even E apart (uninit headerSize >>= f) (uninit headerSize >>= f') := by
  refine fun g hg => .op .memory fun junk junk' g' h => ?_
  cases h with
  | same ho => cases ho
  | memory hlen hlen' hdiff =>
    rw [show g.fresh headerSize = ReplyStage.begun from if_pos rfl]
    exact hf junk junk' fun hapart => pad_ofBytes_ne hlen hlen' (hdiff hapart rfl)

theorem headers_begun {junk junk' : List UInt8} (type : UInt8) (size : UInt16)
    (hpad : apart → (PacketHeader.ofBytes junk').pad ≠ (PacketHeader.ofBytes junk).pad) :
    Headers apart { PacketHeader.ofBytes junk with type := type, size := size }
      { PacketHeader.ofBytes junk' with type := type, size := size } := ⟨rfl, rfl, hpad⟩

theorem even_traderSendAck (a : Nat) {info info' : Option StatusInfo}
    (h : info'.isSome = info.isSome) :
    Even E apart (traderSendAck a info) (traderSendAck a info') := by
  refine .scope (even_begin fun junk junk' hpad => ?_)
  have hsent : ∀ (size : UInt16) {data data' : List UInt8}, data'.length = data.length →
      Coupled (disclosure E apart) (fun g' r r' => g' ≠ ReplyStage.begun ∧ r' = r)
        ReplyStage.begun
        (do
          let _ ← traderSendPacket a { PacketHeader.ofBytes junk with
            type := PacketType.ack.code, size := size } data
          pure (0 : Int))
        (do
          let _ ← traderSendPacket a { PacketHeader.ofBytes junk' with
            type := PacketType.ack.code, size := size } data'
          pure 0) := by
    intro size data data' hlen
    refine (coupled_traderSendPacket fun fd =>
      coupled_protoSendPacket (headers_begun _ size hpad) hlen).bind ?_
    rintro g' r r' ⟨hg', rfl⟩
    exact .ret ⟨hg', rfl⟩
  cases info with
  | none =>
    have hnone : info' = none := by simpa using h
    rw [hnone]
    exact hsent _ rfl
  | some i =>
    obtain ⟨i', rfl⟩ := Option.isSome_iff_exists.mp (h.trans rfl)
    refine coupled_step (o := .load .balance a) rfl fun balance => ?_
    refine coupled_step (o := .load .inventory a) rfl fun inventory => ?_
    exact hsent _ (by rw [StatusInfo.length_toBytes, StatusInfo.length_toBytes])

theorem even_traderSendNack (a : Nat) :
    Even E apart (traderSendNack a) (traderSendNack a) := by
  refine .scope (even_begin fun junk junk' hpad => ?_)
  refine Coupled.bind (coupled_traderSendPacket fun fd =>
    coupled_protoSendPacket (headers_begun _ _ hpad) rfl) ?_
  rintro g' r r' ⟨hg', rfl⟩
  exact .ret ⟨hg', rfl⟩

theorem even_alreadyRegistred (fd : Int) :
    Even E apart (alreadyRegistred fd) (alreadyRegistred fd) := by
  refine even_begin fun junk junk' hpad => ?_
  refine Coupled.bind (coupled_protoSendPacket (headers_begun _ _ hpad) rfl) ?_
  rintro g' r r' ⟨hg', _⟩
  exact .ret ⟨hg', rfl⟩

/-! ### Requests -/

/-- A local variable that is not a header. -/
theorem even_uninit {n : Nat} (hn : n ≠ headerSize) {f f' : List UInt8 → Code α}
    (hf : ∀ junk junk', Even E apart (f junk) (f' junk')) :
    Even E apart (uninit n >>= f) (uninit n >>= f') := by
  refine fun g hg => .op .memory fun junk junk' g' h => ?_
  cases h with
  | same ho => cases ho
  | memory _ _ _ =>
    rw [show g.fresh n = g from if_neg hn]
    exact hf junk junk' g hg

theorem even_replyIf (ok : Bool) (a : Nat) (info info' : StatusInfo) :
    Even E apart (replyIf ok a info) (replyIf ok a info') := by
  unfold replyIf
  split_ifs
  · exact .bind (even_traderSendAck a rfl) fun _ => .ret
  · exact .bind (even_traderSendNack a) fun _ => .ret

/-- The end of each request: the exchange is asked for its status, and the reply is sent. -/
theorem even_reply (ok : Bool) (a : Nat) (info info' : StatusInfo) :
    Even E apart (exchangeGetStatus info >>= replyIf ok a)
      (exchangeGetStatus info' >>= replyIf ok a) := by
  unfold exchangeGetStatus
  rw [Prog.bind_assoc, Prog.bind_assoc]
  exact .bind (.act rfl) fun r => even_replyIf ok a _ _

theorem even_localStatus {f f' : StatusInfo → Code α}
    (hf : ∀ info info', Even E apart (f info) (f' info')) :
    Even E apart (localStatus >>= f) (localStatus >>= f') := by
  unfold localStatus
  rw [Prog.bind_assoc, Prog.bind_assoc]
  exact even_uninit (by decide) fun junk junk' => hf _ _

theorem even_loadPayload (payload : Option Payload) (n : Nat) :
    Even E apart (loadPayload payload n) (loadPayload payload n) := by
  unfold loadPayload
  dsimp only
  split_ifs
  · exact .bind (.act rfl) fun _ => .ret
  · exact .ret

theorem even_runClient (c : ClientCall) : Even E apart (runClient c) (runClient c) := by
  cases c with
  | ref a => exact .bind (even_traderRef a) fun _ => .ret
  | unref a => exact even_traderUnref a
  | sendPacket a hdr data => exact .bind (even_traderSendPacket a hdr data) fun _ => .ret
  | broadcast hdr data => exact .bind (even_traderBroadcastPacket hdr data) fun _ => .ret
  | sendAck a info => exact .bind (even_traderSendAck a rfl) fun _ => .ret
  | sendNack a => exact .bind (even_traderSendNack a) fun _ => .ret
  | account a c =>
    cases c with
    | increase x n => cases x <;> exact even_increaseAsset _ a n
    | decrease x n => cases x <;> exact .bind (even_decreaseAsset _ a n) fun _ => .ret

theorem even_runClients (cs : List ClientCall) : Even E apart (runClients cs) (runClients cs) := by
  induction cs with
  | nil => exact .ret
  | cons c cs ih => exact .bind (even_runClient c) fun _ => ih

theorem even_serveRequest (a : Nat) (type : UInt8) (payload : Option Payload) :
    Even E apart (serveRequest a type payload) (serveRequest a type payload) := by
  have hinc : ∀ x, Even E apart (increaseRequest x a payload) (increaseRequest x a payload) :=
    fun x => .bind (even_loadPayload payload 4) fun _ => .bind (even_increaseAsset x a _) fun _ =>
      even_localStatus fun _ _ => even_reply _ a _ _
  have hdec : ∀ x, Even E apart (decreaseRequest x a payload) (decreaseRequest x a payload) :=
    fun x => .bind (even_loadPayload payload 4) fun _ => .bind (even_decreaseAsset x a _) fun _ =>
      even_localStatus fun _ _ => even_reply _ a _ _
  have horder : ∀ post : Nat → UInt32 → UInt32 → Code UInt32,
      (∀ q p, Even E apart (post a q p) (post a q p)) →
      Even E apart (orderRequest post a payload) (orderRequest post a payload) :=
    fun post hpost => .bind (even_loadPayload payload 8) fun _ => .bind (hpost _ _) fun _ =>
      even_localStatus fun _ _ => even_reply _ a _ _
  unfold serveRequest
  split_ifs
  · exact even_localStatus fun _ _ => even_reply _ a _ _
  · exact hinc .balance
  · exact hdec .balance
  · exact hinc .inventory
  · exact hdec .inventory
  · exact horder _ fun q p => .bind (.act rfl) fun r => .bind (even_runClients r.1) fun _ => .ret
  · exact horder _ fun q p => .bind (.act rfl) fun r => .bind (even_runClients r.1) fun _ => .ret
  · refine .bind (even_loadPayload payload 4) fun _ => even_uninit (by decide) fun junk junk' => ?_
    unfold exchangeCancel
    rw [Prog.bind_assoc, Prog.bind_assoc]
    refine .bind (.act rfl) fun r => ?_
    dsimp only
    rw [Prog.bind_assoc, Prog.bind_assoc]
    exact .bind (even_runClients r.1) fun _ => even_localStatus fun _ _ => even_reply _ a _ _
  · exact .ret

/-! ### The service loop -/

theorem even_serveLogin (fd : Int) (hdr : PacketHeader) (payload : Option Payload) :
    Even E apart (serveLogin fd hdr payload) (serveLogin fd hdr payload) := by
  refine .bind (.act rfl) fun b => .bind (even_loadPayload payload _) fun bytes => ?_
  refine .bind (even_traderLogin fd _) fun r => ?_
  cases r with
  | none => exact .bind (even_alreadyRegistred fd) fun _ => .ret
  | some a => exact .bind (even_traderSendAck a rfl) fun _ => .ret

theorem even_serveEnd (b : Nat) (hdr : PacketHeader) (l : Session) :
    Even E apart (serveEnd b hdr l) (serveEnd b hdr l) := by
  have hlogout : Even E apart (serveLogout l) (serveLogout l) := by
    unfold serveLogout
    split
    · exact .ret
    · exact even_traderLogout _
  unfold serveEnd
  dsimp only
  split_ifs
  · exact .bind (.act rfl) fun _ => .bind (.act rfl) fun _ => hlogout
  · exact .bind (.act rfl) fun _ => hlogout

theorem even_servePacket (fd : Int) (b : Nat) (hdr : PacketHeader) (l : Session) :
    Even E apart (servePacket fd b hdr l) (servePacket fd b hdr l) := by
  unfold servePacket
  split_ifs
  · exact .bind (.act rfl) fun _ => .ret
  · cases l.thisTrader with
    | some a => exact .bind (even_traderSendNack a) fun _ => .ret
    | none => exact .bind (even_serveLogin fd hdr _) fun _ => .bind (.act rfl) fun _ => .ret
  · cases l.thisTrader with
    | none => exact .ret
    | some a => exact .bind (even_serveRequest a _ _) fun _ => .bind (.act rfl) fun _ => .ret

theorem even_protoRecvPacket (fd : Int) (hdr : PacketHeader) (payload : Option Payload) :
    Even E apart (protoRecvPacket fd hdr payload) (protoRecvPacket fd hdr payload) := by
  refine .bind (.invoke rfl) fun ⟨read, got⟩ => ?_
  dsimp only
  split_ifs
  · exact .ret
  · exact .ret
  · refine .bind (.act rfl) fun ⟨block, junk⟩ => .bind (.invoke rfl) fun ⟨status, got'⟩ => ?_
    dsimp only
    split_ifs <;> exact .ret
  · exact .ret

theorem even_serviceLoop (fd : Int) (l : Session) :
    Even E apart (serviceLoop fd l) (serviceLoop fd l) := by
  refine .bind ?_ fun r => ?_
  · refine .bind (.act rfl) fun b => .bind (even_protoRecvPacket fd _ _) fun r => ?_
    dsimp only
    split_ifs
    · exact .bind (even_serveEnd _ _ _) fun _ => .ret
    · exact .bind (even_servePacket fd _ _ _) fun _ => .ret
  · cases r with
    | none => exact .ret
    | some l' => exact .invoke rfl

theorem even_readnLoop (fd : Int) (n nleft : Nat) (got : List UInt8) :
    Even E apart (readnLoop fd n nleft got) (readnLoop fd n nleft got) := by
  unfold readnLoop
  split_ifs
  · refine .bind (.act rfl) fun r => ?_
    cases r with
    | interrupted => exact .invoke rfl
    | failed => exact .ret
    | data bs =>
      dsimp only
      split_ifs
      · exact .ret
      · exact .invoke rfl
  · exact .ret

theorem even_cregRegister (fd : Int) :
    Even E apart (cregRegister fd) (cregRegister fd) := by
  have hsearch : Even E apart searchForEmptySlot searchForEmptySlot := by
    refine .bind (.act rfl) fun n => ?_
    unfold Prog.search
    refine .searchFrom fun i => .bind (.act rfl) fun cur => ?_
    split_ifs <;> exact .ret
  refine .bind (.act rfl) fun _ => .bind (.act rfl) fun _ => .bind hsearch fun r => ?_
  cases r with
  | none => exact .ret
  | some i =>
    refine .bind (.act rfl) fun _ => .bind (.act rfl) fun n => .bind (.act rfl) fun _ => ?_
    refine .bind (.act rfl) fun n => ?_
    dsimp only
    split_ifs
    · exact .bind (.act rfl) fun _ => .bind (.act rfl) fun _ => .bind (.act rfl) fun _ => .ret
    · exact .bind (.act rfl) fun _ => .bind (.act rfl) fun _ => .ret

theorem even_brsClientLeave (fd : Int) :
    Even E apart (brsClientLeave fd) (brsClientLeave fd) := by
  refine .bind ?_ fun r => ?_
  · refine .bind (.act rfl) fun _ => .bind (.act rfl) fun _ => .bind (.act rfl) fun n => ?_
    unfold Prog.search
    refine .bind (.searchFrom fun i => .bind (.act rfl) fun cur => ?_) fun found => ?_
    · split_ifs
      · refine .bind (.act rfl) fun _ => .bind (.act rfl) fun m => .bind (.act rfl) fun _ => ?_
        refine .bind (.act rfl) fun m => ?_
        dsimp only
        split_ifs
        · exact .bind (.act rfl) fun _ => .bind (.act rfl) fun _ => .bind (.act rfl) fun _ => .ret
        · exact .bind (.act rfl) fun _ => .bind (.act rfl) fun _ => .ret
      · exact .ret
    · cases found with
      | some _ => exact .ret
      | none => exact .bind (.act rfl) fun _ => .bind (.act rfl) fun _ => .ret
  · split_ifs
    · exact .ret
    · exact .act rfl

theorem even_brsClientService (fd : Int) :
    Even E apart (brsClientService fd) (brsClientService fd) := by
  refine .bind (even_cregRegister fd) fun r => ?_
  split_ifs
  · exact .ret
  · exact .bind (.invoke rfl) fun _ => even_brsClientLeave fd

theorem disclosure_sound : (disclosure E apart).Sound t where
  body := by
    intro g p p' h
    cases h with
    | writen hb => exact coupled_writen hb
    | same hp hg =>
      cases p with
      | writen => cases hp
      | readn fd n nleft got =>
        refine (even_readnLoop fd n nleft got g hg).mono ?_
        rintro g' r r' ⟨hg', rfl⟩
        exact .same hp hg'
      | service fd l =>
        refine (even_serviceLoop fd l g hg).mono ?_
        rintro g' r r' ⟨hg', rfl⟩
        exact .same hp hg'
  step h hs he he' htwin := h.step hs he he' htwin
  twin h hs he := h.exists_twin hs he

/-! ## What the client gets to see -/

theorem State.eq_disguise (s : State E) : ∃ hist out, s = State.disguise hist out s := by
  refine ⟨s.hist, fun fd => (s.conns fd).elim [] Conn.output, ?_⟩
  have hconns : (fun fd => (s.conns fd).map fun c =>
      { c with output := (s.conns fd).elim [] Conn.output }) = s.conns := by
    funext fd
    cases hc : s.conns fd <;> rfl
  rw [State.disguise, hconns]

/-- The outside decides the same in both executions: the packets, the clock readings, what is
allocated, how transfers go, and what the exchange does. Fresh stack memory may hold anything. -/
def SameInputs (log log' : List (Step (machine E))) : Prop := List.Forall₂ (Twin False) log log'

variable {p : Code Unit} {log : List (Step (machine E))}

/-- A reply that gets past its first byte shows what its padding was. -/
theorem exists_other_bytes (h : Traced (machine E) t (brsClientService fd) s log p u)
    (hd : discloses .idle log = true) :
    ∃ log' p' u', Traced (machine E) t (brsClientService fd) s log' p' u' ∧
      SameInputs log log' ∧ sentBytes log' ≠ sentBytes log := by
  have heven : Even E True (brsClientService fd) (brsClientService fd) := even_brsClientService fd
  have hcoupled := heven .idle (by simp)
  obtain ⟨log', p', u', h', htwins⟩ := disclosure_sound.exists_twin h hcoupled s.eq_disguise
  have hlinked := disclosure_sound.linked h hcoupled s.eq_disguise h' htwins
  have hinputs : SameInputs log log' := by
    refine htwins.imp fun x x' hx => ?_
    cases hx with
    | same hno he => exact .same hno he
    | memory _ => exact .memory fun hf => hf.elim
  exact ⟨log', p', u', h', hinputs, (linked_sentBytes hlinked rfl).2 trivial hd⟩

/-- With the same packets, the same state of the traders and the exchange, the same results and
the same clock readings, the thread always sends the same bytes if and only if none of its
replies gets past the first byte. -/
theorem replies_same_iff (h : Traced (machine E) t (brsClientService fd) s log p u) :
    (∀ log' p' u', Traced (machine E) t (brsClientService fd) s log' p' u' →
      SameInputs log log' → sentBytes log' = sentBytes log) ↔ discloses .idle log = false := by
  constructor
  · intro hall
    by_contra hd
    obtain ⟨log', p', u', h', hinputs, hne⟩ := exists_other_bytes h (by simpa using hd)
    exact hne (hall log' p' u' h' hinputs)
  · intro hd log' p' u' h' hinputs
    have heven : Even E False (brsClientService fd) (brsClientService fd) :=
      even_brsClientService fd
    have hcoupled := heven .idle (by simp)
    have hlinked := disclosure_sound.linked h hcoupled s.eq_disguise h' hinputs
    exact (linked_sentBytes hlinked rfl).1 hd

/-- A client logs in as `a`. -/
def letterLogin : State (.fixed 1 1) :=
  (State.init _ () 4).setConn 3 (some ⟨0, packet .login [97], true, false, []⟩)

def letterTrace : List (Step (machine (.fixed 1 1))) × Code Unit × State (.fixed 1 1) :=
  (machine (.fixed 1 1)).trace (fun o s => some (.smooth () o s)) 0 400 (brsClientService 3)
    letterLogin

theorem traced_letter : Traced (machine (.fixed 1 1)) 0 (brsClientService 3) letterLogin
    letterTrace.1 letterTrace.2.1 letterTrace.2.2 := Machine.traced_trace

/-- What the client gets in reply to its login does not only depend on the inputs. -/
theorem login_reply_not_same : ¬ ∀ log' p' u',
    Traced (machine (.fixed 1 1)) 0 (brsClientService 3) letterLogin log' p' u' →
      SameInputs letterTrace.1 log' → sentBytes log' = sentBytes letterTrace.1 := by
  rw [replies_same_iff traced_letter]
  decide +kernel

/-- The acknowledgement of a login can have two values of its second byte. -/
theorem login_reply_discloses : ∃ log log' p p' u u',
    Traced (machine (.fixed 1 1)) 0 (brsClientService 3) letterLogin log p u ∧
      Traced (machine (.fixed 1 1)) 0 (brsClientService 3) letterLogin log' p' u' ∧
      SameInputs log log' ∧ sentBytes log' ≠ sentBytes log := by
  obtain ⟨log', p', u', h', hinputs, hne⟩ := exists_other_bytes traced_letter (by decide +kernel)
  exact ⟨_, log', _, p', _, u', traced_letter, h', hinputs, hne⟩

end BourseServer
