import BourseServer.Concurrency.RelyGuarantee
import BourseServer.Trader.Nesting

/-!
# Between two requests

Whatever the other threads do, a service thread that is about to receive a packet is in no
function of the trader module: calls leave the call stack as it was, and no thread touches the
call stack of another.
-/
namespace BourseServer

open Concurrency

namespace CallStack

variable {E : Exchange} {t u : Nat} {fs : List Call} {α : Type} {w : World (server E) Unit}

def discipline (E : Exchange) : Discipline (server E) Unit where
  inv _ := True
  rely t w w' := w'.state.hist.frames t = w.state.hist.frames t
  rely_refl _ _ := rfl
  rely_trans h g := g.trans h
  assume _ _ _ _ := True
  safe _ _ _ := True
  pre t p w :=
    match p with
    | .service _ _ => w.state.hist.frames t = []
    | _ => True
  post t _ w _ w' := w'.state.hist.frames t = w.state.hist.frames t
  idle t w := w.state.hist.frames t = []

theorem moves {o : Op} {e : Choice E} {s : State E} {r : o.Reply}
    (h : exec t o e w.state = .done r s) : (discipline E).Moves t w (w.after t s ()) :=
  ⟨trivial, fun _ hu => exec_frames_of_ne h hu⟩

/-- Code that leaves the call stack as it was. -/
def Balanced (E : Exchange) (p : Code α) : Prop :=
  ∀ t fs (w : World (server E) Unit), w.state.hist.frames t = fs →
    (discipline E).wp t p (fun _ w' => w'.state.hist.frames t = fs) w

theorem Balanced.bind {β : Type} {p : Code α} {f : α → Code β} (hp : Balanced E p)
    (hf : ∀ a, Balanced E (f a)) : Balanced E (p >>= f) := by
  intro t fs w hw
  refine Discipline.wp_bind (Discipline.wp_mono (hp t fs w hw) ?_)
  exact fun a w' _ hw' => hf a t fs w' hw'

theorem balanced_ret {a : α} : Balanced E (.ret a) := fun _ _ _ hw _ hr _ => hr.trans hw

/-- Actions and transfers, one after the other: the induction follows the code. -/
theorem balanced_of_uses {p : Code α}
    (hp : p.Uses (fun o : Op => o.writesFrames = false) Proc.Transfer) : Balanced E p := by
  induction p with
  | ret a => exact balanced_ret
  | op o k ih =>
    intro t fs w hw w' hr _
    refine ⟨trivial, fun e r s he _ => ⟨(), moves he, ih r (hp.2 r) t fs _ ?_⟩⟩
    have hframes := congrFun ((exec_frame he).frames hp.1) t
    exact hframes.trans (hr.trans hw)
  | call p k ih =>
    intro t fs w hw w' hr _
    refine ⟨?_, fun r w'' hpost _ => ih r (hp.2 r) t fs w'' (hpost.trans (hr.trans hw))⟩
    cases p with
    | service fd l => exact hp.1.elim
    | readn fd n nleft got => trivial
    | writen fd n rest => trivial

/-- A function is entered and left again. -/
theorem balanced_scope {c : Call} {value : α → Value} {p : Code α} (hp : Balanced E p) :
    Balanced E (scope c value p) := by
  intro t fs w hw
  refine Discipline.wp_bind (Discipline.wp_act (fun _ _ _ => trivial) ?_)
  intro w₁ h₁ _ e r s he _
  refine ⟨(), moves (o := .enter c) (e := e) he, fun w₂ h₂ _ => ?_⟩
  have hin : w₂.state.hist.frames t = c :: fs := by
    cases he
    rw [h₂, ← hw, ← h₁]
    simp [History.enter]
  refine Discipline.wp_bind (Discipline.wp_mono (hp t (c :: fs) w₂ hin) fun a w₃ _ h₃ => ?_)
  refine Discipline.wp_bind (Discipline.wp_act (fun _ _ _ => trivial) ?_)
  intro w₄ h₄ _ e' r' s' he' _
  refine ⟨(), moves (o := .leave (value a)) (e := e') he', fun w₅ h₅ _ => ?_⟩
  refine balanced_ret t fs w₅ ?_
  cases he'
  rw [h₅]
  simp [History.leave, h₄.trans h₃]

theorem balanced_of_built {p : Code α} (hp : Framed p) : Balanced E p := by
  induction hp with
  | leaf hu => exact balanced_of_uses hu
  | bind _ _ ihp ihf => exact ihp.bind ihf
  | scope _ ih => exact balanced_scope ih

/-! ## The threads of the server -/

/-- The loop goes on outside of all functions. -/
theorem wp_serviceLoop {fd : Int} {l : Session} (hw : w.state.hist.frames t = []) :
    (discipline E).wp t (serviceLoop fd l) (fun _ w' => w'.state.hist.frames t = []) w := by
  refine Discipline.wp_bind (Discipline.wp_mono
    (balanced_of_built (framed_serveNext fd l) t [] w hw) fun r w' _ hw' => ?_)
  cases r with
  | none => exact balanced_ret t [] w' hw'
  | some l =>
    refine Discipline.wp_invoke (fun w₁ h₁ _ => h₁.trans hw') fun w₁ h₁ r w₂ h₂ _ w₃ h₃ _ => ?_
    exact h₃.trans (h₂.trans (h₁.trans hw'))

theorem wp_brsClientService {fd : Int} (hw : w.state.hist.frames t = []) :
    (discipline E).wp t (brsClientService fd) (fun _ w' => w'.state.hist.frames t = []) w := by
  refine Discipline.wp_bind (Discipline.wp_mono
    (balanced_of_built (plain_cregRegister fd).inner.framed t [] w hw) fun r w₁ _ h₁ => ?_)
  split_ifs
  · exact balanced_ret t [] w₁ h₁
  · refine Discipline.wp_bind (Discipline.wp_invoke (fun w₂ h₂ _ => h₂.trans h₁)
      fun w₂ h₂ r w₃ h₃ _ w₄ h₄ _ => ?_)
    have hout : w₄.state.hist.frames t = [] := h₄.trans (h₃.trans (h₂.trans h₁))
    exact balanced_of_built (plain_brsClientLeave fd).inner.framed t [] w₄ hout

theorem verified : (discipline E).Verified fun _ _ _ => True where
  body t p w _ hpre := by
    cases p with
    | readn fd n nleft got =>
      exact balanced_of_uses (uses_transfer (p := .readn fd n nleft got) trivial
        (fun _ _ => rfl) fun _ _ => rfl) t _ w rfl
    | writen fd n rest =>
      exact balanced_of_uses (uses_transfer (p := .writen fd n rest) trivial
        (fun _ _ => rfl) fun _ _ => rfl) t _ w rfl
    | service fd l =>
      have hw : w.state.hist.frames t = [] := hpre
      refine Discipline.wp_mono (wp_serviceLoop hw) fun _ w' _ hw' => ?_
      exact hw'.trans hw.symm
  start t q w p s _ hidle h _ := by
    have hhist : s.hist = w.state.hist := by
      obtain ⟨conns, hs⟩ := launch_state h
      rw [hs]
    have hw : (w.after t s ()).state.hist.frames t = [] := by
      rw [World.after_state, hhist]
      exact hidle
    refine ⟨(), ⟨trivial, fun u _ => ?_⟩, ?_⟩
    · exact congrArg (fun h : History => h.frames u) hhist
    · cases q with
      | accept fd input ended =>
        simp only [launch] at h
        repeat' split at h
        all_goals cases h
        exact wp_brsClientService hw
      | deliver fd bytes ended =>
        simp only [launch] at h
        repeat' split at h
        all_goals cases h
        exact balanced_ret t [] _ hw
      | client c =>
        cases h
        exact balanced_of_built (inner_runClient c).framed t [] _ hw

end CallStack

/-- A service thread that is about to receive a packet is in no function of the trader module. -/
theorem frames_of_service {E : Exchange} {x : E.State} {n : Nat} {c : Pool (server E)}
    (h : Pool.Reach (Pool.idle (State.init E x n)) c) {t : Nat} {fd : Int} {l : Session}
    {k : Unit → Code Unit} (hk : c.prog t = .call (.service fd l) k) :
    c.state.hist.frames t = [] := by
  have hinit : (CallStack.discipline E).Holds (Pool.idle (State.init E x n)) := by
    refine Discipline.holds_idle (g := fun _ => ()) trivial ?_
    exact fun t w hr _ => hr
  have hallowed : ∀ (d : Pool (server E)) m, True →
      (CallStack.discipline E).Allowed (fun _ _ _ => True) d m := by
    intro d m _
    cases m with
    | start t q => trivial
    | run t e => exact fun _ _ _ => trivial
  obtain ⟨g, _, hwp⟩ := Discipline.adequacy CallStack.verified hinit (h.mono hallowed)
  have hcall := hwp t
  rw [hk] at hcall
  exact (hcall _ rfl trivial).1

end BourseServer
