import Mathlib.Data.List.Forall2
import BourseServer.Concurrency.Program

/-!
# Two executions side by side

`Traced` is the execution of a program by one thread, finished or not, with a log of its steps. A
coupling says which pairs of actions may stand opposite each other in two executions, and what
then holds of their replies; a ghost value runs along. `Coupled` are two programs that take such
pairs of actions and no others. So the logs of their executions are linked, pair by pair, as long
as the outside world makes twin choices.
-/
namespace BourseServer.Concurrency

variable {I : Interface} {M : Machine I} {t : Nat} {α β γ δ : Type}

/-- An action with the choice that was made for it, and its reply. -/
structure Step (M : Machine I) where
  op : I.Op
  choice : M.Choice
  reply : I.Reply op

/-- After the steps of the log, the program has become the last program, in the last state. -/
inductive Traced (M : Machine I) (t : Nat) :
    Prog I α → M.State → List (Step M) → Prog I α → M.State → Prop where
  | refl {p : Prog I α} {s : M.State} : Traced M t p s [] p s
  | op {o : I.Op} {k : I.Reply o → Prog I α} {e : M.Choice} {r : I.Reply o}
      {s s' u : M.State} {log : List (Step M)} {q : Prog I α} : M.exec t o e s = .done r s' →
      Traced M t (k r) s' log q u → Traced M t (.op o k) s (⟨o, e, r⟩ :: log) q u
  | call {p : I.Proc} {k : I.Result p → Prog I α} {s u : M.State} {log : List (Step M)}
      {q : Prog I α} : Traced M t (M.body p >>= k) s log q u → Traced M t (.call p k) s log q u

/-- The log of a driven thread, and what it comes to. -/
def Machine.trace (M : Machine I) (pick : I.Op → M.State → Option M.Choice) (t : Nat) :
    Nat → Prog I α → M.State → List (Step M) × Prog I α × M.State
  | 0, p, s => ([], p, s)
  | _ + 1, .ret a, s => ([], .ret a, s)
  | n + 1, .op o k, s =>
    match pick o s with
    | none => ([], .op o k, s)
    | some e =>
      match M.exec t o e s with
      | .done r s' =>
        let (log, rest) := M.trace pick t n (k r) s'
        (⟨o, e, r⟩ :: log, rest)
      | _ => ([], .op o k, s)
  | n + 1, .call p k, s => M.trace pick t n (M.body p >>= k) s

theorem Machine.traced_trace {pick : I.Op → M.State → Option M.Choice} {n : Nat} :
    ∀ {p : Prog I α} {s : M.State}, Traced M t p s (M.trace pick t n p s).1
      (M.trace pick t n p s).2.1 (M.trace pick t n p s).2.2 := by
  induction n with
  | zero => exact .refl
  | succ n ih =>
    intro p s
    cases p with
    | ret a => exact .refl
    | op o k =>
      simp only [Machine.trace]
      split
      · exact .refl
      · split
        · rename_i he
          exact .op he ih
        · exact .refl
    | call q k => exact .call ih

/-! ## Couplings -/

/-- Which actions and calls may stand opposite each other, and what then holds of the replies and
the next ghost value; which states are alike; and which steps the outside decides alike. -/
structure Coupling (M : Machine I) where
  Ghost : Type
  Alike : M.State → M.State → Prop
  Twin : Step M → Step M → Prop
  pre : Ghost → I.Op → I.Op → Prop
  post : Ghost → (o o' : I.Op) → I.Reply o → I.Reply o' → Ghost → Prop
  callPre : Ghost → I.Proc → I.Proc → Prop
  callPost : Ghost → (p p' : I.Proc) → I.Result p → I.Result p' → Ghost → Prop

/-- Two programs whose actions stand opposite each other, and whose results satisfy `R`. -/
inductive Coupled (C : Coupling M) (R : C.Ghost → α → β → Prop) :
    C.Ghost → Prog I α → Prog I β → Prop where
  | ret {g : C.Ghost} {a : α} {b : β} : R g a b → Coupled C R g (.ret a) (.ret b)
  | op {g : C.Ghost} {o o' : I.Op} {k : I.Reply o → Prog I α} {k' : I.Reply o' → Prog I β} :
      C.pre g o o' → (∀ r r' g', C.post g o o' r r' g' → Coupled C R g' (k r) (k' r')) →
      Coupled C R g (.op o k) (.op o' k')
  | call {g : C.Ghost} {p p' : I.Proc} {k : I.Result p → Prog I α} {k' : I.Result p' → Prog I β} :
      C.callPre g p p' →
      (∀ r r' g', C.callPost g p p' r r' g' → Coupled C R g' (k r) (k' r')) →
      Coupled C R g (.call p k) (.call p' k')

namespace Coupled

variable {C : Coupling M} {R : C.Ghost → α → β → Prop} {g : C.Ghost} {p : Prog I α} {p' : Prog I β}

theorem bind {Q : C.Ghost → γ → δ → Prop} {f : α → Prog I γ} {f' : β → Prog I δ}
    (hp : Coupled C R g p p') (hf : ∀ g' a b, R g' a b → Coupled C Q g' (f a) (f' b)) :
    Coupled C Q g (p >>= f) (p' >>= f') := by
  induction hp with
  | ret h => exact hf _ _ _ h
  | op hpre _ ih => exact .op hpre fun r r' g' h => ih r r' g' h
  | call hpre _ ih => exact .call hpre fun r r' g' h => ih r r' g' h

theorem mono {Q : C.Ghost → α → β → Prop} (hp : Coupled C R g p p')
    (h : ∀ g' a b, R g' a b → Q g' a b) : Coupled C Q g p p' := by
  induction hp with
  | ret hr => exact .ret (h _ _ _ hr)
  | op hpre _ ih => exact .op hpre fun r r' g' hr => ih r r' g' hr
  | call hpre _ ih => exact .call hpre fun r r' g' hr => ih r r' g' hr

theorem searchFrom {J : C.Ghost → Prop} {body : Nat → Prog I (Option α)}
    {body' : Nat → Prog I (Option β)} {n : Nat}
    (hbody : ∀ i g, J g → Coupled C (fun g' a b => J g' ∧ Option.Rel (R g') a b) g
      (body i) (body' i)) : ∀ {i : Nat} {g : C.Ghost}, J g →
    Coupled C (fun g' a b => J g' ∧ Option.Rel (R g') a b) g
      (.searchFrom body n i) (.searchFrom body' n i) := by
  induction n with
  | zero => exact fun hg => .ret ⟨hg, .none⟩
  | succ n ih =>
    intro i g hg
    refine (hbody i g hg).bind fun g' a b hab => ?_
    obtain ⟨hg', hab⟩ := hab
    cases hab with
    | none => exact ih hg'
    | some h => exact .ret ⟨hg', .some h⟩

end Coupled

/-- The ghost values that run along two logs. -/
inductive Linked (C : Coupling M) : C.Ghost → List (Step M) → List (Step M) → Prop where
  | nil {g : C.Ghost} : Linked C g [] []
  | cons {g g' : C.Ghost} {x x' : Step M} {log log' : List (Step M)} : C.pre g x.op x'.op →
      C.post g x.op x'.op x.reply x'.reply g' → Linked C g' log log' →
      Linked C g (x :: log) (x' :: log')

/-- What makes a coupling sound for thread `t`: calls are coupled if their bodies are; twin steps
in states that are alike have coupled replies and lead to states that are alike; and a step has a
twin. -/
structure Coupling.Sound (C : Coupling M) (t : Nat) : Prop where
  body : ∀ {g p p'}, C.callPre g p p' →
    Coupled C (fun g' r r' => C.callPost g p p' r r' g') g (M.body p) (M.body p')
  step : ∀ {g} {o o' : I.Op} {e e' : M.Choice} {r : I.Reply o} {r' : I.Reply o'} {s s' u u'},
    C.pre g o o' → C.Alike s s' → M.exec t o e s = .done r u → M.exec t o' e' s' = .done r' u' →
    C.Twin ⟨o, e, r⟩ ⟨o', e', r'⟩ → (∃ g', C.post g o o' r r' g') ∧ C.Alike u u'
  twin : ∀ {g} {o o' : I.Op} {e : M.Choice} {r : I.Reply o} {s s' u},
    C.pre g o o' → C.Alike s s' → M.exec t o e s = .done r u → ∃ (e' : M.Choice) (r' : I.Reply o')
      (u' : M.State), M.exec t o' e' s' = .done r' u' ∧ C.Twin ⟨o, e, r⟩ ⟨o', e', r'⟩

namespace Coupling.Sound

variable {C : Coupling M} {R : C.Ghost → α → β → Prop} {g : C.Ghost} {p q : Prog I α}
  {p' q' : Prog I β} {s u s' u' : M.State} {log log' : List (Step M)}

/-- Executions of coupled programs with twin choices have linked logs. -/
theorem linked (hC : C.Sound t) (h : Traced M t p s log q u) :
    ∀ {g : C.Ghost} {p' : Prog I β} {s' : M.State} {log' : List (Step M)},
      Coupled C R g p p' → C.Alike s s' → Traced M t p' s' log' q' u' →
      List.Forall₂ C.Twin log log' → Linked C g log log' := by
  induction h with
  | refl =>
    intro g p' s' log' _ _ _ htwin
    cases htwin
    exact .nil
  | op he _ ih =>
    intro g p' s' log' hp hs h' htwin
    cases hp with
    | op hpre hk =>
      cases h' with
      | refl => cases htwin
      | op he' h' =>
        obtain ⟨htwin, htwins⟩ := List.forall₂_cons.mp htwin
        obtain ⟨⟨g', hpost⟩, hs'⟩ := hC.step hpre hs he he' htwin
        exact .cons hpre hpost (ih (hk _ _ g' hpost) hs' h' htwins)
  | call h ih =>
    intro g p' s' log' hp hs h' htwin
    cases hp with
    | call hpre hk =>
      cases h' with
      | refl =>
        cases htwin
        exact .nil
      | call h' => exact ih ((hC.body hpre).bind fun g' r r' hr => hk r r' g' hr) hs h' htwin

/-- Every execution of one of two coupled programs has a twin of the other. -/
theorem exists_twin (hC : C.Sound t) (h : Traced M t p s log q u) :
    ∀ {g : C.Ghost} {p' : Prog I β} {s' : M.State}, Coupled C R g p p' → C.Alike s s' →
      ∃ log' q' u', Traced M t p' s' log' q' u' ∧ List.Forall₂ C.Twin log log' := by
  induction h with
  | refl => exact fun _ _ => ⟨[], _, _, .refl, .nil⟩
  | op he _ ih =>
    intro g p' s' hp hs
    cases hp with
    | op hpre hk =>
      obtain ⟨e', r', v', he', htwin⟩ := hC.twin hpre hs he
      obtain ⟨⟨g', hpost⟩, hs'⟩ := hC.step hpre hs he he' htwin
      obtain ⟨log', q', u', h', htwins⟩ := ih (hk _ _ g' hpost) hs'
      exact ⟨_, q', u', .op he' h', .cons htwin htwins⟩
  | call h ih =>
    intro g p' s' hp hs
    cases hp with
    | call hpre hk =>
      obtain ⟨log', q', u', h', htwins⟩ :=
        ih ((hC.body hpre).bind fun g' r r' hr => hk r r' g' hr) hs
      exact ⟨log', q', u', .call h', htwins⟩

end Coupling.Sound

end BourseServer.Concurrency
