import BourseServer.Concurrency.ThreadPool

/-!
# Rely-guarantee reasoning for thread pools

A discipline says what holds between any two steps of a pool (the invariant) and, for each
thread, which changes the other threads may make (the rely). Each thread also has a ghost value
that only its own steps change. The weakest precondition of a program is a recursion over its
tree: every action, taken in any world the others may have led to, must keep the invariant and
be a change that every other thread relies on. Procedures are verified against a contract, so a
loop without a bound is proved from its contract.

`adequacy` turns the verified contracts into an invariant of every interleaving.
-/
namespace BourseServer.Concurrency

variable {I : Interface} {S : System I} {G : Type} {α β : Type}

/-- The shared state, and a ghost value for each thread. -/
structure World (S : System I) (G : Type) where
  state : S.State
  ghost : Nat → G

/-- The world after a step of thread `t` that leaves `s` and sets its ghost value. -/
def World.after (w : World S G) (t : Nat) (s : S.State) (g : G) : World S G :=
  ⟨s, Function.update w.ghost t g⟩

@[simp] theorem World.after_state (w : World S G) (t : Nat) (s : S.State) (g : G) :
    (w.after t s g).state = s := rfl

@[simp] theorem World.after_ghost_self (w : World S G) (t : Nat) (s : S.State) (g : G) :
    (w.after t s g).ghost t = g := Function.update_self ..

theorem World.after_ghost_of_ne (w : World S G) {t u : Nat} (s : S.State) (g : G) (h : u ≠ t) :
    (w.after t s g).ghost u = w.ghost u := Function.update_of_ne h ..

@[simp] theorem World.after_self (w : World S G) (t : Nat) :
    w.after t w.state (w.ghost t) = w := by
  unfold World.after
  rw [Function.update_eq_self]

structure Discipline (S : System I) (G : Type) where
  inv : World S G → Prop
  rely : Nat → World S G → World S G → Prop
  rely_refl : ∀ t w, rely t w w
  rely_trans : ∀ {t u v w}, rely t u v → rely t v w → rely t u w
  /-- The steps that the runs under consideration take. -/
  assume : Nat → (o : I.Op) → S.Choice → S.State → Prop
  /-- What must hold whenever a thread is about to take an action. -/
  safe : Nat → I.Op → World S G → Prop
  pre : Nat → I.Proc → World S G → Prop
  post : Nat → (p : I.Proc) → World S G → I.Result p → World S G → Prop
  idle : Nat → World S G → Prop

namespace Discipline

variable (D : Discipline S G)

/-- A change made by thread `t` that keeps the invariant and that all others rely on. -/
structure Moves (t : Nat) (w w' : World S G) : Prop where
  inv : D.inv w'
  guarantee : ∀ u, u ≠ t → D.rely u w w'

variable {D} in
/-- Nothing changes. -/
theorem Moves.refl {t : Nat} {w : World S G} (h : D.inv w) : D.Moves t w w :=
  ⟨h, fun u _ => D.rely_refl u w⟩

def wp (t : Nat) : Prog I α → (α → World S G → Prop) → World S G → Prop
  | .ret a, Q, w => ∀ w', D.rely t w w' → D.inv w' → Q a w'
  | .op o k, Q, w => ∀ w', D.rely t w w' → D.inv w' → D.safe t o w' ∧
      ∀ e r s, S.exec t o e w'.state = .done r s → D.assume t o e w'.state →
        ∃ g, D.Moves t w' (w'.after t s g) ∧ wp t (k r) Q (w'.after t s g)
  | .call p k, Q, w => ∀ w', D.rely t w w' → D.inv w' → D.pre t p w' ∧
      ∀ r w'', D.post t p w' r w'' → D.inv w'' → wp t (k r) Q w''

variable {D} {t : Nat}

/-- A precondition survives the steps of the other threads. -/
theorem wp_rely {p : Prog I α} {Q : α → World S G → Prop} {w w' : World S G}
    (h : D.wp t p Q w) (hr : D.rely t w w') : D.wp t p Q w' := by
  cases p with
  | ret a => exact fun u hu => h u (D.rely_trans hr hu)
  | op o k => exact fun u hu => h u (D.rely_trans hr hu)
  | call p k => exact fun u hu => h u (D.rely_trans hr hu)

/-- It is enough to verify a program in the worlds the other threads may lead to. -/
theorem wp_intro {p : Prog I α} {Q : α → World S G → Prop} {w : World S G}
    (h : ∀ w', D.rely t w w' → D.inv w' → D.wp t p Q w') : D.wp t p Q w := by
  cases p with
  | ret a => exact fun u hu hi => h u hu hi u (D.rely_refl t u) hi
  | op o k => exact fun u hu hi => h u hu hi u (D.rely_refl t u) hi
  | call p k => exact fun u hu hi => h u hu hi u (D.rely_refl t u) hi

theorem wp_mono {p : Prog I α} {Q R : α → World S G → Prop} {w : World S G}
    (h : D.wp t p Q w) (hQ : ∀ a w', D.inv w' → Q a w' → R a w') : D.wp t p R w := by
  induction p generalizing w with
  | ret a => exact fun u hu hi => hQ a u hi (h u hu hi)
  | op o k ih =>
    intro u hu hi
    obtain ⟨hs, hk⟩ := h u hu hi
    refine ⟨hs, fun e r s he ha => ?_⟩
    obtain ⟨g, hm, hw⟩ := hk e r s he ha
    exact ⟨g, hm, ih r hw⟩
  | call p k ih =>
    intro u hu hi
    obtain ⟨hp, hk⟩ := h u hu hi
    exact ⟨hp, fun r v hv hvi => ih r (hk r v hv hvi)⟩

/-- Sequential composition. -/
theorem wp_bind {p : Prog I α} {f : α → Prog I β} {Q : β → World S G → Prop} {w : World S G}
    (h : D.wp t p (fun a => D.wp t (f a) Q) w) : D.wp t (p >>= f) Q w := by
  induction p generalizing w with
  | ret a => exact wp_intro fun u hu hi => h u hu hi
  | op o k ih =>
    intro u hu hi
    obtain ⟨hs, hk⟩ := h u hu hi
    refine ⟨hs, fun e r s he ha => ?_⟩
    obtain ⟨g, hm, hw⟩ := hk e r s he ha
    exact ⟨g, hm, ih r hw⟩
  | call p k ih =>
    intro u hu hi
    obtain ⟨hp, hk⟩ := h u hu hi
    exact ⟨hp, fun r v hv hvi => ih r (hk r v hv hvi)⟩

theorem wp_ret {a : α} {Q : α → World S G → Prop} {w : World S G}
    (h : ∀ w', D.rely t w w' → D.inv w' → Q a w') : D.wp t (.ret a) Q w := h

/-- A single action, with the change of the ghost value given. -/
theorem wp_act {o : I.Op} {Q : I.Reply o → World S G → Prop} {w : World S G}
    (hsafe : ∀ w', D.rely t w w' → D.inv w' → D.safe t o w')
    (h : ∀ w', D.rely t w w' → D.inv w' → ∀ e r s, S.exec t o e w'.state = .done r s →
      D.assume t o e w'.state → ∃ g, D.Moves t w' (w'.after t s g) ∧
        ∀ v, D.rely t (w'.after t s g) v → D.inv v → Q r v) :
    D.wp t (.act o) Q w :=
  fun u hu hi => ⟨hsafe u hu hi, fun e r s he ha => h u hu hi e r s he ha⟩

/-- A call, by the contract of the procedure. -/
theorem wp_invoke {p : I.Proc} {Q : I.Result p → World S G → Prop} {w : World S G}
    (hpre : ∀ w', D.rely t w w' → D.inv w' → D.pre t p w')
    (h : ∀ w', D.rely t w w' → ∀ r w'', D.post t p w' r w'' → D.inv w'' →
      ∀ v, D.rely t w'' v → D.inv v → Q r v) :
    D.wp t (.invoke p) Q w :=
  fun u hu hi => ⟨hpre u hu hi, fun r v hv hvi => h u hu r v hv hvi⟩

/-- A bounded search, from an assertion `A i` that holds when the body is entered with `i`. -/
theorem wp_searchFrom {body : Nat → Prog I (Option α)} {Q : Option α → World S G → Prop}
    (A : Nat → World S G → Prop) {n : Nat} :
    ∀ {i : Nat} {w : World S G}, A i w →
      (∀ j w', i ≤ j → j < i + n → A j w' →
        D.wp t (body j) (fun r w'' =>
          match r with
          | some a => ∀ v, D.rely t w'' v → D.inv v → Q (some a) v
          | none => A (j + 1) w'') w') →
      (∀ w', A (i + n) w' → ∀ v, D.rely t w' v → D.inv v → Q none v) →
      D.wp t (.searchFrom body n i) Q w := by
  induction n with
  | zero => exact fun hA _ hend => hend _ hA
  | succ n ih =>
    intro i w hA hbody hend
    refine wp_bind (wp_mono (hbody i w (by omega) (by omega) hA) ?_)
    intro r w' _ hr
    cases r with
    | some a => exact fun v hv hi => hr v hv hi
    | none =>
      refine ih hr (fun j w'' hj hj' => hbody j w'' (by omega) (by omega)) ?_
      rwa [show i + 1 + n = i + (n + 1) by omega]

theorem wp_search {body : Nat → Prog I (Option α)} {Q : Option α → World S G → Prop}
    (A : Nat → World S G → Prop) {n : Nat} {w : World S G} (h0 : A 0 w)
    (hbody : ∀ j w', j < n → A j w' →
      D.wp t (body j) (fun r w'' =>
        match r with
        | some a => ∀ v, D.rely t w'' v → D.inv v → Q (some a) v
        | none => A (j + 1) w'') w')
    (hend : ∀ w', A n w' → ∀ v, D.rely t w' v → D.inv v → Q none v) :
    D.wp t (.search n body) Q w :=
  wp_searchFrom A h0 (fun j w' _ hj => hbody j w' (by omega)) (by simpa using hend)

/-! ## Adequacy -/

/-- Every procedure meets its contract, and every program the environment starts is verified
from the world it starts in. -/
structure Verified (D : Discipline S G) (allow : Nat → S.Request → S.State → Prop) : Prop where
  body : ∀ t p w, D.inv w → D.pre t p w → D.wp t (S.body p) (D.post t p w) w
  start : ∀ t q w p s, D.inv w → D.idle t w → S.launch t q w.state = some (p, s) →
    allow t q w.state → ∃ g, D.Moves t w (w.after t s g) ∧
      D.wp t p (fun _ => D.idle t) (w.after t s g)

/-- The pool is in a world of the discipline, and the rest of each thread is verified. -/
def Holds (D : Discipline S G) (c : Pool S) : Prop :=
  ∃ g, D.inv ⟨c.state, g⟩ ∧ ∀ t, D.wp t (c.prog t) (fun _ => D.idle t) ⟨c.state, g⟩

/-- The moves of the runs under consideration. -/
def Allowed (D : Discipline S G) (allow : Nat → S.Request → S.State → Prop) (c : Pool S) :
    Move S → Prop
  | .run t e => ∀ o k, c.prog t = .op o k → D.assume t o e c.state
  | .start t q => allow t q c.state

/-- Some thread takes a step that all others rely on. -/
def Relied (D : Discipline S G) (s s' : S.State) : Prop :=
  ∃ t g g', ∀ u, u ≠ t → D.rely u ⟨s, g⟩ ⟨s', g'⟩

/-- The pool after a change by thread `t`, which goes on with the program `p`. -/
theorem holds_after {D : Discipline S G} {c : Pool S} {g : Nat → G} {t : Nat} {s : S.State}
    {gt : G} {p : Prog I Unit}
    (hwp : ∀ u, D.wp u (c.prog u) (fun _ => D.idle u) ⟨c.state, g⟩)
    (hm : D.Moves t ⟨c.state, g⟩ (World.after ⟨c.state, g⟩ t s gt))
    (hp : D.wp t p (fun _ => D.idle t) (World.after ⟨c.state, g⟩ t s gt)) :
    D.Holds ⟨s, Function.update c.prog t p⟩ ∧ D.Relied c.state s := by
  refine ⟨⟨Function.update g t gt, hm.inv, fun u => ?_⟩, t, g, _, hm.guarantee⟩
  change D.wp u (Function.update c.prog t p u) _ (World.after ⟨c.state, g⟩ t s gt)
  by_cases hu : u = t
  · subst hu
    rw [Function.update_self]
    exact hp
  · rw [Function.update_of_ne hu]
    exact wp_rely (hwp u) (hm.guarantee u hu)

theorem related_run {D : Discipline S G} {allow : Nat → S.Request → S.State → Prop}
    (hV : D.Verified allow) {c c' : Pool S} {t : Nat} {e : S.Choice}
    (h : D.Holds c) (ha : D.Allowed allow c (.run t e)) (hs : c.step (.run t e) = some c') :
    D.Holds c' ∧ D.Relied c.state c'.state := by
  obtain ⟨g, hinv, hwp⟩ := h
  have ht := hwp t
  simp only [Pool.step] at hs
  split at hs
  case h_2 => cases hs
  case h_1 p s hp =>
    obtain rfl := Option.some.inj hs
    cases hc : c.prog t with
    | ret a => simp [Machine.step, hc] at hp
    | op o k =>
      rw [hc] at ht hp
      obtain ⟨_, hk⟩ := ht _ (D.rely_refl t _) hinv
      simp only [Machine.step] at hp
      split at hp
      case h_2 => cases hp
      case h_3 => cases hp
      case h_1 r s' he =>
        obtain ⟨rfl, rfl⟩ := Prod.mk.inj (Option.some.inj hp)
        obtain ⟨gt, hm, hw⟩ := hk e r s' he (ha o k hc)
        exact holds_after hwp hm hw
    | call q k =>
      rw [hc] at ht hp
      obtain ⟨hpre, hk⟩ := ht _ (D.rely_refl t _) hinv
      obtain ⟨rfl, rfl⟩ := Prod.mk.inj (Option.some.inj hp)
      refine ⟨⟨g, hinv, fun u => ?_⟩, t, g, g, fun u _ => D.rely_refl u _⟩
      by_cases hu : u = t
      · subst hu
        have hbody := hV.body u q _ hinv hpre
        simpa using wp_bind (wp_mono hbody fun r w hi hr => hk r w hr hi)
      · simpa [hu] using hwp u

theorem related_start {D : Discipline S G} {allow : Nat → S.Request → S.State → Prop}
    (hV : D.Verified allow) {c c' : Pool S} {t : Nat} {q : S.Request}
    (h : D.Holds c) (ha : D.Allowed allow c (.start t q))
    (hs : c.step (.start t q) = some c') : D.Holds c' ∧ D.Relied c.state c'.state := by
  obtain ⟨g, hinv, hwp⟩ := h
  simp only [Pool.step] at hs
  split at hs
  case h_2 => cases hs
  case h_1 a hc =>
    split at hs
    case h_2 => cases hs
    case h_1 p s hp =>
      obtain rfl := Option.some.inj hs
      have hidle : D.idle t ⟨c.state, g⟩ := by
        have ht := hwp t
        rw [hc] at ht
        exact ht _ (D.rely_refl t _) hinv
      obtain ⟨gt, hm, hw⟩ := hV.start t q ⟨c.state, g⟩ p s hinv hidle hp ha
      exact holds_after hwp hm hw

theorem holds_run {D : Discipline S G} {allow : Nat → S.Request → S.State → Prop}
    (hV : D.Verified allow) {c c' : Pool S} {t : Nat} {e : S.Choice}
    (h : D.Holds c) (ha : D.Allowed allow c (.run t e)) (hs : c.step (.run t e) = some c') :
    D.Holds c' :=
  (related_run hV h ha hs).1

theorem holds_start {D : Discipline S G} {allow : Nat → S.Request → S.State → Prop}
    (hV : D.Verified allow) {c c' : Pool S} {t : Nat} {q : S.Request}
    (h : D.Holds c) (ha : D.Allowed allow c (.start t q))
    (hs : c.step (.start t q) = some c') : D.Holds c' :=
  (related_start hV h ha hs).1

/-- Every pool reached by allowed moves is in a world of the discipline. -/
theorem adequacy {D : Discipline S G} {allow : Nat → S.Request → S.State → Prop}
    (hV : D.Verified allow) {c c' : Pool S} (h : D.Holds c)
    (hr : Pool.ReachIf (D.Allowed allow) c c') : D.Holds c' := by
  induction hr with
  | refl => exact h
  | tail _ hstep ih =>
    obtain ⟨m, hm, hs⟩ := hstep
    cases m with
    | run t e => exact holds_run hV ih hm hs
    | start t q => exact holds_start hV ih hm hs

/-- What every relied on step does to the state, a run does. -/
theorem adequacy_related {D : Discipline S G} {allow : Nat → S.Request → S.State → Prop}
    (hV : D.Verified allow) {R : S.State → S.State → Prop} (hrefl : ∀ s, R s s)
    (htrans : ∀ {s s' s''}, R s s' → R s' s'' → R s s'') (hR : ∀ s s', D.Relied s s' → R s s')
    {c c' : Pool S} (h : D.Holds c) (hr : Pool.ReachIf (D.Allowed allow) c c') :
    R c.state c'.state := by
  induction hr with
  | refl => exact hrefl _
  | tail hd hstep ih =>
    obtain ⟨m, hm, hs⟩ := hstep
    refine htrans ih (hR _ _ ?_)
    cases m with
    | run t e => exact (related_run hV (adequacy hV h hd) hm hs).2
    | start t q => exact (related_start hV (adequacy hV h hd) hm hs).2

/-- All threads are idle at the start. -/
theorem holds_idle {D : Discipline S G} {s : S.State} {g : Nat → G} (hinv : D.inv ⟨s, g⟩)
    (hidle : ∀ t w, D.rely t ⟨s, g⟩ w → D.inv w → D.idle t w) : D.Holds (Pool.idle s) :=
  ⟨g, hinv, fun t => hidle t⟩

/-- In a pool of the discipline, a thread that is about to act is safe. -/
theorem Holds.safe {D : Discipline S G} {c : Pool S} (h : D.Holds c) :
    ∃ g, D.inv ⟨c.state, g⟩ ∧
      (∀ t o k, c.prog t = .op o k → D.safe t o ⟨c.state, g⟩) ∧
      (∀ t a, c.prog t = .ret a → D.idle t ⟨c.state, g⟩) := by
  obtain ⟨g, hinv, hwp⟩ := h
  refine ⟨g, hinv, fun t o k hc => ?_, fun t a hc => ?_⟩
  · have ht := hwp t
    rw [hc] at ht
    exact (ht _ (D.rely_refl t _) hinv).1
  · have ht := hwp t
    rw [hc] at ht
    exact ht _ (D.rely_refl t _) hinv

end Discipline

end BourseServer.Concurrency
