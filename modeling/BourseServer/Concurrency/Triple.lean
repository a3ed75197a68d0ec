import BourseServer.Concurrency.RelyGuarantee

/-!
# Hoare triples under interference

An assertion of a thread is stable if the steps of the other threads keep it. A triple
`Triple D t P p Q` says that thread `t` may run `p` in every world of the discipline that
satisfies `P`, and that `Q` holds of the result when `p` ends. Code is verified by composing the
triples of its actions, whose assertions are stable.
-/
namespace BourseServer.Concurrency.Discipline

variable {I : Interface} {S : System I} {G : Type} {α β : Type} {D : Discipline S G} {t : Nat}

/-- The steps of the other threads keep the assertion. -/
def Stable (D : Discipline S G) (t : Nat) (P : World S G → Prop) : Prop :=
  ∀ w w', D.rely t w w' → D.inv w' → P w → P w'

def Triple (D : Discipline S G) (t : Nat) (P : World S G → Prop) (p : Prog I α)
    (Q : α → World S G → Prop) : Prop :=
  ∀ w, D.inv w → P w → D.wp t p Q w

variable {P P' : World S G → Prop} {Q : α → World S G → Prop} {R : β → World S G → Prop}

theorem Stable.and (hP : D.Stable t P) (hP' : D.Stable t P') :
    D.Stable t fun w => P w ∧ P' w :=
  fun w w' hr hi h => ⟨hP w w' hr hi h.1, hP' w w' hr hi h.2⟩

theorem Stable.exists {ι : Sort*} {F : ι → World S G → Prop} (h : ∀ i, D.Stable t (F i)) :
    D.Stable t fun w => ∃ i, F i w := by
  intro w w' hr hi hw
  obtain ⟨i, hF⟩ := hw
  exact ⟨i, h i w w' hr hi hF⟩

theorem Stable.const (p : Prop) : D.Stable t fun _ => p := fun _ _ _ _ h => h

namespace Triple

theorem ret {a : α} (hP : D.Stable t P) (h : ∀ w, D.inv w → P w → Q a w) :
    D.Triple t P (.ret a) Q :=
  fun w _ hw w' hr hi => h w' hi (hP w w' hr hi hw)

theorem pre {p : Prog I α} (h : D.Triple t P p Q) (hP : ∀ w, D.inv w → P' w → P w) :
    D.Triple t P' p Q :=
  fun w hi hw => h w hi (hP w hi hw)

theorem post {p : Prog I α} {Q' : α → World S G → Prop} (h : D.Triple t P p Q)
    (hQ : ∀ a w, D.inv w → Q a w → Q' a w) : D.Triple t P p Q' :=
  fun w hi hw => wp_mono (h w hi hw) hQ

theorem bind {p : Prog I α} {f : α → Prog I β} (h : D.Triple t P p Q)
    (hf : ∀ a, D.Triple t (Q a) (f a) R) : D.Triple t P (p >>= f) R :=
  fun w hi hw => wp_bind (wp_mono (h w hi hw) fun a w' hi' hw' => hf a w' hi' hw')

/-- A precondition that holds in no world. -/
theorem of_false {p : Prog I α} (h : ∀ w, D.inv w → ¬ P w) : D.Triple t P p Q :=
  fun w hi hw => absurd hw (h w hi)

theorem exists_pre {ι : Sort*} {F : ι → World S G → Prop} {p : Prog I α}
    (h : ∀ i, D.Triple t (F i) p Q) : D.Triple t (fun w => ∃ i, F i w) p Q := by
  intro w hi hw
  obtain ⟨i, hF⟩ := hw
  exact h i w hi hF

/-- A fact that has nothing to do with the world. -/
theorem fact_pre {p : Prog I α} {φ : Prop} (h : φ → D.Triple t P p Q) :
    D.Triple t (fun w => φ ∧ P w) p Q :=
  fun w hi hw => h hw.1 w hi hw.2

/-- A single action: what has to be shown is one step of the thread. -/
theorem act {o : I.Op} {Q : I.Reply o → World S G → Prop} (hP : D.Stable t P)
    (hQ : ∀ r, D.Stable t (Q r)) (hsafe : ∀ w, D.inv w → P w → D.safe t o w)
    (h : ∀ w, D.inv w → P w → ∀ e r s, S.exec t o e w.state = .done r s →
      D.assume t o e w.state → ∃ g, D.Moves t w (w.after t s g) ∧ Q r (w.after t s g)) :
    D.Triple t P (.act o) Q := by
  intro w _ hw
  refine wp_act (fun u hu hi => hsafe u hi (hP w u hu hi hw)) ?_
  intro u hu hi e r s he ha
  obtain ⟨g, hm, hq⟩ := h u hi (hP w u hu hi hw) e r s he ha
  exact ⟨g, hm, fun v hv hvi => hQ r _ v hv hvi hq⟩

/-- A call, by the contract of the procedure. -/
theorem invoke {p : I.Proc} {Q : I.Result p → World S G → Prop} (hP : D.Stable t P)
    (hQ : ∀ r, D.Stable t (Q r)) (hpre : ∀ w, D.inv w → P w → D.pre t p w)
    (hpost : ∀ w r w', D.inv w' → P w → D.post t p w r w' → Q r w') :
    D.Triple t P (.invoke p) Q := by
  intro w _ hw u hu hi
  have hu' : P u := hP w u hu hi hw
  exact ⟨hpre u hi hu', fun r v hv hvi x hx hxi => hQ r v x hx hxi (hpost u r v hvi hu' hv)⟩

/-- The result of a loop body: the loop is left with a value, or goes on. -/
def onSome (Q : Option α → World S G → Prop) (A : World S G → Prop) :
    Option α → World S G → Prop
  | some a => Q (some a)
  | none => A

/-- A bounded search, from an assertion `A i` that holds when the body is entered with `i`. -/
theorem searchFrom {body : Nat → Prog I (Option α)} {Q : Option α → World S G → Prop}
    (A : Nat → World S G → Prop) (hQ : ∀ r, D.Stable t (Q r)) {n : Nat} :
    ∀ {i : Nat}, (∀ j, i ≤ j → j < i + n → D.Triple t (A j) (body j) (onSome Q (A (j + 1)))) →
      (∀ w, D.inv w → A (i + n) w → Q none w) → D.Triple t (A i) (.searchFrom body n i) Q := by
  induction n with
  | zero =>
    intro i _ hend
    exact (ret (hQ none) fun _ _ h => h).pre hend
  | succ n ih =>
    intro i hbody hend
    have hfirst := hbody i (by omega) (by omega)
    have hrest : D.Triple t (A (i + 1)) (.searchFrom body n (i + 1)) Q := by
      refine ih (fun j hj hj' => hbody j (by omega) (by omega)) ?_
      rwa [show i + 1 + n = i + (n + 1) by omega]
    refine bind hfirst fun r => ?_
    cases r with
    | some a => exact ret (hQ (some a)) fun _ _ h => h
    | none => exact hrest

theorem search {body : Nat → Prog I (Option α)} {Q : Option α → World S G → Prop}
    (A : Nat → World S G → Prop) {n : Nat} (hQ : ∀ r, D.Stable t (Q r))
    (hbody : ∀ j, j < n → D.Triple t (A j) (body j) (onSome Q (A (j + 1))))
    (hend : ∀ w, D.inv w → A n w → Q none w) : D.Triple t (A 0) (.search n body) Q :=
  searchFrom A hQ (fun j _ hj => hbody j (by omega)) (by simpa using hend)

end Triple

end BourseServer.Concurrency.Discipline
