import BourseServer.Concurrency.Triple

/-!
# Further actions

An interface can be extended by further actions, with the same procedures. A program of the
interface is then a program of the extension as well, and its triples are composed in the same
way.
-/
namespace BourseServer.Concurrency

/-- The interface with the further actions `X`. -/
@[reducible] def Interface.extend (I : Interface) (X : Type) (R : X → Type) : Interface where
  Op := I.Op ⊕ X
  Reply := Sum.elim I.Reply R
  Proc := I.Proc
  Result := I.Result

variable {I : Interface} {X : Type} {R : X → Type} {α β : Type}

namespace Prog

/-- The program as one of the extended interface. -/
def lift : Prog I α → Prog (I.extend X R) α
  | .ret a => .ret a
  | .op o k => .op (.inl o) fun r => (k r).lift
  | .call p k => .call p fun r => (k r).lift

theorem lift_bind (p : Prog I α) (f : α → Prog I β) :
    ((p >>= f).lift : Prog (I.extend X R) β) = p.lift >>= fun a => (f a).lift := by
  induction p with
  | ret a => rfl
  | op o k ih => exact congrArg (Prog.op (I := I.extend X R) (.inl o)) (funext ih)
  | call p k ih => exact congrArg (Prog.call (I := I.extend X R) p) (funext ih)

theorem lift_searchFrom (body : Nat → Prog I (Option α)) (n : Nat) : ∀ i : Nat,
    ((searchFrom body n i).lift : Prog (I.extend X R) (Option α)) =
      searchFrom (fun j => (body j).lift) n i := by
  induction n with
  | zero => exact fun _ => rfl
  | succ n ih =>
    intro i
    rw [searchFrom, searchFrom, lift_bind]
    congr 1
    funext r
    cases r with
    | some a => rfl
    | none => exact ih (i + 1)

theorem lift_search (body : Nat → Prog I (Option α)) (n : Nat) :
    ((search n body).lift : Prog (I.extend X R) (Option α)) =
      search n fun j => (body j).lift :=
  lift_searchFrom body n 0

end Prog

/-- A condition that all actions and procedures meet. -/
theorem Prog.uses_of_forall {P : I.Op → Prop} {C : I.Proc → Prop} (hP : ∀ o, P o)
    (hC : ∀ p, C p) (p : Prog I α) : p.Uses P C := by
  induction p with
  | ret a => trivial
  | op o k ih => exact ⟨hP o, ih⟩
  | call q k ih => exact ⟨hC q, ih⟩

namespace Discipline.Triple

variable {S : System (I.extend X R)} {G : Type} {D : Discipline S G} {t : Nat}
  {P : World S G → Prop}

theorem lift_bind {p : Prog I α} {f : α → Prog I β} {Q : α → World S G → Prop}
    {Q' : β → World S G → Prop} (h : D.Triple t P p.lift Q)
    (hf : ∀ a, D.Triple t (Q a) (f a).lift Q') : D.Triple t P (p >>= f).lift Q' := by
  rw [Prog.lift_bind]
  exact bind h hf

theorem lift_search {body : Nat → Prog I (Option α)} {Q : Option α → World S G → Prop}
    (A : Nat → World S G → Prop) {n : Nat} (hQ : ∀ r, D.Stable t (Q r))
    (hbody : ∀ j, j < n → D.Triple t (A j) (body j).lift (onSome Q (A (j + 1))))
    (hend : ∀ w, D.inv w → A n w → Q none w) :
    D.Triple t (A 0) (Prog.search n body).lift Q := by
  rw [Prog.lift_search]
  exact search A hQ hbody hend

/-- Code all of whose actions and procedures keep an assertion keeps it. -/
theorem lift_of_uses {A : I.Op → Prop} {C : I.Proc → Prop} (hP : D.Stable t P)
    (hact : ∀ o, A o → D.Triple t P (Prog.act (I := I.extend X R) (.inl o)) fun _ => P)
    (hproc : ∀ p, C p → D.Triple t P (Prog.invoke (I := I.extend X R) p) fun _ => P)
    {p : Prog I α} (hp : p.Uses A C) : D.Triple t P p.lift fun _ => P := by
  induction p with
  | ret a => exact ret hP fun _ _ h => h
  | op o k ih => exact bind (hact o hp.1) fun r => ih r (hp.2 r)
  | call q k ih => exact bind (hproc q hp.1) fun r => ih r (hp.2 r)

end Discipline.Triple

end BourseServer.Concurrency
