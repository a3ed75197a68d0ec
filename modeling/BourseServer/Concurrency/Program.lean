import Mathlib.Logic.Function.Basic
import Mathlib.Logic.Relation

/-!
# Programs of atomic actions

A program is a tree of atomic actions of an interface. It continues with the reply of the
action, whatever that reply is, so it says nothing about what an action does. Loops without a
bound are recursive procedures: a call node is unfolded by the machine that runs the program.

The monad structure gives `do` notation, so that a function of a C program can be written as
the sequence of its accesses to shared state.
-/
namespace BourseServer.Concurrency

/-- The atomic actions with their replies, and the procedures with their results. -/
structure Interface where
  Op : Type
  Reply : Op → Type
  Proc : Type
  Result : Proc → Type

/-- A program that ends with a value of `α`. -/
inductive Prog (I : Interface) (α : Type) : Type where
  | ret (a : α)
  | op (o : I.Op) (k : I.Reply o → Prog I α)
  | call (p : I.Proc) (k : I.Result p → Prog I α)

namespace Prog

variable {I : Interface} {α β γ : Type}

def bind : Prog I α → (α → Prog I β) → Prog I β
  | .ret a, f => f a
  | .op o k, f => .op o fun r => (k r).bind f
  | .call p k, f => .call p fun r => (k r).bind f

instance : Monad (Prog I) where
  pure := .ret
  bind := bind

@[simp] theorem pure_eq (a : α) : (pure a : Prog I α) = .ret a := rfl

@[simp] theorem ret_bind (a : α) (f : α → Prog I β) : (Prog.ret a >>= f) = f a := rfl

@[simp] theorem op_bind (o : I.Op) (k : I.Reply o → Prog I α) (f : α → Prog I β) :
    (Prog.op o k >>= f) = .op o fun r => k r >>= f := rfl

@[simp] theorem call_bind (p : I.Proc) (k : I.Result p → Prog I α) (f : α → Prog I β) :
    (Prog.call p k >>= f) = .call p fun r => k r >>= f := rfl

theorem bind_ret (p : Prog I α) : (p >>= Prog.ret) = p := by
  induction p with
  | ret a => rfl
  | op o k ih => exact congrArg (Prog.op o) (funext ih)
  | call p k ih => exact congrArg (Prog.call p) (funext ih)

theorem bind_assoc (p : Prog I α) (f : α → Prog I β) (g : β → Prog I γ) :
    ((p >>= f) >>= g) = (p >>= fun a => f a >>= g) := by
  induction p with
  | ret a => rfl
  | op o k ih => exact congrArg (Prog.op o) (funext ih)
  | call p k ih => exact congrArg (Prog.call p) (funext ih)

/-- A single atomic action. -/
def act (o : I.Op) : Prog I (I.Reply o) := .op o .ret

/-- A single procedure call. -/
def invoke (p : I.Proc) : Prog I (I.Result p) := .call p .ret

/-- The loop `for (i = start; i < start + n; i++)` whose body may leave it with a value. -/
def searchFrom (body : Nat → Prog I (Option α)) : Nat → Nat → Prog I (Option α)
  | 0, _ => pure none
  | n + 1, i => do
    match ← body i with
    | some a => pure (some a)
    | none => searchFrom body n (i + 1)

/-- The loop `for (i = 0; i < n; i++)` whose body may leave it with a value. -/
def search (n : Nat) (body : Nat → Prog I (Option α)) : Prog I (Option α) :=
  searchFrom body n 0

/-- The program has come to its end. -/
def ended : Prog I α → Bool
  | .ret _ => true
  | _ => false

theorem eq_ret_of_ended {p : Prog I α} (h : p.ended = true) : ∃ a, p = .ret a := by
  cases p with
  | ret a => exact ⟨a, rfl⟩
  | op o k => cases h
  | call p k => cases h

/-- The next action passes the test. -/
def atOp (test : I.Op → Bool) : Prog I α → Bool
  | .op o _ => test o
  | _ => false

theorem exists_of_atOp {test : I.Op → Bool} {p : Prog I α} (h : p.atOp test = true) :
    ∃ o k, p = .op o k ∧ test o = true := by
  cases p with
  | ret a => cases h
  | op o k => exact ⟨o, k, rfl, h⟩
  | call q k => cases h

/-- All actions of the program are in `P`, and all procedures it calls in `C`. -/
def Uses (P : I.Op → Prop) (C : I.Proc → Prop) : Prog I α → Prop
  | .ret _ => True
  | .op o k => P o ∧ ∀ r, (k r).Uses P C
  | .call p k => C p ∧ ∀ r, (k r).Uses P C

section uses

variable {P P' : I.Op → Prop} {C : I.Proc → Prop}

theorem uses_act {o : I.Op} (h : P o) : (act o).Uses P C := ⟨h, fun _ => trivial⟩

theorem uses_invoke {p : I.Proc} (h : C p) : (invoke p).Uses P C := ⟨h, fun _ => trivial⟩

theorem Uses.bind {p : Prog I α} {f : α → Prog I β} (hp : p.Uses P C)
    (hf : ∀ a, (f a).Uses P C) : (p >>= f).Uses P C := by
  induction p with
  | ret a => exact hf a
  | op o k ih => exact ⟨hp.1, fun r => ih r (hp.2 r)⟩
  | call q k ih => exact ⟨hp.1, fun r => ih r (hp.2 r)⟩

theorem uses_step {o : I.Op} {f : I.Reply o → Prog I α} (h : P o)
    (hf : ∀ r, (f r).Uses P C) : (act o >>= f).Uses P C := (uses_act h).bind hf

theorem Uses.mono {p : Prog I α} (hp : p.Uses P C) (h : ∀ o, P o → P' o) : p.Uses P' C := by
  induction p with
  | ret a => trivial
  | op o k ih => exact ⟨h o hp.1, fun r => ih r (hp.2 r)⟩
  | call q k ih => exact ⟨hp.1, fun r => ih r (hp.2 r)⟩

/-- Code that calls no procedure uses those in `C`. -/
theorem Uses.of_none {p : Prog I α} (hp : p.Uses P fun _ => False) : p.Uses P C := by
  induction p with
  | ret a => trivial
  | op o k ih => exact ⟨hp.1, fun r => ih r (hp.2 r)⟩
  | call q k ih => exact hp.1.elim

theorem uses_searchFrom {body : Nat → Prog I (Option α)} (h : ∀ j, (body j).Uses P C) {n : Nat} :
    ∀ {i : Nat}, (searchFrom body n i).Uses P C := by
  induction n with
  | zero => exact trivial
  | succ n ih =>
    intro i
    refine (h i).bind fun r => ?_
    cases r with
    | some a => trivial
    | none => exact ih

theorem uses_search {body : Nat → Prog I (Option α)} (h : ∀ j, (body j).Uses P C) {n : Nat} :
    (search n body).Uses P C := uses_searchFrom h

end uses

end Prog

/-- What an atomic action can come to: it is done, it has to wait, or it is undefined. -/
inductive Outcome (ρ σ : Type) : Type where
  | done (r : ρ) (s : σ)
  | wait
  | fault
  deriving DecidableEq, Repr

namespace Outcome

variable {ρ σ τ : Type}

def map (f : σ → τ) : Outcome ρ σ → Outcome ρ τ
  | .done r s => .done r (f s)
  | .wait => .wait
  | .fault => .fault

@[simp] theorem map_eq_done {f : σ → τ} {x : Outcome ρ σ} {r : ρ} {u : τ} :
    x.map f = .done r u ↔ ∃ s, x = .done r s ∧ f s = u := by
  cases x with
  | done r' s =>
    constructor
    · intro h
      cases h
      exact ⟨s, rfl, rfl⟩
    · rintro ⟨_, h, rfl⟩
      cases h
      rfl
  | wait => simp [map]
  | fault => simp [map]

end Outcome

/-- Execution of the actions of an interface. What the outside world decides about one step
(how many bytes a read returns, which block an allocation yields) is the choice. -/
structure Machine (I : Interface) where
  State : Type
  Choice : Type
  exec : Nat → (o : I.Op) → Choice → State → Outcome (I.Reply o) State
  body : (p : I.Proc) → Prog I (I.Result p)

namespace Machine

variable {I : Interface} (M : Machine I) {α β : Type}

/-- One step of thread `t`. A call is replaced by its body, and nothing else changes. -/
def step (t : Nat) (e : M.Choice) : Prog I α → M.State → Option (Prog I α × M.State)
  | .ret _, _ => none
  | .op o k, s =>
    match M.exec t o e s with
    | .done r s' => some (k r, s')
    | .wait => none
    | .fault => none
  | .call p k, s => some (M.body p >>= k, s)

/-- At most `n` steps of thread `t`, with the choices that `pick` makes, until it makes none. -/
def drive (pick : I.Op → M.State → Option M.Choice) (t : Nat) :
    Nat → Prog I α → M.State → Prog I α × M.State
  | 0, p, s => (p, s)
  | _ + 1, .ret a, s => (.ret a, s)
  | n + 1, .op o k, s =>
    match pick o s with
    | none => (.op o k, s)
    | some e =>
      match M.exec t o e s with
      | .done r s' => drive pick t n (k r) s'
      | _ => (.op o k, s)
  | n + 1, .call p k, s => drive pick t n (M.body p >>= k) s

end Machine

end BourseServer.Concurrency
