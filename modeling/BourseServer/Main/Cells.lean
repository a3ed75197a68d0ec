import BourseServer.Main.Startup

/-!
# The cell of a connection

`main` passes the descriptor of a connection in a cell whose address stays in `connfdp` after the
cell has been passed on, and the handler frees what `connfdp` points to. So a cell is freed only
once in the runs in which no cell is claimed twice: a handler finds no cell that was passed to a
thread or found by another handler, and `main` passes on no cell that a handler has found.

Each thread has as a ghost value the cell it is to free.
-/
namespace BourseServer

open Concurrency

variable {E : Exchange}

/-- What a thread has to do with a cell. -/
inductive Stake where
  | nothing
  | passed (p : Nat)
  | taken (p : Nat)
  deriving DecidableEq, Repr

namespace Cells

abbrev World (E : Exchange) : Type := Concurrency.World (startSystem E) Stake

structure Inv (w : World E) : Prop where
  passed : ∀ t p, w.ghost t = .passed p → w.state.cells p ≠ none ∧ w.state.handed p = true
  taken : ∀ t p, w.ghost t = .taken p →
    w.state.cells p ≠ none ∧ w.state.handed p = false ∧ w.state.taken p = true
  unique : ∀ t u, w.ghost t ≠ .nothing → w.ghost t = w.ghost u → t = u
  created : ∀ u arg, w.state.created u = some arg → w.state.mainThread ≠ some u ∧ ∃ p,
    arg = some p ∧ w.state.cells p ≠ none ∧ w.state.handed p = true ∧
      (∀ t, w.ghost t ≠ .passed p) ∧ ∀ v, w.state.created v = some (some p) → u = v
  pending : ∀ p, w.state.connfdp = some p → w.state.handed p = false →
    w.state.taken p = false → w.state.cells p ≠ none
  start : w.state.mainThread = none → ∀ u, w.state.created u = none

/-- What thread `t` knows to be left alone by the other threads. Only `main` sets `connfdp` and
passes cells on. -/
structure Rely (t : Nat) (w w' : World E) : Prop where
  ghost : w'.ghost t = w.ghost t
  mainThread : ∀ u, w.state.mainThread = some u → w'.state.mainThread = some u
  notMain : w.state.mainThread ≠ some t → w'.state.mainThread ≠ some t
  connfdp : w.state.mainThread = some t → w'.state.connfdp = w.state.connfdp
  handed : w.state.mainThread = some t → w'.state.handed = w.state.handed
  spare : w.state.mainThread = some t → ∀ p, w.state.connfdp ≠ some p →
    w.state.handed p = false → w.state.taken p = false → w.state.cells p ≠ none →
      w'.state.taken p = false ∧ w'.state.cells p ≠ none
  exited : w.state.proc.exited = true → w'.state.proc.exited = true

theorem Rely.refl (t : Nat) (w : World E) : Rely t w w :=
  ⟨rfl, fun _ h => h, id, fun _ => rfl, fun _ => rfl, fun _ _ _ _ ht hl => ⟨ht, hl⟩, id⟩

theorem Rely.trans {t : Nat} {u v w : World E} (h : Rely t u v) (h' : Rely t v w) :
    Rely t u w where
  ghost := h'.ghost.trans h.ghost
  mainThread m hm := h'.mainThread m (h.mainThread m hm)
  notMain hm := h'.notMain (h.notMain hm)
  connfdp hm := (h'.connfdp (h.mainThread t hm)).trans (h.connfdp hm)
  handed hm := (h'.handed (h.mainThread t hm)).trans (h.handed hm)
  spare hm p hc hh ht hl := by
    obtain ⟨ht', hl'⟩ := h.spare hm p hc hh ht hl
    refine h'.spare (h.mainThread t hm) p ?_ ?_ ht' hl'
    · rw [h.connfdp hm]
      exact hc
    · rw [h.handed hm]
      exact hh
  exited he := h'.exited (h.exited he)

/-- No cell is claimed twice by the action. -/
structure Assume (t : Nat) (o : bourseProgram.Op) (d : Startup E) : Prop where
  connfdp : o = .inr .connfdp → d.mainThread ≠ some t → ∀ p, d.connfdp = some p →
    d.handed p = false ∧ d.taken p = false
  createThread : ∀ p, o = .inr (.createThread (some p)) → d.taken p = false

/-- A cell that is read or freed is allocated. -/
structure Safe (o : bourseProgram.Op) (d : Startup E) : Prop where
  free : ∀ p, o = .inr (.freeCell (some p)) → d.cells p ≠ none
  load : ∀ arg, o = .inr (.loadCell arg) → ∃ p, arg = some p ∧ d.cells p ≠ none

/-- Between its programs a thread has nothing to do with a cell. -/
def Idle (t : Nat) (w : World E) : Prop := w.ghost t = .nothing

def discipline (E : Exchange) : Discipline (startSystem E) Stake where
  inv := Inv
  rely := Rely
  rely_refl := Rely.refl
  rely_trans := Rely.trans
  assume t o _ d := Assume t o d
  safe _ o w := Safe o w.state
  pre _ _ _ := True
  post t _ w _ w' := Rely t w w'
  idle := Idle

variable {t : Nat} {w : World E} {d : Startup E} {p : Nat}

/-! ## What the actions do to the cells -/

/-- The two states have the same cells, pointers and threads. -/
structure Same (d d' : Startup E) : Prop where
  connfdp : d'.connfdp = d.connfdp
  cells : d'.cells = d.cells
  created : d'.created = d.created
  handed : d'.handed = d.handed
  taken : d'.taken = d.taken
  mainThread : d'.mainThread = d.mainThread

theorem Same.rely (hs : Same w.state d)
    (hexited : w.state.proc.exited = true → d.proc.exited = true) :
    Rely t w (w.after t d (w.ghost t)) where
  ghost := World.after_ghost_self ..
  mainThread _ hm := hs.mainThread.trans hm
  notMain hm h := hm (hs.mainThread.symm.trans h)
  connfdp _ := hs.connfdp
  handed _ := hs.handed
  spare _ p _ _ ht hl :=
    ⟨(congrFun hs.taken p).trans ht, fun h => hl ((congrFun hs.cells p).symm.trans h)⟩
  exited := hexited

theorem Inv.moves_same (h : Inv w) (hs : Same w.state d)
    (hexited : w.state.proc.exited = true → d.proc.exited = true) :
    (discipline E).Moves t w (w.after t d (w.ghost t)) := by
  have hghost : (w.after t d (w.ghost t)).ghost = w.ghost := Function.update_eq_self ..
  constructor
  · constructor
    all_goals
      simp only [World.after_state, hghost, hs.connfdp, hs.cells, hs.created, hs.handed, hs.taken,
        hs.mainThread]
    · exact h.passed
    · exact h.taken
    · exact h.unique
    · exact h.created
    · exact h.pending
    · exact h.start
  · intro u _
    have hrely := hs.rely (t := u) hexited
    refine { hrely with ghost := ?_ }
    rw [hghost]

/-- `main` changes cells of which none is another thread's. -/
theorem Inv.moves_cells (h : Inv w) {cells : Nat → Option Int} {handed taken : Nat → Bool}
    (hrun : w.state.proc.exited = false) (hmain : w.state.mainThread = some t)
    (hlive : ∀ q, w.state.cells q ≠ none →
      cells q ≠ none ∧ handed q = w.state.handed q ∧ taken q = w.state.taken q)
    (hnew : ∀ q, cells q ≠ none ∨ handed q = w.state.handed q ∧ taken q = w.state.taken q) :
    (discipline E).Moves t w (w.after t { w.state with
      cells := cells, handed := handed, taken := taken } (w.ghost t)) := by
  have hghost : (w.after t { w.state with
      cells := cells, handed := handed, taken := taken } (w.ghost t)).ghost = w.ghost :=
    Function.update_eq_self ..
  constructor
  · constructor
    case passed =>
      intro u q hu
      rw [hghost] at hu
      obtain ⟨hl, hh⟩ := h.passed u q hu
      exact ⟨(hlive q hl).1, (hlive q hl).2.1.trans hh⟩
    case taken =>
      intro u q hu
      rw [hghost] at hu
      obtain ⟨hl, hh, ht⟩ := h.taken u q hu
      exact ⟨(hlive q hl).1, (hlive q hl).2.1.trans hh, (hlive q hl).2.2.trans ht⟩
    case unique =>
      rw [hghost]
      exact h.unique
    case created =>
      intro u arg hu
      obtain ⟨hm, q, rfl, hl, hh, hno, huniq⟩ := h.created u arg hu
      rw [hghost]
      exact ⟨hm, q, rfl, (hlive q hl).1, (hlive q hl).2.1.trans hh, hno, huniq⟩
    case pending =>
      intro q hc hh ht
      rcases hnew q with hl | ⟨hhanded, htaken⟩
      · exact hl
      · exact (hlive q (h.pending q hc (hhanded.symm.trans hh) (htaken.symm.trans ht))).1
    case start => exact h.start
  · intro u hu
    have hother : w.state.mainThread ≠ some u :=
      fun hm => hu (Option.some.inj (hmain.symm.trans hm)).symm
    constructor
    case ghost => rw [hghost]
    case mainThread => exact fun _ hm => hm
    case notMain => exact id
    case connfdp => exact fun _ => rfl
    case handed => exact fun hm => absurd hm hother
    case spare => exact fun hm => absurd hm hother
    case exited =>
      intro he
      rw [hrun] at he
      cases he

/-- `main` makes `connfdp` point to its new cell. -/
theorem Inv.moves_connfdp (h : Inv w) (hmain : w.state.mainThread = some t)
    (hcell : w.state.connfdp = some p ∨ w.state.cells p ≠ none) :
    (discipline E).Moves t w (w.after t { w.state with connfdp := some p } (w.ghost t)) := by
  have hghost : (w.after t { w.state with connfdp := some p } (w.ghost t)).ghost = w.ghost :=
    Function.update_eq_self ..
  constructor
  · constructor
    case passed => rw [hghost]; exact h.passed
    case taken => rw [hghost]; exact h.taken
    case unique => rw [hghost]; exact h.unique
    case created => rw [hghost]; exact h.created
    case pending =>
      rintro q ⟨⟩ hh ht
      exact hcell.elim (fun hc => h.pending p hc hh ht) id
    case start => exact h.start
  · intro u hu
    have hother : w.state.mainThread ≠ some u :=
      fun hm => hu (Option.some.inj (hmain.symm.trans hm)).symm
    constructor
    case ghost => rw [hghost]
    case mainThread => exact fun _ hm => hm
    case notMain => exact id
    case connfdp => exact fun hm => absurd hm hother
    case handed => exact fun _ => rfl
    case spare => exact fun hm => absurd hm hother
    case exited => exact id

/-- `main` passes its cell to a new thread. -/
theorem Inv.moves_create (h : Inv w) {u : Nat} (hmain : w.state.mainThread = some t)
    (hc : w.state.connfdp = some p) (hhanded : w.state.handed p = false)
    (htaken : w.state.taken p = false) (hu : w.state.mainThread ≠ some u)
    (hnone : w.state.created u = none) :
    (discipline E).Moves t w (w.after t { w.state with
      created := Function.update w.state.created u (some (some p))
      handed := fun q => w.state.handed q || decide (some p = some q) } (w.ghost t)) := by
  have hghost : (w.after t { w.state with
      created := Function.update w.state.created u (some (some p))
      handed := fun q => w.state.handed q || decide (some p = some q) } (w.ghost t)).ghost =
      w.ghost := Function.update_eq_self ..
  have hold : ∀ q, w.state.handed q = true →
      (w.state.handed q || decide (some p = some q)) = true := by
    intro q hq
    rw [hq]
    rfl
  have hne : ∀ q, w.state.handed q = true → q ≠ p := by
    rintro q hq rfl
    rw [hhanded] at hq
    cases hq
  constructor
  · constructor
    case passed =>
      intro x q hx
      rw [hghost] at hx
      obtain ⟨hl, hh⟩ := h.passed x q hx
      exact ⟨hl, hold q hh⟩
    case taken =>
      intro x q hx
      rw [hghost] at hx
      obtain ⟨hl, hh, ht⟩ := h.taken x q hx
      refine ⟨hl, ?_, ht⟩
      have hpq : p ≠ q := by
        rintro rfl
        rw [htaken] at ht
        cases ht
      simpa [hpq] using hh
    case unique => rw [hghost]; exact h.unique
    case created =>
      intro x arg hx
      rw [hghost]
      simp only [World.after_state] at hx ⊢
      by_cases hxu : x = u
      · subst hxu
        rw [Function.update_self] at hx
        cases hx
        refine ⟨hu, p, rfl, h.pending p hc hhanded htaken, by simp,
          fun y hy => hne p (h.passed y p hy).2 rfl, ?_⟩
        intro y hy
        by_cases hyx : y = x
        · exact hyx.symm
        · rw [Function.update_of_ne hyx] at hy
          obtain ⟨_, q, hq, _, hh, _⟩ := h.created y _ hy
          cases hq
          exact absurd rfl (hne p hh)
      · rw [Function.update_of_ne hxu] at hx
        obtain ⟨hm, q, rfl, hl, hh, hno, huniq⟩ := h.created x arg hx
        refine ⟨hm, q, rfl, hl, hold q hh, hno, fun y hy => ?_⟩
        by_cases hyu : y = u
        · subst hyu
          rw [Function.update_self] at hy
          cases hy
          exact absurd rfl (hne p hh)
        · rw [Function.update_of_ne hyu] at hy
          exact huniq y hy
    case pending =>
      intro q hq hh ht
      obtain rfl := Option.some.inj (hc.symm.trans hq)
      simp at hh
    case start =>
      intro hm
      cases hmain.symm.trans hm
  · intro x hx
    have hother : w.state.mainThread ≠ some x :=
      fun hm => hx (Option.some.inj (hmain.symm.trans hm)).symm
    constructor
    case ghost => rw [hghost]
    case mainThread => exact fun _ hm => hm
    case notMain => exact id
    case connfdp => exact fun _ => rfl
    case handed => exact fun hm => absurd hm hother
    case spare => exact fun hm => absurd hm hother
    case exited => exact id

/-- The handler finds a cell. -/
theorem Inv.moves_taken (h : Inv w) (hmain : w.state.mainThread ≠ some t)
    (hg : w.ghost t = .nothing) (hc : w.state.connfdp = some p)
    (hhanded : w.state.handed p = false) (htaken : w.state.taken p = false) :
    (discipline E).Moves t w (w.after t { w.state with
      taken := fun q => w.state.taken q || decide (w.state.mainThread ≠ some t ∧
        w.state.connfdp = some q) } (.taken p)) := by
  have hghost : ∀ u v, v ≠ .taken p → (w.after t { w.state with
      taken := fun q => w.state.taken q || decide (w.state.mainThread ≠ some t ∧
        w.state.connfdp = some q) } (.taken p)).ghost u = v → w.ghost u = v := by
    intro u v hv hu
    by_cases hut : u = t
    · subst hut
      rw [World.after_ghost_self] at hu
      exact absurd hu.symm hv
    · rwa [World.after_ghost_of_ne w _ _ hut] at hu
  -- nobody else has taken the cell
  have hfresh : ∀ u q, w.ghost u = .taken q → q ≠ p := by
    rintro u q hu rfl
    have ht := (h.taken u q hu).2.2
    rw [htaken] at ht
    cases ht
  constructor
  · constructor
    case passed => exact fun u q hu => h.passed u q (hghost u _ (by simp) hu)
    case taken =>
      intro u q hu
      by_cases hut : u = t
      · subst hut
        rw [World.after_ghost_self] at hu
        cases hu
        exact ⟨h.pending p hc hhanded htaken, hhanded, by simp [hmain, hc]⟩
      · rw [World.after_ghost_of_ne w _ _ hut] at hu
        obtain ⟨hl, hh, ht⟩ := h.taken u q hu
        exact ⟨hl, hh, by simp [ht]⟩
    case unique =>
      intro u x hu hux
      by_cases hut : u = t
      · subst hut
        rw [World.after_ghost_self] at hux
        by_contra hxu
        rw [World.after_ghost_of_ne w _ _ (Ne.symm hxu)] at hux
        exact hfresh x p hux.symm rfl
      · rw [World.after_ghost_of_ne w _ _ hut] at hu hux
        by_cases hxt : x = t
        · subst hxt
          rw [World.after_ghost_self] at hux
          exact absurd rfl (hfresh u p hux)
        · rw [World.after_ghost_of_ne w _ _ hxt] at hux
          exact h.unique u x hu hux
    case created =>
      intro u arg hu
      obtain ⟨hm, q, hq, hl, hh, hno, huniq⟩ := h.created u arg hu
      exact ⟨hm, q, hq, hl, hh, fun y hy => hno y (hghost y _ (by simp) hy), huniq⟩
    case pending =>
      intro q hq hh ht
      simp only [World.after_state, Bool.or_eq_false_iff] at ht
      exact h.pending q hq hh ht.1
    case start => exact h.start
  · intro u hu
    constructor
    case ghost => exact World.after_ghost_of_ne w _ _ hu
    case mainThread => exact fun _ hm => hm
    case notMain => exact id
    case connfdp => exact fun _ => rfl
    case handed => exact fun _ => rfl
    case spare =>
      intro _ q hcq _ ht hl
      exact ⟨by simp [ht, hcq], hl⟩
    case exited => exact id

/-- A thread frees the cell it has. -/
theorem Inv.moves_freed (h : Inv w) (ht : w.ghost t = .passed p ∨ w.ghost t = .taken p) :
    (discipline E).Moves t w
      (w.after t { w.state with cells := Function.update w.state.cells p none } .nothing) := by
  have hself : (w.after t { w.state with
      cells := Function.update w.state.cells p none } .nothing).ghost t = .nothing :=
    World.after_ghost_self ..
  have hghost : ∀ u v, v ≠ .nothing → (w.after t { w.state with
      cells := Function.update w.state.cells p none } .nothing).ghost u = v →
      u ≠ t ∧ w.ghost u = v := by
    intro u v hv hu
    have hut : u ≠ t := by
      rintro rfl
      exact hv (hu.symm.trans hself)
    exact ⟨hut, (World.after_ghost_of_ne w _ _ hut).symm.trans hu⟩
  have hkeep : ∀ q, q ≠ p → w.state.cells q ≠ none →
      Function.update w.state.cells p none q ≠ none := by
    intro q hq hl
    rwa [Function.update_of_ne hq]
  have hsole : ∀ u, u ≠ t → w.ghost u ≠ .passed p ∧ w.ghost u ≠ .taken p := by
    intro u hut
    constructor
    · intro hu
      rcases ht with ht | ht
      · exact hut (h.unique u t (by simp [hu]) (hu.trans ht.symm))
      · have hh := (h.passed u p hu).2
        rw [(h.taken t p ht).2.1] at hh
        cases hh
    · intro hu
      rcases ht with ht | ht
      · have hh := (h.passed t p ht).2
        rw [(h.taken u p hu).2.1] at hh
        cases hh
      · exact hut (h.unique u t (by simp [hu]) (hu.trans ht.symm))
  have hclaimed : w.state.handed p = true ∨ w.state.taken p = true :=
    ht.imp (fun ht => (h.passed t p ht).2) fun ht => (h.taken t p ht).2.2
  have hspare : ∀ q, w.state.handed q = false → w.state.taken q = false → q ≠ p := by
    rintro q hh htq rfl
    rw [hh, htq] at hclaimed
    exact hclaimed.elim nofun nofun
  constructor
  · constructor
    case passed =>
      intro u q hu
      obtain ⟨hut, hold⟩ := hghost u _ (by simp) hu
      obtain ⟨hl, hh⟩ := h.passed u q hold
      refine ⟨hkeep q ?_ hl, hh⟩
      rintro rfl
      exact (hsole u hut).1 hold
    case taken =>
      intro u q hu
      obtain ⟨hut, hold⟩ := hghost u _ (by simp) hu
      obtain ⟨hl, hclaim⟩ := h.taken u q hold
      refine ⟨hkeep q ?_ hl, hclaim⟩
      rintro rfl
      exact (hsole u hut).2 hold
    case unique =>
      intro u x hu hux
      have hx := hux ▸ hu
      rw [(hghost u _ hu rfl).2.symm, (hghost x _ hx rfl).2.symm] at hux
      rw [(hghost u _ hu rfl).2.symm] at hu
      exact h.unique u x hu hux
    case created =>
      intro u arg hu
      obtain ⟨hm, q, hq, hl, hh, hno, huniq⟩ := h.created u arg hu
      refine ⟨hm, q, hq, hkeep q ?_ hl, hh, fun y hy => ?_, huniq⟩
      · rintro rfl
        rcases ht with ht | ht
        · exact hno t ht
        · rw [(h.taken t q ht).2.1] at hh
          cases hh
      · exact hno y (hghost y _ (by simp) hy).2
    case pending =>
      intro q hq hh htq
      exact hkeep q (hspare q hh htq) (h.pending q hq hh htq)
    case start => exact h.start
  · intro u hu
    constructor
    case ghost => exact World.after_ghost_of_ne w _ _ hu
    case mainThread => exact fun _ hm => hm
    case notMain => exact id
    case connfdp => exact fun _ => rfl
    case handed => exact fun _ => rfl
    case spare =>
      intro _ q _ hh htq hl
      exact ⟨htq, hkeep q (hspare q hh htq) hl⟩
    case exited => exact id

/-- A created thread begins to run. -/
theorem Inv.moves_passed (h : Inv w) (hg : w.ghost t = .nothing)
    (ht : w.state.created t = some (some p)) :
    (discipline E).Moves t w (w.after t { w.state with
      created := Function.update w.state.created t none } (.passed p)) := by
  obtain ⟨hm, _, ⟨rfl⟩, hl, hh, hno, huniq⟩ := h.created t _ ht
  have hghost : ∀ x v, v ≠ .passed p → (w.after t { w.state with
      created := Function.update w.state.created t none } (.passed p)).ghost x = v →
      w.ghost x = v := by
    intro x v hv hx
    by_cases hxt : x = t
    · subst hxt
      rw [World.after_ghost_self] at hx
      exact absurd hx.symm hv
    · rwa [World.after_ghost_of_ne w _ _ hxt] at hx
  constructor
  · constructor
    case passed =>
      intro x q hx
      by_cases hxt : x = t
      · subst hxt
        rw [World.after_ghost_self] at hx
        cases hx
        exact ⟨hl, hh⟩
      · rw [World.after_ghost_of_ne w _ _ hxt] at hx
        exact h.passed x q hx
    case taken => exact fun x q hx => h.taken x q (hghost x _ (by simp) hx)
    case unique =>
      intro x y hx hxy
      by_cases hxt : x = t
      · subst hxt
        rw [World.after_ghost_self] at hxy
        by_contra hyx
        rw [World.after_ghost_of_ne w _ _ (Ne.symm hyx)] at hxy
        exact hno y hxy.symm
      · rw [World.after_ghost_of_ne w _ _ hxt] at hx hxy
        by_cases hyt : y = t
        · subst hyt
          rw [World.after_ghost_self] at hxy
          exact absurd hxy (hno x)
        · rw [World.after_ghost_of_ne w _ _ hyt] at hxy
          exact h.unique x y hx hxy
    case created =>
      intro x arg hx
      simp only [World.after_state] at hx ⊢
      by_cases hxt : x = t
      · subst hxt
        rw [Function.update_self] at hx
        cases hx
      · rw [Function.update_of_ne hxt] at hx
        obtain ⟨hmx, q, rfl, hlq, hhq, hnoq, huniqq⟩ := h.created x arg hx
        have hqp : q ≠ p := by
          rintro rfl
          exact hxt (huniq x hx).symm
        refine ⟨hmx, q, rfl, hlq, hhq, fun y hy => ?_, fun y hy => ?_⟩
        · exact hnoq y (hghost y _ (by simpa using hqp) hy)
        · by_cases hyt : y = t
          · subst hyt
            rw [Function.update_self] at hy
            cases hy
          · rw [Function.update_of_ne hyt] at hy
            exact huniqq y hy
    case pending => exact h.pending
    case start =>
      intro hmain x
      have hnone := h.start hmain t
      rw [ht] at hnone
      cases hnone
  · intro x hx
    constructor
    case ghost => exact World.after_ghost_of_ne w _ _ hx
    case mainThread => exact fun _ hm => hm
    case notMain => exact id
    case connfdp => exact fun _ => rfl
    case handed => exact fun _ => rfl
    case spare => exact fun _ q _ _ htq hlq => ⟨htq, hlq⟩
    case exited => exact id

/-! ## The code of `main.c` -/

/-- What the other threads leave alone, the thread keeps as well when it changes nothing. -/
def Lasting (t : Nat) (P : World E → Prop) : Prop := ∀ {w w'}, Rely t w w' → P w → P w'

theorem Lasting.stable {P : World E → Prop} (h : Lasting t P) : (discipline E).Stable t P :=
  fun _ _ hr _ hw => h hr hw

theorem lasting_rely {w₀ : World E} : Lasting t (Rely t w₀) := fun hr h => h.trans hr

theorem lasting_idle : Lasting t (Idle (E := E) t) := fun hr h => hr.ghost.trans h

variable {P : World E → Prop}

/-- An action of `main.c` that is neither a load nor a free of a cell. -/
theorem triple_start {o : StartOp} {Q : o.Reply → World E → Prop}
    (hP : Lasting t P) (hQ : ∀ r, Lasting t (Q r)) (hfree : ∀ p, o ≠ .freeCell p)
    (hload : ∀ p, o ≠ .loadCell p)
    (h : ∀ w e r d, Inv w → P w → w.state.proc.exited = false →
      Startup.execStart t o e w.state = .done r d → Assume t (.inr o) w.state →
      ∃ v, (discipline E).Moves t w (w.after t d v) ∧ Q r (w.after t d v)) :
    (discipline E).Triple t P (Startup.act o) Q := by
  refine .act hP.stable (fun r => Lasting.stable (hQ r)) (fun w _ _ => ⟨?_, ?_⟩) ?_
  · intro p heq
    exact absurd (Sum.inr.inj heq) (hfree (some p))
  · intro p heq
    exact absurd (Sum.inr.inj heq) (hload p)
  · intro w hi hw e r d he ha
    obtain ⟨hstop, he⟩ := Startup.exec_start he
    exact h w e r d hi hw (Startup.running_of_stopped hstop) he ha

/-- Actions that have nothing to do with the cells. -/
def apart : StartOp → Bool
  | .sigaction | .terminate _ | .cregInit | .exchangeInit | .traderInit | .openListenfd _ => true
  | .accept => true
  | _ => false

theorem execStart_apart {o : StartOp} {e : Startup.Choice E} {d d' : Startup E} {r : o.Reply}
    (ho : apart o = true) (h : Startup.execStart t o e d = .done r d') : Same d d' := by
  cases o
  case mallocCell => cases ho
  case connfdp => cases ho
  case setConnfdp => cases ho
  case storeCell => cases ho
  case createThread => cases ho
  case loadCell => cases ho
  case freeCell => cases ho
  all_goals
    simp only [Startup.execStart] at h
    repeat' split at h
    all_goals
      cases h
      try exact ⟨rfl, rfl, rfl, rfl, rfl, rfl⟩

/-- Such an action keeps what is known of the cells. -/
theorem triple_apart {o : StartOp} (hP : Lasting t P) (ho : apart o = true) :
    (discipline E).Triple t P (Startup.act o) fun _ => P := by
  refine triple_start hP (fun _ => hP) (by rintro p rfl; cases ho) (by rintro p rfl; cases ho) ?_
  intro w e r d hi hw hrun he _
  have hs := execStart_apart ho he
  have hexited : w.state.proc.exited = true → d.proc.exited = true := by
    intro hx
    rw [hrun] at hx
    cases hx
  exact ⟨w.ghost t, hi.moves_same hs hexited, hP (hs.rely hexited) hw⟩

/-- Code of the process. -/
theorem triple_lift {α : Type} (hP : Lasting t P) (p : MainCode α) :
    (discipline E).Triple t P p.lift fun _ => P := by
  refine .lift_of_uses (A := fun _ => True) (C := fun _ => True) hP.stable ?_ ?_
    (Prog.uses_of_forall (fun _ => trivial) (fun _ => trivial) p)
  · intro o _
    refine .act hP.stable (fun _ => hP.stable) (fun w _ _ => ⟨nofun, nofun⟩) ?_
    intro w hi hw e r d he _
    obtain ⟨hstop, s, rfl⟩ := Startup.exec_process he
    have hs : Same w.state { w.state with proc := s } := ⟨rfl, rfl, rfl, rfl, rfl, rfl⟩
    have hexited : w.state.proc.exited = true → s.exited = true := by
      intro hx
      rw [Startup.running_of_stopped hstop] at hx
      cases hx
    exact ⟨w.ghost t, hi.moves_same hs hexited, hP (hs.rely hexited) hw⟩
  · intro p _
    exact .invoke hP.stable (fun _ => hP.stable) (fun _ _ _ => trivial)
      fun w _ w' _ hw hr => hP hr hw

theorem triple_terminate {status : Int} (hP : Lasting t P) :
    (discipline E).Triple t P (Startup.terminate status) fun _ => P :=
  .bind (triple_apart hP rfl) fun _ => triple_lift hP BourseServer.terminate

/-- What a thread that is to free `arg` has. -/
def Frees (t : Nat) (arg : Option Nat) (w : World E) : Prop :=
  arg = none ∧ w.ghost t = .nothing ∨
    ∃ p, arg = some p ∧ (w.ghost t = .passed p ∨ w.ghost t = .taken p)

theorem lasting_frees {arg : Option Nat} : Lasting t (Frees (E := E) t arg) := by
  intro w w' hr h
  unfold Frees at h ⊢
  rwa [hr.ghost]

/-- A thread frees the cell it has, or nothing. -/
theorem triple_freeCell {arg : Option Nat} :
    (discipline E).Triple t (Frees t arg) (Startup.act (.freeCell arg)) fun _ => Idle t := by
  refine .act lasting_frees.stable (fun _ => lasting_idle.stable) (fun w hi hw => ⟨?_, nofun⟩) ?_
  · intro p hp
    obtain rfl := StartOp.freeCell.inj (Sum.inr.inj hp)
    obtain ⟨hnone, _⟩ | ⟨q, hq, hg⟩ := hw
    · cases hnone
    · cases hq
      exact hg.elim (fun hg => (hi.passed t p hg).1) fun hg => (hi.taken t p hg).1
  · intro w hi hw e r d he _
    obtain ⟨_, he⟩ := Startup.exec_start he
    obtain ⟨rfl, hg⟩ | ⟨q, rfl, hg⟩ := hw
    · cases he
      exact ⟨w.ghost t, hi.moves_same ⟨rfl, rfl, rfl, rfl, rfl, rfl⟩ id,
        (World.after_ghost_self ..).trans hg⟩
    · simp only [Startup.execStart] at he
      split at he
      · cases he
      · cases he
        exact ⟨.nothing, hi.moves_freed hg, World.after_ghost_self ..⟩

/-- Threads that do not run `main`, and have nothing to do with a cell. -/
structure Beside (t : Nat) (v : Stake) (w : World E) : Prop where
  notMain : w.state.mainThread ≠ some t
  ghost : w.ghost t = v

theorem lasting_beside {v : Stake} : Lasting t (Beside (E := E) t v) :=
  fun hr h => ⟨hr.notMain h.notMain, hr.ghost.trans h.ghost⟩

theorem triple_sigupHandler :
    (discipline E).Triple t (Beside t .nothing) Startup.sigupHandler fun _ => Idle t := by
  refine .bind (Q := Frees t) ?_ fun arg =>
    .bind triple_freeCell fun _ => triple_terminate lasting_idle
  refine triple_start (o := .connfdp) lasting_beside (fun _ => lasting_frees) nofun nofun ?_
  rintro w e r d hi ⟨hmain, hg⟩ _ he ha
  cases he
  obtain hc | ⟨p, hc⟩ := Option.eq_none_or_eq_some w.state.connfdp
  · refine ⟨w.ghost t, hi.moves_same ⟨rfl, rfl, rfl, rfl, ?_, rfl⟩ id, .inl ⟨hc, ?_⟩⟩
    · funext q
      simp [hc]
    · exact (World.after_ghost_self ..).trans hg
  · obtain ⟨hhanded, htaken⟩ := ha.connfdp rfl hmain p hc
    exact ⟨.taken p, hi.moves_taken hmain hg hc hhanded htaken,
      .inr ⟨p, hc, .inr (World.after_ghost_self ..)⟩⟩

theorem triple_clientThread :
    (discipline E).Triple t (Beside t (.passed p)) (Startup.clientThread (some p))
      fun _ => Idle t := by
  refine .bind (Q := fun _ => Beside t (.passed p)) ?_ fun fd =>
    .bind (triple_freeCell.pre fun _ _ hw => .inr ⟨p, rfl, .inl hw.ghost⟩) fun _ =>
      triple_lift lasting_idle (brsClientService fd).lift
  refine .act lasting_beside.stable (fun _ => lasting_beside.stable)
    (fun w hi hw => ⟨nofun, ?_⟩) ?_
  · intro arg harg
    obtain rfl := StartOp.loadCell.inj (Sum.inr.inj harg)
    exact ⟨p, rfl, (hi.passed t p hw.ghost).1⟩
  · intro w hi hw e r d he _
    obtain ⟨hstop, he⟩ := Startup.exec_start he
    have hrun := Startup.running_of_stopped hstop
    simp only [Startup.execStart] at he
    split at he
    · cases he
    · cases he
      refine ⟨w.ghost t, hi.moves_same ⟨rfl, rfl, rfl, rfl, rfl, rfl⟩ fun hx => ?_, hw.notMain,
        (World.after_ghost_self ..).trans hw.ghost⟩
      rw [hrun] at hx
      cases hx

/-! ## `main` -/

theorem triple_main {argv : List String} :
    (discipline E).Triple t (Idle t) (Startup.main argv) fun _ => Idle t := by
  have hcheck : ∀ (bad : Prop) [Decidable bad],
      (discipline E).Triple t (Idle t) (Startup.exitIf bad) fun _ => Idle t := by
    intro bad _
    unfold Startup.exitIf
    split_ifs
    · exact triple_terminate lasting_idle
    · exact .ret (Lasting.stable lasting_idle) fun _ _ h => h
  refine .bind (triple_apart lasting_idle rfl) fun _ => .bind (hcheck _) fun _ =>
    .bind (hcheck _) fun _ => ?_
  refine .bind (triple_apart lasting_idle rfl) fun _ => ?_
  refine .bind (triple_apart lasting_idle rfl) fun _ => ?_
  refine .bind (triple_apart lasting_idle rfl) fun _ => ?_
  exact triple_apart lasting_idle rfl

/-- What is known in the loop of `main`, unless a system call has failed. -/
structure InMain (t : Nat) (F : Startup E → Prop) (w : World E) : Prop where
  main : w.state.mainThread = some t
  ghost : w.ghost t = .nothing
  facts : w.state.proc.exited = true ∨ F w.state

variable {F : Startup E → Prop}

theorem InMain.running (h : InMain t F w) (hrun : w.state.proc.exited = false) : F w.state := by
  refine h.facts.resolve_left ?_
  rw [hrun]
  exact nofun

/-- A fact that `main` can rely on. -/
def Kept (t : Nat) (F : Startup E → Prop) : Prop :=
  ∀ w w' : World E, Rely t w w' → w.state.mainThread = some t → F w.state → F w'.state

theorem lasting_inMain (h : Kept t F) : Lasting t (InMain t F) := by
  intro w w' hr hw
  refine ⟨hr.mainThread t hw.main, hr.ghost.trans hw.ghost, ?_⟩
  exact hw.facts.imp hr.exited (h w w' hr hw.main)

/-- The cell is not passed on, and only a handler that finds it in `connfdp` may free it. -/
def Fresh (cell : Option Nat) (d : Startup E) : Prop :=
  ∃ p, cell = some p ∧ d.handed p = false ∧
    (d.connfdp = some p ∨ d.taken p = false ∧ d.cells p ≠ none)

theorem kept_fresh {cell : Option Nat} : Kept t (Fresh (E := E) cell) := by
  rintro w w' hr hm ⟨p, rfl, hh, hc⟩
  refine ⟨p, rfl, (congrFun (hr.handed hm) p).trans hh, ?_⟩
  by_cases hp : w.state.connfdp = some p
  · exact .inl ((hr.connfdp hm).trans hp)
  · obtain ⟨ht, hl⟩ := hc.resolve_left hp
    exact .inr (hr.spare hm p hp hh ht hl)

/-- `connfdp` points to the cell `arg`, which is not passed on. -/
def Current (arg : Option Nat) (d : Startup E) : Prop :=
  ∃ p, arg = some p ∧ d.connfdp = some p ∧ d.handed p = false

theorem kept_current {arg : Option Nat} : Kept t (Current (E := E) arg) := by
  rintro w w' hr hm ⟨p, rfl, hc, hh⟩
  exact ⟨p, rfl, (hr.connfdp hm).trans hc, (congrFun (hr.handed hm) p).trans hh⟩

theorem triple_mallocCell :
    (discipline E).Triple t (InMain t fun _ => True) (Startup.act .mallocCell)
      fun cell => InMain t (Fresh cell) := by
  refine triple_start (o := .mallocCell) (lasting_inMain fun _ _ _ _ h => h)
    (fun _ => lasting_inMain kept_fresh) nofun nofun ?_
  intro w e r d hi hw hrun he _
  simp only [Startup.execStart] at he
  split at he
  case h_3 => cases he
  case h_2 =>
    cases he
    exact ⟨w.ghost t, hi.moves_same ⟨rfl, rfl, rfl, rfl, rfl, rfl⟩ fun _ => rfl, hw.main,
      (World.after_ghost_self ..).trans hw.ghost, .inl rfl⟩
  case h_1 p junk =>
    split at he
    case h_1 => cases he
    case h_2 hfree =>
      cases he
      refine ⟨w.ghost t, hi.moves_cells hrun hw.main ?_ ?_, hw.main,
        (World.after_ghost_self ..).trans hw.ghost, .inr ?_⟩
      · intro q hq
        have hqp : q ≠ p := by
          rintro rfl
          exact hq hfree
        simp only [Function.update_of_ne hqp]
        exact ⟨hq, trivial, trivial⟩
      · intro q
        by_cases hqp : q = p
        · subst hqp
          simp only [Function.update_self]
          exact .inl (by simp)
        · simp only [Function.update_of_ne hqp]
          exact .inr ⟨trivial, trivial⟩
      · exact ⟨p, rfl, Function.update_self .., .inr ⟨Function.update_self .., by
          simp [World.after_state]⟩⟩

theorem triple_setConnfdp {cell : Option Nat} :
    (discipline E).Triple t (InMain t (Fresh cell)) (Startup.act (.setConnfdp cell))
      fun _ => InMain t (Current cell) := by
  refine triple_start (o := .setConnfdp cell) (lasting_inMain kept_fresh)
    (fun _ => lasting_inMain kept_current) nofun nofun ?_
  intro w e r d hi hw hrun he _
  cases he
  obtain ⟨p, rfl, hh, hc⟩ := hw.running hrun
  exact ⟨w.ghost t, hi.moves_connfdp hw.main (hc.imp id And.right), hw.main,
    (World.after_ghost_self ..).trans hw.ghost, .inr ⟨p, rfl, rfl, hh⟩⟩

theorem triple_connfdp {cell : Option Nat} :
    (discipline E).Triple t (InMain t (Current cell)) (Startup.act .connfdp)
      fun arg => InMain t (Current arg) := by
  refine triple_start (o := .connfdp) (lasting_inMain kept_current)
    (fun _ => lasting_inMain kept_current) nofun nofun ?_
  intro w e r d hi hw hrun he _
  cases he
  refine ⟨w.ghost t, hi.moves_same ⟨rfl, rfl, rfl, rfl, ?_, rfl⟩ id, hw.main,
    (World.after_ghost_self ..).trans hw.ghost, .inr ?_⟩
  · funext q
    simp [hw.main]
  · obtain ⟨p, _, hc, hh⟩ := hw.running hrun
    exact ⟨p, hc, hc, hh⟩

theorem triple_storeCell {arg : Option Nat} {fd : Int} :
    (discipline E).Triple t (InMain t (Current arg)) (Startup.act (.storeCell arg fd))
      fun _ => InMain t (Current arg) := by
  refine triple_start (o := .storeCell arg fd) (lasting_inMain kept_current)
    (fun _ => lasting_inMain kept_current) nofun nofun ?_
  intro w e r d hi hw hrun he _
  simp only [Startup.execStart] at he
  split at he
  · cases he
  · cases he
    refine ⟨w.ghost t, hi.moves_cells hrun hw.main ?_ fun q => .inr ⟨rfl, rfl⟩, hw.main,
      (World.after_ghost_self ..).trans hw.ghost, .inr (hw.running hrun)⟩
    intro q hq
    refine ⟨?_, rfl, rfl⟩
    split_ifs
    · simp
    · exact hq

theorem triple_createThread {arg : Option Nat} :
    (discipline E).Triple t (InMain t (Current arg)) (Startup.act (.createThread arg))
      fun _ => Idle t := by
  refine triple_start (o := .createThread arg) (lasting_inMain kept_current)
    (fun _ => lasting_idle) nofun nofun ?_
  intro w e r d hi hw hrun he ha
  obtain ⟨p, rfl, hc, hh⟩ := hw.running hrun
  simp only [Startup.execStart] at he
  split at he
  case h_3 => cases he
  case h_2 =>
    cases he
    exact ⟨w.ghost t, hi.moves_same ⟨rfl, rfl, rfl, rfl, rfl, rfl⟩ fun _ => rfl,
      (World.after_ghost_self ..).trans hw.ghost⟩
  case h_1 u =>
    split_ifs at he with hu
    cases he
    exact ⟨w.ghost t, hi.moves_create hw.main hc hh (ha.createThread p rfl) hu.1 hu.2,
      (World.after_ghost_self ..).trans hw.ghost⟩

theorem triple_acceptTurn :
    (discipline E).Triple t (InMain t fun _ => True) Startup.acceptTurn fun _ => Idle t := by
  refine .bind triple_mallocCell fun cell => .bind triple_setConnfdp fun _ => ?_
  refine .bind (triple_apart (lasting_inMain kept_current) rfl) fun fd => ?_
  refine .bind triple_connfdp fun p => .bind triple_storeCell fun _ => ?_
  exact .bind triple_connfdp fun arg => triple_createThread

/-! ## All interleavings -/

/-- `main` begins to run. -/
theorem Inv.moves_main (h : Inv w) (hnone : w.state.mainThread = none) :
    (discipline E).Moves t w
      (w.after t { w.state with mainThread := some t } (w.ghost t)) := by
  have hghost : (w.after t { w.state with mainThread := some t } (w.ghost t)).ghost = w.ghost :=
    Function.update_eq_self ..
  constructor
  · constructor
    case passed => rw [hghost]; exact h.passed
    case taken => rw [hghost]; exact h.taken
    case unique => rw [hghost]; exact h.unique
    case created =>
      intro u arg hu
      cases (h.start hnone u).symm.trans hu
    case pending => exact h.pending
    case start => exact nofun
  · intro u hu
    constructor
    case ghost => rw [hghost]
    case mainThread =>
      intro v hv
      cases hnone.symm.trans hv
    case notMain =>
      rintro _ ⟨⟩
      exact hu rfl
    case connfdp => exact fun _ => rfl
    case handed => exact fun _ => rfl
    case spare => exact fun _ q _ _ htq hl => ⟨htq, hl⟩
    case exited => exact id

theorem verified : (discipline E).Verified fun _ _ _ => True where
  body t p w hi _ := triple_lift lasting_rely (body p).lift w hi (Rely.refl t w)
  start t q w p s hi hidle h _ := by
    have hg : ∀ d, (w.after t d (w.ghost t)).ghost t = .nothing :=
      fun d => (World.after_ghost_self ..).trans hidle
    cases q with
    | run argv =>
      obtain ⟨hnone, rfl, rfl, _⟩ := Startup.launch_run h
      have hm := hi.moves_main (t := t) hnone
      exact ⟨w.ghost t, hm, triple_main _ hm.inv (hg _)⟩
    | turn =>
      obtain ⟨hmain, _, rfl, rfl⟩ := Startup.launch_turn h
      have hm := hi.moves_same (t := t) (d := w.state) ⟨rfl, rfl, rfl, rfl, rfl, rfl⟩ id
      exact ⟨w.ghost t, hm, triple_acceptTurn _ hm.inv ⟨hmain, hg _, .inr trivial⟩⟩
    | thread =>
      obtain ⟨arg, harg, rfl, rfl, _⟩ := Startup.launch_thread h
      obtain ⟨hmain, p, rfl, _⟩ := hi.created t arg harg
      have hm := hi.moves_passed hidle harg
      exact ⟨.passed p, hm, triple_clientThread _ hm.inv ⟨hmain, World.after_ghost_self ..⟩⟩
    | server q =>
      obtain ⟨p', s, rfl, rfl, _⟩ := Startup.launch_server h
      have hm := hi.moves_same (t := t)
        (d := { w.state with proc := { w.state.proc with server := s } })
        ⟨rfl, rfl, rfl, rfl, rfl, rfl⟩ id
      exact ⟨w.ghost t, hm, triple_lift lasting_idle p' _ hm.inv (hg _)⟩
    | signal v =>
      obtain ⟨_, _, hmain, rfl, rfl⟩ := Startup.launch_signal h
      have hm := hi.moves_same (t := t)
        (d := { w.state with signals := (v, t) :: w.state.signals })
        ⟨rfl, rfl, rfl, rfl, rfl, rfl⟩ id
      exact ⟨w.ghost t, hm, triple_sigupHandler _ hm.inv ⟨hmain, hg _⟩⟩

/-- The moves that do not claim a cell for the second time: a handler finds `connfdp` NULL, or a
cell that no thread was passed and no handler has found; and `main` passes no cell to a thread
that a handler has found. -/
def claimedOnce (c : Pool (startSystem E)) : Move (startSystem E) → Prop
  | .run t _ => ∀ o k, c.prog t = .op o k → Assume t o c.state
  | .start _ _ => True

variable {x : E.State} {n : Nat} {c : Pool (startSystem E)}

theorem holds_init : (discipline E).Holds (Pool.idle (Startup.init E x n)) := by
  refine Discipline.holds_idle (g := fun _ => .nothing) ?_ fun t w hr _ => hr.ghost
  exact ⟨nofun, nofun, fun t u h => absurd rfl h, nofun, nofun, fun _ _ => rfl⟩

/-- In all runs in which no cell is claimed twice, whenever a thread is about to free a cell, or a
service thread to read the descriptor in its cell, the cell is allocated. -/
theorem cells_allocated
    (h : Pool.ReachIf claimedOnce (Pool.idle (Startup.init E x n)) c) {t : Nat}
    {o : bourseProgram.Op} {k : bourseProgram.Reply o → StartCode Unit}
    (hp : c.prog t = .op o k) : Safe o c.state := by
  have hallowed : Pool.ReachIf ((discipline E).Allowed fun _ _ _ => True)
      (Pool.idle (Startup.init E x n)) c := by
    refine h.mono fun d m hm => ?_
    cases m with
    | run t e => exact hm
    | start t q => trivial
  obtain ⟨g, _, hsafe, _⟩ := (Discipline.adequacy verified holds_init hallowed).safe
  exact hsafe t o k hp

/-! ## Two runs -/

/-- The first connection gets cell 0 and descriptor 3, and thread 1 serves it. -/
def firstChoice (o : bourseProgram.Op) (d : Startup (.fixed 1 1)) : Startup.Choice (.fixed 1 1) :=
  match o with
  | .inl o => .process (smoothChoice () () o d.proc)
  | .inr .mallocCell => .cell 0 0
  | .inr .accept => .connection 3 [] false
  | .inr (.createThread _) => .thread 1
  | .inr _ => .tick

/-- A handler finds `connfdp` NULL or a cell that nobody has claimed, and `main` passes no cell to
a thread that a handler has found. -/
def unclaimed (t : Nat) (o : bourseProgram.Op) (d : Startup (.fixed 1 1)) : Bool :=
  match o with
  | .inr .connfdp => d.mainThread = some t || d.connfdp.all fun p => !d.handed p && !d.taken p
  | .inr (.createThread (some p)) => !d.taken p
  | _ => true

theorem assume_of_unclaimed {o : bourseProgram.Op} {d : Startup (.fixed 1 1)}
    (h : unclaimed t o d = true) : Assume t o d := by
  constructor
  · rintro rfl hmain p hp
    simpa [unclaimed, hmain, hp] using h
  · rintro p rfl
    simpa [unclaimed] using h

instance : Inhabited (startSystem E).Choice := ⟨.tick⟩

def firstCourse (guard : Nat → bourseProgram.Op → Startup (.fixed 1 1) → Bool) :
    Pool.Course (startSystem (.fixed 1 1)) where
  pick t o d := if guard t o d then some (firstChoice o d) else none
  start _ _ _ := true

theorem unclaimed_within : (firstCourse unclaimed).Within claimedOnce where
  op {c t o k e} hp hpick := by
    intro o' k' hp'
    simp only [firstCourse] at hpick
    split at hpick
    · rename_i hguard
      cases hp.symm.trans hp'
      exact assume_of_unclaimed hguard
    · cases hpick
  call hp := by
    intro o' k' hp'
    cases hp.symm.trans hp'
  start _ := trivial

theorem any_within : (firstCourse fun _ _ _ => true).Within fun _ _ => True where
  op _ _ := trivial
  call _ := trivial
  start _ := trivial

/-- The program before `main`, with room for four clients. -/
def freshProgram : Pool (startSystem (.fixed 1 1)) := Pool.idle (Startup.init (.fixed 1 1) () 4)

/-- The thread is about to free the cell. -/
def freesCell (p : Nat) : bourseProgram.Op → Bool
  | .inr (.freeCell arg) => arg = some p
  | _ => false

theorem exists_of_freesCell {p : Nat} {prog : StartCode Unit}
    (h : prog.atOp (freesCell p) = true) :
    ∃ k, prog = .op (I := bourseProgram) (.inr (.freeCell (some p))) k := by
  obtain ⟨o, k, rfl, ho⟩ := Prog.exists_of_atOp h
  cases o with
  | inl o => cases ho
  | inr o =>
    cases o
    case freeCell arg =>
      obtain rfl : arg = some p := of_decide_eq_true ho
      exact ⟨k, rfl⟩
    all_goals cases ho

/-- The thread of the first connection has freed its cell. The signal arrives while `main` waits
for the next connection, and the handler is about to free the cell for it, which nobody has
claimed. -/
theorem cells_allocated_signal :
    ∃ (c : Pool (startSystem (.fixed 1 1))) (k : _ → StartCode Unit),
      Pool.ReachIf claimedOnce freshProgram c ∧
        c.prog 2 = .op (I := bourseProgram) (.inr (.freeCell (some 0))) k ∧
          Safe (.inr (.freeCell (some 0))) c.state := by
  obtain ⟨c, hc, ht⟩ := Pool.exists_reach unclaimed_within
    [.start 0 (.run ["bourse", "-p", "9999"]), .drive 0 9, .start 0 .turn, .drive 0 9,
      .start 1 .thread, .drive 1 2, .start 0 .turn, .drive 0 2, .start 2 (.signal 0),
      .drive 2 1]
    freshProgram (fun c => (c.prog 2).atOp (freesCell 0)) (by decide +kernel)
  obtain ⟨k, hk⟩ := exists_of_freesCell ht
  exact ⟨c, k, hc, hk, cells_allocated hc hk⟩

/-- A signal that arrives after the thread of the first connection has freed its cell makes the
handler free the cell again. -/
theorem cell_freed_twice :
    ∃ (c : Pool (startSystem (.fixed 1 1))) (k : _ → StartCode Unit),
      Pool.Reach freshProgram c ∧
        c.prog 2 = .op (I := bourseProgram) (.inr (.freeCell (some 0))) k ∧
          c.state.cells 0 = none := by
  obtain ⟨c, hc, ht⟩ := Pool.exists_reach any_within
    [.start 0 (.run ["bourse", "-p", "9999"]), .drive 0 9, .start 0 .turn, .drive 0 9,
      .start 1 .thread, .drive 1 2, .start 2 (.signal 0), .drive 2 1]
    freshProgram (fun c => (c.prog 2).atOp (freesCell 0) ∧ c.state.cells 0 = none)
    (by decide +kernel)
  obtain ⟨hfrees, hnone⟩ := of_decide_eq_true ht
  obtain ⟨k, hk⟩ := exists_of_freesCell hfrees
  exact ⟨c, k, hc, hk, hnone⟩

end Cells

end BourseServer
