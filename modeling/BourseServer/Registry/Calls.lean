import BourseServer.Registry.Actions

/-!
# The functions of the registry, verified

`creg_register` and `creg_unregister` succeed, since a thread that has a slot finds an empty
entry, and a registered client finds its own.
-/
namespace BourseServer.Registry

open Concurrency

variable {E : Exchange} {t : Nat} {W : Watch} {w w' : World E} {g v : Tokens} {f : Int}
  {fd : Option Int} {c : Option RegistryCall} {b : Bool}

/-- A thread with a slot finds an empty entry. -/
theorem triple_searchForEmptySlot :
    (discipline E W).Triple t (Inside t (.locked f) f c fun _ _ => True)
      searchForEmptySlot.lift fun r w => ∃ i, r = some i ∧
        Inside t (.locked f) f c (fun n T => i < n ∧ T.fds i = -1) w := by
  have hQ : ∀ r : Option Nat, (discipline E W).Stable t fun w => ∃ i, r = some i ∧
      Inside t (.locked f) f c (fun n T => i < n ∧ T.fds i = -1) w :=
    fun r => .exists fun i => .and (.const _) (stable_inside rfl)
  apply Discipline.Triple.lift_bind (triple_regSize rfl rfl)
  intro n
  apply Discipline.Triple.pre (P := Inside t (.locked f) f c fun m T =>
    m = n ∧ ∀ k, k < 0 → T.fds k ≠ -1)
  · apply Discipline.Triple.lift_search (fun j => Inside t (.locked f) f c fun m T =>
      m = n ∧ ∀ k, k < j → T.fds k ≠ -1) hQ
    · intro j hj
      apply Discipline.Triple.lift_bind (triple_regFd rfl rfl j)
      intro x
      split_ifs with hx
      · refine .ret (stable_inside rfl) fun w hi hw => ⟨j, rfl, hw.1, ?_, ?_⟩
        · rw [hw.2.1.1]
          exact hj
        · rw [hw.2.2, hx]
      · refine .ret (stable_inside rfl) fun w hi hw => ⟨hw.1, hw.2.1.1, fun k hk => ?_⟩
        rcases Nat.lt_succ_iff_lt_or_eq.mp hk with hlt | rfl
        · exact hw.2.1.2 k hlt
        · rw [hw.2.2]
          exact hx
    · intro w hi hw
      obtain ⟨i, hlt, hempty⟩ := hi.balanced.exists_empty (t := t)
        (by rw [hw.1.ghost]; rfl) (by rw [hw.1.ghost]; rfl)
      rw [hw.2.1] at hlt
      exact absurd hempty (hw.2.2 i hlt)
  · exact fun w hi hw => ⟨hw.1, hw.2.2, by simp⟩

/-- A thread that has the slot leaves the critical section. -/
theorem triple_leave (hg : g.crit = true) (hslot : g.slot = true)
    (hv : v = { g with crit := false }) (hcoherent : v.Coherent)
    (hc : c ≠ some .shutdownAll) :
    (discipline E W).Triple t (Inside t g f c fun _ _ => True) (semPost .mutex).lift
      fun _ => Knows t v (some f) c false := by
  subst hv
  have hstable : (discipline E W).Stable t fun w : World E =>
      Knows t g (some f) c false w ∧ True ∧ Live W t g False w :=
    fun w w' hr _ hw => ⟨hw.1.rely hr, trivial, live_of_slot hslot⟩
  apply Discipline.Triple.pre
    (P := fun w => Knows t g (some f) c false w ∧ True ∧ Live W t g False w)
  · refine (triple_giveMutex hg hcoherent hstable ?_).post fun _ w _ hw => hw.1
    exact fun _ h => absurd h hc
  · exact fun w _ hw => ⟨hw.1, trivial, live_of_slot hslot⟩

/-- A thread that has the slot enters the critical section. -/
theorem triple_enter (hg : g.crit = false) (hslot : g.slot = true)
    (hv : v = { g with crit := true }) (hcoherent : v.Coherent) :
    (discipline E W).Triple t (Knows t g (some f) c false) (semWait .mutex).lift
      fun _ => Inside t v f c fun _ _ => True := by
  subst hv
  apply Discipline.Triple.pre (P := fun w => Knows t g (some f) c false w ∧ Live W t g False w)
  · exact (triple_takeMutex hg hcoherent).post fun _ w _ hw => ⟨hw.1, trivial⟩
  · exact fun w _ hw => ⟨hw, live_of_slot hslot⟩

/-- `creg_register` succeeds. -/
theorem triple_cregRegister (hf : 0 ≤ f) (hb : W.early → b = true)
    (hc : ¬ W.servers → c = some (.register f)) (hwait : c ≠ some .waitForEmpty)
    (hsweep : c ≠ some .shutdownAll) :
    (discipline E W).Triple t (Knows t .none (some f) c b) (cregRegister f).lift
      fun r w => r = 0 ∧ Knows t (.resting f) (some f) c false w := by
  have hend : (discipline E W).Triple t (Inside t (.gated f) f c fun _ _ => True)
      (do semPost .mutex; semPost .items; pure (0 : Int) : Code Int).lift
      fun r w => r = 0 ∧ Knows t (.resting f) (some f) c false w := by
    apply Discipline.Triple.lift_bind
      (triple_leave (v := .announced f) rfl rfl rfl (by constructor <;> simp) hsweep)
    intro _
    apply Discipline.Triple.lift_bind triple_giveItem
    intro _
    exact .ret stable_knows fun w _ hw => ⟨rfl, hw⟩
  apply Discipline.Triple.lift_bind (triple_takeSlot hf hb)
  intro _
  apply Discipline.Triple.lift_bind
    (triple_enter (v := .locked f) rfl rfl rfl (by constructor <;> simp))
  intro _
  apply Discipline.Triple.lift_bind triple_searchForEmptySlot
  intro r
  cases r with
  | none => exact .of_false fun w _ hw => by simp at hw
  | some i =>
    apply Discipline.Triple.pre (P := Inside t (.locked f) f c fun n T => i < n ∧ T.fds i = -1)
    · apply Discipline.Triple.lift_bind (triple_place hc)
      intro _
      apply Discipline.Triple.lift_bind (triple_regCount rfl rfl)
      intro n
      apply Discipline.Triple.lift_bind (Q := fun _ => Inside t (.tallied f) f c
        fun _ T => T.count = n + 1)
      · refine (triple_setRegCount (m := n) (b := true) rfl rfl ?_ ?_ ?_).pre ?_
        · exact fun _ => .inl rfl
        · exact fun hW _ _ => hc hW
        · simp
        · exact fun w _ hw => ⟨hw.1, hw.2.2⟩
      · intro _
        apply Discipline.Triple.lift_bind triple_testFirst
        intro x
        dsimp only
        split_ifs with hx
        · apply Discipline.Triple.lift_bind (triple_closeGate hwait)
          exact fun _ => hend
        · exact hend
    · intro w _ hw
      obtain ⟨j, hj, hin⟩ := hw
      cases hj
      exact hin

/-- The search of `creg_unregister` comes to the entry of the descriptor. -/
theorem triple_cregUnregister (hsweep : c ≠ some .shutdownAll) :
    (discipline E W).Triple t (Knows t (.resting f) (some f) c false) (cregUnregister f).lift
      fun r w => r = 0 ∧ Knows t .none (some f) c false w := by
  have hend : (discipline E W).Triple t (Inside t (.locked f) f c fun _ _ => True)
      (do semPost .mutex; semPost .slots; pure (some ()) : Code (Option Unit)).lift
      fun r w => r = some () ∧ Knows t .none (some f) c false w := by
    apply Discipline.Triple.lift_bind
      (triple_leave (v := .entered f) rfl rfl rfl (by constructor <;> simp) hsweep)
    intro _
    apply Discipline.Triple.lift_bind triple_giveSlot
    intro _
    exact .ret stable_knows fun w _ hw => ⟨rfl, hw⟩
  apply Discipline.Triple.lift_bind triple_takeItem
  intro _
  apply Discipline.Triple.lift_bind
    (triple_enter (v := .gated f) rfl rfl rfl (by constructor <;> simp))
  intro _
  apply Discipline.Triple.lift_bind (triple_regSize rfl rfl)
  intro n
  have hQ : ∀ r : Option Unit, (discipline E W).Stable t fun w : World E =>
      r = some () ∧ Knows t .none (some f) c false w :=
    fun r => .and (.const _) stable_knows
  apply Discipline.Triple.lift_bind (Q := fun r w => r = some () ∧
    Knows t .none (some f) c false w)
  · apply Discipline.Triple.pre (P := Inside t (.gated f) f c fun m T =>
      m = n ∧ ∀ k, k < 0 → T.fds k ≠ f)
    · apply Discipline.Triple.lift_search (fun j => Inside t (.gated f) f c fun m T =>
        m = n ∧ ∀ k, k < j → T.fds k ≠ f) hQ
      · intro j hj
        apply Discipline.Triple.lift_bind (triple_regFd rfl rfl j)
        intro x
        dsimp only
        split_ifs with hx
        · apply Discipline.Triple.pre (P := Inside t (.gated f) f c fun m T =>
            j < m ∧ T.fds j = f)
          · apply Discipline.Triple.lift_bind triple_remove
            intro _
            apply Discipline.Triple.lift_bind (triple_regCount rfl rfl)
            intro k
            apply Discipline.Triple.lift_bind (Q := fun _ => Inside t (.dropped f) f c
              fun _ T => T.count = k - 1)
            · refine (triple_setRegCount (m := k) (b := false) rfl rfl ?_ ?_ ?_).pre ?_
              · simp
              · simp
              · simp
              · exact fun w _ hw => ⟨hw.1, hw.2.2⟩
            · intro _
              apply Discipline.Triple.lift_bind triple_testLast
              intro x
              split_ifs with hx
              · apply Discipline.Triple.lift_bind triple_openGate
                intro _
                refine hend.post fun r w _ hw => ?_
                obtain ⟨rfl, hw⟩ := hw
                exact ⟨rfl, hw⟩
              · refine hend.post fun r w _ hw => ?_
                obtain ⟨rfl, hw⟩ := hw
                exact ⟨rfl, hw⟩
          · intro w _ hw
            refine ⟨hw.1, ?_, ?_⟩
            · rw [hw.2.1.1]
              exact hj
            · rw [hw.2.2, hx]
        · refine .ret (stable_inside rfl) fun w hi hw => ⟨hw.1, hw.2.1.1, fun k hk => ?_⟩
          rcases Nat.lt_succ_iff_lt_or_eq.mp hk with hlt | rfl
          · exact hw.2.1.2 k hlt
          · rw [hw.2.2]
            exact hx
      · intro w hi hw
        have hst : (w.ghost t).stored = true := by
          rw [hw.1.ghost]
          rfl
        obtain ⟨i, hlt, hfd⟩ := hi.balanced.entry t hst
        rw [hw.1.ghost] at hfd
        rw [hw.2.1] at hlt
        exact absurd hfd (hw.2.2 i hlt)
    · exact fun w hi hw => ⟨hw.1, hw.2.2, by simp⟩
  · intro r
    cases r with
    | none => exact .of_false fun w _ hw => by simp at hw
    | some _ => exact .ret (hQ _) fun w _ hw => ⟨rfl, hw.2⟩

end BourseServer.Registry
