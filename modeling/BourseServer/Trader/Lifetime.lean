import BourseServer.Trader.Layout
import BourseServer.Concurrency.Termination
import Mathlib.Data.List.Nodup

/-!
# The lifetime of traders

Operations on traders that have not been freed keep the layout of the table. Since all these
traders are then found below `count`, `trader_fini` frees each of them, and none of them twice.
-/
namespace BourseServer

open Concurrency

variable {E : Exchange}

/-! ## Runs of operations -/

/-- The name of a trader is in this block. -/
def Heap.Names (h : Heap E) (block : Nat) : Prop :=
  ∃ a tr, h.state.traders a = some tr ∧ tr.name.block = block

/-- What atomic operations on traders that have not been freed lead to. A login is passed a name
in memory that the caller has allocated and that is not the name of a trader yet. The callers
free memory that they have not passed on. -/
inductive Managed : Heap E → Prop where
  | init (x : E.State) (n : Nat) : Managed ⟨State.init E x n, []⟩
  | malloc {t n : Nat} {r : Nat × List UInt8} {h h' : Heap E} : Managed h →
      Runs (heap E) zeroHeap t (malloc n) h r h' → Managed h'
  | free {t block : Nat} {h h' : Heap E} : Managed h → ¬ h.Names block →
      Runs (heap E) zeroHeap t (free (some block)) h () h' → Managed h'
  | login {t : Nat} {fd : Int} {name : CString} {r : Option Nat} {h h' : Heap E} : Managed h →
      name.block ∈ h.state.blocks → ¬ h.Names name.block →
      Runs (heap E) zeroHeap t (traderLogin fd name) h r h' → Managed h'
  | logout {t a : Nat} {h h' : Heap E} : Managed h → h.state.traders a ≠ none →
      Runs (heap E) zeroHeap t (traderLogout a) h () h' → Managed h'
  | ref {t a r : Nat} {h h' : Heap E} : Managed h → h.state.traders a ≠ none →
      Runs (heap E) zeroHeap t (traderRef a) h r h' → Managed h'
  | unref {t a : Nat} {h h' : Heap E} : Managed h → h.state.traders a ≠ none →
      Runs (heap E) zeroHeap t (traderUnref a) h () h' → Managed h'

section layout

variable {t a : Nat} {h h' : Heap E} {d : Roster} {it : Item}

/-- When no mutex is held, every thread finds the same roster. -/
theorem Heap.Shows.other (hs : h.Shows t d) (hl : d.Layout) (u : Nat) : h.Shows u d where
  items a := by
    have hrel := hs.items a
    cases hit : d.items a with
    | none =>
      rw [hit] at hrel
      cases htr : h.state.traders a with
      | none => exact .none
      | some tr =>
        rw [htr] at hrel
        cases hrel
    | some it =>
      obtain ⟨tr, htr, hshows⟩ := hs.trader hit
      have hmutex := hshows.mutex
      rw [hl.unlocked a it hit] at hmutex
      rw [htr]
      refine .some ⟨hshows.ref, hshows.name, ?_⟩
      rw [hl.unlocked a it hit]
      exact ⟨hmutex.1, fun hne => absurd rfl hne⟩
  slots := hs.slots
  count := hs.count
  blocks := hs.blocks
  freed := hs.freed

theorem Heap.Shows.not_names {block : Nat} (hs : h.Shows t d) (hno : ¬ h.Names block) :
    ∀ a it, d.items a = some it → it.name.block ≠ block := by
  rintro a it hit rfl
  obtain ⟨tr, htr, hshows⟩ := hs.trader hit
  exact hno ⟨a, tr, htr, congrArg CString.block hshows.name⟩

namespace Roster.Layout

theorem keep (hl : d.Layout) (hit : d.items a = some it) (ref : Int) :
    (d.setItem a { it with ref := ref, held := some (it.held.getD 0) }).Layout := by
  apply hl.setItem hit
  · rfl
  · rw [hl.unlocked a it hit]
    rfl

theorem yields_traderRef (hl : d.Layout) : Yields E t (traderRef a) d fun _ d' => d'.Layout :=
  Yields.traderRef fun it hit => hl.keep hit (it.ref + 1)

theorem yields_traderUnref (hl : d.Layout) (hit : d.items a = some it) :
    Yields E t (traderUnref a) d fun _ d' => d'.Layout := by
  obtain ⟨i, hplace⟩ := hl.place hit
  apply Yields.traderUnref hit hplace
  · exact fun _ => hl.keep hit (it.ref - 1)
  · exact fun _ => hl.remove hit hplace.slot

theorem yields_traderLogout (hl : d.Layout) (hit : d.items a = some it) :
    Yields E t (traderLogout a) d fun _ d' => d'.Layout := by
  obtain ⟨i, hplace⟩ := hl.place hit
  apply Yields.traderLogout hit hplace
  · exact fun _ => hl.keep hit (it.ref - 1)
  · exact fun _ => hl.remove hit hplace.slot

/-- A login keeps the layout, and it is rejected only for one of its two reasons. -/
theorem yields_traderLogin (fd : Int) {name : CString} (hl : d.Layout)
    (hname : name.block ∈ d.blocks) (hown : ∀ a it, d.items a = some it →
      it.name.block ≠ name.block) :
    Yields E t (traderLogin fd name) d fun r d' => d'.Layout ∧
      (r = none → (∃ b it, d.items b = some it ∧ it.name.text = name.text) ∨
        maxTraders ≤ d.count) := by
  apply Yields.traderLogin
  · rintro r j b it hslot hit heq
    refine ⟨hl.keep hit (it.ref + 1), fun _ => .inl ⟨b, it, hit, ?_⟩⟩
    exact strcmpEq_iff.mp heq
  · exact fun _ hfull => ⟨hl, fun _ => .inr hfull⟩
  · intro b j hunknown hlt hb hfree hfirst
    refine ⟨hl.insert hlt hb hfree hfirst hunknown hname hown, nofun⟩
  · exact hl.exists_free

end Roster.Layout

/-- An operation in a state whose roster is known. -/
theorem Yields.runs {α : Type} {p : Code α} {r : α} {R : α → Roster → Prop}
    (hy : Yields E t p d R) (hs : h.Shows t d) (hr : Runs (heap E) zeroHeap t p h r h') :
    ∃ d', h'.Shows t d' ∧ R r d' := hy h hs r h' hr

/-- Between two operations the table is laid out. -/
theorem Managed.layout (hm : Managed h) : ∃ d : Roster, d.Layout ∧ ∀ t, h.Shows t d := by
  have hgoal : ∃ d : Roster, d.Layout ∧ ∃ t, h.Shows t d := by
    induction hm with
    | init x n =>
      refine ⟨⟨fun _ => none, fun _ => none, 0, [], []⟩, ?_, 0, ?_⟩
      · constructor <;> simp
      · exact ⟨fun _ => .none, rfl, rfl, rfl, rfl⟩
    | @malloc t n r h h' _ hr ih =>
      obtain ⟨d, hl, u, hs⟩ := ih
      have hy : Yields E t (BourseServer.malloc n) d fun _ d' => d'.Layout :=
        Yields.malloc fun b _ _ => hl.setBlocks (b :: d.blocks) fun _ _ _ hmem =>
          List.mem_cons_of_mem b hmem
      obtain ⟨d', hs', hl'⟩ := hy.runs (hs.other hl t) hr
      exact ⟨d', hl', t, hs'⟩
    | @free t block h h' _ hno hr ih =>
      obtain ⟨d, hl, u, hs⟩ := ih
      have hy : Yields E t (BourseServer.free (some block)) d fun _ d' => d'.Layout := by
        refine Yields.free fun b hb _ => hl.setBlocks (d.blocks.erase b) fun a it hit hmem => ?_
        obtain rfl := Option.some.inj hb
        exact (List.mem_erase_of_ne (hs.not_names hno a it hit)).mpr hmem
      obtain ⟨d', hs', hl'⟩ := hy.runs (hs.other hl t) hr
      exact ⟨d', hl', t, hs'⟩
    | @login t fd name r h h' _ hname hno hr ih =>
      obtain ⟨d, hl, u, hs⟩ := ih
      rw [hs.blocks] at hname
      have hy := hl.yields_traderLogin (E := E) (t := t) fd hname (hs.not_names hno)
      obtain ⟨d', hs', hl', _⟩ := hy.runs (hs.other hl t) hr
      exact ⟨d', hl', t, hs'⟩
    | @logout t a h h' _ hlive hr ih =>
      obtain ⟨d, hl, u, hs⟩ := ih
      obtain ⟨tr, htr⟩ := Option.ne_none_iff_exists'.mp hlive
      obtain ⟨it, hit, _⟩ := hs.item htr
      obtain ⟨d', hs', hl'⟩ := (hl.yields_traderLogout hit).runs (hs.other hl t) hr
      exact ⟨d', hl', t, hs'⟩
    | @ref t a r h h' _ hlive hr ih =>
      obtain ⟨d, hl, u, hs⟩ := ih
      obtain ⟨d', hs', hl'⟩ := hl.yields_traderRef.runs (hs.other hl t) hr
      exact ⟨d', hl', t, hs'⟩
    | @unref t a h h' _ hlive hr ih =>
      obtain ⟨d, hl, u, hs⟩ := ih
      obtain ⟨tr, htr⟩ := Option.ne_none_iff_exists'.mp hlive
      obtain ⟨it, hit, _⟩ := hs.item htr
      obtain ⟨d', hs', hl'⟩ := (hl.yields_traderUnref hit).runs (hs.other hl t) hr
      exact ⟨d', hl', t, hs'⟩
  obtain ⟨d, hl, u, hs⟩ := hgoal
  exact ⟨d, hl, hs.other hl⟩

end layout

/-- As long as there is a free slot, one is found. -/
theorem partial_getFirstAvailableIndex {ok : Condition (heap E)} {t j : Nat} {h : Heap E}
    (hj : j < maxTraders) (hfree : h.state.allTraders j = none) :
    Partial (heap E) ok t getFirstAvailableIndex (fun r _ => r ≠ none) h := by
  refine Partial.searchFrom (fun i (h' : Heap E) =>
    h'.state.allTraders = h.state.allTraders ∧ i ≤ j) ⟨rfl, by omega⟩ ?_ ?_
  · rintro i h' _ _ ⟨hsame, hi⟩
    refine Partial.bind (Partial.act fun e r h'' he _ => ?_)
    obtain ⟨rfl, hstate⟩ := exec_slot (t := t) (e := e) (Heap.lift_done (o := .slot i) he).1
    cases hslot : h'.state.allTraders i with
    | none => exact Partial.ret ⟨nofun, fun _ _ => nofun⟩
    | some b =>
      refine Partial.ret ⟨fun _ => ⟨?_, ?_⟩, nofun⟩
      · rw [hstate]
        exact hsame
      · rcases hi.lt_or_eq with hlt | rfl
        · exact hlt
        · rw [hsame, hfree] at hslot
          cases hslot
  · rintro h' ⟨_, hle⟩
    omega

/-! ## The end of the module -/

/-- Nothing that the outside world decides makes a difference. -/
def undisturbed (E : Exchange) : Regime (heap E) := ⟨zeroHeap, fun _ => false⟩

/-- The code `p` of thread `t` comes to an end with roster `d`. -/
def Completes (E : Exchange) (t : Nat) {α : Type} (p : Code α) (d : Roster)
    (R : α → Roster → Prop) : Prop :=
  ∀ h : Heap E, h.Shows t d →
    Total (undisturbed E) t p (fun r h' => ∃ d', Heap.Shows t h' d' ∧ R r d') h

namespace Completes

variable {α β : Type} {t a i : Nat} {d : Roster}

theorem ret {x : α} {R : α → Roster → Prop} (hR : R x d) : Completes E t (.ret x) d R :=
  fun _ hs => Total.ret ⟨d, hs, hR⟩

theorem bind {p : Code α} {f : α → Code β} {R : β → Roster → Prop}
    (hp : Completes E t p d fun x d' => Completes E t (f x) d' R) :
    Completes E t (p >>= f) d R := by
  intro h hs
  refine (hp h hs).bind ?_
  rintro x h' ⟨d', hs', hf⟩
  exact hf h' hs'

/-- An action that is possible, and about which it is known what it comes to. -/
theorem act {o : Op} {R : o.Reply → Roster → Prop} (hy : Yields E t (.act (I := bourse) o) d R)
    (hstep : ∀ h : Heap E, h.Shows t d → ∃ r h', Heap.exec t o .tick h = .done r h') :
    Completes E t (.act (I := bourse) o) d R := by
  intro h hs
  apply Total.act
  · obtain ⟨r, h', he⟩ := hstep h hs
    exact ⟨.tick, r, h', he, nofun, rfl⟩
  · intro e r h' he hok
    exact hy h hs r h' (Runs.act_iff.mpr ⟨e, he, hok⟩)

theorem count {R : Nat → Roster → Prop} (hR : R d.count d) :
    Completes E t BourseServer.count d R :=
  act (Yields.count hR) fun _ _ => ⟨_, _, rfl⟩

theorem slot {R : Option Nat → Roster → Prop} (hR : R (d.slots i) d) :
    Completes E t (slot i) d R :=
  act (Yields.slot hR) fun _ _ => ⟨_, _, rfl⟩

/-- The slot is read once more, and its trader is used. -/
theorem reread {p : Nat → Code α} {R : α → Roster → Prop} (hslot : d.slots i = some a)
    (hp : Completes E t (p a) d R) :
    Completes E t (BourseServer.slot i >>= fun v => deref v >>= p) d R := by
  refine bind (slot ?_)
  rw [hslot]
  exact hp

theorem lock {it : Item} {R : Unit → Roster → Prop} (hit : d.items a = some it)
    (hheld : it.held = some 0) (hR : R () (d.setItem a { it with held := some 1 })) :
    Completes E t (lock a) d R := by
  apply act
  · refine Yields.lock fun it' hit' => ?_
    obtain rfl := Option.some.inj (hit.symm.trans hit')
    rwa [hheld]
  · intro h hs
    obtain ⟨tr, htr, hshows⟩ := hs.trader hit
    have hmutex := hshows.mutex
    rw [hheld] at hmutex
    have hlock : tr.mutex.lock t = some { tr.mutex with owner := some t, depth := 1 } :=
      if_pos hmutex.1
    simp [Heap.exec, Heap.lift, BourseServer.exec, execTrader, htr, hlock, Outcome.map]

theorem loadName {it : Item} {R : CString → Roster → Prop} (hit : d.items a = some it)
    (hR : R it.name d) : Completes E t (load .name a) d R := by
  apply act
  · refine Yields.loadName fun it' hit' => ?_
    obtain rfl := Option.some.inj (hit.symm.trans hit')
    exact hR
  · intro h hs
    obtain ⟨tr, htr, _⟩ := hs.trader hit
    simp [Heap.exec, Heap.lift, BourseServer.exec, execTrader, htr, Outcome.map]

theorem free {block : Nat} {R : Unit → Roster → Prop} (hblock : block ∈ d.blocks)
    (hR : R () { d with blocks := d.blocks.erase block }) :
    Completes E t (free (some block)) d R := by
  apply act
  · refine Yields.free fun b hb _ => ?_
    obtain rfl := Option.some.inj hb
    exact hR
  · intro h hs
    have hmem : block ∈ h.state.blocks := by
      rw [hs.blocks]
      exact hblock
    simp [Heap.exec, Heap.lift, BourseServer.exec, hmem, Outcome.map]

theorem freeTrader {it : Item} {R : Unit → Roster → Prop} (hit : d.items a = some it)
    (hR : R () { d with items := Function.update d.items a none, freed := a :: d.freed }) :
    Completes E t (freeTrader a) d R := by
  refine act (Yields.freeTrader hR) fun h hs => ?_
  obtain ⟨tr, htr, _⟩ := hs.trader hit
  simp [Heap.exec, BourseServer.exec, execTrader, htr, Outcome.map]

theorem unlockGone {R : Unit → Roster → Prop} (hnone : d.items a = none) (hR : R () d) :
    Completes E t (unlock a) d R := by
  refine act (Yields.unlockGone hnone hR) fun h hs => ?_
  have htr := hs.none_iff.mpr hnone
  simp [Heap.exec, htr]

end Completes

/-- The traders in the first `n` slots of roster `d` have been freed, in this order. -/
structure Roster.Finished (d : Roster) (n : Nat) (d' : Roster) : Prop where
  within : n ≤ d.count
  slots : d'.slots = d.slots
  count : d'.count = d.count
  absent : ∀ a, d.items a = none → d'.items a = none
  gone : ∀ i a, i < n → d.slots i = some a → d'.items a = none
  kept : ∀ i a, n ≤ i → d.slots i = some a → d'.items a = d.items a
  blocks : ∀ i a it, n ≤ i → d.slots i = some a → d.items a = some it → it.name.block ∈ d'.blocks
  freed : d'.freed = ((List.range n).filterMap d.slots).reverse ++ d.freed

namespace Roster.Finished

variable {d d' : Roster} {n a : Nat} {it : Item}

theorem zero (hl : d.Layout) : d.Finished 0 d where
  within := Nat.zero_le _
  slots := rfl
  count := rfl
  absent _ hnone := hnone
  gone i _ hi := absurd hi (Nat.not_lt_zero i)
  kept _ _ _ _ := rfl
  blocks _ a it _ _ hit := hl.owned a it hit
  freed := rfl

theorem skip (hf : d.Finished n d') (hn : n < d.count) (hslot : d.slots n = none) :
    d.Finished (n + 1) d' where
  within := hn
  slots := hf.slots
  count := hf.count
  absent := hf.absent
  gone i a hi hi' := by
    rcases Nat.lt_succ_iff_lt_or_eq.mp hi with hlt | rfl
    · exact hf.gone i a hlt hi'
    · cases hslot.symm.trans hi'
  kept i a hi := hf.kept i a (by omega)
  blocks i a it hi := hf.blocks i a it (by omega)
  freed := by
    rw [List.range_succ, List.filterMap_append, hf.freed]
    simp [hslot]

theorem step (hl : d.Layout) (hf : d.Finished n d') (hn : n < d.count)
    (hslot : d.slots n = some a) (hit : d.items a = some it) :
    d.Finished (n + 1) { d' with
      items := Function.update d'.items a none
      blocks := d'.blocks.erase it.name.block
      freed := a :: d'.freed } where
  within := hn
  slots := hf.slots
  count := hf.count
  absent b hb := by
    have hba : b ≠ a := by
      rintro rfl
      cases hb.symm.trans hit
    exact (Function.update_of_ne hba _ _).trans (hf.absent b hb)
  gone i b hi hb := by
    rcases Nat.lt_succ_iff_lt_or_eq.mp hi with hlt | rfl
    · have hba : b ≠ a := by
        rintro rfl
        have hin := hl.slot_unique hb hslot
        omega
      exact (Function.update_of_ne hba _ _).trans (hf.gone i b hlt hb)
    · obtain rfl := Option.some.inj (hslot.symm.trans hb)
      exact Function.update_self ..
  kept i b hi hb := by
    have hba : b ≠ a := by
      rintro rfl
      have hin := hl.slot_unique hb hslot
      omega
    exact (Function.update_of_ne hba _ _).trans (hf.kept i b (by omega) hb)
  blocks i b itb hi hb hitb := by
    have hblock : itb.name.block ≠ it.name.block := by
      intro heq
      obtain rfl := hl.apart b a itb it hitb hit heq
      have hin := hl.slot_unique hb hslot
      omega
    exact (List.mem_erase_of_ne hblock).mpr (hf.blocks i b itb (by omega) hb hitb)
  freed := by
    rw [List.range_succ, List.filterMap_append, hf.freed]
    simp [hslot]

end Roster.Finished

/-- One turn of the loop. -/
theorem Completes.finish_slot {t i a : Nat} {d d' : Roster} {it : Item}
    {R : Option Unit → Roster → Prop} (hl : d.Layout) (hf : d.Finished i d')
    (hslot : d.slots i = some a) (hit : d.items a = some it)
    (hR : R none { d' with
      items := Function.update d'.items a none
      blocks := d'.blocks.erase it.name.block
      freed := a :: d'.freed }) :
    Completes E t (do
      BourseServer.lock (← deref (← BourseServer.slot i))
      let name ← load .name (← deref (← BourseServer.slot i))
      BourseServer.free (some name.block)
      BourseServer.freeTrader (← deref (← BourseServer.slot i))
      BourseServer.unlock (← deref (← BourseServer.slot i))
      pure none) d' R := by
  have hslot' : d'.slots i = some a := by
    rw [hf.slots]
    exact hslot
  have hit' : d'.items a = some it := (hf.kept i a le_rfl hslot).trans hit
  have hblock := hf.blocks i a it le_rfl hslot hit
  refine reread hslot' (bind (lock hit' (hl.unlocked a it hit) ?_))
  refine reread hslot' (bind (loadName (Roster.setItem_self ..) (bind (free hblock ?_))))
  refine reread hslot' (bind (freeTrader (Roster.setItem_self ..) ?_))
  refine reread hslot' (bind (unlockGone (Function.update_self ..) (ret ?_)))
  simpa [Roster.setItem] using hR

/-- The loop comes to an end with all traders freed. -/
theorem completes_traderFini {t : Nat} {d : Roster} (hl : d.Layout) :
    Completes E t traderFini d fun _ d' => d.Finished d.count d' := by
  intro h hs
  refine Total.bind (Q := fun r h' => ∃ d', Heap.Shows t h' d' ∧ d.Finished d.count d') ?_ ?_
  · refine Total.searchFrom (fun i (h' : Heap E) => ∃ d', Heap.Shows t h' d' ∧ d.Finished i d')
      ⟨d, hs, .zero hl⟩ ?_ ?_
    · rintro i h' _ _ ⟨d', hs', hf⟩
      refine Total.mono ((?_ : Completes E t _ d' fun r d'' =>
        d.Finished (if r = none then i + 1 else d.count) d'') h' hs') ?_
      · refine Completes.bind (Completes.count ?_)
        rw [hf.count]
        split_ifs with hi
        · refine Completes.bind (Completes.slot ?_)
          rw [hf.slots]
          cases hslot : d.slots i with
          | none => exact Completes.ret (hf.skip hi hslot)
          | some a =>
            obtain ⟨it, hit⟩ := hl.live i a hslot
            exact Completes.finish_slot hl hf hslot hit (hf.step hl hi hslot hit)
        · have hend : i = d.count := by
            have hle := hf.within
            omega
          subst hend
          exact Completes.ret hf
      · rintro r h'' ⟨d'', hs'', hf''⟩
        cases r with
        | none => exact ⟨d'', hs'', hf''⟩
        | some u => exact ⟨d'', hs'', hf''⟩
    · rintro h' ⟨d', hs', hf⟩
      have hend : 0 + maxTraders = d.count := by
        have hle := hf.within
        have hroom := hl.room
        omega
      rw [hend] at hf
      exact ⟨d', hs', hf⟩
  · rintro r h' ⟨d', hs', hf⟩
    cases r with
    | some u => exact Total.ret ⟨d', hs', hf⟩
    | none =>
      refine Completes.bind (Completes.count ?_) h' hs'
      have hroom := hl.room
      rw [hf.count, if_neg (by omega)]
      exact Completes.ret hf

/-! ## The table -/

/-- The table in relation to the traders that have not been freed. -/
structure Heap.LaidOut (h : Heap E) : Prop where
  below : ∀ i a, h.state.allTraders i = some a → i < h.state.count
  room : h.state.count ≤ maxTraders
  live : ∀ i a, h.state.allTraders i = some a → h.state.traders a ≠ none
  stored : ∀ a, h.state.traders a ≠ none → ∃! i, h.state.allTraders i = some a
  names : ∀ i j a b tr tr', h.state.allTraders i = some a → h.state.allTraders j = some b →
    h.state.traders a = some tr → h.state.traders b = some tr' → i ≠ j →
      strcmpEq tr.name tr'.name = false

/-- Every trader that had not been freed in `h` has been freed once on the way to `h'`. -/
def Heap.AllFreed (h h' : Heap E) : Prop :=
  (∀ a, h'.state.traders a = none) ∧
    ∃ l, h'.freed = l ++ h.freed ∧ l.Nodup ∧ ∀ a, a ∈ l ↔ h.state.traders a ≠ none

section shown

variable {h h' : Heap E} {d d' : Roster} {t : Nat}

theorem Roster.Layout.laidOut (hl : d.Layout) (hs : h.Shows t d) : h.LaidOut where
  below i a hslot := by
    rw [hs.slots] at hslot
    rw [hs.count]
    exact hl.below i a hslot
  room := by
    rw [hs.count]
    exact hl.room
  live i a hslot := by
    rw [hs.slots] at hslot
    obtain ⟨it, hit⟩ := hl.live i a hslot
    obtain ⟨tr, htr, _⟩ := hs.trader hit
    simp [htr]
  stored a hlive := by
    obtain ⟨tr, htr⟩ := Option.ne_none_iff_exists'.mp hlive
    obtain ⟨it, hit, _⟩ := hs.item htr
    obtain ⟨i, hi⟩ := hl.stored a it hit
    rw [hs.slots]
    exact ⟨i, hi, fun j hj => hl.slot_unique hj hi⟩
  names i j a b tr tr' hi hj htr htr' hij := by
    rw [hs.slots] at hi hj
    obtain ⟨it, hit, hshows⟩ := hs.item htr
    obtain ⟨it', hit', hshows'⟩ := hs.item htr'
    by_contra hsame
    rw [Bool.not_eq_false, hshows.name, hshows'.name, strcmpEq_iff] at hsame
    exact hij (hl.names i j a b it it' hi hj hit hit' hsame)

theorem Roster.Finished.allFreed (hl : d.Layout) (hf : d.Finished d.count d') (hs : h.Shows t d)
    (hs' : h'.Shows t d') : h.AllFreed h' := by
  constructor
  · intro a
    rw [hs'.none_iff]
    cases hit : d.items a with
    | none => exact hf.absent a hit
    | some it =>
      obtain ⟨i, hi⟩ := hl.stored a it hit
      exact hf.gone i a (hl.below i a hi) hi
  · refine ⟨((List.range d.count).filterMap d.slots).reverse, ?_, ?_, fun a => ?_⟩
    · rw [hs'.freed, hs.freed]
      exact hf.freed
    · apply List.nodup_reverse.mpr
      refine List.Nodup.filterMap (fun i j a hi hj => ?_) List.nodup_range
      exact hl.slot_unique (Option.mem_def.mp hi) (Option.mem_def.mp hj)
    · rw [List.mem_reverse, List.mem_filterMap, Ne, hs.none_iff]
      constructor
      · rintro ⟨i, _, hi⟩
        obtain ⟨it, hit⟩ := hl.live i a hi
        simp [hit]
      · intro hlive
        obtain ⟨it, hit⟩ := Option.ne_none_iff_exists'.mp hlive
        obtain ⟨i, hi⟩ := hl.stored a it hit
        exact ⟨i, List.mem_range.mpr (hl.below i a hi), hi⟩

end shown

/-- Between two operations the table is laid out. The scan for a free slot, which finds the table
as it was, finds one; the name and the number of traders are the only reasons for which a login is
rejected. At the end every trader that is left is freed once. -/
theorem managed_laidOut {h : Heap E} (hm : Managed h) :
    h.LaidOut ∧
      (∀ (t : Nat) (h₁ : Heap E), h.state.count < maxTraders →
        h₁.state.allTraders = h.state.allTraders →
        Partial (heap E) zeroHeap t getFirstAvailableIndex (fun r _ => r ≠ none) h₁) ∧
      (∀ (t : Nat) (fd : Int) (name : CString), name.block ∈ h.state.blocks →
        ¬ h.Names name.block → Partial (heap E) zeroHeap t (traderLogin fd name) (fun r _ =>
          r = none → (∃ b tr, h.state.traders b = some tr ∧ strcmpEq tr.name name = true) ∨
            maxTraders ≤ h.state.count) h) ∧
      ∀ t : Nat, Total (undisturbed E) t traderFini (fun _ h' => h.AllFreed h') h := by
  obtain ⟨d, hl, hs⟩ := hm.layout
  refine ⟨hl.laidOut (hs 0), ?_, ?_, ?_⟩
  · intro t h₁ hcount hsame
    rw [(hs t).count] at hcount
    obtain ⟨j, hj, hfree⟩ := hl.exists_free hcount
    apply partial_getFirstAvailableIndex hj
    rw [hsame, (hs t).slots]
    exact hfree
  · rintro t fd name hname hno r h' hr hnone
    rw [(hs t).blocks] at hname
    have hy := hl.yields_traderLogin (E := E) (t := t) fd hname ((hs t).not_names hno)
    obtain ⟨d', _, _, hreason⟩ := hy.runs (hs t) hr
    rw [(hs t).count]
    refine (hreason hnone).imp_left ?_
    rintro ⟨b, it, hit, htext⟩
    obtain ⟨tr, htr, hshows⟩ := (hs t).trader hit
    refine ⟨b, tr, htr, ?_⟩
    rw [hshows.name]
    exact strcmpEq_iff.mpr htext
  · intro t
    refine (completes_traderFini hl h (hs t)).mono ?_
    rintro _ h' ⟨d', hs', hf⟩
    exact hf.allFreed hl (hs t) hs'

/-- A name in memory that has just been allocated can be passed to a login. -/
theorem Managed.loginFresh {t n : Nat} {fd : Int} {p : Nat × List UInt8} {chars : List UInt8}
    {r : Option Nat} {h h₁ h' : Heap E} (hm : Managed h)
    (halloc : Runs (heap E) zeroHeap t (BourseServer.malloc n) h p h₁)
    (hlogin : Runs (heap E) zeroHeap t (traderLogin fd ⟨p.1, chars⟩) h₁ r h') : Managed h' := by
  obtain ⟨d, hl, hs⟩ := hm.layout
  have hy : Yields E t (BourseServer.malloc n) d fun p d' =>
      d'.items = d.items ∧ p.1 ∉ d.blocks ∧ p.1 ∈ d'.blocks :=
    Yields.malloc fun b _ hb => ⟨rfl, hb, List.mem_cons_self⟩
  obtain ⟨d₁, hs₁, hitems, hfresh, hmem⟩ := hy.runs (hs t) halloc
  refine (hm.malloc halloc).login ?_ ?_ hlogin
  · rw [hs₁.blocks]
    exact hmem
  · rintro ⟨a, tr, htr, hblock⟩
    obtain ⟨it, hit, hshows⟩ := hs₁.item htr
    rw [hitems] at hit
    have howned := hl.owned a it hit
    rw [← hshows.name, hblock] at howned
    exact hfresh howned

/-! ## A concrete run -/

/-- Thread `t` runs the code to its end, and everything goes smoothly. -/
def Heap.finish {α : Type} (x : E.Choice) (t : Nat) (p : Code α) (h : Heap E) :
    Option (α × Heap E) :=
  match (heap E).drive (fun o h => some (.smooth x o h.state)) t 400 p h with
  | (.ret r, h') => some (r, h')
  | _ => none

theorem Heap.runs_of_finish {α : Type} {x : E.Choice} {t : Nat} {p : Code α} {h h' : Heap E} {r : α}
    (hf : h.finish x t p = some (r, h')) : Runs (heap E) zeroHeap t p h r h' := by
  unfold finish at hf
  split at hf
  · rename_i r' u hdrive
    cases hf
    refine Runs.of_drive (fun o s e he => ?_) hdrive
    cases he
    intro a junk hchoice
    cases o <;> simp only [Choice.smooth] at hchoice <;> cases hchoice
    rfl
  · cases hf

/-- The caller allocates a name and logs in. -/
def Heap.login (x : E.Choice) (fd : Int) (chars : List UInt8) (h : Heap E) : Option (Heap E) :=
  (h.finish x 0 (BourseServer.malloc chars.length)).bind fun p =>
    (p.2.finish x 0 (traderLogin fd ⟨p.1.1, chars⟩)).map Prod.snd

def Heap.unref (x : E.Choice) (a : Nat) (h : Heap E) : Option (Heap E) :=
  if (h.state.traders a).isSome then (h.finish x 0 (traderUnref a)).map Prod.snd else none

theorem Managed.of_login {x : E.Choice} {fd : Int} {chars : List UInt8} {h h' : Heap E}
    (hm : Managed h) (hl : h.login x fd chars = some h') : Managed h' := by
  obtain ⟨p, halloc, hl⟩ := Option.bind_eq_some_iff.mp hl
  obtain ⟨q, hlogin, rfl⟩ := Option.map_eq_some_iff.mp hl
  exact hm.loginFresh (Heap.runs_of_finish halloc) (Heap.runs_of_finish hlogin)

theorem Managed.of_unref {x : E.Choice} {a : Nat} {h h' : Heap E} (hm : Managed h)
    (hu : h.unref x a = some h') : Managed h' := by
  unfold Heap.unref at hu
  split_ifs at hu with hlive
  obtain ⟨q, hunref, rfl⟩ := Option.map_eq_some_iff.mp hu
  exact hm.unref (Option.isSome_iff_ne_none.mp hlive) (Heap.runs_of_finish hunref)

/-- A trader loses its references and is freed, and the next one is put in its slot. -/
theorem reused_slot_laidOut : ∃ h : Heap (.fixed 1 1), h.freed = [0] ∧ h.state.count = 3 ∧
    h.state.allTraders 0 = some 0 ∧ h.LaidOut := by
  let s : Heap (.fixed 1 1) := ⟨State.init _ () 4, []⟩
  have hrun : (((((s.login () 3 [97, 0]).bind (Heap.login () 4 [98, 0])).bind
      (Heap.unref () 0)).bind (Heap.unref () 0)).bind (Heap.login () 5 [99, 0])).any (fun h =>
        h.freed = [0] && h.state.count = 3 && h.state.allTraders 0 = some 0) = true := by
    decide +kernel
  simp only [Option.any_eq_true, Bool.and_eq_true, decide_eq_true_eq] at hrun
  obtain ⟨h, hrun, ⟨hfreed, hcount⟩, hfirst⟩ := hrun
  obtain ⟨u₄, hrun, h₅⟩ := Option.bind_eq_some_iff.mp hrun
  obtain ⟨u₃, hrun, h₄⟩ := Option.bind_eq_some_iff.mp hrun
  obtain ⟨u₂, hrun, h₃⟩ := Option.bind_eq_some_iff.mp hrun
  obtain ⟨u₁, h₁, h₂⟩ := Option.bind_eq_some_iff.mp hrun
  have hm : Managed h := (((((Managed.init () 4).of_login h₁).of_login h₂).of_unref h₃).of_unref
    h₄).of_login h₅
  exact ⟨h, hfreed, hcount, hfirst, (managed_laidOut hm).1⟩

end BourseServer
