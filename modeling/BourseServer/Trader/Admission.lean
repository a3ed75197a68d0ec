import BourseServer.Trader.Lifetime
import BourseServer.Trader.References
import Mathlib.Data.Fintype.EquivFin

/-!
# Who is admitted

Whether there is room for another trader is decided by `count`, which goes up with each new trader
and never down, while a trader that is freed gives its slot back. So once 64 traders have been
created a new name is rejected, however many slots are empty.

`Can` says that a piece of code has a run, where `Yields` is about all of them.
-/
namespace BourseServer

open Concurrency

variable {E : Exchange}

theorem execTrader_of {ρ : Type} {a : Nat} {s : State E} {tr : Trader}
    (htr : s.traders a = some tr) (f : Trader → Outcome ρ (State E)) :
    execTrader a s f = f tr := by
  simp [execTrader, htr]

/-- The code `p` of thread `t` can come to an end with roster `d`. -/
def Can (E : Exchange) (t : Nat) {α : Type} (p : Code α) (d : Roster) (R : α → Roster → Prop) :
    Prop :=
  ∀ h : Heap E, h.Shows t d →
    ∃ r h', Runs (heap E) zeroHeap t p h r h' ∧ ∃ d', Heap.Shows t h' d' ∧ R r d'

namespace Can

variable {α β : Type} {t a i : Nat} {d : Roster} {it : Item}

theorem ret {x : α} {R : α → Roster → Prop} (hR : R x d) : Can E t (.ret x) d R :=
  fun h hs => ⟨x, h, .ret (M := heap E) x h, d, hs, hR⟩

theorem bind {p : Code α} {f : α → Code β} {R : β → Roster → Prop}
    (hp : Can E t p d fun x d' => Can E t (f x) d' R) : Can E t (p >>= f) d R := by
  intro h hs
  obtain ⟨x, h', hr, d', hs', hf⟩ := hp h hs
  obtain ⟨y, h'', hr', hlast⟩ := hf h' hs'
  exact ⟨y, h'', hr.bind hr', hlast⟩

/-- An action that is possible, and about which it is known what it comes to. -/
theorem act {o : Op} {R : o.Reply → Roster → Prop} (hy : Yields E t (.act (I := bourse) o) d R)
    (hstep : ∀ h : Heap E, h.Shows t d → ∃ r s', exec t o .tick h.state = .done r s') :
    Can E t (.act (I := bourse) o) d R := by
  intro h hs
  obtain ⟨r, s', he⟩ := hstep h hs
  obtain ⟨l', he'⟩ := Heap.exec_of_exec he h.freed
  have hr : Runs (heap E) zeroHeap t (.act (I := bourse) o) h r ⟨s', l'⟩ :=
    Runs.act_iff.mpr ⟨.tick, he', nofun⟩
  exact ⟨r, _, hr, hy h hs _ _ hr⟩

theorem scope {c : Call} {value : α → Value} {p : Code α} {R : α → Roster → Prop}
    (hp : Can E t p d R) : Can E t (scope c value p) d R := by
  refine bind (act (Yields.enter (bind ?_)) fun _ _ => ⟨_, _, rfl⟩)
  intro h hs
  obtain ⟨x, h', hr, d', hs', hR⟩ := hp h hs
  exact ⟨x, h', hr, d', hs', bind (act (Yields.leave (ret hR)) fun _ _ => ⟨_, _, rfl⟩)⟩

theorem count {R : Nat → Roster → Prop} (hR : R d.count d) : Can E t BourseServer.count d R :=
  act (Yields.count hR) fun _ _ => ⟨_, _, rfl⟩

theorem setCount {n : Nat} {R : Unit → Roster → Prop} (hR : R () { d with count := n }) :
    Can E t (setCount n) d R :=
  act (Yields.setCount hR) fun _ _ => ⟨_, _, rfl⟩

theorem slot {R : Option Nat → Roster → Prop} (hR : R (d.slots i) d) : Can E t (slot i) d R :=
  act (Yields.slot hR) fun _ _ => ⟨_, _, rfl⟩

theorem setSlot {v : Option Nat} {R : Unit → Roster → Prop}
    (hR : R () { d with slots := Function.update d.slots i v }) : Can E t (setSlot i v) d R :=
  act (Yields.setSlot hR) fun _ _ => ⟨_, _, rfl⟩

/-- An action on the record of a trader that has not been freed. -/
theorem record {o : Op} {R : o.Reply → Roster → Prop} (hit : d.items a = some it)
    (hy : Yields E t (.act (I := bourse) o) d R)
    (hstep : ∀ (s : State E) tr, s.traders a = some tr → tr.Shows t it →
      ∃ r s', exec t o .tick s = .done r s') : Can E t (.act (I := bourse) o) d R := by
  refine act hy fun h hs => ?_
  obtain ⟨tr, htr, hshows⟩ := hs.trader hit
  exact hstep h.state tr htr hshows

theorem lock {R : Unit → Roster → Prop} (hit : d.items a = some it) (hheld : it.held = some 0)
    (hR : R () (d.setItem a { it with held := some 1 })) : Can E t (lock a) d R := by
  refine record hit (Yields.lock fun it' hit' => ?_) fun s tr htr hshows => ?_
  · obtain rfl := Option.some.inj (hit.symm.trans hit')
    rwa [hheld]
  · have hmutex := hshows.mutex
    rw [hheld] at hmutex
    have hlock : tr.mutex.lock t = some { tr.mutex with owner := some t, depth := 1 } :=
      if_pos hmutex.1
    exact ⟨(), _, (execTrader_of htr _).trans (by rw [hlock])⟩

theorem unlock {n : Nat} {R : Unit → Roster → Prop} (hit : d.items a = some it)
    (hheld : it.held = some (n + 1)) (hR : R () (d.setItem a { it with held := some n })) :
    Can E t (unlock a) d R :=
  record hit (Yields.unlockLive hit hheld hR) fun _ _ htr _ =>
    ⟨(), _, execTrader_of htr _⟩

theorem unlockGone {R : Unit → Roster → Prop} (hnone : d.items a = none) (hR : R () d) :
    Can E t (BourseServer.unlock a) d R := by
  intro h hs
  have htr := hs.none_iff.mpr hnone
  exact ⟨(), h, Runs.act_iff.mpr ⟨.tick, by simp [Heap.exec, htr], nofun⟩, d, hs, hR⟩

theorem mutexInit {R : Unit → Roster → Prop} (hit : d.items a = some it)
    (hR : R () (d.setItem a { it with held := some 0 })) : Can E t (mutexInit a) d R := by
  refine record hit (Yields.mutexInit fun it' hit' => ?_) fun s tr htr _ => ?_
  · obtain rfl := Option.some.inj (hit.symm.trans hit')
    exact hR
  · exact ⟨(), _, execTrader_of htr _⟩

theorem loadRef {R : Int → Roster → Prop} (hit : d.items a = some it) (hR : R it.ref d) :
    Can E t (load .ref a) d R := by
  refine record hit (Yields.loadRef fun it' hit' => ?_) fun s tr htr _ => ?_
  · obtain rfl := Option.some.inj (hit.symm.trans hit')
    exact hR
  · exact ⟨_, s, execTrader_of htr _⟩

theorem loadName {R : CString → Roster → Prop} (hit : d.items a = some it) (hR : R it.name d) :
    Can E t (load .name a) d R := by
  refine record hit (Yields.loadName fun it' hit' => ?_) fun s tr htr _ => ?_
  · obtain rfl := Option.some.inj (hit.symm.trans hit')
    exact hR
  · exact ⟨_, s, execTrader_of htr _⟩

theorem storeRef {v : Int} {R : Unit → Roster → Prop} (hit : d.items a = some it)
    (hR : R () (d.setItem a { it with ref := v })) : Can E t (store .ref a v) d R := by
  refine record hit (Yields.storeRef fun it' hit' => ?_) fun s tr htr _ => ?_
  · obtain rfl := Option.some.inj (hit.symm.trans hit')
    exact hR
  · exact ⟨(), _, execTrader_of htr _⟩

theorem storeName {v : CString} {R : Unit → Roster → Prop} (hit : d.items a = some it)
    (hR : R () (d.setItem a { it with name := v })) : Can E t (store .name a v) d R := by
  refine record hit (Yields.storeName fun it' hit' => ?_) fun s tr htr _ => ?_
  · obtain rfl := Option.some.inj (hit.symm.trans hit')
    exact hR
  · exact ⟨(), _, execTrader_of htr _⟩

theorem storeFd {v : Int} {R : Unit → Roster → Prop} (hit : d.items a = some it) (hR : R () d) :
    Can E t (store .fd a v) d R :=
  record hit (Yields.storeFd hR) fun _ _ htr _ => ⟨(), _, execTrader_of htr _⟩

theorem storeAsset {x : Asset} {v : UInt32} {R : Unit → Roster → Prop}
    (hit : d.items a = some it) (hR : R () d) : Can E t (storeAsset x a v) d R := by
  cases x with
  | balance =>
    exact record hit (Yields.storeAsset (x := .balance) hR) fun _ _ htr _ =>
      ⟨(), _, execTrader_of htr _⟩
  | inventory =>
    exact record hit (Yields.storeAsset (x := .inventory) hR) fun _ _ htr _ =>
      ⟨(), _, execTrader_of htr _⟩

theorem free {block : Nat} {R : Unit → Roster → Prop} (hblock : block ∈ d.blocks)
    (hR : R () { d with blocks := d.blocks.erase block }) : Can E t (free (some block)) d R := by
  refine act (Yields.free fun b hb _ => ?_) fun h hs => ?_
  · obtain rfl := Option.some.inj hb
    exact hR
  · rw [← hs.blocks] at hblock
    exact ⟨(), _, if_pos hblock⟩

theorem freeTrader {R : Unit → Roster → Prop} (hit : d.items a = some it)
    (hR : R () { d with items := Function.update d.items a none, freed := a :: d.freed }) :
    Can E t (freeTrader a) d R :=
  record hit (Yields.freeTrader hR) fun _ _ htr _ => ⟨(), _, execTrader_of htr _⟩

/-- The memory of a new trader may hold zeros. -/
theorem mallocTrader {R : Nat → Roster → Prop} (hfree : ∃ b, d.items b = none)
    (hR : ∀ b name, d.items b = none → R b (d.setItem b ⟨0, name, some 0⟩)) :
    Can E t mallocTrader d R := by
  intro h hs
  obtain ⟨b, hb⟩ := hfree
  have hnone := hs.none_iff.mpr hb
  have hshows : Trader.Shows t ⟨0, 0, 0, 0, ⟨false, none, 0⟩, ⟨0, []⟩⟩ ⟨0, ⟨0, []⟩, some 0⟩ :=
    ⟨rfl, rfl, rfl, fun hne => absurd rfl hne⟩
  refine ⟨b, _, Runs.act_iff.mpr ⟨.trader b ⟨0, 0, 0, 0, ⟨false, none, 0⟩, ⟨0, []⟩⟩, ?_, ?_⟩,
    _, hs.setItem hshows h.state.hist, hR b _ hb⟩
  · simp [Heap.exec, Heap.lift, exec, execMallocTrader, hnone, Outcome.map]
    rfl
  · rintro _ _ ⟨⟩
    rfl

/-- A bounded search whose body leaves the roster alone until it finds something. -/
theorem searchFrom {body : Nat → Code (Option α)} {n : Nat} {R : Option α → Roster → Prop}
    (A : Nat → Prop) : ∀ {i : Nat}, (∀ j, j < i → A j) →
      (∀ j, i ≤ j → j < i + n → (∀ k, k < j → A k) → Can E t (body j) d fun r d' =>
        (r = none → d' = d ∧ A j) ∧ ∀ x, r = some x → R (some x) d') →
      ((∀ j, j < i + n → A j) → R none d) → Can E t (.searchFrom body n i) d R := by
  induction n with
  | zero => exact fun hA _ hend => ret (hend hA)
  | succ n ih =>
    intro i hA hbody hend h hs
    obtain ⟨r, h', hr, d', hs', hnone, hsome⟩ := hbody i le_rfl (by omega) hA h hs
    cases r with
    | some x => exact ⟨some x, h', hr.bind (.ret _ _), d', hs', hsome x rfl⟩
    | none =>
      obtain ⟨rfl, hi⟩ := hnone rfl
      have hnext : ∀ j, j < i + 1 → A j := by
        intro j hj
        rcases Nat.lt_succ_iff_lt_or_eq.mp hj with hlt | rfl
        · exact hA j hlt
        · exact hi
      have hrest := ih hnext (fun j hj hj' => hbody j (by omega) (by omega))
        (by rwa [show i + 1 + n = i + (n + 1) by omega])
      obtain ⟨r', h'', hr', hlast⟩ := hrest h' hs'
      exact ⟨r', h'', hr.bind hr', hlast⟩

theorem search {body : Nat → Code (Option α)} {n : Nat} {R : Option α → Roster → Prop}
    (A : Nat → Prop)
    (hbody : ∀ j, j < n → (∀ k, k < j → A k) → Can E t (body j) d fun r d' =>
      (r = none → d' = d ∧ A j) ∧ ∀ x, r = some x → R (some x) d')
    (hend : (∀ j, j < n → A j) → R none d) : Can E t (.search n body) d R :=
  searchFrom A (by simp) (fun j _ hj => hbody j (by omega)) (by simpa using hend)

/-! ### The functions of the trader module -/

theorem traderRef {R : Nat → Roster → Prop} (hit : d.items a = some it)
    (hheld : it.held = some 0)
    (hR : R a (d.setItem a { it with ref := it.ref + 1, held := some 0 })) :
    Can E t (traderRef a) d R := by
  refine scope (bind (lock hit hheld (bind (loadRef (Roster.setItem_self ..)
    (bind (storeRef (Roster.setItem_self ..) ?_))))))
  refine bind (unlock (Roster.setItem_self ..) rfl (ret ?_))
  simpa using hR

theorem slotName {R : CString → Roster → Prop} (hslot : d.slots i = some a)
    (hit : d.items a = some it) (hR : R it.name d) : Can E t (slotName i) d R := by
  refine bind (slot ?_)
  rw [hslot]
  exact bind (ret (loadName hit hR))

theorem checkOldTraderAndLogin {fd : Int} {name : CString} {R : Option Nat → Roster → Prop}
    (hlive : ∀ i a, d.slots i = some a → ∃ it, d.items a = some it) (hunknown : d.Unknown name)
    (hR : R none d) : Can E t (checkOldTraderAndLogin fd name) d R := by
  refine search (fun _ => True) (fun j hj _ => ?_) fun _ => hR
  refine bind (slot ?_)
  cases hslot : d.slots j with
  | none => exact ret ⟨fun _ => ⟨rfl, trivial⟩, nofun⟩
  | some b =>
    obtain ⟨it, hit⟩ := hlive j b hslot
    refine bind (slotName hslot hit ?_)
    rw [hunknown j hj b it hslot hit]
    exact ret ⟨fun _ => ⟨rfl, trivial⟩, nofun⟩

theorem getFirstAvailableIndex {R : Option Nat → Roster → Prop} (hR : ∀ r, R r d) :
    Can E t getFirstAvailableIndex d R := by
  refine search (fun _ => True) (fun j hj _ => ?_) fun _ => hR none
  refine bind (slot ?_)
  cases d.slots j with
  | none => exact ret ⟨nofun, fun x _ => hR (some x)⟩
  | some b => exact ret ⟨fun _ => ⟨rfl, trivial⟩, nofun⟩

/-- A login under a new name comes to an end when memory is left. -/
theorem traderLogin {fd : Int} {name : CString}
    (hlive : ∀ i a, d.slots i = some a → ∃ it, d.items a = some it) (hunknown : d.Unknown name)
    (hfree : ∃ b, d.items b = none) : Can E t (traderLogin fd name) d fun _ _ => True := by
  refine scope (bind (checkOldTraderAndLogin hlive hunknown ?_))
  refine bind (count ?_)
  split_ifs
  · exact ret trivial
  · refine bind (count (bind (setCount (bind (mallocTrader hfree fun b name' _ => ?_)))))
    refine bind (traderRef (Roster.setItem_self ..) rfl ?_)
    refine bind (traderRef (Roster.setItem_self ..) rfl ?_)
    refine bind (storeFd (Roster.setItem_self ..) ?_)
    refine bind (storeAsset (x := .balance) (Roster.setItem_self ..) ?_)
    refine bind (storeAsset (x := .inventory) (Roster.setItem_self ..) ?_)
    refine bind (storeName (Roster.setItem_self ..) ?_)
    refine bind (mutexInit (Roster.setItem_self ..) ?_)
    refine bind (getFirstAvailableIndex fun r => ?_)
    cases r with
    | none => exact ret trivial
    | some i => exact bind (setSlot (ret trivial))

theorem removeTraderIfEmpty (hit : d.items a = some it) (hplace : d.Place a i it.name)
    (hlive : ∀ i a, d.slots i = some a → ∃ it, d.items a = some it)
    (hblock : it.name.block ∈ d.blocks) :
    Can E t (removeTraderIfEmpty a) d fun _ d' =>
      d' = if it.ref = 0 then d.remove a i it.name.block else d := by
  refine bind (loadRef hit ?_)
  by_cases href : it.ref = 0
  · rw [if_neg (not_not.mpr href), if_pos href]
    refine bind (search (fun j => j ≠ i) (fun j hj hbefore => ?_) fun hno => ?_)
    · refine bind (slot ?_)
      have hle : j ≤ i := by
        by_contra hlt
        exact hbefore i (by omega) rfl
      cases hslot : d.slots j with
      | none =>
        refine ret ⟨fun _ => ⟨rfl, ?_⟩, by simp⟩
        rintro rfl
        cases hslot.symm.trans hplace.slot
      | some b =>
        obtain ⟨itb, hitb⟩ := hlive j b hslot
        refine bind (slotName hslot hitb (bind (loadName hit ?_)))
        rcases hle.lt_or_eq with hlt | rfl
        · rw [hplace.first j hlt b itb hslot hitb]
          exact ret ⟨fun _ => ⟨rfl, by omega⟩, by simp⟩
        · obtain rfl := Option.some.inj (hslot.symm.trans hplace.slot)
          obtain rfl := Option.some.inj (hit.symm.trans hitb)
          have hsame : strcmpEq it.name it.name = true := by simp [strcmpEq]
          rw [if_pos hsame]
          refine bind (loadName hit (bind (free hblock (bind (freeTrader hit ?_)))))
          exact bind (setSlot (ret ⟨by simp, fun x _ => ret rfl⟩))
    · exact absurd rfl (hno i hplace.inside)
  · rw [if_pos href, if_neg href]
    exact ret rfl

/-- A reference can be given back. -/
theorem traderUnref (hl : d.Layout) (hit : d.items a = some it) :
    Can E t (traderUnref a) d fun _ _ => True := by
  obtain ⟨i, hplace⟩ := hl.place hit
  refine scope (bind (lock hit (hl.unlocked a it hit) ?_))
  refine bind (loadRef (Roster.setItem_self ..) (bind (storeRef (Roster.setItem_self ..) ?_)))
  rw [Roster.setItem_setItem]
  have hit' : (d.setItem a { it with ref := it.ref - 1, held := some 1 }).items a =
      some { it with ref := it.ref - 1, held := some 1 } := Roster.setItem_self ..
  have hlive : ∀ j b, d.slots j = some b → ∃ itb,
      (d.setItem a { it with ref := it.ref - 1, held := some 1 }).items b = some itb := by
    intro j b hslot
    by_cases hb : b = a
    · subst hb
      exact ⟨_, Roster.setItem_self ..⟩
    · rw [Roster.setItem_of_ne d _ hb]
      exact hl.live j b hslot
  refine bind ?_
  intro h hs
  obtain ⟨r, h', hr, d', hs', hd'⟩ := removeTraderIfEmpty hit' (hplace.setItem hit rfl) hlive
    (hl.owned a it hit) h hs
  refine ⟨r, h', hr, d', hs', ?_⟩
  subst hd'
  split_ifs
  · exact unlockGone (Roster.remove_self ..) trivial
  · exact unlock hit' rfl trivial

end Can

/-! ## The table is full -/

/-- Addresses are never exhausted: all traders are in the 64 slots. -/
theorem Roster.Layout.exists_address {d : Roster} (hl : d.Layout) : ∃ b, d.items b = none := by
  by_contra hno
  push Not at hno
  have hstored : ∀ b, ∃ i, i < maxTraders ∧ d.slots i = some b := by
    intro b
    obtain ⟨it, hit⟩ := Option.ne_none_iff_exists'.mp (hno b)
    obtain ⟨i, hi⟩ := hl.stored b it hit
    exact ⟨i, (hl.below i b hi).trans_le hl.room, hi⟩
  choose f hf using hstored
  have hmaps : ∀ b ∈ Finset.range (maxTraders + 1), f b ∈ Finset.range maxTraders :=
    fun b _ => Finset.mem_range.mpr (hf b).1
  obtain ⟨b, _, c, _, hbc, heq⟩ := Finset.exists_ne_map_eq_of_card_lt_of_maps_to
    (by simp) hmaps
  have hb := (hf b).2
  rw [heq, (hf c).2] at hb
  exact hbc (Option.some.inj hb).symm

/-- How many slots are in use. -/
def Heap.occupied (h : Heap E) : Nat := h.state.directory.occupied

/-- No trader in the table has this name. -/
def Heap.Unknown (h : Heap E) (name : CString) : Prop :=
  ∀ i a tr, h.state.allTraders i = some a → h.state.traders a = some tr →
    strcmpEq tr.name name = false

section admission

variable {t : Nat} {h : Heap E} {d : Roster}

theorem Heap.Shows.unknown {name : CString} (hs : h.Shows t d) (hu : h.Unknown name) :
    d.Unknown name := by
  intro i _ b it hslot hit
  obtain ⟨tr, htr, hshows⟩ := hs.trader hit
  rw [← hs.slots] at hslot
  rw [← hshows.name]
  exact hu i b tr hslot htr

/-- The occupied slots are among the first `count`. -/
theorem Roster.Layout.occupied_le (hl : d.Layout) (hs : h.Shows t d) : h.occupied ≤ d.count := by
  have hsub : (Finset.range maxTraders).filter (fun i => (h.state.directory.slots i).isSome) ⊆
      Finset.range d.count := by
    intro i hi
    obtain ⟨_, hsome⟩ := Finset.mem_filter.mp hi
    obtain ⟨a, ha⟩ := Option.isSome_iff_exists.mp hsome
    exact Finset.mem_range.mpr (hl.below i a ((congrFun hs.slots i).symm.trans ha))
  have hcard := Finset.card_le_card hsub
  rwa [Finset.card_range] at hcard

/-- Only `count` decides whether a new name is admitted. -/
theorem Roster.Layout.admits (hl : d.Layout) {fd : Int} {name : CString}
    (hunknown : d.Unknown name) :
    Yields E t (traderLogin fd name) d fun r _ => r ≠ none ↔ d.count < maxTraders := by
  apply Yields.traderLogin
  · intro r j b it hslot hit heq
    rw [hunknown j ((hl.below j b hslot).trans_le hl.room) b it hslot hit] at heq
    cases heq
  · intro _ hfull
    exact ⟨fun h => absurd rfl h, fun h => by omega⟩
  · exact fun b j _ hlt _ _ _ => ⟨fun _ => hlt, fun _ => nofun⟩
  · exact hl.exists_free

end admission

/-- A login comes to an end, and whenever it does the client is admitted if and only if fewer
than `maxTraders` slots are in use. -/
def AdmitsByRoom (h : Heap E) (t : Nat) (fd : Int) (name : CString) : Prop :=
  (∃ r h', Runs (heap E) zeroHeap t (traderLogin fd name) h r h') ∧
    ∀ r h', Runs (heap E) zeroHeap t (traderLogin fd name) h r h' →
      (r ≠ none ↔ h.occupied < maxTraders)

/-- In every state that atomic operations lead to, a new name is admitted if and only if there is
room, exactly when fewer than `maxTraders` traders have been created so far or all slots are in
use. -/
theorem admits_by_room_iff {h : Heap E} (hm : Managed h) (t : Nat) (fd : Int) {name : CString}
    (hunknown : h.Unknown name) :
    AdmitsByRoom h t fd name ↔ h.state.count < maxTraders ∨ h.occupied = maxTraders := by
  obtain ⟨d, hl, hs⟩ := hm.layout
  have hu := (hs t).unknown hunknown
  have hruns : Can E t (traderLogin fd name) _ fun _ _ => True :=
    .traderLogin hl.live hu hl.exists_address
  have hcan := hruns h (hs t)
  have hle := hl.occupied_le (hs t)
  have hroom := hl.room
  rw [(hs t).count]
  constructor
  · rintro ⟨⟨r, h', hr⟩, hall⟩
    obtain ⟨_, _, hroomIff⟩ := (hl.admits hu).runs (hs t) hr
    have hwant := hall r h' hr
    by_contra hno
    rw [hroomIff] at hwant
    omega
  · intro hcond
    obtain ⟨r, h', hr, _⟩ := hcan
    refine ⟨⟨r, h', hr⟩, fun r h' hr => ?_⟩
    obtain ⟨_, _, hroomIff⟩ := (hl.admits hu).runs (hs t) hr
    rw [hroomIff]
    omega

/-! ## Traders that come and go -/

/-- Trader `b` is the only one, with `r` references, and `k` traders have been created. -/
structure Heap.Sole (h : Heap E) (b : Nat) (r : Int) (k : Nat) : Prop where
  count : h.state.count = k
  only : ∀ a, a ≠ b → h.state.traders a = none
  trader : ∃ tr, h.state.traders b = some tr ∧ tr.ref = r

/-- There is no trader, and `k` have been created. -/
structure Heap.Empty (h : Heap E) (k : Nat) : Prop where
  count : h.state.count = k
  traders : ∀ a, h.state.traders a = none

section comings

variable {h : Heap E} {k b : Nat} {r : Int}

theorem Heap.Empty.exists_malloc (he : h.Empty k) :
    ∃ p h', Runs (heap E) zeroHeap 0 (BourseServer.malloc 0) h p h' ∧ h'.Empty k := by
  obtain ⟨p, hp⟩ := Infinite.exists_notMem_finset h.state.blocks.toFinset
  rw [List.mem_toFinset] at hp
  refine ⟨(p, []), { h with state := { h.state with blocks := p :: h.state.blocks } },
    Runs.act_iff.mpr ⟨.block p [], ?_, nofun⟩, he.count, he.traders⟩
  simp [Heap.exec, Heap.lift, BourseServer.exec, execMalloc, hp, Outcome.map]

/-- A trader logs in where there is none. -/
theorem Managed.exists_login (hm : Managed h) (he : h.Empty k) (hk : k < maxTraders) :
    ∃ (h' : Heap E) (b : Nat), Managed h' ∧ h'.Sole b 2 (k + 1) := by
  obtain ⟨p, h₁, halloc, he₁⟩ := he.exists_malloc
  obtain ⟨d, hl, hs⟩ := (hm.malloc halloc).layout
  have hnone : ∀ a, d.items a = none := fun a => (hs 0).none_iff.mp (he₁.traders a)
  have hu : d.Unknown ⟨p.1, [0]⟩ := by
    intro i _ a it _ hit
    cases (hnone a).symm.trans hit
  have hcount : d.count = k := (hs 0).count.symm.trans he₁.count
  have hy : Yields E 0 (traderLogin 3 ⟨p.1, [0]⟩) d fun _ d' => ∃ b,
      d'.items = Function.update d.items b (some ⟨2, ⟨p.1, [0]⟩, some 0⟩) ∧ d'.count = k + 1 := by
    apply Yields.traderLogin
    · intro _ j a it _ hit _
      cases (hnone a).symm.trans hit
    · exact fun _ hfull => absurd hfull (by omega)
    · exact fun b j _ _ _ _ _ => ⟨b, rfl, congrArg (· + 1) hcount⟩
    · exact hl.exists_free
  have hcan : Can E 0 (traderLogin 3 _) _ fun _ _ => True :=
    .traderLogin hl.live hu hl.exists_address
  obtain ⟨r, h', hr, _⟩ := hcan h₁ (hs 0)
  obtain ⟨d', hs', b, hitems, hcount'⟩ := hy.runs (hs 0) hr
  refine ⟨h', b, hm.loginFresh halloc hr, hs'.count.trans hcount', fun a ha => ?_, ?_⟩
  · rw [hs'.none_iff, hitems, Function.update_of_ne ha]
    exact hnone a
  · have hit : d'.items b = some ⟨2, ⟨p.1, [0]⟩, some 0⟩ := by
      rw [hitems, Function.update_self]
    obtain ⟨tr, htr, hshows⟩ := hs'.trader hit
    exact ⟨tr, htr, hshows.ref⟩

/-- A reference of the only trader is given back. -/
theorem Managed.exists_unref (hm : Managed h) (hsole : h.Sole b r k) :
    ∃ h' : Heap E, Managed h' ∧ (r ≠ 1 → h'.Sole b (r - 1) k) ∧ (r = 1 → h'.Empty k) := by
  obtain ⟨d, hl, hs⟩ := hm.layout
  obtain ⟨tr, htr, href⟩ := hsole.trader
  obtain ⟨it, hit, hshows⟩ := (hs 0).item htr
  have hitref : it.ref = r := hshows.ref.symm.trans href
  obtain ⟨i, hplace⟩ := hl.place hit
  have hy : Yields E 0 (traderUnref b) d fun _ d' => d'.count = d.count ∧
      (∀ a, a ≠ b → d'.items a = d.items a) ∧
      (r ≠ 1 → ∃ it', d'.items b = some it' ∧ it'.ref = r - 1) ∧
      (r = 1 → d'.items b = none) := by
    apply Yields.traderUnref hit hplace
    · intro hne
      rw [hitref] at hne ⊢
      exact ⟨rfl, fun a ha => Roster.setItem_of_ne d _ ha,
        fun _ => ⟨_, Roster.setItem_self .., rfl⟩, fun h => absurd h hne⟩
    · intro hone
      rw [hitref] at hone
      exact ⟨rfl, fun a ha => d.remove_of_ne _ _ ha, fun h => absurd hone h,
        fun _ => Roster.remove_self ..⟩
  obtain ⟨x, h', hr, _⟩ := Can.traderUnref (E := E) (t := 0) hl hit h (hs 0)
  obtain ⟨d', hs', hcount, hrest, hkeep, hgone⟩ := hy.runs (hs 0) hr
  have hcount' : h'.state.count = k :=
    (hs'.count.trans hcount).trans ((hs 0).count.symm.trans hsole.count)
  have hother : ∀ a, a ≠ b → h'.state.traders a = none := by
    intro a ha
    rw [hs'.none_iff, hrest a ha, ← (hs 0).none_iff]
    exact hsole.only a ha
  refine ⟨h', hm.unref (by simp [htr]) hr, fun hne => ?_, fun hone => ⟨hcount', fun a => ?_⟩⟩
  · obtain ⟨it', hit', href'⟩ := hkeep hne
    obtain ⟨tr', htr', hshows'⟩ := hs'.trader hit'
    exact ⟨hcount', hother, tr', htr', hshows'.ref.trans href'⟩
  · by_cases ha : a = b
    · subst ha
      exact hs'.none_iff.mpr (hgone hone)
    · exact hother a ha

/-- Any number of traders up to the bound can come and go. -/
theorem exists_empty_after (x : E.State) (n : Nat) (hk : k ≤ maxTraders) :
    ∃ h : Heap E, Managed h ∧ h.Empty k := by
  induction k with
  | zero => exact ⟨⟨State.init E x n, []⟩, .init x n, rfl, fun _ => rfl⟩
  | succ k ih =>
    obtain ⟨h, hm, he⟩ := ih (by omega)
    obtain ⟨h₁, b, hm₁, hsole⟩ := hm.exists_login he (by omega)
    obtain ⟨h₂, hm₂, hkeep, _⟩ := hm₁.exists_unref hsole
    obtain ⟨h₃, hm₃, _, hgone⟩ := hm₂.exists_unref (hkeep (by decide))
    exact ⟨h₃, hm₃, hgone (by decide)⟩

/-- Without traders there are no names, and all slots are empty. -/
theorem Managed.vacant (hm : Managed h) (he : h.Empty k) :
    h.occupied = 0 ∧ ∀ name, h.Unknown name := by
  obtain ⟨d, hl, hs⟩ := hm.layout
  have hslots : ∀ i, h.state.allTraders i = none := by
    intro i
    by_contra hsome
    obtain ⟨a, ha⟩ := Option.ne_none_iff_exists'.mp hsome
    rw [(hs 0).slots] at ha
    obtain ⟨it, hit⟩ := hl.live i a ha
    cases ((hs 0).none_iff.mp (he.traders a)).symm.trans hit
  constructor
  · simp [Heap.occupied, Directory.occupied, State.directory, hslots]
  · intro name i a tr hslot
    cases (hslots i).symm.trans hslot

end comings

/-- After 64 traders have come and gone all slots are empty, and a new name is rejected. -/
theorem rejected_with_empty_table : ∃ h : Heap (.fixed 1 1), Managed h ∧ h.occupied = 0 ∧
    h.Unknown ⟨0, [97, 0]⟩ ∧ ¬ AdmitsByRoom h 0 3 ⟨0, [97, 0]⟩ := by
  obtain ⟨h, hm, he⟩ := exists_empty_after (E := .fixed 1 1) () 4 (le_refl maxTraders)
  obtain ⟨hocc, hunknown⟩ := hm.vacant he
  refine ⟨h, hm, hocc, hunknown _, ?_⟩
  rintro ⟨⟨r, h', hr⟩, hall⟩
  obtain ⟨d, hl, hs⟩ := hm.layout
  obtain ⟨_, _, hroomIff⟩ := (hl.admits ((hs 0).unknown (hunknown _))).runs (hs 0) hr
  have hfull : ¬ d.count < maxTraders := by
    rw [← (hs 0).count, he.count]
    exact lt_irrefl maxTraders
  have hroom := (hall r h' hr).mpr (by rw [hocc]; decide)
  exact hfull (hroomIff.mp hroom)

/-- After one trader has come and gone, a new name is admitted. -/
theorem admitted_after_one : ∃ h : Heap (.fixed 1 1), Managed h ∧ h.state.count = 1 ∧
    h.occupied = 0 ∧ AdmitsByRoom h 0 3 ⟨0, [97, 0]⟩ := by
  obtain ⟨h, hm, he⟩ := exists_empty_after (E := .fixed 1 1) (k := 1) () 4 (by decide)
  obtain ⟨hocc, hunknown⟩ := hm.vacant he
  refine ⟨h, hm, he.count, hocc, ?_⟩
  exact (admits_by_room_iff hm 0 3 (hunknown _)).mpr (.inl (by rw [he.count]; decide))

end BourseServer
