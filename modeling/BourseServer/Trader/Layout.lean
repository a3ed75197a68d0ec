import BourseServer.Trader.Heap

/-!
# The layout of the table

Slots are freed and filled again, lowest first, while `count` never goes down. In every state
between two operations, the occupied slots are below `count`, each trader that has not been freed
is in one of them, and their names differ. So a search by name finds the trader it is meant to
find, and as long as `count` is below the bound there is a free slot.
-/
namespace BourseServer

open Concurrency

variable {E : Exchange}

namespace Roster

/-- Slot `i` is the first one whose trader has the name of trader `a`, and `a` is in it. -/
structure Place (d : Roster) (a i : Nat) (name : CString) : Prop where
  inside : i < maxTraders
  slot : d.slots i = some a
  first : ∀ j, j < i → ∀ b it, d.slots j = some b → d.items b = some it →
    strcmpEq it.name name = false

/-- No trader in the table has this name. -/
def Unknown (d : Roster) (name : CString) : Prop :=
  ∀ i, i < maxTraders → ∀ b it, d.slots i = some b → d.items b = some it →
    strcmpEq it.name name = false

@[simp] theorem setItem_slots (d : Roster) (a : Nat) (it : Item) :
    (d.setItem a it).slots = d.slots := rfl

@[simp] theorem setItem_count (d : Roster) (a : Nat) (it : Item) :
    (d.setItem a it).count = d.count := rfl

@[simp] theorem remove_setItem (d : Roster) (a i block : Nat) (it : Item) :
    (d.setItem a it).remove a i block = d.remove a i block := by
  simp [remove, setItem]

@[simp] theorem remove_self (d : Roster) (a i block : Nat) :
    (d.remove a i block).items a = none := Function.update_self ..

theorem remove_of_ne (d : Roster) {a b : Nat} (i block : Nat) (h : b ≠ a) :
    (d.remove a i block).items b = d.items b := Function.update_of_ne h ..

theorem remove_slot_of_ne (d : Roster) {i j : Nat} (a block : Nat) (h : j ≠ i) :
    (d.remove a i block).slots j = d.slots j := Function.update_of_ne h ..

theorem Place.setItem {d : Roster} {a i : Nat} {it it' : Item} (h : d.Place a i it.name)
    (hit : d.items a = some it) (hname : it'.name = it.name) :
    (d.setItem a it').Place a i it.name where
  inside := h.inside
  slot := h.slot
  first j hj b itb hslot hitb := by
    by_cases hb : b = a
    · subst hb
      obtain rfl := Option.some.inj ((setItem_self d b it').symm.trans hitb)
      rw [hname]
      exact h.first j hj b it hslot hit
    · rw [setItem_of_ne d it' hb] at hitb
      exact h.first j hj b itb hslot hitb

end Roster

/-! ## The functions of the trader module -/

namespace Yields

variable {t a i : Nat} {d : Roster} {it : Item}

/-- The trader's mutex is locked once more around the code. -/
theorem lockThen {p : Unit → Code Unit} {R : Unit → Roster → Prop} (hit : d.items a = some it)
    (hp : Yields E t (p ()) (d.setItem a { it with held := some (it.held.getD 0 + 1) }) R) :
    Yields E t (BourseServer.lock a >>= p) d R := by
  refine bind (lock fun it' hit' => ?_)
  obtain rfl := Option.some.inj (hit.symm.trans hit')
  exact hp

theorem unlockLive {n : Nat} {R : Unit → Roster → Prop} (hit : d.items a = some it)
    (hheld : it.held = some (n + 1)) (hR : R () (d.setItem a { it with held := some n })) :
    Yields E t (BourseServer.unlock a) d R := by
  apply unlock
  · intro it' hit'
    obtain rfl := Option.some.inj (hit.symm.trans hit')
    exact ⟨n + 1, hheld, hR⟩
  · intro hnone
    cases hnone.symm.trans hit

theorem unlockGone {R : Unit → Roster → Prop} (hnone : d.items a = none) (hR : R () d) :
    Yields E t (BourseServer.unlock a) d R := by
  apply unlock
  · intro it hit
    cases hnone.symm.trans hit
  · exact fun _ => hR

theorem traderRef {R : Nat → Roster → Prop} (hR : ∀ it, d.items a = some it →
      R a (d.setItem a { it with ref := it.ref + 1, held := some (it.held.getD 0) })) :
    Yields E t (traderRef a) d R := by
  refine scope (bind (lock fun it hit => bind (loadRef fun it₁ hit₁ =>
    bind (storeRef fun it₂ hit₂ => ?_))))
  rw [Roster.setItem_self] at hit₁ hit₂
  obtain rfl := Option.some.inj hit₁
  obtain rfl := Option.some.inj hit₂
  refine bind (unlockLive (Roster.setItem_self ..) rfl (ret ?_))
  simpa using hR it hit

theorem slotName {R : CString → Roster → Prop}
    (hR : ∀ b it, d.slots i = some b → d.items b = some it → R it.name d) :
    Yields E t (slotName i) d R :=
  bind (slot (bind (deref fun b hb => loadName fun it hit => hR b it hb hit)))

/-- The trader is taken out of the table and freed if it has no references left. -/
theorem removeTraderIfEmpty {R : Unit → Roster → Prop} (hit : d.items a = some it)
    (hplace : d.Place a i it.name) (hkeep : it.ref ≠ 0 → R () d)
    (hgone : it.ref = 0 → R () (d.remove a i it.name.block)) :
    Yields E t (removeTraderIfEmpty a) d R := by
  refine bind (loadRef fun it' hit' => ?_)
  obtain rfl := Option.some.inj (hit.symm.trans hit')
  by_cases href : it.ref = 0
  · rw [if_neg (not_not.mpr href)]
    refine bind (search (fun j => j ≠ i) (fun j hj hbefore => ?_) fun hno => ?_)
    · refine bind (slot ?_)
      have hle : j ≤ i := by
        by_contra hlt
        exact hbefore i (by omega) rfl
      cases hslot : d.slots j with
      | none =>
        refine ret ⟨fun _ => ⟨rfl, ?_⟩, nofun⟩
        rintro rfl
        cases hslot.symm.trans hplace.slot
      | some b =>
        refine bind (slotName fun b' itb hb' hitb => bind (loadName fun it' hit' => ?_))
        obtain rfl := Option.some.inj (hslot.symm.trans hb')
        obtain rfl := Option.some.inj (hit.symm.trans hit')
        rcases hle.lt_or_eq with hlt | rfl
        · rw [hplace.first j hlt b itb hslot hitb]
          exact ret ⟨fun _ => ⟨rfl, by omega⟩, nofun⟩
        · obtain rfl := Option.some.inj (hslot.symm.trans hplace.slot)
          obtain rfl := Option.some.inj (hit.symm.trans hitb)
          have hsame : strcmpEq it.name it.name = true := by simp [strcmpEq]
          rw [if_pos hsame]
          refine bind (loadName fun it' hit' => bind (free fun block hblock _ =>
            bind (freeTrader (bind (setSlot (ret ?_))))))
          obtain rfl := Option.some.inj (hit.symm.trans hit')
          obtain rfl := Option.some.inj hblock
          exact ⟨nofun, fun x _ => ret (hgone href)⟩
    · exact absurd rfl (hno i hplace.inside)
  · rw [if_pos href]
    exact ret (hkeep href)

/-- A reference is given back, and with the last one the trader is gone. -/
theorem traderUnref {R : Unit → Roster → Prop} (hit : d.items a = some it)
    (hplace : d.Place a i it.name)
    (hkeep : it.ref ≠ 1 →
      R () (d.setItem a { it with ref := it.ref - 1, held := some (it.held.getD 0) }))
    (hgone : it.ref = 1 → R () (d.remove a i it.name.block)) :
    Yields E t (traderUnref a) d R := by
  refine scope (lockThen hit (bind (loadRef fun it₁ hit₁ => bind (storeRef fun it₂ hit₂ => ?_))))
  rw [Roster.setItem_self] at hit₁ hit₂
  obtain rfl := Option.some.inj hit₁
  obtain rfl := Option.some.inj hit₂
  rw [Roster.setItem_setItem]
  refine bind (removeTraderIfEmpty (i := i) (Roster.setItem_self ..) ?_ (fun href => ?_)
    fun href => ?_)
  · exact hplace.setItem hit rfl
  · refine unlockLive (Roster.setItem_self ..) rfl ?_
    have hone : it.ref ≠ 1 := by
      rintro hone
      exact href (by simp [hone])
    simpa using hkeep hone
  · refine unlockGone (Roster.remove_self ..) ?_
    have hone : it.ref = 1 := by
      have hzero : it.ref - 1 = 0 := href
      omega
    simpa using hgone hone

/-- As far as the roster shows, a logout gives a reference back. -/
theorem traderLogout {R : Unit → Roster → Prop} (hit : d.items a = some it)
    (hplace : d.Place a i it.name)
    (hkeep : it.ref ≠ 1 →
      R () (d.setItem a { it with ref := it.ref - 1, held := some (it.held.getD 0) }))
    (hgone : it.ref = 1 → R () (d.remove a i it.name.block)) :
    Yields E t (traderLogout a) d R := by
  refine scope (lockThen hit (bind (search (fun j => j ≠ i) (fun j hj hbefore => ?_)
    fun hno => ?_)))
  · refine bind (slot ?_)
    have hle : j ≤ i := by
      by_contra hlt
      exact hbefore i (by omega) rfl
    have hplace' : (d.setItem a { it with held := some (it.held.getD 0 + 1) }).Place a i it.name :=
      hplace.setItem hit rfl
    rw [Roster.setItem_slots]
    cases hslot : d.slots j with
    | none =>
      refine ret ⟨fun _ => ⟨rfl, ?_⟩, nofun⟩
      rintro rfl
      cases hslot.symm.trans hplace.slot
    | some b =>
      refine bind (slotName fun b' itb hb' hitb => bind (loadName fun it' hit' => ?_))
      obtain rfl := Option.some.inj (hslot.symm.trans hb')
      rw [Roster.setItem_self] at hit'
      obtain rfl := Option.some.inj hit'
      dsimp only
      rcases hle.lt_or_eq with hlt | rfl
      · rw [hplace'.first j hlt b itb hslot hitb]
        exact ret ⟨fun _ => ⟨rfl, by omega⟩, nofun⟩
      · obtain rfl := Option.some.inj (hslot.symm.trans hplace.slot)
        rw [Roster.setItem_self] at hitb
        obtain rfl := Option.some.inj hitb
        have hsame : strcmpEq it.name it.name = true := by simp [strcmpEq]
        rw [if_pos hsame]
        refine bind (traderUnref (i := j) (Roster.setItem_self ..) hplace' (fun href => ?_)
          fun href => ?_)
        · refine bind (storeFd (ret ⟨nofun, fun x _ => ?_⟩))
          refine unlockLive (Roster.setItem_self ..) rfl ?_
          simpa using hkeep href
        · refine bind (storeFd (ret ⟨nofun, fun x _ => ?_⟩))
          refine unlockGone (Roster.remove_self ..) ?_
          simpa using hgone href
  · exact absurd rfl (hno i hplace.inside)

theorem checkOldTraderAndLogin {fd : Int} {name : CString} {R : Option Nat → Roster → Prop}
    (hnone : d.Unknown name → R none d)
    (hsome : ∀ j b it, d.slots j = some b → d.items b = some it → strcmpEq it.name name = true →
      R (some b) (d.setItem b { it with ref := it.ref + 1, held := some (it.held.getD 0) })) :
    Yields E t (checkOldTraderAndLogin fd name) d R := by
  refine search (fun j => ∀ b it, d.slots j = some b → d.items b = some it →
    strcmpEq it.name name = false) (fun j hj _ => ?_) hnone
  refine bind (slot ?_)
  cases hslot : d.slots j with
  | none =>
    refine ret ⟨fun _ => ⟨rfl, fun b it hb _ => ?_⟩, nofun⟩
    cases hb
  | some b =>
    refine bind (slotName fun b' it hb' hit => ?_)
    obtain rfl := Option.some.inj (hslot.symm.trans hb')
    split_ifs with heq
    · refine bind (slot (bind (deref fun b' hb' => bind (traderRef fun it' hit' =>
        bind (slot (bind (deref fun b'' hb'' => ret ?_)))))))
      obtain rfl := Option.some.inj (hslot.symm.trans hb')
      obtain rfl := Option.some.inj (hslot.symm.trans hb'')
      obtain rfl := Option.some.inj (hit.symm.trans hit')
      refine ⟨nofun, fun x hx => ?_⟩
      obtain rfl := Option.some.inj hx
      exact hsome j b it hslot hit heq
    · refine ret ⟨fun _ => ⟨rfl, fun b' it' hb' hit' => ?_⟩, nofun⟩
      obtain rfl := Option.some.inj hb'
      obtain rfl := Option.some.inj (hit.symm.trans hit')
      simpa using heq

theorem getFirstAvailableIndex {R : Option Nat → Roster → Prop}
    (hnone : (∀ j, j < maxTraders → d.slots j ≠ none) → R none d)
    (hsome : ∀ j, j < maxTraders → d.slots j = none → (∀ k, k < j → d.slots k ≠ none) →
      R (some j) d) :
    Yields E t getFirstAvailableIndex d R := by
  refine search (fun j => d.slots j ≠ none) (fun j hj hbefore => ?_) hnone
  refine bind (slot ?_)
  cases hslot : d.slots j with
  | some b => exact ret ⟨fun _ => ⟨rfl, by simp⟩, nofun⟩
  | none =>
    refine ret ⟨nofun, fun x hx => ?_⟩
    obtain rfl := Option.some.inj hx
    exact hsome j hj hslot hbefore

/-- What a login comes to: a trader of this name gets a reference, whether it is logged in or not,
or there are too many traders, or a new one is put in the first free slot. -/
theorem traderLogin {fd : Int} {name : CString} {R : Option Nat → Roster → Prop}
    (hknown : ∀ r j b it, d.slots j = some b → d.items b = some it →
      strcmpEq it.name name = true →
      R r (d.setItem b { it with ref := it.ref + 1, held := some (it.held.getD 0) }))
    (hfull : d.Unknown name → d.count ≥ maxTraders → R none d)
    (hnew : ∀ b j, d.Unknown name → d.count < maxTraders → d.items b = none →
      d.slots j = none → (∀ k, k < j → d.slots k ≠ none) →
      R (some b) { d.setItem b ⟨2, name, some 0⟩ with
        slots := Function.update d.slots j (some b)
        count := d.count + 1 })
    (hroom : d.count < maxTraders → ∃ j, j < maxTraders ∧ d.slots j = none) :
    Yields E t (traderLogin fd name) d R := by
  refine scope (bind (checkOldTraderAndLogin (fun hunknown => ?_)
    fun j b it hslot hit hname => ?_))
  · refine bind (count ?_)
    split_ifs with hfit
    · exact ret (hfull hunknown hfit)
    · have hlt : d.count < maxTraders := by omega
      refine bind (count (bind (setCount (bind (mallocTrader fun b it hb hzero => ?_)))))
      refine bind (traderRef fun it₁ hit₁ => bind (traderRef fun it₂ hit₂ => bind (storeFd ?_)))
      rw [Roster.setItem_self] at hit₁ hit₂
      obtain rfl := Option.some.inj hit₁
      obtain rfl := Option.some.inj hit₂
      refine bind (storeAsset (x := .balance) (bind (storeAsset (x := .inventory)
        (bind (storeName fun it₃ hit₃ => bind (mutexInit fun it₄ hit₄ => ?_))))))
      rw [Roster.setItem_self] at hit₃ hit₄
      obtain rfl := Option.some.inj hit₃
      obtain rfl := Option.some.inj hit₄
      simp only [Roster.setItem_setItem]
      refine bind (getFirstAvailableIndex (fun hfull => ?_) fun j hj hfree hbefore => ?_)
      · obtain ⟨j, hj, hfree⟩ := hroom hlt
        exact absurd hfree (hfull j hj)
      · refine bind (setSlot (ret ?_))
        have hnew' := hnew b j hunknown hlt hb hfree hbefore
        simpa [Roster.setItem, hzero] using hnew'
  · refine bind (load (f := .fd) fun tr it' hit' _ => ?_)
    split_ifs
    · exact ret (hknown none j b it hslot hit hname)
    · exact bind (storeFd (ret (hknown (some b) j b it hslot hit hname)))

end Yields

/-! ## The invariant -/

namespace Roster

structure Layout (d : Roster) : Prop where
  below : ∀ i a, d.slots i = some a → i < d.count
  room : d.count ≤ maxTraders
  live : ∀ i a, d.slots i = some a → ∃ it, d.items a = some it
  stored : ∀ a it, d.items a = some it → ∃ i, d.slots i = some a
  names : ∀ i j a b it it', d.slots i = some a → d.slots j = some b → d.items a = some it →
    d.items b = some it' → it.name.text = it'.name.text → i = j
  owned : ∀ a it, d.items a = some it → it.name.block ∈ d.blocks
  apart : ∀ a b it it', d.items a = some it → d.items b = some it' →
    it.name.block = it'.name.block → a = b
  unlocked : ∀ a it, d.items a = some it → it.held = some 0

namespace Layout

variable {d : Roster} {a : Nat} {it it' : Item}

theorem place (h : d.Layout) (hit : d.items a = some it) : ∃ i, d.Place a i it.name := by
  obtain ⟨i, hslot⟩ := h.stored a it hit
  refine ⟨i, (h.below i a hslot).trans_le h.room, hslot, fun j hj b itb hb hitb => ?_⟩
  by_contra hname
  have heq := strcmpEq_iff.mp (by simpa using hname)
  have hji := h.names j i b a itb it hb hslot hitb hit heq
  omega

theorem exists_free (h : d.Layout) (hcount : d.count < maxTraders) :
    ∃ j, j < maxTraders ∧ d.slots j = none := by
  refine ⟨d.count, hcount, ?_⟩
  by_contra hsome
  obtain ⟨a, hslot⟩ := Option.ne_none_iff_exists'.mp hsome
  have hlt := h.below d.count a hslot
  omega

/-- The trader in a slot is the only one with its name. -/
theorem slot_unique (h : d.Layout) {i j : Nat} (hi : d.slots i = some a)
    (hj : d.slots j = some a) : i = j := by
  obtain ⟨it, hit⟩ := h.live i a hi
  exact h.names i j a a it it hi hj hit hit rfl

/-- A trader's reference count changes. -/
theorem setItem (h : d.Layout) (hit : d.items a = some it) (hname : it'.name = it.name)
    (hheld : it'.held = some 0) : (d.setItem a it').Layout := by
  have hback : ∀ b itb, (d.setItem a it').items b = some itb →
      ∃ itb', d.items b = some itb' ∧ itb.name = itb'.name ∧ itb.held = some 0 := by
    intro b itb hb
    by_cases hba : b = a
    · subst hba
      obtain rfl := Option.some.inj ((setItem_self d b it').symm.trans hb)
      exact ⟨it, hit, hname, hheld⟩
    · rw [setItem_of_ne d it' hba] at hb
      exact ⟨itb, hb, rfl, h.unlocked b itb hb⟩
  constructor
  case below => exact h.below
  case room => exact h.room
  case live =>
    intro i b hslot
    by_cases hba : b = a
    · subst hba
      exact ⟨it', setItem_self d b it'⟩
    · rw [setItem_of_ne d it' hba]
      exact h.live i b hslot
  case stored =>
    intro b itb hb
    obtain ⟨itb', hb', _⟩ := hback b itb hb
    exact h.stored b itb' hb'
  case names =>
    intro i j b c itb itc hi hj hb hc htext
    obtain ⟨itb', hb', hnb, _⟩ := hback b itb hb
    obtain ⟨itc', hc', hnc, _⟩ := hback c itc hc
    rw [hnb, hnc] at htext
    exact h.names i j b c itb' itc' hi hj hb' hc' htext
  case owned =>
    intro b itb hb
    obtain ⟨itb', hb', hnb, _⟩ := hback b itb hb
    rw [hnb]
    exact h.owned b itb' hb'
  case apart =>
    intro b c itb itc hb hc hblock
    obtain ⟨itb', hb', hnb, _⟩ := hback b itb hb
    obtain ⟨itc', hc', hnc, _⟩ := hback c itc hc
    rw [hnb, hnc] at hblock
    exact h.apart b c itb' itc' hb' hc' hblock
  case unlocked =>
    intro b itb hb
    obtain ⟨_, _, _, hfree⟩ := hback b itb hb
    exact hfree

/-- A trader is taken out of its slot and freed. -/
theorem remove (h : d.Layout) {i : Nat} (hit : d.items a = some it) (hslot : d.slots i = some a) :
    (d.remove a i it.name.block).Layout := by
  have hitems : ∀ b itb, (d.remove a i it.name.block).items b = some itb →
      b ≠ a ∧ d.items b = some itb := by
    intro b itb hb
    have hba : b ≠ a := by
      rintro rfl
      cases (remove_self d b i it.name.block).symm.trans hb
    exact ⟨hba, (d.remove_of_ne i it.name.block hba).symm.trans hb⟩
  have hslots : ∀ j b, (d.remove a i it.name.block).slots j = some b →
      j ≠ i ∧ d.slots j = some b := by
    intro j b hj
    have hji : j ≠ i := by
      rintro rfl
      simp [Roster.remove] at hj
    exact ⟨hji, (d.remove_slot_of_ne a it.name.block hji).symm.trans hj⟩
  constructor
  case below => exact fun j b hj => h.below j b (hslots j b hj).2
  case room => exact h.room
  case live =>
    intro j b hj
    obtain ⟨hji, hj'⟩ := hslots j b hj
    have hba : b ≠ a := by
      rintro rfl
      exact hji (h.slot_unique hj' hslot)
    obtain ⟨itb, hb⟩ := h.live j b hj'
    exact ⟨itb, (d.remove_of_ne i it.name.block hba).trans hb⟩
  case stored =>
    intro b itb hb
    obtain ⟨hba, hb'⟩ := hitems b itb hb
    obtain ⟨j, hj⟩ := h.stored b itb hb'
    have hji : j ≠ i := by
      rintro rfl
      exact hba (Option.some.inj (hj.symm.trans hslot))
    exact ⟨j, (d.remove_slot_of_ne a it.name.block hji).trans hj⟩
  case names =>
    intro j k b c itb itc hj hk hb hc
    exact h.names j k b c itb itc (hslots j b hj).2 (hslots k c hk).2 (hitems b itb hb).2
      (hitems c itc hc).2
  case owned =>
    intro b itb hb
    obtain ⟨hba, hb'⟩ := hitems b itb hb
    have hblock : itb.name.block ≠ it.name.block := fun heq => hba (h.apart b a itb it hb' hit heq)
    exact (List.mem_erase_of_ne hblock).mpr (h.owned b itb hb')
  case apart =>
    intro b c itb itc hb hc
    exact h.apart b c itb itc (hitems b itb hb).2 (hitems c itc hc).2
  case unlocked => exact fun b itb hb => h.unlocked b itb (hitems b itb hb).2

/-- A new trader is put in the first free slot. -/
theorem insert (h : d.Layout) {i : Nat} {name : CString} {ref : Int} (hcount : d.count < maxTraders)
    (hnone : d.items a = none) (hslot : d.slots i = none)
    (hfirst : ∀ j, j < i → d.slots j ≠ none) (hunknown : d.Unknown name)
    (hname : name.block ∈ d.blocks)
    (hown : ∀ b it, d.items b = some it → it.name.block ≠ name.block) :
    Layout { d.setItem a ⟨ref, name, some 0⟩ with
      slots := Function.update d.slots i (some a)
      count := d.count + 1 } := by
  -- the slot after the last one counted is free, so the first free one is not beyond it
  have hle : i ≤ d.count := by
    by_contra hlt
    obtain ⟨b, hb⟩ := Option.ne_none_iff_exists'.mp (hfirst d.count (by omega))
    have hbelow := h.below d.count b hb
    omega
  have hnew : ∀ j b it, d.slots j = some b → d.items b = some it → it.name.text ≠ name.text := by
    intro j b it hj hb htext
    have hno := hunknown j ((h.below j b hj).trans_le h.room) b it hj hb
    rw [strcmpEq_iff.mpr htext] at hno
    cases hno
  have hitems : ∀ b itb, (d.setItem a ⟨ref, name, some 0⟩).items b = some itb →
      (b = a ∧ itb = ⟨ref, name, some 0⟩) ∨ (b ≠ a ∧ d.items b = some itb) := by
    intro b itb hb
    by_cases hba : b = a
    · subst hba
      exact .inl ⟨rfl, (Option.some.inj ((setItem_self d b _).symm.trans hb)).symm⟩
    · rw [setItem_of_ne d _ hba] at hb
      exact .inr ⟨hba, hb⟩
  have hslots : ∀ j b, Function.update d.slots i (some a) j = some b →
      (j = i ∧ b = a) ∨ (j ≠ i ∧ b ≠ a ∧ d.slots j = some b) := by
    intro j b hj
    by_cases hji : j = i
    · subst hji
      rw [Function.update_self] at hj
      exact .inl ⟨rfl, (Option.some.inj hj).symm⟩
    · rw [Function.update_of_ne hji] at hj
      obtain ⟨itb, hb⟩ := h.live j b hj
      refine .inr ⟨hji, ?_, hj⟩
      rintro rfl
      cases hnone.symm.trans hb
  constructor
  case below =>
    intro j b hj
    change j < d.count + 1
    rcases hslots j b hj with ⟨rfl, _⟩ | ⟨_, _, hj'⟩
    · omega
    · have hbelow := h.below j b hj'
      omega
  case room => exact hcount
  case live =>
    intro j b hj
    rcases hslots j b hj with ⟨_, rfl⟩ | ⟨_, hba, hj'⟩
    · exact ⟨_, setItem_self d b _⟩
    · obtain ⟨itb, hb⟩ := h.live j b hj'
      exact ⟨itb, (setItem_of_ne d _ hba).trans hb⟩
  case stored =>
    intro b itb hb
    rcases hitems b itb hb with ⟨rfl, _⟩ | ⟨_, hb'⟩
    · exact ⟨i, Function.update_self ..⟩
    · obtain ⟨j, hj⟩ := h.stored b itb hb'
      have hji : j ≠ i := by
        rintro rfl
        cases hslot.symm.trans hj
      exact ⟨j, (Function.update_of_ne hji _ _).trans hj⟩
  case names =>
    intro j k b c itb itc hj hk hb hc htext
    rcases hslots j b hj with ⟨rfl, rfl⟩ | ⟨_, hba, hj'⟩
    · rcases hslots k c hk with ⟨rfl, rfl⟩ | ⟨_, hca, hk'⟩
      · rfl
      · rcases hitems b itb hb with ⟨_, rfl⟩ | ⟨hbb, _⟩
        · rw [setItem_of_ne d _ hca] at hc
          exact absurd htext.symm (hnew k c itc hk' hc)
        · exact absurd rfl hbb
    · rw [setItem_of_ne d _ hba] at hb
      rcases hslots k c hk with ⟨rfl, rfl⟩ | ⟨_, hca, hk'⟩
      · rcases hitems c itc hc with ⟨_, rfl⟩ | ⟨hcc, _⟩
        · exact absurd htext (hnew j b itb hj' hb)
        · exact absurd rfl hcc
      · rw [setItem_of_ne d _ hca] at hc
        exact h.names j k b c itb itc hj' hk' hb hc htext
  case owned =>
    intro b itb hb
    rcases hitems b itb hb with ⟨_, rfl⟩ | ⟨_, hb'⟩
    · exact hname
    · exact h.owned b itb hb'
  case apart =>
    intro b c itb itc hb hc hblock
    rcases hitems b itb hb with ⟨rfl, rfl⟩ | ⟨_, hb'⟩
    · rcases hitems c itc hc with ⟨rfl, rfl⟩ | ⟨_, hc'⟩
      · rfl
      · exact absurd hblock.symm (hown c itc hc')
    · rcases hitems c itc hc with ⟨rfl, rfl⟩ | ⟨_, hc'⟩
      · exact absurd hblock (hown b itb hb')
      · exact h.apart b c itb itc hb' hc' hblock
  case unlocked =>
    intro b itb hb
    rcases hitems b itb hb with ⟨_, rfl⟩ | ⟨_, hb'⟩
    · rfl
    · exact h.unlocked b itb hb'

/-- Memory that holds no name is taken or freed. -/
theorem setBlocks (h : d.Layout) (l : List Nat)
    (hl : ∀ a it, d.items a = some it → it.name.block ∈ d.blocks → it.name.block ∈ l) :
    Layout { d with blocks := l } :=
  { h with owned := fun a it hit => hl a it hit (h.owned a it hit) }

end Layout

end Roster

end BourseServer
