import BourseServer.Server.Service
import BourseServer.Trader.Effects

/-!
# The directory

The directory is what login, logout and the reference operations work on: the table and, for
each trader, its reference count, its descriptor and its name. When no other thread interferes,
each of these functions comes to a function of the directory.
-/
namespace BourseServer

open Concurrency

structure Entry where
  ref : Int
  fd : Int
  name : CString

def Trader.entry (tr : Trader) : Entry := ⟨tr.ref, tr.fd, tr.name⟩

structure Directory where
  entries : Nat → Option Entry
  slots : Nat → Option Nat
  count : Nat
  session : Nat → Option Nat

namespace Directory

def setEntry (d : Directory) (a : Nat) (en : Entry) : Directory :=
  { d with entries := Function.update d.entries a (some en) }

@[simp] theorem setEntry_self (d : Directory) (a : Nat) (en : Entry) :
    (d.setEntry a en).entries a = some en := Function.update_self ..

theorem setEntry_eq {d : Directory} {a : Nat} {en : Entry} (h : d.entries a = some en) :
    d.setEntry a en = d := by
  unfold setEntry
  rw [Function.update_eq_self_iff.mpr h.symm]

theorem setEntry_of_ne (d : Directory) {a b : Nat} (en : Entry) (h : b ≠ a) :
    (d.setEntry a en).entries b = d.entries b := Function.update_of_ne h ..

@[simp] theorem setEntry_setEntry (d : Directory) (a : Nat) (en en' : Entry) :
    (d.setEntry a en).setEntry a en' = d.setEntry a en' := by
  simp [setEntry]

/-- The trader in a slot, if it has this name. -/
def slotNamed (d : Directory) (name : CString) (i : Nat) : Option Nat :=
  (d.slots i).filter fun a => (d.entries a).any fun en => strcmpEq en.name name

/-- The trader in the first slot whose trader has this name. -/
def named (d : Directory) (name : CString) : Option Nat :=
  (List.range maxTraders).findSome? (d.slotNamed name)

theorem named_of_first {d : Directory} {name : CString} {i a : Nat} (hi : i < maxTraders)
    (h : d.slotNamed name i = some a) (hfirst : ∀ j, j < i → d.slotNamed name j = none) :
    d.named name = some a := by
  obtain ⟨k, hk⟩ : ∃ k, maxTraders = i + (k + 1) := ⟨maxTraders - i - 1, by omega⟩
  have hbefore : (List.range i).findSome? (d.slotNamed name) = none := by
    rw [List.findSome?_eq_none_iff]
    intro j hj
    exact hfirst j (List.mem_range.mp hj)
  unfold named
  rw [hk, List.range_add, List.findSome?_append, hbefore, List.range_succ_eq_map]
  simp [h]

theorem named_eq_none {d : Directory} {name : CString}
    (h : ∀ i, i < maxTraders → d.slotNamed name i = none) : d.named name = none := by
  unfold named
  rw [List.findSome?_eq_none_iff]
  intro i hi
  exact h i (List.mem_range.mp hi)

theorem slotNamed_of_entry {d : Directory} (name : CString) {i a : Nat} {en : Entry}
    (hslot : d.slots i = some a) (hen : d.entries a = some en) :
    d.slotNamed name i = if strcmpEq en.name name then some a else none := by
  simp [slotNamed, hslot, hen, Option.filter]

end Directory

variable {E : Exchange}

def State.directory (s : State E) : Directory where
  entries a := (s.traders a).map Trader.entry
  slots := s.allTraders
  count := s.count
  session := s.hist.session

/-! ## Specifications -/

/-- A new trader's memory holds 0 where its reference count will be. -/
def zeroRef : Condition (machine E) := fun _ e _ => ∀ a junk, e = .trader a junk → junk.ref = 0

/-- What the code `p` of thread `t` comes to in directory `d`. -/
def Spec (E : Exchange) (t : Nat) {α : Type} (p : Code α) (d : Directory)
    (R : α → Directory → Prop) : Prop :=
  ∀ s : State E, s.directory = d →
    Partial (machine E) zeroRef t p (fun r s' => R r (State.directory s')) s

namespace Spec

variable {α β : Type} {t a : Nat} {d : Directory} {s : State E}

theorem ret {x : α} {R : α → Directory → Prop} (h : R x d) : Spec E t (.ret x) d R := by
  rintro s rfl
  exact Partial.ret h

theorem bind {p : Code α} {f : α → Code β} {R : β → Directory → Prop}
    (h : Spec E t p d fun x d' => Spec E t (f x) d' R) : Spec E t (p >>= f) d R := by
  rintro s rfl
  exact Partial.bind ((h s rfl).mono fun x s' hx => hx s' rfl)

/-- The call stack is not part of the directory. -/
theorem scope {c : Call} {value : α → Value} {p : Code α} {R : α → Directory → Prop}
    (h : Spec E t p d R) : Spec E t (scope c value p) d R := by
  rintro s rfl
  have hbody := h ({ s with hist := s.hist.enter t c } : State E) rfl
  refine Partial.scope (hbody.mono fun x s' hx => ?_)
  have hsame : State.directory ({ s' with hist := s'.hist.leave t (value x) } : State E) =
      State.directory s' := by
    simp [State.directory, History.leave_session]
  rwa [hsame]

theorem directory_setTrader (a : Nat) (tr : Trader) :
    (s.setTrader a (some tr)).directory = s.directory.setEntry a tr.entry := by
  have hentries : (fun b => (Function.update s.traders a (some tr) b).map Trader.entry) =
      Function.update (fun b => (s.traders b).map Trader.entry) a (some tr.entry) := by
    funext b
    by_cases hb : b = a
    · subst hb
      simp
    · simp [hb]
  simp [State.directory, State.setTrader, Directory.setEntry, hentries]

theorem entry_of_trader {tr : Trader} (h : s.traders a = some tr) :
    s.directory.entries a = some tr.entry := by
  simp [State.directory, h]

variable {R : Unit → Directory → Prop}

/-- An action on the mutex or on the account of a trader. -/
theorem still {o : Op} {R : o.Reply → Directory → Prop}
    (ho : ∀ (s : State E) e r s', exec t o e s = .done r s' → ∃ tr tr',
      s.traders a = some tr ∧ tr'.entry = tr.entry ∧
        s'.directory = (s.setTrader a (some tr')).directory)
    (h : ∀ r, R r d) : Spec E t (.act (I := bourse) o) d R := by
  rintro s rfl
  refine Partial.act fun e r s' he _ => ?_
  obtain ⟨tr, tr', htr, hen, hs'⟩ := ho s e r s' he
  have hsame : s'.directory = s.directory := by
    rw [hs', directory_setTrader, hen]
    exact Directory.setEntry_eq (entry_of_trader htr)
  rw [hsame]
  exact h r

theorem lock (h : R () d) : Spec E t (lock a) d R := by
  refine still (a := a) (fun s e r s' he => ?_) fun _ => h
  obtain ⟨tr, m, htr, _, rfl⟩ := exec_lock he
  exact ⟨tr, { tr with mutex := m }, htr, rfl, rfl⟩

theorem unlock (h : R () d) : Spec E t (unlock a) d R := by
  refine still (a := a) (fun s e r s' he => ?_) fun _ => h
  obtain ⟨tr, htr, rfl⟩ := exec_unlock he
  exact ⟨tr, { tr with mutex := tr.mutex.unlock t }, htr, rfl, rfl⟩

theorem mutexInit (h : R () d) : Spec E t (mutexInit a) d R := by
  refine still (a := a) (fun s e r s' he => ?_) fun _ => h
  obtain ⟨tr, htr, rfl⟩ := exec_mutexInit he
  exact ⟨tr, { tr with mutex := .fresh }, htr, rfl, rfl⟩

theorem storeAsset {x : Asset} {v : UInt32} (h : R () d) : Spec E t (storeAsset x a v) d R := by
  cases x with
  | balance =>
    refine still (o := .store .balance a v) (a := a) (fun s e r s' he => ?_) fun _ => h
    obtain ⟨tr, htr, rfl⟩ := exec_store he
    exact ⟨tr, tr.set .balance v, htr, rfl, rfl⟩
  | inventory =>
    refine still (o := .store .inventory a v) (a := a) (fun s e r s' he => ?_) fun _ => h
    obtain ⟨tr, htr, rfl⟩ := exec_store he
    exact ⟨tr, tr.set .inventory v, htr, rfl, rfl⟩

theorem load {f : Field} {g : Entry → f.Ty} (hg : ∀ tr : Trader, tr.get f = g tr.entry)
    {R : f.Ty → Directory → Prop} (h : ∀ en, d.entries a = some en → R (g en) d) :
    Spec E t (load f a) d R := by
  rintro s rfl
  refine Partial.act fun e r s' he _ => ?_
  obtain ⟨tr, htr, rfl, rfl⟩ := exec_load (t := t) (e := e) he
  rw [hg tr]
  exact h tr.entry (entry_of_trader htr)

theorem loadRef {R : Int → Directory → Prop} (h : ∀ en, d.entries a = some en → R en.ref d) :
    Spec E t (BourseServer.load .ref a) d R :=
  load (f := .ref) (g := Entry.ref) (fun _ => rfl) h

theorem loadFd {R : Int → Directory → Prop} (h : ∀ en, d.entries a = some en → R en.fd d) :
    Spec E t (BourseServer.load .fd a) d R :=
  load (f := .fd) (g := Entry.fd) (fun _ => rfl) h

theorem loadName {R : CString → Directory → Prop}
    (h : ∀ en, d.entries a = some en → R en.name d) :
    Spec E t (BourseServer.load .name a) d R :=
  load (f := .name) (g := Entry.name) (fun _ => rfl) h

theorem storeRef {v : Int}
    (h : ∀ en, d.entries a = some en → R () (d.setEntry a { en with ref := v })) :
    Spec E t (store .ref a v) d R := by
  rintro s rfl
  refine Partial.act fun e r s' he _ => ?_
  obtain ⟨tr, htr, rfl⟩ := exec_store (f := .ref) (t := t) (e := e) he
  have hR := h tr.entry (entry_of_trader htr)
  exact (directory_setTrader (s := s) a (tr.set .ref v)) ▸ hR

theorem storeName {v : CString}
    (h : ∀ en, d.entries a = some en → R () (d.setEntry a { en with name := v })) :
    Spec E t (store .name a v) d R := by
  rintro s rfl
  refine Partial.act fun e r s' he _ => ?_
  obtain ⟨tr, htr, rfl⟩ := exec_store (f := .name) (t := t) (e := e) he
  have hR := h tr.entry (entry_of_trader htr)
  exact (directory_setTrader (s := s) a (tr.set .name v)) ▸ hR

theorem storeFd {v : Int} (h : ∀ en, d.entries a = some en →
      R () { d.setEntry a { en with fd := v } with
        session := Function.update d.session t (if v = -1 then none else some a) }) :
    Spec E t (store .fd a v) d R := by
  rintro s rfl
  refine Partial.act fun e r s' he _ => ?_
  obtain ⟨tr, htr, rfl⟩ := exec_store (f := .fd) (t := t) (e := e) he
  have hR := h tr.entry (entry_of_trader htr)
  change R r { (s.setTrader a (some (tr.set .fd v))).directory with
    session := Function.update s.hist.session t (if v = -1 then none else some a) }
  rw [directory_setTrader]
  exact hR

theorem slot {i : Nat} {R : Option Nat → Directory → Prop} (h : R (d.slots i) d) :
    Spec E t (slot i) d R := by
  rintro s rfl
  refine Partial.act fun e r s' he _ => ?_
  obtain ⟨rfl, rfl⟩ := exec_slot (t := t) (e := e) he
  exact h

theorem setSlot {i : Nat} {v : Option Nat}
    (h : R () { d with slots := Function.update d.slots i v }) :
    Spec E t (setSlot i v) d R := by
  rintro s rfl
  refine Partial.act fun e r s' he _ => ?_
  cases he
  exact h

theorem count {R : Nat → Directory → Prop} (h : R d.count d) : Spec E t count d R := by
  rintro s rfl
  refine Partial.act fun e r s' he _ => ?_
  cases he
  exact h

theorem setCount {n : Nat} (h : R () { d with count := n }) : Spec E t (setCount n) d R := by
  rintro s rfl
  refine Partial.act fun e r s' he _ => ?_
  cases he
  exact h

theorem mallocTrader {R : Nat → Directory → Prop}
    (h : ∀ b en, d.entries b = none → en.ref = 0 → R b (d.setEntry b en)) :
    Spec E t mallocTrader d R := by
  rintro s rfl
  refine Partial.act fun e b s' he hok => ?_
  obtain ⟨junk, hchoice, hb, rfl⟩ := exec_mallocTrader (t := t) (e := e) he
  rw [directory_setTrader]
  refine h b _ ?_ (hok b junk hchoice)
  simp [State.directory, hb]

theorem deref {p : Option Nat} {R : Nat → Directory → Prop} (h : ∀ b, p = some b → R b d) :
    Spec E t (deref p) d R := by
  cases p with
  | some b => exact ret (h b rfl)
  | none =>
    rintro s rfl b s' hr
    obtain ⟨e, r, _, _, _, _⟩ := Runs.op_iff.mp hr
    exact r.elim

/-- A bounded search whose body leaves the directory alone until it finds something. -/
theorem search {body : Nat → Code (Option α)} {n : Nat} {R : Option α → Directory → Prop}
    (A : Nat → Prop)
    (hbody : ∀ j, j < n → (∀ i, i < j → A i) → Spec E t (body j) d fun r d' =>
      (r = none → d' = d ∧ A j) ∧ ∀ x, r = some x → R (some x) d')
    (hend : (∀ i, i < n → A i) → R none d) : Spec E t (Prog.search n body) d R := by
  rintro s hs
  refine Partial.searchFrom (fun j (s' : State E) => s'.directory = d ∧ ∀ i, i < j → A i)
    ⟨hs, by simp⟩ ?_ ?_
  · intro j s' _ hj ⟨hs', hA⟩
    refine (hbody j (by omega) hA s' hs').mono fun r s'' hr => ⟨fun hnone => ?_, hr.2⟩
    obtain ⟨hsame, hj⟩ := hr.1 hnone
    refine ⟨hsame, fun i hi => ?_⟩
    rcases Nat.lt_succ_iff_lt_or_eq.mp hi with hlt | rfl
    · exact hA i hlt
    · exact hj
  · intro s' hs'
    have hR := hend (by simpa using hs'.2)
    rw [← hs'.1] at hR
    exact hR

/-! ## The functions of the trader module -/

theorem traderRef {R : Nat → Directory → Prop}
    (h : ∀ en, d.entries a = some en → R a (d.setEntry a { en with ref := en.ref + 1 })) :
    Spec E t (traderRef a) d R := by
  refine scope (bind (lock (bind (loadRef fun en hen => bind (storeRef fun en' hen' => ?_)))))
  obtain rfl := Option.some.inj (hen.symm.trans hen')
  exact bind (unlock (ret (h en hen)))

theorem slotName {i : Nat} {R : CString → Directory → Prop}
    (h : ∀ b en, d.slots i = some b → d.entries b = some en → R en.name d) :
    Spec E t (slotName i) d R :=
  bind (slot (bind (deref fun b hb => loadName fun en hen => h b en hb hen)))

/-- A trader that keeps a reference is not removed. -/
theorem traderUnref {en : Entry} (hen : d.entries a = some en) (hone : en.ref ≠ 1)
    (h : R () (d.setEntry a { en with ref := en.ref - 1 })) : Spec E t (traderUnref a) d R := by
  refine scope (bind (lock (bind (loadRef fun en' hen' => bind (storeRef fun en'' hen'' => ?_)))))
  obtain rfl := Option.some.inj (hen.symm.trans hen')
  obtain rfl := Option.some.inj (hen.symm.trans hen'')
  refine bind (bind (loadRef fun en' hen' => ?_))
  have hleft : en'.ref ≠ 0 := by
    rw [Directory.setEntry_self] at hen'
    obtain rfl := Option.some.inj hen'
    change en.ref - 1 ≠ 0
    omega
  rw [if_pos hleft]
  exact ret (unlock h)

theorem checkOldTraderAndLogin {fd : Int} {name : CString} {R : Option Nat → Directory → Prop}
    (hnone : d.named name = none → R none d)
    (hsome : ∀ b en, d.named name = some b → d.entries b = some en →
      R (some b) (d.setEntry b { en with ref := en.ref + 1 })) :
    Spec E t (checkOldTraderAndLogin fd name) d R := by
  refine search (fun i => d.slotNamed name i = none) (fun i hi hfirst => ?_) fun h =>
    hnone (Directory.named_eq_none h)
  refine bind (slot ?_)
  cases hslot : d.slots i with
  | none => exact ret ⟨fun _ => ⟨rfl, by simp [Directory.slotNamed, hslot]⟩, nofun⟩
  | some b =>
    refine bind (slotName fun b' en hb' hen => ?_)
    obtain rfl := Option.some.inj (hslot.symm.trans hb')
    have hnamed := Directory.slotNamed_of_entry name hslot hen
    split_ifs with heq
    · rw [if_pos heq] at hnamed
      refine bind (slot (bind (deref fun b' hb' => ?_)))
      obtain rfl := Option.some.inj (hslot.symm.trans hb')
      refine bind (traderRef fun en' hen' => bind (slot (bind (deref fun b' hb' => ret ?_))))
      obtain rfl := Option.some.inj (hslot.symm.trans hb')
      obtain rfl := Option.some.inj (hen.symm.trans hen')
      refine ⟨nofun, fun x hx => ?_⟩
      obtain rfl := Option.some.inj hx
      exact hsome b en (Directory.named_of_first hi hnamed hfirst) hen
    · rw [if_neg heq] at hnamed
      exact ret ⟨fun _ => ⟨rfl, hnamed⟩, nofun⟩

theorem getFirstAvailableIndex {R : Option Nat → Directory → Prop}
    (hnone : (∀ i, i < maxTraders → d.slots i ≠ none) → R none d)
    (hsome : ∀ i, i < maxTraders → d.slots i = none → R (some i) d) :
    Spec E t getFirstAvailableIndex d R := by
  refine search (fun i => d.slots i ≠ none) (fun i hi _ => ?_) hnone
  refine bind (slot ?_)
  cases hslot : d.slots i with
  | some b => exact ret ⟨fun _ => ⟨rfl, by simp⟩, nofun⟩
  | none =>
    refine ret ⟨nofun, fun x hx => ?_⟩
    obtain rfl := Option.some.inj hx
    exact hsome i hi hslot

/-- What a login comes to: the trader of this name is logged in, or can be; or there is none, and
there are already too many traders, or a new one is made. -/
theorem traderLogin {fd : Int} {name : CString} {R : Option Nat → Directory → Prop}
    (hrejected : ∀ b en, d.named name = some b → d.entries b = some en → en.fd ≠ -1 →
      R none (d.setEntry b { en with ref := en.ref + 1 }))
    (hagain : ∀ b en, d.named name = some b → d.entries b = some en → en.fd = -1 →
      R (some b) { d.setEntry b ⟨en.ref + 1, fd, en.name⟩ with
        session := Function.update d.session t (if fd = -1 then none else some b) })
    (hfull : d.named name = none → d.count ≥ maxTraders → R none d)
    (hnew : ∀ b i, d.named name = none → d.count < maxTraders → d.entries b = none →
      i < maxTraders → d.slots i = none →
      R (some b) { d.setEntry b ⟨2, fd, name⟩ with
        slots := Function.update d.slots i (some b)
        count := d.count + 1
        session := Function.update d.session t (if fd = -1 then none else some b) })
    (hlost : ∀ b, d.named name = none → d.count < maxTraders → d.entries b = none →
      (∀ i, i < maxTraders → d.slots i ≠ none) →
      R none { d.setEntry b ⟨2, fd, name⟩ with
        count := d.count + 1
        session := Function.update d.session t (if fd = -1 then none else some b) }) :
    Spec E t (traderLogin fd name) d R := by
  refine scope (bind (checkOldTraderAndLogin (fun hnamed => ?_) fun b en hnamed hen => ?_))
  · refine bind (count ?_)
    split_ifs with hfit
    · exact ret (hfull hnamed hfit)
    · have hlt : d.count < maxTraders := by omega
      refine bind (count (bind (setCount (bind (mallocTrader fun b en hb hzero => ?_)))))
      refine bind (traderRef fun en₁ hen₁ => bind (traderRef fun en₂ hen₂ =>
        bind (storeFd fun en₃ hen₃ => ?_)))
      rw [Directory.setEntry_self] at hen₁ hen₂ hen₃
      obtain rfl := Option.some.inj hen₁
      obtain rfl := Option.some.inj hen₂
      obtain rfl := Option.some.inj hen₃
      refine bind (storeAsset (x := .balance) (bind (storeAsset (x := .inventory)
        (bind (storeName fun en₄ hen₄ => bind (mutexInit ?_))))))
      have hen₄' : some (⟨2, fd, en.name⟩ : Entry) = some en₄ := by
        rw [← hen₄]
        simp [Directory.setEntry, hzero]
      obtain rfl := Option.some.inj hen₄'
      refine bind (getFirstAvailableIndex (fun hfree => ret ?_) fun i hi hfree => ?_)
      · simpa [Directory.setEntry, hzero] using hlost b hnamed hlt hb hfree
      · refine bind (setSlot (ret ?_))
        simpa [Directory.setEntry, hzero] using hnew b i hnamed hlt hb hi hfree
  · refine bind (loadFd fun en' hen' => ?_)
    rw [Directory.setEntry_self] at hen'
    obtain rfl := Option.some.inj hen'
    dsimp only
    split_ifs with hfd
    · exact ret (hrejected b en hnamed hen hfd)
    · refine bind (storeFd fun en' hen' => ret ?_)
      rw [Directory.setEntry_self] at hen'
      obtain rfl := Option.some.inj hen'
      have hR := hagain b en hnamed hen (not_not.mp hfd)
      rwa [Directory.setEntry_setEntry]

/-- A logout of a trader who is in the table and keeps a reference. -/
theorem traderLogout {en : Entry} {R : Unit → Directory → Prop} (hen : d.entries a = some en)
    (hone : en.ref ≠ 1) (hstored : ∃ i, i < maxTraders ∧ d.slots i = some a)
    (h : R () { d.setEntry a ⟨en.ref - 1, -1, en.name⟩ with
      session := Function.update d.session t none }) :
    Spec E t (traderLogout a) d R := by
  refine scope (bind (lock (bind (search (fun i => d.slots i ≠ some a) (fun i hi _ => ?_)
    fun hno => ?_))))
  · refine bind (slot ?_)
    cases hslot : d.slots i with
    | none => exact ret ⟨fun _ => ⟨rfl, by simp⟩, nofun⟩
    | some b =>
      refine bind (slotName fun b' en₁ hb' hen₁ => bind (loadName fun en₂ hen₂ => ?_))
      obtain rfl := Option.some.inj (hslot.symm.trans hb')
      obtain rfl := Option.some.inj (hen.symm.trans hen₂)
      split_ifs with heq
      · refine bind (traderUnref hen hone (bind (storeFd fun en₃ hen₃ => ret ?_)))
        rw [Directory.setEntry_self] at hen₃
        obtain rfl := Option.some.inj hen₃
        refine ⟨nofun, fun _ _ => unlock ?_⟩
        simpa [Directory.setEntry] using h
      · refine ret ⟨fun _ => ⟨rfl, ?_⟩, nofun⟩
        rintro hba
        obtain rfl := Option.some.inj hba
        obtain rfl := Option.some.inj (hen.symm.trans hen₁)
        simp [strcmpEq] at heq
  · obtain ⟨i, hi, hslot⟩ := hstored
    exact absurd hslot (hno i hi)

end Spec

end BourseServer
