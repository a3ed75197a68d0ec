import BourseServer.Trader.Directory
import Mathlib.Data.Finset.Card
import Mathlib.Data.Finset.Range

/-!
# Reference counts

In a run of the functions of the trader module one after the other, the reference count of a
trader is that of the table's reference, of the reference of the session that is logged in, and
of the references that other holders have taken and not released. A login under the name of a
trader that is logged in is the exception: it is rejected, and the reference it has taken stays.

A count is an `int`. The runs are those in which no operation begins while the count of a trader
is `INT_MAX`; this takes more than 2^31 - 4 operations.
-/
namespace BourseServer

open Concurrency

namespace Directory

/-- The trader that a login under this name finds logged in already. -/
def busy (d : Directory) (name : CString) : Option Nat :=
  (d.named name).filter fun a => (d.entries a).any fun en => en.fd ≠ -1

/-- How many slots are in use. -/
def occupied (d : Directory) : Nat :=
  ((Finset.range maxTraders).filter fun i => (d.slots i).isSome).card

/-- Each count is that of the table, of the session, and of the `held` references. -/
structure Counts (d : Directory) (held : Nat → Nat) : Prop where
  exact : ∀ a en, d.entries a = some en →
    en.ref = 1 + (if en.fd ≠ -1 then 1 else 0) + held a
  fresh : ∀ a, d.entries a = none → held a = 0
  stored : ∀ a en, d.entries a = some en → ∃ i, i < maxTraders ∧ d.slots i = some a
  room : d.occupied ≤ d.count
  session : ∀ t a, d.session t = some a → ∃ en, d.entries a = some en ∧ en.fd ≠ -1
  unique : ∀ t u a, d.session t = some a → d.session u = some a → t = u

variable {d : Directory} {held held' : Nat → Nat} {a : Nat}

theorem Counts.live (h : d.Counts held) (ha : held a ≠ 0) : d.entries a ≠ none :=
  fun hnone => ha (h.fresh a hnone)

theorem exists_free (h : d.occupied < maxTraders) : ∃ i, i < maxTraders ∧ d.slots i = none := by
  by_contra hno
  have hall : (Finset.range maxTraders).filter (fun i => (d.slots i).isSome) =
      Finset.range maxTraders := by
    apply Finset.filter_true_of_mem
    intro i hi
    rw [Option.isSome_iff_ne_none]
    exact fun hfree => hno ⟨i, Finset.mem_range.mp hi, hfree⟩
  unfold occupied at h
  rw [hall, Finset.card_range] at h
  omega

/-- A trader is put in a free slot. -/
theorem occupied_fill {i : Nat} {v : Directory} (hi : i < maxTraders) (hfree : d.slots i = none)
    (hv : v.slots = Function.update d.slots i (some a)) : v.occupied = d.occupied + 1 := by
  have hinsert : (Finset.range maxTraders).filter (fun j => (v.slots j).isSome) =
      insert i ((Finset.range maxTraders).filter fun j => (d.slots j).isSome) := by
    ext j
    by_cases hj : j = i
    · subst hj
      simp [hv, hi]
    · simp [hv, hj]
  have hout : i ∉ (Finset.range maxTraders).filter fun j => (d.slots j).isSome := by
    simp [hfree]
  unfold occupied
  rw [hinsert, Finset.card_insert_of_notMem hout]

/-- The entry of one trader changes, and who is logged in as this trader. -/
theorem Counts.setEntry {en : Entry} (session : Nat → Option Nat) (h : d.Counts held)
    (hlive : d.entries a ≠ none)
    (hexact : en.ref = 1 + (if en.fd ≠ -1 then 1 else 0) + held' a)
    (hheld : ∀ b, b ≠ a → held' b = held b)
    (hself : ∀ t u, session t = some a → session u = some a → t = u ∧ en.fd ≠ -1)
    (hother : ∀ t b, b ≠ a → session t = some b → d.session t = some b) :
    Counts { d.setEntry a en with session := session } held' where
  exact b en' hen' := by
    by_cases hb : b = a
    · subst hb
      obtain rfl := Option.some.inj ((setEntry_self d b en).symm.trans hen')
      exact hexact
    · rw [hheld b hb]
      exact h.exact b en' ((setEntry_of_ne d en hb).symm.trans hen')
  fresh b hb := by
    have hba : b ≠ a := by
      rintro rfl
      cases (setEntry_self d b en).symm.trans hb
    rw [hheld b hba]
    exact h.fresh b ((setEntry_of_ne d en hba).symm.trans hb)
  stored b en' hen' := by
    by_cases hb : b = a
    · subst hb
      obtain ⟨en₀, hen₀⟩ := Option.ne_none_iff_exists'.mp hlive
      exact h.stored b en₀ hen₀
    · exact h.stored b en' ((setEntry_of_ne d en hb).symm.trans hen')
  room := h.room
  session t b ht := by
    by_cases hb : b = a
    · subst hb
      exact ⟨en, setEntry_self d b en, (hself t t ht ht).2⟩
    · obtain ⟨en', hen', hfd⟩ := h.session t b (hother t b hb ht)
      exact ⟨en', (setEntry_of_ne d en hb).trans hen', hfd⟩
  unique t u b ht hu := by
    by_cases hb : b = a
    · subst hb
      exact (hself t u ht hu).1
    · exact h.unique t u b (hother t b hb ht) (hother u b hb hu)

/-- References of one trader are taken or released. -/
theorem Counts.setRef {en : Entry} {r : Int} {k : Nat} (h : d.Counts held)
    (hen : d.entries a = some en) (hr : r - en.ref = k - held a) :
    (d.setEntry a { en with ref := r }).Counts (Function.update held a k) := by
  have hexact := h.exact a en hen
  apply h.setEntry d.session
  · simp [hen]
  · rw [Function.update_self]
    change r = 1 + (if en.fd ≠ -1 then 1 else 0) + (k : Int)
    omega
  · intro b hb
    rw [Function.update_of_ne hb]
  · intro u v hu hv
    obtain ⟨en', hen', hfd⟩ := h.session u a hu
    obtain rfl := Option.some.inj (hen.symm.trans hen')
    exact ⟨h.unique u v a hu hv, hfd⟩
  · exact fun _ _ _ hu => hu

/-- A new trader is put in a free slot. -/
theorem Counts.insert {i t : Nat} {fd : Int} {name : CString} (h : d.Counts held)
    (hnone : d.entries a = none) (hi : i < maxTraders) (hfree : d.slots i = none)
    (hfd : fd ≠ -1) :
    Counts { d.setEntry a ⟨2, fd, name⟩ with
      slots := Function.update d.slots i (some a)
      count := d.count + 1
      session := Function.update d.session t (some a) } held where
  exact b en hen := by
    by_cases hb : b = a
    · subst hb
      obtain rfl := Option.some.inj ((setEntry_self d b _).symm.trans hen)
      have hfresh := h.fresh b hnone
      simp [hfd, hfresh]
    · exact h.exact b en ((setEntry_of_ne d _ hb).symm.trans hen)
  fresh b hb := by
    by_cases hba : b = a
    · subst hba
      exact h.fresh b hnone
    · exact h.fresh b ((setEntry_of_ne d _ hba).symm.trans hb)
  stored b en hen := by
    by_cases hb : b = a
    · subst hb
      exact ⟨i, hi, Function.update_self ..⟩
    · obtain ⟨j, hj, hslot⟩ := h.stored b en ((setEntry_of_ne d _ hb).symm.trans hen)
      have hji : j ≠ i := by
        rintro rfl
        rw [hfree] at hslot
        cases hslot
      exact ⟨j, hj, (Function.update_of_ne hji ..).trans hslot⟩
  room := by
    have hfill := occupied_fill (a := a) hi hfree
      (v := { d.setEntry a ⟨2, fd, name⟩ with
        slots := Function.update d.slots i (some a)
        count := d.count + 1
        session := Function.update d.session t (some a) }) rfl
    have hroom := h.room
    dsimp only at hfill ⊢
    omega
  session u b hu := by
    dsimp only at hu
    by_cases hb : b = a
    · subst hb
      exact ⟨_, setEntry_self d b _, hfd⟩
    · have hut : u ≠ t := by
        rintro rfl
        rw [Function.update_self] at hu
        exact hb (Option.some.inj hu).symm
      rw [Function.update_of_ne hut] at hu
      obtain ⟨en, hen, hin⟩ := h.session u b hu
      exact ⟨en, (setEntry_of_ne d _ hb).trans hen, hin⟩
  unique u v b hu hv := by
    have hnot : ∀ w, d.session w ≠ some a := by
      intro w hw
      obtain ⟨en, hen, _⟩ := h.session w a hw
      rw [hnone] at hen
      cases hen
    have hold := h.unique u v b
    grind [Function.update_apply]

end Directory

/-! ## What the functions do to the counts -/

variable {E : Exchange} {t a : Nat} {d : Directory} {held : Nat → Nat}

open Directory

theorem counts_traderRef (h : d.Counts held) : Spec E t (traderRef a) d fun _ d' =>
    d'.Counts (Function.update held a (held a + 1)) := by
  apply Spec.traderRef
  intro en hen
  apply h.setRef hen
  push_cast
  omega

theorem counts_traderUnref (h : d.Counts held) (hheld : 0 < held a) :
    Spec E t (traderUnref a) d fun _ d' =>
      d'.Counts (Function.update held a (held a - 1)) := by
  have hlive := h.live (by omega : held a ≠ 0)
  obtain ⟨en, hen⟩ := Option.ne_none_iff_exists'.mp hlive
  have hexact := h.exact a en hen
  have hone : en.ref ≠ 1 := by
    split_ifs at hexact <;> omega
  apply Spec.traderUnref hen hone
  apply h.setRef hen
  omega

theorem counts_traderLogout (h : d.Counts held) (hs : d.session t = some a) :
    Spec E t (traderLogout a) d fun _ d' => d'.Counts held := by
  obtain ⟨en, hen, hfd⟩ := h.session t a hs
  have hexact := h.exact a en hen
  rw [if_pos hfd] at hexact
  apply Spec.traderLogout hen (by omega) (h.stored a en hen)
  apply h.setEntry
  · simp [hen]
  · simp
    omega
  · exact fun _ _ => rfl
  · intro u v hu _
    by_cases hut : u = t
    · subst hut
      rw [Function.update_self] at hu
      cases hu
    · rw [Function.update_of_ne hut] at hu
      exact absurd (h.unique u t a hu hs) hut
  · intro u b _ hu
    by_cases hut : u = t
    · subst hut
      rw [Function.update_self] at hu
      cases hu
    · rwa [Function.update_of_ne hut] at hu

theorem busy_of_named {name : CString} {en : Entry} (hnamed : d.named name = some a)
    (hen : d.entries a = some en) :
    d.busy name = if en.fd ≠ -1 then some a else none := by
  simp [busy, hnamed, hen, Option.filter]

theorem busy_of_not_named {name : CString} (hnamed : d.named name = none) :
    d.busy name = none := by
  simp [busy, hnamed]

theorem counts_traderLogin {fd : Int} {name : CString} (h : d.Counts held) (hfd : fd ≠ -1) :
    Spec E t (traderLogin fd name) d fun _ d' =>
      d'.Counts fun b => held b + if d.busy name = some b then 1 else 0 := by
  have hsame : d.busy name = none →
      (fun b => held b + if d.busy name = some b then 1 else 0) = held := by
    intro hbusy
    simp [hbusy]
  apply Spec.traderLogin
  · intro b en hnamed hen hin
    have hbusy := busy_of_named hnamed hen
    rw [if_pos hin] at hbusy
    have hheld : (fun c => held c + if d.busy name = some c then 1 else 0) =
        Function.update held b (held b + 1) := by
      funext c
      rw [hbusy]
      by_cases hc : c = b
      · subst hc
        simp
      · simp [hc, Ne.symm hc]
    rw [hheld]
    apply h.setRef hen
    push_cast
    omega
  · intro b en hnamed hen hout
    rw [hsame (by rw [busy_of_named hnamed hen, if_neg (by simp [hout])]), if_neg hfd]
    have hexact := h.exact b en hen
    have hnot : ∀ u, d.session u ≠ some b := by
      intro u hu
      obtain ⟨en', hen', hin⟩ := h.session u b hu
      obtain rfl := Option.some.inj (hen.symm.trans hen')
      exact hin hout
    apply h.setEntry
    · simp [hen]
    · simp [hout, hfd] at hexact ⊢
      omega
    · exact fun _ _ => rfl
    · intro u v hu hv
      grind [Function.update_apply]
    · intro u c hc hu
      grind [Function.update_apply]
  · intro hnamed _
    rw [hsame (busy_of_not_named hnamed)]
    exact h
  · intro b i hnamed _ hnone hi hfree
    rw [hsame (busy_of_not_named hnamed), if_neg hfd]
    exact h.insert hnone hi hfree hfd
  · intro b hnamed hlt hnone hno
    obtain ⟨i, hi, hfree⟩ := exists_free (h.room.trans_lt hlt)
    exact absurd hfree (hno i hi)

/-! ## Runs of atomic operations -/

/-- A login on a connection, the logout of a session, and the references of other holders. -/
inductive Operation where
  | login (t : Nat) (fd : Int) (name : CString)
  | logout (t : Nat)
  | ref (t a : Nat)
  | unref (t a : Nat)

/-- An operation that runs without interference. A session is the thread that has logged in, and
a reference is released only after it has been taken. -/
inductive Atomic (s : State E) : Operation → State E → Prop where
  | login {t : Nat} {fd : Int} {name : CString} {r : Option Nat} {s' : State E} : 0 ≤ fd →
      Runs (machine E) zeroRef t (traderLogin fd name) s r s' → Atomic s (.login t fd name) s'
  | logout {t a : Nat} {s' : State E} : s.hist.session t = some a →
      Runs (machine E) zeroRef t (traderLogout a) s () s' → Atomic s (.logout t) s'
  | ref {t a r : Nat} {s' : State E} :
      Runs (machine E) zeroRef t (traderRef a) s r s' → Atomic s (.ref t a) s'
  | unref {t a : Nat} {s' : State E} : 0 < s.hist.outstanding a →
      Runs (machine E) zeroRef t (traderUnref a) s () s' → Atomic s (.unref t a) s'

/-- One more reference to any trader can be counted in an `int`. -/
def State.RefsBelowMax (s : State E) : Prop :=
  ∀ a tr, s.traders a = some tr → FitsInt (tr.ref + 1)

/-- Operations with the states they start in, newest first, and the state they lead to. No count
is `INT_MAX` when an operation begins. -/
inductive Performed (s₀ : State E) : List (State E × Operation) → State E → Prop where
  | nil : Performed s₀ [] s₀
  | cons {l : List (State E × Operation)} {s s' : State E} {op : Operation} :
      Performed s₀ l s → s.RefsBelowMax → Atomic s op s' → Performed s₀ ((s, op) :: l) s'

/-- The trader that an operation finds logged in, although it is a login under this name. -/
def Operation.busy (s : State E) : Operation → Option Nat
  | .login _ _ name => s.directory.busy name
  | _ => none

/-- How many logins have found trader `a` logged in. -/
def leaks (l : List (State E × Operation)) (a : Nat) : Nat :=
  l.countP fun p => p.2.busy p.1 = some a

/-- The references that are to be there besides those of the table and of the session. -/
def heldRefs (s : State E) (l : List (State E × Operation)) (a : Nat) : Nat :=
  s.hist.outstanding a + leaks l a

theorem leaks_cons (l : List (State E × Operation)) (s : State E) (op : Operation) :
    leaks ((s, op) :: l) a = leaks l a + if op.busy s = some a then 1 else 0 := by
  simp [leaks, List.countP_cons]

/-- What is known of thread `t`'s run of a function that is called from outside. -/
theorem runs_outside {s s' : State E} {α : Type} {p : Code α} {c : Call} {r : α}
    {R : α → Directory → Prop} (hcall : InnerCall p c) (hframes : ∀ u, s.hist.frames u = [])
    (hspec : Spec E t p s.directory R) (hr : Runs (machine E) zeroRef t p s r s') :
    (∀ u, s'.hist.frames u = []) ∧ s'.hist.outstanding = c.settle s.hist.outstanding ∧
      R r s'.directory := by
  have hkept := hcall.built.framed.partial_frames s r s' hr
  have hout := hcall.partial_outstanding (hframes t) r s' hr
  refine ⟨fun u => ?_, hout, hspec s rfl r s' hr⟩
  exact (congrFun hkept u).trans (hframes u)

/-- An operation keeps the counts; a login under the name of a trader who is logged in leaves a
reference behind. -/
theorem counts_atomic {s s' : State E} {op : Operation} {l : List (State E × Operation)}
    (h : Atomic s op s') (hframes : ∀ u, s.hist.frames u = [])
    (hcounts : s.directory.Counts (heldRefs s l)) :
    (∀ u, s'.hist.frames u = []) ∧ s'.directory.Counts (heldRefs s' ((s, op) :: l)) ∧
      ∀ a, heldRefs s' ((s, op) :: l) a ≤ heldRefs s l a + 1 := by
  cases h with
  | @login t fd name r s' hfd hr =>
    obtain ⟨hframes', hout, hd⟩ := runs_outside (innerCall_traderLogin fd name) hframes
      (counts_traderLogin hcounts (by omega)) hr
    have hheld : heldRefs s' ((s, .login t fd name) :: l) =
        fun b => heldRefs s l b + if s.directory.busy name = some b then 1 else 0 := by
      funext b
      simp only [heldRefs, leaks_cons, hout, Call.settle, Operation.busy]
      grind
    rw [hheld]
    refine ⟨hframes', hd, fun b => ?_⟩
    dsimp only
    split_ifs <;> omega
  | @logout t a s' hs hr =>
    obtain ⟨hframes', hout, hd⟩ := runs_outside (closingCall_traderLogout a).inner hframes
      (counts_traderLogout hcounts hs) hr
    have hheld : heldRefs s' ((s, .logout t) :: l) = heldRefs s l := by
      funext b
      simp [heldRefs, leaks_cons, hout, Call.settle, Operation.busy]
    rw [hheld]
    exact ⟨hframes', hd, fun b => by omega⟩
  | @ref t a r s' hr =>
    obtain ⟨hframes', hout, hd⟩ := runs_outside (plainCall_traderRef a).inner hframes
      (counts_traderRef hcounts) hr
    have hheld : heldRefs s' ((s, .ref t a) :: l) =
        Function.update (heldRefs s l) a (heldRefs s l a + 1) := by
      funext b
      simp only [heldRefs, leaks_cons, hout, Call.settle, Operation.busy, Function.update_apply]
      grind
    rw [hheld]
    refine ⟨hframes', hd, fun b => ?_⟩
    rw [Function.update_apply]
    split_ifs with hb
    · rw [hb]
    · omega
  | @unref t a s' hpos hr =>
    have hheldpos : 0 < heldRefs s l a := by
      unfold heldRefs
      omega
    obtain ⟨hframes', hout, hd⟩ := runs_outside (closingCall_traderUnref a).inner hframes
      (counts_traderUnref hcounts hheldpos) hr
    have hheld : heldRefs s' ((s, .unref t a) :: l) =
        Function.update (heldRefs s l) a (heldRefs s l a - 1) := by
      funext b
      simp only [heldRefs, leaks_cons, hout, Call.settle, Operation.busy, Function.update_apply]
      grind
    rw [hheld]
    refine ⟨hframes', hd, fun b => ?_⟩
    rw [Function.update_apply]
    split_ifs with hb
    · rw [hb]
      omega
    · omega

theorem counts_performed {x : E.State} {n : Nat} {l : List (State E × Operation)} {s : State E}
    (h : Performed (State.init E x n) l s) :
    (∀ u, s.hist.frames u = []) ∧ s.directory.Counts (heldRefs s l) ∧
      ∀ a, heldRefs s l a ≤ l.length := by
  induction h with
  | nil =>
    refine ⟨fun _ => rfl, ?_, fun _ => le_rfl⟩
    constructor
    case room => simp [State.init, State.directory, occupied]
    all_goals simp [State.init, State.directory, History.empty, heldRefs, leaks]
  | cons _ _ hop ih =>
    obtain ⟨hframes, hcounts, hlength⟩ := ih
    obtain ⟨hframes', hcounts', hmore⟩ := counts_atomic hop hframes hcounts
    refine ⟨hframes', hcounts', fun a => (hmore a).trans ?_⟩
    exact Nat.succ_le_succ (hlength a)

/-- So many operations cannot bring a count to `INT_MAX`. -/
theorem refsBelowMax_performed {x : E.State} {n : Nat} {l : List (State E × Operation)}
    {s : State E} (h : Performed (State.init E x n) l s) (hlength : l.length < 2 ^ 31 - 3) :
    s.RefsBelowMax := by
  obtain ⟨_, hcounts, hheld⟩ := counts_performed h
  intro a tr htr
  have hexact : tr.ref = 1 + (if tr.fd ≠ -1 then 1 else 0) + heldRefs s l a :=
    hcounts.exact a tr.entry (Spec.entry_of_trader htr)
  have hle := hheld a
  constructor
  · split_ifs at hexact <;> omega
  · split_ifs at hexact <;> omega

/-- The reference count of every trader is one for the table, one while the trader is logged in,
and one for each reference that another holder has taken and not released. -/
def State.RefsExact (s : State E) : Prop :=
  ∀ a tr, s.traders a = some tr →
    tr.ref = 1 + (if tr.fd ≠ -1 then 1 else 0) + s.hist.outstanding a

/-- The counts are exact as long as no login has been rejected because its name is logged in. -/
theorem refs_exact_iff {x : E.State} {n : Nat} {l : List (State E × Operation)} {s : State E}
    (h : Performed (State.init E x n) l s) :
    s.RefsExact ↔ ∀ p ∈ l, p.2.busy p.1 = none := by
  obtain ⟨_, hcounts, _⟩ := counts_performed h
  have hexact : ∀ a tr, s.traders a = some tr →
      tr.ref = 1 + (if tr.fd ≠ -1 then 1 else 0) + heldRefs s l a :=
    fun a tr htr => hcounts.exact a tr.entry (Spec.entry_of_trader htr)
  constructor
  · intro hrefs p hp
    by_contra hbusy
    obtain ⟨a, ha⟩ := Option.ne_none_iff_exists'.mp hbusy
    have hleak : 0 < leaks l a := by
      apply List.countP_pos_iff.mpr
      exact ⟨p, hp, by simp [ha]⟩
    have hlive : s.directory.entries a ≠ none := by
      apply hcounts.live
      unfold heldRefs
      omega
    obtain ⟨en, hen⟩ := Option.ne_none_iff_exists'.mp hlive
    obtain ⟨tr, htr, -⟩ := Option.map_eq_some_iff.mp hen
    have hclaim := hrefs a tr htr
    have hreal := hexact a tr htr
    unfold heldRefs at hreal
    push_cast at hreal
    omega
  · intro hnone a tr htr
    have hleak : leaks l a = 0 := by
      apply List.countP_eq_zero.mpr
      intro p hp
      simp [hnone p hp]
    have hreal := hexact a tr htr
    unfold heldRefs at hreal
    rw [hleak] at hreal
    exact hreal

/-- What thread `t`'s code comes to if everything goes smoothly. -/
def finish {α : Type} (x : E.Choice) (t : Nat) (p : Code α) (s : State E) : Option (α × State E) :=
  (machine E).finish (fun o s => some (.smooth x o s)) t 400 p s

theorem runs_of_finish {α : Type} {x : E.Choice} {p : Code α} {s s' : State E} {r : α}
    (h : finish x t p s = some (r, s')) : Runs (machine E) zeroRef t p s r s' := by
  refine .of_finish (fun o s e he => ?_) h
  cases he
  intro a junk hchoice
  cases o <;> cases hchoice
  rfl

def Operation.perform (x : E.Choice) (s : State E) : Operation → Option (State E)
  | .login t fd name => if 0 ≤ fd then (finish x t (traderLogin fd name) s).map Prod.snd else none
  | .logout t => (s.hist.session t).bind fun a => (finish x t (traderLogout a) s).map Prod.snd
  | .ref t a => (finish x t (traderRef a) s).map Prod.snd
  | .unref t a =>
    if 0 < s.hist.outstanding a then (finish x t (traderUnref a) s).map Prod.snd else none

theorem Operation.atomic_of_perform {x : E.Choice} {s s' : State E} {op : Operation}
    (h : op.perform x s = some s') : Atomic s op s' := by
  cases op with
  | login t fd name =>
    simp only [perform] at h
    split_ifs at h with hfd
    obtain ⟨⟨r, u⟩, hfinish, rfl⟩ := Option.map_eq_some_iff.mp h
    exact .login hfd (runs_of_finish hfinish)
  | logout t =>
    obtain ⟨a, ha, h⟩ := Option.bind_eq_some_iff.mp h
    obtain ⟨⟨r, u⟩, hfinish, rfl⟩ := Option.map_eq_some_iff.mp h
    exact .logout ha (runs_of_finish hfinish)
  | ref t a =>
    obtain ⟨⟨r, u⟩, hfinish, rfl⟩ := Option.map_eq_some_iff.mp h
    exact .ref (runs_of_finish hfinish)
  | unref t a =>
    simp only [perform] at h
    split_ifs at h with hpos
    obtain ⟨⟨r, u⟩, hfinish, rfl⟩ := Option.map_eq_some_iff.mp h
    exact .unref hpos (runs_of_finish hfinish)

/-- The operations in this order, after those of `l`. -/
def performAll (x : E.Choice) : List Operation → List (State E × Operation) × State E →
    Option (List (State E × Operation) × State E)
  | [], b => some b
  | op :: ops, (l, s) => (op.perform x s).bind fun s' => performAll x ops ((s, op) :: l, s')

theorem performed_of_performAll {x : E.Choice} {y : E.State} {n : Nat} {ops : List Operation}
    {b b' : List (State E × Operation) × State E}
    (hb : Performed (State.init E y n) b.1 b.2) (hfew : b.1.length + ops.length < 2 ^ 31 - 3)
    (h : performAll x ops b = some b') : Performed (State.init E y n) b'.1 b'.2 := by
  induction ops generalizing b with
  | nil =>
    cases h
    exact hb
  | cons op ops ih =>
    obtain ⟨s', hop, h⟩ := Option.bind_eq_some_iff.mp h
    rw [List.length_cons] at hfew
    have hbelow := refsBelowMax_performed hb (by omega)
    refine ih (.cons hb hbelow (Operation.atomic_of_perform hop)) ?_ h
    rw [List.length_cons]
    omega

/-- After these operations the first trader has this many references. -/
theorem exists_performed (ops : List Operation) (ref : Int) (fd : Int)
    (hfew : ops.length < 2 ^ 31 - 3)
    (h : (performAll (E := .fixed 1 1) () ops ([], State.init _ () 4)).any (fun b =>
      (b.2.traders 0).any fun tr => tr.ref = ref && tr.fd = fd && b.2.hist.outstanding 0 = 0) =
        true) :
    ∃ (l : List (State (.fixed 1 1) × Operation)) (s : State (.fixed 1 1)) (tr : Trader),
      Performed (State.init _ () 4) l s ∧ s.traders 0 = some tr ∧ tr.ref = ref ∧ tr.fd = fd ∧
        s.hist.outstanding 0 = 0 := by
  simp only [Option.any_eq_true, Bool.and_eq_true, decide_eq_true_eq] at h
  obtain ⟨⟨l, s⟩, hall, tr, htr, ⟨href, hfd⟩, hout⟩ := h
  exact ⟨l, s, tr, performed_of_performAll .nil (by simpa using hfew) hall, htr, href, hfd, hout⟩

/-- The name `a`. -/
def nameA : CString := ⟨0, [97, 0]⟩

/-- A trader logs in, is referenced, logs out and is released. -/
theorem refs_exact_after_logout :
    ∃ (l : List (State (.fixed 1 1) × Operation)) (s : State (.fixed 1 1)) (tr : Trader),
      s.traders 0 = some tr ∧ tr.ref = 1 ∧
        (s.RefsExact ↔ ∀ p ∈ l, p.2.busy p.1 = none) := by
  obtain ⟨l, s, tr, hl, htr, href, _, _⟩ := exists_performed
    [.login 0 3 nameA, .ref 9 0, .logout 0, .unref 9 0] 1 (-1) (by decide) (by decide +kernel)
  exact ⟨l, s, tr, htr, href, refs_exact_iff hl⟩

/-- Two connections log in under one name: the second is rejected and leaves a reference. -/
theorem rejected_login_leaks :
    ∃ (l : List (State (.fixed 1 1) × Operation)) (s : State (.fixed 1 1)),
      Performed (State.init _ () 4) l s ∧ ¬ s.RefsExact := by
  obtain ⟨l, s, tr, hl, htr, href, hfd, hout⟩ := exists_performed
    [.login 0 3 nameA, .login 1 4 nameA] 3 3 (by decide) (by decide +kernel)
  refine ⟨l, s, hl, fun hexact => ?_⟩
  have hclaim := hexact 0 tr htr
  rw [href, hfd, hout] at hclaim
  simp at hclaim

end BourseServer
