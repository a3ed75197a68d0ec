import BourseServer.Sessions.Runs

/-!
# Overlapping logins

A login looks for its name in the table, and then acts on what it has found: it takes the trader
over, or puts a new one into the first free slot. Nothing keeps another login from doing the same
in between. As long as what a login has found still holds when it acts on it, the logins of all
threads keep the table and the sessions in order, however their steps are interleaved. Two logins
under a new name that look at the table at the same time make two traders.
-/
namespace BourseServer

open Concurrency Bytes

variable {E : Exchange} {c : Pool (server E)} {x : E.State} {n : Nat}

/-- The traders in the table have different names; every trader that a completed login has returned
is in the table; and no trader has been returned to two threads that are both still logged in. -/
structure LoginsKept (s : State E) : Prop where
  names : ∀ {i j a b tr tr'}, s.allTraders i = some a → s.allTraders j = some b →
    s.traders a = some tr → s.traders b = some tr' → strcmpEq tr.name tr'.name = true → i = j
  stored : ∀ {name a}, (name, a) ∈ loginReturns s.hist.events →
    ∃ i tr, i < maxTraders ∧ s.allTraders i = some a ∧ s.traders a = some tr
  single : ∀ {t u a}, loggedIn t s.hist.events = some a → loggedIn u s.hist.events = some a → t = u

namespace Sessions

/-- The counts of new traders do not start negative, no count leaves the range of `int`, and
callers from outside of the module are about traders of the table and give back only references
they have taken. -/
def Mindful (whole : Prop) (c : Pool (server E)) : Move (server E) → Prop
  | .run t e => ∀ o k, c.prog t = .op o k → Prudent whole t o e c.state
  | .start _ q => ∀ call, q = .client call → Fair whole c.state.shared call

/-- A login acts on what still holds. -/
def Timely (c : Pool (server E)) : Move (server E) → Prop
  | .run t _ => ∀ o k, c.prog t = .op o k → StillHolds c.state o
  | .start .. => True

theorem regular_of_timely {m : Move (server E)} (hm : Mindful False c m) (ht : Timely c m) :
    Regular ⟨False, False⟩ c m := by
  cases m with
  | run t e =>
    intro o k hp
    exact ⟨hm o k hp, fun h => h.elim, fun _ => ht o k hp, fun h => h.elim⟩
  | start t q => exact hm

theorem Inv.loginsKept {W : Watch} {s : State E} {d : Census} (hi : Inv W s.shared d) :
    LoginsKept s where
  names hi' hj ha hb := hi.sound.names hi' hj (shared_name ha) (shared_name hb)
  stored {name a} ha := by
    obtain ⟨i, hslot⟩ := hi.sound.returned ha
    obtain ⟨hlt, hname⟩ := hi.slots hslot
    obtain ⟨name, hname⟩ := Option.ne_none_iff_exists'.mp hname
    obtain ⟨tr, htr, _⟩ := Option.map_eq_some_iff.mp hname
    exact ⟨i, tr, hlt, hslot, htr⟩
  single ht hu := hi.sound.unique ht hu

/-- However logins and logouts of any number of threads are interleaved, the table and the sessions
are in order as long as each login acts on what still holds. -/
theorem logins_kept
    (h : Pool.ReachIf (fun c m => Mindful False c m ∧ Timely c m)
      (Pool.idle (State.init E x n)) c) : LoginsKept c.state := by
  have hregular : Pool.ReachIf (Regular ⟨False, False⟩) (Pool.idle (State.init E x n)) c :=
    h.mono fun _ _ hm => regular_of_timely hm.1 hm.2
  obtain ⟨g, hi, _⟩ := (holds_of_reach hregular).safe
  exact hi.loginsKept

/-! ## Concrete runs -/

/-- Counts are in range, and no reference is given back from outside of the module. -/
def mindful (t : Nat) (o : Op) (s : State E) : Bool :=
  match o with
  | .enter (.unref _) => s.hist.frames t ≠ []
  | .store .ref _ v => FitsInt v
  | _ => true

theorem prudent_of_mindful {t : Nat} {o : Op} {s : State (.fixed 1 1)} (h : mindful t o s = true) :
    Prudent False t o (.smooth () o s) s where
  count := by
    intro a junk hjunk
    cases o <;> cases hjunk
    exact le_rfl
  range := by
    rintro a v rfl
    exact of_decide_eq_true h
  balanced := by
    rintro a rfl hnil
    simp [mindful, hnil] at h
  fair := by
    rintro q y rfl - q' hq'
    cases q <;> cases hq'

/-- The request is a connection to be served. -/
def isConnection : Request → Bool
  | .client _ => false
  | _ => true

def mindfulCourse : Pool.Course (server (.fixed 1 1)) :=
  smoothly () mindful fun _ q _ => isConnection q

theorem mindfulCourse_within : mindfulCourse.Within (Mindful False) where
  op {c t o k e} hp he := by
    simp only [mindfulCourse, smoothly] at he
    split_ifs at he with hguard
    obtain rfl := Option.some.inj he
    intro o' k' hp'
    obtain ⟨rfl, _⟩ := Prog.op.inj (hp.symm.trans hp')
    exact prudent_of_mindful hguard
  call {c t p k} hp := by
    intro o k' hp'
    cases hp.symm.trans hp'
  start {c t q} hq := by
    rintro call rfl
    cases hq

/-- Two clients log in under the same name, and thread 1 does so while thread 0 has just found out
that the name is not in the table. -/
def sameName : List (Pool.Stage (server (.fixed 1 1))) :=
  [.start 0 (.accept 3 (packet .login [97]) false), .drive 0 86,
    .start 1 (.accept 4 (packet .login [97]) false), .drive 1 500, .drive 0 500]

/-- There are two traders with the name. -/
theorem logins_collide : ∃ c : Pool (server (.fixed 1 1)),
    Pool.ReachIf (Mindful False) (Pool.idle (State.init _ () 4)) c ∧ ¬ LoginsKept c.state := by
  obtain ⟨c, hc, ht⟩ := Pool.exists_reach mindfulCourse_within sameName
    (Pool.idle (State.init _ () 4))
    (fun c => c.state.allTraders 0 = some 0 && c.state.allTraders 1 = some 1 &&
      (c.state.traders 0).any fun tr => (c.state.traders 1).any fun tr' =>
        strcmpEq tr.name tr'.name) (by decide +kernel)
  simp only [Bool.and_eq_true, decide_eq_true_eq, Option.any_eq_true] at ht
  obtain ⟨⟨hslot, hslot'⟩, tr, htr, tr', htr', hname⟩ := ht
  refine ⟨c, hc, fun h => ?_⟩
  cases h.names hslot hslot' htr htr' hname

/-- Only the first two slots are in use. -/
def TwoSlots (s : State E) : Prop := ∀ i, 2 ≤ i → s.allTraders i = none

/-- What a login has found still holds, and it uses one of the first two slots. -/
def foundHolds (o : Op) (s : State E) : Bool :=
  match o with
  | .store .fd a x => x = -1 || ((List.range 2).all fun i => s.allTraders i ≠ some a) ||
    (s.traders a).all fun tr => tr.fd = -1
  | .setSlot i none => i < 2
  | .setSlot i (some a) => i < 2 && (s.allTraders i).isNone && (List.range 2).all fun j =>
    (s.allTraders j).all fun b => (s.traders b).all fun tr => (s.traders a).all fun new =>
      !strcmpEq tr.name new.name
  | _ => true

theorem stillHolds_of_found {o : Op} {s : State E} (h : foundHolds o s = true)
    (hs : TwoSlots s) : StillHolds s o := by
  have hlt : ∀ {i b}, s.allTraders i = some b → i < 2 := by
    intro i b hslot
    by_contra hge
    rw [hs i (by omega)] at hslot
    cases hslot
  cases o with
  | store f a x =>
    cases f with
    | fd =>
      rintro hne ⟨i, hslot⟩ tr htr
      simp only [foundHolds, Bool.or_eq_true, decide_eq_true_eq, List.all_eq_true] at h
      rcases h with (hx | hout) | hfd
      · exact absurd hx hne
      · exact absurd hslot (hout i (List.mem_range.mpr (hlt hslot)))
      · rw [htr] at hfd
        exact of_decide_eq_true hfd
    | _ => trivial
  | setSlot i v =>
    cases v with
    | none => trivial
    | some a =>
      simp only [foundHolds, Bool.and_eq_true, List.all_eq_true, Option.isNone_iff_eq_none] at h
      refine ⟨h.1.2, fun j b tr new hslot htr hnew => ?_⟩
      have hname := h.2 j (List.mem_range.mpr (hlt hslot))
      rw [hslot, Option.all_some, htr, Option.all_some, hnew, Option.all_some] at hname
      simpa using hname
  | _ => trivial

/-- The move is timely if only the first two slots are in use, and keeps it so. -/
structure TimelyTwo (c : Pool (server E)) (m : Move (server E)) : Prop where
  mindful : Mindful False c m
  timely : TwoSlots c.state → Timely c m
  slots : ∀ t e i v k, m = .run t e → c.prog t = .op (.setSlot i v) k → i < 2

theorem twoSlots_of_step {c c' : Pool (server E)} {m : Move (server E)} (hm : TimelyTwo c m)
    (hs : c.step m = some c') (hc : TwoSlots c.state) : TwoSlots c'.state := by
  intro i hi
  rcases Pool.step_cases hs with ⟨t, e, o, k, r, rfl, hp, he, _⟩ | ⟨t, e, q, k, _, _, hsame, _⟩ |
    ⟨t, q, p, _, _, hlaunched, _⟩
  · cases ho : o.writesTable with
    | false =>
      rw [(exec_frame he).table ho]
      exact hc i hi
    | true =>
      cases o with
      | setSlot j v =>
        have hj := hm.slots t e j v k rfl hp
        have hslot := congrFun (congrArg Shared.slots (exec_setSlot_shared (t := t) (e := e) he)) i
        have hne : i ≠ j := by omega
        exact hslot.trans ((Function.update_of_ne hne ..).trans (hc i hi))
      | _ => cases ho
  · rw [hsame]
    exact hc i hi
  · obtain ⟨conns, hstate⟩ := launch_state hlaunched
    rw [hstate]
    exact hc i hi

def timelyCourse : Pool.Course (server (.fixed 1 1)) :=
  smoothly () (fun t o s => mindful t o s && foundHolds o s) fun _ q _ => isConnection q

theorem timelyCourse_within : timelyCourse.Within TimelyTwo where
  op {c t o k e} hp he := by
    simp only [timelyCourse, smoothly] at he
    split_ifs at he with hguard
    obtain rfl := Option.some.inj he
    rw [Bool.and_eq_true] at hguard
    refine ⟨fun o' k' hp' => ?_, fun hc o' k' hp' => ?_, fun u e i v k' hm hp' => ?_⟩
    · obtain ⟨rfl, _⟩ := Prog.op.inj (hp.symm.trans hp')
      exact prudent_of_mindful hguard.1
    · obtain ⟨rfl, _⟩ := Prog.op.inj (hp.symm.trans hp')
      exact stillHolds_of_found hguard.2 hc
    · cases hm
      obtain ⟨rfl, _⟩ := Prog.op.inj (hp.symm.trans hp')
      have hslot := hguard.2
      cases v <;> simp only [foundHolds, Bool.and_eq_true, decide_eq_true_eq] at hslot
      · exact hslot
      · exact hslot.1.1
  call {c t p k} hp := by
    refine ⟨fun o k' hp' => ?_, fun _ o k' hp' => ?_, fun u e i v k' hm hp' => ?_⟩
    · cases hp.symm.trans hp'
    · cases hp.symm.trans hp'
    · cases hm
      cases hp.symm.trans hp'
  start {c t q} hq := by
    refine ⟨?_, fun _ => trivial, fun u e i v k hm => ?_⟩
    · rintro call rfl
      cases hq
    · cases hm

/-- Two clients log in under different names. Thread 0 has not found its name in the table and has
made its trader when thread 1 looks at the table, and it looks for a slot when thread 1 is done. -/
def twoNames : List (Pool.Stage (server (.fixed 1 1))) :=
  [.start 0 (.accept 3 (packet .login [97]) false), .drive 0 90,
    .start 1 (.accept 4 (packet .login [98]) false), .drive 1 500, .drive 0 500]

/-- Both logins succeed, each with a trader of its own. -/
theorem logins_kept_apart : ∃ c : Pool (server (.fixed 1 1)),
    loggedIn 0 c.state.hist.events = some 0 ∧ loggedIn 1 c.state.hist.events = some 1 ∧
      LoginsKept c.state := by
  obtain ⟨c, hc, ht⟩ := Pool.exists_reach timelyCourse_within twoNames
    (Pool.idle (State.init _ () 4)) (fun c => loggedIn 0 c.state.hist.events == some 0 &&
      loggedIn 1 c.state.hist.events == some 1) (by decide +kernel)
  simp only [Bool.and_eq_true, beq_iff_eq] at ht
  have hreach : Pool.ReachIf (fun c m => Mindful False c m ∧ Timely c m)
      (Pool.idle (State.init (.fixed 1 1) () 4)) c :=
    (hc.of_invariant (J := fun c => TwoSlots c.state) (fun _ _ => rfl)
      (fun _ _ _ hm hs hd => twoSlots_of_step hm hs hd)
      fun _ _ hm hd => ⟨hm.mindful, hm.timely hd⟩).1
  exact ⟨c, ht.1, ht.2, logins_kept hreach⟩

end Sessions

end BourseServer
