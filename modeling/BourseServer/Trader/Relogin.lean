import BourseServer.Trader.Refinement
import BourseServer.Trader.Layout
import BourseServer.Trader.Completion

/-!
# A client logs in again

A login under a known name comes to an end: between two operations no mutex is held. It returns
the client's trader, with the account as the client's operations have left it, unless the client
is logged in.
-/
namespace BourseServer

open Concurrency

variable {E : Exchange}

/-! ## Mutexes between operations -/

def State.Released (s : State E) : Prop := ∀ a tr, s.traders a = some tr → tr.mutex.depth = 0

def Roster.Unlocked (d : Roster) : Prop := ∀ a it, d.items a = some it → it.held = some 0

/-- The roster of a state in which no mutex is held. -/
def State.roster (s : State E) : Roster where
  items a := (s.traders a).map fun tr => ⟨tr.ref, tr.name, some 0⟩
  slots := s.allTraders
  count := s.count
  blocks := s.blocks
  freed := []

section unlocked

variable {t a : Nat} {s s' : State E} {d : Roster} {it : Item} {C : Clients}
  {held : Nat → Nat}

theorem State.Released.shows (h : s.Released) (t : Nat) : Heap.Shows t ⟨s, []⟩ s.roster where
  items a := by
    cases htr : s.traders a with
    | none => simp [State.roster, htr]
    | some tr =>
      have hshows : Trader.Shows t tr ⟨tr.ref, tr.name, some 0⟩ :=
        ⟨rfl, rfl, h a tr htr, fun hne => absurd rfl hne⟩
      simpa [State.roster, htr] using Option.Rel.some hshows
  slots := rfl
  count := rfl
  blocks := rfl
  freed := rfl

theorem Heap.Shows.unlocked {l : List Nat} (hs : Heap.Shows t ⟨s, l⟩ d) (hd : d.Unlocked) :
    s.Released := by
  intro a tr htr
  obtain ⟨it, hit, hshows⟩ := hs.item htr
  have hmutex := hshows.mutex
  rw [hd a it hit] at hmutex
  exact hmutex.1

theorem State.Released.roster (s : State E) : s.roster.Unlocked := by
  intro a it hit
  obtain ⟨tr, _, rfl⟩ := Option.map_eq_some_iff.mp hit
  rfl

/-- What is known about the roster is known about the process. -/
theorem partial_unlocked {α : Type} {p : Code α} (h : s.Released)
    (hy : Yields E t p s.roster fun _ d => d.Unlocked) :
    Partial (machine E) zeroRef t p (fun _ s' => s'.Released) s := by
  intro r s' hr
  obtain ⟨l, hr'⟩ := Heap.runs_of_runs hr []
  obtain ⟨d, hs, hd⟩ := hy _ (h.shows t) r _ hr'
  exact hs.unlocked hd

namespace Roster.Unlocked

theorem keep (hd : d.Unlocked) (hit : d.items a = some it) (ref : Int) :
    (d.setItem a { it with ref := ref, held := some (it.held.getD 0) }).Unlocked := by
  intro b itb hb
  by_cases hba : b = a
  · subst hba
    obtain rfl := Option.some.inj ((Roster.setItem_self d b _).symm.trans hb)
    simp [hd b it hit]
  · rw [Roster.setItem_of_ne d _ hba] at hb
    exact hd b itb hb

theorem remove (hd : d.Unlocked) (i block : Nat) : (d.remove a i block).Unlocked := by
  intro b itb hb
  by_cases hba : b = a
  · subst hba
    cases (d.remove_self b i block).symm.trans hb
  · rw [Roster.remove_of_ne d i block hba] at hb
    exact hd b itb hb

theorem yields_loadAsset {x : Asset} {R : UInt32 → Roster → Prop} (hR : ∀ v, R v d) :
    Yields E t (loadAsset x a) d R := by
  cases x with
  | balance => exact Yields.load (f := .balance) fun tr _ _ _ => hR _
  | inventory => exact Yields.load (f := .inventory) fun tr _ _ _ => hR _

/-- The mutex is locked around an access to the account. -/
theorem yields_locked {α : Type} {p : Unit → Code α} (hd : d.Unlocked)
    (hp : ∀ it : Item, it.held = some 0 → d.items a = some it →
      Yields E t (p ()) (d.setItem a { it with held := some 1 }) fun _ d' => d'.Unlocked) :
    Yields E t (lock a >>= p) d fun _ d' => d'.Unlocked := by
  refine Yields.bind (Yields.lock fun it hit => ?_)
  rw [hd a it hit]
  exact hp it (hd a it hit) hit

theorem yields_unlock (hd : d.Unlocked) (hit : d.items a = some it) (hheld : it.held = some 0) :
    Yields E t (unlock a) (d.setItem a { it with held := some 1 }) fun _ d' => d'.Unlocked := by
  refine Yields.unlockLive (Roster.setItem_self ..) rfl ?_
  have hsame : ({ it with held := some 0 } : Item) = it := by rw [← hheld]
  rw [Roster.setItem_setItem, hsame, Roster.setItem_eq hit]
  exact hd

theorem yields_increaseAsset {x : Asset} {n : UInt32} (hd : d.Unlocked) :
    Yields E t (increaseAsset x a n) d fun _ d' => d'.Unlocked :=
  Yields.scope (hd.yields_locked fun _ hheld hit => Yields.bind (yields_loadAsset fun _ =>
    Yields.bind (Yields.storeAsset (hd.yields_unlock hit hheld))))

theorem yields_decreaseAsset {x : Asset} {n : UInt32} (hd : d.Unlocked) :
    Yields E t (decreaseAsset x a n) d fun _ d' => d'.Unlocked := by
  refine Yields.scope (hd.yields_locked fun it hheld hit =>
    Yields.bind (yields_loadAsset fun v => ?_))
  have hunlock : ∀ i : Int, Yields E t (unlock a >>= fun _ => .ret i)
      (d.setItem a { it with held := some 1 }) fun _ d' => d'.Unlocked :=
    fun _ => Yields.bind (Yields.mono (hd.yields_unlock hit hheld) fun _ _ hd' => Yields.ret hd')
  split_ifs
  · exact Yields.bind (yields_loadAsset fun _ => Yields.bind (Yields.storeAsset (hunlock 0)))
  · exact hunlock (-1)

theorem yields_runAccount {c : AccountCall} (hd : d.Unlocked) :
    Yields E t (runAccount a c) d fun _ d' => d'.Unlocked := by
  cases c with
  | increase x n => cases x <;> exact hd.yields_increaseAsset
  | decrease x n =>
    cases x <;>
    exact Yields.bind (Yields.mono hd.yields_decreaseAsset fun _ _ hd' => Yields.ret hd')

end Roster.Unlocked

/-- The first slot in which a trader is found by its name. -/
theorem place_of_represents {tr : Trader} (hd : s.directory.Represents C held)
    (htr : s.traders a = some tr) : ∃ i, s.roster.Place a i tr.name := by
  obtain ⟨i, hi, hslot⟩ := hd.stored a tr.entry (Spec.entry_of_trader htr)
  classical
  have hex : ∃ i, s.allTraders i = some a := ⟨i, hslot⟩
  refine ⟨Nat.find hex, (Nat.find_min' hex hslot).trans_lt hi, Nat.find_spec hex, ?_⟩
  intro j hj b itb hb hitb
  obtain ⟨trb, htrb, rfl⟩ := Option.map_eq_some_iff.mp hitb
  by_contra hname
  have htext : trb.name.text = tr.name.text := strcmpEq_iff.mp (by simpa using hname)
  -- a name belongs to one client, so this would be the trader itself
  obtain ⟨cl, hcl, rfl, _⟩ := hd.client a tr.entry (Spec.entry_of_trader htr)
  obtain ⟨cl', hcl', rfl, _⟩ := hd.client b trb.entry (Spec.entry_of_trader htrb)
  have hsame : cl' = cl := by
    have hcl'' : C tr.name.text = some cl' := htext ▸ hcl'
    exact Option.some.inj (hcl''.symm.trans hcl)
  subst hsame
  exact Nat.find_min hex hj hb

theorem unlocked_of_dealt {l : List Dealing} {op : Dealing} (h : Dealt s op s')
    (hallowed : op.Allowed l) (hrun : Clients.Run l C) (hd : s.directory.Represents C (refsHeld l))
    (hu : s.Released) : s'.Released := by
  have hroster := State.Released.roster s
  have hitem : ∀ {a tr}, s.traders a = some tr →
      s.roster.items a = some ⟨tr.ref, tr.name, some 0⟩ := fun htr => by simp [State.roster, htr]
  cases h with
  | @login t fd name r s' _ hr =>
    refine partial_unlocked hu ?_ r s' hr
    apply Yields.traderLogin
    · rintro r j b it _ hit _
      exact hroster.keep hit (it.ref + 1)
    · exact fun _ _ => hroster
    · rintro b j _ _ hb _ _ c itc hc
      by_cases hcb : c = b
      · subst hcb
        obtain rfl := Option.some.inj ((Roster.setItem_self s.roster c _).symm.trans hc)
        rfl
      · exact hroster c itc ((Roster.setItem_of_ne s.roster _ hcb).symm.trans hc)
    · exact fun hlt => Directory.exists_free (hd.room.trans_lt hlt)
  | @logout t a s' hr =>
    obtain ⟨n, cl, hn, rfl, _⟩ := hrun.after.client_of_session hallowed
    obtain ⟨en, hen, _⟩ := hd.entry n cl hn
    obtain ⟨tr, htr, rfl⟩ := Option.map_eq_some_iff.mp hen
    obtain ⟨i, hplace⟩ := place_of_represents hd htr
    refine partial_unlocked hu ?_ () s' hr
    apply Yields.traderLogout (hitem htr) hplace
    · exact fun _ => hroster.keep (hitem htr) (tr.ref - 1)
    · exact fun _ => hroster.remove i _
  | @ref t a r s' hr =>
    refine partial_unlocked hu ?_ r s' hr
    exact Yields.traderRef fun it hit => hroster.keep hit (it.ref + 1)
  | @unref t a s' hr =>
    have hlive : s.directory.entries a ≠ none := by
      intro hnone
      have hzero := hd.fresh a hnone
      have hpos : 0 < refsHeld l a := hallowed
      omega
    obtain ⟨en, hen⟩ := Option.ne_none_iff_exists'.mp hlive
    obtain ⟨tr, htr, rfl⟩ := Option.map_eq_some_iff.mp hen
    obtain ⟨i, hplace⟩ := place_of_represents hd htr
    refine partial_unlocked hu ?_ () s' hr
    apply Yields.traderUnref (hitem htr) hplace
    · exact fun _ => hroster.keep (hitem htr) (tr.ref - 1)
    · exact fun _ => hroster.remove i _
  | @account t a c s' hr => exact partial_unlocked hu hroster.yields_runAccount () s' hr

theorem Dealings.unlocked {x : E.State} {n : Nat} {l : List Dealing}
    (h : Dealings (State.init E x n) l s) : s.Released := by
  induction h with
  | nil => exact fun _ _ htr => by cases htr
  | cons hl hallowed hdealt ih =>
    obtain ⟨C, hrun, hd, _⟩ := run_of_dealings hl
    exact unlocked_of_dealt hdealt hallowed hrun hd ih

end unlocked

/-! ## A login comes to an end -/

/-- Nothing that the outside world decides makes a difference, and new memory holds zeros. -/
def alone (E : Exchange) : Regime (machine E) := ⟨zeroRef, fun _ => false⟩

theorem passive_alone : Passive (alone E) where
  silent _ := nofun
  again := rfl

theorem State.Released.freeFor {s : State E} {t : Nat} (h : s.Released) : s.FreeFor t :=
  fun a tr htr => ⟨_, if_pos (h a tr htr)⟩

/-- A login under a known name finds its trader, and so comes to an end. -/
theorem Passive.total_traderLogin {G : Regime (machine E)} (hG : Passive G) {t : Nat}
    {s : State E} {fd : Int} {name : CString} {C : Clients} {held : Nat → Nat} (hu : s.Released)
    (hd : s.directory.Represents C held) (hknown : C name.text ≠ none) :
    Total G t (traderLogin fd name) (fun _ _ => True) s := by
  have hworking : Working t s.refs s.allTraders s.blocks
      { s with hist := s.hist.enter t (.login fd name) } := hu.freeFor.working.recorded _
  have hslots : ∀ {i b}, s.allTraders i = some b → s.refs b ≠ none := by
    intro i b hslot
    have hlive := hd.live i b hslot
    simpa [State.refs, State.directory] using hlive
  refine hG.total_scope (Total.bind (total_checkOldTraderAndLogin hG hworking hslots) ?_)
  rintro (_ | b) s' h'
  · -- every slot has been looked at, so the name would be unknown
    have hnamed : s.directory.named name = none := by
      refine Directory.named_eq_none fun j hj => ?_
      cases hslot : s.allTraders j with
      | none => simp [Directory.slotNamed, State.directory, hslot]
      | some b =>
        obtain ⟨en, hen⟩ := Option.ne_none_iff_exists'.mp (hd.live j b hslot)
        obtain ⟨tr, htr, rfl⟩ := Option.map_eq_some_iff.mp hen
        rw [Directory.slotNamed_of_entry name hslot hen]
        exact if_neg (Bool.eq_false_iff.mp (h'.2 j hj b tr hslot htr))
    exact absurd (hd.unknown_of_not_named hnamed) hknown
  · obtain ⟨k, _, h'⟩ := h'
    have hk : Function.update s.refs b (some (k + 1)) b = some (k + 1) := Function.update_self ..
    refine Total.bind (total_load hG h' hk .fd) ?_
    rintro oldFd _ ⟨rfl, _⟩
    split_ifs
    · exact .ret trivial
    · have hstore := total_storeField hG h' hk (f := .fd) (by decide) fd
      exact Total.bind hstore fun _ _ _ => .ret trivial

/-! ## Known names -/

/-- Once a name has logged in with trader `a`, the account of `a` is what the account operations
on `a` have made of it, and a login under this name returns `a`, with this account, unless `a` is
logged in. -/
theorem known_name_logs_in {x : E.State} {n : Nat} {l : List Dealing} {s : State E} {a t₀ : Nat}
    {fd₀ : Int} {name₀ : CString} (h : Dealings (State.init E x n) l s)
    (hknown : .login t₀ fd₀ name₀ (some a) ∈ l) :
    s.accounts a = some (accountAfter l a) ∧
      ∀ (t : Nat) (fd : Int) (name : CString), 0 ≤ fd → name.text = name₀.text →
        Total (alone E) t (traderLogin fd name) (fun r s' =>
          r = (if hasSession l a then none else some a) ∧
            s'.accounts a = some (accountAfter l a)) s := by
  obtain ⟨C, hrun, hd, hc⟩ := run_of_dealings h
  obtain ⟨cl, hcl, rfl⟩ := hrun.after.known t₀ fd₀ name₀ a hknown
  have haccount := hrun.after.account name₀.text cl hcl
  have hpresent := hrun.after.present name₀.text cl hcl
  refine ⟨haccount ▸ hc name₀.text cl hcl, fun t fd name hfd htext => ?_⟩
  rw [← htext] at hcl
  have hne : C name.text ≠ none := by simp [hcl]
  refine (passive_alone.total_traderLogin h.unlocked hd hne).strengthen fun r s' hr => ?_
  obtain ⟨C', hstep, _, hc'⟩ := step_of_dealt (.login hfd hr) trivial hrun hd hc
  rw [← haccount, ← hpresent]
  cases hstep with
  | enrol hnone _ => cases hnone.symm.trans hcl
  | full hnone => cases hnone.symm.trans hcl
  | @resume _ _ _ cl' hcl' hout =>
    obtain rfl := Option.some.inj (hcl.symm.trans hcl')
    refine ⟨by simp [hout], ?_⟩
    exact hc' name.text { cl with present := true } (Function.update_self ..)
  | @reject _ _ _ cl' hcl' hin =>
    obtain rfl := Option.some.inj (hcl.symm.trans hcl')
    exact ⟨by simp [hin], hc' name.text cl hcl⟩

/-! ## A concrete run -/

instance (l : List Dealing) (op : Dealing) : Decidable (op.Allowed l) := by
  cases op <;> unfold Dealing.Allowed <;> infer_instance

/-- The operation is run by its thread, and everything goes smoothly. -/
def Dealing.perform (x : E.Choice) (s : State E) : Dealing → Option (State E)
  | .login t fd name r =>
    if 0 ≤ fd then (finish x t (traderLogin fd name) s).bind fun p =>
      if p.1 = r then some p.2 else none
    else none
  | .logout t a => (finish x t (traderLogout a) s).map Prod.snd
  | .ref t a => (finish x t (traderRef a) s).map Prod.snd
  | .unref t a => (finish x t (traderUnref a) s).map Prod.snd
  | .account t a c => (finish x t (runAccount a c) s).map Prod.snd

theorem Dealing.dealt_of_perform {x : E.Choice} {s s' : State E} {op : Dealing}
    (h : op.perform x s = some s') : Dealt s op s' := by
  cases op with
  | login t fd name r =>
    simp only [perform] at h
    split_ifs at h with hfd
    obtain ⟨⟨r', u⟩, hfinish, h⟩ := Option.bind_eq_some_iff.mp h
    split_ifs at h with hr
    obtain rfl := Option.some.inj h
    subst hr
    exact .login hfd (runs_of_finish hfinish)
  | logout t a =>
    obtain ⟨⟨_, u⟩, hfinish, rfl⟩ := Option.map_eq_some_iff.mp h
    exact .logout (runs_of_finish hfinish)
  | ref t a =>
    obtain ⟨⟨_, u⟩, hfinish, rfl⟩ := Option.map_eq_some_iff.mp h
    exact .ref (runs_of_finish hfinish)
  | unref t a =>
    obtain ⟨⟨_, u⟩, hfinish, rfl⟩ := Option.map_eq_some_iff.mp h
    exact .unref (runs_of_finish hfinish)
  | account t a c =>
    obtain ⟨⟨_, u⟩, hfinish, rfl⟩ := Option.map_eq_some_iff.mp h
    exact .account (runs_of_finish hfinish)

/-- The operations, newest first, from state `s`. -/
def dealAll (x : E.Choice) (s : State E) : List Dealing → Option (State E)
  | [] => some s
  | op :: l => (dealAll x s l).bind fun s' => if op.Allowed l then op.perform x s' else none

theorem dealings_of_dealAll {x : E.Choice} {s s' : State E} {l : List Dealing}
    (h : dealAll x s l = some s') : Dealings s l s' := by
  induction l generalizing s' with
  | nil =>
    cases h
    exact .nil
  | cons op l ih =>
    obtain ⟨u, hu, h⟩ := Option.bind_eq_some_iff.mp h
    split_ifs at h with hallowed
    exact .cons (ih hu) hallowed (Dealing.dealt_of_perform h)

/-- Two clients log in and trade; the first one logs out, and its name logs in again. -/
def twoClients : List Dealing :=
  [.unref 9 0, .logout 0 0, .login 2 5 ⟨2, [97, 0]⟩ none, .account 1 1 (.increase .inventory 7),
    .ref 9 0, .login 1 4 ⟨1, [98, 0]⟩ (some 1), .account 0 0 (.decrease .balance 3),
    .account 0 0 (.increase .balance 5), .login 0 3 ⟨0, [97, 0]⟩ (some 0)]

theorem first_client_logs_in : ∃ s : State (.fixed 1 1), s.accounts 0 = some (2, 0) ∧
    Total (alone _) 3 (traderLogin 6 ⟨3, [97, 0, 98]⟩)
      (fun r s' => r = some 0 ∧ s'.accounts 0 = some (2, 0)) s := by
  have hrun : (dealAll (E := .fixed 1 1) () (State.init _ () 4) twoClients).isSome = true := by
    decide +kernel
  obtain ⟨s, hs⟩ := Option.isSome_iff_exists.mp hrun
  have hknown : Dealing.login 0 3 ⟨0, [97, 0]⟩ (some 0) ∈ twoClients := List.mem_of_getLast? rfl
  obtain ⟨hacc, hlogin⟩ := known_name_logs_in (dealings_of_dealAll hs) hknown
  exact ⟨s, hacc, hlogin 3 6 ⟨3, [97, 0, 98]⟩ (by decide) (by decide)⟩

end BourseServer
