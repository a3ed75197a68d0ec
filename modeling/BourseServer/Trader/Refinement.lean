import BourseServer.Trader.Clients

/-!
# The table represents the clients

In a run of operations one after the other, no trader ever loses its last reference: the table
keeps one, a session another, and other holders only release what they have taken. So a name that
has logged in stays in the table, and the code does to it what `Clients` says.
-/
namespace BourseServer

open Concurrency

variable {E : Exchange}

/-! ## Operations of the code -/

/-- An operation that runs without interference. -/
inductive Dealt (s : State E) : Dealing → State E → Prop where
  | login {t : Nat} {fd : Int} {name : CString} {r : Option Nat} {s' : State E} : 0 ≤ fd →
      Runs (machine E) zeroRef t (traderLogin fd name) s r s' → Dealt s (.login t fd name r) s'
  | logout {t a : Nat} {s' : State E} :
      Runs (machine E) zeroRef t (traderLogout a) s () s' → Dealt s (.logout t a) s'
  | ref {t a r : Nat} {s' : State E} :
      Runs (machine E) zeroRef t (traderRef a) s r s' → Dealt s (.ref t a) s'
  | unref {t a : Nat} {s' : State E} :
      Runs (machine E) zeroRef t (traderUnref a) s () s' → Dealt s (.unref t a) s'
  | account {t a : Nat} {c : AccountCall} {s' : State E} :
      Runs (machine E) zeroRef t (runAccount a c) s () s' → Dealt s (.account t a c) s'

/-- A logout is that of the session that is logged in, and a reference is released only after it
has been taken. -/
def Dealing.Allowed (l : List Dealing) : Dealing → Prop
  | .logout _ a => hasSession l a = true
  | .unref _ a => 0 < refsHeld l a
  | _ => True

/-- Operations, newest first, and the state they lead to. -/
inductive Dealings (s₀ : State E) : List Dealing → State E → Prop where
  | nil : Dealings s₀ [] s₀
  | cons {l : List Dealing} {op : Dealing} {s s' : State E} : Dealings s₀ l s → op.Allowed l →
      Dealt s op s' → Dealings s₀ (op :: l) s'

/-! ## The directory and the clients -/

/-- The directory represents the clients, and `held` references are there besides those of the
table and of the sessions. -/
structure Directory.Represents (d : Directory) (C : Clients) (held : Nat → Nat) : Prop where
  client : ∀ a en, d.entries a = some en →
    ∃ cl, C en.name.text = some cl ∧ cl.trader = a ∧ (cl.present = true ↔ en.fd ≠ -1)
  entry : ∀ n cl, C n = some cl → ∃ en, d.entries cl.trader = some en ∧ en.name.text = n
  stored : ∀ a en, d.entries a = some en → ∃ i, i < maxTraders ∧ d.slots i = some a
  live : ∀ i a, d.slots i = some a → d.entries a ≠ none
  room : d.occupied ≤ d.count
  refs : ∀ a en, d.entries a = some en → 1 + (if en.fd ≠ -1 then 1 else 0) + held a ≤ en.ref
  fresh : ∀ a, d.entries a = none → held a = 0

namespace Directory

variable {d : Directory} {C : Clients} {held held' : Nat → Nat} {a : Nat} {name : CString}
  {en en' : Entry} {cl cl' : Client}

/-- The trader that is found under a name has this name. -/
theorem text_of_named (h : d.named name = some a) :
    ∃ en, d.entries a = some en ∧ en.name.text = name.text := by
  obtain ⟨i, _, hi⟩ := List.exists_of_findSome?_eq_some h
  obtain ⟨_, hany⟩ := Option.filter_eq_some_iff.mp hi
  obtain ⟨en, hen, heq⟩ := (Option.any_eq_true ..).mp hany
  exact ⟨en, hen, strcmpEq_iff.mp heq⟩

/-- A trader that is stored is found. -/
theorem not_named {i : Nat} (h : d.named name = none) (hi : i < maxTraders)
    (hslot : d.slots i = some a) (hen : d.entries a = some en) : en.name.text ≠ name.text := by
  intro heq
  have hnone := List.findSome?_eq_none_iff.mp h i (List.mem_range.mpr hi)
  rw [slotNamed_of_entry name hslot hen, if_pos (strcmpEq_iff.mpr heq)] at hnone
  cases hnone

namespace Represents

theorem client_of_named (h : d.Represents C held) (hnamed : d.named name = some a)
    (hen : d.entries a = some en) :
    ∃ cl, C name.text = some cl ∧ cl.trader = a ∧ (cl.present = true ↔ en.fd ≠ -1) := by
  obtain ⟨en', hen', htext⟩ := text_of_named hnamed
  obtain rfl := Option.some.inj (hen.symm.trans hen')
  rw [← htext]
  exact h.client a en hen

theorem unknown_of_not_named (h : d.Represents C held) (hnamed : d.named name = none) :
    C name.text = none := by
  by_contra hsome
  obtain ⟨cl, hcl⟩ := Option.ne_none_iff_exists'.mp hsome
  obtain ⟨en, hen, htext⟩ := h.entry name.text cl hcl
  obtain ⟨i, hi, hslot⟩ := h.stored cl.trader en hen
  exact not_named hnamed hi hslot hen htext

theorem unknown_trader (h : d.Represents C held) (hnone : d.entries a = none) :
    ∀ n cl, C n = some cl → cl.trader ≠ a := by
  rintro n cl hcl rfl
  obtain ⟨en, hen, _⟩ := h.entry n cl hcl
  cases hnone.symm.trans hen

/-- The entry of one trader changes, and its client. -/
theorem setEntry (session : Nat → Option Nat) (h : d.Represents C held)
    (hen : d.entries a = some en) (hcl : C en.name.text = some cl) (hname : en'.name = en.name)
    (htrader : cl'.trader = a) (hfd : cl'.present = true ↔ en'.fd ≠ -1)
    (hrefs : 1 + (if en'.fd ≠ -1 then 1 else 0) + held' a ≤ en'.ref)
    (hheld : ∀ b, b ≠ a → held' b = held b) :
    Represents { d.setEntry a en' with session := session }
      (Function.update C en.name.text (some cl')) held' := by
  have hback : ∀ b enb, (d.setEntry a en').entries b = some enb →
      (b = a ∧ enb = en') ∨ (b ≠ a ∧ d.entries b = some enb) := by
    intro b enb hb
    by_cases hba : b = a
    · subst hba
      exact .inl ⟨rfl, (Option.some.inj ((setEntry_self d b en').symm.trans hb)).symm⟩
    · exact .inr ⟨hba, (setEntry_of_ne d en' hba).symm.trans hb⟩
  have htrader_old : cl.trader = a := by
    obtain ⟨clm, hm, htr, _⟩ := h.client a en hen
    obtain rfl := Option.some.inj (hcl.symm.trans hm)
    exact htr
  constructor
  case client =>
    intro b enb hb
    rcases hback b enb hb with ⟨rfl, rfl⟩ | ⟨hba, hb'⟩
    · rw [hname]
      exact ⟨cl', Function.update_self .., htrader, hfd⟩
    · obtain ⟨clb, hclb, htr, hfdb⟩ := h.client b enb hb'
      have htext : enb.name.text ≠ en.name.text := by
        intro heq
        rw [heq, hcl] at hclb
        obtain rfl := Option.some.inj hclb
        exact hba (htr.symm.trans htrader_old)
      exact ⟨clb, (Function.update_of_ne htext _ _).trans hclb, htr, hfdb⟩
  case entry =>
    intro n clm hn
    by_cases hname' : n = en.name.text
    · subst hname'
      rw [Function.update_self] at hn
      obtain rfl := Option.some.inj hn
      rw [htrader]
      exact ⟨en', setEntry_self d a en', by rw [hname]⟩
    · rw [Function.update_of_ne hname'] at hn
      obtain ⟨enm, hm, htext⟩ := h.entry n clm hn
      have hma : clm.trader ≠ a := by
        intro heq
        rw [heq, hen] at hm
        obtain rfl := Option.some.inj hm
        exact hname' htext.symm
      exact ⟨enm, (setEntry_of_ne d en' hma).trans hm, htext⟩
  case stored =>
    intro b enb hb
    rcases hback b enb hb with ⟨rfl, _⟩ | ⟨_, hb'⟩
    · exact h.stored b en hen
    · exact h.stored b enb hb'
  case live =>
    intro i b hslot
    by_cases hba : b = a
    · subst hba
      exact fun hnone => by cases (setEntry_self d b en').symm.trans hnone
    · exact fun hnone => h.live i b hslot ((setEntry_of_ne d en' hba).symm.trans hnone)
  case room => exact h.room
  case refs =>
    intro b enb hb
    rcases hback b enb hb with ⟨rfl, rfl⟩ | ⟨hba, hb'⟩
    · exact hrefs
    · rw [hheld b hba]
      exact h.refs b enb hb'
  case fresh =>
    intro b hb
    have hba : b ≠ a := by
      rintro rfl
      cases (setEntry_self d b en').symm.trans hb
    rw [hheld b hba]
    exact h.fresh b ((setEntry_of_ne d en' hba).symm.trans hb)

/-- References of a trader are taken or released. -/
theorem setRef {r : Int} (h : d.Represents C held) (hen : d.entries a = some en)
    (hrefs : 1 + (if en.fd ≠ -1 then 1 else 0) + held' a ≤ r)
    (hheld : ∀ b, b ≠ a → held' b = held b) :
    (d.setEntry a { en with ref := r }).Represents C held' := by
  obtain ⟨cl, hcl, htr, hfd⟩ := h.client a en hen
  have hset : Represents { d.setEntry a { en with ref := r } with session := d.session }
      (Function.update C en.name.text (some cl)) held' :=
    h.setEntry d.session hen hcl rfl htr hfd hrefs hheld
  rwa [Function.update_eq_self_iff.mpr hcl.symm] at hset

/-- A new trader is put in a free slot. -/
theorem insert {i : Nat} {fd : Int} (session : Nat → Option Nat) (h : d.Represents C held)
    (hcl : C name.text = none) (hnone : d.entries a = none) (hi : i < maxTraders)
    (hfree : d.slots i = none) (hfd : fd ≠ -1) :
    Represents { d.setEntry a ⟨2, fd, name⟩ with
      slots := Function.update d.slots i (some a)
      count := d.count + 1
      session := session } (Function.update C name.text (some ⟨a, (0, 0), true⟩)) held := by
  have hback : ∀ b enb, (d.setEntry a ⟨2, fd, name⟩).entries b = some enb →
      (b = a ∧ enb = ⟨2, fd, name⟩) ∨ (b ≠ a ∧ d.entries b = some enb) := by
    intro b enb hb
    by_cases hba : b = a
    · subst hba
      exact .inl ⟨rfl, (Option.some.inj ((setEntry_self d b _).symm.trans hb)).symm⟩
    · exact .inr ⟨hba, (setEntry_of_ne d _ hba).symm.trans hb⟩
  constructor
  case client =>
    intro b enb hb
    rcases hback b enb hb with ⟨rfl, rfl⟩ | ⟨_, hb'⟩
    · exact ⟨_, Function.update_self .., rfl, by simp [hfd]⟩
    · obtain ⟨clb, hclb, htr, hfdb⟩ := h.client b enb hb'
      have htext : enb.name.text ≠ name.text := by
        intro heq
        rw [heq, hcl] at hclb
        cases hclb
      exact ⟨clb, (Function.update_of_ne htext _ _).trans hclb, htr, hfdb⟩
  case entry =>
    intro n clm hn
    by_cases hname : n = name.text
    · subst hname
      rw [Function.update_self] at hn
      obtain rfl := Option.some.inj hn
      exact ⟨_, setEntry_self d a _, rfl⟩
    · rw [Function.update_of_ne hname] at hn
      obtain ⟨enm, hm, htext⟩ := h.entry n clm hn
      have hma : clm.trader ≠ a := by
        intro heq
        rw [heq, hnone] at hm
        cases hm
      exact ⟨enm, (setEntry_of_ne d _ hma).trans hm, htext⟩
  case stored =>
    intro b enb hb
    rcases hback b enb hb with ⟨rfl, _⟩ | ⟨_, hb'⟩
    · exact ⟨i, hi, Function.update_self ..⟩
    · obtain ⟨j, hj, hslot⟩ := h.stored b enb hb'
      have hji : j ≠ i := by
        rintro rfl
        cases hfree.symm.trans hslot
      exact ⟨j, hj, (Function.update_of_ne hji _ _).trans hslot⟩
  case live =>
    intro j b hslot hb
    have hba : b ≠ a := by
      rintro rfl
      cases (setEntry_self d b _).symm.trans hb
    have hji : j ≠ i := by
      rintro rfl
      simp only [Function.update_self] at hslot
      exact hba (Option.some.inj hslot).symm
    exact h.live j b ((Function.update_of_ne hji _ _).symm.trans hslot)
      ((setEntry_of_ne d _ hba).symm.trans hb)
  case room =>
    have hfill := occupied_fill (a := a) hi hfree
      (v := { d.setEntry a ⟨2, fd, name⟩ with
        slots := Function.update d.slots i (some a)
        count := d.count + 1
        session := session }) rfl
    have hroom := h.room
    dsimp only at hfill ⊢
    omega
  case refs =>
    intro b enb hb
    rcases hback b enb hb with ⟨rfl, rfl⟩ | ⟨_, hb'⟩
    · simp [hfd, h.fresh b hnone]
    · exact h.refs b enb hb'
  case fresh =>
    intro b hb
    have hba : b ≠ a := by
      rintro rfl
      cases (setEntry_self d b _).symm.trans hb
    exact h.fresh b ((setEntry_of_ne d _ hba).symm.trans hb)

end Represents

end Directory

/-! ## The operations -/

section operations

variable {t a : Nat} {d : Directory} {C : Clients} {held : Nat → Nat}

/-- A login is one of the clients. -/
theorem represents_traderLogin {fd : Int} {name : CString} (h : d.Represents C held)
    (hfd : fd ≠ -1) :
    Spec E t (traderLogin fd name) d fun r d' =>
      ∃ C', C.Step (.login t fd name r) C' ∧ d'.Represents C' held := by
  apply Spec.traderLogin
  · intro b en hnamed hen hin
    obtain ⟨cl, hcl, _, hpresent⟩ := h.client_of_named hnamed hen
    have hrefs := h.refs b en hen
    refine ⟨C, .reject hcl (hpresent.mpr hin), h.setRef hen ?_ fun _ _ => rfl⟩
    omega
  · intro b en hnamed hen hout
    obtain ⟨cl, hcl, rfl, hpresent⟩ := h.client_of_named hnamed hen
    obtain ⟨en', hen', htext⟩ := Directory.text_of_named hnamed
    obtain rfl := Option.some.inj (hen.symm.trans hen')
    have habsent : cl.present = false := by
      rw [← Bool.not_eq_true, hpresent]
      exact not_not.mpr hout
    have hrefs := h.refs cl.trader en hen
    refine ⟨_, .resume hcl habsent, ?_⟩
    rw [← htext] at hcl ⊢
    refine h.setEntry _ hen hcl rfl rfl ?_ ?_ fun _ _ => rfl
    · simp [hfd]
    · simp only [hout] at hrefs
      simp [hfd] at hrefs ⊢
      omega
  · exact fun hnamed _ => ⟨C, .full (h.unknown_of_not_named hnamed), h⟩
  · intro b i hnamed _ hnone hi hfree
    have hunknown := h.unknown_of_not_named hnamed
    exact ⟨_, .enrol hunknown (h.unknown_trader hnone), h.insert _ hunknown hnone hi hfree hfd⟩
  · intro b _ hlt _ hno
    obtain ⟨i, hi, hfree⟩ := Directory.exists_free (h.room.trans_lt hlt)
    exact absurd hfree (hno i hi)

theorem represents_traderLogout {n : List UInt8} {cl : Client} (h : d.Represents C held)
    (hcl : C n = some cl) (hin : cl.present = true) :
    Spec E t (traderLogout cl.trader) d fun _ d' =>
      d'.Represents (Function.update C n (some { cl with present := false })) held ∧
        ∀ b, d'.entries b = none ↔ d.entries b = none := by
  obtain ⟨en, hen, rfl⟩ := h.entry n cl hcl
  obtain ⟨cl', hcl', _, hpresent⟩ := h.client cl.trader en hen
  obtain rfl := Option.some.inj (hcl.symm.trans hcl')
  have hrefs := h.refs cl.trader en hen
  rw [if_pos (hpresent.mp hin)] at hrefs
  apply Spec.traderLogout hen (by omega) (h.stored cl.trader en hen)
  constructor
  · refine h.setEntry _ hen hcl rfl rfl ?_ ?_ fun _ _ => rfl
    · simp
    · simp
      omega
  · intro b
    by_cases hb : b = cl.trader
    · subst hb
      simp [hen]
    · exact iff_of_eq (congrArg (· = none) (Directory.setEntry_of_ne d _ hb))

theorem represents_traderRef (h : d.Represents C held) :
    Spec E t (traderRef a) d fun _ d' =>
      d'.Represents C (Function.update held a (held a + 1)) := by
  apply Spec.traderRef
  intro en hen
  have hrefs := h.refs a en hen
  refine h.setRef hen ?_ fun b hb => Function.update_of_ne hb ..
  rw [Function.update_self]
  push_cast
  omega

theorem represents_traderUnref (h : d.Represents C held) (hpos : 0 < held a) :
    Spec E t (traderUnref a) d fun _ d' =>
      d'.Represents C (Function.update held a (held a - 1)) ∧
        ∀ b, d'.entries b = none ↔ d.entries b = none := by
  have hlive : d.entries a ≠ none := by
    intro hnone
    have hzero := h.fresh a hnone
    omega
  obtain ⟨en, hen⟩ := Option.ne_none_iff_exists'.mp hlive
  have hrefs := h.refs a en hen
  have hone : en.ref ≠ 1 := by
    split_ifs at hrefs <;> omega
  apply Spec.traderUnref hen hone
  constructor
  · refine h.setRef hen ?_ fun b hb => Function.update_of_ne hb ..
    rw [Function.update_self]
    omega
  · intro b
    by_cases hb : b = a
    · subst hb
      simp [hen]
    · exact iff_of_eq (congrArg (· = none) (Directory.setEntry_of_ne d _ hb))

/-- An account is not part of the directory. -/
theorem same_loadAsset {x : Asset} {R : UInt32 → Directory → Prop} (hR : ∀ v, R v d) :
    Spec E t (loadAsset x a) d R := by
  rintro s rfl
  cases x <;>
  · refine Partial.act fun e r s' he _ => ?_
    obtain ⟨tr, _, _, rfl⟩ := exec_load (t := t) (e := e) he
    exact hR r

theorem same_increaseAsset {x : Asset} {n : UInt32} :
    Spec E t (increaseAsset x a n) d fun _ d' => d' = d :=
  Spec.scope (Spec.bind (Spec.lock (Spec.bind (same_loadAsset fun _ =>
    Spec.bind (Spec.storeAsset (Spec.unlock rfl))))))

theorem same_decreaseAsset {x : Asset} {n : UInt32} :
    Spec E t (decreaseAsset x a n) d fun _ d' => d' = d := by
  refine Spec.scope (Spec.bind (Spec.lock (Spec.bind (same_loadAsset fun v => ?_))))
  split_ifs
  · exact Spec.bind (same_loadAsset fun _ => Spec.bind (Spec.storeAsset
      (Spec.bind (Spec.unlock (Spec.ret rfl)))))
  · exact Spec.bind (Spec.unlock (Spec.ret rfl))

theorem same_runAccount {c : AccountCall} :
    Spec E t (runAccount a c) d fun _ d' => d' = d := by
  cases c with
  | increase x n => cases x <;> exact same_increaseAsset
  | decrease x n =>
    cases x <;>
    · refine Spec.bind ?_
      rintro s rfl
      refine (same_decreaseAsset s rfl).mono fun _ s' hs => ?_
      exact hs ▸ Spec.ret rfl

end operations

/-! ## The accounts -/

section accounts

variable {ok : Condition (machine E)} {t a : Nat} {s s' : State E} {C C' : Clients}
  {l : List Dealing} {op : Dealing}

/-- The accounts of the clients are those in the records of their traders. -/
def State.Credits (s : State E) (C : Clients) : Prop :=
  ∀ n cl, C n = some cl → s.accounts cl.trader = some cl.account

theorem accounts_eq_none_iff : s.accounts a = none ↔ s.directory.entries a = none := by
  simp [State.accounts, State.directory]

theorem partial_runAccount {c : AccountCall} :
    Partial (machine E) ok t (runAccount a c) (fun _ s' => ∃ acc, s.accounts a = some acc ∧
      s'.accounts = Function.update s.accounts a (some (c.perform acc).1)) s := by
  cases c with
  | increase x n =>
    cases x <;>
    · refine partial_increaseAsset.mono fun _ s' hp => ?_
      obtain ⟨acc, hacc, _, hacc'⟩ := hp
      exact ⟨acc, hacc, hacc'⟩
  | decrease x n =>
    cases x <;>
    · refine Partial.bind (partial_decreaseAsset.mono fun _ s' hp => Partial.ret ?_)
      obtain ⟨acc, hacc, _, hacc'⟩ := hp
      exact ⟨acc, hacc, hacc'⟩

/-- Accounts are closed only together with the entries of their traders. -/
theorem Closes.accounts_eq (h : Closes s s')
    (hentries : ∀ b, s'.directory.entries b = none ↔ s.directory.entries b = none) :
    s'.accounts = s.accounts := by
  funext b
  rcases h b with hb | hb
  · exact hb
  · rw [hb, eq_comm, accounts_eq_none_iff, ← hentries b, ← accounts_eq_none_iff]
    exact hb

/-- A login opens an account only for a new client. -/
theorem credits_of_opens {held : Nat → Nat} {fd : Int} {name : CString} {r : Option Nat}
    (h : s.Credits C) (ho : Opens s s') (hstep : C.Step (.login t fd name r) C')
    (hd : s.directory.Represents C held) (hd' : s'.directory.Represents C' held) :
    s'.Credits C' := by
  have hkept : s'.Credits C := by
    intro n cl hn
    have hacc := h n cl hn
    rcases ho with hsame | ⟨b, hb, hopen⟩
    · rwa [hsame]
    · have hne : cl.trader ≠ b := by
        rintro rfl
        cases hb.symm.trans hacc
      rwa [hopen, Function.update_of_ne hne]
  cases hstep with
  | full _ => exact hkept
  | reject _ _ => exact hkept
  | @resume _ _ _ cl hn _ =>
    intro n clm hm
    by_cases hname : n = name.text
    · subst hname
      rw [Function.update_self] at hm
      obtain rfl := Option.some.inj hm
      exact hkept name.text cl hn
    · rw [Function.update_of_ne hname] at hm
      exact hkept n clm hm
  | @enrol _ a _ _ hn hfresh =>
    intro n clm hm
    by_cases hname : n = name.text
    · subst hname
      obtain ⟨en, hen, _⟩ := hd'.entry name.text clm hm
      rw [Function.update_self] at hm
      obtain rfl := Option.some.inj hm
      have hbefore : s.accounts a = none := by
        rw [accounts_eq_none_iff]
        by_contra hlive
        obtain ⟨en₀, hen₀⟩ := Option.ne_none_iff_exists'.mp hlive
        obtain ⟨cl, hcl, htr, _⟩ := hd.client a en₀ hen₀
        exact hfresh _ cl hcl htr
      have hafter : s'.accounts a ≠ none := by
        rw [Ne, accounts_eq_none_iff, hen]
        exact Option.some_ne_none en
      rcases ho with hsame | ⟨b, _, hopen⟩
      · exact absurd (hsame ▸ hbefore) hafter
      · by_cases hab : a = b
        · subst hab
          rw [hopen, Function.update_self]
        · rw [hopen, Function.update_of_ne hab] at hafter
          exact absurd hbefore hafter
    · rw [Function.update_of_ne hname] at hm
      exact hkept n clm hm

end accounts

/-! ## The simulation -/

section simulation

variable {s s' : State E} {C : Clients} {l : List Dealing} {op : Dealing}

/-- The client of a trader that has a session. -/
theorem Clients.After.client_of_session {a : Nat} (h : C.After l) (hs : hasSession l a = true) :
    ∃ n cl, C n = some cl ∧ cl.trader = a ∧ cl.present = true := by
  by_contra hno
  have hnone : ∀ n cl, C n = some cl → cl.trader ≠ a := by
    rintro n cl hn rfl
    exact hno ⟨n, cl, hn, rfl, (h.present n cl hn).trans hs⟩
  rw [(h.fresh a hnone).2] at hs
  cases hs

/-- Every operation of the code is an operation on the clients. -/
theorem step_of_dealt (hdealt : Dealt s op s') (hallowed : op.Allowed l) (hrun : Clients.Run l C)
    (hd : s.directory.Represents C (refsHeld l)) (hc : s.Credits C) :
    ∃ C', C.Step op C' ∧ s'.directory.Represents C' (refsHeld (op :: l)) ∧ s'.Credits C' := by
  cases hdealt with
  | @login t fd name r s' hfd hr =>
    obtain ⟨C', hstep, hd'⟩ := represents_traderLogin hd (by omega) s rfl r s' hr
    have hopens := partial_traderLogin_accounts (s := s) r s' hr
    exact ⟨C', hstep, hd', credits_of_opens hc hopens hstep hd hd'⟩
  | @logout t a s' hr =>
    obtain ⟨n, cl, hn, rfl, hin⟩ := hrun.after.client_of_session hallowed
    obtain ⟨hd', hentries⟩ := represents_traderLogout hd hn hin s rfl () s' hr
    have hsame : s'.accounts = s.accounts :=
      Closes.accounts_eq ((closingCall_traderLogout cl.trader).built.partial_closes s () s' hr)
        hentries
    refine ⟨_, .logout hn hin, hd', fun m clm hm => ?_⟩
    rw [hsame]
    by_cases hmn : m = n
    · subst hmn
      rw [Function.update_self] at hm
      obtain rfl := Option.some.inj hm
      exact hc m cl hn
    · rw [Function.update_of_ne hmn] at hm
      exact hc m clm hm
  | @ref t a r s' hr =>
    have hd' := represents_traderRef hd s rfl r s' hr
    have hsame : s'.accounts = s.accounts :=
      (plainCall_traderRef a).built.partial_accounts s r s' hr
    refine ⟨C, .ref, ?_, fun n cl hn => ?_⟩
    · have hheld : refsHeld (.ref t a :: l) =
          Function.update (refsHeld l) a (refsHeld l a + 1) := by
        funext b
        simp only [refsHeld, List.foldr_cons, Dealing.hold, Function.update_apply]
        grind
      rw [hheld]
      exact hd'
    · rw [hsame]
      exact hc n cl hn
  | @unref t a s' hr =>
    obtain ⟨hd', hentries⟩ := represents_traderUnref hd hallowed s rfl () s' hr
    have hsame : s'.accounts = s.accounts :=
      Closes.accounts_eq ((closingCall_traderUnref a).built.partial_closes s () s' hr) hentries
    refine ⟨C, .unref, ?_, fun n cl hn => ?_⟩
    · have hheld : refsHeld (.unref t a :: l) =
          Function.update (refsHeld l) a (refsHeld l a - 1) := by
        funext b
        simp only [refsHeld, List.foldr_cons, Dealing.hold, Function.update_apply]
        grind
      rw [hheld]
      exact hd'
    · rw [hsame]
      exact hc n cl hn
  | @account t a c s' hr =>
    have hsame : s'.directory = s.directory := same_runAccount s rfl () s' hr
    obtain ⟨acc, hacc, hacc'⟩ := partial_runAccount (s := s) () s' hr
    have hlive : s.directory.entries a ≠ none := by
      rw [Ne, ← accounts_eq_none_iff, hacc]
      exact Option.some_ne_none acc
    obtain ⟨en, hen⟩ := Option.ne_none_iff_exists'.mp hlive
    obtain ⟨cl, hn, rfl, hfd⟩ := hd.client a en hen
    obtain rfl := Option.some.inj ((hc _ cl hn).symm.trans hacc)
    refine ⟨_, .account hn, ?_, fun m clm hm => ?_⟩
    · rw [hsame]
      have hset : Directory.Represents { s.directory.setEntry cl.trader en with
          session := s.directory.session } (Function.update C en.name.text
            (some { cl with account := (c.perform cl.account).1 })) (refsHeld l) :=
        hd.setEntry _ hen hn rfl rfl hfd (hd.refs _ en hen) fun _ _ => rfl
      rw [Directory.setEntry_eq hen] at hset
      exact hset
    · rw [hacc']
      by_cases hmn : m = en.name.text
      · subst hmn
        rw [Function.update_self] at hm
        obtain rfl := Option.some.inj hm
        rw [Function.update_self]
      · rw [Function.update_of_ne hmn] at hm
        have hne : clm.trader ≠ cl.trader := fun heq => hmn (hrun.after.apart m _ clm cl hm hn heq)
        rw [Function.update_of_ne hne]
        exact hc m clm hm

/-- A run of operations is one on the clients. -/
theorem run_of_dealings {x : E.State} {n : Nat} (h : Dealings (State.init E x n) l s) :
    ∃ C, Clients.Run l C ∧ s.directory.Represents C (refsHeld l) ∧ s.Credits C := by
  induction h with
  | nil =>
    refine ⟨fun _ => none, .nil, ?_, fun _ _ hn => by cases hn⟩
    constructor
    case room => simp [State.init, State.directory, Directory.occupied]
    all_goals simp [State.init, State.directory, refsHeld]
  | cons _ hallowed hdealt ih =>
    obtain ⟨C, hrun, hd, hc⟩ := ih
    obtain ⟨C', hstep, hd', hc'⟩ := step_of_dealt hdealt hallowed hrun hd hc
    exact ⟨C', .cons hrun hstep, hd', hc'⟩

end simulation

end BourseServer
