import BourseServer.Trader.References
import BourseServer.Trader.Accounts

/-!
# Clients

To those who call it, the trader module is a map from names to clients. A client keeps its trader
and its account from one session to the next, and has at most one session at a time. Operations
that run one after the other, as the code of the module has it, are operations on this map.
-/
namespace BourseServer

open Concurrency

/-! ## The map -/

structure Client where
  trader : Nat
  account : UInt32 × UInt32
  present : Bool

/-- The clients by their names. -/
abbrev Clients := List UInt8 → Option Client

/-- An operation by thread `t`. A login comes with the trader it returns. -/
inductive Dealing where
  | login (t : Nat) (fd : Int) (name : CString) (r : Option Nat)
  | logout (t a : Nat)
  | ref (t a : Nat)
  | unref (t a : Nat)
  | account (t a : Nat) (c : AccountCall)

/-- What operations do to the clients. -/
inductive Clients.Step (C : Clients) : Dealing → Clients → Prop where
  | enrol {t a : Nat} {fd : Int} {name : CString} : C name.text = none →
      (∀ n cl, C n = some cl → cl.trader ≠ a) →
      Step C (.login t fd name (some a)) (Function.update C name.text (some ⟨a, (0, 0), true⟩))
  | full {t : Nat} {fd : Int} {name : CString} : C name.text = none →
      Step C (.login t fd name none) C
  | resume {t : Nat} {fd : Int} {name : CString} {cl : Client} : C name.text = some cl →
      cl.present = false → Step C (.login t fd name (some cl.trader))
        (Function.update C name.text (some { cl with present := true }))
  | reject {t : Nat} {fd : Int} {name : CString} {cl : Client} : C name.text = some cl →
      cl.present = true → Step C (.login t fd name none) C
  | logout {t : Nat} {n : List UInt8} {cl : Client} : C n = some cl → cl.present = true →
      Step C (.logout t cl.trader) (Function.update C n (some { cl with present := false }))
  | ref {t a : Nat} : Step C (.ref t a) C
  | unref {t a : Nat} : Step C (.unref t a) C
  | account {t : Nat} {n : List UInt8} {cl : Client} {c : AccountCall} : C n = some cl →
      Step C (.account t cl.trader c)
        (Function.update C n (some { cl with account := (c.perform cl.account).1 }))

/-- Operations, newest first, and the clients they lead to. -/
inductive Clients.Run : List Dealing → Clients → Prop where
  | nil : Run [] fun _ => none
  | cons {l : List Dealing} {op : Dealing} {C C' : Clients} : Run l C → C.Step op C' →
      Run (op :: l) C'

/-! ## What has been done to a trader -/

namespace Dealing

/-- What an operation does to the account of trader `a`. -/
def apply (a : Nat) : Dealing → UInt32 × UInt32 → UInt32 × UInt32
  | .account _ b c, acc => if b = a then (c.perform acc).1 else acc
  | _, acc => acc

/-- Whether trader `a` is logged in after an operation. -/
def session (a : Nat) : Dealing → Bool → Bool
  | .login _ _ _ r, p => if r = some a then true else p
  | .logout _ b, p => if b = a then false else p
  | _, p => p

/-- How many references other holders have to trader `a` after an operation. -/
def hold (a : Nat) : Dealing → Nat → Nat
  | .ref _ b, n => if b = a then n + 1 else n
  | .unref _ b, n => if b = a then n - 1 else n
  | _, n => n

/-- The operation is a login that has returned trader `a`. -/
def logsIn (a : Nat) : Dealing → Bool
  | .login _ _ _ r => r = some a
  | _ => false

end Dealing

/-- The account of trader `a` after these operations, newest first. -/
def accountAfter (l : List Dealing) (a : Nat) : UInt32 × UInt32 :=
  l.foldr (Dealing.apply a) (0, 0)

/-- Trader `a` has logged in and not logged out since. -/
def hasSession (l : List Dealing) (a : Nat) : Bool := l.foldr (Dealing.session a) false

/-- The references to trader `a` that have been taken and not released. -/
def refsHeld (l : List Dealing) (a : Nat) : Nat := l.foldr (Dealing.hold a) 0

/-- The clients are those that these operations have left. -/
structure Clients.After (C : Clients) (l : List Dealing) : Prop where
  apart : ∀ n m cl cl', C n = some cl → C m = some cl' → cl.trader = cl'.trader → n = m
  account : ∀ n cl, C n = some cl → cl.account = accountAfter l cl.trader
  present : ∀ n cl, C n = some cl → cl.present = hasSession l cl.trader
  known : ∀ t fd name a, .login t fd name (some a) ∈ l →
    ∃ cl, C name.text = some cl ∧ cl.trader = a
  fresh : ∀ a, (∀ n cl, C n = some cl → cl.trader ≠ a) →
    accountAfter l a = (0, 0) ∧ hasSession l a = false

namespace Clients.After

variable {C : Clients} {l : List Dealing} {op : Dealing} {cl cl' : Client} {n : List UInt8}

/-- Nothing is done to any client. -/
theorem keep (h : C.After l) (hacc : ∀ a acc, op.apply a acc = acc)
    (hses : ∀ a p, op.session a p = p) (hlogin : ∀ a, op.logsIn a = false) :
    C.After (op :: l) where
  apart := h.apart
  account n cl hn := (h.account n cl hn).trans (hacc cl.trader _).symm
  present n cl hn := (h.present n cl hn).trans (hses cl.trader _).symm
  known t fd name a hmem := by
    rcases List.mem_cons.mp hmem with rfl | hmem
    · have hno := hlogin a
      simp [Dealing.logsIn] at hno
    · exact h.known t fd name a hmem
  fresh a hfresh :=
    ⟨(hacc a _).trans (h.fresh a hfresh).1, (hses a _).trans (h.fresh a hfresh).2⟩

/-- An operation on one client. -/
theorem change (h : C.After l) (hn : C n = some cl) (htrader : cl'.trader = cl.trader)
    (hacc : cl'.account = op.apply cl.trader cl.account)
    (hses : cl'.present = op.session cl.trader cl.present)
    (hother : ∀ a, a ≠ cl.trader → (∀ acc, op.apply a acc = acc) ∧ ∀ p, op.session a p = p)
    (hlogin : ∀ t fd name a, op = .login t fd name (some a) → name.text = n ∧ a = cl.trader) :
    Clients.After (Function.update C n (some cl')) (op :: l) := by
  have hback : ∀ m clm, Function.update C n (some cl') m = some clm →
      (m = n ∧ clm = cl') ∨ (m ≠ n ∧ clm.trader ≠ cl.trader ∧ C m = some clm) := by
    intro m clm hm
    by_cases hmn : m = n
    · subst hmn
      rw [Function.update_self] at hm
      exact .inl ⟨rfl, (Option.some.inj hm).symm⟩
    · rw [Function.update_of_ne hmn] at hm
      exact .inr ⟨hmn, fun heq => hmn (h.apart m n clm cl hm hn heq), hm⟩
  constructor
  case apart =>
    intro m k clm clk hm hk heq
    rcases hback m clm hm with ⟨rfl, rfl⟩ | ⟨_, hne, hm'⟩
    · rcases hback k clk hk with ⟨rfl, rfl⟩ | ⟨_, hne', _⟩
      · rfl
      · exact absurd (heq.symm.trans htrader) hne'
    · rcases hback k clk hk with ⟨rfl, rfl⟩ | ⟨_, _, hk'⟩
      · exact absurd (heq.trans htrader) hne
      · exact h.apart m k clm clk hm' hk' heq
  case account =>
    intro m clm hm
    rcases hback m clm hm with ⟨rfl, rfl⟩ | ⟨_, hne, hm'⟩
    · rw [hacc, htrader, h.account m cl hn]
      rfl
    · rw [h.account m clm hm']
      exact ((hother clm.trader hne).1 _).symm
  case present =>
    intro m clm hm
    rcases hback m clm hm with ⟨rfl, rfl⟩ | ⟨_, hne, hm'⟩
    · rw [hses, htrader, h.present m cl hn]
      rfl
    · rw [h.present m clm hm']
      exact ((hother clm.trader hne).2 _).symm
  case known =>
    intro t fd name a hmem
    rcases List.mem_cons.mp hmem with heq | hmem
    · obtain ⟨rfl, rfl⟩ := hlogin t fd name a heq.symm
      exact ⟨cl', Function.update_self .., htrader⟩
    · obtain ⟨clm, hm, rfl⟩ := h.known t fd name a hmem
      by_cases hname : name.text = n
      · rw [hname] at hm ⊢
        obtain rfl := Option.some.inj (hn.symm.trans hm)
        exact ⟨cl', Function.update_self .., htrader⟩
      · exact ⟨clm, (Function.update_of_ne hname _ _).trans hm, rfl⟩
  case fresh =>
    intro a hfresh
    have hne : a ≠ cl.trader := by
      rintro rfl
      exact hfresh n cl' (Function.update_self ..) htrader
    have hold : ∀ m clm, C m = some clm → clm.trader ≠ a := by
      intro m clm hm
      by_cases hmn : m = n
      · subst hmn
        obtain rfl := Option.some.inj (hn.symm.trans hm)
        exact hne.symm
      · exact hfresh m clm ((Function.update_of_ne hmn _ _).trans hm)
    obtain ⟨hzero, hout⟩ := h.fresh a hold
    exact ⟨((hother a hne).1 _).trans hzero, ((hother a hne).2 _).trans hout⟩

/-- A new client is logged in. -/
theorem enrol {t a : Nat} {fd : Int} {name : CString} (h : C.After l) (hn : C name.text = none)
    (hfresh : ∀ n cl, C n = some cl → cl.trader ≠ a) :
    Clients.After (Function.update C name.text (some ⟨a, (0, 0), true⟩))
      (.login t fd name (some a) :: l) := by
  have hback : ∀ m clm, Function.update C name.text (some ⟨a, (0, 0), true⟩) m = some clm →
      (m = name.text ∧ clm = ⟨a, (0, 0), true⟩) ∨ (clm.trader ≠ a ∧ C m = some clm) := by
    intro m clm hm
    by_cases hmn : m = name.text
    · subst hmn
      rw [Function.update_self] at hm
      exact .inl ⟨rfl, (Option.some.inj hm).symm⟩
    · rw [Function.update_of_ne hmn] at hm
      exact .inr ⟨hfresh m clm hm, hm⟩
  constructor
  case apart =>
    intro m k clm clk hm hk heq
    rcases hback m clm hm with ⟨rfl, rfl⟩ | ⟨hne, hm'⟩
    · rcases hback k clk hk with ⟨rfl, rfl⟩ | ⟨hne', _⟩
      · rfl
      · exact absurd heq.symm hne'
    · rcases hback k clk hk with ⟨rfl, rfl⟩ | ⟨_, hk'⟩
      · exact absurd heq hne
      · exact h.apart m k clm clk hm' hk' heq
  case account =>
    intro m clm hm
    rcases hback m clm hm with ⟨rfl, rfl⟩ | ⟨_, hm'⟩
    · exact (h.fresh a hfresh).1.symm
    · exact h.account m clm hm'
  case present =>
    intro m clm hm
    rcases hback m clm hm with ⟨rfl, rfl⟩ | ⟨hne, hm'⟩
    · simp [hasSession, Dealing.session]
    · rw [h.present m clm hm']
      simp [hasSession, Dealing.session, Ne.symm hne]
  case known =>
    intro u fd' name' b hmem
    rcases List.mem_cons.mp hmem with heq | hmem
    · cases heq
      exact ⟨_, Function.update_self .., rfl⟩
    · obtain ⟨clm, hm, rfl⟩ := h.known u fd' name' b hmem
      have hname : name'.text ≠ name.text := by
        intro heq
        rw [heq, hn] at hm
        cases hm
      exact ⟨clm, (Function.update_of_ne hname _ _).trans hm, rfl⟩
  case fresh =>
    intro b hnew
    have hba : b ≠ a := by
      rintro rfl
      exact hnew name.text _ (Function.update_self ..) rfl
    have hold : ∀ m clm, C m = some clm → clm.trader ≠ b := by
      intro m clm hm
      have hmn : m ≠ name.text := by
        rintro rfl
        cases hn.symm.trans hm
      exact hnew m clm ((Function.update_of_ne hmn _ _).trans hm)
    obtain ⟨hzero, hout⟩ := h.fresh b hold
    refine ⟨hzero, ?_⟩
    simpa [hasSession, Dealing.session, Ne.symm hba] using hout

theorem step {C' : Clients} (h : C.After l) (hs : C.Step op C') : C'.After (op :: l) := by
  cases hs with
  | enrol hn hfresh => exact h.enrol hn hfresh
  | full hn => exact h.keep (fun _ _ => rfl) (fun _ _ => rfl) fun _ => rfl
  | @resume t fd name cl hn hout =>
    refine h.change hn rfl rfl ?_ ?_ ?_
    · simp [Dealing.session]
    · intro a ha
      exact ⟨fun _ => rfl, fun p => if_neg fun heq => ha (Option.some.inj heq).symm⟩
    · intro t' fd' name' a heq
      cases heq
      exact ⟨rfl, rfl⟩
  | reject hn hin => exact h.keep (fun _ _ => rfl) (fun _ _ => rfl) fun _ => rfl
  | @logout t n cl hn hin =>
    refine h.change hn rfl rfl ?_ ?_ ?_
    · simp [Dealing.session]
    · intro a ha
      exact ⟨fun _ => rfl, fun p => if_neg (Ne.symm ha)⟩
    · intro t' fd' name' a heq
      cases heq
  | ref => exact h.keep (fun _ _ => rfl) (fun _ _ => rfl) fun _ => rfl
  | unref => exact h.keep (fun _ _ => rfl) (fun _ _ => rfl) fun _ => rfl
  | @account t n cl c hn =>
    refine h.change hn rfl ?_ rfl ?_ ?_
    · simp [Dealing.apply]
    · intro a ha
      exact ⟨fun acc => if_neg (Ne.symm ha), fun _ => rfl⟩
    · intro t' fd' name' a heq
      cases heq

end Clients.After

theorem Clients.Run.after {C : Clients} {l : List Dealing} (h : Clients.Run l C) : C.After l := by
  induction h with
  | nil => constructor <;> simp [accountAfter, hasSession]
  | cons _ hs ih => exact ih.step hs

end BourseServer
