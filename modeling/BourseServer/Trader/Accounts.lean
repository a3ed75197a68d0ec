import BourseServer.Trader.Effects

/-!
# Accounts

What an account operation does to an account, and what it returns, is a function of the account:
an increase wraps at `2 ^ 32`, and a decrease of more than there is is refused. The code of the
operations computes this function when no other thread interferes. Of the other functions of the
trader module, login may open an account with nothing in it, and logout may close one.
-/
namespace BourseServer

open Concurrency

/-! ## Account operations -/

/-- A quantity of an account. -/
def Asset.of : Asset → UInt32 × UInt32 → UInt32
  | .balance, acc => acc.1
  | .inventory, acc => acc.2

def Asset.put : Asset → UInt32 → UInt32 × UInt32 → UInt32 × UInt32
  | .balance, v, acc => (v, acc.2)
  | .inventory, v, acc => (acc.1, v)

@[simp] theorem Asset.of_put_self (x : Asset) (v : UInt32) (acc : UInt32 × UInt32) :
    x.of (x.put v acc) = v := by
  cases x <;> rfl

theorem Asset.of_put_of_ne {x y : Asset} (h : y ≠ x) (v : UInt32) (acc : UInt32 × UInt32) :
    y.of (x.put v acc) = y.of acc := by
  cases x <;> cases y <;> first | rfl | exact absurd rfl h

/-- The account after an operation, and what the operation returns. -/
def AccountCall.perform : AccountCall → UInt32 × UInt32 → (UInt32 × UInt32) × Value
  | .increase x n, acc => (x.put (x.of acc + n) acc, .void)
  | .decrease x n, acc =>
    if n ≤ x.of acc then (x.put (x.of acc - n) acc, .int 0) else (acc, .int (-1))

namespace AccountCall

variable {x : Asset} {n : UInt32} {acc : UInt32 × UInt32}

theorem perform_of_le (h : n ≤ x.of acc) :
    (decrease x n).perform acc = (x.put (x.of acc - n) acc, .int 0) := if_pos h

theorem perform_of_not_le (h : ¬ n ≤ x.of acc) :
    (decrease x n).perform acc = (acc, .int (-1)) := if_neg h

/-- The operation is refused. -/
def refuses (c : AccountCall) (acc : UInt32 × UInt32) : Bool := (c.perform acc).2 = .int (-1)

theorem refuses_increase : (increase x n).refuses acc = false := rfl

theorem refuses_decrease : (decrease x n).refuses acc = !decide (n ≤ x.of acc) := by
  unfold refuses
  by_cases h : n ≤ x.of acc
  · rw [perform_of_le h]
    simp [h]
  · rw [perform_of_not_le h]
    simp [h]

/-- The quantity that an operation changes. -/
def asset : AccountCall → Asset
  | .increase x _ => x
  | .decrease x _ => x

/-- By how much an operation that is not refused is to change the quantity. -/
def change : AccountCall → Int
  | .increase _ n => n.toNat
  | .decrease _ n => -n.toNat

/-- The new quantity has 32 bits. -/
def Fits (c : AccountCall) (acc : UInt32 × UInt32) : Prop :=
  ((c.asset.of acc).toNat : Int) + c.change < 2 ^ 32

theorem perform_of_ne (c : AccountCall) {y : Asset} (h : y ≠ c.asset) :
    y.of (c.perform acc).1 = y.of acc := by
  cases c with
  | increase x n => exact Asset.of_put_of_ne h _ _
  | decrease x n =>
    by_cases hle : n ≤ x.of acc
    · rw [perform_of_le hle]
      exact Asset.of_put_of_ne h _ _
    · rw [perform_of_not_le hle]

/-- An operation that fits changes the quantity by exactly this much, or not at all when it is
refused. -/
theorem perform_exact (c : AccountCall) (h : c.Fits acc) :
    ((c.asset.of (c.perform acc).1).toNat : Int) =
      (c.asset.of acc).toNat + if c.refuses acc then 0 else c.change := by
  cases c with
  | increase x n =>
    simp only [Fits, asset, change] at h
    have hsum : (x.of acc + n).toNat = (x.of acc).toNat + n.toNat := by
      rw [UInt32.toNat_add]
      omega
    simp [refuses_increase, asset, change, perform, hsum]
  | decrease x n =>
    by_cases hle : n ≤ x.of acc
    · have hdiff : (x.of acc - n).toNat = (x.of acc).toNat - n.toNat :=
        UInt32.toNat_sub_of_le _ _ hle
      have hle' : n.toNat ≤ (x.of acc).toNat := hle
      rw [perform_of_le hle, refuses_decrease]
      simp only [asset, change, Asset.of_put_self, hdiff, hle]
      simp
      omega
    · rw [perform_of_not_le hle, refuses_decrease]
      simp [asset, hle]

end AccountCall

variable {E : Exchange} {ok : Condition (machine E)} {t a : Nat} {s s' : State E}

/-! ## The code of the operations -/

theorem accounts_of_some {tr : Trader} (h : s.traders a = some tr) :
    s.accounts a = some tr.account := by
  rw [State.accounts, h]
  rfl

theorem runs_loadAsset {x : Asset} {v : UInt32}
    (h : Runs (machine E) ok t (loadAsset x a) s v s') :
    s' = s ∧ ∃ acc, s.accounts a = some acc ∧ v = x.of acc := by
  cases x <;>
  · obtain ⟨e, he, _⟩ := Runs.act_iff.mp h
    obtain ⟨tr, htr, rfl, rfl⟩ := exec_load (t := t) (e := e) he
    exact ⟨rfl, tr.account, accounts_of_some htr, rfl⟩

theorem accounts_setTrader {tr tr' : Trader} (htr : s.traders a = some tr) :
    (s.setTrader a (some tr')).accounts = Function.update s.accounts a (some tr'.account) := by
  funext b
  by_cases hb : b = a
  · subst hb
    simp [State.accounts, State.setTrader]
  · simp [State.accounts, State.setTrader, hb]

theorem runs_storeAsset {x : Asset} {v : UInt32} {u : Unit}
    (h : Runs (machine E) ok t (storeAsset x a v) s u s') :
    ∃ acc, s.accounts a = some acc ∧
      s'.accounts = Function.update s.accounts a (some (x.put v acc)) := by
  cases x with
  | balance =>
    obtain ⟨e, he, _⟩ := Runs.act_iff.mp h
    obtain ⟨tr, htr, rfl⟩ := exec_store (t := t) (e := e) he
    exact ⟨tr.account, accounts_of_some htr, accounts_setTrader htr⟩
  | inventory =>
    obtain ⟨e, he, _⟩ := Runs.act_iff.mp h
    obtain ⟨tr, htr, rfl⟩ := exec_store (t := t) (e := e) he
    exact ⟨tr.account, accounts_of_some htr, accounts_setTrader htr⟩

theorem runs_plain {o : Op} {r : o.Reply} (ho : o.plain = true)
    (h : Runs (machine E) ok t (.act (I := bourse) o) s r s') : s'.accounts = s.accounts :=
  (Built.act ho : Plain _).partial_accounts s r s' h

/-- What an operation on the account of trader `a` comes to. -/
def Performs (a : Nat) (c : AccountCall) (s : State E) (v : Value) (s' : State E) : Prop :=
  ∃ acc, s.accounts a = some acc ∧ v = (c.perform acc).2 ∧
    s'.accounts = Function.update s.accounts a (some (c.perform acc).1)

theorem partial_increaseAsset {x : Asset} {n : UInt32} :
    Partial (machine E) ok t (increaseAsset x a n)
      (fun _ s' => Performs a (.increase x n) s .void s') s := by
  refine Partial.scope (Partial.bind fun _ s₁ h₁ => ?_)
  have hacc₁ := runs_plain (o := .lock a) rfl h₁
  change State.accounts s₁ = s.accounts at hacc₁
  refine Partial.bind fun v s₂ h₂ => ?_
  obtain ⟨rfl, acc, hacc, rfl⟩ := runs_loadAsset h₂
  refine Partial.bind fun _ s₃ h₃ => ?_
  obtain ⟨acc', hacc', hacc₃⟩ := runs_storeAsset h₃
  obtain rfl := Option.some.inj (hacc.symm.trans hacc')
  intro _ s₄ h₄
  have hacc₄ : s₄.accounts = State.accounts s₃ := runs_plain (o := .unlock a) rfl h₄
  rw [hacc₁] at hacc hacc₃
  exact ⟨acc, hacc, rfl, hacc₄.trans hacc₃⟩

theorem partial_decreaseAsset {x : Asset} {n : UInt32} :
    Partial (machine E) ok t (decreaseAsset x a n)
      (fun r s' => Performs a (.decrease x n) s (.int r) s') s := by
  refine Partial.scope (Partial.bind fun _ s₁ h₁ => ?_)
  have hacc₁ := runs_plain (o := .lock a) rfl h₁
  change State.accounts s₁ = s.accounts at hacc₁
  refine Partial.bind fun v s₂ h₂ => ?_
  obtain ⟨rfl, acc, hacc, rfl⟩ := runs_loadAsset h₂
  split_ifs with hle
  · have hperform : (AccountCall.decrease x n).perform acc =
        (x.put (x.of acc - n) acc, .int 0) := AccountCall.perform_of_le hle
    refine Partial.bind fun v s₃ h₃ => ?_
    obtain ⟨rfl, acc', hacc', rfl⟩ := runs_loadAsset h₃
    obtain rfl := Option.some.inj (hacc.symm.trans hacc')
    refine Partial.bind fun _ s₄ h₄ => ?_
    obtain ⟨acc', hacc', hacc₄⟩ := runs_storeAsset h₄
    obtain rfl := Option.some.inj (hacc.symm.trans hacc')
    refine Partial.bind fun _ s₅ h₅ => ?_
    have hacc₅ : s₅.accounts = State.accounts s₄ := runs_plain (o := .unlock a) rfl h₅
    rw [hacc₁] at hacc hacc₄
    refine .ret ⟨acc, hacc, ?_, ?_⟩
    · rw [hperform]
    · rw [hperform]
      exact hacc₅.trans hacc₄
  · have hperform : (AccountCall.decrease x n).perform acc = (acc, .int (-1)) :=
      AccountCall.perform_of_not_le hle
    refine Partial.bind fun _ s₃ h₃ => ?_
    have hacc₃ : s₃.accounts = _ := runs_plain (o := .unlock a) rfl h₃
    rw [hacc₁] at hacc hacc₃
    refine .ret ⟨acc, hacc, ?_, ?_⟩
    · rw [hperform]
    · rw [hperform, ← hacc, Function.update_eq_self]
      exact hacc₃

/-! ## Login and logout -/

/-- Some accounts may have been closed. -/
def Closes (s s' : State E) : Prop := ∀ b, s'.accounts b = s.accounts b ∨ s'.accounts b = none

theorem closes_of_eq (h : s'.accounts = s.accounts) : Closes s s' := fun b => .inl (congrFun h b)

theorem Closes.trans {s'' : State E} (h : Closes s s') (h' : Closes s' s'') : Closes s s'' := by
  intro b
  rcases h' b with hb | hb
  · rw [hb]
    exact h b
  · exact .inr hb

theorem exec_closes {o : Op} {e : Choice E} {r : o.Reply}
    (ho : o.closing = true ∨ o.writesFrames = true) (h : exec t o e s = .done r s') :
    Closes s s' := by
  by_cases hfree : ∃ a, o = .freeTrader a
  · obtain ⟨a, rfl⟩ := hfree
    obtain ⟨tr, htr, rfl⟩ := exec_freeTrader h
    intro b
    by_cases hb : b = a
    · right
      simp [State.accounts, State.setTrader, hb]
    · left
      simp [State.accounts, State.setTrader, hb]
  · refine closes_of_eq (exec_plain_accounts (ho.imp_left fun ho => ?_) h)
    cases o <;> first | exact ho | exact absurd ⟨_, rfl⟩ hfree

theorem Built.partial_closes {α : Type} {p : Code α} (hp : Closing p) (s : State E) :
    Partial (machine E) ok t p (fun _ => Closes s) s :=
  hp.partial_of_step (R := Closes) (fun _ _ => .inl rfl) Closes.trans (fun _ _ => rfl)
    (fun _ _ => rfl)
    (fun _ _ _ _ _ ho he _ => exec_closes ho he) (fun _ _ _ => .inl rfl) s

/-- At most one account has been opened, with nothing in it. -/
def Opens (s s' : State E) : Prop :=
  s'.accounts = s.accounts ∨
    ∃ b, s.accounts b = none ∧ s'.accounts = Function.update s.accounts b (some (0, 0))

theorem exec_mallocTrader_accounts {e : Choice E} {b : Nat}
    (h : exec t .mallocTrader e s = .done b s') :
    s.accounts b = none ∧ ∃ acc, s'.accounts = Function.update s.accounts b (some acc) := by
  obtain ⟨junk, _, hb, rfl⟩ := exec_mallocTrader h
  refine ⟨by simp [State.accounts, hb], junk.account, ?_⟩
  funext c
  by_cases hc : c = b
  · subst hc
    simp [State.accounts, State.setTrader, Trader.account]
  · simp [State.accounts, State.setTrader, hc]

theorem partial_traderLogin_accounts {fd : Int} {name : CString} :
    Partial (machine E) ok t (traderLogin fd name) (fun _ => Opens s) s := by
  refine Partial.scope (Partial.bind fun old s₁ h₁ => ?_)
  have hacc₁ := (plain_checkOldTraderAndLogin fd name).partial_accounts _ _ _ h₁
  change State.accounts s₁ = s.accounts at hacc₁
  cases old with
  | some old =>
    refine Partial.bind fun oldFd s₂ h₂ => ?_
    have hacc₂ := (runs_plain (o := .load .fd old) rfl h₂).trans hacc₁
    dsimp only
    split_ifs
    · exact .ret (.inl hacc₂)
    · refine Partial.bind fun _ s₃ h₃ => ?_
      exact .ret (.inl ((runs_plain (o := .store .fd old fd) rfl h₃).trans hacc₂))
  | none =>
    refine Partial.bind fun total s₂ h₂ => ?_
    have hacc₂ := (runs_plain (o := .count) rfl h₂).trans hacc₁
    dsimp only
    split_ifs
    · exact .ret (.inl hacc₂)
    · refine Partial.bind fun total s₃ h₃ => Partial.bind fun _ s₄ h₄ => ?_
      have hacc₄ := (runs_plain (o := .setCount (total + 1)) rfl h₄).trans
        ((runs_plain (o := .count) rfl h₃).trans hacc₂)
      refine Partial.bind (Partial.act fun e b s₅ he _ => ?_)
      obtain ⟨hnone, acc, hacc₅⟩ := exec_mallocTrader_accounts (t := t) (e := e) he
      rw [hacc₄] at hnone hacc₅
      refine Partial.bind fun _ s₆ h₆ => Partial.bind fun _ s₇ h₇ =>
        Partial.bind fun _ s₈ h₈ => ?_
      have hacc₆ := (plainCall_traderRef b).built.partial_accounts _ _ _ h₆
      have hacc₇ := (plainCall_traderRef b).built.partial_accounts _ _ _ h₇
      have hacc₈ := (runs_plain (o := .store .fd b fd) rfl h₈).trans (hacc₇.trans
        (hacc₆.trans hacc₅))
      refine Partial.bind fun _ s₉ h₉ => Partial.bind fun _ s₁₀ h₁₀ => ?_
      obtain ⟨acc₉, _, hacc₉⟩ := runs_storeAsset (x := .balance) h₉
      obtain ⟨acc₁₀, hold, hacc₁₀⟩ := runs_storeAsset (x := .inventory) h₁₀
      rw [hacc₉, Function.update_self] at hold
      obtain rfl := Option.some.inj hold
      rw [hacc₉, hacc₈, Function.update_idem, Function.update_idem] at hacc₁₀
      refine Partial.bind fun _ s₁₁ h₁₁ => Partial.bind fun _ s₁₂ h₁₂ =>
        Partial.bind fun i s₁₃ h₁₃ => ?_
      have hacc₁₃ := (plain_getFirstAvailableIndex.partial_accounts _ _ _ h₁₃).trans
        ((runs_plain (o := .mutexInit b) rfl h₁₂).trans
          ((runs_plain (o := .store .name b name) rfl h₁₁).trans hacc₁₀))
      have hopens : Opens s s₁₃ := .inr ⟨b, hnone, hacc₁₃⟩
      cases i with
      | none => exact .ret hopens
      | some i =>
        refine Partial.bind fun _ s₁₄ h₁₄ => .ret (.inr ⟨b, hnone, ?_⟩)
        exact (runs_plain (o := .setSlot i (some b)) rfl h₁₄).trans hacc₁₃

end BourseServer
