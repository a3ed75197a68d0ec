import BourseServer.Concurrency.Sequential
import BourseServer.Machine.Frame
import BourseServer.Server.Service

/-!
# The shape of the code

The functions of the server are built from actions and from calls of functions of the trader
module, which enter and leave in pairs. So a call leaves the call stack as it was, and what a
service thread calls can be read off its code: the calls made inside of these calls do not count.

Most of the code is plain: it creates and removes no trader and leaves all accounts alone.
-/
namespace BourseServer

open Concurrency

namespace Op

/-- The actions other than entering and leaving a function and calling the exchange. -/
def inner : Op → Bool
  | .enter _ | .leave _ | .exchange _ => false
  | _ => true

/-- The inner actions that leave the existence of traders and their accounts alone. -/
def plain : Op → Bool
  | .enter _ | .leave _ | .exchange _ | .mallocTrader | .freeTrader _ => false
  | .store .balance _ _ | .store .inventory _ _ => false
  | _ => true

/-- The actions that may remove a trader and otherwise leave the accounts alone. -/
def closing : Op → Bool
  | .freeTrader _ => true
  | o => o.plain

theorem closing_of_plain {o : Op} (h : o.plain = true) : o.closing = true := by
  cases o <;> first | rfl | cases h | exact h

theorem inner_of_closing {o : Op} (h : o.closing = true) : o.inner = true := by
  cases o <;> first | rfl | cases h

end Op

/-- The loops that move bytes. -/
def Proc.Transfer : Proc → Prop
  | .readn .. => True
  | .writen .. => True
  | .service .. => False

/-- Code built from actions in `P`, transfers, and functions of the trader module. -/
inductive Built (P : Op → Prop) : {α : Type} → Code α → Prop where
  | leaf {α : Type} {p : Code α} : p.Uses P Proc.Transfer → Built P p
  | bind {α β : Type} {p : Code α} {f : α → Code β} :
      Built P p → (∀ a, Built P (f a)) → Built P (p >>= f)
  | scope {α : Type} {c : Call} {value : α → Value} {p : Code α} :
      Built P p → Built P (scope c value p)

namespace Built

variable {P P' : Op → Prop} {α β : Type}

theorem ret {a : α} : Built P (.ret a) := .leaf trivial

theorem act {o : Op} (h : P o) : Built P (.act (I := bourse) o) := .leaf (Prog.uses_act h)

theorem invoke {p : Proc} (h : p.Transfer) : Built P (.invoke (I := bourse) p) :=
  .leaf (Prog.uses_invoke h)

theorem mono {p : Code α} (hp : Built P p) (h : ∀ o, P o → P' o) : Built P' p := by
  induction hp with
  | leaf hu => exact .leaf (hu.mono h)
  | bind _ _ ihp ihf => exact .bind ihp ihf
  | scope _ ih => exact .scope ih

theorem searchFrom {body : Nat → Code (Option α)} {n : Nat} :
    ∀ {i : Nat}, (∀ j, Built P (body j)) → Built P (.searchFrom body n i) := by
  induction n with
  | zero => exact fun _ => .ret
  | succ n ih =>
    intro i h
    refine .bind (h i) fun r => ?_
    cases r with
    | none => exact ih h
    | some a => exact .ret

theorem search {body : Nat → Code (Option α)} {n : Nat} (h : ∀ j, Built P (body j)) :
    Built P (.search n body) := searchFrom h

end Built

/-- The code of the function that `c` calls. -/
def Implements (P : Op → Prop) {α : Type} (p : Code α) (c : Call) : Prop :=
  ∃ value body, p = scope c value body ∧ Built P body

theorem Implements.built {P : Op → Prop} {α : Type} {p : Code α} {c : Call}
    (h : Implements P p c) : Built P p := by
  obtain ⟨value, body, rfl, hb⟩ := h
  exact .scope hb

theorem Implements.mono {P P' : Op → Prop} {α : Type} {p : Code α} {c : Call}
    (h : Implements P p c) (hP : ∀ o, P o → P' o) : Implements P' p c := by
  obtain ⟨value, body, rfl, hb⟩ := h
  exact ⟨value, body, rfl, hb.mono hP⟩

/-- The same, and the value that is recorded for its result. -/
def Answers (P : Op → Prop) {α : Type} (p : Code α) (c : Call) (value : α → Value) : Prop :=
  ∃ body, p = scope c value body ∧ Built P body

theorem Answers.implements {P : Op → Prop} {α : Type} {p : Code α} {c : Call} {value : α → Value}
    (h : Answers P p c value) : Implements P p c := by
  obtain ⟨body, hp, hb⟩ := h
  exact ⟨value, body, hp, hb⟩

theorem Answers.mono {P P' : Op → Prop} {α : Type} {p : Code α} {c : Call} {value : α → Value}
    (h : Answers P p c value) (hP : ∀ o, P o → P' o) : Answers P' p c value := by
  obtain ⟨body, hp, hb⟩ := h
  exact ⟨body, hp, hb.mono hP⟩

/-! ## The functions of the server -/

section plain

variable {P : Op → Prop}

theorem uses_transfer {p : Proc} (hp : p.Transfer) (hread : ∀ fd n, P (.read fd n))
    (hwrite : ∀ fd bs, P (.write fd bs)) : (body p).Uses P Proc.Transfer := by
  cases p with
  | readn fd n nleft got =>
    change (readnLoop fd n nleft got).Uses P Proc.Transfer
    unfold readnLoop
    split_ifs
    · refine (Prog.uses_act (hread fd nleft)).bind fun r => ?_
      cases r with
      | interrupted => exact Prog.uses_invoke trivial
      | failed => trivial
      | data bs =>
        dsimp only
        split_ifs
        · trivial
        · exact Prog.uses_invoke trivial
    · trivial
  | writen fd n rest =>
    change (writenLoop fd n rest).Uses P Proc.Transfer
    unfold writenLoop
    split_ifs
    · refine (Prog.uses_act (hwrite fd rest)).bind fun r => ?_
      cases r with
      | interrupted => exact Prog.uses_invoke trivial
      | failed => trivial
      | wrote k => exact Prog.uses_invoke trivial
    · trivial
  | service fd l => exact hp.elim

end plain

/-- Built from plain actions. -/
abbrev Plain {α : Type} (p : Code α) : Prop := Built (fun o => o.plain = true) p

/-- Built from closing actions. -/
abbrev Closing {α : Type} (p : Code α) : Prop := Built (fun o => o.closing = true) p

/-- Built from inner actions. -/
abbrev Inner {α : Type} (p : Code α) : Prop := Built (fun o => o.inner = true) p

/-- A function built from plain actions. -/
abbrev PlainCall {α : Type} (p : Code α) (c : Call) : Prop :=
  Implements (fun o => o.plain = true) p c

/-- A function built from closing actions. -/
abbrev ClosingCall {α : Type} (p : Code α) (c : Call) : Prop :=
  Implements (fun o => o.closing = true) p c

/-- A function built from inner actions. -/
abbrev InnerCall {α : Type} (p : Code α) (c : Call) : Prop :=
  Implements (fun o => o.inner = true) p c

theorem PlainCall.inner {α : Type} {p : Code α} {c : Call} (h : PlainCall p c) : InnerCall p c :=
  h.mono fun _ ho => Op.inner_of_closing (Op.closing_of_plain ho)

theorem ClosingCall.inner {α : Type} {p : Code α} {c : Call} (h : ClosingCall p c) :
    InnerCall p c :=
  h.mono fun _ => Op.inner_of_closing

theorem Built.inner {α : Type} {p : Code α} (h : Plain p) : Inner p :=
  h.mono fun _ ho => Op.inner_of_closing (Op.closing_of_plain ho)

theorem Built.inner_of_closing {α : Type} {p : Code α} (h : Closing p) : Inner p :=
  h.mono fun _ => Op.inner_of_closing

namespace Op

/-- The actions that leave the client registry alone and shut and close no connection. -/
def outside : Op → Bool
  | .semWait _ | .semPost _ | .regSize | .regFd _ | .setRegFd .. | .regCount => false
  | .setRegCount _ | .close _ | .shutdown _ => false
  | _ => true

/-- The actions other than entering and leaving a function. -/
def framed (o : Op) : Bool := !o.writesFrames

end Op

/-- Built from actions in `f` that have nothing to do with the client registry. -/
abbrev Apart (f : Op → Bool) {α : Type} (p : Code α) : Prop :=
  Built (fun o => (f o && o.outside) = true) p

/-- A function built from actions in `f` that have nothing to do with the client registry. -/
abbrev ApartCall (f : Op → Bool) {α : Type} (p : Code α) (c : Call) : Prop :=
  Implements (fun o => (f o && o.outside) = true) p c

namespace Apart

variable {f f' : Op → Bool} {α : Type} {p : Code α}

theorem left (h : Apart f p) : Built (fun o => f o = true) p :=
  h.mono fun _ ho => (Bool.and_eq_true_iff.mp ho).1

theorem outside (h : Apart f p) : Built (fun o => o.outside = true) p :=
  h.mono fun _ ho => (Bool.and_eq_true_iff.mp ho).2

theorem widen_of (h : Apart f p) (hf : ∀ o, f o = true → f' o = true) : Apart f' p := by
  refine h.mono fun o ho => ?_
  obtain ⟨h₁, h₂⟩ := Bool.and_eq_true_iff.mp ho
  exact Bool.and_eq_true_iff.mpr ⟨hf o h₁, h₂⟩

theorem closing (h : Apart Op.plain p) : Apart Op.closing p :=
  h.widen_of fun _ => Op.closing_of_plain

theorem widen (h : Apart Op.closing p) : Apart Op.inner p :=
  h.widen_of fun _ => Op.inner_of_closing

theorem inner (h : Apart Op.plain p) : Apart Op.inner p := h.closing.widen

theorem framed (h : Apart Op.inner p) : Apart Op.framed p :=
  h.widen_of fun o ho => by cases o <;> first | rfl | cases ho

end Apart

namespace ApartCall

variable {f : Op → Bool} {α : Type} {p : Code α} {c : Call}

theorem apart (h : ApartCall f p c) : Apart f p := h.built

theorem left (h : ApartCall f p c) : Implements (fun o => f o = true) p c :=
  h.mono fun _ ho => (Bool.and_eq_true_iff.mp ho).1

end ApartCall

theorem built_protoSendPacket {P : Op → Prop} (h : P .clock) (fd : Int) (hdr : PacketHeader)
    (payload : List UInt8) : Built P (protoSendPacket fd hdr payload) := by
  refine .bind (.act h) fun _ => .bind (.invoke trivial) fun r => ?_
  split_ifs
  · exact .ret
  · refine .bind (.invoke trivial) fun r => ?_
    split_ifs <;> exact .ret
  · exact .ret

theorem apart_protoSendPacket (fd : Int) (hdr : PacketHeader) (payload : List UInt8) :
    Apart Op.plain (protoSendPacket fd hdr payload) :=
  built_protoSendPacket (P := fun o => (o.plain && o.outside) = true) rfl fd hdr payload

theorem apart_protoRecvPacket (fd : Int) (hdr : PacketHeader) (payload : Option Payload) :
    Apart Op.plain (protoRecvPacket fd hdr payload) := by
  refine .bind (.invoke trivial) fun ⟨read, got⟩ => ?_
  dsimp only
  split_ifs
  · exact .ret
  · exact .ret
  · refine .bind (.act rfl) fun ⟨block, junk⟩ => .bind (.invoke trivial) fun ⟨status, got⟩ => ?_
    dsimp only
    split_ifs <;> exact .ret
  · exact .ret

theorem apart_deref (p : Option Nat) : Apart Op.plain (deref p) := by
  cases p with
  | some a => exact .ret
  | none => exact .leaf ⟨rfl, nofun⟩

theorem apartCall_traderRef (a : Nat) : ApartCall Op.plain (traderRef a) (.ref a) :=
  ⟨_, _, rfl, .bind (.act rfl) fun _ => .bind (.act rfl) fun _ => .bind (.act rfl) fun _ =>
    .bind (.act rfl) fun _ => .ret⟩

theorem apart_slotName (i : Nat) : Apart Op.plain (slotName i) :=
  .bind (.act rfl) fun _ => .bind (apart_deref _) fun _ => .act rfl

theorem apart_removeTraderIfEmpty (a : Nat) : Apart Op.closing (removeTraderIfEmpty a) := by
  refine .bind (.act rfl) fun ref => ?_
  split_ifs
  · exact .ret
  · refine .bind (.search fun i => ?_) fun _ => .ret
    refine .bind (.act rfl) fun p => ?_
    cases p with
    | none => exact .ret
    | some b =>
      refine .bind (apart_slotName i).closing fun _ => .bind (.act rfl) fun _ => ?_
      split_ifs
      · exact .bind (.act rfl) fun _ => .bind (.act rfl) fun _ => .bind (.act rfl) fun _ =>
          .bind (.act rfl) fun _ => .ret
      · exact .ret

theorem apartCall_traderUnref (a : Nat) : ApartCall Op.closing (traderUnref a) (.unref a) :=
  ⟨_, _, rfl, .bind (.act rfl) fun _ => .bind (.act rfl) fun _ => .bind (.act rfl) fun _ =>
    .bind (apart_removeTraderIfEmpty a) fun _ => .act rfl⟩

theorem apart_checkOldTraderAndLogin (fd : Int) (name : CString) :
    Apart Op.plain (checkOldTraderAndLogin fd name) := by
  refine .search fun i => .bind (.act rfl) fun p => ?_
  cases p with
  | none => exact .ret
  | some b =>
    refine .bind (apart_slotName i) fun _ => ?_
    split_ifs
    · exact .bind (.act rfl) fun _ => .bind (apart_deref _) fun _ =>
        .bind (apartCall_traderRef _).apart fun _ => .bind (.act rfl) fun _ =>
        .bind (apart_deref _) fun _ => .ret
    · exact .ret

theorem apart_getFirstAvailableIndex : Apart Op.plain getFirstAvailableIndex := by
  refine .search fun i => .bind (.act rfl) fun p => ?_
  cases p <;> exact .ret

theorem apartCall_traderSendPacket (a : Nat) (hdr : PacketHeader) (data : List UInt8) :
    ApartCall Op.plain (traderSendPacket a hdr data) (.sendPacket a hdr data) := by
  refine ⟨_, _, rfl, .bind (.act rfl) fun _ => .bind (.act rfl) fun fd =>
    .bind (apart_protoSendPacket fd hdr data) fun ⟨sent, _⟩ => ?_⟩
  dsimp only
  split_ifs
  · exact .ret
  · exact .bind (.act rfl) fun _ => .ret

theorem apartCall_traderBroadcastPacket (hdr : PacketHeader) (data : List UInt8) :
    ApartCall Op.plain (traderBroadcastPacket hdr data) (.broadcast hdr data) := by
  refine ⟨_, _, rfl, .bind (.search fun i => .bind (.act rfl) fun p => ?_) fun _ => .ret⟩
  cases p with
  | none => exact .ret
  | some b =>
    exact .bind (.act rfl) fun _ => .bind (apart_deref _) fun a =>
      .bind (apartCall_traderSendPacket a hdr data).apart fun _ => .ret

theorem apartCall_traderSendAck (a : Nat) (info : Option StatusInfo) :
    ApartCall Op.plain (traderSendAck a info) (.sendAck a info) := by
  refine ⟨_, _, rfl, .bind (.act rfl) fun junk => ?_⟩
  cases info with
  | none => exact .bind (apartCall_traderSendPacket a _ _).apart fun _ => .ret
  | some info =>
    exact .bind (.act rfl) fun _ => .bind (.act rfl) fun _ =>
      .bind (apartCall_traderSendPacket a _ _).apart fun _ => .ret

theorem apartCall_traderSendNack (a : Nat) : ApartCall Op.plain (traderSendNack a) (.sendNack a) :=
  ⟨_, _, rfl, .bind (.act rfl) fun _ => .bind (apartCall_traderSendPacket a _ _).apart fun _ =>
    .ret⟩

theorem apart_loadAsset (x : Asset) (a : Nat) : Apart Op.inner (loadAsset x a) := by
  cases x <;> exact .act rfl

theorem apart_storeAsset (x : Asset) (a : Nat) (v : UInt32) :
    Apart Op.inner (storeAsset x a v) := by
  cases x <;> exact .act rfl

theorem apartCall_increaseAsset (x : Asset) (a : Nat) (n : UInt32) :
    ApartCall Op.inner (increaseAsset x a n) (.account a (.increase x n)) :=
  ⟨_, _, rfl, .bind (.act rfl) fun _ => .bind (apart_loadAsset x a) fun _ =>
    .bind (apart_storeAsset x a _) fun _ => .act rfl⟩

theorem answers_decreaseAsset (x : Asset) (a : Nat) (n : UInt32) :
    Answers (fun o => (o.inner && o.outside) = true) (decreaseAsset x a n)
      (.account a (.decrease x n)) .int := by
  refine ⟨_, rfl, .bind (.act rfl) fun _ => .bind (apart_loadAsset x a) fun v => ?_⟩
  split_ifs
  · exact .bind (apart_loadAsset x a) fun _ => .bind (apart_storeAsset x a _) fun _ =>
      .bind (.act rfl) fun _ => .ret
  · exact .bind (.act rfl) fun _ => .ret

theorem apartCall_decreaseAsset (x : Asset) (a : Nat) (n : UInt32) :
    ApartCall Op.inner (decreaseAsset x a n) (.account a (.decrease x n)) :=
  (answers_decreaseAsset x a n).implements

theorem answers_traderLogin (fd : Int) (name : CString) :
    Answers (fun o => (o.inner && o.outside) = true) (traderLogin fd name) (.login fd name)
      .trader := by
  refine ⟨_, rfl, .bind (apart_checkOldTraderAndLogin fd name).inner fun old => ?_⟩
  cases old with
  | some old =>
    refine .bind (.act rfl) fun oldFd => ?_
    split_ifs
    · exact .ret
    · exact .bind (.act rfl) fun _ => .ret
  | none =>
    refine .bind (.act rfl) fun total => ?_
    split_ifs
    · exact .ret
    · refine .bind (.act rfl) fun _ => .bind (.act rfl) fun _ => .bind (.act rfl) fun a =>
        .bind (apartCall_traderRef a).apart.inner fun _ =>
        .bind (apartCall_traderRef a).apart.inner fun _ => .bind (.act rfl) fun _ =>
        .bind (.act rfl) fun _ => .bind (.act rfl) fun _ => .bind (.act rfl) fun _ =>
        .bind (.act rfl) fun _ => .bind apart_getFirstAvailableIndex.inner fun i => ?_
      cases i with
      | none => exact .ret
      | some i => exact .bind (.act rfl) fun _ => .ret

theorem apartCall_traderLogin (fd : Int) (name : CString) :
    ApartCall Op.inner (traderLogin fd name) (.login fd name) :=
  (answers_traderLogin fd name).implements

theorem apartCall_traderLogout (a : Nat) : ApartCall Op.closing (traderLogout a) (.logout a) := by
  refine ⟨_, _, rfl, .bind (.act rfl) fun _ => .bind (.search fun i => ?_) fun _ => .act rfl⟩
  refine .bind (.act rfl) fun p => ?_
  cases p with
  | none => exact .ret
  | some b =>
    refine .bind (apart_slotName i).closing fun _ => .bind (.act rfl) fun _ => ?_
    split_ifs
    · exact .bind (apartCall_traderUnref a).apart fun _ => .bind (.act rfl) fun _ => .ret
    · exact .ret

theorem apart_traderFini : Apart Op.inner traderFini := by
  refine .bind (.search fun i => .bind (.act rfl) fun n => ?_) fun left => ?_
  · split_ifs
    · refine .bind (.act rfl) fun p => ?_
      cases p with
      | none => exact .ret
      | some b =>
        exact .bind (.act rfl) fun p => .bind (apart_deref p).inner fun a => .bind (.act rfl)
          fun _ => .bind (.act rfl) fun p => .bind (apart_deref p).inner fun a => .bind (.act rfl)
          fun name => .bind (.act rfl) fun _ => .bind (.act rfl) fun p =>
          .bind (apart_deref p).inner fun a => .bind (.act rfl) fun _ => .bind (.act rfl) fun p =>
          .bind (apart_deref p).inner fun a => .bind (.act rfl) fun _ => .ret
    · exact .ret
  · cases left with
    | some _ => exact .ret
    | none =>
      refine .bind (.act rfl) fun n => ?_
      split_ifs
      · exact .leaf ⟨rfl, nofun⟩
      · exact .ret

theorem apart_runClient (c : ClientCall) : Apart Op.inner (runClient c) := by
  cases c with
  | ref a => exact .bind (apartCall_traderRef a).apart.inner fun _ => .ret
  | unref a => exact (apartCall_traderUnref a).apart.widen
  | sendPacket a hdr data =>
    exact .bind (apartCall_traderSendPacket a hdr data).apart.inner fun _ => .ret
  | broadcast hdr data =>
    exact .bind (apartCall_traderBroadcastPacket hdr data).apart.inner fun _ => .ret
  | sendAck a info => exact .bind (apartCall_traderSendAck a info).apart.inner fun _ => .ret
  | sendNack a => exact .bind (apartCall_traderSendNack a).apart.inner fun _ => .ret
  | account a c =>
    cases c with
    | increase x n => cases x <;> exact (apartCall_increaseAsset _ a n).apart
    | decrease x n =>
      cases x <;> exact .bind (apartCall_decreaseAsset _ a n).apart fun _ => .ret

theorem apart_runClients (cs : List ClientCall) : Apart Op.inner (runClients cs) := by
  induction cs with
  | nil => exact .ret
  | cons c cs ih => exact .bind (apart_runClient c) fun _ => ih

theorem apart_alreadyRegistred (fd : Int) : Apart Op.plain (alreadyRegistred fd) :=
  .bind (.act rfl) fun _ => .bind (apart_protoSendPacket fd _ _) fun _ => .ret

theorem apart_loadPayload (payload : Option Payload) (n : Nat) :
    Apart Op.plain (loadPayload payload n) := by
  unfold loadPayload
  dsimp only
  split_ifs
  · exact .bind (.act rfl) fun _ => .ret
  · exact .ret

theorem apart_localStatus : Apart Op.plain localStatus := .bind (.act rfl) fun _ => .ret

theorem apart_serveEnd (block : Nat) (hdr : PacketHeader) (l : Session) :
    Apart Op.closing (serveEnd block hdr l) := by
  have hlogout : Apart Op.closing (do free (some block); serveLogout l) := by
    refine .bind (.act rfl) fun _ => ?_
    unfold serveLogout
    split
    · exact .ret
    · exact (apartCall_traderLogout _).apart
  unfold serveEnd
  dsimp only
  split_ifs
  · exact .bind (.act rfl) fun _ => hlogout
  · exact hlogout

/-! ## The client registry -/

theorem plain_cregRegister (fd : Int) : Plain (cregRegister fd) := by
  refine .bind (.act rfl) fun _ => .bind (.act rfl) fun _ => .bind ?_ fun index => ?_
  · refine .bind (.act rfl) fun n => .search fun i => .bind (.act rfl) fun cur => ?_
    split_ifs <;> exact .ret
  · cases index with
    | none => exact .ret
    | some i =>
      have hend : Plain (do semPost .mutex; semPost .items; pure (0 : Int)) :=
        .bind (.act rfl) fun _ => .bind (.act rfl) fun _ => .ret
      refine .bind (.act rfl) fun _ => .bind (.act rfl) fun _ => .bind (.act rfl) fun _ =>
        .bind (.act rfl) fun n => ?_
      dsimp only
      split_ifs
      · exact .bind (.act rfl) fun _ => hend
      · exact hend

theorem plain_cregUnregister (fd : Int) : Plain (cregUnregister fd) := by
  refine .bind (.act rfl) fun _ => .bind (.act rfl) fun _ => .bind (.act rfl) fun n =>
    .bind (.search fun i => .bind (.act rfl) fun cur => ?_) fun found => ?_
  · split_ifs
    · have hend : Plain (do semPost .mutex; semPost .slots; pure (some ())) :=
        .bind (.act rfl) fun _ => .bind (.act rfl) fun _ => .ret
      refine .bind (.act rfl) fun _ => .bind (.act rfl) fun _ => .bind (.act rfl) fun _ =>
        .bind (.act rfl) fun n => ?_
      dsimp only
      split_ifs
      · exact .bind (.act rfl) fun _ => hend
      · exact hend
    · exact .ret
  · cases found with
    | some _ => exact .ret
    | none => exact .bind (.act rfl) fun _ => .bind (.act rfl) fun _ => .ret

theorem plain_brsClientLeave (fd : Int) : Plain (brsClientLeave fd) := by
  refine .bind (plain_cregUnregister fd) fun r => ?_
  split_ifs
  · exact .ret
  · exact .act rfl

/-! ## The service thread -/

/-- Built from actions other than entering and leaving a function. -/
abbrev Framed {α : Type} (p : Code α) : Prop := Built (fun o => o.writesFrames = false) p

theorem Built.framed {α : Type} {p : Code α} (h : Inner p) : Framed p :=
  h.mono fun o ho => by cases o <;> first | rfl | cases ho

theorem apart_exchangePostBuy (a : Nat) (quantity price : UInt32) :
    Apart Op.framed (exchangePostBuy a quantity price) :=
  .bind (.act rfl) fun r => .bind (apart_runClients r.1).framed fun _ => .ret

theorem apart_exchangePostSell (a : Nat) (quantity price : UInt32) :
    Apart Op.framed (exchangePostSell a quantity price) :=
  .bind (.act rfl) fun r => .bind (apart_runClients r.1).framed fun _ => .ret

/-- The end of a request. -/
theorem apart_reply (ack : Bool) (a : Nat) (f : StatusInfo → StatusInfo) :
    Apart Op.framed (do
      let info ← localStatus
      let info ← exchangeGetStatus (f info)
      replyIf ack a info) := by
  refine .bind (.bind (.act rfl) fun _ => .ret) fun info =>
    .bind (.bind (.act rfl) fun _ => .ret) fun info => ?_
  cases ack with
  | true => exact .bind (Apart.framed (apartCall_traderSendAck a _).apart.inner) fun _ => .ret
  | false => exact .bind (Apart.framed (apartCall_traderSendNack a).apart.inner) fun _ => .ret

theorem apart_orderRequest {post : Nat → UInt32 → UInt32 → Code UInt32} {a : Nat}
    (hpost : ∀ q p, Apart Op.framed (post a q p)) (payload : Option Payload) :
    Apart Op.framed (orderRequest post a payload) :=
  .bind (Apart.framed (apart_loadPayload payload 8).inner) fun _ => .bind (hpost _ _) fun order =>
    apart_reply _ a fun info => { info with orderid := order }

theorem apart_serveRequest (a : Nat) (type : UInt8) (payload : Option Payload) :
    Apart Op.framed (serveRequest a type payload) := by
  have hinc : ∀ x, Apart Op.framed (increaseRequest x a payload) := fun x =>
    .bind (Apart.framed (apart_loadPayload payload 4).inner) fun _ =>
      .bind (Apart.framed (apartCall_increaseAsset x a _).apart) fun _ => apart_reply true a id
  have hdec : ∀ x, Apart Op.framed (decreaseRequest x a payload) := fun x =>
    .bind (Apart.framed (apart_loadPayload payload 4).inner) fun _ =>
      .bind (Apart.framed (apartCall_decreaseAsset x a _).apart) fun _ => apart_reply _ a id
  have hcancel : Apart Op.framed (cancelRequest a payload) :=
    .bind (Apart.framed (apart_loadPayload payload 4).inner) fun _ => .bind (.act rfl) fun _ =>
      .bind (.bind (.act rfl) fun r => .bind (apart_runClients r.1).framed fun _ => .ret)
        fun ⟨result, quantity⟩ => apart_reply _ a fun info => { info with quantity := quantity }
  unfold serveRequest
  split_ifs
  · exact apart_reply true a id
  · exact hinc .balance
  · exact hdec .balance
  · exact hinc .inventory
  · exact hdec .inventory
  · exact apart_orderRequest (apart_exchangePostBuy a) payload
  · exact apart_orderRequest (apart_exchangePostSell a) payload
  · exact hcancel
  · exact .ret

theorem apart_serveNext (fd : Int) (l : Session) : Apart Op.framed (serveNext fd l) := by
  have hlogin : ∀ hdr payload, Apart Op.framed (serveLogin fd hdr payload) := by
    intro hdr payload
    refine .bind (.act rfl) fun ⟨block, _⟩ =>
      .bind (Apart.framed (apart_loadPayload payload _).inner)
      fun bytes => .bind (Apart.framed (apartCall_traderLogin fd _).apart) fun a => ?_
    cases a with
    | none => exact .bind (Apart.framed (apart_alreadyRegistred fd).inner) fun _ => .ret
    | some a =>
      exact .bind (Apart.framed (apartCall_traderSendAck a none).apart.inner) fun _ => .ret
  refine .bind (.act rfl) fun ⟨block, _⟩ =>
    .bind (Apart.framed (apart_protoRecvPacket fd _ _).inner) fun ⟨status, hdr, payload⟩ => ?_
  dsimp only
  split_ifs
  · exact .bind (apart_serveEnd _ _ _).widen.framed fun _ => .ret
  · refine .bind ?_ fun _ => .ret
    unfold servePacket
    split_ifs
    · exact .bind (.act rfl) fun _ => .ret
    · split
      · exact .bind (Apart.framed (apartCall_traderSendNack _).apart.inner) fun _ => .ret
      · exact .bind (hlogin _ _) fun _ => .bind (.act rfl) fun _ => .ret
    · split
      · exact .ret
      · exact .bind (apart_serveRequest _ _ _) fun _ => .bind (.act rfl) fun _ => .ret

/-! ## Without regard to the registry -/

theorem plain_protoRecvPacket (fd : Int) (hdr : PacketHeader) (payload : Option Payload) :
    Plain (protoRecvPacket fd hdr payload) :=
  (apart_protoRecvPacket fd hdr payload).left

theorem plainCall_traderRef (a : Nat) : PlainCall (traderRef a) (.ref a) :=
  (apartCall_traderRef a).left

theorem closingCall_traderUnref (a : Nat) : ClosingCall (traderUnref a) (.unref a) :=
  (apartCall_traderUnref a).left

theorem plain_checkOldTraderAndLogin (fd : Int) (name : CString) :
    Plain (checkOldTraderAndLogin fd name) :=
  (apart_checkOldTraderAndLogin fd name).left

theorem plain_getFirstAvailableIndex : Plain getFirstAvailableIndex :=
  apart_getFirstAvailableIndex.left

theorem innerCall_traderLogin (fd : Int) (name : CString) :
    InnerCall (traderLogin fd name) (.login fd name) :=
  (apartCall_traderLogin fd name).left

theorem closingCall_traderLogout (a : Nat) : ClosingCall (traderLogout a) (.logout a) :=
  (apartCall_traderLogout a).left

theorem plainCall_traderSendPacket (a : Nat) (hdr : PacketHeader) (data : List UInt8) :
    PlainCall (traderSendPacket a hdr data) (.sendPacket a hdr data) :=
  (apartCall_traderSendPacket a hdr data).left

theorem plainCall_traderBroadcastPacket (hdr : PacketHeader) (data : List UInt8) :
    PlainCall (traderBroadcastPacket hdr data) (.broadcast hdr data) :=
  (apartCall_traderBroadcastPacket hdr data).left

theorem plainCall_traderSendAck (a : Nat) (info : Option StatusInfo) :
    PlainCall (traderSendAck a info) (.sendAck a info) :=
  (apartCall_traderSendAck a info).left

theorem plainCall_traderSendNack (a : Nat) : PlainCall (traderSendNack a) (.sendNack a) :=
  (apartCall_traderSendNack a).left

theorem innerCall_increaseAsset (x : Asset) (a : Nat) (n : UInt32) :
    InnerCall (increaseAsset x a n) (.account a (.increase x n)) :=
  (apartCall_increaseAsset x a n).left

theorem innerCall_decreaseAsset (x : Asset) (a : Nat) (n : UInt32) :
    InnerCall (decreaseAsset x a n) (.account a (.decrease x n)) :=
  (apartCall_decreaseAsset x a n).left

theorem inner_runClient (c : ClientCall) : Inner (runClient c) := (apart_runClient c).left

theorem inner_runClients (cs : List ClientCall) : Inner (runClients cs) :=
  (apart_runClients cs).left

theorem plain_alreadyRegistred (fd : Int) : Plain (alreadyRegistred fd) :=
  (apart_alreadyRegistred fd).left

theorem plain_loadPayload (payload : Option Payload) (n : Nat) : Plain (loadPayload payload n) :=
  (apart_loadPayload payload n).left

theorem plain_localStatus : Plain localStatus := apart_localStatus.left

theorem closing_serveEnd (block : Nat) (hdr : PacketHeader) (l : Session) :
    Closing (serveEnd block hdr l) :=
  (apart_serveEnd block hdr l).left

theorem framed_serveNext (fd : Int) (l : Session) : Framed (serveNext fd l) :=
  (apart_serveNext fd l).left.mono fun _ ho => by simpa [Op.framed] using ho

/-! ## Functions that access one trader -/

/-- The actions in `P` include those on trader `a` that replace neither it nor its name. -/
structure Accesses (P : Op → Prop) (a : Nat) : Prop where
  lock : P (.lock a)
  unlock : P (.unlock a)
  load : ∀ f, P (.load f a)
  store : ∀ f v, f ≠ .name → P (.store f a v)
  clock : P .clock
  uninit : ∀ n, P (.uninit n)

namespace Accesses

variable {P : Op → Prop} {a : Nat} (h : Accesses P a)
include h

theorem traderRef : Built P (traderRef a) :=
  .scope (.bind (.act h.lock) fun _ => .bind (.act (h.load .ref)) fun _ =>
    .bind (.act (h.store .ref _ (by simp))) fun _ => .bind (.act h.unlock) fun _ => .ret)

theorem traderSendPacket (hdr : PacketHeader) (data : List UInt8) :
    Built P (traderSendPacket a hdr data) := by
  refine .scope (.bind (.act h.lock) fun _ => .bind (.act (h.load .fd)) fun fd => ?_)
  refine .bind (built_protoSendPacket h.clock fd hdr data) fun ⟨sent, _⟩ => ?_
  dsimp only
  split_ifs
  · exact .ret
  · exact .bind (.act h.unlock) fun _ => .ret

theorem traderSendAck (info : Option StatusInfo) : Built P (traderSendAck a info) := by
  refine .scope (.bind (.act (h.uninit headerSize)) fun junk => ?_)
  cases info with
  | none => exact .bind (h.traderSendPacket _ _) fun _ => .ret
  | some info =>
    exact .bind (.act (h.load .balance)) fun _ => .bind (.act (h.load .inventory)) fun _ =>
      .bind (h.traderSendPacket _ _) fun _ => .ret

theorem traderSendNack : Built P (traderSendNack a) :=
  .scope (.bind (.act (h.uninit headerSize)) fun _ => .bind (h.traderSendPacket _ _) fun _ => .ret)

theorem loadAsset (x : Asset) : Built P (loadAsset x a) := by
  cases x <;> exact .act (h.load _)

theorem storeAsset (x : Asset) (v : UInt32) : Built P (storeAsset x a v) := by
  cases x with
  | balance => exact .act (h.store .balance v (by simp))
  | inventory => exact .act (h.store .inventory v (by simp))

theorem increaseAsset (x : Asset) (n : UInt32) : Built P (increaseAsset x a n) :=
  .scope (.bind (.act h.lock) fun _ => .bind (h.loadAsset x) fun _ =>
    .bind (h.storeAsset x _) fun _ => .act h.unlock)

theorem decreaseAsset (x : Asset) (n : UInt32) : Built P (decreaseAsset x a n) := by
  refine .scope (.bind (.act h.lock) fun _ => .bind (h.loadAsset x) fun v => ?_)
  split_ifs
  · exact .bind (h.loadAsset x) fun _ => .bind (h.storeAsset x _) fun _ =>
      .bind (.act h.unlock) fun _ => .ret
  · exact .bind (.act h.unlock) fun _ => .ret

theorem runAccount (c : AccountCall) : Built P (runAccount a c) := by
  cases c with
  | increase x n => cases x <;> exact h.increaseAsset _ n
  | decrease x n => cases x <;> exact .bind (h.decreaseAsset _ n) fun _ => .ret

end Accesses

end BourseServer
