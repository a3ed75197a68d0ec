import BourseServer.Sessions.Service

/-!
# The traders in runs of the server

The code of all threads meets the discipline, so what the discipline says holds in every state
that a run reaches.
-/
namespace BourseServer

open Concurrency Bytes

variable {E : Exchange}

namespace Sessions

variable {W : Watch} {t : Nat}

/-- A change of nothing that is shared. -/
theorem moves_of_shared_eq {w : World E} {s : State E} (hi : (discipline E W).inv w)
    (hs : s.shared = w.state.shared) :
    (discipline E W).Moves t w (w.after t s (w.ghost t)) ∧
      (discipline E W).rely t w (w.after t s (w.ghost t)) := by
  have hrely : ∀ u, (discipline E W).rely u w (w.after t s (w.ghost t)) := by
    intro u
    constructor
    · by_cases hu : u = t
      · subst hu
        simp
      · exact World.after_ghost_of_ne _ _ _ hu
    · change Kept W u (w.ghost u) w.state.shared s.shared
      rw [hs]
      exact .refl ..
  refine ⟨⟨?_, fun u _ => hrely u⟩, hrely t⟩
  change Inv W s.shared (census (Function.update w.ghost t (w.ghost t)))
  rwa [Function.update_eq_self, hs]

/-- A client call from outside the module is about a trader of the table. -/
def allowed (W : Watch) (_ : Nat) (q : Request) (s : State E) : Prop :=
  ∀ c, q = .client c → Fair W.whole s.shared c

theorem Lasting.trans {u v w : Shared} (h : Lasting u v) (h' : Lasting v w) : Lasting u w where
  slots hi := h'.slots (h.slots hi)
  name hs := by
    obtain ⟨i, hi⟩ := hs
    exact (h'.name ⟨i, h.slots hi⟩).trans (h.name ⟨i, hi⟩)

theorem wp_body (p : Proc) (w : World E) (hi : (discipline E W).inv w)
    (hpre : (discipline E W).pre t p w) :
    (discipline E W).wp t (body p) ((discipline E W).post t p w) w := by
  cases p with
  | readn fd n nleft got =>
    have hstable : (discipline E W).Stable t ((discipline E W).rely t w) :=
      fun _ _ hr _ hw => (discipline E W).rely_trans hw hr
    exact triple_calm calm_readnLoop hstable w hi ((discipline E W).rely_refl t w)
  | writen x n rest => exact wp_writenLoop hi hpre
  | service fd l =>
    have hlasts : Lasts (Lasting w.state.shared) := fun _ _ hl hw => hw.trans hl
    refine Discipline.wp_mono (triple_serviceLoop hlasts w hi
      ⟨w.ghost t, hpre.2, hpre.1, rfl, fun h => h, fun _ => rfl⟩) ?_
    rintro _ w' _ ⟨k, hk, hframes, rfl, hl⟩
    exact ⟨⟨hframes, hk⟩, hl⟩

theorem verified (W : Watch) : (discipline E W).Verified (allowed W) where
  body _ p w hi hpre := wp_body p w hi hpre
  start := by
    intro t q w p s hi hidle hlaunch hallow
    cases q with
    | client c =>
      cases hlaunch
      refine ⟨w.ghost t, (moves_of_shared_eq hi rfl).1, ?_⟩
      have hfair : Fair W.whole w.state.shared c := hallow c rfl
      have hcode := triple_runClient (E := E) (t := t) (h := w.ghost t) lasts_fair
        (fun _ hv => hv) hidle.sending w hi ⟨hidle.frames, rfl, hfair⟩
      rw [World.after_self]
      refine Discipline.wp_mono hcode fun _ w' _ hw => ⟨hw.frames, ?_, ?_⟩
      · rw [hw.ghost]
        exact hidle.user
      · rw [hw.ghost]
        exact hidle.sending
    | deliver fd bytes ended =>
      have hlaunch : launch t (.deliver fd bytes ended) w.state = some (p, s) := hlaunch
      obtain ⟨rfl, hs⟩ := launch_deliver hlaunch
      obtain ⟨hm, hr⟩ := moves_of_shared_eq hi hs
      refine ⟨w.ghost t, hm, Discipline.wp_ret fun w' hr' hi' => ?_⟩
      exact stable_rest _ _ ((discipline E W).rely_trans hr hr') hi' hidle
    | accept fd input ended =>
      have hlaunch : launch t (.accept fd input ended) w.state = some (p, s) := hlaunch
      obtain ⟨hfd, rfl, hnone, hs⟩ := launch_accept hlaunch
      have hinv : Inv W s.shared ((census w.ghost).set t ((w.ghost t).setConn (some fd))) := by
        have h := Inv.accept (t := t) hi hnone hfd hidle.user hidle.sending
        rw [← Census.set_setConn] at h
        rw [hs]
        exact h
      have hframes : s.shared.frames t = [] := by
        rw [hs]
        exact hidle.frames
      refine ⟨(w.ghost t).setConn (some fd), ⟨?_, fun u hu => ?_⟩, ?_⟩
      · change Inv W s.shared (census (Function.update w.ghost t _))
        rwa [census_update]
      · refine ⟨World.after_ghost_of_ne _ _ _ hu, ?_⟩
        change Kept W u (w.ghost u) w.state.shared s.shared
        rw [hs]
        exact .of_eq rfl rfl rfl rfl rfl rfl
      · refine triple_brsClientService lasts_true _ ?_ ⟨(w.ghost t).setConn (some fd), ?_,
          hframes, World.after_ghost_self .., trivial⟩
        · change Inv W s.shared (census (Function.update w.ghost t _))
          rwa [census_update]
        · exact ⟨hidle.user, rfl, hidle.sending, nofun⟩

/-! ## The start -/

theorem inv_init (x : E.State) (n : Nat) :
    Inv W (State.init E x n).shared (census fun _ => Holdings.none) where
  slots h := by cases h
  names h := by cases h
  session h := by cases h
  unique h := by cases h
  user := by
    intro t a
    constructor
    · intro h
      cases h
    · rintro ⟨h, -⟩
      cases h
  served := by
    rintro a x ⟨i, hi⟩
    cases hi
  conn h := by cases h
  ports h := by cases h
  fresh h := by cases h
  locks _ _ := Nat.zero_le _
  counted := by
    rintro a r ⟨i, hi⟩
    cases hi
  unseen _ := ⟨rfl, fun _ => rfl⟩
  logged h := by cases h
  leaving h := by cases h
  returned h := by cases h
  alone := by
    rintro _ t u ⟨fd, name, h⟩
    cases h
  called h := by cases h
  streams := by
    intro _ x out h
    cases h
  sends := by
    intro _ t m h
    cases h

theorem holds_init (x : E.State) (n : Nat) :
    (discipline E W).Holds (Pool.idle (State.init E x n) : Pool (server E)) :=
  Discipline.holds_idle (inv_init x n) fun _ w hr hi =>
    stable_rest _ w hr hi ⟨rfl, rfl, rfl⟩

/-! ## Runs -/

/-- The moves of the runs under consideration. -/
def Regular (W : Watch) (c : Pool (server E)) : Move (server E) → Prop
  | .run t e => ∀ o k, c.prog t = .op o k → Orderly W t o e c.state
  | .start _ q => ∀ call, q = .client call → Fair W.whole c.state.shared call

variable {c : Pool (server E)} {x : E.State} {n : Nat}

theorem holds_of_reach (h : Pool.ReachIf (Regular W) (Pool.idle (State.init E x n)) c) :
    (discipline E W).Holds c :=
  Discipline.adequacy (verified W) (holds_init x n) (h.mono fun _ m hm => by cases m <;> exact hm)

theorem lasting_of_relied {s s' : State E} (h : (discipline E W).Relied s s') :
    Lasting s.shared s'.shared := by
  obtain ⟨t, g, g', hrely⟩ := h
  -- any other thread relies on the table
  have hk := (hrely (t + 1) (by omega)).2
  exact ⟨hk.slots, hk.name⟩

/-- A packet is only written to descriptor -1 or to the connection of the thread that is logged in
as the trader it is for, and in no function of the module a thread only writes to its own
connection. -/
theorem writes_addressed (h : Pool.ReachIf (Regular W) (Pool.idle (State.init E x n)) c)
    {fd : Int} {bs : List UInt8} {k : WriteResult → Code Unit}
    (hp : c.prog t = .op (.write fd bs) k) : Addressed t fd c.state.shared := by
  obtain ⟨g, _, hsafe, _⟩ := (holds_of_reach h).safe
  exact hsafe t _ k hp fd bs rfl

/-- The sessions of the traders are sound. -/
structure Sound (v : Shared) : Prop where
  /-- The traders in the table have different names. -/
  names : ∀ {i j a b x y}, v.slots i = some a → v.slots j = some b → v.name a = some x →
    v.name b = some y → strcmpEq x y = true → i = j
  /-- The traders that logins have returned are in the table. -/
  returned : ∀ {n a}, (n, a) ∈ v.returned → v.Stored a
  /-- Two threads are not logged in as the same trader. -/
  unique : ∀ {t u a}, v.loggedIn t = some a → v.loggedIn u = some a → t = u
  /-- A trader that a thread is logged in as has the descriptor of this thread's connection. -/
  connected : ∀ {t a}, v.loggedIn t = some a → ∃ x, v.fd a = some x ∧ v.owner x = some t
  /-- A descriptor of a trader is open, and no other trader has it. -/
  apart : ∀ {a b x}, v.Stored a → v.Stored b → v.fd a = some x → v.fd b = some x → x ≠ -1 →
    v.owner x ≠ none ∧ a = b

theorem Inv.sound {v : Shared} {s : Census} (hi : Inv W v s) : Sound v := by
  have hsession : ∀ {t a}, v.loggedIn t = some a → v.session t = some a ∧ v.Stored a :=
    fun hl => hi.user.mp (hi.logged hl)
  have howner : ∀ {a x}, v.Stored a → v.fd a = some x → x ≠ -1 →
      ∃ u, v.session u = some a ∧ v.owner x = some u := by
    intro a x hst hx hne
    obtain ⟨u, hu, hconn⟩ := hi.served hst hx hne
    exact ⟨u, hu, hi.conn hconn⟩
  constructor
  case names => exact hi.names
  case returned => exact fun hr => (hi.returned hr).1
  case unique => exact fun ht hu => hi.unique (hsession ht).1 (hsession hu).1
  case connected =>
    intro t a hl
    obtain ⟨hs, hst⟩ := hsession hl
    obtain ⟨x, hx, hne⟩ := hi.session hs
    obtain ⟨u, hu, hown⟩ := howner hst hx hne
    obtain rfl := hi.unique hu hs
    exact ⟨x, hx, hown⟩
  case apart =>
    intro a b x ha hb hxa hxb hne
    obtain ⟨u, hu, hown⟩ := howner ha hxa hne
    obtain ⟨u', hu', hown'⟩ := howner hb hxb hne
    obtain rfl := Option.some.inj (hown.symm.trans hown')
    exact ⟨by simp [hown], Option.some.inj (hu.symm.trans hu')⟩

theorem sessions_sound (h : Pool.ReachIf (Regular W) (Pool.idle (State.init E x n)) c) :
    Sound c.state.shared := by
  obtain ⟨g, hi, _⟩ := (holds_of_reach h).safe
  exact hi.sound

/-- Two logins, whenever and by whichever threads they are made, return the same trader if and
only if they are made under equal names. -/
theorem account_of_name (h : Pool.ReachIf (Regular W) (Pool.idle (State.init E x n)) c)
    {name name' : CString} {a a' : Nat} (ha : (name, a) ∈ loginReturns c.state.hist.events)
    (ha' : (name', a') ∈ loginReturns c.state.hist.events) :
    a = a' ↔ strcmpEq name name' = true := by
  obtain ⟨g, hi, _⟩ := (holds_of_reach h).safe
  obtain ⟨⟨i, hslot⟩, y, hy, heq⟩ := hi.returned ha
  obtain ⟨⟨j, hslot'⟩, y', hy', heq'⟩ := hi.returned ha'
  rw [strcmpEq_iff] at heq heq' ⊢
  constructor
  · rintro rfl
    obtain rfl := Option.some.inj (hy.symm.trans hy')
    exact heq.symm.trans heq'
  · intro hsame
    have htext : strcmpEq y y' = true := strcmpEq_iff.mpr (heq.trans (hsame.trans heq'.symm))
    obtain rfl := hi.names hslot hslot' hy hy' htext
    exact Option.some.inj (hslot.symm.trans hslot')

/-- A trader that is once in the table stays in its slot under its name, its record is not freed,
and its reference count covers the table and all outside holders. -/
theorem table_lasts {c' : Pool (server E)}
    (h : Pool.ReachIf (Regular W) (Pool.idle (State.init E x n)) c)
    (h' : Pool.ReachIf (Regular W) c c') :
    Lasting c.state.shared c'.state.shared ∧ ∀ a, c.state.shared.Stored a →
      ∃ tr, c'.state.traders a = some tr ∧ 1 + (c'.state.hist.outstanding a : Int) ≤ tr.ref := by
  have hallowed : Pool.ReachIf ((discipline E W).Allowed (allowed W)) c c' :=
    h'.mono fun _ m hm => by cases m <;> exact hm
  have hl : Lasting c.state.shared c'.state.shared :=
    Discipline.adequacy_related (verified W)
      (R := fun s s' : State E => Lasting s.shared s'.shared) (fun _ => ⟨id, fun _ => rfl⟩)
      Lasting.trans (fun _ _ => lasting_of_relied) (holds_of_reach h) hallowed
  refine ⟨hl, fun a ha => ?_⟩
  obtain ⟨g, hi, _⟩ := (Discipline.adequacy (verified W) (holds_of_reach h) hallowed).safe
  obtain ⟨i, hslot⟩ := ha
  have hslot' := hl.slots hslot
  obtain ⟨name, hname⟩ := Option.ne_none_iff_exists'.mp (hi.slots hslot').2
  obtain ⟨tr, htr, -⟩ := Option.map_eq_some_iff.mp hname
  refine ⟨tr, htr, ?_⟩
  have hcover := hi.counted ⟨i, hslot'⟩ (shared_ref htr) 0
  have hout : c'.state.shared.outstanding a = c'.state.hist.outstanding a := rfl
  simp only [Finset.range_zero, Finset.sum_empty, Nat.cast_zero, hout] at hcover
  omega

/-- Thread `t` is sending packet `p` to descriptor `x`: in `trader_send_packet`, for a trader whose
mutex it holds and that has this descriptor, or on its own connection, on which it has not logged
in. -/
def Sender (v : Shared) (t : Nat) (x : Int) (p : Packet) : Prop :=
  (∃ a hdr data rest, v.frames t = .sendPacket a hdr data :: rest ∧ Carries p hdr data ∧
    0 < v.held t a ∧ v.fd a = some x) ∨
  v.frames t = [] ∧ Rejects p ∧ v.owner x = some t ∧ v.loggedIn t = none

theorem Inv.sender {v : Shared} {s : Census} {fd : Int} {p : Packet} (hi : Inv W v s)
    (h : Sends v s t fd p) : Sender v t fd p := by
  obtain ⟨_, ⟨a, hdr, data, rest, hframes, hcarries, hlock, _, hfd⟩ |
    ⟨hframes, hrejects, hconn, huser⟩⟩ := h
  · exact .inl ⟨a, hdr, data, rest, hframes, hcarries, hlock.trans_le (hi.locks t a), hfd⟩
  · refine .inr ⟨hframes, hrejects, hi.conn hconn, Option.eq_none_iff_forall_ne_some.mpr ?_⟩
    intro a ha
    exact absurd (hi.logged ha) (by simp [huser])

theorem Inv.stream {s : State E} {d : Census} (hi : Inv W s.shared d) (hw : W.whole) {fd : Int}
    {conn : Conn} (hconn : s.conns fd = some conn) :
    ∃ ps part, conn.output = Packet.encode ps ++ part ∧ (∀ p ∈ ps, Genuine s.shared p) ∧
      (part = [] ∨ ∃ u p rest, Packet.toBytes p = part ++ rest ∧ rest ≠ [] ∧
        Sender s.shared u fd p) := by
  have hout : s.shared.output fd = some conn.output := by simp [State.shared, hconn]
  obtain ⟨ps, hps, ⟨u, m, hm, rfl, heq⟩ | ⟨_, heq⟩⟩ := hi.streams hw hout
  · obtain ⟨hrest, p, hp, hsends⟩ := hi.sends hw hm
    exact ⟨ps, m.sent, heq, hps, .inr ⟨u, p, m.rest, hp.symm, hrest, hi.sender hsends⟩⟩
  · exact ⟨ps, [], by simp [heq], hps, .inl rfl⟩

/-- If no write fails, every connection carries whole packets, and at most the first part of one
more, which a thread is sending. -/
theorem streams_whole (hw : W.whole)
    (h : Pool.ReachIf (Regular W) (Pool.idle (State.init E x n)) c) {fd : Int} {conn : Conn}
    (hconn : c.state.conns fd = some conn) :
    ∃ ps part, conn.output = Packet.encode ps ++ part ∧ (∀ p ∈ ps, Genuine c.state.shared p) ∧
      (part = [] ∨ ∃ u p rest, Packet.toBytes p = part ++ rest ∧ rest ≠ [] ∧
        Sender c.state.shared u fd p) := by
  obtain ⟨g, hi, _⟩ := (holds_of_reach h).safe
  exact hi.stream hw hconn

/-! ## A concrete run -/

/-- The threads from 3 on are in no function of the module. -/
def Few (c : Pool (server E)) : Prop := ∀ u, 3 ≤ u → c.state.hist.frames u = []

/-- Only the first three threads act, and the move is as it should be if the others are in no
function of the module. -/
def AmongFew (ok : Pool (server E) → Move (server E) → Prop) (c : Pool (server E))
    (m : Move (server E)) : Prop :=
  (Few c → ok c m) ∧ ∀ t e o k, m = .run t e → c.prog t = .op o k → t < 3

variable {ok : Pool (server E) → Move (server E) → Prop}

theorem few_of_step {c c' : Pool (server E)} {m : Move (server E)} (hm : AmongFew ok c m)
    (hs : c.step m = some c') (hc : Few c) : Few c' := by
  intro u hu
  rcases Pool.step_cases hs with ⟨t, e, o, k, r, rfl, hp, he, _⟩ | ⟨t, e, q, k, _, _, hsame, _⟩ |
    ⟨t, q, p, _, _, hlaunched, _⟩
  · have ht := hm.2 t e o k rfl hp
    rw [exec_frames_of_ne he (by omega)]
    exact hc u hu
  · rw [hsame]
    exact hc u hu
  · obtain ⟨conns, hstate⟩ := launch_state hlaunched
    rw [hstate]
    exact hc u hu

theorem reach_few {c c' : Pool (server E)} (h : Pool.ReachIf (AmongFew ok) c c')
    (hc : Few c) : Pool.ReachIf ok c c' ∧ Few c' :=
  h.of_invariant hc (fun _ _ _ hm hs hd => few_of_step hm hs hd) fun _ _ hm hd => hm.1 hd

/-- The call is one of `trader_login`. -/
def isLogin : Call → Bool
  | .login .. => true
  | _ => false

/-- One of the first three threads acts, logins are apart, counts are in range, and no reference is
given back from outside of the module. -/
def apart (t : Nat) (o : Op) (s : State E) : Bool :=
  t < 3 && match o with
    | .enter (.login ..) => (List.range 3).all fun u => (s.hist.frames u).all (!isLogin ·)
    | .enter (.unref _) => s.hist.frames t ≠ []
    | .store .ref _ v => FitsInt v
    | _ => true

/-- A connection is served, or a packet is broadcast. -/
def servesOrSends : Request → Bool
  | .client (.broadcast hdr data) => hdr.payloadSize ≤ data.length
  | .client _ => false
  | _ => true

theorem fair_of_servesOrSends {q : Request} {whole : Prop} {v : Shared}
    (h : servesOrSends q = true) : ∀ call, q = .client call → Fair whole v call := by
  rintro call rfl
  cases call <;> try cases h
  rename_i hdr data
  refine ⟨fun a ha => ?_, fun _ => ?_⟩
  · cases ha
  · exact of_decide_eq_true (p := hdr.payloadSize ≤ data.length) h

def apartCourse : Pool.Course (server (.fixed 1 1)) :=
  smoothly () apart fun _ q _ => servesOrSends q

theorem orderly_of_apart {t : Nat} {o : Op} {c : Pool (server (.fixed 1 1))}
    (h : apart t o c.state = true) (hc : Few c) :
    Orderly ⟨True, True⟩ t o (.smooth () o c.state) c.state where
  prudent :=
    { count := by
        intro a junk hjunk
        cases o <;> cases hjunk
        exact le_rfl
      range := by
        rintro a v rfl
        exact of_decide_eq_true (Bool.and_eq_true_iff.mp h).2
      balanced := by
        rintro a rfl hnil
        simp [apart, hnil] at h
      fair := by
        rintro q y rfl - q' hq'
        cases q <;> cases hq' }
  apart := by
    rintro - fd name rfl u ⟨fd', name', hin⟩
    simp only [apart, Bool.and_eq_true, List.all_eq_true] at h
    by_cases hu : u < 3
    · have hnot := h.2 u (List.mem_range.mpr hu) _ hin
      cases hnot
    · rw [show c.state.shared.frames u = [] from hc u (by omega)] at hin
      cases hin
  found h := absurd trivial h
  whole := by
    rintro - fd bs rfl heq
    cases heq

theorem apartCourse_within : apartCourse.Within (AmongFew (Regular ⟨True, True⟩)) where
  op {c t o k e} hp he := by
    simp only [apartCourse, smoothly] at he
    split_ifs at he with hguard
    obtain rfl := Option.some.inj he
    refine ⟨fun hc o' k' hp' => ?_, fun u e o' k' hm hp' => ?_⟩
    · obtain ⟨rfl, _⟩ := Prog.op.inj (hp.symm.trans hp')
      exact orderly_of_apart hguard hc
    · cases hm
      exact of_decide_eq_true (Bool.and_eq_true_iff.mp hguard).1
  call {c t p k} hp := by
    refine ⟨fun _ o k' hp' => ?_, fun u e o k' hm hp' => ?_⟩
    · cases hp.symm.trans hp'
    · cases hm
      cases hp.symm.trans hp'
  start {c t q} hq := by
    refine ⟨fun _ => fair_of_servesOrSends hq, fun u e o k hm => ?_⟩
    cases hm

/-- A packet with a payload of four bytes. -/
def notice : PacketHeader :=
  { PacketHeader.zero with type := PacketType.posted.code, size := htons 4 }

/-- Two clients log in, one after the other, and a third thread broadcasts a packet. It has sent
its header to the first client, and is about to send the payload. -/
def halfSent : List (Pool.Stage (server (.fixed 1 1))) :=
  [.start 0 (.accept 3 (packet .login [97]) false), .drive 0 500,
    .start 1 (.accept 4 (packet .login [98]) false), .drive 1 500,
    .start 2 (.client (.broadcast notice [1, 2, 3, 4])), .drive 2 11]

/-- The action is to write `bs` to descriptor `fd`. -/
def writes (fd : Int) (bs : List UInt8) : Op → Bool
  | .write x l => x == fd && l == bs
  | _ => false

/-- Both clients are logged in, and thread 2 is about to write the payload to the first one. -/
def payloadDue (c : Pool (server (.fixed 1 1))) : Bool :=
  loggedIn 0 c.state.hist.events == some 0 && loggedIn 1 c.state.hist.events == some 1 &&
    ((c.state.conns 3).any fun k => k.output.length = 24) && (c.prog 2).atOp (writes 3 [1, 2, 3, 4])

theorem exists_payloadDue : ∃ c : Pool (server (.fixed 1 1)),
    Pool.ReachIf (Regular ⟨True, True⟩) (Pool.idle (State.init _ () 4)) c ∧
      payloadDue c = true := by
  obtain ⟨c, hc, ht⟩ := Pool.exists_reach apartCourse_within halfSent
    (Pool.idle (State.init _ () 4)) payloadDue (by decide +kernel)
  exact ⟨c, (reach_few hc fun _ _ => rfl).1, ht⟩

/-- Thread 2 writes to the connection of the first client. -/
theorem writes_addressed_broadcast : ∃ c : Pool (server (.fixed 1 1)),
    (∃ k, c.prog 2 = .op (.write 3 [1, 2, 3, 4]) k) ∧ Addressed 2 3 c.state.shared := by
  obtain ⟨c, hc, ht⟩ := exists_payloadDue
  simp only [payloadDue, Bool.and_eq_true] at ht
  obtain ⟨o, k, hk, ho⟩ := Prog.exists_of_atOp ht.2
  cases o <;> simp only [writes, Bool.and_eq_true, beq_iff_eq, Bool.false_eq_true] at ho
  obtain ⟨rfl, rfl⟩ := ho
  exact ⟨c, ⟨k, hk⟩, writes_addressed hc hk⟩

/-- Two clients are logged in, each as a trader of its own. -/
theorem sessions_sound_two : ∃ c : Pool (server (.fixed 1 1)),
    c.state.shared.loggedIn 0 = some 0 ∧ c.state.shared.loggedIn 1 = some 1 ∧
      Sound c.state.shared := by
  obtain ⟨c, hc, ht⟩ := exists_payloadDue
  simp only [payloadDue, Bool.and_eq_true, beq_iff_eq] at ht
  exact ⟨c, ht.1.1.1, ht.1.1.2, sessions_sound hc⟩

/-- The first client has been sent a header, and its payload is due. -/
theorem streams_whole_half : ∃ (c : Pool (server (.fixed 1 1))) (conn : Conn),
    c.state.conns 3 = some conn ∧ conn.output.length = 24 ∧
      ∃ ps part, conn.output = Packet.encode ps ++ part ∧
        (∀ p ∈ ps, Genuine c.state.shared p) ∧
        (part = [] ∨ ∃ u p rest, Packet.toBytes p = part ++ rest ∧ rest ≠ [] ∧
          Sender c.state.shared u 3 p) := by
  obtain ⟨c, hc, ht⟩ := exists_payloadDue
  simp only [payloadDue, Bool.and_eq_true] at ht
  obtain ⟨conn, hconn, hlen⟩ := (Option.any_eq_true ..).mp ht.1.2
  exact ⟨c, conn, hconn, of_decide_eq_true hlen, streams_whole trivial hc hconn⟩

/-- The trader of the first client lasts while the second one logs in. -/
theorem table_lasts_login : ∃ c c' : Pool (server (.fixed 1 1)),
    c.state.allTraders 0 = some 0 ∧ c.state.allTraders 1 = none ∧
      c'.state.allTraders 1 = some 1 ∧ Lasting c.state.shared c'.state.shared := by
  obtain ⟨c, hc, ht⟩ := Pool.exists_reach apartCourse_within (halfSent.take 2)
    (Pool.idle (State.init (.fixed 1 1) () 4)) (fun c => c.state.allTraders 0 == some 0 &&
      c.state.allTraders 1 == none &&
      (Pool.perform apartCourse ((halfSent.drop 2).take 2) c).any fun c' =>
        c'.state.allTraders 1 == some 1) (by decide +kernel)
  simp only [Bool.and_eq_true, beq_iff_eq] at ht
  obtain ⟨c', hc', hslot⟩ := (Option.any_eq_true ..).mp ht.2
  obtain ⟨hreach, hfew⟩ := reach_few hc fun _ _ => rfl
  have hreach' := (reach_few (Pool.reach_of_perform apartCourse_within hc') hfew).1
  exact ⟨c, c', ht.1.1, ht.1.2, beq_iff_eq.mp hslot, (table_lasts hreach hreach').1⟩

/-- A client logs in and leaves, and logs in again. -/
def twoVisits : List (Pool.Stage (server (.fixed 1 1))) :=
  [.start 0 (.accept 3 (packet .login [97]) true), .drive 0 500,
    .start 1 (.accept 3 (packet .login [97]) false), .drive 1 500]

/-- Both logins of the client return the same trader. -/
theorem account_of_name_again : ∃ (c : Pool (server (.fixed 1 1))) (name name' : CString),
    loginReturns c.state.hist.events = [(name', 0), (name, 0)] ∧ name ≠ name' ∧
      (0 = 0 ↔ strcmpEq name name' = true) := by
  obtain ⟨c, hc, ht⟩ := Pool.exists_reach apartCourse_within twoVisits
    (Pool.idle (State.init (.fixed 1 1) () 4))
    (fun c => loginReturns c.state.hist.events == [(⟨4, [97, 0]⟩, 0), (⟨2, [97, 0]⟩, 0)])
    (by decide +kernel)
  have hevents := beq_iff_eq.mp ht
  refine ⟨c, _, _, hevents, by decide, account_of_name (reach_few hc fun _ _ => rfl).1 ?_ ?_⟩
  · rw [hevents]
    exact List.mem_cons_of_mem _ List.mem_cons_self
  · rw [hevents]
    exact List.mem_cons_self

end Sessions

end BourseServer
