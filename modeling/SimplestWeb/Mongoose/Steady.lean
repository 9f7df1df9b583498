import SimplestWeb.Lib.Outcome
import SimplestWeb.Mongoose.LoopInv

/-!
# The functions of the loop do not fail

The wiring says where every pointer between two connections leads, so no
function of the loop follows a dangling one. Two more facts are needed for
the pointers the wiring does not speak of: the listener stays alive while its
connections are handled, and a request is delivered only to a connection with
proto data. `Steady` collects what the functions do for these: a listening
connection is left as it is, proto data is not taken away, and the buffer of a
connection without proto data is not touched, so it still holds no complete
message (`NoMessage`).

The specifications are outcomes: each says that the function returns, and that
what it did was `Steady`. Only an allocation that is not checked can fail.
-/

namespace SimplestWeb.Mongoose

open SimplestWeb.Lib (Heap Outcome)

variable {n n' n'' : Net} {t : MgrPtr} {lc a b : ConnPtr} {x y : Option ConnPtr}
  {c d e : MgConnection}

/-! ## One connection -/

/-- A connection whose messages nobody has looked at yet holds no complete one. -/
def NoMessage (c : MgConnection) : Prop :=
  c.protoHandler = some .mgHttpHandler → c.protoData = none →
    ∀ len hm, mgParseHttp c.recvMbuf c.listener.isSome ≠ .complete len hm

/-- What the functions of the loop leave of a connection. -/
structure SteadyConn (c d : MgConnection) : Prop where
  mgr : d.mgr = c.mgr
  listener : d.listener = c.listener
  protoData : c.protoData ≠ none → d.protoData ≠ none
  buffer : d.protoHandler = some .mgHttpHandler → d.protoData = none →
    c.protoHandler = some .mgHttpHandler ∧ d.recvMbuf = c.recvMbuf
  plain : c.flags.listening = false → d.flags.listening = false
  listening : c.flags.listening = true → d = c

namespace SteadyConn

theorem refl (c : MgConnection) : SteadyConn c c :=
  ⟨rfl, rfl, id, fun hp _ => ⟨hp, rfl⟩, id, fun _ => rfl⟩

theorem trans (h₁ : SteadyConn c d) (h₂ : SteadyConn d e) : SteadyConn c e where
  mgr := h₂.mgr.trans h₁.mgr
  listener := h₂.listener.trans h₁.listener
  protoData := fun h => h₂.protoData (h₁.protoData h)
  buffer := by
    intro hp he
    obtain ⟨hdp, hde⟩ := h₂.buffer hp he
    have hd : d.protoData = none := by
      by_contra hne
      exact h₂.protoData hne he
    obtain ⟨hcp, hcd⟩ := h₁.buffer hdp hd
    exact ⟨hcp, hde.trans hcd⟩
  plain := fun h => h₂.plain (h₁.plain h)
  listening := by
    intro h
    have hd := h₁.listening h
    rw [hd] at h₂
    exact h₂.listening h

/-- Flags, counters and what is sent. -/
theorem of_buffer (hl : c.flags.listening = false) (hrole : SameRole c d)
    (hp : d.protoHandler = c.protoHandler) (hd : d.protoData = c.protoData)
    (hb : d.recvMbuf = c.recvMbuf) : SteadyConn c d where
  mgr := hrole.mgr
  listener := hrole.listener
  protoData := by
    rw [hd]
    exact id
  buffer := fun h _ => ⟨hp ▸ h, hb⟩
  plain := fun h => hrole.listening.trans h
  listening := by
    intro h
    rw [hl] at h
    cases h

/-- A connection with proto data. -/
theorem of_protoData (hl : c.flags.listening = false) (hrole : SameRole c d)
    (hd : d.protoData ≠ none) : SteadyConn c d where
  mgr := hrole.mgr
  listener := hrole.listener
  protoData := fun _ => hd
  buffer := fun _ h => absurd h hd
  plain := fun h => hrole.listening.trans h
  listening := by
    intro h
    rw [hl] at h
    cases h

/-- A connection that is not handled by `mg_http_handler`. -/
theorem of_proto (hl : c.flags.listening = false) (hrole : SameRole c d)
    (hp : d.protoHandler ≠ some .mgHttpHandler) (hd : c.protoData ≠ none → d.protoData ≠ none) :
    SteadyConn c d where
  mgr := hrole.mgr
  listener := hrole.listener
  protoData := hd
  buffer := fun h => absurd h hp
  plain := fun h => hrole.listening.trans h
  listening := by
    intro h
    rw [hl] at h
    cases h

/-- A connection without a message in its buffer is left without one. -/
theorem noMessage (h : SteadyConn c d) (hc : NoMessage c) : NoMessage d := by
  intro hp hd
  obtain ⟨hcp, hb⟩ := h.buffer hp hd
  have hcd : c.protoData = none := by
    by_contra hne
    exact h.protoData hne hd
  rw [hb, h.listener]
  exact hc hcp hcd

/-- Proto data stays with plain connections. -/
theorem keepsPlain (h : SteadyConn c d) (hc : c.protoData ≠ none → c.flags.listening = false)
    (hd : d.protoData ≠ none) : d.flags.listening = false := by
  cases hl : c.flags.listening with
  | false => exact h.plain hl
  | true =>
    rw [h.listening hl] at hd
    rw [hc hd] at hl
    cases hl

end SteadyConn

/-- An empty buffer holds no message. -/
theorem noMessage_nil (h : c.recvMbuf = []) : NoMessage c := by
  intro _ _ len hm hparse
  rw [h] at hparse
  cases hparse

/-! ## All connections -/

/-- Every connection of `t`, but `x`, has no unseen message; only plain
connections have proto data. -/
structure Tidy (n : Net) (t : MgrPtr) (x : Option ConnPtr) : Prop where
  message : ∀ a c, n.heap a = some c → c.mgr = t → x ≠ some a → NoMessage c
  plain : ∀ a c, n.heap a = some c → c.mgr = t → c.protoData ≠ none → c.flags.listening = false

theorem Tidy.mono (h : Tidy n t none) (x : Option ConnPtr) : Tidy n t x :=
  ⟨fun a c hc ht _ => h.message a c hc ht (Option.some_ne_none a).symm, h.plain⟩

/-- Rewriting the connection at `a`, whatever is in its buffer. -/
theorem Tidy.put (h : Tidy n t (some a)) (hd : x ≠ some a → NoMessage d)
    (hp : d.protoData ≠ none → d.flags.listening = false) : Tidy (n.put a d) t x where
  message b e he ht hx := by
    rcases Heap.mem_put.mp he with ⟨rfl, rfl⟩ | ⟨hba, he⟩
    · exact hd hx
    · exact h.message b e he ht fun hab => hba (Option.some.inj hab).symm
  plain b e he ht hpd := by
    rcases Heap.mem_put.mp he with ⟨rfl, rfl⟩ | ⟨-, he⟩
    · exact hp hpd
    · exact h.plain b e he ht hpd

/-- What the functions of the loop leave of the connections. -/
structure Steady (t : MgrPtr) (n n' : Net) : Prop where
  conn : ∀ a c, n.heap a = some c → ∃ d, n'.heap a = some d ∧ SteadyConn c d
  fresh : ∀ a d, n.heap a = none → n'.heap a = some d →
    NoMessage d ∧ (d.protoData ≠ none → d.flags.listening = false)
  active : ∃ l, n'.active t = l ++ n.active t

namespace Steady

theorem refl (t : MgrPtr) (n : Net) : Steady t n n where
  conn _ c hc := ⟨c, hc, SteadyConn.refl c⟩
  fresh a d hnone hd := by
    rw [hnone] at hd
    cases hd
  active := ⟨[], rfl⟩

/-- A connection afterwards is a new one or an old one. -/
theorem cases (h : Steady t n n') (hd : n'.heap a = some d) :
    (n.heap a = none ∧ NoMessage d ∧ (d.protoData ≠ none → d.flags.listening = false)) ∨
      ∃ c, n.heap a = some c ∧ SteadyConn c d := by
  cases hc : n.heap a with
  | none => exact Or.inl ⟨rfl, h.fresh a d hc hd⟩
  | some c =>
    obtain ⟨d', hd', hcd⟩ := h.conn a c hc
    obtain rfl : d = d' := Option.some.inj (hd.symm.trans hd')
    exact Or.inr ⟨c, rfl, hcd⟩

/-- A manager that was tidy stays so. -/
theorem tidy (h : Steady t n n') (hT : Tidy n t x) : Tidy n' t x where
  message a d hd ht hx := by
    rcases h.cases hd with ⟨-, hnew, -⟩ | ⟨c, hc, hcd⟩
    · exact hnew
    · exact hcd.noMessage (hT.message a c hc (hcd.mgr.symm.trans ht) hx)
  plain a d hd ht hpd := by
    rcases h.cases hd with ⟨-, -, hnew⟩ | ⟨c, hc, hcd⟩
    · exact hnew hpd
    · exact hcd.keepsPlain (hT.plain a c hc (hcd.mgr.symm.trans ht)) hpd

/-- Rewriting one connection in place. -/
theorem put (hc : n.heap a = some c) (hcd : SteadyConn c d) : Steady t n (n.put a d) where
  conn b e he := by
    by_cases hba : b = a
    · subst hba
      obtain rfl : c = e := Option.some.inj (hc.symm.trans he)
      exact ⟨d, Heap.put_self _ _ _, hcd⟩
    · exact ⟨e, (Heap.put_ne _ _ hba).trans he, SteadyConn.refl e⟩
  fresh b e hnone he := by
    rcases Heap.mem_put.mp he with ⟨rfl, -⟩ | ⟨-, hb⟩
    · rw [hc] at hnone
      cases hnone
    · rw [hnone] at hb
      cases hb
  active := ⟨[], rfl⟩

theorem trans (h₁ : Steady t n n') (h₂ : Steady t n' n'') : Steady t n n'' where
  conn a c hc := by
    obtain ⟨d, hd, hcd⟩ := h₁.conn a c hc
    obtain ⟨e, he, hde⟩ := h₂.conn a d hd
    exact ⟨e, he, hcd.trans hde⟩
  fresh a e hnone he := by
    rcases h₂.cases he with ⟨-, hnew⟩ | ⟨d, hd, hde⟩
    · exact hnew
    · obtain ⟨hmsg, hplain⟩ := h₁.fresh a d hnone hd
      exact ⟨hde.noMessage hmsg, hde.keepsPlain hplain⟩
  active := by
    obtain ⟨l₁, h₁⟩ := h₁.active
    obtain ⟨l₂, h₂⟩ := h₂.active
    exact ⟨l₂ ++ l₁, by rw [h₂, h₁, List.append_assoc]⟩

end Steady

/-! ## Outcomes of the functions -/

section

variable {E : Fault → Prop} {Q : Net → Prop}

/-- An update of a connection that is there. -/
theorem modify_outcome {f : MgConnection → MgConnection} (hc : n.heap a = some c)
    (h : Q (n.put a (f c))) : Outcome E Q (n.modify a f) := by
  rw [Net.modify_eq_ok.mpr ⟨c, hc, rfl⟩]
  exact h

/-- Rewriting a connection through `modify`. -/
theorem modify_steady {f : MgConnection → MgConnection} (hc : n.heap a = some c)
    (hf : SteadyConn c (f c)) : Outcome E (Steady t n) (n.modify a f) :=
  modify_outcome hc (Steady.put hc hf)

/-- A forwarder is told that its client is gone. -/
theorem loseClient_steady (hf : ForwarderConn n a c) : SteadyConn c c.loseClient where
  mgr := rfl
  listener := rfl
  protoData := id
  buffer := fun hp _ => ⟨hp, rfl⟩
  plain := id
  listening := by
    intro h
    rw [hf.listening] at h
    cases h

/-- Cutting off a CGI process keeps things tidy. -/
theorem unlinkCgi_steady (hw : Wired n t lc x) (hc : n.heap a = some c) (ht : c.mgr = t) :
    Outcome E (Steady t n) (unlinkCgi n c.cgiNc) := by
  unfold unlinkCgi
  split
  next => exact Steady.refl t n
  next g hg =>
    obtain ⟨cg, hcg, hmg, hhg, -⟩ := hw.link a c g hc ht hg
    exact modify_steady hcg (loseClient_steady (hw.forwarder_cgiNc hcg hmg hhg))

/-- The bytes of a forwarder go to its client. -/
theorem mgForward_steady (hc : n.heap a = some c) (hp : c.protoHandler = none)
    (hl : c.flags.listening = false) (hd : n.heap b = some d) (hld : d.flags.listening = false)
    (hab : a ≠ b) : Outcome E (Steady t n) (mgForward n a b) := by
  have hsend : SteadyConn d (d.mgSend c.recvMbuf.length) :=
    SteadyConn.of_buffer hld (SameWiring.mgSend d _).toSameRole rfl rfl rfl
  have hempty : SteadyConn c { c with recvMbuf := [] } := by
    refine SteadyConn.of_proto hl ⟨rfl, rfl, rfl, rfl, rfl, fun _ => rfl⟩ ?_ id
    show c.protoHandler ≠ _
    rw [hp]
    exact (Option.some_ne_none _).symm
  unfold mgForward
  rw [Net.deref_bind hc]
  rw [Net.modify_bind hd]
  have hc₁ : (n.put b (d.mgSend c.recvMbuf.length)).heap a = some c :=
    (Heap.put_ne _ _ hab).trans hc
  exact modify_outcome hc₁ ((Steady.put hd hsend).trans (Steady.put hc₁ hempty))

/-- The client of a forwarder: a plain connection whose proto data points back. -/
structure ClientConn (n : Net) (t : MgrPtr) (a b : ConnPtr) (d : MgConnection)
    (pd : MgHttpProtoData) : Prop where
  heap : n.heap b = some d
  mgr : d.mgr = t
  protoData : d.protoData = some pd
  cgiNc : pd.cgiNc = some a
  plain : d.flags.listening = false
  ne : a ≠ b

/-- A forwarder has a client that knows it. -/
theorem Tidy.client (hT : Tidy n t y) (hw : Wired n t lc x) (hc : n.heap a = some c)
    (ht : c.mgr = t) (hh : c.handler = .mgCgiEvHandler)
    (hu : c.userData = some (.connection b)) : ∃ d pd, ClientConn n t a b d pd := by
  obtain ⟨d, hd, hm, hg⟩ := hw.client hc ht hh hu
  have hne : a ≠ b := by
    rintro rfl
    obtain rfl : c = d := Option.some.inj (hc.symm.trans hd)
    rw [(hw.forwarder_cgiNc hc ht hh).cgiNc] at hg
    cases hg
  cases hpd : d.protoData with
  | none =>
    rw [MgConnection.cgiNc, hpd] at hg
    cases hg
  | some pd =>
    rw [MgConnection.cgiNc, hpd] at hg
    exact ⟨d, pd, hd, hm, hpd, hg, hT.plain b d hd hm (by rw [hpd]; exact Option.some_ne_none _),
      hne⟩

/-- The client forgets its forwarder. -/
theorem mgHttpFreeProtoDataCgi_steady {pd : MgHttpProtoData} (hb : ClientConn n t a b d pd)
    (hc : n.heap a = some c) (hf : ForwarderConn n a c) :
    Outcome E (fun n' => Steady t n n' ∧
      n'.heap b = some { d with protoData := some { pd with cgiNc := none } })
      (mgHttpFreeProtoDataCgi n b) := by
  have hrole : SameRole d { d with protoData := some { pd with cgiNc := none } } :=
    ⟨rfl, rfl, rfl, rfl, rfl, fun _ => rfl⟩
  unfold mgHttpFreeProtoDataCgi
  rw [Net.deref_bind hb.heap]
  rw [hb.protoData]
  dsimp only
  rw [hb.cgiNc, unlinkCgi, Net.modify_bind hc]
  have hb₁ : (n.put a c.loseClient).heap b = some d :=
    (Heap.put_ne _ _ hb.ne.symm).trans hb.heap
  refine modify_outcome hb₁ ⟨?_, Heap.put_self _ _ _⟩
  exact (Steady.put hc (loseClient_steady hf)).trans
    (Steady.put hb₁ (SteadyConn.of_protoData hb.plain hrole (Option.some_ne_none _)))

/-- Both ends are rewritten before the bytes go over. -/
theorem relay_steady {f g : MgConnection → MgConnection} (hc : n.heap a = some c)
    (hd : n.heap b = some d) (hab : a ≠ b) (hf : SteadyConn c (f c))
    (hp : (f c).protoHandler = none) (hl : (f c).flags.listening = false) (hg : SteadyConn d (g d))
    (hld : (g d).flags.listening = false) :
    Outcome E (Steady t n) (do
      let n ← n.modify a f
      let n ← n.modify b g
      mgForward n a b) := by
  rw [Net.modify_bind hc]
  have hd₁ : (n.put a (f c)).heap b = some d := (Heap.put_ne _ _ hab.symm).trans hd
  rw [Net.modify_bind hd₁]
  have hc₂ : ((n.put a (f c)).put b (g d)).heap a = some (f c) :=
    (Heap.put_ne _ _ hab).trans (Heap.put_self _ _ _)
  have hs : Steady t n ((n.put a (f c)).put b (g d)) :=
    (Steady.put hc hf).trans (Steady.put hd₁ hg)
  exact (mgForward_steady hc₂ hp hl (Heap.put_self _ _ _) hld hab).mono (fun _ he => he)
    fun _ h => hs.trans h

/-- A forwarder's callback. -/
theorem mgCgiEvHandler_steady (hT : Tidy n t y) (hw : Wired n t lc x) (hc : n.heap a = some c)
    (ht : c.mgr = t) (hh : c.handler = .mgCgiEvHandler) {ev : Ev} {sent : Nat} :
    Outcome E (Steady t n) (mgCgiEvHandler n a ev sent) := by
  have hf := hw.forwarder_cgiNc hc ht hh
  unfold mgCgiEvHandler
  rw [Net.deref_bind hc]
  split
  next =>
    exact modify_steady hc (SteadyConn.of_buffer hf.listening
      (SameWiring.setCloseImmediately c).toSameRole rfl rfl rfl)
  next u hu =>
    -- a forwarder's user data is a connection
    obtain ⟨b', cb, hv, -⟩ := hf.client _ hu
    cases hv
  next b hu =>
    obtain ⟨d, pd, hb⟩ := hT.client hw hc ht hh hu
    cases ev with
    | poll | send => exact Steady.refl t n
    | close =>
      refine Outcome.bind (mgHttpFreeProtoDataCgi_steady hb hc hf) ?_
      intro n₁ _ hn₁
      refine modify_outcome hn₁.2 (hn₁.1.trans (Steady.put hn₁.2 ?_))
      exact SteadyConn.of_buffer hb.plain (SameWiring.setSendAndClose _).toSameRole rfl rfl rfl
    | recv =>
      dsimp only
      rw [Net.deref_bind hb.heap]
      split
      next =>
        split
        next => exact Steady.refl t n
        next =>
          have hrole : SameRole d { d.mgSend sent with
              flags := { (d.mgSend sent).flags with user1 := false } } :=
            ⟨rfl, rfl, rfl, rfl, rfl, fun _ => rfl⟩
          have hsent : SteadyConn d { d.mgSend sent with
              flags := { (d.mgSend sent).flags with user1 := false } } :=
            SteadyConn.of_buffer hb.plain hrole rfl rfl rfl
          refine relay_steady hc hb.heap hb.ne ?_ ?_ ?_ ?_ ?_
          · split
            next =>
              exact SteadyConn.of_buffer hf.listening
                (SameWiring.setCloseImmediately c).toSameRole rfl rfl rfl
            next => exact SteadyConn.refl c
          · split
            next => exact hf.protoHandler
            next => exact hf.protoHandler
          · split
            next => exact hf.listening
            next => exact hf.listening
          · split
            next =>
              exact hsent.trans (SteadyConn.of_buffer hb.plain
                (SameWiring.setSendAndClose _).toSameRole rfl rfl rfl)
            next => exact hsent
          · split
            next => exact hb.plain
            next => exact hb.plain
      next => exact mgForward_steady hc hf.protoHandler hf.listening hb.heap hb.plain hb.ne

/-! ### Callbacks -/

theorem transferFileData_protoData {io : Nat} (h : c.protoData ≠ none) :
    (c.transferFileData io).protoData ≠ none := by
  unfold MgConnection.transferFileData
  split
  next => exact h
  next =>
    split
    next => exact h
    next =>
      dsimp only
      split
      next =>
        split
        next => exact Option.some_ne_none _
        next => exact Option.some_ne_none _
      next => exact Option.some_ne_none _

theorem transferFileData_none {io : Nat} (h : c.protoData = none) : c.transferFileData io = c := by
  unfold MgConnection.transferFileData
  rw [h]

/-- Moving on with a file keeps a connection steady. -/
theorem transferFileData_steady {io : Nat} (hl : c.protoData ≠ none → c.flags.listening = false) :
    SteadyConn c (c.transferFileData io) := by
  by_cases hpd : c.protoData = none
  · rw [transferFileData_none hpd]
    exact SteadyConn.refl c
  · exact SteadyConn.of_protoData (hl hpd) (SameWiring.transferFileData c io).toSameRole
      (transferFileData_protoData hpd)

@[simp] theorem recvRemove_protoHandler {k : Nat} :
    (c.recvRemove k).protoHandler = c.protoHandler := by
  unfold MgConnection.recvRemove
  split <;> rfl

@[simp] theorem recvRemove_protoData {k : Nat} : (c.recvRemove k).protoData = c.protoData := by
  unfold MgConnection.recvRemove
  split <;> rfl

@[simp] theorem mgWsHandler_protoHandler {ev : Ev} {env : Env} :
    (mgWsHandler c ev env).protoHandler = c.protoHandler := by
  unfold mgWsHandler
  split
  next => rfl
  next =>
    dsimp only
    split
    next => exact recvRemove_protoHandler
    next => exact recvRemove_protoHandler
  next => rfl
  next => rfl

@[simp] theorem mgWsHandler_protoData {ev : Ev} {env : Env} :
    (mgWsHandler c ev env).protoData = c.protoData := by
  unfold mgWsHandler
  split
  next => rfl
  next =>
    dsimp only
    split
    next => exact recvRemove_protoData
    next => exact recvRemove_protoData
  next => rfl
  next => rfl

/-- The handler of websockets keeps a connection steady. -/
theorem mgWsHandler_steady {ev : Ev} {env : Env} (hl : c.flags.listening = false)
    (hp : c.protoHandler = some .mgWsHandler) : SteadyConn c (mgWsHandler c ev env) := by
  refine SteadyConn.of_proto hl (SameWiring.mgWsHandler c ev env).toSameRole ?_ ?_
  · rw [mgWsHandler_protoHandler, hp]
    decide
  · rw [mgWsHandler_protoData]
    exact id

/-- A callback on a plain connection. -/
theorem mgCall_steady (hT : Tidy n t y) (hw : Wired n t lc x) (hc : n.heap a = some c)
    (ht : c.mgr = t) (hl : c.flags.listening = false) {ev : Ev} {env : Env} :
    Outcome E (Steady t n) (mgCall n a ev env) := by
  unfold mgCall
  rw [Net.deref_bind hc]
  split
  next => exact Steady.put hc (transferFileData_steady fun _ => hl)
  next hp => exact Steady.put hc (mgWsHandler_steady hl hp)
  next =>
    split
    next => exact Steady.refl t n
    next hh => exact mgCgiEvHandler_steady hT hw hc ht hh

/-- A callback on the listener does nothing. -/
theorem mgCall_listener (hc : n.heap a = some c) (hpd : c.protoData = none)
    (hp : c.protoHandler ≠ some .mgWsHandler) (hh : c.handler = .evHandler) {ev : Ev} {env : Env} :
    Outcome E (Steady t n) (mgCall n a ev env) := by
  unfold mgCall
  rw [Net.deref_bind hc]
  split
  next =>
    rw [transferFileData_none hpd]
    exact Steady.put hc (SteadyConn.refl c)
  next hws => exact absurd hws hp
  next =>
    rw [hh]
    exact Steady.refl t n

/-! ### Proto data, and new connections -/

/-- A message has arrived: the connection has proto data from here on. The
allocation is not checked. -/
theorem mgHttpCreateProtoData_steady (hw : Wired n t lc none) (hc : n.heap a = some c)
    (ht : c.mgr = t) (hl : c.flags.listening = false) {ok : Bool} :
    Outcome (fun f => f = .nullDeref ∧ ok = false)
      (fun n' => Steady t n n' ∧ ∃ d, n'.heap a = some d ∧ d.protoData ≠ none)
      (mgHttpCreateProtoData n a ok) := by
  unfold mgHttpCreateProtoData
  rw [Net.deref_bind hc]
  refine Outcome.bind (unlinkCgi_steady hw hc ht) ?_
  intro n₁ _ hs
  split
  next =>
    obtain ⟨d, hd, hcd⟩ := hs.conn a c hc
    have hrole : SameRole d { d with protoData := some {} } :=
      ⟨rfl, rfl, rfl, rfl, rfl, fun _ => rfl⟩
    refine modify_outcome hd ⟨?_, _, Heap.put_self _ _ _, Option.some_ne_none _⟩
    exact hs.trans (Steady.put hd
      (SteadyConn.of_protoData (hcd.plain hl) hrole (Option.some_ne_none _)))
  next hok => exact ⟨rfl, Bool.eq_false_iff.mpr hok⟩

/-- A new connection is put in front. -/
theorem mgAddConn_steady (hfree : n.heap a = none) (ht : c.mgr = t) (hm : (n.mgrs t).isSome)
    (hb : c.recvMbuf = []) (hpd : c.protoData = none) :
    Outcome E (fun n' => Steady t n n' ∧ n'.heap = n.heap.put a c) (mgAddConn n a c) := by
  have hok : Outcome E (fun _ => True) (mgAddConn n a c) := by
    obtain ⟨m, hm⟩ := Option.isSome_iff_exists.mp hm
    unfold mgAddConn
    rw [ht, hm]
    exact True.intro
  refine (hok.and_ok fun n' h => ?_).mono (fun _ he => he) fun _ h => h.2
  obtain ⟨hheap, -, hact⟩ := mgAddConn_spec hfree ht h
  refine ⟨⟨?_, ?_, [a], hact⟩, hheap⟩
  · intro b d hd
    refine ⟨d, ?_, SteadyConn.refl d⟩
    rw [hheap]
    refine (Heap.put_ne _ _ ?_).trans hd
    rintro rfl
    rw [hfree] at hd
    cases hd
  · intro b d hnone hd
    rw [hheap] at hd
    rcases Heap.mem_put.mp hd with ⟨-, rfl⟩ | ⟨-, hd⟩
    · exact ⟨noMessage_nil hb, fun h => absurd hpd h⟩
    · rw [hnone] at hd
      cases hd

/-- Accepting a connection keeps things tidy. -/
theorem mgAcceptConn_steady (hc : n.heap a = some c) (ht : c.mgr = t) (hm : (n.mgrs t).isSome)
    {r : Option ConnPtr} : Outcome E (fun r => Steady t n r.2) (mgAcceptConn n a r) := by
  unfold mgAcceptConn
  rw [Net.deref_bind hc]
  split
  next => exact Steady.refl t n
  next b hb =>
    have hfree := (Net.malloc_eq_some.mp hb).2
    refine Outcome.bind (mgAddConn_steady hfree (c := mgIfAcceptNewConn a c) ht hm rfl rfl) ?_
    intro n₁ _ hs
    exact hs.1

/-- How `mg_serve_http` fails: by itself, or because a CGI process needs a
forwarder, whose allocation is not checked either. -/
def ServeFx.Fails (fx : ServeFx) (n : Net) (f : Fault) : Prop :=
  f = .serveHttp ∧ fx.undefined = true ∨
    f = .nullDeref ∧ fx.undefined = false ∧ fx.cgi ≠ none ∧ n.malloc fx.cgi = none

/-- Answering a request keeps things tidy, or fails for a reason. -/
theorem mgServeHttp_steady (hc : n.heap a = some c) (ht : c.mgr = t) (hm : (n.mgrs t).isSome)
    (hl : c.flags.listening = false) (hpd : c.protoData ≠ none) {fx : ServeFx} :
    Outcome (fx.Fails n) (Steady t n) (mgServeHttp n a fx) := by
  have hrole := (SameWiring.serveFx fx c).toSameRole
  unfold mgServeHttp
  rw [Net.deref_bind hc]
  obtain ⟨pd, hpd'⟩ := Option.ne_none_iff_exists'.mp hpd
  by_cases hu : fx.undefined = true
  · rw [if_pos hu]
    exact Or.inl ⟨rfl, hu⟩
  rw [if_neg hu]
  split
  next =>
    refine Steady.put hc (SteadyConn.of_protoData hl hrole ?_)
    simp [ServeFx.apply, hpd']
  next g hg =>
    rw [hpd']
    cases hmal : n.malloc fx.cgi with
    | none =>
      exact Or.inr ⟨rfl, eq_false_of_ne_true hu, by rw [hg]; exact Option.some_ne_none g, hmal⟩
    | some b =>
      have hfree := (Net.malloc_eq_some.mp hmal).2
      have hne : a ≠ b := by
        rintro rfl
        rw [hfree] at hc
        cases hc
      refine (mgAddConn_steady hfree (c := cgiForwarder c.mgr a fx.sent) ht hm rfl rfl).bind ?_
      intro n₁ _ hs
      obtain ⟨hs, hheap⟩ := hs
      have hc₁ : n₁.heap a = some c := by
        rw [hheap]
        exact (Heap.put_ne _ _ hne).trans hc
      exact hs.trans (Steady.put hc₁ (SteadyConn.of_protoData hl
        ⟨hrole.mgr, hrole.listener, hrole.handler, hrole.listening, hrole.userData,
          hrole.protoHandler⟩ (Option.some_ne_none _)))

/-- … and then it does fail. -/
theorem mgServeHttp_fails (hc : n.heap a = some c) {fx : ServeFx} {f : Fault}
    (hf : fx.Fails n f) : mgServeHttp n a fx = .error f := by
  refine Outcome.eq_error ?_
  unfold mgServeHttp
  rw [Net.deref_bind hc]
  rcases hf with ⟨rfl, hu⟩ | ⟨rfl, hu, hcgi, hmal⟩
  · rw [if_pos hu]
    rfl
  · rw [if_neg (ne_true_of_eq_false hu)]
    split
    next hnone => exact absurd hnone hcgi
    next =>
      rw [hmal]
      rfl

end

end SimplestWeb.Mongoose
