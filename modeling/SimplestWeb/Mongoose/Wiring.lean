import SimplestWeb.Mongoose.EventLoop

/-!
# How the connections of one manager hang together

A connection of the manager `t` is the listener `lc`, a connection accepted
through `lc`, or the forwarder of a CGI process; the first two carry the
options of thread `t` in `user_data`. The only writes to `user_data` inside
the event loop go through `pd->cgi.cgi_nc`, so the options stay in place as
long as that pointer leads to a live forwarder — although `malloc` may hand
an address out again. `Wired` states both directions of the link between a
client and its forwarder. While the `MG_EV_CLOSE` callback of a connection
runs, its forwarder has already been cut off but `cgi_nc` is not cleared;
that connection is the parameter `x`.

Everything is about one owner: `NetFrame t n n'` says that a step of `t`
leaves the connections and the manager of everybody else alone.

`Touch` collects the steps that keep the wiring (buffers, flags, counters);
the steps that change it are in `Rewiring`.
-/

namespace SimplestWeb.Mongoose

open SimplestWeb.Lib (Heap)

/-! ## Roles -/

/-- The listening connection of thread `t`, once set up. -/
structure ListenerConn (t : MgrPtr) (lc a : ConnPtr) (c : MgConnection) : Prop where
  addr : a = lc
  listener : c.listener = none
  handler : c.handler = .evHandler
  listening : c.flags.listening = true
  userData : c.userData = some (.serveHttpOpts t)

/-- A connection accepted through the listener `lc` of thread `t`. -/
structure AcceptedConn (t : MgrPtr) (lc : ConnPtr) (c : MgConnection) : Prop where
  listener : c.listener = some lc
  handler : c.handler = .evHandler
  listening : c.flags.listening = false
  userData : c.userData = some (.serveHttpOpts t)

/-- The forwarder of a CGI process. Its client, if it still has one, points
back. -/
structure ForwarderConn (n : Net) (a : ConnPtr) (c : MgConnection) : Prop where
  listener : c.listener = none
  handler : c.handler = .mgCgiEvHandler
  listening : c.flags.listening = false
  protoHandler : c.protoHandler = none
  cgiNc : c.cgiNc = none
  client : ∀ v, c.userData = some v → ∃ b cb, v = .connection b ∧ n.heap b = some cb ∧
    cb.mgr = c.mgr ∧ cb.cgiNc = some a

/-- The connections of manager `t` with listener `lc`, where `x` is inside
its `MG_EV_CLOSE` callback. -/
structure Wired (n : Net) (t : MgrPtr) (lc : ConnPtr) (x : Option ConnPtr) : Prop where
  role : ∀ a c, n.heap a = some c → c.mgr = t →
    ListenerConn t lc a c ∨ AcceptedConn t lc c ∨ ForwarderConn n a c
  link : ∀ a c g, n.heap a = some c → c.mgr = t → c.cgiNc = some g →
    ∃ cg, n.heap g = some cg ∧ cg.mgr = t ∧ cg.handler = .mgCgiEvHandler ∧
      (cg.userData = some (.connection a) ∨ (x = some a ∧ cg.userData = none))

/-- The forwarder of `a`, if any, no longer knows its client. -/
def CutOff (n : Net) (a : ConnPtr) : Prop :=
  ∀ c g cg, n.heap a = some c → c.cgiNc = some g → n.heap g = some cg → cg.userData = none

/-- A live connection of manager `t`. -/
def Live (n : Net) (t : MgrPtr) (a : ConnPtr) : Prop := ∃ c, n.heap a = some c ∧ c.mgr = t

/-- The owner of a live connection is read off it. -/
theorem Live.mgr {n : Net} {t : MgrPtr} {a : ConnPtr} {c : MgConnection} (h : Live n t a)
    (hc : n.heap a = some c) : c.mgr = t := by
  obtain ⟨d, hd, ht⟩ := h
  rw [hc] at hd
  cases hd
  exact ht

/-- The list of manager `t`. -/
def Net.active (n : Net) (t : MgrPtr) : List ConnPtr :=
  match n.mgrs t with
  | some m => m.activeConnections
  | none => []

/-- The list of manager `t` is a list of distinct live connections of `t`. -/
structure Listed (n : Net) (t : MgrPtr) : Prop where
  nodup : (n.active t).Nodup
  live : ∀ a ∈ n.active t, Live n t a

/-- While a connection is in its `MG_EV_CLOSE` callback less is asked of the wiring. -/
theorem Wired.mono {n : Net} {t : MgrPtr} {lc : ConnPtr} (h : Wired n t lc none)
    (x : Option ConnPtr) :
    Wired n t lc x where
  role := h.role
  link := by
    intro a c g hc ht hg
    obtain ⟨cg, hcg, hm, hh, hu⟩ := h.link a c g hc ht hg
    refine ⟨cg, hcg, hm, hh, ?_⟩
    rcases hu with hu | ⟨hx, _⟩
    · exact Or.inl hu
    · cases hx

/-- A forwarder is not its own client, nor anybody's client. -/
theorem Wired.forwarder_cgiNc {n : Net} {t : MgrPtr} {lc : ConnPtr} {x : Option ConnPtr}
    (h : Wired n t lc x) {a : ConnPtr} {c : MgConnection} (hc : n.heap a = some c) (ht : c.mgr = t)
    (hh : c.handler = .mgCgiEvHandler) : ForwarderConn n a c := by
  rcases h.role a c hc ht with hl | ha | hf
  · rw [hl.handler] at hh
    cases hh
  · rw [ha.handler] at hh
    cases hh
  · exact hf

/-- A user connection that was accepted carries the options of its thread. -/
theorem Wired.accepted {n : Net} {t : MgrPtr} {lc : ConnPtr} {x : Option ConnPtr}
    (h : Wired n t lc x) {a : ConnPtr} {c : MgConnection} (hc : n.heap a = some c) (ht : c.mgr = t)
    (hl : c.listener ≠ none) : AcceptedConn t lc c := by
  rcases h.role a c hc ht with hlc | ha | hf
  · exact absurd hlc.listener hl
  · exact ha
  · exact absurd hf.listener hl

/-! ## Frames -/

/-- A step of thread `t` leaves the others' connections and managers alone. -/
structure NetFrame (t : MgrPtr) (n n' : Net) : Prop where
  heap : Heap.Frame MgConnection.mgr t n.heap n'.heap
  mgrs : ∀ u, u ≠ t → n'.mgrs u = n.mgrs u

theorem NetFrame.refl (t : MgrPtr) (n : Net) : NetFrame t n n :=
  ⟨Heap.Frame.refl _ _ _, fun _ _ => rfl⟩

theorem NetFrame.trans {t : MgrPtr} {n₁ n₂ n₃ : Net} (h₁ : NetFrame t n₁ n₂)
    (h₂ : NetFrame t n₂ n₃) : NetFrame t n₁ n₃ :=
  ⟨h₁.heap.trans h₂.heap, fun u hu => (h₂.mgrs u hu).trans (h₁.mgrs u hu)⟩

/-- Rewriting a connection of `t` in place. -/
theorem NetFrame.put {t : MgrPtr} {n : Net} {a : ConnPtr} {c d : MgConnection}
    (hc : n.heap a = some c) (ht : c.mgr = t) (hd : d.mgr = t) : NetFrame t n (n.put a d) :=
  ⟨Heap.Frame.write hc ht hd, fun _ _ => rfl⟩

section OtherOwner

variable {t u : MgrPtr} {n n' : Net}

/-- The others' connections stay alive. -/
theorem NetFrame.live (h : NetFrame t n n') (hu : u ≠ t) {a : ConnPtr} (ha : Live n u a) :
    Live n' u a := by
  obtain ⟨c, hc, hm⟩ := ha
  exact ⟨c, (h.heap.other hu hm).mpr hc, hm⟩

/-- The others' lists stay as they are. -/
theorem NetFrame.active (h : NetFrame t n n') (hu : u ≠ t) : n'.active u = n.active u := by
  unfold Net.active
  rw [h.mgrs u hu]

/-- … and stay lists of live connections. -/
theorem NetFrame.listed (h : NetFrame t n n') (hu : u ≠ t) (hl : Listed n u) : Listed n' u := by
  constructor
  · rw [h.active hu]
    exact hl.nodup
  · intro a ha
    rw [h.active hu] at ha
    exact h.live hu (hl.live a ha)

/-- The wiring of one manager survives the steps of every other thread. -/
theorem NetFrame.wired (h : NetFrame t n n') (hu : u ≠ t) {lc : ConnPtr} {x : Option ConnPtr}
    (hw : Wired n u lc x) : Wired n' u lc x := by
  constructor
  · intro a c hc hm
    rcases hw.role a c ((h.heap.other hu hm).mp hc) hm with hl | ha | hf
    · exact Or.inl hl
    · exact Or.inr (Or.inl ha)
    · refine Or.inr (Or.inr { hf with client := ?_ })
      intro v hv
      obtain ⟨b, cb, hvb, hb, hmb, hg⟩ := hf.client v hv
      exact ⟨b, cb, hvb, (h.heap.other hu (hmb.trans hm)).mpr hb, hmb, hg⟩
  · intro a c g hc hm hg
    obtain ⟨cg, hcg, hmg, hrest⟩ := hw.link a c g ((h.heap.other hu hm).mp hc) hm hg
    exact ⟨cg, (h.heap.other hu hmg).mpr hcg, hmg, hrest⟩

end OtherOwner

/-! ## Steps that keep the wiring -/

/-- `d` is `c` up to buffers, counters, proto data and the flags a callback may
change. -/
structure SameRole (c d : MgConnection) : Prop where
  mgr : d.mgr = c.mgr
  listener : d.listener = c.listener
  handler : d.handler = c.handler
  listening : d.flags.listening = c.flags.listening
  userData : d.userData = c.userData
  protoHandler : c.handler = .mgCgiEvHandler → d.protoHandler = c.protoHandler

/-- … and both point to the same forwarder. -/
structure SameWiring (c d : MgConnection) : Prop extends SameRole c d where
  cgiNc : d.cgiNc = c.cgiNc

namespace SameWiring

variable {c d e : MgConnection}

theorem refl (c : MgConnection) : SameWiring c c := ⟨⟨rfl, rfl, rfl, rfl, rfl, fun _ => rfl⟩, rfl⟩

theorem trans (h₁ : SameWiring c d) (h₂ : SameWiring d e) : SameWiring c e where
  mgr := h₂.mgr.trans h₁.mgr
  listener := h₂.listener.trans h₁.listener
  handler := h₂.handler.trans h₁.handler
  listening := h₂.listening.trans h₁.listening
  userData := h₂.userData.trans h₁.userData
  cgiNc := h₂.cgiNc.trans h₁.cgiNc
  protoHandler hh := (h₂.protoHandler (h₁.handler.trans hh)).trans (h₁.protoHandler hh)

/-- Flags do not belong to the wiring. -/
theorem setCloseImmediately (c : MgConnection) : SameWiring c c.setCloseImmediately :=
  ⟨⟨rfl, rfl, rfl, rfl, rfl, fun _ => rfl⟩, rfl⟩

theorem setSendAndClose (c : MgConnection) : SameWiring c c.setSendAndClose :=
  ⟨⟨rfl, rfl, rfl, rfl, rfl, fun _ => rfl⟩, rfl⟩

theorem setRecvAndClose (c : MgConnection) : SameWiring c c.setRecvAndClose :=
  ⟨⟨rfl, rfl, rfl, rfl, rfl, fun _ => rfl⟩, rfl⟩

theorem closeSock (c : MgConnection) : SameWiring c c.closeSock :=
  ⟨⟨rfl, rfl, rfl, rfl, rfl, fun _ => rfl⟩, rfl⟩

/-- What is to be sent does not belong to the wiring. -/
theorem mgSend (c : MgConnection) (k : Nat) : SameWiring c (c.mgSend k) :=
  ⟨⟨rfl, rfl, rfl, rfl, rfl, fun _ => rfl⟩, rfl⟩

/-- Neither does what was received. -/
theorem recvRemove (c : MgConnection) (k : Nat) : SameWiring c (c.recvRemove k) := by
  unfold MgConnection.recvRemove
  split
  next => exact ⟨⟨rfl, rfl, rfl, rfl, rfl, fun _ => rfl⟩, rfl⟩
  next => exact refl c

/-- Moving file data, then updating the file's entry. -/
theorem moveFileData {pd pd' : MgHttpProtoData} (hpd : c.protoData = some pd)
    (hg : pd'.cgiNc = pd.cgiNc) (f : MgHttpProtoDataFile) (k : Nat) :
    SameWiring c { c.moveFileData f k with protoData := some pd' } := by
  have hmove : SameWiring c (c.moveFileData f k) := by
    unfold MgConnection.moveFileData
    split
    next => exact recvRemove c k
    next => exact mgSend c k
  refine ⟨⟨hmove.mgr, hmove.listener, hmove.handler, hmove.listening, hmove.userData,
    hmove.protoHandler⟩, ?_⟩
  simp [MgConnection.cgiNc, hpd, hg]

/-- A file that is sent does not change the forwarder. -/
theorem transferFileData (c : MgConnection) (io : Nat) : SameWiring c (c.transferFileData io) := by
  unfold MgConnection.transferFileData
  split
  next => exact refl c
  next pd hpd =>
    split
    next => exact refl c
    next f _ =>
      dsimp only
      split
      next =>
        have hdone : SameWiring c { c.moveFileData f (f.chunk c io) with
            protoData := some { pd with file := none } } := moveFileData hpd (by rfl) f _
        split
        next => exact hdone
        next => exact hdone.trans (setSendAndClose _)
      next => exact moveFileData hpd (by rfl) f _

/-- Websockets send, take from the buffer and may close. -/
theorem mgWsHandler (c : MgConnection) (ev : Ev) (env : Env) :
    SameWiring c (mgWsHandler c ev env) := by
  unfold Mongoose.mgWsHandler
  split
  next => exact mgSend c _
  next =>
    have h := (mgSend c env.sent).trans (recvRemove _ env.removed)
    dsimp only
    split
    next => exact h.trans (setSendAndClose _)
    next => exact h
  next => exact refl c
  next => exact refl c

/-- The upgrade changes the protocol handler, which forwarders do not have. -/
theorem upgrade (hh : c.handler = .evHandler) (k : Nat) (reply : Bool) (env : Env) :
    SameWiring c (c.upgrade k reply env) := by
  have hswitch : SameWiring c { c.recvRemove k with
      protoHandler := some .mgWsHandler, flags := { c.flags with isWebsocket := true } } := by
    have h := recvRemove c k
    refine ⟨⟨h.mgr, h.listener, h.handler, rfl, h.userData, fun hc => ?_⟩, h.cgiNc⟩
    rw [hh] at hc
    cases hc
  unfold MgConnection.upgrade
  dsimp only
  split
  next => exact hswitch
  next =>
    split
    next => exact (hswitch.trans (mgSend _ _)).trans (mgWsHandler _ _ _)
    next => exact hswitch.trans (mgWsHandler _ _ _)

end SameWiring

/-- `t` has run and every connection is wired as before. -/
structure Touch (t : MgrPtr) (n n' : Net) : Prop where
  frame : NetFrame t n n'
  mgrs : n'.mgrs t = n.mgrs t
  fwd : ∀ a c, n.heap a = some c → ∃ d, n'.heap a = some d ∧ SameWiring c d
  bwd : ∀ a d, n'.heap a = some d → ∃ c, n.heap a = some c ∧ SameWiring c d

namespace Touch

variable {t : MgrPtr} {n n' n'' : Net} {lc : ConnPtr} {x : Option ConnPtr}

theorem refl (t : MgrPtr) (n : Net) : Touch t n n where
  frame := NetFrame.refl t n
  mgrs := rfl
  fwd _ c hc := ⟨c, hc, SameWiring.refl c⟩
  bwd _ c hc := ⟨c, hc, SameWiring.refl c⟩

/-- Steps that keep the wiring can be put together. -/
theorem trans (h₁ : Touch t n n') (h₂ : Touch t n' n'') : Touch t n n'' where
  frame := h₁.frame.trans h₂.frame
  mgrs := h₂.mgrs.trans h₁.mgrs
  fwd a c hc := by
    obtain ⟨d, hd, hcd⟩ := h₁.fwd a c hc
    obtain ⟨e, he, hde⟩ := h₂.fwd a d hd
    exact ⟨e, he, hcd.trans hde⟩
  bwd a e he := by
    obtain ⟨d, hd, hde⟩ := h₂.bwd a e he
    obtain ⟨c, hc, hcd⟩ := h₁.bwd a d hd
    exact ⟨c, hc, hcd.trans hde⟩

/-- Rewriting one connection of `t` in place. -/
theorem put {a : ConnPtr} {c d : MgConnection} (hc : n.heap a = some c) (ht : c.mgr = t)
    (hcd : SameWiring c d) : Touch t n (n.put a d) where
  frame := NetFrame.put hc ht (hcd.mgr.trans ht)
  mgrs := rfl
  fwd b e he := by
    by_cases hba : b = a
    · subst hba
      obtain rfl : c = e := Option.some.inj (hc.symm.trans he)
      exact ⟨d, Heap.put_self _ _ _, hcd⟩
    · exact ⟨e, (Heap.put_ne _ _ hba).trans he, SameWiring.refl e⟩
  bwd b e he := by
    rcases Heap.mem_put.mp he with ⟨hba, hed⟩ | ⟨_, hb⟩
    · subst hba hed
      exact ⟨c, hc, hcd⟩
    · exact ⟨e, hb, SameWiring.refl e⟩

/-- Nothing is freed. -/
theorem live (h : Touch t n n') {u : MgrPtr} {a : ConnPtr} (ha : Live n u a) : Live n' u a := by
  obtain ⟨c, hc, hm⟩ := ha
  obtain ⟨d, hd, hcd⟩ := h.fwd a c hc
  exact ⟨d, hd, hcd.mgr.trans hm⟩

/-- The wiring survives. -/
theorem wired (h : Touch t n n') (hw : Wired n t lc x) : Wired n' t lc x := by
  constructor
  · intro a d hd hm
    obtain ⟨c, hc, hcd⟩ := h.bwd a d hd
    rcases hw.role a c hc (hcd.mgr.symm.trans hm) with hl | ha | hf
    · exact Or.inl ⟨hl.addr, hcd.listener.trans hl.listener, hcd.handler.trans hl.handler,
        hcd.listening.trans hl.listening, hcd.userData.trans hl.userData⟩
    · exact Or.inr (Or.inl ⟨hcd.listener.trans ha.listener, hcd.handler.trans ha.handler,
        hcd.listening.trans ha.listening, hcd.userData.trans ha.userData⟩)
    · refine Or.inr (Or.inr ⟨hcd.listener.trans hf.listener, hcd.handler.trans hf.handler,
        hcd.listening.trans hf.listening, (hcd.protoHandler hf.handler).trans hf.protoHandler,
        hcd.cgiNc.trans hf.cgiNc, ?_⟩)
      intro v hv
      obtain ⟨b, cb, hvb, hb, hmb, hg⟩ := hf.client v (hcd.userData.symm.trans hv)
      obtain ⟨db, hdb, hbd⟩ := h.fwd b cb hb
      exact ⟨b, db, hvb, hdb, (hbd.mgr.trans hmb).trans hcd.mgr.symm, hbd.cgiNc.trans hg⟩
  · intro a d g hd hm hg
    obtain ⟨c, hc, hcd⟩ := h.bwd a d hd
    obtain ⟨cg, hcg, hmg, hhg, hug⟩ :=
      hw.link a c g hc (hcd.mgr.symm.trans hm) (hcd.cgiNc.symm.trans hg)
    obtain ⟨dg, hdg, hcdg⟩ := h.fwd g cg hcg
    refine ⟨dg, hdg, hcdg.mgr.trans hmg, hcdg.handler.trans hhg, ?_⟩
    rw [hcdg.userData]
    exact hug

end Touch

end SimplestWeb.Mongoose
