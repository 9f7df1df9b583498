import SimplestWeb.Mongoose.Steady

/-!
# The event loop does not fail

Beside `PcOk` the loop keeps `PcSafe`: the listener is alive and last in the
list — new connections are put in front — so it is handled last, and
`mg_mgr_free` closes it after every connection it has accepted. The polling
loops never close it at all: its flags stay what they were. And a position
that delivers a request has a connection with proto data.

`mgStep_safe` is the outcome of one step: under both invariants it returns and
keeps `PcSafe`, except where an allocation is not checked or `mg_serve_http`
goes wrong (`MgPc.Fails`), and there it does fail (`mgStep_fails`).
-/

namespace SimplestWeb.Mongoose

open SimplestWeb.Lib (Heap Outcome)

variable {kind : LoopKind} {n n' : Net} {t : MgrPtr} {lc a nc : ConnPtr} {x tmp : Option ConnPtr}
  {c d : MgConnection} {closing : Bool} {pc pc' : MgPc}

/-! ## The listener -/

/-- The listener `lc`. While it is polled, it has the flags it was opened with. -/
structure OpenConn (kind : LoopKind) (t : MgrPtr) (c : MgConnection) : Prop where
  mgr : c.mgr = t
  listening : c.flags.listening = true
  protoHandler : c.protoHandler ≠ some .mgWsHandler
  recvMbuf : c.recvMbuf = []
  flags : kind = .poll → c.flags = { listening := true }

/-- The listener is alive, and last in the list. -/
structure ListenerLast (kind : LoopKind) (n : Net) (t : MgrPtr) (lc : ConnPtr) : Prop where
  conn : ∃ c, n.heap lc = some c ∧ OpenConn kind t c
  last : ∃ l, n.active t = l ++ [lc]

/-- The listener is still there, and still the last in the list. -/
theorem Steady.listenerLast (h : Steady t n n') (L : ListenerLast kind n t lc) :
    ListenerLast kind n' t lc where
  conn := by
    obtain ⟨c, hc, ho⟩ := L.conn
    obtain ⟨d, hd, hcd⟩ := h.conn lc c hc
    rw [hcd.listening ho.listening] at hd
    exact ⟨c, hd, ho⟩
  last := by
    obtain ⟨l, hl⟩ := L.last
    obtain ⟨l', hl'⟩ := h.active
    exact ⟨l' ++ l, by rw [hl', hl, List.append_assoc]⟩

/-- Another connection is rewritten. -/
theorem ListenerLast.put (L : ListenerLast kind n t lc) (hne : nc ≠ lc) :
    ListenerLast kind (n.put nc d) t lc where
  conn := by
    obtain ⟨c, hc, ho⟩ := L.conn
    exact ⟨c, (Heap.put_ne _ _ hne.symm).trans hc, ho⟩
  last := L.last

/-- The block at `lc` is the listener's. -/
theorem ListenerLast.role (L : ListenerLast kind n t lc) (hw : Wired n t lc x)
    (hc : n.heap lc = some c) : ListenerConn t lc lc c ∧ OpenConn kind t c := by
  obtain ⟨c', hc', ho⟩ := L.conn
  obtain rfl : c = c' := Option.some.inj (hc.symm.trans hc')
  refine ⟨?_, ho⟩
  rcases hw.role lc c hc ho.mgr with hl | ha | hf
  · exact hl
  · have := ho.listening
    rw [ha.listening] at this
    cases this
  · have := ho.listening
    rw [hf.listening] at this
    cases this

/-- Every other connection is a plain one. -/
theorem Wired.plain (hw : Wired n t lc x) (hc : n.heap a = some c) (ht : c.mgr = t) (hne : a ≠ lc) :
    c.flags.listening = false := by
  rcases hw.role a c hc ht with hl | ha | hf
  · exact absurd hl.addr hne
  · exact ha.listening
  · exact hf.listening

/-- An accepted connection is not the listener. -/
theorem ListenerLast.ne (L : ListenerLast kind n t lc) (hw : Wired n t lc x)
    (hc : n.heap nc = some c) (hl : c.listener ≠ none) : nc ≠ lc := by
  rintro rfl
  exact hl (L.role hw hc).1.listener

/-- A listener has no proto data. -/
theorem Tidy.listener (hT : Tidy n t x) (hc : n.heap a = some c) (ht : c.mgr = t)
    (hl : c.flags.listening = true) : c.protoData = none := by
  by_contra hne
  rw [hT.plain a c hc ht hne] at hl
  cases hl

/-- The successor of a connection in a list that ends in `lc`. -/
theorem nextOf_eq_none {l : List ConnPtr} (hnd : (l ++ [lc]).Nodup) (hmem : nc ∈ l ++ [lc]) :
    nextOf nc (l ++ [lc]) = none ↔ nc = lc := by
  induction l with
  | nil =>
    have hnc : nc = lc := by simpa using hmem
    simp [nextOf, hnc]
  | cons b l ih =>
    rw [List.cons_append] at hnd hmem ⊢
    obtain ⟨hb, hnd⟩ := List.nodup_cons.mp hnd
    unfold nextOf
    by_cases hbn : b = nc
    · subst hbn
      rw [if_pos rfl]
      refine iff_of_false (by simp) ?_
      rintro rfl
      exact hb (by simp)
    · rw [if_neg hbn]
      refine ih hnd ?_
      rcases List.mem_cons.mp hmem with h | h
      · exact absurd h.symm hbn
      · exact h

/-! ## The invariant -/

/-- The connection has proto data. -/
def HasProtoData (n : Net) (nc : ConnPtr) : Prop := ∃ c, n.heap nc = some c ∧ c.protoData ≠ none

/-- `nc` is being handled: it is the listener exactly when nothing follows. -/
structure Turn (kind : LoopKind) (n : Net) (t : MgrPtr) (lc nc : ConnPtr) (tmp x : Option ConnPtr) :
    Prop where
  last : ListenerLast kind n t lc
  tidy : Tidy n t x
  next : tmp = none ↔ nc = lc

/-- Who is being closed: in a polling loop not the listener. Outside
`mg_close_conn` (`closing = false`) the loop is a polling loop. -/
def Way (kind : LoopKind) (lc nc : ConnPtr) : Bool → Prop
  | false => kind = .poll
  | true => kind = .poll → nc ≠ lc

/-- `nc` has been unlinked. If it was the listener, nothing follows. -/
structure Leaving (kind : LoopKind) (n : Net) (t : MgrPtr) (lc nc : ConnPtr)
    (tmp : Option ConnPtr) :
    Prop where
  last : nc ≠ lc → ListenerLast kind n t lc
  tidy : Tidy n t none
  next : tmp = none ↔ nc = lc
  way : Way kind lc nc true

/-- What keeps thread `t` from failing at a position of the loop. -/
def PcSafe (kind : LoopKind) (n : Net) (t : MgrPtr) (lc : ConnPtr) : MgPc → Prop
  | .visit none => Tidy n t none ∧ (kind = .poll → ListenerLast kind n t lc)
  | .visit (some _) => Tidy n t none ∧ ListenerLast kind n t lc
  | .read nc tmp | .write nc tmp => Turn kind n t lc nc tmp none ∧ kind = .poll
  | .recv nc tmp closing => Turn kind n t lc nc tmp none ∧ Way kind lc nc closing
  | .again nc tmp closing =>
    Turn kind n t lc nc tmp (some nc) ∧ Way kind lc nc closing ∧ IsAccepted n nc
  | .request (.recv closing) nc tmp _ | .served nc tmp closing _ =>
    Turn kind n t lc nc tmp none ∧ Way kind lc nc closing ∧ IsAccepted n nc ∧ HasProtoData n nc
  | .close nc tmp => Turn kind n t lc nc tmp none ∧ Way kind lc nc true
  | .request .close nc tmp _ => Leaving kind n t lc nc tmp ∧ nc ≠ lc ∧ HasProtoData n nc
  | .destroy nc tmp => Leaving kind n t lc nc tmp

/-- What a steady function leaves of a connection's turn. -/
theorem Turn.steady (T : Turn kind n t lc nc tmp x) (h : Steady t n n') :
    Turn kind n' t lc nc tmp x :=
  ⟨h.listenerLast T.last, h.tidy T.tidy, T.next⟩

/-- … and of one that is about to go. -/
theorem Leaving.steady (T : Leaving kind n t lc nc tmp) (h : Steady t n n') :
    Leaving kind n' t lc nc tmp :=
  ⟨fun hne => h.listenerLast (T.last hne), h.tidy T.tidy, T.next, T.way⟩

/-- Proto data is not taken away. -/
theorem HasProtoData.steady (hp : HasProtoData n nc) (h : Steady t n n') : HasProtoData n' nc := by
  obtain ⟨c, hc, hpd⟩ := hp
  obtain ⟨d, hd, hcd⟩ := h.conn nc c hc
  exact ⟨d, hd, hcd.protoData hpd⟩

theorem IsAccepted.steady (ha : IsAccepted n nc) (h : Steady t n n') : IsAccepted n' nc := by
  obtain ⟨c, hc, hl⟩ := ha
  obtain ⟨d, hd, hcd⟩ := h.conn nc c hc
  exact ⟨d, hd, by rw [hcd.listener]; exact hl⟩

/-- The loop goes on. -/
theorem visit_safe (hT : Tidy n t none) (hL : ListenerLast kind n t lc) :
    PcSafe kind n t lc (.visit tmp) := by
  cases tmp with
  | none => exact ⟨hT, fun _ => hL⟩
  | some b => exact ⟨hT, hL⟩

/-- The handled connection is rewritten; whatever was in its buffer, it is in
order now. -/
theorem Turn.put (T : Turn kind n t lc nc tmp (some nc)) (hne : nc ≠ lc)
    (hd : x ≠ some nc → NoMessage d) (hp : d.flags.listening = false) :
    Turn kind (n.put nc d) t lc nc tmp x :=
  ⟨T.last.put hne, T.tidy.put hd fun _ => hp, T.next⟩

theorem Turn.mono (T : Turn kind n t lc nc tmp none) (x : Option ConnPtr) :
    Turn kind n t lc nc tmp x :=
  ⟨T.last, T.tidy.mono x, T.next⟩

/-! ## The positions -/

/-- How the step at a position fails: the proto data of a request cannot be
allocated, or it goes wrong while the request is served. -/
def MgPc.Fails (n : Net) (env : Env) (f : Fault) : MgPc → Prop
  | .again nc _ _ => f = .nullDeref ∧ env.callocOk = false ∧
    ∃ c len hm, n.heap nc = some c ∧ mgParseHttp c.recvMbuf c.listener.isSome = .complete len hm
  | .request _ _ _ _ => env.fx.Fails n f
  | _ => False

/-- The state a function of the loop returns is safe. -/
abbrev SafeResult (kind : LoopKind) (t : MgrPtr) (lc : ConnPtr) (r : MgPc × Net) : Prop :=
  PcSafe kind r.2 t lc r.1

section

variable {E : Fault → Prop} {env : Env}

/-- `mg_close_conn` has no pointer to follow but `nc`. -/
theorem mgCloseConn_safe (H : Handling n t lc nc tmp) (T : Turn kind n t lc nc tmp none)
    (hway : Way kind lc nc true) : Outcome E (SafeResult kind t lc) (mgCloseConn n nc tmp) := by
  obtain ⟨c, hc, -⟩ := H.live
  unfold mgCloseConn
  rw [Net.deref_bind hc]
  show PcSafe kind n t lc _
  split
  next => exact ⟨T, hway⟩
  next => exact ⟨T, hway⟩

/-- `flags |= MG_F_CLOSE_IMMEDIATELY`, then `mg_close_conn`. -/
theorem setClose_safe (H : Handling n t lc nc tmp) (T : Turn kind n t lc nc tmp none)
    (hway : Way kind lc nc true) :
    Outcome E (SafeResult kind t lc) (do
      let n ← n.modify nc MgConnection.setCloseImmediately
      mgCloseConn n nc tmp) := by
  obtain ⟨c, hc, ht⟩ := H.live
  have hto := H.put hc (SameWiring.setCloseImmediately c)
  rw [Net.modify_bind hc]
  refine mgCloseConn_safe (H.touch hto) ?_ hway
  have hmsg : none ≠ some nc → NoMessage c.setCloseImmediately := fun hx =>
    T.tidy.message nc c hc ht hx
  by_cases hne : nc = lc
  · -- the listener is being closed by `mg_mgr_free`
    subst hne
    have hfree : kind ≠ .poll := fun hk => hway hk rfl
    obtain ⟨-, ho⟩ := T.last.role H.wired hc
    refine ⟨⟨⟨_, Heap.put_self _ _ _, ho.mgr, ho.listening, ho.protoHandler, ho.recvMbuf, ?_⟩,
      T.last.last⟩,
      (T.tidy.mono _).put hmsg (T.tidy.plain nc c hc ht), T.next⟩
    intro hk
    exact absurd hk hfree
  · have hplain : c.flags.listening = false := H.wired.plain hc ht hne
    exact (T.mono (some nc)).put hne hmsg hplain

/-- Polling a connection does not fail. -/
theorem mgIfPoll_safe (H : Handling n t lc nc tmp) (T : Turn .poll n t lc nc tmp none) :
    Outcome E (SafeResult .poll t lc) (mgIfPoll n nc tmp env) := by
  obtain ⟨c, hc, ht⟩ := H.live
  unfold mgIfPoll
  rw [Net.deref_bind hc]
  by_cases hne : nc = lc
  · subst hne
    obtain ⟨hl, ho⟩ := T.last.role H.wired hc
    rw [ho.flags rfl]
    refine Outcome.bind (P := Steady t n) (mgCall_listener hc (T.tidy.listener hc ht ho.listening) ho.protoHandler
      hl.handler) ?_
    intro n₁ _ hs
    exact ⟨T.steady hs, rfl⟩
  · have hway : Way .poll lc nc true := fun _ => hne
    split
    next => exact mgCloseConn_safe H T hway
    next =>
      split
      next => exact setClose_safe H T hway
      next =>
        split
        next => exact mgCloseConn_safe H T hway
        next =>
          refine Outcome.bind (mgCall_steady T.tidy H.wired hc ht (H.wired.plain hc ht hne)) ?_
          intro n₁ _ hs
          exact ⟨T.steady hs, rfl⟩

/-- The turn of a connection begins. -/
theorem mgVisit_safe (hpc : PcOk n t lc (.visit (some nc)))
    (hs : PcSafe kind n t lc (.visit (some nc)))
    (hm : (n.mgrs t).isSome) : Outcome E (SafeResult kind t lc) (mgVisit kind n t nc env) := by
  obtain ⟨hw, hl, hmem⟩ := hpc
  obtain ⟨hT, hL⟩ := hs
  obtain ⟨m, hm⟩ := Option.isSome_iff_exists.mp hm
  have hact : n.active t = m.activeConnections := by
    unfold Net.active
    rw [hm]
  have H : Handling n t lc nc (nextOf nc m.activeConnections) := by
    refine ⟨hw, hl, hmem nc rfl, ?_⟩
    intro b hb
    rw [hact]
    exact nextOf_mem (hact ▸ hl.nodup) hb
  have T : Turn kind n t lc nc (nextOf nc m.activeConnections) none := by
    refine ⟨hL, hT, ?_⟩
    obtain ⟨l, hlast⟩ := hL.last
    have hnd := hl.nodup
    have hin := H.mem
    rw [hact] at hlast hnd hin
    rw [hlast] at hnd hin ⊢
    exact nextOf_eq_none hnd hin
  unfold mgVisit
  rw [Net.derefMgr_eq_ok.mpr hm]
  cases kind with
  | poll => exact mgIfPoll_safe H T
  | free => exact setClose_safe H T (fun hk => by cases hk)

/-- Accepting may fail for want of memory, and is then given up. -/
theorem mgMgrHandleConn_safe (H : Handling n t lc nc tmp) (T : Turn .poll n t lc nc tmp none)
    (hm : (n.mgrs t).isSome) :
    Outcome E (fun r => PcSafe .poll r.2.1 t lc r.1) (mgMgrHandleConn n nc tmp env) := by
  obtain ⟨c, hc, ht⟩ := H.live
  unfold mgMgrHandleConn
  split
  next => exact ⟨T, rfl⟩
  next =>
    rw [Net.deref_bind hc]
    split
    next =>
      refine Outcome.bind (mgAcceptConn_steady hc ht hm) ?_
      intro r _ hs
      exact ⟨T.steady hs, rfl⟩
    next => exact ⟨T, rfl⟩

/-- Where `mg_do_recv` returns to. -/
theorem afterRecv_safe (T : Turn kind n t lc nc tmp none) (hway : Way kind lc nc closing) :
    PcSafe kind n t lc (afterRecv nc tmp closing) := by
  cases closing with
  | false => exact ⟨T, hway⟩
  | true => exact ⟨T, hway⟩

/-- A flag is raised on a plain connection. -/
theorem Turn.flag (T : Turn kind n t lc nc tmp none) (hc : n.heap nc = some c)
    (hl : c.flags.listening = false) (hcd : SameWiring c d) (hp : d.protoHandler = c.protoHandler)
    (hpd : d.protoData = c.protoData) (hb : d.recvMbuf = c.recvMbuf) :
    Turn kind (n.put nc d) t lc nc tmp none :=
  T.steady (Steady.put hc (SteadyConn.of_buffer hl hcd.toSameRole hp hpd hb))

/-- Bytes have arrived. -/
theorem received_safe (H : Handling n t lc nc tmp) (T : Turn kind n t lc nc tmp none)
    (hway : Way kind lc nc closing) (hc : n.heap nc = some c) (hne : nc ≠ lc) (bs : Bytes) :
    Outcome E (SafeResult kind t lc) (do
      let n ← mgCall (n.put nc { c with recvMbuf := c.recvMbuf ++ bs }) nc .recv env
      return (if c.protoHandler = some .mgHttpHandler then .again nc tmp closing
        else .recv nc tmp closing, n)) := by
  have ht := H.live.mgr hc
  have hl := H.wired.plain hc ht hne
  have hsame : SameWiring c { c with recvMbuf := c.recvMbuf ++ bs } :=
    ⟨⟨rfl, rfl, rfl, rfl, rfl, fun _ => rfl⟩, rfl⟩
  have H₁ := H.touch (H.put hc hsame)
  have hcall : ∀ {y}, Tidy (n.put nc { c with recvMbuf := c.recvMbuf ++ bs }) t y →
      Outcome E (Steady t (n.put nc { c with recvMbuf := c.recvMbuf ++ bs }))
        (mgCall (n.put nc { c with recvMbuf := c.recvMbuf ++ bs }) nc .recv env) := fun hT =>
    mgCall_steady hT H₁.wired (Heap.put_self _ _ _) ht hl
  by_cases hp : c.protoHandler = some .mgHttpHandler
  · -- `mg_http_handler` looks at the buffer next
    have T₁ : Turn kind (n.put nc { c with recvMbuf := c.recvMbuf ++ bs }) t lc nc tmp (some nc) :=
      (T.mono (some nc)).put hne (fun hx => absurd rfl hx) hl
    have hacc : IsAccepted (n.put nc { c with recvMbuf := c.recvMbuf ++ bs }) nc := by
      refine ⟨_, Heap.put_self _ _ _, ?_⟩
      rcases H.wired.role nc c hc ht with hlc | ha | hf
      · exact absurd hlc.addr hne
      · show c.listener ≠ none
        rw [ha.listener]
        exact Option.some_ne_none lc
      · rw [hf.protoHandler] at hp
        cases hp
    refine Outcome.bind (hcall T₁.tidy) ?_
    intro n₂ _ hs
    rw [if_pos hp]
    exact ⟨T₁.steady hs, hway, hacc.steady hs⟩
  · have T₁ : Turn kind (n.put nc { c with recvMbuf := c.recvMbuf ++ bs }) t lc nc tmp none :=
      T.steady (Steady.put hc (SteadyConn.of_proto hl hsame.toSameRole hp id))
    refine Outcome.bind (hcall T₁.tidy) ?_
    intro n₂ _ hs
    rw [if_neg hp]
    exact ⟨T₁.steady hs, hway⟩

/-- A piece is read; what it completes is looked at next. -/
theorem mgDoRecv_safe (H : Handling n t lc nc tmp) (T : Turn kind n t lc nc tmp none)
    (hway : Way kind lc nc closing) :
    Outcome E (SafeResult kind t lc) (mgDoRecv n nc tmp closing env) := by
  obtain ⟨c, hc, ht⟩ := H.live
  unfold mgDoRecv
  rw [Net.deref_bind hc]
  split
  next => exact afterRecv_safe T hway
  next hflags =>
    have hl : c.flags.listening = false := by
      cases hl : c.flags.listening with
      | false => rfl
      | true => simp [hl] at hflags
    have hne : nc ≠ lc := by
      rintro rfl
      rw [(T.last.role H.wired hc).2.listening] at hl
      cases hl
    split
    next =>
      split
      next =>
        -- the buffer is full: `mg_close_conn` returns without closing
        have T₁ := T.flag hc hl (SameWiring.setRecvAndClose c) rfl rfl rfl
        exact visit_safe T₁.tidy T₁.last
      next hclosing =>
        have hfalse : closing = false := by simpa using hclosing
        subst hfalse
        exact ⟨T, hway⟩
    next =>
      split
      next => exact afterRecv_safe T hway
      next =>
        exact afterRecv_safe (T.flag hc hl (SameWiring.setCloseImmediately c) rfl rfl rfl) hway
      next =>
        exact afterRecv_safe (T.flag hc hl (SameWiring.setSendAndClose c) rfl rfl rfl) hway
      next b bs _ => exact received_safe H T hway hc hne (b :: bs)

/-- The endpoints are looked up in the listener, which is alive. -/
theorem mgHttpGetEndpointHandler_safe (L : ListenerLast kind n t lc) (hl : c.listener = some lc) :
    Outcome E (fun _ => True) (mgHttpGetEndpointHandler n c.listener) := by
  obtain ⟨l, hlc, -⟩ := L.conn
  rw [hl, mgHttpGetEndpointHandler, Net.deref_bind hlc]
  exact trivial

@[simp] theorem upgrade_protoData {k : Nat} {reply : Bool} :
    (c.upgrade k reply env).protoData = c.protoData := by
  unfold MgConnection.upgrade
  dsimp only
  split
  next => exact recvRemove_protoData
  next =>
    rw [mgWsHandler_protoData]
    split
    next => exact recvRemove_protoData
    next => exact recvRemove_protoData

/-- What `mg_http_handler` does with a message: the connection has proto data
by now, so nothing depends on its buffer any more. -/
theorem mgHttpDispatch_safe (T : Turn kind n t lc nc tmp (some nc)) (hway : Way kind lc nc closing)
    (hne : nc ≠ lc) (hl : c.listener = some lc) (hh : c.handler = .evHandler)
    (hplain : c.flags.listening = false) (hpd : c.protoData ≠ none) {rcvd reqLen : Nat}
    {hm : HttpMessage} :
    Outcome E (SafeResult kind t lc) (mgHttpDispatch n nc tmp closing c rcvd reqLen hm env) := by
  have hmsg : ∀ {d : MgConnection}, d.protoData ≠ none → NoMessage d := fun hd _ hnone =>
    absurd hnone hd
  have hsome : c.listener.isSome = true := by
    rw [hl]
    rfl
  have done : ∀ {d}, SameWiring c d → d.protoData ≠ none →
      Turn kind (n.put nc d) t lc nc tmp none := fun hcd hd =>
    T.put hne (fun _ => hmsg hd) (hcd.listening.trans hplain)
  unfold mgHttpDispatch
  split
  next hnone =>
    rw [hl] at hnone
    simp at hnone
  next =>
    split
    next =>
      refine Outcome.bind (mgHttpGetEndpointHandler_safe T.last hl) ?_
      intro _ _ _
      exact ⟨done (SameWiring.upgrade hh _ _ _) (by rw [upgrade_protoData]; exact hpd), hway⟩
    next =>
      split
      next =>
        split
        next => exact ⟨done (SameWiring.setCloseImmediately c) hpd, hway⟩
        next => exact ⟨done (SameWiring.refl c) hpd, hway⟩
      next =>
        have hlne : c.listener ≠ none := Option.isSome_iff_ne_none.mp hsome
        exact ⟨done (SameWiring.refl c) hpd, hway, ⟨c, Heap.put_self _ _ _, hlne⟩,
          c, Heap.put_self _ _ _, hpd⟩

/-- A message that is found has proto data. That allocation alone may fail. -/
theorem mgHttpHandler_safe (hpc : PcOk n t lc (.again nc tmp closing))
    (hs : PcSafe kind n t lc (.again nc tmp closing)) :
    Outcome (fun f => MgPc.Fails n env f (.again nc tmp closing)) (SafeResult kind t lc)
      (mgHttpHandler n nc tmp closing env) := by
  obtain ⟨H, -⟩ := hpc
  obtain ⟨T, hway, c₀, hc₀, hacc⟩ := hs
  obtain ⟨c, hc, ht⟩ := H.live
  obtain rfl : c = c₀ := Option.some.inj (hc.symm.trans hc₀)
  have hne := T.last.ne H.wired hc hacc
  have hac := H.wired.accepted hc ht hacc
  unfold mgHttpHandler
  rw [Net.deref_bind hc]
  -- the buffer has been looked at: it holds no complete message
  have hnot : ∀ {d}, SameWiring c d → d.recvMbuf = c.recvMbuf →
      (∀ len hm, mgParseHttp c.recvMbuf c.listener.isSome ≠ .complete len hm) →
      Turn kind (n.put nc d) t lc nc tmp none := by
    intro d hd hb hparse
    refine T.put hne (fun _ => ?_) (hd.listening.trans hac.listening)
    intro _ _
    rw [hb, hd.listener]
    exact hparse
  split
  next hparse =>
    refine ⟨hnot (SameWiring.setCloseImmediately c) rfl ?_, hway⟩
    intro len hm
    rw [hparse]
    exact fun h => by cases h
  next hparse =>
    refine ⟨?_, hway⟩
    have hnone : ∀ len hm, mgParseHttp c.recvMbuf c.listener.isSome ≠ .complete len hm := by
      intro len hm
      rw [hparse]
      exact fun h => by cases h
    split
    next => exact hnot (SameWiring.setCloseImmediately c) rfl hnone
    next => exact hnot (SameWiring.refl c) rfl hnone
  next reqLen hm hparse =>
    have hcreate : Outcome (fun f => MgPc.Fails n env f (.again nc tmp closing)) _
        (mgHttpCreateProtoData n nc env.callocOk) :=
      (mgHttpCreateProtoData_steady H.wired hc ht hac.listening).mono
        (fun _ he => ⟨he.1, he.2, c, reqLen, hm, hc, hparse⟩) fun _ h => h
    refine Outcome.bind
      (hcreate.and_ok fun n₁ h₁ => mgHttpCreateProtoData_spec H.wired hc ht h₁) ?_
    intro n₁ _ hcreate
    obtain ⟨⟨hs, d, hd, hpd⟩, hcl⟩ := hcreate
    obtain ⟨d', hd', hcd, -⟩ := hcl.self
    obtain rfl : d = d' := Option.some.inj (hd.symm.trans hd')
    rw [Net.deref_bind hd]
    have hrec := SameWiring.received d (dechunk d.recvMbuf reqLen hm).1
    refine mgHttpDispatch_safe (T.steady hs) hway hne
      (hrec.listener.trans (hcd.listener.trans hac.listener))
      (hrec.handler.trans (hcd.handler.trans hac.handler))
      (hrec.listening.trans (hcd.listening.trans hac.listening)) ?_
    show Option.map _ d.protoData ≠ none
    rw [Ne, Option.map_eq_none_iff]
    exact hpd

/-- What the loop needs of the user's handler: on an accepted connection with
proto data it returns, unless serving the request goes wrong. -/
def UserSafe (user : UserHandler) (t : MgrPtr) (lc : ConnPtr) : Prop :=
  ∀ {n : Net} {nc : ConnPtr} {fx : ServeFx} {c : MgConnection}, n.heap nc = some c → c.mgr = t →
    AcceptedConn t lc c → c.protoData ≠ none → (n.mgrs t).isSome →
    Outcome (fx.Fails n) (Steady t n) (user n nc fx)

/-- Entering the user's handler. -/
theorem mgHttpCallEndpointHandler_safe {user : UserHandler} (hu : UserSafe user t lc)
    (hw : Wired n t lc x) (hlive : Live n t nc) (hacc : IsAccepted n nc) (hp : HasProtoData n nc)
    (L : ListenerLast kind n t lc) (hm : (n.mgrs t).isSome) {site : Site} {hmsg : HttpMessage} :
    Outcome (fun f => MgPc.Fails n env f (.request site nc tmp hmsg))
      (fun r => r.1 = afterRequest site nc tmp hmsg ∧ Steady t n r.2.1)
      (mgHttpCallEndpointHandler user n site nc tmp hmsg env) := by
  obtain ⟨c, hc, hct⟩ := hlive
  obtain ⟨c', hc', hl⟩ := hacc
  obtain rfl : c = c' := Option.some.inj (hc.symm.trans hc')
  obtain ⟨c', hc', hpd⟩ := hp
  obtain rfl : c = c' := Option.some.inj (hc.symm.trans hc')
  have hac := hw.accepted hc hct hl
  unfold mgHttpCallEndpointHandler
  rw [Net.deref_bind hc]
  refine Outcome.bind (mgHttpGetEndpointHandler_safe L hac.listener) ?_
  intro _ _ _
  rw [if_neg (by simpa using hpd), hac.handler]
  refine Outcome.bind (hu hc hct hac hpd hm) ?_
  intro n₁ _ hs
  exact ⟨rfl, hs⟩

/-- The delivery fails only as the user's handler does: the listener is alive, and there is
proto data. -/
theorem request_safe {user : UserHandler} (hu : UserSafe user t lc) {site : Site}
    {hmsg : HttpMessage} (hpc : PcOk n t lc (.request site nc tmp hmsg))
    (hs : PcSafe kind n t lc (.request site nc tmp hmsg)) (hm : (n.mgrs t).isSome) :
    Outcome (fun f => MgPc.Fails n env f (.request site nc tmp hmsg))
      (fun r => PcSafe kind r.2.1 t lc r.1) (mgHttpCallEndpointHandler user n site nc tmp hmsg env) := by
  cases site with
  | recv closing =>
    obtain ⟨H, hacc, -⟩ := hpc
    obtain ⟨T, hway, -, hp⟩ := hs
    refine (mgHttpCallEndpointHandler_safe hu H.wired H.live hacc hp T.last hm).mono
      (fun _ he => he) ?_
    intro r hr
    rw [hr.1]
    exact ⟨T.steady hr.2, hway, hacc.steady hr.2, hp.steady hr.2⟩
  | close =>
    obtain ⟨C, hacc, -⟩ := hpc
    obtain ⟨T, hne, hp⟩ := hs
    refine (mgHttpCallEndpointHandler_safe hu C.wired C.live hacc hp (T.last hne) hm).mono
      (fun _ he => he) ?_
    intro r hr
    rw [hr.1]
    exact T.steady hr.2

/-- The request is dropped; its proto data is there. -/
theorem mgHttpRequestDone_safe {hmsg : HttpMessage}
    (hpc : PcOk n t lc (.served nc tmp closing hmsg))
    (hs : PcSafe kind n t lc (.served nc tmp closing hmsg)) :
    Outcome E (SafeResult kind t lc) (mgHttpRequestDone n nc tmp closing hmsg) := by
  obtain ⟨H, -⟩ := hpc
  obtain ⟨T, hway, ⟨c', hc', hacc⟩, hp⟩ := hs
  obtain ⟨c, hc, hpd⟩ := hp
  obtain rfl : c = c' := Option.some.inj (hc.symm.trans hc')
  have ht := H.live.mgr hc
  have hl := H.wired.plain hc ht (T.last.ne H.wired hc hacc)
  obtain ⟨pd, hpd'⟩ := Option.ne_none_iff_exists'.mp hpd
  have hrem := SameWiring.recvRemove c hmsg.messageLen
  have hsteady : SteadyConn c { c.recvRemove hmsg.messageLen with
      protoData := some { pd with rcvd := (pd.rcvd + 2 ^ 64 - hmsg.messageLen) % 2 ^ 64 } } :=
    SteadyConn.of_protoData hl ⟨hrem.mgr, hrem.listener, hrem.handler, hrem.listening,
      hrem.userData, hrem.protoHandler⟩ (Option.some_ne_none _)
  have hs := Steady.put (t := t) hc hsteady
  unfold mgHttpRequestDone
  rw [Net.deref_bind hc]
  rw [hpd']
  show PcSafe kind (n.put nc _) t lc _
  split
  next => exact ⟨(T.steady hs).mono _, hway, IsAccepted.steady ⟨c, hc, hacc⟩ hs⟩
  next => exact ⟨T.steady hs, hway⟩

/-- Sending does not fail. -/
theorem mgIfCanSendCb_safe (H : Handling n t lc nc tmp) (T : Turn kind n t lc nc tmp none) :
    Outcome E (SafeResult kind t lc) (mgIfCanSendCb n nc tmp env) := by
  obtain ⟨c, hc, ht⟩ := H.live
  unfold mgIfCanSendCb
  rw [Net.deref_bind hc]
  split
  next => exact visit_safe T.tidy T.last
  next hflags =>
    have hl : c.flags.listening = false := by
      cases hl : c.flags.listening with
      | false => rfl
      | true => simp [hl] at hflags
    -- the buffer or a flag changes, then `MG_EV_SEND` is called
    have hsend : ∀ {d}, SameWiring c d → d.protoHandler = c.protoHandler →
        d.protoData = c.protoData → d.recvMbuf = c.recvMbuf →
        Outcome E (SafeResult kind t lc) (do
          let n ← mgCall (n.put nc d) nc .send env
          return (.visit tmp, n)) := by
      intro d hd hp hpd hb
      have T₁ := T.flag hc hl hd hp hpd hb
      refine Outcome.bind (mgCall_steady T₁.tidy (H.touch (H.put hc hd)).wired
        (Heap.put_self _ _ _) (hd.mgr.trans ht) (hd.listening.trans hl)) ?_
      intro n₁ _ hs
      exact visit_safe (T₁.steady hs).tidy (T₁.steady hs).last
    split
    next => exact hsend (SameWiring.setCloseImmediately c) rfl rfl rfl
    next => exact visit_safe T.tidy T.last
    next => exact hsend ⟨⟨rfl, rfl, rfl, rfl, rfl, fun _ => rfl⟩, rfl⟩ rfl rfl rfl

/-! ### Closing -/

theorem Tidy.of_heap (h : Tidy n t x) (hheap : n'.heap = n.heap) : Tidy n' t x := by
  constructor
  · rw [hheap]
    exact h.message
  · rw [hheap]
    exact h.plain

/-- A connection is freed. -/
theorem Tidy.free (h : Tidy n t x) : Tidy { n with heap := n.heap.free nc } t x where
  message a c hc := h.message a c (Heap.mem_free.mp hc).2
  plain a c hc := h.plain a c (Heap.mem_free.mp hc).2

/-- The listener stays behind when another connection is unlinked. -/
theorem ListenerLast.remove (L : ListenerLast kind n t lc) (hne : nc ≠ lc)
    (hheap : n'.heap = n.heap) (hact : n'.active t = (n.active t).erase nc) :
    ListenerLast kind n' t lc where
  conn := by
    rw [hheap]
    exact L.conn
  last := by
    obtain ⟨l, hl⟩ := L.last
    rw [hact, hl]
    by_cases hmem : nc ∈ l
    · exact ⟨l.erase nc, List.erase_append_left _ hmem⟩
    · refine ⟨l, ?_⟩
      rw [List.erase_append_right _ hmem, List.erase_of_not_mem]
      rw [List.mem_singleton]
      exact hne

/-- … and the listener stays, unless it was that. -/
theorem ListenerLast.free (L : ListenerLast kind n t lc) (hne : nc ≠ lc) :
    ListenerLast kind { n with heap := n.heap.free nc } t lc where
  conn := by
    obtain ⟨c, hc, ho⟩ := L.conn
    exact ⟨c, (Heap.free_ne _ hne.symm).trans hc, ho⟩
  last := L.last

/-- Unlinking needs the manager, which is alive. -/
theorem mgRemoveConn_outcome (hc : n.heap nc = some c) (ht : c.mgr = t) (hm : (n.mgrs t).isSome) :
    Outcome E (fun n' => n'.heap = n.heap ∧ n'.active t = (n.active t).erase nc)
      (mgRemoveConn n nc) := by
  have hok : Outcome E (fun _ => True) (mgRemoveConn n nc) := by
    obtain ⟨m, hm⟩ := Option.isSome_iff_exists.mp hm
    unfold mgRemoveConn
    rw [hc]
    dsimp only
    rw [ht, hm]
    exact trivial
  refine (hok.and_ok fun n' h => ?_).mono (fun _ he => he) fun _ h => h.2
  obtain ⟨hheap, hact, -⟩ := mgRemoveConn_spec hc ht h
  exact ⟨hheap, hact⟩

/-- The `MG_EV_CLOSE` callback. -/
theorem mgCloseConnCb_safe (H : Handling n t lc nc tmp) (T : Turn kind n t lc nc tmp none)
    (hway : Way kind lc nc true) (hm : (n.mgrs t).isSome) :
    Outcome E (SafeResult kind t lc) (mgCloseConnCb n nc tmp env) := by
  obtain ⟨c, hc, ht⟩ := H.live
  have H₁ := H.touch (H.put hc (SameWiring.closeSock c))
  unfold mgCloseConnCb
  rw [Net.modify_bind hc]
  refine Outcome.bind ((mgRemoveConn_outcome (n := n.put nc c.closeSock) (Heap.put_self _ _ _)
    ht hm).and_ok
    fun n₂ h₂ => H₁.remove h₂) ?_
  intro n₂ _ hremove
  obtain ⟨⟨hheap, hact⟩, C, hw, -⟩ := hremove
  have hc₂ : n₂.heap nc = some c.closeSock := by
    rw [hheap]
    exact Heap.put_self _ _ _
  -- closing the socket changes nothing that `NoMessage` looks at
  have hmsg : NoMessage c.closeSock :=
    T.tidy.message nc c hc ht (Option.some_ne_none nc).symm
  have hleave : Leaving kind n₂ t lc nc tmp := by
    refine ⟨fun hne => (T.last.put hne).remove hne hheap hact, ?_, T.next, hway⟩
    exact ((T.tidy.mono _).put (fun _ => hmsg) (T.tidy.plain nc c hc ht)).of_heap hheap
  rw [Net.deref_bind hc₂]
  split
  next hp =>
    refine Outcome.bind (unlinkCgi_steady C.wired hc₂ ht) ?_
    intro n₃ _ hs
    split
    next reqLen hm' hparse =>
      show PcSafe kind n₃ t lc _
      split
      next hl =>
        have hne : nc ≠ lc := T.last.ne H.wired hc (Option.isSome_iff_ne_none.mp hl)
        refine ⟨hleave.steady hs, hne, HasProtoData.steady ⟨_, hc₂, ?_⟩ hs⟩
        intro hnone
        exact hmsg hp hnone reqLen hm' hparse
      next => exact hleave.steady hs
    next => exact hleave.steady hs
  next => exact hleave
  next =>
    split
    next => exact hleave
    next hh =>
      refine Outcome.bind (mgCgiEvHandler_steady hleave.tidy hw hc₂ ht hh) ?_
      intro n₃ _ hs
      exact hleave.steady hs

/-- The destructor of the proto data finds the forwarder, if there is one. -/
theorem mgFinishClose_safe (hpc : PcOk n t lc (.destroy nc tmp))
    (hs : PcSafe kind n t lc (.destroy nc tmp)) :
    Outcome E (SafeResult kind t lc) (mgFinishClose n nc tmp env) := by
  obtain ⟨C, -⟩ := hpc
  obtain ⟨c, hc, ht⟩ := C.live
  have hdone : SameWiring c (if c.protoHandler = some .mgHttpHandler then
      c.transferFileData env.fileIo else c) := by
    split
    next => exact SameWiring.transferFileData c _
    next => exact SameWiring.refl c
  have hsteady : SteadyConn c (if c.protoHandler = some .mgHttpHandler then
      c.transferFileData env.fileIo else c) := by
    split
    next => exact transferFileData_steady (hs.tidy.plain nc c hc ht)
    next => exact SteadyConn.refl c
  unfold mgFinishClose
  rw [Net.modify_bind hc]
  have S₁ := Leaving.steady hs (Steady.put hc hsteady)
  have hw₁ := (Touch.put hc ht hdone).wired C.wired
  unfold mgDestroyConn
  refine Outcome.bind (P := fun n' => Tidy n' t none ∧ (nc ≠ lc → ListenerLast kind n' t lc)) ?_ ?_
  · rw [Net.deref_bind (Heap.put_self _ _ _)]
    refine Outcome.bind (unlinkCgi_steady hw₁ (Heap.put_self _ _ _) (hdone.mgr.trans ht)) ?_
    intro n₂ _ hs₂
    exact ⟨(S₁.steady hs₂).tidy.free, fun hne => ((S₁.steady hs₂).last hne).free hne⟩
  · intro n₂ _ h₂
    show PcSafe kind n₂ t lc (.visit tmp)
    cases htmp : tmp with
    | none =>
      refine ⟨h₂.1, ?_⟩
      intro hk
      exact absurd (hs.next.mp htmp) (hs.way hk)
    | some b =>
      refine ⟨h₂.1, h₂.2 ?_⟩
      intro hlc
      rw [hs.next.mpr hlc] at htmp
      cases htmp

end

/-! ## The step -/

/-- **The loop does not fail** but in the ways named. -/
theorem mgStep_safe {user : UserHandler} (hu : UserSafe user t lc) {env : Env}
    (hpc : PcOk n t lc pc) (hs : PcSafe kind n t lc pc) (hm : (n.mgrs t).isSome) :
    Outcome (fun f => pc.Fails n env f) (fun r => PcSafe kind r.2.1 t lc r.1)
      (mgStep user kind n t pc env) := by
  have hquiet : ∀ {E : Fault → Prop} {r : Except Fault (MgPc × Net)},
      Outcome E (SafeResult kind t lc) r →
      Outcome E (fun r => PcSafe kind r.2.1 t lc r.1) (quiet r) := fun h => h.map fun _ hr => hr
  cases pc with
  | visit a =>
    cases a with
    | none => exact hs
    | some a => exact hquiet (mgVisit_safe hpc hs hm)
  | read a tmp =>
    obtain ⟨T, rfl⟩ := hs
    exact mgMgrHandleConn_safe hpc T hm
  | recv a tmp closing => exact hquiet (mgDoRecv_safe hpc hs.1 hs.2)
  | again a tmp closing => exact hquiet (mgHttpHandler_safe hpc hs)
  | request site a tmp hmsg => exact request_safe hu hpc hs hm
  | served a tmp closing hmsg => exact hquiet (mgHttpRequestDone_safe hpc hs)
  | write a tmp => exact hquiet (mgIfCanSendCb_safe hpc hs.1)
  | close a tmp => exact hquiet (mgCloseConnCb_safe hpc hs.1 hs.2 hm)
  | destroy a tmp => exact hquiet (mgFinishClose_safe hpc hs)

/-- The user's handler fails where serving the request does. -/
def UserFails (user : UserHandler) (t : MgrPtr) (lc : ConnPtr) : Prop :=
  ∀ {n : Net} {nc : ConnPtr} {fx : ServeFx} {c : MgConnection} {f : Fault}, n.heap nc = some c →
    c.mgr = t → AcceptedConn t lc c → c.protoData ≠ none → fx.Fails n f → user n nc fx = .error f

/-- … and in these ways the loop does fail. -/
theorem mgStep_fails {user : UserHandler} (hu : UserFails user t lc) {env : Env} {f : Fault}
    (hpc : PcOk n t lc pc) (hs : PcSafe kind n t lc pc) (h : pc.Fails n env f) :
    mgStep user kind n t pc env = .error f := by
  refine Outcome.eq_error ?_
  cases pc with
  | again a tmp closing =>
    obtain ⟨rfl, hcalloc, c, len, hm, hc, hparse⟩ := h
    obtain ⟨H, -⟩ := hpc
    have ht := H.live.mgr hc
    show Outcome _ _ (quiet (mgHttpHandler n a tmp closing env))
    refine Outcome.map (P := fun _ => False) ?_ fun _ h => h
    unfold mgHttpHandler
    rw [Net.deref_bind hc]
    rw [hparse]
    refine Outcome.bind (P := fun _ => False) ?_ fun _ _ h => h.elim
    unfold mgHttpCreateProtoData
    rw [Net.deref_bind hc]
    refine Outcome.bind (unlinkCgi_steady H.wired hc ht) ?_
    intro n₁ _ _
    rw [hcalloc]
    rfl
  | request site a tmp hmsg =>
    have hfacts : ∃ y c, Wired n t lc y ∧ n.heap a = some c ∧ c.mgr = t ∧ c.listener ≠ none ∧
        c.protoData ≠ none ∧ ListenerLast kind n t lc := by
      cases site with
      | recv closing =>
        obtain ⟨H, hacc, -⟩ := hpc
        obtain ⟨T, -, -, c, hc, hpd⟩ := hs
        exact ⟨_, c, H.wired, hc, H.live.mgr hc, hacc.listener hc, hpd, T.last⟩
      | close =>
        obtain ⟨C, hacc, -⟩ := hpc
        obtain ⟨T, hne, c, hc, hpd⟩ := hs
        exact ⟨_, c, C.wired, hc, C.live.mgr hc, hacc.listener hc, hpd, T.last hne⟩
    obtain ⟨y, c, hw, hc, ht, hl, hpd, L⟩ := hfacts
    have hac := hw.accepted hc ht hl
    show Outcome _ _ (mgHttpCallEndpointHandler user n site a tmp hmsg env)
    unfold mgHttpCallEndpointHandler
    rw [Net.deref_bind hc]
    refine Outcome.bind (mgHttpGetEndpointHandler_safe L hac.listener) ?_
    intro _ _ _
    rw [if_neg (by simpa using hpd), hac.handler]
    dsimp only
    rw [hu hc ht hac hpd h]
    rfl
  | visit | read | recv | served | write | close | destroy => exact h.elim

/-! ## Steps of other threads -/

section OtherOwner

variable {u : MgrPtr}

theorem NetFrame.tidy (h : NetFrame t n n') (hu : u ≠ t) (hT : Tidy n u x) : Tidy n' u x where
  message a c hc hm := hT.message a c ((h.heap.other hu hm).mp hc) hm
  plain a c hc hm := hT.plain a c ((h.heap.other hu hm).mp hc) hm

/-- The others leave the listener alone. -/
theorem NetFrame.listenerLast (h : NetFrame t n n') (hu : u ≠ t) (L : ListenerLast kind n u lc) :
    ListenerLast kind n' u lc where
  conn := by
    obtain ⟨c, hc, ho⟩ := L.conn
    exact ⟨c, (h.heap.other hu ho.mgr).mpr hc, ho⟩
  last := by
    rw [h.active hu]
    exact L.last

theorem NetFrame.turn (h : NetFrame t n n') (hu : u ≠ t) (T : Turn kind n u lc nc tmp x) :
    Turn kind n' u lc nc tmp x :=
  ⟨h.listenerLast hu T.last, h.tidy hu T.tidy, T.next⟩

theorem NetFrame.leaving (h : NetFrame t n n') (hu : u ≠ t) (T : Leaving kind n u lc nc tmp) :
    Leaving kind n' u lc nc tmp :=
  ⟨fun hne => h.listenerLast hu (T.last hne), h.tidy hu T.tidy, T.next, T.way⟩

/-- The others leave proto data alone. -/
theorem NetFrame.hasProtoData (h : NetFrame t n n') (hu : u ≠ t) (hl : Live n u nc)
    (hp : HasProtoData n nc) : HasProtoData n' nc := by
  obtain ⟨c, hc, hm⟩ := h.live hu hl
  obtain ⟨d, hd, hpd⟩ := hp
  obtain rfl : c = d := Option.some.inj ((h.same hu hl hc).symm.trans hd)
  exact ⟨c, hc, hpd⟩

/-- **What keeps a thread from failing survives the steps of the others.** -/
theorem NetFrame.pcSafe (h : NetFrame t n n') (hu : u ≠ t) (hpc : PcOk n u lc pc)
    (hs : PcSafe kind n u lc pc) : PcSafe kind n' u lc pc := by
  cases pc with
  | visit a =>
    cases a with
    | none => exact ⟨h.tidy hu hs.1, fun hk => h.listenerLast hu (hs.2 hk)⟩
    | some a => exact ⟨h.tidy hu hs.1, h.listenerLast hu hs.2⟩
  | read a tmp | write a tmp => exact ⟨h.turn hu hs.1, hs.2⟩
  | recv a tmp closing => exact ⟨h.turn hu hs.1, hs.2⟩
  | close a tmp => exact ⟨h.turn hu hs.1, hs.2⟩
  | again a tmp closing => exact ⟨h.turn hu hs.1, hs.2.1, h.isAccepted hu hpc.1.live hs.2.2⟩
  | served a tmp closing hmsg =>
    exact ⟨h.turn hu hs.1, hs.2.1, h.isAccepted hu hpc.1.live hs.2.2.1,
      h.hasProtoData hu hpc.1.live hs.2.2.2⟩
  | request site a tmp hmsg =>
    cases site with
    | recv closing =>
      exact ⟨h.turn hu hs.1, hs.2.1, h.isAccepted hu hpc.1.live hs.2.2.1,
        h.hasProtoData hu hpc.1.live hs.2.2.2⟩
    | close => exact ⟨h.leaving hu hs.1, hs.2.1, h.hasProtoData hu hpc.1.live hs.2.2⟩
  | destroy a tmp => exact h.leaving hu hs

end OtherOwner

end SimplestWeb.Mongoose
