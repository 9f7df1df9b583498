import SimplestWeb.Mongoose.LoopSpec

/-!
# The event loop keeps the wiring

`PcOk n t lc pc` is the loop invariant of thread `t` at position `pc`: the
wiring holds, the list of the manager is sound, the connection being handled
is still listed (or, once `mg_close_conn` has unlinked it, is not), and `tmp`
is a listed connection other than it — so the loop never follows a dangling
`next`. At `request` the connection is one that was accepted, with no
forwarder that still knows it.

One lemma for each position; `mgStep_ok` puts them together.
-/

namespace SimplestWeb.Mongoose

open SimplestWeb.Lib (Heap)

variable {n n' : Net} {t : MgrPtr} {lc a : ConnPtr} {x : Option ConnPtr} {c : MgConnection}

/-! ## The invariant -/

/-- `nc` is being handled and still listed; `tmp` comes after it. -/
structure Handling (n : Net) (t : MgrPtr) (lc nc : ConnPtr) (tmp : Option ConnPtr) : Prop where
  wired : Wired n t lc none
  listed : Listed n t
  mem : nc ∈ n.active t
  next : ∀ a ∈ tmp, a ∈ n.active t ∧ a ≠ nc

/-- `nc` is being closed and no longer listed. -/
structure Closing (n : Net) (t : MgrPtr) (lc nc : ConnPtr) (tmp : Option ConnPtr) : Prop where
  wired : Wired n t lc (some nc)
  listed : Listed n t
  live : Live n t nc
  gone : nc ∉ n.active t
  next : ∀ a ∈ tmp, a ∈ n.active t

/-- `nc` was accepted. -/
def IsAccepted (n : Net) (nc : ConnPtr) : Prop := ∃ c, n.heap nc = some c ∧ c.listener ≠ none

/-- An accepted connection still knows its listener. -/
theorem IsAccepted.listener {nc : ConnPtr} (h : IsAccepted n nc) (hc : n.heap nc = some c) :
    c.listener ≠ none := by
  obtain ⟨d, hd, hl⟩ := h
  rw [hc] at hd
  cases hd
  exact hl

/-- The handler of `nc` is the user's. -/
def IsUser (n : Net) (nc : ConnPtr) : Prop := ∃ c, n.heap nc = some c ∧ c.handler = .evHandler

/-- The invariant of thread `t` at a position of the loop. -/
def PcOk (n : Net) (t : MgrPtr) (lc : ConnPtr) : MgPc → Prop
  | .visit nc => Wired n t lc none ∧ Listed n t ∧ ∀ a ∈ nc, a ∈ n.active t
  | .read nc tmp | .recv nc tmp _ | .write nc tmp | .close nc tmp => Handling n t lc nc tmp
  | .again nc tmp _ | .served nc tmp _ _ => Handling n t lc nc tmp ∧ IsUser n nc
  | .request (.recv _) nc tmp _ => Handling n t lc nc tmp ∧ IsAccepted n nc ∧ CutOff n nc
  | .request .close nc tmp _ => Closing n t lc nc tmp ∧ IsAccepted n nc ∧ CutOff n nc
  | .destroy nc tmp => Closing n t lc nc tmp ∧
      ∀ c, n.heap nc = some c → c.handler = .mgCgiEvHandler → c.userData = none

/-- No connection has become an accepted one. -/
def NoAccept (n n' : Net) : Prop :=
  ∀ a d, n'.heap a = some d → d.listener ≠ none →
    ∃ c, n.heap a = some c ∧ c.mgr = d.mgr ∧ c.listener = d.listener

/-- A step of thread `t` that accepts nobody reestablishes the invariant. -/
structure StepOk (n n' : Net) (t : MgrPtr) (lc : ConnPtr) (pc' : MgPc) : Prop where
  pc : PcOk n' t lc pc'
  frame : NetFrame t n n'
  mgr : (n'.mgrs t).isSome = (n.mgrs t).isSome
  old : NoAccept n n'

section

variable {nc : ConnPtr} {tmp : Option ConnPtr} {closing : Bool} {pc' : MgPc}

/-- A step that keeps the links only has to reach a good position. -/
theorem Keep.stepOk (hk : Keep t n n') (hpc : PcOk n' t lc pc') : StepOk n n' t lc pc' :=
  ⟨hpc, hk.frame, hk.mgr, hk.bwd⟩

/-- The handled connection is alive. -/
theorem Handling.live (H : Handling n t lc nc tmp) : Live n t nc := H.listed.live nc H.mem

/-- Connections that are added do not disturb the handled one. -/
theorem Handling.grow (H : Handling n t lc nc tmp) (hw : Wired n' t lc none) (hg : Grow t n n') :
    Handling n' t lc nc tmp where
  wired := hw
  listed := hg.listed H.listed
  mem := (hg.active nc H.live).mpr H.mem
  next a ha := by
    obtain ⟨hmem, hne⟩ := H.next a ha
    exact ⟨(hg.active a (H.listed.live a hmem)).mpr hmem, hne⟩

/-- Neither does a step that keeps the wiring. -/
theorem Handling.touch (H : Handling n t lc nc tmp) (h : Touch t n n') :
    Handling n' t lc nc tmp :=
  H.grow (h.wired H.wired) h.keep.toGrow

/-- The handling of `nc` is over, the loop goes on at `tmp`. -/
theorem Handling.visit (H : Handling n t lc nc tmp) : PcOk n t lc (.visit tmp) :=
  ⟨H.wired, H.listed, fun a ha => (H.next a ha).1⟩

/-- Nor do they disturb one that is being closed. -/
theorem Closing.grow (H : Closing n t lc nc tmp) (hw : Wired n' t lc (some nc)) (hg : Grow t n n') :
    Closing n' t lc nc tmp where
  wired := hw
  listed := hg.listed H.listed
  live := hg.live H.live
  gone hmem := H.gone ((hg.active nc H.live).mp hmem)
  next a ha := (hg.active a (H.listed.live a (H.next a ha))).mpr (H.next a ha)

theorem IsUser.grow (h : IsUser n nc) (hg : Grow t n n') : IsUser n' nc := by
  obtain ⟨c, hc, hh⟩ := h
  obtain ⟨d, hd, _, _, hdh⟩ := hg.fwd nc c hc
  exact ⟨d, hd, hdh.trans hh⟩

/-- The successor in a list of distinct elements is a different element. -/
theorem nextOf_mem {l : List ConnPtr} (hl : l.Nodup) {b : ConnPtr} (h : b ∈ nextOf nc l) :
    b ∈ l ∧ b ≠ nc := by
  induction l with
  | nil => cases h
  | cons d l ih =>
    obtain ⟨hd, hl⟩ := List.nodup_cons.mp hl
    unfold nextOf at h
    split at h
    next hdn =>
      have hb : b ∈ l := List.mem_of_mem_head? h
      refine ⟨List.mem_cons_of_mem _ hb, ?_⟩
      intro hbn
      rw [hbn, ← hdn] at hb
      exact hd hb
    next =>
      obtain ⟨hb, hne⟩ := ih hl h
      exact ⟨List.mem_cons_of_mem _ hb, hne⟩

/-! ## One specification per position -/

/-- The beginning of `mg_close_conn`. -/
theorem mgCloseConn_ok (H : Handling n t lc nc tmp) (h : mgCloseConn n nc tmp = .ok (pc', n')) :
    StepOk n n' t lc pc' := by
  unfold mgCloseConn at h
  obtain ⟨c, _, h⟩ := seq_eq_ok.mp h
  cases pure_eq_ok.mp h
  refine (Keep.refl t n).stepOk ?_
  split
  next => exact H
  next => exact H

/-- `flags |= ...`, then `mg_close_conn`. -/
theorem modify_close_ok (H : Handling n t lc nc tmp) {f : MgConnection → MgConnection}
    (hf : ∀ c, SameWiring c (f c)) {n₁ : Net} (h₁ : n.modify nc f = .ok n₁)
    (h : mgCloseConn n₁ nc tmp = .ok (pc', n')) : StepOk n n' t lc pc' := by
  have ht := modify_touch hf H.live h₁
  have hs := mgCloseConn_ok (H.touch ht) h
  refine ⟨hs.pc, ht.frame.trans hs.frame, hs.mgr.trans ht.keep.mgr, ?_⟩
  intro b d hd hne
  obtain ⟨e, he, hm, hl⟩ := hs.old b d hd hne
  obtain ⟨c, hc, hm', hl'⟩ := ht.keep.bwd b e he (by rw [hl]; exact hne)
  exact ⟨c, hc, hm'.trans hm, hl'.trans hl⟩

/-- The closing flags are looked at, and `MG_EV_POLL` is sent. -/
theorem mgIfPoll_ok (H : Handling n t lc nc tmp) {env : Env}
    (h : mgIfPoll n nc tmp env = .ok (pc', n')) : StepOk n n' t lc pc' := by
  unfold mgIfPoll at h
  obtain ⟨c, _, h⟩ := seq_eq_ok.mp h
  split at h
  next => exact mgCloseConn_ok H h
  next =>
    split at h
    next =>
      obtain ⟨n₁, h₁, h⟩ := seq_eq_ok.mp h
      exact modify_close_ok H SameWiring.setCloseImmediately h₁ h
    next =>
      split at h
      next => exact mgCloseConn_ok H h
      next =>
        obtain ⟨n₁, h₁, h⟩ := seq_eq_ok.mp h
        cases pure_eq_ok.mp h
        have ht := mgCall_touch H.wired H.live (by intro he; cases he) h₁
        exact ht.keep.stepOk (H.touch ht)

/-- The next connection in the list is handled. -/
theorem mgVisit_ok (hpc : PcOk n t lc (.visit (some nc))) {kind : LoopKind} {env : Env}
    (h : mgVisit kind n t nc env = .ok (pc', n')) : StepOk n n' t lc pc' := by
  obtain ⟨hw, hl, hmem⟩ := hpc
  unfold mgVisit at h
  obtain ⟨m, hm, h⟩ := seq_eq_ok.mp h
  have hact : n.active t = m.activeConnections := by
    unfold Net.active
    rw [Net.derefMgr_eq_ok.mp hm]
  have H : Handling n t lc nc (nextOf nc m.activeConnections) := by
    refine ⟨hw, hl, hmem nc rfl, ?_⟩
    intro b hb
    rw [hact]
    exact nextOf_mem (hact ▸ hl.nodup) hb
  split at h
  next => exact mgIfPoll_ok H h
  next =>
    obtain ⟨n₁, h₁, h⟩ := seq_eq_ok.mp h
    exact modify_close_ok H SameWiring.setCloseImmediately h₁ h

theorem afterRecv_ok (H : Handling n t lc nc tmp) :
    PcOk n t lc (afterRecv nc tmp closing) := by
  cases closing with
  | false => exact H
  | true => exact H

/-- Rewriting the handled connection in place. -/
theorem Handling.put (H : Handling n t lc nc tmp) (hc : n.heap nc = some c) {d : MgConnection}
    (hcd : SameWiring c d) : Touch t n (n.put nc d) := by
  have ht := H.live.mgr hc
  exact Touch.put hc ht hcd

/-- A piece is read, or reading is over. -/
theorem mgDoRecv_ok (H : Handling n t lc nc tmp) {env : Env}
    (h : mgDoRecv n nc tmp closing env = .ok (pc', n')) : StepOk n n' t lc pc' := by
  unfold mgDoRecv at h
  obtain ⟨c, hc, h⟩ := seq_eq_ok.mp h
  have hc := Net.deref_eq_ok.mp hc
  split at h
  next =>
    cases pure_eq_ok.mp h
    exact (Keep.refl t n).stepOk (afterRecv_ok H)
  next =>
    split at h
    next =>
      split at h
      next =>
        cases pure_eq_ok.mp h
        have ht := H.put hc (SameWiring.setRecvAndClose c)
        exact ht.keep.stepOk (H.touch ht).visit
      next =>
        cases pure_eq_ok.mp h
        exact (Keep.refl t n).stepOk H
    next =>
      split at h
      next =>
        cases pure_eq_ok.mp h
        exact (Keep.refl t n).stepOk (afterRecv_ok H)
      next =>
        cases pure_eq_ok.mp h
        have ht := H.put hc (SameWiring.setCloseImmediately c)
        exact ht.keep.stepOk (afterRecv_ok (H.touch ht))
      next =>
        cases pure_eq_ok.mp h
        have ht := H.put hc (SameWiring.setSendAndClose c)
        exact ht.keep.stepOk (afterRecv_ok (H.touch ht))
      next b bs _ =>
        obtain ⟨n₂, h₂, h⟩ := seq_eq_ok.mp h
        cases pure_eq_ok.mp h
        have ht₁ := H.put hc (d := { c with recvMbuf := c.recvMbuf ++ b :: bs })
          ⟨⟨rfl, rfl, rfl, rfl, rfl, fun _ => rfl⟩, rfl⟩
        have H₁ := H.touch ht₁
        have ht₂ := mgCall_touch H₁.wired H₁.live (by intro he; cases he) h₂
        have ht := ht₁.trans ht₂
        refine ht.keep.stepOk ?_
        split
        next hproto =>
          refine ⟨H.touch ht, ?_⟩
          -- a forwarder has no protocol handler
          have huser : IsUser n nc := by
            have htc := H.live.mgr hc
            refine ⟨c, hc, ?_⟩
            rcases H.wired.role nc c hc htc with hl | ha | hf
            · exact hl.handler
            · exact ha.handler
            · rw [hf.protoHandler] at hproto
              cases hproto
          exact huser.grow ht.keep.toGrow
        next => exact H.touch ht

theorem NoAccept.refl (n : Net) : NoAccept n n := fun _ d hd _ => ⟨d, hd, rfl, rfl⟩

theorem NoAccept.trans {n₁ n₂ n₃ : Net} (h₁ : NoAccept n₁ n₂) (h₂ : NoAccept n₂ n₃) :
    NoAccept n₁ n₃ := by
  intro a e he hne
  obtain ⟨d, hd, hm, hl⟩ := h₂ a e he hne
  obtain ⟨c, hc, hm', hl'⟩ := h₁ a d hd (by rw [hl]; exact hne)
  exact ⟨c, hc, hm'.trans hm, hl'.trans hl⟩

/-- One step after another. -/
theorem Keep.andThen {n₁ : Net} (hk : Keep t n n₁) (h : StepOk n₁ n' t lc pc') :
    StepOk n n' t lc pc' :=
  ⟨h.pc, hk.frame.trans h.frame, h.mgr.trans hk.mgr, NoAccept.trans hk.bwd h.old⟩

/-- Noting how much was received keeps the wiring. -/
theorem SameWiring.received (c : MgConnection) (buf : Bytes) : SameWiring c (c.received buf) := by
  refine ⟨⟨rfl, rfl, rfl, rfl, rfl, fun _ => rfl⟩, ?_⟩
  unfold MgConnection.cgiNc MgConnection.received
  cases c.protoData <;> rfl

/-- The message goes to a connection that has no forwarder. -/
theorem mgHttpDispatch_ok (H : Handling n t lc nc tmp) {c₀ : MgConnection}
    (hc : n.heap nc = some c₀) (hcd : SameWiring c₀ c) (hh : c.handler = .evHandler)
    (hg : c.cgiNc = none) {rcvd reqLen : Nat} {hm : HttpMessage} {env : Env}
    (h : mgHttpDispatch n nc tmp closing c rcvd reqLen hm env = .ok (pc', n')) :
    StepOk n n' t lc pc' := by
  -- all branches but the last only rewrite the connection
  have done : ∀ d, SameWiring c d → StepOk n (n.put nc d) t lc (.recv nc tmp closing) := by
    intro d hd
    have ht := H.put hc (hcd.trans hd)
    exact ht.keep.stepOk (H.touch ht)
  unfold mgHttpDispatch at h
  split at h
  next =>
    split at h
    next =>
      cases pure_eq_ok.mp h
      exact done _ (SameWiring.upgrade hh _ _ _)
    next =>
      cases pure_eq_ok.mp h
      exact done _ ((SameWiring.setCloseImmediately c).trans (SameWiring.recvRemove _ _))
  next =>
    split at h
    next =>
      obtain ⟨_, _, h⟩ := seq_eq_ok.mp h
      cases pure_eq_ok.mp h
      exact done _ (SameWiring.upgrade hh _ _ _)
    next =>
      split at h
      next =>
        cases pure_eq_ok.mp h
        refine done _ ?_
        split
        next => exact SameWiring.setCloseImmediately c
        next => exact SameWiring.refl c
      next =>
        cases pure_eq_ok.mp h
        have ht := H.put hc hcd
        refine ht.keep.stepOk ?_
        split
        next hreq =>
          refine ⟨H.touch ht, ⟨c, Heap.put_self _ _ _, Option.isSome_iff_ne_none.mp hreq⟩, ?_⟩
          intro e g eg he hge _
          obtain rfl : c = e := Option.some.inj ((Heap.put_self _ _ _).symm.trans he)
          rw [hg] at hge
          cases hge
        next => exact ⟨H.touch ht, ⟨c, Heap.put_self _ _ _, hh⟩⟩

/-- A message is found in the buffer, or not. -/
theorem mgHttpHandler_ok (hpc : PcOk n t lc (.again nc tmp closing)) {env : Env}
    (h : mgHttpHandler n nc tmp closing env = .ok (pc', n')) : StepOk n n' t lc pc' := by
  obtain ⟨H, c, hc, hh⟩ := hpc
  unfold mgHttpHandler at h
  rw [Net.deref_bind hc] at h
  split at h
  next =>
    cases pure_eq_ok.mp h
    have ht := H.put hc (SameWiring.setCloseImmediately c)
    exact ht.keep.stepOk (H.touch ht)
  next =>
    cases pure_eq_ok.mp h
    have hsame : SameWiring c (if MG_MAX_HTTP_REQUEST_SIZE ≤ c.recvMbuf.length
        then c.setCloseImmediately else c) := by
      split
      next => exact SameWiring.setCloseImmediately c
      next => exact SameWiring.refl c
    have ht := H.put hc hsame
    exact ht.keep.stepOk (H.touch ht)
  next reqLen hm _ =>
    obtain ⟨n₁, h₁, h⟩ := seq_eq_ok.mp h
    obtain ⟨c₁, hc₁, h⟩ := seq_eq_ok.mp h
    obtain ⟨c₂, hc₂, hct⟩ := H.live
    obtain rfl : c = c₂ := Option.some.inj (hc.symm.trans hc₂)
    -- a fresh proto data, without a forwarder
    have hcl := mgHttpCreateProtoData_spec H.wired hc hct h₁
    obtain ⟨d, hd, hcd, hgd⟩ := hcl.self
    obtain rfl : c₁ = d := Option.some.inj ((Net.deref_eq_ok.mp hc₁).symm.trans hd)
    have hrec := SameWiring.received c₁ (dechunk c₁.recvMbuf reqLen hm).1
    exact hcl.keep.andThen (mgHttpDispatch_ok (H.grow hcl.wired hcl.keep.toGrow) hd hrec
      (hrec.handler.trans (hcd.handler.trans hh)) (hrec.cgiNc.trans hgd) h)

/-- What the loop needs of the user's handler: on a connection of the user's
without a linked forwarder it keeps the wiring. -/
def UserOk (user : UserHandler) (t : MgrPtr) (lc : ConnPtr) : Prop :=
  ∀ {n n' : Net} {nc : ConnPtr} {fx : ServeFx} {c : MgConnection} {x : Option ConnPtr},
    Wired n t lc x → CutOff n nc → n.heap nc = some c → c.mgr = t → c.handler = .evHandler →
    user n nc fx = .ok n' → Wired n' t lc x ∧ Keep t n n'

/-- Entering the user's handler: the connection is an accepted one of `t`. -/
theorem mgHttpCallEndpointHandler_user {user : UserHandler} (hw : Wired n t lc x)
    (hlive : Live n t nc) (hacc : IsAccepted n nc) {site : Site} {hm : HttpMessage} {env : Env}
    {evs : List MgEvent}
    (h : mgHttpCallEndpointHandler user n site nc tmp hm env = .ok (pc', n', evs)) :
    evs = [.request nc] ∧ user n nc env.fx = .ok n' ∧
      pc' = afterRequest site nc tmp hm ∧
      ∃ c, n.heap nc = some c ∧ c.mgr = t ∧ AcceptedConn t lc c := by
  obtain ⟨c, hc, hct⟩ := hlive
  obtain ⟨c', hc', hl⟩ := hacc
  obtain rfl : c = c' := Option.some.inj (hc.symm.trans hc')
  have hac := hw.accepted hc hct hl
  unfold mgHttpCallEndpointHandler at h
  rw [Net.deref_bind hc] at h
  obtain ⟨_, _, h⟩ := seq_eq_ok.mp h
  split at h
  next => cases h
  next =>
    split at h
    next =>
      obtain ⟨n₁, h₁, h⟩ := seq_eq_ok.mp h
      cases pure_eq_ok.mp h
      exact ⟨rfl, h₁, rfl, c, hc, hct, hac⟩
    next hh =>
      rw [hac.handler] at hh
      cases hh

/-- The user's handler is entered on a connection that the thread has accepted. -/
theorem request_ok {user : UserHandler} (hu : UserOk user t lc) {site : Site} {hm : HttpMessage}
    (hpc : PcOk n t lc (.request site nc tmp hm)) {env : Env} {evs : List MgEvent}
    (h : mgHttpCallEndpointHandler user n site nc tmp hm env = .ok (pc', n', evs)) :
    StepOk n n' t lc pc' ∧ evs = [.request nc] := by
  cases site with
  | recv closing =>
    obtain ⟨H, hacc, hq⟩ := hpc
    obtain ⟨hevs, huser, hpc', c, hc, hct, hac⟩ :=
      mgHttpCallEndpointHandler_user H.wired H.live hacc h
    obtain ⟨hw, hk⟩ := hu H.wired hq hc hct hac.handler huser
    refine ⟨hk.stepOk ?_, hevs⟩
    rw [hpc']
    exact ⟨H.grow hw hk.toGrow, IsUser.grow ⟨c, hc, hac.handler⟩ hk.toGrow⟩
  | close =>
    obtain ⟨H, hacc, hq⟩ := hpc
    obtain ⟨hevs, huser, hpc', c, hc, hct, hac⟩ :=
      mgHttpCallEndpointHandler_user H.wired H.live hacc h
    obtain ⟨hw, hk⟩ := hu H.wired hq hc hct hac.handler huser
    refine ⟨hk.stepOk ?_, hevs⟩
    rw [hpc']
    refine ⟨H.grow hw hk.toGrow, ?_⟩
    intro d hd hh
    obtain ⟨d', hd', _, _, hdh⟩ := hk.fwd nc c hc
    obtain rfl : d = d' := Option.some.inj (hd.symm.trans hd')
    rw [hdh, hac.handler] at hh
    cases hh

/-- The request is dropped from the buffer. -/
theorem mgHttpRequestDone_ok {hm : HttpMessage} (hpc : PcOk n t lc (.served nc tmp closing hm))
    (h : mgHttpRequestDone n nc tmp closing hm = .ok (pc', n')) : StepOk n n' t lc pc' := by
  obtain ⟨H, huser⟩ := hpc
  unfold mgHttpRequestDone at h
  obtain ⟨c, hc, h⟩ := seq_eq_ok.mp h
  split at h
  next => cases h
  next pd hpd =>
    cases pure_eq_ok.mp h
    have hrem := SameWiring.recvRemove c hm.messageLen
    have hsame : SameWiring c { c.recvRemove hm.messageLen with
        protoData := some { pd with rcvd := (pd.rcvd + 2 ^ 64 - hm.messageLen) % 2 ^ 64 } } := by
      refine ⟨⟨hrem.mgr, hrem.listener, hrem.handler, hrem.listening, hrem.userData,
        hrem.protoHandler⟩, ?_⟩
      simp [MgConnection.cgiNc, hpd]
    have ht := H.put (Net.deref_eq_ok.mp hc) hsame
    refine ht.keep.stepOk ?_
    split
    next => exact ⟨H.touch ht, huser.grow ht.keep.toGrow⟩
    next => exact H.touch ht

/-- Something is sent, and `MG_EV_SEND` follows. -/
theorem mgIfCanSendCb_ok (H : Handling n t lc nc tmp) {env : Env}
    (h : mgIfCanSendCb n nc tmp env = .ok (pc', n')) : StepOk n n' t lc pc' := by
  unfold mgIfCanSendCb at h
  obtain ⟨c, hc, h⟩ := seq_eq_ok.mp h
  -- the buffer or a flag changes, then `MG_EV_SEND` is called
  have hsend : ∀ d n₁, SameWiring c d → mgCall (n.put nc d) nc .send env = .ok n₁ →
      StepOk n n₁ t lc (.visit tmp) := by
    intro d n₁ hcd h₁
    have ht₁ := H.put (Net.deref_eq_ok.mp hc) hcd
    have H₁ := H.touch ht₁
    have ht := ht₁.trans (mgCall_touch H₁.wired H₁.live (by intro he; cases he) h₁)
    exact ht.keep.stepOk (H.touch ht).visit
  split at h
  next =>
    cases pure_eq_ok.mp h
    exact (Keep.refl t n).stepOk H.visit
  next =>
    split at h
    next =>
      obtain ⟨n₁, h₁, h⟩ := seq_eq_ok.mp h
      cases pure_eq_ok.mp h
      exact hsend _ _ (SameWiring.setCloseImmediately c) h₁
    next =>
      cases pure_eq_ok.mp h
      exact (Keep.refl t n).stepOk H.visit
    next k _ =>
      obtain ⟨n₁, h₁, h⟩ := seq_eq_ok.mp h
      cases pure_eq_ok.mp h
      refine hsend _ _ ?_ h₁
      exact ⟨⟨rfl, rfl, rfl, rfl, rfl, fun _ => rfl⟩, rfl⟩

/-- Unlinking the handled connection turns `Handling` into `Closing`. -/
theorem Handling.remove (H : Handling n t lc nc tmp) (h : mgRemoveConn n nc = .ok n') :
    Closing n' t lc nc tmp ∧ Wired n' t lc none ∧ n'.heap = n.heap ∧ NetFrame t n n' ∧
      (n'.mgrs t).isSome = (n.mgrs t).isSome := by
  obtain ⟨c, hc, hct⟩ := H.live
  obtain ⟨hheap, hact, hframe, hmgr⟩ := mgRemoveConn_spec hc hct h
  have hw : Wired n' t lc none := H.wired.of_heap hheap
  have hlive : ∀ a, Live n t a → Live n' t a := by
    intro a ha
    obtain ⟨d, hd, hdm⟩ := ha
    exact ⟨d, by rw [hheap]; exact hd, hdm⟩
  refine ⟨⟨hw.mono _, ⟨?_, ?_⟩, hlive nc H.live, ?_, ?_⟩, hw, hheap, hframe, hmgr⟩
  · rw [hact]
    exact H.listed.nodup.erase nc
  · intro a ha
    rw [hact] at ha
    exact hlive a (H.listed.live a (List.mem_of_mem_erase ha))
  · rw [hact]
    exact H.listed.nodup.not_mem_erase
  · intro a ha
    obtain ⟨hmem, hne⟩ := H.next a ha
    rw [hact]
    exact (List.mem_erase_of_ne hne).mpr hmem

/-- The connection is unlinked, and its forwarder cut off. -/
theorem mgCloseConnCb_ok (H : Handling n t lc nc tmp) {env : Env}
    (h : mgCloseConnCb n nc tmp env = .ok (pc', n')) : StepOk n n' t lc pc' := by
  unfold mgCloseConnCb at h
  obtain ⟨n₁, h₁, h⟩ := seq_eq_ok.mp h
  have ht₁ := modify_touch SameWiring.closeSock H.live h₁
  refine ht₁.keep.andThen ?_
  obtain ⟨n₂, h₂, h⟩ := seq_eq_ok.mp h
  obtain ⟨C, hw, hheap, hframe, hmgr⟩ := (H.touch ht₁).remove h₂
  have hold : NoAccept n₁ n₂ := by
    intro a d hd _
    rw [hheap] at hd
    exact ⟨d, hd, rfl, rfl⟩
  -- from here on the list has changed and only `n₂` matters
  have fin : StepOk n₂ n' t lc pc' → StepOk n₁ n' t lc pc' := fun hs =>
    ⟨hs.pc, hframe.trans hs.frame, hs.mgr.trans hmgr, hold.trans hs.old⟩
  refine fin ?_
  obtain ⟨c, hc, h⟩ := seq_eq_ok.mp h
  have hc := Net.deref_eq_ok.mp hc
  have hct := C.live.mgr hc
  have hproto : c.protoHandler ≠ none → c.handler ≠ .mgCgiEvHandler := by
    intro hp hh
    exact hp (hw.forwarder_cgiNc hc hct hh).protoHandler
  have hkeep : c.handler ≠ .mgCgiEvHandler → PcOk n₂ t lc (.destroy nc tmp) := by
    intro hne
    refine ⟨C, ?_⟩
    intro d hd hh
    obtain rfl : c = d := Option.some.inj (hc.symm.trans hd)
    exact absurd hh hne
  split at h
  next hp =>
    have hne := hproto (by rw [hp]; intro he; cases he)
    obtain ⟨n₃, h₃, h⟩ := seq_eq_ok.mp h
    have hun := C.wired.unlink hc hct h₃
    have C₃ := C.grow hun.wired hun.keep.toGrow
    have hdestroy : PcOk n₃ t lc (.destroy nc tmp) := by
      refine ⟨C₃, ?_⟩
      intro d hd hh
      obtain rfl : c = d := Option.some.inj (hun.heap.symm.trans hd)
      exact absurd hh hne
    split at h
    next reqLen hm _ =>
      cases pure_eq_ok.mp h
      refine hun.keep.stepOk ?_
      split
      next hl => exact ⟨C₃, ⟨c, hun.heap, Option.isSome_iff_ne_none.mp hl⟩, hun.cutOff⟩
      next => exact hdestroy
    next =>
      cases pure_eq_ok.mp h
      exact hun.keep.stepOk hdestroy
  next hp =>
    cases pure_eq_ok.mp h
    exact (Keep.refl t _).stepOk (hkeep (hproto (by rw [hp]; intro he; cases he)))
  next =>
    split at h
    next hh =>
      cases pure_eq_ok.mp h
      exact (Keep.refl t _).stepOk (hkeep (by rw [hh]; intro he; cases he))
    next hh =>
      obtain ⟨n₃, h₃, h⟩ := seq_eq_ok.mp h
      cases pure_eq_ok.mp h
      obtain ⟨hw₃, hk₃, hu₃⟩ := mgCgiEvHandler_close hw hc hct hh h₃
      exact hk₃.stepOk ⟨C.grow (hw₃.mono _) hk₃.toGrow, fun d hd _ => hu₃ d hd⟩

/-- The connection is freed; nothing leads to it. -/
theorem mgFinishClose_ok (hpc : PcOk n t lc (.destroy nc tmp)) {env : Env}
    (h : mgFinishClose n nc tmp env = .ok (pc', n')) : StepOk n n' t lc pc' := by
  obtain ⟨C, hcgi⟩ := hpc
  unfold mgFinishClose at h
  obtain ⟨n₁, h₁, h⟩ := seq_eq_ok.mp h
  have ht₁ : Touch t n n₁ := by
    refine modify_touch (fun c => ?_) C.live h₁
    split
    next => exact SameWiring.transferFileData c _
    next => exact SameWiring.refl c
  refine ht₁.keep.andThen ?_
  have C₁ := C.grow (ht₁.wired C.wired) ht₁.keep.toGrow
  obtain ⟨n₂, h₂, h⟩ := seq_eq_ok.mp h
  cases pure_eq_ok.mp h
  unfold mgDestroyConn at h₂
  obtain ⟨c, hc, h₂⟩ := seq_eq_ok.mp h₂
  have hc := Net.deref_eq_ok.mp hc
  have hct := C₁.live.mgr hc
  obtain ⟨n₃, h₃, h₂⟩ := seq_eq_ok.mp h₂
  cases pure_eq_ok.mp h₂
  have hun := C₁.wired.unlink hc hct h₃
  have C₃ := C₁.grow hun.wired hun.keep.toGrow
  refine hun.keep.andThen ?_
  have hu : c.handler = .mgCgiEvHandler → c.userData = none := by
    intro hh
    obtain ⟨c₀, hc₀, hcc⟩ := ht₁.bwd nc c hc
    exact hcc.userData.trans (hcgi c₀ hc₀ (hcc.handler.symm.trans hh))
  refine ⟨⟨hun.wired.release hun.cutOff hun.heap hu, ⟨C₃.listed.nodup, ?_⟩, C₃.next⟩,
    ⟨Heap.Frame.release hun.heap hct, fun _ _ => rfl⟩, rfl, ?_⟩
  · intro a ha
    obtain ⟨d, hd, hdm⟩ := C₃.listed.live a ha
    refine ⟨d, Heap.mem_free.mpr ⟨?_, hd⟩, hdm⟩
    intro hanc
    rw [hanc] at ha
    exact C₃.gone ha
  · intro a d hd _
    exact ⟨d, (Heap.mem_free.mp hd).2, rfl, rfl⟩

/-! ## The step -/

/-- How the accepted connections change in a step of `t` with events `evs`. -/
def Accepts (t : MgrPtr) (n n' : Net) (evs : List MgEvent) : Prop :=
  ((∀ l a, MgEvent.accepted l a ∉ evs) ∧ NoAccept n n') ∨
  ∃ l a d, evs = [.accepted l a] ∧ n.heap a = none ∧ n'.heap a = some d ∧ d.mgr = t ∧
    d.listener = some l ∧ ∀ b e, b ≠ a → n'.heap b = some e → n.heap b = some e

/-- What a step of the loop achieves. -/
structure LoopOk (n n' : Net) (t : MgrPtr) (lc : ConnPtr) (pc' : MgPc) (evs : List MgEvent) :
    Prop where
  pc : PcOk n' t lc pc'
  frame : NetFrame t n n'
  mgr : (n'.mgrs t).isSome = (n.mgrs t).isSome
  accepts : Accepts t n n' evs

/-- A step that shows no acceptance. -/
theorem StepOk.loopOk (h : StepOk n n' t lc pc') {evs : List MgEvent}
    (hevs : ∀ l a, MgEvent.accepted l a ∉ evs) : LoopOk n n' t lc pc' evs :=
  ⟨h.pc, h.frame, h.mgr, Or.inl ⟨hevs, h.old⟩⟩

/-- The read half: a connection is accepted or reading begins. -/
theorem mgMgrHandleConn_ok (H : Handling n t lc nc tmp) {env : Env} {evs : List MgEvent}
    (h : mgMgrHandleConn n nc tmp env = .ok (pc', n', evs)) :
    LoopOk n n' t lc pc' evs := by
  have hnone : ∀ {pc : MgPc}, PcOk n t lc pc → LoopOk n n t lc pc [] := fun hpc =>
    ((Keep.refl t n).stepOk hpc).loopOk fun _ _ => List.not_mem_nil
  unfold mgMgrHandleConn at h
  split at h
  next =>
    cases pure_eq_ok.mp h
    exact hnone H
  next =>
    obtain ⟨c, hc, h⟩ := seq_eq_ok.mp h
    have hc := Net.deref_eq_ok.mp hc
    have hct := H.live.mgr hc
    split at h
    next hl =>
      obtain ⟨r, hr, h⟩ := seq_eq_ok.mp h
      cases pure_eq_ok.mp h
      rcases mgAcceptConn_spec H.wired hc hct hl hr with
        ⟨hrn, hn⟩ | ⟨b, hb, hfree, hw, hg, ⟨d, hd, hdm, hdl⟩, hold⟩
      · rw [hrn, hn]
        exact hnone H
      · rw [hb]
        exact ⟨H.grow hw hg, hg.frame, hg.mgr, Or.inr ⟨nc, b, d, rfl, hfree, hd, hdm, hdl, hold⟩⟩
    next =>
      cases pure_eq_ok.mp h
      exact hnone H

/-- A step without events is the step itself. -/
theorem quiet_eq_ok {r : Except Fault (MgPc × Net)} {evs : List MgEvent} :
    quiet r = .ok (pc', n', evs) ↔ r = .ok (pc', n') ∧ evs = [] := by
  cases r with
  | error e => simp [quiet, Except.map]
  | ok p => simp [quiet, Except.map, Prod.ext_iff, and_assoc, eq_comm]

/-- **The loop keeps its invariant**: a step of `t` reestablishes it, leaves
every other owner alone, and accepts connections only as its events say. -/
theorem mgStep_ok {user : UserHandler} (hu : UserOk user t lc) {kind : LoopKind} {pc : MgPc}
    {env : Env} {evs : List MgEvent} (hpc : PcOk n t lc pc)
    (h : mgStep user kind n t pc env = .ok (pc', n', evs)) : LoopOk n n' t lc pc' evs := by
  -- most positions show nothing
  have hquiet : ∀ {r : Except Fault (MgPc × Net)}, quiet r = .ok (pc', n', evs) →
      (r = .ok (pc', n') → StepOk n n' t lc pc') → LoopOk n n' t lc pc' evs := by
    intro r hr hs
    obtain ⟨hok, rfl⟩ := quiet_eq_ok.mp hr
    exact (hs hok).loopOk fun _ _ => List.not_mem_nil
  cases pc with
  | visit nc =>
    cases nc with
    | none =>
      cases h
      exact ((Keep.refl t n).stepOk hpc).loopOk fun _ _ => List.not_mem_nil
    | some nc => exact hquiet h (mgVisit_ok hpc)
  | read nc tmp => exact mgMgrHandleConn_ok hpc h
  | recv nc tmp closing => exact hquiet h (mgDoRecv_ok hpc)
  | again nc tmp closing => exact hquiet h (mgHttpHandler_ok hpc)
  | request site nc tmp hm =>
    obtain ⟨hs, hevs⟩ := request_ok hu hpc h
    refine hs.loopOk ?_
    intro l a hmem
    rw [hevs] at hmem
    cases List.mem_singleton.mp hmem
  | served nc tmp closing hm => exact hquiet h (mgHttpRequestDone_ok hpc)
  | write nc tmp => exact hquiet h (mgIfCanSendCb_ok hpc)
  | close nc tmp => exact hquiet h (mgCloseConnCb_ok hpc)
  | destroy nc tmp => exact hquiet h (mgFinishClose_ok hpc)

end

/-! ## Steps of other threads -/

section OtherOwner

variable {u : MgrPtr} {nc : ConnPtr} {tmp : Option ConnPtr}

/-- Another thread does not disturb the connection that is handled. -/
theorem NetFrame.handling (h : NetFrame t n n') (hu : u ≠ t) (H : Handling n u lc nc tmp) :
    Handling n' u lc nc tmp where
  wired := h.wired hu H.wired
  listed := h.listed hu H.listed
  mem := by
    rw [h.active hu]
    exact H.mem
  next a ha := by
    rw [h.active hu]
    exact H.next a ha

/-- … or closed. -/
theorem NetFrame.closing (h : NetFrame t n n') (hu : u ≠ t) (H : Closing n u lc nc tmp) :
    Closing n' u lc nc tmp where
  wired := h.wired hu H.wired
  listed := h.listed hu H.listed
  live := h.live hu H.live
  gone := by
    rw [h.active hu]
    exact H.gone
  next a ha := by
    rw [h.active hu]
    exact H.next a ha

/-- A connection of `u` is the same block after a step of `t`. -/
theorem NetFrame.same (h : NetFrame t n n') (hu : u ≠ t) {a : ConnPtr} (ha : Live n u a)
    {d : MgConnection} (hd : n'.heap a = some d) : n.heap a = some d := by
  obtain ⟨c, hc, hm⟩ := ha
  have hc' := (h.heap.other hu hm).mpr hc
  obtain rfl : c = d := Option.some.inj (hc'.symm.trans hd)
  exact hc

/-- Its handler stays the user's. -/
theorem NetFrame.isUser (h : NetFrame t n n') (hu : u ≠ t) (hl : Live n u nc) (hi : IsUser n nc) :
    IsUser n' nc := by
  obtain ⟨c, hc, hm⟩ := h.live hu hl
  obtain ⟨d, hd, hh⟩ := hi
  obtain rfl : c = d := Option.some.inj ((h.same hu hl hc).symm.trans hd)
  exact ⟨c, hc, hh⟩

theorem NetFrame.isAccepted (h : NetFrame t n n') (hu : u ≠ t) (hl : Live n u nc)
    (hi : IsAccepted n nc) : IsAccepted n' nc := by
  obtain ⟨c, hc, hm⟩ := h.live hu hl
  obtain ⟨d, hd, hne⟩ := hi
  obtain rfl : c = d := Option.some.inj ((h.same hu hl hc).symm.trans hd)
  exact ⟨c, hc, hne⟩

/-- Its forwarder stays cut off, since that is a connection of the same thread. -/
theorem NetFrame.cutOff (h : NetFrame t n n') (hu : u ≠ t) {x : Option ConnPtr}
    (hw : Wired n u lc x) (hl : Live n u nc) (hq : CutOff n nc) : CutOff n' nc := by
  intro c g cg hc hg hcg
  have hc₀ := h.same hu hl hc
  obtain ⟨c', hc', hm⟩ := hl
  obtain rfl : c = c' := Option.some.inj (hc₀.symm.trans hc')
  obtain ⟨d, hd, hdm, _⟩ := hw.link nc c g hc' hm hg
  exact hq c g cg hc' hg (h.same hu ⟨d, hd, hdm⟩ hcg)

/-- **The invariant of a thread survives the steps of the others.** -/
theorem NetFrame.pcOk (h : NetFrame t n n') (hu : u ≠ t) {pc : MgPc} (hpc : PcOk n u lc pc) :
    PcOk n' u lc pc := by
  cases pc with
  | visit nc =>
    refine ⟨h.wired hu hpc.1, h.listed hu hpc.2.1, ?_⟩
    rw [h.active hu]
    exact hpc.2.2
  | read nc tmp => exact h.handling hu hpc
  | recv nc tmp closing => exact h.handling hu hpc
  | again nc tmp closing => exact ⟨h.handling hu hpc.1, h.isUser hu hpc.1.live hpc.2⟩
  | served nc tmp closing hm => exact ⟨h.handling hu hpc.1, h.isUser hu hpc.1.live hpc.2⟩
  | write nc tmp => exact h.handling hu hpc
  | close nc tmp => exact h.handling hu hpc
  | request site nc tmp hm =>
    cases site with
    | recv closing =>
      obtain ⟨H, hacc, hq⟩ := hpc
      exact ⟨h.handling hu H, h.isAccepted hu H.live hacc, h.cutOff hu H.wired H.live hq⟩
    | close =>
      obtain ⟨H, hacc, hq⟩ := hpc
      exact ⟨h.closing hu H, h.isAccepted hu H.live hacc, h.cutOff hu H.wired H.live hq⟩
  | destroy nc tmp =>
    refine ⟨h.closing hu hpc.1, ?_⟩
    intro c hc
    exact hpc.2 c (h.same hu hpc.1.live hc)

end OtherOwner

end SimplestWeb.Mongoose
