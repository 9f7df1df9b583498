import SimplestWeb.Mongoose.Rewiring

/-!
# What the functions of the loop do to the wiring

One specification for each function the positions of the loop call: the
callbacks of a forwarder and of the protocol handlers (`mgCgiEvHandler`,
`mgCall`), serving a request (`mgServeHttp`), accepting and unlinking a
connection. Each is about one successful call; where such calls stand in the
loop is the subject of `LoopInv`.
-/

namespace SimplestWeb.Mongoose

open SimplestWeb.Lib (Heap)

variable {n n' : Net} {t : MgrPtr} {lc a : ConnPtr} {x : Option ConnPtr} {c : MgConnection}

/-! ## Callbacks -/

/-- Rewriting a connection of `t` through `modify`. -/
theorem modify_touch {f : MgConnection → MgConnection} (hf : ∀ c, SameWiring c (f c))
    (ha : Live n t a) (h : n.modify a f = .ok n') : Touch t n n' := by
  obtain ⟨c, hc, rfl⟩ := Net.modify_eq_ok.mp h
  obtain ⟨c', hc', ht⟩ := ha
  obtain rfl : c = c' := Option.some.inj (hc.symm.trans hc')
  exact Touch.put hc ht (hf c)

/-- The client of a forwarder is a live connection of the same manager that
points back. -/
theorem Wired.client (hw : Wired n t lc x) (hc : n.heap a = some c) (ht : c.mgr = t)
    (hh : c.handler = .mgCgiEvHandler) {b : ConnPtr} (hu : c.userData = some (.connection b)) :
    ∃ cb, n.heap b = some cb ∧ cb.mgr = t ∧ cb.cgiNc = some a := by
  obtain ⟨b', cb, hv, hb, hm, hg⟩ := (hw.forwarder_cgiNc hc ht hh).client _ hu
  injection hv with hv
  subst hv
  exact ⟨cb, hb, hm.trans ht, hg⟩

/-- Forwarding touches the two connections. -/
theorem mgForward_touch {src dst : ConnPtr} (hs : Live n t src) (hd : Live n t dst)
    (h : mgForward n src dst = .ok n') : Touch t n n' := by
  unfold mgForward at h
  obtain ⟨c, _, h⟩ := seq_eq_ok.mp h
  obtain ⟨n₁, h₁, h₂⟩ := seq_eq_ok.mp h
  have ht₁ := modify_touch (fun d => SameWiring.mgSend d _) hd h₁
  have hempty : ∀ c : MgConnection, SameWiring c { c with recvMbuf := [] } :=
    fun _ => ⟨⟨rfl, rfl, rfl, rfl, rfl, fun _ => rfl⟩, rfl⟩
  exact ht₁.trans (modify_touch hempty (ht₁.live hs) h₂)

/-- Short of `MG_EV_CLOSE` a forwarder only moves bytes and raises flags. -/
theorem mgCgiEvHandler_touch (hw : Wired n t lc x) (hc : n.heap a = some c) (ht : c.mgr = t)
    (hh : c.handler = .mgCgiEvHandler) {ev : Ev} (hev : ev ≠ .close) {sent : Nat}
    (h : mgCgiEvHandler n a ev sent = .ok n') : Touch t n n' := by
  unfold mgCgiEvHandler at h
  rw [Net.deref_bind hc] at h
  have hlive : Live n t a := ⟨c, hc, ht⟩
  split at h
  next => exact modify_touch SameWiring.setCloseImmediately hlive h
  next => cases h
  next b hu =>
    obtain ⟨cb, hcb, hmb, _⟩ := hw.client hc ht hh hu
    have hliveb : Live n t b := ⟨cb, hcb, hmb⟩
    split at h
    next => exact pure_eq_ok.mp h ▸ Touch.refl t n
    next => exact pure_eq_ok.mp h ▸ Touch.refl t n
    next => exact absurd rfl hev
    next =>
      obtain ⟨d, _, h⟩ := seq_eq_ok.mp h
      split at h
      next =>
        split at h
        next => exact pure_eq_ok.mp h ▸ Touch.refl t n
        next =>
          obtain ⟨n₁, h₁, h⟩ := seq_eq_ok.mp h
          obtain ⟨n₂, h₂, h⟩ := seq_eq_ok.mp h
          have ht₁ : Touch t n n₁ := by
            refine modify_touch (fun c => ?_) hlive h₁
            split
            next => exact SameWiring.setCloseImmediately c
            next => exact SameWiring.refl c
          have ht₂ : Touch t n₁ n₂ := by
            refine modify_touch (fun d => ?_) (ht₁.live hliveb) h₂
            have hsend : SameWiring d { d.mgSend sent with
                flags := { d.flags with user1 := false } } :=
              ⟨⟨rfl, rfl, rfl, rfl, rfl, fun _ => rfl⟩, rfl⟩
            dsimp only
            split
            next => exact hsend.trans (SameWiring.setSendAndClose _)
            next => exact hsend
          have ht₁₂ := ht₁.trans ht₂
          exact ht₁₂.trans (mgForward_touch (ht₁₂.live hlive) (ht₁₂.live hliveb) h)
      next => exact mgForward_touch hlive hliveb h

/-- What a function that cuts and clears a forwarder leaves behind. -/
structure Cleared (t : MgrPtr) (lc a : ConnPtr) (c : MgConnection) (n n' : Net) : Prop where
  wired : Wired n' t lc none
  keep : Keep t n n'
  self : ∃ d, n'.heap a = some d ∧ SameRole c d ∧ d.cgiNc = none

/-- Cutting the forwarder off and then rewriting the connection without it. -/
theorem unlink_clear (hw : Wired n t lc none) (hc : n.heap a = some c) (ht : c.mgr = t)
    {n₁ : Net} (h₁ : unlinkCgi n c.cgiNc = .ok n₁) {f : MgConnection → MgConnection}
    (hf : SameRole c (f c)) (hg : (f c).cgiNc = none) (h : n₁.modify a f = .ok n') :
    Cleared t lc a c n n' ∧
      ∀ g cg, c.cgiNc = some g → n'.heap g = some cg → g ≠ a → cg.userData = none := by
  have hu := (hw.mono (some a)).unlink hc ht h₁
  obtain ⟨c', hc', rfl⟩ := Net.modify_eq_ok.mp h
  obtain rfl : c = c' := Option.some.inj (hu.heap.symm.trans hc')
  refine ⟨⟨hu.wired.clear hu.cutOff hc' hf hg,
    hu.keep.trans (Keep.put hc' ht hf.mgr hf.listener hf.handler),
    f c, Heap.put_self _ _ _, hf, hg⟩, ?_⟩
  intro g cg hcg hgg hga
  exact hu.cutOff c g cg hc' hcg ((Heap.put_ne _ _ hga).symm.trans hgg)

/-- New proto data cut off what the old ones were linked to. -/
theorem mgHttpCreateProtoData_spec (hw : Wired n t lc none) (hc : n.heap a = some c)
    (ht : c.mgr = t) {ok : Bool} (h : mgHttpCreateProtoData n a ok = .ok n') :
    Cleared t lc a c n n' := by
  unfold mgHttpCreateProtoData at h
  rw [Net.deref_bind hc] at h
  obtain ⟨n₁, h₁, h⟩ := seq_eq_ok.mp h
  split at h
  next => exact (unlink_clear hw hc ht h₁ ⟨rfl, rfl, rfl, rfl, rfl, fun _ => rfl⟩ rfl h).1
  next => cases h

/-- On `MG_EV_CLOSE` a forwarder takes leave of its client. -/
theorem mgCgiEvHandler_close (hw : Wired n t lc none) (hc : n.heap a = some c) (ht : c.mgr = t)
    (hh : c.handler = .mgCgiEvHandler) {sent : Nat} (h : mgCgiEvHandler n a .close sent = .ok n') :
    Wired n' t lc none ∧ Keep t n n' ∧ ∀ d, n'.heap a = some d → d.userData = none := by
  unfold mgCgiEvHandler at h
  rw [Net.deref_bind hc] at h
  split at h
  next hu =>
    have hto := modify_touch SameWiring.setCloseImmediately ⟨c, hc, ht⟩ h
    refine ⟨hto.wired hw, hto.keep, ?_⟩
    intro d hd
    obtain ⟨c₀, hc₀, hcd⟩ := hto.bwd a d hd
    obtain rfl : c = c₀ := Option.some.inj (hc.symm.trans hc₀)
    exact hcd.userData.trans hu
  next => cases h
  next b hu =>
    obtain ⟨cb, hcb, hmb, hgb⟩ := hw.client hc ht hh hu
    have hne : a ≠ b := by
      intro hab
      subst hab
      obtain rfl : c = cb := Option.some.inj (hc.symm.trans hcb)
      rw [(hw.forwarder_cgiNc hc ht hh).cgiNc] at hgb
      cases hgb
    obtain ⟨n₁, h₁, h₂⟩ := seq_eq_ok.mp h
    unfold mgHttpFreeProtoDataCgi at h₁
    obtain ⟨cb', hcb', h₁⟩ := seq_eq_ok.mp h₁
    obtain rfl : cb = cb' := Option.some.inj (hcb.symm.trans (Net.deref_eq_ok.mp hcb'))
    split at h₁
    next => cases h₁
    next pd hpd =>
      obtain ⟨n₂, h₂', h₁⟩ := seq_eq_ok.mp h₁
      have hpdg : pd.cgiNc = cb.cgiNc := by
        rw [MgConnection.cgiNc, hpd]
        rfl
      rw [hpdg] at h₂'
      obtain ⟨hcl, hcut⟩ := unlink_clear hw hcb hmb h₂' ⟨rfl, rfl, rfl, rfl, rfl, fun _ => rfl⟩
        rfl h₁
      obtain ⟨d, hd, hcd, _⟩ := hcl.self
      have hto := modify_touch SameWiring.setSendAndClose ⟨d, hd, hcd.mgr.trans hmb⟩ h₂
      refine ⟨hto.wired hcl.wired, hcl.keep.trans hto.keep, ?_⟩
      intro e he
      obtain ⟨e₀, he₀, hee⟩ := hto.bwd a e he
      exact hee.userData.trans (hcut a e₀ hgb he₀ hne)

/-- Polling, writing and receiving callbacks keep the wiring. -/
theorem mgCall_touch (hw : Wired n t lc x) (ha : Live n t a) {ev : Ev} (hev : ev ≠ .close)
    {env : Env} (h : mgCall n a ev env = .ok n') : Touch t n n' := by
  obtain ⟨c, hc, ht⟩ := ha
  unfold mgCall at h
  rw [Net.deref_bind hc] at h
  split at h
  next => exact pure_eq_ok.mp h ▸ Touch.put hc ht (SameWiring.transferFileData c _)
  next => exact pure_eq_ok.mp h ▸ Touch.put hc ht (SameWiring.mgWsHandler c _ _)
  next =>
    split at h
    next => exact pure_eq_ok.mp h ▸ Touch.refl t n
    next hh => exact mgCgiEvHandler_touch hw hc ht hh hev h

/-! ## Requests, acceptance, unlinking -/

theorem SameWiring.serveFx (fx : ServeFx) (c : MgConnection) : SameWiring c (fx.apply c) := by
  have hsend := SameWiring.mgSend c fx.sent
  refine ⟨⟨hsend.mgr, hsend.listener, hsend.handler, rfl, hsend.userData, hsend.protoHandler⟩, ?_⟩
  unfold MgConnection.cgiNc ServeFx.apply
  cases c.protoData <;> rfl

/-- Serving a request rewrites the connection and may give it a forwarder. -/
theorem mgServeHttp_spec (hw : Wired n t lc x) (hq : CutOff n a) (hc : n.heap a = some c)
    (ht : c.mgr = t) (hh : c.handler = .evHandler) {fx : ServeFx}
    (h : mgServeHttp n a fx = .ok n') : Wired n' t lc x ∧ Keep t n n' := by
  unfold mgServeHttp at h
  rw [Net.deref_bind hc] at h
  have hfx := SameWiring.serveFx fx c
  split at h
  next => cases h
  split at h
  next =>
    have hto : Touch t n n' := pure_eq_ok.mp h ▸ Touch.put hc ht hfx
    exact ⟨hto.wired hw, hto.keep⟩
  next =>
    split at h
    next g pd hg hpd =>
      have hfree := (Net.malloc_eq_some.mp hg).2
      obtain ⟨n₁, h₁, h⟩ := seq_eq_ok.mp h
      obtain rfl := pure_eq_ok.mp h
      have hne : a ≠ g := by
        intro hag
        rw [hag, hfree] at hc
        cases hc
      obtain ⟨hheap, hgrow, _⟩ := mgAddConn_spec hfree (c := cgiForwarder c.mgr a fx.sent) ht h₁
      have hc₁ : n₁.heap a = some c := by
        rw [hheap]
        exact (Heap.put_ne _ _ hne).trans hc
      have hrole : SameRole c ((fx.apply c).attachCgi pd g) :=
        ⟨hfx.mgr, hfx.listener, hfx.handler, hfx.listening, hfx.userData, hfx.protoHandler⟩
      have hput := Keep.put hc₁ ht hrole.mgr hrole.listener hrole.handler
      constructor
      · have hwired : Wired ((n.put g (cgiForwarder c.mgr a fx.sent)).put a
            ((fx.apply c).attachCgi pd g)) t lc x :=
          hw.forward hq hc ht hh hfree hrole rfl ht rfl ⟨rfl, rfl, rfl, rfl⟩ rfl
        refine hwired.of_heap ?_
        rw [Net.put_heap, hheap]
        rfl
      · refine ⟨⟨hgrow.frame.trans hput.frame, ?_, ?_, fun hl => hput.listed (hgrow.listed hl),
          hput.mgr.trans hgrow.mgr⟩, ?_⟩
        · intro b d hd
          obtain ⟨d₁, hd₁, hm₁, hl₁, hh₁⟩ := hgrow.fwd b d hd
          obtain ⟨d₂, hd₂, hm₂, hl₂, hh₂⟩ := hput.fwd b d₁ hd₁
          exact ⟨d₂, hd₂, hm₂.trans hm₁, hl₂.trans hl₁, hh₂.trans hh₁⟩
        · intro b hb
          exact (hput.active b (hgrow.live hb)).trans (hgrow.active b hb)
        · intro b d hd hne'
          obtain ⟨d₁, hd₁, hm₁, hl₁⟩ := hput.bwd b d hd hne'
          rw [hheap] at hd₁
          -- the forwarder has not been accepted from a listener
          rcases Heap.mem_put.mp hd₁ with ⟨_, rfl⟩ | ⟨_, hd₁⟩
          · exact absurd hl₁.symm hne'
          · exact ⟨d₁, hd₁, hm₁, hl₁⟩
    next => cases h

/-- Only the listener accepts; the new connection inherits its wiring. -/
theorem mgAcceptConn_spec (hw : Wired n t lc none) (hc : n.heap a = some c) (ht : c.mgr = t)
    (hl : c.flags.listening = true) {r r' : Option ConnPtr} (h : mgAcceptConn n a r = .ok (r', n')) :
    (r' = none ∧ n' = n) ∨ ∃ b, r' = some b ∧ n.heap b = none ∧ Wired n' t lc none ∧ Grow t n n' ∧
      (∃ d, n'.heap b = some d ∧ d.mgr = t ∧ d.listener = some a) ∧
      ∀ b' e, b' ≠ b → n'.heap b' = some e → n.heap b' = some e := by
  have hlc : ListenerConn t lc a c := by
    rcases hw.role a c hc ht with hlc | ha | hf
    · exact hlc
    · rw [ha.listening] at hl
      cases hl
    · rw [hf.listening] at hl
      cases hl
  unfold mgAcceptConn at h
  rw [Net.deref_bind hc] at h
  split at h
  next =>
    cases pure_eq_ok.mp h
    exact Or.inl ⟨rfl, rfl⟩
  next b hb =>
    have hfree := (Net.malloc_eq_some.mp hb).2
    obtain ⟨n₁, h₁, h⟩ := seq_eq_ok.mp h
    cases pure_eq_ok.mp h
    have hacc : AcceptedConn t lc (mgIfAcceptNewConn a c) :=
      ⟨congrArg some hlc.addr, hlc.handler, rfl, hlc.userData⟩
    obtain ⟨hheap, hgrow, _⟩ := mgAddConn_spec hfree (c := mgIfAcceptNewConn a c) ht h₁
    refine Or.inr ⟨b, rfl, hfree, (hw.accept hfree hacc rfl).of_heap hheap, hgrow, ?_, ?_⟩
    · rw [hheap]
      exact ⟨_, Heap.put_self _ _ _, ht, rfl⟩
    · intro b' e hne he
      rw [hheap] at he
      exact (Heap.put_ne _ _ hne).symm.trans he

/-- A connection is taken off the list of its manager, and nothing else. -/
theorem mgRemoveConn_spec (hc : n.heap a = some c) (ht : c.mgr = t)
    (h : mgRemoveConn n a = .ok n') :
    n'.heap = n.heap ∧ n'.active t = (n.active t).erase a ∧ NetFrame t n n' ∧
      (n'.mgrs t).isSome = (n.mgrs t).isSome := by
  unfold mgRemoveConn at h
  rw [hc] at h
  dsimp only at h
  rw [ht] at h
  split at h
  next m hm =>
    injection h with h
    subst h
    refine ⟨rfl, ?_, ⟨Heap.Frame.refl _ _ _, fun u hu => Heap.put_ne _ _ hu⟩, ?_⟩
    · unfold Net.active
      rw [Net.putMgr_mgrs, Heap.put_self, hm]
    · rw [Net.putMgr_mgrs, Heap.put_self, hm]
      rfl
  next => cases h

end SimplestWeb.Mongoose
