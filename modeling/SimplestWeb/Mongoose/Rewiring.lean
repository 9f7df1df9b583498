import SimplestWeb.Mongoose.Wiring

/-!
# The steps that change the wiring

One lemma for each way the wiring of a manager changes: a forwarder is cut
off from its client (`Wired.unlink`), the client's pointer to it is cleared
(`Wired.clear`), a connection is freed (`Wired.release`), accepted
(`Wired.accept`), or gets a forwarder (`Wired.forward`). From these follow
the specifications of the mongoose functions that do several of them in a
row: `mgHttpCreateProtoData`, `mg_cgi_ev_handler` on `MG_EV_CLOSE`,
`mgDestroyConn`, `mgAcceptConn` and `mgServeHttp`.

`Grow t n n'` is what all of them but the release have in common: everything
outside `t` is framed, the connections of `t` keep their owner, listener and
handler, and the list gains new connections only. `Keep` adds that nobody
is accepted.
-/

namespace SimplestWeb.Mongoose

open SimplestWeb.Lib (Heap)

/-- Nothing is freed and nothing is unlisted. -/
structure Grow (t : MgrPtr) (n n' : Net) : Prop where
  frame : NetFrame t n n'
  fwd : ∀ a c, n.heap a = some c → ∃ d, n'.heap a = some d ∧ d.mgr = c.mgr ∧
    d.listener = c.listener ∧ d.handler = c.handler
  active : ∀ a, Live n t a → (a ∈ n'.active t ↔ a ∈ n.active t)
  listed : Listed n t → Listed n' t
  mgr : (n'.mgrs t).isSome = (n.mgrs t).isSome

/-- … and nobody is accepted. -/
structure Keep (t : MgrPtr) (n n' : Net) : Prop extends Grow t n n' where
  bwd : ∀ a d, n'.heap a = some d → d.listener ≠ none →
    ∃ c, n.heap a = some c ∧ c.mgr = d.mgr ∧ c.listener = d.listener

theorem Grow.live {t u : MgrPtr} {n n' : Net} (h : Grow t n n') {a : ConnPtr} (ha : Live n u a) :
    Live n' u a := by
  obtain ⟨c, hc, hm⟩ := ha
  obtain ⟨d, hd, hdm, _, _⟩ := h.fwd a c hc
  exact ⟨d, hd, hdm.trans hm⟩

namespace Keep

variable {t : MgrPtr} {n n' n'' : Net}

theorem refl (t : MgrPtr) (n : Net) : Keep t n n where
  frame := NetFrame.refl t n
  fwd _ c hc := ⟨c, hc, rfl, rfl, rfl⟩
  active _ _ := Iff.rfl
  listed h := h
  mgr := rfl
  bwd _ c hc _ := ⟨c, hc, rfl, rfl⟩

theorem trans (h₁ : Keep t n n') (h₂ : Keep t n' n'') : Keep t n n'' where
  frame := h₁.frame.trans h₂.frame
  fwd a c hc := by
    obtain ⟨d, hd, hm, hl, hh⟩ := h₁.fwd a c hc
    obtain ⟨e, he, hm', hl', hh'⟩ := h₂.fwd a d hd
    exact ⟨e, he, hm'.trans hm, hl'.trans hl, hh'.trans hh⟩
  active a ha := (h₂.active a (h₁.live ha)).trans (h₁.active a ha)
  listed h := h₂.listed (h₁.listed h)
  mgr := h₂.mgr.trans h₁.mgr
  bwd a e he hne := by
    obtain ⟨d, hd, hm, hl⟩ := h₂.bwd a e he hne
    obtain ⟨c, hc, hm', hl'⟩ := h₁.bwd a d hd (hl ▸ hne)
    exact ⟨c, hc, hm'.trans hm, hl'.trans hl⟩

/-- A step that leaves the list as it is. -/
theorem of_mgrs (hframe : NetFrame t n n') (hm : n'.mgrs t = n.mgrs t)
    (hfwd : ∀ a c, n.heap a = some c → ∃ d, n'.heap a = some d ∧ d.mgr = c.mgr ∧
      d.listener = c.listener ∧ d.handler = c.handler)
    (hbwd : ∀ a d, n'.heap a = some d → d.listener ≠ none →
      ∃ c, n.heap a = some c ∧ c.mgr = d.mgr ∧ c.listener = d.listener) : Keep t n n' where
  frame := hframe
  fwd := hfwd
  active a _ := by
    unfold Net.active
    rw [hm]
  listed h := by
    have hact : n'.active t = n.active t := by
      unfold Net.active
      rw [hm]
    constructor
    · rw [hact]
      exact h.nodup
    · intro a ha
      rw [hact] at ha
      obtain ⟨c, hc, hct⟩ := h.live a ha
      obtain ⟨d, hd, hdm, _, _⟩ := hfwd a c hc
      exact ⟨d, hd, hdm.trans hct⟩
  mgr := by rw [hm]
  bwd := hbwd

/-- Rewriting one connection of `t`. -/
theorem put {a : ConnPtr} {c d : MgConnection} (hc : n.heap a = some c) (ht : c.mgr = t)
    (hm : d.mgr = c.mgr) (hl : d.listener = c.listener) (hh : d.handler = c.handler) :
    Keep t n (n.put a d) := by
  refine of_mgrs (NetFrame.put hc ht (hm.trans ht)) rfl ?_ ?_
  · intro b e he
    by_cases hba : b = a
    · subst hba
      obtain rfl : c = e := Option.some.inj (hc.symm.trans he)
      exact ⟨d, Heap.put_self _ _ _, hm, hl, hh⟩
    · exact ⟨e, (Heap.put_ne _ _ hba).trans he, rfl, rfl, rfl⟩
  · intro b e he _
    rcases Heap.mem_put.mp he with ⟨hba, hed⟩ | ⟨_, hb⟩
    · subst hba hed
      exact ⟨c, hc, hm.symm, hl.symm⟩
    · exact ⟨e, hb, rfl, rfl⟩

end Keep

/-- A connection that is only touched is kept. -/
theorem Touch.keep {t : MgrPtr} {n n' : Net} (h : Touch t n n') : Keep t n n' := by
  refine Keep.of_mgrs h.frame h.mgrs ?_ ?_
  · intro a c hc
    obtain ⟨d, hd, hcd⟩ := h.fwd a c hc
    exact ⟨d, hd, hcd.mgr, hcd.listener, hcd.handler⟩
  · intro a d hd _
    obtain ⟨c, hc, hcd⟩ := h.bwd a d hd
    exact ⟨c, hc, hcd.mgr.symm, hcd.listener.symm⟩

section

variable {n n' : Net} {t : MgrPtr} {lc a g : ConnPtr} {x : Option ConnPtr} {c d cg : MgConnection}

/-- A role read off `c` holds of a connection that plays the same. -/
theorem role_of_same (hcd : SameRole c d)
    (h : ListenerConn t lc a c ∨ AcceptedConn t lc c ∨ ForwarderConn n a c)
    (hg : c.handler = .mgCgiEvHandler → d.cgiNc = none)
    (hf : ∀ b cb, c.userData = some (.connection b) → n.heap b = some cb → cb.mgr = c.mgr →
      cb.cgiNc = some a → ∃ cb', n'.heap b = some cb' ∧ cb'.mgr = d.mgr ∧ cb'.cgiNc = some a) :
    ListenerConn t lc a d ∨ AcceptedConn t lc d ∨ ForwarderConn n' a d := by
  rcases h with hl | ha | hfw
  · exact Or.inl ⟨hl.addr, hcd.listener.trans hl.listener, hcd.handler.trans hl.handler,
      hcd.listening.trans hl.listening, hcd.userData.trans hl.userData⟩
  · exact Or.inr (Or.inl ⟨hcd.listener.trans ha.listener, hcd.handler.trans ha.handler,
      hcd.listening.trans ha.listening, hcd.userData.trans ha.userData⟩)
  · refine Or.inr (Or.inr ⟨hcd.listener.trans hfw.listener, hcd.handler.trans hfw.handler,
      hcd.listening.trans hfw.listening, (hcd.protoHandler hfw.handler).trans hfw.protoHandler,
      hg hfw.handler, ?_⟩)
    intro v hv
    obtain ⟨b, cb, rfl, hb, hmb, hgb⟩ := hfw.client v (hcd.userData.symm.trans hv)
    obtain ⟨cb', hb', hmb', hgb'⟩ := hf b cb (hcd.userData.symm.trans hv) hb hmb hgb
    exact ⟨b, cb', rfl, hb', hmb', hgb'⟩

theorem SameRole.refl (c : MgConnection) : SameRole c c := (SameWiring.refl c).toSameRole

/-! ## Cutting a forwarder off -/

theorem unlinkCgi_eq_ok {r : Option ConnPtr} :
    unlinkCgi n r = .ok n' ↔ (r = none ∧ n' = n) ∨ ∃ g cg, r = some g ∧ n.heap g = some cg ∧
      n' = n.put g cg.loseClient := by
  unfold unlinkCgi
  split
  next =>
    constructor
    · intro h
      exact Or.inl ⟨rfl, (Except.ok.inj h).symm⟩
    · intro h
      rcases h with ⟨_, rfl⟩ | ⟨g, cg, hg, _⟩
      · rfl
      · cases hg
  next g =>
    rw [Net.modify_eq_ok]
    constructor
    · intro h
      obtain ⟨cg, hcg, rfl⟩ := h
      exact Or.inr ⟨g, cg, rfl, hcg, rfl⟩
    · intro h
      rcases h with ⟨hg, _⟩ | ⟨g', cg, hg, hcg, rfl⟩
      · cases hg
      · obtain rfl := Option.some.inj hg
        exact ⟨cg, hcg, rfl⟩

/-- What cutting the forwarder of `a` off achieves. -/
structure Unlinked (t : MgrPtr) (lc a : ConnPtr) (c : MgConnection) (n n' : Net) : Prop where
  wired : Wired n' t lc (some a)
  heap : n'.heap a = some c
  cutOff : CutOff n' a
  keep : Keep t n n'

/-- The forwarder of `a` loses its client, `a` still points to it. -/
theorem Wired.unlink (hw : Wired n t lc (some a)) (hc : n.heap a = some c) (ht : c.mgr = t)
    (h : unlinkCgi n c.cgiNc = .ok n') : Unlinked t lc a c n n' := by
  rcases unlinkCgi_eq_ok.mp h with ⟨hnone, rfl⟩ | ⟨g, cg, hg, hcg, rfl⟩
  · refine ⟨hw, hc, ?_, Keep.refl t _⟩
    intro d g cg hd hdg _
    obtain rfl : c = d := Option.some.inj (hc.symm.trans hd)
    rw [hnone] at hdg
    cases hdg
  · obtain ⟨cg', hcg', hmg, hhg, hug⟩ := hw.link a c g hc ht hg
    obtain rfl : cg = cg' := Option.some.inj (hcg.symm.trans hcg')
    have hfg := hw.forwarder_cgiNc hcg hmg hhg
    have hne : a ≠ g := by
      intro hag
      subst hag
      obtain rfl : c = cg := Option.some.inj (hc.symm.trans hcg)
      rw [hfg.cgiNc] at hg
      cases hg
    have hself : n.heap.put g cg.loseClient a = some c :=
      (Heap.put_ne _ _ hne).trans hc
    refine ⟨⟨?_, ?_⟩, hself, ?_, Keep.put hcg hmg rfl rfl rfl⟩
    · intro b d hd hm
      rcases Heap.mem_put.mp hd with ⟨rfl, rfl⟩ | ⟨hb, hd⟩
      · exact Or.inr (Or.inr ⟨hfg.listener, hhg, hfg.listening, hfg.protoHandler, hfg.cgiNc,
          fun v hv => by cases hv⟩)
      · refine role_of_same (SameRole.refl d) (hw.role b d hd hm)
          (fun hh => (hw.forwarder_cgiNc hd hm hh).cgiNc) ?_
        -- the client of another forwarder is not the forwarder `g`
        intro b' cb _ hcb hmb hgb
        refine ⟨cb, (Heap.put_ne _ _ ?_).trans hcb, hmb, hgb⟩
        intro hb'
        subst hb'
        obtain rfl : cg = cb := Option.some.inj (hcg.symm.trans hcb)
        rw [hfg.cgiNc] at hgb
        cases hgb
    · intro b d g' hd hm hg'
      rcases Heap.mem_put.mp hd with ⟨rfl, rfl⟩ | ⟨hb, hd⟩
      · rw [show cg.loseClient.cgiNc = cg.cgiNc from rfl, hfg.cgiNc] at hg'
        cases hg'
      · obtain ⟨cb, hcb, hmb, hhb, hub⟩ := hw.link b d g' hd hm hg'
        by_cases hgg : g' = g
        · subst hgg
          obtain rfl : cg = cb := Option.some.inj (hcg.symm.trans hcb)
          refine ⟨_, Heap.put_self _ _ _, hmg, hhg, Or.inr ⟨?_, rfl⟩⟩
          -- both `a` and `b` are the client of `g`
          rcases hub with hub | ⟨hxb, _⟩
          · rcases hug with hua | ⟨_, hua⟩
            · rw [hub] at hua
              cases hua
              rfl
            · rw [hub] at hua
              cases hua
          · exact hxb
        · exact ⟨cb, (Heap.put_ne _ _ hgg).trans hcb, hmb, hhb, hub⟩
    · intro d g' dg hd hdg hg'
      obtain rfl : c = d := Option.some.inj (hself.symm.trans hd)
      obtain rfl : g = g' := Option.some.inj (hg.symm.trans hdg)
      obtain rfl := Option.some.inj ((Heap.put_self _ _ _).symm.trans hg')
      rfl

/-- The pointer to a cut-off forwarder is cleared. -/
theorem Wired.clear (hw : Wired n t lc (some a)) (hq : CutOff n a) (hc : n.heap a = some c)
    (hcd : SameRole c d) (hg : d.cgiNc = none) : Wired (n.put a d) t lc none := by
  -- nobody's client is `a`
  have hcli : ∀ b cb v, n.heap b = some cb → cb.userData = some v → ∀ b' cb', n.heap b' = some cb' →
      cb'.cgiNc = some b → b' ≠ a := by
    intro b cb v hb hv b' cb' hb' hgb' hba
    subst hba
    have := hq cb' b cb hb' hgb' hb
    rw [this] at hv
    cases hv
  constructor
  · intro b e he hm
    have hrole : ∀ e₀, n.heap b = some e₀ → SameRole e₀ e → (e₀.handler = .mgCgiEvHandler →
        e.cgiNc = none) → e₀.mgr = t →
        ListenerConn t lc b e ∨ AcceptedConn t lc e ∨ ForwarderConn (n.put a d) b e := by
      intro e₀ he₀ hee hge hm₀
      refine role_of_same hee (hw.role b e₀ he₀ hm₀) hge ?_
      intro b' cb hv hcb hmb hgb
      have hne := hcli b e₀ _ he₀ hv b' cb hcb hgb
      exact ⟨cb, (Heap.put_ne _ _ hne).trans hcb, hmb.trans hee.mgr.symm, hgb⟩
    rcases Heap.mem_put.mp he with ⟨rfl, rfl⟩ | ⟨_, he⟩
    · exact hrole c hc hcd (fun _ => hg) (hcd.mgr.symm.trans hm)
    · exact hrole e he (SameRole.refl e) (fun hh => (hw.forwarder_cgiNc he hm hh).cgiNc) hm
  · intro b e g he hm hge
    rcases Heap.mem_put.mp he with ⟨rfl, rfl⟩ | ⟨hb, he⟩
    · rw [hg] at hge
      cases hge
    · obtain ⟨cg, hcg, hmg, hhg, hug⟩ := hw.link b e g he hm hge
      have huser : cg.userData = some (.connection b) := by
        rcases hug with hu | ⟨hx, _⟩
        · exact hu
        · exact absurd (Option.some.inj hx).symm hb
      by_cases hga : g = a
      · subst hga
        obtain rfl : c = cg := Option.some.inj (hc.symm.trans hcg)
        exact ⟨d, Heap.put_self _ _ _, hcd.mgr.trans hmg, hcd.handler.trans hhg,
          Or.inl (hcd.userData.trans huser)⟩
      · exact ⟨cg, (Heap.put_ne _ _ hga).trans hcg, hmg, hhg, Or.inl huser⟩

/-- A connection without a forwarder to it is freed. -/
theorem Wired.release (hw : Wired n t lc (some a)) (hq : CutOff n a) (hc : n.heap a = some c)
    (hu : c.handler = .mgCgiEvHandler → c.userData = none) :
    Wired { n with heap := n.heap.free a } t lc none := by
  constructor
  · intro b e he hm
    obtain ⟨hb, he⟩ := Heap.mem_free.mp he
    refine role_of_same (SameRole.refl e) (hw.role b e he hm)
      (fun hh => (hw.forwarder_cgiNc he hm hh).cgiNc) ?_
    intro b' cb hv hcb hmb hgb
    refine ⟨cb, Heap.mem_free.mpr ⟨?_, hcb⟩, hmb, hgb⟩
    intro hb'
    subst hb'
    have := hq cb b e hcb hgb (Heap.mem_free.mp he).2
    rw [this] at hv
    cases hv
  · intro b e g he hm hge
    obtain ⟨hb, he⟩ := Heap.mem_free.mp he
    obtain ⟨cg, hcg, hmg, hhg, hug⟩ := hw.link b e g he hm hge
    have huser : cg.userData = some (.connection b) := by
      rcases hug with hu | ⟨hx, _⟩
      · exact hu
      · exact absurd (Option.some.inj hx).symm hb
    refine ⟨cg, Heap.mem_free.mpr ⟨?_, hcg⟩, hmg, hhg, Or.inl huser⟩
    intro hga
    subst hga
    obtain rfl : c = cg := Option.some.inj (hc.symm.trans hcg)
    rw [hu hhg] at huser
    cases huser

/-! ## New connections -/

/-- The wiring does not look at the lists. -/
theorem Wired.of_heap (hw : Wired n t lc x) (h : n'.heap = n.heap) : Wired n' t lc x := by
  constructor
  · intro a c hc hm
    rw [h] at hc
    refine role_of_same (SameRole.refl c) (hw.role a c hc hm)
      (fun hh => (hw.forwarder_cgiNc hc hm hh).cgiNc) ?_
    intro b cb _ hcb hmb hgb
    exact ⟨cb, by rw [h]; exact hcb, hmb, hgb⟩
  · rw [h]
    exact hw.link

/-- Adding the block `c`, just allocated at `a`, to the list of its manager. -/
theorem mgAddConn_spec (hfree : n.heap a = none) (ht : c.mgr = t) (h : mgAddConn n a c = .ok n') :
    n'.heap = n.heap.put a c ∧ Grow t n n' ∧ n'.active t = a :: n.active t := by
  unfold mgAddConn at h
  rw [ht] at h
  split at h
  next m hm =>
    injection h with h
    subst h
    have hact : Net.active ((n.put a c).putMgr t { m with
        activeConnections := a :: m.activeConnections }) t = a :: n.active t := by
      unfold Net.active
      rw [Net.putMgr_mgrs, Heap.put_self, hm]
    -- the block was free, so that it is none of the listed connections
    have hold : ∀ b, Live n t b → b ≠ a := by
      intro b hb hba
      obtain ⟨cb, hcb, _⟩ := hb
      rw [hba, hfree] at hcb
      cases hcb
    refine ⟨rfl, ⟨⟨Heap.Frame.alloc hfree ht, fun u hu => Heap.put_ne _ _ hu⟩, ?_, ?_, ?_, ?_⟩,
      hact⟩
    · intro b d hd
      refine ⟨d, (Heap.put_ne _ _ ?_).trans hd, rfl, rfl, rfl⟩
      intro hba
      rw [hba, hfree] at hd
      cases hd
    · intro b hb
      rw [hact, List.mem_cons]
      constructor
      · intro hmem
        rcases hmem with hba | hmem
        · exact absurd hba (hold b hb)
        · exact hmem
      · exact Or.inr
    · intro hl
      constructor
      · rw [hact, List.nodup_cons]
        exact ⟨fun hmem => hold a (hl.live a hmem) rfl, hl.nodup⟩
      · intro b hb
        rw [hact, List.mem_cons] at hb
        rcases hb with hba | hb
        · subst hba
          exact ⟨c, Heap.put_self _ _ _, ht⟩
        · obtain ⟨d, hd, hdm⟩ := hl.live b hb
          exact ⟨d, (Heap.put_ne _ _ (hold b ⟨d, hd, hdm⟩)).trans hd, hdm⟩
    · rw [Net.putMgr_mgrs, Heap.put_self, hm]
      rfl
  next => cases h

/-- A connection is accepted. -/
theorem Wired.accept (hw : Wired n t lc x) (hfree : n.heap a = none) (ha : AcceptedConn t lc c)
    (hg : c.cgiNc = none) : Wired (n.put a c) t lc x := by
  have hold : ∀ b cb, n.heap b = some cb → (n.put a c).heap b = some cb := by
    intro b cb hcb
    refine (Heap.put_ne _ _ ?_).trans hcb
    intro hba
    rw [hba, hfree] at hcb
    cases hcb
  constructor
  · intro b d hd hm
    rcases Heap.mem_put.mp hd with ⟨rfl, rfl⟩ | ⟨_, hd⟩
    · exact Or.inr (Or.inl ha)
    · refine role_of_same (SameRole.refl d) (hw.role b d hd hm)
        (fun hh => (hw.forwarder_cgiNc hd hm hh).cgiNc) ?_
      intro b' cb _ hcb hmb hgb
      exact ⟨cb, hold b' cb hcb, hmb, hgb⟩
  · intro b d g hd hm hgd
    rcases Heap.mem_put.mp hd with ⟨rfl, rfl⟩ | ⟨_, hd⟩
    · rw [hg] at hgd
      cases hgd
    · obtain ⟨cg, hcg, hrest⟩ := hw.link b d g hd hm hgd
      exact ⟨cg, hold g cg hcg, hrest⟩

/-- A fresh forwarder `cg` is put at `g` for the connection at `a`. -/
theorem Wired.forward (hw : Wired n t lc x) (hq : CutOff n a) (hc : n.heap a = some c)
    (ht : c.mgr = t) (hh : c.handler = .evHandler) (hfree : n.heap g = none) (hcd : SameRole c d)
    (hd : d.cgiNc = some g) (hmg : cg.mgr = t) (hhg : cg.handler = .mgCgiEvHandler)
    (hfg : cg.listener = none ∧ cg.flags.listening = false ∧ cg.protoHandler = none ∧
      cg.cgiNc = none) (hug : cg.userData = some (.connection a)) :
    Wired ((n.put g cg).put a d) t lc x := by
  have hag : a ≠ g := by
    intro hag
    rw [hag, hfree] at hc
    cases hc
  have hold : ∀ b cb, n.heap b = some cb → b ≠ a → ((n.put g cg).put a d).heap b = some cb := by
    intro b cb hcb hba
    refine (Heap.put_ne _ _ hba).trans ((Heap.put_ne _ _ ?_).trans hcb)
    intro hbg
    rw [hbg, hfree] at hcb
    cases hcb
  have hself : ((n.put g cg).put a d).heap a = some d := Heap.put_self _ _ _
  have hnew : ((n.put g cg).put a d).heap g = some cg :=
    (Heap.put_ne _ _ hag.symm).trans (Heap.put_self _ _ _)
  constructor
  · intro b e he hm
    rcases Heap.mem_put.mp he with ⟨rfl, rfl⟩ | ⟨hba, he⟩
    · rcases hw.role b c hc ht with hl | hac | hf
      · exact Or.inl ⟨hl.addr, hcd.listener.trans hl.listener, hcd.handler.trans hl.handler,
          hcd.listening.trans hl.listening, hcd.userData.trans hl.userData⟩
      · exact Or.inr (Or.inl ⟨hcd.listener.trans hac.listener, hcd.handler.trans hac.handler,
          hcd.listening.trans hac.listening, hcd.userData.trans hac.userData⟩)
      · rw [hf.handler] at hh
        cases hh
    · rcases Heap.mem_put.mp he with ⟨rfl, rfl⟩ | ⟨hbg, he⟩
      · refine Or.inr (Or.inr ⟨hfg.1, hhg, hfg.2.1, hfg.2.2.1, hfg.2.2.2, ?_⟩)
        intro v hv
        rw [hug] at hv
        injection hv with hv
        exact ⟨a, d, hv.symm, hself, (hcd.mgr.trans ht).trans hmg.symm, hd⟩
      · refine role_of_same (SameRole.refl e) (hw.role b e he hm)
          (fun hhe => (hw.forwarder_cgiNc he hm hhe).cgiNc) ?_
        intro b' cb hv hcb hmb hgb
        refine ⟨cb, hold b' cb hcb ?_, hmb, hgb⟩
        -- the old forwarder of `a` has no client any more
        intro hba'
        rw [hba'] at hcb
        have := hq cb b e hcb hgb he
        rw [this] at hv
        cases hv
  · intro b e g' he hm hge
    rcases Heap.mem_put.mp he with ⟨rfl, rfl⟩ | ⟨hba, he⟩
    · obtain rfl : g = g' := Option.some.inj (hd.symm.trans hge)
      exact ⟨cg, hnew, hmg, hhg, Or.inl hug⟩
    · rcases Heap.mem_put.mp he with ⟨rfl, rfl⟩ | ⟨hbg, he⟩
      · rw [hfg.2.2.2] at hge
        cases hge
      · obtain ⟨cg', hcg', hmg', hhg', hug'⟩ := hw.link b e g' he hm hge
        refine ⟨cg', hold g' cg' hcg' ?_, hmg', hhg', hug'⟩
        intro hga
        subst hga
        obtain rfl : c = cg' := Option.some.inj (hc.symm.trans hcg')
        rw [hh] at hhg'
        cases hhg'

end

end SimplestWeb.Mongoose
