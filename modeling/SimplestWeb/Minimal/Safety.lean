import SimplestWeb.Mongoose.LoopSafe
import SimplestWeb.Minimal.Lifetime

/-!
# The servers do not fail

Nothing in the program checks a pointer before it is followed: `ev_handler`
goes through `nc->user_data` into the locals of a thread, mongoose through
`nc->listener`, `next` and `cgi_nc`. In no run is any of these dangling
(`memory_safe`). Of the faults the model has, what remains is known exactly
(`Cause`, `no_fault_iff`): an allocation that mongoose does not check, whatever
goes wrong inside `mg_serve_http`, an exception of `operator[]` over a joinable
thread, and `startPortNo` at `INT_MAX`.

For the listener this rests on `PcSafe`; the same invariant shows that a
server, once started, listens until `MyApp::OnExit` (`listener_stays`).
-/

namespace SimplestWeb.Minimal

open SimplestWeb.Lib SimplestWeb.Mongoose
open Machine (Run)

/-! ## `ev_handler` -/

section

variable {ws : List Worker} {n n' : Net} {t : Nat} {lc : ConnPtr} {w w' : Worker} {env : WorkerEnv}
  {stopIt : Bool} {kind : LoopKind} {E : Fault → Prop}

/-- On a connection of its own thread `ev_handler` returns, unless `mg_serve_http`
fails. -/
theorem evHandler_safe (hw : ws[t]? = some w) (hret : w.returned = false) (hcfg : Configured t w) :
    UserSafe (evHandler ws) t lc := by
  intro n nc fx c hc ht hac hpd hm
  rw [(hcfg.evHandler hw hret hc hac.userData).2 fx]
  exact mgServeHttp_steady hc ht hm hac.listening hpd

/-- … and it does fail as `mg_serve_http` does. -/
theorem evHandler_fails (hw : ws[t]? = some w) (hret : w.returned = false) (hcfg : Configured t w) :
    UserFails (evHandler ws) t lc := by
  intro n nc fx c f hc ht hac hpd hf
  rw [(hcfg.evHandler hw hret hc hac.userData).2 fx]
  exact mgServeHttp_fails hc hf

/-! ## `::StartWebServer` -/

/-- The listener is ready to be polled. -/
structure Polled (n : Net) (t : Nat) (lc : ConnPtr) : Prop where
  tidy : Tidy n t none
  last : ListenerLast .poll n t lc

/-- What keeps a thread from failing, beside its proof outline. -/
def WorkerSafe (n : Net) (t : Nat) (w : Worker) : Prop :=
  match w.pc with
  | .start | .mgrInit | .toString | .bind => w.nc = none
  | .check | .startDir | .setProtocol | .documentRoot | .directoryListing | .userData | .test |
    .freeCtl => ∀ lc, w.nc = some lc → Polled n t lc
  | .poll pc | .freePoll pc => ∀ lc, w.nc = some lc → PcSafe .poll n t lc pc
  | .freeClose pc => ∀ lc, w.nc = some lc → PcSafe .free n t lc pc
  | .freeIfaces | .ret | .done _ => True

/-- How the next step of a thread fails: the manager's interfaces cannot be
allocated, or a step of the event loop fails. -/
def Worker.Fails (w : Worker) (n : Net) (env : WorkerEnv) (f : Fault) : Prop :=
  w.pc = .mgrInit ∧ env.ifaces = false ∧ f = .nullDeref ∨
    ∃ pc, w.pc.mgPc = some pc ∧ pc.Fails n env.toEnv f

/-- `mg_bind` leaves the listener ready to be polled. -/
theorem mgBind_safe {p : String} {env : BindEnv} (hv : Vacant n t) (ha : n.active t = [])
    (hm : (n.mgrs t).isSome) :
    Outcome E (fun r => ∀ lc, r.1 = some lc → Polled r.2 t lc) (mgBind n t p .evHandler env) := by
  unfold mgBind
  split
  next =>
    intro lc hlc
    cases hlc
  next =>
    split
    next =>
      intro lc hlc
      cases hlc
    next nc hnc =>
      split
      next =>
        have hfree := (Net.malloc_eq_some.mp hnc).2
        refine Outcome.bind ((mgAddConn_steady (t := t) (c := listeningConn t .evHandler) hfree rfl
          hm rfl rfl).and_ok fun n₁ h₁ => mgAddConn_spec (t := t) hfree rfl h₁) ?_
        intro n₁ _ h₁
        obtain ⟨⟨hs, hheap⟩, -, -, hact⟩ := h₁
        intro lc hlc
        obtain rfl : nc = lc := Option.some.inj hlc
        have hself : n₁.heap nc = some (listeningConn t .evHandler) := by
          rw [hheap]
          exact Heap.put_self _ _ _
        have hT : Tidy n t none :=
          ⟨fun a c hc hct _ => absurd hct (hv a c hc), fun a c hc hct _ => absurd hct (hv a c hc)⟩
        refine ⟨hs.tidy hT, ⟨_, hself, rfl, rfl, ?_, rfl, fun _ => rfl⟩, [], ?_⟩
        · exact (Option.some_ne_none _).symm
        · show n₁.active t = _
          rw [hact, ha]
          rfl
      next =>
        intro lc hlc
        cases hlc

theorem forall_some {P : ConnPtr → Prop} (h : P lc) : ∀ lc', some lc = some lc' → P lc' := by
  intro lc' heq
  rw [← Option.some.inj heq]
  exact h

/-- A setting of the listener that leaves its flags and its buffer alone. -/
theorem Polled.modify (hp : Polled n t lc) {f : MgConnection → MgConnection}
    (hf : ∀ c, (f c).mgr = c.mgr ∧ (f c).flags = c.flags ∧ (f c).recvMbuf = c.recvMbuf ∧
      (f c).protoData = c.protoData)
    (hws : ∀ c, c.protoHandler ≠ some .mgWsHandler → (f c).protoHandler ≠ some .mgWsHandler) :
    Outcome E (fun n' => Polled n' t lc) (n.modify lc f) := by
  obtain ⟨c, hc, ho⟩ := hp.last.conn
  obtain ⟨hfm, hff, hfb, hfd⟩ := hf c
  refine modify_outcome hc ⟨?_, ⟨f c, Heap.put_self _ _ _, ?_⟩, hp.last.last⟩
  · refine (hp.tidy.mono _).put (fun _ => noMessage_nil (hfb.trans ho.recvMbuf)) ?_
    rw [hfd, hff]
    exact hp.tidy.plain lc c hc ho.mgr
  · refine ⟨hfm.trans ho.mgr, ?_, hws c ho.protoHandler, hfb.trans ho.recvMbuf, ?_⟩
    · rw [hff]
      exact ho.listening
    · rw [hff]
      exact ho.flags

theorem mgLoopStart_outcome {Q : MgPc → Prop} (hm : (n.mgrs t).isSome)
    (h : ∀ a, Q (.visit a)) : Outcome E Q (mgLoopStart n t) := by
  obtain ⟨m, hm⟩ := Option.isSome_iff_exists.mp hm
  unfold mgLoopStart
  refine Outcome.bind (P := fun _ => True) ?_ fun _ _ _ => h _
  rw [Net.derefMgr_eq_ok.mpr hm]
  exact trivial

/-- A step inside one of the loops, or its end. -/
theorem runLoop_safe {k : MgPc → WorkerPc} {exit : WorkerPc} {pc : MgPc}
    (hu : UserSafe (evHandler ws) t lc) (hpc : PcOk n t lc pc) (hs : PcSafe kind n t lc pc)
    (hm : (n.mgrs t).isSome) (hw : w.pc.mgPc = some pc)
    (hk : ∀ {n pc}, PcSafe kind n t lc pc → WorkerSafe n t { w with pc := k pc })
    (hexit : PcSafe kind n t lc (.visit none) → WorkerSafe n t { w with pc := exit }) :
    Outcome (fun f => w.Fails n env f) (fun r => WorkerSafe r.2.1 t r.1)
      (runLoop kind k exit ws t w n pc env.toEnv) := by
  unfold runLoop
  split
  next hend =>
    subst hend
    exact hexit hs
  next =>
    refine Outcome.bind ((mgStep_safe hu hpc hs hm).mono ?_ fun _ h => h) ?_
    · intro f hf
      exact Or.inr ⟨pc, hw, hf⟩
    · intro r _ hr
      exact hk hr

/-- **A thread does not fail** but in the ways named. -/
theorem startWebServer_safe (hok : WorkerOk n t w) (hs : WorkerSafe n t w)
    (hmgr : (n.mgrs t).isSome = w.pc.holdsMgr) (hw : ws[t]? = some w) (hret : w.returned = false) :
    Outcome (fun f => w.Fails n env f) (fun r => WorkerSafe r.2.1 t r.1)
      (startWebServer stopIt ws t w n env) := by
  have huser : ∀ {lc}, Configured t w → UserSafe (evHandler ws) t lc := fun hcfg =>
    evHandler_safe hw hret hcfg
  obtain ⟨portNo, pc, opts, p, nc, startDir⟩ := w
  cases pc with
  | start | toString => exact hs
  | mgrInit =>
    refine Outcome.bind (P := fun _ => True) ?_ fun _ _ _ => hs
    unfold mgMgrInit
    split
    next => exact trivial
    next hifaces => exact Or.inl ⟨rfl, eq_false_of_ne_true hifaces, rfl⟩
  | bind =>
    obtain ⟨hv, ha, -⟩ := hok
    refine Outcome.bind (mgBind_safe hv ha hmgr) ?_
    intro r _ hr
    exact hr
  | check =>
    cases nc with
    | none => exact trivial
    | some lc => exact hs
  | startDir | documentRoot | directoryListing => exact hs
  | setProtocol =>
    obtain ⟨-, lc, rfl, -⟩ := hok
    refine Outcome.bind ((hs lc rfl).modify (f := MgConnection.mgSetProtocolHttpWebsocket)
      (fun _ => ⟨rfl, rfl, rfl, rfl⟩) (fun _ _ h => by cases h)) ?_
    intro n₁ _ hn
    exact forall_some hn
  | userData =>
    obtain ⟨-, lc, rfl, -⟩ := hok
    refine Outcome.bind ((hs lc rfl).modify (f := (·.setUserData (.serveHttpOpts t)))
      (fun _ => ⟨rfl, rfl, rfl, rfl⟩) (fun _ h => h)) ?_
    intro n₁ _ hn
    exact forall_some hn
  | test =>
    refine Outcome.bind (mgLoopStart_outcome (Q := fun pc => ∀ lc, nc = some lc →
      PcSafe .poll n t lc pc) hmgr ?_) ?_
    · intro a lc hlc
      exact visit_safe (hs lc hlc).tidy (hs lc hlc).last
    · intro pc _ hpc
      cases stopIt with
      | true => exact hpc
      | false => exact hpc
  | poll pc =>
    obtain ⟨hcfg, lc, rfl, hpc⟩ := hok
    refine runLoop_safe (huser hcfg) hpc (hs lc rfl) hmgr rfl ?_ ?_
    · intro n₁ pc₁ h
      exact forall_some h
    · intro h
      exact forall_some ⟨h.1, h.2 rfl⟩
  | freePoll pc =>
    obtain ⟨hcfg, lc, rfl, hpc⟩ := hok
    refine runLoop_safe (huser hcfg) hpc (hs lc rfl) hmgr rfl ?_ ?_
    · intro n₁ pc₁ h
      exact forall_some h
    · intro h
      exact forall_some ⟨h.1, h.2 rfl⟩
  | freeCtl =>
    obtain ⟨m, hm⟩ := Option.isSome_iff_exists.mp hmgr
    refine Outcome.bind (P := fun m' => m' = m) ?_ ?_
    · rw [Net.derefMgr_eq_ok.mpr hm]
      rfl
    · rintro m' - rfl
      have hact := active_putCtl hm false
      refine Outcome.bind (mgLoopStart_outcome (Q := fun pc => ∀ lc, nc = some lc →
        PcSafe .free (n.putMgr t { m' with ctl := false }) t lc pc) ?_ ?_) ?_
      · rw [Net.putMgr_mgrs, Heap.put_self]
        rfl
      · intro a lc hlc
        obtain ⟨c, hc, ho⟩ := (hs lc hlc).last.conn
        refine visit_safe ((hs lc hlc).tidy.of_heap rfl) ⟨⟨c, hc, ho.mgr, ho.listening,
          ho.protoHandler, ho.recvMbuf, fun hk => by cases hk⟩, ?_⟩
        rw [hact]
        exact (hs lc hlc).last.last
      · intro pc _ hpc
        exact hpc
  | freeClose pc =>
    obtain ⟨hcfg, lc, rfl, hpc⟩ := hok
    refine runLoop_safe (huser hcfg) hpc (hs lc rfl) hmgr rfl ?_ ?_
    · intro n₁ pc₁ h
      exact forall_some h
    · intro _
      exact trivial
  | freeIfaces | ret => exact trivial
  | done v => cases hret

/-- … and in these ways it does fail. -/
theorem startWebServer_fails {f : Fault} (hok : WorkerOk n t w) (hs : WorkerSafe n t w)
    (hw : ws[t]? = some w) (hret : w.returned = false) (hf : w.Fails n env f) :
    startWebServer stopIt ws t w n env = .error f := by
  rcases hf with ⟨hpc, hifaces, rfl⟩ | ⟨pc, hpc, hf⟩
  · unfold startWebServer
    rw [hpc]
    dsimp only
    rw [mgMgrInit, if_neg (ne_true_of_eq_false hifaces)]
    rfl
  have hend : pc ≠ .visit none := by
    rintro rfl
    exact hf
  have hloop : ∀ {kind : LoopKind} {k exit lc}, Configured t w → PcOk n t lc pc →
      PcSafe kind n t lc pc → runLoop kind k exit ws t w n pc env.toEnv = .error f := by
    intro kind k exit lc hcfg hpcok hpcs
    unfold runLoop
    rw [if_neg hend, mgStep_fails (evHandler_fails hw hret hcfg) hpcok hpcs hf]
    rfl
  obtain ⟨portNo, wpc, opts, p, nc, startDir⟩ := w
  cases wpc with
  | poll pc' | freePoll pc' | freeClose pc' =>
    obtain rfl := Option.some.inj hpc
    obtain ⟨hcfg, lc, rfl, hpcok⟩ := hok
    exact hloop hcfg hpcok (hs lc rfl)
  | _ => cases hpc

end

/-! ## Steps of other threads -/

section OtherThread

variable {t u : MgrPtr} {n n' : Net} {lc : ConnPtr}

/-- The others do not disturb a listener. -/
theorem Polled.other (hp : Polled n u lc) (h : NetFrame t n n') (hu : u ≠ t) : Polled n' u lc :=
  ⟨h.tidy hu hp.tidy, h.listenerLast hu hp.last⟩

/-- … nor a thread. -/
theorem WorkerSafe.other {w : Worker} (hs : WorkerSafe n u w) (hok : WorkerOk n u w)
    (h : NetFrame t n n') (hu : u ≠ t) : WorkerSafe n' u w := by
  obtain ⟨portNo, pc, opts, p, nc, startDir⟩ := w
  cases pc with
  | start | mgrInit | toString | bind => exact hs
  | check | startDir | setProtocol | documentRoot | directoryListing | userData | test | freeCtl =>
    exact fun lc hlc => (hs lc hlc).other h hu
  | poll pc | freePoll pc | freeClose pc =>
    obtain ⟨-, lc, rfl, hpc⟩ := hok
    exact forall_some (h.pcSafe hu hpc (hs lc rfl))
  | freeIfaces | ret | done v => exact trivial

end OtherThread

/-! ## Along the run -/

section

variable {s s' : Sys} {l : Label} {os tr : List Event} {ls : List Label}

/-- Every thread is safe. -/
def Sys.Safe (s : Sys) : Prop :=
  ∀ (t : Nat) (w : Worker), s.workers[t]? = some w → WorkerSafe s.net t w

/-- **Every step keeps the threads from failing.** -/
theorem Sys.Safe.step (h : s.Safe) (hs : SysOk s) (hm : Moves s l s' os) : s'.Safe := by
  rcases hm.threads with ⟨hws, hn, -⟩ | ⟨hws, hn, -, -⟩ | ⟨t, w, w', env, n', evs, hstep⟩
  · intro t w hw
    rw [hws] at hw
    rw [hn]
    exact h t w hw
  · intro t w hw
    rw [hws] at hw
    rw [hn]
    rcases getElem?_snoc_cases hw with hw | ⟨-, rfl⟩
    · exact h t w hw
    · rfl
  · obtain ⟨-, hw, hret, hst, rfl, -⟩ := hstep
    have hok := hs.threads.ok t w hw
    have hmgr := hs.threads.mgr t w hw
    intro u v hv
    rcases getElem?_set_cases hv with ⟨rfl, rfl⟩ | ⟨hu, hv⟩
    · exact (startWebServer_safe hok (h _ w hw) hmgr hw hret).of_ok hst
    · exact (h u v hv).other (hs.threads.ok u v hv) (startWebServer_ok hok hmgr hret hst).frame hu

/-- … and so does every run. -/
theorem run_safe (h : system.Run ls s tr) : s.Safe := by
  refine Run.induct (P := fun _ s _ => s.Safe) ?_ ?_ h
  · intro t w hw
    simp [system] at hw
  · intro ls s tr l s' os hrun ih hst
    exact ih.step (run_ok hrun) (step_moves hst).2

/-! ## What can go wrong -/

/-- Why a step of the program ends in a fault. -/
inductive Cause (s : Sys) : Label → Fault → Prop
  /-- `mg_mgr_init` cannot allocate the interfaces -/
  | interfaces {t : Nat} {env : WorkerEnv} {w : Worker} (hw : s.workers[t]? = some w)
      (hpc : w.pc = .mgrInit) (hifaces : env.ifaces = false) : Cause s (.worker t env) .nullDeref
  /-- `mg_http_handler` cannot allocate the proto data of a complete request -/
  | protoData {t : Nat} {env : WorkerEnv} {w : Worker} {nc : ConnPtr} {tmp : Option ConnPtr}
      {closing : Bool} {c : MgConnection} {len : Nat} {hm : HttpMessage}
      (hw : s.workers[t]? = some w) (hpc : w.pc.mgPc = some (.again nc tmp closing))
      (hc : s.net.heap nc = some c)
      (hparse : mgParseHttp c.recvMbuf c.listener.isSome = .complete len hm)
      (hcalloc : env.callocOk = false) : Cause s (.worker t env) .nullDeref
  /-- `mg_handle_cgi` cannot allocate its forwarder -/
  | forwarder {t : Nat} {env : WorkerEnv} {w : Worker} {site : Site} {nc : ConnPtr}
      {tmp : Option ConnPtr} {hm : HttpMessage} (hw : s.workers[t]? = some w)
      (hpc : w.pc.mgPc = some (.request site nc tmp hm)) (hundefined : env.fx.undefined = false)
      (hcgi : env.fx.cgi ≠ none) (hmalloc : s.net.malloc env.fx.cgi = none) :
      Cause s (.worker t env) .nullDeref
  /-- something goes wrong inside `mg_serve_http` -/
  | serveHttp {t : Nat} {env : WorkerEnv} {w : Worker} {site : Site} {nc : ConnPtr}
      {tmp : Option ConnPtr} {hm : HttpMessage} (hw : s.workers[t]? = some w)
      (hpc : w.pc.mgPc = some (.request site nc tmp hm)) (hundefined : env.fx.undefined = true) :
      Cause s (.worker t env) .serveHttp
  /-- `operator[]` throws while a temporary holds the new thread -/
  | assignThrows {t : Nat} (hui : s.ui = .assign t) : Cause s .assignThrows .stdTerminate
  /-- `startPortNo++` overflows -/
  | overflow (hui : s.ui = .increment) (hp : s.startPortNo = INT_MAX) :
      Cause s .increment .signedOverflow

/-- No dangling pointer is among the causes, and no user data of the wrong type. -/
theorem Cause.ne {f : Fault} (h : Cause s l f) : f ≠ .useAfterFree ∧ f ≠ .badCast := by
  cases h <;> decide

/-- A failing statement is one of the causes. -/
theorem Worker.Fails.cause {t : Nat} {w : Worker} {env : WorkerEnv} {f : Fault}
    (hw : s.workers[t]? = some w) (h : w.Fails s.net env f) : Cause s (.worker t env) f := by
  rcases h with ⟨hpc, hifaces, rfl⟩ | ⟨pc, hpc, hf⟩
  · exact .interfaces hw hpc hifaces
  · cases pc with
    | again nc tmp closing =>
      obtain ⟨rfl, hcalloc, c, len, hm, hc, hparse⟩ := hf
      exact .protoData hw hpc hc hparse hcalloc
    | request site nc tmp hm =>
      rcases hf with ⟨rfl, hu⟩ | ⟨rfl, hu, hcgi, hmal⟩
      · exact .serveHttp hw hpc hu
      · exact .forwarder hw hpc hu hcgi hmal
    | visit | read | recv | served | write | close | destroy => exact hf.elim

/-- Why a step of a thread ends in a fault. -/
theorem Cause.fails {t : Nat} {env : WorkerEnv} {f : Fault} (h : Cause s (.worker t env) f) :
    ∃ w, s.workers[t]? = some w ∧ w.Fails s.net env f := by
  cases h with
  | interfaces hw hpc hifaces => exact ⟨_, hw, Or.inl ⟨hpc, hifaces, rfl⟩⟩
  | protoData hw hpc hc hparse hcalloc =>
    exact ⟨_, hw, Or.inr ⟨_, hpc, rfl, hcalloc, _, _, _, hc, hparse⟩⟩
  | forwarder hw hpc hu hcgi hmal => exact ⟨_, hw, Or.inr ⟨_, hpc, Or.inr ⟨rfl, hu, hcgi, hmal⟩⟩⟩
  | serveHttp hw hpc hu => exact ⟨_, hw, Or.inr ⟨_, hpc, Or.inl ⟨rfl, hu⟩⟩⟩

/-- **A step ends in a fault exactly if it has a cause.** -/
theorem fault_cases (h : system.Run ls s tr) (hm : Moves s l s' os) :
    s'.fault = s.fault ∧ (∀ f, ¬ Cause s l f) ∨ ∃ f, s'.fault = some f ∧ Cause s l f := by
  have hs := run_ok h
  cases hm with
  | terminate hui hk =>
    rw [(hs.ui.assign hui).2.1, (hs.ui.assign hui).2.2.fresh] at hk
    cases hk
  | assignThrows hui => exact Or.inr ⟨_, rfl, .assignThrows hui⟩
  | overflow hui hp => exact Or.inr ⟨_, rfl, .overflow hui hp⟩
  | increment hui hp =>
    refine Or.inl ⟨rfl, ?_⟩
    rintro f ⟨⟩
    exact hp ‹_›
  | @worker t w w' env n' evs hw hret hst =>
    refine Or.inl ⟨rfl, ?_⟩
    intro f hf
    obtain ⟨v, hv, hf⟩ := hf.fails
    obtain rfl : w = v := Option.some.inj (hw.symm.trans hv)
    rw [startWebServer_fails (hs.threads.ok t w hw) (run_safe h t w hw) hw hret hf] at hst
    cases hst
  | @fault t w env f hw hret hst =>
    have hf := (startWebServer_safe (hs.threads.ok t w hw) (run_safe h t w hw)
      (hs.threads.mgr t w hw) hw hret).of_error hst
    exact Or.inr ⟨f, rfl, Worker.Fails.cause hw hf⟩
  | construct | throw | assign | status | onExit | join | skip | exit =>
    exact Or.inl ⟨rfl, fun _ hf => by cases hf⟩

/-- **A fault is the last thing to happen, and has a cause**: no run follows a
dangling pointer, or takes user data for what it is not. -/
theorem memory_safe (h : system.Run ls s tr) : s.fault = none ∨
    ∃ ls₀ l s₀ tr₀ f, ls = ls₀ ++ [l] ∧ system.Run ls₀ s₀ tr₀ ∧ s₀.fault = none ∧
      s.fault = some f ∧ Cause s₀ l f ∧ f ≠ .useAfterFree ∧ f ≠ .badCast := by
  refine Run.induct (P := fun ls s _ => s.fault = none ∨
    ∃ ls₀ l s₀ tr₀ f, ls = ls₀ ++ [l] ∧ system.Run ls₀ s₀ tr₀ ∧ s₀.fault = none ∧
      s.fault = some f ∧ Cause s₀ l f ∧ f ≠ .useAfterFree ∧ f ≠ .badCast) ?_ ?_ h
  · exact Or.inl rfl
  · intro ls s tr l s' os hrun _ hst
    obtain ⟨hnone, hm⟩ := step_moves hst
    rcases fault_cases hrun hm with ⟨hf, -⟩ | ⟨f, hf, hc⟩
    · exact Or.inl (hf.trans hnone)
    · exact Or.inr ⟨ls, l, s, tr, f, rfl, hrun, hnone, hf, hc, hc.ne⟩

/-- The new thread is lost to an exception of `operator[]`. -/
theorem memory_safe_assignThrows :
    ∃ s tr, system.Run [.click true, .assignThrows] s tr ∧ s.fault = some .stdTerminate ∧
      (s.fault = none ∨ ∃ ls₀ l s₀ tr₀ f, [.click true, .assignThrows] = ls₀ ++ [l] ∧
        system.Run ls₀ s₀ tr₀ ∧ s₀.fault = none ∧ s.fault = some f ∧ Cause s₀ l f ∧
        f ≠ .useAfterFree ∧ f ≠ .badCast) := by
  obtain ⟨s, tr, hrun, hf⟩ := Machine.exists_run_of_check (M := system)
    [.click true, .assignThrows] (fun s _ => s.fault = some .stdTerminate) (by decide)
  exact ⟨s, tr, hrun, hf, memory_safe hrun⟩

/-- **A run is free of faults if and only if** none of its steps has a cause of one. -/
theorem no_fault_iff (h : system.Run ls s tr) :
    s.fault = none ↔ system.Avoids (fun s l => ∃ f, Cause s l f) ls := by
  refine Run.avoids_iff (P := fun s => s.fault = none) rfl ?_ h
  intro ls s tr l s' os hrun hst
  obtain ⟨hnone, hm⟩ := step_moves hst
  rcases fault_cases hrun hm with ⟨hf, hnot⟩ | ⟨f, hf, hc⟩
  · exact iff_of_true (hf.trans hnone) ⟨hnone, fun ⟨f, hf⟩ => hnot f hf⟩
  · refine iff_of_false ?_ fun hn => hn.2 ⟨f, hc⟩
    rw [hf]
    exact Option.some_ne_none _

theorem no_fault_iff_one_server :
    ∃ s tr, system.Run (clickAndBind { calloc := some 1, listenOk := true } ++ setUpAndExit) s tr ∧
      s.fault = none ∧
      (s.fault = none ↔ system.Avoids (fun s l => ∃ f, Cause s l f)
        (clickAndBind { calloc := some 1, listenOk := true } ++ setUpAndExit)) := by
  obtain ⟨s, tr, hrun, hf⟩ := Machine.exists_run_of_check (M := system)
    (clickAndBind { calloc := some 1, listenOk := true } ++ setUpAndExit)
    (fun s _ => s.fault = none) (by decide)
  exact ⟨s, tr, hrun, hf, no_fault_iff hrun⟩

/-! ## Servers stay up -/

theorem PcSafe.listenerLast {n : Net} {t : MgrPtr} {lc : ConnPtr} {pc : MgPc}
    (h : PcSafe .poll n t lc pc) : ListenerLast .poll n t lc := by
  cases pc with
  | visit a =>
    cases a with
    | none => exact h.2 rfl
    | some a => exact h.2
  | read | write | recv | again | served | close => exact h.1.last
  | request site a tmp hm =>
    cases site with
    | recv closing => exact h.1.last
    | close => exact h.1.last h.2.1
  | destroy a tmp => exact h.last (h.way rfl)

/-- **Until `MyApp::OnExit` a server listens**: the listener `mg_bind` has returned
is alive, in the list of its manager and not marked for closing. -/
theorem listener_stays (h : system.Run ls s tr) (hstop : s.stopIt = false) {t : Nat} {w : Worker}
    {lc : ConnPtr} (hw : s.workers[t]? = some w) (hlc : w.nc = some lc) :
    ∃ c, s.net.heap lc = some c ∧ c.mgr = t ∧ c.flags = { listening := true } ∧
      lc ∈ s.net.active t := by
  have hok := (run_ok h).threads.ok t w hw
  have hs := run_safe h t w hw
  have hcalm := (run_ok h).calm hstop t w hw
  have hL : ListenerLast .poll s.net t lc := by
    obtain ⟨portNo, pc, opts, p, nc, startDir⟩ := w
    cases pc with
    | start | mgrInit | toString | bind =>
      rw [show nc = none from hs] at hlc
      cases hlc
    | check | startDir | setProtocol | documentRoot | directoryListing | userData | test =>
      exact (hs lc hlc).last
    | poll pc => exact PcSafe.listenerLast (hs lc hlc)
    | freePoll pc | freeCtl | freeClose pc | freeIfaces | ret => cases hcalm
    | done v =>
      rcases hok with ⟨rfl, -⟩ | ⟨-, hnone⟩
      · cases hcalm
      · rw [show nc = none from hnone] at hlc
        cases hlc
  obtain ⟨c, hc, ho⟩ := hL.conn
  obtain ⟨k, hk⟩ := hL.last
  exact ⟨c, hc, ho.mgr, ho.flags rfl, by rw [hk]; simp⟩

theorem listener_stays_one_server :
    ∃ s tr w, system.Run (clickAndBind { calloc := some 1, listenOk := true } ++
        .status :: List.replicate 8 (.worker 0 {})) s tr ∧
      s.workers[0]? = some w ∧ w.nc = some 1 ∧
      ∃ c, s.net.heap 1 = some c ∧ c.mgr = 0 ∧ c.flags = { listening := true } ∧
        1 ∈ s.net.active 0 := by
  obtain ⟨s, tr, hrun, hstop, hnc⟩ := Machine.exists_run_of_check (M := system)
    (clickAndBind { calloc := some 1, listenOk := true } ++ .status :: List.replicate 8 (.worker 0 {}))
    (fun s _ => s.stopIt = false ∧ s.workers[0]?.bind Worker.nc = some 1) (by decide)
  obtain ⟨w, hw, hlc⟩ := Option.bind_eq_some_iff.mp hnc
  exact ⟨s, tr, w, hrun, hw, hlc, listener_stays hrun hstop hw hlc⟩

end

end SimplestWeb.Minimal
