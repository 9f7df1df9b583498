import SimplestWeb.Minimal.Lifetime

/-!
# Concurrent servers are isolated

All servers share `ev_handler`; which server's options it uses depends on
`nc->user_data` alone, copied from the listener when `nc` was accepted. At
every entry with `MG_EV_HTTP_REQUEST` — from a poll, from the last poll in
`mg_mgr_free` or while its connections are closed — the connection was
accepted by the thread that handles it, `user_data` leads to that thread's
options, the thread has not returned, and the document root is its own
(`request_isolated`). The reason is the order of set-up and tear-down, as
recorded in `WorkerOk` and `PcOk`: nothing is accepted before `user_data` is
set, and the thread does not leave `mg_mgr_free` before its connections are
gone.
-/

namespace SimplestWeb.Minimal

open SimplestWeb.Lib SimplestWeb.Mongoose
open Machine (Run)

variable {s s' : Sys} {l : Label} {os tr : List Event} {ls : List Label}

/-! ## Entries of the handler -/

/-- The connection `ev_handler` is about to be entered on, with
`MG_EV_HTTP_REQUEST`. -/
def Worker.entering (w : Worker) : Option ConnPtr :=
  match w.pc.mgPc with
  | some (.request _ nc _ _) => some nc
  | _ => none

/-- Thread `t` is about to enter `ev_handler` on `nc`. -/
def Enters (s : Sys) (t : Nat) (nc : ConnPtr) : Prop :=
  s.workers[t]?.bind Worker.entering = some nc

instance (s : Sys) (t : Nat) (nc : ConnPtr) : Decidable (Enters s t nc) :=
  inferInstanceAs (Decidable (_ = _))

theorem enters_iff {t : Nat} {nc : ConnPtr} : Enters s t nc ↔ ∃ w site tmp hm,
    s.workers[t]? = some w ∧ w.pc.mgPc = some (.request site nc tmp hm) := by
  unfold Enters
  rw [Option.bind_eq_some_iff]
  constructor
  · rintro ⟨w, hw, he⟩
    unfold Worker.entering at he
    split at he
    next site a tmp hm hpc =>
      obtain rfl := Option.some.inj he
      exact ⟨w, site, tmp, hm, hw, hpc⟩
    next => cases he
  · rintro ⟨w, site, tmp, hm, hw, hpc⟩
    refine ⟨w, hw, ?_⟩
    unfold Worker.entering
    rw [hpc]

/-- Inside a loop the thread is configured and the loop's invariant holds. -/
theorem WorkerOk.loop {n : Net} {t : Nat} {w : Worker} {pc : MgPc} (h : WorkerOk n t w)
    (hpc : w.pc.mgPc = some pc) :
    w.returned = false ∧ Configured t w ∧ ∃ lc, w.nc = some lc ∧ PcOk n t lc pc := by
  obtain ⟨portNo, wpc, opts, p, nc, startDir⟩ := w
  cases wpc with
  | poll pc' | freePoll pc' | freeClose pc' =>
    cases hpc
    exact ⟨rfl, h⟩
  | _ => cases hpc

/-- At the entry the connection is one accepted by the thread. -/
theorem pcOk_request {n : Net} {t : MgrPtr} {lc nc : ConnPtr} {site : Site}
    {tmp : Option ConnPtr} {hm : HttpMessage} (h : PcOk n t lc (.request site nc tmp hm)) :
    ∃ c, n.heap nc = some c ∧ c.mgr = t ∧ AcceptedConn t lc c := by
  have hw : ∃ x, Wired n t lc x ∧ Live n t nc ∧ IsAccepted n nc := by
    cases site with
    | recv closing => exact ⟨none, h.1.wired, h.1.live, h.2.1⟩
    | close => exact ⟨some nc, h.1.wired, h.1.live, h.2.1⟩
  obtain ⟨x, hw, ⟨c, hc, hct⟩, c', hc', hl⟩ := hw
  obtain rfl : c = c' := Option.some.inj (hc.symm.trans hc')
  exact ⟨c, hc, hct, hw.accepted hc hct hl⟩

/-- A step of the loop shows a request only where it enters the handler. -/
theorem mgStep_request {ws : List Worker} {kind : LoopKind} {n n' : Net} {t : Nat} {lc nc : ConnPtr}
    {pc pc' : MgPc} {env : Env} {evs : List MgEvent} (hpc : PcOk n t lc pc)
    (h : mgStep (evHandler ws) kind n t pc env = .ok (pc', n', evs)) (he : .request nc ∈ evs) :
    ∃ site tmp hm, pc = .request site nc tmp hm := by
  -- most steps of the loop show nothing
  have hquiet : ∀ {r : Except Fault (MgPc × Net)}, quiet r = .ok (pc', n', evs) → False := by
    intro r hr
    rw [(quiet_eq_ok.mp hr).2] at he
    exact List.not_mem_nil he
  cases pc with
  | visit a =>
    cases a with
    | none =>
      cases h
      exact absurd he List.not_mem_nil
    | some a => exact (hquiet h).elim
  | read a tmp =>
    simp only [mgStep, mgMgrHandleConn] at h
    split at h
    next =>
      cases pure_eq_ok.mp h
      exact absurd he List.not_mem_nil
    next =>
      obtain ⟨c, hc, h⟩ := seq_eq_ok.mp h
      split at h
      next =>
        obtain ⟨r, hr, h⟩ := seq_eq_ok.mp h
        cases pure_eq_ok.mp h
        simp at he
      next =>
        cases pure_eq_ok.mp h
        exact absurd he List.not_mem_nil
  | request site a tmp hm =>
    rw [(request_ok (evHandler_ok ws t lc) hpc h).2] at he
    cases List.mem_singleton.mp he
    exact ⟨site, tmp, hm, rfl⟩
  | recv | again | served | write | close | destroy => exact (hquiet h).elim

theorem runLoop_request {ws : List Worker} {kind : LoopKind} {k : MgPc → WorkerPc}
    {exit : WorkerPc} {n n' : Net} {t : Nat} {lc nc : ConnPtr} {w w' : Worker} {pc : MgPc} {env : Env}
    {evs : List WorkerEvent} (hpc : PcOk n t lc pc)
    (h : runLoop kind k exit ws t w n pc env = .ok (w', n', evs)) (he : .mg (.request nc) ∈ evs) :
    ∃ site tmp hm, pc = .request site nc tmp hm := by
  unfold runLoop at h
  split at h
  next =>
    cases h
    exact absurd he List.not_mem_nil
  next =>
    obtain ⟨r, hr, h⟩ := seq_eq_ok.mp h
    cases pure_eq_ok.mp h
    obtain ⟨e, hmem, heq⟩ := List.mem_map.mp he
    cases heq
    exact mgStep_request hpc hr hmem

/-- The trace shows a request only where the handler is entered. -/
theorem enters_of_request (hs : SysOk s) (hst : system.step s l = some (s', os)) {t : Nat}
    {nc : ConnPtr} (he : .worker t (.mg (.request nc)) ∈ os) : Enters s t nc := by
  rcases (step_moves hst).2.threads with ⟨-, -, hos⟩ | ⟨-, -, -, rfl⟩ |
    ⟨u, w, w', env, n', evs, hstep⟩
  · exact absurd he (hos _ _)
  · simp at he
  · obtain ⟨-, hw, hret, hst, -, rfl⟩ := hstep
    obtain ⟨e, hmem, heq⟩ := List.mem_map.mp he
    cases heq
    have hok := hs.threads.ok t w hw
    obtain ⟨portNo, pc, opts, p, wnc, startDir⟩ := w
    cases pc with
    | poll pc | freePoll pc | freeClose pc =>
      obtain ⟨_, lc, _, hpc⟩ := hok
      obtain ⟨site, tmp, hm, rfl⟩ := runLoop_request hpc hst hmem
      exact enters_iff.mpr ⟨_, site, tmp, hm, hw, rfl⟩
    | _ =>
      cases startWebServer_flow hret hst with
      | goOn _ _ hmg _ _ => exact absurd rfl (hmg _ hmem)
      | giveUp _ _ hevs | finish _ _ hevs =>
        rw [hevs] at hmem
        cases List.mem_singleton.mp hmem

/-- Different servers have different ports. -/
theorem ThreadsOk.portNo_ne {ws : List Worker} {n : Net} (h : ThreadsOk ws n) {t u : Nat}
    {w v : Worker} (hw : ws[t]? = some w) (hv : ws[u]? = some v) (htu : t ≠ u) :
    w.portNo ≠ v.portNo := by
  rw [h.portNo t w hw, h.portNo u v hv]
  exact fun heq => htu (portOf_inj heq)

/-- A number can be read off its digits. -/
theorem toDigits_inj {m n : Nat} (h : Nat.toDigits 10 m = Nat.toDigits 10 n) : m = n := by
  have hread : Nat.ofDigitChars 10 (Nat.toDigits 10 m) 0 =
      Nat.ofDigitChars 10 (Nat.toDigits 10 n) 0 := by rw [h]
  rw [Nat.ofDigitChars_ten_toDigits, Nat.ofDigitChars_ten_toDigits] at hread
  exact hread

/-- Different servers have different document roots. -/
theorem rootOf_portOf_inj {t u : Nat} (h : rootOf (portOf t) = rootOf (portOf u)) : t = u := by
  have hport := (String.append_right_inj _).mp h
  rw [toString_portOf, toString_portOf, Nat.toString_eq_repr, Nat.toString_eq_repr] at hport
  have hdigits := congrArg String.toList hport
  rw [Nat.toList_repr, Nat.toList_repr] at hdigits
  have := toDigits_inj hdigits
  omega

/-- **Every request is answered with the configuration of the server that
accepted its connection**, which is still running; and no two servers share a
port or a document root. -/
theorem request_isolated (h : system.Run ls s tr) :
    (∀ t nc, Enters s t nc → ∃ w c lc, s.workers[t]? = some w ∧ s.net.heap nc = some c ∧
      w.nc = some lc ∧ lastAccept tr nc = some (t, lc) ∧ c.handler = .evHandler ∧
      w.returned = false ∧ c.userData = some (.serveHttpOpts t) ∧
      derefOpts s.workers c.userData = .ok w.opts ∧
      documentRoot s.workers w.opts = .ok ("./web-" ++ toString w.portNo)) ∧
    (∀ (t u : Nat) (w v : Worker), s.workers[t]? = some w → s.workers[u]? = some v → t ≠ u →
      w.portNo ≠ v.portNo ∧ rootOf w.portNo ≠ rootOf v.portNo) := by
  have hs := (run_ok h).threads
  constructor
  · intro t nc henters
    obtain ⟨w, site, tmp, hm, hw, hpc⟩ := enters_iff.mp henters
    obtain ⟨hret, hcfg, lc, hlc, hpcok⟩ := (hs.ok t w hw).loop hpc
    obtain ⟨c, hc, hct, hacc⟩ := pcOk_request hpcok
    have hlast := (run_trace h).accepts nc c lc hc hacc.listener
    rw [hct] at hlast
    obtain ⟨hopts, hroot⟩ := hcfg.documentRoot hw hret
    refine ⟨w, c, lc, hw, hc, hlc, hlast, hacc.handler, hret, hacc.userData, ?_, hroot⟩
    rw [hacc.userData]
    exact hopts
  · intro t u w v hw hv htu
    refine ⟨hs.portNo_ne hw hv htu, fun heq => htu ?_⟩
    rw [hs.portNo t w hw, hs.portNo u v hv] at heq
    exact rootOf_portOf_inj heq

/-- A browser connects to server `t` and sends `bs`: the steps of the thread from the
branch on its listener until it has read that from the connection `nc`. -/
def connectAndReceive (t : Nat) (nc : ConnPtr) (bs : Bytes) : List Label :=
  List.replicate 8 (.worker t {}) ++ .worker t { canRead := true, accept := some nc } ::
    List.replicate 4 (.worker t {}) ++
    [.worker t { canRead := true }, .worker t { recv := .bytes bs }]

/-- … and to its entry into `ev_handler`. -/
def connectAndRequest (t : Nat) (nc : ConnPtr) (bs : Bytes) : List Label :=
  connectAndReceive t nc bs ++ [.worker t {}]

/-- Two servers, each with a request that has just arrived: the second one is started while
`ev_handler` is about to be entered by the first one. -/
def requestBoth (bs : Bytes) : List Label :=
  clickAndBind { calloc := some 1, listenOk := true } ++ connectAndRequest 0 2 bs ++
    secondClickAndBind { calloc := some 3, listenOk := true } ++ connectAndRequest 1 4 bs

/-- The first requests to two servers, both in `ev_handler` at once. -/
theorem request_isolated_two_servers :
    ∃ s tr c d, system.Run (requestBoth (cstr "GET / HTTP/1.1\r\n\r\n")) s tr ∧
      Enters s 0 2 ∧ lastAccept tr 2 = some (0, 1) ∧ s.net.heap 2 = some c ∧
      c.userData = some (.serveHttpOpts 0) ∧
      Enters s 1 4 ∧ lastAccept tr 4 = some (1, 3) ∧ s.net.heap 4 = some d ∧
      d.userData = some (.serveHttpOpts 1) := by
  obtain ⟨s, tr, hrun, h₀, haccept₀, h₁, haccept₁⟩ := Machine.exists_run_of_check (M := system)
    (requestBoth (cstr "GET / HTTP/1.1\r\n\r\n"))
    (fun s tr => Enters s 0 2 ∧ lastAccept tr 2 = some (0, 1) ∧ Enters s 1 4 ∧
      lastAccept tr 4 = some (1, 3)) (by decide +kernel)
  obtain ⟨w, c, lc, hw, hc, hlc, hlast, hh, hret, hu, hrest⟩ := (request_isolated hrun).1 0 2 h₀
  obtain ⟨v, d, ld, hv, hd, hld, hlast', hh', hret', hu', hrest'⟩ :=
    (request_isolated hrun).1 1 4 h₁
  exact ⟨s, tr, c, d, hrun, h₀, haccept₀, hc, hu, h₁, haccept₁, hd, hu'⟩

end SimplestWeb.Minimal
