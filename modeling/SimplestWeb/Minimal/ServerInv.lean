import SimplestWeb.Minimal.Server
import SimplestWeb.Mongoose.LoopInv

/-!
# What holds at each statement of a server thread

`WorkerOk n t w` is the proof outline of `::StartWebServer`: which of the
thread's connections exist, what its locals hold, and inside the loops of
mongoose the loop invariant `PcOk`. The manager is accounted for by the
program counter alone: `inits` and `frees` say how often it has been
initialised and freed, and it exists exactly between the two
(`holdsMgr`) — which includes the end of the path `return -1`.

`startWebServer_ok` is the step lemma; `WorkerOk.other` says that a thread's
outline is not disturbed by the steps of another thread.
-/

namespace SimplestWeb.Minimal

open SimplestWeb.Lib (Heap)
open SimplestWeb.Mongoose

/-- The document root of the server on port `k`. -/
def rootOf (k : Int) : String := "./web-" ++ toString k

/-- How often the thread has initialised its manager. -/
def WorkerPc.inits : WorkerPc → Nat
  | .start | .mgrInit => 0
  | _ => 1

/-- How often the thread has freed its manager. -/
def WorkerPc.frees : WorkerPc → Nat
  | .ret => 1
  | .done v => if v = 0 then 1 else 0
  | _ => 0

/-- The manager is initialised and not freed. -/
def WorkerPc.holdsMgr (pc : WorkerPc) : Bool := decide (pc.frees < pc.inits)

/-- Manager `t` has no connection. -/
def Vacant (n : Net) (t : MgrPtr) : Prop := ∀ a c, n.heap a = some c → c.mgr ≠ t

/-- The listener `lc` is the only connection of `t`; its user data may not be
set yet. -/
structure Bound (n : Net) (t : MgrPtr) (lc : ConnPtr) : Prop where
  only : ∀ a c, n.heap a = some c → c.mgr = t → a = lc ∧ c.listener = none ∧
    c.handler = .evHandler ∧ c.flags.listening = true ∧ c.cgiNc = none
  live : Live n t lc
  active : n.active t = [lc]

/-- The options of thread `t` lead to its document root. -/
def Configured (t : Nat) (w : Worker) : Prop :=
  w.startDir = some (rootOf w.portNo) ∧ w.opts.documentRoot = some (.startDir t)

/-- Following `user_data` to the document root, as `ev_handler` does. -/
theorem Configured.documentRoot {ws : List Worker} {t : Nat} {w : Worker} (h : Configured t w)
    (hw : ws[t]? = some w) (hret : w.returned = false) :
    derefOpts ws (some (.serveHttpOpts t)) = .ok w.opts ∧
      documentRoot ws w.opts = .ok (rootOf w.portNo) := by
  obtain ⟨hdir, hroot⟩ := h
  constructor
  · simp [derefOpts, hw, hret]
  · simp [Minimal.documentRoot, derefCharPtr, hroot, hw, hret, hdir]

/-- On a connection of the thread `ev_handler` is `mg_serve_http` with the thread's
own document root. -/
theorem Configured.evHandler {ws : List Worker} {n : Net} {t : Nat} {w : Worker} {nc : ConnPtr}
    {c : MgConnection} (h : Configured t w) (hw : ws[t]? = some w) (hret : w.returned = false)
    (hc : n.heap nc = some c) (hud : c.userData = some (.serveHttpOpts t)) :
    evHandlerRoot ws n nc = .ok (rootOf w.portNo) ∧
      ∀ fx, evHandler ws n nc fx = mgServeHttp n nc fx := by
  obtain ⟨hopts, hroot⟩ := h.documentRoot hw hret
  have hown : evHandlerRoot ws n nc = .ok (rootOf w.portNo) := by
    unfold evHandlerRoot
    rw [Net.deref_bind hc, hud, hopts]
    exact hroot
  refine ⟨hown, fun fx => ?_⟩
  unfold Minimal.evHandler
  rw [hown]
  rfl

/-- The proof outline of `::StartWebServer`. -/
def WorkerOk (n : Net) (t : Nat) (w : Worker) : Prop :=
  match w.pc with
  | .start | .mgrInit => Vacant n t
  | .toString => Vacant n t ∧ n.active t = []
  | .bind => Vacant n t ∧ n.active t = [] ∧ w.p = toString w.portNo
  | .check => w.p = toString w.portNo ∧ ∀ lc, w.nc = some lc → Bound n t lc
  | .startDir => w.p = toString w.portNo ∧ ∃ lc, w.nc = some lc ∧ Bound n t lc
  | .setProtocol | .documentRoot =>
    w.startDir = some (rootOf w.portNo) ∧ ∃ lc, w.nc = some lc ∧ Bound n t lc
  | .directoryListing | .userData => Configured t w ∧ ∃ lc, w.nc = some lc ∧ Bound n t lc
  | .test | .freeCtl =>
    Configured t w ∧ ∃ lc, w.nc = some lc ∧ Wired n t lc none ∧ Listed n t
  | .poll pc | .freePoll pc | .freeClose pc =>
    Configured t w ∧ ∃ lc, w.nc = some lc ∧ PcOk n t lc pc
  | .freeIfaces | .ret => ∃ lc, w.nc = some lc
  | .done v => v = 0 ∧ (∃ lc, w.nc = some lc) ∨ v = -1 ∧ w.nc = none

/-! ## Steps of other threads -/

section OtherThread

variable {t u : MgrPtr} {n n' : Net} {lc : ConnPtr}

theorem Vacant.other (hv : Vacant n u) (h : NetFrame t n n') (hu : u ≠ t) : Vacant n' u := by
  intro a c hc hm
  exact hv a c ((h.heap.other hu hm).mp hc) hm

theorem Bound.other (hb : Bound n u lc) (h : NetFrame t n n') (hu : u ≠ t) : Bound n' u lc where
  only a c hc hm := hb.only a c ((h.heap.other hu hm).mp hc) hm
  live := h.live hu hb.live
  active := (h.active hu).trans hb.active

/-- The outline of a thread survives the steps of every other thread. -/
theorem WorkerOk.other {w : Worker} (hw : WorkerOk n u w) (h : NetFrame t n n') (hu : u ≠ t) :
    WorkerOk n' u w := by
  obtain ⟨portNo, pc, opts, p, nc, startDir⟩ := w
  cases pc with
  | start => exact Vacant.other hw h hu
  | mgrInit => exact Vacant.other hw h hu
  | toString => exact ⟨hw.1.other h hu, (h.active hu).trans hw.2⟩
  | bind => exact ⟨hw.1.other h hu, (h.active hu).trans hw.2.1, hw.2.2⟩
  | check => exact ⟨hw.1, fun lc hlc => (hw.2 lc hlc).other h hu⟩
  | startDir | setProtocol | documentRoot | directoryListing | userData =>
    obtain ⟨hp, lc, hlc, hb⟩ := hw
    exact ⟨hp, lc, hlc, hb.other h hu⟩
  | test | freeCtl =>
    obtain ⟨hp, lc, hlc, hwired, hlisted⟩ := hw
    exact ⟨hp, lc, hlc, h.wired hu hwired, h.listed hu hlisted⟩
  | poll pc | freePoll pc | freeClose pc =>
    obtain ⟨hp, lc, hlc, hpc⟩ := hw
    exact ⟨hp, lc, hlc, h.pcOk hu hpc⟩
  | freeIfaces | ret | done v => exact hw

end OtherThread

/-! ## The step -/

section

variable {n n' : Net} {t : Nat} {ws : List Worker} {w w' : Worker} {lc : ConnPtr}

theorem evHandler_ok (ws : List Worker) (t : Nat) (lc : ConnPtr) : UserOk (evHandler ws) t lc := by
  intro n n' nc fx c x hw hq hc ht hh h
  unfold evHandler at h
  obtain ⟨_, _, h⟩ := seq_eq_ok.mp h
  exact mgServeHttp_spec hw hq hc ht hh h

/-- The events of mongoose among those of a thread. -/
def mgEvents (evs : List WorkerEvent) : List MgEvent :=
  evs.filterMap fun e => match e with
    | .mg e => some e
    | _ => none

theorem mgEvents_map (evs : List MgEvent) : mgEvents (evs.map .mg) = evs := by
  unfold mgEvents
  rw [List.filterMap_map]
  exact List.filterMap_some

/-- What a step of thread `t` achieves. -/
structure WorkerStepOk (n n' : Net) (t : Nat) (w w' : Worker) (evs : List WorkerEvent) : Prop where
  ok : WorkerOk n' t w'
  mgr : (n'.mgrs t).isSome = w'.pc.holdsMgr
  frame : NetFrame t n n'
  portNo : w'.portNo = w.portNo
  inits : w'.pc.inits = w.pc.inits + evs.count .mgrInit
  frees : w'.pc.frees = w.pc.frees + evs.count .mgrFree
  nc : w'.nc = w.nc ∨ w.pc = .bind ∧ ∃ env, mgBind n t w.p .evHandler env = .ok (w'.nc, n')
  accepts : Accepts t n n' (mgEvents evs)

theorem Accepts.none (t : MgrPtr) (n : Net) : Accepts t n n [] :=
  Or.inl ⟨fun _ _ => List.not_mem_nil, NoAccept.refl n⟩

/-- The events of a loop are mongoose's only. -/
theorem count_map_mg (evs : List MgEvent) :
    (evs.map WorkerEvent.mg).count .mgrInit = 0 ∧ (evs.map WorkerEvent.mg).count .mgrFree = 0 := by
  constructor <;>
  · rw [List.count_eq_zero]
    intro hmem
    obtain ⟨e, _, he⟩ := List.mem_map.mp hmem
    cases he

/-- A step inside one of the loops, at position `pc` or at its end. -/
theorem runLoop_ok {kind : LoopKind} {k : MgPc → WorkerPc} {exit : WorkerPc} {pc : MgPc} {env : Env}
    {evs : List WorkerEvent} (hpc : PcOk n t lc pc) (hmgr : (n.mgrs t).isSome = true)
    (hk : ∀ pc, (k pc).inits = 1 ∧ (k pc).frees = 0) (hexit : exit.inits = 1 ∧ exit.frees = 0)
    (hw : w.pc = k pc)
    (hkok : ∀ {n pc}, PcOk n t lc pc → WorkerOk n t { w with pc := k pc })
    (hexitok : Wired n t lc none → Listed n t → WorkerOk n t { w with pc := exit })
    (h : runLoop kind k exit ws t w n pc env = .ok (w', n', evs)) :
    WorkerStepOk n n' t w w' evs := by
  unfold runLoop at h
  split at h
  next hend =>
    cases h
    subst hend
    refine ⟨hexitok hpc.1 hpc.2.1, ?_, NetFrame.refl t n, rfl, ?_, ?_, Or.inl rfl, Accepts.none t n⟩
    · rw [hmgr, WorkerPc.holdsMgr, hexit.1, hexit.2]
      rfl
    · rw [hw, (hk _).1]
      exact hexit.1
    · rw [hw, (hk _).2]
      exact hexit.2
  next =>
    obtain ⟨r, hr, h⟩ := seq_eq_ok.mp h
    cases pure_eq_ok.mp h
    have hloop := mgStep_ok (evHandler_ok ws t lc) hpc hr
    refine ⟨hkok hloop.pc, ?_, hloop.frame, rfl, ?_, ?_, Or.inl rfl, ?_⟩
    · rw [hloop.mgr, hmgr, WorkerPc.holdsMgr, (hk _).1, (hk _).2]
      rfl
    · rw [hw, (hk _).1, (hk _).1, (count_map_mg _).1]
    · rw [hw, (hk _).2, (hk _).2, (count_map_mg _).2]
    · rw [mgEvents_map]
      exact hloop.accepts

theorem mgMgrInit_eq_ok {ifaces ctl : Bool} (h : mgMgrInit n t ifaces ctl = .ok n') :
    n' = n.putMgr t { ctl := ctl } := by
  unfold mgMgrInit at h
  split at h
  next => exact (Except.ok.inj h).symm
  next => cases h

/-- `mg_bind` creates the listener, and nothing when it fails. -/
theorem mgBind_ok {p : String} {env : BindEnv} {nc : Option ConnPtr} (hv : Vacant n t)
    (ha : n.active t = []) (h : mgBind n t p .evHandler env = .ok (nc, n')) :
    (nc = none ∧ n' = n) ∨ ∃ lc, nc = some lc ∧ Bound n' t lc ∧ Grow t n n' ∧ NoAccept n n' := by
  unfold mgBind at h
  split at h
  next =>
    cases h
    exact Or.inl ⟨rfl, rfl⟩
  next =>
    split at h
    next =>
      cases h
      exact Or.inl ⟨rfl, rfl⟩
    next lc hlc =>
      split at h
      next =>
        have hfree := (Net.malloc_eq_some.mp hlc).2
        obtain ⟨n₁, h₁, h⟩ := seq_eq_ok.mp h
        cases pure_eq_ok.mp h
        obtain ⟨hheap, hgrow, hact⟩ :=
          mgAddConn_spec (t := t) hfree (c := listeningConn t .evHandler) rfl h₁
        refine Or.inr ⟨lc, rfl, ⟨?_, ?_, by rw [hact, ha]⟩, hgrow, ?_⟩
        · intro a c hc hm
          rw [hheap] at hc
          rcases Heap.mem_put.mp hc with ⟨rfl, rfl⟩ | ⟨_, hc⟩
          · exact ⟨rfl, rfl, rfl, rfl, rfl⟩
          · exact absurd hm (hv a c hc)
        · exact ⟨_, by rw [hheap]; exact Heap.put_self _ _ _, rfl⟩
        · intro a d hd hne
          rw [hheap] at hd
          rcases Heap.mem_put.mp hd with ⟨rfl, rfl⟩ | ⟨_, hd⟩
          · exact absurd rfl hne
          · exact ⟨d, hd, rfl, rfl⟩
      next =>
        cases h
        exact Or.inl ⟨rfl, rfl⟩

/-- Setting a field of the listener that does not matter here. -/
theorem Bound.modify (hb : Bound n t lc) {f : MgConnection → MgConnection}
    (hf : ∀ c, (f c).mgr = c.mgr ∧ (f c).listener = c.listener ∧ (f c).handler = c.handler ∧
      (f c).flags = c.flags ∧ (f c).cgiNc = c.cgiNc) (h : n.modify lc f = .ok n') :
    Bound n' t lc ∧ Keep t n n' ∧ ∃ c, n'.heap lc = some (f c) ∧ c.mgr = t := by
  obtain ⟨c, hc, rfl⟩ := Net.modify_eq_ok.mp h
  obtain ⟨c', hc', hm⟩ := hb.live
  obtain rfl : c = c' := Option.some.inj (hc.symm.trans hc')
  obtain ⟨hfm, hfl, hfh, hff, hfg⟩ := hf c
  obtain ⟨-, hl, hh, hls, hg⟩ := hb.only lc c hc hm
  refine ⟨⟨?_, ⟨f c, Heap.put_self _ _ _, hfm.trans hm⟩, hb.active⟩, Keep.put hc hm hfm hfl hfh,
    c, Heap.put_self _ _ _, hm⟩
  intro a d hd hdm
  rcases Heap.mem_put.mp hd with ⟨rfl, rfl⟩ | ⟨_, hd⟩
  · exact ⟨rfl, hfl.trans hl, hfh.trans hh, by rw [hff]; exact hls, hfg.trans hg⟩
  · exact hb.only a d hd hdm

/-- With its user data set, the lone listener is wired. -/
theorem Bound.wired (hb : Bound n t lc) {c : MgConnection} (hc : n.heap lc = some c)
    (hu : c.userData = some (.serveHttpOpts t)) : Wired n t lc none ∧ Listed n t := by
  refine ⟨⟨?_, ?_⟩, ?_, ?_⟩
  · intro a d hd hm
    obtain ⟨rfl, hl, hh, hls, _⟩ := hb.only a d hd hm
    obtain rfl : c = d := Option.some.inj (hc.symm.trans hd)
    exact Or.inl ⟨rfl, hl, hh, hls, hu⟩
  · intro a d g hd hm hg
    rw [(hb.only a d hd hm).2.2.2.2] at hg
    cases hg
  · rw [hb.active]
    simp
  · intro a ha
    rw [hb.active] at ha
    rw [List.mem_singleton.mp ha]
    exact hb.live

/-- Entering a loop. -/
theorem mgLoopStart_ok (hw : Wired n t lc none) (hl : Listed n t) {pc : MgPc}
    (h : mgLoopStart n t = .ok pc) : PcOk n t lc pc := by
  unfold mgLoopStart at h
  obtain ⟨m, hm, h⟩ := seq_eq_ok.mp h
  cases pure_eq_ok.mp h
  refine ⟨hw, hl, ?_⟩
  intro a ha
  unfold Net.active
  rw [Net.derefMgr_eq_ok.mp hm]
  exact List.mem_of_mem_head? ha

/-- A statement that touches the thread's locals only. -/
theorem local_ok {evs : List WorkerEvent} (hok : WorkerOk n t w')
    (hmgr : (n.mgrs t).isSome = w.pc.holdsMgr) (hport : w'.portNo = w.portNo)
    (hnc : w'.nc = w.nc ∨ w.pc = .bind ∧ ∃ env, mgBind n t w.p .evHandler env = .ok (w'.nc, n))
    (hi : w'.pc.inits = w.pc.inits) (hf : w'.pc.frees = w.pc.frees)
    (hci : evs.count .mgrInit = 0) (hcf : evs.count .mgrFree = 0) (hevs : mgEvents evs = []) :
    WorkerStepOk n n t w w' evs := by
  refine ⟨hok, ?_, NetFrame.refl t n, hport, ?_, ?_, hnc, ?_⟩
  · rw [hmgr, WorkerPc.holdsMgr, WorkerPc.holdsMgr, hi, hf]
  · rw [hi, hci, Nat.add_zero]
  · rw [hf, hcf, Nat.add_zero]
  · rw [hevs]
    exact Accepts.none t n

/-- A statement that rewrites connections, without events. -/
theorem keep_ok (hok : WorkerOk n' t w') (hk : Keep t n n')
    (hmgr : (n.mgrs t).isSome = w.pc.holdsMgr) (hport : w'.portNo = w.portNo)
    (hnc : w'.nc = w.nc) (hi : w'.pc.inits = w.pc.inits) (hf : w'.pc.frees = w.pc.frees) :
    WorkerStepOk n n' t w w' [] := by
  refine ⟨hok, ?_, hk.frame, hport, hi, hf, Or.inl hnc, Or.inl ⟨fun _ _ => List.not_mem_nil, hk.bwd⟩⟩
  rw [hk.mgr, hmgr, WorkerPc.holdsMgr, WorkerPc.holdsMgr, hi, hf]

/-- Closing the control socket leaves the list alone. -/
theorem active_putCtl {m : MgMgr} (hm : n.mgrs t = some m) (ctl : Bool) :
    Net.active (n.putMgr t { m with ctl := ctl }) t = n.active t := by
  unfold Net.active
  rw [Net.putMgr_mgrs, Heap.put_self, hm]

/-- **The step lemma of a server thread.** -/
theorem startWebServer_ok {stopIt : Bool} {env : WorkerEnv} {evs : List WorkerEvent}
    (hok : WorkerOk n t w) (hmgr : (n.mgrs t).isSome = w.pc.holdsMgr) (hret : w.returned = false)
    (h : startWebServer stopIt ws t w n env = .ok (w', n', evs)) :
    WorkerStepOk n n' t w w' evs := by
  obtain ⟨portNo, pc, opts, p, nc, startDir⟩ := w
  have hothers : ∀ m, NetFrame t n (n.putMgr t m) := fun m =>
    ⟨Heap.Frame.refl _ _ _, fun u hu => Heap.put_ne _ _ hu⟩
  have hsame : ∀ {n₁ : Net}, n₁.heap = n.heap → NoAccept n n₁ := by
    intro n₁ hheap a d hd _
    rw [hheap] at hd
    exact ⟨d, hd, rfl, rfl⟩
  have hnil : ∀ l a, MgEvent.accepted l a ∉ ([] : List MgEvent) := fun _ _ => List.not_mem_nil
  cases pc with
  | start =>
    cases h
    exact local_ok hok hmgr rfl (Or.inl rfl) rfl rfl rfl rfl rfl
  | mgrInit =>
    obtain ⟨n₁, h₁, h⟩ := seq_eq_ok.mp h
    cases pure_eq_ok.mp h
    obtain rfl := mgMgrInit_eq_ok h₁
    refine ⟨⟨hok, ?_⟩, ?_, hothers _, rfl, rfl, rfl, Or.inl rfl, Or.inl ⟨hnil, hsame rfl⟩⟩
    · unfold Net.active
      rw [Net.putMgr_mgrs, Heap.put_self]
    · rw [Net.putMgr_mgrs, Heap.put_self]
      rfl
  | toString =>
    cases h
    exact local_ok ⟨hok.1, hok.2, rfl⟩ hmgr rfl (Or.inl rfl) rfl rfl rfl rfl rfl
  | bind =>
    obtain ⟨hv, ha, hp⟩ := hok
    obtain ⟨⟨r, n₁⟩, hr, h⟩ := seq_eq_ok.mp h
    cases pure_eq_ok.mp h
    rcases mgBind_ok hv ha hr with ⟨hnone, rfl⟩ | ⟨lc, hlc, hb, hg, hold⟩
    · refine local_ok ⟨hp, ?_⟩ hmgr rfl (Or.inr ⟨rfl, env.bind, hr⟩) rfl rfl rfl rfl rfl
      intro lc hlc
      rw [show r = some lc from hlc] at hnone
      cases hnone
    · refine ⟨⟨hp, ?_⟩, hg.mgr.trans hmgr, hg.frame, rfl, rfl, rfl,
        Or.inr ⟨rfl, env.bind, hr⟩, Or.inl ⟨hnil, hold⟩⟩
      intro lc' hlc'
      obtain rfl : lc = lc' := Option.some.inj (hlc.symm.trans hlc')
      exact hb
  | check =>
    obtain ⟨hp, hb⟩ := hok
    cases nc with
    | none =>
      cases h
      exact local_ok (Or.inr ⟨rfl, rfl⟩) hmgr rfl (Or.inl rfl) rfl rfl rfl rfl rfl
    | some lc =>
      cases h
      exact local_ok ⟨hp, lc, rfl, hb lc rfl⟩ hmgr rfl (Or.inl rfl) rfl rfl rfl rfl rfl
  | startDir =>
    obtain ⟨hp, hb⟩ := hok
    cases h
    refine local_ok ⟨?_, hb⟩ hmgr rfl (Or.inl rfl) rfl rfl rfl rfl rfl
    show some ("./web-" ++ p) = some (rootOf portNo)
    rw [show p = toString portNo from hp]
    rfl
  | setProtocol =>
    obtain ⟨hroot, lc, rfl, hb⟩ := hok
    obtain ⟨n₁, h₁, h⟩ := seq_eq_ok.mp h
    cases pure_eq_ok.mp h
    obtain ⟨hb', hk, _⟩ := hb.modify (f := MgConnection.mgSetProtocolHttpWebsocket)
      (fun _ => ⟨rfl, rfl, rfl, rfl, rfl⟩) h₁
    exact keep_ok ⟨hroot, lc, rfl, hb'⟩ hk hmgr rfl rfl rfl rfl
  | documentRoot =>
    cases h
    exact local_ok ⟨⟨hok.1, rfl⟩, hok.2⟩ hmgr rfl (Or.inl rfl) rfl rfl rfl rfl rfl
  | directoryListing =>
    cases h
    exact local_ok ⟨hok.1, hok.2⟩ hmgr rfl (Or.inl rfl) rfl rfl rfl rfl rfl
  | userData =>
    obtain ⟨hcfg, lc, rfl, hb⟩ := hok
    obtain ⟨n₁, h₁, h⟩ := seq_eq_ok.mp h
    cases pure_eq_ok.mp h
    obtain ⟨hb', hk, c, hc, _⟩ := hb.modify (f := (·.setUserData (.serveHttpOpts t)))
      (fun _ => ⟨rfl, rfl, rfl, rfl, rfl⟩) h₁
    obtain ⟨hw, hl⟩ := hb'.wired hc rfl
    exact keep_ok ⟨hcfg, lc, rfl, hw, hl⟩ hk hmgr rfl rfl rfl rfl
  | test =>
    obtain ⟨hcfg, lc, rfl, hw, hl⟩ := hok
    obtain ⟨pc, hpc, h⟩ := seq_eq_ok.mp h
    cases pure_eq_ok.mp h
    have hpcok := mgLoopStart_ok hw hl hpc
    cases stopIt with
    | true => exact local_ok ⟨hcfg, lc, rfl, hpcok⟩ hmgr rfl (Or.inl rfl) rfl rfl rfl rfl rfl
    | false => exact local_ok ⟨hcfg, lc, rfl, hpcok⟩ hmgr rfl (Or.inl rfl) rfl rfl rfl rfl rfl
  -- the three loops differ in what is known when they end
  | poll pc =>
    obtain ⟨hcfg, lc, rfl, hpc⟩ := hok
    refine runLoop_ok hpc hmgr (fun _ => ⟨rfl, rfl⟩) ?_ rfl ?_ ?_ h
    · exact ⟨rfl, rfl⟩
    · intro _ _ hpc
      exact ⟨hcfg, lc, rfl, hpc⟩
    · intro hw hl
      exact ⟨hcfg, lc, rfl, hw, hl⟩
  | freePoll pc =>
    obtain ⟨hcfg, lc, rfl, hpc⟩ := hok
    refine runLoop_ok hpc hmgr (fun _ => ⟨rfl, rfl⟩) ?_ rfl ?_ ?_ h
    · exact ⟨rfl, rfl⟩
    · intro _ _ hpc
      exact ⟨hcfg, lc, rfl, hpc⟩
    · intro hw hl
      exact ⟨hcfg, lc, rfl, hw, hl⟩
  | freeCtl =>
    obtain ⟨hcfg, lc, rfl, hw, hl⟩ := hok
    obtain ⟨m, hm, h⟩ := seq_eq_ok.mp h
    obtain ⟨pc, hpc, h⟩ := seq_eq_ok.mp h
    cases pure_eq_ok.mp h
    have hact := active_putCtl (Net.derefMgr_eq_ok.mp hm) false
    have hl' : Listed (n.putMgr t { m with ctl := false }) t := by
      refine ⟨by rw [hact]; exact hl.nodup, ?_⟩
      intro a ha
      rw [hact] at ha
      exact hl.live a ha
    have hw' : Wired (n.putMgr t { m with ctl := false }) t lc none := hw.of_heap rfl
    refine ⟨⟨hcfg, lc, rfl, mgLoopStart_ok hw' hl' hpc⟩, ?_, hothers _, rfl, rfl, rfl,
      Or.inl rfl, Or.inl ⟨hnil, hsame rfl⟩⟩
    rw [Net.putMgr_mgrs, Heap.put_self]
    rfl
  | freeClose pc =>
    obtain ⟨hcfg, lc, rfl, hpc⟩ := hok
    refine runLoop_ok hpc hmgr (fun _ => ⟨rfl, rfl⟩) ?_ rfl ?_ ?_ h
    · exact ⟨rfl, rfl⟩
    · intro _ _ hpc
      exact ⟨hcfg, lc, rfl, hpc⟩
    · intro _ _
      exact ⟨lc, rfl⟩
  | freeIfaces =>
    cases h
    refine ⟨hok, ?_, ⟨Heap.Frame.refl _ _ _, fun u hu => Heap.free_ne _ hu⟩, rfl, rfl, rfl,
      Or.inl rfl, Or.inl ⟨hnil, hsame rfl⟩⟩
    have hgone : (mgMgrFreeIfaces n t).mgrs t = none := Heap.free_self _ _
    rw [hgone]
    rfl
  | ret =>
    cases h
    exact local_ok (Or.inl ⟨rfl, hok⟩) hmgr rfl (Or.inl rfl) rfl rfl rfl rfl rfl
  | done v => cases hret

/-! ## Control flow -/

/-- The thread is past its last test of `stopIt`, having seen it set. -/
def WorkerPc.tearsDown : WorkerPc → Bool
  | .freePoll _ | .freeCtl | .freeClose _ | .freeIfaces | .ret => true
  | .done v => v ≠ -1
  | _ => false

/-- The position inside mongoose's loops, if the thread is in one. -/
def WorkerPc.mgPc : WorkerPc → Option MgPc
  | .poll pc | .freePoll pc | .freeClose pc => some pc
  | _ => none

/-- The thread is about to take the branch `if (nc == nullptr)`. -/
def Worker.givesUp (w : Worker) : Prop := w.pc = .check ∧ w.nc = none

/-- How a step moves the program counter. -/
inductive Flow (stopIt : Bool) (w w' : Worker) (evs : List WorkerEvent) : Prop
  | goOn (hret : w'.returned = false) (hevs : ∀ v, .returned v ∉ evs)
      (hmg : ∀ e, .mg e ∈ evs → w.pc.mgPc ≠ none) (hnot : ¬ w.givesUp)
      (hstop : w'.pc.tearsDown = true → w.pc.tearsDown = true ∨ stopIt = true)
  | giveUp (hw : w.givesUp) (hw' : w'.pc = .done (-1)) (hevs : evs = [.returned (-1)])
  | finish (hw : w.pc = .ret) (hw' : w'.pc = .done 0) (hevs : evs = [.returned 0])

theorem returned_of_done {w : Worker} {v : Int} (h : w.pc = .done v) : w.returned = true := by
  unfold Worker.returned
  rw [h]

theorem not_returned {w : Worker} (h : ∀ v, w.pc ≠ .done v) : w.returned = false := by
  unfold Worker.returned
  split
  next v hv => exact absurd hv (h v)
  next => rfl

theorem runLoop_flow {stopIt : Bool} {kind : LoopKind} {k : MgPc → WorkerPc} {exit : WorkerPc}
    {pc : MgPc} {env : Env} {evs : List WorkerEvent}
    (hk : ∀ pc v, k pc ≠ .done v) (hexit : ∀ v, exit ≠ .done v)
    (hmg : w.pc.mgPc ≠ none)
    (hstop : ∀ pc, (k pc).tearsDown = true ∨ exit.tearsDown = true → w.pc.tearsDown = true)
    (h : runLoop kind k exit ws t w n pc env = .ok (w', n', evs)) : Flow stopIt w w' evs := by
  have hnot : ¬ w.givesUp := by
    intro hg
    rw [hg.1] at hmg
    exact hmg rfl
  unfold runLoop at h
  split at h
  next =>
    cases h
    exact .goOn (not_returned hexit) (fun _ => List.not_mem_nil) (fun _ _ => hmg) hnot
      (fun ht => Or.inl (hstop pc (Or.inr ht)))
  next =>
    obtain ⟨r, hr, h⟩ := seq_eq_ok.mp h
    cases pure_eq_ok.mp h
    refine .goOn (not_returned (hk r.1)) ?_ (fun _ _ => hmg) hnot
      (fun ht => Or.inl (hstop r.1 (Or.inl ht)))
    intro v hmem
    obtain ⟨e, _, he⟩ := List.mem_map.mp hmem
    cases he

/-- A statement of a thread goes on, gives up or finishes. -/
theorem startWebServer_flow {stopIt : Bool} {env : WorkerEnv} {evs : List WorkerEvent}
    (hret : w.returned = false)
    (h : startWebServer stopIt ws t w n env = .ok (w', n', evs)) : Flow stopIt w w' evs := by
  obtain ⟨portNo, pc, opts, p, nc, startDir⟩ := w
  cases pc with
  | start | toString | startDir | documentRoot | directoryListing =>
    cases h
    exact .goOn rfl (by simp) (by simp) (fun hg => by cases hg.1) (fun ht => by cases ht)
  | mgrInit | bind =>
    obtain ⟨r, hr, h⟩ := seq_eq_ok.mp h
    cases pure_eq_ok.mp h
    exact .goOn rfl (by simp) (by simp) (fun hg => by cases hg.1) (fun ht => by cases ht)
  | check =>
    cases nc with
    | none =>
      cases h
      exact .giveUp ⟨rfl, rfl⟩ rfl rfl
    | some lc =>
      cases h
      exact .goOn rfl (by simp) (by simp) (fun hg => by cases hg.2) (fun ht => by cases ht)
  | setProtocol | userData =>
    cases nc with
    | none => cases h
    | some lc =>
      obtain ⟨n₁, h₁, h⟩ := seq_eq_ok.mp h
      cases pure_eq_ok.mp h
      exact .goOn rfl (by simp) (by simp) (fun hg => by cases hg.1) (fun ht => by cases ht)
  -- `stopIt` is read here, and only here
  | test =>
    obtain ⟨pc, hpc, h⟩ := seq_eq_ok.mp h
    cases pure_eq_ok.mp h
    cases stopIt with
    | true => exact .goOn rfl (by simp) (by simp) (fun hg => by cases hg.1) (fun _ => Or.inr rfl)
    | false => exact .goOn rfl (by simp) (by simp) (fun hg => by cases hg.1) (fun ht => by cases ht)
  | poll pc =>
    refine runLoop_flow ?_ ?_ ?_ ?_ h <;> simp [WorkerPc.tearsDown, WorkerPc.mgPc]
  | freePoll pc =>
    refine runLoop_flow ?_ ?_ ?_ ?_ h <;> simp [WorkerPc.tearsDown, WorkerPc.mgPc]
  | freeCtl =>
    obtain ⟨m, hm, h⟩ := seq_eq_ok.mp h
    obtain ⟨pc, hpc, h⟩ := seq_eq_ok.mp h
    cases pure_eq_ok.mp h
    exact .goOn rfl (by simp) (by simp) (fun hg => by cases hg.1) (fun _ => Or.inl rfl)
  | freeClose pc =>
    refine runLoop_flow ?_ ?_ ?_ ?_ h <;> simp [WorkerPc.tearsDown, WorkerPc.mgPc]
  | freeIfaces =>
    cases h
    exact .goOn rfl (by simp) (by simp) (fun hg => by cases hg.1) (fun _ => Or.inl rfl)
  | ret =>
    cases h
    exact .finish rfl rfl rfl
  | done v => cases hret

end

end SimplestWeb.Minimal
