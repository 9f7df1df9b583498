import SimplestWeb.Mongoose.LoopEnd
import SimplestWeb.Minimal.Safety

/-!
# `mg_mgr_free` ends

`MyApp::OnExit` waits for every thread, so shutdown ends only if each of them
returns. Until a thread has seen `stopIt` its loop is at the mercy of the
clients; its last part is not. From the moment `mg_mgr_free` closes the
connections a thread takes a bounded number of steps, whatever the clients and
the other threads do (`mgMgrFree_ends`): five for each connection in its list,
and five more.
-/

namespace SimplestWeb.Minimal

open SimplestWeb.Lib SimplestWeb.Mongoose
open Machine (Run)

/-! ## One thread -/

section

variable {ws : List Worker} {n n' : Net} {t u : Nat} {w w' : Worker} {env : WorkerEnv}
  {stopIt : Bool} {k : Nat} {evs : List WorkerEvent}

/-- `k` steps of `::StartWebServer` are left. -/
def StepsLeft (n : Net) (t : Nat) (w : Worker) (k : Nat) : Prop :=
  match w.pc with
  | .freeClose pc => ∃ j, Left n t pc j ∧ k = j + 3
  | .freeIfaces => k = 2
  | .ret => k = 1
  | .done _ => k = 0
  | _ => False

/-- A thread that closes its connections has a bounded number of steps left. -/
def Closes (n : Net) (t : Nat) (w : Worker) : Prop :=
  ∀ pc, w.pc = .freeClose pc → ∃ k, StepsLeft n t w k

theorem StepsLeft.pos (h : StepsLeft n t w k) (hret : w.returned = false) : 0 < k := by
  obtain ⟨portNo, pc, opts, p, nc, startDir⟩ := w
  cases pc with
  | freeClose pc =>
    obtain ⟨j, -, rfl⟩ := h
    omega
  | freeIfaces =>
    rw [show k = 2 from h]
    omega
  | ret =>
    rw [show k = 1 from h]
    omega
  | done v => cases hret
  | _ => exact h.elim

/-- Each statement leaves fewer. -/
theorem startWebServer_stepsLeft (hok : WorkerOk n t w) (hs : WorkerSafe n t w)
    (hmgr : (n.mgrs t).isSome = w.pc.holdsMgr) (hw : ws[t]? = some w) (hret : w.returned = false)
    (hk : StepsLeft n t w k) (h : startWebServer stopIt ws t w n env = .ok (w', n', evs)) :
    ∃ k' < k, StepsLeft n' t w' k' := by
  obtain ⟨portNo, pc, opts, p, nc, startDir⟩ := w
  cases pc with
  | freeClose pc =>
    obtain ⟨j, hj, rfl⟩ := hk
    obtain ⟨hcfg, lc, rfl, hpc⟩ := hok
    replace h : runLoop .free .freeClose .freeIfaces ws t _ n pc env.toEnv = _ := h
    unfold runLoop at h
    split at h
    next =>
      cases h
      exact ⟨2, by omega, rfl⟩
    next hend =>
      obtain ⟨r, hr, h⟩ := seq_eq_ok.mp h
      cases pure_eq_ok.mp h
      obtain ⟨j', hlt, hj'⟩ :=
        mgStep_left (evHandler_safe hw hret hcfg) hpc (hs lc rfl) hmgr hj hend hr
      exact ⟨j' + 3, by omega, j', hj', rfl⟩
  | freeIfaces =>
    cases h
    rw [show k = 2 from hk]
    exact ⟨1, by omega, rfl⟩
  | ret =>
    cases h
    rw [show k = 1 from hk]
    exact ⟨0, by omega, rfl⟩
  | done v => cases hret
  | _ => exact hk.elim

/-- When the loop is entered all connections are ahead. -/
theorem mgLoopStart_left {pc : MgPc} (h : mgLoopStart n t = .ok pc) :
    Left n t pc (5 * (n.active t).length) := by
  unfold mgLoopStart at h
  obtain ⟨m, hm, h⟩ := seq_eq_ok.mp h
  cases pure_eq_ok.mp h
  refine ⟨n.active t, ⟨?_, [], rfl⟩, rfl⟩
  unfold Net.active
  rw [Net.derefMgr_eq_ok.mp hm]

/-- The other loops do not lead into the closing one. -/
theorem runLoop_pc {kind : LoopKind} {f : MgPc → WorkerPc} {exit : WorkerPc} {pc : MgPc}
    (h : runLoop kind f exit ws t w n pc env.toEnv = .ok (w', n', evs)) :
    w'.pc = exit ∨ ∃ pc', w'.pc = f pc' := by
  unfold runLoop at h
  split at h
  next =>
    cases h
    exact Or.inl rfl
  next =>
    obtain ⟨r, -, h⟩ := seq_eq_ok.mp h
    cases pure_eq_ok.mp h
    exact Or.inr ⟨r.1, rfl⟩

theorem startWebServer_closes (hok : WorkerOk n t w) (hs : WorkerSafe n t w)
    (hmgr : (n.mgrs t).isSome = w.pc.holdsMgr) (hw : ws[t]? = some w) (hret : w.returned = false)
    (hc : Closes n t w) (h : startWebServer stopIt ws t w n env = .ok (w', n', evs)) :
    Closes n' t w' := by
  by_cases hpc : ∃ pc, w.pc = .freeClose pc
  · obtain ⟨pc, hpc⟩ := hpc
    obtain ⟨k, hk⟩ := hc pc hpc
    obtain ⟨k', -, hk'⟩ := startWebServer_stepsLeft hok hs hmgr hw hret hk h
    exact fun _ _ => ⟨k', hk'⟩
  · intro pc' hpc'
    obtain ⟨portNo, pc, opts, p, nc, startDir⟩ := w
    -- the loop is entered from `freeCtl` only
    cases pc with
    | freeCtl =>
      obtain ⟨m, -, h⟩ := seq_eq_ok.mp h
      obtain ⟨pc, hstart, h⟩ := seq_eq_ok.mp h
      cases pure_eq_ok.mp h
      exact ⟨_, _, mgLoopStart_left hstart, rfl⟩
    | freeClose pc => exact absurd ⟨pc, rfl⟩ hpc
    | poll pc =>
      rcases runLoop_pc h with heq | ⟨_, heq⟩
      · cases heq.symm.trans hpc'
      · cases heq.symm.trans hpc'
    | freePoll pc =>
      rcases runLoop_pc h with heq | ⟨_, heq⟩
      · cases heq.symm.trans hpc'
      · cases heq.symm.trans hpc'
    | start | toString | startDir | documentRoot | directoryListing | freeIfaces | ret =>
      cases h
      cases hpc'
    | mgrInit | bind =>
      obtain ⟨r, -, h⟩ := seq_eq_ok.mp h
      cases pure_eq_ok.mp h
      cases hpc'
    | check =>
      cases nc with
      | none =>
        cases h
        cases hpc'
      | some lc =>
        cases h
        cases hpc'
    | setProtocol | userData =>
      cases nc with
      | none => cases h
      | some lc =>
        obtain ⟨n₁, -, h⟩ := seq_eq_ok.mp h
        cases pure_eq_ok.mp h
        cases hpc'
    | test =>
      obtain ⟨pc, -, h⟩ := seq_eq_ok.mp h
      cases pure_eq_ok.mp h
      cases stopIt with
      | true => cases hpc'
      | false => cases hpc'
    | done v => cases hret

/-- Another thread's step leaves as many. -/
theorem StepsLeft.other (hk : StepsLeft n u w k) (hok : WorkerOk n u w) (h : NetFrame t n n')
    (hu : u ≠ t) : StepsLeft n' u w k := by
  obtain ⟨portNo, pc, opts, p, nc, startDir⟩ := w
  cases pc with
  | freeClose pc =>
    obtain ⟨j, hj, rfl⟩ := hk
    obtain ⟨-, lc, -, hpc⟩ := hok
    exact ⟨j, h.left hu hpc hj, rfl⟩
  | freeIfaces | ret | done v => exact hk
  | _ => exact hk.elim

end

/-! ## Along the run -/

section

variable {s s' : Sys} {l : Label} {os tr tr' : List Event} {ls ls' : List Label} {t : Nat}
  {w : Worker} {pc : MgPc} {k : Nat}

/-- Every thread that closes its connections is counted. -/
theorem run_closes (h : system.Run ls s tr) :
    ∀ (t : Nat) (w : Worker), s.workers[t]? = some w → Closes s.net t w := by
  refine Run.induct (P := fun _ s _ => ∀ (t : Nat) (w : Worker), s.workers[t]? = some w →
    Closes s.net t w) ?_ ?_ h
  · intro t w hw
    simp [system] at hw
  · intro ls s tr l s' os hrun ih hst
    have hs := run_ok hrun
    rcases (step_moves hst).2.threads with ⟨hws, hn, -⟩ | ⟨hws, hn, -, -⟩ |
      ⟨t, w, w', env, n', evs, -, hw, hret, hsw, rfl, -⟩
    · intro t w hw
      rw [hws] at hw
      rw [hn]
      exact ih t w hw
    · intro t w hw
      rw [hws] at hw
      rw [hn]
      rcases getElem?_snoc_cases hw with hw | ⟨-, rfl⟩
      · exact ih t w hw
      · intro pc hpc
        cases hpc
    · have hok := hs.threads.ok t w hw
      have hmgr := hs.threads.mgr t w hw
      intro u v hv
      rcases getElem?_set_cases hv with ⟨rfl, rfl⟩ | ⟨hu, hv⟩
      · exact startWebServer_closes hok (run_safe hrun _ w hw) hmgr hw hret (ih _ w hw) hsw
      · intro pc hpc
        obtain ⟨k, hk⟩ := ih u v hv pc hpc
        exact ⟨k, hk.other (hs.threads.ok u v hv) (startWebServer_ok hok hmgr hret hsw).frame hu⟩

/-- Thread `t` has at most `k` steps to come. -/
def AtMost (t : Nat) (s : Sys) (k : Nat) : Prop :=
  s.fault.isSome = true ∨
    SysOk s ∧ s.Safe ∧ ∃ w, s.workers[t]? = some w ∧ StepsLeft s.net t w k

/-- A step of the thread lowers the bound, and no other step raises it. -/
theorem AtMost.step (h : AtMost t s k) (hst : system.step s l = some (s', os)) :
    ∃ k', AtMost t s' k' ∧ if l.isStepOf t then k' < k else k' ≤ k := by
  obtain ⟨hnone, hm⟩ := step_moves hst
  rcases h with hf | ⟨hs, hsafe, w, hw, hk⟩
  · rw [hnone] at hf
    cases hf
  have hs' := hs.step hm
  have hsafe' := hsafe.step hs hm
  -- nothing changes for the thread
  have hsame : s'.workers[t]? = some w → s'.net = s.net → l.isStepOf t = false →
      ∃ k', AtMost t s' k' ∧ if l.isStepOf t then k' < k else k' ≤ k := by
    intro hw' hn hl
    refine ⟨k, Or.inr ⟨hs', hsafe', w, hw', hn ▸ hk⟩, ?_⟩
    rw [hl]
    exact Nat.le_refl k
  cases hm with
  | @worker u v v' env n' evs hv hret hsw =>
    have hok := hs.threads.ok u v hv
    have hmgr := hs.threads.mgr u v hv
    by_cases hu : u = t
    · subst hu
      obtain rfl : w = v := Option.some.inj (hw.symm.trans hv)
      obtain ⟨k', hlt, hk'⟩ :=
        startWebServer_stepsLeft hok (hsafe u w hw) hmgr hw hret hk hsw
      refine ⟨k', Or.inr ⟨hs', hsafe', v', ?_, hk'⟩, ?_⟩
      · exact List.getElem?_set_self (List.getElem?_eq_some_iff.mp hw).1
      · rw [if_pos (show (Label.worker u env).isStepOf u = true from decide_eq_true rfl)]
        exact hlt
    · have hframe := (startWebServer_ok hok hmgr hret hsw).frame
      refine ⟨k, Or.inr ⟨hs', hsafe', w, ?_, hk.other (hs.threads.ok t w hw) hframe (Ne.symm hu)⟩, ?_⟩
      · show (s.workers.set u v')[t]? = some w
        rw [List.getElem?_set_ne hu]
        exact hw
      · rw [show (Label.worker u env).isStepOf t = false from decide_eq_false hu]
        exact Nat.le_refl k
  | @fault u v env f hv hret hsw =>
    by_cases hu : u = t
    · subst hu
      obtain rfl : w = v := Option.some.inj (hw.symm.trans hv)
      refine ⟨0, Or.inl rfl, ?_⟩
      rw [if_pos (show (Label.worker u env).isStepOf u = true from decide_eq_true rfl)]
      exact hk.pos hret
    · exact hsame hw rfl (decide_eq_false hu)
  | construct hui =>
    refine hsame ?_ rfl rfl
    show (s.workers ++ _)[t]? = some w
    rw [List.getElem?_append_left (List.getElem?_eq_some_iff.mp hw).1]
    exact hw
  | _ => exact hsame hw rfl rfl

/-- A thread that has not returned can go on: its system calls are taken to return. -/
theorem worker_enabled (hf : s.fault = none) (hw : s.workers[t]? = some w)
    (hret : w.returned = false) (env : WorkerEnv) :
    (system.step s (.worker t env)).isSome = true := by
  show (Sys.step s (.worker t env)).isSome = true
  unfold Sys.step
  rw [hf, if_neg (by simp)]
  show (s.workerStep t env).isSome = true
  unfold Sys.workerStep
  rw [hw]
  dsimp only
  rw [hret, if_neg (by simp)]
  split
  next => rfl
  next => rfl

/-- **The closing part of `mg_mgr_free` ends**: however the run goes on, the thread
takes at most five steps for each connection and five more. Until it has
returned it waits for nothing but its system calls. -/
theorem mgMgrFree_ends (h : system.Run ls s tr) (hw : s.workers[t]? = some w)
    (hpc : w.pc = .freeClose pc) (hex : system.exec s ls' = some (s', tr')) :
    ls'.countP (Label.isStepOf t) ≤ 5 * (s.net.active t).length + 5 ∧
      ∀ w' env, s'.workers[t]? = some w' → w'.returned = false → s'.fault = none →
        (system.step s' (.worker t env)).isSome = true := by
  constructor
  · obtain ⟨k, hk⟩ := run_closes h t w hw pc hpc
    have hle : k ≤ 5 * (s.net.active t).length + 5 := by
      unfold StepsLeft at hk
      rw [hpc] at hk
      obtain ⟨j, hj, rfl⟩ := hk
      have := hj.le
      omega
    have hmost : AtMost t s k := Or.inr ⟨run_ok h, run_safe h, w, hw, hk⟩
    exact (Machine.exec_count_le (fun hR hst => hR.step hst) hmost hex).trans hle
  · intro w' env hw' hret hf
    exact worker_enabled hf hw' hret env

/-- A server that stands at the first listener it has to close. -/
def toClosing : List Label :=
  clickAndBind { calloc := some 1, listenOk := true } ++ .status :: List.replicate 6 (.worker 0 {}) ++
    .onExit [8000] :: List.replicate 6 (.worker 0 {})

/-- Six steps later it has not returned yet. -/
theorem mgMgrFree_ends_one_server :
    ∃ s tr s' tr' w', system.Run toClosing s tr ∧
      system.exec s (List.replicate 6 (.worker 0 {})) = some (s', tr') ∧
      s'.workers[0]? = some w' ∧ w'.returned = false ∧ s'.fault = none ∧
      (List.replicate 6 (Label.worker 0 {})).countP (Label.isStepOf 0) ≤
        5 * (s.net.active 0).length + 5 ∧
      ∀ w' env, s'.workers[0]? = some w' → w'.returned = false → s'.fault = none →
        (system.step s' (.worker 0 env)).isSome = true := by
  obtain ⟨s, tr, hrun, hpc, hex⟩ := Machine.exists_run_of_check (M := system) toClosing
    (fun s _ => s.workers[0]?.map Worker.pc = some (.freeClose (.visit (some 1))) ∧
      ((system.exec s (List.replicate 6 (.worker 0 {}))).any fun r =>
        r.1.fault.isNone && (r.1.workers[0]?.any fun w => !w.returned)) = true) (by decide)
  obtain ⟨w, hw, hpc⟩ := Option.map_eq_some_iff.mp hpc
  obtain ⟨⟨s', tr'⟩, hex, hend⟩ := (Option.any_eq_true _ _).mp hex
  obtain ⟨hf, hw'⟩ := Bool.and_eq_true_iff.mp hend
  obtain ⟨w', hw', hret⟩ := (Option.any_eq_true _ _).mp hw'
  exact ⟨s, tr, s', tr', w', hrun, hex, hw', by simpa using hret, by simpa using hf,
    mgMgrFree_ends hrun hw hpc hex⟩

end

end SimplestWeb.Minimal
