import SimplestWeb.Minimal.Lifetime

/-!
# The number shown in the status bar

`MyApp::GetNumberOfServers` is the size of `webServerList`, which only the
user interface's thread changes: it counts the threads ever stored. Before
`MyApp::OnExit` a thread can have returned only by giving up, so the number
shown is the number of running servers exactly in the runs where no
`mg_bind` has failed yet.
-/

namespace SimplestWeb.Minimal

open SimplestWeb.Lib SimplestWeb.Mongoose
open Machine (Run)

variable {s s' : Sys} {os tr : List Event} {ls : List Label}

/-- The number of entries fits an `int`, since `startPortNo` does. -/
theorem getNumberOfServers_eq {m : Nat} (h : Held s.webServerList m) (hm : portOf m ≤ INT_MAX) :
    s.getNumberOfServers = m := by
  unfold Sys.getNumberOfServers
  rw [h.size]
  unfold portOf STARTINGPORTNO INT_MAX at hm
  refine Int.bmod_eq_of_le ?_ ?_
  · omega
  · omega

/-- A thread that has returned before `MyApp::OnExit` has given up. -/
theorem SysOk.returned_iff (h : SysOk s) (hstop : s.stopIt = false) {t : Nat} {w : Worker}
    (hw : s.workers[t]? = some w) : w.returned = true ↔ w.pc = .done (-1) := by
  constructor
  · intro hret
    unfold Worker.returned at hret
    split at hret
    next v hv =>
      have hcalm := h.calm hstop t w hw
      rw [hv] at hcalm
      have hv' : v = -1 := by simpa [WorkerPc.tearsDown] using hcalm
      rw [hv, hv']
    next => cases hret
  · exact returned_of_done

/-- Before `MyApp::OnExit`, all threads run if and only if none has given up. -/
theorem SysOk.running_eq_length (h : SysOk s) (hstop : s.stopIt = false) :
    s.runningServers = s.workers.length ↔ NoneGaveUp s := by
  unfold Sys.runningServers
  rw [List.countP_eq_length]
  constructor
  · intro hall t w hw hpc
    have hrun := hall w (List.mem_of_getElem? hw)
    rw [(h.returned_iff hstop hw).mpr hpc] at hrun
    cases hrun
  · intro hnone w hmem
    obtain ⟨t, hw⟩ := List.mem_iff_getElem?.mp hmem
    cases hret : w.returned with
    | false => rfl
    | true => exact absurd ((h.returned_iff hstop hw).mp hret) (hnone t w hw)

/-- What the menu handler shows. -/
theorem status_shows (h : SysOk s) {pNo n : Int} (hst : system.step s .status = some (s', os))
    (hos : Event.status pNo n ∈ os) : s.stopIt = false ∧ n = s.workers.length := by
  obtain ⟨-, hm⟩ := step_moves hst
  cases hm with
  | status hui =>
    have hok := h.ui
    simp only [UiOk, hui] at hok
    obtain ⟨hmax, hstop, hport, -, hheld⟩ := hok
    refine ⟨hstop, ?_⟩
    have hn : n = s.getNumberOfServers := (Event.status.inj (List.mem_singleton.mp hos)).2
    rw [hn, getNumberOfServers_eq hheld (hport ▸ hmax)]

/-- **The number shown is the number of running servers if and only if no
thread has taken the branch `if (nc == nullptr) return -1` before.** -/
theorem number_shown_eq_running_iff (h : system.Run ls s tr) {pNo n : Int}
    (hst : system.step s .status = some (s', os)) (hos : Event.status pNo n ∈ os) :
    n = s.runningServers ↔ system.Avoids GivesUp ls := by
  obtain ⟨hstop, hn⟩ := status_shows (run_ok h) hst hos
  rw [← noneGaveUp_iff h, ← (run_ok h).running_eq_length hstop, hn]
  constructor
  · intro heq
    omega
  · intro heq
    omega

/-- The equivalence at the first click, the thread having bound its port. -/
theorem number_shown_first_server :
    ∃ s tr, system.Run (clickAndBind { calloc := some 1, listenOk := true }) s tr ∧
      ((1 : Int) = s.runningServers ↔
        system.Avoids GivesUp (clickAndBind { calloc := some 1, listenOk := true })) := by
  obtain ⟨s, tr, hrun, hshown⟩ := Machine.exists_run_of_check (M := system)
    (clickAndBind { calloc := some 1, listenOk := true })
    (fun s _ => (system.step s .status).map Prod.snd = some [.status 8000 1]) (by decide)
  obtain ⟨⟨s', os⟩, hst, hos⟩ := Option.map_eq_some_iff.mp hshown
  have hmem : Event.status 8000 1 ∈ os := by
    rw [show os = [.status 8000 1] from hos]
    exact List.mem_singleton_self _
  exact ⟨s, tr, hrun, number_shown_eq_running_iff hrun hst hmem⟩

/-- `mg_bind` fails and the thread returns before the handler reads the number:
one server is shown, none is running. -/
theorem number_shown_after_failed_bind :
    ∃ s tr, system.Run (clickAndBind { listenOk := false } ++ [.worker 0 {}]) s tr ∧
      (system.step s .status).map Prod.snd = some [.status 8000 1] ∧ s.runningServers = 0 :=
  Machine.exists_run_of_check _
    (fun s _ => (system.step s .status).map Prod.snd = some [.status 8000 1] ∧
      s.runningServers = 0) (by decide)

end SimplestWeb.Minimal
