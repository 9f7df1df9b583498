import SimplestWeb.Minimal.SystemInv
import Mathlib.Data.List.Count

/-!
# What holds after every run

`SysOk` puts the outlines together, `TraceOk` says how the trace determines
the state: the two counts of a thread's manager, and who accepted a live
connection last (an address may be handed out again, so "last" matters).
`run_ok` and `run_trace` are the inductions along the run that all results
about the program go through.
-/

namespace SimplestWeb.Minimal

open SimplestWeb.Lib SimplestWeb.Mongoose
open Machine (Run)

variable {s s' : Sys} {l : Label} {os tr : List Event} {ls : List Label}

/-! ## The invariant -/

/-- The invariant of the program. -/
structure SysOk (s : Sys) : Prop where
  threads : ThreadsOk s.workers s.net
  ui : UiOk s
  calm : s.stopIt = false → ∀ (t : Nat) (w : Worker), s.workers[t]? = some w → w.pc.tearsDown = false

theorem SysOk.init : SysOk {} where
  threads := by
    refine ⟨?_, ?_, ?_, ?_⟩
    · simp
    · simp
    · simp
    · intro t _
      refine ⟨?_, rfl⟩
      intro a c hc
      cases hc
  ui := ⟨by decide, rfl, rfl, Held.empty⟩
  calm := by simp

/-- When a thread is created, `startPortNo` is its port. -/
theorem UiOk.idle (h : UiOk s) (hui : s.ui = .idle) :
    s.startPortNo = portOf s.workers.length := by
  simp only [UiOk, hui] at h
  exact h.2.2.1

/-- `MyApp::OnExit` has not begun while a thread is being assigned. -/
theorem UiOk.assign (h : UiOk s) {t : Nat} (hui : s.ui = .assign t) :
    s.workers.length = t + 1 ∧ s.startPortNo = portOf t ∧ Held s.webServerList t := by
  simp only [UiOk, hui] at h
  exact ⟨h.2.2.2.1, h.2.2.1, h.2.2.2.2⟩

theorem SysOk.step (h : SysOk s) (hm : Moves s l s' os) : SysOk s' := by
  refine ⟨?_, h.ui.step hm, ?_⟩
  · rcases hm.threads with ⟨hws, hn, -⟩ | ⟨hws, hn, hui, -⟩ | ⟨t, w, w', env, n', evs, hstep⟩
    · rw [hws, hn]
      exact h.threads
    · rw [hws, hn]
      exact h.threads.construct (h.ui.idle hui)
    · obtain ⟨-, hw, hret, hst, rfl, -⟩ := hstep
      exact h.threads.step hw (startWebServer_ok (h.threads.ok t w hw) (h.threads.mgr t w hw) hret hst)
  -- while `stopIt` is not set no thread tears down its manager
  · intro hstop
    cases hm with
    | construct hui =>
      intro t w hw
      rcases getElem?_snoc_cases hw with hw | ⟨-, rfl⟩
      · exact h.calm hstop t w hw
      · rfl
    | onExit hui hperm => cases hstop
    | @worker t w w' env n' evs hw hret hst =>
      intro u v hv
      rcases getElem?_set_cases hv with ⟨rfl, rfl⟩ | ⟨-, hv⟩
      · have hcalm := h.calm hstop _ w hw
        rw [show s.stopIt = false from hstop] at hst
        cases startWebServer_flow hret hst with
        | goOn _ _ _ _ hdown =>
          cases hd : v.pc.tearsDown with
          | false => rfl
          | true =>
            rcases hdown hd with hd' | hd'
            · rw [hcalm] at hd'
              cases hd'
            · cases hd'
        | giveUp _ hpc _ =>
          rw [hpc]
          rfl
        | finish hpc _ _ =>
          rw [hpc] at hcalm
          cases hcalm
      · exact h.calm hstop u v hv
    | _ => exact h.calm hstop

/-- **The invariant holds after every run.** -/
theorem run_ok (h : system.Run ls s tr) : SysOk s :=
  Run.inv SysOk.init (fun hs hst => hs.step (step_moves hst).2) h

/-! ## The trace -/

/-- The acceptance of `nc`, if that is what `e` shows: by which thread, and
through which listener. -/
def Event.acceptOf (nc : ConnPtr) : Event → Option (Nat × ConnPtr)
  | .worker t (.mg (.accepted lc a)) => if a = nc then some (t, lc) else none
  | _ => none

/-- Who accepted `nc` last. -/
def lastAccept (tr : List Event) (nc : ConnPtr) : Option (Nat × ConnPtr) :=
  (tr.filterMap (Event.acceptOf nc)).getLast?

theorem lastAccept_append (tr os : List Event) (nc : ConnPtr) :
    lastAccept (tr ++ os) nc = (lastAccept os nc).or (lastAccept tr nc) := by
  unfold lastAccept
  rw [List.filterMap_append, List.getLast?_append]

/-- Only the acceptances among the events of mongoose count. -/
theorem lastAccept_eq_none {nc : ConnPtr}
    (h : ∀ t lc a, Event.worker t (.mg (.accepted lc a)) ∉ os) : lastAccept os nc = none := by
  unfold lastAccept
  rw [List.getLast?_eq_none_iff, List.filterMap_eq_nil_iff]
  intro e he
  unfold Event.acceptOf
  split
  next t lc a => exact absurd he (h t lc a)
  next => rfl

/-- What the trace says about the state. -/
structure TraceOk (s : Sys) (tr : List Event) : Prop where
  acts : ∀ t e, .worker t e ∈ tr → t < s.workers.length
  counts : ∀ (t : Nat) (w : Worker), s.workers[t]? = some w →
    tr.count (.worker t .mgrInit) = w.pc.inits ∧ tr.count (.worker t .mgrFree) = w.pc.frees
  returned : ∀ (t : Nat) (w : Worker) (v : Int), s.workers[t]? = some w → w.pc = .done v →
    .worker t (.returned v) ∈ tr
  accepts : ∀ a c lc, s.net.heap a = some c → c.listener = some lc →
    lastAccept tr a = some (c.mgr, lc)

theorem count_worker_self (t : Nat) (evs : List WorkerEvent) (e : WorkerEvent) :
    (evs.map (Event.worker t)).count (.worker t e) = evs.count e := by
  refine List.count_map_of_injective _ _ ?_ _
  intro e₁ e₂ h
  cases h
  rfl

theorem count_worker_ne {t u : Nat} (hu : u ≠ t) (evs : List WorkerEvent) (e : WorkerEvent) :
    (evs.map (Event.worker t)).count (.worker u e) = 0 := by
  rw [List.count_eq_zero]
  intro hmem
  obtain ⟨e', _, he⟩ := List.mem_map.mp hmem
  cases he
  exact hu rfl

/-- Nothing concerning a thread is shown: its counts do not change. -/
theorem count_append_of_not_mem {e : Event} (h : e ∉ os) : (tr ++ os).count e = tr.count e := by
  rw [List.count_append, List.count_eq_zero.mpr h, Nat.add_zero]

theorem filterMap_acceptOf (t : Nat) (nc : ConnPtr) (evs : List WorkerEvent) :
    (evs.map (Event.worker t)).filterMap (Event.acceptOf nc) =
      (mgEvents evs).filterMap fun e => Event.acceptOf nc (.worker t (.mg e)) := by
  unfold mgEvents
  rw [List.filterMap_map, List.filterMap_filterMap]
  congr 1
  funext e
  cases e <;> rfl

/-- The connections after a step of thread `t` and their last acceptances. -/
theorem TraceOk.accept {n n' : Net} {t : Nat} {evs : List WorkerEvent}
    (h : ∀ a c lc, n.heap a = some c → c.listener = some lc →
      lastAccept tr a = some (c.mgr, lc))
    (hacc : Accepts t n n' (mgEvents evs)) (a : ConnPtr) (c : MgConnection) (lc : ConnPtr)
    (hc : n'.heap a = some c) (hl : c.listener = some lc) :
    lastAccept (tr ++ evs.map (.worker t)) a = some (c.mgr, lc) := by
  rw [lastAccept_append]
  unfold lastAccept
  rw [filterMap_acceptOf]
  rcases hacc with ⟨hnone, hold⟩ | ⟨l, b, d, hevs, -, hd, hmgr, hdl, hrest⟩
  · have hnil : ((mgEvents evs).filterMap fun e => Event.acceptOf a (.worker t (.mg e))) = [] := by
      rw [List.filterMap_eq_nil_iff]
      intro e he
      cases e with
      | accepted l b => exact absurd he (hnone l b)
      | request b => rfl
    obtain ⟨c₀, hc₀, hm, hl₀⟩ := hold a c hc (by rw [hl]; exact Option.some_ne_none lc)
    rw [hnil, ← hm]
    exact h a c₀ lc hc₀ (hl₀.trans hl)
  · rw [hevs]
    -- either the connection is the new one, or its last acceptance is the old one
    by_cases hab : a = b
    · subst hab
      obtain rfl : d = c := Option.some.inj (hd.symm.trans hc)
      obtain rfl : l = lc := Option.some.inj (hdl.symm.trans hl)
      simp [Event.acceptOf, hmgr]
    · have hba : ¬ b = a := fun hba => hab hba.symm
      simp only [Event.acceptOf, hba, List.filterMap_cons, List.filterMap_nil]
      exact h a c lc (hrest a c hab hc) hl

/-- Steps that are not a thread's. -/
theorem TraceOk.other (h : TraceOk s tr) (hws : ∀ t w, s'.workers[t]? = some w →
      s.workers[t]? = some w ∨ t = s.workers.length ∧ w.pc = .start)
    (hlen : s.workers.length ≤ s'.workers.length) (hn : s'.net = s.net)
    (hos : ∀ t e, Event.worker t e ∉ os) : TraceOk s' (tr ++ os) where
  acts := by
    intro t e he
    rcases List.mem_append.mp he with he | he
    · have := h.acts t e he
      omega
    · exact absurd he (hos t e)
  counts := by
    intro t w hw
    rw [count_append_of_not_mem (hos t _), count_append_of_not_mem (hos t _)]
    rcases hws t w hw with hw | ⟨rfl, hpc⟩
    · exact h.counts t w hw
    · -- the thread has just been created: nothing of it is in the trace yet
      have hnot : ∀ e, Event.worker s.workers.length e ∉ tr := fun e he =>
        Nat.lt_irrefl _ (h.acts _ e he)
      rw [List.count_eq_zero.mpr (hnot _), List.count_eq_zero.mpr (hnot _), hpc]
      exact ⟨rfl, rfl⟩
  returned := by
    intro t w v hw hpc
    rcases hws t w hw with hw | ⟨-, hstart⟩
    · exact List.mem_append_left _ (h.returned t w v hw hpc)
    · rw [hstart] at hpc
      cases hpc
  accepts := by
    intro a c lc hc hl
    rw [hn] at hc
    rw [lastAccept_append, lastAccept_eq_none fun t lc a => hos t _]
    exact h.accepts a c lc hc hl

/-- A thread's step. -/
theorem TraceOk.worker (h : TraceOk s tr) {t : Nat} {w w' : Worker} {n' : Net}
    {evs : List WorkerEvent} (hw : s.workers[t]? = some w)
    (hst : WorkerStepOk s.net n' t w w' evs) (hflow : Flow s.stopIt w w' evs) :
    TraceOk { s with workers := s.workers.set t w', net := n' } (tr ++ evs.map (.worker t)) where
  acts := by
    intro u e he
    show u < (s.workers.set t w').length
    rw [List.length_set]
    rcases List.mem_append.mp he with he | he
    · exact h.acts u e he
    · obtain ⟨e', _, he'⟩ := List.mem_map.mp he
      cases he'
      exact (List.getElem?_eq_some_iff.mp hw).1
  counts := by
    intro u v hv
    rw [List.count_append, List.count_append]
    rcases getElem?_set_cases hv with ⟨rfl, rfl⟩ | ⟨hu, hv⟩
    · obtain ⟨hi, hf⟩ := h.counts u w hw
      rw [count_worker_self, count_worker_self, hi, hf, hst.inits, hst.frees]
      exact ⟨rfl, rfl⟩
    · rw [count_worker_ne hu, count_worker_ne hu]
      exact h.counts u v hv
  returned := by
    intro u v r hv hpc
    rcases getElem?_set_cases hv with ⟨rfl, rfl⟩ | ⟨-, hv⟩
    · refine List.mem_append_right _ (List.mem_map_of_mem ?_)
      cases hflow with
      | goOn hret _ _ _ _ =>
        rw [returned_of_done hpc] at hret
        cases hret
      | giveUp _ hpc' hevs | finish _ hpc' hevs =>
        rw [hevs, WorkerPc.done.inj (hpc.symm.trans hpc')]
        exact List.mem_singleton_self _
    · exact List.mem_append_left _ (h.returned u v r hv hpc)
  accepts := TraceOk.accept h.accepts hst.accepts

theorem TraceOk.step (h : TraceOk s tr) (hs : SysOk s) (hm : Moves s l s' os) :
    TraceOk s' (tr ++ os) := by
  rcases hm.threads with ⟨hws, hn, hos⟩ | ⟨hws, hn, -, rfl⟩ | ⟨t, w, w', env, n', evs, hstep⟩
  · refine h.other ?_ (by rw [hws]) hn hos
    intro t w hw
    rw [hws] at hw
    exact Or.inl hw
  · refine h.other ?_ ?_ hn (by simp)
    · intro t w hw
      rw [hws] at hw
      rcases getElem?_snoc_cases hw with hw | ⟨ht, rfl⟩
      · exact Or.inl hw
      · exact Or.inr ⟨ht, rfl⟩
    · rw [hws, List.length_append]
      omega
  · obtain ⟨-, hw, hret, hst, rfl, rfl⟩ := hstep
    exact h.worker hw
      (startWebServer_ok (hs.threads.ok t w hw) (hs.threads.mgr t w hw) hret hst)
      (startWebServer_flow hret hst)

/-- **The trace determines the counts and the acceptances.** -/
theorem run_trace (h : system.Run ls s tr) : TraceOk s tr := by
  refine Run.induct (P := fun _ s tr => TraceOk s tr) ?_ ?_ h
  · refine ⟨by simp, by simp [system], by simp [system], ?_⟩
    intro a c lc hc
    cases hc
  · intro ls s tr l s' os hrun ih hst
    exact ih.step (run_ok hrun) (step_moves hst).2

end SimplestWeb.Minimal
