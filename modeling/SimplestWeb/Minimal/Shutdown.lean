import SimplestWeb.Minimal.Lifetime

/-!
# No thread is lost

`webServerList` is keyed by `startPortNo`, which grows by one for each thread
stored; so the assignment always targets a new key, and until `MyApp::OnExit`
every thread is held by one entry (for the time of the call that creates it,
by the temporary). `MyApp::OnExit` joins them all: that part is the
fork/join discipline of `Lifetime`.
-/

namespace SimplestWeb.Minimal

open SimplestWeb.Lib SimplestWeb.Mongoose
open Machine (Run)

variable {s s' : Sys} {l : Label} {os tr : List Event} {ls : List Label}

/-- A call of `MyApp::StartWebServer`. -/
def Label.isClick : Label → Bool
  | .click _ => true
  | _ => false

/-- Every thread is accounted for. -/
structure NoThreadLost (s : Sys) : Prop where
  /-- the entry assigned to is new: `std::terminate` is not called -/
  assignment : ∀ t, s.ui = .assign t → s.webServerList.lookup s.startPortNo = none
  /-- the thread about to be assigned is held by the temporary only -/
  temporary : ∀ t, s.ui = .assign t →
    s.workers.length = t + 1 ∧ ∀ k, s.webServerList.lookup k ≠ some (some t)
  /-- before `MyApp::OnExit` every other thread is held by exactly one entry -/
  held : s.stopIt = false → ∀ t < s.workers.length, s.ui ≠ .assign t →
    ∃! k, s.webServerList.lookup k = some (some t)
  /-- the counter does not overflow -/
  counter : s.ui = .increment → s.startPortNo < INT_MAX
  /-- a failed construction changes nothing -/
  threw : ∀ s' os, system.step s (.click false) = some (s', os) →
    s'.webServerList = s.webServerList ∧ s'.startPortNo = s.startPortNo ∧ s'.workers = s.workers
  /-- shutdown is complete, and the map can be destroyed -/
  exited : s.ui = .exited →
    (∀ w ∈ s.workers, w.returned = true) ∧ ∀ k t, s.webServerList.lookup k ≠ some (some t)

/-! ## Before `MyApp::OnExit` -/

/-- How many threads the map holds before `MyApp::OnExit`. -/
theorem UiOk.held (h : UiOk s) (hstop : s.stopIt = false) :
    (∃ t, s.ui = .assign t ∧ s.workers.length = t + 1 ∧ s.startPortNo = portOf t ∧
      Held s.webServerList t) ∨
    (∀ t, s.ui ≠ .assign t) ∧ Held s.webServerList s.workers.length := by
  unfold UiOk at h
  obtain ⟨-, h⟩ := h
  split at h
  next hui => exact Or.inr ⟨by simp [hui], h.2.2⟩
  next t hui => exact Or.inl ⟨t, hui, h.2.2.1, h.2.1, h.2.2.2⟩
  next hui => exact Or.inr ⟨by simp [hui], h.2.2⟩
  next pNo hui => exact Or.inr ⟨by simp [hui], h.2.2.2⟩
  next rest hui =>
    rw [h.1] at hstop
    cases hstop
  next hui =>
    rw [h.1] at hstop
    cases hstop

/-- A thread in the map is held by the entry of its port, and no other. -/
theorem Held.existsUnique {list : WebServerList} {m t : Nat} (h : Held list m) (ht : t < m) :
    ∃! k, list.lookup k = some (some t) :=
  ⟨portOf t, h.handle.mpr ⟨ht, rfl⟩, fun _ hk => (h.handle.mp hk).2⟩

/-! ## Counting the calls -/

/-- No more threads than calls of `MyApp::StartWebServer`. -/
theorem workers_le_clicks (h : system.Run ls s tr) :
    s.workers.length ≤ ls.countP Label.isClick := by
  refine Run.induct (P := fun ls s _ => s.workers.length ≤ ls.countP Label.isClick) ?_ ?_ h
  · exact Nat.le_refl 0
  · intro ls s tr l s' os _ ih hst
    rw [List.countP_append, List.countP_singleton]
    cases (step_moves hst).2 with
    | construct hui =>
      rw [List.length_append, List.length_singleton, if_pos (show Label.isClick (.click true) from rfl)]
      omega
    | worker hw hret hst =>
      rw [List.length_set]
      omega
    | _ =>
      show s.workers.length ≤ _
      omega

/-- The counter is below `INT_MAX` when it is incremented. -/
theorem UiOk.counter (h : UiOk s) (hui : s.ui = .increment) :
    s.startPortNo + 1 = STARTINGPORTNO + s.workers.length := by
  simp only [UiOk, hui] at h
  exact h.2.2.1

/-- **No thread is lost, and shutdown is complete**, in every run with fewer than
`2 ^ 31 - 8000` calls of `MyApp::StartWebServer`. -/
theorem no_thread_lost (h : system.Run ls s tr)
    (hclicks : ls.countP Label.isClick < 2 ^ 31 - 8000) : NoThreadLost s where
  assignment := by
    intro t hui
    obtain ⟨-, hport, hheld⟩ := (run_ok h).ui.assign hui
    rw [hport]
    exact hheld.fresh
  temporary := by
    intro t hui
    obtain ⟨hlen, -, hheld⟩ := (run_ok h).ui.assign hui
    refine ⟨hlen, ?_⟩
    intro k hk
    exact Nat.lt_irrefl t (hheld.handle.mp hk).1
  held := by
    intro hstop t ht hne
    rcases (run_ok h).ui.held hstop with ⟨u, hui, hlen, -, hheld⟩ | ⟨-, hheld⟩
    · have hut : u ≠ t := by
        rintro rfl
        exact hne hui
      exact hheld.existsUnique (by omega)
    · exact hheld.existsUnique ht
  counter := by
    intro hui
    have hport := (run_ok h).ui.counter hui
    have hle := workers_le_clicks h
    unfold STARTINGPORTNO at hport
    unfold INT_MAX
    omega
  threw := by
    intro s' os hst
    cases (step_moves hst).2 with
    | throw hui => exact ⟨rfl, rfl, rfl⟩
  exited := by
    intro hui
    refine ⟨?_, ?_⟩
    · intro w hmem
      obtain ⟨t, hw⟩ := List.mem_iff_getElem?.mp hmem
      exact exited_returned h hui hw
    · intro k t hk
      exact absurd ((run_ok h).ui.exited hui k t hk).2 List.not_mem_nil

/-- Two servers at work at the same time, to the end of the program. The second one is joined
first. -/
def twoServers : List Label :=
  clickAndBind { calloc := some 1, listenOk := true } ++
    secondClickAndBind { calloc := some 3, listenOk := true } ++
    .status :: (List.replicate 6 [.worker 0 {}, .worker 1 {}]).flatten ++
    .onExit [8001, 8000] :: (List.replicate 13 [.worker 0 {}, .worker 1 {}]).flatten ++
    [.join, .join, .exit]

theorem no_thread_lost_two_servers :
    ∃ s tr, system.Run twoServers s tr ∧ s.ui = .exited ∧ s.workers.length = 2 ∧
      [.joined 1, .joined 0, .exited] <:+ tr ∧ NoThreadLost s := by
  obtain ⟨s, tr, hrun, hui, hlen, hjoined⟩ := Machine.exists_run_of_check (M := system) twoServers
    (fun s tr => s.ui = .exited ∧ s.workers.length = 2 ∧ [.joined 1, .joined 0, .exited] <:+ tr)
    (by decide +kernel)
  exact ⟨s, tr, hrun, hui, hlen, hjoined, no_thread_lost hrun (by decide +kernel)⟩

end SimplestWeb.Minimal
