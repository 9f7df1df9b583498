import SimplestWeb.Lib.ForkJoin
import SimplestWeb.Minimal.RunInv

/-!
# The threads follow the fork/join discipline

`Sys.pool` forgets everything but which threads run and which are held, by an
entry of `webServerList` or by the temporary of `MyApp::StartWebServer`. The
program refines the fork/join discipline under this abstraction
(`run_forkJoin`); that `MyApp::OnExit` waits for every thread is then the
discipline's own theorem (`exited_returned`).

The last section is about the one way a thread ends early: the branch
`if (nc == nullptr) return -1`.
-/

namespace SimplestWeb.Minimal

open SimplestWeb.Lib SimplestWeb.Mongoose
open Machine (Run Trail)

variable {s s' : Sys} {l : Label} {os tr : List Event} {ls : List Label}

/-! ## The abstraction -/

/-- Who runs, and who is held by whom. -/
def Sys.pool (s : Sys) : ForkJoin.Pool Nat where
  running := fun t => ∃ w, s.workers[t]? = some w ∧ w.returned = false
  held := fun t => s.ui = .assign t ∨ ∃ k, s.webServerList.lookup k = some (some t)

/-- What an event means for the pool. -/
def Event.view : Event → Option (ForkJoin.Ev Nat)
  | .created t _ => some (.fork t)
  | .worker t (.returned _) => some (.finish t)
  | .worker t _ => some (.act t)
  | .joined t => some (.join t)
  | .exited => some .close
  | .threw | .status _ _ | .stopIt | .fault _ => none

theorem Sys.mem_running {t : Nat} :
    t ∈ s.pool.running ↔ ∃ w, s.workers[t]? = some w ∧ w.returned = false := Iff.rfl

theorem Sys.mem_held {t : Nat} :
    t ∈ s.pool.held ↔ s.ui = .assign t ∨ ∃ k, s.webServerList.lookup k = some (some t) := Iff.rfl

/-- Two states with the same threads and the same holders have the same pool. -/
theorem Sys.pool_congr (hws : s'.workers = s.workers)
    (hheld : ∀ t, t ∈ s'.pool.held ↔ t ∈ s.pool.held) : s'.pool = s.pool := by
  refine ForkJoin.Pool.ext ?_ (Set.ext hheld)
  ext t
  rw [Sys.mem_running, Sys.mem_running, hws]

/-- The pool when the map holds the first `m` threads and no thread is being
assigned. -/
theorem Held.mem_held (h : Held s.webServerList m) (hui : ∀ t, s.ui ≠ .assign t) {t : Nat} :
    t ∈ s.pool.held ↔ t < m := by
  rw [Sys.mem_held]
  constructor
  · rintro (ht | ⟨k, hk⟩)
    · exact absurd ht (hui t)
    · exact (h.handle.mp hk).1
  · intro ht
    exact Or.inr ⟨portOf t, h.handle.mpr ⟨ht, rfl⟩⟩

/-- Nothing is left to join, so nothing is held. -/
theorem Joining.held_eq_empty (h : Joining s.webServerList []) (hui : ∀ t, s.ui ≠ .assign t) :
    s.pool.held = ∅ := by
  rw [Set.eq_empty_iff_forall_notMem]
  rintro t (ht | ⟨k, hk⟩)
  · exact hui t ht
  · exact absurd (h k t hk).2 List.not_mem_nil

/-! ## The simulation -/

theorem construct_trail (hs : SysOk s) (hui : s.ui = .idle) :
    Trail ForkJoin.Step s.pool [.fork s.workers.length]
      (Sys.pool { s with workers := s.workers ++ [{ portNo := s.startPortNo }],
                         ui := .assign s.workers.length }) := by
  have hok := hs.ui
  simp only [UiOk, hui] at hok
  obtain ⟨-, -, -, hheld⟩ := hok
  have hmem : ∀ t, t ∈ s.pool.held ↔ t < s.workers.length := fun t =>
    hheld.mem_held (by simp [hui])
  have hfork : ForkJoin.Step s.pool (.fork s.workers.length)
      ⟨insert s.workers.length s.pool.running, insert s.workers.length s.pool.held⟩ := by
    refine ForkJoin.Step.fork ?_
    rw [hmem]
    exact Nat.lt_irrefl _
  have heq : Sys.pool { s with workers := s.workers ++ [{ portNo := s.startPortNo }],
                               ui := .assign s.workers.length } =
      ⟨insert s.workers.length s.pool.running, insert s.workers.length s.pool.held⟩ := by
    refine ForkJoin.Pool.ext ?_ ?_
    · ext t
      rw [Set.mem_insert_iff, Sys.mem_running, Sys.mem_running]
      constructor
      · rintro ⟨w, hw, hret⟩
        rcases getElem?_snoc_cases hw with hw | ⟨ht, -⟩
        · exact Or.inr ⟨w, hw, hret⟩
        · exact Or.inl ht
      · rintro (rfl | ⟨w, hw, hret⟩)
        · exact ⟨_, List.getElem?_concat_length, rfl⟩
        · refine ⟨w, ?_, hret⟩
          rw [List.getElem?_append_left (List.getElem?_eq_some_iff.mp hw).1]
          exact hw
    · ext t
      rw [Set.mem_insert_iff, hmem, Sys.mem_held]
      constructor
      · rintro (ht | ⟨k, hk⟩)
        · exact Or.inl (UiPc.assign.inj ht).symm
        · exact Or.inr (hheld.handle.mp hk).1
      · rintro (rfl | ht)
        · exact Or.inl rfl
        · exact Or.inr ⟨portOf t, hheld.handle.mpr ⟨ht, rfl⟩⟩
  rw [heq]
  exact Trail.single hfork

/-- The thread moves from the temporary into the map. -/
theorem assign_pool (hs : SysOk s) {t : Nat} (hui : s.ui = .assign t) :
    Sys.pool { s with webServerList := s.webServerList.insert s.startPortNo (some t),
                      ui := .increment } = s.pool := by
  have hok := hs.ui
  simp only [UiOk, hui] at hok
  obtain ⟨-, -, hport, hlen, hheld⟩ := hok
  refine Sys.pool_congr rfl ?_
  intro u
  have hnew : Held (s.webServerList.insert s.startPortNo (some t)) (t + 1) := by
    rw [hport]
    exact hheld.insert
  rw [Held.mem_held hnew (by simp), Sys.mem_held, hui]
  constructor
  · intro hu
    by_cases hut : u = t
    · rw [hut]
      exact Or.inl rfl
    · exact Or.inr ⟨portOf u, hheld.handle.mpr ⟨by omega, rfl⟩⟩
  · rintro (hut | ⟨k, hk⟩)
    · rw [UiPc.assign.inj hut]
      omega
    · have := (hheld.handle.mp hk).1
      omega

theorem join_trail (hs : SysOk s) {k : Int} {rest : List Int} {t : Nat} {w : Worker}
    (hui : s.ui = .join (k :: rest)) (hk : s.webServerList.lookup k = some (some t))
    (hw : s.workers[t]? = some w) (hret : w.returned = true) :
    Trail ForkJoin.Step s.pool [.join t]
      (Sys.pool { s with webServerList := s.webServerList.insert k none, ui := .join rest }) := by
  have hok := hs.ui
  simp only [UiOk, hui] at hok
  obtain ⟨-, -, hjoin⟩ := hok
  have hstep : ForkJoin.Step s.pool (.join t) ⟨s.pool.running, s.pool.held \ {t}⟩ := by
    refine ForkJoin.Step.join (Or.inr ⟨k, hk⟩) ?_
    rintro ⟨v, hv, hvret⟩
    obtain rfl : w = v := Option.some.inj (hw.symm.trans hv)
    rw [hret] at hvret
    cases hvret
  have heq : Sys.pool { s with webServerList := s.webServerList.insert k none, ui := .join rest } =
      ⟨s.pool.running, s.pool.held \ {t}⟩ := by
    refine ForkJoin.Pool.ext rfl ?_
    ext u
    rw [Set.mem_sdiff, Set.mem_singleton_iff, Sys.mem_held, Sys.mem_held, hui]
    constructor
    · rintro (hu | ⟨k', hk'⟩)
      · cases hu
      · by_cases hkk : k' = k
        · rw [hkk, AList.lookup_insert] at hk'
          cases hk'
        · rw [AList.lookup_insert_ne hkk] at hk'
          refine ⟨Or.inr ⟨k', hk'⟩, ?_⟩
          -- no two keys hold the same thread
          rintro rfl
          exact hkk ((hjoin k' _ hk').1.trans (hjoin k _ hk).1.symm)
    · rintro ⟨hu | ⟨k', hk'⟩, hut⟩
      · cases hu
      · refine Or.inr ⟨k', ?_⟩
        rw [AList.lookup_insert_ne]
        · exact hk'
        · rintro rfl
          exact hut (Option.some.inj (Option.some.inj (hk'.symm.trans hk)))
  rw [heq]
  exact Trail.single hstep

/-- Who runs after a step of thread `t`. -/
theorem Sys.mem_running_set {t : Nat} {w w' : Worker} {n' : Net} (hw : s.workers[t]? = some w)
    {u : Nat} :
    u ∈ (Sys.pool { s with workers := s.workers.set t w', net := n' }).running ↔
      u = t ∧ w'.returned = false ∨ u ≠ t ∧ u ∈ s.pool.running := by
  rw [Sys.mem_running, Sys.mem_running]
  constructor
  · rintro ⟨v, hv, hret⟩
    rcases getElem?_set_cases hv with ⟨hu, rfl⟩ | ⟨hu, hv⟩
    · exact Or.inl ⟨hu, hret⟩
    · exact Or.inr ⟨hu, v, hv, hret⟩
  · rintro (⟨rfl, hret⟩ | ⟨hu, v, hv, hret⟩)
    · exact ⟨w', List.getElem?_set_self (List.getElem?_eq_some_iff.mp hw).1, hret⟩
    · refine ⟨v, ?_, hret⟩
      show (s.workers.set t w')[u]? = some v
      rw [List.getElem?_set_ne (fun htu => hu htu.symm)]
      exact hv

/-- The thread returns. -/
theorem finish_trail {t : Nat} {w w' : Worker} {n' : Net} (hw : s.workers[t]? = some w)
    (hret : w.returned = false) (hret' : w'.returned = true) :
    Trail ForkJoin.Step s.pool [.finish t]
      (Sys.pool { s with workers := s.workers.set t w', net := n' }) := by
  have hstep : ForkJoin.Step s.pool (.finish t) ⟨s.pool.running \ {t}, s.pool.held⟩ :=
    ForkJoin.Step.finish ⟨w, hw, hret⟩
  have heq : Sys.pool { s with workers := s.workers.set t w', net := n' } =
      ⟨s.pool.running \ {t}, s.pool.held⟩ := by
    refine ForkJoin.Pool.ext ?_ rfl
    ext u
    rw [Sys.mem_running_set hw, hret', Set.mem_sdiff, Set.mem_singleton_iff]
    simp [and_comm]
  rw [heq]
  exact Trail.single hstep

/-- A thread acts, or returns. -/
theorem worker_trail {t : Nat} {w w' : Worker} {n' : Net} {evs : List WorkerEvent}
    (hw : s.workers[t]? = some w) (hret : w.returned = false)
    (hflow : Flow s.stopIt w w' evs) :
    Trail ForkJoin.Step s.pool ((evs.map (Event.worker t)).filterMap Event.view)
      (Sys.pool { s with workers := s.workers.set t w', net := n' }) := by
  cases hflow with
  | goOn hret' hevs _ _ _ =>
    have hsame : Sys.pool { s with workers := s.workers.set t w', net := n' } = s.pool := by
      refine ForkJoin.Pool.ext ?_ rfl
      ext u
      rw [Sys.mem_running_set hw, hret']
      by_cases hu : u = t
      · subst hu
        simpa using ⟨w, hw, hret⟩
      · simp [hu]
    rw [hsame]
    have hrun : t ∈ s.pool.running := ⟨w, hw, hret⟩
    refine ForkJoin.trail_acts hrun ?_
    intro e he
    obtain ⟨e', he', hview⟩ := List.mem_filterMap.mp he
    obtain ⟨e'', he'', rfl⟩ := List.mem_map.mp he'
    cases e'' with
    | returned v => exact absurd he'' (hevs v)
    | mgrInit | bound | mg | mgrFree => exact (Option.some.inj hview).symm
  | giveUp _ hpc hevs =>
    rw [hevs]
    exact finish_trail hw hret (returned_of_done hpc)
  | finish _ hpc hevs =>
    rw [hevs]
    exact finish_trail hw hret (returned_of_done hpc)

/-- Steps of the user interface that change no holder. -/
theorem quiet_trail (hws : s'.workers = s.workers) (hlist : s'.webServerList = s.webServerList)
    (hui' : ∀ t, s'.ui ≠ .assign t) (hui : ∀ t, s.ui ≠ .assign t) :
    Trail ForkJoin.Step s.pool [] s'.pool := by
  have hsame : s'.pool = s.pool := by
    refine Sys.pool_congr hws ?_
    intro t
    rw [Sys.mem_held, Sys.mem_held, hlist]
    simp [hui' t, hui t]
  rw [hsame]
  exact Trail.nil _

/-- **The simulation step.** -/
theorem forkJoin_step (hs : SysOk s) (hm : Moves s l s' os) :
    Trail ForkJoin.Step s.pool (os.filterMap Event.view) s'.pool := by
  cases hm with
  | construct hui => exact construct_trail hs hui
  | throw hui => exact Trail.nil _
  | terminate hui hk => exact Trail.nil _
  | assignThrows hui => exact Trail.nil _
  | assign hui hk =>
    rw [assign_pool hs hui]
    exact Trail.nil _
  | overflow hui hp => exact Trail.nil _
  | increment hui hp =>
    exact quiet_trail rfl rfl (by simp) (by simp [hui])
  | status hui =>
    exact quiet_trail rfl rfl (by simp) (by simp [hui])
  | onExit hui hperm =>
    exact quiet_trail rfl rfl (by simp) (by simp [hui])
  | join hui hk hw hret => exact join_trail hs hui hk hw hret
  | skip hui hk =>
    exact quiet_trail rfl rfl (by simp) (by simp [hui])
  | exit hui =>
    have hok := hs.ui
    simp only [UiOk, hui] at hok
    have hheld : s.pool.held = ∅ := hok.2.2.held_eq_empty (by simp [hui])
    exact (Trail.single (ForkJoin.Step.close hheld)).trans
      (quiet_trail rfl rfl (by simp) (by simp [hui]))
  | worker hw hret hst => exact worker_trail hw hret (startWebServer_flow hret hst)
  | fault hw hret hst => exact Trail.nil _

/-- **The program refines the fork/join discipline.** -/
theorem run_forkJoin (h : system.Run ls s tr) :
    Trail ForkJoin.Step ForkJoin.Pool.empty (tr.filterMap Event.view) s.pool := by
  have hinit : Sys.pool {} = ForkJoin.Pool.empty := by
    refine ForkJoin.Pool.ext ?_ ?_
    · ext t
      simp [Sys.mem_running, ForkJoin.Pool.empty]
    · ext t
      simp [Sys.mem_held, ForkJoin.Pool.empty]
  rw [← hinit]
  exact Run.refines run_ok (fun hs hst => forkJoin_step hs (step_moves hst).2) h

theorem UiOk.exited (h : UiOk s) (hui : s.ui = .exited) : Joining s.webServerList [] := by
  simp only [UiOk, hui] at h
  exact h.2.2

/-- **When `MyApp::OnExit` has returned, every thread has.** -/
theorem exited_returned (h : system.Run ls s tr) (hui : s.ui = .exited) {t : Nat} {w : Worker}
    (hw : s.workers[t]? = some w) : w.returned = true := by
  have hheld : s.pool.held = ∅ := ((run_ok h).ui.exited hui).held_eq_empty (by simp [hui])
  have hrun := (ForkJoin.trail_sound (run_forkJoin h)).running_eq_empty hheld
  cases hret : w.returned with
  | true => rfl
  | false =>
    have hmem : t ∈ s.pool.running := ⟨w, hw, hret⟩
    rw [hrun] at hmem
    exact absurd hmem (Set.notMem_empty t)

/-- **Every thread created before `MyApp::OnExit` returns has returned before.** -/
theorem returned_before_exited (h : system.Run ls s tr) {pre : List Event}
    (hpre : pre ++ [.exited] <+: tr) {t : Nat} {portNo : Int} (hc : .created t portNo ∈ pre) :
    ∃ v, .worker t (.returned v) ∈ pre := by
  obtain ⟨suf, rfl⟩ := hpre
  have htrail := run_forkJoin h
  rw [List.filterMap_append, List.filterMap_append] at htrail
  obtain ⟨p, hpool, -⟩ := htrail.split
  have hfork : ForkJoin.Ev.fork t ∈ pre.filterMap Event.view :=
    List.mem_filterMap.mpr ⟨_, hc, rfl⟩
  obtain ⟨e, he, hview⟩ := List.mem_filterMap.mp (ForkJoin.close_finished hpool hfork)
  cases e with
  | worker u e =>
    cases e with
    | returned v =>
      cases hview
      exact ⟨v, he⟩
    | mgrInit | bound | mg | mgrFree => cases hview
  | created | threw | status | stopIt | joined | exited | fault => cases hview

/-! ## Giving up -/

/-- The step takes the branch `if (nc == nullptr) return -1`. -/
def GivesUp (s : Sys) (l : Label) : Prop :=
  ∃ t env w, l = .worker t env ∧ s.workers[t]? = some w ∧ w.givesUp

/-- No thread has returned `-1`. -/
def NoneGaveUp (s : Sys) : Prop :=
  ∀ (t : Nat) (w : Worker), s.workers[t]? = some w → w.pc ≠ .done (-1)

theorem NoneGaveUp.congr (hws : s'.workers = s.workers) : NoneGaveUp s' ↔ NoneGaveUp s := by
  unfold NoneGaveUp
  rw [hws]

/-- The branch is taken without an error. -/
theorem startWebServer_givesUp {stopIt : Bool} {ws : List Worker} {t : Nat} {w : Worker} {n : Net}
    {env : WorkerEnv} (h : w.givesUp) :
    startWebServer stopIt ws t w n env =
      .ok ({ w with pc := .done (-1) }, n, [.returned (-1)]) := by
  obtain ⟨hpc, hnc⟩ := h
  unfold startWebServer
  rw [hpc]
  simp only [hnc]

/-- A step of thread `t` and the threads that have given up. -/
theorem noneGaveUp_worker {t : Nat} {w w' : Worker} {env : WorkerEnv} {n' : Net}
    {evs : List WorkerEvent} (hw : s.workers[t]? = some w) (hret : w.returned = false)
    (hflow : Flow s.stopIt w w' evs) :
    NoneGaveUp { s with workers := s.workers.set t w', net := n' } ↔
      NoneGaveUp s ∧ ¬ GivesUp s (.worker t env) := by
  have hset : (s.workers.set t w')[t]? = some w' :=
    List.getElem?_set_self (List.getElem?_eq_some_iff.mp hw).1
  -- `-1` is returned in one place
  have hpc : w'.pc = .done (-1) ↔ w.givesUp := by
    cases hflow with
    | goOn hret' _ _ hnot _ =>
      refine iff_of_false ?_ hnot
      intro hpc
      rw [returned_of_done hpc] at hret'
      cases hret'
    | giveUp hg hpc _ => exact iff_of_true hpc hg
    | finish hpc hpc' _ =>
      refine iff_of_false ?_ ?_
      · rw [hpc']
        decide
      · intro hg
        rw [hg.1] at hpc
        cases hpc
  constructor
  · intro h
    refine ⟨?_, ?_⟩
    · intro u v hv
      by_cases hu : u = t
      · subst hu
        obtain rfl : w = v := Option.some.inj (hw.symm.trans hv)
        intro hdone
        rw [returned_of_done hdone] at hret
        cases hret
      · refine h u v ?_
        show (s.workers.set t w')[u]? = some v
        rw [List.getElem?_set_ne (fun htu => hu htu.symm)]
        exact hv
    · rintro ⟨u, env', v, hl, hv, hg⟩
      cases hl
      obtain rfl : w = v := Option.some.inj (hw.symm.trans hv)
      exact h t w' hset (hpc.mpr hg)
  · rintro ⟨h, hnot⟩ u v hv
    rcases getElem?_set_cases hv with ⟨rfl, rfl⟩ | ⟨-, hv⟩
    · intro hdone
      exact hnot ⟨u, env, w, rfl, hw, hpc.mp hdone⟩
    · exact h u v hv

theorem noneGaveUp_step (hm : Moves s l s' os) :
    NoneGaveUp s' ↔ NoneGaveUp s ∧ ¬ GivesUp s l := by
  cases hm with
  | worker hw hret hst => exact noneGaveUp_worker hw hret (startWebServer_flow hret hst)
  | @fault t w env f hw hret hst =>
    refine (and_iff_left ?_).symm
    rintro ⟨u, env', v, hl, hv, hg⟩
    cases hl
    obtain rfl : w = v := Option.some.inj (hw.symm.trans hv)
    rw [startWebServer_givesUp hg] at hst
    cases hst
  | construct hui =>
    have hnot : ¬ GivesUp s (.click true) := by
      rintro ⟨_, _, _, hl, _⟩
      cases hl
    rw [and_iff_left hnot]
    constructor
    · intro h t w hw
      refine h t w ?_
      show (s.workers ++ _)[t]? = some w
      rw [List.getElem?_append_left (List.getElem?_eq_some_iff.mp hw).1]
      exact hw
    · intro h t w hw
      rcases getElem?_snoc_cases hw with hw | ⟨-, rfl⟩
      · exact h t w hw
      · exact fun hpc => by cases hpc
  | _ =>
    refine (NoneGaveUp.congr rfl).trans (and_iff_left ?_).symm
    rintro ⟨_, _, _, hl, _⟩
    cases hl

/-- **No thread has given up if and only if no step of the run took that
branch.** -/
theorem noneGaveUp_iff (h : system.Run ls s tr) :
    NoneGaveUp s ↔ system.Avoids GivesUp ls := by
  refine Run.avoids_iff ?_ (fun _ hst => noneGaveUp_step (step_moves hst).2) h
  intro t w hw
  simp [system] at hw

end SimplestWeb.Minimal
