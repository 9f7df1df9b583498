import SimplestWeb.Minimal.Lifetime

/-!
# The managers

`mg_mgr_init` runs before `mg_bind` and `mg_mgr_free` after the polling loop;
the branch between them returns without freeing. `NoManagerLeaked` says that
a thread frees its manager exactly once before it returns, and what follows
for the number of managers; a run has the property exactly when that branch
was never taken (`noManagerLeaked_iff`).
-/

namespace SimplestWeb.Minimal

open SimplestWeb.Lib SimplestWeb.Mongoose
open Machine (Run)

variable {s s' : Sys} {l : Label} {os tr : List Event} {ls : List Label}

/-- The managers of the run `tr` up to the state `s` are all accounted for. -/
structure NoManagerLeaked (s : Sys) (tr : List Event) : Prop where
  /-- when a thread returns, it has initialised and freed its manager, once each -/
  released : ∀ t v pre, pre ++ [.worker t (.returned v)] <+: tr →
    pre.count (.worker t .mgrInit) = 1 ∧ pre.count (.worker t .mgrFree) = 1
  /-- nothing is initialised twice, or freed more often than initialised -/
  once : ∀ t, tr.count (.worker t .mgrFree) ≤ tr.count (.worker t .mgrInit) ∧
    tr.count (.worker t .mgrInit) ≤ 1
  bounded : s.liveManagers ≤ s.runningServers
  exited : s.ui = .exited → s.liveManagers = 0

/-! ## Counting -/

theorem WorkerPc.frees_le (pc : WorkerPc) : pc.frees ≤ pc.inits ∧ pc.inits ≤ 1 := by
  cases pc with
  | done v =>
    show (if v = 0 then 1 else 0) ≤ 1 ∧ 1 ≤ 1
    split <;> omega
  | _ => simp [WorkerPc.frees, WorkerPc.inits]

/-- A thread that did not give up holds its manager only while it runs. -/
theorem not_returned_of_holdsMgr {n : Net} {t : Nat} {w : Worker} (hok : WorkerOk n t w)
    (hnone : w.pc ≠ .done (-1)) (h : w.pc.holdsMgr = true) : w.returned = false := by
  refine not_returned ?_
  intro v hv
  unfold WorkerOk at hok
  rw [hv] at hok hnone h
  rcases hok with ⟨rfl, -⟩ | ⟨rfl, -⟩
  · cases h
  · exact hnone rfl

/-- Counting over the positions of a list and over its elements. -/
theorem countP_range_le {α : Type} {l : List α} {p : Nat → Bool} {q : α → Bool}
    (h : ∀ i a, l[i]? = some a → p i = true → q a = true) :
    (List.range l.length).countP p ≤ l.countP q := by
  induction l using List.reverseRecOn with
  | nil => exact Nat.le_refl 0
  | append_singleton l a ih =>
    have hinit := ih fun i b hb => h i b
      (by rw [List.getElem?_append_left (List.getElem?_eq_some_iff.mp hb).1]; exact hb)
    have hlast : [l.length].countP p ≤ [a].countP q := by
      have hla := h l.length a List.getElem?_concat_length
      rw [List.countP_singleton, List.countP_singleton]
      split
      next hp => rw [if_pos (hla hp)]
      next => exact Nat.zero_le _
    rw [List.length_append, List.length_singleton, List.range_succ, List.countP_append,
      List.countP_append]
    omega

theorem liveManagers_le (hs : SysOk s) (hnone : NoneGaveUp s) :
    s.liveManagers ≤ s.runningServers := by
  refine countP_range_le ?_
  intro t w hw hmgr
  rw [hs.threads.mgr t w hw] at hmgr
  rw [not_returned_of_holdsMgr (hs.threads.ok t w hw) (hnone t w hw) hmgr]
  rfl

/-- When `MyApp::OnExit` has returned, no server is running. -/
theorem runningServers_exited (h : system.Run ls s tr) (hui : s.ui = .exited) :
    s.runningServers = 0 := by
  unfold Sys.runningServers
  rw [List.countP_eq_zero]
  intro w hmem
  obtain ⟨t, hw⟩ := List.mem_iff_getElem?.mp hmem
  rw [exited_returned h hui hw]
  simp

/-! ## Along the run -/

/-- Where an event of a longer trace can be. -/
theorem prefix_snoc_cases {e : Event} {pre : List Event} (h : pre ++ [e] <+: tr ++ os) :
    pre ++ [e] <+: tr ∨ ∃ q, q ++ [e] <+: os ∧ pre = tr ++ q := by
  rcases List.prefix_or_prefix_of_prefix h (List.prefix_append tr os) with hle | hge
  · exact Or.inl hle
  · rcases List.prefix_concat_iff.mp hge with rfl | hge
    · exact Or.inl List.prefix_rfl
    · obtain ⟨q, rfl⟩ := hge
      rw [List.append_assoc, List.prefix_append_right_inj] at h
      exact Or.inr ⟨q, h, rfl⟩

/-- The only event of a returning step. -/
theorem snoc_prefix_singleton {e e' : Event} {q : List Event} (h : q ++ [e] <+: [e']) :
    q = [] ∧ e = e' := by
  have hlen := h.length_le
  rw [List.length_append, List.length_singleton, List.length_singleton] at hlen
  obtain rfl : q = [] := List.eq_nil_of_length_eq_zero (by omega)
  exact ⟨rfl, by simpa using h⟩

/-- The step in which a thread returns. -/
theorem released_step (ht : TraceOk s tr) (hm : Moves s l s' os) (hnone : NoneGaveUp s') {t : Nat}
    {v : Int} {q : List Event} (hq : q ++ [.worker t (.returned v)] <+: os) :
    q = [] ∧ tr.count (.worker t .mgrInit) = 1 ∧ tr.count (.worker t .mgrFree) = 1 := by
  have hmem : Event.worker t (.returned v) ∈ os := hq.subset (by simp)
  rcases hm.threads with ⟨-, -, hos⟩ | ⟨-, -, -, rfl⟩ | ⟨u, w, w', env, n', evs, hstep⟩
  · exact absurd hmem (hos _ _)
  · simp at hmem
  · obtain ⟨-, hw, hret, hst, rfl, rfl⟩ := hstep
    cases startWebServer_flow hret hst with
    | goOn _ hevs _ _ _ =>
      obtain ⟨e, he, heq⟩ := List.mem_map.mp hmem
      cases heq
      exact absurd he (hevs v)
    | giveUp _ hpc _ =>
      have hset : (s.workers.set u w')[u]? = some w' :=
        List.getElem?_set_self (List.getElem?_eq_some_iff.mp hw).1
      exact absurd hpc (hnone u w' hset)
    | finish hpc _ hevs =>
      rw [hevs] at hq
      obtain ⟨hnil, heq⟩ := snoc_prefix_singleton hq
      cases heq
      obtain ⟨hi, hf⟩ := ht.counts t w hw
      rw [hi, hf, hpc]
      exact ⟨hnil, rfl, rfl⟩

theorem released_of_noneGaveUp (h : system.Run ls s tr) (hnone : NoneGaveUp s) {t : Nat} {v : Int}
    {pre : List Event} (hpre : pre ++ [.worker t (.returned v)] <+: tr) :
    pre.count (.worker t .mgrInit) = 1 ∧ pre.count (.worker t .mgrFree) = 1 := by
  refine Run.induct (P := fun _ s tr => NoneGaveUp s → pre ++ [.worker t (.returned v)] <+: tr →
    pre.count (.worker t .mgrInit) = 1 ∧ pre.count (.worker t .mgrFree) = 1) ?_ ?_ h hnone hpre
  · intro _ hpre
    exact absurd (List.prefix_nil.mp hpre) (by simp)
  · intro ls s tr l s' os hrun ih hst hnone hpre
    have hm := (step_moves hst).2
    rcases prefix_snoc_cases hpre with hpre | ⟨q, hq, rfl⟩
    · exact ih ((noneGaveUp_step hm).mp hnone).1 hpre
    · obtain ⟨rfl, hcounts⟩ := released_step (run_trace hrun) hm hnone hq
      rw [List.append_nil]
      exact hcounts

/-- Counts in every trace. -/
theorem TraceOk.once (h : TraceOk s tr) (t : Nat) :
    tr.count (.worker t .mgrFree) ≤ tr.count (.worker t .mgrInit) ∧
      tr.count (.worker t .mgrInit) ≤ 1 := by
  cases hw : s.workers[t]? with
  | none =>
    have hnot : ∀ e, Event.worker t e ∉ tr := by
      intro e he
      have hlt := h.acts t e he
      have hge := List.getElem?_eq_none_iff.mp hw
      omega
    rw [List.count_eq_zero.mpr (hnot _), List.count_eq_zero.mpr (hnot _)]
    omega
  | some w =>
    obtain ⟨hi, hf⟩ := h.counts t w hw
    rw [hi, hf]
    exact w.pc.frees_le

/-- A thread that has given up did not free its manager. -/
theorem NoManagerLeaked.noneGaveUp (hl : NoManagerLeaked s tr) (ht : TraceOk s tr) :
    NoneGaveUp s := by
  intro t w hw hpc
  obtain ⟨pre, suf, rfl⟩ := List.append_of_mem (ht.returned t w _ hw hpc)
  have hfree := (hl.released t (-1) pre ⟨suf, by simp⟩).2
  have hnone := (ht.counts t w hw).2
  rw [List.count_append, hfree, hpc] at hnone
  change 1 + _ = 0 at hnone
  omega

/-- **No manager is leaked if and only if no thread took the branch
`if (nc == nullptr) return -1`.** -/
theorem noManagerLeaked_iff (h : system.Run ls s tr) :
    NoManagerLeaked s tr ↔ system.Avoids GivesUp ls := by
  rw [← noneGaveUp_iff h]
  constructor
  · exact fun hl => hl.noneGaveUp (run_trace h)
  · intro hnone
    have hle := liveManagers_le (run_ok h) hnone
    refine ⟨fun t v pre hpre => released_of_noneGaveUp h hnone hpre, (run_trace h).once, hle, ?_⟩
    intro hui
    rw [runningServers_exited h hui] at hle
    exact Nat.le_zero.mp hle

/-- The equivalence at a run to the end of the program. -/
theorem noManagerLeaked_one_server :
    ∃ s tr, system.Run (clickAndBind { calloc := some 1, listenOk := true } ++ setUpAndExit) s tr ∧
      s.ui = .exited ∧
      (NoManagerLeaked s tr ↔
        system.Avoids GivesUp
          (clickAndBind { calloc := some 1, listenOk := true } ++ setUpAndExit)) := by
  obtain ⟨s, tr, hrun, hui⟩ := Machine.exists_run_of_check (M := system)
    (clickAndBind { calloc := some 1, listenOk := true } ++ setUpAndExit)
    (fun s _ => s.ui = .exited) (by decide)
  exact ⟨s, tr, hrun, hui, noManagerLeaked_iff hrun⟩

/-- When the port is taken, the manager is still there when the program ends. -/
theorem manager_leaked_after_failed_bind :
    ∃ s tr, system.Run (clickAndBind { listenOk := false } ++
        [.worker 0 {}, .status, .onExit [8000], .join, .exit]) s tr ∧
      s.ui = .exited ∧ s.liveManagers = 1 ∧ s.runningServers = 0 ∧ ¬ NoManagerLeaked s tr := by
  obtain ⟨s, tr, hrun, hui, hlive, hnone⟩ := Machine.exists_run_of_check (M := system)
    (clickAndBind { listenOk := false } ++ [.worker 0 {}, .status, .onExit [8000], .join, .exit])
    (fun s _ => s.ui = .exited ∧ s.liveManagers = 1 ∧ s.runningServers = 0) (by decide)
  refine ⟨s, tr, hrun, hui, hlive, hnone, ?_⟩
  intro hl
  have hzero := hl.exited hui
  omega

end SimplestWeb.Minimal
