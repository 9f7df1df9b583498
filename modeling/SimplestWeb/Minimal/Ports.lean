import SimplestWeb.Minimal.Managers
import SimplestWeb.Minimal.ServerCount

/-!
# Ports past the range

`startPortNo` grows without a bound of its own, while `mg_parse_address`
accepts only ports below `0xffff`. So the 57536th server and all later ones
never listen, whatever the system answers (`nc_none_of_out_of_range`): their
threads give up, the number shown counts them all the same, and their managers
are still there when the program ends (`out_of_range_leaks`).
-/

namespace SimplestWeb.Minimal

open SimplestWeb.Lib SimplestWeb.Mongoose
open Machine (Run)

variable {s s' : Sys} {l : Label} {os tr : List Event} {ls : List Label}

/-! ## `mg_bind` past the range -/

/-- Such an address is not parsed, and nothing is asked of the system. -/
theorem mgBind_out_of_range {n : Net} {t : MgrPtr} {k : Nat} {callback : Handler} {env : BindEnv}
    (hk : 0xffff ≤ k) (hk' : k < 2 ^ 32) :
    mgBind n t (toString k) callback env = .ok (none, n) := by
  unfold mgBind
  rw [mgParseAddress_toString, strtoul_of_lt hk', if_neg (by omega)]

/-! ## Along the run -/

/-- Every port is an `int`. -/
theorem portOf_le (h : system.Run ls s tr) : ∀ t < s.workers.length, portOf t ≤ INT_MAX := by
  refine Run.induct (P := fun _ s _ => ∀ t < s.workers.length, portOf t ≤ INT_MAX) ?_ ?_ h
  · intro t ht
    exact absurd ht (Nat.not_lt_zero t)
  · intro ls s tr l s' os hrun ih hst
    have hm := (step_moves hst).2
    rcases hm.threads with ⟨hws, -, -⟩ | ⟨hws, -, hui, -⟩ | ⟨u, w, w', env, n', evs, hstep⟩
    · rw [hws]
      exact ih
    · rw [hws]
      intro t ht
      rw [List.length_append, List.length_singleton] at ht
      by_cases hlt : t < s.workers.length
      · exact ih t hlt
      · have hmax := (run_ok hrun).ui.1
        rw [(run_ok hrun).ui.idle hui] at hmax
        rw [show t = s.workers.length by omega]
        exact hmax
    · obtain ⟨-, -, -, -, rfl, -⟩ := hstep
      intro t ht
      exact ih t (by rwa [List.length_set] at ht)

/-- **A server past the range never listens.** -/
theorem nc_none_of_out_of_range (h : system.Run ls s tr) : ∀ (t : Nat) (w : Worker),
    s.workers[t]? = some w → 57535 ≤ t → w.nc = none := by
  refine Run.induct (P := fun _ s _ => ∀ (t : Nat) (w : Worker), s.workers[t]? = some w →
    57535 ≤ t → w.nc = none) ?_ ?_ h
  · intro t w hw
    simp [system] at hw
  · intro ls s tr l s' os hrun ih hst
    have hthreads := (run_ok hrun).threads
    rcases (step_moves hst).2.threads with ⟨hws, -, -⟩ | ⟨hws, -, -, -⟩ |
      ⟨t, w, w', env, n', evs, hstep⟩
    · rw [hws]
      exact ih
    · rw [hws]
      intro t w hw ht
      rcases getElem?_snoc_cases hw with hw | ⟨-, rfl⟩
      · exact ih t w hw ht
      · rfl
    · obtain ⟨-, hw, hret, hrunw, rfl, -⟩ := hstep
      intro u v hv hu
      rcases getElem?_set_cases hv with ⟨rfl, rfl⟩ | ⟨-, hv⟩
      · have hok := hthreads.ok _ w hw
        rcases (startWebServer_ok hok (hthreads.mgr _ w hw) hret hrunw).nc with
          hnc | ⟨hpc, env', hbind⟩
        · rw [hnc]
          exact ih _ w hw hu
        · -- the address is the decimal text of a port past the range
          unfold WorkerOk at hok
          rw [hpc] at hok
          have hlt := (List.getElem?_eq_some_iff.mp hw).1
          have hmax := portOf_le hrun _ hlt
          unfold portOf STARTINGPORTNO INT_MAX at hmax
          rw [hok.2.2, hthreads.portNo _ w hw, toString_portOf,
            mgBind_out_of_range (by omega) (by omega)] at hbind
          exact (Prod.mk.inj (Except.ok.inj hbind)).1.symm
      · exact ih u v hv hu

/-- A thread that has returned without a listener has given up. -/
theorem WorkerOk.gaveUp {n : Net} {t : Nat} {w : Worker} (hok : WorkerOk n t w)
    (hret : w.returned = true) (hnc : w.nc = none) : w.pc = .done (-1) := by
  unfold Worker.returned at hret
  split at hret
  next v hv =>
    unfold WorkerOk at hok
    rw [hv] at hok ⊢
    rcases hok with ⟨-, lc, hlc⟩ | ⟨rfl, -⟩
    · rw [hnc] at hlc
      cases hlc
    · rfl
  next => cases hret

/-- … so when the program has ended its manager has not been freed. -/
theorem out_of_range_leaks (h : system.Run ls s tr) (hui : s.ui = .exited)
    (hlen : 57535 < s.workers.length) : 1 ≤ s.liveManagers ∧ ¬ NoManagerLeaked s tr := by
  have hw : s.workers[57535]? = some s.workers[57535] := List.getElem?_eq_getElem hlen
  have hs := (run_ok h).threads
  have hpc := (hs.ok _ _ hw).gaveUp (exited_returned h hui hw)
    (nc_none_of_out_of_range h _ _ hw (Nat.le_refl _))
  constructor
  · unfold Sys.liveManagers
    refine List.countP_pos_iff.mpr ⟨57535, List.mem_range.mpr hlen, ?_⟩
    rw [hs.mgr _ _ hw, hpc]
    rfl
  · intro hl
    exact hl.noneGaveUp (run_trace h) _ _ hw hpc

end SimplestWeb.Minimal
