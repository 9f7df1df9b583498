import Mathlib.Data.List.Induction
import Mathlib.Order.Basic

/-!
# Deterministic labelled machines and their runs

A `Machine` is a partial step function: a state and a label (who moves, and
what the environment answers) give the next state and the events the step
shows. All nondeterminism — the scheduler, the outcome of a system call —
is in the label, so a *run* is a list of labels and "every interleaving" is
"every list of labels".

* `Run M ls s tr` — `ls` leads from the initial state to `s`, showing `tr`.
* `Run.induct` — the snoc induction every invariant below goes through;
  `Run.inv` is its plain-invariant form.
* `Avoids` — no step of a run is a bad one; `Run.avoids_iff` matches that with
  a predicate on the state the run ends in.
* `Trail` / `Run.refines` — forward simulation along an abstraction function:
  the visible part of a run's trace is a path of the abstract relation.
* `exec_count_le` — a bound that a party's own steps lower and nobody's steps
  raise bounds the number of steps the party can still take.
-/

namespace SimplestWeb.Lib

/-- A machine over states `σ`, labels `α` and events `ε`. -/
structure Machine (σ α ε : Type) where
  init : σ
  step : σ → α → Option (σ × List ε)

namespace Machine

variable {σ α ε τ ν : Type} {M : Machine σ α ε}

/-- Execute a list of labels, collecting the events; `none` as soon as a
label is not enabled. -/
def exec (M : Machine σ α ε) : σ → List α → Option (σ × List ε)
  | s, [] => some (s, [])
  | s, l :: ls =>
    match M.step s l with
    | none => none
    | some (s₁, os) =>
      match M.exec s₁ ls with
      | none => none
      | some (s₂, os') => some (s₂, os ++ os')

/-- `ls` is a run of `M` ending in `s` with trace `tr`. -/
def Run (M : Machine σ α ε) (ls : List α) (s : σ) (tr : List ε) : Prop :=
  M.exec M.init ls = some (s, tr)

/-- The first step of an execution. -/
theorem exec_cons {s s' : σ} {l : α} {ls : List α} {tr : List ε} :
    M.exec s (l :: ls) = some (s', tr) ↔
      ∃ s₁ os tr', M.step s l = some (s₁, os) ∧ M.exec s₁ ls = some (s', tr') ∧
        tr = os ++ tr' := by
  constructor
  · intro h
    rw [exec] at h
    split at h
    next => cases h
    next s₁ os hst =>
      split at h
      next => cases h
      next s₂ os' hex =>
        simp only [Option.some.injEq, Prod.mk.injEq] at h
        obtain ⟨rfl, rfl⟩ := h
        exact ⟨s₁, os, os', hst, hex, rfl⟩
  · rintro ⟨s₁, os, tr', hst, hex, rfl⟩
    rw [exec, hst]
    simp only [hex]

/-- A one-label execution is a step. -/
theorem exec_single {s s' : σ} {l : α} {tr : List ε} :
    M.exec s [l] = some (s', tr) ↔ M.step s l = some (s', tr) := by
  rw [exec_cons]
  constructor
  · rintro ⟨s₁, os, tr', hst, hnil, rfl⟩
    simp only [exec, Option.some.injEq, Prod.mk.injEq] at hnil
    obtain ⟨rfl, rfl⟩ := hnil
    rwa [List.append_nil]
  · intro hst
    exact ⟨s', tr, [], hst, rfl, (List.append_nil _).symm⟩

/-- Executing `ls ++ ls'` is executing `ls`, then `ls'`. -/
theorem exec_append {s s' : σ} {ls ls' : List α} {tr : List ε} :
    M.exec s (ls ++ ls') = some (s', tr) ↔
      ∃ s₁ tr₁ tr₂, M.exec s ls = some (s₁, tr₁) ∧ M.exec s₁ ls' = some (s', tr₂) ∧
        tr = tr₁ ++ tr₂ := by
  induction ls generalizing s tr with
  | nil =>
    simp only [List.nil_append, exec, Option.some.injEq, Prod.mk.injEq]
    constructor
    · intro h
      exact ⟨s, [], tr, ⟨rfl, rfl⟩, h, rfl⟩
    · rintro ⟨s₁, tr₁, tr₂, ⟨rfl, rfl⟩, h, rfl⟩
      exact h
  | cons l ls ih =>
    simp only [List.cons_append, exec_cons, ih]
    constructor
    · rintro ⟨s₀, os, _, hst, ⟨s₁, tr₁, tr₂, h₁, h₂, rfl⟩, rfl⟩
      exact ⟨s₁, os ++ tr₁, tr₂, ⟨s₀, os, tr₁, hst, h₁, rfl⟩, h₂, (List.append_assoc ..).symm⟩
    · rintro ⟨s₁, _, tr₂, ⟨s₀, os, tr₁, hst, h₁, rfl⟩, h₂, rfl⟩
      exact ⟨s₀, os, tr₁ ++ tr₂, hst, ⟨s₁, tr₁, tr₂, h₁, h₂, rfl⟩, List.append_assoc ..⟩

theorem run_nil {s : σ} {tr : List ε} : M.Run [] s tr ↔ s = M.init ∧ tr = [] := by
  simp only [Run, exec, Option.some.injEq, Prod.mk.injEq]
  exact ⟨fun ⟨h₁, h₂⟩ => ⟨h₁.symm, h₂.symm⟩, fun ⟨h₁, h₂⟩ => ⟨h₁.symm, h₂.symm⟩⟩

/-- Split off the last step of a run. -/
theorem run_snoc {ls : List α} {l : α} {s : σ} {tr : List ε} :
    M.Run (ls ++ [l]) s tr ↔
      ∃ s₀ tr₀ os, M.Run ls s₀ tr₀ ∧ M.step s₀ l = some (s, os) ∧ tr = tr₀ ++ os := by
  unfold Run
  simp only [exec_append, exec_single]

/-- A run ends in one state with one trace. -/
theorem Run.unique {ls : List α} {s s' : σ} {tr tr' : List ε} (h : M.Run ls s tr)
    (h' : M.Run ls s' tr') : s = s' ∧ tr = tr' := by
  have heq := Option.some.inj (h.symm.trans h')
  exact ⟨congrArg Prod.fst heq, congrArg Prod.snd heq⟩

/-- An execution is a run, and a decidable property of its end can be
evaluated. -/
theorem exists_run_of_check (ls : List α) (p : σ → List ε → Prop)
    [∀ s tr, Decidable (p s tr)]
    (h : ((M.exec M.init ls).any fun r => decide (p r.1 r.2)) = true) :
    ∃ s tr, M.Run ls s tr ∧ p s tr := by
  obtain ⟨r, hr, hp⟩ := (Option.any_eq_true _ _).mp h
  exact ⟨r.1, r.2, hr, of_decide_eq_true hp⟩

/-- Induction along a run: what holds at the start with the empty trace and
is carried over every step holds at the end. -/
theorem Run.induct {P : List α → σ → List ε → Prop} (h0 : P [] M.init [])
    (hstep : ∀ {ls s tr l s' os}, M.Run ls s tr → P ls s tr → M.step s l = some (s', os) →
      P (ls ++ [l]) s' (tr ++ os)) :
    ∀ {ls s tr}, M.Run ls s tr → P ls s tr := by
  intro ls
  induction ls using List.reverseRecOn with
  | nil =>
    intro s tr h
    obtain ⟨rfl, rfl⟩ := run_nil.mp h
    exact h0
  | append_singleton ls l ih =>
    intro s tr h
    obtain ⟨s₀, tr₀, os, h₀, hst, rfl⟩ := run_snoc.mp h
    exact hstep h₀ (ih h₀) hst

/-- A state predicate that holds initially and survives every step holds at
the end of every run. -/
theorem Run.inv {P : σ → Prop} (h0 : P M.init)
    (hstep : ∀ {s l s' os}, P s → M.step s l = some (s', os) → P s')
    {ls : List α} {s : σ} {tr : List ε} (h : M.Run ls s tr) : P s :=
  Run.induct (P := fun _ s _ => P s) h0 (fun _ hP hst => hstep hP hst) h

/-! ## Runs that avoid a step -/

/-- None of the labels is taken in a state where that is `bad`. -/
def Avoids (M : Machine σ α ε) (bad : σ → α → Prop) (ls : List α) : Prop :=
  ∀ pre l s tr, pre ++ [l] <+: ls → M.Run pre s tr → ¬ bad s l

theorem avoids_nil {bad : σ → α → Prop} : M.Avoids bad [] := by
  intro pre l _ _ hpre
  exact absurd (List.prefix_nil.mp hpre) (by simp)

/-- The last step of a run, and the steps before it. -/
theorem avoids_snoc {bad : σ → α → Prop} {ls : List α} {l : α} {s : σ} {tr : List ε}
    (h : M.Run ls s tr) : M.Avoids bad (ls ++ [l]) ↔ M.Avoids bad ls ∧ ¬ bad s l := by
  constructor
  · intro ha
    exact ⟨fun pre k s' tr' hpre => ha pre k s' tr' (hpre.trans (List.prefix_append ls [l])),
      ha ls l s tr List.prefix_rfl h⟩
  · rintro ⟨ha, hl⟩ pre k s' tr' hpre hrun
    rcases List.prefix_concat_iff.mp hpre with heq | hpre
    · obtain ⟨rfl, hk⟩ := List.append_inj' heq rfl
      obtain rfl : k = l := by simpa using hk
      obtain ⟨rfl, _⟩ := h.unique hrun
      exact hl
    · exact ha pre k s' tr' hpre hrun

/-- A predicate that is lost in the bad steps of a run, and in no others, holds
exactly at the end of the runs that avoid them. -/
theorem Run.avoids_iff {bad : σ → α → Prop} {P : σ → Prop} (h0 : P M.init)
    (hstep : ∀ {ls s tr l s' os}, M.Run ls s tr → M.step s l = some (s', os) →
      (P s' ↔ P s ∧ ¬ bad s l))
    {ls : List α} {s : σ} {tr : List ε} (h : M.Run ls s tr) : P s ↔ M.Avoids bad ls := by
  refine Run.induct (P := fun ls s _ => P s ↔ M.Avoids bad ls) ?_ ?_ h
  · exact ⟨fun _ => avoids_nil, fun _ => h0⟩
  · intro ls s tr l s' os hrun ih hst
    rw [hstep hrun hst, avoids_snoc hrun, ih]

/-! ## Refinement of an abstract relation -/

/-- A path of the labelled relation `A`. -/
inductive Trail (A : τ → ν → τ → Prop) : τ → List ν → τ → Prop
  | nil (a : τ) : Trail A a [] a
  | snoc {a b c : τ} {es : List ν} {e : ν} : Trail A a es b → A b e c → Trail A a (es ++ [e]) c

theorem Trail.single {A : τ → ν → τ → Prop} {a b : τ} {e : ν} (h : A a e b) : Trail A a [e] b :=
  Trail.snoc (Trail.nil a) h

theorem Trail.trans {A : τ → ν → τ → Prop} {a b c : τ} {es es' : List ν}
    (h₁ : Trail A a es b) (h₂ : Trail A b es' c) : Trail A a (es ++ es') c := by
  induction h₂ with
  | nil => rwa [List.append_nil]
  | snoc _ hA ih =>
    rw [← List.append_assoc]
    exact Trail.snoc ih hA

/-- A path can be cut anywhere. -/
theorem Trail.split {A : τ → ν → τ → Prop} {a c : τ} {es es' : List ν}
    (h : Trail A a (es ++ es') c) : ∃ b, Trail A a es b ∧ Trail A b es' c := by
  induction es' using List.reverseRecOn generalizing c with
  | nil =>
    rw [List.append_nil] at h
    exact ⟨c, h, Trail.nil c⟩
  | append_singleton es' e ih =>
    rw [← List.append_assoc] at h
    generalize hes : es ++ es' ++ [e] = es₀ at h
    cases h with
    | nil => exact absurd hes (by simp)
    | snoc h hA =>
      obtain ⟨rfl, he⟩ := List.append_inj' hes rfl
      obtain rfl := List.singleton_inj.mp he
      obtain ⟨b, h₁, h₂⟩ := ih h
      exact ⟨b, h₁, Trail.snoc h₂ hA⟩

/-- What every abstract step preserves holds along a path. -/
theorem Trail.inv {A : τ → ν → τ → Prop} {P : τ → Prop}
    (hstep : ∀ {a e b}, P a → A a e b → P b) {a b : τ} {es : List ν} (h : Trail A a es b)
    (ha : P a) : P b := by
  induction h with
  | nil => exact ha
  | snoc _ hA ih => exact hstep ih hA

/-- **Forward simulation.** If under an invariant each step's visible events
are a path between the abstractions of its ends, the visible trace of every
run is a path from the abstraction of the initial state. -/
theorem Run.refines {A : τ → ν → τ → Prop} {abs : σ → τ} {view : ε → Option ν} {P : σ → Prop}
    (hinv : ∀ {ls s tr}, M.Run ls s tr → P s)
    (hsim : ∀ {s l s' os}, P s → M.step s l = some (s', os) →
      Trail A (abs s) (os.filterMap view) (abs s'))
    {ls : List α} {s : σ} {tr : List ε} (h : M.Run ls s tr) :
    Trail A (abs M.init) (tr.filterMap view) (abs s) := by
  refine Run.induct (P := fun _ s tr => Trail A (abs M.init) (tr.filterMap view) (abs s))
    (Trail.nil _) (fun hrun ih hst => ?_) h
  rw [List.filterMap_append]
  exact ih.trans (hsim (hinv hrun) hst)

/-! ## Bounded steps -/

/-- If a bound on the steps still to come is kept by every step and lowered by
those that are `mine`, then no execution has more of them. -/
theorem exec_count_le {R : σ → Nat → Prop} {mine : α → Bool}
    (hstep : ∀ {s k l s' os}, R s k → M.step s l = some (s', os) →
      ∃ k', R s' k' ∧ if mine l then k' < k else k' ≤ k) :
    ∀ {ls : List α} {s s' : σ} {k : Nat} {tr : List ε}, R s k → M.exec s ls = some (s', tr) →
      ls.countP mine ≤ k := by
  intro ls
  induction ls with
  | nil =>
    intro s s' k tr _ _
    exact Nat.zero_le k
  | cons l ls ih =>
    intro s s' k tr hR hex
    obtain ⟨s₁, os, tr', hst, hex, -⟩ := exec_cons.mp hex
    obtain ⟨k', hR', hle⟩ := hstep hR hst
    have hrest := ih hR' hex
    rw [List.countP_cons]
    split at hle
    next hm =>
      rw [if_pos hm]
      omega
    next hm =>
      rw [if_neg hm]
      omega

end Machine

end SimplestWeb.Lib
