import SimplestWeb.Lib.Machine
import Mathlib.Data.Set.Insert

/-!
# The fork/join discipline

An owner forks threads, keeps a handle for each and joins them. The pool
records only two sets: the threads still running and the threads whose
handle is held and not yet joined. A handle may be joined only after its
thread has finished, and the pool may be closed only when no handle is left
— the destructor of a joinable handle would be an error.

`Pool.Sound` (nobody runs without a held handle) is preserved by every step,
so a pool without handles has no running thread
(`Pool.Sound.running_eq_empty`). A forked thread runs until it finishes
(`forked_cases`), hence every thread forked before the closing has finished
before it (`close_finished`).
-/

namespace SimplestWeb.Lib.ForkJoin

open Machine (Trail)

variable {ι : Type}

/-- What the owner and its threads do. `act i` is any step thread `i` does
that the owner's user can see. -/
inductive Ev (ι : Type)
  | fork (i : ι)
  | act (i : ι)
  | finish (i : ι)
  | join (i : ι)
  | close

/-- Running threads and held, not yet joined handles. -/
@[ext] structure Pool (ι : Type) where
  running : Set ι
  held : Set ι

/-- The pool before the first fork. -/
def Pool.empty : Pool ι := ⟨∅, ∅⟩

/-- One step of the discipline. -/
inductive Step : Pool ι → Ev ι → Pool ι → Prop
  | fork {p : Pool ι} {i : ι} (h : i ∉ p.held) :
      Step p (.fork i) ⟨insert i p.running, insert i p.held⟩
  | act {p : Pool ι} {i : ι} (h : i ∈ p.running) : Step p (.act i) p
  | finish {p : Pool ι} {i : ι} (h : i ∈ p.running) :
      Step p (.finish i) ⟨p.running \ {i}, p.held⟩
  | join {p : Pool ι} {i : ι} (h : i ∈ p.held) (hr : i ∉ p.running) :
      Step p (.join i) ⟨p.running, p.held \ {i}⟩
  | close {p : Pool ι} (h : p.held = ∅) : Step p .close p

/-- No thread runs without a held handle. -/
def Pool.Sound (p : Pool ι) : Prop := p.running ⊆ p.held

theorem Pool.empty_sound : (Pool.empty : Pool ι).Sound := Set.empty_subset _

theorem Step.sound {p q : Pool ι} {e : Ev ι} (hp : p.Sound) (h : Step p e q) : q.Sound := by
  cases h with
  | fork _ => exact Set.insert_subset_insert hp
  | act _ => exact hp
  | finish _ => exact fun i hi => hp hi.1
  | join _ hr =>
    intro i hi
    refine ⟨hp hi, ?_⟩
    rintro rfl
    exact hr hi
  | close _ => exact hp

/-- Every pool a fork/join history leads to is sound. -/
theorem trail_sound {p : Pool ι} {es : List (Ev ι)} (h : Trail Step Pool.empty es p) : p.Sound :=
  Trail.inv (P := Pool.Sound) (fun hp hst => hst.sound hp) h Pool.empty_sound

/-- A running thread may act any number of times. -/
theorem trail_acts {p : Pool ι} {i : ι} (h : i ∈ p.running) {es : List (Ev ι)}
    (hes : ∀ e ∈ es, e = .act i) : Trail Step p es p := by
  induction es with
  | nil => exact Trail.nil p
  | cons e es ih =>
    obtain rfl := hes e List.mem_cons_self
    exact (Trail.single (Step.act h)).trans (ih fun e he => hes e (List.mem_cons_of_mem _ he))

/-- A sound pool without held handles has no running thread. -/
theorem Pool.Sound.running_eq_empty {p : Pool ι} (hp : p.Sound) (h : p.held = ∅) :
    p.running = ∅ :=
  Set.subset_empty_iff.mp (h ▸ hp)

/-- A forked thread is running or has finished. -/
theorem forked_cases {p : Pool ι} {es : List (Ev ι)} (h : Trail Step Pool.empty es p) {i : ι}
    (hi : Ev.fork i ∈ es) : i ∈ p.running ∨ Ev.finish i ∈ es := by
  induction h with
  | nil => cases hi
  | @snoc q r es e hq hst ih =>
    have hold : i ∈ q.running ∨ Ev.finish i ∈ es ∨ e = Ev.fork i := by
      rcases List.mem_append.mp hi with hin | hlast
      · rcases ih hin with hr | hf
        · exact Or.inl hr
        · exact Or.inr (Or.inl hf)
      · exact Or.inr (Or.inr (List.mem_singleton.mp hlast).symm)
    rcases hold with hr | hf | rfl
    · cases hst with
      | fork _ => exact Or.inl (Set.mem_insert_of_mem _ hr)
      | act _ => exact Or.inl hr
      | @finish j _ =>
        by_cases hij : i = j
        · exact Or.inr (by simp [hij])
        · exact Or.inl ⟨hr, hij⟩
      | join _ _ => exact Or.inl hr
      | close _ => exact Or.inl hr
    · exact Or.inr (List.mem_append_left _ hf)
    · cases hst with
      | fork _ => exact Or.inl (Set.mem_insert _ _)

/-- **Closing is complete**: when the pool is closed, every thread forked so
far has finished. -/
theorem close_finished {p : Pool ι} {es : List (Ev ι)}
    (h : Trail Step Pool.empty (es ++ [Ev.close]) p) {i : ι} (hi : Ev.fork i ∈ es) :
    Ev.finish i ∈ es := by
  generalize hes : es ++ [Ev.close] = es' at h
  cases h with
  | nil => exact absurd hes (by simp)
  | @snoc q _ es₀ e hq hst =>
    obtain ⟨rfl, he⟩ := List.append_inj' hes rfl
    obtain rfl : Ev.close = e := by simpa using he
    cases hst with
    | close hheld =>
      rcases forked_cases hq hi with hr | hf
      · rw [(trail_sound hq).running_eq_empty hheld] at hr
        exact absurd hr (Set.notMem_empty i)
      · exact hf

end SimplestWeb.Lib.ForkJoin
