import Mathlib.Data.List.Basic
import Mathlib.Data.List.DropRight
import Mathlib.Data.List.TakeWhile

/-!
# Segments between separators

A list cut at a separator: `unsplit sep dirs ++ last` is the list whose segments
are `dirs`, each ended by `sep`, and `last`, and every list is of this form
(`exists_unsplit`). `upTo sep` cuts a list after its last separator.

`resolve cur up` is how the names for "here" and "one level up" are resolved, on a
stack of segments. What it leaves contains neither of them, and resolving that
changes nothing (`mem_resolve`, `resolve_self`).
-/

namespace SimplestWeb.Lib.Segments

variable {α : Type} {sep : α} {cur up c last : List α}
  {cs dirs stack : List (List α)} {s : List α}

/-- Segments, each ended by the separator. -/
def unsplit (sep : α) (dirs : List (List α)) : List α := (dirs.map (· ++ [sep])).flatten

@[simp] theorem unsplit_nil : unsplit sep [] = [] := rfl

theorem unsplit_cons (d : List α) (dirs : List (List α)) :
    unsplit sep (d :: dirs) = d ++ sep :: unsplit sep dirs := by
  unfold unsplit
  rw [List.map_cons, List.flatten_cons, List.append_assoc]
  rfl

/-- One more directory. -/
theorem unsplit_concat (dirs : List (List α)) (d : List α) :
    unsplit sep (dirs ++ [d]) = unsplit sep dirs ++ (d ++ [sep]) := by
  unfold unsplit
  rw [List.map_append, List.flatten_append, List.map_singleton, List.flatten_singleton]

/-- Segments, each behind a separator. -/
def join (sep : α) (cs : List (List α)) : List α := (cs.map (sep :: ·)).flatten

@[simp] theorem join_nil : join sep [] = [] := rfl

theorem join_cons (c : List α) (cs : List (List α)) :
    join sep (c :: cs) = sep :: (c ++ join sep cs) := rfl

/-- A path and what is below it. -/
theorem join_append (cs cs' : List (List α)) :
    join sep (cs ++ cs') = join sep cs ++ join sep cs' := by
  unfold join
  rw [List.map_append, List.flatten_append]

/-- There are no more segments than elements. -/
theorem length_le_join (cs : List (List α)) : cs.length ≤ (join sep cs).length := by
  induction cs with
  | nil => exact Nat.zero_le _
  | cons c cs ih =>
    rw [join_cons, List.length_cons, List.length_cons, List.length_append]
    omega

theorem join_suffix (h : dirs <:+ cs) : join sep dirs <:+ join sep cs := by
  obtain ⟨front, rfl⟩ := h
  rw [join_append]
  exact List.suffix_append _ _

/-- The two forms of a list that starts with a separator. -/
theorem join_concat (dirs : List (List α)) (last : List α) :
    join sep (dirs ++ [last]) = sep :: (unsplit sep dirs ++ last) := by
  induction dirs with
  | nil => exact congrArg (sep :: ·) (List.append_nil last)
  | cons d dirs ih =>
    rw [List.cons_append, join_cons, ih, unsplit_cons, List.append_assoc, List.cons_append]

/-- There are no more segments than elements. -/
theorem length_le_unsplit (dirs : List (List α)) : dirs.length ≤ (unsplit sep dirs).length := by
  induction dirs with
  | nil => exact Nat.zero_le _
  | cons d dirs ih =>
    rw [unsplit_cons, List.length_append, List.length_cons, List.length_cons]
    omega

/-! ## Where an element stands -/

/-- A separator behind something without one lies behind it. -/
theorem split_behind {a b x y : List α} (h : a ++ b = x ++ sep :: y) (ha : sep ∉ a) :
    ∃ x', x = a ++ x' ∧ b = x' ++ sep :: y := by
  rcases List.append_eq_append_iff.mp h with ⟨x', hx, hb⟩ | ⟨z, hz, hy⟩
  · exact ⟨x', hx, hb⟩
  · cases z with
    | nil => exact ⟨[], by rw [hz, List.append_nil, List.append_nil], hy.symm⟩
    | cons d z =>
      injection hy with hd
      refine absurd ?_ ha
      rw [hz, hd]
      exact List.mem_append_right _ List.mem_cons_self

/-- … and one ahead of something without one, ahead of it. -/
theorem split_ahead {a b x y : List α} (h : a ++ b = x ++ sep :: y) (hb : sep ∉ b) :
    ∃ y', a = x ++ sep :: y' ∧ y = y' ++ b := by
  rcases List.append_eq_append_iff.mp h with ⟨z, -, hz⟩ | ⟨z, hx, hy⟩
  · refine absurd ?_ hb
    rw [hz]
    exact List.mem_append_right _ List.mem_cons_self
  · cases z with
    | nil =>
      refine absurd ?_ hb
      rw [show b = sep :: y from hy.symm]
      exact List.mem_cons_self
    | cons d z =>
      injection hy with hd hy
      exact ⟨z, by rw [hx, hd], hy⟩

variable [DecidableEq α]

/-- The first segment ends at the first separator … -/
theorem takeWhile_ne_append (h : sep ∉ c) :
    (c ++ sep :: s).takeWhile (fun a => decide (a ≠ sep)) = c := by
  rw [List.takeWhile_append_of_pos]
  · rw [List.takeWhile_cons_of_neg (by simp), List.append_nil]
  · intro a ha
    have hne : a ≠ sep := by
      intro heq
      rw [heq] at ha
      exact h ha
    simpa using hne

/-- … and without one at the end. -/
theorem takeWhile_ne_self (h : sep ∉ c) : c.takeWhile (fun a => decide (a ≠ sep)) = c := by
  rw [List.takeWhile_eq_self_iff]
  intro a ha
  have hne : a ≠ sep := by
    intro heq
    rw [heq] at ha
    exact h ha
  simpa using hne

/-- Every list is made of segments. -/
theorem exists_unsplit (sep : α) (s : List α) :
    ∃ dirs last, (∀ d ∈ dirs, sep ∉ d) ∧ sep ∉ last ∧ s = unsplit sep dirs ++ last := by
  induction s with
  | nil => exact ⟨[], [], by simp, List.not_mem_nil, rfl⟩
  | cons a s ih =>
    obtain ⟨dirs, last, hd, hl, rfl⟩ := ih
    by_cases ha : a = sep
    · subst ha
      refine ⟨[] :: dirs, last, ?_, hl, ?_⟩
      · intro d hmem
        rcases List.mem_cons.mp hmem with rfl | hmem
        · exact List.not_mem_nil
        · exact hd d hmem
      · rw [unsplit_cons]
        rfl
    · -- `a` belongs to the first segment
      have hne : sep ≠ a := fun h => ha h.symm
      cases dirs with
      | nil => exact ⟨[], a :: last, by simp, by simp [hne, hl], rfl⟩
      | cons d dirs =>
        refine ⟨(a :: d) :: dirs, last, ?_, hl, ?_⟩
        · intro d' hmem
          rcases List.mem_cons.mp hmem with rfl | hmem
          · simp [hne, hd d List.mem_cons_self]
          · exact hd d' (List.mem_cons_of_mem d hmem)
        · rw [unsplit_cons, unsplit_cons]
          rfl

/-- A list that starts with a separator is one of segments behind separators. -/
theorem exists_join (h : s.head? = some sep) :
    ∃ cs, (∀ c ∈ cs, sep ∉ c) ∧ cs ≠ [] ∧ s = join sep cs := by
  cases s with
  | nil => exact absurd h (by simp)
  | cons a s =>
    obtain rfl := Option.some.inj h
    obtain ⟨dirs, last, hd, hl, rfl⟩ := exists_unsplit a s
    refine ⟨dirs ++ [last], ?_, by simp, (join_concat dirs last).symm⟩
    intro c hc
    rcases List.mem_append.mp hc with hc | hc
    · exact hd c hc
    · rw [List.mem_singleton.mp hc]
      exact hl

/-! ## The last separator -/

/-- The list up to its last separator, which it keeps. -/
def upTo (sep : α) (s : List α) : List α := s.rdropWhile (· ≠ sep)

theorem upTo_append (hl : sep ∉ last) : upTo sep (s ++ last) = upTo sep s := by
  unfold upTo
  induction last using List.reverseRecOn with
  | nil => rw [List.append_nil]
  | append_singleton last a ih =>
    rw [List.mem_append, not_or, List.mem_singleton] at hl
    rw [← List.append_assoc, List.rdropWhile_concat_pos _ _ _ (by simpa using Ne.symm hl.2)]
    exact ih hl.1

theorem upTo_unsplit (dirs : List (List α)) : upTo sep (unsplit sep dirs) = unsplit sep dirs := by
  cases dirs using List.reverseRecOn with
  | nil => rfl
  | append_singleton dirs d =>
    unfold upTo
    rw [unsplit_concat, ← List.append_assoc, List.rdropWhile_concat_neg _ _ _ (by simp)]

/-! ## "Here" and "one level up" -/

/-- Push a segment on the stack; `cur` is left out and `up` pops. -/
def push (cur up : List α) (stack : List (List α)) (c : List α) : List (List α) :=
  if c = cur then stack else if c = up then stack.dropLast else stack ++ [c]

/-- … and so for all segments of a path. -/
def resolve (cur up : List α) (cs stack : List (List α)) : List (List α) :=
  cs.foldl (push cur up) stack

/-- Nothing that is left has to be resolved. -/
theorem mem_resolve (h : c ∈ resolve cur up cs stack) : c ∈ stack ∨ c ∈ cs ∧ c ≠ cur ∧ c ≠ up := by
  induction cs generalizing stack with
  | nil => exact Or.inl h
  | cons d cs ih =>
    rcases ih h with hpush | ⟨hmem, hne⟩
    · unfold push at hpush
      split at hpush
      next => exact Or.inl hpush
      next hcur =>
        split at hpush
        next => exact Or.inl (List.dropLast_subset stack hpush)
        next hup =>
          rcases List.mem_append.mp hpush with hmem | hmem
          · exact Or.inl hmem
          · rw [List.mem_singleton.mp hmem]
            exact Or.inr ⟨List.mem_cons_self, hcur, hup⟩
    · exact Or.inr ⟨List.mem_cons_of_mem d hmem, hne⟩

/-- Names are what they are. -/
theorem resolve_self (h : ∀ c ∈ cs, c ≠ cur ∧ c ≠ up) : resolve cur up cs stack = stack ++ cs := by
  induction cs generalizing stack with
  | nil => exact (List.append_nil stack).symm
  | cons d cs ih =>
    obtain ⟨hcur, hup⟩ := h d List.mem_cons_self
    show resolve cur up cs (push cur up stack d) = _
    rw [ih fun c hc => h c (List.mem_cons_of_mem d hc)]
    unfold push
    rw [if_neg hcur, if_neg hup, List.append_assoc]
    rfl

end SimplestWeb.Lib.Segments
