import Mathlib.Data.List.Basic

/-!
# Self-delimiting frames

In a `Framing` the symbols themselves say where a frame ends: `parse` looks at
the front of a buffer and returns the length of the frame there and what it
carries. The two laws say that a frame lies inside the buffer and is not empty,
and that what comes behind a frame does not change it.

`Frames F last s bs rest closed` cuts a buffer `s` into frames: they carry
`bs`, `rest` is what remains, and `closed` tells whether a frame for which
`last` holds has ended the sequence. Every buffer can be cut (`Frames.exists`),
and what was written frame by frame is read back (`Frames.of_encodes`).
-/

namespace SimplestWeb.Lib

/-- A self-delimiting format: `parse` finds the first frame of a buffer. -/
structure Framing (α β : Type) where
  parse : List α → Option (Nat × β)
  bounds : ∀ {s n b}, parse s = some (n, b) → 0 < n ∧ n ≤ s.length
  stable : ∀ {s n b} t, parse s = some (n, b) → parse (s ++ t) = some (n, b)

namespace Framing

variable {α β : Type} {F : Framing α β} {s enc rest : List α} {b : β} {bs : List β}
  {last : β → Prop} {closed : Bool}

/-- `enc` is one frame, and carries `b`. -/
def Encodes (F : Framing α β) (enc : List α) (b : β) : Prop := F.parse enc = some (enc.length, b)

/-- A frame is found at the front of every buffer that starts with it. -/
theorem Encodes.parse_append (h : F.Encodes enc b) (t : List α) :
    F.parse (enc ++ t) = some (enc.length, b) :=
  F.stable t h

/-- The frames of a buffer, in order. -/
inductive Frames (F : Framing α β) (last : β → Prop) : List α → List β → List α → Bool → Prop
  | stop {s : List α} (h : F.parse s = none) : Frames F last s [] s false
  | last {s : List α} {n : Nat} {b : β} (h : F.parse s = some (n, b)) (hl : last b) :
      Frames F last s [b] (s.drop n) true
  | next {s rest : List α} {n : Nat} {b : β} {bs : List β} {closed : Bool}
      (h : F.parse s = some (n, b)) (hl : ¬ last b) (hr : Frames F last (s.drop n) bs rest closed) :
      Frames F last s (b :: bs) rest closed

/-- Every buffer can be cut into frames. -/
theorem Frames.exists (F : Framing α β) (last : β → Prop) :
    ∀ s : List α, ∃ bs rest closed, Frames F last s bs rest closed
  | s => by
    cases hp : F.parse s with
    | none => exact ⟨[], s, false, .stop hp⟩
    | some r =>
      obtain ⟨n, b⟩ := r
      by_cases hl : last b
      · exact ⟨[b], s.drop n, true, .last hp hl⟩
      · have hlt : (s.drop n).length < s.length := by
          have hn := F.bounds hp
          rw [List.length_drop]
          omega
        obtain ⟨bs, rest, closed, hr⟩ := Frames.exists F last (s.drop n)
        exact ⟨b :: bs, rest, closed, .next hp hl hr⟩
  termination_by s => s.length
  decreasing_by exact hlt

/-- Frames are not empty. -/
theorem Frames.length_le (h : Frames F last s bs rest closed) :
    rest.length + bs.length ≤ s.length := by
  induction h with
  | stop _ =>
    rw [List.length_nil]
    omega
  | last hp _ =>
    have hn := F.bounds hp
    rw [List.length_drop, List.length_singleton]
    omega
  | next hp _ _ ih =>
    have hn := F.bounds hp
    rw [List.length_drop] at ih
    rw [List.length_cons]
    omega

/-- **Round trip**: a sequence that was written frame by frame is read back. -/
theorem Frames.of_encodes {encs : List (List α)} (h : List.Forall₂ (F.Encodes) encs bs)
    (hl : ∀ b ∈ bs, ¬ last b) (he : F.Encodes enc b) (hb : last b) (t : List α) :
    Frames F last (encs.flatten ++ enc ++ t) (bs ++ [b]) t true := by
  induction h with
  | nil =>
    have hlast := Frames.last (he.parse_append t) hb
    rw [List.drop_left] at hlast
    exact hlast
  | @cons enc₀ b₀ encs bs h₀ _ ih =>
    rw [List.flatten_cons, List.append_assoc, List.append_assoc]
    refine .next (h₀.parse_append _) (hl b₀ List.mem_cons_self) ?_
    rw [List.drop_left, ← List.append_assoc]
    exact ih fun b hb => hl b (List.mem_cons_of_mem b₀ hb)

end Framing

end SimplestWeb.Lib
