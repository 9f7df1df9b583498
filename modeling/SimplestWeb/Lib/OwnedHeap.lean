import Mathlib.Logic.Function.Basic

/-!
# Heaps whose blocks have an owner

A `Heap` maps addresses to blocks; `own` reads the owner off a block. An
owner's step is framed (`Frame own i h h'`) when every block of every other
owner is the same afterwards — and no other owner gains a block. Framed
steps compose, and writing, allocating and freeing one's own blocks are
framed, so a predicate that only reads the blocks of `j` survives every
framed step of `i ≠ j` (`Frame.other`).

`mem_put`/`mem_free` split the blocks after an update into the changed one
and the old ones; the invariants of a heap discipline are proved from them.
-/

namespace SimplestWeb.Lib

variable {κ ν ι : Type} [DecidableEq κ]

/-- A heap: the live blocks by address. -/
abbrev Heap (κ ν : Type) := κ → Option ν

namespace Heap

/-- Write or allocate the block at `a`. -/
def put (h : Heap κ ν) (a : κ) (v : ν) : Heap κ ν := Function.update h a (some v)

/-- Release the block at `a`. -/
def free (h : Heap κ ν) (a : κ) : Heap κ ν := Function.update h a none

@[simp] theorem put_self (h : Heap κ ν) (a : κ) (v : ν) : h.put a v a = some v := by
  rw [put]
  exact Function.update_self a (some v) h

/-- Only one address is written. -/
theorem put_ne (h : Heap κ ν) {a b : κ} (v : ν) (hne : b ≠ a) : h.put a v b = h b := by
  rw [put]
  exact Function.update_of_ne hne (some v) h

@[simp] theorem free_self (h : Heap κ ν) (a : κ) : h.free a a = none := by
  rw [free]
  exact Function.update_self a none h

/-- Only one address is freed. -/
theorem free_ne (h : Heap κ ν) {a b : κ} (hne : b ≠ a) : h.free a b = h b := by
  rw [free]
  exact Function.update_of_ne hne none h

/-- A block after a write is the written one or an old one elsewhere. -/
theorem mem_put {h : Heap κ ν} {a b : κ} {v w : ν} :
    h.put a v b = some w ↔ (b = a ∧ w = v) ∨ (b ≠ a ∧ h b = some w) := by
  by_cases hba : b = a
  · subst hba
    rw [put_self]
    constructor
    · intro hw
      exact Or.inl ⟨rfl, (Option.some.inj hw).symm⟩
    · rintro (⟨-, rfl⟩ | ⟨hne, -⟩)
      · rfl
      · exact absurd rfl hne
  · rw [put_ne h v hba]
    constructor
    · intro hw
      exact Or.inr ⟨hba, hw⟩
    · rintro (⟨hb, -⟩ | ⟨-, hw⟩)
      · exact absurd hb hba
      · exact hw

/-- A block after a release is an old one elsewhere. -/
theorem mem_free {h : Heap κ ν} {a b : κ} {w : ν} :
    h.free a b = some w ↔ b ≠ a ∧ h b = some w := by
  by_cases hba : b = a
  · subst hba
    simp
  · rw [free_ne h hba]
    exact ⟨fun hw => ⟨hba, hw⟩, fun hw => hw.2⟩

/-- Every block not owned by `i` is the same in `h` and `h'`. -/
def Frame (own : ν → ι) (i : ι) (h h' : Heap κ ν) : Prop :=
  ∀ a v, own v ≠ i → (h' a = some v ↔ h a = some v)

variable {own : ν → ι} {i j : ι} {h h' h'' : Heap κ ν} {a : κ} {v w : ν}

omit [DecidableEq κ] in
theorem Frame.refl (own : ν → ι) (i : ι) (h : Heap κ ν) : Frame own i h h := fun _ _ _ => Iff.rfl

omit [DecidableEq κ] in
theorem Frame.trans (h₁ : Frame own i h h') (h₂ : Frame own i h' h'') : Frame own i h h'' :=
  fun a v hv => (h₂ a v hv).trans (h₁ a v hv)

omit [DecidableEq κ] in
/-- The blocks of another owner are untouched. -/
theorem Frame.other (hf : Frame own i h h') (hij : j ≠ i) (hv : own v = j) :
    h' a = some v ↔ h a = some v :=
  hf a v (hv ▸ hij)

/-- Allocating a block of one's own is framed. -/
theorem Frame.alloc (hfree : h a = none) (hv : own v = i) : Frame own i h (h.put a v) := by
  intro b w hw
  rw [mem_put]
  constructor
  · rintro (⟨-, rfl⟩ | ⟨-, hb⟩)
    · exact absurd hv hw
    · exact hb
  · intro hb
    refine Or.inr ⟨?_, hb⟩
    rintro rfl
    rw [hfree] at hb
    cases hb

/-- Overwriting a block of one's own is framed. -/
theorem Frame.write (hw : h a = some w) (how : own w = i) (hv : own v = i) :
    Frame own i h (h.put a v) := by
  intro b u hu
  rw [mem_put]
  constructor
  · rintro (⟨-, rfl⟩ | ⟨-, hb⟩)
    · exact absurd hv hu
    · exact hb
  · intro hb
    refine Or.inr ⟨?_, hb⟩
    rintro rfl
    rw [hw] at hb
    exact hu (Option.some.inj hb ▸ how)

/-- Releasing a block of one's own is framed. -/
theorem Frame.release (hw : h a = some w) (how : own w = i) : Frame own i h (h.free a) := by
  intro b u hu
  rw [mem_free]
  refine ⟨fun hb => hb.2, fun hb => ⟨?_, hb⟩⟩
  rintro rfl
  rw [hw] at hb
  exact hu (Option.some.inj hb ▸ how)

end Heap

end SimplestWeb.Lib
