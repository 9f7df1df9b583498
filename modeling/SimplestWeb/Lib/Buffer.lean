import SimplestWeb.Lib.Segments

/-!
# Buffers of a fixed size

A block of memory that is written at a position: `write` refuses what does not
fit, so a program over it that never ends in `.overrun` never writes outside the
block. `readStr` reads a terminated string from the front, and refuses a block
without terminator.
-/

namespace SimplestWeb.Lib.Buffer

variable {α : Type} {buf buf' src s : List α} {i k : Nat} {z : α}

/-- Something outside the block would have been touched. -/
inductive Overrun
  | overrun
  deriving DecidableEq, Repr

/-- Write `src` at position `i`. -/
def write (buf : List α) (i : Nat) (src : List α) : Except Overrun (List α) :=
  if i + src.length ≤ buf.length then .ok (buf.take i ++ src ++ buf.drop (i + src.length))
  else .error .overrun

/-- Read at position `i`, which may have become negative. -/
def get (buf : List α) (i : Int) : Except Overrun α :=
  match buf[i.toNat]? with
  | some a => if 0 ≤ i then .ok a else .error .overrun
  | none => .error .overrun

theorem ok_bind {β γ : Type} (a : β) (f : β → Except Overrun γ) : (Except.ok a >>= f) = f a := rfl

theorem get_natCast {a : α} : get buf (k : Int) = .ok a ↔ buf[k]? = some a := by
  unfold get
  rw [Int.toNat_natCast]
  cases buf[k]? with
  | some b =>
    dsimp only
    rw [if_pos (Int.natCast_nonneg k), Except.ok.injEq, Option.some.injEq]
  | none => simp

/-- `buf'` is `buf` after `src` has been written at `i`. -/
structure Written (buf : List α) (i : Nat) (src buf' : List α) : Prop where
  length : buf'.length = buf.length
  take : buf'.take (i + src.length) = buf.take i ++ src
  rest : buf'.drop (i + src.length) = buf.drop (i + src.length)

/-- What fits is written. -/
theorem write_ok (h : i + src.length ≤ buf.length) :
    ∃ buf', write buf i src = .ok buf' ∧ Written buf i src buf' := by
  have hlen : (buf.take i ++ src).length = i + src.length := by
    simp only [List.length_append, List.length_take]
    omega
  refine ⟨_, if_pos h, ?_, ?_, ?_⟩
  · rw [List.length_append, hlen, List.length_drop]
    omega
  · rw [← hlen, List.take_left]
  · rw [← hlen, List.drop_left]

/-- In front of the position nothing changes. -/
theorem Written.before (h : Written buf i src buf') (hi : i ≤ buf.length) (hk : k ≤ i) :
    buf'.take k = buf.take k := by
  have htake := congrArg (List.take k) h.take
  have hlen : (buf.take i).length = i := List.length_take_of_le hi
  rw [List.take_take, Nat.min_eq_left (by omega), List.take_append_of_le_length (by omega),
    List.take_take, Nat.min_eq_left hk] at htake
  exact htake

/-- What was written is there. -/
theorem Written.window (h : Written buf i src buf') (hi : i ≤ buf.length) :
    (buf'.drop i).take src.length = src := by
  have hlen : (buf.take i).length = i := List.length_take_of_le hi
  rw [List.take_drop, h.take, List.drop_append_of_le_length (Nat.le_of_eq hlen.symm),
    List.drop_eq_nil_of_le (Nat.le_of_eq hlen), List.nil_append]

/-- Behind it nothing changes either. -/
theorem Written.take_add (h : Written buf i src buf') (k : Nat) :
    buf'.take (i + src.length + k) = buf.take i ++ src ++ (buf.drop (i + src.length)).take k := by
  rw [List.take_add, h.take, h.rest]

theorem Written.mem (h : Written buf i src buf') {a : α} (ha : a ∈ src) : a ∈ buf' := by
  have hmem : a ∈ buf'.take (i + src.length) := by
    rw [h.take]
    exact List.mem_append_right _ ha
  exact List.mem_of_mem_take hmem

variable [DecidableEq α]

/-- The string at the front of the block, up to its terminator `z`. -/
def readStr (z : α) (buf : List α) : Except Overrun (List α) :=
  if z ∈ buf then .ok (buf.takeWhile (· ≠ z)) else .error .overrun

theorem readStr_ok (h : z ∈ buf) : ∃ s, readStr z buf = .ok s := ⟨_, if_pos h⟩

/-- A string and its terminator are read back. -/
theorem readStr_eq (hz : z ∉ s) (h : buf.take (s.length + 1) = s ++ [z]) :
    readStr z buf = .ok s := by
  obtain ⟨rest, rfl⟩ : ∃ rest, buf = s ++ z :: rest := by
    refine ⟨buf.drop (s.length + 1), ?_⟩
    have happ := List.take_append_drop (s.length + 1) buf
    rw [h, List.append_assoc] at happ
    exact happ.symm
  have hmem : z ∈ s ++ z :: rest := List.mem_append_right _ List.mem_cons_self
  unfold readStr
  rw [if_pos hmem, Segments.takeWhile_ne_append hz]

end SimplestWeb.Lib.Buffer
