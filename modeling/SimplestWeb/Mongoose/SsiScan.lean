import SimplestWeb.Lib.Buffer
import SimplestWeb.Mongoose.HttpMessage
import Mathlib.Data.List.Induction

/-!
# Scanning a file for SSI tags

`mg_send_ssi_file` (`mongoose.c`, line 9413) takes a file byte by byte through a buffer of
`BUFSIZ` bytes. It is flushed when a tag begins or when it is full, and a closed tag is handed
over as a string in it. `SsiEvent`s are what is done on the way.

Mirroring notes:
- The length of `buf` is `sizeof(buf)`; what is in it at the start is arbitrary.
- A closed tag comes with the memory from `p` on: the string there is read later.
-/

namespace SimplestWeb.Mongoose

open SimplestWeb.Lib
open SimplestWeb.Lib.Buffer (Overrun write get)

def less : UInt8 := 60
def greater : UInt8 := 62
def dash : UInt8 := 45

/-- `btag`. -/
def btag : Bytes := cstr "<!--#"

/-- What is done about a file. -/
inductive SsiEvent
  | send (bs : Bytes)
  | directive (p : Bytes)
  | tooLarge
  deriving DecidableEq, Repr

/-- The locals of the loop. -/
structure SsiScan where
  buf : Bytes
  len : Nat := 0
  inSsiTag : Bool := false
  deriving DecidableEq, Repr

/-- `buf[len++] = ch`. -/
def SsiScan.push (s : SsiScan) (ch : UInt8) : Except Overrun SsiScan := do
  let buf ← write s.buf s.len [ch]
  return { s with buf := buf, len := s.len + 1 }

/-- `buf[len - 1] == '-' && buf[len - 2] == '-'`. -/
def SsiScan.closing (s : SsiScan) : Except Overrun Bool := do
  let last ← get s.buf (s.len - 1)
  if last = dash then
    let before ← get s.buf (s.len - 2)
    return decide (before = dash)
  else return false

/-- `while (i > 0 && buf[i] == ' ') buf[i--] = '\0'`. -/
def trimBlanks : Nat → Bytes → Except Overrun Bytes
  | 0, buf => .ok buf
  | i + 1, buf => do
    let b ← get buf (i + 1 : Nat)
    if b = space then
      let buf ← write buf (i + 1) [0]
      trimBlanks i buf
    else return buf

/-- The closing dashes are cut off, and blanks before them. (`i` is a `size_t`, so that it is
not decremented below zero but to its largest value.) -/
def trimTag (buf : Bytes) (len : Nat) : Except Overrun Bytes := do
  let buf ← write buf (len - 2) [0]
  match len - 2 with
  | 0 => .error .overrun
  | i + 1 => trimBlanks i buf

/-- `in_ssi_tag && ch == '>' && buf[len - 1] == '-' && buf[len - 2] == '-'`. -/
def SsiScan.tagCloses (s : SsiScan) (ch : UInt8) : Except Overrun Bool :=
  if s.inSsiTag && ch == greater then s.closing else .ok false

/-- The other branches of the loop. -/
def SsiScan.buffer (s : SsiScan) (ch : UInt8) : Except Overrun (SsiScan × List SsiEvent) := do
  if ch = less then
    let s' ← { s with len := 0, inSsiTag := true }.push ch
    return (s', if 0 < s.len then [.send (s.buf.take s.len)] else [])
  else if s.inSsiTag then
    if s.len = btag.length ∧ s.buf.take s.len ≠ btag then
      let s ← { s with inSsiTag := false }.push ch
      return (s, [])
    else if s.len = s.buf.length - 2 then
      let s ← { s with len := 0 }.push ch
      return (s, [.tooLarge])
    else
      let s ← s.push ch
      return (s, [])
  else
    let s ← s.push ch
    if s.len = s.buf.length then return ({ s with len := 0 }, [.send (s.buf.take s.len)])
    else return (s, [])

/-- One round of the loop. -/
def SsiScan.step (s : SsiScan) (ch : UInt8) : Except Overrun (SsiScan × List SsiEvent) := do
  if ← s.tagCloses ch then
    let buf ← trimTag s.buf s.len
    return ({ buf := buf }, [.directive (buf.drop btag.length)])
  else s.buffer ch

/-- The loop. -/
def SsiScan.run : SsiScan → Bytes → Except Overrun (SsiScan × List SsiEvent)
  | s, [] => .ok (s, [])
  | s, ch :: bs => do
    let (s, evs) ← s.step ch
    let (s, evs') ← s.run bs
    return (s, evs ++ evs')

/-- What is done about `file`, with `buf` as it was found. -/
def ssiEvents (buf file : Bytes) : Except Overrun (List SsiEvent) := do
  let (s, evs) ← SsiScan.run { buf := buf } file
  return evs ++ if 0 < s.len then [.send (s.buf.take s.len)] else []

variable {s s' : SsiScan} {evs evs' : List SsiEvent} {size : Nat} {w v bs : Bytes} {ch : UInt8}

/-! ## One round -/

/-- `w` is what is buffered, in `size` bytes. -/
structure Pending (s : SsiScan) (size : Nat) (w : Bytes) : Prop where
  size : s.buf.length = size
  len : s.len = w.length
  front : s.buf.take w.length = w

theorem Pending.le (h : Pending s size w) : w.length ≤ size := by
  have hlen := congrArg List.length h.front
  rw [List.length_take, h.size] at hlen
  omega

/-- What is pending stands at the front of the buffer. -/
theorem Pending.take_len (h : Pending s size w) : s.buf.take s.len = w := by
  rw [h.len, h.front]

/-- A byte that fits is put behind it. -/
theorem Pending.push (h : Pending s size w) (hroom : w.length < size) (ch : UInt8) :
    ∃ s', s.push ch = .ok s' ∧ Pending s' size (w ++ [ch]) ∧ s'.inSsiTag = s.inSsiTag := by
  have hfit : s.len + [ch].length ≤ s.buf.length := by
    rw [h.len, h.size]
    exact hroom
  obtain ⟨buf, hwrite, hbuf⟩ := Buffer.write_ok hfit
  unfold SsiScan.push
  rw [hwrite]
  refine ⟨_, rfl, ⟨?_, ?_, ?_⟩, rfl⟩
  · exact hbuf.length.trans h.size
  · rw [List.length_append, ← h.len]
    rfl
  · rw [List.length_append, ← h.len]
    show buf.take (s.len + [ch].length) = _
    rw [hbuf.take, h.take_len]

/-- The same buffer, read from the start. -/
theorem Pending.restart (h : Pending s size w) (b : Bool) :
    Pending { s with len := 0, inSsiTag := b } size [] :=
  ⟨h.size, rfl, rfl⟩

/-- What is pending can be read byte by byte. -/
theorem Pending.get (h : Pending s size w) {k : Nat} (hk : k < w.length) :
    Buffer.get s.buf (k : Int) = .ok w[k] := by
  have hbuf : s.buf[k]? = some w[k] := by
    rw [← List.getElem?_eq_getElem hk, ← List.getElem?_take_of_lt (i := k) (j := w.length) hk]
    rw [h.front]
  exact Buffer.get_natCast.mpr hbuf

/-! ### Is the tag closed? -/

def dashes : Bytes := [dash, dash]

/-- Only the last two bytes say whether a tag is closed. -/
theorem dashes_suffix {u : Bytes} {a b : UInt8} :
    dashes <:+ u ++ [a, b] ↔ a = dash ∧ b = dash := by
  constructor
  · intro ⟨t, ht⟩
    obtain ⟨-, heq⟩ := List.append_inj' ht rfl
    injection heq with ha hb
    injection hb with hb
    exact ⟨ha.symm, hb.symm⟩
  · intro ⟨ha, hb⟩
    subst ha hb
    exact List.suffix_append u dashes

/-- One byte does not close a tag. -/
theorem not_dashes_suffix_singleton {b : UInt8} : ¬ dashes <:+ [b] := fun h =>
  absurd h.length_le (Nat.not_succ_le_self 1)

/-- The two bytes in front are read. -/
theorem Pending.closing_pair {u : Bytes} {a b : UInt8} (h : Pending s size (u ++ [a, b])) :
    s.closing = .ok (decide (dashes <:+ u ++ [a, b])) := by
  have hlen : s.len = u.length + 2 := by rw [h.len, List.length_append]; rfl
  have hlast : Buffer.get s.buf ((s.len : Int) - 1) = .ok b := by
    have hk : u.length + 1 < (u ++ [a, b]).length := by simp
    have hget := h.get hk
    rw [List.getElem_append_right (Nat.le_add_right _ _)] at hget
    rw [hlen, show ((u.length + 2 : Nat) : Int) - 1 = ((u.length + 1 : Nat) : Int) by omega, hget]
    simp
  have hbefore : Buffer.get s.buf ((s.len : Int) - 2) = .ok a := by
    have hk : u.length < (u ++ [a, b]).length := by simp
    have hget := h.get hk
    rw [List.getElem_append_right (Nat.le_refl _)] at hget
    rw [hlen, show ((u.length + 2 : Nat) : Int) - 2 = (u.length : Int) by omega, hget]
    simp
  unfold SsiScan.closing
  rw [hlast, Buffer.ok_bind]
  by_cases hb : b = dash
  · rw [if_pos hb, hbefore]
    show Except.ok (decide (a = dash)) = _
    rw [decide_eq_decide.mpr (dashes_suffix.trans (and_iff_left hb))]
  · rw [if_neg hb, decide_eq_false fun h => hb (dashes_suffix.mp h).2]
    rfl

/-- With one byte pending, the byte in front of the buffer is looked at if it is a dash. -/
theorem Pending.closing_single {b : UInt8} (h : Pending s size [b]) :
    s.closing = if b = dash then .error .overrun else .ok false := by
  have hlast : Buffer.get s.buf ((s.len : Int) - 1) = .ok b := by
    rw [h.len]
    exact h.get (Nat.zero_lt_one)
  have hbefore : Buffer.get s.buf ((s.len : Int) - 2) = .error .overrun := by
    rw [h.len]
    unfold Buffer.get
    cases s.buf[(((1 : Nat) : Int) - 2).toNat]? with
    | none => rfl
    | some a => rfl
  unfold SsiScan.closing
  rw [hlast, Buffer.ok_bind]
  by_cases hb : b = dash
  · rw [if_pos hb, if_pos hb, hbefore]
    rfl
  · rw [if_neg hb, if_neg hb]
    rfl

/-- A tag is only taken for closed if it is, unless the byte in front of the buffer is read. -/
theorem Pending.closing (h : Pending s size w) (hne : w ≠ []) (hw : w ≠ [dash]) :
    s.closing = .ok (decide (dashes <:+ w)) := by
  cases w using List.reverseRecOn with
  | nil => exact absurd rfl hne
  | append_singleton w b =>
    cases w using List.reverseRecOn with
    | nil =>
      have hb : b ≠ dash := fun hb => hw (by rw [hb]; rfl)
      rw [List.nil_append] at h ⊢
      rw [h.closing_single, if_neg hb, decide_eq_false not_dashes_suffix_singleton]
    | append_singleton u a =>
      rw [List.append_assoc] at h ⊢
      exact h.closing_pair

/-! ### The end of a tag -/

/-- The blanks at the end of a tag are cut off inside the buffer, as something in front of them is
none. -/
theorem trimBlanks_ok {i : Nat} {buf : Bytes} (hi : i < buf.length) :
    ∃ buf', trimBlanks i buf = .ok buf' ∧ buf'.length = buf.length := by
  induction i generalizing buf with
  | zero => exact ⟨buf, rfl, rfl⟩
  | succ i ih =>
    have hget : Buffer.get buf ((i + 1 : Nat) : Int) = .ok buf[i + 1] :=
      Buffer.get_natCast.mpr (List.getElem?_eq_getElem hi)
    unfold trimBlanks
    rw [hget, Buffer.ok_bind]
    split
    · have hroom : i + 1 + [(0 : UInt8)].length ≤ buf.length := hi
      obtain ⟨buf₁, hwrite, hbuf⟩ := Buffer.write_ok hroom
      have hi₁ : i < buf₁.length := by
        rw [hbuf.length]
        omega
      obtain ⟨buf', htrim, hlen⟩ := ih hi₁
      rw [hwrite, Buffer.ok_bind]
      exact ⟨buf', htrim, hlen.trans hbuf.length⟩
    · exact ⟨buf, rfl, rfl⟩

/-- Blanks behind `x` are cut off. -/
theorem trimBlanks_eq {x : Bytes} {b : UInt8} (hb : b ≠ space) (k : Nat) {buf : Bytes}
    (h : buf.take (x.length + 1 + k + 1) = x ++ [b] ++ List.replicate k space ++ [0]) :
    ∃ buf', trimBlanks (x.length + k) buf = .ok buf' ∧ buf'.length = buf.length ∧
      buf'.take (x.length + 1 + 1) = x ++ [b] ++ [0] := by
  -- what is read is in front of the closing dashes
  have hget : ∀ {k : Nat} {buf : Bytes} (i : Nat) (c : UInt8),
      buf.take (x.length + 1 + k + 1) = x ++ [b] ++ List.replicate k space ++ [0] →
      (x ++ [b] ++ List.replicate k space)[i]? = some c → Buffer.get buf (i : Int) = .ok c := by
    intro k buf i c h hc
    have hi := (List.getElem?_eq_some_iff.mp hc).1
    have hlen : i < x.length + 1 + k + 1 := by
      simp only [List.length_append, List.length_replicate, List.length_singleton] at hi
      omega
    rw [← List.getElem?_append_left hi, ← h, List.getElem?_take_of_lt hlen] at hc
    exact Buffer.get_natCast.mpr hc
  induction k generalizing buf with
  | zero =>
    rw [List.replicate_zero, List.append_nil] at h
    refine ⟨buf, ?_, rfl, h⟩
    cases x with
    | nil => rfl
    | cons a x =>
      have hlast := hget (k := 0) (x.length + 1) b (by simpa using h) (by simp)
      show trimBlanks (x.length + 1) buf = _
      unfold trimBlanks
      rw [hlast, Buffer.ok_bind, if_neg hb]
      rfl
  | succ k ih =>
    have hblank : (x ++ [b] ++ List.replicate (k + 1) space)[x.length + k + 1]? = some space := by
      rw [List.getElem?_append_right (by simp), List.getElem?_replicate]
      exact if_pos (by simp)
    have hlast := hget (x.length + k + 1) space h hblank
    have hroom : x.length + k + 1 + [(0 : UInt8)].length ≤ buf.length := by
      have := congrArg List.length h
      simp only [List.length_take, List.length_append, List.length_replicate,
        List.length_singleton] at this ⊢
      omega
    obtain ⟨buf₁, hwrite, hbuf⟩ := Buffer.write_ok hroom
    have hfront : buf.take (x.length + k + 1) = x ++ [b] ++ List.replicate k space := by
      have hsplit : x ++ [b] ++ List.replicate (k + 1) space ++ [0] =
          x ++ [b] ++ List.replicate k space ++ [space, 0] := by
        simp [List.replicate_succ']
      have hcut := congrArg (List.take (x.length + k + 1)) h
      rw [List.take_take, Nat.min_eq_left (by omega), hsplit,
        List.take_left' (by simp only [List.length_append, List.length_replicate,
          List.length_singleton]; omega)] at hcut
      exact hcut
    have htake : buf₁.take (x.length + 1 + k + 1) =
        x ++ [b] ++ List.replicate k space ++ [0] := by
      rw [← hfront, ← hbuf.take]
      congr 1
      simp
      omega
    obtain ⟨buf', htrim, hlen, hfront'⟩ := ih htake
    refine ⟨buf', ?_, hlen.trans hbuf.length, hfront'⟩
    show trimBlanks (x.length + k + 1) buf = _
    unfold trimBlanks
    rw [hlast, Buffer.ok_bind, if_pos rfl, hwrite]
    exact htrim

/-- The first of the closing dashes is overwritten. -/
theorem Pending.cut {u : Bytes} (h : Pending s size (u ++ dashes)) :
    ∃ buf, write s.buf (s.len - 2) [0] = .ok buf ∧ buf.length = size ∧
      buf.take (u.length + 1) = u ++ [0] ∧ s.len - 2 = u.length := by
  have hlen : s.len - 2 = u.length := by
    rw [h.len, List.length_append]
    rfl
  have hle := h.le
  rw [List.length_append, show dashes.length = 2 from rfl] at hle
  have hroom : u.length + [(0 : UInt8)].length ≤ s.buf.length := by
    rw [h.size, List.length_singleton]
    omega
  obtain ⟨buf, hwrite, hbuf⟩ := Buffer.write_ok hroom
  have hfront : s.buf.take u.length = u := by
    have hcut := congrArg (List.take u.length) h.front
    rw [List.take_take, List.length_append, Nat.min_eq_left (Nat.le_add_right _ _),
      List.take_left] at hcut
    exact hcut
  rw [hlen]
  exact ⟨buf, hwrite, hbuf.length.trans h.size, hbuf.take.trans (by rw [hfront]), rfl⟩

/-- A tag that is closed behind other bytes is cut out of the buffer. -/
theorem Pending.trimTag_ok {u : Bytes} (h : Pending s size (u ++ dashes)) (hu : u ≠ []) :
    ∃ buf, trimTag s.buf s.len = .ok buf ∧ buf.length = size := by
  obtain ⟨buf₁, hwrite, hsize, -, hlen⟩ := h.cut
  have hle := h.le
  rw [List.length_append, show dashes.length = 2 from rfl] at hle
  obtain ⟨i, hi⟩ : ∃ i, u.length = i + 1 :=
    Nat.exists_eq_add_one.mpr (List.length_pos_iff.mpr hu)
  have hi₁ : i < buf₁.length := by omega
  obtain ⟨buf, htrim, hlen'⟩ := trimBlanks_ok hi₁
  refine ⟨buf, ?_, hlen'.trans hsize⟩
  unfold trimTag
  rw [hwrite, Buffer.ok_bind, hlen, hi]
  exact htrim

/-- Nothing is in front of the dashes. -/
theorem Pending.trimTag_overrun (h : Pending s size dashes) :
    trimTag s.buf s.len = .error .overrun := by
  obtain ⟨buf, hwrite, -, -, hlen⟩ := Pending.cut (u := []) h
  unfold trimTag
  rw [hwrite, Buffer.ok_bind, hlen]
  rfl

/-- The string of the tag ends behind its last byte that is not a blank. -/
theorem Pending.trimTag_eq {x : Bytes} {b : UInt8} {k : Nat} (hb : b ≠ space)
    (h : Pending s size (x ++ [b] ++ List.replicate k space ++ dashes)) :
    ∃ buf, trimTag s.buf s.len = .ok buf ∧ buf.length = size ∧
      buf.take (x.length + 1 + 1) = x ++ [b] ++ [0] := by
  obtain ⟨buf₁, hwrite, hsize, hfront, hlen⟩ := h.cut
  have hu : (x ++ [b] ++ List.replicate k space).length = x.length + 1 + k := by
    simp only [List.length_append, List.length_replicate, List.length_singleton]
  rw [hu] at hfront
  obtain ⟨buf, htrim, hlen', hcut⟩ := trimBlanks_eq hb k hfront
  refine ⟨buf, ?_, hlen'.trans hsize, hcut⟩
  unfold trimTag
  rw [hwrite, Buffer.ok_bind, hlen, hu, show x.length + 1 + k = x.length + k + 1 by omega]
  exact htrim

/-! ### The cases of a round -/

/-- What is sent when a tag begins. -/
def flush (w : Bytes) : List SsiEvent := if 0 < w.length then [.send w] else []

/-- A round that does not close a tag. -/
theorem step_of_open (h : s.tagCloses ch = .ok false) : s.step ch = s.buffer ch := by
  unfold SsiScan.step
  rw [h]
  rfl

/-- Only `>` closes a tag. -/
theorem tagCloses_of_ne (hch : ch ≠ greater) : s.tagCloses ch = .ok false := by
  unfold SsiScan.tagCloses
  rw [beq_false_of_ne hch, Bool.and_false, if_neg Bool.false_ne_true]

/-- A `<` flushes what is pending and opens a tag. -/
theorem Pending.step_less (h : Pending s size w) (hsize : 0 < size) :
    ∃ s', s.step less = .ok (s', flush w) ∧ Pending s' size [less] ∧ s'.inSsiTag = true := by
  obtain ⟨s', hpush, hs', htag⟩ := (h.restart true).push hsize less
  refine ⟨s', ?_, hs', htag⟩
  rw [step_of_open (tagCloses_of_ne (by decide))]
  unfold SsiScan.buffer
  rw [if_pos rfl, hpush]
  show Except.ok (s', if 0 < s.len then [SsiEvent.send (s.buf.take s.len)] else []) = _
  rw [h.take_len, h.len]
  rfl

/-- No tag is closed by `ch`, and nothing in front of the buffer is read. -/
def StaysOpen (w : Bytes) (ch : UInt8) : Prop :=
  ch ≠ less ∧ (ch = greater → w ≠ [dash] ∧ ¬ dashes <:+ w)

/-- A byte that closes nothing is buffered. -/
theorem Pending.step_open (h : Pending s size w) (hne : w ≠ []) (hch : StaysOpen w ch) :
    s.step ch = s.buffer ch := by
  refine step_of_open ?_
  unfold SsiScan.tagCloses
  split
  next hgt =>
    rw [Bool.and_eq_true, beq_iff_eq] at hgt
    obtain ⟨hdash, hclose⟩ := hch.2 hgt.2
    rw [h.closing hne hdash, decide_eq_false hclose]
  next => rfl

/-- In a tag it is kept, as long as there is room for it. -/
theorem Pending.step_tag (h : Pending s size w) (htag : s.inSsiTag = true) (hne : w ≠ [])
    (hch : StaysOpen w ch) (hbegin : w.length = btag.length → w = btag)
    (hroom : w.length + 2 < size) :
    ∃ s', s.step ch = .ok (s', []) ∧ Pending s' size (w ++ [ch]) ∧ s'.inSsiTag = true := by
  obtain ⟨s', hpush, hs', htag'⟩ := h.push (by omega) ch
  refine ⟨s', ?_, hs', htag'.trans htag⟩
  rw [h.step_open hne hch]
  unfold SsiScan.buffer
  rw [if_neg hch.1, if_pos htag,
    h.take_len, h.len, h.size, if_neg fun hno => hno.2 (hbegin hno.1), if_neg (by omega), hpush]
  rfl

/-- The tag turns out not to be one. -/
theorem Pending.step_leave (h : Pending s size w) (htag : s.inSsiTag = true)
    (hch : StaysOpen w ch) (hlen : w.length = btag.length) (hw : w ≠ btag)
    (hroom : w.length + 1 < size) :
    ∃ s', s.step ch = .ok (s', []) ∧ Pending s' size (w ++ [ch]) ∧ s'.inSsiTag = false := by
  have hpending : Pending { s with inSsiTag := false } size w := ⟨h.size, h.len, h.front⟩
  obtain ⟨s', hpush, hs', htag'⟩ := hpending.push (by omega) ch
  have hne : w ≠ [] := by
    rw [← List.length_pos_iff, hlen]
    decide
  refine ⟨s', ?_, hs', htag'⟩
  rw [h.step_open hne hch]
  unfold SsiScan.buffer
  rw [if_neg hch.1, if_pos htag,
    if_pos ⟨h.len.trans hlen, by rw [h.take_len]; exact hw⟩, hpush]
  rfl

/-- A tag for which there is no room is dropped, but for that byte. -/
theorem Pending.step_tooLarge (h : Pending s size w) (htag : s.inSsiTag = true)
    (hch : StaysOpen w ch) (hlen : w.length = size - 2) (hlong : btag.length < w.length) :
    ∃ s', s.step ch = .ok (s', [.tooLarge]) ∧ Pending s' size [ch] ∧ s'.inSsiTag = true := by
  have hrestart : Pending { s with len := 0 } size [] := ⟨h.size, rfl, rfl⟩
  obtain ⟨s', hpush, hs', htag'⟩ := hrestart.push (by show 0 < size; omega) ch
  have hne : w ≠ [] := List.length_pos_iff.mp (by omega)
  refine ⟨s', ?_, hs', htag'.trans htag⟩
  rw [h.step_open hne hch]
  unfold SsiScan.buffer
  rw [if_neg hch.1, if_pos htag,
    h.take_len, h.len, h.size, if_neg (by omega), if_pos hlen, hpush]
  rfl

/-- In the text it is kept, and everything is sent once the buffer is full. -/
theorem Pending.step_text (h : Pending s size w) (htag : s.inSsiTag = false) (hch : ch ≠ less)
    (hroom : w.length < size) :
    ∃ s' w' evs, s.step ch = .ok (s', evs) ∧ Pending s' size w' ∧ s'.inSsiTag = false ∧
      w'.length < size ∧ (evs = [] ∧ w' = w ++ [ch] ∨ evs = [.send (w ++ [ch])] ∧ w' = []) := by
  obtain ⟨s', hpush, hs', htag'⟩ := h.push hroom ch
  have hstep : s.step ch = if s'.len = s'.buf.length then
      .ok ({ s' with len := 0 }, [.send (s'.buf.take s'.len)]) else .ok (s', []) := by
    have hopen : s.tagCloses ch = .ok false := by
      unfold SsiScan.tagCloses
      rw [htag, Bool.false_and, if_neg Bool.false_ne_true]
    rw [step_of_open hopen]
    unfold SsiScan.buffer
    rw [if_neg hch, if_neg (by rw [htag]; exact Bool.false_ne_true), hpush]
    show (if s'.len = s'.buf.length then _ else _) = _
    split
    · rfl
    · rfl
  rw [hstep, hs'.take_len]
  split
  next hfull =>
    exact ⟨_, [], _, rfl, ⟨hs'.size, rfl, rfl⟩, htag'.trans htag, by show 0 < size; omega,
      Or.inr ⟨rfl, rfl⟩⟩
  next hfree =>
    refine ⟨s', _, _, rfl, hs', htag'.trans htag, ?_, Or.inl ⟨rfl, rfl⟩⟩
    have hle := hs'.le
    rw [hs'.size, hs'.len] at hfree
    omega

/-- The tag ends. -/
theorem Pending.step_greater {u buf : Bytes} (h : Pending s size (u ++ dashes))
    (htag : s.inSsiTag = true) (htrim : trimTag s.buf s.len = .ok buf) :
    s.step greater = .ok ({ buf := buf }, [.directive (buf.drop btag.length)]) := by
  have hclosing := h.closing (by simp [dashes]) (by
    intro heq
    have := congrArg List.length heq
    rw [List.length_append] at this
    simp [dashes] at this)
  rw [decide_eq_true (List.suffix_append u dashes)] at hclosing
  unfold SsiScan.step SsiScan.tagCloses
  rw [if_pos (by rw [htag]; rfl), hclosing, Buffer.ok_bind, if_pos rfl, htrim]
  rfl

/-- Behind a tag that was too large something in front of the buffer is touched. -/
theorem Pending.step_overrun (h : Pending s size w) (htag : s.inSsiTag = true)
    (hw : w = [dash] ∨ w = dashes) : s.step greater = .error .overrun := by
  unfold SsiScan.step SsiScan.tagCloses
  rw [if_pos (by rw [htag]; rfl)]
  rcases hw with rfl | rfl
  · rw [h.closing_single, if_pos rfl]
    rfl
  · have hclosing := Pending.closing_pair (u := []) h
    rw [decide_eq_true (dashes_suffix.mpr ⟨rfl, rfl⟩)] at hclosing
    rw [hclosing, Buffer.ok_bind, if_pos rfl, h.trimTag_overrun]
    rfl

/-! ## The loop -/

theorem SsiScan.run_cons (s : SsiScan) (ch : UInt8) (bs : Bytes) :
    s.run (ch :: bs) = s.step ch >>= fun (s₁, evs) => s₁.run bs >>= fun (s₂, evs') =>
      .ok (s₂, evs ++ evs') := rfl

/-- The loop over two parts is the loop over the one and then over the other. -/
theorem SsiScan.run_append (s : SsiScan) (bs bs' : Bytes) :
    s.run (bs ++ bs') = s.run bs >>= fun (s₁, evs) => s₁.run bs' >>= fun (s₂, evs') =>
      .ok (s₂, evs ++ evs') := by
  induction bs generalizing s with
  | nil =>
    show s.run bs' = s.run bs' >>= fun (s₂, evs') => .ok (s₂, [] ++ evs')
    cases s.run bs' with
    | error e => rfl
    | ok r => rfl
  | cons ch bs ih =>
    rw [List.cons_append, SsiScan.run_cons, SsiScan.run_cons]
    cases s.step ch with
    | error e => rfl
    | ok r =>
      obtain ⟨s₁, evs₁⟩ := r
      rw [Buffer.ok_bind, Buffer.ok_bind]
      dsimp only
      rw [ih]
      cases s₁.run bs with
      | error e => rfl
      | ok r =>
        obtain ⟨s₂, evs₂⟩ := r
        rw [Buffer.ok_bind, Buffer.ok_bind, Buffer.ok_bind]
        dsimp only
        cases s₂.run bs' with
        | error e => rfl
        | ok r =>
          -- the events of the first round stand in front of both parts
          exact congrArg (fun evs => Except.ok (r.1, evs)) (List.append_assoc _ _ _).symm

/-- The loop gets from `s` to `s'` over `bs`. -/
def Scans (s : SsiScan) (bs : Bytes) (evs : List SsiEvent) (s' : SsiScan) : Prop :=
  s.run bs = .ok (s', evs)

theorem Scans.nil (s : SsiScan) : Scans s [] [] s := rfl

theorem Scans.cons (h : s.step ch = .ok (s', evs)) {s'' : SsiScan} (h' : Scans s' bs evs' s'') :
    Scans s (ch :: bs) (evs ++ evs') s'' := by
  unfold Scans
  rw [SsiScan.run_cons, h, Buffer.ok_bind]
  dsimp only
  rw [show s'.run bs = .ok (s'', evs') from h']
  rfl

/-- Scans are put one behind the other. -/
theorem Scans.append {s'' : SsiScan} {bs' : Bytes} (h : Scans s bs evs s')
    (h' : Scans s' bs' evs' s'') : Scans s (bs ++ bs') (evs ++ evs') s'' := by
  unfold Scans at h h' ⊢
  rw [SsiScan.run_append, h, Buffer.ok_bind]
  dsimp only
  rw [h']
  rfl

theorem Scans.snoc {s'' : SsiScan} (h : Scans s bs evs s') (h' : s'.step ch = .ok (s'', evs')) :
    Scans s (bs ++ [ch]) (evs ++ evs') s'' := by
  have hone : Scans s' [ch] (evs' ++ []) s'' := Scans.cons h' (Scans.nil s'')
  rw [List.append_nil] at hone
  exact h.append hone

/-- A round that fails ends the loop. -/
theorem Scans.fails {bs' : Bytes} (h : Scans s bs evs s') (h' : s'.step ch = .error .overrun) :
    s.run (bs ++ ch :: bs') = .error .overrun := by
  have hrest : s'.run (ch :: bs') = .error .overrun := by
    rw [SsiScan.run_cons, h']
    rfl
  rw [SsiScan.run_append, show s.run bs = .ok (s', evs) from h, Buffer.ok_bind]
  dsimp only
  rw [hrest]
  rfl

/-- An access that leaves the buffer is the end of the scan. -/
theorem run_error (h : s.run bs = .error .overrun) (bs' : Bytes) :
    s.run (bs ++ bs') = .error .overrun := by
  rw [SsiScan.run_append, h]
  rfl

/-! ### Open tags -/

/-- A tag that has begun with `w` and is not closed yet. -/
structure OpenTag (w : Bytes) : Prop where
  begins : ∃ v, w = less :: v ∧ less ∉ v
  notClosed : ∀ x y, w = x ++ greater :: y → ¬ dashes <:+ x
  isTag : btag.length < w.length → btag <+: w

/-- A `<` opens a tag. -/
theorem OpenTag.single : OpenTag [less] where
  begins := ⟨[], rfl, List.not_mem_nil⟩
  notClosed := by
    intro x y h hx
    have hlen := congrArg List.length h
    have hle := hx.length_le
    rw [List.length_append, List.length_cons] at hlen
    simp [dashes] at hlen hle
    omega
  isTag := fun h => absurd h (by decide)

theorem OpenTag.ne_nil (h : OpenTag w) : w ≠ [] := by
  obtain ⟨v, rfl, -⟩ := h.begins
  exact List.cons_ne_nil _ _

theorem OpenTag.ne_dash (h : OpenTag w) : w ≠ [dash] := by
  obtain ⟨v, rfl, -⟩ := h.begins
  intro heq
  injection heq with hd
  exact absurd hd (by decide)

/-- What one more byte does not change. -/
theorem OpenTag.snoc (h : OpenTag w) (hch : StaysOpen w ch)
    (hbegin : w.length = btag.length → w = btag) : OpenTag (w ++ [ch]) where
  begins := by
    obtain ⟨v, rfl, hv⟩ := h.begins
    refine ⟨v ++ [ch], rfl, ?_⟩
    intro hmem
    rcases List.mem_append.mp hmem with hmem | hmem
    · exact hv hmem
    · exact hch.1 (List.mem_singleton.mp hmem).symm
  notClosed := by
    intro x y heq
    cases y using List.reverseRecOn with
    | nil =>
      obtain ⟨rfl, hlast⟩ := List.append_inj' heq rfl
      exact (hch.2 (List.singleton_inj.mp hlast)).2
    | append_singleton y b =>
      rw [← List.cons_append, ← List.append_assoc] at heq
      obtain ⟨hw, -⟩ := List.append_inj' heq rfl
      exact h.notClosed x y hw
  isTag := by
    intro hlen
    rw [List.length_append, List.length_singleton] at hlen
    refine List.IsPrefix.trans ?_ (List.prefix_append w [ch])
    rcases Nat.lt_or_eq_of_le (Nat.le_of_lt_succ hlen) with hlt | heq
    · exact h.isTag hlt
    · exact (hbegin heq.symm) ▸ List.prefix_rfl

/-- A tag is opened byte by byte. -/
theorem OpenTag.of_snoc (h : OpenTag (w ++ [ch])) (hne : w ≠ []) :
    OpenTag w ∧ StaysOpen w ch ∧ (w.length = btag.length → w = btag) := by
  obtain ⟨v, hv, hless⟩ := h.begins
  obtain ⟨b, w, rfl⟩ := List.exists_cons_of_ne_nil hne
  rw [List.cons_append] at hv
  injection hv with hb hv
  subst hb hv
  have hopen : OpenTag (less :: w) := by
    refine ⟨⟨w, rfl, fun hmem => hless (List.mem_append_left _ hmem)⟩, ?_, ?_⟩
    · intro x y heq
      refine h.notClosed x (y ++ [ch]) ?_
      rw [heq, List.append_assoc, List.cons_append]
    · intro hlen
      have hpre := h.isTag (by rw [List.length_append]; omega)
      exact List.prefix_of_prefix_length_le hpre (List.prefix_append _ _) (Nat.le_of_lt hlen)
  refine ⟨hopen, ⟨?_, ?_⟩, ?_⟩
  · intro heq
    exact hless (List.mem_append_right _ (List.mem_singleton.mpr heq.symm))
  · intro heq
    exact ⟨hopen.ne_dash, h.notClosed _ [] (by rw [heq])⟩
  · intro hlen
    have hpre := h.isTag (by rw [List.length_append, hlen]; exact Nat.lt_succ_self _)
    have hbtag : btag <+: less :: w :=
      List.prefix_of_prefix_length_le hpre (List.prefix_append _ _) (Nat.le_of_eq hlen.symm)
    exact (hbtag.eq_of_length hlen.symm).symm

/-- An open tag is buffered from its beginning. -/
theorem Pending.scan_open (h : Pending s size v) (hw : OpenTag w) (hroom : w.length + 2 ≤ size) :
    ∃ s', Scans s w (flush v) s' ∧ Pending s' size w ∧ s'.inSsiTag = true := by
  induction w using List.reverseRecOn with
  | nil => exact absurd rfl hw.ne_nil
  | append_singleton w ch ih =>
    rw [List.length_append, List.length_singleton] at hroom
    by_cases hne : w = []
    · subst hne
      obtain ⟨v', hv', -⟩ := hw.begins
      injection hv' with hch
      subst hch
      obtain ⟨s', hstep, hs', htag⟩ := h.step_less (by omega)
      have hscan := (Scans.nil s).snoc hstep
      exact ⟨s', hscan, hs', htag⟩
    · obtain ⟨hopen, hch, hbegin⟩ := hw.of_snoc hne
      obtain ⟨s₁, hscan, hs₁, htag⟩ := ih hopen (by omega)
      obtain ⟨s', hstep, hs', htag'⟩ := hs₁.step_tag htag hne hch hbegin (by omega)
      have hscan' := hscan.snoc hstep
      rw [List.append_nil] at hscan'
      exact ⟨s', hscan', hs', htag'⟩

end SimplestWeb.Mongoose
