import SimplestWeb.Lib.Segments
import SimplestWeb.Mongoose.HttpMessage

/-!
# The path of a request

`mg_normalize_uri_path` and `parse_uri_component` (`mongoose.c`, lines 5401 and
5545).

`mg_serve_http` normalizes the path where it stands in the buffer of the
connection, so the loop reads and writes the same bytes. It never writes past
the position it reads at, and what it leaves in front is the path with `.` and
`..` resolved on the stack of its segments (`mgNormalizeUriPath_eq`).

Mirroring notes:
- The buffer of the path is `buf`; `s`, `next` and `d` are positions in it.
-/

namespace SimplestWeb.Mongoose

open SimplestWeb.Lib

def slash : UInt8 := 47

def dot : Bytes := cstr "."
def dotdot : Bytes := cstr ".."

/-- `parse_uri_component` from position `s` on, with `/` for the separator: the
component, and the position behind it and its separator. -/
def parseUriComponent (buf : Bytes) (s : Nat) : Bytes × Nat :=
  let component := (buf.drop s).takeWhile (· ≠ slash)
  let q := s + component.length
  (component, if q < buf.length then q + 1 else q)

/-- `memmove(buf + d, buf + s, n)`. -/
def memmove (buf : Bytes) (d s n : Nat) : Bytes :=
  buf.take d ++ (buf.drop s).take n ++ buf.drop (d + n)

/-- `..`: back to the previous slash. The first `if` steps over the slash at the end
of what has been written, and the loop stops behind the one before. -/
def backtrack (buf : Bytes) (d : Nat) : Nat :=
  let out := buf.take d
  let out := if 1 < out.length ∧ out.getLast? = some slash then out.dropLast else out
  (Segments.upTo slash out).length

/-- The loop of `mg_normalize_uri_path`. Every round moves `s` on, so that
`buf.length` rounds are enough. -/
def normalizeLoop : Nat → Bytes → Nat → Nat → Bytes × Nat
  | 0, buf, _, d => (buf, d)
  | fuel + 1, buf, s, d =>
    if s < buf.length then
      let (component, next) := parseUriComponent buf s
      if component = dot then normalizeLoop fuel buf next d
      else if component = dotdot then normalizeLoop fuel buf next (backtrack buf d)
      else normalizeLoop fuel (memmove buf d s (next - s)) next (d + (next - s))
    else (buf, d)

/-- `mg_normalize_uri_path(&hm->uri, &hm->uri)`: the buffer afterwards, and the new
length of the path. -/
def mgNormalizeUriPath (buf : Bytes) : Option (Bytes × Nat) :=
  if buf.head? = some slash then
    let (buf, d) := normalizeLoop buf.length buf 0 0
    -- `if (d == cp) *d++ = '/';`
    some (if d = 0 then (slash :: buf.drop 1, 1) else (buf, d))
  else none

/-- The path that is left. -/
def normalPath (buf : Bytes) : Option Bytes :=
  (mgNormalizeUriPath buf).map fun r => r.1.take r.2

/-! ## Normalizing in place -/

section

variable {buf last : Bytes} {s d n k : Nat} {dirs stack : List Bytes}

theorem memmove_length (hd : d ≤ s) (hs : s + n ≤ buf.length) :
    (memmove buf d s n).length = buf.length := by
  unfold memmove
  simp only [List.length_append, List.length_take, List.length_drop]
  omega

/-- What stands in front of the moved bytes stays. -/
theorem memmove_take (hd : d ≤ s) (hs : s + n ≤ buf.length) :
    (memmove buf d s n).take (d + n) = buf.take d ++ (buf.drop s).take n := by
  have hlen : (buf.take d ++ (buf.drop s).take n).length = d + n := by
    simp only [List.length_append, List.length_take, List.length_drop]
    omega
  unfold memmove
  rw [← hlen, List.take_left]

/-- What has not been read yet stays. -/
theorem memmove_drop (hd : d ≤ s) (hs : s + n ≤ buf.length) (hk : d + n ≤ k) :
    (memmove buf d s n).drop k = buf.drop k := by
  have hlen : (buf.take d ++ (buf.drop s).take n).length = d + n := by
    simp only [List.length_append, List.length_take, List.length_drop]
    omega
  obtain ⟨j, rfl⟩ := Nat.exists_eq_add_of_le hk
  unfold memmove
  rw [← hlen, List.drop_length_add_append, List.drop_drop, hlen]

/-- A component and its slash are parsed. -/
theorem parseUriComponent_dir {c : Bytes} (hc : slash ∉ c) (h : buf.drop s = c ++ slash :: last) :
    parseUriComponent buf s = (c, s + c.length + 1) := by
  have hlt : s + c.length < buf.length := by
    have hlen := congrArg List.length h
    simp only [List.length_drop, List.length_append, List.length_cons] at hlen
    omega
  unfold parseUriComponent
  rw [h, Segments.takeWhile_ne_append hc]
  dsimp only
  rw [if_pos hlt]

/-- The last component goes to the end. -/
theorem parseUriComponent_last (hl : slash ∉ last) (h : buf.drop s = last) (hs : s ≤ buf.length) :
    parseUriComponent buf s = (last, buf.length) := by
  have hlen := congrArg List.length h
  rw [List.length_drop] at hlen
  unfold parseUriComponent
  rw [h, Segments.takeWhile_ne_self hl]
  dsimp only
  rw [if_neg (by omega)]
  congr 1
  omega

/-- `..` takes the last segment off. -/
theorem backtrack_spec (hst : ∀ c ∈ stack, slash ∉ c)
    (h : buf.take d = slash :: Segments.unsplit slash stack) :
    backtrack buf d ≤ d ∧
      buf.take (backtrack buf d) = slash :: Segments.unsplit slash stack.dropLast := by
  have hroot : ∀ st : List Bytes, slash :: Segments.unsplit slash st =
      Segments.unsplit slash ([] :: st) := fun st => (Segments.unsplit_cons [] st).symm
  -- the position is the length of what is left
  have hpos : backtrack buf d = (slash :: Segments.unsplit slash stack.dropLast).length := by
    unfold backtrack
    rw [h]
    dsimp only
    cases stack using List.reverseRecOn with
    | nil => rfl
    | append_singleton stack c =>
      have hc : slash ∉ c := hst c (by simp)
      have hout : slash :: Segments.unsplit slash (stack ++ [c]) =
          slash :: Segments.unsplit slash stack ++ c ++ [slash] := by
        rw [Segments.unsplit_concat]
        simp only [List.cons_append, List.append_assoc]
      have hlong : 1 < (slash :: Segments.unsplit slash stack ++ c ++ [slash]).length := by
        simp only [List.length_append, List.length_cons]
        omega
      rw [hout, if_pos ⟨hlong, List.getLast?_concat⟩, List.dropLast_concat,
        Segments.upTo_append hc, List.dropLast_concat, hroot, Segments.upTo_unsplit]
  have hprefix : slash :: Segments.unsplit slash stack.dropLast <+: buf.take d := by
    rw [h]
    cases stack using List.reverseRecOn with
    | nil => exact List.prefix_rfl
    | append_singleton stack c =>
      rw [List.dropLast_concat, Segments.unsplit_concat, ← List.cons_append]
      exact List.prefix_append _ _
  have hle : (slash :: Segments.unsplit slash stack.dropLast).length ≤ d := by
    have := hprefix.length_le
    rw [List.length_take] at this
    omega
  rw [hpos]
  refine ⟨hle, ?_⟩
  have htake := List.prefix_iff_eq_take.mp hprefix
  rw [List.take_take, Nat.min_eq_left hle] at htake
  exact htake.symm

end

/-! ## What is left -/

/-- The normal form of a path: its segments `dirs` are pushed on `stack`, and `last` is
what stands behind the last slash. -/
def normalForm (stack dirs : List Bytes) (last : Bytes) : Bytes :=
  if last = dot ∨ last = dotdot then
    slash :: Segments.unsplit slash (Segments.resolve dot dotdot (dirs ++ [last]) stack)
  else slash :: (Segments.unsplit slash (Segments.resolve dot dotdot dirs stack) ++ last)

/-- At the end of the buffer the loop stops. -/
theorem normalizeLoop_end {buf : Bytes} {s : Nat} (hs : buf.length ≤ s) (fuel d : Nat) :
    normalizeLoop fuel buf s d = (buf, d) := by
  cases fuel with
  | zero => rfl
  | succ fuel =>
    unfold normalizeLoop
    rw [if_neg (Nat.not_lt.mpr hs)]

/-- The loop stays inside the buffer, and leaves the normal form in front. -/
theorem normalizeLoop_spec {last : Bytes} (hl : slash ∉ last) {dirs : List Bytes}
    (hdirs : ∀ c ∈ dirs, slash ∉ c) {fuel s d : Nat} {buf : Bytes} {stack : List Bytes}
    (hfuel : dirs.length + last.length ≤ fuel) (hd : d ≤ s) (hs : s ≤ buf.length)
    (hst : ∀ c ∈ stack, slash ∉ c) (hout : buf.take d = slash :: Segments.unsplit slash stack)
    (hin : buf.drop s = Segments.unsplit slash dirs ++ last) :
    (normalizeLoop fuel buf s d).1.length = buf.length ∧
      (normalizeLoop fuel buf s d).2 ≤ buf.length ∧
      (normalizeLoop fuel buf s d).1.take (normalizeLoop fuel buf s d).2 =
        normalForm stack dirs last := by
  have hlast : s + (Segments.unsplit slash dirs ++ last).length = buf.length := by
    rw [← hin, List.length_drop]
    omega
  induction dirs generalizing fuel s d buf stack with
  | nil =>
    rw [Segments.unsplit_nil, List.nil_append] at hin hlast
    rw [List.length_nil, Nat.zero_add] at hfuel
    cases fuel with
    | zero =>
      obtain rfl : last = [] := List.length_eq_zero_iff.mp (Nat.le_zero.mp hfuel)
      refine ⟨rfl, hd.trans hs, ?_⟩
      rw [normalForm, if_neg (by decide)]
      show buf.take d = _
      rw [hout, List.append_nil]
      rfl
    | succ fuel =>
      unfold normalizeLoop
      by_cases hend : s < buf.length
      · rw [if_pos hend, parseUriComponent_last hl hin hs]
        dsimp only
        unfold normalForm
        split
        next hdot =>
          rw [normalizeLoop_end (Nat.le_refl _), if_pos (Or.inl hdot), hdot, List.nil_append]
          exact ⟨rfl, hd.trans hs, hout⟩
        next hdot =>
          split
          next hdd =>
            obtain ⟨hback, htake⟩ := backtrack_spec hst hout
            rw [normalizeLoop_end (Nat.le_refl _), if_pos (Or.inr hdd), hdd, List.nil_append]
            exact ⟨rfl, hback.trans (hd.trans hs), htake⟩
          next hdd =>
            -- what stands behind the last slash is moved to the front
            have hlen : (memmove buf d s (buf.length - s)).length = buf.length :=
              memmove_length hd (by omega)
            have hmove : (buf.drop s).take (buf.length - s) = last := by
              rw [← hin]
              exact List.take_of_length_le (by rw [List.length_drop])
            rw [normalizeLoop_end (Nat.le_of_eq hlen), if_neg (not_or.mpr ⟨hdot, hdd⟩)]
            refine ⟨hlen, by omega, ?_⟩
            rw [memmove_take hd (by omega), hout, hmove]
            rfl
      · obtain rfl : last = [] := List.length_eq_zero_iff.mp (by omega)
        rw [if_neg hend]
        refine ⟨rfl, hd.trans hs, ?_⟩
        rw [normalForm, if_neg (by decide), List.append_nil]
        exact hout
  | cons c dirs ih =>
    have hc := hdirs c List.mem_cons_self
    have hdirs' : ∀ c' ∈ dirs, slash ∉ c' := fun c' hc' => hdirs c' (List.mem_cons_of_mem c hc')
    rw [List.length_cons] at hfuel
    obtain ⟨fuel, rfl⟩ : ∃ k, fuel = k + 1 := ⟨fuel - 1, by omega⟩
    rw [Segments.unsplit_cons, List.append_assoc, List.cons_append] at hin
    rw [Segments.unsplit_cons, List.append_assoc, List.cons_append, List.length_append,
      List.length_cons] at hlast
    have hnext : buf.drop (s + c.length + 1) = Segments.unsplit slash dirs ++ last := by
      rw [Nat.add_assoc, ← List.drop_drop, hin, ← List.drop_drop, List.drop_left]
      rfl
    have hform : normalForm stack (c :: dirs) last =
        normalForm (Segments.push dot dotdot stack c) dirs last := rfl
    unfold normalizeLoop
    rw [if_pos (by omega), parseUriComponent_dir hc hin]
    dsimp only
    rw [hform]
    unfold Segments.push
    split
    next =>
      exact ih hdirs' (by omega) (by omega) (by omega) hst hout hnext (by omega)
    next =>
      split
      next =>
        obtain ⟨hback, htake⟩ := backtrack_spec hst hout
        refine ih hdirs' (by omega) (by omega) (by omega) ?_ htake hnext (by omega)
        intro c' hc'
        exact hst c' (List.dropLast_subset stack hc')
      next =>
        -- the component and its slash are moved to the front
        have hmove : s + c.length + 1 - s = c.length + 1 := by omega
        rw [hmove]
        have hlen : (memmove buf d s (c.length + 1)).length = buf.length :=
          memmove_length hd (by omega)
        have hdir : (buf.drop s).take (c.length + 1) = c ++ [slash] := by
          rw [hin, List.take_length_add_append]
          rfl
        rw [← hlen]
        refine ih hdirs' (by omega) (by omega) (by omega) ?_ ?_ ?_ (by omega)
        · intro c' hc'
          rcases List.mem_append.mp hc' with hc' | hc'
          · exact hst c' hc'
          · rw [List.mem_singleton.mp hc']
            exact hc
        · rw [memmove_take hd (by omega), hout, hdir, Segments.unsplit_concat]
          rfl
        · rw [memmove_drop hd (by omega) (by omega)]
          exact hnext

/-- The path is normalized where it stands: the buffer keeps its length, and the path
in it is the normal form. -/
theorem mgNormalizeUriPath_eq {dirs : List Bytes} {last : Bytes} (hdirs : ∀ c ∈ dirs, slash ∉ c)
    (hl : slash ∉ last) :
    ∃ buf' n, mgNormalizeUriPath (slash :: (Segments.unsplit slash dirs ++ last)) = some (buf', n) ∧
      buf'.length = (slash :: (Segments.unsplit slash dirs ++ last)).length ∧ n ≤ buf'.length ∧
      buf'.take n = normalForm [] dirs last := by
  let buf := slash :: (Segments.unsplit slash dirs ++ last)
  -- the first component is empty, and its slash is moved onto itself
  have hround : normalizeLoop buf.length buf 0 0 =
      normalizeLoop (Segments.unsplit slash dirs ++ last).length buf 1 1 := by
    have hcomp : parseUriComponent buf 0 = ([], 1) :=
      parseUriComponent_dir List.not_mem_nil rfl
    show normalizeLoop (_ + 1) buf 0 0 = _
    rw [normalizeLoop, if_pos (by exact Nat.zero_lt_succ _), hcomp]
    rfl
  have hfuel : dirs.length + last.length ≤ (Segments.unsplit slash dirs ++ last).length := by
    rw [List.length_append]
    exact Nat.add_le_add_right (Segments.length_le_unsplit dirs) _
  have hout : buf.take 1 = slash :: Segments.unsplit slash [] := rfl
  have hin : buf.drop 1 = Segments.unsplit slash dirs ++ last := rfl
  have hlong : 1 ≤ buf.length := Nat.succ_le_succ (Nat.zero_le _)
  have hnil : ∀ c ∈ ([] : List Bytes), slash ∉ c := fun c hc => absurd hc List.not_mem_nil
  obtain ⟨hlen, hle, htake⟩ :=
    normalizeLoop_spec hl hdirs hfuel (Nat.le_refl 1) hlong hnil hout hin
  rw [← hround] at hlen hle htake
  have hpos : (normalizeLoop buf.length buf 0 0).2 ≠ 0 := by
    intro h0
    rw [h0, List.take_zero] at htake
    unfold normalForm at htake
    split at htake
    all_goals exact List.cons_ne_nil _ _ htake.symm
  refine ⟨_, _, ?_, hlen, hle.trans (Nat.le_of_eq hlen.symm), htake⟩
  unfold mgNormalizeUriPath
  show (if some slash = some slash then _ else none) = _
  rw [if_pos rfl]
  dsimp only
  rw [if_neg hpos]

theorem normalPath_eq {dirs : List Bytes} {last : Bytes} (hdirs : ∀ c ∈ dirs, slash ∉ c)
    (hl : slash ∉ last) :
    normalPath (slash :: (Segments.unsplit slash dirs ++ last)) = some (normalForm [] dirs last) := by
  obtain ⟨buf', n, h, -, -, htake⟩ := mgNormalizeUriPath_eq hdirs hl
  unfold normalPath
  rw [h]
  exact congrArg some htake

/-- A path with nothing to resolve. -/
structure IsNormal (p : Bytes) (dirs : List Bytes) (last : Bytes) : Prop where
  eq : p = slash :: (Segments.unsplit slash dirs ++ last)
  noSlash : ∀ c ∈ dirs ++ [last], slash ∉ c
  noDots : ∀ c ∈ dirs ++ [last], c ≠ dot ∧ c ≠ dotdot

theorem normalForm_isNormal {dirs : List Bytes} {last : Bytes} (hdirs : ∀ c ∈ dirs, slash ∉ c)
    (hl : slash ∉ last) : ∃ dirs' last', IsNormal (normalForm [] dirs last) dirs' last' := by
  unfold normalForm
  split
  next hdots =>
    refine ⟨Segments.resolve dot dotdot (dirs ++ [last]) [], [], by rw [List.append_nil], ?_, ?_⟩
    all_goals
      intro c hc
      rcases List.mem_append.mp hc with hc | hc
    · rcases Segments.mem_resolve hc with hc | ⟨hc, -⟩
      · exact absurd hc List.not_mem_nil
      · rcases List.mem_append.mp hc with hc | hc
        · exact hdirs c hc
        · rw [List.mem_singleton.mp hc]
          exact hl
    · rw [List.mem_singleton.mp hc]
      exact List.not_mem_nil
    · rcases Segments.mem_resolve hc with hc | ⟨-, hne⟩
      · exact absurd hc List.not_mem_nil
      · exact hne
    · rw [List.mem_singleton.mp hc]
      decide
  next hdots =>
    refine ⟨Segments.resolve dot dotdot dirs [], last, rfl, ?_, ?_⟩
    all_goals
      intro c hc
      rcases List.mem_append.mp hc with hc | hc
    · rcases Segments.mem_resolve hc with hc | ⟨hc, -⟩
      · exact absurd hc List.not_mem_nil
      · exact hdirs c hc
    · rw [List.mem_singleton.mp hc]
      exact hl
    · rcases Segments.mem_resolve hc with hc | ⟨-, hne⟩
      · exact absurd hc List.not_mem_nil
      · exact hne
    · rw [List.mem_singleton.mp hc]
      exact not_or.mp hdots

/-- A path that is normal already stays as it is. -/
theorem IsNormal.normalPath {p : Bytes} {dirs : List Bytes} {last : Bytes}
    (h : IsNormal p dirs last) : normalPath p = some p := by
  obtain ⟨rfl, hslash, hdots⟩ := h
  have hlast := hdots last (by simp)
  rw [normalPath_eq (fun c hc => hslash c (List.mem_append_left _ hc)) (hslash last (by simp)),
    normalForm, if_neg (not_or.mpr hlast),
    Segments.resolve_self fun c hc => hdots c (List.mem_append_left _ hc), List.nil_append]

/-- **Normal paths.** A path is refused only if it does not start with a slash. What is
left of the others has no segment `.` or `..`, and normalizing it again changes nothing. -/
theorem normalPath_normal (buf : Bytes) :
    (normalPath buf = none ↔ buf.head? ≠ some slash) ∧
      ∀ p, normalPath buf = some p →
        (∃ dirs last, IsNormal p dirs last) ∧ normalPath p = some p := by
  by_cases hhead : buf.head? = some slash
  · obtain ⟨rest, rfl⟩ : ∃ rest, buf = slash :: rest := by
      cases buf with
      | nil => exact absurd hhead (by simp)
      | cons b rest => exact ⟨rest, by rw [Option.some.inj hhead]⟩
    obtain ⟨dirs, last, hdirs, hl, rfl⟩ := Segments.exists_unsplit slash rest
    rw [normalPath_eq hdirs hl]
    refine ⟨by simp, ?_⟩
    rintro p ⟨⟩
    obtain ⟨dirs', last', h⟩ := normalForm_isNormal hdirs hl
    exact ⟨⟨dirs', last', h⟩, h.normalPath⟩
  · have hnone : normalPath buf = none := by
      unfold normalPath mgNormalizeUriPath
      rw [if_neg hhead]
      rfl
    rw [hnone]
    refine ⟨by simp [hhead], ?_⟩
    intro p hp
    exact absurd hp (by simp)

example : normalPath (cstr "/a/./b/../../../c//d") = some (cstr "/c//d") := by decide

end SimplestWeb.Mongoose
