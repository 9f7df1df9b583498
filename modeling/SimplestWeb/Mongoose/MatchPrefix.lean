import SimplestWeb.Lib.Segments
import SimplestWeb.Mongoose.HttpMessage

/-!
# Patterns

`mg_match_prefix_n` (`mongoose.c`, line 2167), the matcher behind the CGI, SSI and
hidden file patterns. It tries alternatives from left to right, and inside one
alternative it backtracks from the longest a star can take.

`Matches` says what a pattern without alternatives means; the matcher finds a
match exactly when there is one (`mgMatchPrefix_pos_iff`). Since `0` is both the
length of an empty match and the sign that there is none, an empty match counts
as none, also behind a star.

Mirroring notes:
- `i` is how much of the pattern is gone, so the pattern is what is left of it;
  the same for the string, whose position `j` is the third argument.
- `$` is looked at only when the string has ended or the two bytes differ: a `$` in
  the string is taken for the one in the pattern.
-/

namespace SimplestWeb.Mongoose

open SimplestWeb.Lib

def question : UInt8 := 63
def star : UInt8 := 42
def dollar : UInt8 := 36
def bar : UInt8 := 124
def comma : UInt8 := 44

/-- `len` for one star: up to the next slash. -/
def segmentLength (s : Bytes) : Nat := (s.takeWhile (· ≠ 47)).length

/-- `do … while (res == 0 && len != 0 && len-- > 0)`: `res + len`, or `0`. -/
def tryLengths (res : Nat → Nat) : Nat → Nat
  | 0 => res 0
  | len + 1 => if res (len + 1) = 0 then tryLengths res len else res (len + 1) + (len + 1)

/-- Behind the stars: `rest` is what is left of the pattern, and `len` how much of `s` the stars
can take. -/
def matchStar (res : Bytes → Nat → Nat) (rest s : Bytes) (len j : Nat) : Nat :=
  if rest = [] ∨ rest = [dollar] then j + len
  else
    let r := tryLengths (fun len => res (s.drop len) 0) len
    if r = 0 then 0 else j + r

/-- `mg_match_prefix_n` without alternatives. -/
def matchGlob : Bytes → Bytes → Nat → Nat
  | [], _, j => j
  | c :: _, [], j => if c = dollar then j else 0
  | [c], b :: s, j =>
    if c = question then matchGlob [] s (j + 1)
    else if c = star then matchStar (matchGlob []) [] (b :: s) (segmentLength (b :: s)) j
    else if tolower c = tolower b then matchGlob [] s (j + 1)
    else 0
  | c :: d :: p, b :: s, j =>
    if c = question then matchGlob (d :: p) s (j + 1)
    else if c = star then
      if d = star then matchStar (matchGlob p) p (b :: s) (b :: s).length j
      else matchStar (matchGlob (d :: p)) (d :: p) (b :: s) (segmentLength (b :: s)) j
    else if tolower c = tolower b then matchGlob (d :: p) s (j + 1)
    else 0

/-- `memchr`: the pattern in front of the first `b` and behind it. -/
def splitFirst (b : UInt8) (p : Bytes) : Option (Bytes × Bytes) :=
  if b ∈ p then
    let front := p.takeWhile (· ≠ b)
    some (front, p.drop (front.length + 1))
  else none

/-- `mg_match_prefix_n`. Every alternative is shorter than the pattern, so that its length is
fuel enough. -/
def matchAlternatives : Nat → Bytes → Bytes → Nat
  | 0, p, s => matchGlob p s 0
  | fuel + 1, p, s =>
    match splitFirst bar p <|> splitFirst comma p with
    | some (front, rest) =>
      let res := matchAlternatives fuel front s
      if 0 < res then res else matchAlternatives fuel rest s
    | none => matchGlob p s 0

def mgMatchPrefix (pattern s : Bytes) : Nat := matchAlternatives pattern.length pattern s

/-! ## What a pattern means -/

/-- What is left of a pattern behind one star, or two. -/
def starRest (p : Bytes) : Bytes := if p.head? = some star then p.tail else p

/-- How much of the string one star takes, or two. -/
def starLength (p s : Bytes) : Nat := if p.head? = some star then s.length else segmentLength s

/-- The pattern matches the first `n` bytes of the string. -/
inductive Matches : Bytes → Bytes → Nat → Prop
  | nil (s : Bytes) : Matches [] s 0
  | atEnd (p : Bytes) : Matches (dollar :: p) [] 0
  | any {p s : Bytes} {b : UInt8} {n : Nat} (h : Matches p s n) :
      Matches (question :: p) (b :: s) (n + 1)
  | byte {p s : Bytes} {c b : UInt8} {n : Nat} (hq : c ≠ question) (hs : c ≠ star)
      (hcb : tolower c = tolower b) (h : Matches p s n) : Matches (c :: p) (b :: s) (n + 1)
  | starEnd {p s : Bytes} {b : UInt8} (hp : starRest p = [] ∨ starRest p = [dollar]) :
      Matches (star :: p) (b :: s) (starLength p (b :: s))
  | star {p s : Bytes} {b : UInt8} {n len : Nat} (hp : ¬(starRest p = [] ∨ starRest p = [dollar]))
      (hlen : len ≤ starLength p (b :: s)) (hn : 0 < n)
      (h : Matches (starRest p) ((b :: s).drop len) n) : Matches (star :: p) (b :: s) (n + len)

section

variable {p s : Bytes} {b c : UInt8} {j n : Nat}

/-- One round of the loop. -/
theorem matchGlob_cons (c b : UInt8) (p s : Bytes) (j : Nat) : matchGlob (c :: p) (b :: s) j =
    if c = question then matchGlob p s (j + 1)
    else if c = star then
      matchStar (matchGlob (starRest p)) (starRest p) (b :: s) (starLength p (b :: s)) j
    else if tolower c = tolower b then matchGlob p s (j + 1)
    else 0 := by
  cases p with
  | nil => rfl
  | cons d p =>
    show (if c = question then _ else _) = _
    unfold starRest starLength
    by_cases hd : d = star
    · subst hd
      rfl
    · have hhead : ¬(d :: p).head? = some star := fun h => hd (Option.some.inj h)
      rw [if_neg hd, if_neg hhead, if_neg hhead]

theorem starRest_length_le (p : Bytes) : (starRest p).length ≤ p.length := by
  unfold starRest
  split
  · rw [List.length_tail]
    omega
  · exact Nat.le_refl _

/-- A length that is found matches … -/
theorem tryLengths_sound {res : Nat → Nat} {len : Nat} (h : tryLengths res len ≠ 0) :
    ∃ k ≤ len, res k ≠ 0 ∧ tryLengths res len = res k + k := by
  induction len with
  | zero => exact ⟨0, Nat.le_refl 0, h, rfl⟩
  | succ len ih =>
    unfold tryLengths at h ⊢
    by_cases hres : res (len + 1) = 0
    · rw [if_pos hres] at h ⊢
      obtain ⟨k, hk, hne, heq⟩ := ih h
      exact ⟨k, by omega, hne, heq⟩
    · rw [if_neg hres]
      exact ⟨len + 1, Nat.le_refl _, hres, rfl⟩

/-- … and one is found if there is any. -/
theorem tryLengths_complete {res : Nat → Nat} {k len : Nat} (hk : k ≤ len) (h : res k ≠ 0) :
    tryLengths res len ≠ 0 := by
  induction len with
  | zero =>
    obtain rfl := Nat.le_zero.mp hk
    exact h
  | succ len ih =>
    unfold tryLengths
    by_cases hres : res (len + 1) = 0
    · rw [if_pos hres]
      refine ih ?_
      by_cases heq : k = len + 1
      · rw [heq] at h
        exact absurd hres h
      · omega
    · rw [if_neg hres]
      omega

/-- What the matcher finds is a match … -/
theorem matchGlob_sound (h : matchGlob p s j ≠ 0) :
    ∃ n, matchGlob p s j = j + n ∧ Matches p s n := by
  induction hk : p.length using Nat.strongRecOn generalizing p s j with
  | ind k ih =>
    subst hk
    cases p with
    | nil => exact ⟨0, rfl, .nil s⟩
    | cons c p =>
      cases s with
      | nil =>
        unfold matchGlob at h ⊢
        obtain ⟨rfl, hj⟩ := ite_ne_right_iff.mp h
        exact ⟨0, if_pos rfl, .atEnd p⟩
      | cons b s =>
        have hlt : p.length < (c :: p).length := Nat.lt_succ_self _
        rw [matchGlob_cons] at h ⊢
        by_cases hq : c = question
        · rw [if_pos hq] at h ⊢
          obtain ⟨n, heq, hm⟩ := ih _ hlt h rfl
          rw [hq]
          exact ⟨n + 1, by omega, .any hm⟩
        · rw [if_neg hq] at h ⊢
          by_cases hs : c = star
          · rw [if_pos hs] at h ⊢
            rw [hs]
            unfold matchStar at h ⊢
            -- the stars take everything, or the lengths are tried one after the other
            by_cases hend : starRest p = [] ∨ starRest p = [dollar]
            · rw [if_pos hend]
              exact ⟨_, rfl, .starEnd hend⟩
            · rw [if_neg hend] at h ⊢
              dsimp only at h ⊢
              by_cases hr : tryLengths (fun len => matchGlob (starRest p) ((b :: s).drop len) 0)
                  (starLength p (b :: s)) = 0
              · rw [if_pos hr] at h
                exact absurd rfl h
              · rw [if_neg hr]
                obtain ⟨len, hlen, hne, heq⟩ := tryLengths_sound hr
                obtain ⟨n, hn, hm⟩ := ih _ (Nat.lt_of_le_of_lt (starRest_length_le p) hlt) hne rfl
                rw [heq]
                exact ⟨n + len, by omega, .star hend hlen (by omega) hm⟩
          · rw [if_neg hs] at h ⊢
            obtain ⟨hcb, hrest⟩ := ite_ne_right_iff.mp h
            rw [if_pos hcb]
            obtain ⟨n, heq, hm⟩ := ih _ hlt hrest rfl
            exact ⟨n + 1, by omega, .byte hq hs hcb hm⟩

/-- … and it finds one when there is one. -/
theorem matchGlob_complete (hm : Matches p s n) (hpos : 0 < j + n) : matchGlob p s j ≠ 0 := by
  induction hm generalizing j with
  | nil s =>
    show j ≠ 0
    omega
  | atEnd p =>
    unfold matchGlob
    rw [if_pos rfl]
    omega
  | any h ih =>
    rw [matchGlob_cons, if_pos rfl]
    exact ih (by omega)
  | byte hq hs hcb h ih =>
    rw [matchGlob_cons, if_neg hq, if_neg hs, if_pos hcb]
    exact ih (by omega)
  | starEnd hp =>
    rw [matchGlob_cons, if_neg (by decide), if_pos rfl]
    unfold matchStar
    rw [if_pos hp]
    omega
  | @star p s b n len hp hlen hn h ih =>
    rw [matchGlob_cons, if_neg (by decide), if_pos rfl]
    unfold matchStar
    rw [if_neg hp]
    dsimp only
    have hres := ih (show 0 < 0 + _ by omega)
    have htry : tryLengths (fun len => matchGlob (starRest p) ((b :: s).drop len) 0)
        (starLength p (b :: s)) ≠ 0 := tryLengths_complete hlen hres
    rw [if_neg htry]
    omega

/-! ## Alternatives -/

/-- The alternatives of a pattern. -/
def alternatives (pattern : Bytes) : List Bytes :=
  pattern.splitOnP fun b => b == bar || b == comma

theorem splitFirst_some {front rest : Bytes} (h : splitFirst b p = some (front, rest)) :
    p = front ++ b :: rest := by
  obtain ⟨hb, h⟩ := Option.ite_none_right_eq_some.mp h
  obtain ⟨rfl, rfl⟩ := Prod.mk.inj (Option.some.inj h)
  obtain ⟨s, t, rfl, hs⟩ := List.eq_append_cons_of_mem hb
  rw [Segments.takeWhile_ne_append hs, ← List.drop_drop, List.drop_left]
  rfl

theorem splitFirst_none (h : splitFirst b p = none) : b ∉ p := by
  intro hb
  unfold splitFirst at h
  rw [if_pos hb] at h
  exact absurd h (by simp)

/-- The separator the pattern is split at. -/
theorem split_cases (p : Bytes) :
    (∃ front sep rest, (splitFirst bar p <|> splitFirst comma p) = some (front, rest) ∧
        p = front ++ sep :: rest ∧ (sep == bar || sep == comma) = true) ∨
      (splitFirst bar p <|> splitFirst comma p) = none ∧ bar ∉ p ∧ comma ∉ p := by
  cases hbar : splitFirst bar p with
  | some fr => exact Or.inl ⟨fr.1, bar, fr.2, rfl, splitFirst_some hbar, by decide⟩
  | none =>
    cases hcomma : splitFirst comma p with
    | some fr => exact Or.inl ⟨fr.1, comma, fr.2, rfl, splitFirst_some hcomma, by decide⟩
    | none => exact Or.inr ⟨rfl, splitFirst_none hbar, splitFirst_none hcomma⟩

/-- The alternatives in front of a bar and those behind it. -/
theorem alternatives_append {sep : UInt8} (front rest : Bytes)
    (h : (sep == bar || sep == comma) = true) :
    alternatives (front ++ sep :: rest) = alternatives front ++ alternatives rest :=
  List.splitOnP_append_cons front rest h

theorem alternatives_single (hb : bar ∉ p) (hc : comma ∉ p) : alternatives p = [p] := by
  refine List.splitOnP_eq_singleton fun b hmem => ?_
  have hne : b ≠ bar := fun heq => hb (heq ▸ hmem)
  have hne' : b ≠ comma := fun heq => hc (heq ▸ hmem)
  simp [hne, hne']

/-- What is returned is the length of a match of an alternative … -/
theorem matchAlternatives_sound {fuel : Nat} (hf : p.length ≤ fuel)
    (h : 0 < matchAlternatives fuel p s) :
    ∃ a ∈ alternatives p, Matches a s (matchAlternatives fuel p s) := by
  induction fuel generalizing p with
  | zero =>
    obtain rfl := List.length_eq_zero_iff.mp (Nat.le_zero.mp hf)
    exact absurd h (Nat.lt_irrefl 0)
  | succ fuel ih =>
    unfold matchAlternatives at h ⊢
    rcases split_cases p with ⟨front, sep, rest, hsplit, rfl, hsep⟩ | ⟨hsplit, hb, hc⟩
    · rw [hsplit] at h ⊢
      dsimp only at h ⊢
      rw [alternatives_append front rest hsep]
      rw [List.length_append, List.length_cons] at hf
      by_cases hres : 0 < matchAlternatives fuel front s
      · rw [if_pos hres]
        obtain ⟨a, ha, hm⟩ := ih (by omega) hres
        exact ⟨a, List.mem_append_left _ ha, hm⟩
      · rw [if_neg hres] at h ⊢
        obtain ⟨a, ha, hm⟩ := ih (by omega) h
        exact ⟨a, List.mem_append_right _ ha, hm⟩
    · rw [hsplit] at h ⊢
      dsimp only at h ⊢
      obtain ⟨n, heq, hm⟩ := matchGlob_sound (Nat.pos_iff_ne_zero.mp h)
      rw [heq, Nat.zero_add, alternatives_single hb hc]
      exact ⟨p, List.mem_singleton_self p, hm⟩

/-- … and when there is one, not `0` is returned. -/
theorem matchAlternatives_complete {fuel : Nat} {a : Bytes} (hf : p.length ≤ fuel)
    (ha : a ∈ alternatives p) (hn : 0 < n) (hm : Matches a s n) : 0 < matchAlternatives fuel p s := by
  induction fuel generalizing p with
  | zero =>
    obtain rfl := List.length_eq_zero_iff.mp (Nat.le_zero.mp hf)
    obtain rfl := List.mem_singleton.mp ha
    exact Nat.pos_iff_ne_zero.mpr (matchGlob_complete hm (by omega))
  | succ fuel ih =>
    unfold matchAlternatives
    rcases split_cases p with ⟨front, sep, rest, hsplit, rfl, hsep⟩ | ⟨hsplit, hb, hc⟩
    · rw [hsplit]
      dsimp only
      rw [alternatives_append front rest hsep] at ha
      rw [List.length_append, List.length_cons] at hf
      by_cases hres : 0 < matchAlternatives fuel front s
      · rw [if_pos hres]
        exact hres
      · rw [if_neg hres]
        rcases List.mem_append.mp ha with ha | ha
        · exact absurd (ih (by omega) ha) hres
        · exact ih (by omega) ha
    · rw [hsplit]
      dsimp only
      rw [alternatives_single hb hc] at ha
      obtain rfl := List.mem_singleton.mp ha
      exact Nat.pos_iff_ne_zero.mpr (matchGlob_complete hm (by omega))

/-- **Patterns.** The matcher finds a match exactly when an alternative matches something. -/
theorem mgMatchPrefix_pos_iff (pattern s : Bytes) :
    0 < mgMatchPrefix pattern s ↔ ∃ a ∈ alternatives pattern, ∃ n, 0 < n ∧ Matches a s n := by
  refine ⟨fun h => ?_, ?_⟩
  · obtain ⟨a, ha, hm⟩ := matchAlternatives_sound (Nat.le_refl _) h
    exact ⟨a, ha, _, h, hm⟩
  · intro ⟨a, ha, n, hn, hm⟩
    exact matchAlternatives_complete (Nat.le_refl _) ha hn hm

/-- A pattern without alternatives. -/
theorem mgMatchPrefix_single (hb : bar ∉ p) (hc : comma ∉ p) (s : Bytes) :
    mgMatchPrefix p s = matchGlob p s 0 := by
  have hbar : splitFirst bar p = none := if_neg hb
  have hcomma : splitFirst comma p = none := if_neg hc
  unfold mgMatchPrefix
  cases p with
  | nil => rfl
  | cons c p =>
    show matchAlternatives (p.length + 1) (c :: p) s = _
    unfold matchAlternatives
    rw [hbar, hcomma]
    rfl

/-! ## Names and endings -/

/-- A string in lower case. -/
def lower (s : Bytes) : Bytes := s.map tolower

/-- Nothing in it but bytes that match themselves, in lower case. -/
def IsPlain (l : Bytes) : Prop := ∀ c ∈ l, c ≠ question ∧ c ≠ star ∧ c ≠ dollar

theorem lower_append (s t : Bytes) : lower (s ++ t) = lower s ++ lower t := List.map_append

theorem lower_drop (k : Nat) (s : Bytes) : lower (s.drop k) = (lower s).drop k := List.map_drop

theorem lower_length (s : Bytes) : (lower s).length = s.length := List.length_map _

/-- Plain bytes match the same bytes in either case. -/
theorem matches_plain_append {l r : Bytes} (hl : IsPlain l) :
    Matches (l ++ r) s n ↔
      lower l <+: lower s ∧ ∃ m, n = m + l.length ∧ Matches r (s.drop l.length) m := by
  induction l generalizing s n with
  | nil =>
    refine ⟨fun h => ⟨List.nil_prefix, n, rfl, h⟩, ?_⟩
    intro ⟨_, m, hn, hm⟩
    rw [hn]
    exact hm
  | cons c l ih =>
    obtain ⟨hq, hs, hd⟩ := hl c List.mem_cons_self
    have hl' : IsPlain l := fun c' hc' => hl c' (List.mem_cons_of_mem c hc')
    refine ⟨fun h => ?_, ?_⟩
    · cases h with
      | atEnd => exact absurd rfl hd
      | any => exact absurd rfl hq
      | byte _ _ hcb h =>
        obtain ⟨hfront, m, hn, hm⟩ := (ih hl').mp h
        refine ⟨List.cons_prefix_cons.mpr ⟨hcb, hfront⟩, m, ?_, hm⟩
        rw [List.length_cons]
        omega
      | starEnd => exact absurd rfl hs
      | star => exact absurd rfl hs
    · intro ⟨hfront, m, hn, hm⟩
      cases s with
      | nil => exact absurd (List.prefix_nil.mp hfront) (List.cons_ne_nil _ _)
      | cons b s =>
        obtain ⟨hcb, hfront⟩ := List.cons_prefix_cons.mp hfront
        rw [hn, List.length_cons]
        exact .byte hq hs hcb ((ih hl').mpr ⟨hfront, m, rfl, hm⟩)

/-- A plain pattern finds the names that begin with it. -/
theorem matchGlob_plain {l : Bytes} (hl : IsPlain l) (hne : l ≠ []) :
    matchGlob l s 0 = l.length ↔ lower l <+: lower s := by
  have hpos : 0 < l.length := List.length_pos_iff.mpr hne
  have happ : l = l ++ [] := (List.append_nil l).symm
  refine ⟨fun h => ?_, fun h => ?_⟩
  · obtain ⟨n, -, hm⟩ := matchGlob_sound (p := l) (s := s) (j := 0) (by omega)
    rw [happ] at hm
    exact ((matches_plain_append hl).mp hm).1
  · have hm : Matches l s l.length := by
      rw [happ]
      exact (matches_plain_append hl).mpr ⟨h, 0, by rw [Nat.zero_add, List.append_nil], .nil _⟩
    obtain ⟨n, heq, hm'⟩ := matchGlob_sound (matchGlob_complete (j := 0) hm (by omega))
    rw [happ] at hm'
    obtain ⟨-, m, hn, hnil⟩ := (matches_plain_append hl).mp hm'
    cases hnil
    rw [heq, hn, Nat.zero_add, Nat.zero_add]

/-- `$` is the end of the string, or a `$` in it. -/
theorem matches_dollar : Matches [dollar] s n ↔
    s = [] ∧ n = 0 ∨ n = 1 ∧ lower [dollar] <+: lower s := by
  refine ⟨fun h => ?_, ?_⟩
  · cases h with
    | atEnd => exact Or.inl ⟨rfl, rfl⟩
    | byte _ _ hcb h =>
      cases h
      exact Or.inr ⟨rfl, List.cons_prefix_cons.mpr ⟨hcb, List.nil_prefix⟩⟩
  · intro h
    rcases h with ⟨rfl, rfl⟩ | ⟨rfl, hfront⟩
    · exact .atEnd []
    · cases s with
      | nil => exact absurd (List.prefix_nil.mp hfront) (List.cons_ne_nil _ _)
      | cons b s =>
        have hcb := (List.cons_prefix_cons.mp hfront).1
        exact .byte (by decide) (by decide) hcb (.nil s)

/-- Two stars match the rest of the pattern anywhere. -/
theorem matches_stars {r : Bytes} (hr : ¬(r = [] ∨ r = [dollar])) :
    (∃ n, 0 < n ∧ Matches (star :: star :: r) s n) ↔
      s ≠ [] ∧ ∃ k m, k ≤ s.length ∧ 0 < m ∧ Matches r (s.drop k) m := by
  refine ⟨?_, ?_⟩
  · intro ⟨n, hn, h⟩
    cases h with
    | byte _ hs => exact absurd rfl hs
    | starEnd hp => exact absurd hp hr
    | star _ hlen hm h => exact ⟨List.cons_ne_nil _ _, _, _, hlen, hm, h⟩
  · intro ⟨hne, k, m, hk, hm, h⟩
    obtain ⟨b, s, rfl⟩ := List.exists_cons_of_ne_nil hne
    exact ⟨m + k, by omega, .star hr hk hm h⟩

/-- `**` in front of an ending and `$` behind it: the names with that ending, and, since a `$`
is also taken for itself, the names with the ending and a `$` anywhere in them. -/
theorem matches_ending {l : Bytes} (hl : IsPlain l) (hne : l ≠ []) :
    (∃ n, 0 < n ∧ Matches (star :: star :: (l ++ [dollar])) s n) ↔
      lower l <:+ lower s ∨ lower (l ++ [dollar]) <:+: lower s := by
  have hpos : 0 < l.length := List.length_pos_iff.mpr hne
  have hr : ¬(l ++ [dollar] = [] ∨ l ++ [dollar] = [dollar]) := by
    intro h
    have hlen : (l ++ [dollar]).length ≤ 1 := by
      rcases h with h | h
      all_goals
        rw [h]
        decide
    rw [List.length_append, List.length_singleton] at hlen
    omega
  rw [matches_stars hr]
  refine ⟨?_, fun h => ?_⟩
  · intro ⟨_, k, m, hk, hm, h⟩
    obtain ⟨hfront, m', rfl, hd⟩ := (matches_plain_append hl).mp h
    have hsplit : lower s = lower (s.take k) ++ lower (s.drop k) := by
      rw [← lower_append, List.take_append_drop]
    obtain ⟨t, ht⟩ := hfront
    have hrest : lower ((s.drop k).drop l.length) = t := by
      rw [lower_drop, ← ht, ← lower_length l, List.drop_left]
    -- behind the ending there is nothing, or a `$`
    rcases matches_dollar.mp hd with ⟨hnil, -⟩ | ⟨-, hdollar⟩
    · refine Or.inl ⟨lower (s.take k), ?_⟩
      rw [hnil] at hrest
      rw [hsplit, ← ht, ← hrest]
      exact congrArg (lower (s.take k) ++ ·) (List.append_nil _).symm
    · rw [hrest] at hdollar
      obtain ⟨v, rfl⟩ := hdollar
      refine Or.inr ⟨lower (s.take k), v, ?_⟩
      rw [hsplit, ← ht, lower_append, List.append_assoc, List.append_assoc]
  · -- where the ending stands in the string
    have hfound : ∀ u v : Bytes, u ++ lower l ++ v = lower s →
        (v = [] ∨ lower [dollar] <+: v) →
        s ≠ [] ∧ ∃ k m, k ≤ s.length ∧ 0 < m ∧ Matches (l ++ [dollar]) (s.drop k) m := by
      intro u v heq hv
      have hlen := congrArg List.length heq
      rw [List.length_append, List.length_append, lower_length, lower_length] at hlen
      have hdrop : lower (s.drop u.length) = lower l ++ v := by
        rw [lower_drop, ← heq, List.append_assoc, List.drop_left]
      have hrest : lower ((s.drop u.length).drop l.length) = v := by
        rw [lower_drop, hdrop, ← lower_length l, List.drop_left]
      have hend : ∃ m, Matches [dollar] ((s.drop u.length).drop l.length) m := by
        rcases hv with hv | hv
        · rw [hv] at hrest
          exact ⟨0, matches_dollar.mpr (Or.inl ⟨List.map_eq_nil_iff.mp hrest, rfl⟩)⟩
        · rw [← hrest] at hv
          exact ⟨1, matches_dollar.mpr (Or.inr ⟨rfl, hv⟩)⟩
      obtain ⟨m, hm⟩ := hend
      refine ⟨List.length_pos_iff.mp (by omega), u.length, m + l.length, by omega, by omega, ?_⟩
      refine (matches_plain_append hl).mpr ⟨?_, m, rfl, hm⟩
      rw [hdrop]
      exact List.prefix_append _ _
    rcases h with ⟨u, hu⟩ | ⟨u, v, huv⟩
    · exact hfound u [] (by rw [List.append_nil, hu]) (Or.inl rfl)
    · rw [lower_append, ← List.append_assoc, List.append_assoc] at huv
      exact hfound u _ huv (Or.inr (List.prefix_append _ _))

/-- **Endings.** What a pattern like `"**.cgi$|**.php$"` finds. -/
theorem mgMatchPrefix_endings {pattern : Bytes} {endings : List Bytes}
    (hp : alternatives pattern = endings.map fun l => star :: star :: (l ++ [dollar]))
    (hl : ∀ l ∈ endings, IsPlain l ∧ l ≠ []) (s : Bytes) :
    0 < mgMatchPrefix pattern s ↔
      ∃ l ∈ endings, lower l <:+ lower s ∨ lower (l ++ [dollar]) <:+: lower s := by
  rw [mgMatchPrefix_pos_iff, hp]
  refine ⟨?_, ?_⟩
  · intro ⟨a, ha, hm⟩
    obtain ⟨l, hmem, rfl⟩ := List.mem_map.mp ha
    exact ⟨l, hmem, (matches_ending (hl l hmem).1 (hl l hmem).2).mp hm⟩
  · intro ⟨l, hmem, h⟩
    exact ⟨_, List.mem_map.mpr ⟨l, hmem, rfl⟩, (matches_ending (hl l hmem).1 (hl l hmem).2).mpr h⟩

end

end SimplestWeb.Mongoose
