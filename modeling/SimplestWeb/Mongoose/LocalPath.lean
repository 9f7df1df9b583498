import SimplestWeb.Lib.Buffer
import SimplestWeb.Mongoose.UriPath
import SimplestWeb.Mongoose.UrlCoding

/-!
# From the path of a request to a file

`mg_uri_to_local_path` (`mongoose.c`, line 8025) walks down the components of a
normalized path, decodes each one into the buffer of the local path, and stops
at the first regular file; what is left of the path is the path info.

Main theorems:

* **`mgUriToLocalPath_eq`** — the loop over the buffer never touches a byte
  outside of it, and computes `follow`, which works on lists of components.
* **`mgUriToLocalPath_below`** — what is found is the document root followed by
  components that are names: not empty, not `.` or `..`, with no slash and no NUL
  in them, however they were encoded.

Mirroring notes:
- `lp` is the block that `MG_MALLOC` returned, whatever it holds (`block`), and
  `p` and `ps` are positions in it; `u` is a position in the path.
- There are no rewrites (`opts->url_rewrites` is `NULL`), so the root is
  `opts->document_root`.
- The loop goes on after a component with a slash or a NUL in it; `ok` remembers it.
- `stat` is what `mg_stat` says; the files do not change during the walk.
-/

namespace SimplestWeb.Mongoose

open SimplestWeb.Lib
open SimplestWeb.Lib.Buffer (Overrun write readStr Written)

def nul : UInt8 := 0

/-- `st.st_mode`. -/
inductive FileKind
  | regular
  | directory
  | other
  deriving DecidableEq, Repr

/-- The variables of the loop. -/
structure PathLoop where
  lp : Bytes
  p : Nat
  exist : Bool := true
  ok : Bool := true
  deriving DecidableEq, Repr

/-- `while (p > ps && *p != DIRSEP) p--`. -/
def backToDirsep (lp : Bytes) (ps : Nat) : Nat → Nat
  | 0 => 0
  | p + 1 => if ps < p + 1 ∧ lp[p + 1]? ≠ some slash then backToDirsep lp ps p else p + 1

/-- `mg_stat` on what has been built so far, and whether it is a regular file. -/
def PathLoop.terminal (stat : Bytes → Option FileKind) (s : PathLoop) :
    Except Overrun (PathLoop × Bool) :=
  if s.exist then do
    let path ← readStr nul s.lp
    match stat path with
    | none => return ({ s with exist := false }, false)
    | some kind => return (s, kind == .regular)
  else return (s, false)

/-- The part of a decoded component in front of the first slash or NUL. -/
def goodPart (d : Bytes) : Bytes := d.takeWhile fun b => b ≠ nul ∧ b ≠ slash

/-- The body of `if (component.len > 0)`; `none` when the component cannot be decoded. -/
def PathLoop.component (ps : Nat) (s : PathLoop) (component : Bytes) :
    Except Overrun (Option PathLoop) := do
  let lp ← write s.lp (s.p + 1) component
  let dstLen := lp.length - (s.p + 1)
  if dstLen = 0 then .error .overrun
  else
    match mgUrlDecode false (dstLen - 1) component with
    | none | some [] => return none
    | some component => do
      let lp ← write lp (s.p + 1) (component ++ [nul])
      if component = dot then return some { s with lp := lp }
      else if component = dotdot then
        let p := backToDirsep lp ps s.p
        let lp ← write lp p [nul]
        return some { s with lp := lp, p := p }
      else
        let lp ← write lp s.p [slash]
        let good := (goodPart component).length
        return some { s with
          lp := lp, p := s.p + 1 + good, ok := s.ok && good == component.length }

/-- The loop, and the position in the path where it ends. Every round moves `u` on, so
that `uri.length` rounds are enough. -/
def pathLoop (stat : Bytes → Option FileKind) (uri : Bytes) (ps : Nat) :
    Nat → PathLoop → Nat → Except Overrun (Option (PathLoop × Nat))
  | 0, s, u => .ok (some (s, u))
  | fuel + 1, s, u => do
    let (s, regular) ← s.terminal stat
    if regular then return some (s, if uri[u - 1]? = some slash then u - 1 else u)
    else if uri.length ≤ u then return some (s, u)
    else
      let (component, next) := parseUriComponent uri u
      if component = [] then pathLoop stat uri ps fuel s next
      else
        match ← s.component ps component with
        | none => return none
        | some s => pathLoop stat uri ps fuel s next

/-- `mg_uri_to_local_path`: the local path and the path info. -/
def mgUriToLocalPath (stat : Bytes → Option FileKind) (root uri : Bytes) (block : Option Bytes) :
    Except Overrun (Option (Bytes × Bytes)) :=
  match block with
  | none => .ok none
  | some lp => do
    let lp ← write lp 0 root
    let ps := if root.getLast? = some slash then root.length - 1 else root.length
    let lp ← write lp ps [nul]
    match ← pathLoop stat uri ps uri.length { lp := lp, p := ps } 1 with
    | none => return none
    | some (s, u) =>
      if s.ok then do
        let path ← readStr nul s.lp
        return some (path, uri.drop u)
      else return none

/-- A component, decoded. -/
def decoded (c : Bytes) : Option Bytes := mgUrlDecode false c.length c

/-! ## One component -/

section

variable {ps u next : Nat} {uri lp c d : Bytes} {s s' : PathLoop}

/-- A component ends inside the URI, and the next one starts behind its slash. -/
theorem parseUriComponent_bounds (h : parseUriComponent uri u = (c, next)) (hu : u ≤ uri.length) :
    c.length ≤ uri.length - u ∧ u ≤ next ∧ next ≤ uri.length ∧
      (next < uri.length → next = u + c.length + 1) := by
  unfold parseUriComponent at h
  dsimp only at h
  obtain ⟨rfl, rfl⟩ := Prod.mk.inj h
  have hlen := (List.takeWhile_prefix (fun b => decide (b ≠ slash)) (l := uri.drop u)).length_le
  rw [List.length_drop] at hlen
  split
  all_goals omega

/-- Going back to a slash goes back … -/
theorem backToDirsep_le (lp : Bytes) (ps p : Nat) : backToDirsep lp ps p ≤ p := by
  induction p with
  | zero => exact Nat.le_refl 0
  | succ p ih =>
    unfold backToDirsep
    split
    · omega
    · omega

/-- … but not in front of the root. -/
theorem le_backToDirsep {p : Nat} (h : ps ≤ p) : ps ≤ backToDirsep lp ps p := by
  induction p with
  | zero => exact h
  | succ p ih =>
    unfold backToDirsep
    split
    next hgo => exact ih (by omega)
    next => exact h

/-- The loop stops at the last slash. -/
theorem backToDirsep_eq {p q : Nat} (hps : ps ≤ q) (hqp : q ≤ p)
    (hq : q = ps ∨ lp[q]? = some slash) (h : ∀ j, q < j → j ≤ p → lp[j]? ≠ some slash) :
    backToDirsep lp ps p = q := by
  induction p with
  | zero => exact (Nat.le_zero.mp hqp).symm
  | succ p ih =>
    unfold backToDirsep
    by_cases hend : q = p + 1
    · subst hend
      rw [if_neg]
      rintro ⟨hlt, hne⟩
      rcases hq with rfl | hq
      · exact Nat.lt_irrefl _ hlt
      · exact hne hq
    · rw [if_pos ⟨by omega, h (p + 1) (by omega) (Nat.le_refl _)⟩]
      exact ih (by omega) fun j hj hjp => h j hj (by omega)

/-- The part of a component that is copied is no longer than it. -/
theorem goodPart_length_le (d : Bytes) : (goodPart d).length ≤ d.length :=
  (List.takeWhile_prefix _).length_le

/-- What a decoded component does to the local path. -/
inductive Walked (ps : Nat) (s : PathLoop) (d : Bytes) : PathLoop → Prop
  | here {lp : Bytes} (h : d = dot) (hlen : lp.length = s.lp.length) (hnul : nul ∈ lp)
      (hlp : lp.take (s.p + 1) = s.lp.take (s.p + 1)) : Walked ps s d { s with lp := lp }
  | up {lp lp' : Bytes} (h : d = dotdot) (hlen : lp'.length = s.lp.length)
      (hlp : lp.take (s.p + 1) = s.lp.take (s.p + 1))
      (hlp' : lp'.take (backToDirsep lp ps s.p + 1) =
        s.lp.take (backToDirsep lp ps s.p) ++ [nul]) :
      Walked ps s d { s with lp := lp', p := backToDirsep lp ps s.p }
  | down {lp : Bytes} (h : d ≠ dot) (h' : d ≠ dotdot) (hlen : lp.length = s.lp.length)
      (hlp : lp.take (s.p + 1 + (d.length + 1)) = s.lp.take s.p ++ slash :: (d ++ [nul])) :
      Walked ps s d { s with
        lp := lp, p := s.p + 1 + (goodPart d).length
        ok := s.ok && (goodPart d).length == d.length }

/-- A component for which there is room is decoded and walked, or the loop breaks. -/
theorem component_spec (ps : Nat) (hroom : s.p + c.length + 2 ≤ s.lp.length) :
    ∃ r, s.component ps c = .ok r ∧ (decoded c = none → r = none) ∧
      ∀ d, decoded c = some d →
        d = [] ∧ r = none ∨ d ≠ [] ∧ ∃ s', r = some s' ∧ Walked ps s d s' := by
  have hfit : s.p + 1 + c.length ≤ s.lp.length := by omega
  obtain ⟨lp₁, hmove, hlp₁⟩ := Buffer.write_ok hfit
  have hlen₁ := hlp₁.length
  have hdec : mgUrlDecode false (lp₁.length - (s.p + 1) - 1) c = decoded c :=
    mgUrlDecode_room (by omega) (Nat.le_refl _)
  unfold PathLoop.component
  rw [hmove]
  show ∃ r, (if lp₁.length - (s.p + 1) = 0 then _ else _) = Except.ok r ∧ _
  rw [if_neg (by omega), hdec]
  cases hd : decoded c with
  | none => exact ⟨none, rfl, fun _ => rfl, fun d h => absurd h (by simp)⟩
  | some d =>
    have hdlen : d.length ≤ c.length := mgUrlDecode_length hd
    cases d with
    | nil =>
      refine ⟨none, rfl, fun _ => rfl, ?_⟩
      intro d h
      exact Or.inl ⟨(Option.some.inj h).symm, rfl⟩
    | cons b d =>
      have hfit₂ : s.p + 1 + ((b :: d) ++ [nul]).length ≤ lp₁.length := by
        rw [List.length_append, List.length_singleton]
        omega
      obtain ⟨lp₂, hput, hlp₂⟩ := Buffer.write_ok hfit₂
      have hlen₂ := hlp₂.length
      -- what stood in front is still there
      have hfront : ∀ k ≤ s.p + 1, lp₂.take k = s.lp.take k := fun k hk => by
        rw [hlp₂.before (by omega) hk, hlp₁.before (by omega) hk]
      have hstep : ∀ d', some (b :: d) = some d' → d' = b :: d := fun d' h =>
        (Option.some.inj h).symm
      have hcons : ∀ d', some (b :: d) = some d' → d' ≠ [] := fun d' h => by
        rw [hstep d' h]
        exact List.cons_ne_nil b d
      dsimp only
      rw [hput]
      show ∃ r, (if b :: d = dot then _ else _) = Except.ok r ∧ _
      by_cases hdot : b :: d = dot
      · rw [if_pos hdot]
        refine ⟨_, rfl, fun h => absurd h (by simp), fun d' h => Or.inr ⟨hcons d' h, _, rfl, ?_⟩⟩
        rw [hstep d' h]
        have hnul : nul ∈ (b :: d) ++ [nul] := List.mem_append_right _ (List.mem_singleton_self _)
        exact .here hdot (by omega) (hlp₂.mem hnul) (hfront _ (Nat.le_refl _))
      · rw [if_neg hdot]
        by_cases hdd : b :: d = dotdot
        · have hback := backToDirsep_le lp₂ ps s.p
          have hfit₃ : backToDirsep lp₂ ps s.p + [nul].length ≤ lp₂.length := by
            rw [List.length_singleton]
            omega
          obtain ⟨lp₃, hend, hlp₃⟩ := Buffer.write_ok hfit₃
          rw [if_pos hdd]
          show ∃ r, (write lp₂ (backToDirsep lp₂ ps s.p) [nul] >>= _) = Except.ok r ∧ _
          rw [hend]
          refine ⟨_, rfl, fun h => absurd h (by simp), fun d' h => Or.inr ⟨hcons d' h, _, rfl, ?_⟩⟩
          rw [hstep d' h]
          have hlen₃ := hlp₃.length
          refine .up hdd (by omega) (hfront _ (Nat.le_refl _)) ?_
          have htake := hlp₃.take
          rw [hfront _ (by omega)] at htake
          exact htake
        · rw [if_neg hdd]
          have hfit₃ : s.p + [slash].length ≤ lp₂.length := by
            rw [List.length_singleton]
            omega
          obtain ⟨lp₃, hsep, hlp₃⟩ := Buffer.write_ok hfit₃
          show ∃ r, (write lp₂ s.p [slash] >>= _) = Except.ok r ∧ _
          rw [hsep]
          refine ⟨_, rfl, fun h => absurd h (by simp), fun d' h => Or.inr ⟨hcons d' h, _, rfl, ?_⟩⟩
          rw [hstep d' h]
          have hlen₃ := hlp₃.length
          refine .down hdot hdd (by omega) ?_
          -- the slash, and behind it the component that is already there
          have hwin := hlp₂.window (by omega)
          have htake := hlp₃.take_add ((b :: d) ++ [nul]).length
          rw [List.length_singleton] at htake
          rw [hwin, hfront s.p (Nat.le_succ _), List.append_assoc, List.length_append,
            List.length_singleton] at htake
          exact htake

/-! ## Staying inside the block -/

/-- `p` stands in the block, a string ends in it, and what is left of the path fits
behind `p`. -/
structure Inside (ps n u : Nat) (s : PathLoop) : Prop where
  low : ps ≤ s.p
  high : s.p + 1 ≤ s.lp.length
  str : nul ∈ s.lp
  room : u < n → s.p + (n - u) + 2 ≤ s.lp.length

/-- Whether the path exists does not matter for the bounds. -/
theorem Inside.exist {n : Nat} (h : Inside ps n u s) (e : Bool) :
    Inside ps n u { s with exist := e } :=
  ⟨h.low, h.high, h.str, h.room⟩

theorem Inside.advance {n : Nat} (h : Inside ps n u s) (hle : u ≤ next) : Inside ps n next s := by
  refine ⟨h.low, h.high, h.str, fun hlt => ?_⟩
  have hroom := h.room (by omega)
  omega

/-- A component takes no more room than it takes in the URI. -/
theorem Inside.walked {n : Nat} (h : Inside ps n u s) (hw : Walked ps s d s') (hu : u < n)
    (hc : c.length ≤ n - u) (hd : d.length ≤ c.length)
    (hnext : next < n → next = u + c.length + 1) : Inside ps n next s' := by
  have hroom := h.room hu
  cases hw with
  | here heq hlen hnul hlp =>
    refine ⟨h.low, hlen ▸ h.high, hnul, fun hlt => ?_⟩
    dsimp only
    omega
  | @up lp lp' heq hlen hlp hlp' =>
    have hback := backToDirsep_le lp ps s.p
    have hhigh := h.high
    refine ⟨le_backToDirsep h.low, ?_, ?_, fun hlt => ?_⟩
    · dsimp only
      omega
    · have hmem : nul ∈ lp'.take (backToDirsep lp ps s.p + 1) := by
        rw [hlp']
        exact List.mem_append_right _ (List.mem_singleton_self _)
      exact List.mem_of_mem_take hmem
    · dsimp only
      omega
  | @down lp heq heq' hlen hlp =>
    have hgood := goodPart_length_le d
    have hlow := h.low
    refine ⟨?_, ?_, ?_, fun hlt => ?_⟩
    · dsimp only
      omega
    · dsimp only
      omega
    · have hmem : nul ∈ lp.take (s.p + 1 + (d.length + 1)) := by
        rw [hlp]
        simp
      exact List.mem_of_mem_take hmem
    · dsimp only
      have := hnext hlt
      omega

/-- A component that was not `ok` is not forgotten. -/
theorem Walked.ok (hw : Walked ps s d s') (hok : s.ok = false) : s'.ok = false := by
  cases hw with
  | here => exact hok
  | up => exact hok
  | down =>
    dsimp only
    rw [hok, Bool.false_and]

/-- A path with a NUL in it can be looked up. -/
theorem terminal_ok (stat : Bytes → Option FileKind) (h : nul ∈ s.lp) :
    ∃ e regular, s.terminal stat = .ok ({ s with exist := e }, regular) := by
  unfold PathLoop.terminal
  by_cases hex : s.exist
  · obtain ⟨path, hpath⟩ := Buffer.readStr_ok h
    rw [if_pos hex, hpath, Buffer.ok_bind]
    cases stat path with
    | none => exact ⟨false, false, rfl⟩
    | some kind => exact ⟨s.exist, kind == .regular, rfl⟩
  · rw [if_neg hex]
    exact ⟨s.exist, false, rfl⟩

/-- After a component that was not `ok` the loop goes on, without leaving the block, and
the path is refused in the end. -/
theorem pathLoop_lost (stat : Bytes → Option FileKind) {fuel : Nat} (h : Inside ps uri.length u s)
    (hu : u ≤ uri.length) (hok : s.ok = false) :
    ∃ r, pathLoop stat uri ps fuel s u = .ok r ∧ ∀ s' u', r = some (s', u') → s'.ok = false := by
  induction fuel generalizing s u with
  | zero =>
    refine ⟨some (s, u), rfl, fun s' u' heq => ?_⟩
    rw [← (Prod.mk.inj (Option.some.inj heq)).1]
    exact hok
  | succ fuel ih =>
    obtain ⟨e, regular, hterm⟩ := terminal_ok stat h.str
    -- wherever the loop ends, `ok` is what it was
    have hstop : ∀ v : Nat, ∃ r, Except.ok (some (({ s with exist := e } : PathLoop), v)) =
        (.ok r : Except Overrun _) ∧ ∀ s' u', r = some (s', u') → s'.ok = false := fun v => by
      refine ⟨_, rfl, fun s' u' heq => ?_⟩
      rw [← (Prod.mk.inj (Option.some.inj heq)).1]
      exact hok
    unfold pathLoop
    rw [hterm]
    show ∃ r, (if regular = true then _ else _) = Except.ok r ∧ _
    by_cases hreg : regular = true
    · rw [if_pos hreg]
      exact hstop _
    · rw [if_neg hreg]
      by_cases hend : uri.length ≤ u
      · rw [if_pos hend]
        exact hstop _
      · rw [if_neg hend]
        rcases hparse : parseUriComponent uri u with ⟨c, next⟩
        obtain ⟨hc, hle, hnext, hlt⟩ := parseUriComponent_bounds hparse hu
        have hat : Inside ps uri.length u { s with exist := e } := h.exist e
        dsimp only
        by_cases hempty : c = []
        · rw [if_pos hempty]
          exact ih (hat.advance hle) hnext hok
        · rw [if_neg hempty]
          have hroom := h.room (by omega)
          have hfit : s.p + c.length + 2 ≤ s.lp.length := by omega
          obtain ⟨r, hcomp, hnone, hsome⟩ := component_spec ps
            (show ({ s with exist := e } : PathLoop).p + c.length + 2 ≤ _ from hfit)
          rw [hcomp, Buffer.ok_bind]
          cases hd : decoded c with
          | none =>
            rw [hnone hd]
            exact ⟨none, rfl, fun s' u' heq => absurd heq (by simp)⟩
          | some d =>
            rcases hsome d hd with ⟨-, rfl⟩ | ⟨-, s', rfl, hw⟩
            · exact ⟨none, rfl, fun s' u' heq => absurd heq (by simp)⟩
            · exact ih (hat.walked hw (by omega) hc (mgUrlDecode_length hd) hlt) hnext (hw.ok hok)

end

/-! ## What the loop computes -/

/-- A name of a file or a directory. -/
structure IsName (c : Bytes) : Prop where
  nonempty : c ≠ []
  noSlash : slash ∉ c
  noNul : nul ∉ c
  notDot : c ≠ dot
  notDotdot : c ≠ dotdot

/-- The path of `st` below the directory `base`. -/
def below (base : Bytes) (st : List Bytes) : Bytes := base ++ Segments.join slash st

/-- How a component is taken: an empty one is passed over, any other one is decoded and has to
be a name, `.` or `..`. -/
def pass (st : List Bytes) (c : Bytes) : Option (List Bytes) :=
  if c = [] then some st
  else
    match decoded c with
    | some d => if d ≠ [] ∧ goodPart d = d then some (Segments.push dot dotdot st d) else none
    | none => none

/-- The walk over a list of components: the stack of names where it ends, and the components
behind a regular file. -/
def follow (stat : Bytes → Option FileKind) (base : Bytes) :
    List Bytes → List Bytes → Bool → Option (List Bytes × List Bytes)
  | [], st, _ => some (st, [])
  | c :: cs, st, exist =>
    let kind := if exist then stat (below base st) else none
    if kind = some .regular then some (st, c :: cs)
    else (pass st c).bind fun st => follow stat base cs st kind.isSome

/-- The loop has `st` in the block. -/
structure Held (base : Bytes) (st : List Bytes) (s : PathLoop) : Prop where
  ok : s.ok = true
  names : ∀ c ∈ st, IsName c
  pos : s.p = (below base st).length
  str : s.lp.take (s.p + 1) = below base st ++ [nul]

/-- The components `cs` are left at position `u` of the path. -/
inductive At (uri : Bytes) : Nat → List Bytes → Prop
  | comp {k : Nat} {c : Bytes} {cs : List Bytes} (h : uri.drop k = Segments.join slash (c :: cs)) :
      At uri (k + 1) (c :: cs)
  | fin (h : uri[uri.length - 1]? ≠ some slash) : At uri uri.length []

/-- Where the loop ends agrees with where the walk ends. -/
def Ends (base uri : Bytes) : Option (List Bytes × List Bytes) → Option (PathLoop × Nat) → Prop
  | none, r => ∀ s u, r = some (s, u) → s.ok = false
  | some (st, rest), r =>
    ∃ s u, r = some (s, u) ∧ Held base st s ∧ uri.drop u = Segments.join slash rest

section

variable {stat : Bytes → Option FileKind} {base uri c d : Bytes} {st cs : List Bytes}
  {s s' : PathLoop} {u next : Nat}

/-- A component that is copied as a whole has neither slash nor NUL. -/
theorem goodPart_eq (h : goodPart d = d) : slash ∉ d ∧ nul ∉ d := by
  have hall : ∀ b ∈ d, b ≠ nul ∧ b ≠ slash := by
    intro b hb
    rw [← h] at hb
    simpa using List.mem_takeWhile_imp hb
  exact ⟨fun hmem => (hall _ hmem).2 rfl, fun hmem => (hall _ hmem).1 rfl⟩

theorem goodPart_length (h : (goodPart d).length = d.length) : goodPart d = d :=
  (List.takeWhile_prefix _).eq_of_length h

/-- One name further. -/
theorem below_concat (base : Bytes) (st : List Bytes) (c : Bytes) :
    below base (st ++ [c]) = below base st ++ slash :: c := by
  unfold below
  rw [Segments.join_append, Segments.join_cons, Segments.join_nil, List.append_nil,
    List.append_assoc]

/-- A path below the root has no NUL in it. -/
theorem nul_notMem_below (hb : nul ∉ base) (hst : ∀ c ∈ st, IsName c) : nul ∉ below base st := by
  induction st using List.reverseRecOn with
  | nil =>
    show nul ∉ base ++ []
    rw [List.append_nil]
    exact hb
  | append_singleton st c ih =>
    have hc := hst c (by simp)
    have hst' := ih fun c' hc' => hst c' (List.mem_append_left _ hc')
    rw [below_concat, List.mem_append, not_or, List.mem_cons, not_or]
    exact ⟨hst', by decide, hc.noNul⟩

/-- One name back. -/
theorem below_dropLast (base : Bytes) (st : List Bytes) :
    below base st.dropLast <+: below base st := by
  cases st using List.reverseRecOn with
  | nil => exact List.prefix_rfl
  | append_singleton st c =>
    rw [List.dropLast_concat, below_concat]
    exact List.prefix_append _ _

/-- The buffer starts with the path … -/
theorem Held.front (h : Held base st s) : s.lp.take s.p = below base st := by
  have hstr := congrArg (List.take s.p) h.str
  rw [List.take_take, Nat.min_eq_left (Nat.le_succ _)] at hstr
  rw [hstr, h.pos, List.take_left]

/-- … and is read as it. -/
theorem Held.readStr (h : Held base st s) (hb : nul ∉ base) :
    readStr nul s.lp = .ok (below base st) := by
  refine Buffer.readStr_eq (nul_notMem_below hb h.names) ?_
  rw [← h.pos]
  exact h.str

/-- The system is asked about this path. -/
theorem Held.terminal (h : Held base st s) (hb : nul ∉ base) :
    s.terminal stat = .ok
      ({ s with exist := (if s.exist then stat (below base st) else none).isSome },
        decide ((if s.exist then stat (below base st) else none) = some .regular)) := by
  have hread := h.readStr hb
  obtain ⟨lp, p, exist, ok⟩ := s
  unfold PathLoop.terminal
  cases exist with
  | false => rfl
  | true =>
    dsimp only at hread ⊢
    rw [if_pos rfl, hread, Buffer.ok_bind, if_pos rfl]
    cases stat (below base st) with
    | none => rfl
    | some kind =>
      cases kind
      all_goals rfl

theorem Held.exist (h : Held base st s) (e : Bool) : Held base st { s with exist := e } :=
  ⟨h.ok, h.names, h.pos, h.str⟩

/-- Back to the slash in front of the last name. -/
theorem Held.backToDirsep {lp : Bytes} (h : Held base st s)
    (hlp : lp.take (s.p + 1) = s.lp.take (s.p + 1)) :
    backToDirsep lp base.length s.p = (below base st.dropLast).length := by
  have hlow : ∀ st : List Bytes, base.length ≤ (below base st).length := fun st => by
    unfold below
    rw [List.length_append]
    omega
  have hpos := h.pos
  have hstr := h.str
  rw [← hlp] at hstr
  cases st using List.reverseRecOn with
  | nil =>
    refine backToDirsep_eq (hlow _) (Nat.le_of_eq hpos.symm) (Or.inl ?_) ?_
    · show (base ++ []).length = base.length
      rw [List.append_nil]
    · intro j hj hjp
      rw [hpos] at hjp
      exact absurd hj (Nat.not_lt.mpr hjp)
  | append_singleton st c =>
    have hc := h.names c (by simp)
    rw [below_concat] at hpos hstr
    rw [List.length_append, List.length_cons] at hpos
    rw [List.append_assoc, List.cons_append] at hstr
    -- the bytes behind the last name's slash
    have hget : ∀ j, j ≤ s.p → lp[j]? = (below base st ++ slash :: (c ++ [nul]))[j]? := fun j hj => by
      rw [← hstr, List.getElem?_take_of_lt (by omega)]
    rw [List.dropLast_concat]
    refine backToDirsep_eq (hlow st) (by omega) (Or.inr ?_) ?_
    · rw [hget _ (by omega), List.getElem?_append_right (Nat.le_refl _), Nat.sub_self]
      rfl
    · intro j hj hjp hslash
      obtain ⟨i, rfl⟩ : ∃ i, j = (below base st).length + (i + 1) :=
        ⟨j - (below base st).length - 1, by omega⟩
      rw [hget _ hjp, List.getElem?_append_right (by omega), Nat.add_sub_cancel_left,
        List.getElem?_cons_succ] at hslash
      have hmem := List.mem_of_getElem? hslash
      rw [List.mem_append, List.mem_singleton] at hmem
      rcases hmem with hmem | hmem
      · exact hc.noSlash hmem
      · exact absurd hmem (by decide)

/-- A decoded component is pushed. -/
theorem Held.walked (h : Held base st s) (hw : Walked base.length s d s') (hne : d ≠ [])
    (hgood : goodPart d = d) : Held base (Segments.push dot dotdot st d) s' := by
  unfold Segments.push
  cases hw with
  | here heq hlen hnul hlp =>
    rw [if_pos heq]
    exact ⟨h.ok, h.names, h.pos, hlp.trans h.str⟩
  | @up lp lp' heq hlen hlp hlp' =>
    have hback := h.backToDirsep hlp
    rw [if_neg (by rw [heq]; decide), if_pos heq]
    refine ⟨h.ok, fun c hc => h.names c (List.dropLast_subset st hc), hback, ?_⟩
    have hfront : below base st.dropLast <+: s.lp :=
      (below_dropLast base st).trans (List.prefix_iff_eq_take.mpr (h.pos ▸ h.front.symm))
    show lp'.take (Mongoose.backToDirsep lp base.length s.p + 1) = _
    rw [hlp', hback, ← List.prefix_iff_eq_take.mp hfront]
  | @down lp hdot hdd hlen hlp =>
    have hpos := h.pos
    rw [if_neg hdot, if_neg hdd]
    refine ⟨?_, ?_, ?_, ?_⟩
    · show (s.ok && (goodPart d).length == d.length) = true
      rw [h.ok, hgood, beq_self_eq_true]
      rfl
    · intro c hc
      rcases List.mem_append.mp hc with hc | hc
      · exact h.names c hc
      · rw [List.mem_singleton.mp hc]
        exact ⟨hne, (goodPart_eq hgood).1, (goodPart_eq hgood).2, hdot, hdd⟩
    · show s.p + 1 + (goodPart d).length = _
      rw [hgood, below_concat, List.length_append, List.length_cons]
      omega
    · show lp.take (s.p + 1 + (goodPart d).length + 1) = _
      rw [hgood, Nat.add_assoc _ d.length 1, hlp, h.front, below_concat, List.append_assoc]
      rfl

/-- … or refused, with a slash or NUL in it. -/
theorem Walked.refused {ps : Nat} (hw : Walked ps s d s') (hbad : goodPart d ≠ d) :
    s'.ok = false := by
  cases hw with
  | here heq => exact absurd (by rw [heq]; decide) hbad
  | up heq => exact absurd (by rw [heq]; decide) hbad
  | down =>
    have hlen : (goodPart d).length ≠ d.length := fun hlen => hbad (goodPart_length hlen)
    show (s.ok && (goodPart d).length == d.length) = false
    rw [beq_eq_false_iff_ne.mpr hlen, Bool.and_false]

/-- At a component, the rest of the URI is made of the others. -/
theorem At.rest (h : At uri u cs) :
    uri.drop (if uri[u - 1]? = some slash then u - 1 else u) = Segments.join slash cs := by
  cases h with
  | @comp k c cs h =>
    have hget : uri[k]? = some slash := by
      have := congrArg (·[0]?) h
      simpa [Segments.join_cons] using this
    rw [Nat.add_sub_cancel, if_pos hget, h]
  | fin h =>
    rw [if_neg h, List.drop_length]
    rfl

/-- The next component is parsed, unless the URI is at its end. -/
theorem At.step (h : At uri u (c :: cs)) (hc : slash ∉ c) (hcs : ∀ c ∈ cs, slash ∉ c) :
    u = uri.length ∧ c = [] ∧ cs = [] ∨
      u < uri.length ∧ ∃ next, parseUriComponent uri u = (c, next) ∧ At uri next cs := by
  cases h with
  | @comp k c cs h =>
    have hdrop : uri.drop (k + 1) = c ++ Segments.join slash cs := by
      rw [← List.drop_drop, h]
      rfl
    have hlen := congrArg List.length h
    rw [List.length_drop, Segments.join_cons, List.length_cons, List.length_append] at hlen
    cases cs with
    | nil =>
      rw [Segments.join_nil, List.append_nil] at hdrop
      rw [Segments.join_nil, List.length_nil] at hlen
      by_cases hempty : c = []
      · rw [hempty, List.length_nil] at hlen
        exact Or.inl ⟨by omega, hempty, rfl⟩
      · have hpos : 0 < c.length := List.length_pos_iff.mpr hempty
        refine Or.inr ⟨by omega, _, parseUriComponent_last hc hdrop (by omega), .fin ?_⟩
        -- the last byte of the path is one of `c`
        intro hslash
        have hget : (uri.drop (k + 1))[uri.length - 1 - (k + 1)]? = some slash := by
          rw [List.getElem?_drop, ← hslash]
          congr 1
          omega
        rw [hdrop] at hget
        exact hc (List.mem_of_getElem? hget)
    | cons c' cs =>
      rw [Segments.join_cons] at hdrop
      rw [Segments.join_cons, List.length_cons] at hlen
      refine Or.inr ⟨by omega, _, parseUriComponent_dir hc hdrop, .comp ?_⟩
      rw [← List.drop_drop, hdrop, List.drop_left]
      rfl

/-- **The loop.** It ends where the walk over the components ends. -/
theorem pathLoop_follow {fuel : Nat} (hb : nul ∉ base) (hcs : ∀ c ∈ cs, slash ∉ c)
    (hfuel : cs.length ≤ fuel) (hi : Inside base.length uri.length u s) (hh : Held base st s)
    (ha : At uri u cs) (hu : u ≤ uri.length) :
    ∃ r, pathLoop stat uri base.length fuel s u = .ok r ∧
      Ends base uri (follow stat base cs st s.exist) r := by
  induction cs generalizing fuel s u st with
  | nil =>
    have hrest := ha.rest
    cases ha with
    | fin h =>
      rw [if_neg h] at hrest
      cases fuel with
      | zero => exact ⟨_, rfl, s, _, rfl, hh, hrest⟩
      | succ fuel =>
        unfold pathLoop
        rw [hh.terminal hb, Buffer.ok_bind, if_neg h]
        dsimp only
        by_cases hreg : (if s.exist then stat (below base st) else none) = some .regular
        · rw [if_pos (by simpa using hreg)]
          exact ⟨_, rfl, _, _, rfl, hh.exist _, hrest⟩
        · rw [if_neg (by simpa using hreg), if_pos (Nat.le_refl _)]
          exact ⟨_, rfl, _, _, rfl, hh.exist _, hrest⟩
  | cons c cs ih =>
    obtain ⟨fuel, rfl⟩ : ∃ k, fuel = k + 1 := ⟨fuel - 1, by rw [List.length_cons] at hfuel; omega⟩
    rw [List.length_cons] at hfuel
    have hc := hcs c List.mem_cons_self
    have hcs' : ∀ c' ∈ cs, slash ∉ c' := fun c' hc' => hcs c' (List.mem_cons_of_mem c hc')
    unfold pathLoop follow
    rw [hh.terminal hb, Buffer.ok_bind]
    dsimp only
    -- a regular file: the rest of the URI is its path info
    by_cases hreg : (if s.exist then stat (below base st) else none) = some .regular
    · rw [if_pos (by simpa using hreg), if_pos hreg]
      exact ⟨_, rfl, _, _, rfl, hh.exist _, ha.rest⟩
    · rw [if_neg (by simpa using hreg), if_neg hreg]
      -- from here on it only matters whether something is there
      generalize (if s.exist then stat (below base st) else none).isSome = e
      have hat := hi.exist e
      have hheld := hh.exist e
      rcases ha.step hc hcs' with ⟨rfl, rfl, rfl⟩ | ⟨hlt, next, hparse, hnext⟩
      · -- the path ends with a slash
        rw [if_pos (Nat.le_refl _)]
        exact ⟨_, rfl, _, _, rfl, hheld, List.drop_length⟩
      · obtain ⟨hclen, hle, hnle, hdist⟩ := parseUriComponent_bounds hparse hu
        rw [if_neg (by omega), hparse]
        dsimp only
        -- a slash behind a slash leaves the block as it is
        by_cases hempty : c = []
        · unfold pass
          rw [if_pos hempty, if_pos hempty]
          exact ih hcs' (by omega) (hat.advance hle) hheld hnext hnle
        · unfold pass
          rw [if_neg hempty, if_neg hempty]
          have hroom := hi.room hlt
          have hfit : s.p + c.length + 2 ≤ s.lp.length := by omega
          obtain ⟨r, hcomp, hnone, hsome⟩ := component_spec base.length
            (show ({ s with exist := e } : PathLoop).p + c.length + 2 ≤ _ from hfit)
          rw [hcomp, Buffer.ok_bind]
          cases hd : decoded c with
          | none =>
            rw [hnone hd]
            exact ⟨none, rfl, fun s' u' heq => absurd heq (by simp)⟩
          | some d =>
            rcases hsome d hd with ⟨rfl, rfl⟩ | ⟨hne, s', rfl, hw⟩
            · dsimp only
              rw [if_neg (by simp)]
              exact ⟨none, rfl, fun s' u' heq => absurd heq (by simp)⟩
            · have hin : Inside base.length uri.length next s' :=
                hat.walked hw hlt hclen (mgUrlDecode_length hd) hdist
              dsimp only
              by_cases hgood : d ≠ [] ∧ goodPart d = d
              · rw [if_pos hgood]
                have hstep := hheld.walked hw hgood.1 hgood.2
                have hex : s'.exist = e := by
                  cases hw
                  all_goals rfl
                rw [← hex]
                exact ih hcs' (by omega) hin hstep hnext hnle
              · rw [if_neg hgood]
                -- the component is refused, and with it the whole path
                have hbad : goodPart d ≠ d := fun heq => hgood ⟨hne, heq⟩
                exact pathLoop_lost stat hin hnle (hw.refused hbad)

/-- The document root, without a slash at its end. -/
def rootBase (root : Bytes) : Bytes := if root.getLast? = some slash then root.dropLast else root

/-- A slash at the end of the root is not copied. -/
theorem rootBase_length (root : Bytes) :
    (if root.getLast? = some slash then root.length - 1 else root.length) =
      (rootBase root).length := by
  unfold rootBase
  split
  · rw [List.length_dropLast]
  · rfl

theorem rootBase_take (root : Bytes) : root.take (rootBase root).length = rootBase root := by
  unfold rootBase
  split
  · rw [List.dropLast_eq_take, List.length_take, Nat.min_eq_left (Nat.sub_le _ _)]
  · rw [List.take_length]

theorem nul_notMem_rootBase {root : Bytes} (h : nul ∉ root) : nul ∉ rootBase root := by
  rw [← rootBase_take]
  exact fun hmem => h (List.mem_of_mem_take hmem)

/-- **The local path.** The code stays inside the block it has allocated, whatever is in it,
and finds what the walk over the components finds. -/
theorem mgUriToLocalPath_eq {root block : Bytes} (hr : nul ∉ root) (hcs : ∀ c ∈ cs, slash ∉ c)
    (hne : cs ≠ []) (hblock : block.length = root.length + (Segments.join slash cs).length + 1) :
    mgUriToLocalPath stat root (Segments.join slash cs) (some block) =
      .ok ((follow stat (rootBase root) cs [] true).map fun r =>
        (below (rootBase root) r.1, Segments.join slash r.2)) := by
  obtain ⟨lp₁, hcopy, hlp₁⟩ := Buffer.write_ok (show 0 + root.length ≤ block.length by omega)
  have hlen₁ := hlp₁.length
  have hbase : (rootBase root).length ≤ root.length := by
    rw [← rootBase_length]
    split
    all_goals omega
  obtain ⟨lp₂, hend, hlp₂⟩ := Buffer.write_ok
    (show (rootBase root).length + [nul].length ≤ lp₁.length by rw [List.length_singleton]; omega)
  have hlen₂ := hlp₂.length
  have hb := nul_notMem_rootBase hr
  have htake : lp₂.take ((rootBase root).length + 1) = rootBase root ++ [nul] := by
    have hroot := congrArg (List.take (rootBase root).length) hlp₁.take
    rw [Nat.zero_add, List.take_take, Nat.min_eq_left hbase, List.take_zero, List.nil_append,
      rootBase_take] at hroot
    have h := hlp₂.take
    rw [hroot] at h
    exact h
  -- the walk begins at the root, with nothing on the stack
  have hheld : Held (rootBase root) [] { lp := lp₂, p := (rootBase root).length } := by
    refine ⟨rfl, fun c hc => absurd hc List.not_mem_nil, ?_, ?_⟩
    · show _ = (rootBase root ++ []).length
      rw [List.append_nil]
    · show lp₂.take _ = rootBase root ++ [] ++ [nul]
      rw [List.append_nil]
      exact htake
  obtain ⟨c, cs', rfl⟩ := List.exists_cons_of_ne_nil hne
  have hlong : 1 ≤ (Segments.join slash (c :: cs')).length := Nat.succ_le_succ (Nat.zero_le _)
  -- the block was made for the root and the whole URI
  have hin : Inside (rootBase root).length (Segments.join slash (c :: cs')).length 1
      { lp := lp₂, p := (rootBase root).length } := by
    refine ⟨Nat.le_refl _, ?_, hlp₂.mem (List.mem_singleton_self _), fun hlt => ?_⟩
    · dsimp only
      omega
    · dsimp only
      omega
  have hfuel : (c :: cs').length ≤ (Segments.join slash (c :: cs')).length :=
    Segments.length_le_join _
  obtain ⟨r, hloop, hends⟩ := pathLoop_follow hb hcs hfuel hin hheld (.comp rfl) hlong
  unfold mgUriToLocalPath
  dsimp only
  rw [hcopy, Buffer.ok_bind, rootBase_length, hend, Buffer.ok_bind, hloop, Buffer.ok_bind]
  cases hf : follow stat (rootBase root) (c :: cs') [] true with
  | none =>
    rw [hf] at hends
    cases r with
    | none => rfl
    | some su =>
      obtain ⟨s, u⟩ := su
      dsimp only
      rw [if_neg (by rw [hends s u rfl]; exact Bool.false_ne_true)]
      rfl
  | some found =>
    rw [hf] at hends
    obtain ⟨s, u, rfl, hheld', hrest⟩ := hends
    dsimp only
    rw [if_pos hheld'.ok, hheld'.readStr hb, Buffer.ok_bind, hrest]
    rfl

end

/-! ## Where the walk can go -/

section

variable {stat stat' : Bytes → Option FileKind} {root base uri block path info c : Bytes}
  {st st₁ st' cs rest : List Bytes} {exist : Bool}

/-- The names stay names. -/
theorem pass_names (h : pass st c = some st₁) (hst : ∀ c ∈ st, IsName c) : ∀ c ∈ st₁, IsName c := by
  unfold pass at h
  by_cases hempty : c = []
  · rw [if_pos hempty] at h
    rw [← Option.some.inj h]
    exact hst
  · rw [if_neg hempty] at h
    cases hd : decoded c with
    | none =>
      rw [hd] at h
      exact absurd h (by simp)
    | some d =>
      rw [hd] at h
      obtain ⟨⟨hne, hgood⟩, h⟩ := Option.ite_none_right_eq_some.mp h
      rw [← Option.some.inj h]
      unfold Segments.push
      intro c' hc'
      by_cases hdot : d = dot
      · rw [if_pos hdot] at hc'
        exact hst c' hc'
      · rw [if_neg hdot] at hc'
        by_cases hdd : d = dotdot
        · rw [if_pos hdd] at hc'
          exact hst c' (List.dropLast_subset st hc')
        · rw [if_neg hdd] at hc'
          rcases List.mem_append.mp hc' with hc' | hc'
          · exact hst c' hc'
          · rw [List.mem_singleton.mp hc']
            exact ⟨hne, (goodPart_eq hgood).1, (goodPart_eq hgood).2, hdot, hdd⟩

/-- The walk stops in front of a component, at a regular file, or takes it. -/
theorem follow_cons (h : follow stat base (c :: cs) st exist = some (st', rest)) :
    (stat (below base st) = some .regular ∧ st' = st ∧ rest = c :: cs) ∨
      ∃ st₁ e, pass st c = some st₁ ∧ follow stat base cs st₁ e = some (st', rest) := by
  unfold follow at h
  dsimp only at h
  by_cases hreg : (if exist then stat (below base st) else none) = some .regular
  · rw [if_pos hreg] at h
    obtain ⟨rfl, rfl⟩ := Prod.mk.inj (Option.some.inj h)
    refine Or.inl ⟨?_, rfl, rfl⟩
    split at hreg
    · exact hreg
    · exact absurd hreg (by simp)
  · rw [if_neg hreg] at h
    obtain ⟨st₁, hpass, hrest⟩ := Option.bind_eq_some_iff.mp h
    exact Or.inr ⟨st₁, _, hpass, hrest⟩

/-- Where the walk ends. -/
theorem follow_found (h : follow stat base cs st exist = some (st', rest))
    (hst : ∀ c ∈ st, IsName c) :
    (∀ c ∈ st', IsName c) ∧ rest <:+ cs ∧ (rest ≠ [] → stat (below base st') = some .regular) := by
  induction cs generalizing st exist with
  | nil =>
    obtain ⟨rfl, rfl⟩ := Prod.mk.inj (Option.some.inj h)
    exact ⟨hst, List.suffix_rfl, fun hne => absurd rfl hne⟩
  | cons c cs ih =>
    rcases follow_cons h with ⟨hreg, rfl, rfl⟩ | ⟨st₁, e, hpass, hrest⟩
    · exact ⟨hst, List.suffix_rfl, fun _ => hreg⟩
    · obtain ⟨hnames, hsuffix, hfile⟩ := ih hrest (pass_names hpass hst)
      exact ⟨hnames, hsuffix.trans (List.suffix_cons c cs), hfile⟩

/-- What `mg_stat` says of anything else does not matter. -/
theorem follow_congr (h : ∀ st, (∀ c ∈ st, IsName c) → stat (below base st) = stat' (below base st))
    (hst : ∀ c ∈ st, IsName c) :
    follow stat base cs st exist = follow stat' base cs st exist := by
  induction cs generalizing st exist with
  | nil => rfl
  | cons c cs ih =>
    unfold follow
    rw [h st hst]
    dsimp only
    congr 1
    cases hpass : pass st c with
    | none => rfl
    | some st₁ => exact ih (pass_names hpass hst)

/-- **Below the document root.** Whatever the path of a request is, the code stays inside the
block; what is found is the document root and names below it, and a path info stands behind a
regular file. -/
theorem mgUriToLocalPath_below (stat : Bytes → Option FileKind) (hr : nul ∉ root)
    (hu : uri.head? = some slash) (hblock : block.length = root.length + uri.length + 1) :
    ∃ r, mgUriToLocalPath stat root uri (some block) = .ok r ∧
      ∀ path info, r = some (path, info) →
        (∃ st, (∀ c ∈ st, IsName c) ∧ path = below (rootBase root) st) ∧ info <:+ uri ∧
          (info ≠ [] → stat path = some .regular ∧ info.head? = some slash) := by
  obtain ⟨cs, hcs, hne, rfl⟩ := Segments.exists_join hu
  refine ⟨_, mgUriToLocalPath_eq hr hcs hne hblock, ?_⟩
  intro path info hfound
  obtain ⟨⟨st, rest⟩, hfollow, heq⟩ := Option.map_eq_some_iff.mp hfound
  obtain ⟨rfl, rfl⟩ := Prod.mk.inj heq
  obtain ⟨hnames, hsuffix, hfile⟩ := follow_found hfollow fun c hc => absurd hc List.not_mem_nil
  refine ⟨⟨st, hnames, rfl⟩, Segments.join_suffix hsuffix, fun hinfo => ?_⟩
  cases rest with
  | nil => exact absurd rfl hinfo
  | cons c rest => exact ⟨hfile (List.cons_ne_nil c rest), rfl⟩

/-- Nothing outside of the document root has a say in it. -/
theorem mgUriToLocalPath_congr (hr : nul ∉ root) (hu : uri.head? = some slash)
    (hblock : block.length = root.length + uri.length + 1)
    (h : ∀ st, (∀ c ∈ st, IsName c) →
      stat (below (rootBase root) st) = stat' (below (rootBase root) st)) :
    mgUriToLocalPath stat root uri (some block) = mgUriToLocalPath stat' root uri (some block) := by
  obtain ⟨cs, hcs, hne, rfl⟩ := Segments.exists_join hu
  rw [mgUriToLocalPath_eq hr hcs hne hblock, mgUriToLocalPath_eq hr hcs hne hblock,
    follow_congr h fun c hc => absurd hc List.not_mem_nil]

theorem mgUriToLocalPath_congr_passwd :
    mgUriToLocalPath (fun _ => none) (cstr "./web-8000") (cstr "/../etc/passwd")
        (some (List.replicate 25 0)) =
      mgUriToLocalPath (fun p => if p = cstr "/etc/passwd" then some .regular else none)
        (cstr "./web-8000") (cstr "/../etc/passwd") (some (List.replicate 25 0)) :=
  mgUriToLocalPath_congr (by decide) rfl rfl fun st _ =>
    -- what is below `./web-8000` begins with a dot
    (if_neg fun h => absurd (congrArg List.head? h)
      (show ((rootBase (cstr "./web-8000")) ++ Segments.join slash st).head? ≠ _ by
        rw [List.head?_append]
        exact (by decide : some (46 : UInt8) ≠ some 47))).symm

/-! ## The links of a directory listing -/

/-- The link `mg_print_dir_entry` prints for an entry of the directory. -/
def dirEntryHref (name : Bytes) (isDir : Bool) : Bytes :=
  mgUrlEncode name ++ (if isDir then [slash] else [])

/-- An encoded name is one name further. -/
theorem pass_encode {name : Bytes} (hname : IsName name) (st : List Bytes) :
    pass st (mgUrlEncode name) = some (st ++ [name]) := by
  have hlen := length_le_mgUrlEncode name
  have hdec : decoded (mgUrlEncode name) = some name := mgUrlDecode_encode hlen
  have hpos : 0 < name.length := List.length_pos_iff.mpr hname.nonempty
  have hne : mgUrlEncode name ≠ [] := List.length_pos_iff.mp (by omega)
  have hgood : goodPart name = name := by
    unfold goodPart
    rw [List.takeWhile_eq_self_iff]
    intro b hb
    have hnul : b ≠ nul := fun heq => hname.noNul (heq ▸ hb)
    have hslash : b ≠ slash := fun heq => hname.noSlash (heq ▸ hb)
    simpa using And.intro hnul hslash
  unfold pass Segments.push
  rw [if_neg hne, hdec]
  dsimp only
  rw [if_pos ⟨hname.nonempty, hgood⟩, if_neg hname.notDot, if_neg hname.notDotdot]

/-- A step of the walk that is not at a regular file. -/
theorem follow_step (hreg : (if exist then stat (below base st) else none) ≠ some .regular)
    (hpass : pass st c = some st₁) :
    follow stat base (c :: cs) st exist =
      follow stat base cs st₁ (if exist then stat (below base st) else none).isSome := by
  conv_lhs => unfold follow
  dsimp only
  rw [if_neg hreg, hpass]
  rfl

/-- Encoded names lead to the file they are the names of. -/
theorem follow_encode {names : List Bytes} (hnames : ∀ c ∈ names, IsName c)
    (hdirs : ∀ k < names.length, stat (below base (st ++ names.take k)) ≠ some .regular) :
    follow stat base (names.map mgUrlEncode) st exist = some (st ++ names, []) := by
  induction names generalizing st exist with
  | nil =>
    rw [List.append_nil]
    rfl
  | cons name names ih =>
    have hhere := hdirs 0 (Nat.zero_lt_succ _)
    rw [List.take_zero, List.append_nil] at hhere
    have hreg : (if exist then stat (below base st) else none) ≠ some .regular := by
      cases exist
      · simp
      · exact hhere
    have hrest : ∀ k < names.length,
        stat (below base (st ++ [name] ++ names.take k)) ≠ some .regular := by
      intro k hk
      have hnext := hdirs (k + 1) (Nat.succ_lt_succ hk)
      rw [List.append_assoc]
      exact hnext
    rw [List.map_cons, follow_step hreg (pass_encode (hnames name List.mem_cons_self) st),
      ih (fun c hc => hnames c (List.mem_cons_of_mem name hc)) hrest, List.append_assoc]
    rfl

/-- The path of a request for a file. -/
def encodedPath (names : List Bytes) : Bytes := Segments.join slash (names.map mgUrlEncode)

/-- An encoded name has no slashes. -/
theorem slash_notMem_encode {name : Bytes} (hname : IsName name) : slash ∉ mgUrlEncode name := by
  intro hmem
  rcases mem_mgUrlEncode hmem with hmem | hmem | hmem
  · exact hname.noSlash hmem
  · exact absurd hmem (by decide)
  · exact absurd hmem (by decide)

/-- An encoded name is not taken for `.` or `..`. -/
theorem encode_ne_dots {name : Bytes} (hname : IsName name) :
    mgUrlEncode name ≠ dot ∧ mgUrlEncode name ≠ dotdot := by
  have hdec : decoded (mgUrlEncode name) = some name := mgUrlDecode_encode (length_le_mgUrlEncode name)
  refine ⟨fun heq => ?_, fun heq => ?_⟩
  · rw [heq, show decoded dot = some dot from by decide] at hdec
    exact hname.notDot (Option.some.inj hdec).symm
  · rw [heq, show decoded dotdot = some dotdot from by decide] at hdec
    exact hname.notDotdot (Option.some.inj hdec).symm

/-- It is in normal form. -/
theorem encodedPath_normal {names : List Bytes} (hne : names ≠ [])
    (hnames : ∀ c ∈ names, IsName c) :
    normalPath (encodedPath names) = some (encodedPath names) := by
  cases names using List.reverseRecOn with
  | nil => exact absurd rfl hne
  | append_singleton names name =>
    have henc : ∀ c ∈ names.map mgUrlEncode ++ [mgUrlEncode name],
        slash ∉ c ∧ c ≠ dot ∧ c ≠ dotdot := by
      intro c hc
      rw [← List.map_singleton, ← List.map_append] at hc
      obtain ⟨n, hn, rfl⟩ := List.mem_map.mp hc
      exact ⟨slash_notMem_encode (hnames n hn), encode_ne_dots (hnames n hn)⟩
    have hnormal : IsNormal (encodedPath (names ++ [name])) (names.map mgUrlEncode)
        (mgUrlEncode name) := by
      refine ⟨?_, fun c hc => (henc c hc).1, fun c hc => (henc c hc).2⟩
      unfold encodedPath
      rw [List.map_append, List.map_singleton, Segments.join_concat]
    exact hnormal.normalPath

/-- A walk that has come to the end of a path with a slash there can go on. -/
theorem follow_through (h : follow stat base (cs ++ [[]]) st exist = some (st', []))
    (cs' : List Bytes) :
    ∃ e, (if e then stat (below base st') else none) ≠ some .regular ∧
      follow stat base (cs ++ cs') st exist = follow stat base cs' st' e := by
  induction cs generalizing st exist with
  | nil =>
    rw [List.nil_append] at h
    unfold follow at h
    dsimp only at h
    by_cases hreg : (if exist then stat (below base st) else none) = some .regular
    · rw [if_pos hreg] at h
      exact absurd (Prod.mk.inj (Option.some.inj h)).2 (List.cons_ne_nil _ _)
    · rw [if_neg hreg] at h
      obtain rfl : st = st' := (Prod.mk.inj (Option.some.inj h)).1
      exact ⟨exist, hreg, rfl⟩
  | cons c cs ih =>
    rw [List.cons_append] at h ⊢
    by_cases hreg : (if exist then stat (below base st) else none) = some .regular
    · unfold follow at h
      dsimp only at h
      rw [if_pos hreg] at h
      exact absurd (Prod.mk.inj (Option.some.inj h)).2 (List.cons_ne_nil _ _)
    · cases hpass : pass st c with
      | none =>
        unfold follow at h
        dsimp only at h
        rw [if_neg hreg, hpass] at h
        exact absurd h (by simp)
      | some st₁ =>
        rw [follow_step hreg hpass] at h ⊢
        exact ih h

/-- **Links lead back.** When a path that ends with a slash leads to a directory, the link of
an entry in its listing, put behind that path, leads to the entry. -/
theorem link_found {name : Bytes} {isDir : Bool} {block' : Bytes} (hr : nul ∉ root)
    (hu : uri.head? = some slash) (hend : uri.getLast? = some slash)
    (hblock : block.length = root.length + uri.length + 1)
    (hfound : mgUriToLocalPath stat root uri (some block) = .ok (some (path, [])))
    (hname : IsName name)
    (hkind : isDir = true → stat (path ++ slash :: name) = some .directory)
    (hblock' : block'.length = root.length + (uri ++ dirEntryHref name isDir).length + 1) :
    mgUriToLocalPath stat root (uri ++ dirEntryHref name isDir) (some block') =
      .ok (some (path ++ slash :: name, [])) := by
  obtain ⟨cs, hcs, hne, rfl⟩ := Segments.exists_join hu
  -- the last component is empty
  obtain ⟨cs, rfl⟩ : ∃ cs', cs = cs' ++ [[]] := by
    cases cs using List.reverseRecOn with
    | nil => exact absurd rfl hne
    | append_singleton cs c =>
      refine ⟨cs, ?_⟩
      cases c using List.reverseRecOn with
      | nil => rfl
      | append_singleton c b =>
        rw [Segments.join_concat, ← List.append_assoc, ← List.cons_append,
          List.getLast?_concat] at hend
        have hmem : slash ∈ c ++ [b] := by
          rw [Option.some.inj hend]
          exact List.mem_append_right _ (List.mem_singleton_self _)
        exact absurd hmem (hcs _ (by simp))
  have hhref : Segments.join slash (cs ++ [[]]) ++ dirEntryHref name isDir =
      Segments.join slash (cs ++ mgUrlEncode name :: if isDir then [[]] else []) := by
    rw [Segments.join_append, Segments.join_append, Segments.join_cons, Segments.join_cons]
    unfold dirEntryHref
    cases isDir
    all_goals simp [Segments.join]
  have hcs' : ∀ c ∈ cs ++ mgUrlEncode name :: (if isDir then [[]] else []), slash ∉ c := by
    intro c hc
    rcases List.mem_append.mp hc with hc | hc
    · exact hcs c (List.mem_append_left _ hc)
    · rcases List.mem_cons.mp hc with rfl | hc
      · exact slash_notMem_encode hname
      · cases isDir with
        | false => exact absurd hc List.not_mem_nil
        | true =>
          rw [List.mem_singleton.mp hc]
          exact List.not_mem_nil
  rw [mgUriToLocalPath_eq hr hcs hne hblock] at hfound
  obtain ⟨⟨st, rest⟩, hfollow, heq⟩ := Option.map_eq_some_iff.mp (Except.ok.inj hfound)
  obtain ⟨rfl, hrest⟩ := Prod.mk.inj heq
  obtain rfl : rest = [] := by
    cases rest with
    | nil => rfl
    | cons c rest => exact absurd hrest (List.cons_ne_nil _ _)
  obtain ⟨e, hreg, hthrough⟩ := follow_through hfollow
    (mgUrlEncode name :: if isDir then [[]] else [])
  have hlast : ∀ e, follow stat (rootBase root) (if isDir then [[]] else []) (st ++ [name]) e =
      some (st ++ [name], []) := fun e => by
    cases isDir with
    | false => rfl
    | true =>
      have hdir : stat (below (rootBase root) (st ++ [name])) = some .directory := by
        rw [below_concat]
        exact hkind rfl
      have hnot : (if e then stat (below (rootBase root) (st ++ [name])) else none) ≠
          some .regular := by
        rw [hdir]
        cases e
        all_goals simp
      exact follow_step hnot (show pass _ [] = some _ from rfl)
  rw [hhref] at hblock' ⊢
  rw [mgUriToLocalPath_eq hr hcs' (by simp) hblock', hthrough,
    follow_step hreg (pass_encode hname st), hlast]
  show Except.ok (some (below _ (st ++ [name]), _)) = _
  rw [below_concat]
  rfl

theorem link_found_dir :
    mgUriToLocalPath
      (fun p => if p ∈ [cstr "./web-8000", cstr "./web-8000/a b"] then some .directory else none)
      (cstr "./web-8000") (cstr "/" ++ dirEntryHref (cstr "a b") true) (some (List.replicate 18 0)) =
      .ok (some (cstr "./web-8000" ++ slash :: cstr "a b", [])) :=
  link_found (by decide) rfl rfl
    (rfl : (List.replicate 12 (0 : UInt8)).length = (cstr "./web-8000").length + 1 + 1) rfl
    ⟨by decide, by decide, by decide, by decide, by decide⟩ (fun _ => by decide) rfl

end

end SimplestWeb.Mongoose
