import SimplestWeb.Mongoose.SsiScan
import SimplestWeb.Mongoose.MatchPrefix
import SimplestWeb.Mongoose.LocalPath
import Mathlib.Data.List.DropRight

/-!
# Server side includes

`mg_send_ssi_file` and `mg_do_ssi_include` (`mongoose.c`, lines 9338–9487) send a file in which
tags stand for other files. A `Template` is such a file as it is meant, `Template.render` is how
it is written, and `Template.expand` says what it stands for; that is what is sent
(`mgSendSsiFile_render`), unless the name of a file does not fit into `file_name`
(`long_name_overruns`).

Mirroring notes:
- `env.fopen` is `mg_fopen` with the bytes of the file, `env.garbage` is what a buffer holds when
  the function is entered. The calls are numbered: a call is the list of the numbers of the tags
  that have led to it.
- The level is counted down: `include_level` is 11 minus it.
- No handler of this program does anything on `MG_EV_SSI_CALL`, and there is no `#exec`.
-/

namespace SimplestWeb.Mongoose

open SimplestWeb.Lib
open SimplestWeb.Lib.Buffer (Overrun readStr)

def quote : UInt8 := 34

/-- The limits of the platform, and what the functions find. -/
structure SsiEnv where
  /-- `BUFSIZ` -/
  bufsiz : Nat
  /-- `MG_MAX_PATH` -/
  maxPath : Nat
  documentRoot : Bytes
  fopen : Bytes → Option Bytes
  /-- `strerror(mg_get_errno())` after `mg_fopen` -/
  strerror : Bytes → Bytes
  garbage : List Nat → Bytes
  bufsiz_le : 256 ≤ bufsiz
  garbage_length : ∀ calls, (garbage calls).length = bufsiz

/-- `ssi_pattern`. -/
def ssiPattern : Bytes := cstr "**.shtml$|**.shtm$"

/-- `mg_match_prefix(opts->ssi_pattern, …, path) > 0`. -/
def isSsi (path : Bytes) : Bool := decide (0 < mgMatchPrefix ssiPattern path)

/-! ## `mg_do_ssi_include` -/

/-- `sscanf(tag, " …%[^\"]\"", file_name) == 1`, where `literal` stands for the dots. -/
def scanQuoted (literal tag : Bytes) : Option Bytes :=
  let s := tag.dropWhile isspace
  let name := (s.drop literal.length).takeWhile (· ≠ quote)
  if literal.isPrefixOf s && !name.isEmpty then some name else none

/-- `snprintf(path, sizeof(path), …)`. -/
def SsiEnv.snprintf (env : SsiEnv) (s : Bytes) : Bytes := s.take (env.maxPath - 1)

/-- The path up to its last separator. -/
def dirOf (path : Bytes) : Bytes :=
  if slash ∈ path then path.rdropWhile (· ≠ slash) else path

/-- How a name is meant. -/
inductive IncludeKind
  | virtual
  | abspath
  | file
  | bare
  deriving DecidableEq, Repr

/-- What stands in front of the name. -/
def IncludeKind.literal : IncludeKind → Bytes
  | virtual => cstr "virtual=\""
  | abspath => cstr "abspath=\""
  | file => cstr "file=\""
  | bare => cstr "\""

/-- The path for a name in the file `ssi`. -/
def SsiEnv.path (env : SsiEnv) (ssi : Bytes) (kind : IncludeKind) (name : Bytes) : Bytes :=
  match kind with
  | .virtual => env.snprintf (env.documentRoot ++ slash :: name)
  | .abspath => env.snprintf name
  | .file | .bare => env.snprintf (dirOf (env.snprintf ssi) ++ name)

/-- The first format that matches. -/
def scanName (tag : Bytes) : Option (IncludeKind × Bytes) :=
  [IncludeKind.virtual, .abspath, .file, .bare].findSome? fun kind =>
    (scanQuoted kind.literal tag).map fun name => (kind, name)

/-- What is sent for a tag that cannot be read. -/
def badInclude (tag : Bytes) : Bytes := cstr "Bad SSI #include: [" ++ tag ++ cstr "]"

/-- What is sent for a file that cannot be opened. -/
def SsiEnv.includeError (env : SsiEnv) (path : Bytes) : Bytes :=
  cstr "SSI include error: mg_fopen(" ++ path ++ cstr "): " ++ env.strerror path

/-- `mg_do_ssi_include`, where `send` is `mg_send_ssi_file` on the next level. -/
def mgDoSsiInclude (env : SsiEnv) (send : Bytes → Bytes → Except Overrun Bytes)
    (ssi tag : Bytes) : Except Overrun Bytes := do
  let tag ← readStr nul tag
  match scanName tag with
  | none => return badInclude tag
  | some (kind, name) =>
    -- `file_name` has `MG_MAX_PATH` bytes
    if name.length < env.maxPath then
      let path := env.path ssi kind name
      match env.fopen path with
      | none => return env.includeError path
      | some content => if isSsi path then send path content else return content
    else .error .overrun

/-! ## `mg_send_ssi_file` -/

/-- What is done about a tag, with the memory from its string on. -/
def ssiDirective (env : SsiEnv) (send : Bytes → Bytes → Except Overrun Bytes)
    (ssi p : Bytes) : Except Overrun Bytes :=
  if p.take (cstr "include").length = cstr "include" then
    mgDoSsiInclude env send ssi (p.drop ((cstr "include").length + 1))
  else if p.take (cstr "call").length = cstr "call" then do
    let _ ← readStr nul (p.drop ((cstr "call").length + 1))
    return []
  else .ok []

/-- What the events of a scan make the server send; the tags are numbered from `i` on. -/
def ssiPerform (path : Bytes) (directive : Nat → Bytes → Except Overrun Bytes) :
    Nat → List SsiEvent → Except Overrun Bytes
  | _, [] => .ok []
  | i, .send bs :: evs => do
    let out ← ssiPerform path directive i evs
    return bs ++ out
  | i, .directive p :: evs => do
    let out ← directive i p
    let out' ← ssiPerform path directive (i + 1) evs
    return out ++ out'
  | i, .tooLarge :: evs => do
    let out ← ssiPerform path directive i evs
    return path ++ cstr ": SSI tag is too large" ++ out

/-- `mg_send_ssi_file`. -/
def mgSendSsiFile (env : SsiEnv) :
    Nat → List Nat → Bytes → Bytes → Except Overrun Bytes
  | 0, _, path, _ => .ok (cstr "SSI #include level is too deep (" ++ path ++ cstr ")")
  | level + 1, calls, path, file => do
    let evs ← ssiEvents (env.garbage calls) file
    ssiPerform path (fun i p => ssiDirective env (mgSendSsiFile env level (i :: calls)) path p)
      0 evs

/-! ## Templates -/

/-- A tag as it is meant. -/
inductive SsiTag
  | dInclude (kind : IncludeKind) (name : Bytes)
  | dCall (arg : Bytes)
  | unknown (text : Bytes)
  deriving DecidableEq, Repr

/-- What is written between `<!--#` and `-->`. -/
def SsiTag.text : SsiTag → Bytes
  | dInclude kind name => cstr "include " ++ (kind.literal ++ name ++ [quote])
  | dCall arg => cstr "call " ++ arg
  | unknown text => text

/-- A tag, the blanks at its end, and the text behind it. -/
structure Piece where
  tag : SsiTag
  blanks : Nat
  behind : Bytes
  deriving DecidableEq, Repr

structure Template where
  head : Bytes
  pieces : List Piece
  deriving DecidableEq, Repr

/-- The tag up to its closing dashes. -/
def Piece.opening (p : Piece) : Bytes :=
  btag ++ p.tag.text ++ List.replicate p.blanks space ++ dashes

def Piece.render (p : Piece) : Bytes := p.opening ++ greater :: p.behind

def Template.render (t : Template) : Bytes := t.head ++ (t.pieces.map Piece.render).flatten

/-- Text in which nothing is taken for a tag: behind a `<` there is no `!--#`, and no `-->` right
behind it. -/
def Harmless (bs : Bytes) : Prop :=
  ∀ pre s, bs = pre ++ less :: s → ¬ btag <+: less :: s ∧
    ∀ x y, less :: s = x ++ greater :: y → x.length ≤ btag.length → ¬ dashes <:+ x

/-- A tag that can be told from its bytes. -/
def SsiTag.Readable : SsiTag → Prop
  | dInclude _ name => name ≠ [] ∧ quote ∉ name
  | dCall _ => True
  | unknown text => ¬ cstr "include" <+: text ∧ ¬ cstr "call" <+: text

structure Piece.Ok (env : SsiEnv) (p : Piece) : Prop where
  noLess : less ∉ p.tag.text
  noNul : nul ∉ p.tag.text
  notClosed : ∀ x y, p.tag.text = x ++ greater :: y → ¬ dashes <:+ x
  noBlank : p.tag.text.getLast? ≠ some space
  readable : p.tag.Readable
  fits : p.opening.length + 2 ≤ env.bufsiz
  behind : Harmless p.behind

structure Template.Ok (env : SsiEnv) (t : Template) : Prop where
  head : Harmless t.head
  pieces : ∀ p ∈ t.pieces, p.Ok env

/-- A name fits into `file_name`. -/
def SsiTag.Short (env : SsiEnv) : SsiTag → Prop
  | dInclude _ name => name.length < env.maxPath
  | _ => True

/-- The files: those that are sent through `mg_send_ssi_file`, and the others. -/
structure SsiFiles where
  template : Bytes → Option Template
  plain : Bytes → Option Bytes

def SsiFiles.fopen (files : SsiFiles) (path : Bytes) : Option Bytes :=
  if isSsi path then (files.template path).map Template.render else files.plain path

/-- What a tag stands for in the file `ssi`; a template is sent by `send`. -/
def SsiTag.expand (env : SsiEnv) (files : SsiFiles) (send : Bytes → Template → Bytes)
    (ssi : Bytes) : SsiTag → Bytes
  | dInclude kind name =>
    let path := env.path ssi kind name
    if isSsi path then ((files.template path).map (send path)).getD (env.includeError path)
    else (files.plain path).getD (env.includeError path)
  | _ => []

/-- What a template stands for. -/
def Template.expand (env : SsiEnv) (files : SsiFiles) : Nat → Bytes → Template → Bytes
  | 0, path, _ => cstr "SSI #include level is too deep (" ++ path ++ cstr ")"
  | level + 1, path, t =>
    t.head ++ (t.pieces.map fun p =>
      p.tag.expand env files (Template.expand env files level) path ++ p.behind).flatten

variable {env : SsiEnv} {s s' : SsiScan} {size : Nat} {u bs text mem path : Bytes}
  {evs : List SsiEvent} {ps : List Piece} {p : Piece} {t : Template} {files : SsiFiles}

/-! ### Text -/

theorem Harmless.tail {ch : UInt8} (h : Harmless (ch :: bs)) : Harmless bs := by
  intro pre s hbs
  exact h (ch :: pre) s (by rw [hbs]; rfl)

/-- Events that only send. -/
def sends (bss : List Bytes) : List SsiEvent := bss.map .send

/-- What is flushed is sent as it is. -/
theorem flush_sends (u : Bytes) : ∃ bss, flush u = sends bss ∧ bss.flatten = u := by
  unfold flush
  split
  next => exact ⟨[u], rfl, List.append_nil u⟩
  next hempty =>
    have hnil : u = [] := List.length_eq_zero_iff.mp (Nat.eq_zero_of_not_pos hempty)
    exact ⟨[], rfl, hnil.symm⟩

theorem sends_append (bss bss' : List Bytes) : sends (bss ++ bss') = sends bss ++ sends bss' :=
  List.map_append

/-- A tag may have begun here, but it will turn out not to be one. -/
structure Undecided (u bs : Bytes) : Prop where
  begins : ∃ v, u = less :: v
  short : u.length ≤ btag.length
  noTag : ¬ btag <+: u ++ bs
  notClosed : ∀ x y, u ++ bs = x ++ greater :: y → x.length ≤ btag.length → ¬ dashes <:+ x

theorem Undecided.ne_nil (h : Undecided u bs) : u ≠ [] := by
  obtain ⟨v, rfl⟩ := h.begins
  exact List.cons_ne_nil _ _

theorem Undecided.ne_btag (h : Undecided u bs) : u ≠ btag := by
  intro heq
  have hno := h.noTag
  rw [heq] at hno
  exact hno (List.prefix_append _ _)

/-- A beginning of a tag that is none yet closes nothing. -/
theorem Undecided.staysOpen {ch : UInt8} (h : Undecided u (ch :: bs)) (hless : ch ≠ less) :
    StaysOpen u ch := by
  refine ⟨hless, fun hgt => ⟨?_, h.notClosed u bs (by rw [hgt]) h.short⟩⟩
  obtain ⟨v, rfl⟩ := h.begins
  intro heq
  injection heq with hd
  exact absurd hd (by decide)

/-- One byte more, and it is still open. -/
theorem Undecided.snoc {ch : UInt8} (h : Undecided u (ch :: bs)) (hlen : u.length ≠ btag.length) :
    Undecided (u ++ [ch]) bs := by
  obtain ⟨⟨v, hv⟩, hshort, hno, hopen⟩ := h
  rw [show u ++ ch :: bs = u ++ [ch] ++ bs by rw [List.append_assoc]; rfl] at hno hopen
  refine ⟨⟨v ++ [ch], by rw [hv]; rfl⟩, ?_, hno, hopen⟩
  rw [List.length_append, List.length_singleton]
  omega

/-- Where the loop stands in text, with `bs` still to come. -/
structure InText (s : SsiScan) (size : Nat) (u bs : Bytes) : Prop where
  pending : Pending s size u
  room : s.inSsiTag = false → u.length < size
  undecided : s.inSsiTag = true → Undecided u bs

/-- Outside of tags everything may be pending that has room … -/
theorem InText.text_of (h : Pending s size u) (htag : s.inSsiTag = false)
    (hroom : u.length < size) :
    InText s size u bs := by
  refine ⟨h, fun _ => hroom, fun htrue => ?_⟩
  rw [htag] at htrue
  cases htrue

/-- … after a `<` only what may still become a tag. -/
theorem InText.tag_of (h : Pending s size u) (htag : s.inSsiTag = true) (hu : Undecided u bs) :
    InText s size u bs := by
  refine ⟨h, fun hfalse => ?_, fun _ => hu⟩
  rw [htag] at hfalse
  cases hfalse

/-- A round sends nothing else, and loses nothing. -/
theorem InText.step {ch : UInt8} (h : InText s size u (ch :: bs)) (hsize : 8 ≤ size)
    (hbs : Harmless (ch :: bs)) :
    ∃ s' u' bss, s.step ch = .ok (s', sends bss) ∧ InText s' size u' bs ∧
      bss.flatten ++ u' = u ++ [ch] := by
  have hbtag : btag.length = 5 := rfl
  by_cases hless : ch = less
  · subst hless
    obtain ⟨s', hstep, hs', htag⟩ := h.pending.step_less (by omega)
    obtain ⟨hno, hopen⟩ := hbs [] bs rfl
    obtain ⟨bss, hflush, hu⟩ := flush_sends u
    rw [hflush] at hstep
    refine ⟨s', [less], bss, hstep, InText.tag_of hs' htag ⟨⟨[], rfl⟩, ?_, hno, hopen⟩, ?_⟩
    · exact Nat.le_add_left 1 4
    · rw [hu]
  by_cases hin : s.inSsiTag = true
  · -- bytes are buffered as those of a tag until there are enough to see that it is none
    have hu := h.undecided hin
    have hch := hu.staysOpen hless
    by_cases hfive : u.length = btag.length
    · obtain ⟨s', hstep, hs', htag⟩ := h.pending.step_leave hin hch hfive hu.ne_btag (by omega)
      refine ⟨s', u ++ [ch], [], hstep, InText.text_of hs' htag ?_, rfl⟩
      rw [List.length_append, List.length_singleton]
      omega
    · have hshort := hu.short
      obtain ⟨s', hstep, hs', htag⟩ :=
        h.pending.step_tag hin hu.ne_nil hch (fun hlen => absurd hlen hfive) (by omega)
      exact ⟨s', u ++ [ch], [], hstep, InText.tag_of hs' htag (hu.snoc hfive), rfl⟩
  · rw [Bool.not_eq_true] at hin
    obtain ⟨s', u', evs, hstep, hs', htag, hroom, hevs⟩ := h.pending.step_text hin hless (h.room hin)
    rcases hevs with ⟨rfl, rfl⟩ | ⟨rfl, rfl⟩
    · exact ⟨s', _, [], hstep, InText.text_of hs' htag hroom, rfl⟩
    · -- the buffer was full
      refine ⟨s', [], [u ++ [ch]], hstep, InText.text_of hs' htag hroom, ?_⟩
      rw [List.flatten_singleton, List.append_nil]

/-- **Text is sent as it is**, up to what is still buffered. -/
theorem InText.scan (h : InText s size u bs) (hsize : 8 ≤ size) (hbs : Harmless bs) :
    ∃ s' u' bss, Scans s bs (sends bss) s' ∧ Pending s' size u' ∧
      bss.flatten ++ u' = u ++ bs := by
  induction bs generalizing s u with
  | nil => exact ⟨s, u, [], Scans.nil s, h.pending, (List.append_nil u).symm⟩
  | cons ch bs ih =>
    obtain ⟨s₁, u₁, bss₁, hstep, h₁, hflat₁⟩ := h.step hsize hbs
    obtain ⟨s', u', bss, hscan, hs', hflat⟩ := ih h₁ hbs.tail
    refine ⟨s', u', bss₁ ++ bss, ?_, hs', ?_⟩
    · rw [sends_append]
      exact Scans.cons hstep hscan
    · rw [List.flatten_append, List.append_assoc, hflat, ← List.append_assoc, hflat₁,
        List.append_assoc]
      rfl

/-! ### Tags -/

theorem length_opening (p : Piece) :
    p.opening.length = btag.length + p.tag.text.length + p.blanks + 2 := by
  unfold Piece.opening
  rw [List.length_append, List.length_append, List.length_append, List.length_replicate]
  rfl

/-- The dashes of `btag` do not help to close it. -/
theorem dashes_behind_btag {x : Bytes} (h : dashes <:+ btag ++ x) : dashes <:+ x := by
  match x with
  | [] => exact absurd h (by decide)
  | [c] =>
    exact absurd (dashes_suffix.mp (show dashes <:+ cstr "<!--" ++ [35, c] from h)).1 (by decide)
  | a :: b :: x =>
    refine List.suffix_of_suffix_length_le h (List.suffix_append _ _) ?_
    show 2 ≤ x.length + 1 + 1
    omega

/-- A tag stays open up to its closing dashes. -/
theorem Piece.Ok.openTag (h : p.Ok env) : OpenTag p.opening where
  begins := by
    refine ⟨cstr "!--#" ++ p.tag.text ++ List.replicate p.blanks space ++ dashes, rfl, ?_⟩
    intro hmem
    simp only [List.mem_append, List.mem_replicate] at hmem
    rcases hmem with ((hmem | hmem) | hmem) | hmem
    · exact absurd hmem (by decide)
    · exact h.noLess hmem
    · exact absurd hmem.2 (by decide)
    · exact absurd hmem (by decide)
  notClosed := by
    intro x y heq hclose
    unfold Piece.opening at heq
    rw [List.append_assoc (btag ++ p.tag.text)] at heq
    -- a `>` stands neither in front of the text nor behind it
    have htail : greater ∉ List.replicate p.blanks space ++ dashes := by
      intro hmem
      rcases List.mem_append.mp hmem with hmem | hmem
      · exact absurd (List.mem_replicate.mp hmem).2 (by decide)
      · exact absurd hmem (by decide)
    obtain ⟨y', hfront, -⟩ := Segments.split_ahead heq htail
    obtain ⟨x', rfl, htext⟩ := Segments.split_behind hfront (by decide)
    exact h.notClosed x' y' htext (dashes_behind_btag hclose)
  isTag := by
    intro _
    unfold Piece.opening
    rw [List.append_assoc, List.append_assoc]
    exact List.prefix_append _ _

/-- **A tag is handed over as its text.** -/
theorem Pending.scan_tag (h : Pending s size u) (hsize : env.bufsiz = size) (hp : p.Ok env) :
    ∃ buf, Scans s (p.opening ++ [greater]) (flush u ++ [.directive (buf.drop btag.length)])
        { buf := buf } ∧ buf.length = size ∧
      (buf.drop btag.length).take (p.tag.text.length + 1) = p.tag.text ++ [0] := by
  have hfits := hp.fits
  obtain ⟨s₁, hscan, hs₁, htag⟩ := h.scan_open hp.openTag (by omega)
  -- the text ends with a byte that is not a blank, be it the one of `btag`
  obtain ⟨x, b, hx, hb⟩ : ∃ x b, btag ++ p.tag.text = x ++ [b] ∧ b ≠ space := by
    have hlast := hp.noBlank
    cases htext : p.tag.text using List.reverseRecOn with
    | nil => exact ⟨cstr "<!--", 35, rfl, by decide⟩
    | append_singleton w b =>
      refine ⟨btag ++ w, b, (List.append_assoc _ _ _).symm, fun heq => hlast ?_⟩
      rw [htext, List.getLast?_concat, heq]
  have hopening : p.opening = x ++ [b] ++ List.replicate p.blanks space ++ dashes := by
    unfold Piece.opening
    rw [hx]
  rw [hopening] at hs₁
  obtain ⟨buf, htrim, hlen, hfront⟩ := hs₁.trimTag_eq hb
  refine ⟨buf, hscan.snoc (hs₁.step_greater htag htrim), hlen, ?_⟩
  have hxlen : x.length + 1 = btag.length + p.tag.text.length := by
    have hlen := congrArg List.length hx
    rw [List.length_append, List.length_append, List.length_singleton] at hlen
    exact hlen.symm
  rw [hxlen, ← hx, List.append_assoc] at hfront
  rw [List.take_drop, ← Nat.add_assoc, hfront, List.drop_left]

/-! ### Templates -/

/-- The events of a scan are those of the text `head` and the pieces behind it. -/
inductive Shows : List SsiEvent → Bytes → List Piece → Prop
  | last (bss : List Bytes) : Shows (sends bss) bss.flatten []
  | tag (bss : List Bytes) {evs : List SsiEvent} {mem : Bytes} {p : Piece} {ps : List Piece}
      (hmem : mem.take (p.tag.text.length + 1) = p.tag.text ++ [0]) (h : Shows evs p.behind ps) :
      Shows (sends bss ++ .directive mem :: evs) bss.flatten (p :: ps)

theorem ssiEvents_append {buf buf' : Bytes} {evs' : List SsiEvent}
    (h : Scans { buf := buf } bs evs { buf := buf' }) (h' : ssiEvents buf' text = .ok evs') :
    ssiEvents buf (bs ++ text) = .ok (evs ++ evs') := by
  unfold ssiEvents at h' ⊢
  rw [SsiScan.run_append, show SsiScan.run { buf := buf } bs = _ from h, Buffer.ok_bind]
  dsimp only
  cases hrun : SsiScan.run { buf := buf' } text with
  | error e =>
    rw [hrun] at h'
    cases h'
  | ok r =>
    rw [hrun] at h'
    injection h' with hevs
    rw [← hevs, ← List.append_assoc]
    rfl

/-- The text in front of the first tag, sent or still buffered. -/
theorem scan_head {buf head : Bytes} (hbuf : buf.length = env.bufsiz) (hhead : Harmless head) :
    ∃ s' u' bss bss', Scans { buf := buf } head (sends bss) s' ∧ Pending s' env.bufsiz u' ∧
      flush u' = sends bss' ∧ head = (bss ++ bss').flatten := by
  have hlarge := env.bufsiz_le
  have hroom : ([] : Bytes).length < env.bufsiz := by
    show 0 < env.bufsiz
    omega
  have hempty : InText { buf := buf } env.bufsiz [] head :=
    InText.text_of ⟨hbuf, rfl, rfl⟩ rfl hroom
  obtain ⟨s', u', bss, hscan, hs', hflat⟩ := hempty.scan (by omega) hhead
  obtain ⟨bss', hflush, hu'⟩ := flush_sends u'
  refine ⟨s', u', bss, bss', hscan, hs', hflush, ?_⟩
  rw [List.flatten_append, hu', hflat]
  rfl

/-- **A template is read as it is meant**, whatever the buffer holds at the start. -/
theorem shows_render {buf head : Bytes} (hbuf : buf.length = env.bufsiz) (hhead : Harmless head)
    (hps : ∀ p ∈ ps, p.Ok env) :
    ∃ evs, ssiEvents buf (head ++ (ps.map Piece.render).flatten) = .ok evs ∧ Shows evs head ps := by
  induction ps generalizing buf head with
  | nil =>
    obtain ⟨s', u', bss, bss', hscan, hs', hflush, rfl⟩ := scan_head hbuf hhead
    refine ⟨_, ?_, Shows.last (bss ++ bss')⟩
    unfold ssiEvents
    rw [List.map_nil, List.flatten_nil, List.append_nil,
      show SsiScan.run { buf := buf } _ = .ok (s', sends bss) from hscan, Buffer.ok_bind,
      sends_append, ← hflush]
    dsimp only
    rw [hs'.take_len, hs'.len]
    rfl
  | cons p ps ih =>
    obtain ⟨s', u', bss, bss', hscan, hs', hflush, rfl⟩ := scan_head hbuf hhead
    have hp := hps p List.mem_cons_self
    obtain ⟨buf', hscan', hbuf', hmem⟩ := hs'.scan_tag rfl hp
    obtain ⟨evs, hevs, hshows⟩ :=
      ih hbuf' hp.behind fun q hq => hps q (List.mem_cons_of_mem _ hq)
    refine ⟨_, ?_, Shows.tag (bss ++ bss') hmem hshows⟩
    have hfile : ((p :: ps).map Piece.render).flatten =
        p.opening ++ [greater] ++ (p.behind ++ (ps.map Piece.render).flatten) := by
      rw [List.map_cons, List.flatten_cons]
      unfold Piece.render
      simp only [List.append_assoc, List.cons_append, List.nil_append]
    have hall := ssiEvents_append (hscan.append hscan') hevs
    rw [hfile, ← List.append_assoc, hall, hflush, sends_append]
    simp only [List.append_assoc, List.cons_append, List.nil_append]

/-! ### What is sent -/

section

variable {directive : Nat → Bytes → Except Overrun Bytes} {head : Bytes}

/-- What is sent comes first. -/
theorem ssiPerform_sends (i : Nat) (bss : List Bytes) (evs : List SsiEvent) :
    ssiPerform path directive i (sends bss ++ evs) =
      ssiPerform path directive i evs >>= fun out => .ok (bss.flatten ++ out) := by
  induction bss with
  | nil =>
    show ssiPerform path directive i evs = _
    cases ssiPerform path directive i evs with
    | error e => rfl
    | ok out => rfl
  | cons bs bss ih =>
    show (ssiPerform path directive i (sends bss ++ evs) >>= fun out => .ok (bs ++ out)) = _
    rw [ih]
    cases ssiPerform path directive i evs with
    | error e => rfl
    | ok out => exact congrArg Except.ok (List.append_assoc _ _ _).symm

/-- The text is sent, and what each tag gives. -/
theorem Shows.perform {f : Piece → Bytes} (h : Shows evs head ps) (i : Nat)
    (hf : ∀ p ∈ ps, ∀ i mem, mem.take (p.tag.text.length + 1) = p.tag.text ++ [0] →
      directive i mem = .ok (f p)) :
    ssiPerform path directive i evs =
      .ok (head ++ (ps.map fun p => f p ++ p.behind).flatten) := by
  induction h generalizing i with
  | last bss =>
    have hend : ssiPerform path directive i (sends bss ++ []) = .ok (bss.flatten ++ []) :=
      ssiPerform_sends i bss []
    rw [List.append_nil] at hend
    exact hend
  | @tag bss evs mem p ps hmem _ ih =>
    have hrest := ih (i + 1) fun q hq => hf q (List.mem_cons_of_mem _ hq)
    rw [ssiPerform_sends]
    unfold ssiPerform
    rw [hf p List.mem_cons_self i mem hmem, Buffer.ok_bind, hrest, Buffer.ok_bind, List.map_cons,
      List.flatten_cons, List.append_assoc]
    rfl

/-- One tag that fails is enough. -/
theorem Shows.fails (h : Shows evs head ps) (i : Nat)
    (hp : ∃ p ∈ ps, ∀ i mem, mem.take (p.tag.text.length + 1) = p.tag.text ++ [0] →
      directive i mem = .error .overrun) :
    ssiPerform path directive i evs = .error .overrun := by
  induction h generalizing i with
  | last bss =>
    obtain ⟨p, hp, -⟩ := hp
    exact absurd hp List.not_mem_nil
  | @tag bss evs mem p ps hmem _ ih =>
    obtain ⟨q, hq, hfail⟩ := hp
    rw [ssiPerform_sends]
    unfold ssiPerform
    rcases List.mem_cons.mp hq with rfl | hq
    · rw [hfail i mem hmem]
      rfl
    · -- what the tags in front of it give is lost
      rw [ih (i + 1) ⟨q, hq, hfail⟩]
      cases directive i mem with
      | error e => cases e; rfl
      | ok out => rfl

end

/-! ### Tags are understood -/

/-- The string behind the word of a tag and one more byte. -/
theorem readStr_arg {w arg : Bytes} (htext : text = w ++ space :: arg)
    (hmem : mem.take (text.length + 1) = text ++ [0]) (hnul : nul ∉ text) :
    readStr nul (mem.drop (w.length + 1)) = .ok arg := by
  subst htext
  have harg : nul ∉ arg := fun h => hnul (List.mem_append_right _ (List.mem_cons_of_mem _ h))
  refine Buffer.readStr_eq harg ?_
  have hlen : (w ++ space :: arg).length + 1 = w.length + 1 + (arg.length + 1) := by
    rw [List.length_append, List.length_cons]
    omega
  rw [List.take_drop, ← hlen, hmem, List.append_assoc, List.drop_length_add_append]
  rfl

/-- A word in front of a tag is found if and only if it is there. -/
theorem take_mem_eq_iff {w : Bytes} (hmem : mem.take (text.length + 1) = text ++ [0])
    (hw : nul ∉ w) : mem.take w.length = w ↔ w <+: text := by
  constructor
  · intro h
    by_cases hlen : w.length ≤ text.length
    · have hcut := congrArg (List.take w.length) hmem
      rw [List.take_take, Nat.min_eq_left (by omega), h, List.take_append_of_le_length hlen] at hcut
      rw [hcut]
      exact List.take_prefix _ _
    · -- the end of the string would stand in the word
      refine absurd ?_ hw
      rw [← h]
      have hzero : (0 : UInt8) ∈ mem.take (text.length + 1) := by
        rw [hmem]
        exact List.mem_append_right _ (List.mem_singleton_self _)
      exact (List.take_prefix_take_left (by omega)).subset hzero
  · intro ⟨r, hr⟩
    have hlen : w.length ≤ text.length := by
      rw [← hr, List.length_append]
      omega
    have hcut := congrArg (List.take w.length) hmem
    rw [List.take_take, Nat.min_eq_left (by omega), List.take_append_of_le_length hlen, ← hr,
      List.take_left] at hcut
    exact hcut

/-- The name is found, behind the first literal that matches. -/
theorem scanName_literal {kind : IncludeKind} {name : Bytes} (hne : name ≠ []) (hq : quote ∉ name) :
    scanName (kind.literal ++ name ++ [quote]) = some (kind, name) := by
  have hfound : ∀ c rest, c :: rest = kind.literal → isspace c = false →
      scanQuoted kind.literal (kind.literal ++ name ++ [quote]) = some name := by
    intro c rest hlit hc
    have hskip : (kind.literal ++ name ++ [quote]).dropWhile isspace =
        kind.literal ++ name ++ [quote] := by
      rw [← hlit]
      exact List.dropWhile_cons_of_neg (by rw [hc]; exact Bool.false_ne_true)
    have hname : ((kind.literal ++ name ++ [quote]).drop kind.literal.length).takeWhile
        (· ≠ quote) = name := by
      rw [List.append_assoc, List.drop_left]
      exact Segments.takeWhile_ne_append hq
    unfold scanQuoted
    dsimp only
    rw [hskip, hname, if_pos]
    rw [Bool.and_eq_true, List.isPrefixOf_iff_prefix, List.append_assoc, Bool.not_eq_true',
      List.isEmpty_eq_false_iff]
    exact ⟨List.prefix_append _ _, hne⟩
  unfold scanName
  cases kind with
  | virtual =>
    rw [List.findSome?_cons, hfound _ _ rfl (by decide)]
    rfl
  | abspath =>
    rw [List.findSome?_cons, List.findSome?_cons, hfound _ _ rfl (by decide)]
    rfl
  | file =>
    rw [List.findSome?_cons, List.findSome?_cons, List.findSome?_cons, hfound _ _ rfl (by decide)]
    rfl
  | bare =>
    rw [List.findSome?_cons, List.findSome?_cons, List.findSome?_cons, List.findSome?_cons,
      hfound _ _ rfl (by decide)]
    rfl

section

variable {send : Bytes → Bytes → Except Overrun Bytes} {ssi : Bytes}

/-- A name is looked up if it fits into `file_name`. -/
theorem mgDoSsiInclude_name {kind : IncludeKind} {name : Bytes}
    (hmem : mem.take (((SsiTag.dInclude kind name).text).length + 1) =
      (SsiTag.dInclude kind name).text ++ [0])
    (hnul : nul ∉ (SsiTag.dInclude kind name).text) (hr : (SsiTag.dInclude kind name).Readable) :
    ssiDirective env send ssi mem =
      if name.length < env.maxPath then
        match env.fopen (env.path ssi kind name) with
        | none => .ok (env.includeError (env.path ssi kind name))
        | some content =>
          if isSsi (env.path ssi kind name) then send (env.path ssi kind name) content
          else .ok content
      else .error .overrun := by
  have hword : mem.take (cstr "include").length = cstr "include" := by
    rw [take_mem_eq_iff hmem (by decide)]
    exact ⟨cstr " " ++ (kind.literal ++ name ++ [quote]), rfl⟩
  have hstr : readStr nul (mem.drop ((cstr "include").length + 1)) =
      .ok (kind.literal ++ name ++ [quote]) := readStr_arg rfl hmem hnul
  unfold ssiDirective mgDoSsiInclude
  rw [if_pos hword, hstr, Buffer.ok_bind, scanName_literal hr.1 hr.2]
  dsimp only
  split
  · cases env.fopen (env.path ssi kind name) with
    | none => rfl
    | some content => rfl
  · rfl

/-- A tag gives what it stands for. -/
theorem ssiDirective_expand {tag : SsiTag} {f : Bytes → Template → Bytes}
    (hmem : mem.take (tag.text.length + 1) = tag.text ++ [0]) (hnul : nul ∉ tag.text)
    (hr : tag.Readable) (hs : tag.Short env) (hfiles : ∀ q, env.fopen q = files.fopen q)
    (hsend : ∀ q t, files.template q = some t → send q t.render = .ok (f q t)) :
    ssiDirective env send ssi mem = .ok (tag.expand env files f ssi) := by
  cases tag with
  | dInclude kind name =>
    rw [mgDoSsiInclude_name hmem hnul hr, if_pos (show name.length < env.maxPath from hs), hfiles]
    unfold SsiFiles.fopen SsiTag.expand
    dsimp only
    by_cases hssi : isSsi (env.path ssi kind name) = true
    · rw [if_pos hssi, if_pos hssi]
      cases htemplate : files.template (env.path ssi kind name) with
      | none => rfl
      | some t => exact (if_pos hssi).trans (hsend _ t htemplate)
    · rw [if_neg hssi, if_neg hssi]
      cases files.plain (env.path ssi kind name) with
      | none => rfl
      | some content => exact if_neg hssi
  | dCall arg =>
    have hword : mem.take (cstr "call").length = cstr "call" := by
      rw [take_mem_eq_iff hmem (by decide)]
      exact ⟨cstr " " ++ arg, rfl⟩
    have hnot : ¬ mem.take (cstr "include").length = cstr "include" := by
      rw [take_mem_eq_iff hmem (by decide)]
      intro ⟨r, hr⟩
      injection hr with hc
      exact absurd hc (by decide)
    have hstr : readStr nul (mem.drop ((cstr "call").length + 1)) = .ok arg :=
      readStr_arg rfl hmem hnul
    unfold ssiDirective
    rw [if_neg hnot, if_pos hword, hstr]
    rfl
  | unknown text =>
    unfold ssiDirective
    rw [if_neg (mt (take_mem_eq_iff hmem (by decide)).mp hr.1),
      if_neg (mt (take_mem_eq_iff hmem (by decide)).mp hr.2)]
    rfl

end

/-- Only the name of a file can be too long. -/
theorem SsiTag.not_short {tag : SsiTag} (h : ¬ tag.Short env) :
    ∃ kind name, tag = .dInclude kind name ∧ ¬ name.length < env.maxPath := by
  cases tag with
  | dInclude kind name => exact ⟨kind, name, rfl, h⟩
  | dCall arg => exact absurd trivial h
  | unknown text => exact absurd trivial h

/-- All names in a template fit into `file_name`. -/
def Template.Short (env : SsiEnv) (t : Template) : Prop := ∀ p ∈ t.pieces, p.tag.Short env

/-! ### An example -/

/-- A text without `<` has no tags. -/
theorem harmless_of_notMem (h : less ∉ bs) : Harmless bs := by
  intro pre s hbs
  refine absurd ?_ h
  rw [hbs]
  exact List.mem_append_right _ List.mem_cons_self

/-- A text that includes `b.shtml`. -/
def includesB : Template where
  head := cstr "one "
  pieces := [{ tag := .dInclude .file (cstr "b.shtml"), blanks := 1, behind := cstr " three" }]

/-- Every `.shtml` file is this text. -/
def allIncludeB : SsiFiles where
  template _ := some includesB
  plain _ := none

def smallEnv (maxPath : Nat) : SsiEnv where
  bufsiz := 256
  maxPath := maxPath
  documentRoot := cstr "./web-8000"
  fopen := allIncludeB.fopen
  strerror _ := cstr "No such file or directory"
  garbage _ := List.replicate 256 0
  bufsiz_le := Nat.le_refl 256
  garbage_length _ := List.length_replicate

theorem includesB_ok (maxPath : Nat) : includesB.Ok (smallEnv maxPath) where
  head := harmless_of_notMem (by decide)
  pieces := by
    intro p hp
    rw [List.mem_singleton.mp hp]
    exact {
      noLess := by decide
      noNul := by decide
      notClosed := fun x y h => absurd (h ▸ List.mem_append_right x List.mem_cons_self)
        (show greater ∉ _ by decide)
      noBlank := by decide
      readable := ⟨by decide, by decide⟩
      fits := by
        rw [length_opening]
        show 5 + 22 + 1 + 2 + 2 ≤ 256
        omega
      behind := harmless_of_notMem (by decide) }

/-- **What is sent is what the template stands for**, whatever the buffers hold when they are
entered, if all names are short enough. -/
theorem mgSendSsiFile_render (level : Nat) (calls : List Nat) (path : Bytes)
    (hfiles : ∀ q, env.fopen q = files.fopen q)
    (hok : ∀ q t, files.template q = some t → t.Ok env ∧ t.Short env) (ht : t.Ok env)
    (hs : t.Short env) :
    mgSendSsiFile env level calls path t.render = .ok (t.expand env files level path) := by
  induction level generalizing calls path t with
  | zero => rfl
  | succ level ih =>
    obtain ⟨evs, hevs, hshows⟩ := shows_render (env.garbage_length calls) ht.head ht.pieces
    unfold mgSendSsiFile Template.expand
    rw [show t.render = t.head ++ (t.pieces.map Piece.render).flatten from rfl, hevs,
      Buffer.ok_bind]
    refine hshows.perform 0 fun p hp i mem hmem => ?_
    have hpok := ht.pieces p hp
    exact ssiDirective_expand hmem hpok.noNul hpok.readable (hs p hp) hfiles fun q u hu =>
      ih (i :: calls) q (hok q u hu).1 (hok q u hu).2

/-- The file includes itself, down to the last level. -/
theorem mgSendSsiFile_render_b :
    mgSendSsiFile (smallEnv 4096) 11 [] (cstr "./web-8000/b.shtml") includesB.render =
      .ok (includesB.expand (smallEnv 4096) allIncludeB 11 (cstr "./web-8000/b.shtml")) := by
  have hshort : includesB.Short (smallEnv 4096) := by
    intro p hp
    rw [List.mem_singleton.mp hp]
    show 7 < 4096
    omega
  exact mgSendSsiFile_render 11 [] (cstr "./web-8000/b.shtml") (fun _ => rfl)
    (fun q t ht => by rw [← Option.some.inj ht]; exact ⟨includesB_ok 4096, hshort⟩)
    (includesB_ok 4096) hshort

/-- **A longer name leaves `file_name`**, although the tag has fitted into the buffer. -/
theorem long_name_overruns (level : Nat) (calls : List Nat) (path : Bytes) (ht : t.Ok env)
    (hlong : ¬ t.Short env) :
    mgSendSsiFile env (level + 1) calls path t.render = .error .overrun := by
  obtain ⟨evs, hevs, hshows⟩ := shows_render (env.garbage_length calls) ht.head ht.pieces
  obtain ⟨p, hp, hname⟩ : ∃ p ∈ t.pieces, ¬ p.tag.Short env := by
    simpa [Template.Short] using hlong
  unfold mgSendSsiFile
  rw [show t.render = t.head ++ (t.pieces.map Piece.render).flatten from rfl, hevs, Buffer.ok_bind]
  refine hshows.fails 0 ⟨p, hp, fun i mem hmem => ?_⟩
  obtain ⟨kind, name, htag, hlen⟩ := SsiTag.not_short hname
  have hnul := (ht.pieces p hp).noNul
  have hreadable := (ht.pieces p hp).readable
  rw [htag] at hmem hnul hreadable
  rw [mgDoSsiInclude_name hmem hnul hreadable, if_neg hlen]

theorem long_name_overruns_b :
    mgSendSsiFile (smallEnv 7) (10 + 1) [] (cstr "./web-8000/a.shtml") includesB.render =
      .error .overrun :=
  long_name_overruns 10 [] (cstr "./web-8000/a.shtml") (includesB_ok 7) fun hshort =>
    absurd (hshort _ (List.mem_singleton_self _)) (Nat.lt_irrefl 7)

end SimplestWeb.Mongoose
