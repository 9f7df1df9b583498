import SimplestWeb.Mongoose.LocalPath
import SimplestWeb.Mongoose.MatchPrefix

/-!
# How a request is answered

`mg_serve_http` (`mongoose.c`, line 8379) and `mg_send_http_file` (line 8267) decide what
is done about a request. `Answer` is that decision; a file, a CGI program or a listing in it
comes with its path.

* `mgServeHttpAnswer_below` — that path is below the document root, whatever the request is.
* `file_sent_iff` — a file is sent unless it is hidden; hidden files are sent to requests
  with the methods `PUT` and `MKCOL`.
* `cgi_iff` — which names are run as programs.

Mirroring notes:
- The options are the defaults that `mg_serve_http` fills in, but for the document root. There
  is no `auth_domain`, `global_auth_file`, `ip_acl` or `hidden_file_pattern`, so every request is
  authorized, and WebDAV is not compiled in.
- `stat` is what `mg_stat` says and `notModified` is `mg_is_not_modified`, for a path;
  `malloc` gives blocks.
- The path is normalized in the buffer before it is looked at (`hm->uri`).
-/

namespace SimplestWeb.Mongoose

open SimplestWeb.Lib
open SimplestWeb.Lib.Buffer (Overrun)

/-- The options in `struct mg_serve_http_opts` that decide something. -/
structure ServeOpts where
  documentRoot : Bytes := cstr "."
  indexFiles : Bytes := cstr "index.html,index.htm,index.shtml,index.cgi,index.php"
  perDirectoryAuthFile : Bytes := cstr ".htpasswd"
  enableDirectoryListing : Bytes := cstr "yes"
  cgiFilePattern : Bytes := cstr "**.cgi$|**.php$"
  deriving DecidableEq, Repr

/-- What is done about a request. -/
inductive Answer
  | moved
  | error (code : Nat)
  | cgi (path : Bytes)
  | options
  | listing (path : Bytes)
  | notModified
  | file (path : Bytes)
  deriving DecidableEq, Repr

/-- The values that `mg_next_comma_list_entry` takes from a list, one after the other. -/
def commaListEntries : Nat → Bytes → List Bytes
  | 0, _ => []
  | _ + 1, [] => []
  | fuel + 1, list =>
    let val := list.takeWhile (· ≠ comma)
    val :: commaListEntries fuel (list.drop (val.length + 1))

/-- `mg_find_index_file`. -/
def mgFindIndexFile (stat : Bytes → Option FileKind) (path list : Bytes) : Option Bytes :=
  ((commaListEntries list.length list).map fun val => path ++ slash :: val).find? fun file =>
    decide (stat file = some .regular)

/-- The last component of a path. -/
def baseName (path : Bytes) : Bytes := path.rtakeWhile (· ≠ slash)

/-- `mg_is_file_hidden`. -/
def mgIsFileHidden (opts : ServeOpts) (path : Bytes) (excludeSpecials : Bool) : Bool :=
  let path := baseName path
  (excludeSpecials && (decide (path = dot) || decide (path = dotdot))) ||
    decide (mgMatchPrefix opts.perDirectoryAuthFile path = opts.perDirectoryAuthFile.length)

/-- `mg_is_creation_request`. -/
def mgIsCreationRequest (hm : HttpMessage) : Bool :=
  decide (hm.method = cstr "MKCOL") || decide (hm.method = cstr "PUT")

/-- `mg_send_http_file`. -/
def mgSendHttpFile (opts : ServeOpts) (stat : Bytes → Option FileKind) (notModified : Bytes → Bool)
    (path pathInfo : Bytes) (hm : HttpMessage) : Answer :=
  let isDirectory := decide (stat path = some .directory)
  let indexFile := if isDirectory then mgFindIndexFile stat path opts.indexFiles else none
  let target := indexFile.getD path
  let isCgi := decide (0 < mgMatchPrefix opts.cgiFilePattern target)
  if isDirectory && decide (hm.uri.getLast? ≠ some slash) then .moved
  else if decide (pathInfo ≠ []) && !isCgi then .error 501
  else if isCgi then .cgi target
  else if ((stat path).isNone || mgIsFileHidden opts path false) && !mgIsCreationRequest hm then
    .error 404
  else if hm.method = cstr "OPTIONS" then .options
  else if isDirectory && indexFile.isNone then
    if opts.enableDirectoryListing = cstr "yes" then .listing path else .error 403
  else if notModified target then .notModified
  else .file target

/-- `mg_serve_http`. -/
def mgServeHttpAnswer (opts : ServeOpts) (stat : Bytes → Option FileKind)
    (notModified : Bytes → Bool) (malloc : Nat → Option Bytes) (hm : HttpMessage) :
    Except Overrun Answer :=
  match mgNormalizeUriPath hm.uri with
  | none => .ok (.error 400)
  | some (buf, len) => do
    let hm := { hm with uri := buf.take len }
    match ← mgUriToLocalPath stat opts.documentRoot hm.uri
        (malloc (opts.documentRoot.length + hm.uri.length + 1)) with
    | none => return .error 404
    | some (path, pathInfo) => return mgSendHttpFile opts stat notModified path pathInfo hm

/-- The path that is looked into for an answer. -/
def Answer.path : Answer → Option Bytes
  | .cgi path => some path
  | .listing path => some path
  | .file path => some path
  | _ => none

section

variable {opts : ServeOpts} {stat : Bytes → Option FileKind} {notModified : Bytes → Bool}
  {malloc : Nat → Option Bytes} {path pathInfo p root base : Bytes} {hm : HttpMessage}
  {st names : List Bytes}

/-! ## Below the document root -/

theorem mgFindIndexFile_some {file list : Bytes} (h : mgFindIndexFile stat path list = some file) :
    (∃ val ∈ commaListEntries list.length list, file = path ++ slash :: val) ∧
      stat file = some .regular := by
  have hmem := List.mem_of_find?_eq_some h
  have hreg := List.find?_some h
  obtain ⟨val, hval, rfl⟩ := List.mem_map.mp hmem
  exact ⟨⟨val, hval, rfl⟩, of_decide_eq_true hreg⟩

/-- An answer is about the path itself or an index file in it. -/
theorem mgSendHttpFile_path
    (h : (mgSendHttpFile opts stat notModified path pathInfo hm).path = some p) :
    p = path ∨ ∃ val ∈ commaListEntries opts.indexFiles.length opts.indexFiles,
      p = path ++ slash :: val := by
  unfold mgSendHttpFile at h
  dsimp only at h
  generalize hindex : (if decide (stat path = some .directory) = true then
    mgFindIndexFile stat path opts.indexFiles else none) = index at h
  have htarget : index.getD path = p → p = path ∨
      ∃ val ∈ commaListEntries opts.indexFiles.length opts.indexFiles, p = path ++ slash :: val := by
    intro hp
    cases index with
    | none => exact Or.inl hp.symm
    | some file =>
      obtain ⟨-, hfind⟩ := Option.ite_none_right_eq_some.mp hindex
      obtain ⟨val, hval, heq⟩ := (mgFindIndexFile_some hfind).1
      exact Or.inr ⟨val, hval, hp.symm.trans heq⟩
  -- the branches with a path in them are the CGI program, the listing and the file
  split at h
  · exact absurd h (by simp [Answer.path])
  · split at h
    · exact absurd h (by simp [Answer.path])
    · split at h
      · exact htarget (Option.some.inj h)
      · split at h
        · exact absurd h (by simp [Answer.path])
        · split at h
          · exact absurd h (by simp [Answer.path])
          · split at h
            · split at h
              · exact Or.inl (Option.some.inj h).symm
              · exact absurd h (by simp [Answer.path])
            · split at h
              · exact absurd h (by simp [Answer.path])
              · exact htarget (Option.some.inj h)

/-- **Below the document root.** For every request the code stays inside its buffers, and the
path it looks into for the answer consists of the document root and names below it. -/
theorem mgServeHttpAnswer_below (stat : Bytes → Option FileKind) (notModified : Bytes → Bool)
    (hm : HttpMessage)
    (hr : nul ∉ opts.documentRoot) (hmalloc : ∀ k block, malloc k = some block → block.length = k)
    (hindex : ∀ val ∈ commaListEntries opts.indexFiles.length opts.indexFiles, IsName val) :
    ∃ a, mgServeHttpAnswer opts stat notModified malloc hm = .ok a ∧
      ∀ p, a.path = some p →
        ∃ st, (∀ c ∈ st, IsName c) ∧ p = below (rootBase opts.documentRoot) st := by
  unfold mgServeHttpAnswer
  cases hnorm : mgNormalizeUriPath hm.uri with
  | none => exact ⟨_, rfl, fun p hp => absurd hp (by simp [Answer.path])⟩
  | some r =>
    obtain ⟨buf, len⟩ := r
    have hpath : normalPath hm.uri = some (buf.take len) := by
      unfold normalPath
      rw [hnorm]
      rfl
    have hhead : (buf.take len).head? = some slash := by
      obtain ⟨⟨dirs, last, hnormal⟩, -⟩ := (normalPath_normal hm.uri).2 _ hpath
      rw [hnormal.eq]
      rfl
    dsimp only
    cases hblock : malloc (opts.documentRoot.length + (buf.take len).length + 1) with
    | none => exact ⟨_, rfl, fun p hp => absurd hp (by simp [Answer.path])⟩
    | some block =>
      obtain ⟨r, hlocal, hfound⟩ := mgUriToLocalPath_below stat hr hhead
        (hmalloc _ _ hblock)
      rw [hlocal, Buffer.ok_bind]
      cases r with
      | none => exact ⟨_, rfl, fun p hp => absurd hp (by simp [Answer.path])⟩
      | some r =>
        obtain ⟨path, pathInfo⟩ := r
        obtain ⟨⟨st, hst, hpath⟩, -⟩ := hfound path pathInfo rfl
        refine ⟨_, rfl, fun p hp => ?_⟩
        -- the path itself, or an index file in the directory it leads to
        rcases mgSendHttpFile_path hp with heq | ⟨val, hval, heq⟩
        · exact ⟨st, hst, heq.trans hpath⟩
        · refine ⟨st ++ [val], ?_, ?_⟩
          · intro c hc
            rcases List.mem_append.mp hc with hc | hc
            · exact hst c hc
            · rw [List.mem_singleton.mp hc]
              exact hindex val hval
          · rw [below_concat, ← hpath]
            exact heq

instance : DecidablePred IsName := fun c =>
  decidable_of_iff (c ≠ [] ∧ slash ∉ c ∧ nul ∉ c ∧ c ≠ dot ∧ c ≠ dotdot)
    ⟨fun h => ⟨h.1, h.2.1, h.2.2.1, h.2.2.2.1, h.2.2.2.2⟩,
      fun h => ⟨h.nonempty, h.noSlash, h.noNul, h.notDot, h.notDotdot⟩⟩

/-- The index files that are looked for are names. -/
theorem indexFiles_names (root : Bytes) :
    ∀ val ∈ commaListEntries ({ documentRoot := root } : ServeOpts).indexFiles.length
      ({ documentRoot := root } : ServeOpts).indexFiles, IsName val := by
  show ∀ val ∈ commaListEntries (ServeOpts.indexFiles {}).length (ServeOpts.indexFiles {}), IsName val
  decide

/-! ## Which files are sent -/

theorem baseName_below {dirs : List Bytes} {name : Bytes} (h : slash ∉ name) :
    baseName (below base (dirs ++ [name])) = name := by
  have hrev : slash ∉ name.reverse := fun hmem => h (List.mem_reverse.mp hmem)
  unfold baseName List.rtakeWhile
  rw [below_concat, List.reverse_append, List.reverse_cons, List.append_assoc,
    List.singleton_append, Segments.takeWhile_ne_append hrev, List.reverse_reverse]

/-- Nothing in these matches anything but itself. -/
theorem isPlain_of_all {l : Bytes}
    (h : (l.all fun c => c != question && c != star && c != dollar) = true) : IsPlain l := by
  intro c hc
  have hall := List.all_eq_true.mp h c hc
  simpa [and_assoc] using hall

/-- A file is hidden when its name begins like the name of the password file. -/
theorem mgIsFileHidden_iff {dirs : List Bytes} {name : Bytes} (h : slash ∉ name) :
    mgIsFileHidden { documentRoot := root } (below base (dirs ++ [name])) false = true ↔
      cstr ".htpasswd" <+: lower name := by
  have hplain : IsPlain (cstr ".htpasswd") := isPlain_of_all (by decide)
  have hlower : lower (cstr ".htpasswd") = cstr ".htpasswd" := by decide
  unfold mgIsFileHidden
  dsimp only
  rw [baseName_below h, Bool.false_and, Bool.false_or, decide_eq_true_iff]
  show mgMatchPrefix (cstr ".htpasswd") name = (cstr ".htpasswd").length ↔ _
  rw [mgMatchPrefix_single (by decide) (by decide), matchGlob_plain hplain (by decide), hlower]

/-- A request for encoded names gets to the file with these names. -/
theorem mgServeHttpAnswer_encoded (notModified : Bytes → Bool)
    (hr : nul ∉ opts.documentRoot)
    (hmalloc : ∀ k, ∃ block, malloc k = some block ∧ block.length = k) (hne : names ≠ [])
    (hnames : ∀ c ∈ names, IsName c) (huri : hm.uri = encodedPath names)
    (hdirs : ∀ k < names.length,
      stat (below (rootBase opts.documentRoot) (names.take k)) ≠ some .regular) :
    mgServeHttpAnswer opts stat notModified malloc hm =
      .ok (mgSendHttpFile opts stat notModified (below (rootBase opts.documentRoot) names) [] hm) := by
  have hnorm := encodedPath_normal hne hnames
  rw [← huri] at hnorm
  obtain ⟨r, hr', hpath⟩ := Option.map_eq_some_iff.mp hnorm
  obtain ⟨buf, len⟩ := r
  dsimp only at hpath
  obtain ⟨block, hblock, hlen⟩ := hmalloc (opts.documentRoot.length + hm.uri.length + 1)
  have hcs : ∀ c ∈ names.map mgUrlEncode, slash ∉ c := by
    intro c hc
    obtain ⟨n, hn, rfl⟩ := List.mem_map.mp hc
    exact slash_notMem_encode (hnames n hn)
  have hfollow : follow stat (rootBase opts.documentRoot) (names.map mgUrlEncode) [] true =
      some (names, []) := follow_encode hnames hdirs
  have hlocal : mgUriToLocalPath stat opts.documentRoot hm.uri (some block) =
      .ok (some (below (rootBase opts.documentRoot) names, [])) := by
    rw [huri] at hlen ⊢
    unfold encodedPath at hlen ⊢
    rw [mgUriToLocalPath_eq hr hcs (by simpa using hne) hlen, hfollow]
    rfl
  unfold mgServeHttpAnswer
  rw [hr']
  dsimp only
  rw [hpath, hblock, hlocal]
  rfl

/-- What is done about a regular file that is not run as a program. -/
theorem mgSendHttpFile_regular (hfile : stat path = some .regular)
    (hcgi : mgMatchPrefix opts.cgiFilePattern path = 0) :
    mgSendHttpFile opts stat notModified path [] hm =
      if mgIsFileHidden opts path false && !mgIsCreationRequest hm then .error 404
      else if hm.method = cstr "OPTIONS" then .options
      else if notModified path then .notModified
      else .file path := by
  unfold mgSendHttpFile
  rw [hfile]
  simp [hcgi]

/-- **Which files are sent.** A regular file below the document root that is not run as a program
and has changed is sent to a request for its encoded name, unless its name begins like the
name of the password file; but then too if the method is `MKCOL` or `PUT`. -/
theorem file_sent_iff {dirs : List Bytes} {name : Bytes} (hr : nul ∉ root)
    (hmalloc : ∀ k, ∃ block, malloc k = some block ∧ block.length = k)
    (hnames : ∀ c ∈ dirs ++ [name], IsName c) (huri : hm.uri = encodedPath (dirs ++ [name]))
    (hdirs : ∀ k ≤ dirs.length, stat (below (rootBase root) (dirs.take k)) = some .directory)
    (hfile : stat (below (rootBase root) (dirs ++ [name])) = some .regular)
    (hcgi : mgMatchPrefix (cstr "**.cgi$|**.php$") (below (rootBase root) (dirs ++ [name])) = 0)
    (hmod : notModified (below (rootBase root) (dirs ++ [name])) = false)
    (hmethod : hm.method ≠ cstr "OPTIONS") :
    mgServeHttpAnswer { documentRoot := root } stat notModified malloc hm =
        .ok (.file (below (rootBase root) (dirs ++ [name]))) ↔
      ¬ cstr ".htpasswd" <+: lower name ∨ hm.method = cstr "MKCOL" ∨ hm.method = cstr "PUT" := by
  have hname := hnames name (by simp)
  have hdirs' : ∀ k < (dirs ++ [name]).length,
      stat (below (rootBase root) ((dirs ++ [name]).take k)) ≠ some .regular := by
    intro k hk
    rw [List.length_append, List.length_singleton] at hk
    rw [List.take_append_of_le_length (by omega), hdirs k (by omega)]
    simp
  have hanswer : mgServeHttpAnswer { documentRoot := root } stat notModified malloc hm = .ok _ :=
    mgServeHttpAnswer_encoded notModified hr hmalloc (by simp) hnames huri hdirs'
  have hhidden : mgIsFileHidden { documentRoot := root }
      (below (rootBase root) (dirs ++ [name])) false = true ↔ cstr ".htpasswd" <+: lower name :=
    mgIsFileHidden_iff hname.noSlash
  have hcreate : mgIsCreationRequest hm = true ↔
      hm.method = cstr "MKCOL" ∨ hm.method = cstr "PUT" := by
    unfold mgIsCreationRequest
    rw [Bool.or_eq_true, decide_eq_true_iff, decide_eq_true_iff]
  rw [hanswer, mgSendHttpFile_regular hfile hcgi, ← hhidden, ← hcreate, if_neg hmethod, hmod]
  cases mgIsFileHidden { documentRoot := root } (below (rootBase root) (dirs ++ [name])) false
  · simp
  · cases mgIsCreationRequest hm
    all_goals simp

theorem file_sent_iff_htpasswd :
    mgServeHttpAnswer { documentRoot := cstr "./web-8000" }
        (fun p => if p = cstr "./web-8000" then some .directory else some .regular) (fun _ => false)
        (fun k => some (List.replicate k 0))
        { messageLen := 0
          bodyLen := 0
          method := cstr "PUT"
          uri := encodedPath ([] ++ [cstr ".htpasswd"]) } =
        .ok (.file (below (rootBase (cstr "./web-8000")) ([] ++ [cstr ".htpasswd"]))) ↔
      ¬ cstr ".htpasswd" <+: lower (cstr ".htpasswd") ∨ cstr "PUT" = cstr "MKCOL" ∨
        cstr "PUT" = cstr "PUT" :=
  file_sent_iff (by decide) (fun k => ⟨_, rfl, List.length_replicate⟩)
    (fun c hc => by
      rw [List.mem_singleton.mp hc]
      decide) rfl
    (fun k hk => by
      obtain rfl : k = 0 := Nat.le_zero.mp hk
      rfl) rfl (by decide) rfl (by decide)

/-- The endings of the names that are run as programs. -/
def cgiEndings : List Bytes := [cstr ".cgi", cstr ".php"]

/-- **Which files are run.** Anything but a directory is run as a program when its path ends with
`.cgi` or `.php` in either case, or has such an ending and a `$` in it. -/
theorem cgi_iff (notModified : Bytes → Bool) (pathInfo : Bytes) (hm : HttpMessage)
    (hdir : stat path ≠ some .directory) :
    mgSendHttpFile { documentRoot := root } stat notModified path pathInfo hm = .cgi path ↔
      ∃ e ∈ cgiEndings, e <:+ lower path ∨ e ++ [dollar] <:+: lower path := by
  have hendings : ∀ e ∈ cgiEndings, IsPlain e ∧ e ≠ [] ∧ lower e = e ∧
      lower (e ++ [dollar]) = e ++ [dollar] := by
    intro e he
    rcases List.mem_cons.mp he with rfl | he
    · exact ⟨isPlain_of_all (by decide), by decide, by decide, by decide⟩
    · rw [List.mem_singleton.mp he]
      exact ⟨isPlain_of_all (by decide), by decide, by decide, by decide⟩
  have hpattern : 0 < mgMatchPrefix (cstr "**.cgi$|**.php$") path ↔
      ∃ e ∈ cgiEndings, lower e <:+ lower path ∨ lower (e ++ [dollar]) <:+: lower path :=
    mgMatchPrefix_endings (by decide) (fun e he => ⟨(hendings e he).1, (hendings e he).2.1⟩) path
  have hcgi : (mgSendHttpFile { documentRoot := root } stat notModified path pathInfo hm =
      .cgi path) ↔ 0 < mgMatchPrefix (cstr "**.cgi$|**.php$") path := by
    unfold mgSendHttpFile
    dsimp only
    rw [decide_eq_false hdir, if_neg Bool.false_ne_true, Bool.false_and, if_neg Bool.false_ne_true]
    by_cases hpos : 0 < mgMatchPrefix (cstr "**.cgi$|**.php$") path
    · simp [hpos]
    · -- the answers behind the test are others
      have hzero : mgMatchPrefix (cstr "**.cgi$|**.php$") path = 0 := by omega
      simp only [Option.getD_none, hzero]
      refine ⟨fun h => ?_, fun h => absurd h (Nat.lt_irrefl 0)⟩
      split at h
      · exact absurd h (by simp)
      · split at h
        next hlt => exact absurd (of_decide_eq_true hlt) (Nat.lt_irrefl 0)
        · split at h
          · exact absurd h (by simp)
          · split at h
            · exact absurd h (by simp)
            · split at h
              · exact absurd ‹_› (by simp)
              · split at h
                · exact absurd h (by simp)
                · exact absurd h (by simp)
  rw [hcgi, hpattern]
  refine exists_congr fun e => and_congr_right fun he => ?_
  rw [(hendings e he).2.2.1, (hendings e he).2.2.2]

theorem cgi_iff_php :
    mgSendHttpFile { documentRoot := cstr "./web-8000" } (fun _ => none) (fun _ => false)
        (cstr "./web-8000/a.php$") [] { messageLen := 0, bodyLen := 0 } =
        .cgi (cstr "./web-8000/a.php$") ↔
      ∃ e ∈ cgiEndings, e <:+ lower (cstr "./web-8000/a.php$") ∨
        e ++ [dollar] <:+: lower (cstr "./web-8000/a.php$") :=
  cgi_iff (fun _ => false) [] { messageLen := 0, bodyLen := 0 } (by decide)

end

end SimplestWeb.Mongoose
