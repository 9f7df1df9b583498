import SimplestWeb.Mongoose.HttpMessage
import Mathlib.Data.List.TakeWhile

/-!
# Requests

A `Request` is what a client means to send, with the conditions under which it
can be told from the bytes; `Request.render` writes it down. The parser gives
back every part of it, whatever follows in the buffer (`mgParseHttp_render`).

What `mg_parse_http` makes of `Content-Length` is in `Request.message`: the last
header whose name starts like that counts, and a negative value wraps around.
-/

namespace SimplestWeb.Mongoose

variable {s t w delims : Bytes} {b : UInt8} {i : Nat}

/-! ## What a client writes -/

def crlf : Bytes := [cr, lf]

/-- A byte that may stand in a line. -/
def isText (b : UInt8) : Bool := isprint b || decide (128 ≤ b)

/-- Text without the bytes in `delims`. -/
def IsWord (delims w : Bytes) : Prop := w ≠ [] ∧ ∀ b ∈ w, isText b = true ∧ b ∉ delims

instance : DecidablePred (IsWord delims) := fun w =>
  decidable_of_iff (w ≠ [] ∧ (w.all fun b => isText b && !delims.contains b) = true) <| by
    unfold IsWord
    simp [List.all_eq_true]

/-- A header line. -/
structure Header where
  name : Bytes
  value : Bytes
  name_word : IsWord (cstr ": ") name
  value_word : IsWord [] value
  /-- a value starts behind the blanks and colons, and its own blanks at the end are cut off -/
  value_head : ∀ b ∈ value.head?, b ∉ cstr ": "
  value_last : value.getLast? ≠ some space

def Header.line (h : Header) : Bytes := h.name ++ cstr ": " ++ h.value

/-- A request, without its body. -/
structure Request where
  method : Bytes
  path : Bytes
  query : Bytes
  proto : Bytes
  headers : List Header
  method_word : IsWord (cstr " ") method
  path_word : IsWord (cstr " ?") path
  query_text : ∀ b ∈ query, isText b = true ∧ b ∉ cstr " "
  proto_word : IsWord (cstr " ") proto
  headers_short : headers.length < MG_MAX_HTTP_HEADERS

namespace Request

/-- The path, and the query string if there is one. -/
def uri (r : Request) : Bytes :=
  if r.query = [] then r.path else r.path ++ cstr "?" ++ r.query

def startLine (r : Request) : Bytes := r.method ++ cstr " " ++ r.uri ++ cstr " " ++ r.proto

end Request

/-- Lines, each ended by CR LF, and an empty one. -/
def block (lines : List Bytes) : Bytes := (lines.map (· ++ crlf)).flatten ++ crlf

/-- The bytes of a request up to its body. -/
def Request.render (r : Request) : Bytes := block (r.startLine :: r.headers.map Header.line)

/-! ## What the parser makes of it -/

/-- What a header says about the length of the body: its name only has to start
with `Content-Length`. -/
def Header.length (h : Header) : Option Nat :=
  if ncaseEq h.name (cstr "Content-Length") then some (toSize (to64 h.value)) else none

/-- The last header that says something counts. -/
def contentLength : List Header → Option Nat
  | [] => none
  | h :: hs => (contentLength hs).or h.length

/-- The length of the body, if it was given. -/
def Request.contentLength (r : Request) : Option Nat := Mongoose.contentLength r.headers

/-- A request that may come without `Content-Length` and still have a body. -/
def Request.putOrPost (r : Request) : Bool :=
  vcaseEq r.method (cstr "PUT") || vcaseEq r.method (cstr "POST")

/-- The message, where the header part is `len` bytes long. -/
def Request.message (r : Request) : HttpMessage :=
  let len := r.render.length
  { messageLen := if r.contentLength.getD sizeMax = sizeMax && !r.putOrPost then len
      else (r.contentLength.map fun n => (len + n) % 2 ^ 64).getD sizeMax
    bodyLen := if r.contentLength.getD sizeMax = sizeMax && !r.putOrPost then 0
      else r.contentLength.getD sizeMax
    method := r.method
    uri := r.path
    proto := r.proto
    queryString := r.query
    headers := r.headers.map fun h => (h.name, h.value) }

/-! ## The end of the header part -/

/-- Text has no NUL and no ends of lines. -/
theorem isText.ne (h : isText b = true) : b ≠ 0 ∧ b ≠ cr ∧ b ≠ lf := by
  refine ⟨?_, ?_, ?_⟩ <;> rintro rfl <;> cases h

/-- The only blank in it is the space. -/
theorem isText.not_space (h : isText b = true) (h32 : b ≠ 32) : isspace b = false := by
  unfold isText isprint at h
  unfold isspace
  rw [Bool.or_eq_true, decide_eq_true_iff, decide_eq_true_iff, UInt8.le_iff_toNat_le,
    UInt8.le_iff_toNat_le] at h
  rw [decide_eq_false_iff_not, UInt8.le_iff_toNat_le, UInt8.le_iff_toNat_le]
  rintro (h32' | ⟨h9, h13⟩)
  · exact h32 h32'
  · have h13' : b.toNat ≤ 13 := h13
    rcases h with ⟨hle, -⟩ | hle
    · have hle' : 32 ≤ b.toNat := hle
      omega
    · have hle' : 128 ≤ b.toNat := UInt8.le_iff_toNat_le.mp hle
      omega

/-- A byte of a line is passed over. -/
theorem mgHttpGetRequestLen_cons (h : isText b = true ∨ b = cr) :
    mgHttpGetRequestLen i (b :: s) = mgHttpGetRequestLen (i + 1) s := by
  have hlf : b ≠ lf := by
    rcases h with h | rfl
    · exact (isText.ne h).2.2
    · decide
  have hok : (!isprint b && b != cr && b != lf && decide (b < 128)) ≠ true := by
    intro hbad
    simp only [Bool.and_eq_true, Bool.not_eq_true', bne_iff_ne, decide_eq_true_iff] at hbad
    obtain ⟨⟨⟨hprint, hcr⟩, -⟩, hlt⟩ := hbad
    rcases h with h | rfl
    · unfold isText at h
      rw [hprint, Bool.false_or, decide_eq_true_iff] at h
      exact absurd hlt (UInt8.not_lt.mpr h)
    · exact hcr rfl
  have hne : (b == lf) = false := beq_false_of_ne hlf
  rw [mgHttpGetRequestLen, if_neg hok, hne]
  rfl

/-- … and so is a line. -/
theorem mgHttpGetRequestLen_line (h : ∀ b ∈ w, isText b = true) :
    mgHttpGetRequestLen i (w ++ s) = mgHttpGetRequestLen (i + w.length) s := by
  induction w generalizing i with
  | nil => rfl
  | cons b w ih =>
    rw [List.cons_append, mgHttpGetRequestLen_cons (Or.inl (h b List.mem_cons_self)),
      ih fun b hb => h b (List.mem_cons_of_mem _ hb), List.length_cons]
    congr 1
    omega

/-- The first line of a block. -/
theorem block_cons (l : Bytes) (lines : List Bytes) :
    block (l :: lines) = l ++ cr :: lf :: block lines := by
  unfold block
  rw [List.map_cons, List.flatten_cons, List.append_assoc, List.append_assoc]
  rfl

theorem length_lt_block (lines : List Bytes) : lines.length < (block lines).length := by
  induction lines with
  | nil => decide
  | cons l lines ih =>
    rw [block_cons, List.length_append, List.length_cons, List.length_cons, List.length_cons]
    omega

/-- A line end in front of the next line. -/
theorem mgHttpGetRequestLen_crlf (h : isText b = true) :
    mgHttpGetRequestLen i (cr :: lf :: b :: s) = mgHttpGetRequestLen (i + 2) (b :: s) := by
  obtain ⟨-, hcr, hlf⟩ := isText.ne h
  rw [mgHttpGetRequestLen_cons (Or.inr rfl), mgHttpGetRequestLen]
  rw [if_neg (by decide), if_neg (by simp [hlf]), if_neg (by simp [hcr])]

/-- The header part ends with the empty line. -/
theorem mgHttpGetRequestLen_block (t : Bytes) {l : Bytes} {lines : List Bytes}
    (h : ∀ w ∈ l :: lines, IsWord [] w) :
    mgHttpGetRequestLen i (block (l :: lines) ++ t) =
      .complete (i + (block (l :: lines)).length) () := by
  induction lines generalizing i l with
  | nil =>
    have hl := h l List.mem_cons_self
    have hend : mgHttpGetRequestLen (i + l.length) (cr :: lf :: cr :: lf :: t) =
        .complete (i + l.length + 4) () := by
      rw [mgHttpGetRequestLen_cons (Or.inr rfl)]
      rfl
    rw [block_cons, List.append_assoc, mgHttpGetRequestLen_line fun b hb => (hl.2 b hb).1]
    show mgHttpGetRequestLen _ (cr :: lf :: cr :: lf :: t) = _
    rw [hend, List.length_append, Nat.add_assoc]
    rfl
  | cons l' lines ih =>
    have hl := h l List.mem_cons_self
    have ih := ih (i := i + l.length + 2) fun w hw => h w (List.mem_cons_of_mem _ hw)
    obtain ⟨b, w, rfl⟩ := List.exists_cons_of_ne_nil (h l' (by simp)).1
    have hb : isText b = true := ((h (b :: w) (by simp)).2 b List.mem_cons_self).1
    rw [block_cons, List.append_assoc, mgHttpGetRequestLen_line fun b hb => (hl.2 b hb).1]
    rw [block_cons] at ih ⊢
    show mgHttpGetRequestLen _ (cr :: lf :: b :: _) = _
    rw [mgHttpGetRequestLen_crlf hb]
    refine Eq.trans ih ?_
    congr 1
    simp only [List.length_append, List.length_cons]
    omega

/-! ## Words -/

/-- A delimiter of `mg_skip`. -/
def isDelim (delims : Bytes) (b : UInt8) : Bool := delims.contains b || b == 0

/-- A run of bytes stops at the first that does not belong to it … -/
theorem takeWhile_stop {p : UInt8 → Bool} (h : p b = false) :
    (s ++ b :: t).takeWhile p = s.takeWhile p := by
  induction s with
  | nil =>
    rw [List.nil_append, List.takeWhile_cons_of_neg (by simp [h])]
    rfl
  | cons c s ih =>
    rw [List.cons_append, List.takeWhile_cons, List.takeWhile_cons, ih]

/-- … and what is left starts with it. -/
theorem dropWhile_stop {p : UInt8 → Bool} (h : ∀ b ∈ s, p b = true)
    (ht : ∀ b ∈ t.head?, p b = false) :
    (s ++ t).dropWhile p = t := by
  rw [List.dropWhile_append_of_pos h]
  cases t with
  | nil => rfl
  | cons b t =>
    rw [List.dropWhile_cons_of_neg]
    rw [ht b rfl]
    decide

/-- `mg_skip` over a word and the delimiters behind it. -/
theorem mgSkip_word (sep : Bytes) (hw : ∀ b ∈ w, isDelim delims b = false)
    (hb : isDelim delims b = true)
    (hd : sep.all (isDelim delims) = true) (ht : ∀ b ∈ t.head?, isDelim delims b = false) :
    mgSkip (w ++ b :: (sep ++ t)) delims = (w, t) := by
  have hw' : ∀ b ∈ w, (!isDelim delims b) = true := by
    intro b hb
    rw [hw b hb]
    rfl
  have hb' : (!isDelim delims b) = false := by
    rw [hb]
    rfl
  have htake : (w ++ b :: (sep ++ t)).takeWhile (fun b => !isDelim delims b) = w := by
    rw [takeWhile_stop hb']
    exact List.takeWhile_eq_self_iff.mpr hw'
  have hdrop : (w ++ b :: (sep ++ t)).dropWhile (fun b => !isDelim delims b) = b :: sep ++ t := by
    refine dropWhile_stop hw' ?_
    intro c hc
    rw [← Option.some.inj hc]
    exact hb'
  unfold mgSkip
  show ((w ++ b :: (sep ++ t)).takeWhile (fun b => !isDelim delims b),
    ((w ++ b :: (sep ++ t)).dropWhile (fun b => !isDelim delims b)).dropWhile (isDelim delims)) = _
  rw [htake, hdrop, dropWhile_stop ?_ ht]
  intro c hc
  rcases List.mem_cons.mp hc with rfl | hc
  · exact hb
  · exact List.all_eq_true.mp hd c hc

theorem isText.not_delim (h : isText b = true) (hb : b ∉ delims) : isDelim delims b = false := by
  unfold isDelim
  rw [Bool.or_eq_false_iff, List.contains_eq_mem, decide_eq_false_iff_not, beq_eq_false_iff_ne]
  exact ⟨hb, (isText.ne h).1⟩

/-- No byte of a word ends it. -/
theorem IsWord.not_delim (h : IsWord delims w) : ∀ b ∈ w, isDelim delims b = false := by
  intro b hb
  exact (h.2 b hb).1 |> fun ht => isText.not_delim ht (h.2 b hb).2

theorem IsWord.head (h : IsWord delims w) (s : Bytes) :
    ∀ b ∈ (w ++ s).head?, isDelim delims b = false := by
  obtain ⟨c, w, rfl⟩ := List.exists_cons_of_ne_nil h.1
  intro b hb
  rw [← Option.some.inj hb]
  exact h.not_delim c List.mem_cons_self

/-! ## Lines -/

/-- What `mg_skip` leaves behind the end of a line: it takes the empty line with it. -/
def unread (lines : List Bytes) : Bytes := if lines = [] then [] else block lines

/-- A block that starts with a line starts with no end of a line. -/
theorem IsWord.block_head {l : Bytes} (h : IsWord [] l) (lines : List Bytes) :
    ∀ b ∈ (block (l :: lines)).head?, isDelim (cstr "\r\n") b = false := by
  obtain ⟨c, w, rfl⟩ := List.exists_cons_of_ne_nil h.1
  intro b hb
  rw [block_cons] at hb
  obtain rfl := Option.some.inj hb
  have ht := (h.2 c List.mem_cons_self).1
  obtain ⟨-, hcr, hlf⟩ := isText.ne ht
  refine isText.not_delim ht ?_
  intro hmem
  rcases List.mem_pair.mp hmem with rfl | rfl
  · exact hcr rfl
  · exact hlf rfl

/-- `mg_skip` to the next line. -/
theorem mgSkip_line {lines : List Bytes} (hw : ∀ b ∈ w, isText b = true)
    (hl : ∀ l ∈ lines, IsWord [] l) :
    mgSkip (w ++ cr :: lf :: block lines) (cstr "\r\n") = (w, unread lines) := by
  have hw' : ∀ b ∈ w, isDelim (cstr "\r\n") b = false := by
    intro b hb
    obtain ⟨-, hcr, hlf⟩ := isText.ne (hw b hb)
    refine isText.not_delim (hw b hb) ?_
    intro hmem
    rcases List.mem_pair.mp hmem with rfl | rfl
    · exact hcr rfl
    · exact hlf rfl
  cases lines with
  | nil => exact mgSkip_word (t := []) [lf, cr, lf] hw' (by decide) (by decide) (by simp)
  | cons l lines =>
    have hhead := (hl l List.mem_cons_self).block_head lines
    exact mgSkip_word [lf] hw' (by decide) (by decide) hhead

/-- A header line has no ends of lines in it. -/
theorem Header.line_word (h : Header) : IsWord [] h.line := by
  unfold Header.line
  refine ⟨by simp [h.name_word.1], ?_⟩
  intro b hb
  refine ⟨?_, List.not_mem_nil⟩
  rw [List.mem_append, List.mem_append] at hb
  rcases hb with (hb | hb) | hb
  · exact (h.name_word.2 b hb).1
  · have htext : (cstr ": ").all isText = true := by decide
    exact List.all_eq_true.mp htext b hb
  · exact (h.value_word.2 b hb).1

/-! ## The start line -/

namespace Request

variable (r : Request)

/-- There are no blanks in a URI. -/
theorem uri_word : IsWord (cstr " ") r.uri := by
  have hpath : ∀ b ∈ r.path, isText b = true ∧ b ∉ cstr " " := by
    intro b hb
    obtain ⟨ht, hn⟩ := r.path_word.2 b hb
    refine ⟨ht, ?_⟩
    intro hs
    exact hn (List.mem_append_left [63] hs)
  unfold uri
  split
  next => exact ⟨r.path_word.1, hpath⟩
  next =>
    refine ⟨by simp [r.path_word.1], ?_⟩
    intro b hb
    rw [List.mem_append, List.mem_append] at hb
    rcases hb with (hb | hb) | hb
    · exact hpath b hb
    · rw [List.mem_singleton.mp hb]
      exact ⟨by decide, by decide⟩
    · exact r.query_text b hb

/-- The query string is split off the URI. -/
theorem uri_split : r.uri.takeWhile (fun b => b != 63) = r.path ∧
    (r.uri.dropWhile fun b => b != 63).drop 1 = r.query := by
  have hpath : ∀ b ∈ r.path, (b != 63) = true := by
    intro b hb
    rw [bne_iff_ne]
    rintro rfl
    exact (r.path_word.2 63 hb).2 (by decide)
  unfold uri
  split
  next hq =>
    rw [List.takeWhile_eq_self_iff.mpr hpath, List.dropWhile_eq_nil_iff.mpr hpath, hq]
    exact ⟨rfl, rfl⟩
  next =>
    rw [List.append_assoc]
    refine ⟨?_, ?_⟩
    · refine Eq.trans (takeWhile_stop (b := 63) (by decide)) ?_
      exact List.takeWhile_eq_self_iff.mpr hpath
    · rw [dropWhile_stop hpath (t := cstr "?" ++ r.query)]
      · rfl
      · intro b hb
        rw [← Option.some.inj hb]
        decide

/-- The first line has no ends of lines in it. -/
theorem startLine_word : IsWord [] r.startLine := by
  unfold startLine
  refine ⟨by simp [r.method_word.1], ?_⟩
  intro b hb
  refine ⟨?_, List.not_mem_nil⟩
  simp only [List.mem_append] at hb
  have hspace : (cstr " ").all isText = true := by decide
  rcases hb with (((hb | hb) | hb) | hb) | hb
  · exact (r.method_word.2 b hb).1
  · exact List.all_eq_true.mp hspace b hb
  · exact (r.uri_word.2 b hb).1
  · exact List.all_eq_true.mp hspace b hb
  · exact (r.proto_word.2 b hb).1

/-- A word, the space behind it and the next word. -/
theorem mgSkip_space {w s : Bytes} (hw : IsWord (cstr " ") w)
    (hs : ∀ b ∈ s.head?, isDelim (cstr " ") b = false) :
    mgSkip (w ++ 32 :: s) (cstr " ") = (w, s) :=
  mgSkip_word [] hw.not_delim (by decide) rfl hs

/-- The first line is parsed into its words. -/
theorem requestLine_render (hm : HttpMessage) :
    requestLine r.render hm =
      some ({ hm with method := r.method, uri := r.path, queryString := r.query, proto := r.proto },
        unread (r.headers.map Header.line)) := by
  have hrender : r.render = r.method ++ 32 :: (r.uri ++ 32 ::
      (r.proto ++ cr :: lf :: block (r.headers.map Header.line))) := by
    unfold render startLine
    rw [block_cons]
    simp only [List.append_assoc]
    rfl
  have h₁ := mgSkip_space r.method_word (r.uri_word.head (32 :: (r.proto ++ cr :: lf ::
    block (r.headers.map Header.line))))
  have h₂ := mgSkip_space r.uri_word (r.proto_word.head (cr :: lf ::
    block (r.headers.map Header.line)))
  have h₃ : mgSkip (r.proto ++ cr :: lf :: block (r.headers.map Header.line)) (cstr "\r\n") =
      (r.proto, unread (r.headers.map Header.line)) := by
    refine mgSkip_line (fun b hb => (r.proto_word.2 b hb).1) ?_
    intro l hl
    obtain ⟨h, -, rfl⟩ := List.mem_map.mp hl
    exact h.line_word
  unfold requestLine
  rw [hrender, h₁]
  dsimp only
  rw [h₂]
  dsimp only
  rw [h₃]
  dsimp only
  rw [r.uri_split.1, r.uri_split.2, if_neg]
  simp only [List.length_append, List.length_cons, Bool.or_eq_true, decide_eq_true_iff]
  omega

/-- No blanks are skipped in front of the method. -/
theorem render_dropWhile : r.render.dropWhile isspace = r.render := by
  obtain ⟨b, w, hm⟩ := List.exists_cons_of_ne_nil r.method_word.1
  have hb := r.method_word.2 b (by rw [hm]; exact List.mem_cons_self)
  have hspace := isText.not_space hb.1 fun h32 => hb.2 (by rw [h32]; decide)
  unfold render startLine
  rw [block_cons, hm]
  exact List.dropWhile_cons_of_neg (by simp [hspace])

end Request

/-! ## The headers -/

/-- The comparison looks at the name alone: a buffer with a shorter name has a colon
where the text has none. -/
theorem ncaseEq_name (h : Header) (s : Bytes) :
    ncaseEq (h.name ++ 58 :: s) (cstr "Content-Length") = ncaseEq h.name (cstr "Content-Length") := by
  unfold ncaseEq
  by_cases hlen : (cstr "Content-Length").length ≤ h.name.length
  · rw [List.take_append_of_le_length hlen]
  · have hshort : ((h.name.take (cstr "Content-Length").length).map tolower ==
        (cstr "Content-Length").map tolower) = false := by
      rw [beq_eq_false_iff_ne]
      intro heq
      have := congrArg List.length heq
      rw [List.length_map, List.length_map, List.length_take] at this
      omega
    have hcolon : ((h.name ++ 58 :: s).take (cstr "Content-Length").length).map tolower ≠
        (cstr "Content-Length").map tolower := by
      intro heq
      obtain ⟨k, hk⟩ : ∃ k, (cstr "Content-Length").length = h.name.length + (k + 1) :=
        ⟨(cstr "Content-Length").length - h.name.length - 1, by omega⟩
      have hmem : (58 : UInt8) ∈ (cstr "Content-Length").map tolower := by
        rw [← heq, hk, List.take_length_add_append, List.take_succ_cons]
        exact List.mem_map.mpr ⟨58, by simp, by decide⟩
      exact absurd hmem (by decide)
    rw [hshort, beq_eq_false_iff_ne]
    exact hcolon

theorem Header.value_eq_cons (h : Header) :
    ∃ b v, h.value = b :: v ∧ isText b = true ∧ b ∉ cstr ": " := by
  obtain ⟨b, v, hv⟩ := List.exists_cons_of_ne_nil h.value_word.1
  refine ⟨b, v, hv, (h.value_word.2 b (by rw [hv]; simp)).1, ?_⟩
  exact h.value_head b (by rw [hv]; rfl)

/-- `strtoll` stops at the end of the line. -/
theorem to64_value (h : Header) (s : Bytes) : to64 (h.value ++ cr :: s) = to64 h.value := by
  obtain ⟨b, v, hv, ht, hb⟩ := h.value_eq_cons
  have hspace := isText.not_space ht fun h32 => hb (by rw [h32]; decide)
  have hdigits : ∀ c : Bool,
      (if c = true then (b :: (v ++ cr :: s)).drop 1 else b :: (v ++ cr :: s)).takeWhile isdigit =
        (if c = true then (b :: v).drop 1 else b :: v).takeWhile isdigit := by
    intro c
    cases c with
    | true => exact takeWhile_stop (by decide)
    | false => exact takeWhile_stop (s := b :: v) (by decide)
  rw [hv]
  unfold to64
  rw [List.cons_append, List.dropWhile_cons_of_neg (by simp [hspace]),
    List.dropWhile_cons_of_neg (by simp [hspace])]
  dsimp only
  rw [hdigits]
  rfl

/-- A value has no blanks at its end to be cut off. -/
theorem trimValue_value (h : Header) : trimValue h.value = h.value := by
  unfold trimValue
  have hlast : h.value.reverse.dropWhile (· == space) = h.value.reverse := by
    cases hr : h.value.reverse with
    | nil => rfl
    | cons b v =>
      refine List.dropWhile_cons_of_neg ?_
      intro hb
      refine h.value_last ?_
      rw [← List.head?_reverse, hr, eq_of_beq hb]
      rfl
  rw [hlast, List.reverse_reverse]

/-- A header is stored. -/
def addHeader (len : Nat) (req : HttpMessage) (h : Header) : HttpMessage :=
  { req with
    bodyLen := h.length.getD req.bodyLen
    messageLen := (h.length.map fun n => (len + n) % 2 ^ 64).getD req.messageLen
    headers := req.headers ++ [(h.name, h.value)] }

/-- One header line is read, and the others are left. -/
theorem mgHttpParseHeaders_cons {len fuel : Nat} {req : HttpMessage} {h : Header}
    {lines : List Bytes} (hl : ∀ l ∈ lines, IsWord [] l)
    (hmax : req.headers.length < MG_MAX_HTTP_HEADERS - 1) :
    mgHttpParseHeaders len (fuel + 1) (block (h.line :: lines)) req =
      mgHttpParseHeaders len fuel (unread lines) (addHeader len req h) := by
  have hblock : block (h.line :: lines) =
      h.name ++ 58 :: ([32] ++ (h.value ++ cr :: lf :: block lines)) := by
    rw [block_cons]
    unfold Header.line
    simp only [List.append_assoc]
    rfl
  have hvhead : ∀ b ∈ (h.value ++ cr :: lf :: block lines).head?, isDelim (cstr ": ") b = false := by
    obtain ⟨b, v, hv, ht, hb⟩ := h.value_eq_cons
    rw [hv]
    intro c hc
    rw [← Option.some.inj hc]
    exact isText.not_delim ht hb
  have hk : mgSkip (block (h.line :: lines)) (cstr ": ") =
      (h.name, h.value ++ cr :: lf :: block lines) := by
    rw [hblock]
    exact mgSkip_word [32] h.name_word.not_delim (by decide) (by decide) hvhead
  have hv := mgSkip_line (w := h.value) (fun b hb => (h.value_word.2 b hb).1) hl
  -- the name is compared with the buffer, which goes on behind it
  have hcl : ncaseEq (block (h.line :: lines)) (cstr "Content-Length") =
      ncaseEq h.name (cstr "Content-Length") := by
    rw [hblock]
    exact ncaseEq_name h _
  have hname : h.name.isEmpty = false := by
    rw [List.isEmpty_eq_false_iff]
    exact h.name_word.1
  have hvalue : h.value.isEmpty = false := by
    rw [List.isEmpty_eq_false_iff]
    exact h.value_word.1
  rw [mgHttpParseHeaders, if_pos hmax, hk]
  dsimp only
  rw [hv]
  dsimp only
  rw [trimValue_value, hcl, to64_value, hname, hvalue, if_neg (by decide), if_neg (by decide)]
  unfold addHeader Header.length
  split
  next => rfl
  next => rfl

theorem mgHttpParseHeaders_nil {len fuel : Nat} {req : HttpMessage} :
    mgHttpParseHeaders len fuel [] req = req := by
  cases fuel with
  | zero => rfl
  | succ fuel =>
    rw [mgHttpParseHeaders]
    split
    next => rfl
    next => rfl

/-- All headers are stored, and the last length counts. -/
theorem mgHttpParseHeaders_render {len : Nat} {hs : List Header} :
    ∀ {fuel : Nat} {req : HttpMessage}, hs.length < fuel →
      req.headers.length + hs.length < MG_MAX_HTTP_HEADERS →
      mgHttpParseHeaders len fuel (unread (hs.map Header.line)) req =
        { req with
          bodyLen := (contentLength hs).getD req.bodyLen
          messageLen := ((contentLength hs).map fun n => (len + n) % 2 ^ 64).getD req.messageLen
          headers := req.headers ++ hs.map fun h => (h.name, h.value) } := by
  induction hs with
  | nil =>
    intro fuel req _ _
    show mgHttpParseHeaders len fuel [] req = _
    rw [mgHttpParseHeaders_nil, List.map_nil, List.append_nil]
    rfl
  | cons h hs ih =>
    intro fuel req hf hmax
    rw [List.length_cons] at hf hmax
    obtain ⟨fuel, rfl⟩ : ∃ k, fuel = k + 1 := ⟨fuel - 1, by omega⟩
    have hl : ∀ l ∈ hs.map Header.line, IsWord [] l := by
      intro l hl
      obtain ⟨h, -, rfl⟩ := List.mem_map.mp hl
      exact h.line_word
    have hlen : (addHeader len req h).headers.length + hs.length < MG_MAX_HTTP_HEADERS := by
      unfold addHeader
      rw [List.length_append, List.length_singleton]
      omega
    show mgHttpParseHeaders len (fuel + 1) (block (h.line :: hs.map Header.line)) req = _
    rw [mgHttpParseHeaders_cons hl (by omega), ih (by omega) hlen]
    rw [show contentLength (h :: hs) = (contentLength hs).or h.length from rfl]
    unfold addHeader
    -- the lengths: those of `hs` come first
    cases contentLength hs with
    | none => simp
    | some n => simp

/-- **A request is read as it was written**, whatever is buffered behind it. -/
theorem mgParseHttp_render (r : Request) (t : Bytes) :
    mgParseHttp (r.render ++ t) true = .complete r.render.length r.message := by
  have hlines : ∀ w ∈ r.startLine :: r.headers.map Header.line, IsWord [] w := by
    intro w hw
    rcases List.mem_cons.mp hw with rfl | hw
    · exact r.startLine_word
    · obtain ⟨h, -, rfl⟩ := List.mem_map.mp hw
      exact h.line_word
  have hlen : mgHttpGetRequestLen 0 (r.render ++ t) = .complete r.render.length () := by
    have := mgHttpGetRequestLen_block t hlines (i := 0)
    rwa [Nat.zero_add] at this
  have hdrop : ((r.render ++ t).take r.render.length).dropWhile isspace = r.render := by
    rw [List.take_left]
    exact r.render_dropWhile
  -- every header takes at least a byte
  have hfuel : r.headers.length < (unread (r.headers.map Header.line)).length + 1 := by
    unfold unread
    split
    next hnil => rw [List.map_eq_nil_iff.mp hnil, List.length_nil]; omega
    next =>
      have := length_lt_block (r.headers.map Header.line)
      rw [List.length_map] at this
      omega
  unfold mgParseHttp
  rw [hlen]
  dsimp only
  rw [hdrop, if_pos rfl, r.requestLine_render]
  dsimp only
  rw [mgHttpParseHeaders_render hfuel (by simpa using r.headers_short)]
  unfold Request.message Request.putOrPost Request.contentLength
  dsimp only
  rw [Bool.and_true, Bool.and_assoc, ← Bool.not_or]
  split
  next hnone => rfl
  next hsome => rfl

end SimplestWeb.Mongoose
