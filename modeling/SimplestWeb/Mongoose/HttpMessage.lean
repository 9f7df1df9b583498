import Mathlib.Data.List.Basic
import Mathlib.Algebra.Group.Nat.Defs
import Mathlib.Algebra.Group.Int.Defs

/-!
# Framing and parsing of a buffered HTTP message

`mg_parse_http` and its helpers (`mongoose.c`, lines 6033–6170), and the
reassembly of a chunked body (`mg_http_parse_chunk`, `mg_handle_chunked`,
lines 6229–6322), over the bytes of `recv_mbuf`.

Mirroring notes:
- A `char *` into the buffer is the list of bytes from there on; `end - s`
  is that list's length, so the C pointer comparisons are comparisons of
  remaining lengths.
- `size_t` values are naturals reduced modulo `2 ^ 64` where the C can wrap:
  `body.len` is a cast of `to64` (`strtoll`) and `message.len` a sum with it,
  so a negative `Content-Length` wraps around.
- `mg_parse_http` returns `-1`, `0` or the length of the header part; that is
  `Framed`, with the parsed `http_message` beside the length.
-/

namespace SimplestWeb.Mongoose

/-- Bytes of a buffer. -/
abbrev Bytes := List UInt8

def lf : UInt8 := 10
def cr : UInt8 := 13
def space : UInt8 := 32

/-- A C string literal. -/
def cstr (s : String) : Bytes := s.toList.map fun c => UInt8.ofNat c.toNat

/-! ## `<ctype.h>` in the "C" locale -/

def isprint (b : UInt8) : Bool := decide (32 ≤ b ∧ b ≤ 126)
def isspace (b : UInt8) : Bool := decide (b = 32 ∨ (9 ≤ b ∧ b ≤ 13))
def isdigit (b : UInt8) : Bool := decide (48 ≤ b ∧ b ≤ 57)
def tolower (b : UInt8) : UInt8 := if 65 ≤ b ∧ b ≤ 90 then b + 32 else b

/-- The value of a hexadecimal digit, if `isxdigit`. -/
def hexDigit (b : UInt8) : Option Nat :=
  if isdigit b then some (b.toNat - 48)
  else if 97 ≤ tolower b ∧ tolower b ≤ 102 then some ((tolower b).toNat - 87)
  else none

/-- `strtoll(s, NULL, 10)`: optional blanks and sign, then digits, saturating
at the ends of `long long`. -/
def to64 (s : Bytes) : Int :=
  let s := s.dropWhile isspace
  let neg := s.head? == some 45
  let s := if neg || s.head? == some 43 then s.drop 1 else s
  let v : Nat := (s.takeWhile isdigit).foldl (fun n b => n * 10 + (b.toNat - 48)) 0
  if neg then max (-(v : Int)) (-2 ^ 63) else min (v : Int) (2 ^ 63 - 1)

/-- `(size_t) x`. -/
def toSize (x : Int) : Nat := (x % 2 ^ 64).toNat

/-- `(size_t) ~0`. -/
def sizeMax : Nat := 2 ^ 64 - 1

/-- `mg_vcasecmp(a, b) == 0`. -/
def vcaseEq (a b : Bytes) : Bool := a.map tolower == b.map tolower

/-- `mg_ncasecmp(s, t, strlen(t)) == 0`: `t` is a prefix of what `s` points
to, up to case. -/
def ncaseEq (s t : Bytes) : Bool := (s.take t.length).map tolower == t.map tolower

/-! ## Requests and responses -/

/-- The outcome of framing a buffer: `-1`, `0` or a positive length. -/
inductive Framed (α : Type)
  | malformed
  | incomplete
  | complete (len : Nat) (a : α)
  deriving DecidableEq, Repr

/-- `struct http_message`, with the header arrays as one list of pairs. -/
structure HttpMessage where
  messageLen : Nat
  bodyLen : Nat
  method : Bytes := []
  uri : Bytes := []
  proto : Bytes := []
  respCode : Nat := 0
  respStatusMsg : Bytes := []
  queryString : Bytes := []
  headers : List (Bytes × Bytes) := []
  deriving DecidableEq, Repr

/-- `mg_http_get_request_len`: where the header part ends. `i` is the loop
counter, the list the bytes from `buf[i]` on. -/
def mgHttpGetRequestLen : Nat → Bytes → Framed Unit
  | _, [] => .incomplete
  | i, b :: rest =>
    if !isprint b && b != cr && b != lf && decide (b < 128) then .malformed
    else if b == lf && rest.head? == some lf then .complete (i + 2) ()
    else if b == lf && rest.head? == some cr && rest[1]? == some lf then .complete (i + 3) ()
    else mgHttpGetRequestLen (i + 1) rest

/-- `mg_skip`: the bytes up to the first delimiter, and where the delimiters
after them end. (`strchr` also finds the terminating NUL.) -/
def mgSkip (s delims : Bytes) : Bytes × Bytes :=
  let isDelim := fun b => delims.contains b || b == 0
  (s.takeWhile fun b => !isDelim b, (s.dropWhile fun b => !isDelim b).dropWhile isDelim)

/-- Trailing blanks of a header value are cut off. -/
def trimValue (v : Bytes) : Bytes := (v.reverse.dropWhile (· == space)).reverse

def MG_MAX_HTTP_HEADERS : Nat := 40

/-- `mg_http_parse_headers`. Each round with a nonempty name consumes bytes
and the others leave the loop, so `s.length` rounds are enough. -/
def mgHttpParseHeaders (len : Nat) : Nat → Bytes → HttpMessage → HttpMessage
  | 0, _, req => req
  | fuel + 1, s, req =>
    if req.headers.length < MG_MAX_HTTP_HEADERS - 1 then
      let (k, vp) := mgSkip s (cstr ": ")
      let (v, s') := mgSkip vp (cstr "\r\n")
      let v := trimValue v
      if !k.isEmpty && v.isEmpty then mgHttpParseHeaders len fuel s' req
      else if k.isEmpty || v.isEmpty then req
      else
        let req := if ncaseEq s (cstr "Content-Length") then
            { req with bodyLen := toSize (to64 vp)
                       messageLen := (len + toSize (to64 vp)) % 2 ^ 64 }
          else req
        mgHttpParseHeaders len fuel s' { req with headers := req.headers ++ [(k, v)] }
    else req

/-- The start line of a request: method, URI, protocol, and the query string
split off the URI. -/
def requestLine (s : Bytes) (hm : HttpMessage) : Option (HttpMessage × Bytes) :=
  let (method, s₁) := mgSkip s (cstr " ")
  let (uri, s₂) := mgSkip s₁ (cstr " ")
  let (proto, s₃) := mgSkip s₂ (cstr "\r\n")
  -- `hm->uri.p <= hm->method.p || hm->proto.p <= hm->uri.p`
  if s.length ≤ s₁.length || s₁.length ≤ s₂.length then none
  else
    let notQuery := fun b : UInt8 => b != 63
    some ({ hm with method := method
                    uri := uri.takeWhile notQuery
                    queryString := (uri.dropWhile notQuery).drop 1
                    proto := proto }, s₃)

/-- The start line of a response. -/
def statusLine (s : Bytes) (hm : HttpMessage) : Option (HttpMessage × Bytes) :=
  let (proto, s₁) := mgSkip s (cstr " ")
  let digits := s₁.takeWhile isdigit
  let code := digits.foldl (fun n b => n * 10 + (b.toNat - 48)) 0
  if s₁.length < 4 || digits.isEmpty || s₁[3]? != some space || code < 100 || 600 ≤ code then none
  else
    let (msg, s₂) := mgSkip (s₁.drop 4) (cstr "\r\n")
    some ({ hm with proto := proto, respCode := code, respStatusMsg := msg }, s₂)

/-- `mg_parse_http`. -/
def mgParseHttp (s : Bytes) (isReq : Bool) : Framed HttpMessage :=
  match mgHttpGetRequestLen 0 s with
  | .malformed => .malformed
  | .incomplete => .incomplete
  | .complete len () =>
    let hm : HttpMessage := { messageLen := sizeMax, bodyLen := sizeMax }
    let s := (s.take len).dropWhile isspace
    match if isReq then requestLine s hm else statusLine s hm with
    | none => .malformed
    | some (hm, s) =>
      let hm := mgHttpParseHeaders len (s.length + 1) s hm
      if hm.bodyLen = sizeMax && isReq && !vcaseEq hm.method (cstr "PUT") &&
          !vcaseEq hm.method (cstr "POST") then
        .complete len { hm with bodyLen := 0, messageLen := len }
      else .complete len hm

/-- `mg_get_http_header`. -/
def mgGetHttpHeader (hm : HttpMessage) (name : Bytes) : Option Bytes :=
  (hm.headers.find? fun h => vcaseEq h.1 name).map Prod.snd

/-! ## Chunked bodies -/

/-- `mg_http_parse_chunk`: the length of the first chunk with its framing,
and its data; `none` is the C's `0`. -/
def mgHttpParseChunk (s : Bytes) : Option (Nat × Bytes) :=
  let hex := (s.takeWhile fun b => (hexDigit b).isSome).filterMap hexDigit
  let n := hex.foldl (fun n d => n * 16 + d) 0
  let data := s.drop (hex.length + 2)
  if hex.isEmpty || 6 < hex.length then none
  else if s[hex.length]? != some cr || s[hex.length + 1]? != some lf then none
  else if data[n]? != some cr || data[n + 1]? != some lf then none
  else some (hex.length + 2 + n + 2, data.take n)

/-- The loop of `mg_handle_chunked`: the data of all fully buffered chunks,
the bytes after them, and whether the last one was the empty chunk. Every
chunk consumes bytes, so `s.length` rounds are enough. -/
def collectChunks : Nat → Bytes → Bytes × Bytes × Bool
  | 0, s => ([], s, false)
  | fuel + 1, s =>
    match mgHttpParseChunk s with
    | none => ([], s, false)
    | some (n, data) =>
      if data.isEmpty then ([], s.drop n, true)
      else
        let (body, rest, zero) := collectChunks fuel (s.drop n)
        (data ++ body, rest, zero)

/-- `mg_handle_chunked` on a buffer whose header part is `reqLen` long: chunk
framing is removed in place, and the empty chunk fixes the message length.
(`chunk.body_len` is 0 on entry: the proto data was created just before.) -/
def mgHandleChunked (buf : Bytes) (reqLen : Nat) (hm : HttpMessage) : Bytes × HttpMessage :=
  let enc := buf.drop reqLen
  let (body, rest, zero) := collectChunks (enc.length + 1) enc
  let buf' := buf.take reqLen ++ body ++ rest
  if rest.length = enc.length then (buf, hm)
  else (buf', { hm with bodyLen := body.length
                        messageLen := if zero then buf'.length else hm.messageLen })

/-! ## What a decided length means -/

/-- A complete header part lies inside the buffer. -/
theorem mgHttpGetRequestLen_bounds :
    ∀ (s : Bytes) (i n : Nat), mgHttpGetRequestLen i s = .complete n () →
      i < n ∧ n ≤ i + s.length
  | [], i, n, h => by
    unfold mgHttpGetRequestLen at h
    cases h
  | b :: rest, i, n, h => by
    unfold mgHttpGetRequestLen at h
    split at h
    next => cases h
    next =>
      split at h
      next hlf =>
        injection h with h
        have : 0 < rest.length := by
          cases rest with
          | nil => simp at hlf
          | cons c cs => exact Nat.succ_pos _
        rw [List.length_cons]
        omega
      next =>
        split at h
        next hcrlf =>
          injection h with h
          have : 1 < rest.length := by
            simp only [Bool.and_eq_true, beq_iff_eq] at hcrlf
            exact (List.getElem?_eq_some_iff.mp hcrlf.2).1
          rw [List.length_cons]
          omega
        next =>
          obtain ⟨h₁, h₂⟩ := mgHttpGetRequestLen_bounds rest (i + 1) n h
          rw [List.length_cons]
          omega

/-- More bytes behind a complete header part do not move its end: the
decision reads no byte past it. -/
theorem mgHttpGetRequestLen_append :
    ∀ (s t : Bytes) (i n : Nat), mgHttpGetRequestLen i s = .complete n () →
      mgHttpGetRequestLen i (s ++ t) = .complete n ()
  | [], t, i, n, h => by
    unfold mgHttpGetRequestLen at h
    cases h
  | b :: rest, t, i, n, h => by
    rw [List.cons_append]
    unfold mgHttpGetRequestLen at h ⊢
    split at h
    next => cases h
    next hok =>
      rw [if_neg hok]
      split at h
      next hlf =>
        have : rest ≠ [] := by
          rintro rfl
          simp at hlf
        rw [List.head?_append_of_ne_nil _ this, if_pos hlf]
        exact h
      next hlf =>
        split at h
        next hcrlf =>
          have hlen : 1 < rest.length := by
            simp only [Bool.and_eq_true, beq_iff_eq] at hcrlf
            exact (List.getElem?_eq_some_iff.mp hcrlf.2).1
          have : rest ≠ [] := by
            rintro rfl
            simp at hlen
          rw [List.head?_append_of_ne_nil _ this, List.getElem?_append_left hlen, if_neg hlf,
            if_pos hcrlf]
          exact h
        next hcrlf =>
          have ih := mgHttpGetRequestLen_append rest t (i + 1) n h
          obtain ⟨h₁, h₂⟩ := mgHttpGetRequestLen_bounds rest (i + 1) n h
          have : rest ≠ [] := by
            rintro rfl
            rw [List.length_nil] at h₂
            omega
          rw [List.head?_append_of_ne_nil _ this, if_neg hlf]
          split
          next hbad =>
            -- only a one-byte `rest` can gain a second byte, and it is not framed
            exfalso
            simp only [Bool.and_eq_true, beq_iff_eq] at hbad hcrlf
            match rest, this, h, hbad, hcrlf with
            | [c], _, h, _, _ =>
              simp [mgHttpGetRequestLen] at h
              split at h <;> cases h
            | c :: d :: cs, _, _, hbad, hcrlf => exact hcrlf (by simpa using hbad)
          next => exact ih

/-- A parsed message starts with a header part inside the buffer. -/
theorem mgParseHttp_bounds {s : Bytes} {isReq : Bool} {n : Nat} {hm : HttpMessage}
    (h : mgParseHttp s isReq = .complete n hm) : 0 < n ∧ n ≤ s.length := by
  unfold mgParseHttp at h
  split at h
  next => cases h
  next => cases h
  next len hlen =>
    have hb := mgHttpGetRequestLen_bounds s 0 len hlen
    have hn : len = n := by
      dsimp only at h
      split at h
      next => cases h
      next =>
        split at h
        next => injection h
        next => injection h
    omega

/-- A message that has been parsed stays what it is when more arrives. -/
theorem mgParseHttp_append {s : Bytes} {isReq : Bool} {n : Nat} {hm : HttpMessage} (t : Bytes)
    (h : mgParseHttp s isReq = .complete n hm) : mgParseHttp (s ++ t) isReq = .complete n hm := by
  unfold mgParseHttp at h
  split at h
  next => cases h
  next => cases h
  next len hlen =>
    have hle := (mgHttpGetRequestLen_bounds s 0 len hlen).2
    unfold mgParseHttp
    rw [mgHttpGetRequestLen_append s t 0 len hlen]
    dsimp only
    rw [List.take_append_of_le_length (by omega)]
    exact h

example : mgParseHttp (cstr "GET /a?b HTTP/1.1\r\nHost: x\r\n\r\n") true =
    .complete 30 { messageLen := 30, bodyLen := 0, method := cstr "GET", uri := cstr "/a",
                   proto := cstr "HTTP/1.1", queryString := cstr "b",
                   headers := [(cstr "Host", cstr "x")] } := by decide

end SimplestWeb.Mongoose
