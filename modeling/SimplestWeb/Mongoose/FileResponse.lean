import Mathlib.Data.List.Induction
import SimplestWeb.Mongoose.EventLoop

/-!
# Sending a file

`mg_http_serve_file_internal` (`mongoose.c`, line 7107) queues the head of a response and
opens the file; from then on `mg_http_transfer_file_data` (line 6167) refills the send
buffer whenever the connection is polled or the socket has taken bytes
(`mg_if_can_send_cb`, line 2931).

`Net` keeps only the lengths of these bytes. Here a `Download` has the bytes
themselves, and `transfer_conn` is that its steps are the steps of `Net`.

* `run_responses` — in every order of polls, writes and requests, the responses are queued one
  behind the other, each with its head and a part of its range from the first byte on: all of
  it, unless the next request comes while the file is still being sent.
* `request_drains` — a peer that keeps reading gets all of it.

Mirroring notes:
- `limit` is `MG_MAX_HTTP_SEND_MBUF`, which a build may set.
- `wire` is what the socket has taken; `rest` is what is left of the file behind `fp`.
- `io` is how much `fread` is able to give.
- `head` is what is printed in front of the file's bytes.
-/

namespace SimplestWeb.Mongoose

/-! ## The range of a request -/

/-- A conversion `%lld` of `sscanf`: the number and what stands behind it. -/
def scanLld (s : Bytes) : Option (Int × Bytes) :=
  let s := s.dropWhile isspace
  let digits := if s.head? = some 45 ∨ s.head? = some 43 then s.drop 1 else s
  if (digits.takeWhile isdigit).isEmpty then none
  else some (to64 s, digits.dropWhile isdigit)

/-- `sscanf(p, "bytes=%lld-%lld", a, b)`, where it converts something. -/
def mgHttpParseRangeHeader (header : Bytes) : Option (Int × Option Int) :=
  let p := header.takeWhile (· ≠ 0)
  if cstr "bytes=" <+: p then
    (scanLld (p.drop 6)).map fun (a, s) =>
      (a, if s.head? = some 45 then (scanLld (s.drop 1)).map Prod.fst else none)
  else none

/-- The status, `cl` and where the file is read from. -/
def rangeOf (size : Int) (header : Option Bytes) : Nat × Int × Int :=
  match header.bind mgHttpParseRangeHeader with
  | none => (200, size, 0)
  | some (r1, second) =>
    if 0 ≤ r1 ∧ 0 ≤ second.getD 0 then
      let r2 := second.getD (size - 1)
      if r1 > r2 ∨ r2 ≥ size then (416, 0, 0) else (206, r2 - r1 + 1, r1)
    else (200, size, 0)

/-! ## The steps -/

/-- An open file that is being sent. -/
structure Source where
  file : MgHttpProtoDataFile
  rest : Bytes
  deriving DecidableEq, Repr

/-- What sending a file needs of a connection. -/
structure Download where
  wire : Bytes := []
  sendMbuf : Bytes := []
  source : Option Source := none
  sendAndClose : Bool := false
  deriving DecidableEq, Repr

namespace Download

/-- All that has been queued. -/
def out (s : Download) : Bytes := s.wire ++ s.sendMbuf

/-- `pd->file.sent`. -/
def sent (s : Download) : Int :=
  match s.source with
  | some src => src.file.sent
  | none => 0

/-- `mg_http_transfer_file_data`. -/
def transfer (limit io : Nat) (s : Download) : Download :=
  match s.source with
  | none => s
  | some src =>
    let toRead := min (toSize (src.file.cl - src.file.sent)) (limit - s.sendMbuf.length)
    let bytes := src.rest.take (min io toRead)
    let file : MgHttpProtoDataFile := { src.file with sent := src.file.sent + bytes.length }
    let s := { s with sendMbuf := s.sendMbuf ++ bytes }
    if file.cl ≤ file.sent then
      { s with source := none, sendAndClose := s.sendAndClose || !file.keepalive }
    else { s with source := some ⟨file, src.rest.drop bytes.length⟩ }

/-- `mg_if_can_send_cb`, when the socket can take `k` bytes. -/
def write (limit k io : Nat) (s : Download) : Download :=
  let n := min k (min s.sendMbuf.length MG_TCP_IO_SIZE)
  if n = 0 then s
  else transfer limit io
    { s with wire := s.wire ++ s.sendMbuf.take n, sendMbuf := s.sendMbuf.drop n }

/-- `mg_http_create_proto_data`: a file that is still being sent is closed. -/
def renew (s : Download) : Download := { s with source := none }

/-- `mg_http_serve_file_internal`, for a file that can be opened. -/
def serve (limit : Nat) (head : Bytes) (contents : Bytes) (cl r1 : Int) (keepalive : Bool)
    (io : Nat) (s : Download) : Download :=
  transfer limit io
    { s with
      sendMbuf := s.sendMbuf ++ head
      source := some ⟨⟨false, cl, s.sent, keepalive⟩, contents.drop r1.toNat⟩ }

end Download

/-- A request for a file; `st_size` is a signed number of 64 bits. -/
structure FileRequest where
  head : Nat → Int → Int → Bytes
  contents : Bytes
  range : Option Bytes
  keepalive : Bool
  small : contents.length < 2 ^ 63

/-- A whole file, or the range of it that the request asks for. -/
def serveFile (limit : Nat) (f : FileRequest) (io : Nat) (s : Download) : Download :=
  let (status, cl, r1) := rangeOf f.contents.length f.range
  s.serve limit (f.head status cl r1) f.contents cl r1 f.keepalive io

/-- What happens to the connection: it is polled, the socket takes bytes, or a request has come,
for which `mg_http_handler` moves on with the file at hand, drops it and answers. -/
inductive Io
  | poll (io : Nat)
  | write (k io : Nat)
  | request (f : FileRequest) (io io' : Nat)

def Download.step (limit : Nat) (s : Download) : Io → Download
  | .poll io => s.transfer limit io
  | .write k io => s.write limit k io
  | .request f io io' => serveFile limit f io' (s.transfer limit io).renew

def Download.run (limit : Nat) (s : Download) (ios : List Io) : Download := ios.foldl (step limit) s

example : rangeOf 10 (some (cstr "bytes=2-5")) = (206, 4, 2) := by decide

example : rangeOf 10 (some (cstr "bytes=7-")) = (206, 3, 7) := by decide

/-! ## The range is inside the file -/

/-- A range is the whole file, nothing, or a part of it. -/
theorem rangeOf_cases (size : Int) (header : Option Bytes) :
    rangeOf size header = (200, size, 0) ∨ rangeOf size header = (416, 0, 0) ∨
      ∃ r1 r2, 0 ≤ r1 ∧ r1 ≤ r2 ∧ r2 < size ∧ rangeOf size header = (206, r2 - r1 + 1, r1) := by
  unfold rangeOf
  cases header.bind mgHttpParseRangeHeader with
  | none => exact Or.inl rfl
  | some r =>
    obtain ⟨r1, second⟩ := r
    dsimp only
    by_cases hpos : 0 ≤ r1 ∧ 0 ≤ second.getD 0
    · rw [if_pos hpos]
      by_cases hout : r1 > second.getD (size - 1) ∨ second.getD (size - 1) ≥ size
      · rw [if_pos hout]
        exact Or.inr (Or.inl rfl)
      · rw [if_neg hout]
        exact Or.inr (Or.inr ⟨r1, _, hpos.1, by omega, by omega, rfl⟩)
    · rw [if_neg hpos]
      exact Or.inl rfl

/-- What is announced as the length of the body is in the file. -/
theorem rangeOf_inside {size : Int} (header : Option Bytes) (h : 0 ≤ size) :
    0 ≤ (rangeOf size header).2.1 ∧ 0 ≤ (rangeOf size header).2.2 ∧
      (rangeOf size header).2.2 + (rangeOf size header).2.1 ≤ size := by
  rcases rangeOf_cases size header with heq | heq | ⟨r1, r2, h0, h12, h2, heq⟩
  · rw [heq]
    dsimp only
    omega
  · rw [heq]
    dsimp only
    omega
  · rw [heq]
    dsimp only
    omega

namespace FileRequest

/-- The length that is announced. -/
def cl (f : FileRequest) : Nat := (rangeOf f.contents.length f.range).2.1.toNat

/-- Where the file is read from. -/
def r1 (f : FileRequest) : Nat := (rangeOf f.contents.length f.range).2.2.toNat

/-- What is printed in front of the file's bytes. -/
def headBytes (f : FileRequest) : Bytes :=
  let (status, cl, r1) := rangeOf f.contents.length f.range
  f.head status cl r1

/-- The bytes that are asked for. -/
def body (f : FileRequest) : Bytes := (f.contents.drop f.r1).take f.cl

/-- What is to be sent lies in the file. -/
theorem r1_add_cl_le (f : FileRequest) : f.r1 + f.cl ≤ f.contents.length := by
  have hin := rangeOf_inside f.range (Int.natCast_nonneg f.contents.length)
  unfold r1 cl
  omega

theorem cl_lt (f : FileRequest) : f.cl < 2 ^ 63 := by
  have hle := f.r1_add_cl_le
  have hsmall := f.small
  omega

/-- The body is as long as `Content-Length` says. -/
theorem length_body (f : FileRequest) : f.body.length = f.cl := by
  have hle := f.r1_add_cl_le
  unfold body
  rw [List.length_take, List.length_drop]
  omega

/-- The beginning of the body is read where the range starts. -/
theorem take_body (f : FileRequest) {n : Nat} (h : n ≤ f.cl) :
    f.body.take n = (f.contents.drop f.r1).take n := by
  unfold body
  rw [List.take_take, Nat.min_eq_left h]

end FileRequest

/-! ## One transfer -/

section

variable {out₀ : Bytes} {f : FileRequest} {n limit io : Nat} {closing : Bool} {s s' : Download}

theorem toSize_natCast {k : Nat} (h : k < 2 ^ 64) : toSize k = k := by
  unfold toSize
  omega

/-- The file is open, and `n` bytes of what is asked for have been queued behind `out₀`. -/
structure Opened (out₀ : Bytes) (f : FileRequest) (n : Nat) (closing : Bool) (s : Download) :
    Prop where
  source : s.source = some ⟨⟨false, f.cl, n, f.keepalive⟩, f.contents.drop (f.r1 + n)⟩
  out : s.out = out₀ ++ f.body.take n
  le : n ≤ f.cl
  flag : s.sendAndClose = closing

/-- All that is asked for has been queued, and the file is closed. -/
structure Completed (out₀ : Bytes) (f : FileRequest) (closing : Bool) (s : Download) : Prop where
  source : s.source = none
  out : s.out = out₀ ++ f.body
  flag : s.sendAndClose = (closing || !f.keepalive)

/-- How many bytes a transfer queues. -/
def queued (limit io : Nat) (f : FileRequest) (n : Nat) (s : Download) : Nat :=
  min io (min (f.cl - n) (limit - s.sendMbuf.length))

/-- A transfer goes on with the file or closes it. -/
theorem Opened.transfer (h : Opened out₀ f n closing s) (limit io : Nat) :
    (s.transfer limit io).wire = s.wire ∧
      (s.transfer limit io).sendMbuf.length = s.sendMbuf.length + queued limit io f n s ∧
      (n + queued limit io f n s < f.cl ∧
          Opened out₀ f (n + queued limit io f n s) closing (s.transfer limit io) ∨
        n + queued limit io f n s = f.cl ∧ Completed out₀ f closing (s.transfer limit io)) := by
  have hle := h.le
  have hcl := f.cl_lt
  have hin := f.r1_add_cl_le
  have hq : queued limit io f n s ≤ f.cl - n :=
    (Nat.min_le_right _ _).trans (Nat.min_le_left _ _)
  have hleft : toSize ((f.cl : Int) - (n : Nat)) = f.cl - n := by
    rw [← Int.ofNat_sub hle]
    exact toSize_natCast (by omega)
  have hlen : ((f.contents.drop (f.r1 + n)).take (queued limit io f n s)).length =
      queued limit io f n s := by
    rw [List.length_take, List.length_drop]
    omega
  -- what is read from the file is what comes next of the body
  have hout : s.wire ++ (s.sendMbuf ++ (f.contents.drop (f.r1 + n)).take (queued limit io f n s)) =
      out₀ ++ f.body.take (n + queued limit io f n s) := by
    rw [← List.append_assoc, show s.wire ++ s.sendMbuf = _ from h.out, List.append_assoc,
      f.take_body hle, f.take_body (by omega), List.take_add, List.drop_drop]
  have hflag := h.flag
  unfold Download.transfer
  rw [h.source]
  dsimp only
  rw [hleft, show min io (min (f.cl - n) (limit - s.sendMbuf.length)) =
    queued limit io f n s from rfl, hlen]
  by_cases hdone : (f.cl : Int) ≤ (n : Nat) + (queued limit io f n s : Nat)
  · rw [if_pos hdone]
    refine ⟨rfl, by rw [List.length_append, hlen], Or.inr ⟨by omega, rfl, ?_, ?_⟩⟩
    · show s.wire ++ (s.sendMbuf ++ _) = _
      rw [hout, List.take_of_length_le (by rw [f.length_body]; omega)]
    · show (s.sendAndClose || !f.keepalive) = _
      rw [hflag]
  · rw [if_neg hdone]
    refine ⟨rfl, by rw [List.length_append, hlen], Or.inl ⟨by omega, ?_, hout, by omega, hflag⟩⟩
    show some _ = some _
    rw [List.drop_drop, Nat.add_assoc]
    rfl

/-! ## Every order of polls and writes -/

/-- The file is still being sent, or all that is asked for has been queued. -/
def Phase (out₀ : Bytes) (f : FileRequest) (closing : Bool) (s : Download) : Prop :=
  (∃ n, Opened out₀ f n closing s ∧ n < f.cl) ∨ Completed out₀ f closing s

/-- Bytes that go from the buffer to the socket stay queued. -/
theorem take_write (s : Download) (k : Nat) :
    { s with wire := s.wire ++ s.sendMbuf.take k, sendMbuf := s.sendMbuf.drop k }.out = s.out := by
  show s.wire ++ s.sendMbuf.take k ++ s.sendMbuf.drop k = s.wire ++ s.sendMbuf
  rw [List.append_assoc, List.take_append_drop]

/-- Writing to the socket does not change how far the file has been read … -/
theorem Opened.written (h : Opened out₀ f n closing s) (k : Nat) :
    Opened out₀ f n closing
      { s with wire := s.wire ++ s.sendMbuf.take k, sendMbuf := s.sendMbuf.drop k } :=
  ⟨h.source, (take_write s k).trans h.out, h.le, h.flag⟩

/-- … nor that all of it has been queued. -/
theorem Completed.written (h : Completed out₀ f closing s) (k : Nat) :
    Completed out₀ f closing
      { s with wire := s.wire ++ s.sendMbuf.take k, sendMbuf := s.sendMbuf.drop k } :=
  ⟨h.source, (take_write s k).trans h.out, h.flag⟩

/-- Without a file there is nothing to transfer. -/
theorem transfer_none (h : s.source = none) (limit io : Nat) : s.transfer limit io = s := by
  unfold Download.transfer
  rw [h]

/-- … and a write only moves bytes on. -/
theorem write_none (h : s.source = none) (limit k io : Nat) :
    (s.write limit k io).source = none ∧ (s.write limit k io).out = s.out := by
  unfold Download.write
  dsimp only
  by_cases hk : min k (min s.sendMbuf.length MG_TCP_IO_SIZE) = 0
  · rw [if_pos hk]
    exact ⟨h, rfl⟩
  · rw [if_neg hk]
    have hmoved : { s with
        wire := s.wire ++ s.sendMbuf.take (min k (min s.sendMbuf.length MG_TCP_IO_SIZE))
        sendMbuf := s.sendMbuf.drop (min k (min s.sendMbuf.length MG_TCP_IO_SIZE)) }.source =
      none := h
    rw [transfer_none hmoved]
    exact ⟨h, take_write s _⟩

/-- An open file is read on, or closed when all of it is buffered. -/
theorem Opened.phase (h : Opened out₀ f n closing s) (limit io : Nat) :
    Phase out₀ f closing (s.transfer limit io) := by
  obtain ⟨-, -, ⟨hlt, hopen⟩ | ⟨-, hdone⟩⟩ := h.transfer limit io
  · exact Or.inl ⟨_, hopen, hlt⟩
  · exact Or.inr hdone

/-- A response stays on its way when more of the file is buffered … -/
theorem Phase.transfer (h : Phase out₀ f closing s) (limit io : Nat) :
    Phase out₀ f closing (s.transfer limit io) := by
  rcases h with ⟨n, hopen, -⟩ | hdone
  · exact hopen.phase limit io
  · rw [transfer_none hdone.source]
    exact Or.inr hdone

/-- … and when the socket takes something. -/
theorem Phase.write (h : Phase out₀ f closing s) (limit k io : Nat) :
    Phase out₀ f closing (s.write limit k io) := by
  unfold Download.write
  dsimp only
  by_cases hk : min k (min s.sendMbuf.length MG_TCP_IO_SIZE) = 0
  · rw [if_pos hk]
    exact h
  · rw [if_neg hk]
    refine Phase.transfer ?_ limit io
    rcases h with ⟨n, hopen, hlt⟩ | hdone
    · exact Or.inl ⟨n, hopen.written _, hlt⟩
    · exact Or.inr (hdone.written _)

/-- How much of the body has been queued. -/
theorem Phase.out (h : Phase out₀ f closing s) :
    ∃ n ≤ f.cl, s.out = out₀ ++ f.body.take n ∧ (s.source = none → n = f.cl) := by
  rcases h with ⟨n, hopen, hlt⟩ | hdone
  · refine ⟨n, hopen.le, hopen.out, fun hnone => ?_⟩
    rw [hopen.source] at hnone
    cases hnone
  · refine ⟨f.cl, Nat.le_refl _, ?_, fun _ => rfl⟩
    rw [← f.length_body, List.take_length]
    exact hdone.out

/-! ## Responses -/

/-- A response starts behind what has been queued. -/
theorem serve_opened (hs : s.source = none) (f : FileRequest) :
    Opened (s.out ++ f.headBytes) f 0 s.sendAndClose
      { s with
        sendMbuf := s.sendMbuf ++ f.headBytes
        source := some ⟨⟨false, f.cl, s.sent, f.keepalive⟩, f.contents.drop f.r1⟩ } := by
  have hsent : s.sent = (0 : Nat) := by
    unfold Download.sent
    rw [hs]
    rfl
  refine ⟨?_, ?_, Nat.zero_le _, rfl⟩
  · show some _ = some _
    rw [hsent]
    rfl
  · show s.wire ++ (s.sendMbuf ++ f.headBytes) = s.wire ++ s.sendMbuf ++ f.headBytes ++ []
    rw [List.append_nil, List.append_assoc]

theorem serveFile_eq (limit : Nat) (f : FileRequest) (io : Nat) (s : Download) :
    serveFile limit f io s = Download.transfer limit io
      { s with
        sendMbuf := s.sendMbuf ++ f.headBytes
        source := some ⟨⟨false, f.cl, s.sent, f.keepalive⟩, f.contents.drop f.r1⟩ } := by
  obtain ⟨hcl, -, -⟩ := rangeOf_inside f.range (Int.natCast_nonneg f.contents.length)
  unfold serveFile Download.serve FileRequest.headBytes FileRequest.cl FileRequest.r1
  rw [Int.toNat_of_nonneg hcl]

/-- A response that has been cut: how much of the body there is. -/
abbrev Cut : Type := FileRequest × Nat

def Cut.bytes (c : Cut) : Bytes := c.1.headBytes ++ c.1.body.take c.2

/-- The request of a step. -/
def Io.asked : Io → Option FileRequest
  | .poll _ => none
  | .write _ _ => none
  | .request f _ _ => some f

/-- Whenever a request comes, the response before it has been queued. -/
def Waits (limit : Nat) (s : Download) (ios : List Io) : Prop :=
  ∀ ios₁ f io io' ios₂, ios = ios₁ ++ .request f io io' :: ios₂ →
    ((s.run limit ios₁).transfer limit io).source = none

/-- Whoever waits for each response waits for the first ones. -/
theorem Waits.init {ios : List Io} {e : Io} (h : Waits limit s (ios ++ [e])) :
    Waits limit s ios := by
  intro ios₁ f io io' ios₂ heq
  refine h ios₁ f io io' (ios₂ ++ [e]) ?_
  rw [heq, List.append_assoc, List.cons_append]

/-- The responses `cs` have been queued behind `out₀`, and `f` is being answered. -/
structure Responding (out₀ : Bytes) (cs : List Cut) (f : FileRequest) (s : Download) : Prop where
  cut : ∀ c ∈ cs, c.2 ≤ c.1.cl
  phase : ∃ closing, Phase (out₀ ++ (cs.map Cut.bytes).flatten ++ f.headBytes) f closing s

/-- A request is answered behind the responses that have been queued. -/
theorem request_responding {cs : List Cut} (hcut : ∀ c ∈ cs, c.2 ≤ c.1.cl)
    (hout : s.out = out₀ ++ (cs.map Cut.bytes).flatten) (f : FileRequest) :
    Responding out₀ cs f (serveFile limit f io s.renew) := by
  refine ⟨hcut, s.sendAndClose, ?_⟩
  have hrenew : s.renew.out = s.out := rfl
  rw [serveFile_eq, ← hout, ← hrenew]
  exact (serve_opened rfl f).phase limit io

/-- What has been queued after a run: nothing, or responses of which the last is being
answered. -/
def Account (out₀ : Bytes) (reqs : List FileRequest) (waits : Prop) (s : Download) : Prop :=
  reqs = [] ∧ s.source = none ∧ s.out = out₀ ∨
    ∃ cs f, reqs = cs.map Prod.fst ++ [f] ∧ Responding out₀ cs f s ∧
      (waits → ∀ c ∈ cs, c.2 = c.1.cl)

/-- A request is the next one of the account. -/
theorem Account.request {reqs : List FileRequest} {waits waits' : Prop}
    (h : Account out₀ reqs waits s) (hw : waits' → waits)
    (hdone : waits' → (s.transfer limit io).source = none) (f : FileRequest) (io' : Nat) :
    Account out₀ (reqs ++ [f]) waits' (s.step limit (.request f io io')) := by
  show Account _ _ _ (serveFile limit f io' (s.transfer limit io).renew)
  rcases h with ⟨rfl, hnone, hout⟩ | ⟨cs, g, rfl, ⟨hcut, closing, hphase⟩, hfull⟩
  · rw [transfer_none hnone]
    exact Or.inr ⟨[], f, rfl, request_responding (by simp) (by simpa using hout) f, by simp⟩
  · obtain ⟨n, hn, hout, hend⟩ := (hphase.transfer limit io).out
    have hcut' : ∀ c ∈ cs ++ [(g, n)], c.2 ≤ c.1.cl := by
      intro c hc
      rcases List.mem_append.mp hc with hc | hc
      · exact hcut c hc
      · rw [List.mem_singleton.mp hc]
        exact hn
    refine Or.inr ⟨cs ++ [(g, n)], f, by simp, request_responding hcut' ?_ f, fun hwaits c hc => ?_⟩
    · rw [hout]
      simp [Cut.bytes]
    · rcases List.mem_append.mp hc with hc | hc
      · exact hfull (hw hwaits) c hc
      · rw [List.mem_singleton.mp hc]
        exact hend (hdone hwaits)

/-- Without a request the same responses are being answered. -/
theorem Account.quiet {reqs : List FileRequest} {waits waits' : Prop}
    (h : Account out₀ reqs waits s) (hw : waits' → waits) {e : Io} (he : e.asked = none) :
    Account out₀ reqs waits' (s.step limit e) := by
  rcases h with ⟨rfl, hnone, hout⟩ | ⟨cs, g, rfl, ⟨hcut, closing, hphase⟩, hfull⟩
  · refine Or.inl ⟨rfl, ?_⟩
    cases e with
    | poll io =>
      show (s.transfer limit io).source = none ∧ (s.transfer limit io).out = out₀
      rw [transfer_none hnone]
      exact ⟨hnone, hout⟩
    | write k io =>
      obtain ⟨hnone', hout'⟩ := write_none hnone limit k io
      exact ⟨hnone', hout'.trans hout⟩
    | request f io io' => cases he
  · refine Or.inr ⟨cs, g, rfl, ⟨hcut, closing, ?_⟩, fun hwaits => hfull (hw hwaits)⟩
    cases e with
    | poll io => exact hphase.transfer limit io
    | write k io => exact hphase.write limit k io
    | request f io io' => cases he

theorem run_concat (limit : Nat) (s : Download) (ios : List Io) (e : Io) :
    s.run limit (ios ++ [e]) = (s.run limit ios).step limit e := by
  unfold Download.run
  rw [List.foldl_append]
  rfl

/-- The account is kept by every schedule. -/
theorem run_account (hs : s.source = none) (limit : Nat) (ios : List Io) :
    Account s.out (ios.filterMap Io.asked) (Waits limit s ios) (s.run limit ios) := by
  induction ios using List.reverseRecOn with
  | nil => exact Or.inl ⟨rfl, hs, rfl⟩
  | append_singleton ios e ih =>
    rw [run_concat, List.filterMap_append]
    cases e with
    | poll io =>
      rw [show List.filterMap Io.asked [.poll io] = [] from rfl, List.append_nil]
      exact ih.quiet Waits.init rfl
    | write k io =>
      rw [show List.filterMap Io.asked [.write k io] = [] from rfl, List.append_nil]
      exact ih.quiet Waits.init rfl
    | request f io io' =>
      exact ih.request Waits.init (fun hwaits => hwaits ios f io io' [] rfl) f io'

/-- **Responses do not mix.** In every order of polls, writes and requests, what is queued are the
responses in the order of the requests, each with its own head and the first bytes of its own
range: all of them for the last one if its file is closed, and for the others if the peer has
waited with the next request. -/
theorem run_responses (hs : s.source = none) (limit : Nat) (ios : List Io) :
    ∃ cs : List Cut, cs.map Prod.fst = ios.filterMap Io.asked ∧ (∀ c ∈ cs, c.2 ≤ c.1.cl) ∧
      (s.run limit ios).out = s.out ++ (cs.map Cut.bytes).flatten ∧
      (Waits limit s ios → ∀ c ∈ cs.dropLast, c.2 = c.1.cl) ∧
      ((s.run limit ios).source = none → ∀ c ∈ cs.getLast?, c.2 = c.1.cl) := by
  rcases run_account hs limit ios with ⟨hreqs, -, hout⟩ |
    ⟨cs, f, hreqs, ⟨hcut, closing, hphase⟩, hfull⟩
  · exact ⟨[], hreqs.symm, by simp, by simpa using hout, by simp, by simp⟩
  · obtain ⟨n, hn, hout, hend⟩ := hphase.out
    refine ⟨cs ++ [(f, n)], by simp [hreqs], ?_, ?_, ?_, ?_⟩
    · intro c hc
      rcases List.mem_append.mp hc with hc | hc
      · exact hcut c hc
      · rw [List.mem_singleton.mp hc]
        exact hn
    · rw [hout]
      simp [Cut.bytes]
    · rw [List.dropLast_concat]
      exact hfull
    · intro hnone c hc
      rw [List.getLast?_concat] at hc
      rw [← Option.some.inj hc]
      exact hend hnone

/-- A whole small file. -/
def helloRequest : FileRequest :=
  { head := fun _ _ _ => cstr "HTTP/1.1 200 OK\r\n\r\n"
    contents := cstr "hello"
    range := none
    keepalive := true
    small := by decide }

/-- Two requests, the second of which comes when all of the first file has been read. -/
def twoRequests : List Io :=
  [.request helloRequest 0 2, .write 90 9, .request helloRequest 0 2, .write 90 9]

theorem waits_twoRequests : Waits 4096 {} twoRequests := by
  intro ios₁ f io io' ios₂ heq
  -- a request stands in two places
  match ios₁, heq with
  | [], heq =>
    cases heq
    decide
  | [_, _], heq =>
    cases heq
    decide
  | [_], heq => cases heq
  | [_, _, _], heq => cases heq
  | _ :: _ :: _ :: _ :: _, heq => simp [twoRequests] at heq

theorem run_responses_twoRequests :
    ∃ cs : List Cut, cs.map Prod.fst = [helloRequest, helloRequest] ∧
      (Download.run 4096 {} twoRequests).out = (cs.map Cut.bytes).flatten ∧
      (∀ c ∈ cs.dropLast, c.2 = c.1.cl) ∧ ∀ c ∈ cs.getLast?, c.2 = c.1.cl := by
  obtain ⟨cs, hreqs, -, hout, hwaits, hdone⟩ :=
    run_responses (s := {}) rfl 4096 twoRequests
  exact ⟨cs, hreqs, hout, hwaits waits_twoRequests, hdone (by decide)⟩

/-! ## A peer that keeps reading -/

/-- `m` bytes have still to be taken by the socket; while the file is open there are bytes to
take. -/
def Todo (out₀ : Bytes) (f : FileRequest) (closing : Bool) (m : Nat) (s : Download) : Prop :=
  (∃ n, Opened out₀ f n closing s ∧ n < f.cl ∧ 0 < s.sendMbuf.length ∧
      m = s.sendMbuf.length + (f.cl - n)) ∨
    Completed out₀ f closing s ∧ m = s.sendMbuf.length

/-- After a transfer the buffer is empty only if the file is closed. -/
theorem Opened.todo (h : Opened out₀ f n closing s)
    (hready : 0 < s.sendMbuf.length ∨ 0 < limit ∧ 0 < io) :
    Todo out₀ f closing (s.sendMbuf.length + (f.cl - n)) (s.transfer limit io) := by
  obtain ⟨-, hlen, ⟨hlt, hopen⟩ | ⟨heq, hdone⟩⟩ := h.transfer limit io
  · have hpos : 0 < s.sendMbuf.length + queued limit io f n s := by
      unfold queued at hlt ⊢
      omega
    exact Or.inl ⟨_, hopen, hlt, by omega, by omega⟩
  · exact Or.inr ⟨hdone, by omega⟩

/-- A poll leaves no more to do … -/
theorem Todo.poll {m : Nat} (h : Todo out₀ f closing m s) (limit io : Nat) :
    Todo out₀ f closing m (s.transfer limit io) := by
  rcases h with ⟨n, hopen, hlt, hpos, rfl⟩ | ⟨hdone, rfl⟩
  · exact hopen.todo (Or.inl hpos)
  · rw [transfer_none hdone.source]
    exact Or.inr ⟨hdone, rfl⟩

/-- … and a write leaves less, if anything is left. -/
theorem Todo.write {m k : Nat} (h : Todo out₀ f closing m s) (hlim : 0 < limit) (hk : 0 < k)
    (hio : 0 < io) :
    ∃ m', m' ≤ m - 1 ∧ Todo out₀ f closing m' (s.write limit k io) := by
  have hmtu : 0 < MG_TCP_IO_SIZE := by decide
  unfold Download.write
  dsimp only
  by_cases hzero : min k (min s.sendMbuf.length MG_TCP_IO_SIZE) = 0
  · rw [if_pos hzero]
    have hempty : s.sendMbuf.length = 0 := by omega
    rcases h with ⟨n, -, -, hpos, -⟩ | ⟨hdone, hm⟩
    · omega
    · exact ⟨m, by omega, Or.inr ⟨hdone, hm⟩⟩
  · rw [if_neg hzero]
    generalize hn : min k (min s.sendMbuf.length MG_TCP_IO_SIZE) = w at *
    have hdrop : (s.sendMbuf.drop w).length = s.sendMbuf.length - w := List.length_drop
    rcases h with ⟨n, hopen, hlt, hpos, rfl⟩ | ⟨hdone, rfl⟩
    · refine ⟨_, ?_, (hopen.written w).todo (Or.inr ⟨hlim, hio⟩)⟩
      dsimp only
      omega
    · have hwritten := hdone.written w
      rw [transfer_none hwritten.source]
      refine ⟨_, ?_, Or.inr ⟨hwritten, rfl⟩⟩
      dsimp only
      omega

def Io.isWrite : Io → Bool
  | .poll _ => false
  | .write _ _ => true
  | .request _ _ _ => false

/-- No other request comes, the socket takes something whenever it is written to, and `fread`
gives something. -/
def Fair (ios : List Io) : Prop :=
  ∀ e ∈ ios, e.asked = none ∧ ∀ k io, e = .write k io → 0 < k ∧ 0 < io

/-- Every write that is fair leaves a byte less to be sent. -/
theorem Todo.run {m : Nat} (h : Todo out₀ f closing m s) (hlim : 0 < limit) {ios : List Io}
    (hfair : Fair ios) :
    ∃ m', m' ≤ m - ios.countP Io.isWrite ∧ Todo out₀ f closing m' (s.run limit ios) := by
  induction ios generalizing s m with
  | nil => exact ⟨m, Nat.le_refl m, h⟩
  | cons e ios ih =>
    have hfair' : Fair ios := fun e he => hfair e (List.mem_cons_of_mem _ he)
    obtain ⟨hasked, hwrite⟩ := hfair e List.mem_cons_self
    rw [List.countP_cons]
    cases e with
    | poll io =>
      obtain ⟨m', hm', htodo⟩ := ih (h.poll limit io) hfair'
      exact ⟨m', hm', htodo⟩
    | write k io =>
      obtain ⟨hk, hio⟩ := hwrite k io rfl
      obtain ⟨m₁, hm₁, htodo₁⟩ := h.write hlim hk hio
      obtain ⟨m', hm', htodo⟩ := ih htodo₁ hfair'
      refine ⟨m', ?_, htodo⟩
      show m' ≤ m - (ios.countP Io.isWrite + 1)
      omega
    | request f io io' => cases hasked

/-- **Nothing is kept back.** Once the socket has taken something as often as there are bytes to
take, all of the response to a request is on the wire, behind what had been queued, and the file
is closed. -/
theorem request_drains (limit : Nat) (s : Download) (f : FileRequest) (io io' : Nat) (ios : List Io)
    (hlim : 0 < limit) (hio : 0 < io') (hfair : Fair ios)
    (hcount : (s.transfer limit io).sendMbuf.length + f.headBytes.length + f.cl ≤
      ios.countP Io.isWrite) :
    ((s.step limit (.request f io io')).run limit ios).source = none ∧
      ((s.step limit (.request f io io')).run limit ios).wire =
        (s.transfer limit io).out ++ f.headBytes ++ f.body := by
  show ((serveFile limit f io' (s.transfer limit io).renew).run limit ios).source = none ∧
    ((serveFile limit f io' (s.transfer limit io).renew).run limit ios).wire = _
  have hopen := serve_opened (s := (s.transfer limit io).renew) rfl f
  obtain ⟨m', hm', htodo⟩ := (hopen.todo (Or.inr ⟨hlim, hio⟩)).run hlim hfair
  rw [← serveFile_eq] at htodo
  dsimp only at hm'
  rw [List.length_append] at hm'
  have hlen : (s.transfer limit io).renew.sendMbuf.length = (s.transfer limit io).sendMbuf.length :=
    rfl
  obtain rfl : m' = 0 := by omega
  rcases htodo with ⟨n, -, -, hpos, hzero⟩ | ⟨hdone, hzero⟩
  · omega
  · have hempty := List.length_eq_zero_iff.mp hzero.symm
    have hout := hdone.out
    unfold Download.out at hout
    rw [hempty, List.append_nil] at hout
    exact ⟨hdone.source, hout⟩

/-- One byte at a time is read, and written. -/
theorem request_drains_hello :
    ((Download.step 4096 {} (.request helloRequest 0 1)).run 4096
        (List.replicate 24 (.write 1 1))).source = none ∧
      ((Download.step 4096 {} (.request helloRequest 0 1)).run 4096
        (List.replicate 24 (.write 1 1))).wire =
        (Download.transfer 4096 0 {}).out ++ helloRequest.headBytes ++ helloRequest.body := by
  refine request_drains 4096 {} helloRequest 0 1 _ (by decide) (by decide) ?_ (by decide)
  intro e he
  rw [List.eq_of_mem_replicate he]
  refine ⟨rfl, fun k io heq => ?_⟩
  cases heq
  omega

/-- Reading from the file does not fill the buffer above the limit … -/
theorem transfer_sendMbuf_le (limit io : Nat) (s : Download) :
    (s.transfer limit io).sendMbuf.length ≤ max limit s.sendMbuf.length := by
  unfold Download.transfer
  cases s.source with
  | none => exact Nat.le_max_right _ _
  | some src =>
    have hlen : (s.sendMbuf ++ src.rest.take (min io (min (toSize (src.file.cl - src.file.sent))
        (limit - s.sendMbuf.length)))).length ≤ max limit s.sendMbuf.length := by
      rw [List.length_append, List.length_take]
      omega
    dsimp only
    split
    · exact hlen
    · exact hlen

/-- … nor does it after the socket has taken something. -/
theorem write_sendMbuf_le (limit k io : Nat) (s : Download) :
    (s.write limit k io).sendMbuf.length ≤ max limit s.sendMbuf.length := by
  unfold Download.write
  dsimp only
  split
  · exact Nat.le_max_right _ _
  · refine (transfer_sendMbuf_le limit io _).trans ?_
    dsimp only
    rw [List.length_drop]
    omega

/-- The length of the heads of the responses. -/
def headsLength (ios : List Io) : Nat :=
  ((ios.filterMap Io.asked).map FileRequest.headBytes).flatten.length

/-- **The send buffer is bounded**: a run adds no more than the heads to the limit. -/
theorem run_sendMbuf_le (limit : Nat) (s : Download) (ios : List Io) :
    (s.run limit ios).sendMbuf.length ≤ max limit s.sendMbuf.length + headsLength ios := by
  induction ios generalizing s with
  | nil => exact Nat.le_max_right _ _
  | cons e ios ih =>
    have hrest := ih (s.step limit e)
    show ((s.step limit e).run limit ios).sendMbuf.length ≤ _
    cases e with
    | poll io =>
      have hstep : (s.step limit (.poll io)).sendMbuf.length ≤ max limit s.sendMbuf.length :=
        transfer_sendMbuf_le limit io s
      have hheads : headsLength (.poll io :: ios) = headsLength ios := rfl
      omega
    | write k io =>
      have hstep : (s.step limit (.write k io)).sendMbuf.length ≤ max limit s.sendMbuf.length :=
        write_sendMbuf_le limit k io s
      have hheads : headsLength (.write k io :: ios) = headsLength ios := rfl
      omega
    | request f io io' =>
      have hold := transfer_sendMbuf_le limit io s
      -- a head is buffered whatever the limit says, the file is not
      have hnew : (s.step limit (.request f io io')).sendMbuf.length ≤
          max limit ((s.transfer limit io).sendMbuf.length + f.headBytes.length) := by
        show (serveFile limit f io' (s.transfer limit io).renew).sendMbuf.length ≤ _
        rw [serveFile_eq, ← List.length_append]
        exact transfer_sendMbuf_le limit io' _
      have hheads : headsLength (.request f io io' :: ios) =
          f.headBytes.length + headsLength ios := List.length_append
      omega

/-! ## The bytes behind the numbers of `Net` -/

/-- The connection in `Net` that a download is about. -/
def Download.conn (c : MgConnection) (pd : MgHttpProtoData) (s : Download) : MgConnection :=
  { c with
    sendMbuf := s.sendMbuf.length
    protoData := some { pd with file := s.source.map Source.file }
    flags := { c.flags with sendAndClose := s.sendAndClose } }

/-- A transfer is a transfer in `Net`, with what the file can give. -/
theorem transfer_conn (c : MgConnection) (pd : MgHttpProtoData) (io : Nat) {src : Source}
    (hs : s.source = some src) (hput : src.file.isPut = false) :
    (s.transfer MG_MAX_HTTP_SEND_MBUF io).conn c pd =
      (s.conn c pd).transferFileData (min io src.rest.length) := by
  obtain ⟨wire, sendMbuf, source, closing⟩ := s
  obtain rfl : source = some src := hs
  obtain ⟨⟨isPut, cl, sent, ka⟩, rest⟩ := src
  obtain rfl : isPut = false := hput
  unfold Download.transfer
  dsimp only
  generalize hbytes : rest.take (min io (min (toSize (cl - sent))
    (MG_MAX_HTTP_SEND_MBUF - sendMbuf.length))) = bytes
  have hlen : min (min io rest.length) (min (toSize (cl - sent))
      (MG_MAX_HTTP_SEND_MBUF - sendMbuf.length)) = bytes.length := by
    rw [← hbytes, List.length_take]
    omega
  have happ : (sendMbuf ++ bytes).length = sendMbuf.length + bytes.length := List.length_append
  unfold MgConnection.transferFileData MgHttpProtoDataFile.chunk MgConnection.moveFileData
  show Download.conn c pd (if _ then _ else _) = _
  dsimp only [Download.conn, Option.map]
  rw [if_neg Bool.false_ne_true, hlen]
  -- the flag is set with the last byte, unless the connection is kept alive
  by_cases hdone : cl ≤ sent + bytes.length
  · rw [if_pos hdone, if_pos (by simp [hdone])]
    dsimp only [MgConnection.mgSend, MgConnection.setSendAndClose]
    rw [happ]
    cases ka
    all_goals simp
  · rw [if_neg hdone, if_neg (by simp [hdone])]
    dsimp only [MgConnection.mgSend]
    rw [happ]
    simp

/-- **The bytes are those the loop counts**: where the socket of a connection with an open file
is writable, the loop leaves the connection as `write` leaves the download. -/
theorem mgIfCanSendCb_conn {net : Net} {nc : ConnPtr} (tmp : Option ConnPtr) {c : MgConnection}
    {pd : MgHttpProtoData} {src : Source} {env : Env} {k : Nat}
    (hc : net.heap nc = some (s.conn c pd))
    (hproto : c.protoHandler = some .mgHttpHandler) (himm : c.flags.closeImmediately = false)
    (hlisten : c.flags.listening = false) (hs : s.source = some src) (hput : src.file.isPut = false)
    (hcan : env.canWrite = true) (hsend : env.send = some k)
    (hio : env.fileIo = min io src.rest.length) :
    ∃ net', mgIfCanSendCb net nc tmp env = .ok (.visit tmp, net') ∧
      net'.heap nc = some ((s.write MG_MAX_HTTP_SEND_MBUF k io).conn c pd) := by
  have himm' : (s.conn c pd).flags.closeImmediately = false := himm
  have hlisten' : (s.conn c pd).flags.listening = false := hlisten
  have hlen : (s.conn c pd).sendMbuf = s.sendMbuf.length := rfl
  unfold mgIfCanSendCb Download.write
  rw [Net.deref_bind hc, hcan, himm', hlisten', hlen, hsend]
  dsimp only
  by_cases hempty : s.sendMbuf.length = 0
  · rw [if_pos (by simp [hempty]), if_pos (by omega)]
    exact ⟨net, rfl, hc⟩
  · rw [if_neg (by simp [hempty])]
    cases k with
    | zero =>
      rw [if_pos (Nat.zero_min _)]
      exact ⟨net, rfl, hc⟩
    | succ k =>
      have hmtu : 0 < MG_TCP_IO_SIZE := by decide
      rw [if_neg (by omega)]
      generalize hw : min (k + 1) (min s.sendMbuf.length MG_TCP_IO_SIZE) = w
      let moved : Download :=
        { s with wire := s.wire ++ s.sendMbuf.take w, sendMbuf := s.sendMbuf.drop w }
      -- the connection that is written back is that of the download with its bytes moved
      have hmoved : { s.conn c pd with sendMbuf := s.sendMbuf.length - w } = moved.conn c pd := by
        unfold Download.conn
        rw [← List.length_drop]
      have hcall : mgCall (net.put nc (moved.conn c pd)) nc .send env =
          .ok ((net.put nc (moved.conn c pd)).put nc
            ((moved.conn c pd).transferFileData env.fileIo)) := by
        have hproto' : (moved.conn c pd).protoHandler = some .mgHttpHandler := hproto
        unfold mgCall
        rw [Net.deref_bind (Lib.Heap.put_self _ _ _), hproto']
        rfl
      have htransfer : (moved.transfer MG_MAX_HTTP_SEND_MBUF io).conn c pd =
          (moved.conn c pd).transferFileData (min io src.rest.length) :=
        transfer_conn c pd io hs hput
      show ∃ net', (mgCall (net.put nc { s.conn c pd with
        sendMbuf := s.sendMbuf.length - min (k + 1) (min s.sendMbuf.length MG_TCP_IO_SIZE) })
          nc .send env >>= fun n => Except.ok (MgPc.visit tmp, n)) =
        Except.ok (MgPc.visit tmp, net') ∧ _
      rw [hw, hmoved, hcall, hio, ← htransfer]
      exact ⟨_, rfl, Lib.Heap.put_self _ _ _⟩

end

end SimplestWeb.Mongoose
