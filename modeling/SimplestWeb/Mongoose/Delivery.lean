import SimplestWeb.Mongoose.Chunked
import SimplestWeb.Mongoose.HttpRequest
import SimplestWeb.Mongoose.LoopInv
import SimplestWeb.Mongoose.UriPath

/-!
# What is delivered from a buffer

From the label `again` on `mg_http_handler` takes one request after the other from the buffer
of a connection and delivers it to the user's handler, before more is read from the socket.
`Requests` cuts a buffer into the requests that are delivered, and `Stage` says how far the
thread is with them. One step of the thread is one stage further (`Stage.step`), and the
steps of the others change nothing (`Stage.congr`). A file that is left open, or a CGI process,
ends the loop early, so that no answer but the last may leave one.

The thread waits for the rest of a request by reading the socket and looking into the buffer again
(`Receiving`); what was received of a body in chunks may be spoilt by then (`Garbled`).
-/

namespace SimplestWeb.Mongoose

open SimplestWeb.Lib (Framing Heap)

/-- A request as the user's handler is entered with it, and the buffer it lies in. -/
abbrev Delivery := HttpMessage × Bytes

variable {n n' : Net} {t : MgrPtr} {lc nc : ConnPtr} {buf rest : Bytes} {env : Env}
  {user : UserHandler} {kind : LoopKind} {tmp : Option ConnPtr} {closing : Bool}
  {hm : HttpMessage} {reqLen : Nat} {pc pc' : MgPc} {evs : List MgEvent} {d : Delivery}
  {ds : List Delivery} {k : Nat}

/-- What is delivered at a position. -/
def MgPc.shown (n : Net) : MgPc → List Delivery
  | .request _ nc _ hm => [(hm, ((n.heap nc).map MgConnection.recvMbuf).getD [])]
  | _ => []

/-! ## The requests of a buffer -/

/-- The buffer does not grow when the framing is removed. -/
theorem dechunk_length_le (buf : Bytes) (reqLen : Nat) (hm : HttpMessage) :
    (dechunk buf reqLen hm).1.length ≤ buf.length := by
  unfold dechunk
  split
  next => exact mgHandleChunked_length_le buf reqLen hm
  next => exact Nat.le_refl _

/-- The message as it is shown: the body reaches to the end of the buffer. -/
def delivered (buf : Bytes) (reqLen : Nat) (hm : HttpMessage) : HttpMessage :=
  { (dechunk buf reqLen hm).2 with bodyLen := (dechunk buf reqLen hm).1.length - reqLen }

/-- The first request of a buffer, as it is delivered, and what it leaves. It is not an upgrade
to a websocket, and has been received as a whole. -/
inductive Yields : Bytes → Delivery → Bytes → Prop
  | mk {buf : Bytes} {reqLen : Nat} {hm : HttpMessage}
      (hparse : mgParseHttp buf true = .complete reqLen hm)
      (hws : mgGetHttpHeader (dechunk buf reqLen hm).2 (cstr "Sec-WebSocket-Key") = none)
      (hle : (dechunk buf reqLen hm).2.messageLen ≤ (dechunk buf reqLen hm).1.length) :
      Yields buf (delivered buf reqLen hm, (dechunk buf reqLen hm).1)
        ((dechunk buf reqLen hm).1.drop (dechunk buf reqLen hm).2.messageLen)

/-- The requests of a buffer, one behind the other, and what they leave. -/
inductive Requests : Bytes → List Delivery → Bytes → Prop
  | nil (buf : Bytes) : Requests buf [] buf
  | cons {buf buf' rest : Bytes} {d : Delivery} {ds : List Delivery} (hy : Yields buf d buf')
      (hr : Requests buf' ds rest) : Requests buf (d :: ds) rest

/-- An empty buffer holds no request. -/
theorem Yields.buf_ne (h : Yields buf d rest) : buf ≠ [] := by
  obtain ⟨hparse, -, -⟩ := h
  rintro rfl
  cases hparse

/-- Something is left for the requests behind the first one. -/
theorem Requests.left_ne (h : Requests buf ds rest) (hbuf : buf ≠ []) :
    0 < ds.length ∨ rest ≠ [] := by
  cases h with
  | nil => exact Or.inr hbuf
  | cons => exact Or.inl (Nat.succ_pos _)

/-! ## Where the thread stands -/

/-- `nc` was accepted, and has `buf` in its buffer. -/
def Buffered (n : Net) (nc : ConnPtr) (buf : Bytes) : Prop :=
  ∃ c, n.heap nc = some c ∧ c.listener ≠ none ∧ c.recvMbuf = buf

/-- … and a request of it is about to be answered. -/
def Shown (n : Net) (nc : ConnPtr) (buf : Bytes) : Prop :=
  ∃ c pd, n.heap nc = some c ∧ c.listener ≠ none ∧ c.recvMbuf = buf ∧ c.protoData = some pd ∧
    pd.file = none ∧ pd.cgiNc = none

/-- … and has been answered. If something is left behind it, that was done at once. (A CGI process
takes the buffer.) -/
def Answered (n : Net) (nc : ConnPtr) (buf : Bytes) (hm : HttpMessage) : Prop :=
  ∃ c pd, n.heap nc = some c ∧ c.listener ≠ none ∧ c.protoData = some pd ∧
    (c.recvMbuf = buf ∧ (buf.drop hm.messageLen ≠ [] → pd.file = none ∧ pd.cgiNc = none) ∨
      c.recvMbuf = [] ∧ buf.drop hm.messageLen = [])

/-- Where the loop goes on with `rest` in the buffer. -/
def resume (nc : ConnPtr) (tmp : Option ConnPtr) (closing : Bool) (rest : Bytes) : MgPc :=
  if rest.isEmpty then .recv nc tmp closing else .again nc tmp closing

/-- The thread is to deliver `ds` from the buffer of `nc`, with `k` steps to go. -/
inductive Stage (n : Net) (nc : ConnPtr) (tmp : Option ConnPtr) (closing : Bool) (rest : Bytes) :
    MgPc → List Delivery → Nat → Prop
  | again {buf : Bytes} {d : Delivery} {ds : List Delivery} (h : Buffered n nc buf)
      (hr : Requests buf (d :: ds) rest) :
      Stage n nc tmp closing rest (.again nc tmp closing) (d :: ds) (3 * ds.length + 3)
  | request {buf : Bytes} {hm : HttpMessage} {ds : List Delivery} (h : Shown n nc buf)
      (hle : hm.messageLen ≤ buf.length) (hr : Requests (buf.drop hm.messageLen) ds rest) :
      Stage n nc tmp closing rest (.request (.recv closing) nc tmp hm) ((hm, buf) :: ds)
        (3 * ds.length + 2)
  | served {buf : Bytes} {hm : HttpMessage} {ds : List Delivery} (h : Answered n nc buf hm)
      (hle : hm.messageLen ≤ buf.length) (hr : Requests (buf.drop hm.messageLen) ds rest) :
      Stage n nc tmp closing rest (.served nc tmp closing hm) ds (3 * ds.length + 1)
  | done (h : Buffered n nc rest) : Stage n nc tmp closing rest (resume nc tmp closing rest) [] 0

/-- No file is left open and no CGI process started: `mg_serve_http` has answered when it
returns. -/
structure AtOnce (env : Env) : Prop where
  cgi : env.fx.cgi = none
  file : env.fx.file none = none

/-- On the accepted connections of thread `t` the user's handler is `mg_serve_http`. -/
def Serves (user : UserHandler) (n : Net) (t : MgrPtr) (lc nc : ConnPtr) : Prop :=
  ∀ c fx, n.heap nc = some c → AcceptedConn t lc c → user n nc fx = mgServeHttp n nc fx

theorem Buffered.congr (heq : n'.heap nc = n.heap nc) (h : Buffered n nc buf) :
    Buffered n' nc buf := by
  unfold Buffered
  rw [heq]
  exact h

/-- Only the connection itself matters. -/
theorem Stage.congr (heq : n'.heap nc = n.heap nc) (h : Stage n nc tmp closing rest pc ds k) :
    Stage n' nc tmp closing rest pc ds k := by
  cases h with
  | again h hr => exact .again (h.congr heq) hr
  | request h hle hr =>
    refine .request ?_ hle hr
    unfold Shown
    rw [heq]
    exact h
  | served h hle hr =>
    refine .served ?_ hle hr
    unfold Answered
    rw [heq]
    exact h
  | done h => exact .done (h.congr heq)

/-! ## The steps -/

/-- A handled connection that was accepted. -/
theorem Handling.accepted (H : Handling n t lc nc tmp) {c : MgConnection}
    (hc : n.heap nc = some c) (hl : c.listener ≠ none) : c.mgr = t ∧ AcceptedConn t lc c :=
  ⟨H.live.mgr hc, H.wired.accepted hc (H.live.mgr hc) hl⟩

/-- Proto data is allocated; the forwarder that is cut off is another connection. -/
theorem mgHttpCreateProtoData_heap (H : Handling n t lc nc tmp) {c : MgConnection}
    (hc : n.heap nc = some c) (hl : c.listener ≠ none) {ok : Bool}
    (h : mgHttpCreateProtoData n nc ok = .ok n') :
    n'.heap nc = some { c with protoData := some {} } := by
  obtain ⟨ht, hacc⟩ := H.accepted hc hl
  unfold mgHttpCreateProtoData at h
  rw [Net.deref_bind hc] at h
  obtain ⟨n₁, h₁, h⟩ := seq_eq_ok.mp h
  have hc₁ : n₁.heap nc = some c := by
    unfold unlinkCgi at h₁
    split at h₁
    next => cases h₁; exact hc
    next g hg =>
      obtain ⟨cg, hcg, -, hh, -⟩ := H.wired.link nc c g hc ht hg
      obtain ⟨cg', hcg', rfl⟩ := Net.modify_eq_ok.mp h₁
      rw [← hc]
      refine Heap.put_ne _ _ ?_
      rintro rfl
      obtain rfl : c = cg := Option.some.inj (hc.symm.trans hcg)
      rw [hacc.handler] at hh
      simp at hh
  split at h
  next =>
    obtain ⟨c', hc', rfl⟩ := Net.modify_eq_ok.mp h
    obtain rfl : c = c' := Option.some.inj (hc₁.symm.trans hc')
    exact Heap.put_self _ _ _
  next => cases h

/-- From `again` to the user's handler. -/
theorem mgHttpHandler_yields (H : Handling n t lc nc tmp) (h : Buffered n nc buf)
    (hy : Yields buf d rest) (hr : mgHttpHandler n nc tmp closing env = .ok (pc', n')) :
    pc' = .request (.recv closing) nc tmp d.1 ∧ Shown n' nc d.2 ∧ d.1.messageLen ≤ d.2.length ∧
      rest = d.2.drop d.1.messageLen := by
  obtain ⟨c, hc, hl, rfl⟩ := h
  cases hy with
  | @mk reqLen hm hparse hws hle =>
  have hreq : c.listener.isSome = true := Option.isSome_iff_ne_none.mpr hl
  have hshort : (dechunk c.recvMbuf reqLen hm).2.messageLen ≤ c.recvMbuf.length :=
    hle.trans (dechunk_length_le _ _ _)
  unfold mgHttpHandler at hr
  rw [Net.deref_bind hc, hreq, hparse] at hr
  obtain ⟨n₁, h₁, hr⟩ := seq_eq_ok.mp hr
  rw [Net.deref_bind (mgHttpCreateProtoData_heap H hc hl h₁)] at hr
  -- it is neither a websocket nor incomplete
  unfold mgHttpDispatch MgConnection.received at hr
  dsimp only at hr
  obtain ⟨l, hll⟩ := Option.ne_none_iff_exists'.mp hl
  rw [hll, hws, if_neg (by simp), if_neg (by simp), if_neg (Nat.not_lt.mpr hshort)] at hr
  cases hr
  refine ⟨rfl, ⟨_, _, Heap.put_self _ _ _, ?_, rfl, rfl, rfl, rfl⟩, hle, rfl⟩
  simp

/-- From the user's handler to `mbuf_remove`. -/
theorem mgHttpCallEndpointHandler_shown (H : Handling n t lc nc tmp) (hu : Serves user n t lc nc)
    (h : Shown n nc buf) (he : buf.drop hm.messageLen ≠ [] → AtOnce env)
    (hr : mgHttpCallEndpointHandler user n (.recv closing) nc tmp hm env = .ok (pc', n', evs)) :
    pc' = .served nc tmp closing hm ∧ Answered n' nc buf hm := by
  obtain ⟨c, pd, hc, hl, rfl, hpd, hfile, hcgi⟩ := h
  obtain ⟨-, hacc⟩ := H.accepted hc hl
  unfold mgHttpCallEndpointHandler at hr
  rw [Net.deref_bind hc] at hr
  obtain ⟨-, -, hr⟩ := seq_eq_ok.mp hr
  rw [hpd, hacc.handler] at hr
  obtain ⟨n₁, h₁, hr⟩ := seq_eq_ok.mp hr
  cases pure_eq_ok.mp hr
  refine ⟨rfl, ?_⟩
  rw [hu c env.fx hc hacc] at h₁
  unfold mgServeHttp at h₁
  rw [Net.deref_bind hc] at h₁
  have hfx : (env.fx.apply c).protoData = some { pd with file := env.fx.file pd.file } := by
    unfold ServeFx.apply
    rw [hpd]
    rfl
  split at h₁
  next => cases h₁
  split at h₁
  next =>
    -- bytes, flags and perhaps a file
    cases pure_eq_ok.mp h₁
    refine ⟨_, _, Heap.put_self _ _ _, hl, hfx, Or.inl ⟨rfl, fun hleft => ⟨?_, hcgi⟩⟩⟩
    rw [hfile]
    exact (he hleft).file
  next g hg =>
    split at h₁
    next g' pd' hg' hpd' =>
      -- the CGI process
      obtain ⟨n₂, -, h₁⟩ := seq_eq_ok.mp h₁
      cases pure_eq_ok.mp h₁
      refine ⟨_, _, Heap.put_self _ _ _, hl, rfl, Or.inr ⟨rfl, ?_⟩⟩
      by_contra hleft
      rw [(he hleft).cgi] at hg
      cases hg
    next => cases h₁

/-- The request is dropped. -/
theorem mgHttpRequestDone_answered (tmp : Option ConnPtr) (closing : Bool)
    (h : Answered n nc buf hm) (hle : hm.messageLen ≤ buf.length) :
    ∃ n', mgHttpRequestDone n nc tmp closing hm =
        .ok (resume nc tmp closing (buf.drop hm.messageLen), n') ∧
      Buffered n' nc (buf.drop hm.messageLen) := by
  obtain ⟨c, pd, hc, hl, hpd, hbuf⟩ := h
  unfold mgHttpRequestDone resume
  rw [Net.deref_bind hc, hpd]
  dsimp only
  rcases hbuf with ⟨rfl, hdone⟩ | ⟨hnil, hleft⟩
  · refine ⟨n.put nc { c with
        recvMbuf := c.recvMbuf.drop hm.messageLen
        protoData := some { pd with rcvd := (pd.rcvd + 2 ^ 64 - hm.messageLen) % 2 ^ 64 } },
      ?_, _, Heap.put_self _ _ _, hl, rfl⟩
    rw [recvRemove_of_le hle]
    cases hempty : (c.recvMbuf.drop hm.messageLen).isEmpty with
    | true => simp; rfl
    | false =>
      have hne : c.recvMbuf.drop hm.messageLen ≠ [] := List.isEmpty_eq_false_iff.mp hempty
      rw [(hdone hne).1, (hdone hne).2]
      rfl
  · -- nothing is left that could be removed
    have hkeep : c.recvRemove hm.messageLen = c := by
      unfold MgConnection.recvRemove
      rw [hnil, if_neg]
      rw [Bool.and_eq_true, decide_eq_true_iff, decide_eq_true_iff, List.length_nil]
      omega
    refine ⟨n.put nc { c with
        protoData := some { pd with rcvd := (pd.rcvd + 2 ^ 64 - hm.messageLen) % 2 ^ 64 } },
      ?_, _, Heap.put_self _ _ _, hl, hnil.trans hleft.symm⟩
    rw [hkeep, hleft, hnil]
    simp
    rfl

/-- **One step, one stage**: what is shown at the position is delivered, and the rest is still to
come. -/
theorem Stage.step (hpc : PcOk n t lc pc) (hst : Stage n nc tmp closing rest pc ds (k + 1))
    (hu : Serves user n t lc nc) (he : 1 < ds.length ∨ rest ≠ [] → AtOnce env)
    (hr : mgStep user kind n t pc env = .ok (pc', n', evs)) :
    ∃ ds', ds = pc.shown n ++ ds' ∧ ds'.length ≤ ds.length ∧
      Stage n' nc tmp closing rest pc' ds' k := by
  generalize hk : k + 1 = j at hst
  cases hst with
  | @again buf d ds h hreq =>
    obtain ⟨hr, -⟩ := quiet_eq_ok.mp hr
    cases hreq with
    | @cons _ buf' _ _ _ hy hreq =>
    obtain ⟨rfl, hshown, hle, rfl⟩ := mgHttpHandler_yields hpc.1 h hy hr
    obtain rfl : k = 3 * ds.length + 2 := by omega
    exact ⟨_, rfl, Nat.le_refl _, .request hshown hle hreq⟩
  | @request buf hm ds h hle hreq =>
    have he' : buf.drop hm.messageLen ≠ [] → AtOnce env := by
      intro hne
      refine he ?_
      rcases hreq.left_ne hne with hpos | hrest
      · exact Or.inl (by rw [List.length_cons]; omega)
      · exact Or.inr hrest
    obtain ⟨rfl, hans⟩ := mgHttpCallEndpointHandler_shown hpc.1 hu h he' hr
    obtain ⟨c, pd, hc, hl, hbuf, -⟩ := h
    obtain rfl : k = 3 * ds.length + 1 := by omega
    refine ⟨ds, ?_, Nat.le_succ _, .served hans hle hreq⟩
    show _ = [(hm, ((n.heap nc).map MgConnection.recvMbuf).getD [])] ++ ds
    rw [hc, Option.map_some, Option.getD_some, hbuf]
    rfl
  | @served buf hm ds h hle hreq =>
    obtain ⟨hr, -⟩ := quiet_eq_ok.mp hr
    obtain ⟨n₁, hdone, hbuf⟩ := mgHttpRequestDone_answered tmp closing h hle
    obtain ⟨rfl, rfl⟩ : resume nc tmp closing (buf.drop hm.messageLen) = pc' ∧ n₁ = n' := by
      have heq := hdone.symm.trans hr
      simpa using heq
    refine ⟨ds, rfl, Nat.le_refl _, ?_⟩
    cases hreq with
    | nil =>
      obtain rfl : k = 0 := by
        rw [List.length_nil] at hk
        omega
      exact .done hbuf
    | @cons _ _ _ d ds hy hreq =>
      have hagain : resume nc tmp closing (buf.drop hm.messageLen) = .again nc tmp closing := by
        unfold resume
        rw [if_neg]
        exact fun hnil => hy.buf_ne (List.isEmpty_iff.mp hnil)
      rw [hagain]
      obtain rfl : k = 3 * ds.length + 3 := by
        rw [List.length_cons] at hk
        omega
      exact .again hbuf (.cons hy hreq)
  | done => omega

/-- The connection is alive all the time. -/
theorem Stage.live (h : Stage n nc tmp closing rest pc ds k)
    (hpc : PcOk n t lc pc) : Live n t nc := by
  cases h with
  | again | request | served => exact hpc.1.live
  | done =>
    unfold resume at hpc
    split at hpc
    next => exact hpc.live
    next => exact hpc.1.live

/-- The steps to come. -/
theorem Stage.zero (hst : Stage n nc tmp closing rest pc ds 0) :
    ds = [] ∧ pc = resume nc tmp closing rest ∧ Buffered n nc rest := by
  generalize hk : 0 = j at hst
  cases hst with
  | again | request | served => omega
  | done h => exact ⟨rfl, rfl, h⟩

/-! ## Chunked or not -/

/-- The body of the message is chunked. -/
def IsChunked (hm : HttpMessage) : Prop :=
  ∃ v, mgGetHttpHeader hm (cstr "Transfer-Encoding") = some v ∧ vcaseEq v (cstr "chunked") = true

theorem dechunk_of (h : IsChunked hm) : dechunk buf reqLen hm = mgHandleChunked buf reqLen hm := by
  obtain ⟨v, hv, hc⟩ := h
  unfold dechunk
  rw [hv]
  exact if_pos hc

/-! ## Requests as they are sent -/

/-- A request as it is sent, with a body of the length it gives, and not an upgrade. -/
structure Sent where
  request : Request
  body : Bytes
  length : request.message.messageLen = (request.render ++ body).length
  plain : ¬ IsChunked request.message
  noUpgrade : mgGetHttpHeader request.message (cstr "Sec-WebSocket-Key") = none

def Sent.bytes (m : Sent) : Bytes := m.request.render ++ m.body

/-- The chunks end with the empty one. -/
theorem Chunks.ne_nil {s rest : Bytes} {datas : List Bytes} (h : Chunks s datas rest true) :
    datas ≠ [] := by
  cases h with
  | last | next => exact List.cons_ne_nil _ _

/-- A request with a body in chunks, whose end is given by the empty chunk alone. -/
structure Streamed where
  request : Request
  chunked : IsChunked request.message
  putOrPost : request.putOrPost = true
  noLength : request.contentLength = none
  noUpgrade : mgGetHttpHeader request.message (cstr "Sec-WebSocket-Key") = none

/-- Its length is not known. -/
theorem Streamed.messageLen (r : Streamed) : r.request.message.messageLen = sizeMax := by
  unfold Request.message
  dsimp only
  rw [r.noLength, r.putOrPost]
  rfl

/-- The body starts with a byte that no chunk starts with. -/
def Garbled (s : Bytes) : Prop := ∃ b r, s = b :: r ∧ isxdigit b = false

/-- More behind it does not help. -/
theorem Garbled.append {s : Bytes} (h : Garbled s) (t : Bytes) : Garbled (s ++ t) := by
  obtain ⟨b, r, rfl, hb⟩ := h
  exact ⟨b, r ++ t, rfl, hb⟩

/-- No chunk is found there. -/
theorem Garbled.noChunk {s : Bytes} (h : Garbled s) : mgHttpParseChunk s = none := by
  obtain ⟨b, r, rfl, hb⟩ := h
  cases hp : mgHttpParseChunk (b :: r) with
  | none => rfl
  | some p =>
    -- a chunk starts with a digit
    obtain ⟨enc, t, heq, ⟨hl⟩, -⟩ := mgHttpParseChunk_eq_some.mp hp
    obtain ⟨b', hex, rfl⟩ := List.exists_cons_of_ne_nil hl.ne
    obtain rfl : b = b' := by simpa using congrArg List.head? heq
    rw [hl.digits b List.mem_cons_self] at hb
    cases hb

/-- What is left of the framing when the buffer has been looked at. -/
inductive Unframed (r : Streamed) : Bytes → Bytes → Prop
  | garbled {s : Bytes} (h : Garbled s) :
      Unframed r (r.request.render ++ s) (r.request.render ++ s)
  | cut {enc rest : Bytes} {datas : List Bytes} (h : Chunks enc datas rest false)
      (hne : datas ≠ []) (hg : Garbled (datas.flatten ++ rest)) :
      Unframed r (r.request.render ++ enc) (r.request.render ++ (datas.flatten ++ rest))

/-- The message has no end, so that it is waited for. -/
theorem Unframed.dechunk {r : Streamed} {buf' : Bytes} (h : Unframed r buf buf') :
    mgParseHttp buf true = .complete r.request.render.length r.request.message ∧
      ∃ n, dechunk buf r.request.render.length r.request.message =
        (buf', { r.request.message with bodyLen := n }) := by
  cases h with
  | garbled h =>
    refine ⟨mgParseHttp_render _ _, r.request.message.bodyLen, ?_⟩
    rw [dechunk_of r.chunked, mgHandleChunked_none h.noChunk]
  | @cut enc rest datas h hne hg =>
    refine ⟨mgParseHttp_render _ _, datas.flatten.length, ?_⟩
    rw [dechunk_of r.chunked, mgHandleChunked_eq h hne, List.append_assoc]
    rfl

/-- Once it has been looked at, the body is garbled. -/
theorem Unframed.garbled_after {r : Streamed} {buf' : Bytes} (h : Unframed r buf buf') :
    ∃ s, buf' = r.request.render ++ s ∧ Garbled s := by
  cases h with
  | garbled h => exact ⟨_, rfl, h⟩
  | cut h hne hg => exact ⟨_, rfl, hg⟩

/-- `nc` has `buf` in its buffer, and no file is open. -/
def Waiting (n : Net) (nc : ConnPtr) (buf : Bytes) : Prop :=
  ∃ c, n.heap nc = some c ∧ c.listener ≠ none ∧ c.recvMbuf = buf ∧
    c.protoHandler = some .mgHttpHandler ∧ ∀ pd, c.protoData = some pd → pd.file = none

/-- From `again` back to the socket. -/
theorem mgHttpHandler_waits {r : Streamed} {buf' : Bytes} (H : Handling n t lc nc tmp)
    (h : Waiting n nc buf) (ho : Unframed r buf buf') (hsize : buf.length < sizeMax)
    (hr : mgHttpHandler n nc tmp closing env = .ok (pc', n')) :
    pc' = .recv nc tmp closing ∧ Waiting n' nc buf' := by
  obtain ⟨c, hc, hl, rfl, hp, -⟩ := h
  obtain ⟨hparse, len, hchunk⟩ := ho.dechunk
  have hreq : c.listener.isSome = true := Option.isSome_iff_ne_none.mpr hl
  unfold mgHttpHandler at hr
  rw [Net.deref_bind hc, hreq, hparse] at hr
  obtain ⟨n₁, h₁, hr⟩ := seq_eq_ok.mp hr
  rw [Net.deref_bind (mgHttpCreateProtoData_heap H hc hl h₁)] at hr
  dsimp only at hr
  rw [hchunk] at hr
  unfold mgHttpDispatch MgConnection.received at hr
  dsimp only at hr
  obtain ⟨l, hll⟩ := Option.ne_none_iff_exists'.mp hl
  have hws := r.noUpgrade
  unfold mgGetHttpHeader at hr hws
  rw [hll, hws, r.messageLen, if_neg (by simp), if_neg (by simp), if_pos hsize] at hr
  cases hr
  refine ⟨rfl, _, Heap.put_self _ _ _, ?_⟩
  split
  next =>
    unfold MgConnection.setCloseImmediately
    exact ⟨by simp, rfl, hp, by simp⟩
  next => exact ⟨by simp, rfl, hp, by simp⟩

/-- Where no file is open, none is moved. -/
theorem transferFileData_of_noFile {c : MgConnection} {io : Nat}
    (h : ∀ pd, c.protoData = some pd → pd.file = none) : c.transferFileData io = c := by
  unfold MgConnection.transferFileData
  split
  next => rfl
  next pd hpd => rw [h pd hpd]

/-- The thread has read what there is. -/
def LeavesRecv (nc : ConnPtr) (tmp : Option ConnPtr) (pc : MgPc) : Prop :=
  pc = .write nc tmp ∨ pc = .close nc tmp ∨ pc = .visit tmp

/-- One round of `mg_do_recv`: nothing is read, or more of the body. -/
theorem mgDoRecv_waits (h : Waiting n nc buf)
    (hr : mgDoRecv n nc tmp closing env = .ok (pc', n')) :
    (LeavesRecv nc tmp pc' ∧ Waiting n' nc buf) ∨
      ∃ bs, env.recv = .bytes bs ∧ pc' = .again nc tmp closing ∧ Waiting n' nc (buf ++ bs) := by
  have hafter : LeavesRecv nc tmp (afterRecv nc tmp closing) := by
    unfold afterRecv LeavesRecv
    cases closing with
    | true => exact Or.inr (Or.inl rfl)
    | false => exact Or.inl rfl
  have hkeep := h
  obtain ⟨c, hc, hl, rfl, hp, hfile⟩ := h
  unfold mgDoRecv at hr
  rw [Net.deref_bind hc] at hr
  split at hr
  next =>
    cases pure_eq_ok.mp hr
    exact Or.inl ⟨hafter, hkeep⟩
  next =>
    split at hr
    next =>
      split at hr
      next =>
        cases pure_eq_ok.mp hr
        exact Or.inl ⟨Or.inr (Or.inr rfl), _, Heap.put_self _ _ _, hl, rfl, hp, hfile⟩
      next =>
        cases pure_eq_ok.mp hr
        exact Or.inl ⟨Or.inl rfl, hkeep⟩
    next =>
      split at hr
      next =>
        cases pure_eq_ok.mp hr
        exact Or.inl ⟨hafter, hkeep⟩
      next =>
        cases pure_eq_ok.mp hr
        exact Or.inl ⟨hafter, _, Heap.put_self _ _ _, hl, rfl, hp, hfile⟩
      next =>
        cases pure_eq_ok.mp hr
        exact Or.inl ⟨hafter, _, Heap.put_self _ _ _, hl, rfl, hp, hfile⟩
      next b bs hrecv =>
        obtain ⟨n₁, h₁, hr⟩ := seq_eq_ok.mp hr
        cases pure_eq_ok.mp hr
        refine Or.inr ⟨b :: bs, hrecv, rfl, ?_⟩
        -- no file is open, so none is moved
        unfold mgCall at h₁
        rw [Net.deref_bind (Heap.put_self _ _ _)] at h₁
        dsimp only at h₁
        rw [hp] at h₁
        cases pure_eq_ok.mp h₁
        refine ⟨_, Heap.put_self _ _ _, ?_⟩
        rw [transferFileData_of_noFile (by exact hfile)]
        exact ⟨hl, rfl, rfl, hfile⟩

/-- How many bytes a step may read. -/
def Env.read (env : Env) : Nat :=
  match env.recv with
  | .bytes bs => bs.length
  | _ => 0

/-- The thread reads the rest of `r` into the buffer of `nc`, which has up to `m` bytes. -/
inductive Receiving (r : Streamed) (n : Net) (nc : ConnPtr) (tmp : Option ConnPtr)
    (closing : Bool) : MgPc → Nat → Prop
  | again {buf buf' : Bytes} {m : Nat} (h : Waiting n nc buf) (ho : Unframed r buf buf')
      (hlen : buf.length ≤ m) : Receiving r n nc tmp closing (.again nc tmp closing) m
  | recv {s : Bytes} {m : Nat} (h : Waiting n nc (r.request.render ++ s)) (hg : Garbled s)
      (hlen : (r.request.render ++ s).length ≤ m) :
      Receiving r n nc tmp closing (.recv nc tmp closing) m

theorem Waiting.congr (heq : n'.heap nc = n.heap nc) (h : Waiting n nc buf) :
    Waiting n' nc buf := by
  unfold Waiting
  rw [heq]
  exact h

theorem Receiving.congr {r : Streamed} {m : Nat} (heq : n'.heap nc = n.heap nc)
    (h : Receiving r n nc tmp closing pc m) : Receiving r n' nc tmp closing pc m := by
  cases h with
  | again h ho hlen => exact .again (h.congr heq) ho hlen
  | recv h hg hlen => exact .recv (h.congr heq) hg hlen

/-- Nothing is delivered at these positions. -/
theorem Receiving.shown_nil {r : Streamed} {m : Nat}
    (h : Receiving r n nc tmp closing pc m) : pc ≠ .visit none ∧ pc.shown n = [] := by
  cases h <;> exact ⟨by simp, rfl⟩

/-- The connection is alive all the time. -/
theorem Receiving.live {r : Streamed} {m : Nat}
    (h : Receiving r n nc tmp closing pc m) (hpc : PcOk n t lc pc) : Live n t nc := by
  cases h with
  | again => exact hpc.1.live
  | recv => exact hpc.live

theorem Unframed.length_le {r : Streamed} {buf' : Bytes} (h : Unframed r buf buf') :
    buf'.length ≤ buf.length := by
  cases h with
  | garbled => exact Nat.le_refl _
  | cut h hne hg =>
    have hle := Chunks.length_le h
    simp only [List.length_append]
    omega

/-- **Nothing is delivered**: the thread reads on, or leaves the connection alone with the head of
the request still in the buffer. -/
theorem Receiving.step {r : Streamed} {m : Nat} (hpc : PcOk n t lc pc)
    (h : Receiving r n nc tmp closing pc m) (hm : m < sizeMax)
    (hr : mgStep user kind n t pc env = .ok (pc', n', evs)) :
    Receiving r n' nc tmp closing pc' (m + env.read) ∨
      LeavesRecv nc tmp pc' ∧ ∃ s, Waiting n' nc (r.request.render ++ s) ∧ Garbled s := by
  cases h with
  | again h ho hlen =>
    obtain ⟨hr, -⟩ := quiet_eq_ok.mp hr
    obtain ⟨rfl, hw⟩ := mgHttpHandler_waits hpc.1 h ho (by omega) hr
    have hle := ho.length_le
    obtain ⟨s, rfl, hg⟩ := ho.garbled_after
    exact Or.inl (.recv hw hg (by omega))
  | @recv s _ h hg hlen =>
    obtain ⟨hr, -⟩ := quiet_eq_ok.mp hr
    rcases mgDoRecv_waits h hr with ⟨hleave, hw⟩ | ⟨bs, hrecv, rfl, hw⟩
    · exact Or.inr ⟨hleave, s, hw, hg⟩
    · left
      have hread : env.read = bs.length := by
        unfold Env.read
        rw [hrecv]
      rw [List.append_assoc] at hw
      refine .again hw (.garbled (hg.append bs)) ?_
      rw [← List.append_assoc, List.length_append, hread]
      omega

end SimplestWeb.Mongoose
