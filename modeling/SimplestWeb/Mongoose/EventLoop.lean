import SimplestWeb.Mongoose.Net

/-!
# The event loop of a manager

`mg_mgr_poll` and the closing loop of `mg_mgr_free`, cut at every point where
another thread may run in between and the user's handler may be entered. The
position of a thread inside the loop is an `MgPc`; `mgStep` runs the code up
to the next position. The environment's answers (which sockets are ready,
what `recv`, `send`, `accept` and `malloc` return, what the code that is not
modelled does) are an `Env`.

The positions, for the connection `nc` being handled and `tmp = nc->next`,
read before anything is called on `nc`:

| position  | next statement                                                |
|-----------|---------------------------------------------------------------|
| `visit`   | the head of `for (nc = ...; nc != NULL; nc = tmp)`            |
| `read`    | `if (fd_flags & _MG_F_FD_CAN_READ)` of `mg_mgr_handle_conn`   |
| `recv`    | the loop of `mg_do_recv`                                      |
| `again`   | the label `again` of `mg_http_handler`                        |
| `request` | the user's handler, about to be entered with `HTTP_REQUEST`   |
| `served`  | `mbuf_remove(io, hm->message.len)` after it                   |
| `write`   | `if (fd_flags & _MG_F_FD_CAN_WRITE)`                          |
| `close`   | `mg_close_conn` after its `mg_do_recv`                        |
| `destroy` | the rest of the `MG_EV_CLOSE` callback and `mg_destroy_conn`  |

Mirroring notes:
- The user's handler is a parameter `user` of the loop. This program's
  handler ignores every event except `MG_EV_HTTP_REQUEST`, so only that
  entry is a position of its own.
- The descriptor sets of `select` are answered at the place they are read.
- Websocket frames, timers and the control socket change nothing but the
  buffers of the connection; endpoints are never registered.
-/

namespace SimplestWeb.Mongoose

/-- What `recv` returns; no bytes is the orderly shutdown. -/
inductive Recv
  | bytes (bs : Bytes)
  | wouldBlock
  | error
  deriving DecidableEq, Repr

/-- What `mg_serve_http` does to the connection: how many bytes it sends, the
flags it raises, the file it opens and the address of the CGI forwarder it
starts. `undefined` says that its own behaviour is undefined: a buffer of its
stack overrun, or an `int` overflowed. -/
structure ServeFx where
  sent : Nat := 0
  sendAndClose : Bool := false
  closeImmediately : Bool := false
  file : Option MgHttpProtoDataFile → Option MgHttpProtoDataFile := id
  cgi : Option ConnPtr := none
  undefined : Bool := false

/-- The environment's answers to one step. -/
structure Env where
  canRead : Bool := false
  canWrite : Bool := false
  accept : Option ConnPtr := none
  recv : Recv := .wouldBlock
  /-- `tcp_send`; `none` is an error -/
  send : Option Nat := some 0
  /-- bytes `fread` or `fwrite` moves -/
  fileIo : Nat := 0
  callocOk : Bool := true
  /-- bytes sent by and taken by handlers that are not part of the loop, and
  whether the one of websockets closes the connection -/
  sent : Nat := 0
  removed : Nat := 0
  wsClose : Bool := false
  fx : ServeFx := {}

/-- The events other than `MG_EV_HTTP_REQUEST` that a modelled handler acts on. -/
inductive Ev
  | poll
  | send
  | recv
  | close
  deriving DecidableEq, Repr

/-- Which callback of `mg_http_handler` delivers a request: `MG_EV_RECV`,
from `mg_mgr_handle_conn` or from `mg_close_conn`, or `MG_EV_CLOSE`. -/
inductive Site
  | recv (closing : Bool)
  | close
  deriving DecidableEq, Repr

/-- Where a thread stands inside the loop. -/
inductive MgPc
  | visit (nc : Option ConnPtr)
  | read (nc : ConnPtr) (tmp : Option ConnPtr)
  | recv (nc : ConnPtr) (tmp : Option ConnPtr) (closing : Bool)
  | again (nc : ConnPtr) (tmp : Option ConnPtr) (closing : Bool)
  | request (site : Site) (nc : ConnPtr) (tmp : Option ConnPtr) (hm : HttpMessage)
  | served (nc : ConnPtr) (tmp : Option ConnPtr) (closing : Bool) (hm : HttpMessage)
  | write (nc : ConnPtr) (tmp : Option ConnPtr)
  | close (nc : ConnPtr) (tmp : Option ConnPtr)
  | destroy (nc : ConnPtr) (tmp : Option ConnPtr)
  deriving DecidableEq, Repr

/-- The loop of `mg_socket_if_poll`, or the closing loop of `mg_mgr_free`. -/
inductive LoopKind
  | poll
  | free
  deriving DecidableEq, Repr

/-- What a step shows. -/
inductive MgEvent
  | accepted (lc nc : ConnPtr)
  | request (nc : ConnPtr)
  deriving DecidableEq, Repr

/-- The user's event handler on `MG_EV_HTTP_REQUEST`. -/
abbrev UserHandler := Net → ConnPtr → ServeFx → Except Fault Net

def MG_MAX_HTTP_REQUEST_SIZE : Nat := 8192
def MG_TCP_IO_SIZE : Nat := 1460

/-! ## The handlers -/

/-- `mg_forward`. -/
def mgForward (n : Net) (src dst : ConnPtr) : Except Fault Net := do
  let c ← n.deref src
  let n ← n.modify dst fun d => d.mgSend c.recvMbuf.length
  n.modify src fun c => { c with recvMbuf := [] }

/-- `mg_cgi_ev_handler`. The reply line and the headers are `sent` bytes. -/
def mgCgiEvHandler (n : Net) (cgiNc : ConnPtr) (ev : Ev) (sent : Nat) : Except Fault Net := do
  let c ← n.deref cgiNc
  match c.userData with
  | none => n.modify cgiNc MgConnection.setCloseImmediately
  | some (.serveHttpOpts _) => .error .badCast
  | some (.connection nc) =>
    match ev with
    | .poll | .send => return n
    | .close =>
      let n ← mgHttpFreeProtoDataCgi n nc
      n.modify nc MgConnection.setSendAndClose
    | .recv =>
      let d ← n.deref nc
      if d.flags.user1 then
        match mgHttpGetRequestLen 0 c.recvMbuf with
        | .incomplete => return n
        | len =>
          let bad := len = .malformed || MG_MAX_HTTP_REQUEST_SIZE < c.recvMbuf.length
          let n ← n.modify cgiNc fun c => if bad then c.setCloseImmediately else c
          let n ← n.modify nc fun d =>
            let d := { d.mgSend sent with flags := { d.flags with user1 := false } }
            if bad then d.setSendAndClose else d
          mgForward n cgiNc nc
      else mgForward n cgiNc nc

/-- `mg_ws_handler`: a ping when polled, the delivery of the buffered frames
when data has arrived. -/
def mgWsHandler (c : MgConnection) (ev : Ev) (env : Env) : MgConnection :=
  match ev with
  | .poll => c.mgSend env.sent
  | .recv =>
    let c := (c.mgSend env.sent).recvRemove env.removed
    if env.wsClose then c.setSendAndClose else c
  | .send | .close => c

/-- `mg_call(nc, NULL, nc->user_data, ev, ...)` for `MG_EV_POLL`, `MG_EV_SEND`
and the beginning of `MG_EV_RECV`: the protocol handler if there is one, else
the user's. -/
def mgCall (n : Net) (nc : ConnPtr) (ev : Ev) (env : Env) : Except Fault Net := do
  let c ← n.deref nc
  match c.protoHandler with
  | some .mgHttpHandler => return n.put nc (c.transferFileData env.fileIo)
  | some .mgWsHandler => return n.put nc (mgWsHandler c ev env)
  | none =>
    match c.handler with
    | .evHandler => return n
    | .mgCgiEvHandler => mgCgiEvHandler n nc ev env.sent

/-- The answer to a request without CGI: bytes, flags and perhaps a file. -/
def ServeFx.apply (fx : ServeFx) (c : MgConnection) : MgConnection :=
  { c.mgSend fx.sent with
    protoData := c.protoData.map fun pd => { pd with file := fx.file pd.file }
    flags := { c.flags with
      sendAndClose := c.flags.sendAndClose || fx.sendAndClose
      closeImmediately := c.flags.closeImmediately || fx.closeImmediately } }

/-- The forwarder `mg_handle_cgi` creates for the client `nc`, with the request
body already queued. -/
def cgiForwarder (mgr : MgrPtr) (nc : ConnPtr) (body : Nat) : MgConnection :=
  { mgCreateConnectionBase mgr .mgCgiEvHandler with
    hasSock := true, userData := some (.connection nc), sendMbuf := body }

/-- The client after `mg_handle_cgi`. -/
def MgConnection.attachCgi (c : MgConnection) (pd : MgHttpProtoData) (g : ConnPtr) :
    MgConnection :=
  { c with
    protoData := some { pd with cgiNc := some g }
    flags := { c.flags with user1 := true }
    recvMbuf := [] }

/-- `mg_serve_http`, as far as the connections are concerned; starting a CGI
process adds its forwarder (`mg_handle_cgi`). -/
def mgServeHttp (n : Net) (nc : ConnPtr) (fx : ServeFx) : Except Fault Net := do
  let c ← n.deref nc
  if fx.undefined then .error .serveHttp
  else
    match fx.cgi with
    | none => return n.put nc (fx.apply c)
    | some _ =>
      match n.malloc fx.cgi, c.protoData with
      | some g, some pd =>
        let n ← mgAddConn n g (cgiForwarder c.mgr nc fx.sent)
        return n.put nc ((fx.apply c).attachCgi pd g)
      | _, _ => .error .nullDeref

/-! ## The steps -/

/-- The beginning of `mg_close_conn`: drain the socket, unless there is none. -/
def mgCloseConn (n : Net) (nc : ConnPtr) (tmp : Option ConnPtr) : Except Fault (MgPc × Net) := do
  let c ← n.deref nc
  return (if c.hasSock then .recv nc tmp true else .close nc tmp, n)

/-- `mg_if_poll`, the first thing `mg_mgr_handle_conn` does. -/
def mgIfPoll (n : Net) (nc : ConnPtr) (tmp : Option ConnPtr) (env : Env) :
    Except Fault (MgPc × Net) := do
  let c ← n.deref nc
  if c.flags.closeImmediately then mgCloseConn n nc tmp
  else if c.flags.sendAndClose && c.sendMbuf == 0 then
    let n ← n.modify nc MgConnection.setCloseImmediately
    mgCloseConn n nc tmp
  else if !c.flags.sendAndClose && c.flags.recvAndClose then mgCloseConn n nc tmp
  else
    let n ← mgCall n nc .poll env
    return (.read nc tmp, n)

/-- One round of the loop starts: `tmp = nc->next`, then the body. -/
def mgVisit (kind : LoopKind) (n : Net) (mgr : MgrPtr) (nc : ConnPtr) (env : Env) :
    Except Fault (MgPc × Net) := do
  let m ← n.derefMgr mgr
  let tmp := nextOf nc m.activeConnections
  match kind with
  | .poll => mgIfPoll n nc tmp env
  | .free =>
    let n ← n.modify nc MgConnection.setCloseImmediately
    mgCloseConn n nc tmp

/-- The read half of `mg_mgr_handle_conn`. -/
def mgMgrHandleConn (n : Net) (nc : ConnPtr) (tmp : Option ConnPtr) (env : Env) :
    Except Fault (MgPc × Net × List MgEvent) := do
  if !env.canRead then return (.write nc tmp, n, [])
  else
    let c ← n.deref nc
    if c.flags.listening then
      let (r, n) ← mgAcceptConn n nc env.accept
      return (.write nc tmp, n, (r.map (MgEvent.accepted nc)).toList)
    else return (.recv nc tmp false, n, [])

/-- Where `mg_do_recv` returns to. -/
def afterRecv (nc : ConnPtr) (tmp : Option ConnPtr) (closing : Bool) : MgPc :=
  if closing then .close nc tmp else .write nc tmp

/-- One round of `mg_do_recv`. Its entry test and its loop condition both stop
at `MG_F_CLOSE_IMMEDIATELY`, so they are one test here. -/
def mgDoRecv (n : Net) (nc : ConnPtr) (tmp : Option ConnPtr) (closing : Bool) (env : Env) :
    Except Fault (MgPc × Net) := do
  let c ← n.deref nc
  if c.flags.closeImmediately || c.flags.listening then return (afterRecv nc tmp closing, n)
  else if c.throttled then
    if closing then return (.visit tmp, n.put nc c.setRecvAndClose) else return (.write nc tmp, n)
  else
    match env.recv with
    | .wouldBlock => return (afterRecv nc tmp closing, n)
    | .error => return (afterRecv nc tmp closing, n.put nc c.setCloseImmediately)
    | .bytes [] => return (afterRecv nc tmp closing, n.put nc c.setSendAndClose)
    | .bytes (b :: bs) =>
      let n ← mgCall (n.put nc { c with recvMbuf := c.recvMbuf ++ b :: bs }) nc .recv env
      return (if c.protoHandler = some .mgHttpHandler then .again nc tmp closing
        else .recv nc tmp closing, n)

/-- `mg_http_get_endpoint_handler(nc->listener, ...)`: the listener's endpoints
are looked through; none was ever registered, so the result is null. -/
def mgHttpGetEndpointHandler (n : Net) (listener : Option ConnPtr) : Except Fault Unit :=
  match listener with
  | none => .ok ()
  | some lc => do
    let _ ← n.deref lc
    return ()

/-- The upgrade to a websocket: the protocol handler changes, the handshake is
sent unless the handler raised a closing flag, and the rest of the buffer is
websocket data. `reply` is false where the connection is the client. -/
def MgConnection.upgrade (c : MgConnection) (reqLen : Nat) (reply : Bool) (env : Env) :
    MgConnection :=
  let c := { c.recvRemove reqLen with
    protoHandler := some .mgWsHandler
    flags := { c.flags with isWebsocket := true } }
  if reply && (c.flags.closeImmediately || c.flags.sendAndClose) then c
  else
    let c := if reply && c.sendMbuf == 0 then c.mgSend env.sent else c
    mgWsHandler c .recv env

/-- The framing of a chunked body is removed, any other buffer stays. -/
def dechunk (buf : Bytes) (reqLen : Nat) (hm : HttpMessage) : Bytes × HttpMessage :=
  if ((mgGetHttpHeader hm (cstr "Transfer-Encoding")).map (vcaseEq · (cstr "chunked"))).getD false
  then mgHandleChunked buf reqLen hm else (buf, hm)

/-- `pd->rcvd = io->len` before the buffer was dechunked to `buf`. -/
def MgConnection.received (c : MgConnection) (buf : Bytes) : MgConnection :=
  { c with
    recvMbuf := buf
    protoData := c.protoData.map fun pd => { pd with rcvd := c.recvMbuf.length } }

/-- What `mg_http_handler` does with a parsed message: the chain of `else if`s
from the websocket client to the complete request. `c` is the connection as
left by `received`. -/
def mgHttpDispatch (n : Net) (nc : ConnPtr) (tmp : Option ConnPtr) (closing : Bool)
    (c : MgConnection) (rcvd reqLen : Nat) (hm : HttpMessage) (env : Env) :
    Except Fault (MgPc × Net) :=
  if c.listener.isNone && c.flags.isWebsocket then
    if hm.respCode = 101 && (mgGetHttpHeader hm (cstr "Sec-WebSocket-Accept")).isSome then
      return (.recv nc tmp closing, n.put nc (c.upgrade reqLen false env))
    else return (.recv nc tmp closing, n.put nc (c.setCloseImmediately.recvRemove reqLen))
  else if c.listener.isSome && (mgGetHttpHeader hm (cstr "Sec-WebSocket-Key")).isSome then do
    mgHttpGetEndpointHandler n c.listener
    return (.recv nc tmp closing, n.put nc (c.upgrade reqLen true env))
  else if rcvd < hm.messageLen then
    -- not yet received the whole body
    return (.recv nc tmp closing, n.put nc
      (if 0 < c.recvMbufLimit && c.throttled then c.setCloseImmediately else c))
  else
    let hm := { hm with bodyLen := c.recvMbuf.length - reqLen }
    return (if c.listener.isSome then .request (.recv closing) nc tmp hm
      else .served nc tmp closing hm, n.put nc c)

/-- `mg_http_handler` from the label `again` on, up to the delivery. -/
def mgHttpHandler (n : Net) (nc : ConnPtr) (tmp : Option ConnPtr) (closing : Bool) (env : Env) :
    Except Fault (MgPc × Net) := do
  let c ← n.deref nc
  match mgParseHttp c.recvMbuf c.listener.isSome with
  | .malformed => return (.recv nc tmp closing, n.put nc c.setCloseImmediately)
  | .incomplete =>
    return (.recv nc tmp closing, n.put nc
      (if MG_MAX_HTTP_REQUEST_SIZE ≤ c.recvMbuf.length then c.setCloseImmediately else c))
  | .complete reqLen hm =>
    let n ← mgHttpCreateProtoData n nc env.callocOk
    let c ← n.deref nc
    let r := dechunk c.recvMbuf reqLen hm
    mgHttpDispatch n nc tmp closing (c.received r.1) c.recvMbuf.length reqLen r.2 env

/-- Where the delivery of a request returns to. -/
def afterRequest (site : Site) (nc : ConnPtr) (tmp : Option ConnPtr) (hm : HttpMessage) : MgPc :=
  match site with
  | .recv closing => .served nc tmp closing hm
  | .close => .destroy nc tmp

/-- `mg_http_call_endpoint_handler` on `MG_EV_HTTP_REQUEST`: there is no endpoint
handler, so the connection's own is entered. -/
def mgHttpCallEndpointHandler (user : UserHandler) (n : Net) (site : Site) (nc : ConnPtr)
    (tmp : Option ConnPtr) (hm : HttpMessage) (env : Env) :
    Except Fault (MgPc × Net × List MgEvent) := do
  let c ← n.deref nc
  mgHttpGetEndpointHandler n c.listener
  if c.protoData.isNone then .error .nullDeref
  else
    match c.handler with
    | .evHandler =>
      let n ← user n nc env.fx
      return (afterRequest site nc tmp hm, n, [.request nc])
    | .mgCgiEvHandler =>
      let n ← mgCgiEvHandler n nc .poll env.sent
      return (afterRequest site nc tmp hm, n, [])

/-- The end of `mg_http_handler` on `MG_EV_RECV`: drop the message and look at
the buffer again, unless a file or a CGI process is still answering. -/
def mgHttpRequestDone (n : Net) (nc : ConnPtr) (tmp : Option ConnPtr) (closing : Bool)
    (hm : HttpMessage) : Except Fault (MgPc × Net) := do
  let c ← n.deref nc
  match c.protoData with
  | none => .error .nullDeref
  | some pd =>
    let c := { c.recvRemove hm.messageLen with
      protoData := some { pd with rcvd := (pd.rcvd + 2 ^ 64 - hm.messageLen) % 2 ^ 64 } }
    let requestDone := pd.file.isNone && pd.cgiNc.isNone
    return (if requestDone && !c.recvMbuf.isEmpty then .again nc tmp closing
      else .recv nc tmp closing, n.put nc c)

/-- `mg_if_can_send_cb`, where the socket is writable. -/
def mgIfCanSendCb (n : Net) (nc : ConnPtr) (tmp : Option ConnPtr) (env : Env) :
    Except Fault (MgPc × Net) := do
  let c ← n.deref nc
  if !env.canWrite || c.flags.closeImmediately || c.flags.listening || c.sendMbuf == 0 then
    return (.visit tmp, n)
  else
    match env.send with
    | none =>
      let n ← mgCall (n.put nc c.setCloseImmediately) nc .send env
      return (.visit tmp, n)
    | some 0 => return (.visit tmp, n)
    | some k =>
      let k := min k (min c.sendMbuf MG_TCP_IO_SIZE)
      let n ← mgCall (n.put nc { c with sendMbuf := c.sendMbuf - k }) nc .send env
      return (.visit tmp, n)

/-- `mg_close_conn` after draining: unlink the connection, close its socket and
start the `MG_EV_CLOSE` callback, which delivers a buffered request. -/
def mgCloseConnCb (n : Net) (nc : ConnPtr) (tmp : Option ConnPtr) (env : Env) :
    Except Fault (MgPc × Net) := do
  let n ← n.modify nc MgConnection.closeSock
  let n ← mgRemoveConn n nc
  let c ← n.deref nc
  match c.protoHandler with
  | some .mgHttpHandler =>
    let n ← unlinkCgi n c.cgiNc
    match mgParseHttp c.recvMbuf c.listener.isSome with
    | .complete reqLen hm =>
      let hm := { hm with messageLen := c.recvMbuf.length, bodyLen := c.recvMbuf.length - reqLen }
      return (if c.listener.isSome then .request .close nc tmp hm else .destroy nc tmp, n)
    | _ => return (.destroy nc tmp, n)
  | some .mgWsHandler => return (.destroy nc tmp, n)
  | none =>
    match c.handler with
    | .evHandler => return (.destroy nc tmp, n)
    | .mgCgiEvHandler =>
      let n ← mgCgiEvHandler n nc .close env.sent
      return (.destroy nc tmp, n)

/-- The rest of the `MG_EV_CLOSE` callback, and `mg_destroy_conn`. -/
def mgFinishClose (n : Net) (nc : ConnPtr) (tmp : Option ConnPtr) (env : Env) :
    Except Fault (MgPc × Net) := do
  let n ← n.modify nc fun c =>
    if c.protoHandler = some .mgHttpHandler then c.transferFileData env.fileIo else c
  let n ← mgDestroyConn n nc
  return (.visit tmp, n)

/-- A step that shows nothing. -/
def quiet (r : Except Fault (MgPc × Net)) : Except Fault (MgPc × Net × List MgEvent) :=
  r.map fun r => (r.1, r.2, [])

/-- One step of the thread `mgr` inside the loop. (At `visit none` the loop is
over and the caller goes on.) -/
def mgStep (user : UserHandler) (kind : LoopKind) (n : Net) (mgr : MgrPtr) (pc : MgPc)
    (env : Env) : Except Fault (MgPc × Net × List MgEvent) :=
  match pc with
  | .visit none => .ok (pc, n, [])
  | .visit (some nc) => quiet (mgVisit kind n mgr nc env)
  | .read nc tmp => mgMgrHandleConn n nc tmp env
  | .recv nc tmp closing => quiet (mgDoRecv n nc tmp closing env)
  | .again nc tmp closing => quiet (mgHttpHandler n nc tmp closing env)
  | .request site nc tmp hm => mgHttpCallEndpointHandler user n site nc tmp hm env
  | .served nc tmp closing hm => quiet (mgHttpRequestDone n nc tmp closing hm)
  | .write nc tmp => quiet (mgIfCanSendCb n nc tmp env)
  | .close nc tmp => quiet (mgCloseConnCb n nc tmp env)
  | .destroy nc tmp => quiet (mgFinishClose n nc tmp env)

/-- Enter the loop: `nc = mgr->active_connections`. -/
def mgLoopStart (n : Net) (mgr : MgrPtr) : Except Fault MgPc := do
  let m ← n.derefMgr mgr
  return .visit m.activeConnections.head?

end SimplestWeb.Mongoose
