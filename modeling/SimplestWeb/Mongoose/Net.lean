import SimplestWeb.Lib.OwnedHeap
import SimplestWeb.Mongoose.HttpMessage
import SimplestWeb.Mongoose.Address

/-!
# Connections and managers

The data model of `mongoose.c` as far as this program's configuration uses
it, and the functions that create, link, unlink and destroy connections.

`Net` is the memory all server threads share: the heap of
`struct mg_connection`s and the managers that are initialised and not yet
freed. A manager is a local of its thread, so the thread's number is its
address. Connection addresses are chosen by `malloc` — any free address, so
an address may be used again after `free`.

Mirroring notes:
- The list threaded through `next`/`prev` is `activeConnections`; `nc->next`
  is `nextOf`.
- `send_mbuf` is its length: what is sent never decides anything here. Bytes
  appended by code that is not modelled (`mg_serve_http`, websocket frames,
  CGI headers) are a number chosen by the environment.
- Only the flags that TCP servers of this configuration use are kept. No UDP
  socket exists (`mgParseAddress_toString`) and TLS is not compiled in.
- Dereferencing a dangling or null pointer is a `Fault`; it stops the model. So
  is what goes wrong inside `mg_serve_http`, which is modelled elsewhere (`Ssi`).
-/

namespace SimplestWeb.Mongoose

open SimplestWeb.Lib (Heap)

/-- Undefined behaviour and abnormal termination. -/
inductive Fault
  | useAfterFree
  | nullDeref
  | badCast
  | stdTerminate
  | signedOverflow
  | serveHttp
  deriving DecidableEq, Repr

/-- `struct mg_connection *`. -/
abbrev ConnPtr := Nat

/-- `struct mg_mgr *`: the number of the thread whose local it is. -/
abbrev MgrPtr := Nat

/-- The `void *user_data` values of this program: the `mg_serve_http_opts`
local of a server thread, or the client connection of a CGI forwarder. -/
inductive VoidPtr
  | serveHttpOpts (t : Nat)
  | connection (nc : ConnPtr)
  deriving DecidableEq, Repr

/-- The functions stored in `nc->handler`. -/
inductive Handler
  | evHandler
  | mgCgiEvHandler
  deriving DecidableEq, Repr

/-- The functions stored in `nc->proto_handler`. -/
inductive ProtoHandler
  | mgHttpHandler
  | mgWsHandler
  deriving DecidableEq, Repr

/-- The `MG_F_*` bits in use. `user1` is `MG_F_HTTP_CGI_PARSE_HEADERS`. -/
structure Flags where
  listening : Bool := false
  isWebsocket : Bool := false
  recvAndClose : Bool := false
  sendAndClose : Bool := false
  closeImmediately : Bool := false
  user1 : Bool := false
  deriving DecidableEq, Repr

/-- `struct mg_http_proto_data_file` while `fp` is open; `isPut` tells
`DATA_PUT` from `DATA_FILE`. -/
structure MgHttpProtoDataFile where
  isPut : Bool
  cl : Int
  sent : Int
  keepalive : Bool
  deriving DecidableEq, Repr

/-- `struct mg_http_proto_data`. -/
structure MgHttpProtoData where
  file : Option MgHttpProtoDataFile := none
  cgiNc : Option ConnPtr := none
  rcvd : Nat := 0
  deriving DecidableEq, Repr

/-- `struct mg_connection`. `hasSock` is `sock != INVALID_SOCKET`. -/
structure MgConnection where
  listener : Option ConnPtr := none
  mgr : MgrPtr
  hasSock : Bool := false
  recvMbufLimit : Nat := sizeMax
  recvMbuf : Bytes := []
  sendMbuf : Nat := 0
  protoHandler : Option ProtoHandler := none
  protoData : Option MgHttpProtoData := none
  handler : Handler
  userData : Option VoidPtr := none
  flags : Flags := {}
  deriving DecidableEq, Repr

/-- `struct mg_mgr`. `ctl` says whether the control socket pair is open. -/
structure MgMgr where
  activeConnections : List ConnPtr := []
  ctl : Bool
  deriving DecidableEq, Repr

/-- The shared memory of the servers. -/
structure Net where
  heap : Heap ConnPtr MgConnection
  mgrs : Heap MgrPtr MgMgr

/-- No connection and no manager yet. -/
def Net.empty : Net := ⟨fun _ => none, fun _ => none⟩

namespace MgConnection

/-- The CGI forwarder the proto data points to. -/
def cgiNc (c : MgConnection) : Option ConnPtr := c.protoData.bind MgHttpProtoData.cgiNc

def setCloseImmediately (c : MgConnection) : MgConnection :=
  { c with flags := { c.flags with closeImmediately := true } }

def setSendAndClose (c : MgConnection) : MgConnection :=
  { c with flags := { c.flags with sendAndClose := true } }

def setRecvAndClose (c : MgConnection) : MgConnection :=
  { c with flags := { c.flags with recvAndClose := true } }

/-- `nc->flags |= MG_F_CLOSE_IMMEDIATELY`, then `closesocket`. -/
def closeSock (c : MgConnection) : MgConnection := { c.setCloseImmediately with hasSock := false }

/-- `mg_set_protocol_http_websocket`. -/
def mgSetProtocolHttpWebsocket (c : MgConnection) : MgConnection :=
  { c with protoHandler := some .mgHttpHandler }

/-- `nc->user_data = p`. -/
def setUserData (c : MgConnection) (p : VoidPtr) : MgConnection := { c with userData := some p }

/-- `mg_send`. -/
def mgSend (c : MgConnection) (len : Nat) : MgConnection := { c with sendMbuf := c.sendMbuf + len }

/-- `mbuf_remove(&nc->recv_mbuf, n)`. -/
def recvRemove (c : MgConnection) (n : Nat) : MgConnection :=
  if 0 < n && n ≤ c.recvMbuf.length then { c with recvMbuf := c.recvMbuf.drop n } else c

/-- `recv_avail_size(nc, max) == 0` for a positive `max`. -/
def throttled (c : MgConnection) : Bool := decide (c.recvMbufLimit ≤ c.recvMbuf.length)

end MgConnection

/-- `mg_create_connection_base`: the block `calloc` returned, filled in. -/
def mgCreateConnectionBase (mgr : MgrPtr) (callback : Handler) : MgConnection :=
  { mgr := mgr, handler := callback }

/-- `nc->next` in the list of its manager. -/
def nextOf (nc : ConnPtr) : List ConnPtr → Option ConnPtr
  | [] => none
  | a :: rest => if a = nc then rest.head? else nextOf nc rest

namespace Net

/-- `*nc`. -/
def deref (n : Net) (nc : ConnPtr) : Except Fault MgConnection :=
  match n.heap nc with
  | some c => .ok c
  | none => .error .useAfterFree

/-- `*mgr`. -/
def derefMgr (n : Net) (mgr : MgrPtr) : Except Fault MgMgr :=
  match n.mgrs mgr with
  | some m => .ok m
  | none => .error .useAfterFree

/-- Store `c` at `nc`. -/
def put (n : Net) (nc : ConnPtr) (c : MgConnection) : Net := { n with heap := n.heap.put nc c }

/-- Store `m` at `mgr`. -/
def putMgr (n : Net) (mgr : MgrPtr) (m : MgMgr) : Net := { n with mgrs := n.mgrs.put mgr m }

/-- `*nc = f(*nc)`. -/
def modify (n : Net) (nc : ConnPtr) (f : MgConnection → MgConnection) : Except Fault Net :=
  match n.heap nc with
  | some c => .ok (n.put nc (f c))
  | none => .error .useAfterFree

/-- The address `malloc` answers with, if it answers: a free one. -/
def malloc (n : Net) (answer : Option ConnPtr) : Option ConnPtr :=
  answer.filter fun a => (n.heap a).isNone

end Net

/-! ### When the primitives succeed -/

section

variable {α β : Type} {n n' : Net} {a : ConnPtr} {c : MgConnection}

/-- A sequence succeeds when both parts do. -/
theorem seq_eq_ok {x : Except Fault α} {f : α → Except Fault β} {r : β} :
    (x >>= f) = .ok r ↔ ∃ y, x = .ok y ∧ f y = .ok r := by
  match x with
  | .ok y => simp [bind, Except.bind]
  | .error _ => simp [bind, Except.bind]

theorem pure_eq_ok {x y : α} : (pure x : Except Fault α) = .ok y ↔ x = y := by
  simp [pure, Except.pure]

/-- Reading succeeds on a live connection. -/
theorem Net.deref_eq_ok : n.deref a = .ok c ↔ n.heap a = some c := by
  unfold deref
  split <;> simp_all

theorem Net.derefMgr_eq_ok {t : MgrPtr} {m : MgMgr} : n.derefMgr t = .ok m ↔ n.mgrs t = some m := by
  unfold derefMgr
  split <;> simp_all

/-- So does writing. -/
theorem Net.modify_eq_ok {f : MgConnection → MgConnection} :
    n.modify a f = .ok n' ↔ ∃ c, n.heap a = some c ∧ n' = n.put a (f c) := by
  unfold modify
  split
  next c hc => simp [hc, eq_comm]
  next hnone => simp [hnone]

/-- Reading a live connection, then going on. -/
theorem Net.deref_bind (hc : n.heap a = some c) (f : MgConnection → Except Fault α) :
    (n.deref a >>= f) = f c := by
  rw [Net.deref_eq_ok.mpr hc]
  rfl

/-- Rewriting a live connection, then going on. -/
theorem Net.modify_bind (hc : n.heap a = some c) (f : MgConnection → MgConnection)
    (g : Net → Except Fault α) : (n.modify a f >>= g) = g (n.put a (f c)) := by
  rw [Net.modify_eq_ok.mpr ⟨c, hc, rfl⟩]
  rfl

/-- `malloc` gives a block that was free. -/
theorem Net.malloc_eq_some {r : Option ConnPtr} :
    n.malloc r = some a ↔ r = some a ∧ n.heap a = none := by
  simp [malloc, Option.filter_eq_some_iff]

/-- What is there can be removed. -/
theorem recvRemove_of_le {c : MgConnection} {k : Nat} (h : k ≤ c.recvMbuf.length) :
    c.recvRemove k = { c with recvMbuf := c.recvMbuf.drop k } := by
  unfold MgConnection.recvRemove
  by_cases hk : k = 0
  · subst hk
    rw [if_neg (by simp), List.drop_zero]
  · rw [if_pos (by simp; omega)]

@[simp] theorem Net.put_heap : (n.put a c).heap = n.heap.put a c := rfl

@[simp] theorem Net.putMgr_mgrs {t : MgrPtr} {m : MgMgr} :
    (n.putMgr t m).mgrs = n.mgrs.put t m := rfl

end

/-! ## The list of active connections -/

/-- `mg_add_conn` for a connection just created at `nc`. -/
def mgAddConn (n : Net) (nc : ConnPtr) (c : MgConnection) : Except Fault Net :=
  match n.mgrs c.mgr with
  | some m => .ok ((n.put nc c).putMgr c.mgr { m with activeConnections := nc :: m.activeConnections })
  | none => .error .useAfterFree

/-- `mg_remove_conn`. -/
def mgRemoveConn (n : Net) (nc : ConnPtr) : Except Fault Net :=
  match n.heap nc with
  | none => .error .useAfterFree
  | some c =>
    match n.mgrs c.mgr with
    | some m => .ok (n.putMgr c.mgr { m with activeConnections := m.activeConnections.erase nc })
    | none => .error .useAfterFree

/-! ## CGI forwarders and proto data -/

/-- `c->user_data = NULL; c->flags |= MG_F_CLOSE_IMMEDIATELY`. -/
def MgConnection.loseClient (c : MgConnection) : MgConnection :=
  { c.setCloseImmediately with userData := none }

/-- The forwarder `d->cgi_nc`, if there is one, loses its client. -/
def unlinkCgi (n : Net) (cgiNc : Option ConnPtr) : Except Fault Net :=
  match cgiNc with
  | none => .ok n
  | some g => n.modify g MgConnection.loseClient

/-- `mg_http_free_proto_data_cgi(&mg_http_get_proto_data(nc)->cgi)`. -/
def mgHttpFreeProtoDataCgi (n : Net) (nc : ConnPtr) : Except Fault Net := do
  let c ← n.deref nc
  match c.protoData with
  | none => .error .nullDeref
  | some pd =>
    let n ← unlinkCgi n pd.cgiNc
    n.modify nc fun c => { c with protoData := some { pd with cgiNc := none } }

/-- `mg_http_create_proto_data`: flush the old proto data, if any, and start
afresh. (A failing `calloc` is `none`; its result is dereferenced.) -/
def mgHttpCreateProtoData (n : Net) (nc : ConnPtr) (callocOk : Bool) : Except Fault Net := do
  let c ← n.deref nc
  let n ← unlinkCgi n c.cgiNc
  if callocOk then n.modify nc fun c => { c with protoData := some {} } else .error .nullDeref

/-- `mg_destroy_conn`: run the proto data's destructor and free the block. -/
def mgDestroyConn (n : Net) (nc : ConnPtr) : Except Fault Net := do
  let c ← n.deref nc
  let n ← unlinkCgi n c.cgiNc
  return { n with heap := n.heap.free nc }

/-! ## Listening and accepting -/

/-- What the system answers to `mg_bind`: the hosts file, `calloc` and
`socket`/`bind`/`listen`. -/
structure BindEnv where
  hosts : List Char → Bool := fun _ => false
  calloc : Option ConnPtr := none
  listenOk : Bool := false

/-- The listening connection `mg_bind_opt` creates. -/
def listeningConn (mgr : MgrPtr) (callback : Handler) : MgConnection :=
  { mgCreateConnectionBase mgr callback with hasSock := true, flags := { listening := true } }

/-- `mg_bind(mgr, address, callback)`: `none` is the null pointer. When
`listen_tcp` fails the connection is destroyed before it was ever linked. -/
def mgBind (n : Net) (mgr : MgrPtr) (address : String) (callback : Handler) (env : BindEnv) :
    Except Fault (Option ConnPtr × Net) :=
  match mgParseAddress env.hosts address.toList with
  | none => .ok (none, n)
  | some _ =>
    match n.malloc env.calloc with
    | none => .ok (none, n)
    | some nc =>
      if env.listenOk then do
        let n ← mgAddConn n nc (listeningConn mgr callback)
        return (some nc, n)
      else .ok (none, n)

/-- What `mg_if_accept_new_conn(lc)` fills in: the handlers, the user data and
the limit are copied from the listener `l`. -/
def mgIfAcceptNewConn (lc : ConnPtr) (l : MgConnection) : MgConnection :=
  { mgCreateConnectionBase l.mgr l.handler with
    hasSock := true
    listener := some lc
    protoHandler := l.protoHandler
    userData := l.userData
    recvMbufLimit := l.recvMbufLimit }

/-- `mg_accept_conn`: `accept` and `calloc` answer with a connection or not.
(The `MG_EV_ACCEPT` callback that follows does nothing in any handler.) -/
def mgAcceptConn (n : Net) (lc : ConnPtr) (answer : Option ConnPtr) :
    Except Fault (Option ConnPtr × Net) := do
  let l ← n.deref lc
  match n.malloc answer with
  | none => return (none, n)
  | some nc =>
    let n ← mgAddConn n nc (mgIfAcceptNewConn lc l)
    return (some nc, n)

/-! ## Managers -/

/-- `mg_mgr_init`: the array of interfaces and its one element are allocated,
which is not checked, and the control sockets are opened (or not, if
`socketpair` fails). -/
def mgMgrInit (n : Net) (mgr : MgrPtr) (ifaces ctl : Bool) : Except Fault Net :=
  if ifaces then .ok (n.putMgr mgr { ctl := ctl }) else .error .nullDeref

/-- The last statements of `mg_mgr_free`: the interface array is released. -/
def mgMgrFreeIfaces (n : Net) (mgr : MgrPtr) : Net := { n with mgrs := n.mgrs.free mgr }

/-! ## File transfers -/

def MG_MAX_HTTP_SEND_MBUF : Nat := 4096

/-- How many bytes one call moves, when `fread` or `fwrite` could move `io`. -/
def MgHttpProtoDataFile.chunk (f : MgHttpProtoDataFile) (c : MgConnection) (io : Nat) : Nat :=
  let left := toSize (f.cl - f.sent)
  if f.isPut then min io (min left c.recvMbuf.length)
  else min io (min left (MG_MAX_HTTP_SEND_MBUF - c.sendMbuf))

/-- Move `n` bytes between the connection and the file. -/
def MgConnection.moveFileData (c : MgConnection) (f : MgHttpProtoDataFile) (n : Nat) :
    MgConnection :=
  if f.isPut then c.recvRemove n else c.mgSend n

/-- `mg_http_transfer_file_data`, where a file is open: move a chunk, and close
the file when it is complete or, on a `PUT`, when nothing could be moved. -/
def MgConnection.transferFileData (c : MgConnection) (io : Nat) : MgConnection :=
  match c.protoData with
  | none => c
  | some pd =>
    match pd.file with
    | none => c
    | some f =>
      let n := f.chunk c io
      let f' := { f with sent := f.sent + n }
      if f'.cl ≤ f'.sent || (f.isPut && n == 0) then
        let c := { c.moveFileData f n with protoData := some { pd with file := none } }
        if f.keepalive then c else c.setSendAndClose
      else { c.moveFileData f n with protoData := some { pd with file := some f' } }

end SimplestWeb.Mongoose
