import SimplestWeb.Mongoose.EventLoop

/-!
# A server thread

`::StartWebServer` and `ev_handler` of `minimal.cpp` (lines 10–50), one
statement at a time. A thread is a `Worker`: its program counter and the
locals of its activation of `::StartWebServer`. Locals live until the
function returns; a pointer to them — `nc->user_data` to
`s_http_server_opts`, `document_root` to the characters of `startDir` — is
named by the number of the thread it points into, and following it after
that thread has returned is a `Fault`.

Mirroring notes:
- `portNo` is an `int` by value; `std::to_string` is `toString` on `Int`.
- `stopIt` is a plain `bool` written by the user interface's thread. The model
  interleaves its reads and the write; it does not reorder them.
- The options not set here stay null after the `memset`; `mg_serve_http` then
  uses its defaults.
-/

namespace SimplestWeb.Minimal

open SimplestWeb.Mongoose

/-- The `const char *` values of the options: the characters of the local
`startDir` of a thread, or a literal. -/
inductive CharPtr
  | startDir (t : Nat)
  | literal (s : String)
  deriving DecidableEq, Repr

/-- `mg_serve_http_opts`, after the `memset`. -/
structure MgServeHttpOpts where
  documentRoot : Option CharPtr := none
  enableDirectoryListing : Option CharPtr := none
  deriving DecidableEq, Repr

/-- The next statement of `::StartWebServer`. The loops inside
`mg_mgr_poll` and `mg_mgr_free` have positions of their own. -/
inductive WorkerPc
  | start
  | mgrInit
  | toString
  | bind
  | check
  | startDir
  | setProtocol
  | documentRoot
  | directoryListing
  | userData
  | test
  | poll (pc : MgPc)
  | freePoll (pc : MgPc)
  | freeCtl
  | freeClose (pc : MgPc)
  | freeIfaces
  | ret
  | done (v : Int)
  deriving DecidableEq, Repr

/-- A thread running `::StartWebServer(portNo)`. -/
structure Worker where
  portNo : Int
  pc : WorkerPc := .start
  opts : MgServeHttpOpts := {}
  p : String := ""
  nc : Option ConnPtr := none
  startDir : Option String := none
  deriving DecidableEq, Repr

/-- The thread's function has returned; its locals are gone. -/
def Worker.returned (w : Worker) : Bool :=
  match w.pc with
  | .done _ => true
  | _ => false

/-! ## `ev_handler` -/

/-- `*(mg_serve_http_opts*)p`. -/
def derefOpts (ws : List Worker) (p : Option VoidPtr) : Except Fault MgServeHttpOpts :=
  match p with
  | none => .error .nullDeref
  | some (.connection _) => .error .badCast
  | some (.serveHttpOpts t) =>
    match ws[t]? with
    | some w => if w.returned then .error .useAfterFree else .ok w.opts
    | none => .error .useAfterFree

/-- The string a `const char *` points to. -/
def derefCharPtr (ws : List Worker) (p : CharPtr) : Except Fault String :=
  match p with
  | .literal s => .ok s
  | .startDir t =>
    match ws[t]? with
    | some w =>
      match w.returned, w.startDir with
      | false, some d => .ok d
      | _, _ => .error .useAfterFree
    | none => .error .useAfterFree

/-- The directory `mg_serve_http` serves from. -/
def documentRoot (ws : List Worker) (opts : MgServeHttpOpts) : Except Fault String :=
  match opts.documentRoot with
  | none => .ok "."
  | some p => derefCharPtr ws p

/-- The document root `ev_handler` hands to `mg_serve_http` when it is entered
on `nc`. -/
def evHandlerRoot (ws : List Worker) (n : Net) (nc : ConnPtr) : Except Fault String := do
  let c ← n.deref nc
  let opts ← derefOpts ws c.userData
  documentRoot ws opts

/-- `ev_handler` on `MG_EV_HTTP_REQUEST`. What is found below the document
root decides the answer, and the answer is the environment's `fx`. -/
def evHandler (ws : List Worker) : UserHandler := fun n nc fx => do
  let _root ← evHandlerRoot ws n nc
  mgServeHttp n nc fx

/-! ## `::StartWebServer` -/

/-- The environment's answers to one step of a thread. -/
structure WorkerEnv extends Env where
  bind : BindEnv := {}
  /-- the interface array and its interface are allocated -/
  ifaces : Bool := true
  /-- `mg_socketpair` opens the control sockets -/
  ctl : Bool := true

/-- What a step of a thread shows. -/
inductive WorkerEvent
  | mgrInit
  | bound (nc : Option ConnPtr)
  | mg (e : MgEvent)
  | mgrFree
  | returned (v : Int)
  deriving DecidableEq, Repr

/-- One loop of mongoose inside `::StartWebServer`: `pc` is put back into the
thread by `k`, and when the loop is over the thread goes on at `exit`. -/
def runLoop (kind : LoopKind) (k : MgPc → WorkerPc) (exit : WorkerPc) (ws : List Worker) (t : Nat)
    (w : Worker) (n : Net) (pc : MgPc) (env : Env) :
    Except Fault (Worker × Net × List WorkerEvent) :=
  if pc = .visit none then .ok ({ w with pc := exit }, n, [])
  else do
    let (pc, n, evs) ← mgStep (evHandler ws) kind n t pc env
    return ({ w with pc := k pc }, n, evs.map .mg)

/-- One statement of `::StartWebServer` in thread `t`. (A thread that has
returned takes no step.) -/
def startWebServer (stopIt : Bool) (ws : List Worker) (t : Nat) (w : Worker) (n : Net)
    (env : WorkerEnv) : Except Fault (Worker × Net × List WorkerEvent) :=
  match w.pc with
  | .start => .ok ({ w with opts := {}, pc := .mgrInit }, n, [])
  | .mgrInit => do
    let n ← mgMgrInit n t env.ifaces env.ctl
    return ({ w with pc := .toString }, n, [.mgrInit])
  | .toString => .ok ({ w with p := toString w.portNo, pc := .bind }, n, [])
  | .bind => do
    let (nc, n) ← mgBind n t w.p .evHandler env.bind
    return ({ w with nc := nc, pc := .check }, n, [.bound nc])
  | .check =>
    match w.nc with
    | none => .ok ({ w with pc := .done (-1) }, n, [.returned (-1)])
    | some _ => .ok ({ w with pc := .startDir }, n, [])
  | .startDir => .ok ({ w with startDir := some ("./web-" ++ w.p), pc := .setProtocol }, n, [])
  | .setProtocol =>
    match w.nc with
    | none => .error .nullDeref
    | some nc => do
      let n ← n.modify nc MgConnection.mgSetProtocolHttpWebsocket
      return ({ w with pc := .documentRoot }, n, [])
  | .documentRoot =>
    .ok ({ w with opts := { w.opts with documentRoot := some (.startDir t) },
                  pc := .directoryListing }, n, [])
  | .directoryListing =>
    .ok ({ w with opts := { w.opts with enableDirectoryListing := some (.literal "yes") },
                  pc := .userData }, n, [])
  | .userData =>
    match w.nc with
    | none => .error .nullDeref
    | some nc => do
      let n ← n.modify nc (·.setUserData (.serveHttpOpts t))
      return ({ w with pc := .test }, n, [])
  | .test => do
    -- either way the next thing is a poll, the last one being the one in `mg_mgr_free`
    let pc ← mgLoopStart n t
    return ({ w with pc := if stopIt then .freePoll pc else .poll pc }, n, [])
  | .poll pc => runLoop .poll .poll .test ws t w n pc env.toEnv
  | .freePoll pc => runLoop .poll .freePoll .freeCtl ws t w n pc env.toEnv
  | .freeCtl => do
    let m ← n.derefMgr t
    let n := n.putMgr t { m with ctl := false }
    let pc ← mgLoopStart n t
    return ({ w with pc := .freeClose pc }, n, [])
  | .freeClose pc => runLoop .free .freeClose .freeIfaces ws t w n pc env.toEnv
  | .freeIfaces => .ok ({ w with pc := .ret }, mgMgrFreeIfaces n t, [.mgrFree])
  | .ret => .ok ({ w with pc := .done 0 }, n, [.returned 0])
  | .done _ => .ok (w, n, [])

end SimplestWeb.Minimal
