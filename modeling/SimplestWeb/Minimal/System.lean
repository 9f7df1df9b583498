import SimplestWeb.Lib.Machine
import SimplestWeb.Minimal.Server
import Mathlib.Data.List.AList

/-!
# The program

`MyApp` and the menu handler of `minimal.cpp` (lines 54–75 and 131–135)
together with any number of server threads, as one `Machine`. A label says
whose step it is and what the environment answers, so a run is one
interleaving of the user interface's thread with all server threads, under
one choice of user actions and system call results.

Mirroring notes:
- `webServerList` maps a key to the thread it holds: `some t` for a joinable
  `std::thread`, `none` for one that represents no thread.
- `webServerList[startPortNo] = std::thread(...)` is two steps: in C++17 the
  right-hand side is evaluated first, so between `click` and `assign` the new
  thread runs and is held by a temporary only. Assigning to a joinable thread
  is `std::terminate`, and so is an exception of `operator[]`, which destroys
  the temporary.
- When the construction throws, the exception leaves `MyApp::StartWebServer`
  and the handler.
- The iteration order of an `unordered_map` is unspecified: `onExit` brings
  any order of the keys.
- `GetNumberOfServers` converts `size()` to `int`.
- A fault stops the machine.
-/

namespace SimplestWeb.Minimal

open SimplestWeb.Lib SimplestWeb.Mongoose

/-- The threads held by the map: key to joinable thread. -/
abbrev WebServerList := AList fun _ : Int => Option Nat

/-- Where the user interface's thread stands. -/
inductive UiPc
  /-- in the event loop -/
  | idle
  /-- in `MyApp::StartWebServer`, thread `t` constructed, not yet assigned -/
  | assign (t : Nat)
  /-- before `return startPortNo++` -/
  | increment
  /-- in the menu handler, `StartWebServer` has returned `pNo` -/
  | status (pNo : Int)
  /-- in the loop of `MyApp::OnExit`, with these entries to come -/
  | join (rest : List Int)
  /-- `MyApp::OnExit` has returned -/
  | exited
  deriving DecidableEq, Repr

/-- `#define STARTINGPORTNO 8000`. -/
def STARTINGPORTNO : Int := 8000

/-- `INT_MAX`. -/
def INT_MAX : Int := 2 ^ 31 - 1

/-- The state of the program. -/
structure Sys where
  webServerList : WebServerList := ∅
  startPortNo : Int := STARTINGPORTNO
  stopIt : Bool := false
  ui : UiPc := .idle
  workers : List Worker := []
  net : Net := Net.empty
  fault : Option Fault := none

/-- Who moves, and what the environment answers. -/
inductive Label
  /-- the menu item, with the construction of the thread succeeding or throwing -/
  | click (ok : Bool)
  | assign
  /-- `webServerList[startPortNo]` throws -/
  | assignThrows
  | increment
  | status
  | onExit (order : List Int)
  | join
  | exit
  | worker (t : Nat) (env : WorkerEnv)

/-- What a step shows. -/
inductive Event
  | created (t : Nat) (portNo : Int)
  | threw
  | status (pNo number : Int)
  | stopIt
  | joined (t : Nat)
  | exited
  | worker (t : Nat) (e : WorkerEvent)
  | fault (f : Fault)
  deriving DecidableEq, Repr

/-- `MyApp::GetNumberOfServers`. -/
def Sys.getNumberOfServers (s : Sys) : Int := Int.bmod s.webServerList.entries.length (2 ^ 32)

/-- Stop at a fault. -/
def Sys.fail (s : Sys) (f : Fault) : Sys × List Event := ({ s with fault := some f }, [.fault f])

/-- `std::thread(::StartWebServer, startPortNo)`. -/
def Sys.constructThread (s : Sys) (ok : Bool) : Sys × List Event :=
  if ok then
    ({ s with workers := s.workers ++ [{ portNo := s.startPortNo }],
              ui := .assign s.workers.length },
      [.created s.workers.length s.startPortNo])
  else (s, [.threw])

/-- `webServerList[startPortNo] = ` the temporary that holds `t`. -/
def Sys.assignThread (s : Sys) (t : Nat) : Sys × List Event :=
  match s.webServerList.lookup s.startPortNo with
  | some (some _) => s.fail .stdTerminate
  | _ =>
    ({ s with webServerList := s.webServerList.insert s.startPortNo (some t), ui := .increment },
      [])

/-- `return startPortNo++`. -/
def Sys.returnPort (s : Sys) : Sys × List Event :=
  if s.startPortNo = INT_MAX then s.fail .signedOverflow
  else ({ s with startPortNo := s.startPortNo + 1, ui := .status s.startPortNo }, [])

/-- One round of the loop in `MyApp::OnExit`, at the entry of key `k`. `join`
waits for the thread. -/
def Sys.joinEntry (s : Sys) (k : Int) (rest : List Int) : Option (Sys × List Event) :=
  match s.webServerList.lookup k with
  | some (some t) =>
    if (s.workers[t]?.map Worker.returned).getD false then
      some ({ s with webServerList := s.webServerList.insert k none, ui := .join rest },
        [.joined t])
    else none
  | _ => some ({ s with ui := .join rest }, [])

/-- A step of thread `t`. -/
def Sys.workerStep (s : Sys) (t : Nat) (env : WorkerEnv) : Option (Sys × List Event) :=
  match s.workers[t]? with
  | none => none
  | some w =>
    if w.returned then none
    else
      match startWebServer s.stopIt s.workers t w s.net env with
      | .error f => some (s.fail f)
      | .ok (w, n, evs) =>
        some ({ s with workers := s.workers.set t w, net := n }, evs.map (.worker t))

/-- One step of the program. -/
def Sys.step (s : Sys) (l : Label) : Option (Sys × List Event) :=
  if s.fault.isSome then none
  else
    match l, s.ui with
    | .click ok, .idle => some (s.constructThread ok)
    | .assign, .assign t => some (s.assignThread t)
    | .assignThrows, .assign _ => some (s.fail .stdTerminate)
    | .increment, .increment => some s.returnPort
    | .status, .status pNo =>
      some ({ s with ui := .idle }, [.status pNo s.getNumberOfServers])
    | .onExit order, .idle =>
      if order.isPerm s.webServerList.keys then
        some ({ s with stopIt := true, ui := .join order }, [.stopIt])
      else none
    | .join, .join (k :: rest) => s.joinEntry k rest
    | .exit, .join [] => some ({ s with ui := .exited }, [.exited])
    | .worker t env, _ => s.workerStep t env
    | _, _ => none

/-- The program. -/
def system : Machine Sys Label Event where
  init := {}
  step := Sys.step

/-! ## Observables -/

/-- The servers running: threads that have not returned from
`::StartWebServer`. -/
def Sys.runningServers (s : Sys) : Nat := s.workers.countP fun w => !w.returned

/-- The managers initialised and not yet freed. -/
def Sys.liveManagers (s : Sys) : Nat :=
  (List.range s.workers.length).countP fun t => (s.net.mgrs t).isSome

/-- A step of thread `t`. -/
def Label.isStepOf (t : Nat) : Label → Bool
  | .worker u _ => u = t
  | _ => false

/-! ## Schedules -/

/-- A click on `Start Web` and the thread's steps up to the test of `nc`. -/
def clickAndBind (env : BindEnv) : List Label :=
  [.click true, .assign, .increment, .worker 0 {}, .worker 0 {}, .worker 0 {},
    .worker 0 { bind := env }]

/-- A second click, and the steps of that thread. -/
def secondClickAndBind (env : BindEnv) : List Label :=
  [.status, .click true, .assign, .increment, .worker 1 {}, .worker 1 {}, .worker 1 {},
    .worker 1 { bind := env }]

/-- The rest of the life of a server that nobody connects to: it is set up,
`MyApp::OnExit` begins, and the thread polls once more, closes its listener
and returns. -/
def setUpAndExit : List Label :=
  .status :: List.replicate 6 (.worker 0 {}) ++ .onExit [8000] :: List.replicate 13 (.worker 0 {}) ++
    [.join, .exit]

end SimplestWeb.Minimal
