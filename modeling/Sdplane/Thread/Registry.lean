import Sdplane.Misc.Runs
import Sdplane.Thread.Info
import Mathlib.Logic.Function.Basic

/-!
# The worker registry

Commands and vty connections register threads; workers run on their lcores meanwhile. All
commands run on the lthread core, one after the other, and `stop_lcore` waits there for the
worker. A command is the list of operations it performs (`dpdk_lcore_cmd.c`); between two of
them any worker may enter or leave its loop, and the process may be sent `SIGTERM`.
-/

namespace Sdplane

/-- The lcores as DPDK set them up; `lthread_core` is the one `lthread_main` runs on. -/
structure Eal where
  lthreadCore : Nat
  lcoreCount : Nat
  enabled : Nat → Bool

/-- What an lcore does. `threadId` is what `thread_register` returned to the `start_lcore`
    that launched the worker. -/
inductive LcoreState
  | wait
  | launched (func : LcoreFunction) (threadId : Int)
  | looping (func : LcoreFunction) (threadId : Int)
  deriving DecidableEq

/-- The worker of an lcore in state `RUNNING`, and its thread id. -/
def LcoreState.worker : LcoreState → Option (LcoreFunction × Int)
  | .wait => none
  | .launched func threadId => some (func, threadId)
  | .looping func threadId => some (func, threadId)

/-- `clients` are the connected ones of `client_info`, with the thread id of their
    `vty_shell`. `intact` is false from the first write outside `threads` on. -/
structure Registry where
  threads : List ThreadInfo
  lcoreWorkers : Nat → Option LcoreFunction
  lcores : Nat → LcoreState
  forceStop : Nat → Bool
  forceQuit : Bool
  clients : Nat → Option Int
  intact : Bool

/-- `VTY_CLIENT_MAX`. -/
def vtyClientMax : Nat := 5

/-! ## Operations -/

inductive Op
  | startLcore (lcore : Nat)
  | forceStop (lcore : Nat)
  | waitLcore (lcore : Nat)
  | setFunc (lcore : Nat) (func : Option LcoreFunction)
  | forceQuit (quit : Bool)
  | lthreadCreate (func : Lthread)
  | vtyConnect
  | vtyExit (client : Nat)

namespace Registry

variable (eal : Eal) (s : Registry)

/-- `rte_eal_remote_launch`, which is refused by an lcore that is not waiting for work. -/
def remoteLaunch (func : LcoreFunction) (threadId : Int) (lcore : Nat) : Registry :=
  if eal.enabled lcore ∧ s.lcores lcore = .wait then
    { s with lcores := Function.update s.lcores lcore (.launched func threadId) }
  else
    s

def startLcore (lcore : Nat) : Registry :=
  match s.lcoreWorkers lcore with
  | none => s
  | some func =>
      let s := { s with forceStop := Function.update s.forceStop lcore false }
      if lcore = eal.lthreadCore then
        s
      else
        let (threads, threadId) := threadRegister lcore (.lcore func) s.threads
        remoteLaunch eal { s with threads := threads } func threadId lcore

/-- `lthread_create` and the `thread_register` after it. -/
def lthreadCreate (func : Lthread) : Registry :=
  { s with threads := (threadRegister eal.lthreadCore (.lthread func) s.threads).1 }

/-- `vty_server` gives the client the first free slot of `client_info` and closes the
    connection when there is none; `vty_shell` registers itself. -/
def vtyConnect : Registry :=
  match (List.range vtyClientMax).find? fun i => (s.clients i).isNone with
  | none => s
  | some clientId =>
      let (threads, threadId) := threadRegister eal.lthreadCore (.lthread .vtyShell) s.threads
      { s with threads := threads, clients := Function.update s.clients clientId (some threadId) }

/-- The end of `vty_shell`. -/
def vtyExit (client : Nat) : Registry :=
  match s.clients client with
  | none => s
  | some threadId =>
      let s := { s with clients := Function.update s.clients client none }
      match threadUnregister threadId s.threads with
      | some threads => { s with threads := threads }
      | none => { s with intact := false }

/-- One operation; none while it waits for a worker. -/
def exec : Op → Option Registry
  | .startLcore lcore => some (s.startLcore eal lcore)
  | .forceStop lcore => some { s with forceStop := Function.update s.forceStop lcore true }
  | .waitLcore lcore =>
      if lcore = eal.lthreadCore ∨ s.lcores lcore = .wait then some s else none
  | .setFunc lcore func =>
      some { s with lcoreWorkers := Function.update s.lcoreWorkers lcore func }
  | .forceQuit quit => some { s with forceQuit := quit }
  | .lthreadCreate func => some (s.lthreadCreate eal func)
  | .vtyConnect => some (s.vtyConnect eal)
  | .vtyExit client => some (s.vtyExit client)

/-- The lcore whose `force_stop` ends the loop of a worker: `nettlp_thread` looks at that of
    the lthread core. -/
def stopsOn (func : LcoreFunction) (lcore : Nat) : Nat :=
  if func = .nettlpThread then eal.lthreadCore else lcore

/-- A launched worker gets to its loop; `l2_repeater` returns at once when the lcore has no
    rx port. -/
def enter (lcore nRxPort : Nat) : Option Registry :=
  match s.lcores lcore with
  | .launched func threadId =>
      let next := if func = .l2Repeater ∧ nRxPort = 0 then .wait else .looping func threadId
      some { s with lcores := Function.update s.lcores lcore next }
  | _ => none

/-- A worker leaves its loop and returns. -/
def leave (lcore : Nat) : Option Registry :=
  match s.lcores lcore with
  | .looping func _ =>
      if s.forceQuit ∨ s.forceStop (stopsOn eal func lcore) then
        some { s with lcores := Function.update s.lcores lcore .wait }
      else
        none
  | _ => none

end Registry

/-! ## Commands -/

inductive Verb
  | set
  | reset
  | start
  | restart
  | stop
  deriving DecidableEq

/-- The last word of `set worker`. -/
inductive WorkerName
  | none
  | l2fwd
  | l3fwd
  | l3fwdLpm
  | tapHandler
  | l2Repeater
  | nettlpThread

/-- The forwarders of DPDK's examples are compiled out. -/
def WorkerName.func : WorkerName → Option LcoreFunction
  | .tapHandler => some .tapHandler
  | .l2Repeater => some .l2Repeater
  | .nettlpThread => some .nettlpThread
  | _ => Option.none

def stopLcore (lcore : Nat) : List Op := [.forceStop lcore, .waitLcore lcore]

/-- `start_stop_worker`; `lcoreSpec` is none for `all`. -/
def startStopWorker (eal : Eal) (verb : Verb) (lcoreSpec : Option Nat) : List Op :=
  let quit := if lcoreSpec = none then [.forceQuit (verb = .stop)] else []
  let lcores := (List.range eal.lcoreCount).filter fun lcore =>
    lcoreSpec = none ∨ lcoreSpec = some lcore
  quit ++ lcores.flatMap fun lcore =>
    match verb with
    | .start => [.startLcore lcore]
    | .stop => stopLcore lcore
    | .reset | .restart => stopLcore lcore ++ [.startLcore lcore]
    | .set => []

/-- `set_worker`; without a name the worker stays the one that is set. -/
def setWorker (verb : Verb) (lcore : Nat) (name : Option WorkerName) (s : Registry) : List Op :=
  let func := match name with
    | none => s.lcoreWorkers lcore
    | some name => name.func
  if s.lcoreWorkers lcore = some .lthreadMain then
    []
  else if verb = .reset ∨ verb = .start ∨ verb = .restart then
    .setFunc lcore func :: stopLcore lcore ++ [.startLcore lcore]
  else
    [.setFunc lcore func]

/-- What the lthread core turns to. -/
inductive Call
  | startStopWorker (verb : Verb) (lcoreSpec : Option Nat)
  | setWorker (verb : Verb) (lcore : Nat) (name : Option WorkerName)
  | shutdown
  | lthreadCreate (func : Lthread)
  | vtyConnect
  | vtyExit (client : Nat)

def Call.ops (eal : Eal) (s : Registry) : Call → List Op
  | .startStopWorker verb lcoreSpec => Sdplane.startStopWorker eal verb lcoreSpec
  | .setWorker verb lcore name => Sdplane.setWorker verb lcore name s
  | .shutdown => [.forceQuit true]
  | .lthreadCreate func => [.lthreadCreate func]
  | .vtyConnect => [.vtyConnect]
  | .vtyExit client => [.vtyExit client]

/-! ## The system -/

/-- The registry and what the lthread core has yet to do. -/
structure Threads where
  registry : Registry
  pending : List Op

/-- What happens next: the lthread core turns to a call or performs the next operation, a
    worker enters or leaves its loop, or the process is signalled. -/
inductive Action
  | call (call : Call)
  | next
  | enter (lcore nRxPort : Nat)
  | leave (lcore : Nat)
  | sigterm

namespace Threads

variable (eal : Eal)

/-- `main` registers `lthread_main`; `lthread_main` clears `lcore_workers` and enters itself. -/
def init : Threads where
  registry :=
    { threads := (threadRegister (-1) (.lcore .lthreadMain) []).1
      lcoreWorkers := Function.update (fun _ => none) eal.lthreadCore (some .lthreadMain)
      lcores := fun _ => .wait
      forceStop := fun _ => false
      forceQuit := false
      clients := fun _ => none
      intact := true }
  pending := []

def step (s : Threads) : Action → Option Threads
  | .call call => if s.pending = [] then some { s with pending := call.ops eal s.registry } else none
  | .next =>
      match s.pending with
      | [] => none
      | op :: ops => (s.registry.exec eal op).map fun registry => ⟨registry, ops⟩
  | .enter lcore nRxPort =>
      (s.registry.enter lcore nRxPort).map fun registry => { s with registry := registry }
  | .leave lcore => (s.registry.leave eal lcore).map fun registry => { s with registry := registry }
  | .sigterm => some { s with registry := { s.registry with forceQuit := true } }

end Threads

end Sdplane
