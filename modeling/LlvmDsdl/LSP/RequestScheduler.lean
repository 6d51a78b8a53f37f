import LlvmDsdl.Library.Transition

/-!
Contract: the request scheduler, its callers and its worker thread interleaved.

Owns: the scheduler's state with the flags shared between its map and its work
items, one step for each critical section and each step of the worker outside
them, the invariant of its states, and what it promises of every run.
-/

namespace LlvmDsdl.LSP

open Library.Transition

inductive RequestTaskStatus where
  | completed
  | cancelled
  | failed
deriving DecidableEq, Repr

/-- What a task answers; `default` is the empty JSON object. -/
structure RequestTaskResult (Json : Type) [Inhabited Json] where
  status : RequestTaskStatus := .failed
  value : Json := default
  errorMessage : String := ""
deriving DecidableEq, Repr

/-- A request in the queue; `cancellation` is the address of the flag it shares with the map. -/
structure WorkItem (Task Completion : Type) where
  requestKey : String
  method : String
  task : Task
  completion : Option Completion
  cancellation : ℕ
deriving DecidableEq, Repr

variable {Task Completion Json : Type} [Inhabited Json]

inductive Worker (Task Completion Json : Type) [Inhabited Json] where
  | waiting
  /-- Off the queue, its flag not read yet. -/
  | popped (item : WorkItem Task Completion)
  /-- Inside the task. -/
  | running (item : WorkItem Task Completion)
  /-- The result is known and the key is still in the map. -/
  | finished (item : WorkItem Task Completion) (result : RequestTaskResult Json)
  /-- The key is out of the map and the completion is still to be called. -/
  | released (item : WorkItem Task Completion) (result : RequestTaskResult Json)
  | exited
deriving DecidableEq, Repr

/-- The end of a turn: the callback, if there is one, has been given the result. -/
structure CompletedRequest (Task Completion Json : Type) [Inhabited Json] where
  item : WorkItem Task Completion
  result : RequestTaskResult Json
  latencyMicros : ℕ
deriving DecidableEq, Repr

/-- The scheduler. The last three fields only record what has happened. -/
structure Scheduler (Task Completion Json : Type) [Inhabited Json] where
  flags : List Bool := []
  requestStates : List (String × ℕ) := []
  queue : List (WorkItem Task Completion) := []
  stopping : Bool := false
  worker : Worker Task Completion Json := .waiting
  accepted : List (WorkItem Task Completion) := []
  started : List (WorkItem Task Completion) := []
  completed : List (CompletedRequest Task Completion Json) := []
deriving DecidableEq, Repr

namespace Scheduler

def tracks (scheduler : Scheduler Task Completion Json) (requestKey : String) : Bool :=
  scheduler.requestStates.any fun entry => entry.1 == requestKey

/-- `enqueue`: refused once stopping, for a tracked key, and at the bound. -/
def enqueue (maxPendingRequests : ℕ) (scheduler : Scheduler Task Completion Json)
    (requestKey method : String) (task : Task) (completion : Option Completion) :
    Bool × Scheduler Task Completion Json :=
  if scheduler.stopping then (false, scheduler)
  else if scheduler.tracks requestKey then (false, scheduler)
  else if maxPendingRequests ≤ scheduler.requestStates.length then (false, scheduler)
  else
    let cancellation := scheduler.flags.length
    let item : WorkItem Task Completion :=
      { requestKey := requestKey, method := method, task := task, completion := completion,
        cancellation := cancellation }
    (true,
      { scheduler with
        flags := scheduler.flags ++ [false]
        requestStates := scheduler.requestStates ++ [(requestKey, cancellation)]
        queue := scheduler.queue ++ [item]
        accepted := scheduler.accepted ++ [item] })

/-- `cancel`: stores into the flag the map holds under the key. -/
def cancel (scheduler : Scheduler Task Completion Json) (requestKey : String) :
    Bool × Scheduler Task Completion Json :=
  match scheduler.requestStates.find? fun entry => entry.1 == requestKey with
  | none => (false, scheduler)
  | some entry => (true, { scheduler with flags := scheduler.flags.set entry.2 true })

/-- The critical section of `shutdown`; the caller then joins the worker. -/
def shutdown (scheduler : Scheduler Task Completion Json) : Scheduler Task Completion Json :=
  if scheduler.stopping then scheduler
  else
    { scheduler with
      stopping := true
      flags := scheduler.requestStates.foldl (fun flags entry => flags.set entry.2 true)
        scheduler.flags }

/-- Woken at the wait: exits, waits on, or takes the front of the queue. -/
def take (scheduler : Scheduler Task Completion Json) :
    Option (Scheduler Task Completion Json) :=
  match scheduler.worker, scheduler.queue with
  | .waiting, [] =>
      some (if scheduler.stopping then { scheduler with worker := .exited } else scheduler)
  | .waiting, item :: rest => some { scheduler with queue := rest, worker := .popped item }
  | _, _ => none

/-- Reads the flag: a cancelled request gets its result here, another one is started. -/
def inspect (scheduler : Scheduler Task Completion Json) :
    Option (Scheduler Task Completion Json) :=
  match scheduler.worker with
  | .popped item =>
      if scheduler.flags.getD item.cancellation false then
        some { scheduler with worker := .finished item { status := .cancelled } }
      else
        some { scheduler with
          worker := .running item, started := scheduler.started ++ [item] }
  | _ => none

def taskReturns (scheduler : Scheduler Task Completion Json) (result : RequestTaskResult Json) :
    Option (Scheduler Task Completion Json) :=
  match scheduler.worker with
  | .running item => some { scheduler with worker := .finished item result }
  | _ => none

/-- The task throws: an exception's text, or that it is of no known type. -/
def taskThrows (scheduler : Scheduler Task Completion Json) (what : Option String) :
    Option (Scheduler Task Completion Json) :=
  scheduler.taskReturns { status := .failed, errorMessage := what.getD "unknown exception" }

def release (scheduler : Scheduler Task Completion Json) :
    Option (Scheduler Task Completion Json) :=
  match scheduler.worker with
  | .finished item result =>
      some { scheduler with
        requestStates := scheduler.requestStates.filter fun entry => entry.1 != item.requestKey
        worker := .released item result }
  | _ => none

def complete (scheduler : Scheduler Task Completion Json) (latencyMicros : ℕ) :
    Option (Scheduler Task Completion Json) :=
  match scheduler.worker with
  | .released item result =>
      some { scheduler with
        worker := .waiting
        completed := scheduler.completed ++
          [{ item := item, result := result, latencyMicros := latencyMicros }] }
  | _ => none

def callbacks (scheduler : Scheduler Task Completion Json) :
    List (Completion × RequestTaskResult Json × ℕ) :=
  scheduler.completed.filterMap fun entry =>
    entry.item.completion.map fun completion => (completion, entry.result, entry.latencyMicros)

/-- What may happen next: a call from outside, or the worker's next step. -/
inductive Event (Task Completion Json : Type) [Inhabited Json] where
  | enqueue (requestKey method : String) (task : Task) (completion : Option Completion)
  | cancel (requestKey : String)
  | shutdown
  | take
  | inspect
  | taskReturns (result : RequestTaskResult Json)
  | taskThrows (what : Option String)
  | release
  | complete (latencyMicros : ℕ)

def step (maxPendingRequests : ℕ) (scheduler : Scheduler Task Completion Json) :
    Event Task Completion Json → Option (Scheduler Task Completion Json)
  | .enqueue requestKey method task completion =>
      some (scheduler.enqueue maxPendingRequests requestKey method task completion).2
  | .cancel requestKey => some (scheduler.cancel requestKey).2
  | .shutdown => some scheduler.shutdown
  | .take => scheduler.take
  | .inspect => scheduler.inspect
  | .taskReturns result => scheduler.taskReturns result
  | .taskThrows what => scheduler.taskThrows what
  | .release => scheduler.release
  | .complete latencyMicros => scheduler.complete latencyMicros

end Scheduler

end LlvmDsdl.LSP
