import CppProject.Library.Runs
import CppProject.Library.Totals

/-!
# `ThreadPool`

The workers, the task queue and the condition variable, step by step.  Each section that
holds `queue_mutex` is one step.  `condition.wait` releases the mutex while the worker waits,
and the worker tests its predicate again whenever it has been woken, also without a
notification.  A task is run outside of the mutex and always ends: what it throws goes into
its future.
-/

namespace CppProject.Threads

open Library.Runs

/-- A worker thread: in front of the test of its predicate, blocked in `condition.wait`,
with a task, or behind its `return`. -/
inductive Worker (T : Type) where
  | ready
  | waiting
  | running (task : T)
  | returned
  deriving DecidableEq, Repr

namespace Worker

variable {T : Type}

def isReady : Worker T → Bool
  | ready => true
  | _ => false

def isWaiting : Worker T → Bool
  | waiting => true
  | _ => false

def isReturned : Worker T → Bool
  | returned => true
  | _ => false

/-- Behind a wakeup the worker tests its predicate again. -/
def woken : Worker T → Worker T
  | waiting => ready
  | worker => worker

end Worker

/-- The destructor: not called, behind its first block, or joining, with so many workers
joined. -/
inductive Destructor where
  | uncalled
  | stopping
  | joining (joined : Nat)
  deriving DecidableEq, Repr

/-- The members, the calls of `enqueue` that are in front of their `notify_one`, and what
has been accepted, taken from the queue and run so far. -/
structure ThreadPool (T : Type) (n : Nat) where
  workers : Fin n → Worker T
  tasks : List T
  stop : Bool
  notifying : Nat
  destructor : Destructor
  accepted : List T
  started : List T
  finished : List T

/-- `wake` is a step without a notification, and `test` the section of a worker. -/
inductive Event (T : Type) (n : Nat) where
  | enqueue (task : T)
  | notifyOne (woken : Option (Fin n))
  | wake (i : Fin n)
  | test (i : Fin n)
  | finish (i : Fin n)
  | setStop
  | notifyAll
  | join
  deriving DecidableEq, Repr

variable {T : Type} {n : Nat}

/-- The constructor launches the workers. -/
def init (T : Type) (n : Nat) : ThreadPool T n :=
  ⟨fun _ => .ready, [], false, 0, .uncalled, [], [], []⟩

namespace ThreadPool

def setWorker (p : ThreadPool T n) (i : Fin n) (worker : Worker T) : ThreadPool T n :=
  { p with workers := Function.update p.workers i worker }

/-- The block of `enqueue`: no task is accepted from a stopped pool, where it throws. -/
def enqueue (p : ThreadPool T n) (task : T) : Option (ThreadPool T n) :=
  if p.stop then none
  else some { p with
    tasks := p.tasks ++ [task], notifying := p.notifying + 1, accepted := p.accepted ++ [task] }

/-- The predicate of `condition.wait` and what follows it under the lock. -/
def test (p : ThreadPool T n) (i : Fin n) : ThreadPool T n :=
  match p.tasks with
  | [] => if p.stop then p.setWorker i .returned else p.setWorker i .waiting
  | task :: rest =>
      { p.setWorker i (.running task) with tasks := rest, started := p.started ++ [task] }

/-- All workers that wait are woken. -/
def notifyAll (p : ThreadPool T n) : ThreadPool T n :=
  { p with workers := fun i => (p.workers i).woken, destructor := .joining 0 }

end ThreadPool

def step (p : ThreadPool T n) : Event T n → Option (ThreadPool T n)
  | .enqueue task =>
      match p.enqueue task with
      | none => some p
      | some next => some next
  | .notifyOne none =>
      if 0 < p.notifying ∧ ∀ i, (p.workers i).isWaiting = false then
        some { p with notifying := p.notifying - 1 }
      else none
  | .notifyOne (some i) =>
      if 0 < p.notifying ∧ (p.workers i).isWaiting then
        some { p.setWorker i .ready with notifying := p.notifying - 1 }
      else none
  | .wake i => if (p.workers i).isWaiting then some (p.setWorker i .ready) else none
  | .test i => if (p.workers i).isReady then some (p.test i) else none
  | .finish i =>
      match p.workers i with
      | .running task => some { p.setWorker i .ready with finished := p.finished ++ [task] }
      | _ => none
  | .setStop =>
      if p.destructor = .uncalled then some { p with stop := true, destructor := .stopping } else none
  | .notifyAll => if p.destructor = .stopping then some p.notifyAll else none
  | .join =>
      match p.destructor with
      | .joining joined =>
          if inside : joined < n then
            if (p.workers ⟨joined, inside⟩).isReturned then
              some { p with destructor := .joining (joined + 1) }
            else none
          else none
      | _ => none

end CppProject.Threads
