import CppProject.CannonProxy.CannonClientWrapper
import CppProject.Threads.Completion

/-!
# The wrapper on its threads

The wrapper with the thread pools as they are: a worker tests, sleeps and is woken, and its
task writes a request and reads a reply while it runs.  Whatever the threads do, the
wrapper goes through the states of the one in which a free worker takes the next task.
-/

namespace CppProject.CannonProxy

open Library.Runs

variable {V : Type}

/-- A pool of one worker, and whether the task that runs has written its request. -/
structure WorkerThread (V : Type) where
  threads : Threads.ThreadPool (Task V) 1
  written : Bool

/-- The one worker of a pool. -/
def theWorker : Fin 1 := ⟨0, Nat.one_pos⟩

structure ThreadedWrapper (V : Type) where
  pools : Pool → WorkerThread V
  enqueued : Nat
  requests : List (Task V)
  replies : List (TaskReply V)
  results : List (Task V × TaskReply V)
  storage : Storage V

/-- A step of a pool beside its tasks and its destructor, or one that the wrapper takes
part in. -/
inductive ThreadedEvent (V : Type) where
  | notifyOne (pool : Pool) (woken : Option (Fin 1))
  | wake (pool : Pool)
  | test (pool : Pool)
  | wrapper (event : WrapperEvent V)

namespace ThreadedWrapper

def init (storage : Storage V) : ThreadedWrapper V :=
  ⟨fun _ => ⟨Threads.init (Task V) 1, false⟩, 0, [], [], [], storage⟩

def setPool (t : ThreadedWrapper V) (pool : Pool) (state : WorkerThread V) : ThreadedWrapper V :=
  { t with pools := Function.update t.pools pool state }

/-- `enqueue` -/
def enqueue (t : ThreadedWrapper V) (pool : Pool) (request : Request V) : Option (ThreadedWrapper V) :=
  match (t.pools pool).threads.enqueue ⟨t.enqueued, request⟩ with
  | none => none
  | some threads => some { t.setPool pool { t.pools pool with threads := threads } with
      enqueued := t.enqueued + 1 }

/-- A step of the threads of a pool. -/
def thread (t : ThreadedWrapper V) (pool : Pool) (event : Threads.Event (Task V) 1) :
    Option (ThreadedWrapper V) :=
  match Threads.step (t.pools pool).threads event with
  | none => none
  | some threads => some (t.setPool pool { t.pools pool with threads := threads })

/-- The worker takes its tasks with `test`, and a task ends with its read. -/
def step [Zero V] (t : ThreadedWrapper V) : ThreadedEvent V → Option (ThreadedWrapper V)
  | .notifyOne pool woken => t.thread pool (.notifyOne woken)
  | .wake pool => t.thread pool (.wake theWorker)
  | .test pool => t.thread pool (.test theWorker)
  | .wrapper (.enqueueInsertKvs kvs dataVersion) => t.enqueue .queryThreadPool (.insert kvs dataVersion)
  | .wrapper (.enqueueQueryKeys keys dataVersion) => t.enqueue .insertThreadPool (.get keys dataVersion)
  | .wrapper (.clearData dataVersion) => t.enqueue .queryThreadPool (.clearData dataVersion)
  | .wrapper (.take _) => none
  | .wrapper (.write pool) =>
      match (t.pools pool).threads.workers theWorker, (t.pools pool).written with
      | .running task, false =>
          some { t.setPool pool { t.pools pool with written := true } with
            requests := t.requests ++ [task] }
      | _, _ => none
  | .wrapper .serve =>
      match t.requests with
      | [] => none
      | task :: rest =>
          let (answer, storage) := task.request.serve t.storage
          some { t with
            requests := rest, replies := t.replies ++ [⟨task, answer⟩], storage := storage }
  | .wrapper (.read pool) =>
      match (t.pools pool).threads.workers theWorker, (t.pools pool).written, t.replies with
      | .running task, true, reply :: rest =>
          match Threads.step (t.pools pool).threads (.finish theWorker) with
          | none => none
          | some threads => some { t.setPool pool ⟨threads, false⟩ with
              replies := rest, results := t.results ++ [(task, reply)] }
      | _, _, _ => none

end ThreadedWrapper

/-! ## What the wrapper sees of its threads -/

namespace WorkerThread

def worker (written : Bool) : Threads.Worker (Task V) → Worker V
  | .running task => if written then .awaiting task else .taken task
  | _ => .idle

/-- The queue, and whether the worker is free. -/
def abstracted (state : WorkerThread V) : ThreadPool V :=
  ⟨state.threads.tasks, worker state.written (state.threads.workers theWorker)⟩

/-- Only a task that runs has written its request. -/
def Written (state : WorkerThread V) : Prop :=
  state.written = true → ∃ task, state.threads.workers theWorker = .running task

/-- What a pool does beside its tasks and its destructor. -/
def Beside : Threads.Event (Task V) 1 → Prop
  | .notifyOne _ => True
  | .wake _ => True
  | .test _ => True
  | _ => False

/-- Beside its tasks a pool does nothing that the wrapper sees, or its free worker takes the
task at the front. -/
theorem beside_step {state : WorkerThread V} (written : state.Written) {event : Threads.Event (Task V) 1}
    (beside : Beside event) {threads : Threads.ThreadPool (Task V) 1}
    (here : Threads.step state.threads event = some threads) :
    WorkerThread.Written ⟨threads, state.written⟩ ∧
      (abstracted ⟨threads, state.written⟩ = state.abstracted ∨
        ∃ task rest, state.abstracted = ⟨task :: rest, .idle⟩ ∧
          abstracted ⟨threads, state.written⟩ = ⟨rest, .taken task⟩) := by
  have unwritten (free : ∀ task, state.threads.workers theWorker ≠ .running task) : state.written = false :=
    Bool.eq_false_iff.mpr fun wrote => let ⟨task, running⟩ := written wrote; free task running
  cases Threads.moves_of_step here with
  | nobody some_left nobody => exact ⟨written, .inl rfl⟩
  | notified i some_left asleep =>
      cases Subsingleton.elim i theWorker
      have unwritten := unwritten (by simp [asleep])
      exact ⟨by simp [Written, unwritten], .inl (by simp [abstracted, worker, asleep])⟩
  | woken i asleep =>
      cases Subsingleton.elim i theWorker
      have unwritten := unwritten (by simp [asleep])
      exact ⟨by simp [Written, unwritten], .inl (by simp [abstracted, worker, asleep])⟩
  | waits i ready empty going =>
      cases Subsingleton.elim i theWorker
      have unwritten := unwritten (by simp [ready])
      exact ⟨by simp [Written, unwritten], .inl (by simp [abstracted, worker, ready])⟩
  | returns i ready empty stopped =>
      cases Subsingleton.elim i theWorker
      have unwritten := unwritten (by simp [ready])
      exact ⟨by simp [Written, unwritten], .inl (by simp [abstracted, worker, ready])⟩
  | takes i task rest ready front =>
      cases Subsingleton.elim i theWorker
      have unwritten := unwritten (by simp [ready])
      refine ⟨by simp [Written, unwritten], .inr ⟨task, rest, ?_, ?_⟩⟩
      · simp [abstracted, worker, ready, front]
      · simp [abstracted, worker, unwritten]
  | refused task stopped => cases beside
  | accepted task going => cases beside
  | finishes i task held => cases beside
  | stops uncalled => cases beside
  | notifies stopping => cases beside
  | joins joined inside joining returned => cases beside

/-- Behind its task the worker is free. -/
theorem abstracted_finish {state : WorkerThread V} {threads : Threads.ThreadPool (Task V) 1}
    (here : Threads.step state.threads (.finish theWorker) = some threads) :
    abstracted ⟨threads, false⟩ = ⟨state.threads.tasks, .idle⟩ := by
  cases Threads.moves_of_step here with
  | finishes _ task held => simp [abstracted, worker]

end WorkerThread

namespace ThreadedWrapper

def abstracted (t : ThreadedWrapper V) : CannonClientWrapper V :=
  ⟨fun pool => (t.pools pool).abstracted, t.enqueued, t.requests, t.replies, t.results, t.storage⟩

def Written (t : ThreadedWrapper V) : Prop := ∀ pool, (t.pools pool).Written

/-- A change of one pool is seen as a change of that pool. -/
theorem abstracted_update (pools : Pool → WorkerThread V) (pool : Pool) (state : WorkerThread V) :
    (fun other => (Function.update pools pool state other).abstracted) =
      Function.update (fun other => (pools other).abstracted) pool state.abstracted :=
  funext fun other => Function.apply_update (fun _ => WorkerThread.abstracted) pools pool state other

theorem abstracted_setPool (t : ThreadedWrapper V) (pool : Pool) (state : WorkerThread V) :
    (t.setPool pool state).abstracted = t.abstracted.setPool pool state.abstracted := by
  simp only [abstracted, setPool, CannonClientWrapper.setPool, abstracted_update]

theorem setPool_self (w : CannonClientWrapper V) (pool : Pool) : w.setPool pool (w.pools pool) = w := by
  simp only [CannonClientWrapper.setPool, Function.update_eq_self]

theorem Written.setPool {t : ThreadedWrapper V} (written : t.Written) {pool : Pool} {state : WorkerThread V}
    (here : state.Written) : (t.setPool pool state).Written := by
  intro other
  rcases eq_or_ne other pool with rfl | apart
  · simpa only [ThreadedWrapper.setPool, Function.update_self] using here
  · simpa only [ThreadedWrapper.setPool, Function.update_of_ne apart] using written other

/-- The events that are not a matter of the threads alone. -/
def visible : ThreadedEvent V → Option (WrapperEvent V)
  | .wrapper event => some event
  | _ => none

/-- A step of the abstract wrapper that is not one of a worker in front of its queue. -/
def isTake : WrapperEvent V → Bool
  | .take _ => true
  | _ => false

theorem written_init (storage : Storage V) : (init storage).Written :=
  fun _ wrote => nomatch wrote

variable {t next : ThreadedWrapper V}

theorem enqueue_step (written : t.Written) {pool : Pool} {request : Request V}
    (here : t.enqueue pool request = some next) :
    next.Written ∧ t.abstracted.enqueue pool request = next.abstracted := by
  simp only [enqueue] at here
  split at here
  · cases here
  next threads inner =>
    simp only [Threads.ThreadPool.enqueue, Option.ite_none_left_eq_some, Option.some.injEq] at inner
    obtain ⟨_, rfl⟩ := inner
    cases here
    refine ⟨written.setPool (written pool), ?_⟩
    simp only [CannonClientWrapper.enqueue, CannonClientWrapper.setPool, abstracted, setPool, abstracted_update]
    rfl

variable [Zero V]

/-- The abstract wrapper does the same, but for the workers in front of their queues. -/
def Follows (t : ThreadedWrapper V) (event : ThreadedEvent V) (next : ThreadedWrapper V) : Prop :=
  match visible event with
  | some event => t.abstracted.step event = some next.abstracted ∧ isTake event = false
  | none => next.abstracted = t.abstracted ∨ ∃ pool, t.abstracted.step (.take pool) = some next.abstracted

theorem thread_step (written : t.Written) {pool : Pool} {event : Threads.Event (Task V) 1}
    (beside : WorkerThread.Beside event) (here : t.thread pool event = some next) :
    next.Written ∧
      (next.abstracted = t.abstracted ∨ ∃ pool, t.abstracted.step (.take pool) = some next.abstracted) := by
  simp only [thread] at here
  split at here
  · cases here
  next threads inner =>
    cases here
    obtain ⟨still_written, same | ⟨task, rest, before, behind⟩⟩ :=
      WorkerThread.beside_step (written pool) beside inner
    · refine ⟨written.setPool still_written, .inl ?_⟩
      rw [abstracted_setPool, same]
      exact setPool_self t.abstracted pool
    · refine ⟨written.setPool still_written, .inr ⟨pool, ?_⟩⟩
      have found : t.abstracted.pools pool = ⟨task :: rest, .idle⟩ := before
      simp only [CannonClientWrapper.step, found]
      rw [abstracted_setPool, behind]

theorem write_step (written : t.Written) {pool : Pool} (here : t.step (.wrapper (.write pool)) = some next) :
    next.Written ∧ t.abstracted.step (.write pool) = some next.abstracted := by
  simp only [step] at here
  split at here
  next task running unwritten =>
    cases here
    refine ⟨written.setPool fun _ => ⟨task, running⟩, ?_⟩
    have found : t.abstracted.pools pool = ⟨(t.pools pool).threads.tasks, .taken task⟩ := by
      simp [abstracted, WorkerThread.abstracted, WorkerThread.worker, running, unwritten]
    have behind : WorkerThread.abstracted { t.pools pool with written := true } =
        ⟨(t.pools pool).threads.tasks, .awaiting task⟩ := by
      simp [WorkerThread.abstracted, WorkerThread.worker, running]
    simp only [CannonClientWrapper.step, found]
    simp only [CannonClientWrapper.setPool, abstracted, setPool, abstracted_update, behind]
  · cases here

theorem serve_step (written : t.Written) (here : t.step (.wrapper .serve) = some next) :
    next.Written ∧ t.abstracted.step .serve = some next.abstracted := by
  simp only [step] at here
  split at here
  · cases here
  next task rest front =>
    cases here
    refine ⟨written, ?_⟩
    have found : t.abstracted.requests = task :: rest := front
    simp only [CannonClientWrapper.step, found]
    rfl

theorem read_step (written : t.Written) {pool : Pool} (here : t.step (.wrapper (.read pool)) = some next) :
    next.Written ∧ t.abstracted.step (.read pool) = some next.abstracted := by
  simp only [step] at here
  split at here
  next task reply rest running wrote front =>
    split at here
    · cases here
    next threads inner =>
      cases here
      refine ⟨written.setPool (by simp [WorkerThread.Written]), ?_⟩
      have found : t.abstracted.pools pool = ⟨(t.pools pool).threads.tasks, .awaiting task⟩ := by
        simp [abstracted, WorkerThread.abstracted, WorkerThread.worker, running, wrote]
      have arrived : t.abstracted.replies = reply :: rest := front
      simp only [CannonClientWrapper.step, found, arrived]
      simp only [CannonClientWrapper.setPool, abstracted, setPool, abstracted_update,
        WorkerThread.abstracted_finish inner]
  · cases here

theorem follows (written : t.Written) {event : ThreadedEvent V} (here : t.step event = some next) :
    next.Written ∧ Follows t event next := by
  cases event with
  | notifyOne pool woken => exact thread_step written (show WorkerThread.Beside (.notifyOne woken) from trivial) here
  | wake pool => exact thread_step written (show WorkerThread.Beside (.wake theWorker) from trivial) here
  | test pool => exact thread_step written (show WorkerThread.Beside (.test theWorker) from trivial) here
  | wrapper event =>
      cases event with
      | enqueueInsertKvs kvs dataVersion =>
          obtain ⟨still_written, same⟩ := enqueue_step written here
          exact ⟨still_written, congrArg some same, rfl⟩
      | enqueueQueryKeys keys dataVersion =>
          obtain ⟨still_written, same⟩ := enqueue_step written here
          exact ⟨still_written, congrArg some same, rfl⟩
      | clearData dataVersion =>
          obtain ⟨still_written, same⟩ := enqueue_step written here
          exact ⟨still_written, congrArg some same, rfl⟩
      | take pool => cases here
      | write pool =>
          obtain ⟨still_written, steps⟩ := write_step written here
          exact ⟨still_written, steps, rfl⟩
      | serve =>
          obtain ⟨still_written, steps⟩ := serve_step written here
          exact ⟨still_written, steps, rfl⟩
      | read pool =>
          obtain ⟨still_written, steps⟩ := read_step written here
          exact ⟨still_written, steps, rfl⟩

end ThreadedWrapper

open ThreadedWrapper

/-- Whatever its threads do, the wrapper goes through the states of the abstract one, with
the same calls, writes, replies and reads in the same order. -/
theorem threads_refine_wrapper [Zero V] (storage : Storage V) {events : List (ThreadedEvent V)}
    {t : ThreadedWrapper V} (steps : run step (init storage) events = some t) :
    ∃ followed, run CannonClientWrapper.step (.init storage) followed = some t.abstracted ∧
      followed.filter (fun event => !isTake event) = events.filterMap visible := by
  suffices followed : t.Written ∧ ∃ followed,
      run CannonClientWrapper.step (.init storage) followed = some t.abstracted ∧
        followed.filter (fun event => !isTake event) = events.filterMap visible from followed.2
  refine run_induction (P := fun events t => t.Written ∧ ∃ followed,
      run CannonClientWrapper.step (.init storage) followed = some t.abstracted ∧
        followed.filter (fun event => !isTake event) = events.filterMap visible)
    ⟨written_init storage, [], rfl, rfl⟩ ?_ steps
  rintro events t event next _ ⟨written, followed, begun, same⟩ here
  obtain ⟨still_written, follow⟩ := follows written here
  refine ⟨still_written, ?_⟩
  rw [List.filterMap_append, ← same]
  simp only [Follows] at follow
  split at follow
  next shown seen =>
    refine ⟨followed ++ [shown], run_snoc.mpr ⟨_, begun, follow.1⟩, ?_⟩
    simp [List.filter_append, seen, follow.2]
  next unseen =>
    rcases follow with unchanged | ⟨pool, taken⟩
    · exact ⟨followed, by rw [unchanged]; exact begun, by simp [unseen]⟩
    · refine ⟨followed ++ [.take pool], run_snoc.mpr ⟨_, begun, taken⟩, ?_⟩
      simp [List.filter_append, unseen, isTake]

/-- One query, while the worker of the other pool sleeps and is woken for nothing. -/
theorem threads_refine_wrapper_query : ∃ t : ThreadedWrapper Nat, ∃ followed,
    run step (init (Storage.init Nat))
      [.test .queryThreadPool, .wrapper (.enqueueQueryKeys [1] 0), .test .insertThreadPool,
        .wrapper (.write .insertThreadPool), .wrapper .serve, .wake .queryThreadPool,
        .wrapper (.read .insertThreadPool), .notifyOne .insertThreadPool none] = some t ∧
      run CannonClientWrapper.step (.init (Storage.init Nat)) followed = some t.abstracted := by
  obtain ⟨followed, reached, _⟩ := @threads_refine_wrapper Nat _ (Storage.init Nat)
    [.test .queryThreadPool, .wrapper (.enqueueQueryKeys [1] 0), .test .insertThreadPool,
      .wrapper (.write .insertThreadPool), .wrapper .serve, .wake .queryThreadPool,
      .wrapper (.read .insertThreadPool), .notifyOne .insertThreadPool none] _ rfl
  exact ⟨_, followed, rfl, reached⟩

end CppProject.CannonProxy
