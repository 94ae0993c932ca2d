import CppProject.CannonProxy.Storage
import CppProject.Library.Runs

/-!
# `CannonClientWrapper`

One shard behind its client wrapper: two thread pools of one worker each, and the
connection that the workers of both share.  A worker writes the request of its
task to the connection and then reads the next reply from it; the server answers
the requests of a connection in order.
-/

namespace CppProject.CannonProxy

open Library.Runs

inductive Request (V : Type) where
  | get (keys : List Int64) (dataVersion : Nat)
  | insert (kvs : List (CannonKV V)) (dataVersion : Nat)
  | clearData (dataVersion : Nat)
  deriving DecidableEq, Repr

inductive Answer (V : Type) where
  | values (values : List (ValueItem V))
  | ret (ret : Bool)
  deriving DecidableEq, Repr

/-- What the server does with a request. -/
def Request.serve {V : Type} [Zero V] (s : Storage V) : Request V → Answer V × Storage V
  | .get keys dataVersion => (.values (CannonHandler.get s keys dataVersion).values, s)
  | .insert kvs dataVersion =>
      let (ret, s) := CannonHandler.insert dataVersion kvs s
      (.ret ret, s)
  | .clearData dataVersion =>
      let (ret, s) := CannonHandler.clearData s dataVersion
      (.ret ret, s)

/-- A call that a pool runs, with its number among all calls of the wrapper. -/
structure Task (V : Type) where
  number : Nat
  request : Request V
  deriving DecidableEq, Repr

/-- The one worker of a pool: behind `condition.wait`, in front of the write of its
task, or between the write and the read. -/
inductive Worker (V : Type) where
  | idle
  | taken (task : Task V)
  | awaiting (task : Task V)
  deriving DecidableEq, Repr

structure ThreadPool (V : Type) where
  tasks : List (Task V)
  worker : Worker V
  deriving DecidableEq, Repr

/-- A reply, with the task whose request it answers. -/
structure TaskReply (V : Type) where
  task : Task V
  answer : Answer V
  deriving DecidableEq, Repr

inductive Pool where
  | queryThreadPool
  | insertThreadPool
  deriving DecidableEq, Repr

def Pool.other : Pool → Pool
  | .queryThreadPool => .insertThreadPool
  | .insertThreadPool => .queryThreadPool

theorem Pool.eq_or_other (p q : Pool) : p = q ∨ p = q.other := by
  cases p <;> cases q <;> simp [Pool.other]

@[simp] theorem Pool.other_ne (p : Pool) : p.other ≠ p := by
  cases p <;> simp [Pool.other]

@[simp] theorem Pool.other_other (p : Pool) : p.other.other = p := by
  cases p <;> rfl

/-- The wrapper, its connection and the server behind it.  `results` lists what
every finished task has read. -/
structure CannonClientWrapper (V : Type) where
  pools : Pool → ThreadPool V
  enqueued : Nat
  requests : List (Task V)
  replies : List (TaskReply V)
  results : List (Task V × TaskReply V)
  storage : Storage V

inductive WrapperEvent (V : Type) where
  | enqueueInsertKvs (kvs : List (CannonKV V)) (dataVersion : Nat)
  | enqueueQueryKeys (keys : List Int64) (dataVersion : Nat)
  | clearData (dataVersion : Nat)
  | take (pool : Pool)
  | write (pool : Pool)
  | serve
  | read (pool : Pool)
  deriving DecidableEq, Repr

/-- The pool that a call enqueues its task on; the other events enqueue nothing. -/
def WrapperEvent.enqueuesOn {V : Type} : WrapperEvent V → Option Pool
  | .enqueueInsertKvs _ _ => some .queryThreadPool
  | .enqueueQueryKeys _ _ => some .insertThreadPool
  | .clearData _ => some .queryThreadPool
  | _ => none

namespace CannonClientWrapper

variable {V : Type}

def init (storage : Storage V) : CannonClientWrapper V :=
  ⟨fun _ => ⟨[], .idle⟩, 0, [], [], [], storage⟩

def setPool (w : CannonClientWrapper V) (pool : Pool) (state : ThreadPool V) :
    CannonClientWrapper V :=
  { w with pools := Function.update w.pools pool state }

/-- `enqueue` -/
def enqueue (w : CannonClientWrapper V) (pool : Pool) (request : Request V) :
    CannonClientWrapper V :=
  { w.setPool pool { w.pools pool with tasks := (w.pools pool).tasks ++ [⟨w.enqueued, request⟩] } with
    enqueued := w.enqueued + 1 }

/-- `enqueue_insert_kvs` -/
def enqueueInsertKvs (w : CannonClientWrapper V) (kvs : List (CannonKV V)) (dataVersion : Nat) :
    CannonClientWrapper V :=
  w.enqueue .queryThreadPool (.insert kvs dataVersion)

/-- `enqueue_query_keys` -/
def enqueueQueryKeys (w : CannonClientWrapper V) (keys : List Int64) (dataVersion : Nat) :
    CannonClientWrapper V :=
  w.enqueue .insertThreadPool (.get keys dataVersion)

/-- `clear_data` -/
def clearData (w : CannonClientWrapper V) (dataVersion : Nat) : CannonClientWrapper V :=
  w.enqueue .queryThreadPool (.clearData dataVersion)

def step [Zero V] (w : CannonClientWrapper V) : WrapperEvent V → Option (CannonClientWrapper V)
  | .enqueueInsertKvs kvs dataVersion => some (w.enqueueInsertKvs kvs dataVersion)
  | .enqueueQueryKeys keys dataVersion => some (w.enqueueQueryKeys keys dataVersion)
  | .clearData dataVersion => some (w.clearData dataVersion)
  | .take pool =>
      match w.pools pool with
      | ⟨task :: rest, .idle⟩ => some (w.setPool pool ⟨rest, .taken task⟩)
      | _ => none
  | .write pool =>
      match w.pools pool with
      | ⟨tasks, .taken task⟩ =>
          some { w.setPool pool ⟨tasks, .awaiting task⟩ with requests := w.requests ++ [task] }
      | _ => none
  | .serve =>
      match w.requests with
      | [] => none
      | task :: rest =>
          let (answer, storage) := task.request.serve w.storage
          some { w with
            requests := rest, replies := w.replies ++ [⟨task, answer⟩], storage := storage }
  | .read pool =>
      match w.pools pool, w.replies with
      | ⟨tasks, .awaiting task⟩, reply :: rest =>
          some { w.setPool pool ⟨tasks, .idle⟩ with
            replies := rest, results := w.results ++ [(task, reply)] }
      | _, _ => none

/-! ## One outstanding call -/

/-- At most one task is between its write and its read, and every task has read the
reply to its own request. -/
structure OneOutstanding (w : CannonClientWrapper V) : Prop where
  exclusive : ∀ task task', (w.pools .queryThreadPool).worker = .awaiting task →
    (w.pools .insertThreadPool).worker ≠ .awaiting task'
  own : ∀ result ∈ w.results, result.2.task = result.1

/-- No task is queued or running. -/
def Drained (w : CannonClientWrapper V) (pool : Pool) : Prop := w.pools pool = ⟨[], .idle⟩

/-- Every call of the sequence finds the other pool drained. -/
def OneAtATime [Zero V] : CannonClientWrapper V → List (WrapperEvent V) → Prop
  | _, [] => True
  | w, event :: rest =>
      (∀ pool, event.enqueuesOn = some pool → w.Drained pool.other) ∧
        ∀ next, w.step event = some next → OneAtATime next rest

/-! ## One pool at work -/

section Pools

variable {w next : CannonClientWrapper V} {pool : Pool}

@[simp] theorem setPool_pools_self (w : CannonClientWrapper V) (pool : Pool) (state : ThreadPool V) :
    (w.setPool pool state).pools pool = state :=
  Function.update_self _ _ _

@[simp] theorem setPool_pools_other (w : CannonClientWrapper V) (pool : Pool) (state : ThreadPool V) :
    (w.setPool pool state).pools pool.other = w.pools pool.other :=
  Function.update_of_ne (Pool.other_ne pool) _ _

@[simp] theorem setPool_requests (w : CannonClientWrapper V) (pool : Pool) (state : ThreadPool V) :
    (w.setPool pool state).requests = w.requests := rfl

@[simp] theorem setPool_replies (w : CannonClientWrapper V) (pool : Pool) (state : ThreadPool V) :
    (w.setPool pool state).replies = w.replies := rfl

/-- The connection while one worker uses it, by what the worker does. -/
inductive Exchange : List (Task V) → List (TaskReply V) → Worker V → Prop where
  | idle : Exchange [] [] .idle
  | taken (task : Task V) : Exchange [] [] (.taken task)
  | written (task : Task V) : Exchange [task] [] (.awaiting task)
  | answered (task : Task V) (answer : Answer V) : Exchange [] [⟨task, answer⟩] (.awaiting task)

/-- Only one pool has tasks. -/
structure Alone (w : CannonClientWrapper V) (pool : Pool) : Prop where
  other : w.Drained pool.other
  exchange : Exchange w.requests w.replies (w.pools pool).worker
  own : ∀ result ∈ w.results, result.2.task = result.1

theorem alone_init (storage : Storage V) (pool : Pool) : (init storage).Alone pool :=
  ⟨rfl, .idle, List.forall_mem_nil _⟩

theorem Alone.oneOutstanding (alone : w.Alone pool) : w.OneOutstanding := by
  refine ⟨?_, alone.own⟩
  intro task task' query insert
  have other := alone.other
  cases pool <;> simp_all [Drained, Pool.other]

/-- A drained pool makes room for the other one. -/
theorem Alone.switch (alone : w.Alone pool) (drained : w.Drained pool) : w.Alone pool.other := by
  obtain ⟨other, exchange, own⟩ := alone
  refine ⟨by rwa [Pool.other_other], ?_, own⟩
  rw [drained] at exchange
  rw [other]
  exact exchange

theorem Alone.enqueue (alone : w.Alone pool) (request : Request V) :
    (w.enqueue pool request).Alone pool := by
  obtain ⟨other, exchange, own⟩ := alone
  refine ⟨?_, ?_, own⟩
  · simpa [Drained, CannonClientWrapper.enqueue] using other
  · simpa [CannonClientWrapper.enqueue] using exchange

variable [Zero V] {event : WrapperEvent V}

/-- A step of a worker or of the server. -/
theorem Alone.thread_step (alone : w.Alone pool) (thread : event.enqueuesOn = none)
    (here : w.step event = some next) : next.Alone pool := by
  obtain ⟨other, exchange, own⟩ := alone
  obtain ⟨pools, enqueued, requests, replies, results, storage⟩ := w
  simp only [Drained] at other exchange own
  cases event with
  | enqueueInsertKvs kvs dataVersion => cases thread
  | enqueueQueryKeys keys dataVersion => cases thread
  | clearData dataVersion => cases thread
  | take p =>
      rcases Pool.eq_or_other p pool with rfl | rfl
      · simp only [CannonClientWrapper.step] at here
        split at here
        next task rest state =>
          cases here
          rw [state] at exchange
          cases exchange
          exact ⟨by simpa [Drained] using other, by simpa using Exchange.taken task, own⟩
        · cases here
      · simp [CannonClientWrapper.step, other] at here
  | write p =>
      rcases Pool.eq_or_other p pool with rfl | rfl
      · simp only [CannonClientWrapper.step] at here
        split at here
        next tasks task state =>
          cases here
          rw [state] at exchange
          cases exchange
          exact ⟨by simpa [Drained] using other, by simpa using Exchange.written task, own⟩
        · cases here
      · simp [CannonClientWrapper.step, other] at here
  | serve =>
      simp only [CannonClientWrapper.step] at here
      split at here
      · cases here
      next task rest =>
        cases here
        generalize state : (pools pool).worker = worker at exchange
        cases exchange
        refine ⟨other, ?_, own⟩
        simp only [List.nil_append, state]
        exact .answered task _
  | read p =>
      rcases Pool.eq_or_other p pool with rfl | rfl
      · simp only [CannonClientWrapper.step] at here
        split at here
        next tasks task reply rest state =>
          cases here
          rw [state] at exchange
          cases exchange with
          | answered _ answer =>
              refine ⟨by simpa [Drained] using other, by simpa using Exchange.idle, ?_⟩
              intro result member
              rcases List.mem_append.mp member with earlier | read
              · exact own result earlier
              · rw [List.mem_singleton.mp read]
        · cases here
      · simp [CannonClientWrapper.step, other] at here

/-- A busy pool can bring a task behind its write, without a step of the other. -/
theorem exists_awaiting (busy : ¬w.Drained pool) :
    ∃ threads reached task, (∀ event ∈ threads, event.enqueuesOn = none) ∧
      run step w threads = some reached ∧ (reached.pools pool).worker = .awaiting task ∧
      reached.pools pool.other = w.pools pool.other := by
  rcases state : w.pools pool with ⟨tasks, worker⟩
  cases worker with
  | awaiting task => exact ⟨[], w, task, by simp, rfl, by rw [state], rfl⟩
  | taken task =>
      refine ⟨[.write pool], { w.setPool pool ⟨tasks, .awaiting task⟩ with
        requests := w.requests ++ [task] }, task, by simp [WrapperEvent.enqueuesOn], ?_, ?_, ?_⟩
      · simp [run, CannonClientWrapper.step, state]
      · simp
      · simp
  | idle =>
      cases tasks with
      | nil => exact absurd state busy
      | cons task rest =>
          refine ⟨[.take pool, .write pool], { w.setPool pool ⟨rest, .awaiting task⟩ with
            requests := w.requests ++ [task] }, task, by simp [WrapperEvent.enqueuesOn], ?_, ?_, ?_⟩
          · simp [run, CannonClientWrapper.step, state, setPool]
          · simp
          · simp

end Pools

/-! ## Runs -/

section Runs

variable [Zero V] {w : CannonClientWrapper V} {pool : Pool} {event : WrapperEvent V}
  {earlier threads events : List (WrapperEvent V)}

/-- The three calls, by the pool they enqueue on. -/
theorem step_enqueue (call : event.enqueuesOn = some pool) :
    ∃ request, w.step event = some (w.enqueue pool request) := by
  cases event <;> cases call <;> exact ⟨_, rfl⟩

theorem OneAtATime.prefix_of (initial : earlier <+: events) (alternating : w.OneAtATime events) :
    w.OneAtATime earlier := by
  induction earlier generalizing w events with
  | nil => trivial
  | cons event earlier ih =>
      cases events with
      | nil => cases List.prefix_nil.mp initial
      | cons first rest =>
          obtain ⟨rfl, later⟩ := List.cons_prefix_cons.mp initial
          exact ⟨alternating.1, fun next here => ih later (alternating.2 next here)⟩

/-- Calls that find the other pool drained keep one pool at work at a time. -/
theorem Alone.reached (alone : w.Alone pool) (alternating : w.OneAtATime events)
    {last : CannonClientWrapper V} (steps : run step w events = some last) :
    ∃ working, last.Alone working := by
  induction events generalizing w pool with
  | nil =>
      cases steps
      exact ⟨pool, alone⟩
  | cons event rest ih =>
      obtain ⟨next, here, later⟩ := run_cons_eq_some.mp steps
      have rest_alternating := alternating.2 next here
      cases call : event.enqueuesOn with
      | none => exact ih (alone.thread_step call here) rest_alternating later
      | some on =>
          obtain ⟨request, enqueued⟩ := step_enqueue (w := w) call
          rw [enqueued] at here
          cases here
          rcases Pool.eq_or_other on pool with rfl | rfl
          · exact ih (alone.enqueue request) rest_alternating later
          · have drained := alternating.1 _ call
            rw [Pool.other_other] at drained
            exact ih ((alone.switch drained).enqueue request) rest_alternating later

/-- Workers and server alone never break the discipline. -/
theorem oneAtATime_threads (working : ∀ event ∈ threads, event.enqueuesOn = none)
    (w : CannonClientWrapper V) : w.OneAtATime threads := by
  induction threads generalizing w with
  | nil => trivial
  | cons event rest ih =>
      obtain ⟨first, others⟩ := List.forall_mem_cons.mp working
      refine ⟨?_, fun next _ => ih others next⟩
      intro pool call
      rw [first] at call
      cases call

/-- A call that finds the other pool busy lets two tasks write before either reads. -/
theorem overlap (busy : ¬w.Drained pool.other) (request : Request V) :
    ∃ threads reached, (∀ event ∈ threads, event.enqueuesOn = none) ∧
      run step (w.enqueue pool request) threads = some reached ∧ ¬reached.OneOutstanding := by
  have still_busy : ¬(w.enqueue pool request).Drained pool.other := by
    simpa [Drained, CannonClientWrapper.enqueue] using busy
  obtain ⟨first, middle, task, first_working, begun, first_awaits, frame⟩ :=
    exists_awaiting still_busy
  rw [Pool.other_other] at frame
  have queued : ¬middle.Drained pool := by
    simp [Drained, frame, CannonClientWrapper.enqueue]
  obtain ⟨second, reached, task', second_working, ended, second_awaits, kept⟩ :=
    exists_awaiting queued
  rw [← kept] at first_awaits
  refine ⟨first ++ second, reached, ?_, run_append begun ended, ?_⟩
  · intro event member
    exact (List.mem_append.mp member).elim (first_working event) (second_working event)
  · intro one
    cases pool with
    | queryThreadPool => exact one.exclusive task' task second_awaits first_awaits
    | insertThreadPool => exact one.exclusive task task' first_awaits second_awaits

/-- Whatever the workers and the server do behind the calls made so far. -/
def AlwaysOneOutstanding (w : CannonClientWrapper V) (events : List (WrapperEvent V)) : Prop :=
  ∀ earlier, earlier <+: events → ∀ threads : List (WrapperEvent V),
    (∀ event ∈ threads, event.enqueuesOn = none) →
      ∀ reached, run step w (earlier ++ threads) = some reached → reached.OneOutstanding

theorem AlwaysOneOutstanding.later {rest : List (WrapperEvent V)} {next : CannonClientWrapper V}
    (always : w.AlwaysOneOutstanding (event :: rest)) (here : w.step event = some next) :
    next.AlwaysOneOutstanding rest := by
  intro earlier initial threads working reached steps
  refine always (event :: earlier) (List.cons_prefix_cons.mpr ⟨rfl, initial⟩) threads working
    reached ?_
  rw [List.cons_append, run_cons_of_step here]
  exact steps

theorem Alone.of_always (alone : w.Alone pool) (always : w.AlwaysOneOutstanding events) :
    w.OneAtATime events := by
  induction events generalizing w pool with
  | nil => trivial
  | cons event rest ih =>
      have polite : ∀ on, event.enqueuesOn = some on → w.Drained on.other := by
        intro on call
        by_contra busy
        obtain ⟨request, enqueued⟩ := step_enqueue (w := w) call
        obtain ⟨threads, reached, working, steps, broken⟩ := overlap busy request
        refine broken (always [event] (List.prefix_append [event] rest) threads working reached ?_)
        rw [List.singleton_append, run_cons_of_step enqueued]
        exact steps
      refine ⟨polite, ?_⟩
      intro next here
      have one_call : w.OneAtATime [event] := ⟨polite, fun _ _ => trivial⟩
      have single : run step w [event] = some next := run_cons_of_step here []
      obtain ⟨working, next_alone⟩ := alone.reached one_call single
      exact ih next_alone (always.later here)

/-- From a wrapper without tasks, in every run and whatever the workers and the
server do next: at most one task is between its write and its read, and every task
reads the reply to its own request, if and only if every call of the run finds the
pool that it does not use drained. -/
theorem one_outstanding_iff (storage : Storage V) (events : List (WrapperEvent V)) :
    (init storage).AlwaysOneOutstanding events ↔ (init storage).OneAtATime events := by
  constructor
  · exact (alone_init storage .queryThreadPool).of_always
  · intro alternating earlier initial threads working reached steps
    obtain ⟨middle, begun, ended⟩ := run_append_eq_some.mp steps
    obtain ⟨on, alone⟩ := (alone_init storage .queryThreadPool).reached
      (alternating.prefix_of initial) begun
    obtain ⟨on, alone⟩ := alone.reached (oneAtATime_threads working middle) ended
    exact alone.oneOutstanding

/-- A query and an insert that meet: both requests are on the connection, and the
insert reads the reply to the query. -/
theorem two_outstanding :
    (∃ reached, run step (init (Storage.init Nat))
        [.enqueueQueryKeys [1] 0, .enqueueInsertKvs [⟨1, 10⟩] 1, .take .insertThreadPool,
          .take .queryThreadPool, .write .insertThreadPool, .write .queryThreadPool] = some reached ∧
      ¬reached.OneOutstanding) ∧
    (run step (init (Storage.init Nat))
        [.enqueueQueryKeys [1] 0, .enqueueInsertKvs [⟨1, 10⟩] 1, .take .insertThreadPool,
          .take .queryThreadPool, .write .insertThreadPool, .write .queryThreadPool, .serve,
          .read .queryThreadPool]).map results =
      some [(⟨1, .insert [⟨1, 10⟩] 1⟩, ⟨⟨0, .get [1] 0⟩, .values [⟨.notFound, 0⟩]⟩)] := by
  refine ⟨⟨_, rfl, ?_⟩, rfl⟩
  intro one
  exact one.exclusive _ _ rfl rfl

end Runs

end CannonClientWrapper

end CppProject.CannonProxy
