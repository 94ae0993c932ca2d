import CppProject.Threads.Workers

/-!
# Every accepted task is run

The order in which tasks are accepted and started, the number of steps that the threads
still have in front of them, and what is left when no thread has a step.
-/

namespace CppProject.Threads

open Library.Runs
open Library.Totals

variable {T : Type} {n : Nat}

theorem sound_run {events : List (Event T n)} {p : ThreadPool T n}
    (steps : run step (init T n) events = some p) : Sound p :=
  run_induction (P := fun _ p => Sound p) sound_init
    (fun _ _ _ _ _ sound here => sound.step here) steps

/-! ## What is accepted -/

def Event.isStop : Event T n → Bool
  | .setStop => true
  | _ => false

theorem acceptedBy_append (first rest : List (Event T n)) :
    acceptedBy (first ++ rest) =
      acceptedBy first ++ if first.any Event.isStop then [] else acceptedBy rest := by
  induction first with
  | nil => rfl
  | cons event first ih =>
      cases event with
      | setStop => rfl
      | enqueue task => simp only [List.cons_append, acceptedBy, List.any_cons, Event.isStop, Bool.false_or, ih]
      | _ => simp only [List.cons_append, acceptedBy, List.any_cons, Event.isStop, Bool.false_or, ih]

/-- The pool is stopped exactly by the destructor, and what it has accepted is what came
before. -/
theorem accepted_of_run {events : List (Event T n)} {p : ThreadPool T n}
    (steps : run step (init T n) events = some p) :
    p.accepted = acceptedBy events ∧ p.stop = events.any Event.isStop := by
  refine run_induction (P := fun events p => p.accepted = acceptedBy events ∧ p.stop = events.any Event.isStop)
    ⟨rfl, rfl⟩ ?_ steps
  rintro events p event next _ ⟨accepted, stop⟩ here
  rw [acceptedBy_append, ← stop, ← accepted, List.any_append, ← stop]
  cases moves_of_step here with
  | refused task stopped => simp [stopped]
  | accepted task going => simp [going, acceptedBy, Event.isStop]
  | stops uncalled => simp [acceptedBy, Event.isStop]
  | _ => simp [acceptedBy, Event.isStop, ThreadPool.setWorker, ThreadPool.notifyAll]

/-- In every run the tasks that were brought before the destructor are accepted in their
order, started in that order, and each one is queued, held by one worker or finished. -/
theorem tasks_started_in_order {events : List (Event T n)} {p : ThreadPool T n}
    (steps : run step (init T n) events = some p) :
    p.accepted = acceptedBy events ∧ p.accepted = p.started ++ p.tasks ∧
      (p.started : Multiset T) = p.finished + p.held :=
  ⟨(accepted_of_run steps).1, (sound_run steps).order, (sound_run steps).once⟩

theorem tasks_started_in_order_two_workers :
    ∃ p, run step (init Nat 2) [.enqueue 7, .enqueue 8, .test ⟨1, by decide⟩, .setStop, .enqueue 9] = some p ∧
      p.accepted = [7, 8] ∧ p.accepted = p.started ++ p.tasks ∧
      (p.started : Multiset Nat) = p.finished + p.held :=
  ⟨_, rfl, @tasks_started_in_order Nat 2
    [.enqueue 7, .enqueue 8, .test ⟨1, by decide⟩, .setStop, .enqueue 9] _ rfl⟩

/-! ## One worker -/

namespace Worker

/-- The task of a worker, as a list. -/
def heldTasks : Worker T → List T
  | running task => [task]
  | _ => []

end Worker

/-- A pool of one worker finishes its tasks in the order in which they were accepted. -/
theorem single_worker_in_order {events : List (Event T 1)} {p : ThreadPool T 1}
    (steps : run step (init T 1) events = some p) (worker : Fin 1) :
    acceptedBy events = p.finished ++ (p.workers worker).heldTasks ++ p.tasks := by
  have ordered : p.started = p.finished ++ (p.workers worker).heldTasks := by
    refine run_induction (P := fun _ p => p.started = p.finished ++ (p.workers worker).heldTasks) rfl ?_ steps
    intro events p event next _ ordered here
    cases moves_of_step here with
    | refused task stopped => exact ordered
    | accepted task going => exact ordered
    | nobody some_left nobody => exact ordered
    | notified i some_left asleep =>
        cases Subsingleton.elim i worker
        simpa [asleep, Worker.heldTasks] using ordered
    | woken i asleep =>
        cases Subsingleton.elim i worker
        simpa [asleep, Worker.heldTasks] using ordered
    | waits i ready empty going =>
        cases Subsingleton.elim i worker
        simpa [ready, Worker.heldTasks] using ordered
    | returns i ready empty stopped =>
        cases Subsingleton.elim i worker
        simpa [ready, Worker.heldTasks] using ordered
    | takes i task rest ready front =>
        cases Subsingleton.elim i worker
        simpa [ready, Worker.heldTasks] using ordered
    | finishes i task running =>
        cases Subsingleton.elim i worker
        simpa [running, Worker.heldTasks] using ordered
    | stops uncalled => exact ordered
    | notifies stopping =>
        have same : (p.workers worker).woken.heldTasks = (p.workers worker).heldTasks := by
          cases p.workers worker <;> rfl
        exact ordered.trans (congrArg _ same.symm)
    | joins joined inside joining returned => exact ordered
  rw [← (accepted_of_run steps).1, (sound_run steps).order, ordered]

theorem single_worker_in_order_one_left :
    ∃ p, run step (init Nat 1) [.enqueue 7, .enqueue 8, .test ⟨0, by decide⟩] = some p ∧
      [7, 8] = p.finished ++ (p.workers ⟨0, by decide⟩).heldTasks ++ p.tasks :=
  ⟨_, rfl, @single_worker_in_order Nat [.enqueue 7, .enqueue 8, .test ⟨0, by decide⟩] _ rfl _⟩

/-! ## The steps that are left -/

/-- The steps that a worker still makes by itself. -/
def Worker.pending : Worker T → Nat
  | .ready => 1
  | .running _ => 2
  | _ => 0

def Destructor.pending (n : Nat) : Destructor → Nat
  | .uncalled => 2 * n + 2
  | .stopping => 2 * n + 1
  | .joining joined => n - joined

/-- A bound for the steps of all threads, calls of `enqueue` and idle wakeups left aside. -/
def ThreadPool.pending (p : ThreadPool T n) : Nat :=
  total Worker.pending p.workers + 2 * p.tasks.length + 2 * p.notifying + p.destructor.pending n

/-- What an event adds to the steps that are left, its own included. -/
def Event.brings : Event T n → Nat
  | .enqueue _ => 5
  | .wake _ => 2
  | _ => 0

theorem pending_setWorker (p : ThreadPool T n) (i : Fin n) (worker : Worker T) :
    total Worker.pending (p.setWorker i worker).workers + (p.workers i).pending =
      total Worker.pending p.workers + worker.pending :=
  total_update Worker.pending p.workers i worker

theorem pending_woken (p : ThreadPool T n) :
    total Worker.pending p.notifyAll.workers ≤ total Worker.pending p.workers + n :=
  total_le_add fun i => by
    simp only [ThreadPool.notifyAll]
    cases p.workers i <;> simp [Worker.woken, Worker.pending]

/-- Every step is one of those that were left. -/
theorem pending_step (p : ThreadPool T n) (event : Event T n) (next : ThreadPool T n)
    (here : step p event = some next) : next.pending + 1 ≤ p.pending + event.brings := by
  cases moves_of_step here with
  | refused task stopped =>
      simp only [Event.brings]
      omega
  | accepted task going =>
      simp only [ThreadPool.pending, Event.brings, List.length_append, List.length_singleton]
      omega
  | nobody some_left nobody =>
      simp only [ThreadPool.pending, Event.brings]
      omega
  | notified i some_left asleep =>
      have change_one := pending_setWorker p i .ready
      simp only [asleep, Worker.pending] at change_one
      simp only [ThreadPool.pending, Event.brings, ThreadPool.setWorker] at change_one ⊢
      omega
  | woken i asleep =>
      have change_one := pending_setWorker p i .ready
      simp only [asleep, Worker.pending] at change_one
      simp only [ThreadPool.pending, Event.brings, ThreadPool.setWorker] at change_one ⊢
      omega
  | waits i ready empty going =>
      have change_one := pending_setWorker p i .waiting
      simp only [ready, Worker.pending] at change_one
      simp only [ThreadPool.pending, Event.brings, ThreadPool.setWorker] at change_one ⊢
      omega
  | returns i ready empty stopped =>
      have change_one := pending_setWorker p i .returned
      simp only [ready, Worker.pending] at change_one
      simp only [ThreadPool.pending, Event.brings, ThreadPool.setWorker] at change_one ⊢
      omega
  | takes i task rest ready front =>
      have change_one := pending_setWorker p i (.running task)
      simp only [ready, Worker.pending] at change_one
      simp only [ThreadPool.pending, Event.brings, ThreadPool.setWorker, front, List.length_cons] at change_one ⊢
      omega
  | finishes i task running =>
      have change_one := pending_setWorker p i .ready
      simp only [running, Worker.pending] at change_one
      simp only [ThreadPool.pending, Event.brings, ThreadPool.setWorker] at change_one ⊢
      omega
  | stops uncalled =>
      simp only [ThreadPool.pending, Event.brings, uncalled, Destructor.pending]
      omega
  | notifies stopping =>
      have woken := pending_woken p
      simp only [ThreadPool.pending, Event.brings, stopping, Destructor.pending]
      simp only [ThreadPool.notifyAll] at woken ⊢
      omega
  | joins joined inside joining returned =>
      simp only [ThreadPool.pending, Event.brings, joining, Destructor.pending]
      omega

/-! ## When no thread has a step -/

/-- A step of the workers, of a call of `enqueue` behind its block, or of the destructor
behind its first block. -/
def Event.isOwn : Event T n → Bool
  | .enqueue _ => false
  | .wake _ => false
  | .setStop => false
  | _ => true

/-- No thread has a step, new calls and wakeups without a notification left aside. -/
def Still (p : ThreadPool T n) : Prop := ∀ event : Event T n, event.isOwn = true → step p event = none

namespace Still

variable {p : ThreadPool T n}

theorem worker (still : Still p) (i : Fin n) : p.workers i = .waiting ∨ p.workers i = .returned := by
  cases found : p.workers i with
  | ready =>
      have blocked := still (.test i) rfl
      simp [step, found, Worker.isReady] at blocked
  | waiting => exact .inl rfl
  | running task =>
      have blocked := still (.finish i) rfl
      simp [step, found] at blocked
  | returned => exact .inr rfl

theorem held (still : Still p) : p.held = 0 :=
  total_eq_zero fun i => by rcases still.worker i with found | found <;> rw [found] <;> rfl

theorem testing (still : Still p) : p.testing = 0 :=
  total_eq_zero fun i => by rcases still.worker i with found | found <;> rw [found] <;> rfl

theorem notifying (still : Still p) : p.notifying = 0 := by
  by_contra some_left
  have some_left : 0 < p.notifying := Nat.pos_of_ne_zero some_left
  by_cases asleep : ∃ i, p.workers i = .waiting
  · obtain ⟨i, asleep⟩ := asleep
    have blocked := still (.notifyOne (some i)) rfl
    simp [step, some_left, asleep, Worker.isWaiting] at blocked
  · have nobody (i : Fin n) : (p.workers i).isWaiting = false :=
      Bool.eq_false_iff.mpr fun waiting => asleep ⟨i, isWaiting_eq_true.mp waiting⟩
    have blocked := still (.notifyOne none) rfl
    simp [step, some_left, nobody] at blocked

/-- No notification is lost: a pool with a task in its queue is not still. -/
theorem tasks (still : Still p) (sound : Sound p) (some_workers : 0 < n) : p.tasks = [] := by
  rcases still.worker ⟨0, some_workers⟩ with asleep | returned
  · have enough := sound.awake _ asleep
    rw [still.testing, still.notifying] at enough
    exact List.length_eq_zero_iff.mp (Nat.le_zero.mp enough)
  · exact (sound.returned _ returned).2

theorem finished (still : Still p) (sound : Sound p) (some_workers : 0 < n) : p.finished.Perm p.accepted := by
  have once := sound.once
  rw [still.held, add_zero] at once
  rw [sound.order, still.tasks sound some_workers, List.append_nil]
  exact (Multiset.coe_eq_coe.mp once).symm

/-- A destructor that has begun has joined every worker. -/
theorem joined (still : Still p) (sound : Sound p) (called : p.stop = true) : p.destructor = .joining n := by
  cases phase : p.destructor with
  | uncalled => exact absurd phase (sound.stop_iff.mp called)
  | stopping =>
      have blocked := still .notifyAll rfl
      simp [step, phase] at blocked
  | joining joined =>
      rcases Nat.lt_or_ge joined n with inside | all
      · have returned := (still.worker ⟨joined, inside⟩).resolve_left (sound.notified joined phase _)
        have blocked := still .join rfl
        simp [step, phase, inside, returned, Worker.isReturned] at blocked
      · rw [Nat.le_antisymm (sound.joined_le joined phase) all]

end Still

/-- In every run of a pool with a worker whatever the threads do comes to an end, up to the
calls of `enqueue` and the wakeups without a notification; a task is taken to end.  Where no
thread has a step, every accepted task is finished, and so is a destructor that was called. -/
theorem accepted_tasks_finish (some_workers : 0 < n) {events : List (Event T n)} {p : ThreadPool T n}
    (steps : run step (init T n) events = some p) :
    events.length ≤ 3 * n + 2 + (events.map Event.brings).sum ∧
      (Still p → p.finished.Perm (acceptedBy events) ∧ p.tasks = [] ∧
        (p.stop = true → p.destructor = .joining n)) := by
  have sound := sound_run steps
  constructor
  · have bound := run_length_le ThreadPool.pending Event.brings pending_step steps
    have begins : (init T n).pending = 3 * n + 2 := by
      simp only [ThreadPool.pending, init, total_const, Worker.pending, Destructor.pending,
        List.length_nil, smul_eq_mul]
      omega
    omega
  · intro still
    refine ⟨?_, still.tasks sound some_workers, still.joined sound⟩
    rw [← (accepted_of_run steps).1]
    exact still.finished sound some_workers

theorem accepted_tasks_finish_one :
    ∃ p, run step (init Nat 1) [.enqueue 7, .notifyOne none, .test ⟨0, by decide⟩, .finish ⟨0, by decide⟩,
        .test ⟨0, by decide⟩] = some p ∧ p.finished.Perm [7] := by
  refine ⟨_, rfl, ((@accepted_tasks_finish Nat 1 Nat.one_pos
    [.enqueue 7, .notifyOne none, .test ⟨0, by decide⟩, .finish ⟨0, by decide⟩, .test ⟨0, by decide⟩]
    _ rfl).2 ?_).1⟩
  intro event own
  match event, own with
  | .notifyOne none, _ => rfl
  | .notifyOne (some i), _ => rfl
  | .test ⟨0, _⟩, _ => rfl
  | .finish ⟨0, _⟩, _ => rfl
  | .notifyAll, _ => rfl
  | .join, _ => rfl

/-- When the destructor of a pool with a worker is back from its last join, every task that
was accepted is finished. -/
theorem destructor_finishes_tasks (some_workers : 0 < n) {events : List (Event T n)}
    {p : ThreadPool T n} (steps : run step (init T n) events = some p)
    (back : p.destructor = .joining n) :
    p.finished.Perm (acceptedBy events) ∧ p.tasks = [] ∧ ∀ i, p.workers i = .returned := by
  have sound := sound_run steps
  have returned (i : Fin n) : p.workers i = .returned := sound.joined_returned n back i i.isLt
  have empty := (sound.returned ⟨0, some_workers⟩ (returned _)).2
  have once := sound.once
  have none_held : p.held = 0 := total_eq_zero fun i => by rw [returned i]; rfl
  rw [none_held, add_zero] at once
  refine ⟨?_, empty, returned⟩
  rw [← (accepted_of_run steps).1, sound.order, empty, List.append_nil]
  exact (Multiset.coe_eq_coe.mp once).symm

theorem destructor_finishes_tasks_one :
    ∃ p, run step (init Nat 1) [.enqueue 7, .setStop, .enqueue 8, .test ⟨0, by decide⟩, .notifyAll,
        .finish ⟨0, by decide⟩, .test ⟨0, by decide⟩, .join] = some p ∧ p.finished.Perm [7] :=
  ⟨_, rfl, (@destructor_finishes_tasks Nat 1 Nat.one_pos
    [.enqueue 7, .setStop, .enqueue 8, .test ⟨0, by decide⟩, .notifyAll, .finish ⟨0, by decide⟩,
      .test ⟨0, by decide⟩, .join] _ rfl rfl).1⟩

end CppProject.Threads
