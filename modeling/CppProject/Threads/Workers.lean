import CppProject.Threads.Source
import CppProject.Library.Totals
import Mathlib.Algebra.BigOperators.Group.Multiset.Basic

/-!
# The workers and the queue

What one step of a thread can do, and what holds in every state that is reached: every
accepted task is queued, held by one worker, or finished, and a worker only sleeps while
each queued task has somebody who will test for it.
-/

namespace CppProject.Threads

open Library.Runs
open Library.Totals

variable {T : Type} {n : Nat}

/-! ## Steps -/

/-- The steps, one for each branch. -/
inductive Moves (p : ThreadPool T n) : Event T n → ThreadPool T n → Prop where
  | refused (task : T) (stopped : p.stop = true) : Moves p (.enqueue task) p
  | accepted (task : T) (going : p.stop = false) : Moves p (.enqueue task) { p with
      tasks := p.tasks ++ [task], notifying := p.notifying + 1, accepted := p.accepted ++ [task] }
  | nobody (some_left : 0 < p.notifying) (nobody : ∀ i, (p.workers i).isWaiting = false) :
      Moves p (.notifyOne none) { p with notifying := p.notifying - 1 }
  | notified (i : Fin n) (some_left : 0 < p.notifying) (asleep : p.workers i = .waiting) :
      Moves p (.notifyOne (some i)) { p.setWorker i .ready with notifying := p.notifying - 1 }
  | woken (i : Fin n) (asleep : p.workers i = .waiting) : Moves p (.wake i) (p.setWorker i .ready)
  | waits (i : Fin n) (ready : p.workers i = .ready) (empty : p.tasks = []) (going : p.stop = false) :
      Moves p (.test i) (p.setWorker i .waiting)
  | returns (i : Fin n) (ready : p.workers i = .ready) (empty : p.tasks = []) (stopped : p.stop = true) :
      Moves p (.test i) (p.setWorker i .returned)
  | takes (i : Fin n) (task : T) (rest : List T) (ready : p.workers i = .ready)
      (front : p.tasks = task :: rest) :
      Moves p (.test i)
        { p.setWorker i (.running task) with tasks := rest, started := p.started ++ [task] }
  | finishes (i : Fin n) (task : T) (held : p.workers i = .running task) :
      Moves p (.finish i) { p.setWorker i .ready with finished := p.finished ++ [task] }
  | stops (uncalled : p.destructor = .uncalled) :
      Moves p .setStop { p with stop := true, destructor := .stopping }
  | notifies (stopping : p.destructor = .stopping) : Moves p .notifyAll p.notifyAll
  | joins (joined : Nat) (inside : joined < n) (joining : p.destructor = .joining joined)
      (returned : p.workers ⟨joined, inside⟩ = .returned) :
      Moves p .join { p with destructor := .joining (joined + 1) }

theorem isReady_eq_true {worker : Worker T} : worker.isReady = true ↔ worker = .ready := by
  cases worker <;> simp [Worker.isReady]

theorem isWaiting_eq_true {worker : Worker T} : worker.isWaiting = true ↔ worker = .waiting := by
  cases worker <;> simp [Worker.isWaiting]

theorem isReturned_eq_true {worker : Worker T} : worker.isReturned = true ↔ worker = .returned := by
  cases worker <;> simp [Worker.isReturned]

theorem moves_of_step {p next : ThreadPool T n} {event : Event T n} (here : step p event = some next) :
    Moves p event next := by
  cases event with
  | enqueue task =>
      by_cases stopped : p.stop = true
      · simp only [step, ThreadPool.enqueue, if_pos stopped, Option.some.injEq] at here
        subst here
        exact .refused task stopped
      · simp only [step, ThreadPool.enqueue, if_neg stopped, Option.some.injEq] at here
        subst here
        exact .accepted task (Bool.eq_false_iff.mpr stopped)
  | notifyOne chosen =>
      cases chosen with
      | none =>
          simp only [step, Option.ite_none_right_eq_some, Option.some.injEq] at here
          obtain ⟨⟨some_left, nobody⟩, rfl⟩ := here
          exact .nobody some_left nobody
      | some i =>
          simp only [step, Option.ite_none_right_eq_some, Option.some.injEq] at here
          obtain ⟨⟨some_left, asleep⟩, rfl⟩ := here
          exact .notified i some_left (isWaiting_eq_true.mp asleep)
  | wake i =>
      simp only [step, Option.ite_none_right_eq_some, Option.some.injEq] at here
      obtain ⟨asleep, rfl⟩ := here
      exact .woken i (isWaiting_eq_true.mp asleep)
  | test i =>
      simp only [step, Option.ite_none_right_eq_some, Option.some.injEq] at here
      obtain ⟨ready, rfl⟩ := here
      have ready := isReady_eq_true.mp ready
      simp only [ThreadPool.test]
      split
      next empty =>
        split
        next stopped => exact .returns i ready empty stopped
        next going => exact .waits i ready empty (Bool.eq_false_iff.mpr going)
      next task rest front => exact .takes i task rest ready front
  | finish i =>
      simp only [step] at here
      split at here
      next task held =>
        cases here
        exact .finishes i task held
      · cases here
  | setStop =>
      simp only [step, Option.ite_none_right_eq_some, Option.some.injEq] at here
      obtain ⟨uncalled, rfl⟩ := here
      exact .stops uncalled
  | notifyAll =>
      simp only [step, Option.ite_none_right_eq_some, Option.some.injEq] at here
      obtain ⟨stopping, rfl⟩ := here
      exact .notifies stopping
  | join =>
      simp only [step] at here
      split at here
      next joined joining =>
        split at here
        next inside =>
          simp only [Option.ite_none_right_eq_some, Option.some.injEq] at here
          obtain ⟨returned, rfl⟩ := here
          exact .joins joined inside joining (isReturned_eq_true.mp returned)
        · cases here
      · cases here

/-! ## What the workers hold -/

namespace Worker

/-- The task that a worker runs. -/
def held : Worker T → Multiset T
  | running task => {task}
  | _ => 0

/-- One for a worker that is about to test its predicate. -/
def readiness (worker : Worker T) : Nat := worker.isReady.toNat

theorem held_woken (worker : Worker T) : worker.woken.held = worker.held := by
  cases worker <;> rfl

theorem isWaiting_woken (worker : Worker T) : worker.woken.isWaiting = false := by
  cases worker <;> rfl

end Worker

namespace ThreadPool

variable (p : ThreadPool T n)

/-- The tasks that run. -/
def held : Multiset T := total Worker.held p.workers

/-- The workers that are about to test. -/
def testing : Nat := total Worker.readiness p.workers

theorem held_setWorker (i : Fin n) (worker : Worker T) :
    (p.setWorker i worker).held + (p.workers i).held = p.held + worker.held :=
  total_update Worker.held p.workers i worker

theorem testing_setWorker (i : Fin n) (worker : Worker T) :
    (p.setWorker i worker).testing + (p.workers i).readiness = p.testing + worker.readiness :=
  total_update Worker.readiness p.workers i worker

theorem held_notifyAll : p.notifyAll.held = p.held :=
  congrArg (fun weights : Fin n → Multiset T => ∑ i, weights i)
    (funext fun i => (p.workers i).held_woken)

variable {p}

@[simp] theorem setWorker_tasks (i : Fin n) (worker : Worker T) : (p.setWorker i worker).tasks = p.tasks := rfl

@[simp] theorem setWorker_accepted (i : Fin n) (worker : Worker T) :
    (p.setWorker i worker).accepted = p.accepted := rfl

@[simp] theorem setWorker_started (i : Fin n) (worker : Worker T) :
    (p.setWorker i worker).started = p.started := rfl

@[simp] theorem setWorker_finished (i : Fin n) (worker : Worker T) :
    (p.setWorker i worker).finished = p.finished := rfl

@[simp] theorem setWorker_same (i : Fin n) (worker : Worker T) : (p.setWorker i worker).workers i = worker :=
  Function.update_self _ _ _

theorem setWorker_of_ne {i j : Fin n} (apart : j ≠ i) (worker : Worker T) :
    (p.setWorker i worker).workers j = p.workers j :=
  Function.update_of_ne apart _ _

theorem eq_of_setWorker_eq {i j : Fin n} {worker kind : Worker T} (other : worker ≠ kind)
    (found : (p.setWorker i worker).workers j = kind) : p.workers j = kind := by
  by_cases same : j = i
  · rw [same, setWorker_same] at found
    exact absurd found other
  · rwa [setWorker_of_ne same] at found

theorem setWorker_eq_of_eq {i j : Fin n} {worker kind : Worker T} (other : p.workers i ≠ kind)
    (found : p.workers j = kind) : (p.setWorker i worker).workers j = kind := by
  have apart : j ≠ i := fun same => other (same ▸ found)
  rwa [setWorker_of_ne apart]

end ThreadPool

/-! ## The invariant -/

/-- The tasks that the calls of `enqueue` in front of the destructor have brought. -/
def acceptedBy : List (Event T n) → List T
  | [] => []
  | .setStop :: _ => []
  | .enqueue task :: rest => task :: acceptedBy rest
  | _ :: rest => acceptedBy rest

/-- What holds of a pool that has been reached. -/
structure Sound (p : ThreadPool T n) : Prop where
  order : p.accepted = p.started ++ p.tasks
  once : (p.started : Multiset T) = p.finished + p.held
  awake : ∀ i, p.workers i = .waiting → p.tasks.length ≤ p.testing + p.notifying
  stop_iff : p.stop = true ↔ p.destructor ≠ .uncalled
  notified : ∀ joined, p.destructor = .joining joined → ∀ i, p.workers i ≠ .waiting
  returned : ∀ i, p.workers i = .returned → p.stop = true ∧ p.tasks = []
  joined_le : ∀ joined, p.destructor = .joining joined → joined ≤ n
  joined_returned : ∀ joined, p.destructor = .joining joined → ∀ i : Fin n, i < joined →
    p.workers i = .returned

theorem held_init : (init T n).held = 0 := by
  simp only [ThreadPool.held, init, total_const, Worker.held, nsmul_zero]

theorem sound_init : Sound (init T n) where
  order := rfl
  once := by rw [held_init]; rfl
  awake := fun _ asleep => nomatch asleep
  stop_iff := by simp [init]
  notified := fun _ joining => nomatch joining
  returned := fun _ returned => nomatch returned
  joined_le := fun _ joining => nomatch joining
  joined_returned := fun _ joining => nomatch joining

namespace Sound

variable {p next : ThreadPool T n}

theorem uncalled (sound : Sound p) (going : p.stop = false) : p.destructor = .uncalled := by
  by_contra called
  rw [sound.stop_iff.mpr called] at going
  cases going

/-- No worker has returned while the queue holds a task. -/
theorem not_returned (sound : Sound p) {task : T} {rest : List T} (front : p.tasks = task :: rest)
    (i : Fin n) : p.workers i ≠ .returned := by
  intro returned
  have empty := (sound.returned i returned).2
  rw [front] at empty
  cases empty

/-- A worker whose predicate is false goes to sleep. -/
theorem waits (sound : Sound p) {i : Fin n} (ready : p.workers i = .ready) (empty : p.tasks = [])
    (going : p.stop = false) : Sound (p.setWorker i .waiting) := by
  have held := p.held_setWorker i .waiting
  have uncalled := sound.uncalled going
  simp only [ready, Worker.held, add_zero] at held
  refine { sound with once := ?_, awake := ?_, notified := ?_, returned := ?_, joined_returned := ?_ }
  · rw [held]
    exact sound.once
  · intro j _
    change p.tasks.length ≤ _
    rw [empty]
    exact Nat.zero_le _
  · intro joined joining
    exact absurd (uncalled.symm.trans joining) (by simp)
  · intro j returned
    exact sound.returned j (ThreadPool.eq_of_setWorker_eq (by simp) returned)
  · intro joined joining
    exact absurd (uncalled.symm.trans joining) (by simp)

/-- A worker of a stopped pool returns in front of an empty queue. -/
theorem returns (sound : Sound p) {i : Fin n} (ready : p.workers i = .ready) (empty : p.tasks = [])
    (stopped : p.stop = true) : Sound (p.setWorker i .returned) := by
  have held := p.held_setWorker i .returned
  simp only [ready, Worker.held, add_zero] at held
  refine { sound with once := ?_, awake := ?_, notified := ?_, returned := ?_, joined_returned := ?_ }
  · rw [held]
    exact sound.once
  · intro j _
    change p.tasks.length ≤ _
    rw [empty]
    exact Nat.zero_le _
  · intro joined joining j asleep
    exact sound.notified joined joining j (ThreadPool.eq_of_setWorker_eq (by simp) asleep)
  · exact fun _ _ => ⟨stopped, empty⟩
  · intro joined joining j inside
    exact ThreadPool.setWorker_eq_of_eq (by rw [ready]; simp) (sound.joined_returned joined joining j inside)

/-- A worker is woken. -/
theorem woken (sound : Sound p) {i : Fin n} (asleep : p.workers i = .waiting) :
    Sound (p.setWorker i .ready) := by
  have held := p.held_setWorker i .ready
  have testing := p.testing_setWorker i .ready
  simp only [asleep, Worker.held, add_zero] at held
  simp only [asleep, Worker.readiness, Worker.isReady, Bool.toNat_true, Bool.toNat_false] at testing
  refine { sound with once := ?_, awake := ?_, notified := ?_, returned := ?_, joined_returned := ?_ }
  · rw [held]
    exact sound.once
  · intro j other
    have enough := sound.awake j (ThreadPool.eq_of_setWorker_eq (by simp) other)
    change p.tasks.length ≤ _ + p.notifying
    omega
  · intro joined joining
    exact absurd asleep (sound.notified joined joining i)
  · intro j returned
    exact sound.returned j (ThreadPool.eq_of_setWorker_eq (by simp) returned)
  · intro joined joining
    exact absurd asleep (sound.notified joined joining i)

/-- A notification reaches a worker that waits. -/
theorem notified_one (sound : Sound p) {i : Fin n} (some_left : 0 < p.notifying)
    (asleep : p.workers i = .waiting) :
    Sound { p.setWorker i .ready with notifying := p.notifying - 1 } := by
  have testing := p.testing_setWorker i .ready
  simp only [asleep, Worker.readiness, Worker.isReady, Bool.toNat_true, Bool.toNat_false] at testing
  refine { sound.woken asleep with awake := ?_ }
  intro j other
  have enough := sound.awake j (ThreadPool.eq_of_setWorker_eq (by simp) other)
  change p.tasks.length ≤ (p.setWorker i .ready).testing + (p.notifying - 1)
  omega

/-- A worker takes the task at the front. -/
theorem takes (sound : Sound p) {i : Fin n} {task : T} {rest : List T} (ready : p.workers i = .ready)
    (front : p.tasks = task :: rest) :
    Sound { p.setWorker i (.running task) with tasks := rest, started := p.started ++ [task] } := by
  have held := p.held_setWorker i (.running task)
  have testing := p.testing_setWorker i (.running task)
  simp only [ready, Worker.held, add_zero] at held
  simp only [ready, Worker.readiness, Worker.isReady, Bool.toNat_true, Bool.toNat_false] at testing
  refine { sound with order := ?_, once := ?_, awake := ?_, notified := ?_, returned := ?_, joined_returned := ?_ }
  · simp only [List.append_assoc, List.singleton_append]
    exact sound.order.trans (by rw [front])
  · change ((p.started ++ [task] : List T) : Multiset T) = p.finished + (p.setWorker i (.running task)).held
    rw [held, ← Multiset.coe_add, sound.once, add_assoc]
    rfl
  · intro j other
    have enough := sound.awake j (ThreadPool.eq_of_setWorker_eq (by simp) other)
    rw [front, List.length_cons] at enough
    change rest.length ≤ (p.setWorker i (.running task)).testing + p.notifying
    omega
  · intro joined joining j asleep
    exact sound.notified joined joining j (ThreadPool.eq_of_setWorker_eq (by simp) asleep)
  · intro j returned
    exact absurd (ThreadPool.eq_of_setWorker_eq (by simp) returned) (sound.not_returned front j)
  · intro joined joining j inside
    exact absurd (sound.joined_returned joined joining j inside) (sound.not_returned front j)

/-- A worker comes back from its task. -/
theorem finishes (sound : Sound p) {i : Fin n} {task : T} (running : p.workers i = .running task) :
    Sound { p.setWorker i .ready with finished := p.finished ++ [task] } := by
  have held := p.held_setWorker i .ready
  have testing := p.testing_setWorker i .ready
  simp only [running, Worker.held, add_zero] at held
  simp only [running, Worker.readiness, Worker.isReady, Bool.toNat_true, Bool.toNat_false] at testing
  refine { sound with once := ?_, awake := ?_, notified := ?_, returned := ?_, joined_returned := ?_ }
  · change (p.started : Multiset T) = ((p.finished ++ [task] : List T) : Multiset T) + (p.setWorker i .ready).held
    rw [sound.once, ← held, ← Multiset.coe_add, add_assoc, add_comm (p.setWorker i .ready).held]
    rfl
  · intro j other
    have enough := sound.awake j (ThreadPool.eq_of_setWorker_eq (by simp) other)
    change p.tasks.length ≤ (p.setWorker i .ready).testing + p.notifying
    omega
  · intro joined joining j asleep
    exact sound.notified joined joining j (ThreadPool.eq_of_setWorker_eq (by simp) asleep)
  · intro j returned
    exact sound.returned j (ThreadPool.eq_of_setWorker_eq (by simp) returned)
  · intro joined joining j inside
    exact ThreadPool.setWorker_eq_of_eq (by rw [running]; simp) (sound.joined_returned joined joining j inside)

/-- The destructor wakes every worker, and from here on nobody waits. -/
theorem notifies (sound : Sound p) (stopping : p.destructor = .stopping) : Sound p.notifyAll := by
  have asleep (i : Fin n) : p.notifyAll.workers i ≠ .waiting := by
    intro asleep
    have awake : (p.notifyAll.workers i).isWaiting = false := (p.workers i).isWaiting_woken
    rw [isWaiting_eq_true.mpr asleep] at awake
    cases awake
  refine { sound with once := ?_, awake := ?_, stop_iff := ?_, notified := ?_, returned := ?_, joined_le := ?_, joined_returned := ?_ }
  · rw [p.held_notifyAll]
    exact sound.once
  · exact fun i waiting => absurd waiting (asleep i)
  · have stopped : p.stop = true := sound.stop_iff.mpr (by rw [stopping]; simp)
    exact iff_of_true stopped (by simp [ThreadPool.notifyAll])
  · exact fun _ _ => asleep
  · intro i returned
    refine sound.returned i ?_
    cases worker : p.workers i <;> simp_all [ThreadPool.notifyAll, Worker.woken]
  · intro joined joining
    cases joining
    exact Nat.zero_le n
  · intro joined joining i inside
    cases joining
    exact absurd inside (Nat.not_lt_zero _)

theorem step (sound : Sound p) {event : Event T n} (here : Threads.step p event = some next) :
    Sound next := by
  cases moves_of_step here with
  | refused task stopped => exact sound
  | accepted task going =>
      refine { sound with order := ?_, awake := ?_, returned := ?_ }
      · simp only [sound.order, List.append_assoc]
      · intro i asleep
        have enough := sound.awake i asleep
        simp only [List.length_append, List.length_singleton]
        change _ ≤ p.testing + _
        omega
      · intro i returned
        have stopped := (sound.returned i returned).1
        rw [going] at stopped
        cases stopped
  | nobody some_left nobody =>
      refine { sound with awake := ?_ }
      intro i asleep
      have awake := nobody i
      rw [asleep] at awake
      cases awake
  | notified i some_left asleep => exact sound.notified_one some_left asleep
  | woken i asleep => exact sound.woken asleep
  | waits i ready empty going => exact sound.waits ready empty going
  | returns i ready empty stopped => exact sound.returns ready empty stopped
  | takes i task rest ready front => exact sound.takes ready front
  | finishes i task running => exact sound.finishes running
  | stops uncalled =>
      have going : p.stop ≠ true := fun stopped => sound.stop_iff.mp stopped uncalled
      refine { sound with stop_iff := ?_, notified := ?_, returned := ?_, joined_le := ?_, joined_returned := ?_ }
      · exact iff_of_true rfl (by simp)
      · exact fun _ joining => nomatch joining
      · exact fun i returned => absurd (sound.returned i returned).1 going
      · exact fun _ joining => nomatch joining
      · exact fun _ joining => nomatch joining
  | notifies stopping => exact sound.notifies stopping
  | joins joined inside joining returned =>
      have stopped : p.stop = true := sound.stop_iff.mpr (by rw [joining]; simp)
      refine { sound with stop_iff := ?_, notified := ?_, joined_le := ?_, joined_returned := ?_ }
      · exact iff_of_true stopped (by simp)
      · exact fun _ _ => sound.notified joined joining
      · intro joined' same
        cases same
        exact inside
      · intro joined' same i below
        cases same
        rcases Nat.lt_succ_iff_lt_or_eq.mp below with before | last
        · exact sound.joined_returned joined joining i before
        · exact (Fin.ext last : i = ⟨joined, inside⟩) ▸ returned

end Sound

end CppProject.Threads
