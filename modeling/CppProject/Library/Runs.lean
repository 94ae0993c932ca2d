import Mathlib.Algebra.GroupWithZero.Nat
import Mathlib.Data.List.Induction

/-!
# Runs of a machine

A machine answers an event with its next state, or has no such step.  A run is a
list of events that are steps one after another.
-/

namespace CppProject.Library.Runs

variable {S E : Type} (step : S → E → Option S)

/-- The state behind a sequence of events, if all of them are steps. -/
def run : S → List E → Option S
  | s, [] => some s
  | s, event :: rest =>
      match step s event with
      | none => none
      | some next => run next rest

variable {step} {start last : S}

theorem run_cons_of_step {next : S} {event : E} (here : step start event = some next) (rest : List E) :
    run step start (event :: rest) = run step next rest := by
  simp only [run, here]

theorem run_cons_eq_some {event : E} {rest : List E} :
    run step start (event :: rest) = some last ↔
      ∃ next, step start event = some next ∧ run step next rest = some last := by
  cases here : step start event with
  | none => simp [run, here]
  | some next => simp [run, here]

theorem run_append_eq_some {first rest : List E} :
    run step start (first ++ rest) = some last ↔
      ∃ middle, run step start first = some middle ∧ run step middle rest = some last := by
  induction first generalizing start with
  | nil => simp [run]
  | cons event first ih =>
      simp only [List.cons_append, run_cons_eq_some, ih]
      constructor
      · rintro ⟨next, here, middle, begun, ended⟩
        exact ⟨middle, ⟨next, here, begun⟩, ended⟩
      · rintro ⟨middle, ⟨next, here, begun⟩, ended⟩
        exact ⟨next, here, middle, begun, ended⟩

theorem run_append {middle : S} {first rest : List E} (begun : run step start first = some middle)
    (ended : run step middle rest = some last) : run step start (first ++ rest) = some last :=
  run_append_eq_some.mpr ⟨middle, begun, ended⟩

theorem run_snoc {event : E} {events : List E} :
    run step start (events ++ [event]) = some last ↔
      ∃ middle, run step start events = some middle ∧ step middle event = some last := by
  rw [run_append_eq_some]
  refine exists_congr fun middle => and_congr_right fun _ => run_cons_eq_some.trans ?_
  constructor
  · rintro ⟨next, here, ended⟩
    cases ended
    exact here
  · exact fun here => ⟨last, here, rfl⟩

/-- What holds at the start and behind every further step of a run holds behind the
whole run.  The property may speak about the events so far. -/
theorem run_induction {P : List E → S → Prop} (initial : P [] start)
    (further : ∀ events s event next, run step start events = some s → P events s →
      step s event = some next → P (events ++ [event]) next)
    {events : List E} (steps : run step start events = some last) : P events last := by
  induction events using List.reverseRecOn generalizing last with
  | nil =>
      cases steps
      exact initial
  | append_singleton events event ih =>
      obtain ⟨middle, begun, here⟩ := run_snoc.mp steps
      exact further events middle event last begun (ih begun) here

/-- When every step costs one of a measure, up to what its event brings, a run is as short
as the measure and what its events bring. -/
theorem run_length_le (measure : S → Nat) (brings : E → Nat)
    (costs : ∀ s event next, step s event = some next → measure next + 1 ≤ measure s + brings event)
    {events : List E} (steps : run step start events = some last) :
    measure last + events.length ≤ measure start + (events.map brings).sum := by
  induction events generalizing start with
  | nil =>
      cases steps
      exact Nat.le_refl _
  | cons event rest ih =>
      obtain ⟨next, here, ended⟩ := run_cons_eq_some.mp steps
      have first := costs start event next here
      have further := ih ended
      simp only [List.length_cons, List.map_cons, List.sum_cons]
      omega

/-! ## The first state of a kind -/

/-- The first state of a run, the start included, that a test accepts. -/
def firstState (step : S → E → Option S) (test : S → Bool) : S → List E → Option S
  | s, [] => if test s then some s else none
  | s, event :: rest =>
      if test s then some s
      else
        match step s event with
        | none => none
        | some next => firstState step test next rest

variable {test : S → Bool} {events rest : List E} {state : S}

theorem test_firstState (found : firstState step test start events = some state) :
    test state = true := by
  induction events generalizing start with
  | nil =>
      simp only [firstState] at found
      split at found
      next accepted => cases found; exact accepted
      · cases found
  | cons event events ih =>
      simp only [firstState] at found
      split at found
      next accepted => cases found; exact accepted
      · split at found
        · cases found
        · exact ih found

/-- The state stays the first one in every longer run. -/
theorem firstState_append (found : firstState step test start events = some state) (rest : List E) :
    firstState step test start (events ++ rest) = some state := by
  induction events generalizing start with
  | nil =>
      simp only [firstState] at found
      split at found
      next accepted =>
        cases found
        cases rest <;> simp [firstState, accepted]
      · cases found
  | cons event events ih =>
      simp only [List.cons_append, firstState] at found ⊢
      split at found
      next accepted => rw [if_pos accepted]; exact found
      next rejected =>
        rw [if_neg rejected]
        split at found
        · cases found
        · exact ih found

/-- When no state so far was accepted, the next one decides. -/
theorem firstState_snoc {event : E} {next : S} (steps : run step start events = some last)
    (none_yet : firstState step test start events = none) (here : step last event = some next) :
    firstState step test start (events ++ [event]) = if test next then some next else none := by
  induction events generalizing start with
  | nil =>
      cases steps
      simp only [firstState] at none_yet
      split at none_yet
      · cases none_yet
      next rejected => simp only [List.nil_append, firstState, if_neg rejected, here]
  | cons first events ih =>
      obtain ⟨second, begun, ended⟩ := run_cons_eq_some.mp steps
      simp only [List.cons_append, firstState] at none_yet ⊢
      split at none_yet
      · cases none_yet
      next rejected =>
        rw [if_neg rejected]
        simp only [begun] at none_yet ⊢
        exact ih ended none_yet

end CppProject.Library.Runs
