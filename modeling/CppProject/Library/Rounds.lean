import Mathlib.Data.List.Basic

/-!
# Rounds of requests

A party sends one request after another, each to a numbered peer, and waits until
the peers have processed all of them.  The peers do so in any order.
-/

namespace CppProject.Library

/-- The requests that are not sent yet, and those that are sent but not processed. -/
structure Round (α : Type) where
  unsent : List (Nat × α)
  inFlight : List (Nat × α)
  deriving DecidableEq, Repr

namespace Round

variable {α : Type}

def start (requests : List (Nat × α)) : Round α := ⟨requests, []⟩

/-- The requests that are not processed. -/
def pending (r : Round α) : List (Nat × α) := r.unsent ++ r.inFlight

/-- Send the next request. -/
def send : Round α → Option (Round α)
  | ⟨[], _⟩ => none
  | ⟨request :: rest, inFlight⟩ => some ⟨rest, inFlight ++ [request]⟩

/-- The request that a peer processes, and the round behind it. -/
def take (r : Round α) (peer : Nat) : Option (α × Round α) :=
  match r.inFlight.find? (fun request => request.1 = peer) with
  | none => none
  | some request => some (request.2, ⟨r.unsent, r.inFlight.eraseP fun request => request.1 = peer⟩)

def isDone (r : Round α) : Bool := r.pending.isEmpty

variable {r next : Round α} {peer : Nat} {a : α} {request : Nat × α}

@[simp] theorem pending_start (requests : List (Nat × α)) : (start requests).pending = requests :=
  List.append_nil requests

theorem isDone_iff : r.isDone = true ↔ r.pending = [] := List.isEmpty_iff

theorem mem_pending_send (sent : r.send = some next) :
    request ∈ next.pending ↔ request ∈ r.pending := by
  obtain ⟨unsent, inFlight⟩ := r
  cases unsent with
  | nil => cases sent
  | cons first rest =>
      cases sent
      simp only [pending, List.mem_append, List.mem_cons, List.not_mem_nil, or_false]
      rw [or_comm, or_assoc, or_comm, or_assoc]

theorem take_spec (taken : r.take peer = some (a, next)) :
    (peer, a) ∈ r.inFlight ∧ next = ⟨r.unsent, r.inFlight.eraseP fun request => request.1 = peer⟩ := by
  unfold take at taken
  split at taken
  · cases taken
  next found =>
    cases taken
    have same := List.find?_some found
    have listed := List.mem_of_find?_eq_some found
    simp only [decide_eq_true_eq] at same
    refine ⟨?_, rfl⟩
    rw [← same]
    exact listed

/-- A peer that is the only one with a request in flight processes it. -/
theorem take_single (unsent : List (Nat × α)) (peer : Nat) (a : α) :
    (⟨unsent, [(peer, a)]⟩ : Round α).take peer = some (a, ⟨unsent, []⟩) := by
  simp [take]

theorem mem_of_take (taken : r.take peer = some (a, next)) : (peer, a) ∈ r.pending :=
  List.mem_append_right _ (take_spec taken).1

theorem pending_of_take (taken : r.take peer = some (a, next)) (still : request ∈ next.pending) :
    request ∈ r.pending := by
  rw [(take_spec taken).2] at still
  exact (List.mem_append.mp still).elim (List.mem_append_left _)
    fun sent => List.mem_append_right _ (List.mem_of_mem_eraseP sent)

/-- The requests to the other peers stay. -/
theorem pending_take_of_ne (taken : r.take peer = some (a, next)) (waiting : request ∈ r.pending)
    (other : request.1 ≠ peer) : request ∈ next.pending := by
  rw [(take_spec taken).2]
  refine (List.mem_append.mp waiting).elim (List.mem_append_left _) fun sent => ?_
  exact List.mem_append_right _ ((List.mem_eraseP_of_neg (by simpa using other)).mpr sent)

end Round

end CppProject.Library
