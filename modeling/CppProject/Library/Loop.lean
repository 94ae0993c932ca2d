import CppProject.Library.Checked

/-!
# While loops over checked memory

A loop body either faults, leaves the loop, or hands the next state on.  Loops
are run on fuel; the rules below turn an invariant and a decreasing measure
into a run that ends before the fuel does.
-/

namespace CppProject.Library

/-- `while (...) body`: the body answers `none` once the loop condition is false. -/
def whileLoop {σ : Type} (body : σ → Except Fault (Option σ)) : Nat → σ → Except Fault σ
  | 0, _ => .error .outOfFuel
  | fuel + 1, state =>
      match body state with
      | .error fault => .error fault
      | .ok none => .ok state
      | .ok (some next) => whileLoop body fuel next

namespace Loop

variable {σ : Type} {body : σ → Except Fault (Option σ)}

/-- One round of a loop from a state of the invariant: it leaves, it stops with
an admitted fault, or it reaches a smaller state of the invariant. -/
def Round (body : σ → Except Fault (Option σ)) (Inv : σ → Prop) (size : σ → Nat)
    (Admitted : Fault → Prop) (state : σ) : Prop :=
  body state = .ok none ∨
    (∃ fault, body state = .error fault ∧ Admitted fault) ∨
    ∃ next, body state = .ok (some next) ∧ Inv next ∧ size next < size state

/-- The rule for loops that may fault: with enough fuel the loop leaves in a
state of the invariant or stops with an admitted fault. -/
theorem ends {Inv : σ → Prop} {size : σ → Nat} {Admitted : Fault → Prop}
    (round : ∀ state, Inv state → Round body Inv size Admitted state)
    {fuel : Nat} {state : σ} (inv : Inv state) (enough : size state < fuel) :
    (∃ last, whileLoop body fuel state = .ok last ∧ Inv last ∧ body last = .ok none) ∨
      ∃ fault, whileLoop body fuel state = .error fault ∧ Admitted fault := by
  induction fuel generalizing state with
  | zero => exact absurd enough (Nat.not_lt_zero _)
  | succ fuel ih =>
      unfold whileLoop
      rcases round state inv with leave | ⟨fault, stop, admitted⟩ | ⟨next, go, inner, smaller⟩
      · rw [leave]
        exact Or.inl ⟨state, rfl, inv, leave⟩
      · rw [stop]
        exact Or.inr ⟨fault, rfl, admitted⟩
      · rw [go]
        exact ih inner (by omega)

/-- The rule for loops whose rounds never fault. -/
theorem leaves {Inv : σ → Prop} {size : σ → Nat}
    (round : ∀ state, Inv state →
      body state = .ok none ∨
        ∃ next, body state = .ok (some next) ∧ Inv next ∧ size next < size state)
    {fuel : Nat} {state : σ} (inv : Inv state) (enough : size state < fuel) :
    ∃ last, whileLoop body fuel state = .ok last ∧ Inv last ∧ body last = .ok none := by
  have total : ∀ state, Inv state → Round body Inv size (fun _ => False) state := by
    intro state inv
    rcases round state inv with leave | go
    · exact Or.inl leave
    · exact Or.inr (Or.inr go)
  rcases ends total inv enough with left | ⟨fault, _, never⟩
  · exact left
  · exact never.elim

/-- Two loops whose rounds correspond run in lockstep. -/
theorem lockstep {τ : Type} {other : τ → Except Fault (Option τ)} {R : σ → τ → Prop}
    (round : ∀ s t, R s t → (body s = .ok none ∧ other t = .ok none) ∨
      (∃ fault, body s = .error fault ∧ other t = .error fault) ∨
      ∃ s' t', body s = .ok (some s') ∧ other t = .ok (some t') ∧ R s' t')
    (fuel : Nat) {s : σ} {t : τ} (related : R s t) :
    (∃ fault, whileLoop body fuel s = .error fault ∧ whileLoop other fuel t = .error fault) ∨
      ∃ s' t', whileLoop body fuel s = .ok s' ∧ whileLoop other fuel t = .ok t' ∧ R s' t' := by
  induction fuel generalizing s t with
  | zero => exact Or.inl ⟨_, rfl, rfl⟩
  | succ fuel ih =>
      unfold whileLoop
      rcases round s t related with ⟨left, left'⟩ | ⟨fault, stop, stop'⟩ | ⟨s', t', go, go', next⟩
      · rw [left, left']
        exact Or.inr ⟨s, t, rfl, rfl, related⟩
      · rw [stop, stop']
        exact Or.inl ⟨fault, rfl, rfl⟩
      · rw [go, go']
        exact ih next

/-! ## The rounds of a run -/

/-- The rounds from one state to another: the states in which the body has handed
the next state on. -/
inductive Trace (body : σ → Except Fault (Option σ)) : σ → List σ → σ → Prop where
  | nil (state : σ) : Trace body state [] state
  | cons {state next last : σ} {rounds : List σ} (go : body state = .ok (some next))
      (rest : Trace body next rounds last) : Trace body state (state :: rounds) last

/-- A loop that has left went through the rounds of a trace. -/
theorem trace_of_left {fuel : Nat} {state last : σ} (left : whileLoop body fuel state = .ok last) :
    ∃ rounds, Trace body state rounds last ∧ body last = .ok none := by
  induction fuel generalizing state with
  | zero => cases left
  | succ fuel ih =>
      unfold whileLoop at left
      split at left
      next => cases left
      next done =>
        cases left
        exact ⟨[], .nil _, done⟩
      next next go =>
        obtain ⟨rounds, trace, done⟩ := ih left
        exact ⟨_ :: rounds, .cons go trace, done⟩

namespace Trace

variable {state last : σ} {rounds : List σ}

/-- A trace goes on when the body does. -/
theorem snoc {next : σ} (trace : Trace body state rounds last) (go : body last = .ok (some next)) :
    Trace body state (rounds ++ [last]) next := by
  induction trace with
  | nil state => exact .cons go (.nil next)
  | cons first rest ih => exact .cons first (ih go)

/-- The body goes on in every round of a trace. -/
theorem goes_on (trace : Trace body state rounds last) :
    ∀ s ∈ rounds, ∃ next, body s = .ok (some next) := by
  induction trace with
  | nil state => exact List.forall_mem_nil _
  | cons go rest ih => exact List.forall_mem_cons.mpr ⟨⟨_, go⟩, ih⟩

/-- What every round preserves holds in all states of a trace. -/
theorem invariant {Inv : σ → Prop}
    (round : ∀ s next, Inv s → body s = .ok (some next) → Inv next)
    (trace : Trace body state rounds last) (inv : Inv state) :
    (∀ s ∈ rounds, Inv s) ∧ Inv last := by
  induction trace with
  | nil state => exact ⟨List.forall_mem_nil _, inv⟩
  | cons go rest ih =>
      obtain ⟨later, final⟩ := ih (round _ _ inv go)
      exact ⟨List.forall_mem_cons.mpr ⟨inv, later⟩, final⟩

/-- Rounds that each take from a measure are as few as it allows. -/
theorem length_le {Good : σ → Prop} (measure : σ → Nat)
    (round : ∀ s next, Good s → body s = .ok (some next) → measure next + 1 ≤ measure s)
    (trace : Trace body state rounds last) (good : ∀ s ∈ rounds, Good s) :
    measure last + rounds.length ≤ measure state := by
  induction trace with
  | nil state => exact Nat.le_refl _
  | cons go rest ih =>
      obtain ⟨here, later⟩ := List.forall_mem_cons.mp good
      have first := round _ _ here go
      have further := ih later
      rw [List.length_cons]
      omega

/-- Rounds that each take one from a measure are as many as it has lost. -/
theorem length_eq {measure : σ → Nat}
    (round : ∀ s next, body s = .ok (some next) → measure next + 1 = measure s)
    (trace : Trace body state rounds last) : measure last + rounds.length = measure state := by
  induction trace with
  | nil state => rfl
  | cons go rest ih =>
      have first := round _ _ go
      rw [List.length_cons]
      omega

/-- A quantity that grows by one in the rounds of a kind counts them. -/
theorem countP_eq {Inv : σ → Prop} {kind : σ → Bool} {size : σ → Nat}
    (round : ∀ s next, Inv s → body s = .ok (some next) →
      Inv next ∧ size next = size s + if kind s then 1 else 0)
    (trace : Trace body state rounds last) (inv : Inv state) :
    size last = size state + rounds.countP kind := by
  induction trace with
  | nil state => rfl
  | cons go rest ih =>
      obtain ⟨after, grows⟩ := round _ _ inv go
      rw [ih after, grows, List.countP_cons]
      omega

/-- Two traces run one behind the other. -/
theorem append {middle : σ} {later : List σ} (trace : Trace body state rounds middle)
    (behind : Trace body middle later last) : Trace body state (rounds ++ later) last := by
  induction trace with
  | nil state => exact behind
  | cons go rest ih => exact .cons go (ih behind)

/-- A run that has ended went through every state that can be reached. -/
theorem visited {reached : σ} {others : List σ} (whole : Trace body state rounds last)
    (ended : body last = .ok none) (trace : Trace body state others reached) :
    reached = last ∨ reached ∈ rounds := by
  induction whole generalizing others with
  | nil state =>
      cases trace with
      | nil state => exact Or.inl rfl
      | cons go rest => cases ended.symm.trans go
  | cons go rest ih =>
      cases trace with
      | nil state => exact Or.inr List.mem_cons_self
      | cons go' rest' =>
          cases go.symm.trans go'
          exact (ih ended rest').imp_right (List.mem_cons_of_mem _)

/-- A run that has ended has ended in one state. -/
theorem ended_unique {other : σ} {others : List σ} (whole : Trace body state rounds last)
    (ended : body last = .ok none) (trace : Trace body state others other)
    (ended' : body other = .ok none) : other = last := by
  rcases whole.visited ended trace with same | visited
  · exact same
  · obtain ⟨next, go⟩ := whole.goes_on other visited
    cases ended'.symm.trans go

end Trace

/-- A run whose rounds all start in good states. -/
def Guarded (body : σ → Except Fault (Option σ)) (Good : σ → Prop) (state last : σ) : Prop :=
  ∃ rounds, Trace body state rounds last ∧ ∀ s ∈ rounds, Good s

namespace Guarded

variable {Good : σ → Prop} {state last : σ}

theorem refl (state : σ) : Guarded body Good state state :=
  ⟨[], .nil state, List.forall_mem_nil _⟩

theorem cons {next : σ} (good : Good state) (go : body state = .ok (some next))
    (rest : Guarded body Good next last) : Guarded body Good state last := by
  obtain ⟨rounds, trace, guarded⟩ := rest
  exact ⟨state :: rounds, .cons go trace, List.forall_mem_cons.mpr ⟨good, guarded⟩⟩

theorem trans {middle : σ} (first : Guarded body Good state middle)
    (second : Guarded body Good middle last) : Guarded body Good state last := by
  obtain ⟨rounds, trace, guarded⟩ := first
  obtain ⟨later, behind, guarded'⟩ := second
  refine ⟨rounds ++ later, trace.append behind, fun s member => ?_⟩
  rcases List.mem_append.mp member with early | late
  · exact guarded s early
  · exact guarded' s late

/-- Every state that a guarded run can reach before it ends is good. -/
theorem reached {rounds : List σ} {s : σ} (run : Guarded body Good state last)
    (ended : body last = .ok none) (final : Good last) (trace : Trace body state rounds s) :
    Good s := by
  obtain ⟨whole, ends, guarded⟩ := run
  rcases ends.visited ended trace with rfl | visited
  · exact final
  · exact guarded s visited

end Guarded

/-! ## Loops that count down -/

/-- A body that leaves once no round is to come, and takes one round off otherwise. -/
structure CountsDown (body : σ → Except Fault (Option σ)) (Inv : Nat → σ → Prop) : Prop where
  leaves : ∀ s, Inv 0 s → body s = .ok none
  round : ∀ n s, Inv (n + 1) s → ∃ next, body s = .ok (some next) ∧ Inv n next

namespace CountsDown

variable {Inv : Nat → σ → Prop} {n : Nat} {state : σ}

/-- With fuel for the rounds to come the loop takes all of them. -/
theorem run (counts : CountsDown body Inv) (inv : Inv n state) {fuel : Nat} (enough : n < fuel) :
    ∃ last, whileLoop body fuel state = .ok last ∧ Inv 0 last := by
  induction n generalizing state fuel with
  | zero =>
      obtain ⟨fuel, rfl⟩ := Nat.exists_eq_succ_of_ne_zero (Nat.ne_of_gt enough)
      refine ⟨state, ?_, inv⟩
      rw [whileLoop, counts.leaves state inv]
  | succ n ih =>
      obtain ⟨fuel, rfl⟩ := Nat.exists_eq_succ_of_ne_zero (Nat.ne_zero_of_lt enough)
      obtain ⟨next, go, after⟩ := counts.round n state inv
      rw [whileLoop, go]
      exact ih after (Nat.lt_of_succ_lt_succ enough)

/-- In every round of a trace there is a round to come. -/
theorem trace (counts : CountsDown body Inv) {rounds : List σ} {last : σ}
    (trace : Trace body state rounds last) (inv : Inv n state) :
    (∀ s ∈ rounds, ∃ n, Inv (n + 1) s) ∧ ∃ n, Inv n last := by
  induction trace generalizing n with
  | nil state => exact ⟨List.forall_mem_nil _, n, inv⟩
  | cons go rest ih =>
      cases n with
      | zero => cases (counts.leaves _ inv).symm.trans go
      | succ n =>
          obtain ⟨next, go', after⟩ := counts.round n _ inv
          cases go'.symm.trans go
          obtain ⟨later, final⟩ := ih after
          exact ⟨List.forall_mem_cons.mpr ⟨⟨n, inv⟩, later⟩, final⟩

end CountsDown

end Loop

end CppProject.Library
