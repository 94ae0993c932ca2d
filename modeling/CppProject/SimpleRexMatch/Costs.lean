import CppProject.SimpleRexMatch.Points

/-!
# The cost of a call

`is_matched` follows many ways through a pattern at once.  Every statement to come has a
bound on the statements that it leads to, which does not depend on what has been read, so a
call is as long as its source string, and no pattern makes it longer than the square of its
states for a character.
-/

namespace CppProject.SimpleRexMatch

open Library Library.Checked Library.Items Library.Loop

/-! ## Bounds on the statements to come -/

/-- How many statements are executed for one among `n` states, itself included, at most. -/
def Statement.cost (n : Nat) : Statement → Nat
  | .clearList _ => 1
  | .resetClist => 1
  | .unmarkFrom i => 2 * (n - i) + 1
  | .addFirst => 4 * n + 2
  | .addState none _ => 1
  | .addState (some state) _ => 4 * (n - state) + 1
  | .enlist _ _ => 3
  | .pushBack _ _ => 1
  | .setMark _ _ => 1
  | .chars src => src.length * (n * (4 * n + 5) + 5) + 1
  | .states _ _ k => (n - k) * (4 * n + 5) + 1
  | .readChar _ _ _ => 4 * n + 2
  | .dropMark _ _ => 2
  | .clearCurrent => 1
  | .flipClist => 1
  | .checkEmpty src => src.length * (n * (4 * n + 5) + 5) + 2
  | .ret _ => 0

def Point.cost (n : Nat) (p : Point) : Nat := (p.left.map (Statement.cost n)).sum

theorem cost_nil (n : Nat) (nfa : SimpleRexNFA) : Point.cost n ⟨nfa, []⟩ = 0 := rfl

theorem cost_cons (n : Nat) (nfa : SimpleRexNFA) (statement : Statement) (left : List Statement) :
    Point.cost n ⟨nfa, statement :: left⟩ = statement.cost n + Point.cost n ⟨nfa, left⟩ := List.sum_cons

theorem cost_addState_le (n : Nat) (out : Option Nat) (list : Fin 2) :
    (Statement.addState out list).cost n ≤ 4 * n + 1 := by
  cases out with
  | none => exact Nat.le_add_left _ _
  | some state =>
      have fewer := Nat.sub_le n state
      simp only [Statement.cost]
      omega

/-! ## Split states lead forward -/

theorem laid_split_forward {items : List (Item Int8)} {p i : Nat} {ins : State}
    (here : (laid items p)[i]? = some ins) (splits : ins.c = split) :
    ∃ target, ins.out1 = some target ∧ p + i < target := by
  induction items generalizing p i with
  | nil => cases here
  | cons item rest ih =>
      rw [laid] at here
      rcases Nat.lt_or_ge i (itemWidth item) with inside | behind
      · rw [List.getElem?_append_left (by rwa [itemStates_length])] at here
        cases starred : item.starred with
        | false =>
            have one : itemWidth item = 1 := if_neg (by simp [starred])
            obtain rfl : i = 0 := by omega
            simp only [itemStates, starred, Bool.false_eq_true, if_false, List.getElem?_cons_zero,
              Option.some.injEq] at here
            subst here
            exact absurd splits (toInt_ne_split item.symbol)
        | true =>
            have two : itemWidth item = 2 := if_pos starred
            rcases (by omega : i = 0 ∨ i = 1) with rfl | rfl
            · simp only [itemStates, starred, if_true, List.getElem?_cons_zero, Option.some.injEq] at here
              subst here
              exact ⟨_, rfl, by omega⟩
            · simp only [itemStates, starred, if_true, List.getElem?_cons_succ, List.getElem?_cons_zero,
                Option.some.injEq] at here
              subst here
              exact absurd splits (toInt_ne_split item.symbol)
      · rw [List.getElem?_append_right (by rwa [itemStates_length]), itemStates_length] at here
        obtain ⟨target, out1, later⟩ := ih here
        exact ⟨target, out1, by omega⟩

/-- `out1` of a split state is the number of a later one. -/
theorem Built.split_forward {items : List (Item Int8)} {nfa : SimpleRexNFA} (built : Built items nfa)
    {s : Nat} {ins : State} (here : nfa.states[s]? = some ins) (splits : ins.c = split) :
    ∃ target, ins.out1 = some target ∧ s < target := by
  have fixed : (layout items)[s]? = some ins.unmarked := by
    rw [← built.states_eq, List.getElem?_map, here, Option.map_some]
  rw [layout] at fixed
  rcases Nat.lt_or_ge s (laid items 0).length with inside | behind
  · rw [List.getElem?_append_left inside] at fixed
    obtain ⟨target, out1, later⟩ := laid_split_forward fixed splits
    exact ⟨target, out1, by omega⟩
  · rw [List.getElem?_append_right behind] at fixed
    obtain ⟨_, same⟩ := List.getElem?_eq_some_iff.mp fixed
    rw [List.getElem_singleton] at same
    have last : ins.unmarked.c = split := splits
    rw [← same] at last
    exact absurd last (by decide)

/-! ## One statement -/

section Statements

variable {items : List (Item Int8)} {nfa : SimpleRexNFA} {left : List Statement} {next : Point} {n : Nat}

theorem cost_addState (built : Built items nfa) (states : nfa.states.length = n) {out : Option Nat}
    {list : Fin 2} (go : execute nfa left (.addState out list) = .ok (some next)) :
    next.cost n + 1 ≤ (Statement.addState out list).cost n + Point.cost n ⟨nfa, left⟩ := by
  cases out with
  | none =>
      cases go
      exact Nat.le_of_eq (Nat.add_comm _ _)
  | some state =>
      obtain ⟨ins, read, rest⟩ := bind_eq_ok.mp go
      have here := load_eq_ok.mp read
      obtain ⟨inside, _⟩ := List.getElem?_eq_some_iff.mp here
      rw [states] at inside
      split at rest
      next splits =>
        obtain ⟨target, out1, later⟩ := built.split_forward here splits
        split at rest
        · cases rest
        · cases rest
          rw [out1]
          simp only [cost_cons, Statement.cost]
          omega
      next single =>
        cases rest
        simp only [cost_cons, Statement.cost]
        omega

theorem cost_chars {src : List Int8} (go : execute nfa left (.chars src) = .ok (some next)) :
    next.cost n + 1 ≤ (Statement.chars src).cost n + Point.cost n ⟨nfa, left⟩ := by
  cases src with
  | nil =>
      cases go
      simp only [cost_cons, cost_nil, Statement.cost, List.length_nil, Nat.zero_mul]
      omega
  | cons c src =>
      cases go
      simp only [cost_cons, Statement.cost, List.length_cons, Nat.add_mul, Nat.sub_zero]
      omega

/-- The current list is as long as there are states at most, so a round of its loop takes one from
the bound. -/
theorem cost_states (built : Built items nfa) (listed : Listed items nfa) (states : nfa.states.length = n)
    {c : Int8} {nlist : Fin 2} {k : Nat} (go : execute nfa left (.states c nlist k) = .ok (some next)) :
    next.cost n + 1 ≤ (Statement.states c nlist k).cost n + Point.cost n ⟨nfa, left⟩ := by
  rw [execute] at go
  split at go
  next done =>
    cases go
    simp only [Statement.cost]
    omega
  next state here =>
    cases go
    have inside := (List.getElem?_eq_some_iff.mp here).1.trans_le (listed.length_le built nfa.clist)
    rw [states] at inside
    have one : n - k = n - (k + 1) + 1 := by omega
    simp only [cost_cons, Statement.cost, one, Nat.add_mul (n - (k + 1)) 1]
    omega

/-- A statement is executed, and what it leads to costs one less. -/
theorem cost_execute (built : Built items nfa) (listed : Listed items nfa) (states : nfa.states.length = n)
    {statement : Statement} (go : execute nfa left statement = .ok (some next)) :
    next.cost n + 1 ≤ statement.cost n + Point.cost n ⟨nfa, left⟩ := by
  cases statement with
  | clearList list =>
      cases go
      exact Nat.le_of_eq (Nat.add_comm _ _)
  | resetClist =>
      cases go
      exact Nat.le_of_eq (Nat.add_comm _ _)
  | unmarkFrom i =>
      rw [execute] at go
      split at go
      next more =>
        cases go
        rw [states] at more
        simp only [cost_cons, Statement.cost]
        omega
      next =>
        cases go
        simp only [Statement.cost]
        omega
  | addFirst =>
      cases go
      have first := cost_addState_le n (some 0) nfa.clist
      simp only [cost_cons, Statement.cost] at first ⊢
      omega
  | addState state list => exact cost_addState built states go
  | enlist state list =>
      obtain ⟨ins, _, rest⟩ := bind_eq_ok.mp go
      split at rest
      · cases rest
        simp only [Statement.cost]
        omega
      · cases rest
        simp only [cost_cons, Statement.cost]
        omega
  | pushBack state list =>
      cases go
      exact Nat.le_of_eq (Nat.add_comm _ _)
  | setMark state mark =>
      obtain ⟨ins, _, rest⟩ := bind_eq_ok.mp go
      obtain ⟨marked, _, done⟩ := bind_eq_ok.mp rest
      cases done
      exact Nat.le_of_eq (Nat.add_comm _ _)
  | chars src => exact cost_chars go
  | states c nlist k => exact cost_states built listed states go
  | readChar c nlist state =>
      obtain ⟨ins, _, rest⟩ := bind_eq_ok.mp go
      split at rest
      · cases rest
        have leads := cost_addState_le n ins.out nlist
        simp only [cost_cons, Statement.cost] at leads ⊢
        omega
      · cases rest
        simp only [Statement.cost]
        omega
  | dropMark nlist state =>
      obtain ⟨ins, _, rest⟩ := bind_eq_ok.mp go
      split at rest
      · cases rest
        simp only [Statement.cost]
        omega
      · cases rest
        simp only [cost_cons, Statement.cost]
        omega
  | clearCurrent =>
      cases go
      exact Nat.le_of_eq (Nat.add_comm _ _)
  | flipClist =>
      cases go
      exact Nat.le_of_eq (Nat.add_comm _ _)
  | checkEmpty src =>
      rw [execute] at go
      split at go
      · cases go
        simp only [cost_cons, cost_nil, Statement.cost]
        omega
      · cases go
        simp only [cost_cons, Statement.cost]
        omega
  | ret answer => cases go

end Statements

theorem cost_step {items : List (Item Int8)} {p next : Point} (good : p.Good items)
    (go : p.step = .ok (some next)) :
    next.cost (width items + 1) + 1 ≤ p.cost (width items + 1) := by
  obtain ⟨nfa, left⟩ := p
  cases left with
  | nil => cases go
  | cons statement left =>
      rw [cost_cons]
      exact cost_execute good.built good.listed good.built.length_eq go

/-! ## A call -/

theorem cost_start (n : Nat) (nfa : SimpleRexNFA) (src : List Int8) :
    (Point.start nfa src).cost n = src.length * (n * (4 * n + 5) + 5) + (6 * n + 7) := by
  simp only [Point.start, cost_cons, cost_nil, Statement.cost, Nat.sub_zero]
  omega

/-- A call is a run of the machine whose length is linear in the source string and quadratic
in the number of states, of which there is one for every character of the pattern and one
more at most: whatever the pattern, the earlier calls and the source string are, nothing is
tried again. -/
theorem isMatched_statements_le (ptn : List Int8) {nfa : SimpleRexNFA} (run : construct ptn = .ok nfa)
    (earlier : List (List Int8)) (src : List Int8) :
    ∃ answers used answer last rounds,
      matchAll nfa earlier = .ok (answers, used) ∧ isMatched used src = .ok (answer, last) ∧
      Trace Point.step (.start used src) rounds ⟨last, [.ret answer]⟩ ∧
      used.states.length ≤ ptn.length + 1 ∧
      rounds.length ≤ src.length * (used.states.length * (4 * used.states.length + 5) + 5) +
        (6 * used.states.length + 7) := by
  have built := constructed run
  obtain ⟨answers, used, runs, used_built⟩ := matchAll_spec built earlier
  obtain ⟨answer, last, matched, _, _⟩ := isMatched_spec used_built src
  have listed := listed_constructed run
  obtain ⟨⟨rounds, trace, good⟩, _⟩ :=
    isMatched_executes used_built (matchAll_listed built listed runs) matched
  have states := used_built.length_eq
  refine ⟨answers, used, answer, last, rounds, runs, matched, trace, ?_, ?_⟩
  · have read : (readPart ptn).length ≤ ptn.length := by
      rw [readPart, List.length_take]
      exact Nat.min_le_right _ _
    rw [states, width_patternItems]
    omega
  · have bounded := trace.length_le (Point.cost (width (patternItems (readPart ptn)) + 1))
      (fun p next good go => cost_step good go) good
    rw [← states, cost_start] at bounded
    exact Nat.le_trans (Nat.le_add_left _ _) bounded

/-- The pattern `a*`, after a call for the empty string. -/
theorem isMatched_statements_le_star :
    ∃ nfa, construct [97, star] = .ok nfa ∧
      ∃ answers used answer last rounds,
        matchAll nfa [[]] = .ok (answers, used) ∧ isMatched used [97] = .ok (answer, last) ∧
        Trace Point.step (.start used [97]) rounds ⟨last, [.ret answer]⟩ ∧
        used.states.length ≤ 2 + 1 ∧
        rounds.length ≤ 1 * (used.states.length * (4 * used.states.length + 5) + 5) +
          (6 * used.states.length + 7) :=
  have ⟨nfa, run⟩ := (construct_ok_iff [97, star]).mpr (by decide)
  ⟨nfa, run, isMatched_statements_le [97, star] run [[]] [97]⟩

end CppProject.SimpleRexMatch
