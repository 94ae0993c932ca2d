import CppProject.SimpleRexMatch.Matching

/-!
# The points of a call

A call of `is_matched` in one piece is a run of the machine that executes it
statement by statement, and the lists are sound at every point of the run.
-/

namespace CppProject.SimpleRexMatch

open Library Library.Checked Library.Items Library.Loop

/-- The lists have no state twice, no split state and no more states than there
are; when a character is read, the marks are those of the current list. -/
structure Point.Sound (p : Point) : Prop where
  nodup : ∀ list, (p.nfa.lists list).Nodup
  not_split : ∀ list, ∀ s ∈ p.nfa.lists list, ∃ ins, p.nfa.states[s]? = some ins ∧ ins.c ≠ split
  length_le : ∀ list, (p.nfa.lists list).length ≤ p.nfa.states.length
  marks : ∀ src, p.left.head? = some (.chars src) → ∀ s ins, p.nfa.states[s]? = some ins →
    ins.lastList = if s ∈ p.nfa.lists p.nfa.clist then some p.nfa.clist else none

/-! ## Listed states -/

variable {items : List (Item Int8)} {nfa next : SimpleRexNFA} {left : List Statement}

/-- Both lists hold waiting states, each once. -/
structure Listed (items : List (Item Int8)) (nfa : SimpleRexNFA) : Prop where
  nodup : ∀ list, (nfa.lists list).Nodup
  waiting : ∀ list, ∀ s ∈ nfa.lists list, ∃ suffix, suffix <:+ items ∧ stateAt items suffix = s

theorem Listed.not_split (listed : Listed items nfa) (built : Built items nfa) {list : Fin 2} {s : Nat}
    (member : s ∈ nfa.lists list) : ∃ ins, nfa.states[s]? = some ins ∧ ins.c ≠ split := by
  obtain ⟨suffix, within, rfl⟩ := listed.waiting list s member
  obtain ⟨fixed, here, not_split⟩ := layout_stateAt within
  obtain ⟨ins, _, found, rfl⟩ := built.load here
  exact ⟨ins, found, not_split⟩

theorem Listed.length_le (listed : Listed items nfa) (built : Built items nfa) (list : Fin 2) :
    (nfa.lists list).length ≤ nfa.states.length := by
  have below : nfa.lists list ⊆ List.range nfa.states.length := by
    intro s member
    obtain ⟨ins, found, _⟩ := listed.not_split built member
    exact List.mem_range.mpr (List.getElem?_eq_some_iff.mp found).1
  have shorter := ((listed.nodup list).subperm below).length_le
  rwa [List.length_range] at shorter

/-- A list may be replaced by one that keeps the rules. -/
theorem Listed.update (listed : Listed items nfa) {list : Fin 2} {members : List Nat}
    (nodup : members.Nodup)
    (waiting : ∀ s ∈ members, ∃ suffix, suffix <:+ items ∧ stateAt items suffix = s)
    (lists_eq : next.lists = Function.update nfa.lists list members) : Listed items next := by
  have each : ∀ other, next.lists other = members ∨ next.lists other = nfa.lists other := by
    intro other
    rw [lists_eq]
    rcases eq_or_ne other list with rfl | different
    · exact Or.inl (Function.update_self _ _ _)
    · exact Or.inr (Function.update_of_ne different _ _)
  refine ⟨fun other => ?_, fun other => ?_⟩
  · rcases each other with new | kept
    · exact new ▸ nodup
    · exact kept ▸ listed.nodup other
  · rcases each other with new | kept
    · exact new ▸ waiting
    · exact kept ▸ listed.waiting other

theorem Listed.cleared (listed : Listed items nfa) {list : Fin 2}
    (lists_eq : next.lists = Function.update nfa.lists list []) : Listed items next :=
  listed.update List.nodup_nil (List.forall_mem_nil _) lists_eq

theorem Listed.pushed (listed : Listed items nfa) {list : Fin 2} {suffix : List (Item Int8)}
    (within : suffix <:+ items) (fresh : stateAt items suffix ∉ nfa.lists list)
    (lists_eq : next.lists =
      Function.update nfa.lists list (nfa.lists list ++ [stateAt items suffix])) :
    Listed items next := by
  refine listed.update ?_ ?_ lists_eq
  · rw [List.nodup_append]
    refine ⟨listed.nodup list, List.nodup_singleton _, ?_⟩
    rintro s member t added rfl
    exact fresh (List.mem_singleton.mp added ▸ member)
  · intro s member
    rcases List.mem_append.mp member with old | new
    · exact listed.waiting list s old
    · exact ⟨suffix, within, (List.mem_singleton.mp new).symm⟩

/-- Only the lists count. -/
theorem Listed.of_lists (listed : Listed items nfa) (lists_eq : next.lists = nfa.lists) :
    Listed items next :=
  ⟨lists_eq ▸ listed.nodup, lists_eq ▸ listed.waiting⟩

theorem listed_constructed {ptn : List Int8} (run : construct ptn = .ok nfa) :
    Listed (patternItems (readPart ptn)) nfa := by
  rw [construct_spec ((construct_ok_iff ptn).mp ⟨nfa, run⟩)] at run
  obtain rfl := Except.ok.inj run
  exact ⟨fun _ => List.nodup_nil, fun _ => List.forall_mem_nil _⟩

/-! ## Runs through good points -/

/-- A point of a call on an object of the pattern. -/
structure Point.Good (items : List (Item Int8)) (p : Point) : Prop where
  built : Built items p.nfa
  listed : Listed items p.nfa
  ready : ∀ src, p.left.head? = some (.chars src) → ∃ suffixes, Ready items suffixes p.nfa

/-- A run through good points. -/
abbrev Executes (items : List (Item Int8)) : Point → Point → Prop :=
  Guarded Point.step (Point.Good items)

/-- The statement reads the next character. -/
def Statement.reads : Statement → Bool
  | .chars _ => true
  | _ => false

/-- A statement that reads no character is executed in front of a run. -/
theorem executes_cons {statement : Statement} {middle last : Point} (built : Built items nfa)
    (listed : Listed items nfa) (quiet : statement.reads = false)
    (go : execute nfa left statement = .ok (some middle)) (rest : Executes items middle last) :
    Executes items ⟨nfa, statement :: left⟩ last := by
  refine .cons ⟨built, listed, fun src first => ?_⟩ go rest
  rw [Option.some.inj first] at quiet
  cases quiet

/-- Marking a state is one statement. -/
theorem setMark_executes (built : Built items nfa) (listed : Listed items nfa) {s : Nat} {ins : State}
    (found : nfa.states[s]? = some ins) (mark : Option (Fin 2)) :
    Executes items ⟨nfa, .setMark s mark :: left⟩
      ⟨{ nfa with states := nfa.states.set s { ins with lastList := mark } }, left⟩ := by
  refine executes_cons built listed rfl ?_ (.refl _)
  simp only [execute, load_eq_ok.mpr found, ok_bind, store_mark found mark]

/-- Between the two assignments the state is in the list without its mark. -/
theorem pushBack_executes (built : Built items nfa) (listed : Listed items nfa) {list : Fin 2}
    {suffix : List (Item Int8)} (within : suffix <:+ items)
    (fresh : stateAt items suffix ∉ nfa.lists list) {ins : State}
    (found : nfa.states[stateAt items suffix]? = some ins) :
    Executes items
      ⟨nfa, .pushBack (stateAt items suffix) list ::
        .setMark (stateAt items suffix) (some list) :: left⟩
      ⟨{ nfa with
        states := nfa.states.set (stateAt items suffix) { ins with lastList := some list }
        lists := Function.update nfa.lists list (nfa.lists list ++ [stateAt items suffix]) },
        left⟩ := by
  have pushed : Built items { nfa with
      lists := Function.update nfa.lists list (nfa.lists list ++ [stateAt items suffix]) } :=
    ⟨built.states_eq, built.last_eq⟩
  have marks := @setMark_executes items _ left pushed (listed.pushed within fresh rfl) _ _ found
    (some list)
  exact executes_cons built listed rfl rfl marks

theorem enlist_executes {list : Fin 2} (filling : Filling items list nfa) (listed : Listed items nfa)
    {suffix : List (Item Int8)} (within : suffix <:+ items)
    (run : enlist nfa list (stateAt items suffix) = .ok next) :
    Executes items ⟨nfa, .enlist (stateAt items suffix) list :: left⟩ ⟨next, left⟩ ∧
      Listed items next := by
  obtain ⟨built, marked⟩ := filling
  obtain ⟨fixed, here, _⟩ := layout_stateAt within
  obtain ⟨ins, read, found, _⟩ := built.load here
  by_cases old : ins.lastList = some list
  · simp only [enlist, read, ok_bind, if_pos old] at run
    cases run
    refine ⟨executes_cons built listed rfl ?_ (.refl _), listed⟩
    simp only [execute, read, ok_bind, if_pos old]
  · simp only [enlist, read, ok_bind, if_neg old, store_mark found (some list)] at run
    cases run
    have fresh : stateAt items suffix ∉ nfa.lists list := by
      rw [← marked, mark, found]
      exact old
    refine ⟨executes_cons built listed rfl ?_ (pushBack_executes built listed within fresh found),
      listed.pushed within fresh rfl⟩
    simp only [execute, read, ok_bind, if_neg old]

/-- A suffix that begins with the state that waits is enlisted by one call. -/
theorem addSingle_executes {list : Fin 2} (filling : Filling items list nfa)
    (listed : Listed items nfa) {suffix : List (Item Int8)} (within : suffix <:+ items)
    (single : position items suffix = stateAt items suffix) {fuel : Nat}
    (run : addState list (fuel + 1) (some (position items suffix)) nfa = .ok next) :
    Executes items ⟨nfa, .addState (some (position items suffix)) list :: left⟩ ⟨next, left⟩ ∧
      Listed items next := by
  obtain ⟨fixed, here, not_split⟩ := layout_stateAt within
  obtain ⟨ins, read, _, rfl⟩ := filling.built.load here
  have plain : ins.c ≠ split := not_split
  rw [single] at run ⊢
  simp only [addState, read, ok_bind, if_neg plain] at run
  obtain ⟨enlisted, after⟩ := enlist_executes filling listed within run
  refine ⟨executes_cons filling.built listed rfl ?_ enlisted, after⟩
  simp only [execute, read, ok_bind, if_neg plain]

theorem addState_executes {list : Fin 2} (filling : Filling items list nfa)
    (listed : Listed items nfa) {suffix : List (Item Int8)} (within : suffix <:+ items) {fuel : Nat}
    (run : addState list (fuel + 1) (some (position items suffix)) nfa = .ok next) :
    Executes items ⟨nfa, .addState (some (position items suffix)) list :: left⟩ ⟨next, left⟩ ∧
      Listed items next := by
  induction suffix generalizing fuel nfa with
  | nil => exact addSingle_executes filling listed within rfl run
  | cons item rest ih =>
      cases starred : item.starred with
      | false =>
          exact addSingle_executes filling listed within (position_eq_stateAt starred items rest) run
      | true =>
          obtain ⟨ins, read, _, fixed⟩ := filling.built.load (layout_split within starred)
          have c_eq : ins.c = split := congrArg State.c fixed
          have out_eq : ins.out = some (stateAt items (item :: rest)) := congrArg State.out fixed
          have out1_eq : ins.out1 = some (position items rest) := congrArg State.out1 fixed
          obtain ⟨middle, first, filled, _⟩ := enlist_spec filling (layout_single within)
          simp only [addState, read, ok_bind, if_pos c_eq, out_eq, out1_eq, first] at run
          cases fuel with
          | zero => cases run
          | succ fuel =>
              obtain ⟨enlisted, listed'⟩ := enlist_executes filling listed within first
              obtain ⟨chain, after⟩ :=
                ih filled listed' ((List.suffix_cons item rest).trans within) run
              refine ⟨executes_cons filling.built listed rfl ?_ (enlisted.trans chain), after⟩
              simp only [execute, read, ok_bind, if_pos c_eq, out_eq, out1_eq]

theorem dropMark_executes {nlist : Fin 2} (built : Built items nfa) (listed : Listed items nfa)
    {suffix : List (Item Int8)} (within : suffix <:+ items)
    (run : dropMark nlist (stateAt items suffix) nfa = .ok next) :
    Executes items ⟨nfa, .dropMark nlist (stateAt items suffix) :: left⟩ ⟨next, left⟩ ∧
      Listed items next := by
  obtain ⟨fixed, here, _⟩ := layout_stateAt within
  obtain ⟨ins, read, found, _⟩ := built.load here
  by_cases member : ins.lastList = some nlist
  · simp only [dropMark, read, ok_bind, if_pos member] at run
    cases run
    refine ⟨executes_cons built listed rfl ?_ (.refl _), listed⟩
    simp only [execute, read, ok_bind, if_pos member]
  · simp only [dropMark, read, ok_bind, if_neg member, store_mark found none] at run
    cases run
    refine ⟨executes_cons built listed rfl ?_ (setMark_executes built listed found none),
      listed.of_lists rfl⟩
    simp only [execute, read, ok_bind, if_neg member]

/-! ## One character -/

/-- A waiting state leads nowhere or to the beginning of a suffix. -/
theorem out_stateAt {suffix : List (Item Int8)} (within : suffix <:+ items) {fixed : State}
    (here : (layout items)[stateAt items suffix]? = some fixed) :
    fixed.out = none ∨ ∃ target, target <:+ items ∧ fixed.out = some (position items target) := by
  cases suffix with
  | nil =>
      rw [layout_last] at here
      cases here
      exact Or.inl rfl
  | cons item rest =>
      rw [layout_single within] at here
      cases here
      exact Or.inr ⟨after item rest, (after_isSuffix item rest).trans within, rfl⟩

/-- The states that a waiting state leads to are enlisted. -/
theorem addOut_executes (left : List Statement) {list : Fin 2} (filling : Filling items list nfa)
    (listed : Listed items nfa) {out : Option Nat}
    (leads : out = none ∨ ∃ target, target <:+ items ∧ out = some (position items target)) :
    ∃ middle, addState list nfa.states.length out nfa = .ok middle ∧ Filling items list middle ∧
      Listed items middle ∧ Executes items ⟨nfa, .addState out list :: left⟩ ⟨middle, left⟩ := by
  rw [filling.built.length_eq]
  rcases leads with rfl | ⟨target, within, rfl⟩
  · exact ⟨nfa, rfl, filling, listed, executes_cons filling.built listed rfl rfl (.refl _)⟩
  · have enough : target.length < width items + 1 :=
      Nat.lt_succ_of_le (Nat.le_trans within.length_le (length_le_width items))
    obtain ⟨middle, run, filled, _⟩ := addState_spec filling within enough
    obtain ⟨added, listed'⟩ := addState_executes filling listed within run
    exact ⟨middle, run, filled, listed', added⟩

theorem stepState_executes (c : Int8) {nlist : Fin 2} (filling : Filling items nlist nfa)
    (listed : Listed items nfa) {suffix : List (Item Int8)} (within : suffix <:+ items)
    (run : stepState c nlist (stateAt items suffix) nfa = .ok next) :
    Executes items
        ⟨nfa, .readChar c nlist (stateAt items suffix) ::
          .dropMark nlist (stateAt items suffix) :: left⟩ ⟨next, left⟩ ∧
      Listed items next := by
  obtain ⟨fixed, here, _⟩ := layout_stateAt within
  obtain ⟨ins, read, _, rfl⟩ := filling.built.load here
  by_cases accepted : ins.c = c.toInt ∨ ins.c = dot.toInt
  · obtain ⟨middle, first, filled, listed', added⟩ := addOut_executes
      (.dropMark nlist (stateAt items suffix) :: left) filling listed (out_stateAt within here)
    have added_out : addState nlist nfa.states.length ins.out nfa = .ok middle := first
    simp only [stepState, read, ok_bind, if_pos accepted, added_out] at run
    obtain ⟨dropped, after⟩ := dropMark_executes filled.built listed' within run
    refine ⟨executes_cons filling.built listed rfl ?_ (added.trans dropped), after⟩
    simp only [execute, read, ok_bind, if_pos accepted, State.unmarked]
  · simp only [stepState, read, ok_bind, if_neg accepted] at run
    obtain ⟨dropped, after⟩ := dropMark_executes filling.built listed within run
    refine ⟨executes_cons filling.built listed rfl ?_ dropped, after⟩
    simp only [execute, read, ok_bind, if_neg accepted]

/-- The loop over the current list: the states from index `k` on. -/
theorem stepStates_executes (left : List Statement) (c : Int8) {nlist : Fin 2} (filling : Filling items nlist nfa)
    (listed : Listed items nfa) (other : nfa.clist ≠ nlist) {states : List Nat} {k : Nat}
    (rest : (nfa.lists nfa.clist).drop k = states) (run : stepStates c nlist states nfa = .ok next) :
    Executes items ⟨nfa, .states c nlist k :: left⟩ ⟨next, left⟩ ∧
      Listed items next ∧ next.clist = nfa.clist := by
  induction states generalizing nfa k with
  | nil =>
      cases run
      refine ⟨executes_cons filling.built listed rfl ?_ (.refl _), listed, rfl⟩
      simp only [execute, List.getElem?_eq_none (List.drop_eq_nil_iff.mp rest)]
  | cons state states ih =>
      have here : (nfa.lists nfa.clist)[k]? = some state := by
        rw [← List.head?_drop, rest]
        rfl
      have later : (nfa.lists nfa.clist).drop (k + 1) = states := by
        rw [← List.tail_drop, rest]
        rfl
      obtain ⟨suffix, within, rfl⟩ := listed.waiting nfa.clist state (List.mem_of_getElem? here)
      obtain ⟨middle, first, filled, enlisted, _⟩ := stepState_spec c filling within
      simp only [stepStates, first, ok_bind] at run
      obtain ⟨stepped, listed'⟩ := stepState_executes c filling listed within first
      have same : middle.lists middle.clist = nfa.lists nfa.clist := by
        rw [enlisted.clist_eq]
        exact enlisted.others _ other
      obtain ⟨chain, after, clist_eq⟩ :=
        ih filled listed' (enlisted.clist_eq ▸ other) (same ▸ later) run
      refine ⟨executes_cons filling.built listed rfl ?_ (stepped.trans chain), after,
        clist_eq.trans enlisted.clist_eq⟩
      simp only [execute, here]

/-- The lists change places. -/
theorem flip_executes (built : Built items nfa) (listed : Listed items nfa) :
    Executes items ⟨nfa, .clearCurrent :: .flipClist :: left⟩
      ⟨{ nfa with lists := Function.update nfa.lists nfa.clist [], clist := 1 - nfa.clist }, left⟩ := by
  have emptied : Listed items { nfa with lists := Function.update nfa.lists nfa.clist [] } :=
    listed.cleared rfl
  exact executes_cons built listed rfl rfl
    (executes_cons ⟨built.states_eq, built.last_eq⟩ emptied rfl rfl (.refl _))

/-! ## Calls -/

theorem runChars_executes {suffixes : Set (List (Item Int8))} (ready : Ready items suffixes nfa)
    (listed : Listed items nfa) {src : List Int8} {answer : Bool}
    (run : runChars src nfa = .ok (answer, next)) :
    Executes items ⟨nfa, .chars src :: left⟩ ⟨next, [.ret answer]⟩ ∧ Listed items next := by
  induction src generalizing nfa suffixes with
  | nil =>
      cases run
      exact ⟨.cons ⟨ready.built, listed, fun _ _ => ⟨suffixes, ready⟩⟩ rfl (.refl _), listed⟩
  | cons c src ih =>
      obtain ⟨stepped, first, after⟩ := ready.round c
      obtain ⟨walk, listed', clist_eq⟩ := stepStates_executes
        (.clearCurrent :: .flipClist :: .checkEmpty src :: left) c
        ⟨ready.built, ready.marked (1 - nfa.clist)⟩ listed (flip_ne nfa.clist).symm List.drop_zero first
      have built : Built items stepped := ⟨after.built.states_eq, after.built.last_eq⟩
      have flipped : Listed items { stepped with
          lists := Function.update stepped.lists stepped.clist [], clist := 1 - stepped.clist } :=
        listed'.cleared rfl
      have round : Executes items ⟨nfa, .chars (c :: src) :: left⟩
          ⟨{ stepped with
            lists := Function.update stepped.lists stepped.clist []
            clist := 1 - stepped.clist }, .checkEmpty src :: left⟩ :=
        .cons ⟨ready.built, listed, fun _ _ => ⟨suffixes, ready⟩⟩ rfl
          (walk.trans (flip_executes built listed'))
      simp only [runChars, first, ok_bind] at run
      rw [← clist_eq] at run after
      split at run
      next empty =>
        cases run
        refine ⟨round.trans (executes_cons after.built flipped rfl ?_ (.refl _)), flipped⟩
        simp only [execute, if_pos empty]
      next filled =>
        obtain ⟨chain, listed''⟩ := ih after flipped run
        refine ⟨round.trans (executes_cons after.built flipped rfl ?_ chain), listed''⟩
        simp only [execute, if_neg filled]

/-- States without marks are the states as constructed. -/
theorem Built.states_eq_of_unmarked (built : Built items nfa) (bare : ∀ s, mark nfa s = none) :
    nfa.states = layout items := by
  rw [← built.states_eq]
  refine (List.map_id _).symm.trans (List.map_congr_left fun ins member => ?_)
  obtain ⟨s, found⟩ := List.mem_iff_getElem?.mp member
  have unmarked := bare s
  rw [mark, found] at unmarked
  obtain ⟨c, out, out1, lastList⟩ := ins
  cases (unmarked : lastList = none)
  rfl

/-- The loop that takes the marks away: the states in front of index `i` have none. -/
theorem unmarkFrom_executes (built : Built items nfa) (listed : Listed items nfa) (i : Nat)
    (done : ∀ j < i, mark nfa j = none) :
    Executes items ⟨nfa, .unmarkFrom i :: left⟩ ⟨{ nfa with states := layout items }, left⟩ := by
  induction remaining : nfa.states.length - i generalizing nfa i with
  | zero =>
      have beyond : nfa.states.length ≤ i := by omega
      have all : nfa.states = layout items := by
        refine built.states_eq_of_unmarked fun s => ?_
        rcases Nat.lt_or_ge s i with below | above
        · exact done s below
        · rw [mark, List.getElem?_eq_none (Nat.le_trans beyond above)]
          rfl
      rw [← all]
      refine executes_cons built listed rfl ?_ (.refl _)
      simp only [execute, if_neg (Nat.not_lt.mpr beyond)]
  | succ remaining ih =>
      have inside : i < nfa.states.length := by omega
      have found : nfa.states[i]? = some nfa.states[i] := List.getElem?_eq_getElem inside
      have marks := @setMark_executes items nfa (.unmarkFrom (i + 1) :: left) built listed i _ found none
      refine executes_cons built listed rfl ?_ (marks.trans (ih ?_ ?_ (i + 1) ?_ ?_))
      · simp only [execute, if_pos inside]
      · exact built.remark found none nfa.lists nfa.clist
      · exact listed.of_lists rfl
      · intro j below
        rw [mark_remarked found rfl]
        split
        next => rfl
        next other => exact done j (by omega)
      · rw [List.length_set]
        omega

/-- The statements in front of the first states put the object back to its start. -/
theorem clearing_executes (built : Built items nfa) (listed : Listed items nfa)
    (left : List Statement) :
    Executes items
        ⟨nfa, .clearList 0 :: .clearList 1 :: .resetClist :: .unmarkFrom 0 :: left⟩
        ⟨cleared nfa, left⟩ ∧
      Listed items (cleared nfa) := by
  have cleared_eq : cleared nfa = { nfa with
      states := layout items, lists := fun _ => [], clist := 0 } := by
    rw [cleared, built.states_eq]
  have lists_eq : Function.update (Function.update nfa.lists 0 []) 1 [] = fun _ => [] := by
    funext list
    rcases eq_or_ne list 1 with rfl | other
    · exact Function.update_self _ _ _
    · rw [Function.update_of_ne other, eq_flip_of_ne other]
      exact Function.update_self _ _ _
  have one : Listed items { nfa with lists := Function.update nfa.lists 0 [] } := listed.cleared rfl
  have both : Listed items { nfa with lists := fun _ => [] } := one.cleared lists_eq.symm
  have reset : Listed items { nfa with lists := fun _ => [], clist := 0 } := both.of_lists rfl
  have fixed : ∀ lists clist, Built items { nfa with lists := lists, clist := clist } :=
    fun _ _ => ⟨built.states_eq, built.last_eq⟩
  have unmarks := @unmarkFrom_executes items _ left (fixed _ _) reset 0
    fun _ below => absurd below (Nat.not_lt_zero _)
  have resets : Executes items
      ⟨{ nfa with lists := fun _ => [] }, .resetClist :: .unmarkFrom 0 :: left⟩ _ :=
    executes_cons (fixed _ _) both rfl rfl unmarks
  have clears : Executes items ⟨{ nfa with lists := Function.update nfa.lists 0 [] },
      .clearList 1 :: .resetClist :: .unmarkFrom 0 :: left⟩ _ :=
    executes_cons (fixed _ _) one rfl (by simp only [execute, lists_eq]) resets
  rw [cleared_eq]
  exact ⟨executes_cons built listed rfl rfl clears, reset.of_lists rfl⟩

/-- A call in one piece is a run of the machine through good points. -/
theorem isMatched_executes (built : Built items nfa) (listed : Listed items nfa) {src : List Int8}
    {answer : Bool} (run : isMatched nfa src = .ok (answer, next)) :
    Executes items (.start nfa src) ⟨next, [.ret answer]⟩ ∧ Listed items next := by
  obtain ⟨first, added, ready⟩ := built.ready
  simp only [isMatched, added, ok_bind] at run
  obtain ⟨clearing, bare⟩ := clearing_executes built listed [.addFirst, .chars src]
  have from_zero : position items items = 0 := Nat.sub_self _
  rw [built.length_eq, ← from_zero] at added
  obtain ⟨adding, listed'⟩ := addState_executes (built.filling_cleared 0) bare
    (List.suffix_refl items) added
  obtain ⟨reading, last⟩ := runChars_executes ready listed' run
  rw [from_zero] at adding
  exact ⟨clearing.trans (executes_cons built.cleared bare rfl rfl (adding.trans reading)), last⟩

theorem matchAll_listed (built : Built items nfa) (listed : Listed items nfa)
    {earlier : List (List Int8)} {answers : List Bool}
    (run : matchAll nfa earlier = .ok (answers, next)) : Listed items next := by
  induction earlier generalizing nfa answers with
  | nil =>
      cases run
      exact listed
  | cons src rest ih =>
      obtain ⟨answer, middle, first, after, _⟩ := isMatched_spec built src
      obtain ⟨answers, used, runs, _⟩ := matchAll_spec after rest
      simp only [matchAll, first, runs, ok_bind] at run
      cases run
      exact ih after (isMatched_executes built listed first).2 runs

theorem Ready.mark_eq {suffixes : Set (List (Item Int8))} (ready : Ready items suffixes nfa) (s : Nat) :
    mark nfa s = if s ∈ nfa.lists nfa.clist then some nfa.clist else none := by
  split
  next member => exact (ready.marked nfa.clist s).mpr member
  next absent =>
    cases marked : mark nfa s with
    | none => rfl
    | some list =>
        have member := (ready.marked list s).mp marked
        rcases eq_or_ne list nfa.clist with rfl | other
        · exact absurd member absent
        · rw [eq_flip_of_ne other, ready.other_empty] at member
          cases member

theorem Point.Good.sound {p : Point} (good : p.Good items) : p.Sound := by
  obtain ⟨built, listed, ready⟩ := good
  refine ⟨listed.nodup, fun list s => listed.not_split built, listed.length_le built, ?_⟩
  intro src first s ins here
  obtain ⟨suffixes, ready⟩ := ready src first
  rw [← ready.mark_eq, mark, here]
  rfl

/-- Every point that a call can reach is sound, whatever the pattern, the earlier
calls and the source string are. -/
theorem isMatched_points_sound (ptn : List Int8) {nfa : SimpleRexNFA} (run : construct ptn = .ok nfa)
    (earlier : List (List Int8)) (src : List Int8) :
    ∃ answers used answer last,
      matchAll nfa earlier = .ok (answers, used) ∧ isMatched used src = .ok (answer, last) ∧
      (∃ rounds, Trace Point.step (.start used src) rounds ⟨last, [.ret answer]⟩) ∧
      ∀ rounds p, Trace Point.step (.start used src) rounds p → p.Sound := by
  have built := constructed run
  have listed := listed_constructed run
  obtain ⟨answers, used, runs, used_built⟩ := matchAll_spec built earlier
  obtain ⟨answer, last, matched, last_built, _⟩ := isMatched_spec used_built src
  obtain ⟨executes, last_listed⟩ :=
    isMatched_executes used_built (matchAll_listed built listed runs) matched
  have final : Point.Good (patternItems (readPart ptn)) ⟨last, [.ret answer]⟩ :=
    ⟨last_built, last_listed, nofun⟩
  obtain ⟨rounds, trace, guarded⟩ := executes
  exact ⟨answers, used, answer, last, runs, matched, ⟨rounds, trace⟩,
    fun _ _ reached => (Guarded.reached ⟨rounds, trace, guarded⟩ rfl final reached).sound⟩

/-- The pattern `a*`, after a call for the empty string. -/
theorem isMatched_points_sound_star :
    ∃ nfa, construct [97, star] = .ok nfa ∧
      ∃ answers used answer last,
        matchAll nfa [[]] = .ok (answers, used) ∧ isMatched used [97] = .ok (answer, last) ∧
        (∃ rounds, Trace Point.step (.start used [97]) rounds ⟨last, [.ret answer]⟩) ∧
        ∀ rounds p, Trace Point.step (.start used [97]) rounds p → p.Sound :=
  have ⟨nfa, run⟩ := (construct_ok_iff [97, star]).mpr (by decide)
  ⟨nfa, run, isMatched_points_sound [97, star] run [[]] [97]⟩

end CppProject.SimpleRexMatch
