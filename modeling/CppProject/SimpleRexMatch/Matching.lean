import CppProject.SimpleRexMatch.Construction

/-!
# Matching

Every state that a list can hold stands for a suffix of the pattern's items.  A
round of `is_matched` takes the current list through one step of the suffix
machine; the marks keep the next list free of duplicates and are gone again
when the lists change places.
-/

namespace CppProject.SimpleRexMatch

open Library Library.Checked Library.Items

variable {items : List (Item Int8)}

/-! ## States and suffixes -/

/-- Where the states of a suffix begin. -/
def position (items suffix : List (Item Int8)) : Nat := width items - width suffix

/-- The state that waits for a character of a suffix. -/
def stateAt (items : List (Item Int8)) : List (Item Int8) → Nat
  | [] => position items []
  | item :: rest => position items (item :: rest) + (itemWidth item - 1)

theorem position_append (front suffix : List (Item Int8)) :
    position (front ++ suffix) suffix = width front := by
  simp only [position, width_append, Nat.add_sub_cancel]

theorem position_cons {item : Item Int8} {rest : List (Item Int8)} (within : item :: rest <:+ items) :
    position items rest = position items (item :: rest) + itemWidth item := by
  obtain ⟨front, rfl⟩ := within
  simp only [position, width_append, width_cons]
  omega

theorem position_le {shorter longer : List (Item Int8)} (within : longer <:+ items)
    (suffix : shorter <:+ longer) : position items longer ≤ position items shorter := by
  obtain ⟨middle, rfl⟩ := suffix
  simp only [position, width_append]
  omega

theorem stateAt_lt {item : Item Int8} {rest : List (Item Int8)} (within : item :: rest <:+ items) :
    stateAt items (item :: rest) < position items rest := by
  have pos := itemWidth_pos item
  rw [position_cons within, stateAt]
  omega

theorem position_le_stateAt (items suffix : List (Item Int8)) :
    position items suffix ≤ stateAt items suffix := by
  cases suffix with
  | nil => exact Nat.le_refl _
  | cons item rest => exact Nat.le_add_right _ _

/-- Different suffixes wait in different states. -/
theorem stateAt_inj {a b : List (Item Int8)} (a_within : a <:+ items) (b_within : b <:+ items)
    (same : stateAt items a = stateAt items b) : a = b := by
  have apart : ∀ {shorter longer : List (Item Int8)}, shorter <:+ items → longer <:+ items →
      shorter.length < longer.length → stateAt items longer < stateAt items shorter := by
    intro shorter longer shorter_within longer_within length
    cases longer with
    | nil => exact absurd length (Nat.not_lt_zero _)
    | cons item rest =>
        have rest_within := (List.suffix_cons item rest).trans longer_within
        have inner : shorter <:+ rest :=
          List.suffix_of_suffix_length_le shorter_within rest_within (Nat.le_of_lt_succ length)
        exact Nat.lt_of_lt_of_le (stateAt_lt longer_within)
          (Nat.le_trans (position_le rest_within inner) (position_le_stateAt items shorter))
  rcases Nat.lt_trichotomy a.length b.length with less | equal | more
  · exact absurd same (Nat.ne_of_gt (apart a_within b_within less))
  · exact (List.suffix_of_suffix_length_le a_within b_within (Nat.le_of_eq equal)).eq_of_length equal
  · exact absurd same (Nat.ne_of_lt (apart b_within a_within more))

theorem stateAt_eq_last {suffix : List (Item Int8)} (within : suffix <:+ items) :
    stateAt items suffix = width items ↔ suffix = [] := by
  have last : stateAt items [] = width items := rfl
  constructor
  · intro same
    exact stateAt_inj within List.nil_suffix (same.trans last.symm)
  · rintro rfl
    exact last

/-! ## The fixed part of the states -/

theorem getElem?_layout_last (items : List (Item Int8)) :
    (layout items)[width items]? = some newState := by
  rw [layout, List.getElem?_append_right (by rw [laid_length]), laid_length, Nat.sub_self]
  rfl

theorem getElem?_layout {item : Item Int8} {rest : List (Item Int8)} (within : item :: rest <:+ items)
    {offset : Nat} (inside : offset < itemWidth item) :
    (layout items)[position items (item :: rest) + offset]? =
      (itemStates item (position items (item :: rest)) (some (position items rest)))[offset]? := by
  rw [position_cons within]
  obtain ⟨front, rfl⟩ := within
  rw [position_append, layout, laid_append, Nat.zero_add, List.append_assoc,
    List.getElem?_append_right (by rw [laid_length]; exact Nat.le_add_right _ _), laid_length,
    Nat.add_sub_cancel_left, laid, List.append_assoc,
    List.getElem?_append_left (by rw [itemStates_length]; exact inside)]

/-- An object of the pattern: everything but the marks is as constructed. -/
structure Built (items : List (Item Int8)) (nfa : SimpleRexNFA) : Prop where
  states_eq : nfa.states.map State.unmarked = layout items
  last_eq : nfa.lastState = width items

variable {nfa : SimpleRexNFA}

theorem Built.length_eq (built : Built items nfa) : nfa.states.length = width items + 1 := by
  rw [← layout_length, ← built.states_eq, List.length_map]

theorem Built.load (built : Built items nfa) {s : Nat} {fixed : State}
    (here : (layout items)[s]? = some fixed) :
    ∃ ins, load nfa.states s = .ok ins ∧ nfa.states[s]? = some ins ∧ ins.unmarked = fixed := by
  rw [← built.states_eq, List.getElem?_map] at here
  obtain ⟨ins, found, same⟩ := Option.map_eq_some_iff.mp here
  exact ⟨ins, load_eq_ok.mpr found, found, same⟩

/-- Marking a state leaves its fixed part alone. -/
theorem Built.remark (built : Built items nfa) {s : Nat} {ins : State}
    (here : nfa.states[s]? = some ins) (mark : Option (Fin 2)) (lists : Fin 2 → List Nat)
    (clist : Fin 2) :
    Built items { nfa with
      states := nfa.states.set s { ins with lastList := mark }, lists := lists, clist := clist } := by
  refine ⟨?_, built.last_eq⟩
  obtain ⟨inside, rfl⟩ := List.getElem?_eq_some_iff.mp here
  have mapped : s < (nfa.states.map State.unmarked).length := by
    rwa [List.length_map]
  have same : State.unmarked { nfa.states[s] with lastList := mark } =
      (nfa.states.map State.unmarked)[s] := by
    rw [List.getElem_map]
    rfl
  rw [← built.states_eq]
  simp only [List.map_set, same, List.set_getElem_self]

/-! ## Marks -/

/-- The mark of a state. -/
def mark (nfa : SimpleRexNFA) (s : Nat) : Option (Fin 2) := nfa.states[s]?.bind State.lastList

theorem store_mark {s : Nat} {ins : State} (here : nfa.states[s]? = some ins)
    (new : Option (Fin 2)) :
    store nfa.states s { ins with lastList := new } =
      .ok (nfa.states.set s { ins with lastList := new }) :=
  store_of_lt (List.getElem?_eq_some_iff.mp here).1 _

theorem mark_remarked {next : SimpleRexNFA} {s : Nat} {ins : State} {new : Option (Fin 2)}
    (here : nfa.states[s]? = some ins)
    (states_eq : next.states = nfa.states.set s { ins with lastList := new }) (t : Nat) :
    mark next t = if t = s then new else mark nfa t := by
  obtain ⟨inside, _⟩ := List.getElem?_eq_some_iff.mp here
  unfold mark
  rw [states_eq]
  rcases eq_or_ne t s with rfl | other
  · rw [List.getElem?_set_self inside, if_pos rfl]
    rfl
  · rw [List.getElem?_set_ne other.symm, if_neg other]

/-- The marks of a list are its members. -/
def Marked (nfa : SimpleRexNFA) (list : Fin 2) : Prop :=
  ∀ s, mark nfa s = some list ↔ s ∈ nfa.lists list

/-- The object after some states have been put on a list. -/
structure Enlisted (list : Fin 2) (added : Set Nat) (nfa next : SimpleRexNFA) : Prop where
  members : ∀ s, s ∈ next.lists list ↔ s ∈ nfa.lists list ∨ s ∈ added
  others : ∀ other, other ≠ list → next.lists other = nfa.lists other
  clist_eq : next.clist = nfa.clist
  marks : ∀ s, mark next s = mark nfa s ∨ mark next s = some list ∨ mark next s = none

theorem Enlisted.refl (list : Fin 2) (nfa : SimpleRexNFA) : Enlisted list ∅ nfa nfa :=
  ⟨fun _ => by simp, fun _ _ => rfl, rfl, fun _ => Or.inl rfl⟩

theorem Enlisted.trans {list : Fin 2} {first second : Set Nat} {nfa middle last : SimpleRexNFA}
    (one : Enlisted list first nfa middle) (two : Enlisted list second middle last) :
    Enlisted list (first ∪ second) nfa last := by
  refine ⟨?_, ?_, two.clist_eq.trans one.clist_eq, ?_⟩
  · intro s
    rw [two.members, one.members, Set.mem_union, or_assoc]
  · intro other different
    rw [two.others other different, one.others other different]
  · intro s
    rcases two.marks s with kept | changed
    · rw [kept]
      exact one.marks s
    · exact Or.inr changed

/-- An object whose next list is consistent with its marks. -/
structure Filling (items : List (Item Int8)) (list : Fin 2) (nfa : SimpleRexNFA) : Prop where
  built : Built items nfa
  marked : Marked nfa list

theorem enlist_spec {list : Fin 2} (filling : Filling items list nfa) {s : Nat} {fixed : State}
    (here : (layout items)[s]? = some fixed) :
    ∃ next, enlist nfa list s = .ok next ∧ Filling items list next ∧ Enlisted list {s} nfa next := by
  obtain ⟨built, marked⟩ := filling
  obtain ⟨ins, read, found, _⟩ := built.load here
  by_cases old : ins.lastList = some list
  · have member : s ∈ nfa.lists list := (marked s).mp (by simp [mark, found, old])
    refine ⟨nfa, ?_, ⟨built, marked⟩, ?_, fun _ _ => rfl, rfl, fun _ => Or.inl rfl⟩
    · simp only [enlist, read, ok_bind, if_pos old]
    · intro t
      constructor
      · exact Or.inl
      · rintro (listed | rfl)
        · exact listed
        · exact member
  · have write := store_mark found (some list)
    have members : ∀ t, t ∈ Function.update nfa.lists list (nfa.lists list ++ [s]) list ↔
        t ∈ nfa.lists list ∨ t = s := by
      intro t
      rw [Function.update_self, List.mem_append, List.mem_singleton]
    have marks := @mark_remarked nfa
      { nfa with
        states := nfa.states.set s { ins with lastList := some list }
        lists := Function.update nfa.lists list (nfa.lists list ++ [s]) }
      s ins (some list) found rfl
    refine ⟨{ nfa with
        states := nfa.states.set s { ins with lastList := some list }
        lists := Function.update nfa.lists list (nfa.lists list ++ [s]) },
      ?_, ⟨built.remark found _ _ _, ?_⟩, members, ?_, rfl, ?_⟩
    · simp only [enlist, read, ok_bind, if_neg old, write]
    · intro t
      rw [marks, members]
      split
      next same => exact iff_of_true rfl (Or.inr same)
      next other => rw [marked t, or_iff_left other]
    · intro other different
      exact Function.update_of_ne different _ _
    · intro t
      rw [marks]
      split
      · exact Or.inr (Or.inl rfl)
      · exact Or.inl rfl

/-! ## Following split states -/

/-- The states that a position leads to. -/
def leadsTo (items suffix : List (Item Int8)) : Set Nat :=
  {s | ∃ next ∈ pending suffix, stateAt items next = s}

theorem layout_split {item : Item Int8} {rest : List (Item Int8)} (within : item :: rest <:+ items)
    (starred : item.starred = true) :
    (layout items)[position items (item :: rest)]? =
      some ⟨split, some (stateAt items (item :: rest)), some (position items rest), none⟩ := by
  have two : itemWidth item = 2 := if_pos starred
  have here := getElem?_layout within (itemWidth_pos item)
  simpa [itemStates, starred, newState, stateAt, two] using here

/-- The state that waits for a character of an item. -/
theorem layout_single {item : Item Int8} {rest : List (Item Int8)} (within : item :: rest <:+ items) :
    (layout items)[stateAt items (item :: rest)]? =
      some ⟨item.symbol.toInt, some (position items (after item rest)), none, none⟩ := by
  have last : itemWidth item - 1 < itemWidth item := Nat.sub_lt (itemWidth_pos item) Nat.one_pos
  rw [stateAt, getElem?_layout within last]
  cases starred : item.starred <;> simp [itemStates, itemWidth, after, starred, newState]

theorem layout_last (items : List (Item Int8)) :
    (layout items)[stateAt items []]? = some newState := getElem?_layout_last items

/-- The state that waits for a character of a suffix is no split state. -/
theorem layout_stateAt {suffix : List (Item Int8)} (within : suffix <:+ items) :
    ∃ fixed, (layout items)[stateAt items suffix]? = some fixed ∧ fixed.c ≠ split := by
  cases suffix with
  | nil => exact ⟨newState, layout_last items, by decide⟩
  | cons item rest => exact ⟨_, layout_single within, toInt_ne_split item.symbol⟩

/-- A plain item has no state in front of the one that waits. -/
theorem position_eq_stateAt {item : Item Int8} (plain : item.starred = false)
    (items rest : List (Item Int8)) :
    position items (item :: rest) = stateAt items (item :: rest) := by
  simp [stateAt, itemWidth, plain]

/-- A suffix that begins with the state that waits is enlisted by one call. -/
theorem addSingle_spec {list : Fin 2} (filling : Filling items list nfa)
    {suffix : List (Item Int8)} (within : suffix <:+ items)
    (single : position items suffix = stateAt items suffix) (fuel : Nat) :
    ∃ next, addState list (fuel + 1) (some (position items suffix)) nfa = .ok next ∧
      Filling items list next ∧ Enlisted list {stateAt items suffix} nfa next := by
  obtain ⟨fixed, here, not_split⟩ := layout_stateAt within
  obtain ⟨ins, read, _, rfl⟩ := filling.built.load here
  obtain ⟨next, run, filled, enlisted⟩ := enlist_spec filling here
  have plain : ins.c ≠ split := not_split
  refine ⟨next, ?_, filled, enlisted⟩
  rw [single]
  simp only [addState, read, ok_bind, if_neg plain, run]

/-- `_add_state` on the beginning of a suffix enlists its pending suffixes. -/
theorem addState_spec {list : Fin 2} (filling : Filling items list nfa)
    {suffix : List (Item Int8)} (within : suffix <:+ items) {fuel : Nat}
    (enough : suffix.length < fuel) :
    ∃ next, addState list fuel (some (position items suffix)) nfa = .ok next ∧
      Filling items list next ∧ Enlisted list (leadsTo items suffix) nfa next := by
  induction suffix generalizing fuel nfa with
  | nil =>
      obtain ⟨fuel, rfl⟩ := Nat.exists_eq_add_one.mpr enough
      have only : leadsTo items [] = {stateAt items []} := by
        ext s
        simp [leadsTo, pending, eq_comm]
      rw [only]
      exact addSingle_spec filling within rfl fuel
  | cons item rest ih =>
      obtain ⟨fuel, rfl⟩ := Nat.exists_eq_add_one.mpr (Nat.lt_of_le_of_lt (Nat.zero_le _) enough)
      cases starred : item.starred with
      | false =>
          have only : leadsTo items (item :: rest) = {stateAt items (item :: rest)} := by
            ext s
            simp [leadsTo, pending, starred, eq_comm]
          rw [only]
          exact addSingle_spec filling within (position_eq_stateAt starred items rest) fuel
      | true =>
          obtain ⟨middle, run, filled, enlisted⟩ := enlist_spec filling (layout_single within)
          obtain ⟨ins, read, _, fixed⟩ := filling.built.load (layout_split within starred)
          have c_eq : ins.c = split := congrArg State.c fixed
          have out_eq : ins.out = some (stateAt items (item :: rest)) := congrArg State.out fixed
          have out1_eq : ins.out1 = some (position items rest) := congrArg State.out1 fixed
          obtain ⟨last, chain, done, more⟩ := ih filled ((List.suffix_cons item rest).trans within)
            (Nat.lt_of_succ_lt_succ enough)
          have both : leadsTo items (item :: rest) =
              {stateAt items (item :: rest)} ∪ leadsTo items rest := by
            ext s
            simp [leadsTo, pending, starred, eq_comm]
          refine ⟨last, ?_, done, both ▸ enlisted.trans more⟩
          simp only [addState, read, ok_bind, if_pos c_eq, out_eq, run, out1_eq, chain]

/-! ## One character -/

/-- The states that a suffix reaches by one character. -/
def movesTo (items : List (Item Int8)) (c : Int8) (suffix : List (Item Int8)) : Set Nat :=
  {s | ∃ next ∈ advance Matches c {suffix}, stateAt items next = s}

theorem movesTo_nil (items : List (Item Int8)) (c : Int8) : movesTo items c [] = ∅ := by
  ext s
  simp [movesTo, advance]

theorem movesTo_of_matches {c : Int8} {item : Item Int8} (accepted : Matches item.symbol c)
    (items rest : List (Item Int8)) :
    movesTo items c (item :: rest) = leadsTo items (after item rest) := by
  ext s
  simp [movesTo, advance, leadsTo, accepted]

theorem movesTo_of_not_matches {c : Int8} {item : Item Int8} (rejected : ¬Matches item.symbol c)
    (items rest : List (Item Int8)) : movesTo items c (item :: rest) = ∅ := by
  ext s
  simp [movesTo, advance, rejected]

theorem matches_iff (symbol c : Int8) :
    symbol.toInt = c.toInt ∨ symbol.toInt = dot.toInt ↔ Matches symbol c := by
  rw [Int8.toInt_inj, Int8.toInt_inj, or_comm]
  rfl

theorem length_le_width (items : List (Item Int8)) : items.length ≤ width items := by
  induction items with
  | nil => exact Nat.le_refl _
  | cons item rest ih =>
      have pos := itemWidth_pos item
      rw [List.length_cons, width_cons]
      omega

theorem dropMark_spec {nlist : Fin 2} (filling : Filling items nlist nfa) {s : Nat} {fixed : State}
    (here : (layout items)[s]? = some fixed) :
    ∃ next, dropMark nlist s nfa = .ok next ∧ Filling items nlist next ∧
      Enlisted nlist ∅ nfa next ∧ (mark next s = none ∨ mark next s = some nlist) := by
  obtain ⟨built, marked⟩ := filling
  obtain ⟨ins, read, found, _⟩ := built.load here
  by_cases member : ins.lastList = some nlist
  · refine ⟨nfa, ?_, ⟨built, marked⟩, .refl nlist nfa, Or.inr ?_⟩
    · simp only [dropMark, read, ok_bind, if_pos member]
    · simp [mark, found, member]
  · have write := store_mark found none
    have marks := @mark_remarked nfa
      { nfa with states := nfa.states.set s { ins with lastList := none } } s ins none found rfl
    refine ⟨{ nfa with states := nfa.states.set s { ins with lastList := none } }, ?_,
      ⟨built.remark found none nfa.lists nfa.clist, ?_⟩, ?_, Or.inl ?_⟩
    · simp only [dropMark, read, ok_bind, if_neg member, write]
    · intro t
      rw [marks]
      split
      next same =>
        refine iff_of_false nofun ?_
        rw [← marked t, same, mark, found]
        exact member
      next => exact marked t
    · refine ⟨fun _ => by simp, fun _ _ => rfl, rfl, ?_⟩
      intro t
      rw [marks]
      split
      · exact Or.inr (Or.inr rfl)
      · exact Or.inl rfl
    · rw [marks, if_pos rfl]

/-- A state of the current list reads a character. -/
theorem stepState_spec (c : Int8) {nlist : Fin 2} (filling : Filling items nlist nfa)
    {suffix : List (Item Int8)} (within : suffix <:+ items) :
    ∃ next, stepState c nlist (stateAt items suffix) nfa = .ok next ∧
      Filling items nlist next ∧ Enlisted nlist (movesTo items c suffix) nfa next ∧
      (mark next (stateAt items suffix) = none ∨ mark next (stateAt items suffix) = some nlist) := by
  cases suffix with
  | nil =>
      -- the last state leads nowhere, even when the character has the value of its `c`
      obtain ⟨ins, read, _, fixed⟩ := filling.built.load (layout_last items)
      have out_eq : ins.out = none := congrArg State.out fixed
      obtain ⟨next, run, filled, enlisted, dropped⟩ := dropMark_spec filling (layout_last items)
      refine ⟨next, ?_, filled, movesTo_nil items c ▸ enlisted, dropped⟩
      obtain ⟨length, length_eq⟩ : ∃ length, nfa.states.length = length + 1 :=
        ⟨_, filling.built.length_eq⟩
      simp only [stepState, read, ok_bind, out_eq, length_eq, addState, ite_self, run]
  | cons item rest =>
      obtain ⟨ins, read, _, fixed⟩ := filling.built.load (layout_single within)
      have c_eq : ins.c = item.symbol.toInt := congrArg State.c fixed
      have out_eq : ins.out = some (position items (after item rest)) := congrArg State.out fixed
      by_cases accepted : Matches item.symbol c
      · have after_within : after item rest <:+ items := (after_isSuffix item rest).trans within
        have enough : (after item rest).length < nfa.states.length := by
          rw [filling.built.length_eq]
          exact Nat.lt_succ_of_le (Nat.le_trans after_within.length_le (length_le_width items))
        obtain ⟨middle, run, filled, enlisted⟩ := addState_spec filling after_within enough
        obtain ⟨next, drop, done, unchanged, dropped⟩ := dropMark_spec filled (layout_single within)
        refine ⟨next, ?_, done, ?_, dropped⟩
        · simp only [stepState, read, ok_bind, c_eq, if_pos ((matches_iff _ _).mpr accepted), out_eq,
            run, drop]
        · rw [movesTo_of_matches accepted, ← Set.union_empty (leadsTo items (after item rest))]
          exact enlisted.trans unchanged
      · obtain ⟨next, drop, done, unchanged, dropped⟩ := dropMark_spec filling (layout_single within)
        refine ⟨next, ?_, done, movesTo_of_not_matches accepted items rest ▸ unchanged, dropped⟩
        simp only [stepState, read, ok_bind, c_eq, if_neg (mt (matches_iff _ _).mp accepted), drop]

/-- All states of a list read a character. -/
theorem stepStates_spec (c : Int8) {nlist : Fin 2} (filling : Filling items nlist nfa)
    {states : List Nat}
    (waiting : ∀ s ∈ states, ∃ suffix, suffix <:+ items ∧ stateAt items suffix = s) :
    ∃ next, stepStates c nlist states nfa = .ok next ∧ Filling items nlist next ∧
      Enlisted nlist
        {t | ∃ suffix, suffix <:+ items ∧ stateAt items suffix ∈ states ∧ t ∈ movesTo items c suffix}
        nfa next ∧
      ∀ s ∈ states, mark next s = none ∨ mark next s = some nlist := by
  induction states generalizing nfa with
  | nil =>
      refine ⟨nfa, rfl, filling, ?_, List.forall_mem_nil _⟩
      simpa using Enlisted.refl nlist nfa
  | cons state rest ih =>
      obtain ⟨suffix, within, rfl⟩ := waiting state List.mem_cons_self
      obtain ⟨middle, run, filled, enlisted, dropped⟩ := stepState_spec c filling within
      obtain ⟨next, runs, done, more, all_dropped⟩ :=
        ih filled (fun s member => waiting s (List.mem_cons_of_mem _ member))
      have moves : {t | ∃ other, other <:+ items ∧
            stateAt items other ∈ stateAt items suffix :: rest ∧ t ∈ movesTo items c other} =
          movesTo items c suffix ∪ {t | ∃ other, other <:+ items ∧
            stateAt items other ∈ rest ∧ t ∈ movesTo items c other} := by
        ext t
        constructor
        · rintro ⟨other, other_within, member, moved⟩
          rcases List.mem_cons.mp member with same | later
          · exact Or.inl (stateAt_inj other_within within same ▸ moved)
          · exact Or.inr ⟨other, other_within, later, moved⟩
        · rintro (moved | ⟨other, other_within, later, moved⟩)
          · exact ⟨suffix, within, List.mem_cons_self, moved⟩
          · exact ⟨other, other_within, List.mem_cons_of_mem _ later, moved⟩
      refine ⟨next, ?_, done, moves ▸ enlisted.trans more, ?_⟩
      · simp only [stepStates, run, ok_bind, runs]
      · intro s member
        rcases List.mem_cons.mp member with rfl | later
        · rcases more.marks (stateAt items suffix) with kept | marked | none
          · rw [kept]
            exact dropped
          · exact Or.inr marked
          · exact Or.inl none
        · exact all_dropped s later

/-! ## Runs -/

theorem flip_ne (list : Fin 2) : 1 - list ≠ list := by
  revert list
  decide

theorem flip_flip (list : Fin 2) : 1 - (1 - list) = list := by
  revert list
  decide

theorem eq_flip_of_ne {list other : Fin 2} (different : other ≠ list) : other = 1 - list := by
  revert list other
  decide

/-- Between two characters the current list holds the states of a set of
suffixes, the other list is empty, and the marks agree with both. -/
structure Ready (items : List (Item Int8)) (suffixes : Set (List (Item Int8))) (nfa : SimpleRexNFA) :
    Prop where
  built : Built items nfa
  marked : ∀ list, Marked nfa list
  within : ∀ suffix ∈ suffixes, suffix <:+ items
  current : ∀ s, s ∈ nfa.lists nfa.clist ↔ ∃ suffix ∈ suffixes, stateAt items suffix = s
  other_empty : nfa.lists (1 - nfa.clist) = []

/-- One character takes the current list through one step of the suffix machine. -/
theorem Ready.round {suffixes : Set (List (Item Int8))} (ready : Ready items suffixes nfa) (c : Int8) :
    ∃ next, stepStates c (1 - nfa.clist) (nfa.lists nfa.clist) nfa = .ok next ∧
      Ready items (advance Matches c suffixes)
        { next with lists := Function.update next.lists next.clist [], clist := 1 - nfa.clist } := by
  obtain ⟨built, marked, within, current, other_empty⟩ := ready
  have waiting : ∀ s ∈ nfa.lists nfa.clist, ∃ suffix, suffix <:+ items ∧ stateAt items suffix = s := by
    intro s member
    obtain ⟨suffix, held, same⟩ := (current s).mp member
    exact ⟨suffix, within suffix held, same⟩
  obtain ⟨next, run, filled, enlisted, dropped⟩ := stepStates_spec c ⟨built, marked _⟩ waiting
  have old_unmarked : ∀ s, mark next s ≠ some nfa.clist := by
    intro s old
    rcases enlisted.marks s with kept | moved | none
    · rw [kept] at old
      rcases dropped s ((marked nfa.clist s).mp old) with none | moved
      · rw [kept, old] at none
        cases none
      · rw [kept, old] at moved
        exact flip_ne nfa.clist (Option.some.inj moved).symm
    · rw [old] at moved
      exact flip_ne nfa.clist (Option.some.inj moved).symm
    · rw [old] at none
      cases none
  have new_list : Function.update next.lists next.clist [] (1 - nfa.clist) =
      next.lists (1 - nfa.clist) := by
    rw [enlisted.clist_eq]
    exact Function.update_of_ne (flip_ne nfa.clist) _ _
  refine ⟨next, run, ⟨⟨filled.built.states_eq, filled.built.last_eq⟩, ?_, ?_, ?_, ?_⟩⟩
  · intro list s
    rcases eq_or_ne list nfa.clist with rfl | other
    · simp only [enlisted.clist_eq, Function.update_self]
      exact iff_of_false (old_unmarked s) List.not_mem_nil
    · rw [eq_flip_of_ne other]
      simp only [new_list]
      exact filled.marked s
  · rintro suffix ⟨item, rest, held, _, step⟩
    exact (pending_isSuffix step).trans ((after_isSuffix item rest).trans (within _ held))
  · intro s
    simp only [new_list]
    rw [enlisted.members, other_empty, or_iff_right List.not_mem_nil]
    constructor
    · rintro ⟨suffix, suffix_within, member, after, ⟨item, rest, same, accepted, step⟩, here⟩
      obtain ⟨held, held_in, equal⟩ := (current _).mp member
      rw [stateAt_inj (within held held_in) suffix_within equal] at held_in
      rw [← Set.mem_singleton_iff.mp same] at held_in
      exact ⟨after, ⟨item, rest, held_in, accepted, step⟩, here⟩
    · rintro ⟨after, ⟨item, rest, held_in, accepted, step⟩, here⟩
      exact ⟨item :: rest, within _ held_in, (current _).mpr ⟨_, held_in, rfl⟩, after,
        ⟨item, rest, rfl, accepted, step⟩, here⟩
  · rw [flip_flip, enlisted.clist_eq]
    exact Function.update_self _ _ _

/-- The loop over the source string answers whether the suffix machine ends
with nothing left to read. -/
theorem runChars_spec {suffixes : Set (List (Item Int8))} (ready : Ready items suffixes nfa)
    (src : List Int8) :
    ∃ answer last, runChars src nfa = .ok (answer, last) ∧ Built items last ∧
      (answer = true ↔ [] ∈ reached Matches suffixes src) := by
  induction src generalizing nfa suffixes with
  | nil =>
      refine ⟨_, nfa, rfl, ready.built, ?_⟩
      simp only [List.any_eq_true, decide_eq_true_eq, ready.built.last_eq, Int.natCast_inj, reached]
      constructor
      · rintro ⟨_, member, rfl⟩
        obtain ⟨suffix, held, same⟩ := (ready.current _).mp member
        rwa [(stateAt_eq_last (ready.within suffix held)).mp same] at held
      · intro held
        exact ⟨_, (ready.current _).mpr ⟨[], held, rfl⟩, rfl⟩
  | cons c src ih =>
      obtain ⟨next, run, after⟩ := ready.round c
      simp only [runChars, run, ok_bind, reached]
      split
      next empty =>
        have stuck : advance Matches c suffixes = ∅ := by
          rw [Set.eq_empty_iff_forall_notMem]
          intro suffix held
          have member := (after.current _).mpr ⟨suffix, held, rfl⟩
          simp only [List.isEmpty_iff.mp empty] at member
          cases member
        refine ⟨false, _, rfl, after.built, ?_⟩
        rw [stuck, reached_empty]
        exact iff_of_false Bool.false_ne_true (Set.notMem_empty _)
      next => exact ih after

theorem Built.cleared (built : Built items nfa) : Built items (cleared nfa) := by
  refine ⟨?_, built.last_eq⟩
  simp only [SimpleRexMatch.cleared, ← built.states_eq, List.map_map]
  rfl

theorem mark_cleared (nfa : SimpleRexNFA) (s : Nat) : mark (cleared nfa) s = none := by
  simp only [mark, cleared, List.getElem?_map]
  cases nfa.states[s]? <;> rfl

theorem Built.filling_cleared (built : Built items nfa) (list : Fin 2) :
    Filling items list (SimpleRexMatch.cleared nfa) := by
  refine ⟨built.cleared, fun s => ?_⟩
  rw [mark_cleared]
  exact iff_of_false nofun List.not_mem_nil

/-- The first states are listed on cleared lists, whatever the earlier calls have left behind. -/
theorem Built.ready (built : Built items nfa) :
    ∃ start, addState 0 nfa.states.length (some 0) (SimpleRexMatch.cleared nfa) = .ok start ∧
      Ready items {suffix | suffix ∈ pending items} start := by
  have enough : items.length < nfa.states.length := by
    rw [built.length_eq]
    exact Nat.lt_succ_of_le (length_le_width items)
  obtain ⟨start, run, filled, enlisted⟩ :=
    addState_spec (built.filling_cleared 0) (List.suffix_refl items) enough
  have from_zero : position items items = 0 := Nat.sub_self _
  rw [from_zero] at run
  have clist_eq : start.clist = 0 := enlisted.clist_eq
  have other_empty : start.lists 1 = [] := enlisted.others 1 (by decide)
  refine ⟨start, run, filled.built, ?_, fun suffix held => pending_isSuffix held, ?_, ?_⟩
  · intro list s
    rcases eq_or_ne list 0 with rfl | other
    · exact filled.marked s
    · rw [eq_flip_of_ne other]
      change mark start s = some 1 ↔ s ∈ start.lists 1
      rw [other_empty]
      refine iff_of_false ?_ List.not_mem_nil
      rcases enlisted.marks s with kept | zero | none
      · rw [kept, mark_cleared]
        nofun
      · rw [zero]
        decide
      · rw [none]
        nofun
  · intro s
    rw [clist_eq, enlisted.members]
    exact or_iff_right List.not_mem_nil
  · rw [clist_eq]
    exact other_empty

/-- One call of `is_matched`, whatever the earlier calls have left behind. -/
theorem isMatched_spec (built : Built items nfa) (src : List Int8) :
    ∃ answer last, isMatched nfa src = .ok (answer, last) ∧ Built items last ∧
      (answer = true ↔ src ∈ sequence Matches items) := by
  obtain ⟨start, run, ready⟩ := built.ready
  obtain ⟨answer, last, matched, done, decides⟩ := runChars_spec ready src
  refine ⟨answer, last, ?_, done, decides.trans mem_sequence_iff_reached.symm⟩
  simp only [isMatched, run, ok_bind, matched]

theorem matchAll_spec (built : Built items nfa) (earlier : List (List Int8)) :
    ∃ answers used, matchAll nfa earlier = .ok (answers, used) ∧ Built items used := by
  induction earlier generalizing nfa with
  | nil => exact ⟨[], nfa, rfl, built⟩
  | cons src rest ih =>
      obtain ⟨answer, next, run, after, _⟩ := isMatched_spec built src
      obtain ⟨answers, used, runs, last⟩ := ih after
      refine ⟨answer :: answers, used, ?_, last⟩
      simp only [matchAll, run, ok_bind, runs]

/-! ## Which patterns are decided -/

theorem constructed {ptn : List Int8} {nfa : SimpleRexNFA} (run : construct ptn = .ok nfa) :
    Built (patternItems (readPart ptn)) nfa := by
  have unmarked_laid : ∀ (items : List (Item Int8)) p,
      (laid items p).map State.unmarked = laid items p := by
    intro items p
    induction items generalizing p with
    | nil => rfl
    | cons item rest ih =>
        simp only [laid, List.map_append, ih, itemStates]
        split <;> rfl
  have unmarked_layout : ∀ items : List (Item Int8),
      (layout items).map State.unmarked = layout items := by
    intro items
    simp only [layout, List.map_append, unmarked_laid]
    rfl
  rw [construct_spec ((construct_ok_iff ptn).mp ⟨nfa, run⟩)] at run
  obtain rfl := Except.ok.inj run
  exact ⟨unmarked_layout _, rfl⟩

/-- An object that can be built decides the language of the part of its pattern that is read. -/
theorem decides_readPart {ptn : List Int8} (countable : intOfSize ptn.length ≠ 2 ^ 31 - 1) :
    DecidesPattern ptn ↔ patternLanguage (readPart ptn) = patternLanguage ptn := by
  obtain ⟨nfa, run⟩ := (construct_ok_iff ptn).mpr countable
  have built := constructed run
  constructor
  · rintro ⟨other, run', decides⟩
    rw [run] at run'
    cases run'
    obtain ⟨_, used, none, decides⟩ := decides []
    cases none
    ext src
    obtain ⟨answer, last, matched, _, correct⟩ := isMatched_spec built src
    obtain ⟨answer', last', matched', claimed⟩ := decides src
    rw [matched] at matched'
    cases matched'
    exact correct.symm.trans claimed
  · intro same
    refine ⟨nfa, run, fun earlier => ?_⟩
    obtain ⟨answers, used, runs, after⟩ := matchAll_spec built earlier
    refine ⟨answers, used, runs, fun src => ?_⟩
    obtain ⟨answer, last, matched, _, correct⟩ := isMatched_spec after src
    exact ⟨answer, last, matched, same ▸ correct⟩

/-- The object decides the language of its pattern exactly when its number of states is an
`int` and the part of the pattern in front of its length as an `int` has the same language.
All patterns shorter than `2 ^ 31 - 1` characters are read whole. -/
theorem decidesPattern_iff (ptn : List Int8) :
    DecidesPattern ptn ↔ ptn.length < 2 ^ 31 - 1 ∨
      intOfSize ptn.length ≠ 2 ^ 31 - 1 ∧ patternLanguage (readPart ptn) = patternLanguage ptn := by
  by_cases full : intOfSize ptn.length = 2 ^ 31 - 1
  · have long : ¬ptn.length < 2 ^ 31 - 1 := by
      intro short
      rw [intOfSize_eq, intSize_eq (by omega)] at full
      omega
    constructor
    · rintro ⟨nfa, run, _⟩
      exact absurd full ((construct_ok_iff ptn).mp ⟨nfa, run⟩)
    · rintro (short | ⟨countable, _⟩)
      · exact absurd short long
      · exact absurd full countable
  · rw [decides_readPart full]
    refine ⟨fun same => Or.inr ⟨full, same⟩, ?_⟩
    rintro (short | ⟨_, same⟩)
    · rw [readPart_of_short (by omega)]
    · exact same

theorem nil_notMem_of_plain {c : Int8} {rest : List Int8} (plain : rest.head? ≠ some star) :
    [] ∉ patternLanguage (c :: rest) := by
  rw [patternLanguage, patternItems_cons, sequence_cons_eq, Language.mem_add]
  simp only [plain, decide_false, Bool.false_eq_true, if_false, or_false, Language.notMem_zero]
  exact nil_notMem_letter_mul _ _

/-- A pattern of `2 ^ 31` letters has the length `-2 ^ 31` as an `int`, so no item
is read and the empty string matches. -/
theorem decidesPattern_too_long :
    ¬DecidesPattern (List.replicate (2 ^ 31) 97) ∧
      [] ∉ patternLanguage (List.replicate (2 ^ 31) 97) ∧
      ∃ nfa last, construct (List.replicate (2 ^ 31) 97) = .ok nfa ∧
        isMatched nfa [] = .ok (true, last) := by
  have count : (2 ^ 31 : Nat) = (2 ^ 31 - 1) + 1 := by decide
  have unread : readPart (List.replicate (2 ^ 31) 97) = [] := by
    rw [readPart, List.length_replicate]
    exact List.take_zero
  have required : [] ∉ patternLanguage (List.replicate (2 ^ 31) 97) := by
    rw [count, List.replicate_succ]
    apply nil_notMem_of_plain
    rw [List.head?_replicate, if_neg (by decide)]
    decide
  obtain ⟨nfa, run⟩ := (construct_ok_iff (List.replicate (2 ^ 31) 97)).mpr (by
    rw [List.length_replicate]
    decide)
  have built := constructed run
  rw [unread] at built
  obtain ⟨answer, last, matched, _, correct⟩ := isMatched_spec built []
  have accepted : answer = true := correct.mpr Language.nil_mem_one
  rw [accepted] at matched
  refine ⟨?_, required, nfa, last, run, matched⟩
  rintro ⟨other, run', decides⟩
  rw [run] at run'
  cases run'
  obtain ⟨_, used, none, decides⟩ := decides []
  cases none
  obtain ⟨_, _, again, claimed⟩ := decides []
  rw [matched] at again
  cases again
  exact required (claimed.mp rfl)

end CppProject.SimpleRexMatch
