import CppProject.SimpleRexMatch.Source
import Mathlib.Algebra.GroupWithZero.Nat

/-!
# The states of a pattern

The constructor lays out one state for a plain item and two for a starred one,
and lets every item continue at the next.  The length of the pattern passes
through an `int`, so only the part of the pattern in front of that length is read,
and `_last_state` is an `int` to which 1 is added.
-/

namespace CppProject.SimpleRexMatch

open Library Library.Checked

/-- The characters that the constructor loop visits. -/
def readPart (ptn : List Int8) : List Int8 := ptn.take (intOfSize ptn.length).toNat

theorem intOfSize_eq (size : Nat) : intOfSize size = intSize size := Int32.toInt_ofNat'.symm

theorem readPart_length (ptn : List Int8) : (readPart ptn).length = (intOfSize ptn.length).toNat := by
  rw [readPart, intOfSize_eq, length_take_intSize]

/-- Patterns that an `int` can count are read whole. -/
theorem readPart_of_short {ptn : List Int8} (short : ptn.length < 2 ^ 31) : readPart ptn = ptn := by
  rw [readPart, intOfSize_eq, take_intSize short]

/-! ## The layout of the items -/

def itemWidth (item : Item Int8) : Nat := if item.starred then 2 else 1

/-- The number of states of a sequence of items. -/
def width (items : List (Item Int8)) : Nat := (items.map itemWidth).sum

/-- The states of one item at position `p`, continuing at `next`. -/
def itemStates (item : Item Int8) (p : Nat) (next : Option Nat) : List State :=
  if item.starred then
    [{ newState with c := split, out := some (p + 1), out1 := next },
      { newState with c := item.symbol.toInt, out := some p }]
  else [{ newState with c := item.symbol.toInt, out := next }]

/-- The states of consecutive items from position `p` on. -/
def laid : List (Item Int8) → Nat → List State
  | [], _ => []
  | item :: rest, p =>
      itemStates item p (some (p + itemWidth item)) ++ laid rest (p + itemWidth item)

/-- All states of an object: the items and the last state. -/
def layout (items : List (Item Int8)) : List State := laid items 0 ++ [newState]

theorem itemStates_length (item : Item Int8) (p : Nat) (next : Option Nat) :
    (itemStates item p next).length = itemWidth item := by
  unfold itemStates itemWidth
  split <;> rfl

theorem width_cons (item : Item Int8) (rest : List (Item Int8)) :
    width (item :: rest) = itemWidth item + width rest := by
  simp only [width, List.map_cons, List.sum_cons]

theorem width_append (front back : List (Item Int8)) :
    width (front ++ back) = width front + width back := by
  simp only [width, List.map_append, List.sum_append]

theorem itemWidth_pos (item : Item Int8) : 0 < itemWidth item := by
  unfold itemWidth
  split <;> decide

theorem laid_length (items : List (Item Int8)) (p : Nat) : (laid items p).length = width items := by
  induction items generalizing p with
  | nil => rfl
  | cons item rest ih => simp only [laid, List.length_append, itemStates_length, ih, width_cons]

theorem laid_append (front back : List (Item Int8)) (p : Nat) :
    laid (front ++ back) p = laid front p ++ laid back (p + width front) := by
  induction front generalizing p with
  | nil => rfl
  | cons item rest ih =>
      simp only [List.cons_append, laid, ih, width_cons, List.append_assoc, Nat.add_assoc]

theorem layout_length (items : List (Item Int8)) : (layout items).length = width items + 1 := by
  simp [layout, laid_length]

/-! ## One item of a pattern -/

theorem toInt_ne_split (c : Int8) : c.toInt ≠ split := by
  have := c.toInt_lt
  unfold split
  omega

theorem patternItems_cons (c : Int8) (rest : List Int8) :
    patternItems (c :: rest) =
      ⟨c, rest.head? = some star⟩ ::
        patternItems (if rest.head? = some star then rest.tail else rest) := by
  cases rest with
  | nil => simp [patternItems]
  | cons next rest =>
      rw [patternItems]
      by_cases starred : next = star
      · simp [starred]
      · simp [starred]

/-- The item at position `i` of a pattern. -/
def itemAt (read : List Int8) (i : Nat) (inside : i < read.length) : Item Int8 :=
  ⟨read[i], read[i + 1]? = some star⟩

theorem patternItems_drop (read : List Int8) {i : Nat} (inside : i < read.length) :
    patternItems (read.drop i) =
      itemAt read i inside :: patternItems (read.drop (i + itemWidth (itemAt read i inside))) := by
  rw [List.drop_eq_getElem_cons inside, patternItems_cons, List.head?_drop]
  simp only [itemAt, itemWidth, decide_eq_true_eq]
  split
  · rw [List.tail_drop]
  · rfl

theorem itemAt_end_le (read : List Int8) {i : Nat} (inside : i < read.length) :
    i + itemWidth (itemAt read i inside) ≤ read.length := by
  simp only [itemAt, itemWidth, decide_eq_true_eq]
  split
  next starred =>
    obtain ⟨next_inside, _⟩ := List.getElem?_eq_some_iff.mp starred
    exact next_inside
  next => exact inside

/-! ## The constructor loop -/

/-- The states while the loop runs: the last item has no continuation yet. -/
inductive Unfinished : List (Item Int8) → List State → Option Nat → Prop where
  | none : Unfinished [] [] none
  | item (init : List (Item Int8)) (item : Item Int8) :
      Unfinished (init ++ [item]) (laid init 0 ++ itemStates item (width init) none)
        (some (width init))

theorem Unfinished.length_eq {front : List (Item Int8)} {states : List State} {last : Option Nat}
    (unfinished : Unfinished front states last) : states.length = width front := by
  cases unfinished with
  | none => rfl
  | item init item =>
      simp [laid_length, itemStates_length, width]

/-- Patching gives the last item its continuation. -/
theorem Unfinished.patch {front : List (Item Int8)} {states : List State} {last : Option Nat}
    (unfinished : Unfinished front states last) (added : List State) :
    patch (states ++ added) last (width front) = .ok (laid front 0 ++ added) := by
  cases unfinished with
  | none => rfl
  | item init item =>
      have position : width init = (laid init 0).length := (laid_length init 0).symm
      have whole : laid (init ++ [item]) 0 =
          laid init 0 ++ itemStates item (width init) (some (width (init ++ [item]))) := by
        rw [laid_append, width_append, Nat.zero_add]
        simp [laid, width]
      rw [whole]
      simp only [SimpleRexMatch.patch, itemStates, position, List.append_assoc]
      cases item.starred with
      | false =>
          simp only [Bool.false_eq_true, if_false, List.cons_append, List.nil_append, load_append,
            ok_bind, if_neg (toInt_ne_split item.symbol), store_append]
      | true =>
          simp only [if_true, List.cons_append, load_append, ok_bind, store_append]

/-- What holds between two rounds of the constructor loop. -/
structure Building (read : List Int8) (b : BuildState) (front : List (Item Int8)) : Prop where
  i_le : b.i ≤ read.length
  items_eq : patternItems read = front ++ patternItems (read.drop b.i)
  unfinished : Unfinished front b.states b.lastState

theorem load_readPart {ptn : List Int8} {i : Nat} (inside : i < (readPart ptn).length) :
    load ptn i = .ok (readPart ptn)[i] := by
  rw [load_eq_ok, ← List.getElem?_eq_getElem inside]
  rw [readPart_length] at inside
  rw [readPart, List.getElem?_take_of_lt inside]

theorem starFollows_eq {ptn : List Int8} {i : Nat} (inside : i < (readPart ptn).length) :
    starFollows ptn (intOfSize ptn.length) i = .ok (itemAt (readPart ptn) i inside).starred := by
  have length := readPart_length ptn
  unfold starFollows itemAt
  split
  next more =>
    have next_inside : i + 1 < (readPart ptn).length := by omega
    rw [load_readPart next_inside, ok_bind, List.getElem?_eq_getElem next_inside]
    simp
  next last =>
    have outside : (readPart ptn).length ≤ i + 1 := by omega
    rw [List.getElem?_eq_none outside]
    simp

/-- One round lays out one item. -/
theorem buildRound_spec {ptn : List Int8} {b : BuildState} {front : List (Item Int8)}
    (building : Building (readPart ptn) b front) (inside : b.i < (readPart ptn).length) :
    ∃ next, buildRound ptn (intOfSize ptn.length) b = .ok (some next) ∧
      Building (readPart ptn) next (front ++ [itemAt (readPart ptn) b.i inside]) ∧
      b.i < next.i := by
  obtain ⟨i_le, items_eq, unfinished⟩ := building
  have below_len : (b.i : Int) < intOfSize ptn.length := by
    have length := readPart_length ptn
    omega
  obtain ⟨item, item_eq⟩ : ∃ item, itemAt (readPart ptn) b.i inside = item := ⟨_, rfl⟩
  have symbol_eq : item.symbol = (readPart ptn)[b.i] := by
    rw [← item_eq]
    rfl
  have size : b.states.length = width front := unfinished.length_eq
  have states := unfinished.patch (itemStates item (width front) none)
  refine ⟨⟨laid front 0 ++ itemStates item (width front) none, some (width front),
    b.i + itemWidth item⟩, ?_, ⟨?_, ?_, ?_⟩, ?_⟩
  · simp only [buildRound, if_pos below_len, starFollows_eq inside, ok_bind, load_readPart inside,
      item_eq, ← symbol_eq, size]
    cases starred : item.starred with
    | false =>
        simp only [itemStates, itemWidth, starred, newState, Bool.false_eq_true, if_false] at states ⊢
        rw [states, ok_bind]
    | true =>
        simp only [itemStates, itemWidth, starred, newState, if_true] at states ⊢
        rw [states, ok_bind]
  · rw [← item_eq]
    exact itemAt_end_le _ inside
  · rw [items_eq, patternItems_drop _ inside, item_eq, List.append_assoc]
    rfl
  · rw [item_eq]
    exact .item front item
  · exact Nat.lt_add_of_pos_right (itemWidth_pos item)

/-! ## The whole constructor -/

/-- A character of a pattern has one state, also the star. -/
theorem width_patternItems (ptn : List Int8) : width (patternItems ptn) = ptn.length := by
  induction ptn using patternItems.induct with
  | case1 => rfl
  | case2 c => rfl
  | case3 c rest ih =>
      simp only [patternItems, if_true, width_cons, itemWidth, ih, List.length_cons]
      omega
  | case4 c next rest plain ih =>
      simp only [patternItems, if_neg plain, width_cons, itemWidth, ih, List.length_cons,
        Bool.false_eq_true, if_false]
      omega

theorem width_readPart (ptn : List Int8) :
    width (patternItems (readPart ptn)) = (intOfSize ptn.length).toNat := by
  rw [width_patternItems, readPart_length]

/-- An `int` counts the states that the loop has laid out. -/
theorem intOfSize_width (ptn : List Int8) :
    intOfSize (width (patternItems (readPart ptn))) = width (patternItems (readPart ptn)) := by
  have below := intSize_lt ptn.length
  rw [intOfSize_eq, intSize_eq]
  rw [width_readPart, intOfSize_eq]
  omega

/-- The loop lays out the items of the part of the pattern that it reads. -/
theorem buildLoop_spec (ptn : List Int8) :
    ∃ built, whileLoop (buildRound ptn (intOfSize ptn.length)) (ptn.length + 1) ⟨[], none, 0⟩ = .ok built ∧
      Unfinished (patternItems (readPart ptn)) built.states built.lastState := by
  have initial : ∃ front, Building (readPart ptn) ⟨[], none, 0⟩ front :=
    ⟨[], Nat.zero_le _, by rw [List.nil_append, List.drop_zero], .none⟩
  have round : ∀ b, (∃ front, Building (readPart ptn) b front) →
      buildRound ptn (intOfSize ptn.length) b = .ok none ∨
        ∃ next, buildRound ptn (intOfSize ptn.length) b = .ok (some next) ∧
          (∃ front, Building (readPart ptn) next front) ∧
          (readPart ptn).length - next.i < (readPart ptn).length - b.i := by
    rintro b ⟨front, building⟩
    rcases Nat.lt_or_ge b.i (readPart ptn).length with inside | done
    · obtain ⟨next, go, after, further⟩ := buildRound_spec building inside
      exact Or.inr ⟨next, go, ⟨_, after⟩, by omega⟩
    · have not_below : ¬(b.i : Int) < intOfSize ptn.length := by
        have length := readPart_length ptn
        omega
      exact Or.inl (by simp only [buildRound, if_neg not_below])
  have enough : (readPart ptn).length - (BuildState.mk [] none 0).i < ptn.length + 1 :=
    Nat.lt_succ_of_le (Nat.le_trans (Nat.sub_le _ _) (List.length_take_le' _ _))
  obtain ⟨built, run, ⟨front, building⟩, left⟩ := Loop.leaves round initial enough
  have finished : built.i = (readPart ptn).length := by
    rcases Nat.lt_or_ge built.i (readPart ptn).length with inside | done
    · obtain ⟨next, go, _⟩ := buildRound_spec building inside
      rw [go] at left
      cases left
    · exact Nat.le_antisymm building.i_le done
  have all : patternItems (readPart ptn) = front := by
    rw [building.items_eq, finished, List.drop_length, patternItems, List.append_nil]
  exact ⟨built, run, all ▸ building.unfinished⟩

/-- The object built from a pattern, unless an `int` cannot count one state more than the
pattern has characters. -/
theorem construct_spec {ptn : List Int8} (countable : intOfSize ptn.length ≠ 2 ^ 31 - 1) :
    construct ptn = .ok
      { states := layout (patternItems (readPart ptn)), lists := fun _ => [], clist := 0,
        lastState := width (patternItems (readPart ptn)) } := by
  obtain ⟨built, run, unfinished⟩ := buildLoop_spec ptn
  have size := unfinished.length_eq
  have last : behindLast (width (patternItems (readPart ptn)) : Int) =
      .ok (width (patternItems (readPart ptn)) + 1) := by
    have below : (width (patternItems (readPart ptn)) : Int) ≠ 2 ^ 31 - 1 := by
      rw [width_readPart]
      omega
    rw [behindLast, if_neg below]
    rfl
  have added : resize built.states (width (patternItems (readPart ptn)) + 1) newState =
      built.states ++ [newState] := by
    rw [resize, List.take_of_length_le (by omega), size, Nat.add_sub_cancel_left]
    rfl
  have states := unfinished.patch [newState]
  rw [construct, run, ok_bind]
  dsimp only
  rw [size, intOfSize_width, last, ok_bind, added, Int.toNat_natCast, states, ok_bind, layout]

/-- The sum `_last_state + 1` overflows when the loop has laid out `2 ^ 31 - 1` states. -/
theorem construct_overflow {ptn : List Int8} (full : intOfSize ptn.length = 2 ^ 31 - 1) :
    construct ptn = .error .overflow := by
  obtain ⟨built, run, unfinished⟩ := buildLoop_spec ptn
  have full_width : (width (patternItems (readPart ptn)) : Int) = 2 ^ 31 - 1 := by
    rw [width_readPart]
    omega
  rw [construct, run, ok_bind]
  dsimp only
  rw [unfinished.length_eq, intOfSize_width, full_width, behindLast, if_pos rfl, error_bind]

/-- There is an object for every pattern that does not end in that overflow. -/
theorem construct_ok_iff (ptn : List Int8) :
    (∃ nfa, construct ptn = .ok nfa) ↔ intOfSize ptn.length ≠ 2 ^ 31 - 1 := by
  by_cases full : intOfSize ptn.length = 2 ^ 31 - 1
  · refine iff_of_false ?_ (not_not.mpr full)
    rintro ⟨nfa, run⟩
    rw [construct_overflow full] at run
    cases run
  · exact iff_of_true ⟨_, construct_spec full⟩ full

end CppProject.SimpleRexMatch
