import CppProject.Library.Items
import CppProject.Library.Loop
import Mathlib.Logic.Function.Basic

/-!
# `SimpleRexNFA`

The matcher of `SimpleRexMatch`: one object is built from a pattern and then
matches any number of source strings.  A `char` is signed, and `-1` among the
state numbers is `none`.
-/

namespace CppProject.SimpleRexMatch

open Library Library.Checked

/-- The value of `c` in a split state. -/
def split : Int := 256

def star : Int8 := 42

def dot : Int8 := 46

structure State where
  c : Int
  out : Option Nat
  out1 : Option Nat
  lastList : Option (Fin 2)
  deriving DecidableEq, Repr

/-- `State()` -/
def newState : State := ⟨-1, none, none, none⟩

/-- A state without its mark: the part that is fixed once the object is built. -/
def State.unmarked (ins : State) : State := { ins with lastList := none }

structure SimpleRexNFA where
  states : List State
  lists : Fin 2 → List Nat
  clist : Fin 2
  lastState : Int

/-! ## The constructor -/

/-- A `size_t` stored in an `int`. -/
def intOfSize (size : Nat) : Int := Int.bmod size (2 ^ 32)

/-- The variables of the constructor loop. -/
structure BuildState where
  states : List State
  lastState : Option Nat
  i : Nat

/-- Let the state before the current one continue at `target`. -/
def patch (states : List State) (lastState : Option Nat) (target : Nat) : Except Fault (List State) :=
  match lastState with
  | none => .ok states
  | some last => do
      let ins ← load states last
      if ins.c = split then store states last { ins with out1 := some target }
      else store states last { ins with out := some target }

/-- `i + 1 < len && ptn[i + 1] == '*'` -/
def starFollows (ptn : List Int8) (len : Int) (i : Nat) : Except Fault Bool :=
  if (i : Int) + 1 < len then do
    let next ← load ptn (i + 1)
    .ok (next = star)
  else .ok false

/-- One round of the constructor loop. -/
def buildRound (ptn : List Int8) (len : Int) (b : BuildState) : Except Fault (Option BuildState) :=
  if (b.i : Int) < len then do
    let size := b.states.length
    let starred ← starFollows ptn len b.i
    let c ← load ptn b.i
    let added : List State :=
      if starred then
        [{ newState with c := split, out := some (size + 1) },
          { newState with c := c.toInt, out := some size }]
      else [{ newState with c := c.toInt }]
    let states ← patch (b.states ++ added) b.lastState size
    .ok (some ⟨states, some size, if starred then b.i + 2 else b.i + 1⟩)
  else .ok none

/-- `_last_state + 1`, a sum of `int`s. -/
def behindLast (lastState : Int) : Except Fault Nat :=
  if lastState = 2 ^ 31 - 1 then .error .overflow else .ok (lastState + 1).toNat

def construct (ptn : List Int8) : Except Fault SimpleRexNFA := do
  let len := intOfSize ptn.length
  let built ← whileLoop (buildRound ptn len) (ptn.length + 1) ⟨[], none, 0⟩
  let lastState := intOfSize built.states.length
  let size ← behindLast lastState
  let states ← patch (resize built.states size newState) built.lastState lastState.toNat
  .ok { states := states, lists := fun _ => [], clist := 0, lastState := lastState }

/-! ## Matching -/

/-- Append a state to a list unless it is marked as a member of it. -/
def enlist (nfa : SimpleRexNFA) (list : Fin 2) (state : Nat) : Except Fault SimpleRexNFA := do
  let ins ← load nfa.states state
  if ins.lastList = some list then .ok nfa
  else do
    let states ← store nfa.states state { ins with lastList := some list }
    .ok { nfa with
      states := states
      lists := Function.update nfa.lists list (nfa.lists list ++ [state]) }

/-- `_add_state`: split states are followed along `out1`. -/
def addState (list : Fin 2) : Nat → Option Nat → SimpleRexNFA → Except Fault SimpleRexNFA
  | 0, _, _ => .error .outOfFuel
  | _ + 1, none, nfa => .ok nfa
  | fuel + 1, some state, nfa => do
      let ins ← load nfa.states state
      if ins.c = split then
        match ins.out with
        | none => .error .outOfBounds
        | some single => do
            let nfa ← enlist nfa list single
            addState list fuel ins.out1 nfa
      else enlist nfa list state

/-- `if (ins.last_list != nlist) ins.last_list = -1;` -/
def dropMark (nlist : Fin 2) (state : Nat) (nfa : SimpleRexNFA) : Except Fault SimpleRexNFA := do
  let ins ← load nfa.states state
  if ins.lastList = some nlist then .ok nfa
  else do
    let states ← store nfa.states state { ins with lastList := none }
    .ok { nfa with states := states }

/-- One state of the current list reads a character. -/
def stepState (c : Int8) (nlist : Fin 2) (state : Nat) (nfa : SimpleRexNFA) :
    Except Fault SimpleRexNFA := do
  let ins ← load nfa.states state
  let nfa ←
    if ins.c = c.toInt ∨ ins.c = dot.toInt then addState nlist nfa.states.length ins.out nfa
    else .ok nfa
  dropMark nlist state nfa

def stepStates (c : Int8) (nlist : Fin 2) : List Nat → SimpleRexNFA → Except Fault SimpleRexNFA
  | [], nfa => .ok nfa
  | state :: rest, nfa => do
      let nfa ← stepState c nlist state nfa
      stepStates c nlist rest nfa

/-- The loop over the source string, and the search for the last state behind it. -/
def runChars : List Int8 → SimpleRexNFA → Except Fault (Bool × SimpleRexNFA)
  | [], nfa => .ok ((nfa.lists nfa.clist).any (fun state => (state : Int) = nfa.lastState), nfa)
  | c :: src, nfa => do
      let nlist := 1 - nfa.clist
      let nfa ← stepStates c nlist (nfa.lists nfa.clist) nfa
      let nfa := { nfa with lists := Function.update nfa.lists nfa.clist [], clist := nlist }
      if (nfa.lists nfa.clist).isEmpty then .ok (false, nfa)
      else runChars src nfa

/-- The state of the object after `is_matched` has cleared its lists and marks. -/
def cleared (nfa : SimpleRexNFA) : SimpleRexNFA :=
  { nfa with
    states := nfa.states.map State.unmarked
    lists := fun _ => []
    clist := 0 }

def isMatched (nfa : SimpleRexNFA) (src : List Int8) : Except Fault (Bool × SimpleRexNFA) := do
  let nfa ← addState 0 nfa.states.length (some 0) (cleared nfa)
  runChars src nfa

/-- A sequence of `is_matched` calls on one object. -/
def matchAll (nfa : SimpleRexNFA) : List (List Int8) → Except Fault (List Bool × SimpleRexNFA)
  | [] => .ok ([], nfa)
  | src :: rest => do
      let (answer, nfa) ← isMatched nfa src
      let (answers, nfa) ← matchAll nfa rest
      .ok (answer :: answers, nfa)

/-! ## Statement by statement -/

/-- A statement of `is_matched` or `_add_state`. -/
inductive Statement where
  | clearList (list : Fin 2)
  | resetClist
  | unmarkFrom (i : Nat)
  | addFirst
  | addState (state : Option Nat) (list : Fin 2)
  | enlist (state : Nat) (list : Fin 2)
  | pushBack (state : Nat) (list : Fin 2)
  | setMark (state : Nat) (mark : Option (Fin 2))
  | chars (src : List Int8)
  | states (c : Int8) (nlist : Fin 2) (k : Nat)
  | readChar (c : Int8) (nlist : Fin 2) (state : Nat)
  | dropMark (nlist : Fin 2) (state : Nat)
  | clearCurrent
  | flipClist
  | checkEmpty (src : List Int8)
  | ret (answer : Bool)

/-- The object and the statements to come. -/
structure Point where
  nfa : SimpleRexNFA
  left : List Statement

/-- Execute a statement in front of those to come; a `return` ends the call. -/
def execute (nfa : SimpleRexNFA) (left : List Statement) : Statement → Except Fault (Option Point)
  | .clearList list => .ok (some ⟨{ nfa with lists := Function.update nfa.lists list [] }, left⟩)
  | .resetClist => .ok (some ⟨{ nfa with clist := 0 }, left⟩)
  | .unmarkFrom i =>
      if i < nfa.states.length then
        .ok (some ⟨nfa, .setMark i none :: .unmarkFrom (i + 1) :: left⟩)
      else .ok (some ⟨nfa, left⟩)
  | .addFirst => .ok (some ⟨nfa, .addState (some 0) nfa.clist :: left⟩)
  | .addState none _ => .ok (some ⟨nfa, left⟩)
  | .addState (some state) list => do
      let ins ← load nfa.states state
      if ins.c = split then
        match ins.out with
        | none => .error .outOfBounds
        | some single => .ok (some ⟨nfa, .enlist single list :: .addState ins.out1 list :: left⟩)
      else .ok (some ⟨nfa, .enlist state list :: left⟩)
  | .enlist state list => do
      let ins ← load nfa.states state
      if ins.lastList = some list then .ok (some ⟨nfa, left⟩)
      else .ok (some ⟨nfa, .pushBack state list :: .setMark state (some list) :: left⟩)
  | .pushBack state list =>
      .ok (some ⟨{ nfa with
        lists := Function.update nfa.lists list (nfa.lists list ++ [state]) }, left⟩)
  | .setMark state mark => do
      let ins ← load nfa.states state
      let states ← store nfa.states state { ins with lastList := mark }
      .ok (some ⟨{ nfa with states := states }, left⟩)
  | .chars [] =>
      .ok (some ⟨nfa, [.ret ((nfa.lists nfa.clist).any (fun state => (state : Int) = nfa.lastState))]⟩)
  | .chars (c :: src) =>
      .ok (some ⟨nfa,
        .states c (1 - nfa.clist) 0 :: .clearCurrent :: .flipClist :: .checkEmpty src :: left⟩)
  | .states c nlist k =>
      match (nfa.lists nfa.clist)[k]? with
      | none => .ok (some ⟨nfa, left⟩)
      | some state =>
          .ok (some ⟨nfa,
            .readChar c nlist state :: .dropMark nlist state :: .states c nlist (k + 1) :: left⟩)
  | .readChar c nlist state => do
      let ins ← load nfa.states state
      if ins.c = c.toInt ∨ ins.c = dot.toInt then
        .ok (some ⟨nfa, .addState ins.out nlist :: left⟩)
      else .ok (some ⟨nfa, left⟩)
  | .dropMark nlist state => do
      let ins ← load nfa.states state
      if ins.lastList = some nlist then .ok (some ⟨nfa, left⟩)
      else .ok (some ⟨nfa, .setMark state none :: left⟩)
  | .clearCurrent =>
      .ok (some ⟨{ nfa with lists := Function.update nfa.lists nfa.clist [] }, left⟩)
  | .flipClist => .ok (some ⟨{ nfa with clist := 1 - nfa.clist }, left⟩)
  | .checkEmpty src =>
      if (nfa.lists nfa.clist).isEmpty then .ok (some ⟨nfa, [.ret false]⟩)
      else .ok (some ⟨nfa, .chars src :: left⟩)
  | .ret _ => .ok none

def Point.step (p : Point) : Except Fault (Option Point) :=
  match p.left with
  | [] => .ok none
  | statement :: left => execute p.nfa left statement

/-- The first point of a call. -/
def Point.start (nfa : SimpleRexNFA) (src : List Int8) : Point :=
  ⟨nfa, [.clearList 0, .clearList 1, .resetClist, .unmarkFrom 0, .addFirst, .chars src]⟩

/-! ## The language of a pattern -/

/-- A pattern read left to right as items. -/
def patternItems : List Int8 → List (Item Int8)
  | [] => []
  | [c] => [⟨c, false⟩]
  | c :: next :: rest =>
      if next = star then ⟨c, true⟩ :: patternItems rest
      else ⟨c, false⟩ :: patternItems (next :: rest)

/-- An item's character matches itself, and `.` matches every character. -/
def Matches (c x : Int8) : Prop := c = dot ∨ c = x

def patternLanguage (ptn : List Int8) : Language Int8 := Items.sequence Matches (patternItems ptn)

/-- After any earlier calls, `is_matched` decides the language of the pattern
that the object was built from. -/
def DecidesPattern (ptn : List Int8) : Prop :=
  ∃ nfa, construct ptn = .ok nfa ∧ ∀ earlier, ∃ answers used,
    matchAll nfa earlier = .ok (answers, used) ∧
    ∀ src, ∃ answer last, isMatched used src = .ok (answer, last) ∧
      (answer = true ↔ src ∈ patternLanguage ptn)

end CppProject.SimpleRexMatch
