import Mathlib.Data.List.Basic

/-!
# Readers of a stream

A reader takes a value off the front of a stream, or refuses the stream.  It carries
the proof that what it returns is decided by the part that it takes, so a stream that
is cut off inside a message is never taken for a shorter message.
-/

namespace CppProject.Library.Wire

/-- The run takes exactly these cells for the value, whatever comes behind them. -/
def TakesBy {B α : Type} (run : List B → Option (α × List B)) (taken : List B) (value : α) : Prop :=
  ∀ more, run (taken ++ more) = some (value, more)

structure Reader (B α : Type) where
  run : List B → Option (α × List B)
  front : ∀ {stream value rest}, run stream = some (value, rest) →
    ∃ taken, stream = taken ++ rest ∧ TakesBy run taken value

namespace Reader

variable {B α β S : Type}

abbrev Takes (r : Reader B α) (taken : List B) (value : α) : Prop := TakesBy r.run taken value

section Laws

variable {r : Reader B α} {taken other stream : List B} {value second : α}

theorem Takes.run_self (takes : r.Takes taken value) : r.run taken = some (value, []) := by
  have whole := takes []
  rwa [List.append_nil] at whole

theorem takes_of_run (finished : r.run taken = some (value, [])) : r.Takes taken value := by
  obtain ⟨front, same, takes⟩ := r.front finished
  rw [List.append_nil] at same
  rwa [same]

/-- Two messages that begin the same stream are the same message. -/
theorem Takes.unique {rest rest' : List B} (takes : r.Takes taken value) (also : r.Takes other second)
    (same : taken ++ rest = other ++ rest') : taken = other ∧ value = second := by
  have agree := takes rest
  rw [same, also rest'] at agree
  cases agree
  exact ⟨List.append_cancel_right same, rfl⟩

/-- A message that is cut off is refused. -/
theorem Takes.cut (takes : r.Takes taken value) {kept cut : List B} (split : taken = kept ++ cut)
    (missing : cut ≠ []) : r.run kept = none := by
  cases early : r.run kept with
  | none => rfl
  | some found =>
      obtain ⟨other, rest⟩ := found
      obtain ⟨front, same, also⟩ := r.front early
      refine absurd ?_ missing
      have whole : taken ++ [] = front ++ (rest ++ cut) := by
        rw [List.append_nil, split, same, List.append_assoc]
      obtain ⟨equal, -⟩ := takes.unique also whole
      rw [equal] at whole
      exact (List.append_eq_nil_iff.mp (List.append_cancel_left whole).symm).2

/-- A reader whose messages have a cell at least refuses the empty stream. -/
theorem run_nil (nonempty : ∀ {taken value}, r.Takes taken value → taken ≠ []) : r.run [] = none := by
  cases early : r.run [] with
  | none => rfl
  | some found =>
      obtain ⟨front, same, takes⟩ := r.front early
      exact absurd (List.append_eq_nil_iff.mp same.symm).1 (nonempty takes)

end Laws

/-! ## Readers in sequence -/

protected def pure (value : α) : Reader B α where
  run stream := some (value, stream)
  front := by
    intro stream found rest finished
    cases finished
    exact ⟨[], rfl, fun _ => rfl⟩

/-- The reader that refuses every stream. -/
def fail : Reader B α where
  run _ := none
  front finished := by cases finished

/-- The run of two readers, the second chosen by the value of the first. -/
def bindRun (r : Reader B α) (next : α → Reader B β) (stream : List B) : Option (β × List B) :=
  match r.run stream with
  | none => none
  | some (value, rest) => (next value).run rest

theorem bindRun_of_takes {r : Reader B α} {front : List B} {value : α} (takes : r.Takes front value)
    (next : α → Reader B β) (rest : List B) : bindRun r next (front ++ rest) = (next value).run rest := by
  rw [bindRun, takes rest]

protected def bind (r : Reader B α) (next : α → Reader B β) : Reader B β where
  run := bindRun r next
  front := by
    intro stream found rest finished
    rw [bindRun] at finished
    split at finished
    · cases finished
    next value middle first =>
        obtain ⟨front, rfl, takes⟩ := r.front first
        obtain ⟨back, rfl, also⟩ := (next value).front finished
        refine ⟨front ++ back, (List.append_assoc _ _ _).symm, ?_⟩
        intro more
        rw [List.append_assoc, bindRun_of_takes takes]
        exact also more

instance : Monad (Reader B) where
  pure := Reader.pure
  bind := Reader.bind

theorem takes_pure (value : α) : (pure value : Reader B α).Takes [] value := fun _ => rfl

theorem takes_pure_of_eq {value found : α} (same : value = found) : (pure value : Reader B α).Takes [] found := by
  rw [same]
  exact takes_pure found

theorem pure_takes {taken : List B} {value found : α} (takes : (pure value : Reader B α).Takes taken found) :
    taken = [] ∧ found = value := by
  obtain ⟨same, equal⟩ := takes.unique (takes_pure value) (List.append_nil taken)
  exact ⟨same, equal⟩

theorem Takes.bind {r : Reader B α} {next : α → Reader B β} {front back : List B} {value : α}
    {result : β} (takes : r.Takes front value) (also : (next value).Takes back result) :
    (r >>= next).Takes (front ++ back) result := by
  intro more
  change bindRun r next (front ++ back ++ more) = _
  rw [List.append_assoc, bindRun_of_takes takes]
  exact also more

/-- What a sequence takes is what its first reader takes, and what the second takes. -/
theorem takes_bind {r : Reader B α} {next : α → Reader B β} {taken : List B} {result : β} :
    (r >>= next).Takes taken result ↔
      ∃ front back value, taken = front ++ back ∧ r.Takes front value ∧
        (next value).Takes back result := by
  constructor
  · intro takes
    have whole := takes.run_self
    change bindRun r next taken = _ at whole
    rw [bindRun] at whole
    split at whole
    · cases whole
    next value rest first =>
        obtain ⟨front, split, also⟩ := r.front first
        exact ⟨front, rest, value, split, also, takes_of_run whole⟩
  · rintro ⟨front, back, value, rfl, takes, also⟩
    exact takes.bind also

theorem bind_nonempty {r : Reader B α} {next : α → Reader B β}
    (nonempty : ∀ {taken value}, r.Takes taken value → taken ≠ []) {taken : List B} {result : β}
    (takes : (r >>= next).Takes taken result) : taken ≠ [] := by
  obtain ⟨front, back, value, rfl, first, -⟩ := takes_bind.mp takes
  exact List.append_ne_nil_of_left_ne_nil (nonempty first) back

theorem Takes.bind_pure {r : Reader B α} {next : α → Reader B β} {taken : List B} {value : α}
    {result : β} (takes : r.Takes taken value) (also : (next value).Takes [] result) :
    (r >>= next).Takes taken result := by
  have both := takes.bind also
  rwa [List.append_nil] at both

/-- Read a value and forget it. -/
def drop (r : Reader B α) : Reader B Unit := do
  let _ ← r
  pure ()

theorem Takes.drop {r : Reader B α} {taken : List B} {value : α} (takes : r.Takes taken value) :
    r.drop.Takes taken () :=
  takes.bind_pure (takes_pure ())

/-- The same reader so many times. -/
def times (r : Reader B α) : Nat → Reader B (List α)
  | 0 => pure []
  | count + 1 => do
      let value ← r
      let values ← times r count
      pure (value :: values)

theorem takes_times {X : Type} {r : Reader B α} {items : List X} {cells : X → List B} {value : X → α}
    (each : ∀ item ∈ items, r.Takes (cells item) (value item)) :
    (r.times items.length).Takes (items.flatMap cells) (items.map value) := by
  induction items with
  | nil => exact takes_pure []
  | cons item items ih =>
      obtain ⟨here, later⟩ := List.forall_mem_cons.mp each
      rw [List.flatMap_cons]
      exact here.bind ((ih later).bind_pure (takes_pure _))

/-! ## Fields until a stop -/

/-- A header that is never empty: `none` is the stop. -/
structure Header (B H : Type) where
  reader : Reader B (Option H)
  nonempty : ∀ {taken header}, reader.Takes taken header → taken ≠ []

section Fields

variable {H : Type} (header : Header B H) (field : H → S → Reader B S)

/-- One field, or the stop. -/
def fieldRound (s : S) : Reader B (Option S × S) := do
  match ← header.reader with
  | none => pure (none, s)
  | some h =>
      let next ← field h s
      pure (some next, s)

/-- The rounds of the loop, with fuel. -/
def fieldLoop : Nat → S → List B → Option (S × List B)
  | 0, _, _ => none
  | fuel + 1, s, stream =>
      match (fieldRound header field s).run stream with
      | none => none
      | some ((none, last), rest) => some (last, rest)
      | some ((some next, _), rest) => fieldLoop fuel next rest

variable {header field}

theorem takes_fieldRound_stop {taken : List B} (takes : header.reader.Takes taken none) (s : S) :
    (fieldRound header field s).Takes taken (none, s) :=
  takes.bind_pure (takes_pure (none, s))

theorem takes_fieldRound_field {front back : List B} {h : H} {s next : S}
    (takes : header.reader.Takes front (some h)) (also : (field h s).Takes back next) :
    (fieldRound header field s).Takes (front ++ back) (some next, s) :=
  takes.bind (also.bind_pure (takes_pure (some next, s)))

theorem fieldRound_takes {taken : List B} {s : S} {found : Option S × S}
    (takes : (fieldRound header field s).Takes taken found) :
    (found = (none, s) ∧ header.reader.Takes taken none) ∨
    ∃ front back h next, taken = front ++ back ∧ found = (some next, s) ∧
      header.reader.Takes front (some h) ∧ (field h s).Takes back next := by
  obtain ⟨front, back, value, rfl, first, second⟩ := takes_bind.mp takes
  cases value with
  | none =>
      obtain ⟨rfl, rfl⟩ := pure_takes second
      rw [List.append_nil]
      exact .inl ⟨rfl, first⟩
  | some h =>
      obtain ⟨middle, tail, next, rfl, reads, ends⟩ := takes_bind.mp second
      obtain ⟨rfl, rfl⟩ := pure_takes ends
      rw [List.append_nil]
      exact .inr ⟨front, middle, h, next, rfl, rfl, first, reads⟩

theorem fieldRound_nonempty {taken : List B} {s : S} {found : Option S × S}
    (takes : (fieldRound header field s).Takes taken found) : taken ≠ [] := by
  rcases fieldRound_takes takes with ⟨-, stop⟩ | ⟨front, back, h, next, rfl, -, first, -⟩
  · exact header.nonempty stop
  · exact List.append_ne_nil_of_left_ne_nil (header.nonempty first) back

/-- The loop returns as soon as its fuel exceeds the number of cells it takes. -/
theorem fieldLoop_front {fuel : Nat} {s last : S} {stream rest : List B}
    (finished : fieldLoop header field fuel s stream = some (last, rest)) :
    ∃ taken, stream = taken ++ rest ∧ ∀ more enough, taken.length < enough →
      fieldLoop header field enough s (taken ++ more) = some (last, more) := by
  induction fuel generalizing s stream with
  | zero => cases finished
  | succ fuel ih =>
      rw [fieldLoop] at finished
      split at finished
      · cases finished
      next stop middle round =>
          cases finished
          obtain ⟨taken, rfl, takes⟩ := (fieldRound header field s).front round
          refine ⟨taken, rfl, ?_⟩
          intro more enough bound
          obtain ⟨enough, rfl⟩ := Nat.exists_eq_add_one_of_ne_zero (Nat.ne_of_gt (Nat.zero_lt_of_lt bound))
          rw [fieldLoop, takes more]
      next next old middle round =>
          obtain ⟨front, rfl, takes⟩ := (fieldRound header field s).front round
          obtain ⟨back, rfl, later⟩ := ih finished
          refine ⟨front ++ back, (List.append_assoc _ _ _).symm, ?_⟩
          intro more enough bound
          obtain ⟨enough, rfl⟩ := Nat.exists_eq_add_one_of_ne_zero (Nat.ne_of_gt (Nat.zero_lt_of_lt bound))
          have some_cells := List.length_pos_iff.mpr (fieldRound_nonempty takes)
          rw [List.length_append] at bound
          rw [fieldLoop, List.append_assoc, takes (back ++ more)]
          exact later more enough (by omega)

/-- Read fields until the stop: a header takes a cell at least, so the stream bounds the
number of rounds. -/
def fields (header : Header B H) (field : H → S → Reader B S) (s : S) : Reader B S where
  run stream := fieldLoop header field (stream.length + 1) s stream
  front := by
    intro stream last rest finished
    obtain ⟨taken, same, takes⟩ := fieldLoop_front finished
    refine ⟨taken, same, ?_⟩
    intro more
    refine takes more _ ?_
    rw [List.length_append]
    omega

/-- A sequence of fields with its stop, and what the fields make of a state. -/
inductive FieldsTake (header : Header B H) (field : H → S → Reader B S) : S → List B → S → Prop where
  | stop {s : S} {taken : List B} (takes : header.reader.Takes taken none) :
      FieldsTake header field s taken s
  | field {s next last : S} {front back later : List B} {h : H}
      (takes : header.reader.Takes front (some h)) (reads : (field h s).Takes back next)
      (further : FieldsTake header field next later last) :
      FieldsTake header field s (front ++ (back ++ later)) last

theorem FieldsTake.takes {s last : S} {taken : List B} (sequence : FieldsTake header field s taken last) :
    (fields header field s).Takes taken last := by
  induction sequence with
  | @stop s taken takes =>
      intro more
      change fieldLoop header field _ s (taken ++ more) = _
      rw [fieldLoop, takes_fieldRound_stop takes s more]
  | @field s next last front back later h takes reads _ ih =>
      intro more
      have round := takes_fieldRound_field takes reads
      obtain ⟨taken, same, enough⟩ := fieldLoop_front (ih more)
      obtain rfl : later = taken := List.append_cancel_right same
      change fieldLoop header field _ s (front ++ (back ++ later) ++ more) = _
      rw [fieldLoop, ← List.append_assoc, List.append_assoc (front ++ back), round (later ++ more)]
      refine enough more _ ?_
      have some_cells := List.length_pos_iff.mpr (header.nonempty takes)
      simp only [List.length_append]
      omega

theorem fieldLoop_sequence {fuel : Nat} {s last : S} {stream : List B}
    (finished : fieldLoop header field fuel s stream = some (last, [])) :
    FieldsTake header field s stream last := by
  induction fuel generalizing s stream with
  | zero => cases finished
  | succ fuel ih =>
      rw [fieldLoop] at finished
      split at finished
      · cases finished
      next stop middle round =>
          cases finished
          rcases fieldRound_takes (takes_of_run round) with ⟨same, stop⟩ | ⟨_, _, _, _, _, same, _⟩
          · cases same
            exact .stop stop
          · cases same
      next next old rest round =>
          obtain ⟨taken, rfl, takes⟩ := (fieldRound header field s).front round
          rcases fieldRound_takes takes with ⟨same, _⟩ | ⟨front, back, h, _, rfl, same, first, reads⟩
          · cases same
          · cases same
            rw [List.append_assoc]
            exact .field first reads (ih finished)

/-- What the loop takes is a sequence of fields with its stop. -/
theorem takes_fields_iff {s last : S} {taken : List B} :
    (fields header field s).Takes taken last ↔ FieldsTake header field s taken last :=
  ⟨fun takes => fieldLoop_sequence takes.run_self, FieldsTake.takes⟩

end Fields

end Reader

end CppProject.Library.Wire
