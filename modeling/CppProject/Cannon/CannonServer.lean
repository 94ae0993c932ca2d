import CppProject.Cannon.PartialRecords

/-!
# `CannonHandler::get`

A request is a string of keys without separators, and the response is a list of
statuses and a string of values.  The handler strides over the request by the key size
of its store.
-/

namespace CppProject.Cannon

open Library Library.Checked Library.Records

inductive ItemStatus where
  | found
  | notFound
  | error
  deriving DecidableEq, Repr

inductive Status where
  | ok
  | partialOk
  | error
  deriving DecidableEq, Repr

structure CannonRequest where
  keys : List Byte
  deriving DecidableEq, Repr

structure CannonResponse where
  status : Status
  valueStatuses : List ItemStatus
  values : List Byte
  deriving DecidableEq, Repr

namespace CannonHandler

open ImmutableHashMap

/-- The variables of the loop over the keys. -/
structure GetState where
  pos : Nat
  res : CannonResponse
  deriving DecidableEq, Repr

/-- The response is empty when `get` is called, and its status is set to `OK` first. -/
def GetState.begin : GetState := ⟨0, ⟨.ok, [], []⟩⟩

section Hashed

variable (hash : List Byte → Nat) (store : ImmutableHashMap) (req : CannonRequest)

/-- One round of the loop over the keys. -/
def getRound (s : GetState) : Except Fault (Option GetState) :=
  if s.pos < req.keys.length then do
    let key ← readBlock req.keys s.pos store.keySize
    match ← seekValue hash store key with
    | some value =>
        let res := { s.res with
          valueStatuses := s.res.valueStatuses ++ [.found]
          values := s.res.values ++ value }
        .ok (some ⟨s.pos + store.keySize, res⟩)
    | none =>
        let res := {
          status := .partialOk
          valueStatuses := s.res.valueStatuses ++ [.notFound]
          values := s.res.values ++ List.replicate store.valueSize 0 }
        .ok (some ⟨s.pos + store.keySize, res⟩)
  else .ok none

/-- `get` with fuel for its loop.  The message that it logs divides by the key size. -/
def getOn (fuel : Nat) : Except Fault CannonResponse := do
  let last ← whileLoop (getRound hash store req) fuel GetState.begin
  if store.keySize = 0 then .error .divisionByZero else .ok last.res

/-- `get`: every key has a byte at least. -/
def get : Except Fault CannonResponse := getOn hash store req (req.keys.length + 1)

end Hashed

/-! ## Answers, one for each key -/

def itemStatus : Option (List Byte) → ItemStatus
  | some _ => .found
  | none => .notFound

/-- The bytes of an answer: those of the value, or the placeholder for a missing key. -/
def itemValue (valueSize : Nat) : Option (List Byte) → List Byte
  | some value => value
  | none => List.replicate valueSize 0

/-- The response that holds one answer behind the other. -/
def respond (valueSize : Nat) (answers : List (Option (List Byte))) : CannonResponse where
  status := if answers.all Option.isSome then .ok else .partialOk
  valueStatuses := answers.map itemStatus
  values := (answers.map (itemValue valueSize)).flatten

theorem respond_snoc (valueSize : Nat) (answers : List (Option (List Byte)))
    (answer : Option (List Byte)) :
    respond valueSize (answers ++ [answer]) =
      { status := if answer.isSome then (respond valueSize answers).status else .partialOk
        valueStatuses := (respond valueSize answers).valueStatuses ++ [itemStatus answer]
        values := (respond valueSize answers).values ++ itemValue valueSize answer } := by
  cases answer with
  | none => simp [respond]
  | some value => simp [respond]

section Get

variable {hash : List Byte → Nat} {store : ImmutableHashMap} {req : CannonRequest}

/-- What the store has under a key, if the key is answered at all. -/
def stored (hash : List Byte → Nat) (store : ImmutableHashMap) (q : List Byte) : Option (List Byte) :=
  match seekValue hash store q with
  | .ok answer => answer
  | .error _ => none

theorem stored_eq {q : List Byte} {answer : Option (List Byte)}
    (lookup : seekValue hash store q = .ok answer) : stored hash store q = answer := by
  rw [stored, lookup]

/-- A round that reads a key inside the request adds the answer of the store. -/
theorem getRound_key {s : GetState} {key : List Byte} (more : s.pos < req.keys.length)
    (read : readBlock req.keys s.pos store.keySize = .ok key) :
    getRound hash store req s = seekValue hash store key >>= fun answer =>
      .ok (some ⟨s.pos + store.keySize,
        { status := if answer.isSome then s.res.status else .partialOk
          valueStatuses := s.res.valueStatuses ++ [itemStatus answer]
          values := s.res.values ++ itemValue store.valueSize answer }⟩) := by
  rw [getRound, if_pos more, read, ok_bind]
  cases seekValue hash store key with
  | error fault => rfl
  | ok answer => cases answer <;> rfl

/-- The loop over whole keys adds one answer for each of them, or stops at a key that the
store cannot answer. -/
theorem loop_keys {qs : List (List Byte)} (key_pos : 0 < store.keySize)
    (sized : ∀ q ∈ qs, q.length = store.keySize) {front : List Byte}
    (split : req.keys = front ++ qs.flatten) {fuel : Nat} (enough : qs.length < fuel)
    (done : List (Option (List Byte))) :
    ((∀ q ∈ qs, ∃ answer, seekValue hash store q = .ok answer) ∧
      whileLoop (getRound hash store req) fuel ⟨front.length, respond store.valueSize done⟩ =
        .ok ⟨req.keys.length, respond store.valueSize (done ++ qs.map (stored hash store))⟩) ∨
    ((∃ q ∈ qs, ∀ answer, seekValue hash store q ≠ .ok answer) ∧
      ∃ fault, whileLoop (getRound hash store req) fuel
        ⟨front.length, respond store.valueSize done⟩ = .error fault) := by
  induction qs generalizing front fuel done with
  | nil =>
      left
      obtain ⟨fuel, rfl⟩ := Nat.exists_eq_succ_of_ne_zero (Nat.ne_of_gt enough)
      have finished : req.keys.length = front.length := by
        rw [split, List.flatten_nil, List.append_nil]
      refine ⟨List.forall_mem_nil _, ?_⟩
      rw [List.map_nil, List.append_nil, finished, whileLoop, getRound,
        if_neg (by rw [finished]; exact Nat.lt_irrefl _)]
  | cons q rest ih =>
      obtain ⟨fuel, rfl⟩ := Nat.exists_eq_succ_of_ne_zero (Nat.ne_zero_of_lt enough)
      obtain ⟨q_size, rest_sized⟩ := List.forall_mem_cons.mp sized
      have length : req.keys.length = front.length + (store.keySize + rest.flatten.length) := by
        rw [split, List.length_append, List.flatten_cons, List.length_append, q_size]
      have read : readBlock req.keys front.length store.keySize = .ok q := by
        rw [readBlock_of_le (by omega), slice, split, List.drop_left, List.flatten_cons, ← q_size,
          List.take_left]
      have round := @getRound_key hash store req ⟨front.length, respond store.valueSize done⟩ q
        (by change front.length < _; omega) read
      rw [whileLoop, round]
      cases lookup : seekValue hash store q with
      | error fault =>
          right
          refine ⟨⟨q, List.mem_cons_self, fun answer same => ?_⟩, fault, rfl⟩
          rw [lookup] at same
          cases same
      | ok answer =>
          have next : req.keys = (front ++ q) ++ rest.flatten := by
            rw [split, List.flatten_cons, List.append_assoc]
          have later := ih rest_sized next (Nat.lt_of_succ_lt_succ enough) (done ++ [answer])
          rw [List.length_append, q_size, respond_snoc] at later
          rcases later with ⟨each, run⟩ | ⟨⟨q', member, without⟩, stop⟩
          · left
            refine ⟨List.forall_mem_cons.mpr ⟨⟨answer, lookup⟩, each⟩, ?_⟩
            rw [List.map_cons, stored_eq lookup, List.append_cons done answer]
            exact run
          · exact Or.inr ⟨⟨q', List.mem_cons_of_mem _ member, without⟩, stop⟩

/-- On whole keys `get` responds with one answer for each key, if the store has them all. -/
theorem get_keys {qs : List (List Byte)} (key_pos : 0 < store.keySize)
    (sized : ∀ q ∈ qs, q.length = store.keySize) :
    ((∀ q ∈ qs, ∃ answer, seekValue hash store q = .ok answer) ∧
      get hash store ⟨qs.flatten⟩ = .ok (respond store.valueSize (qs.map (stored hash store)))) ∨
    ((∃ q ∈ qs, ∀ answer, seekValue hash store q ≠ .ok answer) ∧
      ∃ fault, get hash store ⟨qs.flatten⟩ = .error fault) := by
  have length := length_flatten_blocks sized
  have enough : qs.length < qs.flatten.length + 1 := by
    have := Nat.le_mul_of_pos_right qs.length key_pos
    omega
  have begun : GetState.begin = ⟨([] : List Byte).length, respond store.valueSize []⟩ := rfl
  unfold get getOn
  rw [begun]
  rcases @loop_keys hash store ⟨qs.flatten⟩ qs key_pos sized [] rfl _ enough [] with
    ⟨each, run⟩ | ⟨without, fault, stop⟩
  · left
    refine ⟨each, ?_⟩
    rw [run, ok_bind, if_neg (Nat.ne_of_gt key_pos), List.nil_append]
  · right
    rw [stop]
    exact ⟨without, fault, rfl⟩

/-- `get` returns on whole keys exactly when the store answers all of them. -/
theorem get_eq_ok {qs : List (List Byte)} (key_pos : 0 < store.keySize)
    (sized : ∀ q ∈ qs, q.length = store.keySize) {response : CannonResponse} :
    get hash store ⟨qs.flatten⟩ = .ok response ↔
      (∀ q ∈ qs, ∃ answer, seekValue hash store q = .ok answer) ∧
        response = respond store.valueSize (qs.map (stored hash store)) := by
  rcases @get_keys hash store qs key_pos sized with ⟨each, run⟩ | ⟨⟨q, member, without⟩, fault, stop⟩
  · rw [run, and_iff_right each]
    exact ⟨fun same => (Except.ok.inj same).symm, fun same => congrArg _ same.symm⟩
  · rw [stop]
    refine iff_of_false (fun impossible => by cases impossible) ?_
    rintro ⟨each, _⟩
    obtain ⟨answer, lookup⟩ := each q member
    exact without answer lookup

/-! ## Positions of the answers -/

/-- The response has one status and one value slot for each key: the status and the stored
bytes of the key at its position, or the placeholder. -/
structure Positional (hash : List Byte → Nat) (store : ImmutableHashMap) (qs : List (List Byte))
    (response : CannonResponse) : Prop where
  statuses_length : response.valueStatuses.length = qs.length
  values_length : response.values.length = qs.length * store.valueSize
  item : ∀ i q, qs[i]? = some q →
    (∃ pos, seek hash store q = .ok (some pos) ∧ response.valueStatuses[i]? = some .found ∧
      readBlock store.table pos store.valueSize = .ok (record store.valueSize response.values i)) ∨
    (seek hash store q = .ok none ∧ response.valueStatuses[i]? = some .notFound ∧
      record store.valueSize response.values i = List.replicate store.valueSize 0)
  status_eq : response.status =
    if ∀ status ∈ response.valueStatuses, status = .found then .ok else .partialOk

theorem seekValue_some {q value : List Byte} (lookup : seekValue hash store q = .ok (some value)) :
    ∃ pos, seek hash store q = .ok (some pos) ∧
      readBlock store.table pos store.valueSize = .ok value := by
  obtain ⟨found, sought, answer⟩ := bind_eq_ok.mp lookup
  cases found with
  | none => cases answer
  | some pos =>
      obtain ⟨stored, read, same⟩ := bind_eq_ok.mp answer
      cases same
      exact ⟨pos, sought, read⟩

theorem seekValue_none {q : List Byte} (lookup : seekValue hash store q = .ok none) :
    seek hash store q = .ok none := by
  obtain ⟨found, sought, answer⟩ := bind_eq_ok.mp lookup
  cases found with
  | none => exact sought
  | some pos =>
      obtain ⟨stored, read, same⟩ := bind_eq_ok.mp answer
      cases same

theorem itemValue_length {q : List Byte} {answer : Option (List Byte)}
    (lookup : seekValue hash store q = .ok answer) :
    (itemValue store.valueSize answer).length = store.valueSize := by
  cases answer with
  | none => exact List.length_replicate
  | some value =>
      obtain ⟨pos, _, read⟩ := seekValue_some lookup
      have inside := readBlock_inside read
      rw [readBlock_of_le inside] at read
      cases read
      exact slice_length inside

theorem respond_positional {qs : List (List Byte)}
    (each : ∀ q ∈ qs, ∃ answer, seekValue hash store q = .ok answer) :
    Positional hash store qs (respond store.valueSize (qs.map (stored hash store))) := by
  have sized : ∀ block ∈ (qs.map (stored hash store)).map (itemValue store.valueSize),
      block.length = store.valueSize := by
    rw [List.map_map]
    intro block member
    obtain ⟨q, from_qs, rfl⟩ := List.mem_map.mp member
    obtain ⟨answer, lookup⟩ := each q from_qs
    rw [Function.comp_apply, stored_eq lookup]
    exact itemValue_length lookup
  refine ⟨?_, ?_, fun i q here => ?_, ?_⟩
  · rw [respond, List.length_map, List.length_map]
  · rw [respond, length_flatten_blocks sized, List.length_map, List.length_map]
  · obtain ⟨answer, lookup⟩ := each q (List.mem_of_getElem? here)
    have status : (respond store.valueSize (qs.map (stored hash store))).valueStatuses[i]? =
        some (itemStatus answer) := by
      rw [respond, List.getElem?_map, List.getElem?_map, here, Option.map_some, Option.map_some,
        stored_eq lookup]
    have value : record store.valueSize
        (respond store.valueSize (qs.map (stored hash store))).values i =
          itemValue store.valueSize answer := by
      apply record_flatten_blocks sized
      rw [List.getElem?_map, List.getElem?_map, here, Option.map_some, Option.map_some,
        stored_eq lookup]
    rw [status, value]
    cases answer with
    | none => exact Or.inr ⟨seekValue_none lookup, rfl, rfl⟩
    | some bytes =>
        obtain ⟨pos, sought, read⟩ := seekValue_some lookup
        exact Or.inl ⟨pos, sought, rfl, read⟩
  · have same : ∀ answer : Option (List Byte), itemStatus answer = .found ↔ answer.isSome = true := by
      intro answer
      cases answer <;> simp [itemStatus]
    simp only [respond, List.forall_mem_map, same, List.all_eq_true]

end Get

end CannonHandler

end CppProject.Cannon
