import CppProject.CannonProxy.Answers
import CppProject.CannonProxy.Uninterrupted

/-!
# Snapshots

In every interleaving a version is served from the content that its slots have at
the moment it becomes current, until a clear of the version is processed.
-/

namespace CppProject.CannonProxy

open Library Library.Checked Library.Runs

variable {V : Type} [Zero V] {n : Nat}

/-- The state of the run at the moment the version became current. -/
def becameCurrent (n : Nat) (shards : Nat → Storage V) (events : List (Event V)) (v : Nat) :
    Option (System V) :=
  firstState (System.step n) (fun s => s.dataVersion = v) (System.init shards) events

/-- The first event clears version `v` on the shard on which the later one is a query
of call `g`. -/
def late (v g : Nat) : Event V → Event V → Bool
  | .reload (.clear u i), .get h (.query j) => u = v && h = g && i = j
  | _, _ => false

/-- No query of call `g` is processed after a clear of version `v` on its shard. -/
def Timely (events : List (Event V)) (v g : Nat) : Prop :=
  events.Pairwise fun first later => late v g first later = false

instance (events : List (Event V)) (v g : Nat) : Decidable (Timely events v g) :=
  inferInstanceAs (Decidable (List.Pairwise _ _))

/-! ## Versions -/

/-- The versions below `v` have been cleared on all shards. -/
def ClearedBelow (n : Nat) (events : List (Event V)) (v : Nat) : Prop :=
  ∀ u, u < v → ∀ i, i < n → Event.reload (.clear u i) ∈ events

/-- How far the versions below the current one are cleared, by what the running
`reload` call does. -/
inductive Retiring (n : Nat) (events : List (Event V)) (dataVersion : Nat) : ReloadPhase V → Prop where
  | idle (below : ClearedBelow n events dataVersion) : Retiring n events dataVersion .idle
  | reading (ret : Bool) (blocks : List (List (CannonKV V)))
      (below : ClearedBelow n events dataVersion) :
      Retiring n events dataVersion (.reading ret blocks)
  | inserting (ret : Bool) (blocks : List (List (CannonKV V))) (inserts : Round (List (CannonKV V)))
      (below : ClearedBelow n events dataVersion) :
      Retiring n events dataVersion (.inserting ret blocks (dataVersion + 1) inserts)
  | clearing (ret : Bool) (old : Nat) (clears : Round Unit) (current : old + 1 = dataVersion)
      (below : ClearedBelow n events old)
      (waiting : ∀ i, i < n → Event.reload (.clear old i) ∈ events ∨ (i, ()) ∈ clears.pending) :
      Retiring n events dataVersion (.clearing ret old clears)

/-- What holds of the versions in every state of a run. -/
structure Versions (n : Nat) (shards : Nat → Storage V) (events : List (Event V)) (s : System V) :
    Prop where
  locked : s.isLoading = false → s.phase = .idle
  retiring : Retiring n events s.dataVersion s.phase
  kept : ∀ v, v ≤ s.dataVersion → ∃ moment, becameCurrent n shards events v = some moment ∧
    ∀ i, i < n → Event.reload (.clear v i) ∈ events ∨ (s.shards i).slot v = (moment.shards i).slot v
  unborn : ∀ v, s.dataVersion < v → becameCurrent n shards events v = none

section Versions

variable {shards : Nat → Storage V} {events : List (Event V)} {s next : System V} {event : Event V}

omit [Zero V] in
theorem ClearedBelow.append {v : Nat} (below : ClearedBelow n events v) (rest : List (Event V)) :
    ClearedBelow n (events ++ rest) v :=
  fun u lower i inside => List.mem_append_left rest (below u lower i inside)

omit [Zero V] in
theorem Retiring.append {dataVersion : Nat} {phase : ReloadPhase V}
    (retiring : Retiring n events dataVersion phase) (rest : List (Event V)) :
    Retiring n (events ++ rest) dataVersion phase := by
  cases retiring with
  | idle below => exact .idle (below.append rest)
  | reading ret blocks below => exact .reading ret blocks (below.append rest)
  | inserting ret blocks inserts below => exact .inserting ret blocks inserts (below.append rest)
  | clearing ret old clears current below waiting =>
      exact .clearing ret old clears current (below.append rest) fun i inside =>
        (waiting i inside).imp_left (List.mem_append_left rest)

theorem versions_init (n : Nat) (shards : Nat → Storage V) :
    Versions n shards [] (System.init shards) := by
  refine ⟨fun _ => rfl, .idle fun u lower => absurd lower (Nat.not_lt_zero u), ?_, ?_⟩
  · intro v current
    obtain rfl := Nat.le_zero.mp current
    exact ⟨System.init shards, rfl, fun i _ => Or.inr rfl⟩
  · intro v later
    have other : ¬(System.init shards).dataVersion = v := Nat.ne_of_lt later
    simp [becameCurrent, firstState, other]

theorem becameCurrent_append {v : Nat} {moment : System V}
    (became : becameCurrent n shards events v = some moment) (rest : List (Event V)) :
    becameCurrent n shards (events ++ rest) v = some moment :=
  firstState_append became rest

theorem becameCurrent_snoc {v : Nat}
    (steps : run (System.step n) (System.init shards) events = some s)
    (unborn : becameCurrent n shards events v = none) (here : s.step n event = some next) :
    becameCurrent n shards (events ++ [event]) v =
      if next.dataVersion = v then some next else none := by
  simpa [becameCurrent] using firstState_snoc steps unborn here

/-- A step that keeps the version, and every slot that is not cleared. -/
theorem Versions.keep (versions : Versions n shards events s)
    (steps : run (System.step n) (System.init shards) events = some s)
    (here : s.step n event = some next) (locked : next.isLoading = false → next.phase = .idle)
    (same : next.dataVersion = s.dataVersion)
    (retiring : Retiring n (events ++ [event]) s.dataVersion next.phase)
    (slots : ∀ v, v ≤ s.dataVersion → ∀ i, i < n → Event.reload (.clear v i) ∈ events ++ [event] ∨
      (next.shards i).slot v = (s.shards i).slot v) :
    Versions n shards (events ++ [event]) next := by
  refine ⟨locked, by rwa [same], ?_, ?_⟩
  · intro v current
    rw [same] at current
    obtain ⟨moment, became, kept⟩ := versions.kept v current
    refine ⟨moment, becameCurrent_append became [event], ?_⟩
    intro i inside
    rcases slots v current i inside with cleared | still
    · exact Or.inl cleared
    · exact (kept i inside).imp (List.mem_append_left [event]) still.trans
  · intro v later
    rw [same] at later
    rw [becameCurrent_snoc steps (versions.unborn v later) here, if_neg (by omega)]

omit [Zero V] in
/-- The slots of the next version are not those of the current one, and the older ones
have been cleared. -/
theorem ClearedBelow.insert {v i : Nat} (below : ClearedBelow n events s.dataVersion)
    (current : v ≤ s.dataVersion) (inside : i < n) (kvs : List (CannonKV V)) :
    Event.reload (.clear v i) ∈ events ∨
      (CannonHandler.insert (s.dataVersion + 1) kvs (s.shards i)).2.slot v = (s.shards i).slot v := by
  rcases Nat.lt_or_eq_of_le current with older | rfl
  · exact Or.inl (below v older i inside)
  · exact Or.inr ((handler_insert_spec _ _ _).2.2 _ (getIndex_succ_ne _).symm)

omit [Zero V] in
/-- A processed clear empties the slot of its version and no newer one. -/
theorem ClearedBelow.clear {old v i : Nat} (below : ClearedBelow n events old) (lower : v ≤ old + 1)
    (inside : i < n) :
    Event.reload (.clear v i) ∈ events ++ [.reload (.clear old i)] ∨
      (CannonHandler.clearData (s.shards i) old).2.slot v = (s.shards i).slot v := by
  rcases Nat.lt_trichotomy v old with older | rfl | newer
  · exact Or.inl (List.mem_append_left _ (below v older i inside))
  · exact Or.inl (List.mem_append_right _ List.mem_cons_self)
  · obtain rfl : v = old + 1 := Nat.le_antisymm lower newer
    exact Or.inr (slot_withSlot_of_ne _ _ (getIndex_succ_ne old) _)

omit [Zero V] in
theorem ClearedBelow.succ {old : Nat} (below : ClearedBelow n events old)
    (cleared : ∀ i, i < n → Event.reload (.clear old i) ∈ events) :
    ClearedBelow n events (old + 1) := by
  intro u lower i inside
  rcases Nat.lt_succ_iff_lt_or_eq.mp lower with older | rfl
  · exact below u older i inside
  · exact cleared i inside

omit [Zero V] in
/-- The clears that are not processed yet, behind the one of shard `i`. -/
theorem waiting_clear {old i : Nat} {clears left : Round Unit}
    (waiting : ∀ j, j < n → Event.reload (.clear old j) ∈ events ∨ (j, ()) ∈ clears.pending)
    (take : clears.take i = some ((), left)) :
    ∀ j, j < n → Event.reload (.clear old j) ∈ events ++ [.reload (.clear old i)] ∨
      (j, ()) ∈ left.pending := by
  intro j inside
  rcases eq_or_ne j i with rfl | other
  · exact Or.inl (List.mem_append_right _ List.mem_cons_self)
  · exact (waiting j inside).imp (List.mem_append_left _)
      fun still => Round.pending_take_of_ne take still other

/-- A step of the running `reload` call that changes only its phase. -/
theorem Versions.phase (versions : Versions n shards events s)
    (steps : run (System.step n) (System.init shards) events = some s) {phase : ReloadPhase V}
    {event : Event V} (here : s.step n event = some { s with phase := phase })
    (running : s.phase ≠ .idle) (retiring : Retiring n events s.dataVersion phase) :
    Versions n shards (events ++ [event]) { s with phase := phase } := by
  refine versions.keep steps here ?_ rfl (retiring.append [event]) fun _ _ _ _ => Or.inr rfl
  intro idle
  exact absurd (versions.locked idle) running

/-- A step of the running `reload` call that one server processes. -/
theorem Versions.store (versions : Versions n shards events s)
    (steps : run (System.step n) (System.init shards) events = some s) {i : Nat} {stored : Storage V}
    {phase : ReloadPhase V}
    (here : s.step n event =
      some { s with shards := Function.update s.shards i stored, phase := phase })
    (running : s.phase ≠ .idle) (retiring : Retiring n (events ++ [event]) s.dataVersion phase)
    (slots : ∀ v, v ≤ s.dataVersion → i < n → Event.reload (.clear v i) ∈ events ++ [event] ∨
      stored.slot v = (s.shards i).slot v) :
    Versions n shards (events ++ [event])
      { s with shards := Function.update s.shards i stored, phase := phase } := by
  refine versions.keep steps here ?_ rfl retiring ?_
  · intro idle
    exact absurd (versions.locked idle) running
  · intro v current j inside
    rcases eq_or_ne j i with rfl | other
    · simpa using slots v current inside
    · simp [Function.update_of_ne other]

/-- Publishing makes the slots of the next version the current ones. -/
theorem Versions.publish (versions : Versions n shards events s)
    (steps : run (System.step n) (System.init shards) events = some s) {phase : ReloadPhase V}
    (here : s.step n event = some { s with dataVersion := s.dataVersion + 1, phase := phase })
    (running : s.phase ≠ .idle)
    (retiring : Retiring n (events ++ [event]) (s.dataVersion + 1) phase) :
    Versions n shards (events ++ [event])
      { s with dataVersion := s.dataVersion + 1, phase := phase } := by
  refine ⟨?_, retiring, ?_, ?_⟩
  · intro idle
    exact absurd (versions.locked idle) running
  · intro v current
    rcases Nat.lt_or_eq_of_le current with older | rfl
    · obtain ⟨moment, became, kept⟩ := versions.kept v (Nat.le_of_lt_succ older)
      refine ⟨moment, becameCurrent_append became [event], ?_⟩
      exact fun i inside => (kept i inside).imp_left (List.mem_append_left [event])
    · refine ⟨_, ?_, fun i _ => Or.inr rfl⟩
      rw [becameCurrent_snoc steps (versions.unborn _ (Nat.lt_succ_self _)) here, if_pos rfl]
  · intro v later
    rw [becameCurrent_snoc steps (versions.unborn v (Nat.lt_of_succ_lt later)) here,
      if_neg (Nat.ne_of_lt later)]

/-- A step of the running `reload` call. -/
theorem Versions.stepReload (versions : Versions n shards events s)
    (steps : run (System.step n) (System.init shards) events = some s) {event : ReloadEvent}
    (here : s.stepReload n event = some next) :
    Versions n shards (events ++ [.reload event]) next := by
  have step : s.step n (.reload event) = some next := here
  have retiring := versions.retiring
  cases System.stepReload_cases here with
  | emptyBlock phase =>
      rw [phase] at retiring
      cases retiring with
      | reading _ _ below => exact versions.phase steps step (by simp [phase]) (.reading _ _ below)
  | nextBlock phase collected =>
      rw [phase] at retiring
      cases retiring with
      | reading _ _ below =>
          exact versions.phase steps step (by simp [phase]) (.inserting _ _ _ below)
  | enqueueInsert phase send =>
      rw [phase] at retiring
      cases retiring with
      | inserting _ _ _ below =>
          exact versions.phase steps step (by simp [phase]) (.inserting _ _ _ below)
  | insert phase take =>
      rw [phase] at retiring
      cases retiring with
      | inserting _ _ _ below =>
          refine versions.store steps step (by simp [phase])
            ((Retiring.inserting _ _ _ below).append _) ?_
          intro v current inside
          exact (below.insert current inside _).imp_left (List.mem_append_left _)
  | endBlock phase done =>
      rw [phase] at retiring
      cases retiring with
      | inserting _ _ _ below =>
          exact versions.phase steps step (by simp [phase]) (.reading _ _ below)
  | publish phase =>
      rw [phase] at retiring
      cases retiring with
      | reading _ _ below =>
          refine versions.publish steps step (by simp [phase])
            (.clearing true _ _ rfl (below.append _) ?_)
          intro i inside
          refine Or.inr ?_
          rw [Round.pending_start]
          exact List.mem_map.mpr ⟨i, List.mem_range.mpr inside, rfl⟩
  | enqueueClear phase send =>
      rw [phase] at retiring
      cases retiring with
      | clearing _ _ _ current below waiting =>
          refine versions.phase steps step (by simp [phase]) (.clearing _ _ _ current below ?_)
          exact fun i inside => (waiting i inside).imp_right (Round.mem_pending_send send).mpr
  | clear phase take =>
      rw [phase] at retiring
      cases retiring with
      | clearing _ _ _ current below waiting =>
          refine versions.store steps step (by simp [phase])
            (.clearing _ _ _ current (below.append _) ?_) ?_
          · exact waiting_clear waiting take
          · rw [← current]
            exact fun v lower inside => below.clear lower inside
  | finish phase done =>
      rw [phase] at retiring
      cases retiring with
      | clearing _ _ _ current below waiting =>
          refine versions.keep steps step (fun _ => rfl) rfl (.idle (ClearedBelow.append ?_ _))
            fun _ _ _ _ => Or.inr rfl
          rw [Round.isDone_iff.mp done] at waiting
          rw [← current]
          exact below.succ fun i inside => (waiting i inside).resolve_right List.not_mem_nil
  | giveUp phase =>
      rw [phase] at retiring
      cases retiring with
      | reading _ _ below =>
          exact versions.keep steps step (fun _ => rfl) rfl (.idle (below.append _))
            fun _ _ _ _ => Or.inr rfl

theorem Versions.step (versions : Versions n shards events s)
    (steps : run (System.step n) (System.init shards) events = some s)
    (here : s.step n event = some next) : Versions n shards (events ++ [event]) next := by
  cases event with
  | reload event => exact versions.stepReload steps here
  | beginGet g keys =>
      have step := here
      simp only [System.step] at here
      split at here
      · cases here
        exact versions.keep steps step versions.locked rfl (versions.retiring.append _)
          fun _ _ _ _ => Or.inr rfl
      · cases here
  | get g event =>
      have step := here
      simp only [System.step] at here
      split at here
      · cases here
      · split at here
        · cases here
        · cases here
          exact versions.keep steps step versions.locked rfl (versions.retiring.append _)
            fun _ _ _ _ => Or.inr rfl
  | beginReload call =>
      have step := here
      simp only [System.step] at here
      split at here
      · cases here
        exact versions.keep steps step versions.locked rfl (versions.retiring.append _)
          fun _ _ _ _ => Or.inr rfl
      next free =>
        have idle := versions.locked (by simpa using free)
        have retiring := versions.retiring
        rw [idle] at retiring
        cases retiring with
        | idle below =>
            split at here
            · cases here
              refine versions.keep steps step (fun unlocked => by cases unlocked) rfl ?_
                fun _ _ _ _ => Or.inr rfl
              simpa only [idle] using Retiring.idle (below.append _)
            · cases here
              exact versions.keep steps step (fun unlocked => by cases unlocked) rfl
                (.reading true _ (below.append _)) fun _ _ _ _ => Or.inr rfl

theorem versions_run (steps : run (System.step n) (System.init shards) events = some s) :
    Versions n shards events s :=
  run_induction (versions_init n shards) (fun _ _ _ _ begun versions here => versions.step begun here)
    steps

end Versions

/-! ## Queries -/

/-- The result is what a server has answered to the query of shard `i`, at a moment
when `v` was a version. -/
def Answered (n : Nat) (shards : Nat → Storage V) (events : List (Event V)) (g v i : Nat)
    (keys : List Int64) (result : Option (List (ValueItem V))) : Prop :=
  ∃ before after s, events = before ++ .get g (.query i) :: after ∧
    run (System.step n) (System.init shards) before = some s ∧ v ≤ s.dataVersion ∧
    result = some (CannonHandler.get (s.shards i) keys v).values

/-- What holds of a `get` call in every state of a run, by the version of the state. -/
structure Tracked (n : Nat) (shards : Nat → Storage V) (events : List (Event V)) (current : Nat)
    (g : Nat) (call : GetCall V) : Prop where
  collected : shardInto id n call.keys (List.replicate n []) = .ok call.shardingKeys
  requested : ∀ request ∈ call.queries.pending, request ∈ requestsFrom 0 call.shardingKeys
  version : ∀ v, call.dataVersion = some v → v ≤ current ∧
    ∀ i keys, (i, keys) ∈ requestsFrom 0 call.shardingKeys →
      (i, keys) ∈ call.queries.pending ∨ Answered n shards events g v i keys (call.results i)
  unread : call.dataVersion = none → call.response = none
  finished : ∀ response, call.response = some response → call.queries.pending = [] ∧
    response = gather (keyIdxFrom 0 (fun _ => 0) call.keys) call.shardingKeys call.replies
      ⟨.ok, List.replicate call.keys.length (ValueItem.init V)⟩

section Queries

variable {shards : Nat → Storage V} {events : List (Event V)} {s next : System V} {event : Event V}
  {g : Nat} {call : GetCall V}

theorem Answered.append {v i : Nat} {keys : List Int64} {result : Option (List (ValueItem V))}
    (answered : Answered n shards events g v i keys result) (rest : List (Event V)) :
    Answered n shards (events ++ rest) g v i keys result := by
  obtain ⟨before, after, s, rfl, begun, current, answer⟩ := answered
  exact ⟨before, after ++ rest, s, by simp, begun, current, answer⟩

theorem Tracked.append {current later : Nat} (tracked : Tracked n shards events current g call)
    (further : current ≤ later) (rest : List (Event V)) :
    Tracked n shards (events ++ rest) later g call := by
  refine ⟨tracked.collected, tracked.requested, ?_, tracked.unread, tracked.finished⟩
  intro v read
  obtain ⟨known, answered⟩ := tracked.version v read
  exact ⟨Nat.le_trans known further, fun i keys member =>
    (answered i keys member).imp_right fun answer => answer.append rest⟩

/-- A step of the call itself. -/
theorem Tracked.step (tracked : Tracked n shards events s.dataVersion g call)
    (steps : run (System.step n) (System.init shards) events = some s) {event : GetEvent}
    {after : GetCall V} (here : call.step s.toWorld event = some after) :
    Tracked n shards (events ++ [.get g event]) s.dataVersion g after := by
  obtain ⟨collected, requested, version, unread, finished⟩ := tracked
  cases event with
  | readVersion =>
      simp only [GetCall.step] at here
      split at here
      next fresh =>
        cases here
        refine ⟨collected, ?_, ?_, ?_, ?_⟩
        · intro request member
          rwa [Round.pending_start] at member
        · rintro v ⟨⟩
          refine ⟨Nat.le_refl _, fun i keys member => Or.inl ?_⟩
          rwa [Round.pending_start]
        · intro still_unread
          cases still_unread
        · intro response answered
          rw [show call.response = none from unread fresh] at answered
          cases answered
      · cases here
  | enqueueQuery =>
      simp only [GetCall.step] at here
      split at here
      · cases here
      next queries sent =>
        cases here
        refine ⟨collected, ?_, ?_, unread, ?_⟩
        · exact fun request member => requested request ((Round.mem_pending_send sent).mp member)
        · intro v read
          obtain ⟨current, answered⟩ := version v read
          exact ⟨current, fun i keys member => (answered i keys member).imp
            (Round.mem_pending_send sent).mpr fun answer => answer.append _⟩
        · intro response answered
          obtain ⟨none_pending, gathered⟩ := finished response answered
          refine ⟨List.eq_nil_iff_forall_not_mem.mpr fun request member => ?_, gathered⟩
          have waiting := (Round.mem_pending_send sent).mp member
          rw [none_pending] at waiting
          cases waiting
  | query i =>
      simp only [GetCall.step] at here
      split at here
      next v keys queries read taken =>
        cases here
        obtain ⟨current, answered⟩ := version v read
        have own := mem_requestsFrom.mp (requested _ (Round.mem_of_take taken))
        refine ⟨collected, ?_, ?_, unread, ?_⟩
        · exact fun request member => requested request (Round.pending_of_take taken member)
        · intro u read_too
          obtain rfl : v = u := Option.some.inj (read.symm.trans read_too)
          refine ⟨current, ?_⟩
          intro j others member
          rcases eq_or_ne j i with rfl | other
          · obtain rfl : keys = others :=
              Option.some.inj (own.1.symm.trans (mem_requestsFrom.mp member).1)
            refine Or.inr ⟨events, [], s, rfl, steps, current, ?_⟩
            exact Function.update_self _ _ _
          · refine (answered j others member).imp
              (fun waiting => Round.pending_take_of_ne taken waiting other) fun answer => ?_
            simp only [Function.update_of_ne other]
            exact answer.append _
        · intro response finished_before
          have waiting := Round.mem_of_take taken
          rw [(finished response finished_before).1] at waiting
          cases waiting
      · cases here
  | finish =>
      simp only [GetCall.step] at here
      split at here
      next v read unanswered =>
        split at here
        next done =>
          cases here
          refine ⟨collected, requested, ?_, ?_, ?_⟩
          · intro u read_too
            obtain ⟨current, answered⟩ := version u read_too
            exact ⟨current, fun i keys member => (answered i keys member).imp_right
              fun answer => answer.append _⟩
          · intro fresh
            rw [read] at fresh
            cases fresh
          · rintro response ⟨⟩
            exact ⟨Round.isDone_iff.mp done, rfl⟩
        · cases here
      · cases here

omit [Zero V] in
/-- A step of a `reload` call leaves the `get` calls alone. -/
theorem stepReload_frame {event : ReloadEvent} (here : s.stepReload n event = some next) :
    next.gets = s.gets ∧ s.dataVersion ≤ next.dataVersion := by
  cases System.stepReload_cases here with
  | publish => exact ⟨rfl, Nat.le_succ _⟩
  | _ => exact ⟨rfl, Nat.le_refl _⟩

/-- Every call is tracked in every state of a run. -/
theorem tracked_run (steps : run (System.step n) (System.init shards) events = some s) :
    ∀ g call, s.gets g = some call → Tracked n shards events s.dataVersion g call := by
  refine run_induction (P := fun events s => ∀ g call, s.gets g = some call →
    Tracked n shards events s.dataVersion g call) (fun g call known => by cases known) ?_ steps
  intro events s event next begun all here g call known
  cases event with
  | beginGet h keys =>
      simp only [System.step] at here
      split at here
      next unknown collected =>
        cases here
        rcases eq_or_ne g h with rfl | other
        · simp only [System.setGet, Function.update_self, Option.some.injEq] at known
          cases known
          refine ⟨collected, ?_, ?_, fun _ => rfl, ?_⟩
          · exact fun request member => absurd member List.not_mem_nil
          · intro v read
            cases read
          · intro response answered
            cases answered
        · simp only [System.setGet, Function.update_of_ne other] at known
          exact (all g call known).append (Nat.le_refl _) _
      · cases here
  | get h event =>
      simp only [System.step] at here
      split at here
      · cases here
      next asked asked_known =>
        split at here
        · cases here
        next after moved =>
          cases here
          rcases eq_or_ne g h with rfl | other
          · simp only [System.setGet, Function.update_self, Option.some.injEq] at known
            cases known
            exact (all g asked asked_known).step begun moved
          · simp only [System.setGet, Function.update_of_ne other] at known
            exact (all g call known).append (Nat.le_refl _) _
  | beginReload request =>
      simp only [System.step] at here
      split at here
      · cases here
        exact (all g call known).append (Nat.le_refl _) _
      · split at here
        · cases here
          exact (all g call known).append (Nat.le_refl _) _
        · cases here
          exact (all g call known).append (Nat.le_refl _) _
  | reload event =>
      obtain ⟨same, later⟩ := stepReload_frame here
      rw [same] at known
      exact (all g call known).append later _

end Queries

/-! ## Answers -/

omit [Zero V] in
theorem Timely.not_cleared {before after : List (Event V)} {v g i : Nat}
    (timely : Timely (before ++ .get g (.query i) :: after) v g) :
    Event.reload (.clear v i) ∉ before := by
  intro cleared
  have in_order := (List.pairwise_append.mp timely).2.2 _ cleared _ List.mem_cons_self
  simp [late] at in_order

section Answers

variable {shards : Nat → Storage V} {events : List (Event V)} {last : System V} {g v : Nat}
  {call : GetCall V}

/-- A query in time finds the slot of its version as it was when the version became
current. -/
theorem answer_of_timely {moment : System V} {i : Nat} {keys : List Int64}
    {result : Option (List (ValueItem V))}
    (became : becameCurrent n shards events v = some moment) (timely : Timely events v g)
    (inside : i < n) (answered : Answered n shards events g v i keys result) :
    result = some (keys.map fun key => itemOf ((moment.shards i).slot v key)) := by
  obtain ⟨before, after, s, rfl, begun, current, answer⟩ := answered
  obtain ⟨earlier, became_then, kept⟩ := (versions_run begun).kept v current
  have same : earlier = moment :=
    Option.some.inj ((becameCurrent_append became_then _).symm.trans became)
  have slot := (kept i inside).resolve_left timely.not_cleared
  rw [answer, handler_get_values, slot, same]

/-- In every interleaving, a `get` call that has read version `v` and whose queries are
not processed behind a clear of `v` on their shards answers from one snapshot: every
queried shard answers from the content that its slot of `v` had at the moment `v` became
the current version, and the response is that of an uninterrupted call at this moment. -/
theorem get_answers_snapshot (n : Nat) (shards : Nat → Storage V) (events : List (Event V))
    (last : System V) (steps : run (System.step n) (System.init shards) events = some last)
    (g v : Nat) (call : GetCall V) (response : Except Stop (CannonResponse V))
    (known : last.gets g = some call) (read : call.dataVersion = some v)
    (returned : call.response = some response) (timely : Timely events v g) :
    ∃ moment, becameCurrent n shards events v = some moment ∧
      (∀ i keys, (i, keys) ∈ requestsFrom 0 call.shardingKeys →
        call.results i = some (keys.map fun key => itemOf ((moment.shards i).slot v key))) ∧
      response = (get (servers V n) call.keys moment.toWorld).1 ∧
      (call.keys.Nodup → response = .ok (answerFrom (view n moment.shards v) call.keys)) := by
  have tracked := tracked_run steps g call known
  obtain ⟨current, answers⟩ := tracked.version v read
  obtain ⟨none_pending, gathered⟩ := tracked.finished response returned
  obtain ⟨moment, became, _⟩ := (versions_run steps).kept v current
  have version : moment.dataVersion = v := by
    simpa using test_firstState became
  have results : ∀ i keys, (i, keys) ∈ requestsFrom 0 call.shardingKeys →
      call.results i = some (keys.map fun key => itemOf ((moment.shards i).slot v key)) := by
    intro i keys member
    rcases answers i keys member with waiting | answered
    · rw [none_pending] at waiting
      cases waiting
    · obtain ⟨inside, _⟩ := List.getElem?_eq_some_iff.mp (mem_requestsFrom.mp member).1
      rw [(length_of_shardInto tracked.collected).1] at inside
      exact answer_of_timely became timely inside answered
  have whole : response = (get (servers V n) call.keys moment.toWorld).1 := by
    rw [gathered]
    refine gather_replies moment.toWorld tracked.collected fun request member => ?_
    rw [results request.1 request.2 member, version]
  refine ⟨moment, became, results, whole, ?_⟩
  intro distinct
  rw [whole, get_servers distinct (length_of_shardInto tracked.collected).2, version]

/-- A `get` call that overlaps a second reload: its queries are processed behind the
publishing, in front of the clears. -/
def overlappingRun : List (Event Nat) :=
  [.beginReload ⟨["a"], [[⟨1, 10⟩, ⟨2, 20⟩]]⟩, .reload .nextBlock, .reload .enqueueInsert,
    .reload .enqueueInsert, .reload (.insert 1), .reload (.insert 0), .reload .endBlock,
    .reload .publish, .reload .enqueueClear, .reload .enqueueClear, .reload (.clear 0 0),
    .reload (.clear 0 1), .reload .finish, .beginGet 0 [1, 2], .get 0 .readVersion,
    .get 0 .enqueueQuery, .beginReload ⟨["b"], [[⟨1, 11⟩]]⟩, .reload .nextBlock,
    .reload .enqueueInsert, .reload (.insert 1), .reload .endBlock, .reload .publish,
    .get 0 .enqueueQuery, .get 0 (.query 1), .get 0 (.query 0), .reload .enqueueClear,
    .reload (.clear 1 0), .get 0 .finish]

/-- The call answers from the first model. -/
theorem get_answers_snapshot_overlapping :
    ∃ moment, becameCurrent 2 (fun _ => Storage.init Nat) overlappingRun 1 = some moment ∧
      .ok ⟨.ok, [⟨.found, 10⟩, ⟨.found, 20⟩]⟩ = (get (servers Nat 2) [1, 2] moment.toWorld).1 := by
  obtain ⟨moment, became, _, whole, _⟩ := get_answers_snapshot 2 (fun _ => Storage.init Nat)
    overlappingRun _ rfl 0 1 _ _ rfl rfl rfl (by decide)
  exact ⟨moment, became, whole⟩

end Answers

end CppProject.CannonProxy
