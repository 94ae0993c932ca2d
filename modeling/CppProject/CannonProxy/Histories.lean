import CppProject.CannonProxy.Answers
import CppProject.CannonProxy.Reloading
import CppProject.CannonProxy.ReloadLock

/-!
# Histories of reloads

What a sequence of `reload` calls leaves in the two slots of every server: the
model that is served, and what failed reloads have left behind in the inactive
slots.
-/

namespace CppProject.CannonProxy

open Library Library.Overlay

variable {V : Type} {n : Nat}

/-- A model as a finite map. -/
def modelMap (model : List (CannonKV V)) : Store V := firstValue CannonKV.key CannonKV.value model

/-- The model of the last call. -/
def lastModel (calls : List (ReloadCall V)) : List (CannonKV V) :=
  (calls.getLast?.map ReloadCall.model).getD []

/-- The keys of a model are distinct and differ from those left behind. -/
def NewOver (left model : List (CannonKV V)) : Prop :=
  (model.map CannonKV.key).Nodup ∧ ∀ kv ∈ model, kv.key ∉ left.map CannonKV.key

instance (left model : List (CannonKV V)) : Decidable (NewOver left model) :=
  inferInstanceAs (Decidable (_ ∧ _))

/-- The pairs that are left in the inactive slots: a failed reload adds its whole
model to them, and a successful one makes them part of what is served. -/
def leftBehind : List (CannonKV V) → List (ReloadCall V) → List (CannonKV V)
  | left, [] => left
  | left, call :: rest =>
      leftBehind (if NewOver left call.model then [] else left ++ call.model) rest

theorem modelMap_append (first second : List (CannonKV V)) :
    modelMap (first ++ second) = overlay CannonKV.key CannonKV.value (modelMap first) second := by
  funext key
  exact firstValue_append first second key

theorem fresh_modelMap {left model : List (CannonKV V)} :
    Fresh CannonKV.key (modelMap left) model ↔ NewOver left model := by
  simp only [Fresh, NewOver, modelMap, firstValue_eq_none]

/-- An idle proxy that serves one list of pairs, with another in the inactive slots. -/
structure Serving (n : Nat) (w : World (Nat → Storage V)) (current left : List (CannonKV V)) :
    Prop where
  idle : w.isLoading = false
  current_eq : view n w.shards w.dataVersion = modelMap current
  left_eq : view n w.shards (w.dataVersion + 1) = modelMap left

theorem serving_init (n : Nat) : Serving n (World.init V) [] [] := by
  have empty : ∀ v, view n (World.init V).shards v = modelMap [] := by
    intro v
    funext key
    unfold view
    split <;> rfl
  exact ⟨rfl, empty 0, empty 1⟩

/-- The slots of a version are used again two versions later. -/
theorem view_add_two (s : Nat → Storage V) (v : Nat) : view n s (v + 2) = view n s v := by
  have index : getIndex (v + 2) = getIndex v := by
    apply Fin.ext
    rw [getIndex_val, getIndex_val, Nat.add_mod_right]
  apply view_congr
  intro i _
  simp only [Storage.slot, index]

/-- Once the flag is left set, it stays set and every reload is rejected. -/
theorem reloadAll_stuck {σ : Type} (cluster : Cluster σ V) (calls : List (ReloadCall V)) {w : World σ}
    (stuck : w.isLoading = true) :
    reloadAll cluster calls w = (calls.map fun _ => .ok false, w) := by
  induction calls with
  | nil => rfl
  | cons call rest ih =>
      have rejected : reload cluster call w = (.ok false, w) := by
        simp only [reload, stuck, if_true]
      simp only [reloadAll, rejected, ih, List.map_cons]

variable [Zero V]

section Step

variable {w : World (Nat → Storage V)} {current left : List (CannonKV V)} {call : ReloadCall V}

/-- A reload of routed keys succeeds exactly when its model is new over what is
left behind; then it serves both. -/
theorem serving_reload (serving : Serving n w current left) (paths : call.paths ≠ [])
    (routed : ∀ kv ∈ call.model, Routed n kv.key) :
    ∃ next, (NewOver left call.model ∧ reload (servers V n) call w = (.ok true, next) ∧
        Serving n next (left ++ call.model) []) ∨
      (¬NewOver left call.model ∧ reload (servers V n) call w = (.ok false, next) ∧
        Serving n next current (left ++ call.model)) := by
  obtain ⟨s', outcome⟩ := reload_servers paths routed serving.idle
  rw [serving.left_eq, fresh_modelMap, serving.current_eq, ← modelMap_append] at outcome
  rcases outcome with ⟨new, run, emptied, laid⟩ | ⟨old, run, kept, laid⟩
  · refine ⟨_, Or.inl ⟨new, run, rfl, laid, ?_⟩⟩
    exact (view_add_two s' w.dataVersion).trans emptied
  · exact ⟨_, Or.inr ⟨old, run, rfl, kept, laid⟩⟩

end Step

/-- After a history of routed models the proxy is idle again; a key without a
shard has left it stuck. -/
theorem serving_reloadAll {calls : List (ReloadCall V)} (paths : ∀ call ∈ calls, call.paths ≠ [])
    {w : World (Nat → Storage V)} {current left : List (CannonKV V)}
    (serving : Serving n w current left) :
    ((∀ call ∈ calls, ∀ kv ∈ call.model, Routed n kv.key) ∧
      ∃ served, Serving n (reloadAll (servers V n) calls w).2 served (leftBehind left calls)) ∨
    (¬(∀ call ∈ calls, ∀ kv ∈ call.model, Routed n kv.key) ∧
      (reloadAll (servers V n) calls w).2.isLoading = true) := by
  induction calls generalizing w current left with
  | nil => exact Or.inl ⟨List.forall_mem_nil _, current, serving⟩
  | cons call rest ih =>
      have call_paths := paths call List.mem_cons_self
      have rest_paths := fun other member => paths other (List.mem_cons_of_mem call member)
      simp only [List.forall_mem_cons]
      by_cases routed : ∀ kv ∈ call.model, Routed n kv.key
      · obtain ⟨next, outcome⟩ := serving_reload serving call_paths routed
        have continues : ∃ served, Serving n next served
            (if NewOver left call.model then [] else left ++ call.model) ∧
            (reloadAll (servers V n) (call :: rest) w).2 = (reloadAll (servers V n) rest next).2 := by
          rcases outcome with ⟨new, run, served⟩ | ⟨old, run, served⟩
          · rw [if_pos new]
            exact ⟨_, served, by simp only [reloadAll, run]⟩
          · rw [if_neg old]
            exact ⟨_, served, by simp only [reloadAll, run]⟩
        obtain ⟨served, next_serving, same⟩ := continues
        rw [same, leftBehind]
        rcases ih rest_paths next_serving with ⟨all, last⟩ | ⟨astray, stuck⟩
        · exact Or.inl ⟨⟨routed, all⟩, last⟩
        · exact Or.inr ⟨fun both => astray both.2, stuck⟩
      · have unrouted : ∃ kv ∈ call.model, ¬Routed n kv.key := by
          simpa using routed
        obtain ⟨stop, next, run, stuck⟩ :=
          @reload_stops _ _ (servers V n) _ _ serving.idle call_paths (Or.inl unrouted)
        refine Or.inr ⟨fun both => routed both.1, ?_⟩
        simp only [reloadAll, run, reloadAll_stuck _ rest stuck, stuck]

/-! ## Successful histories -/

/-- When every call has returned true, the last model is served and nothing is
left behind. -/
theorem serving_returned {calls : List (ReloadCall V)} (paths : ∀ call ∈ calls, call.paths ≠ [])
    (routed : ∀ call ∈ calls, ∀ kv ∈ call.model, Routed n kv.key)
    {w : World (Nat → Storage V)} {current : List (CannonKV V)} (serving : Serving n w current [])
    (returned : (reloadAll (servers V n) calls w).1 = calls.map fun _ => .ok true) :
    Serving n (reloadAll (servers V n) calls w).2
      ((calls.getLast?.map ReloadCall.model).getD current) [] := by
  induction calls generalizing w current with
  | nil => exact serving
  | cons call rest ih =>
      obtain ⟨next, outcome⟩ := serving_reload serving (paths call List.mem_cons_self)
        (routed call List.mem_cons_self)
      rcases outcome with ⟨_, run, served⟩ | ⟨_, run, _⟩
      · simp only [reloadAll, run, List.map_cons, List.cons.injEq, true_and] at returned
        have last := ih (fun other member => paths other (List.mem_cons_of_mem call member))
          (fun other member => routed other (List.mem_cons_of_mem call member)) served returned
        simp only [reloadAll, run, List.getLast?_cons, Option.map_some, Option.getD_some]
        rw [List.nil_append] at last
        cases rest_last : rest.getLast? <;> simpa [rest_last] using last
      · simp [reloadAll, run] at returned

/-- Behind any sequence of successful reloads a `get` for distinct keys answers
every key, in request order, from the last model alone, however many shards there
are. -/
theorem get_after_reloads (n : Nat) (calls : List (ReloadCall V))
    (paths : ∀ call ∈ calls, call.paths ≠ [])
    (routed : ∀ call ∈ calls, ∀ kv ∈ call.model, Routed n kv.key)
    (returned : (reloadAll (servers V n) calls (World.init V)).1 = calls.map fun _ => .ok true)
    (keys : List Int64) (distinct : keys.Nodup) (keys_routed : ∀ key ∈ keys, Routed n key) :
    (get (servers V n) keys (reloadAll (servers V n) calls (World.init V)).2).1 =
      .ok (answerFrom (modelMap (lastModel calls)) keys) := by
  have served := serving_returned paths routed (serving_init n) returned
  rw [get_servers distinct keys_routed, served.current_eq]
  rfl

/-- Two models on two shards; the second replaces the first. -/
theorem get_after_reloads_two_models :
    (get (servers Nat 2) [3, 1, 2]
      (reloadAll (servers Nat 2)
        [⟨["a"], [[⟨1, 10⟩, ⟨2, 20⟩]]⟩, ⟨["b"], [[⟨2, 21⟩], [⟨3, 31⟩]]⟩] (World.init Nat)).2).1 =
      .ok ⟨.partialOk, [⟨.found, 31⟩, ⟨.notFound, 0⟩, ⟨.found, 21⟩]⟩ :=
  get_after_reloads 2 [⟨["a"], [[⟨1, 10⟩, ⟨2, 20⟩]]⟩, ⟨["b"], [[⟨2, 21⟩], [⟨3, 31⟩]]⟩]
    (by decide) (by decide) rfl [3, 1, 2] (by decide) (List.forall_iff_forall_mem.mp (by decide))

/-! ## Failed reloads -/

/-- After the history, the call returns true and `get` answers the keys from its
model alone. -/
def ServesNext (n : Nat) (history : List (ReloadCall V)) (call : ReloadCall V) (keys : List Int64) :
    Prop :=
  (reload (servers V n) call (reloadAll (servers V n) history (World.init V)).2).1 = .ok true ∧
    (get (servers V n) keys
      (reload (servers V n) call (reloadAll (servers V n) history (World.init V)).2).2).1 =
        .ok (answerFrom (modelMap call.model) keys)

theorem itemOf_injective : Function.Injective (itemOf : Option V → ValueItem V) := by
  rintro (_ | a) (_ | b) same
  · rfl
  · cases same
  · cases same
  · cases same
    rfl

theorem answerFrom_eq_iff {m m' : Store V} {keys : List Int64} :
    answerFrom m keys = answerFrom m' keys ↔ ∀ key ∈ keys, m key = m' key := by
  constructor
  · intro same key member
    have values := congrArg CannonResponse.values same
    exact itemOf_injective (List.map_inj_left.mp values key member)
  · intro same
    have values : (keys.map fun key => itemOf (m key)) = keys.map fun key => itemOf (m' key) :=
      List.map_inj_left.mpr fun key member => by rw [same key member]
    have status : statusFor m keys = statusFor m' keys := by
      unfold statusFor
      have all : (keys.all fun key => (m key).isSome) = keys.all fun key => (m' key).isSome := by
        rw [Bool.eq_iff_iff, List.all_eq_true, List.all_eq_true]
        exact forall₂_congr fun key member => by rw [same key member]
      rw [all]
    simp only [answerFrom, values, status]

/-- Answers over what was left behind agree with those of the model alone when
no requested key was left behind. -/
theorem answerFrom_append_iff {left model : List (CannonKV V)} (keys : List Int64)
    (new : NewOver left model) :
    answerFrom (modelMap (left ++ model)) keys = answerFrom (modelMap model) keys ↔
      ∀ key ∈ keys, key ∉ left.map CannonKV.key := by
  rw [answerFrom_eq_iff]
  refine forall₂_congr fun key _ => ?_
  have unlisted : modelMap left key = none ↔ key ∉ left.map CannonKV.key := firstValue_eq_none
  rw [← unlisted, modelMap_append, overlay]
  cases old : modelMap left key with
  | none => exact iff_of_true rfl rfl
  | some v =>
      refine iff_of_false ?_ (Option.some_ne_none v)
      intro same
      have held : key ∈ model.map CannonKV.key := by
        by_contra absent
        rw [modelMap, firstValue_eq_none.mpr absent] at same
        cases same
      obtain ⟨kv, member, rfl⟩ := List.mem_map.mp held
      have unknown := unlisted.mpr (new.2 kv member)
      rw [old] at unknown
      cases unknown

/-- A reload of distinct keys behind any history of reloads succeeds and serves
exactly its model to a request if and only if all keys have a shard and failed
reloads have left behind, in the inactive slots, no key of the model and no
requested key. -/
theorem reload_after_history_iff (n : Nat) (history : List (ReloadCall V)) (call : ReloadCall V)
    (keys : List Int64) (paths : ∀ earlier ∈ history, earlier.paths ≠ [])
    (call_paths : call.paths ≠ [])
    (model_distinct : (call.model.map CannonKV.key).Nodup) (distinct : keys.Nodup) :
    ServesNext n history call keys ↔
      (∀ earlier ∈ history, ∀ kv ∈ earlier.model, Routed n kv.key) ∧
      (∀ kv ∈ call.model, Routed n kv.key) ∧ (∀ key ∈ keys, Routed n key) ∧
      (∀ kv ∈ call.model, kv.key ∉ (leftBehind [] history).map CannonKV.key) ∧
      ∀ key ∈ keys, key ∉ (leftBehind [] history).map CannonKV.key := by
  unfold ServesNext
  rcases serving_reloadAll paths (serving_init n) with ⟨all, served, serving⟩ | ⟨astray, stuck⟩
  · by_cases routed : ∀ kv ∈ call.model, Routed n kv.key
    · obtain ⟨next, ⟨new, run, after⟩ | ⟨old, run, _⟩⟩ := serving_reload serving call_paths routed
      · rw [run]
        simp only [true_and]
        by_cases keys_routed : ∀ key ∈ keys, Routed n key
        · rw [get_servers distinct keys_routed, after.current_eq, Except.ok.injEq,
            answerFrom_append_iff keys new]
          exact ⟨fun apart => ⟨all, routed, keys_routed, new.2, apart⟩, fun both => both.2.2.2.2⟩
        · obtain ⟨fault, stop⟩ := get_unrouted (by simpa using keys_routed) next
          rw [stop]
          exact iff_of_false nofun fun both => keys_routed both.2.2.1
      · rw [run]
        refine iff_of_false (fun both => by cases both.1) ?_
        rintro ⟨_, _, _, new, _⟩
        exact old ⟨model_distinct, new⟩
    · obtain ⟨stop, next, run, _⟩ :=
        @reload_stops _ _ (servers V n) _ _ serving.idle call_paths
          (Or.inl (by simpa [servers_clientsNum] using routed))
      rw [run]
      exact iff_of_false (fun both => by cases both.1) fun all => routed all.2.1
  · have rejected := reloadAll_stuck (servers V n) [call] stuck
    simp only [reloadAll, List.map_cons, List.map_nil, Prod.mk.injEq, List.cons.injEq] at rejected
    rw [rejected.1.1]
    exact iff_of_false (fun both => by cases both.1) fun all => astray all.1

/-- Behind a successful reload everything is accepted and served again. -/
theorem reload_after_history_success :
    ServesNext 2 [⟨["a"], [[⟨1, 10⟩], [⟨2, 20⟩]]⟩] ⟨["b"], [[⟨2, 21⟩]]⟩ [1, 2] :=
  (reload_after_history_iff 2 [⟨["a"], [[⟨1, 10⟩], [⟨2, 20⟩]]⟩] ⟨["b"], [[⟨2, 21⟩]]⟩ [1, 2]
    (by decide) (by decide) (by decide) (by decide)).mpr
    ⟨by decide, by decide, List.forall_iff_forall_mem.mp (by decide), by decide,
      List.forall_iff_forall_mem.mp (by decide)⟩

/-- A reload with a repeated key fails and leaves the key behind; the next model
with that key is rejected. -/
theorem reload_rejected_after_failure :
    (reloadAll (servers Nat 1) [⟨["a"], [[⟨1, 10⟩, ⟨1, 11⟩]]⟩] (World.init Nat)).1 = [.ok false] ∧
    ([⟨1, 20⟩].map (CannonKV.key : CannonKV Nat → Int64)).Nodup ∧
    (reload (servers Nat 1) ⟨["b"], [[⟨1, 20⟩]]⟩
      (reloadAll (servers Nat 1) [⟨["a"], [[⟨1, 10⟩, ⟨1, 11⟩]]⟩] (World.init Nat)).2).1 = .ok false ∧
    ¬ServesNext 1 [⟨["a"], [[⟨1, 10⟩, ⟨1, 11⟩]]⟩] (⟨["b"], [[⟨1, 20⟩]]⟩ : ReloadCall Nat) [1] := by
  have rejected : (reload (servers Nat 1) ⟨["b"], [[⟨1, 20⟩]]⟩
      (reloadAll (servers Nat 1) [⟨["a"], [[⟨1, 10⟩, ⟨1, 11⟩]]⟩] (World.init Nat)).2).1 =
        .ok false := rfl
  refine ⟨rfl, by decide, rejected, ?_⟩
  rintro ⟨returned, _⟩
  rw [rejected] at returned
  cases returned

end CppProject.CannonProxy
