import CppProject.CannonProxy.Service
import CppProject.CannonProxy.WireServers
import CppProject.CannonProxy.Histories
import CppProject.CannonProxy.ModelPairs

/-!
# Sessions of the whole system

Clients call the proxy over a connection, the proxy calls its shards over theirs, and the
model files may be others at every call.  What the clients get is what one pair of lists of
key-value pairs says: the pairs that are served, and the pairs that rejected reloads have
left behind.
-/

namespace CppProject.CannonProxy

open Library Library.Wire Service

variable {V : Type}

/-- What a call finds around it: the contents of the files that can be opened, and the
variables that the reading loop does not initialise. -/
structure Surroundings (V : Type) where
  fs : String → Option Text
  before : Nat → Int64 × V

/-- The proxy, and how many calls it has answered. -/
structure Running (σ : Type) where
  world : World σ
  calls : Nat

/-! ## What the clients can tell -/

/-- The pairs that are served, those that are left behind, and whether the flag of the
reloads is set for good. -/
structure Content (V : Type) where
  current : List (CannonKV V)
  left : List (CannonKV V)
  stuck : Bool
  deriving DecidableEq, Repr

namespace Content

def init : Content V := ⟨[], [], false⟩

/-- A reload of no files is accepted and the last one that is. -/
def reload (content : Content V) (paths : List Text) (model : List (CannonKV V)) : Bool × Content V :=
  if content.stuck then (false, content)
  else if paths.isEmpty then (true, { content with stuck := true })
  else if NewOver content.left model then (true, ⟨content.left ++ model, [], false⟩)
  else (false, { content with left := content.left ++ model })

variable [Zero V]

/-- The pairs that the non-empty lines of the files make. -/
def modelOf (strtod : Text → Conversion V) (around : Surroundings V) (paths : List Text) :
    List (CannonKV V) :=
  readKvs strtod around.before 0 (ModelFilesReader.linesOf around.fs (paths.map String.ofList))

/-- One call. -/
def answer (strtod : Text → Conversion V) (around : Surroundings V) (content : Content V) :
    Method → Result V × Content V
  | .version => (.version [], content)
  | .reload paths =>
      let (ret, content) := content.reload paths (modelOf strtod around paths)
      (.reload ret, content)
  | .get keys => (.get (Interface.sentResponse (answerKeys (modelMap content.current) keys)), content)

/-- The calls from a number on, one after another. -/
def answers (strtod : Text → Conversion V) (surroundings : Nat → Surroundings V) :
    Nat → List ClientCall → Content V → List (Outcome V)
  | _, [], _ => []
  | number, call :: rest, content =>
      let (result, content) := content.answer strtod (surroundings number) call.method
      call.client.holds result :: answers strtod surroundings (number + 1) rest content

end Content

section Serving

variable {σ : Type} [Zero V]

/-- The interface is the proxy in front of a cluster, on every call that the proxy answers.
The version is a string that nothing ever sets. -/
structure Serves (cluster : Cluster σ V) (strtod : Text → Conversion V) (surroundings : Nat → Surroundings V)
    (iface : CannonServiceIf (Running σ) V) : Prop where
  version : ∀ r, iface.version r = (.ok [], ⟨r.world, r.calls + 1⟩)
  reload : ∀ (paths : List Text) (r : Running σ) (call : ReloadCall V) (ret : Bool) (world : World σ),
    readModel strtod (surroundings r.calls).before (surroundings r.calls).fs (paths.map String.ofList) = .ok call →
    CannonProxy.reload cluster call r.world = (.ok ret, world) →
    iface.reload paths r = (.ok ret, ⟨world, r.calls + 1⟩)
  get : ∀ (keys : List Int64) (r : Running σ) (response : CannonResponse V) (world : World σ),
    CannonProxy.get cluster keys r.world = (.ok response, world) →
    iface.get ⟨keys⟩ r = (.ok (Interface.sentResponse response), ⟨world, r.calls + 1⟩)

/-- The proxy as an interface.  Where it does not answer, an exception stands for whatever
it does. -/
def handler (cluster : Cluster σ V) (strtod : Text → Conversion V) (surroundings : Nat → Surroundings V) :
    CannonServiceIf (Running σ) V where
  version r := (.ok [], ⟨r.world, r.calls + 1⟩)
  reload paths r :=
    match readModel strtod (surroundings r.calls).before (surroundings r.calls).fs (paths.map String.ofList) with
    | .error _ => (.error [], r)
    | .ok call =>
        match CannonProxy.reload cluster call r.world with
        | (.ok ret, world) => (.ok ret, ⟨world, r.calls + 1⟩)
        | (.error _, world) => (.error [], ⟨world, r.calls + 1⟩)
  get req r :=
    match CannonProxy.get cluster req.keys r.world with
    | (.ok response, world) => (.ok (Interface.sentResponse response), ⟨world, r.calls + 1⟩)
    | (.error _, world) => (.error [], ⟨world, r.calls + 1⟩)

theorem serves_handler (cluster : Cluster σ V) (strtod : Text → Conversion V)
    (surroundings : Nat → Surroundings V) :
    Serves cluster strtod surroundings (handler cluster strtod surroundings) := by
  refine ⟨fun _ => rfl, ?_, ?_⟩
  · intro paths r call ret world reads run
    simp only [handler, reads, run]
  · intro keys r response world run
    simp only [handler, run]

end Serving

/-! ## One call -/

section Step

variable {n : Nat} {w : World (Nat → Storage V)} {content : Content V}

/-- The proxy and its shards hold what the clients can tell. -/
structure Holds (n : Nat) (w : World (Nat → Storage V)) (content : Content V) : Prop where
  loading : w.isLoading = content.stuck
  current_eq : view n w.shards w.dataVersion = modelMap content.current
  left_eq : view n w.shards (w.dataVersion + 1) = modelMap content.left

theorem holds_init (n : Nat) : Holds n (World.init V) Content.init := by
  obtain ⟨idle, current_eq, left_eq⟩ := @serving_init V n
  exact ⟨idle, current_eq, left_eq⟩

variable [Zero V]

theorem Holds.reload (holds : Holds n w content) {call : ReloadCall V} {paths : List Text}
    (same : call.paths.isEmpty = paths.isEmpty) (routed : ∀ kv ∈ call.model, Routed n kv.key) :
    ∃ next, CannonProxy.reload (servers V n) call w = (.ok (content.reload paths call.model).1, next) ∧
      Holds n next (content.reload paths call.model).2 := by
  obtain ⟨loading, current_eq, left_eq⟩ := holds
  obtain ⟨current, left, stuck⟩ := content
  cases stuck with
  | true =>
      refine ⟨w, ?_, loading, current_eq, left_eq⟩
      simp only [CannonProxy.reload, loading, Content.reload, if_true]
  | false =>
      simp only [Content.reload, Bool.false_eq_true, if_false, ← same]
      by_cases empty : call.paths.isEmpty = true
      · refine ⟨{ w with isLoading := true }, ?_, ?_⟩
        · simp only [CannonProxy.reload, loading, Bool.false_eq_true, if_false, empty, if_true]
        · rw [if_pos empty]
          exact ⟨rfl, current_eq, left_eq⟩
      · have paths_ne : call.paths ≠ [] := mt List.isEmpty_iff.mpr empty
        obtain ⟨next, ⟨new, run, served⟩ | ⟨old, run, served⟩⟩ :=
          serving_reload ⟨loading, current_eq, left_eq⟩ paths_ne routed
        · rw [if_neg empty, if_pos new]
          exact ⟨next, run, served.idle, served.current_eq, served.left_eq⟩
        · rw [if_neg empty, if_neg old]
          exact ⟨next, run, served.idle, served.current_eq, served.left_eq⟩

/-- Every key of the call has a shard. -/
def RoutedCall (n : Nat) (strtod : Text → Conversion V) (around : Surroundings V) : Method → Prop
  | .version => True
  | .reload paths => ∀ kv ∈ Content.modelOf strtod around paths, Routed n kv.key
  | .get keys => ∀ key ∈ keys, Routed n key

variable {B Y : Type} {Q : Protocol B V Y} {strtod : Text → Conversion V}
  {surroundings : Nat → Surroundings V} {iface : CannonServiceIf (Running (Nat → Storage V)) V}

/-- A call is answered over the connections of the shards, and what the shards hold follows. -/
theorem Serves.call (serves : Serves (wireServers Q n) strtod surroundings iface)
    {r : Running (Nat → Storage V)} (holds : Holds n r.world content) {method : Method}
    (fits : method.Fits) (routed : RoutedCall n strtod (surroundings r.calls) method) :
    ∃ world, method.call iface r =
        (.ok (content.answer strtod (surroundings r.calls) method).1, ⟨world, r.calls + 1⟩) ∧
      Holds n world (content.answer strtod (surroundings r.calls) method).2 ∧
      AnswerFits (.ok (content.answer strtod (surroundings r.calls) method).1) := by
  cases method with
  | version =>
      refine ⟨r.world, ?_, holds, ?_⟩
      · simp only [Method.call, serves.version, Content.answer]
        rfl
      · exact plain_of_all (by decide) (by decide)
  | reload paths =>
      obtain ⟨call, reads, paths_eq, model⟩ := @readModel_spec V _ strtod (surroundings r.calls).before
        (surroundings r.calls).fs (paths.map String.ofList)
      rw [ModelFilesReader.reached_all (by rw [List.length_map]; exact fits.1)] at model
      have same : call.paths.isEmpty = paths.isEmpty := by
        rw [paths_eq, List.isEmpty_map]
      have call_routed : ∀ kv ∈ call.model, Routed n kv.key := by
        rw [model]
        exact routed
      have short : ∀ kvs ∈ call.blocks, kvs.length < sizeLimit :=
        fun kvs member => (readModel_bounded reads kvs member).trans_lt (by decide)
      obtain ⟨next, run, later⟩ := holds.reload same call_routed
      rw [← wire_reload (P := Q) short] at run
      rw [model] at run later
      refine ⟨next, ?_, later, trivial⟩
      simp only [Method.call, serves.reload paths r call _ next reads run]
      rfl
  | get keys =>
      have run := get_servers_any routed r.world
      rw [← wire_get (P := Q) fits, holds.current_eq] at run
      refine ⟨r.world, ?_, holds, ?_⟩
      · simp only [Method.call, serves.get keys r _ _ run]
        rfl
      · simp only [Content.answer, AnswerFits, Interface.sentResponse, List.length_map, answerKeys_length]
        exact fits

end Step

/-! ## Sessions -/

section Sessions

variable [Zero V] {B Y : Type}

variable {B' Y' : Type} {P : Protocol B V Y} {Q : Protocol B' V Y'} {n : Nat}
  {strtod : Text → Conversion V} {surroundings : Nat → Surroundings V}
  {iface : CannonServiceIf (Running (Nat → Storage V)) V}

theorem session_works (serves : Serves (wireServers Q n) strtod surroundings iface) {session : List ClientCall}
    (fits : ∀ call ∈ session, call.Fits) {r : Running (Nat → Storage V)} {content : Content V}
    (holds : Holds n r.world content)
    (routed : ∀ (k : Nat) (call : ClientCall), session[k]? = some call →
      RoutedCall n strtod (surroundings (r.calls + k)) call.method) :
    WorksFrom (CannonServiceProcessor.process P iface) (session.map (ClientCall.exchange P iface)) r ∧
      (answerAll (session.map (ClientCall.exchange P iface)) r).1 =
        (content.answers strtod surroundings r.calls session).map .ok := by
  induction session generalizing r content with
  | nil => exact ⟨trivial, rfl⟩
  | cons call rest ih =>
      obtain ⟨here, later⟩ := List.forall_mem_cons.mp fits
      obtain ⟨world, said, next, answer⟩ := serves.call holds here.arguments (routed 0 call rfl)
      have replied : (call.exchange P iface).answer r =
          (.ok (call.client.holds (content.answer strtod (surroundings r.calls) call.method).1),
            ⟨world, r.calls + 1⟩) := by
        simp only [ClientCall.exchange, said, Client.outcome]
      have others : ∀ (k : Nat) (call : ClientCall), rest[k]? = some call →
          RoutedCall n strtod (surroundings (r.calls + 1 + k)) call.method := by
        intro k call found
        rw [Nat.add_assoc, Nat.add_comm 1 k]
        exact routed (k + 1) call found
      obtain ⟨rest_works, rest_answers⟩ := @ih later ⟨world, r.calls + 1⟩ _ next others
      have answered : AnswerFits (call.method.call iface r).1 := by
        rw [said]
        exact answer
      refine ⟨⟨ClientCall.works here answered, ?_⟩, ?_⟩
      · rw [replied]
        exact rest_works
      · simp only [List.map_cons, answerAll, replied, rest_answers, Content.answers]

/-- What the clients get from the whole system, whatever the wire formats, the number of
shards and the changes of the files: calls of both clients, in any order and sent ahead on
one connection, are answered over the connections of the shards, and each caller gets what
the pairs say that are served then.  An accepted reload replaces them by the pairs of the
files as they are at that call, on top of what rejected reloads have left behind since the
last accepted one; a reload is rejected when a key is repeated or was left behind, and all
are behind one of no files.  A request is answered from the pairs that are served, every key
at its last position. -/
theorem sessions_follow_content (P : Protocol B V Y) (Q : Protocol B' V Y') (n : Nat)
    (strtod : Text → Conversion V) (surroundings : Nat → Surroundings V)
    (iface : CannonServiceIf (Running (Nat → Storage V)) V)
    (serves : Serves (wireServers Q n) strtod surroundings iface)
    (session : List ClientCall) (fits : ∀ call ∈ session, call.Fits)
    (routed : ∀ (k : Nat) (call : ClientCall), session[k]? = some call →
      RoutedCall n strtod (surroundings k) call.method) (more later : List B) :
    ∃ replies last,
      serveCalls (CannonServiceProcessor.process P iface) session.length
        ((session.flatMap fun call => call.client.sent P call.method) ++ more) ⟨World.init V, 0⟩ =
          some (replies, more, last) ∧
      receiveAll (session.map fun call => call.client.received P call.method) (replies ++ later) =
        some ((Content.init.answers strtod surroundings 0 session).map .ok, later) := by
  have from_start : ∀ (k : Nat) (call : ClientCall), session[k]? = some call →
      RoutedCall n strtod (surroundings (0 + k)) call.method := by
    intro k call found
    rw [Nat.zero_add]
    exact routed k call found
  have start : Holds n (⟨World.init V, 0⟩ : Running (Nat → Storage V)).world Content.init := holds_init n
  obtain ⟨works, answers⟩ := session_works (P := P) serves fits start from_start
  obtain ⟨replies, served, received⟩ := exchanges_from works more later
  rw [List.length_map, List.flatMap_map] at served
  rw [List.map_map, answers] at received
  exact ⟨replies, _, served, received⟩

/-- The file of a model, which is written again behind the second call. -/
def rewrittenFile (call : Nat) : Surroundings (BitVec 64) where
  fs path := if path = "model" then some (if call ≤ 1 then "7 3".toList else "7 4\n8 5".toList) else none
  before _ := (0, 0)

/-- Digits as numbers. -/
def oneDigit : Text → Conversion (BitVec 64)
  | [digit] => .whole (BitVec.ofNat 64 (digit.toNat - '0'.toNat))
  | _ => .notNumeral

/-- A client in Python between two reloads by one in C++. -/
def twoModels : List ClientCall :=
  [⟨.python 9, .get [7]⟩, ⟨.cpp, .reload ["model".toList]⟩, ⟨.python 9, .get [7, 8]⟩,
    ⟨.cpp, .reload ["model".toList]⟩, ⟨.cpp, .get [8, 7, 8]⟩]

/-- The first model holds no `8`, and the second request for it leaves a position unwritten. -/
theorem sessions_follow_content_two_models :
    ∃ replies last,
      serveCalls (CannonServiceProcessor.process binaryProtocol
          (handler (wireServers binaryProtocol 2) oneDigit rewrittenFile)) 5
        ((twoModels.flatMap fun call => call.client.sent binaryProtocol call.method) ++ [])
          ⟨World.init (BitVec 64), 0⟩ = some (replies, [], last) ∧
      receiveAll (twoModels.map fun call => call.client.received binaryProtocol call.method) (replies ++ []) =
        some ([.ok (.pythonGet ⟨some 1, some [⟨some 1, some 0⟩]⟩), .ok (.reload true),
          .ok (.pythonGet ⟨some 1, some [⟨some 0, some 3⟩, ⟨some 1, some 0⟩]⟩), .ok (.reload true),
          .ok (.get ⟨0, [⟨0, 0⟩, ⟨0, 4⟩, ⟨0, 5⟩]⟩)], []) := by
  have reload_fits : (⟨.cpp, .reload ["model".toList]⟩ : ClientCall).Fits :=
    ⟨trivial, (by decide : 1 < sizeLimit), List.forall_mem_cons.mpr
      ⟨plain_of_all (by decide) (by decide), List.forall_mem_nil _⟩⟩
  have fits : ∀ call ∈ twoModels, call.Fits :=
    List.forall_mem_cons.mpr ⟨⟨(by decide : 3 ≤ 9), (by decide : 1 < sizeLimit)⟩,
      List.forall_mem_cons.mpr ⟨reload_fits, List.forall_mem_cons.mpr
      ⟨⟨(by decide : 3 ≤ 9), (by decide : 2 < sizeLimit)⟩, List.forall_mem_cons.mpr ⟨reload_fits,
      List.forall_mem_cons.mpr ⟨⟨trivial, (by decide : 3 < sizeLimit)⟩, List.forall_mem_nil _⟩⟩⟩⟩⟩
  have routed : ∀ (k : Nat) (call : ClientCall), twoModels[k]? = some call →
      RoutedCall 2 oneDigit (rewrittenFile k) call.method := by
    intro k call found
    rcases k with _ | _ | _ | _ | _ | k
    · cases found
      exact List.forall_iff_forall_mem.mp (by decide)
    · cases found
      exact List.forall_iff_forall_mem.mp (by decide)
    · cases found
      exact List.forall_iff_forall_mem.mp (by decide)
    · cases found
      exact List.forall_iff_forall_mem.mp (by decide)
    · cases found
      exact List.forall_iff_forall_mem.mp (by decide)
    · cases found
  obtain ⟨replies, last, served, received⟩ := sessions_follow_content binaryProtocol binaryProtocol 2
    oneDigit rewrittenFile _ (serves_handler _ _ _) twoModels fits routed [] []
  refine ⟨replies, last, served, received.trans ?_⟩
  rfl

end Sessions

end CppProject.CannonProxy
