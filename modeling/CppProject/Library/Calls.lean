import CppProject.Library.Wire

/-!
# Remote calls

A call is a message with the method's name and its arguments; the reply carries the
result, or an exception of the calling layer.  The dispatcher reads one call off the
stream and answers it; what the answer is depends on the state of the handler.
-/

namespace CppProject.Library.Wire

/-- `DEFAULT_RECURSION_LIMIT` -/
def recursionLimit : Nat := 64

namespace ApplicationException

def unknown : Int32 := 0
def unknownMethod : Int32 := 1
def missingResult : Int32 := 5

end ApplicationException

/-- What is read off the stream of calls: the cells of the reply, and the next state. -/
abbrev Serve (B σ : Type) := σ → List B × σ

namespace Protocol

variable {B D Y σ A R : Type} (P : Protocol B D Y)

/-! ## The server -/

def exceptionReply (name : Text) (seqid : Int32) (x : ApplicationException) : List B :=
  P.messageBegin.write ⟨name, .exception, seqid⟩ ++ P.applicationException.write x

def resultReply (name : Text) (seqid : Int32) (result : List B) : List B :=
  P.messageBegin.write ⟨name, .reply, seqid⟩ ++ result

/-- Read the arguments, call the handler, and write its result or its exception. -/
def processCall (name : Text) (readArgs : Reader B A) (call : A → σ → Except Text R × σ)
    (writeResult : R → List B) (seqid : Int32) : Reader B (Serve B σ) := do
  let args ← readArgs
  pure fun s =>
    match call args s with
    | (.error what, s) => (P.exceptionReply name seqid ⟨ApplicationException.unknown, what⟩, s)
    | (.ok result, s) => (P.resultReply name seqid (writeResult result), s)

def invalidMethodName (name : Text) : Text :=
  "Invalid method name: '".toList ++ name ++ "'".toList

/-- A method that is not in the map is answered without the handler. -/
def dispatchCall (processMap : Text → Option (Int32 → Reader B (Serve B σ))) (name : Text)
    (seqid : Int32) : Reader B (Serve B σ) :=
  match processMap name with
  | some process => process seqid
  | none => do
      P.skip recursionLimit .struct
      pure fun s =>
        (P.exceptionReply name seqid ⟨ApplicationException.unknownMethod, invalidMethodName name⟩, s)

/-- One call off the stream: the dispatcher hands its name and its number on. -/
def process (processMap : Text → Option (Int32 → Reader B (Serve B σ))) : Reader B (Serve B σ) := do
  let (name, seqid) ← P.callBegin
  P.dispatchCall processMap name seqid

/-! ## The client -/

def sendCall (name : Text) (args : List B) : List B := P.messageBegin.write ⟨name, .call, 0⟩ ++ args

def missingResult (name : Text) : ApplicationException :=
  ⟨ApplicationException.missingResult, name ++ " failed: unknown result".toList⟩

/-- The result that was read, or the exception for a reply without one. -/
def outcome (name : Text) : Option R → Except ApplicationException R
  | some result => .ok result
  | none => .error (missingResult name)

/-- Skip a reply that is not the one waited for. -/
def skipUnless (expected : Bool) : Reader B Unit :=
  if expected then pure () else P.skip recursionLimit .struct

/-- The result struct, when the reply has one.  A reply of another type or to another
method is skipped, and the result is read behind it. -/
def recvCall (name : Text) (readResult : Reader B (Option R)) :
    Reader B (Except ApplicationException R) := do
  let message ← P.messageBegin.reader
  if message.type = .exception then
    let x ← P.applicationException.reader
    pure (.error x)
  else do
    P.skipUnless (message.type = .reply)
    P.skipUnless (message.name = name)
    let result ← readResult
    pure (outcome name result)

/-! ## Results -/

/-- The struct of a result has one field, with number 0, and remembers whether it was there. -/
def resultKnown (type : WireType) (read : Nat → R → Reader B R) (depth : Nat)
    (header : WireType × Int16) : Option (R × Bool → Reader B (R × Bool)) :=
  if header = (type, 0) then
    some fun result => do
      let success ← read depth result.1
      pure (success, true)
  else none

def readResult (type : WireType) (read : Nat → R → Reader B R) (old : R) : Reader B (Option R) := do
  let result ← P.readStruct (resultKnown type read) recursionLimit (old, false)
  pure (if result.2 then some result.1 else none)

def writeResult (type : WireType) (success : List B) : List B := P.fieldCells [(type, 0, success)] ++ P.stop

section Laws

variable {P}

theorem takes_writeResult {type : WireType} {read : Nat → R → Reader B R} {old result : R}
    {cells : List B} (standard : type.standard = true)
    (takes : (read (recursionLimit - 1) old).Takes cells result) :
    (P.readResult type read old).Takes (P.writeResult type cells) (some result) := by
  have here : (P.structField (resultKnown type read) (recursionLimit - 1) (type, 0) (old, false)).Takes
      cells (result, true) := by
    refine takes_structField (if_pos rfl) (takes.bind_pure ?_)
    exact Reader.takes_pure _
  exact (takes_readStruct_field standard here).bind_pure (Reader.takes_pure _)

theorem process_nonempty {processMap : Text → Option (Int32 → Reader B (Serve B σ))} {taken : List B}
    {serve : Serve B σ} (takes : (P.process processMap).Takes taken serve) : taken ≠ [] :=
  Reader.bind_nonempty P.callBegin_nonempty takes

theorem recvCall_nonempty {name : Text} {readResult : Reader B (Option R)} {taken : List B}
    {found : Except ApplicationException R} (takes : (P.recvCall name readResult).Takes taken found) :
    taken ≠ [] :=
  Reader.bind_nonempty P.messageBegin_nonempty takes

/-- The request of a method is answered by the handler. -/
theorem takes_process {processMap : Text → Option (Int32 → Reader B (Serve B σ))} {name : Text}
    {readArgs : Reader B A} {call : A → σ → Except Text R × σ} {writeResult : R → List B}
    (plain : Plain name) (found : processMap name = some (P.processCall name readArgs call writeResult))
    {cells : List B} {args : A} (takes : readArgs.Takes cells args) :
    (P.process processMap).Takes (P.sendCall name cells) fun s =>
      match call args s with
      | (.error what, s) => (P.exceptionReply name 0 ⟨ApplicationException.unknown, what⟩, s)
      | (.ok result, s) => (P.resultReply name 0 (writeResult result), s) := by
  refine (P.takes_callBegin plain 0).bind ?_
  simp only [dispatchCall, found]
  exact takes.bind_pure (Reader.takes_pure _)

/-- A call of a method through the wire: what the handler says in its state is what the
client reads, when it can read every reply that the handler may give there. -/
theorem call_works {O : Type} {processMap : Text → Option (Int32 → Reader B (Serve B σ))} {name : Text}
    {readArgs : Reader B A} {call : A → σ → Except Text R × σ} {writeResult : R → List B}
    (outcome : Except Text R → O) (s : σ) (plain : Plain name)
    (found : processMap name = some (P.processCall name readArgs call writeResult))
    {cells : List B} {args : A} (takes : readArgs.Takes cells args) {recv : Reader B O}
    (returned : ∀ result, (call args s).1 = .ok result →
      recv.Takes (P.resultReply name 0 (writeResult result)) (outcome (.ok result)))
    (threw : ∀ what, (call args s).1 = .error what →
      recv.Takes (P.exceptionReply name 0 ⟨ApplicationException.unknown, what⟩) (outcome (.error what))) :
    ∃ serve, (P.process processMap).Takes (P.sendCall name cells) serve ∧
      recv.Takes (serve s).1 (outcome (call args s).1) ∧ (serve s).2 = (call args s).2 := by
  refine ⟨_, takes_process plain found takes, ?_⟩
  rcases called : call args s with ⟨said, next⟩
  rw [called] at returned threw
  cases said with
  | error what => exact ⟨threw what rfl, rfl⟩
  | ok result => exact ⟨returned result rfl, rfl⟩

/-- A method that the map does not have is answered with an exception, and the handler
keeps its state. -/
theorem takes_process_unknown {processMap : Text → Option (Int32 → Reader B (Serve B σ))} {name : Text}
    (plain : Plain name) (missing : processMap name = none) {cells : List B}
    (encoded : P.Encoded recursionLimit .struct cells) :
    (P.process processMap).Takes (P.sendCall name cells) fun s =>
      (P.exceptionReply name 0 ⟨ApplicationException.unknownMethod, invalidMethodName name⟩, s) := by
  refine (P.takes_callBegin plain 0).bind ?_
  simp only [dispatchCall, missing]
  exact (P.takes_skip encoded).bind_pure (Reader.takes_pure _)

theorem takes_recvCall_exception {name : Text} {readResult : Reader B (Option R)}
    (plain : Plain name) (seqid : Int32) {x : ApplicationException} (fits : Plain x.message)
    (called : Text) :
    (P.recvCall called readResult).Takes (P.exceptionReply name seqid x) (.error x) := by
  refine (P.messageBegin.takes_write ⟨rfl, plain⟩).bind ?_
  rw [if_pos rfl]
  exact (P.applicationException.takes_write fits).bind_pure (Reader.takes_pure _)

theorem takes_skipUnless {expected : Bool} (holds : expected = true) : (P.skipUnless expected).Takes [] () := by
  rw [skipUnless, if_pos holds]
  exact Reader.takes_pure ()

theorem takes_recvCall {name : Text} {readResult : Reader B (Option R)} (plain : Plain name)
    (seqid : Int32) {cells : List B} {result : Option R} (takes : readResult.Takes cells result) :
    (P.recvCall name readResult).Takes (P.resultReply name seqid cells) (outcome name result) := by
  refine (P.messageBegin.takes_write ⟨rfl, plain⟩).bind ?_
  rw [if_neg (by simp)]
  exact (takes_skipUnless rfl).bind ((takes_skipUnless (decide_eq_true rfl)).bind
    (takes.bind_pure (Reader.takes_pure _)))

end Laws

end Protocol

/-! ## Many calls on one connection -/

section Connection

variable {B σ O : Type}

/-- So many calls off the stream: the cells of all replies, what is left of the stream, and
the last state. -/
def serveCalls (server : Reader B (Serve B σ)) : Nat → List B → σ → Option (List B × List B × σ)
  | 0, stream, s => some ([], stream, s)
  | count + 1, stream, s => do
      let (serve, stream) ← server.run stream
      let (reply, s) := serve s
      let (replies, stream, s) ← serveCalls server count stream s
      some (reply ++ replies, stream, s)

/-- Read one reply for every call. -/
def receiveAll : List (Reader B O) → List B → Option (List O × List B)
  | [], stream => some ([], stream)
  | recv :: rest, stream => do
      let (outcome, stream) ← recv.run stream
      let (outcomes, stream) ← receiveAll rest stream
      some (outcome :: outcomes, stream)

/-- One call: what the client sends and how it reads the reply, and what the handler would
answer without the wire. -/
structure Exchange (B σ O : Type) where
  request : List B
  recv : Reader B O
  answer : σ → O × σ

/-- The answer comes through the wire in every state of the handler. -/
def Exchange.Works (server : Reader B (Serve B σ)) (e : Exchange B σ O) : Prop :=
  ∃ serve, server.Takes e.request serve ∧
    ∀ s, e.recv.Takes (serve s).1 (e.answer s).1 ∧ (serve s).2 = (e.answer s).2

/-- The answers of the handler, one call after another. -/
def answerAll : List (Exchange B σ O) → σ → List O × σ
  | [], s => ([], s)
  | e :: rest, s =>
      let (outcome, s) := e.answer s
      let (outcomes, s) := answerAll rest s
      (outcome :: outcomes, s)

/-- Calls that leave the state alone. -/
theorem answerAll_of_answers {α : Type} {items : List α} {exchange : α → Exchange B σ O}
    {outcome : α → O} (each : ∀ item ∈ items, ∀ s, (exchange item).answer s = (outcome item, s)) (s : σ) :
    answerAll (items.map exchange) s = (items.map outcome, s) := by
  induction items with
  | nil => rfl
  | cons item items ih =>
      obtain ⟨here, others⟩ := List.forall_mem_cons.mp each
      simp only [List.map_cons, answerAll, here s, ih others]

/-- The answers come through the wire in the states that the calls leave, one after another. -/
def WorksFrom (server : Reader B (Serve B σ)) : List (Exchange B σ O) → σ → Prop
  | [], _ => True
  | e :: rest, s =>
      (∃ serve, server.Takes e.request serve ∧ e.recv.Takes (serve s).1 (e.answer s).1 ∧
        (serve s).2 = (e.answer s).2) ∧ WorksFrom server rest (e.answer s).2

/-- Calls that are sent before any reply is read are answered in order, and the client reads from
the replies what the handler has answered. -/
theorem exchanges_from {server : Reader B (Serve B σ)} {calls : List (Exchange B σ O)} {s : σ}
    (works : WorksFrom server calls s) (more later : List B) :
    ∃ replies, serveCalls server calls.length (calls.flatMap Exchange.request ++ more) s =
        some (replies, more, (answerAll calls s).2) ∧
      receiveAll (calls.map Exchange.recv) (replies ++ later) = some ((answerAll calls s).1, later) := by
  induction calls generalizing s with
  | nil => exact ⟨[], rfl, rfl⟩
  | cons e calls ih =>
      obtain ⟨⟨serve, takes, reads, next⟩, others⟩ := works
      obtain ⟨replies, served, received⟩ := ih others
      refine ⟨(serve s).1 ++ replies, ?_, ?_⟩
      · rw [List.flatMap_cons, List.length_cons, List.append_assoc]
        simp only [serveCalls, takes (calls.flatMap Exchange.request ++ more), next, served, answerAll,
          Option.bind_eq_bind, Option.bind_some]
      · rw [List.map_cons, List.append_assoc]
        simp only [receiveAll, reads (replies ++ later), received, answerAll, Option.bind_eq_bind,
          Option.bind_some]

/-- Calls that work in every state. -/
theorem exchanges {server : Reader B (Serve B σ)} {calls : List (Exchange B σ O)}
    (works : ∀ e ∈ calls, e.Works server) (s : σ) (more later : List B) :
    ∃ replies, serveCalls server calls.length (calls.flatMap Exchange.request ++ more) s =
        some (replies, more, (answerAll calls s).2) ∧
      receiveAll (calls.map Exchange.recv) (replies ++ later) = some ((answerAll calls s).1, later) := by
  refine exchanges_from ?_ more later
  induction calls generalizing s with
  | nil => trivial
  | cons e calls ih =>
      obtain ⟨⟨serve, takes, each⟩, others⟩ := List.forall_mem_cons.mp works
      exact ⟨⟨serve, takes, each s⟩, ih others _⟩

end Connection

end CppProject.Library.Wire
