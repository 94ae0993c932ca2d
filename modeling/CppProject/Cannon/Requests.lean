import CppProject.Cannon.CannonServer
import CppProject.Cannon.KVSchema

/-!
# Requests of any length

A request comes from the network and its length is never checked.  The loop of
`CannonHandler::get` strides by the key size of the schema, which may be zero, and a
partial key at the end of the request is handed to `seek` like a whole one.
-/

namespace CppProject.Cannon.CannonHandler

open Library Library.Checked ImmutableHashMap

variable {hash : List Byte → Nat} {store : ImmutableHashMap} {req : CannonRequest}

/-- `get` ends, without a division by zero, and every key that it hands to `seek` lies
inside the request. -/
structure StaysInside (hash : List Byte → Nat) (store : ImmutableHashMap) (req : CannonRequest) :
    Prop where
  ends : ∃ fuel, getOn hash store req fuel ≠ .error .outOfFuel ∧
    getOn hash store req fuel ≠ .error .divisionByZero
  inside : ∀ rounds last, Loop.Trace (getRound hash store req) GetState.begin rounds last →
    last.pos < req.keys.length → last.pos + store.keySize ≤ req.keys.length

theorem getRound_some {s next : GetState} (go : getRound hash store req s = .ok (some next)) :
    s.pos + store.keySize ≤ req.keys.length ∧ next.pos = s.pos + store.keySize := by
  unfold getRound at go
  split at go
  · obtain ⟨key, read, go⟩ := bind_eq_ok.mp go
    obtain ⟨answer, _, go⟩ := bind_eq_ok.mp go
    refine ⟨readBlock_inside read, ?_⟩
    cases answer <;> cases go <;> rfl
  · cases go

section Silent

variable (silent : ∀ q, seekValue hash store q = .ok none)

include silent

end Silent

end CppProject.Cannon.CannonHandler
