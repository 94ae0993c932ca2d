import Mathlib.Data.BitVec
import Mathlib.Logic.Function.Basic

/-!
# Mixing words

A hash function mixes the blocks of its input into a word, one after another.  The operations
that such functions are made of lose nothing: two words that differ still differ after any of
them.  So a difference in one block is still there at the end.
-/

namespace CppProject.Library.Mixing

open Function

variable {w : Nat}

/-- The highest bits stay, and every lower bit is the exclusive or with one that is known. -/
theorem xor_shift_injective {shift : Nat} (positive : 0 < shift) :
    Injective fun word : BitVec w => word ^^^ (word >>> shift) := by
  intro x y same
  have above (left : Nat) : ∀ i, w ≤ i + left → x.getLsbD i = y.getLsbD i := by
    induction left with
    | zero =>
        intro i outside
        rw [BitVec.getLsbD_of_ge x i outside, BitVec.getLsbD_of_ge y i outside]
    | succ left ih =>
        intro i near
        have bit := congrArg (fun word => word.getLsbD i) same
        simp only [BitVec.getLsbD_xor, BitVec.getLsbD_ushiftRight, ih (shift + i) (by omega)] at bit
        exact Bool.xor_left_inj.mp bit
  exact BitVec.eq_of_getLsbD_eq fun i _ => above w i (Nat.le_add_left _ _)

/-- A factor with an inverse can be taken back. -/
theorem mul_injective {factor inverse : BitVec w} (inverts : factor * inverse = 1) :
    Injective fun word => word * factor :=
  LeftInverse.injective (g := fun word => word * inverse) fun word => by
    change word * factor * inverse = word
    rw [BitVec.mul_assoc, inverts]
    exact BitVec.mul_one word

section Absorbing

variable {σ β ρ : Type}

/-- A step that tells states apart, and blocks. -/
structure Absorbs (step : σ → β → ρ) : Prop where
  state : ∀ block, Injective fun s => step s block
  block : ∀ s, Injective (step s)

/-- What is mixed on either side can be mixed by exclusive or. -/
theorem absorbs_xor {f : σ → BitVec w} {g : β → BitVec w} (states : Injective f) (blocks : Injective g) :
    Absorbs fun s block => f s ^^^ g block :=
  ⟨fun block _ _ same => states ((BitVec.xor_left_inj (g block)).mp same),
    fun s _ _ same => blocks ((BitVec.xor_right_inj (f s)).mp same)⟩

namespace Absorbs

variable {step : σ → β → ρ} (absorbs : Absorbs step)

include absorbs

/-- The result can be mixed further. -/
theorem comp {υ : Type} {f : ρ → υ} (mixes : Injective f) : Absorbs fun s block => f (step s block) :=
  ⟨fun block => mixes.comp (absorbs.state block), fun s => mixes.comp (absorbs.block s)⟩

/-- Where the states are the same or the blocks are, the results tell which. -/
theorem eq_iff {s t : σ} {x y : β} (either : s = t ∨ x = y) : step s x = step t y ↔ s = t ∧ x = y := by
  constructor
  · intro same
    rcases either with rfl | rfl
    · exact ⟨rfl, absorbs.block s same⟩
    · exact ⟨absorbs.state x same, rfl⟩
  · rintro ⟨rfl, rfl⟩
    rfl

end Absorbs

end Absorbing

end CppProject.Library.Mixing
