import Mathlib.Computability.Language

/-!
# Sequences of starred and plain letters

The language of a sequence of items, each a class of letters that is taken once
or repeated, and the machine that reads it: a state is the suffix of the items
that is still to be read, waiting for a letter of its first item.
-/

namespace CppProject.Library

/-- A letter class, taken once or starred. -/
structure Item (σ : Type) where
  symbol : σ
  starred : Bool
  deriving DecidableEq, Repr

namespace Items

variable {σ α : Type} (accepts : σ → α → Prop)

/-- The words of one letter of the class. -/
def letter (symbol : σ) : Language α := {word | ∃ x, accepts symbol x ∧ word = [x]}

/-- The language of one item. -/
def itemLanguage (item : Item σ) : Language α :=
  if item.starred then KStar.kstar (letter accepts item.symbol) else letter accepts item.symbol

/-- The language of a sequence of items. -/
def sequence (items : List (Item σ)) : Language α := (items.map (itemLanguage accepts)).prod

/-- What is left to read after a letter of `item` in front of `rest`. -/
def after (item : Item σ) (rest : List (Item σ)) : List (Item σ) :=
  if item.starred then item :: rest else rest

/-- The suffixes that can read the next letter: starred items may be skipped. -/
def pending : List (Item σ) → List (List (Item σ))
  | [] => [[]]
  | item :: rest => if item.starred then (item :: rest) :: pending rest else [item :: rest]

/-- The words read by starting with a letter of the first item. -/
def waits : List (Item σ) → Language α
  | [] => 1
  | item :: rest => letter accepts item.symbol * sequence accepts (after item rest)

variable {accepts}

theorem nil_notMem_letter_mul (symbol : σ) (l : Language α) : [] ∉ letter accepts symbol * l := by
  rintro ⟨first, ⟨x, _, rfl⟩, rest, _, same⟩
  cases same

theorem cons_mem_letter_mul {symbol : σ} {l : Language α} {x : α} {word : List α} :
    x :: word ∈ letter accepts symbol * l ↔ accepts symbol x ∧ word ∈ l := by
  constructor
  · rintro ⟨first, ⟨y, accepted, rfl⟩, rest, member, same⟩
    cases same
    exact ⟨accepted, member⟩
  · rintro ⟨accepted, member⟩
    exact ⟨[x], ⟨x, accepted, rfl⟩, word, member, rfl⟩

theorem sequence_cons (item : Item σ) (rest : List (Item σ)) :
    sequence accepts (item :: rest) = itemLanguage accepts item * sequence accepts rest := by
  simp only [sequence, List.map_cons, List.prod_cons]

/-- A word of the sequence starts with a letter of the first item, or skips it
when it is starred. -/
theorem sequence_cons_eq (item : Item σ) (rest : List (Item σ)) :
    sequence accepts (item :: rest) =
      waits accepts (item :: rest) + if item.starred then sequence accepts rest else 0 := by
  simp only [waits, after]
  cases starred : item.starred with
  | false =>
      rw [sequence_cons, itemLanguage, starred]
      exact (add_zero (letter accepts item.symbol * sequence accepts rest)).symm
  | true =>
      have unfolded := Language.one_add_self_mul_kstar_eq_kstar (letter accepts item.symbol)
      have language_eq : itemLanguage accepts item = KStar.kstar (letter accepts item.symbol) :=
        if_pos starred
      simp only [if_true, sequence_cons, language_eq]
      calc KStar.kstar (letter accepts item.symbol) * sequence accepts rest
          _ = (1 + letter accepts item.symbol * KStar.kstar (letter accepts item.symbol)) *
                sequence accepts rest := by rw [unfolded]
          _ = _ := by rw [add_mul, one_mul, mul_assoc, add_comm]

/-- A word belongs to the sequence when one of the pending suffixes reads it. -/
theorem mem_sequence_iff {items : List (Item σ)} {word : List α} :
    word ∈ sequence accepts items ↔ ∃ suffix ∈ pending items, word ∈ waits accepts suffix := by
  induction items with
  | nil => simp [sequence, pending, waits]
  | cons item rest ih =>
      rw [sequence_cons_eq, Language.mem_add]
      unfold pending
      cases item.starred with
      | false => simp
      | true => simp [ih]

theorem nil_mem_waits_iff {suffix : List (Item σ)} : [] ∈ waits accepts suffix ↔ suffix = [] := by
  cases suffix with
  | nil => exact iff_of_true Language.nil_mem_one rfl
  | cons item rest => exact iff_of_false (nil_notMem_letter_mul _ _) (List.cons_ne_nil _ _)

theorem cons_mem_waits_iff {suffix : List (Item σ)} {x : α} {word : List α} :
    x :: word ∈ waits accepts suffix ↔
      ∃ item rest, suffix = item :: rest ∧ accepts item.symbol x ∧
        word ∈ sequence accepts (after item rest) := by
  cases suffix with
  | nil => simp [waits]
  | cons item rest =>
      simp only [waits, cons_mem_letter_mul, List.cons.injEq]
      constructor
      · rintro ⟨accepted, member⟩
        exact ⟨item, rest, ⟨rfl, rfl⟩, accepted, member⟩
      · rintro ⟨_, _, ⟨rfl, rfl⟩, accepted, member⟩
        exact ⟨accepted, member⟩

/-! ## The suffix machine -/

variable (accepts)

/-- The suffixes reached from a set of suffixes by one letter. -/
def advance (x : α) (suffixes : Set (List (Item σ))) : Set (List (Item σ)) :=
  {next | ∃ item rest, item :: rest ∈ suffixes ∧ accepts item.symbol x ∧
    next ∈ pending (after item rest)}

/-- The suffixes reached by a word. -/
def reached (suffixes : Set (List (Item σ))) : List α → Set (List (Item σ))
  | [] => suffixes
  | x :: word => reached (advance accepts x suffixes) word

variable {accepts}

theorem reached_iff {suffixes : Set (List (Item σ))} {word : List α} :
    [] ∈ reached accepts suffixes word ↔ ∃ suffix ∈ suffixes, word ∈ waits accepts suffix := by
  induction word generalizing suffixes with
  | nil => simp [reached, nil_mem_waits_iff]
  | cons x word ih =>
      rw [reached, ih]
      constructor
      · rintro ⟨next, ⟨item, rest, member, accepted, step⟩, reads⟩
        exact ⟨item :: rest, member,
          cons_mem_waits_iff.mpr ⟨item, rest, rfl, accepted, mem_sequence_iff.mpr ⟨next, step, reads⟩⟩⟩
      · rintro ⟨suffix, member, reads⟩
        obtain ⟨item, rest, rfl, accepted, tail⟩ := cons_mem_waits_iff.mp reads
        obtain ⟨next, step, reads⟩ := mem_sequence_iff.mp tail
        exact ⟨next, ⟨item, rest, member, accepted, step⟩, reads⟩

/-- The machine decides the language of the sequence. -/
theorem mem_sequence_iff_reached {items : List (Item σ)} {word : List α} :
    word ∈ sequence accepts items ↔
      [] ∈ reached accepts {suffix | suffix ∈ pending items} word := by
  rw [mem_sequence_iff, reached_iff]
  rfl

/-- A machine without suffixes stays without them. -/
theorem reached_empty (word : List α) : reached accepts (∅ : Set (List (Item σ))) word = ∅ := by
  induction word with
  | nil => rfl
  | cons x word ih =>
      have stuck : advance accepts x (∅ : Set (List (Item σ))) = ∅ := by
        ext next
        simp [advance]
      rw [reached, stuck, ih]

/-- Pending suffixes are suffixes. -/
theorem pending_isSuffix {items suffix : List (Item σ)} (member : suffix ∈ pending items) :
    suffix <:+ items := by
  induction items with
  | nil => simp_all [pending]
  | cons item rest ih =>
      unfold pending at member
      split at member
      · rcases List.mem_cons.mp member with rfl | later
        · exact List.suffix_rfl
        · exact (ih later).trans (List.suffix_cons item rest)
      · rw [List.mem_singleton.mp member]

theorem after_isSuffix (item : Item σ) (rest : List (Item σ)) : after item rest <:+ item :: rest := by
  unfold after
  split
  · exact List.suffix_rfl
  · exact List.suffix_cons item rest

end Items

end CppProject.Library
