import CppProject.Cannon.HashLoads
import CppProject.Library.Mixing
import Mathlib.Data.Nat.Digits.Lemmas

/-!
# `__murmur2_or_cityhash<size_t, 32>`

The hash of a build with 32-bit sizes.  It mixes the key into one word, four bytes at a time and
the last few together, and every step tells its inputs apart: two keys that differ within one
such block get different hashes.  Only keys of 32 bytes are told apart by their first four.
-/

namespace CppProject.Cannon.BytesHash

open Function Library Library.Checked Library.Mixing

/-- `__m` -/
def murmurM : BitVec 32 := 0x5bd1e995

/-- The variables of the loop; `data` is an offset. -/
structure MurmurState where
  data : Nat
  len : Nat
  h : BitVec 32

/-- `__k *= __m; __k ^= __k >> __r; __k *= __m` -/
def murmurBlock (k : BitVec 32) : BitVec 32 :=
  let k := k * murmurM
  let k := k ^^^ (k >>> 24)
  k * murmurM

/-- One round of the loop over the words of the key. -/
def murmurRound (key : List Byte) (t : MurmurState) : Except Fault (Option MurmurState) :=
  if 4 ≤ t.len then do
    let k ← loadword32 key t.data
    .ok (some ⟨t.data + 4, t.len - 4, (t.h * murmurM) ^^^ murmurBlock k⟩)
  else .ok none

/-- `case 1:` -/
def murmurCase1 (key : List Byte) (data : Nat) (h : BitVec 32) : Except Fault (BitVec 32) := do
  let byte ← load key data
  .ok ((h ^^^ byte.setWidth 32) * murmurM)

/-- `case 2:`, which falls through. -/
def murmurCase2 (key : List Byte) (data : Nat) (h : BitVec 32) : Except Fault (BitVec 32) := do
  let byte ← load key (data + 1)
  murmurCase1 key data (h ^^^ (byte.setWidth 32 <<< 8))

/-- `case 3:`, which falls through. -/
def murmurCase3 (key : List Byte) (data : Nat) (h : BitVec 32) : Except Fault (BitVec 32) := do
  let byte ← load key (data + 2)
  murmurCase2 key data (h ^^^ (byte.setWidth 32 <<< 16))

/-- `switch (__len)` -/
def murmurTail (key : List Byte) (t : MurmurState) : Except Fault (BitVec 32) :=
  match t.len with
  | 3 => murmurCase3 key t.data t.h
  | 2 => murmurCase2 key t.data t.h
  | 1 => murmurCase1 key t.data t.h
  | _ => .ok t.h

/-- `__h ^= __h >> 13; __h *= __m; __h ^= __h >> 15` -/
def murmurFinish (h : BitVec 32) : BitVec 32 :=
  let h := h ^^^ (h >>> 13)
  let h := h * murmurM
  h ^^^ (h >>> 15)

/-- `__murmur2_or_cityhash<size_t, 32>::operator()` on the bytes of a key. -/
def murmur2 (key : List Byte) : Except Fault (BitVec 32) :=
  let len := key.length
  if len = 32 then loadword32 key 0
  else do
    let t ← whileLoop (murmurRound key) (len + 1) ⟨0, len, BitVec.ofNat 32 len⟩
    let h ← murmurTail key t
    .ok (murmurFinish h)

/-! ## What each step tells apart -/

theorem murmurM_injective : Injective fun word => word * murmurM :=
  mul_injective (show murmurM * 0xe59b19bd = 1 by decide)

theorem murmurBlock_injective : Injective murmurBlock :=
  murmurM_injective.comp ((xor_shift_injective (by decide)).comp murmurM_injective)

theorem murmurFinish_injective : Injective murmurFinish :=
  (xor_shift_injective (by decide)).comp (murmurM_injective.comp (xor_shift_injective (by decide)))

theorem absorbs_word : Absorbs fun (h : BitVec 32) k => (h * murmurM) ^^^ murmurBlock k :=
  absorbs_xor murmurM_injective murmurBlock_injective

/-- The last bytes of a key in one word. -/
def tailWord (bytes : Byte × Byte × Byte) : BitVec 32 :=
  bytes.2.2.setWidth 32 <<< 16 ^^^ (bytes.2.1.setWidth 32 <<< 8 ^^^ bytes.1.setWidth 32)

theorem tailWord_bits (bytes : Byte × Byte × Byte) {i : Nat} (bit : i < 8) :
    (tailWord bytes).getLsbD i = bytes.1.getLsbD i ∧
      (tailWord bytes).getLsbD (i + 8) = bytes.2.1.getLsbD i ∧
      (tailWord bytes).getLsbD (i + 16) = bytes.2.2.getLsbD i := by
  obtain ⟨low, middle, high⟩ := bytes
  refine ⟨?_, ?_, ?_⟩
  · simp [tailWord, show i < 16 by omega, bit, show i < 32 by omega]
  · simp [tailWord, show i + 8 < 16 by omega, show i + 8 < 32 by omega]
  · simp [tailWord, show i + 16 < 32 by omega, show i + 16 - 8 = i + 8 by omega]

theorem tailWord_injective : Injective tailWord := by
  rintro ⟨low, middle, high⟩ ⟨low', middle', high'⟩ same
  have bits {i : Nat} (bit : i < 8) := tailWord_bits (low, middle, high) bit
  have bits' {i : Nat} (bit : i < 8) := tailWord_bits (low', middle', high') bit
  rw [← same] at bits'
  have lows : low = low' := BitVec.eq_of_getLsbD_eq fun i bit => (bits bit).1.symm.trans (bits' bit).1
  have middles : middle = middle' :=
    BitVec.eq_of_getLsbD_eq fun i bit => (bits bit).2.1.symm.trans (bits' bit).2.1
  have highs : high = high' :=
    BitVec.eq_of_getLsbD_eq fun i bit => (bits bit).2.2.symm.trans (bits' bit).2.2
  rw [lows, middles, highs]

theorem absorbs_tail : Absorbs fun (h : BitVec 32) bytes => (h ^^^ tailWord bytes) * murmurM :=
  (absorbs_xor injective_id tailWord_injective).comp murmurM_injective

/-! ## Two keys side by side -/

variable {a b : List Byte}

/-- The keys do not differ but in one word. -/
def OneWord (a b : List Byte) (word : Nat) : Prop := ∀ pos, pos / 4 ≠ word → a[pos]? = b[pos]?

/-- In front of every word the keys are the same, or the word is. -/
theorem OneWord.either {word n size : Nat} (one : OneWord a b word) (aligned : n % 4 = 0) (small : size ≤ 4) :
    a.take n = b.take n ∨ slice a n size = slice b n size := by
  by_cases here : n / 4 = word
  · left
    refine List.ext_getElem? fun pos => ?_
    rw [List.getElem?_take, List.getElem?_take]
    split
    next inside => exact one pos (by omega)
    next => rfl
  · right
    refine List.ext_getElem? fun pos => ?_
    rcases Nat.lt_or_ge pos size with inside | outside
    · rw [getElem?_slice a inside, getElem?_slice b inside]
      exact one (n + pos) (by omega)
    · have short (cells : List Byte) : (slice cells n size).length ≤ pos := by
        rw [slice, List.length_take]
        omega
      rw [List.getElem?_eq_none (short a), List.getElem?_eq_none (short b)]

theorem loadword32_slice {key : List Byte} {pos : Nat} (inside : pos + 4 ≤ key.length) :
    loadword32 key pos =
      .ok (BitVec.ofNat 32 (Nat.ofDigits 256 ((slice key pos 4).map BitVec.toNat))) := by
  rw [loadword32, loadBytes, readBlock_of_le inside, ok_bind, ok_bind, Nat.ofDigits_eq_foldr, List.foldr_map]
  rfl

/-- Two words are the same when their bytes are. -/
theorem ofDigits_word_inj {front back : List Byte} (front_four : front.length = 4) (back_four : back.length = 4) :
    BitVec.ofNat 32 (Nat.ofDigits 256 (front.map BitVec.toNat)) =
        BitVec.ofNat 32 (Nat.ofDigits 256 (back.map BitVec.toNat)) ↔ front = back := by
  have digits (bytes : List Byte) : ∀ digit ∈ bytes.map BitVec.toNat, digit < 256 := by
    intro digit member
    obtain ⟨byte, _, rfl⟩ := List.mem_map.mp member
    exact byte.isLt
  have below (bytes : List Byte) (four : bytes.length = 4) :
      Nat.ofDigits 256 (bytes.map BitVec.toNat) < 2 ^ 32 := by
    have bound := Nat.ofDigits_lt_base_pow_length (by decide) (digits bytes)
    rw [List.length_map, four] at bound
    exact bound
  refine ⟨fun same => ?_, fun same => by rw [same]⟩
  have values := congrArg BitVec.toNat same
  rw [BitVec.toNat_ofNat, BitVec.toNat_ofNat, Nat.mod_eq_of_lt (below front front_four),
    Nat.mod_eq_of_lt (below back back_four)] at values
  refine List.map_injective_iff.mpr (fun _ _ => BitVec.eq_of_toNat_eq) ?_
  exact Nat.ofDigits_inj_of_len_eq (by decide) (by rw [List.length_map, List.length_map, front_four, back_four])
    (digits front) (digits back) values

/-- The bytes of a tail, with zeros behind them. -/
def padded (bytes : List Byte) : Byte × Byte × Byte := (bytes.getD 0 0, bytes.getD 1 0, bytes.getD 2 0)

theorem padded_inj {front back : List Byte} (same_length : front.length = back.length)
    (few : front.length ≤ 3) : padded front = padded back ↔ front = back := by
  refine ⟨fun same => ?_, fun same => by rw [same]⟩
  simp only [padded, Prod.mk.injEq] at same
  refine List.ext_getElem same_length fun i i_front i_back => ?_
  have found : front.getD i 0 = back.getD i 0 := by
    rcases i with _ | _ | _ | i
    · exact same.1
    · exact same.2.1
    · exact same.2.2
    · omega
  rwa [List.getD_eq_getElem?_getD, List.getD_eq_getElem?_getD, List.getElem?_eq_getElem i_front,
    List.getElem?_eq_getElem i_back] at found

/-- What the `switch` does with the last bytes. -/
theorem murmurTail_eq {key : List Byte} {data len : Nat} (h : BitVec 32) (whole : data + len = key.length)
    (some_byte : 0 < len) (few : len < 4) :
    murmurTail key ⟨data, len, h⟩ = .ok ((h ^^^ tailWord (padded (slice key data len))) * murmurM) := by
  have bytes {i : Nat} (inside : i < len) :
      load key (data + i) = .ok ((slice key data len).getD i 0) := by
    have found : (slice key data len)[i]? = key[data + i]? := getElem?_slice key inside
    rw [load_eq_ok, List.getD_eq_getElem?_getD, found,
      List.getElem?_eq_getElem (show data + i < key.length by omega), Option.getD_some]
  have length : (slice key data len).length = len := slice_length (Nat.le_of_eq whole)
  have beyond {i : Nat} (outside : len ≤ i) : (slice key data len).getD i 0 = 0 := by
    rw [List.getD_eq_getElem?_getD, List.getElem?_eq_none (length.le.trans outside), Option.getD_none]
  obtain rfl | rfl | rfl : len = 1 ∨ len = 2 ∨ len = 3 := by omega
  · have first := @bytes 0 (by decide)
    rw [Nat.add_zero] at first
    simp only [murmurTail, murmurCase1, first, ok_bind, tailWord, padded, beyond (Nat.le_refl 1),
      beyond (Nat.le_succ 1)]
    simp
  · have first := @bytes 0 (by decide)
    rw [Nat.add_zero] at first
    simp only [murmurTail, murmurCase2, murmurCase1, first, bytes (Nat.lt_succ_self 1), ok_bind, tailWord,
      padded, beyond (Nat.le_refl 2), BitVec.xor_assoc]
    simp
  · have first := @bytes 0 (by decide)
    rw [Nat.add_zero] at first
    simp only [murmurTail, murmurCase3, murmurCase2, murmurCase1, first, @bytes 1 (by decide),
      bytes (Nat.lt_succ_self 2), ok_bind, tailWord, padded, BitVec.xor_assoc]

/-- The hashes of two keys go through their words side by side, and their states tell whether the
words so far were the same. -/
structure Beside (a b : List Byte) (s t : MurmurState) : Prop where
  data : s.data = t.data
  len : s.len = t.len
  whole : s.data + s.len = a.length
  aligned : s.data % 4 = 0
  same : s.h = t.h ↔ a.take s.data = b.take s.data

section Side

variable {word : Nat} (same_length : a.length = b.length) (one : OneWord a b word)

include same_length one

theorem Beside.round {s t : MurmurState} (beside : Beside a b s t) :
    (murmurRound a s = .ok none ∧ murmurRound b t = .ok none) ∨
      ∃ s' t', murmurRound a s = .ok (some s') ∧ murmurRound b t = .ok (some t') ∧ Beside a b s' t' ∧
        s'.len < s.len := by
  obtain ⟨data, len, h⟩ := s
  obtain ⟨_, _, h'⟩ := t
  obtain ⟨rfl, rfl, whole, aligned, same⟩ := beside
  simp only at whole aligned same
  unfold murmurRound
  by_cases more : 4 ≤ len
  · right
    have a_inside : data + 4 ≤ a.length := by omega
    have b_inside : data + 4 ≤ b.length := by omega
    rw [if_pos more, if_pos more, loadword32_slice a_inside, loadword32_slice b_inside, ok_bind, ok_bind]
    refine ⟨_, _, rfl, rfl, ⟨rfl, rfl, ?_, ?_, ?_⟩, ?_⟩
    · change data + 4 + (len - 4) = a.length
      omega
    · change (data + 4) % 4 = 0
      omega
    · have words := ofDigits_word_inj (slice_length a_inside) (slice_length b_inside)
      refine (absorbs_word.eq_iff ?_).trans ?_
      · exact (one.either aligned (Nat.le_refl 4)).imp same.mpr words.mpr
      · rw [same, words, take_add_eq_iff same_length]
    · change len - 4 < len
      omega
  · left
    rw [if_neg more, if_neg more]
    exact ⟨rfl, rfl⟩

theorem Beside.tail {s t : MurmurState} (beside : Beside a b s t) (few : s.len < 4) :
    ∃ x y, murmurTail a s = .ok x ∧ murmurTail b t = .ok y ∧ (x = y ↔ a = b) := by
  obtain ⟨data, len, h⟩ := s
  obtain ⟨_, _, h'⟩ := t
  obtain ⟨rfl, rfl, whole, aligned, same⟩ := beside
  simp only at whole aligned same few
  have all := take_add_eq_iff same_length data len
  rw [whole, List.take_length, same_length, List.take_length] at all
  rcases Nat.eq_zero_or_pos len with rfl | some_byte
  · refine ⟨h, h', rfl, rfl, same.trans ?_⟩
    rw [all]
    exact ⟨fun front => ⟨front, rfl⟩, And.left⟩
  · have back : data + len = b.length := whole.trans same_length
    refine ⟨_, _, murmurTail_eq h whole some_byte few, murmurTail_eq h' back some_byte few, ?_⟩
    have a_bytes : (slice a data len).length = len := slice_length (Nat.le_of_eq whole)
    have b_bytes : (slice b data len).length = len := slice_length (Nat.le_of_eq back)
    have bytes := padded_inj (a_bytes.trans b_bytes.symm) (by omega)
    refine (absorbs_tail.eq_iff ?_).trans ?_
    · exact (one.either aligned (Nat.le_of_lt few)).imp same.mpr bytes.mpr
    · rw [same, bytes, all]

/-- The hash comes to an end on every key, and on keys that differ within one word it is the same
only when they are. -/
theorem murmur2_tells (not_32 : a.length ≠ 32) :
    ∃ x y, murmur2 a = .ok x ∧ murmur2 b = .ok y ∧ (x = y ↔ a = b) := by
  have begun : Beside a b ⟨0, a.length, BitVec.ofNat 32 a.length⟩ ⟨0, a.length, BitVec.ofNat 32 a.length⟩ :=
    ⟨rfl, rfl, Nat.zero_add _, rfl, iff_of_true rfl rfl⟩
  have round : ∀ s, (∃ t, Beside a b s t) → murmurRound a s = .ok none ∨
      ∃ next, murmurRound a s = .ok (some next) ∧ (∃ t, Beside a b next t) ∧ next.len < s.len := by
    rintro s ⟨t, beside⟩
    rcases beside.round same_length one with ⟨done, _⟩ | ⟨s', t', go, _, after, less⟩
    · exact Or.inl done
    · exact Or.inr ⟨s', go, ⟨t', after⟩, less⟩
  obtain ⟨last, left, _, done⟩ := Loop.leaves round ⟨_, begun⟩ (Nat.lt_succ_self a.length)
  have both : ∀ s t, Beside a b s t → (murmurRound a s = .ok none ∧ murmurRound b t = .ok none) ∨
      (∃ fault, murmurRound a s = .error fault ∧ murmurRound b t = .error fault) ∨
      ∃ s' t', murmurRound a s = .ok (some s') ∧ murmurRound b t = .ok (some t') ∧ Beside a b s' t' := by
    intro s t beside
    rcases beside.round same_length one with none | ⟨s', t', go, go', after, _⟩
    · exact Or.inl none
    · exact Or.inr (Or.inr ⟨s', t', go, go', after⟩)
  rcases Loop.lockstep both (a.length + 1) begun with ⟨fault, stop, _⟩ | ⟨s, t, left_a, left_b, beside⟩
  · cases stop.symm.trans left
  · cases left_a.symm.trans left
    have few : last.len < 4 := by
      by_contra more
      rw [murmurRound, if_pos (Nat.not_lt.mp more)] at done
      obtain ⟨_, _, impossible⟩ := bind_eq_ok.mp done
      cases impossible
    obtain ⟨x, y, tail_a, tail_b, tells⟩ := beside.tail same_length one few
    refine ⟨murmurFinish x, murmurFinish y, ?_, ?_, murmurFinish_injective.eq_iff.trans tells⟩
    · simp only [murmur2, if_neg not_32, left_a, ok_bind, tail_a]
    · rw [same_length] at not_32 left_b
      simp only [murmur2, if_neg not_32, left_b, ok_bind, tail_b]

end Side

/-- Hashing a key comes to an end within the key.  Two keys of one length, whatever it is, that
differ within one aligned word never get the same hash, unless the length is 32: of these keys
the first four bytes are hashed, and no other. -/
theorem murmur2_same_iff (a b : List Byte) (same_length : a.length = b.length) (word : Nat)
    (one : OneWord a b word) :
    ∃ x y, murmur2 a = .ok x ∧ murmur2 b = .ok y ∧
      (x = y ↔ if a.length = 32 then a.take 4 = b.take 4 else a = b) := by
  by_cases first_word : a.length = 32
  · have a_inside : 0 + 4 ≤ a.length := by omega
    have b_inside : 0 + 4 ≤ b.length := by omega
    have a_word : murmur2 a = loadword32 a 0 := if_pos first_word
    have b_word : murmur2 b = loadword32 b 0 := if_pos (same_length ▸ first_word)
    refine ⟨_, _, a_word.trans (loadword32_slice a_inside), b_word.trans (loadword32_slice b_inside), ?_⟩
    rw [ofDigits_word_inj (slice_length a_inside) (slice_length b_inside), if_pos first_word]
    rfl
  · rw [if_neg first_word]
    exact murmur2_tells same_length one first_word

/-- Keys that differ in the last byte of a tail of two. -/
theorem murmur2_same_iff_tail :
    ∃ x y, murmur2 [1, 2, 3, 4, 5, 6] = .ok x ∧ murmur2 [1, 2, 3, 4, 5, 7] = .ok y ∧ x ≠ y := by
  have one : OneWord [1, 2, 3, 4, 5, 6] [1, 2, 3, 4, 5, 7] 1 := by
    intro pos elsewhere
    rcases pos with _ | _ | _ | _ | _ | _ | pos
    · rfl
    · rfl
    · rfl
    · rfl
    · rfl
    · exact absurd rfl elsewhere
    · rfl
  obtain ⟨x, y, hash_a, hash_b, same⟩ := murmur2_same_iff [1, 2, 3, 4, 5, 6] [1, 2, 3, 4, 5, 7] rfl 1 one
  exact ⟨x, y, hash_a, hash_b, fun equal => absurd (same.mp equal) (by decide)⟩

end CppProject.Cannon.BytesHash
