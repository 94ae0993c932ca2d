import CppProject.Cannon.BytesHash

/-!
# The loads of `__murmur2_or_cityhash<size_t, 64>`

Every word or byte is loaded from inside the key, whatever the length of the key is.  The
chunk loop keeps the offset and the remaining length at a fixed sum, and the length a multiple
of 64, so it comes to an end at zero.
-/

namespace CppProject.Cannon.BytesHash

open Library Library.Checked

variable {key : List Byte} {len pos back : Nat}

/-- A load or a hash of a part of the key that does not fault. -/
abbrev Loads {α : Type} (computation : Except Fault α) : Prop := Returns computation fun _ => True

theorem loads_ok {α : Type} (value : α) : Loads (.ok value) := ⟨value, rfl, trivial⟩

/-- A step that does not fault, and the steps behind it. -/
theorem Loads.then {α β : Type} {computation : Except Fault α} {f : α → Except Fault β}
    {Post : β → Prop} (first : Loads computation) (rest : ∀ value, Returns (f value) Post) :
    Returns (computation >>= f) Post :=
  first.bind fun value _ => rest value

theorem loads_byte (inside : pos < key.length) : Loads (load key pos) :=
  ⟨_, load_of_lt inside, trivial⟩

theorem loads_bytes {width : Nat} (inside : pos + width ≤ key.length) :
    Loads (loadBytes key width pos) :=
  Loads.then ⟨_, readBlock_of_le inside, trivial⟩ fun _ => loads_ok _

theorem loads_word (inside : pos + 8 ≤ key.length) : Loads (loadword key pos) :=
  (loads_bytes inside).then fun _ => loads_ok _

theorem loads_word32 (inside : pos + 4 ≤ key.length) : Loads (loadword32 key pos) :=
  (loads_bytes inside).then fun _ => loads_ok _

/-- A step that starts from an offset counted from the end of the key. -/
theorem returns_back {β : Type} {f : Nat → Except Fault β} {Post : β → Prop} (inside : back ≤ len)
    (rest : Returns (f (len - back)) Post) : Returns (backFrom len back >>= f) Post := by
  rw [backFrom, if_pos inside]
  exact rest

theorem loads_seeds (inside : pos + 32 ≤ key.length) (a b : Word) :
    Loads (weakHashLen32WithSeeds key pos a b) :=
  (loads_word (by omega)).then fun _ => (loads_word (by omega)).then fun _ =>
    (loads_word (by omega)).then fun _ => (loads_word (by omega)).then fun _ => loads_ok _

theorem loads_0_to_16 (short : key.length ≤ 16) : Loads (hashLen0To16 key key.length) := by
  unfold hashLen0To16
  split
  · exact (loads_word (by omega)).then fun _ => returns_back (by omega) <|
      (loads_word (by omega)).then fun _ => loads_ok _
  split
  · exact (loads_word32 (by omega)).then fun _ => returns_back (by omega) <|
      (loads_word32 (by omega)).then fun _ => loads_ok _
  split
  · have middle : key.length >>> 1 < key.length := by
      rw [Nat.shiftRight_one]
      omega
    exact (loads_byte (by omega)).then fun _ => (loads_byte middle).then fun _ =>
      returns_back (by omega) <| (loads_byte (by omega)).then fun _ => loads_ok _
  · exact loads_ok _

theorem loads_17_to_32 (long : 16 < key.length) : Loads (hashLen17To32 key key.length) := by
  unfold hashLen17To32
  refine (loads_word (by omega)).then fun _ => (loads_word (by omega)).then fun _ => ?_
  refine returns_back (by omega) <| (loads_word (by omega)).then fun _ => ?_
  exact returns_back (by omega) <| (loads_word (by omega)).then fun _ => loads_ok _

theorem loads_33_to_64 (long : 32 < key.length) : Loads (hashLen33To64 key key.length) := by
  unfold hashLen33To64
  refine (loads_word (by omega)).then fun _ => (loads_word (by omega)).then fun _ => ?_
  refine returns_back (by omega) <| (loads_word (by omega)).then fun _ => ?_
  refine (loads_word (by omega)).then fun _ => (loads_word (by omega)).then fun _ => ?_
  refine (loads_word (by omega)).then fun _ => ?_
  refine returns_back (by omega) <| (loads_word (by omega)).then fun _ => ?_
  refine returns_back (by omega) <| (loads_word (by omega)).then fun _ => ?_
  refine returns_back (by omega) <| (loads_word (by omega)).then fun _ => ?_
  exact returns_back (by omega) <| (loads_word (by omega)).then fun _ => loads_ok _

/-! ## The chunk loop -/

theorem chunkRound_returns {t : ChunkState} (inside : t.s + 64 ≤ key.length) :
    Returns (chunkRound key t) fun next => next.s = t.s + 64 ∧ next.len = lessChunk t.len := by
  unfold chunkRound
  refine (loads_word (by omega)).then fun _ => (loads_word (by omega)).then fun _ => ?_
  refine (loads_word (by omega)).then fun _ => (loads_seeds (by omega) _ _).then fun _ => ?_
  refine (loads_word (by omega)).then fun _ => (loads_seeds (by omega) _ _).then fun _ => ?_
  exact ⟨_, rfl, rfl, rfl⟩

/-- The states between two rounds: the remaining chunks lie inside the key. -/
structure Chunks (key : List Byte) (t : ChunkState) : Prop where
  inside : t.s + t.len ≤ key.length
  whole : t.len % 64 = 0

/-- The length is a multiple of 64, so taking a chunk off it does not wrap. -/
theorem lessChunk_le {len : Nat} (more : len ≠ 0) (whole : len % 64 = 0) :
    lessChunk len + 64 ≤ len ∧ lessChunk len % 64 = 0 := by
  unfold lessChunk
  omega

theorem Chunks.round {t : ChunkState} (chunks : Chunks key t) (more : t.len ≠ 0) :
    Returns (chunkRound key t) fun next => Chunks key next ∧ next.len < t.len := by
  obtain ⟨inside, whole⟩ := chunks
  obtain ⟨smaller, still_whole⟩ := lessChunk_le more whole
  obtain ⟨next, run, s_eq, len_eq⟩ := @chunkRound_returns key t (by omega)
  refine ⟨next, run, ⟨?_, ?_⟩, ?_⟩
  · rw [s_eq, len_eq]
    omega
  · rw [len_eq]
    exact still_whole
  · rw [len_eq]
    omega

/-- Behind the loop there is no chunk left; in front of it there is a round to come. -/
theorem Chunks.body {t : ChunkState} (chunks : Chunks key t) :
    (if t.len = 0 then .ok none else (chunkRound key t).map some : Except Fault (Option ChunkState)) =
        .ok none ∨
      ∃ next, (if t.len = 0 then .ok none else (chunkRound key t).map some) = .ok (some next) ∧
        Chunks key next ∧ next.len < t.len := by
  by_cases done : t.len = 0
  · exact Or.inl (if_pos done)
  · obtain ⟨next, go, after, less⟩ := chunks.round done
    refine Or.inr ⟨next, ?_, after, less⟩
    rw [if_neg done, go]
    rfl

/-- With at least one chunk to hash the loop ends. -/
theorem loads_chunkLoop {start : ChunkState} (chunks : Chunks key start) (more : start.len ≠ 0) :
    Loads (chunkLoop key start) := by
  obtain ⟨first, run, first_chunks, smaller⟩ := chunks.round more
  have enough : first.len < start.len + 1 := by omega
  obtain ⟨last, left, _⟩ := Loop.leaves (fun _ inv => Chunks.body inv) first_chunks enough
  exact ⟨last, bind_eq_ok.mpr ⟨first, run, left⟩, trivial⟩

theorem loads_over_64 (long : 64 < key.length) : Loads (hashLenOver64 key key.length) := by
  unfold hashLenOver64
  refine returns_back (by omega) <| (loads_word (by omega)).then fun _ => ?_
  refine returns_back (by omega) <| (loads_word (by omega)).then fun _ => ?_
  refine returns_back (by omega) <| (loads_word (by omega)).then fun _ => ?_
  refine returns_back (by omega) <| (loads_word (by omega)).then fun _ => ?_
  refine returns_back (by omega) <| (loads_word (by omega)).then fun _ => ?_
  refine returns_back (by omega) <| (loads_seeds (by omega) _ _).then fun _ => ?_
  refine returns_back (by omega) <| (loads_seeds (by omega) _ _).then fun _ => ?_
  refine (loads_word (by omega)).then fun _ => ?_
  refine (loads_chunkLoop ⟨?_, ?_⟩ ?_).then fun _ => loads_ok _
  · change 0 + (key.length - 1) / 64 * 64 ≤ key.length
    omega
  · exact Nat.mul_mod_left _ _
  · change (key.length - 1) / 64 * 64 ≠ 0
    omega

/-- Hashing a key reads only bytes of the key, and comes to an end. -/
theorem hash_stays_inside (key : List Byte) : ∃ value, murmur2OrCityhash key = .ok value := by
  have loads : Loads (murmur2OrCityhash key) := by
    unfold murmur2OrCityhash
    simp only
    split
    · exact (loads_word32 (by omega)).then fun _ => loads_ok _
    split
    · exact loads_word (by omega)
    split
    · split
      · exact loads_0_to_16 (by omega)
      · exact loads_17_to_32 (by omega)
    split
    · exact loads_33_to_64 (by omega)
    · exact loads_over_64 (by omega)
  obtain ⟨value, run, _⟩ := loads
  exact ⟨value, run⟩

end CppProject.Cannon.BytesHash
