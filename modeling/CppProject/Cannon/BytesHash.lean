import CppProject.Library.Loop
import CppProject.Cannon.ImmutableHashMap

/-!
# `__murmur2_or_cityhash<size_t, 64>`

The 64-bit hash of a byte string.  Every word or byte is loaded through the
bounds check of the buffer; offsets are counted from the start of the buffer.
-/

namespace CppProject.Cannon.BytesHash

open Library Library.Checked

abbrev Word := BitVec 64

/-- The offset `__len - back`.  A pointer in front of the buffer is a fault. -/
def backFrom (len back : Nat) : Except Fault Nat :=
  if back ≤ len then .ok (len - back) else .error .outOfBounds

/-- A little-endian load of `width` bytes at `pos`. -/
def loadBytes (key : List Byte) (width pos : Nat) : Except Fault Nat := do
  let bytes ← readBlock key pos width
  .ok (bytes.foldr (fun byte high => byte.toNat + 256 * high) 0)

/-- `__loadword<_Size>`. -/
def loadword (key : List Byte) (pos : Nat) : Except Fault Word := do
  let value ← loadBytes key 8 pos
  .ok (BitVec.ofNat 64 value)

/-- `__loadword<uint32_t>`. -/
def loadword32 (key : List Byte) (pos : Nat) : Except Fault (BitVec 32) := do
  let value ← loadBytes key 4 pos
  .ok (BitVec.ofNat 32 value)

def k0 : Word := 0xc3a5c85c97cb3127
def k1 : Word := 0xb492b66fbe98f273
def k2 : Word := 0x9ae16a3b2f90404f
def k3 : Word := 0xc949d7c7509e6557

def rotateByAtLeast1 (val : Word) (shift : Nat) : Word :=
  (val >>> shift) ||| (val <<< (64 - shift))

def rotate (val : Word) (shift : Nat) : Word :=
  if shift = 0 then val else rotateByAtLeast1 val shift

def shiftMix (val : Word) : Word := val ^^^ (val >>> 47)

def hashLen16 (u v : Word) : Word :=
  let mul : Word := 0x9ddfea08eb382d69
  let a := shiftMix ((u ^^^ v) * mul)
  let b := shiftMix ((v ^^^ a) * mul)
  b * mul

def hashLen0To16 (s : List Byte) (len : Nat) : Except Fault Word :=
  if 8 < len then do
    let a ← loadword s 0
    let b ← loadword s (← backFrom len 8)
    .ok (hashLen16 a (rotateByAtLeast1 (b + BitVec.ofNat 64 len) len) ^^^ b)
  else if 4 ≤ len then do
    let a ← loadword32 s 0
    let b ← loadword32 s (← backFrom len 4)
    -- the shift of `__a` is a 32-bit one, the sum a 64-bit one
    .ok (hashLen16 (BitVec.ofNat 64 len + (a <<< 3).setWidth 64) (b.setWidth 64))
  else if 0 < len then do
    let a ← load s 0
    let b ← load s (len >>> 1)
    let c ← load s (← backFrom len 1)
    let y : BitVec 32 := a.setWidth 32 + (b.setWidth 32 <<< 8)
    let z : BitVec 32 := (BitVec.ofNat 64 len + (c.setWidth 32 <<< 2).setWidth 64).setWidth 32
    .ok (shiftMix ((y.setWidth 64 * k2) ^^^ (z.setWidth 64 * k3)) * k2)
  else .ok k2

def hashLen17To32 (s : List Byte) (len : Nat) : Except Fault Word := do
  let first ← loadword s 0
  let a := first * k1
  let b ← loadword s 8
  let third ← loadword s (← backFrom len 8)
  let c := third * k2
  let fourth ← loadword s (← backFrom len 16)
  let d := fourth * k0
  .ok (hashLen16 (rotate (a - b) 43 + rotate c 30 + d)
    (a + rotate (b ^^^ k3) 20 - c + BitVec.ofNat 64 len))

/-- The mixing step of `__weak_hash_len_32_with_seeds`. -/
def weakMix (w x y z a b : Word) : Word × Word :=
  let a := a + w
  let b := rotate (b + a + z) 21
  let c := a
  let a := a + x
  let a := a + y
  let b := b + rotate a 44
  (a + z, b + c)

def weakHashLen32WithSeeds (s : List Byte) (pos : Nat) (a b : Word) : Except Fault (Word × Word) := do
  let w ← loadword s pos
  let x ← loadword s (pos + 8)
  let y ← loadword s (pos + 16)
  let z ← loadword s (pos + 24)
  .ok (weakMix w x y z a b)

def hashLen33To64 (s : List Byte) (len : Nat) : Except Fault Word := do
  let z ← loadword s 24
  let first ← loadword s 0
  let last16 ← loadword s (← backFrom len 16)
  let a := first + (BitVec.ofNat 64 len + last16) * k0
  let b := rotate (a + z) 52
  let c := rotate a 37
  let second ← loadword s 8
  let a := a + second
  let c := c + rotate a 7
  let third ← loadword s 16
  let a := a + third
  let vf := a + z
  let vs := b + rotate a 31 + c
  let again ← loadword s 16
  let last32 ← loadword s (← backFrom len 32)
  let a := again + last32
  let last8 ← loadword s (← backFrom len 8)
  let z := z + last8
  let b := rotate (a + z) 52
  let c := rotate a 37
  let last24 ← loadword s (← backFrom len 24)
  let a := a + last24
  let c := c + rotate a 7
  let last16 ← loadword s (← backFrom len 16)
  let a := a + last16
  let wf := a + z
  let ws := b + rotate a 31 + c
  let r := shiftMix ((vf + ws) * k2 + (wf + vs) * k0)
  .ok (shiftMix (r * k0 + vs) * k2)

/-- `__len -= 64` of a `size_t`. -/
def lessChunk (len : Nat) : Nat := (len + 2 ^ 64 - 64) % 2 ^ 64

/-- The variables of the 64-byte chunk loop; `s` is an offset. -/
structure ChunkState where
  s : Nat
  len : Nat
  x : Word
  y : Word
  z : Word
  v : Word × Word
  w : Word × Word

def chunkRound (key : List Byte) (t : ChunkState) : Except Fault ChunkState := do
  let at8 ← loadword key (t.s + 8)
  let at48 ← loadword key (t.s + 48)
  let x := rotate (t.x + t.y + t.v.1 + at8) 37 * k1
  let y := rotate (t.y + t.v.2 + at48) 42 * k1
  let x := x ^^^ t.w.2
  let at40 ← loadword key (t.s + 40)
  let y := y + (t.v.1 + at40)
  let z := rotate (t.z + t.w.1) 33 * k1
  let v ← weakHashLen32WithSeeds key t.s (t.v.2 * k1) (x + t.w.1)
  let at16 ← loadword key (t.s + 16)
  let w ← weakHashLen32WithSeeds key (t.s + 32) (z + t.w.2) (y + at16)
  .ok { s := t.s + 64, len := lessChunk t.len, x := z, y := y, z := x, v := v, w := w }

/-- `do ... while (__len != 0)`. -/
def chunkLoop (key : List Byte) (start : ChunkState) : Except Fault ChunkState := do
  let first ← chunkRound key start
  whileLoop (fun t => if t.len = 0 then .ok none else (chunkRound key t).map some)
    (start.len + 1) first

def hashLenOver64 (key : List Byte) (len : Nat) : Except Fault Word := do
  let x ← loadword key (← backFrom len 40)
  let last16 ← loadword key (← backFrom len 16)
  let last56 ← loadword key (← backFrom len 56)
  let y := last16 + last56
  let last48 ← loadword key (← backFrom len 48)
  let last24 ← loadword key (← backFrom len 24)
  let z := hashLen16 (last48 + BitVec.ofNat 64 len) last24
  let v ← weakHashLen32WithSeeds key (← backFrom len 64) (BitVec.ofNat 64 len) z
  let w ← weakHashLen32WithSeeds key (← backFrom len 32) (y + k1) x
  let first ← loadword key 0
  let x := x * k1 + first
  -- decrease `__len` to the nearest multiple of 64
  let t ← chunkLoop key { s := 0, len := (len - 1) / 64 * 64, x := x, y := y, z := z, v := v, w := w }
  .ok (hashLen16 (hashLen16 t.v.1 t.w.1 + shiftMix t.y * k1 + t.z) (hashLen16 t.v.2 t.w.2 + t.x))

/-- `__murmur2_or_cityhash<size_t, 64>::operator()` on the bytes of a key. -/
def murmur2OrCityhash (key : List Byte) : Except Fault Word :=
  let len := key.length
  if len = 32 then do
    let value ← loadword32 key 0
    .ok (value.signExtend 64)
  else if len = 64 then loadword key 0
  else if len ≤ 32 then
    if len ≤ 16 then hashLen0To16 key len else hashLen17To32 key len
  else if len ≤ 64 then hashLen33To64 key len
  else hashLenOver64 key len

/-- The hash value as the map uses it. -/
def keyHash (key : List Byte) : Nat :=
  match murmur2OrCityhash key with
  | .ok value => value.toNat
  | .error _ => 0

end CppProject.Cannon.BytesHash
