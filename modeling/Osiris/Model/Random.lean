import Osiris.Model.Heap

/-! # The random device, `sys/dev/random/random.c` -/

namespace Osiris.Random

open ByteMemory Strings Heap

/-- `rand_seed`, and the memory that buffers are in. -/
structure RandomDevice where
  mem : Mem
  randSeed : Word

/-- What is returned, and the new `rand_seed`. -/
def randomXorshift64star (randSeed : Word) : Word × Word :=
  let x := randSeed
  let x := x ^^^ (x >>> 12)
  let x := x ^^^ (x <<< 25)
  let x := x ^^^ (x >>> 27)
  (x * 2685821657736338717#64, x)

/-- One round of the inner loop of `random_read`, which ends where the buffer does. -/
def storeByte (buf : Word) (size : BitVec 32) (r : Word) (s : Mem × ℕ) (j : ℕ) : Mem × ℕ :=
  let (m, i) := s
  if i < rounds size then
    (setByte m (buf + BitVec.ofNat 64 i) (((r >>> (j * 8)) &&& 0xFF#64).setWidth 8), i + 1)
  else (m, i)

/-- The loop of `random_read`, where `i` bytes have been stored. -/
def randomReadLoop (buf : Word) (size : BitVec 32) : ℕ → ℕ → RandomDevice → Except Fault RandomDevice
  | 0, _, _ => .error .endless
  | fuel + 1, i, s =>
      if i < rounds size then
        let (r, randSeed) := randomXorshift64star s.randSeed
        let (mem, i) := (List.range 8).foldl (storeByte buf size r) (s.mem, i)
        randomReadLoop buf size fuel i { mem, randSeed }
      else .ok s

/-- The size is returned. -/
def randomRead (fuel : ℕ) (s : RandomDevice) (buffer : Word) (size : BitVec 32) :
    Except Fault (BitVec 32 × RandomDevice) := do
  let s ← randomReadLoop buffer size fuel 0 s
  .ok (size, s)

/-- The seed made from `ticks`, which is an `int`. -/
def randomInit (ticks : BitVec 32) : Word :=
  let randSeed := (ticks.signExtend 64 ^^^ 0x9E3779B97F4A7C15#64) * 0xBF58476D1CE4E5B9#64
  let randSeed := randSeed ^^^ (randSeed >>> 21)
  if randSeed = 0#64 then 0x9E3779B95A4A7C15#64 else randSeed

end Osiris.Random
