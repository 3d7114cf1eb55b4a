import Osiris.Library.Xorshift
import Osiris.Model.Random

/-! # The random device as a stream of bytes

A read delivers the first bytes of a stream that its seed fixes, and leaves a seed for the rest. -/

namespace Osiris.Random

open ByteMemory Strings Heap Xorshift

/-! ## The state update -/

/-- What `random_xorshift64star` does to `rand_seed`. -/
def update (randSeed : Word) : Word :=
  (randomXorshift64star randSeed).2

theorem update_bijective : Function.Bijective update := by
  refine bijective_of_injective ?_
  have hfirst := xor_ushiftRight_injective (w := 64) (k := 12) (by norm_num)
  have hsecond := xor_shiftLeft_injective (w := 64) (k := 25) (by norm_num)
  have hthird := xor_ushiftRight_injective (w := 64) (k := 27) (by norm_num)
  exact hthird.comp (hsecond.comp hfirst)

theorem update_eq_zero_iff {x : Word} : update x = 0#64 ↔ x = 0#64 := by
  have hzero : update 0#64 = 0#64 := by decide
  constructor
  · exact fun hx => update_bijective.injective (hx.trans hzero.symm)
  · rintro rfl
    exact hzero

theorem update_iterate_ne_zero {x : Word} (hx : x ≠ 0#64) (k : ℕ) : update^[k] x ≠ 0#64 := by
  induction k with
  | zero => exact hx
  | succ k ih =>
      rw [Function.iterate_succ_apply']
      exact mt update_eq_zero_iff.mp ih

theorem randomInit_ne_zero (ticks : BitVec 32) : randomInit ticks ≠ 0#64 := by
  unfold randomInit
  dsimp only
  split
  · decide
  · assumption

/-! ## The stream -/

/-- The `i`-th byte after a seed. -/
def streamByte (randSeed : Word) (i : ℕ) : Byte :=
  (((randomXorshift64star (update^[i / 8] randSeed)).1 >>> (i % 8 * 8)) &&& 0xFF#64).setWidth 8

/-- The seed after a read of `n` bytes. -/
def seedAfter (randSeed : Word) (n : ℕ) : Word :=
  update^[(n + 7) / 8] randSeed

/-- The memory with the first `n` bytes after a seed in a buffer. -/
def written (m : Mem) (buf randSeed : Word) (n : ℕ) : Mem := fun x =>
  if InRange buf n x then streamByte randSeed (x - buf).toNat else m x

/-- The stream goes on after as many bytes as whole words have. -/
theorem streamByte_add (randSeed : Word) {a : ℕ} (ha : 8 ∣ a) (i : ℕ) :
    streamByte (seedAfter randSeed a) i = streamByte randSeed (a + i) := by
  obtain ⟨k, rfl⟩ := ha
  unfold streamByte seedAfter
  rw [← Function.iterate_add_apply, show i / 8 + (8 * k + 7) / 8 = (8 * k + i) / 8 by omega,
    show (8 * k + i) % 8 = i % 8 by omega]

theorem seedAfter_add (randSeed : Word) {a : ℕ} (ha : 8 ∣ a) (b : ℕ) :
    seedAfter (seedAfter randSeed a) b = seedAfter randSeed (a + b) := by
  obtain ⟨k, rfl⟩ := ha
  unfold seedAfter
  rw [← Function.iterate_add_apply,
    show (b + 7) / 8 + (8 * k + 7) / 8 = (8 * k + b + 7) / 8 by omega]

/-! ## `random_read` -/

section Read

variable {buf : Word} {size : BitVec 32} {m : Mem} {randSeed : Word} {fuel q : ℕ}

theorem written_zero : written m buf randSeed 0 = m := by
  funext x
  exact if_neg (Nat.not_lt_zero _)

theorem written_succ {i : ℕ} (hi : i < 2 ^ 64) :
    setByte (written m buf randSeed i) (buf + BitVec.ofNat 64 i) (streamByte randSeed i) =
      written m buf randSeed (i + 1) := by
  funext x
  have hstep := inRange_succ (p := buf) (x := x) hi
  unfold written
  by_cases hx : x = buf + BitVec.ofNat 64 i
  · have hoffset : (x - buf).toNat = i := by
      rw [hx, toNat_offset buf hi]
    rw [if_pos (hstep.mpr (.inr hx)), hoffset, hx, setByte_same]
  · rw [setByte_of_ne _ _ hx]
    simp only [hstep, hx, or_false]

/-- The inner loop stores the bytes of one word, as far as the buffer goes. -/
theorem storeBytes_eq (hq : 8 * q < rounds size) :
    (List.range 8).foldl
        (storeByte buf size (randomXorshift64star (update^[q] randSeed)).1)
        (written m buf randSeed (8 * q), 8 * q) =
      (written m buf randSeed (min (8 * q + 8) (rounds size)), min (8 * q + 8) (rounds size)) := by
  have hle := rounds_le size
  refine Loop.foldl_range_inv (I := fun j s => s =
    (written m buf randSeed (min (8 * q + j) (rounds size)), min (8 * q + j) (rounds size)))
    8 ?start ?round
  case start => rw [Nat.add_zero, min_eq_left hq.le]
  case round =>
    rintro j hj s rfl
    unfold storeByte
    dsimp only
    by_cases hroom : 8 * q + j < rounds size
    · have hbyte : streamByte randSeed (8 * q + j) =
          (((randomXorshift64star (update^[q] randSeed)).1 >>> (j * 8)) &&& 0xFF#64).setWidth 8 := by
        unfold streamByte
        rw [show (8 * q + j) / 8 = q by omega, show (8 * q + j) % 8 = j by omega]
      rw [min_eq_left hroom.le, if_pos hroom, ← hbyte, written_succ (by omega),
        min_eq_left (show 8 * q + (j + 1) ≤ rounds size from hroom)]
      rfl
    · rw [min_eq_right (by omega), if_neg (lt_irrefl _), min_eq_right (by omega)]

/-- The loop after `q` words. -/
theorem randomReadLoop_eq (hq : q ≤ (rounds size + 7) / 8) (hfuel : (rounds size + 7) / 8 - q < fuel) :
    randomReadLoop buf size fuel (min (8 * q) (rounds size))
        ⟨written m buf randSeed (min (8 * q) (rounds size)), update^[q] randSeed⟩ =
      .ok ⟨written m buf randSeed (rounds size), seedAfter randSeed (rounds size)⟩ := by
  induction fuel generalizing q with
  | zero => omega
  | succ fuel ih =>
      unfold randomReadLoop
      by_cases hmore : 8 * q < rounds size
      · have hseed : (randomXorshift64star (update^[q] randSeed)).2 = update^[q + 1] randSeed :=
          (Function.iterate_succ_apply' update q randSeed).symm
        rw [min_eq_left hmore.le, if_pos hmore]
        dsimp only
        rw [storeBytes_eq hmore, hseed]
        exact ih (q := q + 1) (by omega) (by omega)
      · rw [min_eq_right (by omega), if_neg (lt_irrefl _)]
        unfold seedAfter
        rw [show q = (rounds size + 7) / 8 by omega]

/-- A read fills the buffer from the stream, and returns its size. -/
theorem randomRead_eq (hfuel : rounds size < fuel) (m : Mem) (randSeed buffer : Word) :
    randomRead fuel ⟨m, randSeed⟩ buffer size =
      .ok (size, ⟨written m buffer randSeed (rounds size), seedAfter randSeed (rounds size)⟩) := by
  have hloop : randomReadLoop buffer size fuel (min (8 * 0) (rounds size))
      ⟨written m buffer randSeed (min (8 * 0) (rounds size)), randSeed⟩ =
        .ok ⟨written m buffer randSeed (rounds size), seedAfter randSeed (rounds size)⟩ :=
    randomReadLoop_eq (Nat.zero_le _) (by omega)
  rw [Nat.mul_zero, Nat.zero_min, written_zero] at hloop
  unfold randomRead
  exact Loop.bind_eq_ok.mpr ⟨_, hloop, rfl⟩

end Read

/-! ## Sequences of reads -/

/-- One call of `random_read` for each buffer with its size. -/
def readAll (fuel : ℕ) (s : RandomDevice) (calls : List (Word × BitVec 32)) :
    Except Fault RandomDevice :=
  calls.foldlM (fun s call => (randomRead fuel s call.1 call.2).map Prod.snd) s

/-- The bytes in a buffer. -/
def delivered (m : Mem) (buffer : Word) (n : ℕ) : List Byte :=
  (List.range n).map fun i => m (buffer + BitVec.ofNat 64 i)

theorem rounds_lt (size : BitVec 32) : rounds size < 2 ^ 31 := by
  have hlt := BitVec.toInt_lt (x := size)
  unfold rounds
  omega

/-- No read makes the seed zero. -/
theorem readAll_ne_zero {fuel : ℕ} (hfuel : 2 ^ 31 ≤ fuel) {s : RandomDevice}
    (hseed : s.randSeed ≠ 0#64) (calls : List (Word × BitVec 32)) :
    ∃ s', readAll fuel s calls = .ok s' ∧ s'.randSeed ≠ 0#64 := by
  refine Loop.foldlM_ok (I := fun s : RandomDevice => s.randSeed ≠ 0#64) (fun s call hseed => ?_)
    calls hseed
  have hread := randomRead_eq (lt_of_lt_of_le (rounds_lt call.2) hfuel) s.mem s.randSeed call.1
  exact ⟨_, Loop.map_eq_ok.mpr ⟨_, hread, rfl⟩, update_iterate_ne_zero hseed _⟩

theorem delivered_written {n : ℕ} (hn : n ≤ 2 ^ 64) (m : Mem) (buffer randSeed : Word) :
    delivered (written m buffer randSeed n) buffer n = (List.range n).map (streamByte randSeed) := by
  unfold delivered
  refine List.map_congr_left fun i hi => ?_
  have hlt := List.mem_range.mp hi
  unfold written
  rw [if_pos (inRange_add buffer hlt hn), toNat_offset buffer (by omega)]

/-- The bytes of two reads are those of one. -/
theorem stream_append (randSeed : Word) {a : ℕ} (ha : 8 ∣ a) (b : ℕ) :
    (List.range a).map (streamByte randSeed) ++
        (List.range b).map (streamByte (seedAfter randSeed a)) =
      (List.range (a + b)).map (streamByte randSeed) := by
  have hsecond : (List.range b).map (streamByte (seedAfter randSeed a)) =
      (List.range b).map fun i => streamByte randSeed (a + i) :=
    List.map_congr_left fun i _ => streamByte_add randSeed ha i
  rw [hsecond, List.range_add, List.map_append, List.map_map]
  rfl

/-- A read of `a` bytes and one of `b` bytes deliver what one read of both does, wherever the buffers
are, and leave the same seed. -/
def ReadsJoin (fuel : ℕ) (randSeed : Word) (a b : BitVec 32) : Prop :=
  ∀ m m' m'' buf buf' buf'', ∃ s s' s'',
    randomRead fuel ⟨m, randSeed⟩ buf a = .ok (a, s) ∧
    randomRead fuel ⟨m', s.randSeed⟩ buf' b = .ok (b, s') ∧
    randomRead fuel ⟨m'', randSeed⟩ buf'' (a + b) = .ok (a + b, s'') ∧
    delivered s.mem buf a.toNat ++ delivered s'.mem buf' b.toNat =
      delivered s''.mem buf'' (a + b).toNat ∧
    s'.randSeed = s''.randSeed

theorem readsJoin {fuel : ℕ} (hfuel : 2 ^ 31 ≤ fuel) (randSeed : Word) {a b : BitVec 32}
    (ha : 0 ≤ a.toInt) (hwords : 8 ∣ a.toInt) (hb : 0 ≤ b.toInt) (hsum : a.toInt + b.toInt < 2 ^ 31) :
    ReadsJoin fuel randSeed a b := by
  have haNat := rounds_of_nonneg ha
  have hbNat := rounds_of_nonneg hb
  have hsumInt : (a + b).toInt = a.toInt + b.toInt := by
    rw [BitVec.toInt_add]
    exact Int.bmod_eq_of_le (by norm_num; omega) (by norm_num; omega)
  have hboth : rounds (a + b) = rounds a + rounds b := by
    unfold rounds
    omega
  have hbothNat := rounds_of_nonneg (n := a + b) (by omega)
  have hdvd : 8 ∣ rounds a := by
    unfold rounds
    omega
  intro m m' m'' buf buf' buf''
  have hread : ∀ size m randSeed buf, randomRead fuel ⟨m, randSeed⟩ buf size = .ok (size,
      ⟨written m buf randSeed (rounds size), seedAfter randSeed (rounds size)⟩) :=
    fun size m randSeed buf => randomRead_eq (lt_of_lt_of_le (rounds_lt size) hfuel) m randSeed buf
  refine ⟨_, _, _, hread a m randSeed buf, hread b m' _ buf', hread (a + b) m'' randSeed buf'', ?_,
    ?_⟩
  · rw [← haNat, ← hbNat, ← hbothNat]
    dsimp only
    rw [delivered_written (rounds_le a), delivered_written (rounds_le b),
      delivered_written (rounds_le (a + b)), hboth]
    exact stream_append randSeed hdvd (rounds b)
  · dsimp only
    rw [hboth]
    exact seedAfter_add randSeed hdvd (rounds b)

/-- The generator never gets stuck: the update of the seed is a bijection that maps only zero to zero,
so that the seed is not zero after any reads, and reads of whole words can be joined with the one
behind them. -/
theorem random_never_stuck (fuel : ℕ) (hfuel : 2 ^ 31 ≤ fuel) :
    Function.Bijective (fun x => (randomXorshift64star x).2) ∧
      (∀ x, (randomXorshift64star x).2 = 0#64 ↔ x = 0#64) ∧
      (∀ ticks m calls, ∃ s, readAll fuel ⟨m, randomInit ticks⟩ calls = .ok s ∧
        s.randSeed ≠ 0#64) ∧
      ∀ randSeed a b, 0 ≤ a.toInt → 8 ∣ a.toInt → 0 ≤ b.toInt → a.toInt + b.toInt < 2 ^ 31 →
        ReadsJoin fuel randSeed a b :=
  ⟨update_bijective, fun _ => update_eq_zero_iff,
    fun ticks _ calls => readAll_ne_zero hfuel (randomInit_ne_zero ticks) calls,
    fun randSeed _ _ ha hwords hb hsum => readsJoin hfuel randSeed ha hwords hb hsum⟩

/-- A read of 16 bytes after the first tick, and one of 5. -/
theorem random_never_stuck_firstTick :
    (∃ s, readAll (2 ^ 31) ⟨fun _ => 0#8, randomInit 1#32⟩ [(0x1000#64, 16#32), (0x2000#64, 5#32)] =
        .ok s ∧ s.randSeed ≠ 0#64) ∧
      ReadsJoin (2 ^ 31) (randomInit 1#32) 16#32 5#32 := by
  obtain ⟨-, -, hreads, hjoin⟩ := random_never_stuck (2 ^ 31) le_rfl
  exact ⟨hreads _ _ _, hjoin _ _ _ (by decide) (by decide) (by decide) (by decide)⟩

end Osiris.Random
