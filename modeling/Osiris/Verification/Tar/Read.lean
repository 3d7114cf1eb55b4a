import Osiris.Model.Tar
import Osiris.Verification.Heap.Exhaustion

/-! # Opening and reading a file on the ramdisk -/

namespace Osiris.Tar

open ByteMemory Strings Heap Blocks LinkedList

/-! ## The table of files -/

/-- The table is an array in memory, and its count is in range. -/
structure TarFs.Placed (t : TarFs) : Prop where
  count_le : t.tarFileCount ≤ maxTarFiles
  start_pos : 0 < t.tarFilesAddr.toNat
  stop_le : t.tarFilesAddr.toNat + 128 * maxTarFiles ≤ 2 ^ 64

/-- The bytes of a file. -/
structure TarFs.HasContents (t : TarFs) (m : Mem) (k : ℕ) (c : List Byte) : Prop where
  size : (t.tarFiles k).size.toNat = c.length
  bytes : field m (t.tarFiles k).addr c.length = c

section

variable {t : TarFs} {m : Mem} {k : ℕ} {name : Word}

theorem TarFs.Placed.lt_of_indexOf (ht : t.Placed) (h : t.indexOf m name = some k) :
    k < maxTarFiles := by
  have hmem := List.mem_range.mp (List.mem_of_find?_eq_some h)
  exact lt_of_lt_of_le hmem ht.count_le

theorem TarFs.Placed.fileAddr_ne_zero (ht : t.Placed) (hk : k < maxTarFiles) :
    t.fileAddr k ≠ 0#64 := by
  have hpos := ht.start_pos
  have hstop := ht.stop_le
  unfold maxTarFiles at hk hstop
  intro hzero
  have hnat := congrArg BitVec.toNat hzero
  unfold TarFs.fileAddr at hnat
  rw [BitVec.toNat_add, BitVec.toNat_ofNat, BitVec.toNat_ofNat] at hnat
  omega

/-- A pointer into the table leads to its entry. -/
theorem fileAt_fileAddr (hk : k < maxTarFiles) (m : Mem) :
    t.fileAt m (t.fileAddr k) = ((t.tarFiles k).addr, (t.tarFiles k).size) := by
  have hoffset : (t.fileAddr k - t.tarFilesAddr).toNat = 128 * k := by
    unfold maxTarFiles at hk
    unfold TarFs.fileAddr
    exact toNat_offset t.tarFilesAddr (by omega)
  have hmod : 128 * k % 128 = 0 := Nat.mul_mod_right 128 k
  have hdiv : 128 * k / 128 = k := Nat.mul_div_cancel_left k (by norm_num)
  unfold TarFs.fileAt
  dsimp only
  rw [hoffset, hdiv, if_pos ⟨hmod, hk⟩]

end

/-! ## Handles -/

/-- A handle is open on the `k`-th file and has reached an offset. -/
structure IsHandle (t : TarFs) (m : Mem) (handle : Word) (k : ℕ) (offset : Word) : Prop where
  file : load64 m handle = t.fileAddr k
  offset : load64 m (handle + 8#64) = offset

/-- What a read returns. -/
def bytesRead (bufsize : BitVec 32) (size offset : Word) : ℕ :=
  min bufsize.toNat (size.toNat - offset.toNat)

section

variable {t : TarFs} {m : Mem} {handle offset : Word} {k : ℕ} {bufsize : BitVec 32}

/-- `bufsize` after it is cut to what is left of the file. -/
theorem cut_eq {size : Word} (hoffset : offset.toNat ≤ size.toNat)
    (hsize : bufsize.toNat < 2 ^ 31) :
    (if bufsize.signExtend 64 > size - offset then (size - offset).setWidth 32 else bufsize) =
      BitVec.ofNat 32 (bytesRead bufsize size offset) := by
  have hleft : (size - offset).toNat = size.toNat - offset.toNat := by
    rw [BitVec.toNat_sub_of_le (BitVec.le_def.mpr hoffset)]
  have hwide : (bufsize.signExtend 64).toNat = bufsize.toNat := by
    have hsame : bufsize = BitVec.ofNat 32 bufsize.toNat := by simp
    rw [hsame, signExtend_ofNat hsize, ← hsame, BitVec.toNat_ofNat]
    omega
  unfold bytesRead
  split
  · rename_i hlarge
    rw [gt_iff_lt, BitVec.lt_def, hwide, hleft] at hlarge
    rw [min_eq_right (by omega), ← hleft, BitVec.ofNat_toNat]
  · rename_i hsmall
    rw [gt_iff_lt, BitVec.lt_def, hwide, hleft] at hsmall
    rw [min_eq_left (by omega)]
    simp

/-- A read on an open handle copies what is asked for or what is left. -/
theorem tarfsRead_spec (ht : t.Placed) (hk : k < maxTarFiles) (hne : handle ≠ 0#64)
    (hhandle : IsHandle t m handle k offset) (hoffset : offset.toNat ≤ (t.tarFiles k).size.toNat)
    (hsize : bufsize.toNat < 2 ^ 31) (buf : Word) :
    let n := bytesRead bufsize (t.tarFiles k).size offset
    let m' := copyUp m buf ((t.tarFiles k).addr + offset) n
    tarfsRead t m handle buf bufsize = (BitVec.ofNat 32 n,
      store64 m' (handle + 8#64) (load64 m' (handle + 8#64) + BitVec.ofNat 64 n)) := by
  intro n m'
  have hlt : n < 2 ^ 31 := lt_of_le_of_lt (min_le_left _ _) hsize
  have hopen : ¬ (handle = 0#64 ∨ load64 m handle = 0#64) := by
    rw [hhandle.file]
    exact not_or.mpr ⟨hne, ht.fileAddr_ne_zero hk⟩
  unfold tarfsRead
  rw [if_neg hopen, hhandle.file, fileAt_fileAddr hk]
  dsimp only
  rw [hhandle.offset, cut_eq hoffset hsize, signExtend_ofNat hlt]
  unfold memcpy
  rw [rounds_ofNat hlt]

end

/-! ## Buffers -/

section

variable {m m' : Mem} {buffer src : Word} {n total : ℕ} {bytes : List Byte}

@[simp] theorem length_field (m : Mem) (str : Word) (size : ℕ) :
    (field m str size).length = size := by
  simp [field]

@[simp] theorem getElem_field (m : Mem) (str : Word) (size : ℕ) {j : ℕ}
    (hj : j < (field m str size).length) : (field m str size)[j] = m (str + BitVec.ofNat 64 j) := by
  simp [field]

theorem field_congr (h : ∀ x, InRange buffer total x → m' x = m x) (htotal : total ≤ 2 ^ 64) :
    field m' buffer total = field m buffer total :=
  List.map_congr_left fun _ hj => h _ (inRange_add buffer (List.mem_range.mp hj) htotal)

/-- A copy to the start of a buffer leaves the rest of it as it is. -/
theorem field_copyUp (hc : field m src bytes.length = bytes) (hn : n = min total bytes.length)
    (htotal : total ≤ 2 ^ 64) (hapart : Apart src bytes.length buffer total) :
    field (copyUp m buffer src n) buffer total =
      bytes.take total ++ (field m buffer total).drop bytes.length := by
  have hsmaller : Apart src n buffer n := fun x hs hb =>
    hapart x (inRange_mono hs (by omega)) (inRange_mono hb (by omega))
  refine List.ext_getElem (by simp; omega) fun j hj _ => ?_
  rw [length_field] at hj
  rw [getElem_field]
  by_cases hlt : j < n
  · have hjc : j < bytes.length := by omega
    have hbyte : bytes[j] = m (src + BitVec.ofNat 64 j) := by
      rw [← getElem_field m src bytes.length (by simpa using hjc)]
      simp only [hc]
    rw [copyUp_offset m buffer src (by omega) hsmaller hlt,
      List.getElem_append_left (by simp; omega), List.getElem_take, hbyte]
  · have hout : ¬ InRange buffer n (buffer + BitVec.ofNat 64 j) := fun hin =>
      hlt ((inRange_offset_iff buffer (by omega)).mp hin)
    have hall : bytes.take total = bytes := List.take_of_length_le (by omega)
    rw [copyUp_of_not_inRange _ _ _ (by omega) hout]
    simp only [hall]
    rw [List.getElem_append_right (by omega), List.getElem_drop, getElem_field,
      Nat.add_sub_cancel' (by omega)]

end

/-! ## `tarfs_open` -/

section

variable {t : TarFs} {h : KernelHeap} {live free : List Block} {fuel k : ℕ} {file : Word}

/-- The two words of a handle are in the payload of its block. -/
theorem not_inRange_handle {b : Block} (hb : Placed b) (hsize : 32 ≤ b.size) {x : Word}
    (hx : ¬ InPayload b x) : ¬ InRange (payload b) 16 x :=
  fun hin => hx (inPayload_of_inRange hb (by omega) hin)

theorem store_handle_mem {handle x : Word} (hx : ¬ InRange handle 16 x) (v w : Word) :
    ((h.store handle v).store (handle + 8#64) w).mem x = h.mem x := by
  have hfile : ¬ InRange handle 8 x := fun hin => hx (inRange_mono hin (by norm_num))
  have hoffset : ¬ InRange (handle + 8#64) 8 x := fun hin => hx (inRange_next hin)
  unfold KernelHeap.store
  dsimp only
  rw [store64_of_not_inRange _ _ _ _ hoffset, store64_of_not_inRange _ _ _ _ hfile]

theorem isHandle_store (t : TarFs) (h : KernelHeap) (handle : Word) (k : ℕ) (offset : Word) :
    IsHandle t ((h.store handle (t.fileAddr k)).store (handle + 8#64) offset).mem handle k
      offset := by
  unfold KernelHeap.store
  refine ⟨?_, load64_store64_same _ _ _⟩
  dsimp only
  rw [load64_store64_apart _ _ _ _ (apart_next handle), load64_store64_same]

/-- A file is opened unless the heap has no room for the handle. -/
theorem tarfsOpen_sized (hinv : HeapInv h live free) (hfuel : 65536 < fuel)
    (hfind : t.indexOf h.mem file = some k) (htype : (t.tarFiles k).type = .tarFile) :
    (kmalloc fuel h 16#64 = .ok (0#64, h) ∧ tarfsOpen fuel t h file = .ok (0#64, h)) ∨
      ∃ b free' h', b.size = 32 ∧ tarfsOpen fuel t h file = .ok (payload b, h') ∧
        HeapInv h' (b :: live) free' ∧ 32 ≤ b.size ∧ IsHandle t h'.mem (payload b) k 0#64 ∧
        ∀ x, Client live x → h'.mem x = h.mem x := by
  unfold tarfsOpen
  rw [hfind]
  dsimp only
  rw [if_neg (not_not.mpr htype)]
  rcases hinv.kmalloc hfuel 16#64 with ⟨-, hnull⟩ | ⟨b, free', h', hfit, hok, hinv', hle, ht⟩
  · left
    rw [hnull]
    exact ⟨rfl, rfl⟩
  · right
    have hb : b ∈ b :: live := List.mem_cons_self
    have hplaced := hinv'.placed_live hb
    have hsize : b.size = 32 := by
      have htotal : (Heap.totalSize 16#64).toNat = 32 := by decide
      rw [htotal] at hfit
      obtain ⟨g, -, hblock⟩ := hinv.lowestGap_of_firstFit (by norm_num) hfit
      rw [hblock]
    refine ⟨b, free', _, hsize, ?_, ?_, hle, isHandle_store t h' (payload b) k 0#64, fun x hx => ?_⟩
    · rw [hok]
      exact if_neg hplaced.payload_ne_zero
    · refine hinv'.write fun x hx => store_handle_mem (not_inRange_handle hplaced hle ?_) _ _
      exact fun hpayload => hx (Or.inl ⟨b, hb, hpayload⟩)
    · have hout : ¬ InPayload b x := fun hpayload => hinv'.not_new_of_client hx hpayload.contains
      rw [store_handle_mem (not_inRange_handle hplaced hle hout)]
      exact hinv.client_mem_eq ht hx

theorem tarfsOpen_spec (hinv : HeapInv h live free) (hfuel : 65536 < fuel)
    (hfind : t.indexOf h.mem file = some k) (htype : (t.tarFiles k).type = .tarFile) :
    (kmalloc fuel h 16#64 = .ok (0#64, h) ∧ tarfsOpen fuel t h file = .ok (0#64, h)) ∨
      ∃ b free' h', tarfsOpen fuel t h file = .ok (payload b, h') ∧ HeapInv h' (b :: live) free' ∧
        32 ≤ b.size ∧ IsHandle t h'.mem (payload b) k 0#64 ∧
        ∀ x, Client live x → h'.mem x = h.mem x :=
  (tarfsOpen_sized hinv hfuel hfind htype).imp_right
    fun ⟨b, free', h', _, hopen⟩ => ⟨b, free', h', hopen⟩

section

variable {b : Block} {buffer : Word} {n : ℕ}

/-- A read writes to the buffer and to the second word of the handle. -/
theorem read_inv (hinv : HeapInv h (b :: live) free) (hb : 32 ≤ b.size)
    (hbuffer : ∀ x, InRange buffer n x → Client live x) (hn : n ≤ 2 ^ 64) (src v : Word) :
    HeapInv { h with mem := store64 (copyUp h.mem buffer src n) (payload b + 8#64) v }
      (b :: live) free := by
  have hplaced := hinv.placed_live List.mem_cons_self
  refine hinv.write fun x hx => ?_
  have hpayload : ¬ InPayload b x := fun hin => hx (Or.inl ⟨b, List.mem_cons_self, hin⟩)
  have hoffset : ¬ InRange (payload b + 8#64) 8 x := fun hin =>
    not_inRange_handle hplaced hb hpayload (inRange_next hin)
  have hout : ¬ InRange buffer n x := fun hin => hx (hbuffer x hin).cons
  rw [store64_of_not_inRange _ _ _ _ hoffset, copyUp_of_not_inRange _ _ _ hn hout]

/-- The release of the handle changes nothing that is not the heap's. -/
theorem tarfsClose_spec (hinv : HeapInv h (b :: live) free) (hfuel : 65536 < fuel) :
    ∃ h', tarfsClose fuel h (payload b) = .ok h' ∧ HeapInv h' live (release b free) ∧
      ∀ x, Client live x → h'.mem x = h.mem x := by
  have hplaced := hinv.placed_live List.mem_cons_self
  obtain ⟨h', hok, hinv', ht⟩ := hinv.kfree hfuel (List.Perm.refl _)
  refine ⟨h', ?_, hinv', fun x hx => ht.mem x fun c hc => ?_⟩
  · unfold tarfsClose
    rw [if_neg hplaced.payload_ne_zero]
    exact hok
  · cases List.mem_cons.mp hc with
    | inl heq =>
        rw [heq]
        exact hinv.not_new_of_client hx
    | inr hc => exact hinv.not_free_of_client hx.cons hc

/-- A read from the start of a file and the release of the handle. -/
theorem tarfsRead_tarfsClose {bufsize : BitVec 32} {c : List Byte}
    (hinv : HeapInv h (b :: live) free) (hfuel : 65536 < fuel) (hb : 32 ≤ b.size)
    (ht : t.Placed) (hk : k < maxTarFiles) (hhandle : IsHandle t h.mem (payload b) k 0#64)
    (hcontents : t.HasContents h.mem k c) (hsize : bufsize.toNat < 2 ^ 31)
    (hbuffer : ∀ x, InRange buffer bufsize.toNat x → Client live x)
    (hapart : Apart (t.tarFiles k).addr c.length buffer bufsize.toNat) :
    ∃ m h', tarfsRead t h.mem (payload b) buffer bufsize =
        (BitVec.ofNat 32 (min bufsize.toNat c.length), m) ∧
      tarfsClose fuel { h with mem := m } (payload b) = .ok h' ∧
      HeapInv h' live (release b free) ∧
      field h'.mem buffer bufsize.toNat =
        c.take bufsize.toNat ++ (field h.mem buffer bufsize.toNat).drop c.length := by
  have hplaced := hinv.placed_live List.mem_cons_self
  have hn : bytesRead bufsize (t.tarFiles k).size 0#64 = min bufsize.toNat c.length := by
    unfold bytesRead
    rw [hcontents.size]
    rfl
  have hread := tarfsRead_spec ht hk hplaced.payload_ne_zero hhandle (Nat.zero_le _) hsize buffer
  dsimp only at hread
  rw [hn, BitVec.add_zero] at hread
  generalize load64 _ (payload b + 8#64) + _ = value at hread
  have hcopied : ∀ x, InRange buffer (min bufsize.toNat c.length) x → Client live x :=
    fun x hx => hbuffer x (inRange_mono hx (min_le_left _ _))
  obtain ⟨h', hok, hinv', hsame⟩ := tarfsClose_spec
    (read_inv hinv hb hcopied (by omega) (t.tarFiles k).addr value) hfuel
  refine ⟨_, h', hread, hok, hinv', ?_⟩
  rw [← field_copyUp hcontents.bytes rfl (by omega) hapart]
  refine field_congr (fun x hx => ?_) (by omega)
  rw [hsame x (hbuffer x hx)]
  refine store64_of_not_inRange _ _ _ _ fun hin => ?_
  have hpayload : ¬ InPayload b x := fun hin =>
    hinv.not_new_of_client (hbuffer x hx) hin.contains
  exact not_inRange_handle hplaced hb hpayload (inRange_next hin)

end

end

end Osiris.Tar
