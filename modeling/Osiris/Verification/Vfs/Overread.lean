import Osiris.Verification.Heap.Exhaustion
import Osiris.Verification.Vfs.ReadFile

/-! # Reads and the size of the buffer

`tarfs_read` compares the size of the buffer with what is left of the file as unsigned numbers, and
then narrows what is left to an `int`. -/

namespace Osiris.Vfs

open ByteMemory Strings Heap Tar Blocks LinkedList

/-! ## The size that is read -/

/-- `bufsize` after `if ((uint64_t) bufsize > remaining) bufsize = remaining;`. -/
def cutSize (bufsize : BitVec 32) (remaining : Word) : BitVec 32 :=
  if bufsize.signExtend 64 > remaining then remaining.setWidth 32 else bufsize

section Cut

variable {t : TarFs} {m : Mem} {handle offset remaining : Word} {k : ℕ} {bufsize : BitVec 32}

theorem toNat_signExtend_int (n : BitVec 32) :
    ((n.signExtend 64).toNat : ℤ) = if 0 ≤ n.toInt then n.toInt else n.toInt + 2 ^ 64 := by
  have hsame : (n.signExtend 64).toInt = n.toInt := BitVec.toInt_signExtend_of_le (by norm_num)
  have hwide := BitVec.toInt_eq_toNat_cond (n.signExtend 64)
  have hlt := (n.signExtend 64).isLt
  split at hwide <;> split <;> omega

/-- The size that is read stays within the buffer unless the size of the buffer is negative and the
narrowing leaves something over. -/
theorem cutSize_bounded_iff :
    0 ≤ (cutSize bufsize remaining).toInt ∧
        (cutSize bufsize remaining).toInt ≤ max bufsize.toInt 0 ↔
      0 ≤ bufsize.toInt ∨ remaining.toNat % 2 ^ 32 = 0 := by
  have hwide := toNat_signExtend_int bufsize
  have hlow : -2 ^ 31 ≤ bufsize.toInt := BitVec.le_toInt bufsize
  have hhigh : bufsize.toInt < 2 ^ 31 := BitVec.toInt_lt
  have hlt := remaining.isLt
  have hnarrow : (remaining.setWidth 32).toNat = remaining.toNat % 2 ^ 32 :=
    BitVec.toNat_setWidth 32 remaining
  have hcond := BitVec.toInt_eq_toNat_cond (remaining.setWidth 32)
  rw [hnarrow] at hcond
  unfold cutSize
  by_cases hlarge : bufsize.signExtend 64 > remaining
  · rw [if_pos hlarge]
    rw [gt_iff_lt, BitVec.lt_def] at hlarge
    split at hwide <;> split at hcond <;> omega
  · rw [if_neg hlarge]
    rw [gt_iff_lt, BitVec.lt_def] at hlarge
    split at hwide <;> omega

theorem tarfsRead_cut (ht : t.Placed) (hk : k < maxTarFiles) (hne : handle ≠ 0#64)
    (hhandle : IsHandle t m handle k offset) (buffer : Word) (bufsize : BitVec 32) :
    ∃ v, tarfsRead t m handle buffer bufsize =
      (cutSize bufsize ((t.tarFiles k).size - offset),
        store64 (copyUp m buffer ((t.tarFiles k).addr + offset)
          (rounds (cutSize bufsize ((t.tarFiles k).size - offset)))) (handle + 8#64) v) := by
  have hopen : ¬ (handle = 0#64 ∨ load64 m handle = 0#64) := by
    rw [hhandle.file]
    exact not_or.mpr ⟨hne, ht.fileAddr_ne_zero hk⟩
  unfold tarfsRead
  rw [if_neg hopen, hhandle.file, fileAt_fileAddr hk]
  dsimp only
  rw [hhandle.offset]
  exact ⟨_, rfl⟩

end Cut

/-! ## Within the buffer -/

/-- What is returned is between 0 and the size of the buffer, and of the addresses that are watched
only those in the buffer have been written. -/
structure StaysInBuffer (watched : Word → Prop) (buffer : Word) (size : BitVec 32) (m : Mem)
    (returned : BitVec 32) (m' : Mem) : Prop where
  bounds : 0 ≤ returned.toInt ∧ returned.toInt ≤ max size.toInt 0
  rest : ∀ x, watched x → ¬ InRange buffer (max size.toInt 0).toNat x → m' x = m x

section Read

variable {t : TarFs} {m : Mem} {handle offset : Word} {k : ℕ}

theorem tarfsRead_stays_iff (ht : t.Placed) (hk : k < maxTarFiles) (hne : handle ≠ 0#64)
    (hhandle : IsHandle t m handle k offset) (buffer : Word) (size : BitVec 32) :
    StaysInBuffer (fun x => ¬ InRange (handle + 8#64) 8 x) buffer size m
        (tarfsRead t m handle buffer size).1 (tarfsRead t m handle buffer size).2 ↔
      0 ≤ size.toInt ∨ ((t.tarFiles k).size - offset).toNat % 2 ^ 32 = 0 := by
  obtain ⟨v, hread⟩ := tarfsRead_cut ht hk hne hhandle buffer size
  rw [hread, ← cutSize_bounded_iff]
  generalize cutSize size ((t.tarFiles k).size - offset) = cut
  constructor
  · exact StaysInBuffer.bounds
  · refine fun hbounds => ⟨hbounds, fun x hx hout => ?_⟩
    dsimp only
    rw [store64_of_not_inRange _ _ _ _ hx]
    refine copyUp_of_not_inRange _ _ _ (rounds_le cut) fun hin => hout (inRange_mono hin ?_)
    unfold rounds
    omega

end Read

section VfsRead

variable {fuel i k : ℕ} {mounts : List Mountpoint} {s s' : Files} {path buffer handle : Word}
  {size bytes : BitVec 32} {live free : List Block} {mp : Mountpoint} {h : KernelHeap}

/-- The handle is opened exactly when the heap has room for it. -/
theorem tarfsOpen_of_gap (hinv : HeapInv s.toKernelHeap live free) (hfuel : 65536 < fuel)
    (hfind : s.tar.indexOf s.mem path = some k) (hfile : (s.tar.tarFiles k).type = .tarFile) :
    (¬ ∃ a, HeapGap live ⟨a, 32⟩) ∧
        tarfsOpen fuel s.tar s.toKernelHeap path = .ok (0#64, s.toKernelHeap) ∨
      (∃ a, HeapGap live ⟨a, 32⟩) ∧ ∃ b free' h,
        tarfsOpen fuel s.tar s.toKernelHeap path = .ok (payload b, h) ∧
        HeapInv h (b :: live) free' ∧ 32 ≤ b.size ∧ IsHandle s.tar h.mem (payload b) k 0#64 ∧
        ∀ x, Client live x → h.mem x = s.mem x := by
  have hneed : need 16#64 = 32 := by decide
  rcases hinv.kmalloc_of_gap hfuel (show (16#64 : Word) ≠ 0#64 by decide) (by decide) with
    ⟨hfull, hnull⟩ | ⟨hgap, g, free', h, -, hmalloc, hheap, -⟩
  · rw [hneed] at hfull
    left
    refine ⟨hfull, ?_⟩
    unfold tarfsOpen
    rw [hfind]
    dsimp only
    rw [if_neg (not_not.mpr hfile), hnull]
    rfl
  · rw [hneed] at hgap
    right
    rcases tarfsOpen_spec hinv hfuel hfind hfile with ⟨hnull, -⟩ | hopen
    · have hzero := (Prod.mk.inj (Except.ok.inj (hmalloc.symm.trans hnull))).1
      rw [← ofNat_add_eight] at hzero
      exact absurd hzero (hheap.placed_live List.mem_cons_self).payload_ne_zero
    · exact ⟨hgap, hopen⟩

/-- What `vfs_read` returns on an opened file is what `tarfs_read` returns. -/
theorem readMount_returned (hne : handle ≠ 0#64)
    (hopen : tarfsOpen fuel s.tar s.toKernelHeap path = .ok (handle, h))
    (hresult : (readMount fuel i ustarOps s path buffer size).result = .ok (bytes, s')) :
    bytes = (tarfsRead s.tar h.mem handle buffer size).1 := by
  change (callOpen fuel i s _ path >>= _).result = _ at hresult
  rw [callOpen_ustar rfl, hopen, Traced.result_bind_ok rfl] at hresult
  dsimp only at hresult
  rw [if_neg hne] at hresult
  unfold readHandle callRead callClose at hresult
  rw [Traced.result_bind_ok rfl] at hresult
  dsimp only at hresult
  cases hclose : tarfsClose fuel { h with mem := (tarfsRead s.tar h.mem handle buffer size).2 }
      handle with
  | error fault =>
      rw [hclose] at hresult
      cases hresult
  | ok h' =>
      rw [hclose] at hresult
      cases hresult
      rfl

/-- A read of a file on a mount of the ramdisk stays in the buffer exactly when the handle can be
allocated and the size of the buffer is not negative, or that of the file a multiple of 2^32. -/
theorem vfsRead_stays_iff (hfuel : 65536 < fuel) (hinv : HeapInv s.toKernelHeap live free)
    (htar : s.tar.Placed) (hmount : findMount mounts s.mem path = some (mp, i))
    (htype : mp.type = .ustar) (hfind : s.tar.indexOf s.mem (mp.relpath s.mem path) = some k)
    (hfile : (s.tar.tarFiles k).type = .tarFile)
    (hbuffer : ∀ x, InRange buffer (max size.toInt 0).toNat x → Client live x) :
    (∃ bytes s', (vfsRead fuel mounts s path buffer size).result = .ok (bytes, s') ∧
        StaysInBuffer (Client live) buffer size s.mem bytes s'.mem) ↔
      (∃ a, HeapGap live ⟨a, 32⟩) ∧
        (0 ≤ size.toInt ∨ (s.tar.tarFiles k).size.toNat % 2 ^ 32 = 0) := by
  have hvfs : (vfsRead fuel mounts s path buffer size).result =
      (readMount fuel i ustarOps s (mp.relpath s.mem path) buffer size).result := by
    unfold vfsRead
    rw [hmount]
    dsimp only
    rw [htype]
    rfl
  rw [hvfs]
  rcases tarfsOpen_of_gap hinv hfuel hfind hfile with
    ⟨hfull, hopen⟩ | ⟨hgap, b, free', h, hopen, hinv', hb, hhandle, hsame⟩
  · rw [readMount_of_open_fails hopen]
    refine iff_of_false ?_ fun hgap => hfull hgap.1
    rintro ⟨bytes, s', hresult, hstays⟩
    cases hresult
    exact absurd hstays.bounds.1 (by decide)
  · have hplaced := hinv'.placed_live List.mem_cons_self
    rw [and_iff_right hgap, ← BitVec.sub_zero (s.tar.tarFiles k).size,
      ← tarfsRead_stays_iff htar (htar.lt_of_indexOf hfind) hplaced.payload_ne_zero hhandle buffer]
    constructor
    · rintro ⟨bytes, s', hresult, hstays⟩
      rw [tarfsRead_stays_iff htar (htar.lt_of_indexOf hfind) hplaced.payload_ne_zero hhandle,
        ← cutSize_bounded_iff]
      obtain ⟨v, hread⟩ := tarfsRead_cut htar (htar.lt_of_indexOf hfind) hplaced.payload_ne_zero
        hhandle buffer size
      have hbytes := readMount_returned hplaced.payload_ne_zero hopen hresult
      rw [hread] at hbytes
      dsimp only at hbytes
      rw [← hbytes]
      exact hstays.bounds
    · intro hstays
      have hinv'' : HeapInv { h with mem := (tarfsRead s.tar h.mem (payload b) buffer size).2 }
          (b :: live) free' := by
        refine hinv'.write fun x hx => hstays.rest x (fun hin => hx ?_) fun hin =>
          hx (hbuffer x hin).cons
        exact Or.inl ⟨b, List.mem_cons_self, inPayload_of_inRange hplaced
          (show 16 + 8 ≤ b.size by omega) (inRange_next hin)⟩
      obtain ⟨h', hclose, hinv₃, hkeep⟩ := tarfsClose_spec hinv'' hfuel
      refine ⟨_, _, readMount_of_open hplaced.payload_ne_zero hopen rfl hclose, hstays.bounds,
        fun x hx hout => ?_⟩
      have hhandleOut : ¬ InRange (payload b + 8#64) 8 x := fun hin =>
        hinv'.client_not_inRange (show 16 + 8 ≤ b.size by omega) hx (inRange_next hin)
      exact (hkeep x hx).trans ((hstays.rest x hhandleOut hout).trans (hsame x hx))

end VfsRead

/-- A read stays within the buffer of the caller exactly when the size of the buffer is not
negative, or the low 32 bits of what is left of the file are zero. Through `vfs_read`, the heap must
also have room for the handle; otherwise the result is -1. -/
theorem reads_stay_in_buffer_iff (t : TarFs) (ht : t.Placed) (m : Mem) (handle offset : Word)
    (k : ℕ) (hk : k < maxTarFiles) (hne : handle ≠ 0#64) (hhandle : IsHandle t m handle k offset)
    (hoffset : offset.toNat ≤ (t.tarFiles k).size.toNat) (buffer : Word) (size : BitVec 32)
    (fuel : ℕ) (hfuel : 65536 < fuel) (mounts : List Mountpoint) (s : Files)
    (live free : List Block) (hinv : HeapInv s.toKernelHeap live free) (htar : s.tar.Placed)
    (path buffer' : Word) (size' : BitVec 32) (mp : Mountpoint) (i k' : ℕ)
    (hmount : findMount mounts s.mem path = some (mp, i)) (htype : mp.type = .ustar)
    (hfind : s.tar.indexOf s.mem (mp.relpath s.mem path) = some k')
    (hfile : (s.tar.tarFiles k').type = .tarFile)
    (hbuffer : ∀ x, InRange buffer' (max size'.toInt 0).toNat x → Client live x) :
    (StaysInBuffer (fun x => ¬ InRange (handle + 8#64) 8 x) buffer size m
          (tarfsRead t m handle buffer size).1 (tarfsRead t m handle buffer size).2 ↔
        0 ≤ size.toInt ∨
          ((t.tarFiles k).size.toNat - offset.toNat) % 2 ^ 32 = 0) ∧
      ((∃ bytes s', (vfsRead fuel mounts s path buffer' size').result = .ok (bytes, s') ∧
          StaysInBuffer (Client live) buffer' size' s.mem bytes s'.mem) ↔
        (∃ a, HeapGap live ⟨a, 32⟩) ∧
          (0 ≤ size'.toInt ∨ (s.tar.tarFiles k').size.toNat % 2 ^ 32 = 0)) := by
  refine ⟨?_, vfsRead_stays_iff hfuel hinv htar hmount htype hfind hfile hbuffer⟩
  rw [tarfsRead_stays_iff ht hk hne hhandle, BitVec.toNat_sub_of_le (BitVec.le_def.mpr hoffset)]

/-- A handle at 0x5000, fresh on the file of the ramdisk. -/
def openHandle : Mem :=
  store64 oneFile.mem 0x5000#64 0x8000#64

theorem openHandle_isHandle : IsHandle oneFile.tar openHandle 0x5000#64 0 0#64 :=
  ⟨by decide +kernel, by decide +kernel⟩

theorem reads_stay_in_buffer_oneFile :
    (∃ bytes m, tarfsRead oneFile.tar openHandle 0x5000#64 0x4000#64 8#32 = (bytes, m) ∧
        StaysInBuffer (fun x => ¬ InRange (0x5000#64 + 8#64) 8 x) 0x4000#64 8#32 openHandle bytes
          m) ∧
      ∃ bytes s', (vfsRead 65537 bootMounts oneFile 0x2000#64 0x4000#64 8#32).result =
          .ok (bytes, s') ∧
        StaysInBuffer (Client []) 0x4000#64 8#32 oneFile.mem bytes s'.mem := by
  have hplaced : oneFile.tar.Placed := ⟨by decide, by decide, by decide⟩
  have hinv : HeapInv oneFile.toKernelHeap [] [wholeHeap] := freshHeap_inv _
  have hgap : ∃ a, HeapGap [] ⟨a, 32⟩ :=
    (hinv.exists_heapGap_iff (by norm_num)).mpr ⟨wholeHeap, by simp, by decide⟩
  obtain ⟨hread, hvfs⟩ := reads_stay_in_buffer_iff oneFile.tar hplaced openHandle 0x5000#64 0#64 0
    (by decide) (by decide) openHandle_isHandle (by decide) 0x4000#64 8#32 65537 (by norm_num)
    bootMounts oneFile [] [wholeHeap] hinv hplaced 0x2000#64 0x4000#64 8#32 ⟨.ustar, [0x2F#8]⟩ 0 0
    (by decide +kernel) rfl (by decide +kernel) rfl (fun x => oneFile_client (by decide))
  exact ⟨⟨_, _, rfl, hread.mpr (Or.inl (by decide))⟩, hvfs.mpr ⟨hgap, Or.inl (by decide)⟩⟩

/-- A buffer of the size -1: three bytes are written and reported. -/
theorem negative_size_overruns :
    (tarfsRead oneFile.tar openHandle 0x5000#64 0x4000#64 (-1#32)).1 = 3#32 ∧
      (tarfsRead oneFile.tar openHandle 0x5000#64 0x4000#64 (-1#32)).2 0x4000#64 = 0x68#8 ∧
      openHandle 0x4000#64 = 0#8 ∧
      ¬ StaysInBuffer (fun x => ¬ InRange (0x5000#64 + 8#64) 8 x) 0x4000#64 (-1#32) openHandle
        (tarfsRead oneFile.tar openHandle 0x5000#64 0x4000#64 (-1#32)).1
        (tarfsRead oneFile.tar openHandle 0x5000#64 0x4000#64 (-1#32)).2 := by
  have hthree : (tarfsRead oneFile.tar openHandle 0x5000#64 0x4000#64 (-1#32)).1 = 3#32 := by
    decide +kernel
  refine ⟨hthree, by decide +kernel, by decide +kernel, fun hstays => ?_⟩
  have hle := hstays.bounds.2
  rw [hthree] at hle
  exact absurd hle (by decide)

end Osiris.Vfs
