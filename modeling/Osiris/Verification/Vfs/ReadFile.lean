import Osiris.Verification.Heap.Canonical
import Osiris.Verification.Tar.Read
import Osiris.Verification.Vfs.Handles

/-! # Reading a file through `vfs_read` -/

namespace Osiris.Vfs

open ByteMemory Strings Heap Tar Blocks

section

variable {fuel i : ℕ} {s : Files} {path buffer handle : Word} {size bytes : BitVec 32}
  {h : KernelHeap}

theorem readMount_of_open_fails
    (hopen : tarfsOpen fuel s.tar s.toKernelHeap path = .ok (0#64, h)) :
    (readMount fuel i ustarOps s path buffer size).result =
      .ok (-1#32, { s with toKernelHeap := h }) := by
  change (callOpen fuel i s _ path >>= _).result = _
  rw [callOpen_ustar rfl, hopen, Traced.result_bind_ok rfl]
  rfl

theorem readMount_of_open {m : Mem} {h' : KernelHeap} (hne : handle ≠ 0#64)
    (hopen : tarfsOpen fuel s.tar s.toKernelHeap path = .ok (handle, h))
    (hread : tarfsRead s.tar h.mem handle buffer size = (bytes, m))
    (hclose : tarfsClose fuel { h with mem := m } handle = .ok h') :
    (readMount fuel i ustarOps s path buffer size).result =
      .ok (bytes, { s with toKernelHeap := h' }) := by
  change (callOpen fuel i s _ path >>= _).result = _
  rw [callOpen_ustar rfl, hopen, Traced.result_bind_ok rfl]
  dsimp only
  rw [if_neg hne]
  unfold readHandle callRead callClose
  rw [Traced.result_bind_ok rfl, hread]
  dsimp only
  rw [hclose]
  rfl

end

/-- A file that a mount of the ramdisk covers is read from its start, and the handle that this takes
is given back. -/
theorem vfsRead_file (fuel : ℕ) (mounts : List Mountpoint) (s : Files) (path buffer : Word)
    (size : BitVec 32) (live free : List Block) (mp : Mountpoint) (i k : ℕ) (c : List Byte)
    (hfuel : 65536 < fuel) (hinv : HeapInv s.toKernelHeap live free) (htar : s.tar.Placed)
    (hmount : findMount mounts s.mem path = some (mp, i)) (htype : mp.type = .ustar)
    (hfind : s.tar.indexOf s.mem (mp.relpath s.mem path) = some k)
    (hfile : (s.tar.tarFiles k).type = .tarFile) (hcontents : s.tar.HasContents s.mem k c)
    (hsize : 0 ≤ size.toInt)
    (hbuffer : ∀ x, InRange buffer size.toNat x → Client live x)
    (hclient : ∀ x, InRange (s.tar.tarFiles k).addr c.length x → Client live x)
    (hapart : Apart (s.tar.tarFiles k).addr c.length buffer size.toNat) :
    ∃ bytes s', (vfsRead fuel mounts s path buffer size).result = .ok (bytes, s') ∧
      HeapInv s'.toKernelHeap live free ∧
      ((bytes.toInt = min size.toInt c.length ∧
          field s'.mem buffer size.toNat =
            c.take size.toNat ++ (field s.mem buffer size.toNat).drop c.length) ∨
        (kmalloc fuel s.toKernelHeap 16#64 = .ok (0#64, s.toKernelHeap) ∧ bytes = -1#32 ∧
          field s'.mem buffer size.toNat = field s.mem buffer size.toNat)) := by
  have hlt : size.toNat < 2 ^ 31 := by
    rw [BitVec.toInt_eq_toNat_cond] at hsize
    split at hsize
    · omega
    · have hwide := size.isLt
      omega
  have hint : size.toInt = size.toNat := BitVec.toInt_eq_toNat_of_lt (by omega)
  unfold vfsRead
  rw [hmount]
  dsimp only
  rw [htype]
  change ∃ bytes s', (readMount fuel i ustarOps s _ buffer size).result = .ok (bytes, s') ∧ _
  rcases tarfsOpen_spec hinv hfuel hfind hfile with
    ⟨hnull, hopen⟩ | ⟨b, free', h, hopen, hinv', hb, hhandle, hsame⟩
  · exact ⟨-1#32, s, readMount_of_open_fails hopen, hinv, Or.inr ⟨hnull, rfl, rfl⟩⟩
  · have hplaced := hinv'.placed_live List.mem_cons_self
    have hcontents' : s.tar.HasContents h.mem k c := by
      refine ⟨hcontents.size, ?_⟩
      have hlength : c.length ≤ 2 ^ 64 := by
        have hword := (s.tar.tarFiles k).size.isLt
        rw [hcontents.size] at hword
        omega
      rw [field_congr (fun x hx => hsame x (hclient x hx)) hlength]
      exact hcontents.bytes
    obtain ⟨m, h', hread, hclose, hinv'', hfield⟩ := tarfsRead_tarfsClose hinv' hfuel hb htar
      (htar.lt_of_indexOf hfind) hhandle hcontents' hlt hbuffer hapart
    rw [← hinv.free_unique hinv'' (List.Perm.refl _)] at hinv''
    refine ⟨_, _, readMount_of_open hplaced.payload_ne_zero hopen hread hclose, hinv'',
      Or.inl ⟨?_, ?_⟩⟩
    · rw [BitVec.toInt_eq_toNat_of_lt (by rw [BitVec.toNat_ofNat]; omega), BitVec.toNat_ofNat, hint]
      omega
    · rw [hfield, field_congr (fun x hx => hsame x (hbuffer x hx)) (by omega)]

/-- A ramdisk with the file `a`, which is 3 bytes long, and the path `//a` in memory. -/
def oneFile : Files where
  toKernelHeap := freshHeap
    { oneBlockHeap.toMachine with
      mem := store64 (store64 (fun _ => 0#8) 0x2000#64 0x612F2F#64) 0x3000#64 0x216968#64 }
  tar := ⟨0x8000#64, fun _ => ⟨[0x61#8], 0x3000#64, 3#64, .tarFile⟩, 1⟩
  devfsRoot := []

theorem oneFile_client {a n : ℕ} (hlow : a + n ≤ 2 ^ 32) {x : Word}
    (hx : InRange (BitVec.ofNat 64 a) n x) : Client [] x := by
  right
  rw [inRange_ofNat (by omega)] at hx
  rw [toNat_kernelHeapStart]
  omega

theorem vfsRead_oneFile :
    ∃ s', (vfsRead 65537 bootMounts oneFile 0x2000#64 0x4000#64 8#32).result = .ok (3#32, s') ∧
      HeapInv s'.toKernelHeap [] [wholeHeap] ∧
      field s'.mem 0x4000#64 8 = [0x68#8, 0x69#8, 0x21#8, 0#8, 0#8, 0#8, 0#8, 0#8] := by
  have hroom : ¬ kmalloc 65537 oneFile.toKernelHeap 16#64 = .ok (0#64, oneFile.toKernelHeap) := by
    intro hnull
    have hptr : (kmalloc 65537 oneFile.toKernelHeap 16#64).toOption.map (·.1) ≠ some 0#64 := by
      decide +kernel
    rw [hnull] at hptr
    exact hptr rfl
  obtain ⟨bytes, s', hok, hinv, ⟨hbytes, hfield⟩ | ⟨hnull, -⟩⟩ :=
    vfsRead_file 65537 bootMounts oneFile 0x2000#64 0x4000#64 8#32 [] [wholeHeap]
      ⟨.ustar, [0x2F#8]⟩ 0 0 [0x68#8, 0x69#8, 0x21#8] (by norm_num) (freshHeap_inv _)
      ⟨by decide, by decide, by decide⟩ (by decide +kernel) rfl (by decide +kernel) rfl
      ⟨by decide, by decide +kernel⟩ (by decide) (fun x => oneFile_client (by norm_num))
      (fun x => oneFile_client (by norm_num))
      (apart_ofNat (by norm_num) (by norm_num) (by norm_num))
  · have hthree : bytes = 3#32 := BitVec.eq_of_toInt_eq (hbytes.trans (by decide))
    rw [hthree] at hok
    exact ⟨s', hok, hinv, hfield.trans (by decide +kernel)⟩
  · exact absurd hnull hroom

end Osiris.Vfs
