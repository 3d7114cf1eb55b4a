import Osiris.Verification.Vfs.ReadFile

/-! # Reading a file piece by piece -/

namespace Osiris.Tar

open ByteMemory Strings Heap Blocks LinkedList

/-! ## Sequences of reads -/

/-- A call of `tarfs_read` with the memory before and after it. -/
structure ReadCall where
  buffer : Word
  size : BitVec 32
  before : Mem
  returned : BitVec 32
  after : Mem

/-- The calls with these buffers and sizes, one after the other. -/
def readCalls (t : TarFs) (handle : Word) : Mem → List (Word × BitVec 32) → List ReadCall
  | _, [] => []
  | m, (buffer, size) :: requests =>
      let (returned, m') := tarfsRead t m handle buffer size
      ⟨buffer, size, m, returned, m'⟩ :: readCalls t handle m' requests

/-- What the call has delivered: as many bytes of the buffer as it says. -/
def ReadCall.delivered (r : ReadCall) : List Byte :=
  field r.after r.buffer r.returned.toNat

def offsetIn (m : Mem) (handle : Word) : ℕ :=
  (load64 m (handle + 8#64)).toNat

/-- The call delivers what is asked for or what is left, writes nothing else but the offset in the
handle, and moves that as far as it has read. -/
structure Delivers (c : List Byte) (handle : Word) (r : ReadCall) : Prop where
  returned : r.returned.toInt = min r.size.toInt (c.length - offsetIn r.before handle : ℕ)
  delivered : r.delivered = (c.drop (offsetIn r.before handle)).take r.returned.toNat
  rest : ∀ x, ¬ InRange r.buffer r.returned.toNat x → ¬ InRange (handle + 8#64) 8 x →
    r.after x = r.before x
  advanced : offsetIn r.after handle = offsetIn r.before handle + r.returned.toNat
  offset_le : offsetIn r.after handle ≤ c.length

/-- Nothing that a read writes is in the file, and the buffers are not in the handle. -/
structure ReadApart (t : TarFs) (k : ℕ) (c : List Byte) (handle : Word)
    (requests : List (Word × BitVec 32)) : Prop where
  file_handle : Apart (t.tarFiles k).addr c.length handle 16
  file_buffer : ∀ r ∈ requests, Apart (t.tarFiles k).addr c.length r.1 r.2.toNat
  buffer_handle : ∀ r ∈ requests, Apart r.1 r.2.toNat handle 16

section Reads

variable {t : TarFs} {m : Mem} {handle buffer offset : Word} {k n o : ℕ} {c : List Byte}
  {size : BitVec 32} {requests : List (Word × BitVec 32)}

theorem field_drop (m : Mem) (p : Word) (o n : ℕ) :
    field m (p + BitVec.ofNat 64 o) (n - o) = (field m p n).drop o := by
  refine List.ext_getElem (by simp) fun j hj _ => ?_
  rw [List.getElem_drop, getElem_field, getElem_field, add_assoc, ← BitVec.ofNat_add]

theorem toNat_lt_of_nonneg (hsize : 0 ≤ size.toInt) :
    size.toNat < 2 ^ 31 ∧ size.toInt = size.toNat := by
  have hcond := BitVec.toInt_eq_toNat_cond size
  have hwide := size.isLt
  split at hcond <;> omega

/-- A read writes to the buffer and to the second word of the handle. -/
theorem read_keeps (m : Mem) (buffer src handle v x : Word) (hn : n ≤ 2 ^ 64)
    (hbuffer : ¬ InRange buffer n x) (hoffset : ¬ InRange (handle + 8#64) 8 x) :
    store64 (copyUp m buffer src n) (handle + 8#64) v x = m x := by
  rw [store64_of_not_inRange _ _ _ _ hoffset, copyUp_of_not_inRange _ _ _ hn hbuffer]

/-- The piece of the file that a read copies. -/
theorem field_read (hcontents : t.HasContents m k c) (ho : o ≤ c.length) (hn : n ≤ c.length - o)
    (hfile : Apart (t.tarFiles k).addr c.length buffer n) (hbuffer : Apart buffer n handle 16)
    (v : Word) :
    field (store64 (copyUp m buffer ((t.tarFiles k).addr + BitVec.ofNat 64 o) n) (handle + 8#64) v)
      buffer n = (c.drop o).take n := by
  have hlength : c.length < 2 ^ 64 := hcontents.size ▸ (t.tarFiles k).size.isLt
  have hpiece : field m ((t.tarFiles k).addr + BitVec.ofNat 64 o) (c.drop o).length = c.drop o := by
    rw [List.length_drop, field_drop, hcontents.bytes]
  have hapart : Apart ((t.tarFiles k).addr + BitVec.ofNat 64 o) (c.drop o).length buffer n := by
    intro x hx
    rw [List.length_drop] at hx
    exact hfile x (inRange_field hx (by omega) hlength.le)
  have hcopy := field_copyUp hpiece (show n = min n (c.drop o).length by simp; omega)
    (show n ≤ 2 ^ 64 by omega) hapart
  have hnone : (field m buffer n).drop (c.drop o).length = [] :=
    List.drop_eq_nil_of_le (by simp; omega)
  rw [hnone, List.append_nil] at hcopy
  rw [← hcopy]
  exact field_congr (fun x hx => store64_of_not_inRange _ _ _ x
    fun hin => hbuffer x hx (inRange_next hin)) (by omega)

/-- One read on a handle that is at an offset in the file. -/
theorem tarfsRead_delivers (ht : t.Placed) (hk : k < maxTarFiles) (hne : handle ≠ 0#64)
    (hhandle : IsHandle t m handle k (BitVec.ofNat 64 o)) (ho : o ≤ c.length)
    (hcontents : t.HasContents m k c) (hsize : 0 ≤ size.toInt)
    (hfileHandle : Apart (t.tarFiles k).addr c.length handle 16)
    (hfile : Apart (t.tarFiles k).addr c.length buffer size.toNat)
    (hbuffer : Apart buffer size.toNat handle 16) :
    ∃ n m', tarfsRead t m handle buffer size = (BitVec.ofNat 32 n, m') ∧
      n = min size.toNat (c.length - o) ∧
      Delivers c handle ⟨buffer, size, m, BitVec.ofNat 32 n, m'⟩ ∧
      IsHandle t m' handle k (BitVec.ofNat 64 (o + n)) ∧ t.HasContents m' k c := by
  obtain ⟨hsmall, hint⟩ := toNat_lt_of_nonneg hsize
  have hlength : c.length < 2 ^ 64 := hcontents.size ▸ (t.tarFiles k).size.isLt
  have hoffset : (BitVec.ofNat 64 o).toNat = o := by
    rw [BitVec.toNat_ofNat, Nat.mod_eq_of_lt (by omega)]
  have hread := tarfsRead_spec ht hk hne hhandle (by rw [hoffset, hcontents.size]; exact ho) hsmall
    buffer
  have hbytes : bytesRead size (t.tarFiles k).size (BitVec.ofNat 64 o) =
      min size.toNat (c.length - o) := by
    rw [bytesRead, hcontents.size, hoffset]
  dsimp only at hread
  rw [hbytes] at hread
  obtain ⟨n, hn⟩ : ∃ n, n = min size.toNat (c.length - o) := ⟨_, rfl⟩
  rw [← hn] at hread
  have hfile' : Apart (t.tarFiles k).addr c.length buffer n := fun x hx hy =>
    hfile x hx (inRange_mono hy (by omega))
  have hbuffer' : Apart buffer n handle 16 := fun x hx =>
    hbuffer x (inRange_mono hx (by omega))
  have hword : ∀ p, (∀ x, InRange p 8 x → InRange handle 16 x) →
      load64 (copyUp m buffer ((t.tarFiles k).addr + BitVec.ofNat 64 o) n) p = load64 m p :=
    fun p hp => load64_congr fun x hx =>
      copyUp_of_not_inRange _ _ _ (by omega) (hbuffer'.symm x (hp x hx))
  have hfirst : ∀ x, InRange handle 8 x → InRange handle 16 x := fun x hx =>
    inRange_mono hx (by norm_num)
  rw [hword _ (fun x hx => inRange_next hx), hhandle.offset, ← BitVec.ofNat_add] at hread
  have hreturned : (BitVec.ofNat 32 n).toNat = n := by
    rw [BitVec.toNat_ofNat, Nat.mod_eq_of_lt (by omega)]
  have hbefore : offsetIn m handle = o := by rw [offsetIn, hhandle.offset, hoffset]
  have hafter : ∀ m₁, offsetIn (store64 m₁ (handle + 8#64) (BitVec.ofNat 64 (o + n))) handle =
      o + n := by
    intro m₁
    rw [offsetIn, load64_store64_same, BitVec.toNat_ofNat, Nat.mod_eq_of_lt (by omega)]
  refine ⟨n, _, hread, hn, ⟨?_, ?_, ?_, ?_, ?_⟩, ⟨?_, load64_store64_same _ _ _⟩,
    ⟨hcontents.size, ?_⟩⟩
  · dsimp only
    rw [BitVec.toInt_eq_toNat_of_lt (by omega), hreturned, hbefore, hint, hn]
    exact Nat.cast_min _ _
  · dsimp only [ReadCall.delivered]
    rw [hreturned, hbefore]
    exact field_read hcontents ho (by omega) hfile' hbuffer' _
  · intro x hx hout
    dsimp only at hx
    rw [hreturned] at hx
    exact read_keeps m buffer _ handle _ x (by omega) hx hout
  · dsimp only
    rw [hafter, hbefore, hreturned]
  · dsimp only
    rw [hafter]
    omega
  · rw [load64_store64_apart _ _ _ _ (apart_next handle), hword _ hfirst, hhandle.file]
  · refine Eq.trans (field_congr (fun x hx => ?_) hlength.le) hcontents.bytes
    exact read_keeps m buffer _ handle _ x (by omega) (hfile' x hx)
      fun hin => hfileHandle x hx (inRange_next hin)

/-- Two pieces of a file, the second from where the first ends. -/
theorem take_min_append {c : List Byte} {o size n : ℕ} (hn : n = min size (c.length - o))
    (total : ℕ) :
    (c.drop o).take n ++ (c.drop (o + n)).take total = (c.drop o).take (size + total) := by
  by_cases hle : size ≤ c.length - o
  · obtain rfl : n = size := by omega
    rw [List.take_add, List.drop_drop]
  · have hall : (c.drop o).take n = c.drop o := List.take_of_length_le (by simp; omega)
    have hnone : c.drop (o + n) = [] := List.drop_eq_nil_of_le (by omega)
    have hmore : (c.drop o).take (size + total) = c.drop o :=
      List.take_of_length_le (by simp; omega)
    rw [hall, hnone, List.take_nil, List.append_nil, hmore]

/-- The reads on a handle that is at an offset in the file. -/
theorem readCalls_delivers (ht : t.Placed) (hk : k < maxTarFiles) (hne : handle ≠ 0#64)
    (hhandle : IsHandle t m handle k (BitVec.ofNat 64 o)) (ho : o ≤ c.length)
    (hcontents : t.HasContents m k c) (hsizes : ∀ r ∈ requests, 0 ≤ r.2.toInt)
    (hapart : ReadApart t k c handle requests) :
    ((readCalls t handle m requests).map ReadCall.delivered).flatten =
        (c.drop o).take (requests.map fun r => r.2.toNat).sum ∧
      ∀ r ∈ readCalls t handle m requests, Delivers c handle r := by
  induction requests generalizing m o with
  | nil => simp [readCalls]
  | cons r requests ih =>
      obtain ⟨buffer, size⟩ := r
      obtain ⟨n, m', hread, hn, hdelivers, hhandle', hcontents'⟩ :=
        tarfsRead_delivers ht hk hne hhandle ho hcontents (hsizes _ List.mem_cons_self)
          hapart.file_handle (hapart.file_buffer _ List.mem_cons_self)
          (hapart.buffer_handle _ List.mem_cons_self)
      obtain ⟨hrest, hall⟩ := ih hhandle' (by omega) hcontents'
        (fun r hr => hsizes r (List.mem_cons_of_mem _ hr))
        ⟨hapart.file_handle, fun r hr => hapart.file_buffer r (List.mem_cons_of_mem _ hr),
          fun r hr => hapart.buffer_handle r (List.mem_cons_of_mem _ hr)⟩
      have hcalls : readCalls t handle m ((buffer, size) :: requests) =
          ⟨buffer, size, m, BitVec.ofNat 32 n, m'⟩ :: readCalls t handle m' requests := by
        rw [readCalls, hread]
      have hbefore : offsetIn m handle = o := by
        have hlength := (t.tarFiles k).size.isLt
        rw [hcontents.size] at hlength
        rw [offsetIn, hhandle.offset, BitVec.toNat_ofNat, Nat.mod_eq_of_lt (by omega)]
      have hreturned : (BitVec.ofNat 32 n).toNat = n := by
        have hwide := size.isLt
        rw [BitVec.toNat_ofNat, Nat.mod_eq_of_lt (by omega)]
      have hfirst := hdelivers.delivered
      dsimp only at hfirst
      rw [hbefore, hreturned] at hfirst
      rw [hcalls]
      refine ⟨?_, List.forall_mem_cons.mpr ⟨hdelivers, hall⟩⟩
      rw [List.map_cons, List.flatten_cons, hfirst, hrest, List.map_cons, List.sum_cons]
      exact take_min_append hn _

end Reads

/-- The reads on a freshly opened handle deliver the file piece by piece: together as much of it as
was asked for, each call saying how much, without leaving the file or the buffer, and nothing more
once the end is reached. -/
theorem chunked_reads_concatenate (t : TarFs) (ht : t.Placed) (h h' : KernelHeap)
    (live free : List Block) (hinv : HeapInv h live free) (fuel : ℕ) (hfuel : 65536 < fuel)
    (file handle : Word) (k : ℕ) (hfind : t.indexOf h.mem file = some k)
    (hopen : tarfsOpen fuel t h file = .ok (handle, h')) (hne : handle ≠ 0#64) (c : List Byte)
    (hcontents : t.HasContents h.mem k c)
    (hclient : ∀ x, InRange (t.tarFiles k).addr c.length x → Client live x)
    (requests : List (Word × BitVec 32)) (hsizes : ∀ r ∈ requests, 0 ≤ r.2.toInt)
    (hbuffers : ∀ r ∈ requests, (∀ x, InRange r.1 r.2.toNat x → Client live x) ∧
      Apart (t.tarFiles k).addr c.length r.1 r.2.toNat) :
    ((readCalls t handle h'.mem requests).map ReadCall.delivered).flatten =
        c.take (requests.map fun r => r.2.toNat).sum ∧
      (∀ r ∈ readCalls t handle h'.mem requests, Delivers c handle r) ∧
      ∀ r ∈ readCalls t handle h'.mem requests, offsetIn r.before handle = c.length →
        r.returned = 0#32 := by
  have htype : (t.tarFiles k).type = .tarFile := by
    by_contra hdir
    unfold tarfsOpen at hopen
    rw [hfind] at hopen
    dsimp only at hopen
    rw [if_pos hdir] at hopen
    cases hopen
    exact hne rfl
  rcases tarfsOpen_spec hinv hfuel hfind htype with
    ⟨-, hnull⟩ | ⟨b, free', h₁, hok, hinv', hb, hhandle, hsame⟩
  · rw [hnull] at hopen
    cases hopen
    exact absurd rfl hne
  · rw [hok] at hopen
    cases hopen
    have hlength : c.length < 2 ^ 64 := hcontents.size ▸ (t.tarFiles k).size.isLt
    have hcontents' : t.HasContents h'.mem k c := ⟨hcontents.size,
      (field_congr (fun x hx => hsame x (hclient x hx)) hlength.le).trans hcontents.bytes⟩
    have hout : ∀ x, Client live x → ¬ InRange (payload b) 16 x := fun x hx =>
      hinv'.client_not_inRange (show 16 + 8 ≤ b.size by omega) hx
    obtain ⟨hflat, hall⟩ := readCalls_delivers (o := 0) ht (ht.lt_of_indexOf hfind) hne hhandle
      (Nat.zero_le _) hcontents' hsizes ⟨fun x hx => hout x (hclient x hx),
        fun r hr => (hbuffers r hr).2, fun r hr x hx => hout x ((hbuffers r hr).1 x hx)⟩
    refine ⟨hflat, hall, fun r hr hend => ?_⟩
    have hadvanced := (hall r hr).advanced
    have hle := (hall r hr).offset_le
    exact BitVec.eq_of_toNat_eq (show r.returned.toNat = 0 by omega)

/-- Three reads, of 2, 0 and 8 bytes. -/
theorem chunked_reads_oneFile :
    ∃ handle h', tarfsOpen 65537 Vfs.oneFile.tar Vfs.oneFile.toKernelHeap 0x2002#64 =
        .ok (handle, h') ∧
      ((readCalls Vfs.oneFile.tar handle h'.mem [(0x4000#64, 2#32), (0x5000#64, 0#32),
        (0x6000#64, 8#32)]).map ReadCall.delivered).flatten = [0x68#8, 0x69#8, 0x21#8] := by
  have hrun : (tarfsOpen 65537 Vfs.oneFile.tar Vfs.oneFile.toKernelHeap 0x2002#64).toOption.map
      (·.1) = some 0xFFFF810000000008#64 := by decide +kernel
  obtain ⟨⟨handle, h'⟩, hopen, hhandle⟩ := Loop.exists_of_toOption hrun
  have hne : handle ≠ 0#64 := fun hzero => absurd (hhandle.symm.trans hzero) (by decide)
  refine ⟨handle, h', hopen, ?_⟩
  refine (chunked_reads_concatenate Vfs.oneFile.tar ⟨by decide, by decide, by decide⟩
    Vfs.oneFile.toKernelHeap h' [] [wholeHeap] (freshHeap_inv _) 65537 (by norm_num) 0x2002#64
    handle 0 (by decide +kernel) hopen hne [0x68#8, 0x69#8, 0x21#8] ⟨by decide, by decide +kernel⟩
    (fun x => Vfs.oneFile_client (by norm_num))
    [(0x4000#64, 2#32), (0x5000#64, 0#32), (0x6000#64, 8#32)] (by simp) ?_).1
  rw [List.forall_mem_cons]
  refine ⟨⟨fun x => Vfs.oneFile_client (by norm_num),
    apart_ofNat (by norm_num) (by norm_num) (by norm_num)⟩, ?_⟩
  rw [List.forall_mem_cons]
  refine ⟨⟨fun x => Vfs.oneFile_client (by norm_num),
    apart_ofNat (by norm_num) (by norm_num) (by norm_num)⟩, ?_⟩
  rw [List.forall_mem_singleton]
  exact ⟨fun x => Vfs.oneFile_client (by norm_num),
    apart_ofNat (by norm_num) (by norm_num) (by norm_num)⟩

end Osiris.Tar
