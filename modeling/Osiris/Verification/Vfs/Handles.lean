import Osiris.Model.Mount
import Osiris.Verification.Heap.Alloc
import Osiris.Verification.Heap.Init

/-! # The handles of a file system in `vfs_read` -/

namespace Osiris.Vfs

open ByteMemory Strings Heap Tar

/-! ## The protocol -/

/-- The file systems that `vfs_read` opens, reads and closes. -/
def FsOperations.HasHandles (ops : FsOperations) : Prop :=
  ops.open'.isSome ∧ ops.read.isSome ∧ ops.close.isSome

/-- A file system with handles is only ever given a handle that its own `open` returned and that is
not closed yet, and every handle is closed once after that. -/
structure Protocol (mounts : List Mountpoint) (calls : List FsCall) : Prop where
  reads : ∀ before after i name mp, calls = before ++ .read i name :: after →
    mounts[i]? = some mp → mp.type.operations.HasHandles →
    name ≠ 0#64 ∧ (∃ path, .opened i path name ∈ before) ∧ .closed i name ∉ before
  closes : ∀ before after i path handle, calls = before ++ .opened i path handle :: after →
    handle ≠ 0#64 → after.count (.closed i handle) = 1

section

variable {mounts : List Mountpoint} {i : ℕ} {path handle : Word} {mp : Mountpoint}

theorem Protocol.nil : Protocol mounts [] :=
  ⟨fun _ _ _ _ _ h => absurd h (by simp), fun _ _ _ _ _ h => absurd h (by simp)⟩

theorem Protocol.open_fails : Protocol mounts [.opened i path 0#64] := by
  constructor
  · intro before after j name mp h
    cases before with
    | nil => simp at h
    | cons call before => simp at h
  · intro before after j path handle h hne
    cases before with
    | nil =>
        simp only [List.nil_append, List.cons.injEq, FsCall.opened.injEq] at h
        exact absurd h.1.2.2.symm hne
    | cons call before => simp at h

theorem Protocol.open_read_close (hne : handle ≠ 0#64) :
    Protocol mounts [.opened i path handle, .read i handle, .closed i handle] := by
  constructor
  · intro before after j name mp h _ _
    rcases before with _ | ⟨_, _ | ⟨_, _ | ⟨_, _⟩⟩⟩ <;> simp at h
    obtain ⟨rfl, ⟨rfl, rfl⟩, -⟩ := h
    exact ⟨hne, ⟨path, by simp⟩, by simp⟩
  · intro before after j path' handle' h hne'
    rcases before with _ | ⟨_, _ | ⟨_, _ | ⟨_, _⟩⟩⟩ <;> simp at h
    obtain ⟨⟨rfl, rfl, rfl⟩, rfl⟩ := h
    simp

theorem Protocol.read_only (hmp : mounts[i]? = some mp) (hops : ¬ mp.type.operations.HasHandles) :
    Protocol mounts [.read i path] := by
  constructor
  · intro before after j name mp' h hmp' hops'
    rcases before with _ | ⟨_, _⟩ <;> simp at h
    obtain ⟨⟨rfl, rfl⟩, -⟩ := h
    rw [hmp, Option.some.injEq] at hmp'
    rw [hmp'] at hops
    exact absurd hops' hops
  · intro before after j path' handle' h _
    rcases before with _ | ⟨_, _⟩ <;> simp at h

/-- What is read after a failed `open` is no handle. -/
theorem not_protocol_read_path (hmp : mounts[i]? = some mp)
    (hops : mp.type.operations.HasHandles) {name : Word} :
    ¬ Protocol mounts [.opened i path 0#64, .read i name] := by
  intro h
  obtain ⟨hne, ⟨path', hmem⟩, -⟩ := h.reads [.opened i path 0#64] [] i name mp rfl hmp hops
  simp only [List.mem_singleton, FsCall.opened.injEq] at hmem
  exact hne hmem.2.2

end

/-! ## When `open` fails -/

/-- The path does not lead to a file, or the heap has no room for a handle, which takes 32 bytes. -/
def OpenFails (fuel : ℕ) (s : Files) (path : Word) : Prop :=
  (∀ k, s.tar.indexOf s.mem path = some k → (s.tar.tarFiles k).type ≠ .tarFile) ∨
    lacksRoom s.mem 32#64 fuel s.freeListHead

theorem tarfsOpen_eq_null_iff {fuel : ℕ} {s : Files} {path : Word} :
    (∃ h, tarfsOpen fuel s.tar s.toKernelHeap path = .ok (0#64, h)) ↔ OpenFails fuel s path := by
  have hroom : (∃ h, kmalloc fuel s.toKernelHeap 16#64 = .ok (0#64, h)) ↔
      lacksRoom s.mem 32#64 fuel s.freeListHead := kmalloc_eq_null_iff (by decide)
  unfold tarfsOpen OpenFails
  rw [← hroom]
  cases hfind : s.tar.indexOf s.mem path with
  | none => simp
  | some k =>
      by_cases htype : (s.tar.tarFiles k).type = .tarFile
      · cases hroom : kmalloc fuel s.toKernelHeap 16#64 with
        | error fault => simp [htype, bind, Except.bind]
        | ok r =>
            cases r with
            | mk handle h =>
                by_cases hnull : handle = 0#64
                · simp [htype, hnull, bind, Except.bind]
                · simp [htype, hnull, bind, Except.bind]
      · simp [htype]

/-! ## The calls of `vfs_read` -/

section

variable {fuel i : ℕ} {mounts : List Mountpoint} {s : Files} {path buffer : Word}
  {size : BitVec 32}

theorem ustar_hasHandles : ustarOps.HasHandles :=
  ⟨rfl, rfl, rfl⟩

theorem devfs_not_hasHandles : ¬ devfsOps.HasHandles :=
  fun h => absurd h.1 (by decide)

/-- The calls on a file whose `open` returned `handle`. -/
def handleCalls (i : ℕ) (path handle : Word) : List FsCall :=
  [.opened i path handle, .read i handle, .closed i handle]

/-- The read of the file system on the ramdisk always returns. -/
theorem readHandle_calls {handle : Word} {readOp} {closeOp} (hread : ustarOps.read = some readOp) :
    (readHandle fuel i s handle buffer size readOp closeOp).calls =
      [.read i handle, .closed i handle] := by
  cases hread
  unfold readHandle
  rw [Traced.calls_bind_ok (by rfl)]
  simp only [callRead, List.singleton_append, List.cons.injEq, true_and]
  cases hclose : closeOp fuel { s with mem := (tarfsRead s.tar s.mem handle buffer size).2 }
      handle with
  | error fault =>
      rw [Traced.calls_bind_error (by exact hclose)]
      rfl
  | ok s' =>
      rw [Traced.calls_bind_ok (by exact hclose)]
      rfl

theorem callOpen_ustar {openOp} (hop : ustarOps.open' = some openOp) :
    callOpen fuel i s openOp path =
      match tarfsOpen fuel s.tar s.toKernelHeap path with
      | .error fault => ⟨[], .error fault⟩
      | .ok (handle, h) =>
          ⟨[.opened i path handle], .ok (handle, { s with toKernelHeap := h })⟩ := by
  cases hop
  unfold callOpen
  cases hopen : tarfsOpen fuel s.tar s.toKernelHeap path with
  | error fault => simp [hopen, bind, Except.bind]
  | ok r => simp [hopen, bind, Except.bind]

/-- Both passes of `vfs_read` open a file in the same way, and differ in what follows a failure. -/
theorem open_read_calls {openOp} {readOp} {closeOp} (hopen : ustarOps.open' = some openOp)
    (hread : ustarOps.read = some readOp) (failed : Files → Traced (BitVec 32 × Files))
    {calls : List FsCall} (hfailed : ∀ s, (failed s).calls = calls) :
    (do
      let (handle, s) ← callOpen fuel i s openOp path
      if handle = 0#64 then failed s
      else readHandle fuel i s handle buffer size readOp closeOp).calls =
      match tarfsOpen fuel s.tar s.toKernelHeap path with
      | .error _ => []
      | .ok (handle, _) =>
          if handle = 0#64 then .opened i path 0#64 :: calls else handleCalls i path handle := by
  rw [callOpen_ustar hopen]
  cases tarfsOpen fuel s.tar s.toKernelHeap path with
  | error fault => rfl
  | ok r =>
      cases r with
      | mk handle h =>
          dsimp only
          rw [Traced.calls_bind_ok rfl]
          by_cases hnull : handle = 0#64
          · simp [hnull, hfailed]
          · simp [hnull, readHandle_calls hread, handleCalls]

theorem readMount_ustar_calls :
    (readMount fuel i ustarOps s path buffer size).calls =
      match tarfsOpen fuel s.tar s.toKernelHeap path with
      | .error _ => []
      | .ok (handle, _) =>
          if handle = 0#64 then [.opened i path 0#64] else handleCalls i path handle :=
  open_read_calls rfl rfl (fun s => pure (-1#32, s)) fun _ => rfl

theorem searchMounts_ustar_calls {mp : Mountpoint} {rest : List Mountpoint}
    (htype : mp.type = .ustar) :
    (searchMounts fuel s path buffer size i (mp :: rest)).calls =
      match tarfsOpen fuel s.tar s.toKernelHeap path with
      | .error _ => []
      | .ok (handle, _) =>
          if handle = 0#64 then [.opened i path 0#64, .read i path]
          else handleCalls i path handle := by
  rw [searchMounts, htype]
  simp only [FsType.operations, ustarOps, ne_eq, ite_not]
  exact open_read_calls rfl rfl (fun s => callRead fuel i s _ path buffer size) fun _ => rfl

theorem readMount_protocol {mp : Mountpoint} (hmp : mounts[i]? = some mp) :
    Protocol mounts (readMount fuel i mp.type.operations s path buffer size).calls := by
  cases htype : mp.type with
  | ustar =>
      change Protocol mounts (readMount fuel i ustarOps s path buffer size).calls
      rw [readMount_ustar_calls]
      split
      · exact Protocol.nil
      · split
        · exact Protocol.open_fails
        · exact Protocol.open_read_close ‹_›
  | devfs =>
      refine Protocol.read_only hmp ?_
      rw [htype]
      exact devfs_not_hasHandles

theorem searchMounts_ustar_protocol {mp : Mountpoint} {rest : List Mountpoint}
    (htype : mp.type = .ustar) :
    Protocol (mp :: rest) (searchMounts fuel s path buffer size 0 (mp :: rest)).calls ↔
      ¬ OpenFails fuel s path := by
  have hops : mp.type.operations.HasHandles := by
    rw [htype]
    exact ustar_hasHandles
  rw [searchMounts_ustar_calls htype, ← tarfsOpen_eq_null_iff]
  cases tarfsOpen fuel s.tar s.toKernelHeap path with
  | error fault => simp [Protocol.nil]
  | ok r =>
      cases r with
      | mk handle h =>
          by_cases hnull : handle = 0#64
          · have hfirst : (mp :: rest)[0]? = some mp := rfl
            simp [hnull, not_protocol_read_path hfirst hops]
          · simp [hnull, handleCalls, Protocol.open_read_close hnull]

theorem searchMounts_devfs_protocol {mp : Mountpoint} {rest : List Mountpoint}
    (htype : mp.type = .devfs) :
    Protocol (mp :: rest) (searchMounts fuel s path buffer size 0 (mp :: rest)).calls := by
  have hcalls : (searchMounts fuel s path buffer size 0 (mp :: rest)).calls = [.read 0 path] := by
    rw [searchMounts, htype]
    rfl
  rw [hcalls]
  refine Protocol.read_only rfl ?_
  rw [htype]
  exact devfs_not_hasHandles

/-! ## The two passes -/

/-- No mount covers the path, and the first one is a ramdisk on which it cannot be opened. -/
def ReadsPath (fuel : ℕ) (mounts : List Mountpoint) (s : Files) (path : Word) : Prop :=
  (∀ mp ∈ mounts, ¬ mp.covers s.mem path) ∧ (∃ mp, mounts.head? = some mp ∧ mp.type = .ustar) ∧
    OpenFails fuel s path

theorem findMount_eq_none_iff {m : Mem} :
    findMount mounts m path = none ↔ ∀ mp ∈ mounts, ¬ mp.covers m path := by
  unfold findMount
  rw [List.find?_eq_none]
  constructor
  · intro h mp hmp
    obtain ⟨i, hi⟩ := List.getElem?_of_mem hmp
    exact h (mp, i) (List.mem_zipIdx_iff_getElem?.mpr hi)
  · intro h mp hmp
    exact h mp.1 (List.mem_of_getElem? (List.mem_zipIdx_iff_getElem?.mp hmp))

theorem getElem?_of_findMount {m : Mem} {mp : Mountpoint}
    (h : findMount mounts m path = some (mp, i)) : mounts[i]? = some mp :=
  List.mem_zipIdx_iff_getElem?.mp (List.mem_of_find?_eq_some h)

/-- `vfs_read` keeps to the protocol unless its last resort meets a ramdisk first and cannot open
the path there: then the path itself is read as a handle. -/
theorem vfsRead_protocol_iff (fuel : ℕ) (mounts : List Mountpoint) (s : Files)
    (path buffer : Word) (size : BitVec 32) :
    Protocol mounts (vfsRead fuel mounts s path buffer size).calls ↔
      ¬ ReadsPath fuel mounts s path := by
  unfold vfsRead ReadsPath
  rw [← findMount_eq_none_iff]
  cases hfind : findMount mounts s.mem path with
  | some r =>
      cases r with
      | mk mp i => simp [readMount_protocol (getElem?_of_findMount hfind)]
  | none =>
      cases mounts with
      | nil => simp [searchMounts, Protocol.nil]
      | cons mp rest =>
          cases htype : mp.type with
          | ustar => simp [htype, searchMounts_ustar_protocol htype]
          | devfs => simp [htype, searchMounts_devfs_protocol htype]

end

/-- The mounts after the kernel has started: the ramdisk on `/` and the devices on `/dev`. -/
def bootMounts : List Mountpoint :=
  [⟨.ustar, [0x2F#8]⟩, ⟨.devfs, [0x2F#8, 0x64#8, 0x65#8, 0x76#8]⟩]

/-- An empty ramdisk, and the path `/a` in memory. -/
def emptyRamdisk : Files where
  toKernelHeap := { oneBlockHeap with mem := store64 oneBlockHeap.mem 0x2000#64 0x612F#64 }
  tar := ⟨0x8000#64, fun _ => ⟨[], 0#64, 0#64, .tarFile⟩, 0⟩
  devfsRoot := []

/-- The mountpoint `/` does not cover `/a`, so that the last resort is taken. -/
theorem vfsRead_reads_path :
    (vfsRead 8 bootMounts emptyRamdisk 0x2000#64 0x3000#64 16#32).calls =
        [.opened 0 0x2000#64 0#64, .read 0 0x2000#64] ∧
      ¬ Protocol bootMounts
        (vfsRead 8 bootMounts emptyRamdisk 0x2000#64 0x3000#64 16#32).calls := by
  have hcalls : (vfsRead 8 bootMounts emptyRamdisk 0x2000#64 0x3000#64 16#32).calls =
      [.opened 0 0x2000#64 0#64, .read 0 0x2000#64] := by decide +kernel
  have hfirst : bootMounts[0]? = some ⟨.ustar, [0x2F#8]⟩ := rfl
  refine ⟨hcalls, ?_⟩
  rw [hcalls]
  exact not_protocol_read_path hfirst ustar_hasHandles

end Osiris.Vfs
