import Osiris.Model.Mount
import Osiris.Verification.Heap.Init
import Osiris.Verification.Tar.Fields

/-! # Which mount a path goes to -/

namespace Osiris.Vfs

open ByteMemory Strings Heap Tar

/-- The character between the components of a path. -/
def slash : Byte := 0x2F#8

/-- A path is a mountpoint or goes on below it. -/
def Covers (mountpoint path : List Byte) : Prop :=
  path = mountpoint ∨ mountpoint ++ [slash] <+: path

instance (mountpoint path : List Byte) : Decidable (Covers mountpoint path) :=
  inferInstanceAs (Decidable (_ ∨ _))

/-- What is left of a path below a mountpoint, without one slash. -/
def remainder (mountpoint path : List Byte) : List Byte :=
  match path.drop mountpoint.length with
  | [] => []
  | c :: rest => if c = slash then rest else c :: rest

section Strings

variable {m : Mem} {path : Word} {p : List Byte}

/-- The string that starts further on in a string. -/
theorem stringAt_append {s t : List Byte} (h : StringAt m path (s ++ t)) :
    StringAt m (path + BitVec.ofNat 64 s.length) t := by
  induction s generalizing path with
  | nil => simpa using h
  | cons c s ih =>
      obtain ⟨-, -, hrest⟩ := h
      have haddr : path + BitVec.ofNat 64 (c :: s).length =
          path + 1#64 + BitVec.ofNat 64 s.length := by
        rw [List.length_cons, Nat.add_comm, BitVec.ofNat_add, BitVec.add_assoc]
      rw [haddr]
      exact ih hrest

/-- The loop over the characters of a mountpoint finds whether the path begins with it. -/
theorem commonLength_eq_length_iff {mountpoint : List Byte} (hpath : StringAt m path p)
    (hnul : 0#8 ∉ mountpoint) :
    commonLength m path mountpoint = mountpoint.length ↔ mountpoint <+: p := by
  induction mountpoint generalizing path p with
  | nil => simp [commonLength]
  | cons c mountpoint ih =>
      have hrest : 0#8 ∉ mountpoint := fun h => hnul (List.mem_cons_of_mem c h)
      unfold commonLength
      cases p with
      | nil =>
          have hend : m path = 0#8 := hpath
          have hne : ¬ m path = c := fun h => hnul (by rw [← h, hend]; exact List.mem_cons_self)
          rw [if_neg hne]
          simp
      | cons d p =>
          obtain ⟨-, hd, htail⟩ := hpath
          rw [hd, List.cons_prefix_cons]
          by_cases hcd : d = c
          · rw [if_pos hcd, List.length_cons, Nat.add_right_cancel_iff, ih htail hrest]
            simp [hcd]
          · rw [if_neg hcd]
            simp [Ne.symm hcd]

end Strings

section Cover

variable {m : Mem} {path : Word} {p : List Byte} {mp : Mountpoint}

/-- After the mountpoint, the path is at its end or at a slash. -/
theorem covers_iff (hpath : StringAt m path p) (hnul : 0#8 ∉ mp.mountpoint) :
    mp.covers m path ↔ Covers mp.mountpoint p := by
  have hcommon := commonLength_eq_length_iff hpath hnul
  unfold Mountpoint.covers Covers
  simp only [Bool.and_eq_true, Bool.or_eq_true, decide_eq_true_eq]
  constructor
  · rintro ⟨hlength, hnext⟩
    obtain ⟨rest, rfl⟩ := hcommon.mp hlength
    rw [hlength] at hnext
    have hrest := stringAt_append hpath
    cases rest with
    | nil => exact .inl (List.append_nil _)
    | cons c rest =>
        obtain ⟨hc, hmem, -⟩ := hrest
        rw [hmem] at hnext
        obtain rfl : c = slash := hnext.resolve_right hc
        exact .inr ⟨rest, by simp⟩
  · rintro (rfl | ⟨rest, rfl⟩)
    · have hlength := hcommon.mpr (List.prefix_refl _)
      have hend : StringAt m (path + BitVec.ofNat 64 mp.mountpoint.length) [] :=
        stringAt_append (by rwa [List.append_nil])
      rw [hlength]
      exact ⟨rfl, .inr hend⟩
    · have hlength := hcommon.mpr ⟨slash :: rest, by simp⟩
      rw [List.append_assoc] at hpath
      obtain ⟨-, hmem, -⟩ := stringAt_append hpath
      rw [hlength]
      exact ⟨rfl, .inl hmem⟩

/-- The path ends with the mountpoint, or a slash and the remainder come after it. -/
theorem relpath_cases (hpath : StringAt m path p) (hcovers : Covers mp.mountpoint p) :
    (p = mp.mountpoint ∧ remainder mp.mountpoint p = [] ∧
        mp.relpath m path = path + BitVec.ofNat 64 mp.mountpoint.length) ∨
      ∃ rest, p = mp.mountpoint ++ [slash] ++ rest ∧ remainder mp.mountpoint p = rest ∧
        mp.relpath m path = path + BitVec.ofNat 64 (mp.mountpoint ++ [slash]).length := by
  unfold Mountpoint.relpath remainder
  rcases hcovers with rfl | ⟨rest, rfl⟩
  · have hend : StringAt m (path + BitVec.ofNat 64 mp.mountpoint.length) [] :=
      stringAt_append (by rwa [List.append_nil])
    have hnul : m (path + BitVec.ofNat 64 mp.mountpoint.length) = 0#8 := hend
    refine Or.inl ⟨rfl, by rw [List.drop_length], ?_⟩
    dsimp only
    rw [hnul, if_neg (by decide)]
  · refine Or.inr ⟨rest, rfl, ?_, ?_⟩
    · rw [List.append_assoc, List.drop_left]
      rfl
    · rw [List.append_assoc] at hpath
      obtain ⟨-, hslash, -⟩ := stringAt_append hpath
      dsimp only
      rw [hslash, if_pos (show slash = 0x2F#8 from rfl), List.length_append, BitVec.ofNat_add,
        BitVec.add_assoc]
      rfl

theorem stringAt_relpath (hpath : StringAt m path p) (hcovers : Covers mp.mountpoint p) :
    StringAt m (mp.relpath m path) (remainder mp.mountpoint p) := by
  rcases relpath_cases hpath hcovers with ⟨rfl, hrest, haddr⟩ | ⟨rest, rfl, hrest, haddr⟩
  · rw [hrest, haddr]
    exact stringAt_append (by rwa [List.append_nil])
  · rw [hrest, haddr]
    exact stringAt_append hpath

/-- The remainder is at the end of the path. -/
theorem relpath_eq (hpath : StringAt m path p) (hcovers : Covers mp.mountpoint p) :
    mp.relpath m path =
      path + BitVec.ofNat 64 (p.length - (remainder mp.mountpoint p).length) := by
  rcases relpath_cases hpath hcovers with ⟨rfl, hrest, haddr⟩ | ⟨rest, rfl, hrest, haddr⟩
  · rw [hrest, haddr]
    rfl
  · have hlength : (mp.mountpoint ++ [slash] ++ rest).length - rest.length =
        (mp.mountpoint ++ [slash]).length := by
      rw [List.length_append, Nat.add_sub_cancel]
    rw [hrest, haddr, hlength]

end Cover

/-- The first of the mounts that cover the path is found. -/
theorem findMount_eq_some {m : Mem} {path : Word} {p : List Byte} {mp : Mountpoint}
    {before after : List Mountpoint} (hpath : StringAt m path p)
    (hnul : ∀ mp' ∈ before ++ mp :: after, 0#8 ∉ mp'.mountpoint) (hcovers : Covers mp.mountpoint p)
    (hfirst : ∀ mp' ∈ before, ¬ Covers mp'.mountpoint p) :
    findMount (before ++ mp :: after) m path = some (mp, before.length) := by
  unfold findMount
  rw [List.zipIdx_append, List.find?_append]
  have hbefore : before.zipIdx.find? (fun mp => mp.1.covers m path) = none := by
    rw [List.find?_eq_none]
    rintro ⟨mp', i⟩ hmem hcovers'
    have hmem' : mp' ∈ before := (List.mem_zipIdx hmem).2.2 ▸ List.getElem_mem _
    exact hfirst mp' hmem'
      ((covers_iff hpath (hnul mp' (List.mem_append_left _ hmem'))).mp hcovers')
  have hmp : mp.covers m path = true := (covers_iff hpath (hnul mp (by simp))).mpr hcovers
  rw [hbefore, List.zipIdx_cons, List.find?_cons, hmp]
  simp

/-- Where the first mount that covers a path stands. -/
theorem exists_first_covering {mounts : List Mountpoint} {p : List Byte}
    (hsome : ∃ mp ∈ mounts, Covers mp.mountpoint p) :
    ∃ before mp after, mounts = before ++ mp :: after ∧ Covers mp.mountpoint p ∧
      ∀ mp' ∈ before, ¬ Covers mp'.mountpoint p := by
  have hfound : (mounts.find? fun mp => decide (Covers mp.mountpoint p)).isSome := by
    simpa using hsome
  obtain ⟨mp, hmp⟩ := Option.isSome_iff_exists.mp hfound
  obtain ⟨hcovers, before, after, heq, hfirst⟩ := List.find?_eq_some_iff_append.mp hmp
  exact ⟨before, mp, after, heq, of_decide_eq_true hcovers, fun mp' hmem => by
    simpa using hfirst mp' hmem⟩

/-! ## The three calls -/

/-- `vfs_find_node`, `vfs_write` and `vfs_read` all give a path to the first mount in the list that
covers it, with the remainder of the path. -/
theorem first_covering_mount {mounts : List Mountpoint} {s : Files} {path : Word} {p : List Byte}
    (hpath : StringAt s.mem path p) (hne : path ≠ 0#64)
    (hnul : ∀ mp ∈ mounts, 0#8 ∉ mp.mountpoint) (hsome : ∃ mp ∈ mounts, Covers mp.mountpoint p) :
    ∃ before mp after relpath, mounts = before ++ mp :: after ∧ Covers mp.mountpoint p ∧
      (∀ mp' ∈ before, ¬ Covers mp'.mountpoint p) ∧
      StringAt s.mem relpath (remainder mp.mountpoint p) ∧
      vfsFindNode mounts s path =
        mp.type.operations.lookup.bind (fun lookup => lookup s relpath) ∧
      ∀ fuel buffer size,
        vfsWrite fuel mounts s path buffer size =
            (match mp.type.operations.write with
              | some write => write fuel s relpath buffer size
              | none => .ok (-1#32, s)) ∧
          vfsRead fuel mounts s path buffer size =
            readMount fuel before.length mp.type.operations s relpath buffer size := by
  obtain ⟨before, mp, after, rfl, hcovers, hfirst⟩ := exists_first_covering hsome
  have hfind := findMount_eq_some hpath hnul hcovers hfirst
  refine ⟨before, mp, after, mp.relpath s.mem path, rfl, hcovers, hfirst,
    stringAt_relpath hpath hcovers, ?_, fun fuel buffer size => ⟨?_, ?_⟩⟩
  · unfold vfsFindNode
    rw [hfind]
    dsimp only
    cases mp.type.operations.lookup with
    | none => rfl
    | some lookup => rfl
  · unfold vfsWrite
    rw [if_neg hne]
    cases hwrite : mp.type.operations.write with
    | none => simp only [hfind, hwrite]
    | some write => simp only [hfind, hwrite]
  · unfold vfsRead
    rw [hfind]

/-- A ramdisk on `/mnt` and the devices on `/mnt/usb`. -/
def nestedMounts : List Mountpoint :=
  [⟨.ustar, [0x2F#8, 0x6D#8, 0x6E#8, 0x74#8]⟩,
    ⟨.devfs, [0x2F#8, 0x6D#8, 0x6E#8, 0x74#8, 0x2F#8, 0x75#8, 0x73#8, 0x62#8]⟩]

/-- The path `/mnt/usb/x`. -/
def nestedPath : List Byte :=
  [0x2F#8, 0x6D#8, 0x6E#8, 0x74#8, 0x2F#8, 0x75#8, 0x73#8, 0x62#8, 0x2F#8, 0x78#8]

/-- The path in memory, an empty ramdisk and a device `x`. -/
def nestedFiles : Files where
  toKernelHeap :=
    { oneBlockHeap with
      mem := store64 (store64 oneBlockHeap.mem 0x2000#64 0x6273752F746E6D2F#64) 0x2008#64
        0x782F#64 }
  tar := ⟨0x8000#64, fun _ => ⟨[], 0#64, 0#64, .tarFile⟩, 0⟩
  devfsRoot := [⟨[0x78#8], none, none⟩]

theorem stringAt_nestedPath : StringAt nestedFiles.mem 0x2000#64 nestedPath := by
  decide +kernel

theorem first_covering_mount_nestedMounts :
    ∃ before mp after relpath, nestedMounts = before ++ mp :: after ∧
      Covers mp.mountpoint nestedPath ∧ (∀ mp' ∈ before, ¬ Covers mp'.mountpoint nestedPath) ∧
      StringAt nestedFiles.mem relpath (remainder mp.mountpoint nestedPath) ∧
      vfsFindNode nestedMounts nestedFiles 0x2000#64 =
        mp.type.operations.lookup.bind (fun lookup => lookup nestedFiles relpath) ∧
      ∀ fuel buffer size,
        vfsWrite fuel nestedMounts nestedFiles 0x2000#64 buffer size =
            (match mp.type.operations.write with
              | some write => write fuel nestedFiles relpath buffer size
              | none => .ok (-1#32, nestedFiles)) ∧
          vfsRead fuel nestedMounts nestedFiles 0x2000#64 buffer size =
            readMount fuel before.length mp.type.operations nestedFiles relpath buffer size :=
  first_covering_mount stringAt_nestedPath (by decide) (by decide) (by decide)

/-- The path is below both mountpoints and goes to the shorter one, where `x` is not looked up. -/
theorem longer_mount_not_taken :
    StringAt nestedFiles.mem 0x2000#64 nestedPath ∧
      (∀ mp ∈ nestedMounts, Covers mp.mountpoint nestedPath) ∧
      (∀ fuel buffer size, vfsRead fuel nestedMounts nestedFiles 0x2000#64 buffer size =
        readMount fuel 0 ustarOps nestedFiles 0x2005#64 buffer size) ∧
      (vfsFindNode nestedMounts nestedFiles 0x2000#64).isNone ∧
      (devfsLookup nestedFiles 0x2009#64).isSome := by
  refine ⟨stringAt_nestedPath, by decide, fun fuel buffer size => ?_, by decide +kernel,
    by decide +kernel⟩
  have hfind : findMount nestedMounts nestedFiles.mem 0x2000#64 =
      some (⟨.ustar, [0x2F#8, 0x6D#8, 0x6E#8, 0x74#8]⟩, 0) := by decide +kernel
  unfold vfsRead
  rw [hfind]
  rfl

/-! ## What the calls read of a path

The loop over the mounts once more, with the indices at which it reads the path. -/

/-- The loop over the characters of a mountpoint: the index at which it stops, and those it reads
the path at. -/
def commonLengthTr (m : Mem) (path : Word) : ℕ → List Byte → ℕ × List ℕ
  | i, [] => (i, [])
  | i, c :: mountpoint =>
      if m (path + BitVec.ofNat 64 i) ≠ c then (i, [i])
      else
        let (stop, reads) := commonLengthTr m path (i + 1) mountpoint
        (stop, i :: reads)

/-- The character after the mountpoint is looked at only when the loop has come to its end, and
once more when it is no slash. -/
def Mountpoint.coversTr (m : Mem) (path : Word) (mp : Mountpoint) : Bool × List ℕ :=
  let (i, reads) := commonLengthTr m path 0 mp.mountpoint
  if i = mp.mountpoint.length then
    if m (path + BitVec.ofNat 64 i) = 0x2F#8 then (true, reads ++ [i])
    else (m (path + BitVec.ofNat 64 i) = 0#8, reads ++ [i, i])
  else (false, reads)

/-- A mount with its place in the list, and the path it is given. -/
structure Target where
  mount : Mountpoint
  place : ℕ
  relpath : Word

def dispatchTr (m : Mem) (path : Word) : ℕ → List Mountpoint → Option Target × List ℕ
  | _, [] => (none, [])
  | i, mp :: mounts =>
      let (covers, reads) := mp.coversTr m path
      if covers then
        (some ⟨mp, i, mp.relpath m path⟩, reads ++ [mp.mountpoint.length])
      else
        let (target, rest) := dispatchTr m path (i + 1) mounts
        (target, reads ++ rest)

def vfsFindNodeTr (mounts : List Mountpoint) (s : Files) (path : Word) :
    Option DevfsNode × Option Target × List ℕ :=
  let (target, reads) := dispatchTr s.mem path 0 mounts
  match target with
  | some t =>
      match t.mount.type.operations.lookup with
      | some lookup => (lookup s t.relpath, target, reads)
      | none => (none, target, reads)
  | none => (none, target, reads)

def vfsWriteTr (fuel : ℕ) (mounts : List Mountpoint) (s : Files) (path buffer : Word)
    (size : BitVec 32) : Except Fault (BitVec 32 × Files) × Option Target × List ℕ :=
  if path = 0#64 then (.ok (-1#32, s), none, [])
  else
    let (target, reads) := dispatchTr s.mem path 0 mounts
    match target with
    | some t =>
        match t.mount.type.operations.write with
        | some write => (write fuel s t.relpath buffer size, target, reads)
        | none => (.ok (-1#32, s), target, reads)
    | none => (.ok (-1#32, s), target, reads)

/-- The second pass gives the whole path to the file systems and reads none of it. -/
def vfsReadTr (fuel : ℕ) (mounts : List Mountpoint) (s : Files) (path buffer : Word)
    (size : BitVec 32) : Traced (BitVec 32 × Files) × Option Target × List ℕ :=
  let (target, reads) := dispatchTr s.mem path 0 mounts
  match target with
  | some t =>
      (readMount fuel t.place t.mount.type.operations s t.relpath buffer size, target, reads)
  | none => (searchMounts fuel s path buffer size 0 mounts, target, reads)

section Reads

variable {m : Mem} {path : Word} {p : List Byte}

theorem commonLengthTr_fst (m : Mem) (path : Word) (i : ℕ) (mountpoint : List Byte) :
    (commonLengthTr m path i mountpoint).1 =
      i + commonLength m (path + BitVec.ofNat 64 i) mountpoint := by
  induction mountpoint generalizing i with
  | nil => simp [commonLengthTr, commonLength]
  | cons c mountpoint ih =>
      have haddr : path + BitVec.ofNat 64 i + 1#64 = path + BitVec.ofNat 64 (i + 1) := by
        rw [BitVec.ofNat_add, ← BitVec.add_assoc]
      unfold commonLengthTr commonLength
      by_cases hc : m (path + BitVec.ofNat 64 i) = c
      · rw [if_neg (not_not.mpr hc), if_pos hc, haddr]
        dsimp only
        rw [ih (i + 1)]
        omega
      · rw [if_pos hc, if_neg hc]
        rfl

/-- The loop stops at the end of the path at the latest. -/
theorem commonLengthTr_le {i : ℕ} {mountpoint q : List Byte}
    (hpath : StringAt m (path + BitVec.ofNat 64 i) q) (hnul : 0#8 ∉ mountpoint) :
    (commonLengthTr m path i mountpoint).1 ≤ i + q.length ∧
      ∀ j ∈ (commonLengthTr m path i mountpoint).2, j ≤ i + q.length := by
  induction mountpoint generalizing i q with
  | nil => simp [commonLengthTr]
  | cons c mountpoint ih =>
      have hrest : 0#8 ∉ mountpoint := fun h => hnul (List.mem_cons_of_mem c h)
      unfold commonLengthTr
      by_cases hc : m (path + BitVec.ofNat 64 i) = c
      · rw [if_neg (not_not.mpr hc)]
        cases q with
        | nil =>
            have hend : m (path + BitVec.ofNat 64 i) = 0#8 := hpath
            exact absurd (hc.symm.trans hend) fun h => hnul (h ▸ List.mem_cons_self)
        | cons d q =>
            obtain ⟨-, -, htail⟩ := hpath
            rw [BitVec.add_assoc, ← BitVec.ofNat_add] at htail
            obtain ⟨hstop, hreads⟩ := ih htail hrest
            rw [List.length_cons]
            refine ⟨by dsimp only; omega, fun j hj => ?_⟩
            rcases List.mem_cons.mp hj with rfl | hj
            · omega
            · have hle := hreads j hj
              omega
      · rw [if_pos hc]
        refine ⟨Nat.le_add_right i _, fun j hj => ?_⟩
        rw [List.mem_singleton.mp hj]
        exact Nat.le_add_right i _

variable {mp : Mountpoint}

theorem coversTr_fst (m : Mem) (path : Word) (mp : Mountpoint) :
    (mp.coversTr m path).1 = mp.covers m path := by
  have hlength : (commonLengthTr m path 0 mp.mountpoint).1 = commonLength m path mp.mountpoint := by
    rw [commonLengthTr_fst]
    simp
  unfold Mountpoint.coversTr Mountpoint.covers
  dsimp only
  rw [hlength]
  by_cases hfull : commonLength m path mp.mountpoint = mp.mountpoint.length
  · rw [if_pos hfull, hfull]
    by_cases hslash : m (path + BitVec.ofNat 64 mp.mountpoint.length) = 0x2F#8
    · simp [hslash]
    · simp [hslash]
  · rw [if_neg hfull]
    simp [hfull]

theorem coversTr_le (hpath : StringAt m path p) (hnul : 0#8 ∉ mp.mountpoint) :
    ∀ j ∈ (mp.coversTr m path).2, j ≤ p.length := by
  have hstart : StringAt m (path + BitVec.ofNat 64 0) p := by simpa using hpath
  obtain ⟨hstop, hreads⟩ := commonLengthTr_le hstart hnul
  rw [Nat.zero_add] at hstop hreads
  intro j hj
  unfold Mountpoint.coversTr at hj
  dsimp only at hj
  split at hj
  · split at hj
    · simp only [List.mem_append, List.mem_singleton] at hj
      rcases hj with hj | rfl
      · exact hreads j hj
      · exact hstop
    · simp only [List.mem_append, List.mem_cons, List.not_mem_nil, or_false, or_self] at hj
      rcases hj with hj | rfl
      · exact hreads j hj
      · exact hstop
  · exact hreads j hj

/-- The loop over the mounts finds the first one that covers the path. -/
theorem dispatchTr_fst (m : Mem) (path : Word) (i : ℕ) (mounts : List Mountpoint) :
    (dispatchTr m path i mounts).1 =
      ((mounts.zipIdx i).find? fun mp => mp.1.covers m path).map fun mp =>
        ⟨mp.1, mp.2, mp.1.relpath m path⟩ := by
  induction mounts generalizing i with
  | nil => rfl
  | cons mp mounts ih =>
      unfold dispatchTr
      dsimp only
      rw [coversTr_fst, List.zipIdx_cons, List.find?_cons]
      cases mp.covers m path with
      | false => exact ih (i + 1)
      | true => rfl

/-- None of the loops reads the path beyond its end. -/
theorem dispatchTr_le {mounts : List Mountpoint} (hpath : StringAt m path p)
    (hnul : ∀ mp ∈ mounts, 0#8 ∉ mp.mountpoint) (i : ℕ) :
    ∀ j ∈ (dispatchTr m path i mounts).2, j ≤ p.length := by
  induction mounts generalizing i with
  | nil => simp [dispatchTr]
  | cons mp mounts ih =>
      have hmp := hnul mp List.mem_cons_self
      have hreads := coversTr_le hpath hmp
      intro j hj
      unfold dispatchTr at hj
      dsimp only at hj
      rw [coversTr_fst] at hj
      cases hcovers : mp.covers m path with
      | false =>
          rw [hcovers, if_neg (by decide)] at hj
          rcases List.mem_append.mp hj with hj | hj
          · exact hreads j hj
          · exact ih (fun mp' hmem => hnul mp' (List.mem_cons_of_mem mp hmem)) (i + 1) j hj
      | true =>
          rw [hcovers, if_pos rfl] at hj
          rcases List.mem_append.mp hj with hj | hj
          · exact hreads j hj
          · rw [List.mem_singleton.mp hj]
            rcases (covers_iff hpath hmp).mp hcovers with rfl | hprefix
            · exact le_rfl
            · have hle := hprefix.length_le
              rw [List.length_append] at hle
              omega

end Reads

/-- The path goes to the first mount in the list that covers it, with the remainder of the path, or
to none when there is no such mount. -/
def Selects (mounts : List Mountpoint) (m : Mem) (path : Word) (p : List Byte) :
    Option Target → Prop
  | none => ∀ mp ∈ mounts, ¬ Covers mp.mountpoint p
  | some t =>
      ∃ before after, mounts = before ++ t.mount :: after ∧ t.place = before.length ∧
        Covers t.mount.mountpoint p ∧ (∀ mp ∈ before, ¬ Covers mp.mountpoint p) ∧
        t.relpath = path + BitVec.ofNat 64 (p.length - (remainder t.mount.mountpoint p).length) ∧
        StringAt m t.relpath (remainder t.mount.mountpoint p)

theorem dispatchTr_selects {mounts : List Mountpoint} {m : Mem} {path : Word} {p : List Byte}
    (hpath : StringAt m path p) (hnul : ∀ mp ∈ mounts, 0#8 ∉ mp.mountpoint) :
    Selects mounts m path p (dispatchTr m path 0 mounts).1 := by
  rw [dispatchTr_fst]
  by_cases hsome : ∃ mp ∈ mounts, Covers mp.mountpoint p
  · obtain ⟨before, mp, after, rfl, hcovers, hfirst⟩ := exists_first_covering hsome
    have hfind := findMount_eq_some hpath hnul hcovers hfirst
    unfold findMount at hfind
    rw [hfind]
    exact ⟨before, after, rfl, rfl, hcovers, hfirst, relpath_eq hpath hcovers,
      stringAt_relpath hpath hcovers⟩
  · push Not at hsome
    have hfind : (mounts.zipIdx.find? fun mp => mp.1.covers m path) = none := by
      rw [List.find?_eq_none]
      rintro ⟨mp, i⟩ hmem hcovers
      have hmem' : mp ∈ mounts := (List.mem_zipIdx hmem).2.2 ▸ List.getElem_mem _
      exact hsome mp hmem' ((covers_iff hpath (hnul mp hmem')).mp hcovers)
    rw [hfind]
    exact hsome

/-! The three calls are those of the model, and each of them goes through the mounts in the same
way. -/

section Calls

variable (fuel : ℕ) (mounts : List Mountpoint) (s : Files) (path buffer : Word) (size : BitVec 32)

theorem dispatchTr_fst_findMount :
    (dispatchTr s.mem path 0 mounts).1 =
      (findMount mounts s.mem path).map fun mp => ⟨mp.1, mp.2, mp.1.relpath s.mem path⟩ :=
  dispatchTr_fst s.mem path 0 mounts

theorem vfsFindNodeTr_eq :
    vfsFindNodeTr mounts s path =
      (vfsFindNode mounts s path, dispatchTr s.mem path 0 mounts) := by
  have htarget := dispatchTr_fst_findMount mounts s path
  unfold vfsFindNodeTr vfsFindNode
  generalize dispatchTr s.mem path 0 mounts = dispatch at htarget ⊢
  obtain ⟨target, reads⟩ := dispatch
  dsimp only at htarget
  subst htarget
  cases hfind : findMount mounts s.mem path with
  | none => rfl
  | some found =>
      cases hop : found.1.type.operations.lookup with
      | none => simp only [Option.map_some, hop]
      | some lookup => simp only [Option.map_some, hop]

theorem vfsWriteTr_eq (hne : path ≠ 0#64) :
    vfsWriteTr fuel mounts s path buffer size =
      (vfsWrite fuel mounts s path buffer size, dispatchTr s.mem path 0 mounts) := by
  have htarget := dispatchTr_fst_findMount mounts s path
  unfold vfsWriteTr vfsWrite
  rw [if_neg hne, if_neg hne]
  generalize dispatchTr s.mem path 0 mounts = dispatch at htarget ⊢
  obtain ⟨target, reads⟩ := dispatch
  dsimp only at htarget
  subst htarget
  cases hfind : findMount mounts s.mem path with
  | none => rfl
  | some found =>
      cases hop : found.1.type.operations.write with
      | none => simp only [Option.map_some, hop]
      | some write => simp only [Option.map_some, hop]

theorem vfsReadTr_eq :
    vfsReadTr fuel mounts s path buffer size =
      (vfsRead fuel mounts s path buffer size, dispatchTr s.mem path 0 mounts) := by
  have htarget := dispatchTr_fst_findMount mounts s path
  unfold vfsReadTr vfsRead
  generalize dispatchTr s.mem path 0 mounts = dispatch at htarget ⊢
  obtain ⟨target, reads⟩ := dispatch
  dsimp only at htarget
  subst htarget
  cases findMount mounts s.mem path with
  | none => rfl
  | some found => rfl

end Calls

/-- `vfs_find_node`, `vfs_write` and the first pass of `vfs_read` give a path to the same mount and
with the same remainder, and read the path up to its end only. -/
theorem dispatchers_agree (mounts : List Mountpoint) (s : Files) (path : Word) (p : List Byte)
    (hpath : StringAt s.mem path p) (hne : path ≠ 0#64)
    (hnul : ∀ mp ∈ mounts, 0#8 ∉ mp.mountpoint) :
    ∃ target reads, Selects mounts s.mem path p target ∧ (∀ i ∈ reads, i ≤ p.length) ∧
      vfsFindNodeTr mounts s path = (vfsFindNode mounts s path, target, reads) ∧
      ∀ fuel buffer size,
        vfsWriteTr fuel mounts s path buffer size =
            (vfsWrite fuel mounts s path buffer size, target, reads) ∧
          vfsReadTr fuel mounts s path buffer size =
            (vfsRead fuel mounts s path buffer size, target, reads) :=
  ⟨_, _, dispatchTr_selects hpath hnul, dispatchTr_le hpath hnul 0, vfsFindNodeTr_eq mounts s path,
    fun fuel buffer size => ⟨vfsWriteTr_eq fuel mounts s path buffer size hne,
      vfsReadTr_eq fuel mounts s path buffer size⟩⟩

theorem dispatchers_agree_nestedMounts :
    ∃ t reads, Selects nestedMounts nestedFiles.mem 0x2000#64 nestedPath (some t) ∧
      (∀ i ∈ reads, i ≤ 10) ∧
      vfsFindNodeTr nestedMounts nestedFiles 0x2000#64 =
        (vfsFindNode nestedMounts nestedFiles 0x2000#64, some t, reads) := by
  obtain ⟨target, reads, hselects, hreads, hfind, -⟩ := dispatchers_agree nestedMounts nestedFiles
    0x2000#64 nestedPath stringAt_nestedPath (by decide) (by decide)
  cases target with
  | none =>
      have hnone : ∀ mp ∈ nestedMounts, ¬ Covers mp.mountpoint nestedPath := hselects
      exact absurd hnone (by decide)
  | some t => exact ⟨t, reads, hselects, hreads, hfind⟩

end Osiris.Vfs
