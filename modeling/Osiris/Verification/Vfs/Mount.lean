import Osiris.Verification.Heap.Canonical
import Osiris.Verification.Vfs.MountList

/-! # `vfs_mount` and `vfs_umount`

A mount that is not possible should leave no trace, and `vfs_umount` should take back what
`vfs_mount` did. -/

namespace Osiris.Vfs

open ByteMemory Strings Heap Blocks LinkedList Tar

/-- The text is the name of a file system that can be mounted. -/
def Supported (type : List Byte) : Prop :=
  type = FsType.ustar.name ∨ type = FsType.devfs.name

instance (type : List Byte) : Decidable (Supported type) :=
  inferInstanceAs (Decidable (_ ∨ _))

section Mount

variable {s : MountTable} {live free : List Block} {mounts : List MountNode} {b : Block}
  {fuel : ℕ} {device target fsType : Word}
  {deviceText targetText typeText : List Byte}

/-- A prepared node is given its operations and put into the list. -/
theorem Prepared.mount (hn : Prepared s live free mounts ⟨b, deviceText, targetText, typeText⟩)
    (hfuel : 65536 < fuel) (ops : Word) :
    ∃ s', vfsAddMountpoint fuel { s with mem := copyUp s.mem (payload b + 160#64) ops 40 }
        (payload b) = .ok (payload b, s') ∧
      MountInv s' live free (mounts ++ [⟨b, deviceText, targetText, typeText⟩]) ∧
      ∀ x, ¬ InRange (payload b) 208 x → (∀ p ∈ mounts, ¬ InRange (p.ptr + 200#64) 8 x) →
        s'.mem x = s.mem x := by
  obtain ⟨hn', hout⟩ := hn.setOperations ops
  obtain ⟨s', hok, hinv, hframe⟩ := vfsAddMountpoint_spec hn' hfuel
  exact ⟨s', hok, hinv, fun x hx hlinks => (hframe x hlinks).trans (hout x hx)⟩

/-- `vfs_mount` does nothing without room for a node. Otherwise it fills a node in, which is put
into the list only for a file system that it knows. -/
theorem vfsMount_sized (opsAddr : FsType → Word) (hinv : MountInv s live free mounts)
    (hfuel : 65536 < fuel)
    (hfits : Fits deviceText targetText typeText)
    (hdevice : CallerString live mounts s.mem device deviceText)
    (htarget : CallerString live mounts s.mem target targetText)
    (htype : CallerString live mounts s.mem fsType typeText) :
    (¬ ∃ a, HeapGap live ⟨a, 224⟩) ∧ vfsMount opsAddr fuel s device target fsType = .ok s ∨
      (∃ a, HeapGap live ⟨a, 224⟩) ∧ ∃ b free' s', b.size = 224 ∧
        vfsMount opsAddr fuel s device target fsType = .ok s' ∧
        MountInv s' (b :: live) free'
          (if Supported typeText then mounts ++ [⟨b, deviceText, targetText, typeText⟩]
            else mounts) ∧
        ∀ x, Client live x → (∀ p ∈ mounts, ¬ InRange (p.ptr + 200#64) 8 x) →
          s'.mem x = s.mem x := by
  unfold vfsMount
  rcases vfsCreateMountpoint_sized hinv hfuel hfits hdevice htarget htype with
    ⟨hfull, hcreate⟩ | ⟨hgap, b, free', s', hsize, hcreate, hn, hframe⟩
  · left
    refine ⟨hfull, ?_⟩
    rw [hcreate]
    rfl
  · right
    refine ⟨hgap, b, free', ?_⟩
    have htype' := htype.string.congr fun x hx => hframe x (htype.client x hx)
    have hname : ∀ t : FsType, kstrcmp s'.mem fsType t.name = 0 ↔ t.name = typeText := fun t =>
      kstrcmp_eq_zero_iff htype' (by cases t <;> decide)
    have hout : ∀ x, Client live x → ¬ InRange (payload b) 208 x := fun x hx hin =>
      hn.inv.heap.not_new_of_client hx (hn.housed.inPayload hn.inv.heap hin).contains
    have hptr : payload b ≠ 0#64 := hn.housed.ptr_ne_zero hn.inv.heap
    rw [hcreate]
    dsimp only [Bind.bind, Except.bind]
    rw [if_neg hptr]
    have hmounted : ∀ t : FsType, t.name = typeText → ∃ s'',
        vfsAddMountpoint fuel { s' with mem := copyUp s'.mem (payload b + 160#64) (opsAddr t) 40 }
          (payload b) = .ok (payload b, s'') ∧
        MountInv s'' (b :: live) free'
          (if Supported typeText then mounts ++ [⟨b, deviceText, targetText, typeText⟩]
            else mounts) ∧
        ∀ x, Client live x → (∀ p ∈ mounts, ¬ InRange (p.ptr + 200#64) 8 x) →
          s''.mem x = s.mem x := by
      intro t ht
      have hsupported : Supported typeText := by
        cases t with
        | ustar => exact Or.inl ht.symm
        | devfs => exact Or.inr ht.symm
      obtain ⟨s'', hadd, hinv', hframe'⟩ := hn.mount hfuel (opsAddr t)
      rw [if_pos hsupported]
      exact ⟨s'', hadd, hinv', fun x hx hlinks =>
        (hframe' x (hout x hx) hlinks).trans (hframe x hx)⟩
    by_cases hustar : FsType.ustar.name = typeText
    · obtain ⟨s'', hadd, hinv', hframe'⟩ := hmounted .ustar hustar
      rw [if_pos ((hname .ustar).mpr hustar), hadd]
      exact ⟨s'', hsize, rfl, hinv', hframe'⟩
    · rw [if_neg (mt (hname .ustar).mp hustar)]
      by_cases hdevfs : FsType.devfs.name = typeText
      · obtain ⟨s'', hadd, hinv', hframe'⟩ := hmounted .devfs hdevfs
        rw [if_pos ((hname .devfs).mpr hdevfs), hadd]
        exact ⟨s'', hsize, rfl, hinv', hframe'⟩
      · have hnot : ¬ Supported typeText := not_or.mpr ⟨Ne.symm hustar, Ne.symm hdevfs⟩
        rw [if_neg (mt (hname .devfs).mp hdevfs), if_neg hnot]
        exact ⟨s', hsize, rfl, hn.inv, fun x hx _ => hframe x hx⟩

theorem vfsMount_spec (opsAddr : FsType → Word) (hinv : MountInv s live free mounts)
    (hfuel : 65536 < fuel)
    (hfits : Fits deviceText targetText typeText)
    (hdevice : CallerString live mounts s.mem device deviceText)
    (htarget : CallerString live mounts s.mem target targetText)
    (htype : CallerString live mounts s.mem fsType typeText) :
    (¬ ∃ a, HeapGap live ⟨a, 224⟩) ∧ vfsMount opsAddr fuel s device target fsType = .ok s ∨
      (∃ a, HeapGap live ⟨a, 224⟩) ∧ ∃ b free' s',
        vfsMount opsAddr fuel s device target fsType = .ok s' ∧
        MountInv s' (b :: live) free'
          (if Supported typeText then mounts ++ [⟨b, deviceText, targetText, typeText⟩]
            else mounts) ∧
        ∀ x, Client live x → (∀ p ∈ mounts, ¬ InRange (p.ptr + 200#64) 8 x) →
          s'.mem x = s.mem x :=
  (vfsMount_sized opsAddr hinv hfuel hfits hdevice htarget htype).imp_right
    fun ⟨hgap, b, free', s', _, h⟩ => ⟨hgap, b, free', s', h⟩

end Mount

/-! ## Mounts that are not possible -/

/-- There is no memory for the node, or the file system is not known. -/
def CannotMount (fuel : ℕ) (s : MountTable) (type : List Byte) : Prop :=
  (∃ h, kmalloc fuel s.toKernelHeap 208#64 = .ok (0#64, h)) ∨ ¬ Supported type

/-- The list, the free list and the live blocks are what they were, and so is all memory that is
not free. -/
structure Unchanged (s s' : MountTable) (live free : List Block) (mounts : List MountNode) :
    Prop where
  inv : MountInv s' live free mounts
  root : s'.mountpointsRoot = s.mountpointsRoot
  mem : ∀ x, Client live x → s'.mem x = s.mem x

theorem MountInv.unchanged {s : MountTable} {live free : List Block} {mounts : List MountNode}
    (hinv : MountInv s live free mounts) : Unchanged s s live free mounts :=
  ⟨hinv, rfl, fun _ _ => rfl⟩

/-- With room for the node, `kmalloc` does not fail. -/
theorem MountInv.kmalloc_ne_null {s : MountTable} {live free : List Block}
    {mounts : List MountNode} {fuel : ℕ} (hinv : MountInv s live free mounts)
    (hfuel : 65536 < fuel) (hgap : ∃ a, HeapGap live ⟨a, 224⟩) (h : KernelHeap) :
    kmalloc fuel s.toKernelHeap 208#64 ≠ .ok (0#64, h) := by
  have hneed : need 208#64 = 224 := by decide
  have hpos : (208#64 : Word) ≠ 0#64 := by decide
  rcases hinv.heap.kmalloc_of_gap hfuel hpos (by decide) with
    ⟨hfull, -⟩ | ⟨-, g, free', h', -, hok, hheap, -⟩
  · exact absurd (hneed ▸ hgap) hfull
  · intro hnull
    rw [hok, Except.ok.injEq, Prod.mk.injEq, ← ofNat_add_eight] at hnull
    exact (hheap.placed_live List.mem_cons_self).payload_ne_zero hnull.1

/-- `vfs_mount` has no effect whenever it adds no mount exactly when it knows the file system or
the heap has no room for the node. Otherwise the node stays live and is in no list. -/
theorem failed_mount_unchanged_iff (opsAddr : FsType → Word) (fuel : ℕ) (hfuel : 65536 < fuel)
    (s : MountTable) (live free : List Block) (mounts : List MountNode)
    (hinv : MountInv s live free mounts) (device target fsType : Word)
    (deviceText targetText typeText : List Byte) (hfits : Fits deviceText targetText typeText)
    (hdevice : CallerString live mounts s.mem device deviceText)
    (htarget : CallerString live mounts s.mem target targetText)
    (htype : CallerString live mounts s.mem fsType typeText) :
    ∃ s', vfsMount opsAddr fuel s device target fsType = .ok s' ∧
      ((CannotMount fuel s typeText → Unchanged s s' live free mounts) ↔
        Supported typeText ∨ ¬ ∃ a, HeapGap live ⟨a, 224⟩) ∧
      (¬ (Supported typeText ∨ ¬ ∃ a, HeapGap live ⟨a, 224⟩) →
        ∃ b free', b ∉ live ∧ MountInv s' (b :: live) free' mounts) := by
  rcases vfsMount_spec opsAddr hinv hfuel hfits hdevice htarget htype with
    ⟨hfull, hok⟩ | ⟨hgap, b, free', s', hok, hinv', -⟩
  · exact ⟨s, hok, iff_of_true (fun _ => hinv.unchanged) (Or.inr hfull),
      fun hnot => absurd (Or.inr hfull) hnot⟩
  · refine ⟨s', hok, ?_⟩
    by_cases hsupported : Supported typeText
    · refine ⟨iff_of_true ?_ (Or.inl hsupported), fun hnot => absurd (Or.inl hsupported) hnot⟩
      rintro (⟨h, hnull⟩ | hnot)
      · exact absurd hnull (hinv.kmalloc_ne_null hfuel hgap h)
      · exact absurd hsupported hnot
    · rw [if_neg hsupported] at hinv'
      refine ⟨iff_of_false (fun hunchanged => ?_) (not_or.mpr ⟨hsupported, not_not.mpr hgap⟩),
        fun _ => ⟨b, free', hinv'.heap.not_mem_rest, hinv'⟩⟩
      exact (hunchanged (Or.inr hsupported)).inv.heap.not_cons hinv'.heap

/-- The strings `initrd`, `/`, `ustar` and `ext2`, below the heap. -/
def bootStrings : Page.Machine :=
  { oneBlockHeap.toMachine with
    mem := store64 (store64 (store64 (store64 (fun _ => 0#8) 0x2000#64 0x647274696E69#64) 0x2008#64
      0x2F#64) 0x2010#64 0x7261747375#64) 0x2018#64 0x32747865#64 }

def initrdText : List Byte := [0x69#8, 0x6E#8, 0x69#8, 0x74#8, 0x72#8, 0x64#8]

def rootText : List Byte := [0x2F#8]

def ext2Text : List Byte := [0x65#8, 0x78#8, 0x74#8, 0x32#8]

/-- The heap after `heap_init`, and no mounts. -/
def noMounts : MountTable where
  toKernelHeap := freshHeap bootStrings
  mountpointsRoot := 0#64

theorem noMounts_inv : MountInv noMounts [] [wholeHeap] [] :=
  ⟨freshHeap_inv bootStrings, rfl, List.nodup_nil, by simp, by simp⟩

theorem noMounts_gap : ∃ a, HeapGap [] ⟨a, 224⟩ :=
  (noMounts_inv.heap.exists_heapGap_iff (by norm_num)).mpr ⟨wholeHeap, by simp, by decide⟩

theorem callerString_low {m : Mem} {a : ℕ} {text : List Byte} (hpos : 0 < a)
    (hlow : a + text.length < 0x10000) (hstring : StringAt m (BitVec.ofNat 64 a) text) :
    CallerString [] [] m (BitVec.ofNat 64 a) text := by
  refine ⟨fun hzero => ?_, hstring, fun x hx => Or.inr ?_, by simp⟩
  · have hnat := congrArg BitVec.toNat hzero
    rw [BitVec.toNat_ofNat, Nat.mod_eq_of_lt (by omega)] at hnat
    exact hpos.ne' hnat
  · rw [inRange_ofNat (by omega)] at hx
    rw [toNat_kernelHeapStart]
    omega

theorem noMounts_initrd : CallerString [] [] noMounts.mem 0x2000#64 initrdText :=
  callerString_low (by norm_num) (by decide) (by decide +kernel)

theorem noMounts_root : CallerString [] [] noMounts.mem 0x2008#64 rootText :=
  callerString_low (by norm_num) (by decide) (by decide +kernel)

theorem noMounts_ustar : CallerString [] [] noMounts.mem 0x2010#64 FsType.ustar.name :=
  callerString_low (by norm_num) (by decide) (by decide +kernel)

theorem noMounts_ext2 : CallerString [] [] noMounts.mem 0x2018#64 ext2Text :=
  callerString_low (by norm_num) (by decide) (by decide +kernel)

theorem failed_mount_unchanged_noMounts :
    ∃ s', vfsMount (fun _ => 0x3000#64) 65537 noMounts 0x2000#64 0x2008#64 0x2010#64 = .ok s' ∧
      (CannotMount 65537 noMounts FsType.ustar.name →
        Unchanged noMounts s' [] [wholeHeap] []) := by
  obtain ⟨s', hok, hiff, -⟩ := failed_mount_unchanged_iff (fun _ => 0x3000#64) 65537 (by norm_num)
    noMounts [] [wholeHeap] [] noMounts_inv 0x2000#64 0x2008#64 0x2010#64 initrdText rootText
    FsType.ustar.name (by constructor <;> decide) noMounts_initrd noMounts_root noMounts_ustar
  exact ⟨s', hok, hiff.mpr (Or.inl (by decide))⟩

/-- Mounting `ext2` on an empty heap leaves a live block that no list leads to. -/
theorem unsupported_mount_leaks :
    ∃ s' b free', vfsMount (fun _ => 0x3000#64) 65537 noMounts 0x2000#64 0x2008#64 0x2018#64 =
        .ok s' ∧
      CannotMount 65537 noMounts ext2Text ∧ ¬ Unchanged noMounts s' [] [wholeHeap] [] ∧
      s'.mountpointsRoot = 0#64 ∧ HeapInv s'.toKernelHeap [b] free' := by
  have hnot : ¬ Supported ext2Text := by decide
  have hfits : Fits initrdText rootText ext2Text := by constructor <;> decide
  rcases vfsMount_spec (fun _ => 0x3000#64) noMounts_inv (show 65536 < 65537 by norm_num) hfits
    noMounts_initrd noMounts_root noMounts_ext2 with
    ⟨hfull, -⟩ | ⟨-, b, free', s', hok, hinv', -⟩
  · exact absurd noMounts_gap hfull
  · rw [if_neg hnot] at hinv'
    exact ⟨s', b, free', hok, Or.inr hnot,
      fun hunchanged => hunchanged.inv.heap.not_cons hinv'.heap, hinv'.chain, hinv'.heap⟩

/-! ## `vfs_umount` -/

/-- An argument that may be `NULL`. -/
def Argument (m : Mem) (p : Word) : Option (List Byte) → Prop
  | none => p = 0#64
  | some text => p ≠ 0#64 ∧ StringAt m p text

/-- The mount is of the device or on the target. -/
def MountNode.Matches (n : MountNode) (device target : Option (List Byte)) : Prop :=
  device = some n.device ∨ target = some n.mountpoint

instance (n : MountNode) (device target : Option (List Byte)) :
    Decidable (n.Matches device target) :=
  inferInstanceAs (Decidable (_ ∨ _))

section Umount

variable {s : MountTable} {live free : List Block} {mounts rest : List MountNode} {n : MountNode}
  {fuel k : ℕ} {m : Mem} {field arg cur device target : Word} {text : List Byte}
  {given dev tgt : Option (List Byte)}

theorem matchesArg_eq (hfield : StringAt m field text) (hfuel : text.length < fuel)
    (harg : Argument m arg given) :
    matchesArg fuel m field arg = .ok (decide (given = some text)) := by
  unfold matchesArg
  cases given with
  | none =>
      obtain rfl : arg = 0#64 := harg
      rfl
  | some other =>
      obtain ⟨hne, hother⟩ := harg
      obtain ⟨order, hok, hiff⟩ := kstrcmpAt_spec hfield hother hfuel
      rw [if_neg hne, hok]
      dsimp only [Bind.bind, Except.bind]
      simp only [hiff, Option.some.injEq, eq_comm]

/-- The search ends at the first mount that matches. -/
theorem vfsUmountLoop_eq (hchain : Chain s.mem 200#64 cur (rest.map MountNode.ptr) 0#64)
    (hnodes : ∀ n ∈ rest, NodeAt s.mem n) (hdev : Argument s.mem device dev)
    (htgt : Argument s.mem target tgt) (hfuel : 65536 < fuel) (hk : rest.length < k) :
    vfsUmountLoop fuel s device target k cur =
      match rest.find? fun n => n.Matches dev tgt with
      | none => .ok s
      | some n => vfsRemoveMountpoint fuel s n.ptr := by
  induction rest generalizing cur k with
  | nil =>
      obtain ⟨k, rfl⟩ := Nat.exists_eq_succ_of_ne_zero hk.ne'
      obtain rfl : cur = 0#64 := hchain
      rfl
  | cons n rest ih =>
      obtain ⟨k, rfl⟩ := Nat.exists_eq_succ_of_ne_zero (Nat.ne_of_gt (Nat.zero_lt_of_lt hk))
      obtain ⟨rfl, hne, hrest⟩ := chain_cons.mp hchain
      have hnode := hnodes n List.mem_cons_self
      obtain ⟨hdevice, hmountpoint, -⟩ := hnode.fits
      unfold vfsPathLength at hdevice hmountpoint
      have hless : rest.length < k := by
        rw [List.length_cons] at hk
        omega
      rw [vfsUmountLoop, if_neg hne, matchesArg_eq hnode.device (by omega) hdev,
        matchesArg_eq hnode.mountpoint (by omega) htgt, List.find?_cons]
      dsimp only [Bind.bind, Except.bind]
      rw [← Bool.decide_or]
      by_cases hmatch : n.Matches dev tgt
      · have hor : dev = some n.device ∨ tgt = some n.mountpoint := hmatch
        rw [decide_eq_true hor, decide_eq_true hmatch]
        rfl
      · have hor : ¬ (dev = some n.device ∨ tgt = some n.mountpoint) := hmatch
        rw [decide_eq_false hor, decide_eq_false hmatch]
        exact ih hrest (fun p hp => hnodes p (List.mem_cons_of_mem n hp)) hless

theorem vfsUmount_eq (hinv : MountInv s live free mounts) (hfuel : 65536 < fuel)
    (hdev : Argument s.mem device dev) (htgt : Argument s.mem target tgt) :
    vfsUmount fuel s device target =
      match mounts.find? fun n => n.Matches dev tgt with
      | none => .ok s
      | some n => vfsRemoveMountpoint fuel s n.ptr :=
  vfsUmountLoop_eq hinv.chain hinv.nodes hdev htgt hfuel (lt_of_le_of_lt hinv.length_le hfuel)

/-- No mount is removed, or the first one that matches. -/
theorem vfsUmount_spec (hinv : MountInv s live free mounts) (hfuel : 65536 < fuel)
    (hdev : Argument s.mem device dev) (htgt : Argument s.mem target tgt) :
    (∀ n ∈ mounts, ¬ n.Matches dev tgt) ∧ vfsUmount fuel s device target = .ok s ∨
      ∃ before n after s', mounts = before ++ n :: after ∧ n.Matches dev tgt ∧
        (∀ p ∈ before, ¬ p.Matches dev tgt) ∧ vfsUmount fuel s device target = .ok s' ∧
        MountInv s' (live.erase n.block) (release n.block free) (before ++ after) ∧
        ∀ x, Client (live.erase n.block) x →
          (∀ p ∈ before ++ after, ¬ InRange (p.ptr + 200#64) 8 x) → s'.mem x = s.mem x := by
  have humount := vfsUmount_eq hinv hfuel hdev htgt
  cases hfind : mounts.find? fun n => n.Matches dev tgt with
  | none =>
      rw [hfind] at humount
      refine Or.inl ⟨fun n hn => ?_, humount⟩
      simpa using List.find?_eq_none.mp hfind n hn
  | some n =>
      rw [hfind] at humount
      obtain ⟨hmatch, before, after, rfl, hfirst⟩ := List.find?_eq_some_iff_append.mp hfind
      obtain ⟨s', hok, hinv', hframe⟩ := vfsRemoveMountpoint_spec hinv hfuel
      exact Or.inr ⟨before, n, after, s', rfl, of_decide_eq_true hmatch,
        fun p hp => by simpa using hfirst p hp, humount.trans hok, hinv', hframe⟩

/-- A list with the same nodes and the same memory around them has the same links. -/
theorem Unchanged.of_links {s' : MountTable} (hinv : MountInv s live free mounts)
    (hinv' : MountInv s' live free mounts)
    (hsame : ∀ x, Client live x → (∀ p ∈ mounts, ¬ InRange (p.ptr + 200#64) 8 x) →
      s'.mem x = s.mem x) : Unchanged s s' live free mounts := by
  obtain ⟨hroot, hlinks⟩ := hinv.chain.links_eq hinv'.chain
  refine ⟨hinv', hroot, fun x hx => ?_⟩
  by_cases hlink : ∃ p ∈ mounts, InRange (p.ptr + 200#64) 8 x
  · obtain ⟨p, hp, hin⟩ := hlink
    exact eq_of_load64_eq (hlinks p.ptr (List.mem_map_of_mem hp)) hin
  · push Not at hlink
    exact hsame x hx hlink

end Umount

/-- `vfs_umount` of a target on which nothing was mounted before takes back what `vfs_mount` did.
On any list it removes the first mount that matches and no other. -/
theorem umount_undoes_mount (opsAddr : FsType → Word) (fuel : ℕ) (hfuel : 65536 < fuel)
    (s : MountTable) (live free : List Block) (mounts : List MountNode)
    (hinv : MountInv s live free mounts) :
    (∀ device target fsType deviceText targetText typeText,
      Fits deviceText targetText typeText →
      CallerString live mounts s.mem device deviceText →
      CallerString live mounts s.mem target targetText →
      CallerString live mounts s.mem fsType typeText → Supported typeText →
      (∀ n ∈ mounts, n.mountpoint ≠ targetText) →
      ∃ s₁, vfsMount opsAddr fuel s device target fsType = .ok s₁ ∧
        ((¬ ∃ a, HeapGap live ⟨a, 224⟩) ∧ s₁ = s ∨
          ∃ b free₁, MountInv s₁ (b :: live) free₁
              (mounts ++ [⟨b, deviceText, targetText, typeText⟩]) ∧
            ∃ s₂, vfsUmount fuel s₁ 0#64 target = .ok s₂ ∧ Unchanged s s₂ live free mounts)) ∧
    ∀ device target dev tgt, Argument s.mem device dev → Argument s.mem target tgt →
      ∃ s', vfsUmount fuel s device target = .ok s' ∧
        ((∀ n ∈ mounts, ¬ n.Matches dev tgt) ∧ s' = s ∨
          ∃ before n after free', mounts = before ++ n :: after ∧ n.Matches dev tgt ∧
            (∀ p ∈ before, ¬ p.Matches dev tgt) ∧
            MountInv s' (live.erase n.block) free' (before ++ after)) := by
  refine ⟨fun device target fsType deviceText targetText typeText hfits hdevice htarget htype
    hsupported hnew => ?_, fun device target dev tgt hdev htgt => ?_⟩
  · rcases vfsMount_spec opsAddr hinv hfuel hfits hdevice htarget htype with
      ⟨hfull, hok⟩ | ⟨-, b, free₁, s₁, hok, hinv₁, hframe₁⟩
    · exact ⟨s, hok, Or.inl ⟨hfull, rfl⟩⟩
    · rw [if_pos hsupported] at hinv₁
      refine ⟨s₁, hok, Or.inr ⟨b, free₁, hinv₁, ?_⟩⟩
      have htgt : Argument s₁.mem target (some targetText) :=
        ⟨htarget.ne_null, htarget.string.congr fun x hx =>
          hframe₁ x (htarget.client x hx) (htarget.link x hx)⟩
      have hnone : mounts.find? (fun n => n.Matches none (some targetText)) = none := by
        rw [List.find?_eq_none]
        intro n hn hmatch
        rcases of_decide_eq_true hmatch with hdev | htgt
        · cases hdev
        · exact hnew n hn (Option.some.inj htgt).symm
      have hnull : Argument s₁.mem 0#64 none := rfl
      have humount := vfsUmount_eq hinv₁ hfuel hnull htgt
      rw [List.find?_append, hnone, Option.none_or, List.find?_cons_of_pos (by
        exact decide_eq_true (Or.inr rfl))] at humount
      obtain ⟨s₂, hremove, hinv₂, hframe₂⟩ := vfsRemoveMountpoint_spec hinv₁ hfuel
      rw [List.erase_cons_head, List.append_nil] at hinv₂ hframe₂
      rw [← hinv.heap.free_unique hinv₂.heap (List.Perm.refl live)] at hinv₂
      refine ⟨s₂, humount.trans hremove, .of_links hinv hinv₂ fun x hx hlinks => ?_⟩
      exact (hframe₂ x hx hlinks).trans (hframe₁ x hx hlinks)
  · rcases vfsUmount_spec hinv hfuel hdev htgt with ⟨hnone, hok⟩ |
      ⟨before, n, after, s', heq, hmatch, hfirst, hok, hinv', -⟩
    · exact ⟨s, hok, Or.inl ⟨hnone, rfl⟩⟩
    · exact ⟨s', hok, Or.inr ⟨before, n, after, _, heq, hmatch, hfirst, hinv'⟩⟩

theorem umount_undoes_mount_noMounts :
    ∃ s₁ s₂, vfsMount (fun _ => 0x3000#64) 65537 noMounts 0x2000#64 0x2008#64 0x2010#64 = .ok s₁ ∧
      s₁.mountpointsRoot ≠ 0#64 ∧ vfsUmount 65537 s₁ 0#64 0x2008#64 = .ok s₂ ∧
      Unchanged noMounts s₂ [] [wholeHeap] [] := by
  obtain ⟨hmount, -⟩ := umount_undoes_mount (fun _ => 0x3000#64) 65537 (by norm_num) noMounts []
    [wholeHeap] [] noMounts_inv
  obtain ⟨s₁, hok, hcases⟩ := hmount 0x2000#64 0x2008#64 0x2010#64 initrdText rootText
    FsType.ustar.name (by constructor <;> decide) noMounts_initrd noMounts_root noMounts_ustar
    (by decide) (by simp)
  rcases hcases with ⟨hfull, -⟩ | ⟨b, free₁, hinv₁, s₂, humount, hunchanged⟩
  · exact absurd noMounts_gap hfull
  · refine ⟨s₁, s₂, hok, fun hzero => ?_, humount, hunchanged⟩
    simpa using hinv₁.chain.head_eq_zero_iff.mp hzero

end Osiris.Vfs
