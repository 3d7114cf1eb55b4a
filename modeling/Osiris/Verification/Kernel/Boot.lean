import Osiris.Verification.Heap.Spared
import Osiris.Verification.Kernel.Users
import Osiris.Verification.Vmm.BootSpace

/-! # The kernel after initialisation

`x64_main` sets the five users up, from an empty heap. -/

/-! ## The archive -/

namespace Osiris.Tar

open ByteMemory LinkedList

section Archive

variable {m m' : Mem} {hdr : Word} {members : List Member} {f : Member}

theorem Member.length_le_span (f : Member) : 512 + f.contents.length ≤ f.span := by
  unfold Member.span padded
  omega

theorem MemberAt.congr (h : MemberAt m hdr f)
    (hsame : ∀ x, InRange hdr f.span x → m' x = m x) : MemberAt m' hdr f := by
  have hspan := f.length_le_span
  have hlt := f.span_lt
  have hname := f.name_le
  have hin : ∀ k n, k + n ≤ 512 + f.contents.length → ∀ x, InRange (hdr + BitVec.ofNat 64 k) n x →
      m' x = m x := fun k n hle x hx => hsame x (inRange_field hx (by omega) (by omega))
  refine ⟨h.name.congr fun x hx => hsame x (inRange_mono hx (by omega)), ?_, ?_, ?_⟩
  · rw [← h.size]
    exact field_congr (hin 124 12 (by omega)) (by norm_num)
  · rw [← h.typeflag]
    exact hin 156 1 (by omega) _ (by simp [InRange])
  · exact (field_congr (hin 512 _ (by omega)) (by omega)).trans h.contents

theorem ArchiveAt.congr (h : ArchiveAt m hdr members) (hlength : archiveLength members < 2 ^ 64)
    (hsame : ∀ x, InRange hdr (archiveLength members + 1) x → m' x = m x) :
    ArchiveAt m' hdr members := by
  induction members generalizing hdr with
  | nil => exact (hsame hdr (by simp [InRange])).trans h
  | cons f rest ih =>
      rw [archiveLength_cons] at hlength hsame
      exact ⟨h.1.congr fun x hx => hsame x (inRange_mono hx (by omega)),
        ih h.2 (by omega) fun x hx => hsame x (inRange_field hx (by omega) (by omega))⟩

end Archive

end Osiris.Tar

namespace Osiris.Kernel

open ByteMemory Blocks LinkedList Strings Page Heap Vfs Devfs Tar Sched Ownership Transition

/-- The literals that initialisation uses. -/
def literals : List String :=
  ["initrd", "/", "ustar", "devfs", "/dev", "kbd", "console", "random"]

def Image.Loaded (image : Image) (m : Mem) : Prop :=
  ∀ text ∈ literals, Literal m (image.string (chars text)) (chars text)

theorem Image.Loaded.congr {image : Image} {m m' : Mem} (h : image.Loaded m)
    (hsame : ∀ text ∈ literals, ∀ x,
      InRange (image.string (chars text)) ((chars text).length + 1) x → Outside x → m' x = m x) :
    image.Loaded m' := by
  intro text htext
  have hliteral := h text htext
  exact ⟨hliteral.ne_null,
    hliteral.string.congr fun x hx => hsame text htext x hx (hliteral.outside x hx),
    hliteral.outside⟩

/-- The table of files is not touched, and neither is memory that is not the heap's. -/
structure Spares (k k' : State) : Prop where
  tar : k'.tar = k.tar
  mem : ∀ x, Outside x → k'.mem x = k.mem x

theorem Spares.trans {k₁ k₂ k₃ : State} (h₁ : Spares k₁ k₂) (h₂ : Spares k₂ k₃) : Spares k₁ k₃ :=
  ⟨h₂.tar.trans h₁.tar, fun x hx => (h₂.mem x hx).trans (h₁.mem x hx)⟩

theorem Spares.loaded {image : Image} {k k' : State} (h : Spares k k')
    (himage : image.Loaded k.mem) : image.Loaded k'.mem :=
  himage.congr fun _ _ x _ hx => h.mem x hx

/-- Blocks are few and small for as long as the kernel is being set up. -/
structure Few (live : List Block) (n : ℕ) : Prop where
  count : live.length = n
  small : ∀ b ∈ live, b.size ≤ 4112

theorem Few.cons {live : List Block} {n : ℕ} {b : Block} (h : Few live n) (hb : b.size ≤ 4112) :
    Few (b :: live) (n + 1) :=
  ⟨congrArg (· + 1) h.count, List.forall_mem_cons.mpr ⟨hb, h.small⟩⟩

section Steps

variable (opsAddr : FsType → Word) {fuel n : ℕ} {image : Image} {disk : List Member} {k : State}
  {held : List Word} {o : Owned}

end Steps

/-- Only the keyboard has a block. -/
def Owned.start (buffer : Block) : Owned where
  live := [buffer]
  mounts := []
  devices := []
  files := []
  procs := []
  buffer := buffer
  added := []
  returned := []

/-- The list of devices after `devfs_init`. -/
def Image.devices (image : Image) : List Registration :=
  [⟨image.string (chars "random"), chars "random", image.randomOps, 0#64⟩,
    ⟨image.string (chars "console"), chars "console", image.liminefbOps, 0#64⟩,
    ⟨image.string (chars "kbd"), chars "kbd", image.kbdOps, image.keyBuffer⟩]

/-- The blocks that somebody will give back, or is going to use for ever. -/
def Owned.blocks (o : Owned) : List Block :=
  o.mounts.map MountNode.block ++ (o.devices.map Device.block ++ (o.files.map OpenFile.block ++
    (o.procs.map NewProc.block ++ [o.buffer])))

end Osiris.Kernel
