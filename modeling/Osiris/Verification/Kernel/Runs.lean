import Osiris.Verification.Heap.DirectMap
import Osiris.Verification.Kernel.Boot

/-! # Runs of the kernel from boot

Mounts, devices, files, processes and the keyboard share a heap, and are called in any order. -/

namespace Osiris.Kernel

open ByteMemory Blocks Page Heap Vfs Devfs Tar Ownership Transition

/-! ## One file -/

/-- The bytes that a request asks for through the handle `p`. -/
def Request.asks (p : Word) : Request → ℕ
  | .read handle size => if handle = p then size else 0
  | _ => 0

def asked (p : Word) (labels : List (Request × Response)) : ℕ :=
  (labels.map fun label => label.1.asks p).sum

/-- The bytes that the reads through `p` have put into the buffers of their callers. -/
def delivered (p : Word) : List (Request × Response) → List Byte
  | [] => []
  | (.read handle _, response) :: labels =>
      if handle = p then response.bytes ++ delivered p labels else delivered p labels
  | _ :: labels => delivered p labels

theorem OpenFile.drop_advance (f : OpenFile) (size : ℕ) :
    (f.advance size).file.contents.drop (f.advance size).offset =
      (f.file.contents.drop f.offset).drop size := by
  unfold OpenFile.advance OpenFile.next
  rw [← List.drop_drop, List.length_take]
  rcases Nat.le_total size (f.file.contents.drop f.offset).length with hle | hge
  · rw [Nat.min_eq_left hle]
  · rw [Nat.min_eq_right hge, List.drop_length, List.drop_of_length_le hge]

section Files

variable {disk : List Member} {o o' : Owned} {req : Request} {response : Response} {f : OpenFile}

theorem mem_rest {before after : List OpenFile} {g : OpenFile} (hf : f ∈ before ++ g :: after)
    (hne : f ≠ g) : f ∈ before ++ after := by
  rcases List.mem_append.mp hf with hf | hf
  · exact List.mem_append_left _ hf
  · exact List.mem_append_right _ ((List.mem_cons.mp hf).resolve_left hne)

/-- A file that stays open is read on, or left alone. -/
theorem Acts.file (h : Acts disk o (req, response) o') (hf : f ∈ o.files)
    (huniq : ∀ g ∈ o.files, payload g.block = payload f.block → g = f)
    (hopen : req ≠ .close (payload f.block)) :
    (∃ size, req = .read (payload f.block) size ∧ response.bytes = f.next size ∧
      f.advance size ∈ o'.files) ∨
    (∀ size, req ≠ .read (payload f.block) size) ∧ f ∈ o'.files := by
  cases h with
  | @read before g after size hfiles =>
      by_cases heq : payload g.block = payload f.block
      · obtain rfl : g = f := huniq g (by rw [hfiles]; simp) heq
        exact .inl ⟨size, rfl, rfl, by simp⟩
      · refine .inr ⟨fun _ hreq => heq (Request.read.inj hreq).1, ?_⟩
        have hne : f ≠ g := by
          rintro rfl
          exact heq rfl
        rw [hfiles] at hf
        exact List.mem_append.mpr ((List.mem_append.mp (mem_rest hf hne)).imp_right
          (List.mem_cons_of_mem _))
  | @close before g after hfiles =>
      refine .inr ⟨by simp, ?_⟩
      have hne : f ≠ g := by
        rintro rfl
        exact hopen rfl
      rw [hfiles] at hf
      exact mem_rest hf hne
  | openFile => exact .inr ⟨by simp, List.mem_cons_of_mem _ hf⟩
  | _ => exact .inr ⟨by simp, hf⟩

theorem Acts.opened {name bytes : List Byte} {p : Word} {file : Member}
    (h : Acts disk o (.openFile name, ⟨p, bytes⟩) o')
    (hfind : disk.find? (fun f => f.name = name) = some file) (hfile : file.typeflag ≠ 0x35#8)
    (hroom : o.HasRoom 16#64) : ∃ b ∈ o'.live, p = payload b := by
  generalize hlabel : ((.openFile name, ⟨p, bytes⟩) : Request × Response) = label at h
  cases h with
  | openMissing hnone =>
      cases hlabel
      have hname := hnone file (List.mem_of_find?_eq_some hfind)
      have hfound := List.find?_some hfind
      exact absurd (of_decide_eq_true hfound) hname
  | openDirectory hfind' hdir =>
      cases hlabel
      obtain rfl := Option.some.inj (hfind.symm.trans hfind')
      exact absurd hdir hfile
  | openRefused hfind' hfull =>
      cases hlabel
      exact absurd hroom hfull
  | @openFile name f b hfind' hfile' hb =>
      cases hlabel
      exact ⟨b, List.mem_cons_self, rfl⟩
  | _ => cases hlabel

end Files

/-! ## Every block -/

/-- A mount that takes a block and has no use for it, which it does not give back. -/
def Request.Forgets : Request → Prop
  | .mount _ _ type => ¬ Supported type
  | _ => False

instance : DecidablePred Request.Forgets := fun req =>
  match req with
  | .mount _ _ type => inferInstanceAs (Decidable (¬ Supported type))
  | .umount .. | .register _ | .lookup _ | .openFile _ | .read .. | .close _ | .create _
  | .addChar _ | .getChar | .execute => inferInstanceAs (Decidable False)

theorem Owned.count_blocks (o : Owned) (b : Block) :
    o.blocks.count b = (o.mounts.map MountNode.block).count b +
      ((o.devices.map Device.block).count b + ((o.files.map OpenFile.block).count b +
        ((o.procs.map NewProc.block).count b + [o.buffer].count b))) := by
  simp only [Owned.blocks, List.count_append]

/-- The blocks of the heap are those of its five users, and those that mounts forget. -/
theorem Acts.accounted {disk : List Member} {o o' : Owned} {req : Request} {response : Response}
    {lost : List Block} (h : Acts disk o (req, response) o')
    (hlive : o.live.Perm (o.blocks ++ lost)) :
    ∃ new, o'.live.Perm (o'.blocks ++ (new ++ lost)) ∧
      new.length ≤ if req.Forgets then 1 else 0 := by
  have hcount : ∀ c, o.live.count c = o.blocks.count c + lost.count c := fun c => by
    rw [hlive.count_eq, List.count_append]
  simp only [Owned.count_blocks] at hcount
  simp only [List.perm_iff_count, List.count_append, Owned.count_blocks]
  cases h with
  | @mount device target type b hb =>
      by_cases hsupported : Supported type
      · refine ⟨[], fun c => ?_, Nat.zero_le _⟩
        have hc := hcount c
        simp only [if_pos hsupported, List.map_append, List.map_cons, List.map_nil,
          List.count_append, List.count_cons, List.count_nil] at hc ⊢
        omega
      · refine ⟨[b], fun c => ?_, ?_⟩
        · have hc := hcount c
          simp only [if_neg hsupported, List.count_cons, List.count_nil] at hc ⊢
          omega
        · rw [if_pos (show (Request.mount device target type).Forgets from hsupported)]
          rfl
  | umount hmounts | close hmounts =>
      refine ⟨[], fun c => ?_, Nat.zero_le _⟩
      have hc := hcount c
      simp only [hmounts, List.map_append, List.map_cons, List.count_append, List.count_cons,
        List.count_nil, List.count_erase] at hc ⊢
      omega
  | read hfiles =>
      refine ⟨[], fun c => ?_, Nat.zero_le _⟩
      have hc := hcount c
      simp only [hfiles, OpenFile.advance, List.map_append, List.map_cons, List.count_append,
        List.count_cons, List.count_nil] at hc ⊢
      omega
  | register | openFile | create =>
      refine ⟨[], fun c => ?_, Nat.zero_le _⟩
      have hc := hcount c
      simp only [List.map_append, List.map_cons, List.map_nil, List.count_append, List.count_cons,
        List.count_nil] at hc ⊢
      omega
  | _ => exact ⟨[], fun c => by rw [hcount c]; simp only [List.count_nil]; omega, Nat.zero_le _⟩

section Runs

variable {opsAddr : FsType → Word} {fuel : ℕ} {disk : List Member} {t t' : Session}
  {o o' : Owned} {labels : List (Request × Response)}

theorem Represents.eq_of_payload (h : Represents disk t o) {f g : OpenFile} (hf : f ∈ o.files)
    (hg : g ∈ o.files) (hptr : payload g.block = payload f.block) : g = f := by
  obtain ⟨free, hinv⟩ := h.heap
  have hlive : ∀ f ∈ o.files, f.block ∈ o.live := fun f hf =>
    h.shared.live .files f.block (List.mem_map_of_mem hf)
  have hblock : g.block = f.block := by
    by_contra hne
    exact hinv.payload_ne (hlive g hg) (hlive f hf) hne hptr
  exact List.inj_on_of_nodup_map (h.shared.nodup .files) hg hf hblock

/-- The reads through a handle deliver the file from where it was, whatever else goes on. -/
theorem Represents.delivered (h : Represents disk t o) (hfuel : 65536 < fuel)
    (htrace : Trace (Step opsAddr fuel) t labels t') {f : OpenFile} (hf : f ∈ o.files)
    (hopen : ∀ label ∈ labels, label.1 ≠ .close (payload f.block)) :
    delivered (payload f.block) labels =
      (f.file.contents.drop f.offset).take (asked (payload f.block) labels) := by
  induction htrace generalizing o f with
  | nil => rfl
  | @cons t₀ t₁ t₂ label labels hstep _ ih =>
      obtain ⟨hfirst, hrest⟩ := List.forall_mem_cons.mp hopen
      obtain ⟨o₁, hacts, hrep⟩ := h.step hfuel hstep
      obtain ⟨req, response⟩ := label
      rcases hacts.file hf (fun g hg => h.eq_of_payload hf hg) hfirst with
        ⟨size, rfl, hbytes, hnext⟩ | ⟨hother, hnext⟩
      · have hlater := ih hrep hnext hrest
        rw [OpenFile.drop_advance] at hlater
        change Kernel.delivered (payload f.block) labels = _ at hlater
        unfold Kernel.delivered asked
        rw [if_pos rfl, List.map_cons, List.sum_cons, hlater, hbytes, Request.asks, if_pos rfl,
          List.take_add]
        rfl
      · have hlater := ih hrep hnext hrest
        have hasks : req.asks (payload f.block) = 0 := by
          cases req with
          | read handle size =>
              exact if_neg fun heq => hother size (by rw [heq])
          | _ => rfl
        have hdelivered : Kernel.delivered (payload f.block) ((req, response) :: labels) =
            Kernel.delivered (payload f.block) labels := by
          cases req with
          | read handle size =>
              exact if_neg fun heq => hother size (by rw [heq])
          | _ => rfl
        rw [hdelivered, hlater]
        unfold asked
        rw [List.map_cons, List.sum_cons, hasks, Nat.zero_add]

end Runs

/-! ## A machine to boot -/

/-- The literals are 16 bytes apart, in the read-only data. -/
def bootImage : Image where
  string text :=
    0xffffffff80002000#64 + BitVec.ofNat 64 (16 * literals.findIdx fun s => chars s = text)
  kbdOps := 0xffffffff80002100#64
  liminefbOps := 0xffffffff80002200#64
  randomOps := 0xffffffff80002300#64
  keyBuffer := 0xffffffff80103000#64

section Boot

variable {opsAddr : FsType → Word} {fuel : ℕ} {image : Image} {sections : Vmm.KernelSections}
  {b : Handover} {space : Vmm.AddressSpace} {k : State}

end Boot

end Osiris.Kernel
