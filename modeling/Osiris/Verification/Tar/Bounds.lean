import Osiris.Verification.Heap.Init
import Osiris.Verification.Tar.Decode

/-! # `tarfs_init` and the end of the ramdisk

The walk goes where the size fields lead it, without regard to the size of the image. It stays
inside exactly the images that hold a complete archive. -/

namespace Osiris.Tar

open ByteMemory Strings Heap

/-! ## The image -/

/-- The headers that the first rounds of the walk read. -/
def headersRead (m : Mem) : ℕ → Word → List Word
  | 0, _ => []
  | fuel + 1, ptr =>
      ptr :: if m ptr = 0#8 then [] else headersRead m fuel (ptr + totalSize (headerSize m ptr))

/-- The `n` bytes from `p` on lie in the image, without wrap-around. -/
def Inside (tarStart tarSize p : Word) (n : ℕ) : Prop :=
  tarStart.toNat ≤ p.toNat ∧ p.toNat + n ≤ tarStart.toNat + tarSize.toNat

instance (tarStart tarSize p : Word) (n : ℕ) : Decidable (Inside tarStart tarSize p n) :=
  inferInstanceAs (Decidable (_ ∧ _))

/-- A complete archive from a header on: one header follows the other as the size fields say, up to
one that starts with a NUL. All headers lie in the image, and so do the contents of the first
`room` files. -/
inductive CompleteArchive (m : Mem) (tarStart tarSize : Word) : ℕ → Word → Prop where
  | ended {room hdr} : Inside tarStart tarSize hdr 512 → m hdr = 0#8 →
      CompleteArchive m tarStart tarSize room hdr
  | recorded {room hdr} : Inside tarStart tarSize hdr 512 → m hdr ≠ 0#8 →
      Inside tarStart tarSize (hdr + tarBlockSize) (headerSize m hdr).toNat →
      CompleteArchive m tarStart tarSize room (hdr + totalSize (headerSize m hdr)) →
      CompleteArchive m tarStart tarSize (room + 1) hdr
  | skipped {hdr} : Inside tarStart tarSize hdr 512 → m hdr ≠ 0#8 →
      CompleteArchive m tarStart tarSize 0 (hdr + totalSize (headerSize m hdr)) →
      CompleteArchive m tarStart tarSize 0 hdr

/-! ## The walk -/

section Walk

variable {m : Mem} {tarStart tarSize hdr : Word} {t t' : TarFs} {fuel : ℕ}

theorem tarfsInitLoop_ended (hnul : m hdr = 0#8) (fuel : ℕ) (t : TarFs) :
    tarfsInitLoop m (fuel + 1) hdr t = .ok t := by
  rw [tarfsInitLoop, if_pos hnul]

theorem tarfsInitLoop_next (hne : m hdr ≠ 0#8) (fuel : ℕ) (t : TarFs) :
    tarfsInitLoop m (fuel + 1) hdr t =
      tarfsInitLoop m fuel (hdr + totalSize (headerSize m hdr))
        (t.addFile m hdr (headerSize m hdr)) := by
  rw [tarfsInitLoop, if_neg hne]

/-- What one header does to the table. -/
theorem addFile_cases (t : TarFs) (m : Mem) (hdr filesize : Word) :
    (maxTarFiles ≤ t.tarFileCount ∧ t.addFile m hdr filesize = t) ∨
      (t.tarFileCount < maxTarFiles ∧
        (t.addFile m hdr filesize).tarFileCount = t.tarFileCount + 1 ∧
        (∀ i < t.tarFileCount, (t.addFile m hdr filesize).tarFiles i = t.tarFiles i) ∧
        ((t.addFile m hdr filesize).tarFiles t.tarFileCount).addr = hdr + tarBlockSize ∧
        ((t.addFile m hdr filesize).tarFiles t.tarFileCount).size = filesize) := by
  unfold TarFs.addFile
  split
  · rename_i hroom
    refine Or.inr ⟨hroom, rfl, fun i hi => Function.update_of_ne hi.ne _ _, ?_, ?_⟩
    · dsimp only
      rw [Function.update_self]
      rfl
    · dsimp only
      rw [Function.update_self]
      rfl
  · rename_i hfull
    exact Or.inl ⟨not_lt.mp hfull, rfl⟩

/-- The walk leaves alone what is in the table. -/
theorem tarfsInitLoop_keeps (h : tarfsInitLoop m fuel hdr t = .ok t') :
    t.tarFileCount ≤ t'.tarFileCount ∧ ∀ i < t.tarFileCount, t'.tarFiles i = t.tarFiles i := by
  induction fuel generalizing hdr t with
  | zero => simp [tarfsInitLoop] at h
  | succ fuel ih =>
      by_cases hnul : m hdr = 0#8
      · rw [tarfsInitLoop_ended hnul, Except.ok.injEq] at h
        rw [h]
        exact ⟨le_rfl, fun i _ => rfl⟩
      · rw [tarfsInitLoop_next hnul] at h
        obtain ⟨hcount, hkept⟩ := ih h
        cases addFile_cases t m hdr (headerSize m hdr) with
        | inl hfull =>
            rw [hfull.2] at hcount hkept
            exact ⟨hcount, hkept⟩
        | inr hadded =>
            obtain ⟨-, hone, hsame, -, -⟩ := hadded
            refine ⟨by omega, fun i hi => ?_⟩
            rw [hkept i (by omega), hsame i hi]

/-- The files that a walk records all lie in the image. -/
def FilesInside (tarStart tarSize : Word) (t : TarFs) (first : ℕ) : Prop :=
  ∀ i, first ≤ i → i < t.tarFileCount →
    Inside tarStart tarSize (t.tarFiles i).addr (t.tarFiles i).size.toNat

theorem walk_of_completeArchive {room : ℕ} (h : CompleteArchive m tarStart tarSize room hdr)
    (hroom : t.tarFileCount + room = maxTarFiles) :
    ∃ fuel t', tarfsInitLoop m fuel hdr t = .ok t' ∧
      (∀ p ∈ headersRead m fuel hdr, Inside tarStart tarSize p 512) ∧
      FilesInside tarStart tarSize t' t.tarFileCount := by
  induction h generalizing t with
  | @ended room hdr hin hnul =>
      refine ⟨1, t, tarfsInitLoop_ended hnul 0 t, fun p hp => ?_, fun i hle hlt => by omega⟩
      rw [headersRead, if_pos hnul, List.mem_singleton] at hp
      exact hp ▸ hin
  | @recorded room hdr hin hne hfile _ ih =>
      cases addFile_cases t m hdr (headerSize m hdr) with
      | inl hfull => omega
      | inr hadded =>
          obtain ⟨-, hcount, -, haddr, hsize⟩ := hadded
          obtain ⟨fuel, t', hok, hheaders, hfiles⟩ :=
            ih (t := t.addFile m hdr (headerSize m hdr)) (by omega)
          refine ⟨fuel + 1, t', ?_, fun p hp => ?_, fun i hle hlt => ?_⟩
          · rw [tarfsInitLoop_next hne, hok]
          · rw [headersRead, if_neg hne, List.mem_cons] at hp
            cases hp with
            | inl hp => exact hp ▸ hin
            | inr hp => exact hheaders p hp
          · by_cases hi : i = t.tarFileCount
            · rw [hi, (tarfsInitLoop_keeps hok).2 _ (by omega), haddr, hsize]
              exact hfile
            · exact hfiles i (by omega) hlt
  | @skipped hdr hin hne _ ih =>
      cases addFile_cases t m hdr (headerSize m hdr) with
      | inr hadded => omega
      | inl hfull =>
          obtain ⟨fuel, t', hok, hheaders, hfiles⟩ := ih hroom
          refine ⟨fuel + 1, t', ?_, fun p hp => ?_, hfiles⟩
          · rw [tarfsInitLoop_next hne, hfull.2, hok]
          · rw [headersRead, if_neg hne, List.mem_cons] at hp
            cases hp with
            | inl hp => exact hp ▸ hin
            | inr hp => exact hheaders p hp

theorem completeArchive_of_walk (hok : tarfsInitLoop m fuel hdr t = .ok t')
    (hheaders : ∀ p ∈ headersRead m fuel hdr, Inside tarStart tarSize p 512)
    (hfiles : FilesInside tarStart tarSize t' t.tarFileCount) {room : ℕ}
    (hroom : t.tarFileCount + room = maxTarFiles) :
    CompleteArchive m tarStart tarSize room hdr := by
  induction fuel generalizing hdr t room with
  | zero => simp [tarfsInitLoop] at hok
  | succ fuel ih =>
      have hin := hheaders hdr (by rw [headersRead]; exact List.mem_cons_self)
      by_cases hnul : m hdr = 0#8
      · exact .ended hin hnul
      · rw [tarfsInitLoop_next hnul] at hok
        have hrest : ∀ p ∈ headersRead m fuel (hdr + totalSize (headerSize m hdr)),
            Inside tarStart tarSize p 512 := by
          intro p hp
          apply hheaders
          rw [headersRead, if_neg hnul]
          exact List.mem_cons_of_mem _ hp
        cases addFile_cases t m hdr (headerSize m hdr) with
        | inl hfull =>
            obtain rfl : room = 0 := by omega
            rw [hfull.2] at hok
            exact .skipped hin hnul (ih hok hrest hfiles hroom)
        | inr hadded =>
            obtain ⟨hlt, hcount, -, haddr, hsize⟩ := hadded
            obtain ⟨room, rfl⟩ : ∃ k, room = k + 1 := Nat.exists_eq_succ_of_ne_zero (by omega)
            obtain ⟨hle, hkept⟩ := tarfsInitLoop_keeps hok
            have hnext : (t.addFile m hdr (headerSize m hdr)).tarFileCount + room = maxTarFiles := by
              omega
            have hfile := hfiles t.tarFileCount le_rfl (by omega)
            rw [hkept _ (by omega), haddr, hsize] at hfile
            exact .recorded hin hnul hfile
              (ih hok hrest (fun i hi hi' => hfiles i (by omega) hi') hnext)

end Walk

/-- `tarfs_init` returns without having left the image, and with nothing in the table that does,
exactly when the image holds a complete archive. -/
theorem tarfsInit_inside_iff (m : Mem) (tarStart tarSize : Word) (t : TarFs) :
    (∃ fuel t', tarfsInit fuel m tarStart t = .ok t' ∧
      (∀ p ∈ headersRead m fuel tarStart, Inside tarStart tarSize p 512) ∧
      ∀ i < t'.tarFileCount,
        Inside tarStart tarSize (t'.tarFiles i).addr (t'.tarFiles i).size.toNat) ↔
      CompleteArchive m tarStart tarSize 64 tarStart := by
  constructor
  · intro h
    obtain ⟨fuel, t', hok, hheaders, hfiles⟩ := h
    exact completeArchive_of_walk hok hheaders (fun i _ hlt => hfiles i hlt) rfl
  · intro h
    obtain ⟨fuel, t', hok, hheaders, hfiles⟩ :=
      walk_of_completeArchive (t := { t with tarFileCount := 0 }) h rfl
    exact ⟨fuel, t', hok, hheaders, fun i hlt => hfiles i (Nat.zero_le i) hlt⟩

/-- The archive of one file, cut after its header. -/
theorem tarfsInit_leaves_image :
    (∃ p ∈ headersRead greetingImage 2 0x1000#64, ¬ Inside 0x1000#64 512#64 p 512) ∧
      ∃ t', tarfsInit 2 greetingImage 0x1000#64 ⟨0#64, fun _ => ⟨[], 0#64, 0#64, .tarFile⟩, 0⟩ =
          .ok t' ∧
        ¬ Inside 0x1000#64 512#64 (t'.tarFiles 0).addr (t'.tarFiles 0).size.toNat := by
  constructor
  · exact ⟨0x1400#64, by decide, by decide⟩
  · obtain ⟨t', hok, hslot⟩ := Loop.exists_of_toOption
      (show (tarfsInit 2 greetingImage 0x1000#64
        ⟨0#64, fun _ => ⟨[], 0#64, 0#64, .tarFile⟩, 0⟩).toOption.map (fun t => t.tarFiles 0) =
          some ⟨[0x61#8], 0x1200#64, 2#64, .tarFile⟩ by decide)
    exact ⟨t', hok, by rw [hslot]; decide⟩

end Osiris.Tar
