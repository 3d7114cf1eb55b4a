import Osiris.Verification.Tar.Fields

/-! # `tarfs_init` reads every plain archive -/

namespace Osiris.Tar

open ByteMemory Strings Heap

/-! ## Archives -/

/-- A file of an archive. The name fits its field with a NUL, and the size its field of eleven
digits. -/
structure Member where
  name : List Byte
  typeflag : Byte
  contents : List Byte
  name_pos : 0 < name.length
  name_le : name.length ≤ 99
  name_ne_zero : ∀ c ∈ name, c ≠ 0#8
  size_lt : contents.length < 8 ^ 11

/-- A header and the contents after it. Nothing is said of the other fields of the header, nor of
the padding. -/
structure MemberAt (m : Mem) (hdr : Word) (f : Member) : Prop where
  name : StringAt m hdr f.name
  size : field m (hdr + 124#64) 12 = octalDigits 11 f.contents.length ++ [0#8]
  typeflag : m (hdr + 156#64) = f.typeflag
  contents : field m (hdr + tarBlockSize) f.contents.length = f.contents

/-- From the header of a file to the next. -/
def Member.span (f : Member) : ℕ :=
  512 + padded f.contents.length

/-- The members of an archive, one after the other, and a block that starts with a NUL. -/
def ArchiveAt (m : Mem) : Word → List Member → Prop
  | hdr, [] => m hdr = 0#8
  | hdr, f :: rest => MemberAt m hdr f ∧ ArchiveAt m (hdr + BitVec.ofNat 64 f.span) rest

/-- The bytes of an archive before its last block. -/
def archiveLength (members : List Member) : ℕ :=
  (members.map Member.span).sum

/-- What the table says of the file at a header that has been recorded. -/
structure Records (m : Mem) (hdr : Word) (tf : TarFile) (f : Member) : Prop where
  name : tf.name = f.name
  addr : tf.addr = hdr + tarBlockSize
  size : tf.size = BitVec.ofNat 64 f.contents.length
  type : tf.type = .tarDir ↔ f.typeflag = 0x35#8
  contents : field m tf.addr f.contents.length = f.contents
  addr_ne_zero : tf.addr ≠ 0#64

/-! ## One member -/

section Member

variable {m : Mem} {hdr : Word} {f : Member}

theorem copyName_spec {s : List Byte} {left : ℕ} (hle : s.length ≤ left) (i : ℕ) (tf : TarFile)
    (hs : StringAt m (hdr + BitVec.ofNat 64 i) s) :
    copyName m hdr left i tf =
      { tf with
        name := tf.name ++ s
        type := if s = [] then tf.type else headerType m hdr } := by
  induction s generalizing left i tf with
  | nil =>
      have hnul : m (hdr + BitVec.ofNat 64 i) = 0#8 := hs
      cases left with
      | zero => simp [copyName]
      | succ left => simp [copyName, hnul]
  | cons c s ih =>
      obtain ⟨hc, hmem, hrest⟩ := hs
      obtain ⟨left, rfl⟩ : ∃ k, left = k + 1 := Nat.exists_eq_succ_of_ne_zero (by
        rw [List.length_cons] at hle
        omega)
      have haddr : hdr + BitVec.ofNat 64 i + 1#64 = hdr + BitVec.ofNat 64 (i + 1) := by
        rw [BitVec.ofNat_add, add_assoc]
      rw [haddr] at hrest
      rw [List.length_cons] at hle
      rw [copyName, hmem, if_neg hc, ih (by omega) (i + 1) _ hrest]
      simp

theorem MemberAt.headerSize (h : MemberAt m hdr f) :
    headerSize m hdr = BitVec.ofNat 64 f.contents.length :=
  oct2bin_octalDigits f.size_lt h.size

theorem MemberAt.first_ne_zero (h : MemberAt m hdr f) : m hdr ≠ 0#8 := by
  have hname := h.name
  have hpos := f.name_pos
  cases hs : f.name with
  | nil => simp [hs] at hpos
  | cons c s =>
      rw [hs] at hname
      obtain ⟨hc, hmem, -⟩ := hname
      rw [hmem]
      exact hc

theorem MemberAt.recordFile (h : MemberAt m hdr f) (tf : TarFile)
    (hroom : hdr.toNat + 512 < 2 ^ 64) :
    Records m hdr (Tar.recordFile m hdr (Tar.headerSize m hdr) tf) f := by
  have hne : f.name ≠ [] := List.ne_nil_of_length_pos f.name_pos
  have hcopy := copyName_spec f.name_le 0 { tf with name := [] } (by simpa using h.name)
  unfold Tar.recordFile
  rw [hcopy, if_neg hne]
  constructor
  · simp
  · rfl
  · exact h.headerSize
  · dsimp only
    rw [headerType, h.typeflag]
    by_cases htype : f.typeflag = 0x35#8
    · simp [htype]
    · simp [htype]
  · exact h.contents
  · intro hzero
    have hnat := congrArg BitVec.toNat hzero
    dsimp only at hnat
    rw [tarBlockSize, BitVec.toNat_add] at hnat
    simp at hnat
    omega

end Member

/-! ## The walk -/

section Walk

variable {m : Mem}

@[simp] theorem archiveLength_nil : archiveLength [] = 0 := rfl

@[simp] theorem archiveLength_cons (f : Member) (rest : List Member) :
    archiveLength (f :: rest) = f.span + archiveLength rest := by
  simp [archiveLength]

theorem Member.span_lt (f : Member) : f.span < 2 ^ 35 := by
  have hsize := f.size_lt
  unfold Member.span padded
  norm_num at hsize ⊢
  omega

theorem MemberAt.totalSize {hdr : Word} {f : Member} (h : MemberAt m hdr f) :
    Tar.totalSize (Tar.headerSize m hdr) = BitVec.ofNat 64 f.span := by
  have hsize := f.size_lt
  rw [h.headerSize, totalSize_ofNat (by norm_num at hsize ⊢; omega)]
  rfl

theorem tarfsInitLoop_member {hdr : Word} {f : Member} (h : MemberAt m hdr f) (fuel : ℕ)
    (t : TarFs) :
    tarfsInitLoop m (fuel + 1) hdr t =
      tarfsInitLoop m fuel (hdr + BitVec.ofNat 64 f.span)
        (t.addFile m hdr (Tar.headerSize m hdr)) := by
  rw [tarfsInitLoop, if_neg h.first_ne_zero]
  dsimp only
  rw [h.totalSize]

/-- The slots that are filled stay as they are, and one more is filled if there is room. -/
theorem MemberAt.addFile {hdr : Word} {f : Member} (h : MemberAt m hdr f) (t : TarFs)
    (hroom : hdr.toNat + 512 < 2 ^ 64) :
    (t.addFile m hdr (Tar.headerSize m hdr)).tarFileCount =
        (if t.tarFileCount < maxTarFiles then t.tarFileCount + 1 else t.tarFileCount) ∧
      (∀ i < t.tarFileCount,
        (t.addFile m hdr (Tar.headerSize m hdr)).tarFiles i = t.tarFiles i) ∧
      (t.tarFileCount < maxTarFiles →
        Records m hdr ((t.addFile m hdr (Tar.headerSize m hdr)).tarFiles t.tarFileCount) f) := by
  unfold TarFs.addFile
  split
  · refine ⟨rfl, fun i hi => Function.update_of_ne hi.ne _ _, fun _ => ?_⟩
    dsimp only
    rw [Function.update_self]
    exact h.recordFile _ hroom
  · rename_i hfull
    exact ⟨rfl, fun i _ => rfl, fun hlt => absurd hlt hfull⟩

/-- What the walk adds to a table that already has some files. -/
theorem tarfsInitLoop_spec (members : List Member) {hdr : Word} (harchive : ArchiveAt m hdr members)
    (hfits : hdr.toNat + archiveLength members < 2 ^ 64) (t : TarFs)
    (hcount : t.tarFileCount ≤ maxTarFiles) {fuel : ℕ} (hfuel : members.length < fuel) :
    ∃ t', tarfsInitLoop m fuel hdr t = .ok t' ∧
      t'.tarFileCount = min (t.tarFileCount + members.length) maxTarFiles ∧
      (∀ i < t.tarFileCount, t'.tarFiles i = t.tarFiles i) ∧
      ∀ i (hi : i < members.length), t.tarFileCount + i < maxTarFiles →
        Records m (hdr + BitVec.ofNat 64 (archiveLength (members.take i)))
          (t'.tarFiles (t.tarFileCount + i)) members[i] := by
  induction members generalizing hdr t fuel with
  | nil =>
      obtain ⟨fuel, rfl⟩ := Nat.exists_eq_succ_of_ne_zero hfuel.ne'
      have hnul : m hdr = 0#8 := harchive
      refine ⟨t, by rw [tarfsInitLoop, if_pos hnul], ?_, fun i _ => rfl, fun i hi => ?_⟩
      · rw [List.length_nil, add_zero, min_eq_left hcount]
      · exact absurd hi (Nat.not_lt_zero i)
  | cons f rest ih =>
      obtain ⟨hf, hrest⟩ := harchive
      rw [List.length_cons] at hfuel
      obtain ⟨fuel, rfl⟩ : ∃ k, fuel = k + 1 := Nat.exists_eq_succ_of_ne_zero (by omega)
      rw [archiveLength_cons] at hfits
      have hspan : 512 ≤ f.span := Nat.le_add_right 512 _
      have hspan' := f.span_lt
      obtain ⟨hcount', hkept, hnew⟩ := hf.addFile t (by omega)
      generalize hadd : t.addFile m hdr (Tar.headerSize m hdr) = t₁ at hcount' hkept hnew
      have hnext : (hdr + BitVec.ofNat 64 f.span).toNat = hdr.toNat + f.span := by
        rw [BitVec.toNat_add, BitVec.toNat_ofNat]
        omega
      have hle : t₁.tarFileCount ≤ maxTarFiles := by
        rw [hcount']
        split <;> omega
      obtain ⟨t', hok, htotal, hkept', hrecords⟩ :=
        ih hrest (by omega) t₁ hle (Nat.lt_of_succ_lt_succ hfuel)
      refine ⟨t', ?_, ?_, fun i hi => ?_, fun i hi hlt => ?_⟩
      · rw [tarfsInitLoop_member hf, hadd, hok]
      · rw [htotal, hcount', List.length_cons]
        split <;> omega
      · rw [hkept' i (by rw [hcount']; split <;> omega), hkept i hi]
      · cases i with
        | zero =>
            rw [add_zero] at hlt ⊢
            rw [hkept' _ (by rw [hcount', if_pos hlt]; omega), List.take_zero, archiveLength_nil,
              BitVec.add_zero]
            exact hnew hlt
        | succ i =>
            have hroom : t.tarFileCount < maxTarFiles := by omega
            rw [if_pos hroom] at hcount'
            have hindex : t₁.tarFileCount + i = t.tarFileCount + (i + 1) := by omega
            have hrec := hrecords i (by simpa using hi) (by omega)
            rw [hindex, add_assoc, ← BitVec.ofNat_add, ← archiveLength_cons,
              ← List.take_succ_cons] at hrec
            exact hrec

end Walk

/-! ## The table -/

/-- The table holds the first members of an archive, as many as it has room for. -/
structure Holds (m : Mem) (tarStart : Word) (t : TarFs) (members : List Member) : Prop where
  count : t.tarFileCount = min members.length maxTarFiles
  records : ∀ i (hi : i < members.length), i < maxTarFiles →
    Records m (tarStart + BitVec.ofNat 64 (archiveLength (members.take i))) (t.tarFiles i) members[i]

section Table

variable {m : Mem} {tarStart : Word} {t : TarFs} {members : List Member} {name : Word}
  {s : List Byte}

theorem Holds.matches_iff (h : Holds m tarStart t members) (hs : StringAt m name s) {i : ℕ}
    (hi : i < members.length) (hlt : i < maxTarFiles) :
    kstrcmp m name (t.tarFiles i).name = 0 ↔ members[i].name = s := by
  have hrec := h.records i hi hlt
  rw [kstrcmp_eq_zero_iff hs (hrec.name ▸ members[i].name_ne_zero), hrec.name]

theorem Holds.tarfsFind_first (h : Holds m tarStart t members) (hs : StringAt m name s) {i : ℕ}
    (hi : i < members.length) (hlt : i < maxTarFiles) (hname : members[i].name = s)
    (hfirst : ∀ j (hj : j < i), members[j].name ≠ s) :
    tarfsFind t m name =
      ((t.tarFiles i).addr, some (BitVec.ofNat 64 members[i].contents.length)) := by
  have hindex : t.indexOf m name = some i := by
    unfold TarFs.indexOf
    rw [List.find?_range_eq_some]
    refine ⟨by simpa using (h.matches_iff hs hi hlt).mpr hname, ?_, fun j hj => ?_⟩
    · rw [List.mem_range, h.count]
      omega
    · simpa using mt (h.matches_iff hs (by omega) (by omega)).mp (hfirst j hj)
  rw [tarfsFind, hindex]
  dsimp only
  rw [(h.records i hi hlt).size]

theorem Holds.tarfsFind_none (h : Holds m tarStart t members) (hs : StringAt m name s)
    (hnone : ∀ i (hi : i < members.length), i < maxTarFiles → members[i].name ≠ s) :
    tarfsFind t m name = (0#64, none) := by
  have hindex : t.indexOf m name = none := by
    unfold TarFs.indexOf
    rw [List.find?_range_eq_none]
    intro i hi
    rw [h.count] at hi
    simpa using mt (h.matches_iff hs (by omega) (by omega)).mp (hnone i (by omega) (by omega))
  rw [tarfsFind, hindex]

theorem Holds.tarfsFind_eq_zero_iff (h : Holds m tarStart t members) (hs : StringAt m name s) :
    (tarfsFind t m name).1 = 0#64 ↔
      ∀ i (hi : i < members.length), i < maxTarFiles → members[i].name ≠ s := by
  constructor
  · intro hzero i hi hlt hname
    -- the first member of that name is the one that is found
    obtain ⟨k, hk, hmin⟩ : ∃ k, (∃ hk : k < members.length, members[k].name = s) ∧
        ∀ j < k, ¬ ∃ hj : j < members.length, members[j].name = s := by
      classical
      have hex : ∃ k, ∃ hk : k < members.length, members[k].name = s := ⟨i, hi, hname⟩
      exact ⟨Nat.find hex, Nat.find_spec hex, fun j hj => Nat.find_min hex hj⟩
    obtain ⟨hk, hkname⟩ := hk
    have hki : k ≤ i := not_lt.mp fun hik => hmin i hik ⟨hi, hname⟩
    have hfirst := h.tarfsFind_first hs hk (by omega) hkname
      fun j hj hjname => hmin j hj ⟨by omega, hjname⟩
    rw [hfirst] at hzero
    exact (h.records k hk (by omega)).addr_ne_zero hzero
  · intro hnone
    rw [h.tarfsFind_none hs hnone]

end Table

/-- `tarfs_init` returns with the first 64 members of the archive in the table, and `tarfs_find`
finds the first of them that has the name. -/
theorem tarfsInit_decodes (m : Mem) (tarStart : Word) (members : List Member)
    (harchive : ArchiveAt m tarStart members)
    (hfits : tarStart.toNat + archiveLength members < 2 ^ 64) (t : TarFs) (fuel : ℕ)
    (hfuel : members.length < fuel) :
    ∃ t', tarfsInit fuel m tarStart t = .ok t' ∧
      t'.tarFileCount = min members.length 64 ∧
      (∀ i (hi : i < members.length), i < 64 →
        (t'.tarFiles i).name = members[i].name ∧
          (t'.tarFiles i).addr =
            tarStart + BitVec.ofNat 64 (archiveLength (members.take i)) + tarBlockSize ∧
          (t'.tarFiles i).size = BitVec.ofNat 64 members[i].contents.length ∧
          ((t'.tarFiles i).type = .tarDir ↔ members[i].typeflag = 0x35#8) ∧
          field m (t'.tarFiles i).addr members[i].contents.length = members[i].contents) ∧
      ∀ (name : Word) (s : List Byte), StringAt m name s →
        (∀ i (hi : i < members.length), i < 64 → members[i].name = s →
          (∀ j (hj : j < i), members[j].name ≠ s) →
          tarfsFind t' m name =
            ((t'.tarFiles i).addr, some (BitVec.ofNat 64 members[i].contents.length))) ∧
        ((tarfsFind t' m name).1 = 0#64 ↔
          ∀ i (hi : i < members.length), i < 64 → members[i].name ≠ s) := by
  obtain ⟨t', hok, hcount, -, hrecords⟩ :=
    tarfsInitLoop_spec members harchive hfits { t with tarFileCount := 0 } (Nat.zero_le _) hfuel
  simp only [Nat.zero_add] at hcount hrecords
  have hholds : Holds m tarStart t' members := ⟨hcount, hrecords⟩
  refine ⟨t', hok, hcount, fun i hi hlt => ?_, fun name s hs => ⟨fun i hi hlt hname hfirst => ?_, ?_⟩⟩
  · have hrec := hrecords i hi hlt
    exact ⟨hrec.name, hrec.addr, hrec.size, hrec.type, hrec.contents⟩
  · exact hholds.tarfsFind_first hs hi hlt hname hfirst
  · exact hholds.tarfsFind_eq_zero_iff hs

/-- A file with the name `a` and the contents `hi`. -/
def greeting : Member where
  name := [0x61#8]
  typeflag := 0x30#8
  contents := [0x68#8, 0x69#8]
  name_pos := by decide
  name_le := by decide
  name_ne_zero := by decide
  size_lt := by decide

/-- An archive of this file at address 0x1000. -/
def greetingImage : Mem := fun x =>
  let offset := (x - 0x1000#64).toNat
  if offset = 0 then 0x61#8
  else if 124 ≤ offset ∧ offset < 134 then 0x30#8
  else if offset = 134 then 0x32#8
  else if offset = 156 then 0x30#8
  else if offset = 512 then 0x68#8
  else if offset = 513 then 0x69#8
  else 0#8

theorem greetingImage_archive : ArchiveAt greetingImage 0x1000#64 [greeting] := by
  refine ⟨⟨⟨by decide, by decide, ?_⟩, by decide, by decide, by decide⟩, ?_⟩
  · exact (by decide : greetingImage (0x1000#64 + 1#64) = 0#8)
  · exact (by decide : greetingImage (0x1000#64 + 1024#64) = 0#8)

theorem tarfsInit_decodes_greeting :
    ∃ t', tarfsInit 2 greetingImage 0x1000#64 ⟨0#64, fun _ => ⟨[], 0#64, 0#64, .tarFile⟩, 0⟩ = .ok t' ∧
      t'.tarFileCount = 1 ∧ (t'.tarFiles 0).name = [0x61#8] := by
  obtain ⟨t', hok, hcount, hslots, -⟩ := tarfsInit_decodes greetingImage 0x1000#64 [greeting]
    greetingImage_archive (by decide) ⟨0#64, fun _ => ⟨[], 0#64, 0#64, .tarFile⟩, 0⟩ 2 (by decide)
  exact ⟨t', hok, hcount, (hslots 0 (by decide) (by decide)).1⟩

end Osiris.Tar
