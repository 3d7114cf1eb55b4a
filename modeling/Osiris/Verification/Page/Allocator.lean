import Osiris.Model.Page

/-! # The contract of the frame allocator -/

namespace Osiris.Page

open ByteMemory Strings

/-! ## Frames and their pages in the direct map -/

/-- The virtual address at which the kernel accesses a frame. -/
def frameVirt (hh : Word) (frame : ℕ) : Word :=
  frameAddr frame + hh

/-- Where the boot loader puts the direct map when it does not randomise addresses. -/
def directMap : Word := 0xffff800000000000#64

/-- `x` is one of the 4096 addresses at which the kernel accesses `frame`. -/
def InFrame (hh : Word) (frame : ℕ) (x : Word) : Prop :=
  InRange (frameVirt hh frame) 4096 x

/-- The contents of a frame are the same in two memories. -/
def SamePage (hh : Word) (m m' : Mem) (frame : ℕ) : Prop :=
  ∀ x, InFrame hh frame x → m' x = m x

/-- The frame numbers that fit a 64-bit physical address. -/
def frameLimit : ℕ := 2 ^ 52

theorem toNat_frameAddr {f : ℕ} (hf : f < frameLimit) : (frameAddr f).toNat = f * 4096 := by
  unfold frameLimit at hf
  unfold frameAddr
  rw [BitVec.toNat_ofNat, Nat.mod_eq_of_lt (by omega)]

theorem frameAddr_inj {f g : ℕ} (hf : f < frameLimit) (hg : g < frameLimit)
    (h : frameAddr f = frameAddr g) : f = g := by
  have hnat := congrArg BitVec.toNat h
  rw [toNat_frameAddr hf, toNat_frameAddr hg] at hnat
  omega

theorem frameAddr_ne_zero {f : ℕ} (hlim : f < frameLimit) (hne : f ≠ 0) : frameAddr f ≠ 0#64 := by
  have haddr := toNat_frameAddr hlim
  intro hzero
  rw [hzero, BitVec.toNat_zero] at haddr
  omega

/-- Offsets in the direct map do not depend on where the direct map is. -/
theorem inFrame_iff {hh : Word} {f : ℕ} (hf : f < frameLimit) {x : Word} :
    InFrame hh f x ↔ (x - hh).toNat / 4096 = f := by
  have hshift : x - (frameAddr f + hh) = x - hh - frameAddr f := by ring
  unfold InFrame InRange frameVirt
  rw [hshift]
  have haddr := toNat_frameAddr hf
  unfold frameLimit at hf
  generalize x - hh = y
  generalize frameAddr f = a at haddr
  constructor <;> intro h <;> bv_omega

/-- Distinct frames have disjoint pages. -/
theorem frame_eq_of_inFrame {hh : Word} {f g : ℕ} (hf : f < frameLimit) (hg : g < frameLimit)
    {x : Word} (hx : InFrame hh f x) (hy : InFrame hh g x) : f = g := by
  rw [inFrame_iff hf] at hx
  rw [inFrame_iff hg] at hy
  exact hx.symm.trans hy

theorem SamePage.refl (hh : Word) (m : Mem) (f : ℕ) : SamePage hh m m f :=
  fun _ _ => rfl

theorem SamePage.trans {hh : Word} {m₁ m₂ m₃ : Mem} {f : ℕ} (h₁ : SamePage hh m₁ m₂ f)
    (h₂ : SamePage hh m₂ m₃ f) : SamePage hh m₁ m₃ f :=
  fun x hx => (h₂ x hx).trans (h₁ x hx)

/-! ## Free frames -/

/-- A frame that `allocate_page` may return. -/
def Pmm.Free (pmm : Pmm) (frame : ℕ) : Prop :=
  frame ≤ pmm.highestPage ∧ pmm.memoryBitmap.get frame = false

/-- The free frames, for counting them. -/
def Pmm.freeFrames (pmm : Pmm) : Finset ℕ :=
  (Finset.range (pmm.highestPage + 1)).filter fun f => pmm.memoryBitmap.get f = false

@[simp] theorem mem_freeFrames {pmm : Pmm} {f : ℕ} : f ∈ pmm.freeFrames ↔ pmm.Free f := by
  unfold Pmm.freeFrames Pmm.Free
  rw [Finset.mem_filter, Finset.mem_range, Nat.lt_succ_iff]

/-- What `pmm_init` and the boot loader guarantee to every later call: the bitmap covers the
managed frames, frame 0 is never free, and the direct map of the managed frames does not wrap
around the address space. -/
structure Machine.Valid (hh : Word) (s : Machine) : Prop where
  capacity : s.pmm.highestPage < pmmBitmapSize * 8
  zero_used : ¬ s.pmm.Free 0
  room : hh.toNat + (s.pmm.highestPage + 1) * 4096 ≤ 2 ^ 64

/-- Validity depends on the bitmap and on `highest_page` only. -/
theorem Machine.Valid.of_free {hh : Word} {s s' : Machine} (h : s.Valid hh)
    (hhighest : s'.pmm.highestPage = s.pmm.highestPage) (hzero : ¬ s'.pmm.Free 0) :
    s'.Valid hh :=
  ⟨hhighest ▸ h.capacity, hzero, hhighest ▸ h.room⟩

theorem Machine.Valid.lt_limit {hh : Word} {s : Machine} (h : s.Valid hh) {f : ℕ}
    (hf : f ≤ s.pmm.highestPage) : f < 2 ^ 40 := by
  have hcap := h.capacity
  unfold pmmBitmapSize at hcap
  omega

/-- A managed frame other than frame 0 is not accessed through `NULL`. -/
theorem Machine.Valid.frameVirt_ne_zero {hh : Word} {s : Machine} (h : s.Valid hh) {f : ℕ}
    (hf : f ≤ s.pmm.highestPage) (hpos : f ≠ 0) : frameVirt hh f ≠ 0#64 := by
  have hroom := h.room
  have hlt := h.lt_limit hf
  have haddr := toNat_frameAddr (f := f) (by unfold frameLimit; omega)
  intro hzero
  unfold frameVirt at hzero
  have hnat := congrArg BitVec.toNat hzero
  rw [BitVec.toNat_add, haddr, BitVec.toNat_zero] at hnat
  have hle : f * 4096 ≤ s.pmm.highestPage * 4096 := Nat.mul_le_mul_right 4096 hf
  rw [Nat.mod_eq_of_lt (by omega)] at hnat
  omega

/-! ## Clearing and copying a page -/

theorem memset_page (m : Mem) (p : Word) (c : BitVec 32) (x : Word) :
    memset m p c 4096#32 x = if InRange p 4096 x then c.setWidth 8 else m x := by
  have hrounds : rounds 4096#32 = 4096 := rounds_pageSize
  unfold memset
  rw [hrounds]
  exact fillUp_apply m p _ (by norm_num) x

theorem memset_samePage {hh : Word} {f g : ℕ} (hf : f < frameLimit) (hg : g < frameLimit)
    (hne : g ≠ f) (m : Mem) (c : BitVec 32) :
    SamePage hh m (memset m (frameVirt hh f) c 4096#32) g := by
  intro x hx
  have hout : ¬ InRange (frameVirt hh f) 4096 x := fun hin => hne (frame_eq_of_inFrame hg hf hx hin)
  rw [memset_page, if_neg hout]

/-! ## `allocate_page` -/

/-- The state after frame `i` has been taken. -/
def Machine.take (hh : Word) (s : Machine) (i : ℕ) : Machine :=
  { pmm :=
      { s.pmm with
        memoryBitmap := s.pmm.memoryBitmap.set i
        usedPages := s.pmm.usedPages + 1#64
        freePages := s.pmm.freePages - 1#64 }
    mem := memset s.mem (frameVirt hh i) 0#32 4096#32 }

theorem firstFree_eq_some {pmm : Pmm} {i : ℕ} (h : firstFree pmm = some i) :
    pmm.Free i ∧ ∀ j < i, ¬ pmm.Free j := by
  unfold firstFree at h
  rw [List.find?_range_eq_some] at h
  obtain ⟨hbit, hmem, hmin⟩ := h
  have hi : i ≤ pmm.highestPage := by
    have := List.mem_range.mp hmem
    omega
  refine ⟨⟨hi, by simpa using hbit⟩, fun j hj hfree => ?_⟩
  have hset := hmin j hj
  simp [hfree.2] at hset

theorem firstFree_eq_none {pmm : Pmm} (h : firstFree pmm = none) : ∀ f, ¬ pmm.Free f := by
  unfold firstFree at h
  rw [List.find?_range_eq_none] at h
  intro f hfree
  have hset := h f (by have := hfree.1; omega)
  simp [hfree.2] at hset

/-- `allocate_page` takes the lowest free frame, or fails because there is none. -/
theorem allocatePage_cases (hh : Word) (s : Machine) :
    (allocatePage hh s = (0#64, s) ∧ ∀ f, ¬ s.pmm.Free f) ∨
    ∃ i, s.pmm.Free i ∧ (∀ j < i, ¬ s.pmm.Free j) ∧
      allocatePage hh s = (frameAddr i, s.take hh i) := by
  cases hfirst : firstFree s.pmm with
  | none =>
      left
      exact ⟨by simp [allocatePage, hfirst], firstFree_eq_none hfirst⟩
  | some i =>
      right
      obtain ⟨hfree, hmin⟩ := firstFree_eq_some hfirst
      exact ⟨i, hfree, hmin, by simp [allocatePage, hfirst, Machine.take, frameVirt]⟩

@[simp] theorem take_highestPage (hh : Word) (s : Machine) (i : ℕ) :
    (s.take hh i).pmm.highestPage = s.pmm.highestPage := rfl

theorem free_take (hh : Word) (s : Machine) (i f : ℕ) :
    (s.take hh i).pmm.Free f ↔ s.pmm.Free f ∧ f ≠ i := by
  unfold Pmm.Free Machine.take
  by_cases h : f = i <;> simp [h]

theorem card_freeFrames_set {pmm pmm' : Pmm} {i : ℕ} (hfree : pmm.Free i)
    (hset : ∀ f, pmm'.Free f ↔ pmm.Free f ∧ f ≠ i) :
    pmm'.freeFrames.card + 1 = pmm.freeFrames.card := by
  have herase : pmm'.freeFrames = pmm.freeFrames.erase i := by
    ext f
    rw [Finset.mem_erase, mem_freeFrames, mem_freeFrames, hset f, and_comm]
  rw [herase]
  exact Finset.card_erase_add_one (mem_freeFrames.mpr hfree)

/-- An allocation costs one free frame. -/
theorem card_freeFrames_take {hh : Word} {s : Machine} {i : ℕ} (hfree : s.pmm.Free i) :
    (s.take hh i).pmm.freeFrames.card + 1 = s.pmm.freeFrames.card :=
  card_freeFrames_set hfree (free_take hh s i)

theorem Machine.Valid.take {hh : Word} {s : Machine} (h : s.Valid hh) (i : ℕ) :
    (s.take hh i).Valid hh :=
  h.of_free rfl fun hfree => h.zero_used ((free_take hh s i 0).mp hfree).1

theorem Machine.Valid.ne_zero_of_free {hh : Word} {s : Machine} (h : s.Valid hh) {i : ℕ}
    (hfree : s.pmm.Free i) : i ≠ 0 := by
  rintro rfl
  exact h.zero_used hfree

theorem Machine.Valid.frameAddr_ne_zero {hh : Word} {s : Machine} (h : s.Valid hh) {i : ℕ}
    (hi : i ≤ s.pmm.highestPage) (hne : i ≠ 0) : frameAddr i ≠ 0#64 := by
  have hlt := h.lt_limit hi
  exact Page.frameAddr_ne_zero (by unfold frameLimit; omega) hne

theorem take_samePage {hh : Word} {s : Machine} {i f : ℕ} (hi : i < frameLimit)
    (hf : f < frameLimit) (hne : f ≠ i) : SamePage hh s.mem (s.take hh i).mem f :=
  memset_samePage hi hf hne s.mem 0#32

theorem take_zero {hh : Word} (s : Machine) {i : ℕ} {x : Word} (hx : InFrame hh i x) :
    (s.take hh i).mem x = 0#8 := by
  have hin : InRange (frameVirt hh i) 4096 x := hx
  change memset s.mem (frameVirt hh i) 0#32 4096#32 x = 0#8
  rw [memset_page, if_pos hin]
  rfl

/-! ## `free_page` -/

/-- Giving back a used frame by its address makes exactly that frame free. -/
theorem freePage_frameAddr {pmm : Pmm} {i : ℕ} (hlim : i < frameLimit) (hne : i ≠ 0)
    (hle : i ≤ pmm.highestPage) (hused : ¬ pmm.Free i) :
    freePage pmm (frameAddr i) =
      { pmm with
        memoryBitmap := pmm.memoryBitmap.clear i
        usedPages := pmm.usedPages - 1#64
        freePages := pmm.freePages + 1#64 } := by
  have haddr := toNat_frameAddr hlim
  have hbit : pmm.memoryBitmap.get i = true := by
    by_contra hclear
    exact hused ⟨hle, by simpa using hclear⟩
  have hzero := frameAddr_ne_zero hlim hne
  have halign : frameAddr i % 4096#64 = 0#64 := by
    apply BitVec.eq_of_toNat_eq
    rw [BitVec.toNat_umod, haddr]
    simp
  have hindex : (frameAddr i).toNat / 4096 = i := by
    rw [haddr]
    omega
  unfold freePage
  simp [hzero, halign, hindex, hbit, hle]

/-- A call of `free_page` is rejected, or clears the bit of one managed frame that is in use and
is not frame 0. -/
theorem freePage_cases (pmm : Pmm) (page : Word) :
    freePage pmm page = pmm ∨
    ∃ i, page = frameAddr i ∧ i ≠ 0 ∧ i ≤ pmm.highestPage ∧ ¬ pmm.Free i ∧ i < frameLimit ∧
      freePage pmm page =
        { pmm with
          memoryBitmap := pmm.memoryBitmap.clear i
          usedPages := pmm.usedPages - 1#64
          freePages := pmm.freePages + 1#64 } := by
  by_cases hzero : page = 0#64
  · exact Or.inl (by simp [freePage, hzero])
  by_cases halign : page % 4096#64 = 0#64
  swap
  · exact Or.inl (by simp [freePage, hzero, halign])
  have hmod : page.toNat % 4096 = 0 := by
    have hnat := congrArg BitVec.toNat halign
    simpa [BitVec.toNat_umod] using hnat
  have hpage : page = frameAddr (page.toNat / 4096) := by
    apply BitVec.eq_of_toNat_eq
    rw [toNat_frameAddr (by unfold frameLimit; omega)]
    omega
  by_cases hle : page.toNat / 4096 ≤ pmm.highestPage
  swap
  · exact Or.inl (by simp [freePage, hzero, halign, not_le.mp hle])
  by_cases hbit : pmm.memoryBitmap.get (page.toNat / 4096) = true
  swap
  · exact Or.inl (by simp [freePage, hzero, halign, not_lt.mpr hle, hbit])
  right
  refine ⟨page.toNat / 4096, hpage, ?_, hle, ?_, by unfold frameLimit; omega, ?_⟩
  · intro h0
    apply hzero
    rw [hpage, h0]
    rfl
  · exact fun hfree => by simp [hfree.2] at hbit
  · simp [freePage, hzero, halign, not_lt.mpr hle, hbit]

@[simp] theorem freePage_highestPage (pmm : Pmm) (page : Word) :
    (freePage pmm page).highestPage = pmm.highestPage := by
  rcases freePage_cases pmm page with h | ⟨i, -, -, -, -, -, h⟩ <;> rw [h]

/-- Frames that are free stay free, and at most the named frame becomes free. -/
theorem free_freePage {pmm : Pmm} {page : Word} {f : ℕ} :
    (freePage pmm page).Free f ↔
      pmm.Free f ∨ (page = frameAddr f ∧ f < frameLimit ∧ f ≠ 0 ∧ f ≤ pmm.highestPage) := by
  constructor
  · intro hfree
    rcases freePage_cases pmm page with h | ⟨i, hi, hne, hle, -, hlim, h⟩
    · exact Or.inl (h ▸ hfree)
    · rw [h] at hfree
      by_cases hfi : f = i
      · exact Or.inr ⟨hfi ▸ hi, hfi ▸ hlim, hfi ▸ hne, hfi ▸ hle⟩
      · exact Or.inl ⟨hfree.1, by simpa [hfi] using hfree.2⟩
  · rintro (hfree | ⟨hpage, hlim, hne, hle⟩)
    · rcases freePage_cases pmm page with h | ⟨i, -, -, -, -, -, h⟩
      · exact h.symm ▸ hfree
      · rw [h]
        exact ⟨hfree.1, by simp [hfree.2]⟩
    · by_cases hfree : pmm.Free f
      · rcases freePage_cases pmm page with h | ⟨i, -, -, -, -, -, h⟩
        · exact h.symm ▸ hfree
        · rw [h]
          exact ⟨hfree.1, by simp [hfree.2]⟩
      · rw [hpage, freePage_frameAddr hlim hne hle hfree]
        exact ⟨hle, by simp⟩

@[simp] theorem Machine.freePage_pmm (s : Machine) (page : Word) :
    (s.freePage page).pmm = Page.freePage s.pmm page := rfl

@[simp] theorem Machine.freePage_mem (s : Machine) (page : Word) :
    (s.freePage page).mem = s.mem := rfl

theorem Machine.Valid.freePage {hh : Word} {s : Machine} (h : s.Valid hh) (page : Word) :
    (s.freePage page).Valid hh := by
  refine h.of_free (freePage_highestPage s.pmm page) fun hfree => ?_
  rcases free_freePage.mp hfree with hfree | ⟨-, -, hne, -⟩
  · exact h.zero_used hfree
  · exact hne rfl

end Osiris.Page
