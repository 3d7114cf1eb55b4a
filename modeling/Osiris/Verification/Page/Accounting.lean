import Osiris.Verification.Page.Books
import Osiris.Verification.Page.Bounds
import Osiris.Verification.Page.Ownership

/-! # The page counters over whole runs -/

namespace Osiris.Page

open ByteMemory

/-! ## Runs of calls with arbitrary arguments -/

inductive Call where
  | allocatePage
  | freePage (page : Word)
deriving DecidableEq, Repr

/-- The state after a call. -/
def Machine.call (hh : Word) (s : Machine) : Call → Machine
  | .allocatePage => (Page.allocatePage hh s).2
  | .freePage page => s.freePage page

/-- The state after a sequence of calls. -/
def Machine.calls (hh : Word) (s : Machine) (history : List Call) : Machine :=
  history.foldl (Machine.call hh) s

theorem balanced_call (hh : Word) (s : Machine) (c : Call) : s.pmm.Balanced (s.call hh c).pmm := by
  cases c with
  | allocatePage =>
      cases allocatePage_cases hh s with
      | inl hfail =>
          rw [Machine.call, hfail.1]
          exact Pmm.Balanced.refl s.pmm
      | inr hok =>
          obtain ⟨i, hfree, -, heq⟩ := hok
          rw [Machine.call, heq]
          exact balanced_take hh hfree
  | freePage page => exact balanced_freePage s.pmm page

theorem balanced_calls (hh : Word) (s : Machine) (history : List Call) :
    s.pmm.Balanced (s.calls hh history).pmm := by
  apply List.foldlRecOn history (Machine.call hh) (motive := fun s' => s.pmm.Balanced s'.pmm)
  · exact Pmm.Balanced.refl s.pmm
  · exact fun s' hs' c _ => hs'.trans (balanced_call hh s' c)

/-! ## The counters during initialisation -/

/-- The bitmap says in use of every frame that is not managed. -/
def Pmm.SetAbove (pmm : Pmm) : Prop :=
  ∀ i, pmm.highestPage < i → pmm.memoryBitmap.get i = true

/-- While pages are released, `total_ram_pages` counts the clear bits. -/
structure Pmm.CountsTotal (pmm : Pmm) : Prop where
  total : pmm.totalRamPages = BitVec.ofNat 64 pmm.freeFrames.card
  above : pmm.SetAbove

/-- From then on `free_pages` does. -/
structure Pmm.CountsFree (pmm : Pmm) : Prop where
  free : pmm.freePages = BitVec.ofNat 64 pmm.freeFrames.card
  above : pmm.SetAbove

theorem releasePage_cases (pmm : Pmm) (i : ℕ) :
    releasePage pmm i = pmm ∨
      (i ≤ pmm.highestPage ∧ ¬ pmm.Free i ∧
        releasePage pmm i =
          { pmm with
            memoryBitmap := pmm.memoryBitmap.clear i
            totalRamPages := pmm.totalRamPages + 1#64 }) := by
  unfold releasePage
  split
  · rename_i hle
    split
    · rename_i hbit
      exact Or.inr ⟨hle, fun hfree => by simp [hfree.2] at hbit, rfl⟩
    · exact Or.inl rfl
  · exact Or.inl rfl

theorem reservePage_cases (pmm : Pmm) (i : ℕ) :
    reservePage pmm i = pmm ∨
      (pmm.Free i ∧
        reservePage pmm i =
          { pmm with
            memoryBitmap := pmm.memoryBitmap.set i
            freePages := pmm.freePages - 1#64 }) := by
  unfold reservePage
  split
  · rename_i hle
    cases hbit : pmm.memoryBitmap.get i with
    | false => exact Or.inr ⟨⟨hle, hbit⟩, rfl⟩
    | true =>
        left
        rw [Bitmap.set_of_get hbit]
        rfl
  · exact Or.inl rfl

theorem Pmm.CountsTotal.releasePage {pmm : Pmm} (h : pmm.CountsTotal) (i : ℕ) :
    (releasePage pmm i).CountsTotal := by
  have hfree := free_releasePage pmm i
  cases releasePage_cases pmm i with
  | inl hsame =>
      rw [hsame]
      exact h
  | inr hcleared =>
      obtain ⟨hle, hused, heq⟩ := hcleared
      have hcard : (Page.releasePage pmm i).freeFrames.card = pmm.freeFrames.card + 1 := by
        refine card_freeFrames_clear hused fun f => (hfree f).trans (or_congr_right ?_)
        exact ⟨And.left, fun hf => ⟨hf, hf ▸ hle⟩⟩
      constructor
      · rw [hcard, BitVec.ofNat_add, ← h.total, heq]
      · rw [heq]
        intro j hj
        have hji : j ≠ i := fun hji => absurd hle (not_le.mpr (hji ▸ hj))
        simp [hji, h.above j hj]

theorem Pmm.CountsFree.reservePage {pmm : Pmm} (h : pmm.CountsFree) (i : ℕ) :
    (reservePage pmm i).CountsFree := by
  have hfree := free_reservePage pmm i
  cases reservePage_cases pmm i with
  | inl hsame =>
      rw [hsame]
      exact h
  | inr htaken =>
      obtain ⟨hi, heq⟩ := htaken
      have hcard := card_freeFrames_set hi hfree
      have hcast : BitVec.ofNat 64 pmm.freeFrames.card =
          BitVec.ofNat 64 (Page.reservePage pmm i).freeFrames.card + 1#64 := by
        rw [← hcard, BitVec.ofNat_add]
      constructor
      · apply add_right_cancel (b := 1#64)
        rw [← hcast, ← h.free, heq]
        ring
      · rw [heq]
        intro j hj
        simp [h.above j hj]

theorem releaseAll_countsTotal (entries : List MemmapEntry) :
    (releaseAll entries).CountsTotal := by
  apply List.foldlRecOn (motive := Pmm.CountsTotal)
  · constructor
    · have hempty : Pmm.freeFrames
          { memoryBitmap := fun _ => 0xFF#8
            highestPage := clampedHighestPage entries
            usedPages := 0#64
            freePages := 0#64
            totalRamPages := 0#64 } = ∅ :=
        Finset.eq_empty_of_forall_notMem fun f hf =>
          not_free_of_full_bitmap rfl f (mem_freeFrames.mp hf)
      rw [hempty]
      rfl
    · exact fun i _ => get_full_byte i
  · intro pmm hpmm entry _
    exact List.foldlRecOn (motive := Pmm.CountsTotal) _ _ hpmm fun pmm h i _ => h.releasePage i

theorem foldl_reservePage_countsFree {pmm : Pmm} (h : pmm.CountsFree) (pages : List ℕ) :
    (pages.foldl reservePage pmm).CountsFree :=
  List.foldlRecOn (motive := Pmm.CountsFree) _ _ h fun _ hpmm i _ => hpmm.reservePage i

theorem reserveAll_countsFree (kaddr : KernelAddress) (image : KernelImage) {pmm : Pmm}
    (h : pmm.CountsFree) : (reserveAll kaddr image pmm).CountsFree :=
  foldl_reservePage_countsFree
    (foldl_reservePage_countsFree (foldl_reservePage_countsFree h _) _) _

theorem Pmm.CountsTotal.countFree {pmm : Pmm} (h : pmm.CountsTotal) : pmm.countFree.CountsFree :=
  ⟨h.total, h.above⟩

theorem Pmm.CountsFree.countUsed {pmm : Pmm} (h : pmm.CountsFree) : pmm.countUsed.CountsFree :=
  ⟨h.free, h.above⟩

/-- After `pmm_init` the counter of free pages is right. -/
theorem initTables_countsFree (entries : List MemmapEntry) (kaddr : KernelAddress)
    (image : KernelImage) : (initTables entries kaddr image).CountsFree := by
  unfold initTables
  apply Pmm.CountsFree.countUsed
  apply reserveAll_countsFree
  exact (releaseAll_countsTotal entries).countFree

theorem Pmm.countUsed_used_add_free (pmm : Pmm) :
    pmm.countUsed.usedPages + pmm.countUsed.freePages = pmm.countUsed.totalRamPages :=
  sub_add_cancel pmm.totalRamPages pmm.freePages

theorem initTables_used_add_free (entries : List MemmapEntry) (kaddr : KernelAddress)
    (image : KernelImage) :
    (initTables entries kaddr image).usedPages + (initTables entries kaddr image).freePages =
      (initTables entries kaddr image).totalRamPages := by
  unfold initTables
  exact Pmm.countUsed_used_add_free _

/-! ## The counters over a run -/

/-- Everything the counters and the bitmap promise together. -/
structure Pmm.Exact (pmm : Pmm) : Prop where
  capacity : pmm.highestPage < 8 * pmmBitmapSize
  free : pmm.freePages = BitVec.ofNat 64 pmm.freeFrames.card
  used : pmm.usedPages + pmm.freePages = pmm.totalRamPages
  above : pmm.SetAbove

theorem initTables_exact (entries : List MemmapEntry) (kaddr : KernelAddress)
    (image : KernelImage) : (initTables entries kaddr image).Exact := by
  have hcounts := initTables_countsFree entries kaddr image
  have hclamp := clampedHighestPage_lt entries
  refine ⟨?_, hcounts.free, initTables_used_add_free entries kaddr image, hcounts.above⟩
  rw [(initTables_spec entries kaddr image).1]
  omega

theorem Pmm.Exact.of_balanced {pmm pmm' : Pmm} (h : pmm.Exact) (hbal : pmm.Balanced pmm') :
    pmm'.Exact := by
  have hfree : pmm'.freePages = BitVec.ofNat 64 pmm'.freeFrames.card := by
    have heq := hbal.free
    rw [h.free, add_comm] at heq
    exact add_left_cancel heq
  refine ⟨hbal.highest ▸ h.capacity, hfree, ?_, fun i hi => ?_⟩
  · rw [hfree, hbal.used, hbal.total, ← h.free, h.used]
  · rw [hbal.highest] at hi
    rw [hbal.above i hi, h.above i hi]

theorem Pmm.card_freeFrames_le (pmm : Pmm) : pmm.freeFrames.card ≤ pmm.highestPage + 1 := by
  unfold Pmm.freeFrames
  exact (Finset.card_filter_le _ _).trans (Finset.card_range _).le

theorem Pmm.Exact.toNat_freePages {pmm : Pmm} (h : pmm.Exact) :
    pmm.freePages.toNat = pmm.freeFrames.card := by
  have hcard := pmm.card_freeFrames_le
  have hcap := h.capacity
  unfold pmmBitmapSize at hcap
  rw [h.free, BitVec.toNat_ofNat, Nat.mod_eq_of_lt (by omega)]

/-- The checks that `free_page` makes before it touches anything. -/
def Rejects (pmm : Pmm) (page : Word) : Prop :=
  page = 0#64 ∨ page.toNat % 4096 ≠ 0 ∨ page.toNat / 4096 > pmm.highestPage ∨
    pmm.memoryBitmap.get (page.toNat / 4096) = false

theorem freePage_of_rejects {pmm : Pmm} {page : Word} (h : Rejects pmm page) :
    freePage pmm page = pmm := by
  cases freePage_cases pmm page with
  | inl hsame => exact hsame
  | inr hcleared =>
      obtain ⟨i, hi, hne, hle, hused, hlim, -⟩ := hcleared
      have haddr := toNat_frameAddr hlim
      rw [← hi] at haddr
      have hindex : page.toNat / 4096 = i := by omega
      unfold Rejects at h
      rw [hindex] at h
      rcases h with hzero | halign | hrange | hbit
      · rw [hzero] at haddr
        simp at haddr
        omega
      · omega
      · omega
      · exact absurd ⟨hle, hbit⟩ hused

/-- In every run from `pmm_init` the counters agree with the bitmap, the bitmap never leaves its
array, and a rejected `free_page` is as if it had not been called. -/
theorem free_frame_accounting (hh : Word) (entries : List MemmapEntry) (kaddr : KernelAddress)
    (image : KernelImage) (pmm : Pmm) (hinit : pmmInit (some entries) (some kaddr) image = .ok pmm)
    (mem : Mem) (history : List Call) :
    let s := Machine.calls hh ⟨pmm, mem⟩ history
    s.pmm.freePages.toNat =
        ((Finset.range (s.pmm.highestPage + 1)).filter
          fun f => s.pmm.memoryBitmap.get f = false).card ∧
      s.pmm.usedPages + s.pmm.freePages = s.pmm.totalRamPages ∧
      (∀ i, s.pmm.highestPage < i → i < 8 * pmmBitmapSize → s.pmm.memoryBitmap.get i = true) ∧
      Checked.initTables entries kaddr image = some pmm ∧
      Checked.allocatePage hh s = some (allocatePage hh s) ∧
      (∀ page, Checked.freePage s.pmm page = some (freePage s.pmm page)) ∧
      ∀ page, Rejects s.pmm page → s.freePage page = s := by
  intro s
  have hstart : pmm.Exact := pmmInit_ok hinit ▸ initTables_exact entries kaddr image
  have hexact : s.pmm.Exact := hstart.of_balanced (balanced_calls hh ⟨pmm, mem⟩ history)
  refine ⟨hexact.toNat_freePages, hexact.used, fun i hi _ => hexact.above i hi, ?_,
    Checked.allocatePage_eq hh hexact.capacity, Checked.freePage_eq hexact.capacity,
    fun page hpage => ?_⟩
  · rw [Checked.initTables_eq, pmmInit_ok hinit]
  · unfold Machine.freePage
    rw [freePage_of_rejects hpage]

theorem free_frame_accounting_smallMap :
    let s := Machine.calls directMap ⟨initTables smallMap smallKernel smallImage, fun _ => 0xAA#8⟩
      [.freePage 0x1000#64, .allocatePage, .freePage 0x1001#64]
    s.pmm.usedPages + s.pmm.freePages = s.pmm.totalRamPages :=
  (free_frame_accounting directMap smallMap smallKernel smallImage _ rfl (fun _ => 0xAA#8)
    [.freePage 0x1000#64, .allocatePage, .freePage 0x1001#64]).2.1

end Osiris.Page
