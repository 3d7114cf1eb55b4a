import Osiris.Verification.Page.Accounting

/-! # Reserved frames

The bitmap has one bit for each frame, so `free_page` cannot tell a frame that was handed out from
one that `pmm_init` kept back. A reserved frame enters circulation only if it is named. -/

namespace Osiris.Page

open ByteMemory

/-! ## What a run hands out -/

/-- The pages handed out and not given back since, over a history that starts with `out`. -/
def handedOut (hh : Word) : Machine → List Word → List Call → List Word
  | _, out, [] => out
  | s, out, .allocatePage :: rest =>
      let page := (allocatePage hh s).1
      handedOut hh (s.call hh .allocatePage) (if page = 0#64 then out else page :: out) rest
  | s, out, .freePage page :: rest =>
      handedOut hh (s.call hh (.freePage page)) (out.erase page) rest

/-- The address of a managed frame that `pmm_init` left marked as used. -/
def Reserved (pmm : Pmm) (page : Word) : Prop :=
  page ≠ 0#64 ∧ page.toNat % 4096 = 0 ∧ page.toNat / 4096 ≤ pmm.highestPage ∧
    pmm.memoryBitmap.get (page.toNat / 4096) = true

theorem reserved_frameAddr {pmm : Pmm} {f : ℕ} (hlim : f < frameLimit) (hne : f ≠ 0)
    (hle : f ≤ pmm.highestPage) (hused : ¬ pmm.Free f) : Reserved pmm (frameAddr f) := by
  have haddr := toNat_frameAddr hlim
  have hindex : (frameAddr f).toNat / 4096 = f := by omega
  refine ⟨frameAddr_ne_zero hlim hne, by omega, by omega, ?_⟩
  rw [hindex]
  by_contra hbit
  exact hused ⟨hle, by simpa using hbit⟩

/-- A call makes no frame free but the one it names. -/
theorem free_of_free_call {hh : Word} {s : Machine} {c : Call} {f : ℕ}
    (h : (s.call hh c).pmm.Free f) :
    s.pmm.Free f ∨
      (c = .freePage (frameAddr f) ∧ f < frameLimit ∧ f ≠ 0 ∧ f ≤ s.pmm.highestPage) := by
  cases c with
  | allocatePage =>
      left
      cases allocatePage_cases hh s with
      | inl hfail =>
          rw [Machine.call, hfail.1] at h
          exact h
      | inr hok =>
          obtain ⟨i, -, -, heq⟩ := hok
          rw [Machine.call, heq] at h
          exact ((free_take hh s i f).mp h).1
  | freePage page =>
      cases free_freePage.mp h with
      | inl hfree => exact Or.inl hfree
      | inr hnamed => exact Or.inr ⟨by rw [hnamed.1], hnamed.2⟩

/-- Over a run, a frame is free that was free at the start or has been named since. -/
theorem free_of_free_calls {hh : Word} {start : Machine} {history : List Call} {f : ℕ}
    (h : (start.calls hh history).pmm.Free f) :
    start.pmm.Free f ∨
      (.freePage (frameAddr f) ∈ history ∧ f < frameLimit ∧ f ≠ 0 ∧ f ≤ start.pmm.highestPage) := by
  induction history using List.reverseRecOn generalizing f with
  | nil => exact Or.inl h
  | append_singleton history c ih =>
      have hhighest := (balanced_calls hh start history).highest
      rw [Machine.calls, List.foldl_append, List.foldl_cons, List.foldl_nil] at h
      cases free_of_free_call h with
      | inl hfree =>
          refine (ih hfree).imp_right fun hnamed => ⟨?_, hnamed.2⟩
          exact List.mem_append_left _ hnamed.1
      | inr hnamed =>
          obtain ⟨hc, hlim, hne, hle⟩ := hnamed
          refine Or.inr ⟨?_, hlim, hne, hhighest ▸ hle⟩
          rw [hc]
          exact List.mem_append_right _ (List.mem_singleton_self _)

/-- A frame that was free at the start is still free, or has been handed out. -/
theorem free_or_handedOut (hh : Word) {pmm : Pmm} (hzero : ¬ pmm.Free 0)
    (hcap : pmm.highestPage < frameLimit) (history : List Call) (s : Machine) (out : List Word)
    (hhighest : s.pmm.highestPage = pmm.highestPage)
    (hstart : ∀ f, pmm.Free f → s.pmm.Free f ∨ frameAddr f ∈ out) {f : ℕ} (hf : pmm.Free f) :
    (s.calls hh history).pmm.Free f ∨ frameAddr f ∈ handedOut hh s out history := by
  induction history generalizing s out with
  | nil => exact hstart f hf
  | cons c rest ih =>
      have hne : ∀ f, pmm.Free f → f ≠ 0 := fun f hf h0 => hzero (h0 ▸ hf)
      have hlim : ∀ f, pmm.Free f → f < frameLimit := fun f hf => lt_of_le_of_lt hf.1 hcap
      have hhighest' := (balanced_call hh s c).highest.trans hhighest
      cases c with
      | allocatePage =>
          refine ih _ _ hhighest' fun g hg => ?_
          cases allocatePage_cases hh s with
          | inl hfail =>
              rw [Machine.call, hfail.1, if_pos rfl]
              exact hstart g hg
          | inr hok =>
              obtain ⟨i, hi, -, heq⟩ := hok
              rw [Machine.call, heq, free_take]
              by_cases hgi : g = i
              · right
                rw [← hgi, if_neg (frameAddr_ne_zero (hlim g hg) (hne g hg))]
                exact List.mem_cons_self
              · refine (hstart g hg).imp (fun hfree => ⟨hfree, hgi⟩) fun hout => ?_
                split
                · exact hout
                · exact List.mem_cons_of_mem _ hout
      | freePage page =>
          refine ih _ _ hhighest' fun g hg => ?_
          by_cases hpage : page = frameAddr g
          · left
            exact free_freePage.mpr (Or.inr ⟨hpage, hlim g hg, hne g hg, hhighest.symm ▸ hg.1⟩)
          · cases hstart g hg with
            | inl hfree => exact Or.inl (free_freePage.mpr (Or.inl hfree))
            | inr hout => exact Or.inr ((List.mem_erase_of_ne (Ne.symm hpage)).mpr hout)

/-! ## The counters -/

@[simp] theorem countFree_totalRamPages (pmm : Pmm) :
    pmm.countFree.totalRamPages = pmm.totalRamPages := rfl

@[simp] theorem countUsed_totalRamPages (pmm : Pmm) :
    pmm.countUsed.totalRamPages = pmm.totalRamPages := rfl

theorem foldl_reservePage_totalRamPages (pages : List ℕ) (pmm : Pmm) :
    (pages.foldl reservePage pmm).totalRamPages = pmm.totalRamPages := by
  induction pages generalizing pmm with
  | nil => rfl
  | cons i pages ih =>
      rw [List.foldl_cons, ih]
      cases reservePage_cases pmm i with
      | inl hsame => rw [hsame]
      | inr htaken => rw [htaken.2]

/-- `total_ram_pages` counts the frames of free memory, whether they were taken back or not. -/
theorem initTables_totalRamPages (entries : List MemmapEntry) (kaddr : KernelAddress)
    (image : KernelImage) :
    (initTables entries kaddr image).totalRamPages =
      BitVec.ofNat 64 (releaseAll entries).freeFrames.card := by
  unfold initTables reserveAll
  rw [countUsed_totalRamPages, foldl_reservePage_totalRamPages, foldl_reservePage_totalRamPages,
    foldl_reservePage_totalRamPages, countFree_totalRamPages,
    (releaseAll_countsTotal entries).total]

theorem initTables_freeFrames_subset (entries : List MemmapEntry) (kaddr : KernelAddress)
    (image : KernelImage) :
    (initTables entries kaddr image).freeFrames ⊆ (releaseAll entries).freeFrames := by
  intro f hf
  rw [mem_freeFrames, (initTables_spec entries kaddr image).2] at hf
  rw [mem_freeFrames, (releaseAll_spec entries).2]
  exact hf.1

/-- Counters that add up do not wrap around while no more frames are free than there are. -/
theorem Pmm.Exact.counters_le {pmm : Pmm} (h : pmm.Exact) {frames : Finset ℕ}
    (htotal : pmm.totalRamPages = BitVec.ofNat 64 frames.card) (hsubset : pmm.freeFrames ⊆ frames)
    (hroom : frames.card < 2 ^ 64) :
    pmm.usedPages ≤ pmm.totalRamPages ∧ pmm.freePages ≤ pmm.totalRamPages := by
  have hcard := Finset.card_le_card hsubset
  have hfree := h.toNat_freePages
  have hused := h.used
  have hnat : pmm.totalRamPages.toNat = frames.card := by
    rw [htotal, BitVec.toNat_ofNat, Nat.mod_eq_of_lt hroom]
  constructor <;> bv_omega

/-! ## Whole runs -/

/-- The address of a frame that is in use and was not reserved at the start has been handed
out. -/
theorem rejects_of_not_handedOut {hh : Word} {pmm : Pmm} {mem : Mem} (hzero : ¬ pmm.Free 0)
    (hcap : pmm.highestPage < frameLimit) {history : List Call} {page : Word}
    (hreserved : ¬ Reserved pmm page) (hout : page ∉ handedOut hh ⟨pmm, mem⟩ [] history) :
    freePage (Machine.calls hh ⟨pmm, mem⟩ history).pmm page =
      (Machine.calls hh ⟨pmm, mem⟩ history).pmm := by
  have hhighest := (balanced_calls hh ⟨pmm, mem⟩ history).highest
  cases freePage_cases (Machine.calls hh ⟨pmm, mem⟩ history).pmm page with
  | inl hsame => exact hsame
  | inr hcleared =>
      obtain ⟨i, hi, hne, hle, hused, hlim, -⟩ := hcleared
      rw [hhighest] at hle
      have hfree : pmm.Free i := by
        by_contra hset
        exact hreserved (hi ▸ reserved_frameAddr hlim hne hle hset)
      have hcases := free_or_handedOut hh hzero hcap history ⟨pmm, mem⟩ [] rfl
        (fun _ hf => Or.inl hf) hfree
      cases hcases with
      | inl hnow => exact absurd hnow hused
      | inr hmem => exact absurd (hi ▸ hmem) hout

/-- A frame that was not free at the start is handed out only after `free_page` has named it. -/
theorem named_of_allocatePage {hh : Word} {pmm : Pmm} {mem : Mem}
    (hcap : pmm.highestPage < frameLimit) {history : List Call}
    (hne : (allocatePage hh (Machine.calls hh ⟨pmm, mem⟩ history)).1 ≠ 0#64)
    (hbit : pmm.memoryBitmap.get
      ((allocatePage hh (Machine.calls hh ⟨pmm, mem⟩ history)).1.toNat / 4096) = true) :
    .freePage (allocatePage hh (Machine.calls hh ⟨pmm, mem⟩ history)).1 ∈ history := by
  have hhighest := (balanced_calls hh ⟨pmm, mem⟩ history).highest
  cases allocatePage_cases hh (Machine.calls hh ⟨pmm, mem⟩ history) with
  | inl hfail =>
      rw [hfail.1] at hne
      exact absurd rfl hne
  | inr hok =>
      obtain ⟨i, hi, -, heq⟩ := hok
      have hlim : i < frameLimit := lt_of_le_of_lt (hhighest ▸ hi.1) hcap
      rw [heq]
      rw [heq, toNat_frameAddr hlim, Nat.mul_div_cancel i (by norm_num)] at hbit
      cases free_of_free_calls hi with
      | inl hfree =>
          rw [hfree.2] at hbit
          exact absurd hbit (by simp)
      | inr hmem => exact hmem.1

/-- Where no reserved frame is named, only frames that were free at the start are ever free. -/
theorem freeFrames_subset_of_unnamed {hh : Word} {pmm : Pmm} {mem : Mem} {history : List Call}
    (hnamed : ∀ page, .freePage page ∈ history → ¬ Reserved pmm page) :
    (Machine.calls hh ⟨pmm, mem⟩ history).pmm.freeFrames ⊆ pmm.freeFrames := by
  intro f hf
  rw [mem_freeFrames]
  by_contra hused
  cases free_of_free_calls (mem_freeFrames.mp hf) with
  | inl hfree => exact hused hfree
  | inr hmem =>
      obtain ⟨hmem, hlim, hne, hle⟩ := hmem
      exact hnamed _ hmem (reserved_frameAddr hlim hne hle hused)

theorem card_releaseAll_lt (entries : List MemmapEntry) :
    (releaseAll entries).freeFrames.card < 2 ^ 64 := by
  have hcard := (releaseAll entries).card_freeFrames_le
  have hclamp := clampedHighestPage_lt entries
  rw [(releaseAll_spec entries).1] at hcard
  unfold pmmBitmapSize at hclamp
  omega

/-- A reserved frame is handed out only after `free_page` was called with it, and until then no
counter wraps around; of the other frames `free_page` takes back only those handed out. -/
theorem reserved_frames_need_naming (hh : Word) (entries : List MemmapEntry)
    (kaddr : KernelAddress) (image : KernelImage) (pmm : Pmm)
    (hinit : pmmInit (some entries) (some kaddr) image = .ok pmm) (mem : Mem)
    (history : List Call) :
    let s := Machine.calls hh ⟨pmm, mem⟩ history
    ((allocatePage hh s).1 ≠ 0#64 →
        pmm.memoryBitmap.get ((allocatePage hh s).1.toNat / 4096) = true →
        .freePage (allocatePage hh s).1 ∈ history) ∧
      ((∀ page, .freePage page ∈ history → ¬ Reserved pmm page) →
        s.pmm.usedPages ≤ s.pmm.totalRamPages ∧ s.pmm.freePages ≤ s.pmm.totalRamPages) ∧
      ∀ page, ¬ Reserved pmm page → page ∉ handedOut hh ⟨pmm, mem⟩ [] history →
        s.freePage page = s := by
  intro s
  obtain rfl := pmmInit_ok hinit
  have hstart := initTables_exact entries kaddr image
  have hbal := balanced_calls hh ⟨initTables entries kaddr image, mem⟩ history
  have hcap := initTables_highestPage_lt entries kaddr image
  have hzero := initTables_zero_used entries kaddr image
  refine ⟨named_of_allocatePage hcap, fun hnamed => ?_, fun page hpage hout => ?_⟩
  · have hsubset : s.pmm.freeFrames ⊆ (releaseAll entries).freeFrames :=
      (freeFrames_subset_of_unnamed hnamed).trans
        (initTables_freeFrames_subset entries kaddr image)
    have htotal : s.pmm.totalRamPages = BitVec.ofNat 64 (releaseAll entries).freeFrames.card := by
      rw [hbal.total, initTables_totalRamPages]
    exact (hstart.of_balanced hbal).counters_le htotal hsubset (card_releaseAll_lt entries)
  · unfold Machine.freePage
    rw [rejects_of_not_handedOut hzero hcap hpage hout]

theorem reserved_frames_need_naming_smallMap :
    let s := Machine.calls directMap ⟨initTables smallMap smallKernel smallImage, fun _ => 0xAA#8⟩
      [.allocatePage, .freePage 0x1001#64]
    s.pmm.usedPages ≤ s.pmm.totalRamPages ∧ s.pmm.freePages ≤ s.pmm.totalRamPages := by
  refine (reserved_frames_need_naming directMap smallMap smallKernel smallImage _ rfl
    (fun _ => 0xAA#8) [.allocatePage, .freePage 0x1001#64]).2.1 fun page hpage => ?_
  have heq : page = 0x1001#64 := by simpa using hpage
  rw [heq]
  exact fun hreserved => absurd hreserved.2.1 (by decide)

/-- A machine whose memory map has no free memory at all. -/
def deviceMap : List MemmapEntry :=
  [⟨0#64, 0x200000#64, .other 1#64⟩]

theorem deviceMap_freeFrames : (releaseAll deviceMap).freeFrames = ∅ := by
  refine Finset.eq_empty_of_forall_notMem fun f hf => ?_
  rw [mem_freeFrames, (releaseAll_spec deviceMap).2] at hf
  obtain ⟨⟨entry, hentry, hpages⟩, -⟩ := hf
  rw [deviceMap, List.mem_singleton] at hentry
  rw [hentry] at hpages
  simp [entryPages] at hpages

/-- The second frame is reserved, and `free_page` makes it free. -/
theorem free_second_frame {entries : List MemmapEntry} (hle : 1 ≤ clampedHighestPage entries) :
    (initTables entries smallKernel smallImage).memoryBitmap.get 1 = true ∧
      (freePage (initTables entries smallKernel smallImage) 0x1000#64).Free 1 := by
  obtain ⟨hhighest, hfree⟩ := initTables_spec entries smallKernel smallImage
  rw [← hhighest] at hle
  constructor
  · by_contra hclear
    have hlow := (hfree 1).mp ⟨hle, by simpa using hclear⟩
    exact hlow.2.2.2 (mem_pageRange.mpr (by decide))
  · exact free_freePage.mpr (Or.inr ⟨rfl, by unfold frameLimit; norm_num, by norm_num, hle⟩)

theorem calls_freePage (hh : Word) (s : Machine) (page : Word) :
    (s.calls hh [.freePage page]).pmm = freePage s.pmm page := rfl

/-- `free_page` takes a frame of the first mebibyte, and the next `allocate_page` returns it; where
there is no memory to count, the counters leave their range. -/
theorem reserved_frame_circulates :
    (initTables smallMap smallKernel smallImage).memoryBitmap.get 1 = true ∧
      (allocatePage directMap (Machine.calls directMap
        ⟨initTables smallMap smallKernel smallImage, fun _ => 0xAA#8⟩
        [.freePage 0x1000#64])).1 = 0x1000#64 ∧
      (freePage (initTables deviceMap smallKernel smallImage) 0x1000#64).freePages >
        (freePage (initTables deviceMap smallKernel smallImage) 0x1000#64).totalRamPages := by
  obtain ⟨hset, hfree⟩ := free_second_frame (show 1 ≤ clampedHighestPage smallMap by decide)
  refine ⟨hset, ?_, ?_⟩
  · have hzero : ¬ (freePage (initTables smallMap smallKernel smallImage) 0x1000#64).Free 0 := by
      intro hnull
      cases free_freePage.mp hnull with
      | inl hstart => exact initTables_zero_used smallMap smallKernel smallImage hstart
      | inr hnamed => exact hnamed.2.2.1 rfl
    have hcalls := calls_freePage directMap
      ⟨initTables smallMap smallKernel smallImage, fun _ => 0xAA#8⟩ 0x1000#64
    rw [← hcalls] at hfree hzero
    cases allocatePage_cases directMap (Machine.calls directMap
        ⟨initTables smallMap smallKernel smallImage, fun _ => 0xAA#8⟩ [.freePage 0x1000#64]) with
    | inl hfail => exact absurd hfree (hfail.2 1)
    | inr hok =>
        obtain ⟨i, hi, hmin, heq⟩ := hok
        have hpos : i ≠ 0 := fun h0 => hzero (h0 ▸ hi)
        have hle : i ≤ 1 := not_lt.mp fun hlt => hmin 1 hlt hfree
        rw [heq, show i = 1 by omega]
        rfl
  · obtain ⟨-, hfree⟩ := free_second_frame (show 1 ≤ clampedHighestPage deviceMap by decide)
    have hexact := (initTables_exact deviceMap smallKernel smallImage).of_balanced
      (balanced_freePage _ 0x1000#64)
    have hbal := balanced_freePage (initTables deviceMap smallKernel smallImage) 0x1000#64
    have hpos := Finset.card_pos.mpr ⟨1, mem_freeFrames.mpr hfree⟩
    rw [hbal.total, initTables_totalRamPages, deviceMap_freeFrames]
    change (BitVec.ofNat 64 (Finset.card ∅)).toNat < _
    rw [hexact.toNat_freePages]
    exact hpos

end Osiris.Page
