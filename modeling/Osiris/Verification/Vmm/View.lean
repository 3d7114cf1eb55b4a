import Osiris.Library.Radix
import Osiris.Model.VmmMap
import Osiris.Verification.Page.Allocator

/-! # Page tables as a store of labelled edges

A table is a frame read as 512 words. A present entry is an edge to the frame it names, and the
entry itself is the label of the edge. -/

namespace Osiris.Vmm

open ByteMemory Strings Page

/-! ## Entries as words -/

/-- Some bit of `flag` is set in the entry. -/
def HasFlag (entry flag : Word) : Prop :=
  entry &&& flag ≠ 0#64

instance (entry flag : Word) : Decidable (HasFlag entry flag) :=
  inferInstanceAs (Decidable (_ ≠ _))

/-- The frame an entry points to. -/
def frameOf (entry : Word) : ℕ :=
  (pteGetAddr entry).toNat / 4096

theorem hasFlag_or {a b flag : Word} : HasFlag (a ||| b) flag ↔ HasFlag a flag ∨ HasFlag b flag := by
  unfold HasFlag
  rw [BitVec.and_or_distrib_right, Ne, BitVec.or_eq_zero_iff]
  tauto

@[simp] theorem not_hasFlag_zero (flag : Word) : ¬ HasFlag 0#64 flag := by
  simp [HasFlag]

theorem getLsbD_pteAddrMask {i : ℕ} (hi : i < 64) :
    pteAddrMask.getLsbD i = decide (12 ≤ i ∧ i < 52) := by
  have hall : ∀ j : Fin 64, pteAddrMask.getLsbD j = decide (12 ≤ j.val ∧ j.val < 52) := by decide
  exact hall ⟨i, hi⟩

/-- The address field of an entry is a multiple of the page size below `2 ^ 52`. -/
theorem toNat_pteGetAddr (entry : Word) :
    (pteGetAddr entry).toNat = entry.toNat % 2 ^ 52 / 4096 * 4096 := by
  have hshift : pteGetAddr entry = ((entry <<< 12) >>> 24) <<< 12 := by
    apply BitVec.eq_of_getLsbD_eq
    intro i hi
    unfold pteGetAddr
    rw [BitVec.getLsbD_and, getLsbD_pteAddrMask hi, BitVec.getLsbD_shiftLeft,
      BitVec.getLsbD_ushiftRight, BitVec.getLsbD_shiftLeft]
    by_cases hlow : 12 ≤ i
    · by_cases hhigh : i < 52
      · have hidx : 24 + (i - 12) - 12 = i := by omega
        simp [hlow, hhigh, hi, hidx, show 24 + (i - 12) < 64 by omega, show ¬ i < 12 by omega,
          show ¬ 24 + (i - 12) < 12 by omega]
      · simp [hlow, hhigh, show ¬ 24 + (i - 12) < 64 by omega]
    · simp [hlow, show i < 12 by omega]
  have hlt := entry.isLt
  rw [hshift, BitVec.toNat_shiftLeft, BitVec.toNat_ushiftRight, BitVec.toNat_shiftLeft,
    Nat.shiftRight_eq_div_pow, Nat.shiftLeft_eq, Nat.shiftLeft_eq]
  omega

theorem frameOf_lt (entry : Word) : frameOf entry < 2 ^ 40 := by
  unfold frameOf
  rw [toNat_pteGetAddr]
  omega

theorem frameOf_lt_limit (entry : Word) : frameOf entry < frameLimit :=
  lt_trans (frameOf_lt entry) (by unfold frameLimit; norm_num)

theorem pteGetAddr_eq_frameAddr (entry : Word) : pteGetAddr entry = frameAddr (frameOf entry) := by
  apply BitVec.eq_of_toNat_eq
  rw [toNat_frameAddr (frameOf_lt_limit entry)]
  unfold frameOf
  rw [toNat_pteGetAddr]
  omega

theorem limit_of_lt {f : ℕ} (hf : f < 2 ^ 40) : f < frameLimit :=
  lt_trans hf (by unfold frameLimit; norm_num)

@[simp] theorem pteGetAddr_frameAddr {f : ℕ} (hf : f < 2 ^ 40) :
    pteGetAddr (frameAddr f) = frameAddr f := by
  apply BitVec.eq_of_toNat_eq
  rw [toNat_pteGetAddr, toNat_frameAddr (limit_of_lt hf)]
  omega

theorem pteGetAddr_or (a b : Word) : pteGetAddr (a ||| b) = pteGetAddr a ||| pteGetAddr b := by
  unfold pteGetAddr
  rw [BitVec.and_or_distrib_right]

/-- An entry made of a frame address and flags outside the address field points to the frame. -/
theorem pteGetAddr_frameAddr_or {f : ℕ} (hf : f < 2 ^ 40) {flags : Word}
    (hflags : pteGetAddr flags = 0#64) : pteGetAddr (frameAddr f ||| flags) = frameAddr f := by
  rw [pteGetAddr_or, pteGetAddr_frameAddr hf, hflags, BitVec.or_zero]

theorem frameOf_frameAddr_or {f : ℕ} (hf : f < 2 ^ 40) {flags : Word}
    (hflags : pteGetAddr flags = 0#64) : frameOf (frameAddr f ||| flags) = f := by
  unfold frameOf
  rw [pteGetAddr_frameAddr_or hf hflags, toNat_frameAddr (limit_of_lt hf)]
  omega

/-! ## Tables in memory -/

/-- Entry `index` of the table in frame `f`. -/
def entry (hh : Word) (m : Mem) (f : ℕ) (index : Index) : Word :=
  readEntry m (frameVirt hh f) index

/-- The edges of the page tables in memory. -/
def link (hh : Word) (m : Mem) : Radix.Store ℕ Index Word := fun f index =>
  if HasFlag (entry hh m f index) ptePresent then
    some (entry hh m f index, frameOf (entry hh m f index))
  else none

theorem inFrame_of_inRange_entry {hh : Word} {f : ℕ} (index : Index) {x : Word}
    (hx : InRange (frameVirt hh f + BitVec.ofNat 64 (8 * index)) 8 x) : InFrame hh f x := by
  obtain ⟨i, hi, rfl⟩ := hx.exists_offset
  have hindex := index.isLt
  rw [add_assoc, ← BitVec.ofNat_add]
  exact inRange_add _ (by omega) (by norm_num)

theorem entry_congr {hh : Word} {m m' : Mem} {f : ℕ} (h : SamePage hh m m' f) (index : Index) :
    entry hh m' f index = entry hh m f index :=
  load64_congr fun x hx => h x (inFrame_of_inRange_entry index hx)

/-- The entries of a table are all of its frame. -/
theorem samePage_of_entry_eq {hh : Word} {m m' : Mem} {f : ℕ}
    (h : ∀ index, entry hh m' f index = entry hh m f index) : SamePage hh m m' f := by
  intro x hx
  obtain ⟨o, ho, rfl⟩ := InRange.exists_offset (show InRange (frameVirt hh f) 4096 x from hx)
  refine eq_of_load64_eq (h ⟨o / 8, by omega⟩) ?_
  have hsplit : frameVirt hh f + BitVec.ofNat 64 o =
      frameVirt hh f + BitVec.ofNat 64 (8 * (o / 8)) + BitVec.ofNat 64 (o % 8) := by
    rw [add_assoc, ← BitVec.ofNat_add, Nat.div_add_mod]
  rw [hsplit]
  exact inRange_add _ (by omega) (by norm_num)

theorem link_congr {hh : Word} {m m' : Mem} {f : ℕ} (h : SamePage hh m m' f) :
    link hh m' f = link hh m f := by
  funext index
  unfold link
  rw [entry_congr h index]

@[simp] theorem entry_writeEntry_same (hh : Word) (m : Mem) (f : ℕ) (index : Index) (v : Word) :
    entry hh (writeEntry m (frameVirt hh f) index v) f index = v :=
  load64_store64_same m _ v

theorem apart_entries (p : Word) {i j : Index} (h : i ≠ j) :
    Apart (p + BitVec.ofNat 64 (8 * i)) 8 (p + BitVec.ofNat 64 (8 * j)) 8 := by
  have hi := i.isLt
  have hj := j.isLt
  have hne : i.val ≠ j.val := fun heq => h (Fin.ext heq)
  intro x hx hy
  obtain ⟨a, ha, rfl⟩ := hx.exists_offset
  obtain ⟨b, hb, hab⟩ := hy.exists_offset
  rw [add_assoc, add_assoc, ← BitVec.ofNat_add, ← BitVec.ofNat_add] at hab
  have hnat := congrArg BitVec.toNat (add_left_cancel hab)
  rw [BitVec.toNat_ofNat, BitVec.toNat_ofNat, Nat.mod_eq_of_lt (by omega),
    Nat.mod_eq_of_lt (by omega)] at hnat
  omega

theorem entry_writeEntry_ne (hh : Word) (m : Mem) (f : ℕ) {index other : Index}
    (h : other ≠ index) (v : Word) :
    entry hh (writeEntry m (frameVirt hh f) index v) f other = entry hh m f other :=
  load64_store64_apart m _ _ v (apart_entries _ h)

theorem samePage_writeEntry {hh : Word} {f g : ℕ} (hf : f < frameLimit) (hg : g < frameLimit)
    (hne : g ≠ f) (m : Mem) (index : Index) (v : Word) :
    SamePage hh m (writeEntry m (frameVirt hh f) index v) g := by
  intro x hx
  refine store64_of_not_inRange m _ v x fun hin => hne ?_
  exact frame_eq_of_inFrame hg hf hx (inFrame_of_inRange_entry index hin)

theorem load64_eq_zero {m : Mem} {a : Word} (h : ∀ x, InRange a 8 x → m x = 0#8) :
    load64 m a = 0#64 := by
  have hzero : load64 m a = load64 (fun _ => 0#8) a := load64_congr h
  rw [hzero]
  simp only [load64]
  decide

/-- A cleared frame is an empty table. -/
theorem entry_of_zero {hh : Word} {m : Mem} {f : ℕ} (h : ∀ x, InFrame hh f x → m x = 0#8)
    (index : Index) : entry hh m f index = 0#64 :=
  load64_eq_zero fun x hx => h x (inFrame_of_inRange_entry index hx)

theorem vmmIsTableEmpty_iff {hh : Word} {m : Mem} {f : ℕ} :
    vmmIsTableEmpty m (frameVirt hh f) = true ↔ ∀ index, entry hh m f index = 0#64 := by
  unfold vmmIsTableEmpty entry
  simp

theorem link_of_present {hh : Word} {m : Mem} {f : ℕ} {index : Index}
    (h : HasFlag (entry hh m f index) ptePresent) :
    link hh m f index = some (entry hh m f index, frameOf (entry hh m f index)) := by
  unfold link
  rw [if_pos h]

theorem link_of_not_present {hh : Word} {m : Mem} {f : ℕ} {index : Index}
    (h : ¬ HasFlag (entry hh m f index) ptePresent) : link hh m f index = none := by
  unfold link
  rw [if_neg h]

theorem link_of_zero {hh : Word} {m : Mem} {f : ℕ} {index : Index}
    (h : entry hh m f index = 0#64) : link hh m f index = none :=
  link_of_not_present (by rw [h]; exact not_hasFlag_zero _)

theorem link_eq_some {hh : Word} {m : Mem} {f g : ℕ} {index : Index} {e : Word} :
    link hh m f index = some (e, g) ↔
      entry hh m f index = e ∧ HasFlag e ptePresent ∧ g = frameOf e := by
  unfold link
  split
  · rename_i h
    simp only [Option.some.injEq, Prod.mk.injEq]
    constructor
    · rintro ⟨rfl, rfl⟩
      exact ⟨rfl, h, rfl⟩
    · rintro ⟨rfl, -, rfl⟩
      exact ⟨rfl, rfl⟩
  · rename_i h
    constructor
    · intro hnone
      simp at hnone
    · rintro ⟨rfl, hp, -⟩
      exact absurd hp h

/-! ## `vmm_get_next_level` -/

theorem vmmGetNextLevel_of_present {hh : Word} {s : Machine} {f : ℕ} {index : Index} {e : Word}
    {g : ℕ} (h : link hh s.mem f index = some (e, g)) (allocate : Bool) (flags : Word) :
    vmmGetNextLevel hh s (frameVirt hh f) index allocate flags = (frameVirt hh g, s) := by
  obtain ⟨rfl, hpresent, rfl⟩ := link_eq_some.mp h
  have hp : readEntry s.mem (frameVirt hh f) index &&& ptePresent ≠ 0#64 := hpresent
  unfold vmmGetNextLevel
  dsimp only
  rw [if_pos hp, pteGetAddr_eq_frameAddr]
  rfl

theorem not_present_of_link {hh : Word} {m : Mem} {f : ℕ} {index : Index}
    (h : link hh m f index = none) :
    ¬ (readEntry m (frameVirt hh f) index &&& ptePresent ≠ 0#64) := by
  intro hp
  have hpresent : HasFlag (entry hh m f index) ptePresent := hp
  rw [link_of_present hpresent] at h
  simp at h

theorem vmmGetNextLevel_of_absent {hh : Word} {s : Machine} {f : ℕ} {index : Index}
    (h : link hh s.mem f index = none) (flags : Word) :
    vmmGetNextLevel hh s (frameVirt hh f) index false flags = (0#64, s) := by
  unfold vmmGetNextLevel
  dsimp only
  rw [if_neg (not_present_of_link h)]
  rfl

/-- The state after a new table in frame `i` has been linked at `index` of the table in `f`. -/
def linkTable (hh : Word) (s : Machine) (f : ℕ) (index : Index) (i : ℕ) (flags : Word) : Machine :=
  { pmm := (s.take hh i).pmm
    mem := writeEntry (memset (s.take hh i).mem (frameVirt hh i) 0#32 4096#32) (frameVirt hh f) index
      (frameAddr i ||| flags) }

@[simp] theorem linkTable_pmm (hh : Word) (s : Machine) (f : ℕ) (index : Index) (i : ℕ)
    (flags : Word) : (linkTable hh s f index i flags).pmm = (s.take hh i).pmm := rfl

/-- An absent table is allocated, or the call fails because no frame is free. -/
theorem vmmGetNextLevel_allocate {hh : Word} {s : Machine} (hs : s.Valid hh) {f : ℕ} {index : Index}
    (h : link hh s.mem f index = none) {flags : Word} (hflags : flags ≠ 0#64) :
    (vmmGetNextLevel hh s (frameVirt hh f) index true flags = (0#64, s) ∧ ∀ g, ¬ s.pmm.Free g) ∨
    ∃ i, s.pmm.Free i ∧
      vmmGetNextLevel hh s (frameVirt hh f) index true flags =
        (frameVirt hh i, linkTable hh s f index i flags) := by
  unfold vmmGetNextLevel
  dsimp only
  rw [if_neg (not_present_of_link h)]
  rcases allocatePage_cases hh s with ⟨hfail, hnone⟩ | ⟨i, hfree, -, hok⟩
  · left
    rw [hfail]
    exact ⟨rfl, hnone⟩
  · right
    refine ⟨i, hfree, ?_⟩
    have hne := hs.frameAddr_ne_zero hfree.1 (hs.ne_zero_of_free hfree)
    rw [hok]
    simp only [Bool.not_true, Bool.false_eq_true, if_false, if_neg hne, if_pos hflags]
    rfl

end Osiris.Vmm
