import Osiris.Verification.Page.Init
import Osiris.Verification.Vmm.Tables

/-! # What `vmm_map_page` and `vmm_unmap_page` do to a pagemap -/

namespace Osiris.Vmm

open ByteMemory Strings Page Radix

/-! ## Pages and paths -/

/-- The page of a virtual address: its bits 12 to 47. -/
def pageNumber (virtAddr : Word) : ℕ :=
  virtAddr.toNat / 4096 % 2 ^ 36

/-- The indices that lead from the PML4 to the entry of a page. -/
def pathOf (virtAddr : Word) : List Index :=
  [pml4Index virtAddr, pdptIndex virtAddr, pdIndex virtAddr, ptIndex virtAddr]

theorem levelIndex_val (v : Word) (shift : ℕ) :
    (levelIndex v shift).val = v.toNat / 2 ^ shift % 512 := by
  change ((v >>> shift) &&& 0x1FF#64).toNat = _
  rw [BitVec.toNat_and, BitVec.toNat_ushiftRight, Nat.shiftRight_eq_div_pow]
  exact Nat.and_two_pow_sub_one_eq_mod _ 9

theorem levelIndex_eq_iff {v w : Word} {shift : ℕ} :
    levelIndex v shift = levelIndex w shift ↔
      v.toNat / 2 ^ shift % 512 = w.toNat / 2 ^ shift % 512 := by
  rw [Fin.ext_iff, levelIndex_val, levelIndex_val]

/-- Two addresses have the same path exactly when they are on the same page. -/
theorem pathOf_eq_iff {v w : Word} : pathOf v = pathOf w ↔ pageNumber v = pageNumber w := by
  have hv := v.isLt
  have hw := w.isLt
  simp only [pathOf, pml4Index, pdptIndex, pdIndex, ptIndex, List.cons.injEq, and_true,
    levelIndex_eq_iff]
  unfold pageNumber
  omega

theorem pathOf_length (v : Word) : (pathOf v).length = 4 := rfl

theorem pathOf_alignDown (v : Word) : pathOf (alignDown v 4096#64) = pathOf v := by
  refine pathOf_eq_iff.mpr ?_
  unfold pageNumber
  rw [toNat_alignDown]
  omega

/-- The leaf entry that a walk for the address ends with. -/
def leafEntry (hh : Word) (m : Mem) (r : ℕ) (virtAddr : Word) : Option Word :=
  (walk (link hh m) r (pathOf virtAddr)).bind fun found => found.1.getLast?

theorem leafEntry_eq_some {hh : Word} {m : Mem} {r : ℕ} {v e : Word} :
    leafEntry hh m r v = some e ↔
      ∃ es, walk (link hh m) r (pathOf v) = some (es ++ [e], frameOf e) := by
  constructor
  · intro h
    unfold leafEntry at h
    rw [Option.bind_eq_some_iff] at h
    obtain ⟨⟨es, g⟩, hw, hlast⟩ := h
    obtain ⟨es', x, a, -, hlink, rfl⟩ :=
      walk_snoc_eq_some.mp (show walk (link hh m) r
        ([pml4Index v, pdptIndex v, pdIndex v] ++ [ptIndex v]) = some (es, g) from hw)
    obtain rfl : a = e := by simpa using hlast
    obtain ⟨-, -, rfl⟩ := link_eq_some.mp hlink
    exact ⟨es', hw⟩
  · intro h
    obtain ⟨es, hw⟩ := h
    unfold leafEntry
    rw [hw]
    simp

theorem leafEntry_eq_none {hh : Word} {m : Mem} {r : ℕ} {v : Word} :
    leafEntry hh m r v = none ↔ walk (link hh m) r (pathOf v) = none := by
  constructor
  · intro h
    cases hw : walk (link hh m) r (pathOf v) with
    | none => rfl
    | some found =>
        obtain ⟨es, g⟩ := found
        unfold leafEntry at h
        rw [hw] at h
        obtain rfl : es = [] := by simpa using h
        exact absurd (walk_length hw) (by simp [pathOf])
  · intro hw
    unfold leafEntry
    rw [hw]
    rfl

/-! ## Leaf entries -/

/-- The entry that `vmm_map_page` writes for a page. -/
def leafOf (physAddr flags : Word) : Word :=
  alignDown physAddr 4096#64 ||| flags ||| ptePresent

theorem alignDown_eq_frameAddr (phys : Word) :
    alignDown phys 4096#64 = frameAddr (phys.toNat / 4096) := by
  have hlt := phys.isLt
  apply BitVec.eq_of_toNat_eq
  rw [toNat_alignDown, toNat_frameAddr (by unfold frameLimit; omega)]

theorem pteGetAddr_ptePresent : pteGetAddr ptePresent = 0#64 := by decide

theorem hasFlag_ptePresent_self : HasFlag ptePresent ptePresent := by decide

section Leaf

variable {phys flags : Word}

theorem present_leafOf : HasFlag (leafOf phys flags) ptePresent :=
  hasFlag_or.mpr (Or.inr hasFlag_ptePresent_self)

theorem leafOf_eq (phys flags : Word) :
    leafOf phys flags = frameAddr (phys.toNat / 4096) ||| (flags ||| ptePresent) := by
  unfold leafOf
  rw [alignDown_eq_frameAddr, BitVec.or_assoc]

theorem pteGetAddr_flags (hflags : pteGetAddr flags = 0#64) :
    pteGetAddr (flags ||| ptePresent) = 0#64 := by
  rw [pteGetAddr_or, hflags, pteGetAddr_ptePresent, BitVec.or_zero]

theorem pteGetAddr_leafOf (hphys : phys.toNat < 2 ^ 52) (hflags : pteGetAddr flags = 0#64) :
    pteGetAddr (leafOf phys flags) = alignDown phys 4096#64 := by
  rw [leafOf_eq, pteGetAddr_frameAddr_or (by omega) (pteGetAddr_flags hflags),
    alignDown_eq_frameAddr]

theorem pteGetFlags_of_pteGetAddr {value : Word} (h : pteGetAddr value = 0#64) :
    pteGetFlags value = value := by
  unfold pteGetAddr at h
  unfold pteGetFlags
  have hsplit : value &&& (pteAddrMask ||| ~~~ pteAddrMask) = value := by
    rw [BitVec.or_not_self, BitVec.and_allOnes]
  rw [BitVec.and_comm, BitVec.and_or_distrib_right, BitVec.and_comm _ value, h,
    BitVec.zero_or] at hsplit
  rw [BitVec.and_comm]
  exact hsplit

theorem pteGetFlags_frameAddr {f : ℕ} (hf : f < 2 ^ 40) : pteGetFlags (frameAddr f) = 0#64 := by
  have haddr := pteGetAddr_frameAddr hf
  unfold pteGetAddr at haddr
  unfold pteGetFlags
  have hzero : pteAddrMask &&& ~~~ pteAddrMask = 0#64 := by decide
  rw [← haddr, BitVec.and_assoc, hzero, BitVec.and_zero]

theorem pteGetFlags_leafOf (hphys : phys.toNat < 2 ^ 52) (hflags : pteGetAddr flags = 0#64) :
    pteGetFlags (leafOf phys flags) = flags ||| ptePresent := by
  have hsum := pteGetFlags_of_pteGetAddr (pteGetAddr_flags hflags)
  have hframe := pteGetFlags_frameAddr (f := phys.toNat / 4096) (by omega)
  rw [leafOf_eq]
  unfold pteGetFlags at hsum hframe ⊢
  rw [BitVec.and_or_distrib_right, hframe, hsum, BitVec.zero_or]

end Leaf

/-! ## Adding tables -/

/-- Tables may have been added to the pagemap, all of them taken from the allocator. -/
structure Growth (hh : Word) (s s' : Machine) (r : ℕ) : Prop where
  inv : TableInv hh s' r
  highest : s'.pmm.highestPage = s.pmm.highestPage
  mono : footprint (link hh s.mem) 3 r ⊆ footprint (link hh s'.mem) 3 r
  free : ∀ g, s.pmm.Free g ↔ s'.pmm.Free g ∨
    (g ∈ footprint (link hh s'.mem) 3 r ∧ g ∉ footprint (link hh s.mem) 3 r)

theorem Growth.refl {hh : Word} {s : Machine} {r : ℕ} (h : TableInv hh s r) : Growth hh s s r :=
  ⟨h, rfl, subset_rfl, fun g => by tauto⟩

theorem Growth.trans {hh : Word} {s₁ s₂ s₃ : Machine} {r : ℕ} (h₁ : Growth hh s₁ s₂ r)
    (h₂ : Growth hh s₂ s₃ r) : Growth hh s₁ s₃ r := by
  refine ⟨h₂.inv, h₂.highest.trans h₁.highest, h₁.mono.trans h₂.mono, fun g => ?_⟩
  rw [h₁.free g, h₂.free g]
  constructor
  · rintro ((hfree | ⟨hnew, hold⟩) | ⟨hnew, hold⟩)
    · exact Or.inl hfree
    · exact Or.inr ⟨hnew, fun hg => hold (h₁.mono hg)⟩
    · exact Or.inr ⟨h₂.mono hnew, hold⟩
  · rintro (hfree | ⟨hnew, hold⟩)
    · exact Or.inl (Or.inl hfree)
    · by_cases hmid : g ∈ footprint (link hh s₂.mem) 3 r
      · exact Or.inr ⟨hmid, hold⟩
      · exact Or.inl (Or.inr ⟨hnew, hmid⟩)

theorem Growth.free_of_free {hh : Word} {s s' : Machine} {r g : ℕ} (h : Growth hh s s' r)
    (hfree : s'.pmm.Free g) : s.pmm.Free g :=
  (h.free g).mpr (.inl hfree)

/-- A frame that is a table or free was one of these before. -/
theorem Growth.table_or_free {hh : Word} {s s' : Machine} {r g : ℕ} (h : Growth hh s s' r)
    (hg : g ∈ footprint (link hh s'.mem) 3 r ∨ s'.pmm.Free g) :
    g ∈ footprint (link hh s.mem) 3 r ∨ s.pmm.Free g := by
  by_cases hold : g ∈ footprint (link hh s.mem) 3 r
  · exact .inl hold
  · rcases hg with hnew | hfree
    · exact .inr ((h.free g).mpr (.inr ⟨hnew, hold⟩))
    · exact .inr (h.free_of_free hfree)

/-- The new tables are empty apart from links made with `flags`, so that no page is mapped or
unmapped and every walk of before can still be made. -/
structure Grown (hh : Word) (s s' : Machine) (r : ℕ) (flags : Word) : Prop
    extends Growth hh s s' r where
  kept : ∀ q : List Index, q.length ≤ 4 → ∀ t, walk (link hh s.mem) r q = some t →
    walk (link hh s'.mem) r q = some t
  pages : ∀ q : List Index, q.length = 4 →
    walk (link hh s'.mem) r q = walk (link hh s.mem) r q
  made : ∀ (q : List Index) es f, q.length ≤ 3 → walk (link hh s'.mem) r q = some (es, f) →
    ∀ e ∈ es, (∃ p es₀ g, p <+: q ∧ walk (link hh s.mem) r p = some (es₀, g) ∧ e ∈ es₀) ∨
      ∃ i, e = frameAddr i ||| flags

theorem Grown.refl {hh : Word} {s : Machine} {r : ℕ} (h : TableInv hh s r) (flags : Word) :
    Grown hh s s r flags :=
  ⟨Growth.refl h, fun _ _ _ ht => ht, fun _ _ => rfl,
    fun q es f _ hw _ he => Or.inl ⟨q, es, f, List.prefix_rfl, hw, he⟩⟩

theorem Grown.trans {hh : Word} {s₁ s₂ s₃ : Machine} {r : ℕ} {flags : Word}
    (h₁ : Grown hh s₁ s₂ r flags) (h₂ : Grown hh s₂ s₃ r flags) : Grown hh s₁ s₃ r flags := by
  refine ⟨h₁.toGrowth.trans h₂.toGrowth, ?_, ?_, ?_⟩
  · exact fun q hq t ht => h₂.kept q hq t (h₁.kept q hq t ht)
  · exact fun q hq => (h₂.pages q hq).trans (h₁.pages q hq)
  · intro q es f hq hw e he
    rcases h₂.made q es f hq hw e he with ⟨p, es', g, hpq, hw', he'⟩ | hnew
    · rcases h₁.made p es' g (hpq.length_le.trans hq) hw' e he' with
        ⟨p', es'', g', hp', hw'', he''⟩ | hnew
      · exact Or.inl ⟨p', es'', g', hp'.trans hpq, hw'', he''⟩
      · exact Or.inr hnew
    · exact Or.inr hnew

section NextLevel

variable {hh : Word} {s : Machine} {r f i : ℕ} {p : List Index} {es : List Word} {index : Index}
  {flags : Word}

/-- A table that another one points to is below the PML4. -/
theorem mem_below_of_link {m : Mem} {g : ℕ} {e : Word} (hp : p.length ≤ 2)
    (hw : walk (link hh m) r p = some (es, f)) (hlink : link hh m f index = some (e, g)) :
    g ∈ below (link hh m) 3 r := by
  obtain ⟨n, hn⟩ : ∃ n, 3 = p.length + (n + 1) := ⟨2 - p.length, by omega⟩
  exact below_walk_subset hn hw ⟨index, e, g, hlink, Or.inl rfl⟩

theorem TableInv.nonnull (h : TableInv hh s r) :
    ∀ g ∈ below (link hh s.mem) 3 r, frameVirt hh g ≠ 0#64 := by
  intro g hg
  obtain ⟨hle, hne⟩ := h.managed g hg
  exact h.valid.frameVirt_ne_zero hle hne

theorem TableInv.frameVirt_ne_zero (h : TableInv hh s r) {g : ℕ} {e : Word} (hp : p.length ≤ 2)
    (hw : walk (link hh s.mem) r p = some (es, f))
    (hlink : link hh s.mem f index = some (e, g)) : frameVirt hh g ≠ 0#64 :=
  h.nonnull g (mem_below_of_link hp hw hlink)

theorem TableInv.grown_link (h : TableInv hh s r) (hp : p.length ≤ 2)
    (hw : walk (link hh s.mem) r p = some (es, f)) (habsent : link hh s.mem f index = none)
    (hfree : s.pmm.Free i) (hflags : TableFlags flags) :
    Grown hh s (Vmm.linkTable hh s f index i flags) r flags := by
  obtain ⟨hinv, hfoot, hnew, hother⟩ := h.linkTable hp hw habsent hfree hflags
  have hfresh : i ∉ footprint (link hh s.mem) 3 r := fun hmem => h.used i hmem hfree
  have hnone : walk (link hh s.mem) r (p ++ [index]) = none := by
    rw [walk_append hw, walk_cons_of_none habsent]
    rfl
  refine ⟨⟨hinv, rfl, fun g hg => (hfoot g).mpr (Or.inl hg), fun g => ?_⟩, ?_, ?_, ?_⟩
  · rw [linkTable_pmm, free_take, hfoot g]
    by_cases hgi : g = i
    · subst hgi
      simp [hfresh, hfree]
    · simp [hgi]
  · intro q hq t ht
    have hne : q ≠ p ++ [index] := by
      rintro rfl
      simp [hnone] at ht
    exact (hother q hq hne).trans ht
  · intro q hq
    refine hother q hq.le ?_
    rintro rfl
    simp at hq
    omega
  · intro q es' g hq hwq e he
    by_cases hne : q = p ++ [index]
    · subst hne
      obtain ⟨rfl, -⟩ := Prod.mk.inj (Option.some.inj (hwq.symm.trans hnew))
      rcases List.mem_append.mp he with hold | hlast
      · exact Or.inl ⟨p, es, f, List.prefix_append p _, hw, hold⟩
      · exact Or.inr ⟨i, List.mem_singleton.mp hlast⟩
    · rw [hother q (by omega) hne] at hwq
      exact Or.inl ⟨q, es', g, List.prefix_rfl, hwq, he⟩

end NextLevel

/-! ## The way down -/

/-- One step of `vmm_map_page`: the table behind an entry of the table in `f` is there, or it is
made in a frame that was free. -/
inductive NextTable (hh : Word) (s : Machine) (f : ℕ) (index : Index) (flags : Word) :
    Word → ℕ → Machine → Prop
  | found {e : Word} {g : ℕ} (hlink : link hh s.mem f index = some (e, g)) :
      NextTable hh s f index flags e g s
  | made {g : ℕ} (habsent : link hh s.mem f index = none) (hfree : s.pmm.Free g) :
      NextTable hh s f index flags (frameAddr g ||| flags) g (linkTable hh s f index g flags)

/-- The steps along a path, with the entries on it and the table at its end. -/
inductive Descent (hh : Word) (flags : Word) :
    Machine → ℕ → List Index → List Word → ℕ → Machine → Prop
  | nil {s : Machine} {f : ℕ} : Descent hh flags s f [] [] f s
  | cons {s s₁ s' : Machine} {f g g' : ℕ} {index : Index} {path : List Index} {e : Word}
      {es : List Word} (hnext : NextTable hh s f index flags e g s₁)
      (hrest : Descent hh flags s₁ g path es g' s') :
      Descent hh flags s f (index :: path) (e :: es) g' s'

section Steps

variable {hh : Word} {s s' : Machine} {r f g : ℕ} {p : List Index} {es : List Word} {index : Index}
  {flags e : Word}

/-- A step fails only where the table is missing and no frame is left. -/
theorem TableInv.nextTable_cases (h : TableInv hh s r) (hp : p.length ≤ 2)
    (hw : walk (link hh s.mem) r p = some (es, f)) (index : Index) (hflags : TableFlags flags) :
    (vmmGetNextLevel hh s (frameVirt hh f) index true flags = (0#64, s) ∧
      link hh s.mem f index = none ∧ ∀ g, ¬ s.pmm.Free g) ∨
    ∃ e g s', vmmGetNextLevel hh s (frameVirt hh f) index true flags = (frameVirt hh g, s') ∧
      frameVirt hh g ≠ 0#64 ∧ NextTable hh s f index flags e g s' := by
  cases hlink : link hh s.mem f index with
  | some edge =>
      obtain ⟨e, g⟩ := edge
      right
      exact ⟨e, g, s, vmmGetNextLevel_of_present hlink true flags,
        h.frameVirt_ne_zero hp hw hlink, .found hlink⟩
  | none =>
      have hnonzero : flags ≠ 0#64 := by
        rintro rfl
        exact not_hasFlag_zero _ hflags.present
      rcases vmmGetNextLevel_allocate h.valid hlink hnonzero with ⟨hfail, hnone⟩ | ⟨i, hfree, hok⟩
      · exact Or.inl ⟨hfail, rfl, hnone⟩
      · right
        exact ⟨_, i, _, hok, h.valid.frameVirt_ne_zero hfree.1 (h.valid.ne_zero_of_free hfree),
          .made hlink hfree⟩

theorem NextTable.grown (hnext : NextTable hh s f index flags e g s') (h : TableInv hh s r)
    (hp : p.length ≤ 2) (hw : walk (link hh s.mem) r p = some (es, f))
    (hflags : TableFlags flags) :
    Grown hh s s' r flags ∧ walk (link hh s'.mem) r (p ++ [index]) = some (es ++ [e], g) := by
  cases hnext with
  | found hlink => exact ⟨Grown.refl h flags, walk_snoc hw hlink⟩
  | made habsent hfree =>
      exact ⟨h.grown_link hp hw habsent hfree hflags,
        (h.linkTable hp hw habsent hfree hflags).2.2.1⟩

theorem NextTable.footprint_subset (hnext : NextTable hh s f index flags e g s')
    (h : TableInv hh s r) (hp : p.length ≤ 2) (hw : walk (link hh s.mem) r p = some (es, f))
    (hflags : TableFlags flags) {x : ℕ} (hx : x ∈ footprint (link hh s'.mem) 3 r) :
    x ∈ footprint (link hh s.mem) 3 r ∨ x = g := by
  cases hnext with
  | found hlink => exact Or.inl hx
  | made habsent hfree => exact ((h.linkTable hp hw habsent hfree hflags).2.1 x).mp hx

theorem NextTable.frameOf_eq (hnext : NextTable hh s f index flags e g s') (hs : s.Valid hh)
    (hflags : TableFlags flags) : frameOf e = g := by
  cases hnext with
  | found hlink => exact (link_eq_some.mp hlink).2.2.symm
  | made habsent hfree => exact frameOf_frameAddr_or (hs.lt_limit hfree.1) hflags.addr

/-- A table that has just been made is empty. -/
theorem TableInv.entry_of_made (h : TableInv hh s r) (hp : p.length ≤ 2)
    (hw : walk (link hh s.mem) r p = some (es, f)) (hfree : s.pmm.Free g) (index other : Index)
    (flags : Word) : entry hh (Vmm.linkTable hh s f index g flags).mem g other = 0#64 := by
  have hfg : f ≠ g := by
    rintro rfl
    exact h.used f (walk_mem_footprint (by omega) hw) hfree
  exact linkTable_entry_fresh (walk_lt h.root_lt hw) (h.valid.lt_limit hfree.1) hfg other

/-- A table that has an entry was there before the step. -/
theorem NextTable.eq_of_link (hnext : NextTable hh s f index flags e g s') (h : TableInv hh s r)
    (hp : p.length ≤ 2) (hw : walk (link hh s.mem) r p = some (es, f)) {k : Index}
    {edge : Word × ℕ} (hlink : link hh s'.mem g k = some edge) :
    s' = s ∧ link hh s.mem f index = some (e, g) := by
  cases hnext with
  | found hfound => exact ⟨rfl, hfound⟩
  | made habsent hfree =>
      rw [link_of_zero (h.entry_of_made hp hw hfree index k flags)] at hlink
      simp at hlink

theorem descent_three_inv {i j k : Index} {e₁ e₂ e₃ : Word}
    (hdescent : Descent hh flags s f [i, j, k] [e₁, e₂, e₃] g s') :
    ∃ g₁ g₂ s₁ s₂, NextTable hh s f i flags e₁ g₁ s₁ ∧ NextTable hh s₁ g₁ j flags e₂ g₂ s₂ ∧
      NextTable hh s₂ g₂ k flags e₃ g s' := by
  obtain _ | ⟨hnext₁, hrest⟩ := hdescent
  obtain _ | ⟨hnext₂, hrest⟩ := hrest
  obtain _ | ⟨hnext₃, hrest⟩ := hrest
  obtain _ | _ := hrest
  exact ⟨_, _, _, _, hnext₁, hnext₂, hnext₃⟩

/-- The steps keep the invariant and lead along the path. -/
theorem Descent.grown {path : List Index} {es' : List Word}
    (hdescent : Descent hh flags s f path es' g s') (h : TableInv hh s r)
    (hlen : p.length + path.length ≤ 3) (hw : walk (link hh s.mem) r p = some (es, f))
    (hflags : TableFlags flags) :
    Grown hh s s' r flags ∧ walk (link hh s'.mem) r (p ++ path) = some (es ++ es', g) := by
  induction hdescent generalizing p es with
  | nil =>
      rw [List.append_nil, List.append_nil]
      exact ⟨Grown.refl h flags, hw⟩
  | cons hnext _ ih =>
      rw [List.length_cons] at hlen
      obtain ⟨hgrown, hw₁⟩ := hnext.grown h (by omega) hw hflags
      obtain ⟨hgrown', hw'⟩ := ih hgrown.inv (by simp; omega) hw₁
      refine ⟨hgrown.trans hgrown', ?_⟩
      simpa using hw'

/-- Every table that is made takes one frame and one table off those that the path lacks. -/
theorem Descent.count {path : List Index} {es' : List Word}
    (hdescent : Descent hh flags s f path es' g s') (h : TableInv hh s r)
    (hlen : p.length + path.length ≤ 3) (hw : walk (link hh s.mem) r p = some (es, f))
    (hflags : TableFlags flags) (rest : List Index) :
    ∃ made ≤ path.length, s.pmm.freeFrames.card = s'.pmm.freeFrames.card + made ∧
      missing (link hh s.mem) f (path ++ rest) = missing (link hh s'.mem) g rest + made ∧
      (made = 0 → s' = s) := by
  induction hdescent generalizing p es with
  | nil => exact ⟨0, le_rfl, rfl, rfl, fun _ => rfl⟩
  | @cons _ _ _ _ _ _ index _ _ _ hnext _ ih =>
      rw [List.length_cons] at hlen
      obtain ⟨hgrown, hw₁⟩ := hnext.grown h (by omega) hw hflags
      obtain ⟨made, hmade, hcard, hmissing, hsame⟩ := ih hgrown.inv (by simp; omega) hw₁
      cases hnext with
      | found hlink =>
          refine ⟨made, by simp; omega, hcard, ?_, hsame⟩
          rw [List.cons_append, missing_cons_of_some hlink, hmissing]
      | made habsent hfree =>
          have hempty := fun k => link_of_zero (h.entry_of_made (by omega) hw hfree index k flags)
          rw [missing_of_empty hempty] at hmissing
          refine ⟨made + 1, by simpa using hmade, ?_, ?_, fun hzero => by omega⟩
          · rw [← @card_freeFrames_take hh _ _ hfree]
            rw [linkTable_pmm] at hcard
            omega
          · rw [List.cons_append, missing_cons_of_none habsent, hmissing, add_assoc]

end Steps

/-! ## `vmm_map_page` -/

/-- The flags of the tables that a mapping with the given flags creates. -/
def allocFlags (flags : Word) : Word :=
  if flags &&& pteUser ≠ 0#64 then ptePresent ||| pteWritable ||| pteUser
  else ptePresent ||| pteWritable

theorem allocFlags_tableFlags (flags : Word) : TableFlags (allocFlags flags) := by
  unfold allocFlags
  split
  · exact ⟨by decide, by decide, by decide⟩
  · exact ⟨by decide, by decide, by decide⟩

theorem hasFlag_user_allocFlags {flags : Word} (h : HasFlag flags pteUser) (f : ℕ) :
    HasFlag (frameAddr f ||| allocFlags flags) pteUser := by
  have hflag : flags &&& pteUser ≠ 0#64 := h
  unfold allocFlags
  rw [if_pos hflag]
  exact hasFlag_or.mpr (Or.inr (by decide))

/-- The indices that lead from the PML4 to the page table of an address. -/
def upperPath (virtAddr : Word) : List Index :=
  [pml4Index virtAddr, pdptIndex virtAddr, pdIndex virtAddr]

/-- Addresses in the same 2 MiB have the same page table. -/
theorem upperPath_eq {v w : Word} (h : v.toNat / 2 ^ 21 = w.toNat / 2 ^ 21) :
    upperPath v = upperPath w := by
  simp only [upperPath, pml4Index, pdptIndex, pdIndex, List.cons.injEq, and_true,
    levelIndex_eq_iff]
  omega

theorem pathOf_eq_upperPath (v : Word) : pathOf v = upperPath v ++ [ptIndex v] := rfl

section MapPage

variable {hh : Word} {s : Machine} {r : ℕ}

/-- `vmm_map_page` goes down to the page table and writes the leaf there, or stops at a table that
it has no frame for. -/
theorem vmmMapPage_descent (h : TableInv hh s r) (virt phys flags : Word) :
    (∃ path index rest es f s', upperPath virt = path ++ index :: rest ∧
      Descent hh (allocFlags flags) s r path es f s' ∧ link hh s'.mem f index = none ∧
      (∀ g, ¬ s'.pmm.Free g) ∧
      vmmMapPage hh s ⟨frameVirt hh r⟩ virt phys flags = (false, s')) ∨
    ∃ es f s₁, Descent hh (allocFlags flags) s r (upperPath virt) es f s₁ ∧
      vmmMapPage hh s ⟨frameVirt hh r⟩ virt phys flags =
        (true, setEntry hh s₁ f (ptIndex virt) (leafOf phys flags)) := by
  have hpath := pathOf_alignDown virt
  simp only [pathOf, List.cons.injEq, and_true] at hpath
  obtain ⟨hpml4, hpdpt, hpd, hpt⟩ := hpath
  have hflags := allocFlags_tableFlags flags
  unfold vmmMapPage
  simp only [hpml4, hpdpt, hpd, hpt]
  rw [show (if flags &&& pteUser ≠ 0#64 then ptePresent ||| pteWritable ||| pteUser
    else ptePresent ||| pteWritable) = allocFlags flags from rfl]
  rcases h.nextTable_cases (p := []) (by simp) rfl (pml4Index virt) hflags with
    ⟨heq₁, habsent, hnone⟩ | ⟨e₁, g₁, s₁, heq₁, hne₁, hnext₁⟩
  · left
    refine ⟨[], _, _, [], r, s, rfl, .nil, habsent, hnone, ?_⟩
    simp [heq₁]
  obtain ⟨hgrown₁, hw₁⟩ := hnext₁.grown h (p := []) (by simp) rfl hflags
  rcases hgrown₁.inv.nextTable_cases (by simp) hw₁ (pdptIndex virt) hflags with
    ⟨heq₂, habsent, hnone⟩ | ⟨e₂, g₂, s₂, heq₂, hne₂, hnext₂⟩
  · left
    refine ⟨[pml4Index virt], _, _, _, g₁, s₁, rfl, .cons hnext₁ .nil, habsent, hnone, ?_⟩
    simp [heq₁, hne₁, heq₂]
  obtain ⟨hgrown₂, hw₂⟩ := hnext₂.grown hgrown₁.inv (by simp) hw₁ hflags
  rcases hgrown₂.inv.nextTable_cases (by simp) hw₂ (pdIndex virt) hflags with
    ⟨heq₃, habsent, hnone⟩ | ⟨e₃, g₃, s₃, heq₃, hne₃, hnext₃⟩
  · left
    refine ⟨[pml4Index virt, pdptIndex virt], _, _, _, g₂, s₂, rfl,
      .cons hnext₁ (.cons hnext₂ .nil), habsent, hnone, ?_⟩
    simp [heq₁, hne₁, heq₂, hne₂, heq₃]
  · right
    refine ⟨_, g₃, s₃, .cons hnext₁ (.cons hnext₂ (.cons hnext₃ .nil)), ?_⟩
    simp only [heq₁, if_neg hne₁, heq₂, if_neg hne₂, heq₃, if_neg hne₃]
    rfl

theorem card_freeFrames_eq_zero {pmm : Pmm} (hnone : ∀ g, ¬ pmm.Free g) :
    pmm.freeFrames.card = 0 := by
  refine Finset.card_eq_zero.mpr (Finset.eq_empty_of_forall_notMem fun g hg => ?_)
  exact hnone g (mem_freeFrames.mp hg)

/-- `vmm_map_page` runs out of frames, or reaches a page table and writes the leaf there. -/
theorem vmmMapPage_cases (h : TableInv hh s r) (virt phys flags : Word) :
    (∃ s', vmmMapPage hh s ⟨frameVirt hh r⟩ virt phys flags = (false, s') ∧
      (∀ g, ¬ s'.pmm.Free g) ∧ s.pmm.freeFrames.card ≤ 2 ∧
      Grown hh s s' r (allocFlags flags)) ∨
    ∃ s₁ es f, Grown hh s s₁ r (allocFlags flags) ∧
      s.pmm.freeFrames.card ≤ s₁.pmm.freeFrames.card + 3 ∧
      walk (link hh s₁.mem) r (upperPath virt) = some (es, f) ∧
      vmmMapPage hh s ⟨frameVirt hh r⟩ virt phys flags =
        (true, setEntry hh s₁ f (ptIndex virt) (leafOf phys flags)) := by
  have hflags := allocFlags_tableFlags flags
  rcases vmmMapPage_descent h virt phys flags with
    ⟨path, index, rest, es, f, s', hpath, hdescent, -, hnone, heq⟩ | ⟨es, f, s₁, hdescent, heq⟩
  · left
    have hlen := congrArg List.length hpath
    simp only [upperPath, List.length_append, List.length_cons, List.length_nil] at hlen
    obtain ⟨hgrown, -⟩ := hdescent.grown h (p := []) (by simp; omega) rfl hflags
    obtain ⟨made, hmade, hcard, -, -⟩ :=
      hdescent.count h (p := []) (by simp; omega) rfl hflags []
    rw [card_freeFrames_eq_zero hnone] at hcard
    exact ⟨s', heq, hnone, by omega, hgrown⟩
  · right
    obtain ⟨hgrown, hw⟩ := hdescent.grown h (p := []) (by simp [upperPath]) rfl hflags
    obtain ⟨made, hmade, hcard, -, -⟩ :=
      hdescent.count h (p := []) (by simp [upperPath]) rfl hflags []
    simp only [upperPath, List.length_cons, List.length_nil] at hmade
    exact ⟨s₁, es, f, hgrown, by omega, hw, heq⟩

/-- What a successful `vmm_map_page` does to the pagemap. -/
structure Mapped (hh : Word) (s s' : Machine) (r : ℕ) (virt phys flags : Word) : Prop
    extends Growth hh s s' r where
  walk_self : ∃ es, walk (link hh s'.mem) r (pathOf virt) =
      some (es ++ [leafOf phys flags], frameOf (leafOf phys flags)) ∧
    (∀ e ∈ es, (∃ p es₀ g, p <+: upperPath virt ∧
        walk (link hh s.mem) r p = some (es₀, g) ∧ e ∈ es₀) ∨
      ∃ i, e = frameAddr i ||| allocFlags flags) ∧
    ∀ p es₀ g, p <+: upperPath virt → walk (link hh s.mem) r p = some (es₀, g) → es₀ <+: es
  pages : ∀ q : List Index, q.length = 4 → q ≠ pathOf virt →
    walk (link hh s'.mem) r q = walk (link hh s.mem) r q

/-- A successful call binds the page, with tables that are old or made for it, and leaves all
other pages alone. -/
theorem mapped_of_grown {s₁ : Machine} {f : ℕ} {es : List Word} {virt phys flags : Word}
    (hgrown : Grown hh s s₁ r (allocFlags flags))
    (hw : walk (link hh s₁.mem) r (upperPath virt) = some (es, f)) :
    Mapped hh s (setEntry hh s₁ f (ptIndex virt) (leafOf phys flags)) r virt phys flags := by
  obtain ⟨hinv, hfoot, hw', hother⟩ := hgrown.inv.setLeaf rfl hw (ptIndex virt)
    (leafOf phys flags) (Or.inr present_leafOf)
  have hleaf : link hh (setEntry hh s₁ f (ptIndex virt) (leafOf phys flags)).mem f (ptIndex virt) =
      some (leafOf phys flags, frameOf (leafOf phys flags)) :=
    link_eq_some.mpr ⟨entry_writeEntry_same hh _ f _ _, present_leafOf, rfl⟩
  refine ⟨⟨hinv, hgrown.highest, fun g hg => (hfoot g).mpr (hgrown.mono hg), fun g => ?_⟩, ?_, ?_⟩
  · rw [hgrown.free g, hfoot g]
    rfl
  · refine ⟨es, walk_snoc hw' hleaf, hgrown.made _ es f (by simp [upperPath]) hw, ?_⟩
    intro p es₀ g hpre hw₀
    obtain ⟨q, hq⟩ := hpre
    have hlen : p.length ≤ 4 := by
      have hsum := congrArg List.length hq
      simp [upperPath] at hsum
      omega
    have hkept := hgrown.kept p hlen _ hw₀
    rw [← hq, walk_append hkept, Option.map_eq_some_iff] at hw
    obtain ⟨rest, -, heq⟩ := hw
    exact ⟨rest.1, (Prod.mk.inj heq).1⟩
  · intro q hlen hne
    rw [hother q hlen.le hne, hgrown.pages q hlen]

theorem vmmMapPage_growth (h : TableInv hh s r) (virt phys flags : Word) :
    Growth hh s (vmmMapPage hh s ⟨frameVirt hh r⟩ virt phys flags).2 r := by
  rcases vmmMapPage_cases h virt phys flags with
    ⟨s', heq, -, -, hgrown⟩ | ⟨s₁, es, f, hgrown, -, hw, heq⟩
  · rw [heq]
    exact hgrown.toGrowth
  · rw [heq]
    exact (mapped_of_grown hgrown hw).toGrowth

/-- `vmm_map_page` succeeds when three frames are free. -/
theorem vmmMapPage_succeeds (h : TableInv hh s r) (virt phys flags : Word)
    (hcard : 3 ≤ s.pmm.freeFrames.card) :
    (vmmMapPage hh s ⟨frameVirt hh r⟩ virt phys flags).1 = true := by
  rcases vmmMapPage_cases h virt phys flags with ⟨s', heq, -, hfew, -⟩ | ⟨s₁, es, f, -, -, -, heq⟩
  · omega
  · rw [heq]

theorem vmmMapPage_cost (h : TableInv hh s r) (virt phys flags : Word) :
    s.pmm.freeFrames.card ≤
      (vmmMapPage hh s ⟨frameVirt hh r⟩ virt phys flags).2.pmm.freeFrames.card + 3 := by
  rcases vmmMapPage_cases h virt phys flags with
    ⟨s', heq, -, hfew, -⟩ | ⟨s₁, es, f, -, hcost, -, heq⟩
  · omega
  · rw [heq]
    exact hcost

end MapPage

/-! ## `vmm_unmap_page` -/

/-- Tables may have been taken out of the pagemap and given back to the allocator. -/
structure Shrunk (hh : Word) (s s' : Machine) (r : ℕ) : Prop where
  inv : TableInv hh s' r
  highest : s'.pmm.highestPage = s.pmm.highestPage
  anti : footprint (link hh s'.mem) 3 r ⊆ footprint (link hh s.mem) 3 r
  free : ∀ g, s'.pmm.Free g ↔ s.pmm.Free g ∨
    (g ∈ footprint (link hh s.mem) 3 r ∧ g ∉ footprint (link hh s'.mem) 3 r)

theorem Shrunk.refl {hh : Word} {s : Machine} {r : ℕ} (h : TableInv hh s r) : Shrunk hh s s r :=
  ⟨h, rfl, subset_rfl, fun g => by tauto⟩

theorem Shrunk.trans {hh : Word} {s₁ s₂ s₃ : Machine} {r : ℕ} (h₁ : Shrunk hh s₁ s₂ r)
    (h₂ : Shrunk hh s₂ s₃ r) : Shrunk hh s₁ s₃ r := by
  refine ⟨h₂.inv, h₂.highest.trans h₁.highest, h₂.anti.trans h₁.anti, fun g => ?_⟩
  rw [h₂.free g, h₁.free g]
  constructor
  · rintro ((hfree | ⟨hold, hnew⟩) | ⟨hold, hnew⟩)
    · exact Or.inl hfree
    · exact Or.inr ⟨hold, fun hg => hnew (h₂.anti hg)⟩
    · exact Or.inr ⟨h₁.anti hold, hnew⟩
  · rintro (hfree | ⟨hold, hnew⟩)
    · exact Or.inl (Or.inl hfree)
    · by_cases hmid : g ∈ footprint (link hh s₂.mem) 3 r
      · exact Or.inr ⟨hmid, hnew⟩
      · exact Or.inl (Or.inr ⟨hold, hmid⟩)

section UnmapPage

variable {hh : Word} {s : Machine} {r f g : ℕ}

/-- The state after one table has been unlinked, as the code writes it. -/
def releaseTable (s : Machine) (tableVirt : Word) (index : Index) (entry : Word) : Machine :=
  { s with mem := writeEntry s.mem tableVirt index 0#64 }.freePage (pteGetAddr entry)

/-- Releasing an empty table shows in no walk but the one to the table. -/
theorem TableInv.releaseTable {p : List Index} {es : List Word} {index : Index} {e : Word}
    (h : TableInv hh s r) (hp : p.length ≤ 2) (hw : walk (link hh s.mem) r p = some (es, f))
    (hedge : link hh s.mem f index = some (e, g))
    (hempty : vmmIsTableEmpty s.mem (frameVirt hh g) = true) :
    Shrunk hh s (releaseTable s (frameVirt hh f) index e) r ∧
      ∀ q : List Index, q.length ≤ 4 → q ≠ p ++ [index] →
        walk (link hh (Vmm.releaseTable s (frameVirt hh f) index e).mem) r q =
          walk (link hh s.mem) r q := by
  obtain ⟨hinv, hfoot, hfree, -, hother⟩ :=
    h.unlinkTable hp hw hedge (vmmIsTableEmpty_iff.mp hempty)
  have hgmem : g ∈ footprint (link hh s.mem) 3 r := by
    refine walk_mem_footprint (p := p ++ [index]) (by simp; omega) (walk_snoc hw hedge)
  have hstate : Vmm.releaseTable s (frameVirt hh f) index e = Vmm.unlinkTable hh s f index g := by
    obtain ⟨-, -, rfl⟩ := link_eq_some.mp hedge
    unfold Vmm.releaseTable Vmm.unlinkTable
    rw [pteGetAddr_eq_frameAddr]
    rfl
  rw [hstate]
  refine ⟨⟨hinv, freePage_highestPage _ _, fun x hx => ((hfoot x).mp hx).1, fun x => ?_⟩, hother⟩
  rw [hfree x, hfoot x]
  refine or_congr_right ⟨?_, ?_⟩
  · rintro rfl
    exact ⟨hgmem, fun hx => hx.2 rfl⟩
  · rintro ⟨hx, hnot⟩
    by_contra hne
    exact hnot ⟨hx, hne⟩

theorem releaseEmptyTables_eq (s : Machine) (virt pml4 pdpt pd pt e₁ e₂ e₃ : Word) :
    releaseEmptyTables s virt pml4 pdpt pd pt e₁ e₂ e₃ =
      if vmmIsTableEmpty s.mem pt then
        let s₃ := releaseTable s pd (pdIndex virt) e₃
        if vmmIsTableEmpty s₃.mem pd then
          let s₂ := releaseTable s₃ pdpt (pdptIndex virt) e₂
          if vmmIsTableEmpty s₂.mem pdpt then releaseTable s₂ pml4 (pml4Index virt) e₁ else s₂
        else s₃
      else s := rfl

/-- The three tables on the way to a page, in a pagemap that has all of them. -/
structure Reaches (hh : Word) (m : Mem) (r : ℕ) (virt e₁ e₂ e₃ : Word) (g₁ g₂ g₃ : ℕ) : Prop where
  pml4 : link hh m r (pml4Index virt) = some (e₁, g₁)
  pdpt : link hh m g₁ (pdptIndex virt) = some (e₂, g₂)
  pd : link hh m g₂ (pdIndex virt) = some (e₃, g₃)

section Reaches

variable {m m' : Mem} {virt e₁ e₂ e₃ : Word} {g₁ g₂ g₃ : ℕ}

theorem Reaches.walk_one (h : Reaches hh m r virt e₁ e₂ e₃ g₁ g₂ g₃) :
    walk (link hh m) r [pml4Index virt] = some ([e₁], g₁) :=
  walk_snoc (p := []) rfl h.pml4

theorem Reaches.walk_two (h : Reaches hh m r virt e₁ e₂ e₃ g₁ g₂ g₃) :
    walk (link hh m) r [pml4Index virt, pdptIndex virt] = some ([e₁, e₂], g₂) :=
  walk_snoc h.walk_one h.pdpt

theorem Reaches.walk_three (h : Reaches hh m r virt e₁ e₂ e₃ g₁ g₂ g₃) :
    walk (link hh m) r (upperPath virt) = some ([e₁, e₂, e₃], g₃) :=
  walk_snoc h.walk_two h.pd

theorem reaches_of_walk {es : List Word} {f : ℕ}
    (hw : walk (link hh m) r (upperPath virt) = some (es, f)) :
    ∃ e₁ e₂ e₃ g₁ g₂, Reaches hh m r virt e₁ e₂ e₃ g₁ g₂ f := by
  obtain ⟨e₁, g₁, es₁, h₁, hw₁, -⟩ := walk_cons_eq_some.mp hw
  obtain ⟨e₂, g₂, es₂, h₂, hw₂, -⟩ := walk_cons_eq_some.mp hw₁
  obtain ⟨e₃, g₃, es₃, h₃, hw₃, -⟩ := walk_cons_eq_some.mp hw₂
  obtain ⟨-, rfl⟩ := Prod.mk.inj (Option.some.inj hw₃)
  exact ⟨e₁, e₂, e₃, g₁, g₂, h₁, h₂, h₃⟩

theorem link_pml4_congr (h : link hh m r (pml4Index virt) = some (e₁, g₁))
    (hone : walk (link hh m') r [pml4Index virt] = walk (link hh m) r [pml4Index virt]) :
    link hh m' r (pml4Index virt) = some (e₁, g₁) := by
  refine edge_of_walk_eq (p := []) ?_ hone (walk_nil r) h
  rw [walk_nil, walk_nil]

end Reaches

/-- Where the page table is there, `vmm_map_page` only writes the leaf. -/
theorem vmmMapPage_of_table (h : TableInv hh s r) {virt : Word} {es : List Word}
    (hw : walk (link hh s.mem) r (upperPath virt) = some (es, f)) (phys flags : Word) :
    vmmMapPage hh s ⟨frameVirt hh r⟩ virt phys flags =
      (true, setEntry hh s f (ptIndex virt) (leafOf phys flags)) := by
  have hpath := pathOf_alignDown virt
  simp only [pathOf, List.cons.injEq, and_true] at hpath
  obtain ⟨hpml4, hpdpt, hpd, hpt⟩ := hpath
  obtain ⟨e₁, e₂, e₃, g₁, g₂, hreach⟩ := reaches_of_walk hw
  unfold vmmMapPage
  simp only [hpml4, hpdpt, hpd, hpt]
  rw [vmmGetNextLevel_of_present hreach.pml4]
  simp only [if_neg (h.frameVirt_ne_zero (p := []) (by simp) rfl hreach.pml4)]
  rw [vmmGetNextLevel_of_present hreach.pdpt]
  simp only [if_neg (h.frameVirt_ne_zero (by simp) hreach.walk_one hreach.pdpt)]
  rw [vmmGetNextLevel_of_present hreach.pd]
  simp only [if_neg (h.frameVirt_ne_zero (by simp) hreach.walk_two hreach.pd)]
  rfl

/-- A call succeeds with three free frames, or with none where the page table is there. -/
theorem vmmMapPage_of_room (h : TableInv hh s r) {virt : Word} {n : ℕ}
    (hroom : n + 3 ≤ s.pmm.freeFrames.card ∨ n ≤ s.pmm.freeFrames.card ∧
      ∃ es f, walk (link hh s.mem) r (upperPath virt) = some (es, f)) (phys flags : Word) :
    ∃ s', vmmMapPage hh s ⟨frameVirt hh r⟩ virt phys flags = (true, s') ∧
      n ≤ s'.pmm.freeFrames.card ∧
      ∃ es f, walk (link hh s'.mem) r (upperPath virt) = some (es, f) := by
  obtain ⟨s₁, es, f, hgrown, hcard, hw, heq⟩ : ∃ s₁ es f,
      Grown hh s s₁ r (allocFlags flags) ∧ n ≤ s₁.pmm.freeFrames.card ∧
      walk (link hh s₁.mem) r (upperPath virt) = some (es, f) ∧
      vmmMapPage hh s ⟨frameVirt hh r⟩ virt phys flags =
        (true, setEntry hh s₁ f (ptIndex virt) (leafOf phys flags)) := by
    rcases hroom with hthree | ⟨hcard, es, f, hw⟩
    · rcases vmmMapPage_cases h virt phys flags with
        ⟨s₁, -, -, hfew, -⟩ | ⟨s₁, es, f, hgrown, hcost, hw, heq⟩
      · omega
      · exact ⟨s₁, es, f, hgrown, by omega, hw, heq⟩
    · exact ⟨s, es, f, Grown.refl h _, hcard, hw, vmmMapPage_of_table h hw phys flags⟩
  refine ⟨_, heq, hcard, ?_⟩
  have hmapped : Mapped hh s _ r virt phys flags := mapped_of_grown hgrown hw
  obtain ⟨es', hself, -⟩ := hmapped.walk_self
  rw [pathOf_eq_upperPath] at hself
  obtain ⟨es₀, g, a, hupper, -⟩ := walk_snoc_eq_some.mp hself
  exact ⟨es₀, g, hupper⟩

/-- Where the page has a leaf, `vmm_unmap_page` clears it and cleans up. -/
theorem vmmUnmapPage_of_reaches (h : TableInv hh s r) {virt e₁ e₂ e₃ leaf : Word} {g₁ g₂ g₃ : ℕ}
    (halign : virt % 4096#64 = 0#64) (hreach : Reaches hh s.mem r virt e₁ e₂ e₃ g₁ g₂ g₃)
    (hleaf : link hh s.mem g₃ (ptIndex virt) = some (leaf, f)) :
    vmmUnmapPage hh s ⟨frameVirt hh r⟩ virt =
      (true, releaseEmptyTables (setEntry hh s g₃ (ptIndex virt) 0#64) virt (frameVirt hh r)
        (frameVirt hh g₁) (frameVirt hh g₂) (frameVirt hh g₃) e₁ e₂ e₃) := by
  obtain ⟨hentry₁, -, -⟩ := link_eq_some.mp hreach.pml4
  obtain ⟨hentry₂, -, -⟩ := link_eq_some.mp hreach.pdpt
  obtain ⟨hentry₃, -, -⟩ := link_eq_some.mp hreach.pd
  obtain ⟨rfl, hpresent, -⟩ := link_eq_some.mp hleaf
  have hmapped : ¬ readEntry s.mem (frameVirt hh g₃) (ptIndex virt) &&& ptePresent = 0#64 :=
    hpresent
  unfold entry at hentry₁ hentry₂ hentry₃
  unfold vmmUnmapPage
  rw [if_neg (not_not.mpr halign)]
  dsimp only
  rw [vmmGetNextLevel_of_present hreach.pml4,
    if_neg (h.frameVirt_ne_zero (p := []) (by simp) rfl hreach.pml4),
    vmmGetNextLevel_of_present hreach.pdpt,
    if_neg (h.frameVirt_ne_zero (by simp) hreach.walk_one hreach.pdpt),
    vmmGetNextLevel_of_present hreach.pd,
    if_neg (h.frameVirt_ne_zero (by simp) hreach.walk_two hreach.pd), if_neg hmapped,
    hentry₁, hentry₂, hentry₃]
  rfl

/-- The clean-up keeps every page mapped as it was. -/
theorem releaseEmptyTables_spec (h : TableInv hh s r) {virt e₁ e₂ e₃ : Word} {g₁ g₂ g₃ : ℕ}
    (hreach : Reaches hh s.mem r virt e₁ e₂ e₃ g₁ g₂ g₃) :
    ∃ s', releaseEmptyTables s virt (frameVirt hh r) (frameVirt hh g₁) (frameVirt hh g₂)
        (frameVirt hh g₃) e₁ e₂ e₃ = s' ∧ Shrunk hh s s' r ∧
      ∀ q : List Index, q.length = 4 → walk (link hh s'.mem) r q = walk (link hh s.mem) r q := by
  rw [releaseEmptyTables_eq]
  by_cases hempty₃ : vmmIsTableEmpty s.mem (frameVirt hh g₃) = true
  swap
  · rw [if_neg hempty₃]
    exact ⟨s, rfl, Shrunk.refl h, fun q _ => rfl⟩
  rw [if_pos hempty₃]
  obtain ⟨hshrunk₃, hother₃⟩ := h.releaseTable (by simp) hreach.walk_two hreach.pd hempty₃
  generalize releaseTable s (frameVirt hh g₂) (pdIndex virt) e₃ = s₃ at hshrunk₃ hother₃ ⊢
  have hpages₃ : ∀ q : List Index, q.length = 4 →
      walk (link hh s₃.mem) r q = walk (link hh s.mem) r q :=
    fun q hq => hother₃ q hq.le (by rintro rfl; simp at hq)
  -- the walks to the tables above the released one have not changed
  have hone₃ := hother₃ [pml4Index virt] (by simp) (by simp)
  have htwo₃ := hother₃ [pml4Index virt, pdptIndex virt] (by simp) (by simp)
  have hpdpt := edge_of_walk_eq (p := [pml4Index virt]) hone₃ htwo₃ hreach.walk_one hreach.pdpt
  have hpml4 := link_pml4_congr hreach.pml4 hone₃
  dsimp only
  by_cases hempty₂ : vmmIsTableEmpty s₃.mem (frameVirt hh g₂) = true
  swap
  · rw [if_neg hempty₂]
    exact ⟨s₃, rfl, hshrunk₃, hpages₃⟩
  rw [if_pos hempty₂]
  obtain ⟨hshrunk₂, hother₂⟩ := hshrunk₃.inv.releaseTable (by simp)
    (hone₃.trans hreach.walk_one) hpdpt hempty₂
  generalize releaseTable s₃ (frameVirt hh g₁) (pdptIndex virt) e₂ = s₂ at hshrunk₂ hother₂ ⊢
  have hpages₂ : ∀ q : List Index, q.length = 4 →
      walk (link hh s₂.mem) r q = walk (link hh s.mem) r q :=
    fun q hq => (hother₂ q hq.le (by rintro rfl; simp at hq)).trans (hpages₃ q hq)
  have hpml4' := link_pml4_congr hpml4 (hother₂ [pml4Index virt] (by simp) (by simp))
  by_cases hempty₁ : vmmIsTableEmpty s₂.mem (frameVirt hh g₁) = true
  swap
  · rw [if_neg hempty₁]
    exact ⟨s₂, rfl, hshrunk₃.trans hshrunk₂, hpages₂⟩
  rw [if_pos hempty₁]
  obtain ⟨hshrunk₁, hother₁⟩ := hshrunk₂.inv.releaseTable (p := []) (by simp) rfl hpml4' hempty₁
  exact ⟨_, rfl, (hshrunk₃.trans hshrunk₂).trans hshrunk₁,
    fun q hq => (hother₁ q hq.le (by rintro rfl; simp at hq)).trans (hpages₂ q hq)⟩

/-- What an aligned `vmm_unmap_page` does to the pagemap. -/
structure Unmapped (hh : Word) (s s' : Machine) (r : ℕ) (virt : Word) : Prop
    extends Shrunk hh s s' r where
  walk_self : walk (link hh s'.mem) r (pathOf virt) = none
  pages : ∀ q : List Index, q.length = 4 → q ≠ pathOf virt →
    walk (link hh s'.mem) r q = walk (link hh s.mem) r q

theorem Unmapped.refl (h : TableInv hh s r) {virt : Word}
    (hnone : walk (link hh s.mem) r (pathOf virt) = none) : Unmapped hh s s r virt :=
  ⟨Shrunk.refl h, hnone, fun _ _ _ => rfl⟩

/-- Clearing the leaf and releasing the tables above it unmaps the page. -/
theorem unmapped_of_reaches (h : TableInv hh s r) {virt e₁ e₂ e₃ : Word} {g₁ g₂ g₃ : ℕ}
    (hreach : Reaches hh s.mem r virt e₁ e₂ e₃ g₁ g₂ g₃) :
    Unmapped hh s (releaseEmptyTables (setEntry hh s g₃ (ptIndex virt) 0#64) virt
      (frameVirt hh r) (frameVirt hh g₁) (frameVirt hh g₂) (frameVirt hh g₃) e₁ e₂ e₃) r virt := by
  obtain ⟨hinv, hfoot, hw, hother⟩ := h.setLeaf rfl hreach.walk_three (ptIndex virt) 0#64 (Or.inl rfl)
  have hleaf : link hh (setEntry hh s g₃ (ptIndex virt) 0#64).mem g₃ (ptIndex virt) = none :=
    link_of_zero (entry_writeEntry_same hh _ g₃ _ _)
  have hnone : walk (link hh (setEntry hh s g₃ (ptIndex virt) 0#64).mem) r (pathOf virt) = none := by
    rw [pathOf_eq_upperPath, walk_append hw, walk_cons_of_none hleaf]
    rfl
  have hshrunk : Shrunk hh s (setEntry hh s g₃ (ptIndex virt) 0#64) r := by
    refine ⟨hinv, rfl, fun x hx => (hfoot x).mp hx, fun x => ?_⟩
    rw [hfoot x]
    exact ⟨fun hx => Or.inl hx, fun hx => hx.resolve_right fun hboth => hboth.2 hboth.1⟩
  generalize setEntry hh s g₃ (ptIndex virt) 0#64 = s₀ at hinv hother hnone hshrunk ⊢
  have hone := hother [pml4Index virt] (by simp) (by simp [upperPath])
  have htwo := hother [pml4Index virt, pdptIndex virt] (by simp) (by simp [upperPath])
  have hthree := hother (upperPath virt) (by simp [upperPath]) (by simp)
  have hreach₀ : Reaches hh s₀.mem r virt e₁ e₂ e₃ g₁ g₂ g₃ :=
    ⟨link_pml4_congr hreach.pml4 hone,
      edge_of_walk_eq (p := [pml4Index virt]) hone htwo hreach.walk_one hreach.pdpt,
      edge_of_walk_eq (p := [pml4Index virt, pdptIndex virt]) htwo hthree hreach.walk_two hreach.pd⟩
  obtain ⟨s', heq, hshrunk', hpages⟩ := releaseEmptyTables_spec hinv hreach₀
  rw [heq]
  refine ⟨hshrunk.trans hshrunk', (hpages _ (pathOf_length virt)).trans hnone, fun q hlen hne => ?_⟩
  rw [hpages q hlen, hother q hlen.le hne]

theorem vmmUnmapPage_unaligned {virt : Word} (halign : virt % 4096#64 ≠ 0#64) (pagemap : Pagemap) :
    vmmUnmapPage hh s pagemap virt = (false, s) := by
  unfold vmmUnmapPage
  rw [if_pos halign]

/-- An address is unmapped at one of the four levels, or has a leaf. -/
theorem walk_pathOf_cases (hh : Word) (m : Mem) (r : ℕ) (virt : Word) :
    (link hh m r (pml4Index virt) = none ∧ walk (link hh m) r (pathOf virt) = none) ∨
    ∃ e₁ g₁, link hh m r (pml4Index virt) = some (e₁, g₁) ∧
      ((link hh m g₁ (pdptIndex virt) = none ∧ walk (link hh m) r (pathOf virt) = none) ∨
      ∃ e₂ g₂, link hh m g₁ (pdptIndex virt) = some (e₂, g₂) ∧
        ((link hh m g₂ (pdIndex virt) = none ∧ walk (link hh m) r (pathOf virt) = none) ∨
        ∃ e₃ g₃, Reaches hh m r virt e₁ e₂ e₃ g₁ g₂ g₃ ∧
          walk (link hh m) r (pathOf virt) =
            (link hh m g₃ (ptIndex virt)).map fun edge => ([e₁, e₂, e₃, edge.1], edge.2))) := by
  unfold pathOf
  cases h₁ : link hh m r (pml4Index virt) with
  | none => exact Or.inl ⟨rfl, walk_cons_of_none h₁ _⟩
  | some edge₁ =>
      obtain ⟨e₁, g₁⟩ := edge₁
      refine Or.inr ⟨e₁, g₁, rfl, ?_⟩
      rw [walk_cons_of_some h₁]
      cases h₂ : link hh m g₁ (pdptIndex virt) with
      | none =>
          rw [walk_cons_of_none h₂]
          exact Or.inl ⟨rfl, rfl⟩
      | some edge₂ =>
          obtain ⟨e₂, g₂⟩ := edge₂
          refine Or.inr ⟨e₂, g₂, rfl, ?_⟩
          rw [walk_cons_of_some h₂]
          cases h₃ : link hh m g₂ (pdIndex virt) with
          | none =>
              rw [walk_cons_of_none h₃]
              exact Or.inl ⟨rfl, rfl⟩
          | some edge₃ =>
              obtain ⟨e₃, g₃⟩ := edge₃
              refine Or.inr ⟨e₃, g₃, ⟨h₁, h₂, h₃⟩, ?_⟩
              rw [walk_cons_of_some h₃]
              cases h₄ : link hh m g₃ (ptIndex virt) with
              | none =>
                  rw [walk_cons_of_none h₄]
                  rfl
              | some edge₄ =>
                  rw [walk_cons_of_some h₄]
                  rfl

/-- The page is not mapped, or its leaf is cleared and the tables above it are cleaned up. -/
theorem vmmUnmapPage_cases (h : TableInv hh s r) {virt : Word} (halign : virt % 4096#64 = 0#64) :
    (vmmUnmapPage hh s ⟨frameVirt hh r⟩ virt = (true, s) ∧
      walk (link hh s.mem) r (pathOf virt) = none) ∨
    ∃ e₁ e₂ e₃ g₁ g₂ g₃, Reaches hh s.mem r virt e₁ e₂ e₃ g₁ g₂ g₃ ∧
      vmmUnmapPage hh s ⟨frameVirt hh r⟩ virt = (true,
        releaseEmptyTables (setEntry hh s g₃ (ptIndex virt) 0#64) virt (frameVirt hh r)
          (frameVirt hh g₁) (frameVirt hh g₂) (frameVirt hh g₃) e₁ e₂ e₃) := by
  rcases walk_pathOf_cases hh s.mem r virt with ⟨h₁, hnone⟩ | ⟨e₁, g₁, h₁, hcases⟩
  · refine .inl ⟨?_, hnone⟩
    unfold vmmUnmapPage
    dsimp only
    rw [if_neg (not_not.mpr halign), vmmGetNextLevel_of_absent h₁]
    exact if_pos rfl
  have hw₁ : walk (link hh s.mem) r [pml4Index virt] = some ([e₁], g₁) := walk_snoc (p := []) rfl h₁
  have hne₁ := h.frameVirt_ne_zero (p := []) (by simp) rfl h₁
  rcases hcases with ⟨h₂, hnone⟩ | ⟨e₂, g₂, h₂, hcases⟩
  · refine .inl ⟨?_, hnone⟩
    unfold vmmUnmapPage
    dsimp only
    rw [if_neg (not_not.mpr halign), vmmGetNextLevel_of_present h₁, if_neg hne₁,
      vmmGetNextLevel_of_absent h₂]
    exact if_pos rfl
  have hne₂ := h.frameVirt_ne_zero (by simp) hw₁ h₂
  rcases hcases with ⟨h₃, hnone⟩ | ⟨e₃, g₃, hreach, hwalk⟩
  · refine .inl ⟨?_, hnone⟩
    unfold vmmUnmapPage
    dsimp only
    rw [if_neg (not_not.mpr halign), vmmGetNextLevel_of_present h₁, if_neg hne₁,
      vmmGetNextLevel_of_present h₂, if_neg hne₂, vmmGetNextLevel_of_absent h₃]
    exact if_pos rfl
  cases hleaf : link hh s.mem g₃ (ptIndex virt) with
  | none =>
      have hne₃ := h.frameVirt_ne_zero (by simp) hreach.walk_two hreach.pd
      have habsent := not_not.mp (not_present_of_link hleaf)
      refine .inl ⟨?_, by rw [hwalk, hleaf]; rfl⟩
      unfold vmmUnmapPage
      dsimp only
      rw [if_neg (not_not.mpr halign), vmmGetNextLevel_of_present h₁, if_neg hne₁,
        vmmGetNextLevel_of_present h₂, if_neg hne₂, vmmGetNextLevel_of_present hreach.pd,
        if_neg hne₃, if_pos habsent]
  | some edge =>
      exact .inr ⟨e₁, e₂, e₃, g₁, g₂, g₃, hreach, vmmUnmapPage_of_reaches h halign hreach hleaf⟩

/-- An aligned `vmm_unmap_page` reports success and leaves the page unmapped. -/
theorem vmmUnmapPage_aligned (h : TableInv hh s r) {virt : Word} (halign : virt % 4096#64 = 0#64) :
    ∃ s', vmmUnmapPage hh s ⟨frameVirt hh r⟩ virt = (true, s') ∧ Unmapped hh s s' r virt := by
  rcases vmmUnmapPage_cases h halign with ⟨heq, hnone⟩ | ⟨e₁, e₂, e₃, g₁, g₂, g₃, hreach, heq⟩
  · exact ⟨s, heq, Unmapped.refl h hnone⟩
  · exact ⟨_, heq, unmapped_of_reaches h hreach⟩

/-- `vmm_virt_to_phys` returns what the walk finds, if no table is at `NULL`. -/
theorem vmmVirtToPhys_of_nonnull
    (hnull : ∀ g ∈ below (link hh s.mem) 3 r, frameVirt hh g ≠ 0#64) (virt : Word) :
    vmmVirtToPhys hh s ⟨frameVirt hh r⟩ virt =
      match walk (link hh s.mem) r (pathOf virt) with
      | some (_, f) => frameAddr f + virt % 4096#64
      | none => -1#64 := by
  unfold vmmVirtToPhys
  dsimp only
  rcases walk_pathOf_cases hh s.mem r virt with ⟨h₁, hnone⟩ | ⟨e₁, g₁, h₁, hcases⟩
  · rw [vmmGetNextLevel_of_absent h₁, hnone]
    rfl
  rw [vmmGetNextLevel_of_present h₁, if_neg (hnull g₁ (mem_below_of_link (p := []) (by simp) rfl h₁))]
  have hw₁ : walk (link hh s.mem) r [pml4Index virt] = some ([e₁], g₁) := walk_snoc (p := []) rfl h₁
  rcases hcases with ⟨h₂, hnone⟩ | ⟨e₂, g₂, h₂, hcases⟩
  · rw [vmmGetNextLevel_of_absent h₂, hnone]
    rfl
  rw [vmmGetNextLevel_of_present h₂, if_neg (hnull g₂ (mem_below_of_link (by simp) hw₁ h₂))]
  rcases hcases with ⟨h₃, hnone⟩ | ⟨e₃, g₃, hreach, hwalk⟩
  · rw [vmmGetNextLevel_of_absent h₃, hnone]
    rfl
  rw [vmmGetNextLevel_of_present hreach.pd,
    if_neg (hnull g₃ (mem_below_of_link (by simp) hreach.walk_two hreach.pd)), hwalk]
  by_cases hleaf : readEntry s.mem (frameVirt hh g₃) (ptIndex virt) &&& ptePresent = 0#64
  · rw [if_pos hleaf, link_of_not_present (not_not.mpr hleaf)]
    rfl
  · rw [if_neg hleaf, link_of_present hleaf, pteGetAddr_eq_frameAddr]
    rfl

theorem vmmVirtToPhys_eq (h : TableInv hh s r) (virt : Word) :
    vmmVirtToPhys hh s ⟨frameVirt hh r⟩ virt =
      match walk (link hh s.mem) r (pathOf virt) with
      | some (_, f) => frameAddr f + virt % 4096#64
      | none => -1#64 :=
  vmmVirtToPhys_of_nonnull h.nonnull virt

end UnmapPage

end Osiris.Vmm
