import Osiris.Model.VmmClone
import Osiris.Verification.Page.Books
import Osiris.Verification.Vmm.Tables

/-! # Releasing the tables

The four nested loops of `vmm_free_pagemap_clone`, taken as one loop at four levels. On a tree of
tables and pages, each loop frees every frame below its table once. -/

namespace Osiris.Clone

open ByteMemory Strings Page Radix Vmm

/-- The loop over a table with `d` levels of tables below it. -/
def freeLevel (hh : Word) : ℕ → Word → Machine → Machine
  | 0 => freePt
  | d + 1 => fun table s => indices.foldl (freeTableClone hh (freeLevel hh d) table) s

theorem freeLevel_zero (hh table : Word) (s : Machine) :
    freeLevel hh 0 table s = indices.foldl (freePageClone table) s := rfl

theorem freeLevel_succ (hh : Word) (d : ℕ) (table : Word) (s : Machine) :
    freeLevel hh (d + 1) table s =
      indices.foldl (freeTableClone hh (freeLevel hh d) table) s := rfl

theorem freeLevel_two (hh : Word) : freeLevel hh 2 = freePdpt hh := rfl

/-- Where a loop starts: a table whose tables and pages form a tree of managed frames. -/
structure FreeSite (hh : Word) (s : Machine) (d c : ℕ) : Prop where
  valid : s.Valid hh
  root_lt : c < 2 ^ 40
  tree : IsTree (link hh s.mem) (d + 1) c
  managed : ∀ x ∈ below (link hh s.mem) (d + 1) c, x ≤ s.pmm.highestPage ∧ x ≠ 0

/-- What a loop has done when it is done with the entries `done`. -/
structure Freeing (hh : Word) (s s' : Machine) (d c : ℕ) (done : Set Index) : Prop where
  balanced : s.pmm.Balanced s'.pmm
  free : ∀ x, s'.pmm.Free x ↔ s.pmm.Free x ∨
    ∃ k ∈ done, ∃ a g, link hh s.mem c k = some (a, g) ∧ x ∈ footprint (link hh s.mem) d g
  same : ∀ x < 2 ^ 40, x ∉ footprint (link hh s.mem) d c → SamePage hh s.mem s'.mem x
  entries : ∀ k ∉ done, entry hh s'.mem c k = entry hh s.mem c k
  rest : ∀ k ∉ done, ∀ a g, link hh s.mem c k = some (a, g) →
    ∀ x ∈ footprint (link hh s.mem) d g, SamePage hh s.mem s'.mem x

theorem Freeing.start (hh : Word) (s : Machine) (d c : ℕ) : Freeing hh s s d c ∅ := by
  refine ⟨Pmm.Balanced.refl _, fun x => ?_, fun x _ _ => SamePage.refl hh _ x, fun _ _ => rfl,
    fun _ _ _ _ _ x _ => SamePage.refl hh _ x⟩
  simp

section Round

variable {hh : Word} {s s₁ s₂ : Machine} {d c g : ℕ} {done : Set Index} {k : Index} {a : Word}

theorem FreeSite.child_lt (hsite : FreeSite hh s d c) {x : ℕ}
    (hx : x ∈ below (link hh s.mem) (d + 1) c) : x < 2 ^ 40 :=
  hsite.valid.lt_limit (hsite.managed x hx).1

theorem Freeing.link_eq (h : Freeing hh s s₁ d c done) (hk : k ∉ done) :
    link hh s₁.mem c k = link hh s.mem c k := by
  simp only [link, h.entries k hk]

/-- A round for an absent entry does nothing. -/
theorem Freeing.skip (h : Freeing hh s s₁ d c done) (hlink : link hh s.mem c k = none) :
    Freeing hh s s₁ d c (insert k done) := by
  refine ⟨h.balanced, fun x => ?_, h.same, fun j hj => h.entries j fun hmem => hj ?_,
    fun j hj => h.rest j fun hmem => hj ?_⟩
  · rw [h.free x]
    refine or_congr_right ⟨?_, ?_⟩
    · rintro ⟨j, hj, hrest⟩
      exact ⟨j, Set.mem_insert_of_mem k hj, hrest⟩
    · rintro ⟨j, hj, b, y, hb, hx⟩
      have hjk : j ≠ k := by
        rintro rfl
        rw [hlink] at hb
        exact absurd hb (by simp)
      exact ⟨j, Set.mem_of_mem_insert_of_ne hj hjk, b, y, hb, hx⟩
  · exact Set.mem_insert_of_mem k hmem
  · exact Set.mem_insert_of_mem k hmem

/-- The state after the frame that an entry points to has been freed and the entry cleared. -/
def dropEntry (hh : Word) (s : Machine) (c : ℕ) (k : Index) (g : ℕ) : Machine :=
  { s.freePage (frameAddr g) with mem := writeEntry s.mem (frameVirt hh c) k 0#64 }

/-- A round frees what its entry leads to, whose tables are `T`, and then the entry's own frame. -/
theorem Freeing.drop (h : Freeing hh s s₁ d c done) (hsite : FreeSite hh s d c) (hk : k ∉ done)
    (hlink : link hh s.mem c k = some (a, g)) {T : Set ℕ} (hbal : s₁.pmm.Balanced s₂.pmm)
    (hfree : ∀ x, (s₂.pmm.Free x ∨ x = g) ↔
      (s₁.pmm.Free x ∨ x ∈ footprint (link hh s.mem) d g))
    (hbelow : T ⊆ footprint (link hh s.mem) d g) (htables : T ⊆ footprint (link hh s.mem) d c)
    (hsame : ∀ x < 2 ^ 40, x ∉ T → SamePage hh s₁.mem s₂.mem x) :
    Freeing hh s (dropEntry hh s₂ c k g) d c (insert k done) := by
  have hg : g ∈ below (link hh s.mem) (d + 1) c := ⟨k, a, g, hlink, mem_footprint_self d g⟩
  have hglt := hsite.child_lt hg
  have hroot : c ∉ footprint (link hh s.mem) d g := hsite.tree.not_mem_child hlink
  have hwrite : ∀ x < 2 ^ 40, x ≠ c → SamePage hh s₂.mem (dropEntry hh s₂ c k g).mem x :=
    fun x hx hxc => samePage_writeEntry (limit_of_lt hsite.root_lt) (limit_of_lt hx) hxc _ _ _
  refine ⟨(h.balanced.trans hbal).trans (balanced_freePage _ _), fun x => ?_, ?_, ?_, ?_⟩
  · have hnow : (dropEntry hh s₂ c k g).pmm.Free x ↔ s₂.pmm.Free x ∨ x = g := by
      refine free_freePage.trans (or_congr_right ⟨fun hx => ?_, fun hx => ?_⟩)
      · exact frameAddr_inj hx.2.1 (limit_of_lt hglt) hx.1.symm
      · rw [hx, hbal.highest, h.balanced.highest]
        exact ⟨rfl, limit_of_lt hglt, (hsite.managed g hg).2, (hsite.managed g hg).1⟩
    rw [hnow, hfree x, h.free x, or_assoc]
    refine or_congr_right ⟨?_, ?_⟩
    · rintro (⟨j, hj, hrest⟩ | hx)
      · exact ⟨j, Set.mem_insert_of_mem k hj, hrest⟩
      · exact ⟨k, Set.mem_insert k done, a, g, hlink, hx⟩
    · rintro ⟨j, hj, b, y, hb, hx⟩
      by_cases hjk : j = k
      · subst hjk
        rw [hlink, Option.some.injEq, Prod.mk.injEq] at hb
        exact Or.inr (hb.2 ▸ hx)
      · exact Or.inl ⟨j, Set.mem_of_mem_insert_of_ne hj hjk, b, y, hb, hx⟩
  · intro x hx hout
    have hxc : x ≠ c := by
      rintro rfl
      exact hout (mem_footprint_self d x)
    exact ((h.same x hx hout).trans (hsame x hx fun hT => hout (htables hT))).trans (hwrite x hx hxc)
  · intro j hj
    have hjk : j ≠ k := by
      rintro rfl
      exact hj (Set.mem_insert j done)
    have hcT : c ∉ T := fun hT => hroot (hbelow hT)
    calc entry hh (dropEntry hh s₂ c k g).mem c j
        = entry hh s₂.mem c j := entry_writeEntry_ne hh _ c hjk _
      _ = entry hh s₁.mem c j := entry_congr (hsame c hsite.root_lt hcT) j
      _ = entry hh s.mem c j := h.entries j fun hmem => hj (Set.mem_insert_of_mem k hmem)
  · intro j hj b y hb x hx
    have hjk : j ≠ k := by
      rintro rfl
      exact hj (Set.mem_insert j done)
    have hxlt := hsite.child_lt ⟨j, b, y, hb, hx⟩
    have hxT : x ∉ T := fun hT =>
      Set.disjoint_left.mp (hsite.tree.2 j k b a y g hb hlink hjk) hx (hbelow hT)
    have hxc : x ≠ c := by
      rintro rfl
      exact hsite.tree.not_mem_child hb hx
    exact ((h.rest j (fun hmem => hj (Set.mem_insert_of_mem k hmem)) b y hb x hx).trans
      (hsame x hxlt hxT)).trans (hwrite x hxlt hxc)

/-- The innermost loop frees a page. -/
theorem freePageClone_round (hsite : FreeSite hh s 0 c) (h : Freeing hh s s₁ 0 c done)
    (hk : k ∉ done) : Freeing hh s (freePageClone (frameVirt hh c) s₁ k) 0 c (insert k done) := by
  have hread : readEntry s₁.mem (frameVirt hh c) k = entry hh s.mem c k := h.entries k hk
  unfold freePageClone
  dsimp only
  rw [hread]
  by_cases hpresent : entry hh s.mem c k &&& ptePresent = 0#64
  · rw [if_pos hpresent]
    exact h.skip (link_of_not_present (not_not.mpr hpresent))
  · rw [if_neg hpresent, pteGetAddr_eq_frameAddr]
    refine h.drop hsite hk (link_of_present hpresent) (T := ∅) (Pmm.Balanced.refl _) (fun x => ?_)
      (Set.empty_subset _) (Set.empty_subset _) (fun x _ _ => SamePage.refl hh _ x)
    rw [footprint_zero, Set.mem_singleton_iff]

/-- Where the inner loop starts. -/
theorem freeSite_inner {e : ℕ} (hsite : FreeSite hh s (e + 1) c)
    (h : Freeing hh s s₁ (e + 1) c done) (hk : k ∉ done) (hlink : link hh s.mem c k = some (a, g)) :
    FreeSite hh s₁ e g ∧
      (∀ x ∈ footprint (link hh s.mem) (e + 1) g, link hh s₁.mem x = link hh s.mem x) := by
  have hrest : ∀ x ∈ footprint (link hh s.mem) (e + 1) g, link hh s₁.mem x = link hh s.mem x :=
    fun x hx => link_congr (h.rest k hk a g hlink x hx)
  have hbelow : ∀ x ∈ footprint (link hh s.mem) (e + 1) g,
      x ∈ below (link hh s.mem) (e + 2) c := fun x hx => ⟨k, a, g, hlink, hx⟩
  obtain ⟨hfoot, htree, -⟩ := congr_footprint hrest
  refine ⟨⟨?_, hsite.child_lt (hbelow g (mem_footprint_self _ g)), htree (hsite.tree.child hlink),
    fun x hx => ?_⟩, hrest⟩
  · refine hsite.valid.of_free h.balanced.highest fun hzero => ?_
    rcases (h.free 0).mp hzero with hold | ⟨j, -, b, y, hb, hx⟩
    · exact hsite.valid.zero_used hold
    · exact (hsite.managed 0 ⟨j, b, y, hb, hx⟩).2 rfl
  · have hx' : x ∈ footprint (link hh s.mem) (e + 1) g := hfoot ▸ Or.inr hx
    rw [h.balanced.highest]
    exact hsite.managed x (hbelow x hx')

/-- The outer loops free a table after what it points to. -/
theorem freeTableClone_round {e : ℕ} {inner : Word → Machine → Machine}
    (hinner : ∀ s c, FreeSite hh s e c → Freeing hh s (inner (frameVirt hh c) s) e c Set.univ)
    (hsite : FreeSite hh s (e + 1) c) (h : Freeing hh s s₁ (e + 1) c done) (hk : k ∉ done) :
    Freeing hh s (freeTableClone hh inner (frameVirt hh c) s₁ k) (e + 1) c (insert k done) := by
  have hread : readEntry s₁.mem (frameVirt hh c) k = entry hh s.mem c k := h.entries k hk
  unfold freeTableClone
  dsimp only
  rw [hread]
  by_cases hpresent : entry hh s.mem c k &&& ptePresent = 0#64
  · rw [if_pos hpresent]
    exact h.skip (link_of_not_present (not_not.mpr hpresent))
  rw [if_neg hpresent]
  have hlink := link_of_present hpresent
  rw [pteGetAddr_eq_frameAddr]
  generalize entry hh s.mem c k = a at hlink
  generalize frameOf a = g at hlink ⊢
  obtain ⟨hsite', hrest⟩ := freeSite_inner hsite h hk hlink
  have hg : g ∈ below (link hh s.mem) (e + 2) c := ⟨k, a, g, hlink, mem_footprint_self _ g⟩
  have hne := hsite.valid.frameVirt_ne_zero (hsite.managed g hg).1 (hsite.managed g hg).2
  rw [vmmGetNextLevel_of_present ((h.link_eq hk).trans hlink), if_neg hne]
  have hfreed := hinner s₁ g hsite'
  have hfoot := (congr_footprint hrest).1
  have hfoot' : footprint (link hh s₁.mem) e g = footprint (link hh s.mem) e g :=
    (congr_footprint fun x hx => hrest x (footprint_subset_succ e g hx)).1
  refine h.drop hsite hk hlink (T := footprint (link hh s.mem) e g) hfreed.balanced (fun x => ?_)
    (footprint_subset_succ e g) (footprint_child_subset hlink) (fun x hx hout => ?_)
  · rw [hfreed.free x, ← hfoot, mem_footprint_succ, or_assoc]
    refine or_congr_right ?_
    simp only [Set.mem_univ, true_and]
    exact or_comm
  · exact hfreed.same x hx (hfoot'.symm ▸ hout)

end Round

/-- A loop is done with all entries at its end. -/
theorem freeing_of_rounds {hh : Word} {s : Machine} {d c : ℕ} {body : Machine → Index → Machine}
    (hround : ∀ done k s₁, k ∉ done → Freeing hh s s₁ d c done →
      Freeing hh s (body s₁ k) d c (insert k done)) :
    Freeing hh s (indices.foldl body s) d c Set.univ := by
  have hspec := Loop.foldl_spec (I := fun done s₁ => Freeing hh s s₁ d c done) hround indices
    (List.nodup_finRange 512) (fun k _ => Set.notMem_empty k) (Freeing.start hh s d c)
  have hall : (∅ : Set Index) ∪ {k | k ∈ indices} = Set.univ := by
    ext k
    simp [indices]
  rwa [hall] at hspec

theorem freeLevel_spec (hh : Word) (d : ℕ) (s : Machine) (c : ℕ) (hsite : FreeSite hh s d c) :
    Freeing hh s (freeLevel hh d (frameVirt hh c) s) d c Set.univ := by
  induction d generalizing s c with
  | zero =>
      rw [freeLevel_zero]
      exact freeing_of_rounds fun done k s₁ hk h => freePageClone_round hsite h hk
  | succ d ih =>
      rw [freeLevel_succ]
      exact freeing_of_rounds fun done k s₁ hk h => freeTableClone_round ih hsite h hk

/-- Every frame below the table is free in the end, and no other has become free. -/
theorem Freeing.free_below {hh : Word} {s s' : Machine} {d c : ℕ}
    (h : Freeing hh s s' d c Set.univ) (x : ℕ) :
    s'.pmm.Free x ↔ s.pmm.Free x ∨ x ∈ below (link hh s.mem) (d + 1) c := by
  rw [h.free x, mem_below_succ]
  simp only [Set.mem_univ, true_and]

end Osiris.Clone
