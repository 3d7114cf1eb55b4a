import Osiris.Verification.Clone.Pagemap

/-! # A clone is a pagemap like its source

The tables of a clone hold nothing but what the source's tables hold, so that the clone can be mapped
to, unmapped from and cloned as well. -/

namespace Osiris.Clone

open ByteMemory Strings Page Vmm Radix

section Rounds

variable {hh : Word} {s s₁ s₃ s' : Machine} {d e f c g i : ℕ} {done : Set Index} {k : Index}
  {a : Word}

/-- What an entry of the source is known for: it is present, and writable where it links a table. -/
def Linked (d : ℕ) (a : Word) : Prop :=
  HasFlag a ptePresent ∧ (d ≠ 0 → HasFlag a pteWritable)

theorem linked_of_formed (hformed : Formed hh s.mem d f) (hlink : link hh s.mem f k = some (a, g)) :
    Linked d a := by
  obtain ⟨rfl, hpresent, -⟩ := link_eq_some.mp hlink
  rcases hformed k with hzero | hentry
  · rw [hzero] at hpresent
    exact absurd hpresent (not_hasFlag_zero _)
  · exact hentry

theorem Linked.lowFlags (h : Linked d a) (i : ℕ) : Linked d (frameAddr i ||| (a &&& 0xFFF#64)) := by
  have hmask : 0xFFF#64 &&& pteWritable = pteWritable := by decide
  refine ⟨hasFlag_or.mpr (.inr (present_lowFlags h.1)), fun hd => hasFlag_or.mpr (.inr ?_)⟩
  unfold HasFlag
  rw [BitVec.and_assoc, hmask]
  exact h.2 hd

theorem Attached.formed_root (hnew : Attached hh s s₁ s₃ d c k a g i) (ha : Linked d a)
    (hformed : Formed hh s₁.mem d c) : Formed hh s₃.mem d c := by
  intro j
  by_cases hj : j = k
  · rw [hj, hnew.entry_self]
    exact .inr (ha.lowFlags i)
  · rw [hnew.entry_other j hj]
    exact hformed j

/-- An attached table keeps the tables of the child well formed. -/
theorem Attached.formed (hnew : Attached hh s s₁ s₃ (e + 1) c k a g i) (ha : Linked (e + 1) a)
    (h : Copying hh s s₁ (e + 1) f c done) (hs : s.Valid hh)
    (hformed : AllNodes (Formed hh s₁.mem) (link hh s₁.mem) (e + 1) c)
    (hinner : AllNodes (Formed hh s₃.mem) (link hh s₃.mem) e i) :
    AllNodes (Formed hh s₃.mem) (link hh s₃.mem) (e + 1) c := by
  obtain ⟨hroot, hchildren⟩ := allNodes_succ.mp hformed
  have hi : i < 2 ^ 40 := hs.lt_limit (h.free i hnew.fresh).1
  refine allNodes_succ.mpr ⟨hnew.formed_root ha hroot, fun j b x hj => ?_⟩
  by_cases hjk : j = k
  · subst hjk
    obtain ⟨-, rfl⟩ := Prod.mk.inj (Option.some.inj ((hnew.link_self hi ha.1).symm.trans hj))
    exact hinner
  · rw [hnew.link_other hjk] at hj
    refine allFormed_congr (fun y hy => ?_) (hchildren j b x hj)
    have hmem : y ∈ below (link hh s₁.mem) (e + 1 + 1) c :=
      below_subset_succ (e + 1) c ⟨j, b, x, hj, hy⟩
    obtain ⟨hlt, hused, hne⟩ := h.node hs hmem
    exact hnew.same y hlt hused hne

/-! ## One round -/

theorem clonePage_formed (hsite : CopySite hh s 0 f c) (h : Copying hh s s₁ 0 f c done)
    (hsrc : Formed hh s.mem 0 f) (hformed : Formed hh s₁.mem 0 c)
    (hround : clonePage hh (frameVirt hh f) (frameVirt hh c) k s₁ = (true, s')) :
    Formed hh s'.mem 0 c := by
  unfold clonePage at hround
  dsimp only at hround
  rw [h.read_src hsite] at hround
  by_cases hpresent : entry hh s.mem f k &&& ptePresent = 0#64
  · rw [if_pos hpresent] at hround
    exact (Prod.mk.inj hround).2 ▸ hformed
  rw [if_neg hpresent] at hround
  have hlink := link_of_present hpresent
  rcases allocatePage_cases hh s₁ with ⟨hfail, -⟩ | ⟨i, hfree, -, hok⟩
  · rw [hfail] at hround
    exact absurd (Prod.mk.inj hround).1 (by decide)
  · have hne := (h.valid hsite.valid).frameAddr_ne_zero hfree.1
      ((h.valid hsite.valid).ne_zero_of_free hfree)
    rw [hok, pteGetAddr_eq_frameAddr] at hround
    simp only [if_neg hne] at hround
    obtain ⟨-, rfl⟩ := Prod.mk.inj hround
    exact (attached_copyPage hsite h hlink hfree).formed_root (linked_of_formed hsrc hlink) hformed

/-- A round over a table, when it goes on: nothing is done, or a new table is filled. -/
theorem cloneTable_ok {inner : Word → Word → Machine → Bool × Machine}
    (hsite : CopySite hh s (e + 1) f c) (h : Copying hh s s₁ (e + 1) f c done)
    (hround : cloneTable hh inner (frameVirt hh f) (frameVirt hh c) k s₁ = (true, s')) :
    s' = s₁ ∨ ∃ a g i, link hh s.mem f k = some (a, g) ∧ s₁.pmm.Free i ∧
      inner (frameVirt hh g) (frameVirt hh i) (linkTable hh s₁ c k i (a &&& 0xFFF#64)) =
        (true, s') := by
  unfold cloneTable at hround
  dsimp only at hround
  rw [h.read_src hsite] at hround
  by_cases hpresent : entry hh s.mem f k &&& ptePresent = 0#64
  · rw [if_pos hpresent] at hround
    exact .inl (Prod.mk.inj hround).2.symm
  rw [if_neg hpresent] at hround
  have hlink := link_of_present hpresent
  have hlink₁ : link hh s₁.mem f k = some (entry hh s.mem f k, frameOf (entry hh s.mem f k)) := by
    rw [h.link_src hsite (mem_footprint_self _ f)]
    exact hlink
  rw [vmmGetNextLevel_of_present hlink₁,
    if_neg (hsite.src_reached _ ⟨k, _, _, hlink, mem_footprint_self _ _⟩)] at hround
  rcases allocatePage_cases hh s₁ with ⟨hfail, -⟩ | ⟨i, hfree, -, hok⟩
  · rw [hfail] at hround
    exact absurd (Prod.mk.inj hround).1 (by decide)
  · have hne := (h.valid hsite.valid).frameAddr_ne_zero hfree.1
      ((h.valid hsite.valid).ne_zero_of_free hfree)
    rw [hok] at hround
    simp only [if_neg hne] at hround
    exact .inr ⟨_, _, i, hlink, hfree, hround⟩

/-- The tables that the inner loop copies are left alone before it starts. -/
theorem samePage_inner (hsite : CopySite hh s (e + 1) f c) (h : Copying hh s s₁ (e + 1) f c done)
    (hlink : link hh s.mem f k = some (a, g)) (hfree : s₁.pmm.Free i) :
    ∀ x ∈ footprint (link hh s.mem) e g,
      SamePage hh s.mem (linkTable hh s₁ c k i (a &&& 0xFFF#64)).mem x := by
  intro x hx
  have hmem : x ∈ footprint (link hh s.mem) (e + 1) f := footprint_child_subset hlink hx
  obtain ⟨hused, hxc⟩ := hsite.src_used x hmem
  have hlt := hsite.footprint_lt hmem
  refine (h.same x hlt hused hxc).trans (linkTable_samePage hsite.child_lt
    (hsite.valid.lt_limit (h.free i hfree).1) hlt hxc ?_)
  rintro rfl
  exact hused (h.free x hfree)

theorem cloneTable_formed {inner : Word → Word → Machine → Bool × Machine}
    (hinner : ∀ s f c s', CopySite hh s e f c → AllNodes (Formed hh s.mem) (link hh s.mem) e f →
      inner (frameVirt hh f) (frameVirt hh c) s = (true, s') →
      (∃ done, Copying hh s s' e f c done) ∧ AllNodes (Formed hh s'.mem) (link hh s'.mem) e c)
    (hsite : CopySite hh s (e + 1) f c) (h : Copying hh s s₁ (e + 1) f c done)
    (hsrc : AllNodes (Formed hh s.mem) (link hh s.mem) (e + 1) f)
    (hformed : AllNodes (Formed hh s₁.mem) (link hh s₁.mem) (e + 1) c)
    (hround : cloneTable hh inner (frameVirt hh f) (frameVirt hh c) k s₁ = (true, s')) :
    AllNodes (Formed hh s'.mem) (link hh s'.mem) (e + 1) c := by
  rcases cloneTable_ok hsite h hround with rfl | ⟨a, g, i, hlink, hfree, hok⟩
  · exact hformed
  · obtain ⟨hroot, hchildren⟩ := allNodes_succ.mp hsrc
    obtain ⟨hsite', -⟩ := copySite_inner hsite h hlink hfree
    have hsrc' := allFormed_congr (samePage_inner hsite h hlink hfree) (hchildren k a g hlink)
    obtain ⟨⟨done', hcopy⟩, hformed'⟩ := hinner _ g i s' hsite' hsrc' hok
    exact (attached_inner hsite h hlink hfree hcopy).formed (linked_of_formed hroot hlink) h
      hsite.valid hformed hformed'

/-! ## The loops -/

theorem formed_of_rounds {body : Index → Machine → Bool × Machine} (hsite : CopySite hh s d f c)
    (hcopy : ∀ done k s₁, k ∉ done → Copying hh s s₁ d f c done →
      Complete hh s.mem s₁.mem d f c done → RoundSpec hh s d f c (insert k done) (body k s₁))
    (hformed : ∀ done k s₁ s₂, Copying hh s s₁ d f c done →
      AllNodes (Formed hh s₁.mem) (link hh s₁.mem) d c → body k s₁ = (true, s₂) →
        AllNodes (Formed hh s₂.mem) (link hh s₂.mem) d c)
    (hok : Loop.forEach body indices s = (true, s')) :
    (∃ done, Copying hh s s' d f c done) ∧ AllNodes (Formed hh s'.mem) (link hh s'.mem) d c := by
  have hspec := Loop.forEach_spec
    (I := fun done s₁ => (Copying hh s s₁ d f c done ∧ Complete hh s.mem s₁.mem d f c done) ∧
      AllNodes (Formed hh s₁.mem) (link hh s₁.mem) d c)
    (F := fun _ => True)
    (fun done k s₁ hk hI => by
      rcases hcopy done k s₁ hk hI.1.1 hI.1.2 with ⟨s₂, heq, hcopied⟩ | ⟨s₂, heq, -⟩
      · exact .inl ⟨s₂, heq, hcopied, hformed done k s₁ s₂ hI.1.1 hI.2 heq⟩
      · exact .inr ⟨s₂, heq, trivial⟩)
    indices (List.nodup_finRange 512) (fun k _ => Set.notMem_empty k)
    ⟨⟨hsite.start, fun k hk => absurd hk (Set.notMem_empty k)⟩,
      allNodes_of_empty (fun k => link_of_zero (hsite.child_empty k)) fun k =>
        .inl (hsite.child_empty k)⟩
  rcases hspec with ⟨s₂, heq, hcopied, hall⟩ | ⟨s₂, heq, -⟩
  · obtain ⟨-, rfl⟩ := Prod.mk.inj (hok.symm.trans heq)
    exact ⟨⟨_, hcopied.1⟩, hall⟩
  · exact absurd (Prod.mk.inj (hok.symm.trans heq)).1 (by decide)

end Rounds

theorem cloneLevel_formed (hh : Word) (d : ℕ) (s : Machine) (f c : ℕ) (s' : Machine)
    (hsite : CopySite hh s d f c) (hsrc : AllNodes (Formed hh s.mem) (link hh s.mem) d f)
    (hok : cloneLevel hh d (frameVirt hh f) (frameVirt hh c) s = (true, s')) :
    (∃ done, Copying hh s s' d f c done) ∧ AllNodes (Formed hh s'.mem) (link hh s'.mem) d c := by
  induction d generalizing s f c s' with
  | zero =>
      rw [cloneLevel_zero] at hok
      refine formed_of_rounds hsite (fun done k s₁ hk h hc => clonePage_round hsite h hc hk) ?_ hok
      intro done k s₁ s₂ h hformed hround
      exact allNodes_zero.mpr (clonePage_formed hsite h (allNodes_zero.mp hsrc)
        (allNodes_zero.mp hformed) hround)
  | succ d ih =>
      rw [cloneLevel_succ] at hok
      exact formed_of_rounds hsite
        (fun done k s₁ hk h hc => cloneTable_round (cloneLevel_spec hh d) hsite h hc hk)
        (fun done k s₁ s₂ h hformed hround => cloneTable_formed ih hsite h hsrc hformed hround) hok

/-! ## `vmm_clone_pagemap` -/

section Clone

variable {hh child : Word} {s s' : Machine} {r m c : ℕ}

/-- The clone of a pagemap that `vmm_map_page` built, in a new frame `c`, with its `pagemap_t` in a
new frame `m`. -/
structure Forked (hh : Word) (s s' : Machine) (r m c : ℕ) : Prop where
  child : Child hh s s' r (frameVirt hh m) c
  tables : TableInv hh s' c
  highest : s'.pmm.highestPage = s.pmm.highestPage
  handle_free : s.pmm.Free m
  handle_out : m ∉ footprint (link hh s'.mem) 4 c
  free : ∀ x, s'.pmm.Free x ↔ s.pmm.Free x ∧ x ≠ m ∧ x ∉ footprint (link hh s'.mem) 4 c

/-- A clone that is returned has been filled by the loops. -/
theorem clone_loops (hhigh : HigherHalf hh) (h : Source hh s r)
    (hclone : vmmClonePagemap hh s (some ⟨frameVirt hh r⟩) = (child, s')) (hne : child ≠ 0#64) :
    ∃ m c, child = frameVirt hh m ∧ s.pmm.Free m ∧ s.pmm.Free c ∧ c ≠ m ∧
      cloneLevel hh 3 (frameVirt hh r) (frameVirt hh c) (prepared hh s m c) = (true, s') := by
  have hroot : frameVirt hh r ≠ 0#64 := by
    intro hroot
    rw [clone_of_null hroot] at hclone
    exact hne (Prod.mk.inj hclone).1.symm
  rcases allocatePage_cases hh s with ⟨hfail, -⟩ | ⟨m, hm, -, hfirst⟩
  · unfold vmmClonePagemap at hclone
    simp only [if_neg hroot, hfail, if_true] at hclone
    exact absurd (Prod.mk.inj hclone).1.symm hne
  have hmaddr := h.valid.frameAddr_ne_zero hm.1 (h.valid.ne_zero_of_free hm)
  rcases allocatePage_cases hh (takeCleared hh s m) with ⟨hfail, -⟩ | ⟨c, hc, -, hsecond⟩
  · rw [clone_of_one_frame hroot hmaddr hfirst hfail] at hclone
    exact absurd (Prod.mk.inj hclone).1.symm hne
  rw [takeCleared_pmm, free_take] at hc
  have hcaddr := h.valid.frameAddr_ne_zero hc.1.1 (h.valid.ne_zero_of_free hc.1)
  rw [clone_of_two_frames hroot hmaddr hcaddr hfirst hsecond, clonePml4_eq hhigh] at hclone
  refine ⟨m, c, ?_⟩
  cases hloops : cloneLevel hh 3 (frameVirt hh r) (frameVirt hh c) (prepared hh s m c) with
  | mk ok s₁ =>
      cases ok with
      | true =>
          rw [hloops] at hclone
          obtain ⟨rfl, rfl⟩ := Prod.mk.inj hclone
          exact ⟨rfl, hm, hc.1, hc.2, rfl⟩
      | false =>
          rw [hloops] at hclone
          exact absurd (Prod.mk.inj hclone).1.symm hne

theorem forked_of_clone (hhigh : HigherHalf hh) (h : TableInv hh s r)
    (hclone : vmmClonePagemap hh s (some ⟨frameVirt hh r⟩) = (child, s')) (hne : child ≠ 0#64) :
    ∃ m c, child = frameVirt hh m ∧ Forked hh s s' r m c := by
  have hsource := source_of_tableInv h
  obtain ⟨m, c, rfl, hm, hc, hcm, hloops⟩ := clone_loops hhigh hsource hclone hne
  have hsite := hsource.copySite hm hc hcm
  rcases cloneLevel_spec hh 3 _ r c hsite with ⟨s₁, heq, hcopy, hall⟩ | ⟨s₁, heq, -⟩
  swap
  · exact absurd (Prod.mk.inj (hloops.symm.trans heq)).1 (by decide)
  obtain ⟨-, rfl⟩ := Prod.mk.inj (hloops.symm.trans heq)
  have hsrc : AllNodes (Formed hh (prepared hh s m c).mem) (link hh (prepared hh s m c).mem) 3 r :=
    allFormed_congr (fun x hx => hsource.same_prepared hm hc (footprint_lt h.root_lt hx)
      (h.used x hx)) h.formed
  have hlate : ∀ x ∈ footprint (link hh s'.mem) 4 c,
      (s.pmm.Free x ∧ x ≠ m) ∧ ¬ s'.pmm.Free x := by
    rintro x (rfl | hx)
    · exact ⟨⟨hc, hcm⟩, fun hfree => (free_prepared.mp (hcopy.free x hfree)).2.2 rfl⟩
    · obtain ⟨hearly, hused⟩ := (hcopy.taken x).mp hx
      obtain ⟨hfree, hxm, -⟩ := free_prepared.mp hearly
      exact ⟨⟨hfree, hxm⟩, hused⟩
  refine ⟨m, c, rfl, child_of_copying hsource hm hc hcm hcopy hall, ?_, hcopy.balanced.highest, hm,
    fun hmem => (hlate m hmem).1.2 rfl, fun x => ⟨fun hfree => ?_, fun hx => ?_⟩⟩
  · refine ⟨hcopy.valid hsite.valid, hsite.child_lt, hcopy.tree.of_succ, fun x hx =>
      (hlate x (footprint_subset_succ 3 c hx)).2, fun x hx => ?_,
      (cloneLevel_formed hh 3 _ r c s' hsite hsrc hloops).2⟩
    obtain ⟨⟨hfree, -⟩, -⟩ := hlate x (footprint_subset_succ 3 c (.inr hx))
    rw [hcopy.balanced.highest]
    exact ⟨hfree.1, h.valid.ne_zero_of_free hfree⟩
  · obtain ⟨hold, hxm, -⟩ := free_prepared.mp (hcopy.free x hfree)
    exact ⟨hold, hxm, fun hmem => (hlate x hmem).2 hfree⟩
  · by_contra hused
    have hxc : x ≠ c := by
      rintro rfl
      exact hx.2.2 (mem_footprint_self 4 x)
    exact hx.2.2 (.inr ((hcopy.taken x).mpr ⟨free_prepared.mpr ⟨hx.1, hx.2.1, hxc⟩, hused⟩))

end Clone

end Osiris.Clone
