import Osiris.Verification.Spaces.Operations

/-! # The calls that make and release spaces -/

namespace Osiris.Spaces

open ByteMemory Strings Page Vmm Clone Radix Ledger

variable {hh home space child : Word} {pool : Set ℕ} {seat : Word → Seat} {σ : Session}
  {s s' : Machine} {sp : Space} {seat₀ : Seat} {f r m c n : ℕ} {v : Word} {b : Binding}

/-! ## Pages and leaves -/

/-- Every path of four indices leads to a page. -/
theorem exists_pathOf {p : List Index} (hlen : p.length = 4) : ∃ v, pathOf v = p := by
  obtain ⟨i, j, k, l, rfl⟩ := List.length_eq_four.mp hlen
  refine ⟨BitVec.ofNat 64 (i * 2 ^ 39 + j * 2 ^ 30 + k * 2 ^ 21 + l * 2 ^ 12), ?_⟩
  have hi := i.isLt
  have hj := j.isLt
  have hk := k.isLt
  have hl := l.isLt
  simp only [pathOf, pml4Index, pdptIndex, pdIndex, ptIndex, List.cons.injEq, and_true, Fin.ext_iff,
    levelIndex_val, BitVec.toNat_ofNat]
  omega

theorem pageNumber_pageAddr (v : Word) : pageNumber (pageAddr (pageNumber v)) = pageNumber v := by
  have hv := v.isLt
  unfold pageAddr pageNumber
  rw [BitVec.toNat_ofNat]
  omega

theorem pageAddr_mod (n : ℕ) : pageAddr n % 4096#64 = 0#64 := by
  apply BitVec.eq_of_toNat_eq
  unfold pageAddr
  rw [BitVec.toNat_umod, BitVec.toNat_ofNat]
  change 4096 * n % 2 ^ 64 % 4096 = 0
  omega

theorem walk_of_leafEntry {mem : Mem} {e : Word} (h : leafEntry hh mem r v = some e) :
    ∃ es, walk (link hh mem) r (pathOf v) = some (es, frameOf e) := by
  obtain ⟨es, hw⟩ := leafEntry_eq_some.mp h
  exact ⟨_, hw⟩

theorem Seated.binding_of_walk (h : Seated hh s space sp seat₀) {es : List Word}
    (hw : walk (link hh s.mem) seat₀.root (pathOf v) = some (es, f)) :
    ∃ b, sp (pageNumber v) = some b ∧ frameOf b.frame = f := by
  obtain ⟨owned, hinv⟩ := h.inv
  cases hb : sp (pageNumber v) with
  | none => exact absurd ((hinv.unbound v hb).symm.trans hw) (by simp)
  | some b =>
      obtain ⟨es', hw'⟩ := hinv.bound v b hb
      obtain ⟨-, rfl⟩ := Prod.mk.inj (Option.some.inj (hw'.symm.trans hw))
      exact ⟨b, rfl, (frame_of_proper (h.proper _ b hb)).2⟩

/-- The leaves of a space are its pages. -/
theorem Seated.mem_leaves_iff (h : Seated hh s space sp seat₀) :
    f ∈ leaves (link hh s.mem) 4 seat₀.root ↔ ∃ n b, sp n = some b ∧ frameOf b.frame = f := by
  constructor
  · rintro ⟨p, es, hlen, hw⟩
    obtain ⟨v, rfl⟩ := exists_pathOf hlen
    exact ⟨_, h.binding_of_walk hw⟩
  · rintro ⟨n, b, hb, rfl⟩
    obtain ⟨v, rfl⟩ := h.paged n b hb
    obtain ⟨owned, hinv⟩ := h.inv
    obtain ⟨es, hw⟩ := hinv.bound v b hb
    exact ⟨_, _, pathOf_length v, (frame_of_proper (h.proper _ b hb)).2 ▸ hw⟩

/-! ## Copies -/

theorem lowFlags_leaf (hb : b.Proper) : b.leaf &&& 0xFFF#64 = b.flags &&& 0xFFF#64 := by
  have hmask : pteAddrMask &&& 0xFFF#64 = 0#64 := by decide
  have hframe : b.frame &&& 0xFFF#64 = 0#64 := by
    rw [← hb.addr]
    unfold pteGetAddr
    rw [BitVec.and_assoc, hmask, BitVec.and_zero]
  unfold Binding.leaf
  rw [BitVec.and_or_distrib_right, hframe, BitVec.zero_or]

theorem proper_of_flags {flags : Word} (hf : f < 2 ^ 40) (hflags : pteGetAddr flags = 0#64) :
    (⟨frameAddr f, flags⟩ : Binding).Proper := by
  refine ⟨pteGetAddr_frameAddr_or hf hflags, ?_⟩
  have hzero := pteGetFlags_frameAddr hf
  have hsame := pteGetFlags_of_pteGetAddr hflags
  unfold Binding.leaf
  unfold pteGetFlags at hzero hsame ⊢
  rw [BitVec.and_or_distrib_right, hzero, hsame, BitVec.zero_or]

/-- A page of the copy of a space: where the parent has one, in a frame that was free. -/
structure CopiedPage (hh : Word) (s s' : Machine) (c : ℕ) (child : Word) (sp : Space) (v : Word)
    (b : Binding) (e : Word) : Prop where
  leaf : leafEntry hh s'.mem c v = some e
  binding : copyBindings hh s' child sp (pageNumber v) =
    some ⟨frameAddr (frameOf e), b.flags &&& 0xFFF#64⟩
  leaf_eq : (⟨frameAddr (frameOf e), b.flags &&& 0xFFF#64⟩ : Binding).leaf = e
  free : s.pmm.Free (frameOf e)
  bytes : SameBytes hh s.mem s'.mem (frameOf b.frame) (frameOf e)

section Fork

variable (hseated : Seated hh s space sp seat₀)
  (hfork : Forked hh s s' seat₀.root m c) (hchild : child = frameVirt hh m)
  (hheld : ∀ n b, sp n = some b → ¬ s.pmm.Free (frameOf b.frame))

include hseated hfork hchild hheld

theorem copiedPage (hb : sp (pageNumber v) = some b) :
    ∃ e, CopiedPage hh s s' c child sp v b e := by
  have hproper := hseated.proper _ b hb
  obtain ⟨hframe, hleafFrame⟩ := frame_of_proper hproper
  have hparent : leafEntry hh s.mem seat₀.root v = some b.leaf := by
    rw [hseated.leafEntry_eq, hb]
    rfl
  have hsome := hfork.child.isSome_eq v
  rw [hparent, Option.isSome_some] at hsome
  obtain ⟨e, he⟩ := Option.isSome_iff_exists.mp hsome
  obtain ⟨hcopied, hbytes⟩ := hfork.child.leaf hparent he
  rw [← hleafFrame] at hbytes
  refine ⟨e, he, ?_, ?_, hfork.child.frame_free he, hbytes (hheld _ b hb)⟩
  · obtain ⟨es, hw⟩ := walk_of_leafEntry he
    have hpath : pathOf (pageAddr (pageNumber v)) = pathOf v :=
      pathOf_eq_iff.mpr (pageNumber_pageAddr v)
    have hpagemap : pagemapAt s' child = ⟨frameVirt hh c⟩ := by
      unfold pagemapAt
      rw [hchild, hfork.child.top]
    unfold copyBindings
    rw [hb, Option.map_some, hpagemap, vmmVirtToPhys_eq hfork.tables, hpath, hw]
    dsimp only
    rw [pageAddr_mod, BitVec.add_zero]
  · unfold CopiedEntry at hcopied
    rw [lowFlags_leaf hproper, pteGetAddr_eq_frameAddr] at hcopied
    exact hcopied.symm

theorem copyBindings_cases {b' : Binding} (hb' : copyBindings hh s' child sp n = some b') :
    ∃ v b e, n = pageNumber v ∧ sp n = some b ∧ CopiedPage hh s s' c child sp v b e ∧
      b' = ⟨frameAddr (frameOf e), b.flags &&& 0xFFF#64⟩ := by
  obtain ⟨b, hb, -⟩ := Option.map_eq_some_iff.mp hb'
  obtain ⟨v, rfl⟩ := hseated.paged n b hb
  obtain ⟨e, he⟩ := copiedPage hseated hfork hchild hheld hb
  exact ⟨v, b, e, rfl, hb, he, Option.some.inj (hb'.symm.trans he.binding)⟩

/-- The copy is a space like its parent. -/
theorem seated_child : Seated hh s' child (copyBindings hh s' child sp) ⟨c, m⟩ := by
  have hm := hfork.handle_free
  have hmlt := hseated.tables.valid.lt_limit hm.1
  obtain ⟨owned, hinv⟩ := hseated.inv
  refine ⟨⟨below (link hh s'.mem) 3 c, hfork.tables, fun _ => Iff.rfl, fun v hv => ?_,
    fun v b' hb' => ?_⟩, fun n b' hb' => ?_, fun n b' hb' => ?_, ?_, fun x hx => ?_, hmlt,
    fun hfree => ?_, fun hmem => ?_⟩
  · have hnone : sp (pageNumber v) = none := Option.map_eq_none_iff.mp hv
    exact (hfork.child.walks _ (pathOf_length v).le).mpr (hinv.unbound v hnone)
  · obtain ⟨b, hb, -⟩ := Option.map_eq_some_iff.mp hb'
    obtain ⟨e, he⟩ := copiedPage hseated hfork hchild hheld hb
    obtain rfl := Option.some.inj (hb'.symm.trans he.binding)
    rw [he.leaf_eq]
    exact leafEntry_eq_some.mp he.leaf
  · obtain ⟨v, b, e, -, -, -, rfl⟩ := copyBindings_cases hseated hfork hchild hheld hb'
    exact proper_of_flags (frameOf_lt e) (pteGetAddr_lowFlags _)
  · obtain ⟨v, -, -, rfl, -⟩ := copyBindings_cases hseated hfork hchild hheld hb'
    exact ⟨v, rfl⟩
  · rw [hchild]
    exact hfork.child.top
  · rw [hchild] at hx
    exact lt_trans hx (by norm_num)
  · exact ((hfork.free m).mp hfree).2.1 rfl
  · exact hfork.handle_out (footprint_subset_succ 3 c hmem)

omit hseated hchild hheld in
theorem fork_spares : Spares hh s s' ∅ :=
  ⟨hfork.highest, fun f _ hused hfree => hused ((hfork.free f).mp hfree).1,
    fun f hf _ hused => hfork.child.same f hf hused⟩

omit hseated hchild hheld in
/-- The frames that were free are free still, or are those of the copy. -/
theorem fork_free_iff (f : ℕ) : s.pmm.Free f ↔ s'.pmm.Free f ∨
    f ∈ leaves (link hh s'.mem) 4 c ∨ f ∈ (⟨c, m⟩ : Seat).territory hh s'.mem := by
  have htaken : ∀ g ∈ footprint (link hh s'.mem) 4 c, s.pmm.Free g := by
    rintro g (rfl | hg)
    · exact hfork.child.root_free
    · exact hfork.child.taken g hg
  constructor
  · intro hfree
    by_cases hm : f = m
    · exact .inr (.inr (.inl hm))
    by_cases hfoot : f ∈ footprint (link hh s'.mem) 4 c
    · rcases mem_footprint_succ_iff.mp hfoot with htable | hleaf
      · exact .inr (.inr (.inr htable))
      · exact .inr (.inl hleaf)
    · exact .inl ((hfork.free f).mpr ⟨hfree, hm, hfoot⟩)
  · rintro (hfree | hleaf | rfl | htable)
    · exact ((hfork.free f).mp hfree).1
    · exact htaken f (mem_footprint_succ_iff.mpr (.inr hleaf))
    · exact hfork.handle_free
    · exact htaken f (footprint_subset_succ 3 c htable)

omit hseated hchild hheld in
theorem fork_leaf_apart (hf : f ∈ leaves (link hh s'.mem) 4 c) :
    ¬ s'.pmm.Free f ∧ f ∉ (⟨c, m⟩ : Seat).territory hh s'.mem := by
  have hfoot : f ∈ footprint (link hh s'.mem) 4 c := mem_footprint_succ_iff.mpr (.inr hf)
  refine ⟨fun hfree => ((hfork.free f).mp hfree).2.2 hfoot, ?_⟩
  rintro (rfl | htable)
  · exact hfork.handle_out hfoot
  · exact hfork.child.tree.leaf_notMem hf htable

end Fork

/-- The `pagemap_t` of the copy is in a frame where no space has its own. -/
theorem Family.fresh (h : Family hh home pool seat σ) (hm : σ.machine.pmm.Free m) :
    σ.spaces (frameVirt hh m) = none := by
  by_contra hsome
  obtain ⟨sq, hsq⟩ := Option.ne_none_iff_exists'.mp hsome
  have hseated := h.seated _ sq hsq
  have hin := hseated.inside _ (inRange_self _ (by norm_num))
  have heq := frame_eq_of_inFrame (limit_of_lt hseated.handle_lt)
    (limit_of_lt (h.valid.lt_limit hm.1)) hin (inRange_self _ (by norm_num))
  exact hseated.handle_used (by rwa [heq])

/-- A copy that cannot be made leaves no trace. -/
theorem failed_clone_spares (hhigh : HigherHalf hh) (h : TableInv hh s r)
    (hclone : vmmClonePagemap hh s (some ⟨frameVirt hh r⟩) = (0#64, s')) :
    s'.pmm = s.pmm ∧ Spares hh s s' ∅ := by
  have hcase : s'.pmm = s.pmm ∧ ∀ x < 2 ^ 40, ¬ s.pmm.Free x → SamePage hh s.mem s'.mem x := by
    by_cases hroot : frameVirt hh r = 0#64
    · rw [clone_of_null hroot] at hclone
      obtain rfl := (Prod.mk.inj hclone).2
      exact ⟨rfl, fun x _ _ => SamePage.refl hh _ x⟩
    rcases vmmClonePagemap_cases hhigh (source_of_tableInv h) hroot with
      ⟨m, c, s₁, heq, hne, -⟩ | ⟨s₁, heq, hpmm, hsame, -⟩
    · exact absurd (Prod.mk.inj (heq.symm.trans hclone)).1 hne
    · obtain rfl := (Prod.mk.inj (heq.symm.trans hclone)).2
      exact ⟨hpmm, hsame⟩
  obtain ⟨hpmm, hsame⟩ := hcase
  exact ⟨hpmm, by rw [hpmm], fun f _ hused => by rwa [hpmm], fun f hf _ => hsame f hf⟩

theorem Family.clone (h : Family hh home pool seat σ) (hhigh : HigherHalf hh)
    (hpermit : (σ.world hh).Permits home (.clone space)) :
    Serves hh home pool seat σ (.clone space) (serve hh σ (.clone space)) := by
  obtain ⟨sp, hsp⟩ := Option.ne_none_iff_exists'.mp hpermit
  have hseated := h.seated space sp hsp
  cases hclone : vmmClonePagemap hh σ.machine (some ⟨frameVirt hh (seat space).root⟩) with
  | mk child s' =>
      by_cases hnull : child = 0#64
      · subst hnull
        obtain ⟨hpmm, hspares⟩ := failed_clone_spares hhigh hseated.tables hclone
        have hserve : serve hh σ (.clone space) = (.address 0#64, { σ with machine := s' }) := by
          simp only [serve, hseated.pagemap, hclone, if_true]
        rw [hserve]
        have hvalid : s'.Valid hh := h.valid.of_free (by rw [hpmm]) (hpmm ▸ h.valid.zero_used)
        refine ⟨seat, rfl, h.hold hvalid hspares (fun q sq _ => Set.disjoint_empty _)
          (fun f => by rw [hpmm]) (fun f hf => hpmm ▸ h.held_used hf) h.bound,
          World.Acts.notCopied.congr rfl fun f => world_pages_eq Iff.rfl fun hf =>
            h.held_same hspares hf (Set.notMem_empty f)⟩
      obtain ⟨m, c, hchild, hfork⟩ := forked_of_clone hhigh hseated.tables hclone hnull
      have hfresh : σ.spaces child = none := hchild ▸ h.fresh hfork.handle_free
      have hheld : ∀ n b, sp n = some b → ¬ σ.machine.pmm.Free (frameOf b.frame) := fun n b hb =>
        h.held_used (h.bound _ space ⟨sp, n, b, hsp, hb, rfl⟩)
      have hhome : home ≠ child := by
        rintro rfl
        exact h.home hfresh
      have hnew := seated_child hseated hfork hchild hheld
      have hspares := fork_spares hfork
      generalize hcopy : copyBindings hh s' child sp = copy at hnew
      have hserve : serve hh σ (.clone space) = (.address child,
          ⟨s', σ.held ∪ pagesOf (Function.update σ.spaces child (some copy)) child,
            Function.update σ.spaces child (some copy)⟩) := by
        have hsp' : σ.spaces space = some sp := hsp
        simp only [serve, hseated.pagemap, hclone, if_neg hnull, hsp', Option.map_some, hcopy]
      have hpages : ∀ f, f ∈ pagesOf (Function.update σ.spaces child (some copy)) child ↔
          f ∈ leaves (link hh s'.mem) 4 c := by
        intro f
        rw [hnew.mem_leaves_iff, mem_pagesOf_iff (Function.update_self _ _ _)]
      have hfamily := h.fork hspares hfresh hnew hchild
        (fun f => by rw [hpages f]; exact fork_free_iff hfork f)
        (fun f hf => fork_leaf_apart hfork ((hpages f).mp hf))
      have hcases : ∀ {n b'}, copy n = some b' → ∃ v b e, n = pageNumber v ∧ sp n = some b ∧
          CopiedPage hh σ.machine s' c child sp v b e ∧
            b' = ⟨frameAddr (frameOf e), b.flags &&& 0xFFF#64⟩ := by
        intro n b' hb'
        rw [← hcopy] at hb'
        exact copyBindings_cases hseated hfork hchild hheld hb'
      rw [hserve]
      refine ⟨_, Function.update_of_ne hhome _ _, hfamily, .copied hnull
        (⟨hsp, hfresh, rfl, fun n hn => ?_, fun n b hb => ?_, fun i j b b' hb hb' heq => ?_,
          fun f hf => ?_⟩ : World.Copied _ _ space child sp copy)⟩
      · rw [← hcopy]
        exact Option.map_eq_none_iff.mpr hn
      · obtain ⟨v, rfl⟩ := hseated.paged n b hb
        obtain ⟨e, he⟩ := copiedPage hseated hfork hchild hheld hb
        have hb' : copy (pageNumber v) = some ⟨frameAddr (frameOf e), b.flags &&& 0xFFF#64⟩ :=
          hcopy ▸ he.binding
        have hframe := frameOf_frameAddr (frameOf_lt e)
        have hmem : frameOf e ∈ pagesOf (Function.update σ.spaces child (some copy)) child :=
          ⟨copy, _, _, Function.update_self _ _ _, hb', hframe⟩
        refine ⟨_, hb', rfl, ?_, ?_⟩
        · rw [hframe]
          exact world_pages_of_notMem fun hold => h.held_used hold he.free
        · rw [hframe, world_pages (h.bound _ space ⟨sp, _, b, hsp, hb, rfl⟩)]
          refine (if_pos (.inr hmem)).trans ?_
          congr 1
          funext k
          exact he.bytes k k.isLt
      · obtain ⟨v, b₁, e, rfl, -, he, rfl⟩ := hcases hb
        obtain ⟨w, b₂, e', rfl, -, he', rfl⟩ := hcases hb'
        dsimp only at heq
        rw [frameOf_frameAddr (frameOf_lt e), frameOf_frameAddr (frameOf_lt e')] at heq
        exact hfork.child.frame_inj he'.leaf he.leaf heq
      · refine world_pages_eq ?_ fun hmem => h.held_same hspares hmem (Set.notMem_empty f)
        rw [Set.mem_union, or_iff_left]
        intro hmem
        obtain ⟨n, b, hb, hbf⟩ := (mem_pagesOf_iff (Function.update_self _ _ _)).mp hmem
        exact hf n b hb hbf

/-! ## Releases -/

/-- A space that has no page twice can be freed frame by frame. -/
theorem Family.freeSite (h : Family hh home pool seat σ) (hsp : σ.spaces space = some sp)
    (hne : space ≠ home) (hsimple : (σ.world hh).Simple space) :
    FreeSite hh σ.machine 3 (seat space).root := by
  have hseated := h.seated space sp hsp
  have hheld : ∀ g ∈ leaves (link hh σ.machine.mem) 4 (seat space).root, g ∈ σ.held := fun g hg =>
    h.bound g space ((mem_pagesOf_iff hsp).mpr (hseated.mem_leaves_iff.mp hg))
  refine ⟨h.valid, hseated.tables.root_lt, hseated.tables.tree.succ
    (fun g hg hmem => h.held_out hsp (hheld g hg) (.inr hmem)) ?_, fun x hx => ?_⟩
  · intro p q es es' g hp hq hwp hwq
    obtain ⟨v, rfl⟩ := exists_pathOf hp
    obtain ⟨w, rfl⟩ := exists_pathOf hq
    obtain ⟨b, hb, hbg⟩ := hseated.binding_of_walk hwp
    obtain ⟨b', hb', hbg'⟩ := hseated.binding_of_walk hwq
    exact pathOf_eq_iff.mpr (hsimple sp _ _ b b' hsp hb hb' (hbg.trans hbg'.symm))
  · have hfoot : x ∈ footprint (link hh σ.machine.mem) 4 (seat space).root := .inr hx
    rcases mem_footprint_succ_iff.mp hfoot with htable | hleaf
    · refine h.managed_of_own (i := some space) (fun heq => hne (Option.some.inj heq)) ?_
      rw [own_some hsp]
      exact .inr htable
    · exact h.held_managed (hheld x hleaf)

theorem Family.release (h : Family hh home pool seat σ) (hhigh : HigherHalf hh)
    (hpermit : (σ.world hh).Permits home (.release space)) :
    Serves hh home pool seat σ (.release space) (serve hh σ (.release space)) := by
  obtain ⟨hspace, hne, hunshared, hsimple⟩ := hpermit
  obtain ⟨sp, hsp⟩ := Option.ne_none_iff_exists'.mp hspace
  have hsp' : σ.spaces space = some sp := hsp
  have hseated := h.seated space sp hsp
  have hmanaged : ∀ g ∈ (seat space).territory hh σ.machine.mem,
      g ≤ σ.machine.pmm.highestPage ∧ g ≠ 0 := by
    intro g hg
    refine h.managed_of_own (i := some space) (fun heq => hne (Option.some.inj heq)) ?_
    rwa [own_some hsp']
  have hpages : ∀ g, g ∈ pagesOf σ.spaces space ↔
      g ∈ leaves (link hh σ.machine.mem) 4 (seat space).root := fun g =>
    (mem_pagesOf_iff hsp').trans hseated.mem_leaves_iff.symm
  have hclone : space = frameVirt hh (seat space).handle := h.clones space hspace hne
  have hhandle := hmanaged _ (.inl rfl)
  have htop : load64 σ.machine.mem (frameVirt hh (seat space).handle) =
      frameVirt hh (seat space).root := by
    rw [← hclone]
    exact hseated.top
  obtain ⟨s₁, hfreed, hbalanced, hfree, hsame⟩ := vmmFreePagemapClone_spec hhigh
    (h.freeSite hsp' hne hsimple) (hmanaged _ (.inr (mem_footprint_self 3 _)))
    (h.valid.frameVirt_ne_zero hhandle.1 hhandle.2) htop
  rw [← hclone] at hfreed
  have hsub : space - hh = frameAddr (seat space).handle := by
    conv_lhs => rw [hclone]
    exact frameVirt_sub hh _
  have hserve : serve hh σ (.release space) = (.done,
      ⟨s₁.freePage (frameAddr (seat space).handle), σ.held \ pagesOf σ.spaces space,
        Function.update σ.spaces space none⟩) := by
    simp only [serve, hfreed, hsub]
  have hnow : ∀ g, (s₁.freePage (frameAddr (seat space).handle)).pmm.Free g ↔
      σ.machine.pmm.Free g ∨ g ∈ (seat space).territory hh σ.machine.mem ∨
        g ∈ pagesOf σ.spaces space := by
    intro g
    have hlt := limit_of_lt hseated.handle_lt
    have hlast : (s₁.freePage (frameAddr (seat space).handle)).pmm.Free g ↔
        s₁.pmm.Free g ∨ g = (seat space).handle := by
      rw [Machine.freePage_pmm, free_freePage, hbalanced.highest]
      refine or_congr_right ⟨fun hg => frameAddr_inj hg.2.1 hlt hg.1.symm, ?_⟩
      rintro rfl
      exact ⟨rfl, hlt, hhandle.2, hhandle.1⟩
    rw [hlast, hfree g, mem_footprint_succ_iff, hpages g]
    unfold Seat.territory
    rw [Set.mem_insert_iff]
    tauto
  have hspares : Spares hh σ.machine (s₁.freePage (frameAddr (seat space).handle))
      ((seat space).territory hh σ.machine.mem ∪ pagesOf σ.spaces space) := by
    refine ⟨(freePage_highestPage _ _).trans hbalanced.highest, fun g hg hused hfree' => ?_,
      fun g hg hout _ => hsame g hg fun hmem => hout (.inl (.inr hmem))⟩
    rcases (hnow g).mp hfree' with hold | hmine
    · exact hused hold
    · exact hg hmine
  have hvalid : (s₁.freePage (frameAddr (seat space).handle)).Valid hh := by
    refine h.valid.of_free hspares.highest fun hzero => ?_
    rcases (hnow 0).mp hzero with hold | hterritory | hpage
    · exact h.valid.zero_used hold
    · exact (hmanaged 0 hterritory).2 rfl
    · exact (h.held_managed (h.bound 0 space hpage)).2 rfl
  rw [hserve]
  refine ⟨seat, rfl,
    h.drop hsp' hne hvalid hspares (fun q hq f hf hfq => hunshared q hq f hf hfq) hnow,
    .released ⟨rfl, fun f hf => world_pages_of_notMem fun hmem => hmem.2 hf, fun f hf => ?_⟩⟩
  refine world_pages_eq ⟨And.left, fun hmem => ⟨hmem, hf⟩⟩ fun hmem =>
    h.held_same hspares hmem ?_
  rintro (hterritory | hpage)
  · exact h.held_out hsp' hmem hterritory
  · exact hf hpage

end Osiris.Spaces
