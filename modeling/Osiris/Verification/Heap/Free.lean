import Osiris.Verification.Heap.FreeList

/-! # `kfree` puts a block back in its place -/

namespace Osiris.Heap

open ByteMemory Blocks LinkedList

/-! ## The search -/

section Search

variable {m : Mem} {b : Block} {fuel : ℕ} {curr : Word} {rest after : List Block}

theorem addr_lt_iff {c : Block} (hc : Placed c) (hb : Placed b) :
    addr c < addr b ↔ c.start < b.start := by
  rw [BitVec.lt_def, hc.toNat_addr, hb.toNat_addr]

/-- The search ends at the last block before the one that is freed. -/
theorem kfreeLoop_eq (hb : Placed b) (hseg : Seg m curr ((rest ++ after).map node) 0#64)
    (hplaced : ∀ c ∈ rest ++ after, Placed c) (hrest : ∀ c ∈ rest, c.start < b.start)
    (hafter : ∀ c ∈ after, ¬ c.start < b.start) (hfuel : rest.length < fuel)
    (before : List Block) :
    kfreeLoop m (addr b) fuel (lastAddr (before.map node)) curr =
      .ok (lastAddr ((before ++ rest).map node)) := by
  obtain ⟨fuel, rfl⟩ := Nat.exists_eq_succ_of_ne_zero (show fuel ≠ 0 by omega)
  induction rest generalizing fuel curr before with
  | nil =>
      rw [List.append_nil, kfreeLoop, if_neg]
      intro hif
      cases after with
      | nil => exact hif.1 hseg
      | cons c cs =>
          obtain ⟨rfl, -⟩ := seg_cons.mp hseg
          exact hafter c List.mem_cons_self
            ((addr_lt_iff (hplaced c (by simp)) hb).mp hif.2)
  | cons c cs ih =>
      rw [List.cons_append, List.map_cons] at hseg
      obtain ⟨rfl, -, -, hnext⟩ := seg_cons.mp hseg
      have hc : Placed c := hplaced c (by simp)
      have hif : addr c ≠ 0#64 ∧ addr c < addr b :=
        ⟨hc.addr_ne_zero, (addr_lt_iff hc hb).mpr (hrest c List.mem_cons_self)⟩
      obtain ⟨fuel, rfl⟩ := Nat.exists_eq_succ_of_ne_zero
        (show fuel ≠ 0 by simp only [List.length_cons] at hfuel; omega)
      have hloop := ih hnext (fun d hd => hplaced d (List.mem_cons_of_mem c hd))
        (fun d hd => hrest d (List.mem_cons_of_mem c hd)) (before ++ [c]) fuel
        (Nat.lt_of_succ_lt_succ hfuel)
      rw [List.map_append, List.map_singleton, lastAddr_snoc, List.append_assoc,
        List.singleton_append] at hloop
      change kfreeLoop m (addr b) (fuel + 1 + 1) _ (addr c) = _
      rw [kfreeLoop, if_pos hif]
      exact hloop

end Search

/-! ## Linking the block -/

section Link

variable {h : KernelHeap} {b : Block} {before after : List Block}

theorem FreeList.append (hfree : FreeList h (before ++ after)) :
    ∃ mid, Seg h.mem h.freeListHead (before.map node) mid ∧ Seg h.mem mid (after.map node) 0#64 := by
  have hchain := hfree.chain
  rw [List.map_append] at hchain
  exact seg_append.mp hchain

theorem seg_last {m : Mem} {head mid : Word} {bs : List Block} {p : Block}
    (hseg : Seg m head ((bs ++ [p]).map node) mid) : load64 m (addr p + 8#64) = mid := by
  rw [List.map_append, List.map_singleton] at hseg
  obtain ⟨_, -, hlast⟩ := seg_append.mp hseg
  exact (seg_cons.mp hlast).2.2.2

theorem linkBlock_eq {mid : Word} (hb : Placed b) (hplaced : ∀ c ∈ before, Placed c)
    (hdisj : ∀ c ∈ before, c.Disjoint b) (hseg : Seg h.mem h.freeListHead (before.map node) mid) :
    (h.store (addr b) (BitVec.ofNat 64 b.size)).linkBlock (lastAddr (before.map node)) (addr b) =
      (h.writeNode b mid).setNext (lastAddr (before.map node)) (addr b) := by
  cases before using List.reverseRecOn with
  | nil =>
      rw [List.map_nil, seg_nil] at hseg
      rw [List.map_nil, lastAddr_nil, setNext_nil, ← hseg]
      rfl
  | append_singleton bs p =>
      have hp : Placed p := hplaced p (by simp)
      have hlink : load64 (h.store (addr b) (BitVec.ofNat 64 b.size)).mem (addr p + 8#64) = mid := by
        rw [← seg_last hseg]
        refine load64_congr fun x hx => (Touches.of_store h fun y hy => hb.inRange_size hy).mem x
          fun c hc hcontains => ?_
        rw [List.mem_singleton.mp hc] at hcontains
        exact hdisj p (by simp) _ (hp.inRange_next hx) hcontains
      have hlast : lastAddr ((bs ++ [p]).map node) = addr p := by
        rw [List.map_append, List.map_singleton, lastAddr_snoc]
        rfl
      rw [hlast, setNext_addr hp]
      unfold KernelHeap.linkBlock
      rw [if_neg hp.addr_ne_zero, hlink]
      rfl

/-- The block becomes a node between the two parts of the list. -/
theorem linkBlock_spec (hfree : FreeList h (before ++ after)) (hb : Placed b)
    (hdisj : ∀ c ∈ before ++ after, c.Disjoint b) :
    ∃ h', (h.store (addr b) (BitVec.ofNat 64 b.size)).linkBlock (lastAddr (before.map node))
        (addr b) = h' ∧ FreeList h' (before ++ b :: after) ∧ Touches h h' (b :: before) := by
  obtain ⟨mid, hbefore, hafter⟩ := hfree.append
  obtain ⟨hpair, hpair', hcross⟩ := List.pairwise_append.mp hfree.disjoint
  have hplaced : ∀ c ∈ before, Placed c := fun c hc => hfree.placed c (by simp [hc])
  have hplaced' : ∀ c ∈ after, Placed c := fun c hc => hfree.placed c (by simp [hc])
  have hdisj₁ : ∀ c ∈ before, c.Disjoint b := fun c hc => hdisj c (by simp [hc])
  have hdisj₂ : ∀ c ∈ after, c.Disjoint b := fun c hc => hdisj c (by simp [hc])
  have ht := writeNode_touches h hb mid
  have hbefore₁ : Seg (h.writeNode b mid).mem (h.writeNode b mid).freeListHead
      (before.map node) mid := ht.seg hbefore hplaced fun c hc d hd => by
    rw [List.mem_singleton.mp hd]
    exact hdisj₁ c hc
  have hrest₁ := writeNode_seg hb hafter hplaced' hdisj₂
  have hall : ∀ c ∈ before ++ b :: after, Placed c := by
    intro c hc
    simp only [List.mem_append, List.mem_cons] at hc
    rcases hc with hc | rfl | hc
    · exact hplaced c hc
    · exact hb
    · exact hplaced' c hc
  have hpair₁ : (before ++ b :: after).Pairwise Block.Disjoint := by
    refine List.pairwise_append.mpr ⟨hpair, List.pairwise_cons.mpr
      ⟨fun c hc => (hdisj₂ c hc).symm, hpair'⟩, fun c hc d hd => ?_⟩
    cases List.mem_cons.mp hd with
    | inl heq => exact heq ▸ hdisj₁ c hc
    | inr hd => exact hcross c hc d hd
  obtain ⟨hlist, ht₁⟩ := freeList_setNext hbefore₁ hrest₁ hall hpair₁
  refine ⟨_, linkBlock_eq hb hplaced hdisj₁ hbefore, hlist, ?_⟩
  exact (ht.mono fun c hc a ha => ⟨b, by simp, by rwa [List.mem_singleton.mp hc] at ha⟩).trans
    (ht₁.mono fun c hc a ha => ⟨c, by simp [hc], ha⟩)

end Link

/-! ## Joining neighbours -/

section Join

variable {h : KernelHeap} {b c : Block} {before after cs : List Block}

theorem addr_add_size_eq_iff (hb : Placed b) (hc : Placed c) :
    addr b + BitVec.ofNat 64 b.size = addr c ↔ b.stop = c.start := by
  have hpos := hc.start_pos
  have hclt := hc.start_lt
  have hstop := hb.stop_le
  rw [← BitVec.toNat_inj, hc.toNat_addr, BitVec.toNat_add, hb.toNat_addr, hb.toNat_size]
  unfold Block.stop at *
  omega

theorem Placed.join (hb : Placed b) (hc : Placed c) (hadj : b.stop = c.start) :
    Placed (b.join c) := by
  have hsize := hb.size_le
  refine ⟨hb.start_pos, ?_, ?_⟩
  · rw [Block.join_size]
    omega
  · rw [Block.join_stop hadj]
    exact hc.stop_le

/-- One node takes the place of two neighbours. -/
theorem writeNode_join (hfree : FreeList h (before ++ b :: c :: cs)) (hadj : b.stop = c.start) :
    FreeList (h.writeNode (b.join c) (load64 h.mem (addr c + 8#64))) (before ++ b.join c :: cs) ∧
      Touches h (h.writeNode (b.join c) (load64 h.mem (addr c + 8#64))) [b, c] := by
  obtain ⟨hbefore, -, hrest⟩ := hfree.links
  obtain ⟨-, -, -, hafter⟩ := seg_cons.mp hrest
  obtain ⟨hpair, htail, hcross⟩ := List.pairwise_append.mp hfree.disjoint
  obtain ⟨hb', htail'⟩ := List.pairwise_cons.mp htail
  obtain ⟨hc', hpair'⟩ := List.pairwise_cons.mp htail'
  have hb : Placed b := hfree.placed b (by simp)
  have hc : Placed c := hfree.placed c (by simp)
  have hjoin : Placed (b.join c) := hb.join hc hadj
  have hdisj₁ : ∀ d ∈ before, (b.join c).Disjoint d := fun d hd => (disjoint_join hadj).mpr
    ⟨(hcross d hd b (by simp)).symm, (hcross d hd c (by simp)).symm⟩
  have hdisj₂ : ∀ d ∈ cs, (b.join c).Disjoint d := fun d hd => (disjoint_join hadj).mpr
    ⟨hb' d (by simp [hd]), hc' d hd⟩
  have ht := writeNode_touches h hjoin (load64 h.mem (addr c + 8#64))
  have hbefore₁ := ht.seg hbefore (fun d hd => hfree.placed d (by simp [hd])) fun d hd e he => by
    rw [List.mem_singleton.mp he]
    exact (hdisj₁ d hd).symm
  have hrest₁ := writeNode_seg hjoin hafter (fun d hd => hfree.placed d (by simp [hd]))
    fun d hd => (hdisj₂ d hd).symm
  refine ⟨⟨?_, ?_, ?_⟩, ht.mono fun d hd a ha => ?_⟩
  · rw [List.map_append]
    exact seg_append.mpr ⟨_, hbefore₁, hrest₁⟩
  · intro d hd
    simp only [List.mem_append, List.mem_cons] at hd
    rcases hd with hd | rfl | hd
    · exact hfree.placed d (by simp [hd])
    · exact hjoin
    · exact hfree.placed d (by simp [hd])
  · refine List.pairwise_append.mpr ⟨hpair, List.pairwise_cons.mpr ⟨hdisj₂, hpair'⟩,
      fun d hd e he => ?_⟩
    cases List.mem_cons.mp he with
    | inl heq => exact heq ▸ (hdisj₁ d hd).symm
    | inr he => exact hcross d hd e (by simp [he])
  · rw [List.mem_singleton.mp hd, Block.contains_join hadj] at ha
    cases ha with
    | inl hbx => exact ⟨b, by simp, hbx⟩
    | inr hcx => exact ⟨c, by simp, hcx⟩

theorem FreeList.loads (hfree : FreeList h (before ++ b :: c :: cs)) :
    load64 h.mem (addr b) = BitVec.ofNat 64 b.size ∧ load64 h.mem (addr b + 8#64) = addr c ∧
      load64 h.mem (addr c) = BitVec.ofNat 64 c.size := by
  obtain ⟨-, hsize, hrest⟩ := hfree.links
  obtain ⟨hnext, -, hsize', -⟩ := seg_cons.mp hrest
  exact ⟨hsize, hnext, hsize'⟩

/-- Storing the sum of the sizes leaves the links alone. -/
theorem load64_next_of_store (hfree : FreeList h (before ++ b :: c :: cs)) (v : Word) :
    load64 (h.store (addr b) v).mem (addr c + 8#64) = load64 h.mem (addr c + 8#64) ∧
      load64 (h.store (addr b) v).mem (addr b + 8#64) = load64 h.mem (addr b + 8#64) := by
  have hb : Placed b := hfree.placed b (by simp)
  have hc : Placed c := hfree.placed c (by simp)
  have hbc : b.Disjoint c := by
    obtain ⟨-, htail, -⟩ := List.pairwise_append.mp hfree.disjoint
    exact (List.pairwise_cons.mp htail).1 c (by simp)
  constructor
  · refine load64_congr fun x hx => store64_of_not_inRange _ _ _ _ fun hin => ?_
    exact hbc _ (hb.inRange_size hin) (hc.inRange_next hx)
  · exact load64_store64_apart _ _ _ _ (apart_next (addr b)).symm

theorem joinPrev_spec (hfree : FreeList h (before ++ b :: c :: cs)) :
    FreeList (h.joinPrev (addr b) (addr c)) (before ++ attach b (c :: cs)) ∧
      Touches h (h.joinPrev (addr b) (addr c)) [b, c] := by
  have hb : Placed b := hfree.placed b (by simp)
  have hc : Placed c := hfree.placed c (by simp)
  obtain ⟨hsize, -, hsize'⟩ := hfree.loads
  have hiff := addr_add_size_eq_iff hb hc
  rw [attach_cons]
  unfold KernelHeap.joinPrev
  dsimp only
  rw [hsize, hsize']
  by_cases hadj : b.stop = c.start
  · rw [if_pos hadj, if_pos ⟨hb.addr_ne_zero, hiff.mpr hadj⟩, (load64_next_of_store hfree _).1,
      ← BitVec.ofNat_add]
    exact writeNode_join hfree hadj
  · rw [if_neg hadj, if_neg fun hif => hadj (hiff.mp hif.2)]
    exact ⟨hfree, Touches.refl h _⟩

/-- `joinNext` does for a block what `joinPrev` does for the block before it. -/
theorem joinNext_eq_joinPrev (hfree : FreeList h (before ++ b :: c :: cs)) :
    h.joinNext (addr b) = h.joinPrev (addr b) (addr c) := by
  have hb : Placed b := hfree.placed b (by simp)
  have hc : Placed c := hfree.placed c (by simp)
  obtain ⟨-, hnext, -⟩ := hfree.loads
  unfold KernelHeap.joinNext KernelHeap.joinPrev
  dsimp only
  rw [hnext, (load64_next_of_store hfree _).2, hnext]
  simp only [hb.addr_ne_zero, hc.addr_ne_zero, ne_eq, not_false_eq_true, true_and]

theorem joinNext_spec (hfree : FreeList h (before ++ b :: after)) :
    FreeList (h.joinNext (addr b)) (before ++ attach b after) ∧
      Touches h (h.joinNext (addr b)) (b :: after) := by
  cases after with
  | nil =>
      obtain ⟨-, -, hnext⟩ := hfree.links
      have hstate : h.joinNext (addr b) = h := by
        unfold KernelHeap.joinNext
        exact if_neg fun hif => hif.1 hnext
      rw [hstate]
      exact ⟨hfree, Touches.refl h _⟩
  | cons c cs =>
      rw [joinNext_eq_joinPrev hfree]
      obtain ⟨hlist, ht⟩ := joinPrev_spec hfree
      refine ⟨hlist, ht.mono fun d hd a ha => ⟨d, ?_, ha⟩⟩
      simp only [List.mem_cons, List.not_mem_nil, or_false] at hd ⊢
      tauto

end Join

/-! ## `kfree` -/

section Kfree

variable {h : KernelHeap} {b : Block} {free before after : List Block} {fuel : ℕ}

/-- The block is linked and joined with its neighbours. -/
theorem putBlock_spec (hfree : FreeList h (before ++ after)) (hsep : Separated (before ++ after))
    (hb : Placed b) (hdisj : ∀ c ∈ before ++ after, c.Disjoint b)
    (hbefore : ∀ c ∈ before, c.start < b.start) (hafter : ∀ c ∈ after, ¬ c.start < b.start) :
    ∃ h', (((h.store (addr b) (BitVec.ofNat 64 b.size)).linkBlock (lastAddr (before.map node))
        (addr b)).joinNext (addr b)).joinPrev (lastAddr (before.map node)) (addr b) = h' ∧
      FreeList h' (release b (before ++ after)) ∧ Touches h h' (b :: (before ++ after)) := by
  obtain ⟨h₁, hh₁, hlist₁, ht₁⟩ := linkBlock_spec hfree hb hdisj
  rw [hh₁]
  obtain ⟨hlist₂, ht₂⟩ := joinNext_spec hlist₁
  obtain ⟨d, ds, hattach, hstart⟩ := attach_eq_cons b after
  have haddr : addr d = addr b := by
    unfold addr
    rw [hstart]
  have hin₁ : ∀ c ∈ b :: before, ∀ a, c.Contains a →
      ∃ e ∈ b :: (before ++ after), e.Contains a := fun c hc a ha => by
    refine ⟨c, ?_, ha⟩
    simp only [List.mem_cons, List.mem_append] at hc ⊢
    tauto
  have hin₂ : ∀ c ∈ b :: after, ∀ a, c.Contains a →
      ∃ e ∈ b :: (before ++ after), e.Contains a := fun c hc a ha => by
    refine ⟨c, ?_, ha⟩
    simp only [List.mem_cons, List.mem_append] at hc ⊢
    tauto
  have ht : Touches h (h₁.joinNext (addr b)) (b :: (before ++ after)) :=
    (ht₁.mono hin₁).trans (ht₂.mono hin₂)
  cases before using List.reverseRecOn with
  | nil =>
      rw [List.nil_append] at hlist₂ ht ⊢
      have hstate : (h₁.joinNext (addr b)).joinPrev (lastAddr ([].map node)) (addr b) =
          h₁.joinNext (addr b) := if_neg fun hif => hif.1 rfl
      rw [release_eq_attach hafter]
      exact ⟨_, hstate, hlist₂, ht⟩
  | append_singleton bs p =>
      have hlast : lastAddr ((bs ++ [p]).map node) = addr p := by
        rw [List.map_append, List.map_singleton, lastAddr_snoc]
        rfl
      rw [List.append_assoc, List.singleton_append] at hlist₂ hsep hin₂ ht ⊢
      rw [hattach] at hlist₂
      obtain ⟨hlist₃, ht₃⟩ := joinPrev_spec hlist₂
      rw [haddr] at hlist₃ ht₃
      have hp := hbefore p (by simp)
      have hfar : ∀ c ∈ bs, c.stop < b.start := fun c hc =>
        lt_trans ((List.pairwise_append.mp hsep).2.2 c hc p (by simp)) hp
      rw [hlast, release_append hsep (fun c hc => hbefore c (by simp [hc])) hp hafter hfar,
        hattach]
      refine ⟨_, rfl, hlist₃, ht.trans (ht₃.mono fun c hc a ha => ?_)⟩
      simp only [List.mem_cons, List.not_mem_nil, or_false] at hc
      rcases hc with rfl | rfl
      · exact ⟨c, by simp, ha⟩
      · have hmem : c ∈ attach b after := by
          rw [hattach]
          exact List.mem_cons_self
        obtain ⟨e, he, hea⟩ := contains_of_mem_attach hmem ha
        obtain ⟨f, hf, hfa⟩ := hin₂ e he a hea
        exact ⟨f, hf, hfa⟩

/-- `kfree` gives a block back to the free list. -/
theorem kfree_spec (hfree : FreeList h free) (hsep : Separated free) (hb : Placed b)
    (hgrain : 16 ∣ b.start) (hheader : load64 h.mem (addr b) = BitVec.ofNat 64 b.size)
    (hdisj : ∀ c ∈ free, c.Disjoint b) (hlo : h.heapStart.toNat ≤ b.start)
    (hhi : b.start < (h.heapStart + h.heapSize).toNat) (hfuel : free.length < fuel) :
    ∃ h', kfree fuel h (payload b) = .ok h' ∧ FreeList h' (release b free) ∧
      Touches h h' (b :: free) := by
  obtain ⟨before, after, rfl, hbefore, hafter⟩ := hsep.around b.start
  have hcheck : ¬ (addr b < h.heapStart ∨ addr b ≥ h.heapStart + h.heapSize ∨
      BitVec.ofNat 64 b.size < minAllocSize ∨ addr b % heapAlignment ≠ 0#64) := by
    rintro (hlt | hge | hsmall | hodd)
    · rw [BitVec.lt_def, hb.toNat_addr] at hlt
      omega
    · rw [ge_iff_le, BitVec.le_def, hb.toNat_addr] at hge
      omega
    · rw [BitVec.lt_def, hb.toNat_size] at hsmall
      exact absurd hsmall (not_lt.mpr hb.size_le)
    · refine hodd (BitVec.eq_of_toNat_eq ?_)
      rw [BitVec.toNat_umod, hb.toNat_addr]
      exact Nat.mod_eq_zero_of_dvd hgrain
  have hshort : before.length < fuel := by
    rw [List.length_append] at hfuel
    omega
  have hloop := kfreeLoop_eq hb hfree.chain hfree.placed hbefore hafter hshort []
  rw [List.nil_append, List.map_nil, lastAddr_nil] at hloop
  obtain ⟨h', hstate, hlist, ht⟩ := putBlock_spec hfree hsep hb hdisj hbefore hafter
  refine ⟨h', ?_, hlist, ht⟩
  unfold kfree
  dsimp only
  rw [if_neg hb.payload_ne_zero, payload_sub, hheader, if_neg hcheck, hloop]
  exact congrArg Except.ok hstate

end Kfree

end Osiris.Heap
