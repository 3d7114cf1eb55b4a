import Osiris.Verification.Heap.FreeList

/-! # `kmalloc` takes the first block that fits -/

namespace Osiris.Heap

open ByteMemory Blocks LinkedList

section Take

variable {h : KernelHeap} {before after : List Block} {b : Block} {n : ℕ}

theorem Placed.fst (hb : Placed b) (hn : 16 ≤ n) (hfits : n ≤ b.size) : Placed (b.fst n) := by
  have hstop := hb.stop_le
  unfold Block.stop at hstop
  refine ⟨hb.start_pos, hn, ?_⟩
  change b.start + n ≤ 2 ^ 64
  omega

theorem Placed.snd (hb : Placed b) (hrest : 16 ≤ b.size - n) : Placed (b.snd n) := by
  have hpos := hb.start_pos
  have hstop := hb.stop_le
  unfold Block.stop at hstop
  refine ⟨?_, hrest, ?_⟩
  · change 0 < b.start + n
    omega
  · change b.start + n + (b.size - n) ≤ 2 ^ 64
    omega

theorem ofNat_sub_ofNat {a n : ℕ} (ha : a < 2 ^ 64) (hn : n ≤ a) :
    BitVec.ofNat 64 a - BitVec.ofNat 64 n = BitVec.ofNat 64 (a - n) := by
  apply BitVec.eq_of_toNat_eq
  rw [BitVec.toNat_sub, BitVec.toNat_ofNat, BitVec.toNat_ofNat, BitVec.toNat_ofNat]
  omega

/-- A block with enough to spare is split. -/
theorem takeBlock_split (hfree : FreeList h (before ++ b :: after)) (hn : 16 ≤ n)
    (hfits : n ≤ b.size) (hrest : 16 ≤ b.size - n) :
    ∃ h', h.takeBlock (BitVec.ofNat 64 n) (lastAddr (before.map node)) (addr b) = h' ∧
      FreeList h' (before ++ b.snd n :: after) ∧ load64 h'.mem (addr b) = BitVec.ofNat 64 n ∧
      Touches h h' (before ++ b :: after) := by
  obtain ⟨hbefore, hsize, hafter⟩ := hfree.links
  obtain ⟨-, htail, hcross⟩ := List.pairwise_append.mp hfree.disjoint
  obtain ⟨hdisj, -⟩ := List.pairwise_cons.mp htail
  have hb : Placed b := hfree.placed b (by simp)
  have hfst : Placed (b.fst n) := hb.fst hn hfits
  have hsnd : Placed (b.snd n) := hb.snd hrest
  have hnew : addr b + BitVec.ofNat 64 n = addr (b.snd n) := (BitVec.ofNat_add _ _).symm
  have hspare : BitVec.ofNat 64 b.size - BitVec.ofNat 64 n = BitVec.ofNat 64 (b.snd n).size :=
    ofNat_sub_ofNat hb.size_lt hfits
  have hif : load64 h.mem (addr b) - BitVec.ofNat 64 n ≥ minAllocSize := by
    rw [hsize, hspare, ge_iff_le, BitVec.le_def, hsnd.toNat_size]
    exact hrest
  -- the blocks of the new list keep away from the part that is taken
  have hplaced : ∀ c ∈ before ++ b.snd n :: after, Placed c := by
    intro c hc
    simp only [List.mem_append, List.mem_cons] at hc
    rcases hc with hc | rfl | hc
    · exact hfree.placed c (by simp [hc])
    · exact hsnd
    · exact hfree.placed c (by simp [hc])
  have hpair : (before ++ b.snd n :: after).Pairwise Block.Disjoint :=
    disjoint_replace hfree.disjoint fun a ha => Block.contains_snd ha hfits
  have htaken : ∀ c ∈ before ++ b.snd n :: after, ∀ d ∈ [b.fst n], c.Disjoint d := by
    intro c hc d hd
    rw [List.mem_singleton.mp hd]
    simp only [List.mem_append, List.mem_cons] at hc
    rcases hc with hc | rfl | hc
    · exact fun a hca hfst => hcross c hc b (by simp) a hca (Block.contains_fst hfst hfits)
    · exact (Block.fst_disjoint_snd b n).symm
    · exact fun a hca hfst => hdisj c hc a (Block.contains_fst hfst hfits) hca
  have hlink : load64 (h.store (addr (b.snd n)) (BitVec.ofNat 64 (b.snd n).size)).mem
      (addr b + 8#64) = load64 h.mem (addr b + 8#64) :=
    load64_congr fun x hx => (Touches.of_store h fun y hy => hsnd.inRange_size hy).mem x
      fun c hc hcontains => by
        rw [List.mem_singleton.mp hc] at hcontains
        exact Block.fst_disjoint_snd b n _ (hfst.inRange_next hx) hcontains
  let h₁ := h.writeNode (b.snd n) (load64 h.mem (addr b + 8#64))
  let h₂ := h₁.store (addr b) (BitVec.ofNat 64 n)
  let h₃ := h₂.setNext (lastAddr (before.map node)) (addr (b.snd n))
  have hstate : h.takeBlock (BitVec.ofNat 64 n) (lastAddr (before.map node)) (addr b) =
      h₃.store (addr b) (load64 h₃.mem (addr b)) := by
    unfold KernelHeap.takeBlock
    dsimp only
    rw [if_pos hif, hsize, hspare, hnew, hlink]
    rfl
  have ht₁ : Touches h h₁ [b.snd n] := writeNode_touches h hsnd _
  have ht₂ : Touches h₁ h₂ [b.fst n] := Touches.of_store h₁ fun x hx => hfst.inRange_size hx
  have hbefore₁ : Seg h₁.mem h.freeListHead (before.map node) (addr b) :=
    ht₁.seg hbefore (fun c hc => hplaced c (by simp [hc])) fun c hc d hd => by
      rw [List.mem_singleton.mp hd]
      exact (List.pairwise_append.mp hpair).2.2 c hc _ List.mem_cons_self
  have hbefore₂ : Seg h₂.mem h₂.freeListHead (before.map node) (addr b) :=
    ht₂.seg hbefore₁ (fun c hc => hplaced c (by simp [hc])) fun c hc => htaken c (by simp [hc])
  have hrest₁ : Seg h₁.mem (addr (b.snd n)) ((b.snd n :: after).map node) 0#64 :=
    writeNode_seg hsnd hafter (fun c hc => hplaced c (by simp [hc])) fun c hc =>
      ((List.pairwise_cons.mp (List.pairwise_append.mp hpair).2.1).1 c hc).symm
  have hrest₂ : Seg h₂.mem (addr (b.snd n)) ((b.snd n :: after).map node) 0#64 :=
    ht₂.seg hrest₁ (fun c hc => hplaced c (List.mem_append_right before hc))
      fun c hc => htaken c (List.mem_append_right before hc)
  obtain ⟨hlist₃, ht₃⟩ := freeList_setNext hbefore₂ hrest₂ hplaced hpair
  have ht₄ : Touches h₃ (h₃.store (addr b) (load64 h₃.mem (addr b))) [b.fst n] :=
    Touches.of_store h₃ fun x hx => hfst.inRange_size hx
  refine ⟨_, hstate, hlist₃.of_touches ht₄ rfl htaken, ?_, ?_⟩
  · have hkept : load64 h₃.mem (addr b) = load64 h₂.mem (addr b) :=
      ht₃.load64_addr (b := b.fst n) hfst fun c hc =>
        (htaken c (by simp [hc]) _ List.mem_cons_self).symm
    change load64 (store64 _ _ _) _ = _
    rw [load64_store64_same, hkept]
    exact load64_store64_same _ _ _
  · have hin₁ : ∀ c ∈ [b.snd n], ∀ a, c.Contains a → ∃ d ∈ before ++ b :: after, d.Contains a := by
      intro c hc a ha
      rw [List.mem_singleton.mp hc] at ha
      exact ⟨b, by simp, Block.contains_snd ha hfits⟩
    have hin₂ : ∀ c ∈ [b.fst n], ∀ a, c.Contains a → ∃ d ∈ before ++ b :: after, d.Contains a := by
      intro c hc a ha
      rw [List.mem_singleton.mp hc] at ha
      exact ⟨b, by simp, Block.contains_fst ha hfits⟩
    have hin₃ : ∀ c ∈ before, ∀ a, c.Contains a → ∃ d ∈ before ++ b :: after, d.Contains a :=
      fun c hc a ha => ⟨c, by simp [hc], ha⟩
    exact (((ht₁.mono hin₁).trans (ht₂.mono hin₂)).trans (ht₃.mono hin₃)).trans (ht₄.mono hin₂)

/-- A block with less to spare is taken as it is. -/
theorem takeBlock_whole (hfree : FreeList h (before ++ b :: after)) (hfits : n ≤ b.size)
    (hrest : b.size - n < 16) :
    ∃ h', h.takeBlock (BitVec.ofNat 64 n) (lastAddr (before.map node)) (addr b) = h' ∧
      FreeList h' (before ++ after) ∧ load64 h'.mem (addr b) = BitVec.ofNat 64 b.size ∧
      Touches h h' (before ++ b :: after) := by
  obtain ⟨hbefore, hsize, hafter⟩ := hfree.links
  obtain ⟨-, htail, hcross⟩ := List.pairwise_append.mp hfree.disjoint
  obtain ⟨hdisj, -⟩ := List.pairwise_cons.mp htail
  have hb : Placed b := hfree.placed b (by simp)
  have hif : ¬ load64 h.mem (addr b) - BitVec.ofNat 64 n ≥ minAllocSize := by
    have hlt : b.size - n < 2 ^ 64 := by omega
    rw [hsize, ofNat_sub_ofNat hb.size_lt hfits, ge_iff_le, BitVec.le_def, BitVec.toNat_ofNat,
      Nat.mod_eq_of_lt hlt, not_le]
    exact hrest
  have hsub : (before ++ after).Sublist (before ++ b :: after) :=
    List.Sublist.append_left (List.sublist_cons_self b after) before
  have htaken : ∀ c ∈ before ++ after, c.Disjoint b := by
    intro c hc
    cases List.mem_append.mp hc with
    | inl hc => exact hcross c hc b (by simp)
    | inr hc => exact (hdisj c hc).symm
  let h₁ := h.setNext (lastAddr (before.map node)) (load64 h.mem (addr b + 8#64))
  have hstate : h.takeBlock (BitVec.ofNat 64 n) (lastAddr (before.map node)) (addr b) =
      h₁.store (addr b) (load64 h₁.mem (addr b)) := by
    unfold KernelHeap.takeBlock
    dsimp only
    rw [if_neg hif]
  obtain ⟨hlist₁, ht₁⟩ := freeList_setNext hbefore hafter
    (fun c hc => hfree.placed c (hsub.subset hc)) (hfree.disjoint.sublist hsub)
  have ht₂ : Touches h₁ (h₁.store (addr b) (load64 h₁.mem (addr b))) [b] :=
    Touches.of_store h₁ fun x hx => hb.inRange_size hx
  refine ⟨_, hstate, hlist₁.of_touches ht₂ rfl fun c hc d hd => ?_, ?_, ?_⟩
  · rw [List.mem_singleton.mp hd]
    exact htaken c hc
  · have hkept : load64 h₁.mem (addr b) = load64 h.mem (addr b) :=
      ht₁.load64_addr hb fun c hc => (htaken c (by simp [hc])).symm
    change load64 (store64 _ _ _) _ = _
    rw [load64_store64_same, hkept, hsize]
  · refine (ht₁.mono fun c hc a ha => ⟨c, by simp [hc], ha⟩).trans
      (ht₂.mono fun c hc a ha => ⟨b, by simp, ?_⟩)
    rw [List.mem_singleton.mp hc] at ha
    exact ha

end Take

/-! ## The search -/

section Search

variable {h : KernelHeap} {n fuel : ℕ} {curr : Word} {rest after : List Block} {b : Block}

theorem lastAddr_append_singleton (before : List Block) (b : Block) :
    lastAddr ((before ++ [b]).map node) = addr b := by
  rw [List.map_append, List.map_singleton, lastAddr_snoc]
  rfl

theorem kmallocLoop_of_small {prev : Word} (hb : Placed b) (hn : n < 2 ^ 64) (hsmall : b.size < n)
    (hsize : load64 h.mem (addr b) = BitVec.ofNat 64 b.size) :
    kmallocLoop (BitVec.ofNat 64 n) (fuel + 1) prev (addr b) h =
      kmallocLoop (BitVec.ofNat 64 n) fuel (addr b) (load64 h.mem (addr b + 8#64)) h := by
  have hif : ¬ load64 h.mem (addr b) ≥ BitVec.ofNat 64 n := by
    rw [hsize, ge_iff_le, BitVec.le_def, hb.toNat_size, BitVec.toNat_ofNat, Nat.mod_eq_of_lt hn,
      not_le]
    exact hsmall
  rw [kmallocLoop, if_neg hb.addr_ne_zero, if_neg hif]

/-- The search ends at the end of the list when no block is large enough. -/
theorem kmallocLoop_none (hn : n < 2 ^ 64) (hseg : Seg h.mem curr (rest.map node) 0#64)
    (hplaced : ∀ b ∈ rest, Placed b) (hsmall : ∀ b ∈ rest, b.size < n) (hfuel : rest.length < fuel)
    (prev : Word) : kmallocLoop (BitVec.ofNat 64 n) fuel prev curr h = .ok (0#64, h) := by
  induction rest generalizing fuel curr prev with
  | nil =>
      obtain ⟨fuel, rfl⟩ := Nat.exists_eq_add_of_lt hfuel
      rw [List.map_nil, seg_nil] at hseg
      rw [hseg]
      simp [kmallocLoop]
  | cons b bs ih =>
      obtain ⟨fuel, rfl⟩ := Nat.exists_eq_succ_of_ne_zero (show fuel ≠ 0 by omega)
      rw [List.map_cons] at hseg
      obtain ⟨rfl, -, hsize, hnext⟩ := seg_cons.mp hseg
      have hrest := ih hnext (fun c hc => hplaced c (List.mem_cons_of_mem b hc))
        (fun c hc => hsmall c (List.mem_cons_of_mem b hc)) (Nat.lt_of_succ_lt_succ hfuel)
      exact (kmallocLoop_of_small (hplaced b List.mem_cons_self) hn (hsmall b List.mem_cons_self)
        hsize).trans (hrest _)

/-- It ends at the first block that is large enough. -/
theorem kmallocLoop_some (hn : n < 2 ^ 64)
    (hseg : Seg h.mem curr ((rest ++ b :: after).map node) 0#64)
    (hplaced : ∀ c ∈ rest ++ b :: after, Placed c) (hsmall : ∀ c ∈ rest, c.size < n)
    (hfits : n ≤ b.size) (hfuel : rest.length < fuel) (before : List Block) :
    kmallocLoop (BitVec.ofNat 64 n) fuel (lastAddr (before.map node)) curr h =
      .ok (payload b, h.takeBlock (BitVec.ofNat 64 n)
        (lastAddr ((before ++ rest).map node)) (addr b)) := by
  induction rest generalizing fuel curr before with
  | nil =>
      obtain ⟨fuel, rfl⟩ := Nat.exists_eq_succ_of_ne_zero (show fuel ≠ 0 by omega)
      rw [List.nil_append, List.map_cons] at hseg
      obtain ⟨rfl, hne, hsize, -⟩ := seg_cons.mp hseg
      have hb : Placed b := hplaced b (by simp)
      have hif : load64 h.mem (addr b) ≥ BitVec.ofNat 64 n := by
        rw [show load64 h.mem (addr b) = BitVec.ofNat 64 b.size from hsize, ge_iff_le,
          BitVec.le_def, hb.toNat_size, BitVec.toNat_ofNat, Nat.mod_eq_of_lt hn]
        exact hfits
      rw [List.append_nil]
      change kmallocLoop _ (fuel + 1) _ (addr b) h = _
      rw [kmallocLoop, if_neg hb.addr_ne_zero, if_pos hif]
      rfl
  | cons c cs ih =>
      obtain ⟨fuel, rfl⟩ := Nat.exists_eq_succ_of_ne_zero (show fuel ≠ 0 by omega)
      rw [List.cons_append, List.map_cons] at hseg
      obtain ⟨rfl, -, hsize, hnext⟩ := seg_cons.mp hseg
      have hrest := ih hnext (fun d hd => hplaced d (List.mem_cons_of_mem c hd))
        (fun d hd => hsmall d (List.mem_cons_of_mem c hd)) (Nat.lt_of_succ_lt_succ hfuel)
        (before ++ [c])
      rw [lastAddr_append_singleton, List.append_assoc, List.singleton_append] at hrest
      exact (kmallocLoop_of_small (hplaced c List.mem_cons_self) hn (hsmall c List.mem_cons_self)
        hsize).trans hrest

end Search

/-! ## `kmalloc` -/

theorem toNat_alignUpHeap (size : Word) :
    (alignUpHeap size).toNat = (size.toNat + 15) % 2 ^ 64 / 16 * 16 := by
  have hmask := toNat_and_not_mask (size + heapAlignment - 1#64) (show 4 < 64 by norm_num)
  rw [show 2 ^ 4 = 16 from rfl] at hmask
  have hconst : heapAlignment - 1#64 = 15#64 := by decide
  have hsum : size + heapAlignment - 1#64 = size + 15#64 := by
    rw [add_sub_assoc, hconst]
  rw [hsum, BitVec.toNat_add] at hmask
  unfold alignUpHeap
  rw [hsum]
  exact hmask

theorem totalSize_cases (size : Word) :
    (totalSize size).toNat = 16 ∨
      16 ≤ (totalSize size).toNat ∧
        (totalSize size).toNat = ((size.toNat + 8) % 2 ^ 64 + 15) % 2 ^ 64 / 16 * 16 := by
  have halign := toNat_alignUpHeap (size + 8#64)
  rw [BitVec.toNat_add] at halign
  unfold totalSize
  dsimp only
  split
  · exact Or.inl rfl
  · rename_i hge
    rw [BitVec.lt_def, not_lt] at hge
    exact Or.inr ⟨hge, halign⟩

/-- `total_size` is a multiple of 16 and has room for a node. -/
theorem totalSize_grain (size : Word) :
    16 ≤ (totalSize size).toNat ∧ 16 ∣ (totalSize size).toNat := by
  rcases totalSize_cases size with hleast | ⟨hge, heq⟩
  · rw [hleast]
    exact ⟨le_rfl, dvd_rfl⟩
  · refine ⟨hge, ?_⟩
    rw [heq]
    exact Nat.dvd_mul_left _ _

/-- A request that does not wrap gets room for a header as well. -/
theorem le_totalSize {size : Word} (hsize : size.toNat + 23 < 2 ^ 64) :
    size.toNat + 8 ≤ (totalSize size).toNat := by
  have halign := toNat_alignUpHeap (size + 8#64)
  rw [BitVec.toNat_add] at halign
  have hvalue : (alignUpHeap (size + 8#64)).toNat = (size.toNat + 23) / 16 * 16 := by
    rw [halign]
    change ((size.toNat + 8) % 2 ^ 64 + 15) % 2 ^ 64 / 16 * 16 = _
    omega
  have hif : ¬ alignUpHeap (size + 8#64) < minAllocSize := by
    rw [BitVec.lt_def, not_lt, hvalue]
    change 16 ≤ _
    omega
  unfold totalSize
  dsimp only
  rw [if_neg hif, hvalue]
  omega

section Kmalloc

variable {h : KernelHeap} {fuel : ℕ} {size : Word} {free : List Block}

/-- `kmalloc` takes the first block that fits, or leaves everything as it is. -/
theorem kmalloc_cases (hfree : FreeList h free) (hsize : size ≠ 0#64) (hfuel : free.length < fuel) :
    (firstFit 16 (totalSize size).toNat free = none ∧ kmalloc fuel h size = .ok (0#64, h)) ∨
      ∃ b free' h', firstFit 16 (totalSize size).toNat free = some (b, free') ∧
        kmalloc fuel h size = .ok (payload b, h') ∧ FreeList h' free' ∧
        load64 h'.mem (addr b) = BitVec.ofNat 64 b.size ∧ Touches h h' free := by
  have hword : BitVec.ofNat 64 (totalSize size).toNat = totalSize size := by
    rw [BitVec.ofNat_toNat, BitVec.setWidth_eq]
  have hlt : (totalSize size).toNat < 2 ^ 64 := (totalSize size).isLt
  have hge := (totalSize_grain size).1
  have hloop : kmalloc fuel h size =
      kmallocLoop (BitVec.ofNat 64 (totalSize size).toNat) fuel 0#64 h.freeListHead h := by
    unfold kmalloc
    rw [if_neg hsize, hword]
  rw [hloop]
  generalize (totalSize size).toNat = n at hlt hge
  have hcases := firstFit_cases 16 n free
  generalize firstFit 16 n free = found at hcases
  cases hcases with
  | none hsmall =>
      exact Or.inl ⟨rfl, kmallocLoop_none hlt hfree.chain hfree.placed hsmall hfuel _⟩
  | split before b after heq hsmall hfits hrest =>
      subst heq
      right
      obtain ⟨h', hstate, hlist, hheader, ht⟩ := takeBlock_split hfree hge hfits hrest
      have hshort : before.length < fuel := by
        simp only [List.length_append, List.length_cons] at hfuel
        omega
      have hfound := kmallocLoop_some hlt hfree.chain hfree.placed hsmall hfits hshort []
      rw [List.nil_append, hstate] at hfound
      exact ⟨_, _, h', rfl, hfound, hlist, hheader, ht⟩
  | whole before b after heq hsmall hfits hrest =>
      subst heq
      right
      obtain ⟨h', hstate, hlist, hheader, ht⟩ := takeBlock_whole hfree hfits hrest
      have hshort : before.length < fuel := by
        simp only [List.length_append, List.length_cons] at hfuel
        omega
      have hfound := kmallocLoop_some hlt hfree.chain hfree.placed hsmall hfits hshort []
      rw [List.nil_append, hstate] at hfound
      exact ⟨_, _, h', rfl, hfound, hlist, hheader, ht⟩

end Kmalloc

/-! ## Running out of room -/

/-- The free list ends before a block of `n` bytes that has its payload at a place other than
`NULL`. -/
def lacksRoom (m : Mem) (n : Word) : ℕ → Word → Bool
  | 0, _ => false
  | fuel + 1, curr =>
      if curr = 0#64 then true
      else if load64 m curr ≥ n then curr + 8#64 = 0#64
      else lacksRoom m n fuel (load64 m (curr + 8#64))

theorem kmallocLoop_eq_null_iff {n prev curr : Word} {h : KernelHeap} {fuel : ℕ} :
    (∃ h', kmallocLoop n fuel prev curr h = .ok (0#64, h')) ↔ lacksRoom h.mem n fuel curr := by
  induction fuel generalizing prev curr with
  | zero => simp [kmallocLoop, lacksRoom]
  | succ fuel ih =>
      by_cases hnull : curr = 0#64
      · simp [kmallocLoop, lacksRoom, hnull]
      · by_cases hfits : load64 h.mem curr ≥ n
        · simp [kmallocLoop, lacksRoom, hnull, hfits]
        · rw [kmallocLoop, lacksRoom, if_neg hnull, if_neg hfits, if_neg hnull, if_neg hfits]
          exact ih

theorem kmalloc_eq_null_iff {fuel : ℕ} {h : KernelHeap} {size : Word} (hsize : size ≠ 0#64) :
    (∃ h', kmalloc fuel h size = .ok (0#64, h')) ↔
      lacksRoom h.mem (totalSize size) fuel h.freeListHead := by
  unfold kmalloc
  rw [if_neg hsize]
  exact kmallocLoop_eq_null_iff

end Osiris.Heap
