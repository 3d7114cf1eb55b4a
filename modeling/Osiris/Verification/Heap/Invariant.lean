import Osiris.Verification.Heap.Alloc
import Osiris.Verification.Heap.Free

/-! # The representation invariant of the heap -/

namespace Osiris.Heap

open ByteMemory Strings Blocks LinkedList

/-- A multiple of 16 bytes at a multiple of 16. -/
structure Grained (b : Block) : Prop where
  start : 16 ∣ b.start
  size : 16 ∣ b.size
  least : 16 ≤ b.size

/-- Where the heap ends. -/
def heapEnd : ℕ :=
  kernelHeapStart.toNat + kernelHeapInitialSize.toNat

theorem toNat_kernelHeapStart : kernelHeapStart.toNat = 0xFFFF810000000000 := rfl

theorem heapEnd_eq : heapEnd = 0xFFFF810000100000 := by decide

/-- The heap is tiled by free blocks, which the free list leads to in the order of their addresses
and of which no two are neighbours, and live blocks, which start with their size. -/
structure HeapInv (h : KernelHeap) (live free : List Block) : Prop where
  heapStart : h.heapStart = kernelHeapStart
  heapSize : h.heapSize = kernelHeapInitialSize
  chain : Seg h.mem h.freeListHead (free.map node) 0#64
  separated : Separated free
  grained : ∀ b ∈ free ++ live, Grained b
  tiles : Tiles kernelHeapStart.toNat heapEnd (free ++ live)
  headers : ∀ b ∈ live, load64 h.mem (addr b) = BitVec.ofNat 64 b.size

section

variable {h h' : KernelHeap} {live live' free free' : List Block} {b c : Block} {fuel : ℕ}

/-- The live blocks have no order. -/
theorem HeapInv.perm (hinv : HeapInv h live free) (hperm : live.Perm live') :
    HeapInv h live' free := by
  refine ⟨hinv.heapStart, hinv.heapSize, hinv.chain, hinv.separated, fun b hb => ?_,
    hinv.tiles.perm ((List.perm_append_left_iff free).mpr hperm),
    fun b hb => hinv.headers b (hperm.mem_iff.mpr hb)⟩
  rw [List.mem_append] at hb
  exact hinv.grained b (List.mem_append.mpr (hb.imp_right hperm.mem_iff.mpr))

theorem HeapInv.bounds (hinv : HeapInv h live free) (hb : b ∈ free ++ live) :
    0xFFFF810000000000 ≤ b.start ∧ b.stop ≤ 0xFFFF810000100000 := by
  have hsize := (hinv.grained b hb).least
  have hbounds := hinv.tiles.bounds hb (by omega)
  rw [toNat_kernelHeapStart, heapEnd_eq] at hbounds
  exact hbounds

theorem HeapInv.placed (hinv : HeapInv h live free) (hb : b ∈ free ++ live) : Placed b := by
  obtain ⟨hlo, hhi⟩ := hinv.bounds hb
  exact ⟨by omega, (hinv.grained b hb).least, by omega⟩

theorem HeapInv.placed_live (hinv : HeapInv h live free) (hb : b ∈ live) : Placed b :=
  hinv.placed (List.mem_append_right free hb)

theorem HeapInv.freeList (hinv : HeapInv h live free) : FreeList h free :=
  ⟨hinv.chain, fun _ hb => hinv.placed (List.mem_append_left live hb), hinv.separated.disjoint⟩

/-- The free list has at most one block for every 16 bytes. -/
theorem HeapInv.length_le (hinv : HeapInv h live free) : free.length ≤ 65536 := by
  have hin : ∀ b ∈ free, 16 ≤ b.size ∧ 0xFFFF810000000000 ≤ b.start ∧
      b.stop ≤ 0xFFFF810000100000 :=
    fun b hb => ⟨(hinv.grained b (by simp [hb])).least, hinv.bounds (by simp [hb])⟩
  have hroom := hinv.separated.length_le (by norm_num) hin
  omega

theorem HeapInv.disjoint (hinv : HeapInv h live free) (hb : b ∈ live) :
    ∀ c ∈ free, c.Disjoint b :=
  fun c hc => (List.pairwise_append.mp hinv.tiles.disjoint).2.2 c hc b hb

theorem HeapInv.disjoint_live (hinv : HeapInv h live free) (hb : b ∈ live) (hc : c ∈ live)
    (hne : b ≠ c) : b.Disjoint c :=
  (List.pairwise_append.mp hinv.tiles.disjoint).2.1.forall hb hc hne

theorem Placed.contains_start (hb : Placed b) : b.Contains b.start := by
  have hle := hb.size_le
  unfold Block.Contains Block.stop
  omega

/-- Two live blocks have two pointers. -/
theorem HeapInv.payload_ne (hinv : HeapInv h live free) (hb : b ∈ live) (hc : c ∈ live)
    (hne : b ≠ c) : payload b ≠ payload c := by
  intro heq
  have hnat := congrArg BitVec.toNat heq
  rw [(hinv.placed_live hb).toNat_payload, (hinv.placed_live hc).toNat_payload] at hnat
  have hstart : b.start = c.start := by omega
  refine hinv.disjoint_live hb hc hne b.start (hinv.placed_live hb).contains_start ?_
  rw [hstart]
  exact (hinv.placed_live hc).contains_start

/-- A live block is not twice in the list. -/
theorem HeapInv.not_mem_rest (hinv : HeapInv h (b :: live) free) : b ∉ live := by
  intro hb
  have hlive := (List.pairwise_append.mp hinv.tiles.disjoint).2.1
  have hstart := (hinv.placed_live List.mem_cons_self).contains_start
  exact (List.pairwise_cons.mp hlive).1 b hb b.start hstart hstart

/-- Blocks that are live fit into the heap. -/
theorem HeapInv.live_length_le (hinv : HeapInv h live free) {bs : List Block}
    (hnodup : bs.Nodup) (hlive : ∀ b ∈ bs, b ∈ live) : bs.length ≤ 65536 := by
  have hbounds : ∀ b ∈ bs, 0xFFFF810000000000 ≤ b.start ∧ b.stop ≤ 0xFFFF810000100000 ∧
      16 ∣ b.start ∧ 16 ≤ b.size := by
    intro b hb
    have hmem := List.mem_append_right free (hlive b hb)
    have hgrained := hinv.grained b hmem
    exact ⟨(hinv.bounds hmem).1, (hinv.bounds hmem).2, hgrained.start, hgrained.least⟩
  -- every block starts in a grain of its own
  let grain (b : Block) : ℕ := (b.start - 0xFFFF810000000000) / 16
  have hgrains : (bs.map grain).Nodup := by
    refine hnodup.map_on fun b hb c hc heq => ?_
    obtain ⟨hlo, -, hdvd, -⟩ := hbounds b hb
    obtain ⟨hlo', -, hdvd', -⟩ := hbounds c hc
    have hstart : b.start = c.start := by
      dsimp only [grain] at heq
      omega
    by_contra hne
    refine hinv.disjoint_live (hlive b hb) (hlive c hc) hne b.start
      (hinv.placed_live (hlive b hb)).contains_start ?_
    rw [hstart]
    exact (hinv.placed_live (hlive c hc)).contains_start
  have hrange : bs.map grain ⊆ List.range 65536 := by
    intro i hi
    obtain ⟨b, hb, rfl⟩ := List.mem_map.mp hi
    obtain ⟨hlo, hhi, -, hleast⟩ := hbounds b hb
    unfold Block.stop at hhi
    rw [List.mem_range]
    dsimp only [grain]
    omega
  have hlength := (hgrains.subperm hrange).length_le
  rwa [List.length_map, List.length_range] at hlength

/-! ## Writing to payloads -/

/-- The bytes of a live block behind its header. -/
def InPayload (b : Block) (x : Word) : Prop :=
  b.start + 8 ≤ x.toNat ∧ x.toNat < b.stop

theorem InPayload.contains {x : Word} (hx : InPayload b x) : b.Contains x.toNat :=
  ⟨by have hlo := hx.1; omega, hx.2⟩

theorem HeapInv.header_not_inPayload (hinv : HeapInv h live free) (hb : b ∈ live) (hc : c ∈ live)
    {x : Word} (hx : InRange (addr b) 8 x) : ¬ InPayload c x := by
  intro hpayload
  have hplaced := hinv.placed_live hb
  by_cases heq : b = c
  · subst heq
    have hlt := hplaced.start_lt
    unfold addr at hx
    rw [inRange_ofNat (by omega)] at hx
    have hlo := hpayload.1
    omega
  · exact hinv.disjoint_live hb hc heq _ (hplaced.inRange_size hx) hpayload.contains

/-- The bytes that the heap leaves to others: payloads of live blocks, and all that is outside. -/
def Client (live : List Block) (x : Word) : Prop :=
  (∃ b ∈ live, InPayload b x) ∨ ¬ (kernelHeapStart.toNat ≤ x.toNat ∧ x.toNat < heapEnd)

theorem Client.cons {x : Word} (hx : Client live x) : Client (b :: live) x :=
  hx.imp_left fun ⟨c, hc, hpayload⟩ => ⟨c, List.mem_cons_of_mem b hc, hpayload⟩

theorem Client.not_contains {blocks : List Block} {x : Word} (hx : Client live x)
    (htiles : Tiles kernelHeapStart.toNat heapEnd (b :: blocks)) (hsub : live ⊆ blocks) :
    ¬ b.Contains x.toNat := by
  intro hcontains
  rcases hx with ⟨c, hc, hpayload⟩ | hout
  · exact (List.pairwise_cons.mp htiles.disjoint).1 c (hsub hc) _ hcontains hpayload.contains
  · exact hout ((htiles.cover _).mpr ⟨b, List.mem_cons_self, hcontains⟩)

theorem HeapInv.not_free_of_client (hinv : HeapInv h live free) {x : Word} (hx : Client live x)
    (hb : b ∈ free) : ¬ b.Contains x.toNat := by
  have hperm : (free ++ live).Perm (b :: (free.erase b ++ live)) :=
    (List.perm_append_right_iff live).mpr (List.perm_cons_erase hb)
  exact hx.not_contains (hinv.tiles.perm hperm) (List.subset_append_right _ live)

theorem HeapInv.not_new_of_client (hinv : HeapInv h (b :: live) free) {x : Word}
    (hx : Client live x) : ¬ b.Contains x.toNat :=
  hx.not_contains (hinv.tiles.perm List.perm_middle) (List.subset_append_right free live)

theorem HeapInv.header_not_client (hinv : HeapInv h live free) (hb : b ∈ live) {x : Word}
    (hx : InRange (addr b) 8 x) : ¬ Client live x := by
  rintro (⟨c, hc, hpayload⟩ | hout)
  · exact hinv.header_not_inPayload hb hc hx hpayload
  · have hcontains := (hinv.placed_live hb).inRange_size hx
    exact hout ((hinv.tiles.cover _).mpr ⟨b, List.mem_append_right free hb, hcontains⟩)

/-- Nothing that others do to their bytes concerns the heap. -/
theorem HeapInv.write (hinv : HeapInv h live free) {mem : Mem}
    (hsame : ∀ x, ¬ Client live x → mem x = h.mem x) :
    HeapInv { h with mem } live free := by
  refine ⟨hinv.heapStart, hinv.heapSize, ?_, hinv.separated, hinv.grained, hinv.tiles, ?_⟩
  · refine hinv.chain.congr fun n hn x hx => hsame x fun hclient => ?_
    obtain ⟨c, hc, rfl⟩ := List.mem_map.mp hn
    have hplaced : Placed c := hinv.placed (List.mem_append_left live hc)
    exact hinv.not_free_of_client hclient hc (hplaced.contains_of_inRange hx)
  · intro b hb
    rw [← hinv.headers b hb]
    exact load64_congr fun x hx => hsame x (hinv.header_not_client hb hx)

/-! ## The four functions -/

theorem Grained.fst {n : ℕ} (hb : Grained b) (hn : 16 ≤ n) (hdvd : 16 ∣ n) : Grained (b.fst n) :=
  ⟨hb.start, hdvd, hn⟩

theorem Grained.snd {n : ℕ} (hb : Grained b) (hdvd : 16 ∣ n) (hrest : 16 ≤ b.size - n) :
    Grained (b.snd n) :=
  ⟨Dvd.dvd.add hb.start hdvd, Nat.dvd_sub hb.size hdvd, hrest⟩

theorem Grained.join (hb : Grained b) (hc : Grained c) : Grained (b.join c) := by
  refine ⟨hb.start, Dvd.dvd.add hb.size hc.size, ?_⟩
  have hleast := hb.least
  rw [Block.join_size]
  omega

/-- The abstract side of an allocation: the block that is taken was a part of the free blocks. -/
theorem firstFit_shape {n : ℕ} (hn : 16 ≤ n) (hdvd : 16 ∣ n)
    (hfit : firstFit 16 n free = some (b, free')) (hsep : Separated free)
    (hgrained : ∀ c ∈ free, Grained c) {lo hi : ℕ} (htiles : Tiles lo hi (free ++ live)) :
    Separated free' ∧ (∀ c ∈ b :: free', Grained c) ∧ Tiles lo hi (free' ++ b :: live) ∧
      n ≤ b.size := by
  have hcases := firstFit_cases 16 n free
  rw [hfit] at hcases
  cases hcases with
  | split before c after heq hsmall hfits hrest =>
      subst heq
      have hc : Grained c := hgrained c (by simp)
      refine ⟨hsep.replace (Nat.le_add_right _ _) ?_, ?_, ?_, le_rfl⟩
      · unfold Block.stop Block.snd
        dsimp only
        omega
      · intro d hd
        simp only [List.mem_cons, List.mem_append] at hd
        rcases hd with rfl | hd | rfl | hd
        · exact hc.fst hn hdvd
        · exact hgrained d (by simp [hd])
        · exact hc.snd hdvd hrest
        · exact hgrained d (by simp [hd])
      · have hadj : (c.fst n).stop = (c.snd n).start := rfl
        have hout : (before ++ c :: after ++ live).Perm (c :: (before ++ after ++ live)) := by
          rw [List.append_assoc, List.append_assoc]
          exact List.perm_middle
        have hback : (before ++ c.snd n :: after ++ c.fst n :: live).Perm
            (c.fst n :: c.snd n :: (before ++ after ++ live)) := by
          refine List.perm_middle.trans (List.Perm.cons _ ?_)
          rw [List.append_assoc, List.append_assoc]
          exact List.perm_middle
        rw [tiles_perm hout] at htiles
        rw [tiles_perm hback, tiles_join hadj, Block.join_fst_snd hfits]
        exact htiles
  | whole before c after heq hsmall hfits hrest =>
      subst heq
      have hsub : (before ++ after).Sublist (before ++ b :: after) :=
        List.Sublist.append_left (List.sublist_cons_self b after) before
      refine ⟨hsep.sublist hsub, ?_, ?_, hfits⟩
      · intro d hd
        cases List.mem_cons.mp hd with
        | inl heq => exact heq ▸ hgrained b (by simp)
        | inr hd => exact hgrained d (hsub.subset hd)
      · refine htiles.perm ?_
        rw [List.append_assoc, List.append_assoc, List.cons_append]
        exact (List.perm_append_left_iff before).mpr List.perm_middle.symm

/-- `kmalloc` makes a block of the heap live, or leaves everything as it is. -/
theorem HeapInv.kmalloc (hinv : HeapInv h live free) (hfuel : 65536 < fuel) (size : Word) :
    (size = 0#64 ∨ firstFit 16 (totalSize size).toNat free = none) ∧
        kmalloc fuel h size = .ok (0#64, h) ∨
      ∃ b free' h', firstFit 16 (totalSize size).toNat free = some (b, free') ∧
        kmalloc fuel h size = .ok (payload b, h') ∧ HeapInv h' (b :: live) free' ∧
        (totalSize size).toNat ≤ b.size ∧ Touches h h' free := by
  by_cases hzero : size = 0#64
  · left
    unfold Heap.kmalloc
    exact ⟨Or.inl hzero, if_pos hzero⟩
  · rcases kmalloc_cases hinv.freeList hzero (lt_of_le_of_lt hinv.length_le hfuel) with
      ⟨hnone, hnull⟩ | ⟨b, free', h', hfit, hok, hlist, hheader, ht⟩
    · exact Or.inl ⟨Or.inr hnone, hnull⟩
    · right
      obtain ⟨hge, hdvd⟩ := totalSize_grain size
      obtain ⟨hsep, hgrained, htiles, hle⟩ := firstFit_shape hge hdvd hfit hinv.separated
        (fun c hc => hinv.grained c (by simp [hc])) hinv.tiles
      refine ⟨b, free', h', hfit, hok, ⟨ht.heapStart.trans hinv.heapStart,
        ht.heapSize.trans hinv.heapSize, hlist.chain, hsep, fun c hc => ?_, htiles, ?_⟩, hle, ht⟩
      · simp only [List.mem_append, List.mem_cons] at hc
        rcases hc with hc | hc | hc
        · exact hgrained c (by simp [hc])
        · exact hgrained c (by simp [hc])
        · exact hinv.grained c (by simp [hc])
      · refine List.forall_mem_cons.mpr ⟨hheader, fun c hc => ?_⟩
        rw [ht.load64_addr (hinv.placed_live hc) fun d hd => (hinv.disjoint hc d hd).symm]
        exact hinv.headers c hc

theorem HeapInv.start_lt (hinv : HeapInv h live free) (hb : b ∈ live) :
    h.heapStart.toNat ≤ b.start ∧ b.start < (h.heapStart + h.heapSize).toNat := by
  obtain ⟨hlo, hhi⟩ := hinv.bounds (List.mem_append_right free hb)
  have hpos := (hinv.placed_live hb).size_le
  have hend : (kernelHeapStart + kernelHeapInitialSize).toNat = 0xFFFF810000100000 := by decide
  rw [hinv.heapStart, hinv.heapSize, hend, toNat_kernelHeapStart]
  unfold Block.stop at hhi
  omega

/-- `kfree` gives a live block back. -/
theorem HeapInv.kfree (hinv : HeapInv h live free) (hfuel : 65536 < fuel)
    (hperm : live.Perm (b :: live')) :
    ∃ h', kfree fuel h (payload b) = .ok h' ∧ HeapInv h' live' (release b free) ∧
      Touches h h' (b :: free) := by
  have hb : b ∈ live := hperm.mem_iff.mpr List.mem_cons_self
  have hmem : ∀ c ∈ live', c ∈ live := fun c hc => hperm.mem_iff.mpr (List.mem_cons_of_mem b hc)
  have hplaced := hinv.placed_live hb
  have hgrained := hinv.grained b (List.mem_append_right free hb)
  have hdisj := hinv.disjoint hb
  obtain ⟨hlo, hhi⟩ := hinv.start_lt hb
  obtain ⟨h', hok, hlist, ht⟩ := kfree_spec hinv.freeList hinv.separated hplaced hgrained.start
    (hinv.headers b hb) hdisj hlo hhi (lt_of_le_of_lt hinv.length_le hfuel)
  have htiles : Tiles kernelHeapStart.toNat heapEnd (b :: free ++ live') := by
    refine hinv.tiles.perm (((List.perm_append_left_iff free).mpr hperm).trans ?_)
    exact List.perm_middle
  have hfar : ∀ c ∈ live', ∀ d ∈ b :: free, c.Disjoint d := by
    intro c hc d hd
    cases List.mem_cons.mp hd with
    | inl heq =>
        rw [heq]
        exact ((List.pairwise_cons.mp htiles.disjoint).1 c (by simp [hc])).symm
    | inr hd => exact (hinv.disjoint (hmem c hc) d hd).symm
  refine ⟨h', hok, ⟨ht.heapStart.trans hinv.heapStart, ht.heapSize.trans hinv.heapSize,
    hlist.chain, ?_, fun c hc => ?_, tiles_release.mpr htiles, fun c hc => ?_⟩, ht⟩
  · refine separated_release hinv.separated (by have hle := hplaced.size_le; omega)
      (fun c hc => (hdisj c hc).symm) fun c hc => ?_
    have hleast := (hinv.grained c (by simp [hc])).least
    omega
  · cases List.mem_append.mp hc with
    | inl hc =>
        exact release_forall (fun _ _ => Grained.join) hgrained
          (fun d hd => hinv.grained d (by simp [hd])) c hc
    | inr hc => exact hinv.grained c (List.mem_append_right free (hmem c hc))
  · rw [ht.load64_addr (hinv.placed_live (hmem c hc)) (hfar c hc)]
    exact hinv.headers c (hmem c hc)

/-! ## Clearing and copying -/

theorem rounds_setWidth {n : Word} (hn : n.toNat < 2 ^ 31) : rounds (n.setWidth 32) = n.toNat := by
  have hnarrow : n.setWidth 32 = BitVec.ofNat 32 n.toNat := by simp
  rw [hnarrow, rounds_ofNat hn]

theorem inPayload_of_inRange (hb : Placed b) {n : ℕ} (hn : n + 8 ≤ b.size) {x : Word}
    (hx : InRange (payload b) n x) : InPayload b x := by
  have hstop := hb.stop_le
  unfold Block.stop at hstop
  unfold payload addr at hx
  rw [ofNat_add_eight, inRange_ofNat (by omega)] at hx
  unfold InPayload Block.stop
  omega

/-- The memory of a caller is not in a block that was just handed out. -/
theorem HeapInv.client_not_inRange (hinv : HeapInv h (b :: live) free) {n : ℕ}
    (hn : n + 8 ≤ b.size) {x : Word} (hx : Client live x) : ¬ InRange (payload b) n x :=
  fun hin => hinv.not_new_of_client hx
    (inPayload_of_inRange (hinv.placed_live List.mem_cons_self) hn hin).contains

/-- An operation on the free blocks keeps the memory of the callers. -/
theorem HeapInv.client_mem_eq (hinv : HeapInv h live free) (ht : Touches h h' free) {x : Word}
    (hx : Client live x) : h'.mem x = h.mem x :=
  ht.mem x fun _ hc => hinv.not_free_of_client hx hc

theorem HeapInv.size_lt (hinv : HeapInv h live free) (hb : b ∈ live) : b.size < 2 ^ 31 := by
  obtain ⟨hlo, hhi⟩ := hinv.bounds (List.mem_append_right free hb)
  unfold Block.stop at hhi
  omega

theorem HeapInv.addr_payload_add (hinv : HeapInv h live free) (hb : b ∈ live) {i : ℕ}
    (hi : i + 8 < b.size) : InPayload b (payload b + BitVec.ofNat 64 i) := by
  refine inPayload_of_inRange (hinv.placed_live hb) (n := b.size - 8) (by omega) ?_
  exact inRange_add (payload b) (by omega) (by have hlt := hinv.size_lt hb; omega)

theorem HeapInv.memset (hinv : HeapInv h live free) (hb : b ∈ live) {n : Word} (c : BitVec 32)
    (hn : n.toNat + 8 ≤ b.size) :
    HeapInv { h with mem := memset h.mem (payload b) c (n.setWidth 32) } live free := by
  have hlt := hinv.size_lt hb
  refine hinv.write fun x hx => fillUp_of_not_inRange _ _ _ (rounds_le _) fun hin => ?_
  rw [rounds_setWidth (by omega)] at hin
  exact hx (Or.inl ⟨b, hb, inPayload_of_inRange (hinv.placed_live hb) hn hin⟩)

theorem HeapInv.memcpy (hinv : HeapInv h live free) (hb : b ∈ live) {n : Word} (src : Word)
    (hn : n.toNat + 8 ≤ b.size) :
    HeapInv { h with mem := memcpy h.mem (payload b) src (n.setWidth 32) } live free := by
  have hlt := hinv.size_lt hb
  refine hinv.write fun x hx => copyUp_of_not_inRange _ _ _ (rounds_le _) fun hin => ?_
  rw [rounds_setWidth (by omega)] at hin
  exact hx (Or.inl ⟨b, hb, inPayload_of_inRange (hinv.placed_live hb) hn hin⟩)

/-- `kcalloc` makes a block live whose first `num * size` bytes are zero. -/
theorem HeapInv.kcalloc (hinv : HeapInv h live free) (hfuel : 65536 < fuel) {num size : Word}
    (hsize : (num * size).toNat + 23 < 2 ^ 64) :
    kcalloc fuel h num size = .ok (0#64, h) ∨
      ∃ b free' h', kcalloc fuel h num size = .ok (payload b, h') ∧ HeapInv h' (b :: live) free' ∧
        (num * size).toNat + 8 ≤ b.size := by
  unfold Heap.kcalloc
  dsimp only
  split
  · exact Or.inl rfl
  · rcases hinv.kmalloc hfuel (num * size) with ⟨-, hnull⟩ | ⟨b, free', h', -, hok, hinv', hle, -⟩
    · left
      rw [hnull]
      rfl
    · right
      have hb : b ∈ b :: live := List.mem_cons_self
      have hfits := le_trans (le_totalSize hsize) hle
      refine ⟨b, free', _, ?_, hinv'.memset hb 0#32 hfits, hfits⟩
      rw [hok]
      exact if_pos (hinv'.placed_live hb).payload_ne_zero

/-- What is copied between two live blocks arrives. -/
theorem HeapInv.memcpy_payload (hinv : HeapInv h live free) (hb : b ∈ live) (hc : c ∈ live)
    (hne : b ≠ c) {n : Word} (hnb : n.toNat + 8 ≤ b.size) (hnc : n.toNat + 8 ≤ c.size) {i : ℕ}
    (hi : i < n.toNat) :
    Strings.memcpy h.mem (payload c) (payload b) (n.setWidth 32) (payload c + BitVec.ofNat 64 i) =
      h.mem (payload b + BitVec.ofNat 64 i) := by
  have hlt := hinv.size_lt hb
  have hrounds : rounds (n.setWidth 32) = n.toNat := rounds_setWidth (by omega)
  refine copyUp_offset h.mem _ _ (rounds_le _) (fun x hsrc hdest => ?_) (by rw [hrounds]; exact hi)
  rw [hrounds] at hsrc hdest
  exact hinv.disjoint_live hb hc hne _
    (inPayload_of_inRange (hinv.placed_live hb) hnb hsrc).contains
    (inPayload_of_inRange (hinv.placed_live hc) hnc hdest).contains

theorem HeapInv.memcpy_touches (hinv : HeapInv h live free) (hb : b ∈ live) {n : Word} (src : Word)
    (hn : n.toNat + 8 ≤ b.size) :
    Touches h { h with mem := Strings.memcpy h.mem (payload b) src (n.setWidth 32) } [b] := by
  have hlt := hinv.size_lt hb
  refine ⟨rfl, rfl, rfl, fun x hx => copyUp_of_not_inRange _ _ _ (rounds_le _) fun hin => ?_⟩
  rw [rounds_setWidth (by omega)] at hin
  exact hx b List.mem_cons_self
    (inPayload_of_inRange (hinv.placed_live hb) hn hin).contains

/-- The block at `c` starts with the payload that was at `b`. -/
def Moved (h h' : KernelHeap) (b c : Block) : Prop :=
  ∀ i, i + 8 < b.size →
    h'.mem (payload c + BitVec.ofNat 64 i) = h.mem (payload b + BitVec.ofNat 64 i)

/-- Taking `c`, copying to it and freeing `b`. -/
theorem HeapInv.move (hinv : HeapInv h live free) (hfuel : 65536 < fuel)
    (hperm : live.Perm (b :: live')) {n : ℕ} (hfit : firstFit 16 n free = some (c, free'))
    (ht : Touches h h' free) (hinv' : HeapInv h' (c :: live) free') (hle : b.size ≤ c.size) :
    ∃ h'', Heap.kfree fuel
        { h' with
          mem := Strings.memcpy h'.mem (payload c) (payload b)
            ((BitVec.ofNat 64 (b.size - 8)).setWidth 32) } (payload b) = .ok h'' ∧
      payload c ≠ payload b ∧ HeapInv h'' (c :: live') (release b free') ∧ Moved h h'' b c ∧
      Touches h h'' (b :: free) := by
  have hb : b ∈ live := hperm.mem_iff.mpr List.mem_cons_self
  have hb' : b ∈ c :: live := List.mem_cons_of_mem c hb
  have hc : c ∈ c :: live := List.mem_cons_self
  have hplaced := hinv.placed_live hb
  have hcb : c ≠ b := by
    rintro rfl
    have hself := (List.pairwise_append.mp hinv'.tiles.disjoint).2.1
    exact (List.pairwise_cons.mp hself).1 c hb c.start hplaced.contains_start
      hplaced.contains_start
  have hlen : (BitVec.ofNat 64 (b.size - 8)).toNat + 8 = b.size := by
    have hlt := hplaced.size_lt
    have hge := hplaced.size_le
    rw [BitVec.toNat_ofNat, Nat.mod_eq_of_lt (by omega)]
    omega
  have hmoved : (c :: live).Perm (b :: c :: live') :=
    (List.Perm.cons c hperm).trans (List.Perm.swap b c live')
  have hcopy := hinv'.memcpy hc (payload b) (hlen.trans_le hle)
  have htc := hinv'.memcpy_touches hc (payload b) (hlen.trans_le hle)
  obtain ⟨h'', hfreed, hinv'', ht''⟩ := hcopy.kfree hfuel hmoved
  refine ⟨h'', hfreed, hinv'.payload_ne hc hb' hcb, hinv'', fun i hi => ?_, ?_⟩
  · have hin := (hinv'.addr_payload_add hc (i := i) (by omega)).contains
    have hsrc := (hinv.addr_payload_add hb hi).contains
    have hkept : ∀ d ∈ b :: free', ¬ d.Contains (payload c + BitVec.ofNat 64 i).toNat := by
      refine List.forall_mem_cons.mpr ⟨fun hbx => ?_, fun d hd hdx => ?_⟩
      · exact hinv'.disjoint_live hc hb' hcb _ hin hbx
      · exact hinv'.disjoint hc d hd _ hdx hin
    rw [ht''.mem _ hkept,
      ← ht.mem _ fun d hd hdx => hinv.disjoint hb d hd _ hdx hsrc]
    exact hinv'.memcpy_payload hb' hc hcb.symm hlen.le (hlen.trans_le hle) (by omega)
  · have hpart : ∀ d ∈ c :: free', ∀ a, d.Contains a → ∃ e ∈ b :: free, e.Contains a := by
      intro d hd a ha
      obtain ⟨e, he, hea⟩ := contains_of_firstFit hfit hd ha
      exact ⟨e, List.mem_cons_of_mem b he, hea⟩
    refine ((ht.mono fun d hd a ha => ⟨d, List.mem_cons_of_mem b hd, ha⟩).trans
      (htc.mono fun d hd => ?_)).trans (ht''.mono ?_)
    · rw [List.mem_singleton.mp hd]
      exact hpart c List.mem_cons_self
    · refine List.forall_mem_cons.mpr ⟨fun a ha => ⟨b, List.mem_cons_self, ha⟩, fun d hd => ?_⟩
      exact hpart d (List.mem_cons_of_mem c hd)

/-- `krealloc` keeps the block, finds no room, or moves the block. -/
theorem HeapInv.krealloc (hinv : HeapInv h live free) (hfuel : 65536 < fuel) {size : Word}
    (hsize : size.toNat + 23 < 2 ^ 64) (hne : size ≠ 0#64) (hperm : live.Perm (b :: live')) :
    krealloc fuel h (payload b) size = .ok (payload b, h) ∧ size.toNat + 8 ≤ b.size ∨
      krealloc fuel h (payload b) size = .ok (0#64, h) ∨
      ∃ c free' h', krealloc fuel h (payload b) size = .ok (payload c, h') ∧
        payload c ≠ payload b ∧ HeapInv h' (c :: live') free' ∧ size.toNat + 8 ≤ c.size ∧
        Moved h h' b c ∧ Touches h h' (b :: free) := by
  have hb : b ∈ live := hperm.mem_iff.mpr List.mem_cons_self
  have hplaced := hinv.placed_live hb
  have hge := hplaced.size_le
  have hlt := hplaced.size_lt
  have hold : load64 h.mem (payload b - 8#64) - 8#64 = BitVec.ofNat 64 (b.size - 8) := by
    rw [payload_sub, hinv.headers b hb]
    exact ofNat_sub_ofNat hplaced.size_lt (by omega)
  have hcap : size ≤ BitVec.ofNat 64 (b.size - 8) ↔ size.toNat + 8 ≤ b.size := by
    rw [BitVec.le_def, BitVec.toNat_ofNat, Nat.mod_eq_of_lt (by omega)]
    omega
  unfold Heap.krealloc
  dsimp only
  rw [if_neg hplaced.payload_ne_zero, if_neg hne, hold]
  split
  · rename_i hsmall
    exact Or.inl ⟨rfl, hcap.mp hsmall⟩
  · rename_i hlarge
    rw [hcap] at hlarge
    right
    rcases hinv.kmalloc hfuel size with ⟨-, hnull⟩ | ⟨c, free', h', hfit, hok, hinv', hle, ht⟩
    · left
      rw [hnull]
      rfl
    · right
      have hfits := le_trans (le_totalSize hsize) hle
      obtain ⟨h'', hfreed, hcb, hinv'', hmoved, htouch⟩ :=
        hinv.move hfuel hperm hfit ht hinv' (by omega)
      refine ⟨c, _, h'', ?_, hcb, hinv'', hfits, hmoved, htouch⟩
      rw [hok]
      change (if payload c ≠ 0#64 then _ else _) = _
      rw [if_pos (hinv'.placed_live List.mem_cons_self).payload_ne_zero, hfreed]
      rfl

end

end Osiris.Heap
