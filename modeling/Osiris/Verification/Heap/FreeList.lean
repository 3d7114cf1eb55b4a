import Osiris.Library.Blocks
import Osiris.Library.LinkedList
import Osiris.Model.Heap

/-! # The free list in memory -/

namespace Osiris.Heap

open ByteMemory Blocks LinkedList

/-! ## Blocks in memory -/

theorem inRange_ofNat {a n : ℕ} (h : a + n ≤ 2 ^ 64) {x : Word} :
    InRange (BitVec.ofNat 64 a) n x ↔ a ≤ x.toNat ∧ x.toNat < a + n := by
  have hx := x.isLt
  unfold InRange
  by_cases hn : n = 0
  · omega
  · rw [BitVec.toNat_sub, BitVec.toNat_ofNat, Nat.mod_eq_of_lt (show a < 2 ^ 64 by omega)]
    omega

theorem apart_ofNat {a b n k : ℕ} (ha : a + n ≤ 2 ^ 64) (hb : b + k ≤ 2 ^ 64)
    (h : a + n ≤ b ∨ b + k ≤ a) : Apart (BitVec.ofNat 64 a) n (BitVec.ofNat 64 b) k := by
  intro x hx hy
  rw [inRange_ofNat ha] at hx
  rw [inRange_ofNat hb] at hy
  omega

theorem ofNat_add_eight (a : ℕ) : BitVec.ofNat 64 a + 8#64 = BitVec.ofNat 64 (a + 8) := by
  rw [BitVec.ofNat_add]

/-- The address of a block. -/
def addr (b : Block) : Word :=
  BitVec.ofNat 64 b.start

/-- The pointer to the payload of a block. -/
def payload (b : Block) : Word :=
  addr b + 8#64

theorem payload_sub (b : Block) : payload b - 8#64 = addr b :=
  add_sub_cancel_right _ _

/-- A free block as a node of the list. -/
def node (b : Block) : Node :=
  ⟨addr b, BitVec.ofNat 64 b.size⟩

/-- The block has room for a node and can be addressed. -/
structure Placed (b : Block) : Prop where
  start_pos : 0 < b.start
  size_le : 16 ≤ b.size
  stop_le : b.stop ≤ 2 ^ 64

section Placed

variable {b c : Block}

theorem Placed.start_lt (h : Placed b) : b.start + 16 ≤ 2 ^ 64 := by
  have hsize := h.size_le
  have hstop := h.stop_le
  unfold Block.stop at hstop
  omega

theorem Placed.size_lt (h : Placed b) : b.size < 2 ^ 64 := by
  have hpos := h.start_pos
  have hstop := h.stop_le
  unfold Block.stop at hstop
  omega

theorem Placed.toNat_addr (h : Placed b) : (addr b).toNat = b.start := by
  have hlt := h.start_lt
  unfold addr
  rw [BitVec.toNat_ofNat, Nat.mod_eq_of_lt (by omega)]

theorem Placed.addr_ne_zero (h : Placed b) : addr b ≠ 0#64 := by
  intro hzero
  have hnat := congrArg BitVec.toNat hzero
  rw [h.toNat_addr] at hnat
  exact h.start_pos.ne' hnat

theorem Placed.toNat_payload (h : Placed b) : (payload b).toNat = b.start + 8 := by
  have hlt := h.start_lt
  unfold payload
  rw [BitVec.toNat_add, h.toNat_addr, BitVec.toNat_ofNat]
  omega

theorem Placed.payload_ne_zero (h : Placed b) : payload b ≠ 0#64 := by
  intro hzero
  have hnat := congrArg BitVec.toNat hzero
  rw [h.toNat_payload] at hnat
  exact absurd hnat (Nat.succ_ne_zero _)

theorem Placed.toNat_size (h : Placed b) : (BitVec.ofNat 64 b.size).toNat = b.size := by
  rw [BitVec.toNat_ofNat, Nat.mod_eq_of_lt h.size_lt]

theorem Placed.contains_of_inRange (h : Placed b) {x : Word} (hx : InRange (addr b) 16 x) :
    b.Contains x.toNat := by
  have hsize := h.size_le
  unfold addr at hx
  rw [inRange_ofNat h.start_lt] at hx
  unfold Block.Contains Block.stop
  omega

/-- The two words of a node. -/
theorem Placed.inRange_size (h : Placed b) {x : Word} (hx : InRange (addr b) 8 x) :
    b.Contains x.toNat :=
  h.contains_of_inRange (inRange_mono hx (by norm_num))

theorem Placed.inRange_next (h : Placed b) {x : Word} (hx : InRange (addr b + 8#64) 8 x) :
    b.Contains x.toNat :=
  h.contains_of_inRange (LinkedList.inRange_next hx)

end Placed

/-! ## What a function may change -/

/-- Nothing has changed except the head of the list and bytes of the given blocks. -/
structure Touches (h h' : KernelHeap) (blocks : List Block) : Prop where
  pmm : h'.pmm = h.pmm
  heapStart : h'.heapStart = h.heapStart
  heapSize : h'.heapSize = h.heapSize
  mem : ∀ x : Word, (∀ b ∈ blocks, ¬ b.Contains x.toNat) → h'.mem x = h.mem x

section Touches

variable {h h' h'' : KernelHeap} {b : Block} {blocks blocks' : List Block}

theorem Touches.refl (h : KernelHeap) (blocks : List Block) : Touches h h blocks :=
  ⟨rfl, rfl, rfl, fun _ _ => rfl⟩

theorem Touches.trans (h₁ : Touches h h' blocks) (h₂ : Touches h' h'' blocks) :
    Touches h h'' blocks :=
  ⟨h₂.pmm.trans h₁.pmm, h₂.heapStart.trans h₁.heapStart, h₂.heapSize.trans h₁.heapSize,
    fun x hx => (h₂.mem x hx).trans (h₁.mem x hx)⟩

theorem Touches.mono (ht : Touches h h' blocks)
    (hsub : ∀ b ∈ blocks, ∀ a, b.Contains a → ∃ c ∈ blocks', c.Contains a) :
    Touches h h' blocks' := by
  refine ⟨ht.pmm, ht.heapStart, ht.heapSize, fun x hx => ht.mem x fun b hb hcontains => ?_⟩
  obtain ⟨c, hc, hcx⟩ := hsub b hb _ hcontains
  exact hx c hc hcx

theorem Touches.of_store (h : KernelHeap) {a v : Word}
    (hin : ∀ x, InRange a 8 x → b.Contains x.toNat) : Touches h (h.store a v) [b] := by
  refine ⟨rfl, rfl, rfl, fun x hx => ?_⟩
  exact store64_of_not_inRange h.mem a v x fun hrange => hx b List.mem_cons_self (hin x hrange)

/-- A list that keeps away from the blocks is still there. -/
theorem Touches.seg (ht : Touches h h' blocks) {head tail : Word} {bs : List Block}
    (hseg : Seg h.mem head (bs.map node) tail) (hplaced : ∀ b ∈ bs, Placed b)
    (hdisj : ∀ b ∈ bs, ∀ c ∈ blocks, b.Disjoint c) : Seg h'.mem head (bs.map node) tail := by
  refine hseg.congr fun n hn x hx => ?_
  obtain ⟨b, hb, rfl⟩ := List.mem_map.mp hn
  refine ht.mem x fun c hc hcontains => ?_
  exact hdisj b hb c hc _ ((hplaced b hb).contains_of_inRange hx) hcontains

/-- So is the header of a block that keeps away from them. -/
theorem Touches.load64_addr (ht : Touches h h' blocks) {b : Block} (hb : Placed b)
    (hdisj : ∀ c ∈ blocks, b.Disjoint c) : load64 h'.mem (addr b) = load64 h.mem (addr b) :=
  load64_congr fun x hx =>
    ht.mem x fun c hc hcontains => hdisj c hc _ (hb.inRange_size hx) hcontains

end Touches

/-! ## Changing a link -/

section Links

variable {h : KernelHeap} {mid : Word} {before : List Block}

theorem setNext_nil (h : KernelHeap) (block : Word) :
    h.setNext 0#64 block = { h with freeListHead := block } :=
  if_pos rfl

theorem setNext_addr {p : Block} (hp : Placed p) (h : KernelHeap) (block : Word) :
    h.setNext (addr p) block = h.store (addr p + 8#64) block :=
  if_neg hp.addr_ne_zero

/-- `setNext` moves the end of the list before it. -/
theorem setNext_spec (hseg : Seg h.mem h.freeListHead (before.map node) mid)
    (hplaced : ∀ b ∈ before, Placed b) (hdisj : before.Pairwise Block.Disjoint) (block : Word) :
    Seg (h.setNext (lastAddr (before.map node)) block).mem
        (h.setNext (lastAddr (before.map node)) block).freeListHead (before.map node) block ∧
      Touches h (h.setNext (lastAddr (before.map node)) block) before := by
  cases before using List.reverseRecOn with
  | nil =>
      rw [List.map_nil, lastAddr_nil, setNext_nil]
      exact ⟨rfl, rfl, rfl, rfl, fun _ _ => rfl⟩
  | append_singleton bs p =>
      have hp : Placed p := hplaced p (by simp)
      rw [List.map_append, List.map_singleton] at hseg ⊢
      rw [lastAddr_snoc, show (node p).addr = addr p from rfl, setNext_addr hp]
      refine ⟨hseg.relink (fun n hn x hx hnext => ?_) block, ?_⟩
      · obtain ⟨b, hb, rfl⟩ := List.mem_map.mp hn
        have hbp : b.Disjoint p := (List.pairwise_append.mp hdisj).2.2 b hb p (by simp)
        exact hbp _ ((hplaced b (by simp [hb])).contains_of_inRange hx) (hp.inRange_next hnext)
      · refine (Touches.of_store h fun x hx => hp.inRange_next hx).mono fun b hb a ha => ?_
        rw [List.mem_singleton.mp hb] at ha
        exact ⟨p, by simp, ha⟩

end Links

/-! ## Writing a node -/

/-- The two words of a free block. -/
def KernelHeap.writeNode (h : KernelHeap) (b : Block) (next : Word) : KernelHeap :=
  (h.store (addr b) (BitVec.ofNat 64 b.size)).store (addr b + 8#64) next

section Nodes

variable {h : KernelHeap} {next tail : Word} {b : Block} {bs : List Block}

theorem writeNode_touches (h : KernelHeap) (hb : Placed b) (next : Word) :
    Touches h (h.writeNode b next) [b] :=
  (Touches.of_store h fun _ hx => hb.inRange_size hx).trans
    (Touches.of_store _ fun _ hx => hb.inRange_next hx)

/-- A node that is written in front of a list. -/
theorem writeNode_seg (hb : Placed b) (hseg : Seg h.mem next (bs.map node) tail)
    (hplaced : ∀ c ∈ bs, Placed c) (hdisj : ∀ c ∈ bs, c.Disjoint b) :
    Seg (h.writeNode b next).mem (addr b) ((b :: bs).map node) tail := by
  have hrest : Seg (h.writeNode b next).mem next (bs.map node) tail :=
    (writeNode_touches h hb next).seg hseg hplaced fun c hc d hd => by
      rw [List.mem_singleton.mp hd]
      exact hdisj c hc
  have hvalue : load64 (h.writeNode b next).mem (addr b) = BitVec.ofNat 64 b.size := by
    change load64 (store64 (store64 _ _ _) _ _) _ = _
    rw [load64_store64_apart _ _ _ _ (apart_next (addr b)), load64_store64_same]
  have hnext : load64 (h.writeNode b next).mem (addr b + 8#64) = next :=
    load64_store64_same _ _ _
  rw [List.map_cons]
  refine seg_cons.mpr ⟨rfl, hb.addr_ne_zero, hvalue, ?_⟩
  change Seg _ (load64 _ (addr b + 8#64)) _ _
  rw [hnext]
  exact hrest

end Nodes

/-! ## The list -/

/-- The free list in memory is `free`. -/
structure FreeList (h : KernelHeap) (free : List Block) : Prop where
  chain : Seg h.mem h.freeListHead (free.map node) 0#64
  placed : ∀ b ∈ free, Placed b
  disjoint : free.Pairwise Block.Disjoint

section FreeList

variable {h h' : KernelHeap} {before after rest free blocks : List Block} {b : Block}
  {mid block : Word}

/-- The parts of a list before and after one of its blocks. -/
theorem FreeList.links (hfree : FreeList h (before ++ b :: after)) :
    Seg h.mem h.freeListHead (before.map node) (addr b) ∧
      load64 h.mem (addr b) = BitVec.ofNat 64 b.size ∧
      Seg h.mem (load64 h.mem (addr b + 8#64)) (after.map node) 0#64 := by
  have hchain := hfree.chain
  rw [List.map_append, List.map_cons] at hchain
  obtain ⟨mid, hbefore, hmid⟩ := seg_append.mp hchain
  obtain ⟨rfl, -, hsize, hafter⟩ := seg_cons.mp hmid
  exact ⟨hbefore, hsize, hafter⟩

theorem FreeList.of_touches (hfree : FreeList h free) (ht : Touches h h' blocks)
    (hhead : h'.freeListHead = h.freeListHead) (hdisj : ∀ b ∈ free, ∀ c ∈ blocks, b.Disjoint c) :
    FreeList h' free := by
  refine ⟨?_, hfree.placed, hfree.disjoint⟩
  rw [hhead]
  exact ht.seg hfree.chain hfree.placed hdisj

/-- `setNext` makes one list of what comes before and after the link. -/
theorem freeList_setNext (hbefore : Seg h.mem h.freeListHead (before.map node) mid)
    (hrest : Seg h.mem block (rest.map node) 0#64) (hplaced : ∀ b ∈ before ++ rest, Placed b)
    (hdisj : (before ++ rest).Pairwise Block.Disjoint) :
    FreeList (h.setNext (lastAddr (before.map node)) block) (before ++ rest) ∧
      Touches h (h.setNext (lastAddr (before.map node)) block) before := by
  obtain ⟨hfirst, hlast, hcross⟩ := List.pairwise_append.mp hdisj
  obtain ⟨hseg, ht⟩ := setNext_spec hbefore (fun b hb => hplaced b (by simp [hb])) hfirst block
  refine ⟨⟨?_, hplaced, hdisj⟩, ht⟩
  rw [List.map_append]
  exact seg_append.mpr ⟨block, hseg, ht.seg hrest (fun b hb => hplaced b (by simp [hb]))
    fun b hb c hc => (hcross c hc b hb).symm⟩

end FreeList

end Osiris.Heap
