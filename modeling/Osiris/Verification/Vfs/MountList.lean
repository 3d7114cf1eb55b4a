import Osiris.Library.Chain
import Osiris.Model.MountList
import Osiris.Verification.Heap.Exhaustion
import Osiris.Verification.Tar.Fields

/-! # The list of mounts in the heap -/

namespace Osiris.Vfs

open ByteMemory Strings Heap Blocks LinkedList Tar

/-! ## Strings -/

section Strings

variable {m : Mem} {fuel : ℕ} {p q : Word} {s t : List Byte}

/-- The copy has the string, and nothing else is written. -/
theorem kstrcpy_spec (hs : StringAt m q s) (hlength : s.length < 2 ^ 32)
    (hapart : Apart p (s.length + 1) q (s.length + 1)) (hfuel : s.length < fuel) :
    ∃ m', kstrcpy fuel m p q = .ok m' ∧ StringAt m' p s ∧
      ∀ x, ¬ InRange p (s.length + 1) x → m' x = m x := by
  induction s generalizing m p q fuel with
  | nil =>
      obtain ⟨fuel, rfl⟩ := Nat.exists_eq_succ_of_ne_zero hfuel.ne'
      have hnul : m q = 0#8 := hs
      refine ⟨setByte m p 0#8, ?_, setByte_same m p 0#8, fun x hx => ?_⟩
      · rw [kstrcpy, hnul]
        rfl
      · exact setByte_of_ne m 0#8 fun heq => hx (by simp [InRange, heq])
  | cons c s ih =>
      obtain ⟨fuel, rfl⟩ := Nat.exists_eq_succ_of_ne_zero (Nat.ne_of_gt (Nat.zero_lt_of_lt hfuel))
      obtain ⟨hc, hmem, hrest⟩ := hs
      rw [List.length_cons] at hlength hapart hfuel
      have hp : InRange p (s.length + 1 + 1) p := by simp [InRange]
      have hsource : StringAt (setByte m p c) (q + 1#64) s :=
        hrest.congr fun x hx => setByte_of_ne m c fun heq =>
          hapart p hp (heq ▸ inRange_of_tail hx)
      have htails : Apart (p + 1#64) (s.length + 1) (q + 1#64) (s.length + 1) :=
        fun x hx hy => hapart x (inRange_of_tail hx) (inRange_of_tail hy)
      have hless : s.length < fuel := by omega
      obtain ⟨m', hok, hstring, hframe⟩ := ih hsource (by omega) htails hless
      refine ⟨m', ?_, ⟨hc, ?_, hstring⟩, fun x hx => ?_⟩
      · rw [kstrcpy, hmem]
        rw [if_neg hc]
        exact hok
      · have hstart : ¬ InRange (p + 1#64) (s.length + 1) p := by
          unfold InRange
          have hback : p - (p + 1#64) = -1#64 := by ring
          have hlast : (-1#64).toNat = 2 ^ 64 - 1 := by decide
          rw [hback, hlast]
          omega
        rw [hframe p hstart, setByte_same]
      · rw [List.length_cons] at hx
        rw [hframe x fun htail => hx (inRange_of_tail htail)]
        exact setByte_of_ne m c fun heq => hx (heq ▸ hp)

theorem kstrcmpAt_spec (hs : StringAt m p s) (ht : StringAt m q t) (hfuel : s.length < fuel) :
    ∃ order, kstrcmpAt m fuel p q = .ok order ∧ (order = 0 ↔ s = t) := by
  induction s generalizing p q t fuel with
  | nil =>
      obtain ⟨fuel, rfl⟩ := Nat.exists_eq_succ_of_ne_zero hfuel.ne'
      have hnul : m p = 0#8 := hs
      rw [kstrcmpAt, if_neg (fun hgo => hgo.1 hnul)]
      refine ⟨_, rfl, ?_⟩
      cases t with
      | nil =>
          have hnul' : m q = 0#8 := ht
          simp [hnul, hnul']
      | cons d t =>
          obtain ⟨hd, hmem, -⟩ := ht
          have hpos : d.toNat ≠ 0 := fun hzero => hd (BitVec.eq_of_toNat_eq hzero)
          rw [hnul, hmem]
          simp [hpos]
  | cons c s ih =>
      obtain ⟨fuel, rfl⟩ := Nat.exists_eq_succ_of_ne_zero (Nat.ne_of_gt (Nat.zero_lt_of_lt hfuel))
      obtain ⟨hc, hmem, hrest⟩ := hs
      rw [List.length_cons] at hfuel
      have hdiff : ∀ d : Byte, c ≠ d → ((c.toNat : ℤ) - d.toNat ≠ 0) := by
        intro d hne hzero
        exact hne (BitVec.eq_of_toNat_eq (by omega))
      cases t with
      | nil =>
          have hnul : m q = 0#8 := ht
          rw [kstrcmpAt, hmem, hnul, if_neg (fun hgo => hc hgo.2)]
          exact ⟨_, rfl, iff_of_false (hdiff 0#8 hc) (by simp)⟩
      | cons d t =>
          obtain ⟨hd, hmem', hrest'⟩ := ht
          rw [kstrcmpAt, hmem, hmem']
          by_cases hcd : c = d
          · rw [if_pos ⟨hc, hcd⟩]
            have hless : s.length < fuel := by omega
            obtain ⟨order, hok, hiff⟩ := ih hrest hrest' hless
            exact ⟨order, hok, by rw [hiff, List.cons.injEq, and_iff_right hcd]⟩
          · rw [if_neg (fun hgo => hcd hgo.2)]
            exact ⟨_, rfl, iff_of_false (hdiff d hcd) fun heq => hcd (List.cons.inj heq).1⟩

end Strings

/-! ## Nodes -/

/-- The texts fit their fields with their NUL. -/
structure Fits (device mountpoint type : List Byte) : Prop where
  device : device.length < vfsPathLength
  mountpoint : mountpoint.length < vfsPathLength
  type : type.length < vfsTypeLength

/-- A mount, with the block its node is in. -/
structure MountNode where
  block : Block
  device : List Byte
  mountpoint : List Byte
  type : List Byte
deriving DecidableEq, Repr

def MountNode.ptr (n : MountNode) : Word :=
  payload n.block

/-- The texts of a mount stand in its node. -/
structure NodeAt (m : Mem) (n : MountNode) : Prop where
  device : StringAt m (n.ptr + 32#64) n.device
  mountpoint : StringAt m (n.ptr + 96#64) n.mountpoint
  type : StringAt m n.ptr n.type
  fits : Fits n.device n.mountpoint n.type

/-- A live block has room for the node behind its header. -/
structure Housed (live : List Block) (n : MountNode) : Prop where
  live : n.block ∈ live
  room : 216 ≤ n.block.size

section Nodes

variable {h : KernelHeap} {live free : List Block} {m m' : Mem} {n p : MountNode} {x : Word}

theorem inRange_link {a : Word} (hx : InRange (a + 200#64) 8 x) : InRange a 208 x :=
  inRange_field hx (by norm_num) (by norm_num)

/-- The texts are in front of the operations. -/
theorem NodeAt.congr (hnode : NodeAt m n) (hsame : ∀ x, InRange n.ptr 160 x → m' x = m x) :
    NodeAt m' n := by
  obtain ⟨hdevice, hmountpoint, htype⟩ := hnode.fits
  unfold vfsPathLength at hdevice hmountpoint
  unfold vfsTypeLength at htype
  exact ⟨hnode.device.congr fun x hx => hsame x (inRange_field hx (by omega) (by norm_num)),
    hnode.mountpoint.congr fun x hx => hsame x (inRange_field hx (by omega) (by norm_num)),
    hnode.type.congr fun x hx => hsame x (inRange_mono hx (by omega)), hnode.fits⟩

theorem Housed.inPayload (hinv : HeapInv h live free) (hn : Housed live n)
    (hx : InRange n.ptr 208 x) : InPayload n.block x :=
  inPayload_of_inRange (hinv.placed_live hn.live) hn.room hx

theorem Housed.client (hinv : HeapInv h live free) (hn : Housed live n)
    (hx : InRange n.ptr 208 x) : Client live x :=
  Or.inl ⟨n.block, hn.live, hn.inPayload hinv hx⟩

theorem Housed.apart (hinv : HeapInv h live free) (hn : Housed live n) (hp : Housed live p)
    (hne : n.block ≠ p.block) : Apart n.ptr 208 p.ptr 208 :=
  fun _ hx hy => hinv.disjoint_live hn.live hp.live hne _ (hn.inPayload hinv hx).contains
    (hp.inPayload hinv hy).contains

theorem Housed.ptr_ne_zero (hinv : HeapInv h live free) (hn : Housed live n) : n.ptr ≠ 0#64 :=
  (hinv.placed_live hn.live).payload_ne_zero

theorem Housed.ptr_ne (hinv : HeapInv h live free) (hn : Housed live n) (hp : Housed live p)
    (hne : n.block ≠ p.block) : n.ptr ≠ p.ptr :=
  hinv.payload_ne hn.live hp.live hne

/-- A store to the link of a node is one to the payload of a live block. -/
theorem Housed.storeLink (hinv : HeapInv h live free) (hp : Housed live p) (v : Word) :
    HeapInv { h with mem := store64 h.mem (p.ptr + 200#64) v } live free :=
  hinv.write fun x hx => store64_of_not_inRange h.mem _ v x fun hin =>
    hx (hp.client hinv (inRange_link hin))

/-- No text is in a link. -/
theorem NodeAt.storeLink (hnode : NodeAt m n) (hinv : HeapInv h live free) (hn : Housed live n)
    (hp : Housed live p) (v : Word) : NodeAt (store64 m (p.ptr + 200#64) v) n := by
  refine hnode.congr fun x hx => store64_of_not_inRange m _ v x fun hin => ?_
  by_cases hblock : n.block = p.block
  · have hptr : n.ptr = p.ptr := congrArg payload hblock
    have hfields : Apart (n.ptr + BitVec.ofNat 64 0) 160 (n.ptr + 200#64) 8 :=
      apart_fields n.ptr (by norm_num) (by norm_num)
    rw [BitVec.add_zero] at hfields
    exact hfields x hx (hptr ▸ hin)
  · exact hn.apart hinv hp hblock x (inRange_mono hx (by norm_num)) (inRange_link hin)

theorem Housed.apart_link (hinv : HeapInv h live free) (hn : Housed live n) (hp : Housed live p)
    (hne : n.block ≠ p.block) : Apart (n.ptr + 200#64) 8 (p.ptr + 200#64) 8 :=
  fun x hx hy => hn.apart hinv hp hne x (inRange_link hx) (inRange_link hy)

end Nodes

/-! ## The list -/

/-- The list leads through the nodes of the mounts in their order. -/
structure MountInv (s : MountTable) (live free : List Block) (mounts : List MountNode) : Prop where
  heap : HeapInv s.toKernelHeap live free
  chain : Chain s.mem 200#64 s.mountpointsRoot (mounts.map MountNode.ptr) 0#64
  nodup : (mounts.map MountNode.block).Nodup
  housed : ∀ n ∈ mounts, Housed live n
  nodes : ∀ n ∈ mounts, NodeAt s.mem n

section List

variable {s : MountTable} {h : KernelHeap} {live live' free free' : List Block}
  {mounts before after : List MountNode} {n : MountNode} {b : Block} {fuel : ℕ} {x : Word}

theorem MountInv.length_le (hinv : MountInv s live free mounts) : mounts.length ≤ 65536 := by
  have hle := hinv.heap.live_length_le hinv.nodup fun b hb => by
    obtain ⟨n, hn, rfl⟩ := List.mem_map.mp hb
    exact (hinv.housed n hn).live
  rwa [List.length_map] at hle

/-- The list does not depend on what happens outside its nodes. -/
theorem MountInv.frame (hinv : MountInv s live free mounts) (hheap : HeapInv h live' free')
    (hlive : ∀ n ∈ mounts, n.block ∈ live')
    (hsame : ∀ n ∈ mounts, ∀ x, InRange n.ptr 208 x → h.mem x = s.mem x) :
    MountInv { s with toKernelHeap := h } live' free' mounts := by
  refine ⟨hheap, hinv.chain.congr fun a ha => ?_, hinv.nodup,
    fun n hn => ⟨hlive n hn, (hinv.housed n hn).room⟩,
    fun n hn => (hinv.nodes n hn).congr fun x hx => hsame n hn x (inRange_mono hx (by norm_num))⟩
  obtain ⟨n, hn, rfl⟩ := List.mem_map.mp ha
  exact load64_congr fun x hx => hsame n hn x (inRange_link hx)

/-- A live block that is no node can be freed. -/
theorem MountInv.kfree (hinv : MountInv s live free mounts) (hfuel : 65536 < fuel) (hb : b ∈ live)
    (hother : ∀ n ∈ mounts, n.block ≠ b) :
    ∃ h, Heap.kfree fuel s.toKernelHeap (payload b) = .ok h ∧
      MountInv { s with toKernelHeap := h } (live.erase b) (release b free) mounts ∧
      ∀ x, Client (live.erase b) x → h.mem x = s.mem x := by
  have hperm : live.Perm (b :: live.erase b) := List.perm_cons_erase hb
  obtain ⟨h, hok, hheap, ht⟩ := hinv.heap.kfree hfuel hperm
  have hrest := hinv.heap.perm hperm
  have hsame : ∀ x, Client (live.erase b) x → h.mem x = s.mem x := fun x hx =>
    ht.mem x (List.forall_mem_cons.mpr ⟨hrest.not_new_of_client hx,
      fun c hc => hrest.not_free_of_client hx.cons hc⟩)
  have hlive : ∀ n ∈ mounts, n.block ∈ live.erase b := fun n hn =>
    (List.mem_erase_of_ne (hother n hn)).mpr (hinv.housed n hn).live
  have hnode : ∀ n ∈ mounts, ∀ x, InRange n.ptr 208 x → Client (live.erase b) x := fun n hn x hx =>
    Or.inl ⟨n.block, hlive n hn, (hinv.housed n hn).inPayload hinv.heap hx⟩
  exact ⟨h, hok, hinv.frame hheap hlive fun n hn x hx => hsame x (hnode n hn x hx), hsame⟩

end List

/-! ## A new node -/

/-- A string of a caller is neither in the memory of the allocator nor in a link of the list. -/
structure CallerString (live : List Block) (mounts : List MountNode) (m : Mem) (p : Word)
    (text : List Byte) : Prop where
  ne_null : p ≠ 0#64
  string : StringAt m p text
  client : ∀ x, InRange p (text.length + 1) x → Client live x
  link : ∀ x, InRange p (text.length + 1) x → ∀ n ∈ mounts, ¬ InRange (n.ptr + 200#64) 8 x

theorem CallerString.congr {live : List Block} {mounts : List MountNode} {m m' : Mem} {p : Word}
    {text : List Byte} (hstring : CallerString live mounts m p text)
    (hsame : ∀ x, Client live x → m' x = m x) : CallerString live mounts m' p text :=
  ⟨hstring.ne_null, hstring.string.congr fun x hx => hsame x (hstring.client x hx),
    hstring.client, hstring.link⟩

/-- The node is filled in and not yet in the list. -/
structure Prepared (s : MountTable) (live free : List Block) (mounts : List MountNode)
    (n : MountNode) : Prop where
  inv : MountInv s live free mounts
  housed : Housed live n
  fresh : ∀ p ∈ mounts, p.block ≠ n.block
  node : NodeAt s.mem n
  next : load64 s.mem (n.ptr + 200#64) = 0#64

section Create

variable {s : MountTable} {live free : List Block} {mounts : List MountNode} {n : MountNode}
  {h : KernelHeap} {b : Block} {fuel : ℕ} {device target type p q : Word} {m : Mem}
  {deviceText targetText typeText text : List Byte}

/-- A copy into a field of a live block. -/
theorem kstrcpy_field (hinv : HeapInv h (b :: live) free) (hroom : 216 ≤ b.size) (k size : ℕ)
    (hsize : k + size ≤ 208) (hlength : text.length < size) (hstring : StringAt m q text)
    (hclient : ∀ x, InRange q (text.length + 1) x → Client live x) (hfuel : 65536 < fuel) :
    ∃ m', kstrcpy fuel m (payload b + BitVec.ofNat 64 k) q = .ok m' ∧
      StringAt m' (payload b + BitVec.ofNat 64 k) text ∧
      ∀ x, ¬ InRange (payload b + BitVec.ofNat 64 k) size x → m' x = m x := by
  have hapart : Apart (payload b + BitVec.ofNat 64 k) (text.length + 1) q (text.length + 1) := by
    intro x hx hy
    have hin : InRange (payload b) 208 x := inRange_field hx (by omega) (by norm_num)
    exact hinv.client_not_inRange hroom (hclient x hy) hin
  have hless : text.length < fuel := by omega
  obtain ⟨m', hok, hcopy, hframe⟩ := kstrcpy_spec hstring (by omega) hapart hless
  exact ⟨m', hok, hcopy, fun x hx => hframe x fun hin => hx (inRange_mono hin hlength)⟩

/-- A string stays where it is when another field is written. -/
theorem stringAt_keep {k size k' size' : ℕ} {m' : Mem} (hlength : text.length < size)
    (hstring : StringAt m (p + BitVec.ofNat 64 k) text)
    (hapart : Apart (p + BitVec.ofNat 64 k) size (p + BitVec.ofNat 64 k') size')
    (hframe : ∀ x, ¬ InRange (p + BitVec.ofNat 64 k') size' x → m' x = m x) :
    StringAt m' (p + BitVec.ofNat 64 k) text :=
  hstring.congr fun x hx => hframe x (hapart x (inRange_mono hx hlength))

/-- The three copies fill the node in. -/
theorem kstrcpy_node (hinv : HeapInv h (b :: live) free) (hroom : 216 ≤ b.size)
    (hfuel : 65536 < fuel) (hfits : Fits deviceText targetText typeText)
    (hdevice : CallerString live mounts m device deviceText)
    (htarget : CallerString live mounts m target targetText)
    (htype : CallerString live mounts m type typeText) :
    ∃ m₁ m₂ m₃, kstrcpy fuel m (payload b + 32#64) device = .ok m₁ ∧
      kstrcpy fuel m₁ (payload b + 96#64) target = .ok m₂ ∧
      kstrcpy fuel m₂ (payload b) type = .ok m₃ ∧
      NodeAt m₃ ⟨b, deviceText, targetText, typeText⟩ ∧
      ∀ x, ¬ InRange (payload b) 208 x → m₃ x = m x := by
  have hout : ∀ x, Client live x → ¬ InRange (payload b) 208 x := fun x hx =>
    hinv.client_not_inRange hroom hx
  obtain ⟨m₁, hok₁, hcopy₁, hframe₁⟩ := kstrcpy_field hinv hroom 32 64 (by norm_num)
    hfits.device hdevice.string hdevice.client hfuel
  have hout₁ : ∀ x, ¬ InRange (payload b) 208 x → m₁ x = m x := fun x hx =>
    hframe₁ x fun hin => hx (inRange_field hin (by norm_num) (by norm_num))
  obtain ⟨m₂, hok₂, hcopy₂, hframe₂⟩ := kstrcpy_field hinv hroom 96 64 (by norm_num)
    hfits.mountpoint (htarget.string.congr fun x hx => hout₁ x (hout x (htarget.client x hx)))
    htarget.client hfuel
  have hout₂ : ∀ x, ¬ InRange (payload b) 208 x → m₂ x = m x := fun x hx =>
    (hframe₂ x fun hin => hx (inRange_field hin (by norm_num) (by norm_num))).trans (hout₁ x hx)
  obtain ⟨m₃, hok₃, hcopy₃, hframe₃⟩ := kstrcpy_field hinv hroom 0 32 (by norm_num)
    hfits.type (htype.string.congr fun x hx => hout₂ x (hout x (htype.client x hx)))
    htype.client hfuel
  have hout₃ : ∀ x, ¬ InRange (payload b) 208 x → m₃ x = m x := fun x hx =>
    (hframe₃ x fun hin => hx (inRange_field hin (by norm_num) (by norm_num))).trans (hout₂ x hx)
  have hapart₁₂ : Apart (payload b + 32#64) 64 (payload b + 96#64) 64 :=
    apart_fields (payload b) (by norm_num) (by norm_num)
  have hapart₁₃ : Apart (payload b + 0#64) 32 (payload b + 32#64) 64 :=
    apart_fields (payload b) (by norm_num) (by norm_num)
  have hapart₂₃ : Apart (payload b + 0#64) 32 (payload b + 96#64) 64 :=
    apart_fields (payload b) (by norm_num) (by norm_num)
  have hdevice₂ := stringAt_keep hfits.device hcopy₁ hapart₁₂ hframe₂
  have hdevice₃ := stringAt_keep hfits.device hdevice₂ hapart₁₃.symm hframe₃
  have htarget₃ := stringAt_keep hfits.mountpoint hcopy₂ hapart₂₃.symm hframe₃
  rw [BitVec.add_zero] at hok₃ hcopy₃
  exact ⟨m₁, m₂, m₃, hok₁, hok₂, hok₃, ⟨hdevice₃, htarget₃, hcopy₃, hfits⟩, hout₃⟩

/-- The new node is filled in, unless there is no room for it. -/
theorem vfsCreateMountpoint_sized (hinv : MountInv s live free mounts) (hfuel : 65536 < fuel)
    (hfits : Fits deviceText targetText typeText)
    (hdevice : CallerString live mounts s.mem device deviceText)
    (htarget : CallerString live mounts s.mem target targetText)
    (htype : CallerString live mounts s.mem type typeText) :
    (¬ ∃ a, HeapGap live ⟨a, 224⟩) ∧
        vfsCreateMountpoint fuel s device target type = .ok (0#64, s) ∨
      (∃ a, HeapGap live ⟨a, 224⟩) ∧ ∃ b free' s', b.size = 224 ∧
        vfsCreateMountpoint fuel s device target type = .ok (payload b, s') ∧
        Prepared s' (b :: live) free' mounts ⟨b, deviceText, targetText, typeText⟩ ∧
        ∀ x, Client live x → s'.mem x = s.mem x := by
  have hneed : need 208#64 = 224 := by decide
  have hpos : (208#64 : Word) ≠ 0#64 := by decide
  rcases hinv.heap.kmalloc_of_gap hfuel hpos (by decide) with ⟨hfull, hnull⟩ |
    ⟨hgap, g, free', h, -, hok, hheap, ht⟩
  · left
    rw [hneed] at hfull
    refine ⟨hfull, ?_⟩
    unfold vfsCreateMountpoint
    rw [hnull]
    rfl
  · right
    rw [hneed] at hgap hheap
    have hptr : BitVec.ofNat 64 (g.start + 8) = payload ⟨g.start, 224⟩ :=
      (ofNat_add_eight g.start).symm
    have hsize : (⟨g.start, 224⟩ : Block).size = 224 := rfl
    have hroom : 216 ≤ (⟨g.start, 224⟩ : Block).size := by norm_num
    rw [hptr] at hok
    generalize (⟨g.start, 224⟩ : Block) = b at hheap hok hroom hsize
    have hhoused : Housed (b :: live) ⟨b, deviceText, targetText, typeText⟩ :=
      ⟨List.mem_cons_self, hroom⟩
    have hplaced := hheap.placed_live hhoused.live
    have hsame : ∀ x, Client live x → h.mem x = s.mem x := fun x hx =>
      hinv.heap.client_mem_eq ht hx
    obtain ⟨m₁, m₂, m₃, hok₁, hok₂, hok₃, hnode, hframe⟩ := kstrcpy_node hheap hroom hfuel hfits
      (hdevice.congr hsame) (htarget.congr hsame) (htype.congr hsame)
    have hmem : ∀ x, ¬ InRange (payload b) 208 x →
        store64 m₃ (payload b + 200#64) 0#64 x = h.mem x := fun x hx =>
      (store64_of_not_inRange m₃ _ _ x fun hin => hx (inRange_link hin)).trans (hframe x hx)
    have hclient : ∀ x, Client live x → store64 m₃ (payload b + 200#64) 0#64 x = s.mem x :=
      fun x hx => (hmem x fun hin => hheap.not_new_of_client hx
        (hhoused.inPayload hheap hin).contains).trans (hsame x hx)
    have hheap' : HeapInv { h with mem := store64 m₃ (payload b + 200#64) 0#64 } (b :: live) free' :=
      hheap.write fun x hx => hmem x fun hin => hx (hhoused.client hheap hin)
    refine ⟨hgap, b, free', ⟨_, s.mountpointsRoot⟩, hsize, ?_,
      ⟨hinv.frame hheap' (fun n hn => ?_) fun n hn x hx => ?_, hhoused, fun n hn heq => ?_,
        hnode.storeLink hheap hhoused hhoused 0#64, load64_store64_same _ _ _⟩, hclient⟩
    · unfold vfsCreateMountpoint
      rw [hok]
      dsimp only [Bind.bind, Except.bind]
      rw [if_neg hplaced.payload_ne_zero, hok₁]
      dsimp only
      rw [hok₂]
      dsimp only
      rw [hok₃]
    · exact List.mem_cons_of_mem b (hinv.housed n hn).live
    · exact hclient x ((hinv.housed n hn).client hinv.heap hx)
    · have hblock : n.block = b := heq
      exact hheap.not_mem_rest (hblock ▸ (hinv.housed n hn).live)

theorem vfsCreateMountpoint_spec (hinv : MountInv s live free mounts) (hfuel : 65536 < fuel)
    (hfits : Fits deviceText targetText typeText)
    (hdevice : CallerString live mounts s.mem device deviceText)
    (htarget : CallerString live mounts s.mem target targetText)
    (htype : CallerString live mounts s.mem type typeText) :
    (¬ ∃ a, HeapGap live ⟨a, 224⟩) ∧
        vfsCreateMountpoint fuel s device target type = .ok (0#64, s) ∨
      (∃ a, HeapGap live ⟨a, 224⟩) ∧ ∃ b free' s',
        vfsCreateMountpoint fuel s device target type = .ok (payload b, s') ∧
        Prepared s' (b :: live) free' mounts ⟨b, deviceText, targetText, typeText⟩ ∧
        ∀ x, Client live x → s'.mem x = s.mem x :=
  (vfsCreateMountpoint_sized hinv hfuel hfits hdevice htarget htype).imp_right
    fun ⟨hgap, b, free', s', _, h⟩ => ⟨hgap, b, free', s', h⟩

/-- The operations are between the texts and the link. -/
theorem Prepared.setOperations (hn : Prepared s live free mounts n) (ops : Word) :
    Prepared { s with mem := copyUp s.mem (n.ptr + 160#64) ops 40 } live free mounts n ∧
      ∀ x, ¬ InRange n.ptr 208 x → copyUp s.mem (n.ptr + 160#64) ops 40 x = s.mem x := by
  have hkeep : ∀ x, ¬ InRange (n.ptr + 160#64) 40 x →
      copyUp s.mem (n.ptr + 160#64) ops 40 x = s.mem x :=
    fun x hx => copyUp_of_not_inRange s.mem _ ops (by norm_num) hx
  have hout : ∀ x, ¬ InRange n.ptr 208 x → copyUp s.mem (n.ptr + 160#64) ops 40 x = s.mem x :=
    fun x hx => hkeep x fun hin => hx (inRange_field hin (by norm_num) (by norm_num))
  have htexts : Apart (n.ptr + 0#64) 160 (n.ptr + 160#64) 40 :=
    apart_fields n.ptr (by norm_num) (by norm_num)
  have hlink : Apart (n.ptr + 160#64) 40 (n.ptr + 200#64) 8 :=
    apart_fields n.ptr (by norm_num) (by norm_num)
  rw [BitVec.add_zero] at htexts
  have hheap : HeapInv { s.toKernelHeap with mem := copyUp s.mem (n.ptr + 160#64) ops 40 } live
      free :=
    hn.inv.heap.write fun x hx => hout x fun hin => hx (hn.housed.client hn.inv.heap hin)
  refine ⟨⟨hn.inv.frame hheap (fun p hp => (hn.inv.housed p hp).live) fun p hp x hx => ?_,
    hn.housed, hn.fresh, hn.node.congr fun x hx => hkeep x (htexts x hx), ?_⟩, hout⟩
  · exact hout x ((hn.inv.housed p hp).apart hn.inv.heap hn.housed (hn.fresh p hp) x hx)
  · rw [← hn.next]
    exact load64_congr fun x hx => hkeep x (hlink.symm x hx)

end Create

/-! ## Walking the list -/

/-- The walk ends at the object before the one it looks for, or at the last one. -/
theorem followNext_eq {m : Mem} {mp cur a stop : Word} {as : List Word} {fuel : ℕ}
    (hchain : Chain m 200#64 cur (as ++ [a]) stop) (hstop : stop = 0#64 ∨ stop = mp)
    (hne : ∀ c ∈ (as ++ [a]).tail, c ≠ mp) (hfuel : as.length < fuel) :
    followNext m mp fuel cur = .ok a := by
  induction as generalizing cur fuel with
  | nil =>
      obtain ⟨fuel, rfl⟩ := Nat.exists_eq_succ_of_ne_zero hfuel.ne'
      obtain ⟨rfl, -, hend⟩ := chain_cons.mp hchain
      rw [chain_nil] at hend
      rw [followNext, hend, if_neg]
      rintro ⟨hnext, hother⟩
      exact hstop.elim hnext hother
  | cons b as ih =>
      obtain ⟨fuel, rfl⟩ := Nat.exists_eq_succ_of_ne_zero (Nat.ne_of_gt (Nat.zero_lt_of_lt hfuel))
      rw [List.cons_append] at hchain hne
      obtain ⟨rfl, -, hrest⟩ := chain_cons.mp hchain
      obtain ⟨c, rest, hcons⟩ := List.exists_cons_of_ne_nil (List.append_ne_nil_of_right_ne_nil as
        (List.cons_ne_nil a []))
      have hnext : load64 m (cur + 200#64) = c ∧ c ≠ 0#64 := by
        rw [hcons] at hrest
        exact ⟨(chain_cons.mp hrest).1, (chain_cons.mp hrest).2.1⟩
      have hother : c ≠ mp := hne c (by rw [List.tail_cons, hcons]; exact List.mem_cons_self)
      rw [followNext, if_pos (by rw [hnext.1]; exact ⟨hnext.2, hother⟩)]
      exact ih hrest (fun d hd => hne d (List.mem_of_mem_tail hd)) (by
        rw [List.length_cons] at hfuel
        omega)

section Walks

variable {s : MountTable} {live free : List Block} {mounts before after : List MountNode}
  {n p : MountNode} {fuel : ℕ}

/-- The last link is moved to `tail`, from where the chain goes on. -/
theorem MountInv.relink (hinv : MountInv s live free (before ++ p :: after)) (tail : Word)
    {rest : List MountNode}
    (hrest : Chain (store64 s.mem (p.ptr + 200#64) tail) 200#64 tail (rest.map MountNode.ptr) 0#64)
    (hnodup : ((before ++ p :: rest).map MountNode.block).Nodup)
    (hhoused : ∀ n ∈ rest, Housed live n) (hnodes : ∀ n ∈ rest, NodeAt s.mem n) :
    MountInv { s with mem := store64 s.mem (p.ptr + 200#64) tail } live free
      (before ++ p :: rest) := by
  have hp := hinv.housed p (by simp)
  have hall : ∀ n ∈ before ++ p :: rest, Housed live n ∧ NodeAt s.mem n := by
    intro n hn
    rcases List.mem_append.mp hn with hn | hn
    · exact ⟨hinv.housed n (List.mem_append_left _ hn), hinv.nodes n (List.mem_append_left _ hn)⟩
    · rcases List.mem_cons.mp hn with rfl | hn
      · exact ⟨hp, hinv.nodes n (by simp)⟩
      · exact ⟨hhoused n hn, hnodes n hn⟩
  refine ⟨hp.storeLink hinv.heap tail, ?_, hnodup, fun n hn => (hall n hn).1,
    fun n hn => (hall n hn).2.storeLink hinv.heap (hall n hn).1 hp tail⟩
  have hchain := hinv.chain
  rw [List.map_append, List.map_cons, ← List.singleton_append, ← List.append_assoc,
    chain_append] at hchain
  obtain ⟨mid, hfirst, -⟩ := hchain
  rw [List.map_append, List.map_cons, ← List.singleton_append, ← List.append_assoc, chain_append]
  refine ⟨tail, hfirst.relink (fun a ha => ?_) tail, hrest⟩
  obtain ⟨n, hn, rfl⟩ := List.mem_map.mp ha
  refine (hall n (List.mem_append_left _ hn)).1.apart_link hinv.heap hp ?_
  have hnodup' := hinv.nodup
  rw [List.map_append, List.nodup_append] at hnodup'
  exact hnodup'.2.2 n.block (List.mem_map_of_mem hn) p.block (by simp)

/-- The node becomes the last one of the list. -/
theorem vfsAddMountpoint_spec (hn : Prepared s live free mounts n) (hfuel : 65536 < fuel) :
    ∃ s', vfsAddMountpoint fuel s n.ptr = .ok (n.ptr, s') ∧ MountInv s' live free (mounts ++ [n]) ∧
      ∀ x, (∀ p ∈ mounts, ¬ InRange (p.ptr + 200#64) 8 x) → s'.mem x = s.mem x := by
  have hinv := hn.inv
  have hroot := hinv.chain.head_eq_zero_iff
  have hlength := hinv.length_le
  have hptr := hn.housed.ptr_ne_zero hinv.heap
  unfold vfsAddMountpoint
  rcases mounts.eq_nil_or_concat' with rfl | ⟨before, p, rfl⟩
  · rw [if_pos (hroot.mpr rfl)]
    refine ⟨_, rfl, ⟨hinv.heap, chain_cons.mpr ⟨rfl, hptr, hn.next⟩, by simp, ?_, ?_⟩,
      fun x _ => rfl⟩
    · exact fun p hp => List.mem_singleton.mp hp ▸ hn.housed
    · exact fun p hp => List.mem_singleton.mp hp ▸ hn.node
  · have hwalk : followNext s.mem 0#64 fuel s.mountpointsRoot = .ok p.ptr := by
      have hchain := hinv.chain
      rw [List.map_append] at hchain
      refine followNext_eq hchain (Or.inl rfl) (fun c hc => ?_) (by simp at hlength ⊢; omega)
      have hmem : c ∈ (before ++ [p]).map MountNode.ptr := by
        rw [List.map_append]
        exact List.mem_of_mem_tail hc
      obtain ⟨q, hq, rfl⟩ := List.mem_map.mp hmem
      exact (hinv.housed q hq).ptr_ne_zero hinv.heap
    rw [if_neg (fun hzero => by simpa using hroot.mp hzero), hwalk]
    refine ⟨_, rfl, ?_, fun x hx => store64_of_not_inRange s.mem _ _ x (hx p (by simp))⟩
    have hp := hinv.housed p (by simp)
    rw [List.append_assoc]
    refine hinv.relink n.ptr (chain_cons.mpr ⟨rfl, hptr, ?_⟩) ?_ ?_ ?_
    · have hapart := hn.housed.apart_link hinv.heap hp (hn.fresh p (by simp)).symm
      rw [load64_store64_apart s.mem _ _ _ hapart, hn.next]
      rfl
    · have hnodup : ((before ++ [p] ++ [n]).map MountNode.block).Nodup := by
        rw [List.map_append, List.nodup_append]
        refine ⟨hinv.nodup, by simp, fun b hb c hc => ?_⟩
        obtain ⟨q, hq, rfl⟩ := List.mem_map.mp hb
        rw [List.mem_singleton.mp hc]
        exact hn.fresh q hq
      rwa [List.append_assoc] at hnodup
    · exact fun p hp => List.mem_singleton.mp hp ▸ hn.housed
    · exact fun p hp => List.mem_singleton.mp hp ▸ hn.node

/-- The other mounts are in blocks of their own. -/
theorem MountInv.others (hinv : MountInv s live free (before ++ n :: after)) :
    (∀ p ∈ before ++ after, Housed live p ∧ NodeAt s.mem p ∧ p.block ≠ n.block) ∧
      ((before ++ after).map MountNode.block).Nodup := by
  have hnodup := hinv.nodup
  rw [List.map_append, List.map_cons, List.nodup_middle, List.nodup_cons, ← List.map_append]
    at hnodup
  refine ⟨fun p hp => ?_, hnodup.2⟩
  have hmem : p ∈ before ++ n :: after := by
    rw [List.mem_append] at hp
    rw [List.mem_append, List.mem_cons]
    exact hp.imp_right Or.inr
  exact ⟨hinv.housed p hmem, hinv.nodes p hmem,
    fun heq => hnodup.1 (heq ▸ List.mem_map_of_mem hp)⟩

/-- The walk that looks for a node ends at the one before it. -/
theorem MountInv.followNext_eq (hinv : MountInv s live free (before ++ p :: n :: after))
    (hfuel : 65536 < fuel) :
    s.mountpointsRoot ≠ n.ptr ∧ followNext s.mem n.ptr fuel s.mountpointsRoot = .ok p.ptr ∧
      load64 s.mem (p.ptr + 200#64) = n.ptr := by
  have hlength := hinv.length_le
  have hchain := hinv.chain
  rw [← List.singleton_append, ← List.append_assoc] at hinv hchain
  have hn := hinv.housed n (by simp)
  have hne : ∀ c ∈ (before ++ [p]).map MountNode.ptr, c ≠ n.ptr := by
    intro c hc
    obtain ⟨q, hq, rfl⟩ := List.mem_map.mp hc
    obtain ⟨hhoused, -, hother⟩ := hinv.others.1 q (List.mem_append_left after hq)
    exact hhoused.ptr_ne hinv.heap hn hother
  rw [List.map_append, List.map_cons, chain_append] at hchain
  obtain ⟨mid, hfirst, hlast⟩ := hchain
  obtain ⟨rfl, -, -⟩ := chain_cons.mp hlast
  refine ⟨hne _ (hfirst.head_mem (by simp)), ?_⟩
  rw [List.map_append] at hfirst hne
  refine ⟨Vfs.followNext_eq hfirst (Or.inr rfl) (fun c hc => hne c (List.mem_of_mem_tail hc)) ?_, ?_⟩
  · simp at hlength ⊢
    omega
  · obtain ⟨start, -, hend⟩ := chain_append.mp hfirst
    exact (chain_cons.mp hend).2.2

/-- The link to a node is moved to the node after it. -/
theorem MountInv.unlink (hinv : MountInv s live free (before ++ p :: n :: after)) :
    MountInv
      { s with mem := store64 s.mem (p.ptr + 200#64) (load64 s.mem (n.ptr + 200#64)) } live free
      (before ++ p :: after) := by
  have hchain := hinv.chain
  rw [List.map_append, chain_append] at hchain
  obtain ⟨mid, -, hlast⟩ := hchain
  obtain ⟨-, -, hnext⟩ := chain_cons.mp hlast
  obtain ⟨-, -, hrest⟩ := chain_cons.mp hnext
  have hp := hinv.housed p (by simp)
  have hinv' := hinv
  rw [← List.singleton_append, ← List.append_assoc] at hinv'
  obtain ⟨hothers, hnodup⟩ := hinv'.others
  rw [List.append_assoc, List.singleton_append] at hothers hnodup
  have hafter : ∀ q ∈ after, Housed live q ∧ NodeAt s.mem q ∧ q.block ≠ p.block := by
    intro q hq
    obtain ⟨hhoused, hnode, -⟩ := hothers q (by simp [hq])
    exact ⟨hhoused, hnode, (hinv.others.1 q (by simp [hq])).2.2⟩
  refine hinv.relink _ (hrest.congr fun c hc => ?_) hnodup (fun q hq => (hafter q hq).1)
    fun q hq => (hafter q hq).2.1
  obtain ⟨q, hq, rfl⟩ := List.mem_map.mp hc
  obtain ⟨hhoused, -, hne⟩ := hafter q hq
  exact load64_store64_apart s.mem _ _ _ (hhoused.apart_link hinv.heap hp hne)

/-- Exactly the node that is asked for is taken out of the list and freed. -/
theorem vfsRemoveMountpoint_spec (hinv : MountInv s live free (before ++ n :: after))
    (hfuel : 65536 < fuel) :
    ∃ s', vfsRemoveMountpoint fuel s n.ptr = .ok s' ∧
      MountInv s' (live.erase n.block) (release n.block free) (before ++ after) ∧
      ∀ x, Client (live.erase n.block) x →
        (∀ p ∈ before ++ after, ¬ InRange (p.ptr + 200#64) 8 x) → s'.mem x = s.mem x := by
  have hn := hinv.housed n (by simp)
  obtain ⟨hothers, hnodup⟩ := hinv.others
  have hroot : s.mountpointsRoot ≠ 0#64 := fun hzero => by
    simpa using hinv.chain.head_eq_zero_iff.mp hzero
  unfold vfsRemoveMountpoint
  rw [if_neg (not_or.mpr ⟨hroot, hn.ptr_ne_zero hinv.heap⟩)]
  rcases before.eq_nil_or_concat' with rfl | ⟨init, p, rfl⟩
  · obtain ⟨hhead, -, hrest⟩ := chain_cons.mp hinv.chain
    have hunlinked : MountInv { s with mountpointsRoot := load64 s.mem (n.ptr + 200#64) } live free
        after :=
      ⟨hinv.heap, hrest, hnodup, fun p hp => (hothers p hp).1, fun p hp => (hothers p hp).2.1⟩
    obtain ⟨h, hok, hinv', hframe⟩ := hunlinked.kfree hfuel hn.live fun p hp => (hothers p hp).2.2
    have hfreed : kfree fuel s.toKernelHeap n.ptr = .ok h := hok
    rw [if_pos hhead, hfreed]
    exact ⟨_, rfl, hinv', fun x hx _ => hframe x hx⟩
  · rw [List.append_assoc, List.singleton_append] at hinv hothers ⊢
    obtain ⟨hne, hwalk, hnext⟩ := hinv.followNext_eq hfuel
    obtain ⟨h, hok, hinv', hframe⟩ := hinv.unlink.kfree hfuel hn.live fun p hp => (hothers p hp).2.2
    have hfreed : kfree fuel { s.toKernelHeap with
        mem := store64 s.mem (p.ptr + 200#64) (load64 s.mem (n.ptr + 200#64)) } n.ptr = .ok h := hok
    rw [if_neg hne, hwalk]
    dsimp only [Bind.bind, Except.bind]
    rw [if_pos hnext, hfreed]
    refine ⟨_, rfl, hinv', fun x hx hlinks => (hframe x hx).trans ?_⟩
    exact store64_of_not_inRange s.mem _ _ x (hlinks p (by simp))

end Walks

end Osiris.Vfs
