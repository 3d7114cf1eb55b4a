import Osiris.Library.Store
import Osiris.Verification.Heap.Realloc

/-! # What is in the blocks

To its clients the heap is a store: they hold blocks, and nothing that other clients do changes what
is in them. -/

namespace Osiris.Heap

open ByteMemory Strings Page Vmm Blocks Transition

/-- What clients ask for. A write names the block and the place in it. -/
inductive Request where
  | kmalloc (size : Word)
  | kcalloc (num size : Word)
  | krealloc (ptr size : Word)
  | kfree (ptr : Word)
  | write (ptr : Word) (i : ℕ) (byte : Byte)
deriving DecidableEq, Repr

def Request.op : Request → Op
  | .kmalloc size => .kmalloc size
  | .kcalloc num size => .kcalloc num size
  | .krealloc ptr size => .krealloc ptr size
  | .kfree ptr => .kfree ptr
  | .write ptr i byte => .write (ptr + BitVec.ofNat 64 i) byte

def Request.toStore : Request → Store.Request Word Byte
  | .kmalloc size => .alloc size.toNat
  | .kcalloc num size => .allocZeroed (num.toNat * size.toNat)
  | .krealloc ptr size => .resize ptr size.toNat
  | .kfree ptr => .free ptr
  | .write ptr i byte => .write ptr i byte

/-- No size wraps. -/
def Request.Sized : Request → Prop
  | .kmalloc size => size.toNat + 23 < 2 ^ 64
  | .kcalloc num size => (num * size).toNat + 23 < 2 ^ 64
  | .krealloc _ size => size.toNat + 23 < 2 ^ 64
  | .kfree _ => True
  | .write _ _ _ => True

/-- The pointer that is returned, or `NULL` by what returns none. -/
def State.answer (fuel : ℕ) (s : State) : Request → Except Fault Word
  | .kmalloc size => (kmalloc fuel s.heap size).map Prod.fst
  | .kcalloc num size => (kcalloc fuel s.heap num size).map Prod.fst
  | .krealloc ptr size => (krealloc fuel s.heap ptr size).map Prod.fst
  | .kfree _ => .ok 0#64
  | .write _ _ _ => .ok 0#64

def payloadBytes (h : KernelHeap) (b : Block) : List Byte :=
  (List.range (b.size - 8)).map fun i => h.mem (payload b + BitVec.ofNat 64 i)

def State.contents (s : State) : Store.Contents Word Byte := fun ptr =>
  (s.live.find? fun b => payload b = ptr).map (payloadBytes s.heap)

/-- A request that is served, within what the client holds. -/
def Served (fuel : ℕ) (s : State) (label : Request × Word) (s' : State) : Prop :=
  label.1.Sized ∧ label.1.toStore.Permitted 0#64 s.contents ∧
    s.answer fuel label.1 = .ok label.2 ∧ s.step fuel label.1.op = .ok s'

section

variable {h h' : KernelHeap} {live live' free free' : List Block} {b c : Block} {fuel : ℕ}
  {s : State} {ptr : Word} {bytes : List Byte}

@[simp] theorem length_payloadBytes (h : KernelHeap) (b : Block) :
    (payloadBytes h b).length = b.size - 8 := by
  simp [payloadBytes]

theorem payloadBytes_congr (hsame : ∀ x, InPayload b x → h'.mem x = h.mem x)
    (hinv : HeapInv h live free) (hb : b ∈ live) : payloadBytes h' b = payloadBytes h b :=
  List.map_congr_left fun i hi =>
    hsame _ (hinv.addr_payload_add hb (by have hlt := List.mem_range.mp hi; omega))

/-- What is in the live blocks, and nothing else, is held. -/
theorem contents_eq {σ : Store.Contents Word Byte}
    (hheld : ∀ b ∈ live, σ (payload b) = some (payloadBytes h b))
    (hnone : ∀ ptr, (∀ b ∈ live, payload b ≠ ptr) → σ ptr = none) :
    State.contents ⟨h, live⟩ = σ := by
  funext ptr
  unfold State.contents
  dsimp only
  cases hfound : live.find? fun b => payload b = ptr with
  | none =>
      refine (hnone ptr fun b hb => ?_).symm
      simpa using List.find?_eq_none.mp hfound b hb
  | some b =>
      have hptr : payload b = ptr := by simpa using List.find?_some hfound
      rw [← hptr]
      exact (hheld b (List.mem_of_find?_eq_some hfound)).symm

theorem HeapInv.contents_payload (hinv : HeapInv h live free) (hb : b ∈ live) :
    State.contents ⟨h, live⟩ (payload b) = some (payloadBytes h b) := by
  unfold State.contents
  dsimp only
  cases hfound : live.find? fun c => payload c = payload b with
  | none =>
      have hne : ¬ payload b = payload b := by simpa using List.find?_eq_none.mp hfound b hb
      exact absurd rfl hne
  | some c =>
      have heq : payload c = payload b := by simpa using List.find?_some hfound
      have hcb : c = b := by
        by_contra hne
        exact hinv.payload_ne (List.mem_of_find?_eq_some hfound) hb hne heq
      rw [hcb]
      rfl

theorem contents_of_not_held (hptr : ∀ b ∈ live, payload b ≠ ptr) :
    State.contents ⟨h, live⟩ ptr = none := by
  have hfound : (live.find? fun b => payload b = ptr) = none :=
    List.find?_eq_none.mpr fun b hb => by simpa using hptr b hb
  unfold State.contents
  rw [hfound]
  rfl

/-- Whoever holds a pointer holds a live block. -/
theorem exists_of_contents (hheld : State.contents ⟨h, live⟩ ptr = some bytes) :
    ∃ b ∈ live, payload b = ptr ∧ payloadBytes h b = bytes := by
  obtain ⟨b, hfound, hbytes⟩ := Option.map_eq_some_iff.mp hheld
  exact ⟨b, List.mem_of_find?_eq_some hfound, by simpa using List.find?_some hfound, hbytes⟩

theorem HeapInv.contents_null (hinv : HeapInv h live free) :
    State.contents ⟨h, live⟩ 0#64 = none :=
  contents_of_not_held fun _ hb => (hinv.placed_live hb).payload_ne_zero

/-- A block has become live. -/
theorem HeapInv.contents_gain (hinv : HeapInv h live free) (hinv' : HeapInv h' (b :: live) free')
    (hsame : ∀ x, Client live x → h'.mem x = h.mem x) :
    State.contents ⟨h', b :: live⟩ =
      Function.update (State.contents ⟨h, live⟩) (payload b) (some (payloadBytes h' b)) := by
  refine contents_eq (List.forall_mem_cons.mpr ⟨Function.update_self _ _ _, fun c hc => ?_⟩)
    fun ptr hptr => ?_
  · have hne : payload c ≠ payload b := hinv'.payload_ne (List.mem_cons_of_mem b hc)
      List.mem_cons_self fun hcb => hinv'.not_mem_rest (hcb ▸ hc)
    rw [Function.update_of_ne hne, hinv.contents_payload hc,
      payloadBytes_congr (fun x hx => hsame x (.inl ⟨c, hc, hx⟩)) hinv hc]
  · obtain ⟨hb, hrest⟩ := List.forall_mem_cons.mp hptr
    rw [Function.update_of_ne hb.symm]
    exact contents_of_not_held hrest

/-- A block is no longer live. -/
theorem HeapInv.contents_lose (hinv : HeapInv h live free)
    (hperm : live.Perm (b :: live')) (hsame : ∀ x, Client live' x → h'.mem x = h.mem x) :
    State.contents ⟨h', live'⟩ = Function.update (State.contents ⟨h, live⟩) (payload b) none := by
  have hmem : ∀ c, c ∈ live ↔ c ∈ b :: live' := fun c => hperm.mem_iff
  have hb := (hmem b).mpr List.mem_cons_self
  refine contents_eq (fun c hc => ?_) fun ptr hptr => ?_
  · have hc' := (hmem c).mpr (List.mem_cons_of_mem b hc)
    have hne : payload c ≠ payload b :=
      hinv.payload_ne hc' hb fun hcb => (hinv.perm hperm).not_mem_rest (hcb ▸ hc)
    rw [Function.update_of_ne hne, hinv.contents_payload hc',
      payloadBytes_congr (fun x hx => hsame x (.inl ⟨c, hc, hx⟩)) hinv hc']
  · by_cases hself : ptr = payload b
    · rw [hself]
      exact Function.update_self _ _ _
    · rw [Function.update_of_ne hself]
      refine contents_of_not_held fun c hc => ?_
      rcases List.mem_cons.mp ((hmem c).mp hc) with rfl | hc
      · exact Ne.symm hself
      · exact hptr c hc

/-- A live block has been written to. -/
theorem HeapInv.contents_write (hinv : HeapInv h live free) (hb : b ∈ live) {i : ℕ}
    (hi : i + 8 < b.size) (byte : Byte) :
    State.contents
        ⟨{ h with mem := ByteMemory.setByte h.mem (payload b + BitVec.ofNat 64 i) byte }, live⟩ =
      Function.update (State.contents ⟨h, live⟩) (payload b)
        (some ((payloadBytes h b).set i byte)) := by
  have hin := hinv.addr_payload_add hb hi
  refine contents_eq (fun c hc => ?_) fun ptr hptr => ?_
  · by_cases hcb : c = b
    · subst hcb
      have hlt := hinv.size_lt hc
      rw [Function.update_self]
      refine congrArg some (List.ext_getElem (by simp) fun j hj hj' => ?_)
      have hj'' : j < c.size - 8 := by simpa using hj'
      rw [List.getElem_set]
      simp only [payloadBytes, List.getElem_map, List.getElem_range]
      by_cases hij : i = j
      · subst hij
        rw [if_pos rfl, setByte_same]
      · rw [if_neg hij, setByte_of_ne _ _ (add_ofNat_ne _ (by omega) (by omega) (Ne.symm hij))]
    · rw [Function.update_of_ne (hinv.payload_ne hc hb hcb), hinv.contents_payload hc]
      refine congrArg some (payloadBytes_congr (fun x hx => setByte_of_ne _ _ fun heq => ?_)
        hinv hc).symm
      exact hinv.disjoint_live hc hb hcb _ hx.contains (heq ▸ hin.contains)
  · rw [Function.update_of_ne (hptr b hb).symm]
    exact contents_of_not_held hptr

/-! ## Requests -/

/-- Memory that is no part of the heap. -/
def Outside (x : Word) : Prop :=
  ¬ (kernelHeapStart.toNat ≤ x.toNat ∧ x.toNat < heapEnd)

/-- The heap answers, and does so as a store does. -/
def Serves (fuel : ℕ) (s : State) (req : Request) : Prop :=
  ∃ ptr s' free', s.answer fuel req = .ok ptr ∧ s.step fuel req.op = .ok s' ∧
    HeapInv s'.heap s'.live free' ∧
    Store.Step 0#64 0#8 s.contents (req.toStore, ptr) s'.contents ∧
    ∀ x, Outside x → s'.heap.mem x = s.heap.mem x

theorem HeapInv.client_mem_eq_of_lost (hinv : HeapInv h live free) (hperm : live.Perm (b :: live'))
    (ht : Touches h h' (b :: free)) {x : Word} (hx : Client live' x) : h'.mem x = h.mem x := by
  have hinv₀ := hinv.perm hperm
  exact ht.mem x (List.forall_mem_cons.mpr ⟨hinv₀.not_new_of_client hx,
    fun _ hc => hinv₀.not_free_of_client hx.cons hc⟩)

/-- What `kmalloc` answers, as a request of its own or of `krealloc`. -/
theorem HeapInv.store_kmalloc (hinv : HeapInv h live free) (hfuel : 65536 < fuel) {size : Word}
    (hsize : size.toNat + 23 < 2 ^ 64) :
    ∃ ptr h' free', Heap.kmalloc fuel h size = .ok (ptr, h') ∧ HeapInv h' (gain h' live ptr) free' ∧
      Store.Step 0#64 0#8 (State.contents ⟨h, live⟩) (.alloc size.toNat, ptr)
        (State.contents ⟨h', gain h' live ptr⟩) ∧
      ∀ x, Outside x → h'.mem x = h.mem x := by
  rcases hinv.kmalloc hfuel size with ⟨-, hnull⟩ | ⟨b, free', h', -, hok, hinv', hle, ht⟩
  · refine ⟨0#64, h, free, hnull, ?_, ?_, fun _ _ => rfl⟩
    · rw [gain_zero]
      exact hinv
    · rw [gain_zero]
      exact .allocNull
  · have hfits := (le_totalSize hsize).trans hle
    refine ⟨payload b, h', free', hok, ?_, ?_, fun x hx => hinv.client_mem_eq ht (.inr hx)⟩
    · rw [hinv'.gain_payload]
      exact hinv'
    · rw [hinv'.gain_payload, hinv.contents_gain hinv' fun x hx => hinv.client_mem_eq ht hx]
      refine .alloc (hinv'.placed_live List.mem_cons_self).payload_ne_zero
        (contents_of_not_held fun c hc => ?_) (by rw [length_payloadBytes]; omega)
      exact hinv'.payload_ne (List.mem_cons_of_mem b hc) List.mem_cons_self
        fun hcb => hinv'.not_mem_rest (hcb ▸ hc)

theorem HeapInv.serve_kmalloc (hinv : HeapInv s.heap s.live free) (hfuel : 65536 < fuel)
    {size : Word} (hsize : size.toNat + 23 < 2 ^ 64) : Serves fuel s (.kmalloc size) := by
  obtain ⟨ptr, h', free', hok, hinv', hstep, hout⟩ := hinv.store_kmalloc hfuel hsize
  exact ⟨ptr, ⟨h', gain h' s.live ptr⟩, free', congrArg (Except.map Prod.fst) hok,
    Heap.step_kmalloc hok, hinv', hstep, hout⟩

/-- The block that `kcalloc` makes live is cleared. -/
theorem HeapInv.store_kcalloc (hinv : HeapInv h live free) (hfuel : 65536 < fuel)
    {num size : Word} (hsize : (num * size).toNat + 23 < 2 ^ 64) :
    ∃ ptr h' free', Heap.kcalloc fuel h num size = .ok (ptr, h') ∧
      HeapInv h' (gain h' live ptr) free' ∧
      Store.Step 0#64 0#8 (State.contents ⟨h, live⟩)
        (.allocZeroed (num.toNat * size.toNat), ptr)
        (State.contents ⟨h', gain h' live ptr⟩) ∧
      ∀ x, Outside x → h'.mem x = h.mem x := by
  by_cases hover : 2 ^ 64 ≤ num.toNat * size.toNat
  · refine ⟨0#64, h, free, kcalloc_of_overflow hover, ?_, ?_, fun _ _ => rfl⟩
    · rw [gain_zero]
      exact hinv
    · rw [gain_zero]
      exact .zeroedNull
  rw [not_le] at hover
  rcases hinv.kmalloc hfuel (num * size) with ⟨-, hnull⟩ | ⟨b, free', h', -, hok, hinv', hle, ht⟩
  · obtain ⟨mem, hok, hsame, -⟩ := kcalloc_of_lt hover hnull
    rw [hsame rfl] at hok
    refine ⟨0#64, h, free, hok, ?_, ?_, fun _ _ => rfl⟩
    · rw [gain_zero]
      exact hinv
    · rw [gain_zero]
      exact .zeroedNull
  · have hb : b ∈ b :: live := List.mem_cons_self
    have hne := (hinv'.placed_live hb).payload_ne_zero
    have hlt := hinv'.size_lt hb
    obtain ⟨mem, hok', -, hset⟩ := kcalloc_of_lt hover hok
    rw [hset hne] at hok'
    have hfits := (le_totalSize hsize).trans hle
    have hcleared := hinv'.memset hb 0#32 hfits
    have hsame : ∀ x, Client live x →
        Strings.memset h'.mem (payload b) 0#32 ((num * size).setWidth 32) x = h.mem x := by
      intro x hx
      rw [← hinv.client_mem_eq ht hx]
      refine fillUp_of_not_inRange _ _ _ (rounds_le _) ?_
      rw [rounds_setWidth (by omega)]
      exact hinv'.client_not_inRange hfits hx
    refine ⟨payload b, _, free', hok', ?_, ?_, fun x hx => hsame x (.inr hx)⟩
    · rw [hcleared.gain_payload]
      exact hcleared
    · rw [hcleared.gain_payload, hinv.contents_gain hcleared hsame]
      rw [toNat_mul_of_lt hover] at hfits
      refine .zeroed hne (contents_of_not_held fun c hc => ?_)
        (by rw [length_payloadBytes]; omega) ?_
      · exact hinv'.payload_ne (List.mem_cons_of_mem b hc) hb
          fun hcb => hinv'.not_mem_rest (hcb ▸ hc)
      · refine List.ext_getElem (by simp; omega) fun i hi hi' => ?_
        have hi'' : i < num.toNat * size.toNat := by simpa using hi'
        rw [List.getElem_replicate, List.getElem_take]
        simp only [payloadBytes, List.getElem_map, List.getElem_range]
        unfold Strings.memset
        rw [fillUp_apply _ _ _ (rounds_le _),
          rounds_setWidth (by rw [toNat_mul_of_lt hover]; omega),
          toNat_mul_of_lt hover, if_pos (inRange_add _ hi'' (by omega))]
        rfl

theorem HeapInv.serve_kcalloc (hinv : HeapInv s.heap s.live free) (hfuel : 65536 < fuel)
    {num size : Word} (hsize : (num * size).toNat + 23 < 2 ^ 64) :
    Serves fuel s (.kcalloc num size) := by
  obtain ⟨ptr, h', free', hok, hinv', hstep, hout⟩ := hinv.store_kcalloc hfuel hsize
  exact ⟨ptr, ⟨h', gain h' s.live ptr⟩, free', congrArg (Except.map Prod.fst) hok,
    Heap.step_kcalloc hok, hinv', hstep, hout⟩

/-- A live block that is freed. -/
theorem HeapInv.store_kfree (hinv : HeapInv h live free) (hfuel : 65536 < fuel) (hb : b ∈ live) :
    ∃ h' free', Heap.kfree fuel h (payload b) = .ok h' ∧
      HeapInv h' (lose live (payload b)) free' ∧
      State.contents ⟨h', lose live (payload b)⟩ =
        Function.update (State.contents ⟨h, live⟩) (payload b) none ∧
      ∀ x, Outside x → h'.mem x = h.mem x := by
  have hperm := hinv.lose_perm hb
  obtain ⟨h', hok, hinv', ht⟩ := hinv.kfree hfuel hperm
  exact ⟨h', _, hok, hinv',
    hinv.contents_lose hperm fun x hx => hinv.client_mem_eq_of_lost hperm ht hx,
    fun x hx => hinv.client_mem_eq_of_lost hperm ht (.inr hx)⟩

theorem HeapInv.serve_kfree (hinv : HeapInv s.heap s.live free) (hfuel : 65536 < fuel)
    (hheld : ptr = 0#64 ∨ (s.contents ptr).isSome) : Serves fuel s (.kfree ptr) := by
  rcases hheld with rfl | hsome
  · have hstep := Heap.step_kfree (kfree_null fuel s.heap)
    rw [hinv.lose_zero] at hstep
    exact ⟨0#64, s, free, rfl, hstep, hinv, .freeNull, fun _ _ => rfl⟩
  · obtain ⟨bytes, hbytes⟩ := Option.isSome_iff_exists.mp hsome
    obtain ⟨b, hb, rfl, -⟩ := exists_of_contents hbytes
    obtain ⟨h', free', hok, hinv', hlost, hout⟩ := hinv.store_kfree hfuel hb
    refine ⟨0#64, _, free', rfl, Heap.step_kfree hok, hinv', ?_, hout⟩
    rw [hlost]
    exact .free hbytes

/-- The first bytes of a block that has been moved are those of the old one. -/
theorem prefix_of_moved (hmoved : Moved h h' b c) (hle : b.size ≤ c.size) :
    payloadBytes h b <+: payloadBytes h' c := by
  rw [List.prefix_iff_eq_take, length_payloadBytes]
  refine List.ext_getElem (by simp; omega) fun i hi hi' => ?_
  have hi'' : i < b.size - 8 := by simpa using hi
  rw [List.getElem_take]
  simp only [payloadBytes, List.getElem_map, List.getElem_range]
  exact (hmoved i (by omega)).symm

theorem HeapInv.krealloc_of_fits (hinv : HeapInv h live free) (hb : b ∈ live) {size : Word}
    (hne : size ≠ 0#64) (hfits : size.toNat + 8 ≤ b.size) :
    Heap.krealloc fuel h (payload b) size = .ok (payload b, h) := by
  have hplaced := hinv.placed_live hb
  have hlt := hplaced.size_lt
  have hold : load64 h.mem (payload b - 8#64) - 8#64 = BitVec.ofNat 64 (b.size - 8) := by
    rw [payload_sub, hinv.headers b hb]
    exact ofNat_sub_ofNat hplaced.size_lt (by omega)
  have hsmall : size ≤ BitVec.ofNat 64 (b.size - 8) := by
    rw [BitVec.le_def, BitVec.toNat_ofNat, Nat.mod_eq_of_lt (by omega)]
    omega
  unfold Heap.krealloc
  dsimp only
  rw [if_neg hplaced.payload_ne_zero, if_neg hne, hold, if_pos hsmall]

/-- A live block that `krealloc` moves. -/
theorem HeapInv.contents_move (hinv : HeapInv h live free) (hperm : live.Perm (b :: live'))
    (hinv' : HeapInv h' (c :: live') free') (ht : Touches h h' (b :: free)) :
    State.contents ⟨h', c :: live'⟩ =
      Function.update (Function.update (State.contents ⟨h, live⟩) (payload b) none) (payload c)
        (some (payloadBytes h' c)) := by
  have hmem : ∀ d, d ∈ live ↔ d ∈ b :: live' := fun d => hperm.mem_iff
  have hb := (hmem b).mpr List.mem_cons_self
  refine contents_eq (List.forall_mem_cons.mpr ⟨Function.update_self _ _ _, fun d hd => ?_⟩)
    fun ptr hptr => ?_
  · have hd' := (hmem d).mpr (List.mem_cons_of_mem b hd)
    have hdc : payload d ≠ payload c := hinv'.payload_ne (List.mem_cons_of_mem c hd)
      List.mem_cons_self fun heq => hinv'.not_mem_rest (heq ▸ hd)
    have hdb : payload d ≠ payload b :=
      hinv.payload_ne hd' hb fun heq => (hinv.perm hperm).not_mem_rest (heq ▸ hd)
    have hsame : ∀ x, InPayload d x → h'.mem x = h.mem x :=
      fun x hx => hinv.client_mem_eq_of_lost hperm ht (.inl ⟨d, hd, hx⟩)
    rw [Function.update_of_ne hdc, Function.update_of_ne hdb, hinv.contents_payload hd',
      payloadBytes_congr hsame hinv hd']
  · obtain ⟨hc, hrest⟩ := List.forall_mem_cons.mp hptr
    rw [Function.update_of_ne hc.symm]
    by_cases hself : ptr = payload b
    · rw [hself]
      exact Function.update_self _ _ _
    · rw [Function.update_of_ne hself]
      refine contents_of_not_held fun d hd => ?_
      rcases List.mem_cons.mp ((hmem d).mp hd) with rfl | hd
      · exact Ne.symm hself
      · exact hrest d hd

/-- A `krealloc` of a live block. -/
theorem HeapInv.store_krealloc (hinv : HeapInv h live free) (hfuel : 65536 < fuel) (hb : b ∈ live)
    {size : Word} (hne : size ≠ 0#64) (hsize : size.toNat + 23 < 2 ^ 64) :
    ∃ ptr h' free', Heap.krealloc fuel h (payload b) size = .ok (ptr, h') ∧
      HeapInv h' (exchange h' live (payload b) size ptr) free' ∧
      Store.Step 0#64 0#8 (State.contents ⟨h, live⟩) (.resize (payload b) size.toNat, ptr)
        (State.contents ⟨h', exchange h' live (payload b) size ptr⟩) ∧
      ∀ x, Outside x → h'.mem x = h.mem x := by
  have hperm := hinv.lose_perm hb
  have hheld := hinv.contents_payload hb
  have hpos : size.toNat ≠ 0 := fun hzero => hne (BitVec.eq_of_toNat_eq hzero)
  by_cases hfits : size.toNat + 8 ≤ b.size
  · refine ⟨payload b, h, free, hinv.krealloc_of_fits hb hne hfits, ?_, ?_, fun _ _ => rfl⟩
    · rw [exchange, if_pos (Or.inl rfl)]
      exact hinv
    · rw [exchange, if_pos (Or.inl rfl)]
      exact .resizeKept hheld (by rw [length_payloadBytes]; omega)
  rcases hinv.krealloc hfuel hsize hne hperm with
    ⟨-, hkept⟩ | hnull | ⟨c, free', h', hok, hcb, hinv', hroom, hmoved, ht⟩
  · exact absurd hkept hfits
  · refine ⟨0#64, h, free, hnull, ?_, ?_, fun _ _ => rfl⟩
    · rw [exchange, if_pos (Or.inr ⟨rfl, hne⟩)]
      exact hinv
    · rw [exchange, if_pos (Or.inr ⟨rfl, hne⟩)]
      exact .resizeRefused hheld hpos
  · have hc := (hinv'.placed_live List.mem_cons_self).payload_ne_zero
    have hexchange : exchange h' live (payload b) size (payload c) =
        c :: lose live (payload b) := by
      rw [exchange, if_neg (fun hif => hif.elim hcb fun hzero => hc hzero.1), hinv'.gain_payload]
    refine ⟨payload c, h', free', hok, ?_, ?_,
      fun x hx => hinv.client_mem_eq_of_lost hperm ht (.inr hx)⟩
    · rw [hexchange]
      exact hinv'
    · rw [hexchange, hinv.contents_move hperm hinv' ht]
      refine .resizeMoved hheld hc (contents_of_not_held fun d hd => ?_)
        (by rw [length_payloadBytes]; omega) (prefix_of_moved hmoved (by omega))
      rcases List.mem_cons.mp (hperm.mem_iff.mp hd) with rfl | hd
      · exact hcb.symm
      · exact hinv'.payload_ne (List.mem_cons_of_mem c hd) List.mem_cons_self
          fun heq => hinv'.not_mem_rest (heq ▸ hd)

theorem HeapInv.serve_krealloc (hinv : HeapInv s.heap s.live free) (hfuel : 65536 < fuel)
    {size : Word} (hsize : size.toNat + 23 < 2 ^ 64)
    (hheld : ptr = 0#64 ∨ (s.contents ptr).isSome) : Serves fuel s (.krealloc ptr size) := by
  rcases hheld with rfl | hsome
  · obtain ⟨ptr, h', free', hok, hinv', hstep, hout⟩ := hinv.store_kmalloc hfuel hsize
    have hok' := (krealloc_null fuel s.heap size).trans hok
    have hexchange : exchange h' s.live 0#64 size ptr = gain h' s.live ptr := by
      unfold exchange
      rw [hinv.lose_zero]
      split
      · rename_i hzero
        rw [show ptr = 0#64 from hzero.elim id And.left, gain_zero]
      · rfl
    have hserved := Heap.step_krealloc hok'
    rw [hexchange] at hserved
    exact ⟨ptr, _, free', congrArg (Except.map Prod.fst) hok', hserved, hinv', .resizeNull hstep,
      hout⟩
  · obtain ⟨bytes, hbytes⟩ := Option.isSome_iff_exists.mp hsome
    obtain ⟨b, hb, rfl, -⟩ := exists_of_contents hbytes
    have hne := (hinv.placed_live hb).payload_ne_zero
    by_cases hzero : size = 0#64
    · subst hzero
      obtain ⟨h', free', hok, hinv', hlost, hout⟩ := hinv.store_kfree hfuel hb
      have hok' := krealloc_zero fuel hne hok
      have hserved := Heap.step_krealloc hok'
      rw [exchange, if_neg (fun hif => hif.elim (fun heq => hne heq.symm) fun hnull => hnull.2 rfl),
        gain_zero] at hserved
      refine ⟨0#64, _, free', congrArg (Except.map Prod.fst) hok', hserved, hinv', ?_, hout⟩
      rw [hlost]
      exact .resizeFree hbytes
    · obtain ⟨q, h', free', hok, hinv', hstep, hout⟩ := hinv.store_krealloc hfuel hb hzero hsize
      exact ⟨q, _, free', congrArg (Except.map Prod.fst) hok, Heap.step_krealloc hok, hinv', hstep,
        hout⟩

theorem HeapInv.contains_window (hinv : HeapInv h live free) (hb : b ∈ free ++ live) {x : Word}
    (hx : b.Contains x.toNat) : kernelHeapStart.toNat ≤ x.toNat ∧ x.toNat < heapEnd :=
  (hinv.tiles.cover _).mpr ⟨b, hb, hx⟩

theorem HeapInv.serve_write (hinv : HeapInv s.heap s.live free) {i : ℕ} (byte : Byte)
    (hheld : ∃ bytes, s.contents ptr = some bytes ∧ i < bytes.length) :
    Serves fuel s (.write ptr i byte) := by
  obtain ⟨bytes, hbytes, hi⟩ := hheld
  obtain ⟨b, hb, rfl, rfl⟩ := exists_of_contents hbytes
  rw [length_payloadBytes] at hi
  have hin := hinv.addr_payload_add hb (i := i) (by omega)
  refine ⟨0#64, _, free, rfl, rfl, hinv.setByte hb hin byte, ?_, fun x hx => ?_⟩
  · rw [hinv.contents_write hb (by omega)]
    exact .write hbytes (by rw [length_payloadBytes]; exact hi)
  · refine setByte_of_ne _ _ fun heq => hx ?_
    exact hinv.contains_window (List.mem_append_right free hb) (heq ▸ hin.contains)

/-- Every request within what clients hold is served. -/
theorem HeapInv.serve (hinv : HeapInv s.heap s.live free) (hfuel : 65536 < fuel) {req : Request}
    (hsized : req.Sized) (hheld : req.toStore.Permitted 0#64 s.contents) : Serves fuel s req := by
  cases req with
  | kmalloc size => exact hinv.serve_kmalloc hfuel hsized
  | kcalloc num size => exact hinv.serve_kcalloc hfuel hsized
  | krealloc ptr size => exact hinv.serve_krealloc hfuel hsized hheld
  | kfree ptr => exact hinv.serve_kfree hfuel hheld
  | write ptr i byte => exact hinv.serve_write byte hheld

theorem HeapInv.served (hinv : HeapInv s.heap s.live free) (hfuel : 65536 < fuel)
    {label : Request × Word} {s' : State} (hserved : Served fuel s label s') :
    (∃ free', HeapInv s'.heap s'.live free') ∧
      Store.Step 0#64 0#8 s.contents (label.1.toStore, label.2) s'.contents ∧
      ∀ x, Outside x → s'.heap.mem x = s.heap.mem x := by
  obtain ⟨hsized, hheld, hanswer, hstep⟩ := hserved
  obtain ⟨ptr, s'', free', hanswer', hstep', hinv', hstore, hout⟩ := hinv.serve hfuel hsized hheld
  obtain rfl := Except.ok.inj (hanswer.symm.trans hanswer')
  obtain rfl := Except.ok.inj (hstep.symm.trans hstep')
  exact ⟨⟨free', hinv'⟩, hstore, hout⟩

end

end Osiris.Heap
