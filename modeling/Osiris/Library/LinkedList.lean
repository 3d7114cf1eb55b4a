import Osiris.Library.ByteMemory

/-! # Linked lists in byte memory

A node is two words, a value and the address of the next node. A segment leads from one address to
another through the nodes in between. -/

namespace Osiris.LinkedList

open ByteMemory

structure Node where
  addr : Word
  value : Word
deriving DecidableEq, Repr

/-- The node at `a` is not touched by what happens to `n` bytes at `b`. -/
def Node.Clear (node : Node) (b : Word) (n : ℕ) : Prop :=
  Apart node.addr 16 b n

/-- Following the nodes from `head` ends at `tail`. -/
def Seg (m : Mem) : Word → List Node → Word → Prop
  | head, [], tail => head = tail
  | head, node :: nodes, tail =>
      head = node.addr ∧ node.addr ≠ 0#64 ∧ load64 m node.addr = node.value ∧
        Seg m (load64 m (node.addr + 8#64)) nodes tail

variable {m m' : Mem} {head mid tail : Word} {node : Node} {nodes nodes' : List Node}

@[simp] theorem seg_nil : Seg m head [] tail ↔ head = tail := Iff.rfl

theorem seg_cons : Seg m head (node :: nodes) tail ↔
    head = node.addr ∧ node.addr ≠ 0#64 ∧ load64 m node.addr = node.value ∧
      Seg m (load64 m (node.addr + 8#64)) nodes tail := Iff.rfl

/-- Segments compose. -/
theorem seg_append : Seg m head (nodes ++ nodes') tail ↔
    ∃ mid, Seg m head nodes mid ∧ Seg m mid nodes' tail := by
  induction nodes generalizing head with
  | nil => simp
  | cons node nodes ih =>
      rw [List.cons_append, seg_cons, ih]
      constructor
      · rintro ⟨hhead, hne, hvalue, mid, hfirst, hrest⟩
        exact ⟨mid, ⟨hhead, hne, hvalue, hfirst⟩, hrest⟩
      · rintro ⟨mid, ⟨hhead, hne, hvalue, hfirst⟩, hrest⟩
        exact ⟨hhead, hne, hvalue, mid, hfirst, hrest⟩

theorem inRange_mono {a x : Word} {n k : ℕ} (h : InRange a n x) (hle : n ≤ k) : InRange a k x :=
  lt_of_lt_of_le h hle

theorem inRange_next {a x : Word} (h : InRange (a + 8#64) 8 x) : InRange a 16 x :=
  inRange_field h (by norm_num) (by norm_num)

/-- A segment depends only on its nodes. -/
theorem Seg.congr (h : Seg m head nodes tail)
    (hsame : ∀ node ∈ nodes, ∀ x, InRange node.addr 16 x → m' x = m x) : Seg m' head nodes tail := by
  induction nodes generalizing head with
  | nil => exact h
  | cons node nodes ih =>
      obtain ⟨hhead, hne, hvalue, hrest⟩ := seg_cons.mp h
      have hnode := hsame node List.mem_cons_self
      have hload : load64 m' node.addr = load64 m node.addr :=
        load64_congr fun x hx => hnode x (inRange_mono hx (by norm_num))
      have hnext : load64 m' (node.addr + 8#64) = load64 m (node.addr + 8#64) :=
        load64_congr fun x hx => hnode x (inRange_next hx)
      refine seg_cons.mpr ⟨hhead, hne, hload.trans hvalue, ?_⟩
      rw [hnext]
      exact ih hrest fun node hmem => hsame node (List.mem_cons_of_mem _ hmem)

/-- The memory determines the nodes up to the end of a list. -/
theorem Seg.unique (h : Seg m head nodes 0#64) (h' : Seg m head nodes' 0#64) : nodes = nodes' := by
  induction nodes generalizing head nodes' with
  | nil =>
      obtain rfl : head = 0#64 := h
      cases nodes' with
      | nil => rfl
      | cons node nodes' => exact absurd h'.1.symm h'.2.1
  | cons node nodes ih =>
      obtain ⟨hhead, hne, hvalue, hrest⟩ := seg_cons.mp h
      cases nodes' with
      | nil => exact absurd (hhead.symm.trans h') hne
      | cons node' nodes' =>
          obtain ⟨hhead', -, hvalue', hrest'⟩ := seg_cons.mp h'
          have haddr : node.addr = node'.addr := hhead.symm.trans hhead'
          have hnode : node = node' := by
            cases node
            cases node'
            simp_all
          rw [← haddr] at hrest'
          rw [hnode, ih hrest hrest']

theorem Seg.keep (h : Seg m head nodes tail) {a v : Word}
    (hclear : ∀ node ∈ nodes, node.Clear a 8) : Seg (store64 m a v) head nodes tail :=
  h.congr fun node hnode x hx => store64_of_not_inRange m a v x (hclear node hnode x hx)

theorem apart_next (a : Word) : Apart a 8 (a + 8#64) 8 := by
  have hfields : Apart (a + BitVec.ofNat 64 0) 8 (a + 8#64) 8 :=
    apart_fields a (by norm_num) (by norm_num)
  rwa [BitVec.add_zero] at hfields

/-- The address of the last node, or 0. -/
def lastAddr (nodes : List Node) : Word :=
  (nodes.getLast?.map Node.addr).getD 0#64

@[simp] theorem lastAddr_nil : lastAddr [] = 0#64 := rfl

@[simp] theorem lastAddr_snoc (nodes : List Node) (node : Node) :
    lastAddr (nodes ++ [node]) = node.addr := by
  simp [lastAddr]

/-- The end of a segment is moved by a store to the link of its last node. -/
theorem Seg.relink (h : Seg m head (nodes ++ [node]) mid)
    (hclear : ∀ other ∈ nodes, other.Clear (node.addr + 8#64) 8) (tail : Word) :
    Seg (store64 m (node.addr + 8#64) tail) head (nodes ++ [node]) tail := by
  obtain ⟨a, hfirst, hlast⟩ := seg_append.mp h
  obtain ⟨hhead, hne, hvalue, -⟩ := seg_cons.mp hlast
  refine seg_append.mpr ⟨a, hfirst.keep hclear, seg_cons.mpr ⟨hhead, hne, ?_, ?_⟩⟩
  · rw [load64_store64_apart _ _ _ _ (apart_next node.addr), hvalue]
  · rw [seg_nil, load64_store64_same]

end Osiris.LinkedList
