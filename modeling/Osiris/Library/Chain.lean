import Osiris.Library.ByteMemory

/-! # Chains of objects in byte memory

Each object holds the address of the next one at a fixed offset. -/

namespace Osiris.LinkedList

open ByteMemory

/-- Following the links from `head` leads through the objects and ends at `tail`. -/
def Chain (m : Mem) (link : Word) : Word → List Word → Word → Prop
  | head, [], tail => head = tail
  | head, a :: as, tail => head = a ∧ a ≠ 0#64 ∧ Chain m link (load64 m (a + link)) as tail

variable {m m' : Mem} {link head head' mid tail a : Word} {as bs : List Word}

@[simp] theorem chain_nil : Chain m link head [] tail ↔ head = tail := Iff.rfl

theorem chain_cons : Chain m link head (a :: as) tail ↔
    head = a ∧ a ≠ 0#64 ∧ Chain m link (load64 m (a + link)) as tail := Iff.rfl

theorem chain_append : Chain m link head (as ++ bs) tail ↔
    ∃ mid, Chain m link head as mid ∧ Chain m link mid bs tail := by
  induction as generalizing head with
  | nil => simp
  | cons a as ih =>
      rw [List.cons_append, chain_cons, ih]
      constructor
      · rintro ⟨hhead, hne, mid, hfirst, hrest⟩
        exact ⟨mid, ⟨hhead, hne, hfirst⟩, hrest⟩
      · rintro ⟨mid, ⟨hhead, hne, hfirst⟩, hrest⟩
        exact ⟨hhead, hne, mid, hfirst, hrest⟩

theorem Chain.head_eq_zero_iff (h : Chain m link head as 0#64) : head = 0#64 ↔ as = [] := by
  cases as with
  | nil => exact iff_of_true h rfl
  | cons a as =>
      obtain ⟨rfl, hne, -⟩ := chain_cons.mp h
      exact iff_of_false hne (List.cons_ne_nil head as)

theorem Chain.head_mem (h : Chain m link head as tail) (hne : as ≠ []) : head ∈ as := by
  obtain ⟨a, rest, rfl⟩ := List.exists_cons_of_ne_nil hne
  rw [(chain_cons.mp h).1]
  exact List.mem_cons_self

/-- A chain depends only on the links of its objects. -/
theorem Chain.congr (h : Chain m link head as tail)
    (hsame : ∀ a ∈ as, load64 m' (a + link) = load64 m (a + link)) :
    Chain m' link head as tail := by
  induction as generalizing head with
  | nil => exact h
  | cons a as ih =>
      obtain ⟨hhead, hne, hrest⟩ := chain_cons.mp h
      refine chain_cons.mpr ⟨hhead, hne, ?_⟩
      rw [hsame a List.mem_cons_self]
      exact ih hrest fun b hb => hsame b (List.mem_cons_of_mem a hb)

/-- The end of a chain is moved by a store to the link of its last object. -/
theorem Chain.relink (h : Chain m link head (as ++ [a]) mid)
    (hapart : ∀ b ∈ as, Apart (b + link) 8 (a + link) 8) (tail : Word) :
    Chain (store64 m (a + link) tail) link head (as ++ [a]) tail := by
  obtain ⟨start, hfirst, hlast⟩ := chain_append.mp h
  obtain ⟨hhead, hne, -⟩ := chain_cons.mp hlast
  refine chain_append.mpr ⟨start, hfirst.congr fun b hb => ?_, chain_cons.mpr ⟨hhead, hne, ?_⟩⟩
  · exact load64_store64_apart m _ _ tail (hapart b hb)
  · rw [chain_nil, load64_store64_same]

/-- Chains through the same objects have the same start and the same links. -/
theorem Chain.links_eq (h : Chain m link head as tail) (h' : Chain m' link head' as tail) :
    head' = head ∧ ∀ a ∈ as, load64 m' (a + link) = load64 m (a + link) := by
  induction as generalizing head head' with
  | nil => exact ⟨h'.trans h.symm, by simp⟩
  | cons a as ih =>
      obtain ⟨hhead, -, hrest⟩ := chain_cons.mp h
      obtain ⟨hhead', -, hrest'⟩ := chain_cons.mp h'
      obtain ⟨hnext, hlinks⟩ := ih hrest hrest'
      exact ⟨hhead'.trans hhead.symm, List.forall_mem_cons.mpr ⟨hnext, hlinks⟩⟩

end Osiris.LinkedList
