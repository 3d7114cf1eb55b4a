import Mathlib.Data.List.Perm.Basic
import Mathlib.Tactic

/-! # Free lists of blocks

A region is tiled by blocks. The free ones are kept in a list in the order of their addresses,
taken from the first that is large enough, and joined with their neighbours when they come back. -/

namespace Osiris.Blocks

/-- The addresses from `start` to `start + size`. -/
structure Block where
  start : ℕ
  size : ℕ
deriving DecidableEq, Repr

def Block.stop (b : Block) : ℕ :=
  b.start + b.size

def Block.Contains (b : Block) (a : ℕ) : Prop :=
  b.start ≤ a ∧ a < b.stop

def Block.Disjoint (b c : Block) : Prop :=
  ∀ a, b.Contains a → ¬ c.Contains a

theorem Block.Disjoint.symm {b c : Block} (h : b.Disjoint c) : c.Disjoint b :=
  fun a hc hb => h a hb hc

instance : Std.Symm Block.Disjoint :=
  ⟨fun _ _ h => h.symm⟩

/-- Of two blocks that are not empty, one ends before the other starts. -/
theorem Block.Disjoint.stop_le {b c : Block} (h : b.Disjoint c) (hb : 0 < b.size)
    (hc : 0 < c.size) : b.stop ≤ c.start ∨ c.stop ≤ b.start := by
  by_contra hnot
  have hmeet := h (max b.start c.start)
  unfold Block.Contains Block.stop at *
  omega

/-- A smaller block may take the place of one of several disjoint blocks. -/
theorem disjoint_replace {b c : Block} {before after : List Block}
    (h : (before ++ b :: after).Pairwise Block.Disjoint)
    (hsub : ∀ a, c.Contains a → b.Contains a) :
    (before ++ c :: after).Pairwise Block.Disjoint := by
  obtain ⟨hbefore, hrest, hcross⟩ := List.pairwise_append.mp h
  obtain ⟨hb, hafter⟩ := List.pairwise_cons.mp hrest
  refine List.pairwise_append.mpr ⟨hbefore, List.pairwise_cons.mpr ⟨fun d hd a hc => ?_, hafter⟩,
    fun d hd e he => ?_⟩
  · exact hb d hd a (hsub a hc)
  · cases List.mem_cons.mp he with
    | inl heq =>
        rw [heq]
        exact fun a had hac => hcross d hd b List.mem_cons_self a had (hsub a hac)
    | inr hmem => exact hcross d hd e (List.mem_cons_of_mem b hmem)

/-- `b` ends where `c` starts, and both are one block. -/
def Block.join (b c : Block) : Block :=
  ⟨b.start, b.size + c.size⟩

@[simp] theorem Block.join_start (b c : Block) : (b.join c).start = b.start := rfl

@[simp] theorem Block.join_size (b c : Block) : (b.join c).size = b.size + c.size := rfl

theorem Block.join_stop {b c : Block} (h : b.stop = c.start) : (b.join c).stop = c.stop := by
  unfold Block.stop at *
  rw [Block.join_start, Block.join_size]
  omega

theorem Block.contains_join {b c : Block} (h : b.stop = c.start) {a : ℕ} :
    (b.join c).Contains a ↔ b.Contains a ∨ c.Contains a := by
  unfold Block.Contains
  rw [Block.join_start, Block.join_stop h]
  unfold Block.stop at *
  omega

/-! ## Tilings -/

/-- The blocks are disjoint and cover the addresses from `lo` to `hi`, and no others. -/
structure Tiles (lo hi : ℕ) (blocks : List Block) : Prop where
  disjoint : blocks.Pairwise Block.Disjoint
  cover : ∀ a, (lo ≤ a ∧ a < hi) ↔ ∃ b ∈ blocks, b.Contains a

section Tiles

variable {lo hi : ℕ} {b c : Block} {blocks blocks' rest : List Block}

theorem Tiles.perm (h : Tiles lo hi blocks) (hperm : blocks.Perm blocks') : Tiles lo hi blocks' := by
  refine ⟨hperm.pairwise h.disjoint Block.Disjoint.symm, fun a => ?_⟩
  rw [h.cover a]
  simp only [hperm.mem_iff]

theorem tiles_perm (hperm : blocks.Perm blocks') : Tiles lo hi blocks ↔ Tiles lo hi blocks' :=
  ⟨fun h => h.perm hperm, fun h => h.perm hperm.symm⟩

/-- Every block that is not empty is in the region. -/
theorem Tiles.bounds (h : Tiles lo hi blocks) (hb : b ∈ blocks) (hsize : 0 < b.size) :
    lo ≤ b.start ∧ b.stop ≤ hi := by
  have hfirst := (h.cover b.start).mpr ⟨b, hb, by unfold Block.Contains Block.stop; omega⟩
  have hlast := (h.cover (b.stop - 1)).mpr ⟨b, hb, by unfold Block.Contains Block.stop; omega⟩
  unfold Block.stop at *
  omega

theorem disjoint_join (hadj : b.stop = c.start) {d : Block} :
    (b.join c).Disjoint d ↔ b.Disjoint d ∧ c.Disjoint d := by
  unfold Block.Disjoint
  simp only [Block.contains_join hadj, or_imp, forall_and]

/-- Two neighbours tile the same region as the block they make. -/
theorem tiles_join (hadj : b.stop = c.start) :
    Tiles lo hi (b :: c :: rest) ↔ Tiles lo hi (b.join c :: rest) := by
  have hbc : b.Disjoint c := by
    intro a hb hc
    unfold Block.Contains at *
    omega
  have hpair : (b :: c :: rest).Pairwise Block.Disjoint ↔
      (b.join c :: rest).Pairwise Block.Disjoint := by
    simp only [List.pairwise_cons, List.mem_cons, forall_eq_or_imp, disjoint_join hadj]
    constructor
    · rintro ⟨⟨-, hb⟩, hc, hrest⟩
      exact ⟨fun d hd => ⟨hb d hd, hc d hd⟩, hrest⟩
    · rintro ⟨hboth, hrest⟩
      exact ⟨⟨hbc, fun d hd => (hboth d hd).1⟩, fun d hd => (hboth d hd).2, hrest⟩
  have hcover : ∀ a, (∃ d ∈ b :: c :: rest, d.Contains a) ↔
      ∃ d ∈ b.join c :: rest, d.Contains a := by
    intro a
    simp only [List.mem_cons, exists_eq_or_imp, Block.contains_join hadj, or_assoc]
  constructor
  · intro h
    exact ⟨hpair.mp h.disjoint, fun a => (h.cover a).trans (hcover a)⟩
  · intro h
    exact ⟨hpair.mpr h.disjoint, fun a => (h.cover a).trans (hcover a).symm⟩

end Tiles

/-! ## Taking a block -/

/-- The first `n` bytes of a block and the rest of it. -/
def Block.fst (b : Block) (n : ℕ) : Block :=
  ⟨b.start, n⟩

def Block.snd (b : Block) (n : ℕ) : Block :=
  ⟨b.start + n, b.size - n⟩

theorem Block.contains_fst {b : Block} {n a : ℕ} (h : (b.fst n).Contains a) (hn : n ≤ b.size) :
    b.Contains a := by
  unfold Block.Contains Block.stop Block.fst at *
  dsimp only at h
  omega

theorem Block.contains_snd {b : Block} {n a : ℕ} (h : (b.snd n).Contains a) (hn : n ≤ b.size) :
    b.Contains a := by
  unfold Block.Contains Block.stop Block.snd at *
  dsimp only at h
  omega

theorem Block.fst_disjoint_snd (b : Block) (n : ℕ) : (b.fst n).Disjoint (b.snd n) := by
  intro a hfst hsnd
  unfold Block.Contains Block.stop Block.fst Block.snd at *
  dsimp only at hfst hsnd
  omega

theorem Block.join_fst_snd {b : Block} {n : ℕ} (hn : n ≤ b.size) :
    (b.fst n).join (b.snd n) = b := by
  unfold Block.join Block.fst Block.snd
  simp [hn]

/-- The first block of at least `n` bytes leaves the list. What it has beyond `n` bytes stays, if it
has at least `least` of them. -/
def firstFit (least n : ℕ) : List Block → Option (Block × List Block)
  | [] => none
  | b :: bs =>
      if n ≤ b.size then
        if least ≤ b.size - n then some (b.fst n, b.snd n :: bs) else some (b, bs)
      else (firstFit least n bs).map fun found => (found.1, b :: found.2)

/-- The list splits at the block that is taken. -/
inductive FirstFit (least n : ℕ) (free : List Block) : Option (Block × List Block) → Prop where
  | none (hsmall : ∀ b ∈ free, b.size < n) : FirstFit least n free none
  | split (before : List Block) (b : Block) (after : List Block) (heq : free = before ++ b :: after)
      (hsmall : ∀ c ∈ before, c.size < n) (hfits : n ≤ b.size) (hrest : least ≤ b.size - n) :
      FirstFit least n free (some (b.fst n, before ++ b.snd n :: after))
  | whole (before : List Block) (b : Block) (after : List Block) (heq : free = before ++ b :: after)
      (hsmall : ∀ c ∈ before, c.size < n) (hfits : n ≤ b.size) (hrest : b.size - n < least) :
      FirstFit least n free (some (b, before ++ after))

theorem firstFit_cases (least n : ℕ) (free : List Block) :
    FirstFit least n free (firstFit least n free) := by
  induction free with
  | nil => exact .none (by simp)
  | cons b bs ih =>
      unfold firstFit
      split
      · rename_i hfits
        split
        · rename_i hrest
          exact .split [] b bs rfl (by simp) hfits hrest
        · rename_i hrest
          exact .whole [] b bs rfl (by simp) hfits (by omega)
      · rename_i hsmall
        have hb : b.size < n := by omega
        generalize firstFit least n bs = found at ih
        cases ih with
        | none hall =>
            refine .none fun c hc => ?_
            cases List.mem_cons.mp hc with
            | inl heq => exact heq ▸ hb
            | inr hmem => exact hall c hmem
        | split before c after heq hbefore hfits hrest =>
            refine .split (b :: before) c after (by rw [heq]; rfl) (fun d hd => ?_) hfits hrest
            cases List.mem_cons.mp hd with
            | inl heq => exact heq ▸ hb
            | inr hmem => exact hbefore d hmem
        | whole before c after heq hbefore hfits hrest =>
            refine .whole (b :: before) c after (by rw [heq]; rfl) (fun d hd => ?_) hfits hrest
            cases List.mem_cons.mp hd with
            | inl heq => exact heq ▸ hb
            | inr hmem => exact hbefore d hmem

theorem firstFit_eq_none_iff {least n : ℕ} {free : List Block} :
    firstFit least n free = none ↔ ∀ b ∈ free, b.size < n := by
  have hcases := firstFit_cases least n free
  generalize firstFit least n free = found at hcases
  cases hcases with
  | none hsmall => exact iff_of_true rfl hsmall
  | split before b after heq hsmall hfits hrest =>
      refine iff_of_false (by simp) fun hall => ?_
      exact absurd (hall b (by simp [heq])) (by omega)
  | whole before b after heq hsmall hfits hrest =>
      refine iff_of_false (by simp) fun hall => ?_
      exact absurd (hall b (by simp [heq])) (by omega)

/-- What is taken and what is left are parts of the free blocks. -/
theorem contains_of_firstFit {least n : ℕ} {free free' : List Block} {b c : Block} {a : ℕ}
    (hfit : firstFit least n free = some (b, free')) (hc : c ∈ b :: free') (ha : c.Contains a) :
    ∃ d ∈ free, d.Contains a := by
  have hcases := firstFit_cases least n free
  rw [hfit] at hcases
  cases hcases with
  | split before d after heq hsmall hfits hrest =>
      simp only [List.mem_cons, List.mem_append] at hc
      rcases hc with rfl | hc | rfl | hc
      · exact ⟨d, by simp [heq], Block.contains_fst ha hfits⟩
      · exact ⟨c, by simp [heq, hc], ha⟩
      · exact ⟨d, by simp [heq], Block.contains_snd ha hfits⟩
      · exact ⟨c, by simp [heq, hc], ha⟩
  | whole before d after heq hsmall hfits hrest =>
      simp only [List.mem_cons, List.mem_append] at hc
      rcases hc with rfl | hc | hc
      · exact ⟨c, by simp [heq], ha⟩
      · exact ⟨c, by simp [heq, hc], ha⟩
      · exact ⟨c, by simp [heq, hc], ha⟩

/-! ## Giving a block back -/

/-- `b` goes in front of the list, and is one block with the first of it if they are neighbours. -/
def attach (b : Block) : List Block → List Block
  | [] => [b]
  | c :: cs => if b.stop = c.start then b.join c :: cs else b :: c :: cs

/-- `b` goes to its place in the list. -/
def release (b : Block) : List Block → List Block
  | [] => [b]
  | c :: cs => if c.start < b.start then attach c (release b cs) else attach b (c :: cs)

/-- Blocks in the order of their addresses, no two of which are neighbours. -/
def Separated (free : List Block) : Prop :=
  free.Pairwise fun b c => b.stop < c.start

theorem Separated.disjoint {free : List Block} (h : Separated free) :
    free.Pairwise Block.Disjoint := by
  refine h.imp fun {b c} hlt a hb hc => ?_
  unfold Block.Contains at *
  omega

/-- A region has room for no more blocks than it has bytes for. -/
theorem Separated.length_le {free : List Block} {least lo hi : ℕ} (h : Separated free)
    (hle : lo ≤ hi) (hin : ∀ b ∈ free, least ≤ b.size ∧ lo ≤ b.start ∧ b.stop ≤ hi) :
    lo + least * free.length ≤ hi := by
  induction free generalizing lo with
  | nil => simpa using hle
  | cons b bs ih =>
      obtain ⟨hb, hbs⟩ := List.pairwise_cons.mp h
      obtain ⟨⟨hsize, hstart, hstop⟩, hrest⟩ := List.forall_mem_cons.mp hin
      have hlen := ih hbs hstop fun c hc => ⟨(hrest c hc).1, (hb c hc).le, (hrest c hc).2.2⟩
      rw [List.length_cons, Nat.mul_succ]
      unfold Block.stop at *
      omega

/-- The addresses of a list begin with those of its first block. -/
theorem Separated.start_le {b : Block} {bs : List Block} (h : Separated (b :: bs)) {a : ℕ}
    (ha : ∃ c ∈ b :: bs, c.Contains a) : b.start ≤ a := by
  obtain ⟨c, hc, hca⟩ := ha
  cases List.mem_cons.mp hc with
  | inl heq => exact heq ▸ hca.1
  | inr hmem =>
      have hbc := (List.pairwise_cons.mp h).1 c hmem
      unfold Block.Contains Block.stop at *
      omega

theorem Separated.contains_head_iff {b : Block} {bs : List Block} (h : Separated (b :: bs))
    {a : ℕ} (ha : a ≤ b.stop) : (∃ c ∈ b :: bs, c.Contains a) ↔ b.Contains a := by
  constructor
  · rintro ⟨c, hc, hca⟩
    cases List.mem_cons.mp hc with
    | inl heq => exact heq ▸ hca
    | inr hmem =>
        have hbc := (List.pairwise_cons.mp h).1 c hmem
        unfold Block.Contains at hca
        omega
  · exact fun hb => ⟨b, List.mem_cons_self, hb⟩

/-- Two lists that start with the same addresses start with the same block. -/
theorem Separated.head_le {b c : Block} {bs cs : List Block} (hb : Separated (b :: bs))
    (hc : Separated (c :: cs)) (hcsize : 0 < c.size)
    (hsame : ∀ a, (∃ d ∈ b :: bs, d.Contains a) ↔ ∃ d ∈ c :: cs, d.Contains a) :
    b.start ≤ c.start ∧ (b.start = c.start → b.stop ≤ c.stop) := by
  constructor
  · refine hb.start_le ((hsame c.start).mpr ⟨c, List.mem_cons_self, ?_⟩)
    unfold Block.Contains Block.stop
    omega
  · intro hstart
    by_contra hlt
    have hbc : b.Contains c.stop := by
      unfold Block.Contains Block.stop at *
      omega
    have hself := (hc.contains_head_iff le_rfl).mp ((hsame c.stop).mp ⟨b, List.mem_cons_self, hbc⟩)
    exact absurd hself.2 (lt_irrefl _)

/-- A separated list is determined by its addresses. -/
theorem Separated.ext {free free' : List Block} (h : Separated free) (h' : Separated free')
    (hsize : ∀ b ∈ free, 0 < b.size) (hsize' : ∀ b ∈ free', 0 < b.size)
    (hsame : ∀ a, (∃ b ∈ free, b.Contains a) ↔ ∃ b ∈ free', b.Contains a) : free = free' := by
  have hstart : ∀ b : Block, 0 < b.size → b.Contains b.start := by
    intro b hb
    unfold Block.Contains Block.stop
    omega
  induction free generalizing free' with
  | nil =>
      cases free' with
      | nil => rfl
      | cons c cs =>
          obtain ⟨b, hb, -⟩ := (hsame c.start).mpr
            ⟨c, List.mem_cons_self, hstart c (hsize' c List.mem_cons_self)⟩
          exact absurd hb (by simp)
  | cons b bs ih =>
      cases free' with
      | nil =>
          obtain ⟨c, hc, -⟩ := (hsame b.start).mp
            ⟨b, List.mem_cons_self, hstart b (hsize b List.mem_cons_self)⟩
          exact absurd hc (by simp)
      | cons c cs =>
          obtain ⟨hb, hbs⟩ := List.forall_mem_cons.mp hsize
          obtain ⟨hc, hcs⟩ := List.forall_mem_cons.mp hsize'
          obtain ⟨hle, hstop⟩ := h.head_le h' hc hsame
          obtain ⟨hle', hstop'⟩ := h'.head_le h hb fun a => (hsame a).symm
          obtain rfl : b = c := by
            have hfirst := le_antisymm hle hle'
            have hlast := le_antisymm (hstop hfirst) (hstop' hfirst.symm)
            cases b
            cases c
            unfold Block.stop at hlast
            simp only [Block.mk.injEq] at *
            omega
          obtain ⟨hb₁, hrest⟩ := List.pairwise_cons.mp h
          obtain ⟨hb₂, hrest'⟩ := List.pairwise_cons.mp h'
          congr 1
          refine ih hrest hrest' hbs hcs fun a => ?_
          have htail : ∀ ds : List Block, (∀ d ∈ ds, b.stop < d.start) →
              ((∃ d ∈ ds, d.Contains a) ↔ (∃ d ∈ b :: ds, d.Contains a) ∧ ¬ b.Contains a) := by
            intro ds hds
            constructor
            · rintro ⟨d, hd, hda⟩
              refine ⟨⟨d, List.mem_cons_of_mem b hd, hda⟩, fun hba => ?_⟩
              have hbd := hds d hd
              unfold Block.Contains at *
              omega
            · rintro ⟨⟨d, hd, hda⟩, hnot⟩
              cases List.mem_cons.mp hd with
              | inl heq => exact absurd (heq ▸ hda) hnot
              | inr hmem => exact ⟨d, hmem, hda⟩
          rw [htail bs hb₁, htail cs hb₂, hsame a]

/-- The gaps that a set of blocks leaves in a region are one list only. -/
theorem tiles_unique {lo hi : ℕ} {free free' live live' : List Block} (h : Separated free)
    (h' : Separated free') (hsize : ∀ b ∈ free, 0 < b.size) (hsize' : ∀ b ∈ free', 0 < b.size)
    (htiles : Tiles lo hi (free ++ live)) (htiles' : Tiles lo hi (free' ++ live'))
    (hperm : live.Perm live') : free = free' := by
  have hgap : ∀ {free live : List Block}, Tiles lo hi (free ++ live) → ∀ a,
      ((∃ b ∈ free, b.Contains a) ↔ (lo ≤ a ∧ a < hi) ∧ ¬ ∃ b ∈ live, b.Contains a) := by
    intro free live htiles a
    have hcross := (List.pairwise_append.mp htiles.disjoint).2.2
    rw [htiles.cover a]
    constructor
    · rintro ⟨b, hb, hba⟩
      refine ⟨⟨b, List.mem_append_left live hb, hba⟩, ?_⟩
      rintro ⟨c, hc, hca⟩
      exact hcross b hb c hc a hba hca
    · rintro ⟨⟨b, hb, hba⟩, hnot⟩
      cases List.mem_append.mp hb with
      | inl hfree => exact ⟨b, hfree, hba⟩
      | inr hlive => exact absurd ⟨b, hlive, hba⟩ hnot
  refine h.ext h' hsize hsize' fun a => ?_
  rw [hgap htiles, hgap htiles']
  simp only [hperm.mem_iff]

/-- A smaller block may take the place of one of them. -/
theorem Separated.replace {b c : Block} {before after : List Block}
    (h : Separated (before ++ b :: after)) (hstart : b.start ≤ c.start) (hstop : c.stop ≤ b.stop) :
    Separated (before ++ c :: after) := by
  obtain ⟨hbefore, hrest, hcross⟩ := List.pairwise_append.mp h
  obtain ⟨hb, hafter⟩ := List.pairwise_cons.mp hrest
  refine List.pairwise_append.mpr ⟨hbefore, List.pairwise_cons.mpr
    ⟨fun d hd => lt_of_le_of_lt hstop (hb d hd), hafter⟩, fun d hd e he => ?_⟩
  cases List.mem_cons.mp he with
  | inl heq =>
      rw [heq]
      exact lt_of_lt_of_le (hcross d hd b List.mem_cons_self) hstart
  | inr hmem => exact hcross d hd e (List.mem_cons_of_mem b hmem)

section Release

variable {lo hi : ℕ} {b c p : Block} {free rest before after : List Block}

theorem attach_cons (b c : Block) (cs : List Block) :
    attach b (c :: cs) = if b.stop = c.start then b.join c :: cs else b :: c :: cs := rfl

theorem release_cons (b c : Block) (cs : List Block) : release b (c :: cs) =
    if c.start < b.start then attach c (release b cs) else attach b (c :: cs) := rfl

theorem tiles_attach :
    Tiles lo hi (attach b free ++ rest) ↔ Tiles lo hi (b :: free ++ rest) := by
  cases free with
  | nil => rfl
  | cons c cs =>
      rw [attach_cons]
      split
      · rename_i hadj
        exact (tiles_join hadj).symm
      · rfl

/-- A block that is given back takes the place it had. -/
theorem tiles_release :
    Tiles lo hi (release b free ++ rest) ↔ Tiles lo hi (b :: free ++ rest) := by
  induction free generalizing rest with
  | nil => rfl
  | cons c cs ih =>
      rw [release_cons]
      split
      · have hmove : (c :: release b cs ++ rest).Perm (release b cs ++ c :: rest) :=
          List.perm_middle.symm
        have hback : (b :: cs ++ c :: rest).Perm (b :: c :: cs ++ rest) :=
          List.Perm.cons b List.perm_middle
        rw [tiles_attach, tiles_perm hmove, ih, tiles_perm hback]
      · exact tiles_attach

theorem mem_attach_start {d : Block} (hd : d ∈ attach b free) :
    d.start = b.start ∨ ∃ e ∈ free, d.start = e.start := by
  cases free with
  | nil => exact Or.inl (by rw [List.mem_singleton.mp hd])
  | cons c cs =>
      rw [attach_cons] at hd
      split at hd
      · cases List.mem_cons.mp hd with
        | inl heq => exact Or.inl (by rw [heq]; rfl)
        | inr hmem => exact Or.inr ⟨d, List.mem_cons_of_mem c hmem, rfl⟩
      · cases List.mem_cons.mp hd with
        | inl heq => exact Or.inl (by rw [heq])
        | inr hmem => exact Or.inr ⟨d, hmem, rfl⟩

theorem mem_release_start {d : Block} (hd : d ∈ release b free) :
    d.start = b.start ∨ ∃ e ∈ free, d.start = e.start := by
  induction free generalizing d with
  | nil => exact Or.inl (by rw [List.mem_singleton.mp hd])
  | cons c cs ih =>
      rw [release_cons] at hd
      split at hd
      · rcases mem_attach_start hd with hstart | ⟨e, he, hstart⟩
        · exact Or.inr ⟨c, List.mem_cons_self, hstart⟩
        · rcases ih he with heq | ⟨e', he', heq⟩
          · exact Or.inl (hstart.trans heq)
          · exact Or.inr ⟨e', List.mem_cons_of_mem c he', hstart.trans heq⟩
      · exact mem_attach_start hd

theorem contains_of_mem_attach {d : Block} {a : ℕ} (hd : d ∈ attach b free) (ha : d.Contains a) :
    ∃ e ∈ b :: free, e.Contains a := by
  cases free with
  | nil => exact ⟨d, hd, ha⟩
  | cons c cs =>
      rw [attach_cons] at hd
      split at hd
      · rename_i hadj
        cases List.mem_cons.mp hd with
        | inl heq =>
            rw [heq, Block.contains_join hadj] at ha
            cases ha with
            | inl hb => exact ⟨b, by simp, hb⟩
            | inr hc => exact ⟨c, by simp, hc⟩
        | inr hmem => exact ⟨d, by simp [hmem], ha⟩
      · exact ⟨d, hd, ha⟩

theorem attach_forall {P : Block → Prop} (hjoin : ∀ b c, P b → P c → P (b.join c)) (hb : P b)
    (hfree : ∀ c ∈ free, P c) : ∀ d ∈ attach b free, P d := by
  cases free with
  | nil => simpa [attach] using hb
  | cons c cs =>
      obtain ⟨hc, hcs⟩ := List.forall_mem_cons.mp hfree
      rw [attach_cons]
      split
      · exact List.forall_mem_cons.mpr ⟨hjoin b c hb hc, hcs⟩
      · exact List.forall_mem_cons.mpr ⟨hb, hfree⟩

/-- What holds of every block and is kept by joining still holds. -/
theorem release_forall {P : Block → Prop} (hjoin : ∀ b c, P b → P c → P (b.join c)) (hb : P b)
    (hfree : ∀ c ∈ free, P c) : ∀ d ∈ release b free, P d := by
  induction free with
  | nil => simpa [release] using hb
  | cons c cs ih =>
      obtain ⟨hc, hcs⟩ := List.forall_mem_cons.mp hfree
      rw [release_cons]
      split
      · exact attach_forall hjoin hc (ih hcs)
      · exact attach_forall hjoin hb hfree

theorem separated_attach (h : Separated free) (hb : ∀ c ∈ free, b.stop ≤ c.start) :
    Separated (attach b free) := by
  cases free with
  | nil => exact List.pairwise_singleton _ _
  | cons c cs =>
      obtain ⟨hc, hcs⟩ := List.pairwise_cons.mp h
      rw [attach_cons]
      split
      · rename_i hadj
        refine List.pairwise_cons.mpr ⟨fun d hd => ?_, hcs⟩
        rw [Block.join_stop hadj]
        exact hc d hd
      · rename_i hadj
        refine List.pairwise_cons.mpr ⟨fun d hd => ?_, h⟩
        have hbc := hb c List.mem_cons_self
        cases List.mem_cons.mp hd with
        | inl heq => rw [heq]; omega
        | inr hmem =>
            have hcd := hc d hmem
            unfold Block.stop at *
            omega

theorem separated_release (h : Separated free) (hb : 0 < b.size)
    (hdisj : ∀ c ∈ free, b.Disjoint c) (hsize : ∀ c ∈ free, 0 < c.size) :
    Separated (release b free) := by
  induction free with
  | nil => exact List.pairwise_singleton _ _
  | cons c cs ih =>
      obtain ⟨hc, hcs⟩ := List.pairwise_cons.mp h
      have hbc := hdisj c List.mem_cons_self
      have hcsize := hsize c List.mem_cons_self
      rw [release_cons]
      split
      · rename_i hlt
        have hrest := ih hcs (fun d hd => hdisj d (List.mem_cons_of_mem c hd))
          fun d hd => hsize d (List.mem_cons_of_mem c hd)
        refine separated_attach hrest fun d hd => ?_
        rcases mem_release_start hd with hstart | ⟨e, he, hstart⟩
        · rw [hstart]
          have horder := hbc.stop_le hb hcsize
          unfold Block.stop at *
          omega
        · rw [hstart]
          exact (hc e he).le
      · rename_i hge
        refine separated_attach h fun d hd => ?_
        have hfirst : b.stop ≤ c.start := by
          have horder := hbc.stop_le hb hcsize
          unfold Block.stop at *
          omega
        cases List.mem_cons.mp hd with
        | inl heq => exact heq ▸ hfirst
        | inr hmem =>
            have hcd := hc d hmem
            unfold Block.stop at *
            omega

/-- With nothing before it, the block is attached to what comes after it. -/
theorem release_eq_attach (hafter : ∀ c ∈ free, ¬ c.start < b.start) :
    release b free = attach b free := by
  cases free with
  | nil => rfl
  | cons c cs =>
      rw [release_cons, if_neg (hafter c List.mem_cons_self)]

theorem attach_eq_cons (b : Block) (free : List Block) :
    ∃ d ds, attach b free = d :: ds ∧ d.start = b.start := by
  cases free with
  | nil => exact ⟨b, [], rfl, rfl⟩
  | cons c cs =>
      rw [attach_cons]
      split
      · exact ⟨b.join c, cs, rfl, rfl⟩
      · exact ⟨b, c :: cs, rfl, rfl⟩

/-- The place of an address in the list. -/
theorem Separated.around (h : Separated free) (a : ℕ) :
    ∃ before after, free = before ++ after ∧ (∀ c ∈ before, c.start < a) ∧
      ∀ c ∈ after, ¬ c.start < a := by
  induction free with
  | nil => exact ⟨[], [], rfl, by simp, by simp⟩
  | cons c cs ih =>
      obtain ⟨hc, hcs⟩ := List.pairwise_cons.mp h
      by_cases hlt : c.start < a
      · obtain ⟨before, after, heq, hbefore, hafter⟩ := ih hcs
        exact ⟨c :: before, after, by rw [heq]; rfl, List.forall_mem_cons.mpr ⟨hlt, hbefore⟩, hafter⟩
      · refine ⟨[], c :: cs, rfl, by simp, List.forall_mem_cons.mpr ⟨hlt, fun d hd => ?_⟩⟩
        have hcd := hc d hd
        unfold Block.stop at hcd
        omega

theorem attach_of_lt (h : ∀ c ∈ free, b.stop < c.start) : attach b free = b :: free := by
  cases free with
  | nil => rfl
  | cons c cs =>
      rw [attach_cons, if_neg (h c List.mem_cons_self).ne]

/-- Otherwise the block before it is attached in turn. -/
theorem release_append (hsep : Separated (before ++ p :: after))
    (hbefore : ∀ c ∈ before, c.start < b.start) (hp : p.start < b.start)
    (hafter : ∀ c ∈ after, ¬ c.start < b.start) (hdisj : ∀ c ∈ before, c.stop < b.start) :
    release b (before ++ p :: after) = before ++ attach p (attach b after) := by
  induction before with
  | nil =>
      rw [List.nil_append, List.nil_append, release_cons, if_pos hp, release_eq_attach hafter]
  | cons c cs ih =>
      obtain ⟨hc, hcs⟩ := List.pairwise_cons.mp hsep
      have hrest := ih hcs (fun d hd => hbefore d (List.mem_cons_of_mem c hd))
        fun d hd => hdisj d (List.mem_cons_of_mem c hd)
      have hfar : ∀ d ∈ release b (cs ++ p :: after), c.stop < d.start := by
        intro d hd
        rcases mem_release_start hd with hstart | ⟨e, he, hstart⟩
        · rw [hstart]
          exact hdisj c List.mem_cons_self
        · rw [hstart]
          exact hc e he
      rw [List.cons_append, release_cons, if_pos (hbefore c List.mem_cons_self), attach_of_lt hfar,
        hrest, List.cons_append]

end Release

end Osiris.Blocks
