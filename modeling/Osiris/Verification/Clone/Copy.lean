import Osiris.Model.VmmClone
import Osiris.Verification.Page.Books
import Osiris.Verification.Vmm.Tables

/-! # Copying the tables

The four nested loops of `vmm_clone_pagemap` are one loop at four levels. At each level the child's
table is the root of a tree of its own, whose nodes are the frames taken since the loop began; the
pages at the bottom count as nodes. -/

namespace Osiris.Clone

open ByteMemory Strings Page Radix Vmm

/-- The loop over a table with `d` levels of tables below it. -/
def cloneLevel (hh : Word) : ℕ → Word → Word → Machine → Bool × Machine
  | 0 => clonePt hh
  | d + 1 => fun src child s => Loop.forEach (cloneTable hh (cloneLevel hh d) src child) indices s

theorem cloneLevel_zero (hh src child : Word) (s : Machine) :
    cloneLevel hh 0 src child s = Loop.forEach (clonePage hh src child) indices s := rfl

theorem cloneLevel_succ (hh : Word) (d : ℕ) (src child : Word) (s : Machine) :
    cloneLevel hh (d + 1) src child s =
      Loop.forEach (cloneTable hh (cloneLevel hh d) src child) indices s := rfl

theorem cloneLevel_two (hh : Word) : cloneLevel hh 2 = clonePdpt hh := rfl

/-! ## Copied entries -/

/-- The child's entry has a frame of its own and the low twelve flags of the source's. -/
def CopiedEntry (e e' : Word) : Prop :=
  e' = pteGetAddr e' ||| (e &&& 0xFFF#64)

theorem pteGetAddr_lowFlags (e : Word) : pteGetAddr (e &&& 0xFFF#64) = 0#64 := by
  have hmask : 0xFFF#64 &&& pteAddrMask = 0#64 := by decide
  unfold pteGetAddr
  rw [BitVec.and_assoc, hmask, BitVec.and_zero]

theorem copiedEntry_frameAddr {i : ℕ} (hi : i < 2 ^ 40) (e : Word) :
    CopiedEntry e (frameAddr i ||| (e &&& 0xFFF#64)) := by
  unfold CopiedEntry
  rw [pteGetAddr_frameAddr_or hi (pteGetAddr_lowFlags e)]

theorem present_lowFlags {e : Word} (h : HasFlag e ptePresent) :
    HasFlag (e &&& 0xFFF#64) ptePresent := by
  have hmask : 0xFFF#64 &&& ptePresent = ptePresent := by decide
  unfold HasFlag
  rw [BitVec.and_assoc, hmask]
  exact h

/-- The pages have the same bytes. -/
def SameBytes (hh : Word) (m m' : Mem) (f f' : ℕ) : Prop :=
  ∀ k < 4096, m' (frameVirt hh f' + BitVec.ofNat 64 k) = m (frameVirt hh f + BitVec.ofNat 64 k)

theorem SamePage.sameBytes {hh : Word} {m m' : Mem} {f : ℕ} (h : SamePage hh m m' f) :
    SameBytes hh m m' f f :=
  fun _ hk => h _ (inRange_add _ hk (by norm_num))

theorem SameBytes.trans {hh : Word} {m₁ m₂ m₃ : Mem} {f₁ f₂ f₃ : ℕ}
    (h₁ : SameBytes hh m₁ m₂ f₁ f₂) (h₂ : SameBytes hh m₂ m₃ f₂ f₃) : SameBytes hh m₁ m₃ f₁ f₃ :=
  fun k hk => (h₂ k hk).trans (h₁ k hk)

/-! ## The state of a loop -/

/-- Where a loop starts: a source table that is in use with all tables below it, and an empty table
of the child. -/
structure CopySite (hh : Word) (s : Machine) (d f c : ℕ) : Prop where
  valid : s.Valid hh
  src_lt : f < 2 ^ 40
  src_used : ∀ x ∈ footprint (link hh s.mem) d f, ¬ s.pmm.Free x ∧ x ≠ c
  src_reached : ∀ x ∈ below (link hh s.mem) d f, frameVirt hh x ≠ 0#64
  child_lt : c < 2 ^ 40
  child_used : ¬ s.pmm.Free c
  child_empty : ∀ k, entry hh s.mem c k = 0#64

/-- What a loop has done when it is done with the entries `done`, or has run out of frames while
copying one of them. -/
structure Copying (hh : Word) (s s' : Machine) (d f c : ℕ) (done : Set Index) : Prop where
  balanced : s.pmm.Balanced s'.pmm
  free : ∀ x, s'.pmm.Free x → s.pmm.Free x
  same : ∀ x < 2 ^ 40, ¬ s.pmm.Free x → x ≠ c → SamePage hh s.mem s'.mem x
  tree : IsTree (link hh s'.mem) (d + 1) c
  taken : ∀ x, x ∈ below (link hh s'.mem) (d + 1) c ↔ s.pmm.Free x ∧ ¬ s'.pmm.Free x
  copied : ∀ (q : List Index) es' g', q.length ≤ d + 1 →
    walk (link hh s'.mem) c q = some (es', g') →
      ∃ es g, walk (link hh s.mem) f q = some (es, g) ∧ List.Forall₂ CopiedEntry es es' ∧
        (q.length = d + 1 → ¬ s.pmm.Free g → g ≠ c → SameBytes hh s.mem s'.mem g g')
  empty : ∀ k, k ∉ done ∨ link hh s.mem f k = none → entry hh s'.mem c k = 0#64

/-- Nothing below the entries `done` is missing in the child. -/
def Complete (hh : Word) (m m' : Mem) (d f c : ℕ) (done : Set Index) : Prop :=
  ∀ k ∈ done, ∀ q : List Index, q.length ≤ d → walk (link hh m) f (k :: q) ≠ none →
    walk (link hh m') c (k :: q) ≠ none

section Copying

variable {hh : Word} {s s₁ s₂ s₃ : Machine} {d f c g i : ℕ} {done : Set Index} {k : Index} {a : Word}

theorem CopySite.start (h : CopySite hh s d f c) : Copying hh s s d f c ∅ := by
  have hnone : ∀ k, link hh s.mem c k = none := fun k => link_of_zero (h.child_empty k)
  refine ⟨Pmm.Balanced.refl _, fun x hx => hx, fun x _ _ _ => SamePage.refl hh _ x,
    isTree_of_empty hnone (d + 1), fun x => ?_, fun q es' g' hlen hw => ?_,
    fun k _ => h.child_empty k⟩
  · constructor
    · intro hx
      obtain ⟨k, a, y, hk, -⟩ := hx
      rw [hnone k] at hk
      exact absurd hk (by simp)
    · exact fun hx => absurd hx.1 hx.2
  · cases q with
    | nil =>
        rw [walk_nil, Option.some.injEq, Prod.mk.injEq] at hw
        refine ⟨[], f, walk_nil f, hw.1 ▸ List.Forall₂.nil, fun hlong => ?_⟩
        exact absurd hlong (by simp)
    | cons k q =>
        rw [walk_cons_of_none (hnone k)] at hw
        exact absurd hw (by simp)

theorem Copying.valid (h : Copying hh s s₁ d f c done) (hs : s.Valid hh) : s₁.Valid hh :=
  hs.of_free h.balanced.highest fun hfree => hs.zero_used (h.free 0 hfree)

theorem CopySite.footprint_lt (h : CopySite hh s d f c) {x : ℕ}
    (hx : x ∈ footprint (link hh s.mem) d f) : x < 2 ^ 40 :=
  Vmm.footprint_lt h.src_lt hx

/-- The source reads the same while the child grows. -/
theorem Copying.link_src (h : Copying hh s s₁ d f c done) (hsite : CopySite hh s d f c) {x : ℕ}
    (hx : x ∈ footprint (link hh s.mem) d f) : link hh s₁.mem x = link hh s.mem x :=
  link_congr (h.same x (hsite.footprint_lt hx) (hsite.src_used x hx).1 (hsite.src_used x hx).2)

/-- A frame of the child is in use, and is neither the root nor a frame that was in use before. -/
theorem Copying.node (h : Copying hh s s₁ d f c done) (hs : s.Valid hh) {x : ℕ}
    (hx : x ∈ below (link hh s₁.mem) (d + 1) c) : x < 2 ^ 40 ∧ ¬ s₁.pmm.Free x ∧ x ≠ c := by
  obtain ⟨hfree, hused⟩ := (h.taken x).mp hx
  refine ⟨hs.lt_limit hfree.1, hused, ?_⟩
  rintro rfl
  exact h.tree.not_mem_below hx

end Copying

/-! ## One round -/

/-- What a round does for an entry `a` of the source that leads to frame `g`: it gives the child an
entry of its own, which leads to a copy in frame `i` made of frames that were free. -/
structure Attached (hh : Word) (s s₁ s₃ : Machine) (d c : ℕ) (k : Index) (a : Word) (g i : ℕ) :
    Prop where
  balanced : s₁.pmm.Balanced s₃.pmm
  free : ∀ x, s₃.pmm.Free x → s₁.pmm.Free x
  same : ∀ x < 2 ^ 40, ¬ s₁.pmm.Free x → x ≠ c → SamePage hh s₁.mem s₃.mem x
  entry_other : ∀ j, j ≠ k → entry hh s₃.mem c j = entry hh s₁.mem c j
  entry_self : entry hh s₃.mem c k = frameAddr i ||| (a &&& 0xFFF#64)
  tree : IsTree (link hh s₃.mem) d i
  taken : ∀ x, x ∈ footprint (link hh s₃.mem) d i ↔ s₁.pmm.Free x ∧ ¬ s₃.pmm.Free x
  copied : ∀ (q : List Index) es' g', q.length ≤ d → walk (link hh s₃.mem) i q = some (es', g') →
    ∃ es y, walk (link hh s.mem) g q = some (es, y) ∧ List.Forall₂ CopiedEntry es es' ∧
      (q.length = d → ¬ s.pmm.Free y → y ≠ c → SameBytes hh s.mem s₃.mem y g')

section Attach

variable {hh : Word} {s s₁ s₃ : Machine} {d f c g i : ℕ} {done : Set Index} {k : Index} {a : Word}

theorem Attached.fresh (hnew : Attached hh s s₁ s₃ d c k a g i) : s₁.pmm.Free i :=
  ((hnew.taken i).mp (mem_footprint_self d i)).1

theorem Attached.link_self (hnew : Attached hh s s₁ s₃ d c k a g i) (hi : i < 2 ^ 40)
    (ha : HasFlag a ptePresent) :
    link hh s₃.mem c k = some (frameAddr i ||| (a &&& 0xFFF#64), i) := by
  refine link_eq_some.mpr ⟨hnew.entry_self, hasFlag_or.mpr (Or.inr (present_lowFlags ha)), ?_⟩
  rw [frameOf_frameAddr_or hi (pteGetAddr_lowFlags a)]

theorem Attached.link_other (hnew : Attached hh s s₁ s₃ d c k a g i) {j : Index} (hj : j ≠ k) :
    link hh s₃.mem c j = link hh s₁.mem c j := by
  simp only [link, hnew.entry_other j hj]

/-- What is already in the child stays there. -/
theorem Attached.link_node (hnew : Attached hh s s₁ s₃ d c k a g i)
    (h : Copying hh s s₁ d f c done) (hs : s.Valid hh) {x : ℕ}
    (hx : x ∈ below (link hh s₁.mem) (d + 1) c) : link hh s₃.mem x = link hh s₁.mem x := by
  obtain ⟨hlt, hused, hne⟩ := h.node hs hx
  exact link_congr (hnew.same x hlt hused hne)

theorem Attached.walk_other (hnew : Attached hh s s₁ s₃ d c k a g i)
    (h : Copying hh s s₁ d f c done) (hs : s.Valid hh) {j : Index} (hj : j ≠ k) {q : List Index}
    (hlen : q.length ≤ d) :
    walk (link hh s₃.mem) c (j :: q) = walk (link hh s₁.mem) c (j :: q) := by
  cases hlink : link hh s₁.mem c j with
  | none => rw [walk_cons_of_none hlink, walk_cons_of_none (by rw [hnew.link_other hj, hlink])]
  | some edge =>
      obtain ⟨b, y⟩ := edge
      have hsub : ∀ x ∈ footprint (link hh s₁.mem) d y, link hh s₃.mem x = link hh s₁.mem x :=
        fun x hx => hnew.link_node h hs ⟨j, b, y, hlink, hx⟩
      rw [walk_cons_of_some hlink, walk_cons_of_some (a := b) (h := y)
        (by rw [hnew.link_other hj, hlink]), (congr_footprint hsub).2.2 q (by omega)]

theorem Attached.tree_and_taken (hnew : Attached hh s s₁ s₃ d c k a g i)
    (h : Copying hh s s₁ d f c done) (hsite : CopySite hh s d f c) (hk : k ∉ done)
    (ha : HasFlag a ptePresent) :
    IsTree (link hh s₃.mem) (d + 1) c ∧
      ∀ x, x ∈ below (link hh s₃.mem) (d + 1) c ↔ s.pmm.Free x ∧ ¬ s₃.pmm.Free x := by
  have hi : i < 2 ^ 40 := hsite.valid.lt_limit (h.free i hnew.fresh).1
  have hnone : link hh s₁.mem c k = none := link_of_zero (h.empty k (Or.inl hk))
  have hdisj : ∀ x ∈ footprint (link hh s₃.mem) d i, x ∉ footprint (link hh s₁.mem) (d + 1) c := by
    intro x hx hmem
    have hfree := ((hnew.taken x).mp hx).1
    cases hmem with
    | inl heq => exact hsite.child_used (heq ▸ h.free x hfree)
    | inr hbelow => exact ((h.taken x).mp hbelow).2 hfree
  obtain ⟨htree, hfoot⟩ := graft h.tree hnone (hnew.link_self hi ha)
    (fun j hj => hnew.link_other hj) hnew.tree hdisj (fun x hx => hnew.link_node h hsite.valid hx)
  refine ⟨htree, fun x => ?_⟩
  have hbelow : x ∈ below (link hh s₃.mem) (d + 1) c ↔
      x ∈ below (link hh s₁.mem) (d + 1) c ∨ x ∈ footprint (link hh s₃.mem) d i := by
    constructor
    · intro hx
      have hne : x ≠ c := by
        rintro rfl
        exact htree.not_mem_below hx
      cases (hfoot x).mp (Or.inr hx) with
      | inl hold => exact Or.inl (hold.resolve_left hne)
      | inr hin => exact Or.inr hin
    · intro hx
      have hne : x ≠ c := by
        rintro rfl
        cases hx with
        | inl hold => exact h.tree.not_mem_below hold
        | inr hin => exact hdisj x hin (mem_footprint_self _ x)
      exact ((hfoot x).mpr (hx.imp Or.inr id)).resolve_left hne
  rw [hbelow, h.taken x, hnew.taken x]
  constructor
  · intro hx
    cases hx with
    | inl hold => exact ⟨hold.1, fun hfree => hold.2 (hnew.free x hfree)⟩
    | inr hin => exact ⟨h.free x hin.1, hin.2⟩
  · intro hx
    by_cases hfree : s₁.pmm.Free x
    · exact Or.inr ⟨hfree, hx.2⟩
    · exact Or.inl ⟨hx.1, hfree⟩

/-- A round keeps what a loop has done, and adds its own entry to it. -/
theorem Copying.attach (h : Copying hh s s₁ d f c done) (hsite : CopySite hh s d f c)
    (hk : k ∉ done) (hlink : link hh s.mem f k = some (a, g))
    (hnew : Attached hh s s₁ s₃ d c k a g i) : Copying hh s s₃ d f c (insert k done) := by
  have ha : HasFlag a ptePresent := (link_eq_some.mp hlink).2.1
  have hi : i < 2 ^ 40 := hsite.valid.lt_limit (h.free i hnew.fresh).1
  obtain ⟨htree, htaken⟩ := hnew.tree_and_taken h hsite hk ha
  refine ⟨h.balanced.trans hnew.balanced, fun x hx => h.free x (hnew.free x hx), ?_, htree, htaken,
    ?_, ?_⟩
  · intro x hlt hused hne
    exact (h.same x hlt hused hne).trans
      (hnew.same x hlt (fun hfree => hused (h.free x hfree)) hne)
  · intro q es' g' hlen hw
    cases q with
    | nil =>
        rw [walk_nil, Option.some.injEq, Prod.mk.injEq] at hw
        exact ⟨[], f, walk_nil f, hw.1 ▸ List.Forall₂.nil, fun hlong => absurd hlong (by simp)⟩
    | cons j q =>
        have hshort : q.length ≤ d := by simpa using hlen
        by_cases hj : j = k
        · subst hj
          obtain ⟨b, y, es₁, hb, hw₁, rfl⟩ := walk_cons_eq_some.mp hw
          rw [hnew.link_self hi ha, Option.some.injEq, Prod.mk.injEq] at hb
          obtain ⟨rfl, rfl⟩ := hb
          obtain ⟨es, z, hwz, hes, hbytes⟩ := hnew.copied q es₁ g' hshort hw₁
          refine ⟨a :: es, z, walk_cons_eq_some.mpr ⟨a, g, es, hlink, hwz, rfl⟩,
            List.Forall₂.cons (copiedEntry_frameAddr hi a) hes, fun hlong => hbytes ?_⟩
          simpa using hlong
        · rw [hnew.walk_other h hsite.valid hj hshort] at hw
          obtain ⟨es, z, hwz, hes, hbytes⟩ := h.copied (j :: q) es' g' hlen hw
          refine ⟨es, z, hwz, hes, fun hlong hused hne => (hbytes hlong hused hne).trans ?_⟩
          -- the page at the end of the old walk is a node of the child
          obtain ⟨b, y, es₁, hb, hw₁, -⟩ := walk_cons_eq_some.mp hw
          have hnode : g' ∈ below (link hh s₁.mem) (d + 1) c :=
            ⟨j, b, y, hb, walk_mem_footprint hshort hw₁⟩
          obtain ⟨hlt, hused', hne'⟩ := h.node hsite.valid hnode
          exact SamePage.sameBytes (hnew.same g' hlt hused' hne')
  · intro j hj
    have hjk : j ≠ k := by
      rintro rfl
      cases hj with
      | inl hout => exact hout (Set.mem_insert j done)
      | inr hnone =>
          rw [hlink] at hnone
          exact absurd hnone (by simp)
    rw [hnew.entry_other j hjk]
    exact h.empty j (hj.imp (fun hout hmem => hout (Set.mem_insert_of_mem k hmem)) id)

theorem Complete.attach (hc : Complete hh s.mem s₁.mem d f c done)
    (h : Copying hh s s₁ d f c done) (hsite : CopySite hh s d f c) (hk : k ∉ done)
    (hlink : link hh s.mem f k = some (a, g)) (hnew : Attached hh s s₁ s₃ d c k a g i)
    (hall : ∀ q : List Index, q.length ≤ d → walk (link hh s.mem) g q ≠ none →
      walk (link hh s₃.mem) i q ≠ none) : Complete hh s.mem s₃.mem d f c (insert k done) := by
  have ha : HasFlag a ptePresent := (link_eq_some.mp hlink).2.1
  have hi : i < 2 ^ 40 := hsite.valid.lt_limit (h.free i hnew.fresh).1
  intro j hj q hlen hsrc
  by_cases hjk : j = k
  · subst hjk
    rw [walk_cons_of_some hlink, Ne, Option.map_eq_none_iff] at hsrc
    rw [walk_cons_of_some (hnew.link_self hi ha), Ne, Option.map_eq_none_iff]
    exact hall q hlen hsrc
  · rw [hnew.walk_other h hsite.valid hjk hlen]
    exact hc j (Set.mem_of_mem_insert_of_ne hj hjk) q hlen hsrc

/-- A round for an absent entry does nothing. -/
theorem Copying.skip (h : Copying hh s s₁ d f c done) (k : Index) :
    Copying hh s s₁ d f c (insert k done) := by
  refine ⟨h.balanced, h.free, h.same, h.tree, h.taken, h.copied, fun j hj => h.empty j ?_⟩
  exact hj.imp (fun hout hmem => hout (Set.mem_insert_of_mem k hmem)) id

theorem Complete.skip {m m' : Mem} (hc : Complete hh m m' d f c done)
    (hlink : link hh m f k = none) : Complete hh m m' d f c (insert k done) := by
  intro j hj q hlen hsrc
  by_cases hjk : j = k
  · rw [hjk, walk_cons_of_none hlink] at hsrc
    exact absurd rfl hsrc
  · exact hc j (Set.mem_of_mem_insert_of_ne hj hjk) q hlen hsrc

end Attach

/-- How a loop over the entries of a table ends. -/
def LevelSpec (hh : Word) (s : Machine) (d f c : ℕ) (result : Bool × Machine) : Prop :=
  (∃ s', result = (true, s') ∧ Copying hh s s' d f c Set.univ ∧
    Complete hh s.mem s'.mem d f c Set.univ) ∨
  ∃ s', result = (false, s') ∧ (∃ done, Copying hh s s' d f c done) ∧ ∀ x, ¬ s'.pmm.Free x

/-- How one round of it ends. -/
def RoundSpec (hh : Word) (s : Machine) (d f c : ℕ) (done : Set Index) (result : Bool × Machine) :
    Prop :=
  (∃ s', result = (true, s') ∧ Copying hh s s' d f c done ∧ Complete hh s.mem s'.mem d f c done) ∨
  ∃ s', result = (false, s') ∧ (∃ done, Copying hh s s' d f c done) ∧ ∀ x, ¬ s'.pmm.Free x

/-- A loop is correct when its rounds are. -/
theorem levelSpec_of_rounds {hh : Word} {s : Machine} {d f c : ℕ}
    {body : Index → Machine → Bool × Machine}
    (hsite : CopySite hh s d f c)
    (hround : ∀ done k s₁, k ∉ done → Copying hh s s₁ d f c done →
      Complete hh s.mem s₁.mem d f c done → RoundSpec hh s d f c (insert k done) (body k s₁)) :
    LevelSpec hh s d f c (Loop.forEach body indices s) := by
  have hspec := Loop.forEach_spec
    (I := fun done s₁ => Copying hh s s₁ d f c done ∧ Complete hh s.mem s₁.mem d f c done)
    (F := fun s₁ => (∃ done, Copying hh s s₁ d f c done) ∧ ∀ x, ¬ s₁.pmm.Free x)
    (fun done k s₁ hk hI => hround done k s₁ hk hI.1 hI.2) indices (List.nodup_finRange 512)
    (fun k _ => Set.notMem_empty k)
    ⟨hsite.start, fun k hk => absurd hk (Set.notMem_empty k)⟩
  have hall : (∅ : Set Index) ∪ {k | k ∈ indices} = Set.univ := by
    ext k
    simp [indices]
  rw [hall] at hspec
  exact hspec

/-! ## A round that copies a page -/

section Page

variable {hh : Word} {s s₁ : Machine} {f c g i : ℕ} {done : Set Index} {k : Index} {a : Word}

/-- The state after the page in frame `g` has been copied to frame `i`. -/
def copyPage (hh : Word) (s : Machine) (c : ℕ) (k : Index) (g i : ℕ) (flags : Word) : Machine :=
  { pmm := (s.take hh i).pmm
    mem := writeEntry (memcpy (s.take hh i).mem (frameVirt hh i) (frameVirt hh g) 4096#32)
      (frameVirt hh c) k (frameAddr i ||| flags) }

theorem memcpy_samePage {x y : ℕ} (hi : i < 2 ^ 40) (hx : x < 2 ^ 40) (hne : x ≠ i) (m : Mem) :
    SamePage hh m (memcpy m (frameVirt hh i) (frameVirt hh y) 4096#32) x := by
  intro z hz
  unfold memcpy
  rw [rounds_pageSize]
  refine copyUp_of_not_inRange m _ _ (by norm_num) fun hin => hne ?_
  exact frame_eq_of_inFrame (limit_of_lt hx) (limit_of_lt hi) hz hin

theorem memcpy_sameBytes (hi : i < 2 ^ 40) (hg : g < 2 ^ 40) (hne : g ≠ i) (m : Mem) :
    SameBytes hh m (memcpy m (frameVirt hh i) (frameVirt hh g) 4096#32) g i := by
  intro k hk
  unfold memcpy
  rw [rounds_pageSize]
  refine copyUp_offset m _ _ (by norm_num) (fun z hsrc hdest => hne ?_) hk
  exact frame_eq_of_inFrame (limit_of_lt hg) (limit_of_lt hi) hsrc hdest

theorem copyPage_samePage {x : ℕ} {flags : Word} (hi : i < 2 ^ 40) (hc : c < 2 ^ 40)
    (hx : x < 2 ^ 40) (hxi : x ≠ i) (hxc : x ≠ c) :
    SamePage hh s.mem (copyPage hh s c k g i flags).mem x :=
  ((take_samePage (limit_of_lt hi) (limit_of_lt hx) hxi).trans (memcpy_samePage hi hx hxi _)).trans
    (samePage_writeEntry (limit_of_lt hc) (limit_of_lt hx) hxc _ _ _)

theorem copyPage_entry_other {flags : Word} (hi : i < 2 ^ 40) (hc : c < 2 ^ 40) (hci : c ≠ i)
    {j : Index} (hj : j ≠ k) :
    entry hh (copyPage hh s c k g i flags).mem c j = entry hh s.mem c j := by
  have hsame : SamePage hh s.mem
      (memcpy (s.take hh i).mem (frameVirt hh i) (frameVirt hh g) 4096#32) c :=
    (take_samePage (limit_of_lt hi) (limit_of_lt hc) hci).trans (memcpy_samePage hi hc hci _)
  rw [← entry_congr hsame j]
  exact entry_writeEntry_ne hh _ c hj _

theorem copyPage_sameBytes {flags : Word} (hi : i < 2 ^ 40) (hc : c < 2 ^ 40) (hg : g < 2 ^ 40)
    (hgi : g ≠ i) (hic : i ≠ c) :
    SameBytes hh s.mem (copyPage hh s c k g i flags).mem g i := by
  have htake : SameBytes hh s.mem (s.take hh i).mem g g :=
    SamePage.sameBytes (take_samePage (limit_of_lt hi) (limit_of_lt hg) hgi)
  have hwrite : SameBytes hh (memcpy (s.take hh i).mem (frameVirt hh i) (frameVirt hh g) 4096#32)
      (copyPage hh s c k g i flags).mem i i :=
    SamePage.sameBytes (samePage_writeEntry (limit_of_lt hc) (limit_of_lt hi) hic _ _ _)
  exact (htake.trans (memcpy_sameBytes hi hg hgi _)).trans hwrite

theorem attached_copyPage (hsite : CopySite hh s 0 f c) (h : Copying hh s s₁ 0 f c done)
    (hlink : link hh s.mem f k = some (a, g)) (hfree : s₁.pmm.Free i) :
    Attached hh s s₁ (copyPage hh s₁ c k g i (a &&& 0xFFF#64)) 0 c k a g i := by
  have hi : i < 2 ^ 40 := hsite.valid.lt_limit (h.free i hfree).1
  have hg : g < 2 ^ 40 := (link_eq_some.mp hlink).2.2 ▸ frameOf_lt a
  have hci : c ≠ i := by
    rintro rfl
    exact hsite.child_used (h.free c hfree)
  have hnow : ∀ x, (copyPage hh s₁ c k g i (a &&& 0xFFF#64)).pmm.Free x ↔ s₁.pmm.Free x ∧ x ≠ i :=
    free_take hh s₁ i
  refine ⟨balanced_take hh hfree, fun x hx => ((hnow x).mp hx).1, ?_, ?_, ?_, trivial, ?_, ?_⟩
  · intro x hx hused hxc
    refine copyPage_samePage hi hsite.child_lt hx ?_ hxc
    rintro rfl
    exact hused hfree
  · exact fun j hj => copyPage_entry_other hi hsite.child_lt hci hj
  · exact entry_writeEntry_same hh _ c k _
  · intro x
    rw [footprint_zero, Set.mem_singleton_iff, hnow x]
    constructor
    · rintro rfl
      exact ⟨hfree, fun hx => hx.2 rfl⟩
    · intro hx
      by_contra hne
      exact hx.2 ⟨hx.1, hne⟩
  · intro q es' g' hlen hw
    obtain rfl : q = [] := List.length_eq_zero_iff.mp (Nat.le_zero.mp hlen)
    rw [walk_nil, Option.some.injEq, Prod.mk.injEq] at hw
    obtain ⟨rfl, rfl⟩ := hw
    refine ⟨[], g, walk_nil g, List.Forall₂.nil, fun _ hused hne => ?_⟩
    have hgi : g ≠ i := by
      rintro rfl
      exact hused (h.free g hfree)
    exact (SamePage.sameBytes (h.same g hg hused hne)).trans
      (copyPage_sameBytes hi hsite.child_lt hg hgi hci.symm)

/-- The entry of the source that a round reads. -/
theorem Copying.read_src {d : ℕ} (h : Copying hh s s₁ d f c done) (hsite : CopySite hh s d f c) :
    readEntry s₁.mem (frameVirt hh f) k = entry hh s.mem f k := by
  obtain ⟨hused, hne⟩ := hsite.src_used f (mem_footprint_self d f)
  exact entry_congr (h.same f hsite.src_lt hused hne) k

theorem clonePage_round (hsite : CopySite hh s 0 f c) (h : Copying hh s s₁ 0 f c done)
    (hc : Complete hh s.mem s₁.mem 0 f c done) (hk : k ∉ done) :
    RoundSpec hh s 0 f c (insert k done)
      (clonePage hh (frameVirt hh f) (frameVirt hh c) k s₁) := by
  unfold clonePage
  dsimp only
  rw [h.read_src hsite]
  by_cases hpresent : entry hh s.mem f k &&& ptePresent = 0#64
  · rw [if_pos hpresent]
    have hnone := link_of_not_present (not_not.mpr hpresent)
    exact Or.inl ⟨s₁, rfl, h.skip k, hc.skip hnone⟩
  · rw [if_neg hpresent]
    have hlink := link_of_present hpresent
    cases allocatePage_cases hh s₁ with
    | inl hfail =>
        rw [hfail.1]
        exact Or.inr ⟨s₁, if_pos rfl, ⟨done, h⟩, hfail.2⟩
    | inr hok =>
        obtain ⟨i, hfree, -, heq⟩ := hok
        have hne := (h.valid hsite.valid).frameAddr_ne_zero hfree.1
          ((h.valid hsite.valid).ne_zero_of_free hfree)
        have hnew := attached_copyPage hsite h hlink hfree
        rw [heq, pteGetAddr_eq_frameAddr]
        refine Or.inl ⟨_, if_neg hne, h.attach hsite hk hlink hnew,
          hc.attach h hsite hk hlink hnew fun q hlen _ => ?_⟩
        rw [List.length_eq_zero_iff.mp (Nat.le_zero.mp hlen), walk_nil]
        simp

end Page

/-! ## A round that copies a table -/

section Table

variable {hh : Word} {s s₁ : Machine} {e f c g i : ℕ} {done : Set Index} {k : Index} {a : Word}

/-- Where the inner loop starts. -/
theorem copySite_inner (hsite : CopySite hh s (e + 1) f c) (h : Copying hh s s₁ (e + 1) f c done)
    (hlink : link hh s.mem f k = some (a, g)) (hfree : s₁.pmm.Free i) :
    CopySite hh (linkTable hh s₁ c k i (a &&& 0xFFF#64)) e g i ∧
      ∀ x ∈ footprint (link hh s.mem) e g,
        link hh (linkTable hh s₁ c k i (a &&& 0xFFF#64)).mem x = link hh s.mem x := by
  have hi : i < 2 ^ 40 := hsite.valid.lt_limit (h.free i hfree).1
  have hci : c ≠ i := by
    rintro rfl
    exact hsite.child_used (h.free c hfree)
  have hsub : footprint (link hh s.mem) e g ⊆ footprint (link hh s.mem) (e + 1) f :=
    footprint_child_subset hlink
  have hsrc : ∀ x ∈ footprint (link hh s.mem) e g, x < 2 ^ 40 ∧ ¬ s.pmm.Free x ∧ x ≠ c ∧ x ≠ i := by
    intro x hx
    obtain ⟨hused, hxc⟩ := hsite.src_used x (hsub hx)
    refine ⟨hsite.footprint_lt (hsub hx), hused, hxc, ?_⟩
    rintro rfl
    exact hused (h.free x hfree)
  have hsame : ∀ x ∈ footprint (link hh s.mem) e g,
      link hh (linkTable hh s₁ c k i (a &&& 0xFFF#64)).mem x = link hh s.mem x := by
    intro x hx
    obtain ⟨hlt, hused, hxc, hxi⟩ := hsrc x hx
    exact link_congr ((h.same x hlt hused hxc).trans
      (linkTable_samePage hsite.child_lt hi hlt hxc hxi))
  have hfoot := (congr_footprint hsame).1
  refine ⟨⟨?_, (link_eq_some.mp hlink).2.2 ▸ frameOf_lt a, ?_, ?_, hi, ?_, ?_⟩, hsame⟩
  · have htake := (h.valid hsite.valid).take i
    exact htake.of_free rfl htake.zero_used
  · intro x hx
    rw [hfoot] at hx
    obtain ⟨-, hused, -, hxi⟩ := hsrc x hx
    exact ⟨fun hnow => hused (h.free x ((free_take hh s₁ i x).mp hnow).1), hxi⟩
  · intro x hx
    have hx' : x ∈ footprint (link hh s.mem) e g := hfoot ▸ Or.inr hx
    exact hsite.src_reached x ⟨k, a, g, hlink, hx'⟩
  · exact fun hnow => ((free_take hh s₁ i i).mp hnow).2 rfl
  · exact linkTable_entry_fresh hsite.child_lt hi hci

/-- What the inner loop leaves is a copy, attached to the child. -/
theorem attached_inner {s₃ : Machine} {done' : Set Index} (hsite : CopySite hh s (e + 1) f c)
    (h : Copying hh s s₁ (e + 1) f c done) (hlink : link hh s.mem f k = some (a, g))
    (hfree : s₁.pmm.Free i)
    (hinner : Copying hh (linkTable hh s₁ c k i (a &&& 0xFFF#64)) s₃ e g i done') :
    Attached hh s s₁ s₃ (e + 1) c k a g i := by
  have hi : i < 2 ^ 40 := hsite.valid.lt_limit (h.free i hfree).1
  have hci : c ≠ i := by
    rintro rfl
    exact hsite.child_used (h.free c hfree)
  obtain ⟨-, hsrc⟩ := copySite_inner hsite h hlink hfree
  have hnow : ∀ x, (linkTable hh s₁ c k i (a &&& 0xFFF#64)).pmm.Free x ↔ s₁.pmm.Free x ∧ x ≠ i :=
    free_take hh s₁ i
  have hchild : SamePage hh (linkTable hh s₁ c k i (a &&& 0xFFF#64)).mem s₃.mem c :=
    hinner.same c hsite.child_lt
      (fun hx => hsite.child_used (h.free c ((hnow c).mp hx).1)) hci
  refine ⟨(balanced_take hh hfree).trans hinner.balanced,
    fun x hx => ((hnow x).mp (hinner.free x hx)).1, ?_, ?_, ?_, hinner.tree, ?_, ?_⟩
  · intro x hx hused hxc
    have hxi : x ≠ i := by
      rintro rfl
      exact hused hfree
    exact (linkTable_samePage hsite.child_lt hi hx hxc hxi).trans
      (hinner.same x hx (fun hnew => hused ((hnow x).mp hnew).1) hxi)
  · intro j hj
    rw [entry_congr hchild, linkTable_entry_other hsite.child_lt hi hci hj]
  · rw [entry_congr hchild, linkTable_entry_same]
  · intro x
    constructor
    · intro hx
      cases hx with
      | inl hroot =>
          rw [hroot]
          exact ⟨hfree, fun hlate => ((hnow i).mp (hinner.free i hlate)).2 rfl⟩
      | inr hbelow =>
          obtain ⟨hearly, hlate⟩ := (hinner.taken x).mp hbelow
          exact ⟨((hnow x).mp hearly).1, hlate⟩
    · intro hx
      by_cases hxi : x = i
      · exact Or.inl hxi
      · exact Or.inr ((hinner.taken x).mpr ⟨(hnow x).mpr ⟨hx.1, hxi⟩, hx.2⟩)
  · intro q es' g' hlen hw
    obtain ⟨es, y, hwy, hes, hbytes⟩ := hinner.copied q es' g' hlen hw
    rw [(congr_footprint hsrc).2.2 q hlen] at hwy
    refine ⟨es, y, hwy, hes, fun hlong hused hyc => ?_⟩
    have hy : y < 2 ^ 40 := walk_lt ((link_eq_some.mp hlink).2.2 ▸ frameOf_lt a) hwy
    have hyi : y ≠ i := by
      rintro rfl
      exact hused (h.free y hfree)
    have hearly : SamePage hh s.mem (linkTable hh s₁ c k i (a &&& 0xFFF#64)).mem y :=
      (h.same y hy hused hyc).trans (linkTable_samePage hsite.child_lt hi hy hyc hyi)
    exact (SamePage.sameBytes hearly).trans
      (hbytes hlong (fun hnew => hused (h.free y ((hnow y).mp hnew).1)) hyi)

theorem cloneTable_round {inner : Word → Word → Machine → Bool × Machine}
    (hinner : ∀ s f c, CopySite hh s e f c →
      LevelSpec hh s e f c (inner (frameVirt hh f) (frameVirt hh c) s))
    (hsite : CopySite hh s (e + 1) f c) (h : Copying hh s s₁ (e + 1) f c done)
    (hc : Complete hh s.mem s₁.mem (e + 1) f c done) (hk : k ∉ done) :
    RoundSpec hh s (e + 1) f c (insert k done)
      (cloneTable hh inner (frameVirt hh f) (frameVirt hh c) k s₁) := by
  unfold cloneTable
  dsimp only
  rw [h.read_src hsite]
  by_cases hpresent : entry hh s.mem f k &&& ptePresent = 0#64
  · rw [if_pos hpresent]
    have hnone := link_of_not_present (not_not.mpr hpresent)
    exact Or.inl ⟨s₁, rfl, h.skip k, hc.skip hnone⟩
  rw [if_neg hpresent]
  have hlink := link_of_present hpresent
  generalize entry hh s.mem f k = a at hlink ⊢
  generalize frameOf a = g at hlink
  have hlink₁ : link hh s₁.mem f k = some (a, g) := by
    rw [h.link_src hsite (mem_footprint_self _ f)]
    exact hlink
  rw [vmmGetNextLevel_of_present hlink₁,
    if_neg (hsite.src_reached g ⟨k, a, g, hlink, mem_footprint_self _ g⟩)]
  cases allocatePage_cases hh s₁ with
  | inl hfail =>
      rw [hfail.1]
      exact Or.inr ⟨s₁, if_pos rfl, ⟨done, h⟩, hfail.2⟩
  | inr hok =>
      obtain ⟨i, hfree, -, heq⟩ := hok
      have hne := (h.valid hsite.valid).frameAddr_ne_zero hfree.1
        ((h.valid hsite.valid).ne_zero_of_free hfree)
      obtain ⟨hsite', hsrc⟩ := copySite_inner hsite h hlink hfree
      rw [heq]
      simp only [if_neg hne]
      have hlevel : LevelSpec hh (linkTable hh s₁ c k i (a &&& 0xFFF#64)) e g i
          (inner (frameVirt hh g) (frameVirt hh i) (linkTable hh s₁ c k i (a &&& 0xFFF#64))) :=
        hinner _ g i hsite'
      cases hlevel with
      | inl hdone =>
          obtain ⟨s₃, hs₃, hcopy, hall⟩ := hdone
          have hnew := attached_inner hsite h hlink hfree hcopy
          refine Or.inl ⟨s₃, hs₃, h.attach hsite hk hlink hnew,
            hc.attach h hsite hk hlink hnew fun q hlen hq => ?_⟩
          cases q with
          | nil =>
              rw [walk_nil]
              simp
          | cons j q =>
              rw [← (congr_footprint hsrc).2.2 (j :: q) hlen] at hq
              exact hall j (Set.mem_univ j) q (by simpa using hlen) hq
      | inr hstuck =>
          obtain ⟨s₃, hs₃, ⟨done', hcopy⟩, hnone⟩ := hstuck
          have hnew := attached_inner hsite h hlink hfree hcopy
          exact Or.inr ⟨s₃, hs₃, ⟨_, h.attach hsite hk hlink hnew⟩, hnone⟩

end Table

/-- Every level copies the tables and pages below it, or runs out of frames on the way. -/
theorem cloneLevel_spec (hh : Word) (d : ℕ) (s : Machine) (f c : ℕ) (hsite : CopySite hh s d f c) :
    LevelSpec hh s d f c (cloneLevel hh d (frameVirt hh f) (frameVirt hh c) s) := by
  induction d generalizing s f c with
  | zero =>
      rw [cloneLevel_zero]
      exact levelSpec_of_rounds hsite fun done k s₁ hk h hc => clonePage_round hsite h hc hk
  | succ d ih =>
      rw [cloneLevel_succ]
      exact levelSpec_of_rounds hsite fun done k s₁ hk h hc => cloneTable_round ih hsite h hc hk

end Osiris.Clone
