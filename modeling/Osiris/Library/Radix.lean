import Mathlib.Data.Set.Basic
import Mathlib.Tactic

/-! # Radix trees laid out in a store

A store maps a node and a key to a labelled edge. A radix tree of depth `d` is a node from
which no two paths of at most `d` keys lead to the same node. Its footprint is the set of
nodes such paths reach; two footprints below one node are disjoint, so a change inside one
subtree cannot be seen from another. -/

namespace Osiris.Radix

variable {ν κ ℓ : Type*}

/-- The edges of a linked structure: where each key leads from each node, and its label. -/
abbrev Store (ν κ ℓ : Type*) := ν → κ → Option (ℓ × ν)

/-- Follow a path of keys, collecting the labels on the way. -/
def walk (S : Store ν κ ℓ) : ν → List κ → Option (List ℓ × ν)
  | f, [] => some ([], f)
  | f, k :: p => (S f k).bind fun edge =>
      (walk S edge.2 p).map fun rest => (edge.1 :: rest.1, rest.2)

/-- The nodes at most `d` edges below `f`, without `f` itself. -/
def below (S : Store ν κ ℓ) : ℕ → ν → Set ν
  | 0, _ => ∅
  | d + 1, f => {g | ∃ k a h, S f k = some (a, h) ∧ (g = h ∨ g ∈ below S d h)}

/-- The nodes at most `d` edges below `f`, with `f` itself. -/
def footprint (S : Store ν κ ℓ) (d : ℕ) (f : ν) : Set ν :=
  insert f (below S d f)

/-- No node within `d` edges of `f` is reached twice. -/
def IsTree (S : Store ν κ ℓ) : ℕ → ν → Prop
  | 0, _ => True
  | d + 1, f =>
      (∀ k a h, S f k = some (a, h) → IsTree S d h ∧ f ∉ footprint S d h) ∧
      ∀ k k' a a' h h', S f k = some (a, h) → S f k' = some (a', h') → k ≠ k' →
        Disjoint (footprint S d h) (footprint S d h')

/-! ## Walks -/

variable {S S' : Store ν κ ℓ}

@[simp] theorem walk_nil (f : ν) : walk S f [] = some ([], f) := rfl

theorem walk_cons_of_some {f h : ν} {k : κ} {a : ℓ} (hk : S f k = some (a, h)) (p : List κ) :
    walk S f (k :: p) = (walk S h p).map fun rest => (a :: rest.1, rest.2) := by
  simp [walk, hk]

theorem walk_cons_of_none {f : ν} {k : κ} (hk : S f k = none) (p : List κ) :
    walk S f (k :: p) = none := by
  simp [walk, hk]

/-- A successful walk starts with an edge and goes on from its target. -/
theorem walk_cons_eq_some {f g : ν} {k : κ} {p : List κ} {es : List ℓ} :
    walk S f (k :: p) = some (es, g) ↔
      ∃ a h es', S f k = some (a, h) ∧ walk S h p = some (es', g) ∧ es = a :: es' := by
  constructor
  · intro hw
    cases hk : S f k with
    | none => simp [walk, hk] at hw
    | some edge =>
        obtain ⟨a, h⟩ := edge
        rw [walk_cons_of_some hk, Option.map_eq_some_iff] at hw
        obtain ⟨⟨es', g'⟩, hw', heq⟩ := hw
        simp only [Prod.mk.injEq] at heq
        obtain ⟨rfl, rfl⟩ := heq
        exact ⟨a, h, es', rfl, hw', rfl⟩
  · rintro ⟨a, h, es', hk, hw, rfl⟩
    rw [walk_cons_of_some hk, hw]
    rfl

theorem walk_append {f g : ν} {p : List κ} {es : List ℓ} (hp : walk S f p = some (es, g))
    (q : List κ) :
    walk S f (p ++ q) = (walk S g q).map fun rest => (es ++ rest.1, rest.2) := by
  induction p generalizing f es with
  | nil =>
      simp only [walk_nil, Option.some.injEq, Prod.mk.injEq] at hp
      obtain ⟨rfl, rfl⟩ := hp
      simp
  | cons k p ih =>
      obtain ⟨a, h, es', hk, hw, rfl⟩ := walk_cons_eq_some.mp hp
      rw [List.cons_append, walk_cons_of_some hk, ih hw]
      cases walk S g q <;> simp

theorem walk_snoc {f g h : ν} {p : List κ} {es : List ℓ} {k : κ} {a : ℓ}
    (hp : walk S f p = some (es, g)) (hk : S g k = some (a, h)) :
    walk S f (p ++ [k]) = some (es ++ [a], h) := by
  rw [walk_append hp, walk_cons_of_some hk]
  rfl

theorem walk_snoc_eq_some {f g : ν} {p : List κ} {es : List ℓ} {k : κ} :
    walk S f (p ++ [k]) = some (es, g) ↔
      ∃ es' x a, walk S f p = some (es', x) ∧ S x k = some (a, g) ∧ es = es' ++ [a] := by
  induction p generalizing f es with
  | nil =>
      rw [List.nil_append, walk_cons_eq_some]
      constructor
      · rintro ⟨a, h, es', hk, hw, rfl⟩
        obtain ⟨rfl, rfl⟩ := Prod.mk.inj (Option.some.inj hw)
        exact ⟨[], f, a, rfl, hk, rfl⟩
      · rintro ⟨es', x, a, hw, hk, rfl⟩
        obtain ⟨rfl, rfl⟩ := Prod.mk.inj (Option.some.inj hw)
        exact ⟨a, g, [], hk, rfl, rfl⟩
  | cons j p ih =>
      rw [List.cons_append, walk_cons_eq_some]
      simp only [walk_cons_eq_some, ih]
      constructor
      · rintro ⟨b, y, es₁, hj, ⟨es', x, a, hw, hk, rfl⟩, rfl⟩
        exact ⟨b :: es', x, a, ⟨b, y, es', hj, hw, rfl⟩, hk, rfl⟩
      · rintro ⟨es₁, x, a, ⟨b, y, es', hj, hw, rfl⟩, hk, rfl⟩
        exact ⟨b, y, es' ++ [a], hj, ⟨es', x, a, hw, hk, rfl⟩, rfl⟩

/-- Every label of a walk is on an edge of it. -/
theorem exists_edge_of_mem_walk {f g : ν} {p : List κ} {es : List ℓ} {a : ℓ}
    (hw : walk S f p = some (es, g)) (ha : a ∈ es) :
    ∃ q es' x k h, q.length < p.length ∧ walk S f q = some (es', x) ∧ S x k = some (a, h) := by
  induction p generalizing f es with
  | nil =>
      simp only [walk_nil, Option.some.injEq, Prod.mk.injEq] at hw
      simp [← hw.1] at ha
  | cons j p ih =>
      obtain ⟨b, y, es₁, hj, hwp, rfl⟩ := walk_cons_eq_some.mp hw
      rcases List.mem_cons.mp ha with rfl | ha
      · exact ⟨[], [], f, j, y, by simp, rfl, hj⟩
      · obtain ⟨q, es', x, k, h, hlen, hwq, hk⟩ := ih hwp ha
        exact ⟨j :: q, b :: es', x, k, h, by simpa using hlen,
          walk_cons_eq_some.mpr ⟨b, y, es', hj, hwq, rfl⟩, hk⟩

/-- Two stores that agree on the walks to an edge agree on the edge. -/
theorem edge_of_walk_eq {r f g : ν} {p : List κ} {es : List ℓ} {k : κ} {a : ℓ}
    (hp : walk S' r p = walk S r p) (hpk : walk S' r (p ++ [k]) = walk S r (p ++ [k]))
    (hw : walk S r p = some (es, f)) (hk : S f k = some (a, g)) : S' f k = some (a, g) := by
  rw [walk_snoc hw hk] at hpk
  obtain ⟨es', x, b, hx, hb, heq⟩ := walk_snoc_eq_some.mp hpk
  rw [hp, hw] at hx
  obtain ⟨rfl, rfl⟩ := Prod.mk.inj (Option.some.inj hx)
  obtain rfl : a = b := by simpa using heq
  exact hb

theorem walk_length {f g : ν} {p : List κ} {es : List ℓ} (hp : walk S f p = some (es, g)) :
    es.length = p.length := by
  induction p generalizing f es with
  | nil =>
      simp only [walk_nil, Option.some.injEq, Prod.mk.injEq] at hp
      simp [← hp.1]
  | cons k p ih =>
      obtain ⟨a, h, es', -, hw, rfl⟩ := walk_cons_eq_some.mp hp
      simp [ih hw]

/-- A store with fewer edges has fewer walks. -/
theorem walk_of_subset (h : ∀ f k edge, S' f k = some edge → S f k = some edge) {f : ν}
    {p : List κ} {t : List ℓ × ν} (hw : walk S' f p = some t) : walk S f p = some t := by
  induction p generalizing f t with
  | nil => exact hw
  | cons k p ih =>
      obtain ⟨a, g, es, hk, hrest, hes⟩ := walk_cons_eq_some.mp (show _ = some (t.1, t.2) from hw)
      refine walk_cons_eq_some.mpr ⟨a, g, es, h f k _ hk, ih hrest, hes⟩

/-! ## Missing nodes -/

/-- The number of nodes that a path lacks. -/
def missing (S : Store ν κ ℓ) : ν → List κ → ℕ
  | _, [] => 0
  | f, k :: p =>
      match S f k with
      | none => p.length + 1
      | some (_, g) => missing S g p

theorem missing_cons_of_none {f : ν} {k : κ} (hk : S f k = none) (p : List κ) :
    missing S f (k :: p) = p.length + 1 := by
  simp only [missing, hk]

theorem missing_cons_of_some {f h : ν} {k : κ} {a : ℓ} (hk : S f k = some (a, h)) (p : List κ) :
    missing S f (k :: p) = missing S h p := by
  simp only [missing, hk]

/-- A node without edges lacks all of a path. -/
theorem missing_of_empty {f : ν} (h : ∀ k, S f k = none) (p : List κ) :
    missing S f p = p.length := by
  cases p with
  | nil => rfl
  | cons k p => exact missing_cons_of_none (h k) p

/-! ## Footprints -/

theorem mem_footprint_self (d : ℕ) (f : ν) : f ∈ footprint S d f :=
  Set.mem_insert f _

@[simp] theorem footprint_zero (f : ν) : footprint S 0 f = {f} := by
  ext g
  simp [footprint, below]

theorem mem_below_succ {d : ℕ} {f g : ν} :
    g ∈ below S (d + 1) f ↔ ∃ k a h, S f k = some (a, h) ∧ g ∈ footprint S d h := Iff.rfl

theorem mem_footprint_succ {d : ℕ} {f g : ν} :
    g ∈ footprint S (d + 1) f ↔ g = f ∨ ∃ k a h, S f k = some (a, h) ∧ g ∈ footprint S d h := Iff.rfl

theorem below_of_subset (h : ∀ f k edge, S' f k = some edge → S f k = some edge) (d : ℕ) (f : ν) :
    below S' d f ⊆ below S d f := by
  induction d generalizing f with
  | zero => exact subset_rfl
  | succ d ih =>
      rintro g ⟨k, a, next, hk, hg⟩
      exact ⟨k, a, next, h f k _ hk, hg.imp_right fun hbelow => ih next hbelow⟩

/-- A node without edges is its own footprint. -/
theorem footprint_of_empty {f : ν} (h : ∀ k, S f k = none) (d : ℕ) : footprint S d f = {f} := by
  cases d with
  | zero => simp
  | succ d =>
      ext g
      simp [mem_footprint_succ, h]

theorem isTree_of_empty {f : ν} (h : ∀ k, S f k = none) (d : ℕ) : IsTree S d f := by
  cases d with
  | zero => trivial
  | succ d => exact ⟨fun k a g hk => by simp [h] at hk, fun k _ a _ g _ hk => by simp [h] at hk⟩

/-- Looking further down finds more nodes. -/
theorem below_subset_succ (d : ℕ) (f : ν) : below S d f ⊆ below S (d + 1) f := by
  induction d generalizing f with
  | zero => exact Set.empty_subset _
  | succ d ih =>
      rintro g ⟨k, a, h, hk, hg⟩
      exact ⟨k, a, h, hk, hg.imp id fun hbelow => ih h hbelow⟩

theorem footprint_subset_succ (d : ℕ) (f : ν) : footprint S d f ⊆ footprint S (d + 1) f :=
  fun _ hg => hg.imp id fun hbelow => below_subset_succ d f hbelow

theorem footprint_child_subset {d : ℕ} {f h : ν} {k : κ} {a : ℓ} (hk : S f k = some (a, h)) :
    footprint S d h ⊆ footprint S (d + 1) f :=
  fun _ hg => Or.inr ⟨k, a, h, hk, hg⟩

theorem footprint_walk_subset {p : List κ} {f g : ν} {es : List ℓ} {d e : ℕ}
    (hd : d = p.length + e) (hw : walk S f p = some (es, g)) :
    footprint S e g ⊆ footprint S d f := by
  induction p generalizing f es d with
  | nil =>
      simp only [walk_nil, Option.some.injEq, Prod.mk.injEq] at hw
      obtain ⟨rfl, rfl⟩ := hw
      simp [hd]
  | cons k p ih =>
      obtain ⟨a, h, es', hk, hw', rfl⟩ := walk_cons_eq_some.mp hw
      obtain ⟨d, rfl⟩ : ∃ n, d = n + 1 := ⟨p.length + e, by simp [hd]; omega⟩
      have hsub := ih (d := d) (by simp at hd; omega) hw'
      exact hsub.trans (footprint_child_subset hk)

theorem below_walk_subset {p : List κ} {f g : ν} {es : List ℓ} {d e : ℕ}
    (hd : d = p.length + e) (hw : walk S f p = some (es, g)) : below S e g ⊆ below S d f := by
  cases p with
  | nil =>
      simp only [walk_nil, Option.some.injEq, Prod.mk.injEq] at hw
      obtain ⟨rfl, rfl⟩ := hw
      simp [hd]
  | cons k p =>
      obtain ⟨a, h, es', hk, hw', rfl⟩ := walk_cons_eq_some.mp hw
      obtain ⟨d, rfl⟩ : ∃ n, d = n + 1 := ⟨p.length + e, by simp [hd]; omega⟩
      intro x hx
      exact ⟨k, a, h, hk, footprint_walk_subset (by simp at hd; omega) hw' (Or.inr hx)⟩

theorem walk_mem_footprint {p : List κ} {f g : ν} {es : List ℓ} {d : ℕ} (hd : p.length ≤ d)
    (hw : walk S f p = some (es, g)) : g ∈ footprint S d f :=
  footprint_walk_subset (e := d - p.length) (by omega) hw (mem_footprint_self _ g)

theorem exists_walk_of_mem {d : ℕ} {f g : ν} (hg : g ∈ footprint S d f) :
    ∃ p es, p.length ≤ d ∧ walk S f p = some (es, g) := by
  induction d generalizing f with
  | zero =>
      rw [footprint_zero] at hg
      exact ⟨[], [], le_rfl, by rw [Set.mem_singleton_iff.mp hg, walk_nil]⟩
  | succ d ih =>
      rcases mem_footprint_succ.mp hg with rfl | ⟨k, a, h, hk, hg⟩
      · exact ⟨[], [], by simp, rfl⟩
      · obtain ⟨p, es, hp, hw⟩ := ih hg
        exact ⟨k :: p, a :: es, by simpa using hp, walk_cons_eq_some.mpr ⟨a, h, es, hk, hw, rfl⟩⟩

/-! ## Trees -/

theorem IsTree.child {d : ℕ} {f h : ν} {k : κ} {a : ℓ} (hT : IsTree S (d + 1) f)
    (hk : S f k = some (a, h)) : IsTree S d h :=
  (hT.1 k a h hk).1

theorem IsTree.not_mem_child {d : ℕ} {f h : ν} {k : κ} {a : ℓ} (hT : IsTree S (d + 1) f)
    (hk : S f k = some (a, h)) : f ∉ footprint S d h :=
  (hT.1 k a h hk).2

theorem IsTree.not_mem_below {d : ℕ} {f : ν} (hT : IsTree S d f) : f ∉ below S d f := by
  cases d with
  | zero => exact fun h => h
  | succ d =>
      rintro ⟨k, a, h, hk, hf⟩
      exact hT.not_mem_child hk hf

/-- A store that agrees on a footprint has the same footprint, tree and walks there. -/
theorem congr_footprint {d : ℕ} {f : ν} (h : ∀ g ∈ footprint S d f, S' g = S g) :
    footprint S' d f = footprint S d f ∧ (IsTree S d f → IsTree S' d f) ∧
      ∀ q : List κ, q.length ≤ d + 1 → walk S' f q = walk S f q := by
  induction d generalizing f with
  | zero =>
      refine ⟨by simp, fun _ => trivial, fun q hq => ?_⟩
      have hf := h f (mem_footprint_self 0 f)
      cases q with
      | nil => rfl
      | cons k q =>
          have hq : q = [] := by
            simp only [List.length_cons] at hq
            exact List.length_eq_zero_iff.mp (by omega)
          subst hq
          simp [walk, hf]
  | succ d ih =>
      have hf := h f (mem_footprint_self _ f)
      have hchild : ∀ k a g, S f k = some (a, g) → ∀ x ∈ footprint S d g, S' x = S x :=
        fun k a g hk x hx => h x (footprint_child_subset hk hx)
      refine ⟨?_, ?_, ?_⟩
      · ext g
        simp only [mem_footprint_succ, hf]
        refine or_congr_right ⟨?_, ?_⟩
        · rintro ⟨k, a, x, hk, hx⟩
          exact ⟨k, a, x, hk, (ih (hchild k a x hk)).1 ▸ hx⟩
        · rintro ⟨k, a, x, hk, hx⟩
          exact ⟨k, a, x, hk, (ih (hchild k a x hk)).1.symm ▸ hx⟩
      · intro hT
        refine ⟨fun k a x hk => ?_, fun k k' a a' x x' hk hk' hne => ?_⟩
        · rw [hf] at hk
          obtain ⟨hfoot, htree, -⟩ := ih (hchild k a x hk)
          exact ⟨htree (hT.child hk), hfoot ▸ hT.not_mem_child hk⟩
        · rw [hf] at hk hk'
          rw [(ih (hchild k a x hk)).1, (ih (hchild k' a' x' hk')).1]
          exact hT.2 k k' a a' x x' hk hk' hne
      · intro q hq
        cases q with
        | nil => rfl
        | cons k q =>
            cases hk : S f k with
            | none => rw [walk_cons_of_none hk, walk_cons_of_none (by rw [hf, hk])]
            | some edge =>
                obtain ⟨a, x⟩ := edge
                have hq' : q.length ≤ d + 1 := by simpa using hq
                rw [walk_cons_of_some hk, walk_cons_of_some (a := a) (h := x) (by rw [hf, hk]),
                  (ih (hchild k a x hk)).2.2 q hq']

/-- Replacing the subtree at the end of a path, by one that takes no node of the rest, changes
nothing else: paths that leave the given one see the old store. -/
theorem replace_subtree {p : List κ} {r f : ν} {es : List ℓ} {d e : ℕ} (hd : d = p.length + e)
    (hT : IsTree S d r) (hw : walk S r p = some (es, f))
    (hout : ∀ g ∈ footprint S d r, g ∉ footprint S e f → S' g = S g)
    (hT' : IsTree S' e f)
    (hnew : ∀ g ∈ footprint S' e f, g ∈ footprint S d r → g ∈ footprint S e f) :
    IsTree S' d r ∧
      (∀ g, g ∈ footprint S' d r ↔
        (g ∈ footprint S d r ∧ g ∉ footprint S e f) ∨ g ∈ footprint S' e f) ∧
      walk S' r p = some (es, f) ∧
      ∀ q : List κ, q.length ≤ d + 1 → ¬ p <+: q → walk S' r q = walk S r q := by
  induction p generalizing r es d with
  | nil =>
      simp only [walk_nil, Option.some.injEq, Prod.mk.injEq] at hw
      obtain ⟨rfl, rfl⟩ := hw
      obtain rfl : d = e := by simpa using hd
      refine ⟨hT', fun g => ?_, rfl, fun q _ hq => absurd (List.nil_prefix) hq⟩
      simp
  | cons j p ih =>
      obtain ⟨a, x, es', hj, hw', rfl⟩ := walk_cons_eq_some.mp hw
      obtain ⟨d, rfl⟩ : ∃ n, d = n + 1 := ⟨p.length + e, by simp [hd]; omega⟩
      have hd' : d = p.length + e := by simp at hd; omega
      have hsub : footprint S e f ⊆ footprint S d x := footprint_walk_subset hd' hw'
      have hxr : footprint S d x ⊆ footprint S (d + 1) r := footprint_child_subset hj
      have hrx : r ∉ footprint S d x := hT.not_mem_child hj
      have hr : S' r = S r := hout r (mem_footprint_self _ r) fun h => hrx (hsub h)
      -- the subtree that holds the path is replaced by induction
      obtain ⟨ihT, ihF, ihw, ihq⟩ := ih hd' (hT.child hj) hw'
        (fun g hg => hout g (hxr hg)) (fun g hg hx => hnew g hg (hxr hx))
      -- its siblings are disjoint from it and keep their stores
      have hsib : ∀ k b y, S r k = some (b, y) → k ≠ j → ∀ g ∈ footprint S d y, S' g = S g := by
        intro k b y hk hkj g hg
        refine hout g (footprint_child_subset hk hg) fun hgf => ?_
        exact Set.disjoint_left.mp (hT.2 k j b a y x hk hj hkj) hg (hsub hgf)
      have hxnew : ∀ g ∈ footprint S' d x, g ∈ footprint S (d + 1) r → g ∈ footprint S d x := by
        intro g hg hgr
        rcases (ihF g).mp hg with ⟨hgx, -⟩ | hgf
        · exact hgx
        · exact hsub (hnew g hgf hgr)
      have hdisj : ∀ k b y, S r k = some (b, y) → k ≠ j →
          Disjoint (footprint S' d y) (footprint S' d x) := by
        intro k b y hk hkj
        rw [(congr_footprint (hsib k b y hk hkj)).1, Set.disjoint_left]
        intro g hgy hgx
        have hgx' := hxnew g hgx (footprint_child_subset hk hgy)
        exact Set.disjoint_left.mp (hT.2 k j b a y x hk hj hkj) hgy hgx'
      refine ⟨⟨?_, ?_⟩, ?_, ?_, ?_⟩
      · intro k b y hk
        rw [hr] at hk
        by_cases hkj : k = j
        · subst hkj
          obtain ⟨rfl, rfl⟩ : a = b ∧ x = y := by simpa [hj] using hk
          exact ⟨ihT, fun h => hrx (hxnew r h (mem_footprint_self _ r))⟩
        · obtain ⟨hfoot, htree, -⟩ := congr_footprint (hsib k b y hk hkj)
          exact ⟨htree (hT.child hk), hfoot ▸ hT.not_mem_child hk⟩
      · intro k k' b b' y y' hk hk' hne
        rw [hr] at hk hk'
        by_cases hkj : k = j
        · subst hkj
          obtain ⟨rfl, rfl⟩ : a = b ∧ x = y := by simpa [hj] using hk
          exact (hdisj k' b' y' hk' hne.symm).symm
        · by_cases hkj' : k' = j
          · subst hkj'
            obtain ⟨rfl, rfl⟩ : a = b' ∧ x = y' := by simpa [hj] using hk'
            exact hdisj k b y hk hkj
          · rw [(congr_footprint (hsib k b y hk hkj)).1,
              (congr_footprint (hsib k' b' y' hk' hkj')).1]
            exact hT.2 k k' b b' y y' hk hk' hne
      · intro g
        simp only [mem_footprint_succ, hr]
        constructor
        · rintro (rfl | ⟨k, b, y, hk, hg⟩)
          · exact Or.inl ⟨Or.inl rfl, fun h => hrx (hsub h)⟩
          · by_cases hkj : k = j
            · subst hkj
              obtain ⟨rfl, rfl⟩ : a = b ∧ x = y := by simpa [hj] using hk
              rcases (ihF g).mp hg with ⟨hgx, hgf⟩ | hgf
              · exact Or.inl ⟨Or.inr ⟨k, a, x, hk, hgx⟩, hgf⟩
              · exact Or.inr hgf
            · rw [(congr_footprint (hsib k b y hk hkj)).1] at hg
              refine Or.inl ⟨Or.inr ⟨k, b, y, hk, hg⟩, fun hgf => ?_⟩
              exact Set.disjoint_left.mp (hT.2 k j b a y x hk hj hkj) hg (hsub hgf)
        · rintro (⟨rfl | ⟨k, b, y, hk, hg⟩, hgf⟩ | hg)
          · exact Or.inl rfl
          · right
            by_cases hkj : k = j
            · subst hkj
              obtain ⟨rfl, rfl⟩ : a = b ∧ x = y := by simpa [hj] using hk
              exact ⟨k, a, x, hk, (ihF g).mpr (Or.inl ⟨hg, hgf⟩)⟩
            · exact ⟨k, b, y, hk, (congr_footprint (hsib k b y hk hkj)).1.symm ▸ hg⟩
          · exact Or.inr ⟨j, a, x, hj, (ihF g).mpr (Or.inr hg)⟩
      · exact walk_cons_eq_some.mpr ⟨a, x, es', by rw [hr, hj], ihw, rfl⟩
      · intro q hq hpq
        cases q with
        | nil => rfl
        | cons k q =>
            have hq' : q.length ≤ d + 1 := by simpa using hq
            cases hk : S r k with
            | none => rw [walk_cons_of_none hk, walk_cons_of_none (by rw [hr, hk])]
            | some edge =>
                obtain ⟨b, y⟩ := edge
                rw [walk_cons_of_some hk, walk_cons_of_some (a := b) (h := y) (by rw [hr, hk])]
                by_cases hkj : k = j
                · subst hkj
                  obtain ⟨rfl, rfl⟩ : a = b ∧ x = y := by simpa [hj] using hk
                  rw [ihq q hq' fun h => hpq (List.prefix_cons_inj k |>.mpr h)]
                · rw [(congr_footprint (hsib k b y hk hkj)).2.2 q hq']

theorem IsTree.walk {d e : ℕ} {r f : ν} {p : List κ} {es : List ℓ} (hd : d = p.length + e)
    (hT : IsTree S d r) (hw : walk S r p = some (es, f)) : IsTree S e f := by
  induction p generalizing r es d with
  | nil =>
      simp only [walk_nil, Option.some.injEq, Prod.mk.injEq] at hw
      obtain ⟨rfl, rfl⟩ := hw
      simpa [hd] using hT
  | cons k p ih =>
      obtain ⟨a, h, es', hk, hw', rfl⟩ := walk_cons_eq_some.mp hw
      obtain ⟨d, rfl⟩ : ∃ n, d = n + 1 := ⟨p.length + e, by simp [hd]; omega⟩
      exact ih (by simp at hd; omega) (hT.child hk) hw'

/-- Hanging a tree of new nodes on an unused key of a tree. -/
theorem graft {f g : ν} {k : κ} {a : ℓ} {e : ℕ} (hT : IsTree S (e + 1) f) (hk : S f k = none)
    (hk' : S' f k = some (a, g)) (hkeys : ∀ j, j ≠ k → S' f j = S f j) (hg : IsTree S' e g)
    (hfresh : ∀ x ∈ footprint S' e g, x ∉ footprint S (e + 1) f)
    (hrest : ∀ x ∈ below S (e + 1) f, S' x = S x) :
    IsTree S' (e + 1) f ∧
      ∀ x, x ∈ footprint S' (e + 1) f ↔ x ∈ footprint S (e + 1) f ∨ x ∈ footprint S' e g := by
  have hsib : ∀ j b y, S f j = some (b, y) → ∀ x ∈ footprint S e y, S' x = S x :=
    fun j b y hj x hx => hrest x ⟨j, b, y, hj, hx⟩
  -- an edge of the new store is the grafted one or an old one
  have hcase : ∀ j b y, S' f j = some (b, y) →
      (j = k ∧ b = a ∧ y = g) ∨ (j ≠ k ∧ S f j = some (b, y)) := by
    intro j b y hj
    by_cases hjk : j = k
    · subst hjk
      simp only [hk', Option.some.injEq, Prod.mk.injEq] at hj
      exact Or.inl ⟨rfl, hj.1.symm, hj.2.symm⟩
    · exact Or.inr ⟨hjk, by rw [← hkeys j hjk, hj]⟩
  refine ⟨⟨?_, ?_⟩, ?_⟩
  · intro j b y hj
    rcases hcase j b y hj with ⟨rfl, rfl, rfl⟩ | ⟨-, hj'⟩
    · exact ⟨hg, fun h => hfresh f h (mem_footprint_self _ f)⟩
    · obtain ⟨hfoot, htree, -⟩ := congr_footprint (hsib j b y hj')
      exact ⟨htree (hT.child hj'), hfoot ▸ hT.not_mem_child hj'⟩
  · intro j j' b b' y y' hj hj' hne
    rcases hcase j b y hj with ⟨rfl, rfl, rfl⟩ | ⟨-, hj⟩
    · rcases hcase j' b' y' hj' with ⟨rfl, -, -⟩ | ⟨-, hj'⟩
      · exact absurd rfl hne
      · rw [(congr_footprint (hsib j' b' y' hj')).1, Set.disjoint_left]
        exact fun x hx hx' => hfresh x hx (footprint_child_subset hj' hx')
    · rcases hcase j' b' y' hj' with ⟨rfl, rfl, rfl⟩ | ⟨-, hj'⟩
      · rw [(congr_footprint (hsib j b y hj)).1, Set.disjoint_right]
        exact fun x hx hx' => hfresh x hx (footprint_child_subset hj hx')
      · rw [(congr_footprint (hsib j b y hj)).1, (congr_footprint (hsib j' b' y' hj')).1]
        exact hT.2 j j' b b' y y' hj hj' hne
  · intro x
    simp only [mem_footprint_succ]
    constructor
    · rintro (rfl | ⟨j, b, y, hj, hx⟩)
      · exact Or.inl (Or.inl rfl)
      · rcases hcase j b y hj with ⟨rfl, rfl, rfl⟩ | ⟨-, hj'⟩
        · exact Or.inr hx
        · exact Or.inl (Or.inr ⟨j, b, y, hj', (congr_footprint (hsib j b y hj')).1 ▸ hx⟩)
    · rintro ((rfl | ⟨j, b, y, hj, hx⟩) | hx)
      · exact Or.inl rfl
      · have hjk : j ≠ k := by
          rintro rfl
          simp [hk] at hj
        refine Or.inr ⟨j, b, y, by rw [hkeys j hjk, hj], ?_⟩
        exact (congr_footprint (hsib j b y hj)).1.symm ▸ hx
      · exact Or.inr ⟨k, a, g, hk', hx⟩

/-- Cutting the subtree of one key off a tree. -/
theorem prune {f g : ν} {k : κ} {a : ℓ} {e : ℕ} (hT : IsTree S (e + 1) f)
    (hk : S f k = some (a, g)) (hk' : S' f k = none) (hkeys : ∀ j, j ≠ k → S' f j = S f j)
    (hrest : ∀ x ∈ below S (e + 1) f, x ∉ footprint S e g → S' x = S x) :
    IsTree S' (e + 1) f ∧
      ∀ x, x ∈ footprint S' (e + 1) f ↔ x ∈ footprint S (e + 1) f ∧ x ∉ footprint S e g := by
  have hcase : ∀ j b y, S' f j = some (b, y) → j ≠ k ∧ S f j = some (b, y) := by
    intro j b y hj
    have hjk : j ≠ k := by
      rintro rfl
      simp [hk'] at hj
    exact ⟨hjk, by rw [← hkeys j hjk, hj]⟩
  have hsib : ∀ j b y, S f j = some (b, y) → j ≠ k → ∀ x ∈ footprint S e y, S' x = S x := by
    intro j b y hj hjk x hx
    refine hrest x ⟨j, b, y, hj, hx⟩ fun hxg => ?_
    exact Set.disjoint_left.mp (hT.2 j k b a y g hj hk hjk) hx hxg
  refine ⟨⟨?_, ?_⟩, ?_⟩
  · intro j b y hj
    obtain ⟨hjk, hj'⟩ := hcase j b y hj
    obtain ⟨hfoot, htree, -⟩ := congr_footprint (hsib j b y hj' hjk)
    exact ⟨htree (hT.child hj'), hfoot ▸ hT.not_mem_child hj'⟩
  · intro j j' b b' y y' hj hj' hne
    obtain ⟨hjk, hj⟩ := hcase j b y hj
    obtain ⟨hjk', hj'⟩ := hcase j' b' y' hj'
    rw [(congr_footprint (hsib j b y hj hjk)).1, (congr_footprint (hsib j' b' y' hj' hjk')).1]
    exact hT.2 j j' b b' y y' hj hj' hne
  · intro x
    simp only [mem_footprint_succ]
    constructor
    · rintro (rfl | ⟨j, b, y, hj, hx⟩)
      · exact ⟨Or.inl rfl, hT.not_mem_child hk⟩
      · obtain ⟨hjk, hj'⟩ := hcase j b y hj
        rw [(congr_footprint (hsib j b y hj' hjk)).1] at hx
        refine ⟨Or.inr ⟨j, b, y, hj', hx⟩, fun hxg => ?_⟩
        exact Set.disjoint_left.mp (hT.2 j k b a y g hj' hk hjk) hx hxg
    · rintro ⟨rfl | ⟨j, b, y, hj, hx⟩, hxg⟩
      · exact Or.inl rfl
      · have hjk : j ≠ k := by
          rintro rfl
          obtain ⟨rfl, rfl⟩ : a = b ∧ g = y := by simpa [hk] using hj
          exact hxg hx
        refine Or.inr ⟨j, b, y, by rw [hkeys j hjk, hj], ?_⟩
        exact (congr_footprint (hsib j b y hj hjk)).1.symm ▸ hx

/-- An edge to an empty node is invisible to walks that go on after it. -/
theorem walk_eq_of_empty_edge {f g : ν} {k : κ} {a : ℓ} {e : ℕ} (hk : S f k = none)
    (hk' : S' f k = some (a, g)) (hkeys : ∀ j, j ≠ k → S' f j = S f j)
    (hempty : ∀ j, S' g j = none) (hrest : ∀ x ∈ below S (e + 1) f, S' x = S x)
    {q : List κ} (hlen : q.length ≤ e + 2) (hq : q ≠ [k]) : walk S' f q = walk S f q := by
  cases q with
  | nil => rfl
  | cons j q =>
      by_cases hjk : j = k
      · subst hjk
        cases q with
        | nil => exact absurd rfl hq
        | cons i q =>
            rw [walk_cons_of_none hk, walk_cons_of_some hk', walk_cons_of_none (hempty i)]
            rfl
      · cases hj : S f j with
        | none => rw [walk_cons_of_none hj, walk_cons_of_none (by rw [hkeys j hjk, hj])]
        | some edge =>
            obtain ⟨b, y⟩ := edge
            have hshort : q.length ≤ e + 1 := by simpa using hlen
            have hsub : ∀ x ∈ footprint S e y, S' x = S x := fun x hx => hrest x ⟨j, b, y, hj, hx⟩
            rw [walk_cons_of_some hj, walk_cons_of_some (a := b) (h := y) (by rw [hkeys j hjk, hj]),
              (congr_footprint hsub).2.2 _ hshort]

/-- In a tree a node is reached along one path only. -/
theorem walk_unique {d : ℕ} {r g : ν} {p q : List κ} {es es' : List ℓ} (hT : IsTree S d r)
    (hp : p.length ≤ d) (hq : q.length ≤ d) (hwp : walk S r p = some (es, g))
    (hwq : walk S r q = some (es', g)) : p = q := by
  induction p generalizing r d q es es' with
  | nil =>
      cases q with
      | nil => rfl
      | cons k q =>
          simp only [walk_nil, Option.some.injEq, Prod.mk.injEq] at hwp
          obtain ⟨a, h, es'', hk, hw, rfl⟩ := walk_cons_eq_some.mp hwq
          obtain ⟨d, rfl⟩ : ∃ n, d = n + 1 := ⟨d - 1, by simp at hq; omega⟩
          have hg := walk_mem_footprint (d := d) (by simpa using hq) hw
          exact absurd (hwp.2 ▸ hg) (hT.not_mem_child hk)
  | cons j p ih =>
      obtain ⟨a, x, es₁, hj, hwx, rfl⟩ := walk_cons_eq_some.mp hwp
      obtain ⟨d, rfl⟩ : ∃ n, d = n + 1 := ⟨d - 1, by simp at hp; omega⟩
      have hgx := walk_mem_footprint (d := d) (by simpa using hp) hwx
      cases q with
      | nil =>
          simp only [walk_nil, Option.some.injEq, Prod.mk.injEq] at hwq
          exact absurd (hwq.2 ▸ hgx) (hT.not_mem_child hj)
      | cons k q =>
          obtain ⟨b, y, es₂, hk, hwy, rfl⟩ := walk_cons_eq_some.mp hwq
          have hgy := walk_mem_footprint (d := d) (by simpa using hq) hwy
          by_cases hjk : j = k
          · subst hjk
            obtain ⟨rfl, rfl⟩ : a = b ∧ x = y := by simpa [hj] using hk
            rw [ih (hT.child hj) (by simpa using hp) (by simpa using hq) hwx hwy]
          · exact absurd hgy (Set.disjoint_left.mp (hT.2 j k a b x y hj hk hjk) hgx)

/-- A structure in which a node is reached along one path only is a tree. -/
theorem isTree_of_walk_unique {d : ℕ} {r : ν}
    (h : ∀ (p q : List κ) es es' g, p.length ≤ d → q.length ≤ d → walk S r p = some (es, g) →
      walk S r q = some (es', g) → p = q) : IsTree S d r := by
  induction d generalizing r with
  | zero => trivial
  | succ d ih =>
      have hcons : ∀ {j b y p es g}, S r j = some (b, y) → walk S y p = some (es, g) →
          walk S r (j :: p) = some (b :: es, g) :=
        fun hj hw => walk_cons_eq_some.mpr ⟨_, _, _, hj, hw, rfl⟩
      refine ⟨fun k a x hk => ⟨ih fun p q es es' g hp hq hwp hwq => ?_, fun hr => ?_⟩, ?_⟩
      · exact (List.cons.inj (h (k :: p) (k :: q) _ _ g (by simpa using hp) (by simpa using hq)
          (hcons hk hwp) (hcons hk hwq))).2
      · obtain ⟨p, es, hlen, hw⟩ := exists_walk_of_mem hr
        exact absurd (h (k :: p) [] _ _ r (by simpa using hlen) (Nat.zero_le _) (hcons hk hw)
          (walk_nil r)) (List.cons_ne_nil k p)
      · intro k k' a a' x x' hk hk' hne
        refine Set.disjoint_left.mpr fun g hg hg' => hne ?_
        obtain ⟨p, es, hlen, hw⟩ := exists_walk_of_mem hg
        obtain ⟨q, es', hlen', hw'⟩ := exists_walk_of_mem hg'
        exact (List.cons.inj (h (k :: p) (k' :: q) _ _ g (by simpa using hlen) (by simpa using hlen')
          (hcons hk hw) (hcons hk' hw'))).1

/-! ## Leaves -/

/-- The ends of the paths of `d` keys. -/
def leaves (S : Store ν κ ℓ) (d : ℕ) (r : ν) : Set ν :=
  {g | ∃ p es, p.length = d ∧ walk S r p = some (es, g)}

theorem mem_footprint_succ_iff {d : ℕ} {r g : ν} :
    g ∈ footprint S (d + 1) r ↔ g ∈ footprint S d r ∨ g ∈ leaves S (d + 1) r := by
  constructor
  · intro hg
    obtain ⟨p, es, hlen, hw⟩ := exists_walk_of_mem hg
    rcases Nat.lt_or_ge d p.length with hlong | hshort
    · exact .inr ⟨p, es, by omega, hw⟩
    · exact .inl (walk_mem_footprint hshort hw)
  · rintro (hg | ⟨p, es, hlen, hw⟩)
    · exact footprint_subset_succ d r hg
    · exact walk_mem_footprint hlen.le hw

theorem IsTree.of_succ {d : ℕ} {r : ν} (hT : IsTree S (d + 1) r) : IsTree S d r :=
  isTree_of_walk_unique fun _ _ _ _ _ hp hq hwp hwq =>
    walk_unique hT (Nat.le_succ_of_le hp) (Nat.le_succ_of_le hq) hwp hwq

theorem IsTree.leaf_notMem {d : ℕ} {r g : ν} (hT : IsTree S (d + 1) r)
    (hg : g ∈ leaves S (d + 1) r) : g ∉ footprint S d r := by
  intro hmem
  obtain ⟨p, es, hlen, hw⟩ := hg
  obtain ⟨q, es', hlen', hw'⟩ := exists_walk_of_mem hmem
  have heq := walk_unique hT hlen.le (Nat.le_succ_of_le hlen') hw hw'
  rw [heq] at hlen
  omega

/-- A tree whose leaves are no inner nodes, and are reached along one path each, is a tree with its
leaves. -/
theorem IsTree.succ {d : ℕ} {r : ν} (hT : IsTree S d r)
    (hout : ∀ g ∈ leaves S (d + 1) r, g ∉ footprint S d r)
    (hinj : ∀ (p q : List κ) es es' g, p.length = d + 1 → q.length = d + 1 →
      Radix.walk S r p = some (es, g) → Radix.walk S r q = some (es', g) → p = q) :
    IsTree S (d + 1) r := by
  refine isTree_of_walk_unique fun p q es es' g hp hq hwp hwq => ?_
  rcases Nat.lt_or_ge d p.length with hlong | hshort
  · have hleaf : g ∈ leaves S (d + 1) r := ⟨p, es, by omega, hwp⟩
    rcases Nat.lt_or_ge d q.length with hlong' | hshort'
    · exact hinj p q es es' g (by omega) (by omega) hwp hwq
    · exact absurd (walk_mem_footprint hshort' hwq) (hout g hleaf)
  · rcases Nat.lt_or_ge d q.length with hlong' | hshort'
    · exact absurd (walk_mem_footprint hshort hwp) (hout g ⟨q, es', by omega, hwq⟩)
    · exact walk_unique hT hshort hshort' hwp hwq

/-- A property of all nodes, given the number of edges that may still follow each of them. -/
def AllNodes (P : ℕ → ν → Prop) (S : Store ν κ ℓ) (d : ℕ) (r : ν) : Prop :=
  ∀ p es g, p.length ≤ d → walk S r p = some (es, g) → P (d - p.length) g

theorem allNodes_succ {P : ℕ → ν → Prop} {d : ℕ} {f : ν} :
    AllNodes P S (d + 1) f ↔
      P (d + 1) f ∧ ∀ k a h, S f k = some (a, h) → AllNodes P S d h := by
  constructor
  · intro hP
    refine ⟨hP [] [] f (by simp) rfl, fun k a h hk p es g hlen hw => ?_⟩
    have hlong := hP (k :: p) (a :: es) g (by simpa using hlen)
      (walk_cons_eq_some.mpr ⟨a, h, es, hk, hw, rfl⟩)
    simpa using hlong
  · rintro ⟨hroot, hchildren⟩ p es g hlen hw
    cases p with
    | nil =>
        simp only [walk_nil, Option.some.injEq, Prod.mk.injEq] at hw
        exact hw.2 ▸ hroot
    | cons k p =>
        obtain ⟨a, h, es', hk, hw', rfl⟩ := walk_cons_eq_some.mp hw
        simpa using hchildren k a h hk p es' g (by simpa using hlen) hw'

theorem allNodes_zero {P : ℕ → ν → Prop} {f : ν} : AllNodes P S 0 f ↔ P 0 f := by
  constructor
  · exact fun hP => hP [] [] f le_rfl rfl
  · intro hf p es g hlen hw
    obtain rfl : p = [] := List.length_eq_zero_iff.mp (Nat.le_zero.mp hlen)
    simp only [walk_nil, Option.some.injEq, Prod.mk.injEq] at hw
    exact hw.2 ▸ hf

theorem allNodes_of_empty {P : ℕ → ν → Prop} {d : ℕ} {f : ν} (h : ∀ k, S f k = none)
    (hf : P d f) : AllNodes P S d f := by
  cases d with
  | zero => exact allNodes_zero.mpr hf
  | succ d => exact allNodes_succ.mpr ⟨hf, fun k a g hk => by simp [h] at hk⟩

theorem AllNodes.walk {P : ℕ → ν → Prop} {d e : ℕ} {r f : ν} {p : List κ} {es : List ℓ}
    (hd : d = p.length + e) (hP : AllNodes P S d r) (hw : walk S r p = some (es, f)) :
    AllNodes P S e f := by
  intro q es' g hlen hwq
  have hlong : Radix.walk S r (p ++ q) = some (es ++ es', g) := by
    rw [walk_append hw, hwq]
    rfl
  have hnode := hP (p ++ q) (es ++ es') g (by simp; omega) hlong
  rwa [List.length_append, hd, Nat.add_sub_add_left] at hnode

/-- A property of all nodes is kept where neither the store nor the property changes. -/
theorem allNodes_congr {P P' : ℕ → ν → Prop} {d : ℕ} {f : ν}
    (h : ∀ g ∈ footprint S d f, S' g = S g) (hkeep : ∀ g ∈ footprint S d f, ∀ n, P n g → P' n g)
    (hP : AllNodes P S d f) : AllNodes P' S' d f := by
  intro p es g hlen hw
  rw [(congr_footprint h).2.2 p (by omega)] at hw
  exact hkeep g (walk_mem_footprint hlen hw) _ (hP p es g hlen hw)

/-- A property of all nodes survives the replacement of a subtree that has it. -/
theorem allNodes_replace {P P' : ℕ → ν → Prop} {p : List κ} {r f : ν} {es : List ℓ} {d e : ℕ}
    (hd : d = p.length + e) (hT : IsTree S d r) (hw : walk S r p = some (es, f))
    (hw' : walk S' r p = some (es, f))
    (hq : ∀ q : List κ, q.length ≤ d + 1 → ¬ p <+: q → walk S' r q = walk S r q)
    (hP : AllNodes P S d r)
    (hkeep : ∀ g ∈ footprint S d r, g ∉ footprint S e f → ∀ n, P n g → P' n g)
    (hP' : AllNodes P' S' e f) : AllNodes P' S' d r := by
  intro path labels g hlen hwalk
  by_cases hpre : p <+: path
  · obtain ⟨q, rfl⟩ := hpre
    rw [walk_append hw', Option.map_eq_some_iff] at hwalk
    obtain ⟨⟨es', g'⟩, hsub, heq⟩ := hwalk
    simp only [Prod.mk.injEq] at heq
    obtain ⟨-, rfl⟩ := heq
    simp only [List.length_append] at hlen ⊢
    have hdepth : d - (p.length + q.length) = e - q.length := by omega
    rw [hdepth]
    exact hP' q es' g' (by omega) hsub
  · rw [hq path (by omega) hpre] at hwalk
    refine hkeep g (walk_mem_footprint hlen hwalk) (fun hmem => hpre ?_) _
      (hP path labels g hlen hwalk)
    obtain ⟨q, es', hqlen, hsub⟩ := exists_walk_of_mem hmem
    have hlong : walk S r (p ++ q) = some (es ++ es', g) := by
      rw [walk_append hw, hsub]
      rfl
    have heq := walk_unique hT hlen (by simp; omega) hwalk hlong
    exact ⟨q, heq.symm⟩

end Osiris.Radix
