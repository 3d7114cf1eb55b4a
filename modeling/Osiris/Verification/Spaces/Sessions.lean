import Osiris.Library.Ledger
import Osiris.Verification.Clone.Forks
import Osiris.Verification.Clone.UserMemory
import Osiris.Verification.Spaces.World
import Osiris.Verification.Vmm.Spared

/-! # The calls of many address spaces

The pages that are held, the spaces and what they are bound to are recorded beside the machine. Every
frame is free, or held as a page, or belongs to one space, as a table or for its `pagemap_t`. -/

namespace Osiris.Spaces

open ByteMemory Strings Page Vmm Clone Radix Ledger

/-! ## Requests on the machine -/

/-- The `pagemap_t` at an address. -/
def pagemapAt (s : Machine) (space : Word) : Pagemap :=
  ⟨load64 s.mem space⟩

/-- Where the direct map has what a space has at an address. -/
def access (hh : Word) (s : Machine) (space virtAddr : Word) : Option Word :=
  let phys := vmmVirtToPhys hh s (pagemapAt s space) virtAddr
  if phys = -1#64 then none else some (phys + hh)

def storeByte (hh : Word) (s : Machine) (space virtAddr : Word) (value : Byte) : Machine :=
  match access hh s space virtAddr with
  | some x => { s with mem := setByte s.mem x value }
  | none => s

/-- The address of a page. -/
def pageAddr (n : ℕ) : Word :=
  BitVec.ofNat 64 (4096 * n)

/-- What the copy of a space is bound to: the pages are where the page tables of the copy have
them. -/
def copyBindings (hh : Word) (s : Machine) (child : Word) (sp : Space) : Space := fun n =>
  (sp n).map fun b =>
    ⟨vmmVirtToPhys hh s (pagemapAt s child) (pageAddr n), b.flags &&& 0xFFF#64⟩

/-- The pages of a space. -/
def pagesOf (spaces : Word → Option Space) (space : Word) : Set ℕ :=
  {f | ∃ sp n b, spaces space = some sp ∧ sp n = some b ∧ frameOf b.frame = f}

structure Session where
  machine : Machine
  held : Set ℕ
  spaces : Word → Option Space

/-- A request is carried out. The space that is released has its frames freed, and then that of its
`pagemap_t`, as `vmm_clone_pagemap` does itself where it fails. -/
def serve (hh : Word) (σ : Session) : Request → Response × Session
  | .allocate =>
      let (page, s) := allocatePage hh σ.machine
      (.address page,
        { σ with
          machine := s
          held := if page = 0#64 then σ.held else insert (frameOf page) σ.held })
  | .free page =>
      (.done, { σ with machine := σ.machine.freePage page, held := σ.held \ {frameOf page} })
  | .map space virtAddr physAddr flags =>
      let (ok, s) := vmmMapPage hh σ.machine (pagemapAt σ.machine space) virtAddr physAddr flags
      (.success ok,
        { σ with
          machine := s
          spaces :=
            if ok then
              bindPage σ.spaces space (pageNumber virtAddr) (some (bindingOf physAddr flags))
            else σ.spaces })
  | .unmap space virtAddr =>
      let (ok, s) := vmmUnmapPage hh σ.machine (pagemapAt σ.machine space) virtAddr
      (.success ok,
        { σ with
          machine := s
          spaces := if ok then bindPage σ.spaces space (pageNumber virtAddr) none else σ.spaces })
  | .translate space virtAddr =>
      (.address (vmmVirtToPhys hh σ.machine (pagemapAt σ.machine space) virtAddr), σ)
  | .load space virtAddr => (.value ((access hh σ.machine space virtAddr).map σ.machine.mem), σ)
  | .store space virtAddr value =>
      (.done, { σ with machine := storeByte hh σ.machine space virtAddr value })
  | .clone space =>
      let (child, s) := vmmClonePagemap hh σ.machine (some (pagemapAt σ.machine space))
      if child = 0#64 then (.address child, { σ with machine := s })
      else
        let spaces := Function.update σ.spaces child
          ((σ.spaces space).map (copyBindings hh s child))
        (.address child, { machine := s, held := σ.held ∪ pagesOf spaces child, spaces })
  | .release space =>
      let s := (vmmFreePagemapClone hh σ.machine space).freePage (space - hh)
      (.done,
        { machine := s
          held := σ.held \ pagesOf σ.spaces space
          spaces := Function.update σ.spaces space none })

/-- The bytes of a frame. -/
def bytesAt (hh : Word) (m : Mem) (f : ℕ) : Contents := fun k =>
  m (frameVirt hh f + BitVec.ofNat 64 k)

open Classical in
/-- What the users see. -/
noncomputable def Session.world (hh : Word) (σ : Session) : World where
  spaces := σ.spaces
  pages f := if f ∈ σ.held then some (bytesAt hh σ.machine.mem f) else none

/-! ## Where a space is -/

/-- The frames of the PML4 and of the `pagemap_t`. -/
structure Seat where
  root : ℕ
  handle : ℕ

/-- The frames of a space that are no pages. -/
def Seat.territory (seat : Seat) (hh : Word) (m : Mem) : Set ℕ :=
  insert seat.handle (footprint (link hh m) 3 seat.root)

/-- The `pagemap_t` at `space` leads to tables that are bound to `sp`. -/
structure Seated (hh : Word) (s : Machine) (space : Word) (sp : Space) (seat : Seat) : Prop where
  inv : ∃ owned, StateInv hh seat.root ⟨s, sp, owned⟩
  proper : ∀ n b, sp n = some b → b.Proper
  paged : ∀ n b, sp n = some b → ∃ v, pageNumber v = n
  top : load64 s.mem space = frameVirt hh seat.root
  inside : ∀ x, InRange space 8 x → InFrame hh seat.handle x
  handle_lt : seat.handle < 2 ^ 40
  handle_used : ¬ s.pmm.Free seat.handle
  handle_out : seat.handle ∉ footprint (link hh s.mem) 3 seat.root

section Seated

variable {hh space : Word} {s s' : Machine} {sp : Space} {seat : Seat} {mine : Set ℕ} {f : ℕ}

theorem Seated.tables (h : Seated hh s space sp seat) : TableInv hh s seat.root := by
  obtain ⟨owned, hinv⟩ := h.inv
  exact hinv.tables

theorem Seated.pagemap (h : Seated hh s space sp seat) :
    pagemapAt s space = ⟨frameVirt hh seat.root⟩ := by
  unfold pagemapAt
  rw [h.top]

theorem Seated.territory_lt (h : Seated hh s space sp seat)
    (hf : f ∈ seat.territory hh s.mem) : f < 2 ^ 40 := by
  rcases hf with rfl | hf
  · exact h.handle_lt
  · exact footprint_lt h.tables.root_lt hf

theorem Seated.territory_used (h : Seated hh s space sp seat)
    (hf : f ∈ seat.territory hh s.mem) : ¬ s.pmm.Free f := by
  rcases hf with rfl | hf
  · exact h.handle_used
  · exact h.tables.used f hf

theorem Seated.leafEntry_eq (h : Seated hh s space sp seat) (v : Word) :
    leafEntry hh s.mem seat.root v = (sp (pageNumber v)).map Binding.leaf := by
  obtain ⟨owned, hinv⟩ := h.inv
  exact hinv.leafEntry_eq v

theorem Seated.translate_eq (h : Seated hh s space sp seat) (v : Word) :
    vmmVirtToPhys hh s (pagemapAt s space) v =
      match sp (pageNumber v) with
      | some b => b.frame + v % 4096#64
      | none => -1#64 := by
  obtain ⟨owned, hinv⟩ := h.inv
  rw [h.pagemap]
  exact hinv.vmmVirtToPhys_lookup h.proper v

/-- The eight bytes of the `pagemap_t` are in one frame. -/
theorem Seated.top_of_same (h : Seated hh s space sp seat)
    (hsame : SamePage hh s.mem s'.mem seat.handle) :
    load64 s'.mem space = frameVirt hh seat.root := by
  rw [← h.top]
  exact load64_congr fun x hx => hsame x (h.inside x hx)

/-- A space whose frames are left alone is what it was. -/
theorem Seated.spared (h : Seated hh s space sp seat) (hspares : Spares hh s s' mine)
    (hzero : ¬ s'.pmm.Free 0) (hout : Disjoint (seat.territory hh s.mem) mine) :
    Seated hh s' space sp seat ∧ seat.territory hh s'.mem = seat.territory hh s.mem := by
  have hmine : ∀ f ∈ seat.territory hh s.mem, f ∉ mine := fun f hf => Set.disjoint_left.mp hout hf
  have hsame : ∀ f ∈ seat.territory hh s.mem, SamePage hh s.mem s'.mem f := fun f hf =>
    hspares.same f (h.territory_lt hf) (hmine f hf) (h.territory_used hf)
  have hused : ∀ f ∈ seat.territory hh s.mem, ¬ s'.pmm.Free f := fun f hf =>
    hspares.used f (hmine f hf) (h.territory_used hf)
  obtain ⟨owned, hinv⟩ := h.inv
  have hother : Untouched hh s s' seat.root :=
    ⟨hspares.highest, hzero, fun f hf => hused f (.inr hf), fun f hf => hsame f (.inr hf)⟩
  have hfoot := (h.tables.untouched hother).2.1
  refine ⟨⟨⟨owned, hinv.untouched hother⟩, h.proper, h.paged, ?_, h.inside, h.handle_lt,
    hused _ (.inl rfl), ?_⟩, ?_⟩
  · exact h.top_of_same (hsame _ (.inl rfl))
  · rw [hfoot]
    exact h.handle_out
  · unfold Seat.territory
    rw [hfoot]

/-- A change of the tables that leaves the frame of the `pagemap_t` alone. -/
theorem Seated.rebound {sp' : Space} (h : Seated hh s space sp seat)
    (hspares : Spares hh s s' (footprint (link hh s.mem) 3 seat.root))
    (hinv : ∃ owned, StateInv hh seat.root ⟨s', sp', owned⟩)
    (hnew : ∀ f ∈ footprint (link hh s'.mem) 3 seat.root,
      f ∈ footprint (link hh s.mem) 3 seat.root ∨ s.pmm.Free f)
    (hproper : ∀ n b, sp' n = some b → b.Proper ∧ ∃ v, pageNumber v = n) :
    Seated hh s' space sp' seat := by
  refine ⟨hinv, fun n b hb => (hproper n b hb).1, fun n b hb => (hproper n b hb).2, ?_, h.inside,
    h.handle_lt, hspares.used _ h.handle_out h.handle_used, fun hmem => ?_⟩
  · exact h.top_of_same (hspares.same _ h.handle_lt h.handle_out h.handle_used)
  · rcases hnew _ hmem with hold | hfree
    · exact h.handle_out hold
    · exact h.handle_used hfree

end Seated

/-! ## All spaces -/

/-- The frames that are held as pages, and those of each space. -/
def own (hh : Word) (seat : Word → Seat) (σ : Session) : Option Word → Set ℕ
  | none => σ.held
  | some space => {f | σ.spaces space ≠ none ∧ f ∈ (seat space).territory hh σ.machine.mem}

/-- What holds between the machine, the pages and the spaces: the frames of `pool` are free, held as
pages or parts of a space, and only `home` may have been there from the start. -/
structure Family (hh home : Word) (pool : Set ℕ) (seat : Word → Seat) (σ : Session) : Prop where
  seated : ∀ space sp, σ.spaces space = some sp → Seated hh σ.machine space sp (seat space)
  clones : ∀ space, σ.spaces space ≠ none → space ≠ home →
    space = frameVirt hh (seat space).handle
  bound : ∀ f space, f ∈ pagesOf σ.spaces space → f ∈ σ.held
  accounted : Accounted pool {f | σ.machine.pmm.Free f} (own hh seat σ)
  managed : ∀ f ∈ pool, f = (seat home).root ∨ f = (seat home).handle ∨
    (f ≤ σ.machine.pmm.highestPage ∧ f ≠ 0)
  home : σ.spaces home ≠ none

section Family

variable {hh home : Word} {pool mine : Set ℕ} {seat : Word → Seat} {σ : Session} {s' : Machine}
  {space : Word} {sp sp' : Space} {f : ℕ}

theorem Family.valid (h : Family hh home pool seat σ) : σ.machine.Valid hh := by
  obtain ⟨sp, hsp⟩ := Option.ne_none_iff_exists'.mp h.home
  exact (h.seated home sp hsp).tables.valid

theorem mem_own_some {space : Word} : f ∈ own hh seat σ (some space) ↔
    σ.spaces space ≠ none ∧ f ∈ (seat space).territory hh σ.machine.mem := Iff.rfl

theorem own_some (hsp : σ.spaces space = some sp) :
    own hh seat σ (some space) = (seat space).territory hh σ.machine.mem := by
  ext f
  rw [mem_own_some, hsp]
  simp

theorem own_of_none (hsp : σ.spaces space = none) : own hh seat σ (some space) = ∅ := by
  ext f
  rw [mem_own_some, hsp]
  simp

theorem Family.home_mem (h : Family hh home pool seat σ) :
    (seat home).root ∈ own hh seat σ (some home) ∧
      (seat home).handle ∈ own hh seat σ (some home) := by
  obtain ⟨sp, hsp⟩ := Option.ne_none_iff_exists'.mp h.home
  rw [own_some hsp]
  exact ⟨.inr (mem_footprint_self 3 _), .inl rfl⟩

/-- Whatever does not belong to `home` is managed by the allocator. -/
theorem Family.managed_of_own (h : Family hh home pool seat σ) {i : Option Word} (hi : i ≠ some home)
    (hf : f ∈ own hh seat σ i) : f ≤ σ.machine.pmm.highestPage ∧ f ≠ 0 := by
  obtain ⟨hroot, hhandle⟩ := h.home_mem
  rcases h.managed f ((h.accounted.all f).mpr (.inr ⟨i, hf⟩)) with rfl | rfl | hmanaged
  · exact absurd hroot (h.accounted.not_mem hi hf)
  · exact absurd hhandle (h.accounted.not_mem hi hf)
  · exact hmanaged

theorem Family.held_managed (h : Family hh home pool seat σ) (hf : f ∈ σ.held) :
    f ≤ σ.machine.pmm.highestPage ∧ f ≠ 0 :=
  h.managed_of_own (i := none) (by simp) hf

theorem Family.held_lt (h : Family hh home pool seat σ) (hf : f ∈ σ.held) : f < 2 ^ 40 :=
  h.valid.lt_limit (h.held_managed hf).1

theorem Family.held_used (h : Family hh home pool seat σ) (hf : f ∈ σ.held) :
    ¬ σ.machine.pmm.Free f :=
  h.accounted.not_free (i := none) hf

theorem Family.held_out (h : Family hh home pool seat σ) (hsp : σ.spaces space = some sp)
    (hf : f ∈ σ.held) : f ∉ (seat space).territory hh σ.machine.mem := by
  rw [← own_some hsp]
  exact h.accounted.not_mem (i := none) (by simp) hf

theorem Family.territories_apart (h : Family hh home pool seat σ) {other : Word} {sq : Space}
    (hsp : σ.spaces space = some sp) (hsq : σ.spaces other = some sq) (hne : other ≠ space) :
    Disjoint ((seat other).territory hh σ.machine.mem) ((seat space).territory hh σ.machine.mem) := by
  rw [← own_some hsp, ← own_some hsq]
  exact h.accounted.apart _ _ fun heq => hne (Option.some.inj heq)

/-- One space is changed, and the pages that are held, and the other spaces are left alone. -/
theorem Family.change (h : Family hh home pool seat σ) (space : Word) {σ' : Session}
    {seat' : Word → Seat} (hspaces : ∀ q, q ≠ space → σ'.spaces q = σ.spaces q)
    (hseat : ∀ q, q ≠ space → seat' q = seat q) (hvalid : σ'.machine.Valid hh)
    (hspares : Spares hh σ.machine σ'.machine mine)
    (hmine : ∀ q sq, q ≠ space → σ.spaces q = some sq →
      Disjoint ((seat q).territory hh σ.machine.mem) mine)
    (hself : ∀ sp, σ'.spaces space = some sp → Seated hh σ'.machine space sp (seat' space) ∧
      (space ≠ home → space = frameVirt hh (seat' space).handle))
    (hbound : ∀ f q, f ∈ pagesOf σ'.spaces q → f ∈ σ'.held)
    (hsame : ∀ f, (σ'.machine.pmm.Free f ∨ f ∈ σ'.held ∨ f ∈ own hh seat' σ' (some space)) ↔
      (σ.machine.pmm.Free f ∨ f ∈ σ.held ∨ f ∈ own hh seat σ (some space)))
    (hapart : Disjoint σ'.held (own hh seat' σ' (some space)))
    (hheld : ∀ f ∈ σ'.held, ¬ σ'.machine.pmm.Free f) (hhome : seat' home = seat home)
    (hstays : σ'.spaces home ≠ none) : Family hh home pool seat' σ' := by
  have hother : ∀ q sq, q ≠ space → σ.spaces q = some sq →
      Seated hh σ'.machine q sq (seat q) ∧
        (seat q).territory hh σ'.machine.mem = (seat q).territory hh σ.machine.mem :=
    fun q sq hq hsq => (h.seated q sq hsq).spared hspares hvalid.zero_used (hmine q sq hq hsq)
  refine ⟨fun q sq hsq => ?_, fun q hq hqh => ?_, hbound, ?_, fun f hf => ?_, hstays⟩
  · by_cases hq : q = space
    · exact hq ▸ (hself sq (hq ▸ hsq)).1
    · rw [hspaces q hq] at hsq
      rw [hseat q hq]
      exact (hother q sq hq hsq).1
  · by_cases hqs : q = space
    · subst hqs
      obtain ⟨sq, hsq⟩ := Option.ne_none_iff_exists'.mp hq
      exact (hself sq hsq).2 hqh
    · rw [hspaces q hqs] at hq
      rw [hseat q hqs]
      exact h.clones q hq hqh
  · refine h.accounted.trade_two none (some space) (fun i hi hi' => ?_) hsame hapart
      (Set.disjoint_right.mpr hheld) (Set.disjoint_right.mpr fun f hf => ?_)
    · cases i with
      | none => exact absurd rfl hi
      | some q =>
          have hq : q ≠ space := fun heq => hi' (congrArg some heq)
          have hq' := hspaces q hq
          cases hsq : σ.spaces q with
          | none => rw [own_of_none hsq, own_of_none (hq'.trans hsq)]
          | some sq =>
              rw [own_some hsq, own_some (hq'.trans hsq), hseat q hq, (hother q sq hq hsq).2]
    · obtain ⟨sp, hsp⟩ := Option.ne_none_iff_exists'.mp hf.1
      exact (hself sp hsp).1.territory_used hf.2
  · rw [hhome, hspares.highest]
    exact h.managed f hf

/-- The pages of a space when another one has been replaced. -/
theorem pagesOf_of_ne {spaces : Word → Option Space} {q : Word} (hq : q ≠ space)
    (o : Option Space) : pagesOf (Function.update spaces space o) q = pagesOf spaces q := by
  unfold pagesOf
  rw [Function.update_of_ne hq]

theorem mem_pagesOf_iff {spaces : Word → Option Space} (hsp : spaces space = some sp) :
    f ∈ pagesOf spaces space ↔ ∃ n b, sp n = some b ∧ frameOf b.frame = f := by
  constructor
  · rintro ⟨sq, n, b, hsq, hb, hf⟩
    obtain rfl := Option.some.inj (hsq.symm.trans hsp)
    exact ⟨n, b, hb, hf⟩
  · rintro ⟨n, b, hb, hf⟩
    exact ⟨sp, n, b, hsp, hb, hf⟩

/-- One space is changed within its own frames and those that are free. -/
theorem Family.edit (h : Family hh home pool seat σ) (hsp : σ.spaces space = some sp)
    (hseated : Seated hh s' space sp' (seat space))
    (hspares : Spares hh σ.machine s' ((seat space).territory hh σ.machine.mem))
    (hfree : ∀ f, (s'.pmm.Free f ∨ f ∈ (seat space).territory hh s'.mem) ↔
      (σ.machine.pmm.Free f ∨ f ∈ (seat space).territory hh σ.machine.mem))
    (hbound : ∀ n b, sp' n = some b → frameOf b.frame ∈ σ.held) :
    Family hh home pool seat
      { σ with machine := s', spaces := Function.update σ.spaces space (some sp') } := by
  have hused : ∀ f ∈ σ.held, ¬ s'.pmm.Free f := fun f hf =>
    hspares.used f (h.held_out hsp hf) (h.held_used hf)
  refine h.change space (fun q hq => Function.update_of_ne hq _ _) (fun _ _ => rfl)
    hseated.tables.valid hspares (fun q sq hq hsq => h.territories_apart hsp hsq hq)
    (fun sp₁ hsp₁ => ?_) (fun f q hf => ?_) (fun f => ?_) ?_ hused rfl ?_
  · dsimp only at hsp₁
    rw [Function.update_self, Option.some.injEq] at hsp₁
    exact ⟨hsp₁ ▸ hseated, fun hne => h.clones space (by rw [hsp]; simp) hne⟩
  · by_cases hq : q = space
    · subst hq
      obtain ⟨n, b, hb, rfl⟩ := (mem_pagesOf_iff (Function.update_self _ _ _)).mp hf
      exact hbound n b hb
    · rw [pagesOf_of_ne hq] at hf
      exact h.bound f q hf
  · rw [own_some (Function.update_self space (some sp') σ.spaces), own_some hsp]
    exact or_left_comm.trans ((or_congr_right (hfree f)).trans or_left_comm)
  · rw [own_some (Function.update_self space (some sp') σ.spaces)]
    refine Set.disjoint_left.mpr fun f hf hmem => ?_
    rcases (hfree f).mp (.inr hmem) with hold | hold
    · exact h.held_used hf hold
    · exact h.held_out hsp hf hold
  · by_cases hq : home = space
    · subst hq
      dsimp only
      rw [Function.update_self]
      simp
    · dsimp only
      rw [Function.update_of_ne hq]
      exact h.home

/-- Pages are taken, given back or written to, and the spaces are left alone. -/
theorem Family.hold (h : Family hh home pool seat σ) {held' : Set ℕ} (hvalid : s'.Valid hh)
    (hspares : Spares hh σ.machine s' mine)
    (hmine : ∀ q sq, σ.spaces q = some sq →
      Disjoint ((seat q).territory hh σ.machine.mem) mine)
    (hfree : ∀ f, (s'.pmm.Free f ∨ f ∈ held') ↔ (σ.machine.pmm.Free f ∨ f ∈ σ.held))
    (hdisjoint : ∀ f ∈ held', ¬ s'.pmm.Free f)
    (hbound : ∀ f space, f ∈ pagesOf σ.spaces space → f ∈ held') :
    Family hh home pool seat { σ with machine := s', held := held' } := by
  have hother : ∀ q sq, σ.spaces q = some sq → Seated hh s' q sq (seat q) ∧
      (seat q).territory hh s'.mem = (seat q).territory hh σ.machine.mem := fun q sq hsq =>
    (h.seated q sq hsq).spared hspares hvalid.zero_used (hmine q sq hsq)
  refine ⟨fun q sq hsq => (hother q sq hsq).1, h.clones, hbound, ?_, ?_, h.home⟩
  · refine h.accounted.trade_one none (fun i hi => ?_) hfree
      (Set.disjoint_right.mpr fun f hf => hdisjoint f hf)
    cases i with
    | none => exact absurd rfl hi
    | some q =>
        cases hsq : σ.spaces q with
        | none =>
            rw [own_of_none hsq]
            exact own_of_none hsq
        | some sq =>
            rw [own_some hsq, ← (hother q sq hsq).2]
            exact own_some hsq
  · intro f hf
    change _ ∨ _ ∨ (f ≤ s'.pmm.highestPage ∧ f ≠ 0)
    rw [hspares.highest]
    exact h.managed f hf

/-- A new space is made, with pages of its own, of frames that were free. -/
theorem Family.fork (h : Family hh home pool seat σ) {new : Seat}
    (hspares : Spares hh σ.machine s' ∅) (hfresh : σ.spaces space = none)
    (hseated : Seated hh s' space sp' new) (hspace : space = frameVirt hh new.handle)
    (hsplit : ∀ f, σ.machine.pmm.Free f ↔ s'.pmm.Free f ∨
      f ∈ pagesOf (Function.update σ.spaces space (some sp')) space ∨ f ∈ new.territory hh s'.mem)
    (hpages : ∀ f ∈ pagesOf (Function.update σ.spaces space (some sp')) space,
      ¬ s'.pmm.Free f ∧ f ∉ new.territory hh s'.mem) :
    Family hh home pool (Function.update seat space new)
      ⟨s', σ.held ∪ pagesOf (Function.update σ.spaces space (some sp')) space,
        Function.update σ.spaces space (some sp')⟩ := by
  have hhome : home ≠ space := by
    rintro rfl
    exact h.home hfresh
  have hown : own hh (Function.update seat space new)
      ⟨s', σ.held ∪ pagesOf (Function.update σ.spaces space (some sp')) space,
        Function.update σ.spaces space (some sp')⟩ (some space) = new.territory hh s'.mem := by
    rw [own_some (Function.update_self space (some sp') σ.spaces), Function.update_self]
  refine h.change space (fun q hq => Function.update_of_ne hq _ _)
    (fun q hq => Function.update_of_ne hq _ _) hseated.tables.valid hspares
    (fun q sq _ _ => Set.disjoint_empty _) (fun sp₁ hsp₁ => ?_) (fun f q hf => ?_) (fun f => ?_) ?_
    (fun f hf => ?_) (Function.update_of_ne hhome _ _) ?_
  · dsimp only at hsp₁
    rw [Function.update_self, Option.some.injEq] at hsp₁
    rw [Function.update_self]
    exact ⟨hsp₁ ▸ hseated, fun _ => hspace⟩
  · by_cases hq : q = space
    · subst hq
      exact .inr hf
    · rw [pagesOf_of_ne hq] at hf
      exact .inl (h.bound f q hf)
  · rw [hown, own_of_none hfresh, Set.mem_empty_iff_false, or_false, hsplit f, Set.mem_union]
    simp only [or_left_comm, or_comm]
  · rw [hown]
    refine Set.disjoint_left.mpr fun f hf hmem => ?_
    rcases hf with hold | hpage
    · exact h.held_used hold ((hsplit f).mpr (.inr (.inr hmem)))
    · exact (hpages f hpage).2 hmem
  · rcases hf with hold | hpage
    · exact hspares.used f (Set.notMem_empty f) (h.held_used hold)
    · exact (hpages f hpage).1
  · dsimp only
    rw [Function.update_of_ne hhome]
    exact h.home

/-- A space goes, and gives its frames and pages back. -/
theorem Family.drop (h : Family hh home pool seat σ) (hsp : σ.spaces space = some sp)
    (hne : space ≠ home) (hvalid : s'.Valid hh)
    (hspares : Spares hh σ.machine s'
      ((seat space).territory hh σ.machine.mem ∪ pagesOf σ.spaces space))
    (hunshared : ∀ q, q ≠ space → ∀ f ∈ pagesOf σ.spaces space, f ∉ pagesOf σ.spaces q)
    (hfree : ∀ f, s'.pmm.Free f ↔ σ.machine.pmm.Free f ∨
      f ∈ (seat space).territory hh σ.machine.mem ∨ f ∈ pagesOf σ.spaces space) :
    Family hh home pool seat
      ⟨s', σ.held \ pagesOf σ.spaces space, Function.update σ.spaces space none⟩ := by
  have hgone : Function.update σ.spaces space none space = none := Function.update_self _ _ _
  have hmem : ∀ f ∈ pagesOf σ.spaces space, f ∈ σ.held := fun f => h.bound f space
  have hmine : ∀ q sq, q ≠ space → σ.spaces q = some sq →
      Disjoint ((seat q).territory hh σ.machine.mem)
        ((seat space).territory hh σ.machine.mem ∪ pagesOf σ.spaces space) := fun q sq hq hsq =>
    Set.disjoint_union_right.mpr ⟨h.territories_apart hsp hsq hq,
      Set.disjoint_right.mpr fun f hf => h.held_out hsq (hmem f hf)⟩
  refine h.change space (fun q hq => Function.update_of_ne hq _ _) (fun _ _ => rfl) hvalid hspares
    hmine (fun sp₁ hsp₁ => ?_) (fun f q hf => ?_) (fun f => ?_) ?_ (fun f hf hfree' => ?_) rfl ?_
  · exact absurd (hgone.symm.trans hsp₁) (by simp)
  · by_cases hq : q = space
    · subst hq
      obtain ⟨sq, -, -, hsq, -⟩ := hf
      exact absurd (hgone.symm.trans hsq) (by simp)
    · rw [pagesOf_of_ne hq] at hf
      exact ⟨h.bound f q hf, fun hmine => hunshared q hq f hmine hf⟩
  · rw [own_of_none hgone, own_some hsp, Set.mem_empty_iff_false, or_false, hfree f, Set.mem_sdiff]
    have hheld := hmem f
    clear * - hheld
    tauto
  · rw [own_of_none hgone]
    exact Set.disjoint_empty _
  · rcases (hfree f).mp hfree' with hold | hterritory | hpage
    · exact h.held_used hf.1 hold
    · exact h.held_out hsp hf.1 hterritory
    · exact hf.2 hpage
  · dsimp only
    rw [Function.update_of_ne (Ne.symm hne)]
    exact h.home

end Family

end Osiris.Spaces
