import Osiris.Verification.Vmm.Refinement

/-! # Address spaces and the pages in them

What the users of page tables and frames rely on. They hold pages, which have contents, and put them
into address spaces. A copy of an address space has pages of its own. -/

namespace Osiris.Spaces

open ByteMemory Page Vmm

/-- The bytes of a page. -/
abbrev Contents := Fin 4096 → Byte

/-- What the pages of an address space are bound to. -/
abbrev Space := ℕ → Option Binding

/-- Calls of the allocator and of the page tables, and accesses through the page tables. A space is
named by the address of its `pagemap_t`. -/
inductive Request where
  | allocate
  | free (page : Word)
  | map (space virtAddr physAddr flags : Word)
  | unmap (space virtAddr : Word)
  | translate (space virtAddr : Word)
  | load (space virtAddr : Word)
  | store (space virtAddr : Word) (value : Byte)
  | clone (space : Word)
  | release (space : Word)

inductive Response where
  | done
  | address (a : Word)
  | success (ok : Bool)
  | value (v : Option Byte)

/-- The spaces there are, and the pages that are held, by frame number. -/
@[ext] structure World where
  spaces : Word → Option Space
  pages : ℕ → Option Contents

/-- Page `n` of a space is bound to `b`. -/
def bindPage (spaces : Word → Option Space) (space : Word) (n : ℕ) (b : Option Binding) :
    Word → Option Space :=
  Function.update spaces space ((spaces space).map fun sp => Function.update sp n b)

/-- The place of an address in its page. -/
def pageOffset (virtAddr : Word) : Fin 4096 :=
  ⟨virtAddr.toNat % 4096, Nat.mod_lt _ (by norm_num)⟩

/-- The frame of a binding is that of the address bound. -/
theorem frameOf_bindingOf (physAddr flags : Word) :
    frameOf (bindingOf physAddr flags).frame = frameOf physAddr := by
  have haddr : pteGetAddr (alignDown physAddr 4096#64) = pteGetAddr physAddr := by
    unfold pteGetAddr alignDown
    rw [BitVec.and_assoc]
    rfl
  unfold frameOf
  exact congrArg (fun a : Word => a.toNat / 4096) haddr

namespace World

def lookup (w : World) (space virtAddr : Word) : Option Binding :=
  (w.spaces space).bind fun sp => sp (pageNumber virtAddr)

def translate (w : World) (space virtAddr : Word) : Word :=
  match w.lookup space virtAddr with
  | some b => b.frame + virtAddr % 4096#64
  | none => -1#64

def load (w : World) (space virtAddr : Word) : Option Byte :=
  (w.lookup space virtAddr).bind fun b =>
    (w.pages (frameOf b.frame)).map fun contents => contents (pageOffset virtAddr)

/-- A byte of a page is written. -/
def poke (w : World) (f : ℕ) (offset : Fin 4096) (value : Byte) : World :=
  { w with
    pages := Function.update w.pages f
      ((w.pages f).map fun contents => Function.update contents offset value) }

/-- The space has page `f`. -/
def Maps (w : World) (space : Word) (f : ℕ) : Prop :=
  ∃ sp n b, w.spaces space = some sp ∧ sp n = some b ∧ frameOf b.frame = f

/-- No other space has a page of this one. -/
def Unshared (w : World) (space : Word) : Prop :=
  ∀ other, other ≠ space → ∀ f, w.Maps space f → ¬ w.Maps other f

/-- The space has no page twice. -/
def Simple (w : World) (space : Word) : Prop :=
  ∀ sp m n b b', w.spaces space = some sp → sp m = some b → sp n = some b' →
    frameOf b.frame = frameOf b'.frame → m = n

/-- Users free a page that they hold and have nowhere mapped, map pages that they hold, and write
where something is mapped. They release a space that shares nothing, but never the space `home`. -/
def Permits (home : Word) (w : World) : Request → Prop
  | .allocate => True
  | .free page => page.toNat % 4096 = 0 ∧ page.toNat < 2 ^ 52 ∧ w.pages (frameOf page) ≠ none ∧
      ∀ space, ¬ w.Maps space (frameOf page)
  | .map space _ physAddr flags => w.spaces space ≠ none ∧ physAddr.toNat < 2 ^ 52 ∧
      pteGetAddr flags = 0#64 ∧ w.pages (frameOf physAddr) ≠ none
  | .unmap space _ => w.spaces space ≠ none
  | .translate space _ => w.spaces space ≠ none
  | .load space _ => w.spaces space ≠ none
  | .store space virtAddr _ => w.lookup space virtAddr ≠ none
  | .clone space => w.spaces space ≠ none
  | .release space => w.spaces space ≠ none ∧ space ≠ home ∧ w.Unshared space ∧ w.Simple space

/-- `child` is a new space with the pages of `parent`, each of them copied to a page that nobody
held, with the low twelve of its flags. -/
structure Copied (w w' : World) (parent child : Word) (sp sp' : Space) : Prop where
  source : w.spaces parent = some sp
  fresh : w.spaces child = none
  spaces : w'.spaces = Function.update w.spaces child (some sp')
  unmapped : ∀ n, sp n = none → sp' n = none
  mapped : ∀ n b, sp n = some b → ∃ b', sp' n = some b' ∧ b'.flags = b.flags &&& 0xFFF#64 ∧
    w.pages (frameOf b'.frame) = none ∧ w'.pages (frameOf b'.frame) = w.pages (frameOf b.frame)
  simple : ∀ m n b b', sp' m = some b → sp' n = some b' → frameOf b.frame = frameOf b'.frame → m = n
  rest : ∀ f, (∀ n b, sp' n = some b → frameOf b.frame ≠ f) → w'.pages f = w.pages f

/-- The space is gone, and its pages are no longer held. -/
structure Released (w w' : World) (space : Word) : Prop where
  spaces : w'.spaces = Function.update w.spaces space none
  gone : ∀ f, w.Maps space f → w'.pages f = none
  rest : ∀ f, ¬ w.Maps space f → w'.pages f = w.pages f

/-- What a request may do, and what it answers. -/
inductive Acts (w : World) : Request → Response → World → Prop where
  | allocated {f : ℕ} : w.pages f = none → frameAddr f ≠ 0#64 → Acts w .allocate
      (.address (frameAddr f)) { w with pages := Function.update w.pages f (some fun _ => 0#8) }
  | exhausted : Acts w .allocate (.address 0#64) w
  | freed {page : Word} : Acts w (.free page) .done
      { w with pages := Function.update w.pages (frameOf page) none }
  | mapped {space virtAddr physAddr flags : Word} :
      Acts w (.map space virtAddr physAddr flags) (.success true)
        { w with
          spaces := bindPage w.spaces space (pageNumber virtAddr)
            (some (bindingOf physAddr flags)) }
  | notMapped {space virtAddr physAddr flags : Word} :
      Acts w (.map space virtAddr physAddr flags) (.success false) w
  | unmapped {space virtAddr : Word} : virtAddr % 4096#64 = 0#64 →
      Acts w (.unmap space virtAddr) (.success true)
        { w with spaces := bindPage w.spaces space (pageNumber virtAddr) none }
  | unaligned {space virtAddr : Word} : virtAddr % 4096#64 ≠ 0#64 →
      Acts w (.unmap space virtAddr) (.success false) w
  | translated {space virtAddr : Word} :
      Acts w (.translate space virtAddr) (.address (w.translate space virtAddr)) w
  | loaded {space virtAddr : Word} :
      Acts w (.load space virtAddr) (.value (w.load space virtAddr)) w
  | stored {space virtAddr : Word} {value : Byte} {b : Binding} :
      w.lookup space virtAddr = some b → Acts w (.store space virtAddr value) .done
        (w.poke (frameOf b.frame) (pageOffset virtAddr) value)
  | copied {space child : Word} {sp sp' : Space} {w' : World} : child ≠ 0#64 →
      Copied w w' space child sp sp' → Acts w (.clone space) (.address child) w'
  | notCopied {space : Word} : Acts w (.clone space) (.address 0#64) w
  | released {space : Word} {w' : World} : Released w w' space → Acts w (.release space) .done w'

theorem Acts.congr {w w' w'' : World} {req : Request} {resp : Response} (h : Acts w req resp w')
    (hspaces : w''.spaces = w'.spaces) (hpages : ∀ f, w''.pages f = w'.pages f) :
    Acts w req resp w'' := by
  obtain rfl : w'' = w' := World.ext hspaces (funext hpages)
  exact h

/-! ## Spaces that nobody disturbs -/

/-- Every page of a space is held. -/
def Backed (w : World) : Prop :=
  ∀ space f, w.Maps space f → w.pages f ≠ none

/-- The request changes the space or a page of it, or puts such a page into another space. -/
def Concerns (w : World) (space : Word) : Request → Prop
  | .map other _ physAddr _ => other = space ∨ w.Maps space (frameOf physAddr)
  | .unmap other _ => other = space
  | .store other _ _ => other = space
  | .release other => other = space
  | _ => False

/-- The space and its pages are what they were. -/
structure Undisturbed (w w' : World) (space : Word) : Prop where
  spaces : w'.spaces space = w.spaces space
  pages : ∀ f, w.Maps space f → w'.pages f = w.pages f

section

variable {w w' : World} {space other : Word} {f n : ℕ} {b : Option Binding}

theorem Undisturbed.refl (w : World) (space : Word) : Undisturbed w w space :=
  ⟨rfl, fun _ _ => rfl⟩

theorem maps_congr (h : w'.spaces space = w.spaces space) : w'.Maps space f ↔ w.Maps space f := by
  unfold Maps
  rw [h]

theorem maps_of_lookup {virtAddr : Word} {b : Binding} (h : w.lookup space virtAddr = some b) :
    w.Maps space (frameOf b.frame) := by
  obtain ⟨sp, hsp, hb⟩ := Option.bind_eq_some_iff.mp h
  exact ⟨sp, _, b, hsp, hb, rfl⟩

/-- A space that is left alone reads the same everywhere. -/
theorem Undisturbed.load_eq (h : Undisturbed w w' space) (virtAddr : Word) :
    w'.load space virtAddr = w.load space virtAddr := by
  have hlookup : w'.lookup space virtAddr = w.lookup space virtAddr := by
    unfold lookup
    rw [h.spaces]
  unfold load
  rw [hlookup]
  cases hb : w.lookup space virtAddr with
  | none => rfl
  | some b =>
      simp only [Option.bind_some]
      rw [h.pages _ (maps_of_lookup hb)]

theorem bindPage_of_ne (spaces : Word → Option Space) (h : other ≠ space) :
    bindPage spaces space n b other = spaces other :=
  Function.update_of_ne h _ _

/-- After a page has been bound, the space has the pages it had, and the new one. -/
theorem maps_bindPage (h : Maps { w with spaces := bindPage w.spaces space n b } space f) :
    w.Maps space f ∨ ∃ b', b = some b' ∧ frameOf b'.frame = f := by
  obtain ⟨sp, m, b', hsp, hb', rfl⟩ := h
  unfold bindPage at hsp
  dsimp only at hsp
  rw [Function.update_self, Option.map_eq_some_iff] at hsp
  obtain ⟨old, hold, rfl⟩ := hsp
  by_cases hm : m = n
  · rw [hm, Function.update_self] at hb'
    exact .inr ⟨b', hb', rfl⟩
  · rw [Function.update_of_ne hm] at hb'
    exact .inl ⟨old, m, b', hold, hb', rfl⟩

/-- Nobody else gets a page of the space. -/
theorem Unshared.of_maps (h : w.Unshared space) (hspace : w'.spaces space = w.spaces space)
    (hmaps : ∀ other, other ≠ space → ∀ f, w'.Maps other f → w.Maps other f ∨ ¬ w.Maps space f) :
    w'.Unshared space := by
  intro other hne f hf hother
  have hf' := (maps_congr hspace).mp hf
  rcases hmaps other hne f hother with hold | hnot
  · exact h other hne f hf' hold
  · exact hnot hf'

theorem Undisturbed.of_spaces (hspaces : w'.spaces = w.spaces)
    (hpages : ∀ f, w.Maps space f → w'.pages f = w.pages f) (h : w.Unshared space) :
    Undisturbed w w' space ∧ w'.Unshared space :=
  ⟨⟨by rw [hspaces], hpages⟩, h.of_maps (by rw [hspaces]) fun other _ f hf =>
    .inl ((maps_congr (by rw [hspaces])).mp hf)⟩

theorem Undisturbed.bindPage (hne : space ≠ other) (h : w.Unshared space)
    (hb : ∀ b', b = some b' → ¬ w.Maps space (frameOf b'.frame)) :
    Undisturbed w { w with spaces := Spaces.bindPage w.spaces other n b } space ∧
      Unshared { w with spaces := Spaces.bindPage w.spaces other n b } space := by
  have hspace : Spaces.bindPage w.spaces other n b space = w.spaces space := bindPage_of_ne _ hne
  refine ⟨⟨hspace, fun _ _ => rfl⟩, h.of_maps hspace fun q hq f hf => ?_⟩
  by_cases hqo : q = other
  · subst hqo
    rcases maps_bindPage hf with hold | ⟨b', rfl, rfl⟩
    · exact .inl hold
    · exact .inr (hb b' rfl)
  · have hsame : Spaces.bindPage w.spaces other n b q = w.spaces q := bindPage_of_ne _ hqo
    exact .inl ((maps_congr hsame).mp hf)

variable {sp sp' : Space} {parent child : Word}

/-- The pages of a copy were held by nobody. -/
theorem Copied.pages_none (h : Copied w w' parent child sp sp') {n : ℕ} {b : Binding}
    (hb : sp' n = some b) : w.pages (frameOf b.frame) = none := by
  cases hn : sp n with
  | none =>
      rw [h.unmapped n hn] at hb
      exact absurd hb (by simp)
  | some b₀ =>
      obtain ⟨b', hb', -, hnone, -⟩ := h.mapped n b₀ hn
      obtain rfl := Option.some.inj (hb'.symm.trans hb)
      exact hnone

theorem Copied.pages_eq (h : Copied w w' parent child sp sp') (hf : w.pages f ≠ none) :
    w'.pages f = w.pages f := by
  refine h.rest f fun n b hb heq => hf ?_
  rw [← heq]
  exact h.pages_none hb

theorem Copied.maps_child (h : Copied w w' parent child sp sp') :
    w'.Maps child f ↔ ∃ n b, sp' n = some b ∧ frameOf b.frame = f := by
  unfold Maps
  rw [h.spaces, Function.update_self]
  simp only [Option.some.injEq]
  constructor
  · rintro ⟨sp₁, n, b, rfl, hb, hf⟩
    exact ⟨n, b, hb, hf⟩
  · rintro ⟨n, b, hb, hf⟩
    exact ⟨sp', n, b, rfl, hb, hf⟩

theorem Copied.spaces_of_ne {q : Word} (h : Copied w w' parent child sp sp') (hq : q ≠ child) :
    w'.spaces q = w.spaces q := by
  rw [h.spaces, Function.update_of_ne hq]

/-- A copy reads as the original did. -/
theorem Copied.load_eq (h : Copied w w' parent child sp sp') (virtAddr : Word) :
    w'.load child virtAddr = w.load parent virtAddr := by
  have hchild : w'.lookup child virtAddr = sp' (pageNumber virtAddr) := by
    unfold lookup
    rw [h.spaces, Function.update_self]
    rfl
  have hparent : w.lookup parent virtAddr = sp (pageNumber virtAddr) := by
    unfold lookup
    rw [h.source]
    rfl
  unfold load
  rw [hchild, hparent]
  cases hn : sp (pageNumber virtAddr) with
  | none =>
      rw [h.unmapped _ hn]
      rfl
  | some b =>
      obtain ⟨b', hb', -, -, hpages⟩ := h.mapped _ b hn
      rw [hb']
      simp only [Option.bind_some]
      rw [hpages]

theorem Copied.undisturbed (h : Copied w w' parent child sp sp') (hbacked : w.Backed)
    (hspace : w.spaces space ≠ none) (hshare : w.Unshared space) :
    Undisturbed w w' space ∧ w'.Unshared space := by
  have hne : space ≠ child := by
    rintro rfl
    exact hspace h.fresh
  have hsame := h.spaces_of_ne hne
  refine ⟨⟨hsame, fun f hf => h.pages_eq (hbacked space f hf)⟩,
    hshare.of_maps hsame fun q _ f hf => ?_⟩
  by_cases hq : q = child
  · subst hq
    obtain ⟨n, b, hb, rfl⟩ := h.maps_child.mp hf
    exact .inr fun hmaps => hbacked space _ hmaps (h.pages_none hb)
  · exact .inl ((maps_congr (h.spaces_of_ne hq)).mp hf)

theorem Released.undisturbed (h : Released w w' other) (hne : other ≠ space)
    (hshare : w.Unshared space) : Undisturbed w w' space ∧ w'.Unshared space := by
  have hsame : ∀ q, q ≠ other → w'.spaces q = w.spaces q := fun q hq => by
    rw [h.spaces, Function.update_of_ne hq]
  refine ⟨⟨hsame space hne.symm, fun f hf => h.rest f (hshare other hne f hf)⟩,
    hshare.of_maps (hsame space hne.symm) fun q _ f hf => .inl ?_⟩
  by_cases hq : q = other
  · obtain ⟨sp, n, b, hsp, -, -⟩ := hf
    rw [hq, h.spaces, Function.update_self] at hsp
    exact absurd hsp (by simp)
  · exact (maps_congr (hsame q hq)).mp hf

/-- A request that does not concern a space which shares nothing leaves it alone. -/
theorem Acts.undisturbed {home : Word} {req : Request} {resp : Response}
    (h : Acts w req resp w') (hpermit : w.Permits home req) (hnot : ¬ w.Concerns space req)
    (hbacked : w.Backed) (hspace : w.spaces space ≠ none) (hshare : w.Unshared space) :
    Undisturbed w w' space ∧ w'.Unshared space := by
  cases h with
  | @allocated f hnone _ =>
      refine Undisturbed.of_spaces rfl (fun g hg => Function.update_of_ne ?_ _ _) hshare
      rintro rfl
      exact hbacked space g hg hnone
  | @freed page =>
      refine Undisturbed.of_spaces rfl (fun g hg => Function.update_of_ne ?_ _ _) hshare
      rintro rfl
      exact hpermit.2.2.2 space hg
  | @mapped q virtAddr physAddr flags =>
      obtain ⟨hq, hframe⟩ := not_or.mp hnot
      refine Undisturbed.bindPage (Ne.symm hq) hshare fun b' hb' => ?_
      obtain rfl := Option.some.inj hb'
      rw [frameOf_bindingOf]
      exact hframe
  | unmapped _ => exact Undisturbed.bindPage (Ne.symm hnot) hshare fun b' hb' => absurd hb' (by simp)
  | @stored q virtAddr value b hb =>
      refine Undisturbed.of_spaces rfl (fun g hg => Function.update_of_ne ?_ _ _) hshare
      rintro rfl
      exact hshare q hnot _ hg (maps_of_lookup hb)
  | copied _ hcopy => exact hcopy.undisturbed hbacked hspace hshare
  | released hreleased => exact hreleased.undisturbed hnot hshare
  | exhausted | notMapped | unaligned _ | translated | loaded | notCopied =>
      exact ⟨Undisturbed.refl w space, hshare⟩

end

end World

end Osiris.Spaces
