import Osiris.Verification.Spaces.Copies
import Osiris.Verification.Vmm.Frames

/-! # Runs of the memory management

From one empty address space on, whatever is allocated, mapped, copied and released. -/

namespace Osiris.Spaces

open ByteMemory Strings Page Vmm Clone Radix Ledger Transition

/-! ## Steps -/

/-- A permitted request, and what it returns. -/
def Session.Step (hh home : Word) (σ : Session) (label : Request × Response) (σ' : Session) : Prop :=
  (σ.world hh).Permits home label.1 ∧ serve hh σ label.1 = (label.2, σ')

/-- What users may ask for, and get. -/
def World.Step (home : Word) (w : World) (label : Request × Response) (w' : World) : Prop :=
  w.Permits home label.1 ∧ w.Acts label.1 label.2 w'

/-- Nothing is held, and the only space is `home`, in which nothing is bound. -/
def Session.initial (home : Word) (s : Machine) : Session :=
  ⟨s, ∅, Function.update (fun _ => none) home (some fun _ => none)⟩

def World.initial (home : Word) : World :=
  ⟨Function.update (fun _ => none) home (some fun _ => none), fun _ => none⟩

/-- The `pagemap_t` at `home` leads to an empty PML4. -/
structure Starts (hh : Word) (s : Machine) (home : Word) (seat : Seat) : Prop where
  empty : EmptyPml4 hh s seat.root
  top : load64 s.mem home = frameVirt hh seat.root
  inside : ∀ x, InRange home 8 x → InFrame hh seat.handle x
  handle_lt : seat.handle < 2 ^ 40
  handle_used : ¬ s.pmm.Free seat.handle
  handle_ne : seat.handle ≠ seat.root

/-- The frames that the spaces and pages of a run can have. -/
def poolOf (s : Machine) (seat : Seat) : Set ℕ :=
  {f | s.pmm.Free f ∨ f = seat.root ∨ f = seat.handle}

section

variable {hh home space : Word} {s : Machine} {seat₀ : Seat} {pool : Set ℕ} {σ σ' : Session}
  {label : Request × Response} {labels : List (Request × Response)} {f : ℕ}

theorem initial_spaces {q : Word} {sq : Space} (hsq : (Session.initial home s).spaces q = some sq) :
    q = home ∧ sq = fun _ => none := by
  unfold Session.initial at hsq
  by_cases hq : q = home
  · subst hq
    dsimp only at hsq
    rw [Function.update_self, Option.some.injEq] at hsq
    exact ⟨rfl, hsq.symm⟩
  · dsimp only at hsq
    rw [Function.update_of_ne hq] at hsq
    exact absurd hsq (by simp)

theorem initial_home : (Session.initial home s).spaces home = some fun _ => none := by
  unfold Session.initial
  dsimp only
  rw [Function.update_self]

theorem Starts.family (h : Starts hh s home seat₀) :
    Family hh home (poolOf s seat₀) (fun _ => seat₀) (Session.initial home s) := by
  have hfoot : footprint (link hh s.mem) 3 seat₀.root = {seat₀.root} :=
    footprint_of_empty (fun k => link_of_zero (h.empty.zeroed k)) 3
  have hseated : Seated hh s home (fun _ => none) seat₀ := by
    refine ⟨⟨∅, StateInv.initial h.empty⟩, fun n b hb => absurd hb (by simp),
      fun n b hb => absurd hb (by simp), h.top, h.inside, h.handle_lt, h.handle_used, ?_⟩
    rw [hfoot]
    exact h.handle_ne
  have hterritory : ∀ f, f ∈ seat₀.territory hh s.mem ↔ f = seat₀.handle ∨ f = seat₀.root := by
    intro f
    unfold Seat.territory
    rw [hfoot, Set.mem_insert_iff, Set.mem_singleton_iff]
  have hown : own hh (fun _ => seat₀) (Session.initial home s) (some home) =
      seat₀.territory hh s.mem := own_some initial_home
  have hothers : ∀ i, i ≠ some home → own hh (fun _ => seat₀) (Session.initial home s) i = ∅ := by
    intro i hi
    cases i with
    | none => rfl
    | some q =>
        refine own_of_none (Option.eq_none_iff_forall_ne_some.mpr fun sq hsq => hi ?_)
        rw [(initial_spaces hsq).1]
  refine ⟨fun q sq hsq => ?_, fun q hq hne => ?_, fun f q hf => ?_, ⟨fun i j hij => ?_, fun i => ?_,
    fun f => ?_⟩, fun f hf => ?_, by rw [initial_home]; simp⟩
  · obtain ⟨rfl, rfl⟩ := initial_spaces hsq
    exact hseated
  · obtain ⟨sq, hsq⟩ := Option.ne_none_iff_exists'.mp hq
    exact absurd (initial_spaces hsq).1 hne
  · obtain ⟨sq, n, b, hsq, hb, -⟩ := hf
    obtain ⟨-, rfl⟩ := initial_spaces hsq
    exact absurd hb (by simp)
  · by_cases hi : i = some home
    · rw [hothers j fun hj => hij (hi.trans hj.symm)]
      exact Set.disjoint_empty _
    · rw [hothers i hi]
      exact Set.empty_disjoint _
  · by_cases hi : i = some home
    · subst hi
      rw [hown]
      exact Set.disjoint_right.mpr fun f hf => hseated.territory_used hf
    · rw [hothers i hi]
      exact Set.disjoint_empty _
  · change (s.pmm.Free f ∨ f = seat₀.root ∨ f = seat₀.handle) ↔ s.pmm.Free f ∨ _
    refine or_congr_right ⟨fun hf => ⟨some home, ?_⟩, ?_⟩
    · rw [hown, hterritory]
      exact hf.symm
    · rintro ⟨i, hi⟩
      by_cases hih : i = some home
      · subst hih
        rw [hown, hterritory] at hi
        exact hi.symm
      · rw [hothers i hih] at hi
        exact absurd hi (Set.notMem_empty f)
  · rcases hf with hfree | hroot | hhandle
    · exact .inr (.inr ⟨hfree.1, h.empty.valid.ne_zero_of_free hfree⟩)
    · exact .inl hroot
    · exact .inr (.inl hhandle)

/-- Every permitted request is carried out as the users rely on. -/
theorem Family.serves {seat : Word → Seat} (h : Family hh home pool seat σ) (hhigh : HigherHalf hh)
    {req : Request} (hpermit : (σ.world hh).Permits home req) :
    Serves hh home pool seat σ req (serve hh σ req) := by
  cases req with
  | allocate => exact h.allocate
  | free page => exact h.free hpermit
  | map space virtAddr physAddr flags => exact h.map hpermit
  | unmap space virtAddr => exact h.unmap hpermit
  | translate space virtAddr =>
      obtain ⟨sp, hsp⟩ := Option.ne_none_iff_exists'.mp hpermit
      refine ⟨seat, rfl, h, ?_⟩
      change World.Acts _ _ (.address (vmmVirtToPhys hh σ.machine _ virtAddr)) _
      rw [h.translate_eq hsp]
      exact .translated
  | load space virtAddr =>
      obtain ⟨sp, hsp⟩ := Option.ne_none_iff_exists'.mp hpermit
      refine ⟨seat, rfl, h, ?_⟩
      change World.Acts _ _ (.value ((access hh σ.machine space virtAddr).map _)) _
      rw [h.load_eq hsp]
      exact .loaded
  | store space virtAddr value => exact h.store hpermit
  | clone space => exact h.clone hhigh hpermit
  | release space => exact h.release hhigh hpermit

theorem Family.step {seat : Word → Seat} (h : Family hh home pool seat σ) (hhigh : HigherHalf hh)
    (hstep : Session.Step hh home σ label σ') :
    (∃ seat', seat' home = seat home ∧ Family hh home pool seat' σ') ∧
      World.Step home (σ.world hh) label (σ'.world hh) := by
  obtain ⟨hpermit, hserve⟩ := hstep
  obtain ⟨seat', hhome, hfamily, hacts⟩ := h.serves hhigh hpermit
  rw [hserve] at hfamily hacts
  exact ⟨⟨seat', hhome, hfamily⟩, hpermit, hacts⟩

theorem world_initial : (Session.initial home s).world hh = World.initial home :=
  World.ext rfl (funext fun f => world_pages_of_notMem (Set.notMem_empty f))

end

/-! ## A machine to start from -/

/-- The `pagemap_t` is in frame 20, which the allocator does not manage. -/
def homeSeat : Seat :=
  ⟨1, 20⟩

def homeSpace : Word :=
  frameVirt directMap 20

/-- Sixteen frames, of which frame 1 holds the PML4, and a `pagemap_t` that leads to it. -/
def sessionMachine : Machine :=
  { freshMachine with mem := store64 freshMachine.mem homeSpace (frameVirt directMap 1) }

theorem sessionMachine_samePage {f : ℕ} (hf : f < 20) :
    SamePage directMap freshMachine.mem sessionMachine.mem f := by
  change SamePage directMap _ (store64 _ (frameVirt directMap 20) _) f
  rw [store64_eq_writeEntry]
  exact samePage_writeEntry (limit_of_lt (by norm_num)) (limit_of_lt (by omega)) (by omega) _ _ _

theorem sessionMachine_starts : Starts directMap sessionMachine homeSpace homeSeat := by
  have hempty := freshMachine_emptyPml4
  refine ⟨⟨hempty.valid.of_free rfl hempty.valid.zero_used, by decide, hempty.root_used,
      fun index => ?_⟩,
    load64_store64_same _ _ _, fun x hx => lt_trans hx (by norm_num), by decide,
    fun hfree => absurd hfree.1 (by decide), by decide⟩
  change entry directMap sessionMachine.mem 1 index = 0#64
  rw [entry_congr (sessionMachine_samePage (by norm_num))]
  exact hempty.zeroed index

theorem sessionMachine_allocate : allocatePage directMap sessionMachine =
    (frameAddr 2, sessionMachine.take directMap 2) := by
  have hbits : ∀ i < 16, freshMachine.pmm.memoryBitmap.get i = decide (i < 2) := by decide
  have htwo : sessionMachine.pmm.Free 2 := ⟨by decide, hbits 2 (by norm_num)⟩
  rcases allocatePage_cases directMap sessionMachine with ⟨-, hnone⟩ | ⟨i, hi, hlowest, hok⟩
  · exact absurd htwo (hnone 2)
  · have hge := (hbits i (Nat.lt_succ_of_le hi.1)).symm.trans hi.2
    rw [decide_eq_false_iff_not] at hge
    have heq : i = 2 := by
      by_contra hne
      exact hlowest 2 (by omega) htwo
    rw [hok, heq]

theorem Family.step_home {hh home : Word} {pool : Set ℕ} {seat : Word → Seat} {σ : Session}
    (h : Family hh home pool seat σ) : Session.Step hh home σ
      (.clone home, (serve hh σ (.clone home)).1) (serve hh σ (.clone home)).2 :=
  ⟨h.home, Prod.mk.eta.symm⟩

theorem Family.step_map {hh home : Word} {pool : Set ℕ} {seat : Word → Seat} {σ : Session}
    (h : Family hh home pool seat σ) (virtAddr physAddr flags : Word)
    (hphys : physAddr.toNat < 2 ^ 52) (hflags : pteGetAddr flags = 0#64)
    (hheld : frameOf physAddr ∈ σ.held) : Session.Step hh home σ
      (.map home virtAddr physAddr flags, (serve hh σ (.map home virtAddr physAddr flags)).1)
      (serve hh σ (.map home virtAddr physAddr flags)).2 :=
  ⟨⟨h.home, hphys, hflags, by rw [world_pages hheld]; simp⟩, Prod.mk.eta.symm⟩

/-- The first page has been allocated. -/
def firstSession : Session :=
  ⟨sessionMachine.take directMap 2, insert 2 ∅, (Session.initial homeSpace sessionMachine).spaces⟩

theorem firstSession_step : Session.Step directMap homeSpace
    (Session.initial homeSpace sessionMachine) (.allocate, .address (frameAddr 2)) firstSession :=
  ⟨trivial, serve_allocate sessionMachine_allocate (by decide) (by norm_num)⟩

theorem firstSession_held : frameOf (frameAddr 2) ∈ firstSession.held := by
  rw [frameOf_frameAddr (by norm_num)]
  exact Set.mem_insert 2 ∅

/-- A page is allocated, mapped into the first space, and the space is copied. -/
theorem sessionMachine_trace : ∃ labels σ, labels.length = 3 ∧
    Trace (Session.Step directMap homeSpace) (Session.initial homeSpace sessionMachine) labels σ := by
  have hhigh : HigherHalf directMap := by decide
  obtain ⟨⟨seat₁, -, hfamily₁⟩, -⟩ := sessionMachine_starts.family.step hhigh firstSession_step
  have hsecond := hfamily₁.step_map 0x1000#64 (frameAddr 2) pteWritable (by decide) (by decide)
    firstSession_held
  obtain ⟨⟨seat₂, -, hfamily₂⟩, -⟩ := hfamily₁.step hhigh hsecond
  exact ⟨_, _, rfl, .cons firstSession_step (.cons hsecond (.cons hfamily₂.step_home .nil))⟩

/-- Whatever is asked of the allocator and of the page tables of all spaces, in any order: every
answer, and every access through the page tables, is as if there were only pages and spaces that map
to them, and copies of spaces shared nothing. -/
theorem tables_refine_spaces (hh home : Word) (hhigh : HigherHalf hh) (s : Machine) (seat : Seat)
    (hstart : Starts hh s home seat) (labels : List (Request × Response)) (σ : Session)
    (htrace : Trace (Session.Step hh home) (Session.initial home s) labels σ) :
    Trace (World.Step home) (World.initial home) labels (σ.world hh) := by
  have hsim : ∃ w, Trace (World.Step home) ((Session.initial home s).world hh) (labels.map id) w ∧
      w = σ.world hh ∧ ∃ seat', Family hh home (poolOf s seat) seat' σ :=
    htrace.simulate
      (R := fun σ w => w = σ.world hh ∧ ∃ seat', Family hh home (poolOf s seat) seat' σ)
      (fun σ w label σ' ⟨hw, seat', hfamily⟩ hstep => by
        obtain ⟨⟨seat₁, -, hfamily'⟩, hworld⟩ := hfamily.step hhigh hstep
        exact ⟨_, hw ▸ hworld, rfl, seat₁, hfamily'⟩)
      ⟨rfl, _, hstart.family⟩
  obtain ⟨w, hw, rfl, -⟩ := hsim
  rwa [List.map_id, world_initial] at hw

theorem tables_refine_spaces_sessionMachine : ∃ labels σ, labels.length = 3 ∧
    Trace (World.Step homeSpace) (World.initial homeSpace) labels (Session.world directMap σ) := by
  obtain ⟨labels, σ, hlength, htrace⟩ := sessionMachine_trace
  exact ⟨labels, σ, hlength, tables_refine_spaces directMap homeSpace (by decide) sessionMachine
    homeSeat sessionMachine_starts labels σ htrace⟩

/-! ## Isolation -/

section

variable {hh home space child : Word} {s : Machine} {seat₀ : Seat} {pool : Set ℕ} {σ σ' : Session}
  {labels : List (Request × Response)}

theorem Family.backed {seat : Word → Seat} (h : Family hh home pool seat σ) :
    (σ.world hh).Backed := by
  intro q f hf
  rw [world_pages (h.bound f q hf)]
  simp

/-- The steps of others. -/
def Session.StepApart (hh home space : Word) (σ : Session) (label : Request × Response)
    (σ' : Session) : Prop :=
  Session.Step hh home σ label σ' ∧ ¬ (σ.world hh).Concerns space label.1

/-- A space that shares nothing keeps its pages and what is in them. -/
theorem Family.undisturbed {seat : Word → Seat} (h : Family hh home pool seat σ)
    (hhigh : HigherHalf hh) (hspace : σ.spaces space ≠ none) (hshare : (σ.world hh).Unshared space)
    (htrace : Trace (Session.StepApart hh home space) σ labels σ') (v : Word) :
    (access hh σ'.machine space v).map σ'.machine.mem =
      (access hh σ.machine space v).map σ.machine.mem := by
  obtain ⟨⟨seat', h'⟩, hspace', -, hload⟩ := htrace.invariant
    (I := fun τ => (∃ seat, Family hh home pool seat τ) ∧ τ.spaces space ≠ none ∧
      (τ.world hh).Unshared space ∧ (τ.world hh).load space v = (σ.world hh).load space v)
    (fun τ label τ' ⟨⟨_, hfamily⟩, hspace, hshare, hload⟩ ⟨hstep, hnot⟩ => by
      obtain ⟨⟨seat₁, -, hfamily'⟩, hpermit, hacts⟩ := hfamily.step hhigh hstep
      obtain ⟨hsame, hshare'⟩ := hacts.undisturbed hpermit hnot hfamily.backed hspace hshare
      refine ⟨⟨seat₁, hfamily'⟩, ?_, hshare', (hsame.load_eq v).trans hload⟩
      exact fun hnone => hspace (hsame.spaces.symm.trans hnone))
    ⟨⟨seat, h⟩, hspace, hshare, rfl⟩
  obtain ⟨sp, hsp⟩ := Option.ne_none_iff_exists'.mp hspace
  obtain ⟨sp', hsp'⟩ := Option.ne_none_iff_exists'.mp hspace'
  rw [h.load_eq hsp, h'.load_eq hsp', hload]

/-- A successful copy, as the users see it. -/
theorem Family.copied {seat : Word → Seat} (h : Family hh home pool seat σ) (hhigh : HigherHalf hh)
    (hclone : Session.Step hh home σ (.clone space, .address child) σ') (hne : child ≠ 0#64) :
    ∃ sp sp', World.Copied (σ.world hh) (σ'.world hh) space child sp sp' := by
  obtain ⟨-, -, hacts⟩ := h.step hhigh hclone
  generalize σ'.world hh = w' at hacts ⊢
  generalize hreq : Request.clone space = req at hacts
  generalize hresp : Response.address child = resp at hacts
  cases hacts with
  | copied _ hcopied =>
      cases hreq
      cases hresp
      exact ⟨_, _, hcopied⟩
  | notCopied => exact absurd (Response.address.inj hresp) hne
  | _ => exact absurd hreq (by simp)

end

end Osiris.Spaces
