import Osiris.Verification.Spaces.Sessions

/-! # The calls that change one space

The allocator's calls, those of the page tables, and accesses through them. -/

namespace Osiris.Spaces

open ByteMemory Strings Page Vmm Clone Radix Ledger

variable {hh home space : Word} {pool mine : Set ℕ} {seat : Word → Seat} {σ σ' : Session}
  {s s' : Machine} {sp sp' : Space} {f : ℕ}

/-! ## What the users see -/

theorem bytesAt_congr {m m' : Mem} (h : SamePage hh m m' f) : bytesAt hh m' f = bytesAt hh m f := by
  funext k
  exact h _ (inRange_add _ k.isLt (by norm_num))

theorem world_pages (hf : f ∈ σ.held) :
    (σ.world hh).pages f = some (bytesAt hh σ.machine.mem f) :=
  if_pos hf

theorem world_pages_of_notMem (hf : f ∉ σ.held) : (σ.world hh).pages f = none :=
  if_neg hf

theorem mem_held_of_pages (h : (σ.world hh).pages f ≠ none) : f ∈ σ.held := by
  by_contra hf
  exact h (world_pages_of_notMem hf)

/-- A page that is held before and after, and left alone. -/
theorem world_pages_eq (hheld : f ∈ σ'.held ↔ f ∈ σ.held)
    (hsame : f ∈ σ.held → SamePage hh σ.machine.mem σ'.machine.mem f) :
    (σ'.world hh).pages f = (σ.world hh).pages f := by
  by_cases hf : f ∈ σ.held
  · rw [world_pages hf, world_pages (hheld.mpr hf), bytesAt_congr (hsame hf)]
  · rw [world_pages_of_notMem hf, world_pages_of_notMem fun h => hf (hheld.mp h)]

theorem Family.held_same (h : Family hh home pool seat σ) (hspares : Spares hh σ.machine s' mine)
    (hf : f ∈ σ.held) (hmine : f ∉ mine) : SamePage hh σ.machine.mem s'.mem f :=
  hspares.same f (h.held_lt hf) hmine (h.held_used hf)

theorem frameOf_frameAddr (hf : f < 2 ^ 40) : frameOf (frameAddr f) = f := by
  have h : frameOf (frameAddr f ||| 0#64) = f := frameOf_frameAddr_or hf (by decide)
  rwa [BitVec.or_zero] at h

theorem frame_of_proper {b : Binding} (h : b.Proper) :
    b.frame = frameAddr (frameOf b.frame) ∧ frameOf b.frame = frameOf b.leaf := by
  have haddr : b.frame = frameAddr (frameOf b.leaf) := by
    rw [← pteGetAddr_eq_frameAddr, h.addr]
  have hframe : frameOf b.frame = frameOf b.leaf := by
    rw [haddr, frameOf_frameAddr (frameOf_lt _)]
  exact ⟨by rw [hframe]; exact haddr, hframe⟩

/-- A request has been carried out: the frames are accounted for, and the users see what `Acts`
says. -/
def Serves (hh home : Word) (pool : Set ℕ) (seat : Word → Seat) (σ : Session) (req : Request)
    (result : Response × Session) : Prop :=
  ∃ seat', seat' home = seat home ∧ Family hh home pool seat' result.2 ∧
    (σ.world hh).Acts req result.1 (result.2.world hh)

/-! ## Frames -/

theorem spares_take (hs : s.Valid hh) {i : ℕ} (hfree : s.pmm.Free i) :
    Spares hh s (s.take hh i) ∅ := by
  refine ⟨rfl, fun f _ hused hnow => hused ((free_take hh s i f).mp hnow).1, fun f hf _ hused => ?_⟩
  refine take_samePage (limit_of_lt (hs.lt_limit hfree.1)) (limit_of_lt hf) ?_
  rintro rfl
  exact hused hfree

theorem spares_freePage (hf : f < 2 ^ 40) : Spares hh s (s.freePage (frameAddr f)) {f} := by
  refine ⟨freePage_highestPage _ _, fun g hg hused hfree => ?_, fun g _ _ _ => SamePage.refl hh _ g⟩
  rcases free_freePage.mp hfree with hold | ⟨haddr, hlimit, -⟩
  · exact hused hold
  · exact hg (frameAddr_inj hlimit (limit_of_lt hf) haddr.symm)

theorem serve_allocate {i : ℕ}
    (hok : allocatePage hh σ.machine = (frameAddr i, σ.machine.take hh i))
    (hne : frameAddr i ≠ 0#64) (hlt : i < 2 ^ 40) : serve hh σ .allocate = (.address (frameAddr i),
      { σ with machine := σ.machine.take hh i, held := insert i σ.held }) := by
  simp only [serve, hok, if_neg hne, frameOf_frameAddr hlt]

theorem Family.allocate (h : Family hh home pool seat σ) :
    Serves hh home pool seat σ .allocate (serve hh σ .allocate) := by
  rcases allocatePage_cases hh σ.machine with ⟨hfail, -⟩ | ⟨i, hfree, -, hok⟩
  · have hserve : serve hh σ .allocate = (.address 0#64, σ) := by
      simp only [serve, hfail, if_true]
    rw [hserve]
    exact ⟨seat, rfl, h, .exhausted⟩
  have hne := h.valid.frameAddr_ne_zero hfree.1 (h.valid.ne_zero_of_free hfree)
  have hlt := h.valid.lt_limit hfree.1
  have hnot : i ∉ σ.held := fun hheld => h.held_used hheld hfree
  have hspares := spares_take h.valid hfree
  rw [serve_allocate hok hne hlt]
  refine ⟨seat, rfl, h.hold (h.valid.take i) hspares (fun q sq _ => Set.disjoint_empty _)
    (fun f => ?_) (fun f hf hnow => ?_) (fun f q hf => .inr (h.bound f q hf)), ?_⟩
  · rw [free_take, Set.mem_insert_iff]
    by_cases hfi : f = i
    · subst hfi
      simp [hfree]
    · simp [hfi]
  · obtain ⟨hfree', hfi⟩ := (free_take hh σ.machine i f).mp hnow
    rcases hf with rfl | hf
    · exact hfi rfl
    · exact h.held_used hf hfree'
  · refine (World.Acts.allocated (world_pages_of_notMem hnot) hne).congr rfl fun f => ?_
    dsimp only
    by_cases hfi : f = i
    · subst hfi
      rw [Function.update_self, world_pages (Set.mem_insert f σ.held)]
      congr 1
      funext k
      exact take_zero _ (inRange_add _ k.isLt (by norm_num))
    · rw [Function.update_of_ne hfi]
      exact world_pages_eq (by simp [hfi]) fun hf => h.held_same hspares hf (Set.notMem_empty f)

theorem Family.free (h : Family hh home pool seat σ) {page : Word}
    (hpermit : (σ.world hh).Permits home (.free page)) :
    Serves hh home pool seat σ (.free page) (serve hh σ (.free page)) := by
  obtain ⟨haligned, hphys, hpages, hunmapped⟩ := hpermit
  have hheld := mem_held_of_pages hpages
  obtain ⟨hle, hzero⟩ := h.held_managed hheld
  have hlt := h.held_lt hheld
  have haddr : page = frameAddr (frameOf page) := by
    apply BitVec.eq_of_toNat_eq
    rw [toNat_frameAddr (limit_of_lt hlt)]
    unfold frameOf
    rw [toNat_pteGetAddr]
    omega
  have hspares : Spares hh σ.machine (σ.machine.freePage page) {frameOf page} := by
    conv in σ.machine.freePage page => rw [haddr]
    exact spares_freePage hlt
  have hnow : ∀ f, (σ.machine.freePage page).pmm.Free f ↔
      σ.machine.pmm.Free f ∨ f = frameOf page := by
    intro f
    rw [Machine.freePage_pmm, free_freePage]
    refine or_congr_right ⟨fun hf => ?_, ?_⟩
    · exact frameAddr_inj hf.2.1 (limit_of_lt hlt) (hf.1.symm.trans haddr)
    · rintro rfl
      exact ⟨haddr, limit_of_lt hlt, hzero, hle⟩
  refine ⟨seat, rfl, h.hold (h.valid.freePage page) hspares (fun q sq hsq => ?_) (fun f => ?_)
    (fun f hf hfree => ?_) (fun f q hf => ⟨h.bound f q hf, ?_⟩),
    World.Acts.freed.congr rfl fun f => ?_⟩
  · exact Set.disjoint_singleton_right.mpr (h.held_out hsq hheld)
  · rw [hnow f, Set.mem_sdiff, Set.mem_singleton_iff]
    by_cases hf : f = frameOf page
    · subst hf
      simp [hheld]
    · simp [hf]
  · rcases (hnow f).mp hfree with hold | rfl
    · exact h.held_used hf.1 hold
    · exact hf.2 rfl
  · rintro rfl
    exact hunmapped q hf
  · dsimp only
    by_cases hf : f = frameOf page
    · subst hf
      rw [Function.update_self]
      exact world_pages_of_notMem fun hmem => hmem.2 rfl
    · rw [Function.update_of_ne hf]
      exact world_pages_eq (by simp [serve, hf]) fun _ => SamePage.refl hh _ f

/-! ## Page tables -/

/-- The tables of a space are changed, and no page. -/
theorem Family.retable (h : Family hh home pool seat σ) (hsp : σ.spaces space = some sp)
    (hspares : Spares hh σ.machine s' (footprint (link hh σ.machine.mem) 3 (seat space).root))
    (hinv : ∃ owned, StateInv hh (seat space).root ⟨s', sp', owned⟩)
    (hlaw : ∀ f, (s'.pmm.Free f ∨ f ∈ footprint (link hh s'.mem) 3 (seat space).root) ↔
      (σ.machine.pmm.Free f ∨ f ∈ footprint (link hh σ.machine.mem) 3 (seat space).root))
    (hbind : ∀ n b, sp' n = some b → sp n = some b ∨
      (b.Proper ∧ (∃ v, pageNumber v = n) ∧ frameOf b.frame ∈ σ.held)) :
    Family hh home pool seat
        { σ with machine := s', spaces := Function.update σ.spaces space (some sp') } ∧
      ∀ f ∈ σ.held, SamePage hh σ.machine.mem s'.mem f := by
  have hseated := h.seated space sp hsp
  have hwide := hspares.mono (Set.subset_insert (seat space).handle _)
  refine ⟨h.edit hsp (hseated.rebound hspares hinv ?_ ?_) hwide ?_ ?_, fun f hf =>
    h.held_same hwide hf (h.held_out hsp hf)⟩
  · intro f hf
    exact ((hlaw f).mp (.inr hf)).symm
  · intro n b hb
    rcases hbind n b hb with hold | ⟨hproper, hpage, -⟩
    · exact ⟨hseated.proper n b hold, hseated.paged n b hold⟩
    · exact ⟨hproper, hpage⟩
  · intro f
    unfold Seat.territory
    rw [Set.mem_insert_iff, Set.mem_insert_iff, or_left_comm, hlaw f, or_left_comm]
  · intro n b hb
    rcases hbind n b hb with hold | ⟨-, -, hheld⟩
    · exact h.bound _ space ⟨sp, n, b, hsp, hold, rfl⟩
    · exact hheld

theorem bindPage_eq (hsp : σ.spaces space = some sp) (n : ℕ) (b : Option Binding) :
    bindPage σ.spaces space n b = Function.update σ.spaces space (some (Function.update sp n b)) := by
  unfold bindPage
  rw [hsp]
  rfl

theorem update_spaces_eq (hsp : σ.spaces space = some sp) :
    Function.update σ.spaces space (some sp) = σ.spaces := by
  rw [← hsp]
  exact Function.update_eq_self space σ.spaces

/-- A page that a binding has been updated at is the one named, or bound as before. -/
theorem binding_of_update {n m : ℕ} {o : Option Binding} {b : Binding}
    (hb : Function.update sp n o m = some b) : (m = n ∧ o = some b) ∨ sp m = some b := by
  by_cases hm : m = n
  · rw [hm, Function.update_self] at hb
    exact .inl ⟨hm, hb⟩
  · rw [Function.update_of_ne hm] at hb
    exact .inr hb

theorem Family.map (h : Family hh home pool seat σ) {virtAddr physAddr flags : Word}
    (hpermit : (σ.world hh).Permits home (.map space virtAddr physAddr flags)) :
    Serves hh home pool seat σ (.map space virtAddr physAddr flags)
      (serve hh σ (.map space virtAddr physAddr flags)) := by
  obtain ⟨hspace, hphys, hflags, hpages⟩ := hpermit
  obtain ⟨sp, hsp⟩ := Option.ne_none_iff_exists'.mp hspace
  have hseated := h.seated space sp hsp
  obtain ⟨owned, hinv⟩ := hseated.inv
  have hstep := hinv.map virtAddr physAddr flags
  have hspares := vmmMapPage_spares hseated.tables virtAddr physAddr flags
  have hgrowth := vmmMapPage_growth hseated.tables virtAddr physAddr flags
  unfold State.step at hstep
  dsimp only at hstep
  cases hmap : vmmMapPage hh σ.machine ⟨frameVirt hh (seat space).root⟩ virtAddr physAddr flags with
  | mk ok s' =>
      rw [hmap] at hstep hspares hgrowth
      have hserve : serve hh σ (.map space virtAddr physAddr flags) = (.success ok,
          { σ with
            machine := s'
            spaces := if ok then
              bindPage σ.spaces space (pageNumber virtAddr) (some (bindingOf physAddr flags))
            else σ.spaces }) := by
        simp only [serve, hseated.pagemap, hmap]
      rw [hserve]
      cases ok with
      | true =>
          obtain ⟨hfamily, hsame⟩ := h.retable hsp hspares ⟨_, hstep⟩ hgrowth.free_or_table
            fun n b hb => by
              rcases binding_of_update hb with ⟨rfl, hnew⟩ | hold
              · obtain rfl := Option.some.inj hnew
                refine .inr ⟨Binding.proper_bindingOf hphys hflags, ⟨virtAddr, rfl⟩, ?_⟩
                rw [frameOf_bindingOf]
                exact mem_held_of_pages hpages
              · exact .inl hold
          rw [if_pos rfl]
          refine ⟨seat, rfl, ?_,
            World.Acts.mapped.congr rfl fun f => world_pages_eq Iff.rfl (hsame f)⟩
          rw [bindPage_eq hsp]
          exact hfamily
      | false =>
          obtain ⟨hfamily, hsame⟩ := h.retable hsp hspares ⟨_, hstep⟩ hgrowth.free_or_table
            fun n b hb => .inl hb
          dsimp only at hfamily
          rw [if_neg (by decide), update_spaces_eq hsp] at hfamily
          exact ⟨seat, rfl, hfamily,
            World.Acts.notMapped.congr rfl fun f => world_pages_eq Iff.rfl (hsame f)⟩

theorem Family.unmap (h : Family hh home pool seat σ) {virtAddr : Word}
    (hpermit : (σ.world hh).Permits home (.unmap space virtAddr)) :
    Serves hh home pool seat σ (.unmap space virtAddr) (serve hh σ (.unmap space virtAddr)) := by
  obtain ⟨sp, hsp⟩ := Option.ne_none_iff_exists'.mp hpermit
  have hseated := h.seated space sp hsp
  obtain ⟨owned, hinv⟩ := hseated.inv
  have hstep := hinv.unmap virtAddr
  have hspares := vmmUnmapPage_spares hseated.tables virtAddr
  have hshrunk := vmmUnmapPage_shrunk hseated.tables virtAddr
  have hreturns := hinv.vmmUnmapPage_returns virtAddr
  unfold State.step at hstep
  dsimp only at hstep hreturns
  cases hunmap : vmmUnmapPage hh σ.machine ⟨frameVirt hh (seat space).root⟩ virtAddr with
  | mk ok s' =>
      rw [hunmap] at hstep hspares hshrunk hreturns
      dsimp only at hreturns
      subst hreturns
      have hserve : serve hh σ (.unmap space virtAddr) =
          (.success (decide (virtAddr % 4096#64 = 0#64)),
            { σ with
              machine := s'
              spaces := if decide (virtAddr % 4096#64 = 0#64) = true then
                bindPage σ.spaces space (pageNumber virtAddr) none
              else σ.spaces }) := by
        simp only [serve, hseated.pagemap, hunmap]
      rw [hserve]
      by_cases halign : virtAddr % 4096#64 = 0#64
      · rw [if_pos halign] at hstep
        obtain ⟨hfamily, hsame⟩ := h.retable hsp hspares ⟨_, hstep⟩ hshrunk.free_or_table
          fun n b hb => .inl (by
            rcases binding_of_update hb with ⟨-, hnone⟩ | hold
            · exact absurd hnone (by simp)
            · exact hold)
        rw [decide_eq_true halign, if_pos rfl]
        refine ⟨seat, rfl, ?_,
          (World.Acts.unmapped halign).congr rfl fun f => world_pages_eq Iff.rfl (hsame f)⟩
        rw [bindPage_eq hsp]
        exact hfamily
      · rw [if_neg halign] at hstep
        obtain ⟨hfamily, hsame⟩ := h.retable hsp hspares ⟨_, hstep⟩ hshrunk.free_or_table
          fun n b hb => .inl hb
        rw [update_spaces_eq hsp] at hfamily
        rw [decide_eq_false halign, if_neg (by decide)]
        exact ⟨seat, rfl, hfamily,
          (World.Acts.unaligned halign).congr rfl fun f => world_pages_eq Iff.rfl (hsame f)⟩

/-! ## Accesses -/

theorem world_lookup (hsp : σ.spaces space = some sp) (v : Word) :
    (σ.world hh).lookup space v = sp (pageNumber v) := by
  unfold World.lookup
  exact congrArg (fun o : Option Space => o.bind fun sq => sq (pageNumber v)) hsp

theorem Family.translate_eq (h : Family hh home pool seat σ) (hsp : σ.spaces space = some sp)
    (v : Word) : vmmVirtToPhys hh σ.machine (pagemapAt σ.machine space) v =
      (σ.world hh).translate space v := by
  have hseated := h.seated space sp hsp
  have hlookup : (σ.world hh).lookup space v = sp (pageNumber v) := world_lookup hsp v
  unfold World.translate
  cases hb : sp (pageNumber v) with
  | none => rw [hseated.translate_eq, hlookup, hb]
  | some b => rw [hseated.translate_eq, hlookup, hb]

theorem mod_eq_pageOffset (v : Word) : v % 4096#64 = BitVec.ofNat 64 (pageOffset v) := by
  apply BitVec.eq_of_toNat_eq
  have hlt : v.toNat % 4096 < 2 ^ 64 := lt_trans (Nat.mod_lt _ (by norm_num)) (by norm_num)
  rw [BitVec.toNat_umod, BitVec.toNat_ofNat]
  exact (Nat.mod_eq_of_lt hlt).symm

/-- An access goes to the frame that the page is bound to. -/
theorem Family.access_eq (h : Family hh home pool seat σ) (hsp : σ.spaces space = some sp)
    (v : Word) : access hh σ.machine space v = (sp (pageNumber v)).map fun b =>
      frameVirt hh (frameOf b.frame) + BitVec.ofNat 64 (pageOffset v) := by
  have hseated := h.seated space sp hsp
  unfold access
  rw [hseated.translate_eq]
  cases hb : sp (pageNumber v) with
  | none => rfl
  | some b =>
      have hframe := (frame_of_proper (hseated.proper _ b hb)).1
      have hlt := frameOf_lt b.frame
      have hoffset := (pageOffset v).isLt
      have hnat := toNat_frameAddr (limit_of_lt hlt)
      have hne : b.frame + v % 4096#64 ≠ -1#64 := by
        rw [hframe, mod_eq_pageOffset]
        generalize frameAddr (frameOf b.frame) = a at hnat
        intro heq
        have hsum := congrArg BitVec.toNat heq
        rw [BitVec.toNat_add, BitVec.toNat_ofNat, hnat] at hsum
        have hminus : (-1#64).toNat = 2 ^ 64 - 1 := by decide
        rw [hminus] at hsum
        omega
      dsimp only
      rw [if_neg hne, Option.map_some, mod_eq_pageOffset]
      conv_lhs => rw [hframe]
      unfold frameVirt
      congr 1
      ring

theorem Family.load_eq (h : Family hh home pool seat σ) (hsp : σ.spaces space = some sp)
    (v : Word) : (access hh σ.machine space v).map σ.machine.mem = (σ.world hh).load space v := by
  unfold World.load
  rw [h.access_eq hsp, world_lookup hsp]
  cases hb : sp (pageNumber v) with
  | none => rfl
  | some b =>
      have hheld := h.bound _ space ⟨sp, _, b, hsp, hb, rfl⟩
      simp only [Option.map_some, Option.bind_some]
      rw [world_pages hheld]
      rfl

theorem Family.store (h : Family hh home pool seat σ) {virtAddr : Word} {value : Byte}
    (hpermit : (σ.world hh).Permits home (.store space virtAddr value)) :
    Serves hh home pool seat σ (.store space virtAddr value)
      (serve hh σ (.store space virtAddr value)) := by
  obtain ⟨b, hlookup⟩ := Option.ne_none_iff_exists'.mp hpermit
  obtain ⟨sp, hsp, -⟩ := Option.bind_eq_some_iff.mp hlookup
  have hb : sp (pageNumber virtAddr) = some b := (world_lookup hsp virtAddr).symm.trans hlookup
  have hheld := h.bound _ space ⟨sp, _, b, hsp, hb, rfl⟩
  have hlt := h.held_lt hheld
  have hin : InFrame hh (frameOf b.frame)
      (frameVirt hh (frameOf b.frame) + BitVec.ofNat 64 (pageOffset virtAddr)) :=
    inRange_add _ (pageOffset virtAddr).isLt (by norm_num)
  have hserve : serve hh σ (.store space virtAddr value) = (.done,
      { σ with machine := { σ.machine with
        mem := setByte σ.machine.mem
          (frameVirt hh (frameOf b.frame) + BitVec.ofNat 64 (pageOffset virtAddr)) value } }) := by
    simp only [serve, storeByte, h.access_eq hsp, hb, Option.map_some]
  generalize hx : frameVirt hh (frameOf b.frame) + BitVec.ofNat 64 (pageOffset virtAddr) = x at *
  have hspares : Spares hh σ.machine { σ.machine with mem := setByte σ.machine.mem x value }
      {frameOf b.frame} := by
    refine ⟨rfl, fun f _ hused => hused, fun f hf hne _ y hy => Function.update_of_ne ?_ _ _⟩
    rintro rfl
    exact hne (frame_eq_of_inFrame (limit_of_lt hf) (limit_of_lt hlt) hy hin)
  rw [hserve]
  refine ⟨seat, rfl, h.hold (h.valid.of_free rfl h.valid.zero_used) hspares
    (fun q sq hsq => Set.disjoint_singleton_right.mpr (h.held_out hsq hheld)) (fun _ => Iff.rfl)
    (fun f hf => h.held_used hf) h.bound, (World.Acts.stored hlookup).congr rfl fun f => ?_⟩
  unfold World.poke
  dsimp only
  by_cases hf : f = frameOf b.frame
  · subst hf
    rw [Function.update_self, world_pages hheld, Option.map_some]
    refine (if_pos hheld).trans ?_
    congr 1
    funext k
    by_cases hk : k = pageOffset virtAddr
    · subst hk
      rw [Function.update_self]
      change Function.update σ.machine.mem x value _ = value
      rw [hx, Function.update_self]
    · rw [Function.update_of_ne hk]
      refine Function.update_of_ne (fun heq => hk (Fin.ext ?_)) _ _
      have hlt' := (pageOffset virtAddr).isLt
      have hklt := k.isLt
      have hnat := congrArg BitVec.toNat (add_left_cancel (heq.trans hx.symm))
      rw [BitVec.toNat_ofNat, BitVec.toNat_ofNat, Nat.mod_eq_of_lt (by omega),
        Nat.mod_eq_of_lt (by omega)] at hnat
      exact hnat
  · rw [Function.update_of_ne hf]
    exact world_pages_eq Iff.rfl fun hmem => h.held_same hspares hmem hf

end Osiris.Spaces
