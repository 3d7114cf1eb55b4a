import Osiris.Verification.Vmm.History

/-! # Access rights of user mappings

The processor grants user access to a page only when all four entries of the walk have the user
flag. `vmm_map_page` sets the flag in the tables it creates, and leaves the tables it finds as they
are. -/

namespace Osiris.Vmm

open ByteMemory Strings Page Radix

/-- All entries on the walk to a page grant what its binding asks for. -/
def Accessible (hh : Word) (m : Mem) (r : ℕ) (virtAddr : Word) (b : Binding) : Prop :=
  ∃ es f, walk (link hh m) r (pathOf virtAddr) = some (es, f) ∧
    (∀ e ∈ es, HasFlag e ptePresent ∧ HasFlag e pteUser) ∧
    (HasFlag b.flags pteWritable → ∀ e ∈ es, HasFlag e pteWritable)

/-- Every page bound for the user can be accessed by the user. -/
def State.UserAccessible (hh : Word) (r : ℕ) (σ : State) : Prop :=
  ∀ v b, σ.bindings (pageNumber v) = some b → HasFlag b.flags pteUser →
    Accessible hh σ.machine.mem r v b

/-- A user mapping goes only through tables that already are the user's. -/
def State.SharesUserTables (hh : Word) (r : ℕ) (σ : State) : Op → Prop
  | .map virtAddr _ flags => HasFlag flags pteUser →
      ∀ p es g, p <+: upperPath virtAddr → walk (link hh σ.machine.mem) r p = some (es, g) →
        ∀ e ∈ es, HasFlag e pteUser
  | _ => True

section

variable {hh : Word} {r : ℕ} {σ : State} {s : Machine}

theorem present_of_mem_walk {m : Mem} {p : List Index} {es : List Word} {f : ℕ} {e : Word}
    (hw : walk (link hh m) r p = some (es, f)) (he : e ∈ es) : HasFlag e ptePresent := by
  obtain ⟨q, es', x, k, g, -, -, hlink⟩ := exists_edge_of_mem_walk hw he
  exact (link_eq_some.mp hlink).2.1

theorem TableInv.writable_of_mem_walk (h : TableInv hh s r) {p : List Index} {es : List Word}
    {f : ℕ} {e : Word} (hp : p.length ≤ 3) (hw : walk (link hh s.mem) r p = some (es, f))
    (he : e ∈ es) : HasFlag e pteWritable := by
  obtain ⟨q, es', x, k, g, hlen, hwq, hlink⟩ := exists_edge_of_mem_walk hw he
  obtain ⟨rfl, hpresent, -⟩ := link_eq_some.mp hlink
  rcases h.formed q es' x (by omega) hwq k with hzero | hformed
  · rw [hzero] at hpresent
    exact absurd hpresent (not_hasFlag_zero _)
  · exact hformed.2 (by omega)

theorem Accessible.congr {m m' : Mem} {v : Word} {b : Binding} (h : Accessible hh m r v b)
    (hwalk : walk (link hh m') r (pathOf v) = walk (link hh m) r (pathOf v)) :
    Accessible hh m' r v b := by
  obtain ⟨es, f, hw, haccess⟩ := h
  exact ⟨es, f, hwalk.trans hw, haccess⟩

theorem hasFlag_bindingOf {phys flags flag : Word} (h : HasFlag (bindingOf phys flags).flags flag) :
    HasFlag (leafOf phys flags) flag := by
  rw [← leaf_bindingOf]
  exact hasFlag_or.mpr (Or.inr h)

theorem hasFlag_user_of_bindingOf {phys flags : Word} :
    HasFlag (bindingOf phys flags).flags pteUser ↔ HasFlag flags pteUser := by
  have hnot : ¬ HasFlag ptePresent pteUser := by decide
  have hor : HasFlag (flags ||| ptePresent) pteUser ↔ _ := hasFlag_or
  exact hor.trans (or_iff_left hnot)

/-- The page of a successful call can be accessed exactly when the call found user tables. -/
theorem accessible_iff_of_mapped {s s' : Machine} {virt phys flags : Word}
    (hmapped : Mapped hh s s' r virt phys flags) (huser : HasFlag flags pteUser) :
    Accessible hh s'.mem r virt (bindingOf phys flags) ↔
      ∀ p es g, p <+: upperPath virt → walk (link hh s.mem) r p = some (es, g) →
        ∀ e ∈ es, HasFlag e pteUser := by
  obtain ⟨es, hw, hmade, hkept⟩ := hmapped.walk_self
  constructor
  · intro h p es₀ g hpre hw₀ e he
    obtain ⟨es', f, hw', haccess, -⟩ := h
    rw [hw] at hw'
    obtain ⟨rfl, -⟩ := Prod.mk.inj (Option.some.inj hw')
    have hmem : e ∈ es := (hkept p es₀ g hpre hw₀).subset he
    exact (haccess e (List.mem_append_left _ hmem)).2
  · intro h
    refine ⟨_, _, hw, fun e he => ⟨present_of_mem_walk hw he, ?_⟩, fun hwritable e he => ?_⟩
    · rcases List.mem_append.mp he with hupper | hleaf
      · rcases hmade e hupper with ⟨p, es₀, g, hpre, hw₀, he₀⟩ | ⟨i, rfl⟩
        · exact h p es₀ g hpre hw₀ e he₀
        · exact hasFlag_user_allocFlags huser i
      · rw [List.mem_singleton.mp hleaf]
        exact hasFlag_bindingOf (hasFlag_user_of_bindingOf.mpr huser)
    · rcases List.mem_append.mp he with hupper | hleaf
      · obtain ⟨es', x, a, hwu, -, heq⟩ := walk_snoc_eq_some.mp (pathOf_eq_upperPath virt ▸ hw)
        obtain ⟨rfl, -⟩ := List.append_inj' heq rfl
        exact hmapped.inv.writable_of_mem_walk (by simp [upperPath]) hwu hupper
      · rw [List.mem_singleton.mp hleaf]
        exact hasFlag_bindingOf hwritable

theorem StateInv.map_cost (hinv : StateInv hh r σ) (virt phys flags : Word) :
    σ.machine.pmm.freeFrames.card ≤
      (σ.step hh r (.map virt phys flags)).machine.pmm.freeFrames.card + 3 :=
  vmmMapPage_cost hinv.tables virt phys flags

/-- A page that the operation is not about stays accessible. -/
theorem State.UserAccessible.other (h : σ.UserAccessible hh r) (hinv : StateInv hh r σ) (op : Op)
    (hop : σ.Allowed hh r op) {v : Word} {b : Binding} (hpage : op.page ≠ some (pageNumber v))
    (hb : (σ.step hh r op).bindings (pageNumber v) = some b) (huser : HasFlag b.flags pteUser) :
    Accessible hh (σ.step hh r op).machine.mem r v b := by
  obtain ⟨hbindings, hwalk⟩ := hinv.step_of_ne hop hpage
  exact (h v b (hbindings ▸ hb) huser).congr hwalk

theorem Accessible.of_page {m : Mem} {v w : Word} {b : Binding}
    (hpage : pageNumber v = pageNumber w) (h : Accessible hh m r w b) : Accessible hh m r v b := by
  unfold Accessible
  rw [pathOf_eq_iff.mpr hpage]
  exact h

theorem mapped_of_success (hinv : StateInv hh r σ) {virt phys flags : Word}
    (hok : (vmmMapPage hh σ.machine ⟨frameVirt hh r⟩ virt phys flags).1 = true) :
    Mapped hh σ.machine (σ.step hh r (.map virt phys flags)).machine r virt phys flags := by
  simp only [State.step]
  rcases vmmMapPage_cases hinv.tables virt phys flags with
    ⟨s', heq, -, -, -⟩ | ⟨s₁, es, f, hgrown, -, hw, heq⟩
  · rw [heq] at hok
    exact absurd hok (by simp)
  · rw [heq]
    exact mapped_of_grown hgrown hw

/-- A successful call keeps user pages accessible exactly when it goes through user tables. -/
theorem userAccessible_map_iff (hinv : StateInv hh r σ) (h : σ.UserAccessible hh r)
    {virt phys flags : Word}
    (hok : (vmmMapPage hh σ.machine ⟨frameVirt hh r⟩ virt phys flags).1 = true) :
    (σ.step hh r (.map virt phys flags)).UserAccessible hh r ↔
      σ.SharesUserTables hh r (.map virt phys flags) := by
  have hmapped := mapped_of_success hinv hok
  have hbindings := bindings_map_of_success hok
  constructor
  · intro hafter huser
    have hself := hafter virt (bindingOf phys flags) (by rw [hbindings, Function.update_self])
      (hasFlag_user_of_bindingOf.mpr huser)
    exact (accessible_iff_of_mapped hmapped huser).mp hself
  · intro hshares v b hb huser
    by_cases hpage : pageNumber v = pageNumber virt
    · rw [hbindings, hpage, Function.update_self, Option.some.injEq] at hb
      subst hb
      have hflag := hasFlag_user_of_bindingOf.mp huser
      exact Accessible.of_page hpage ((accessible_iff_of_mapped hmapped hflag).mpr (hshares hflag))
    · refine h.other hinv (.map virt phys flags) trivial ?_ hb huser
      exact fun heq => hpage (Option.some.inj heq).symm

/-- A call that fails has bound nothing and changed no walk to a page. -/
theorem userAccessible_map_of_failure (hinv : StateInv hh r σ) (h : σ.UserAccessible hh r)
    {virt phys flags : Word}
    (hfail : (vmmMapPage hh σ.machine ⟨frameVirt hh r⟩ virt phys flags).1 = false) :
    (σ.step hh r (.map virt phys flags)).UserAccessible hh r := by
  intro v b hb huser
  simp only [State.step] at hb ⊢
  rcases vmmMapPage_cases hinv.tables virt phys flags with
    ⟨s', heq, -, -, hgrown⟩ | ⟨s₁, es, f, -, -, -, heq⟩
  · rw [heq] at hb ⊢
    exact (h v b (by simpa using hb) huser).congr (hgrown.pages _ (pathOf_length v))
  · rw [heq] at hfail
    exact absurd hfail (by simp)

theorem userAccessible_unmap (hinv : StateInv hh r σ) (h : σ.UserAccessible hh r) (virt : Word) :
    (σ.step hh r (.unmap virt)).UserAccessible hh r := by
  intro v b hb huser
  by_cases hpage : pageNumber v = pageNumber virt
  · simp only [State.step] at hb ⊢
    by_cases halign : virt % 4096#64 = 0#64
    · rw [if_pos halign, hpage, Function.update_self] at hb
      exact absurd hb (by simp)
    · rw [if_neg halign] at hb
      rw [vmmUnmapPage_unaligned halign]
      exact h v b hb huser
  · refine h.other hinv (.unmap virt) trivial ?_ hb huser
    exact fun heq => hpage (Option.some.inj heq).symm

theorem userAccessible_step (hinv : StateInv hh r σ) (h : σ.UserAccessible hh r) (op : Op)
    (hop : σ.Allowed hh r op) (hshares : σ.SharesUserTables hh r op) :
    (σ.step hh r op).UserAccessible hh r := by
  cases op with
  | map virt phys flags =>
      cases hok : (vmmMapPage hh σ.machine ⟨frameVirt hh r⟩ virt phys flags).1 with
      | true => exact (userAccessible_map_iff hinv h hok).mpr hshares
      | false => exact userAccessible_map_of_failure hinv h hok
  | unmap virt => exact userAccessible_unmap hinv h virt
  | allocate => exact fun v b hb huser => h.other hinv _ hop (by simp [Op.page]) hb huser
  | free page => exact fun v b hb huser => h.other hinv _ hop (by simp [Op.page]) hb huser
  | write mem => exact fun v b hb huser => h.other hinv _ hop (by simp [Op.page]) hb huser

end

/-- In every history whose user mappings go through user tables only, every user page is
accessible. The first successful call that breaks this rule leaves its own page inaccessible. -/
theorem user_pages_accessible (hh : Word) (r : ℕ) (s : Machine) (σ : State)
    (hstart : EmptyPml4 hh s r)
    (hrun : Transition.Run (State.step hh r)
      (fun σ op => σ.Allowed hh r op ∧ σ.SharesUserTables hh r op) (State.initial s) σ) :
    σ.UserAccessible hh r ∧
      ∀ virt phys flags, (vmmMapPage hh σ.machine ⟨frameVirt hh r⟩ virt phys flags).1 = true →
        ((σ.step hh r (.map virt phys flags)).UserAccessible hh r ↔
          σ.SharesUserTables hh r (.map virt phys flags)) := by
  have hboth : StateInv hh r σ ∧ σ.UserAccessible hh r := by
    refine hrun.invariant (I := fun σ => StateInv hh r σ ∧ σ.UserAccessible hh r) ?_ ?_
    · exact ⟨StateInv.initial hstart, fun v b hb => absurd hb (by simp [State.initial])⟩
    · exact fun σ op ih hop =>
        ⟨ih.1.step op hop.1, userAccessible_step ih.1 ih.2 op hop.1 hop.2⟩
  exact ⟨hboth.2, fun virt phys flags hok => userAccessible_map_iff hboth.1 hboth.2 hok⟩

theorem freshMachine_walk {p : List Index} {es : List Word} {f : ℕ}
    (hw : walk (link directMap freshMachine.mem) 1 p = some (es, f)) : es = [] := by
  cases p with
  | nil => exact (Prod.mk.inj (Option.some.inj hw)).1.symm
  | cons k p =>
      have hnone : link directMap freshMachine.mem 1 k = none :=
        link_of_zero (freshMachine_emptyPml4.zeroed k)
      exact absurd (hw.symm.trans (walk_cons_of_none hnone p)) (by simp)

theorem user_pages_accessible_freshMachine :
    ((State.initial freshMachine).step directMap 1 (.map 0x1000#64 0x5000#64
      (pteUser ||| pteWritable))).UserAccessible directMap 1 := by
  have hshares : (State.initial freshMachine).SharesUserTables directMap 1
      (.map 0x1000#64 0x5000#64 (pteUser ||| pteWritable)) := by
    intro _ p es g _ hw e he
    rw [freshMachine_walk hw] at he
    exact absurd he (by simp)
  have hallowed : (State.initial freshMachine).Allowed directMap 1
      (.map 0x1000#64 0x5000#64 (pteUser ||| pteWritable)) := trivial
  exact (user_pages_accessible directMap 1 freshMachine _ freshMachine_emptyPml4
    (.step .start ⟨hallowed, hshares⟩)).1

/-! ## A user page behind kernel tables -/

theorem not_hasFlag_frameAddr (f : ℕ) : ¬ HasFlag (frameAddr f) pteUser := by
  have hshift : frameAddr f = BitVec.ofNat 64 f <<< 12 := by
    apply BitVec.eq_of_toNat_eq
    unfold frameAddr
    rw [BitVec.toNat_shiftLeft, BitVec.toNat_ofNat, BitVec.toNat_ofNat, Nat.shiftLeft_eq]
    omega
  have hzero : frameAddr f &&& pteUser = 0#64 := by
    rw [hshift]
    apply BitVec.eq_of_getLsbD_eq
    intro i hi
    by_cases hlow : i < 12
    · simp [BitVec.getLsbD_shiftLeft, hlow]
    · have hbit : ∀ j : Fin 64, ¬ j.val < 12 → pteUser.getLsbD j = false := by decide
      simp [hbit ⟨i, hi⟩ hlow]
  exact not_not.mpr hzero

/-- A kernel page in an otherwise empty pagemap. -/
def kernelMapped : State :=
  (State.initial freshMachine).step directMap 1 (.map 0x1000#64 0x5000#64 pteWritable)

/-- A user page in the two mebibytes of the kernel page. -/
def kernelThenUser : State :=
  kernelMapped.step directMap 1 (.map 0x2000#64 0x6000#64 (pteUser ||| pteWritable))

theorem kernelMapped_stateInv : StateInv directMap 1 kernelMapped :=
  (StateInv.initial freshMachine_emptyPml4).map 0x1000#64 0x5000#64 pteWritable

theorem kernelMapped_card : 3 ≤ kernelMapped.machine.pmm.freeFrames.card := by
  have hcost := (StateInv.initial freshMachine_emptyPml4).map_cost 0x1000#64 0x5000#64 pteWritable
  have hcard : (State.initial freshMachine).machine.pmm.freeFrames.card = 14 := by decide
  rw [hcard] at hcost
  unfold kernelMapped
  omega

/-- The tables of the kernel page are not the user's. -/
theorem kernelMapped_tables :
    ∃ es f, walk (link directMap kernelMapped.machine.mem) 1 (upperPath 0x2000#64) = some (es, f) ∧
      ∃ e ∈ es, ¬ HasFlag e pteUser := by
  have hok := vmmMapPage_succeeds (s := (State.initial freshMachine).machine)
    freshMachine_emptyPml4.tableInv 0x1000#64 0x5000#64 pteWritable freshMachine_card
  have hmapped := mapped_of_success (StateInv.initial freshMachine_emptyPml4) hok
  obtain ⟨es, hw, hmade, -⟩ := hmapped.walk_self
  obtain ⟨es', f, a, hupper, -, heq⟩ := walk_snoc_eq_some.mp (pathOf_eq_upperPath 0x1000#64 ▸ hw)
  obtain ⟨rfl, -⟩ := List.append_inj' heq rfl
  have hsame : upperPath 0x1000#64 = upperPath 0x2000#64 := by decide
  refine ⟨es, f, hsame ▸ hupper, ?_⟩
  have hlen := walk_length hupper
  cases es with
  | nil => exact absurd hlen (by simp [upperPath])
  | cons e es =>
      refine ⟨e, List.mem_cons_self, ?_⟩
      rcases hmade e List.mem_cons_self with ⟨p, es₀, g, -, hw₀, he₀⟩ | ⟨i, rfl⟩
      · rw [freshMachine_walk hw₀] at he₀
        exact absurd he₀ (by simp)
      · intro huser
        rcases hasFlag_or.mp huser with hframe | hflags
        · exact not_hasFlag_frameAddr i hframe
        · exact absurd hflags (by decide)

theorem kernelThenUser_not_accessible :
    Transition.Run (State.step directMap 1) (State.Allowed directMap 1)
        (State.initial freshMachine) kernelThenUser ∧
      ¬ kernelThenUser.UserAccessible directMap 1 := by
  have huser : HasFlag (pteUser ||| pteWritable) pteUser := by decide
  have hok := vmmMapPage_succeeds kernelMapped_stateInv.tables 0x2000#64 0x6000#64
    (pteUser ||| pteWritable) kernelMapped_card
  have hmapped := mapped_of_success kernelMapped_stateInv hok
  refine ⟨.step (.step .start trivial) trivial, fun hall => ?_⟩
  have hself := hall 0x2000#64 (bindingOf 0x6000#64 (pteUser ||| pteWritable))
    (by rw [kernelThenUser, bindings_map_of_success hok, Function.update_self])
    (hasFlag_user_of_bindingOf.mpr huser)
  obtain ⟨es, f, hw, e, he, hnot⟩ := kernelMapped_tables
  exact hnot ((accessible_iff_of_mapped hmapped huser).mp hself _ es f List.prefix_rfl hw e he)

end Osiris.Vmm
