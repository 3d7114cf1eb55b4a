import Osiris.Verification.Vmm.BootSpace
import Osiris.Verification.Vmm.Recorded

/-! # The direct map after `vmm_init`

The loop over the memory map puts the pages of each entry into the direct map, and then those below
1 MiB where they are. With an offset that takes one of them to the other, the last call decides. -/

namespace Osiris.Vmm

open ByteMemory Strings Page Radix

/-! ## Pages with two purposes -/

/-- A low page of the entry is mapped to itself where the direct map has another page. -/
def Overrules (hh p : Word) (entry : MemmapEntry) : Prop :=
  ∃ w, WholePage entry w ∧ w.toNat < 0x100000 ∧ w ≠ p ∧ pageNumber w = pageNumber (p + hh)

/-- Behind every entry that overrules the page comes one that has the page. -/
def NotOverruled (hh : Word) (entries : List MemmapEntry) (p : Word) : Prop :=
  ∀ before entry after, entries = before ++ entry :: after → Overrules hh p entry →
    ∃ e ∈ after, WholePage e p

section

variable {hh p : Word} {entries : List MemmapEntry} {entry : MemmapEntry}

theorem not_notOverruled_concat (hover : Overrules hh p entry) :
    ¬ NotOverruled hh (entries ++ [entry]) p := by
  intro h
  obtain ⟨e, he, -⟩ := h entries entry [] rfl hover
  exact absurd he List.not_mem_nil

theorem notOverruled_concat_of_wholePage (hover : ¬ Overrules hh p entry)
    (hwhole : WholePage entry p) : NotOverruled hh (entries ++ [entry]) p := by
  intro before e after heq he
  rcases List.eq_nil_or_concat after with rfl | ⟨after, last, rfl⟩
  · obtain ⟨-, hlast⟩ := List.append_inj' heq rfl
    obtain rfl := List.head_eq_of_cons_eq hlast
    exact absurd he hover
  · rw [List.concat_eq_append, ← List.cons_append, ← List.append_assoc] at heq
    obtain ⟨-, hlast⟩ := List.append_inj' heq rfl
    obtain rfl := List.head_eq_of_cons_eq hlast
    exact ⟨entry, by simp, hwhole⟩

theorem notOverruled_concat_iff (hover : ¬ Overrules hh p entry) (hwhole : ¬ WholePage entry p) :
    NotOverruled hh (entries ++ [entry]) p ↔ NotOverruled hh entries p := by
  constructor
  · intro h before e after heq he
    obtain ⟨e', hmem, he'⟩ := h before e (after ++ [entry]) (by rw [heq]; simp) he
    rcases List.mem_append.mp hmem with hafter | hlast
    · exact ⟨e', hafter, he'⟩
    · rw [List.mem_singleton.mp hlast] at he'
      exact absurd he' hwhole
  · intro h before e after heq he
    rcases List.eq_nil_or_concat after with rfl | ⟨after, last, rfl⟩
    · obtain ⟨-, hlast⟩ := List.append_inj' heq rfl
      obtain rfl := List.head_eq_of_cons_eq hlast
      exact absurd he hover
    · rw [List.concat_eq_append, ← List.cons_append, ← List.append_assoc] at heq
      obtain ⟨hfront, -⟩ := List.append_inj' heq rfl
      obtain ⟨e', hmem, he'⟩ := h before e after hfront he
      exact ⟨e', by simp [hmem], he'⟩

/-! ## The calls for one entry -/

variable (haligned : hh.toNat % 4096 = 0)
  (hbelow : entry.base.toNat + entry.length.toNat < 2 ^ 46)
  (hp : p.toNat % 4096 = 0) (hlt : p.toNat < 2 ^ 46) {t : ℕ → Option Binding}

include haligned hbelow hp hlt

theorem directCalls_page {call : MapCall}
    (hcall : call ∈ (pageAddrs (mapBase entry) (mapTop entry)).map (directCall hh))
    (hpage : call.page = pageNumber (p + hh)) :
    call.binding = bindingOf p memoryFlags ∧ WholePage entry p := by
  obtain ⟨q, hq, rfl⟩ := List.mem_map.mp hcall
  have hwhole := (mem_direct_iff hbelow).mp hq
  obtain rfl := pageNumber_add_injective haligned hwhole.aligned hp (hwhole.lt hbelow) hlt hpage
  exact ⟨rfl, hwhole⟩

omit haligned hp hlt in
theorem identityCalls_page {call : MapCall}
    (hcall : call ∈ (pageAddrs (mapBase entry) (identityTop entry)).map identityCall)
    (hpage : call.page = pageNumber (p + hh)) :
    ∃ w, call = identityCall w ∧ WholePage entry w ∧ w.toNat < 0x100000 ∧
      pageNumber w = pageNumber (p + hh) := by
  obtain ⟨w, hw, rfl⟩ := List.mem_map.mp hcall
  obtain ⟨hwhole, hlow⟩ := (mem_identity_iff hbelow).mp hw
  exact ⟨w, rfl, hwhole, hlow, hpage⟩

omit haligned hp hlt in
theorem writeAll_entryCalls_of_overrules {w : Word} (hwhole : WholePage entry w)
    (hlow : w.toNat < 0x100000) (hpage : pageNumber w = pageNumber (p + hh)) :
    Loop.writeAll MapCall.page MapCall.binding (entryCalls hh entry) t (pageNumber (p + hh)) =
      some (bindingOf w memoryFlags) := by
  unfold entryCalls
  rw [Loop.writeAll_append]
  refine Loop.writeAll_of_value _ (fun call hcall hkey => ?_) ⟨identityCall w,
    List.mem_map_of_mem ((mem_identity_iff hbelow).mpr ⟨hwhole, hlow⟩), hpage⟩
  obtain ⟨w', rfl, hwhole', hlow', hpage'⟩ := identityCalls_page hbelow hcall hkey
  rw [identity_injective hwhole'.aligned hwhole.aligned hlow' hlow (hpage'.trans hpage.symm)]
  rfl

theorem writeAll_entryCalls_of_wholePage (hover : ¬ Overrules hh p entry)
    (hwhole : WholePage entry p) :
    Loop.writeAll MapCall.page MapCall.binding (entryCalls hh entry) t (pageNumber (p + hh)) =
      some (bindingOf p memoryFlags) := by
  unfold entryCalls
  rw [Loop.writeAll_append]
  have hdirect := Loop.writeAll_of_value (t := t) (k := pageNumber (p + hh)) _
    (fun call hcall hkey => (directCalls_page haligned hbelow hp hlt hcall hkey).1)
    ⟨directCall hh p, List.mem_map_of_mem ((mem_direct_iff hbelow).mpr hwhole), rfl⟩
  by_cases hidentity : ∃ call ∈ (pageAddrs (mapBase entry) (identityTop entry)).map identityCall,
      call.page = pageNumber (p + hh)
  · refine Loop.writeAll_of_value _ (fun call hcall hkey => ?_) hidentity
    obtain ⟨w, rfl, hwhole', hlow, hpage⟩ := identityCalls_page hbelow hcall hkey
    by_cases hwp : w = p
    · rw [hwp]
      rfl
    · exact absurd ⟨w, hwhole', hlow, hwp, hpage⟩ hover
  · rw [Loop.writeAll_of_ne _ fun call hcall hkey => hidentity ⟨call, hcall, hkey⟩]
    exact hdirect

theorem writeAll_entryCalls_of_neither (hover : ¬ Overrules hh p entry)
    (hwhole : ¬ WholePage entry p) :
    Loop.writeAll MapCall.page MapCall.binding (entryCalls hh entry) t (pageNumber (p + hh)) =
      t (pageNumber (p + hh)) := by
  unfold entryCalls
  rw [Loop.writeAll_append, Loop.writeAll_of_ne, Loop.writeAll_of_ne]
  · intro call hcall hkey
    exact hwhole (directCalls_page haligned hbelow hp hlt hcall hkey).2
  · intro call hcall hkey
    obtain ⟨w, rfl, hwhole', hlow, hpage⟩ := identityCalls_page hbelow hcall hkey
    refine hover ⟨w, hwhole', hlow, ?_, hpage⟩
    rintro rfl
    exact hwhole hwhole'

end

/-! ## All calls -/

section

variable {hh p : Word} {entries : List MemmapEntry} (haligned : hh.toNat % 4096 = 0)
  (hbelow : ∀ entry ∈ entries, entry.base.toNat + entry.length.toNat < 2 ^ 46)
  (hmem : ∃ entry ∈ entries, WholePage entry p)

include haligned hbelow hmem

/-- The direct map has the page itself, or the low page that has overruled it. -/
theorem writeAll_direct (t : ℕ → Option Binding) :
    ∃ q : Word, (q = p ↔ NotOverruled hh entries p) ∧ q.toNat % 4096 = 0 ∧ q.toNat < 2 ^ 46 ∧
      Loop.writeAll MapCall.page MapCall.binding (entries.flatMap (entryCalls hh)) t
        (pageNumber (p + hh)) = some (bindingOf q memoryFlags) := by
  obtain ⟨hp, hlt⟩ : p.toNat % 4096 = 0 ∧ p.toNat < 2 ^ 46 := by
    obtain ⟨entry, hentry, hwhole⟩ := hmem
    exact ⟨hwhole.aligned, hwhole.lt (hbelow entry hentry)⟩
  induction entries using List.reverseRecOn with
  | nil => simp at hmem
  | append_singleton entries entry ih =>
      have htop := hbelow entry (by simp)
      rw [List.flatMap_append, Loop.writeAll_append, List.flatMap_singleton]
      by_cases hover : Overrules hh p entry
      · -- the low page is written last
        obtain ⟨w, hwhole, hlow, hne, hpage⟩ := hover
        refine ⟨w, iff_of_false hne (not_notOverruled_concat ⟨w, hwhole, hlow, hne, hpage⟩),
          hwhole.aligned, hwhole.lt htop, ?_⟩
        exact writeAll_entryCalls_of_overrules htop hwhole hlow hpage
      · by_cases hwhole : WholePage entry p
        · refine ⟨p, iff_of_true rfl (notOverruled_concat_of_wholePage hover hwhole), hp, hlt, ?_⟩
          exact writeAll_entryCalls_of_wholePage haligned htop hp hlt hover hwhole
        · have hmem' : ∃ e ∈ entries, WholePage e p := by
            obtain ⟨e, he, hwhole'⟩ := hmem
            rcases List.mem_append.mp he with hfront | hlast
            · exact ⟨e, hfront, hwhole'⟩
            · rw [List.mem_singleton.mp hlast] at hwhole'
              exact absurd hwhole' hwhole
          rw [notOverruled_concat_iff hover hwhole,
            writeAll_entryCalls_of_neither haligned htop hp hlt hover hwhole]
          exact ih (fun e he => hbelow e (List.mem_append_left _ he)) hmem'

theorem initCalls_direct (kaddr : KernelAddress) (image : KernelSections) :
    ∃ q : Word, (q = p ↔ NotOverruled hh entries p) ∧ q.toNat % 4096 = 0 ∧ q.toNat < 2 ^ 46 ∧
      Loop.writeAll MapCall.page MapCall.binding (initCalls hh kaddr image entries)
        (fun _ => none) (pageNumber (p + hh)) = some (bindingOf q memoryFlags) := by
  unfold initCalls
  rw [Loop.writeAll_append]
  exact writeAll_direct haligned hbelow hmem _

end

end Osiris.Vmm
