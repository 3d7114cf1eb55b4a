import Osiris.Verification.Vfs.Devices
import Osiris.Verification.Vfs.Mount

/-! # Names in their fields

`kstrcpy` goes on until it has copied a NUL, whatever the room at its destination. The copies are
followed together with the addresses they write. -/

namespace Osiris.Vfs

open ByteMemory Strings Heap Blocks LinkedList Tar

/-! ## Copies with the addresses they write -/

def kstrcpyTr : ℕ → Mem → Word → Word → Except Fault (Mem × List Word)
  | 0, _, _, _ => .error .endless
  | fuel + 1, m, dst, src =>
      let c := m src
      let m := setByte m dst c
      if c = 0#8 then .ok (m, [dst])
      else do
        let (m, written) ← kstrcpyTr fuel m (dst + 1#64) (src + 1#64)
        .ok (m, dst :: written)

/-- `vfs_create_mountpoint` with the addresses that its three copies write. -/
def vfsCreateMountpointTr (fuel : ℕ) (s : MountTable) (device target type : Word) :
    Except Fault ((Word × MountTable) × List Word) := do
  let (mp, h) ← kmalloc fuel s.toKernelHeap 208#64
  if mp = 0#64 then .ok ((0#64, { s with toKernelHeap := h }), [])
  else
    let (m, first) ← kstrcpyTr fuel h.mem (mp + 32#64) device
    let (m, second) ← kstrcpyTr fuel m (mp + 96#64) target
    let (m, third) ← kstrcpyTr fuel m mp type
    .ok ((mp, { s with toKernelHeap := { h with mem := store64 m (mp + 200#64) 0#64 } }),
      first ++ second ++ third)

/-- `devfs_register` with the addresses that the copy of the name writes. -/
def devfsRegisterTr (fuel : ℕ) (s : Devfs.DevfsTable) (name ops data : Word) :
    Except Fault (Devfs.DevfsTable × List Word) := do
  let (node, h) ← kmalloc fuel s.toKernelHeap 40#64
  if node = 0#64 then .error (.panic "devfs: failed to allocate node")
  else
    let (m, written) ← kstrcpyTr fuel h.mem node name
    let m := store64 m (node + 16#64) ops
    let m := store64 m (node + 24#64) data
    let m := store64 m (node + 32#64) s.devfsRoot
    .ok ({ toKernelHeap := { h with mem := m }, devfsRoot := node }, written)

section Erasure

variable {fuel : ℕ} {m : Mem} {p q : Word}

theorem kstrcpyTr_fst : (kstrcpyTr fuel m p q).map Prod.fst = kstrcpy fuel m p q := by
  induction fuel generalizing m p q with
  | zero => rfl
  | succ fuel ih =>
      rw [kstrcpyTr, kstrcpy]
      by_cases hc : m q = 0#8
      · rw [if_pos hc, if_pos hc]
        rfl
      · rw [if_neg hc, if_neg hc, ← ih]
        cases kstrcpyTr fuel (setByte m p (m q)) (p + 1#64) (q + 1#64) <;> rfl

theorem vfsCreateMountpointTr_fst (s : MountTable) (device target type : Word) :
    (vfsCreateMountpointTr fuel s device target type).map Prod.fst =
      vfsCreateMountpoint fuel s device target type := by
  unfold vfsCreateMountpointTr vfsCreateMountpoint
  cases kmalloc fuel s.toKernelHeap 208#64 with
  | error fault => rfl
  | ok block =>
      obtain ⟨mp, h⟩ := block
      dsimp only [Bind.bind, Except.bind]
      by_cases hnull : mp = 0#64
      · rw [if_pos hnull, if_pos hnull]
        rfl
      · simp only [if_neg hnull, ← kstrcpyTr_fst]
        cases kstrcpyTr fuel h.mem (mp + 32#64) device with
        | error fault => rfl
        | ok first =>
            dsimp only [Except.map]
            cases kstrcpyTr fuel first.1 (mp + 96#64) target with
            | error fault => rfl
            | ok second =>
                dsimp only
                cases kstrcpyTr fuel second.1 mp type <;> rfl

theorem devfsRegisterTr_fst (s : Devfs.DevfsTable) (name ops data : Word) :
    (devfsRegisterTr fuel s name ops data).map Prod.fst =
      Devfs.devfsRegister fuel s name ops data := by
  unfold devfsRegisterTr Devfs.devfsRegister
  cases kmalloc fuel s.toKernelHeap 40#64 with
  | error fault => rfl
  | ok block =>
      obtain ⟨node, h⟩ := block
      dsimp only [Bind.bind, Except.bind]
      by_cases hnull : node = 0#64
      · rw [if_pos hnull, if_pos hnull]
        rfl
      · simp only [if_neg hnull, ← kstrcpyTr_fst]
        cases kstrcpyTr fuel h.mem node name <;> rfl

end Erasure

/-! ## One copy -/

section Copy

variable {fuel k size : ℕ} {m m' : Mem} {p q node x : Word} {written : List Word}
  {text : List Byte} {h : KernelHeap} {b : Block} {live free : List Block}

theorem kstrcpyTr_length_le (hok : kstrcpyTr fuel m p q = .ok (m', written)) :
    written.length ≤ fuel := by
  induction fuel generalizing m p q written with
  | zero => cases hok
  | succ fuel ih =>
      rw [kstrcpyTr] at hok
      by_cases hc : m q = 0#8
      · rw [if_pos hc] at hok
        cases hok
        simp
      · rw [if_neg hc] at hok
        cases hrest : kstrcpyTr fuel (setByte m p (m q)) (p + 1#64) (q + 1#64) with
        | error fault =>
            rw [hrest] at hok
            cases hok
        | ok rest =>
            rw [hrest] at hok
            cases hok
            rw [List.length_cons]
            exact Nat.succ_le_succ (ih hrest)

/-- A copy that does not write its own source writes as many bytes as the string has with its
NUL. -/
theorem kstrcpyTr_written (hs : StringAt m q text)
    (hok : kstrcpyTr fuel m p q = .ok (m', written))
    (hkeep : ∀ i ≤ text.length, p + BitVec.ofNat 64 i ∈ written →
      ¬ InRange q (text.length + 1) (p + BitVec.ofNat 64 i)) :
    written = (List.range (text.length + 1)).map fun i => p + BitVec.ofNat 64 i := by
  induction text generalizing m p q fuel written with
  | nil =>
      cases fuel with
      | zero => cases hok
      | succ fuel =>
          have hnul : m q = 0#8 := hs
          rw [kstrcpyTr, if_pos hnul] at hok
          cases hok
          simp
  | cons c text ih =>
      cases fuel with
      | zero => cases hok
      | succ fuel =>
          obtain ⟨hc, hmem, hrest⟩ := hs
          rw [kstrcpyTr, hmem, if_neg hc] at hok
          cases htail : kstrcpyTr fuel (setByte m p c) (p + 1#64) (q + 1#64) with
          | error fault =>
              rw [htail] at hok
              cases hok
          | ok rest =>
              rw [htail] at hok
              cases hok
              have hone : ∀ i : ℕ, p + 1#64 + BitVec.ofNat 64 i = p + BitVec.ofNat 64 (i + 1) := by
                intro i
                rw [add_assoc, BitVec.ofNat_add, add_comm (BitVec.ofNat 64 i)]
              have hfirst : ¬ InRange q ((c :: text).length + 1) p := by
                simpa using hkeep 0 (Nat.zero_le _) (by simp)
              have hsource : StringAt (setByte m p c) (q + 1#64) text :=
                hrest.congr fun x hx => setByte_of_ne m c fun heq =>
                  hfirst (heq ▸ inRange_of_tail hx)
              have hwritten := ih hsource htail fun i hi hmem hin =>
                hkeep (i + 1) (Nat.succ_le_succ hi) (hone i ▸ List.mem_cons_of_mem p hmem)
                  (hone i ▸ inRange_of_tail hin)
              rw [List.length_cons, List.range_succ_eq_map, List.map_cons, List.map_map,
                BitVec.add_zero, hwritten]
              exact congrArg (List.cons p) (List.map_congr_left fun i _ => hone i)

/-- A copy to the first bytes of a new block, either because it is seen to stay there or because the
string is short enough. -/
theorem kstrcpyTr_block (hinv : HeapInv h (b :: live) free) (hroom : size + 8 ≤ b.size)
    (hk : k ≤ size) (hq : Devfs.ClientString live m q text)
    (hok : kstrcpyTr fuel m (payload b + BitVec.ofNat 64 k) q = .ok (m', written))
    (hin : (∀ a ∈ written, InRange (payload b) size a) ∨ k + text.length < size) :
    k + text.length < size ∧
      (∀ a ∈ written, InRange (payload b + BitVec.ofNat 64 k) (text.length + 1) a) ∧
      StringAt m' (payload b + BitVec.ofNat 64 k) text ∧
      ∀ x, ¬ InRange (payload b + BitVec.ofNat 64 k) (text.length + 1) x → m' x = m x := by
  have hb := List.mem_cons_self (a := b) (l := live)
  have hsize := hinv.size_lt hb
  have hout : ∀ x, InRange (payload b) size x → ¬ InRange q (text.length + 1) x := fun x hx hy =>
    hinv.client_not_inRange hroom (hq.client x hy) hx
  have hinside : k + text.length < size →
      ∀ x, InRange (payload b + BitVec.ofNat 64 k) (text.length + 1) x →
        InRange (payload b) size x :=
    fun hlt x hx => inRange_field hx (by omega) (by omega)
  have hlist : written =
      (List.range (text.length + 1)).map fun i =>
        payload b + BitVec.ofNat 64 k + BitVec.ofNat 64 i := by
    refine kstrcpyTr_written hq.string hok fun i hi hmem => ?_
    rcases hin with hin | hlt
    · exact hout _ (hin _ hmem)
    · exact hout _ (hinside hlt _ (inRange_add _ (Nat.lt_succ_of_le hi) (by omega)))
  have hlt : k + text.length < size := by
    rcases hin with hin | hlt
    · by_contra hlong
      have hlast : payload b + BitVec.ofNat 64 k + BitVec.ofNat 64 (size - k) ∈ written := by
        rw [hlist]
        exact List.mem_map.mpr ⟨size - k, List.mem_range.mpr (by omega), rfl⟩
      have hoff := hin _ hlast
      rw [add_assoc, ← BitVec.ofNat_add, Nat.add_sub_cancel' hk,
        inRange_offset_iff (payload b) (by omega)] at hoff
      exact Nat.lt_irrefl size hoff
    · exact hlt
  have hfuel := kstrcpyTr_length_le hok
  rw [hlist, List.length_map, List.length_range] at hfuel
  obtain ⟨m'', hcopy, hstring, hframe⟩ := kstrcpy_spec hq.string (by omega)
    (fun x hx => hout x (hinside hlt x hx)) hfuel
  rw [← kstrcpyTr_fst, hok] at hcopy
  obtain rfl : m' = m'' := Except.ok.inj hcopy
  refine ⟨hlt, fun a ha => ?_, hstring, hframe⟩
  rw [hlist] at ha
  obtain ⟨i, hi, rfl⟩ := List.mem_map.mp ha
  exact inRange_add _ (List.mem_range.mp hi) (by omega)

/-- A string that fits is copied. -/
theorem kstrcpyTr_ok (hinv : HeapInv h (b :: live) free) (hroom : size + 8 ≤ b.size)
    (hq : Devfs.ClientString live m q text) (hlt : k + text.length < size)
    (hfuel : text.length < fuel) :
    ∃ m' written, kstrcpyTr fuel m (payload b + BitVec.ofNat 64 k) q = .ok (m', written) := by
  have hb := List.mem_cons_self (a := b) (l := live)
  have hsize := hinv.size_lt hb
  have hapart : Apart (payload b + BitVec.ofNat 64 k) (text.length + 1) q (text.length + 1) := by
    intro x hx hy
    have hin : InRange (payload b) size x := inRange_field hx (by omega) (by omega)
    exact hinv.client_not_inRange hroom (hq.client x hy) hin
  obtain ⟨m', hcopy, -⟩ := kstrcpy_spec hq.string (by omega) hapart hfuel
  rw [← kstrcpyTr_fst] at hcopy
  cases hok : kstrcpyTr fuel m (payload b + BitVec.ofNat 64 k) q with
  | error fault =>
      rw [hok] at hcopy
      cases hcopy
  | ok result => exact ⟨result.1, result.2, rfl⟩

end Copy

/-! ## `vfs_create_mountpoint` -/

/-- The string at an address ends in the `n` bytes of its array. -/
def EndsIn (m : Mem) (p : Word) (n : ℕ) : Prop :=
  ∃ i < n, m (p + BitVec.ofNat 64 i) = 0#8

/-- The copies have written only to the three arrays of the node, and each array holds a string. -/
structure Contained (m : Mem) (node : Word) (written : List Word) : Prop where
  written : ∀ a ∈ written, InRange node (vfsTypeLength + vfsPathLength + vfsPathLength) a
  type : EndsIn m node vfsTypeLength
  device : EndsIn m (node + 32#64) vfsPathLength
  mountpoint : EndsIn m (node + 96#64) vfsPathLength

section Strings

variable {m : Mem} {p : Word} {text : List Byte} {n : ℕ}

/-- An array that starts with the string holds one that ends in it exactly when it fits. -/
theorem endsIn_iff (hs : StringAt m p text) : EndsIn m p n ↔ text.length < n := by
  constructor
  · rintro ⟨i, hi, hnul⟩
    by_contra hlong
    exact hs.apply_ne_zero (show i < text.length by omega) hnul
  · exact fun hfits => ⟨text.length, hfits, hs.apply_length⟩

end Strings

section Create

variable {fuel : ℕ} {s t : MountTable} {live free : List Block}
  {node device target type : Word} {deviceText targetText typeText : List Byte}
  {written : List Word}

/-- The node, with what each of the copies has done. -/
structure Copies (fuel : ℕ) (s t : MountTable) (live : List Block) (node device target type : Word)
    (written : List Word) where
  block : Block
  free : List Block
  heap : KernelHeap
  afterDevice : Mem
  afterTarget : Mem
  afterType : Mem
  first : List Word
  second : List Word
  third : List Word
  node_eq : node = payload block
  inv : HeapInv heap (block :: live) free
  room : 160 + 8 ≤ block.size
  client : ∀ x, Client live x → heap.mem x = s.mem x
  device_ok : kstrcpyTr fuel heap.mem (payload block + BitVec.ofNat 64 32) device =
    .ok (afterDevice, first)
  target_ok : kstrcpyTr fuel afterDevice (payload block + BitVec.ofNat 64 96) target =
    .ok (afterTarget, second)
  type_ok : kstrcpyTr fuel afterTarget (payload block + BitVec.ofNat 64 0) type =
    .ok (afterType, third)
  mem : ∀ x, InRange node 160 x → t.mem x = afterType x
  written_eq : written = first ++ second ++ third

theorem exists_copies (hheap : HeapInv s.toKernelHeap live free) (hfuel : 65536 < fuel)
    (hok : vfsCreateMountpointTr fuel s device target type = .ok ((node, t), written))
    (hnode : node ≠ 0#64) : Nonempty (Copies fuel s t live node device target type written) := by
  have htotal : (Heap.totalSize 208#64).toNat = 224 := by decide
  unfold vfsCreateMountpointTr at hok
  rcases hheap.kmalloc hfuel 208#64 with ⟨-, hnull⟩ | ⟨b, free', h, -, hmalloc, hinv, hroom, ht⟩
  · rw [hnull] at hok
    cases hok
    exact absurd rfl hnode
  · rw [hmalloc] at hok
    change (if payload b = 0#64 then _ else _) = _ at hok
    rw [if_neg (hinv.placed_live List.mem_cons_self).payload_ne_zero] at hok
    obtain ⟨⟨m₁, first⟩, hdevice, hok⟩ := Loop.bind_eq_ok.mp hok
    obtain ⟨⟨m₂, second⟩, htarget, hok⟩ := Loop.bind_eq_ok.mp hok
    obtain ⟨⟨m₃, third⟩, htype, hok⟩ := Loop.bind_eq_ok.mp hok
    cases hok
    have hlink : Apart (payload b + BitVec.ofNat 64 0) 160 (payload b + BitVec.ofNat 64 200) 8 :=
      apart_fields (payload b) (by norm_num) (by norm_num)
    rw [BitVec.add_zero] at hlink
    exact ⟨⟨b, free', h, m₁, m₂, m₃, first, second, third, rfl, hinv, by omega,
      fun x hx => hheap.client_mem_eq ht hx, hdevice, htarget,
      by rwa [BitVec.add_zero], fun x hx => store64_of_not_inRange m₃ _ _ x (hlink x hx), rfl⟩⟩

/-- What a copy of a string to the node leaves of the strings of the caller. -/
theorem clientString_keep {live free : List Block} {h : KernelHeap} {b : Block} {m m' : Mem}
    {q : Word} {k : ℕ} {text other : List Byte} (hinv : HeapInv h (b :: live) free)
    (hroom : 160 + 8 ≤ b.size) (hlt : k + text.length < 160)
    (hframe : ∀ x, ¬ InRange (payload b + BitVec.ofNat 64 k) (text.length + 1) x → m' x = m x)
    (hq : Devfs.ClientString live m q other) : Devfs.ClientString live m' q other :=
  hq.congr fun x hx => hframe x fun hin =>
    hinv.client_not_inRange hroom hx (inRange_field hin (by omega) (by norm_num))

/-- An array that the later copies do not reach has the string that was copied to it. -/
theorem endsIn_field_iff {m m' : Mem} {p : Word} {k n : ℕ} {text : List Byte}
    (hs : StringAt m (p + BitVec.ofNat 64 k) text)
    (hsame : ∀ x, InRange (p + BitVec.ofNat 64 k) n x → m' x = m x) (hn : n ≤ 2 ^ 64) :
    EndsIn m' (p + BitVec.ofNat 64 k) n ↔ text.length < n := by
  rw [← endsIn_iff hs]
  have hbyte : ∀ i < n, m' (p + BitVec.ofNat 64 k + BitVec.ofNat 64 i) =
      m (p + BitVec.ofNat 64 k + BitVec.ofNat 64 i) := fun i hi => hsame _ (inRange_add _ hi hn)
  constructor
  · rintro ⟨i, hi, hnul⟩
    exact ⟨i, hi, hbyte i hi ▸ hnul⟩
  · rintro ⟨i, hi, hnul⟩
    exact ⟨i, hi, (hbyte i hi).trans hnul⟩

/-- When the copies are seen to stay in the node, or the strings fit, no string leaves the node, and
an array holds a string if the one copied to it fits and the type has not run into it. -/
theorem Copies.spec (c : Copies fuel s t live node device target type written)
    (hdevice : Devfs.ClientString live s.mem device deviceText)
    (htarget : Devfs.ClientString live s.mem target targetText)
    (htype : Devfs.ClientString live s.mem type typeText)
    (hstay : (∀ a ∈ written, InRange node 160 a) ∨ Fits deviceText targetText typeText) :
    (∀ a ∈ written, InRange node 160 a) ∧ targetText.length < vfsPathLength ∧
      (EndsIn t.mem node vfsTypeLength ↔ typeText.length < vfsTypeLength) ∧
      (typeText.length < vfsTypeLength →
        (EndsIn t.mem (node + 32#64) vfsPathLength ↔ deviceText.length < vfsPathLength) ∧
        (EndsIn t.mem (node + 96#64) vfsPathLength ↔ targetText.length < vfsPathLength)) := by
  obtain ⟨b, free', h, m₁, m₂, m₃, first, second, third, rfl, hinv, hroom, hclient, hok₁, hok₂,
    hok₃, hmem, rfl⟩ := c
  have hpart : ∀ {k : ℕ} {text : List Byte} {part : List Word},
      (∀ a ∈ part, a ∈ first ++ second ++ third) →
      (Fits deviceText targetText typeText → k + text.length < 160) →
      (∀ a ∈ part, InRange (payload b) 160 a) ∨ k + text.length < 160 :=
    fun hsub hshort => hstay.imp (fun hall a ha => hall a (hsub a ha)) hshort
  have hdevice₀ := hdevice.congr hclient
  obtain ⟨hlt₁, hin₁, hstring₁, hframe₁⟩ := kstrcpyTr_block hinv hroom (by norm_num) hdevice₀ hok₁
    (hpart (by simp +contextual) fun ⟨hlength, _, _⟩ => by
      unfold vfsPathLength at hlength
      omega)
  have htarget₁ := clientString_keep hinv hroom hlt₁ hframe₁ (htarget.congr hclient)
  have htype₁ := clientString_keep hinv hroom hlt₁ hframe₁ (htype.congr hclient)
  obtain ⟨hlt₂, hin₂, hstring₂, hframe₂⟩ := kstrcpyTr_block hinv hroom (by norm_num) htarget₁ hok₂
    (hpart (by simp +contextual) fun ⟨_, hlength, _⟩ => by
      unfold vfsPathLength at hlength
      omega)
  have htype₂ := clientString_keep hinv hroom hlt₂ hframe₂ htype₁
  obtain ⟨hlt₃, hin₃, hstring₃, hframe₃⟩ := kstrcpyTr_block hinv hroom (by norm_num) htype₂ hok₃
    (hpart (by simp +contextual) fun ⟨_, _, hlength⟩ => by
      unfold vfsTypeLength at hlength
      omega)
  unfold vfsPathLength vfsTypeLength
  refine ⟨fun a ha => ?_, by omega, ?_, fun hshort => ⟨?_, ?_⟩⟩
  · simp only [List.mem_append] at ha
    rcases ha with (ha | ha) | ha
    · exact inRange_field (hin₁ a ha) (by omega) (by norm_num)
    · exact inRange_field (hin₂ a ha) (by omega) (by norm_num)
    · exact inRange_field (hin₃ a ha) (by omega) (by norm_num)
  · have hends := endsIn_field_iff hstring₃
      (fun x hx => hmem x (inRange_field hx (by norm_num) (by norm_num)))
      (show 32 ≤ 2 ^ 64 by norm_num)
    rwa [BitVec.add_zero] at hends
  · refine endsIn_field_iff hstring₁ (fun x hx => ?_) (by norm_num)
    have hbehind : Apart (payload b + BitVec.ofNat 64 32) 64 (payload b + BitVec.ofNat 64 96)
        (targetText.length + 1) := apart_fields (payload b) (by norm_num) (by omega)
    have hbefore : Apart (payload b + BitVec.ofNat 64 0) (typeText.length + 1)
        (payload b + BitVec.ofNat 64 32) 64 := apart_fields (payload b) (by omega) (by norm_num)
    rw [hmem x (inRange_field hx (by norm_num) (by norm_num)), hframe₃ x (hbefore.symm x hx),
      hframe₂ x (hbehind x hx)]
  · refine endsIn_field_iff hstring₂ (fun x hx => ?_) (by norm_num)
    have hbefore : Apart (payload b + BitVec.ofNat 64 0) (typeText.length + 1)
        (payload b + BitVec.ofNat 64 96) 64 := apart_fields (payload b) (by omega) (by norm_num)
    rw [hmem x (inRange_field hx (by norm_num) (by norm_num)), hframe₃ x (hbefore.symm x hx)]

/-- The copies stay in the arrays of the node exactly when the three strings fit. -/
theorem Copies.contained_iff (c : Copies fuel s t live node device target type written)
    (hdevice : Devfs.ClientString live s.mem device deviceText)
    (htarget : Devfs.ClientString live s.mem target targetText)
    (htype : Devfs.ClientString live s.mem type typeText) :
    Contained t.mem node written ↔ Fits deviceText targetText typeText := by
  constructor
  · intro hcontained
    obtain ⟨-, htargetFits, hendType, hends⟩ :=
      c.spec hdevice htarget htype (Or.inl hcontained.written)
    have htypeFits := hendType.mp hcontained.type
    exact ⟨(hends htypeFits).1.mp hcontained.device, htargetFits, htypeFits⟩
  · intro hfits
    obtain ⟨hwritten, -, hendType, hends⟩ := c.spec hdevice htarget htype (Or.inr hfits)
    exact ⟨hwritten, hendType.mpr hfits.type, (hends hfits.type).1.mpr hfits.device,
      (hends hfits.type).2.mpr hfits.mountpoint⟩

/-- With strings that fit the call returns. -/
theorem vfsCreateMountpointTr_ok (hheap : HeapInv s.toKernelHeap live free) (hfuel : 65536 < fuel)
    (hdevice : Devfs.ClientString live s.mem device deviceText)
    (htarget : Devfs.ClientString live s.mem target targetText)
    (htype : Devfs.ClientString live s.mem type typeText)
    (hfits : Fits deviceText targetText typeText) :
    ∃ result, vfsCreateMountpointTr fuel s device target type = .ok result := by
  have htotal : (Heap.totalSize 208#64).toNat = 224 := by decide
  obtain ⟨hlt₁, hlt₂, hlt₃⟩ := hfits
  unfold vfsPathLength at hlt₁ hlt₂
  unfold vfsTypeLength at hlt₃
  unfold vfsCreateMountpointTr
  rcases hheap.kmalloc hfuel 208#64 with ⟨-, hnull⟩ | ⟨b, free', h, -, hmalloc, hinv, hroom, ht⟩
  · rw [hnull]
    exact ⟨_, rfl⟩
  · have hroom' : 160 + 8 ≤ b.size := by omega
    have hclient : ∀ x, Client live x → h.mem x = s.mem x := fun x hx =>
      hheap.client_mem_eq ht hx
    obtain ⟨m₁, first, hok₁⟩ := kstrcpyTr_ok (m := h.mem) (k := 32) hinv hroom'
      (hdevice.congr hclient) (by omega) (show deviceText.length < fuel by omega)
    obtain ⟨-, -, -, hframe₁⟩ := kstrcpyTr_block hinv hroom' (by norm_num)
      (hdevice.congr hclient) hok₁ (Or.inr (by omega))
    have htarget₁ := clientString_keep hinv hroom' (by omega) hframe₁ (htarget.congr hclient)
    have htype₁ := clientString_keep hinv hroom' (by omega) hframe₁ (htype.congr hclient)
    obtain ⟨m₂, second, hok₂⟩ := kstrcpyTr_ok (k := 96) hinv hroom' htarget₁ (by omega)
      (show targetText.length < fuel by omega)
    obtain ⟨-, -, -, hframe₂⟩ := kstrcpyTr_block hinv hroom' (by norm_num) htarget₁ hok₂
      (Or.inr (by omega))
    have htype₂ := clientString_keep hinv hroom' (by omega) hframe₂ htype₁
    obtain ⟨m₃, third, hok₃⟩ := kstrcpyTr_ok (k := 0) hinv hroom' htype₂ (by omega)
      (show typeText.length < fuel by omega)
    rw [BitVec.add_zero] at hok₃
    rw [hmalloc]
    dsimp only [Bind.bind, Except.bind]
    rw [if_neg (hinv.placed_live List.mem_cons_self).payload_ne_zero, hok₁]
    dsimp only
    rw [hok₂]
    dsimp only
    rw [hok₃]
    exact ⟨_, rfl⟩

end Create

/-! ## `devfs_register` -/

section Register

variable {fuel : ℕ} {s t : Devfs.DevfsTable} {live free : List Block}
  {devices : List Devfs.Device} {r : Devfs.Registration} {written : List Word}

/-- After whatever else is registered, the name leads to a node with what was registered under it
last. -/
def LaterLookups (fuel : ℕ) (t : Devfs.DevfsTable) (live : List Block) (r : Devfs.Registration) :
    Prop :=
  ∀ later t', Devfs.Registrable live t.mem later → Devfs.registerAll fuel t later = .ok t' →
    ∀ name, StringAt t'.mem name r.text →
      ∃ dev q, Devfs.devfsLookup fuel t' name = .ok dev ∧ dev ≠ 0#64 ∧
        Devfs.registered (r :: later) r.text = some q ∧ Devfs.NodeAt t'.mem dev q

/-- The copy stays in the array exactly when the name fits. -/
theorem devfsRegisterTr_written_iff (hinv : Devfs.DevInv s live free devices)
    (hfuel : 65536 < fuel) (hname : Devfs.ClientString live s.mem r.name r.text)
    (hok : devfsRegisterTr fuel s r.name r.ops r.data = .ok (t, written)) :
    (∀ a ∈ written, InRange t.devfsRoot Devfs.nameLength a) ↔
      r.text.length < Devfs.nameLength := by
  have htotal : (Heap.totalSize 40#64).toNat = 48 := by decide
  unfold devfsRegisterTr at hok
  rcases hinv.heap.kmalloc hfuel 40#64 with ⟨-, hnull⟩ | ⟨b, free', h, -, hmalloc, hheap, hroom, ht⟩
  · rw [hnull] at hok
    cases hok
  · rw [hmalloc] at hok
    change (if payload b = 0#64 then _ else _) = _ at hok
    rw [if_neg (hheap.placed_live List.mem_cons_self).payload_ne_zero] at hok
    obtain ⟨⟨m, copied⟩, hcopy, hok⟩ := Loop.bind_eq_ok.mp hok
    cases hok
    have hname' := hname.congr fun x hx => hinv.heap.client_mem_eq ht hx
    rw [← BitVec.add_zero (payload b)] at hcopy
    have hroom' : Devfs.nameLength + 8 ≤ b.size := by
      unfold Devfs.nameLength
      omega
    have hblock := kstrcpyTr_block hheap hroom' (Nat.zero_le _) hname' hcopy
    constructor
    · intro hin
      obtain ⟨hlt, -⟩ := hblock (Or.inl hin)
      omega
    · intro hlt a ha
      obtain ⟨-, hin, -⟩ := hblock (Or.inr (by omega))
      exact inRange_field (hin a ha) (by omega) (by decide)

/-- A name that does not reach `ops` is found again. -/
theorem laterLookups (hinv : Devfs.DevInv s live free devices) (hfuel : 65536 < fuel)
    (hname : Devfs.ClientString live s.mem r.name r.text) (hfits : r.text.length < 16)
    (hok : Devfs.devfsRegister fuel s r.name r.ops r.data = .ok t) :
    LaterLookups fuel t live r := by
  intro later t' hlater hrun name hstring
  rcases Devfs.devfsRegister_spec hinv hfuel r hname hfits with
    ⟨-, hpanic⟩ | ⟨b, free', t₁, hok', hinv', -, -⟩
  · rw [hpanic] at hok
    cases hok
  · obtain rfl : t₁ = t := Except.ok.inj (hok'.symm.trans hok)
    have hlater' : Devfs.Registrable (b :: live) t₁.mem later := fun q hq =>
      ⟨(hlater q hq).1.cons, (hlater q hq).2⟩
    obtain ⟨live', free'', devices', hinv'', hmap, -⟩ :=
      Devfs.registerAll_spec hinv' hfuel hlater' hrun
    have hall : devices'.map Devfs.Device.registration =
        ((devices.map Devfs.Device.registration).reverse ++ (r :: later)).reverse := by
      rw [hmap]
      simp
    have hlast : Devfs.registered
        ((devices.map Devfs.Device.registration).reverse ++ (r :: later)) r.text =
          Devfs.registered (r :: later) r.text := by
      have hsome : ((r :: later).reverse.find? fun q => q.text = r.text).isSome := by
        rw [List.find?_isSome]
        exact ⟨r, by simp, by simp⟩
      unfold Devfs.registered
      rw [List.reverse_append, List.find?_append, Option.or_of_isSome hsome]
    rcases hinv''.resolve hfuel hall hstring with ⟨hnone, -⟩ | ⟨q, d, hq, hlookup, hne, hnode⟩
    · rw [hlast] at hnone
      exact absurd ⟨r, List.mem_cons_self, rfl⟩ (Devfs.registered_eq_none_iff.mp hnone)
    · exact ⟨d.ptr, q, hlookup, hne, hlast ▸ hq, hnode⟩

end Register

/-- Names stay in their fields exactly when they fit: the three of a mount in the arrays of its
node, and the name of a device in the array of its node, where it is found again. -/
theorem names_in_fields_iff (fuel : ℕ) (hfuel : 65536 < fuel) (s : MountTable)
    (live free : List Block) (hheap : HeapInv s.toKernelHeap live free)
    (device target type : Word) (deviceText targetText typeText : List Byte)
    (hdevice : Devfs.ClientString live s.mem device deviceText)
    (htarget : Devfs.ClientString live s.mem target targetText)
    (htype : Devfs.ClientString live s.mem type typeText) (d : Devfs.DevfsTable)
    (live' free' : List Block) (devices : List Devfs.Device)
    (hdevices : Devfs.DevInv d live' free' devices) (r : Devfs.Registration)
    (hname : Devfs.ClientString live' d.mem r.name r.text) :
    (Fits deviceText targetText typeText →
        ∃ result, vfsCreateMountpointTr fuel s device target type = .ok result) ∧
      (∀ node t written, vfsCreateMountpointTr fuel s device target type = .ok ((node, t), written) →
        node ≠ 0#64 → (Contained t.mem node written ↔ Fits deviceText targetText typeText)) ∧
      ∀ t written, devfsRegisterTr fuel d r.name r.ops r.data = .ok (t, written) →
        ((∀ a ∈ written, InRange t.devfsRoot Devfs.nameLength a) ∧ LaterLookups fuel t live' r ↔
          r.text.length < Devfs.nameLength) := by
  refine ⟨vfsCreateMountpointTr_ok hheap hfuel hdevice htarget htype,
    fun node t written hok hnode => ?_, fun t written hok => ?_⟩
  · obtain ⟨copies⟩ := exists_copies hheap hfuel hok hnode
    exact copies.contained_iff hdevice htarget htype
  · rw [← devfsRegisterTr_written_iff hdevices hfuel hname hok]
    refine and_iff_left_of_imp fun hwritten => ?_
    have hfits := (devfsRegisterTr_written_iff hdevices hfuel hname hok).mp hwritten
    have hplain : Except.map Prod.fst (devfsRegisterTr fuel d r.name r.ops r.data) = _ :=
      devfsRegisterTr_fst d r.name r.ops r.data
    rw [hok] at hplain
    unfold Devfs.nameLength at hfits
    exact laterLookups hdevices hfuel hname (by omega) hplain.symm

/-- 64 times the character `a` at 0x2000. -/
def longNames : KernelHeap :=
  freshHeap { oneBlockHeap.toMachine with
    mem := fun x => if 0x2000 ≤ x.toNat ∧ x.toNat < 0x2040 then 0x61#8 else 0#8 }

theorem longNames_client {a : ℕ} {text : List Byte} (hpos : 0 < a)
    (hlow : a + text.length < 0x10000) (hstring : StringAt longNames.mem (BitVec.ofNat 64 a) text) :
    Devfs.ClientString [] longNames.mem (BitVec.ofNat 64 a) text :=
  ⟨hstring, (callerString_low hpos hlow hstring).client⟩

theorem longNames_inv : Devfs.DevInv ⟨longNames, 0#64⟩ [] [wholeHeap] [] :=
  ⟨freshHeap_inv _, rfl, List.nodup_nil, by simp, by simp, by simp⟩

theorem longNames_one : Devfs.ClientString [] longNames.mem 0x203F#64 [0x61#8] :=
  longNames_client (by norm_num) (by decide) (by decide +kernel)

/-- The mount of `a` at `a` with the type `a`, and the device `a`. -/
theorem names_in_fields_longNames :
    (∃ node t written, vfsCreateMountpointTr 65537 ⟨longNames, 0#64⟩ 0x203F#64 0x203F#64 0x203F#64 =
        .ok ((node, t), written) ∧ node ≠ 0#64 ∧ Contained t.mem node written) ∧
      ∃ t written, devfsRegisterTr 65537 ⟨longNames, 0#64⟩ 0x203F#64 0x4000#64 7#64 =
          .ok (t, written) ∧
        (∀ a ∈ written, InRange t.devfsRoot Devfs.nameLength a) ∧
        LaterLookups 65537 t [] ⟨0x203F#64, [0x61#8], 0x4000#64, 7#64⟩ := by
  obtain ⟨-, hcreate, hregister⟩ := names_in_fields_iff 65537 (by norm_num) ⟨longNames, 0#64⟩ []
    [wholeHeap] (freshHeap_inv _) 0x203F#64 0x203F#64 0x203F#64 [0x61#8] [0x61#8] [0x61#8]
    longNames_one longNames_one longNames_one ⟨longNames, 0#64⟩ [] [wholeHeap] [] longNames_inv
    ⟨0x203F#64, [0x61#8], 0x4000#64, 7#64⟩ longNames_one
  constructor
  · have hrun : (vfsCreateMountpointTr 65537 ⟨longNames, 0#64⟩ 0x203F#64 0x203F#64
        0x203F#64).toOption.map (fun r => r.1.1) = some 0xFFFF810000000008#64 := by decide +kernel
    obtain ⟨⟨⟨node, t⟩, written⟩, hok, hnode⟩ := Loop.exists_of_toOption hrun
    have hne : node ≠ 0#64 := fun hzero => absurd (hnode.symm.trans hzero) (by decide)
    exact ⟨node, t, written, hok, hne, (hcreate node t written hok hne).mpr
      (by constructor <;> decide)⟩
  · have hrun : (devfsRegisterTr 65537 ⟨longNames, 0#64⟩ 0x203F#64 0x4000#64 7#64).toOption.map
        (fun r => r.1.devfsRoot) = some 0xFFFF810000000008#64 := by decide +kernel
    obtain ⟨⟨t, written⟩, hok, -⟩ := Loop.exists_of_toOption hrun
    exact ⟨t, written, hok, (hregister t written hok).mpr (by decide)⟩

/-- A device of 64 characters fills its array without a NUL, and the name of a device of 12
characters is written past the array. -/
theorem names_leave_fields :
    (∃ node t written, vfsCreateMountpointTr 65537 ⟨longNames, 0#64⟩ 0x2000#64 0x203F#64 0x203F#64 =
        .ok ((node, t), written) ∧ node ≠ 0#64 ∧
        StringAt longNames.mem 0x2000#64 (List.replicate 64 0x61#8) ∧
        ¬ EndsIn t.mem (node + 32#64) vfsPathLength ∧ ¬ Contained t.mem node written) ∧
      ∃ t written, devfsRegisterTr 65537 ⟨longNames, 0#64⟩ 0x2034#64 0x4000#64 7#64 =
          .ok (t, written) ∧
        StringAt longNames.mem 0x2034#64 (List.replicate 12 0x61#8) ∧
        t.devfsRoot + 12#64 ∈ written ∧
        ¬ ∀ a ∈ written, InRange t.devfsRoot Devfs.nameLength a := by
  have hlong : StringAt longNames.mem 0x2000#64 (List.replicate 64 0x61#8) := by decide +kernel
  have hname : StringAt longNames.mem 0x2034#64 (List.replicate 12 0x61#8) := by decide +kernel
  constructor
  · have hrun : (vfsCreateMountpointTr 65537 ⟨longNames, 0#64⟩ 0x2000#64 0x203F#64
        0x203F#64).toOption.map (fun r => (r.1.1, (List.range 64).all fun i =>
          r.1.2.mem (r.1.1 + 32#64 + BitVec.ofNat 64 i) ≠ 0#8)) =
        some (0xFFFF810000000008#64, true) := by decide +kernel
    obtain ⟨⟨⟨node, t⟩, written⟩, hok, hvalues⟩ := Loop.exists_of_toOption hrun
    obtain ⟨hnode, hbytes⟩ := Prod.mk.inj hvalues
    have hne : node ≠ 0#64 := fun hzero => absurd (hnode.symm.trans hzero) (by decide)
    have hends : ¬ EndsIn t.mem (node + 32#64) vfsPathLength := by
      rintro ⟨i, hi, hnul⟩
      exact of_decide_eq_true (List.all_eq_true.mp hbytes i (List.mem_range.mpr hi)) hnul
    exact ⟨node, t, written, hok, hne, hlong, hends, fun hcontained => hends hcontained.device⟩
  · have hrun : (devfsRegisterTr 65537 ⟨longNames, 0#64⟩ 0x2034#64 0x4000#64 7#64).toOption.map
        (fun r => decide (r.1.devfsRoot + 12#64 ∈ r.2)) = some true := by decide +kernel
    obtain ⟨⟨t, written⟩, hok, hmem⟩ := Loop.exists_of_toOption hrun
    have hbehind : t.devfsRoot + 12#64 ∈ written := of_decide_eq_true hmem
    refine ⟨t, written, hok, hname, hbehind, fun hin => ?_⟩
    have hoff := hin _ hbehind
    unfold Devfs.nameLength at hoff
    exact absurd ((inRange_offset_iff t.devfsRoot (by norm_num)).mp hoff) (by decide)

end Osiris.Vfs
