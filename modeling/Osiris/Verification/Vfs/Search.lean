import Osiris.Verification.Vfs.MountList

/-! # The list of mounts that a path is looked up in

The calls that take a path are modelled on a list of mounts. The list in the heap holds the same
mounts, and a search in it finds the same one. -/

namespace Osiris.Vfs

open ByteMemory Strings Heap Blocks LinkedList Tar

/-- The node is of the file system and on the mountpoint of the mount. -/
structure Shows (n : MountNode) (mp : Mountpoint) : Prop where
  type : n.type = mp.type.name
  mountpoint : n.mountpoint = mp.mountpoint

section Loops

variable {m : Mem} {fuel i : ℕ} {s path mountpoint : Word} {text : List Byte}

theorem kstrlenLoop_eq (hstring : StringAt m (s + BitVec.ofNat 64 i) text)
    (hfuel : text.length < fuel) : kstrlenLoop m s fuel i = .ok (i + text.length) := by
  induction text generalizing i fuel with
  | nil =>
      obtain ⟨fuel, rfl⟩ := Nat.exists_eq_succ_of_ne_zero hfuel.ne'
      have hnul : m (s + BitVec.ofNat 64 i) = 0#8 := hstring
      rw [kstrlenLoop, hnul, if_neg (not_not.mpr rfl)]
      rfl
  | cons c text ih =>
      obtain ⟨fuel, rfl⟩ := Nat.exists_eq_succ_of_ne_zero (Nat.ne_of_gt (Nat.zero_lt_of_lt hfuel))
      obtain ⟨hc, hmem, hrest⟩ := hstring
      rw [List.length_cons] at hfuel ⊢
      rw [BitVec.add_assoc, ← BitVec.ofNat_add] at hrest
      have hless : text.length < fuel := by omega
      rw [kstrlenLoop, hmem, if_pos hc, ih hrest hless, Nat.add_assoc, Nat.add_comm 1]

theorem kstrlen_eq (hstring : StringAt m s text) (hfuel : text.length < fuel) :
    kstrlen fuel m s = .ok text.length := by
  have hstart : StringAt m (s + BitVec.ofNat 64 0) text := by rwa [BitVec.add_zero]
  have hloop := kstrlenLoop_eq hstart hfuel
  rwa [Nat.zero_add] at hloop

/-- The comparison with the characters in the node is that with the characters of the mount. -/
theorem commonLengthLoop_eq (hstring : StringAt m (mountpoint + BitVec.ofNat 64 i) text) :
    commonLengthLoop m path mountpoint text.length i =
      i + commonLength m (path + BitVec.ofNat 64 i) text := by
  induction text generalizing i with
  | nil => rfl
  | cons c text ih =>
      obtain ⟨-, hmem, hrest⟩ := hstring
      rw [BitVec.add_assoc, ← BitVec.ofNat_add] at hrest
      rw [List.length_cons, commonLengthLoop, commonLength, hmem]
      by_cases hc : m (path + BitVec.ofNat 64 i) = c
      · rw [if_neg (not_not.mpr hc), if_pos hc, ih hrest, BitVec.ofNat_add, ← BitVec.add_assoc]
        omega
      · rw [if_pos hc, if_neg hc]
        rfl

end Loops

theorem covers_eq_true_iff {m : Mem} {path : Word} {mp : Mountpoint} :
    mp.covers m path = true ↔ commonLength m path mp.mountpoint = mp.mountpoint.length ∧
      (m (path + BitVec.ofNat 64 (commonLength m path mp.mountpoint)) = 0x2F#8 ∨
        m (path + BitVec.ofNat 64 (commonLength m path mp.mountpoint)) = 0#8) := by
  unfold Mountpoint.covers
  simp only [Bool.and_eq_true, Bool.or_eq_true, decide_eq_true_eq]

/-- The first pair that is found by its second part is at the place of this part. -/
theorem find?_zip {α β : Type*} {P : β → Bool} {as : List α} {bs : List β}
    (hlength : as.length = bs.length) (j : ℕ) :
    (as.zip bs).find? (fun ab => P ab.2) =
      ((bs.zipIdx j).find? fun b => P b.1).bind fun b =>
        as[b.2 - j]?.map fun a => (a, b.1) := by
  induction bs generalizing as j with
  | nil => simp
  | cons b bs ih =>
      cases as with
      | nil => simp at hlength
      | cons a as =>
          rw [List.zip_cons_cons, List.zipIdx_cons, List.find?_cons, List.find?_cons]
          cases hb : P b with
          | true => simp
          | false =>
              dsimp only
              rw [ih (Nat.succ_inj.mp hlength) (j + 1)]
              cases hfind : (bs.zipIdx (j + 1)).find? fun b => P b.1 with
              | none => rfl
              | some b' =>
                  have hplace := (List.mem_zipIdx (List.mem_of_find?_eq_some hfind)).1
                  have hindex : b'.2 - j = b'.2 - (j + 1) + 1 := by omega
                  simp only [Option.bind_some, hindex, List.getElem?_cons_succ]

section Search

variable {s : MountTable} {live free : List Block} {fuel k : ℕ} {m : Mem} {cur : Word}
  {nodes : List MountNode} {mounts : List Mountpoint}

theorem findMountpointLoop_eq (path : Word)
    (hchain : Chain m 200#64 cur (nodes.map MountNode.ptr) 0#64)
    (hnodes : ∀ n ∈ nodes, NodeAt m n) (hshows : List.Forall₂ Shows nodes mounts)
    (hfuel : 65536 < fuel) (hk : nodes.length < k) :
    findMountpointLoop fuel m path k cur =
      .ok (((nodes.zip mounts).find? fun nm => nm.2.covers m path).map fun nm =>
        (nm.1.ptr, nm.2.relpath m path)) := by
  induction hshows generalizing cur k with
  | nil =>
      obtain ⟨k, rfl⟩ := Nat.exists_eq_succ_of_ne_zero hk.ne'
      obtain rfl : cur = 0#64 := hchain
      rfl
  | @cons n mp nodes mounts hnm hrest ih =>
      obtain ⟨k, rfl⟩ := Nat.exists_eq_succ_of_ne_zero (Nat.ne_of_gt (Nat.zero_lt_of_lt hk))
      obtain ⟨rfl, hne, hnext⟩ := chain_cons.mp hchain
      have hnode := hnodes n List.mem_cons_self
      have hless : nodes.length < k := by
        rw [List.length_cons] at hk
        omega
      have hfits := hnode.fits.mountpoint
      unfold vfsPathLength at hfits
      have hstart : StringAt m (n.ptr + 96#64 + BitVec.ofNat 64 0) n.mountpoint := by
        rw [BitVec.add_zero]
        exact hnode.mountpoint
      have hcommon : commonLengthLoop m path (n.ptr + 96#64) n.mountpoint.length 0 =
          commonLength m path n.mountpoint := by
        rw [commonLengthLoop_eq hstart, Nat.zero_add, BitVec.add_zero]
      rw [findMountpointLoop, if_neg hne, kstrlen_eq hnode.mountpoint (by omega),
        List.zip_cons_cons, List.find?_cons]
      dsimp only [Bind.bind, Except.bind]
      rw [hcommon, hnm.mountpoint]
      have hiff := @covers_eq_true_iff m path mp
      cases hcovers : mp.covers m path with
      | true =>
          rw [if_pos (hiff.mp hcovers)]
          rfl
      | false =>
          rw [if_neg fun hmatch => by simpa [hcovers] using hiff.mpr hmatch]
          exact ih hnext (fun n' hn' => hnodes n' (List.mem_cons_of_mem n hn')) hless

/-- The search in the heap finds the node of the mount that is found in the list, and gives it the
same path. -/
theorem findMountpoint_refines_findMount (hinv : MountInv s live free nodes)
    (hshows : List.Forall₂ Shows nodes mounts) (hfuel : 65536 < fuel) (path : Word) :
    match findMount mounts s.mem path with
    | none => findMountpoint fuel s path = .ok none
    | some (mp, i) => ∃ n, nodes[i]? = some n ∧ Shows n mp ∧
        findMountpoint fuel s path = .ok (some (n.ptr, mp.relpath s.mem path)) := by
  have hloop := findMountpointLoop_eq path hinv.chain hinv.nodes hshows hfuel
    (lt_of_le_of_lt hinv.length_le hfuel)
  have hzip := find?_zip (P := fun mp => mp.covers s.mem path) hshows.length_eq 0
  change findMountpoint fuel s path = _ at hloop
  rw [hzip] at hloop
  cases hfind : findMount mounts s.mem path with
  | none =>
      unfold findMount at hfind
      rw [hloop, hfind]
      rfl
  | some found =>
      obtain ⟨mp, i⟩ := found
      unfold findMount at hfind
      have hmem := List.mem_zipIdx (List.mem_of_find?_eq_some hfind)
      obtain ⟨-, hi, hmp⟩ := hmem
      have hi' : i < nodes.length := by
        rw [hshows.length_eq]
        omega
      refine ⟨nodes[i], List.getElem?_eq_getElem hi', ?_, ?_⟩
      · have hget := (List.forall₂_iff_get.mp hshows).2 i hi' (by omega)
        rw [hmp]
        exact hget
      · rw [hloop, hfind]
        simp only [Option.bind_some, Nat.sub_zero, List.getElem?_eq_getElem hi', Option.map_some]

end Search

end Osiris.Vfs
