import Osiris.Model.Devfs
import Osiris.Verification.Vfs.MountList

/-! # The devices that are registered

The list at `devfs_root` is a stack: a registration puts its node in front. -/

namespace Osiris.Devfs

open ByteMemory Strings Heap Blocks LinkedList Tar Vfs

/-! ## Nodes -/

/-- The arguments of `devfs_register`, with the characters of the name. -/
structure Registration where
  name : Word
  text : List Byte
  ops : Word
  data : Word
deriving DecidableEq, Repr

/-- The node has what was registered. A name that reaches `ops` would be overwritten there. -/
structure NodeAt (m : Mem) (node : Word) (r : Registration) : Prop where
  name : StringAt m node r.text
  fits : r.text.length < 16
  ops : load64 m (node + 16#64) = r.ops
  data : load64 m (node + 24#64) = r.data

/-- A registered device, with the block of its node. -/
structure Device where
  block : Block
  registration : Registration
deriving DecidableEq, Repr

def Device.ptr (d : Device) : Word :=
  payload d.block

/-- The list leads through the nodes of the devices in their order. -/
structure DevInv (s : DevfsTable) (live free : List Block) (devices : List Device) : Prop where
  heap : HeapInv s.toKernelHeap live free
  chain : Chain s.mem 32#64 s.devfsRoot (devices.map Device.ptr) 0#64
  nodup : (devices.map Device.block).Nodup
  live : ∀ d ∈ devices, d.block ∈ live
  room : ∀ d ∈ devices, 48 ≤ d.block.size
  nodes : ∀ d ∈ devices, NodeAt s.mem d.ptr d.registration

/-- A string that is not in the memory of the allocator. -/
structure ClientString (live : List Block) (m : Mem) (p : Word) (text : List Byte) : Prop where
  string : StringAt m p text
  client : ∀ x, InRange p (text.length + 1) x → Client live x

section Nodes

variable {s : DevfsTable} {h : KernelHeap} {m m' : Mem} {live free : List Block}
  {devices : List Device} {d : Device} {b : Block} {r : Registration} {node p x : Word}
  {text : List Byte}

theorem NodeAt.congr (hnode : NodeAt m node r) (hsame : ∀ x, InRange node 40 x → m' x = m x) :
    NodeAt m' node r := by
  have hfits := hnode.fits
  refine ⟨hnode.name.congr fun x hx => hsame x (inRange_mono hx (by omega)), hfits, ?_, ?_⟩
  · rw [← hnode.ops]
    exact load64_congr fun x hx => hsame x (inRange_field hx (by norm_num) (by norm_num))
  · rw [← hnode.data]
    exact load64_congr fun x hx => hsame x (inRange_field hx (by norm_num) (by norm_num))

theorem DevInv.length_le (hinv : DevInv s live free devices) : devices.length ≤ 65536 := by
  have hle := hinv.heap.live_length_le hinv.nodup fun b hb => by
    obtain ⟨d, hd, rfl⟩ := List.mem_map.mp hb
    exact hinv.live d hd
  rwa [List.length_map] at hle

theorem DevInv.client (hinv : DevInv s live free devices) (hd : d ∈ devices)
    (hx : InRange d.ptr 40 x) : Client live x :=
  Or.inl ⟨d.block, hinv.live d hd,
    inPayload_of_inRange (hinv.heap.placed_live (hinv.live d hd)) (hinv.room d hd) hx⟩

theorem ClientString.congr (hname : ClientString live m p text)
    (hsame : ∀ x, Client live x → m' x = m x) : ClientString live m' p text :=
  ⟨hname.string.congr fun x hx => hsame x (hname.client x hx), hname.client⟩

theorem ClientString.cons (hname : ClientString live m p text) :
    ClientString (b :: live) m p text :=
  ⟨hname.string, fun x hx => (hname.client x hx).cons⟩

/-- The stores behind the name fill the node in. -/
theorem nodeAt_store (hstring : StringAt m node r.text) (hfits : r.text.length < 16) (next : Word) :
    let m' := store64 (store64 (store64 m (node + 16#64) r.ops) (node + 24#64) r.data)
      (node + 32#64) next
    NodeAt m' node r ∧ load64 m' (node + 32#64) = next ∧
      ∀ x, ¬ InRange (node + 16#64) 24 x → m' x = m x := by
  intro m'
  have hops : Apart (node + 16#64) 8 (node + 24#64) 8 :=
    apart_fields node (by norm_num) (by norm_num)
  have hopsNext : Apart (node + 16#64) 8 (node + 32#64) 8 :=
    apart_fields node (by norm_num) (by norm_num)
  have hdataNext : Apart (node + 24#64) 8 (node + 32#64) 8 :=
    apart_fields node (by norm_num) (by norm_num)
  have hfields : Apart (node + 0#64) 16 (node + 16#64) 24 :=
    apart_fields node (by norm_num) (by norm_num)
  rw [BitVec.add_zero] at hfields
  have htail : ∀ k : ℕ, k + 8 ≤ 24 → ∀ x, InRange (node + 16#64 + BitVec.ofNat 64 k) 8 x →
      InRange (node + 16#64) 24 x := fun k hk x hx => inRange_field hx hk (by norm_num)
  have hframe : ∀ x, ¬ InRange (node + 16#64) 24 x → m' x = m x := by
    intro x hx
    have hfar : ∀ k : ℕ, k + 8 ≤ 24 → ¬ InRange (node + 16#64 + BitVec.ofNat 64 k) 8 x :=
      fun k hk hin => hx (htail k hk x hin)
    have hnode : node + 32#64 = node + 16#64 + BitVec.ofNat 64 16 := by rw [add_assoc]; rfl
    have hnode' : node + 24#64 = node + 16#64 + BitVec.ofNat 64 8 := by rw [add_assoc]; rfl
    have hnode'' : node + 16#64 = node + 16#64 + BitVec.ofNat 64 0 := (BitVec.add_zero _).symm
    calc m' x = store64 (store64 m (node + 16#64) r.ops) (node + 24#64) r.data x :=
          store64_of_not_inRange _ _ _ x (hnode ▸ hfar 16 (by norm_num))
      _ = store64 m (node + 16#64) r.ops x :=
          store64_of_not_inRange _ _ _ x (hnode' ▸ hfar 8 (by norm_num))
      _ = m x := store64_of_not_inRange _ _ _ x (hnode'' ▸ hfar 0 (by norm_num))
  refine ⟨⟨hstring.congr fun x hx => ?_, hfits, ?_, ?_⟩, load64_store64_same _ _ _, hframe⟩
  · exact hframe x (hfields x (inRange_mono hx hfits))
  · rw [load64_store64_apart _ _ _ _ hopsNext, load64_store64_apart _ _ _ _ hops,
      load64_store64_same]
  · rw [load64_store64_apart _ _ _ _ hdataNext, load64_store64_same]

end Nodes

/-! ## `devfs_register` and `devfs_lookup` -/

section Operations

variable {s : DevfsTable} {live free : List Block} {devices : List Device} {fuel : ℕ}

/-- Without room for a node the kernel stops. Otherwise the device comes to the front of the
list. -/
theorem devfsRegister_sized (hinv : DevInv s live free devices) (hfuel : 65536 < fuel)
    (r : Registration) (hname : ClientString live s.mem r.name r.text) (hfits : r.text.length < 16) :
    kmalloc fuel s.toKernelHeap 40#64 = .ok (0#64, s.toKernelHeap) ∧
        devfsRegister fuel s r.name r.ops r.data =
          .error (.panic "devfs: failed to allocate node") ∨
      ∃ b free' s', b.size = 48 ∧ devfsRegister fuel s r.name r.ops r.data = .ok s' ∧
        DevInv s' (b :: live) free' (⟨b, r⟩ :: devices) ∧
        s'.devfsRoot = payload b ∧ ∀ x, Client live x → s'.mem x = s.mem x := by
  have htotal : (Heap.totalSize 40#64).toNat = 48 := by decide
  rcases hinv.heap.kmalloc hfuel 40#64 with
    ⟨-, hnull⟩ | ⟨b, free', h, hfit, hok, hheap, hroom, ht⟩
  · left
    refine ⟨hnull, ?_⟩
    unfold devfsRegister
    rw [hnull]
    rfl
  · right
    rw [htotal] at hroom hfit
    obtain ⟨g, -, hblock⟩ := hinv.heap.lowestGap_of_firstFit (by norm_num) hfit
    have hplaced := hheap.placed_live (List.mem_cons_self (a := b))
    have hsame : ∀ x, Client live x → h.mem x = s.mem x := fun x hx =>
      hinv.heap.client_mem_eq ht hx
    have hout : ∀ x, Client live x → ¬ InRange (payload b) 40 x := fun x hx =>
      hheap.client_not_inRange hroom hx
    have hname' := hname.congr hsame
    have hapart : Apart (payload b) (r.text.length + 1) r.name (r.text.length + 1) :=
      fun x hx hy => hout x (hname.client x hy) (inRange_mono hx (by omega))
    obtain ⟨m, hcopy, hstring, hframe⟩ :=
      kstrcpy_spec hname'.string (by omega) hapart (show r.text.length < fuel by omega)
    obtain ⟨hnode, hnext, hfields⟩ := nodeAt_store hstring hfits s.devfsRoot
    generalize hm' : store64 (store64 (store64 m (payload b + 16#64) r.ops) (payload b + 24#64)
      r.data) (payload b + 32#64) s.devfsRoot = m' at hnode hnext hfields
    have hmem : ∀ x, ¬ InRange (payload b) 40 x → m' x = h.mem x := fun x hx =>
      (hfields x fun hin => hx (inRange_field hin (by norm_num) (by norm_num))).trans
        (hframe x fun hin => hx (inRange_mono hin (by omega)))
    have hclient : ∀ x, Client live x → m' x = s.mem x := fun x hx =>
      (hmem x (hout x hx)).trans (hsame x hx)
    have hold : ∀ d ∈ devices, ∀ x, InRange d.ptr 40 x → m' x = s.mem x := fun d hd x hx =>
      hclient x (hinv.client hd hx)
    refine ⟨b, free', ⟨{ h with mem := m' }, payload b⟩, by rw [hblock], ?_, ⟨?_, ?_, ?_, ?_, ?_, ?_⟩, rfl, hclient⟩
    · unfold devfsRegister
      rw [hok]
      dsimp only [Bind.bind, Except.bind]
      rw [if_neg hplaced.payload_ne_zero, hcopy]
      dsimp only
      rw [hm']
    · exact hheap.write fun x hx => hmem x fun hin => hx (Or.inl ⟨b, List.mem_cons_self,
        inPayload_of_inRange hplaced hroom hin⟩)
    · refine chain_cons.mpr ⟨rfl, hplaced.payload_ne_zero, ?_⟩
      change Chain m' 32#64 (load64 m' (payload b + 32#64)) _ _
      rw [hnext]
      refine hinv.chain.congr fun a ha => ?_
      obtain ⟨d, hd, rfl⟩ := List.mem_map.mp ha
      exact load64_congr fun x hx => hold d hd x (inRange_field hx (by norm_num) (by norm_num))
    · refine List.nodup_cons.mpr ⟨fun hmem => ?_, hinv.nodup⟩
      obtain ⟨d, hd, heq⟩ := List.mem_map.mp hmem
      have hblock : d.block = b := heq
      exact hheap.not_mem_rest (hblock ▸ hinv.live d hd)
    · exact List.forall_mem_cons.mpr ⟨List.mem_cons_self,
        fun d hd => List.mem_cons_of_mem b (hinv.live d hd)⟩
    · exact List.forall_mem_cons.mpr ⟨hroom, hinv.room⟩
    · exact List.forall_mem_cons.mpr ⟨hnode, fun d hd => (hinv.nodes d hd).congr (hold d hd)⟩

theorem devfsRegister_spec (hinv : DevInv s live free devices) (hfuel : 65536 < fuel)
    (r : Registration) (hname : ClientString live s.mem r.name r.text) (hfits : r.text.length < 16) :
    kmalloc fuel s.toKernelHeap 40#64 = .ok (0#64, s.toKernelHeap) ∧
        devfsRegister fuel s r.name r.ops r.data =
          .error (.panic "devfs: failed to allocate node") ∨
      ∃ b free' s', devfsRegister fuel s r.name r.ops r.data = .ok s' ∧
        DevInv s' (b :: live) free' (⟨b, r⟩ :: devices) ∧
        s'.devfsRoot = payload b ∧ ∀ x, Client live x → s'.mem x = s.mem x :=
  (devfsRegister_sized hinv hfuel r hname hfits).imp_right
    fun ⟨b, free', s', _, h⟩ => ⟨b, free', s', h⟩

/-- The node of the first device with the name, or `NULL`. -/
theorem devfsLookupLoop_eq {m : Mem} {name cur : Word} {text : List Byte} {k : ℕ}
    (hchain : Chain m 32#64 cur (devices.map Device.ptr) 0#64)
    (hnodes : ∀ d ∈ devices, NodeAt m d.ptr d.registration) (hname : StringAt m name text)
    (hfuel : 16 ≤ fuel) (hk : devices.length < k) :
    devfsLookupLoop fuel m name k cur =
      .ok (((devices.find? fun d => d.registration.text = text).map Device.ptr).getD 0#64) := by
  induction devices generalizing cur k with
  | nil =>
      obtain ⟨k, rfl⟩ := Nat.exists_eq_succ_of_ne_zero hk.ne'
      have hcur : cur = 0#64 := hchain
      rw [devfsLookupLoop, if_pos hcur]
      rfl
  | cons d devices ih =>
      obtain ⟨k, rfl⟩ := Nat.exists_eq_succ_of_ne_zero (Nat.ne_of_gt (Nat.zero_lt_of_lt hk))
      obtain ⟨rfl, hne, hrest⟩ := chain_cons.mp hchain
      have hnode := hnodes d List.mem_cons_self
      have hfits := hnode.fits
      obtain ⟨order, hok, horder⟩ :=
        kstrcmpAt_spec hnode.name hname (show d.registration.text.length < fuel by omega)
      rw [devfsLookupLoop, if_neg hne, hok]
      dsimp only [Bind.bind, Except.bind]
      by_cases hsame : d.registration.text = text
      · rw [if_pos (horder.mpr hsame), List.find?_cons_of_pos (by simpa using hsame)]
        rfl
      · rw [if_neg (mt horder.mp hsame), List.find?_cons_of_neg (by simpa using hsame)]
        exact ih hrest (fun e he => hnodes e (List.mem_cons_of_mem d he)) (by
          rw [List.length_cons] at hk
          omega)

theorem DevInv.devfsLookup (hinv : DevInv s live free devices) (hfuel : 65536 < fuel) {name : Word}
    {text : List Byte} (hname : StringAt s.mem name text) :
    devfsLookup fuel s name =
      .ok (((devices.find? fun d => d.registration.text = text).map Device.ptr).getD 0#64) :=
  devfsLookupLoop_eq hinv.chain hinv.nodes hname (by omega) (by have hle := hinv.length_le; omega)

end Operations

/-! ## Sequences of registrations -/

/-- The calls of `devfs_register` one after the other. -/
def registerAll (fuel : ℕ) (s : DevfsTable) (regs : List Registration) : Except Fault DevfsTable :=
  regs.foldlM (fun s r => devfsRegister fuel s r.name r.ops r.data) s

/-- The last registration of the name. -/
def registered (regs : List Registration) (text : List Byte) : Option Registration :=
  regs.reverse.find? fun r => r.text = text

/-- The names fit in front of `ops` and are not in the memory of the allocator. -/
def Registrable (live : List Block) (m : Mem) (regs : List Registration) : Prop :=
  ∀ r ∈ regs, ClientString live m r.name r.text ∧ r.text.length < 16

section Runs

variable {s s' : DevfsTable} {live free : List Block} {devices : List Device} {fuel : ℕ}
  {regs : List Registration}

theorem registerAll_spec (hinv : DevInv s live free devices) (hfuel : 65536 < fuel)
    (hregs : Registrable live s.mem regs) (hrun : registerAll fuel s regs = .ok s') :
    ∃ live' free' devices', DevInv s' live' free' devices' ∧
      devices'.map Device.registration = regs.reverse ++ devices.map Device.registration ∧
      ∀ x, Client live x → s'.mem x = s.mem x := by
  induction regs generalizing s live free devices with
  | nil =>
      obtain rfl : s = s' := Except.ok.inj hrun
      exact ⟨live, free, devices, hinv, rfl, fun _ _ => rfl⟩
  | cons r regs ih =>
      obtain ⟨⟨hname, hfits⟩, hrest⟩ := List.forall_mem_cons.mp hregs
      unfold registerAll at hrun
      rw [List.foldlM_cons] at hrun
      rcases devfsRegister_spec hinv hfuel r hname hfits with
        ⟨-, hpanic⟩ | ⟨b, free', t, hok, hinv', -, hsame⟩
      · rw [hpanic] at hrun
        cases hrun
      · rw [hok] at hrun
        have hregs' : Registrable (b :: live) t.mem regs := fun q hq =>
          ⟨((hrest q hq).1.congr hsame).cons, (hrest q hq).2⟩
        obtain ⟨live', free'', devices', hinv'', hmap, hsame'⟩ := ih hinv' hregs' hrun
        refine ⟨live', free'', devices', hinv'', ?_,
          fun x hx => (hsame' x hx.cons).trans (hsame x hx)⟩
        rw [hmap]
        simp

/-- The lookup finds the node of the last registration of the name. -/
theorem DevInv.resolve (hinv : DevInv s live free devices) (hfuel : 65536 < fuel)
    (hmap : devices.map Device.registration = regs.reverse) {name : Word} {text : List Byte}
    (hname : StringAt s.mem name text) :
    registered regs text = none ∧ Devfs.devfsLookup fuel s name = .ok 0#64 ∨
      ∃ r d, registered regs text = some r ∧ Devfs.devfsLookup fuel s name = .ok (Device.ptr d) ∧
        d.ptr ≠ 0#64 ∧ NodeAt s.mem d.ptr r := by
  have hfound : registered regs text =
      (devices.find? fun d => d.registration.text = text).map Device.registration := by
    unfold registered
    rw [← hmap, List.find?_map]
    rfl
  rw [hfound, hinv.devfsLookup hfuel hname]
  cases h : devices.find? fun d => d.registration.text = text with
  | none => exact Or.inl ⟨rfl, rfl⟩
  | some d =>
      have hd : d ∈ devices := List.mem_of_find?_eq_some h
      exact Or.inr ⟨d.registration, d, rfl, rfl,
        (hinv.heap.placed_live (hinv.live d hd)).payload_ne_zero, hinv.nodes d hd⟩

end Runs

/-! ## Dispatch -/

/-- The operation of the device is called with its data, if there is one. -/
def dispatch (call : DriverCode) (s : DevfsTable) (op : Word) (found : Option Registration)
    (buffer : Word) (size : BitVec 32) : Except Fault (BitVec 32 × DevfsTable) :=
  match found with
  | none => .ok (-1#32, s)
  | some r =>
      if r.ops ≠ 0#64 ∧ load64 s.mem (r.ops + op) ≠ 0#64 then do
        let (bytes, h) ← call (load64 s.mem (r.ops + op)) r.data buffer size s.toKernelHeap
        .ok (bytes, { s with toKernelHeap := h })
      else .ok (-1#32, s)

/-- The operation that the table of a device has at a place. -/
def shownOp (call : DriverCode) (m : Mem) (op : Word) (r : Registration) : Option DeviceOp :=
  if r.ops ≠ 0#64 ∧ load64 m (r.ops + op) ≠ 0#64 then
    some (call (load64 m (r.ops + op)) r.data)
  else none

/-- The devices as the virtual file system sees them. -/
def files (call : DriverCode) (s : DevfsTable) (tar : TarFs) (regs : List Registration) : Files where
  toKernelHeap := s.toKernelHeap
  tar := tar
  devfsRoot := regs.reverse.map fun r =>
    ⟨r.text, shownOp call s.mem 24#64 r, shownOp call s.mem 32#64 r⟩

/-- What a call of a device does to the file systems. -/
def onFiles (f : Files) : Except Fault (BitVec 32 × DevfsTable) → Except Fault (BitVec 32 × Files)
  | .error fault => .error fault
  | .ok (bytes, t) => .ok (bytes, { f with toKernelHeap := t.toKernelHeap })

/-- `vfs_read` comes to a device through the mount that covers the path, or as a last resort with
the whole path through the first mount of the list. -/
inductive ReachesDevfs (mounts : List Mountpoint) (m : Mem) (path : Word) : Word → Prop
  | covered {mp : Mountpoint} {i : ℕ} (hmount : findMount mounts m path = some (mp, i))
      (htype : mp.type = .devfs) : ReachesDevfs mounts m path (mp.relpath m path)
  | lastResort {mp : Mountpoint} {rest : List Mountpoint} (hnone : findMount mounts m path = none)
      (hmounts : mounts = mp :: rest) (htype : mp.type = .devfs) : ReachesDevfs mounts m path path

/-- Reads and writes of a name go to the last device registered with it, and return -1 in every
other case. -/
structure Dispatches (call : DriverCode) (fuel : ℕ) (s : DevfsTable) (regs : List Registration)
    (name : Word) (text : List Byte) : Prop where
  lookup : ∃ dev, devfsLookup fuel s name = .ok dev ∧ (dev = 0#64 ↔ registered regs text = none) ∧
    ∀ r, registered regs text = some r → NodeAt s.mem dev r
  read : ∀ buffer size, devfsRead call fuel s name buffer size =
    dispatch call s 24#64 (registered regs text) buffer size
  write : ∀ buffer size, devfsWrite call fuel s name buffer size =
    dispatch call s 32#64 (registered regs text) buffer size
  vfsRead : ∀ fuel' mounts tar path buffer size, ReachesDevfs mounts s.mem path name →
    (vfsRead fuel' mounts (files call s tar regs) path buffer size).result =
      onFiles (files call s tar regs) (dispatch call s 24#64 (registered regs text) buffer size)
  vfsWrite : ∀ fuel' mounts tar path buffer size mp i, path ≠ 0#64 →
    findMount mounts s.mem path = some (mp, i) → mp.type = .devfs →
    name = mp.relpath s.mem path →
    vfsWrite fuel' mounts (files call s tar regs) path buffer size =
      onFiles (files call s tar regs) (dispatch call s 32#64 (registered regs text) buffer size)

section Dispatch

variable {call : DriverCode} {s : DevfsTable} {live free : List Block} {devices : List Device}
  {fuel : ℕ} {regs : List Registration} {r : Registration} {name dev buffer op : Word}
  {size : BitVec 32} {text : List Byte} {tar : TarFs}

theorem callOperation_eq (hnode : NodeAt s.mem dev r) :
    callOperation call s op dev buffer size = dispatch call s op (some r) buffer size := by
  unfold callOperation dispatch
  rw [hnode.ops, hnode.data]

theorem registered_eq_none_iff : registered regs text = none ↔ ¬ ∃ r ∈ regs, r.text = text := by
  simp [registered]

/-- A write of a name that is not registered is refused. -/
theorem DevInv.devfsWrite (hinv : DevInv s live free devices) (hfuel : 65536 < fuel)
    (hmap : devices.map Device.registration = regs.reverse) (hname : StringAt s.mem name text) :
    Devfs.devfsWrite call fuel s name buffer size =
      dispatch call s 32#64 (registered regs text) buffer size := by
  unfold Devfs.devfsWrite
  rcases hinv.resolve hfuel hmap hname with ⟨hnone, hlookup⟩ | ⟨r, d, hsome, hlookup, hne, hnode⟩
  · rw [hnone, hlookup]
    rfl
  · rw [hsome, hlookup]
    exact (if_neg hne).trans (callOperation_eq hnode)

/-- A read of a name that is not registered goes to `NULL`. -/
theorem DevInv.devfsRead (hinv : DevInv s live free devices) (hfuel : 65536 < fuel)
    (hmap : devices.map Device.registration = regs.reverse) (hname : StringAt s.mem name text) :
    Devfs.devfsRead call fuel s name buffer size =
      if registered regs text = none then .error (.panic "page fault")
      else dispatch call s 24#64 (registered regs text) buffer size := by
  unfold Devfs.devfsRead
  rcases hinv.resolve hfuel hmap hname with ⟨hnone, hlookup⟩ | ⟨r, d, hsome, hlookup, hne, hnode⟩
  · rw [hnone, hlookup]
    rfl
  · rw [hsome, hlookup]
    exact (if_neg hne).trans (callOperation_eq hnode)

/-- The virtual file system finds what the list in memory has. -/
theorem devfsLookup_files (hnames : ∀ r ∈ regs, ∀ c ∈ r.text, c ≠ 0#8)
    (hname : StringAt s.mem name text) :
    Vfs.devfsLookup (files call s tar regs) name = (registered regs text).map fun r =>
      ⟨r.text, shownOp call s.mem 24#64 r, shownOp call s.mem 32#64 r⟩ := by
  unfold Vfs.devfsLookup registered files
  rw [List.find?_map]
  congr 1
  refine List.find?_congr fun r hr => ?_
  have hiff := kstrcmp_eq_zero_iff hname (hnames r (List.mem_reverse.mp hr))
  exact decide_eq_decide.mpr hiff

theorem devfsRead_files (hnames : ∀ r ∈ regs, ∀ c ∈ r.text, c ≠ 0#8)
    (hname : StringAt s.mem name text) (hsome : registered regs text = some r) :
    Vfs.devfsRead (files call s tar regs) name buffer size =
      onFiles (files call s tar regs) (dispatch call s 24#64 (some r) buffer size) := by
  unfold Vfs.devfsRead dispatch
  rw [devfsLookup_files hnames hname, hsome]
  by_cases hop : r.ops ≠ 0#64 ∧ load64 s.mem (r.ops + 24#64) ≠ 0#64
  · simp only [Option.map_some, shownOp, if_pos hop, files]
    cases call (load64 s.mem (r.ops + 24#64)) r.data buffer size s.toKernelHeap with
    | error fault => rfl
    | ok result => rfl
  · simp only [Option.map_some, shownOp, if_neg hop]
    rfl

theorem devfsWrite_files (hnames : ∀ r ∈ regs, ∀ c ∈ r.text, c ≠ 0#8)
    (hname : StringAt s.mem name text) :
    Vfs.devfsWrite (files call s tar regs) name buffer size =
      onFiles (files call s tar regs)
        (dispatch call s 32#64 (registered regs text) buffer size) := by
  unfold Vfs.devfsWrite dispatch
  rw [devfsLookup_files hnames hname]
  cases registered regs text with
  | none => rfl
  | some r =>
      by_cases hop : r.ops ≠ 0#64 ∧ load64 s.mem (r.ops + 32#64) ≠ 0#64
      · simp only [Option.map_some, shownOp, if_pos hop, files]
        cases call (load64 s.mem (r.ops + 32#64)) r.data buffer size s.toKernelHeap with
        | error fault => rfl
        | ok result => rfl
      · simp only [Option.map_some, shownOp, if_neg hop]
        rfl

/-- Both ways of `vfs_read` to a device end in `devfs_read`. -/
theorem ReachesDevfs.vfsRead {mounts : List Mountpoint} {f : Files} {path : Word} {fuel : ℕ}
    (hreach : ReachesDevfs mounts f.mem path name) :
    (vfsRead fuel mounts f path buffer size).result = Vfs.devfsRead f name buffer size := by
  unfold Vfs.vfsRead
  cases hreach with
  | covered hmount htype =>
      rw [hmount]
      dsimp only
      rw [htype]
      rfl
  | lastResort hnone hmounts htype =>
      rw [hnone]
      dsimp only
      rw [hmounts, searchMounts, htype]
      rfl

/-- Where reads and writes of a name are dispatched, a device with the name is registered. -/
theorem Dispatches.registered_ne_none (hdispatch : Dispatches call fuel s regs name text) :
    registered regs text ≠ none := by
  intro hnone
  obtain ⟨dev, hlookup, hnull, -⟩ := hdispatch.lookup
  have hread := hdispatch.read 0#64 0#32
  unfold Devfs.devfsRead at hread
  rw [hlookup, hnull.mpr hnone, hnone] at hread
  cases hread

/-- A name that is registered is dispatched. -/
theorem DevInv.dispatches (hinv : DevInv s live free devices) (hfuel : 65536 < fuel)
    (hmap : devices.map Device.registration = regs.reverse) (hname : StringAt s.mem name text)
    (htexts : ∀ r ∈ regs, ∀ c ∈ r.text, c ≠ 0#8) (hr : registered regs text = some r) :
    Dispatches call fuel s regs name text := by
  have hsome : registered regs text ≠ none := by simp [hr]
  refine ⟨?_, fun buffer size => ?_, fun buffer size => hinv.devfsWrite hfuel hmap hname,
    fun fuel' mounts tar path buffer size hreach => ?_,
    fun fuel' mounts tar path buffer size mp i hpath hmount htype hrel => ?_⟩
  · rcases hinv.resolve hfuel hmap hname with ⟨hnone, -⟩ | ⟨q, d, hq, hlookup, hne, hnode⟩
    · exact absurd hnone hsome
    · refine ⟨d.ptr, hlookup, iff_of_false hne hsome, fun p hp => ?_⟩
      obtain rfl : q = p := Option.some.inj (hq.symm.trans hp)
      exact hnode
  · rw [hinv.devfsRead hfuel hmap hname, if_neg hsome]
  · rw [ReachesDevfs.vfsRead (f := files call s tar regs) hreach, hr]
    exact devfsRead_files htexts hname hr
  · have hcall : vfsWrite fuel' mounts (files call s tar regs) path buffer size =
        Vfs.devfsWrite (files call s tar regs) (mp.relpath s.mem path) buffer size := by
      have hfound : findMount mounts (files call s tar regs).mem path = some (mp, i) := hmount
      unfold vfsWrite
      rw [if_neg hpath, hfound]
      dsimp only
      rw [htype]
      rfl
    rw [hcall, ← hrel, devfsWrite_files htexts hname]

end Dispatch

/-- After every sequence of registrations, reads and writes of a name are dispatched to the last
device registered with it only if there is one, and exactly then while all names end in front of
`ops`. -/
theorem devfs_dispatches_iff_registered (call : DriverCode) (fuel : ℕ) (hfuel : 65536 < fuel)
    (s s' : DevfsTable) (live free : List Block) (hheap : HeapInv s.toKernelHeap live free)
    (hroot : s.devfsRoot = 0#64) (regs : List Registration)
    (hnames : ∀ r ∈ regs, ClientString live s.mem r.name r.text)
    (hrun : registerAll fuel s regs = .ok s') (name : Word) (text : List Byte)
    (hname : StringAt s'.mem name text) :
    (Dispatches call fuel s' regs name text → ∃ r ∈ regs, r.text = text) ∧
      ((∀ r ∈ regs, r.text.length < 16) →
        (Dispatches call fuel s' regs name text ↔ ∃ r ∈ regs, r.text = text)) := by
  have honly : Dispatches call fuel s' regs name text → ∃ r ∈ regs, r.text = text := by
    intro hdispatch
    by_contra hnone
    exact hdispatch.registered_ne_none (registered_eq_none_iff.mpr hnone)
  refine ⟨honly, fun hfits => ⟨honly, fun hfound => ?_⟩⟩
  have hinv : DevInv s live free [] := ⟨hheap, hroot, List.nodup_nil, by simp, by simp, by simp⟩
  obtain ⟨live', free', devices, hinv', hmap, -⟩ :=
    registerAll_spec hinv hfuel (fun r hr => ⟨hnames r hr, hfits r hr⟩) hrun
  rw [List.map_nil, List.append_nil] at hmap
  obtain ⟨r, hr⟩ := Option.ne_none_iff_exists'.mp fun hnone : registered regs text = none =>
    registered_eq_none_iff.mp hnone hfound
  exact hinv'.dispatches hfuel hmap hname (fun r hr => (hnames r hr).string.ne_zero) hr

/-- An empty heap and no devices, with the strings `x` and `/dev/x` in memory. -/
def noDevices : DevfsTable where
  toKernelHeap := freshHeap
    { oneBlockHeap.toMachine with
      mem := store64 (store64 (fun _ => 0#8) 0x2000#64 0x78#64) 0x3000#64 0x782F7665642F#64 }
  devfsRoot := 0#64

/-- `/dev`. -/
def devMounts : List Mountpoint :=
  [⟨.devfs, [0x2F#8, 0x64#8, 0x65#8, 0x76#8]⟩]

/-- A driver that takes all bytes of its buffer and leaves the kernel as it is. -/
def nullDriver : DriverCode :=
  fun _ _ _ size h => .ok (size, h)

theorem noDevices_registrable :
    Registrable [] noDevices.mem [⟨0x2000#64, [0x78#8], 0x4000#64, 7#64⟩] := by
  refine List.forall_mem_singleton.mpr ⟨⟨by decide +kernel, fun x hx => Or.inr ?_⟩, by decide⟩
  rw [inRange_ofNat (by decide)] at hx
  rw [toNat_kernelHeapStart]
  simp only [List.length_singleton] at hx
  omega

theorem devfs_dispatches_noDevices :
    ∃ s', registerAll 65537 noDevices [⟨0x2000#64, [0x78#8], 0x4000#64, 7#64⟩] = .ok s' ∧
      Dispatches nullDriver 65537 s' [⟨0x2000#64, [0x78#8], 0x4000#64, 7#64⟩] 0x2000#64
        [0x78#8] := by
  have hinv : DevInv noDevices [] [wholeHeap] [] :=
    ⟨freshHeap_inv _, rfl, List.nodup_nil, by simp, by simp, by simp⟩
  have hregs := noDevices_registrable
  obtain ⟨hname, hfits⟩ := hregs _ List.mem_cons_self
  rcases devfsRegister_spec hinv (show 65536 < 65537 by norm_num) _ hname hfits with
    ⟨hnull, -⟩ | ⟨b, free', s', hok, -, -, hsame⟩
  · have hptr : (kmalloc 65537 noDevices.toKernelHeap 40#64).toOption.map (·.1) ≠ some 0#64 := by
      decide +kernel
    rw [hnull] at hptr
    exact absurd rfl hptr
  · have hrun : registerAll 65537 noDevices [⟨0x2000#64, [0x78#8], 0x4000#64, 7#64⟩] = .ok s' := by
      unfold registerAll
      rw [List.foldlM_cons, hok]
      rfl
    obtain ⟨-, hiff⟩ := devfs_dispatches_iff_registered nullDriver 65537 (by norm_num) noDevices s'
      [] [wholeHeap] hinv.heap rfl _ (fun r hr => (hregs r hr).1) hrun 0x2000#64 [0x78#8]
      (hname.congr hsame).string
    exact ⟨s', hrun, (hiff fun r hr => (hregs r hr).2).mpr ⟨_, List.mem_cons_self, rfl⟩⟩

/-- With no device at all, reading `/dev/x` and reading the device `x` itself fault at `NULL`, while
the write is refused. -/
theorem devfs_read_unregistered_faults :
    ¬ Dispatches nullDriver 65537 noDevices [] 0x2000#64 [0x78#8] ∧
      devfsRead nullDriver 65537 noDevices 0x2000#64 0x5000#64 1#32 =
        .error (.panic "page fault") ∧
      (∃ s', devfsWrite nullDriver 65537 noDevices 0x2000#64 0x5000#64 1#32 = .ok (-1#32, s')) ∧
      ∀ tar, (vfsRead 65537 devMounts (files nullDriver noDevices tar []) 0x3000#64 0x5000#64
        1#32).result = .error (.panic "page fault") := by
  have hread : devfsRead nullDriver 65537 noDevices 0x2000#64 0x5000#64 1#32 =
      .error (.panic "page fault") := rfl
  refine ⟨fun hdispatch => ?_, hread, ⟨noDevices, rfl⟩, fun tar => ?_⟩
  · rw [hdispatch.read] at hread
    cases hread
  · have hmount : findMount devMounts noDevices.mem 0x3000#64 =
        some (⟨.devfs, [0x2F#8, 0x64#8, 0x65#8, 0x76#8]⟩, 0) := by decide +kernel
    have hreach : ReachesDevfs devMounts (files nullDriver noDevices tar []).mem 0x3000#64 _ :=
      ReachesDevfs.covered hmount rfl
    rw [hreach.vfsRead]
    rfl

end Osiris.Devfs
