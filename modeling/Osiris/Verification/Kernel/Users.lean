import Osiris.Verification.Kernel.System

/-! # What the users of the heap ask for -/

namespace Osiris.Kernel

open ByteMemory Blocks LinkedList Strings Heap Vfs Devfs Tar Sched Ownership

/-! ## Areas -/

section Areas

variable {h : KernelHeap} {live free : List Block} {b c : Block} {x : Word}

theorem inPayload_of_area (hinv : HeapInv h live free) (hb : b ∈ live) (hx : x ∈ area b) :
    InPayload b x := by
  have hplaced := hinv.placed_live hb
  have hsize := hplaced.size_le
  exact inPayload_of_inRange hplaced (n := b.size - 8) (by omega) hx

theorem client_of_area (hinv : HeapInv h live free) (hb : b ∈ live) (hx : x ∈ area b) :
    Client live x :=
  .inl ⟨b, hb, inPayload_of_area hinv hb hx⟩

theorem area_disjoint (hinv : HeapInv h live free) (hb : b ∈ live) (hc : c ∈ live) (hne : b ≠ c)
    (hx : x ∈ area b) : x ∉ area c := fun hx' =>
  hinv.disjoint_live hb hc hne x.toNat (inPayload_of_area hinv hb hx).contains
    (inPayload_of_area hinv hc hx').contains

theorem not_outside_of_area (hinv : HeapInv h live free) (hb : b ∈ live) (hx : x ∈ area b) :
    ¬ Outside x :=
  not_not.mpr (hinv.contains_window (List.mem_append_right free hb)
    (inPayload_of_area hinv hb hx).contains)

theorem kmalloc_gives {fuel : ℕ} (size : Word) (hinv : HeapInv h live free)
    (hfuel : 65536 < fuel) (hne : size ≠ 0#64) (hsize : size.toNat + 23 < 2 ^ 64) :
    (¬ ∃ a, HeapGap live ⟨a, need size⟩) ∧ kmalloc fuel h size = .ok (0#64, h) ∨
      (∃ a, HeapGap live ⟨a, need size⟩) ∧ ∃ b free' h', b.size = need size ∧
        kmalloc fuel h size = .ok (payload b, h') ∧ HeapInv h' (b :: live) free' ∧
        Touches h h' free := by
  refine (hinv.kmalloc_of_gap hfuel hne hsize).imp_right ?_
  rintro ⟨hroom, g, free', h', -, hok, hinv', ht⟩
  rw [← ofNat_add_eight] at hok
  exact ⟨hroom, ⟨g.start, need size⟩, free', h', rfl, hok, hinv', ht⟩

/-- `kmalloc` answers `NULL` when there is no room, and only then. -/
theorem kmalloc_null_iff {fuel : ℕ} (size : Word) (hinv : HeapInv h live free)
    (hfuel : 65536 < fuel) (hne : size ≠ 0#64) (hsize : size.toNat + 23 < 2 ^ 64) :
    kmalloc fuel h size = .ok (0#64, h) ↔ ¬ ∃ a, HeapGap live ⟨a, need size⟩ := by
  rcases kmalloc_gives size hinv hfuel hne hsize with
    ⟨hfull, hnull⟩ | ⟨hroom, b, free', h', -, hok, hinv', -⟩
  · exact iff_of_true hnull hfull
  · refine iff_of_false (fun hnull => ?_) (not_not.mpr hroom)
    rw [hnull] at hok
    have hptr := (Prod.mk.inj (Except.ok.inj hok)).1
    exact (hinv'.placed_live List.mem_cons_self).payload_ne_zero hptr.symm

end Areas

/-! ## What is represented -/

section Represented

variable {disk : List Member} {t : Session} {o : Owned} {m' : Mem} {x : Word} {i : User}
  {b : Block} {text : List Byte} {p : Word}

theorem OnDisk.congr {tar : TarFs} {m : Mem} (h : OnDisk tar m disk)
    (hsame : ∀ x, InArchive tar x → m' x = m x) : OnDisk tar m' disk := by
  refine ⟨h.placed, h.count, h.name, h.type, fun i hi => ?_, h.outside⟩
  have hcontents := h.contents i hi
  have hlength : disk[i].contents.length < 2 ^ 64 :=
    hcontents.size ▸ (tar.tarFiles i).size.isLt
  refine ⟨hcontents.size, (field_congr (fun x hx => hsame x ?_) hlength.le).trans hcontents.bytes⟩
  exact ⟨i, by rw [h.count]; exact hi, by rw [hcontents.size]; exact hx⟩

/-- The table is searched as the disk is. -/
theorem OnDisk.find {tar : TarFs} {m : Mem} (h : OnDisk tar m disk) (hs : StringAt m p text) :
    (tar.indexOf m p = none ∧ ∀ f ∈ disk, f.name ≠ text) ∨
      ∃ k, ∃ hk : k < disk.length, tar.indexOf m p = some k ∧
        disk.find? (fun f => f.name = text) = some disk[k] := by
  have hiff : ∀ i (hi : i < disk.length),
      kstrcmp m p (tar.tarFiles i).name = 0 ↔ disk[i].name = text := by
    intro i hi
    rw [h.name i hi]
    exact kstrcmp_eq_zero_iff hs disk[i].name_ne_zero
  cases hindex : tar.indexOf m p with
  | none =>
      unfold TarFs.indexOf at hindex
      rw [List.find?_range_eq_none, h.count] at hindex
      refine .inl ⟨rfl, fun f hf => ?_⟩
      obtain ⟨i, hi, rfl⟩ := List.getElem_of_mem hf
      exact (hiff i hi).not.mp (by simpa using hindex i hi)
  | some k =>
      unfold TarFs.indexOf at hindex
      rw [List.find?_range_eq_some, List.mem_range, h.count] at hindex
      obtain ⟨hfound, hk, hfirst⟩ := hindex
      refine .inr ⟨k, hk, rfl, List.find?_eq_some_iff_getElem.mpr ⟨?_, k, hk, rfl, fun j hj => ?_⟩⟩
      · simpa using (hiff k hk).mp (by simpa using hfound)
      · simpa using (hiff j (by omega)).not.mp (by simpa using hfirst j hj)

theorem Literal.callerString {k : State} {free : List Block} {mounts : List MountNode}
    (h : Literal k.mem p text) (hinv : HeapInv k.toKernelHeap o.live free)
    (hhoused : ∀ n ∈ mounts, Housed o.live n) : CallerString o.live mounts k.mem p text :=
  ⟨h.ne_null, h.string, fun x hx => .inr (h.outside x hx), fun x hx n hn hlink =>
    not_outside_of_area hinv (hhoused n hn).live (mem_area (hhoused n hn).room (inRange_link hlink))
      (h.outside x hx)⟩

theorem Represents.mountInv (h : Represents disk t o) :
    ∃ free, MountInv t.kernel.mountTable o.live free o.mounts := by
  obtain ⟨free, hinv⟩ := h.heap
  obtain ⟨hchain, hnodes⟩ := h.shared.holds .mounts
  exact ⟨free, hinv, hchain, h.shared.nodup .mounts,
    fun n hn => ⟨h.shared.live .mounts n.block (List.mem_map_of_mem hn), (hnodes n hn).1⟩,
    fun n hn => (hnodes n hn).2⟩

theorem Represents.devInv (h : Represents disk t o) :
    ∃ free, DevInv t.kernel.devfsTable o.live free o.devices := by
  obtain ⟨free, hinv⟩ := h.heap
  obtain ⟨hchain, hnodes⟩ := h.shared.holds .devices
  exact ⟨free, hinv, hchain, h.shared.nodup .devices,
    fun d hd => h.shared.live .devices d.block (List.mem_map_of_mem hd),
    fun d hd => (hnodes d hd).1, fun d hd => (hnodes d hd).2⟩

/-- Memory outside the heap has the archive in it. -/
theorem Represents.onDisk (h : Represents disk t o)
    (hsame : ∀ x, Outside x → m' x = t.kernel.mem x) : OnDisk t.kernel.tar m' disk :=
  h.disk.congr fun x hx => hsame x (h.disk.outside x hx)

/-- The blocks that are in use, and all that is not on the heap, are left alone. -/
theorem Represents.spared (h : Represents disk t o)
    (hsame : ∀ x, Client o.live x → m' x = t.kernel.mem x) :
    (∀ b ∈ o.live, ∀ x ∈ area b, m' x = t.kernel.mem x) ∧ OnDisk t.kernel.tar m' disk := by
  obtain ⟨free, hinv⟩ := h.heap
  exact ⟨fun b hb x hx => hsame x (client_of_area hinv hb hx),
    h.onDisk fun x hx => hsame x (.inr hx)⟩

theorem Represents.held_file (h : Represents disk t o) {handle : Word} (hheld : handle ∈ t.held) :
    ∃ before f after, o.files = before ++ f :: after ∧ payload f.block = handle := by
  obtain ⟨f, hf, hptr⟩ := h.held handle hheld
  obtain ⟨before, after, hsplit⟩ := List.append_of_mem hf
  exact ⟨before, f, after, hsplit, hptr⟩

end Represented

/-! ## Calls -/

/-- The call returns, the abstract machine takes the step that it stands for, and outside the heap
nothing is written but the buffer of a read. -/
def Serves (opsAddr : FsType → Word) (fuel : ℕ) (disk : List Member) (t : Session) (o : Owned)
    (call : Call) (req : Request) : Prop :=
  ∃ value k' o', t.kernel.call opsAddr fuel call = .ok (value, k') ∧
    Acts disk o (req, ⟨value, call.delivered k'.mem value⟩) o' ∧
    (∀ x, Outside x → ¬ call.MayWrite x → k'.mem x = t.kernel.mem x) ∧
    Represents disk ⟨k', call.holds t.held value⟩ o'

section Calls

variable (opsAddr : FsType → Word) {fuel : ℕ} {disk : List Member} {t : Session} {o : Owned}

/-! ### The list of mounts -/

section Mounts

variable {device target fsType : Word} {deviceText targetText typeText : List Byte}
  {dev tgt : Option (List Byte)}

theorem Represents.not_link (h : Represents disk t o) {x : Word} (hx : Outside x) :
    ∀ p ∈ o.mounts, ¬ InRange (p.ptr + 200#64) 8 x := by
  obtain ⟨free, hinv⟩ := h.heap
  intro p hp hin
  have hlive := h.shared.live .mounts p.block (List.mem_map_of_mem hp)
  have hroom := ((h.shared.holds .mounts).2 p hp).1
  exact not_outside_of_area hinv hlive (mem_area hroom (inRange_link hin)) hx

/-- The list of mounts is the only user that is concerned. -/
theorem Represents.setMountTable (h : Represents disk t o) {s : MountTable} {live free : List Block}
    {mounts : List MountNode} (hinv : MountInv s live free mounts)
    (hlive : ∀ b ∈ o.live, b ∉ o.mounts.map MountNode.block → b ∈ live)
    (hnew : ∀ n ∈ mounts, n.block ∈ o.live → n ∈ o.mounts)
    (hsame : ∀ x, Client o.live x → Client live x →
      (∀ p ∈ o.mounts, ¬ InRange (p.ptr + 200#64) 8 x) → s.mem x = t.kernel.mem x) :
    Represents disk ⟨t.kernel.setMountTable s, t.held⟩ { o with live, mounts } := by
  obtain ⟨free₀, hinv₀⟩ := h.heap
  have hhoused : ∀ p ∈ o.mounts, p.block ∈ o.live ∧ 216 ≤ p.block.size := fun p hp =>
    ⟨h.shared.live .mounts p.block (List.mem_map_of_mem hp), ((h.shared.holds .mounts).2 p hp).1⟩
  have hlink : ∀ p ∈ o.mounts, ∀ x, InRange (p.ptr + 200#64) 8 x → x ∈ area p.block :=
    fun p hp x hx => mem_area (hhoused p hp).2 (inRange_link hx)
  refine ⟨⟨free, hinv.heap⟩, h.shared.act .mounts ?_ hlive ?_ hinv.nodup ?_ ?_ ?_, ?_, h.held,
    h.procCount, h.slots, h.keyBuffer, h.bufferStart, h.bufferEnd, h.in_order⟩
  · intro j hj
    cases j with
    | mounts => exact absurd rfl hj
    | _ => rfl
  · intro b hb hnot x hx
    refine hsame x (client_of_area hinv₀ hb hx) (client_of_area hinv.heap (hlive b hb hnot) hx)
      fun p hp hin => ?_
    have hne : b ≠ p.block := fun heq => hnot (heq ▸ List.mem_map_of_mem hp)
    exact area_disjoint hinv₀ hb (hhoused p hp).1 hne hx (hlink p hp x hin)
  · intro b hb hold
    obtain ⟨n, hn, rfl⟩ := List.mem_map.mp hb
    exact List.mem_map_of_mem (hnew n hn hold)
  · intro b hb
    obtain ⟨n, hn, rfl⟩ := List.mem_map.mp hb
    exact (hinv.housed n hn).live
  · exact ⟨hinv.chain, fun n hn => ⟨(hinv.housed n hn).room, hinv.nodes n hn⟩⟩
  · exact h.onDisk fun x hx => hsame x (.inr hx) (.inr hx) (h.not_link hx)

theorem Represents.vfsMount (h : Represents disk t o) (hfuel : 65536 < fuel)
    (hdevice : Literal t.kernel.mem device deviceText)
    (htarget : Literal t.kernel.mem target targetText)
    (htype : Literal t.kernel.mem fsType typeText) (hfits : Fits deviceText targetText typeText) :
    Serves opsAddr fuel disk t o (.vfsMount device target fsType)
      (.mount deviceText targetText typeText) := by
  have hneed : need 208#64 = 224 := by decide
  obtain ⟨free, hinv⟩ := h.mountInv
  rcases vfsMount_sized opsAddr hinv hfuel hfits (hdevice.callerString hinv.heap hinv.housed)
    (htarget.callerString hinv.heap hinv.housed) (htype.callerString hinv.heap hinv.housed) with
    ⟨hfull, hok⟩ | ⟨hroom, b, free', s', hsize, hok, hinv', hframe⟩
  · refine ⟨0#64, t.kernel, o, ?_, .mountRefused ?_, fun _ _ _ => rfl, h⟩
    · rw [State.call, hok]
      rfl
    · unfold Owned.HasRoom
      rwa [hneed]
  · have hnew : b ∉ o.live := hinv'.heap.not_mem_rest
    have hb : o.Gives 208#64 b :=
      ⟨by unfold Owned.HasRoom; rwa [hneed], hnew, hsize.trans hneed.symm⟩
    refine ⟨0#64, t.kernel.setMountTable s', _, ?_, .mount hb,
      fun x hx _ => hframe x (.inr hx) (h.not_link hx),
      h.setMountTable hinv' (fun c hc _ => List.mem_cons_of_mem b hc) (fun n hn hold => ?_)
        (fun x hx _ => hframe x hx)⟩
    · rw [State.call, hok]
      rfl
    · split at hn
      · rcases List.mem_append.mp hn with hn | hn
        · exact hn
        · rw [List.mem_singleton.mp hn] at hold
          exact absurd hold hnew
      · exact hn

theorem Represents.vfsUmount (h : Represents disk t o) (hfuel : 65536 < fuel)
    (hdev : Argument t.kernel.mem device dev) (htgt : Argument t.kernel.mem target tgt) :
    Serves opsAddr fuel disk t o (.vfsUmount device target) (.umount dev tgt) := by
  obtain ⟨free, hinv⟩ := h.mountInv
  rcases vfsUmount_spec hinv hfuel hdev htgt with
    ⟨hnone, hok⟩ | ⟨before, n, after, s', hmounts, hmatch, hfirst, hok, hinv', hframe⟩
  · refine ⟨0#64, t.kernel, o, ?_, .umountNone hnone, fun _ _ _ => rfl, h⟩
    rw [State.call, hok]
    rfl
  · have hin : ∀ p ∈ before ++ after, p ∈ o.mounts := fun p hp => by
      rw [hmounts]
      exact List.mem_append.mpr ((List.mem_append.mp hp).imp_right (List.mem_cons_of_mem n))
    refine ⟨0#64, t.kernel.setMountTable s', _, ?_, .umount hmounts hmatch hfirst,
      fun x hx _ => hframe x (.inr hx) fun p hp => h.not_link hx p (hin p hp),
      h.setMountTable hinv' (fun b hb hnot => ?_) (fun p hp _ => hin p hp)
        (fun x _ hx hlinks => hframe x hx fun p hp => hlinks p (hin p hp))⟩
    · rw [State.call, hok]
      rfl
    · have hn : n.block ∈ o.mounts.map MountNode.block :=
        List.mem_map_of_mem (by rw [hmounts]; simp)
      have hne : b ≠ n.block := fun heq => hnot (heq ▸ hn)
      exact (List.mem_erase_of_ne hne).mpr hb

end Mounts

/-! ### The list of devices -/

/-- Without room for a node the kernel stops. -/
theorem Represents.devfsRegister (h : Represents disk t o) (hfuel : 65536 < fuel)
    {r : Registration} (hname : Literal t.kernel.mem r.name r.text) (hfits : r.text.length < 16) :
    Serves opsAddr fuel disk t o (.devfsRegister r.name r.ops r.data) (.register r) ∨
      ¬ o.HasRoom 40#64 ∧ t.kernel.call opsAddr fuel (.devfsRegister r.name r.ops r.data) =
        .error (.panic "devfs: failed to allocate node") := by
  obtain ⟨free, hinv⟩ := h.devInv
  have hiff := kmalloc_null_iff 40#64 hinv.heap hfuel (by decide) (by decide)
  have hclient : ClientString o.live t.kernel.mem r.name r.text :=
    ⟨hname.string, fun x hx => .inr (hname.outside x hx)⟩
  by_cases hroom : o.HasRoom 40#64
  · left
    rcases devfsRegister_sized hinv hfuel r hclient hfits with
      ⟨hnull, -⟩ | ⟨b, free', s', hsize, hok, hinv', -, hframe⟩
    · exact absurd hroom (hiff.mp hnull)
    · have hnew : b ∉ o.live := hinv'.heap.not_mem_rest
      obtain ⟨hsame, hdisk⟩ := h.spared hframe
      refine ⟨0#64, t.kernel.setDevfsTable s', _, ?_, .register ⟨hroom, hnew, hsize⟩,
        fun x hx _ => hframe x (.inr hx), ⟨free', hinv'.heap⟩,
        h.shared.act .devices ?_ (fun c hc _ => List.mem_cons_of_mem b hc)
          (fun c hc _ => hsame c hc) hinv'.nodup ?_ ?_ ?_, hdisk, h.held, h.procCount, h.slots,
        h.keyBuffer, h.bufferStart, h.bufferEnd, h.in_order⟩
      · rw [State.call, hok]
        rfl
      · intro j hj
        cases j with
        | devices => exact absurd rfl hj
        | _ => rfl
      · exact List.forall_mem_cons.mpr ⟨fun hb => absurd hb hnew, fun c hc _ => hc⟩
      · intro c hc
        obtain ⟨d, hd, rfl⟩ := List.mem_map.mp hc
        exact hinv'.live d hd
      · exact ⟨hinv'.chain, fun d hd => ⟨hinv'.room d hd, hinv'.nodes d hd⟩⟩
  · refine .inr ⟨hroom, ?_⟩
    rw [State.call]
    unfold Devfs.devfsRegister
    rw [hiff.mpr hroom]
    rfl

theorem Represents.devfsLookup (h : Represents disk t o) (hfuel : 65536 < fuel) {name : Word}
    {text : List Byte} (hname : StringAt t.kernel.mem name text) :
    Serves opsAddr fuel disk t o (.devfsLookup name) (.lookup text) := by
  obtain ⟨free, hinv⟩ := h.devInv
  refine ⟨_, t.kernel, o, ?_, .lookup, fun _ _ _ => rfl, h⟩
  rw [State.call, hinv.devfsLookup hfuel hname]
  rfl

/-! ### Open files -/

section Files

variable {handle path buf : Word} {name : List Byte} {bufsize : BitVec 32}

theorem OnDisk.le (hdisk : OnDisk t.kernel.tar t.kernel.mem disk) : disk.length ≤ maxTarFiles :=
  hdisk.count ▸ hdisk.placed.count_le

/-- The open files are the only user that is concerned. -/
theorem Represents.setFiles (h : Represents disk t o) {heap : KernelHeap} {live free : List Block}
    {files : List OpenFile} {held : List Word} (hinv : HeapInv heap live free)
    (hlive : ∀ b ∈ o.live, b ∉ o.files.map OpenFile.block → b ∈ live)
    (hsame : ∀ b ∈ o.live, b ∉ o.files.map OpenFile.block →
      ∀ x ∈ area b, heap.mem x = t.kernel.mem x)
    (hdisk : OnDisk t.kernel.tar heap.mem disk) (hnodup : (files.map OpenFile.block).Nodup)
    (hnew : ∀ f ∈ files, f.block ∈ o.live → f.block ∈ o.files.map OpenFile.block)
    (hlive' : ∀ f ∈ files, f.block ∈ live)
    (hholds : ∀ f ∈ files, HandleAt disk t.kernel.tar heap.mem f)
    (hheld : ∀ p ∈ held, ∃ f ∈ files, payload f.block = p) :
    Represents disk ⟨t.kernel.setHeap heap, held⟩ { o with live, files } := by
  refine ⟨⟨free, hinv⟩, h.shared.act .files ?_ hlive hsame hnodup ?_ ?_ hholds, hdisk, hheld,
    h.procCount, h.slots, h.keyBuffer, h.bufferStart, h.bufferEnd, h.in_order⟩
  · intro j hj
    cases j with
    | files => exact absurd rfl hj
    | _ => rfl
  · intro b hb hold
    obtain ⟨f, hf, rfl⟩ := List.mem_map.mp hb
    exact hnew f hf hold
  · intro b hb
    obtain ⟨f, hf, rfl⟩ := List.mem_map.mp hb
    exact hlive' f hf

theorem Represents.tarfsOpen (h : Represents disk t o) (hfuel : 65536 < fuel)
    (hpath : StringAt t.kernel.mem path name) :
    Serves opsAddr fuel disk t o (.tarfsOpen path) (.openFile name) := by
  obtain ⟨free, hinv⟩ := h.heap
  have hiff := kmalloc_null_iff 16#64 hinv hfuel (by decide) (by decide)
  have hnull : Tar.tarfsOpen fuel t.kernel.tar t.kernel.toKernelHeap path =
      .ok (0#64, t.kernel.toKernelHeap) → Acts disk o (.openFile name, .null) o →
      Serves opsAddr fuel disk t o (.tarfsOpen path) (.openFile name) := by
    intro hok hacts
    refine ⟨0#64, t.kernel, o, ?_, hacts, fun _ _ _ => rfl, ?_⟩
    · rw [State.call, hok]
      rfl
    · unfold Call.holds
      rw [if_pos rfl]
      exact h
  rcases h.disk.find hpath with ⟨hindex, hnone⟩ | ⟨k, hk, hindex, hfind⟩
  · refine hnull ?_ (.openMissing hnone)
    unfold Tar.tarfsOpen
    rw [hindex]
  · by_cases hdir : disk[k].typeflag = 0x35#8
    · refine hnull ?_ (.openDirectory hfind hdir)
      unfold Tar.tarfsOpen
      rw [hindex]
      dsimp only
      rw [(h.disk.type k hk).mpr hdir, if_pos (by decide)]
    · have htype : (t.kernel.tar.tarFiles k).type = .tarFile := by
        cases hkind : (t.kernel.tar.tarFiles k).type with
        | tarFile => rfl
        | tarDir => exact absurd ((h.disk.type k hk).mp hkind) hdir
      by_cases hroom : o.HasRoom 16#64
      · rcases tarfsOpen_sized hinv hfuel hindex htype with
          ⟨hfull, -⟩ | ⟨b, free', h', hexact, hok, hinv', hsize, hhandle, hframe⟩
        · exact absurd hroom (hiff.mp hfull)
        · have hnew : b ∉ o.live := hinv'.not_mem_rest
          have hb := (hinv'.placed_live List.mem_cons_self).payload_ne_zero
          obtain ⟨hsame, hdisk⟩ := h.spared hframe
          have hblock : ∀ f ∈ o.files, f.block ∈ o.live := fun f hf =>
            h.shared.live .files f.block (List.mem_map_of_mem hf)
          refine ⟨payload b, t.kernel.setHeap h', _, ?_, .openFile hfind hdir ⟨hroom, hnew, hexact⟩,
            fun x hx _ => hframe x (.inr hx),
            h.setFiles hinv' (fun c hc _ => List.mem_cons_of_mem b hc) (fun c hc _ => hsame c hc)
              hdisk ?_ ?_ ?_ ?_ ?_⟩
          · rw [State.call, hok]
            rfl
          · refine List.nodup_cons.mpr ⟨fun hmem => ?_, h.shared.nodup .files⟩
            exact hnew (h.shared.live .files b hmem)
          · exact List.forall_mem_cons.mpr ⟨fun hold => absurd hold hnew,
              fun f hf _ => List.mem_map_of_mem hf⟩
          · exact List.forall_mem_cons.mpr ⟨List.mem_cons_self,
              fun f hf => List.mem_cons_of_mem b (hblock f hf)⟩
          · exact List.forall_mem_cons.mpr ⟨⟨hsize, Nat.zero_le _, k, hk, rfl, hhandle⟩,
              fun f hf => (h.shared.holds .files f hf).congr (hsame f.block (hblock f hf))⟩
          · intro p hp
            unfold Call.holds at hp
            rw [if_neg hb] at hp
            rcases List.mem_cons.mp hp with rfl | hp
            · exact ⟨_, List.mem_cons_self, rfl⟩
            · obtain ⟨f, hf, hptr⟩ := h.held p hp
              exact ⟨f, List.mem_cons_of_mem _ hf, hptr⟩
      · refine hnull ?_ (.openRefused hfind hroom)
        unfold Tar.tarfsOpen
        rw [hindex]
        dsimp only
        rw [htype, if_neg (not_not.mpr rfl), hiff.mpr hroom]
        rfl

/-- A read on an open file delivers what comes next. -/
theorem HandleAt.read {f : OpenFile} {m : Mem} {tar : TarFs} {free : List Block} {heap : KernelHeap}
    (hat : HandleAt disk tar m f) (hdisk : OnDisk tar m disk) (hinv : HeapInv heap o.live free)
    (hlive : f.block ∈ o.live) (hsize : bufsize.toNat < 2 ^ 31)
    (hbuf : ∀ x, InRange buf bufsize.toNat x → Outside x ∧ ¬ InArchive tar x) :
    ∃ n m', Tar.tarfsRead tar m (payload f.block) buf bufsize = (BitVec.ofNat 32 n, m') ∧
      n < 2 ^ 31 ∧ (f.next bufsize.toNat).length = n ∧ field m' buf n = f.next bufsize.toNat ∧
      HandleAt disk tar m' (f.advance bufsize.toNat) ∧
      ∀ x, ¬ InRange buf bufsize.toNat x → x ∉ area f.block → m' x = m x := by
  have hroom := hat.room
  have hbound := hat.offset_le
  obtain ⟨k, hk, hfile, hhandle⟩ := hat.handle
  have hcontents := hdisk.contents k hk
  rw [hfile] at hcontents
  have hwide := (tar.tarFiles k).size.isLt
  rw [hcontents.size] at hwide
  have harchive : ∀ x, InRange (tar.tarFiles k).addr f.file.contents.length x → InArchive tar x :=
    fun x hx => ⟨k, by rw [hdisk.count]; exact hk, by rw [hcontents.size]; exact hx⟩
  have hwords : ∀ x, InRange (payload f.block) 16 x → x ∈ area f.block := fun x hx =>
    mem_area (by omega) hx
  have hin : ∀ x, Outside x → x ∉ area f.block := fun x hx harea =>
    not_outside_of_area hinv hlive harea hx
  have hint : 0 ≤ bufsize.toInt := by
    rw [BitVec.toInt_eq_toNat_of_lt (by omega)]
    exact Int.natCast_nonneg _
  have hlt : k < maxTarFiles := by
    have hle := hdisk.placed.count_le
    rw [hdisk.count] at hle
    exact hk.trans_le hle
  obtain ⟨n, m', hread, hn, hdelivers, hhandle', -⟩ := tarfsRead_delivers
    hdisk.placed hlt (hinv.placed_live hlive).payload_ne_zero hhandle hbound
    hcontents hint (fun x hx hx' => hin x (hdisk.outside x (harchive x hx)) (hwords x hx'))
    (fun x hx hx' => (hbuf x hx').2 (harchive x hx))
    (fun x hx hx' => hin x (hbuf x hx).1 (hwords x hx'))
  have hreturned : (BitVec.ofNat 32 n).toNat = n := by
    rw [BitVec.toNat_ofNat]
    omega
  have hnext : f.next bufsize.toNat = (f.file.contents.drop f.offset).take n := by
    unfold OpenFile.next
    rw [hn, ← List.length_drop, List.take_eq_take_min]
  have hlength : (f.next bufsize.toNat).length = n := by
    rw [hnext, List.length_take, List.length_drop]
    omega
  have hoffset : offsetIn m (payload f.block) = f.offset := by
    rw [offsetIn, hhandle.offset, BitVec.toNat_ofNat, Nat.mod_eq_of_lt (by omega)]
  refine ⟨n, m', hread, by omega, hlength, ?_, ⟨hroom, ?_, k, hk, hfile, ?_⟩, fun x hx hx' => ?_⟩
  · have hdelivered := hdelivers.delivered
    unfold ReadCall.delivered at hdelivered
    dsimp only at hdelivered
    rwa [hreturned, hoffset, ← hnext] at hdelivered
  · change f.offset + (f.next bufsize.toNat).length ≤ f.file.contents.length
    omega
  · change IsHandle _ _ _ _ (BitVec.ofNat 64 (f.offset + (f.next bufsize.toNat).length))
    rw [hlength]
    exact hhandle'
  · refine hdelivers.rest x (fun hcopied => hx ?_) fun hin => hx' (hwords x (inRange_next hin))
    dsimp only at hcopied
    rw [hreturned] at hcopied
    exact inRange_mono hcopied (by omega)

/-- The other files are in other blocks. -/
theorem mem_advance {before after : List OpenFile} {f g : OpenFile} {size : ℕ}
    (hnodup : ((before ++ f :: after).map OpenFile.block).Nodup)
    (hg : g ∈ before ++ f.advance size :: after) :
    g = f.advance size ∨ g ∈ before ++ f :: after ∧ g.block ≠ f.block := by
  rw [List.map_append, List.map_cons, List.nodup_middle, List.nodup_cons, ← List.map_append]
    at hnodup
  have hcases : g = f.advance size ∨ g ∈ before ++ after := by
    rcases List.mem_append.mp hg with hg | hg
    · exact .inr (List.mem_append_left after hg)
    · exact (List.mem_cons.mp hg).imp_right (List.mem_append_right before)
  refine hcases.imp_right fun hg => ⟨?_, fun heq => hnodup.1 (heq ▸ List.mem_map_of_mem hg)⟩
  exact List.mem_append.mpr ((List.mem_append.mp hg).imp_right (List.mem_cons_of_mem f))

theorem Represents.tarfsRead (h : Represents disk t o) (hheld : handle ∈ t.held)
    (hsize : bufsize.toNat < 2 ^ 31)
    (hbuf : ∀ x, InRange buf bufsize.toNat x → Outside x ∧ ¬ InArchive t.kernel.tar x) :
    Serves opsAddr fuel disk t o (.tarfsRead handle buf bufsize) (.read handle bufsize.toNat) := by
  obtain ⟨free, hinv⟩ := h.heap
  obtain ⟨before, f, after, hfiles, rfl⟩ := h.held_file hheld
  have hf : f ∈ o.files := by
    rw [hfiles]
    simp
  have hnodup : (o.files.map OpenFile.block).Nodup := h.shared.nodup .files
  have hlive : ∀ g ∈ o.files, g.block ∈ o.live := fun g hg =>
    h.shared.live .files g.block (List.mem_map_of_mem hg)
  have hat : HandleAt disk t.kernel.tar t.kernel.mem f := h.shared.holds .files f hf
  obtain ⟨n, m', hread, hlt, hlength, hbytes, hat', hrest⟩ :=
    hat.read h.disk hinv (hlive f hf) hsize hbuf
  have hother : ∀ b ∈ o.live, b ≠ f.block → ∀ x ∈ area b, m' x = t.kernel.mem x :=
    fun b hb hne x hx => hrest x (fun hin => not_outside_of_area hinv hb hx (hbuf x hin).1)
      (area_disjoint hinv hb (hlive f hf) hne hx)
  have hblocks : (before ++ f.advance bufsize.toNat :: after).map OpenFile.block =
      o.files.map OpenFile.block := by
    rw [hfiles, List.map_append, List.map_append, List.map_cons, List.map_cons]
    rfl
  have hmem : ∀ g ∈ before ++ f.advance bufsize.toNat :: after,
      g = f.advance bufsize.toNat ∨ g ∈ o.files ∧ g.block ≠ f.block := by
    rw [hfiles] at hnodup ⊢
    exact fun g hg => mem_advance hnodup hg
  have hacts : Acts disk o (.read (payload f.block) bufsize.toNat, _) _ := .read hfiles
  rw [hlength] at hacts
  have hheap : HeapInv { t.kernel.toKernelHeap with mem := m' } o.live free :=
    hinv.write fun x hx => hrest x (fun hin => hx (.inr (hbuf x hin).1))
      fun harea => hx (client_of_area hinv (hlive f hf) harea)
  refine ⟨BitVec.ofNat 64 n, t.kernel.setHeap { t.kernel.toKernelHeap with mem := m' },
    { o with files := before ++ f.advance bufsize.toNat :: after }, ?_, ?_,
    fun x hx hnot => hrest x hnot fun harea => not_outside_of_area hinv (hlive f hf) harea hx,
    h.setFiles hheap (fun b hb _ => hb) (fun b hb hnot => ?_) ?_ ?_ (fun g hg _ => ?_)
      (fun g hg => ?_) (fun g hg => ?_) fun p hp => ?_⟩
  · rw [State.call, hread]
    dsimp only
    rw [signExtend_ofNat hlt]
    rfl
  · have hvalue : (BitVec.ofNat 64 n).toNat = n := by
      rw [BitVec.toNat_ofNat]
      omega
    rw [Call.delivered, hvalue]
    change Acts disk o (_, ⟨_, field m' buf n⟩) _
    rw [hbytes]
    exact hacts
  · exact hother b hb fun heq => hnot (heq ▸ List.mem_map_of_mem hf)
  · exact h.disk.congr fun x hx => hrest x (fun hin => (hbuf x hin).2 hx)
      fun harea => not_outside_of_area hinv (hlive f hf) harea (h.disk.outside x hx)
  · rw [hblocks]
    exact hnodup
  · rw [← hblocks]
    exact List.mem_map_of_mem hg
  · rcases hmem g hg with rfl | ⟨hold, -⟩
    · exact hlive f hf
    · exact hlive g hold
  · rcases hmem g hg with rfl | ⟨hold, hne⟩
    · exact hat'
    · exact (h.shared.holds .files g hold).congr (hother g.block (hlive g hold) hne)
  · obtain ⟨g, hg, hptr⟩ := h.held p hp
    rw [hfiles] at hg
    rcases List.mem_append.mp hg with hg | hg
    · exact ⟨g, List.mem_append_left _ hg, hptr⟩
    · rcases List.mem_cons.mp hg with rfl | hg
      · exact ⟨g.advance bufsize.toNat, by simp, hptr⟩
      · exact ⟨g, by simp [hg], hptr⟩

theorem Represents.tarfsClose (h : Represents disk t o) (hfuel : 65536 < fuel)
    (hheld : handle ∈ t.held) :
    Serves opsAddr fuel disk t o (.tarfsClose handle) (.close handle) := by
  obtain ⟨free, hinv⟩ := h.heap
  obtain ⟨before, f, after, hfiles, rfl⟩ := h.held_file hheld
  have hnodup : (o.files.map OpenFile.block).Nodup := h.shared.nodup .files
  rw [hfiles, List.map_append, List.map_cons, List.nodup_middle, List.nodup_cons, ← List.map_append]
    at hnodup
  have hf : f ∈ o.files := by
    rw [hfiles]
    simp
  have hmem : ∀ g ∈ before ++ after, g ∈ o.files ∧ g.block ≠ f.block := fun g hg => by
    refine ⟨?_, fun heq => hnodup.1 (heq ▸ List.mem_map_of_mem hg)⟩
    rw [hfiles]
    exact List.mem_append.mpr ((List.mem_append.mp hg).imp_right (List.mem_cons_of_mem f))
  have hlive : ∀ g ∈ o.files, g.block ∈ o.live := fun g hg =>
    h.shared.live .files g.block (List.mem_map_of_mem hg)
  have hperm := List.perm_cons_erase (hlive f hf)
  have hkept : ∀ b ∈ o.live, b ≠ f.block → b ∈ o.live.erase f.block := fun b hb hne =>
    (List.mem_erase_of_ne hne).mpr hb
  obtain ⟨heap, hok, hinv', hsame⟩ := tarfsClose_spec (hinv.perm hperm) hfuel
  have hother : ∀ b ∈ o.live, b ≠ f.block → ∀ x ∈ area b, heap.mem x = t.kernel.mem x :=
    fun b hb hne x hx => hsame x (client_of_area hinv' (hkept b hb hne) hx)
  refine ⟨0#64, t.kernel.setHeap heap, _, ?_, .close hfiles,
    fun x hx _ => hsame x (.inr hx),
    h.setFiles hinv' (fun b hb hnot => ?_) (fun b hb hnot => ?_) ?_ hnodup.2
      (fun g hg _ => List.mem_map_of_mem (hmem g hg).1) (fun g hg => ?_) (fun g hg => ?_)
      fun p hp => ?_⟩
  · rw [State.call, hok]
    rfl
  · exact hkept b hb fun heq => hnot (heq ▸ List.mem_map_of_mem hf)
  · exact hother b hb fun heq => hnot (heq ▸ List.mem_map_of_mem hf)
  · exact h.onDisk fun x hx => hsame x (.inr hx)
  · exact hkept g.block (hlive g (hmem g hg).1) (hmem g hg).2
  · obtain ⟨hold, hne⟩ := hmem g hg
    exact (h.shared.holds .files g hold).congr (hother g.block (hlive g hold) hne)
  · obtain ⟨hp, hne⟩ := List.mem_filter.mp hp
    obtain ⟨g, hg, rfl⟩ := h.held p hp
    rw [hfiles] at hg
    refine ⟨g, ?_, rfl⟩
    rcases List.mem_append.mp hg with hg | hg
    · exact List.mem_append_left after hg
    · rcases List.mem_cons.mp hg with rfl | hg
      · simp at hne
      · exact List.mem_append_right before hg

end Files

/-! ### Processes -/

/-- A process with a stack of its own comes into the slot after the last. -/
theorem Represents.setScheduler (h : Represents disk t o) {s : Scheduler} {b : Block}
    {free : List Block} {entryPoint : Word} (hinv : HeapInv s.toKernelHeap (b :: o.live) free)
    (hroom : 4104 ≤ b.size) (hsame : ∀ x, Client o.live x → s.mem x = t.kernel.mem x)
    (hwords : Words s.mem (payload b + stackSize - 128#64)
      (Swtch.frame (fun _ => 0#64) entryPoint))
    (htable : s.procTable = Function.update t.kernel.procTable t.kernel.procCount
      (newProc t.kernel.procCount (payload b)))
    (hcount : s.procCount = t.kernel.procCount + 1) :
    Represents disk ⟨t.kernel.setScheduler s, t.held⟩
      { o with live := b :: o.live, procs := o.procs ++ [⟨b, entryPoint⟩] } := by
  have hnew : b ∉ o.live := hinv.not_mem_rest
  obtain ⟨hkept, hdisk⟩ := h.spared hsame
  have hblocks : (o.procs ++ [NewProc.mk b entryPoint]).map NewProc.block =
      o.procs.map NewProc.block ++ [b] := List.map_append
  refine ⟨⟨free, hinv⟩, h.shared.act .procs ?_ (fun c hc _ => List.mem_cons_of_mem b hc)
    (fun c hc _ => hkept c hc) ?_ ?_ ?_ ?_, hdisk, h.held, ?_, fun i hi => ?_, h.keyBuffer,
    h.bufferStart, h.bufferEnd, h.in_order⟩
  · intro j hj
    cases j with
    | procs => exact absurd rfl hj
    | _ => rfl
  · change ((o.procs ++ [NewProc.mk b entryPoint]).map NewProc.block).Nodup
    rw [hblocks]
    refine List.nodup_append.mpr ⟨h.shared.nodup .procs, List.nodup_singleton b, ?_⟩
    intro c hc d hd heq
    rw [heq, List.mem_singleton.mp hd] at hc
    exact hnew (h.shared.live .procs b hc)
  · intro c hc hold
    change c ∈ (o.procs ++ [NewProc.mk b entryPoint]).map NewProc.block at hc
    rw [hblocks] at hc
    rcases List.mem_append.mp hc with hc | hc
    · exact hc
    · rw [List.mem_singleton.mp hc] at hold
      exact absurd hold hnew
  · intro c hc
    change c ∈ (o.procs ++ [NewProc.mk b entryPoint]).map NewProc.block at hc
    rw [hblocks] at hc
    rcases List.mem_append.mp hc with hc | hc
    · exact List.mem_cons_of_mem b (h.shared.live .procs c hc)
    · rw [List.mem_singleton.mp hc]
      exact List.mem_cons_self
  · have hold := (procOwner o.procs).stable (fun c hc => hkept c (h.shared.live .procs c hc))
      (h.shared.holds .procs)
    intro p hp
    rcases List.mem_append.mp hp with hp | hp
    · exact hold p hp
    · rw [List.mem_singleton.mp hp]
      exact ⟨hroom, hwords⟩
  · change s.procCount = (o.procs ++ [NewProc.mk b entryPoint]).length + 1
    rw [hcount, h.procCount, List.length_append]
    rfl
  · change s.procTable (i + 1) = _
    dsimp only at hi ⊢
    rw [List.length_append, List.length_singleton] at hi
    rw [htable, h.procCount]
    by_cases hlast : i = o.procs.length
    · subst hlast
      rw [Function.update_self, List.getElem_concat_length rfl]
    · have hold : i < o.procs.length := by omega
      rw [Function.update_of_ne (by omega), h.slots i hold, List.getElem_append_left hold]

theorem Represents.procCreate (h : Represents disk t o) (hfuel : 65536 < fuel) {entryPoint : Word}
    (hstack : t.kernel.HasStack fuel) :
    Serves opsAddr fuel disk t o (.procCreate entryPoint) (.create entryPoint) := by
  obtain ⟨free, hinv⟩ := h.heap
  by_cases hfull : maxProc ≤ t.kernel.procCount
  · refine ⟨0#64, t.kernel, o, ?_, .createRefused (h.procCount ▸ hfull), fun _ _ _ => rfl, h⟩
    have hsame : Sched.procCreate fuel t.kernel.scheduler entryPoint = .ok t.kernel.scheduler :=
      if_pos hfull
    rw [State.call, hsame]
    rfl
  obtain ⟨stack, heap, hkmalloc, hne⟩ := hstack.resolve_left hfull
  rcases kmalloc_gives stackSize hinv hfuel (by decide) (by decide) with
    ⟨-, hnull⟩ | ⟨hgap, b, free', heap', hsize, hok, hinv', ht⟩
  · rw [hkmalloc] at hnull
    exact absurd (Prod.mk.inj (Except.ok.inj hnull)).1 hne
  · have hroom : 4104 ≤ b.size := le_trans (by decide) hsize.ge
    have hb : o.Gives stackSize b := ⟨hgap, hinv'.not_mem_rest, hsize⟩
    obtain ⟨s, hcreate, hheap, htable, hcount⟩ : ∃ s, Sched.procCreate fuel t.kernel.scheduler
          entryPoint = .ok s ∧
        s.toKernelHeap = { heap' with
          mem := ((initialFrame entryPoint).foldl push (payload b + stackSize, heap'.mem)).2 } ∧
        s.procTable = Function.update t.kernel.procTable t.kernel.procCount
          (newProc t.kernel.procCount (payload b)) ∧
        s.procCount = t.kernel.procCount + 1 :=
      ⟨_, procCreate_ok (not_le.mp hfull) hok entryPoint, rfl, rfl, rfl⟩
    have hfew : o.procs.length + 1 < maxProc := h.procCount ▸ not_le.mp hfull
    have hsame : ∀ x, Client o.live x → s.mem x = t.kernel.mem x := fun x hx => by
      rw [hheap, ← hinv.client_mem_eq ht hx]
      exact Swtch.initialFrame_of_not_inRange _ _ (hinv'.client_not_inRange hroom hx)
    have hinv'' : HeapInv s.toKernelHeap (b :: o.live) free' := by
      rw [hheap]
      refine hinv'.write fun x hx => Swtch.initialFrame_of_not_inRange _ _ fun hin => hx ?_
      exact client_of_area hinv' List.mem_cons_self (mem_area hroom hin)
    refine ⟨0#64, t.kernel.setScheduler s, _, ?_, .create hfew hb, fun x hx _ => hsame x (.inr hx),
      h.setScheduler hinv'' hroom hsame ?_ htable hcount⟩
    · rw [State.call, hcreate]
      rfl
    · rw [hheap]
      exact Swtch.words_initialFrame _ entryPoint

/-! ### The keyboard -/

theorem Represents.queueInv (h : Represents disk t o) :
    Atkbd.QueueInv ⟨t.kernel.keyboard, o.added, o.returned⟩ := by
  obtain ⟨-, -, hchars⟩ := h.shared.holds .buffer
  refine ⟨h.bufferStart, h.bufferEnd, fun j hj => ?_, h.in_order⟩
  change t.kernel.mem (t.kernel.keyBuffer + BitVec.ofNat 64 j) = o.added[j]
  rw [h.keyBuffer]
  exact hchars j hj

theorem Represents.added_le (h : Represents disk t o) : o.added.length ≤ 4096 :=
  (h.shared.holds .buffer).2.1

theorem Represents.atkbdAddBuffer (h : Represents disk t o) {ch : Byte}
    (hroom : t.kernel.bufferEnd.toNat < 4096) :
    Serves opsAddr fuel disk t o (.atkbdAddBuffer ch) (.addChar ch) := by
  obtain ⟨free, hinv⟩ := h.heap
  have hsize : 4104 ≤ o.buffer.size := (h.shared.holds .buffer).1
  have hlive : o.buffer ∈ o.live := h.shared.live .buffer o.buffer List.mem_cons_self
  have hle := h.added_le
  have hfew : o.added.length < 4096 := by
    rw [h.bufferEnd, BitVec.toNat_ofNat] at hroom
    omega
  have hroom' : o.added.length + 1 < 2 ^ 31 := by omega
  have hqueue := h.queueInv
  have hput := hqueue.put hroom' ch
  have hbase : t.kernel.keyboard.keyBuffer = payload o.buffer := h.keyBuffer
  have hslot : t.kernel.keyboard.slot t.kernel.keyboard.bufferEnd =
      payload o.buffer + BitVec.ofNat 64 o.added.length := by
    rw [Atkbd.Keyboard.slot, hqueue.stop,
      signExtend_ofNat (show o.added.length < 2 ^ 31 by omega)]
    rw [hbase]
  have hin : payload o.buffer + BitVec.ofNat 64 o.added.length ∈ area o.buffer :=
    mem_area hsize (inRange_add (n := 4096) _ hfew (by norm_num))
  obtain ⟨kbd, hok, hkbd⟩ := Loop.bind_eq_ok.mp (hqueue.step_addBuffer hroom' ch)
  have heq := congrArg Atkbd.Session.kbd (Except.ok.inj hkbd)
  dsimp only [Atkbd.Session.put] at heq
  rw [hslot] at heq
  have hsame : ∀ x, x ∉ area o.buffer → kbd.mem x = t.kernel.mem x := fun x hx => by
    rw [heq]
    exact setByte_of_ne _ _ fun hslot' => hx (hslot' ▸ hin)
  have hheap : HeapInv kbd.toKernelHeap o.live free := by
    rw [heq]
    exact hinv.setByte hlive (inPayload_of_area hinv hlive hin) ch
  refine ⟨0#64, t.kernel.setKeyboard kbd, _, ?_, .addChar,
    fun x hx _ => hsame x fun harea => not_outside_of_area hinv hlive harea hx, ⟨free, hheap⟩,
    h.shared.act .buffer ?_ (fun b hb _ => hb) (fun b hb hnot x hx => ?_)
      (List.nodup_singleton _) (fun b hb _ => hb) (fun b hb => ?_) ⟨hsize, ?_, fun j hj => ?_⟩, ?_,
    h.held, h.procCount, h.slots, ?_, ?_, ?_, hput.in_order⟩
  · rw [State.call, hok]
    rfl
  · intro j hj
    cases j with
    | buffer => exact absurd rfl hj
    | _ => rfl
  · have hne : b ≠ o.buffer := fun hb' => hnot (hb' ▸ List.mem_cons_self)
    exact hsame x (area_disjoint hinv hb hlive hne hx)
  · rw [List.mem_singleton.mp hb]
    exact hlive
  · change (o.added ++ [ch]).length ≤ 4096
    rw [List.length_append, List.length_singleton]
    omega
  · have hchar := hput.contents j hj
    dsimp only [Atkbd.Session.put] at hchar
    rw [hslot, hbase] at hchar
    change kbd.mem (payload o.buffer + BitVec.ofNat 64 j) = _
    rw [heq]
    exact hchar
  · exact h.onDisk fun x hx => hsame x fun harea => not_outside_of_area hinv hlive harea hx
  · rw [heq]
    exact h.keyBuffer
  · rw [heq]
    exact h.bufferStart
  · rw [heq]
    exact hput.stop

/-- The character that is next comes out. -/
theorem Represents.atkbdGetChar (h : Represents disk t o)
    (hready : t.kernel.bufferStart ≠ t.kernel.bufferEnd)
    (hfew : t.kernel.bufferStart.toNat + 1 < 4096) :
    Serves opsAddr fuel disk t o .atkbdGetChar .getChar := by
  have hle := h.added_le
  have hqueue := h.queueInv
  have hlength : o.returned.length ≤ o.added.length := hqueue.length_le
  have hroom : o.added.length < 2 ^ 31 := by omega
  have hfew' : o.returned.length + 1 < 4096 := by
    rw [h.bufferStart, BitVec.toNat_ofNat] at hfew
    omega
  have hlt : o.returned.length < o.added.length := by
    refine lt_of_le_of_ne hlength fun heq => hready ?_
    rw [h.bufferStart, h.bufferEnd, heq]
  have htake := hqueue.take hroom hready hfew'
  have hslot : t.kernel.keyboard.mem (t.kernel.keyboard.slot t.kernel.keyboard.bufferStart) =
      o.added[o.returned.length] := by
    rw [Atkbd.Keyboard.slot, hqueue.start,
      signExtend_ofNat (show o.returned.length < 2 ^ 31 by omega)]
    exact hqueue.contents o.returned.length hlt
  have hget : Atkbd.Session.step fuel ⟨t.kernel.keyboard, o.added, o.returned⟩ .getChar = .ok _ :=
    Atkbd.step_getChar hready
  obtain ⟨⟨ch, kbd⟩, hok, hkbd⟩ := Loop.bind_eq_ok.mp hget
  have hstep := Except.ok.inj hkbd
  have hkept := congrArg Atkbd.Session.kbd hstep
  have hreturned := congrArg Atkbd.Session.returned hstep
  dsimp only [Atkbd.Session.take] at hkept hreturned htake
  rw [hslot] at hreturned htake
  obtain rfl : ch = o.added[o.returned.length] := List.singleton_inj.mp
    (List.append_cancel_left hreturned)
  refine ⟨_, t.kernel.setKeyboard kbd, _, ?_, .getChar (List.getElem?_eq_getElem hlt),
    fun x _ _ => ?_, ?_⟩
  · rw [State.call, hok]
    rfl
  · rw [hkept]
    rfl
  · rw [hkept]
    exact ⟨h.heap, h.shared, h.disk, h.held, h.procCount, h.slots, h.keyBuffer, htake.start,
      h.bufferEnd, htake.in_order⟩

/-! ### Other code -/

theorem Represents.execute (h : Represents disk t o) {mem : Mem}
    (hkept : ∀ x, ¬ Outside x ∨ InArchive t.kernel.tar x → mem x = t.kernel.mem x) :
    Serves opsAddr fuel disk t o (.execute mem) .execute := by
  obtain ⟨free, hinv⟩ := h.heap
  refine ⟨0#64, { t.kernel with mem }, o, rfl, .execute, fun _ _ hnot => absurd trivial hnot,
    ⟨free, hinv.write fun x hx => hkept x (.inl fun hout => hx (.inr hout))⟩,
    h.shared.spared h.shared.live fun i b hb x hx => ?_,
    h.disk.congr fun x hx => hkept x (.inr hx), h.held, h.procCount, h.slots, h.keyBuffer,
    h.bufferStart, h.bufferEnd, h.in_order⟩
  exact hkept x (.inl (not_outside_of_area hinv (h.shared.live i b hb) hx))

/-! ### Every call -/

/-- A call does as its abstract machine does. Only `devfs_register` may find no room and stop the
kernel. -/
theorem Represents.serve (h : Represents disk t o) (hfuel : 65536 < fuel) {call : Call}
    {req : Request} (hmeans : Means fuel t call req) :
    Serves opsAddr fuel disk t o call req ∨
      (∃ r, req = .register r) ∧ ¬ o.HasRoom 40#64 ∧ t.kernel.call opsAddr fuel call =
        .error (.panic "devfs: failed to allocate node") := by
  cases hmeans with
  | vfsMount hdevice htarget htype hfits =>
      exact .inl (h.vfsMount opsAddr hfuel hdevice htarget htype hfits)
  | vfsUmount hdev htgt => exact .inl (h.vfsUmount opsAddr hfuel hdev htgt)
  | devfsRegister hname hfits =>
      exact (h.devfsRegister opsAddr hfuel hname hfits).imp_right fun hpanic => ⟨⟨_, rfl⟩, hpanic⟩
  | devfsLookup hname => exact .inl (h.devfsLookup opsAddr hfuel hname)
  | tarfsOpen hpath => exact .inl (h.tarfsOpen opsAddr hfuel hpath)
  | tarfsRead hheld hsize hbuf => exact .inl (h.tarfsRead opsAddr hheld hsize hbuf)
  | tarfsClose hheld => exact .inl (h.tarfsClose opsAddr hfuel hheld)
  | procCreate hstack => exact .inl (h.procCreate opsAddr hfuel hstack)
  | atkbdAddBuffer hroom => exact .inl (h.atkbdAddBuffer opsAddr hroom)
  | atkbdGetChar hready hfew => exact .inl (h.atkbdGetChar opsAddr hready hfew)
  | execute hkept => exact .inl (h.execute opsAddr hkept)

variable {opsAddr}

theorem Represents.step (h : Represents disk t o) (hfuel : 65536 < fuel)
    {label : Request × Response} {t' : Session} (hstep : Step opsAddr fuel t label t') :
    ∃ o', Acts disk o label o' ∧ Represents disk t' o' := by
  obtain ⟨req, response⟩ := label
  obtain ⟨k', held'⟩ := t'
  obtain ⟨call, value, hmeans, hcall, rfl, rfl⟩ := hstep
  rcases h.serve opsAddr hfuel hmeans with
    ⟨value', k'', o', hcall', hacts, -, hrep⟩ | ⟨-, -, hpanic⟩
  · rw [hcall] at hcall'
    obtain ⟨rfl, rfl⟩ := Prod.mk.inj (Except.ok.inj hcall')
    exact ⟨o', hacts, hrep⟩
  · rw [hcall] at hpanic
    cases hpanic

end Calls

end Osiris.Kernel
