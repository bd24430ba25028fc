import Savannah.Fs.Initrd
import Savannah.Pm.Supply

/-!
# Descriptors across exec

The offset of an entry of a descriptor table is the address of a channel for a character device and
a position in the file system for a file.  FS fills in the tables, whatever the sequence of requests
(`entries_of_run`); when the owner executes a program, `ept_pmap` maps the page at the offset of
each entry in use, and does not look at its type.

So the descriptors are mapped as they should be, their page and the pages of the channels, exactly
if no file is open (and the machine has no 1GB pages, with which `ept_pmap` never returns).
-/

namespace Savannah

open Foundation

namespace Fs

/-! ### The tables that FS fills in -/

/-- A free entry, a channel, or a file. -/
def EntryOk (f : FileDescriptor) : Prop :=
  f.offset = 0 ∨ (f.type = typeChar ∧ f.offset % 4096 = 0) ∨ f.type = typeFile

/-- All entries are such, and the headers have the type of a file or no offset. -/
structure FsState.Entries (s : FsState) : Prop where
  entry : ∀ c i, EntryOk (s.fds c i)
  header : ∀ h ∈ s.files, h.type = typeFile ∨ h.offset = 0

section Entries

variable {sender : ℕ} {fd : ℤ}

/-- Reading, and everything else that changes no table. -/
theorem modify_entries {g : FsState → FsState}
    (h : ∀ s, (g s).fds = s.fds ∧ (g s).files = s.files) :
    Within (Preserves FsState.Entries) (modify g : FsM PUnit) :=
  Within.modify fun s hs => by
    obtain ⟨hfds, hfiles⟩ := h s
    exact ⟨by rw [hfds]; exact hs.entry, by rw [hfiles]; exact hs.header⟩

instance : IsWithin (Preserves FsState.Entries) (readFd sender fd) := by
  unfold readFd
  exact ⟨Within.bind (modify_entries fun _ => ⟨rfl, rfl⟩) fun _ => IsWithin.within⟩

instance (m : FsPost) : IsWithin (Preserves FsState.Entries) (send m) :=
  ⟨modify_entries fun _ => ⟨rfl, rfl⟩⟩

instance : IsWithin (Preserves FsState.Entries) (getFds sender) := by
  unfold getFds
  infer_instance

instance (n i : ℕ) : IsWithin (Preserves FsState.Entries) (findFree sender n i) := by
  induction n generalizing i with
  | zero => exact ⟨Within.pure i⟩
  | succ n ih =>
    unfold findFree
    infer_instance

instance (pathname : String) :
    IsWithin (Preserves FsState.Entries) (charDevice pathname sender) := by
  unfold charDevice
  infer_instance

/-- Writing an entry. -/
theorem writeFd_entries {f : FileDescriptor → FileDescriptor}
    (hf : ∀ d, EntryOk d → EntryOk (f d)) :
    Within (Preserves FsState.Entries) (writeFd sender fd f) :=
  Within.modify fun s hs => by
    refine ⟨fun c i => ?_, hs.header⟩
    dsimp only
    split
    · exact hf _ (hs.entry c i)
    · exact hs.entry c i

theorem localOpenChar_entries {pathname : String} {pm : PmAnswer} (hpm : pm.channel % 4096 = 0) :
    Within (Preserves FsState.Entries) (localOpenChar pathname sender pm) := by
  have hwrite : ∀ (fd : ℤ) (dst : ℕ), Within (Preserves FsState.Entries)
      (writeFd sender fd fun _ => ⟨typeChar, 0, dst, pm.channel⟩) :=
    fun fd dst => writeFd_entries fun _ _ => Or.inr (Or.inl ⟨rfl, hpm⟩)
  unfold localOpenChar
  refine Within.ite (Within.pure _) (IsWithin.within.bind fun _ => Within.ite (Within.pure _) ?_)
  refine IsWithin.within.bind fun r => IsWithin.within.bind fun _ => Within.ite (Within.pure _) ?_
  refine Within.bind (modify_entries fun _ => ⟨rfl, rfl⟩) fun _ => ?_
  exact (hwrite _ _).bind fun _ => Within.pure _

/-- `local_open` keeps the entries. -/
theorem localOpen_entries {pathname : String} {flags : ℤ} {pm : PmAnswer}
    (hpm : pm.channel % 4096 = 0) :
    Within (Preserves FsState.Entries) (localOpen pathname flags sender pm) := by
  unfold localOpen
  refine Within.ite (localOpenChar_entries hpm) (IsWithin.within.bind fun _ => ?_)
  refine Within.ite (Within.pure _) (IsWithin.within.bind fun fd => ?_)
  refine Within.ite (Within.pure _) (Within.ite (Within.pure _) fun s => ?_)
  rw [wp_bind, wp_get]
  cases hfind : s.files.find? fun h => h.name = pathname with
  | none => exact id
  | some h =>
    -- the entry gets the type and the offset of the header
    change wp (writeFd sender fd _ >>= _) _ _ s
    refine wp_bind.mpr fun hs => ⟨fun c i => ?_, hs.header⟩
    dsimp only
    split
    · rcases hs.header h (List.mem_of_find?_eq_some hfind) with htype | hoff
      · exact Or.inr (Or.inr htype)
      · exact Or.inl hoff
    · exact hs.entry c i

/-- `local_close` keeps the entries. -/
theorem localClose_entries {pm : PmAnswer} :
    Within (Preserves FsState.Entries) (localClose fd sender pm) := by
  have hclear : Within (Preserves FsState.Entries) (do
      writeFd sender fd fun f => { f with type := 0, length := 0, offset := 0 }
      return (0 : ℤ)) :=
    Within.bind (writeFd_entries fun _ _ => Or.inl rfl) fun _ => Within.pure _
  have hchar : Within (Preserves FsState.Entries) (localCloseChar fd sender pm) := by
    unfold localCloseChar
    refine IsWithin.within.bind fun _ => Within.ite (Within.throw _)
      (Within.ite (Within.throw _) ?_)
    refine Within.bind (modify_entries fun _ => ⟨rfl, rfl⟩) fun _ => ?_
    exact Within.bind (writeFd_entries fun _ _ => Or.inl rfl) fun _ => IsWithin.within
  unfold localClose
  refine Within.ite (Within.pure _) (IsWithin.within.bind fun _ => Within.ite (Within.pure _) ?_)
  exact IsWithin.within.bind fun f => Within.ite (hchar.bind fun _ => hclear) hclear

instance : IsWithin (Preserves FsState.Entries) (getType fd sender) := by
  unfold getType
  infer_instance

instance {count : ℤ} : IsWithin (Preserves FsState.Entries) (localReadChar fd count sender) := by
  unfold localReadChar
  refine ⟨Within.ite (Within.throw _) (Within.ite (Within.throw _) ?_)⟩
  refine IsWithin.within.bind fun _ => Within.ite (Within.pure _) ?_
  exact IsWithin.within.bind fun _ => Within.ite (Within.throw _) IsWithin.within

instance {count : ℤ} : IsWithin (Preserves FsState.Entries) (localReadFile fd count sender) := by
  unfold localReadFile
  infer_instance

instance {count : ℤ} : IsWithin (Preserves FsState.Entries) (localRead fd count sender) := by
  unfold localRead
  infer_instance

/-- A request keeps the entries as they should be; the channels that PM hands out are pages. -/
theorem handle_entries (sender : ℕ) (req : FsRequest) {pm : PmAnswer}
    (hpm : pm.channel % 4096 = 0) :
    Within (Preserves FsState.Entries) (handle sender pm req) := by
  cases req with
  | «open» pathname flags =>
    exact Within.ite IsWithin.within ((localOpen_entries hpm).bind fun _ => IsWithin.within)
  | read fd count =>
    unfold handle
    exact IsWithin.within
  | write fd buf count =>
    unfold handle localWrite
    exact IsWithin.within
  | close fd => exact localClose_entries.bind fun _ => IsWithin.within
  | load path =>
    unfold handle
    refine Within.ite (Within.bind ?_ fun _ => IsWithin.within) IsWithin.within
    unfold localLoad
    refine Within.get.bind fun s => ?_
    split <;> exact Within.pure _

/-- After any sequence of requests. -/
theorem entries_of_run {s₀ s : FsState} {evs : List FsEvent} (hs : s₀.Entries)
    (hrun : Run (guarded fsStep fun _ ev => ev.pm.channel % 4096 = 0) s₀ evs s) : s.Entries :=
  hrun.invariant (fun s ev _ hstep hinv =>
    (handle_entries ev.sender ev.req hstep.1 s).ok hstep.2 hinv) hs

end Entries

/-- The headers that FS finds in an image. -/
theorem header_image {name : List UInt8} {files : List SourceFile} {h : FileHeader}
    (hname : name.length = 32) (hacc : Acceptable files) (hmem : h ∈ headersOf (image name files)) :
    h.type = typeFile ∨ h.offset = 0 := by
  rw [headersOf_image hname hacc.terminated hacc.total] at hmem
  have hmem := List.mem_of_mem_take hmem
  simp only [headerList, List.mem_cons, List.mem_mapIdx] at hmem
  rcases hmem with rfl | rfl | ⟨i, hi, rfl⟩
  · exact Or.inr rfl
  · exact Or.inr rfl
  · exact Or.inl rfl

end Fs

/-! ### Exec -/

open PmState MemoryState

/-- The channels of the entries of character devices. -/
def PmState.charPages (s : PmState) (fds : ℕ) : List ℕ :=
  ((List.range maxFd).filter fun i =>
    (s.fdTable fds i).offset ≠ 0 ∧ (s.fdTable fds i).type = typeChar).map
      fun i => (s.fdTable fds i).offset

/-- `ept_pmap` returns, with nested tables that realize its regions, and the pages that it maps for
the descriptors are the page of the table and the pages of the channels. -/
def MapsDescriptors (c : ℕ) (s : PmState) : Prop :=
  ∃ s' r e, eptPmap c s = .ok () s' ∧
    Realizes .ept s'.words size4KB e ((s.eptRegions c (guestList s'.words r)).map .map) ∧
    s.fdPages (s.cpus c).vm.fds = (s.cpus c).vm.fds :: s.charPages (s.cpus c).vm.fds

section Exec

variable {s : PmState} {c fds : ℕ}

/-- The pages are those of the channels iff every entry in use is one of a character device. -/
theorem fdPages_eq_iff (h0 : fds ≠ 0) : s.fdPages fds = fds :: s.charPages fds ↔
    ∀ i < maxFd, (s.fdTable fds i).offset ≠ 0 → (s.fdTable fds i).type = typeChar := by
  set used := (List.range maxFd).filter fun i => (s.fdTable fds i).offset ≠ 0 with hused
  have hpages : s.fdPages fds = fds :: used.map fun i => (s.fdTable fds i).offset := by
    rw [PmState.fdPages, if_neg h0, List.filter_map]
    rfl
  have hchar : s.charPages fds =
      (used.filter fun i => (s.fdTable fds i).type = typeChar).map
      fun i => (s.fdTable fds i).offset := by
    rw [PmState.charPages, hused, List.filter_filter]
    simp only [Bool.decide_and, Bool.and_comm]
  rw [hpages, hchar, List.cons_inj_right]
  constructor
  · intro heq i hi hoff
    have hlen := congrArg List.length heq
    rw [List.length_map, List.length_map] at hlen
    have hall := List.length_filter_eq_length_iff.mp hlen.symm i
      (List.mem_filter.mpr ⟨List.mem_range.mpr hi, by simpa using hoff⟩)
    simpa using hall
  · intro hall
    rw [List.filter_eq_self.mpr fun i hi => ?_]
    obtain ⟨hi, hoff⟩ := List.mem_filter.mp hi
    simpa using hall i (List.mem_range.mp hi) (by simpa using hoff)

/-- Executing a program keeps the descriptors usable, whatever FS has put into the table of the VM,
iff the machine has no 1GB pages and no file is open.  No allocation of `ept_pmap` fails. -/
theorem mapsDescriptors_iff {pool limit : ℕ} {X S : Multiset (ℕ × ℕ)} {C : Shape}
    {name img : List UInt8} {files : List Fs.SourceFile} {fs₀ fs : Fs.FsState}
    {evs : List Fs.FsEvent} (hname : name.length = 32) (hacc : Fs.Acceptable files)
    (himg : Fs.createInitrd name files = some img) (hfiles : fs₀.files = Fs.headersOf img)
    (hempty : ∀ c i, (fs₀.fds c i).offset = 0)
    (hrun : Run (guarded Fs.fsStep fun _ ev => ev.pm.channel % 4096 = 0) fs₀ evs fs)
    (hready : s.Ready pool limit X S c) (hC : Reaches C limit) (hfds : (s.cpus c).vm.fds ≠ 0)
    (htable : ∀ i < maxFd, s.fdTable (s.cpus c).vm.fds i = fs.fds c i)
    (halloc : ∀ e s', eptPmap c s = .error e s' → e ≠ .panic (.map .allocFailed)) :
    MapsDescriptors c s ↔ s.has1GB = false ∧
      ∀ i < maxFd, (fs.fds c i).type = Fs.typeFile → (fs.fds c i).offset = 0 := by
  obtain rfl := Option.some.inj (himg.symm.trans (Fs.createInitrd_eq hacc))
  have hentries : fs.Entries := Fs.entries_of_run
    ⟨fun c i => Or.inl (hempty c i), fun h hmem => Fs.header_image hname hacc (hfiles ▸ hmem)⟩ hrun
  have hspec := eptPmap_spec (E := fun e s' => e = .panic (.map .allocFailed) ∨ s.Unaligned c)
    hready hC (fun _ _ => Or.inl rfl) fun h _ _ => Or.inr h
  constructor
  · rintro ⟨s', r, e, hok, -, hpages⟩
    obtain ⟨hal, -⟩ := hspec.ok hok
    refine ⟨Bool.eq_false_iff.mpr fun hgb => hal (Or.inl hgb), fun i hi htype => ?_⟩
    by_contra hoff
    have hchar := (fdPages_eq_iff hfds).mp hpages i hi (by rwa [htable i hi])
    rw [htable i hi, htype] at hchar
    exact absurd hchar (by decide)
  · rintro ⟨hgb, hclosed⟩
    -- an entry in use is one of a character device
    have hchar : ∀ i < maxFd, (fs.fds c i).offset ≠ 0 →
        (fs.fds c i).type = typeChar ∧ (fs.fds c i).offset % 4096 = 0 := by
      intro i hi hoff
      rcases hentries.entry c i with h | h | h
      · exact absurd h hoff
      · exact h
      · exact absurd (hclosed i hi h) hoff
    have hal : ¬ s.Unaligned c := by
      rintro (h1 | ⟨p, hp, hne⟩)
      · rw [hgb] at h1
        cases h1
      · rw [PmState.fdPages, if_neg hfds] at hp
        rcases List.mem_cons.mp hp with rfl | hp
        · exact hne (hready.ledger.addr (Multiset.mem_add.mpr (Or.inl (hready.fds hfds)))).2.2.2.1
        · obtain ⟨hmem, h0⟩ := List.mem_filter.mp hp
          obtain ⟨i, hi, rfl⟩ := List.mem_map.mp hmem
          have hi := List.mem_range.mp hi
          rw [htable i hi] at hne h0
          exact hne (hchar i hi (by simpa using h0)).2
    cases hx : eptPmap c s with
    | ok u s' =>
      obtain ⟨-, r, e, hbuilt⟩ := hspec.ok hx
      refine ⟨s', r, e, hx, hbuilt.realizes, (fdPages_eq_iff hfds).mpr fun i hi hoff => ?_⟩
      rw [htable i hi] at hoff ⊢
      exact (hchar i hi hoff).1
    | error e s' =>
      rcases hspec.error hx with h | h
      · exact absurd h (halloc e s' hx)
      · exact absurd h hal

end Exec

/-! ### An example -/

/-- A VM on the CPU 6 without sections, with a page of descriptors. -/
def ownerInfo : CpuInfo where
  cpuid := 6
  hasVm := true
  vm := { (default : VmProc) with fds := 0x801000 }
  msgInput := 0x200000
  msgOutput := 0x201000
  msgReady := 0x202000
  msgReadyBitmap := 0x203000

/-- PM, with the table of the VM in its memory. -/
def ownerPm (m : MemoryState) (table : ℤ → FileDescriptor) : PmState :=
  { PmState.initial m (fun _ => ownerInfo) 7 0x100000 with fdTable := fun _ i => table i }

/-- PM can call `ept_pmap` for the VM, and has the memory for it. -/
theorem ownerPm_ready : ∃ m : MemoryState, ∀ table : ℤ → FileDescriptor,
    (∀ i : ℕ, i < maxFd → (table i).offset + 4096 ≤ 2 ^ 48) →
    (ownerPm m table).Ready 260095 (2 ^ 48) {(0x801000, 1)} 0 6 ∧
    ∀ e s', eptPmap 6 (ownerPm m table) = .error e s' → e ≠ .panic (.map .allocFailed) := by
  obtain ⟨m₀, -, hff, hopen, hled⟩ := memoryInit_1GB
  obtain ⟨m, hm, -, hlay, hopen'⟩ := hopen.alloc Nat.one_pos (by norm_num)
  have hpage : m₀.pageAddr 0 = 0x801000 := by rw [pageAddr, hff]
  rw [hpage] at hm
  have hled' : Ledger m 260095 {(0x801000, 1)} 0 := by
    rcases hled.alloc Nat.one_pos with hfail | ⟨a, m', hm', -, -, hled', -⟩
    · rw [hm] at hfail
      cases hfail
    · rw [hm] at hm'
      cases hm'
      exact hled'
  refine ⟨m, fun table htable =>
    ⟨⟨hled', ?_, ?_, fun _ => ?_, fun _ => htable, fun h => absurd rfl h⟩, ?_⟩⟩
  · change m.firstFreeAddr + 260095 * 4096 ≤ 2 ^ 48
    rw [hlay.firstFree, hff]
    norm_num
  · have haddr : (ownerPm m table).infoAddr 6 = 0x106000 := by
      norm_num [ownerPm, PmState.initial, PmState.infoAddr]
    rw [haddr]
    constructor
    · change ∀ p ∈ ownerInfo.ownPages 0x106000, IsPage (2 ^ 48) p.1
      simp only [ownerInfo, CpuInfo.ownPages, List.forall_mem_cons, List.not_mem_nil, false_imp_iff,
        implies_true, and_true, IsPage]
      norm_num
    · change ∀ sec ∈ ownerInfo.vm.sections, 0 < sec.size → _
      simp only [ownerInfo, VmProc.sections, List.forall_mem_cons, List.not_mem_nil, false_imp_iff,
        implies_true, and_true]
      refine ⟨?_, ?_, ?_, ?_, ?_⟩ <;> exact fun h => absurd h (lt_irrefl 0)
  · exact Multiset.mem_singleton_self _
  · have hcost : eptCost ((ownerPm m table).cpus 6).vm = 103618 :=
      show eptCost ownerInfo.vm = 103618 by decide
    have hreserve : (ownerPm m table).Reserve 260095
        (0 + eptCost ((ownerPm m table).cpus 6).vm) := by
      rw [hcost]
      exact ⟨.of_openEnd hopen' (by norm_num), rfl⟩
    exact fun e s' hx => ((eptPmap_reserve rfl hreserve).error hx).1

/-- The requests of the VM to FS, with one file in the file system. -/
def ownerOpens (pathname : String) (fs : Fs.FsState) : Prop :=
  Fs.fsStep (Fs.holding (Fs.image (List.replicate 32 0) Fs.oneFile))
    ⟨6, .open pathname 0, ⟨0x900000, 0⟩⟩ fs

/-- The VM has opened "stdin" and executes a program: its page and the channel are mapped. -/
theorem mapsDescriptors_stdin : ∃ (m : MemoryState) (fs : Fs.FsState), ownerOpens "stdin" fs ∧
    (fs.fds 6 0).offset = 0x900000 ∧ MapsDescriptors 6 (ownerPm m (fs.fds 6)) := by
  obtain ⟨m, hm⟩ := ownerPm_ready
  obtain ⟨fs, hstep, hfirst, hother⟩ : ∃ fs, ownerOpens "stdin" fs ∧
      fs.fds 6 0 = ⟨typeChar, 0, kbdId, 0x900000⟩ ∧ ∀ i, i ≠ 0 → fs.fds 6 i = default :=
    ⟨_, rfl, rfl, fun i hi => if_neg fun h => hi h.2⟩
  have hentry : ∀ i : ℕ, fs.fds 6 i = ⟨typeChar, 0, kbdId, 0x900000⟩ ∨ fs.fds 6 i = default := by
    intro i
    by_cases hi : (i : ℤ) = 0
    · exact Or.inl (hi ▸ hfirst)
    · exact Or.inr (hother i hi)
  obtain ⟨hready, halloc⟩ := hm (fs.fds 6) fun i _ => by
    rcases hentry i with h | h <;> rw [h] <;> decide
  have hfiles : (Fs.holding (Fs.image (List.replicate 32 0) Fs.oneFile)).files =
      Fs.headersOf (Fs.image (List.replicate 32 0) Fs.oneFile) := by simp only [Fs.holding]
  refine ⟨m, fs, hstep, by rw [hfirst], (mapsDescriptors_iff List.length_replicate
    Fs.acceptable_oneFile (Fs.createInitrd_eq Fs.acceptable_oneFile) hfiles (fun _ _ => rfl)
    (.cons ⟨rfl, hstep⟩ (.nil fs)) hready reaches_all (show ownerInfo.vm.fds ≠ 0 by decide)
    (fun _ _ => rfl) halloc).mpr ⟨rfl, fun i _ htype => ?_⟩⟩
  rcases hentry i with h | h <;> rw [h] at htype ⊢
  · exact absurd htype (by decide)
  · rfl

/-- The VM has opened the file "init", whose contents are at the offset 172 of the file system, and
executes a program: PM panics. -/
theorem mapsDescriptors_file : ∃ (m : MemoryState) (fs : Fs.FsState), ownerOpens "init" fs ∧
    fs.fds 6 2 = ⟨Fs.typeFile, 3, 0, 172⟩ ∧
    (ownerPm m (fs.fds 6)).Ready 260095 (2 ^ 48) {(0x801000, 1)} 0 6 ∧
    ∃ e s', eptPmap 6 (ownerPm m (fs.fds 6)) = .error e s' ∧ e ≠ .panic (.map .allocFailed) := by
  obtain ⟨m, hm⟩ := ownerPm_ready
  obtain ⟨fs, hstep, hfile, hother⟩ : ∃ fs, ownerOpens "init" fs ∧
      fs.fds 6 2 = ⟨Fs.typeFile, 3, 0, 172⟩ ∧ ∀ i, i ≠ 2 → fs.fds 6 i = default :=
    ⟨_, rfl, rfl, fun i hi => if_neg fun h => hi h.2⟩
  obtain ⟨hready, halloc⟩ := hm (fs.fds 6) fun i _ => by
    by_cases hi : (i : ℤ) = 2
    · rw [hi, hfile]
      decide
    · rw [hother i hi]
      decide
  refine ⟨m, fs, hstep, hfile, hready, ?_⟩
  cases hx : eptPmap 6 (ownerPm m (fs.fds 6)) with
  | ok u s' =>
    -- the offset is not a multiple of the page size
    refine absurd (Or.inr ⟨172, ?_, by decide⟩) ((eptPmap_spec (E := fun _ _ => True) hready
      reaches_all (fun _ _ => trivial) fun _ _ _ => trivial).ok hx).1
    have hfds : ((ownerPm m (fs.fds 6)).cpus 6).vm.fds ≠ 0 := show ownerInfo.vm.fds ≠ 0 by decide
    rw [PmState.fdPages, if_neg hfds]
    refine List.mem_cons_of_mem _ (List.mem_filter.mpr ⟨List.mem_map.mpr ⟨2, by decide, ?_⟩, rfl⟩)
    change (fs.fds 6 2).offset = 172
    rw [hfile]
  | error e s' => exact ⟨e, s', rfl, halloc e s' hx⟩

end Savannah
