import Savannah.Fs.Answers
import Savannah.Pm.Provision

/-!
# Character devices

The descriptor of a character device names its driver, FS and PM derive the driver to tell about a
close from the number of the descriptor, and PM keeps the channel in the array of a driver.  The
system here is PM together with FS: the tables of descriptors are pages of PM's memory, in which FS
reads and writes (`PmState.fsView`, `PmState.storeFds`), and FS asks PM for channels (`fsAsks`).

All of them agree on the driver as long as no array is full (`devices_agree`): `add_channel_list`
drops a channel silently when there is no free entry.
-/

namespace Savannah

open Foundation PmState

/-! ### FS and PM -/

/-- The tables as FS sees them. -/
def PmState.fsView (files : List Fs.FileHeader) (s : PmState) : Fs.FsState where
  hasFds c := decide ((s.cpus c).vm.fds ≠ 0)
  fds c i := if 0 ≤ i then s.descriptors c i.toNat else ⟨0, 0, 0, 0⟩
  files := files
  filesystem := 0
  accesses := []
  channels := s.openChannels
  sent := []

/-- The table of `c` as FS has left it. -/
def PmState.storeFds (c : ℕ) (fs : Fs.FsState) (s : PmState) : PmState :=
  { s with fdTable := fun t i =>
      if t = (s.cpus c).vm.fds ∧ t ≠ 0 then fs.fds c i else s.fdTable t i }

/-- What FS asks PM for while it serves a request: a channel for a character device that it opens,
or to close the channel of one that it closes. -/
def fsAsks (c : ℕ) (req : Fs.FsRequest) (fs fs' : Fs.FsState) : Option Request :=
  match req with
  | .close fd =>
    if fd ≤ maxFd ∧ c ≤ maxCpus ∧ fs.hasFds c = true ∧ (fs.fds c fd).type = typeChar then
      some (.channelClose (fs.fds c fd).offset)
    else
      none
  | _ => (fs'.channels.drop fs.channels.length).head?.map fun o => .channel o.end1 o.end2

/-- PM's last message is the answer that FS has worked with. -/
def Answers (pm : Fs.PmAnswer) (s : PmState) : Prop :=
  ∃ m, s.posted.getLast? = some m ∧ (m.data = .channel pm.channel ∨ m.data = .result pm.close)

/-- A request of a VM to PM or to FS. -/
inductive DeviceEvent where
  | pm (e : PmEvent)
  | fs (sender : ℕ) (req : Fs.FsRequest)

/-- The requests that VMs make to PM; those for channels come from FS. -/
def Request.OfVm : Request → Prop
  | .channel _ _ | .channelClose _ => False
  | _ => True

/-- PM serves a request, or FS serves one with the help of PM. -/
def deviceStep (files : List Fs.FileHeader) (s : PmState) : DeviceEvent → PmState → Prop
  | .pm e, t => e.request.OfVm ∧ pmStep s e t
  | .fs c req, t => ∃ pm fs' s₁, Fs.handle c pm req (s.fsView files) = .ok () fs' ∧
      (match fsAsks c req (s.fsView files) fs' with
        | none => s₁ = s
        | some r => pmStep s ⟨fsId, r⟩ s₁ ∧ Answers pm s₁) ∧
      t = s₁.storeFds c fs'

/-! ### The agreement -/

/-- The channel `a` is in the array of `d`. -/
def PmState.Registered (s : PmState) (d a : ℕ) : Prop :=
  (s.cpus d).vm.channels ≠ 0 ∧ ∃ j < maxChannels, s.words (s.cpus d).vm.channels j = a

/-- All agree on the driver of the descriptor `fd` of `c`: FS and PM would tell it of a close, the
channel was opened to it, and its array is the one that lists the channel. -/
structure Agrees (files : List Fs.FileHeader) (s : PmState) (c fd : ℕ) : Prop where
  fs : ∀ pm fs', Fs.localCloseChar fd c pm (s.fsView files) = .ok () fs' →
    fs'.sent = [⟨fsId, (s.descriptors c fd).dst, channelCloseIpc, .result 0⟩]
  pm : ∀ t, closeChannel c fd s = .ok () t →
    t.posted = s.posted ++ [⟨fsId, (s.descriptors c fd).dst, channelCloseIpc, .result 0⟩]
  opened : ⟨(s.descriptors c fd).offset, c, (s.descriptors c fd).dst⟩ ∈ s.openChannels
  registered : ∀ d, s.Registered d (s.descriptors c fd).offset ↔ d = (s.descriptors c fd).dst

/-- The agreement for every descriptor of a character device of a live VM. -/
def DevicesAgree (files : List Fs.FileHeader) (s : PmState) : Prop :=
  ∀ c ∈ s.live, ∀ fd < maxFd, (s.descriptors c fd).type = typeChar → Agrees files s c fd

/-- The condition on a step: requests stay inside the tables, no array is full when FS serves a
request or a VM exits, and what `PmState.Accounted` needs. -/
def DeviceOrder (files : List Fs.FileHeader) (s : PmState) : DeviceEvent → Prop
  | .pm ⟨c, .fork _⟩ => (c ∈ s.live ∨ c = initId) ∧ ForkRoom s (s.descriptors c)
  | .pm ⟨c, .exec args⟩ => c ∈ s.live ∧ Executable (s.cpus c).vm args
  | .pm ⟨c, .exit _⟩ => c ∈ s.live ∧ s.channelsOf c = [] ∧
      ∀ d, (s.channelsOf d).length < maxChannels
  | .pm _ => True
  | .fs c req => req.InBounds (s.fsView files) c ∧ ∀ d, (s.channelsOf d).length < maxChannels

/-- The steps of PM and FS in order. -/
abbrev orderedStep (files : List Fs.FileHeader) : PmState → DeviceEvent → PmState → Prop :=
  guarded (deviceStep files) (DeviceOrder files)

/-- The files of the file system: only "stdin" and "stdout" are character devices. -/
def RegularFiles (files : List Fs.FileHeader) : Prop :=
  ∀ h ∈ files, (h.type = typeChar → h.name = "stdin" ∨ h.name = "stdout") ∧ h.offset + 4096 ≤ 2 ^ 32

/-! ### The invariant -/

/-- The descriptors of character devices have channels of their own, to the driver that belongs to
their number, and every channel belongs to such a descriptor. -/
structure CharEntries (s : PmState) : Prop where
  opened : ∀ c ∈ s.live, ∀ i < maxFd, (s.descriptors c i).type = typeChar →
    ⟨(s.descriptors c i).offset, c, Fs.closeDriver i⟩ ∈ s.openChannels ∧
      (s.descriptors c i).dst = Fs.closeDriver i
  apart : ∀ c ∈ s.live, ∀ i < maxFd, ∀ j < maxFd, (s.descriptors c i).type = typeChar →
    (s.descriptors c j).type = typeChar → (s.descriptors c i).offset = (s.descriptors c j).offset →
    i = j
  owner : ∀ o ∈ s.openChannels, o.end1 ∈ s.live ∧ ∃ i < maxFd,
    (s.descriptors o.end1 i).type = typeChar ∧ (s.descriptors o.end1 i).offset = o.addr

/-- The descriptor `fd` of the VM `c` is assigned `f`; no other one changes. -/
structure Stored (c fd : ℕ) (f : FileDescriptor) (s t : PmState) : Prop where
  mem : c ∈ s.live
  lt : fd < maxFd
  live : t.live = s.live
  cpus : t.cpus = s.cpus
  self : ∀ i < maxFd, t.descriptors c i = if i = fd then f else s.descriptors c i
  other : ∀ d ∈ s.live, d ≠ c → t.descriptors d = s.descriptors d

/-- What a step does to the descriptors and the channels. -/
inductive DeviceEffect (files : List Fs.FileHeader) (s t : PmState) : DeviceEvent → Prop
  | quiet {e : DeviceEvent} (h : Quiet s t) : DeviceEffect files s t e
  | spawned {parent : ℕ} {args : ForkArgs} (child : ℕ) (h : Spawned parent child s t) :
      DeviceEffect files s t (.pm ⟨parent, .fork args⟩)
  | departed {c : ℕ} {status : ℤ} (hc : c ∈ s.live) (h : Departed c s t) :
      DeviceEffect files s t (.pm ⟨c, .exit status⟩)
  | entered {c : ℕ} {pathname : String} {flags : ℤ} (fd a : ℕ)
      (hfree : (s.descriptors c fd).offset = 0)
      (hopened : t.openChannels = s.openChannels ++ [⟨a, c, Fs.closeDriver fd⟩])
      (h : Stored c fd ⟨typeChar, 0, Fs.closeDriver fd, a⟩ s t) :
      DeviceEffect files s t (.fs c (.open pathname flags))
  | filed {c : ℕ} {pathname : String} {flags : ℤ} (fd : ℕ) (header : Fs.FileHeader)
      (hmem : header ∈ files) (hname : header.name ≠ "stdin" ∧ header.name ≠ "stdout")
      (hfree : (s.descriptors c fd).offset = 0) (hopened : t.openChannels = s.openChannels)
      (h : Stored c fd ⟨header.type, header.length, 0, header.offset⟩ s t) :
      DeviceEffect files s t (.fs c (.open pathname flags))
  | cleared {c : ℕ} (fd : ℕ) (hopened : t.openChannels = s.openChannels.filter fun o =>
        (s.descriptors c fd).type = typeChar → o.addr ≠ (s.descriptors c fd).offset)
      (hunused : (s.descriptors c fd).type = typeChar → t.memory.Unused (s.descriptors c fd).offset)
      (h : Stored c fd { s.descriptors c fd with type := 0, length := 0, offset := 0 } s t) :
      DeviceEffect files s t (.fs c (.close fd))

/-- The VM that loads a program in a step. -/
def DeviceEvent.loads : DeviceEvent → Set ℕ
  | .pm ⟨c, .exec _⟩ => {c}
  | _ => ∅

section Store

variable {pool B c d i : ℕ} {maps : ℕ → View} {files : List Fs.FileHeader} {fs : Fs.FsState}
  {s t : PmState}

/-- FS sees the descriptors of PM. -/
theorem fsView_fds (files : List Fs.FileHeader) (s : PmState) (c i : ℕ) :
    (s.fsView files).fds c i = s.descriptors c i := by
  change (if (0 : ℤ) ≤ i then s.descriptors c (i : ℤ).toNat else ⟨0, 0, 0, 0⟩) = _
  rw [if_pos (Int.natCast_nonneg i), Int.toNat_natCast]

theorem storeFds_self (hne : (s.cpus c).vm.fds ≠ 0) (i : ℕ) :
    (s.storeFds c fs).descriptors c i = fs.fds c i := by
  unfold PmState.descriptors PmState.storeFds
  dsimp only
  rw [if_neg hne]
  exact if_pos ⟨rfl, hne⟩

/-- FS has changed nothing. -/
theorem storeFds_unchanged (h : fs.fds = (s.fsView files).fds) : s.storeFds c fs = s := by
  have htable : (s.storeFds c fs).fdTable = s.fdTable := by
    funext t i
    change (if t = (s.cpus c).vm.fds ∧ t ≠ 0 then fs.fds c i else s.fdTable t i) = _
    split
    · rename_i hpage
      obtain ⟨rfl, hne⟩ := hpage
      rw [h, fsView_fds, PmState.descriptors, if_neg hne]
    · rfl
  unfold PmState.storeFds at htable ⊢
  dsimp only at htable
  rw [htable]

/-- FS has written the table of `c`. -/
theorem PmState.Accounted.store (h : s.Accounted pool B maps) (fs : Fs.FsState) (hc : c ∈ s.live)
    (hne : (s.cpus c).vm.fds ≠ 0)
    (hoff : ∀ i : ℕ, i < maxFd → (fs.fds c i).offset + 4096 ≤ 2 ^ 32) :
    (s.storeFds c fs).Accounted pool B maps ∧
    ∀ d ∈ s.live, d ≠ c → (s.storeFds c fs).descriptors d = s.descriptors d := by
  have hother : ∀ d ∈ s.live, d ≠ c → (s.storeFds c fs).descriptors d = s.descriptors d := by
    intro d hd hdc
    refine descriptors_congr rfl fun hne' => funext fun i => if_neg ?_
    rintro ⟨heq, -⟩
    exact h.books.account.page_ne hc (mem_own_of_fds (Finset.mem_erase.mpr ⟨hdc, hd⟩) hne') heq
  refine ⟨⟨h.books.update (fun _ _ => rfl) (fun _ => rfl) rfl rfl rfl rfl, h.live, h.idle,
    ⟨h.init.placed, h.init.outside⟩, fun d hd i hi => ?_, h.writes⟩, hother⟩
  by_cases hdc : d = c
  · subst hdc
    rw [storeFds_self hne]
    exact hoff i hi
  · rw [hother d hd hdc]
    exact h.offsets d hd i hi

end Store

section Steps

variable {pool B c d i a fd child : ℕ} {maps : ℕ → View} {V : Finset ℕ}
  {files : List Fs.FileHeader} {fs : Fs.FsState} {f : FileDescriptor} {s s₁ t : PmState}

/-- A channel is known by its page. -/
theorem Account.channel_eq {X S : Multiset (ℕ × ℕ)} (h : Account pool V maps X S s)
    {o o' : OpenChannel} (ho : o ∈ s.openChannels) (ho' : o' ∈ s.openChannels)
    (haddr : o.addr = o'.addr) : o = o' :=
  List.inj_on_of_nodup_map h.nodup_channels ho ho' haddr

/-- Quiet steps keep the entries. -/
theorem CharEntries.quiet (h : CharEntries s) (hq : Quiet s t) : CharEntries t := by
  constructor
  · intro c hc
    rw [hq.live] at hc
    rw [hq.descriptors c hc, hq.opened]
    exact h.opened c hc
  · intro c hc
    rw [hq.live] at hc
    rw [hq.descriptors c hc]
    exact h.apart c hc
  · intro o ho
    rw [hq.opened] at ho
    obtain ⟨hlive, hentry⟩ := h.owner o ho
    rw [hq.live, hq.descriptors _ hlive]
    exact ⟨hlive, hentry⟩

/-- The child of a fork has its own channels. -/
theorem CharEntries.spawned (h : CharEntries s) (ht : t.Accounted pool B maps)
    (hidle : ∀ d ∉ s.live, (s.cpus d).vm.fds = 0) (hsp : Spawned c child s t) : CharEntries t := by
  obtain ⟨addr, hopened, -, htable⟩ := hsp.copied
  -- the parent is a VM with a table
  have hparent : ∀ i < maxFd, (s.descriptors c i).type = typeChar → c ∈ s.live := by
    intro i _ htype
    by_contra hnot
    rw [PmState.descriptors, if_pos (hidle c hnot)] at htype
    exact absurd htype (by decide)
  have hchild : ∀ i < maxFd, (t.descriptors child i).type = typeChar →
      (s.descriptors c i).type = typeChar ∧ i ∈ copiedFds (t.cpus child).vm.fds ∧
        t.descriptors child i = { s.descriptors c i with offset := addr i } := by
    intro i hi htype
    rw [htable i hi] at htype ⊢
    by_cases h0 : (t.cpus child).vm.fds = 0
    · rw [if_pos h0] at htype
      exact absurd htype (by decide)
    · rw [if_neg h0] at htype ⊢
      rw [copiedFds, if_neg h0]
      by_cases hchar : (s.descriptors c i).type = typeChar
      · rw [if_pos hchar]
        exact ⟨hchar, List.mem_range.mpr hi, rfl⟩
      · rw [if_neg hchar] at htype
        exact absurd htype hchar
  constructor
  · intro d hd i hi htype
    rw [hsp.live, Finset.mem_insert] at hd
    rw [hopened]
    rcases hd with rfl | hd
    · obtain ⟨hchar, hmem, heq⟩ := hchild i hi htype
      obtain ⟨-, hdst⟩ := h.opened c (hparent i hi hchar) i hi hchar
      rw [heq, ← hdst]
      refine ⟨List.mem_append_right _ (List.mem_map.mpr ⟨i, mem_charFds.mpr ⟨hmem, hchar⟩, rfl⟩),
        rfl⟩
    · rw [hsp.descriptors d hd] at htype ⊢
      obtain ⟨hmem, hdst⟩ := h.opened d hd i hi htype
      exact ⟨List.mem_append_left _ hmem, hdst⟩
  · intro d hd i hi j hj hti htj heq
    rw [hsp.live, Finset.mem_insert] at hd
    rcases hd with rfl | hd
    · obtain ⟨hci, hmi, ei⟩ := hchild i hi hti
      obtain ⟨hcj, hmj, ej⟩ := hchild j hj htj
      rw [ei, ej] at heq
      have hnodup := ht.books.account.nodup_channels
      rw [hopened, List.map_append, forkedChannels, List.map_map] at hnodup
      exact List.inj_on_of_nodup_map (List.nodup_append.mp hnodup).2.1 (mem_charFds.mpr ⟨hmi, hci⟩)
        (mem_charFds.mpr ⟨hmj, hcj⟩) heq
    · rw [hsp.descriptors d hd] at hti htj heq
      exact h.apart d hd i hi j hj hti htj heq
  · intro o ho
    rw [hsp.live, Finset.mem_insert]
    rw [hopened] at ho
    rcases List.mem_append.mp ho with ho | ho
    · obtain ⟨hlive, hentry⟩ := h.owner o ho
      rw [hsp.descriptors _ hlive]
      exact ⟨Or.inr hlive, hentry⟩
    · obtain ⟨i, hi, rfl⟩ := List.mem_map.mp ho
      obtain ⟨hmem, hchar⟩ := mem_charFds.mp hi
      have hne : (t.cpus child).vm.fds ≠ 0 := by
        intro h0
        rw [copiedFds, if_pos h0] at hmem
        exact List.not_mem_nil hmem
      rw [copiedFds, if_neg hne] at hmem
      have hilt := List.mem_range.mp hmem
      refine ⟨Or.inl rfl, i, hilt, ?_⟩
      dsimp only
      rw [htable i hilt, if_neg hne, if_pos hchar]
      exact ⟨hchar, rfl⟩

/-- The channels of the others stay open when a VM exits. -/
theorem CharEntries.departed (h : CharEntries s) (hs : s.Accounted pool B maps) (hc : c ∈ s.live)
    (hd : Departed c s t) : CharEntries t := by
  constructor
  · intro d hdl i hi htype
    rw [hd.live] at hdl
    rw [hd.descriptors d hdl] at htype ⊢
    obtain ⟨hmem, hdst⟩ := h.opened d (Finset.mem_of_mem_erase hdl) i hi htype
    refine ⟨?_, hdst⟩
    rw [hd.opened]
    refine List.mem_filter.mpr ⟨hmem, decide_eq_true fun hclosed => ?_⟩
    obtain ⟨j, hj, hoff⟩ := List.mem_map.mp hclosed
    obtain ⟨hjlt, hjtype⟩ := mem_charFds.mp hj
    obtain ⟨hmem', -⟩ := h.opened c hc j (List.mem_range.mp hjlt) hjtype
    have heq := hs.books.account.channel_eq hmem' hmem hoff
    exact Finset.ne_of_mem_erase hdl (congrArg OpenChannel.end1 heq).symm
  · intro d hdl
    rw [hd.live] at hdl
    rw [hd.descriptors d hdl]
    exact h.apart d (Finset.mem_of_mem_erase hdl)
  · intro o ho
    rw [hd.opened] at ho
    obtain ⟨hmem, hkept⟩ := List.mem_filter.mp ho
    obtain ⟨hlive, i, hi, htype, hoff⟩ := h.owner o hmem
    -- the channels of `c` are closed
    have hne : o.end1 ≠ c := by
      intro heq
      rw [heq] at htype hoff
      refine absurd ?_ (of_decide_eq_true hkept)
      exact List.mem_map.mpr ⟨i, mem_charFds.mpr ⟨List.mem_range.mpr hi, htype⟩, hoff⟩
    have hlive' := Finset.mem_erase.mpr ⟨hne, hlive⟩
    rw [hd.live, hd.descriptors _ hlive']
    exact ⟨hlive', i, hi, htype, hoff⟩

/-- An entry of `c` is assigned, and it is no character device. -/
theorem CharEntries.assign (h : CharEntries s) (hst : Stored c fd f s t)
    (hopened : ∀ o ∈ s.openChannels, (o.end1 = c → o.addr = (s.descriptors c fd).offset →
      (s.descriptors c fd).type ≠ typeChar) → o ∈ t.openChannels)
    (hclosed : ∀ o ∈ t.openChannels, o ∈ s.openChannels ∧
      ((s.descriptors c fd).type = typeChar → o.addr ≠ (s.descriptors c fd).offset))
    (hf : f.type ≠ typeChar) : CharEntries t := by
  obtain ⟨-, hfd, hlive', -, hself, hother⟩ := hst
  have hentry : ∀ d ∈ s.live, ∀ i < maxFd, (t.descriptors d i).type = typeChar →
      t.descriptors d i = s.descriptors d i ∧ (d = c → i ≠ fd) := by
    intro d hd i hi htype
    by_cases hdc : d = c
    · subst hdc
      rw [hself i hi] at htype ⊢
      by_cases hifd : i = fd
      · rw [if_pos hifd] at htype
        exact absurd htype hf
      · rw [if_neg hifd]
        exact ⟨rfl, fun _ => hifd⟩
    · exact ⟨by rw [hother d hd hdc], fun heq => absurd heq hdc⟩
  constructor
  · intro d hd i hi htype
    rw [hlive'] at hd
    obtain ⟨heq, hne⟩ := hentry d hd i hi htype
    rw [heq] at htype ⊢
    obtain ⟨hmem, hdst⟩ := h.opened d hd i hi htype
    refine ⟨hopened _ hmem fun hend haddr htype' => ?_, hdst⟩
    obtain rfl : d = c := hend
    exact hne rfl (h.apart d hd i hi fd hfd htype htype' haddr)
  · intro d hd i hi j hj hti htj heq
    rw [hlive'] at hd
    have hi' := (hentry d hd i hi hti).1
    have hj' := (hentry d hd j hj htj).1
    rw [hi'] at hti heq
    rw [hj'] at htj heq
    exact h.apart d hd i hi j hj hti htj heq
  · intro o ho
    obtain ⟨hmem, hne⟩ := hclosed o ho
    obtain ⟨hlive, i, hi, htype, hoff⟩ := h.owner o hmem
    rw [hlive']
    refine ⟨hlive, i, hi, ?_⟩
    by_cases hdc : o.end1 = c
    · have hifd : i ≠ fd := by
        rintro rfl
        rw [hdc] at htype hoff
        exact hne htype hoff.symm
      rw [hdc] at htype hoff ⊢
      rw [hself i hi, if_neg hifd]
      exact ⟨htype, hoff⟩
    · rw [hother _ hlive hdc]
      exact ⟨htype, hoff⟩

/-- A new channel is entered for `c`. -/
theorem CharEntries.enter (h : CharEntries s) (ht : t.Accounted pool B maps)
    (hst : Stored c fd ⟨typeChar, 0, Fs.closeDriver fd, a⟩ s t)
    (hfree : (s.descriptors c fd).type ≠ typeChar)
    (hopened : t.openChannels = s.openChannels ++ [⟨a, c, Fs.closeDriver fd⟩]) : CharEntries t := by
  obtain ⟨hc, hfd, hlive, -, hself, hother⟩ := hst
  have hnew : ∀ o ∈ s.openChannels, o.addr ≠ a := by
    have hnodup := ht.books.account.nodup_channels
    rw [hopened, List.map_append] at hnodup
    intro o ho heq
    exact (List.nodup_append.mp hnodup).2.2 _ (List.mem_map_of_mem ho) _
      (List.mem_singleton_self a) heq
  have hsame : ∀ d ∈ s.live, ∀ i < maxFd, ¬ (d = c ∧ i = fd) →
      t.descriptors d i = s.descriptors d i := by
    intro d hd i hi hne
    by_cases hdc : d = c
    · subst hdc
      rw [hself i hi, if_neg fun heq => hne ⟨rfl, heq⟩]
    · rw [hother d hd hdc]
  have hold : ∀ d ∈ s.live, ∀ i < maxFd, ¬ (d = c ∧ i = fd) →
      (t.descriptors d i).type = typeChar → (t.descriptors d i).offset ≠ a := by
    intro d hd i hi hne htype
    rw [hsame d hd i hi hne] at htype ⊢
    exact hnew _ (h.opened d hd i hi htype).1
  constructor
  · intro d hd i hi htype
    rw [hlive] at hd
    rw [hopened]
    by_cases hnew : d = c ∧ i = fd
    · obtain ⟨rfl, rfl⟩ := hnew
      rw [hself i hi, if_pos rfl]
      exact ⟨List.mem_append_right _ (List.mem_singleton_self _), rfl⟩
    · rw [hsame d hd i hi hnew] at htype ⊢
      obtain ⟨hmem, hdst⟩ := h.opened d hd i hi htype
      exact ⟨List.mem_append_left _ hmem, hdst⟩
  · intro d hd i hi j hj hti htj heq
    rw [hlive] at hd
    by_cases hi' : d = c ∧ i = fd <;> by_cases hj' : d = c ∧ j = fd
    · rw [hi'.2, hj'.2]
    · obtain ⟨rfl, rfl⟩ := hi'
      rw [hself i hi, if_pos rfl] at heq
      exact absurd heq.symm (hold d hd j hj hj' htj)
    · obtain ⟨rfl, rfl⟩ := hj'
      rw [hself j hj, if_pos rfl] at heq
      exact absurd heq (hold d hd i hi hi' hti)
    · rw [hsame d hd i hi hi'] at hti heq
      rw [hsame d hd j hj hj'] at htj heq
      exact h.apart d hd i hi j hj hti htj heq
  · intro o ho
    rw [hopened] at ho
    rw [hlive]
    rcases List.mem_append.mp ho with ho | ho
    · obtain ⟨hl, i, hi, htype, hoff⟩ := h.owner o ho
      have hkept : ¬ (o.end1 = c ∧ i = fd) := by
        rintro ⟨hend, rfl⟩
        rw [hend] at htype
        exact hfree htype
      refine ⟨hl, i, hi, ?_⟩
      rw [hsame _ hl i hi hkept]
      exact ⟨htype, hoff⟩
    · obtain rfl := List.mem_singleton.mp ho
      refine ⟨hc, fd, hfd, ?_⟩
      dsimp only
      rw [hself fd hfd, if_pos rfl]
      exact ⟨rfl, rfl⟩

/-- A free entry is no character device. -/
theorem CharEntries.not_char (h : CharEntries s) (hs : s.Accounted pool B maps) (hc : c ∈ s.live)
    (hlt : fd < maxFd) (hfree : (s.descriptors c fd).offset = 0) :
    (s.descriptors c fd).type ≠ typeChar := by
  intro hchar
  exact hs.books.account.channel_ne (List.mem_map_of_mem (h.opened c hc fd hlt hchar).1) hfree

/-- Every step keeps the entries. -/
theorem CharEntries.effect {maps' : ℕ → View} {e : DeviceEvent} (h : CharEntries s)
    (hs : s.Accounted pool B maps) (ht : t.Accounted pool B maps') (hfiles : RegularFiles files)
    (heff : DeviceEffect files s t e) : CharEntries t := by
  cases heff with
  | quiet hq => exact h.quiet hq
  | spawned child hsp => exact h.spawned ht (fun d hd => (hs.idle d hd).1) hsp
  | departed hc hd => exact h.departed hs hc hd
  | entered fd a hfree hopened hst =>
    exact h.enter ht hst (h.not_char hs hst.mem hst.lt hfree) hopened
  | filed fd header hmem hname hfree hopened hst =>
    refine h.assign hst (fun o ho _ => by rwa [hopened]) (fun o ho => ?_) fun hchar => ?_
    · rw [hopened] at ho
      exact ⟨ho, fun hchar => absurd hchar (h.not_char hs hst.mem hst.lt hfree)⟩
    · exact ((hfiles header hmem).1 hchar).elim hname.1 hname.2
  | cleared fd hopened _ hst =>
    refine h.assign hst (fun o ho hkeep => ?_) (fun o ho => ?_) (show (0 : ℕ) ≠ typeChar by decide)
    · rw [hopened]
      refine List.mem_filter.mpr ⟨ho, decide_eq_true fun hchar haddr => ?_⟩
      -- the channel of the entry is the only one on its page
      have hopen := (h.opened _ hst.mem fd hst.lt hchar).1
      have heq := hs.books.account.channel_eq ho hopen haddr
      exact hkeep (congrArg OpenChannel.end1 heq) haddr hchar
    · rw [hopened] at ho
      obtain ⟨hmem, hkept⟩ := List.mem_filter.mp ho
      exact ⟨hmem, of_decide_eq_true hkept⟩

end Steps

/-! ### Runs -/

/-- The invariant of PM and FS; the VMs have the views `maps`. -/
structure DeviceInv (pool : ℕ) (maps : ℕ → View) (s : PmState) : Prop where
  machine : s.machine.Sound
  procs : s.procTable.Sound
  accounted : s.Accounted pool (maxChannels + 1) maps
  entries : CharEntries s

section Runs

variable {pool c : ℕ} {maps maps' : ℕ → View} {files : List Fs.FileHeader} {fs' : Fs.FsState}
  {pm : Fs.PmAnswer}
  {req : Fs.FsRequest} {e : PmEvent} {s s₁ t : PmState}

/-- A request to PM leaves the machine alone and keeps the process table in order. -/
theorem pmStep_sound (hp : s.procTable.Sound) (h : pmStep s e t) :
    t.machine = s.machine ∧ t.procTable.Sound :=
  ⟨((inferInstance : IsWithin (Same PmState.machine) (handle e.sender e.request)).within s).ok h.2,
    hp.step h.next⟩

/-- The machine stays sound. -/
theorem deviceStep_sound {e : DeviceEvent} (hp : s.procTable.Sound) (h : deviceStep files s e t) :
    t.machine = s.machine ∧ t.procTable.Sound := by
  cases e with
  | pm e => exact pmStep_sound hp h.2
  | fs c req =>
    obtain ⟨pm, fs', s₁, -, hask, rfl⟩ := h
    -- FS itself writes descriptors only
    suffices hsound : s₁.machine = s.machine ∧ s₁.procTable.Sound from hsound
    split at hask
    · obtain rfl : s₁ = s := hask
      exact ⟨rfl, hp⟩
    · exact pmStep_sound hp hask.1

/-- A request of a VM to PM. -/
theorem DeviceInv.pmStep (h : DeviceInv pool maps s) (hguard : DeviceOrder files s (.pm e))
    (hvm : e.request.OfVm) (hstep : Savannah.pmStep s e t) :
    ∃ maps', t.Accounted pool (maxChannels + 1) maps' ∧
      ViewsStep (DeviceEvent.pm e).loads maps maps' s t ∧ DeviceEffect files s t (.pm e) := by
  obtain ⟨hm, hp, hacc, -⟩ := h
  obtain ⟨c, req⟩ := e
  obtain ⟨hlt, hrun⟩ := hstep
  have hcle : c ≤ maxCpus := (Nat.le_of_lt hlt).trans hm.ncpus_le
  cases req with
  | fork args =>
    obtain ⟨⟨maps', hacc', hviews⟩, hq | ⟨child, -, -, -, hsp⟩⟩ := (hacc.fork (P := False)
      (Nat.le_succ _) hm hlt hguard.1 hguard.2 False.elim False.elim).ok hrun
    · exact ⟨maps', hacc', hviews, .quiet hq.1⟩
    · exact ⟨maps', hacc', hviews, .spawned child hsp⟩
  | exec args =>
    obtain ⟨⟨maps', hacc', hviews⟩, hq⟩ := (hacc.exec hm hguard.1 hguard.2).ok hrun
    exact ⟨maps', hacc', hviews, .quiet hq⟩
  | exit status =>
    obtain ⟨hc, hempty, hroom⟩ := hguard
    obtain ⟨hacc', hdep⟩ := (hacc.exit (P := False) status le_rfl hm hc hempty
      (fun a _ d _ => by have := hroom d; omega) False.elim).ok hrun
    exact ⟨maps, hacc', hdep.viewsStep maps, .departed hc hdep⟩
  | waitpid w =>
    obtain ⟨hacc', hviews, hq⟩ := (hacc.waitpid (P := False) hp hcle).ok hrun
    exact ⟨maps, hacc', hviews, .quiet hq⟩
  | other number =>
    cases hrun
    have hq : Quiet s s := ⟨rfl, rfl, fun _ _ => ⟨rfl, rfl⟩, fun _ _ => rfl⟩
    exact ⟨maps, hacc.post _, (ViewsStep.refl maps s).post _, .quiet (hq.post _)⟩
  | channel end1 end2 => exact hvm.elim
  | channelClose cnl => exact hvm.elim

theorem fsAsks_none (hclose : ∀ fd, req ≠ .close fd) {fs : Fs.FsState}
    (h : fs'.channels = fs.channels) : fsAsks c req fs fs' = none := by
  cases req with
  | close fd => exact absurd rfl (hclose fd)
  | _ =>
    unfold fsAsks
    dsimp only
    rw [h, List.drop_length]
    rfl

/-- Only live VMs have a table. -/
theorem hasFds_live (h : s.Accounted pool (maxChannels + 1) maps)
    (hfds : (s.fsView files).hasFds c = true) : c ∈ s.live ∧ (s.cpus c).vm.fds ≠ 0 := by
  have hne : (s.cpus c).vm.fds ≠ 0 := of_decide_eq_true hfds
  refine ⟨?_, hne⟩
  by_contra hnot
  exact hne (h.idle c hnot).1

/-- FS has assigned the entry `fd` of `c`, after PM has served its request. -/
theorem DeviceInv.store {fd : ℕ} {f : FileDescriptor} (h : DeviceInv pool maps s)
    (hacc : s₁.Accounted pool (maxChannels + 1) maps') (honly : ChannelsOnly s s₁)
    (hassign : Fs.Assigned c fd f (s.fsView files) fs') (hoff : f.offset + 4096 ≤ 2 ^ 32) :
    (s₁.storeFds c fs').Accounted pool (maxChannels + 1) maps' ∧
      Stored c fd f s (s₁.storeFds c fs') := by
  obtain ⟨hc, hne⟩ := hasFds_live h.accounted hassign.table
  have hc₁ : c ∈ s₁.live := by rwa [honly.live]
  have hne₁ : (s₁.cpus c).vm.fds ≠ 0 := by rwa [honly.cpus]
  have hself : ∀ i : ℕ, fs'.fds c i = if i = fd then f else s.descriptors c i := by
    intro i
    rw [hassign.fds, fsView_fds]
    by_cases hi : i = fd
    · rw [if_pos hi, if_pos ⟨rfl, by rw [hi]⟩]
    · rw [if_neg hi, if_neg fun hand => hi (by exact_mod_cast hand.2)]
  obtain ⟨hacc', hother⟩ := hacc.store fs' hc₁ hne₁ fun i hi => by
    rw [hself]
    split
    · exact hoff
    · exact h.accounted.offsets c hc i hi
  refine ⟨hacc', hc, hassign.lt, honly.live, honly.cpus, fun i _ => ?_, fun d hd hdc => ?_⟩
  · rw [storeFds_self hne₁, hself]
  · rw [hother d (by rwa [honly.live]) hdc, honly.descriptors d hd]

theorem ChannelsOnly.refl (s : PmState) : ChannelsOnly s s := ⟨rfl, rfl, fun _ _ => rfl, .refl _⟩

theorem ChannelsOnly.post (h : ChannelsOnly s t) (m : Post) : ChannelsOnly s (t.post m) :=
  ⟨h.live, h.cpus, h.descriptors, h.layout⟩

theorem Quiet.refl (s : PmState) : Quiet s s := ⟨rfl, rfl, fun _ _ => ⟨rfl, rfl⟩, fun _ _ => rfl⟩

/-- FS opens a file or a character device. -/
theorem DeviceInv.open {pathname : String} {flags : ℤ} (h : DeviceInv pool maps s)
    (hfiles : RegularFiles files) (hroom : ∀ d, (s.channelsOf d).length < maxChannels)
    (heffect : Fs.OpenEffect pm c (s.fsView files) fs')
    (hask : match fsAsks c (.open pathname flags) (s.fsView files) fs' with
      | none => s₁ = s
      | some r => Savannah.pmStep s ⟨fsId, r⟩ s₁ ∧ Answers pm s₁) :
    ∃ maps', (s₁.storeFds c fs').Accounted pool (maxChannels + 1) maps' ∧
      ViewsStep ∅ maps maps' s (s₁.storeFds c fs') ∧
      DeviceEffect files s (s₁.storeFds c fs') (.fs c (.open pathname flags)) := by
  cases heffect with
  | refused hun =>
    rw [fsAsks_none (by rintro _ ⟨⟩) hun.2] at hask
    obtain rfl : s₁ = s := hask
    rw [storeFds_unchanged hun.1]
    exact ⟨maps, h.accounted, .refl maps _, .quiet (.refl _)⟩
  | file fd header hmem hname hfree hassign hch =>
    rw [fsAsks_none (by rintro _ ⟨⟩) hch] at hask
    obtain rfl : s₁ = s := hask
    obtain ⟨hacc, hst⟩ := h.store h.accounted (.refl _) hassign (hfiles header hmem).2
    rw [fsView_fds] at hfree
    exact ⟨maps, hacc, .closed (.refl _) rfl rfl fun _ ho => ho,
      .filed fd header hmem hname hfree rfl hst⟩
  | char fd hfree hassign hch =>
    have hasks : fsAsks c (.open pathname flags) (s.fsView files) fs' =
        some (.channel c (Fs.closeDriver fd)) := by
      unfold fsAsks
      dsimp only
      rw [hch, List.drop_left]
      rfl
    rw [hasks] at hask
    obtain ⟨hstep, hans⟩ := hask
    obtain ⟨hc, -⟩ := hasFds_live h.accounted hassign.table
    obtain ⟨t', a, hacc, rfl, honly, hopened, hpage⟩ := (h.accounted.channel (c := fsId)
      (Nat.le_succ _) hc (hroom (Fs.closeDriver fd))).ok hstep.2
    -- the answer is the new channel
    obtain ⟨m, hlast, hdata⟩ := hans
    have hm' : m = ⟨pmId, fsId, channelIpc, .channel a⟩ := by
      change (t'.posted ++ [_]).getLast? = some m at hlast
      rw [List.getLast?_concat] at hlast
      exact (Option.some.inj hlast).symm
    obtain rfl : a = pm.channel := by
      rw [hm'] at hdata
      rcases hdata with heq | heq
      · exact Payload.channel.inj heq
      · cases heq
    obtain ⟨hacc', hst⟩ := h.store hacc (honly.post _) hassign hpage.2
    rw [fsView_fds] at hfree
    exact ⟨_, hacc', .opened honly.layout honly.live honly.cpus hopened,
      .entered fd _ hfree hopened hst⟩

/-- FS closes a descriptor. -/
theorem DeviceInv.close {fd : ℤ} (h : DeviceInv pool maps s)
    (hroom : ∀ d, (s.channelsOf d).length < maxChannels)
    (heffect : Fs.CloseEffect pm c fd (s.fsView files) fs')
    (hask : match fsAsks c (.close fd) (s.fsView files) fs' with
      | none => s₁ = s
      | some r => Savannah.pmStep s ⟨fsId, r⟩ s₁ ∧ Answers pm s₁) :
    (s₁.storeFds c fs').Accounted pool (maxChannels + 1) maps ∧
      ViewsStep ∅ maps maps s (s₁.storeFds c fs') ∧
      DeviceEffect files s (s₁.storeFds c fs') (.fs c (.close fd)) := by
  cases heffect with
  | refused hun hno =>
    have hasks : fsAsks c (.close fd) (s.fsView files) fs' = none :=
      if_neg fun hall => hno ⟨hall.1, hall.2.1, hall.2.2.1⟩
    rw [hasks] at hask
    obtain rfl : s₁ = s := hask
    rw [storeFds_unchanged hun.1]
    exact ⟨h.accounted, .refl maps _, .quiet (.refl _)⟩
  | cleared i hi hcpu hassign hchar =>
    subst hi
    rw [fsView_fds] at hassign
    by_cases htype : (s.descriptors c i).type = typeChar
    · have hasks : fsAsks c (.close i) (s.fsView files) fs' =
          some (.channelClose (s.descriptors c i).offset) := by
        have hlt := hassign.lt
        unfold fsAsks
        dsimp only
        rw [fsView_fds, if_pos ⟨by omega, hcpu, hassign.table, htype⟩]
      rw [hasks] at hask
      obtain ⟨hacc, t', rfl, honly, hopened, -, hunused⟩ := (h.accounted.channelClose (c := fsId)
        le_rfl h.machine fun d _ => by have := hroom d; omega).ok hask.1.2
      obtain ⟨hacc', hst⟩ := h.store hacc (honly.post _) hassign (by norm_num)
      refine ⟨hacc', .closed honly.layout honly.live honly.cpus fun o ho => ?_,
        .cleared i ?_ (fun _ => hunused) hst⟩
      · change o ∈ t'.openChannels at ho
        rw [hopened] at ho
        exact List.mem_of_mem_filter ho
      · change t'.openChannels = _
        simp only [hopened, htype, forall_const]
    · have hasks : fsAsks c (.close i) (s.fsView files) fs' = none := by
        unfold fsAsks
        dsimp only
        rw [fsView_fds, if_neg fun hall => htype hall.2.2.2]
      rw [hasks] at hask
      obtain rfl : s₁ = s := hask
      obtain ⟨hacc, hst⟩ := h.store h.accounted (.refl _) hassign (by norm_num)
      refine ⟨hacc, .closed (.refl _) rfl rfl fun _ ho => ho,
        .cleared i ?_ (fun hchar => absurd hchar htype) hst⟩
      change s₁.openChannels = _
      simp only [htype, false_implies, decide_true, List.filter_true]

/-- Every step in order keeps the invariant; what it does is an effect on the descriptors and the
channels and a step of the views. -/
theorem DeviceInv.step {e : DeviceEvent} (h : DeviceInv pool maps s) (hfiles : RegularFiles files)
    (hguard : DeviceOrder files s e) (hstep : deviceStep files s e t) :
    ∃ maps', DeviceInv pool maps' t ∧ ViewsStep e.loads maps maps' s t ∧
    DeviceEffect files s t e := by
  obtain ⟨hmach, hprocs⟩ := deviceStep_sound h.procs hstep
  suffices hnew : ∃ maps', t.Accounted pool (maxChannels + 1) maps' ∧
      ViewsStep e.loads maps maps' s t ∧ DeviceEffect files s t e by
    obtain ⟨maps', hacc, hviews, heff⟩ := hnew
    exact ⟨maps', ⟨hmach ▸ h.machine, hprocs, hacc, h.entries.effect h.accounted hacc hfiles heff⟩,
      hviews, heff⟩
  cases e with
  | pm e => exact h.pmStep hguard hstep.1 hstep.2
  | fs c req =>
    obtain ⟨hin, hroom⟩ := hguard
    obtain ⟨pm, fs', s₁, hrun, hask, rfl⟩ := hstep
    cases req with
    | «open» pathname flags => exact h.open hfiles hroom ((Fs.handle_open hin).ok hrun) hask
    | close fd => exact ⟨maps, h.close hroom ((Fs.handle_close hin).ok hrun) hask⟩
    | _ =>
      have hun := (Fs.handle_other hin nofun nofun).ok hrun
      rw [fsAsks_none (by rintro _ ⟨⟩) hun.2] at hask
      obtain rfl : s₁ = s := hask
      rw [storeFds_unchanged hun.1]
      exact ⟨maps, h.accounted, .refl maps _, .quiet (.refl _)⟩

/-- Every run in order keeps the invariant. -/
theorem DeviceInv.run {evs : List DeviceEvent} (h : DeviceInv pool maps s)
    (hfiles : RegularFiles files)
    (hrun : Run (orderedStep files) s evs t) :
    ∃ maps', DeviceInv pool maps' t := by
  refine hrun.invariant (I := fun t => ∃ maps', DeviceInv pool maps' t) ?_ ⟨maps, h⟩
  rintro s e t hstep ⟨maps, hinv⟩
  obtain ⟨maps', hinv', -⟩ := hinv.step hfiles hstep.1 hstep.2
  exact ⟨maps', hinv'⟩

/-- The invariant holds at boot. -/
theorem PmState.Fresh.deviceInv (h : s.Fresh pool) (maps : ℕ → View) : DeviceInv pool maps s := by
  refine ⟨h.machine, h.booted.sound, h.accounted _ _,
    ⟨fun c hc => ?_, fun c hc => ?_, fun o ho => ?_⟩⟩
  · rw [h.live] at hc
    exact absurd hc (Finset.notMem_empty c)
  · rw [h.live] at hc
    exact absurd hc (Finset.notMem_empty c)
  · rw [h.opened] at ho
    exact absurd ho List.not_mem_nil

end Runs

/-! ### The agreement in every run -/

section Agree

variable {pool c a d i : ℕ} {maps : ℕ → View} {files : List Fs.FileHeader} {s t : PmState}

/-- A channel is in the array of `d` if it is open and `d` is its second end. -/
theorem PmState.Accounted.registered_iff {B : ℕ} (h : s.Accounted pool B maps) :
    s.Registered d a ∧ a ≠ 0 ↔ a ∈ s.channelsOf d := by
  constructor
  · rintro ⟨⟨hne, j, hj, hword⟩, ha⟩
    exact (h.books.arrays.array d hne).mem_iff.mpr ⟨ha, j, hj, hword⟩
  · intro hmem
    have hne : (s.cpus d).vm.channels ≠ 0 := fun h0 => by
      rw [h.books.listed d h0] at hmem
      exact List.not_mem_nil hmem
    obtain ⟨ha, j, hj, hword⟩ := (h.books.arrays.array d hne).mem_iff.mp hmem
    exact ⟨⟨hne, j, hj, hword⟩, ha⟩

/-- `close_channel` tells the driver that belongs to the number of the descriptor. -/
theorem closeChannel_posts : wp (closeChannel c i) (fun _ t =>
    t.posted = s.posted ++ [⟨fsId, Fs.closeDriver i, channelCloseIpc, .result 0⟩])
    (fun _ _ => True) s := by
  unfold closeChannel
  rw [wp_bind, wp_get, wp_bind, wp_get]
  dsimp only
  refine wp_ite.mpr ⟨fun _ => trivial, fun _ => ?_⟩
  refine (((inferInstance : IsWithin (Same PmState.quiet) (localChannelClose _)).within s).mono
    (fun _ _ h => h) fun _ _ _ => trivial).bind fun _ t ht => ?_
  rw [wp_bind, wp_modify, wp_modify]
  have hposted : t.posted = s.posted := congrArg Control.posted ht
  change t.posted ++ _ = _
  rw [hposted]
  unfold Fs.closeDriver
  simp only [Nat.cast_eq_zero, Nat.cast_eq_one]

/-- The invariant says who agrees. -/
theorem DeviceInv.agree (h : DeviceInv pool maps s) : DevicesAgree files s := by
  intro c hc fd hfd htype
  obtain ⟨hopen, hdst⟩ := h.entries.opened c hc fd hfd htype
  have hbooks := h.accounted.books
  have hne : (s.descriptors c fd).offset ≠ 0 :=
    hbooks.account.channel_ne (List.mem_map_of_mem hopen)
  rw [← hdst] at hopen
  refine ⟨fun pm fs' hrun => ?_, fun t hrun => ?_, hopen, fun d => ?_⟩
  · rw [hdst]
    exact Fs.localCloseChar_sends.ok hrun
  · rw [hdst]
    exact closeChannel_posts.ok hrun
  · have hiff : s.Registered d (s.descriptors c fd).offset ↔
        (s.descriptors c fd).offset ∈ s.channelsOf d := by
      rw [← h.accounted.registered_iff]
      exact (and_iff_left hne).symm
    rw [hiff, mem_channelsOf]
    constructor
    · rintro ⟨o, ho, hend, haddr⟩
      rw [hbooks.account.channel_eq ho hopen haddr] at hend
      exact hend.symm
    · intro heq
      exact ⟨_, hopen, heq.symm, rfl⟩

/-- In every run in which no array gets full, PM, FS, the open channels and the arrays of the
drivers agree on the driver of every character device that a VM has open. -/
theorem devices_agree {s₀ : PmState} {evs : List DeviceEvent} (hfresh : s₀.Fresh pool)
    (hfiles : RegularFiles files)
    (hrun : Run (orderedStep files) s₀ evs s) :
    DevicesAgree files s := by
  obtain ⟨maps, hinv⟩ := (hfresh.deviceInv fun _ => ⟨[], []⟩).run hfiles hrun
  exact hinv.agree

/-- A VM opens the keyboard. -/
theorem DeviceInv.open_stdin {n : ℕ} (files : List Fs.FileHeader) (h : DeviceInv pool maps s)
    (hc : c ∈ s.live) (hdriver : isDriver c = false) (hfds : (s.cpus c).vm.fds ≠ 0)
    (hfree : (s.descriptors c 0).offset = 0) (hkbd : DriverReady s kbdId)
    (hroom : (s.channelsOf kbdId).length < maxChannels) (hfs : fsId < s.ncpus)
    (hres : s.Reserve pool (n + 9)) :
    ∃ t, deviceStep files s (.fs c (.open "stdin" 0)) t ∧ (t.descriptors c 0).type = typeChar ∧
      t.live = s.live ∧ t.cpus = s.cpus ∧ t.Reserve pool n ∧
      ∃ a, t.openChannels = s.openChannels ++ [⟨a, c, kbdId⟩] := by
  have hcpu : c ≤ maxCpus := by
    have hlt : c < s.ncpus := (h.accounted.live c hc).2.1
    exact (Nat.le_of_lt hlt).trans h.machine.ncpus_le
  obtain ⟨s₁, a, hs₁, honly, hopened, hleft⟩ := h.accounted.channel_returns (c := fsId)
    (Nat.le_succ _) hc h.machine hroom hkbd hres
  have hentry : ((s.fsView files).fds c 0).offset = 0 := by
    have hview := fsView_fds files s c 0
    rw [Nat.cast_zero] at hview
    rw [hview]
    exact hfree
  obtain ⟨fs', hfs', hassign, hch⟩ := Fs.handle_open_stdin ⟨a, 0⟩ 0 hdriver hcpu
    (decide_eq_true hfds) hentry
  set s₂ := s₁.post ⟨pmId, fsId, channelIpc, .channel a⟩ with hs₂
  have hasks : fsAsks c (.open "stdin" 0) (s.fsView files) fs' = some (.channel c kbdId) := by
    unfold fsAsks
    dsimp only
    rw [hch, List.drop_left]
    rfl
  refine ⟨s₂.storeFds c fs', ⟨⟨a, 0⟩, fs', s₂, hfs', ?_, rfl⟩, ?_, honly.live,
    honly.cpus, hleft.of_same rfl rfl, a, hopened⟩
  · rw [hasks]
    refine ⟨⟨hfs, hs₁⟩, ⟨pmId, fsId, channelIpc, .channel a⟩, ?_, Or.inl rfl⟩
    exact List.getLast?_concat
  · have hne : (s₂.cpus c).vm.fds ≠ 0 := by
      change (s₁.cpus c).vm.fds ≠ 0
      rw [honly.cpus]
      exact hfds
    rw [storeFds_self hne, hassign.fds, if_pos ⟨rfl, rfl⟩]

/-- A run of PM alone as a run of the system. -/
theorem Run.toDevices {evs : List PmEvent}
    (h : Run (guarded pmStep fun s e => e.request.OfVm ∧ DeviceOrder files s (.pm e)) s evs t) :
    Run (orderedStep files) s (evs.map .pm) t := by
  induction h with
  | nil s => exact .nil s
  | cons hstep _ ih => exact .cons ⟨hstep.1.2, hstep.1.1, hstep.2⟩ ih

/-- INIT forks the first VMs on the machine of `bootPm`, as a run of the system. -/
theorem bootPm_devices {k : ℕ} (hk : k ≤ 5) : ∃ m s, (bootPm m).Fresh 776224 ∧
    m.firstFreeAddr = 0x27E0000 ∧
    Run (orderedStep []) (bootPm m)
      (List.replicate k (.pm ⟨initId, .fork bootArgs⟩)) s ∧
    InitForked 776224 (maxChannels + 1) 200000 k (bootPm m) s := by
  obtain ⟨m, s, hfresh, hff, hforks, hforked⟩ := bootPm_forks hk
  refine ⟨m, s, hfresh, hff, ?_, hforked⟩
  rw [← List.map_replicate]
  refine Run.toDevices (hforks.mono ?_)
  rintro s e t ⟨⟨rfl, hroom⟩, hstep⟩
  exact ⟨⟨trivial, Or.inr rfl, hroom⟩, hstep⟩

theorem regularFiles_nil : RegularFiles [] := fun _ hmem => absurd hmem List.not_mem_nil

/-- INIT forks the drivers and one more VM, which opens "stdin". -/
def stdinEvents : List DeviceEvent :=
  List.replicate 4 (.pm ⟨initId, .fork bootArgs⟩) ++ [.fs 6 (.open "stdin" 0)]

/-- The state after that. -/
theorem bootPm_stdin : ∃ m s, (bootPm m).Fresh 776224 ∧
    Run (orderedStep []) (bootPm m) stdinEvents s ∧
    6 ∈ s.live ∧ (s.descriptors 6 0).type = typeChar ∧ s.Reserve 776224 199991 ∧ s.ncpus = 8 ∧
    m.firstFreeAddr = 0x27E0000 ∧ ∃ a, s.openChannels = [⟨a, 6, kbdId⟩] ∧
      (s.cpus 6).vm.bss.size = 0x1000 := by
  obtain ⟨m, s, hfresh, hff, hrun, hforked⟩ := bootPm_devices (k := 4) (by decide)
  obtain ⟨maps, hinv⟩ := (hfresh.deviceInv fun _ => ⟨[], []⟩).run regularFiles_nil hrun
  have hlive : ∀ j, j ∈ s.live ↔ 3 ≤ j ∧ j < 7 := hforked.live
  have hncpus : s.ncpus = 8 := congrArg Machine.ncpus hforked.machine
  have h6 : 6 ∈ s.live := (hlive 6).mpr (by decide)
  have h3 : kbdId ∈ s.live := (hlive 3).mpr (by decide)
  have hnone : ∀ d, s.channelsOf d = [] := by
    intro d
    unfold PmState.channelsOf
    rw [hforked.opened]
    rfl
  have hvm := hforked.child 6 h6
  have hkbd := hforked.child kbdId h3
  have hbss : (s.cpus 6).vm.bss.size = 0x1000 := hvm.copies.bss.2
  have hdriver : isDriver (s.cpus kbdId).cpuid = true := by
    rw [hinv.machine.cpuid_eq (by rw [hncpus]; decide)]
    decide
  obtain ⟨t, hstep, htype, hlive', hcpus, hleft, a, hopened⟩ := hinv.open_stdin [] (n := 199991) h6
    (by decide) hvm.pages.2 (by rw [hvm.descriptors 0 (by decide)])
    ⟨by decide, hkbd.adopted.hasVm, hdriver, hkbd.pages.1⟩ (by rw [hnone]; decide)
    (by rw [hncpus]; decide) hforked.reserve
  have hguard : DeviceOrder [] s (.fs 6 (.open "stdin" 0)) := by
    refine ⟨fun hjunk => absurd hjunk (by decide), fun d => ?_⟩
    rw [hnone]
    decide
  have hmach := (deviceStep_sound hinv.procs hstep).1
  rw [hforked.opened] at hopened
  exact ⟨m, t, hfresh, hrun.snoc ⟨hguard, hstep⟩, by rw [hlive']; exact h6, htype, hleft,
    (congrArg Machine.ncpus hmach).trans hncpus, hff, a, hopened, by rw [hcpus]; exact hbss⟩

theorem devices_agree_stdin : ∃ (m : MemoryState) (s : PmState),
    Run (orderedStep []) (bootPm m) stdinEvents s ∧
    6 ∈ s.live ∧ (s.descriptors 6 0).type = typeChar ∧ DevicesAgree [] s := by
  obtain ⟨m, s, hfresh, hrun, h6, htype, -⟩ := bootPm_stdin
  exact ⟨m, s, hrun, h6, htype, devices_agree hfresh regularFiles_nil hrun⟩

end Agree

end Savannah
