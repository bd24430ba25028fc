import Savannah.Foundation.Run
import Savannah.Fs.Server

/-!
# The descriptor tables of the file server

What a request does to the descriptor tables.  A request touches only the table of its sender
(`Touches`); an open takes a free entry, the lowest one where there is a choice, and changes no
other (`OpenSpec`); a close frees the entry it is given (`CloseSpec`).  What is put there say
`OpenEffect` and `CloseEffect`: a character device gets the channel that PM has answered with and
the driver that belongs to the number of the entry.

The handlers compare the index with `MAX_FD` in different ways, and the search of `local_open_char`
for "junkfd" is not checked, so that these properties need the condition `FsRequest.InBounds`: an
index outside the table reaches the entry behind it (`READ`, `WRITE`, `CLOSE`) or any entry in front
of it (`CLOSE`).
-/

namespace Savannah.Fs

open Foundation

/-! ### The properties -/

/-- From `s` to `s'` only entries of the table of `sender` were read or written. -/
def Touches (sender : ℕ) (s s' : FsState) : Prop :=
  ∃ l, s'.accesses = s.accesses ++ l ∧ ∀ x ∈ l, x.1 = sender ∧ 0 ≤ x.2 ∧ x.2 < maxFd

instance (sender : ℕ) : Std.Refl (Touches sender) :=
  ⟨fun _ => ⟨[], (List.append_nil _).symm, fun _ h => absurd h List.not_mem_nil⟩⟩

instance (sender : ℕ) : IsTrans FsState (Touches sender) := by
  refine ⟨?_⟩
  rintro s₁ s₂ s₃ ⟨l, hl, hl'⟩ ⟨k, hk, hk'⟩
  refine ⟨l ++ k, by rw [hk, hl, List.append_assoc], fun x hx => ?_⟩
  rcases List.mem_append.mp hx with hx | hx
  · exact hl' x hx
  · exact hk' x hx

/-- The tables, the channels and the file system are the same. -/
structure SameTables (s s' : FsState) : Prop where
  fds : s'.fds = s.fds
  channels : s'.channels = s.channels
  hasFds : s'.hasFds = s.hasFds
  files : s'.files = s.files

/-- A step that only looks at the table of `sender`. -/
def Looks (sender : ℕ) (s s' : FsState) : Prop := Touches sender s s' ∧ SameTables s s'

instance (sender : ℕ) : Std.Refl (Looks sender) :=
  ⟨fun s => ⟨refl_of (Touches sender) s, rfl, rfl, rfl, rfl⟩⟩

instance (sender : ℕ) : IsTrans FsState (Looks sender) :=
  ⟨fun _ _ _ h h' => ⟨trans_of (Touches sender) h.1 h'.1, h'.2.fds.trans h.2.fds,
    h'.2.channels.trans h.2.channels, h'.2.hasFds.trans h.2.hasFds, h'.2.files.trans h.2.files⟩⟩

/-- The entry `fd` of `sender` was free, is the one that the path calls for, and is the only one
that changed. -/
structure Opened (pathname : String) (sender : ℕ) (fd : ℤ) (s s' : FsState) : Prop where
  inTable : 0 ≤ fd ∧ fd < maxFd
  free : (s.fds sender fd).offset = 0
  stdin : pathname = "stdin" → fd = 0
  stdout : pathname = "stdout" → fd = 1
  lowest : pathname ≠ "stdin" → pathname ≠ "stdout" →
    2 ≤ fd ∧ ∀ i, 2 ≤ i → i < fd → (s.fds sender i).offset ≠ 0
  other : ∀ c i, ¬ (c = sender ∧ i = fd) → s'.fds c i = s.fds c i

/-- The outcome of an open: a refusal that changes neither tables nor channels, or a new
descriptor. -/
def OpenSpec (pathname : String) (sender : ℕ) (s : FsState) (r : OpenReply) (s' : FsState) : Prop :=
  (r.fd = -1 ∧ s'.fds = s.fds ∧ s'.channels = s.channels) ∨ Opened pathname sender r.fd s s'

/-- The outcome of a close: a refusal, or the entry is free and the other entries are the same. -/
def CloseSpec (fd : ℤ) (sender : ℕ) (s : FsState) (r : ℤ) (s' : FsState) : Prop :=
  if fd < maxFd ∧ sender ≤ maxCpus ∧ s.hasFds sender then
    r = 0 ∧ (s'.fds sender fd).offset = 0 ∧ (s'.fds sender fd).type = 0 ∧
      ∀ c i, ¬ (c = sender ∧ i = fd) → s'.fds c i = s.fds c i
  else
    r = -1 ∧ s'.fds = s.fds ∧ s'.channels = s.channels

/-- The driver that is told of the closing of a descriptor. -/
def closeDriver (fd : ℤ) : ℕ := if fd = 0 then kbdId else if fd = 1 then consoleId else junkId

/-- FS has assigned `f` to the entry `fd` of `sender`, and nothing else. -/
structure Assigned (sender fd : ℕ) (f : FileDescriptor) (s s' : FsState) : Prop where
  lt : fd < maxFd
  table : s.hasFds sender = true
  fds : ∀ c i, s'.fds c i = if c = sender ∧ i = fd then f else s.fds c i

/-- The tables and the channels are the same. -/
def Unchanged (s s' : FsState) : Prop := s'.fds = s.fds ∧ s'.channels = s.channels

/-- The outcome of an open: nothing, a character device, or a file. -/
inductive OpenEffect (pm : PmAnswer) (sender : ℕ) (s s' : FsState) : Prop
  | refused (h : Unchanged s s')
  | char (fd : ℕ) (hfree : (s.fds sender fd).offset = 0)
      (h : Assigned sender fd ⟨typeChar, 0, closeDriver fd, pm.channel⟩ s s')
      (hch : s'.channels = s.channels ++ [⟨pm.channel, sender, closeDriver fd⟩])
  | file (fd : ℕ) (header : FileHeader) (hmem : header ∈ s.files)
      (hname : header.name ≠ "stdin" ∧ header.name ≠ "stdout")
      (hfree : (s.fds sender fd).offset = 0)
      (h : Assigned sender fd ⟨header.type, header.length, 0, header.offset⟩ s s')
      (hch : s'.channels = s.channels)

/-- The outcome of a close: nothing, or the entry is cleared; the channel of a character device goes
back to PM. -/
inductive CloseEffect (pm : PmAnswer) (sender : ℕ) (fd : ℤ) (s s' : FsState) : Prop
  | refused (h : Unchanged s s') (hno : ¬ (fd ≤ maxFd ∧ sender ≤ maxCpus ∧ s.hasFds sender = true))
  | cleared (i : ℕ) (hi : fd = i) (hcpu : sender ≤ maxCpus)
      (h : Assigned sender i { s.fds sender i with type := 0, length := 0, offset := 0 } s s')
      (hchar : (s.fds sender i).type = typeChar → pm.close = 0)

/-- The request does not make FS leave the table of the sender: no index `MAX_FD`, no negative index
in a close, and for "junkfd" a free entry. -/
def FsRequest.InBounds (s : FsState) (sender : ℕ) : FsRequest → Prop
  | .open pathname _ => pathname = "junkfd" →
      ∃ i : ℕ, 2 ≤ i ∧ i < maxFd ∧ (s.fds sender i).offset = 0
  | .read fd _ => fd ≠ maxFd
  | .write fd _ _ => fd ≠ maxFd
  | .close fd => 0 ≤ fd ∧ fd ≠ maxFd
  | .load _ => True

/-- PM answers with a channel and closes the channels it is given. -/
def PmAnswer.Granted (pm : PmAnswer) : Prop := pm.channel ≠ 0 ∧ pm.close = 0

/-- An entry of a character device has a channel, and the files lie behind the headers. -/
structure FsState.Sound (s : FsState) : Prop where
  channel : ∀ c i, (s.fds c i).type = typeChar → (s.fds c i).offset ≠ 0
  files : ∀ h ∈ s.files, h.offset ≠ 0

/-! ### Looking at the table -/

section Look

variable {sender : ℕ} {fd count : ℤ} {s : FsState}

/-- Reading a descriptor. -/
theorem readFd_spec {Q : FileDescriptor → FsState → Prop} {E : Stop FsPanic → FsState → Prop}
    (hfd : 0 ≤ fd ∧ fd < maxFd) (h : ∀ s', Looks sender s s' → Q (s.fds sender fd) s') :
    wp (readFd sender fd) Q E s := by
  refine h _ ⟨⟨[(sender, fd)], rfl, fun x hx => ?_⟩, rfl, rfl, rfl, rfl⟩
  rw [List.mem_singleton.mp hx]
  exact ⟨rfl, hfd⟩

theorem readFd_looks (hfd : 0 ≤ fd ∧ fd < maxFd) : Within (Looks sender) (readFd sender fd) :=
  fun _ => readFd_spec hfd fun _ h => h

/-- Finding the table. -/
theorem getFds_spec {Q : Bool → FsState → Prop} {E : Stop FsPanic → FsState → Prop}
    (h : Q (decide (sender ≤ maxCpus) && s.hasFds sender) s) : wp (getFds sender) Q E s := by
  unfold getFds
  refine wp_ite.mpr ⟨fun hlt => ?_, fun hle => ?_⟩
  · rw [decide_eq_false (by omega), Bool.false_and] at h
    exact h
  · rw [decide_eq_true (by omega), Bool.true_and] at h
    exact h

theorem getFds_looks : Within (Looks sender) (getFds sender) :=
  fun s => getFds_spec (refl_of (Looks sender) s)

theorem send_looks (m : FsPost) : Within (Looks sender) (send m) :=
  Within.modify fun _ => ⟨⟨[], (List.append_nil _).symm, fun _ h => absurd h List.not_mem_nil⟩,
    rfl, rfl, rfl, rfl⟩

/-- `get_type` looks at the entry, or finds the index out of range. -/
theorem getType_looks (hfd : fd ≠ maxFd) : Within (Looks sender) (getType fd sender) := by
  unfold getType
  by_cases hout : fd > maxFd ∨ fd < 0
  · rw [if_pos hout]
    exact Within.pure _
  · rw [if_neg hout]
    refine getFds_looks.bind fun _ => Within.ite (Within.pure _) ?_
    refine (readFd_looks ⟨by omega, by omega⟩).bind fun _ => ?_
    exact Within.ite (Within.pure _) (Within.pure _)

theorem localReadChar_looks (hfd : 0 ≤ fd ∧ fd < maxFd) :
    Within (Looks sender) (localReadChar fd count sender) := by
  unfold localReadChar
  refine Within.ite (Within.throw _) (Within.ite (Within.throw _) ?_)
  refine getFds_looks.bind fun _ => Within.ite (Within.pure _) ?_
  refine (readFd_looks hfd).bind fun _ => Within.ite (Within.throw _) ?_
  exact (send_looks _).bind fun _ => Within.pure _

theorem localReadFile_looks (hfd : 0 ≤ fd ∧ fd < maxFd) :
    Within (Looks sender) (localReadFile fd count sender) := by
  unfold localReadFile
  refine getFds_looks.bind fun _ => Within.ite (Within.pure _) ?_
  exact (readFd_looks hfd).bind fun _ => Within.pure _

/-- `local_read` assigns nothing. -/
theorem localRead_looks (hfd : fd ≠ maxFd) :
    Within (Looks sender) (localRead fd count sender) := by
  unfold localRead
  by_cases hout : fd > maxFd ∨ fd < 0
  · -- `get_type` finds the index out of range, and nothing else is looked at
    unfold getType
    rw [if_pos hout]
    intro s
    rw [wp_bind, wp_pure, if_pos (by norm_num)]
    exact refl_of (Looks sender) s
  · have hin : 0 ≤ fd ∧ fd < maxFd := ⟨by omega, by omega⟩
    refine (getType_looks hfd).bind fun _ => Within.ite (Within.pure _) ?_
    refine getFds_looks.bind fun _ => Within.ite (Within.pure _) ?_
    refine (readFd_looks hin).bind fun _ => Within.ite (localReadChar_looks hin) ?_
    exact Within.ite (localReadFile_looks hin) (Within.throw _)

/-- `local_write` assigns nothing. -/
theorem localWrite_looks {buf : ℕ} (hfd : fd ≠ maxFd) :
    Within (Looks sender) (localWrite fd buf count sender) := by
  unfold localWrite
  refine (getType_looks hfd).bind fun _ => ?_
  exact Within.ite ((send_looks _).bind fun _ => send_looks _) (send_looks _)

/-- The search ends at the lowest free entry, or behind the last one. -/
theorem findFree_spec {E : Stop FsPanic → FsState → Prop} {n i : ℕ} (hle : i + n ≤ maxFd) :
    wp (findFree sender n i) (fun j s' => Looks sender s s' ∧ i ≤ j ∧ j ≤ i + n ∧
      (∀ k : ℕ, i ≤ k → k < j → (s.fds sender k).offset ≠ 0) ∧
      (j < i + n → (s.fds sender j).offset = 0)) E s := by
  induction n generalizing i s with
  | zero =>
    exact ⟨refl_of (Looks sender) s, le_rfl, le_rfl, fun k h h' => by omega, fun h => by omega⟩
  | succ n ih =>
    unfold findFree
    rw [wp_bind]
    refine readFd_spec ⟨by omega, by omega⟩ fun s₁ h₁ => wp_ite.mpr
      ⟨fun hfree => ?_, fun hused => ?_⟩
    · exact ⟨h₁, le_rfl, by omega, fun k h h' => by omega, fun _ => hfree⟩
    · refine (ih (i := i + 1) (s := s₁) (by omega)).mono ?_ fun _ _ h => h
      rintro j s₂ ⟨h₂, hij, hjn, hall, hend⟩
      rw [h₁.2.fds] at hall hend
      refine ⟨trans_of (Looks sender) h₁ h₂, by omega, by omega, fun k hk hkj => ?_, fun h => ?_⟩
      · rcases Nat.eq_or_lt_of_le hk with rfl | hk
        · exact hused
        · exact hall k hk hkj
      · exact hend (by omega)

end Look

/-! ### Opening and closing -/

section Change

variable {sender : ℕ} {fd : ℤ} {pathname : String} {flags : ℤ} {pm : PmAnswer} {s s' : FsState}
  {E : Stop FsPanic → FsState → Prop}

/-- The entry `fd` of `sender` was assigned `f`. -/
structure Written (sender : ℕ) (fd : ℤ) (f : FileDescriptor) (s s' : FsState) : Prop where
  touches : Touches sender s s'
  channels : s'.channels = s.channels
  files : s'.files = s.files
  fds : ∀ c i, s'.fds c i = if c = sender ∧ i = fd then f else s.fds c i

/-- One descriptor is assigned. -/
theorem writeFd_spec {f : FileDescriptor → FileDescriptor} (hfd : 0 ≤ fd ∧ fd < maxFd) :
    wp (writeFd sender fd f) (fun _ s' => Written sender fd (f (s.fds sender fd)) s s') E s := by
  refine ⟨⟨[(sender, fd)], rfl, fun x hx => ?_⟩, rfl, rfl, fun c i => ?_⟩
  · rw [List.mem_singleton.mp hx]
    exact ⟨rfl, hfd⟩
  · change (if c = sender ∧ i = fd then f (s.fds c i) else s.fds c i) = _
    by_cases h : c = sender ∧ i = fd
    · rw [if_pos h, if_pos h, h.1, h.2]
    · rw [if_neg h, if_neg h]

/-- Looking at the table keeps the state sound. -/
theorem FsState.Sound.looks (h : s.Sound) (hlook : Looks sender s s') : s'.Sound := by
  refine ⟨fun c i => ?_, ?_⟩
  · rw [hlook.2.fds]
    exact h.channel c i
  · rw [hlook.2.files]
    exact h.files

/-- Changing an entry keeps the state sound if the entry is. -/
theorem FsState.Sound.update {f : FileDescriptor} (h : s.Sound) (hfiles : s'.files = s.files)
    (hentry : f.type = typeChar → f.offset ≠ 0)
    (hfds : ∀ c i, s'.fds c i = if c = sender ∧ i = fd then f else s.fds c i) : s'.Sound := by
  refine ⟨fun c i => ?_, ?_⟩
  · rw [hfds]
    split
    · exact hentry
    · exact h.channel c i
  · rw [hfiles]
    exact h.files

/-- What an open does, with what the next request relies on. -/
structure OpenPost (pathname : String) (sender : ℕ) (pm : PmAnswer) (s : FsState) (r : OpenReply)
    (s' : FsState) : Prop where
  touches : Touches sender s s'
  spec : OpenSpec pathname sender s r s'
  sound : pm.Granted → s.Sound → s'.Sound
  effect : OpenEffect pm sender s s'

theorem Looks.unchanged (h : Looks sender s s') : Unchanged s s' := ⟨h.2.fds, h.2.channels⟩

/-- An `open` that fails. -/
theorem openPost_failed (h : Looks sender s s') : OpenPost pathname sender pm s openFailed s' :=
  ⟨h.1, Or.inl ⟨rfl, h.2.fds, h.2.channels⟩, fun _ hs => hs.looks h, .refused h.unchanged⟩

/-- The entry of a character device is the one that its name calls for, and the driver is the one
that belongs to its number. -/
theorem charDevice_spec
    (hname : pathname = "stdin" ∨ pathname = "stdout" ∨ pathname = "junkfd")
    (hfree : pathname = "junkfd" → ∃ i : ℕ, 2 ≤ i ∧ i < maxFd ∧ (s.fds sender i).offset = 0) :
    wp (charDevice pathname sender) (fun r s' => Looks sender s s' ∧
      ∃ i : ℕ, i < maxFd ∧ r = (↑i, closeDriver i) ∧
      (pathname = "stdin" → i = 0) ∧ (pathname = "stdout" → i = 1) ∧
      (pathname ≠ "stdin" → pathname ≠ "stdout" →
        2 ≤ i ∧ ∀ k : ℕ, 2 ≤ k → k < i → (s.fds sender k).offset ≠ 0)) E s := by
  have hrefl := refl_of (Looks sender) s
  rcases hname with rfl | rfl | rfl
  · exact ⟨hrefl, 0, by decide, rfl, fun _ => rfl, fun h => absurd h (by decide),
      fun h => absurd rfl h⟩
  · exact ⟨hrefl, 1, by decide, rfl, fun h => absurd h (by decide), fun _ => rfl,
      fun _ h => absurd rfl h⟩
  · obtain ⟨i, hi, hlt, hoff⟩ := hfree rfl
    unfold charDevice
    rw [if_neg (by decide), if_neg (by decide), if_pos rfl]
    refine (findFree_spec (by decide)).bind ?_
    rintro j s₁ ⟨h₁, hij, -, hall, -⟩
    -- the search cannot pass the free entry
    have hji : j ≤ i := by
      by_contra hgt
      exact hall i hi (by omega) hoff
    refine ⟨h₁, j, by omega, ?_, fun h => absurd h (by decide), fun h => absurd h (by decide),
      fun _ _ => ⟨hij, hall⟩⟩
    rw [closeDriver, if_neg (by omega), if_neg (by omega)]

/-- Assigning a free entry completes an open. -/
theorem openPost_write {i : ℕ} {f : FileDescriptor} {r : OpenReply} {s₁ : FsState}
    (hlook : Touches sender s s₁) (hfds : s₁.fds = s.fds) (hfiles : s₁.files = s.files)
    (htable : ¬ (!(decide (sender ≤ maxCpus) && s.hasFds sender)) = true)
    (hf : pm.Granted → s.Sound → f.type = typeChar → f.offset ≠ 0) (hr : r.fd = i) (hi : i < maxFd)
    (hfree : (s.fds sender i).offset = 0)
    (hstdin : pathname = "stdin" → i = 0) (hstdout : pathname = "stdout" → i = 1)
    (hlow : pathname ≠ "stdin" → pathname ≠ "stdout" →
      2 ≤ i ∧ ∀ k : ℕ, 2 ≤ k → k < i → (s.fds sender k).offset ≠ 0)
    (heffect : ∀ s', Assigned sender i f s s' → s'.channels = s₁.channels →
      OpenEffect pm sender s s') :
    wp (writeFd sender i fun _ => f) (fun _ s' => OpenPost pathname sender pm s r s') E s₁ := by
  refine (writeFd_spec ⟨by omega, by omega⟩).mono ?_ fun _ _ h => h
  rintro - s' ⟨htouch, hch, hfiles', hall⟩
  rw [hfds] at hall
  simp only [Bool.not_eq_true', Bool.not_eq_false, Bool.and_eq_true] at htable
  refine ⟨trans_of (Touches sender) hlook htouch, Or.inr ?_,
    fun hpm hs => hs.update (hfiles'.trans hfiles) (hf hpm hs) hall,
    heffect s' ⟨hi, htable.2, hall⟩ hch⟩
  rw [hr]
  refine ⟨⟨by omega, by omega⟩, hfree, fun h => by rw [hstdin h]; rfl,
    fun h => by rw [hstdout h]; rfl,
    fun h h' => ⟨by have := (hlow h h').1; omega, fun k hk hki => ?_⟩, fun c k hne => ?_⟩
  · have := (hlow h h').2 k.toNat (by omega) (by omega)
    rwa [Int.toNat_of_nonneg (by omega)] at this
  · rw [hall, if_neg hne]

/-- `local_open_char` meets its specification. -/
theorem localOpenChar_spec
    (hname : pathname = "stdin" ∨ pathname = "stdout" ∨ pathname = "junkfd")
    (hfree : pathname = "junkfd" → ∃ i : ℕ, 2 ≤ i ∧ i < maxFd ∧ (s.fds sender i).offset = 0) :
    wp (localOpenChar pathname sender pm) (OpenPost pathname sender pm s) E s := by
  have hrefl := refl_of (Looks sender) s
  unfold localOpenChar
  refine wp_ite.mpr ⟨fun _ => openPost_failed hrefl, fun _ => ?_⟩
  rw [wp_bind]
  refine getFds_spec (wp_ite.mpr ⟨fun _ => openPost_failed hrefl, fun hyes => ?_⟩)
  refine (charDevice_spec hname hfree).bind ?_
  rintro - s₁ ⟨h₁, i, hi, rfl, hstdin, hstdout, hlow⟩
  rw [wp_bind]
  refine readFd_spec ⟨by omega, by omega⟩ fun s₂ h₂ => ?_
  have h₁₂ := trans_of (Looks sender) h₁ h₂
  refine wp_ite.mpr ⟨fun _ => openPost_failed h₁₂, fun hoff => ?_⟩
  rw [wp_bind, wp_modify, wp_bind]
  rw [not_not, h₁.2.fds] at hoff
  refine openPost_write h₁₂.1 h₁₂.2.fds h₁₂.2.files hyes (fun hpm _ _ => hpm.1) rfl hi hoff hstdin
    hstdout hlow fun s' h' hch => .char i hoff h' ?_
  rw [hch, h₁₂.2.channels]

/-- `local_open` meets its specification. -/
theorem localOpen_spec
    (hfree : pathname = "junkfd" → ∃ i : ℕ, 2 ≤ i ∧ i < maxFd ∧ (s.fds sender i).offset = 0) :
    wp (localOpen pathname flags sender pm) (OpenPost pathname sender pm s) E s := by
  have hrefl := refl_of (Looks sender) s
  unfold localOpen
  refine wp_ite.mpr ⟨fun hname => localOpenChar_spec hname hfree, fun hname => ?_⟩
  rw [wp_bind]
  refine getFds_spec (wp_ite.mpr ⟨fun _ => openPost_failed hrefl, fun hyes => ?_⟩)
  refine (findFree_spec (by decide)).bind ?_
  rintro j s₁ ⟨h₁, hj, hj', hall, hend⟩
  refine wp_ite.mpr ⟨fun _ => openPost_failed h₁, fun hlt => ?_⟩
  refine wp_ite.mpr ⟨fun _ => openPost_failed h₁, fun _ => ?_⟩
  rw [wp_bind, wp_get]
  cases hfind : s₁.files.find? fun h => h.name = pathname with
  | none => exact openPost_failed h₁
  | some h =>
    have hmem : h ∈ s.files := by
      rw [← h₁.2.files]
      exact List.mem_of_find?_eq_some hfind
    have hfound := List.find?_some hfind
    have hpath : h.name = pathname := of_decide_eq_true hfound
    change wp (writeFd sender j _ >>= _) _ E s₁
    rw [wp_bind]
    refine openPost_write h₁.1 h₁.2.fds h₁.2.files hyes (fun _ hs _ => hs.files h hmem) rfl
      (by omega) (hend (by omega)) (fun hn => absurd (Or.inl hn) hname)
      (fun hn => absurd (Or.inr (Or.inl hn)) hname) (fun _ _ => ⟨hj, hall⟩) fun s' h' hch => ?_
    refine .file j h hmem ?_ (hend (by omega)) h' (hch.trans h₁.2.channels)
    rw [hpath]
    exact ⟨fun heq => hname (Or.inl heq), fun heq => hname (Or.inr (Or.inl heq))⟩

/-- What a close does, with what the next request relies on. -/
structure ClosePost (fd : ℤ) (sender : ℕ) (pm : PmAnswer) (s : FsState) (r : ℤ) (s' : FsState) :
    Prop where
  touches : Touches sender s s'
  spec : CloseSpec fd sender s r s'
  sound : s.Sound → s'.Sound
  effect : CloseEffect pm sender fd s s'

/-- A `close` that fails. -/
theorem closePost_failed (hno : ¬ (fd < maxFd ∧ sender ≤ maxCpus ∧ s.hasFds sender))
    (hfd : fd ≠ maxFd) : ClosePost fd sender pm s (-1) s := by
  refine ⟨refl_of (Touches sender) s, ?_, id, .refused ⟨rfl, rfl⟩ fun h => ?_⟩
  · rw [CloseSpec, if_neg hno]
    exact ⟨rfl, rfl, rfl⟩
  · exact hno ⟨lt_of_le_of_ne h.1 hfd, h.2⟩

/-- Clearing the entry completes a close. -/
theorem closePost_write {i : ℕ} {s₁ : FsState} (hi : i < maxFd) (hcpu : sender ≤ maxCpus)
    (htable : s.hasFds sender = true) (htouch : Touches sender s s₁) (hfiles : s₁.files = s.files)
    (hentry : { s₁.fds sender i with type := 0, length := 0, offset := 0 } =
      { s.fds sender i with type := 0, length := 0, offset := 0 })
    (hother : ∀ c k, ¬ (c = sender ∧ k = (i : ℤ)) → s₁.fds c k = s.fds c k)
    (hchar : (s.fds sender i).type = typeChar → pm.close = 0) :
    wp (do
      writeFd sender i fun f => { f with type := 0, length := 0, offset := 0 }
      return (0 : ℤ)) (ClosePost i sender pm s) E s₁ := by
  refine (writeFd_spec ⟨by omega, by omega⟩).bind ?_
  rintro - s₂ ⟨htouch₂, -, hfiles₂, hfds⟩
  have hall : ∀ c k, s₂.fds c k = if c = sender ∧ k = (i : ℤ) then
      { s.fds sender i with type := 0, length := 0, offset := 0 } else s.fds c k := fun c k => by
    rw [hfds, hentry]
    split
    · rfl
    · rename_i hne
      exact hother c k hne
  refine ⟨trans_of (Touches sender) htouch htouch₂, ?_, fun hs => hs.update (hfiles₂.trans hfiles)
    (fun htype => absurd htype (Nat.succ_ne_zero 1).symm) hall,
    .cleared i rfl hcpu ⟨hi, htable, hall⟩ hchar⟩
  rw [CloseSpec, if_pos ⟨by omega, hcpu, htable⟩, hall, if_pos ⟨rfl, rfl⟩]
  exact ⟨rfl, rfl, rfl, fun c k hne => by rw [hall, if_neg hne]⟩

/-- Closing a descriptor.  FS stops only at a character device. -/
theorem localClose_spec (hfd : 0 ≤ fd ∧ fd ≠ maxFd)
    (hstop : ¬ (s.Sound ∧ pm.Granted) → ∀ q s', E q s') :
    wp (localClose fd sender pm) (ClosePost fd sender pm s) E s := by
  unfold localClose
  refine wp_ite.mpr ⟨fun hgt => closePost_failed (fun h => by omega) hfd.2, fun hle => ?_⟩
  rw [wp_bind]
  refine getFds_spec (wp_ite.mpr ⟨fun hno => closePost_failed (fun h => ?_) hfd.2, fun hyes => ?_⟩)
  · simp [h.2.1, h.2.2] at hno
  simp only [Bool.not_eq_true', Bool.not_eq_false, Bool.and_eq_true, decide_eq_true_eq] at hyes
  obtain ⟨i, rfl⟩ : ∃ i : ℕ, fd = i := ⟨fd.toNat, by omega⟩
  have hi : i < maxFd := by omega
  have hin : 0 ≤ (i : ℤ) ∧ (i : ℤ) < maxFd := ⟨by omega, by omega⟩
  rw [wp_bind]
  refine readFd_spec hin fun s₁ h₁ => wp_ite.mpr ⟨fun htype => ?_, fun htype => ?_⟩
  · unfold localCloseChar
    rw [wp_bind, wp_bind]
    refine readFd_spec hin fun s₂ h₂ => ?_
    have h₁₂ := trans_of (Looks sender) h₁ h₂
    refine wp_ite.mpr ⟨fun hoff => hstop (fun h => ?_) _ _, fun _ => ?_⟩
    · rw [h₁.2.fds] at hoff
      exact h.1.channel _ _ htype hoff
    refine wp_ite.mpr ⟨fun hclose => hstop (fun h => hclose h.2.2) _ _, fun hclose => ?_⟩
    rw [wp_bind, wp_modify, wp_bind]
    refine (writeFd_spec hin).mono ?_ fun _ _ h => h
    rintro - s₃ ⟨htouch, -, hfiles, hfds⟩
    have hfds' : ∀ c k, s₃.fds c k = if c = sender ∧ k = (i : ℤ) then
        { s.fds sender i with offset := 0 } else s.fds c k := fun c k => by
      rw [hfds, ← h₁₂.2.fds]
    refine closePost_write (E := E) hi hyes.1 hyes.2 (trans_of (Touches sender) h₁₂.1 htouch)
      (hfiles.trans h₁₂.2.files) ?_ (fun c k hne => ?_) fun _ => not_not.mp hclose
    · rw [hfds', if_pos ⟨rfl, rfl⟩]
    · rw [hfds', if_neg hne]
  · refine closePost_write hi hyes.1 hyes.2 h₁.1 h₁.2.files (by rw [h₁.2.fds])
      (fun c k _ => by rw [h₁.2.fds]) fun hchar => absurd hchar htype

end Change

/-! ### Requests -/

section Requests

variable {sender : ℕ} {pm : PmAnswer} {req : FsRequest} {s : FsState}

/-- Requests other than opening and closing only look at the table. -/
theorem handle_looks (hin : req.InBounds s sender)
    (hopen : ∀ pathname flags, req ≠ .open pathname flags) (hclose : ∀ fd, req ≠ .close fd) :
    wp (handle sender pm req) (fun _ s' => Looks sender s s')
    (fun _ s' => Looks sender s s') s := by
  suffices hx : Within (Looks sender) (handle sender pm req) from hx s
  cases req with
  | «open» pathname flags => exact absurd rfl (hopen pathname flags)
  | close fd => exact absurd rfl (hclose fd)
  | read fd count =>
    exact (localRead_looks hin).bind fun _ => (getType_looks hin).bind fun _ =>
      Within.ite (send_looks _) (Within.pure _)
  | write fd buf count => exact localWrite_looks hin
  | load path =>
    refine Within.ite (Within.bind ?_ fun _ => send_looks _)
      ((Within.pure _).bind fun _ => send_looks _)
    unfold localLoad
    refine Within.get.bind fun s => ?_
    split <;> exact Within.pure _

/-- A request touches only the table of its sender and keeps the state sound. -/
theorem handle_spec (hs : s.Sound) (hpm : pm.Granted) (hreq : req.InBounds s sender) :
    wp (handle sender pm req) (fun _ s' => Touches sender s s' ∧ s'.Sound)
      (fun _ s' => Touches sender s s') s := by
  cases req with
  | «open» pathname flags =>
    refine wp_ite.mpr ⟨fun _ => ?_, fun _ => ?_⟩
    · exact (send_looks _ s).mono (fun _ _ h => ⟨h.1, hs.looks h⟩) fun _ _ h => h.1
    refine (localOpen_spec hreq).bind fun r s₁ h₁ => ?_
    exact ⟨h₁.touches, (h₁.sound hpm hs).1, (h₁.sound hpm hs).2⟩
  | close fd =>
    refine (localClose_spec hreq fun hno => absurd ⟨hs, hpm⟩ hno).bind fun r s₁ h₁ => ?_
    exact ⟨h₁.touches, (h₁.sound hs).1, (h₁.sound hs).2⟩
  | _ => exact (handle_looks hreq nofun nofun).mono (fun _ _ h => ⟨h.1, hs.looks h⟩) fun _ _ h =>
      h.1

end Requests

section Effect

variable {sender : ℕ} {fd : ℤ} {pathname : String} {flags : ℤ} {pm : PmAnswer} {s : FsState}

/-- An open, up to the answer. -/
theorem handle_open (hin : (FsRequest.open pathname flags).InBounds s sender) :
    wp (handle sender pm (.open pathname flags)) (fun _ s' => OpenEffect pm sender s s')
      (fun _ _ => True) s := by
  refine wp_ite.mpr ⟨fun _ => .refused ⟨rfl, rfl⟩, fun _ => ?_⟩
  refine (localOpen_spec hin).bind fun r s₁ h₁ => ?_
  cases h₁.effect with
  | refused h => exact .refused h
  | char i hfree h hch => exact .char i hfree ⟨h.lt, h.table, h.fds⟩ hch
  | file i header hmem hname hfree h hch =>
    exact .file i header hmem hname hfree ⟨h.lt, h.table, h.fds⟩ hch

/-- A VM with a table, in which the first entry is free, can open "stdin". -/
theorem handle_open_stdin (pm : PmAnswer) (flags : ℤ) (hdriver : isDriver sender = false)
    (hcpu : sender ≤ maxCpus)
    (htable : s.hasFds sender = true) (hfree : (s.fds sender 0).offset = 0) :
    ∃ s', handle sender pm (.open "stdin" flags) s = .ok () s' ∧
      Assigned sender 0 ⟨typeChar, 0, kbdId, pm.channel⟩ s s' ∧
      s'.channels = s.channels ++ [⟨pm.channel, sender, kbdId⟩] := by
  have hwp : wp (handle sender pm (.open "stdin" flags)) (fun _ s' =>
      Assigned sender 0 ⟨typeChar, 0, kbdId, pm.channel⟩ s s' ∧
        s'.channels = s.channels ++ [⟨pm.channel, sender, kbdId⟩]) (fun _ _ => False) s := by
    refine wp_ite.mpr ⟨fun hd => ?_, fun _ => ?_⟩
    · rw [hdriver] at hd
      cases hd
    unfold localOpen localOpenChar charDevice
    rw [if_pos (Or.inl rfl), if_pos rfl, if_neg (by omega), wp_bind, wp_bind]
    refine getFds_spec (wp_ite.mpr ⟨fun hno => ?_, fun _ => ?_⟩)
    · simp [hcpu, htable] at hno
    rw [wp_bind, wp_pure, wp_bind]
    refine readFd_spec ⟨le_rfl, by decide⟩ fun s₁ h₁ => ?_
    rw [if_neg (not_not.mpr hfree), wp_bind, wp_modify]
    refine (writeFd_spec ⟨le_rfl, by decide⟩).bind ?_
    rintro - s₂ h₂
    refine ⟨⟨by decide, htable, fun c i => (h₂.fds c i).trans ?_⟩, ?_⟩
    · dsimp only
      rw [h₁.2.fds, Nat.cast_zero]
    · change s₂.channels = _
      rw [h₂.channels, h₁.2.channels]
  obtain ⟨⟨⟩, s', hs', heffect⟩ := hwp.exists_ok fun _ _ hfalse => hfalse
  exact ⟨s', hs', heffect⟩

/-- A close, up to the answer. -/
theorem handle_close (hin : (FsRequest.close fd).InBounds s sender) :
    wp (handle sender pm (.close fd)) (fun _ s' => CloseEffect pm sender fd s s')
      (fun _ _ => True) s := by
  refine (localClose_spec hin fun _ _ _ => trivial).bind fun r s₁ h₁ => ?_
  cases h₁.effect with
  | refused h hno => exact .refused h hno
  | cleared i hi hcpu h hchar => exact .cleared i hi hcpu ⟨h.lt, h.table, h.fds⟩ hchar

/-- The other requests change no table. -/
theorem handle_other {req : FsRequest} (hin : req.InBounds s sender)
    (hopen : ∀ pathname flags, req ≠ .open pathname flags) (hclose : ∀ fd, req ≠ .close fd) :
    wp (handle sender pm req) (fun _ s' => Unchanged s s') (fun _ _ => True) s :=
  (handle_looks hin hopen hclose).mono (fun _ _ h => h.unchanged) fun _ _ _ => trivial

/-- `local_close_char` tells the driver that belongs to the number. -/
theorem localCloseChar_sends {i : ℕ} :
    wp (localCloseChar i sender pm) (fun _ s' =>
      s'.sent = s.sent ++ [⟨fsId, closeDriver i, channelCloseIpc, .result 0⟩])
      (fun _ _ => True) s := by
  unfold localCloseChar
  rw [wp_bind]
  refine wp_ite.mpr ⟨fun _ => trivial, fun _ => wp_ite.mpr ⟨fun _ => trivial, fun _ => ?_⟩⟩
  rfl

end Effect

/-! ### Runs -/

/-- A request with its sender and PM's answers. -/
structure FsEvent where
  sender : ℕ
  req : FsRequest
  pm : PmAnswer

/-- FS serves a request and goes on. -/
def fsStep (s : FsState) (ev : FsEvent) (s' : FsState) : Prop :=
  handle ev.sender ev.pm ev.req s = .ok () s'

/-- The condition on a request: it stays within the table, and PM answers. -/
def FsEvent.Admissible (s : FsState) (ev : FsEvent) : Prop :=
  ev.req.InBounds s ev.sender ∧ ev.pm.Granted

section Run

variable {sender : ℕ} {pm : PmAnswer} {s s₀ : FsState}

/-- Requests that meet the condition keep the state sound. -/
theorem sound_of_run {evs : List FsEvent} (hs : s₀.Sound)
    (hrun : Run (guarded fsStep FsEvent.Admissible) s₀ evs s) : s.Sound :=
  hrun.invariant (fun _ _ _ hstep hinv => ((handle_spec hinv hstep.1.2 hstep.1.1).ok hstep.2).2) hs

end Run

/-- One client, on the CPU 6, with an empty table, and one file. -/
def oneClient : FsState where
  hasFds c := c = 6
  fds _ _ := default
  files := [⟨"motd", typeFile, 5, 64⟩]
  filesystem := 0
  accesses := []
  channels := []
  sent := []

theorem oneClient_sound : oneClient.Sound :=
  ⟨fun _ _ h => absurd h (Nat.succ_ne_zero 1).symm, fun _ h => by
    rw [List.mem_singleton.mp h]
    exact (Nat.succ_ne_zero 63)⟩

end Savannah.Fs
