import Savannah.Ipc.CloseEnd
import Savannah.Ipc.System

/-!
# The waits of a close

`Ipc.Sys` has one step for the marker of a server and one for the answer of a driver; here each
access to a page, an array or a slot is a step.  `Sys.abstract` forgets the steps in between, while
FS closes a channel for the client `c` and PM those of the client `e`: a driver has answered when it
begins to wait, PM takes the answer to its own marker when it posts the message, and it has served
FS when the page is freed.

The two models agree on who waits: a party cannot go on exactly if it waits for another one in
`Ipc.Sys` (`Rel.blocked_iff`).  The deadlock of two closes is a cycle of these waits
(`Sys.Stuck.cycle`).
-/

namespace Savannah.ChannelClose

open Foundation

/-! ### The state of the servers and drivers -/

/-- The CPU of a driver. -/
def cpuOf : Ipc.Driver → ℕ
  | .kbd => kbdId
  | .junk => junkId
  | .console => consoleId

/-- The driver that `driverOf` finds. -/
def deviceOf (fd : ℕ) : Ipc.Driver := if fd = 0 then .kbd else if fd = 1 then .console else .junk

/-- The driver of a channel. -/
def Sys.device (s : Sys) (ch : ℕ) : Ipc.Driver := deviceOf (s.chan ch).fd

/-- The phase of FS, its request to PM, and whether it has the answer. -/
def Sys.fsView (c : ℕ) (s : Sys) : Ipc.FsPhase × Option Ipc.PmRequest × Bool :=
  match s.fs with
  | .idle => (.idle, none, false)
  | .closing .recv ch => (.closeWait c ch, none, false)
  | .closing _ ch => (.closeStart c ch, none, false)
  | .ask ch => (.closePm c ch (s.device ch), some .channelClose, false)
  | .post ch => (.closePm c ch (s.device ch), none, true)

/-- The phase of PM. -/
def Sys.pmView (e : ℕ) (s : Sys) : Ipc.PmPhase :=
  match s.pm with
  | .idle => s.exiting.elim .idle (.exitNext e)
  | .closing .recv ch | .shift true ch | .free true ch | .post ch => .exitWait e ch s.left
  | .closing _ ch => .exitNext e (ch :: s.left)
  | .shift false _ | .free false _ => .idle
  | .load => .execWait e

/-- The phase of a driver, which waits for the server that closes the channel. -/
def Sys.driverView (s : Sys) : DriverPhase → Ipc.DriverPhase
  | .wait ch => .closing (if (s.chan ch).user = .closing .pm then .pm else .fs)
  | _ => .idle

/-- The server that waits for the answer on a channel. -/
def Sys.closer (s : Sys) (ch : ℕ) : Option Ipc.Server :=
  if s.fs = .closing .recv ch then some .fs
  else if s.pm ∈ [.closing .recv ch, .shift true ch, .free true ch, .post ch] then some .pm
  else none

/-- A channel: the marker is on it until the driver waits, then the answer. -/
def Sys.channelView (s : Sys) (ch : ℕ) : Ipc.Channel :=
  if s.driver (s.chan ch).driver = .wait ch then ⟨s.device ch, none, (s.closer ch).isSome⟩
  else ⟨s.device ch, s.closer ch, false⟩

/-- The state of `Ipc.Sys` that a state stands for. -/
def Sys.abstract (c e : ℕ) (s : Sys) : Ipc.Sys where
  pm := s.pmView e
  fs := (s.fsView c).1
  driver d := s.driverView (s.driver (cpuOf d))
  toPm := Function.update (fun _ => none) Ipc.fsCpu (s.fsView c).2.1
  toFs _ := none
  pmInput := false
  fsInput := (s.fsView c).2.2
  driverInput d := (s.slot (cpuOf d)).isSome
  channel := s.channelView
  channels := Function.update (fun _ => []) e s.left
  used := (s.array kbdId ++ s.array junkId ++ s.array consoleId).toFinset

/-- A party is at work and cannot make its next step. -/
def Sys.Blocked (s : Sys) : Ipc.Party → Prop
  | .pm => s.pm ≠ .idle ∧ pmStep s = none
  | .fs => s.fs ≠ .idle ∧ fsStep s = none
  | .driver d => s.driver (cpuOf d) ≠ .scan ∧ driverStep s (cpuOf d) = none

section Waits

variable {c e ch : ℕ} {s : Sys} {use : ℕ → Use}

/-- The CPU of the driver of a device. -/
theorem cpuOf_deviceOf (fd : ℕ) : cpuOf (deviceOf fd) = driverOf fd := by
  unfold deviceOf driverOf
  split
  · rfl
  · split <;> rfl

/-- A server that waits for a driver finds `ready_reply` set exactly if the driver waits. -/
theorem Rel.readyReply_iff (h : Rel s use) (hst : StageOk (s.chan ch) (use ch) .recv) :
    (s.chan ch).readyReply = true ↔ s.Waits ch := by
  have hchan := h.chan ch
  have hwait : s.Waits ch → use ch = .answered true ∨ use ch = .done ∨ use ch = .gone :=
    fun hw => by
    have hok := h.driver (s.chan ch).driver
    rw [show s.driver _ = .wait ch from hw] at hok
    rcases hok.2 with (hu | hu) | ⟨hu, -⟩ <;> simp [hu]
  rcases hst with hu | hu | hu
  · rw [hu] at hchan hwait
    simp [hchan.2.2.1, mt hwait]
  · rw [hu] at hchan hwait
    simp [hchan.2.2.1, mt hwait]
  · rw [hu] at hchan
    simp [hchan.2.2.1, h.waits ch (Or.inl hu)]

/-- The driver of a channel in `Ipc.Sys`. -/
theorem channelView_driver (s : Sys) (ch : ℕ) : (s.channelView ch).driver = s.device ch := by
  unfold Sys.channelView
  split <;> rfl

/-- A server that waits for the answer on a channel: the answer is there if the driver waits. -/
theorem channelView_reply (hcloser : (s.closer ch).isSome) :
    (s.channelView ch).readyReply = true ↔ s.Waits ch := by
  unfold Sys.channelView Sys.Waits
  split <;> simp_all

/-- Whom a party may wait for. -/
theorem exists_party {P : Ipc.Party → Prop} :
    (∃ y, P y) ↔ P .pm ∨ P .fs ∨ ∃ d, P (.driver d) := by
  refine ⟨fun ⟨y, hy⟩ => ?_, ?_⟩
  · cases y with
    | pm => exact Or.inl hy
    | fs => exact Or.inr (Or.inl hy)
    | driver d => exact Or.inr (Or.inr ⟨d, hy⟩)
  · rintro (h | h | ⟨d, h⟩) <;> exact ⟨_, h⟩

/-- FS cannot go on exactly if it waits for PM or for a driver. -/
theorem Rel.fs_blocked_iff (h : Rel s use) :
    s.Blocked .fs ↔ ∃ y, Ipc.Waits (s.abstract c e) .fs y := by
  have hok := h.fs
  simp only [Sys.Blocked, fsStep, exists_party, Ipc.Waits, Sys.abstract, Sys.fsView,
    channelView_driver]
  cases hf : s.fs with
  | idle | ask ch | post ch => simp
  | closing st ch =>
    rw [hf] at hok
    cases st with
    | mark | clear | set => simp [closeStep]
    | recv =>
      have hcloser : (s.closer ch).isSome := by simp [Sys.closer, hf]
      have hiff := (channelView_reply hcloser).trans (h.readyReply_iff hok.2).symm
      simp [closeStep, Bool.eq_iff_iff.mpr hiff]

/-- PM waits for the answer from its marker on until it posts the message. -/
theorem closer_isSome (hp : s.pm ∈ [.closing .recv ch, .shift true ch, .free true ch, .post ch]) :
    (s.closer ch).isSome := by
  unfold Sys.closer
  rw [if_pos hp]
  split <;> rfl

/-- PM cannot go on exactly if it waits for FS or for a driver. -/
theorem Rel.pm_blocked_iff (h : Rel s use) :
    s.Blocked .pm ↔ ∃ y, Ipc.Waits (s.abstract c e) .pm y := by
  have hok := h.pm
  have hreply : ∀ ch, (s.closer ch).isSome → _ := fun _ => channelView_reply
  simp only [Sys.Blocked, pmStep, exists_party, Ipc.Waits, Sys.abstract, Sys.pmView,
    channelView_driver]
  cases hp : s.pm with
  | idle => cases s.exiting <;> simp
  | load => simp
  | closing st ch =>
    rw [hp] at hok
    cases st with
    | mark | clear | set => simp [closeStep]
    | recv =>
      have hiff := (hreply ch (closer_isSome (by simp [hp]))).trans (h.readyReply_iff hok.2).symm
      simp [closeStep, Bool.eq_iff_iff.mpr hiff]
  | shift own ch | free own ch =>
    cases own with
    | false => simp
    | true =>
      have hpm : s.pm = .shift true ch ∨ s.pm = .free true ch := by simp [hp]
      simp [(hreply ch (closer_isSome (by simp [hp]))).mpr (h.removal hpm).2]
  | post ch =>
    rw [hp] at hok
    simp [(hreply ch (closer_isSome (by simp [hp]))).mpr hok.2.2]

/-- A driver cannot go on exactly if it waits for a server. -/
theorem driver_blocked_iff (s : Sys) (c e : ℕ) (d : Ipc.Driver) :
    s.Blocked (.driver d) ↔ ∃ y, Ipc.Waits (s.abstract c e) (.driver d) y := by
  simp only [Sys.Blocked, driverStep, exists_party, Ipc.Waits, Sys.abstract]
  cases hq : s.driver (cpuOf d) with
  | wait ch => cases hslot : s.slot (cpuOf d) <;> simp [Sys.driverView, em]
  | look ch => cases hr : (s.chan ch).readySend <;> simp [Sys.driverView, hr]
  | scan | picked ch | serve ch | reply ch b | flag ch b => simp [Sys.driverView]

/-- A party cannot go on exactly if it waits for another one. -/
theorem Rel.blocked_iff (h : Rel s use) (c e : ℕ) (x : Ipc.Party) :
    s.Blocked x ↔ ∃ y, Ipc.Waits (s.abstract c e) x y := by
  cases x with
  | pm => exact h.pm_blocked_iff
  | fs => exact h.fs_blocked_iff
  | driver d => exact driver_blocked_iff s c e d

/-- In the deadlock FS waits for PM, PM for the driver, and the driver for FS. -/
theorem Sys.Stuck.cycle {a b : ℕ} (h : s.Stuck a b) (c e : ℕ) :
    Relation.TransGen (Ipc.Waits (s.abstract c e)) .fs .fs := by
  obtain ⟨use, hrel⟩ := h.rel
  obtain ⟨hwait, hslot⟩ := h.waits
  have hfs := hrel.fs
  have hpm := hrel.pm
  rw [h.fs] at hfs
  rw [h.pm] at hpm
  have hcpu : cpuOf (s.device b) = (s.chan a).driver := by
    have hb : use b ≠ .absent := by rcases hpm.2 with hu | hu | hu <;> simp [hu]
    rw [← h.driver, hrel.named b hb]
    exact cpuOf_deviceOf _
  have hreply : (s.channelView b).readyReply = false := by
    rw [← Bool.not_eq_true, channelView_reply (closer_isSome (by simp [h.pm])),
      ← hrel.readyReply_iff hpm.2, h.reply]
    exact Bool.false_ne_true
  have hfsPm : Ipc.Waits (s.abstract c e) .fs .pm := by
    simp [Ipc.Waits, Sys.abstract, Sys.fsView, h.fs]
  have hpmDriver : Ipc.Waits (s.abstract c e) .pm (.driver (s.device b)) := by
    simp [Ipc.Waits, Sys.abstract, Sys.pmView, h.pm, channelView_driver, hreply]
  have hdriverFs : Ipc.Waits (s.abstract c e) (.driver (s.device b)) .fs := by
    simp [Ipc.Waits, Sys.abstract, Sys.driverView, hcpu, hwait, hslot, hfs.1]
  exact .tail (.tail (.single hfsPm) hpmDriver) hdriverFs

end Waits

end Savannah.ChannelClose
