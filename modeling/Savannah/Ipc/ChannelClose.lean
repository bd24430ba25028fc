import Savannah.Foundation.Run
import Savannah.Pm.State

/-!
# Closing a channel

A channel is a page that a client shares with a driver.  The client puts a request on the page, sets
`ready_send` and waits for `ready_reply` (`lib/fs.c`, `cnl_send`, `cnl_receive`); the driver looks
at the channels of its array one after the other (`cnl_receive_any`), serves the request and sets
`ready_reply` (`cnl_reply`).

FS (`local_close_char`) and PM (`close_channel`, for a VM that exits) close a channel in the same
way: they put a marker on the page instead of a request.  The driver answers the marker and waits in
`msg_receive (FS)`.  Then PM removes the channel from the array and frees the page, for itself or at
the request of FS, and the closing server posts `CHANNEL_CLOSE_IPC` in slot FS of the inbox of the
driver.  The driver is found from the number of the descriptor.  When a VM exits, PM closes all its
channels one after the other and serves no request in between (`local_exit`); neither does it while
FS loads a program for it (`local_exec`).

Here each access to a page, to an array or to a slot is a step, and the steps of the clients, FS, PM
and the drivers interleave in any order.  Each channel has a client of its own; a client with
several channels, which uses one after the other, is a special case.  A channel has a number that is
not used again, so that the address of a freed page may be used for another channel.

`Sys.Handshake` says what holds in every state, `AtMostOne` how the waits and the messages of a
whole run match, and `ExactlyOne` that every wait ends.  The last one needs a condition, `Separate`:
when FS and PM close channels of one driver at the same time, FS may wait for PM, PM for the driver,
and the driver for FS; and when FS closes a channel while PM waits for FS, none of the two goes on.
-/

namespace Savannah.ChannelClose

open Foundation

/-! ### The parties -/

inductive Closer where
  | fs
  | pm
  deriving DecidableEq, Repr

/-- Where the client of a channel is. -/
inductive User where
  /-- The channel does not exist yet. -/
  | absent
  | idle
  /-- With the request on the page: about to clear `ready_reply`, and to set `ready_send`. -/
  | clear
  | set
  /-- In `cnl_receive`. -/
  | recv
  /-- The client has asked FS to close the channel, or PM to exit. -/
  | closing (v : Closer)
  deriving DecidableEq, Repr

/-- A channel and its page. -/
structure Chan where
  /-- The driver, and the number of the descriptor. -/
  driver : ℕ
  fd : ℕ
  readySend : Bool
  readyReply : Bool
  /-- Whether the data begins with `CLOSE_CHANNEL`. -/
  marker : Bool
  freed : Bool
  user : User
  deriving DecidableEq, Repr

/-- Where a server is that closes a channel: about to put the marker, to clear `ready_reply`, to set
`ready_send`, and in `cnl_receive`. -/
inductive Stage where
  | mark
  | clear
  | set
  | recv
  deriving DecidableEq, Repr

inductive FsPhase where
  | idle
  | closing (st : Stage) (ch : ℕ)
  /-- Waiting for PM to close the channel. -/
  | ask (ch : ℕ)
  /-- About to post `CHANNEL_CLOSE_IPC`. -/
  | post (ch : ℕ)
  deriving DecidableEq, Repr

inductive PmPhase where
  | idle
  | closing (st : Stage) (ch : ℕ)
  /-- In `remove_channel_list`, and about to free the page, for itself or for FS. -/
  | shift (own : Bool) (ch : ℕ)
  | free (own : Bool) (ch : ℕ)
  /-- About to post `CHANNEL_CLOSE_IPC`. -/
  | post (ch : ℕ)
  /-- In `local_exec`, waiting for FS to load the program. -/
  | load
  deriving DecidableEq, Repr

/-- Where a driver is. -/
inductive DriverPhase where
  /-- In `cnl_receive_any`, about to read an entry of its array; about to read `ready_send` of the
  channel it has found. -/
  | scan
  | look (ch : ℕ)
  /-- `cnl_receive_any` has returned a channel: about to read its data. -/
  | picked (ch : ℕ)
  | serve (ch : ℕ)
  /-- In `cnl_reply`: about to assign `result`, and to set `ready_reply`; the flag says whether it
  answers a marker. -/
  | reply (ch : ℕ) (close : Bool)
  | flag (ch : ℕ) (close : Bool)
  /-- In `msg_receive (FS)`. -/
  | wait (ch : ℕ)
  deriving DecidableEq, Repr

/-- The page that the next step of a driver reads or writes. -/
def DriverPhase.touches : DriverPhase → Option ℕ
  | .scan => none
  | .look ch => some ch
  | .picked ch => some ch
  | .serve ch => some ch
  | .reply ch _ => some ch
  | .flag ch _ => some ch
  | .wait _ => none

/-- The system. -/
structure Sys where
  chan : ℕ → Chan
  /-- `vm_channels` of each CPU. -/
  array : ℕ → List ℕ
  driver : ℕ → DriverPhase
  /-- The message in slot FS of each inbox, by the channel it belongs to. -/
  slot : ℕ → Option ℕ
  fs : FsPhase
  pm : PmPhase
  /-- Inside `local_exit`: the channels of the VM that PM has not begun to close. -/
  exiting : Option (List ℕ)

/-- The driver that is told of the end of a close. -/
def driverOf (fd : ℕ) : ℕ := if fd = 0 then kbdId else if fd = 1 then consoleId else junkId

/-- The descriptors that `local_open_char` fills: of "stdin", "stdout", and one for "junkfd". -/
inductive Device where
  | stdin
  | stdout
  | junk (fd : ℕ) (h : 2 ≤ fd)

def Device.fd : Device → ℕ
  | .stdin => 0
  | .stdout => 1
  | .junk fd _ => fd

def Device.driver : Device → ℕ
  | .stdin => kbdId
  | .stdout => consoleId
  | .junk _ _ => junkId

/-! ### The steps -/

inductive Event where
  /-- PM creates a channel: for FS, and for the child of a fork as a copy of one of the parent. -/
  | create (ch : ℕ) (dev : Device)
  | copy (ch parent : ℕ)
  /-- The next step of the client of a channel. -/
  | user (ch : ℕ)
  /-- FS takes up the close of a channel, PM the exit of a VM with these channels. -/
  | close (ch : ℕ)
  | exit (chs : List ℕ)
  /-- PM takes up an exec and asks FS for the program; FS loads it. -/
  | exec
  | load
  /-- The next steps of FS and of PM. -/
  | fs
  | pm
  /-- A driver reads an entry of its array, and its next step. -/
  | entry (d ch : ℕ)
  | driver (d : ℕ)

/-- Changing a channel. -/
def Sys.set (s : Sys) (ch : ℕ) (x : Chan) : Sys := { s with chan := Function.update s.chan ch x }

/-- Moving a driver. -/
def Sys.move (s : Sys) (d : ℕ) (p : DriverPhase) : Sys :=
  { s with driver := Function.update s.driver d p }

/-- `local_channel`, with `add_channel_list`; a driver has at most 31 channels. -/
def localChannel (s : Sys) (ch fd d : ℕ) : Option Sys :=
  if (s.chan ch).user = .absent ∧ (s.array d).length < 31 then
    some { s.set ch ⟨d, fd, false, false, false, false, .idle⟩ with
      array := Function.update s.array d (s.array d ++ [ch]) }
  else none

/-- A step of the client of a channel. -/
def userStep (s : Sys) (ch : ℕ) : Option Sys :=
  let x := s.chan ch
  match x.user with
  | .idle => some (s.set ch { x with marker := false, user := .clear })
  | .clear => some (s.set ch { x with readyReply := false, user := .set })
  | .set => some (s.set ch { x with readySend := true, user := .recv })
  | .recv =>
    if x.readyReply then some (s.set ch { x with readyReply := false, user := .idle }) else none
  | _ => none

/-- A step of the exchange of the marker, with what the server does next. -/
def closeStep (s : Sys) (ch : ℕ) (next : Stage → Sys → Sys) (after : Sys → Sys) :
    Stage → Option Sys
  | .mark => some (next .clear (s.set ch { s.chan ch with marker := true }))
  | .clear => some (next .set (s.set ch { s.chan ch with readyReply := false }))
  | .set => some (next .recv (s.set ch { s.chan ch with readySend := true }))
  | .recv =>
    if (s.chan ch).readyReply then
      some (after (s.set ch { s.chan ch with readyReply := false }))
    else none

/-- `msg_reply (FS, dst, CHANNEL_CLOSE_IPC, …)` -/
def Sys.postClose (s : Sys) (ch : ℕ) : Sys :=
  { s with slot := Function.update s.slot (driverOf (s.chan ch).fd) (some ch) }

/-- A step of `local_close_char`. -/
def fsStep (s : Sys) : Option Sys :=
  match s.fs with
  | .closing st ch =>
    closeStep s ch (fun st s => { s with fs := .closing st ch })
    (fun s => { s with fs := .ask ch }) st
  | .post ch => some { s.postClose ch with fs := .idle }
  | _ => none

/-- The channels that PM has not begun to close; their client does not run any more. -/
def Sys.left (s : Sys) : List ℕ := s.exiting.getD []

/-- A step of PM: the next channel of `local_exit` or its end, taking the request of FS, and the
steps of `close_channel` and `local_channel_close`. -/
def pmStep (s : Sys) : Option Sys :=
  match s.pm with
  | .idle =>
    match s.exiting with
    | some (ch :: rest) =>
      if (s.chan ch).user = .idle then
        some { s.set ch { s.chan ch with user := .closing .pm } with
          pm := .closing .mark ch, exiting := some rest }
      else none
    | some [] => some { s with exiting := none }
    | none =>
      match s.fs with
      | .ask ch => some { s with pm := .shift false ch }
      | _ => none
  | .closing st ch =>
    closeStep s ch (fun st s => { s with pm := .closing st ch })
      (fun s => { s with pm := .shift true ch }) st
  | .shift own ch => some { s with
      array := fun d => (s.array d).filter (· ≠ ch)
      pm := .free own ch }
  | .free own ch =>
    let t := s.set ch { s.chan ch with freed := true }
    if own then some { t with pm := .post ch } else some { t with pm := .idle, fs := .post ch }
  | .post ch => some { s.postClose ch with pm := .idle }
  | .load => none

/-- A step of a driver. -/
def driverStep (s : Sys) (d : ℕ) : Option Sys :=
  match s.driver d with
  | .scan => none
  | .look ch =>
    if (s.chan ch).readySend then
      some ((s.set ch { s.chan ch with readySend := false }).move d (.picked ch))
    else some (s.move d .scan)
  | .picked ch => some (s.move d (if (s.chan ch).marker then .reply ch true else .serve ch))
  | .serve ch => some (s.move d (.reply ch false))
  | .reply ch close => some (s.move d (.flag ch close))
  | .flag ch close =>
    some ((s.set ch { s.chan ch with readyReply := true }).move d
    (if close then .wait ch else .scan))
  | .wait _ =>
    match s.slot d with
    | some _ => some { s.move d .scan with slot := Function.update s.slot d none }
    | none => none

/-- One step of the system. -/
def step (s : Sys) : Event → Option Sys
  | .create ch dev =>
    if s.pm = .idle ∧ s.exiting = none then localChannel s ch dev.fd dev.driver else none
  | .copy ch parent =>
    if (s.pm = .idle ∧ s.exiting = none) ∧ (s.chan parent).user ≠ .absent then
      localChannel s ch (s.chan parent).fd (s.chan parent).driver
    else none
  | .user ch => if ch ∈ s.left then none else userStep s ch
  | .close ch =>
    if s.fs = .idle ∧ (s.chan ch).user = .idle ∧ ch ∉ s.left then
      some { s.set ch { s.chan ch with user := .closing .fs } with fs := .closing .mark ch }
    else none
  | .exit chs =>
    if (s.pm = .idle ∧ s.exiting = none) ∧ chs.Nodup ∧ ∀ ch ∈ chs, (s.chan ch).user = .idle then
      some { s with exiting := some chs }
    else none
  | .exec => if s.pm = .idle ∧ s.exiting = none then some { s with pm := .load } else none
  | .load => if s.pm = .load ∧ s.fs = .idle then some { s with pm := .idle } else none
  | .fs => fsStep s
  | .pm => pmStep s
  | .entry d ch => if s.driver d = .scan ∧ ch ∈ s.array d then some (s.move d (.look ch)) else none
  | .driver d => driverStep s d

/-- The steps as a relation. -/
def Step (s : Sys) (ev : Event) (s' : Sys) : Prop := step s ev = some s'

/-- At the start there are no channels. -/
structure Sys.Initial (s : Sys) : Prop where
  chan : ∀ ch, (s.chan ch).user = .absent ∧ (s.chan ch).freed = false
  array : ∀ d, s.array d = []
  driver : ∀ d, s.driver d = .scan
  slot : ∀ d, s.slot d = none
  fs : s.fs = .idle
  pm : s.pm = .idle
  exiting : s.exiting = none

/-! ### The property -/

/-- A server works on the close of a channel and has not posted the message yet. -/
def Sys.Closing (s : Sys) (ch : ℕ) : Prop :=
  s.fs = .closing .recv ch ∨ s.fs = .ask ch ∨ s.fs = .post ch ∨ s.pm = .closing .recv ch ∨
    (∃ own, s.pm = .shift own ch ∨ s.pm = .free own ch) ∨ s.pm = .post ch

/-- What holds in every state. -/
structure Sys.Handshake (s : Sys) : Prop where
  /-- While PM removes a channel and frees its page, its driver has answered the marker and waits;
  so does every driver that has the channel in its array. -/
  removal : ∀ own ch, s.pm = .shift own ch ∨ s.pm = .free own ch →
    s.driver (s.chan ch).driver = .wait ch ∧ ∀ d, ch ∈ s.array d → s.driver d = .wait ch
  found : ∀ own ch, s.pm = .shift own ch → ch ∈ s.array (s.chan ch).driver
  /-- No driver uses a page that was freed. -/
  access : ∀ d ch, (s.driver d).touches = some ch → (s.chan ch).freed = false
  /-- A message goes to the driver that waits for the end of this close, and its slot is empty. -/
  post : ∀ ch, s.fs = .post ch ∨ s.pm = .post ch →
    s.driver (driverOf (s.chan ch).fd) = .wait ch ∧ s.slot (driverOf (s.chan ch).fd) = none
  slot : ∀ d ch, s.slot d = some ch → s.driver d = .wait ch ∧ ¬ s.Closing ch
  /-- A driver that waits has its message, or the message is still to come. -/
  wait : ∀ d ch, s.driver d = .wait ch → s.slot d = some ch ∨ s.Closing ch

/-- Steps at which the driver of a channel begins to wait, -/
def enters (ch : ℕ) (s : Sys) : Event → Bool
  | .driver d => s.driver d = .flag ch true
  | _ => false

/-- at which a server posts the message of the channel, -/
def posts (ch : ℕ) (s : Sys) : Event → Bool
  | .fs => s.fs = .post ch
  | .pm => s.pm = .post ch
  | _ => false

/-- and at which a driver ends its wait for it. -/
def ends (ch : ℕ) (s : Sys) : Event → Bool
  | .driver d => s.driver d = .wait ch
  | _ => false

/-- The messages of a whole run from `s` to `t`: a channel has at most one wait and at most one
message, and a wait ends with the message of its own close. -/
structure AtMostOne (s : Sys) (evs : List Event) (t : Sys) (ch : ℕ) : Prop where
  once : tally step (enters ch) s evs ≤ 1
  sent : tally step (posts ch) s evs ≤ tally step (enters ch) s evs
  ended : tally step (ends ch) s evs ≤ tally step (posts ch) s evs
  /-- A wait that has not ended, and a message that has not been received. -/
  waiting : tally step (ends ch) s evs < tally step (enters ch) s evs ↔ ∃ d, t.driver d = .wait ch
  arrived : tally step (ends ch) s evs < tally step (posts ch) s evs ↔ ∃ d, t.slot d = some ch

/-- A step of FS, of PM or of a driver that takes up no new request. -/
def Event.Inner : Event → Prop
  | .fs | .pm | .entry _ _ | .driver _ => True
  | _ => False

/-- FS, PM and the drivers alone can go on from `s` to a state with the property `P`. -/
def Leads (P : Sys → Prop) (s : Sys) : Prop :=
  ∃ evs t, (∀ ev ∈ evs, ev.Inner) ∧ Run Step s evs t ∧ P t

/-- The messages of a whole run, where in addition no wait is in vain: whatever has happened, FS, PM
and the drivers can still go on until the wait is over, and then there was one message. -/
structure ExactlyOne (s : Sys) (evs : List Event) (t : Sys) (ch : ℕ) : Prop
    extends AtMostOne s evs t ch where
  ending : ∀ d, t.driver d = .wait ch → ∃ evs' u, (∀ ev ∈ evs', ev.Inner) ∧ Run Step t evs' u ∧
    u.driver d = .scan ∧ tally step (enters ch) s (evs ++ evs') = 1 ∧
    tally step (posts ch) s (evs ++ evs') = 1 ∧ tally step (ends ch) s (evs ++ evs') = 1

/-! ### The condition -/

/-- FS closes a channel of the driver `d` and has not got PM's answer. -/
def Sys.FsCloses (s : Sys) (d : ℕ) : Prop :=
  match s.fs with
  | .closing _ ch | .ask ch => (s.chan ch).driver = d
  | _ => False

/-- PM exchanges the marker on a channel of the driver `d`, or waits for FS itself. -/
def Sys.PmHeld (s : Sys) (d : ℕ) : Prop :=
  match s.pm with
  | .closing _ ch => (s.chan ch).driver = d
  | .load => True
  | _ => False

/-- PM does not serve FS before the driver `d` has answered it, or not before FS has. -/
def Sys.PmNeeds (s : Sys) (d : ℕ) : Prop := s.PmHeld d ∨ ∃ ch ∈ s.left, (s.chan ch).driver = d

/-- The condition on a step: FS and PM do not close channels of one driver at the same time, and FS
closes none while PM waits for it. -/
def Separate (s : Sys) : Event → Prop
  | .close ch => ¬ s.PmNeeds (s.chan ch).driver
  | .exit chs => ∀ ch ∈ chs, ¬ s.FsCloses (s.chan ch).driver
  | .exec => s.fs = .idle
  | _ => True

instance (s : Sys) (d : ℕ) : Decidable (s.FsCloses d) := by
  unfold Sys.FsCloses
  split <;> infer_instance

instance (s : Sys) (d : ℕ) : Decidable (s.PmNeeds d) := by
  unfold Sys.PmNeeds Sys.PmHeld
  split <;> infer_instance

instance (s : Sys) (ev : Event) : Decidable (Separate s ev) := by
  unfold Separate
  split <;> infer_instance

end Savannah.ChannelClose
