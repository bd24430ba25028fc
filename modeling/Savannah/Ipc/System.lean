import Savannah.Foundation.Run

/-!
# The servers, the drivers and their messages

PM, FS and the drivers, with the places of their code where they wait for each other:

* PM asks FS for the file of an `exec` and waits for the answer (`local_exec`); when a VM exits, it
  tells the driver of each open channel and waits for its answer (`close_channel`);
* FS asks PM for a channel, or to close one, and waits (`local_open_char`, `local_close_char`);
  before closing it tells the driver and waits for its answer;
* a driver that is told to close a channel answers and then waits for a message of the server that
  closes it (`close_channel` of the drivers).

A server that waits serves no request.  A request stays in the sender's `msg_output`, marked in the
bitmap of the server, until the server takes it (`msg_check`); an answer goes to the receiver's
`msg_input` (`msg_reply`), and a channel has the flags `ready_send` and `ready_reply`.  Every step
of a party is a separate event, so that the parties interleave in any order.  The clients send
requests at any time; which of the waiting requests a server takes next is left open.
-/

namespace Savannah.Ipc

open Foundation

inductive Driver where
  | kbd
  | junk
  | console
  deriving DecidableEq, Repr

inductive Server where
  | pm
  | fs
  deriving DecidableEq, Repr

/-- The parties that may wait for each other. -/
inductive Party where
  | pm
  | fs
  | driver (d : Driver)
  deriving DecidableEq, Repr

/-- The requests that PM serves; the last two come from FS. -/
inductive PmRequest where
  | exec
  | exit
  | fork (child : ℕ)
  | channel
  | channelClose
  deriving DecidableEq, Repr

/-- The requests that FS serves; the last one comes from PM.  A regular file is opened and closed
without waiting. -/
inductive FsRequest where
  | openChar (d : Driver)
  | openFile
  | closeChar (ch : ℕ)
  | closeFile
  | load
  deriving DecidableEq, Repr

/-- Where PM is. -/
inductive PmPhase where
  | idle
  /-- In `local_exec`, about to ask FS, and waiting for it. -/
  | execStart (c : ℕ)
  | execWait (c : ℕ)
  /-- In `local_fork`, about to create the channels of the child. -/
  | fork (child : ℕ) (drivers : List Driver)
  /-- In `local_exit`, about to close channels, and waiting for a driver. -/
  | exitNext (c : ℕ) (chs : List ℕ)
  | exitWait (c ch : ℕ) (rest : List ℕ)
  deriving DecidableEq, Repr

/-- Where FS is. -/
inductive FsPhase where
  | idle
  /-- In `local_open_char`, about to ask PM, and waiting for it. -/
  | openStart (c : ℕ) (d : Driver)
  | openWait (c : ℕ) (d : Driver)
  /-- In `local_close_char`, about to tell the driver, waiting for it, and waiting for PM. -/
  | closeStart (c ch : ℕ)
  | closeWait (c ch : ℕ)
  | closePm (c ch : ℕ) (d : Driver)
  deriving DecidableEq, Repr

/-- Where a driver is: in `cnl_receive_any`, or in `close_channel` waiting for a server. -/
inductive DriverPhase where
  | idle
  | closing (server : Server)
  deriving DecidableEq, Repr

/-- A channel: its driver, the server that has set `ready_send` to close it, and `ready_reply`. -/
structure Channel where
  driver : Driver
  readySend : Option Server
  readyReply : Bool
  deriving DecidableEq, Repr

/-- The state of the system.  A channel has a number that is not used again. -/
structure Sys where
  pm : PmPhase
  fs : FsPhase
  driver : Driver → DriverPhase
  /-- The requests that are waiting, by their sender. -/
  toPm : ℕ → Option PmRequest
  toFs : ℕ → Option FsRequest
  /-- Whether there is a message in the slot that the receiver polls. -/
  pmInput : Bool
  fsInput : Bool
  driverInput : Driver → Bool
  channel : ℕ → Channel
  /-- The open channels of each client. -/
  channels : ℕ → List ℕ
  used : Finset ℕ

/-- The CPUs of PM and FS; the others are clients. -/
abbrev pmCpu : ℕ := 0

@[inherit_doc pmCpu]
abbrev fsCpu : ℕ := 1

/-- The atomic steps. -/
inductive Event where
  /-- A client sends a request to PM, or to FS. -/
  | callPm (c : ℕ) (r : PmRequest)
  | callFs (c : ℕ) (r : FsRequest)
  /-- PM takes a request; it sends what its phase calls for (creating the channel `ch` in a fork);
  it finds the answer it has waited for. -/
  | pmTake (c : ℕ)
  | pmSend (ch : ℕ)
  | pmReceive
  /-- The same for FS, which gets the channel `ch` as the answer to its request. -/
  | fsTake (c : ℕ)
  | fsSend
  | fsReceive (ch : ℕ)
  /-- A driver finds that a channel is to be closed; it finds the message it has waited for. -/
  | driverTake (d : Driver) (ch : ℕ)
  | driverReceive (d : Driver)
  deriving DecidableEq, Repr

namespace Sys

/-- A new channel of the client `c`. -/
def create (c ch : ℕ) (d : Driver) (s : Sys) : Sys :=
  { s with
    channel := Function.update s.channel ch ⟨d, none, false⟩
    channels := Function.update s.channels c (s.channels c ++ [ch])
    used := insert ch s.used }

/-- `cnl_send` by a server that closes the channel. -/
def cnlSend (ch : ℕ) (server : Server) (s : Sys) : Sys :=
  { s with
    channel := Function.update s.channel ch
      ⟨(s.channel ch).driver, some server, false⟩ }

/-- The end of `cnl_receive`: the answer of the driver is taken. -/
def cnlReceived (ch : ℕ) (s : Sys) : Sys :=
  { s with
    channel := Function.update s.channel ch
      ⟨(s.channel ch).driver, (s.channel ch).readySend, false⟩ }

/-- The message to the driver at the end of closing a channel. -/
def notify (d : Driver) (s : Sys) : Sys :=
  { s with driverInput := Function.update s.driverInput d true }

/-- PM serves the request `r` of `c`. -/
def pmServe (c : ℕ) (s : Sys) : PmRequest → Sys
  | .exec => { s with pm := .execStart c }
  | .exit => { s with pm := .exitNext c (s.channels c) }
  | .fork child => { s with
      pm := .fork child ((s.channels c).map fun ch => (s.channel ch).driver)
      channels := Function.update s.channels child [] }
  | .channel => { s with fsInput := true }
  | .channelClose => { s with fsInput := true }

/-- FS serves the request `r` of `c`. -/
def fsServe (c : ℕ) (s : Sys) : FsRequest → Sys
  | .openChar d => { s with fs := .openStart c d }
  | .openFile => s
  | .closeChar ch => if ch ∈ s.channels c then { s with fs := .closeStart c ch } else s
  | .closeFile => s
  | .load => { s with pmInput := true }

end Sys

open Sys

/-- The requests that a client may send. -/
def PmRequest.OfClient : PmRequest → Prop
  | .exec | .exit | .fork _ => True
  | .channel | .channelClose => False

@[inherit_doc PmRequest.OfClient]
def FsRequest.OfClient : FsRequest → Prop
  | .load => False
  | _ => True

instance (r : PmRequest) : Decidable r.OfClient := by
  cases r <;> unfold PmRequest.OfClient <;> infer_instance

instance (r : FsRequest) : Decidable r.OfClient := by
  cases r <;> unfold FsRequest.OfClient <;> infer_instance

/-- What PM does next in its phase. -/
def pmSend (ch : ℕ) (s : Sys) : Option Sys :=
  match s.pm with
  | .execStart c =>
    some { s with pm := .execWait c, toFs := Function.update s.toFs pmCpu (some .load) }
  | .fork child (d :: ds) =>
    if ch ∈ s.used then none else some (create child ch d { s with pm := .fork child ds })
  | .fork _ [] => some { s with pm := .idle }
  | .exitNext c (ch :: rest) => some (cnlSend ch .pm { s with pm := .exitWait c ch rest })
  | .exitNext c [] =>
    some { s with pm := .idle, channels := Function.update s.channels c [] }
  | _ => none

/-- PM finds what it has waited for. -/
def pmReceive (s : Sys) : Option Sys :=
  match s.pm with
  | .execWait _ => if s.pmInput then some { s with pm := .idle, pmInput := false } else none
  | .exitWait c ch rest =>
    if (s.channel ch).readyReply then
      some (notify (s.channel ch).driver (cnlReceived ch { s with pm := .exitNext c rest }))
    else
      none
  | _ => none

/-- What FS does next in its phase. -/
def fsSend (s : Sys) : Option Sys :=
  match s.fs with
  | .openStart c d =>
    some { s with fs := .openWait c d, toPm := Function.update s.toPm fsCpu (some .channel) }
  | .closeStart c ch => some (cnlSend ch .fs { s with fs := .closeWait c ch })
  | _ => none

/-- FS finds what it has waited for. -/
def fsReceive (ch : ℕ) (s : Sys) : Option Sys :=
  match s.fs with
  | .openWait c d =>
    if s.fsInput ∧ ch ∉ s.used then
      some (create c ch d { s with fs := .idle, fsInput := false })
    else
      none
  | .closeWait c ch =>
    if (s.channel ch).readyReply then
      some (cnlReceived ch { s with
        fs := .closePm c ch (s.channel ch).driver
        toPm := Function.update s.toPm fsCpu (some .channelClose) })
    else
      none
  | .closePm c ch d =>
    if s.fsInput then
      some (notify d { s with
        fs := .idle
        fsInput := false
        channels := Function.update s.channels c ((s.channels c).erase ch) })
    else
      none
  | _ => none

/-- One step of the system. -/
def step (s : Sys) : Event → Option Sys
  | .callPm c r =>
    if fsCpu < c ∧ r.OfClient ∧ s.toPm c = none ∧ s.toFs c = none then
      some { s with toPm := Function.update s.toPm c (some r) }
    else
      none
  | .callFs c r =>
    if fsCpu < c ∧ r.OfClient ∧ s.toPm c = none ∧ s.toFs c = none then
      some { s with toFs := Function.update s.toFs c (some r) }
    else
      none
  | .pmTake c =>
    match s.pm, s.toPm c with
    | .idle, some r => some (pmServe c { s with toPm := Function.update s.toPm c none } r)
    | _, _ => none
  | .pmSend ch => pmSend ch s
  | .pmReceive => pmReceive s
  | .fsTake c =>
    match s.fs, s.toFs c with
    | .idle, some r => some (fsServe c { s with toFs := Function.update s.toFs c none } r)
    | _, _ => none
  | .fsSend => fsSend s
  | .fsReceive ch => fsReceive ch s
  | .driverTake d ch =>
    match s.driver d, (s.channel ch).readySend with
    | .idle, some server =>
      if (s.channel ch).driver = d ∧ ch ∈ s.used then
        some { s with
          channel := Function.update s.channel ch ⟨d, none, true⟩
          driver := Function.update s.driver d (.closing server) }
      else
        none
    | _, _ => none
  | .driverReceive d =>
    match s.driver d with
    | .closing _ =>
      if s.driverInput d then
        some { s with
          driver := Function.update s.driver d .idle
          driverInput := Function.update s.driverInput d false }
      else
        none
    | .idle => none

/-- The system when the servers and drivers are up and no client has sent anything. -/
def init : Sys where
  pm := .idle
  fs := .idle
  driver _ := .idle
  toPm _ := none
  toFs _ := none
  pmInput := false
  fsInput := false
  driverInput _ := false
  channel _ := ⟨.kbd, none, false⟩
  channels _ := []
  used := ∅

/-- The steps as a transition relation. -/
def Steps (s : Sys) (e : Event) (t : Sys) : Prop := step s e = some t

/-- `X` is inside a blocking receive that only `Y` can complete, and `Y` has not done so. -/
def Waits (s : Sys) : Party → Party → Prop
  | .pm, .fs => (∃ c, s.pm = .execWait c) ∧ s.pmInput = false
  | .pm, .driver d => ∃ c ch rest, s.pm = .exitWait c ch rest ∧ (s.channel ch).driver = d ∧
      (s.channel ch).readyReply = false
  | .fs, .pm => ((∃ c d, s.fs = .openWait c d) ∨ ∃ c ch d, s.fs = .closePm c ch d) ∧
      s.fsInput = false
  | .fs, .driver d => ∃ c ch, s.fs = .closeWait c ch ∧ (s.channel ch).driver = d ∧
      (s.channel ch).readyReply = false
  | .driver d, .pm => s.driver d = .closing .pm ∧ s.driverInput d = false
  | .driver d, .fs => s.driver d = .closing .fs ∧ s.driverInput d = false
  | _, _ => False

end Savannah.Ipc
