import Savannah.Foundation.Hoare
import Savannah.Machine.Outcome
import Savannah.Pm.State

/-!
# The file server

The request handlers of `vms/fs/main.c`.  A client has a table of descriptors, which FS reaches
through the client's `vm_fds`; an index is an `int`, and the memory around the table is modelled by
the entries with an index outside the table.  `accesses` records every entry that is read or
written, and `channels` the channels that FS has obtained from PM and not given back.

FS asks PM for a channel and to close one, and waits for the answers; they are part of a request
(`PmAnswer`).  Waiting for the driver in `local_close_char`, and the bytes that are copied, are left
out.
-/

namespace Savannah

open Foundation

namespace Fs

/-- `TYPE_FILE` -/
abbrev typeFile : ℕ := 1

/-- `O_RDONLY` -/
abbrev oRdonly : ℤ := 0

/-- The numbers of FS's requests. -/
abbrev openIpc : ℕ := 1

@[inherit_doc openIpc]
abbrev readIpc : ℕ := 2

@[inherit_doc openIpc]
abbrev closeIpc : ℕ := 3

@[inherit_doc openIpc]
abbrev loadIpc : ℕ := 4

@[inherit_doc openIpc]
abbrev writeIpc : ℕ := 7

/-- `struct header`: a file of the file system. -/
structure FileHeader where
  name : String
  type : ℕ
  length : ℕ
  offset : ℕ
  deriving DecidableEq, Repr

/-- `struct open_reply`; the channel is `none` where the source leaves it unset. -/
structure OpenReply where
  fd : ℤ
  channel : Option ℕ
  deriving DecidableEq, Repr

/-- The data of a message that FS sends. -/
inductive FsPayload where
  | result (r : ℤ)
  | openReply (r : OpenReply)
  | readReply (count : ℤ)
  | writeReply (sender : ℕ) (count : ℤ)
  /-- `struct keyboard_read` -/
  | keyboardRead (sender channel : ℕ) (count : ℤ)
  /-- `struct console_write` -/
  | consoleWrite (sender channel : ℕ) (count : ℤ)
  | address (a : ℕ)
  deriving DecidableEq, Repr

/-- A message put with `msg_reply` into the slot `slot` of the inbox of `dst`. -/
structure FsPost where
  slot : ℕ
  dst : ℕ
  number : ℕ
  data : FsPayload
  deriving DecidableEq, Repr

/-- The places where FS panics or halts. -/
inductive FsPanic where
  /-- "FS: Unknown char file!" -/
  | unknownChar
  /-- "local_read_char: TOO big fd value" -/
  | bigFd
  /-- "local_read_char: \"from\" not valid!" -/
  | badSender
  /-- "local_read_char: No channle found!" -/
  | noChannel
  /-- "FS: local_read: File type is unknown!" -/
  | unknownType
  /-- "cnl_send: No channel specified" -/
  | cnlSend
  /-- "FS: The reply from PM when closing the channel is not 0" -/
  | closeReply
  deriving DecidableEq, Repr

/-- The state of FS and of the tables it works on. -/
structure FsState where
  /-- The CPUs whose `vm_fds` is not `NULL`. -/
  hasFds : ℕ → Bool
  /-- The descriptors of each CPU. -/
  fds : ℕ → ℤ → FileDescriptor
  /-- The files of the file system, and its address. -/
  files : List FileHeader
  filesystem : ℕ
  /-- The entries of tables that were read or written: CPU, index. -/
  accesses : List (ℕ × ℤ)
  channels : List OpenChannel
  sent : List FsPost

/-- The functions of FS. -/
abbrev FsM := EStateM (Stop FsPanic) FsState

/-- PM's answers to the requests that FS makes while it serves one. -/
structure PmAnswer where
  /-- The address of the new channel. -/
  channel : ℕ
  /-- The result of closing a channel. -/
  close : ℤ
  deriving DecidableEq, Repr

/-! ### Tables -/

/-- `get_fds`: whether there is a table. -/
def getFds (sender : ℕ) : FsM Bool := do
  if sender > maxCpus then
    return false
  else
    return (← get).hasFds sender

/-- Reading `fds[fd]`. -/
def readFd (sender : ℕ) (fd : ℤ) : FsM FileDescriptor := do
  modify fun s => { s with accesses := s.accesses ++ [(sender, fd)] }
  return (← get).fds sender fd

/-- Assigning to `fds[fd]`. -/
def writeFd (sender : ℕ) (fd : ℤ) (f : FileDescriptor → FileDescriptor) : FsM Unit :=
  modify fun s => { s with
    accesses := s.accesses ++ [(sender, fd)]
    fds := fun c i => if c = sender ∧ i = fd then f (s.fds c i) else s.fds c i }

/-- `msg_reply` -/
def send (m : FsPost) : FsM Unit := modify fun s => { s with sent := s.sent ++ [m] }

/-- The search for the lowest free entry from `i` on, with `n` entries left; the result is the value
of the loop variable. -/
def findFree (sender : ℕ) : ℕ → ℕ → FsM ℕ
  | 0, i => pure i
  | n + 1, i => do
    if (← readFd sender i).offset = 0 then
      pure i
    else
      findFree sender n (i + 1)

/-! ### The handlers -/

/-- The answer of a failed `local_open`. -/
def openFailed : OpenReply := ⟨-1, none⟩

/-- The descriptor and the driver of a character device.  The search for "junkfd" is not followed by
a check that it found an entry. -/
def charDevice (pathname : String) (sender : ℕ) : FsM (ℤ × ℕ) := do
  if pathname = "stdin" then
    return (0, kbdId)
  else if pathname = "stdout" then
    return (1, consoleId)
  else if pathname = "junkfd" then
    let i ← findFree sender (maxFd - 2) 2
    return (i, junkId)
  else
    throw (.panic .unknownChar)

/-- `local_open_char` -/
def localOpenChar (pathname : String) (sender : ℕ) (pm : PmAnswer) : FsM OpenReply := do
  if sender > maxCpus then
    return openFailed
  if !(← getFds sender) then
    return openFailed
  let (fd, dst) ← charDevice pathname sender
  if (← readFd sender fd).offset ≠ 0 then
    return openFailed
  modify fun s => { s with channels := s.channels ++ [⟨pm.channel, sender, dst⟩] }
  writeFd sender fd fun _ => ⟨typeChar, 0, dst, pm.channel⟩
  return ⟨fd, some pm.channel⟩

/-- `local_open` -/
def localOpen (pathname : String) (flags : ℤ) (sender : ℕ) (pm : PmAnswer) : FsM OpenReply := do
  if pathname = "stdin" ∨ pathname = "stdout" ∨ pathname = "junkfd" then
    localOpenChar pathname sender pm
  else
    if !(← getFds sender) then
      return openFailed
    let fd ← findFree sender (maxFd - 2) 2
    if fd ≥ maxFd then
      return openFailed
    if flags ≠ oRdonly then
      return openFailed
    match (← get).files.find? fun h => h.name = pathname with
    | none => return openFailed
    | some h =>
      writeFd sender fd fun _ => ⟨h.type, h.length, 0, h.offset⟩
      return ⟨fd, some 0⟩

/-- `get_type` -/
def getType (fd : ℤ) (sender : ℕ) : FsM ℤ := do
  if fd > maxFd ∨ fd < 0 then
    return -1
  if !(← getFds sender) then
    return -1
  let f ← readFd sender fd
  if f.type = 0 then
    return -1
  return int32 f.type

/-- `local_read_char` -/
def localReadChar (fd count : ℤ) (sender : ℕ) : FsM ℤ := do
  if fd > maxFd then
    throw (.panic .bigFd)
  if sender > maxCpus then
    throw (.panic .badSender)
  let dst := if fd = 0 then kbdId else consoleId
  if !(← getFds sender) then
    return 0
  let channel := (← readFd sender fd).offset
  if channel = 0 then
    throw (.panic .noChannel)
  send ⟨sender, dst, readIpc, .keyboardRead sender channel count⟩
  return count

/-- `local_read_file`; the comparison of the `int` with the `uint32_t` is unsigned. -/
def localReadFile (fd count : ℤ) (sender : ℕ) : FsM ℤ := do
  if !(← getFds sender) then
    return 0
  let f ← readFd sender fd
  return if count % 2 ^ 32 > f.length then int32 f.length else count

/-- `local_read` -/
def localRead (fd count : ℤ) (sender : ℕ) : FsM ℤ := do
  if (← getType fd sender) < 0 then
    return -1
  if !(← getFds sender) then
    return -1
  let f ← readFd sender fd
  if f.type = typeChar then
    localReadChar fd count sender
  else if f.type = typeFile then
    localReadFile fd count sender
  else
    throw (.panic .unknownType)

/-- `local_write`.  The refusal is not followed by a return. -/
def localWrite (fd : ℤ) (buf : ℕ) (count : ℤ) (sender : ℕ) : FsM Unit := do
  if (← getType fd sender) = typeFile ∨ fd ≠ 1 then
    send ⟨fsId, sender, writeIpc, .writeReply sender (-1)⟩
  send ⟨sender, consoleId, writeIpc, .consoleWrite sender buf count⟩

/-- `local_close_char` -/
def localCloseChar (fd : ℤ) (sender : ℕ) (pm : PmAnswer) : FsM Unit := do
  let offset := (← readFd sender fd).offset
  if offset = 0 then
    throw (.panic .cnlSend)
  if pm.close ≠ 0 then
    throw (.panic .closeReply)
  modify fun s => { s with channels := s.channels.filter fun o => o.addr ≠ offset }
  writeFd sender fd fun f => { f with offset := 0 }
  let dst := if fd = 0 then kbdId else if fd = 1 then consoleId else junkId
  send ⟨fsId, dst, channelCloseIpc, .result 0⟩

/-- `local_close`.  The index is only compared with `MAX_FD`. -/
def localClose (fd : ℤ) (sender : ℕ) (pm : PmAnswer) : FsM ℤ := do
  if fd > maxFd then
    return -1
  if !(← getFds sender) then
    return -1
  if (← readFd sender fd).type = typeChar then
    localCloseChar fd sender pm
  writeFd sender fd fun f => { f with type := 0, length := 0, offset := 0 }
  return 0

/-- `local_load` -/
def localLoad (path : String) : FsM ℕ := do
  let s ← get
  match s.files.find? fun h => h.name = path with
  | none => return 0
  | some h => return s.filesystem + h.offset

/-- A request to FS. -/
inductive FsRequest where
  | open (pathname : String) (flags : ℤ)
  | read (fd count : ℤ)
  | write (fd : ℤ) (buf : ℕ) (count : ℤ)
  | close (fd : ℤ)
  | load (path : String)
  deriving DecidableEq, Repr

/-- Serving one request: one turn of the loop of `vm_main`. -/
def handle (sender : ℕ) (pm : PmAnswer) : FsRequest → FsM Unit
  | .open pathname flags => do
    if isDriver sender then
      send ⟨fsId, sender, openIpc, .result (-1)⟩
    else
      let r ← localOpen pathname flags sender pm
      send ⟨fsId, sender, openIpc, .openReply r⟩
  | .read fd count => do
    let r ← localRead fd count sender
    if (← getType fd sender) = typeFile then
      send ⟨fsId, sender, readIpc, .readReply r⟩
  | .write fd buf count => localWrite fd buf count sender
  | .close fd => do
    let r ← localClose fd sender pm
    send ⟨fsId, sender, closeIpc, .result r⟩
  | .load path => do
    let a ← if sender = pmId then localLoad path else pure 0
    send ⟨fsId, sender, loadIpc, .address a⟩

end Fs

end Savannah
