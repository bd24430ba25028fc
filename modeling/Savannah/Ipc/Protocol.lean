import Savannah.Foundation.Exchange
import Savannah.Ipc.Messages

/-!
# Requests and replies through shared memory

`msg_send`, `msg_receive`, `msg_check` and `msg_reply` of `lib/ipc.c`, on a machine with at most 31
CPUs.  Each assignment, each byte that `memcpy` copies and each access to a ready word is a step of
its own, and the steps of the CPUs interleave in any order; `set_bit` and `clear_bit` are atomic.

Every CPU has a client part and a server part that take steps independently.  This includes a server
that sends requests to other servers while it handles one, in whatever order its code does that.
The slot that `msg_receive` looks at next is left open: `msg_receive (from)` looks at one slot only,
`msg_receive (ANY)` at all of them in turn.

The ready bits, the outboxes and the inboxes realise an exchange of requests and replies: `Sim`
relates a state of the machine to the stages of the clients, and `sim_step` shows that a step is a
move of the exchange or invisible.  In particular a ready bit is set exactly while a request is
pending, and an inbox slot holds a number only while there is a reply that was not received yet.
-/

namespace Savannah.Messaging

open Foundation Ipc

/-! ### The machine -/

/-- `struct message` -/
structure Message where
  src : ℕ
  number : ℕ
  data : ℕ → UInt8

/-- The arguments of `msg_send`. -/
structure Request where
  dst : ℕ
  number : ℕ
  data : List UInt8
  deriving DecidableEq, Repr

/-- The arguments of `msg_reply` besides the two CPUs. -/
structure Reply where
  number : ℕ
  data : List UInt8
  deriving DecidableEq, Repr

/-- Where a CPU is as a client. -/
inductive ClientPhase where
  | idle
  /-- In `msg_send`, about to assign `from` and `number`, and to copy byte `k`. -/
  | sendFrom (r : Request)
  | sendNumber (r : Request)
  | sendData (r : Request) (k : ℕ)
  /-- In `msg_receive`, or about to call it. -/
  | waiting (r : Request)
  /-- In `msg_receive`, having seen a number in a slot. -/
  | receiving (r : Request) (slot : ℕ)
  deriving DecidableEq, Repr

/-- Where a CPU is as a server. -/
inductive ServerPhase where
  /-- In the first loop of `msg_check`. -/
  | idle
  /-- In the second loop, about to look at bit `i`. -/
  | scan (i : ℕ)
  /-- About to clear bit `i`. -/
  | clear (i : ℕ)
  /-- `msg_check` has returned the outbox of `i`. -/
  | handle (i : ℕ)
  /-- In `msg_reply`, about to assign `from`, and to copy byte `k` or assign `number`. -/
  | replyFrom (dst : ℕ) (a : Reply)
  | replyData (dst : ℕ) (a : Reply) (k : ℕ)
  /-- `msg_check` has found no bit, and `from` is `-1`. -/
  | outside
  deriving DecidableEq, Repr

/-- What a CPU sees of its exchanges. -/
abbrev Entry := Exchange.Entry ℕ Request Reply Message

/-- The shared memory and the CPUs.  `log` is not part of the machine: it records what is sent,
taken, replied and received. -/
structure Net where
  client : ℕ → ClientPhase
  server : ℕ → ServerPhase
  /-- `msg_output` -/
  outbox : ℕ → Message
  /-- `msg_input`, with a slot for each sender. -/
  inbox : ℕ → ℕ → Message
  /-- `msg_ready_bitmap` -/
  word : ℕ → BitVec 64
  log : List Entry

/-- The steps. -/
inductive Event where
  /-- A call of `msg_send`, and its next step. -/
  | call (c : ℕ) (r : Request)
  | send (c : ℕ)
  /-- `msg_receive` looks at a slot; it returns. -/
  | poll (c i : ℕ)
  | receive (c : ℕ)
  /-- The next step of `msg_check`. -/
  | check (v : ℕ)
  /-- A call of `msg_reply`, and its next step. -/
  | answer (v : ℕ) (a : Reply)
  | reply (v : ℕ)
  deriving DecidableEq, Repr

/-- Assigning to slot `i` of the inbox of `c`. -/
def Net.setInbox (s : Net) (c i : ℕ) (m : Message) : ℕ → ℕ → Message :=
  Function.update s.inbox c (Function.update (s.inbox c) i m)

/-- A step of `msg_send`. -/
def sendStep (s : Net) (c : ℕ) : Option Net :=
  match s.client c with
  | .sendFrom r => some { s with
      outbox := Function.update s.outbox c { s.outbox c with src := c }
      client := Function.update s.client c (.sendNumber r) }
  | .sendNumber r => some { s with
      outbox := Function.update s.outbox c { s.outbox c with number := r.number }
      client := Function.update s.client c (.sendData r 0) }
  | .sendData r k =>
    match r.data[k]? with
    | some b => some { s with
        outbox := Function.update s.outbox c
          { s.outbox c with data := Function.update (s.outbox c).data k b }
        client := Function.update s.client c (.sendData r (k + 1)) }
    | none => some { s with
        word := Function.update s.word r.dst (setBit (s.word r.dst) c)
        client := Function.update s.client c (.waiting r)
        log := s.log ++ [.sent c r] }
  | _ => none

/-- A step of `msg_check` on a machine with `n` CPUs. -/
def checkStep (n : ℕ) (s : Net) (v : ℕ) : Option Net :=
  match s.server v with
  | .idle => some { s with
      server := Function.update s.server v (if s.word v ≠ 0 then .scan 0 else .idle) }
  | .scan i => some { s with
      server := Function.update s.server v
        (if i < n then if checkBit (s.word v) i = 1 then .clear i else .scan (i + 1)
        else .outside) }
  | .clear i => some { s with
      word := Function.update s.word v (clearBit (s.word v) i)
      server := Function.update s.server v (.handle i)
      log := s.log ++ [.taken v i (s.outbox i)] }
  | _ => none

/-- A step of `msg_reply`. -/
def replyStep (s : Net) (v : ℕ) : Option Net :=
  match s.server v with
  | .replyFrom dst a => some { s with
      inbox := s.setInbox dst v { s.inbox dst v with src := v }
      server := Function.update s.server v (.replyData dst a 0) }
  | .replyData dst a k =>
    match a.data[k]? with
    | some b => some { s with
        inbox := s.setInbox dst v
          { s.inbox dst v with data := Function.update (s.inbox dst v).data k b }
        server := Function.update s.server v (.replyData dst a (k + 1)) }
    | none => some { s with
        inbox := s.setInbox dst v { s.inbox dst v with number := a.number }
        server := Function.update s.server v .idle
        log := s.log ++ [.replied v dst a] }
  | _ => none

/-- One step of a machine with `n` CPUs. -/
def step (n : ℕ) (s : Net) : Event → Option Net
  | .call c r =>
    if c < n ∧ r.data.length ≤ msgDataSize ∧ s.client c = .idle then
      some { s with client := Function.update s.client c (.sendFrom r) }
    else none
  | .send c => sendStep s c
  | .poll c i =>
    match s.client c with
    | .waiting r => some { s with
        client := Function.update s.client c
          (if (s.inbox c i).number ≠ 0 then .receiving r i else .waiting r) }
    | _ => none
  | .receive c =>
    match s.client c with
    | .receiving _ i => some { s with
        inbox := s.setInbox c i { s.inbox c i with number := 0 }
        client := Function.update s.client c .idle
        log := s.log ++ [.received c i (s.inbox c i)] }
    | _ => none
  | .check v => if v < n then checkStep n s v else none
  | .answer v a =>
    match s.server v with
    | .handle i =>
      if a.data.length ≤ msgDataSize then
        some { s with server := Function.update s.server v (.replyFrom (s.outbox i).src a) }
      else none
    | _ => none
  | .reply v => replyStep s v

/-- The steps as a relation. -/
def Step (n : ℕ) (s : Net) (ev : Event) (s' : Net) : Prop := step n s ev = some s'

/-- At the start nothing is sent; the contents of the outboxes and inboxes are arbitrary, except for
the numbers in the inboxes. -/
structure Net.Initial (s : Net) : Prop where
  client : ∀ c, s.client c = .idle
  server : ∀ v, s.server v = .idle
  inbox : ∀ c i, (s.inbox c i).number = 0
  word : ∀ v, s.word v = 0
  log : s.log = []

/-! ### The exchange -/

/-- The first `k` bytes of `l` have been copied to `d`. -/
def Copied (d : ℕ → UInt8) (l : List UInt8) (k : ℕ) : Prop := ∀ j < k, l[j]? = some (d j)

/-- The exchange that the machine realises. -/
def exchange : Exchange ℕ Request Reply Message where
  server r := r.dst
  Carries c r m := m.src = c ∧ m.number = r.number ∧ Copied m.data r.data r.data.length
  Answers v a m := m.src = v ∧ m.number = a.number ∧ Copied m.data a.data a.data.length

/-- The stages of the clients. -/
abbrev Stages := ℕ → Exchange.Stage Request Reply

/-- The phase of a client and its outbox fit its stage. -/
inductive ClientOk (c : ℕ) (m : Message) : ClientPhase → Exchange.Stage Request Reply → Prop
  | idle : ClientOk c m .idle .quiet
  | sendFrom (r : Request) : ClientOk c m (.sendFrom r) .quiet
  | sendNumber (r : Request) (hsrc : m.src = c) : ClientOk c m (.sendNumber r) .quiet
  | sendData (r : Request) (k : ℕ) (hsrc : m.src = c) (hnum : m.number = r.number)
      (hdata : Copied m.data r.data k) : ClientOk c m (.sendData r k) .quiet
  | pending (r : Request) (hm : exchange.Carries c r m) : ClientOk c m (.waiting r) (.pending r)
  | taken (r : Request) (hm : exchange.Carries c r m) : ClientOk c m (.waiting r) (.taken r)
  | replied (r : Request) (a : Reply) : ClientOk c m (.waiting r) (.replied r a)
  | receiving (r : Request) (a : Reply) : ClientOk c m (.receiving r r.dst) (.replied r a)

/-- The server `v` has taken the request of `c`. -/
def Serving (σ : Stages) (v c : ℕ) : Prop := ∃ r, σ c = .taken r ∧ r.dst = v

/-- The phase of a server fits the stages of its clients. -/
inductive ServerOk (s : Net) (σ : Stages) (v : ℕ) : ServerPhase → Prop
  | idle : ServerOk s σ v .idle
  | scan (i b : ℕ) (hle : i ≤ b) (hbit : (s.word v).getLsbD b = true) : ServerOk s σ v (.scan i)
  | clear (i : ℕ) (hbit : (s.word v).getLsbD i = true) : ServerOk s σ v (.clear i)
  | handle (i : ℕ) (hserve : Serving σ v i) : ServerOk s σ v (.handle i)
  | replyFrom (i : ℕ) (a : Reply) (hserve : Serving σ v i) : ServerOk s σ v (.replyFrom i a)
  | replyData (i : ℕ) (a : Reply) (k : ℕ) (hserve : Serving σ v i) (hsrc : (s.inbox i v).src = v)
      (hdata : Copied (s.inbox i v).data a.data k) : ServerOk s σ v (.replyData i a k)

/-- A state of the machine and the stages of the clients fit. -/
structure Sim (n : ℕ) (s : Net) (σ : Stages) : Prop where
  small : ∀ c, s.client c ≠ .idle → c < n
  client : ∀ c, ClientOk c (s.outbox c) (s.client c) (σ c)
  server : ∀ v, ServerOk s σ v (s.server v)
  word : ∀ v c, (s.word v).getLsbD c = true ↔ ∃ r, σ c = .pending r ∧ r.dst = v
  /-- A number in an inbox is that of a reply to be received. -/
  inbox : ∀ c i, (s.inbox c i).number ≠ 0 → ∃ r a, σ c = .replied r a ∧ r.dst = i
  replied : ∀ c r a, σ c = .replied r a → exchange.Answers r.dst a (s.inbox c r.dst)

/-! ### Copying -/

section Copy

variable {d : ℕ → UInt8} {l : List UInt8} {k : ℕ} {b : UInt8}

theorem copied_zero : Copied d l 0 := fun j hj => absurd hj (Nat.not_lt_zero j)

/-- Copying one more byte. -/
theorem Copied.succ (h : Copied d l k) (hb : l[k]? = some b) :
    Copied (Function.update d k b) l (k + 1) := by
  intro j hj
  rcases Nat.lt_succ_iff_lt_or_eq.mp hj with hlt | rfl
  · rw [Function.update_of_ne (by omega)]
    exact h j hlt
  · rw [Function.update_self, hb]

/-- When there is no byte left, all are copied. -/
theorem Copied.all (h : Copied d l k) (hb : l[k]? = none) : Copied d l l.length := fun j hj =>
  h j (lt_of_lt_of_le hj (List.getElem?_eq_none_iff.mp hb))

end Copy

/-! ### What a step leaves alone -/

section Frame

variable {n v c i : ℕ} {s s' : Net} {σ σ' : Stages} {p : ServerPhase} {m : Message}

/-- A server stays where it is if its bits stay set and what it works on is not touched. -/
theorem ServerOk.mono (h : ServerOk s σ v p)
    (hword : ∀ b, (s.word v).getLsbD b = true → (s'.word v).getLsbD b = true)
    (hserve : ∀ c, Serving σ v c → Serving σ' v c)
    (hinbox : ∀ c, Serving σ v c → s'.inbox c v = s.inbox c v) : ServerOk s' σ' v p := by
  cases h with
  | idle => exact .idle
  | scan i b hle hbit => exact .scan i b hle (hword b hbit)
  | clear i hbit => exact .clear i (hword i hbit)
  | handle i hs => exact .handle i (hserve i hs)
  | replyFrom i a hs => exact .replyFrom i a (hserve i hs)
  | replyData i a k hs hsrc hdata =>
    have heq := hinbox i hs
    exact .replyData i a k (hserve i hs) (heq ▸ hsrc) (heq ▸ hdata)

/-- A client that changes its stage was not being served. -/
theorem Serving.update {st : Exchange.Stage Request Reply} (h : Serving σ v i)
    (hc : ¬ Serving σ v c) : Serving (Function.update σ c st) v i := by
  obtain ⟨r, hr, hv⟩ := h
  have hne : i ≠ c := fun heq => hc ⟨r, heq ▸ hr, hv⟩
  exact ⟨r, by rw [Function.update_of_ne hne, hr], hv⟩

theorem not_serving_of_ne (h : ∀ r, σ c ≠ .taken r) : ¬ Serving σ v c := fun ⟨r, hr, _⟩ => h r hr

/-- Assigning to a slot leaves the others alone. -/
theorem setInbox_of_ne {c' i' : ℕ} (h : c' ≠ c ∨ i' ≠ i) :
    s.setInbox c i m c' i' = s.inbox c' i' := by
  unfold Net.setInbox
  by_cases hc : c' = c
  · subst hc
    rw [Function.update_self, Function.update_of_ne (h.resolve_left (fun hn => hn rfl))]
  · rw [Function.update_of_ne hc]

@[simp] theorem setInbox_self : s.setInbox c i m c i = m := by
  rw [Net.setInbox, Function.update_self, Function.update_self]

/-- A bit belongs to a CPU of the machine. -/
theorem Sim.bit_lt (h : Sim n s σ) {b : ℕ} (hbit : (s.word v).getLsbD b = true) : b < n := by
  obtain ⟨r, hr, -⟩ := (h.word v b).mp hbit
  refine h.small b fun hidle => ?_
  have hok := h.client b
  rw [hidle, hr] at hok
  cases hok

end Frame

/-! ### The steps of a client -/

section Client

variable {n c i : ℕ} {s s' : Net} {σ : Stages} {r : Request} {m : Message} {q : ClientPhase}

/-- A client writes to its outbox and goes on, at the same stage. -/
theorem Sim.client_step (h : Sim n s σ) (hc : c < n) (hok : ClientOk c m q (σ c)) :
    Sim n { s with
      outbox := Function.update s.outbox c m
      client := Function.update s.client c q } σ where
  small c' hne := by
    by_cases heq : c' = c
    · exact heq ▸ hc
    · exact h.small c' (by simpa only [Function.update_of_ne heq] using hne)
  client c' := by
    by_cases heq : c' = c
    · subst heq
      simpa only [Function.update_self] using hok
    · simpa only [Function.update_of_ne heq] using h.client c'
  server v := (h.server v).mono (fun _ hb => hb) (fun _ hs => hs) fun _ _ => rfl
  word := h.word
  inbox := h.inbox
  replied := h.replied

/-- `set_bit` makes the request pending. -/
theorem Sim.set_bit (h : Sim n s σ) (hn : n ≤ 31) (hc : c < n) (hquiet : σ c = .quiet)
    (hm : exchange.Carries c r (s.outbox c)) :
    Sim n { s with
      word := Function.update s.word r.dst (setBit (s.word r.dst) c)
      client := Function.update s.client c (.waiting r)
      log := s.log ++ [.sent c r] } (Function.update σ c (.pending r)) where
  small c' hne := by
    by_cases heq : c' = c
    · exact heq ▸ hc
    · exact h.small c' (by simpa only [Function.update_of_ne heq] using hne)
  client c' := by
    by_cases heq : c' = c
    · subst heq
      simp only [Function.update_self]
      exact .pending r hm
    · simpa only [Function.update_of_ne heq] using h.client c'
  server v := by
    refine (h.server v).mono (fun b hb => ?_) (fun i hs => hs.update ?_) fun _ _ => rfl
    · by_cases hv : v = r.dst
      · subst hv
        simp only [Function.update_self]
        rw [getLsbD_setBit (by omega), hb, Bool.true_or]
      · simpa only [Function.update_of_ne hv] using hb
    · exact not_serving_of_ne fun r' => by rw [hquiet]; exact nofun
  word v c' := by
    have hold := h.word v c'
    dsimp only
    by_cases heq : c' = c
    · subst heq
      have hclear : (s.word v).getLsbD c' = false := by
        by_contra hset
        obtain ⟨r', hr', -⟩ := hold.mp (by simpa using hset)
        rw [hquiet] at hr'
        cases hr'
      by_cases hv : v = r.dst
      · subst hv
        simp [getLsbD_setBit (show c' < 31 by omega)]
      · simp [Function.update_of_ne hv, hclear, Ne.symm hv]
    · by_cases hv : v = r.dst
      · subst hv
        rw [Function.update_self, getLsbD_setBit (by omega), Function.update_of_ne heq,
          decide_eq_false (Ne.symm heq), Bool.or_false]
        exact hold
      · rw [Function.update_of_ne hv, Function.update_of_ne heq]
        exact hold
  inbox c' i hne := by
    obtain ⟨r', a, hr', hi⟩ := h.inbox c' i hne
    have hcc : c' ≠ c := fun heq => by rw [heq, hquiet] at hr'; cases hr'
    exact ⟨r', a, by rw [Function.update_of_ne hcc, hr'], hi⟩
  replied c' r' a hr' := by
    by_cases heq : c' = c
    · rw [heq, Function.update_self] at hr'
      cases hr'
    · rw [Function.update_of_ne heq] at hr'
      exact h.replied c' r' a hr'

/-- `msg_receive` returns the reply. -/
theorem Sim.receive {a : Reply} (h : Sim n s σ) (hreplied : σ c = .replied r a) :
    Sim n { s with
      inbox := s.setInbox c r.dst { s.inbox c r.dst with number := 0 }
      client := Function.update s.client c .idle
      log := s.log ++ [.received c r.dst (s.inbox c r.dst)] } (Function.update σ c .quiet) where
  small c' hne := by
    by_cases heq : c' = c
    · subst heq
      exact absurd (Function.update_self c' _ s.client) hne
    · exact h.small c' (by simpa only [Function.update_of_ne heq] using hne)
  client c' := by
    by_cases heq : c' = c
    · subst heq
      simp only [Function.update_self]
      exact .idle
    · simpa only [Function.update_of_ne heq] using h.client c'
  server v := by
    have hnot : ¬ Serving σ v c := not_serving_of_ne fun r' => by rw [hreplied]; exact nofun
    refine (h.server v).mono (fun b hb => hb) (fun i hs => hs.update hnot) fun i hs => ?_
    exact setInbox_of_ne (Or.inl fun heq => hnot (heq ▸ hs))
  word v c' := by
    by_cases heq : c' = c
    · subst heq
      rw [Function.update_self, h.word v c', hreplied]
      simp
    · rw [Function.update_of_ne heq]
      exact h.word v c'
  inbox c' i hne := by
    by_cases hslot : c' = c ∧ i = r.dst
    · obtain ⟨rfl, rfl⟩ := hslot
      simp at hne
    · simp only [setInbox_of_ne (not_and_or.mp hslot)] at hne
      obtain ⟨r', a', hr', hi⟩ := h.inbox c' i hne
      -- a client has a number only in the slot of its server
      have hcc : c' ≠ c := by
        rintro rfl
        rw [hreplied] at hr'
        cases hr'
        exact hslot ⟨rfl, hi.symm⟩
      exact ⟨r', a', by rw [Function.update_of_ne hcc, hr'], hi⟩
  replied c' r' a' hr' := by
    by_cases heq : c' = c
    · rw [heq, Function.update_self] at hr'
      cases hr'
    · rw [Function.update_of_ne heq] at hr'
      simp only [setInbox_of_ne (Or.inl heq)]
      exact h.replied c' r' a' hr'

end Client

/-! ### The steps of a server -/

section Server

variable {n v c i : ℕ} {s s' : Net} {σ : Stages} {r : Request} {a : Reply} {m : Message}
  {p : ServerPhase}

/-- A server goes on without touching anything. -/
theorem Sim.server_step (h : Sim n s σ) (hok : ServerOk s σ v p) :
    Sim n { s with server := Function.update s.server v p } σ where
  small := h.small
  client := h.client
  server v' := by
    have hsame : ServerOk s σ v' (Function.update s.server v p v') := by
      by_cases heq : v' = v
      · subst heq
        rwa [Function.update_self]
      · simp only [Function.update_of_ne heq]
        exact h.server v'
    exact hsame.mono (fun _ hb => hb) (fun _ hs => hs) fun _ _ => rfl
  word := h.word
  inbox := h.inbox
  replied := h.replied

/-- A server writes to the inbox of the client that it serves, but not the number. -/
theorem Sim.fill (h : Sim n s σ) (hserve : Serving σ v c) (hnum : m.number = (s.inbox c v).number)
    (hok : ServerOk { s with inbox := s.setInbox c v m } σ v p) :
    Sim n { s with
      inbox := s.setInbox c v m
      server := Function.update s.server v p } σ where
  small := h.small
  client := h.client
  server v' := by
    by_cases heq : v' = v
    · subst heq
      simp only [Function.update_self]
      exact hok.mono (fun _ hb => hb) (fun _ hs => hs) fun _ _ => rfl
    · simp only [Function.update_of_ne heq]
      exact (h.server v').mono (fun _ hb => hb) (fun _ hs => hs) fun _ _ =>
        setInbox_of_ne (Or.inr heq)
  word := h.word
  inbox c' i' hne := by
    refine h.inbox c' i' ?_
    by_cases hslot : c' = c ∧ i' = v
    · obtain ⟨rfl, rfl⟩ := hslot
      simpa only [setInbox_self, hnum] using hne
    · simpa only [setInbox_of_ne (not_and_or.mp hslot)] using hne
  replied c' r' a' hr' := by
    obtain ⟨r, hr, -⟩ := hserve
    have hcc : c' ≠ c := fun heq => by rw [heq, hr] at hr'; cases hr'
    simp only [setInbox_of_ne (Or.inl hcc)]
    exact h.replied c' r' a' hr'

/-- `clear_bit` takes the request. -/
theorem Sim.clear_bit (h : Sim n s σ) (hn : n ≤ 31) (hpending : σ i = .pending r) (hi : i < n) :
    Sim n { s with
      word := Function.update s.word r.dst (clearBit (s.word r.dst) i)
      server := Function.update s.server r.dst (.handle i)
      log := s.log ++ [.taken r.dst i (s.outbox i)] } (Function.update σ i (.taken r)) where
  small := h.small
  client c' := by
    by_cases heq : c' = i
    · subst heq
      have hok := h.client c'
      rw [hpending] at hok
      simp only [Function.update_self]
      generalize s.client c' = q at hok
      cases hok with
      | pending _ hm => exact .taken r hm
    · simp only [Function.update_of_ne heq]
      exact h.client c'
  server v' := by
    by_cases heq : v' = r.dst
    · subst heq
      simp only [Function.update_self]
      exact .handle i ⟨r, Function.update_self i _ σ, rfl⟩
    · simp only [Function.update_of_ne heq]
      refine (h.server v').mono (fun b hb => ?_) (fun j hs => hs.update ?_) fun _ _ => rfl
      · dsimp only
        rwa [Function.update_of_ne heq]
      · exact not_serving_of_ne fun r' => by rw [hpending]; exact nofun
  word v' c' := by
    have hold := h.word v' c'
    dsimp only
    by_cases heq : c' = i
    · subst heq
      have hclear : (Function.update s.word r.dst (clearBit (s.word r.dst) c') v').getLsbD c'
          = false := by
        by_cases hv : v' = r.dst
        · subst hv
          rw [Function.update_self, getLsbD_clearBit (by omega), decide_eq_true rfl, Bool.not_true,
            Bool.and_false]
        · rw [Function.update_of_ne hv]
          by_contra hset
          obtain ⟨r', hr', hdst⟩ := hold.mp (by simpa using hset)
          rw [hpending] at hr'
          cases hr'
          exact hv hdst.symm
      rw [hclear, Function.update_self]
      simp
    · simp only [Function.update_of_ne heq]
      by_cases hv : v' = r.dst
      · subst hv
        rw [Function.update_self, getLsbD_clearBit (by omega), decide_eq_false (Ne.symm heq),
          Bool.not_false, Bool.and_true]
        exact hold
      · rw [Function.update_of_ne hv]
        exact hold
  inbox c' i' hne := by
    obtain ⟨r', a, hr', hi'⟩ := h.inbox c' i' hne
    have hcc : c' ≠ i := fun heq => by rw [heq, hpending] at hr'; cases hr'
    exact ⟨r', a, by rw [Function.update_of_ne hcc, hr'], hi'⟩
  replied c' r' a hr' := by
    by_cases heq : c' = i
    · rw [heq, Function.update_self] at hr'
      cases hr'
    · rw [Function.update_of_ne heq] at hr'
      exact h.replied c' r' a hr'

/-- Assigning the number completes the reply. -/
theorem Sim.reply (h : Sim n s σ) (htaken : σ c = .taken r)
    (hm : exchange.Answers r.dst a { s.inbox c r.dst with number := a.number }) :
    Sim n { s with
      inbox := s.setInbox c r.dst { s.inbox c r.dst with number := a.number }
      server := Function.update s.server r.dst .idle
      log := s.log ++ [.replied r.dst c a] } (Function.update σ c (.replied r a)) where
  small := h.small
  client c' := by
    by_cases heq : c' = c
    · subst heq
      have hok := h.client c'
      rw [htaken] at hok
      simp only [Function.update_self]
      generalize s.client c' = q at hok
      cases hok with
      | taken _ hm => exact .replied r a
    · simp only [Function.update_of_ne heq]
      exact h.client c'
  server v' := by
    by_cases heq : v' = r.dst
    · subst heq
      simp only [Function.update_self]
      exact .idle
    · simp only [Function.update_of_ne heq]
      have hnot : ¬ Serving σ v' c := by
        rintro ⟨r', hr', hdst⟩
        rw [htaken] at hr'
        cases hr'
        exact heq hdst.symm
      exact (h.server v').mono (fun b hb => hb) (fun j hs => hs.update hnot) fun j hs =>
        setInbox_of_ne (Or.inr heq)
  word v' c' := by
    by_cases heq : c' = c
    · subst heq
      rw [Function.update_self, h.word v' c', htaken]
      simp
    · simp only [Function.update_of_ne heq]
      exact h.word v' c'
  inbox c' i' hne := by
    by_cases heq : c' = c
    · subst heq
      by_cases hv : i' = r.dst
      · exact ⟨r, a, Function.update_self c' _ σ, hv.symm⟩
      · simp only [setInbox_of_ne (Or.inr hv)] at hne
        obtain ⟨r', a', hr', -⟩ := h.inbox c' i' hne
        rw [htaken] at hr'
        cases hr'
    · simp only [setInbox_of_ne (Or.inl heq)] at hne
      simp only [Function.update_of_ne heq]
      exact h.inbox c' i' hne
  replied c' r' a' hr' := by
    by_cases heq : c' = c
    · subst heq
      rw [Function.update_self] at hr'
      cases hr'
      simp only [setInbox_self]
      exact hm
    · rw [Function.update_of_ne heq] at hr'
      simp only [setInbox_of_ne (Or.inl heq)]
      exact h.replied c' r' a' hr'

end Server

/-! ### The simulation -/

section Simulation

variable {n c v i : ℕ} {s s' s₀ : Net} {σ : Stages} {ev : Event} {evs : List Event}

/-- A step to `s'` is invisible or a move of the exchange. -/
def Simulated (n : ℕ) (s : Net) (σ : Stages) (s' : Net) : Prop :=
  ∃ es σ', s'.log = s.log ++ es ∧ Run exchange.Move σ es σ' ∧ Sim n s' σ'

/-- A step that the log does not show. -/
theorem Simulated.silent (hlog : s'.log = s.log) (h : Sim n s' σ) : Simulated n s σ s' :=
  ⟨[], σ, by rw [hlog, List.append_nil], .nil σ, h⟩

/-- A step of the exchange. -/
theorem Simulated.move {e : Entry} {σ' : Stages} (hlog : s'.log = s.log ++ [e])
    (hmove : exchange.Move σ e σ') (h : Sim n s' σ') : Simulated n s σ s' :=
  ⟨[e], σ', hlog, .cons hmove (.nil σ'), h⟩

/-- A client goes on without writing to its outbox. -/
theorem Sim.client_goes_on {q : ClientPhase} (h : Sim n s σ) (hc : c < n)
    (hok : ClientOk c (s.outbox c) q (σ c)) :
    Sim n { s with client := Function.update s.client c q } σ := by
  have := h.client_step hc hok
  rwa [Function.update_eq_self] at this

/-- A step of `msg_send`; the last one makes the request pending. -/
theorem Sim.send_step (h : Sim n s σ) (hn : n ≤ 31) (hstep : sendStep s c = some s') :
    Simulated n s σ s' := by
  have hok := h.client c
  have hc : s.client c ≠ .idle → c < n := h.small c
  unfold sendStep at hstep
  generalize s.client c = q at hok hstep hc
  generalize hstage : σ c = st at hok
  cases hok with
  | idle | pending | taken | replied | receiving => exact absurd hstep nofun
  | sendFrom r =>
    obtain rfl := Option.some.inj hstep
    exact .silent rfl (h.client_step (hc nofun) (hstage ▸ .sendNumber r rfl))
  | sendNumber r hsrc =>
    obtain rfl := Option.some.inj hstep
    exact .silent rfl (h.client_step (hc nofun) (hstage ▸ .sendData r 0 hsrc rfl copied_zero))
  | sendData r k hsrc hnum hdata =>
    dsimp only at hstep
    cases hb : r.data[k]? with
    | some b =>
      rw [hb] at hstep
      obtain rfl := Option.some.inj hstep
      exact .silent rfl
        (h.client_step (hc nofun) (hstage ▸ .sendData r (k + 1) hsrc hnum (hdata.succ hb)))
    | none =>
      rw [hb] at hstep
      obtain rfl := Option.some.inj hstep
      exact .move rfl (.send hstage) (h.set_bit hn (hc nofun) hstage ⟨hsrc, hnum, hdata.all hb⟩)

/-- `msg_receive` looks at a slot.  A number there belongs to the reply. -/
theorem Sim.poll (h : Sim n s σ) (hstep : step n s (.poll c i) = some s') :
    Simulated n s σ s' := by
  have hok := h.client c
  have hc : s.client c ≠ .idle → c < n := h.small c
  unfold step at hstep
  dsimp only at hstep
  generalize s.client c = q at hok hstep hc
  cases q with
  | idle | sendFrom | sendNumber | sendData | receiving => exact absurd hstep nofun
  | waiting r =>
    obtain rfl := Option.some.inj hstep
    refine .silent rfl (h.client_goes_on (hc nofun) ?_)
    split
    · rename_i hne
      obtain ⟨r', a, hreplied, rfl⟩ := h.inbox c i hne
      rw [hreplied] at hok ⊢
      cases hok
      exact .receiving r a
    · exact hok

/-- `msg_receive` returns. -/
theorem Sim.receive_step (h : Sim n s σ) (hstep : step n s (.receive c) = some s') :
    Simulated n s σ s' := by
  have hok := h.client c
  unfold step at hstep
  dsimp only at hstep
  generalize s.client c = q at hok hstep
  generalize hstage : σ c = st at hok
  cases hok with
  | idle | sendFrom | sendNumber | sendData | pending | taken | replied => exact absurd hstep nofun
  | receiving r a =>
    obtain rfl := Option.some.inj hstep
    exact .move rfl (.receive hstage (h.replied c r a hstage)) (h.receive hstage)

/-- A word that is not zero has a bit that is set. -/
theorem exists_bit {w : BitVec 64} (h : w ≠ 0) : ∃ b, w.getLsbD b = true := by
  by_contra hnone
  push Not at hnone
  refine h (BitVec.eq_of_getLsbD_eq fun b _ => ?_)
  simpa using hnone b

/-- A step of `msg_check`.  The scan does not miss the bit that the first loop has seen, since only
the server itself clears its bits. -/
theorem Sim.check_step (h : Sim n s σ) (hn : n ≤ 31) (hstep : checkStep n s v = some s') :
    Simulated n s σ s' := by
  have hok := h.server v
  unfold checkStep at hstep
  generalize s.server v = p at hok hstep
  cases hok with
  | handle | replyFrom | replyData => exact absurd hstep nofun
  | idle =>
    obtain rfl := Option.some.inj hstep
    refine .silent rfl (h.server_step ?_)
    split
    · rename_i hne
      obtain ⟨b, hb⟩ := exists_bit hne
      exact .scan 0 b (Nat.zero_le b) hb
    · exact .idle
  | scan i b hle hbit =>
    obtain rfl := Option.some.inj hstep
    have hb := h.bit_lt hbit
    refine .silent rfl (h.server_step ?_)
    rw [if_pos (lt_of_le_of_lt hle hb), checkBit_eq (by omega)]
    cases hi : (s.word v).getLsbD i with
    | true => exact .clear i hi
    | false =>
      have hne : i ≠ b := fun heq => by rw [heq, hbit] at hi; cases hi
      exact .scan (i + 1) b (by omega) hbit
  | clear i hbit =>
    obtain rfl := Option.some.inj hstep
    obtain ⟨r, hr, rfl⟩ := (h.word v i).mp hbit
    have hcarries : exchange.Carries i r (s.outbox i) := by
      have hclient := h.client i
      rw [hr] at hclient
      generalize s.client i = q at hclient
      cases hclient with
      | pending _ hm => exact hm
    exact .move rfl (.take hr hcarries) (h.clear_bit hn hr (h.bit_lt hbit))

/-- A call of `msg_reply`; the message names its sender. -/
theorem Sim.answer {a : Reply} (h : Sim n s σ) (hstep : step n s (.answer v a) = some s') :
    Simulated n s σ s' := by
  have hok := h.server v
  unfold step at hstep
  dsimp only at hstep
  generalize s.server v = p at hok hstep
  cases hok with
  | idle | scan | clear | replyFrom | replyData => exact absurd hstep nofun
  | handle i hserve =>
    obtain ⟨r, hr, hdst⟩ := hserve
    have hsrc : (s.outbox i).src = i := by
      have hclient := h.client i
      rw [hr] at hclient
      generalize s.client i = q at hclient
      cases hclient with
      | taken _ hm => exact hm.1
    dsimp only at hstep
    split at hstep
    · obtain rfl := Option.some.inj hstep
      refine .silent rfl (h.server_step ?_)
      rw [hsrc]
      exact .replyFrom i a ⟨r, hr, hdst⟩
    · exact absurd hstep nofun

/-- A step of `msg_reply`; the last one completes the reply. -/
theorem Sim.reply_step (h : Sim n s σ) (hstep : replyStep s v = some s') :
    Simulated n s σ s' := by
  have hok := h.server v
  unfold replyStep at hstep
  generalize s.server v = p at hok hstep
  cases hok with
  | idle | scan | clear | handle => exact absurd hstep nofun
  | replyFrom i a hserve =>
    obtain rfl := Option.some.inj hstep
    refine .silent rfl (h.fill hserve rfl (.replyData i a 0 hserve ?_ copied_zero))
    simp only [setInbox_self]
  | replyData i a k hserve hsrc hdata =>
    dsimp only at hstep
    cases hb : a.data[k]? with
    | some b =>
      rw [hb] at hstep
      obtain rfl := Option.some.inj hstep
      refine .silent rfl (h.fill hserve rfl (.replyData i a (k + 1) hserve ?_ ?_))
      · simpa only [setInbox_self] using hsrc
      · simpa only [setInbox_self] using hdata.succ hb
    | none =>
      rw [hb] at hstep
      obtain rfl := Option.some.inj hstep
      obtain ⟨r, hr, rfl⟩ := hserve
      exact .move rfl (.reply hr) (h.reply hr ⟨hsrc, rfl, hdata.all hb⟩)

/-- Every step is invisible or a move of the exchange. -/
theorem sim_step (hn : n ≤ 31) (h : Sim n s σ) (hstep : Step n s ev s') : Simulated n s σ s' := by
  cases ev with
  | call c r =>
    dsimp only [Step, step] at hstep
    split at hstep
    · rename_i hcall
      obtain rfl := Option.some.inj hstep
      have hok := h.client c
      rw [hcall.2.2] at hok
      refine .silent rfl (h.client_goes_on hcall.1 ?_)
      generalize σ c = st at hok
      cases hok
      exact .sendFrom r
    · exact absurd hstep nofun
  | send c => exact h.send_step hn hstep
  | poll c i => exact h.poll hstep
  | receive c => exact h.receive_step hstep
  | check v =>
    dsimp only [Step, step] at hstep
    split at hstep
    · exact h.check_step hn hstep
    · exact absurd hstep nofun
  | answer v a => exact h.answer hstep
  | reply v => exact h.reply_step hstep

/-- At the start every client is quiet. -/
theorem sim_initial (h : s.Initial) : Sim n s fun _ => .quiet where
  small c hne := absurd (h.client c) hne
  client c := h.client c ▸ .idle
  server v := h.server v ▸ .idle
  word v c := by simp [h.word v]
  inbox c i hne := absurd (h.inbox c i) hne
  replied c r a hr := by cases hr

/-- Every run of the machine is a run of the exchange. -/
theorem sim_run (hn : n ≤ 31) (h₀ : s₀.Initial) (hrun : Run (Step n) s₀ evs s) :
    ∃ σ, Run exchange.Move (fun _ => .quiet) s.log σ ∧ Sim n s σ := by
  refine hrun.invariant (I := fun s => ∃ σ, Run exchange.Move (fun _ => .quiet) s.log σ ∧ Sim n s σ)
    (fun s ev s' hstep hs => ?_) ⟨_, h₀.log ▸ .nil _, sim_initial h₀⟩
  obtain ⟨σ, hlog, hsim⟩ := hs
  obtain ⟨es, σ', hlog', hmoves, hsim'⟩ := sim_step hn hsim hstep
  exact ⟨σ', hlog' ▸ hlog.append hmoves, hsim'⟩

end Simulation

/-! ### A pending request can be taken -/

section Progress

variable {n c v i k : ℕ} {s s' : Net} {σ : Stages} {a : Reply}

/-- The steps of a server. -/
def Event.By (v : ℕ) : Event → Prop
  | .check v' => v' = v
  | .answer v' _ => v' = v
  | .reply v' => v' = v
  | _ => False

/-- A step of the server `v`. -/
def Own (n v : ℕ) (s s' : Net) : Prop := ∃ ev : Event, ev.By v ∧ Step n s ev s'

/-- The server `v`, taking steps alone, reaches a phase with its word unchanged. -/
def Reaches (n v : ℕ) (s : Net) (p : ServerPhase) : Prop :=
  ∃ s', Relation.ReflTransGen (Own n v) s s' ∧ s'.server v = p ∧ s'.word v = s.word v

/-- One step, and then more. -/
theorem Reaches.head {p : ServerPhase} (s' : Net) (hstep : Own n v s s')
    (hword : s'.word v = s.word v) (h : Reaches n v s' p) : Reaches n v s p := by
  obtain ⟨t, hrun, hp, hw⟩ := h
  exact ⟨t, .head hstep hrun, hp, hw.trans hword⟩

/-- A step of `msg_check` that only moves the server. -/
theorem Reaches.check {p q : ServerPhase} (hv : v < n)
    (hstep : checkStep n s v = some { s with server := Function.update s.server v q })
    (h : Reaches n v { s with server := Function.update s.server v q } p) : Reaches n v s p :=
  .head _ ⟨.check v, rfl, (if_pos hv).trans hstep⟩ rfl h

theorem reaches_of_phase {p : ServerPhase} (h : s.server v = p) : Reaches n v s p :=
  ⟨s, .refl, h, rfl⟩

/-- The scan finds a bit. -/
theorem reaches_clear_of_scan (hn : n ≤ 31) (hv : v < n) {b : ℕ} (hb : b < n)
    (hbit : (s.word v).getLsbD b = true) (hphase : s.server v = .scan i) (hle : i ≤ b) :
    ∃ j, Reaches n v s (.clear j) := by
  induction h : b - i generalizing s i with
  | zero =>
    obtain rfl : i = b := by omega
    refine ⟨i, .check (q := .clear i) hv ?_ (reaches_of_phase (Function.update_self v _ _))⟩
    simp [checkStep, hphase, hb, checkBit_eq (show i < 31 by omega), hbit]
  | succ d ih =>
    have hi : i < n := by omega
    by_cases hset : (s.word v).getLsbD i = true
    · refine ⟨i, .check (q := .clear i) hv ?_ (reaches_of_phase (Function.update_self v _ _))⟩
      simp [checkStep, hphase, hi, checkBit_eq (show i < 31 by omega), hset]
    · obtain ⟨j, hj⟩ := ih (s := { s with server := Function.update s.server v (.scan (i + 1)) })
        hbit (Function.update_self v _ s.server) (by omega) (by omega)
      refine ⟨j, .check hv ?_ hj⟩
      simp [checkStep, hphase, hi, checkBit_eq (show i < 31 by omega), hset]

/-- A server that waits for a request finds one. -/
theorem reaches_clear_of_idle (hn : n ≤ 31) (hv : v < n) {b : ℕ} (hb : b < n)
    (hbit : (s.word v).getLsbD b = true) (hphase : s.server v = .idle) :
    ∃ j, Reaches n v s (.clear j) := by
  have hne : s.word v ≠ 0 := fun h => by simp [h] at hbit
  obtain ⟨j, hj⟩ := reaches_clear_of_scan
    (s := { s with server := Function.update s.server v (.scan 0) }) hn hv hb hbit
    (Function.update_self v _ s.server) (Nat.zero_le b)
  exact ⟨j, .check hv (by simp only [checkStep, hphase, if_pos hne]) hj⟩

/-- A reply that has been started is completed. -/
theorem reaches_idle_of_replyData {dst : ℕ} (hphase : s.server v = .replyData dst a k) :
    Reaches n v s .idle := by
  induction h : a.data.length - k generalizing s k with
  | zero =>
    have hb : a.data[k]? = none := List.getElem?_eq_none_iff.mpr (by omega)
    have hstep : replyStep s v = some { s with
        inbox := s.setInbox dst v { s.inbox dst v with number := a.number }
        server := Function.update s.server v .idle
        log := s.log ++ [.replied v dst a] } := by
      simp only [replyStep, hphase, hb]
    exact .head _ ⟨.reply v, rfl, hstep⟩ rfl (reaches_of_phase (Function.update_self v _ _))
  | succ d ih =>
    have hb : a.data[k]? = some (a.data.get ⟨k, by omega⟩) := List.getElem?_eq_getElem _
    have hstep : replyStep s v = some { s with
        inbox := s.setInbox dst v { s.inbox dst v with
          data := Function.update (s.inbox dst v).data k (a.data.get ⟨k, by omega⟩) }
        server := Function.update s.server v (.replyData dst a (k + 1)) } := by
      simp only [replyStep, hphase, hb]
    exact .head _ ⟨.reply v, rfl, hstep⟩ rfl (ih (Function.update_self v _ _) (by omega))

theorem reaches_idle_of_replyFrom {dst : ℕ} (hphase : s.server v = .replyFrom dst a) :
    Reaches n v s .idle := by
  have hstep : replyStep s v = some { s with
      inbox := s.setInbox dst v { s.inbox dst v with src := v }
      server := Function.update s.server v (.replyData dst a 0) } := by
    simp only [replyStep, hphase]
  exact .head _ ⟨.reply v, rfl, hstep⟩ rfl
    (reaches_idle_of_replyData (Function.update_self v _ s.server))

/-- The server finishes a request. -/
theorem reaches_idle_of_handle (hphase : s.server v = .handle i) : Reaches n v s .idle := by
  have hstep : step n s (.answer v ⟨1, []⟩) = some { s with
      server := Function.update s.server v (.replyFrom (s.outbox i).src ⟨1, []⟩) } := by
    simp [step, hphase]
  exact .head _ ⟨.answer v _, rfl, hstep⟩ rfl
    (reaches_idle_of_replyFrom (Function.update_self v _ s.server))

/-- A server with a bit in its word gets to the point of clearing one. -/
theorem Sim.reaches_clear (h : Sim n s σ) (hn : n ≤ 31) (hv : v < n)
    (hbit : (s.word v).getLsbD c = true) : ∃ j, Reaches n v s (.clear j) := by
  have hc := h.bit_lt hbit
  -- a server that is busy becomes idle first
  have hidle : Reaches n v s .idle → ∃ j, Reaches n v s (.clear j) := by
    rintro ⟨t, hrun, hphase, hword⟩
    obtain ⟨j, u, hrun', hclear, hword'⟩ :=
      reaches_clear_of_idle hn hv hc (hword ▸ hbit) hphase
    exact ⟨j, u, hrun.trans hrun', hclear, hword'.trans hword⟩
  have hok := h.server v
  generalize hphase : s.server v = p at hok
  cases hok with
  | idle => exact hidle (reaches_of_phase hphase)
  | scan i b hle hb => exact reaches_clear_of_scan hn hv (h.bit_lt hb) hb hphase hle
  | clear i => exact ⟨i, reaches_of_phase hphase⟩
  | handle i => exact hidle (reaches_idle_of_handle hphase)
  | replyFrom i a => exact hidle (reaches_idle_of_replyFrom hphase)
  | replyData i a k => exact hidle (reaches_idle_of_replyData hphase)

/-- Steps of a server keep the simulation. -/
theorem Sim.own (h : Sim n s σ) (hn : n ≤ 31) (hrun : Relation.ReflTransGen (Own n v) s s') :
    ∃ es σ', s'.log = s.log ++ es ∧ Sim n s' σ' := by
  induction hrun with
  | refl => exact ⟨[], σ, (List.append_nil _).symm, h⟩
  | tail _ hstep ih =>
    obtain ⟨es, σ₁, hlog, h₁⟩ := ih
    obtain ⟨ev, -, hev⟩ := hstep
    obtain ⟨es', σ₂, hlog', -, h₂⟩ := sim_step hn h₁ hev
    exact ⟨es ++ es', σ₂, by rw [hlog', hlog, List.append_assoc], h₂⟩

/-- The bits of a word. -/
def bits (n : ℕ) (w : BitVec 64) : Finset ℕ := (Finset.range n).filter fun b => w.getLsbD b = true

/-- Clearing a bit that is set leaves fewer bits. -/
theorem card_bits_clearBit {w : BitVec 64} {j : ℕ} (hn : n ≤ 31) (hj : j < n)
    (hset : w.getLsbD j = true) : (bits n (clearBit w j)).card < (bits n w).card := by
  have hbits : ∀ b, (clearBit w j).getLsbD b = (w.getLsbD b && !decide (j = b)) :=
    getLsbD_clearBit (by omega)
  refine Finset.card_lt_card (Finset.ssubset_iff_of_subset (fun b hb => ?_) |>.mpr ⟨j, ?_, ?_⟩)
  · simp only [bits, hbits, Finset.mem_filter, Bool.and_eq_true] at hb ⊢
    exact ⟨hb.1, hb.2.1⟩
  · exact Finset.mem_filter.mpr ⟨Finset.mem_range.mpr hj, hset⟩
  · simp [bits, hbits]

/-- The server can take a pending request with steps of its own only.  By induction on the number of
bits that are set: each round of the server clears one. -/
theorem Sim.can_take (h : Sim n s σ) (hn : n ≤ 31) (hv : v < n)
    (hbit : (s.word v).getLsbD c = true) :
    ∃ s' es m, Relation.ReflTransGen (Own n v) s s' ∧ s'.log = s.log ++ es ∧
      .taken v c m ∈ es := by
  induction hcard : (bits n (s.word v)).card using Nat.strong_induction_on generalizing s σ with
  | _ d ih =>
    obtain ⟨j, t, hrun, hphase, hword⟩ := h.reaches_clear hn hv hbit
    obtain ⟨es, σ₁, hlog, h₁⟩ := h.own hn hrun
    have hj : (t.word v).getLsbD j = true := by
      have hok := h₁.server v
      rw [hphase] at hok
      cases hok
      assumption
    have hstep : Own n v t { t with
        word := Function.update t.word v (clearBit (t.word v) j)
        server := Function.update t.server v (.handle j)
        log := t.log ++ [.taken v j (t.outbox j)] } :=
      ⟨.check v, rfl, by simp only [Step, step, if_pos hv, checkStep, hphase]⟩
    by_cases hjc : j = c
    · subst hjc
      exact ⟨_, es ++ [.taken v j (t.outbox j)], t.outbox j, hrun.tail hstep,
        by rw [← List.append_assoc, ← hlog], by simp⟩
    · obtain ⟨-, σ₂, -, h₂⟩ := h₁.own hn (.single hstep)
      have hjn := h₁.bit_lt hj
      have hlt := card_bits_clearBit hn hjn hj
      have hbit' : (clearBit (t.word v) j).getLsbD c = true := by
        rw [getLsbD_clearBit (by omega), hword, hbit, decide_eq_false hjc]
        rfl
      rw [← Function.update_self v (clearBit (t.word v) j) t.word] at hlt hbit'
      obtain ⟨u, es', m, hrun', hlog', hmem⟩ := ih _ (by rwa [← hcard, ← hword]) h₂ hbit' rfl
      exact ⟨u, es ++ [.taken v j (t.outbox j)] ++ es', m, (hrun.tail hstep).trans hrun',
        by rw [hlog', hlog]; simp only [List.append_assoc], List.mem_append_right _ hmem⟩

end Progress

/-! ### Exactly once -/

/-- The outbox that a step writes to. -/
def Event.outbox (s : Net) : Event → Option ℕ
  | .send c =>
    match s.client c with
    | .sendFrom _ => some c
    | .sendNumber _ => some c
    | .sendData r k => if k < r.data.length then some c else none
    | _ => none
  | _ => none

/-- The inbox slot that a step of `msg_reply` writes to. -/
def Event.slot (s : Net) : Event → Option (ℕ × ℕ)
  | .reply v =>
    match s.server v with
    | .replyFrom dst _ => some (dst, v)
    | .replyData dst _ _ => some (dst, v)
    | _ => none
  | _ => none

/-- The server has got the outbox of `c` and not replied yet. -/
def ServerPhase.Serves (c : ℕ) : ServerPhase → Prop
  | .handle i => i = c
  | .replyFrom i _ => i = c
  | .replyData i _ _ => i = c
  | _ => False

/-- What holds of the state `s` of a machine with `n` CPUs and of what happened before. -/
structure ExactlyOnce (n : ℕ) (s : Net) : Prop where
  /-- The entries of a client are complete rounds and the beginning of one; a request that was sent
  and not taken is marked in the word of its server. -/
  rounds : ∀ c, ∃ st, exchange.Rounds c st s.log ∧
    ∀ r, st = .pending r → (s.word r.dst).getLsbD c = true
  /-- A request that is marked can be taken by steps of the server alone. -/
  served : ∀ v < n, ∀ c, (s.word v).getLsbD c = true →
    ∃ s' es m, Relation.ReflTransGen (Own n v) s s' ∧ s'.log = s.log ++ es ∧ .taken v c m ∈ es
  /-- `msg_check` always finds a bit. -/
  found : ∀ v, s.server v ≠ .outside
  /-- An outbox is written to only if it is not marked for any server, and no server uses it. -/
  outbox : ∀ ev s' c, Step n s ev s' → ev.outbox s = some c →
    ∀ v, (s.word v).getLsbD c = false ∧ ¬ (s.server v).Serves c
  /-- A reply is written only to a slot without a number. -/
  inbox : ∀ ev s' c i, Step n s ev s' → ev.slot s = some (c, i) → (s.inbox c i).number = 0

section Main

variable {n : ℕ} {s s' s₀ : Net} {σ : Stages} {ev : Event} {evs : List Event} {c v i : ℕ}

/-- A client writes to its outbox only at the stage `quiet`. -/
theorem Sim.quiet_of_outbox (h : Sim n s σ) (hev : ev.outbox s = some c) : σ c = .quiet := by
  cases ev with
  | send c' =>
    have hok := h.client c'
    dsimp only [Event.outbox] at hev
    generalize s.client c' = q at hok hev
    generalize hstage : σ c' = st at hok
    cases hok with
    | idle | pending | taken | replied | receiving => exact absurd hev nofun
    | sendFrom r | sendNumber r => exact Option.some.inj hev ▸ hstage
    | sendData r k =>
      dsimp only at hev
      split at hev
      · exact Option.some.inj hev ▸ hstage
      · exact absurd hev nofun
  | call | poll | receive | check | answer | reply => exact absurd hev nofun

/-- `msg_reply` writes only to the slot of a client that is served. -/
theorem Sim.serving_of_slot (h : Sim n s σ) (hev : ev.slot s = some (c, i)) : Serving σ i c := by
  cases ev with
  | reply v' =>
    have hok := h.server v'
    dsimp only [Event.slot] at hev
    generalize s.server v' = p at hok hev
    cases hok with
    | idle | scan | clear | handle => exact absurd hev nofun
    | replyFrom j a hs | replyData j a k hs =>
      obtain ⟨rfl, rfl⟩ := Prod.mk.inj (Option.some.inj hev)
      exact hs
  | call | send | poll | receive | check | answer => exact absurd hev nofun

/-- The server serves a client that asked. -/
theorem Sim.serving_of_serves (h : Sim n s σ) (hserve : (s.server v).Serves c) : Serving σ v c := by
  have hok := h.server v
  generalize s.server v = p at hok hserve
  cases hok with
  | idle | scan | clear => exact hserve.elim
  | handle _ hs | replyFrom _ _ hs | replyData _ _ _ hs => exact hserve ▸ hs

/-- A machine in which nothing has happened. -/
def quietNet : Net where
  client _ := .idle
  server _ := .idle
  outbox _ := ⟨0, 0, fun _ => 0⟩
  inbox _ _ := ⟨0, 0, fun _ => 0⟩
  word _ := 0
  log := []

theorem quietNet_initial : quietNet.Initial :=
  ⟨fun _ => rfl, fun _ => rfl, fun _ _ => rfl, fun _ => rfl, rfl⟩

/-- CPU 2 calls `msg_send`, and the server on CPU 0 `msg_check`. -/
def requestEvents : List Event :=
  [.call 2 ⟨0, 1, [7]⟩, .send 2, .send 2, .send 2, .send 2, .check 0, .check 0, .check 0, .check 0,
    .check 0]

theorem requestEvents_isSome : (requestEvents.foldlM (step 31) quietNet).isSome = true := by
  decide

end Main

end Savannah.Messaging
