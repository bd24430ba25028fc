import Savannah.Ipc.ChannelClose

/-!
# The use of a channel

Behind the flags of a channel there is one state, its `Use`: whose turn it is.  `Rel` relates the
uses of the channels to the flags, to the clients and the servers on the one side and to the drivers
on the other.  Every step keeps it (`rel_step`), and it implies the handshake (`Rel.handshake`).

The steps fall into three groups.  A client or a closing server changes a channel that no driver has
in hand (`Rel.set_chan`).  A driver changes a channel that is its own (`Rel.advance`).  When PM
removes a channel and the message is posted, its driver waits (`Rel.free`, `Rel.post`).
-/

namespace Savannah.ChannelClose

open Foundation

/-! ### The use of a channel -/

/-- Whose turn it is on a channel.  The flag says whether the request is a marker. -/
inductive Use where
  | absent
  /-- Nothing is on its way. -/
  | calm
  /-- `ready_send` is set, the driver has the request, `ready_reply` is set. -/
  | sent (close : Bool)
  | taken (close : Bool)
  | answered (close : Bool)
  /-- The server has seen the answer to its marker; the page is freed. -/
  | done
  | gone
  deriving DecidableEq, Repr

/-- The page of the channel can be used. -/
def Use.Open (u : Use) : Prop := u ≠ .absent ∧ u ≠ .gone

/-- The driver has answered a marker, and the page is not freed yet. -/
def Use.Ending (u : Use) : Prop := u = .answered true ∨ u = .done

/-- Who waits for the answer. -/
def UserAt (x : Chan) (close : Bool) : Prop :=
  if close then ∃ v, x.user = .closing v else x.user = .recv

/-- The flags of a channel and its client fit its use. -/
def ChanOk (x : Chan) : Use → Prop
  | .absent => x.user = .absent ∧ x.freed = false
  | .calm => x.freed = false ∧ x.readySend = false ∧
      (x.user = .idle ∨ (x.user = .clear ∧ x.marker = false) ∨
        (x.user = .set ∧ x.marker = false ∧ x.readyReply = false) ∨ ∃ v, x.user = .closing v)
  | .sent b => x.freed = false ∧ x.readySend = true ∧ x.readyReply = false ∧
      x.marker = b ∧ UserAt x b
  | .taken b =>
      x.freed = false ∧ x.readySend = false ∧ x.readyReply = false ∧ x.marker = b ∧ UserAt x b
  | .answered b =>
      x.freed = false ∧ x.readySend = false ∧ x.readyReply = true ∧ x.marker = b ∧ UserAt x b
  | .done => x.freed = false ∧ x.readySend = false ∧ ∃ v, x.user = .closing v
  | .gone => x.freed = true ∧ ∃ v, x.user = .closing v

/-- The use of the channel that a server closes, by its stage. -/
def StageOk (x : Chan) (u : Use) : Stage → Prop
  | .mark => u = .calm
  | .clear => u = .calm ∧ x.marker = true
  | .set => u = .calm ∧ x.marker = true ∧ x.readyReply = false
  | .recv => u = .sent true ∨ u = .taken true ∨ u = .answered true

/-- The driver of a channel waits for the end of its close. -/
def Sys.Waits (s : Sys) (ch : ℕ) : Prop := s.driver (s.chan ch).driver = .wait ch

def FsOk (s : Sys) (use : ℕ → Use) : FsPhase → Prop
  | .idle => True
  | .closing st ch => (s.chan ch).user = .closing .fs ∧ StageOk (s.chan ch) (use ch) st
  | .ask ch => (s.chan ch).user = .closing .fs ∧ use ch = .done
  | .post ch => (s.chan ch).user = .closing .fs ∧ use ch = .gone ∧ s.Waits ch

def PmOk (s : Sys) (use : ℕ → Use) : PmPhase → Prop
  | .idle => True
  | .closing st ch => (s.chan ch).user = .closing .pm ∧ StageOk (s.chan ch) (use ch) st
  | .shift own ch => use ch = .done ∧
      (if own then (s.chan ch).user = .closing .pm else s.fs = .ask ch)
  | .free own ch => use ch = .done ∧
      (if own then (s.chan ch).user = .closing .pm else s.fs = .ask ch)
  | .post ch => (s.chan ch).user = .closing .pm ∧ use ch = .gone ∧ s.Waits ch
  | .load => True

/-- The phase of a driver fits the use of the channel it works on. -/
def DriverOk (s : Sys) (use : ℕ → Use) (d : ℕ) : DriverPhase → Prop
  | .scan => True
  | .look ch => (s.chan ch).driver = d ∧ (use ch).Open
  | .picked ch => (s.chan ch).driver = d ∧ ∃ b, use ch = .taken b
  | .serve ch => (s.chan ch).driver = d ∧ use ch = .taken false
  | .reply ch b => (s.chan ch).driver = d ∧ use ch = .taken b
  | .flag ch b => (s.chan ch).driver = d ∧ use ch = .taken b
  | .wait ch => (s.chan ch).driver = d ∧ ((use ch).Ending ∨
      use ch = .gone ∧ (s.fs = .post ch ∨ s.pm = .post ch ∨ s.slot d = some ch))

/-- A driver has taken the request of a channel and has not answered it. -/
def DriverPhase.Holds (q : DriverPhase) (ch : ℕ) : Prop :=
  q = .picked ch ∨ q = .serve ch ∨ ∃ b, q = .reply ch b ∨ q = .flag ch b

/-- A server that closes a channel has it in hand until the page is freed. -/
def Sys.Busy (s : Sys) (ch : ℕ) : Closer → Prop
  | .fs => (∃ st, s.fs = .closing st ch) ∨ s.fs = .ask ch
  | .pm => (∃ st, s.pm = .closing st ch) ∨ s.pm = .shift true ch ∨ s.pm = .free true ch

/-- A state and the uses of the channels fit. -/
structure Rel (s : Sys) (use : ℕ → Use) : Prop where
  chan : ∀ ch, ChanOk (s.chan ch) (use ch)
  named : ∀ ch, use ch ≠ .absent → (s.chan ch).driver = driverOf (s.chan ch).fd
  fs : FsOk s use s.fs
  pm : PmOk s use s.pm
  busy : ∀ ch v, (s.chan ch).user = .closing v → use ch = .gone ∨ s.Busy ch v
  array : ∀ d ch, ch ∈ s.array d ↔
    (s.chan ch).driver = d ∧ (use ch).Open ∧ ∀ own, s.pm ≠ .free own ch
  driver : ∀ d, DriverOk s use d (s.driver d)
  waits : ∀ ch, (use ch).Ending → s.Waits ch
  slot : ∀ d ch, s.slot d = some ch →
    s.driver d = .wait ch ∧ use ch = .gone ∧ s.fs ≠ .post ch ∧ s.pm ≠ .post ch
  hand : ∀ ch b, use ch = .taken b → (s.driver (s.chan ch).driver).Holds ch

/-! ### What a step leaves alone -/

/-- The channel that FS closes. -/
def FsPhase.chan : FsPhase → Option ℕ
  | .idle => none
  | .closing _ ch => some ch
  | .ask ch => some ch
  | .post ch => some ch

/-- The channel that PM closes or removes. -/
def PmPhase.chan : PmPhase → Option ℕ
  | .idle => none
  | .closing _ ch => some ch
  | .shift _ ch => some ch
  | .free _ ch => some ch
  | .post ch => some ch
  | .load => none

/-- The channel that a driver works on. -/
def DriverPhase.chan : DriverPhase → Option ℕ
  | .wait ch => some ch
  | q => q.touches

/-- A change of the use of a channel that its driver does not notice. -/
structure Keeps (u u' : Use) : Prop where
  opened : u.Open → u'.Open
  taken : ∀ b, u = .taken b → u' = .taken b
  ending : u.Ending → u'.Ending
  gone : u = .gone → u' = .gone

theorem Keeps.refl (u : Use) : Keeps u u := ⟨id, fun _ => id, id, id⟩

section Frame

variable {s s' : Sys} {use use' : ℕ → Use} {f : FsPhase} {p : PmPhase} {q : DriverPhase} {d ch : ℕ}

/-- A change of a channel that the server which closes it does not notice. -/
structure Follows (s s' : Sys) (use use' : ℕ → Use) (c : ℕ) : Prop where
  user : (s'.chan c).user = (s.chan c).user
  stage : ∀ st, StageOk (s.chan c) (use c) st → StageOk (s'.chan c) (use' c) st
  done : use c = .done → use' c = .done
  gone : use c = .gone → use' c = .gone
  waits : use c = .gone → s.Waits c → s'.Waits c

/-- An untouched channel. -/
theorem Follows.of_eq {c : ℕ} (hchan : s'.chan c = s.chan c) (huse : use' c = use c)
    (hwaits : use c = .gone → s.Waits c → s'.Waits c) : Follows s s' use use' c :=
  ⟨by rw [hchan], fun st h => by rwa [hchan, huse], fun h => huse.trans h, fun h => huse.trans h,
    hwaits⟩

/-- What FS knows is kept. -/
theorem FsOk.frame (h : FsOk s use f) (hf : ∀ c, f.chan = some c → Follows s s' use use' c) :
    FsOk s' use' f := by
  cases f with
  | idle => trivial
  | closing st c =>
    have hc := hf c rfl
    exact ⟨hc.user.trans h.1, hc.stage st h.2⟩
  | ask c =>
    have hc := hf c rfl
    exact ⟨hc.user.trans h.1, hc.done h.2⟩
  | post c =>
    have hc := hf c rfl
    exact ⟨hc.user.trans h.1, hc.gone h.2.1, hc.waits h.2.1 h.2.2⟩

/-- What PM knows is kept. -/
theorem PmOk.frame (h : PmOk s use p) (hp : ∀ c, p.chan = some c → Follows s s' use use' c)
    (hask : ∀ c, s.fs = .ask c → s'.fs = .ask c) : PmOk s' use' p := by
  cases p with
  | idle | load => trivial
  | closing st c =>
    have hc := hp c rfl
    exact ⟨hc.user.trans h.1, hc.stage st h.2⟩
  | shift own c | free own c =>
    have hc := hp c rfl
    refine ⟨hc.done h.1, ?_⟩
    cases own with
    | true => exact hc.user.trans h.2
    | false => exact hask c h.2
  | post c =>
    have hc := hp c rfl
    exact ⟨hc.user.trans h.1, hc.gone h.2.1, hc.waits h.2.1 h.2.2⟩

/-- What a driver knows is kept. -/
theorem DriverOk.frame (h : DriverOk s use d q)
    (hq : ∀ c, q.chan = some c →
      (s'.chan c).driver = (s.chan c).driver ∧ Keeps (use c) (use' c) ∧
      (use c = .gone → (s.fs = .post c ∨ s.pm = .post c ∨ s.slot d = some c) →
        s'.fs = .post c ∨ s'.pm = .post c ∨ s'.slot d = some c)) : DriverOk s' use' d q := by
  cases q with
  | scan => trivial
  | look c =>
    obtain ⟨hchan, hkeep, -⟩ := hq c rfl
    exact ⟨hchan.trans h.1, hkeep.opened h.2⟩
  | picked c =>
    obtain ⟨hchan, hkeep, -⟩ := hq c rfl
    obtain ⟨hd, b, hb⟩ := h
    exact ⟨hchan.trans hd, b, hkeep.taken b hb⟩
  | serve c =>
    obtain ⟨hchan, hkeep, -⟩ := hq c rfl
    exact ⟨hchan.trans h.1, hkeep.taken false h.2⟩
  | reply c b | flag c b =>
    obtain ⟨hchan, hkeep, -⟩ := hq c rfl
    exact ⟨hchan.trans h.1, hkeep.taken b h.2⟩
  | wait c =>
    obtain ⟨hchan, hkeep, hpost⟩ := hq c rfl
    obtain ⟨hd, hend | ⟨hgone, hp⟩⟩ := h
    · exact ⟨hchan.trans hd, Or.inl (hkeep.ending hend)⟩
    · exact ⟨hchan.trans hd, Or.inr ⟨hkeep.gone hgone, hpost hgone hp⟩⟩

theorem DriverOk.driver (h : DriverOk s use d q) (hq : q.chan = some ch) :
    (s.chan ch).driver = d := by
  cases q <;> cases hq <;> exact h.1

/-- The user of the channel of FS. -/
theorem FsOk.user (h : FsOk s use f) (hf : f.chan = some ch) :
    (s.chan ch).user = .closing .fs := by
  cases f <;> cases hf <;> exact h.1

/-- PM has the channels that it closes, and the one that FS asks for. -/
theorem PmOk.user (h : PmOk s use p) (hp : p.chan = some ch) :
    (s.chan ch).user = .closing .pm ∨ s.fs = .ask ch := by
  cases p with
  | idle | load => cases hp
  | closing st c | post c => cases hp; exact Or.inl h.1
  | shift own c | free own c =>
    cases hp
    cases own
    · exact Or.inr h.2
    · exact Or.inl h.2

end Frame

/-! ### Steps that change one channel -/

section Channel

variable {s : Sys} {use : ℕ → Use} {f : FsPhase} {p : PmPhase} {x : Chan} {u : Use} {ch : ℕ}

@[simp] theorem Sys.set_self : (s.set ch x).chan ch = x := by
  simp only [Sys.set, Function.update_self]

/-- The other channels stay. -/
theorem Sys.set_of_ne {c : ℕ} (h : c ≠ ch) : (s.set ch x).chan c = s.chan c := by
  simp only [Sys.set, Function.update_of_ne h]

@[simp] theorem Sys.set_array : (s.set ch x).array = s.array := rfl

@[simp] theorem Sys.set_driver : (s.set ch x).driver = s.driver := rfl

/-- The other channels stay as they are. -/
theorem Follows.of_set {s' : Sys} {c : ℕ} (hc : c ≠ ch) (hchan : s'.chan = (s.set ch x).chan)
    (hdriver : s'.driver = s.driver) : Follows s s' use (Function.update use ch u) c := by
  have heq : s'.chan c = s.chan c := by rw [hchan, Sys.set_of_ne hc]
  refine .of_eq heq (Function.update_of_ne hc _ _) fun _ hw => ?_
  unfold Sys.Waits at hw ⊢
  rwa [heq, hdriver]

/-- A client or a server goes on with its channel, which is not in the hands of the driver. -/
theorem Rel.set_chan (h : Rel s use) (hx : ChanOk x u) (hdriver : x.driver = (s.chan ch).driver)
    (hfd : x.fd = (s.chan ch).fd) (hkeep : Keeps (use ch) u) (hback : Keeps u (use ch))
    (hopen : (use ch).Open)
    (hfs : FsOk { s.set ch x with fs := f, pm := p } (Function.update use ch u) f)
    (hpm : PmOk { s.set ch x with fs := f, pm := p } (Function.update use ch u) p)
    (hbusy : ∀ c v, ((s.set ch x).chan c).user = .closing v →
      Function.update use ch u c = .gone ∨ { s.set ch x with fs := f, pm := p }.Busy c v)
    (hpost : ∀ c, (f = .post c ↔ s.fs = .post c) ∧ (p = .post c ↔ s.pm = .post c))
    (hfree : ∀ own c, p = .free own c ↔ s.pm = .free own c) :
    Rel { s.set ch x with fs := f, pm := p } (Function.update use ch u) := by
  have hdriver' : ∀ c, ((s.set ch x).chan c).driver = (s.chan c).driver := fun c => by
    by_cases hc : c = ch
    · rw [hc, Sys.set_self, hdriver]
    · rw [Sys.set_of_ne hc]
  have hkeeps : ∀ c, Keeps (use c) (Function.update use ch u c) := fun c => by
    by_cases hc : c = ch
    · rwa [hc, Function.update_self]
    · rw [Function.update_of_ne hc]
      exact .refl _
  have hbacks : ∀ c, Keeps (Function.update use ch u c) (use c) := fun c => by
    by_cases hc : c = ch
    · rwa [hc, Function.update_self]
    · rw [Function.update_of_ne hc]
      exact .refl _
  refine ⟨fun c => ?_, fun c hc => ?_, hfs, hpm, hbusy, fun d c => ?_, fun d => ?_, fun c hc => ?_,
    fun d c hc => ?_, fun c b hb => ?_⟩
  · by_cases hc : c = ch
    · rw [hc, Function.update_self]
      simpa only [Sys.set_self] using hx
    · rw [Function.update_of_ne hc]
      simpa only [Sys.set_of_ne hc] using h.chan c
  · by_cases hcc : c = ch
    · subst hcc
      simp only [Sys.set_self]
      rw [hdriver, hfd]
      exact h.named c hopen.1
    · rw [Function.update_of_ne hcc] at hc
      simpa only [Sys.set_of_ne hcc] using h.named c hc
  · have hold := h.array d c
    simp only [hdriver', ne_eq, hfree]
    refine hold.trans (and_congr_right fun _ => and_congr_left fun _ => ?_)
    exact ⟨(hkeeps c).opened, (hbacks c).opened⟩
  · refine (h.driver d).frame fun c _ => ⟨hdriver' c, hkeeps c, fun _ hp => ?_⟩
    rwa [(hpost c).1, (hpost c).2]
  · have hw := h.waits c ((hbacks c).ending hc)
    unfold Sys.Waits at hw ⊢
    dsimp only
    rwa [hdriver']
  · obtain ⟨hwait, hgone, hf, hp⟩ := h.slot d c hc
    exact ⟨hwait, (hkeeps c).gone hgone, fun heq => hf ((hpost c).1.mp heq),
      fun heq => hp ((hpost c).2.mp heq)⟩
  · dsimp only
    rw [hdriver']
    exact h.hand c b ((hbacks c).taken b hb)

/-- A client goes on with its channel. -/
theorem Rel.client (h : Rel s use) (hx : ChanOk x u) (hdriver : x.driver = (s.chan ch).driver)
    (hfd : x.fd = (s.chan ch).fd) (hkeep : Keeps (use ch) u) (hback : Keeps u (use ch))
    (hopen : (use ch).Open) (hold : ∀ v, (s.chan ch).user ≠ .closing v)
    (hnew : ∀ v, x.user ≠ .closing v) : Rel (s.set ch x) (Function.update use ch u) := by
  -- no server has the channel in hand
  have hfs : ∀ c, s.fs.chan = some c → c ≠ ch := fun c hc heq =>
    hold .fs (heq ▸ h.fs.user hc)
  have hpm : ∀ c, s.pm.chan = some c → c ≠ ch := fun c hc heq => by
    rcases h.pm.user hc with hu | hask
    · exact hold .pm (heq ▸ hu)
    · exact hfs c (by rw [hask]; rfl) heq
  have hsame : ∀ c, c ≠ ch → Follows s (s.set ch x) use (Function.update use ch u) c := fun c hc =>
    .of_set hc rfl rfl
  refine h.set_chan (f := s.fs) (p := s.pm) hx hdriver hfd hkeep hback hopen
    (h.fs.frame fun c hc => hsame c (hfs c hc))
    (h.pm.frame (fun c hc => hsame c (hpm c hc)) fun c hc => hc) (fun c v hu => ?_)
    (fun c => ⟨Iff.rfl, Iff.rfl⟩) fun own c => Iff.rfl
  by_cases hc : c = ch
  · subst hc
    rw [Sys.set_self] at hu
    exact absurd hu (hnew v)
  · rw [Sys.set_of_ne hc] at hu
    rw [Function.update_of_ne hc]
    have hb := h.busy c v hu
    cases v <;> exact hb

/-- What a server does to the channel that it closes. -/
structure Marked (v : Closer) (old x : Chan) (u₀ u : Use) : Prop where
  ok : ChanOk x u
  user : x.user = .closing v
  driver : x.driver = old.driver
  fd : x.fd = old.fd
  keeps : Keeps u₀ u
  back : Keeps u u₀
  opened : u₀.Open

/-- FS begins to close a channel, or goes on with it. -/
theorem Rel.fs_closing (h : Rel s use) (hphase : s.fs = .idle ∨ ∃ st, s.fs = .closing st ch)
    (hmine : (s.chan ch).user ≠ .closing .pm) (hx : Marked .fs (s.chan ch) x (use ch) u)
    (hf : (∃ st, f = .closing st ch ∧ StageOk x u st) ∨ f = .ask ch ∧ u = .done) :
    Rel { s.set ch x with fs := f } (Function.update use ch u) := by
  have hask : ∀ c, s.fs ≠ .ask c := fun c hc => by
    rcases hphase with h | ⟨st, h⟩ <;> rw [h] at hc <;> cases hc
  have hpm : ∀ c, s.pm.chan = some c → c ≠ ch := fun c hc heq =>
    (h.pm.user hc).elim (fun hu => hmine (heq ▸ hu)) (hask c)
  have hfs : FsOk { s.set ch x with fs := f, pm := s.pm } (Function.update use ch u) f := by
    rcases hf with ⟨st, rfl, hst⟩ | ⟨rfl, hdone⟩
    · dsimp only [FsOk]
      rw [Sys.set_self, Function.update_self]
      exact ⟨hx.user, hst⟩
    · dsimp only [FsOk]
      rw [Sys.set_self, Function.update_self]
      exact ⟨hx.user, hdone⟩
  refine h.set_chan (p := s.pm) hx.ok hx.driver hx.fd hx.keeps hx.back hx.opened hfs
    (h.pm.frame (fun c hc => ?_) fun c hc => absurd hc (hask c)) (fun c v hu => ?_)
    (fun c => ⟨?_, Iff.rfl⟩) fun own c => Iff.rfl
  · exact .of_set (hpm c hc) rfl rfl
  · by_cases hc : c = ch
    · subst hc
      rw [Sys.set_self, hx.user] at hu
      cases hu
      right
      rcases hf with ⟨st, rfl, -⟩ | ⟨rfl, -⟩
      · exact Or.inl ⟨st, rfl⟩
      · exact Or.inr rfl
    · rw [Sys.set_of_ne hc] at hu
      rw [Function.update_of_ne hc]
      rcases h.busy c v hu with hgone | hb
      · exact Or.inl hgone
      · cases v with
        | pm => exact Or.inr hb
        | fs =>
          -- FS has only one channel in hand
          rcases hb with ⟨st, hb⟩ | hb
          · rcases hphase with h | ⟨st', h⟩ <;> rw [h] at hb <;> cases hb
            exact absurd rfl hc
          · exact absurd hb (hask c)
  · rcases hphase with h | ⟨st', h⟩ <;> rcases hf with ⟨st, rfl, -⟩ | ⟨rfl, -⟩ <;> simp [h]

/-- PM begins to close a channel, or goes on with it. -/
theorem Rel.pm_closing (h : Rel s use) (hphase : s.pm = .idle ∨ ∃ st, s.pm = .closing st ch)
    (hmine : (s.chan ch).user ≠ .closing .fs) (hx : Marked .pm (s.chan ch) x (use ch) u)
    (hp : (∃ st, p = .closing st ch ∧ StageOk x u st) ∨ p = .shift true ch ∧ u = .done) :
    Rel { s.set ch x with pm := p } (Function.update use ch u) := by
  have hfs : ∀ c, s.fs.chan = some c → c ≠ ch := fun c hc heq => hmine (heq ▸ h.fs.user hc)
  have hpm : PmOk { s.set ch x with fs := s.fs, pm := p } (Function.update use ch u) p := by
    rcases hp with ⟨st, rfl, hst⟩ | ⟨rfl, hdone⟩
    · dsimp only [PmOk]
      rw [Sys.set_self, Function.update_self]
      exact ⟨hx.user, hst⟩
    · dsimp only [PmOk]
      rw [Sys.set_self, Function.update_self]
      exact ⟨hdone, hx.user⟩
  refine h.set_chan (f := s.fs) hx.ok hx.driver hx.fd hx.keeps hx.back hx.opened
    (h.fs.frame fun c hc => ?_) hpm (fun c v hu => ?_) (fun c => ⟨Iff.rfl, ?_⟩) fun own c => ?_
  · exact .of_set (hfs c hc) rfl rfl
  · by_cases hc : c = ch
    · subst hc
      rw [Sys.set_self, hx.user] at hu
      cases hu
      right
      rcases hp with ⟨st, rfl, -⟩ | ⟨rfl, -⟩
      · exact Or.inl ⟨st, rfl⟩
      · exact Or.inr (Or.inl rfl)
    · rw [Sys.set_of_ne hc] at hu
      rw [Function.update_of_ne hc]
      rcases h.busy c v hu with hgone | hb
      · exact Or.inl hgone
      · cases v with
        | fs => exact Or.inr hb
        | pm =>
          rcases hb with ⟨st, hb⟩ | hb | hb <;> rcases hphase with h | ⟨st', h⟩ <;> rw [h] at hb <;>
            cases hb
          exact absurd rfl hc
  · rcases hphase with h | ⟨st', h⟩ <;> rcases hp with ⟨st, rfl, -⟩ | ⟨rfl, -⟩ <;> simp [h]
  · rcases hphase with h | ⟨st', h⟩ <;> rcases hp with ⟨st, rfl, -⟩ | ⟨rfl, -⟩ <;> simp [h]

end Channel

/-! ### Clients and closing servers -/

section Exchange

variable {s s' : Sys} {use : ℕ → Use} {x : Chan} {u : Use} {ch : ℕ}

/-- A user at rest. -/
theorem ChanOk.calm_of_user (h : ChanOk x u)
    (hu : x.user = .idle ∨ x.user = .clear ∨ x.user = .set) : u = .calm := by
  rcases hu with hu | hu | hu <;> cases u with
    | calm => rfl
    | sent b | taken b | answered b => cases b <;> simp [ChanOk, UserAt, hu] at h
    | absent | done | gone => simp [ChanOk, hu] at h

/-- A user with its answer. -/
theorem ChanOk.answered_of_user (h : ChanOk x u) (hu : x.user = .recv) (hr : x.readyReply = true) :
    u = .answered false := by
  cases u with
  | answered b => cases b <;> simp [ChanOk, UserAt, hu] at h ⊢
  | sent b | taken b => simp [ChanOk, hr] at h
  | absent | calm | done | gone => simp [ChanOk, hu] at h

/-- Two uses between which the driver does not see a difference. -/
def Use.Apart (u : Use) : Prop := u.Open ∧ (∀ b, u ≠ .taken b) ∧ ¬ u.Ending

theorem Keeps.of_apart {u' : Use} (h : u.Apart) (h' : u'.Open) : Keeps u u' :=
  ⟨fun _ => h', fun b hb => absurd hb (h.2.1 b), fun he => absurd he h.2.2,
    fun hg => absurd hg h.1.2⟩

theorem Use.apart_calm : Use.calm.Apart := by simp [Use.Apart, Use.Open, Use.Ending]

theorem Use.apart_sent (b : Bool) : (Use.sent b).Apart := by simp [Use.Apart, Use.Open, Use.Ending]

theorem Use.apart_answered : (Use.answered false).Apart := by
  simp [Use.Apart, Use.Open, Use.Ending]

/-- A step of a client changes its channel only. -/
theorem userStep_cases (hstep : userStep s ch = some s') :
    ∃ x, s' = s.set ch x ∧ x.freed = (s.chan ch).freed ∧ x.driver = (s.chan ch).driver := by
  unfold userStep at hstep
  dsimp only at hstep
  cases hu : (s.chan ch).user with
  | absent | closing => rw [hu] at hstep; cases hstep
  | idle | clear | set =>
    rw [hu] at hstep
    obtain rfl := Option.some.inj hstep
    exact ⟨_, rfl, rfl, rfl⟩
  | recv =>
    rw [hu] at hstep
    dsimp only at hstep
    split at hstep
    · obtain rfl := Option.some.inj hstep
      exact ⟨_, rfl, rfl, rfl⟩
    · cases hstep

/-- The next step of a client. -/
theorem Rel.user_step (h : Rel s use) (hstep : userStep s ch = some s') : ∃ use', Rel s' use' := by
  have hok := h.chan ch
  unfold userStep at hstep
  dsimp only at hstep
  cases hu : (s.chan ch).user with
  | absent | closing => rw [hu] at hstep; cases hstep
  | idle =>
    rw [hu] at hstep
    obtain rfl := Option.some.inj hstep
    have hcalm := hok.calm_of_user (Or.inl hu)
    rw [hcalm] at hok
    have hk : Keeps (use ch) .calm := hcalm ▸ .refl _
    exact ⟨_, h.client (u := .calm) ⟨hok.1, hok.2.1, Or.inr (Or.inl ⟨rfl, rfl⟩)⟩ rfl rfl hk
      (hcalm ▸ .refl _) (hcalm ▸ Use.apart_calm.1) (by simp [hu]) (by simp)⟩
  | clear =>
    rw [hu] at hstep
    obtain rfl := Option.some.inj hstep
    have hcalm := hok.calm_of_user (Or.inr (Or.inl hu))
    rw [hcalm] at hok
    have hmark : (s.chan ch).marker = false := by simpa [hu] using hok.2.2
    have hk : Keeps (use ch) .calm := hcalm ▸ .refl _
    exact ⟨_, h.client (u := .calm) ⟨hok.1, hok.2.1, Or.inr (Or.inr (Or.inl ⟨rfl, hmark, rfl⟩))⟩
      rfl rfl hk (hcalm ▸ .refl _) (hcalm ▸ Use.apart_calm.1) (by simp [hu]) (by simp)⟩
  | set =>
    rw [hu] at hstep
    obtain rfl := Option.some.inj hstep
    have hcalm := hok.calm_of_user (Or.inr (Or.inr hu))
    rw [hcalm] at hok
    have hflags : (s.chan ch).marker = false ∧ (s.chan ch).readyReply = false := by
      simpa [hu] using hok.2.2
    have hk : Keeps (use ch) (.sent false) := hcalm ▸ .of_apart Use.apart_calm (Use.apart_sent _).1
    exact ⟨_, h.client (u := .sent false) ⟨hok.1, rfl, hflags.2, hflags.1, rfl⟩ rfl rfl hk
      (hcalm ▸ .of_apart (Use.apart_sent _) Use.apart_calm.1) (hcalm ▸ Use.apart_calm.1)
      (by simp [hu]) (by simp)⟩
  | recv =>
    rw [hu] at hstep
    dsimp only at hstep
    split at hstep
    · rename_i hr
      obtain rfl := Option.some.inj hstep
      have hans := hok.answered_of_user hu hr
      rw [hans] at hok
      have hk : Keeps (use ch) .calm := hans ▸ .of_apart Use.apart_answered Use.apart_calm.1
      exact ⟨_, h.client (u := .calm) ⟨hok.1, hok.2.1, Or.inl rfl⟩ rfl rfl hk
        (hans ▸ .of_apart Use.apart_calm Use.apart_answered.1) (hans ▸ Use.apart_answered.1)
        (by simp [hu]) (by simp)⟩
    · cases hstep

/-- The steps of the exchange of the marker: there is a next stage, or the answer is there. -/
theorem closeStep_cases {next : Stage → Sys → Sys} {after : Sys → Sys} {st : Stage} {v : Closer}
    (hok : ChanOk (s.chan ch) u) (huser : (s.chan ch).user = .closing v)
    (hst : StageOk (s.chan ch) u st) (hstep : closeStep s ch next after st = some s') :
    (∃ st' x u', s' = next st' (s.set ch x) ∧ Marked v (s.chan ch) x u u' ∧ StageOk x u' st') ∨
      ∃ x, s' = after (s.set ch x) ∧ Marked v (s.chan ch) x u .done := by
  cases st with
  | mark =>
    obtain rfl : u = .calm := hst
    obtain rfl := Option.some.inj hstep
    exact Or.inl ⟨_, _, .calm, rfl, ⟨⟨hok.1, hok.2.1, Or.inr (Or.inr (Or.inr ⟨v, huser⟩))⟩, huser,
      rfl, rfl, .refl _, .refl _, Use.apart_calm.1⟩, rfl, rfl⟩
  | clear =>
    obtain ⟨rfl, hmark⟩ := hst
    obtain rfl := Option.some.inj hstep
    exact Or.inl ⟨_, _, .calm, rfl, ⟨⟨hok.1, hok.2.1, Or.inr (Or.inr (Or.inr ⟨v, huser⟩))⟩, huser,
      rfl, rfl, .refl _, .refl _, Use.apart_calm.1⟩, rfl, hmark, rfl⟩
  | set =>
    obtain ⟨rfl, hmark, hreply⟩ := hst
    obtain rfl := Option.some.inj hstep
    exact Or.inl ⟨_, _, .sent true, rfl, ⟨⟨hok.1, rfl, hreply, hmark, v, huser⟩, huser, rfl, rfl,
      .of_apart Use.apart_calm (Use.apart_sent _).1, .of_apart (Use.apart_sent _) Use.apart_calm.1,
      Use.apart_calm.1⟩, Or.inl rfl⟩
  | recv =>
    dsimp only [closeStep] at hstep
    split at hstep
    · rename_i hr
      obtain rfl := Option.some.inj hstep
      rcases hst with rfl | rfl | rfl
      · exact absurd (hr.symm.trans hok.2.2.1) (by simp)
      · exact absurd (hr.symm.trans hok.2.2.1) (by simp)
      · refine Or.inr ⟨_, rfl, ⟨hok.1, hok.2.1, v, huser⟩, huser, rfl, rfl, ?_, ?_, ?_⟩
        · exact ⟨by simp [Use.Open], by simp, by simp [Use.Ending], by simp⟩
        · exact ⟨by simp [Use.Open], by simp, by simp [Use.Ending], by simp⟩
        · simp [Use.Open]
    · cases hstep

theorem Rel.calm_of_idle (h : Rel s use) (huser : (s.chan ch).user = .idle) : use ch = .calm :=
  (h.chan ch).calm_of_user (Or.inl huser)

/-- The request to close an idle channel. -/
theorem Rel.marked_of_idle (h : Rel s use) (v : Closer) (huser : (s.chan ch).user = .idle) :
    Marked v (s.chan ch) { s.chan ch with user := .closing v } (use ch) .calm := by
  have hcalm := h.calm_of_idle huser
  have hok := h.chan ch
  rw [hcalm] at hok ⊢
  exact ⟨⟨hok.1, hok.2.1, Or.inr (Or.inr (Or.inr ⟨v, rfl⟩))⟩, rfl, rfl, rfl, .refl _, .refl _,
    Use.apart_calm.1⟩

end Exchange

/-! ### FS and PM -/

section Servers

variable {s s' : Sys} {use : ℕ → Use} {ch : ℕ}

/-- The pages of the channels that the drivers work on, when the channels and the uses stay. -/
theorem Rel.drivers_frame (h : Rel s use) (hchan : s'.chan = s.chan)
    (hdriver : s'.driver = s.driver)
    (hpost : ∀ d c, (s.chan c).driver = d →
      (s.fs = .post c ∨ s.pm = .post c ∨ s.slot d = some c) →
      s'.fs = .post c ∨ s'.pm = .post c ∨ s'.slot d = some c) (d : ℕ) :
    DriverOk s' use d (s'.driver d) := by
  rw [hdriver]
  exact (h.driver d).frame fun c hc =>
    ⟨by rw [hchan], .refl _, fun _ => hpost d c ((h.driver d).driver hc)⟩

theorem Follows.of_same {c : ℕ} (hchan : s'.chan = s.chan) (hdriver : s'.driver = s.driver) :
    Follows s s' use use c :=
  .of_eq (by rw [hchan]) rfl fun _ hw => by
    unfold Sys.Waits at hw ⊢
    rwa [hchan, hdriver]

/-- PM takes the request of FS. -/
theorem Rel.serve (h : Rel s use) (hpm : s.pm = .idle) (hfs : s.fs = .ask ch) :
    Rel { s with pm := .shift false ch } use := by
  have hask := h.fs
  rw [hfs] at hask
  refine ⟨h.chan, h.named, h.fs.frame fun c _ => .of_same rfl rfl, ⟨hask.2, hfs⟩, fun c v hu => ?_,
    fun d c => ?_, h.drivers_frame rfl rfl fun d c _ hp => ?_, h.waits, fun d c hc => ?_, h.hand⟩
  · refine (h.busy c v hu).imp_right fun hb => ?_
    cases v with
    | fs => exact hb
    | pm => simp [Sys.Busy, hpm] at hb
  · simpa [hpm] using h.array d c
  · simpa [hpm] using hp
  · simpa [hpm] using h.slot d c hc

/-- PM removes the channel from the arrays. -/
theorem Rel.shift {own : Bool} (h : Rel s use) (hpm : s.pm = .shift own ch) :
    Rel { s with array := fun d => (s.array d).filter (· ≠ ch), pm := .free own ch } use := by
  have hok := h.pm
  rw [hpm] at hok
  refine ⟨h.chan, h.named, h.fs.frame fun c _ => .of_same rfl rfl, hok, fun c v hu => ?_,
    fun d c => ?_, h.drivers_frame rfl rfl fun d c _ hp => ?_, h.waits, fun d c hc => ?_, h.hand⟩
  · refine (h.busy c v hu).imp_right fun hb => ?_
    cases v with
    | fs => exact hb
    | pm => simpa [Sys.Busy, hpm] using hb
  · have hold := h.array d c
    simp only [hpm] at hold
    by_cases hc : c = ch
    · simp [hc]
    · simpa [hc, Ne.symm hc] using hold
  · simpa [hpm] using hp
  · simpa [hpm] using h.slot d c hc

/-- The driver of a channel with an answered marker is at no other place. -/
theorem Rel.wait_of_chan (h : Rel s use) {d : ℕ} (hend : (use ch).Ending)
    (hd : (s.driver d).chan = some ch) : s.driver d = .wait ch := by
  have hw := h.waits ch hend
  unfold Sys.Waits at hw
  rwa [(h.driver d).driver hd] at hw

/-- PM frees the page, for itself or for FS. -/
theorem Rel.free {own : Bool} {f : FsPhase} {p : PmPhase} (h : Rel s use)
    (hpm : s.pm = .free own ch)
    (hnext : own = true ∧ f = s.fs ∧ p = .post ch ∨ own = false ∧ f = .post ch ∧ p = .idle) :
    Rel { s.set ch { s.chan ch with freed := true } with fs := f, pm := p }
      (Function.update use ch .gone) := by
  have hok := h.pm
  rw [hpm] at hok
  obtain ⟨hdone, howner⟩ := hok
  have hend : (use ch).Ending := Or.inr hdone
  have hclosed : ∃ v, (s.chan ch).user = .closing v := by
    have hc := h.chan ch
    rw [hdone] at hc
    exact hc.2.2
  have hwaits : { s.set ch { s.chan ch with freed := true } with fs := f, pm := p }.Waits ch := by
    have hw := h.waits ch hend
    unfold Sys.Waits at hw ⊢
    rwa [Sys.set_self]
  have hposts : f = .post ch ∨ p = .post ch := hnext.elim (fun hn => Or.inr hn.2.2) fun hn =>
    Or.inl hn.2.1
  have hothers : ∀ c, c ≠ ch → (f = .post c ↔ s.fs = .post c) ∧ p ≠ .post c ∧
      (∀ o, p ≠ .free o c) := fun c hc => by
    rcases hnext with ⟨rfl, rfl, rfl⟩ | ⟨rfl, rfl, rfl⟩
    · simp [Ne.symm hc]
    · have hfs : s.fs = .ask ch := howner
      simp [Ne.symm hc, hfs]
  refine ⟨fun c => ?_, fun c hc => ?_, ?_, ?_, fun c v hu => ?_, fun d c => ?_, fun d => ?_,
    fun c hc => ?_, fun d c hc => ?_, fun c b hb => ?_⟩
  · by_cases hc : c = ch
    · subst hc
      simp only [Sys.set_self, Function.update_self]
      exact ⟨rfl, hclosed⟩
    · rw [Function.update_of_ne hc]
      simpa only [Sys.set_of_ne hc] using h.chan c
  · by_cases hcc : c = ch
    · subst hcc
      simpa only [Sys.set_self] using h.named c (by simp [hdone])
    · rw [Function.update_of_ne hcc] at hc
      simpa only [Sys.set_of_ne hcc] using h.named c hc
  · rcases hnext with ⟨rfl, rfl, rfl⟩ | ⟨rfl, rfl, rfl⟩
    · refine h.fs.frame fun c hc => .of_set (fun heq => ?_) rfl rfl
      have hu := h.fs.user hc
      rw [heq, (howner : (s.chan ch).user = _)] at hu
      cases hu
    · have hfs : s.fs = .ask ch := howner
      have hu : (s.chan ch).user = .closing .fs := h.fs.user (by rw [hfs]; rfl)
      refine ⟨?_, Function.update_self .., hwaits⟩
      simpa only [Sys.set_self] using hu
  · rcases hnext with ⟨rfl, rfl, rfl⟩ | ⟨rfl, rfl, rfl⟩
    · refine ⟨?_, Function.update_self .., hwaits⟩
      rw [Sys.set_self]
      exact howner
    · trivial
  · by_cases hc : c = ch
    · exact Or.inl (by rw [hc, Function.update_self])
    · rw [Sys.set_of_ne hc] at hu
      rw [Function.update_of_ne hc]
      refine (h.busy c v hu).imp_right fun hb => ?_
      -- neither server has another channel in hand
      cases v with
      | pm => simp [Sys.Busy, hpm, Ne.symm hc] at hb
      | fs =>
        rcases hnext with ⟨rfl, rfl, rfl⟩ | ⟨rfl, rfl, rfl⟩
        · exact hb
        · have hfs : s.fs = .ask ch := howner
          rcases hb with ⟨st, hb⟩ | hb <;> rw [hfs] at hb <;> cases hb
          exact absurd rfl hc
  · have hold := h.array d c
    by_cases hc : c = ch
    · have hnot : ch ∉ s.array d := fun hin => ((h.array d ch).mp hin).2.2 own hpm
      rw [hc, Function.update_self]
      exact iff_of_false hnot fun hopen => hopen.2.1.2 rfl
    · have ho := (hothers c hc).2.2
      simp only [hpm] at hold
      simp only [Sys.set_of_ne hc, Function.update_of_ne hc]
      simpa [Ne.symm hc, ho] using hold
  · by_cases hd : (s.driver d).chan = some ch
    · have hw := h.wait_of_chan hend hd
      have hdriver := h.driver d
      simp only [Sys.set, hw] at hdriver ⊢
      refine ⟨by simpa using hdriver.1, Or.inr ⟨Function.update_self .., ?_⟩⟩
      exact hposts.imp_right Or.inl
    · refine (h.driver d).frame fun c hc => ?_
      have hne : c ≠ ch := fun heq => hd (heq ▸ hc)
      refine ⟨by simp only [Sys.set_of_ne hne], by rw [Function.update_of_ne hne]; exact .refl _,
        fun _ hp => ?_⟩
      rw [hpm] at hp
      rcases hp with hp | hp | hp
      · exact Or.inl ((hothers c hne).1.mpr hp)
      · cases hp
      · exact Or.inr (Or.inr hp)
  · by_cases hcc : c = ch
    · subst hcc
      simp [Use.Ending] at hc
    · rw [Function.update_of_ne hcc] at hc
      have hw := h.waits c hc
      unfold Sys.Waits at hw ⊢
      simpa only [Sys.set_of_ne hcc, Sys.set_driver] using hw
  · obtain ⟨hw, hgone, hf, -⟩ := h.slot d c hc
    have hne : c ≠ ch := fun heq => by simp [heq, hdone] at hgone
    refine ⟨hw, by rwa [Function.update_of_ne hne], ?_, (hothers c hne).2.1⟩
    exact fun heq => hf ((hothers c hne).1.mp heq)
  · by_cases hcc : c = ch
    · simp [hcc] at hb
    · rw [Function.update_of_ne hcc] at hb
      simpa only [Sys.set_of_ne hcc, Sys.set_driver] using h.hand c b hb

/-- A server posts the message for the driver, which finds the slot of the driver empty. -/
theorem Rel.post {f : FsPhase} {p : PmPhase} (h : Rel s use) (hgone : use ch = .gone)
    (hwaits : s.Waits ch)
    (hnext : s.fs = .post ch ∧ f = .idle ∧ p = s.pm ∨ s.pm = .post ch ∧ f = s.fs ∧ p = .idle) :
    Rel { s.postClose ch with fs := f, pm := p } use := by
  have hnamed : driverOf (s.chan ch).fd = (s.chan ch).driver :=
    (h.named ch (by simp [hgone])).symm
  -- only one of the servers has this channel
  have honce : f ≠ .post ch ∧ p ≠ .post ch := by
    have huser : s.fs = .post ch → s.pm ≠ .post ch := fun hfs hpm => by
      have hu : (s.chan ch).user = .closing .fs := h.fs.user (by rw [hfs]; rfl)
      have hp := h.pm
      rw [hpm] at hp
      rw [hp.1] at hu
      cases hu
    rcases hnext with ⟨hfs, rfl, rfl⟩ | ⟨hpm, rfl, rfl⟩
    · exact ⟨by simp, huser hfs⟩
    · exact ⟨fun hfs => huser hfs hpm, by simp⟩
  have hothers : ∀ c, c ≠ ch → (f = .post c ↔ s.fs = .post c) ∧ (p = .post c ↔ s.pm = .post c) :=
    fun c hc => by rcases hnext with ⟨hfs, rfl, rfl⟩ | ⟨hpm, rfl, rfl⟩ <;> simp [*, Ne.symm hc]
  refine ⟨h.chan, h.named, ?_, ?_, fun c v hu => ?_, fun d c => ?_,
    h.drivers_frame rfl rfl fun d c hd hp => ?_, h.waits, fun d c hc => ?_, h.hand⟩
  · rcases hnext with ⟨-, rfl, -⟩ | ⟨-, rfl, -⟩
    · trivial
    · exact h.fs.frame fun c _ => .of_same rfl rfl
  · rcases hnext with ⟨hfs, rfl, rfl⟩ | ⟨-, -, rfl⟩
    · exact h.pm.frame (fun c _ => .of_same rfl rfl) fun c hc => by simp [hfs] at hc
    · trivial
  · refine (h.busy c v hu).imp_right fun hb => ?_
    rcases hnext with ⟨hfs, rfl, rfl⟩ | ⟨hpm, rfl, rfl⟩ <;> cases v with
      | fs => first | exact hb | simp [Sys.Busy, hfs] at hb
      | pm => first | exact hb | simp [Sys.Busy, hpm] at hb
  · have hold := h.array d c
    rcases hnext with ⟨-, rfl, rfl⟩ | ⟨hpm, rfl, rfl⟩
    · exact hold
    · simpa [hpm, Sys.postClose] using hold
  · dsimp only [Sys.postClose]
    by_cases hc : c = ch
    · subst hc
      rw [hnamed, hd, Function.update_self]
      exact Or.inr (Or.inr rfl)
    · rcases hp with hp | hp | hp
      · exact Or.inl ((hothers c hc).1.mpr hp)
      · exact Or.inr (Or.inl ((hothers c hc).2.mpr hp))
      · -- the driver of this channel has nothing in its slot
        have hne : d ≠ driverOf (s.chan ch).fd := fun heq => by
          have hw := (h.slot d c hp).1
          rw [heq, hnamed, hwaits] at hw
          cases hw
          exact hc rfl
        rw [Function.update_of_ne hne]
        exact Or.inr (Or.inr hp)
  · dsimp only [Sys.postClose] at hc
    by_cases hd : d = driverOf (s.chan ch).fd
    · rw [hd, Function.update_self] at hc
      cases hc
      exact ⟨by rw [hd, hnamed]; exact hwaits, hgone, honce⟩
    · rw [Function.update_of_ne hd] at hc
      obtain ⟨hw, hg, hf, hp⟩ := h.slot d c hc
      refine ⟨hw, hg, ?_, ?_⟩ <;> by_cases hcc : c = ch
      · exact hcc ▸ honce.1
      · exact fun heq => hf ((hothers c hcc).1.mp heq)
      · exact hcc ▸ honce.2
      · exact fun heq => hp ((hothers c hcc).2.mp heq)

end Servers

/-! ### Drivers -/

section Drivers

variable {s s' : Sys} {use : ℕ → Use} {x : Chan} {u : Use} {q : DriverPhase} {d ch : ℕ}

theorem Sys.move_self : (s.move d q).driver d = q := by
  simp only [Sys.move, Function.update_self]

theorem Sys.move_of_ne {d' : ℕ} (h : d' ≠ d) : (s.move d q).driver d' = s.driver d' := by
  simp only [Sys.move, Function.update_of_ne h]

/-- A driver that does not wait goes on with one of its channels, the only one it may hold. -/
theorem Rel.advance (h : Rel s use) (hd : (s.chan ch).driver = d) (hold : ∀ c, s.driver d ≠ .wait c)
    (hmine : ∀ c, (s.driver d).Holds c → c = ch)
    (hx : ChanOk x u) (hdriver : x.driver = (s.chan ch).driver) (hfd : x.fd = (s.chan ch).fd)
    (huser : x.user = (s.chan ch).user) (hopen : (use ch).Open) (hopen' : u.Open)
    (hstage : ∀ st, StageOk (s.chan ch) (use ch) st → StageOk x u st)
    (hdone : use ch = .done → u = .done)
    (hq : DriverOk ((s.set ch x).move d q) (Function.update use ch u) d q)
    (hend : u.Ending → q = .wait ch) (hhand : ∀ b, u = .taken b → q.Holds ch) :
    Rel ((s.set ch x).move d q) (Function.update use ch u) := by
  have hchan : ∀ c, c ≠ ch → ((s.set ch x).move d q).chan c = s.chan c :=
    fun c hc => Sys.set_of_ne hc
  have hself : ((s.set ch x).move d q).chan ch = x := Sys.set_self
  have huse : ∀ c, c ≠ ch → Function.update use ch u c = use c := fun c hc =>
    Function.update_of_ne hc _ _
  -- the drivers that wait are others
  have hwait : ∀ c, c ≠ ch → s.Waits c → ((s.set ch x).move d q).Waits c := fun c hc hw => by
    unfold Sys.Waits at hw ⊢
    have hne : (s.chan c).driver ≠ d := fun heq => hold c (heq ▸ hw)
    rw [hchan c hc, Sys.move_of_ne hne]
    exact hw
  have hfollows : ∀ c, Follows s ((s.set ch x).move d q) use (Function.update use ch u) c :=
    fun c => by
    by_cases hc : c = ch
    · subst hc
      refine ⟨by rw [hself, huser], fun st hst => ?_, fun hu => ?_, fun hu => absurd hu hopen.2,
        fun hu => absurd hu hopen.2⟩
      · rw [hself, Function.update_self]
        exact hstage st hst
      · rw [Function.update_self]
        exact hdone hu
    · exact .of_eq (hchan c hc) (huse c hc) fun _ => hwait c hc
  refine ⟨fun c => ?_, fun c hc => ?_, h.fs.frame fun c _ => hfollows c,
    h.pm.frame (fun c _ => hfollows c) fun c hc => hc, fun c v hu => ?_, fun d' c => ?_,
    fun d' => ?_,
    fun c hc => ?_, fun d' c hc => ?_, fun c b hb => ?_⟩
  · by_cases hc : c = ch
    · rwa [hc, hself, Function.update_self]
    · rw [hchan c hc, huse c hc]
      exact h.chan c
  · by_cases hcc : c = ch
    · rw [hcc, hself, hdriver, hfd]
      exact h.named ch hopen.1
    · rw [huse c hcc] at hc
      rw [hchan c hcc]
      exact h.named c hc
  · rw [(hfollows c).user] at hu
    refine (h.busy c v hu).imp (hfollows c).gone fun hb => ?_
    cases v <;> exact hb
  · refine (h.array d' c).trans ?_
    by_cases hc : c = ch
    · rw [hc, hself, hdriver, Function.update_self]
      exact and_congr_right fun _ => and_congr_left fun _ => iff_of_true hopen hopen'
    · rw [hchan c hc, huse c hc]
      rfl
  · by_cases hd' : d' = d
    · subst hd'
      rwa [Sys.move_self]
    · rw [Sys.move_of_ne hd']
      refine (h.driver d').frame fun c hc => ?_
      have hne : c ≠ ch := fun heq => hd' (by rw [← (h.driver d').driver hc, heq, hd])
      exact ⟨by rw [hchan c hne], by rw [huse c hne]; exact .refl _, fun _ hp => hp⟩
  · by_cases hcc : c = ch
    · subst hcc
      rw [Function.update_self] at hc
      unfold Sys.Waits
      rw [hself, hdriver, hd, Sys.move_self]
      exact hend hc
    · rw [huse c hcc] at hc
      exact hwait c hcc (h.waits c hc)
  · obtain ⟨hw, hg, hpost⟩ := h.slot d' c hc
    have hne : d' ≠ d := fun heq => hold c (heq ▸ hw)
    exact ⟨by rw [Sys.move_of_ne hne]; exact hw, (hfollows c).gone hg, hpost⟩
  · by_cases hcc : c = ch
    · subst hcc
      rw [Function.update_self] at hb
      rw [hself, hdriver, hd, Sys.move_self]
      exact hhand b hb
    · rw [huse c hcc] at hb
      have hh := h.hand c b hb
      have hne : (s.chan c).driver ≠ d := fun heq => hcc (hmine c (heq ▸ hh))
      rw [hchan c hcc, Sys.move_of_ne hne]
      exact hh

/-- A driver goes on and does not change a page. -/
theorem Rel.move (h : Rel s use) (hd : (s.chan ch).driver = d) (hold : ∀ c, s.driver d ≠ .wait c)
    (hmine : ∀ c, (s.driver d).Holds c → c = ch) (hopen : (use ch).Open) (hq : DriverOk s use d q)
    (hhand : (s.driver d).Holds ch → q.Holds ch) : Rel (s.move d q) use := by
  have hset : s.set ch (s.chan ch) = s := by simp [Sys.set]
  have huse : Function.update use ch (use ch) = use := Function.update_eq_self _ _
  have hmove := h.advance (x := s.chan ch) (u := use ch) (q := q) hd hold hmine (h.chan ch) rfl rfl
    rfl hopen hopen (fun _ => id) id
    (by rw [hset, huse]; exact hq.frame fun c _ => ⟨rfl, .refl _, fun _ => id⟩)
    (fun hend => absurd (hd ▸ h.waits ch hend) (hold ch)) fun b hb => hhand (hd ▸ h.hand ch b hb)
  rwa [hset, huse] at hmove

/-- Only a request that was sent sets `ready_send`. -/
theorem ChanOk.sent_of_readySend (h : ChanOk x u) (hopen : u.Open) (hr : x.readySend = true) :
    ∃ b, u = .sent b := by
  cases u with
  | sent b => exact ⟨b, rfl⟩
  | absent => exact absurd rfl hopen.1
  | gone => exact absurd rfl hopen.2
  | calm | taken b | answered b | done => simp [ChanOk, hr] at h

/-- FS posts when the channel is gone. -/
theorem FsOk.post_of_gone {f : FsPhase} (h : FsOk s use f) (hf : f.chan = some ch)
    (hg : use ch = .gone) : f = .post ch := by
  cases f with
  | idle => cases hf
  | closing st c => cases hf; cases st <;> simp [FsOk, StageOk, hg] at h
  | ask c => cases hf; simp [FsOk, hg] at h
  | post c => cases hf; rfl

/-- PM posts when the channel is gone. -/
theorem PmOk.post_of_gone {p : PmPhase} (h : PmOk s use p) (hp : p.chan = some ch)
    (hg : use ch = .gone) : p = .post ch := by
  cases p with
  | idle | load => cases hp
  | closing st c => cases hp; cases st <;> simp [PmOk, StageOk, hg] at h
  | shift own c | free own c => cases hp; simp [PmOk, hg] at h
  | post c => cases hp; rfl

/-- A driver receives the message that it waits for. -/
theorem Rel.receive (h : Rel s use) (hslot : s.slot d = some ch) :
    Rel { s.move d .scan with slot := Function.update s.slot d none } use := by
  obtain ⟨hwait, hgone, hfs, hpm⟩ := h.slot d ch hslot
  have hwaits : ∀ c, c ≠ ch → s.Waits c →
      { s.move d .scan with slot := Function.update s.slot d none }.Waits c := fun c hc hw => by
    unfold Sys.Waits at hw ⊢
    have hne : (s.chan c).driver ≠ d := fun heq => by
      rw [heq, hwait] at hw
      cases hw
      exact hc rfl
    exact (Sys.move_of_ne hne).trans hw
  have hfollows : ∀ c, c ≠ ch → Follows s
      { s.move d .scan with slot := Function.update s.slot d none } use use c := fun c hc =>
    .of_eq rfl rfl fun _ => hwaits c hc
  refine ⟨h.chan, h.named, h.fs.frame fun c hc => hfollows c fun heq => ?_,
    h.pm.frame (fun c hc => hfollows c fun heq => ?_) fun c hc => hc, fun c v hu => ?_, h.array,
    fun d' => ?_, fun c hc => hwaits c ?_ (h.waits c hc), fun d' c hc => ?_, fun c b hb => ?_⟩
  · exact hfs (h.fs.post_of_gone (heq ▸ hc) hgone)
  · exact hpm (h.pm.post_of_gone (heq ▸ hc) hgone)
  · have hb := h.busy c v hu
    cases v <;> exact hb
  · by_cases hd : d' = d
    · subst hd
      dsimp only
      rw [Sys.move_self]
      trivial
    · dsimp only
      rw [Sys.move_of_ne hd]
      refine (h.driver d').frame fun c _ => ⟨rfl, .refl _, fun _ hp => ?_⟩
      simp only [Function.update_of_ne hd]
      exact hp
  · rintro rfl
    simp [Use.Ending, hgone] at hc
  · by_cases hd : d' = d
    · subst hd
      simp at hc
    · dsimp only at hc ⊢
      rw [Function.update_of_ne hd] at hc
      rw [Sys.move_of_ne hd]
      exact h.slot d' c hc
  · have hh := h.hand c b hb
    have hne : (s.chan c).driver ≠ d := fun heq => by
      rw [heq, hwait] at hh
      simp [DriverPhase.Holds] at hh
    exact (Sys.move_of_ne (q := .scan) hne).symm ▸ hh

/-- The next step of a driver. -/
theorem Rel.driver_step (h : Rel s use) (hstep : driverStep s d = some s') :
    ∃ use', Rel s' use' := by
  have hdriver := h.driver d
  unfold driverStep at hstep
  cases hq : s.driver d with
  | scan => rw [hq] at hstep; cases hstep
  | look c =>
    rw [hq] at hstep hdriver
    dsimp only at hstep
    split at hstep
    · rename_i hr
      obtain rfl := Option.some.inj hstep
      obtain ⟨b, hb⟩ := (h.chan c).sent_of_readySend hdriver.2 hr
      have hok := h.chan c
      rw [hb] at hok
      refine ⟨_, h.advance (u := .taken b) hdriver.1 (by simp [hq])
        (by simp [hq, DriverPhase.Holds])
        ⟨hok.1, rfl, hok.2.2.1, hok.2.2.2.1, hok.2.2.2.2⟩ rfl rfl rfl hdriver.2 (by simp [Use.Open])
        (fun st hst => ?_) (by simp [hb]) ⟨?_, b, Function.update_self ..⟩ (by simp [Use.Ending])
        fun _ _ => Or.inl rfl⟩
      · rw [hb] at hst
        cases st with
        | recv => simpa [StageOk] using hst
        | mark | clear | set => simp [StageOk] at hst
      · exact (congrArg Chan.driver Sys.set_self).trans hdriver.1
    · obtain rfl := Option.some.inj hstep
      exact ⟨use, h.move hdriver.1 (by simp [hq]) (by simp [hq, DriverPhase.Holds])
        hdriver.2 trivial (by simp [hq, DriverPhase.Holds])⟩
  | picked c =>
    rw [hq] at hstep hdriver
    obtain rfl := Option.some.inj hstep
    obtain ⟨hd, b, hb⟩ := hdriver
    have hok := h.chan c
    rw [hb] at hok
    refine ⟨use, h.move hd (by simp [hq]) (by simp [hq, DriverPhase.Holds])
      (by simp [hb, Use.Open]) ?_ fun _ => ?_⟩
    · rw [hok.2.2.2.1]
      cases b <;> exact ⟨hd, hb⟩
    · rw [hok.2.2.2.1]
      cases b <;> simp [DriverPhase.Holds]
  | serve c =>
    rw [hq] at hstep hdriver
    obtain rfl := Option.some.inj hstep
    exact ⟨use, h.move hdriver.1 (by simp [hq]) (by simp [hq, DriverPhase.Holds])
      (by simp [hdriver.2, Use.Open]) hdriver fun _ => by simp [DriverPhase.Holds]⟩
  | reply c b =>
    rw [hq] at hstep hdriver
    obtain rfl := Option.some.inj hstep
    exact ⟨use, h.move hdriver.1 (by simp [hq]) (by simp [hq, DriverPhase.Holds])
      (by simp [hdriver.2, Use.Open]) hdriver fun _ => by simp [DriverPhase.Holds]⟩
  | flag c b =>
    rw [hq] at hstep hdriver
    obtain rfl := Option.some.inj hstep
    obtain ⟨hd, hb⟩ := hdriver
    have hok := h.chan c
    rw [hb] at hok
    refine ⟨_, h.advance (u := .answered b) hd (by simp [hq]) (by simp [hq, DriverPhase.Holds])
      ⟨hok.1, hok.2.1, rfl, hok.2.2.2.1, hok.2.2.2.2⟩ rfl rfl rfl (by simp [hb, Use.Open])
      (by simp [Use.Open]) (fun st hst => ?_) (by simp [hb]) ?_ (by cases b <;> simp [Use.Ending])
      (by simp)⟩
    · rw [hb] at hst
      cases st with
      | recv => simpa [StageOk] using hst
      | mark | clear | set => simp [StageOk] at hst
    · cases b with
      | false => trivial
      | true =>
        refine ⟨(congrArg Chan.driver Sys.set_self).trans hd, Or.inl (Or.inl ?_)⟩
        exact Function.update_self ..
  | wait c =>
    rw [hq] at hstep
    dsimp only at hstep
    split at hstep
    · rename_i c' hslot
      obtain rfl := Option.some.inj hstep
      exact ⟨use, h.receive hslot⟩
    · cases hstep

end Drivers

/-! ### Every step -/

section Steps

variable {s s' : Sys} {use : ℕ → Use} {ev : Event} {d fd ch : ℕ}

theorem ChanOk.absent_of_user {x : Chan} {u : Use} (h : ChanOk x u) (hu : x.user = .absent) :
    u = .absent := by
  cases u with
  | absent => rfl
  | sent b | taken b | answered b => cases b <;> simp [ChanOk, UserAt, hu] at h
  | calm | done | gone => simp [ChanOk, hu] at h

/-- A driver works on existing channels. -/
theorem DriverOk.not_absent {q : DriverPhase} (h : DriverOk s use d q) (hq : q.chan = some ch) :
    use ch ≠ .absent := by
  intro ha
  cases q with
  | scan => cases hq
  | look c => cases hq; exact h.2.1 ha
  | picked c => cases hq; simp [DriverOk, ha] at h
  | serve c | reply c b | flag c b => cases hq; simp [DriverOk, ha] at h
  | wait c => cases hq; simp [DriverOk, Use.Ending, ha] at h

/-- PM creates a channel and appends it to the array of the driver. -/
theorem Rel.create (h : Rel s use) (hpm : s.pm = .idle) (hd : d = driverOf fd)
    (hstep : localChannel s ch fd d = some s') : Rel s' (Function.update use ch .calm) := by
  unfold localChannel at hstep
  split at hstep
  swap
  · cases hstep
  rename_i hguard
  obtain rfl := Option.some.inj hstep
  have huser := hguard.1
  have habsent := (h.chan ch).absent_of_user huser
  have huse : ∀ c, c ≠ ch → Function.update use ch .calm c = use c := fun c hc =>
    Function.update_of_ne hc _ _
  refine ⟨fun c => ?_, fun c hc => ?_, h.fs.frame fun c hc => .of_set (fun heq => ?_) rfl rfl, ?_,
    fun c v hu => ?_, fun d' c => ?_, fun d' => ?_, fun c hc => ?_, fun d' c hc => ?_,
    fun c b hb => ?_⟩
  · by_cases hc : c = ch
    · subst hc
      simp only [Sys.set_self, Function.update_self]
      exact ⟨rfl, rfl, Or.inl rfl⟩
    · simp only [Sys.set_of_ne hc, huse c hc]
      exact h.chan c
  · by_cases hcc : c = ch
    · subst hcc
      simpa only [Sys.set_self] using hd
    · rw [huse c hcc] at hc
      simpa only [Sys.set_of_ne hcc] using h.named c hc
  · have hu := h.fs.user hc
    rw [heq, huser] at hu
    cases hu
  · simp only [Sys.set, hpm]
    trivial
  · by_cases hc : c = ch
    · subst hc
      simp at hu
    · simp only [Sys.set_of_ne hc] at hu
      rw [huse c hc]
      refine (h.busy c v hu).imp_right fun hb => ?_
      cases v <;> exact hb
  · have hold := h.array d' c
    have hfree : ∀ o c, s.pm ≠ .free o c := by simp [hpm]
    by_cases hc : c = ch
    · subst hc
      have hnot : c ∉ s.array d' := fun hin => (hold.mp hin).2.1.1 habsent
      by_cases hdd : d' = d
      · subst hdd
        simp [Use.Open, Sys.set, hfree]
      · simp [Use.Open, Sys.set, hdd, Ne.symm hdd, hnot]
    · simp only [Sys.set_of_ne hc, huse c hc]
      refine Iff.trans ?_ hold
      by_cases hdd : d' = d
      · subst hdd
        simp [hc]
      · simp [hdd]
  · refine (h.driver d').frame fun c hc => ?_
    have hne : c ≠ ch := fun heq => (h.driver d').not_absent hc (heq ▸ habsent)
    exact ⟨by simp only [Sys.set_of_ne hne], by rw [huse c hne]; exact .refl _, fun _ hp => hp⟩
  · have hne : c ≠ ch := fun heq => by simp [heq, Use.Ending] at hc
    rw [huse c hne] at hc
    have hw := h.waits c hc
    unfold Sys.Waits at hw ⊢
    simpa only [Sys.set_of_ne hne, Sys.set_driver] using hw
  · obtain ⟨hw, hg, hpost⟩ := h.slot d' c hc
    have hne : c ≠ ch := fun heq => by simp [heq, habsent] at hg
    exact ⟨hw, by rwa [huse c hne], hpost⟩
  · have hne : c ≠ ch := fun heq => by simp [heq] at hb
    rw [huse c hne] at hb
    simpa only [Sys.set_of_ne hne, Sys.set_driver] using h.hand c b hb

theorem Device.driver_eq (dev : Device) : dev.driver = driverOf dev.fd := by
  cases dev with
  | stdin | stdout => rfl
  | junk fd h =>
    have hne : fd ≠ 0 ∧ fd ≠ 1 := by omega
    simp [Device.driver, Device.fd, driverOf, hne]

/-- The list of PM's next channels is not part of the relation. -/
theorem Rel.exiting (h : Rel s use) (l : Option (List ℕ)) : Rel { s with exiting := l } use :=
  ⟨h.chan, h.named, h.fs, h.pm, fun ch v hu => by cases v <;> exact h.busy ch _ hu,
    h.array, h.driver, h.waits, h.slot, h.hand⟩

/-- PM takes up an exec, or has the program. -/
theorem Rel.turn {p : PmPhase} (h : Rel s use) (hold : s.pm = .idle ∨ s.pm = .load)
    (hnew : p = .idle ∨ p = .load) : Rel { s with pm := p } use := by
  have hpost : ∀ c, p ≠ .post c ∧ s.pm ≠ .post c := fun c => by
    rcases hold with hold | hold <;> rcases hnew with hnew | hnew <;> simp [hold, hnew]
  have hfree : ∀ own c, p ≠ .free own c ∧ s.pm ≠ .free own c := fun own c => by
    rcases hold with hold | hold <;> rcases hnew with hnew | hnew <;> simp [hold, hnew]
  refine ⟨h.chan, h.named, h.fs.frame fun c _ => .of_same rfl rfl, ?_, fun c v hu => ?_,
    fun d c => ?_, h.drivers_frame rfl rfl fun d c _ hp => ?_, h.waits, fun d c hc => ?_, h.hand⟩
  · rcases hnew with rfl | rfl <;> trivial
  · refine (h.busy c v hu).imp_right fun hb => ?_
    cases v with
    | fs => exact hb
    | pm => rcases hold with hold | hold <;> simp [Sys.Busy, hold] at hb
  · simpa [hfree] using h.array d c
  · simpa [hpost] using hp
  · simpa [hpost] using h.slot d c hc

/-- The next step of FS. -/
theorem Rel.fs_step (h : Rel s use) (hstep : fsStep s = some s') : ∃ use', Rel s' use' := by
  have hfs := h.fs
  unfold fsStep at hstep
  cases hf : s.fs with
  | idle | ask c => rw [hf] at hstep; cases hstep
  | closing st c =>
    rw [hf] at hstep hfs
    have hmine : (s.chan c).user ≠ .closing .pm := by simp [hfs.1]
    rcases closeStep_cases (h.chan c) hfs.1 hfs.2 hstep with
      ⟨st', x, u', rfl, hx, hst⟩ | ⟨x, rfl, hx⟩
    · exact ⟨_, h.fs_closing (Or.inr ⟨st, hf⟩) hmine hx (Or.inl ⟨st', rfl, hst⟩)⟩
    · exact ⟨_, h.fs_closing (Or.inr ⟨st, hf⟩) hmine hx (Or.inr ⟨rfl, rfl⟩)⟩
  | post c =>
    rw [hf] at hstep hfs
    obtain rfl := Option.some.inj hstep
    exact ⟨use, h.post (p := s.pm) hfs.2.1 hfs.2.2 (Or.inl ⟨hf, rfl, rfl⟩)⟩

/-- The next step of PM. -/
theorem Rel.pm_step (h : Rel s use) (hstep : pmStep s = some s') : ∃ use', Rel s' use' := by
  have hpm := h.pm
  unfold pmStep at hstep
  cases hp : s.pm with
  | idle =>
    rw [hp] at hstep
    dsimp only at hstep
    split at hstep
    · rename_i c rest hexit
      split at hstep
      · rename_i huser
        obtain rfl := Option.some.inj hstep
        exact ⟨_, (h.pm_closing (Or.inl hp) (by simp [huser]) (h.marked_of_idle .pm huser)
          (Or.inl ⟨.mark, rfl, rfl⟩)).exiting _⟩
      · cases hstep
    · obtain rfl := Option.some.inj hstep
      exact ⟨use, hp ▸ h.exiting none⟩
    · cases hf : s.fs with
      | ask c =>
        rw [hf] at hstep
        obtain rfl := Option.some.inj hstep
        exact ⟨use, hf ▸ h.serve hp hf⟩
      | idle | closing st c | post c => rw [hf] at hstep; cases hstep
  | closing st c =>
    rw [hp] at hstep hpm
    have hmine : (s.chan c).user ≠ .closing .fs := by simp [hpm.1]
    rcases closeStep_cases (h.chan c) hpm.1 hpm.2 hstep with
      ⟨st', x, u', rfl, hx, hst⟩ | ⟨x, rfl, hx⟩
    · exact ⟨_, h.pm_closing (Or.inr ⟨st, hp⟩) hmine hx (Or.inl ⟨st', rfl, hst⟩)⟩
    · exact ⟨_, h.pm_closing (Or.inr ⟨st, hp⟩) hmine hx (Or.inr ⟨rfl, rfl⟩)⟩
  | shift own c =>
    rw [hp] at hstep
    obtain rfl := Option.some.inj hstep
    exact ⟨use, h.shift hp⟩
  | free own c =>
    rw [hp] at hstep
    cases own with
    | true =>
      obtain rfl := Option.some.inj hstep
      exact ⟨_, h.free (f := s.fs) hp (Or.inl ⟨rfl, rfl, rfl⟩)⟩
    | false =>
      obtain rfl := Option.some.inj hstep
      exact ⟨_, h.free hp (Or.inr ⟨rfl, rfl, rfl⟩)⟩
  | post c =>
    rw [hp] at hstep hpm
    obtain rfl := Option.some.inj hstep
    exact ⟨use, h.post (f := s.fs) hpm.2.1 hpm.2.2 (Or.inr ⟨hp, rfl, rfl⟩)⟩
  | load => rw [hp] at hstep; cases hstep

/-- Every step keeps the relation, for some uses of the channels. -/
theorem rel_step (h : Rel s use) (hstep : Step s ev s') : ∃ use', Rel s' use' := by
  unfold Step at hstep
  cases ev with
  | create ch dev =>
    dsimp only [step] at hstep
    split at hstep
    · rename_i hguard
      exact ⟨_, h.create hguard.1 dev.driver_eq hstep⟩
    · cases hstep
  | copy ch parent =>
    dsimp only [step] at hstep
    split at hstep
    · rename_i hguard
      have hok := h.chan parent
      have hparent : use parent ≠ .absent := fun ha => by
        rw [ha] at hok
        exact hguard.2 hok.1
      exact ⟨_, h.create hguard.1.1 (h.named parent hparent) hstep⟩
    · cases hstep
  | user ch =>
    dsimp only [step] at hstep
    split at hstep
    · cases hstep
    · exact h.user_step hstep
  | close ch =>
    dsimp only [step] at hstep
    split at hstep
    · rename_i hguard
      obtain rfl := Option.some.inj hstep
      exact ⟨_, h.fs_closing (Or.inl hguard.1) (by simp [hguard.2.1])
        (h.marked_of_idle .fs hguard.2.1) (Or.inl ⟨.mark, rfl, rfl⟩)⟩
    · cases hstep
  | exit chs =>
    dsimp only [step] at hstep
    split at hstep
    · obtain rfl := Option.some.inj hstep
      exact ⟨use, h.exiting _⟩
    · cases hstep
  | exec =>
    dsimp only [step] at hstep
    split at hstep
    · rename_i hguard
      obtain rfl := Option.some.inj hstep
      exact ⟨use, h.turn (Or.inl hguard.1) (Or.inr rfl)⟩
    · cases hstep
  | load =>
    dsimp only [step] at hstep
    split at hstep
    · rename_i hguard
      obtain rfl := Option.some.inj hstep
      exact ⟨use, h.turn (Or.inr hguard.1) (Or.inl rfl)⟩
    · cases hstep
  | fs => exact h.fs_step hstep
  | pm => exact h.pm_step hstep
  | entry d ch =>
    dsimp only [step] at hstep
    split at hstep
    · rename_i hguard
      obtain rfl := Option.some.inj hstep
      obtain ⟨hd, hopen, -⟩ := (h.array d ch).mp hguard.2
      exact ⟨use, h.move hd (by simp [hguard.1]) (by simp [hguard.1, DriverPhase.Holds]) hopen
        ⟨hd, hopen⟩ (by simp [hguard.1, DriverPhase.Holds])⟩
    · cases hstep
  | driver d => exact h.driver_step hstep

/-- At the start no channel exists. -/
theorem Sys.Initial.rel (h : s.Initial) : Rel s fun _ => .absent := by
  refine ⟨h.chan, by simp, by rw [h.fs]; trivial, by rw [h.pm]; trivial, fun c v hu => ?_,
    fun d c => ?_, fun d => by rw [h.driver]; trivial, by simp [Use.Ending],
    fun d c hc => ?_, by simp⟩
  · rw [(h.chan c).1] at hu
    cases hu
  · simp [h.array, Use.Open]
  · simp [h.slot] at hc

/-- While PM removes a channel, its driver waits. -/
theorem Rel.removal {own : Bool} (h : Rel s use)
    (hpm : s.pm = .shift own ch ∨ s.pm = .free own ch) :
    use ch = .done ∧ s.Waits ch := by
  have hok := h.pm
  have hdone : use ch = .done := by
    rcases hpm with hpm | hpm <;> rw [hpm] at hok <;> exact hok.1
  exact ⟨hdone, h.waits ch (Or.inr hdone)⟩

/-- A channel whose page is freed is closing only while the message is not posted. -/
theorem Rel.not_closing (h : Rel s use) (hgone : use ch = .gone) (hfs : s.fs ≠ .post ch)
    (hpm : s.pm ≠ .post ch) : ¬ s.Closing ch := by
  have hf : s.fs.chan = some ch → s.fs = .post ch := fun hc => h.fs.post_of_gone hc hgone
  have hp : s.pm.chan = some ch → s.pm = .post ch := fun hc => h.pm.post_of_gone hc hgone
  rintro (hc | hc | hc | hc | ⟨own, hc | hc⟩ | hc)
  · exact hfs (hf (by rw [hc]; rfl))
  · exact hfs (hf (by rw [hc]; rfl))
  · exact hfs hc
  · exact hpm (hp (by rw [hc]; rfl))
  · exact hpm (hp (by rw [hc]; rfl))
  · exact hpm (hp (by rw [hc]; rfl))
  · exact hpm hc

/-- A channel with an answered marker is in the hands of a server. -/
theorem Rel.closing_of_ending (h : Rel s use) (hend : (use ch).Ending) : s.Closing ch := by
  obtain ⟨v, hv⟩ : ∃ v, (s.chan ch).user = .closing v := by
    have hok := h.chan ch
    rcases hend with hu | hu <;> rw [hu] at hok
    · exact hok.2.2.2.2
    · exact hok.2.2
  have hnot : use ch ≠ .gone := by rcases hend with hu | hu <;> simp [hu]
  -- the earlier stages belong to a calm channel
  have hstage : ∀ st, StageOk (s.chan ch) (use ch) st → st = .recv := fun st hst => by
    cases st with
    | recv => rfl
    | mark | clear | set => rcases hend with hu | hu <;> simp [StageOk, hu] at hst
  unfold Sys.Closing
  rcases (h.busy ch v hv).resolve_left hnot with hb
  cases v with
  | fs =>
    rcases hb with ⟨st, hb⟩ | hb
    · have hfs := h.fs
      rw [hb] at hfs
      rw [hb, hstage st hfs.2]
      exact Or.inl rfl
    · exact Or.inr (Or.inl hb)
  | pm =>
    rcases hb with ⟨st, hb⟩ | hb | hb
    · have hpm := h.pm
      rw [hb] at hpm
      rw [hb, hstage st hpm.2]
      simp
    · exact Or.inr (Or.inr (Or.inr (Or.inr (Or.inl ⟨true, Or.inl hb⟩))))
    · exact Or.inr (Or.inr (Or.inr (Or.inr (Or.inl ⟨true, Or.inr hb⟩))))

/-- A freed page is in no hands. -/
theorem ChanOk.not_freed {x : Chan} {u : Use} (h : ChanOk x u) (hu : u ≠ .gone) :
    x.freed = false := by
  cases u with
  | absent => exact h.2
  | gone => exact absurd rfl hu
  | calm | sent b | taken b | answered b | done => exact h.1

/-- The relation gives the property. -/
theorem Rel.handshake (h : Rel s use) : s.Handshake := by
  refine ⟨fun own c hpm => ?_, fun own c hpm => ?_, fun d c hd => ?_, fun c hp => ?_,
    fun d c hc => ?_, fun d c hd => ?_⟩
  · obtain ⟨-, hw⟩ := h.removal hpm
    refine ⟨hw, fun d hin => ?_⟩
    have hd := ((h.array d c).mp hin).1
    rwa [Sys.Waits, hd] at hw
  · obtain ⟨hdone, -⟩ := h.removal (Or.inl hpm)
    exact (h.array _ c).mpr ⟨rfl, by simp [hdone, Use.Open], by simp [hpm]⟩
  · have hok := h.driver d
    refine (h.chan c).not_freed fun hg => ?_
    generalize s.driver d = q at hok hd
    cases q <;> cases hd <;> simp [DriverOk, hg, Use.Open] at hok
  · have hgone : use c = .gone ∧ s.Waits c := by
      rcases hp with hp | hp
      · have hfs := h.fs
        rw [hp] at hfs
        exact hfs.2
      · have hpm := h.pm
        rw [hp] at hpm
        exact hpm.2
    rw [← h.named c (by simp [hgone.1])]
    refine ⟨hgone.2, ?_⟩
    cases hslot : s.slot (s.chan c).driver with
    | none => rfl
    | some c' =>
      obtain ⟨hw, -, hf, hpm⟩ := h.slot _ c' hslot
      rw [hgone.2] at hw
      cases hw
      exact (hp.elim hf hpm).elim
  · obtain ⟨hw, hg, hf, hp⟩ := h.slot d c hc
    exact ⟨hw, h.not_closing hg hf hp⟩
  · have hok := h.driver d
    rw [hd] at hok
    rcases hok.2 with hend | ⟨-, hp | hp | hp⟩
    · exact Or.inr (h.closing_of_ending hend)
    · exact Or.inr (Or.inr (Or.inr (Or.inl hp)))
    · exact Or.inr (Or.inr (Or.inr (Or.inr (Or.inr (Or.inr hp)))))
    · exact Or.inl hp

end Steps

end Savannah.ChannelClose
