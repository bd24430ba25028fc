import Savannah.Fs.Initrd
import Savannah.Ipc.Messages
import Savannah.Pm.Supply

/-!
# The path of an exec request

The path that a program hands to `exec` of `lib/pm.c` passes through two outboxes on its way to the
search of `local_load`.  The library copies it into a `struct exec_ipc`, which fills the data of the
caller's outbox (`execIpcData`).  `local_exec` then sends it on to FS, but only as many bytes of it
as a pointer has, and what stands behind them in PM's outbox stays as it was (`msgSend`).  PM sends
nothing else from its outbox, so these bytes are zero after every sequence of earlier requests
(`outbox_tail`), and FS looks for the first eight bytes of the path (`asked_path`).

So the right program is loaded exactly if the path has at most eight bytes, or the image happens to
have the same program under the name that is left of it; and since FS counts the files of an image
in a signed byte, a file is found exactly if it is among those that are counted (`loadsAsked_iff`).
-/

namespace Savannah

open Foundation Fs Ipc PmState

/-! ### The messages -/

/-- `MAX_PATH` -/
abbrev maxPath : ℕ := 32

/-- The `struct exec_ipc` that the library's `exec` fills in; `old` is what the variable holds
before. The path is copied by `strncpy`, and a zero is put behind it. -/
def execIpcData (old path : List UInt8) (argv registers : ℕ) : List UInt8 :=
  let len := if path.length > maxPath then maxPath else path.length
  (path.take len ++ 0 :: old.drop (len + 1)).take maxPath ++
    (littleEndian 8 argv ++ littleEndian 8 registers)

/-- The data of the outboxes, `msg_output->data`. -/
abbrev Outboxes := ℕ → List UInt8

/-- The boot loader allocates the outboxes with `calloc_align`. -/
def emptyOutboxes : Outboxes := fun _ => List.replicate msgDataSize 0

/-- `msg_send`, for the data: `size` bytes are copied, and those behind them stay. -/
def msgSend (boxes : Outboxes) (id : ℕ) (data : List UInt8) (size : ℕ) : Outboxes :=
  Function.update boxes id (data.take size ++ (boxes id).drop size)

/-- The messages of one exec request of the CPU `c`: the library's to PM, with all of the `struct
exec_ipc`, and PM's to FS, with `sizeof(char*)` bytes of the path. -/
def execMessages (boxes : Outboxes) (c : ℕ) (data : List UInt8) : Outboxes :=
  let boxes := msgSend boxes c data msgDataSize
  msgSend boxes pmId (boxes c) 8

/-- The outboxes after a history of exec requests, each given by its sender and its data. -/
def outboxesAfter (history : List (ℕ × List UInt8)) : Outboxes :=
  history.foldl (fun boxes r => execMessages boxes r.1 r.2) emptyOutboxes

/-- What FS answers to a request for `path`. -/
def loadAnswer (fs : FsState) (path : List UInt8) : ℕ :=
  match localLoad (text path) fs with
  | .ok a _ => a
  | .error _ _ => 0

/-- The program headers of an ELF file: `e_phnum` of them from `e_phoff` on. -/
def programHeaders (elf : List UInt8) : List Phdr :=
  (List.range (number (field elf 56 2))).map fun i =>
    let s := elf.drop (number (field elf 32 8) + 56 * i)
    ⟨number (field s 16 8), number (field s 40 8)⟩

/-- `local_exec`, with FS's answer to the message in PM's outbox. -/
def execAnswer (fs : FsState) (img : List UInt8) (boxes : Outboxes) (c : ℕ)
    (argv : List (ℕ × List ℕ)) (regs : Regs) : Pm ℤ :=
  let elf := loadAnswer fs (cString (boxes pmId))
  localExec c
    ⟨if elf = 0 then none else some (programHeaders (img.drop (elf - fs.filesystem))),
      (cString (boxes c)).map UInt8.toNat, argv, regs⟩

/-! ### The image -/

namespace Fs

/-- The names of the files of an image, with those of the character devices. -/
def fileNames (files : List SourceFile) : List (List UInt8) :=
  bytesOf "stdin" :: bytesOf "stdout" :: files.map SourceFile.name

/-- The number of files, taken from its lowest byte as a signed number. -/
def countedFiles (n : ℕ) : ℕ := if n % 256 < 128 then n % 256 else 0

/-- The offset of the first file of this name, among those that are counted. -/
def entryOf (files : List SourceFile) (path : List UInt8) : Option ℕ :=
  (((headerList files).take (countedFiles (files.length + 2))).find?
    fun hd => hd.name = text path).map FileHeader.offset

variable {name path : List UInt8} {files : List SourceFile} {fs : FsState}

theorem numFiles_toNat (name : List UInt8) (files : List SourceFile) :
    (numFiles (image name files)).toNat = countedFiles (files.length + 2) := by
  have hbyte : numFiles (image name files) = Int.bmod ((files.length + 2) % 256 : ℕ) 256 := rfl
  have hmod := Nat.mod_lt (files.length + 2) (show 0 < 256 by decide)
  rw [hbyte, countedFiles, Int.bmod]
  split <;> split <;> omega

/-- The names in the image. -/
theorem map_name_headerList :
    (headerList files).map FileHeader.name = (fileNames files).map text := by
  have hdev : text (bytesOf "stdin") = "stdin" ∧ text (bytesOf "stdout") = "stdout" := by decide
  simp only [headerList, fileNames, List.map_cons, hdev.1, hdev.2, List.map_map]
  exact congrArg _ (congrArg _ (List.ext_getElem (by simp) fun i _ _ => by simp))

/-- A file that is found is in the image. -/
theorem mem_fileNames_of_entryOf {off : ℕ} (h : entryOf files path = some off) :
    path ∈ fileNames files := by
  obtain ⟨hd, hfind, -⟩ := Option.map_eq_some_iff.mp h
  have hmem := List.mem_of_mem_take (List.mem_of_find?_eq_some hfind)
  have hname : hd.name = text path := by simpa using List.find?_some hfind
  have htext : text path ∈ (fileNames files).map text := by
    rw [← map_name_headerList, ← hname]
    exact List.mem_map_of_mem hmem
  obtain ⟨p, hp, heq⟩ := List.mem_map.mp htext
  exact text_injective heq ▸ hp

/-- With at most 125 files all of them are counted. -/
theorem exists_entryOf (hfew : files.length ≤ 125) (hmem : path ∈ fileNames files) :
    ∃ off, entryOf files path = some off := by
  have hall : (headerList files).take (countedFiles (files.length + 2)) = headerList files := by
    refine List.take_of_length_le ?_
    rw [length_headerList, countedFiles]
    split <;> omega
  have htext : text path ∈ (headerList files).map FileHeader.name := by
    rw [map_name_headerList]
    exact List.mem_map_of_mem hmem
  obtain ⟨hd, hhd, heq⟩ := List.mem_map.mp htext
  have hsome : ((headerList files).find? fun hd => hd.name = text path).isSome :=
    List.find?_isSome.mpr ⟨hd, hhd, decide_eq_true heq⟩
  obtain ⟨hd', hfind⟩ := Option.isSome_iff_exists.mp hsome
  refine ⟨hd'.offset, ?_⟩
  rw [entryOf, hall, hfind, Option.map_some]

end Fs

section Path

variable {name img path old : List UInt8} {files : List SourceFile} {fs : FsState}
  {boxes : Outboxes}
  {c argvPtr regsPtr : ℕ} {history : List (ℕ × List UInt8)} {argv : List (ℕ × List ℕ)} {regs : Regs}
  {s : PmState}

/-- FS answers with the address of the first file of this name, or with zero. -/
theorem loadAnswer_eq (hname : name.length = 32)
    (hfiles : ∀ f ∈ files, f.name.length ≤ 31 ∧ 0 ∉ f.name)
    (htotal : 56 * (files.length + 2) + 4 + (files.map SourceFile.bytes).flatten.length < 2 ^ 31)
    (hfs : fs.files = headersOf (image name files)) (path : List UInt8) :
    loadAnswer fs path = ((entryOf files path).map (fs.filesystem + ·)).getD 0 := by
  have hload : wp (localLoad (text path))
      (fun a _ => a = ((entryOf files path).map (fs.filesystem + ·)).getD 0)
      (fun _ _ => False) fs := by
    refine localLoad_eq.mpr ?_
    rw [hfs, headersOf_image hname hfiles htotal, numFiles_toNat, entryOf]
    cases ((headerList files).take (countedFiles (files.length + 2))).find?
      fun hd => decide (hd.name = text path) <;> rfl
  unfold loadAnswer
  unfold wp at hload
  cases hrun : localLoad (text path) fs with
  | ok a s' => rwa [hrun] at hload
  | error e s' => rw [hrun] at hload; exact hload.elim

/-- PM's outbox after a request: eight bytes of the data, and behind them what was there before. -/
theorem execMessages_pm {data : List UInt8} (hc : c ≠ pmId) (hdata : data.length = msgDataSize) :
    execMessages boxes c data pmId = data.take 8 ++ (boxes pmId).drop 8 := by
  have hpm : msgSend boxes c data msgDataSize pmId = boxes pmId :=
    Function.update_of_ne hc.symm _ _
  have hown : msgSend boxes c data msgDataSize c = data ++ (boxes c).drop msgDataSize := by
    rw [msgSend, Function.update_self, List.take_of_length_le hdata.le]
  simp only [execMessages]
  rw [msgSend, Function.update_self, hpm, hown,
    List.take_append_of_le_length (by rw [hdata]; decide)]

/-- Different entries give different answers. -/
theorem answer_inj {a : ℕ} (ha : 0 < a) {o o' : Option ℕ} :
    (o.map (a + ·)).getD 0 = (o'.map (a + ·)).getD 0 ↔ o = o' := by
  cases o <;> cases o' <;> simp <;> omega

/-- Earlier requests leave zeros behind the bytes that PM sends. -/
theorem outbox_tail (hhist : ∀ r ∈ history, r.1 ≠ pmId ∧ r.2.length = msgDataSize) :
    (outboxesAfter history pmId).drop 8 = List.replicate 40 0 := by
  have hrun : ∀ (history : List (ℕ × List UInt8)) (boxes : Outboxes),
      (∀ r ∈ history, r.1 ≠ pmId ∧ r.2.length = msgDataSize) →
      (boxes pmId).drop 8 = List.replicate 40 0 →
      (history.foldl (fun boxes r => execMessages boxes r.1 r.2) boxes pmId).drop 8
        = List.replicate 40 0 := by
    intro history
    induction history with
    | nil => exact fun _ _ h => h
    | cons r history ih =>
      intro boxes hall htail
      have hr := hall r List.mem_cons_self
      refine ih _ (fun q hq => hall q (List.mem_cons_of_mem r hq)) ?_
      dsimp only
      rw [execMessages_pm hr.1 hr.2, List.drop_left' (by rw [List.length_take, hr.2]; rfl), htail]
  exact hrun history emptyOutboxes hhist rfl

theorem length_execIpcData (hold : old.length = msgDataSize) :
    (execIpcData old path argvPtr regsPtr).length = msgDataSize := by
  simp only [execIpcData, List.length_append, List.length_take, List.length_cons, List.length_drop,
    length_littleEndian, hold, maxPath, msgDataSize]
  split <;> omega

/-- A string ends at its first zero. -/
theorem cString_append_zero {p rest : List UInt8} (h : 0 ∉ p) : cString (p ++ 0 :: rest) = p := by
  have hne : ∀ b ∈ p, decide (b ≠ 0) = true := fun b hb => decide_eq_true fun h0 => h (h0 ▸ hb)
  rw [cString, List.takeWhile_append_of_pos hne]
  simp

/-- FS is asked for the first eight bytes of the path. -/
theorem asked_path (hhist : ∀ r ∈ history, r.1 ≠ pmId ∧ r.2.length = msgDataSize) (hc : c ≠ pmId)
    (hold : old.length = msgDataSize) (hpath : path.length ≤ 31 ∧ 0 ∉ path) :
    cString (execMessages (outboxesAfter history) c (execIpcData old path argvPtr regsPtr) pmId)
      = path.take 8 := by
  have hlen : ¬ path.length > 32 := by have := hpath.1; omega
  have hdata : (execIpcData old path argvPtr regsPtr).take 8
      = (path ++ 0 :: old.drop (path.length + 1)).take 8 := by
    simp only [execIpcData, if_neg hlen, List.take_length]
    rw [List.take_append_of_le_length (by simp [hold, maxPath, msgDataSize]; omega), List.take_take]
    rfl
  rw [execMessages_pm hc (length_execIpcData hold), outbox_tail hhist, hdata]
  rcases Nat.lt_or_ge path.length 8 with hshort | hlong
  · -- the terminating zero is among the eight bytes
    rw [List.take_append, List.take_of_length_le (by omega),
      show 8 - path.length = (7 - path.length) + 1 by omega, List.take_succ_cons, List.append_assoc,
      List.cons_append, cString_append_zero hpath.2]
  · -- the path is cut off, and a byte that was never written ends it
    rw [List.take_append_of_le_length hlong, List.replicate_succ]
    exact cString_append_zero fun h0 => hpath.2 (List.mem_of_mem_take h0)

/-! ### Loading the program -/

/-- The request is answered as it should be: PM gets the address that FS finds for exactly this
path, and the answer is `-1`, with only the registers of the caller restored, if and only if the
image has no file of this name. -/
structure LoadsAsked (fs : FsState) (img : List UInt8) (files : List SourceFile) (path : List UInt8)
    (boxes : Outboxes) (c : ℕ) (argv : List (ℕ × List ℕ)) (regs : Regs) (s : PmState) : Prop where
  address : loadAnswer fs (cString (boxes pmId)) = loadAnswer fs path
  refused : execAnswer fs img boxes c argv regs s
      = .ok (-1) (s.updateVm c fun v => { v with regs := regs }) ↔ path ∉ fileNames files

/-- `local_exec` fails exactly if FS answers with zero. -/
theorem execAnswer_refused (hc : c ≤ maxCpus) :
    execAnswer fs img boxes c argv regs s
        = .ok (-1) (s.updateVm c fun v => { v with regs := regs }) ↔
      loadAnswer fs (cString (boxes pmId)) = 0 := by
  have hcpu : derefCpu c s = .ok c s := by
    unfold derefCpu getCpuInfo
    rw [if_neg (not_lt.mpr hc)]
    rfl
  unfold execAnswer
  by_cases hzero : loadAnswer fs (cString (boxes pmId)) = 0
  · refine iff_of_true ?_ hzero
    simp only [hzero, if_true]
    unfold localExec
    simp only [bind, EStateM.bind, hcpu]
    rfl
  · refine iff_of_false ?_ hzero
    simp only [if_neg hzero]
    intro hrun
    have hne : wp (localExec c ⟨some (programHeaders (img.drop
        (loadAnswer fs (cString (boxes pmId)) - fs.filesystem))),
        (cString (boxes c)).map UInt8.toNat, argv, regs⟩) (fun r _ => r = 0)
        (fun _ _ => True) s := by
      unfold localExec
      refine wp_bind.mpr (wp.of_returns fun c' s' => ?_)
      refine wp_bind.mpr (wp.of_returns fun saved s' => ?_)
      refine wp_bind.mpr (wp.of_returns fun _ s' => ?_)
      refine wp_bind.mpr (wp.of_returns fun _ s' => ?_)
      exact wp_bind.mpr (wp.of_returns fun _ s' => rfl)
    exact absurd (hne.ok hrun) (by decide)

end Path

/-! ### Two programs with a common beginning -/

/-- Two files, the name of one of which begins with the name of the other. -/
def twoPrograms : List SourceFile := [⟨bytesOf "keyboard", [1]⟩, ⟨bytesOf "keyboard2", [2]⟩]

theorem acceptable_twoPrograms : Acceptable twoPrograms :=
  ⟨by decide, by decide, by decide, by decide, by decide, by decide⟩

/-- The image of these files. -/
def twoProgramsImage : List UInt8 := image (List.replicate 32 0) twoPrograms

/-- FS with this image. -/
def twoProgramsFs : FsState := holding twoProgramsImage

theorem twoProgramsFs_files : twoProgramsFs.files = headersOf twoProgramsImage := by
  simp only [twoProgramsFs, holding]

/-- PM before its first request. -/
def idlePm : PmState :=
  PmState.initial ⟨fun _ => default, 0, none, 0, 0, 0, 0, 0⟩ (fun _ => default) 6 0x400000

/-- The outboxes after the first process has asked for a path. -/
def askedBoxes (path : String) : Outboxes :=
  execMessages (outboxesAfter []) initId
    (execIpcData (List.replicate msgDataSize 0) (bytesOf path) 0 0)

end Savannah
