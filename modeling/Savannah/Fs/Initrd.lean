import Savannah.Foundation.Layout
import Savannah.Fs.Answers

/-!
# The initial file system

`initrd/create_initrd.c` writes an image, and FS reads its files from it: the number of files in
four bytes, a `struct header` for each file, and the contents.  `createInitrd` is the writer.  On
the side of FS an image determines the headers that the search of `local_open` and `local_load`
visits (`headersOf`) and the bytes that `local_read_file` copies (`localReadFileBytes`).

The two agree on the layout: the `i`-th header that FS looks at is the `i`-th one written
(`headerAt_image`), and its offset leads to the contents (`field_image`).  They disagree on the
number of files, which FS takes from the first byte of the image as a signed number, and a negative
count of bytes to read is compared as an unsigned number.  So a file list makes the round trip
exactly if it has at most 125 files, and a count is served as it should be exactly if it is not
negative or there is nothing to read (`roundTrip_iff`).
-/

namespace Savannah

open Foundation

namespace Fs

/-! ### The writer -/

/-- A file to be put into the image: its base name and its contents. -/
structure SourceFile where
  name : List UInt8
  bytes : List UInt8
  deriving DecidableEq, Repr

/-- `MAX` -/
abbrev maxFileSize : ℕ := 0x400000

/-- The bytes of a string constant. -/
def bytesOf (s : String) : List UInt8 := s.toList.map fun c => UInt8.ofNat c.toNat

/-- `strcpy (dst, src)`: what stands behind the copied bytes stays. -/
def strcpy (dst src : List UInt8) : List UInt8 := src ++ 0 :: dst.drop (src.length + 1)

/-- The bytes of a `struct header`. -/
def header (name : List UInt8) (type length dst offset : ℕ) : List UInt8 :=
  name ++ (littleEndian 4 type ++ (littleEndian 4 length ++
    (littleEndian 8 dst ++ littleEndian 8 offset)))

/-- The headers of the files, from the name that `h_tmp` holds and the offset `off` on. -/
def fileHeaders : List UInt8 → ℕ → List SourceFile → List (List UInt8)
  | _, _, [] => []
  | name, off, f :: files =>
    let name := strcpy name f.name
    header name typeFile f.bytes.length 0 off :: fileHeaders name (off + f.bytes.length) files

/-- All headers; `name` is what `h_tmp.name` holds before it is first assigned. -/
def allHeaders (name : List UInt8) (files : List SourceFile) : List (List UInt8) :=
  let stdin := strcpy name (bytesOf "stdin")
  let stdout := strcpy stdin (bytesOf "stdout")
  header stdin typeChar 0 0 0 :: header stdout typeChar 0 0 0 ::
    fileHeaders stdout (56 * (files.length + 2) + 4) files

/-- What `main` writes if it does not stop early. -/
def image (name : List UInt8) (files : List SourceFile) : List UInt8 :=
  littleEndian 4 (files.length + 2) ++
    ((allHeaders name files).flatten ++ (files.map SourceFile.bytes).flatten)

/-- `main`: without files there is no image, and a file that is too large is refused. -/
def createInitrd (name : List UInt8) (files : List SourceFile) : Option (List UInt8) :=
  if files = [] ∨ ∃ f ∈ files, maxFileSize < f.bytes.length then none else some (image name files)

/-! ### The reader -/

/-- A string of C as a `String`: each byte is a character. -/
def text (bytes : List UInt8) : String := String.ofList (bytes.map fun b => Char.ofNat b.toNat)

/-- The string of C at the beginning of `l`. -/
def cString (l : List UInt8) : List UInt8 := l.takeWhile (· ≠ 0)

/-- The `struct header` at the beginning of `tmp`. -/
def headerOf (tmp : List UInt8) : FileHeader :=
  ⟨text (cString tmp), number (field tmp 32 4), number (field tmp 36 4), number (field tmp 48 8)⟩

/-- `filesystem + sizeof(int) + (i * sizeof(struct header))` -/
def headerAt (img : List UInt8) (i : ℕ) : FileHeader := headerOf (img.drop (4 + 56 * i))

/-- `(int)*filesystem`, where `filesystem` is a `char *`: the first byte, as a signed number. -/
def numFiles (img : List UInt8) : ℤ := Int.bmod (img.headD 0).toNat 256

/-- The headers that the search for a name visits. -/
def headersOf (img : List UInt8) : List FileHeader :=
  (List.range (numFiles img).toNat).map (headerAt img)

/-- `local_read_file` with the bytes that it copies into the buffer. -/
def localReadFileBytes (img : List UInt8) (fd count : ℤ) (sender : ℕ) :
    FsM (ℤ × List UInt8) := do
  if !(← getFds sender) then
    return (0, [])
  let f ← readFd sender fd
  let count := if count % 2 ^ 32 > f.length then int32 f.length else count
  return (count, field img f.offset (toSize count))

/-! ### The round trip -/

/-- The file lists that the writer is meant for. -/
structure Acceptable (files : List SourceFile) : Prop where
  nonempty : files ≠ []
  nodup : (files.map SourceFile.name).Nodup
  terminated : ∀ f ∈ files, f.name.length ≤ 31 ∧ 0 ∉ f.name
  notChar : ∀ f ∈ files,
    f.name ≠ bytesOf "stdin" ∧ f.name ≠ bytesOf "stdout" ∧ f.name ≠ bytesOf "junkfd"
  size : ∀ f ∈ files, f.bytes.length ≤ maxFileSize
  total : 56 * (files.length + 2) + 4 + (files.map SourceFile.bytes).flatten.length < 2 ^ 31

/-- The offset at which the bytes of the `i`-th file are written. -/
def offsetOf (files : List SourceFile) (i : ℕ) : ℕ :=
  56 * (files.length + 2) + 4 + ((files.take i).map SourceFile.bytes).flatten.length

/-- FS serves a file of the image `img` whose bytes are at `off`. -/
structure Serves (img : List UInt8) (s : FsState) (sender : ℕ) (pm : PmAnswer) (count : ℤ)
    (f : SourceFile) (off : ℕ) : Prop where
  written : field img off f.bytes.length = f.bytes
  opened : wp (localOpen (text f.name) oRdonly sender pm)
    (fun r s' => 0 ≤ r.fd ∧ s'.fds sender r.fd = ⟨typeFile, f.bytes.length, 0, off⟩ ∧
      wp (localReadFileBytes img r.fd count sender)
        (fun a _ => a = (max 0 (min count f.bytes.length),
          f.bytes.take (max 0 (min count f.bytes.length)).toNat)) (fun _ _ => False) s')
    (fun _ _ => False) s
  loaded : wp (localLoad (text f.name)) (fun a _ => a = s.filesystem + off) (fun _ _ => False) s

/-- FS knows no file of this name. -/
structure Unknown (s : FsState) (sender : ℕ) (pm : PmAnswer) (pathname : String) : Prop where
  opened : ∀ flags, wp (localOpen pathname flags sender pm) (fun r _ => r.fd = -1)
    (fun _ _ => False) s
  loaded : wp (localLoad pathname) (fun a _ => a = 0) (fun _ _ => False) s

/-- The writer accepts the files and FS, with the image in its memory, serves these files and no
others. -/
def RoundTrip (name : List UInt8) (files : List SourceFile) (s : FsState) (sender : ℕ)
    (pm : PmAnswer) (count : ℤ) : Prop :=
  createInitrd name files = some (image name files) ∧
  (∀ (i : ℕ) (h : i < files.length),
    Serves (image name files) s sender pm count (files.get ⟨i, h⟩) (offsetOf files i)) ∧
  ∀ pathname, pathname ∉ files.map (fun f => text f.name) → pathname ≠ "stdin" →
    pathname ≠ "stdout" → pathname ≠ "junkfd" → Unknown s sender pm pathname

/-- FS holds the image, and the table of `sender` has a free entry. -/
structure Ready (name : List UInt8) (files : List SourceFile) (s : FsState) (sender : ℕ) :
    Prop where
  files_eq : s.files = headersOf (image name files)
  table : s.Table sender
  free : ∃ fd : ℕ, 2 ≤ fd ∧ fd < maxFd ∧ (s.fds sender fd).offset = 0

/-! ### The layout -/

section Layout

variable {name : List UInt8} {files : List SourceFile} {f : SourceFile} {i : ℕ}

theorem length_strcpy {dst src : List UInt8} (h : src.length < dst.length) :
    (strcpy dst src).length = dst.length := by
  rw [strcpy, List.length_append, List.length_cons, List.length_drop]
  omega

theorem length_header {type length dst offset : ℕ} (h : name.length = 32) :
    (header name type length dst offset).length = 56 := by
  simp only [header, List.length_append, length_littleEndian, h]

/-- A copied string ends where it ended before. -/
theorem cString_strcpy {dst src rest : List UInt8} (h : 0 ∉ src) :
    cString (strcpy dst src ++ rest) = src := by
  have hne : ∀ b ∈ src, decide (b ≠ 0) = true := fun b hb =>
    decide_eq_true fun h0 => h (h0 ▸ hb)
  rw [cString, strcpy, List.append_assoc, List.takeWhile_append_of_pos hne]
  simp

/-- FS reads the fields of a header as they were written. -/
theorem headerOf_header {src rest : List UInt8} {type length dst offset : ℕ}
    (hname : name.length = 32) (hlen : src.length ≤ 31) (hsrc : 0 ∉ src) (htype : type < 256 ^ 4)
    (hlength : length < 256 ^ 4) (hoff : offset < 256 ^ 8) :
    headerOf (header (strcpy name src) type length dst offset ++ rest)
      = ⟨text src, type, length, offset⟩ := by
  have h32 : (strcpy name src).length = 32 := by rw [length_strcpy (by omega), hname]
  unfold headerOf header
  rw [List.append_assoc, cString_strcpy hsrc]
  congr 1
  · rw [List.append_assoc, field_append h32 (length_littleEndian _ _), number_littleEndian htype]
  · rw [show 36 = (strcpy name src).length + 4 by rw [h32], field_append_right, List.append_assoc,
      List.append_assoc, field_append (length_littleEndian _ _) (length_littleEndian _ _),
      number_littleEndian hlength]
  · rw [show 48 = (strcpy name src).length + 16 by rw [h32], field_append_right]
    simp only [List.append_assoc]
    rw [← List.append_assoc, ← List.append_assoc, field_append (by simp) (length_littleEndian _ _),
      number_littleEndian hoff]

/-- The header of a file, as FS reads it from what begins with the header that was written. -/
theorem headerOf_fileHeaders {off : ℕ} {rest : List UInt8} (hname : name.length = 32)
    (hfiles : ∀ f ∈ files, f.name.length ≤ 31 ∧ 0 ∉ f.name)
    (hoff : off + (files.map SourceFile.bytes).flatten.length < 2 ^ 31) (hi : i < files.length) :
    headerOf (((fileHeaders name off files).drop i).flatten ++ rest)
      = ⟨text (files.get ⟨i, hi⟩).name, typeFile, (files.get ⟨i, hi⟩).bytes.length,
          off + ((files.take i).map SourceFile.bytes).flatten.length⟩ := by
  induction files generalizing name off i with
  | nil => exact absurd hi (Nat.not_lt_zero i)
  | cons f files ih =>
    have hf := hfiles f List.mem_cons_self
    simp only [List.map_cons, List.flatten_cons, List.length_append] at hoff
    cases i with
    | zero =>
      rw [List.drop_zero, fileHeaders, List.flatten_cons, List.append_assoc]
      exact headerOf_header hname hf.1 hf.2 (by decide) (by omega) (by omega)
    | succ i =>
      have hname' : (strcpy name f.name).length = 32 := by rw [length_strcpy (by omega), hname]
      have hoff' : off + f.bytes.length + (files.map SourceFile.bytes).flatten.length < 2 ^ 31 := by
        omega
      rw [fileHeaders, List.drop_succ_cons,
        ih hname' (fun g hg => hfiles g (List.mem_cons_of_mem f hg)) hoff'
        (Nat.lt_of_succ_lt_succ hi),
        List.take_succ_cons, List.map_cons,
        List.flatten_cons, List.length_append, Nat.add_assoc]
      rfl

/-- Every header takes the same room. -/
theorem length_of_mem_fileHeaders {off : ℕ} (hname : name.length = 32)
    (hfiles : ∀ f ∈ files, f.name.length ≤ 31 ∧ 0 ∉ f.name) :
    ∀ r ∈ fileHeaders name off files, r.length = 56 := by
  induction files generalizing name off with
  | nil => exact fun r hr => absurd hr List.not_mem_nil
  | cons f files ih =>
    have h32 : (strcpy name f.name).length = 32 := by
      rw [length_strcpy (by have := hfiles f List.mem_cons_self; omega), hname]
    intro r hr
    rcases List.mem_cons.mp hr with rfl | hr
    · exact length_header h32
    · exact ih h32 (fun g hg => hfiles g (List.mem_cons_of_mem f hg)) r hr

theorem length_fileHeaders {off : ℕ} : (fileHeaders name off files).length = files.length := by
  induction files generalizing name off with
  | nil => rfl
  | cons f files ih => rw [fileHeaders, List.length_cons, List.length_cons, ih]

/-- The names that `h_tmp` holds when the headers of the character devices are written. -/
theorem length_strcpy_stdin (hname : name.length = 32) :
    (strcpy name (bytesOf "stdin")).length = 32 := by
  rw [length_strcpy (by rw [hname]; decide), hname]

@[inherit_doc length_strcpy_stdin]
theorem length_strcpy_stdout (hname : name.length = 32) :
    (strcpy (strcpy name (bytesOf "stdin")) (bytesOf "stdout")).length = 32 := by
  rw [length_strcpy (by rw [length_strcpy_stdin hname]; decide), length_strcpy_stdin hname]

/-- Headers have 56 bytes. -/
theorem length_of_mem_allHeaders (hname : name.length = 32)
    (hfiles : ∀ f ∈ files, f.name.length ≤ 31 ∧ 0 ∉ f.name) :
    ∀ r ∈ allHeaders name files, r.length = 56 := by
  intro r hr
  rcases List.mem_cons.mp hr with rfl | hr
  · exact length_header (length_strcpy_stdin hname)
  rcases List.mem_cons.mp hr with rfl | hr
  · exact length_header (length_strcpy_stdout hname)
  · exact length_of_mem_fileHeaders (length_strcpy_stdout hname) hfiles r hr

/-- The headers of the image, as FS reads them. -/
def headerList (files : List SourceFile) : List FileHeader :=
  ⟨"stdin", typeChar, 0, 0⟩ :: ⟨"stdout", typeChar, 0, 0⟩ ::
    files.mapIdx fun i f => ⟨text f.name, typeFile, f.bytes.length, offsetOf files i⟩

@[simp] theorem length_headerList : (headerList files).length = files.length + 2 := by
  simp [headerList]

/-- The header that FS finds at position `i` is the one that was written there. -/
theorem headerAt_image (hname : name.length = 32)
    (hfiles : ∀ f ∈ files, f.name.length ≤ 31 ∧ 0 ∉ f.name)
    (htotal : 56 * (files.length + 2) + 4 + (files.map SourceFile.bytes).flatten.length < 2 ^ 31)
    (hi : i < (headerList files).length) :
    headerAt (image name files) i = (headerList files).get ⟨i, hi⟩ := by
  have hall := length_of_mem_allHeaders hname hfiles
  have hle : 56 * i ≤ (allHeaders name files).flatten.length := by
    rw [length_headerList] at hi
    rw [length_flatten hall]
    simp only [allHeaders, List.length_cons, length_fileHeaders]
    omega
  unfold headerAt image
  rw [← List.drop_drop, List.drop_left' (length_littleEndian _ _),
    List.drop_append_of_le_length hle, drop_flatten hall]
  match i with
  | 0 =>
    rw [List.drop_zero, allHeaders, List.flatten_cons, List.append_assoc]
    exact headerOf_header hname (by decide) (by decide) (by decide) (by decide) (by decide)
  | 1 =>
    rw [allHeaders, List.drop_succ_cons, List.drop_zero, List.flatten_cons, List.append_assoc]
    exact headerOf_header (length_strcpy_stdin hname) (by decide) (by decide) (by decide)
      (by decide) (by decide)
  | i + 2 =>
    have hi' : i < files.length := by rw [length_headerList] at hi; omega
    rw [allHeaders, List.drop_succ_cons, List.drop_succ_cons,
      headerOf_fileHeaders (length_strcpy_stdout hname) hfiles htotal hi']
    simp [headerList, offsetOf]

/-- The bytes of a file are where its offset says. -/
theorem field_image (hname : name.length = 32) (h : Acceptable files) (hi : i < files.length) :
    field (image name files) (offsetOf files i) (files.get ⟨i, hi⟩).bytes.length
      = (files.get ⟨i, hi⟩).bytes := by
  have hlen : (littleEndian 4 (files.length + 2) ++ (allHeaders name files).flatten).length
      = 56 * (files.length + 2) + 4 := by
    rw [List.length_append, length_littleEndian,
      length_flatten (length_of_mem_allHeaders hname h.terminated)]
    simp only [allHeaders, List.length_cons, length_fileHeaders]
    omega
  have hsplit : (files.map SourceFile.bytes).flatten
      = ((files.take i).map SourceFile.bytes).flatten ++ ((files.get ⟨i, hi⟩).bytes ++
        ((files.drop (i + 1)).map SourceFile.bytes).flatten) := by
    rw [← List.flatten_cons, ← List.map_cons, ← List.flatten_append, ← List.map_append,
      List.get_eq_getElem, List.getElem_cons_drop, List.take_append_drop]
  rw [image, ← List.append_assoc, offsetOf, ← hlen, field_append_right, hsplit]
  exact field_append rfl rfl

end Layout

/-! ### The search for a name -/

section Search

variable {name : List UInt8} {files : List SourceFile} {s : FsState} {sender : ℕ} {pm : PmAnswer}
  {count : ℤ} {pathname : String}

/-- A name is known by its text. -/
theorem text_injective : Function.Injective text := by
  intro a b h
  have hchar : ∀ x : UInt8, (Char.ofNat x.toNat).toNat = x.toNat := by decide +kernel
  refine List.map_injective_iff.mpr (fun x y hxy => UInt8.toNat_inj.mp ?_)
    (String.ofList_injective h)
  rw [← hchar x, ← hchar y, hxy]

/-- The number of files that FS sees: the right one up to 127, and a smaller one from 128 on. -/
theorem numFiles_image (name : List UInt8) (files : List SourceFile) :
    (files.length + 2 ≤ 127 → (numFiles (image name files)).toNat = files.length + 2) ∧
    (127 < files.length + 2 → (numFiles (image name files)).toNat < files.length + 2) := by
  have hbyte : numFiles (image name files) = Int.bmod ((files.length + 2) % 256 : ℕ) 256 := rfl
  rw [hbyte]
  have hmod := Nat.mod_lt (files.length + 2) (show 0 < 256 by decide)
  unfold Int.bmod
  constructor
  · intro hle
    rw [Nat.mod_eq_of_lt (by omega)]
    dsimp only
    split <;> omega
  · intro hlt
    dsimp only
    split <;> omega

/-- No file is found that is not there. -/
theorem numFiles_le (name : List UInt8) (files : List SourceFile) :
    (numFiles (image name files)).toNat ≤ files.length + 2 := by
  have hnum := numFiles_image name files
  omega

/-- FS visits the first headers of the image. -/
theorem headersOf_image (hname : name.length = 32)
    (hfiles : ∀ f ∈ files, f.name.length ≤ 31 ∧ 0 ∉ f.name)
    (htotal : 56 * (files.length + 2) + 4 + (files.map SourceFile.bytes).flatten.length < 2 ^ 31) :
    headersOf (image name files)
      = (headerList files).take (numFiles (image name files)).toNat := by
  have hle := numFiles_le name files
  refine List.ext_getElem (by simp [headersOf, hle]) fun i h₁ h₂ => ?_
  have hi : i < (headerList files).length := by
    rw [List.length_take] at h₂
    omega
  simp only [headersOf, List.getElem_map, List.getElem_range, List.getElem_take]
  exact headerAt_image hname hfiles htotal hi

/-- The names of the headers are distinct. -/
theorem nodup_headerList (h : Acceptable files) :
    ((headerList files).map FileHeader.name).Nodup := by
  have hnames : (headerList files).map FileHeader.name
      = "stdin" :: "stdout" :: files.map fun f => text f.name := by
    simp only [headerList, List.map_cons]
    refine congrArg _ (congrArg _ (List.ext_getElem (by simp) fun i _ _ => by simp))
  have hne : ∀ c : String, (∀ f ∈ files, f.name ≠ bytesOf c) → text (bytesOf c) = c →
      c ∉ files.map fun f => text f.name := by
    intro c hc htext hmem
    obtain ⟨f, hf, heq⟩ := List.mem_map.mp hmem
    exact hc f hf (text_injective (heq.trans htext.symm))
  have hin := hne "stdin" (fun f hf => (h.notChar f hf).1) (by decide)
  have hout := hne "stdout" (fun f hf => (h.notChar f hf).2.1) (by decide)
  rw [hnames, List.nodup_cons, List.nodup_cons]
  refine ⟨fun hmem => ?_, hout, ?_⟩
  · rcases List.mem_cons.mp hmem with heq | hmem
    · exact absurd heq (by decide)
    · exact hin hmem
  · have hmap : (files.map fun f => text f.name) = (files.map SourceFile.name).map text := by
      rw [List.map_map]
      rfl
    rw [hmap]
    exact h.nodup.map text_injective

/-- The names of the files, as FS compares them. -/
theorem mem_headerList {hd : FileHeader} (hmem : hd ∈ headerList files) :
    hd.name = "stdin" ∨ hd.name = "stdout" ∨ hd.name ∈ files.map fun f => text f.name := by
  rcases List.mem_cons.mp hmem with rfl | hmem
  · exact Or.inl rfl
  rcases List.mem_cons.mp hmem with rfl | hmem
  · exact Or.inr (Or.inl rfl)
  obtain ⟨i, hi, rfl⟩ := List.mem_mapIdx.mp hmem
  exact Or.inr (Or.inr (List.mem_map.mpr ⟨_, List.getElem_mem hi, rfl⟩))

/-- A name that is not in the list is not found. -/
theorem find_missing (hname : name.length = 32) (h : Acceptable files)
    (hmiss : pathname ∉ files.map fun f => text f.name) (hin : pathname ≠ "stdin")
    (hout : pathname ≠ "stdout") :
    (headersOf (image name files)).find? (fun hd => hd.name = pathname) = none := by
  rw [headersOf_image hname h.terminated h.total, List.find?_eq_none]
  intro hd hmem heq
  have heq : hd.name = pathname := of_decide_eq_true heq
  rw [← heq] at hmiss hin hout
  rcases mem_headerList (List.mem_of_mem_take hmem) with h | h | h
  · exact hin h
  · exact hout h
  · exact hmiss h

/-- The header of the `i`-th file is found if FS looks that far, and not otherwise. -/
theorem find_file (hname : name.length = 32) (h : Acceptable files) {i : ℕ}
    (hi : i < files.length) :
    (headersOf (image name files)).find? (fun hd => hd.name = text (files.get ⟨i, hi⟩).name)
      = if i + 2 < (numFiles (image name files)).toNat then
          some ⟨text (files.get ⟨i, hi⟩).name, typeFile, (files.get ⟨i, hi⟩).bytes.length,
            offsetOf files i⟩
        else none := by
  have hle := numFiles_le name files
  have hlen : i + 2 < (headerList files).length := by rw [length_headerList]; omega
  have hget : (headerList files)[i + 2] = ⟨text (files.get ⟨i, hi⟩).name, typeFile,
      (files.get ⟨i, hi⟩).bytes.length, offsetOf files i⟩ := by
    simp [headerList]
  -- The names being distinct, no other header has the name of this one.
  have hne : ∀ (j : ℕ) (hj : j < (headerList files).length), j ≠ i + 2 →
      ((headerList files)[j]).name ≠ text (files.get ⟨i, hi⟩).name := by
    intro j hj hji heq
    have hnodup := nodup_headerList h
    have hj' : j < ((headerList files).map FileHeader.name).length := by rwa [List.length_map]
    have hlen' : i + 2 < ((headerList files).map FileHeader.name).length := by rwa [List.length_map]
    have hsame : ((headerList files).map FileHeader.name)[j]
        = ((headerList files).map FileHeader.name)[i + 2] := by
      rw [List.getElem_map, List.getElem_map, hget, heq]
    exact hji (hnodup.getElem_inj_iff.mp hsame)
  rw [headersOf_image hname h.terminated h.total]
  split
  · rename_i hlt
    rw [List.find?_eq_some_iff_getElem]
    refine ⟨decide_eq_true rfl, i + 2, by rw [List.length_take]; omega, ?_, fun j hj => ?_⟩
    · rw [List.getElem_take, hget]
    · rw [List.getElem_take]
      simp only [hne j (by omega) (by omega), decide_false, Bool.not_false]
  · rename_i hge
    rw [List.find?_eq_none]
    intro hd hmem heq
    obtain ⟨j, hj, rfl⟩ := List.getElem_of_mem hmem
    rw [List.getElem_take] at heq
    rw [List.length_take] at hj
    exact hne j (by omega) (by omega) (of_decide_eq_true heq)

end Search

/-! ### Opening, reading and loading -/

section Serve

variable {name img : List UInt8} {files : List SourceFile} {f : SourceFile} {s : FsState}
  {sender : ℕ} {pm : PmAnswer} {count : ℤ} {pathname : String} {flags : ℤ}

/-- The header that `local_open` uses for a file that is not a character device. -/
def FsState.lookup (s : FsState) (pathname : String) (flags : ℤ) : Option FileHeader :=
  if flags = oRdonly then s.files.find? fun hd => hd.name = pathname else none

/-- With a free entry `local_open` fails only if there is no such file or it is not to be read. -/
theorem localOpen_ordinary (flags : ℤ) (pm : PmAnswer)
    (hchar : ¬ (pathname = "stdin" ∨ pathname = "stdout" ∨ pathname = "junkfd"))
    (htab : s.Table sender) (hfree : ∃ fd : ℕ, 2 ≤ fd ∧ fd < maxFd ∧ (s.fds sender fd).offset = 0) :
    wp (localOpen pathname flags sender pm) (fun r s' =>
      (s.lookup pathname flags = none → r.fd = -1) ∧
      ∀ hd, s.lookup pathname flags = some hd → 0 ≤ r.fd ∧ s'.Table sender ∧
        s'.fds sender r.fd = ⟨hd.type, hd.length, 0, hd.offset⟩) (fun _ _ => False) s := by
  unfold localOpen
  refine wp_ite.mpr ⟨fun h => absurd h hchar, fun _ => wp_bind.mpr (getFds_table ?_)⟩
  rw [decide_eq_true htab]
  refine wp_bind.mpr ((findFree_spec (show 2 + (maxFd - 2) ≤ maxFd by decide)).mono
    ?_ fun _ _ h => h)
  rintro fd s₁ ⟨hlook, -, -, hused, -⟩
  refine wp_ite.mpr ⟨fun hge => ?_, fun _ => ?_⟩
  · obtain ⟨k, hk2, hk, hzero⟩ := hfree
    exact absurd hzero (hused k hk2 (by omega))
  refine wp_ite.mpr ⟨fun hflags => ?_, fun hflags => ?_⟩
  · have hnone : s.lookup pathname flags = none := if_neg hflags
    exact ⟨fun _ => rfl, fun hd hsome => absurd (hnone.symm.trans hsome) (by simp)⟩
  have hlookup : s.lookup pathname flags = s₁.files.find? fun hd => hd.name = pathname := by
    rw [hlook.2.files]
    exact if_pos (not_not.mp hflags)
  rw [hlookup]
  refine wp_bind.mpr (wp_get.mpr ?_)
  cases s₁.files.find? fun hd => decide (hd.name = pathname) with
  | none => exact ⟨fun _ => rfl, fun hd hsome => absurd hsome (by simp)⟩
  | some hd =>
    refine ⟨fun hnone => absurd hnone (by simp), fun hd' hsome => ?_⟩
    obtain rfl := Option.some.inj hsome
    exact ⟨Int.natCast_nonneg fd, ⟨htab.1, (congrFun hlook.2.hasFds sender).trans htab.2⟩,
      if_pos ⟨rfl, rfl⟩⟩

/-- What `local_read_file` returns and copies for a descriptor. -/
def readBytes (img : List UInt8) (f : FileDescriptor) (count : ℤ) : ℤ × List UInt8 :=
  let count := if count % 2 ^ 32 > f.length then int32 f.length else count
  (count, field img f.offset (toSize count))

/-- What a read of a file returns. -/
theorem localReadFileBytes_iff {fd : ℤ} {P : ℤ × List UInt8 → Prop} (htab : s.Table sender) :
    wp (localReadFileBytes img fd count sender) (fun a _ => P a) (fun _ _ => False) s ↔
      P (readBytes img (s.fds sender fd) count) := by
  have hget : getFds sender s = .ok true s := by
    unfold getFds
    rw [if_neg (by have := htab.1; omega)]
    exact congrArg (fun b => EStateM.Result.ok b s) htab.2
  unfold wp localReadFileBytes
  simp only [bind, EStateM.bind, hget]
  rfl

/-- A read stores and returns what was asked for exactly if the count is not negative or the file is
empty. -/
theorem readBytes_iff {off : ℕ} (hcount : -2 ^ 31 ≤ count ∧ count < 2 ^ 31)
    (hsize : f.bytes.length ≤ maxFileSize) (hoff : field img off f.bytes.length = f.bytes) :
    readBytes img ⟨typeFile, f.bytes.length, 0, off⟩ count
        = (max 0 (min count f.bytes.length),
        f.bytes.take (max 0 (min count f.bytes.length)).toNat) ↔
      0 ≤ count ∨ f.bytes = [] := by
  have hlt : f.bytes.length < 2 ^ 31 := lt_of_le_of_lt hsize (by decide)
  have hint : int32 f.bytes.length = f.bytes.length := int32_of_lt hlt
  have hpart : ∀ n ≤ f.bytes.length, field img off n = f.bytes.take n := by
    intro n hn
    conv_rhs => rw [← hoff]
    rw [field, field, List.take_take, min_eq_left hn]
  unfold readBytes
  dsimp only
  rcases lt_or_ge count 0 with hneg | hpos
  · -- As an unsigned number a negative count exceeds every length, so the whole file is copied.
    rw [if_pos (by omega), hint, max_eq_left (by omega)]
    constructor
    · intro h
      have hzero := congrArg Prod.fst h
      exact Or.inr (List.length_eq_zero_iff.mp (Int.ofNat_inj.mp hzero))
    · rintro (h | h)
      · exact absurd hneg (not_lt.mpr h)
      · simp [h, field, toSize]
  · refine iff_of_true ?_ (Or.inl hpos)
    obtain ⟨n, rfl⟩ := Int.eq_ofNat_of_zero_le hpos
    rw [show (n : ℤ) % 2 ^ 32 = n by omega]
    split
    · rw [hint, toSize_natCast (by omega), hoff, min_eq_right (by omega), max_eq_right (by omega),
        Int.toNat_natCast, List.take_length]
    · rw [toSize_natCast (by omega), hpart n (by omega), min_eq_left (by omega),
        max_eq_right (by omega), Int.toNat_natCast]

/-- What a load returns. -/
theorem localLoad_eq {Q : ℕ → FsState → Prop} :
    wp (localLoad pathname) Q (fun _ _ => False) s ↔
      Q (match s.files.find? fun hd => hd.name = pathname with
        | none => 0
        | some hd => s.filesystem + hd.offset) s := by
  unfold localLoad
  refine wp_bind.trans (wp_get.trans ?_)
  cases s.files.find? fun hd => decide (hd.name = pathname) <;> rfl

/-- No file has the name of a device. -/
theorem Acceptable.not_char (h : Acceptable files) (hf : f ∈ files) :
    ¬ (text f.name = "stdin" ∨ text f.name = "stdout" ∨ text f.name = "junkfd") := by
  have hne := h.notChar f hf
  rintro (heq | heq | heq)
  · exact hne.1 (text_injective (heq.trans (by decide)))
  · exact hne.2.1 (text_injective (heq.trans (by decide)))
  · exact hne.2.2 (text_injective (heq.trans (by decide)))

/-- A file is served exactly if FS sees its header and the count is served. -/
theorem serves_iff (hname : name.length = 32) (h : Acceptable files)
    (hs : Ready name files s sender)
    (hcount : -2 ^ 31 ≤ count ∧ count < 2 ^ 31) {i : ℕ} (hi : i < files.length) :
    Serves (image name files) s sender pm count (files.get ⟨i, hi⟩) (offsetOf files i) ↔
      i + 2 < (numFiles (image name files)).toNat ∧
        (0 ≤ count ∨ (files.get ⟨i, hi⟩).bytes = []) := by
  have hmem : files.get ⟨i, hi⟩ ∈ files := List.get_mem _ _
  have hwritten := field_image hname h hi
  have hfind := find_file hname h hi
  have hread := readBytes_iff hcount (h.size _ hmem) hwritten
  have hopen := localOpen_ordinary oRdonly pm (h.not_char hmem) hs.table hs.free
  have hlookup : s.lookup (text (files.get ⟨i, hi⟩).name) oRdonly
      = s.files.find? fun hd => hd.name = text (files.get ⟨i, hi⟩).name := if_pos rfl
  rw [← hs.files_eq] at hfind
  by_cases hsee : i + 2 < (numFiles (image name files)).toNat
  · rw [if_pos hsee] at hfind
    rw [hlookup, hfind] at hopen
    constructor
    · intro hserves
      have hboth := hopen.and hserves.opened
      refine ⟨hsee, ?_⟩
      cases hres : localOpen (text (files.get ⟨i, hi⟩).name) oRdonly sender pm s with
      | error e s' => exact (hboth.error hres).1.elim
      | ok r s' =>
        obtain ⟨⟨-, hyes⟩, -, -, hbytes⟩ := hboth.ok hres
        obtain ⟨-, htab, hfd⟩ := hyes _ rfl
        rw [localReadFileBytes_iff htab, hfd] at hbytes
        exact hread.mp hbytes
    · rintro ⟨-, hcnt⟩
      refine ⟨hwritten, hopen.mono ?_ fun _ _ h => h, ?_⟩
      · rintro r s' ⟨-, hyes⟩
        obtain ⟨hpos, htab, hfd⟩ := hyes _ rfl
        exact ⟨hpos, hfd, (localReadFileBytes_iff htab).mpr (hfd ▸ hread.mpr hcnt)⟩
      · rw [localLoad_eq, hfind]
  · rw [if_neg hsee] at hfind
    rw [hlookup, hfind] at hopen
    refine iff_of_false (fun hserves => ?_) fun hc => hsee hc.1
    cases hres : localOpen (text (files.get ⟨i, hi⟩).name) oRdonly sender pm s with
    | error e s' => exact hopen.error hres
    | ok r s' =>
      have hfail := (hopen.ok hres).1 rfl
      have hpos := (hserves.opened.ok hres).1
      omega

/-- A name that is neither in the list nor that of a character device is unknown. -/
theorem unknown_of_missing (hname : name.length = 32) (h : Acceptable files)
    (hs : Ready name files s sender) (hmiss : pathname ∉ files.map fun f => text f.name)
    (hin : pathname ≠ "stdin") (hout : pathname ≠ "stdout") (hjunk : pathname ≠ "junkfd") :
    Unknown s sender pm pathname := by
  have hfind := find_missing hname h hmiss hin hout
  rw [← hs.files_eq] at hfind
  have hchar : ¬ (pathname = "stdin" ∨ pathname = "stdout" ∨ pathname = "junkfd") := by tauto
  refine ⟨fun flags => (localOpen_ordinary flags pm hchar hs.table hs.free).mono
    (fun r s' hr => hr.1 ?_) fun _ _ h => h, ?_⟩
  · unfold FsState.lookup
    rw [hfind, ite_self]
  · rw [localLoad_eq, hfind]

/-- The writer refuses none of these lists. -/
theorem createInitrd_eq (h : Acceptable files) :
    createInitrd name files = some (image name files) := by
  refine if_neg ?_
  rintro (hnil | ⟨f, hf, hlarge⟩)
  · exact h.nonempty hnil
  · exact absurd (h.size f hf) (not_le.mpr hlarge)

/-- The last file of a list of more than 125 is not found. -/
theorem not_roundTrip_of_many (hname : name.length = 32) (h : Acceptable files)
    (hs : Ready name files s sender) (hcount : -2 ^ 31 ≤ count ∧ count < 2 ^ 31)
    (hmany : 125 < files.length) : ¬ RoundTrip name files s sender pm count := by
  intro hrt
  have hserves := hrt.2.1 (files.length - 1) (by omega)
  have hsee := ((serves_iff hname h hs hcount (by omega)).mp hserves).1
  have hnum := (numFiles_image name files).2 (by omega)
  omega

/-- A negative count is served with the whole file. -/
theorem not_roundTrip_of_negative (hname : name.length = 32) (h : Acceptable files)
    (hs : Ready name files s sender) (hcount : -2 ^ 31 ≤ count ∧ count < 0)
    (hfull : ∃ f ∈ files, f.bytes ≠ []) : ¬ RoundTrip name files s sender pm count := by
  intro hrt
  obtain ⟨f, hf, hne⟩ := hfull
  obtain ⟨i, hi, rfl⟩ := List.getElem_of_mem hf
  have hcnt := ((serves_iff hname h hs ⟨hcount.1, by omega⟩ hi).mp (hrt.2.1 i hi)).2
  exact hcnt.elim (fun hpos => by omega) hne

/-- Files make the round trip exactly if their number, with the two character devices, fits in a
signed byte, and the count is not negative or there is nothing to read. -/
theorem roundTrip_iff (hname : name.length = 32) (h : Acceptable files)
    (hs : Ready name files s sender) (hcount : -2 ^ 31 ≤ count ∧ count < 2 ^ 31) :
    RoundTrip name files s sender pm count ↔
      files.length ≤ 125 ∧ (0 ≤ count ∨ ∀ f ∈ files, f.bytes = []) := by
  constructor
  · intro hrt
    refine ⟨not_lt.mp fun hmany => not_roundTrip_of_many hname h hs hcount hmany hrt, ?_⟩
    by_contra hneg
    push Not at hneg
    exact not_roundTrip_of_negative hname h hs ⟨hcount.1, hneg.1⟩ hneg.2 hrt
  · rintro ⟨hfew, hcnt⟩
    refine ⟨createInitrd_eq h, fun i hi => (serves_iff hname h hs hcount hi).mpr ⟨?_, ?_⟩,
      fun p hmiss hin hout hjunk => unknown_of_missing hname h hs hmiss hin hout hjunk⟩
    · rw [(numFiles_image name files).1 (by omega)]
      omega
    · exact hcnt.imp_right fun hall => hall _ (List.get_mem _ _)

/-- FS with an image and one client, whose table is empty. -/
def holding (img : List UInt8) : FsState where
  hasFds c := c = 6
  fds _ _ := default
  files := headersOf img
  filesystem := 0x1000000
  accesses := []
  channels := []
  sent := []

/-- FS with the image is ready. -/
theorem ready_holding : Ready name files (holding (image name files)) 6 where
  files_eq := by simp only [holding]
  table := ⟨by decide, by simp only [holding, decide_true]⟩
  free := ⟨2, le_rfl, by decide, rfl⟩

/-- A list of one file of three bytes. -/
def oneFile : List SourceFile := [⟨bytesOf "init", [1, 2, 3]⟩]

theorem acceptable_oneFile : Acceptable oneFile :=
  ⟨by decide, by decide, by decide, by decide, by decide, by decide⟩

theorem roundTrip_oneFile :
    RoundTrip (List.replicate 32 0) oneFile (holding (image (List.replicate 32 0) oneFile))
    6 ⟨0, 0⟩ 2 :=
  (roundTrip_iff List.length_replicate acceptable_oneFile ready_holding (by decide)).mpr (by decide)

/-- Files with names of one byte, from `a` on, without contents. -/
def manyFiles (n : ℕ) : List SourceFile := (List.range n).map fun i => ⟨[UInt8.ofNat (i + 97)], []⟩

theorem nodup_manyFiles : ((manyFiles 126).map SourceFile.name).Nodup := by
  rw [manyFiles, List.map_map]
  refine List.nodup_range.map_on fun i hi j hj heq => ?_
  have hi := List.mem_range.mp hi
  have hj := List.mem_range.mp hj
  have hbyte := congrArg UInt8.toNat (List.singleton_inj.mp heq)
  rw [UInt8.toNat_ofNat', UInt8.toNat_ofNat'] at hbyte
  omega

theorem acceptable_manyFiles : Acceptable (manyFiles 126) :=
  ⟨by decide, nodup_manyFiles, by decide +kernel, by decide +kernel, by decide +kernel,
    by decide +kernel⟩

/-- Of 126 files the last one cannot be opened, and a read of `-1` bytes copies the whole file. -/
theorem not_roundTrip_126 :
    (Acceptable (manyFiles 126) ∧
      ¬ RoundTrip (List.replicate 32 0) (manyFiles 126)
        (holding (image (List.replicate 32 0) (manyFiles 126))) 6 ⟨0, 0⟩ 0) ∧
    Acceptable oneFile ∧
      ¬ RoundTrip (List.replicate 32 0) oneFile
        (holding (image (List.replicate 32 0) oneFile)) 6 ⟨0, 0⟩ (-1) :=
  ⟨⟨acceptable_manyFiles, not_roundTrip_of_many List.length_replicate acceptable_manyFiles
      ready_holding (by decide) (by simp [manyFiles])⟩,
    acceptable_oneFile, not_roundTrip_of_negative List.length_replicate acceptable_oneFile
      ready_holding (by decide) ⟨_, List.mem_singleton_self _, by decide⟩⟩

end Serve

end Fs

end Savannah
