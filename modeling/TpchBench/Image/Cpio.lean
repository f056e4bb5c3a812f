import TpchBench.Text.Hex
import TpchBench.Text.Stream

/-! # Files for the image of OSv

The script that builds the image sends the files to a small guest as a `cpio` archive, and
`cpiod` in the guest unpacks it. The sizes in the headers are numbers of eight digits, and the
size of a link is the number of its characters, not of its bytes.
-/

namespace TpchBench.Image

def encode (s : List Char) : Bytes := s.flatMap String.utf8EncodeChar

/-- Send data and fill up to a multiple of four bytes. -/
def cpioSend (data : Bytes) : Bytes :=
  if data.length % 4 > 0 then data ++ List.replicate (4 - data.length % 4) 0 else data

def cpioField (number length : ℕ) : Bytes := hexFormat (max length 1) number

def cpioMagic : Bytes := [48, 55, 48, 55, 48, 49]

def cpioHeader (filename : List Char) (mode filesize : ℕ) : Bytes :=
  cpioMagic
    ++ cpioField 0 8          -- inode
    ++ cpioField mode 8
    ++ cpioField 0 8          -- uid
    ++ cpioField 0 8          -- gid
    ++ cpioField 0 8          -- nlink
    ++ cpioField 0 8          -- mtime
    ++ cpioField filesize 8
    ++ cpioField 0 8          -- devmajor
    ++ cpioField 0 8          -- devminor
    ++ cpioField 0 8          -- rdevmajor
    ++ cpioField 0 8          -- rdevminor
    ++ cpioField ((encode filename).length + 1) 8
    ++ cpioField 0 8          -- check
    ++ encode filename ++ [0]

def sIFLNK : ℕ := 0o120000
def sIFDIR : ℕ := 0o040000
def sIFREG : ℕ := 0o100000

/-- A file of the host, with its `st_mode`. The size of a regular file and its content are read
one after the other, and the file may be one that cannot be read. -/
inductive HostFile where
  | symlink (mode : ℕ) (target : List Char)
  | directory (mode : ℕ)
  | regular (mode size : ℕ) (content : Option Bytes)

def trailer : List Char := "TRAILER!!!".toList

def sendLink (name : List Char) (mode : ℕ) (link : List Char) : Bytes :=
  cpioSend (cpioHeader name mode link.length) ++ cpioSend (encode link)

/-- What is sent for a file of the host, and whether nothing went wrong. -/
def sendFile (name : List Char) : HostFile → Bytes × Bool
  | .symlink mode link => (sendLink name ((mode &&& 0o777) ||| sIFLNK) link, true)
  | .directory mode => (cpioSend (cpioHeader name ((mode &&& 0o777) ||| sIFDIR) 0), true)
  | .regular mode size content =>
    let header := cpioSend (cpioHeader name ((mode &&& 0o777) ||| sIFREG) size)
    match content with
    | none => (header, false)
    | some content => (header ++ cpioSend content, true)

section Upload

variable (host : List Char → Option HostFile) (stripFile : List Char → List Char)

def sendEntry (name hostname : List Char) : Bytes × Bool :=
  if "->".toList <+: hostname then (sendLink name sIFLNK (hostname.drop 2), true)
  else if "-stripped.so".toList <:+ hostname then ([], true)
  else
    match host (stripFile hostname) with
    | none => ([], false)
    | some file => sendFile name file

/-- The loop of `upload`, which is left when something goes wrong. -/
def sendFiles : List (List Char × List Char) → Bytes × Bool
  | [] => ([], true)
  | (name, hostname) :: files =>
    match sendEntry host stripFile name hostname with
    | (sent, false) => (sent, false)
    | (sent, true) => (sent ++ (sendFiles files).1, (sendFiles files).2)

/-- `upload`: the bytes that are sent, and whether the script succeeds. The archive is ended in any
case. -/
def upload (files : List (List Char × List Char)) : Bytes × Bool :=
  ((sendFiles host stripFile files).1 ++ cpioSend (cpioHeader trailer 0 0),
    (sendFiles host stripFile files).2)

end Upload

/-- How unpacking may end early: with an exception, or with what the language leaves undefined. -/
inductive Fault where
  | runtimeError (what : Bytes)
  | undefined
  deriving DecidableEq, Repr

/-- The calls of a `cpio_in`, and the message about a file of another type. -/
inductive Event where
  | addFile (name content : Bytes) (mode : ℕ)
  | addDir (name : Bytes) (mode : ℕ)
  | addSymlink (oldpath newpath : Bytes) (mode : ℕ)
  | unknownType (name : Bytes) (type : ℕ)
  deriving DecidableEq, Repr

def Event.name : Event → Bytes
  | addFile name _ _ => name
  | addDir name _ => name
  | addSymlink _ newpath _ => newpath
  | unknownType name _ => name

structure CpioNewcHeader where
  cMagic : Bytes
  cMode : Bytes
  cFilesize : Bytes
  cNamesize : Bytes

/-- The header at the beginning of a stream; if there are too few bytes, some of it is not
initialized. -/
def readHeader (is : Bytes) : Except Fault (CpioNewcHeader × Bytes) :=
  if is.length < 110 then .error .undefined
  else .ok (⟨is.take 6, (is.drop 14).take 8, (is.drop 54).take 8, (is.drop 94).take 8⟩,
    is.drop 110)

def isspace (b : UInt8) : Bool := b ∈ [32, 9, 10, 11, 12, 13]

def skip0x (s : Bytes) : Bytes :=
  match s with
  | 48 :: x :: d :: s' => if (x = 120 ∨ x = 88) ∧ (hexVal d).isSome then d :: s' else s
  | _ => s

/-- `convert`: all of the field has to be a number for `strtoul`, which skips space and takes a
sign and `0x`. -/
def convert (field : Bytes) : Except Fault ℕ :=
  let s := field.dropWhile isspace
  let signed := s.head? = some 45 ∨ s.head? = some 43
  let digits := skip0x (if signed then s.tail else s)
  if digits ≠ [] ∧ digits.all (fun b => (hexVal b).isSome) then
    let number := if s.head? = some 45 then 2 ^ 64 - hexNumber digits else hexNumber digits
    .ok (number % 2 ^ 32)
  else .error (.runtimeError (encode "bad cpio format".toList))

/-- `align_up` for words of `w` bits, where the alignment is a power of two. -/
def alignUp (w n alignment : ℕ) : ℕ :=
  let m := (n + alignment - 1) % 2 ^ w
  m - m % alignment

/-- The `switch` of `parse_one` on the type of a file, and the bytes after the file. Adding a file
reads all of it. -/
def addEntry (mode filesize : ℕ) (name is : Bytes) : Except Fault (Event × Bytes) :=
  let rest := is.drop (filesize + (alignUp 32 filesize 4 + 2 ^ 32 - filesize) % 2 ^ 32)
  let type := mode &&& 0o170000
  let perm := mode &&& 0o777
  if type = sIFREG then .ok (.addFile name (is.take filesize) perm, rest)
  else if type = sIFDIR then
    if filesize > 0 then .error (.runtimeError (encode "bad directory size".toList))
    else .ok (.addDir name perm, rest)
  else if type = sIFLNK then
    if is.length < filesize then .error .undefined
    else .ok (.addSymlink (is.take filesize) name perm, rest)
  else .ok (.unknownType name type, rest)

/-- `cpio_in::parse_one`; there is no event when the trailer has been read. -/
def parseOne (is : Bytes) : Except Fault (Option (Event × Bytes)) := do
  let (header, is) ← readHeader is
  if header.cMagic ≠ cpioMagic then
    .error (.runtimeError
      (encode "bad cpio magic: '".toList ++ header.cMagic ++ encode "'".toList))
  else
    let namesize ← convert header.cNamesize
    let aligned := alignUp 64 (110 + namesize) 4 - 110
    -- Without a terminator the length of the name wraps around.
    if namesize = 0 ∨ is.length < namesize - 1 then .error .undefined
    else
      let name := is.take (namesize - 1)
      if name = encode trailer then .ok none
      else
        let mode ← convert header.cMode
        let filesize ← convert header.cFilesize
        let entry ← addEntry mode filesize name (is.drop aligned)
        .ok (some entry)

/-- The loop of `cpio_in::parse` for at most the given number of files. -/
def parseLoop : ℕ → Bytes → List Event × Except Fault Unit
  | 0, _ => ([], .error .undefined)
  | fuel + 1, is =>
    match parseOne is with
    | .error fault => ([], .error fault)
    | .ok none => ([], .ok ())
    | .ok (some (event, is)) => (event :: (parseLoop fuel is).1, (parseLoop fuel is).2)

/-- `cpio_in::parse`; every file takes more than one byte. -/
def parse (is : Bytes) : List Event × Except Fault Unit := parseLoop (is.length + 1) is

theorem not_of_hexVal {b : UInt8} (h : (hexVal b).isSome) :
    isspace b = false ∧ b ≠ 45 ∧ b ≠ 43 ∧ b ≠ 120 ∧ b ≠ 88 := by
  have hall : ∀ n < 256, (hexVal (.ofNat n)).isSome → isspace (.ofNat n) = false ∧
      UInt8.ofNat n ≠ 45 ∧ UInt8.ofNat n ≠ 43 ∧ UInt8.ofNat n ≠ 120 ∧ UInt8.ofNat n ≠ 88 := by
    decide +kernel
  have hb := hall b.toNat b.toNat_lt
  rw [UInt8.ofNat_toNat] at hb
  exact hb h

theorem skip0x_of_digits {s : Bytes} (hs : ∀ b ∈ s, (hexVal b).isSome) : skip0x s = s := by
  unfold skip0x
  split
  · rename_i x d s'
    obtain ⟨-, -, -, hx, hX⟩ := not_of_hexVal (hs x (by simp))
    rw [if_neg fun h => h.1.elim hx hX]
  · rfl

theorem convert_of_digits {s : Bytes} (hne : s ≠ []) (hs : ∀ b ∈ s, (hexVal b).isSome) :
    convert s = .ok (hexNumber s % 2 ^ 32) := by
  obtain ⟨b, s, rfl⟩ := List.exists_cons_of_ne_nil hne
  obtain ⟨hspace, hminus, hplus, -⟩ := not_of_hexVal (hs b List.mem_cons_self)
  have hdrop : (b :: s).dropWhile isspace = b :: s :=
    List.dropWhile_cons_of_neg (by simp [hspace])
  have hsign : ¬ ((b :: s).head? = some 45 ∨ (b :: s).head? = some 43) := by
    simp [hminus, hplus]
  unfold convert
  rw [hdrop]
  simp only [if_neg hsign, skip0x_of_digits hs, if_neg (not_or.mp hsign).1]
  rw [if_pos ⟨hne, List.all_eq_true.mpr hs⟩]

theorem convert_lt {field : Bytes} {n : ℕ} (h : convert field = .ok n) : n < 2 ^ 32 := by
  unfold convert at h
  dsimp only at h
  generalize skip0x _ = digits at h
  split_ifs at h
  all_goals
    obtain rfl := Except.ok.inj h
    exact Nat.mod_lt _ (by decide)

theorem convert_cpioField {n : ℕ} (h : n < 2 ^ 32) : convert (cpioField n 8) = .ok n := by
  have hlen : (cpioField n 8).length = 8 := length_hexFormat_of_lt h
  have hdigits : ∀ b ∈ cpioField n 8, (hexVal b).isSome := fun b => hexVal_of_mem_hexFormat
  rw [convert_of_digits (List.ne_nil_of_length_pos (by omega)) hdigits, cpioField,
    hexNumber_hexFormat, Nat.mod_eq_of_lt h]

theorem length_cpioField {n : ℕ} (h : n < 2 ^ 32) : (cpioField n 8).length = 8 :=
  length_hexFormat_of_lt h

theorem convert_shifted {n e : ℕ} (hn : n < 2 ^ 32) (he : e ≤ 8) :
    convert (List.replicate e 48 ++ (cpioField n 8).take (8 - e)) = .ok (n / 16 ^ e) := by
  have hlen := length_cpioField hn
  have hdigits : ∀ b ∈ List.replicate e 48 ++ (cpioField n 8).take (8 - e),
      (hexVal b).isSome := by
    intro b hb
    rcases List.mem_append.mp hb with hb | hb
    · rw [List.eq_of_mem_replicate hb]
      decide
    · exact hexVal_of_mem_hexFormat (List.mem_of_mem_take hb)
  have hne : List.replicate e 48 ++ (cpioField n 8).take (8 - e) ≠ [] := by
    apply List.ne_nil_of_length_pos
    rw [List.length_append, List.length_replicate, List.length_take, hlen]
    omega
  have hnumber := hexNumber_take_hexFormat (max 8 1) n e
  rw [← cpioField, hlen] at hnumber
  rw [convert_of_digits hne hdigits, hexNumber_replicate_append, hnumber,
    Nat.mod_eq_of_lt ((Nat.div_le_self _ _).trans_lt hn)]

theorem cpioField_zero : cpioField 0 8 = List.replicate 8 48 := by decide

section Header

variable {name : List Char} {mode size : ℕ}

def headerTail (name : List Char) (size : ℕ) : Bytes :=
  cpioField size 8 ++ (List.replicate 32 48 ++ (cpioField ((encode name).length + 1) 8 ++
    (List.replicate 8 48 ++ (encode name ++ [0]))))

theorem cpioHeader_eq (name : List Char) (mode size : ℕ) :
    cpioHeader name mode size = (cpioMagic ++ List.replicate 8 48) ++ (cpioField mode 8 ++
      (List.replicate 32 48 ++ headerTail name size)) := by
  have hfour (s : Bytes) : cpioField 0 8 ++ (cpioField 0 8 ++ (cpioField 0 8 ++
      (cpioField 0 8 ++ s))) = List.replicate 32 48 ++ s := by
    rw [cpioField_zero, ← List.append_assoc, ← List.append_assoc, ← List.append_assoc]
    rfl
  simp only [cpioHeader, headerTail, List.append_assoc, hfour]
  rw [cpioField_zero]

theorem length_headerTail_ge (name : List Char) (size : ℕ) :
    56 + (encode name).length < (headerTail name size).length := by
  have hfield (n : ℕ) : 8 ≤ (cpioField n 8).length := by
    rw [cpioField, length_hexFormat]
    exact le_max_left _ _
  have hsize := hfield size
  have hname := hfield ((encode name).length + 1)
  simp only [headerTail, List.length_append, List.length_replicate, List.length_singleton]
  omega

theorem readHeader_cpioHeader (hmode : mode < 2 ^ 32) (rest : Bytes) :
    readHeader (cpioHeader name mode size ++ rest) =
      .ok (⟨cpioMagic, cpioField mode 8, (headerTail name size ++ rest).take 8,
        ((headerTail name size ++ rest).drop 40).take 8⟩,
        (headerTail name size ++ rest).drop 56) := by
  have hlength := length_headerTail_ge name size
  have hmode' := length_cpioField hmode
  have hmagic' : cpioMagic.length = 6 := rfl
  obtain ⟨tail, htail⟩ : ∃ tail, tail = headerTail name size ++ rest := ⟨_, rfl⟩
  have heq : cpioHeader name mode size ++ rest = cpioMagic ++ (List.replicate 8 48 ++
      (cpioField mode 8 ++ (List.replicate 32 48 ++ tail))) := by
    simp only [cpioHeader_eq, htail, List.append_assoc]
  have hlen : ¬ (cpioHeader name mode size ++ rest).length < 110 := by
    rw [heq, htail]
    simp only [List.length_append, List.length_replicate, hmode', hmagic']
    omega
  have hdrop (n : ℕ) : (cpioHeader name mode size ++ rest).drop (54 + n) = tail.drop n := by
    have hpre : (cpioMagic ++ (List.replicate 8 48 ++ (cpioField mode 8 ++
        List.replicate 32 48))).length = 54 := by
      simp [hmode', hmagic']
    have heq' : cpioHeader name mode size ++ rest = (cpioMagic ++ (List.replicate 8 48 ++
        (cpioField mode 8 ++ List.replicate 32 48))) ++ tail := by
      simp only [heq, List.append_assoc]
    rw [← List.drop_drop, heq', List.drop_left' hpre]
  have hmagic : (cpioHeader name mode size ++ rest).take 6 = cpioMagic := by
    rw [heq, List.take_left' hmagic']
  have hmodeField : ((cpioHeader name mode size ++ rest).drop 14).take 8 = cpioField mode 8 := by
    rw [heq, ← List.append_assoc, List.drop_left' (by simp [hmagic']), List.take_left' hmode']
  rw [readHeader, if_neg hlen, hmagic, hmodeField, hdrop 0, hdrop 40, hdrop 56, ← htail,
    List.drop_zero]

theorem headerTail_fields (hsize : size < 2 ^ 32) (hname : (encode name).length + 1 < 2 ^ 32)
    (rest : Bytes) :
    (headerTail name size ++ rest).take 8 = cpioField size 8 ∧
      ((headerTail name size ++ rest).drop 40).take 8 =
        cpioField ((encode name).length + 1) 8 ∧
      (headerTail name size ++ rest).drop 56 = encode name ++ 0 :: rest := by
  have hsize' := length_cpioField hsize
  have hname' := length_cpioField hname
  simp only [headerTail, List.append_assoc]
  refine ⟨List.take_left' hsize', ?_, ?_⟩
  · rw [← List.append_assoc, List.drop_left' (by simp [hsize']), List.take_left' hname']
  · rw [← List.append_assoc, ← List.append_assoc, ← List.append_assoc,
      List.drop_left' (by simp [hsize', hname'])]
    rfl

/-- Every further digit of the size moves the length of the name by one place. -/
theorem headerTail_namesize {e : ℕ} (he : e ≤ 8) (hsize : (cpioField size 8).length = 8 + e)
    (hname : (encode name).length + 1 < 2 ^ 32) (rest : Bytes) :
    ((headerTail name size ++ rest).drop 40).take 8 =
      List.replicate e 48 ++ (cpioField ((encode name).length + 1) 8).take (8 - e) := by
  have hname' := length_cpioField hname
  have hzeros : List.replicate 32 (48 : UInt8) =
      List.replicate (32 - e) 48 ++ List.replicate e 48 := by
    rw [List.replicate_append_replicate]
    congr 1
    omega
  simp only [headerTail, List.append_assoc]
  rw [hzeros, List.append_assoc, ← List.append_assoc,
    List.drop_left' (by simp only [List.length_append, hsize, List.length_replicate]; omega),
    List.take_append, List.take_replicate, List.length_replicate, Nat.min_eq_right he,
    List.take_append_of_le_length (by omega)]

end Header

inductive Node where
  | file (size : ℕ) (content : Bytes)
  | dir
  | link (target : List Char)

namespace Node

def type : Node → ℕ
  | file _ _ => sIFREG
  | dir => sIFDIR
  | link _ => sIFLNK

def size : Node → ℕ
  | file size _ => size
  | dir => 0
  | link target => target.length

def data : Node → Bytes
  | file _ content => content
  | dir => []
  | link target => encode target

end Node

structure Item where
  name : List Char
  perm : ℕ
  perm_lt : perm < 0o1000
  node : Node

namespace Item

def sent (item : Item) : Bytes :=
  cpioSend (cpioHeader item.name (item.perm ||| item.node.type) item.node.size) ++
    cpioSend item.node.data

def event (item : Item) : Event :=
  match item.node with
  | .file _ content => .addFile (encode item.name) content item.perm
  | .dir => .addDir (encode item.name) item.perm
  | .link target => .addSymlink (encode target) (encode item.name) item.perm

/-- A file that can be sent: its sizes have eight digits, they count all of its bytes, and its name
does not end the archive. -/
structure Fits (item : Item) : Prop where
  name_ne : encode item.name ≠ encode trailer
  name_lt : (encode item.name).length + 1 < 2 ^ 32
  size_lt : item.node.size < 2 ^ 32
  size_eq : item.node.data.length = item.node.size

instance (item : Item) : Decidable item.Fits :=
  decidable_of_iff (encode item.name ≠ encode trailer ∧ (encode item.name).length + 1 < 2 ^ 32 ∧
      item.node.size < 2 ^ 32 ∧ item.node.data.length = item.node.size)
    ⟨fun ⟨h₁, h₂, h₃, h₄⟩ => ⟨h₁, h₂, h₃, h₄⟩,
    fun h => ⟨h.name_ne, h.name_lt, h.size_lt, h.size_eq⟩⟩

end Item

theorem Node.type_mem (node : Node) : node.type ∈ [sIFREG, sIFDIR, sIFLNK] := by
  cases node <;> simp [Node.type]

theorem mode_masks (node : Node) {perm : ℕ} (hperm : perm < 0o1000) :
    (perm ||| node.type) &&& 0o170000 = node.type ∧ (perm ||| node.type) &&& 0o777 = perm := by
  have hall : ∀ type ∈ [sIFREG, sIFDIR, sIFLNK], ∀ perm < 0o1000,
      (perm ||| type) &&& 0o170000 = type ∧ (perm ||| type) &&& 0o777 = perm := by
    decide +kernel
  exact hall _ node.type_mem perm hperm

def padding (n : ℕ) : ℕ := (4 - n % 4) % 4

theorem cpioSend_eq (data : Bytes) :
    cpioSend data = data ++ List.replicate (padding data.length) 0 := by
  unfold cpioSend padding
  split
  · congr 2
    omega
  · have hzero : (4 - data.length % 4) % 4 = 0 := by omega
    rw [hzero, List.replicate_zero, List.append_nil]

theorem alignUp_name {n : ℕ} (h : n < 2 ^ 32) :
    alignUp 64 (110 + n) 4 - 110 = n + padding (110 + n) := by
  unfold alignUp padding
  dsimp only
  omega

/-- The difference is right even where the size is rounded up beyond the range of its type. -/
theorem alignUp_file {n : ℕ} (h : n < 2 ^ 32) :
    (alignUp 32 n 4 + 2 ^ 32 - n) % 2 ^ 32 = padding n := by
  unfold alignUp padding
  dsimp only
  omega

theorem length_cpioHeader {name : List Char} {mode size : ℕ} (hmode : mode < 2 ^ 32)
    (hsize : size < 2 ^ 32) (hname : (encode name).length + 1 < 2 ^ 32) :
    (cpioHeader name mode size).length = 110 + ((encode name).length + 1) := by
  have hmagic : cpioMagic.length = 6 := rfl
  rw [cpioHeader_eq, headerTail]
  simp only [List.length_append, List.length_replicate, List.length_singleton, hmagic,
    length_cpioField hmode, length_cpioField hsize, length_cpioField hname]
  omega

theorem parseOne_header {name : List Char} {mode size : ℕ} (hmode : mode < 2 ^ 32)
    (hsize : size < 2 ^ 32) (hname : (encode name).length + 1 < 2 ^ 32) (is : Bytes) :
    parseOne (cpioSend (cpioHeader name mode size) ++ is) =
      if encode name = encode trailer then .ok none
      else (addEntry mode size (encode name) is).map some := by
  have hlen := length_cpioHeader hmode hsize hname
  obtain ⟨hfilesize, hnamesize, htail⟩ := headerTail_fields hsize hname
    (List.replicate (padding (cpioHeader name mode size).length) 0 ++ is)
  rw [cpioSend_eq, List.append_assoc, parseOne, readHeader_cpioHeader hmode, hfilesize, hnamesize,
    htail, hlen]
  have hname' : List.take ((encode name).length + 1 - 1) (encode name ++ 0 :: (List.replicate
      (padding (110 + ((encode name).length + 1))) 0 ++ is)) = encode name :=
    List.take_left' rfl
  have hdrop : List.drop ((encode name).length + 1 + padding (110 + ((encode name).length + 1)))
      (encode name ++ 0 :: (List.replicate (padding (110 + ((encode name).length + 1))) 0 ++ is)) =
        is := by
    rw [List.append_cons, ← List.append_assoc, List.drop_left']
    simp only [List.length_append, List.length_singleton, List.length_replicate]
  simp only [bind, Except.bind, ne_eq, not_true_eq_false, if_false, convert_cpioField hname,
    alignUp_name hname, hdrop, hname', convert_cpioField hmode, convert_cpioField hsize]
  rw [if_neg (by simp)]
  rfl

theorem exists_of_bind_ok {α β : Type} {x : Except Fault α} {f : α → Except Fault β} {b : β}
    (h : x >>= f = .ok b) : ∃ a, x = .ok a ∧ f a = .ok b := by
  rcases x with fault | a
  · cases h
  · exact ⟨a, rfl, h⟩

theorem addEntry_name {mode filesize : ℕ} {name is r : Bytes} {event : Event}
    (h : addEntry mode filesize name is = .ok (event, r)) :
    event.name = name ∧ r.length ≤ is.length := by
  unfold addEntry at h
  dsimp only at h
  split_ifs at h
  all_goals
    obtain ⟨rfl, rfl⟩ := Prod.mk.inj (Except.ok.inj h)
    exact ⟨rfl, (List.drop_sublist _ _).length_le⟩

theorem addEntry_data {mode filesize : ℕ} {name is r : Bytes} {event : Event}
    (h : addEntry mode filesize name is = .ok (event, r)) :
    (∀ name content perm, event = .addFile name content perm → content = is.take filesize) ∧
      ∀ oldpath newpath perm, event = .addSymlink oldpath newpath perm →
        oldpath.length = filesize := by
  unfold addEntry at h
  dsimp only at h
  split_ifs at h with hreg hdir hsize hlnk hshort
  all_goals
    obtain ⟨rfl, -⟩ := Prod.mk.inj (Except.ok.inj h)
    refine ⟨fun _ _ _ heq => ?_, fun _ _ _ heq => ?_⟩
    all_goals cases heq
  · rfl
  · rw [List.length_take]
    omega

theorem parseOne_name {header : CpioNewcHeader} {is tail r : Bytes} {event : Event}
    (hheader : readHeader is = .ok (header, tail)) (h : parseOne is = .ok (some (event, r))) :
    convert header.cNamesize = .ok (event.name.length + 1) ∧ event.name ≠ encode trailer ∧
      r.length ≤ tail.length := by
  obtain ⟨⟨header', tail'⟩, hread, h⟩ := exists_of_bind_ok h
  obtain ⟨rfl, rfl⟩ := Prod.mk.inj (Except.ok.inj (hread.symm.trans hheader))
  dsimp only at h
  split_ifs at h with hmagic
  obtain ⟨namesize, hnamesize, h⟩ := exists_of_bind_ok h
  split_ifs at h with hshort htrailer
  · cases h
  obtain ⟨mode, -, h⟩ := exists_of_bind_ok h
  obtain ⟨filesize, -, h⟩ := exists_of_bind_ok h
  obtain ⟨entry, hentry, h⟩ := exists_of_bind_ok h
  obtain rfl := Option.some.inj (Except.ok.inj h)
  obtain ⟨hname, hrest⟩ := addEntry_name hentry
  have hlength : namesize = event.name.length + 1 := by
    rw [hname, List.length_take]
    omega
  exact ⟨hlength ▸ hnamesize, hname ▸ htrailer, hrest.trans (List.drop_sublist _ _).length_le⟩

theorem parseOne_trailer : parseOne (cpioSend (cpioHeader trailer 0 0)) = .ok none := by
  have h := @parseOne_header trailer 0 0 (by decide) (by decide) (by decide +kernel) []
  rwa [List.append_nil, if_pos rfl] at h

namespace Item

variable {item : Item}

theorem mode_lt (item : Item) : item.perm ||| item.node.type < 2 ^ 32 := by
  have htype : item.node.type < 2 ^ 16 := by
    have hall : ∀ type ∈ [sIFREG, sIFDIR, sIFLNK], type < 2 ^ 16 := by decide
    exact hall _ item.node.type_mem
  exact (Nat.or_lt_two_pow (item.perm_lt.trans (by decide)) htype).trans (by decide)

theorem Fits.parseOne_eq (h : item.Fits) (rest : Bytes) :
    parseOne (item.sent ++ rest) = .ok (some (item.event, rest)) := by
  obtain ⟨htype, hperm⟩ := mode_masks item.node item.perm_lt
  have htake : (cpioSend item.node.data ++ rest).take item.node.size = item.node.data := by
    rw [cpioSend_eq, List.append_assoc, List.take_left' h.size_eq]
  have hdrop : (cpioSend item.node.data ++ rest).drop
      (item.node.size + padding item.node.size) = rest := by
    rw [cpioSend_eq, h.size_eq, List.drop_left']
    rw [List.length_append, List.length_replicate, h.size_eq]
  have hlen : ¬ (cpioSend item.node.data ++ rest).length < item.node.size := by
    rw [cpioSend_eq]
    simp only [List.length_append, h.size_eq]
    omega
  rw [sent, List.append_assoc, parseOne_header item.mode_lt h.size_lt h.name_lt,
    if_neg h.name_ne, addEntry, htype, hperm, alignUp_file h.size_lt, hdrop, htake, event]
  rw [if_neg hlen]
  cases item.node <;> rfl

/-- The digits that a size has too many shift the length of the name. -/
theorem size_lt_of_parseOne (hsize : item.node.size < 2 ^ 64)
    (hname : (encode item.name).length + 1 < 2 ^ 32) (tail : Bytes)
    (h : convert (((headerTail item.name item.node.size ++ tail).drop 40).take 8) =
      .ok ((encode item.name).length + 1)) : item.node.size < 2 ^ 32 := by
  by_contra hge
  have hlen : (cpioField item.node.size 8).length = max 8 (Nat.digits 16 item.node.size).length :=
    length_hexFormat 8 _
  have hdigits (k : ℕ) : (Nat.digits 16 item.node.size).length ≤ k ↔ item.node.size < 16 ^ k :=
    Nat.digits_length_le_iff (by decide) _
  have hlt : ¬ (Nat.digits 16 item.node.size).length ≤ 8 := fun h => hge ((hdigits 8).mp h)
  have hle : (Nat.digits 16 item.node.size).length ≤ 16 := (hdigits 16).mpr hsize
  obtain ⟨e, he⟩ : ∃ e, (cpioField item.node.size 8).length = 8 + (e + 1) :=
    ⟨(Nat.digits 16 item.node.size).length - 9, by omega⟩
  have he8 : e + 1 ≤ 8 := by omega
  rw [headerTail_namesize he8 he hname, convert_shifted hname he8] at h
  have hshift : ((encode item.name).length + 1) / 16 ^ (e + 1) < (encode item.name).length + 1 :=
    Nat.div_lt_self (Nat.succ_pos _) (Nat.one_lt_pow (Nat.succ_ne_zero e) (by decide))
  exact hshift.ne (Except.ok.inj h)

theorem event_name (item : Item) : item.event.name = encode item.name := by
  unfold event
  cases item.node <;> rfl

/-- Only a file that fits is unpacked as it was sent. -/
theorem fits_of_parseOne (hsize : item.node.size < 2 ^ 64) {rest r : Bytes} (hrest : rest ≠ [])
    (h : parseOne (item.sent ++ rest) = .ok (some (item.event, r))) : item.Fits := by
  obtain ⟨hnamelt, htrailer, hsizelt⟩ : (encode item.name).length + 1 < 2 ^ 32 ∧
      encode item.name ≠ encode trailer ∧ item.node.size < 2 ^ 32 := by
    rw [sent, cpioSend_eq, List.append_assoc, List.append_assoc] at h
    obtain ⟨hnamesize, htrailer, -⟩ := parseOne_name (readHeader_cpioHeader item.mode_lt _) h
    rw [event_name] at hnamesize htrailer
    exact ⟨convert_lt hnamesize, htrailer,
      size_lt_of_parseOne hsize (convert_lt hnamesize) _ hnamesize⟩
  refine ⟨htrailer, hnamelt, hsizelt, ?_⟩
  rw [sent, List.append_assoc, parseOne_header item.mode_lt hsizelt hnamelt, if_neg htrailer] at h
  obtain ⟨entry, hentry, hsome⟩ := exists_of_bind_ok (f := fun entry => .ok (some entry)) h
  obtain rfl := Option.some.inj (Except.ok.inj hsome)
  obtain ⟨hfile, hlink⟩ := addEntry_data hentry
  have hpos := List.length_pos_iff.mpr hrest
  unfold event at hfile hlink
  rcases hnode : item.node with ⟨size, content⟩ | - | target
  · rw [hnode] at hfile
    have hlength := congrArg List.length (hfile _ _ _ rfl)
    rw [cpioSend_eq] at hlength
    simp only [Node.data, Node.size, List.length_take, List.length_append] at hlength ⊢
    omega
  · rfl
  · rw [hnode] at hlink
    exact hlink _ _ _ rfl

end Item

theorem parseOne_length {is r : Bytes} {event : Event}
    (h : parseOne is = .ok (some (event, r))) : r.length < is.length := by
  obtain ⟨⟨header, tail⟩, hheader, -⟩ := exists_of_bind_ok h
  obtain ⟨-, -, hrest⟩ := parseOne_name hheader h
  unfold readHeader at hheader
  split_ifs at hheader with hshort
  obtain ⟨-, rfl⟩ := Prod.mk.inj (Except.ok.inj hheader)
  rw [List.length_drop] at hrest
  omega

theorem parseLoop_eq_parse {fuel : ℕ} {is : Bytes} (h : is.length < fuel) :
    parseLoop fuel is = parse is := by
  have hloop : ∀ n m (is : Bytes), is.length < n → is.length < m →
      parseLoop n is = parseLoop m is := by
    intro n
    induction n with
    | zero => exact fun m is hn => absurd hn (Nat.not_lt_zero _)
    | succ n ih =>
      intro m is hn hm
      obtain ⟨m, rfl⟩ := Nat.exists_eq_succ_of_ne_zero (Nat.ne_zero_of_lt hm)
      rw [parseLoop, parseLoop]
      rcases hone : parseOne is with fault | - | ⟨event, r⟩
      · rfl
      · rfl
      · have hr := parseOne_length hone
        simp only [ih m r (by omega) (by omega)]
  exact hloop _ _ is h (Nat.lt_succ_self _)

theorem parse_of_some {is r : Bytes} {event : Event}
    (h : parseOne is = .ok (some (event, r))) :
    parse is = (event :: (parse r).1, (parse r).2) := by
  rw [parse, parseLoop, h]
  simp only [parseLoop_eq_parse (parseOne_length h)]

def archive (items : List Item) : Bytes :=
  items.flatMap Item.sent ++ cpioSend (cpioHeader trailer 0 0)

theorem archive_cons (item : Item) (items : List Item) :
    archive (item :: items) = item.sent ++ archive items := by
  rw [archive, List.flatMap_cons, List.append_assoc, archive]

theorem archive_ne_nil (items : List Item) : archive items ≠ [] := by
  have htrailer : cpioSend (cpioHeader trailer 0 0) ≠ [] := by decide +kernel
  exact List.append_ne_nil_of_right_ne_nil _ htrailer

/-- An archive is unpacked to exactly the files that were sent if and only if all of them fit. -/
theorem parse_archive_iff {items : List Item} (hsize : ∀ item ∈ items, item.node.size < 2 ^ 64) :
    parse (archive items) = (items.map Item.event, .ok ()) ↔ ∀ item ∈ items, item.Fits := by
  induction items with
  | nil =>
    have hparse : parse (archive []) = ([], .ok ()) := by
      rw [archive, List.flatMap_nil, List.nil_append, parse, parseLoop, parseOne_trailer]
    simp [hparse]
  | cons item items ih =>
    obtain ⟨hitem, hsize⟩ := List.forall_mem_cons.mp hsize
    rw [archive_cons, List.forall_mem_cons, List.map_cons]
    constructor
    · intro h
      rcases hone : parseOne (item.sent ++ archive items) with fault | - | ⟨event, r⟩
      · rw [parse, parseLoop, hone] at h
        cases h
      · rw [parse, parseLoop, hone] at h
        cases h
      · rw [parse_of_some hone] at h
        obtain ⟨hevents, hend⟩ := Prod.mk.inj h
        obtain ⟨rfl, htail⟩ := List.cons.inj hevents
        have hfits := item.fits_of_parseOne hitem (archive_ne_nil items) hone
        rw [hfits.parseOne_eq] at hone
        obtain ⟨-, rfl⟩ := Prod.mk.inj (Option.some.inj (Except.ok.inj hone))
        exact ⟨hfits, (ih hsize).mp (Prod.ext htail hend)⟩
    · rintro ⟨hfits, hrest⟩
      rw [parse_of_some (hfits.parseOne_eq _), (ih hsize).mpr hrest]

theorem zero_perm_lt : 0 < 0o1000 := by decide

theorem and_perm_lt (mode : ℕ) : mode &&& 0o777 < 0o1000 :=
  Nat.lt_succ_of_le Nat.and_le_right

def HostFile.item (name : List Char) : HostFile → Option Item
  | symlink mode target => some ⟨name, mode &&& 0o777, and_perm_lt mode, .link target⟩
  | directory mode => some ⟨name, mode &&& 0o777, and_perm_lt mode, .dir⟩
  | regular mode size content =>
    content.map fun content => ⟨name, mode &&& 0o777, and_perm_lt mode, .file size content⟩

section Upload

variable (host : List Char → Option HostFile) (stripFile : List Char → List Char)

def entryItem (entry : List Char × List Char) : Option Item :=
  if "->".toList <+: entry.2 then some ⟨entry.1, 0, zero_perm_lt, .link (entry.2.drop 2)⟩
  else (host (stripFile entry.2)).bind (HostFile.item entry.1)

/-- The libraries that were already stripped are left out. -/
def isStripped (entry : List Char × List Char) : Bool :=
  ¬ "->".toList <+: entry.2 ∧ "-stripped.so".toList <:+ entry.2

variable {host stripFile}

theorem sendLink_eq (name : List Char) {perm : ℕ} (hperm : perm < 0o1000) (link : List Char) :
    sendLink name (perm ||| sIFLNK) link = Item.sent ⟨name, perm, hperm, .link link⟩ := rfl

theorem HostFile.sendFile_of_some {name : List Char} {file : HostFile} {item : Item}
    (h : file.item name = some item) : sendFile name file = (item.sent, true) := by
  rcases file with ⟨mode, target⟩ | mode | ⟨mode, size, - | content⟩
  · obtain rfl := Option.some.inj h
    rfl
  · obtain rfl := Option.some.inj h
    exact congrArg (·, true) (List.append_nil _).symm
  · cases h
  · obtain rfl := Option.some.inj h
    rfl

theorem HostFile.sendFile_of_none {name : List Char} {file : HostFile}
    (h : file.item name = none) : (sendFile name file).2 = false := by
  rcases file with ⟨mode, target⟩ | mode | ⟨mode, size, - | content⟩
  · cases h
  · cases h
  · rfl
  · cases h

variable {entry : List Char × List Char}

theorem sendEntry_of_stripped (h : isStripped entry) :
    sendEntry host stripFile entry.1 entry.2 = ([], true) := by
  obtain ⟨hlink, hstripped⟩ := of_decide_eq_true h
  rw [sendEntry, if_neg hlink, if_pos hstripped]

theorem sendEntry_of_not_stripped (h : isStripped entry = false)
    (hlink : ¬ "->".toList <+: entry.2) :
    sendEntry host stripFile entry.1 entry.2 =
      match host (stripFile entry.2) with
      | none => ([], false)
      | some file => sendFile entry.1 file := by
  have hstripped : ¬ "-stripped.so".toList <:+ entry.2 := fun hs =>
    of_decide_eq_false h ⟨hlink, hs⟩
  rw [sendEntry, if_neg hlink, if_neg hstripped]

theorem sendEntry_of_some (h : isStripped entry = false) {item : Item}
    (hitem : entryItem host stripFile entry = some item) :
    sendEntry host stripFile entry.1 entry.2 = (item.sent, true) := by
  unfold entryItem at hitem
  split_ifs at hitem with hlink
  · obtain rfl := Option.some.inj hitem
    rw [sendEntry, if_pos hlink, ← sendLink_eq, Nat.zero_or]
  · obtain ⟨file, hfile, hitem⟩ := Option.bind_eq_some_iff.mp hitem
    rw [sendEntry_of_not_stripped h hlink, hfile]
    exact HostFile.sendFile_of_some hitem

theorem sendEntry_of_none (h : isStripped entry = false)
    (hitem : entryItem host stripFile entry = none) :
    (sendEntry host stripFile entry.1 entry.2).2 = false := by
  unfold entryItem at hitem
  split_ifs at hitem with hlink
  rw [sendEntry_of_not_stripped h hlink]
  cases hfile : host (stripFile entry.2) with
  | none => rfl
  | some file =>
    rw [hfile] at hitem
    exact HostFile.sendFile_of_none hitem

def requested (host : List Char → Option HostFile) (stripFile : List Char → List Char)
    (files : List (List Char × List Char)) : List Item :=
  (files.filter (!isStripped ·)).filterMap (entryItem host stripFile)

theorem sendFiles_cons_of_true {sent : Bytes} {files : List (List Char × List Char)}
    (h : sendEntry host stripFile entry.1 entry.2 = (sent, true)) :
    sendFiles host stripFile (entry :: files) =
      (sent ++ (sendFiles host stripFile files).1, (sendFiles host stripFile files).2) := by
  rw [sendFiles, h]

theorem sendFiles_eq (files : List (List Char × List Char)) :
    ((sendFiles host stripFile files).2 = true ↔ ∀ entry ∈ files, isStripped entry = false →
        entryItem host stripFile entry ≠ none) ∧
      ((sendFiles host stripFile files).2 = true → (sendFiles host stripFile files).1 =
        (requested host stripFile files).flatMap Item.sent) := by
  induction files with
  | nil => simp [sendFiles, requested]
  | cons entry files ih =>
    rw [List.forall_mem_cons]
    cases hstripped : isStripped entry with
    | true =>
      rw [sendFiles_cons_of_true (sendEntry_of_stripped hstripped)]
      simpa [requested, hstripped] using ih
    | false =>
      cases hitem : entryItem host stripFile entry with
      | none =>
        have hfalse := sendEntry_of_none hstripped hitem
        have hfailed : (sendFiles host stripFile (entry :: files)).2 = false := by
          rw [sendFiles]
          split
          · rfl
          · rename_i heq
            rw [heq] at hfalse
            cases hfalse
        rw [hfailed]
        simp
      | some item =>
        rw [sendFiles_cons_of_true (sendEntry_of_some hstripped hitem)]
        simpa [requested, hstripped, hitem] using ih

theorem upload_ok_iff {files : List (List Char × List Char)} :
    (upload host stripFile files).2 = true ↔ ∀ entry ∈ files, isStripped entry = false →
      entryItem host stripFile entry ≠ none :=
  (sendFiles_eq files).1

theorem parse_upload_iff {files : List (List Char × List Char)}
    (hok : (upload host stripFile files).2 = true)
    (hsize : ∀ item ∈ requested host stripFile files, item.node.size < 2 ^ 64) :
    parse (upload host stripFile files).1 =
        ((requested host stripFile files).map Item.event, .ok ()) ↔
      ∀ item ∈ requested host stripFile files, item.Fits := by
  rw [upload, (sendFiles_eq files).2 hok, ← archive, parse_archive_iff hsize]

theorem forall_requested_iff {files : List (List Char × List Char)} {P : Item → Prop} :
    ((∀ entry ∈ files, isStripped entry = false → entryItem host stripFile entry ≠ none) ∧
        ∀ item ∈ requested host stripFile files, P item) ↔
      ∀ entry ∈ files, isStripped entry = false →
        ∃ item, entryItem host stripFile entry = some item ∧ P item := by
  constructor
  · rintro ⟨hread, hall⟩ entry hentry hstripped
    obtain ⟨item, hitem⟩ := Option.ne_none_iff_exists'.mp (hread entry hentry hstripped)
    refine ⟨item, hitem, hall item (List.mem_filterMap.mpr ⟨entry, ?_, hitem⟩)⟩
    exact List.mem_filter.mpr ⟨hentry, by simp [hstripped]⟩
  · intro h
    refine ⟨fun entry hentry hstripped => ?_, fun item hitem => ?_⟩
    · obtain ⟨item, hitem, -⟩ := h entry hentry hstripped
      simp [hitem]
    · obtain ⟨entry, hentry, hitem⟩ := List.mem_filterMap.mp hitem
      obtain ⟨hentry, hstripped⟩ := List.mem_filter.mp hentry
      obtain ⟨item', hitem', hP⟩ := h entry hentry (by simpa using hstripped)
      obtain rfl := Option.some.inj (hitem.symm.trans hitem')
      exact hP

/-- The build succeeds and unpacks exactly the files of the manifest if and only if every one of
them can be read and fits. -/
theorem upload_unpacked_iff {files : List (List Char × List Char)}
    (hsize : ∀ item ∈ requested host stripFile files, item.node.size < 2 ^ 64) :
    ((upload host stripFile files).2 = true ∧ parse (upload host stripFile files).1 =
        ((requested host stripFile files).map Item.event, .ok ())) ↔
      ∀ entry ∈ files, isStripped entry = false →
        ∃ item, entryItem host stripFile entry = some item ∧ item.Fits := by
  rw [← forall_requested_iff, upload_ok_iff]
  exact and_congr_right fun hread => parse_upload_iff (upload_ok_iff.mpr hread) hsize

end Upload

def regionHost : List Char → Option HostFile := fun file =>
  if file = "region.tbl".toList then some (.regular 0o100644 3 (some [48, 124, 10])) else none

def regionManifest : List (List Char × List Char) :=
  [("/region.tbl".toList, "region.tbl".toList), ("/etc/mnttab".toList, "->/proc/mounts".toList)]

def linkManifest : List (List Char × List Char) := [("/link".toList, "->/é".toList)]

/-- A link that is no ASCII text is cut off. -/
theorem upload_unpacked_region :
    parse (upload regionHost id regionManifest).1 =
        ([.addFile (encode "/region.tbl".toList) [48, 124, 10] 0o644,
          .addSymlink (encode "/proc/mounts".toList) (encode "/etc/mnttab".toList) 0], .ok ()) ∧
      parse (upload regionHost id linkManifest).1 ≠
        ([.addSymlink (encode "/é".toList) (encode "/link".toList) 0], .ok ()) := by
  constructor
  · have hsize : ∀ item ∈ requested regionHost id regionManifest, item.node.size < 2 ^ 64 := by
      decide +kernel
    have hall : ∀ entry ∈ regionManifest,
        (entryItem regionHost id entry).any (fun item => item.Fits) := by
      decide +kernel
    have hfits : ∀ entry ∈ regionManifest, isStripped entry = false →
        ∃ item, entryItem regionHost id entry = some item ∧ item.Fits := by
      intro entry hentry _
      simpa [Option.any_eq_true] using hall entry hentry
    exact ((upload_unpacked_iff hsize).mpr hfits).2.trans (by decide +kernel)
  · intro h
    have hsize : ∀ item ∈ requested regionHost id linkManifest, item.node.size < 2 ^ 64 := by
      decide +kernel
    have hparse : parse (upload regionHost id linkManifest).1 =
        ((requested regionHost id linkManifest).map Item.event, .ok ()) :=
    h.trans (by decide +kernel)
    obtain ⟨item, hitem, hfits⟩ := (upload_unpacked_iff hsize).mp ⟨by decide +kernel, hparse⟩
      _ List.mem_cons_self (by decide +kernel)
    have hcut : (entryItem regionHost id ("/link".toList, "->/é".toList)).all
        (fun item => ¬ item.Fits) := by
      decide +kernel
    rw [hitem] at hcut
    exact of_decide_eq_true hcut hfits

end TpchBench.Image
