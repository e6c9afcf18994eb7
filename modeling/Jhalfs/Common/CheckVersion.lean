import Jhalfs.Base.Padded

/-!
# The test for a minimum version

`check_version` (common/libs/func_check_version.sh:3–84) splits two versions into words and
compares the first three as numbers. When the tested one is older, the user is asked whether
to go on, and an answer other than `c` stops the program. The function changes `IFS` for the
splitting of the versions, and the same `IFS` is in force when the answer is read and tested.

- `shellNumber`: the shell reads a number that begins with a zero as octal, where 8 and 9 are
  an error, and has 64 bits for it. The zeros are removed from the tested version only
  (`stripZeros`): the minimum `2.07.08` is an error, and with `010` for a ten a nine is enough.
- `compareVersion`: the tests fall through from one to the next. `write_error_and_die` makes
  the fields equal, so that those behind it succeed; `compareVersion_eq` says what is left of
  this, one question when the tested version is older.
- `readAnswer`: the `read` without `-r` undoes backslashes and drops a delimiter at the end of
  a single word, so `c.`, `cp` and `\c` are the answer `c`.
- `differs`: the answer is tested without quotes, so that one with a delimiter inside makes an
  error of the test, which counts as `c`.

**Main result**: `comparesDecimal_iff` says when all this is the decimal comparison that is
meant. A version can be accepted though it is older (`AcceptsOlder`), and with numbers that
need more than 63 bits it can be refused though it is not (`RefusesNewer`).
-/

namespace Jhalfs.Common

open Text

/-! ## Words and numbers -/

/-- `IFS=".-(pab"`. -/
def isDelimiter (c : Char) : Bool := ".-(pab".toList.contains c

/-- The words of a text. A delimiter at the end begins no further one. -/
def splitWords (s : List Char) : List (List Char) :=
  let fields := s.splitOnP isDelimiter
  if fields.getLast? = some [] then fields.dropLast else fields

/-- What the arithmetic of the shell makes of a number: 64 bits, with a sign. -/
def wrap (n : Int) : Int := n.bmod (2 ^ 64)

/-- The number that some digits stand for, or none: a leading zero makes them octal. -/
def wordValue : List Char → Nat
  | '0' :: ds => Nat.ofDigitChars 8 ds 0
  | ds => Nat.ofDigitChars 10 ds 0

/-- There is an 8 or a 9 behind a leading zero. -/
def octalError : List Char → Bool
  | '0' :: ds => ds.any fun c => decide ('8'.toNat ≤ c.toNat)
  | _ => false

/-- The value of a number in an arithmetic expression; `none` is the error. -/
def shellNumber (w : List Char) : Option Int :=
  if octalError w then none else some (wrap (wordValue w))

def isNumeral (w : List Char) : Bool := !w.isEmpty && w.all Char.isDigit

/-- A version whose first three words are numerals. -/
structure Version where
  text : List Char
  numerals : ((splitWords text).take 3).all isNumeral = true

/-- `$1`, `$2` and `$3` after `set -- $version`. -/
def Version.word (v : Version) (i : Fin 3) : List Char := (splitWords v.text).getD i []

/-- `major`, `minor` and `revision`. -/
structure Numbers where
  major : Int
  minor : Int
  revision : Int
  deriving DecidableEq

/-- The numbers of three words. -/
def numbers (read : List Char → Option Int) (v : Version) : Option Numbers := do
  let major ← read (v.word 0)
  let minor ← read (v.word 1)
  let revision ← read (v.word 2)
  return ⟨major, minor, revision⟩

/-- `ref_major=$1; ref_minor=$2; ref_revision=$3`. -/
def refNumbers (v : Version) : Option Numbers := numbers shellNumber v

/-- `${1##*(0)}`. -/
def stripZeros (w : List Char) : List Char := w.dropWhile (· == '0')

/-- `major=${1##*(0)}; minor=${2##*(0)}; revision=${3##*(0)}`. -/
def tstNumbers (v : Version) : Option Numbers := numbers (fun w => shellNumber (stripZeros w)) v

/-! ## The answer -/

/-- A character that makes a word a pattern of file names. -/
def isPatternChar (c : Char) : Bool := "*?[\\".toList.contains c

/-- The working directory, as far as pathname expansion goes. -/
structure Directory where
  expand : List Char → List (List Char)
  plain : ∀ w, w.any isPatternChar = false → expand w = [w]

/-- The status of `[ x$ANSWER != "xc" ]`. With more words than one there are too many
arguments, which is not success: none of them is an operator, as a word has no hyphen and no
file of the directory begins with one. -/
def differs (d : Directory) (answer : List Char) : Bool :=
  match (splitWords ('x' :: answer)).flatMap d.expand with
  | [w] => w != "xc".toList
  | _ => false

/-- A line end that is typed ends the answer, but for one behind a backslash. -/
def oneAnswer : List Char → Bool
  | [] => true
  | '\\' :: _ :: s => oneAnswer s
  | '\n' :: _ => false
  | _ :: s => oneAnswer s

/-- What is typed at a prompt, without the line end after it. -/
structure Answer where
  text : List Char
  whole : oneAnswer text = true

/-- The characters of a line, each with whether a backslash quotes it. A backslash and a line
end are none. -/
def quotedChars : List Char → List (Char × Bool)
  | [] => []
  | ['\\'] => []
  | '\\' :: '\n' :: s => quotedChars s
  | '\\' :: c :: s => (c, true) :: quotedChars s
  | c :: s => (c, false) :: quotedChars s

/-- `read ANSWER`. When the line is one word, perhaps with a delimiter behind it, the variable
gets the word, and otherwise all of the line. -/
def readAnswer (typed : List Char) : List Char :=
  let chars := quotedChars typed
  let (word, rest) := chars.span fun x => x.2 || !isDelimiter x.1
  if rest.tail = [] then word.map Prod.fst else chars.map Prod.fst

/-- How the function ends, and how often it has asked: it returns, or the program is left, or the
arithmetic fails. -/
inductive Outcome where
  | returned (prompts : Nat)
  | exited (prompts : Nat)
  /-- An arithmetic error: the shell gives up the command. -/
  | aborted
  deriving DecidableEq

/-- The integer variables. -/
structure Vars where
  tst : Numbers
  ref : Numbers
  prompts : Nat

section Check

variable (d : Directory) (answers : Nat → Answer)

/-- `write_error_and_die`. What is typed the n-th time is `answers n`. -/
def writeErrorAndDie (v : Vars) : Except Outcome Vars :=
  let prompts := v.prompts + 1
  if differs d (readAnswer (answers v.prompts).text) then .error (.exited prompts)
  else
    .ok { v with
      tst := { v.tst with minor := v.ref.minor, revision := v.ref.revision }
      prompts := prompts }

/-- `cond && write_error_and_die`, and then the rest. -/
def dieIf (cond : Bool) (v : Vars) (rest : Vars → Outcome) : Outcome :=
  if cond then
    match writeErrorAndDie d answers v with
    | .error outcome => outcome
    | .ok v => rest v
  else rest v

/-- The tests one after the other (func_check_version.sh:63–82). -/
def compareVersion (v : Vars) : Outcome :=
  if v.tst.major > v.ref.major then .returned v.prompts
  else
    dieIf d answers (v.tst.major < v.ref.major) v fun v =>
    dieIf d answers (v.tst.minor < v.ref.minor) v fun v =>
    if v.tst.minor > v.ref.minor then .returned v.prompts
    else if v.tst.revision ≥ v.ref.revision then .returned v.prompts
    else dieIf d answers true v fun v => .returned v.prompts

/-- `check_version`. -/
def checkVersion (refVersion tstVersion : Version) : Outcome :=
  match refNumbers refVersion, tstNumbers tstVersion with
  | some ref, some tst => compareVersion d answers ⟨tst, ref, 0⟩
  | _, _ => .aborted

end Check

/-! ## The order -/

/-- The lexicographic order. -/
def Numbers.atLeast (v r : Numbers) : Bool :=
  decide (r.major < v.major ∨ v.major = r.major ∧
    (r.minor < v.minor ∨ v.minor = r.minor ∧ r.revision ≤ v.revision))

/-- The numbers in decimal. -/
def decimalNumbers (v : Version) : Numbers where
  major := Nat.ofDigitChars 10 (v.word 0) 0
  minor := Nat.ofDigitChars 10 (v.word 1) 0
  revision := Nat.ofDigitChars 10 (v.word 2) 0

/-- The decimal order decides; the user is asked once, and goes on with `c` only. -/
def ComparesDecimal (d : Directory) (answers : Nat → Answer) (min tst : Version) : Prop :=
  checkVersion d answers min tst =
    if (decimalNumbers tst).atLeast (decimalNumbers min) then .returned 0
    else if (answers 0).text = "c".toList then .returned 1
    else .exited 1

/-- A component of the minimum has an 8 or a 9 behind a leading zero. The arithmetic of the shell
refuses it, and the function does not go on. -/
def HasOctalError (min : Version) : Prop := ∃ i, octalError (min.word i) = true

/-- The numbers with those in octal that begin with a zero. -/
def octalNumbers (v : Version) : Numbers where
  major := wordValue (v.word 0)
  minor := wordValue (v.word 1)
  revision := wordValue (v.word 2)

/-- The numbers in 64 bits. -/
def Numbers.wrapped (n : Numbers) : Numbers where
  major := wrap n.major
  minor := wrap n.minor
  revision := wrap n.revision

/-- The tested version is older than the minimum, and not older than the minimum with octal
numbers. -/
def AcceptsOlder (min tst : Version) : Prop :=
  (decimalNumbers tst).atLeast (decimalNumbers min) = false ∧
    (decimalNumbers tst).wrapped.atLeast (octalNumbers min).wrapped = true

/-- The tested version is not older than the minimum, and is so in 64 bits. -/
def RefusesNewer (min tst : Version) : Prop :=
  (decimalNumbers tst).atLeast (decimalNumbers min) = true ∧
    (decimalNumbers tst).wrapped.atLeast (octalNumbers min).wrapped = false

theorem atLeast_iff {v r : Numbers} : v.atLeast r = true ↔
    r.major < v.major ∨ v.major = r.major ∧
      (r.minor < v.minor ∨ v.minor = r.minor ∧ r.revision ≤ v.revision) := decide_eq_true_iff

section Compare

variable {d : Directory} {answers : Nat → Answer}

theorem dieIf_of {cond : Bool} {v : Vars} {rest : Vars → Outcome} (h : cond = true) :
    dieIf d answers cond v rest =
      if differs d (readAnswer (answers v.prompts).text) then .exited (v.prompts + 1)
      else rest ⟨⟨v.tst.major, v.ref.minor, v.ref.revision⟩, v.ref, v.prompts + 1⟩ := by
  rw [dieIf, if_pos h, writeErrorAndDie]
  cases differs d (readAnswer (answers v.prompts).text) with
  | true => rfl
  | false => rfl

theorem dieIf_of_not {cond : Bool} {v : Vars} {rest : Vars → Outcome} (h : cond = false) :
    dieIf d answers cond v rest = rest v := by
  rw [dieIf, h]
  rfl

/-- The tests behind the one of the minor numbers. -/
def compareRevision (d : Directory) (answers : Nat → Answer) (v : Vars) : Outcome :=
  if v.tst.minor > v.ref.minor then .returned v.prompts
  else if v.tst.revision ≥ v.ref.revision then .returned v.prompts
  else dieIf d answers true v fun v => .returned v.prompts

/-- The version is the minimum after `c`, and further tests succeed. -/
theorem compareRevision_of_eq {v : Vars} (hminor : v.tst.minor = v.ref.minor)
    (hrevision : v.tst.revision = v.ref.revision) :
    compareRevision d answers v = .returned v.prompts := by
  rw [compareRevision, if_neg (by omega), if_pos (by omega)]

theorem compareRevision_eq (v : Vars) : compareRevision d answers v =
    if v.ref.minor < v.tst.minor ∨ v.ref.revision ≤ v.tst.revision then .returned v.prompts
    else if differs d (readAnswer (answers v.prompts).text) then .exited (v.prompts + 1)
    else .returned (v.prompts + 1) := by
  rw [compareRevision]
  by_cases hminor : v.tst.minor > v.ref.minor
  · rw [if_pos hminor, if_pos (Or.inl hminor)]
  · by_cases hrevision : v.tst.revision ≥ v.ref.revision
    · rw [if_neg hminor, if_pos hrevision, if_pos (Or.inr hrevision)]
    · rw [if_neg hminor, if_neg hrevision, dieIf_of rfl, if_neg (not_or.mpr ⟨hminor, hrevision⟩)]

/-- What is asked and returned, from the order alone. -/
theorem compareVersion_eq (v : Vars) : compareVersion d answers v =
    if v.tst.atLeast v.ref then .returned v.prompts
    else if differs d (readAnswer (answers v.prompts).text) then .exited (v.prompts + 1)
    else .returned (v.prompts + 1) := by
  show (if v.tst.major > v.ref.major then Outcome.returned v.prompts
    else
      dieIf d answers (v.tst.major < v.ref.major) v fun v =>
      dieIf d answers (v.tst.minor < v.ref.minor) v (compareRevision d answers)) = _
  -- after a question the fields are made equal, so none of the later tests asks again
  rcases Int.lt_trichotomy v.tst.major v.ref.major with hmajor | hmajor | hmajor
  · have hold : ¬ v.tst.atLeast v.ref = true := by
      rw [atLeast_iff]
      omega
    rw [if_neg (by omega), dieIf_of (decide_eq_true hmajor),
      dieIf_of_not (decide_eq_false (lt_irrefl _)), compareRevision_of_eq rfl rfl, if_neg hold]
  · rw [if_neg (by omega), dieIf_of_not (decide_eq_false (by omega))]
    rcases Int.lt_trichotomy v.tst.minor v.ref.minor with hminor | hminor | hminor
    · have hold : ¬ v.tst.atLeast v.ref = true := by
        rw [atLeast_iff]
        omega
      rw [dieIf_of (decide_eq_true hminor), compareRevision_of_eq rfl rfl, if_neg hold]
    · have hsame : v.tst.atLeast v.ref = true ↔
          v.ref.minor < v.tst.minor ∨ v.ref.revision ≤ v.tst.revision := by
        rw [atLeast_iff]
        omega
      rw [dieIf_of_not (decide_eq_false (by omega)), compareRevision_eq]
      simp only [hsame]
    · have hnew : v.tst.atLeast v.ref = true := by
        rw [atLeast_iff]
        omega
      rw [dieIf_of_not (decide_eq_false (by omega)), compareRevision_eq, if_pos (Or.inl hminor),
        if_pos hnew]
  · have hnew : v.tst.atLeast v.ref = true := by
      rw [atLeast_iff]
      omega
    rw [if_pos hmajor, if_pos hnew]

theorem differs_c (d : Directory) : differs d "c".toList = false := by
  have hwords : splitWords ('x' :: "c".toList) = ["xc".toList] := by decide
  have hplain : "xc".toList.any isPatternChar = false := by decide
  rw [differs, hwords, List.flatMap_singleton, d.plain _ hplain]
  rfl

theorem readAnswer_c : readAnswer "c".toList = "c".toList := by decide

end Compare

/-! ## What is read -/

theorem shellNumber_of_ne {c : Char} (hc : c ≠ '0') (ds : List Char) :
    shellNumber (c :: ds) = some (wrap (Nat.ofDigitChars 10 (c :: ds) 0)) := by
  have herror : octalError (c :: ds) = false := by
    unfold octalError
    split
    · next heq =>
      cases heq
      exact absurd rfl hc
    · rfl
  have hvalue : wordValue (c :: ds) = Nat.ofDigitChars 10 (c :: ds) 0 := by
    unfold wordValue
    split
    · next heq =>
      cases heq
      exact absurd rfl hc
    · rfl
  rw [shellNumber, herror, hvalue]
  rfl

/-- Without its leading zeros a number is read in decimal. -/
theorem shellNumber_stripZeros (w : List Char) :
    shellNumber (stripZeros w) = some (wrap (Nat.ofDigitChars 10 w 0)) := by
  induction w with
  | nil => rfl
  | cons c w ih =>
    rw [stripZeros, List.dropWhile_cons]
    by_cases hc : c = '0'
    · rw [if_pos (beq_iff_eq.mpr hc)]
      exact ih.trans (by rw [hc, Nat.ofDigitChars_cons]; rfl)
    · rw [if_neg (mt beq_iff_eq.mp hc), shellNumber_of_ne hc]

/-- The tested version is read in decimal. -/
theorem tstNumbers_eq (v : Version) : tstNumbers v = some (decimalNumbers v).wrapped := by
  unfold tstNumbers numbers
  simp only [shellNumber_stripZeros]
  rfl

/-- The minimum is an error, or it is read with its leading zeros. -/
theorem refNumbers_of_not {v : Version} (h : ¬ HasOctalError v) :
    refNumbers v = some (octalNumbers v).wrapped := by
  have hread : ∀ i, shellNumber (v.word i) = some (wrap (wordValue (v.word i))) := by
    intro i
    rw [shellNumber, if_neg fun herror => h ⟨i, herror⟩]
  unfold refNumbers numbers
  simp only [hread]
  rfl

theorem refNumbers_of_error {v : Version} (h : HasOctalError v) : refNumbers v = none := by
  obtain ⟨i, hi⟩ := h
  have hnone : shellNumber (v.word i) = none := if_pos hi
  unfold refNumbers numbers
  match i with
  | 0 => rw [hnone]; rfl
  | 1 => rw [hnone]; cases shellNumber (v.word 0) <;> rfl
  | 2 =>
    rw [hnone]
    cases shellNumber (v.word 0) with
    | none => rfl
    | some major => cases shellNumber (v.word 1) <;> rfl

/-! ## Small numbers -/

/-- Every component is below 2 ^ 63, so that the arithmetic of the shell does not wrap it around. -/
def Version.Small (v : Version) : Prop := ∀ i, Nat.ofDigitChars 10 (v.word i) 0 < 2 ^ 63

theorem wrap_of_lt {n : Nat} (h : n < 2 ^ 63) : wrap n = n :=
  Int.bmod_eq_of_le (by omega) (by omega)

theorem ofDigitChars_le_of_base_le {b c : Nat} (h : b ≤ c) (ds : List Char) {m n : Nat}
    (hmn : m ≤ n) : Nat.ofDigitChars b ds m ≤ Nat.ofDigitChars c ds n := by
  induction ds generalizing m n with
  | nil => simpa using hmn
  | cons d ds ih =>
    rw [Nat.ofDigitChars_cons, Nat.ofDigitChars_cons]
    exact ih (Nat.add_le_add_right (Nat.mul_le_mul h hmn) _)

/-- In octal a number is not larger. -/
theorem wordValue_le (w : List Char) : wordValue w ≤ Nat.ofDigitChars 10 w 0 := by
  unfold wordValue
  split
  next ds =>
    rw [Nat.ofDigitChars_cons]
    exact ofDigitChars_le_of_base_le (by decide) ds (Nat.zero_le _)
  next => exact le_rfl

theorem wrapped_decimalNumbers {v : Version} (h : v.Small) :
    (decimalNumbers v).wrapped = decimalNumbers v := by
  simp only [Numbers.wrapped, decimalNumbers, wrap_of_lt (h _)]

theorem wrapped_octalNumbers {v : Version} (h : v.Small) :
    (octalNumbers v).wrapped = octalNumbers v := by
  simp only [Numbers.wrapped, octalNumbers, wrap_of_lt ((wordValue_le _).trans_lt (h _))]

/-- The minimum that is read is not larger than the one that is meant. -/
theorem atLeast_octalNumbers {min tst : Version}
    (h : (decimalNumbers tst).atLeast (decimalNumbers min) = true) :
    (decimalNumbers tst).atLeast (octalNumbers min) = true := by
  have h₀ := wordValue_le (min.word 0)
  have h₁ := wordValue_le (min.word 1)
  have h₂ := wordValue_le (min.word 2)
  rw [atLeast_iff] at h ⊢
  dsimp only [decimalNumbers, octalNumbers] at h ⊢
  omega

/-- The versions that are accepted too soon lie between the two minimums. -/
theorem acceptsOlder_iff {min tst : Version} (hmin : min.Small) (htst : tst.Small) :
    AcceptsOlder min tst ↔ (decimalNumbers tst).atLeast (octalNumbers min) = true ∧
      (decimalNumbers tst).atLeast (decimalNumbers min) = false := by
  rw [AcceptsOlder, wrapped_decimalNumbers htst, wrapped_octalNumbers hmin]
  exact and_comm

/-- No version is refused that is new enough. -/
theorem not_refusesNewer {min tst : Version} (hmin : min.Small) (htst : tst.Small) :
    ¬ RefusesNewer min tst := by
  rw [RefusesNewer, wrapped_decimalNumbers htst, wrapped_octalNumbers hmin]
  rintro ⟨hnew, hrefused⟩
  rw [atLeast_octalNumbers hnew] at hrefused
  cases hrefused

/-! ## When the comparison is the decimal one -/

section Decimal

variable {d : Directory} {answers : Nat → Answer} {min tst : Version}

/-- What is decided, without an error. -/
theorem checkVersion_of_not (h : ¬ HasOctalError min) : checkVersion d answers min tst =
    if (decimalNumbers tst).wrapped.atLeast (octalNumbers min).wrapped then .returned 0
    else if differs d (readAnswer (answers 0).text) then .exited 1
    else .returned 1 := by
  rw [checkVersion, refNumbers_of_not h, tstNumbers_eq]
  exact compareVersion_eq _

/-- The question: what is typed is `c` or differs from it when it is read. -/
theorem asks_iff (answer : Answer) :
    ((if differs d (readAnswer answer.text) then Outcome.exited 1 else .returned 1) =
      if answer.text = "c".toList then .returned 1 else .exited 1) ↔
      answer.text = "c".toList ∨ differs d (readAnswer answer.text) = true := by
  by_cases hc : answer.text = "c".toList
  · have hdiffers : differs d (readAnswer answer.text) = false := by
      rw [hc, readAnswer_c]
      exact differs_c d
    rw [hdiffers, if_pos hc]
    exact iff_of_true rfl (Or.inl hc)
  · rw [if_neg hc, or_iff_right hc]
    cases differs d (readAnswer answer.text) with
    | true => exact iff_of_true rfl rfl
    | false => exact iff_of_false Outcome.noConfusion Bool.false_ne_true

/-- **When the comparison is the decimal one.** With numbers below 2 ^ 63 it goes wrong in one
way only: the tested version lies between the minimum in octal and the one that is meant. -/
theorem comparesDecimal_iff (d : Directory) (answers : Nat → Answer) (min tst : Version) :
    (ComparesDecimal d answers min tst ↔
      ¬ HasOctalError min ∧ ¬ AcceptsOlder min tst ∧ ¬ RefusesNewer min tst ∧
        ((decimalNumbers tst).atLeast (decimalNumbers min) = true ∨
          (answers 0).text = "c".toList ∨ differs d (readAnswer (answers 0).text) = true)) ∧
    (min.Small → tst.Small → ¬ RefusesNewer min tst ∧
      (AcceptsOlder min tst ↔ (decimalNumbers tst).atLeast (octalNumbers min) = true ∧
        (decimalNumbers tst).atLeast (decimalNumbers min) = false)) := by
  refine ⟨?_, fun hmin htst => ⟨not_refusesNewer hmin htst, acceptsOlder_iff hmin htst⟩⟩
  rw [ComparesDecimal]
  by_cases herror : HasOctalError min
  · refine iff_of_false (fun h => ?_) fun h => h.1 herror
    have haborted : checkVersion d answers min tst = .aborted := by
      rw [checkVersion, refNumbers_of_error herror]
    rw [haborted] at h
    split at h
    · cases h
    · split at h <;> cases h
  · rw [checkVersion_of_not herror, AcceptsOlder, RefusesNewer]
    cases hread : (decimalNumbers tst).wrapped.atLeast (octalNumbers min).wrapped with
    | true =>
      cases hmeant : (decimalNumbers tst).atLeast (decimalNumbers min) with
      | true => simp [herror]
      | false =>
        refine iff_of_false (fun h => ?_) fun h => h.2.1 ⟨rfl, rfl⟩
        rw [if_pos rfl, if_neg Bool.false_ne_true] at h
        split at h <;> cases h
    | false =>
      cases hmeant : (decimalNumbers tst).atLeast (decimalNumbers min) with
      | true =>
        refine iff_of_false (fun h => ?_) fun h => h.2.2.1 ⟨rfl, rfl⟩
        rw [if_neg Bool.false_ne_true, if_pos rfl] at h
        split at h <;> cases h
      | false =>
        rw [if_neg Bool.false_ne_true, if_neg Bool.false_ne_true, asks_iff]
        simp [herror]

end Decimal

/-- The example of the comment (func_check_version.sh:57). -/
def octalMinimum : Version := ⟨"2.07.08".toList, by decide⟩

/-- The minimum itself is not accepted, nor is it refused. -/
theorem octalMinimum_not_compared :
    ¬ ComparesDecimal ⟨fun w => [w], fun _ _ => rfl⟩ (fun _ => ⟨[], rfl⟩) octalMinimum
      octalMinimum := by
  rw [ComparesDecimal]
  decide

/-- Some answers that are read as `c`. -/
example : ["c", "c.", "cp", "ca", "c(", "c-", "\\c"].map (fun s => readAnswer s.toList) =
    List.replicate 7 "c".toList := by decide

end Jhalfs.Common
