import Jhalfs.Base.Cut

/-!
# Newer versions

`compare-versions` (BLFS/xsl/dependencies.xsl:90–166) says whether the version of a package
in the book is newer than the installed one. XPath does not compare strings, so it looks
for the place of a letter in a table, and compares runs of other characters as numbers.

- `compareVersions` is the template, with its tables, its `translate` and its NaN.
- `tokens` is what the template reads of one version: a letter, a separator, a number, or
  the run of characters that is no number, with which the reading ends.
- `Token.Older` is the order on tokens that the branches of the template amount to. A
  separator and a number cannot be compared, and a letter is newer than what is no letter.
- `compareVersions_ne_zero_iff`: **the template is the lexicographic order** on the tokens.
  The proof follows the recursion of the template; the first token of each version says
  which branch is taken (`headToken`).
- So "newer" is a strict order on all texts (`not_newer_self`, `Newer.asymm`,
  `Newer.trans`), which is what a comparison of versions has to be.
- `newer_iff_numbers`: versions made of numbers only are compared number by number. Leading
  zeros and the kind of the separators do not matter.
-/

namespace Jhalfs

open Text

/-! ## The template -/

def charTable : List Char := " abcdefghijklmnopqrstuvwxyzABCDEFGHIJKLMNOPQRSTUVWXYZ".toList

def dotTable : List Char := ".....................................................".toList

/-- The place of the first character in the table; 0 for a digit or a dot. -/
def pos (version : List Char) : Nat := (substringBefore charTable (version.take 1)).length

/-- All separators are made into dots. -/
def modVer (version : List Char) : List Char := translateChars version "-_".toList "..".toList

/-- The characters before the first dot or letter. -/
def tok (version : List Char) : List Char :=
  substringBefore (translateChars (modVer version) charTable dotTable ++ ".".toList) ".".toList

/-- `number` of a text without a point and a sign; `none` is NaN. -/
def number (s : List Char) : Option Nat :=
  let digits := (s.dropWhile isSpace).rdropWhile isSpace
  if digits ≠ [] ∧ digits.all Char.isDigit = true then some (Nat.ofDigitChars 10 digits 0) else none

/-- `=` on numbers; NaN is not equal to itself. -/
def sameNumber : Option Nat → Option Nat → Bool
  | some m, some n => m == n
  | _, _ => false

/-- `>` on numbers. -/
def greaterNumber : Option Nat → Option Nat → Bool
  | some m, some n => decide (n < m)
  | _, _ => false

theorem ne_nil_of_number {s : List Char} {n : Nat} (h : number s = some n) : s ≠ [] := by
  rintro rfl
  cases h

theorem eq_some_of_sameNumber {x y : Option Nat} (h : sameNumber x y = true) :
    ∃ n, x = some n ∧ y = some n := by
  match x, y with
  | some m, some n =>
    rw [sameNumber, beq_iff_eq] at h
    exact ⟨n, congrArg some h, rfl⟩
  | none, _ => cases h
  | some _, none => cases h

/-- `compare-versions`, as a number: it compares the first tokens and, where these are equal,
calls itself on the rest of both versions. -/
def compareVersions (version instVersion : List Char) : Nat :=
  -- more characters make a newer version
  if instVersion.length = 0 then version.length
  else if version.length = 0 then 0
  -- a letter: newer than one before it in the table, and than anything else
  else if pos version ≠ 0 then
    if pos version = pos instVersion then
      compareVersions (version.drop 1) (instVersion.drop 1)
    else (decide (pos instVersion < pos version)).toNat
  else if (modVer version).take 1 = ['.'] then
    if (modVer instVersion).take 1 = ['.'] then
      compareVersions (version.drop 1) (instVersion.drop 1)
    else 0
  else if 0 < pos instVersion ∨ (modVer instVersion).take 1 = ['.'] then
    -- do not know what to do: do not install
    0
  -- `=` and `>` are both false for NaN
  else if sameNumber (number (tok version)) (number (tok instVersion)) then
    compareVersions (version.drop (tok version).length)
      (instVersion.drop (tok instVersion).length)
  else (greaterNumber (number (tok version)) (number (tok instVersion))).toNat
termination_by version.length
decreasing_by
  · rw [List.length_drop]
    omega
  · rw [List.length_drop]
    omega
  · rename_i hsame
    obtain ⟨n, hn, -⟩ := eq_some_of_sameNumber hsame
    have hpos := List.length_pos_iff.mpr (ne_nil_of_number hn)
    rw [List.length_drop]
    omega

/-- The version of the book is newer: the template has an output other than 0. -/
def Newer (version instVersion : List Char) : Prop := compareVersions version instVersion ≠ 0

/-! ## Tokens -/

/-- What the template reads of a version: a letter with its place in the table, a separator, a
number, or something that XPath does not take for a number. -/
inductive Token where
  | letter (place : Nat)
  | separator
  | number (n : Nat)
  /-- No number. -/
  | other

/-- The reading of a version, token by token; it ends with the text, or with the first run of
characters that is no number. -/
def tokens (version : List Char) : List Token :=
  if version.length = 0 then []
  else if pos version ≠ 0 then .letter (pos version) :: tokens (version.drop 1)
  else if (modVer version).take 1 = ['.'] then .separator :: tokens (version.drop 1)
  else
    match _ : number (tok version) with
    | some n => .number n :: tokens (version.drop (tok version).length)
    | none => [.other]
termination_by version.length
decreasing_by
  · rw [List.length_drop]
    omega
  · rw [List.length_drop]
    omega
  · have hpos := List.length_pos_iff.mpr (ne_nil_of_number ‹_›)
    rw [List.length_drop]
    omega

namespace Token

/-- The first token is the older one. A separator and a number cannot be compared, and neither
can two runs one of which is no number: there NaN makes the tests of the template false. -/
def Older : Token → Token → Prop
  | letter m, letter n => m < n
  | number m, number n => m < n
  | separator, letter _ => True
  | number _, letter _ => True
  | other, letter _ => True
  | _, _ => False

theorem Older.irrefl (t : Token) : ¬ Older t t := by
  cases t with
  | letter n => exact Nat.lt_irrefl n
  | number n => exact Nat.lt_irrefl n
  | separator => exact id
  | other => exact id

theorem Older.trans {s t u : Token} (hst : Older s t) (htu : Older t u) : Older s u := by
  cases t with
  | letter n =>
    cases u with
    | letter k =>
      cases s with
      | letter m => exact Nat.lt_trans hst htu
      | number m => trivial
      | separator => trivial
      | other => trivial
    | number k => exact htu.elim
    | separator => exact htu.elim
    | other => exact htu.elim
  | number n =>
    cases s with
    | number m =>
      cases u with
      | letter k => trivial
      | number k => exact Nat.lt_trans hst htu
      | separator => exact htu.elim
      | other => exact htu.elim
    | letter m => exact hst.elim
    | separator => exact hst.elim
    | other => exact hst.elim
  | separator => cases s <;> exact hst.elim
  | other => cases s <;> exact hst.elim

/-- The token of a run of other characters. -/
def ofNumber : Option Nat → Token
  | some n => number n
  | none => other

theorem older_letter_iff (t : Token) (n : Nat) :
    Older t (letter n) ↔ ∀ m, t = letter m → m < n := by
  cases t with
  | letter m => exact ⟨fun h _ heq => by cases heq; exact h, fun h => h m rfl⟩
  | number m => exact iff_of_true trivial nofun
  | separator => exact iff_of_true trivial nofun
  | other => exact iff_of_true trivial nofun

theorem not_older_separator (t : Token) : ¬ Older t separator := by
  cases t <;> exact id

theorem ofNumber_ne (x : Option Nat) :
    ¬ ((∃ n, ofNumber x = letter n) ∨ ofNumber x = separator) := by
  cases x <;> simp [ofNumber]

theorem not_older_ofNumber {t : Token} (ht : (∃ n, t = letter n) ∨ t = separator)
    (x : Option Nat) : ¬ Older t (ofNumber x) := by
  rcases ht with ⟨n, rfl⟩ | rfl
  · cases x <;> exact id
  · cases x <;> exact id

theorem older_ofNumber_iff (x y : Option Nat) :
    Older (ofNumber x) (ofNumber y) ↔ greaterNumber y x = true := by
  cases x with
  | none => cases y <;> exact iff_of_false id Bool.false_ne_true
  | some m =>
    cases y with
    | none => exact iff_of_false id Bool.false_ne_true
    | some n =>
      rw [greaterNumber, decide_eq_true_iff]
      exact Iff.rfl

theorem ofNumber_eq {x y : Option Nat} (h : ¬ sameNumber x y = true)
    (heq : ofNumber y = ofNumber x) : ofNumber x = other := by
  cases x with
  | none => rfl
  | some m =>
    cases y with
    | none => cases heq
    | some n =>
      cases heq
      exact absurd (beq_self_eq_true _) h

theorem Older.asymm {s t : Token} (hst : Older s t) : ¬ Older t s :=
  fun hts => irrefl s (hst.trans hts)

end Token

/-! The characters before the first separator or letter -/

/-- The separators. -/
def isVersionSeparator (c : Char) : Bool := c == '.' || c == '-' || c == '_'

theorem modVer_cons (c : Char) (s : List Char) :
    modVer (c :: s) = (if isVersionSeparator c then '.' else c) :: modVer s := by
  have hrest : modVer (c :: s) = modVer [c] ++ modVer s := by
    rw [modVer, modVer, modVer, translateChars, translateChars, translateChars,
      List.flatMap_singleton, List.flatMap_cons]
  have hone : modVer [c] = [if isVersionSeparator c then '.' else c] := by
    by_cases hdash : c = '-'
    · subst hdash
      rfl
    · by_cases hunder : c = '_'
      · subst hunder
        rfl
      · have hnone : "-_".toList.idxOf? c = none := by
          rw [List.idxOf?_eq_none_iff]
          simp [hdash, hunder]
        rw [modVer, translateChars, List.flatMap_singleton, hnone]
        by_cases hdot : c = '.'
        · subst hdot
          rfl
        · rw [if_neg (by simp [isVersionSeparator, hdash, hunder, hdot])]
  rw [hrest, hone]
  rfl

theorem take_modVer_iff {c : Char} {s : List Char} :
    (modVer (c :: s)).take 1 = ['.'] ↔ isVersionSeparator c = true := by
  rw [modVer_cons]
  by_cases h : isVersionSeparator c = true
  · rw [if_pos h]
    exact iff_of_true rfl h
  · rw [if_neg h]
    refine iff_of_false (fun heq => h ?_) h
    have hc : c = '.' := (List.cons.inj heq).1
    rw [hc]
    rfl

theorem pos_of_separator {version : List Char} (h : (modVer version).take 1 = ['.']) :
    pos version = 0 := by
  cases version with
  | nil => rfl
  | cons c s =>
    rw [take_modVer_iff, isVersionSeparator, Bool.or_eq_true, Bool.or_eq_true, beq_iff_eq,
      beq_iff_eq, beq_iff_eq] at h
    -- only the first character counts
    have hone : pos (c :: s) = pos [c] := rfl
    rw [hone]
    rcases h with (rfl | rfl) | rfl
    · decide
    · decide
    · decide

section Tokens

variable {version : List Char}

theorem tokens_nil : tokens [] = [] := by
  rw [tokens]
  rfl

theorem tokens_letter (h : pos version ≠ 0) :
    tokens version = .letter (pos version) :: tokens (version.drop 1) := by
  have hlen : version.length ≠ 0 := by
    intro hlen
    rw [List.eq_nil_of_length_eq_zero hlen] at h
    exact h rfl
  rw [tokens, if_neg hlen, if_pos h]

theorem tokens_separator (hpos : ¬ pos version ≠ 0) (h : (modVer version).take 1 = ['.']) :
    tokens version = .separator :: tokens (version.drop 1) := by
  have hlen : version.length ≠ 0 := by
    intro hlen
    rw [List.eq_nil_of_length_eq_zero hlen] at h
    cases h
  rw [tokens, if_neg hlen, if_neg hpos, if_pos h]

variable (hlen : ¬ version.length = 0) (hpos : ¬ pos version ≠ 0)
  (hsep : ¬ (modVer version).take 1 = ['.'])

include hlen hpos hsep

theorem tokens_number {n : Nat} (h : number (tok version) = some n) :
    tokens version = .number n :: tokens (version.drop (tok version).length) := by
  rw [tokens, if_neg hlen, if_neg hpos, if_neg hsep]
  split
  · next m hm =>
    rw [h] at hm
    cases hm
    rfl
  · next hm =>
    rw [h] at hm
    cases hm

theorem tokens_other (h : number (tok version) = none) : tokens version = [.other] := by
  rw [tokens, if_neg hlen, if_neg hpos, if_neg hsep]
  split
  · next m hm =>
    rw [h] at hm
    cases hm
  · rfl

end Tokens

/-- The first token: it says which branch the template takes. Separators, letters and runs of
other characters are tokens of three kinds. -/
def headToken (version : List Char) : Token :=
  if pos version ≠ 0 then .letter (pos version)
  else if (modVer version).take 1 = ['.'] then .separator
  else .ofNumber (number (tok version))

section HeadToken

variable {version : List Char}

theorem headToken_letter (h : pos version ≠ 0) : headToken version = .letter (pos version) :=
  if_pos h

theorem headToken_separator (h : (modVer version).take 1 = ['.']) :
    headToken version = .separator := by
  rw [headToken, if_neg (not_not.mpr (pos_of_separator h)), if_pos h]

theorem headToken_run (hpos : ¬ pos version ≠ 0) (hsep : ¬ (modVer version).take 1 = ['.']) :
    headToken version = .ofNumber (number (tok version)) := by
  rw [headToken, if_neg hpos, if_neg hsep]

theorem separator_of_headToken (h : headToken version = .separator) :
    (modVer version).take 1 = ['.'] := by
  rw [headToken] at h
  split at h
  · cases h
  · split at h
    · assumption
    · exact absurd (Or.inr h) (Token.ofNumber_ne _)

theorem eq_letter_of_headToken {m : Nat} (h : headToken version = .letter m) :
    pos version = m := by
  rw [headToken] at h
  split at h
  · cases h
    rfl
  · split at h
    · cases h
    · exact absurd (Or.inl ⟨_, h⟩) (Token.ofNumber_ne _)

/-- The tokens begin with the first token, and end with it when it is no number. -/
theorem tokens_cons (hlen : ¬ version.length = 0) : ∃ ts, tokens version = headToken version :: ts ∧
    (headToken version = .other → ts = []) := by
  by_cases hpos : pos version ≠ 0
  · rw [headToken_letter hpos]
    exact ⟨_, tokens_letter hpos, nofun⟩
  · by_cases hsep : (modVer version).take 1 = ['.']
    · rw [headToken_separator hsep]
      exact ⟨_, tokens_separator hpos hsep, nofun⟩
    · rw [headToken_run hpos hsep]
      cases hnum : number (tok version) with
      | some n => exact ⟨_, tokens_number hlen hpos hsep hnum, nofun⟩
      | none => exact ⟨_, tokens_other hlen hpos hsep hnum, fun _ => rfl⟩

end HeadToken

theorem lex_cons_self {t : Token} {ts us : List Token} :
    List.Lex Token.Older (t :: ts) (t :: us) ↔ List.Lex Token.Older ts us := by
  rw [List.cons_lex_cons_iff]
  constructor
  · rintro (h | ⟨-, h⟩)
    · exact absurd h (Token.Older.irrefl t)
    · exact h
  · exact fun h => Or.inr ⟨rfl, h⟩

/-- First tokens that the template does not read over decide. -/
theorem lex_tokens_iff {version instVersion : List Char} (hlen : ¬ version.length = 0)
    (hinst : ¬ instVersion.length = 0)
    (hne : headToken instVersion = headToken version → headToken version = .other) :
    List.Lex Token.Older (tokens instVersion) (tokens version) ↔
      Token.Older (headToken instVersion) (headToken version) := by
  obtain ⟨ts, hts, hend⟩ := tokens_cons hlen
  obtain ⟨us, hus, hend'⟩ := tokens_cons hinst
  rw [hts, hus, List.cons_lex_cons_iff]
  constructor
  · rintro (h | ⟨heq, h⟩)
    · exact h
    · rw [hend (hne heq), hend' (heq.trans (hne heq))] at h
      exact absurd h List.not_lex_nil
  · exact Or.inl

theorem toNat_ne_zero_iff {b : Bool} : b.toNat ≠ 0 ↔ b = true := by
  cases b with
  | false => exact iff_of_false (fun h => h rfl) Bool.false_ne_true
  | true => exact iff_of_true Nat.one_ne_zero rfl

/-- **The comparison is the lexicographic order of the tokens.** The template cuts both versions
into tokens and stops at the first two that differ. -/
theorem compareVersions_ne_zero_iff (version instVersion : List Char) :
    compareVersions version instVersion ≠ 0 ↔
      List.Lex Token.Older (tokens instVersion) (tokens version) := by
  fun_induction compareVersions version instVersion with
  | case1 version instVersion hinst =>
    rw [List.eq_nil_of_length_eq_zero hinst, tokens_nil]
    by_cases hlen : version.length = 0
    · rw [List.eq_nil_of_length_eq_zero hlen, tokens_nil]
      exact iff_of_false (fun h => h rfl) List.not_lex_nil
    · obtain ⟨ts, hts, -⟩ := tokens_cons hlen
      rw [hts]
      exact iff_of_true hlen List.Lex.nil
  | case2 version instVersion hinst hlen =>
    rw [List.eq_nil_of_length_eq_zero hlen, tokens_nil]
    exact iff_of_false (fun h => h rfl) List.not_lex_nil
  | case3 version instVersion hinst hlen hpos heq ih =>
    -- the same letter on both sides: the rest decides
    rw [tokens_letter hpos, tokens_letter (heq ▸ hpos), heq, ih, lex_cons_self]
  | case4 version instVersion hinst hlen hpos hne =>
    rw [toNat_ne_zero_iff, decide_eq_true_iff, lex_tokens_iff hlen hinst, headToken_letter hpos,
      Token.older_letter_iff]
    · -- whatever is no letter has the place 0
      constructor
      · intro hlt m hm
        rwa [← eq_letter_of_headToken hm]
      · intro h
        by_cases hpos' : pos instVersion ≠ 0
        · exact h _ (headToken_letter hpos')
        · omega
    · intro heq
      rw [headToken_letter hpos] at heq
      exact absurd (eq_letter_of_headToken heq).symm hne
  | case5 version instVersion hinst hlen hpos hsep hsep' ih =>
    rw [tokens_separator hpos hsep, tokens_separator (not_not.mpr (pos_of_separator hsep')) hsep',
      ih, lex_cons_self]
  | case6 version instVersion hinst hlen hpos hsep hsep' =>
    refine iff_of_false (fun h => h rfl) ?_
    rw [lex_tokens_iff hlen hinst, headToken_separator hsep]
    · exact Token.not_older_separator _
    · intro heq
      rw [headToken_separator hsep] at heq
      exact absurd (separator_of_headToken heq) hsep'
  | case7 version instVersion hinst hlen hpos hsep hor =>
    refine iff_of_false (fun h => h rfl) ?_
    -- a number against a letter or a separator is never newer
    have hkind : (∃ n, headToken instVersion = .letter n) ∨ headToken instVersion = .separator := by
      by_cases hpos' : pos instVersion ≠ 0
      · exact Or.inl ⟨_, headToken_letter hpos'⟩
      · exact Or.inr (headToken_separator (hor.resolve_left (by omega)))
    rw [lex_tokens_iff hlen hinst, headToken_run hpos hsep]
    · exact Token.not_older_ofNumber hkind _
    · intro heq
      rw [heq, headToken_run hpos hsep] at hkind
      exact absurd hkind (Token.ofNumber_ne _)
  | case8 version instVersion hinst hlen hpos hsep hor hsame ih =>
    rw [not_or] at hor
    obtain ⟨n, hn, hn'⟩ := eq_some_of_sameNumber hsame
    rw [tokens_number hlen hpos hsep hn, tokens_number hinst (by omega) hor.2 hn', ih,
      lex_cons_self]
  | case9 version instVersion hinst hlen hpos hsep hor hsame =>
    rw [not_or] at hor
    have hhead := headToken_run (by omega) hor.2
    rw [toNat_ne_zero_iff, lex_tokens_iff hlen hinst, headToken_run hpos hsep, hhead,
      Token.older_ofNumber_iff]
    rw [headToken_run hpos hsep, hhead]
    exact Token.ofNumber_eq hsame

/-! ## A strict order -/

theorem not_newer_self (v : List Char) : ¬ Newer v v := by
  rw [Newer, compareVersions_ne_zero_iff]
  exact List.lex_irrefl Token.Older.irrefl _

theorem Newer.asymm {v w : List Char} (h : Newer v w) : ¬ Newer w v := by
  rw [Newer, compareVersions_ne_zero_iff] at h ⊢
  exact List.lex_asymm Token.Older.asymm h

theorem Newer.trans {u v w : List Char} (huv : Newer u v) (hvw : Newer v w) : Newer u w := by
  rw [Newer, compareVersions_ne_zero_iff] at huv hvw ⊢
  exact List.lex_trans Token.Older.trans hvw huv

/-! ## Decimal versions -/

/-- The parts between the separators. -/
def components (version : List Char) : List (List Char) := version.splitOnP isVersionSeparator

/-- A version made of decimal numbers: between the separators there are digits only, and at
least one. -/
def Decimal (version : List Char) : Prop :=
  ∀ d ∈ components version, d ≠ [] ∧ ∀ c ∈ d, c.isDigit = true

/-- The numbers of a version. -/
def componentNumbers (version : List Char) : List Nat :=
  (components version).map fun d => Nat.ofDigitChars 10 d 0

section Digits

variable {d : List Char} (hd : ∀ c ∈ d, c.isDigit = true)

theorem notMem_charTable {c : Char} (h : c.isDigit = true) : c ∉ charTable := by
  intro hc
  have hall : charTable.all (fun x => !x.isDigit) = true := by decide
  have hnot := List.all_eq_true.mp hall c hc
  rw [h] at hnot
  cases hnot

theorem ne_of_isDigit {c d : Char} (h : c.isDigit = true) (hd : d.isDigit = false) : c ≠ d := by
  rintro rfl
  rw [h] at hd
  cases hd

theorem not_separator_of_isDigit {c : Char} (h : c.isDigit = true) :
    isVersionSeparator c = false := by
  have hdot : c ≠ '.' := ne_of_isDigit h rfl
  have hdash : c ≠ '-' := ne_of_isDigit h rfl
  have hunder : c ≠ '_' := ne_of_isDigit h rfl
  simp [isVersionSeparator, hdot, hdash, hunder]

theorem not_space_of_isDigit {c : Char} (h : c.isDigit = true) : ¬ isSpace c = true := by
  have hblank : c ≠ ' ' := ne_of_isDigit h rfl
  have htab : c ≠ '\t' := ne_of_isDigit h rfl
  have hline : c ≠ '\n' := ne_of_isDigit h rfl
  have hreturn : c ≠ '\r' := ne_of_isDigit h rfl
  simp [isSpace, hblank, htab, hline, hreturn]

theorem pos_of_isDigit {c : Char} {s : List Char} (h : c.isDigit = true) : pos (c :: s) = 0 := by
  have hone : pos (c :: s) = (substringBefore charTable [c]).length := rfl
  rw [hone, substringBefore_of_not]
  · rfl
  · rw [contains_singleton_iff]
    exact notMem_charTable h

theorem translate_append (s t xs ys : List Char) :
    translateChars (s ++ t) xs ys = translateChars s xs ys ++ translateChars t xs ys :=
  List.flatMap_append

include hd

theorem number_digits (hne : d ≠ []) : number d = some (Nat.ofDigitChars 10 d 0) := by
  have hleft : d.dropWhile isSpace = d := by
    cases d with
    | nil => rfl
    | cons c s => exact List.dropWhile_cons_of_neg (not_space_of_isDigit (hd c List.mem_cons_self))
  have hright : d.rdropWhile isSpace = d :=
    List.rdropWhile_eq_self_iff.mpr fun hl =>
      not_space_of_isDigit (hd _ (List.getLast_mem hl))
  have hall : d.all Char.isDigit = true := List.all_eq_true.mpr hd
  rw [number, hleft, hright]
  exact if_pos ⟨hne, hall⟩

theorem modVer_digits_append (t : List Char) : modVer (d ++ t) = d ++ modVer t := by
  induction d with
  | nil => rfl
  | cons c d ih =>
    rw [List.cons_append, modVer_cons, not_separator_of_isDigit (hd c List.mem_cons_self),
      ih fun e he => hd e (List.mem_cons_of_mem _ he)]
    rfl

theorem translate_digits : translateChars d charTable dotTable = d := by
  induction d with
  | nil => rfl
  | cons c d ih =>
    have hnone : charTable.idxOf? c = none :=
      List.idxOf?_eq_none_iff.mpr (notMem_charTable (hd c List.mem_cons_self))
    have hrest := ih fun e he => hd e (List.mem_cons_of_mem _ he)
    rw [translateChars] at hrest
    rw [translateChars, List.flatMap_cons, hnone, hrest]
    rfl

theorem dot_notMem : '.' ∉ d := fun h => ne_of_isDigit (hd '.' h) rfl rfl

theorem tok_digits : tok d = d := by
  have hmod := modVer_digits_append hd []
  have hnil : modVer [] = [] := rfl
  rw [List.append_nil, hnil, List.append_nil] at hmod
  rw [tok, hmod, translate_digits hd]
  exact substringBefore_singleton (dot_notMem hd)

theorem tok_digits_append {c : Char} (hc : isVersionSeparator c = true) (t : List Char) :
    tok (d ++ c :: t) = d := by
  rw [tok, modVer_digits_append hd, modVer_cons, if_pos hc, translate_append, translate_digits hd]
  have hdot : translateChars ('.' :: modVer t) charTable dotTable =
      '.' :: translateChars (modVer t) charTable dotTable := by
    rw [translateChars, List.flatMap_cons]
    rfl
  rw [hdot, List.append_assoc]
  exact substringBefore_singleton (dot_notMem hd)

theorem tokens_digits_append (hne : d ≠ []) {r : List Char} (htok : tok (d ++ r) = d) :
    tokens (d ++ r) = .number (Nat.ofDigitChars 10 d 0) :: tokens r := by
  have hnum : number (tok (d ++ r)) = some (Nat.ofDigitChars 10 d 0) := by
    rw [htok, number_digits hd hne]
  have hrest : (d ++ r).drop (tok (d ++ r)).length = r := by
    rw [htok, List.drop_left]
  cases d with
  | nil => exact absurd rfl hne
  | cons c s =>
    have hc := hd c List.mem_cons_self
    have hsep : ¬ (modVer (c :: s ++ r)).take 1 = ['.'] := by
      rw [List.cons_append, take_modVer_iff, not_separator_of_isDigit hc]
      exact Bool.false_ne_true
    have hpos : ¬ pos (c :: s ++ r) ≠ 0 := not_not.mpr (pos_of_isDigit hc)
    rw [tokens_number (by simp) hpos hsep hnum, hrest]

end Digits

/-- A version is one component, or begins with one and a separator. -/
theorem components_cases (version : List Char) :
    components version = [version] ∧ (∀ c ∈ version, isVersionSeparator c = false) ∨
      ∃ d c t, version = d ++ c :: t ∧ isVersionSeparator c = true ∧
        components version = d :: components t := by
  have hjoin := List.takeWhile_append_dropWhile (p := fun c => !isVersionSeparator c) (l := version)
  -- the first component ends at the first separator
  have hfirst : ∀ c ∈ version.takeWhile (fun c => !isVersionSeparator c),
      isVersionSeparator c = false := by
    intro c hc
    have hnot := List.mem_takeWhile_imp hc
    rwa [Bool.not_eq_true'] at hnot
  cases hdrop : version.dropWhile (fun c => !isVersionSeparator c) with
  | nil =>
    rw [hdrop, List.append_nil] at hjoin
    rw [hjoin] at hfirst
    exact Or.inl ⟨List.splitOnP_eq_singleton hfirst, hfirst⟩
  | cons c t =>
    have hc : isVersionSeparator c = true := by
      have hhead := List.head_dropWhile_not (fun c => !isVersionSeparator c)
        (l := version) (by rw [hdrop]; exact List.cons_ne_nil _ _)
      simp only [hdrop, List.head_cons, Bool.not_eq_false'] at hhead
      exact hhead
    rw [hdrop] at hjoin
    refine Or.inr ⟨_, c, t, hjoin.symm, hc, ?_⟩
    conv => lhs; rw [← hjoin]
    exact List.splitOnP_append_cons_of_forall_mem hfirst c hc t

/-- The reading of a version that is made of numbers. -/
theorem tokens_decimal {version : List Char} (h : Decimal version) :
    tokens version = ((componentNumbers version).map Token.number).intersperse .separator := by
  induction hn : version.length using Nat.strong_induction_on generalizing version with
  | h n ih =>
    rcases components_cases version with ⟨hone, -⟩ | ⟨d, c, t, rfl, hc, hcons⟩
    · obtain ⟨hne, hd⟩ := h version (by rw [hone]; exact List.mem_singleton_self _)
      have hnumbers : componentNumbers version = [Nat.ofDigitChars 10 version 0] := by
        rw [componentNumbers, hone]
        rfl
      have hlast := tokens_digits_append hd hne (r := [])
        (by rw [List.append_nil]; exact tok_digits hd)
      rw [List.append_nil, tokens_nil] at hlast
      rw [hlast, hnumbers]
      rfl
    · obtain ⟨hne, hd⟩ := h d (by rw [hcons]; exact List.mem_cons_self)
      have ht : Decimal t := fun e he => h e (by rw [hcons]; exact List.mem_cons_of_mem _ he)
      have hnumbers : componentNumbers (d ++ c :: t) =
          Nat.ofDigitChars 10 d 0 :: componentNumbers t := by
        rw [componentNumbers, hcons]
        rfl
      have hsep : (modVer (c :: t)).take 1 = ['.'] := take_modVer_iff.mpr hc
      have hrest := ih t.length (by rw [← hn, List.length_append, List.length_cons]; omega) ht rfl
      rw [tokens_digits_append hd hne (tok_digits_append hd hc t),
        tokens_separator (not_not.mpr (pos_of_separator hsep)) hsep, List.drop_one, List.tail_cons,
        hrest, hnumbers]
      -- something follows on the separator
      cases hlast : componentNumbers t with
      | nil => exact absurd (List.map_eq_nil_iff.mp hlast) (List.splitOnP_ne_nil _ _)
      | cons m ms => rfl

theorem intersperse_cons (n : Nat) (l : List Nat) :
    ((n :: l).map Token.number).intersperse .separator =
      .number n ::
        if l = [] then [] else .separator :: (l.map Token.number).intersperse .separator := by
  cases l with
  | nil => rfl
  | cons m l => rfl

theorem lex_intersperse (l m : List Nat) :
    List.Lex Token.Older ((l.map Token.number).intersperse .separator)
      ((m.map Token.number).intersperse .separator) ↔ List.Lex (· < ·) l m := by
  induction l generalizing m with
  | nil =>
    cases m with
    | nil => exact iff_of_false List.not_lex_nil List.not_lex_nil
    | cons b m =>
      rw [intersperse_cons]
      exact iff_of_true List.Lex.nil List.Lex.nil
  | cons a l ih =>
    cases m with
    | nil => exact iff_of_false List.not_lex_nil List.not_lex_nil
    | cons b m =>
      have hhead : Token.Older (.number a) (.number b) ↔ a < b := Iff.rfl
      have hrest : List.Lex Token.Older
          (if l = [] then [] else .separator :: (l.map Token.number).intersperse .separator)
          (if m = [] then [] else .separator :: (m.map Token.number).intersperse .separator) ↔
          List.Lex (· < ·) l m := by
        rw [← ih]
        cases l with
        | nil =>
          cases m with
          | nil => exact Iff.rfl
          | cons c m =>
            rw [intersperse_cons]
            exact iff_of_true List.Lex.nil List.Lex.nil
        | cons c l =>
          cases m with
          | nil => exact iff_of_false List.not_lex_nil List.not_lex_nil
          | cons d m =>
            rw [if_neg (List.cons_ne_nil _ _), if_neg (List.cons_ne_nil _ _), lex_cons_self]
      rw [intersperse_cons, intersperse_cons, List.cons_lex_cons_iff, List.cons_lex_cons_iff, hhead,
        hrest, Token.number.injEq]

/-- **Number by number**: leading zeros and the kind of the separators do not matter. -/
theorem newer_iff_numbers {v w : List Char} (hv : Decimal v) (hw : Decimal w) :
    Newer v w ↔ List.Lex (· < ·) (componentNumbers w) (componentNumbers v) := by
  rw [Newer, compareVersions_ne_zero_iff, tokens_decimal hv, tokens_decimal hw, lex_intersperse]

end Jhalfs
