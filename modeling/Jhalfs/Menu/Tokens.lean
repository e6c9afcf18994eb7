import Jhalfs.Menu.Expr

/-!
# The tokens of a line

`_tokenize` (src/menu/kconfiglib.py) cuts a line into tokens. A quoted string is read in one of
two ways: when there is no backslash in the line its end is found with one search, and else
character by character with the escapes taken away.

- `Token`, `Keyword`, `Sym`: what is found. A symbol is constant when it is quoted, and the
  words `n`, `m` and `y` are constant symbols, too.
- `findQuote` and `expandStr`: the two ways to read a string, and `readStr`: which one is taken.
- `Cursor`: a place in a line. The text before it is kept, since a string that is read the second
  way takes its place in the line without its escapes.
- `lexToken`: one token, `lexAll` and `tokenize`: the tokens of a line. A token has one character
  at least (`length_lexToken`), so that the loop ends.
- `escape`: what is put in front of quotes and backslashes when a name is printed.

**Main results**: `find_eq_expandStr`, without a backslash and a macro the two ways agree, and
`readStr_escape`, an escaped name between quotes is read as the name, whichever way is taken.

Macros and environment variables are not modelled: where the line has a `$` that the source
would expand, there is no result.
-/

namespace Jhalfs.Menu

/-! ## Tokens -/

/-- The tokens of the words in `_get_keyword`. -/
inductive Keyword where
  | help | allnoconfigY | bool | choice | comment | config | defBool | defHex | defInt | defString
  | defTristate | default | defconfigList | depends | endchoice | endif | endmenu | env | orsource
  | osource | hex | if | imply | int | mainmenu | menu | menuconfig | modules | on | option
  | optional | prompt | range | rsource | select | source | string | tristate | visible
  deriving DecidableEq

/-- `_get_keyword`. -/
def keywords : List (List Char × Keyword) :=
  [("---help---".toList, .help), ("allnoconfig_y".toList, .allnoconfigY), ("bool".toList, .bool),
    ("boolean".toList, .bool), ("choice".toList, .choice), ("comment".toList, .comment),
    ("config".toList, .config), ("def_bool".toList, .defBool), ("def_hex".toList, .defHex),
    ("def_int".toList, .defInt), ("def_string".toList, .defString),
    ("def_tristate".toList, .defTristate), ("default".toList, .default),
    ("defconfig_list".toList, .defconfigList), ("depends".toList, .depends),
    ("endchoice".toList, .endchoice), ("endif".toList, .endif), ("endmenu".toList, .endmenu),
    ("env".toList, .env), ("grsource".toList, .orsource), ("gsource".toList, .osource),
    ("help".toList, .help), ("hex".toList, .hex), ("if".toList, .if), ("imply".toList, .imply),
    ("int".toList, .int), ("mainmenu".toList, .mainmenu), ("menu".toList, .menu),
    ("menuconfig".toList, .menuconfig), ("modules".toList, .modules), ("on".toList, .on),
    ("option".toList, .option), ("optional".toList, .optional), ("orsource".toList, .orsource),
    ("osource".toList, .osource), ("prompt".toList, .prompt), ("range".toList, .range),
    ("rsource".toList, .rsource), ("select".toList, .select), ("source".toList, .source),
    ("string".toList, .string), ("tristate".toList, .tristate), ("visible".toList, .visible)]

def getKeyword (name : List Char) : Option Keyword := keywords.lookup name

/-- A symbol: the tables `syms` and `const_syms` have one of each name. -/
structure Sym where
  name : List Char
  isConstant : Bool
  deriving DecidableEq

inductive Token where
  | keyword (k : Keyword)
  | sym (s : Sym)
  | str (val : List Char)
  | op (op : Op)
  | not
  | openParen
  | closeParen
  | rel (r : Rel)
  deriving DecidableEq

/-- The tokens after which a string is expected (`_STRING_LEX`). -/
def Token.stringLex : Token → Bool
  | .keyword k => [Keyword.bool, .choice, .comment, .hex, .int, .mainmenu, .menu, .orsource,
      .osource, .prompt, .rsource, .source, .string, .tristate].contains k
  | _ => false

/-! ## Strings -/

/-- `\s` in a regular expression. -/
def isBlank (c : Char) : Bool := c == ' ' || (9 ≤ c.toNat && c.toNat ≤ 13)

/-- The fast way: the text up to the next quote, and what is behind it. -/
def findQuote (quote : Char) : List Char → Option (List Char × List Char)
  | [] => none
  | c :: s => if c = quote then some ([], s) else (findQuote quote s).map fun r => (c :: r.1, r.2)

/-- `_expand_str`: a backslash is taken away, and the character behind it stays. -/
def expandStr (quote : Char) : List Char → Option (List Char × List Char)
  | [] => none
  | ['\\'] => none
  | '\\' :: c :: s => (expandStr quote s).map fun r => (c :: r.1, r.2)
  | '$' :: '(' :: _ => none
  | c :: s =>
    if c = quote then some ([], s) else (expandStr quote s).map fun r => (c :: r.1, r.2)

/-- A string: its value, the text that takes its place in the line, and the rest. -/
def readStr (before : List Char) (quote : Char) (rest : List Char) :
    Option (List Char × List Char) :=
  if (before ++ quote :: rest).contains '\\' || (before ++ quote :: rest).contains '$' then
    (expandStr quote rest).filter fun r => !r.1.contains '$'
  else findQuote quote rest

/-! ## One token -/

/-- `[A-Za-z0-9_$/.-]`. -/
def isNameChar (c : Char) : Bool := c.isAlphanum || "_$/.-".toList.contains c

/-- The operators and their lengths. -/
def operator : List Char → Option (Token × Nat)
  | '&' :: '&' :: _ => some (.op .and, 2)
  | '|' :: '|' :: _ => some (.op .or, 2)
  | '=' :: _ => some (.rel .equal, 1)
  | '!' :: '=' :: _ => some (.rel .unequal, 2)
  | '!' :: _ => some (.not, 1)
  | '(' :: _ => some (.openParen, 1)
  | ')' :: _ => some (.closeParen, 1)
  | '<' :: '=' :: _ => some (.rel .lessEqual, 2)
  | '<' :: _ => some (.rel .less, 1)
  | '>' :: '=' :: _ => some (.rel .greaterEqual, 2)
  | '>' :: _ => some (.rel .greater, 1)
  | _ => none

/-- A word that is no keyword: a symbol, or a string without its quotes. -/
def wordToken (prev : Token) (name : List Char) : Option Token :=
  match getKeyword name with
  | some k => some (.keyword k)
  | none =>
    if prev.stringLex then some (.str name)
    else if name.contains '$' then none
    else some (.sym ⟨name, name == ['y'] || name == ['m'] || name == ['n']⟩)

/-- A place in a line: the text before it, with the strings expanded, and the rest. -/
structure Cursor where
  before : List Char
  rest : List Char

/-- One token of the line whose first one is `first`, after `prev`. -/
def lexToken (first prev : Token) (cur : Cursor) : Option (Token × Cursor) :=
  let name := cur.rest.takeWhile isNameChar
  let behind := cur.rest.dropWhile isNameChar
  if name ≠ [] then
    (wordToken prev name).map fun token =>
      (token, ⟨cur.before ++ name ++ behind.takeWhile isBlank, behind.dropWhile isBlank⟩)
  else
    match cur.rest with
    | [] => none
    | c :: s =>
      if c = '"' ∨ c = '\'' then
        (readStr cur.before c s).map fun r =>
          (if prev.stringLex || first == .keyword .option then .str r.1 else .sym ⟨r.1, true⟩,
            ⟨cur.before ++ c :: r.1 ++ c :: r.2.takeWhile isSpace, r.2.dropWhile isSpace⟩)
      else
        (operator (c :: s)).map fun o =>
          let behind := (c :: s).drop o.2
          (o.1, ⟨cur.before ++ (c :: s).take o.2 ++ behind.takeWhile isSpace,
            behind.dropWhile isSpace⟩)

/-! ## The whole line -/

theorem length_dropWhile_le {α : Type*} (p : α → Bool) (l : List α) :
    (l.dropWhile p).length ≤ l.length := (List.dropWhile_suffix p).length_le

theorem length_findQuote {quote : Char} {s : List Char} {r : List Char × List Char}
    (h : findQuote quote s = some r) : r.2.length < s.length := by
  induction s generalizing r with
  | nil => cases h
  | cons c s ih =>
    rw [findQuote] at h
    split at h
    · cases h
      exact Nat.lt_succ_self _
    · obtain ⟨r', hr', rfl⟩ := Option.map_eq_some_iff.mp h
      have hlt := ih hr'
      exact Nat.lt_succ_of_lt hlt

theorem length_expandStr {quote : Char} {s : List Char} {r : List Char × List Char}
    (h : expandStr quote s = some r) : r.2.length < s.length := by
  fun_induction expandStr quote s generalizing r with
  | case1 => cases h
  | case2 => cases h
  | case3 c s ih =>
    obtain ⟨r', hr', rfl⟩ := Option.map_eq_some_iff.mp h
    have hlt := ih hr'
    simp only [List.length_cons]
    omega
  | case4 => cases h
  | case5 s =>
    cases h
    exact Nat.lt_succ_self _
  | case6 c s _ _ _ _ ih =>
    obtain ⟨r', hr', rfl⟩ := Option.map_eq_some_iff.mp h
    have hlt := ih hr'
    exact Nat.lt_succ_of_lt hlt

theorem length_operator {s : List Char} {o : Token × Nat} (h : operator s = some o) :
    (s.drop o.2).length < s.length := by
  unfold operator at h
  split at h
  all_goals
    cases h
    try simp
    try omega

theorem length_lexToken {first prev : Token} {cur : Cursor} {r : Token × Cursor}
    (h : lexToken first prev cur = some r) : r.2.rest.length < cur.rest.length := by
  rw [lexToken] at h
  split at h
  next hname =>
    obtain ⟨token, -, rfl⟩ := Option.map_eq_some_iff.mp h
    have hsplit := congrArg List.length
      (List.takeWhile_append_dropWhile (p := isNameChar) (l := cur.rest))
    have hpos := List.length_pos_iff.mpr hname
    have hle := length_dropWhile_le isBlank (cur.rest.dropWhile isNameChar)
    rw [List.length_append] at hsplit
    dsimp only
    omega
  next =>
    split at h
    · cases h
    next c s hrest =>
      rw [hrest]
      split at h
      · obtain ⟨r', hr', rfl⟩ := Option.map_eq_some_iff.mp h
        have hle := length_dropWhile_le isSpace r'.2
        have hlt : r'.2.length < s.length := by
          rw [readStr] at hr'
          split at hr'
          · exact length_expandStr (Option.filter_eq_some_iff.mp hr').1
          · exact length_findQuote hr'
        simp only [List.length_cons]
        omega
      · obtain ⟨o, ho, rfl⟩ := Option.map_eq_some_iff.mp h
        have hlt := length_operator ho
        have hle := length_dropWhile_le isSpace ((c :: s).drop o.2)
        dsimp only
        omega

/-- The tokens of the rest of the line; a comment ends it. -/
def lexAll (first prev : Token) (cur : Cursor) : Option (List Token) :=
  if cur.rest = [] then some []
  else if cur.rest.head? = some '#' then some []
  else
    match _h : lexToken first prev cur with
    | none => none
    | some (token, next) => (lexAll first token next).map (token :: ·)
termination_by cur.rest.length
decreasing_by exact length_lexToken _h

/-- `_tokenize` on a line that begins with a keyword. -/
def tokenize (s : List Char) : Option (List Token) :=
  let start := s.dropWhile isBlank
  let name := start.takeWhile fun c => c.isAlphanum || "_$-".toList.contains c
  let behind := start.dropWhile fun c => c.isAlphanum || "_$-".toList.contains c
  match getKeyword name with
  | none => none
  | some k =>
    (lexAll (.keyword k) (.keyword k)
      ⟨s.takeWhile isBlank ++ name ++ behind.takeWhile isBlank, behind.dropWhile isBlank⟩).map
        (.keyword k :: ·)

/-! ## The two ways to read a string -/

/-- **Without a backslash and a macro the fast way is right**: both ways find the same string
and the same rest of the line. -/
theorem find_eq_expandStr {quote : Char} {s : List Char} (hslash : '\\' ∉ s) (hdollar : '$' ∉ s) :
    findQuote quote s = expandStr quote s := by
  induction s with
  | nil => rfl
  | cons c s ih =>
    rw [List.mem_cons, not_or] at hslash hdollar
    rw [findQuote, ih hslash.2 hdollar.2, expandStr]
    · exact fun h => absurd h.symm hslash.1
    · exact fun _ _ h => absurd h.symm hslash.1
    · exact fun _ h => absurd h.symm hdollar.1

/-- `escape`: first the backslashes, then the quotes. -/
def escape (s : List Char) : List Char :=
  (s.flatMap fun c => if c = '\\' then ['\\', '\\'] else [c]).flatMap
    fun c => if c = '"' then ['\\', '"'] else [c]

theorem escape_cons (c : Char) (s : List Char) :
    escape (c :: s) = (if c = '\\' ∨ c = '"' then ['\\', c] else [c]) ++ escape s := by
  rw [escape, List.flatMap_cons, List.flatMap_append]
  congr 1
  by_cases hslash : c = '\\'
  · subst hslash
    rfl
  · by_cases hquote : c = '"'
    · subst hquote
      rfl
    · simp [hslash, hquote]

/-- The escapes are taken away again. -/
theorem expandStr_escape {s : List Char} (hdollar : '$' ∉ s) (rest : List Char) :
    expandStr '"' (escape s ++ '"' :: rest) = some (s, rest) := by
  induction s with
  | nil => rfl
  | cons c s ih =>
    rw [List.mem_cons, not_or] at hdollar
    rw [escape_cons, List.append_assoc]
    by_cases hc : c = '\\' ∨ c = '"'
    · rw [if_pos hc]
      show expandStr '"' ('\\' :: c :: (escape s ++ '"' :: rest)) = _
      rw [expandStr, ih hdollar.2]
      rfl
    · rw [if_neg hc]
      rw [not_or] at hc
      show expandStr '"' (c :: (escape s ++ '"' :: rest)) = _
      rw [expandStr, if_neg hc.2, ih hdollar.2]
      · rfl
      · exact fun h => absurd h hc.1
      · exact fun _ _ h => absurd h hc.1
      · exact fun _ h => absurd h.symm hdollar.1

/-- The string of an escaped text is read, whichever way is taken. -/
theorem readStr_escape (before : List Char) {s rest : List Char} (hdollar : '$' ∉ s) :
    readStr before '"' (escape s ++ '"' :: rest) = some (s, rest) := by
  have hslow := expandStr_escape hdollar rest
  rw [readStr]
  split
  · rw [hslow, Option.filter_eq_some_iff]
    exact ⟨rfl, by simpa using hdollar⟩
  next hfast =>
    rw [Bool.or_eq_true, not_or, List.contains_iff_mem, List.contains_iff_mem] at hfast
    have hsub : ∀ c, c ∉ before ++ '"' :: (escape s ++ '"' :: rest) →
        c ∉ escape s ++ '"' :: rest := fun c hc hmem =>
      hc (List.mem_append_right _ (List.mem_cons_of_mem _ hmem))
    rw [find_eq_expandStr (hsub _ hfast.1) (hsub _ hfast.2), hslow]

end Jhalfs.Menu
