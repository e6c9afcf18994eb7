import Mathlib.Data.List.Basic

/-!
# The words of a shell text

Whether a shell reads the letters of a command name as a word depends on all the text
before them: `make` is a word behind a blank, but not in `cmake`, and neither in a quoted
script, in a comment nor in a here-document, while the text of a `$(…)` or of backquotes is
read as commands again, even inside double quotes.

- `Frame` is what the text stands in: quotes, expansions, brackets, a comment, a
  here-document. The frames that are open form a stack, as they nest.
- `Lexer` is the state between two characters: the stack, whether a word can begin, and the
  beginnings of operators and here-documents that are still to be completed.
- `step` reads one character, by the innermost frame, and `lex` is the fold of `step` over
  a text. A here-document is announced by `<<` and its delimiter (`Frame.name`), waits for
  the end of the line, and is left with the line that is the delimiter.
- `wordAt u` says that a word can begin behind the text `u`, and `endsWord u v` that a word
  that stands behind `u` is at its end before `v`.

A word is taken as it is spelled: `\make` and `ma''ke`, which the shell reads as `make`
too, are other words here. Left out are `((…))` as a command, a `)` that ends a pattern of
`case` inside of `$(…)`, escaped backquotes inside of backquotes, and quotes that are
quoted in the delimiter of a here-document.
-/

namespace Jhalfs.ShellWords

/-! ## The frames -/

/-- A here-document: whether its delimiter is quoted, so that nothing is expanded in it,
whether tabs before its lines are dropped (`<<-`), and the delimiter. -/
structure Document where
  quoted : Bool
  tabs : Bool
  delimiter : List Char
  deriving DecidableEq

/-- What a text can stand in. -/
inductive Frame where
  /-- `'…'` -/
  | single
  /-- `$'…'`, where a backslash escapes. -/
  | ansi
  /-- `"…"` -/
  | double
  /-- `${…}` -/
  | parameter
  /-- `$((…))`, a frame for each bracket. -/
  | arithmetic
  /-- From `#` to the end of the line. -/
  | comment
  /-- Behind `<<` or `<<-`, up to the end of the delimiter. -/
  | name (tabs : Bool)
  | document (d : Document)
  | backquote
  /-- `$(…)`, `<(…)` and `>(…)`, which are parts of a word. -/
  | substitution
  /-- `(…)`, which ends a word. -/
  | subshell
  deriving DecidableEq

/-- Commands are read in the frame, so that a word can begin where it is entered. -/
def Frame.isCommand : Frame → Bool
  | .backquote | .substitution | .subshell => true
  | _ => false

/-- The state of the lexer between two characters. -/
structure Lexer where
  /-- The open frames, the innermost one first. -/
  frames : List Frame
  /-- A word can begin here. -/
  start : Bool
  /-- The last character is a backslash that escapes the next one. -/
  escaped : Bool
  /-- The last characters, if they can be the beginning of an operator: `$`, `$(`, `<`,
  `<<`, `<<<` or `>`. -/
  operator : List Char
  /-- The here-documents that begin with the next line. -/
  pending : List Document
  /-- The characters since the last line end, or since the last `<<`. -/
  line : List Char

/-- Before the first character. -/
def Lexer.init : Lexer := ⟨[], true, false, [], [], []⟩

/-- A blank, a line end or a character of an operator: unquoted, it ends a word. -/
def isMeta (c : Char) : Bool := " \t\n;&|()<>".toList.contains c

/-! ## Reading a character -/

namespace Lexer

def enter (f : Frame) (s : Lexer) : Lexer :=
  { s with frames := f :: s.frames, start := f.isCommand }

def leave (s : Lexer) : Lexer := { s with frames := s.frames.tail }

/-- A backquote closes the innermost open one, with all that was opened in it. -/
def backquote (s : Lexer) : Lexer :=
  if s.frames.contains .backquote then
    { s with frames := (s.frames.dropWhile (· != .backquote)).tail }
  else s.enter .backquote

/-- The next line begins: the text of a here-document, or commands. -/
def newline (s : Lexer) : Lexer :=
  match s.pending with
  | d :: ds => { s.enter (.document d) with pending := ds }
  | [] => { s with start := true }

/-- Read a character of an expansion, behind the operator `op`; other characters leave the
text in its frame. -/
def expansion (op : List Char) (s : Lexer) (c : Char) : Lexer :=
  match op, c with
  | ['$'], '(' => { s.enter .substitution with operator := "$(".toList }
  | ['$', '('], '(' => { s with frames := .arithmetic :: .arithmetic :: s.frames.tail }
  | ['$'], '{' => s.enter .parameter
  | _, '`' => s.backquote
  | _, '$' => { s with operator := ['$'] }
  | _, '\\' => { s with escaped := true }
  | _, _ => s

/-- Read a character of the commands, behind the operator `op`; `start` says whether a word
can begin before it. -/
def command (op : List Char) (start : Bool) (s : Lexer) (c : Char) : Lexer :=
  match c with
  | '\'' => if op = ['$'] then s.enter .ansi else s.enter .single
  | '"' => s.enter .double
  | '\\' => { s with escaped := true, start := start }
  | '#' => if start then s.enter .comment else s
  | '\n' => s.newline
  | ' ' | '\t' | ';' | '&' | '|' => { s with start := true }
  | '>' => { s with start := true, operator := ['>'] }
  | '<' =>
    if op = ['<'] then { s with operator := "<<".toList }
    else if op = "<<".toList then { s with start := true, operator := "<<<".toList }
    else { s with start := true, operator := ['<'] }
  | '(' =>
    if op = ['$'] ∨ op = "$(".toList then s.expansion op c
    else if op = ['<'] ∨ op = ['>'] then s.enter .substitution
    else s.enter .subshell
  | ')' =>
    match s.frames.head? with
    | some .substitution => s.leave
    | some .subshell => { s.leave with start := true }
    -- the end of a pattern of `case`
    | _ => { s with start := true }
  | _ => s.expansion op c

/-- The here-document whose delimiter has been read with its quotes. -/
def announce (tabs : Bool) (word : List Char) (s : Lexer) : Lexer :=
  let isQuote := fun c => c == '\'' || c == '"' || c == '\\'
  { s.leave with pending := s.pending ++ [⟨word.any isQuote, tabs, word.filter (!isQuote ·)⟩] }

/-- Read a character behind `<<`, where `word` is the delimiter so far. -/
def naming (tabs : Bool) (word : List Char) (s : Lexer) (c : Char) : Lexer :=
  match c with
  | '\'' => s.enter .single
  | '"' => s.enter .double
  | '\\' => { s with escaped := true }
  | _ =>
    if !isMeta c then s
    else if word.isEmpty then { s with line := [] }
    else (s.announce tabs word).command [] true c

/-- Read a character of the line `line` of a here-document. -/
def reading (d : Document) (op line : List Char) (s : Lexer) (c : Char) : Lexer :=
  if c = '\n' then
    if (if d.tabs then line.dropWhile (· == '\t') else line) = d.delimiter then s.leave.newline
    else s
  else if d.quoted then s
  else s.expansion op c

/-- Read a character by the innermost frame. -/
def inFrame (op line : List Char) (start : Bool) (s : Lexer) (c : Char) : Lexer :=
  match s.frames.head? with
  | some .single => if c = '\'' then s.leave else s
  | some .ansi =>
    if c = '\'' then s.leave else if c = '\\' then { s with escaped := true } else s
  | some .double => if c = '"' then s.leave else s.expansion op c
  | some .parameter =>
    match c with
    | '}' => s.leave
    | '"' => s.enter .double
    -- in double quotes, a single quote of a parameter is none
    | '\'' => if s.frames.contains .double then s else s.enter .single
    | _ => s.expansion op c
  | some .arithmetic =>
    if c = ')' then s.leave
    else if c = '(' ∧ op ≠ ['$'] then s.enter .arithmetic
    else s.expansion op c
  | some .comment => if c = '\n' then s.leave.newline else s
  | some (.name tabs) => s.naming tabs line c
  | some (.document d) => s.reading d op line c
  | _ =>
    -- behind `<<` the delimiter of a here-document begins
    if op = "<<".toList ∧ c ≠ '<' then
      if c = '-' then { s.enter (.name true) with line := [] }
      else { (s.enter (.name false)).naming false [] c with line := if isMeta c then [] else [c] }
    else s.command op start c

/-- What is known of the state behind a character, if its frame says nothing else: no word
begins there. -/
def next (s : Lexer) (c : Char) : Lexer :=
  { s with
    start := false
    escaped := false
    operator := []
    line := if c = '\n' && !s.escaped then [] else s.line ++ [c] }

/-- Read one character. -/
def step (s : Lexer) (c : Char) : Lexer :=
  -- a line end that is escaped is no part of the text
  if s.escaped then { s.next c with start := s.start && c == '\n' }
  else if c = '`' ∧ s.frames.contains .backquote then (s.next c).backquote
  else (s.next c).inFrame s.operator s.line s.start c

end Lexer

/-- Read a text. -/
def lex (u : List Char) : Lexer := u.foldl Lexer.step .init

/-! ## Words -/

/-- A word can begin behind the text. -/
def wordAt (u : List Char) : Bool := (lex u).start && !(lex u).escaped

/-- A word that stands behind the text `u` is at its end before `v`: a line end that is
escaped is no part of the text, and a backquote can be the end of a command. -/
def endsWord (u : List Char) : List Char → Bool
  | [] => true
  | '\\' :: '\n' :: v => endsWord u v
  | c :: _ => isMeta c || c == '`' && (lex u).frames.contains .backquote

theorem lex_concat (u : List Char) (c : Char) : lex (u ++ [c]) = (lex u).step c := by
  rw [lex, List.foldl_concat]
  rfl

section Quote

variable {s : Lexer} (hs : s.start = false)

include hs

namespace Lexer

/-- No expansion begins with a single quote. -/
theorem start_expansion_quote (op : List Char) : (s.expansion op '\'').start = false := by
  unfold expansion
  split <;> first | exact hs | (rename_i h; exact absurd h (by decide))

omit hs in
theorem start_command_quote (op : List Char) (start : Bool) :
    (s.command op start '\'').start = false := by
  show (if op = ['$'] then s.enter .ansi else s.enter .single).start = false
  split <;> rfl

theorem start_reading_quote (d : Document) (op line : List Char) :
    (s.reading d op line '\'').start = false := by
  rw [reading, if_neg (by decide)]
  split
  · exact hs
  · exact start_expansion_quote hs op

/-- A single quote opens a frame or closes one, or is a character of its frame. -/
theorem start_inFrame_quote (op line : List Char) (start : Bool) :
    (s.inFrame op line start '\'').start = false := by
  unfold inFrame
  split
  · exact hs
  · exact hs
  · exact start_expansion_quote hs op
  · show (if s.frames.contains .double then s else s.enter .single).start = false
    split
    · exact hs
    · rfl
  · rw [if_neg (by decide), if_neg fun h => absurd h.1 (by decide)]
    exact start_expansion_quote hs op
  · exact hs
  · rfl
  · exact start_reading_quote hs _ op line
  · split
    · rfl
    · exact start_command_quote op start

end Lexer

end Quote

/-- No word begins directly behind a single quote. -/
theorem wordAt_quote (u : List Char) : wordAt (u ++ ['\'']) = false := by
  have hstart : ((lex u).step '\'').start = false := by
    unfold Lexer.step
    split
    · exact Bool.and_false _
    · rw [if_neg fun h => absurd h.1 (by decide)]
      exact Lexer.start_inFrame_quote rfl _ _ _
  rw [wordAt, lex_concat, hstart]
  rfl

-- the words of a quoted script, of a here-document and of a comment are none, and the text
-- of backquotes is read as commands, also in double quotes
example : wordAt "sed -i 's/ ".toList = false := by decide
example : wordAt "cat > notes << EOF\n".toList = false := by decide
example : wordAt "cat > notes << EOF\nmake\nEOF\n".toList = true := by decide
example : wordAt "cd doc # no ".toList = false := by decide
example : wordAt "echo \"in `".toList = true := by decide

end Jhalfs.ShellWords
