import Mathlib.Data.List.Basic
import Mathlib.Logic.Function.Basic
import Jhalfs.Base.Words

/-!
# Assignments in a shell script

A script of comments and assignments, read by a shell character by character. The value of an
assignment is a word with quoted and unquoted parts.

- `Reading`: where the shell is; `execute`: the variables at the end of the script. A script with
  something else in it, or with an expansion, has no result here.
- `Quoted`: what a text in double quotes stands for. A backslash is removed in front of the
  characters that are active there, and stays in front of the others.
- **`source_plain`**, **`source_quoted`**: one line of a script sets one variable, and the rest of
  the script is read with it. With these a script that some program writes line by line is
  executed by induction over its lines; `source_comment` passes over the lines between them.
- `words`: the words of an expansion without quotes; **`words_joined`**: words with blanks between
  them are these words.

The lemmas on `execute` go part by part: the name up to the `=` (`execute_name`), the plain
characters of a value (`execute_plain`), a value in quotes (`execute_quoted`). Each says what the
part does in front of any rest of a script, so they compose by rewriting.
-/

namespace Jhalfs.Shell

/-- The variables that are set, with their values; a variable that is not set has none. -/
abbrev Env := List Char → Option (List Char)

/-- `$name` -/
def Env.get (vars : Env) (name : List Char) : List Char := (vars name).getD []

/-- `${name:-word}`: the word stands for a variable that is not set, or empty. -/
def Env.getD (vars : Env) (name word : List Char) : List Char :=
  if vars.get name = [] then word else vars.get name

def Env.set (vars : Env) (name val : List Char) : Env := Function.update vars name (some val)

/-- A character that is active nowhere in a word. -/
def isPlain (c : Char) : Bool := c.isAlphanum || "_@%+=:,./-".toList.contains c

/-- What a backslash escapes in double quotes. -/
def isActive (c : Char) : Bool := "$`\"\\".toList.contains c

/-- The names of variables. -/
def isName (name : List Char) : Bool :=
  name.all (fun c => c.isAlphanum || c == '_') && name.head?.any fun c => !c.isDigit

/-- Where the shell is in a script: at the beginning of a line, in a comment, in the name of a
variable or in its value, which may be in double quotes or behind a backslash in these. -/
inductive Reading where
  | start
  | comment
  | name (name : List Char)
  | value (name val : List Char)
  | quoted (name val : List Char)
  | escaped (name val : List Char)

/-- The variables after the rest of a script. There is no result where the shell would do
something else than assign: a command, an expansion, an unquoted character that is active. -/
def execute : Reading → Env → List Char → Option Env
  | .start, vars, [] | .comment, vars, [] => some vars
  | .name _, _, [] | .quoted .., _, [] | .escaped .., _, [] => none
  | .value name val, vars, [] => some (vars.set name val)
  | .start, vars, c :: s =>
    if c = '\n' then execute .start vars s
    else if c = '#' then execute .comment vars s
    else execute (.name [c]) vars s
  | .comment, vars, c :: s => execute (if c = '\n' then .start else .comment) vars s
  | .name name, vars, c :: s =>
    if c = '=' then if isName name then execute (.value name []) vars s else none
    else execute (.name (name ++ [c])) vars s
  | .value name val, vars, c :: s =>
    if c = '\n' then execute .start (vars.set name val) s
    else if c = '"' then execute (.quoted name val) vars s
    else if isPlain c then execute (.value name (val ++ [c])) vars s
    else none
  | .quoted name val, vars, c :: s =>
    if c = '"' then execute (.value name val) vars s
    else if c = '\\' then execute (.escaped name val) vars s
    else if isActive c then none
    else execute (.quoted name (val ++ [c])) vars s
  | .escaped name val, vars, c :: s =>
    if c = '\n' then execute (.quoted name val) vars s
    else execute (.quoted name (val ++ if isActive c then [c] else ['\\', c])) vars s

/-- `source`, and `eval` of a text. -/
def source (vars : Env) (script : List Char) : Option Env := execute .start vars script

/-! ## Parts of a script -/

theorem execute_comment (vars : Env) {line : List Char} (h : '\n' ∉ line) (s : List Char) :
    execute .comment vars (line ++ '\n' :: s) = execute .start vars s := by
  induction line with
  | nil => rfl
  | cons c line ih =>
    rw [List.mem_cons, not_or] at h
    rw [List.cons_append, execute, if_neg (Ne.symm h.1), ih h.2]

/-- A line with a comment. -/
theorem source_comment (vars : Env) {line : List Char} (h : '\n' ∉ line) (s : List Char) :
    source vars ('#' :: (line ++ '\n' :: s)) = source vars s :=
  execute_comment vars h s

theorem execute_name (vars : Env) {rest : List Char} (h : '=' ∉ rest) (name s : List Char) :
    execute (.name name) vars (rest ++ '=' :: s) =
      if isName (name ++ rest) then execute (.value (name ++ rest) []) vars s else none := by
  induction rest generalizing name with
  | nil => simp [execute]
  | cons c rest ih =>
    rw [List.mem_cons, not_or] at h
    rw [List.cons_append, execute, if_neg (Ne.symm h.1), ih h.2, List.append_assoc,
      List.singleton_append]

/-- The first character of a name is no digit, and neither `#` nor a line end. -/
theorem isName_cons {c : Char} {name : List Char} (h : isName (c :: name) = true) :
    c ≠ '\n' ∧ c ≠ '#' ∧ '=' ∉ c :: name := by
  simp only [isName, Bool.and_eq_true, List.all_eq_true] at h
  have hword : ∀ d ∈ c :: name, d.isAlphanum = true ∨ d = '_' := by
    intro d hd
    simpa using h.1 d hd
  refine ⟨?_, ?_, fun hmem => ?_⟩
  · rintro rfl
    exact absurd (hword _ List.mem_cons_self) (by decide)
  · rintro rfl
    exact absurd (hword _ List.mem_cons_self) (by decide)
  · exact absurd (hword _ hmem) (by decide)

theorem newline_notMem_of_isName {name : List Char} (h : isName name = true) : '\n' ∉ name := by
  simp only [isName, Bool.and_eq_true, List.all_eq_true] at h
  intro hmem
  exact absurd (h.1 _ hmem) (by decide)

/-- The beginning of an assignment. -/
theorem source_name (vars : Env) {name : List Char} (h : isName name = true) (s : List Char) :
    source vars (name ++ '=' :: s) = execute (.value name []) vars s := by
  cases name with
  | nil => cases h
  | cons c name =>
    obtain ⟨hnewline, hhash, hequals⟩ := isName_cons h
    rw [List.mem_cons, not_or] at hequals
    rw [List.cons_append, source, execute, if_neg hnewline, if_neg hhash, execute_name _ hequals.2]
    show (if isName (c :: name) then execute (.value (c :: name) []) vars s else none) = _
    rw [if_pos h]

theorem isPlain_ne {c : Char} (h : isPlain c = true) : c ≠ '\n' ∧ c ≠ '"' := by
  constructor
  all_goals
    rintro rfl
    revert h
    decide

theorem execute_plain (vars : Env) (name : List Char) {word : List Char}
    (h : ∀ c ∈ word, isPlain c = true) (val s : List Char) :
    execute (.value name val) vars (word ++ s) = execute (.value name (val ++ word)) vars s := by
  induction word generalizing val with
  | nil => rw [List.append_nil, List.nil_append]
  | cons c word ih =>
    rw [List.forall_mem_cons] at h
    obtain ⟨hnewline, hquote⟩ := isPlain_ne h.1
    rw [List.cons_append, execute, if_neg hnewline, if_neg hquote, if_pos h.1, ih h.2,
      List.append_assoc, List.singleton_append]

/-- What a text in double quotes stands for, if nothing is expanded in it: each active character
is behind a backslash, which is removed. -/
inductive Quoted : List Char → List Char → Prop
  | nil : Quoted [] []
  | plain {c : Char} {body val : List Char} (hc : isActive c = false) (h : Quoted body val) :
    Quoted (c :: body) (c :: val)
  | escaped {c : Char} {body val : List Char} (hc : isActive c = true) (h : Quoted body val) :
    Quoted ('\\' :: c :: body) (c :: val)

theorem execute_body (vars : Env) (name : List Char) {body val : List Char}
    (h : Quoted body val) (before s : List Char) :
    execute (.quoted name before) vars (body ++ '"' :: s) =
      execute (.value name (before ++ val)) vars s := by
  induction h generalizing before with
  | nil =>
    rw [List.append_nil, List.nil_append, execute]
    rfl
  | @plain c body val hc _ ih =>
    have hquote : c ≠ '"' := by
      rintro rfl
      revert hc
      decide
    have hback : c ≠ '\\' := by
      rintro rfl
      revert hc
      decide
    rw [List.cons_append, execute, if_neg hquote, if_neg hback, if_neg (by simp [hc]), ih,
      List.append_assoc, List.singleton_append]
  | @escaped c body val hc _ ih =>
    have hnewline : c ≠ '\n' := by
      rintro rfl
      revert hc
      decide
    rw [List.cons_append, List.cons_append, execute, if_neg (by decide), if_pos rfl, execute,
      if_neg hnewline, if_pos hc, ih, List.append_assoc, List.singleton_append]

/-- A value in double quotes. -/
theorem execute_quoted (vars : Env) (name : List Char) {body val : List Char}
    (h : Quoted body val) (s : List Char) :
    execute (.value name []) vars ('"' :: (body ++ '"' :: s)) =
      execute (.value name val) vars s := by
  show execute (.quoted name []) vars (body ++ '"' :: s) = _
  rw [execute_body vars name h, List.nil_append]

/-- **A line with a plain value** sets the variable to it: the shell reads the characters up to the
line end as they are. -/
theorem source_plain (vars : Env) {name val : List Char} (hname : isName name = true)
    (hval : ∀ c ∈ val, isPlain c = true) (s : List Char) :
    source vars (name ++ '=' :: (val ++ '\n' :: s)) = source (vars.set name val) s := by
  rw [source_name vars hname, execute_plain vars name hval]
  rfl

/-- **A line with a value in double quotes** sets the variable to what the quotes stand for,
with the escapes taken away. -/
theorem source_quoted (vars : Env) {name body val : List Char} (hname : isName name = true)
    (hval : Quoted body val) (s : List Char) :
    source vars (name ++ '=' :: '"' :: (body ++ '"' :: '\n' :: s)) =
      source (vars.set name val) s := by
  rw [source_name vars hname, execute_quoted vars name hval]
  rfl

/-- An assignment of a plain value at the end of a script. -/
theorem source_plain_end (vars : Env) {name val : List Char} (hname : isName name = true)
    (hval : ∀ c ∈ val, isPlain c = true) :
    source vars (name ++ '=' :: val) = some (vars.set name val) := by
  have hword := execute_plain vars name hval [] []
  rw [List.append_nil] at hword
  rw [source_name vars hname, hword]
  rfl

theorem source_quoted_end (vars : Env) {name body val : List Char} (hname : isName name = true)
    (hval : Quoted body val) :
    source vars (name ++ '=' :: '"' :: (body ++ ['"'])) = some (vars.set name val) := by
  rw [source_name vars hname, execute_quoted vars name hval]
  rfl

theorem isActive_iff {c : Char} : isActive c = true ↔ c ∈ ['$', '\x60', '"', '\\'] :=
  List.contains_iff_mem

theorem isActive_of_isPlain {c : Char} (h : isPlain c = true) : isActive c = false := by
  by_contra hactive
  have hmem := isActive_iff.mp ((Bool.not_eq_false _).mp hactive)
  simp only [List.mem_cons, List.not_mem_nil, or_false] at hmem
  rcases hmem with rfl | rfl | rfl | rfl
  all_goals exact absurd h (by decide)

theorem quoted_of_plain {val : List Char} (h : ∀ c ∈ val, isPlain c = true) : Quoted val val := by
  induction val with
  | nil => exact .nil
  | cons c val ih =>
    rw [List.forall_mem_cons] at h
    exact .plain (isActive_of_isPlain h.1) (ih h.2)

/-! ## Words -/

/-- The characters of `IFS`. -/
def isIfs (c : Char) : Bool := c == ' ' || c == '\t' || c == '\n'

/-- The words of an expansion without quotes, split at the characters of `IFS`. A word that may
stand for the names of files has no result here. -/
def words (s : List Char) : Option (List (List Char)) :=
  if s.any fun c => "*?[".toList.contains c then none
  else some ((s.splitOnP isIfs).filter fun w => !w.isEmpty)

/-- A character that splits no word and stands for no files. -/
def isInWord (c : Char) : Bool := !isIfs c && !"*?[".toList.contains c

theorem isInWord_of_isPlain {c : Char} (h : isPlain c = true) : isInWord c = true := by
  by_contra hnot
  have hmem : c ∈ [' ', '\t', '\n', '*', '?', '['] := by
    revert hnot
    simp [isInWord, isIfs]
    tauto
  simp only [List.mem_cons, List.not_mem_nil, or_false] at hmem
  rcases hmem with rfl | rfl | rfl | rfl | rfl | rfl
  all_goals exact absurd h (by decide)

theorem isIfs_of_isInWord {c : Char} (h : isInWord c = true) : isIfs c = false := by
  rw [isInWord, Bool.and_eq_true] at h
  simpa using h.1

theorem mem_joined {c : Char} {ws : List (List Char)} (h : c ∈ Text.joined ' ' ws) :
    c = ' ' ∨ ∃ w ∈ ws, c ∈ w := by
  induction ws with
  | nil => cases h
  | cons w ws ih =>
    cases ws with
    | nil => exact Or.inr ⟨w, List.mem_cons_self, Text.joined_singleton ' ' w ▸ h⟩
    | cons v ws =>
      rw [Text.joined_cons_cons, List.mem_append, List.mem_cons] at h
      rcases h with h | h | h
      · exact Or.inr ⟨w, List.mem_cons_self, h⟩
      · exact Or.inl h
      · exact (ih h).imp_right fun ⟨u, hu, hc⟩ => ⟨u, List.mem_cons_of_mem _ hu, hc⟩

/-- Words with blanks between them. -/
theorem words_joined {ws : List (List Char)}
    (h : ∀ w ∈ ws, w ≠ [] ∧ ∀ c ∈ w, isInWord c = true) :
    words (Text.joined ' ' ws) = some ws := by
  have hsplit : ((Text.joined ' ' ws).splitOnP isIfs).filter (fun w => !w.isEmpty) = ws := by
    induction ws with
    | nil => rfl
    | cons w ws ih =>
      rw [List.forall_mem_cons] at h
      have hblank : ∀ c ∈ w, isIfs c = false := fun c hc => isIfs_of_isInWord (h.1.2 c hc)
      have hne : (!w.isEmpty) = true := by simpa using h.1.1
      cases ws with
      | nil =>
        rw [Text.joined_singleton, List.splitOnP_eq_singleton hblank, List.filter_cons, if_pos hne]
        rfl
      | cons v ws =>
        rw [Text.joined_cons_cons, List.splitOnP_append_cons_of_forall_mem hblank ' ' rfl,
          List.filter_cons, if_pos hne, ih h.2]
  rw [words, hsplit, if_neg]
  rw [List.any_eq_true]
  rintro ⟨c, hc, hmem⟩
  rcases mem_joined hc with rfl | ⟨w, hw, hc⟩
  · revert hmem
    decide
  · have hword := (h w hw).2 c hc
    rw [isInWord, hmem, Bool.and_eq_true] at hword
    cases hword.2

/-- A text without a blank is one word. -/
theorem words_of_word {s : List Char} (hne : s ≠ []) (h : ∀ c ∈ s, isInWord c = true) :
    words s = some [s] := by
  have hwords := words_joined (List.forall_mem_singleton.mpr ⟨hne, h⟩)
  rwa [Text.joined_singleton] at hwords

end Jhalfs.Shell
