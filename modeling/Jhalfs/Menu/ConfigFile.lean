import Jhalfs.Base.Text
import Jhalfs.Base.Cut
import Jhalfs.Menu.Print

/-!
# The configuration file

The menu writes the values of the symbols to a file (`_config_contents` and `config_string`,
src/menu/kconfiglib.py) and reads such a file when it starts (`_load_config`). The prefix of
the names is empty, as the Makefiles call the menu with `CONFIG_=""`. This module is about the
text of the file; what its settings do to a menu is in `Menu.Reload`.

- `Node.walk`: the symbols, menus and comments in the order they are written, as `Chunk`s. A symbol
  is written once.
- `configString` and `configContents`: the line of a symbol, and the text of the file.
- `setMatch`, `unsetMatch` and `confStringMatch`: the three regular expressions of the reader.
- `loadLine` and `loadConfig`: the setting that is read from a line, and those of the file.
- `ReadsUnset`: a title that reads like the line of a symbol that is not set. A comment
  `# SUDO is not set` is such a line, whoever has written it.
- `Chunk.Wf`: what can be written. A value stands on one line and fits the type of its symbol,
  and no title reads like the line of a symbol that could be unset.

**Main result**: `loadConfig_configContents`. The settings that are read are those that were
written, in their order. A line of a symbol is read as it is written (`loadLine_configLine`),
and the texts of menus and comments, which stand between them, set nothing (`loadLine_comment`).
-/

namespace Jhalfs.Menu

open Text

/-! ## Writing -/

/-- The value of a symbol that is written: a tristate, a number, or a string. -/
inductive Written where
  | tri (val : Tri)
  | number (val : List Char)
  | string (val : List Char)
  deriving DecidableEq

/-- `TRI_TO_STR`. -/
def triToStr (val : Tri) : List Char := if val = 0 then ['n'] else if val = 1 then ['m'] else ['y']

/-- `Symbol.config_string`. -/
def configString (name : List Char) : Written → List Char
  | .tri val =>
    if val ≠ 0 then name ++ '=' :: (triToStr val ++ ['\n'])
    else "# ".toList ++ name ++ " is not set\n".toList
  | .number val => name ++ '=' :: (val ++ ['\n'])
  | .string val => name ++ '=' :: '"' :: (escape val ++ "\"\n".toList)

/-- The nodes of the menu. A menu and a comment are visible or not; a symbol has a value that
is written or none (`_write_to_conf`). -/
inductive Node where
  | symbol (name : List Char) (conf : Option Written) (list : List Node)
  | choice (list : List Node)
  | menu (title : List Char) (visible : Bool) (list : List Node)
  | comment (title : List Char) (visible : Bool)

/-- What is written for the nodes, in order: the line of a symbol, the title of a menu or
comment, and the end of a menu. -/
inductive Chunk where
  | entry (name : List Char) (val : Written)
  | heading (title : List Char)
  | endOf (title : List Char)

mutual

/-- The walk of `_config_contents`; `visited` are the symbols it has come across. -/
def Node.walk (visited : List (List Char)) : Node → List Chunk × List (List Char)
  | .symbol name conf list =>
    let entry := if visited.contains name then [] else (conf.map (Chunk.entry name)).toList
    let below := walkAll (if visited.contains name then visited else name :: visited) list
    (entry ++ below.1, below.2)
  | .choice list => walkAll visited list
  | .menu title visible list =>
    let below := walkAll visited list
    ((if visible then [.heading title] else []) ++ below.1 ++
      (if visible && !list.isEmpty then [.endOf title] else []), below.2)
  | .comment title visible => (if visible then [.heading title] else [], visited)

def walkAll (visited : List (List Char)) : List Node → List Chunk × List (List Char)
  | [] => ([], visited)
  | node :: nodes =>
    let first := node.walk visited
    let rest := walkAll first.2 nodes
    (first.1 ++ rest.1, rest.2)

end

/-- The text of the chunks. A blank line separates a symbol from the end of a menu. -/
def chunksText : Bool → List Chunk → List Char
  | _, [] => []
  | afterEnd, .entry name val :: chunks =>
    (if afterEnd then ['\n'] else []) ++ configString name val ++ chunksText false chunks
  | _, .heading title :: chunks =>
    "\n#\n# ".toList ++ title ++ "\n#\n".toList ++ chunksText false chunks
  | _, .endOf title :: chunks =>
    "# end of ".toList ++ title ++ ['\n'] ++ chunksText true chunks

/-- `_config_contents`. -/
def configContents (header : List Char) (nodes : List Node) : List Char :=
  header ++ chunksText false (walkAll [] nodes).1

/-! ## Reading -/

/-- `([^=]+)=(.*)` -/
def setMatch (line : List Char) : Option (List Char × List Char) :=
  match line.span (· != '=') with
  | (name, _ :: val) => if name = [] then none else some (name, val)
  | (_, []) => none

/-- `# ([^ ]+) is not set` -/
def unsetMatch (line : List Char) : Option (List Char) :=
  match line with
  | '#' :: ' ' :: s =>
    match s.span (· != ' ') with
    | (name, rest) => if name ≠ [] ∧ " is not set".toList.isPrefixOf rest then some name else none
  | _ => none

/-- `"((?:[^\\"]|\\.)*)"`: what is between the quotes. -/
def confStringMatch : List Char → Option (List Char)
  | '"' :: s => quoted s
  | _ => none
where
  quoted : List Char → Option (List Char)
    | [] => none
    | ['\\'] => none
    | '\\' :: c :: s => (quoted s).map fun r => '\\' :: c :: r
    | c :: s => if c = '"' then some [] else (quoted s).map (c :: ·)

/-- `unescape`. -/
def unescape : List Char → List Char
  | [] => []
  | ['\\'] => ['\\']
  | '\\' :: c :: s => c :: unescape s
  | c :: s => c :: unescape s

/-- What a symbol is set to by a line. -/
structure Setting where
  name : List Char
  val : List Char
  deriving DecidableEq

/-- The value of an assignment to a symbol of the type; `none` when it is ignored. -/
def assigned (type : SymType) (val : List Char) : Option (List Char) :=
  match type with
  | .bool => (val.head?.filter fun c => c == 'y' || c == 'n').map fun c => [c]
  | .tristate => (val.head?.filter fun c => c == 'y' || c == 'm' || c == 'n').map fun c => [c]
  | .string => (confStringMatch val).map unescape
  | _ => some val

/-- `line.rstrip()`. -/
def rstrip (line : List Char) : List Char := (line.reverse.dropWhile isSpace).reverse

/-- One line of the file: the symbols that are defined have a type. -/
def loadLine (defined : List Char → Option SymType) (line : List Char) : Option Setting :=
  match setMatch (rstrip line) with
  | some (name, val) =>
    match defined name with
    | some type => (assigned type val).map (Setting.mk name)
    | none => none
  | none =>
    match unsetMatch (rstrip line) with
    | some name =>
      match defined name with
      | some type => if type = .bool ∨ type = .tristate then some ⟨name, ['n']⟩ else none
      | none => none
    | none => none

/-- The line ends of a file that is opened for reading. -/
def universalNewlines : List Char → List Char
  | [] => []
  | '\r' :: '\n' :: s => '\n' :: universalNewlines s
  | c :: s => (if c = '\r' then '\n' else c) :: universalNewlines s

/-- `_load_config`: the calls of `set_value`, in order. -/
def loadConfig (defined : List Char → Option SymType) (text : List Char) : List Setting :=
  (lines (universalNewlines text)).filterMap (loadLine defined)

/-! ## One line -/

theorem rstrip_concat {line : List Char} {c : Char} (h : isSpace c = false) :
    rstrip (line ++ [c]) = line ++ [c] := by
  rw [rstrip, List.reverse_append, List.reverse_singleton, List.singleton_append,
    List.dropWhile_cons, h]
  simp

theorem rstrip_prefix (line : List Char) : rstrip line <+: line := by
  rw [rstrip, ← List.reverse_suffix, List.reverse_reverse]
  exact List.dropWhile_suffix _

theorem span_append_cons {p : Char → Bool} {s t : List Char} {c : Char}
    (hs : ∀ d ∈ s, p d = true) (hc : p c = false) :
    (s ++ c :: t).span p = (s, c :: t) := by
  rw [List.span_eq_takeWhile_dropWhile, List.takeWhile_append_of_pos hs,
    List.dropWhile_append_of_pos hs, List.takeWhile_cons, List.dropWhile_cons, hc]
  simp

/-- The name of an assignment ends at its first `=`. -/
theorem setMatch_append {name val : List Char} (hne : name ≠ []) (hname : '=' ∉ name) :
    setMatch (name ++ '=' :: val) = some (name, val) := by
  rw [setMatch, span_append_cons (fun d hd => ?_) (by decide)]
  · exact if_neg hne
  · exact bne_iff_ne.mpr fun heq => hname (heq ▸ hd)

theorem setMatch_of_notMem {line : List Char} (h : '=' ∉ line) : setMatch line = none := by
  have hspan : line.span (· != '=') = (line, []) := by
    have hall : ∀ d ∈ line, (d != '=') = true := fun d hd => bne_iff_ne.mpr fun heq => h (heq ▸ hd)
    rw [List.span_eq_takeWhile_dropWhile, List.takeWhile_eq_self_iff.mpr hall,
      List.dropWhile_eq_nil_iff.mpr hall]
  rw [setMatch, hspan]

/-- What stands before the `=` of an assignment is a beginning of the line. -/
theorem name_of_setMatch {line name val : List Char} (h : setMatch line = some (name, val)) :
    line = name ++ '=' :: val := by
  rw [setMatch, List.span_eq_takeWhile_dropWhile] at h
  have hsplit := List.takeWhile_append_dropWhile (p := (· != '=')) (l := line)
  generalize hd : line.dropWhile (· != '=') = d at h hsplit
  cases d with
  | nil => cases h
  | cons c d =>
    have hc : c = '=' := by
      have := List.head_dropWhile_not (p := (· != '=')) (l := line) (by rw [hd]; simp)
      simpa [hd] using this
    dsimp only at h
    split at h
    · cases h
    · cases h
      rw [hc] at hsplit
      exact hsplit.symm

/-- A string that is written is read between its quotes. -/
theorem confStringMatch_escape (val : List Char) :
    confStringMatch ('"' :: (escape val ++ ['"'])) = some (escape val) := by
  show confStringMatch.quoted (escape val ++ ['"']) = _
  induction val with
  | nil => rfl
  | cons c val ih =>
    rw [escape_cons, List.append_assoc]
    by_cases hc : c = '\\' ∨ c = '"'
    · rw [if_pos hc]
      show confStringMatch.quoted ('\\' :: c :: (escape val ++ ['"'])) = _
      rw [confStringMatch.quoted, ih]
      rfl
    · rw [if_neg hc]
      rw [not_or] at hc
      show confStringMatch.quoted (c :: (escape val ++ ['"'])) = _
      rw [confStringMatch.quoted, if_neg hc.2, ih]
      · rfl
      · exact fun h => absurd h hc.1
      · exact fun _ _ h => absurd h hc.1

theorem unescape_escape (val : List Char) : unescape (escape val) = val := by
  induction val with
  | nil => rfl
  | cons c val ih =>
    rw [escape_cons]
    by_cases hc : c = '\\' ∨ c = '"'
    · rw [if_pos hc]
      show unescape ('\\' :: c :: escape val) = _
      rw [unescape, ih]
    · rw [if_neg hc]
      rw [not_or] at hc
      show unescape (c :: escape val) = _
      rw [unescape, ih]
      · exact fun h => absurd h hc.1
      · exact fun _ _ h => absurd h hc.1

/-! ## What can be written -/

/-- A text without a line end. -/
structure OneLine (s : List Char) : Prop where
  newline : '\n' ∉ s
  carriage : '\r' ∉ s

/-- A value of the type of its symbol, on one line. -/
def Written.Fits : SymType → Written → Prop
  | .bool, .tri val => val ≠ 1
  | .tristate, .tri _ => True
  | .int, .number val | .hex, .number val =>
    OneLine val ∧ ∀ c, val.getLast? = some c → isSpace c = false
  | .string, .string val => OneLine val
  | _, _ => False

/-- The value in the file. -/
def Written.text : Written → List Char
  | .tri val => triToStr val
  | .number val | .string val => val

/-- The names that can stand in the file. -/
structure IsName (name : List Char) : Prop extends OneLine name where
  nonempty : name ≠ []
  equals : '=' ∉ name
  blank : ' ' ∉ name

/-- The line of a title (`# <title>`) reads like the line of a symbol that is not set, whatever
comes behind. -/
def ReadsUnset (name title : List Char) : Prop := name ++ " is not set".toList <+: title

instance (name title : List Char) : Decidable (ReadsUnset name title) :=
  inferInstanceAs (Decidable (name ++ " is not set".toList <+: title))

/-- A symbol that is defined with a type that its value fits, or the title of a menu that does
not read like the line of a symbol that could be unset. -/
def Chunk.Wf (defined : List Char → Option SymType) : Chunk → Prop
  | .entry name val => IsName name ∧ ∃ type, defined name = some type ∧ val.Fits type
  | .heading title => OneLine title ∧ ∀ name type, defined name = some type →
      (type = .bool ∨ type = .tristate) → ¬ ReadsUnset name title
  | .endOf title => OneLine title

def Chunk.setting : Chunk → Option Setting
  | .entry name val => some ⟨name, val.text⟩
  | _ => none

/-- The line of a symbol. -/
def configLine (name : List Char) : Written → List Char
  | .tri val =>
    if val ≠ 0 then name ++ '=' :: triToStr val else "# ".toList ++ name ++ " is not set".toList
  | .number val => name ++ '=' :: val
  | .string val => name ++ '=' :: '"' :: (escape val ++ ['"'])

theorem configString_eq (name : List Char) (val : Written) :
    configString name val = configLine name val ++ ['\n'] := by
  cases val with
  | tri val =>
    rw [configString, configLine]
    split
    · simp
    · simp
  | number val => simp [configString, configLine]
  | string val => simp [configString, configLine]

theorem OneLine.append {s t : List Char} (hs : OneLine s) (ht : OneLine t) : OneLine (s ++ t) :=
  ⟨by simp [hs.newline, ht.newline], by simp [hs.carriage, ht.carriage]⟩

theorem OneLine.cons {c : Char} {s : List Char} (hn : c ≠ '\n') (hr : c ≠ '\r') (hs : OneLine s) :
    OneLine (c :: s) :=
  ⟨by simp [hn.symm, hs.newline], by simp [hr.symm, hs.carriage]⟩

theorem OneLine.nil : OneLine [] := ⟨List.not_mem_nil, List.not_mem_nil⟩

theorem OneLine.escape {val : List Char} (h : OneLine val) : OneLine (escape val) := by
  induction val with
  | nil => exact h
  | cons c val ih =>
    obtain ⟨hn, hr⟩ := h
    rw [List.mem_cons, not_or] at hn hr
    have hchar := OneLine.cons (Ne.symm hn.1) (Ne.symm hr.1) OneLine.nil
    rw [escape_cons]
    refine OneLine.append ?_ (ih ⟨hn.2, hr.2⟩)
    split
    · exact OneLine.cons (by decide) (by decide) hchar
    · exact hchar

theorem oneLine_triToStr (val : Tri) : OneLine (triToStr val) := by
  constructor
  all_goals
    revert val
    decide

theorem oneLine_configLine {name : List Char} {val : Written} {type : SymType}
    (hname : IsName name) (hval : val.Fits type) : OneLine (configLine name val) := by
  cases val with
  | tri val =>
    rw [configLine]
    split
    · exact hname.append ((oneLine_triToStr val).cons (by decide) (by decide))
    · exact (OneLine.append ⟨by decide, by decide⟩ hname.toOneLine).append
        ⟨by decide, by decide⟩
  | number val =>
    have hline : OneLine val := by
      cases type
      all_goals first | exact hval.1 | exact hval.elim
    exact hname.append (hline.cons (by decide) (by decide))
  | string val =>
    have hline : OneLine val := by
      cases type
      all_goals first | exact hval | exact hval.elim
    have hquoted := hline.escape.append (t := ['"']) ⟨by decide, by decide⟩
    exact hname.append ((hquoted.cons (by decide) (by decide)).cons (by decide) (by decide))

/-! ## Reading what is written -/

theorem universalNewlines_append_newline {line : List Char} (h : OneLine line) (text : List Char) :
    universalNewlines (line ++ '\n' :: text) = line ++ '\n' :: universalNewlines text := by
  induction line with
  | nil =>
    show universalNewlines ('\n' :: text) = _
    rw [universalNewlines]
    · rfl
    · rintro _ ⟨⟩
  | cons c line ih =>
    obtain ⟨hn, hr⟩ := h
    rw [List.mem_cons, not_or] at hn hr
    rw [List.cons_append, universalNewlines, if_neg (Ne.symm hr.1), ih ⟨hn.2, hr.2⟩]
    · rfl
    · exact fun _ hc => absurd hc.symm hr.1

theorem loadConfig_append_newline (defined : List Char → Option SymType) {line text : List Char}
    (h : OneLine line) : loadConfig defined (line ++ '\n' :: text) =
      (loadLine defined line).toList ++ loadConfig defined text := by
  rw [loadConfig, universalNewlines_append_newline h, lines_append_newline,
    lines_of_notMem h.newline, List.filterMap_append]
  cases hline : loadLine defined line with
  | none => simp [loadConfig, hline]
  | some s => simp [loadConfig, hline]

theorem triToStr_eq (val : Tri) : ∃ c, triToStr val = [c] ∧ isSpace c = false := by
  match val with
  | 0 => exact ⟨'n', rfl, by decide⟩
  | 1 => exact ⟨'m', rfl, by decide⟩
  | 2 => exact ⟨'y', rfl, by decide⟩

/-- An assignment to a symbol that is defined. -/
theorem loadLine_assignment {defined : List Char → Option SymType} {name val : List Char}
    {type : SymType} (hname : IsName name) (hdefined : defined name = some type)
    (hstrip : rstrip (name ++ '=' :: val) = name ++ '=' :: val) :
    loadLine defined (name ++ '=' :: val) = (assigned type val).map (Setting.mk name) := by
  rw [loadLine, hstrip, setMatch_append hname.nonempty hname.equals]
  dsimp only
  rw [hdefined]

/-- The line of a symbol that is not set. -/
theorem loadLine_unset {defined : List Char → Option SymType} {name : List Char}
    {type : SymType} (hname : IsName name) (hdefined : defined name = some type)
    (htype : type = .bool ∨ type = .tristate) :
    loadLine defined ("# ".toList ++ name ++ " is not set".toList) = some ⟨name, ['n']⟩ := by
  have hstrip : rstrip ("# ".toList ++ name ++ " is not set".toList) =
      "# ".toList ++ name ++ " is not set".toList := by
    have hassoc : "# ".toList ++ name ++ " is not set".toList =
        ("# ".toList ++ name ++ " is not se".toList) ++ ['t'] := by simp
    rw [hassoc]
    exact rstrip_concat (by decide)
  have hnone : setMatch ("# ".toList ++ name ++ " is not set".toList) = none :=
    setMatch_of_notMem (by simp [hname.equals])
  have hunset : unsetMatch ("# ".toList ++ name ++ " is not set".toList) = some name := by
    show (match (name ++ ' ' :: "is not set".toList).span (· != ' ') with
      | (name, rest) =>
        if name ≠ [] ∧ " is not set".toList.isPrefixOf rest then some name else none) = _
    have hall : ∀ d ∈ name, (d != ' ') = true := fun d hd =>
      bne_iff_ne.mpr fun heq => hname.blank (heq ▸ hd)
    rw [span_append_cons hall (by decide)]
    exact if_pos ⟨hname.nonempty, by decide⟩
  rw [loadLine, hstrip, hnone, hunset]
  dsimp only
  rw [hdefined]
  dsimp only
  rw [if_pos htype]

/-- **The line of a symbol** sets it to the value that was written: a value `n` is read from a
comment, and a string from between its quotes. -/
theorem loadLine_configLine {defined : List Char → Option SymType} {name : List Char}
    {val : Written} {type : SymType} (hname : IsName name) (hdefined : defined name = some type)
    (hval : val.Fits type) :
    loadLine defined (configLine name val) = some ⟨name, val.text⟩ := by
  cases val with
  | number val =>
    have hfits : OneLine val ∧ ∀ c, val.getLast? = some c → isSpace c = false := by
      cases type
      all_goals first | exact hval | exact hval.elim
    have hassigned : assigned type val = some val := by
      cases type
      all_goals first | rfl | exact hval.elim
    rw [configLine, loadLine_assignment hname hdefined, hassigned]
    · rfl
    · rcases List.eq_nil_or_concat val with rfl | ⟨v, c, rfl⟩
      · exact rstrip_concat (by decide)
      · have hc : isSpace c = false := hfits.2 c (by simp)
        have hassoc : name ++ '=' :: (v ++ [c]) = (name ++ '=' :: v) ++ [c] := by simp
        rw [List.concat_eq_append, hassoc]
        exact rstrip_concat hc
  | string val =>
    have htype : type = .string := by
      cases type
      all_goals first | rfl | exact hval.elim
    subst htype
    rw [configLine, loadLine_assignment hname hdefined]
    · show (((confStringMatch _).map unescape).map (Setting.mk name)) = _
      rw [confStringMatch_escape]
      show some (Setting.mk name (unescape (escape val))) = _
      rw [unescape_escape]
      rfl
    · have hassoc : name ++ '=' :: '"' :: (escape val ++ ['"']) =
          (name ++ '=' :: '"' :: escape val) ++ ['"'] := by simp
      rw [hassoc]
      exact rstrip_concat (by decide)
  | tri val =>
    have htype : type = .bool ∧ val ≠ 1 ∨ type = .tristate := by
      cases type
      all_goals first | exact Or.inl ⟨rfl, hval⟩ | exact Or.inr rfl | exact hval.elim
    rw [configLine]
    split
    next hne =>
      have hassigned : assigned type (triToStr val) = some (triToStr val) := by
        clear hval
        rcases htype with ⟨rfl, h⟩ | rfl
        · revert h val
          decide
        · revert val
          decide
      rw [loadLine_assignment hname hdefined, hassigned]
      · rfl
      · obtain ⟨c, hs, hc⟩ := triToStr_eq val
        have hassoc : name ++ '=' :: [c] = (name ++ ['=']) ++ [c] := by simp
        rw [hs, hassoc]
        exact rstrip_concat hc
    next hzero =>
      rw [loadLine_unset hname hdefined (htype.imp And.left id), not_not.mp hzero]
      rfl

/-- A line of a comment sets nothing: no symbol has a blank in its name. -/
theorem loadLine_comment {defined : List Char → Option SymType}
    (hnames : ∀ name type, defined name = some type → IsName name) {title : List Char}
    (h : ∀ s, s <+: title → ∀ name type, unsetMatch ('#' :: ' ' :: s) = some name →
      defined name = some type → ¬ (type = .bool ∨ type = .tristate)) :
    loadLine defined ('#' :: ' ' :: title) = none := by
  have hprefix := rstrip_prefix ('#' :: ' ' :: title)
  have hunset : ∀ name type, unsetMatch (rstrip ('#' :: ' ' :: title)) = some name →
      defined name = some type → ¬ (type = .bool ∨ type = .tristate) := by
    intro name type hmatch
    generalize rstrip ('#' :: ' ' :: title) = line at hprefix hmatch
    rcases line with _ | ⟨c, _ | ⟨d, s⟩⟩
    · cases hmatch
    · rw [unsetMatch] at hmatch
      · cases hmatch
      · rintro s hs
        cases hs
    · rw [List.cons_prefix_cons, List.cons_prefix_cons] at hprefix
      obtain ⟨rfl, rfl, hs⟩ := hprefix
      exact h s hs name type hmatch
  rw [loadLine]
  cases hset : setMatch (rstrip ('#' :: ' ' :: title)) with
  | none =>
    dsimp only
    cases hmatch : unsetMatch (rstrip ('#' :: ' ' :: title)) with
    | none => rfl
    | some name =>
      dsimp only
      cases hdef : defined name with
      | none => rfl
      | some type => exact if_neg (hunset name type hmatch hdef)
  | some r =>
    dsimp only
    cases hdef : defined r.1 with
    | none => rfl
    | some type =>
      exfalso
      have hname := hnames _ _ hdef
      rw [name_of_setMatch hset] at hprefix
      -- the name begins with `#` and a blank
      generalize r.1 = name at hname hprefix
      rcases name with _ | ⟨c, _ | ⟨d, s⟩⟩
      · exact hname.nonempty rfl
      · have hblank := (List.cons_prefix_cons.mp (List.cons_prefix_cons.mp hprefix).2).1
        exact absurd hblank (by decide)
      · have hblank := (List.cons_prefix_cons.mp (List.cons_prefix_cons.mp hprefix).2).1
        exact hname.blank (by simp [hblank])

/-- The rest of an unset line behind the name. -/
theorem exists_of_unsetMatch {s name : List Char} (h : unsetMatch ('#' :: ' ' :: s) = some name) :
    ' ' ∉ name ∧ ∃ rest, s = name ++ ' ' :: rest ∧ "is not set".toList <+: rest := by
  rw [unsetMatch, List.span_eq_takeWhile_dropWhile] at h
  dsimp only at h
  split at h
  next hcond =>
    cases h
    refine ⟨fun hmem => ?_, ?_⟩
    · have := List.mem_takeWhile_imp hmem
      simp at this
    · obtain ⟨rest, hrest⟩ := List.isPrefixOf_iff_prefix.mp hcond.2
      refine ⟨"is not set".toList ++ rest, ?_, List.prefix_append _ _⟩
      have hsplit := List.takeWhile_append_dropWhile (p := (· != ' ')) (l := s)
      rw [← hrest] at hsplit
      exact hsplit.symm
  next => cases h

theorem readsUnset_of_unsetMatch {title s name : List Char} (hs : s <+: title)
    (h : unsetMatch ('#' :: ' ' :: s) = some name) : ReadsUnset name title := by
  obtain ⟨-, rest, rfl, r, rfl⟩ := exists_of_unsetMatch h
  refine List.IsPrefix.trans ⟨r, ?_⟩ hs
  simp

theorem unsetMatch_endOf (title : List Char) :
    ∀ s, s <+: "end of ".toList ++ title → unsetMatch ('#' :: ' ' :: s) = none := by
  intro s hs
  by_contra hne
  obtain ⟨name, hname⟩ := Option.ne_none_iff_exists'.mp hne
  obtain ⟨hblank, rest, rfl, hrest⟩ := exists_of_unsetMatch hname
  obtain ⟨rfl, hof⟩ := word_eq_of_line (v := "end".toList) (t := "of ".toList ++ title) hblank
    (by decide) hs
  obtain ⟨r, rfl⟩ := hrest
  exact absurd (List.cons_prefix_cons.mp hof).1 (by decide)

/-- The settings of the chunks, in order. -/
theorem loadConfig_chunksText {defined : List Char → Option SymType}
    (hnames : ∀ name type, defined name = some type → IsName name) {chunks : List Chunk}
    (h : ∀ c ∈ chunks, c.Wf defined) (afterEnd : Bool) :
    loadConfig defined (chunksText afterEnd chunks) = chunks.filterMap Chunk.setting := by
  have hempty : ∀ text, loadConfig defined ('\n' :: text) = loadConfig defined text := fun text =>
    loadConfig_append_newline defined OneLine.nil
  have hhash : ∀ text, loadConfig defined ('#' :: '\n' :: text) = loadConfig defined text :=
    fun text => loadConfig_append_newline defined (OneLine.nil.cons (by decide) (by decide))
  induction chunks generalizing afterEnd with
  | nil => rfl
  | cons chunk chunks ih =>
    rw [List.forall_mem_cons] at h
    cases chunk with
    | entry name val =>
      obtain ⟨hname, type, hdefined, hval⟩ := h.1
      have hline : loadConfig defined (configString name val ++ chunksText false chunks) =
          ⟨name, val.text⟩ :: chunks.filterMap Chunk.setting := by
        rw [configString_eq, List.append_assoc, List.singleton_append,
          loadConfig_append_newline defined (oneLine_configLine hname hval),
          loadLine_configLine hname hdefined hval, ih h.2]
        rfl
      cases afterEnd with
      | false => exact hline
      | true => exact (hempty _).trans hline
    | heading title =>
      have htitle : OneLine ('#' :: ' ' :: title) :=
        (h.1.1.cons (by decide) (by decide)).cons (by decide) (by decide)
      have hlines : chunksText afterEnd (.heading title :: chunks) = '\n' :: '#' ::
          '\n' :: (('#' :: ' ' :: title) ++ '\n' :: '#' :: '\n' :: chunksText false chunks) := by
        rw [chunksText.eq_def]
        simp
      rw [hlines, hempty, hhash, loadConfig_append_newline defined htitle,
        loadLine_comment hnames (fun s hs name type hmatch hdef htype =>
          h.1.2 name type hdef htype (readsUnset_of_unsetMatch hs hmatch)), hhash, ih h.2]
      rfl
    | endOf title =>
      have htitle : OneLine ('#' :: ' ' :: ("end of ".toList ++ title)) :=
        ((OneLine.append ⟨by decide, by decide⟩ h.1).cons (by decide) (by decide)).cons
          (by decide) (by decide)
      have hlines : chunksText afterEnd (.endOf title :: chunks) =
          ('#' :: ' ' :: ("end of ".toList ++ title)) ++ '\n' :: chunksText true chunks := by
        rw [chunksText.eq_def]
        simp
      have hcomment : ∀ s, s <+: "end of ".toList ++ title → ∀ name type,
          unsetMatch ('#' :: ' ' :: s) = some name → defined name = some type →
            ¬ (type = .bool ∨ type = .tristate) := by
        intro s hs name type hmatch
        rw [unsetMatch_endOf title s hs] at hmatch
        cases hmatch
      rw [hlines, loadConfig_append_newline defined htitle, loadLine_comment hnames hcomment,
        ih h.2]
      rfl

/-- **What is written is read**: the settings are those of the symbols that the walk meets. The
header of the file is a comment. -/
theorem loadConfig_configContents {defined : List Char → Option SymType}
    (hnames : ∀ name type, defined name = some type → IsName name) {header : List Char}
    {nodes : List Node} (hheader : (Chunk.heading header).Wf defined)
    (h : ∀ c ∈ (walkAll [] nodes).1, c.Wf defined) :
    loadConfig defined (configContents ("# ".toList ++ header ++ ['\n']) nodes) =
      (walkAll [] nodes).1.filterMap Chunk.setting := by
  have hline : configContents ("# ".toList ++ header ++ ['\n']) nodes =
      ('#' :: ' ' :: header) ++ '\n' :: chunksText false (walkAll [] nodes).1 := by
    simp [configContents]
  have hone : OneLine ('#' :: ' ' :: header) :=
    (hheader.1.cons (by decide) (by decide)).cons (by decide) (by decide)
  rw [hline, loadConfig_append_newline defined hone, loadConfig_chunksText hnames h false,
    loadLine_comment hnames fun s hs name type hmatch hdef htype =>
      hheader.2 name type hdef htype (readsUnset_of_unsetMatch hs hmatch)]
  rfl

/-- A symbol that is `n` and a string with a quote, in a menu. Its title reads like the line of
a symbol that no menu has. -/
theorem loadConfig_general :
    let defined : List Char → Option SymType := fun name =>
      if name = "SUDO".toList then some .bool
      else if name = "HOST".toList then some .string else none
    let nodes : List Node := [.menu "SU is not set".toList true
      [.symbol "SUDO".toList (some (.tri 0)) [],
        .symbol "HOST".toList (some (.string "a\"b".toList)) []]]
    loadConfig defined (configContents ("# ".toList ++ "Generated".toList ++ ['\n']) nodes) =
      [⟨"SUDO".toList, ['n']⟩, ⟨"HOST".toList, "a\"b".toList⟩] := by
  intro defined nodes
  have hsudo : IsName "SUDO".toList := ⟨⟨by decide, by decide⟩, by decide, by decide, by decide⟩
  have hhost : IsName "HOST".toList := ⟨⟨by decide, by decide⟩, by decide, by decide, by decide⟩
  have hnames : ∀ name type, defined name = some type → IsName name := by
    intro name type h
    by_cases hs : name = "SUDO".toList
    · exact hs ▸ hsudo
    · by_cases hh : name = "HOST".toList
      · exact hh ▸ hhost
      · have hnone : defined name = none := (if_neg hs).trans (if_neg hh)
        rw [hnone] at h
        cases h
  have hunset : ∀ title, ¬ ReadsUnset "SUDO".toList title → ∀ name type,
      defined name = some type → (type = .bool ∨ type = .tristate) → ¬ ReadsUnset name title := by
    intro title h name type hdef htype
    by_cases hs : name = "SUDO".toList
    · exact hs ▸ h
    · have hhost : defined name = if name = "HOST".toList then some .string else none := if_neg hs
      rw [hhost] at hdef
      split at hdef
      · cases hdef
        exact absurd htype (by decide)
      · cases hdef
  have hwf : ∀ c ∈ (walkAll [] nodes).1, c.Wf defined := by
    have hwalk : (walkAll [] nodes).1 = [.heading "SU is not set".toList,
        .entry "SUDO".toList (.tri 0), .entry "HOST".toList (.string "a\"b".toList),
        .endOf "SU is not set".toList] := rfl
    rw [hwalk]
    simp only [List.forall_mem_cons, List.not_mem_nil, false_imp_iff, implies_true, and_true]
    refine ⟨⟨⟨by decide, by decide⟩, hunset _ (by decide)⟩, ⟨hsudo, .bool, rfl, ?_⟩,
      ⟨hhost, .string, rfl, ⟨by decide, by decide⟩⟩, ⟨by decide, by decide⟩⟩
    show (0 : Tri) ≠ 1
    decide
  exact loadConfig_configContents hnames ⟨⟨by decide, by decide⟩, hunset _ (by decide)⟩ hwf

end Jhalfs.Menu
