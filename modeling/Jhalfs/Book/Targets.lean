import Jhalfs.Base.Words
import Jhalfs.Common.Configuration
import Jhalfs.Deps.Entry

/-!
# The packages to build

`parse_configuration` (BLFS/gen_pkg_book.sh:40–83) reads the file that the menu is saved to: it
evaluates the lines of some variables, and takes the targets from the lines of the packages.

- `replies`: the lines as `read` gives them. A backslash stands for the character behind it, and
  what is behind the last line end is not read.
- `readReply`: the body of the loop. A line with the name of an option goes through `eval`, one
  of a package gives a target, and all others are skipped.
- `parseConfiguration`: the loop and what is behind it. Without a target the program ends.
- `take`: what a part of the file does, without the detour over its text, and
  `readReply_replyOf`: the line of a symbol does this.

`read` removes the backslashes that the menu has put in front of quotes, and `eval` is given a
line without quotes around it, so that the values have to be plain. `Parsable` says this of a
menu: packages are of type `bool`, options have plain values, and no name or title has a
backslash.

**Main result**: `parseConfiguration_configText`. The targets are the packages that are set in
the menu, in the order of the menu, the options have the values of the menu, and the other
variables are as before. The proof reads one part of the file after the other
(`foldlM_replies`), and looks at the targets and the variables of this fold apart.
-/

namespace Jhalfs.Book

open Text Menu Shell Common

/-! ## `parse_configuration` -/

/-- `while read`: a backslash stands for the character behind it, or joins two lines. What is
behind the last line end is not read. -/
def replies (line : List Char) : List Char → List (List Char)
  | [] => []
  | '\n' :: s => line :: replies [] s
  | '\\' :: '\n' :: s => replies line s
  | '\\' :: c :: s => replies (line ++ [c]) s
  | c :: s => replies (line ++ [c]) s

/-- The variables that the configuration may set. -/
def optionNames : List (List Char) :=
  ["optDependency".toList, "MAIL_SERVER".toList, "WRAP_INSTALL".toList, "DEL_LA_FILES".toList,
    "STATS".toList, "LANGUAGE".toList, "KBLAYOUT".toList, "SUDO".toList]

def isOption (reply : List Char) : Bool :=
  optionNames.any fun name => (name ++ ['=']).isPrefixOf reply

/-- `eval ${REPLY}` -/
def evalReply (vars : Env) (reply : List Char) : Option Env := do
  let ws ← words reply
  source vars (joined ' ' ws)

/-- `s@pat@@` -/
def removeFirst (pat s : List Char) : List Char :=
  match cut pat s with
  | some (before, after) => before ++ after
  | none => s

/-- `$( echo $REPLY | sed -e 's@CONFIG_@@' -e 's@=y@@' )` -/
def optTargetOf (reply : List Char) : Option (List Char) := do
  let ws ← words reply
  pure (removeFirst "=y".toList (removeFirst "CONFIG_".toList (joined ' ' ws)))

/-- The state of the loop: the variables of the shell and the targets, `optTARGET`, that have been
read so far. -/
structure Parsing where
  vars : Env
  optTarget : List (List Char)

/-- The body of the loop. -/
def readReply (p : Parsing) (reply : List Char) : Option Parsing :=
  if reply = [] ∨ reply.head? = some '#' then some p
  else if isOption reply then (evalReply p.vars reply).map fun vars => ⟨vars, p.optTarget⟩
  else if "CONFIG_".toList.isPrefixOf reply then
    (optTargetOf reply).map fun target => ⟨p.vars, p.optTarget ++ [target]⟩
  else some p

/-- What `gen_pkg_book.sh` goes on with. -/
structure Configuration where
  target : List (List Char)
  depLevel : List Char
  useSudo : List Char
  wrapInstall : List Char
  delLaFiles : List Char
  stats : List Char
  mailServer : List Char
  language : List Char
  kblayout : List Char

/-- The variables with their defaults. -/
def configurationOf (vars : Env) (target : List (List Char)) : Configuration where
  target := target
  depLevel := vars.get "optDependency".toList
  useSudo := vars.getD "SUDO".toList ['n']
  wrapInstall := vars.getD "WRAP_INSTALL".toList ['n']
  delLaFiles := vars.getD "DEL_LA_FILES".toList ['n']
  stats := vars.getD "STATS".toList ['n']
  mailServer := vars.get "MAIL_SERVER".toList
  language := vars.get "LANGUAGE".toList
  kblayout := vars.get "KBLAYOUT".toList

/-- `parse_configuration`; it ends the program when there is no target. -/
inductive ParseResult where
  | noTarget
  | parsed (c : Configuration)

def parseConfiguration (vars : Env) (text : List Char) : Option ParseResult := do
  let p ← (replies [] text).foldlM readReply ⟨vars, []⟩
  if p.optTarget = [] then pure .noTarget
  else do
    let target ← words (joined ' ' p.optTarget)
    pure (.parsed (configurationOf p.vars target))

/-! ## The lines -/

theorem replies_newline (line s : List Char) : replies line ('\n' :: s) = line :: replies [] s := by
  rw [replies]

theorem replies_append (line : List Char) {part : List Char} (hnewline : '\n' ∉ part)
    (hback : '\\' ∉ part) (s : List Char) :
    replies line (part ++ s) = replies (line ++ part) s := by
  induction part generalizing line with
  | nil => rw [List.append_nil, List.nil_append]
  | cons c part ih =>
    rw [List.mem_cons, not_or] at hnewline hback
    rw [List.cons_append, replies, ih _ hnewline.2 hback.2, List.append_assoc,
      List.singleton_append]
    · exact fun h => hnewline.1 h.symm
    · exact fun _ h => absurd h.symm hback.1
    · exact fun _ _ h => absurd h.symm hback.1

/-- `read` takes off the backslashes in a string. -/
theorem replies_escape (line : List Char) {val : List Char} (h : '\n' ∉ val) (s : List Char) :
    replies line (escape val ++ s) = replies (line ++ val) s := by
  induction val generalizing line with
  | nil => rw [List.append_nil]; rfl
  | cons c val ih =>
    rw [List.mem_cons, not_or] at h
    rw [escape_cons, List.append_assoc]
    split
    next hc =>
      show replies line ('\\' :: c :: (escape val ++ s)) = _
      rw [replies, ih _ h.2, List.append_assoc, List.singleton_append]
      exact fun hnewline => absurd hnewline.symm h.1
    next hc =>
      rw [not_or] at hc
      show replies line (c :: (escape val ++ s)) = _
      rw [replies, ih _ h.2, List.append_assoc, List.singleton_append]
      · exact fun hnewline => h.1 hnewline.symm
      · exact fun _ hback => absurd hback hc.1
      · exact fun _ _ hback => absurd hback hc.1

/-! ## One line -/

/-- The page id of a text. -/
def idOf (chars : List Char) : Option Id :=
  if h : isPageId chars = true then some ⟨chars, h⟩ else none

/-- The package that a symbol stands for. -/
def packageOf (name : List Char) : Option Id :=
  if "CONFIG_".toList.isPrefixOf name then idOf (name.drop 7) else none

/-- The package that a part of the file selects. -/
def targetOf : Chunk → Option Id
  | .entry name (.tri val) => if val = 2 then packageOf name else none
  | _ => none

/-- What a part of the file does to the variables and the targets: a package that is `y` is a
further target, and an option that is not `n` sets its variable. -/
def take (p : Parsing) (c : Chunk) : Parsing :=
  ⟨match c with
    | .entry name _ => if name ∈ optionNames then assign p.vars c else p.vars
    | .heading _ | .endOf _ => p.vars,
    p.optTarget ++ (targetOf c).toList.map Id.chars⟩

/-- A symbol that is read as it is: the packages are `bool`, and the options have plain values.
For a symbol that is neither, it is enough that its line is one and is no comment. -/
structure ReadAsIs (name : List Char) (val : Written) : Prop where
  isName : IsName name
  start : name.head? ≠ some '#'
  back : '\\' ∉ name
  option : name ∈ optionNames → ∀ text, shellValue val = some text → ∀ c ∈ text, isPlain c = true
  package : "CONFIG_".toList <+: name →
    ∃ id : Id, name = "CONFIG_".toList ++ id.chars ∧ ∃ v, val = .tri v ∧ v ≠ 1
  fits : match val with
    | .tri _ => True
    | .number text => '\n' ∉ text ∧ '\\' ∉ text
    | .string text => '\n' ∉ text

/-- What is read of a part of the file. -/
def Readable : Chunk → Prop
  | .entry name val => ReadAsIs name val
  | .heading title | .endOf title => '\n' ∉ title ∧ '\\' ∉ title

/-- The line of a symbol, as it is read. -/
def replyOf (name : List Char) : Written → List Char
  | .tri val =>
    if val ≠ 0 then name ++ '=' :: triToStr val else "# ".toList ++ name ++ " is not set".toList
  | .number val => name ++ '=' :: val
  | .string val => name ++ '=' :: '"' :: (val ++ ['"'])

theorem idOf_chars (id : Id) : idOf id.chars = some id := dif_pos id.valid

theorem packageOf_chars (id : Id) : packageOf ("CONFIG_".toList ++ id.chars) = some id := by
  have hdrop : ("CONFIG_".toList ++ id.chars).drop 7 = id.chars := List.drop_left' (by decide)
  rw [packageOf, if_pos (List.isPrefixOf_iff_prefix.mpr (List.prefix_append _ _)), hdrop,
    idOf_chars]

theorem packageOf_of_not {name : List Char} (h : ¬ "CONFIG_".toList <+: name) :
    packageOf name = none := if_neg fun hpre => h (List.isPrefixOf_iff_prefix.mp hpre)

/-- The options have names of variables, and are no packages. -/
theorem option_name {name : List Char} (h : name ∈ optionNames) :
    Shell.isName name = true ∧ (∀ c ∈ name, isPlain c = true) ∧ name ≠ [] ∧ '=' ∉ name ∧
      ¬ "CONFIG_".toList <+: name := by
  simp only [optionNames, List.mem_cons, List.not_mem_nil, or_false] at h
  rcases h with rfl | rfl | rfl | rfl | rfl | rfl | rfl | rfl
  all_goals exact ⟨by decide, List.all_eq_true.mp (by decide), by decide, by decide, by decide⟩

/-- The name of an assignment is one of the options, or not. -/
theorem isOption_iff {name : List Char} (hname : IsName name) (text : List Char) :
    isOption (name ++ '=' :: text) = true ↔ name ∈ optionNames := by
  rw [isOption, List.any_eq_true]
  constructor
  · rintro ⟨n, hn, hpre⟩
    obtain ⟨rest, hrest⟩ := List.isPrefixOf_iff_prefix.mp hpre
    rw [List.append_assoc, List.singleton_append] at hrest
    obtain ⟨-, -, hne, hequals, -⟩ := option_name hn
    have hset : setMatch (name ++ '=' :: text) = some (name, text) :=
      setMatch_append hname.nonempty hname.equals
    rw [← hrest, setMatch_append hne hequals] at hset
    exact (Prod.mk.inj (Option.some.inj hset)).1 ▸ hn
  · refine fun hmem => ⟨name, hmem, List.isPrefixOf_iff_prefix.mpr ⟨text, ?_⟩⟩
    rw [List.append_assoc, List.singleton_append]

theorem isPrefix_assignment (name text : List Char) :
    "CONFIG_".toList.isPrefixOf (name ++ '=' :: text) = true ↔ "CONFIG_".toList <+: name :=
  List.isPrefixOf_iff_prefix.trans (prefix_append_cons_iff (by decide))

/-- A page id is one word, without `=`. -/
theorem inWord_of_mem_chars {id : Id} {c : Char} (hc : c ∈ id.chars) :
    isInWord c = true ∧ c ≠ '=' := by
  have hvalid := id.valid
  simp only [isPageId, Bool.and_eq_true, List.all_eq_true] at hvalid
  have hid : isIdChar c = true := hvalid.2 c hc
  refine ⟨isInWord_of_isPlain ?_, ?_⟩
  · simp only [isIdChar, Bool.or_eq_true, beq_iff_eq] at hid
    rcases hid with ((hid | rfl) | rfl) | rfl
    · rw [isPlain, hid]
      rfl
    · decide
    · decide
    · decide
  · rintro rfl
    exact absurd hid (by decide)

/-- The line of a package that is selected. -/
theorem optTargetOf_package (id : Id) :
    optTargetOf ("CONFIG_".toList ++ id.chars ++ '=' :: ['y']) = some id.chars := by
  have hwords : words ("CONFIG_".toList ++ id.chars ++ '=' :: ['y']) =
      some ["CONFIG_".toList ++ id.chars ++ '=' :: ['y']] := by
    refine words_of_word (by simp) fun c hc => ?_
    simp only [List.mem_append, List.mem_cons, List.not_mem_nil, or_false] at hc
    rcases hc with (hc | hc) | rfl | rfl
    · have hall : ∀ d ∈ "CONFIG_".toList, isInWord d = true := List.all_eq_true.mp (by decide)
      exact hall c hc
    · exact (inWord_of_mem_chars hc).1
    · decide
    · decide
  have hcut : cut "=y".toList (id.chars ++ ("=y".toList ++ [])) = some (id.chars, []) :=
    cut_append_of_notMem fun hmem => (inWord_of_mem_chars hmem).2 rfl
  have hconfig : removeFirst "CONFIG_".toList ("CONFIG_".toList ++ id.chars ++ '=' :: ['y']) =
      id.chars ++ ("=y".toList ++ []) := by
    rw [removeFirst, List.append_assoc, cut_isPrefix]
    simp
  have hequals : removeFirst "=y".toList (id.chars ++ ("=y".toList ++ [])) = id.chars := by
    rw [removeFirst, hcut]
    simp
  rw [optTargetOf, hwords, Option.bind_eq_bind, Option.bind_some, joined_singleton, hconfig,
    hequals]
  rfl

/-- A line that begins with a name. -/
theorem readReply_assignment {name : List Char} (hname : IsName name)
    (hstart : name.head? ≠ some '#') (p : Parsing) (text : List Char) :
    readReply p (name ++ '=' :: text) =
      if name ∈ optionNames then
        (evalReply p.vars (name ++ '=' :: text)).map fun vars => ⟨vars, p.optTarget⟩
      else if "CONFIG_".toList <+: name then
        (optTargetOf (name ++ '=' :: text)).map fun target => ⟨p.vars, p.optTarget ++ [target]⟩
      else some p := by
  have hskip : ¬ (name ++ '=' :: text = [] ∨ (name ++ '=' :: text).head? = some '#') := by
    rintro (hnil | hhash)
    · simp at hnil
    · rw [List.head?_append_of_ne_nil _ hname.nonempty] at hhash
      exact hstart hhash
  rw [readReply, if_neg hskip]
  simp only [isOption_iff hname, isPrefix_assignment]

/-- An option with a plain value, with quotes or without. -/
theorem evalReply_option {name text quoted : List Char} (h : name ∈ optionNames)
    (htext : ∀ c ∈ text, isPlain c = true)
    (hquoted : quoted = text ∨ quoted = '"' :: (text ++ ['"'])) (vars : Env) :
    evalReply vars (name ++ '=' :: quoted) = some (vars.set name text) := by
  obtain ⟨hname, hplain, -, -, -⟩ := option_name h
  have hinWord : ∀ c ∈ text, isInWord c = true := fun c hc => isInWord_of_isPlain (htext c hc)
  have hwords : words (name ++ '=' :: quoted) = some [name ++ '=' :: quoted] := by
    refine words_of_word (by simp) fun c hc => ?_
    rw [List.mem_append, List.mem_cons] at hc
    rcases hc with hc | rfl | hc
    · exact isInWord_of_isPlain (hplain c hc)
    · decide
    · rcases hquoted with rfl | rfl
      · exact hinWord c hc
      · simp only [List.mem_cons, List.mem_append, List.not_mem_nil, or_false] at hc
        rcases hc with rfl | hc | rfl
        · decide
        · exact hinWord c hc
        · decide
  rw [evalReply, hwords, Option.bind_eq_bind, Option.bind_some, joined_singleton]
  rcases hquoted with rfl | rfl
  · exact source_plain_end vars hname htext
  · exact source_quoted_end vars hname (quoted_of_plain htext)

theorem targetOf_of_not {name : List Char} (h : ¬ "CONFIG_".toList <+: name) (val : Written) :
    targetOf (.entry name val) = none := by
  cases val with
  | tri val =>
    rw [targetOf, packageOf_of_not h]
    split
    · rfl
    · rfl
  | number text => rfl
  | string text => rfl

/-- What an option sets. -/
theorem take_option {name text : List Char} {val : Written} (h : name ∈ optionNames)
    (htext : shellValue val = some text) (p : Parsing) :
    take p (.entry name val) = ⟨p.vars.set name text, p.optTarget⟩ := by
  rw [take, targetOf_of_not (option_name h).2.2.2.2, if_pos h, assign, htext]
  simp

/-- A symbol that is neither an option nor a package, or that is `n`. -/
theorem take_none {name : List Char} {val : Written}
    (hoption : name ∈ optionNames → shellValue val = none)
    (htarget : targetOf (.entry name val) = none) (p : Parsing) :
    take p (.entry name val) = p := by
  rw [take, htarget]
  split
  next h => simp [assign, hoption h]
  · simp

/-- **The line of a symbol** does what the symbol in the file does: it sets an option, gives a
target, or is skipped. -/
theorem readReply_replyOf {name : List Char} {val : Written} (h : ReadAsIs name val)
    (p : Parsing) : readReply p (replyOf name val) = some (take p (.entry name val)) := by
  -- a line that sets an option to its value, or is passed over
  have hline : ∀ text quoted, shellValue val = some text →
      (quoted = text ∨ quoted = '"' :: (text ++ ['"'])) → ¬ "CONFIG_".toList <+: name →
      readReply p (name ++ '=' :: quoted) = some (take p (.entry name val)) := by
    intro text quoted htext hquoted hnot
    rw [readReply_assignment h.isName h.start]
    by_cases hoption : name ∈ optionNames
    · rw [if_pos hoption, evalReply_option hoption (h.option hoption text htext) hquoted,
        take_option hoption htext]
      rfl
    · rw [if_neg hoption, if_neg hnot,
        take_none (fun hmem => absurd hmem hoption) (targetOf_of_not hnot val)]
  cases val with
  | tri val =>
    by_cases hzero : val = 0
    · subst hzero
      rw [take_none (fun _ => rfl) rfl]
      rfl
    · have hreply : replyOf name (.tri val) = name ++ '=' :: triToStr val := if_pos hzero
      rw [hreply]
      by_cases hpackage : "CONFIG_".toList <+: name
      · obtain ⟨id, rfl, v, hv, hone⟩ := h.package hpackage
        cases hv
        have htri : ∀ v : Tri, v ≠ 0 → v ≠ 1 → v = 2 := by decide
        obtain rfl := htri val hzero hone
        have hoption : "CONFIG_".toList ++ id.chars ∉ optionNames := fun hmem =>
          (option_name hmem).2.2.2.2 hpackage
        have htarget : targetOf (.entry ("CONFIG_".toList ++ id.chars) (.tri 2)) = some id :=
          packageOf_chars id
        have hy : triToStr 2 = ['y'] := rfl
        rw [readReply_assignment h.isName h.start, if_neg hoption, if_pos hpackage, hy,
          optTargetOf_package, take, htarget, if_neg hoption]
        rfl
      · exact hline _ _ (if_pos hzero) (Or.inl rfl) hpackage
  | number text =>
    refine hline text text rfl (Or.inl rfl) fun hpackage => ?_
    obtain ⟨-, -, v, hv, -⟩ := h.package hpackage
    cases hv
  | string text =>
    refine hline text _ rfl (Or.inr rfl) fun hpackage => ?_
    obtain ⟨-, -, v, hv, -⟩ := h.package hpackage
    cases hv

theorem replies_line {line : List Char} (hnewline : '\n' ∉ line) (hback : '\\' ∉ line)
    (s : List Char) : replies [] (line ++ '\n' :: s) = line :: replies [] s := by
  rw [replies_append [] hnewline hback, List.nil_append, replies_newline]

theorem notMem_triToStr (val : Tri) : '\n' ∉ triToStr val ∧ '\\' ∉ triToStr val := by
  revert val
  decide

theorem replies_configString {name : List Char} {val : Written} (h : ReadAsIs name val)
    (s : List Char) :
    replies [] (configString name val ++ s) = replyOf name val :: replies [] s := by
  have hname := h.isName.newline
  have hback := h.back
  cases val with
  | tri val =>
    rw [configString, replyOf]
    split
    · have htext := notMem_triToStr val
      have hline : name ++ '=' :: (triToStr val ++ ['\n']) ++ s =
          name ++ '=' :: triToStr val ++ '\n' :: s := by simp
      rw [hline, replies_line (by simp [hname, htext.1]) (by simp [hback, htext.2])]
    · have hline : "# ".toList ++ name ++ " is not set\n".toList ++ s =
          "# ".toList ++ name ++ " is not set".toList ++ '\n' :: s := by simp
      rw [hline, replies_line (by simp [hname]) (by simp [hback])]
  | number text =>
    have hfits : '\n' ∉ text ∧ '\\' ∉ text := h.fits
    have hline : configString name (.number text) ++ s = name ++ '=' :: text ++ '\n' :: s := by
      simp [configString]
    rw [hline, replies_line (by simp [hname, hfits.1]) (by simp [hback, hfits.2])]
    rfl
  | string text =>
    have hfits : '\n' ∉ text := h.fits
    have hline : configString name (.string text) ++ s =
        (name ++ ['=', '"']) ++ (escape text ++ (['"'] ++ '\n' :: s)) := by simp [configString]
    rw [hline, replies_append [] (by simp [hname]) (by simp [hback]), replies_escape _ hfits,
      replies_append _ (by simp) (by simp), replies_newline]
    simp [replyOf]

/-! ## All lines -/

theorem foldlM_skip (p : Parsing) {line : List Char} (h : line = [] ∨ line.head? = some '#')
    (lines : List (List Char)) :
    (line :: lines).foldlM readReply p = lines.foldlM readReply p := by
  rw [List.foldlM_cons, readReply, if_pos h]
  rfl

/-- The lines of some parts of the file. -/
theorem foldlM_replies {chunks : List Chunk} (h : ∀ c ∈ chunks, Readable c) (p : Parsing)
    (afterEnd : Bool) : (replies [] (chunksText afterEnd chunks)).foldlM readReply p =
      some (chunks.foldl take p) := by
  induction chunks generalizing p afterEnd with
  | nil => rfl
  | cons chunk chunks ih =>
    rw [List.forall_mem_cons] at h
    cases chunk with
    | entry name val =>
      have hline : (replies [] (configString name val ++ chunksText false chunks)).foldlM
          readReply p = some (chunks.foldl take (take p (.entry name val))) := by
        rw [replies_configString h.1, List.foldlM_cons, readReply_replyOf h.1]
        exact ih h.2 _ _
      cases afterEnd with
      | false => exact hline
      | true => exact (foldlM_skip p (Or.inl rfl) _).trans hline
    | heading title =>
      obtain ⟨hnewline, hback⟩ : '\n' ∉ title ∧ '\\' ∉ title := h.1
      have hlines : chunksText afterEnd (.heading title :: chunks) =
          '\n' :: (['#'] ++ '\n' :: ('#' :: ' ' :: title ++ '\n' :: (['#'] ++ '\n' ::
            chunksText false chunks))) := by
        rw [chunksText.eq_def]
        simp
      have htake : take p (.heading title) = p := by simp [take, targetOf]
      rw [hlines, replies_newline, foldlM_skip p (Or.inl rfl),
        replies_line (by decide) (by decide), foldlM_skip p (Or.inr rfl),
        replies_line (by simp [hnewline]) (by simp [hback]), foldlM_skip p (Or.inr rfl),
        replies_line (by decide) (by decide), foldlM_skip p (Or.inr rfl), List.foldl_cons, htake]
      exact ih h.2 _ _
    | endOf title =>
      obtain ⟨hnewline, hback⟩ : '\n' ∉ title ∧ '\\' ∉ title := h.1
      have hlines : chunksText afterEnd (.endOf title :: chunks) =
          "# end of ".toList ++ title ++ '\n' :: chunksText true chunks := by
        rw [chunksText.eq_def]
        simp
      have htake : take p (.endOf title) = p := by simp [take, targetOf]
      rw [hlines, replies_line (by simp [hnewline]) (by simp [hback]),
        foldlM_skip p (Or.inr rfl), List.foldl_cons, htake]
      exact ih h.2 _ _

/-- The targets, in the order of the file. -/
theorem optTarget_foldl_take (chunks : List Chunk) (p : Parsing) :
    (chunks.foldl take p).optTarget =
      p.optTarget ++ (chunks.filterMap targetOf).map Id.chars := by
  induction chunks generalizing p with
  | nil => simp
  | cons chunk chunks ih =>
    have hopt : (take p chunk).optTarget =
        p.optTarget ++ (targetOf chunk).toList.map Id.chars := rfl
    rw [List.foldl_cons, ih, hopt, List.filterMap_cons]
    cases targetOf chunk with
    | none => simp
    | some id => simp

theorem assign_congr {vars vars' : Env} {name : List Char} (h : vars name = vars' name)
    (c : Chunk) : assign vars c name = assign vars' c name := by
  cases c with
  | entry name' val =>
    rw [assign, assign]
    cases shellValue val with
    | none => exact h
    | some text =>
      show Function.update vars name' (some text) name =
        Function.update vars' name' (some text) name
      simp only [Function.update_apply, h]
  | heading title => exact h
  | endOf title => exact h

theorem assign_of_ne {name name' : List Char} (hne : name ≠ name') (vars : Env) (val : Written) :
    assign vars (.entry name' val) name = vars name := by
  rw [assign]
  cases shellValue val with
  | none => rfl
  | some text => exact Function.update_of_ne hne _ _

theorem vars_take (p : Parsing) (c : Chunk) (name : List Char) : (take p c).vars name =
    if name ∈ optionNames then assign p.vars c name else p.vars name := by
  cases c with
  | entry name' val =>
    show (if name' ∈ optionNames then assign p.vars (.entry name' val) else p.vars) name = _
    by_cases heq : name = name'
    · subst heq
      split
      · rfl
      · rfl
    · rw [assign_of_ne heq, ite_self]
      split
      · exact assign_of_ne heq _ _
      · rfl
  | heading title => exact (ite_self _).symm
  | endOf title => exact (ite_self _).symm

/-- The options are as if the file was sourced, and the other variables are as before. -/
theorem vars_foldl_take (chunks : List Chunk) (p : Parsing) (vars : Env) {name : List Char}
    (h : p.vars name = vars name) : (chunks.foldl take p).vars name =
      if name ∈ optionNames then chunks.foldl assign vars name else vars name := by
  induction chunks generalizing p vars with
  | nil => simp [h]
  | cons chunk chunks ih =>
    rw [List.foldl_cons, List.foldl_cons]
    by_cases hname : name ∈ optionNames
    · have hassign : (take p chunk).vars name = assign vars chunk name := by
        rw [vars_take, if_pos hname, assign_congr h]
      rw [ih _ _ hassign, if_pos hname, if_pos hname]
    · have hkept : (take p chunk).vars name = vars name := by
        rw [vars_take, if_neg hname, h]
      rw [ih _ _ hkept, if_neg hname, if_neg hname]

/-! ## The targets of the menu -/

section

variable {S C : Type} {m : Kconfig S C} {layout : List (Layout S C)}
  {user : Memo.Inputs m.InputVal} {val : ∀ k : Key S C, k.Val}

/-- What the script takes as it is: packages of type `bool`, options with plain values, and no
backslash outside of strings. -/
structure Parsable (m : Kconfig S C) (layout : List (Layout S C))
    (val : ∀ k : Key S C, k.Val) : Prop where
  start : ∀ s ∈ m.definedSyms, (m.sym s).name.head? ≠ some '#'
  back : ∀ s ∈ m.definedSyms, '\\' ∉ (m.sym s).name
  title : ∀ t ∈ titlesOf layout, '\\' ∉ t
  package : ∀ s ∈ m.definedSyms, "CONFIG_".toList <+: (m.sym s).name →
    (m.sym s).origType = .bool ∧ ∃ id : Id, (m.sym s).name = "CONFIG_".toList ++ id.chars
  option : ∀ s ∈ m.definedSyms, (m.sym s).name ∈ optionNames →
    ∀ text, (m.written val s).bind shellValue = some text → ∀ c ∈ text, isPlain c = true
  number : ∀ s ∈ m.definedSyms, ∀ text, m.written val s = some (.number text) →
    '\n' ∉ text ∧ '\\' ∉ text
  string : ∀ s ∈ m.definedSyms, ∀ text, m.written val s = some (.string text) → '\n' ∉ text

/-- The package of a symbol that is `y`. -/
def selected (m : Kconfig S C) (val : ∀ k : Key S C, k.Val) (s : S) : Option Id :=
  if triOf val s = 2 then packageOf (m.sym s).name else none

theorem selected_eq_some (hbook : Parsable m layout val) {s : S} (hs : s ∈ m.definedSyms) {n : Id} :
    selected m val s = some n ↔
      (m.sym s).name = "CONFIG_".toList ++ n.chars ∧ triOf val s = 2 := by
  rw [selected]
  constructor
  · intro h
    split at h
    next htwo =>
      by_cases hpre : "CONFIG_".toList <+: (m.sym s).name
      · obtain ⟨-, id, hid⟩ := hbook.package s hs hpre
        rw [hid, packageOf_chars] at h
        cases h
        exact ⟨hid, htwo⟩
      · rw [packageOf_of_not hpre] at h
        cases h
    · cases h
  · rintro ⟨hname, htwo⟩
    rw [if_pos htwo, hname, packageOf_chars]

variable [DecidableEq S]

/-- The packages that are set in the menu, in its order. -/
def targets (m : Kconfig S C) (layout : List (Layout S C)) (val : ∀ k : Key S C, k.Val) :
    List Id := (symsOf layout).eraseDups.filterMap (selected m val)

/-- A package is a target when its symbol is `y`. -/
theorem mem_targets (hm : m.Savable layout) (hbook : Parsable m layout val) (n : Id) :
    n ∈ targets m layout val ↔
      ∃ s ∈ m.definedSyms, (m.sym s).name = "CONFIG_".toList ++ n.chars ∧ triOf val s = 2 := by
  simp only [targets, List.mem_filterMap, List.mem_eraseDups, hm.listed]
  exact exists_congr fun s => and_congr_right fun hs => selected_eq_some hbook hs

theorem readAsIs_written (h : m.Solves user val) (hm : m.Savable layout)
    (hoff : m.modulesOn val = false) (hbook : Parsable m layout val) {s : S}
    (hs : s ∈ m.definedSyms) {w : Written} (hw : m.written val s = some w) :
    ReadAsIs (m.sym s).name w where
  isName := hm.name s hs
  start := hbook.start s hs
  back := hbook.back s hs
  option hname text htext := hbook.option s hs hname text (by rw [hw]; exact htext)
  package hpre := by
    obtain ⟨htype, id, hid⟩ := hbook.package s hs hpre
    have htri : (m.sym s).origType.isTri = true := by rw [htype]; rfl
    exact ⟨id, hid, triOf val s, Kconfig.written_tri htri hw,
      h.tri_ne_one hoff hm.plainly hs htri⟩
  fits := by
    cases w with
    | tri v => trivial
    | number text => exact hbook.number s hs text hw
    | string text => exact hbook.string s hs text hw

/-- The targets of the file are those of the menu: what is written for a symbol is its value, and
titles and menus make no target. -/
theorem filterMap_targetOf (h : m.Solves user val) (hm : m.Savable layout)
    {shown : Expr (Item S C) → Bool} (hbook : Parsable m layout val) :
    (walkAll [] (nodesOf (fun s => (m.sym s).name) (m.written val) shown layout)).1.filterMap
      targetOf = targets m layout val := by
  rw [filterMap_walkAll hm.eq_of_name fun title => ⟨rfl, rfl⟩, targets]
  refine List.filterMap_congr fun s hs => ?_
  have hmem : s ∈ m.definedSyms := (hm.listed s).mp (List.mem_eraseDups.mp hs)
  rw [selected]
  split
  next htwo =>
    have hne : triOf val s ≠ 0 := by
      rw [htwo]
      decide
    rw [h.written_of_tri hmem hne, htwo]
    rfl
  next hnot =>
    cases hw : m.written val s with
    | none => rfl
    | some w =>
      rw [Option.bind_some]
      by_cases hpre : "CONFIG_".toList <+: (m.sym s).name
      · have htri : (m.sym s).origType.isTri = true := by
          rw [(hbook.package s hmem hpre).1]
          rfl
        rw [Kconfig.written_tri htri hw, targetOf, if_neg hnot]
      · exact targetOf_of_not hpre w

/-- **The targets are the packages that are set in the menu**, in its order; without one there is
nothing to build. The options are the values of the menu. -/
theorem parseConfiguration_configText (h : m.Solves user val) (hm : m.Savable layout)
    (hoff : m.modulesOn val = false) (hbook : Parsable m layout val) {header : List Char}
    (hheader : '\n' ∉ header ∧ '\\' ∉ header) (vars : Env) :
    ∃ vars', parseConfiguration vars (m.configText header layout user val) =
        some (if targets m layout val = [] then .noTarget
          else .parsed (configurationOf vars' ((targets m layout val).map Id.chars))) ∧
      (∀ n, n ∈ targets m layout val ↔ ∃ s ∈ m.definedSyms,
        (m.sym s).name = "CONFIG_".toList ++ n.chars ∧ triOf val s = 2) ∧
      (∀ s ∈ m.definedSyms, (m.sym s).name ∈ optionNames → vars' (m.sym s).name =
        ((m.written val s).bind shellValue).or (vars (m.sym s).name)) ∧
      ∀ name, (name ∉ optionNames ∨ ∀ s ∈ m.definedSyms, (m.sym s).name ≠ name) →
        vars' name = vars name := by
  let chunks := (walkAll [] (nodesOf (fun s => (m.sym s).name) (m.written val)
    (fun e => exprValue (m.valuesOf user val) e ≠ 0) layout)).1
  have hreadable : ∀ c ∈ chunks, Readable c := by
    intro c hc
    rcases of_walkAll layout [] c hc with ⟨s, hs, w, hw, rfl⟩ | ⟨t, ht, rfl | rfl⟩
    · exact readAsIs_written h hm hoff hbook ((hm.listed s).mp hs) hw
    · exact ⟨(hm.title t ht).newline, hbook.title t ht⟩
    · exact ⟨(hm.title t ht).newline, hbook.title t ht⟩
  have hline : m.configText header layout user val =
      '#' :: ' ' :: header ++ '\n' :: chunksText false chunks := by
    simp [Kconfig.configText, configContents, chunks]
  have hlines : (replies [] (m.configText header layout user val)).foldlM readReply ⟨vars, []⟩ =
      some (chunks.foldl take ⟨vars, []⟩) := by
    rw [hline, replies_line (by simp [hheader.1]) (by simp [hheader.2]),
      foldlM_skip _ (Or.inr rfl), foldlM_replies hreadable]
  have hopt : (chunks.foldl take ⟨vars, []⟩).optTarget =
      (targets m layout val).map Id.chars := by
    rw [optTarget_foldl_take, filterMap_targetOf h hm hbook, List.nil_append]
  have hwords : words (joined ' ' ((targets m layout val).map Id.chars)) =
      some ((targets m layout val).map Id.chars) := by
    refine words_joined fun w hw => ?_
    obtain ⟨id, -, rfl⟩ := List.mem_map.mp hw
    refine ⟨fun hnil => ?_, fun c hc => (inWord_of_mem_chars hc).1⟩
    have hvalid := id.valid
    rw [hnil] at hvalid
    cases hvalid
  refine ⟨(chunks.foldl take ⟨vars, []⟩).vars, ?_, mem_targets hm hbook, fun s hs hoption => ?_,
    fun name hname => ?_⟩
  · rw [parseConfiguration, hlines, Option.bind_eq_bind, Option.bind_some, hopt]
    by_cases hnil : targets m layout val = []
    · rw [if_pos hnil, if_pos (by rw [hnil]; rfl)]
      rfl
    · rw [if_neg hnil, if_neg (by simpa using hnil), hwords]
      rfl
  · rw [vars_foldl_take chunks _ vars rfl, if_pos hoption]
    exact foldl_assign_written hm.toFiled hs vars
  · rw [vars_foldl_take chunks _ vars rfl]
    rcases hname with hnot | hother
    · rw [if_neg hnot]
    · split
      · exact foldl_assign_other hm.toFiled hother vars
      · rfl

end

/-! ## A part of a menu -/

/-- The symbols of two packages and of two options. -/
inductive PageSym where
  | n
  | y
  | modules
  | two
  | optDependency
  | sudo
  | unzip
  | zip
  deriving DecidableEq

def promptSym (name : String) (type : SymType) (prompts : List (Expr (Item PageSym Empty))) :
    SymDef PageSym Empty where
  name := name.toList
  origType := type
  isConstant := false
  fixed := none
  prompts := prompts
  defaults := []
  ranges := []
  revDep := .item (.sym .n)
  weakRevDep := .item (.sym .n)
  directDep := .item (.sym .y)
  choice := none
  hidden := false

def pageSym : PageSym → SymDef PageSym Empty
  | .n => { promptSym "n" .tristate [] with isConstant := true, fixed := some 0 }
  | .y => { promptSym "y" .tristate [] with isConstant := true, fixed := some 2 }
  | .modules => promptSym "MODULES" .unknown []
  | .two => { promptSym "2" .unknown [] with isConstant := true }
  | .optDependency =>
    { promptSym "optDependency" .int [] with
      defaults := [(.item (.sym .two), .item (.sym .y))] }
  | .sudo =>
    { promptSym "SUDO" .bool [.item (.sym .y)] with
      defaults := [(.item (.sym .y), .item (.sym .y))] }
  | .unzip => promptSym "CONFIG_unzip" .bool [.item (.sym .y)]
  | .zip => promptSym "CONFIG_zip" .bool [.item (.sym .y)]

/-- A menu with these symbols. -/
def pageMenu : Kconfig PageSym Empty where
  sym := pageSym
  choice := nofun
  modules := .modules
  definedSyms := [.optDependency, .unzip, .zip, .sudo]
  choices := []
  choice_listed := nofun
  constant_undefined s := by cases s <;> simp [pageSym, promptSym]
  fixed_constant s := by cases s <;> simp [pageSym, promptSym]
  undefined s := by cases s <;> simp [pageSym, promptSym]
  choice_ref _ c := c.elim
  choice_mem _ c := c.elim
  default_mem c := c.elim

def pageLayout : List (Layout PageSym Empty) :=
  [.symbol .optDependency [],
    .menu "Archives".toList (.item (.sym .y)) (.item (.sym .y))
      [.symbol .unzip [], .symbol .zip []],
    .symbol .sudo []]

def pageRank : Item PageSym Empty → Nat
  | .sym .n | .sym .y | .sym .modules | .sym .two | .choice _ => 0
  | .sym .optDependency | .sym .sudo | .sym .unzip | .sym .zip => 1

theorem pageMenu_layered : pageMenu.Layered pageRank where
  ref x hx i hi := by
    rcases x with s | c
    · change s ∈ [PageSym.optDependency, .unzip, .zip, .sudo] at hx
      have hconst : i = .sym .n ∨ i = .sym .y ∨ i = .sym .two := by
        simp only [List.mem_cons, List.not_mem_nil, or_false] at hx
        rcases hx with rfl | rfl | rfl | rfl
        all_goals
          simp [Kconfig.refs, pageMenu, pageSym, promptSym, SymDef.refs, exprItems] at hi
          tauto
      have hone : pageRank (.sym s) = 1 := by
        simp only [List.mem_cons, List.not_mem_nil, or_false] at hx
        rcases hx with rfl | rfl | rfl | rfl
        all_goals rfl
      left
      rw [hone]
      rcases hconst with rfl | rfl | rfl
      all_goals decide
    · exact c.elim
  member c := c.elim
  modules x hx _ := by
    rcases x with s | c
    · change s ∈ [PageSym.optDependency, .unzip, .zip, .sudo] at hx
      simp only [List.mem_cons, List.not_mem_nil, or_false] at hx
      rcases hx with rfl | rfl | rfl | rfl
      all_goals decide
    · exact c.elim

theorem pageMenu_savable : pageMenu.Savable pageLayout where
  plainly c := c.elim
  name s hs := by
    simp only [pageMenu, List.mem_cons, List.not_mem_nil, or_false] at hs
    rcases hs with rfl | rfl | rfl | rfl
    all_goals exact ⟨⟨by decide, by decide⟩, by decide, by decide, by decide⟩
  distinct s hs t ht hname := by
    cases s
    all_goals
      cases t
      all_goals first | rfl | exact absurd hname (by decide)
  listed s := by simp [pageLayout, symsOf, Layout.syms, pageMenu]
  title t ht := by
    simp only [pageLayout, titlesOf, Layout.titles, List.append_nil, List.nil_append,
      List.mem_singleton] at ht
    subst ht
    exact ⟨by decide, by decide⟩
  unset t ht s hs htri := by
    simp only [pageLayout, titlesOf, Layout.titles, List.append_nil, List.nil_append,
      List.mem_singleton] at ht
    subst ht
    cases s
    all_goals decide
  hidden s hs := by
    cases s
    all_goals cases hs

/-- The level is `2`, and the other symbols are of type `bool`. -/
theorem pageMenu_written {val : ∀ k : Key PageSym Empty, k.Val}
    (hlevel : val (.str .optDependency) = (['2'], true)) {s : PageSym}
    (hs : s ∈ pageMenu.definedSyms) {w : Written} (hw : pageMenu.written val s = some w) :
    w = .number ['2'] ∨ w = .tri (triOf val s) := by
  simp only [pageMenu, List.mem_cons, List.not_mem_nil, or_false] at hs
  rcases hs with rfl | rfl | rfl | rfl
  · rw [Kconfig.written, hlevel] at hw
    exact Or.inl (Option.some.inj hw).symm
  all_goals exact Or.inr (Kconfig.written_tri rfl hw)

theorem pageMenu_parsable {val : ∀ k : Key PageSym Empty, k.Val}
    (hlevel : val (.str .optDependency) = (['2'], true)) :
    Parsable pageMenu pageLayout val where
  start s hs := by
    cases s
    all_goals decide
  back s hs := by
    cases s
    all_goals decide
  title t ht := by
    simp only [pageLayout, titlesOf, Layout.titles, List.append_nil, List.nil_append,
      List.mem_singleton] at ht
    subst ht
    decide
  package s hs hpre := by
    simp only [pageMenu, List.mem_cons, List.not_mem_nil, or_false] at hs
    rcases hs with rfl | rfl | rfl | rfl
    · exact absurd hpre (by decide)
    · exact ⟨rfl, ⟨"unzip".toList, rfl⟩, rfl⟩
    · exact ⟨rfl, ⟨"zip".toList, rfl⟩, rfl⟩
    · exact absurd hpre (by decide)
  option s hs _ text htext c hc := by
    obtain ⟨w, hw, htri⟩ := Option.bind_eq_some_iff.mp htext
    rcases pageMenu_written hlevel hs hw with rfl | rfl
    · cases htri
      rw [List.mem_singleton.mp hc]
      decide
    · rw [shellValue] at htri
      split at htri
      · cases htri
        exact isPlain_triToStr hc
      · cases htri
  number s hs text hw := by
    rcases pageMenu_written hlevel hs hw with htext | htri
    · cases htext
      exact ⟨by decide, by decide⟩
    · cases htri
  string s hs text hw := by
    rcases pageMenu_written hlevel hs hw with htext | htri
    · cases htext
    · cases htri

/-- A package is selected. -/
theorem pageMenu_shows : ∃ val,
    pageMenu.Shows (pageMenu.setValue .zip (.tri 2) pageMenu.start) val ∧
    pageMenu.modulesOn val = false ∧ val (.str .optDependency) = (['2'], true) ∧
    triOf val .sudo = 2 ∧ targets pageMenu pageLayout val = [⟨"zip".toList, rfl⟩] := by
  obtain ⟨val, hval⟩ := Kconfig.exists_shows pageMenu_layered
    (Kconfig.Reachable.step (.setValue PageSym.zip (.tri 2)) .start)
  have hmodules : val (.tri .modules) = (0, false) := hval.eq_of_compute 20 rfl
  have hlevel : val (.str .optDependency) = (['2'], true) := hval.eq_of_compute 20 rfl
  have hunzip : val (.tri .unzip) = (0, true) := hval.eq_of_compute 20 rfl
  have hzip : val (.tri .zip) = (2, true) := hval.eq_of_compute 20 rfl
  have hsudo : val (.tri .sudo) = (2, true) := hval.eq_of_compute 20 rfl
  have hoff : triOf val pageMenu.modules = 0 := congrArg Prod.fst hmodules
  have hsyms : (symsOf pageLayout).eraseDups =
      [PageSym.optDependency, .unzip, .zip, .sudo] := rfl
  have hselected : selected pageMenu val .unzip = none ∧
      selected pageMenu val .zip = some ⟨"zip".toList, rfl⟩ ∧
      selected pageMenu val .sudo = none := by
    simp only [selected, triOf, hunzip, hzip, hsudo]
    exact ⟨rfl, rfl, rfl⟩
  have hnone : selected pageMenu val .optDependency = none := by
    rw [selected]
    split
    · rfl
    · rfl
  exact ⟨val, hval, by simp [Kconfig.modulesOn, hoff], hlevel, congrArg Prod.fst hsudo,
    by simp [targets, hsyms, hselected, hnone]⟩

/-- The file is read. -/
theorem pageMenu_targets : ∃ val vars',
    pageMenu.Shows (pageMenu.setValue .zip (.tri 2) pageMenu.start) val ∧
    parseConfiguration (fun _ => none) (pageMenu.configText "Automatically generated".toList
      pageLayout (pageMenu.setValue .zip (.tri 2) pageMenu.start).user val) =
        some (.parsed (configurationOf vars' ["zip".toList])) ∧
    vars' "SUDO".toList = some ['y'] := by
  obtain ⟨val, hval, hoff, hlevel, hsudo, htargets⟩ := pageMenu_shows
  have hheader : '\n' ∉ "Automatically generated".toList ∧
      '\\' ∉ "Automatically generated".toList := ⟨by decide, by decide⟩
  obtain ⟨vars', hparse, -, hoption, -⟩ :=
    parseConfiguration_configText hval.solves pageMenu_savable hoff (pageMenu_parsable hlevel)
      hheader (fun _ => none)
  have hwritten : pageMenu.written val .sudo = some (.tri 2) := by
    rw [hval.solves.written_of_tri (by simp [pageMenu]) (by simp [hsudo]), hsudo]
  refine ⟨val, vars', hval, ?_, ?_⟩
  · refine hparse.trans ?_
    rw [htargets]
    rfl
  · refine (hoption .sudo (by simp [pageMenu]) (by decide)).trans ?_
    rw [hwritten]
    rfl

end Jhalfs.Book
