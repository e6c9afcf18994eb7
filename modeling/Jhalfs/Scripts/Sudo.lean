import Jhalfs.Base.Shell
import Jhalfs.Scripts.Commands
import Jhalfs.Scripts.Install

/-!
# Commands for root

With `sudo='y'` the instructions for root are given to a child shell by a here-document.
This shell is called without `-e`, so there a command that fails does not stop the
script, unless it is the last one. This file compares the script with the one that
`sudo='n'` gives.

- `items`: the script that the calls write, as commands and here-documents with commands.
- `runPage`: the commands that are executed and whether one of them has stopped the script. A
  command is known by its number, and the outcome of each is given.
- `runs`: the commands of a page in sequences, for the user who builds or for one shell of root.
  An instruction for root goes on with the sequence before it, unless it is a test.
- `Joined`: with sudo there is no `&&` in a sequence that is not there without, and none at its
  end. This holds of all sequences (`joined_runs`), by what is known of the last command of an
  instruction.

The script with sudo is the sequences, those for root as here-documents
(`items_processInstall_sudo`), and the script without is their commands
(`written_processInstall`). Both are by induction on the instructions, along the branches of
`process-install`. Statistics and the wrapper are off. Then the templates that open or close a
test suite or the documentation write nothing, and what is commented out is not run
(`uncommented_eq_nil`).

**Main result**: `runPage_sudo_iff`. The two scripts run the same commands with the same result
exactly if each sequence of instructions for root that is reached can run in a child shell as well
(`Shell.allSheltered`).
-/

namespace Jhalfs.Scripts

open Text

/-! ## The two scripts -/

/-- `la-files-instr` (scripts.xsl:41–47), one compound command. -/
def laFilesInstr : List Char :=
  "\n\nfor libdir in /lib /usr/lib $(find /opt -name lib); do
  find $libdir -name \\*.la           \\
             ! -path \\*ImageMagick\\* \\
               -delete
done".toList

/-- The text that the shell of root gets. -/
def rootText (withSudo : Bool) (s : List Char) : List Char := if withSudo then expand s else s

/-- The commands on the lines that are no comments. -/
def uncommented (s : List Char) : List Command :=
  ((lines s).filter fun l => l.head? != some '#').filterMap command

/-- The commands that a call writes, without the lines that open or close a here-document.
Without statistics the calls for tests and documentation write comments only. -/
def Call.commands (P : Params) : Call → List Command
  | .root i => Scripts.commands (rootText P.withSudo ('\n' :: outputRoot P.withSudo i.text))
  | .install i => Scripts.commands (rootText P.withSudo ('\n' :: outputInstall P i.text))
  | .user i => Scripts.commands ('\n' :: removeAmpersand i.text)
  | .test i => uncommented (processTest false
      ('\n' :: if i.root then outputRoot P.withSudo i.text else removeAmpersand i.text))
  | .comment i => uncommented (outputCommentOut ('\n' :: outputInstall P i.text) ++ ['\n'])
  | .doc i => uncommented (processDoc false ('\n' :: removeAmpersand i.text))
  | .endInstall =>
    if P.delLaFiles then
      [⟨rootText P.withSudo (outputRoot P.withSudo laFilesInstr), false⟩]
    else []
  | _ => []

/-- A command of the script, or the commands of a here-document. -/
inductive Item where
  | cmd (c : Command)
  | child (cs : List Command)

/-- The script that the calls write. The first argument is the here-document that is
open. -/
def items (P : Params) : Option (List Command) → List Call → List Item
  | none, [] => []
  | some body, [] => [.child body]
  | none, .beginRoot :: cs =>
    if P.withSudo then items P (some []) cs else items P none cs
  | some body, .endRoot :: cs => .child body :: items P none cs
  | none, c :: cs => (c.commands P).map .cmd ++ items P none cs
  | some body, c :: cs => items P (some (body ++ c.commands P)) cs

/-- Number the commands and give each its outcome. -/
def steps (ok : Nat → Bool) : Nat → List Command → List (Shell.Step (Nat × List Char))
  | _, [] => []
  | n, c :: cs => ⟨(n, c.text), ok n, c.chained⟩ :: steps ok (n + 1) cs

def blocks (ok : Nat → Bool) : Nat → List Item → List (Shell.Block (Nat × List Char))
  | _, [] => []
  | n, .cmd c :: is => .cmd ⟨(n, c.text), ok n, c.chained⟩ :: blocks ok (n + 1) is
  | n, .child cs :: is => .sub (steps ok n cs) :: blocks ok (n + cs.length) is

/-- The instructions of a page: each ends with a command. -/
abbrev Page := List { i : Instruction // endsCommand i.text = true }

/-- Run the script of a page: the commands that were executed, and whether one of them
has stopped it. -/
def runPage (P : Params) (page : Page) (ok : Nat → Bool) : List (Nat × List Char) × Bool :=
  Shell.runScript false
    (blocks ok 0 (items P none
      (processInstall false false false false false (page.map Subtype.val))))

/-! ## Sequences of instructions for root -/

/-- Commands for the user who builds, or for one shell of root. With sudo the latter are the content
of one here-document. -/
structure Run where
  child : Bool
  marks : List Mark

/-- The loop that removes the `.la` files. -/
def laMark : Mark := ⟨laFilesInstr, false, false⟩

def closeRun (delLaFiles : Bool) (root : Option (List Mark)) (install : Bool) : List Run :=
  match root with
  | none => []
  | some ms => [⟨true, ms ++ if install && delLaFiles then [laMark] else []⟩]

/-- The commands of the instructions, those for root in sequences: an instruction for
root goes on with the sequence before it, unless it is a test. The loop on the `.la`
files stands after what was installed. -/
def runs (delLaFiles : Bool) (root : Option (List Mark)) (install : Bool) :
    List Instruction → List Run
  | [] => closeRun delLaFiles root install
  | i :: is =>
    if i.root && i.remap == some .test then
      closeRun delLaFiles root install ++ runs delLaFiles (some []) false is
    else if i.root && i.remap == some .doc then
      runs delLaFiles (some (root.getD [])) true is
    else if i.root then
      if detectConfig i.text then
        runs delLaFiles
          (some (root.getD [] ++ (if install && delLaFiles then [laMark] else []) ++
            marks (marked i.text))) false is
      else runs delLaFiles (some (root.getD [] ++ marks (markedInstall i.text))) true is
    else if i.remap == some .test || i.isCommand || i.remap == some .doc then
      closeRun delLaFiles root install ++ runs delLaFiles none false is
    else
      closeRun delLaFiles root install ++ ⟨false, marks (marked i.text)⟩ ::
        runs delLaFiles none false is

/-- Number the commands of the sequences. -/
def twices (ok : Nat → Bool) : Nat → List Mark → List (Shell.Twice (Nat × List Char))
  | _, [] => []
  | n, m :: ms => ⟨(n, m.text), ok n, m.kept, m.keptSudo⟩ :: twices ok (n + 1) ms

def parts (ok : Nat → Bool) : Nat → List Run → List (Shell.Part (Nat × List Char))
  | _, [] => []
  | n, r :: rs =>
    (if r.child then .child (twices ok n r.marks) else .plain (twices ok n r.marks)) ::
      parts ok (n + r.marks.length) rs

/-- A sequence in the script. -/
def Run.items (withSudo : Bool) (r : Run) : List Item :=
  if r.child && withSudo then [.child (r.marks.map (Mark.command true))]
  else r.marks.map fun m => .cmd (m.command false)

/-! ## The commands of each call -/

theorem uncommented_eq_nil {s : List Char} (h : Commented s) : uncommented s = [] := by
  rw [uncommented, List.filterMap_eq_nil_iff]
  intro l hl
  rw [List.mem_filter] at hl
  rcases h l hl.1 with rfl | hhead
  · rfl
  · rw [hhead] at hl
    exact absurd hl.2 (by decide)

theorem commands_newline (s : List Char) : Scripts.commands ('\n' :: s) = Scripts.commands s := by
  rw [Scripts.commands, lines_newline, List.filterMap_cons]
  rfl

@[simp] theorem commands_test (P : Params) (i : Instruction) : (Call.test i).commands P = [] :=
  uncommented_eq_nil (commented_processTest _)

@[simp] theorem commands_comment (P : Params) (i : Instruction) :
    (Call.comment i).commands P = [] :=
  uncommented_eq_nil ((commented_outputCommentOut _).append_newline commented_nil)

@[simp] theorem commands_doc (P : Params) (i : Instruction) : (Call.doc i).commands P = [] :=
  uncommented_eq_nil (commented_outputCommentOut _)

theorem expand_newline (s : List Char) : expand ('\n' :: s) = '\n' :: expand s :=
  expand_cons (by decide) s

theorem commands_root (delLaFiles withSudo : Bool) (i : Instruction) :
    (Call.root i).commands ⟨withSudo, false, delLaFiles⟩ =
      (marks (marked i.text)).map (Mark.command withSudo) := by
  show Scripts.commands (rootText withSudo ('\n' :: outputRoot withSudo i.text)) = _
  cases withSudo with
  | true =>
    show Scripts.commands (expand ('\n' :: outputRoot true i.text)) = _
    rw [expand_newline, commands_newline, (outputRoot_spec i.text).2, commands_render]
  | false =>
    show Scripts.commands ('\n' :: outputRoot false i.text) = _
    rw [commands_newline, outputRoot_false, commands_render]

theorem commands_install (delLaFiles withSudo : Bool) (i : Instruction) :
    (Call.install i).commands ⟨withSudo, false, delLaFiles⟩ =
      (marks (markedInstall i.text)).map (Mark.command withSudo) := by
  show Scripts.commands
    (rootText withSudo ('\n' :: outputInstall ⟨withSudo, false, delLaFiles⟩ i.text)) = _
  obtain ⟨hplain, -, hsudo⟩ := outputInstall_spec delLaFiles i.text
  cases withSudo with
  | true =>
    show Scripts.commands (expand ('\n' :: outputInstall ⟨true, false, delLaFiles⟩ i.text)) = _
    rw [expand_newline, commands_newline, hsudo, commands_render]
  | false =>
    show Scripts.commands ('\n' :: outputInstall ⟨false, false, delLaFiles⟩ i.text) = _
    rw [commands_newline, hplain, commands_render]

theorem commands_user (P : Params) (i : Instruction) :
    (Call.user i).commands P = (marks (marked i.text)).map (Mark.command false) := by
  show Scripts.commands ('\n' :: removeAmpersand i.text) = _
  rw [commands_newline, removeAmpersand_eq, commands_render]

theorem rootText_outputRoot {s : List Char} (h : ¬ contains s ampNewline = true)
    (withSudo : Bool) : rootText withSudo (outputRoot withSudo s) = s := by
  have hmarked : marked s = unmarked s := by rw [marked, if_neg h]
  cases withSudo with
  | true =>
    show expand (outputRoot true s) = s
    rw [(outputRoot_spec s).2, hmarked, render_unmarked]
  | false =>
    show outputRoot false s = s
    rw [outputRoot_false, hmarked, render_unmarked]

theorem not_contains_laFilesInstr : ¬ contains laFilesInstr ampNewline = true := by
  intro h
  have hmem : '&' ∈ laFilesInstr := (contains_iff.mp h).subset (by decide)
  exact absurd hmem (by decide +kernel)

/-- The loop is the same command in both scripts. -/
theorem commands_endInstall (delLaFiles withSudo : Bool) :
    Call.commands ⟨withSudo, false, delLaFiles⟩ .endInstall =
      (if delLaFiles then [laMark] else []).map (Mark.command withSudo) := by
  unfold Call.commands
  dsimp only
  rw [rootText_outputRoot not_contains_laFilesInstr]
  cases delLaFiles with
  | true => simp only [if_true, List.map_cons, List.map_nil, Mark.command, laMark, ite_self]
  | false => rfl

/-! ## The scripts as sequences -/

/-- The calls that write nothing. -/
def Call.isQuiet : Call → Bool
  | .beginInstall => true
  | .beginTest => true
  | .endTest => true
  | .beginDoc => true
  | .endDoc => true
  | .endMake => true
  | _ => false

@[simp] theorem items_quiet (P : Params) (body : Option (List Command)) {c : Call}
    (hc : c.isQuiet = true) (cs : List Call) : items P body (c :: cs) = items P body cs := by
  cases c with
  | beginInstall | beginTest | endTest | beginDoc | endDoc | endMake =>
    cases body with
    | none => rfl
    | some cmds => exact congrArg (fun x => items P (some x) cs) (List.append_nil cmds)
  | _ => cases hc

theorem items_when_quiet (P : Params) (body : Option (List Command)) (b : Bool) {c : Call}
    (hc : c.isQuiet = true) (cs : List Call) : items P body (when b c ++ cs) = items P body cs := by
  cases b with
  | true => exact items_quiet P body hc cs
  | false => rfl

theorem items_skip (P : Params) (body : Option (List Command)) {qs : List Call}
    (hqs : ∀ c ∈ qs, c.isQuiet = true) (cs : List Call) :
    items P body (qs ++ cs) = items P body cs := by
  induction qs with
  | nil => rfl
  | cons c qs ih =>
    rw [List.cons_append, items_quiet P body (hqs c List.mem_cons_self),
      ih fun d hd => hqs d (List.mem_cons_of_mem _ hd)]

/-- What `process-install` writes before a test of the user. -/
theorem quiet_testOpening (test doc : Bool) :
    ∀ c ∈ (if !test then when (!doc) .endMake ++ [.beginTest] else [] : List Call),
      c.isQuiet = true := by
  intro c hc
  cases test <;> cases doc <;> simp at hc
  · rcases hc with rfl | rfl <;> rfl
  · exact hc ▸ rfl

/-- What it writes before the documentation. -/
theorem quiet_docOpening (root test doc : Bool) :
    ∀ c ∈ (if !doc || root then when (!test && !root) .endMake ++ [.beginDoc] else [] :
      List Call), c.isQuiet = true := by
  intro c hc
  split at hc
  · cases h : (!test && !root) with
    | true =>
      rw [h, when_true] at hc
      rcases List.mem_cons.mp hc with rfl | hc
      · rfl
      · exact List.mem_singleton.mp hc ▸ rfl
    | false =>
      rw [h] at hc
      exact List.mem_singleton.mp hc ▸ rfl
  · exact absurd hc List.not_mem_nil

section Sudo

variable (delLaFiles : Bool)

/-- The here-document that is open, with the commands that it has so far, when a sequence for
root is. -/
def hereDoc (root : Option (List Mark)) : Option (List Command) :=
  root.map fun ms => ms.map (Mark.command true)

theorem items_close (root : Option (List Mark)) (install : Bool)
    (h : install = true → root.isSome = true) (cs : List Call) :
    items ⟨true, false, delLaFiles⟩ (hereDoc root)
        (when install .endInstall ++ (when root.isSome .endRoot ++ cs)) =
      (closeRun delLaFiles root install).flatMap (Run.items true) ++
        items ⟨true, false, delLaFiles⟩ none cs := by
  cases root with
  | none =>
    cases install with
    | true => exact absurd (h rfl) (by decide)
    | false => rfl
  | some ms =>
    have hopen : items ⟨true, false, delLaFiles⟩ (hereDoc (some ms))
        (when install .endInstall ++ (.endRoot :: cs)) =
        .child ((ms ++ if install && delLaFiles then [laMark] else []).map (Mark.command true)) ::
          items ⟨true, false, delLaFiles⟩ none cs := by
      cases install with
      | true =>
        show items _ (some (ms.map (Mark.command true) ++
          Call.commands ⟨true, false, delLaFiles⟩ .endInstall)) (.endRoot :: cs) = _
        rw [commands_endInstall, ← List.map_append]
        rfl
      | false => rw [Bool.false_and, if_neg Bool.false_ne_true, List.append_nil]; rfl
    rw [Option.isSome_some, when_true, List.singleton_append, hopen, closeRun, List.flatMap_cons,
      List.flatMap_nil, List.append_nil]
    rfl

theorem items_open (root : Option (List Mark)) (cs : List Call) :
    items ⟨true, false, delLaFiles⟩ (hereDoc root) (when (!root.isSome) .beginRoot ++ cs) =
      items ⟨true, false, delLaFiles⟩ (hereDoc (some (root.getD []))) cs := by
  cases root <;> rfl

/-- Before an instruction of configuration, what was installed is closed, and root stays. -/
theorem items_config (root : Option (List Mark)) (install : Bool)
    (h : install = true → root.isSome = true) (b c : Bool) (cs : List Call) :
    items ⟨true, false, delLaFiles⟩ (hereDoc root)
        (when install .endInstall ++ (when b .endTest ++ (when c .endDoc ++
          (when (!root.isSome) .beginRoot ++ cs)))) =
      items ⟨true, false, delLaFiles⟩
        (hereDoc (some (root.getD [] ++ if install && delLaFiles then [laMark] else []))) cs := by
  cases install with
  | true =>
    cases root with
    | none => exact absurd (h rfl) (by decide)
    | some ms =>
      show items _ (some (_ ++ Call.commands ⟨true, false, delLaFiles⟩ .endInstall)) _ = _
      rw [commands_endInstall, ← List.map_append]
      show items _ _ (when b .endTest ++ (when c .endDoc ++ (when false .beginRoot ++ cs))) = _
      rw [items_when_quiet _ _ _ rfl, items_when_quiet _ _ _ rfl]
      rfl
  | false =>
    rw [Bool.false_and, if_neg Bool.false_ne_true, List.append_nil, when_false, List.nil_append,
      items_when_quiet _ _ _ rfl, items_when_quiet _ _ _ rfl, items_open]

/-- **With sudo**, the script is the sequences, those for root as one here-document each. By
induction on the instructions, with the sequence that is open. -/
theorem items_processInstall_sudo (root : Option (List Mark)) (install test doc : Bool)
    (h : install = true → root.isSome = true) (is : List Instruction) :
    items ⟨true, false, delLaFiles⟩ (hereDoc root)
        (processInstall false root.isSome install test doc is) =
      (runs delLaFiles root install is).flatMap (Run.items true) := by
  induction is generalizing root install test doc with
  | nil =>
    have hclose := items_close delLaFiles root install h
      (when (doc && !root.isSome) .endDoc ++ when test .endTest)
    rw [processInstall, runs, List.append_assoc, List.append_assoc, hclose,
      items_when_quiet _ _ _ rfl]
    have hquiet : items ⟨true, false, delLaFiles⟩ none (when test .endTest ++ []) = [] :=
      items_when_quiet _ _ _ rfl []
    rw [List.append_nil] at hquiet
    rw [hquiet, List.append_nil]
  | cons i is ih =>
    rw [processInstall, runs]
    split
    · -- a test for root is commented out: a here-document begins without commands
      rw [List.append_assoc, List.append_assoc, List.append_assoc, items_close _ _ _ h,
        items_when_quiet _ _ _ rfl, items_when_quiet _ _ _ rfl, List.flatMap_append,
        ← ih (some []) false true false (fun h => by cases h)]
      congr 1
      show items _ (some ([] ++ Call.commands _ (.test i))) _ = _
      rw [commands_test]
      rfl
    · split
      -- documentation for root is commented out, and the here-document stays open
      · rw [List.append_assoc, List.append_assoc, List.append_assoc, items_when_quiet _ _ _ rfl,
          items_when_quiet _ _ _ rfl, items_open, items_when_quiet _ _ _ rfl,
          ← ih (some (root.getD [])) true false true (fun _ => rfl)]
        show items _ (some (_ ++ Call.commands _ (.comment i))) _ = _
        rw [commands_comment, List.append_nil]
        rfl
      · split
        · split
          · -- configuration: it is not recorded, and what was before it is closed
            rw [List.append_assoc, List.append_assoc, List.append_assoc, items_config _ _ _ h,
              ← ih (some _) false false false (fun h => by cases h)]
            show items _ (some (_ ++ Call.commands _ (.root i))) _ = _
            rw [commands_root, ← List.map_append]
            rfl
          -- an installation goes on in the here-document that is open
          · rw [Bool.false_and, if_neg Bool.false_ne_true, List.append_nil, List.append_assoc,
              List.append_assoc, List.append_assoc, items_when_quiet _ _ _ rfl,
              items_when_quiet _ _ _ rfl, items_open, items_when_quiet _ _ _ rfl,
              ← ih (some _) true false false (fun _ => rfl)]
            show items _ (some (_ ++ Call.commands _ (.install i))) _ = _
            rw [commands_install, ← List.map_append]
            rfl
        -- an instruction of the user ends the here-document
        · by_cases htest : (i.remap == some .test || i.isCommand) = true
          · rw [if_pos htest, htest, Bool.true_or, if_pos rfl, List.append_assoc, List.append_assoc,
              List.append_assoc, items_close _ _ _ h, items_when_quiet _ _ _ rfl,
              items_skip _ _ (quiet_testOpening test doc), List.flatMap_append,
              ← ih none false true false (fun h => by cases h)]
            congr 1
            show (Call.commands _ (.test i)).map Item.cmd ++ items _ none _ = _
            rw [commands_test]
            rfl
          · rw [if_neg htest, Bool.eq_false_iff.mpr htest, Bool.false_or]
            split
            · rw [List.append_assoc, List.append_assoc, List.append_assoc, items_close _ _ _ h,
                items_when_quiet _ _ _ rfl, items_skip _ _ (quiet_docOpening _ test doc),
                List.flatMap_append, ← ih none false false true (fun h => by cases h)]
              congr 1
              show (Call.commands _ (.doc i)).map Item.cmd ++ items _ none _ = _
              rw [commands_doc]
              rfl
            · rw [List.append_assoc, List.append_assoc, List.append_assoc, items_close _ _ _ h,
                items_when_quiet _ _ _ rfl, items_when_quiet _ _ _ rfl, List.flatMap_append,
                List.flatMap_cons, ← ih none false false false (fun h => by cases h)]
              congr 1
              show (Call.commands _ (.user i)).map Item.cmd ++ items _ none _ = _
              rw [commands_user, List.map_map]
              rfl

/-! Without sudo no here-document is opened. -/

/-- All the commands of the calls. -/
def written (cs : List Call) : List Command :=
  cs.flatMap (Call.commands ⟨false, false, delLaFiles⟩)

theorem items_none (cs : List Call) :
    items ⟨false, false, delLaFiles⟩ none cs = (written delLaFiles cs).map .cmd := by
  induction cs with
  | nil => rfl
  | cons c cs ih =>
    rw [written, List.flatMap_cons, List.map_append, ← written, ← ih]
    cases c <;> rfl

theorem written_append (cs ds : List Call) :
    written delLaFiles (cs ++ ds) = written delLaFiles cs ++ written delLaFiles ds :=
  List.flatMap_append

theorem written_cons (c : Call) (cs : List Call) : written delLaFiles (c :: cs) =
    c.commands ⟨false, false, delLaFiles⟩ ++ written delLaFiles cs := List.flatMap_cons

/-- The calls that write nothing when no here-document is opened. -/
def Call.isSilent : Call → Bool
  | .beginRoot => true
  | .endRoot => true
  | c => c.isQuiet

theorem Call.isSilent_of_isQuiet {c : Call} (h : c.isQuiet = true) : c.isSilent = true := by
  cases c <;> first | rfl | cases h

theorem written_skip {qs : List Call} (hqs : ∀ c ∈ qs, c.isSilent = true) (cs : List Call) :
    written delLaFiles (qs ++ cs) = written delLaFiles cs := by
  have hnil : written delLaFiles qs = [] := by
    refine List.flatMap_eq_nil_iff.mpr fun c hc => ?_
    have hsilent := hqs c hc
    cases c <;> first | rfl | cases hsilent
  rw [written_append, hnil, List.nil_append]

theorem written_when (b : Bool) {c : Call} (hc : c.isSilent = true) (cs : List Call) :
    written delLaFiles (when b c ++ cs) = written delLaFiles cs := by
  refine written_skip delLaFiles (fun d hd => ?_) cs
  cases b with
  | true => exact List.mem_singleton.mp hd ▸ hc
  | false => exact absurd hd List.not_mem_nil

theorem written_endInstall (install : Bool) (cs : List Call) :
    written delLaFiles (when install .endInstall ++ cs) =
      (if install && delLaFiles then [laMark] else []).map (Mark.command false) ++
        written delLaFiles cs := by
  rw [written_append]
  cases install with
  | true =>
    rw [when_true, written_cons, commands_endInstall]
    exact congrArg (· ++ _) (List.append_nil _)
  | false => rfl

/-- The marks of the sequence that is open. -/
theorem marks_close (root : Option (List Mark)) (install : Bool)
    (h : install = true → root.isSome = true) :
    (closeRun delLaFiles root install).flatMap Run.marks =
      root.getD [] ++ if install && delLaFiles then [laMark] else [] := by
  cases root with
  | none =>
    cases install with
    | true => exact absurd (h rfl) (by decide)
    | false => rfl
  | some ms => exact List.append_nil _

/-- **Without sudo**, the commands are those of the sequences, one after the other and with no
here-document. -/
theorem written_processInstall (root : Option (List Mark)) (install test doc : Bool)
    (h : install = true → root.isSome = true) (is : List Instruction) :
    (root.getD []).map (Mark.command false) ++
        written delLaFiles (processInstall false root.isSome install test doc is) =
      ((runs delLaFiles root install is).flatMap Run.marks).map (Mark.command false) := by
  induction is generalizing root install test doc with
  | nil =>
    have hend : written delLaFiles (when test .endTest ++ []) = [] :=
      written_when delLaFiles test rfl []
    rw [List.append_nil] at hend
    rw [processInstall, runs, marks_close delLaFiles root install h, List.append_assoc,
      List.append_assoc, written_endInstall, written_when _ _ rfl, written_when _ _ rfl, hend,
      List.map_append, List.append_nil]
  | cons i is ih =>
    rw [processInstall, runs]
    split
    · rw [List.append_assoc, List.append_assoc, List.append_assoc, written_endInstall,
        written_when _ _ rfl, written_when _ _ rfl, written_when _ _ rfl, List.flatMap_append,
        List.map_append, marks_close _ _ _ h, ← ih (some []) false true false (fun h => by cases h),
        List.map_append, List.append_assoc]
      congr 2
      rw [written_cons, written_cons, commands_test]
      rfl
    -- without sudo the brackets write nothing, so only the marks are left
    · split
      · rw [List.append_assoc, List.append_assoc, List.append_assoc, written_when _ _ rfl,
          written_when _ _ rfl, written_when _ _ rfl, written_when _ _ rfl, written_cons,
          commands_comment, List.nil_append, ← ih (some _) true false true (fun _ => rfl)]
        rfl
      · split
        · split
          · rw [List.append_assoc, List.append_assoc, List.append_assoc, written_endInstall,
              written_when _ _ rfl, written_when _ _ rfl, written_when _ _ rfl, written_cons,
              commands_root, ← ih (some _) false false false (fun h => by cases h),
              Option.getD_some, List.map_append, List.map_append, List.append_assoc,
              List.append_assoc]
            rfl
          · rw [Bool.false_and, if_neg Bool.false_ne_true, List.append_nil, List.append_assoc,
              List.append_assoc, List.append_assoc, written_when _ _ rfl, written_when _ _ rfl,
              written_when _ _ rfl, written_when _ _ rfl, written_cons, commands_install,
              ← ih (some _) true false false (fun _ => rfl), Option.getD_some, List.map_append,
              List.append_assoc]
            rfl
        · have hsilent : ∀ {qs : List Call}, (∀ c ∈ qs, c.isQuiet = true) →
              ∀ c ∈ qs, c.isSilent = true := fun hqs c hc => Call.isSilent_of_isQuiet (hqs c hc)
          by_cases htest : (i.remap == some .test || i.isCommand) = true
          · rw [if_pos htest, htest, Bool.true_or, if_pos rfl, List.append_assoc, List.append_assoc,
              List.append_assoc, written_endInstall, written_when _ _ rfl, written_when _ _ rfl,
              written_skip _ (hsilent (quiet_testOpening test doc)), written_cons, commands_test,
              List.flatMap_append, List.map_append, marks_close _ _ _ h,
              ← ih none false true false (fun h => by cases h), List.map_append, List.append_assoc]
            rfl
          · rw [if_neg htest, Bool.eq_false_iff.mpr htest, Bool.false_or]
            split
            · rw [List.append_assoc, List.append_assoc, List.append_assoc, written_endInstall,
                written_when _ _ rfl, written_when _ _ rfl,
                written_skip _ (hsilent (quiet_docOpening _ test doc)), written_cons, commands_doc,
                List.flatMap_append, List.map_append, marks_close _ _ _ h,
                ← ih none false false true (fun h => by cases h), List.map_append,
                List.append_assoc]
              rfl
            · rw [List.append_assoc, List.append_assoc, List.append_assoc, written_endInstall,
                written_when _ _ rfl, written_when _ _ rfl, written_when _ _ rfl, written_cons,
                commands_user, List.flatMap_append, List.map_append, marks_close _ _ _ h,
                List.flatMap_cons, List.map_append, List.map_append,
                ← ih none false false false (fun h => by cases h), List.append_assoc]
              rfl

end Sudo

/-! ## Numbered commands -/

theorem steps_map_sudo (ok : Nat → Bool) (n : Nat) (ms : List Mark) :
    steps ok n (ms.map (Mark.command true)) = (twices ok n ms).map Shell.Twice.nested := by
  induction ms generalizing n with
  | nil => rfl
  | cons m ms ih => exact congrArg (_ :: ·) (ih (n + 1))

theorem blocks_append_cmds (ok : Nat → Bool) (n : Nat) (ms : List Mark) (is : List Item) :
    blocks ok n ((ms.map fun m => .cmd (m.command false)) ++ is) =
      ((twices ok n ms).map fun t => .cmd t.direct) ++ blocks ok (n + ms.length) is := by
  induction ms generalizing n with
  | nil => rfl
  | cons m ms ih =>
    have hlen : n + (m :: ms).length = n + 1 + ms.length := by
      rw [List.length_cons]
      omega
    rw [hlen]
    exact congrArg (_ :: ·) (ih (n + 1))

theorem blocks_nested (ok : Nat → Bool) (n : Nat) (rs : List Run) :
    blocks ok n (rs.flatMap (Run.items true)) = (parts ok n rs).flatMap Shell.Part.nested := by
  induction rs generalizing n with
  | nil => rfl
  | cons r rs ih =>
    obtain ⟨child, ms⟩ := r
    rw [List.flatMap_cons, parts, List.flatMap_cons]
    cases child with
    | true =>
      show .sub (steps ok n (ms.map (Mark.command true))) ::
        blocks ok (n + (ms.map (Mark.command true)).length) (rs.flatMap (Run.items true)) = _
      rw [steps_map_sudo, List.length_map, ih]
      rfl
    | false =>
      show blocks ok n ((ms.map fun m => .cmd (m.command false)) ++ _) = _
      rw [blocks_append_cmds, ih]
      rfl

theorem blocks_direct (ok : Nat → Bool) (n : Nat) (rs : List Run) :
    blocks ok n ((rs.flatMap Run.marks).map fun m => .cmd (m.command false)) =
      (parts ok n rs).flatMap Shell.Part.direct := by
  induction rs generalizing n with
  | nil => rfl
  | cons r rs ih =>
    obtain ⟨child, ms⟩ := r
    rw [List.flatMap_cons, List.map_append, blocks_append_cmds, ih, parts, List.flatMap_cons]
    cases child <;> rfl

theorem commands_parts (ok : Nat → Bool) (n : Nat) (rs : List Run) :
    (parts ok n rs).flatMap Shell.Part.commands = twices ok n (rs.flatMap Run.marks) := by
  induction rs generalizing n with
  | nil => rfl
  | cons r rs ih =>
    have happend : ∀ (n : Nat) (ms ns : List Mark),
        twices ok n (ms ++ ns) = twices ok n ms ++ twices ok (n + ms.length) ns := by
      intro n ms ns
      induction ms generalizing n with
      | nil => rfl
      | cons m ms ihm =>
        have hlen : n + (m :: ms).length = n + 1 + ms.length := by
          rw [List.length_cons]
          omega
        rw [hlen]
        exact congrArg (_ :: ·) (ihm (n + 1))
    rw [parts, List.flatMap_cons, List.flatMap_cons, happend, ih]
    split <;> rfl

/-- No two commands have the same number. -/
theorem nodup_twices (ok : Nat → Bool) (n : Nat) (ms : List Mark) :
    ((twices ok n ms).map Shell.Twice.cmd).Nodup := by
  have hle : ∀ (n : Nat) (ms : List Mark), ∀ t ∈ twices ok n ms, n ≤ t.cmd.1 := by
    intro n ms
    induction ms generalizing n with
    | nil => exact fun t ht => absurd ht List.not_mem_nil
    | cons m ms ih =>
      intro t ht
      rcases List.mem_cons.mp ht with rfl | ht
      · exact Nat.le_refl n
      · exact Nat.le_of_succ_le (ih (n + 1) t ht)
  induction ms generalizing n with
  | nil => exact List.nodup_nil
  | cons m ms ih =>
    rw [twices, List.map_cons, List.nodup_cons]
    refine ⟨fun hmem => ?_, ih (n + 1)⟩
    obtain ⟨t, ht, heq⟩ := List.mem_map.mp hmem
    have hlt := hle (n + 1) ms t ht
    rw [heq] at hlt
    exact Nat.not_succ_le_self n hlt

/-! ## The `&&` of the sequences -/

/-- With sudo there is no `&&` that is not there without, and none at the end. -/
structure Joined (ms : List Mark) : Prop where
  le : ∀ m ∈ ms, m.keptSudo = true → m.kept = true
  closed : ∀ m, ms.getLast? = some m → m.kept = false

theorem Joined.append {ms ns : List Mark} (hms : Joined ms) (hns : Joined ns) :
    Joined (ms ++ ns) := by
  constructor
  · intro m hm
    exact (List.mem_append.mp hm).elim (hms.le m) (hns.le m)
  · intro m hm
    rw [List.getLast?_append] at hm
    cases hlast : ns.getLast? with
    | none =>
      rw [hlast] at hm
      exact hms.closed m hm
    | some k =>
      rw [hlast] at hm
      exact hns.closed m (hlast.trans hm)

theorem joined_nil : Joined [] := ⟨fun m hm => absurd hm List.not_mem_nil, fun m hm => by cases hm⟩

theorem joined_la (b : Bool) : Joined (if b then [laMark] else []) := by
  cases b with
  | false => exact joined_nil
  | true =>
    constructor
    · intro m hm hsudo
      rw [List.mem_singleton.mp hm] at hsudo
      cases hsudo
    · intro m hm
      rw [if_pos rfl, List.getLast?_singleton, Option.some.injEq] at hm
      exact hm ▸ rfl

theorem joined_of_getLast {s : List Sym} {text : List Char} (hordered : Ordered s)
    (hlast : (marks s).getLast? = some ⟨text, false, false⟩) : Joined (marks s) := by
  constructor
  · intro m hm hsudo
    exact keptSudo_le_of_mem_marks hordered hm hsudo
  · intro m hm
    rw [hlast] at hm
    cases hm
    rfl

theorem joined_marked {s : List Char} (h : endsCommand s = true) : Joined (marks (marked s)) := by
  obtain ⟨text, hlast⟩ := getLast_marks_marked h
  exact joined_of_getLast (ordered_marked s) hlast

theorem joined_markedInstall {s : List Char} (h : endsCommand s = true) :
    Joined (marks (markedInstall s)) := by
  obtain ⟨text, hlast⟩ := getLast_marks_markedInstall h
  exact joined_of_getLast (ordered_markedInstall s) hlast

theorem joined_runs (delLaFiles : Bool) {root : Option (List Mark)} (install : Bool)
    {is : List Instruction} (hroot : Joined (root.getD []))
    (his : ∀ i ∈ is, endsCommand i.text = true) :
    ∀ r ∈ runs delLaFiles root install is, Joined r.marks := by
  have hclose : ∀ {root : Option (List Mark)} (install : Bool), Joined (root.getD []) →
      ∀ r ∈ closeRun delLaFiles root install, Joined r.marks := by
    intro root install hroot r hr
    cases root with
    | none => exact absurd hr List.not_mem_nil
    | some ms => exact List.mem_singleton.mp hr ▸ hroot.append (joined_la _)
  induction is generalizing root install with
  | nil => exact hclose install hroot
  | cons i is ih =>
    have hi := his i List.mem_cons_self
    have ih' := fun (root : Option (List Mark)) (install : Bool) (hroot : Joined (root.getD [])) =>
      ih install hroot fun j hj => his j (List.mem_cons_of_mem _ hj)
    intro r hr
    rw [runs] at hr
    split at hr
    · rcases List.mem_append.mp hr with hr | hr
      · exact hclose install hroot r hr
      · exact ih' (some []) false joined_nil r hr
    · split at hr
      · exact ih' (some _) true hroot r hr
      · split at hr
        · split at hr
          · exact ih' (some _) false ((hroot.append (joined_la _)).append (joined_marked hi)) r hr
          · exact ih' (some _) true (hroot.append (joined_markedInstall hi)) r hr
        · split at hr
          · rcases List.mem_append.mp hr with hr | hr
            · exact hclose install hroot r hr
            · exact ih' none false joined_nil r hr
          · rcases List.mem_append.mp hr with hr | hr
            · exact hclose install hroot r hr
            · rcases List.mem_cons.mp hr with rfl | hr
              · exact joined_marked hi
              · exact ih' none false joined_nil r hr

theorem Joined.fits {ms : List Mark} (h : Joined ms) (ok : Nat → Bool) (n : Nat) :
    Shell.Fits (twices ok n ms) := by
  constructor
  · intro t ht
    have hle := h.le
    clear h
    induction ms generalizing n with
    | nil => exact absurd ht List.not_mem_nil
    | cons m ms ih =>
      rcases List.mem_cons.mp ht with rfl | ht
      · exact hle m List.mem_cons_self
      · exact ih (n + 1) ht fun k hk => hle k (List.mem_cons_of_mem _ hk)
  · have hclosed := h.closed
    clear h
    induction ms generalizing n with
    | nil => exact fun s hs => by cases hs
    | cons m ms ih =>
      cases ms with
      | nil =>
        intro s hs
        cases hs
        exact hclosed m rfl
      | cons k ms =>
        intro s hs
        refine ih (n + 1) (fun m' hm' => hclosed m' ?_) s ?_
        · rw [List.getLast?_cons_cons]
          exact hm'
        · exact hs

theorem fits_parts (ok : Nat → Bool) (n : Nat) {rs : List Run} (h : ∀ r ∈ rs, Joined r.marks) :
    ∀ p ∈ parts ok n rs, Shell.Fits p.commands := by
  induction rs generalizing n with
  | nil => exact fun p hp => absurd hp List.not_mem_nil
  | cons r rs ih =>
    intro p hp
    rcases List.mem_cons.mp hp with rfl | hp
    · have hfits := (h r List.mem_cons_self).fits ok n
      split
      · exact hfits
      · exact hfits
    · exact ih (n + r.marks.length) (fun q hq => h q (List.mem_cons_of_mem _ hq)) p hp

/-! ## The two scripts of a page -/

/-- The sequences of a page that the two scripts run. -/
def pageParts (delLaFiles : Bool) (page : Page) (ok : Nat → Bool) :
    List (Shell.Part (Nat × List Char)) :=
  parts ok 0 (runs delLaFiles none false (page.map Subtype.val))

/-- **The scripts with and without sudo run the same commands with the same result
exactly if each sequence for root that is reached can run in a child shell.** -/
theorem runPage_sudo_iff (delLaFiles : Bool) (page : Page) (ok : Nat → Bool) :
    runPage ⟨true, false, delLaFiles⟩ page ok = runPage ⟨false, false, delLaFiles⟩ page ok ↔
      Shell.allSheltered (pageParts delLaFiles page ok) = true := by
  have hends : ∀ i ∈ page.map Subtype.val, endsCommand i.text = true := by
    intro i hi
    obtain ⟨j, -, rfl⟩ := List.mem_map.mp hi
    exact j.property
  have hnone : false = true → (none : Option (List Mark)).isSome = true := fun h => by cases h
  have hsudo : items ⟨true, false, delLaFiles⟩ none
      (processInstall false false false false false (page.map Subtype.val)) =
      (runs delLaFiles none false (page.map Subtype.val)).flatMap (Run.items true) :=
    items_processInstall_sudo delLaFiles none false false false hnone _
  have hplain : written delLaFiles
      (processInstall false false false false false (page.map Subtype.val)) =
      ((runs delLaFiles none false (page.map Subtype.val)).flatMap Run.marks).map
        (Mark.command false) :=
    written_processInstall delLaFiles none false false false hnone _
  rw [runPage, runPage, hsudo, items_none, hplain, List.map_map, blocks_nested]
  show _ = Shell.runScript false
    (blocks ok 0 (List.map (fun m : Mark => .cmd (m.command false)) _)) ↔ _
  rw [blocks_direct]
  refine Shell.runScript_nested_iff (fits_parts ok 0 ?_) ?_
  · exact joined_runs delLaFiles false joined_nil hends
  · rw [commands_parts]
    exact nodup_twices ok 0 _

/-- An installation of two commands. -/
def twoCommands : Page :=
  [⟨⟨false, true, none, "make install &&\nln -sf libfoo.so.1 /usr/lib/libfoo.so".toList⟩,
    by decide⟩]

/-- The first of the two commands fails, and root goes on with the second. -/
theorem runPage_twoCommands : ∃ ok : Nat → Bool,
    runPage ⟨true, false, false⟩ twoCommands ok =
      ([(0, "make -j1 install".toList),
        (1, "ln -sf libfoo.so.1 /usr/lib/libfoo.so".toList)], false) ∧
    runPage ⟨false, false, false⟩ twoCommands ok = ([(0, "make -j1 install".toList)], true) :=
  ⟨fun n => n != 0, by decide +kernel, by decide +kernel⟩

end Jhalfs.Scripts
