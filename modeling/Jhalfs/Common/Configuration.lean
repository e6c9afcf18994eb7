import Jhalfs.Base.Assignments
import Jhalfs.Menu.Reload

/-!
# What the shell reads of the menu

The file that the menu is saved to is a shell script: `jhalfs` and `install-blfs-tools.sh`
source it.

- `assign`: what a part of the file sets. A symbol that is `n` is a comment, and sets nothing.
- `Sourced` and `Literal`: the values in which the shell expands nothing. A value with a `$` or
  a backquote is not modelled.
- `source_chunksText`: the variables after some parts of the file, by a fold over the parts.
  The shell takes off the backslashes that the menu has put on (`quoted_escape`).
- `foldl_assign_written` and `foldl_assign_other`: in this fold a symbol has the value that is
  written for it, as its name occurs with no other, and a name that is no symbol keeps its value.

**Main result**: `source_configText`. After the file is sourced the variables are the values of
the menu, for the symbols that are written and not `n`; the other variables are as before. For
the symbols of two or three values, with `n` for what is not set, they say what the menu says.
-/

namespace Jhalfs.Common

open Text Menu Shell Kconfig

/-! ## Sourcing the file -/

/-- What is set to a written value; `n` is a comment. -/
def shellValue : Written → Option (List Char)
  | .tri val => if val ≠ 0 then some (triToStr val) else none
  | .number val | .string val => some val

/-- What a part of the file sets. -/
def assign (vars : Env) : Chunk → Env
  | .entry name val =>
    match shellValue val with
    | some text => vars.set name text
    | none => vars
  | .heading _ | .endOf _ => vars

/-- Where the shell expands nothing. -/
def Sourced : Chunk → Prop
  | .entry name val => Shell.isName name = true ∧
    match val with
    | .tri _ => True
    | .number text => ∀ c ∈ text, isPlain c = true
    | .string text => '$' ∉ text ∧ '\x60' ∉ text
  | .heading title | .endOf title => '\n' ∉ title

/-- The shell takes off the backslashes that the menu has put on. -/
theorem quoted_escape {val : List Char} (h : '$' ∉ val ∧ '\x60' ∉ val) :
    Quoted (escape val) val := by
  induction val with
  | nil => exact .nil
  | cons c val ih =>
    rw [List.mem_cons, not_or, List.mem_cons, not_or] at h
    have hval := ih ⟨h.1.2, h.2.2⟩
    have hactive : isActive c = true ↔ c = '\\' ∨ c = '"' := by
      simp [isActive, Ne.symm h.1.1, Ne.symm h.2.1, or_comm]
    rw [escape_cons]
    split
    next hc => exact .escaped (hactive.mpr hc) hval
    next hc => exact .plain (Bool.eq_false_iff.mpr fun heq => hc (hactive.mp heq)) hval

theorem isPlain_triToStr {val : Tri} {c : Char} (h : c ∈ triToStr val) : isPlain c = true := by
  match val with
  | 0 => rw [List.mem_singleton.mp h]; decide
  | 1 => rw [List.mem_singleton.mp h]; decide
  | 2 => rw [List.mem_singleton.mp h]; decide

/-- The line of a symbol. -/
theorem source_configString (vars : Env) {name : List Char} {val : Written}
    (h : Sourced (.entry name val)) (s : List Char) :
    source vars (configString name val ++ s) = source (assign vars (.entry name val)) s := by
  obtain ⟨hname, hval⟩ := h
  cases val with
  | tri val =>
    rw [configString]
    split
    next hne =>
      have hplain : ∀ c ∈ triToStr val, isPlain c = true := fun c hc => isPlain_triToStr hc
      have hline : name ++ '=' :: (triToStr val ++ ['\n']) ++ s =
          name ++ '=' :: (triToStr val ++ '\n' :: s) := by simp
      rw [hline, source_plain vars hname hplain]
      simp [assign, shellValue, hne]
    next hzero =>
      have hnewline : '\n' ∉ ' ' :: (name ++ " is not set".toList) := by
        have hnot := newline_notMem_of_isName hname
        simp [hnot]
      have hline : "# ".toList ++ name ++ " is not set\n".toList ++ s =
          '#' :: (' ' :: (name ++ " is not set".toList) ++ '\n' :: s) := by simp
      rw [hline, source_comment vars hnewline]
      simp [assign, shellValue, hzero]
  | number text =>
    have hline : configString name (.number text) ++ s = name ++ '=' :: (text ++ '\n' :: s) := by
      simp [configString]
    rw [hline, source_plain vars hname hval]
    rfl
  | string text =>
    have hline : configString name (.string text) ++ s =
        name ++ '=' :: '"' :: (escape text ++ '"' :: '\n' :: s) := by
      simp [configString]
    rw [hline, source_quoted vars hname (quoted_escape hval)]
    rfl

theorem source_newline (vars : Env) (s : List Char) : source vars ('\n' :: s) = source vars s :=
  rfl

/-- The variables after some parts of the file. -/
theorem source_chunksText {chunks : List Chunk} (h : ∀ c ∈ chunks, Sourced c) (vars : Env)
    (afterEnd : Bool) :
    source vars (chunksText afterEnd chunks) = some (chunks.foldl assign vars) := by
  induction chunks generalizing vars afterEnd with
  | nil => rfl
  | cons chunk chunks ih =>
    rw [List.forall_mem_cons] at h
    cases chunk with
    | entry name val =>
      have hline : source vars (configString name val ++ chunksText false chunks) =
          some (chunks.foldl assign (assign vars (.entry name val))) :=
        (source_configString vars h.1 _).trans (ih h.2 _ _)
      cases afterEnd with
      | false => exact hline
      | true => exact (source_newline vars _).trans hline
    | heading title =>
      have hnot : '\n' ∉ title := h.1
      have htitle : '\n' ∉ ' ' :: title := by simp [hnot]
      have hlines : chunksText afterEnd (.heading title :: chunks) = '\n' :: '#' ::
          ([] ++ '\n' :: '#' :: (' ' :: title ++ '\n' :: '#' ::
            ([] ++ '\n' :: chunksText false chunks))) := by
        rw [chunksText.eq_def]
        simp
      rw [hlines, source_newline, source_comment vars List.not_mem_nil,
        source_comment vars htitle, source_comment vars List.not_mem_nil, ih h.2]
      rfl
    | endOf title =>
      have htitle : '\n' ∉ " end of ".toList ++ title := by
        have hnot : '\n' ∉ title := h.1
        simp [hnot]
      have hlines : chunksText afterEnd (.endOf title :: chunks) =
          '#' :: (" end of ".toList ++ title ++ '\n' :: chunksText true chunks) := by
        rw [chunksText.eq_def]
        simp
      rw [hlines, source_comment vars htitle, ih h.2]
      rfl

/-- What the file does not set is as before. -/
theorem foldl_assign_of_none {chunks : List Chunk} {name : List Char}
    (h : ∀ val, .entry name val ∈ chunks → shellValue val = none) (vars : Env) :
    chunks.foldl assign vars name = vars name := by
  induction chunks generalizing vars with
  | nil => rfl
  | cons chunk chunks ih =>
    rw [List.foldl_cons, ih fun val hval => h val (List.mem_cons_of_mem _ hval)]
    cases chunk with
    | entry name' val =>
      rw [assign]
      cases htext : shellValue val with
      | none => rfl
      | some text =>
        refine Function.update_of_ne ?_ _ _
        rintro rfl
        rw [h val List.mem_cons_self] at htext
        cases htext
    | heading title => rfl
    | endOf title => rfl

/-- A name that occurs with one value only. -/
theorem foldl_assign_of_mem {chunks : List Chunk} {name text : List Char} {val : Written}
    (hmem : .entry name val ∈ chunks) (h : ∀ val', .entry name val' ∈ chunks → val' = val)
    (htext : shellValue val = some text) (vars : Env) :
    chunks.foldl assign vars name = some text := by
  induction chunks generalizing vars with
  | nil => cases hmem
  | cons chunk chunks ih =>
    have hrest : ∀ val', .entry name val' ∈ chunks → val' = val := fun val' hval' =>
      h val' (List.mem_cons_of_mem _ hval')
    rw [List.foldl_cons]
    by_cases hlater : .entry name val ∈ chunks
    · exact ih hlater hrest _
    · have hchunk : chunk = .entry name val :=
        ((List.mem_cons.mp hmem).resolve_right hlater).symm
      rw [foldl_assign_of_none fun val' hval' => absurd (hrest val' hval' ▸ hval') hlater, hchunk]
      show (match shellValue val with
        | some text => vars.set name text
        | none => vars) name = some text
      rw [htext]
      exact Function.update_self ..

section

variable {S C : Type} {m : Kconfig S C} {layout : List (Layout S C)}
  {user : Memo.Inputs m.InputVal} {val : ∀ k : Key S C, k.Val}

/-- The names and values that the shell takes as they are: names of variables, numbers of plain
characters, and strings in which nothing is expanded. -/
def Literal (m : Kconfig S C) (val : ∀ k : Key S C, k.Val) : Prop :=
  ∀ s ∈ m.definedSyms, ∀ w, m.written val s = some w → Sourced (.entry (m.sym s).name w)

variable [DecidableEq S] [DecidableEq C]

omit [DecidableEq S] [DecidableEq C] in
/-- The values that occur with the name of a symbol. -/
theorem written_of_entry (hm : m.Filed layout) {shown : Expr (Item S C) → Bool} {s : S}
    (hs : s ∈ m.definedSyms) {w : Written} (hmem : .entry (m.sym s).name w ∈
      (walkAll [] (nodesOf (fun s => (m.sym s).name) (m.written val) shown layout)).1) :
    m.written val s = some w := by
  rcases of_walkAll layout [] _ hmem with ⟨t, ht, w', hw, heq⟩ | ⟨t, ht, heq | heq⟩
  · obtain ⟨hname, rfl⟩ := Chunk.entry.inj heq
    rw [← hw, hm.distinct t ((hm.listed t).mp ht) s hs hname]
  · cases heq
  · cases heq

omit [DecidableEq C] in
/-- The variable of a symbol, when all symbols are set that are written. -/
theorem foldl_assign_written (hm : m.Filed layout) {shown : Expr (Item S C) → Bool} {s : S}
    (hs : s ∈ m.definedSyms) (vars : Env) :
    (walkAll [] (nodesOf (fun s => (m.sym s).name) (m.written val) shown layout)).1.foldl assign
      vars (m.sym s).name = ((m.written val s).bind shellValue).or (vars (m.sym s).name) := by
  cases htext : (m.written val s).bind shellValue with
  | none =>
    refine foldl_assign_of_none (fun w hw => ?_) vars
    rw [written_of_entry hm hs hw] at htext
    exact htext
  | some text =>
    obtain ⟨w, hw, htext⟩ := Option.bind_eq_some_iff.mp htext
    refine foldl_assign_of_mem ?_ (fun w' hw' => ?_) htext vars
    · exact entry_mem_walkAll hm.eq_of_name ((hm.listed s).mpr hs) hw
    · have hwritten := written_of_entry hm hs hw'
      rw [hw] at hwritten
      exact (Option.some.inj hwritten).symm

omit [DecidableEq S] [DecidableEq C] in
/-- The other variables. -/
theorem foldl_assign_other (hm : m.Filed layout) {shown : Expr (Item S C) → Bool}
    {name : List Char} (hname : ∀ s ∈ m.definedSyms, (m.sym s).name ≠ name) (vars : Env) :
    (walkAll [] (nodesOf (fun s => (m.sym s).name) (m.written val) shown layout)).1.foldl assign
      vars name = vars name := by
  refine foldl_assign_of_none (fun w hw => ?_) vars
  rcases of_walkAll layout [] _ hw with ⟨t, ht, w', -, heq⟩ | ⟨t, ht, heq | heq⟩
  · exact absurd (Chunk.entry.inj heq).1.symm (hname t ((hm.listed t).mp ht))
  · cases heq
  · cases heq

omit [DecidableEq C] in
/-- **The variables are the values of the menu** when the file is sourced: those of the symbols
that are written and not `n`. With `n` for what is not set, they say what the menu says. -/
theorem source_configText (hm : m.Filed layout) (hval : Literal m val) {header : List Char}
    (hheader : OneLine header) (vars : Env) :
    ∃ vars', source vars (m.configText header layout user val) = some vars' ∧
      (∀ s ∈ m.definedSyms, vars' (m.sym s).name =
        ((m.written val s).bind shellValue).or (vars (m.sym s).name)) ∧
      (∀ name, (∀ s ∈ m.definedSyms, (m.sym s).name ≠ name) → vars' name = vars name) ∧
      (m.Solves user val → ∀ s ∈ m.definedSyms, (m.sym s).origType.isTri = true →
        vars (m.sym s).name = none → vars'.getD (m.sym s).name ['n'] = triToStr (triOf val s)) := by
  let chunks := (walkAll [] (nodesOf (fun s => (m.sym s).name) (m.written val)
    (fun e => exprValue (m.valuesOf user val) e ≠ 0) layout)).1
  have hsourced : ∀ c ∈ chunks, Sourced c := by
    intro c hc
    rcases of_walkAll layout [] c hc with ⟨s, hs, w, hw, rfl⟩ | ⟨t, ht, rfl | rfl⟩
    · exact hval s ((hm.listed s).mp hs) w hw
    · exact (hm.title t ht).newline
    · exact (hm.title t ht).newline
  have hnewline : '\n' ∉ ' ' :: header := by
    have hnot := hheader.newline
    simp [hnot]
  have hline : m.configText header layout user val =
      '#' :: (' ' :: header ++ '\n' :: chunksText false chunks) := by
    simp [Kconfig.configText, configContents, chunks]
  refine ⟨chunks.foldl assign vars, ?_, fun s hs => foldl_assign_written hm hs vars,
    fun name hname => foldl_assign_other hm hname vars, fun h s hs htri hnone => ?_⟩
  · rw [hline, source_comment vars hnewline, source_chunksText hsourced]
  · rw [Env.getD, Env.get, foldl_assign_written hm hs, hnone, Option.or_none]
    by_cases hzero : triOf val s = 0
    · have hbind : (m.written val s).bind shellValue = none := by
        cases hw : m.written val s with
        | none => rfl
        | some w =>
          rw [Kconfig.written_tri htri hw, hzero]
          rfl
      rw [hbind, hzero]
      rfl
    · rw [h.written_of_tri hs hzero]
      have htext : shellValue (.tri (triOf val s)) = some (triToStr (triOf val s)) := if_pos hzero
      have hne : triToStr (triOf val s) ≠ [] := by
        obtain ⟨c, hc, -⟩ := triToStr_eq (triOf val s)
        simp [hc]
      rw [Option.bind_some, htext, Option.getD_some, if_neg hne]

end

/-- A menu for the BLFS book is saved, and sourced. -/
theorem bookMenu_source : ∃ val vars',
    bookMenu.Shows (bookMenu.setValue .bookBlfs (.tri 2) bookMenu.start) val ∧
    source (fun _ => none) (bookMenu.configText "Automatically generated".toList bookLayout
      (bookMenu.setValue .bookBlfs (.tri 2) bookMenu.start).user val) = some vars' ∧
    vars'.getD "BOOK_BLFS".toList ['n'] = triToStr (triOf val .bookBlfs) := by
  obtain ⟨val, hval⟩ := exists_shows bookMenu_layered
    (Reachable.step (.setValue BookSym.bookBlfs (.tri 2)) .start)
  have hinitsys : val (.str .initsys) = ([], false) := hval.eq_of_compute 20 rfl
  have hliteral : Literal bookMenu val := by
    intro s hs w hw
    simp only [bookMenu, List.mem_cons, List.not_mem_nil, or_false] at hs
    rcases hs with rfl | rfl | rfl | rfl
    · rw [written_tri rfl hw]
      exact ⟨by decide, trivial⟩
    · rw [written_tri rfl hw]
      exact ⟨by decide, trivial⟩
    · rw [written, hinitsys] at hw
      cases hw
    · rw [written_tri rfl hw]
      exact ⟨by decide, trivial⟩
  have hheader : OneLine "Automatically generated".toList := ⟨by decide, by decide⟩
  obtain ⟨vars', hsource, -, -, hget⟩ :=
    source_configText bookMenu_savable.toFiled hliteral hheader (fun _ => none)
  exact ⟨val, vars', hval, hsource, hget hval.solves .bookBlfs (by simp [bookMenu]) rfl rfl⟩

end Jhalfs.Common
