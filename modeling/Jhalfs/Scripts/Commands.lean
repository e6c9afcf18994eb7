import Jhalfs.Scripts.Lines

/-!
# The commands of an instruction

Each line of a script that is not blank is one command, and `&&` at its end joins it to
the next one. The marked texts of `Scripts.Lines` stand for both scripts at once, and so do
the commands here: each has a text, and two flags that say whether `&&` follows.

- `command` and `commands`: the command on a line, and those of a text. The end of a line is read
  backwards, past blanks and `&&`.
- `linesOf`: the lines of a marked text, with the flags of their ends.
- `Mark` and `marks`: a command with both flags, and those of a marked text. The commands of a
  marked text are those of the text that is written (`commands_render`).
- `lastInk`: the last character of a text that is not white space, from which follows what the
  last command is.
- `endsCommand`: an instruction ends with a command that no `&&` follows.

**Main results**: without sudo a command has every `&&` that it has with sudo
(`keptSudo_le_of_mem_marks`), and the last command of an instruction has none
(`getLast_marks_marked`, `getLast_marks_markedInstall`). The lines behind that command are blank
(`linesOf_ends`).
-/

namespace Jhalfs.Scripts

open Text

def isBlank (c : Char) : Bool := c == ' ' || c == '\t'

/-- A command, and whether `&&` follows. -/
structure Command where
  text : List Char
  chained : Bool
  deriving DecidableEq

/-- The end of a line, read backwards: blanks and `&&` are taken off. -/
def takeEnd : List Char → List Char × Bool
  | ' ' :: s => takeEnd s
  | '\t' :: s => takeEnd s
  | '&' :: '&' :: s => ((takeEnd s).1, true)
  | s => (s, false)

/-- The command on a line. -/
def command (line : List Char) : Option Command :=
  match takeEnd line.reverse with
  | ([], _) => none
  | (c :: s, chained) => some ⟨(c :: s).reverse, chained⟩

/-- The commands of a text. -/
def commands (s : List Char) : List Command := (lines s).filterMap command

/-! ## Marked lines -/

/-- A line of a marked text, with the flags of its end. -/
structure Line where
  text : List Char
  kept : Bool
  keptSudo : Bool

/-- The line as it is written. -/
def Line.render (withSudo : Bool) (l : Line) : List Char :=
  l.text ++ if (if withSudo then l.keptSudo else l.kept) then " &&".toList else []

/-- The lines of a marked text. -/
def linesOf : List Sym → List Line
  | [] => [⟨[], false, false⟩]
  | .lineEnd kept keptSudo :: s => ⟨[], kept, keptSudo⟩ :: linesOf s
  | .char c :: s =>
    if c = '\n' then ⟨[], false, false⟩ :: linesOf s
    else
      match linesOf s with
      | [] => [⟨[c], false, false⟩]
      | l :: ls => { l with text := c :: l.text } :: ls

theorem linesOf_ne_nil (s : List Sym) : linesOf s ≠ [] := by
  cases s with
  | nil => exact List.cons_ne_nil _ _
  | cons x s =>
    cases x with
    | lineEnd kept keptSudo => exact List.cons_ne_nil _ _
    | char c =>
      rw [linesOf]
      split
      · exact List.cons_ne_nil _ _
      · cases linesOf s with
        | nil => exact List.cons_ne_nil _ _
        | cons l ls => exact List.cons_ne_nil _ _

theorem lines_render (withSudo : Bool) (s : List Sym) :
    lines (render withSudo s) = (linesOf s).map (Line.render withSudo) := by
  induction s with
  | nil => cases withSudo <;> rfl
  | cons x s ih =>
    rw [render_cons]
    cases x with
    | lineEnd kept keptSudo =>
      rw [linesOf, List.map_cons, ← ih]
      cases withSudo <;> cases kept <;> cases keptSudo <;> rfl
    | char c =>
      show lines (c :: render withSudo s) = _
      rw [lines, linesOf]
      by_cases hc : c = '\n'
      · rw [if_pos hc, if_pos hc, ih, List.map_cons, Line.render]
        cases withSudo <;> rfl
      · rw [if_neg hc, if_neg hc, ih]
        cases linesOf s with
        | nil => cases withSudo <;> rfl
        | cons l ls => rfl

/-! ## Commands of both scripts -/

/-- A command, with whether `&&` follows without sudo and with it. -/
structure Mark where
  text : List Char
  kept : Bool
  keptSudo : Bool
  deriving DecidableEq

def Mark.command (withSudo : Bool) (m : Mark) : Command :=
  ⟨m.text, if withSudo then m.keptSudo else m.kept⟩

/-- The command on a marked line. -/
def Line.mark (l : Line) : Option Mark :=
  match takeEnd l.text.reverse with
  | ([], _) => none
  | (c :: s, chained) => some ⟨(c :: s).reverse, chained || l.kept, chained || l.keptSudo⟩

/-- The commands of a marked text. -/
def marks (s : List Sym) : List Mark := (linesOf s).filterMap Line.mark

theorem command_render (withSudo : Bool) (l : Line) :
    command (l.render withSudo) = l.mark.map (Mark.command withSudo) := by
  obtain ⟨text, kept, keptSudo⟩ := l
  rw [Line.render, Line.mark, command]
  dsimp only
  cases hkept : (if withSudo then keptSudo else kept) with
  | true =>
    have hend : takeEnd (text ++ " &&".toList).reverse = ((takeEnd text.reverse).1, true) := by
      rw [List.reverse_append]
      rfl
    rw [if_pos rfl, hend]
    obtain ⟨t, chained⟩ := takeEnd text.reverse
    cases t with
    | nil => rfl
    | cons c t =>
      dsimp only
      rw [Option.map_some, Mark.command]
      dsimp only
      cases withSudo <;> simp_all
  | false =>
    rw [if_neg Bool.false_ne_true, List.append_nil]
    obtain ⟨t, chained⟩ := takeEnd text.reverse
    cases t with
    | nil => rfl
    | cons c t =>
      dsimp only
      rw [Option.map_some, Mark.command]
      dsimp only
      cases withSudo <;> simp_all

/-- **The commands of a marked text** are those of the text that is written, for both scripts:
the marks of a line become the `&&` at its end. -/
theorem commands_render (withSudo : Bool) (s : List Sym) :
    commands (render withSudo s) = (marks s).map (Mark.command withSudo) := by
  rw [commands, marks, lines_render, List.filterMap_map, List.map_filterMap]
  refine List.filterMap_congr fun l _ => ?_
  exact command_render withSudo l

/-! ## Flags -/

theorem keptSudo_le_of_mem_marks {s : List Sym} (h : Ordered s) {m : Mark} (hm : m ∈ marks s)
    (hsudo : m.keptSudo = true) : m.kept = true := by
  have hlines : ∀ l ∈ linesOf s, l.keptSudo = true → l.kept = true := by
    clear hm
    induction s with
    | nil =>
      intro l hl hsudo
      rw [linesOf, List.mem_singleton] at hl
      subst hl
      cases hsudo
    | cons x s ih =>
      have ih' := ih fun kept keptSudo hmem => h kept keptSudo (List.mem_cons_of_mem _ hmem)
      intro l hl hsudo
      cases x with
      | lineEnd kept keptSudo =>
        rw [linesOf] at hl
        rcases List.mem_cons.mp hl with rfl | hl
        · exact h kept keptSudo List.mem_cons_self hsudo
        · exact ih' l hl hsudo
      | char c =>
        rw [linesOf] at hl
        split at hl
        · rcases List.mem_cons.mp hl with rfl | hl
          · cases hsudo
          · exact ih' l hl hsudo
        · cases hs : linesOf s with
          | nil => exact absurd hs (linesOf_ne_nil s)
          | cons k ks =>
            rw [hs] at hl
            rcases List.mem_cons.mp hl with rfl | hl
            · exact ih' k (hs ▸ List.mem_cons_self) hsudo
            · exact ih' l (hs ▸ List.mem_cons_of_mem _ hl) hsudo
  obtain ⟨l, hl, hmark⟩ := List.mem_filterMap.mp hm
  rw [Line.mark] at hmark
  split at hmark
  · cases hmark
  · cases hmark
    rw [Bool.or_eq_true] at hsudo ⊢
    exact hsudo.imp_right (hlines l hl)

/-! ## The end of an instruction -/

/-- A character that is not white space of the shell. -/
def isInk (c : Char) : Bool := !isBlank c && c != '\n'

/-- What a marked character can leave at the end of a text. -/
def Sym.ink : Sym → Option Char
  | char c => if isInk c then some c else none
  | lineEnd kept keptSudo => if kept || keptSudo then some '&' else none

def lastInk (s : List Sym) : Option Char := (s.filterMap Sym.ink).getLast?

theorem lastInk_append (s t : List Sym) : lastInk (s ++ t) = (lastInk t).or (lastInk s) := by
  rw [lastInk, List.filterMap_append, List.getLast?_append, lastInk, lastInk]

theorem lastInk_cons (x : Sym) (s : List Sym) : lastInk (x :: s) = (lastInk s).or x.ink := by
  show lastInk ([x] ++ s) = _
  rw [lastInk_append]
  congr 1
  unfold lastInk
  rw [List.filterMap_cons]
  cases x.ink <;> rfl

/-- The last character of a text that is not white space. -/
def lastChar (s : List Char) : Option Char := lastInk (unmarked s)

theorem lastChar_append (s t : List Char) :
    lastChar (s ++ t) = (lastChar t).or (lastChar s) := by
  rw [lastChar, unmarked, List.map_append]
  exact lastInk_append _ _

/-- Nothing but white space. -/
theorem ink_eq_none_of_lastInk {s : List Sym} (h : lastInk s = none) : ∀ x ∈ s, x.ink = none := by
  rw [lastInk, List.getLast?_eq_none_iff] at h
  exact List.filterMap_eq_nil_iff.mp h

theorem takeEnd_cons_of_ink {c : Char} (hink : isInk c = true) (hamp : c ≠ '&') (s : List Char) :
    takeEnd (c :: s) = (c :: s, false) := by
  have hblank : c ≠ ' ' := by rintro rfl; cases hink
  have htab : c ≠ '\t' := by rintro rfl; cases hink
  rw [takeEnd]
  · intro s h
    exact hblank (List.cons.inj h).1
  · intro s h
    exact htab (List.cons.inj h).1
  · intro s h
    exact hamp (List.cons.inj h).1

theorem takeEnd_cons_of_not_ink {c : Char} (hink : isInk c = false) (hline : c ≠ '\n')
    (s : List Char) : takeEnd (c :: s) = takeEnd s := by
  have hblank : isBlank c = true := by
    unfold isInk at hink
    simp only [Bool.and_eq_false_iff, Bool.not_eq_false', bne_eq_false_iff_eq] at hink
    exact hink.resolve_right hline
  unfold isBlank at hblank
  simp only [Bool.or_eq_true, beq_iff_eq] at hblank
  rcases hblank with rfl | rfl <;> rfl

/-- The line holds a command that no `&&` follows. -/
structure Line.Ends (l : Line) : Prop where
  kept : l.kept = false
  keptSudo : l.keptSudo = false
  text : ∃ u c v, l.text = u ++ c :: v ∧ isInk c = true ∧ c ≠ '&' ∧
    ∀ d ∈ v, isInk d = false ∧ d ≠ '\n'

theorem Line.Ends.mark_eq {l : Line} (h : l.Ends) :
    ∃ text, l.mark = some ⟨text, false, false⟩ := by
  obtain ⟨u, c, v, htext, hink, hamp, hv⟩ := h.text
  have hend : takeEnd l.text.reverse = (c :: u.reverse, false) := by
    have hskip : ∀ v : List Char, (∀ d ∈ v, isInk d = false ∧ d ≠ '\n') →
        ∀ t, takeEnd (v ++ t) = takeEnd t := by
      intro v hv t
      induction v with
      | nil => rfl
      | cons d v ih =>
        obtain ⟨hd, hline⟩ := hv d List.mem_cons_self
        rw [List.cons_append, takeEnd_cons_of_not_ink hd hline,
          ih fun e he => hv e (List.mem_cons_of_mem _ he)]
    rw [htext, List.reverse_append, List.reverse_cons, List.append_assoc,
      hskip _ fun d hd => hv d (List.mem_reverse.mp hd)]
    exact takeEnd_cons_of_ink hink hamp _
  refine ⟨(c :: u.reverse).reverse, ?_⟩
  rw [Line.mark, hend, h.kept, h.keptSudo]
  rfl

/-- The line is blank. -/
structure Line.Empty (l : Line) : Prop where
  kept : l.kept = false
  keptSudo : l.keptSudo = false
  text : ∀ c ∈ l.text, isInk c = false ∧ c ≠ '\n'

theorem Line.Empty.mark_eq {l : Line} (h : l.Empty) : l.mark = none := by
  have hend : takeEnd l.text.reverse = ([], false) := by
    have hskip : ∀ v : List Char, (∀ d ∈ v, isInk d = false ∧ d ≠ '\n') →
        takeEnd v = ([], false) := by
      intro v hv
      induction v with
      | nil => rfl
      | cons d v ih =>
        obtain ⟨hd, hline⟩ := hv d List.mem_cons_self
        rw [takeEnd_cons_of_not_ink hd hline, ih fun e he => hv e (List.mem_cons_of_mem _ he)]
    exact hskip _ fun d hd => h.text d (List.mem_reverse.mp hd)
  rw [Line.mark, hend]

theorem linesOf_empty {s : List Sym} (h : lastInk s = none) : ∀ l ∈ linesOf s, l.Empty := by
  induction s with
  | nil =>
    intro l hl
    rw [linesOf, List.mem_singleton] at hl
    subst hl
    exact ⟨rfl, rfl, fun c hc => absurd hc List.not_mem_nil⟩
  | cons x s ih =>
    rw [lastInk_cons, Option.or_eq_none_iff] at h
    have ih' := ih h.1
    intro l hl
    cases x with
    | lineEnd kept keptSudo =>
      have hflags : (kept || keptSudo) = false := by
        have hink := h.2
        rw [Sym.ink] at hink
        split at hink
        · cases hink
        · exact Bool.not_eq_true _ ▸ ‹_›
      rw [Bool.or_eq_false_iff] at hflags
      rcases List.mem_cons.mp hl with rfl | hl
      · exact ⟨hflags.1, hflags.2, fun c hc => absurd hc List.not_mem_nil⟩
      · exact ih' l hl
    | char c =>
      have hink : isInk c = false := by
        have hink := h.2
        rw [Sym.ink] at hink
        split at hink
        · cases hink
        · exact Bool.not_eq_true _ ▸ ‹_›
      rw [linesOf] at hl
      split at hl
      · rcases List.mem_cons.mp hl with rfl | hl
        · exact ⟨rfl, rfl, fun c hc => absurd hc List.not_mem_nil⟩
        · exact ih' l hl
      · rename_i hline
        cases hs : linesOf s with
        | nil => exact absurd hs (linesOf_ne_nil s)
        | cons k ks =>
          rw [hs] at hl
          have hk := ih' k (hs ▸ List.mem_cons_self)
          rcases List.mem_cons.mp hl with rfl | hl
          · refine ⟨hk.kept, hk.keptSudo, fun d hd => ?_⟩
            rcases List.mem_cons.mp hd with rfl | hd
            · exact ⟨hink, hline⟩
            · exact hk.text d hd
          · exact ih' l (hs ▸ List.mem_cons_of_mem _ hl)

/-- A marked text that ends with a character of a command: behind the line of that
command there are blank lines only. -/
theorem linesOf_ends {s : List Sym} {c : Char} (h : lastInk s = some c) (hamp : c ≠ '&') :
    ∃ ls l rs, linesOf s = ls ++ l :: rs ∧ l.Ends ∧ ∀ r ∈ rs, r.Empty := by
  induction s with
  | nil => cases h
  | cons x s ih =>
    rw [lastInk_cons] at h
    cases hs : lastInk s with
    -- the last ink is further on, so the symbol goes to the first line
    | some d =>
      rw [hs, Option.some_or, Option.some.injEq] at h
      subst h
      obtain ⟨ls, l, rs, hlines, hl, hrs⟩ := ih hs
      cases x with
      | lineEnd kept keptSudo =>
        exact ⟨⟨[], kept, keptSudo⟩ :: ls, l, rs, congrArg _ hlines, hl, hrs⟩
      | char d =>
        rw [linesOf]
        split
        · exact ⟨⟨[], false, false⟩ :: ls, l, rs, congrArg _ hlines, hl, hrs⟩
        · cases ls with
          | nil =>
            rw [hlines]
            obtain ⟨u, e, v, htext, hrest⟩ := hl.text
            refine ⟨[], { l with text := d :: l.text }, rs, rfl, ?_, hrs⟩
            refine ⟨hl.kept, hl.keptSudo, d :: u, e, v, ?_, hrest⟩
            exact congrArg (d :: ·) htext
          | cons k ls =>
            rw [hlines]
            exact ⟨{ k with text := d :: k.text } :: ls, l, rs, rfl, hl, hrs⟩
    | none =>
      -- the last ink is the first symbol
      rw [hs, Option.none_or] at h
      have hempty := linesOf_empty hs
      cases x with
      | lineEnd kept keptSudo =>
        rw [Sym.ink] at h
        split at h
        · exact absurd (Option.some.inj h).symm hamp
        · cases h
      | char d =>
        rw [Sym.ink] at h
        split at h
        · rename_i hink
          cases h
          rw [linesOf, if_neg (by rintro rfl; cases hink)]
          cases hlines : linesOf s with
          | nil => exact absurd hlines (linesOf_ne_nil s)
          | cons k ks =>
            have hk := hempty k (hlines ▸ List.mem_cons_self)
            refine ⟨[], { k with text := c :: k.text }, ks, rfl, ?_, fun r hr => ?_⟩
            · exact ⟨hk.kept, hk.keptSudo, [], c, k.text, rfl, hink, hamp, hk.text⟩
            · exact hempty r (hlines ▸ List.mem_cons_of_mem _ hr)
        · cases h

/-- **The last command of a marked text** has no `&&` in either script, if the text ends with a
character of a command. -/
theorem getLast_marks {s : List Sym} {c : Char} (h : lastInk s = some c) (hamp : c ≠ '&') :
    ∃ text, (marks s).getLast? = some ⟨text, false, false⟩ := by
  obtain ⟨ls, l, rs, hlines, hl, hrs⟩ := linesOf_ends h hamp
  obtain ⟨text, hmark⟩ := hl.mark_eq
  refine ⟨text, ?_⟩
  have hrest : rs.filterMap Line.mark = [] :=
    List.filterMap_eq_nil_iff.mpr fun r hr => (hrs r hr).mark_eq
  rw [marks, hlines, List.filterMap_append, List.filterMap_cons, hmark]
  show (_ ++ _ :: rs.filterMap Line.mark).getLast? = _
  rw [hrest]
  exact List.getLast?_concat

/-! ## What the templates leave at the end -/

theorem lastInk_marked {s : List Char} {c : Char} (h : lastChar s = some c) (hamp : c ≠ '&') :
    lastInk (marked s) = some c := by
  fun_induction marked s with
  | case1 s hcontains ih =>
    have hs := eq_of_contains hcontains
    -- behind the last `&&` there is some text left
    have hafter : lastChar (substringAfter s ampNewline) = some c := by
      rw [hs, lastChar_append, lastChar_append] at h
      cases hlast : lastChar (substringAfter s ampNewline) with
      | some d => rwa [hlast, Option.some_or] at h
      | none =>
        rw [hlast, Option.none_or] at h
        have hamp' : lastChar ampNewline = some '&' := by decide
        rw [hamp', Option.some_or, Option.some.injEq] at h
        exact absurd h.symm hamp
    rw [lastInk_append, lastInk_cons, ih hafter, Option.some_or, Option.some_or]
  | case2 s hcontains => exact h

theorem lastInk_marked_of_none {s : List Char} (h : lastChar s = none) :
    lastInk (marked s) = none := by
  rw [marked, if_neg]
  · exact h
  · intro hcontains
    rw [eq_of_contains hcontains, lastChar_append, lastChar_append, Option.or_eq_none_iff,
      Option.or_eq_none_iff] at h
    exact absurd h.2.1 (by decide)

theorem lastChar_of_callsMake {s : List Char} (h : callsMake s = true) : lastChar s ≠ none := by
  intro hnone
  have hmem : 'm' ∈ s := by
    unfold callsMake at h
    rw [Bool.or_eq_true, Bool.or_eq_true, contains_iff, contains_iff,
      List.isPrefixOf_iff_prefix] at h
    rcases h with (h | h) | h
    · exact h.subset (by decide)
    · exact h.subset (by decide)
    · exact h.subset (by decide)
  have := ink_eq_none_of_lastInk hnone (.char 'm') (List.mem_map_of_mem hmem)
  exact absurd this (by decide)

theorem lastInk_markedInstall (s : List Char) :
    (lastChar s = none → lastInk (markedInstall s) = none) ∧
      ∀ c, lastChar s = some c → c ≠ '&' → ∃ d, lastInk (markedInstall s) = some d ∧ d ≠ '&' := by
  fun_induction markedInstall s with
  | case1 s h _ ih =>
    refine ⟨fun hnone => absurd hnone (lastChar_of_callsMake h), fun c hc hamp => ?_⟩
    rw [lastInk_append]
    cases hafter : lastChar (substringAfter s "make ".toList) with
    | none =>
      rw [ih.1 hafter, Option.none_or, lastInk_append]
      exact ⟨'1', rfl, by decide⟩
    | some d =>
      have hd : d ≠ '&' := by
        by_cases hcontains : contains s "make ".toList = true
        · rw [eq_of_contains hcontains, lastChar_append, hafter, Option.some_or,
            Option.some.injEq] at hc
          exact hc ▸ hamp
        · rw [substringAfter_of_not hcontains] at hafter
          cases hafter
      obtain ⟨e, he, hamp'⟩ := ih.2 d hafter hd
      rw [he, Option.some_or]
      exact ⟨e, rfl, hamp'⟩
  | case2 s h => exact ⟨lastInk_marked_of_none, fun c hc hamp => ⟨c, lastInk_marked hc hamp, hamp⟩⟩

/-- The text ends with a command that no `&&` follows. -/
def endsCommand (s : List Char) : Bool :=
  match lastChar s with
  | some c => c != '&'
  | none => false

theorem getLast_marks_marked {s : List Char} (h : endsCommand s = true) :
    ∃ text, (marks (marked s)).getLast? = some ⟨text, false, false⟩ := by
  unfold endsCommand at h
  split at h
  · rename_i c hc
    have hamp := bne_iff_ne.mp h
    exact getLast_marks (lastInk_marked hc hamp) hamp
  · cases h

theorem getLast_marks_markedInstall {s : List Char} (h : endsCommand s = true) :
    ∃ text, (marks (markedInstall s)).getLast? = some ⟨text, false, false⟩ := by
  unfold endsCommand at h
  split at h
  · rename_i c hc
    obtain ⟨d, hd, hamp⟩ := (lastInk_markedInstall s).2 c hc (bne_iff_ne.mp h)
    exact getLast_marks hd hamp
  · cases h

end Jhalfs.Scripts
