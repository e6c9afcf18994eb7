import Jhalfs.Scripts.Ampersand

/-!
# The lines of an instruction in the two scripts

What `output-root` and `output-install` write for `sudo='n'` and, once the shell has
expanded the here-document, for `sudo='y'`, differs only in the `&&` that are kept at the
ends of lines. A text is marked with both: the end of a line from which `&&` was removed
has two flags, whether the templates write `&&` there without sudo and with it.

- `expand`: what the shell makes of a here-document, and `Escaped`: every special character has
  a backslash of its own, so that nothing else is expanded.
- `Sym` and `render`: a marked text, and the text of one of the two scripts.
- `marked` and `markedInstall`: the marked text of an instruction. With sudo the condition is
  looked for only behind the last special character of the line (`afterSpecial`).
- `Ordered`: no line end keeps the `&&` with sudo only.

**Main results**: `outputRoot_spec`, with sudo the text is escaped and is expanded to the marked
text; `removeAmpersand_eq`, without sudo it is the marked text; `outputInstall_spec`, the same for
the instructions that install, without a wrapper. And `ordered_marked`: the condition is looked for
in less of the line with sudo, so `&&` is kept there less often.
-/

namespace Jhalfs.Scripts

open Text

/-! ## Here-documents -/

/-- The characters that `output-root` escapes. -/
def isSpecial (c : Char) : Bool := c == '$' || c == '`' || c == '\\'

theorem plain_of_all {s : List Char} (h : (s.all fun c => !isSpecial c) = true) :
    ∀ c ∈ s, isSpecial c = false := by
  intro c hc
  have hplain := List.all_eq_true.mp h c hc
  rwa [Bool.not_eq_true'] at hplain

/-- What the shell makes of a here-document: a backslash before a special character goes.
(The expansion of a special character without a backslash is not followed: the templates
write none, `Escaped`.) -/
def expand : List Char → List Char
  | [] => []
  | [c] => [c]
  | c :: d :: s => if c = '\\' ∧ isSpecial d = true then d :: expand s else c :: expand (d :: s)

/-- Every special character has a backslash of its own. -/
inductive Escaped : List Char → Prop where
  | nil : Escaped []
  | char (c : Char) (s : List Char) : isSpecial c = false → Escaped s → Escaped (c :: s)
  | pair (c : Char) (s : List Char) : isSpecial c = true → Escaped s → Escaped ('\\' :: c :: s)

theorem expand_cons {c : Char} (hc : isSpecial c = false) (s : List Char) :
    expand (c :: s) = c :: expand s := by
  cases s with
  | nil => rfl
  | cons d s =>
    rw [expand, if_neg]
    rintro ⟨rfl, -⟩
    cases hc

theorem expand_pair {c : Char} (hc : isSpecial c = true) (s : List Char) :
    expand ('\\' :: c :: s) = c :: expand s := by
  rw [expand, if_pos ⟨rfl, hc⟩]

theorem Escaped.append {s t : List Char} (hs : Escaped s) (ht : Escaped t) : Escaped (s ++ t) := by
  induction hs with
  | nil => exact ht
  | char c s hc _ ih => exact .char c _ hc ih
  | pair c s hc _ ih => exact .pair c _ hc ih

theorem Escaped.expand_append {s : List Char} (hs : Escaped s) (t : List Char) :
    expand (s ++ t) = expand s ++ expand t := by
  induction hs with
  | nil => rfl
  | char c s hc _ ih =>
    rw [List.cons_append, expand_cons hc, expand_cons hc, ih, List.cons_append]
  | pair c s hc _ ih =>
    rw [List.cons_append, List.cons_append, expand_pair hc, expand_pair hc, ih, List.cons_append]

/-- A text without special characters. -/
theorem escaped_of_plain {s : List Char} (h : ∀ c ∈ s, isSpecial c = false) :
    Escaped s ∧ expand s = s := by
  induction s with
  | nil => exact ⟨.nil, rfl⟩
  | cons c s ih =>
    obtain ⟨hs, hexpand⟩ := ih fun d hd => h d (List.mem_cons_of_mem _ hd)
    have hc := h c List.mem_cons_self
    exact ⟨.char c s hc hs, by rw [expand_cons hc, hexpand]⟩

/-! ## Marked texts -/

/-- A character, or the end of a line from which `&&` was removed, with whether it is
written all the same without sudo and with it. -/
inductive Sym where
  | char (c : Char)
  | lineEnd (kept keptSudo : Bool)

/-- The text as the templates write it and, with sudo, the shell expands it. -/
def Sym.render (withSudo : Bool) : Sym → List Char
  | char c => [c]
  | lineEnd kept keptSudo =>
    (if (if withSudo then keptSudo else kept) then " &&".toList else []) ++ ['\n']

def render (withSudo : Bool) (s : List Sym) : List Char := s.flatMap (Sym.render withSudo)

/-- A text as it is. -/
def unmarked (s : List Char) : List Sym := s.map .char

/-- The part of a text behind its last special character. -/
def afterSpecial (s : List Char) : List Char := s.rtakeWhile fun c => !isSpecial c

theorem afterSpecial_append_cons {c : Char} (hc : isSpecial c = true) (s t : List Char) :
    afterSpecial (s ++ c :: t) = afterSpecial t := by
  induction t using List.reverseRecOn with
  | nil =>
    rw [afterSpecial, List.rtakeWhile_concat_neg, afterSpecial, List.rtakeWhile_nil]
    rw [hc]
    decide
  | append_singleton t d ih =>
    have happend : s ++ c :: (t ++ [d]) = (s ++ c :: t) ++ [d] := by simp
    unfold afterSpecial at ih ⊢
    rw [happend, List.rtakeWhile_concat, List.rtakeWhile_concat, ih]

/-- The text of an instruction with its line ends marked. -/
def marked (s : List Char) : List Sym :=
  if contains s ampNewline then
    unmarked (removeEndSpace (substringBefore s ampNewline)) ++
      .lineEnd (isCondition (lastLine (substringBefore s ampNewline)))
        (isCondition (lastLine (afterSpecial (substringBefore s ampNewline)))) ::
      marked (substringAfter s ampNewline)
  else unmarked s
termination_by s.length
decreasing_by
  rename_i h
  exact length_substringAfter_lt (ne_nil_of_contains h (by decide)) (by decide)

theorem render_append (withSudo : Bool) (s t : List Sym) :
    render withSudo (s ++ t) = render withSudo s ++ render withSudo t := List.flatMap_append

theorem render_cons (withSudo : Bool) (x : Sym) (s : List Sym) :
    render withSudo (x :: s) = x.render withSudo ++ render withSudo s := List.flatMap_cons

theorem render_unmarked (withSudo : Bool) (s : List Char) : render withSudo (unmarked s) = s := by
  induction s with
  | nil => rfl
  | cons c s ih => exact congrArg (c :: ·) ih

theorem removeAmpersand_eq (s : List Char) : removeAmpersand s = render false (marked s) := by
  fun_induction removeAmpersand s with
  | case1 s h ih =>
    rw [marked, if_pos h, render_append, render_unmarked, render_cons, ih]
    simp [Sym.render]
  | case2 s h => rw [marked, if_neg h, render_unmarked]

/-- With sudo a text is marked part by part. -/
theorem render_marked_append {c : Char} (hc : isSpecial c = true) (s t : List Char) :
    render true (marked (s ++ c :: t)) =
      render true (marked s) ++ c :: render true (marked t) := by
  have hamp : c ∉ ampNewline := by
    intro hmem
    have hcases : c = '&' ∨ c = '\n' := by simpa [ampNewline] using hmem
    rcases hcases with rfl | rfl <;> cases hc
  have hblank : c ≠ ' ' := by
    rintro rfl
    cases hc
  have hne : ampNewline ≠ [] := by decide
  fun_induction marked s with
  | case1 s h ih =>
    obtain ⟨hbefore, hafter⟩ := cut_append_left (t := t) hne hamp h
    have hlong : contains (s ++ c :: t) ampNewline = true := by
      rw [contains_append_cons hne hamp, h, Bool.true_or]
    rw [marked, if_pos hlong, hbefore, hafter, render_append, render_append, render_cons,
      render_cons, ih]
    simp
  | case2 s h =>
    by_cases ht : contains t ampNewline = true
    · obtain ⟨hbefore, hafter⟩ := cut_append_right hne hamp h ht
      have hlong : contains (s ++ c :: t) ampNewline = true := by
        rw [contains_append_cons hne hamp, ht, Bool.or_true]
      rw [marked, if_pos hlong, hbefore, hafter, removeEndSpace_append_cons _ hblank,
        afterSpecial_append_cons hc,
        marked.eq_def t, if_pos ht, render_append, render_append, render_unmarked,
        render_unmarked, render_unmarked, render_cons, render_cons]
      simp [Sym.render]
    · have hlong : ¬ contains (s ++ c :: t) ampNewline = true := by
        rw [contains_append_cons hne hamp, Bool.or_eq_true, not_or]
        exact ⟨h, ht⟩
      rw [marked, if_neg hlong, marked, if_neg ht, render_unmarked, render_unmarked,
        render_unmarked]

theorem isSpecial_lineEnd {withSudo kept keptSudo : Bool} {c : Char}
    (h : c ∈ (Sym.lineEnd kept keptSudo).render withSudo) : isSpecial c = false := by
  refine plain_of_all ?_ c h
  cases withSudo <;> cases kept <;> cases keptSudo <;> decide

/-- A text without special characters is marked the same without sudo and with it. -/
theorem render_marked_of_plain {s : List Char} (h : ∀ c ∈ s, isSpecial c = false) :
    render true (marked s) = render false (marked s) ∧
      ∀ c ∈ render false (marked s), isSpecial c = false := by
  fun_induction marked s with
  | case1 s hcontains ih =>
    have hsplit := eq_of_contains hcontains
    have hbefore : ∀ c ∈ substringBefore s ampNewline, isSpecial c = false := fun c hc =>
      h c (hsplit ▸ List.mem_append_left _ (List.mem_append_left _ hc))
    have hafter : ∀ c ∈ substringAfter s ampNewline, isSpecial c = false := fun c hc =>
      h c (hsplit ▸ List.mem_append_right _ hc)
    have hwhole : afterSpecial (substringBefore s ampNewline) = substringBefore s ampNewline :=
      List.rtakeWhile_eq_self_iff.mpr fun c hc => by rw [hbefore c hc]; rfl
    obtain ⟨heq, hplain⟩ := ih hafter
    rw [render_append, render_append, render_unmarked, render_unmarked, render_cons, render_cons,
      heq, hwhole]
    refine ⟨rfl, fun c hc => ?_⟩
    rcases List.mem_append.mp hc with hc | hc
    · exact hbefore c (removeEndSpace_subset _ hc)
    · rcases List.mem_append.mp hc with hc | hc
      · exact isSpecial_lineEnd hc
      · exact hplain c hc
  | case2 s hcontains =>
    rw [render_unmarked, render_unmarked]
    exact ⟨rfl, h⟩

/-- **`output-root`**: with sudo, the text is escaped, and it is expanded to the marked
text. -/
theorem outputRoot_spec (s : List Char) : Escaped (outputRoot true s) ∧
    expand (outputRoot true s) = render true (marked s) := by
  -- the three characters are treated alike
  have hsplit : ∀ (c : Char), isSpecial c = true → ∀ s : List Char, contains s [c] = true →
      (Escaped (outputRoot true (substringBefore s [c])) ∧
        expand (outputRoot true (substringBefore s [c])) =
          render true (marked (substringBefore s [c]))) →
      (Escaped (outputRoot true (substringAfter s [c])) ∧
        expand (outputRoot true (substringAfter s [c])) =
          render true (marked (substringAfter s [c]))) →
      Escaped (outputRoot true (substringBefore s [c]) ++ ['\\', c] ++
          outputRoot true (substringAfter s [c])) ∧
        expand (outputRoot true (substringBefore s [c]) ++ ['\\', c] ++
          outputRoot true (substringAfter s [c])) = render true (marked s) := by
    rintro c hc s hcontains ⟨hb, hbexpand⟩ ⟨ha, haexpand⟩
    have hpair : Escaped ['\\', c] := .pair c [] hc .nil
    refine ⟨(hb.append hpair).append ha, ?_⟩
    rw [(hb.append hpair).expand_append, hb.expand_append, expand_pair hc, hbexpand, haexpand]
    conv_rhs => rw [eq_of_contains hcontains, List.append_assoc]
    rw [List.singleton_append, render_marked_append hc, List.append_assoc]
    rfl
  fun_induction outputRoot true s with
  | case1 s h ihb iha => exact hsplit '$' rfl s (Bool.and_eq_true_iff.mp h).1 ihb iha
  | case2 s _ h ihb iha => exact hsplit '`' rfl s (Bool.and_eq_true_iff.mp h).1 ihb iha
  | case3 s _ _ h ihb iha => exact hsplit '\\' rfl s (Bool.and_eq_true_iff.mp h).1 ihb iha
  | case4 s h1 h2 h3 =>
    have hplain : ∀ c ∈ s, isSpecial c = false := by
      intro c hc
      rw [Bool.and_true, contains_iff, List.singleton_infix_iff] at h1 h2 h3
      rw [isSpecial, Bool.or_eq_false_iff, Bool.or_eq_false_iff]
      refine ⟨⟨?_, ?_⟩, ?_⟩
      · exact beq_eq_false_iff_ne.mpr fun heq => h1 (heq ▸ hc)
      · exact beq_eq_false_iff_ne.mpr fun heq => h2 (heq ▸ hc)
      · exact beq_eq_false_iff_ne.mpr fun heq => h3 (heq ▸ hc)
    obtain ⟨heq, hchars⟩ := render_marked_of_plain hplain
    rw [removeAmpersand_eq, heq]
    exact escaped_of_plain hchars

theorem outputRoot_false (s : List Char) : outputRoot false s = render false (marked s) := by
  rw [outputRoot, if_neg (by simp), if_neg (by simp), if_neg (by simp), removeAmpersand_eq]

/-- The text of an install instruction with its line ends marked. -/
def markedInstall (s : List Char) : List Sym :=
  if callsMake s then
    markedInstall (substringBefore s "make ".toList) ++ unmarked "make -j1 ".toList ++
      markedInstall (substringAfter s "make ".toList)
  else marked s
termination_by s.length
decreasing_by
  · exact length_substringBefore_lt (ne_nil_of_callsMake ‹_›) (by decide)
  · exact length_substringAfter_lt (ne_nil_of_callsMake ‹_›) (by decide)

theorem outputInstall_of_callsMake {P : Params} {s : List Char} (h : callsMake s = true) :
    outputInstall P s = outputInstall P (substringBefore s "make ".toList) ++
      "make -j1 ".toList ++ outputInstall P (substringAfter s "make ".toList) := by
  rw [outputInstall.eq_def P s, if_pos h]

theorem outputInstall_of_not {P : Params} {s : List Char} (h : ¬ callsMake s = true)
    (hwrap : P.wrapInstall = false) : outputInstall P s = outputRoot P.withSudo s := by
  rw [outputInstall.eq_def P s, if_neg h, hwrap, Bool.and_false, if_neg Bool.false_ne_true]

/-- **`output-install`** without a wrapper: both scripts are the marked text. A text with a make
in it is split there, and any other is written by `output-root`. -/
theorem outputInstall_spec (delLaFiles : Bool) (s : List Char) :
    outputInstall ⟨false, false, delLaFiles⟩ s = render false (markedInstall s) ∧
      Escaped (outputInstall ⟨true, false, delLaFiles⟩ s) ∧
      expand (outputInstall ⟨true, false, delLaFiles⟩ s) = render true (markedInstall s) := by
  fun_induction markedInstall s with
  | case1 s h ihb iha =>
    obtain ⟨hb, hbesc, hbexpand⟩ := ihb
    obtain ⟨ha, haesc, haexpand⟩ := iha
    have hmake : ∀ c ∈ "make -j1 ".toList, isSpecial c = false := plain_of_all (by decide)
    obtain ⟨hmesc, hmexpand⟩ := escaped_of_plain hmake
    rw [outputInstall_of_callsMake h, outputInstall_of_callsMake h, render_append, render_append,
      render_append, render_append, render_unmarked, render_unmarked, hb, ha]
    refine ⟨rfl, (hbesc.append hmesc).append haesc, ?_⟩
    rw [(hbesc.append hmesc).expand_append, hbesc.expand_append, hbexpand, hmexpand, haexpand]
  | case2 s h =>
    rw [outputInstall_of_not h rfl, outputInstall_of_not h rfl]
    exact ⟨outputRoot_false s, outputRoot_spec s⟩

/-! ## What is kept with sudo is kept without -/

/-- No line end keeps the `&&` with sudo only. So a command is chained with sudo only if it is
chained without. -/
def Ordered (s : List Sym) : Prop := ∀ kept keptSudo, Sym.lineEnd kept keptSudo ∈ s →
  keptSudo = true → kept = true

theorem ordered_unmarked (s : List Char) : Ordered (unmarked s) := by
  intro kept keptSudo hmem
  obtain ⟨c, -, hc⟩ := List.mem_map.mp hmem
  cases hc

theorem Ordered.append {s t : List Sym} (hs : Ordered s) (ht : Ordered t) : Ordered (s ++ t) :=
  fun kept keptSudo hmem => (List.mem_append.mp hmem).elim (hs kept keptSudo) (ht kept keptSudo)

theorem isCondition_of_afterSpecial {s : List Char}
    (h : isCondition (lastLine (afterSpecial s)) = true) : isCondition (lastLine s) = true := by
  obtain ⟨t, ht⟩ := s.rtakeWhile_suffix fun c => !isSpecial c
  have hlast := lastLine_suffix t (afterSpecial s)
  rw [afterSpecial, ht] at hlast
  exact isCondition_mono hlast h

theorem ordered_marked (s : List Char) : Ordered (marked s) := by
  fun_induction marked s with
  | case1 s h ih =>
    refine (ordered_unmarked _).append fun kept keptSudo hmem hsudo => ?_
    rcases List.mem_cons.mp hmem with heq | hmem
    · cases heq
      exact isCondition_of_afterSpecial hsudo
    · exact ih kept keptSudo hmem hsudo
  | case2 s h => exact ordered_unmarked s

theorem ordered_markedInstall (s : List Char) : Ordered (markedInstall s) := by
  fun_induction markedInstall s with
  | case1 s h ihb iha => exact (ihb.append (ordered_unmarked _)).append iha
  | case2 s h => exact ordered_marked s

end Jhalfs.Scripts
