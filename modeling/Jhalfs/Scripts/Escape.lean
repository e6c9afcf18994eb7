import Jhalfs.Scripts.Lines

/-!
# When the escapes are transparent

The shell of root should get the text that is written without sudo. `output-root` escapes each
special character once, and the here-document takes the escapes away again, so the characters
of the text are as they were. But the templates look at the text between the escapes: a
condition is found behind the last special character of its line only, and an `&&` after a
condition such as `test -n "$x"` is lost.

- `conditionsPlain`: before each `&&` at the end of a line, the line is a condition only if the
  part behind its last special character is one. It recurses on the text as `remove-ampersand`
  does.
- `render_lineEnd_iff`: at one line end the two scripts agree exactly if the flags do, since an
  `&&` with a blank and a line end is longer than a line end.
- `render_marked_iff`: the two scripts are the same text exactly if they agree at all line ends.
  No flag is set with sudo only (`Ordered`), so what is longer at one line end is not made up
  for at another.

**Main result**: `expand_outputRoot_iff`. What the shell of root gets is the text without sudo
exactly if no condition is lost.
-/

namespace Jhalfs.Scripts

open Text

/-- Before each `&&` at the end of a line, the line is a condition only if the part behind
its last special character is one. -/
def conditionsPlain (s : List Char) : Bool :=
  if contains s ampNewline then
    (!isCondition (lastLine (substringBefore s ampNewline)) ||
        isCondition (lastLine (afterSpecial (substringBefore s ampNewline)))) &&
      conditionsPlain (substringAfter s ampNewline)
  else true
termination_by s.length
decreasing_by
  rename_i h
  exact length_substringAfter_lt (ne_nil_of_contains h (by decide)) (by decide)

/-- One line end is written alike in both scripts if its flags are the same. -/
theorem render_lineEnd_iff {kept keptSudo : Bool} (hle : keptSudo = true → kept = true)
    (s : List Sym) :
    render true (.lineEnd kept keptSudo :: s) = render false (.lineEnd kept keptSudo :: s) ↔
      (!kept || keptSudo) = true ∧ render true s = render false s := by
  rw [render_cons, render_cons]
  cases kept with
  | false =>
    have hsudo : keptSudo = false := by
      cases keptSudo with
      | false => rfl
      | true => exact absurd (hle rfl) (by decide)
    subst hsudo
    show '\n' :: render true s = '\n' :: render false s ↔ _
    rw [List.cons_inj_right]
    exact ⟨fun h => ⟨rfl, h⟩, fun h => h.2⟩
  | true =>
    cases keptSudo with
    | true =>
      show " &&".toList ++ ['\n'] ++ render true s = " &&".toList ++ ['\n'] ++ render false s ↔ _
      rw [List.append_cancel_left_eq]
      exact ⟨fun h => ⟨rfl, h⟩, fun h => h.2⟩
    | false =>
      -- the one goes on with a blank, the other with a line end
      refine iff_of_false (fun h => ?_) (fun h => Bool.false_ne_true h.1)
      have hhead : some '\n' = some ' ' := congrArg List.head? h
      exact absurd hhead (by decide)

theorem render_marked_iff (s : List Char) :
    render true (marked s) = render false (marked s) ↔ conditionsPlain s = true := by
  have hordered := ordered_marked s
  fun_induction marked s with
  | case1 s h ih =>
    have hle := hordered _ _ (List.mem_append_right _ List.mem_cons_self)
    have hrest := ih fun kept keptSudo hmem =>
      hordered kept keptSudo (List.mem_append_right _ (List.mem_cons_of_mem _ hmem))
    rw [conditionsPlain, if_pos h, render_append, render_append, render_unmarked, render_unmarked,
      List.append_cancel_left_eq, Bool.and_eq_true]
    exact (render_lineEnd_iff hle _).trans (and_congr_right fun _ => hrest)
  | case2 s h =>
    rw [conditionsPlain, if_neg h, render_unmarked, render_unmarked]
    exact iff_of_true rfl rfl

/-- **The escapes are transparent** exactly if no condition is lost: the shell of root expands what
is written for it to the text that is written without sudo. -/
theorem expand_outputRoot_iff (s : List Char) :
    (Escaped (outputRoot true s) ∧ expand (outputRoot true s) = outputRoot false s) ↔
      conditionsPlain s = true := by
  obtain ⟨hescaped, hexpand⟩ := outputRoot_spec s
  rw [hexpand, outputRoot_false, render_marked_iff]
  exact ⟨fun h => h.2, fun h => ⟨hescaped, h⟩⟩

/-- A test on a variable loses its `&&`. -/
theorem expand_outputRoot_test :
    expand (outputRoot true "test -n \"$LANG\" &&\nmkdir locale".toList) =
      "test -n \"$LANG\"\nmkdir locale".toList ∧
    outputRoot false "test -n \"$LANG\" &&\nmkdir locale".toList =
      "test -n \"$LANG\" &&\nmkdir locale".toList := by
  constructor
  · decide +kernel
  · decide +kernel

end Jhalfs.Scripts
