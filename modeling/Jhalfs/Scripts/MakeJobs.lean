import Jhalfs.Base.ShellWords
import Jhalfs.Scripts.Lines

/-!
# The jobs of make

The wrapper of an install instruction calls `make` with one job: `output-install`
(BLFS/xsl/process-install.xsl:540–577) writes `make -j1 ` for `make `, escapes what is left
for the here-document of `sudo`, and quotes the single quotes for the wrapper. The text of an
instruction should come out with nothing but these changes, and the `-j1 ` should stand only
behind the shell word `make`.

- `AltersMakeOnly` states this of one instruction. A text with marks, each of which stands
  for one inserted `-j1 `, is the instruction without the marks, is what is written (read by
  the shell and by the wrapper) with them, and has its marks behind words.
- `jobs` is the text with the marks that the templates set. What they write is this text
  (`undo_outputInstall`), and no other marks give the same text (`insertJobs_injective`).
- A word is one of the shell (`ShellWords.wordAt`): the `make ` of a quoted script or of a
  here-document is none, that of backquotes is one.

The guard of the template looks for `make ` at the beginning, for ` make ` and for a line
that begins with `make`, but the text is always cut at the first `make `. So three things
can go wrong (`altersMakeOnly_iff`): a line begins with `make` but no blank follows
(`makeinfo`), and the text before the next `make `, or all of it, is lost; a `make ` that is
no word is cut at, since the guard finds it or another one behind it; or, with the wrapper, a
`make ` stands directly behind a single quote, where the template begins anew.
-/

namespace Jhalfs.Scripts

open Text
open ShellWords (wordAt wordAt_quote)

/-! ## Texts with marks -/

/-- The text ends with the word `make` and a blank. -/
def EndsMakeWord (s : List Char) : Prop := ∃ u, s = u ++ "make ".toList ∧ wordAt u = true

/-- A text, each character with a mark. The marked ones are those behind which `-j1 ` is put, so
that a marked text tells both the text and the places. -/
abbrev Marked := List (Char × Bool)

/-- Insert `-j1 ` behind the marked characters. -/
def insertJobs (t : Marked) : List Char :=
  t.flatMap fun x => x.1 :: if x.2 then "-j1 ".toList else []

/-- Behind the text `s`, the marks of `t` stand where `p` allows it. -/
def MarksAt (p : List Char → Prop) (s : List Char) : Marked → Prop
  | [] => True
  | (c, b) :: t => (b = true → p (s ++ [c])) ∧ MarksAt p (s ++ [c]) t

/-- Undo the quotes: `'\''` is a single quote. -/
def unquote : List Char → List Char
  | '\'' :: '\\' :: '\'' :: '\'' :: s => '\'' :: unquote s
  | c :: s => c :: unquote s
  | [] => []

/-- Undo the escapes of the here-document, as the shell does when it expands it, and then the
quotes of the wrapper. -/
def undo (P : Params) (s : List Char) : List Char :=
  let s := if P.withSudo then expand s else s
  if P.wrapInstall then unquote s else s

/-- **`output-install` alters nothing but make**: with the escapes and the quotes undone it is
the text with `-j1 ` put in at some places, each directly behind a word `make`. -/
def AltersMakeOnly (P : Params) (s : List Char) : Prop :=
  ∃ t : Marked, t.map Prod.fst = s ∧ undo P (outputInstall P s) = insertJobs t ∧
    MarksAt EndsMakeWord [] t

/-! ## The text that is written -/

/-- A text without marks. -/
def bare (s : List Char) : Marked := s.map fun c => (c, false)

/-- `make ` with its mark. -/
def makeJob : Marked := [('m', false), ('a', false), ('k', false), ('e', false), (' ', true)]

/-- The text of `output-install` with marks, by the recursion of the template. The quotes of the
wrapper are not in it; `quote` puts them in. -/
def jobs (wrap : Bool) (s : List Char) : Marked :=
  if callsMake s then
    jobs wrap (substringBefore s "make ".toList) ++ makeJob ++
      jobs wrap (substringAfter s "make ".toList)
  else if contains s ['\''] && wrap then
    bare (substringBefore s ['\'']) ++ ('\'', false) :: jobs wrap (substringAfter s ['\''])
  else bare s
termination_by s.length
decreasing_by
  · exact length_substringBefore_lt (ne_nil_of_callsMake ‹_›) (by decide)
  · exact length_substringAfter_lt (ne_nil_of_callsMake ‹_›) (by decide)
  · rename_i h
    exact length_substringAfter_lt
      (ne_nil_of_contains (Bool.and_eq_true_iff.mp h).1 (by decide)) (by decide)

theorem insertJobs_append (t t' : Marked) :
    insertJobs (t ++ t') = insertJobs t ++ insertJobs t' := List.flatMap_append

theorem insertJobs_cons (c : Char) (b : Bool) (t : Marked) :
    insertJobs ((c, b) :: t) = c :: (if b then "-j1 ".toList else []) ++ insertJobs t :=
  List.flatMap_cons

theorem insertJobs_bare (s : List Char) : insertJobs (bare s) = s := by
  induction s with
  | nil => rfl
  | cons c s ih => exact congrArg (c :: ·) ih

theorem map_fst_bare (s : List Char) : (bare s).map Prod.fst = s := by
  unfold bare
  rw [List.map_map]
  exact List.map_id s

/-- A text with the quotes of the wrapper. -/
def quote (wrap : Bool) (s : List Char) : List Char :=
  s.flatMap fun c => if wrap && c == '\'' then "'\\''".toList else [c]

theorem quote_append (wrap : Bool) (s t : List Char) :
    quote wrap (s ++ t) = quote wrap s ++ quote wrap t := List.flatMap_append

theorem quote_of_notMem {wrap : Bool} {s : List Char} (h : wrap = true → '\'' ∉ s) :
    quote wrap s = s := by
  induction s with
  | nil => rfl
  | cons c s ih =>
    have hc : (wrap && c == '\'') = false := by
      cases wrap with
      | false => rfl
      | true =>
        have hne : c ≠ '\'' := fun heq => h rfl (heq ▸ List.mem_cons_self)
        rw [Bool.true_and, beq_eq_false_iff_ne]
        exact hne
    have htail := ih fun hw hmem => h hw (List.mem_cons_of_mem _ hmem)
    show (if wrap && c == '\'' then _ else [c]) ++ quote wrap s = c :: s
    rw [hc, htail]
    rfl

theorem unquote_quote (s : List Char) : unquote (quote true s) = s := by
  induction s with
  | nil => rfl
  | cons c s ih =>
    by_cases hc : c = '\''
    · subst hc
      exact congrArg ('\'' :: ·) ih
    · have hq : quote true (c :: s) = c :: quote true s := by
        show (if true && c == '\'' then _ else [c]) ++ quote true s = _
        rw [Bool.true_and, if_neg (by rwa [beq_iff_eq])]
        rfl
      rw [hq, unquote, ih]
      intro s' heq
      exact absurd heq hc

/-- The shell can read a text part by part. -/
def Splits (s : List Char) : Prop := ∀ t, expand (s ++ t) = expand s ++ expand t

theorem Splits.append {s t : List Char} (hs : Splits s) (ht : Splits t) : Splits (s ++ t) := by
  intro r
  rw [List.append_assoc, hs, ht, hs, List.append_assoc]

theorem splits_quote : Splits "'\\''".toList := by
  intro t
  -- the backslash stays, as a single quote is not special
  have hslash : ∀ s, expand ('\\' :: '\'' :: s) = '\\' :: expand ('\'' :: s) := by
    intro s
    rw [expand, if_neg (by decide)]
  have hquote : ∀ s, expand ('\'' :: s) = '\'' :: expand s := expand_cons (by decide)
  show expand ('\'' :: '\\' :: '\'' :: '\'' :: t) = _
  rw [hquote, hslash, hquote, hquote]
  rfl

theorem splits_makeJob : Splits "make -j1 ".toList := by
  intro t
  exact (escaped_of_plain (plain_of_all (by decide))).1.expand_append t

theorem not_contains_of_isInfix {s t pat : List Char} (hst : s <:+: t)
    (h : ¬ contains t pat = true) :
    ¬ contains s pat = true := fun hs => h (contains_mono hs hst)

theorem substringBefore_isInfix (s pat : List Char) : substringBefore s pat <:+: s := by
  by_cases h : contains s pat = true
  · refine ⟨[], pat ++ substringAfter s pat, ?_⟩
    rw [List.nil_append, ← List.append_assoc]
    exact (eq_of_contains h).symm
  · rw [substringBefore_of_not h]
    exact ⟨[], s, rfl⟩

theorem substringAfter_isInfix (s pat : List Char) : substringAfter s pat <:+: s := by
  by_cases h : contains s pat = true
  · exact ⟨substringBefore s pat ++ pat, [], by rw [List.append_nil]; exact (eq_of_contains h).symm⟩
  · rw [substringAfter_of_not h]
    exact ⟨[], s, rfl⟩

/-- Without `&&` at the end of a line, `output-root` only escapes. -/
theorem outputRoot_of_not {s : List Char} (h : ¬ contains s ampNewline = true) (withSudo : Bool) :
    (if withSudo then expand (outputRoot withSudo s) else outputRoot withSudo s) = s ∧
      (withSudo = true → Splits (outputRoot withSudo s)) := by
  have hmarked : marked s = unmarked s := by rw [marked, if_neg h]
  cases withSudo with
  | true =>
    obtain ⟨hescaped, hexpand⟩ := outputRoot_spec s
    rw [hmarked, render_unmarked] at hexpand
    exact ⟨hexpand, fun _ => hescaped.expand_append⟩
  | false =>
    rw [if_neg Bool.false_ne_true, outputRoot_false, hmarked, render_unmarked]
    exact ⟨rfl, fun h => by cases h⟩

/-- **The text of `output-install`**, read by the shell: the marked text with quotes. -/
theorem outputInstall_jobs (P : Params) {s : List Char} (h : ¬ contains s ampNewline = true) :
    (if P.withSudo then expand (outputInstall P s) else outputInstall P s) =
        quote P.wrapInstall (insertJobs (jobs P.wrapInstall s)) ∧
      (P.withSudo = true → Splits (outputInstall P s)) := by
  fun_induction outputInstall P s with
  | case1 s hmake ihb iha =>
    obtain ⟨hb, hbs⟩ := ihb (not_contains_of_isInfix (substringBefore_isInfix _ _) h)
    obtain ⟨ha, has⟩ := iha (not_contains_of_isInfix (substringAfter_isInfix _ _) h)
    -- the pieces before and after the make are output by the same template
    have hjob : quote P.wrapInstall (insertJobs makeJob) = "make -j1 ".toList :=
      quote_of_notMem fun _ => by decide
    rw [jobs, if_pos hmake, insertJobs_append, insertJobs_append, quote_append, quote_append,
      ← hb, ← ha, hjob]
    cases hsudo : P.withSudo with
    | true =>
      have hsplits := (hbs hsudo).append splits_makeJob
      refine ⟨?_, fun _ => hsplits.append (has hsudo)⟩
      rw [if_pos rfl, if_pos rfl, if_pos rfl, hsplits, hbs hsudo]
      rfl
    | false => exact ⟨rfl, fun h => by cases h⟩
  | case2 s hmake hquote iha =>
    obtain ⟨hb, hbs⟩ :=
      outputRoot_of_not (not_contains_of_isInfix (substringBefore_isInfix s ['\'']) h) P.withSudo
    obtain ⟨ha, has⟩ := iha (not_contains_of_isInfix (substringAfter_isInfix _ _) h)
    have hwrap : P.wrapInstall = true := (Bool.and_eq_true_iff.mp hquote).2
    have hbefore : quote P.wrapInstall (substringBefore s ['\'']) = substringBefore s ['\''] :=
      quote_of_notMem fun _ => notMem_substringBefore
    -- the text before the first quote is not quoted again
    have hcons : ∀ t,
        quote P.wrapInstall ('\'' :: t) = "'\\''".toList ++ quote P.wrapInstall t := by
      intro t
      rw [hwrap]
      rfl
    rw [jobs, if_neg hmake, if_pos hquote, insertJobs_append, insertJobs_bare, insertJobs_cons,
      if_neg Bool.false_ne_true, List.cons_append, List.nil_append, quote_append, hbefore, hcons,
      ← ha]
    cases hsudo : P.withSudo with
    | true =>
      rw [hsudo, if_pos rfl] at hb
      have hroot : Splits (outputRoot true (substringBefore s ['\''])) := hsudo ▸ hbs hsudo
      have hsplits := hroot.append splits_quote
      refine ⟨?_, fun _ => hsplits.append (has hsudo)⟩
      rw [if_pos rfl, if_pos rfl, hsplits, hroot, hb, List.append_assoc]
      rfl
    | false =>
      rw [hsudo] at hb
      refine ⟨?_, fun h => by cases h⟩
      rw [if_neg Bool.false_ne_true, if_neg Bool.false_ne_true, List.append_assoc]
      exact congrArg (· ++ _) hb
  | case3 s hmake hquote =>
    have hnone : P.wrapInstall = true → '\'' ∉ s := by
      intro hwrap hmem
      rw [hwrap, Bool.and_true, contains_singleton_iff] at hquote
      exact hquote hmem
    obtain ⟨hs, hsplits⟩ := outputRoot_of_not h P.withSudo
    rw [jobs, if_neg hmake, if_neg hquote, insertJobs_bare, quote_of_notMem hnone]
    exact ⟨hs, hsplits⟩

/-! ## Nothing is lost -/

/-- At the beginning of a line, a blank follows on `make`. -/
def BlankAfterMake (s : List Char) : Prop :=
  ∀ u v, s = u ++ ("\nmake".toList ++ v) → v.head? = some ' '

theorem BlankAfterMake.of_append {s t : List Char} (h : BlankAfterMake (s ++ t)) :
    BlankAfterMake t := by
  intro u v huv
  exact h (s ++ u) v (by rw [huv, List.append_assoc])

theorem BlankAfterMake.before {b a : List Char} (h : BlankAfterMake (b ++ "make ".toList ++ a)) :
    BlankAfterMake b := by
  intro u v huv
  have hhead := h u (v ++ ("make ".toList ++ a)) (by rw [huv]; simp only [List.append_assoc])
  cases v with
  | nil =>
    have hm : some 'm' = some ' ' := hhead
    exact absurd hm (by decide)
  | cons c v => exact hhead

theorem contains_of_callsMake {s : List Char} (hlines : BlankAfterMake s)
    (h : callsMake s = true) : contains s "make ".toList = true := by
  rw [contains_iff]
  unfold callsMake at h
  rw [Bool.or_eq_true, Bool.or_eq_true, List.isPrefixOf_iff_prefix, contains_iff, contains_iff] at h
  rcases h with (h | h) | h
  · exact h.isInfix
  · exact List.IsInfix.trans ⟨[' '], [], rfl⟩ h
  · obtain ⟨u, v, huv⟩ := h
    have hhead := hlines u v (by rw [← huv, List.append_assoc])
    cases v with
    | nil => cases hhead
    | cons c v =>
      cases Option.some.inj hhead
      exact ⟨u ++ ['\n'], v, by rw [← huv]; simp⟩

/-- If a blank follows on each `make` of a line, nothing is lost. -/
theorem map_fst_jobs (wrap : Bool) {s : List Char} (h : BlankAfterMake s) :
    (jobs wrap s).map Prod.fst = s := by
  fun_induction jobs wrap s with
  | case1 s hmake ihb iha =>
    have hs := eq_of_contains (contains_of_callsMake h hmake)
    rw [hs] at h
    rw [List.map_append, List.map_append, ihb h.before, iha h.of_append]
    exact hs.symm
  | case2 s hmake hquote iha =>
    have hs := eq_of_contains (Bool.and_eq_true_iff.mp hquote).1
    rw [hs] at h
    rw [List.map_append, map_fst_bare, List.map_cons, iha h.of_append]
    rw [List.append_assoc] at hs
    exact hs.symm
  | case3 s hmake hquote => exact map_fst_bare s

theorem count_jobs_le (wrap : Bool) (s : List Char) :
    ((jobs wrap s).map Prod.fst).count '\n' ≤ s.count '\n' := by
  fun_induction jobs wrap s with
  | case1 s hmake ihb iha =>
    have hjob : (makeJob.map Prod.fst).count '\n' = 0 := by decide
    rw [List.map_append, List.map_append, List.count_append, List.count_append, hjob]
    by_cases hcontains : contains s "make ".toList = true
    · have hs := congrArg (List.count '\n') (eq_of_contains hcontains)
      rw [List.count_append, List.count_append] at hs
      omega
    · rw [substringBefore_of_not hcontains] at ihb ⊢
      rw [substringAfter_of_not hcontains] at iha ⊢
      rw [List.count_nil] at ihb iha
      omega
  | case2 s hmake hquote iha =>
    have hs := congrArg (List.count '\n') (eq_of_contains (Bool.and_eq_true_iff.mp hquote).1)
    rw [List.count_append, List.count_append] at hs
    have hsingle : (['\''] : List Char).count '\n' = 0 := by decide
    rw [List.map_append, map_fst_bare, List.map_cons, List.count_append,
      List.count_cons_of_ne (by decide)]
    omega
  | case3 s hmake hquote => rw [map_fst_bare]

theorem callsMake_of_line (u v : List Char) :
    callsMake (u ++ '\n' :: ("make".toList ++ v)) = true := by
  have hcontains : contains (u ++ '\n' :: ("make".toList ++ v)) "\nmake".toList = true :=
    contains_iff.mpr ⟨u, v, by simp⟩
  rw [callsMake, hcontains, Bool.or_true]

/-- Without `make ` nothing is left of the text. -/
theorem jobs_of_not_contains (wrap : Bool) {s : List Char} (hmake : callsMake s = true)
    (h : ¬ contains s "make ".toList = true) : jobs wrap s = makeJob := by
  have hnil : jobs wrap [] = [] := by
    rw [jobs, if_neg (by decide), if_neg]
    · rfl
    · rw [Bool.and_eq_true]
      exact fun h => absurd h.1 (by decide)
  rw [jobs, if_pos hmake, substringBefore_of_not h, substringAfter_of_not h, hnil,
    List.nil_append, List.append_nil]

/-- A make without a blank is no occurrence of `make `. -/
theorem cut_make {v : List Char} (hv : v.head? ≠ some ' ') :
    cut "make ".toList ("make".toList ++ v) =
      (cut "make ".toList v).map fun p => ("make".toList ++ p.1, p.2) := by
  have hm : ¬ "make ".toList <+: 'm' :: 'a' :: 'k' :: 'e' :: v := by
    rintro ⟨t, ht⟩
    have htail : ' ' :: t = v := (List.append_right_inj "make".toList).mp ht
    exact hv (by rw [← htail]; rfl)
  -- behind its first character there is no `m` in the word
  have hne : ∀ {c : Char} {t : List Char}, c ≠ 'm' → ¬ "make ".toList <+: c :: t :=
    fun hc h => hc (List.cons_prefix_cons.mp h).1.symm
  show cut "make ".toList ('m' :: 'a' :: 'k' :: 'e' :: v) = _
  rw [cut_cons hm, cut_cons (hne (by decide)), cut_cons (hne (by decide)),
    cut_cons (hne (by decide))]
  cases cut "make ".toList v <;> rfl

/-- Where a make begins a line and no blank follows, a line end is lost. -/
theorem count_jobs_lt (wrap : Bool) (u : List Char) {v : List Char} (hv : v.head? ≠ some ' ') :
    ((jobs wrap (u ++ '\n' :: ("make".toList ++ v))).map Prod.fst).count '\n' <
      (u ++ '\n' :: ("make".toList ++ v)).count '\n' := by
  have hpat : "make ".toList ≠ [] := by decide
  have hline : '\n' ∉ "make ".toList := by decide
  have hjob : (makeJob.map Prod.fst).count '\n' = 0 := by decide
  have hcall := callsMake_of_line u v
  by_cases hu : contains u "make ".toList = true
  · -- the split is before the line: it stands in the second part
    obtain ⟨hb, ha⟩ := cut_append_left (t := "make".toList ++ v) hpat hline hu
    have hlt := length_substringAfter_lt (ne_nil_of_contains hu hpat) hpat
    have ih := count_jobs_lt wrap (substringAfter u "make ".toList) hv
    have hle := count_jobs_le wrap (substringBefore u "make ".toList)
    have hs := congrArg (List.count '\n') (eq_of_contains hu)
    rw [List.count_append, List.count_append] at hs
    rw [jobs, if_pos hcall, hb, ha, List.map_append, List.map_append, List.count_append,
      List.count_append, hjob]
    rw [List.count_append] at ih ⊢
    omega
  · by_cases hw : contains ("make".toList ++ v) "make ".toList = true
    · -- the split is behind it: the first part has no `make `, and is lost
      obtain ⟨hb, ha⟩ := cut_append_right hpat hline hu hw
      obtain ⟨⟨b, a⟩, hcut⟩ := Option.isSome_iff_exists.mp hw
      obtain ⟨⟨b', a'⟩, hcut', heq⟩ := Option.map_eq_some_iff.mp ((cut_make hv).symm.trans hcut)
      cases heq
      have hbefore : substringBefore ("make".toList ++ v) "make ".toList = "make".toList ++ b' := by
        rw [substringBefore, hcut]
      have hafter : substringAfter ("make".toList ++ v) "make ".toList = a' := by
        rw [substringAfter, hcut]
      have hnone : ¬ contains (u ++ '\n' :: ("make".toList ++ b')) "make ".toList = true := by
        rw [contains_append_cons hpat hline, Bool.or_eq_true]
        exact fun h => h.elim hu (not_contains_of_cut (by decide) hcut)
      have hle := count_jobs_le wrap a'
      have hv' := congrArg (List.count '\n') (eq_of_cut hcut')
      rw [List.count_append, List.count_append] at hv'
      rw [jobs, if_pos hcall, hb, ha, hbefore, hafter,
        jobs_of_not_contains wrap (callsMake_of_line u b') hnone, List.map_append, List.map_append,
        List.count_append, List.count_append, hjob, List.count_append, List.count_cons_self,
        List.count_append]
      omega
    · have hnone : ¬ contains (u ++ '\n' :: ("make".toList ++ v)) "make ".toList = true := by
        rw [contains_append_cons hpat hline, Bool.or_eq_true]
        exact fun h => h.elim hu hw
      rw [jobs_of_not_contains wrap hcall hnone, hjob, List.count_append, List.count_cons_self]
      omega
termination_by u.length

/-- If nothing is lost, a blank follows on each `make` of a line. -/
theorem blankAfterMake_of_count {wrap : Bool} {s : List Char}
    (h : ((jobs wrap s).map Prod.fst).count '\n' = s.count '\n') : BlankAfterMake s := by
  intro u v huv
  by_contra hv
  have hlt := count_jobs_lt wrap u hv
  have hs : u ++ '\n' :: ("make".toList ++ v) = s := huv.symm
  rw [hs, h] at hlt
  exact Nat.lt_irrefl _ hlt

/-! ## Words -/

theorem marksAt_append (p : List Char → Prop) (s : List Char) (t t' : Marked) :
    MarksAt p s (t ++ t') ↔ MarksAt p s t ∧ MarksAt p (s ++ t.map Prod.fst) t' := by
  induction t generalizing s with
  | nil =>
    rw [List.map_nil, List.append_nil]
    exact ⟨fun h => ⟨trivial, h⟩, fun h => h.2⟩
  | cons x t ih =>
    obtain ⟨c, b⟩ := x
    show (_ ∧ MarksAt p (s ++ [c]) (t ++ t')) ↔ (_ ∧ MarksAt p (s ++ [c]) t) ∧ _
    rw [ih, List.map_cons, and_assoc, List.append_assoc, List.singleton_append]

theorem marksAt_bare (p : List Char → Prop) (s t : List Char) : MarksAt p s (bare t) := by
  induction t generalizing s with
  | nil => trivial
  | cons c t ih => exact ⟨fun h => (by cases h), ih (s ++ [c])⟩

theorem marksAt_makeJob (p : List Char → Prop) (s : List Char) :
    MarksAt p s makeJob ↔ p (s ++ "make ".toList) := by
  have happend : s ++ ['m'] ++ ['a'] ++ ['k'] ++ ['e'] ++ [' '] = s ++ "make ".toList := by simp
  unfold makeJob MarksAt MarksAt MarksAt MarksAt MarksAt MarksAt
  rw [happend]
  simp

theorem endsMakeWord_iff (s : List Char) :
    EndsMakeWord (s ++ "make ".toList) ↔ wordAt s = true := by
  constructor
  · rintro ⟨u, hu, hword⟩
    rwa [List.append_left_inj _ |>.mp hu]
  · exact fun h => ⟨s, rfl, h⟩

theorem callsMake_of_isInfix {s t : List Char} (hst : s <:+: t) (ht : ¬ callsMake t = true)
    (hs : ¬ "make ".toList <+: s) : ¬ callsMake s = true := by
  unfold callsMake at ht ⊢
  rw [Bool.or_eq_true, Bool.or_eq_true, not_or, not_or] at ht ⊢
  refine ⟨⟨mt List.isPrefixOf_iff_prefix.mp hs, ?_⟩, ?_⟩
  · exact not_contains_of_isInfix hst ht.1.2
  · exact not_contains_of_isInfix hst ht.2

theorem callsMake_of_isPrefix {s : List Char} (h : "make ".toList <+: s) : callsMake s = true := by
  rw [callsMake, List.isPrefixOf_iff_prefix.mpr h, Bool.true_or, Bool.true_or]

/-- A quoted make behind the first quote. -/
theorem contains_quoted_iff {q r : List Char} (hq : '\'' ∉ q) :
    contains (q ++ '\'' :: r) "'make ".toList = true ↔
      "make ".toList <+: r ∨ contains r "'make ".toList = true := by
  induction q with
  | nil =>
    rw [List.nil_append, contains_iff, List.infix_cons_iff, contains_iff]
    exact or_congr_left (List.cons_prefix_cons.trans (and_iff_right rfl))
  | cons c q ih =>
    rw [List.mem_cons, not_or] at hq
    rw [← ih hq.2, List.cons_append, contains_iff, contains_iff, List.infix_cons_iff]
    exact or_iff_right fun h => hq.1 (List.cons_prefix_cons.mp h).1

/-- What is behind a quote begins no word. -/
theorem marksAt_jobs_quote {s : List Char} (hmake : ¬ callsMake s = true) (before : List Char) :
    MarksAt EndsMakeWord before (jobs true s) ↔ ¬ contains s "'make ".toList = true := by
  by_cases hquote : contains s ['\''] = true
  · obtain ⟨q, r, hs, hq⟩ := List.eq_append_cons_of_mem (contains_singleton_iff.mp hquote)
    subst hs
    have hlt : r.length < (q ++ '\'' :: r).length := by
      rw [List.length_append, List.length_cons]
      omega
    have hif : (contains (q ++ '\'' :: r) ['\''] && true) = true := by rw [hquote]; rfl
    rw [jobs, if_neg hmake, if_pos hif, substringBefore_singleton hq, substringAfter_singleton hq,
      marksAt_append, map_fst_bare, contains_quoted_iff hq]
    show (_ ∧ _ ∧ MarksAt EndsMakeWord (before ++ q ++ ['\'']) (jobs true r)) ↔ _
    by_cases hr : "make ".toList <+: r
    · refine iff_of_false (fun h => ?_) fun h => h (Or.inl hr)
      -- the make is marked, directly behind the quote
      obtain ⟨r', rfl⟩ := hr
      have hbefore : substringBefore ("make ".toList ++ r') "make ".toList = [] := by
        rw [substringBefore, cut_isPrefix]
      have hmarks := h.2.2
      rw [jobs, if_pos (callsMake_of_isPrefix ⟨r', rfl⟩), hbefore, marksAt_append, marksAt_append]
        at hmarks
      have hword := (marksAt_makeJob _ _).mp hmarks.1.2
      have hnil : (jobs true []).map Prod.fst = [] := map_fst_jobs true fun u v h => by simp at h
      rw [hnil, List.append_nil, endsMakeWord_iff, wordAt_quote] at hword
      cases hword
    · have hrest : r <:+: q ++ '\'' :: r := ⟨q ++ ['\''], [], by simp⟩
      have ih := marksAt_jobs_quote (callsMake_of_isInfix hrest hmake hr) (before ++ q ++ ['\''])
      rw [ih, or_iff_right hr]
      exact ⟨fun h => h.2.2, fun h => ⟨marksAt_bare _ _ _, fun h => (by cases h), h⟩⟩
  · have hif : ¬ (contains s ['\''] && true) = true := by rwa [Bool.and_true]
    rw [jobs, if_neg hmake, if_neg hif]
    refine iff_of_true (marksAt_bare _ _ _) fun h => hquote ?_
    rw [contains_singleton_iff]
    exact (contains_iff.mp h).subset (by decide)
termination_by s.length

/-- A text from which no make is split off has marks only where the wrapper quotes it. -/
theorem marksAt_jobs_of_not (wrap : Bool) {s : List Char} (hmake : ¬ callsMake s = true)
    (before : List Char) : MarksAt EndsMakeWord before (jobs wrap s) ↔
      (wrap = true → ¬ contains s "'make ".toList = true) := by
  cases wrap with
  | true =>
    rw [marksAt_jobs_quote hmake]
    exact ⟨fun h _ => h, fun h => h rfl⟩
  | false =>
    rw [jobs, if_neg hmake, Bool.and_false, if_neg Bool.false_ne_true]
    exact iff_of_true (marksAt_bare _ _ _) fun h => (by cases h)

/-- An occurrence of `make ` that is split off, or stands behind it. -/
theorem make_occurrence {s b a : List Char} (hcut : cut "make ".toList s = some (b, a))
    {u v : List Char} (huv : s = u ++ ("make ".toList ++ v)) :
    (u = b ∧ v = a) ∨ ∃ w, u = b ++ ("make ".toList ++ w) ∧ a = w ++ ("make ".toList ++ v) := by
  rcases cut_occurrence (c := 'm') (p := "ake ".toList) (by decide) u v with h | ⟨b', w, hu, h⟩
  · have heq := (huv ▸ hcut).symm.trans h
    cases heq
    exact Or.inl ⟨rfl, rfl⟩
  · have heq := (huv ▸ hcut).symm.trans h
    cases heq
    exact Or.inr ⟨w, hu, rfl⟩

/-- The same where the character before it is known. -/
theorem make_occurrence_concat {s b a : List Char} (hcut : cut "make ".toList s = some (b, a))
    {u v : List Char} {c : Char} (huv : s = u ++ c :: ("make ".toList ++ v)) :
    b = u ++ [c] ∨ (c = ' ' ∧ "make ".toList <+: a) ∨ c :: "make ".toList <:+: a := by
  have huv' : s = (u ++ [c]) ++ ("make ".toList ++ v) := by rw [huv]; simp
  rcases make_occurrence hcut huv' with ⟨hb, -⟩ | ⟨w, hu, ha⟩
  · exact Or.inl hb.symm
  · right
    induction w using List.reverseRecOn with
    | nil =>
      left
      have hlast := congrArg List.getLast? hu
      rw [List.getLast?_concat, List.append_nil, List.getLast?_append] at hlast
      exact ⟨Option.some.inj hlast, ⟨v, ha.symm⟩⟩
    | append_singleton w d _ =>
      right
      rw [← List.append_assoc, ← List.append_assoc] at hu
      have hd : c = d := by
        have hlast := congrArg List.getLast? hu
        rw [List.getLast?_concat, List.getLast?_concat] at hlast
        exact Option.some.inj hlast
      exact ⟨w, v, by rw [ha, hd]; simp⟩

/-- Where the guard of the template looks for a make: behind this text, a `make ` is at the
beginning of a piece or of a line, or behind a blank. -/
def Begins (t : List Char) : Prop := t = [] ∨ t.getLast? = some ' ' ∨ t.getLast? = some '\n'

theorem begins_append {s t : List Char} (hs : Begins s) (ht : Begins t) : Begins (s ++ t) := by
  rcases List.eq_nil_or_concat' t with rfl | ⟨t, c, rfl⟩
  · rwa [List.append_nil]
  · right
    rw [← List.append_assoc, List.getLast?_concat]
    have hlast := ht.resolve_left (by simp)
    rwa [List.getLast?_concat] at hlast

theorem begins_append_make (s : List Char) : Begins (s ++ "make ".toList) := by
  right
  left
  rw [List.getLast?_append]
  rfl

/-- A make that the guard looks for is found. -/
theorem callsMake_of_begins {u v : List Char} (hu : Begins u) :
    callsMake (u ++ ("make ".toList ++ v)) = true := by
  rcases List.eq_nil_or_concat' u with rfl | ⟨u, c, rfl⟩
  · exact callsMake_of_isPrefix ⟨v, rfl⟩
  · have hlast := hu.resolve_left (by simp)
    rw [List.getLast?_concat] at hlast
    rw [callsMake, Bool.or_eq_true, Bool.or_eq_true, contains_iff, contains_iff]
    rcases hlast with hc | hc
    · cases Option.some.inj hc
      exact Or.inl (Or.inr ⟨u, v, by simp⟩)
    · cases Option.some.inj hc
      exact Or.inr ⟨u, ' ' :: v, by simp⟩

/-- The last make that is split off is one that the guard has found. -/
theorem begins_of_last {s b a : List Char} (hlines : BlankAfterMake s)
    (hcut : cut "make ".toList s = some (b, a)) (hmake : callsMake s = true)
    (hlast : ¬ callsMake a = true) : Begins b := by
  have hspace : ∀ u v, s = u ++ ' ' :: ("make ".toList ++ v) → Begins b := by
    intro u v huv
    rcases make_occurrence_concat hcut huv with rfl | ⟨-, ha⟩ | ha
    · exact Or.inr (Or.inl List.getLast?_concat)
    · exact absurd (callsMake_of_isPrefix ha) hlast
    · refine absurd ?_ hlast
      rw [callsMake, contains_iff.mpr (show " make ".toList <:+: a from ha), Bool.or_true,
        Bool.true_or]
  unfold callsMake at hmake
  rw [Bool.or_eq_true, Bool.or_eq_true, List.isPrefixOf_iff_prefix, contains_iff, contains_iff]
    at hmake
  rcases hmake with (⟨t, ht⟩ | ⟨u, v, huv⟩) | ⟨u, v, huv⟩
  · rw [← ht, cut_isPrefix] at hcut
    exact Or.inl (Prod.mk.inj (Option.some.inj hcut)).1.symm
  · exact hspace u v (by rw [← huv, List.append_assoc]; rfl)
  · have hhead := hlines u v (by rw [← huv, List.append_assoc])
    cases v with
    | nil => cases hhead
    | cons c v =>
      cases Option.some.inj hhead
      have huv' : s = u ++ '\n' :: ("make ".toList ++ v) := by rw [← huv]; simp
      rcases make_occurrence_concat hcut huv' with rfl | ⟨hc, -⟩ | ha
      · exact Or.inr (Or.inr List.getLast?_concat)
      · exact absurd hc (by decide)
      · refine absurd ?_ hlast
        have hline : "\nmake".toList <:+: a := List.IsInfix.trans ⟨[], [' '], rfl⟩ ha
        rw [callsMake, contains_iff.mpr hline, Bool.or_true]

/-- Each `make ` that the template cuts at is a word: the guard finds it, or it finds
another one behind it. The text `before` is cut off already. -/
def MakesAtWords (before s : List Char) : Prop :=
  ∀ u v, s = u ++ ("make ".toList ++ v) →
    callsMake v = true ∨ Begins (before ++ u) → wordAt (before ++ u) = true

-- the text of a script of `sed` is cut at, as a make follows
example : ¬ MakesAtWords [] "sed -i 's/ make //' configure\nmake install".toList := fun h =>
  absurd (h "sed -i 's/ ".toList "//' configure\nmake install".toList rfl (Or.inl (by decide)))
    (by decide)

theorem makesAtWords_iff {s b a : List Char} (hcut : cut "make ".toList s = some (b, a))
    (before : List Char) : MakesAtWords before s ↔
      (callsMake a = true ∨ Begins (before ++ b) → wordAt (before ++ b) = true) ∧
        MakesAtWords (before ++ b ++ "make ".toList) a := by
  have hs : s = b ++ ("make ".toList ++ a) := by rw [eq_of_cut hcut, List.append_assoc]
  constructor
  · intro h
    refine ⟨h b a hs, fun u v huv hv => ?_⟩
    have hword := h (b ++ ("make ".toList ++ u)) v (by rw [hs, huv]; simp only [List.append_assoc])
    rw [← List.append_assoc, ← List.append_assoc] at hword
    exact hword hv
  · rintro ⟨hb, ha⟩ u v huv hv
    rcases make_occurrence hcut huv with ⟨rfl, rfl⟩ | ⟨w, rfl, hw⟩
    · exact hb hv
    · rw [← List.append_assoc, ← List.append_assoc] at hv ⊢
      exact ha w v hw hv

/-- In a text without a make that the guard finds, nothing is cut at. -/
theorem makesAtWords_of_not {s : List Char} (hmake : ¬ callsMake s = true)
    (before : List Char) : MakesAtWords before s := by
  rintro u v rfl (hv | hu)
  · refine absurd hv (callsMake_of_isInfix ⟨u ++ "make ".toList, [], by simp⟩ hmake ?_)
    rintro ⟨t, rfl⟩
    refine hmake ?_
    rw [callsMake, contains_iff.mpr (show " make ".toList <:+: _ from
      ⟨u ++ "make".toList, t, by simp⟩), Bool.or_true, Bool.true_or]
  · refine absurd (callsMake_of_begins ?_) hmake
    rcases List.eq_nil_or_concat' u with rfl | ⟨u, c, rfl⟩
    · exact Or.inl rfl
    · rw [← List.append_assoc] at hu
      have hlast := hu.resolve_left (by simp)
      rw [List.getLast?_concat] at hlast
      right
      rwa [List.getLast?_concat]

/-- **The marks stand behind words** exactly if every make that is cut at is a word, and no
make is quoted. -/
theorem marksAt_jobs_iff (wrap : Bool) {s : List Char} (hlines : BlankAfterMake s)
    {before : List Char} (hbefore : Begins before) :
    MarksAt EndsMakeWord before (jobs wrap s) ↔
      MakesAtWords before s ∧ (wrap = true → ¬ contains s "'make ".toList = true) := by
  by_cases hmake : callsMake s = true
  · obtain ⟨⟨b, a⟩, hcut⟩ := Option.isSome_iff_exists.mp (contains_of_callsMake hlines hmake)
    have hs : s = b ++ "make ".toList ++ a := eq_of_cut hcut
    have hlines' := hs ▸ hlines
    have hlt : a.length < s.length := by
      have hlen := congrArg List.length hs
      rw [List.length_append, List.length_append] at hlen
      have : "make ".toList.length = 5 := by decide
      omega
    have hb : substringBefore s "make ".toList = b := by rw [substringBefore, hcut]
    have ha : substringAfter s "make ".toList = a := by rw [substringAfter, hcut]
    have hnone : ¬ contains b "make ".toList = true := not_contains_of_cut (by decide) hcut
    have hbmake : ¬ callsMake b = true := fun h =>
      hnone (contains_of_callsMake hlines'.before h)
    -- nothing is cut before the first make, so its marks are quotes at most
    have hbmarks : MarksAt EndsMakeWord before (jobs wrap b) :=
      (marksAt_jobs_of_not wrap hbmake before).mpr fun _ h => hnone
        (contains_iff.mpr (List.IsInfix.trans ⟨['\''], [], rfl⟩ (contains_iff.mp h)))
    have ih := marksAt_jobs_iff wrap hlines'.of_append (begins_append_make (before ++ b))
    rw [jobs, if_pos hmake, hb, ha, marksAt_append, marksAt_append, List.map_append,
      map_fst_jobs wrap hlines'.before, marksAt_makeJob, endsMakeWord_iff, ← List.append_assoc]
    show (_ ∧ _) ∧ MarksAt EndsMakeWord (before ++ b ++ "make ".toList) (jobs wrap a) ↔ _
    rw [ih, makesAtWords_iff hcut, and_iff_right hbmarks]
    constructor
    · rintro ⟨hatb, hwords, hquoted⟩
      refine ⟨⟨fun _ => hatb, hwords⟩, fun hwrap hcontains => ?_⟩
      obtain ⟨u, v, huv⟩ := contains_iff.mp hcontains
      have huv' : s = u ++ '\'' :: ("make ".toList ++ v) := by rw [← huv]; simp
      -- a quoted make is the one that is cut, runs over it, or is after it
      rcases make_occurrence_concat hcut huv' with hbu | ⟨hc, -⟩ | hina
      · rw [hbu, ← List.append_assoc, wordAt_quote] at hatb
        cases hatb
      · exact absurd hc (by decide)
      · exact hquoted hwrap (contains_iff.mpr hina)
    · rintro ⟨⟨hatb, hwords⟩, hquoted⟩
      refine ⟨hatb ?_, hwords, fun hwrap hcontains => hquoted hwrap ?_⟩
      · by_cases hamake : callsMake a = true
        · exact Or.inl hamake
        · exact Or.inr (begins_append hbefore (begins_of_last hlines hcut hmake hamake))
      · exact contains_mono hcontains ⟨b ++ "make ".toList, [], by rw [List.append_nil, ← hs]⟩
  · -- no make of this text is split off
    rw [and_iff_right (makesAtWords_of_not hmake before)]
    exact marksAt_jobs_of_not wrap hmake before
termination_by s.length

/-! ## The marks are determined by the text -/

/-- The text ends with `make `. -/
def EndsMake (s : List Char) : Prop := "make ".toList <:+ s

theorem EndsMakeWord.endsMake {s : List Char} (h : EndsMakeWord s) : EndsMake s := by
  obtain ⟨u, rfl, -⟩ := h
  exact ⟨u, rfl⟩

theorem MarksAt.mono {p q : List Char → Prop} (hpq : ∀ s, p s → q s) {s : List Char} {t : Marked}
    (h : MarksAt p s t) : MarksAt q s t := by
  induction t generalizing s with
  | nil => trivial
  | cons x t ih => exact ⟨fun hb => hpq _ (h.1 hb), ih h.2⟩

theorem marksAt_jobs (wrap : Bool) {s : List Char} (before : List Char) :
    MarksAt EndsMake before (jobs wrap s) := by
  fun_induction jobs wrap s generalizing before with
  | case1 s hmake ihb iha =>
    rw [marksAt_append, marksAt_append, marksAt_makeJob]
    exact ⟨⟨ihb _, ⟨_, rfl⟩⟩, iha _⟩
  | case2 s hmake hquote iha =>
    rw [marksAt_append]
    exact ⟨marksAt_bare _ _ _, fun h => (by cases h), iha _⟩
  | case3 s hmake hquote => exact marksAt_bare _ _ _

theorem not_endsMake_concat {s : List Char} {c : Char} (hc : c ≠ ' ') : ¬ EndsMake (s ++ [c]) := by
  rintro ⟨u, hu⟩
  have hlast := congrArg List.getLast? hu
  rw [List.getLast?_concat, List.getLast?_append] at hlast
  exact hc (Option.some.inj hlast).symm

theorem not_endsMake_job (s : List Char) :
    ¬ EndsMake (s ++ ['-'] ++ ['j'] ++ ['1'] ++ [' ']) := by
  rintro ⟨u, hu⟩
  have hu' : (u ++ "mak".toList ++ ['e']) ++ [' '] = (s ++ ['-'] ++ ['j'] ++ ['1']) ++ [' '] := by
    rw [← hu]
    simp
  have hlast := congrArg List.getLast? (List.append_cancel_right hu')
  rw [List.getLast?_concat, List.getLast?_concat] at hlast
  exact absurd hlast (by decide)

theorem unmarked_of_fst {before : List Char} {t : Marked} {c : Char} {s : List Char}
    (ht : MarksAt EndsMake before t) (h : t.map Prod.fst = c :: s)
    (hc : ¬ EndsMake (before ++ [c])) :
    ∃ t', t = (c, false) :: t' ∧ t'.map Prod.fst = s ∧ MarksAt EndsMake (before ++ [c]) t' := by
  cases t with
  | nil => cases h
  | cons x t =>
    obtain ⟨d, b⟩ := x
    cases h
    cases b with
    | true => exact absurd (ht.1 rfl) hc
    | false => exact ⟨t, rfl, rfl, ht.2⟩

theorem unmarked_of_insertJobs {before : List Char} {t : Marked} {c : Char} {s : List Char}
    (ht : MarksAt EndsMake before t) (h : insertJobs t = c :: s)
    (hc : ¬ EndsMake (before ++ [c])) :
    ∃ t', t = (c, false) :: t' ∧ insertJobs t' = s ∧ MarksAt EndsMake (before ++ [c]) t' := by
  cases t with
  | nil => cases h
  | cons x t =>
    obtain ⟨d, b⟩ := x
    rw [insertJobs_cons, List.cons_append, List.cons.injEq] at h
    obtain ⟨hd, htail⟩ := h
    have hd' : d = c := hd
    subst hd'
    cases b with
    | true => exact absurd (ht.1 rfl) hc
    | false => exact ⟨t, rfl, htail, ht.2⟩

/-- Two marked texts do not differ by a mark in front of them: the other one would go on
with `-j1 ` for ever. -/
theorem no_shift {before : List Char} {x y : Marked} (hx : MarksAt EndsMake before x)
    (hy : MarksAt EndsMake before y) (hfst : x.map Prod.fst = y.map Prod.fst)
    (hjobs : insertJobs y = "-j1 ".toList ++ insertJobs x) : False := by
  generalize hn : x.length = n
  induction n using Nat.strong_induction_on generalizing before x y with
  | h n ih =>
  have h1 := not_endsMake_concat (s := before) (c := '-') (by decide)
  have h2 := not_endsMake_concat (s := before ++ ['-']) (c := 'j') (by decide)
  have h3 := not_endsMake_concat (s := before ++ ['-'] ++ ['j']) (c := '1') (by decide)
  have h4 := not_endsMake_job before
  obtain ⟨y1, rfl, hj1, hy1⟩ := unmarked_of_insertJobs hy hjobs h1
  obtain ⟨x1, rfl, hf1, hx1⟩ := unmarked_of_fst hx hfst h1
  obtain ⟨y2, rfl, hj2, hy2⟩ := unmarked_of_insertJobs hy1 hj1 h2
  obtain ⟨x2, rfl, hf2, hx2⟩ := unmarked_of_fst hx1 hf1 h2
  obtain ⟨y3, rfl, hj3, hy3⟩ := unmarked_of_insertJobs hy2 hj2 h3
  obtain ⟨x3, rfl, hf3, hx3⟩ := unmarked_of_fst hx2 hf2 h3
  obtain ⟨y4, rfl, hj4, hy4⟩ := unmarked_of_insertJobs hy3 hj3 h4
  obtain ⟨x4, rfl, hf4, hx4⟩ := unmarked_of_fst hx3 hf3 h4
  refine ih x4.length ?_ hx4 hy4 hf4 hj4 rfl
  rw [← hn]
  simp only [List.length_cons]
  omega

theorem insertJobs_injective {before : List Char} {x y : Marked} (hx : MarksAt EndsMake before x)
    (hy : MarksAt EndsMake before y) (hfst : x.map Prod.fst = y.map Prod.fst)
    (hjobs : insertJobs x = insertJobs y) : x = y := by
  induction x generalizing before y with
  | nil =>
    cases y with
    | nil => rfl
    | cons b y => cases hfst
  | cons a x ih =>
    cases y with
    | nil => cases hfst
    | cons b y =>
      obtain ⟨c, m⟩ := a
      obtain ⟨d, n⟩ := b
      rw [List.map_cons, List.map_cons, List.cons.injEq] at hfst
      obtain ⟨hcd, hrest⟩ := hfst
      have hcd' : c = d := hcd
      subst hcd'
      rw [insertJobs_cons, insertJobs_cons, List.cons_append, List.cons_append, List.cons.injEq]
        at hjobs
      have hjobs' := hjobs.2
      cases m with
      | false =>
        cases n with
        | false => exact congrArg (_ :: ·) (ih hx.2 hy.2 hrest hjobs')
        | true => exact (no_shift hy.2 hx.2 hrest.symm hjobs').elim
      | true =>
        cases n with
        | false => exact (no_shift hx.2 hy.2 hrest hjobs'.symm).elim
        | true =>
          exact congrArg (_ :: ·) (ih hx.2 hy.2 hrest (List.append_cancel_left hjobs'))

/-! ## When nothing but make is altered -/

/-- The instructions that come out well: at the beginning of a line a blank follows on
`make`, each `make ` that the guard finds, or that another one follows, is a word, and with
the wrapper no make stands directly behind a single quote. -/
structure MakesPlain (wrap : Bool) (s : List Char) : Prop where
  lines : BlankAfterMake s
  words : MakesAtWords [] s
  quoted : wrap = true → ¬ contains s "'make ".toList = true

theorem count_insertJobs (t : Marked) :
    (insertJobs t).count '\n' = (t.map Prod.fst).count '\n' := by
  induction t with
  | nil => rfl
  | cons x t ih =>
    obtain ⟨c, b⟩ := x
    have hjob : (if b then "-j1 ".toList else []).count '\n' = 0 := by cases b <;> decide
    rw [insertJobs_cons, List.count_append, List.map_cons, List.count_cons, List.count_cons, hjob,
      ih, Nat.zero_add, Nat.add_comm]

theorem undo_outputInstall (P : Params) {s : List Char} (h : ¬ contains s ampNewline = true) :
    undo P (outputInstall P s) = insertJobs (jobs P.wrapInstall s) := by
  have hread := (outputInstall_jobs P h).1
  unfold undo
  dsimp only
  rw [hread]
  cases P.wrapInstall with
  | true => exact unquote_quote _
  | false => exact quote_of_notMem fun hw => (by cases hw)

theorem blankAfterMake_of_altersMakeOnly {P : Params} {s : List Char}
    (h : ¬ contains s ampNewline = true) (halters : AltersMakeOnly P s) : BlankAfterMake s := by
  obtain ⟨t, hfst, hjobs, -⟩ := halters
  rw [undo_outputInstall P h] at hjobs
  have hcount := congrArg (List.count '\n') hjobs
  rw [count_insertJobs, count_insertJobs, hfst] at hcount
  exact blankAfterMake_of_count hcount

/-- **`output-install` alters nothing but make** exactly for these instructions. -/
theorem altersMakeOnly_iff (P : Params) {s : List Char} (h : contains s ampNewline = false) :
    AltersMakeOnly P s ↔ MakesPlain P.wrapInstall s := by
  have hamp : ¬ contains s ampNewline = true := Bool.not_eq_true _ ▸ h
  have hundo := undo_outputInstall P hamp
  constructor
  · intro halters
    have hlines := blankAfterMake_of_altersMakeOnly hamp halters
    obtain ⟨t, hfst, hjobs, hmarks⟩ := halters
    rw [hundo] at hjobs
    -- the marks of the property are those of the templates
    have heq : jobs P.wrapInstall s = t := by
      refine insertJobs_injective (marksAt_jobs P.wrapInstall []) ?_ ?_ hjobs
      · exact hmarks.mono fun _ => EndsMakeWord.endsMake
      · rw [map_fst_jobs P.wrapInstall hlines, hfst]
    rw [← heq, marksAt_jobs_iff P.wrapInstall hlines (Or.inl rfl)] at hmarks
    exact ⟨hlines, hmarks.1, hmarks.2⟩
  · rintro ⟨hlines, hwords, hquoted⟩
    refine ⟨jobs P.wrapInstall s, map_fst_jobs P.wrapInstall hlines, hundo, ?_⟩
    exact (marksAt_jobs_iff P.wrapInstall hlines (Or.inl rfl)).mpr ⟨hwords, hquoted⟩

theorem altersMakeOnly_install : contains "make install".toList ampNewline = false ∧
    (AltersMakeOnly ⟨true, true, false⟩ "make install".toList ↔
      MakesPlain true "make install".toList) :=
  ⟨by decide, altersMakeOnly_iff ⟨true, true, false⟩ (by decide)⟩

/-- Of an instruction with `makeinfo` at the beginning of a line nothing is left. -/
theorem not_altersMakeOnly_makeinfo :
    outputInstall ⟨true, false, false⟩ "cd doc\nmakeinfo guide.texi".toList = "make -j1 ".toList ∧
    ∀ P : Params, ¬ AltersMakeOnly P "cd doc\nmakeinfo guide.texi".toList := by
  constructor
  · decide +kernel
  · intro P halters
    have hlines := blankAfterMake_of_altersMakeOnly (by decide) halters
    exact absurd (hlines "cd doc".toList "info guide.texi".toList rfl) (by decide)

end Jhalfs.Scripts
