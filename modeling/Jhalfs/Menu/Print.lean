import Jhalfs.Menu.Parse

/-!
# The text of an expression

`expr_str` prints an expression as it stands in a Kconfig file, and `eval_string` reads such a
text (src/menu/kconfiglib.py). The text is cut into the tokens of the expression
(`tokenize_exprStr`), whatever the names of the constant symbols are, and the tokens are parsed
to the expression (`exprOf_exprTokens`).

- `exprStr` and `evalString`: the two functions.
- `Printable`: the symbols that a Kconfig file can name. A constant symbol is printed between
  quotes with escapes, and any name without a `$` can stand there.
- `Lexes`: the rest of a line is cut into some tokens, whatever comes before; the reader of
  strings depends on whether there is a backslash before the quote or behind it.
- `Ends`: what may follow a symbol, and `LexOk`: a text with any such rest behind it is cut into
  its tokens and those of the rest. `lexOk_exprStr` goes through the cases of an expression.
- `exprStr_regroup`: the text does not tell how the operands are grouped.

**Main results**:

- `evalString_exprStr`: the text of a condition evaluates to the value of the condition.
- `exprOf_exprStr`: the text of an expression is read as the expression grouped to the right,
  which has the same value and the same text.
-/

namespace Jhalfs.Menu

/-! ## Printing -/

/-- `standard_sc_expr_str`, for symbols. -/
def standardScExprStr (s : Sym) : List Char :=
  if s.isConstant && !([['n'], ['m'], ['y']].contains s.name) then '"' :: (escape s.name ++ ['"'])
  else s.name

def Op.text : Op → List Char
  | and => "&&".toList
  | or => "||".toList

/-- `_REL_TO_STR`. -/
def Rel.text : Rel → List Char
  | equal => "=".toList
  | unequal => "!=".toList
  | less => "<".toList
  | lessEqual => "<=".toList
  | greater => ">".toList
  | greaterEqual => ">=".toList

/-- `expr_str`. -/
def exprStr {I : Type*} (scExprStr : I → List Char) : Expr I → List Char
  | .item s => scExprStr s
  | .bin op a b =>
    parenthesize '(' ')' a op.other (exprStr scExprStr a) ++
      (' ' :: op.text ++ ' ' :: parenthesize '(' ')' b op.other (exprStr scExprStr b))
  | .not (.item s) => '!' :: scExprStr s
  | .not a => '!' :: '(' :: (exprStr scExprStr a ++ [')'])
  | .rel r a b => scExprStr a ++ (' ' :: r.text ++ ' ' :: scExprStr b)

/-- `eval_string`: the condition is read as that of an `if`. -/
def evalString (modules : Sym) (v : Values Sym) (s : List Char) : Option Tri :=
  match tokenize ("if ".toList ++ s) with
  | some (_ :: tokens) =>
    match exprOf modules true tokens with
    | some (expr, []) => some (exprValue v expr)
    | _ => none
  | _ => none

/-! ## Reading the pieces -/

/-- A name that the tokenizer reads as a symbol that is not constant. -/
def isPlainName (name : List Char) : Bool :=
  name ≠ [] && name.all isNameChar && !name.contains '$' && (getKeyword name).isNone &&
    !([['n'], ['m'], ['y']].contains name)

/-- The symbols that Kconfig files can name; a macro would be expanded. -/
def Sym.Printable (s : Sym) : Prop :=
  if s.isConstant then '$' ∉ s.name else isPlainName s.name = true

instance : DecidablePred Sym.Printable := fun s =>
  inferInstanceAs (Decidable (if s.isConstant then '$' ∉ s.name else isPlainName s.name = true))

/-- The rest of a line is cut into these tokens, whatever comes before. -/
def Lexes (rest : List Char) (tokens : List Token) : Prop :=
  ∀ before prev, prev.stringLex = false →
    lexAll (.keyword .if) prev ⟨before, rest⟩ = some tokens

/-- The text begins with a token. -/
def Starts (s : List Char) : Prop := ∃ c r, s = c :: r ∧ isSpace c = false

/-- What follows a symbol in a text: nothing, a parenthesis, or a blank and the next token. -/
def Ends (rest : List Char) : Prop :=
  rest = [] ∨ (∃ r, rest = ')' :: r) ∨ ∃ r, rest = ' ' :: r ∧ Starts r

/-- Blanks are skipped behind a token. -/
def skip (s : List Char) : List Char := s.dropWhile isSpace

theorem isSpace_of_isBlank {c : Char} (h : isBlank c = true) : isSpace c = true := by
  simp only [isBlank, Bool.or_eq_true, beq_iff_eq, Bool.and_eq_true] at h
  rcases h with rfl | h
  · decide
  · simp [isSpace, h]

theorem skip_of_starts {s : List Char} (h : Starts s) : skip s = s := by
  obtain ⟨c, r, rfl, hc⟩ := h
  rw [skip, List.dropWhile_cons, hc]
  rfl

theorem skip_blank {s : List Char} (h : Starts s) : skip (' ' :: s) = s := by
  show skip s = s
  exact skip_of_starts h

/-- Behind a name only blanks of the regular expression are skipped. -/
theorem Ends.dropWhile_isBlank {rest : List Char} (h : Ends rest) :
    rest.dropWhile isBlank = skip rest := by
  rcases h with rfl | ⟨r, rfl⟩ | ⟨r, rfl, hr⟩
  · rfl
  · rfl
  · rw [skip_blank hr]
    obtain ⟨c, r, rfl, hc⟩ := hr
    have hblank : isBlank c = false := by
      by_contra h
      rw [isSpace_of_isBlank (by simpa using h)] at hc
      cases hc
    show (c :: r).dropWhile isBlank = c :: r
    rw [List.dropWhile_cons, hblank]
    rfl

theorem Ends.not_isNameChar {rest : List Char} (h : Ends rest) :
    ∀ c, rest.head? = some c → isNameChar c = false := by
  rcases h with rfl | ⟨r, rfl⟩ | ⟨r, rfl, -⟩
  · intro c hc
    cases hc
  · intro c hc
    cases hc
    decide
  · intro c hc
    cases hc
    decide

theorem lexes_nil : Lexes [] [] := by
  intro before prev _
  rw [lexAll, if_pos rfl]

theorem lexes_of_lexToken {rest next : List Char} {token : Token} {tokens : List Token}
    (hhash : rest.head? ≠ some '#') (htoken : token.stringLex = false) (hnext : Lexes next tokens)
    (h : ∀ before prev, prev.stringLex = false →
      ∃ before', lexToken (.keyword .if) prev ⟨before, rest⟩ = some (token, ⟨before', next⟩)) :
    Lexes rest (token :: tokens) := by
  intro before prev hprev
  obtain ⟨before', hlex⟩ := h before prev hprev
  have hne : rest ≠ [] := by
    rintro rfl
    have hlt := length_lexToken hlex
    exact Nat.not_lt_zero _ hlt
  rw [lexAll, if_neg hne, if_neg hhash]
  split
  next heq =>
    rw [heq] at hlex
    cases hlex
  next token' next' heq =>
    rw [heq] at hlex
    cases hlex
    rw [hnext _ _ htoken]
    rfl

/-- A word is read up to the character that is not one of a name. -/
theorem takeWhile_name {name rest : List Char} (hname : name.all isNameChar = true)
    (hrest : ∀ c, rest.head? = some c → isNameChar c = false) :
    (name ++ rest).takeWhile isNameChar = name ∧ (name ++ rest).dropWhile isNameChar = rest := by
  rw [List.all_eq_true] at hname
  rw [List.takeWhile_append_of_pos hname, List.dropWhile_append_of_pos hname]
  cases rest with
  | nil => simp
  | cons c r =>
    have hc := hrest c rfl
    simp [hc]

theorem lexes_word {name rest : List Char} {s : Sym} {tokens : List Token} (hne : name ≠ [])
    (hname : name.all isNameChar = true) (hends : Ends rest)
    (hword : ∀ prev : Token, prev.stringLex = false → wordToken prev name = some (.sym s))
    (hnext : Lexes (skip rest) tokens) : Lexes (name ++ rest) (.sym s :: tokens) := by
  have hhash : (name ++ rest).head? ≠ some '#' := by
    cases name with
    | nil => exact absurd rfl hne
    | cons c name =>
      intro h
      cases h
      rw [List.all_cons] at hname
      revert hname
      simp [show isNameChar '#' = false by decide]
  refine lexes_of_lexToken hhash rfl hnext fun before prev hprev => ?_
  obtain ⟨htake, hdrop⟩ := takeWhile_name hname hends.not_isNameChar
  rw [lexToken]
  simp only [htake, hdrop, hends.dropWhile_isBlank]
  rw [if_pos hne, hword prev hprev]
  exact ⟨_, rfl⟩

/-- **A symbol is read as it is printed**, with quotes and escapes if it is constant and as a plain
word if not. -/
theorem lexes_sym {s : Sym} {rest : List Char} {tokens : List Token} (hs : s.Printable)
    (hends : Ends rest) (hnext : Lexes (skip rest) tokens) :
    Lexes (standardScExprStr s ++ rest) (.sym s :: tokens) := by
  rw [Sym.Printable] at hs
  rw [standardScExprStr]
  by_cases hconst : s.isConstant = true
  · rw [if_pos hconst] at hs
    by_cases hnmy : [['n'], ['m'], ['y']].contains s.name = true
    -- `n`, `m` and `y` are printed without quotes
    · rw [if_neg (by rw [hnmy, hconst]; decide)]
      have hcases : s.name = ['n'] ∨ s.name = ['m'] ∨ s.name = ['y'] := by simpa using hnmy
      have hsym : s = ⟨s.name, true⟩ := by rw [← hconst]
      rcases hcases with h | h | h
      all_goals
        rw [hsym, h]
        refine lexes_word (by decide) (by decide) hends (fun prev hprev => ?_) hnext
        rw [wordToken, show getKeyword _ = none by decide]
        dsimp only
        rw [hprev]
        rfl
    · rw [if_pos (by rw [Bool.eq_false_iff.mpr hnmy, hconst]; decide)]
      show Lexes ('"' :: (escape s.name ++ ['"']) ++ rest) _
      rw [List.cons_append, List.append_assoc]
      refine lexes_of_lexToken (by simp) rfl hnext fun before prev hprev => ?_
      rw [lexToken]
      have htake : ('"' :: (escape s.name ++ (['"'] ++ rest))).takeWhile isNameChar = [] := by
        rw [List.takeWhile_cons, if_neg (by decide)]
      simp only [htake]
      rw [if_neg (by simp), if_pos (Or.inl trivial)]
      have hread : readStr before '"' (escape s.name ++ '"' :: rest) = some (s.name, rest) :=
        readStr_escape before hs
      rw [List.singleton_append, hread, hprev]
      have hsym : (⟨s.name, true⟩ : Sym) = s := by rw [← hconst]
      rw [← hsym]
      exact ⟨_, rfl⟩
  · rw [if_neg hconst, isPlainName] at hs
    simp only [Bool.and_eq_true, decide_eq_true_eq, Bool.not_eq_true', Option.isNone_iff_eq_none]
      at hs
    obtain ⟨⟨⟨⟨hne, hname⟩, hdollar⟩, hkey⟩, hnmy⟩ := hs
    rw [if_neg (by simp [hconst])]
    refine lexes_word hne hname hends (fun prev hprev => ?_) hnext
    rw [wordToken, hkey]
    dsimp only
    rw [hprev, hdollar]
    have hsym : s = ⟨s.name, false⟩ := by rw [← Bool.eq_false_iff.mpr hconst]
    have hcond : (s.name == ['y'] || s.name == ['m'] || s.name == ['n']) = false := by
      simpa [and_comm, and_assoc] using hnmy
    rw [hcond, ← hsym]
    rfl

/-- An operator is read as it is printed. -/
theorem lexes_operator {c : Char} {text rest : List Char} {token : Token} {tokens : List Token}
    (hname : isNameChar c = false) (hchar : c ≠ '"' ∧ c ≠ '\'' ∧ c ≠ '#')
    (htoken : token.stringLex = false)
    (ho : operator (c :: text ++ rest) = some (token, text.length + 1))
    (hnext : Lexes (skip rest) tokens) : Lexes (c :: text ++ rest) (token :: tokens) := by
  have hhash : (c :: text ++ rest).head? ≠ some '#' := fun h => hchar.2.2 (by cases h; rfl)
  refine lexes_of_lexToken hhash htoken hnext fun before prev _ => ?_
  have htake : (c :: text ++ rest).takeWhile isNameChar = [] := by
    rw [List.cons_append, List.takeWhile_cons, hname]
    rfl
  rw [lexToken]
  simp only [htake]
  rw [if_neg (by simp)]
  simp only [List.cons_append]
  rw [if_neg (by simp [hchar])]
  rw [List.cons_append] at ho
  rw [ho]
  have hdrop : (c :: (text ++ rest)).drop (text.length + 1) = rest := by simp
  simp only [Option.map_some, hdrop]
  exact ⟨_, rfl⟩

theorem lexes_char {c : Char} {rest : List Char} {token : Token} {tokens : List Token}
    (hname : isNameChar c = false) (hchar : c ≠ '"' ∧ c ≠ '\'' ∧ c ≠ '#')
    (htoken : token.stringLex = false) (ho : operator (c :: rest) = some (token, 1))
    (hnext : Lexes (skip rest) tokens) : Lexes (c :: rest) (token :: tokens) :=
  @lexes_operator c [] rest token tokens hname hchar htoken ho hnext

/-! ## The whole text -/

/-- The symbols of an expression can be printed. -/
def Expr.Printable (e : Expr Sym) : Prop := ∀ s ∈ exprItems e, s.Printable

instance : DecidablePred Expr.Printable := fun e =>
  inferInstanceAs (Decidable (∀ s ∈ exprItems e, s.Printable))

theorem not_isSpace_of_isNameChar {c : Char} (h : isNameChar c = true) : isSpace c = false := by
  have hrange : 45 ≤ c.toNat ∧ c.toNat ≤ 122 ∨ c.toNat = 36 := by
    rw [isNameChar, Bool.or_eq_true] at h
    rcases h with h | h
    · delta Char.isAlphanum Char.isAlpha Char.isUpper Char.isLower Char.isDigit at h
      simp only [Bool.or_eq_true, decide_eq_true_eq, Bool.and_eq_true, ge_iff_le,
        UInt32.le_iff_toNat_le] at h
      rcases h with ((⟨h₁, h₂⟩ | ⟨h₁, h₂⟩) | ⟨h₁, h₂⟩)
      all_goals
        simp at h₁ h₂
        omega
    · simp at h
      rcases h with rfl | rfl | rfl | rfl | rfl
      all_goals decide
  have hfew : ∀ n : Nat, 45 ≤ n ∧ n ≤ 122 ∨ n = 36 →
      ¬ n ∈ [0x85, 0xA0, 0x1680, 0x2028, 0x2029, 0x202F, 0x205F, 0x3000] := by
    intro n hn hmem
    simp at hmem
    omega
  have hnot := hfew c.toNat hrange
  simp only [isSpace, Bool.or_eq_false_iff, Bool.and_eq_false_iff, decide_eq_false_iff_not]
  refine ⟨⟨⟨?_, ?_⟩, ?_⟩, ?_⟩
  · omega
  · omega
  · simpa using hnot
  · omega

/-- A symbol begins with a token that is no `=`. -/
theorem starts_sym {s : Sym} (hs : s.Printable) :
    ∃ c r, standardScExprStr s = c :: r ∧ isSpace c = false ∧ c ≠ '=' := by
  rw [standardScExprStr]
  by_cases hquote : (s.isConstant && !([['n'], ['m'], ['y']].contains s.name)) = true
  · rw [if_pos hquote]
    exact ⟨'"', _, rfl, by decide, by decide⟩
  · rw [if_neg hquote]
    have hname : s.name ≠ [] ∧ s.name.all isNameChar = true := by
      rw [Sym.Printable] at hs
      by_cases hconst : s.isConstant = true
      · have hnmy : [['n'], ['m'], ['y']].contains s.name = true := by
          by_contra hn
          exact hquote (by rw [hconst, Bool.eq_false_iff.mpr hn]; rfl)
        have hcases : s.name = ['n'] ∨ s.name = ['m'] ∨ s.name = ['y'] := by simpa using hnmy
        rcases hcases with h | h | h
        all_goals
          rw [h]
          exact ⟨by decide, by decide⟩
      · rw [if_neg hconst, isPlainName] at hs
        simp only [Bool.and_eq_true, decide_eq_true_eq] at hs
        exact ⟨hs.1.1.1.1, hs.1.1.1.2⟩
    obtain ⟨c, r, hcr⟩ := List.exists_cons_of_ne_nil hname.1
    have hc : isNameChar c = true := List.all_eq_true.mp hname.2 c (by rw [hcr]; simp)
    refine ⟨c, r, hcr, not_isSpace_of_isNameChar hc, ?_⟩
    rintro rfl
    revert hc
    decide

/-- The text of an expression begins with a token that is no `=`. -/
theorem starts_exprStr {e : Expr Sym} (h : e.Printable) :
    ∃ c r, exprStr standardScExprStr e = c :: r ∧ isSpace c = false ∧ c ≠ '=' := by
  induction e with
  | item s => exact starts_sym (h s (List.mem_singleton_self s))
  | rel r a b =>
    obtain ⟨c, r', hc, hspace⟩ := starts_sym (h a List.mem_cons_self)
    exact ⟨c, _, by rw [exprStr, hc]; rfl, hspace⟩
  | not a _ =>
    cases a with
    | item s => exact ⟨'!', _, rfl, by decide, by decide⟩
    | _ => exact ⟨'!', _, rfl, by decide, by decide⟩
  | bin op a b iha _ =>
    rw [exprStr, parenthesize]
    split
    · exact ⟨'(', _, rfl, by decide, by decide⟩
    · obtain ⟨c, r', hc, hspace⟩ := iha fun s hs => h s (List.mem_append_left _ hs)
      exact ⟨c, _, by rw [hc]; rfl, hspace⟩

/-- The text of an expression, with what may follow it, is cut into its tokens. The rest is any text
that may follow a symbol and is cut into tokens of its own. -/
def LexOk (s : List Char) (ts : List Token) : Prop :=
  ∀ (rest : List Char) (tokens : List Token), Ends rest → Lexes (skip rest) tokens →
    Lexes (s ++ rest) (ts ++ tokens)

theorem ends_blank {s : List Char} (h : Starts s) : Ends (' ' :: s) := Or.inr (Or.inr ⟨s, rfl, h⟩)

theorem Starts.append {s : List Char} (h : Starts s) (t : List Char) : Starts (s ++ t) := by
  obtain ⟨c, r, rfl, hc⟩ := h
  exact ⟨c, r ++ t, rfl, hc⟩

/-- A text in parentheses. -/
theorem LexOk.paren {s : List Char} {ts : List Token} (h : LexOk s ts) (hs : Starts s) :
    LexOk ('(' :: (s ++ [')'])) (.openParen :: (ts ++ [.closeParen])) := by
  intro rest tokens _ hnext
  have hclose : Lexes (')' :: rest) (.closeParen :: tokens) :=
    lexes_char (by decide) (by decide) rfl rfl hnext
  have hinner : Lexes (s ++ ')' :: rest) (ts ++ .closeParen :: tokens) :=
    h _ _ (Or.inr (Or.inl ⟨rest, rfl⟩)) hclose
  have hopen : Lexes ('(' :: (s ++ ')' :: rest)) (.openParen :: (ts ++ .closeParen :: tokens)) := by
    refine lexes_char (by decide) (by decide) rfl rfl ?_
    rw [skip_of_starts (hs.append _)]
    exact hinner
  simpa using hopen

/-- Two texts with an operator between them. -/
theorem LexOk.between {s t text : List Char} {ss ts : List Token} {token : Token} {c : Char}
    (hs : LexOk s ss) (ht : LexOk t ts) (hstarts : Starts t) (hname : isNameChar c = false)
    (hchar : c ≠ '"' ∧ c ≠ '\'' ∧ c ≠ '#') (hspace : isSpace c = false)
    (htoken : token.stringLex = false)
    (ho : ∀ rest, operator (c :: text ++ ' ' :: rest) = some (token, text.length + 1)) :
    LexOk (s ++ (' ' :: (c :: text) ++ ' ' :: t)) (ss ++ token :: ts) := by
  intro rest tokens hends hnext
  have hop : Lexes (c :: text ++ ' ' :: (t ++ rest)) (token :: (ts ++ tokens)) := by
    refine lexes_operator hname hchar htoken (ho _) ?_
    rw [skip_blank (hstarts.append rest)]
    exact ht _ _ hends hnext
  have hstart : Starts (c :: text ++ ' ' :: (t ++ rest)) := ⟨c, _, rfl, hspace⟩
  have h := hs _ _ (ends_blank hstart) (by rw [skip_blank hstart]; exact hop)
  simpa using h

theorem starts_parenthesize {e : Expr Sym} {op : Op} {s : List Char} (h : Starts s) :
    Starts (parenthesize '(' ')' e op s) := by
  rw [parenthesize]
  split
  · exact ⟨'(', _, rfl, by decide⟩
  · exact h

theorem lexOk_exprStr {e : Expr Sym} (h : e.Printable) :
    LexOk (exprStr standardScExprStr e) (exprTokens e) := by
  have hsym : ∀ {s : Sym}, s.Printable → LexOk (standardScExprStr s) [.sym s] :=
    fun hs _ _ hends hnext => lexes_sym hs hends hnext
  have hstarts : ∀ {e : Expr Sym}, e.Printable → Starts (exprStr standardScExprStr e) := by
    intro e he
    obtain ⟨c, r, hc, hspace, -⟩ := starts_exprStr he
    exact ⟨c, r, hc, hspace⟩
  have hnot : ∀ {s : List Char} {ts : List Token}, LexOk s ts →
      (∃ c r, s = c :: r ∧ isSpace c = false ∧ c ≠ '=') → LexOk ('!' :: s) (.not :: ts) := by
    rintro s ts hs ⟨c, r, rfl, hspace, heq⟩ rest tokens hends hnext
    show Lexes ('!' :: c :: (r ++ rest)) (.not :: (ts ++ tokens))
    refine lexes_char (by decide) (by decide) rfl ?_ ?_
    · rw [operator]
      intro tail h
      exact heq (List.cons.inj h).1
    · rw [skip_of_starts ⟨c, r ++ rest, rfl, hspace⟩]
      exact hs _ _ hends hnext
  induction e with
  | item s => exact hsym (h s (List.mem_singleton_self s))
  | rel r a b =>
    have ha := h a List.mem_cons_self
    have hb := h b (List.mem_cons_of_mem _ List.mem_cons_self)
    have hstart : Starts (standardScExprStr b) := by
      obtain ⟨c, r', hc, hspace, -⟩ := starts_sym hb
      exact ⟨c, r', hc, hspace⟩
    cases r
    all_goals
      exact (hsym ha).between (hsym hb) hstart (by decide) (by decide) (by decide) rfl fun _ => rfl
  | not a ih =>
    cases a with
    | item s =>
      exact hnot (hsym (h s (List.mem_singleton_self s))) (starts_sym (h s (by simp [exprItems])))
    | bin op a b => exact hnot ((ih h).paren (hstarts h)) ⟨'(', _, rfl, by decide, by decide⟩
    | not a => exact hnot ((ih h).paren (hstarts h)) ⟨'(', _, rfl, by decide, by decide⟩
    | rel r a b => exact hnot ((ih h).paren (hstarts h)) ⟨'(', _, rfl, by decide, by decide⟩
  | bin op a b iha ihb =>
    have ha : a.Printable := fun s hs => h s (List.mem_append_left _ hs)
    have hb : b.Printable := fun s hs => h s (List.mem_append_right _ hs)
    have hpar : ∀ {e : Expr Sym} {type_ : Op}, e.Printable →
        LexOk (exprStr standardScExprStr e) (exprTokens e) →
          LexOk (parenthesize '(' ')' e type_ (exprStr standardScExprStr e))
            (parenthesize .openParen .closeParen e type_ (exprTokens e)) := by
      intro e type_ he hlex
      rw [parenthesize, parenthesize]
      split
      · exact hlex.paren (hstarts he)
      · exact hlex
    cases op
    all_goals
      exact (hpar ha (iha ha)).between (hpar hb (ihb hb)) (starts_parenthesize (hstarts hb))
        (by decide) (by decide) (by decide) rfl fun _ => rfl

/-! ## Reading what is printed -/

/-- The line of a condition is cut into its tokens. -/
theorem tokenize_exprStr {e : Expr Sym} (h : e.Printable) :
    tokenize ("if ".toList ++ exprStr standardScExprStr e) =
      some (.keyword .if :: exprTokens e) := by
  obtain ⟨c, r, hc, hspace, -⟩ := starts_exprStr h
  have hblank : isBlank c = false := by
    by_contra hb
    rw [isSpace_of_isBlank (by simpa using hb)] at hspace
    cases hspace
  have hlex := lexOk_exprStr h [] [] (Or.inl rfl) lexes_nil
  rw [List.append_nil, List.append_nil] at hlex
  have hrest : (' ' :: exprStr standardScExprStr e).dropWhile isBlank =
      exprStr standardScExprStr e := by
    show (exprStr standardScExprStr e).dropWhile isBlank = _
    rw [hc, List.dropWhile_cons, hblank]
    rfl
  show (lexAll (.keyword .if) (.keyword .if)
    ⟨_, (' ' :: exprStr standardScExprStr e).dropWhile isBlank⟩).map (Token.keyword .if :: ·) = _
  rw [hrest, hlex _ _ rfl]
  rfl

/-- **The text of a condition has the value of the condition**, for all that the parser can
make of a line. -/
theorem evalString_exprStr {modules : Sym} (hmodules : modules ≠ symM) (v : Values Sym)
    {tokens rest : List Token} {e : Expr Sym} (h : exprOf modules true tokens = some (e, rest))
    (hprint : e.Printable) :
    evalString modules v (exprStr standardScExprStr e) = some (exprValue v e) := by
  rw [evalString, tokenize_exprStr hprint]
  dsimp only
  rw [exprOf_exprTokens]
  dsimp only
  rw [exprValue_rewriteM_regroup, exprValue_rewriteM_of_exprOf v hmodules h]

/-- The line `m && FOO = "a\"b"` is read with `MODULES`, printed, and evaluated. -/
theorem evalString_quoted :
    let modules : Sym := ⟨"MODULES".toList, false⟩
    let quoted : Expr Sym := .rel .equal ⟨"FOO".toList, false⟩ ⟨"a\"b".toList, true⟩
    let v : Values Sym := ⟨fun s => if s = symM then 1 else 2, fun _ => "a\"b".toList,
      fun _ => .unknown⟩
    evalString modules v (exprStr standardScExprStr
      (.bin .and (.bin .and (.item symM) (.item modules)) quoted)) = some 1 := by
  intro modules quoted v
  have hread : exprOf modules true (exprTokens (.bin .and (.item symM) quoted)) =
      some (.bin .and (.bin .and (.item symM) (.item modules)) quoted, []) :=
    exprOf_exprTokens _
  rw [evalString_exprStr (by decide) v hread (by decide)]
  decide

/-! ## The text is canonical -/

theorem parenthesize_of_not {I α : Type*} {open_ close : α} {e : Expr I} {type_ : Op}
    (h : e.isBin type_ = false) (text : List α) : parenthesize open_ close e type_ text = text := by
  rw [parenthesize, h]
  rfl

/-- What is no item is negated in parentheses. -/
theorem exprStr_not {I : Type*} (f : I → List Char) {a : Expr I} (h : ∀ i, a ≠ .item i) :
    exprStr f (.not a) = '!' :: '(' :: (exprStr f a ++ [')']) := by
  cases a with
  | item i => exact absurd rfl (h i)
  | _ => rfl

theorem exprStr_graft {I : Type*} (f : I → List Char) (op : Op) (a b : Expr I) :
    exprStr f (graft op a b) = parenthesize '(' ')' a op.other (exprStr f a) ++
      (' ' :: op.text ++ ' ' :: parenthesize '(' ')' b op.other (exprStr f b)) := by
  induction a with
  | item i => rfl
  | not a => rfl
  | rel r a₁ a₂ => rfl
  | bin op' a₁ a₂ _ ih =>
    rw [graft]
    split
    next h =>
      subst h
      have hother : (op' == op'.other) = false := by
        cases op'
        · rfl
        · rfl
      have ha : (Expr.bin op' a₁ a₂).isBin op'.other = false := hother
      have hb : (graft op' a₂ b).isBin op'.other = false :=
        (isBin_graft _ _ _ _).trans hother
      rw [exprStr, ih, parenthesize_of_not hb, parenthesize_of_not ha, exprStr]
      simp
    next => rfl

/-- The text of an expression is that of the regrouped one. -/
theorem exprStr_regroup {I : Type*} (f : I → List Char) (e : Expr I) :
    exprStr f (regroup e) = exprStr f e := by
  induction e with
  | item i => rfl
  | rel r a b => rfl
  | not a ih =>
    have hnot : (∀ i, a ≠ .item i) → (∀ i, regroup a ≠ .item i) →
        exprStr f (.not (regroup a)) = exprStr f (.not a) := by
      intro ha hr
      rw [exprStr_not f ha, exprStr_not f hr, ih]
    cases a with
    | item i => rfl
    | rel r a b => rfl
    | not a => exact hnot (fun i h => by cases h) fun i h => by cases h
    | bin op a b =>
      refine hnot (fun i h => by cases h) fun i h => ?_
      have hbin := isBin_regroup op (.bin op a b)
      rw [h] at hbin
      simp [Expr.isBin] at hbin
  | bin op a b iha ihb =>
    rw [regroup, exprStr_graft, iha, ihb, exprStr]
    simp only [parenthesize, isBin_regroup]

theorem rewriteM_false (modules : Sym) (e : Expr Sym) : rewriteM modules false e = e := by
  induction e with
  | item s => rfl
  | rel r a b => rfl
  | not a ih => rw [rewriteM, ih]
  | bin op a b iha ihb => rw [rewriteM, iha, ihb]

/-- **Printing and reading a value** (`default`, without the rewriting of `m`). The reader makes
`regroup e` of the text: each chain of `&&` and each chain of `||` has the same operands in the
same order, grouped to the right. This has the same value, and its text is the same, so a
second round of printing and reading changes nothing any more. -/
theorem exprOf_exprStr (modules : Sym) {e : Expr Sym} (h : e.Printable) :
    (∃ tokens, tokenize ("if ".toList ++ exprStr standardScExprStr e) =
        some (.keyword .if :: tokens) ∧
      exprOf modules false tokens = some (regroup e, [])) ∧
      RightGrouped (regroup e) ∧
      (∀ op, splitExpr op (regroup e) = (splitExpr op e).map regroup) ∧
      exprStr standardScExprStr (regroup e) = exprStr standardScExprStr e ∧
      ∀ v, exprValue v (regroup e) = exprValue v e := by
  refine ⟨⟨exprTokens e, tokenize_exprStr h, ?_⟩, regroup_rightGrouped e,
    fun op => splitExpr_regroup op e, exprStr_regroup _ e, fun v => exprValue_regroup v e⟩
  rw [exprOf_exprTokens, rewriteM_false]

/-- A conjunction that is grouped to the left is printed, and read grouped to the right. -/
theorem exprOf_leftGrouped :
    let foo : Sym := ⟨"FOO".toList, false⟩
    let e : Expr Sym := .bin .and (.bin .and (.item foo) (.not (.item foo))) (.item symM)
    (∃ tokens, tokenize ("if ".toList ++ exprStr standardScExprStr e) =
        some (.keyword .if :: tokens) ∧
      exprOf foo false tokens =
        some (.bin .and (.item foo) (.bin .and (.not (.item foo)) (.item symM)), [])) ∧
      ∀ v, exprValue v (regroup e) = exprValue v e := by
  intro foo e
  obtain ⟨hread, -, -, -, hvalue⟩ := exprOf_exprStr foo (show e.Printable by decide)
  exact ⟨hread, hvalue⟩

end Jhalfs.Menu
