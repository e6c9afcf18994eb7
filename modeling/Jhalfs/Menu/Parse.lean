import Jhalfs.Menu.Tokens

/-!
# The parser of expressions

`_parse_expr`, `_parse_and_expr` and `_parse_factor` (src/menu/kconfiglib.py) go down through
the tokens of a line. Each takes one token at least, and this is in the type of its result
(`Parsed`), so that the recursion ends. In a conditional expression a plain `m` is read as
`m && MODULES` (`transform_m`).

- `parseExpr`, `parseAndExpr`, `parseFactor`: the functions of the source; `exprOf`, `andOf` and
  `factorOf` leave the proof out of the result.
- `Chains`: how a function for an operator uses the one below it. `chains_or` and `chains_and` are
  all that the later proofs know of the two functions for `||` and `&&`.
- `ChainOk`: some tokens are a chain of operands of an operator. Two chains with the operator
  between them form one (`ChainOk.append`), and the operands are grouped to the right then.
- `exprTokens`: the tokens of an expression that is printed, and `TokensOk`: they are a chain of
  each operator, with parentheses around what is none.
- `rewriteM`: what the parser makes of `m`.

**Main results**: `exprOf_exprTokens`, the tokens of an expression are parsed to the expression,
regrouped and with `m` rewritten, by induction over the expression. And
`exprValue_rewriteM_of_exprOf`: what is parsed as a condition does not change its value when `m`
is rewritten a second time.
-/

namespace Jhalfs.Menu

/-- The constant symbol `m`. -/
def symM : Sym := ⟨['m'], true⟩

/-- An expression and the tokens that are left. -/
abbrev Parsed (tokens : List Token) :=
  Option (Expr Sym × { rest : List Token // rest.length < tokens.length })

/-- What is left of a part is left of the whole. -/
def Parsed.widen {tokens more : List Token} (h : tokens.length ≤ more.length)
    (wrap : Expr Sym → Expr Sym) (p : Parsed tokens) : Parsed more :=
  p.map fun r => (wrap r.1, ⟨r.2.1, Nat.lt_of_lt_of_le r.2.2 h⟩)

variable (modules : Sym) (transformM : Bool)

/-- A plain symbol. -/
def plainSym (s : Sym) : Expr Sym :=
  if transformM && s == symM then .bin .and (.item symM) (.item modules) else .item s

mutual

/-- `expr: and_expr ['||' expr]` -/
def parseExpr (tokens : List Token) : Parsed tokens :=
  match parseAndExpr tokens with
  | none => none
  | some (andExpr, ⟨.op .or :: rest, h⟩) =>
    (parseExpr rest).widen (Nat.le_of_lt (Nat.lt_of_succ_lt h)) (.bin .or andExpr)
  | some (andExpr, rest) => some (andExpr, rest)
termination_by (tokens.length, 2)
decreasing_by
  · exact Prod.Lex.right _ (by decide)
  · exact Prod.Lex.left _ _ (Nat.lt_of_succ_lt h)

/-- `and_expr: factor ['&&' and_expr]` -/
def parseAndExpr (tokens : List Token) : Parsed tokens :=
  match parseFactor tokens with
  | none => none
  | some (factor, ⟨.op .and :: rest, h⟩) =>
    (parseAndExpr rest).widen (Nat.le_of_lt (Nat.lt_of_succ_lt h)) (.bin .and factor)
  | some (factor, rest) => some (factor, rest)
termination_by (tokens.length, 1)
decreasing_by
  · exact Prod.Lex.right _ (by decide)
  · exact Prod.Lex.left _ _ (Nat.lt_of_succ_lt h)

/-- `factor: <symbol> ['='/'!='/'<'/... <symbol>]`, `'!' factor` or `'(' expr ')'` -/
def parseFactor (tokens : List Token) : Parsed tokens :=
  match tokens with
  | .sym s :: .rel r :: rest =>
    match rest with
    | .sym t :: rest => some (.rel r s t, ⟨rest, by simp only [List.length_cons]; omega⟩)
    | _ => none
  | .sym s :: rest => some (plainSym modules transformM s, ⟨rest, Nat.lt_succ_self _⟩)
  | .not :: rest => (parseFactor rest).widen (Nat.le_succ _) .not
  | .openParen :: rest =>
    match parseExpr rest with
    | some (expr, ⟨.closeParen :: rest', h⟩) =>
      some (expr, ⟨rest', by simp only [List.length_cons] at h ⊢; omega⟩)
    | _ => none
  | _ => none
termination_by (tokens.length, 0)
decreasing_by
  · exact Prod.Lex.left _ _ (Nat.lt_succ_self _)
  · exact Prod.Lex.left _ _ (Nat.lt_succ_self _)

end

/-! ## Without the lengths -/

def Parsed.erase {tokens : List Token} (p : Parsed tokens) : Option (Expr Sym × List Token) :=
  p.map fun r => (r.1, r.2.1)

theorem Parsed.erase_widen {tokens more : List Token} (h : tokens.length ≤ more.length)
    (wrap : Expr Sym → Expr Sym) (p : Parsed tokens) :
    (p.widen h wrap).erase = p.erase.map fun r => (wrap r.1, r.2) := by
  cases p with
  | none => rfl
  | some r => rfl

theorem Parsed.erase_eq_some {tokens rest : List Token} {p : Parsed tokens} {e : Expr Sym}
    (h : p.erase = some (e, rest)) : ∃ hlt, p = some (e, ⟨rest, hlt⟩) := by
  obtain ⟨⟨e', rest', hlt⟩, hp, heq⟩ := Option.map_eq_some_iff.mp h
  cases heq
  exact ⟨hlt, hp⟩

def exprOf (tokens : List Token) : Option (Expr Sym × List Token) :=
  (parseExpr modules transformM tokens).erase

def andOf (tokens : List Token) : Option (Expr Sym × List Token) :=
  (parseAndExpr modules transformM tokens).erase

def factorOf (tokens : List Token) : Option (Expr Sym × List Token) :=
  (parseFactor modules transformM tokens).erase

/-- `parse` reads a chain of what `lower` reads: behind an operand with the operator it calls
itself, and else the operand is the result. -/
structure Chains (op : Op) (lower parse : List Token → Option (Expr Sym × List Token)) : Prop where
  more : ∀ {tokens rest : List Token} {e : Expr Sym}, lower tokens = some (e, .op op :: rest) →
    parse tokens = (parse rest).map fun r => (.bin op e r.1, r.2)
  last : ∀ {tokens rest : List Token} {e : Expr Sym}, lower tokens = some (e, rest) →
    rest.head? ≠ some (.op op) → parse tokens = some (e, rest)
  none : ∀ {tokens : List Token}, lower tokens = none → parse tokens = none

theorem Parsed.erase_eq_none {tokens : List Token} {p : Parsed tokens} (h : p.erase = none) :
    p = none := Option.map_eq_none_iff.mp h

theorem chains_or : Chains .or (andOf modules transformM) (exprOf modules transformM) := by
  constructor
  · intro tokens rest e h
    obtain ⟨hlt, hp⟩ := Parsed.erase_eq_some h
    rw [exprOf, parseExpr, hp]
    exact Parsed.erase_widen _ _ _
  · intro tokens rest e h hhead
    obtain ⟨hlt, hp⟩ := Parsed.erase_eq_some h
    rw [exprOf, parseExpr, hp]
    split
    next heq => cases heq
    next heq =>
      cases heq
      exact absurd rfl hhead
    next heq =>
      cases heq
      rfl
  · intro tokens h
    rw [exprOf, parseExpr, Parsed.erase_eq_none h]
    rfl

theorem chains_and : Chains .and (factorOf modules transformM) (andOf modules transformM) := by
  constructor
  · intro tokens rest e h
    obtain ⟨hlt, hp⟩ := Parsed.erase_eq_some h
    rw [andOf, parseAndExpr, hp]
    exact Parsed.erase_widen _ _ _
  · intro tokens rest e h hhead
    obtain ⟨hlt, hp⟩ := Parsed.erase_eq_some h
    rw [andOf, parseAndExpr, hp]
    split
    next heq => cases heq
    next heq =>
      cases heq
      exact absurd rfl hhead
    next heq =>
      cases heq
      rfl
  · intro tokens h
    rw [andOf, parseAndExpr, Parsed.erase_eq_none h]
    rfl

/-- The next token is no relation. -/
def NoRel (rest : List Token) : Prop := ∀ r, rest.head? ≠ some (.rel r)

theorem factorOf_sym (s : Sym) {rest : List Token} (h : NoRel rest) :
    factorOf modules transformM (.sym s :: rest) =
      some (plainSym modules transformM s, rest) := by
  rw [factorOf, parseFactor]
  · rfl
  · rintro r rest' rfl
    exact h r rfl

theorem factorOf_rel (r : Rel) (s t : Sym) (rest : List Token) :
    factorOf modules transformM (.sym s :: .rel r :: .sym t :: rest) = some (.rel r s t, rest) := by
  rw [factorOf, parseFactor]
  rfl

theorem factorOf_not (rest : List Token) :
    factorOf modules transformM (.not :: rest) =
      (factorOf modules transformM rest).map fun r => (.not r.1, r.2) := by
  rw [factorOf, parseFactor]
  exact Parsed.erase_widen _ _ _

theorem factorOf_paren {tokens rest : List Token} {e : Expr Sym}
    (h : exprOf modules transformM tokens = some (e, .closeParen :: rest)) :
    factorOf modules transformM (.openParen :: tokens) = some (e, rest) := by
  obtain ⟨hlt, hp⟩ := Parsed.erase_eq_some h
  rw [factorOf, parseFactor, hp]
  rfl

/-! ## Chains of operands -/

/-- What the parser makes of an expression: `m` is rewritten where it is a plain symbol. -/
def rewriteM : Expr Sym → Expr Sym
  | .item s => plainSym modules transformM s
  | .bin op a b => .bin op (rewriteM a) (rewriteM b)
  | .not a => .not (rewriteM a)
  | .rel r a b => .rel r a b

/-- The tokens of a chain of operands of `op`: an operand may follow, or the chain ends. -/
structure ChainOk (parse : List Token → Option (Expr Sym × List Token)) (op : Op)
    (ends : List Token → Prop) (tokens : List Token) (e : Expr Sym) : Prop where
  more : ∀ {rest rest' : List Token} {f : Expr Sym},
    parse rest = some (rewriteM modules transformM f, rest') →
      parse (tokens ++ .op op :: rest) = some (rewriteM modules transformM (graft op e f), rest')
  last : ∀ {rest : List Token}, ends rest → rest.head? ≠ some (.op op) →
    parse (tokens ++ rest) = some (rewriteM modules transformM e, rest)

/-- What a factor is. -/
def FactorOk (tokens : List Token) (e : Expr Sym) : Prop :=
  ∀ {rest : List Token}, NoRel rest →
    factorOf modules transformM (tokens ++ rest) = some (rewriteM modules transformM e, rest)

variable {modules transformM}

theorem ChainOk.append {parse : List Token → Option (Expr Sym × List Token)} {op : Op}
    {ends : List Token → Prop} {s t : List Token} {e f : Expr Sym}
    (hs : ChainOk modules transformM parse op ends s e)
    (ht : ChainOk modules transformM parse op ends t f) :
    ChainOk modules transformM parse op ends (s ++ .op op :: t) (graft op e f) := by
  constructor
  · intro rest rest' g h
    rw [List.append_assoc, List.cons_append, graft_assoc]
    exact hs.more (ht.more h)
  · intro rest hends hhead
    rw [List.append_assoc, List.cons_append]
    exact hs.more (ht.last hends hhead)

/-- One operand is a chain. -/
theorem ChainOk.of_lower {lower parse : List Token → Option (Expr Sym × List Token)} {op : Op}
    {ends : List Token → Prop} (hchains : Chains op lower parse) {tokens : List Token}
    {e : Expr Sym} (he : e.isBin op = false)
    (hends : ∀ rest, rest.head? = some (.op op) ∨ ends rest ∧ rest.head? ≠ some (.op op) →
      lower (tokens ++ rest) = some (rewriteM modules transformM e, rest)) :
    ChainOk modules transformM parse op ends tokens e := by
  constructor
  · intro rest rest' f h
    have hlower := hends (.op op :: rest) (Or.inl rfl)
    rw [hchains.more hlower, h, graft_of_not_isBin he]
    rfl
  · intro rest hrest hhead
    exact hchains.last (hends rest (Or.inr ⟨hrest, hhead⟩)) hhead

/-- What may follow a chain of `&&`: no relation. -/
abbrev AndChain (modules : Sym) (transformM : Bool) (tokens : List Token) (e : Expr Sym) : Prop :=
  ChainOk modules transformM (andOf modules transformM) .and NoRel tokens e

/-- What may follow a chain of `||`: no relation and no `&&`. -/
abbrev OrChain (modules : Sym) (transformM : Bool) (tokens : List Token) (e : Expr Sym) : Prop :=
  ChainOk modules transformM (exprOf modules transformM) .or
    (fun rest => NoRel rest ∧ rest.head? ≠ some (.op .and)) tokens e

theorem noRel_of_head {rest : List Token} {op : Op} (h : rest.head? = some (.op op)) :
    NoRel rest := by
  intro r hr
  rw [h] at hr
  cases hr

theorem FactorOk.and {tokens : List Token} {e : Expr Sym}
    (h : FactorOk modules transformM tokens e) (he : e.isBin .and = false) :
    AndChain modules transformM tokens e := by
  refine .of_lower (chains_and modules transformM) he fun rest hrest => h ?_
  rcases hrest with hop | ⟨hends, -⟩
  · exact noRel_of_head hop
  · exact hends

theorem ChainOk.or {tokens : List Token} {e : Expr Sym}
    (h : AndChain modules transformM tokens e) (he : e.isBin .or = false) :
    OrChain modules transformM tokens e := by
  refine .of_lower (chains_or modules transformM) he fun rest hrest => ?_
  rcases hrest with hop | ⟨⟨hrel, hand⟩, -⟩
  · refine h.last (noRel_of_head hop) ?_
    rw [hop]
    intro heq
    cases heq
  · exact h.last hrel hand

theorem FactorOk.or {tokens : List Token} {e : Expr Sym}
    (h : FactorOk modules transformM tokens e) (he : e.isBin .or = false) :
    OrChain modules transformM tokens e := by
  refine .of_lower (chains_or modules transformM) he fun rest hrest => ?_
  rcases hrest with hop | ⟨⟨hrel, hand⟩, -⟩
  · refine (chains_and modules transformM).last (h (noRel_of_head hop)) ?_
    rw [hop]
    intro heq
    cases heq
  · exact (chains_and modules transformM).last (h hrel) hand

/-- An expression in parentheses is a factor. -/
theorem ChainOk.paren {tokens : List Token} {e : Expr Sym}
    (h : OrChain modules transformM tokens e) :
    FactorOk modules transformM (.openParen :: (tokens ++ [.closeParen])) e := by
  intro rest _
  rw [List.cons_append, List.append_assoc]
  refine factorOf_paren modules transformM (h.last ⟨fun r hr => ?_, fun hr => ?_⟩ fun hr => ?_)
  all_goals cases hr

/-! ## The tokens of an expression -/

/-- The other operator. -/
def Op.other : Op → Op
  | and => or
  | or => and

/-- `_parenthesize`, for any kind of text. -/
def parenthesize {I α : Type*} (open_ close : α) (e : Expr I) (type_ : Op) (text : List α) :
    List α :=
  if e.isBin type_ then open_ :: (text ++ [close]) else text

/-- What `expr_str` prints, as tokens. -/
def exprTokens : Expr Sym → List Token
  | .item s => [.sym s]
  | .bin op a b =>
    parenthesize .openParen .closeParen a op.other (exprTokens a) ++
      .op op :: parenthesize .openParen .closeParen b op.other (exprTokens b)
  | .not (.item s) => [.not, .sym s]
  | .not a => .not :: .openParen :: (exprTokens a ++ [.closeParen])
  | .rel r a b => [.sym a, .rel r, .sym b]

/-- An expression is a chain of each operator; what is not one is put in parentheses. -/
structure TokensOk (modules : Sym) (transformM : Bool) (e : Expr Sym) : Prop where
  and : AndChain modules transformM
    (parenthesize .openParen .closeParen e .or (exprTokens e)) (regroup e)
  or : OrChain modules transformM
    (parenthesize .openParen .closeParen e .and (exprTokens e)) (regroup e)
  whole : OrChain modules transformM (exprTokens e) (regroup e)

theorem tokensOk_of_factor {e : Expr Sym} (he : ∀ op, e.isBin op = false)
    (h : FactorOk modules transformM (exprTokens e) (regroup e)) :
    TokensOk modules transformM e := by
  have hand := FactorOk.and h ((isBin_regroup .and e).trans (he .and))
  have hor := FactorOk.or h ((isBin_regroup .or e).trans (he .or))
  refine ⟨?_, ?_, hor⟩
  · rw [parenthesize, if_neg (by simp [he])]
    exact hand
  · rw [parenthesize, if_neg (by simp [he])]
    exact hor

theorem factorOk_not {tokens : List Token} {e : Expr Sym}
    (h : FactorOk modules transformM tokens e) :
    FactorOk modules transformM (.not :: tokens) (.not e) := by
  intro rest hrest
  rw [List.cons_append, factorOf_not, h hrest]
  rfl

theorem tokensOk (e : Expr Sym) : TokensOk modules transformM e := by
  induction e with
  | item s =>
    refine tokensOk_of_factor (fun _ => rfl) fun hrest => ?_
    exact factorOf_sym modules transformM s hrest
  | rel r a b =>
    refine tokensOk_of_factor (fun _ => rfl) fun _ => ?_
    exact factorOf_rel modules transformM r a b _
  | not a ih =>
    refine tokensOk_of_factor (fun _ => rfl) ?_
    cases a with
    | item s => exact factorOk_not (factorOf_sym modules transformM s)
    | bin op a b => exact factorOk_not ih.whole.paren
    | not a => exact factorOk_not ih.whole.paren
    | rel r a b => exact factorOk_not ih.whole.paren
  | bin op a b iha ihb =>
    cases op with
    | and =>
      have hand : AndChain modules transformM (exprTokens (.bin .and a b))
          (regroup (.bin .and a b)) := iha.and.append ihb.and
      have hor := hand.or (isBin_regroup .or (.bin .and a b))
      exact ⟨hand, FactorOk.or hor.paren (isBin_regroup .or (.bin .and a b)), hor⟩
    | or =>
      have hor : OrChain modules transformM (exprTokens (.bin .or a b))
          (regroup (.bin .or a b)) := iha.or.append ihb.or
      exact ⟨FactorOk.and hor.paren (isBin_regroup .and (.bin .or a b)), hor, hor⟩

/-- **The tokens of an expression** are parsed to it, to their end: the operands come out grouped to
the right, and `m` is rewritten where it is a plain symbol. -/
theorem exprOf_exprTokens (e : Expr Sym) :
    exprOf modules transformM (exprTokens e) =
      some (rewriteM modules transformM (regroup e), []) := by
  have h : exprOf modules transformM (exprTokens e ++ []) =
      some (rewriteM modules transformM (regroup e), []) :=
    (tokensOk e).whole.last ⟨fun r hr => ?_, fun hr => ?_⟩ fun hr => ?_
  · rwa [List.append_nil] at h
  all_goals cases hr

/-! ## What the parser makes -/

/-- The kinds of factors. -/
theorem factorOf_cases {tokens rest : List Token} {e : Expr Sym}
    (h : factorOf modules transformM tokens = some (e, rest)) :
    (∃ s, e = plainSym modules transformM s) ∨ (∃ r s t, e = .rel r s t) ∨
      (∃ tokens' a, tokens = .not :: tokens' ∧ e = .not a ∧
        factorOf modules transformM tokens' = some (a, rest)) ∨
      ∃ tokens', tokens = .openParen :: tokens' ∧
        exprOf modules transformM tokens' = some (e, .closeParen :: rest) := by
  rw [factorOf, parseFactor.eq_def] at h
  split at h
  · split at h
    · cases h
      exact Or.inr (Or.inl ⟨_, _, _, rfl⟩)
    · cases h
  · cases h
    exact Or.inl ⟨_, rfl⟩
  next tokens' =>
    rw [Parsed.erase_widen] at h
    obtain ⟨r, hr, heq⟩ := Option.map_eq_some_iff.mp h
    cases heq
    exact Or.inr (Or.inr (Or.inl ⟨tokens', r.1, rfl, rfl, hr⟩))
  next tokens' =>
    split at h
    next heq =>
      cases h
      refine Or.inr (Or.inr (Or.inr ⟨tokens', rfl, ?_⟩))
      rw [exprOf, heq]
      rfl
    · cases h
  · cases h

theorem Chains.cases {op : Op} {lower parse : List Token → Option (Expr Sym × List Token)}
    (hchains : Chains op lower parse) {tokens rest : List Token} {e : Expr Sym}
    (h : parse tokens = some (e, rest)) : lower tokens = some (e, rest) ∨
      ∃ a b rest', lower tokens = some (a, .op op :: rest') ∧ parse rest' = some (b, rest) ∧
        e = .bin op a b := by
  cases hlower : lower tokens with
  | none =>
    rw [hchains.none hlower] at h
    cases h
  | some r =>
    by_cases hhead : r.2.head? = some (.op op)
    · have hr : r = (r.1, .op op :: r.2.tail) := Prod.ext rfl (List.eq_cons_of_mem_head? hhead)
      rw [hr] at hlower
      rw [hchains.more hlower] at h
      obtain ⟨q, hq, heq⟩ := Option.map_eq_some_iff.mp h
      cases heq
      exact Or.inr ⟨r.1, q.1, _, by rw [← hr], hq, rfl⟩
    · rw [hchains.last hlower hhead] at h
      exact Or.inl h

/-- What holds of the plain symbols and the relations and is kept by the operators holds of
what is parsed. -/
theorem of_exprOf {P : Expr Sym → Prop} (hsym : ∀ s, P (plainSym modules transformM s))
    (hrel : ∀ r s t, P (.rel r s t)) (hnot : ∀ a, P a → P (.not a))
    (hbin : ∀ op a b, P a → P b → P (.bin op a b)) {tokens rest : List Token} {e : Expr Sym}
    (h : exprOf modules transformM tokens = some (e, rest)) : P e := by
  have hall : ∀ n, ∀ tokens : List Token, tokens.length < n → ∀ e rest,
      (factorOf modules transformM tokens = some (e, rest) → P e) ∧
        (andOf modules transformM tokens = some (e, rest) → P e) ∧
        (exprOf modules transformM tokens = some (e, rest) → P e) := by
    intro n
    induction n with
    | zero => exact fun tokens hlen => absurd hlen (Nat.not_lt_zero _)
    | succ n ih =>
      intro tokens hlen
      have hfactor : ∀ e rest, factorOf modules transformM tokens = some (e, rest) → P e := by
        intro e rest h
        rcases factorOf_cases h with ⟨s, rfl⟩ | ⟨r, s, t, rfl⟩ | ⟨tokens', a, rfl, rfl, h'⟩ |
          ⟨tokens', rfl, h'⟩
        · exact hsym s
        · exact hrel r s t
        · exact hnot a ((ih tokens' (by simpa using hlen) a rest).1 h')
        · exact (ih tokens' (by simpa using hlen) e _).2.2 h'
      have hand : ∀ e rest, andOf modules transformM tokens = some (e, rest) → P e := by
        intro e rest h
        rcases (chains_and modules transformM).cases h with h' | ⟨a, b, rest', h₁, h₂, rfl⟩
        · exact hfactor e rest h'
        · obtain ⟨hlt, -⟩ := Parsed.erase_eq_some h₁
          rw [List.length_cons] at hlt
          exact hbin .and a b (hfactor a _ h₁) ((ih rest' (by omega) b rest).2.1 h₂)
      refine fun e rest => ⟨hfactor e rest, hand e rest, fun h => ?_⟩
      rcases (chains_or modules transformM).cases h with h' | ⟨a, b, rest', h₁, h₂, rfl⟩
      · exact hand e rest h'
      · obtain ⟨hlt, -⟩ := Parsed.erase_eq_some h₁
        rw [List.length_cons] at hlt
        exact hbin .or a b (hand a _ h₁) ((ih rest' (by omega) b rest).2.2 h₂)
  exact (hall _ tokens (Nat.lt_succ_self _) e rest).2.2 h

/-! ## The value of what is parsed -/

theorem exprValue_rewriteM_graft (v : Values Sym) (op : Op) (a b : Expr Sym) :
    exprValue v (rewriteM modules transformM (graft op a b)) =
      op.apply (exprValue v (rewriteM modules transformM a))
        (exprValue v (rewriteM modules transformM b)) := by
  induction a with
  | item i => exact exprValue_bin v op _ _
  | not a => exact exprValue_bin v op _ _
  | rel r a₁ a₂ => exact exprValue_bin v op _ _
  | bin op' a₁ a₂ _ ih =>
    rw [graft]
    split
    next h =>
      rw [rewriteM, exprValue_bin, ih, rewriteM, exprValue_bin, h, Op.apply_assoc]
    next => exact exprValue_bin v op _ _

/-- The value does not depend on the grouping, also when `m` is rewritten. -/
theorem exprValue_rewriteM_regroup (v : Values Sym) (e : Expr Sym) :
    exprValue v (rewriteM modules transformM (regroup e)) =
      exprValue v (rewriteM modules transformM e) := by
  induction e with
  | item i => rfl
  | rel r a b => rfl
  | not a ih => simp only [regroup, rewriteM, exprValue, ih]
  | bin op a b iha ihb =>
    rw [regroup, exprValue_rewriteM_graft, iha, ihb, rewriteM, exprValue_bin]

/-- **A condition is not changed** when `m` is rewritten a second time: `m && MODULES` and
`(m && MODULES) && MODULES` have the same value. -/
theorem exprValue_rewriteM_of_exprOf (v : Values Sym) {tokens rest : List Token} {e : Expr Sym}
    (hmodules : modules ≠ symM) (h : exprOf modules transformM tokens = some (e, rest)) :
    exprValue v (rewriteM modules transformM e) = exprValue v e := by
  refine of_exprOf (P := fun e => exprValue v (rewriteM modules transformM e) = exprValue v e)
    (fun s => ?_) (fun _ _ _ => rfl) (fun a ha => ?_) (fun op a b ha hb => ?_) h
  · rw [plainSym]
    split
    next hs =>
      rw [rewriteM, rewriteM, rewriteM, plainSym, plainSym]
      rw [Bool.and_eq_true] at hs
      have hm : (transformM && symM == symM) = true := by rw [hs.1]; decide
      rw [if_pos hm, if_neg (by simp [hmodules])]
      rw [exprValue_bin, exprValue_bin]
      show min (min _ _) _ = min _ _
      rw [min_assoc]
      exact congrArg _ (min_self _)
    next hs => rw [rewriteM, plainSym, if_neg hs]
  · simp only [rewriteM, exprValue, ha]
  · rw [rewriteM, exprValue_bin, exprValue_bin, ha, hb]

end Jhalfs.Menu
