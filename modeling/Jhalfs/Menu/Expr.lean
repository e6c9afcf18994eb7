import Mathlib.Algebra.GroupWithZero.Nat
import Mathlib.Data.Fin.Basic
import Mathlib.Order.Fin.Basic
import Mathlib.Data.List.Basic

/-!
# Tristate expressions

The menus of the tool are written in Kconfig, and their dependencies are expressions over
symbols with the values `n`, `m` and `y` (src/menu/kconfiglib.py). The parser builds an
expression once, and it is evaluated and printed many times: for the visibility of a prompt,
for a default, for the values that may be assigned, and for the comments and help texts that
show a condition to the user. So there are two readings of one tree, its value and its text,
and this module has what they share.

- `Tri`, `SymType`, `Values`: a tristate value is 0, 1 or 2, and an item is worth a tristate
  value and a string value, with a type that says which of them counts in a comparison.
- `toInt`, `symToNum`, `strcmp`: how the source compares. Strings are compared as strings, and
  everything else as numbers where both sides are numbers.
- `Expr`: the tuples of the source. An item is a symbol or a choice.
- `exprValue`, `exprItems`, `splitExpr`: the functions of the source on them. `expr_value` cuts
  a conjunction short at `n` and a disjunction at `y`; `exprValue_bin` says that this changes
  nothing, so that the proofs may read `&&` as `min` and `||` as `max`.
- `regroup`: the same operands grouped to the right, which is what the parser makes of the
  text of an expression. The tuples of the source can be grouped in any way, since the parser
  joins the conditions of the menus around a symbol with `_make_and`, but a text is always read
  to the right.

**Main results**: `regroup_rightGrouped` and `splitExpr_regroup` say what grouping is (no
operator is the left operand of itself, and the operands are the same ones in the same order),
and `exprValue_regroup` that it does not change the value.
-/

namespace Jhalfs.Menu

/-! ## Values -/

/-- The values `n`, `m` and `y` are 0, 1 and 2. -/
abbrev Tri := Fin 3

/-- For the numerals of `Tri`. -/
instance neZero_three : NeZero 3 := ⟨by simp⟩

/-- `UNKNOWN` to `HEX`. -/
inductive SymType where
  | unknown
  | bool
  | tristate
  | string
  | int
  | hex
  deriving DecidableEq

/-- What an item is worth: its tristate value, its string value, and its type. -/
structure Values (I : Type*) where
  triValue : I → Tri
  strValue : I → List Char
  origType : I → SymType

/-! ## Numbers -/

/-- The value of a digit in any base up to 16. -/
def digitValue (c : Char) : Option Nat :=
  if c.isDigit then some (c.toNat - '0'.toNat)
  else if 'a' ≤ c ∧ c ≤ 'f' then some (c.toNat - 'a'.toNat + 10)
  else if 'A' ≤ c ∧ c ≤ 'F' then some (c.toNat - 'A'.toNat + 10)
  else none

/-- Digits with at most one `_` between two of them. `needed` says that a digit must come. -/
def digits (base : Nat) : Bool → Nat → List Char → Option Nat
  | needed, acc, [] => if needed then none else some acc
  | needed, acc, '_' :: s => if needed then none else digits base true acc s
  | _, acc, c :: s =>
    match digitValue c with
    | some d => if d < base then digits base false (acc * base + d) s else none
    | none => none

/-- The digits behind a prefix such as `0x`, which one `_` may follow. -/
def prefixed (base : Nat) (s : List Char) : Option Nat :=
  match s with
  | '_' :: s => digits base true 0 s
  | s => digits base true 0 s

/-- `int(s, base)` without the sign. With base 0 the text tells its base, and a decimal number
has no leading zeros. -/
def unsigned (base : Nat) (s : List Char) : Option Nat :=
  match base, s with
  | 16, '0' :: 'x' :: s | 16, '0' :: 'X' :: s => prefixed 16 s
  | 0, '0' :: 'x' :: s | 0, '0' :: 'X' :: s => prefixed 16 s
  | 0, '0' :: 'o' :: s | 0, '0' :: 'O' :: s => prefixed 8 s
  | 0, '0' :: 'b' :: s | 0, '0' :: 'B' :: s => prefixed 2 s
  | 0, '0' :: s => (digits 10 true 0 ('0' :: s)).filter (· = 0)
  | 0, s => digits 10 true 0 s
  | base, s => digits base true 0 s

/-- `str.isspace`. -/
def isSpace (c : Char) : Bool :=
  (9 ≤ c.toNat && c.toNat ≤ 13) || (28 ≤ c.toNat && c.toNat ≤ 32) ||
    [0x85, 0xA0, 0x1680, 0x2028, 0x2029, 0x202F, 0x205F, 0x3000].contains c.toNat ||
    (0x2000 ≤ c.toNat && c.toNat ≤ 0x200A)

/-- `int(s, base)`, for ASCII digits. -/
def toInt (base : Nat) (s : List Char) : Option Int :=
  match ((s.dropWhile isSpace).reverse.dropWhile isSpace).reverse with
  | '-' :: s => (unsigned base s).map fun n => -(n : Int)
  | '+' :: s => (unsigned base s).map fun n => (n : Int)
  | s => (unsigned base s).map fun n => (n : Int)

/-- `_TYPE_TO_BASE`. -/
def SymType.base : SymType → Nat
  | hex => 16
  | int => 10
  | _ => 0

/-- `_sym_to_num`; `none` is the `ValueError`. -/
def symToNum {I : Type*} (v : Values I) (i : I) : Option Int :=
  if v.origType i = .bool ∨ v.origType i = .tristate then some (v.triValue i).val
  else toInt (v.origType i).base (v.strValue i)

/-- `_strcmp`. -/
def strcmp (s t : List Char) : Int :=
  (if t < s then 1 else 0) - (if s < t then 1 else 0)

/-! ## Expressions -/

inductive Op where
  | and
  | or
  deriving DecidableEq

inductive Rel where
  | equal
  | unequal
  | less
  | lessEqual
  | greater
  | greaterEqual
  deriving DecidableEq

/-- `(AND, a, b)`, `(OR, a, b)`, `(NOT, a)`, a relation between two symbols, or an item. -/
inductive Expr (I : Type*) where
  | item (i : I)
  | bin (op : Op) (a b : Expr I)
  | not (a : Expr I)
  | rel (r : Rel) (a b : I)
  deriving DecidableEq

variable {I : Type*}

/-- `2*(comp == 0)` and the others. -/
def Rel.value (r : Rel) (comp : Int) : Tri :=
  match r with
  | equal => if comp = 0 then 2 else 0
  | unequal => if comp ≠ 0 then 2 else 0
  | less => if comp < 0 then 2 else 0
  | lessEqual => if comp ≤ 0 then 2 else 0
  | greater => if comp > 0 then 2 else 0
  | greaterEqual => if comp ≥ 0 then 2 else 0

/-- `comp`: strings as strings, the rest as numbers when both are. -/
def compare (v : Values I) (a b : I) : Int :=
  if v.origType a = .string ∧ v.origType b = .string then strcmp (v.strValue a) (v.strValue b)
  else
    match symToNum v a, symToNum v b with
    | some x, some y => x - y
    | _, _ => strcmp (v.strValue a) (v.strValue b)

/-- `expr_value`, with its short cuts. -/
def exprValue (v : Values I) : Expr I → Tri
  | .item i => v.triValue i
  | .bin .and a b =>
    let v1 := exprValue v a
    if v1 = 0 then 0 else min v1 (exprValue v b)
  | .bin .or a b =>
    let v1 := exprValue v a
    if v1 = 2 then 2 else max v1 (exprValue v b)
  | .not a => 2 - exprValue v a
  | .rel r a b => r.value (compare v a b)

/-- What an operator does to values. -/
def Op.apply : Op → Tri → Tri → Tri
  | and => min
  | or => max

/-- The short cuts do not change the value. -/
@[simp] theorem exprValue_bin (v : Values I) (op : Op) (a b : Expr I) :
    exprValue v (.bin op a b) = op.apply (exprValue v a) (exprValue v b) := by
  cases op with
  | and =>
    show (if exprValue v a = 0 then 0 else min (exprValue v a) (exprValue v b)) = _
    split
    next h => simp [Op.apply, h]
    next => rfl
  | or =>
    show (if exprValue v a = 2 then 2 else max (exprValue v a) (exprValue v b)) = _
    split
    next h => rw [h]; exact (max_eq_left (Fin.le_last (exprValue v b))).symm
    next => rfl

theorem Op.apply_assoc (op : Op) (a b c : Tri) :
    op.apply (op.apply a b) c = op.apply a (op.apply b c) := by
  cases op with
  | and => exact min_assoc a b c
  | or => exact max_assoc a b c

/-! ## The items of an expression -/

/-- `expr_items`, as the list of all occurrences. -/
def exprItems : Expr I → List I
  | .item i => [i]
  | .bin _ a b => exprItems a ++ exprItems b
  | .not a => exprItems a
  | .rel _ a b => [a, b]

/-! ## The operands -/

/-- `split_expr`: the operands of a chain of one operator, however it is grouped. -/
def splitExpr (op : Op) : Expr I → List (Expr I)
  | .bin op' a b => if op' = op then splitExpr op a ++ splitExpr op b else [.bin op' a b]
  | e => [e]

/-! ## Grouping to the right -/

/-- `b` comes behind the operands of `a`. -/
def graft (op : Op) : Expr I → Expr I → Expr I
  | .bin op' a₁ a₂, b =>
    if op' = op then .bin op a₁ (graft op a₂ b) else .bin op (.bin op' a₁ a₂) b
  | a, b => .bin op a b

/-- The operands of each operator grouped to the right: `(A && B) && C` is `A && (B && C)`. -/
def regroup : Expr I → Expr I
  | .bin op a b => graft op (regroup a) (regroup b)
  | .not a => .not (regroup a)
  | e => e

/-- The tuple of the operator. -/
def Expr.isBin (op : Op) : Expr I → Bool
  | .bin op' _ _ => op' == op
  | _ => false

theorem graft_of_not_isBin {op : Op} {e : Expr I} (h : e.isBin op = false) (f : Expr I) :
    graft op e f = .bin op e f := by
  cases e with
  | item i => rfl
  | not a => rfl
  | rel r a b => rfl
  | bin op' a b =>
    rw [graft, if_neg]
    simpa [Expr.isBin] using h

theorem isBin_graft (op op' : Op) (a b : Expr I) : (graft op' a b).isBin op = (op' == op) := by
  by_cases ha : a.isBin op' = true
  · cases a with
    | bin op'' a₁ a₂ =>
      rw [graft, if_pos (by simpa [Expr.isBin] using ha)]
      rfl
    | _ => cases ha
  · rw [graft_of_not_isBin (by simpa using ha)]
    rfl

@[simp] theorem isBin_regroup (op : Op) (e : Expr I) : (regroup e).isBin op = e.isBin op := by
  cases e with
  | bin op' a b => exact isBin_graft op op' _ _
  | _ => rfl

/-- No operator is the left operand of itself, anywhere in the expression. -/
def RightGrouped : Expr I → Prop
  | .bin op a b => a.isBin op = false ∧ RightGrouped a ∧ RightGrouped b
  | .not a => RightGrouped a
  | _ => True

theorem RightGrouped.graft {op : Op} {a b : Expr I} (ha : RightGrouped a) (hb : RightGrouped b) :
    RightGrouped (graft op a b) := by
  induction a with
  | item i => exact ⟨rfl, ha, hb⟩
  | not a => exact ⟨rfl, ha, hb⟩
  | rel r a₁ a₂ => exact ⟨rfl, ha, hb⟩
  | bin op' a₁ a₂ _ ih =>
    rw [Menu.graft]
    split
    next h => exact ⟨h ▸ ha.1, ha.2.1, ih ha.2.2⟩
    next h => exact ⟨by simpa [Expr.isBin] using h, ha, hb⟩

/-- **Grouping is to the right**: behind `regroup` no operator is the left operand of itself, at any
place of the expression. -/
theorem regroup_rightGrouped (e : Expr I) : RightGrouped (regroup e) := by
  induction e with
  | item i => trivial
  | rel r a b => trivial
  | not a ih => exact ih
  | bin op a b iha ihb => exact iha.graft ihb

theorem splitExpr_of_not_isBin {op : Op} {e : Expr I} (h : e.isBin op = false) :
    splitExpr op e = [e] := by
  cases e with
  | item i => rfl
  | not a => rfl
  | rel r a b => rfl
  | bin op' a b =>
    rw [splitExpr, if_neg]
    simpa [Expr.isBin] using h

theorem splitExpr_graft (op : Op) (a b : Expr I) :
    splitExpr op (graft op a b) = splitExpr op a ++ splitExpr op b := by
  have hone : ∀ a : Expr I, a.isBin op = false →
      splitExpr op (graft op a b) = splitExpr op a ++ splitExpr op b := by
    intro a h
    rw [graft_of_not_isBin h, splitExpr, if_pos rfl]
  induction a with
  | item i => exact hone _ rfl
  | not a => exact hone _ rfl
  | rel r a₁ a₂ => exact hone _ rfl
  | bin op' a₁ a₂ _ ih =>
    by_cases h : op' = op
    · subst h
      rw [graft, if_pos rfl, splitExpr, if_pos rfl, ih, splitExpr, if_pos rfl, List.append_assoc]
    · exact hone _ (by simpa [Expr.isBin] using h)

/-- **Grouping keeps the operands**, in their order. -/
theorem splitExpr_regroup (op : Op) (e : Expr I) :
    splitExpr op (regroup e) = (splitExpr op e).map regroup := by
  induction e with
  | item i => rfl
  | rel r a b => rfl
  | not a => rfl
  | bin op' a b iha ihb =>
    by_cases h : op' = op
    · subst h
      rw [regroup, splitExpr_graft, iha, ihb, splitExpr, if_pos rfl, List.map_append]
    · have hbin : (Expr.bin op' a b).isBin op = false := by simpa [Expr.isBin] using h
      rw [splitExpr_of_not_isBin ((isBin_regroup op _).trans hbin), splitExpr_of_not_isBin hbin]
      rfl

theorem exprValue_graft (v : Values I) (op : Op) (a b : Expr I) :
    exprValue v (graft op a b) = op.apply (exprValue v a) (exprValue v b) := by
  induction a with
  | item i => exact exprValue_bin v op _ b
  | not a => exact exprValue_bin v op _ b
  | rel r a₁ a₂ => exact exprValue_bin v op _ b
  | bin op' a₁ a₂ _ ih =>
    rw [graft]
    split
    next h => rw [exprValue_bin, ih, exprValue_bin, h, Op.apply_assoc]
    next => exact exprValue_bin v op _ b

theorem graft_assoc (op : Op) (a b c : Expr I) :
    graft op (graft op a b) c = graft op a (graft op b c) := by
  have hone : ∀ a : Expr I, graft op a b = .bin op a b → graft op a (graft op b c) =
      .bin op a (graft op b c) → graft op (graft op a b) c = graft op a (graft op b c) := by
    intro a h₁ h₂
    rw [h₁, h₂, graft, if_pos rfl]
  induction a with
  | item i => exact hone _ rfl rfl
  | not a => exact hone _ rfl rfl
  | rel r a₁ a₂ => exact hone _ rfl rfl
  | bin op' a₁ a₂ _ ih =>
    by_cases h : op' = op
    · simp only [graft, h, if_true, ih]
    · exact hone _ (by rw [graft, if_neg h]) (by rw [graft, if_neg h])

/-- **Grouping does not change the value.** A chain of `&&` is the least of its operands, and a
chain of `||` the largest. -/
theorem exprValue_regroup (v : Values I) (e : Expr I) :
    exprValue v (regroup e) = exprValue v e := by
  induction e with
  | item i => rfl
  | rel r a b => rfl
  | not a ih => simp only [regroup, exprValue, ih]
  | bin op a b iha ihb => rw [regroup, exprValue_graft, iha, ihb, exprValue_bin]

end Jhalfs.Menu
