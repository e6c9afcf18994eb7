import Jhalfs.Base.Memo
import Jhalfs.Menu.ConfigFile

/-!
# The properties of symbols and choices

The visibility and the value of a symbol or choice are computed when they are asked for, from
what the user has set and from the values of other symbols and choices (`Symbol` and `Choice`,
src/menu/kconfiglib.py). Here each of them is a `Query`: a computation that asks for other
properties, in the order of the source, and for what the user has set. So one text says what
a property is, in which order the cache is filled, and on what a property depends.

- `Kconfig`: the symbols and choices with the properties the parser has given them. Its fields
  keep what the parser makes sure of: a symbol of a choice depends on the choice, and a symbol
  that is not defined has no prompts. A default of a choice that is none of its symbols is
  only warned about; a menu with one is left out.
- `Key`: the properties that are cached, each with the type of its value; `Input`: what the user
  sets.
- `exprVal`: the value of an expression, which asks for its items from left to right as far as
  they count.
- `symVisibility`, `triValue`, `strValue`, `symAssignable` and the same for choices: the
  functions of the source.
- `body`: how each property is computed, as one function of the key.

Warnings are not modelled; what they look up for their texts is as if it were read on its own.
The part of the menu at the end, with the choice of the book and two symbols that depend on
it, is the example of the modules that follow.
-/

namespace Jhalfs.Menu

open Memo

/-! ## The menu -/

/-- A symbol or a choice, of the symbols `S` and the choices `C`. -/
inductive Item (S C : Type) where
  | sym (s : S)
  | choice (c : C)
  deriving DecidableEq

/-- `_BOOL_TRISTATE`. -/
def SymType.isTri (type : SymType) : Bool := type = .bool || type = .tristate

variable {S C : Type}

/-- A symbol after the parsing, with the conditions of its prompts. The constant symbols `n`, `m`
and `y` are `fixed`. A symbol is `hidden` from the file when its value comes from the
environment. -/
structure SymDef (S C : Type) where
  name : List Char
  origType : SymType
  isConstant : Bool
  fixed : Option Tri
  prompts : List (Expr (Item S C))
  defaults : List (Expr (Item S C) × Expr (Item S C))
  ranges : List ((S × S) × Expr (Item S C))
  revDep : Expr (Item S C)
  weakRevDep : Expr (Item S C)
  directDep : Expr (Item S C)
  choice : Option C
  hidden : Bool

/-- A choice after the parsing. -/
structure ChoiceDef (S C : Type) where
  origType : SymType
  isOptional : Bool
  prompts : List (Expr (Item S C))
  defaults : List (S × Expr (Item S C))
  syms : List S

/-- The items in the properties of a symbol (`_build_dep`). -/
def SymDef.refs (d : SymDef S C) : List (Item S C) :=
  d.prompts.flatMap exprItems ++
    d.defaults.flatMap (fun x => exprItems x.1 ++ exprItems x.2) ++
    exprItems d.revDep ++ exprItems d.weakRevDep ++
    d.ranges.flatMap (fun x => .sym x.1.1 :: .sym x.1.2 :: exprItems x.2) ++
    exprItems d.directDep

/-- The items in the properties of a choice. -/
def ChoiceDef.refs (d : ChoiceDef S C) : List (Item S C) :=
  d.prompts.flatMap exprItems ++ d.defaults.flatMap fun x => exprItems x.2

/-- All symbols and choices. The symbols that are not defined are constants and names that no
menu has. -/
structure Kconfig (S C : Type) where
  sym : S → SymDef S C
  choice : C → ChoiceDef S C
  modules : S
  definedSyms : List S
  choices : List C
  choice_listed : ∀ c, c ∈ choices
  constant_undefined : ∀ s, (sym s).isConstant = true → s ∉ definedSyms
  fixed_constant : ∀ s, (sym s).fixed.isSome = true →
    (sym s).isConstant = true ∧ (sym s).origType = .tristate
  undefined : ∀ s, s ∉ definedSyms → (sym s).prompts = [] ∧ (sym s).choice = none ∧
    ((sym s).fixed.isSome = true ∨ (sym s).origType = .unknown)
  /-- The choice is propagated to the conditions of its symbols. -/
  choice_ref : ∀ s c, (sym s).choice = some c → .choice c ∈ (sym s).refs
  choice_mem : ∀ s c, (sym s).choice = some c → s ∈ (choice c).syms
  /-- For other defaults there is a warning. -/
  default_mem : ∀ c x, x ∈ (choice c).defaults → x.1 ∈ (choice c).syms

/-- What the user has set a symbol to: a tristate value or a text. For a symbol with a tristate
value the texts `n`, `m` and `y` stand for their values. -/
inductive UserValue where
  | tri (val : Tri)
  | str (val : List Char)
  deriving DecidableEq

/-- The properties that are cached: `_cached_vis`, `_cached_tri_val`, `_cached_str_val`,
`_cached_assignable` and `_cached_selection`. -/
inductive Key (S C : Type) where
  | vis (i : Item S C)
  | tri (s : S)
  | str (s : S)
  | assignable (i : Item S C)
  | selection (c : C)
  deriving DecidableEq

/-- The values. Those of symbols come with the flag `_write_to_conf`, which says whether the
symbol is written to the file. -/
@[reducible] def Key.Val : Key S C → Type
  | vis _ => Tri
  | tri _ => Tri × Bool
  | str _ => List Char × Bool
  | assignable _ => List Tri
  | selection _ => Option S

/-- `Symbol.user_value`, `Choice.user_value` and `Choice.user_selection`. -/
inductive Input (S C : Type) where
  | value (s : S)
  | mode (c : C)
  | selection (c : C)
  deriving DecidableEq

/-- `str` and `hex` of a number. -/
def numStr (type : SymType) (n : Int) : List Char :=
  (if n < 0 then ['-'] else []) ++
    if type = .int then Nat.toDigits 10 n.natAbs else '0' :: 'x' :: Nat.toDigits 16 n.natAbs

/-- The number of a text; `strtoll` gives 0 when there is none. -/
def numOf (type : SymType) (val : List Char) : Int := (toInt type.base val).getD 0

/-- Whether a number is in the range, if there is one. -/
def inRange (range : Option (Int × Int)) (n : Int) : Bool :=
  range.all fun r => r.1 ≤ n && n ≤ r.2

/-- A default that is out of the range is moved into it. -/
def clamp (type : SymType) (range : Option (Int × Int)) (val : List Char) : List Char :=
  match range with
  | none => val
  | some (low, high) =>
    if numOf type val < low then numStr type low
    else if high < numOf type val then numStr type high
    else val

/-- The mode of a choice, before `m` is promoted. -/
def ChoiceDef.mode (d : ChoiceDef S C) (user : Option Tri) (vis : Tri) : Tri :=
  min (max (if d.isOptional then 0 else 1) (user.getD 0)) vis

namespace Kconfig

variable (m : Kconfig S C)

/-- The user selection of a choice is one of its symbols. -/
@[reducible] def InputVal : Input S C → Type
  | .value _ => Option UserValue
  | .mode _ => Option Tri
  | .selection c => Option { s : S // s ∈ (m.choice c).syms }

/-- A computation of a property, which asks for other properties and for what the user has set. -/
abbrev Ask (A : Type) := Query (Key.Val (S := S) (C := C)) m.InputVal A

/-! ## Expressions -/

def vis (i : Item S C) : m.Ask Tri := Query.get (Key.vis i)

def symTri (s : S) : m.Ask (Tri × Bool) := Query.get (Key.tri s)

def symStr (s : S) : m.Ask (List Char × Bool) := Query.get (Key.str s)

def choiceSelection (c : C) : m.Ask (Option S) := Query.get (Key.selection c)

def userValue (s : S) : m.Ask (Option UserValue) := Query.read (Input.value s)

def userMode (c : C) : m.Ask (Option Tri) := Query.read (Input.mode c)

def userSelection (c : C) : m.Ask (Option { s : S // s ∈ (m.choice c).syms }) :=
  Query.read (Input.selection c)

/-- The type of something tristate: modules may be disabled. -/
def modulesType : m.Ask SymType := do
  let modules ← m.symTri m.modules
  pure (if modules.1 = 0 then .bool else .tristate)

/-- `Choice.type`. -/
def choiceType (c : C) : m.Ask SymType :=
  if (m.choice c).origType = .tristate then m.modulesType else pure (m.choice c).origType

/-- `Choice.tri_value`, which is not cached. -/
def choiceTri (c : C) : m.Ask Tri := do
  let user ← m.userMode c
  let vis ← m.vis (.choice c)
  if (m.choice c).mode user vis = 1 then do
    let type ← m.choiceType c
    pure (if type = .bool then 2 else 1)
  else pure ((m.choice c).mode user vis)

/-- `tri_value`. -/
def itemTri : Item S C → m.Ask Tri
  | .sym s => do
    let val ← m.symTri s
    pure val.1
  | .choice c => m.choiceTri c

/-- `str_value`. -/
def itemStr : Item S C → m.Ask (List Char)
  | .sym s => do
    let val ← m.symStr s
    pure val.1
  | .choice c => do
    let val ← m.choiceTri c
    pure (triToStr val)

/-- `orig_type`. -/
def origType : Item S C → SymType
  | .sym s => (m.sym s).origType
  | .choice c => (m.choice c).origType

/-- `_sym_to_num`. -/
def symToNum (i : Item S C) : m.Ask (Option Int) :=
  if (m.origType i).isTri then do
    let val ← m.itemTri i
    pure (some val.val)
  else do
    let val ← m.itemStr i
    pure (toInt (m.origType i).base val)

/-- The comparison of strings. -/
def strcmp (a b : Item S C) : m.Ask Int := do
  let x ← m.itemStr a
  let y ← m.itemStr b
  pure (Menu.strcmp x y)

/-- `comp`. -/
def compare (a b : Item S C) : m.Ask Int :=
  if m.origType a = .string ∧ m.origType b = .string then m.strcmp a b
  else do
    let x ← m.symToNum a
    match x with
    | none => m.strcmp a b
    | some x => do
      let y ← m.symToNum b
      match y with
      | none => m.strcmp a b
      | some y => pure (x - y)

/-- `expr_value`: the second operand is asked for only where the first one does not decide. -/
def exprVal : Expr (Item S C) → m.Ask Tri
  | .item i => m.itemTri i
  | .bin .and a b => do
    let v1 ← exprVal a
    if v1 = 0 then pure 0
    else do
      let v2 ← exprVal b
      pure (min v1 v2)
  | .bin .or a b => do
    let v1 ← exprVal a
    if v1 = 2 then pure 2
    else do
      let v2 ← exprVal b
      pure (max v1 v2)
  | .not a => do
    let v ← exprVal a
    pure (2 - v)
  | .rel r a b => do
    let comp ← m.compare a b
    pure (r.value comp)

/-- The first entry of a list whose condition is met, with the value of the condition. The
entries behind it are not asked for. -/
def firstMet {A : Type} : List (A × Expr (Item S C)) → m.Ask (Option (A × Tri))
  | [] => pure none
  | x :: list => do
    let dep ← m.exprVal x.2
    if dep ≠ 0 then pure (some (x.1, dep)) else firstMet list

/-! ## Visibility -/

/-- `Symbol.type`. -/
def symType (s : S) : m.Ask SymType :=
  if (m.sym s).origType = .tristate then
    match (m.sym s).choice with
    | none => m.modulesType
    | some c => do
      let mode ← m.choiceTri c
      if mode = 2 then pure .bool else m.modulesType
  else pure (m.sym s).origType

/-- The loop over the prompts. -/
def promptVal : Tri → List (Expr (Item S C)) → m.Ask Tri
  | vis, [] => pure vis
  | vis, cond :: prompts => do
    let dep ← m.exprVal cond
    promptVal (max vis dep) prompts

/-- `m` is promoted to `y` for what is not tristate. -/
def promote (type : m.Ask SymType) (vis : Tri) : m.Ask Tri :=
  if vis = 1 then do
    let type ← type
    pure (if type ≠ .tristate then 2 else vis)
  else pure vis

/-- The symbols of a choice that its mode hides. -/
def hiddenInChoice (s : S) (vis : Tri) : m.Ask Bool :=
  match (m.sym s).choice with
  | none => pure false
  | some c =>
    if (m.choice c).origType = .tristate ∧ (m.sym s).origType ≠ .tristate then do
      let mode ← m.choiceTri c
      pure (mode ≠ 2)
    else if (m.sym s).origType = .tristate ∧ vis = 1 then do
      let mode ← m.choiceTri c
      pure (mode = 2)
    else pure false

/-- `_visibility` of a symbol: the largest value of its prompts, with `m` promoted for a symbol
that is not tristate, and nothing for one that its choice hides. -/
def symVisibility (s : S) : m.Ask Tri := do
  let vis ← m.promptVal 0 (m.sym s).prompts
  let hidden ← m.hiddenInChoice s vis
  if hidden then pure 0 else m.promote (m.symType s) vis

/-- `_visibility` of a choice. -/
def choiceVisibility (c : C) : m.Ask Tri := do
  let vis ← m.promptVal 0 (m.choice c).prompts
  m.promote (m.choiceType c) vis

/-! ## Values -/

/-- The default of a `bool` or `tristate` symbol. -/
def defaultTri (s : S) (write : Bool) : m.Ask (Tri × Bool) := do
  let first ← m.firstMet (m.sym s).defaults
  match first with
  | none => pure (0, write)
  | some (default, dep) => do
    let val ← m.exprVal default
    pure (min val dep, write || min val dep != 0)

/-- The implies, which count when the direct dependencies are met. -/
def implied (s : S) (write : Bool) : m.Ask (Tri × Bool) := do
  let own ← m.defaultTri s write
  let dep ← m.exprVal (m.sym s).weakRevDep
  if dep ≠ 0 then do
    let direct ← m.exprVal (m.sym s).directDep
    pure (if direct ≠ 0 then (max dep own.1, true) else own)
  else pure own

/-- The value before the selects: what the user has set, as far as the symbol is visible, or
else the default and the implies. -/
def ownTri (s : S) (vis : Tri) : m.Ask (Tri × Bool) :=
  if vis ≠ 0 then do
    let user ← m.userValue s
    match user with
    | some (.tri val) => pure (min val vis, true)
    | _ => m.implied s true
  else m.implied s false

/-- The selects. Where one is met, the direct dependencies are looked at for a warning. -/
def selected (s : S) (own : Tri × Bool) : m.Ask (Tri × Bool) := do
  let dep ← m.exprVal (m.sym s).revDep
  if dep ≠ 0 then do
    let _ ← m.exprVal (m.sym s).directDep
    pure (max dep own.1, true)
  else pure own

/-- `self.type is BOOL or expr_value(self.weak_rev_dep) == 2`. -/
def noM (s : S) : m.Ask Bool := do
  let type ← m.symType s
  if type = .bool then pure true
  else do
    let weak ← m.exprVal (m.sym s).weakRevDep
    pure (weak = 2)

/-- The value of a symbol that is in no choice: its own value, the selects, and the promotion of
`m` to `y` for a symbol that cannot be `m`. -/
def plainTri (s : S) (vis : Tri) : m.Ask (Tri × Bool) := do
  let own ← m.ownTri s vis
  let val ← m.selected s own
  if val.1 = 1 then do
    let no ← m.noM s
    pure (if no then 2 else val.1, val.2)
  else pure val

/-- `Symbol.tri_value`. -/
def triValue [DecidableEq S] (s : S) : m.Ask (Tri × Bool) :=
  match (m.sym s).fixed with
  | some val => pure (val, false)
  | none =>
    if (m.sym s).origType.isTri then do
      let vis ← m.vis (.sym s)
      match (m.sym s).choice with
      | none => m.plainTri s vis
      | some c =>
        if vis = 2 then do
          let selection ← m.choiceSelection c
          pure (if selection.any fun t => t = s then 2 else 0, true)
        else if vis ≠ 0 then do
          let user ← m.userValue s
          pure (if user.any fun v => v ≠ .tri 0 then 1 else 0, true)
        else pure (0, false)
    else pure (0, false)

/-- `str_value` of a default. One that is no symbol is an error (`_check_sym_sanity`). -/
def defaultStr : Expr (Item S C) → m.Ask (List Char)
  | .item i => m.itemStr i
  | _ => pure []

/-- The active range. -/
def range (s : S) : m.Ask (Option (Int × Int)) := do
  let first ← m.firstMet (m.sym s).ranges
  match first with
  | none => pure none
  | some ((low, high), _) => do
    let low ← m.symStr low
    let high ← m.symStr high
    pure (some (numOf (m.sym s).origType low.1, numOf (m.sym s).origType high.1))

/-- The default of a symbol with a text as its value. -/
def textDefault (s : S) (write : Bool) (range : Option (Int × Int)) :
    m.Ask (List Char × Bool) := do
  let first ← m.firstMet (m.sym s).defaults
  match first with
  | none => pure (clamp (m.sym s).origType range [], write)
  | some (default, _) => do
    let val ← m.defaultStr default
    pure (clamp (m.sym s).origType range val, true)

/-- The value of an `int` or `hex` symbol: what the user has set, if it is in the active range,
or else the default, moved into the range. -/
def numValue (s : S) (vis : Tri) : m.Ask (List Char × Bool) := do
  let range ← m.range s
  if vis ≠ 0 then do
    let user ← m.userValue s
    match user with
    | some (.str val) =>
      if val ≠ [] ∧ inRange range (numOf (m.sym s).origType val) then pure (val, true)
      else m.textDefault s true range
    | _ => m.textDefault s true range
  else m.textDefault s false range

/-- The value of a `string` symbol. -/
def stringValue (s : S) (vis : Tri) : m.Ask (List Char × Bool) :=
  if vis ≠ 0 then do
    let user ← m.userValue s
    match user with
    | some (.str val) => pure (val, true)
    | _ => m.textDefault s true none
  else m.textDefault s false none

/-- The value of a symbol with a text as its value. -/
def textValue (s : S) : m.Ask (List Char × Bool) := do
  let vis ← m.vis (.sym s)
  if (m.sym s).origType = .string then m.stringValue s vis else m.numValue s vis

/-- `Symbol.str_value`. -/
def strValue (s : S) : m.Ask (List Char × Bool) :=
  if (m.sym s).origType.isTri then do
    let val ← m.symTri s
    pure (triToStr val.1, val.2)
  else if (m.sym s).origType = .unknown then pure ((m.sym s).name, false)
  else do
    let val ← m.textValue s
    pure (val.1, val.2 && !(m.sym s).hidden)

/-! ## What can be set -/

/-- `Symbol._assignable`. -/
def symAssignable (s : S) : m.Ask (List Tri) :=
  if (m.sym s).origType.isTri then do
    let vis ← m.vis (.sym s)
    if vis = 0 then pure []
    else do
      let rev ← m.exprVal (m.sym s).revDep
      if vis = 2 then
        if (m.sym s).choice.isSome then pure [2]
        else if rev = 0 then do
          let no ← m.noM s
          pure (if no then [0, 2] else [0, 1, 2])
        else if rev = 2 then pure [2]
        else do
          let no ← m.noM s
          pure (if no then [2] else [1, 2])
      else if rev = 0 then do
        let weak ← m.exprVal (m.sym s).weakRevDep
        pure (if weak ≠ 2 then [0, 1] else [0, 2])
      else if rev = 2 then pure [2]
      else pure [1]
  else pure []

/-- `Choice._assignable`. -/
def choiceAssignable (c : C) : m.Ask (List Tri) := do
  let vis ← m.vis (.choice c)
  if vis = 0 then pure []
  else if vis = 2 then do
    let type ← m.choiceType c
    pure (if (m.choice c).isOptional then if type = .bool then [0, 2] else [0, 1, 2]
      else if type = .bool then [2] else [1, 2])
  else pure (if (m.choice c).isOptional then [0, 1] else [1])

/-! ## The selection of a choice -/

/-- The first default that is met and is visible. -/
def firstDefault : List (S × Expr (Item S C)) → m.Ask (Option S)
  | [] => pure none
  | x :: defaults => do
    let dep ← m.exprVal x.2
    if dep ≠ 0 then do
      let vis ← m.vis (.sym x.1)
      if vis ≠ 0 then pure (some x.1) else firstDefault defaults
    else firstDefault defaults

/-- The first symbol that is visible. -/
def firstVisible : List S → m.Ask (Option S)
  | [] => pure none
  | s :: syms => do
    let vis ← m.vis (.sym s)
    if vis ≠ 0 then pure (some s) else firstVisible syms

/-- `_get_selection_from_defaults`. -/
def selectionFromDefaults (c : C) : m.Ask (Option S) := do
  let first ← m.firstDefault (m.choice c).defaults
  match first with
  | some s => pure (some s)
  | none => m.firstVisible (m.choice c).syms

/-- `_selection`: what the user has selected, if it is visible, or else the selection by
default. There is none if the mode is not `y`. -/
def selectionOf (c : C) : m.Ask (Option S) := do
  let mode ← m.choiceTri c
  if mode ≠ 2 then pure none
  else do
    let user ← m.userSelection c
    match user with
    | none => m.selectionFromDefaults c
    | some s => do
      let vis ← m.vis (.sym s)
      if vis ≠ 0 then pure (some s.1) else m.selectionFromDefaults c

/-! ## All properties -/

variable [DecidableEq S]

/-- How a property is computed. All later modules are about this function; the functions of the
source do not call each other but ask for the property. -/
def body : ∀ k : Key S C, m.Ask k.Val
  | .vis (.sym s) => m.symVisibility s
  | .vis (.choice c) => m.choiceVisibility c
  | .tri s => m.triValue s
  | .str s => m.strValue s
  | .assignable (.sym s) => m.symAssignable s
  | .assignable (.choice c) => m.choiceAssignable c
  | .selection c => m.selectionOf c

end Kconfig

/-! ## A part of the menu -/

/-- Some symbols of src/Config.in, with what they refer to. -/
inductive BookSym where
  | n
  | y
  | modules
  | bookLfs
  | bookBlfs
  | sysv
  | initsys
  | blfsTool
  deriving DecidableEq

/-- A symbol that no menu has. -/
def undefinedSym (name : String) : SymDef BookSym Unit where
  name := name.toList
  origType := .unknown
  isConstant := false
  fixed := none
  prompts := []
  defaults := []
  ranges := []
  revDep := .item (.sym .n)
  weakRevDep := .item (.sym .n)
  directDep := .item (.sym .n)
  choice := none
  hidden := false

/-- The constants `n` and `y`. -/
def fixedSym (name : String) (val : Tri) : SymDef BookSym Unit :=
  { undefinedSym name with origType := .tristate, isConstant := true, fixed := some val }

/-- A symbol of the choice. -/
def choiceSym (name : String) : SymDef BookSym Unit :=
  { undefinedSym name with
    origType := .bool
    prompts := [.item (.choice ())]
    directDep := .item (.choice ())
    choice := some () }

/-- `INITSYS` follows the book; `BLFS_TOOL` is not for the BLFS book. -/
def bookSym : BookSym → SymDef BookSym Unit
  | .n => fixedSym "n" 0
  | .y => fixedSym "y" 2
  | .modules => undefinedSym "MODULES"
  | .bookLfs => choiceSym "BOOK_LFS"
  | .bookBlfs => choiceSym "BOOK_BLFS"
  | .sysv => { undefinedSym "sysv" with isConstant := true }
  | .initsys =>
    { undefinedSym "INITSYS" with
      origType := .string
      defaults := [(.item (.sym .sysv), .item (.sym .bookLfs))]
      directDep := .item (.sym .y) }
  | .blfsTool =>
    { undefinedSym "BLFS_TOOL" with
      origType := .bool
      prompts := [.not (.item (.sym .bookBlfs))]
      defaults := [(.item (.sym .n), .not (.item (.sym .bookBlfs)))]
      directDep := .not (.item (.sym .bookBlfs)) }

/-- The part of src/Config.in with these symbols. -/
def bookMenu : Kconfig BookSym Unit where
  sym := bookSym
  choice _ :=
    { origType := .bool
      isOptional := false
      prompts := [.item (.sym .y)]
      defaults := [(.bookLfs, .item (.sym .y))]
      syms := [.bookLfs, .bookBlfs] }
  modules := .modules
  definedSyms := [.bookLfs, .bookBlfs, .initsys, .blfsTool]
  choices := [()]
  choice_listed := by simp
  constant_undefined s := by cases s <;> simp [bookSym, undefinedSym, choiceSym]
  fixed_constant s := by cases s <;> simp [bookSym, undefinedSym, choiceSym, fixedSym]
  undefined s := by cases s <;> simp [bookSym, undefinedSym, fixedSym]
  choice_ref s c := by
    cases s <;> simp [bookSym, undefinedSym, choiceSym, fixedSym, SymDef.refs, exprItems]
  choice_mem s c := by cases s <;> simp [bookSym, undefinedSym, choiceSym, fixedSym]
  default_mem c x := by
    rintro hx
    simp only [List.mem_singleton] at hx
    simp [hx]

end Jhalfs.Menu
