import Mathlib.Order.Fin.Basic
import Jhalfs.Menu.State

/-!
# The values that a menu shows

In a menu without dependency loops what is read in a state is one value for each property, and
the values solve the equations of the properties. From these equations follows what the values
of a choice and its symbols are; neither the cache nor the order of the reads occurs in the
proofs any more.

- `Solves`: the values of all properties solve the equations, for what the user has set.
- `Shows`: what is read in a state, and that it solves the equations. Each reachable state
  shows values, and only one (`exists_shows`).
- `valuesOf`: the values of the items in expressions; `exprVal` is `exprValue` there
  (`eval_exprVal`).
- `Under` and `InChoice`: the condition of a prompt in a choice, as `_propagate_deps` makes it.
  The visibility of a symbol is bounded by the mode of its choice for this reason.
- `Regular`: a choice that gives no warning.

The selection of a choice is one of its symbols that is visible, and there is one as soon as a
symbol is visible. With this the value of a symbol is read off from the mode and the selection.

**Main result**: `choice_of_reachable`. In the mode `y` one of the visible symbols of a choice is
`y` and the others are `n`; in the mode `m` none is `y`; in the mode `n` all are `n`.
-/

namespace Jhalfs.Menu

open Memo

variable {S C : Type} [DecidableEq S] [DecidableEq C]

/-- The visibility of an item. -/
def visOf (val : ∀ k : Key S C, k.Val) (i : Item S C) : Tri := val (.vis i)

/-- The tristate value of a symbol. -/
def triOf (val : ∀ k : Key S C, k.Val) (s : S) : Tri := (val (.tri s)).1

namespace Kconfig

variable (m : Kconfig S C)

/-- The values of all properties solve the equations: each is what is computed when the others
are the answers. -/
def Solves (user : Inputs m.InputVal) (val : ∀ k : Key S C, k.Val) : Prop :=
  ∀ k, (m.body k).eval user val = val k

/-- What is read in a state: with enough depth a read gives this value, and the values solve the
equations. -/
structure Shows (st : m.State) (val : ∀ k : Key S C, k.Val) : Prop where
  solves : m.Solves st.user val
  read : ∀ k, ∃ depth, ∀ depth' ≥ depth, ∃ cache,
    m.read depth' k st = some (val k, ⟨st.user, cache⟩)

variable {m}

/-- **A state shows one value for each property**: the equations have a solution, and with
enough depth a read gives the value of the solution. -/
theorem exists_shows {rank : Item S C → Nat} (hrank : m.Layered rank) {st : m.State}
    (h : m.Reachable st) : ∃ val, m.Shows st val := by
  obtain ⟨val, hval, hdepth⟩ := exists_solution (ranked_body hrank) st.user
  refine ⟨val, hval, fun k => ⟨m.keyRank rank k + 1, fun depth hle => ?_⟩⟩
  obtain ⟨v, cache, hread, hcompute⟩ := read_of_reachable hrank h (Nat.lt_of_succ_le hle)
  rw [hdepth k depth (Nat.lt_of_succ_le hle)] at hcompute
  cases hcompute
  exact ⟨cache, hread⟩

/-- What a state shows is what is computed. -/
theorem Shows.eq_of_compute {st : m.State} {val : ∀ k : Key S C, k.Val} (h : m.Shows st val)
    {k : Key S C} {v : k.Val} (depth : Nat) (hk : compute m.body st.user depth k = some v) :
    val k = v := compute_of_solution h.solves hk

/-- What a state shows is determined. -/
theorem Shows.unique {st : m.State} {val val' : ∀ k : Key S C, k.Val} (h : m.Shows st val)
    (h' : m.Shows st val') : val = val' := by
  funext k
  obtain ⟨depth, hread⟩ := h.read k
  obtain ⟨depth', hread'⟩ := h'.read k
  obtain ⟨_, heq⟩ := hread (max depth depth') (le_max_left _ _)
  obtain ⟨_, heq'⟩ := hread' (max depth depth') (le_max_right _ _)
  rw [heq] at heq'
  exact (Prod.mk.inj (Option.some.inj heq')).1

/-! ## Expressions -/

section

variable (m) (user : Inputs m.InputVal) (val : ∀ k : Key S C, k.Val)

/-- The values of the items. -/
def valuesOf : Values (Item S C) where
  triValue i := (m.itemTri i).eval user val
  strValue i := (m.itemStr i).eval user val
  origType := m.origType

/-- The mode of a choice. -/
def modeOf (c : C) : Tri := (m.choiceTri c).eval user val

/-- Modules are enabled. -/
def modulesOn : Bool := triOf val m.modules ≠ 0

variable {m user val}

omit [DecidableEq S] [DecidableEq C] in
theorem valuesOf_origType : (m.valuesOf user val).origType = m.origType := rfl

omit [DecidableEq S] [DecidableEq C] in
theorem eval_symToNum (i : Item S C) :
    (m.symToNum i).eval user val = Menu.symToNum (m.valuesOf user val) i := by
  have htype : (m.origType i).isTri = true ↔
      m.origType i = .bool ∨ m.origType i = .tristate := by
    simp [SymType.isTri]
  rw [symToNum, Menu.symToNum, valuesOf_origType]
  by_cases hi : (m.origType i).isTri = true
  · rw [if_pos hi, if_pos (htype.mp hi)]
    exact Query.eval_bind _ _
  · rw [if_neg hi, if_neg fun h => hi (htype.mpr h)]
    exact Query.eval_bind _ _

omit [DecidableEq S] [DecidableEq C] in
theorem eval_strcmp (a b : Item S C) : (m.strcmp a b).eval user val =
    Menu.strcmp ((m.valuesOf user val).strValue a) ((m.valuesOf user val).strValue b) := by
  rw [strcmp, Query.eval_bind, Query.eval_bind]
  rfl

omit [DecidableEq S] [DecidableEq C] in
theorem eval_compare (a b : Item S C) :
    (m.compare a b).eval user val = Menu.compare (m.valuesOf user val) a b := by
  rw [compare, Menu.compare, valuesOf_origType]
  by_cases hstring : m.origType a = .string ∧ m.origType b = .string
  · rw [if_pos hstring, if_pos hstring]
    exact eval_strcmp a b
  · rw [if_neg hstring, if_neg hstring, Query.eval_bind, eval_symToNum]
    cases Menu.symToNum (m.valuesOf user val) a with
    | none => exact eval_strcmp a b
    | some x =>
      show (m.symToNum b >>= _).eval user val = _
      rw [Query.eval_bind, eval_symToNum]
      cases Menu.symToNum (m.valuesOf user val) b with
      | none => exact eval_strcmp a b
      | some y => rfl

omit [DecidableEq S] [DecidableEq C] in
/-- The expressions have the value of `expr_value`. -/
@[simp] theorem eval_exprVal (e : Expr (Item S C)) :
    (m.exprVal e).eval user val = exprValue (m.valuesOf user val) e := by
  induction e with
  | item i => rfl
  | bin op a b iha ihb =>
    cases op with
    | and =>
      rw [exprVal, Query.eval_bind, iha]
      show _ = if exprValue (m.valuesOf user val) a = 0 then 0 else _
      split
      · rfl
      · rw [Query.eval_bind, ihb]
        rfl
    | or =>
      rw [exprVal, Query.eval_bind, iha]
      show _ = if exprValue (m.valuesOf user val) a = 2 then 2 else _
      split
      · rfl
      · rw [Query.eval_bind, ihb]
        rfl
  | not a iha =>
    rw [exprVal, Query.eval_bind, iha]
    rfl
  | rel r a b =>
    rw [exprVal, Query.eval_bind, eval_compare]
    rfl

end

/-! ## Types and visibility -/

section

variable (m) (user : Inputs m.InputVal) (val : ∀ k : Key S C, k.Val)

/-- The value of the prompts. -/
def promptOf (prompts : List (Expr (Item S C))) : Tri :=
  prompts.foldl (fun vis e => max vis (exprValue (m.valuesOf user val) e)) 0

variable {m user val}

omit [DecidableEq S] [DecidableEq C] in
theorem eval_promptVal (vis : Tri) (prompts : List (Expr (Item S C))) :
    (m.promptVal vis prompts).eval user val =
      prompts.foldl (fun vis e => max vis (exprValue (m.valuesOf user val) e)) vis := by
  induction prompts generalizing vis with
  | nil => rfl
  | cons e prompts ih =>
    rw [promptVal, Query.eval_bind, eval_exprVal, ih]
    rfl

omit [DecidableEq S] [DecidableEq C] in
theorem eval_promote (type : m.Ask SymType) (vis : Tri) :
    (m.promote type vis).eval user val =
      if vis = 1 ∧ type.eval user val ≠ .tristate then 2 else vis := by
  rw [promote]
  by_cases hvis : vis = 1
  · rw [if_pos hvis, Query.eval_bind]
    simp [hvis]
  · rw [if_neg hvis, if_neg fun h => hvis h.1]
    rfl

omit [DecidableEq S] [DecidableEq C] in
theorem eval_modulesType : m.modulesType.eval user val =
    if m.modulesOn val then .tristate else .bool := by
  show (if triOf val m.modules = 0 then SymType.bool else .tristate) = _
  rw [modulesOn]
  by_cases h : triOf val m.modules = 0
  · simp [h]
  · simp [h]

omit [DecidableEq S] [DecidableEq C] in
theorem eval_choiceType_eq_tristate (c : C) : (m.choiceType c).eval user val = .tristate ↔
    (m.choice c).origType = .tristate ∧ m.modulesOn val = true := by
  rw [choiceType]
  split
  next h =>
    rw [eval_modulesType]
    cases m.modulesOn val
    all_goals simp [h]
  next h => exact ⟨fun htri => absurd htri h, fun htri => absurd htri.1 h⟩

omit [DecidableEq S] [DecidableEq C] in
theorem eval_symType_eq_tristate (s : S) : (m.symType s).eval user val = .tristate ↔
    (m.sym s).origType = .tristate ∧ m.modulesOn val = true ∧
      ∀ c, (m.sym s).choice = some c → m.modeOf user val c ≠ 2 := by
  rw [symType]
  split
  next h =>
    have hmodules : (m.modulesType).eval user val = .tristate ↔ m.modulesOn val = true := by
      rw [eval_modulesType]
      cases m.modulesOn val
      all_goals simp
    cases hc : (m.sym s).choice with
    | none => simp [hmodules, h]
    | some c =>
      show (m.choiceTri c >>= _).eval user val = _ ↔ _
      rw [Query.eval_bind]
      change (if m.modeOf user val c = 2 then (pure .bool : m.Ask SymType)
        else m.modulesType).eval user val = _ ↔ _
      split
      next hmode => simp [hmode]
      next hmode => simp [hmodules, h, hmode]
  next h => exact ⟨fun htri => absurd htri h, fun htri => absurd htri.1 h⟩

omit [DecidableEq S] [DecidableEq C] in
/-- The mode, with `m` promoted. -/
theorem modeOf_eq (c : C) : m.modeOf user val c =
    if (m.choice c).mode (user (.mode c)) (visOf val (.choice c)) = 1 ∧
      (m.choiceType c).eval user val = .bool then 2
    else (m.choice c).mode (user (.mode c)) (visOf val (.choice c)) := by
  rw [modeOf, choiceTri, Query.eval_bind, Query.eval_bind]
  show (if (m.choice c).mode (user (.mode c)) (visOf val (.choice c)) = 1 then
    m.choiceType c >>= fun type => (pure (if type = .bool then 2 else 1) : m.Ask Tri)
    else pure _).eval user val = _
  split
  next h =>
    rw [Query.eval_bind]
    simp [h]
  next h =>
    rw [if_neg fun hboth => h hboth.1]
    rfl

variable (h : m.Solves user val)
include h

omit [DecidableEq C] in
theorem Solves.vis_sym (s : S) : visOf val (.sym s) =
    if (m.hiddenInChoice s (m.promptOf user val (m.sym s).prompts)).eval user val then 0
    else if m.promptOf user val (m.sym s).prompts = 1 ∧
      (m.symType s).eval user val ≠ .tristate then 2
    else m.promptOf user val (m.sym s).prompts := by
  show val (.vis (.sym s)) = _
  rw [← h (.vis (.sym s))]
  show (m.symVisibility s).eval user val = _
  rw [symVisibility, Query.eval_bind, eval_promptVal, Query.eval_bind]
  show (if (m.hiddenInChoice s (m.promptOf user val (m.sym s).prompts)).eval user val = true
    then (pure 0 : m.Ask Tri) else _).eval user val = _
  split
  · rfl
  · exact eval_promote _ _

end

/-! ## The selection of a choice -/

section

variable {m : Kconfig S C} {user : Inputs m.InputVal} {val : ∀ k : Key S C, k.Val}

omit [DecidableEq S] [DecidableEq C] in
theorem eval_firstVisible (syms : List S) : (m.firstVisible syms).eval user val =
    syms.find? fun s => visOf val (.sym s) != 0 := by
  induction syms with
  | nil => rfl
  | cons s syms ih =>
    show (if visOf val (.sym s) ≠ 0 then (pure (some s) : m.Ask (Option S))
      else m.firstVisible syms).eval user val = _
    by_cases hvis : visOf val (.sym s) = 0
    · rw [if_neg (not_not.mpr hvis), ih, List.find?_cons_of_neg (by simp [hvis])]
    · rw [if_pos hvis, List.find?_cons_of_pos (by simp [hvis])]
      rfl

omit [DecidableEq S] [DecidableEq C] in
theorem eval_firstDefault (defaults : List (S × Expr (Item S C))) :
    (m.firstDefault defaults).eval user val = (defaults.find? fun x =>
      exprValue (m.valuesOf user val) x.2 != 0 && visOf val (.sym x.1) != 0).map Prod.fst := by
  induction defaults with
  | nil => rfl
  | cons x defaults ih =>
    rw [firstDefault, Query.eval_bind, eval_exprVal]
    by_cases hdep : exprValue (m.valuesOf user val) x.2 = 0
    · rw [if_neg (not_not.mpr hdep), ih, List.find?_cons_of_neg (by simp [hdep])]
    · rw [if_pos hdep]
      show (if visOf val (.sym x.1) ≠ 0 then (pure (some x.1) : m.Ask (Option S))
        else m.firstDefault defaults).eval user val = _
      by_cases hvis : visOf val (.sym x.1) = 0
      · rw [if_neg (not_not.mpr hvis), ih, List.find?_cons_of_neg (by simp [hvis])]
      · rw [if_pos hvis, List.find?_cons_of_pos (by simp [hdep, hvis])]
        rfl

omit [DecidableEq S] [DecidableEq C] in
theorem eval_selectionFromDefaults (c : C) : (m.selectionFromDefaults c).eval user val =
    (((m.choice c).defaults.find? fun x =>
      exprValue (m.valuesOf user val) x.2 != 0 && visOf val (.sym x.1) != 0).map Prod.fst).or
      ((m.choice c).syms.find? fun s => visOf val (.sym s) != 0) := by
  rw [selectionFromDefaults, Query.eval_bind, eval_firstDefault]
  cases (m.choice c).defaults.find? _ with
  | none => exact eval_firstVisible _
  | some x => rfl

omit [DecidableEq S] [DecidableEq C] in
/-- The selection by default is a symbol of the choice that is visible. -/
theorem of_selectionFromDefaults {c : C} {s : S}
    (h : (m.selectionFromDefaults c).eval user val = some s) :
    s ∈ (m.choice c).syms ∧ visOf val (.sym s) ≠ 0 := by
  rw [eval_selectionFromDefaults, Option.or_eq_some_iff] at h
  rcases h with h | ⟨-, h⟩
  · obtain ⟨x, hx, rfl⟩ := Option.map_eq_some_iff.mp h
    have hvis := List.find?_some hx
    simp only [Bool.and_eq_true, bne_iff_ne] at hvis
    exact ⟨m.default_mem c x (List.mem_of_find?_eq_some hx), hvis.2⟩
  · have hvis := List.find?_some h
    exact ⟨List.mem_of_find?_eq_some h, by simpa using hvis⟩

omit [DecidableEq S] [DecidableEq C] in
/-- There is a selection as soon as a symbol is visible. -/
theorem selectionFromDefaults_isSome {c : C} {s : S} (hs : s ∈ (m.choice c).syms)
    (hvis : visOf val (.sym s) ≠ 0) :
    ((m.selectionFromDefaults c).eval user val).isSome = true := by
  rw [eval_selectionFromDefaults, Option.isSome_or, Bool.or_eq_true]
  exact Or.inr (List.find?_isSome.mpr ⟨s, hs, by simpa using hvis⟩)

omit [DecidableEq S] [DecidableEq C] in
theorem eval_selectionOf (c : C) : (m.selectionOf c).eval user val =
    if m.modeOf user val c ≠ 2 then none
    else match user (.selection c) with
      | none => (m.selectionFromDefaults c).eval user val
      | some s => if visOf val (.sym s.1) ≠ 0 then some s.1
        else (m.selectionFromDefaults c).eval user val := by
  show (m.choiceTri c >>= _).eval user val = _
  rw [Query.eval_bind]
  change (if m.modeOf user val c ≠ 2 then (pure none : m.Ask (Option S)) else _).eval user val = _
  split
  · rfl
  · show (m.userSelection c >>= _).eval user val = _
    rw [Query.eval_bind]
    show ((match user (.selection c) with
      | none => m.selectionFromDefaults c
      | some s => m.vis (.sym s) >>= _) : m.Ask (Option S)).eval user val = _
    split
    · rfl
    next t _ =>
      show (if visOf val (.sym t.1) ≠ 0 then (pure (some t.1) : m.Ask (Option S))
        else m.selectionFromDefaults c).eval user val = _
      split
      · rfl
      · rfl

variable (h : m.Solves user val)
include h

omit [DecidableEq C] in
theorem Solves.selection (c : C) : val (.selection c) =
    if m.modeOf user val c ≠ 2 then none
    else match user (.selection c) with
      | none => (m.selectionFromDefaults c).eval user val
      | some s => if visOf val (.sym s.1) ≠ 0 then some s.1
        else (m.selectionFromDefaults c).eval user val :=
  (h (.selection c)).symm.trans (eval_selectionOf c)

omit [DecidableEq C] in
/-- The selection is a symbol of the choice that is visible. -/
theorem Solves.of_selection {c : C} {s : S} (hs : val (.selection c) = some s) :
    m.modeOf user val c = 2 ∧ s ∈ (m.choice c).syms ∧ visOf val (.sym s) ≠ 0 := by
  rw [h.selection c] at hs
  split at hs
  · cases hs
  next hmode =>
    refine ⟨not_not.mp hmode, ?_⟩
    split at hs
    · exact of_selectionFromDefaults hs
    next t _ =>
      split at hs
      next hvis =>
        cases hs
        exact ⟨t.2, hvis⟩
      · exact of_selectionFromDefaults hs

omit [DecidableEq C] in
theorem Solves.selection_isSome {c : C} (hmode : m.modeOf user val c = 2) {s : S}
    (hs : s ∈ (m.choice c).syms) (hvis : visOf val (.sym s) ≠ 0) :
    (val (.selection c)).isSome = true := by
  rw [h.selection c, if_neg (not_not.mpr hmode)]
  split
  · exact selectionFromDefaults_isSome hs hvis
  · split
    · rfl
    · exact selectionFromDefaults_isSome hs hvis

end

end Kconfig

/-! ## The symbols of a choice -/

/-- One of the operands that are joined by `&&` is such an item. -/
def Expr.Under {I : Type} (p : I → Prop) : Expr I → Prop
  | .item j => p j
  | .bin .and a b => a.Under p ∨ b.Under p
  | _ => False

theorem Expr.Under.exprValue_le {I : Type} {p : I → Prop} {e : Expr I} (h : e.Under p)
    {v : Values I} {bound : Tri} (hp : ∀ i, p i → v.triValue i ≤ bound) :
    exprValue v e ≤ bound := by
  induction e with
  | item j => exact hp j h
  | bin op a b iha ihb =>
    cases op with
    | and =>
      rw [exprValue_bin]
      rcases h with h | h
      · exact (min_le_left _ _).trans (iha h)
      · exact (min_le_right _ _).trans (ihb h)
    | or => exact h.elim
  | not a => exact h.elim
  | rel r a b => exact h.elim

namespace Kconfig

/-- The condition of a prompt in a choice: the choice is one of its operands, or `n` is. -/
def InChoice (m : Kconfig S C) (c : C) : Expr (Item S C) → Prop :=
  Expr.Under fun i => i = .choice c ∨ ∃ s, i = .sym s ∧ (m.sym s).fixed = some 0

/-- A choice that gives no warning: it and its symbols have a type of two or three values, the
symbols know it as their choice, and their prompts depend on it. -/
structure Regular (m : Kconfig S C) (c : C) : Prop where
  origType : (m.choice c).origType.isTri = true
  choice : ∀ s ∈ (m.choice c).syms, (m.sym s).choice = some c
  symType : ∀ s ∈ (m.choice c).syms, (m.sym s).origType.isTri = true
  prompt : ∀ s ∈ (m.choice c).syms, ∀ e ∈ (m.sym s).prompts, m.InChoice c e

variable {m : Kconfig S C} {c : C} {user : Inputs m.InputVal} {val : ∀ k : Key S C, k.Val}

section

variable (h : m.Solves user val)
include h

omit [DecidableEq C] in
theorem Solves.tri_fixed {s : S} {v : Tri} (hs : (m.sym s).fixed = some v) : triOf val s = v := by
  show (val (.tri s)).1 = v
  rw [← h (.tri s)]
  show ((m.triValue s).eval user val).1 = v
  rw [triValue, hs]
  rfl

omit [DecidableEq C] in
/-- The mode is a bound for the prompts of the symbols. -/
theorem Solves.promptOf_le (hc : m.Regular c) {s : S} (hs : s ∈ (m.choice c).syms) :
    m.promptOf user val (m.sym s).prompts ≤ m.modeOf user val c := by
  have hfold : ∀ (prompts : List (Expr (Item S C))) (vis : Tri), vis ≤ m.modeOf user val c →
      (∀ e ∈ prompts, m.InChoice c e) →
      prompts.foldl (fun vis e => max vis (exprValue (m.valuesOf user val) e)) vis ≤
        m.modeOf user val c := by
    intro prompts
    induction prompts with
    | nil => exact fun _ hvis _ => hvis
    | cons e prompts ih =>
      intro vis hvis hall
      rw [List.forall_mem_cons] at hall
      refine ih _ (max_le hvis (hall.1.exprValue_le ?_)) hall.2
      rintro i (rfl | ⟨t, rfl, ht⟩)
      · exact le_rfl
      · exact (h.tri_fixed ht).le.trans (Fin.zero_le _)
  exact hfold _ 0 (Fin.zero_le _) (hc.prompt s hs)

omit h [DecidableEq S] [DecidableEq C] in
/-- In the mode `m` the choice is tristate, and modules are enabled. -/
theorem tristate_of_mode (hc : m.Regular c) (hmode : m.modeOf user val c = 1) :
    (m.choice c).origType = .tristate ∧ m.modulesOn val = true := by
  refine (eval_choiceType_eq_tristate c).mp (?_ : (m.choiceType c).eval user val = _)
  rw [modeOf_eq] at hmode
  split at hmode
  · exact absurd hmode (by decide)
  next hnot =>
    have hbool := fun hbool => hnot ⟨hmode, hbool⟩
    have htype := hc.origType
    rw [choiceType] at hbool ⊢
    split
    next htri =>
      rw [if_pos htri, eval_modulesType] at hbool
      rw [eval_modulesType]
      cases hmodules : m.modulesOn val
      · simp [hmodules] at hbool
      · rfl
    next htri =>
      rw [if_neg htri] at hbool
      simp only [SymType.isTri, htri, Bool.or_false, decide_eq_true_eq, decide_false] at htype
      exact absurd htype hbool

omit [DecidableEq C] in
/-- A symbol of a choice is seen at the mode, or not at all. -/
theorem Solves.vis_cases (hc : m.Regular c) {s : S} (hs : s ∈ (m.choice c).syms) :
    visOf val (.sym s) = 0 ∨ visOf val (.sym s) = m.modeOf user val c := by
  have hle := h.promptOf_le hc hs
  have hm : m.modeOf user val c = 1 → _ := tristate_of_mode hc
  have htype : (m.symType s).eval user val = .tristate ↔ _ := eval_symType_eq_tristate s
  have hhidden : (m.hiddenInChoice s (m.promptOf user val (m.sym s).prompts)).eval user val =
      if (m.choice c).origType = .tristate ∧ (m.sym s).origType ≠ .tristate then
        decide (m.modeOf user val c ≠ 2)
      else if (m.sym s).origType = .tristate ∧ m.promptOf user val (m.sym s).prompts = 1 then
        decide (m.modeOf user val c = 2)
      else false := by
    rw [hiddenInChoice, hc.choice s hs]
    dsimp only
    split
    · exact Query.eval_bind _ _
    · split
      · exact Query.eval_bind _ _
      · rfl
  rw [hc.choice s hs] at htype
  rw [h.vis_sym s, hhidden]
  have key : ∀ (vis mode : Tri) (choice sym modules type : Bool), vis ≤ mode →
      (mode = 1 → choice = true ∧ modules = true) →
      (type = true ↔ sym = true ∧ modules = true ∧ mode ≠ 2) →
      let shown : Tri := if (if choice = true ∧ ¬ sym = true then decide (mode ≠ 2)
        else if sym = true ∧ vis = 1 then decide (mode = 2) else false) = true then 0
        else if vis = 1 ∧ ¬ type = true then 2 else vis
      shown = 0 ∨ shown = mode := by decide
  have hkey := key _ _ (decide ((m.choice c).origType = .tristate))
    (decide ((m.sym s).origType = .tristate)) (m.modulesOn val)
    (decide ((m.symType s).eval user val = .tristate)) hle
  simp only [decide_eq_true_eq] at hkey
  exact hkey hm (htype.trans (by simp))

omit h [DecidableEq C] in
/-- The value and the flag of a symbol of a choice. -/
theorem eval_triValue_choice (hc : m.Regular c) {s : S} (hs : s ∈ (m.choice c).syms) :
    (m.triValue s).eval user val =
      if visOf val (.sym s) = 2 then (if val (.selection c) = some s then 2 else 0, true)
      else if visOf val (.sym s) ≠ 0 then
        (if (user (.value s)).any (fun v => v ≠ .tri 0) = true then 1 else 0, true)
      else (0, false) := by
  rw [triValue, m.fixed_of_defined (m.defined_of_choice (hc.choice s hs))]
  dsimp only
  rw [if_pos (hc.symType s hs), Query.eval_bind, hc.choice s hs]
  show (if visOf val (.sym s) = 2 then m.choiceSelection c >>= fun selection =>
      (pure (if selection.any (fun t => t = s) then 2 else 0, true) : m.Ask (Tri × Bool))
    else if visOf val (.sym s) ≠ 0 then m.userValue s >>= fun user =>
      pure (if user.any (fun v => v ≠ .tri 0) then 1 else 0, true)
    else pure (0, false)).eval user val = _
  split
  · rw [Query.eval_bind]
    show (if (val (.selection c)).any (fun t => t = s) = true then (2 : Tri) else 0, true) = _
    cases val (.selection c) with
    | none => rfl
    | some t => simp
  · split
    · rw [Query.eval_bind]
      rfl
    · rfl

omit [DecidableEq C] in
/-- The value of a symbol of a choice. -/
theorem Solves.tri_choice (hc : m.Regular c) {s : S} (hs : s ∈ (m.choice c).syms) :
    triOf val s = if visOf val (.sym s) = 2 then if val (.selection c) = some s then 2 else 0
      else if visOf val (.sym s) ≠ 0 ∧ (user (.value s)).any (fun v => v ≠ .tri 0) = true then 1
      else 0 := by
  show (val (.tri s)).1 = _
  rw [← h (.tri s)]
  show ((m.triValue s).eval user val).1 = _
  rw [eval_triValue_choice hc hs]
  split
  · rfl
  · split
    next hne => simp [hne]
    next hzero => rw [if_neg fun hboth => hzero hboth.1]

end

/-- The values of the symbols of a choice in each mode. -/
structure ModeValues (m : Kconfig S C) (user : Inputs m.InputVal) (val : ∀ k : Key S C, k.Val)
    (c : C) : Prop where
  off : m.modeOf user val c = 0 → ∀ s ∈ (m.choice c).syms, triOf val s = 0
  many : m.modeOf user val c = 1 → ∀ s ∈ (m.choice c).syms, triOf val s ≠ 2
  one : m.modeOf user val c = 2 → (∃ s ∈ (m.choice c).syms, visOf val (.sym s) ≠ 0) →
    ∃ s ∈ (m.choice c).syms, triOf val s = 2 ∧ ∀ t ∈ (m.choice c).syms, t ≠ s → triOf val t = 0

omit [DecidableEq C] in
theorem Solves.modeValues (h : m.Solves user val) (hc : m.Regular c) :
    m.ModeValues user val c where
  off hmode s hs := by
    have hvis : visOf val (.sym s) = 0 := (h.vis_cases hc hs).elim id fun heq => heq.trans hmode
    simp [h.tri_choice hc hs, hvis]
  many hmode s hs := by
    have hvis : visOf val (.sym s) ≠ 2 := by
      rcases h.vis_cases hc hs with heq | heq
      · rw [heq]; decide
      · rw [heq, hmode]; decide
    rw [h.tri_choice hc hs, if_neg hvis]
    split
    · decide
    · decide
  one hmode := by
    rintro ⟨t, ht, hvis⟩
    obtain ⟨s, hs⟩ := Option.isSome_iff_exists.mp (h.selection_isSome hmode ht hvis)
    obtain ⟨-, hmem, hshown⟩ := h.of_selection hs
    have hvis : visOf val (.sym s) = 2 :=
      ((h.vis_cases hc hmem).resolve_left hshown).trans hmode
    refine ⟨s, hmem, ?_, fun t ht hne => ?_⟩
    · rw [h.tri_choice hc hmem, if_pos hvis, if_pos hs]
    · rw [h.tri_choice hc ht]
      rcases h.vis_cases hc ht with heq | heq
      · simp [heq]
      · rw [if_pos (heq.trans hmode), if_neg]
        rw [hs]
        exact fun heq => hne (Option.some.inj heq).symm

/-- **The values of a choice**, whatever the user has set and in whatever order. A choice in the
mode `y` has exactly one symbol that is `y`, if one of its symbols is visible. -/
theorem choice_of_reachable {rank : Item S C → Nat} (hrank : m.Layered rank) {st : m.State}
    (h : m.Reachable st) (hc : m.Regular c) :
    ∃ val, m.Shows st val ∧ m.ModeValues st.user val c := by
  obtain ⟨val, hval⟩ := exists_shows hrank h
  exact ⟨val, hval, hval.solves.modeValues hc⟩

theorem bookMenu_regular : bookMenu.Regular () where
  origType := rfl
  choice s hs := by
    simp only [bookMenu, List.mem_cons, List.not_mem_nil, or_false] at hs
    rcases hs with rfl | rfl
    all_goals rfl
  symType s hs := by
    simp only [bookMenu, List.mem_cons, List.not_mem_nil, or_false] at hs
    rcases hs with rfl | rfl
    all_goals rfl
  prompt s hs e he := by
    simp only [bookMenu, List.mem_cons, List.not_mem_nil, or_false] at hs
    rcases hs with rfl | rfl
    all_goals
      simp only [bookMenu, bookSym, choiceSym, List.mem_singleton] at he
      exact he ▸ Or.inl rfl

/-- The books, after the BLFS book has been selected. -/
theorem bookMenu_choice : ∃ val,
    bookMenu.Shows (bookMenu.setValue .bookBlfs (.tri 2) bookMenu.start) val ∧
      bookMenu.ModeValues (bookMenu.setValue .bookBlfs (.tri 2) bookMenu.start).user val () :=
  choice_of_reachable bookMenu_layered (.step (.setValue BookSym.bookBlfs (.tri 2)) .start)
    bookMenu_regular

end Kconfig

end Jhalfs.Menu
