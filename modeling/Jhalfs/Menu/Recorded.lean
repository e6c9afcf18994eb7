import Jhalfs.Menu.Assign

/-!
# Values that are set to themselves

The file holds the values of the symbols, and reading it sets each symbol to its value. The values
that the user has set are gone then, and with them those that did not count: of symbols that were
not visible, or out of range, or that a select had overruled. Without modules this changes no
value.

- `Plainly`: the choices of the menu give no warning and cannot be switched off.
- `Same`: a computation that two sets of inputs give the same result. What does not ask for an
  input, and the mode of a choice without modules (`modeOf_eq_vis`), is such a computation.
- `ownValue` and `Recorded`: what the user has set is the values of the symbols that are visible,
  where they are valid, and the selections.
- `takeNumber` and `takeString`: what becomes of a number or a string that the user has set. One
  that is set to what it is stays what it is.

**Main result**: `Solves.of_recorded`. The values solve the equations also for these inputs. There
is one lemma for each kind of property: a symbol in no choice, one in a choice, a text, and a
selection.

With modules a value may change: a default is not bounded by the visibility, but what the user
sets is.
-/

namespace Jhalfs.Menu

open Memo

variable {S C : Type} [DecidableEq S] [DecidableEq C]

namespace Kconfig

/-! ## The mode of a choice -/

/-- A menu whose choices give no warning and cannot be switched off. -/
def Plainly (m : Kconfig S C) : Prop := ∀ c, m.Regular c ∧ (m.choice c).isOptional = false

variable {m : Kconfig S C} {user user' : Inputs m.InputVal} {val : ∀ k : Key S C, k.Val}

omit [DecidableEq C] in
/-- Without modules nothing is seen at `m`. -/
theorem Solves.vis_sym_ne_one (h : m.Solves user val) (hoff : m.modulesOn val = false) (s : S) :
    visOf val (.sym s) ≠ 1 := by
  have htype : (m.symType s).eval user val ≠ .tristate := by
    rw [Ne, eval_symType_eq_tristate, hoff]
    simp
  rw [h.vis_sym s]
  split
  · simp
  · split
    · simp
    next hnot => exact fun hone => hnot ⟨hone, htype⟩

omit [DecidableEq C] in
theorem Solves.vis_choice_ne_one (h : m.Solves user val) (hoff : m.modulesOn val = false) (c : C) :
    visOf val (.choice c) ≠ 1 := by
  have htype : (m.choiceType c).eval user val ≠ .tristate := by
    rw [Ne, eval_choiceType_eq_tristate, hoff]
    simp
  rw [h.vis_choice c]
  split
  · simp
  next hnot => exact fun hone => hnot ⟨hone, htype⟩

omit [DecidableEq C] in
theorem Solves.vis_of_promptless (h : m.Solves user val) {s : S} (hs : (m.sym s).prompts = []) :
    visOf val (.sym s) = 0 := by
  rw [h.vis_sym s, hs]
  split
  · rfl
  · rfl

omit [DecidableEq S] [DecidableEq C] in
/-- Without modules the mode is the visibility, whatever the user has set. -/
theorem modeOf_eq_vis (hm : m.Plainly) (hoff : m.modulesOn val = false) {c : C}
    (hvis : visOf val (.choice c) ≠ 1) (user : Inputs m.InputVal) :
    m.modeOf user val c = visOf val (.choice c) := by
  have hbool : (m.choiceType c).eval user val = .bool := by
    refine (choiceType_cases (hm c).1.origType).resolve_right ?_
    rw [eval_choiceType_eq_tristate, hoff]
    simp
  have htable : ∀ u vis : Tri, vis ≠ 1 →
      (if min (max 1 u) vis = 1 ∧ SymType.bool = .bool then 2 else min (max 1 u) vis) = vis := by
    decide
  rw [modeOf_eq, hbool, ChoiceDef.mode, (hm c).2]
  exact htable _ _ hvis

/-! ## What two sets of inputs have in common -/

/-- A computation with the same result for two sets of inputs, with the same values as answers
to what it asks for. -/
def Same (user user' : Inputs m.InputVal) (val : ∀ k : Key S C, k.Val) {A : Type} (q : m.Ask A) :
    Prop := q.eval user' val = q.eval user val

section

omit [DecidableEq S] [DecidableEq C]

theorem Same.bind {A B : Type} {q : m.Ask A} {f : A → m.Ask B} (hq : Same user user' val q)
    (hf : ∀ a, Same user user' val (f a)) : Same user user' val (q >>= f) := by
  rw [Same, Query.eval_bind, Query.eval_bind, hq]
  exact hf _

theorem same_choiceType (c : C) : Same user user' val (m.choiceType c) := by
  rw [choiceType]
  split
  · rfl
  · rfl

theorem same_promote {type : m.Ask SymType} (h : Same user user' val type) (vis : Tri) :
    Same user user' val (m.promote type vis) := by
  rw [promote]
  split
  · exact h.bind fun _ => rfl
  · rfl

theorem same_choiceAssignable (c : C) : Same user user' val (m.choiceAssignable c) := by
  refine Same.bind rfl fun vis => ?_
  split
  · rfl
  · split
    · exact (same_choiceType c).bind fun _ => rfl
    · rfl

variable (hmode : ∀ c, Same user user' val (m.choiceTri c))
include hmode

theorem valuesOf_same : m.valuesOf user' val = m.valuesOf user val := by
  have hstr : ∀ i, Same user user' val (m.itemStr i) := by
    intro i
    cases i with
    | sym s => rfl
    | choice c => exact (hmode c).bind fun _ => rfl
  have htri : ∀ i, Same user user' val (m.itemTri i) := by
    intro i
    cases i with
    | sym s => rfl
    | choice c => exact hmode c
  simp only [valuesOf, funext hstr, funext htri]

theorem same_exprVal (e : Expr (Item S C)) : Same user user' val (m.exprVal e) := by
  rw [Same, eval_exprVal, eval_exprVal, valuesOf_same hmode]

theorem same_firstMet {A : Type} (list : List (A × Expr (Item S C))) :
    Same user user' val (m.firstMet list) := by
  induction list with
  | nil => rfl
  | cons x list ih =>
    refine (same_exprVal hmode x.2).bind fun dep => ?_
    split
    · rfl
    · exact ih

theorem same_symType (s : S) : Same user user' val (m.symType s) := by
  rw [symType]
  split
  · cases (m.sym s).choice with
    | none => rfl
    | some c =>
      refine (hmode c).bind fun mode => ?_
      split
      · rfl
      · rfl
  · rfl

/-! ### Visibility -/

theorem same_promptVal (vis : Tri) (prompts : List (Expr (Item S C))) :
    Same user user' val (m.promptVal vis prompts) := by
  induction prompts generalizing vis with
  | nil => rfl
  | cons e prompts ih => exact (same_exprVal hmode e).bind fun dep => ih _

theorem same_symVisibility (s : S) : Same user user' val (m.symVisibility s) := by
  refine (same_promptVal hmode 0 _).bind fun vis => Same.bind ?_ fun hidden => ?_
  · rw [hiddenInChoice]
    cases (m.sym s).choice with
    | none => rfl
    | some c =>
      dsimp only
      split
      · exact (hmode c).bind fun _ => rfl
      · split
        · exact (hmode c).bind fun _ => rfl
        · rfl
  · split
    · rfl
    · exact same_promote (same_symType hmode s) vis

theorem same_choiceVisibility (c : C) : Same user user' val (m.choiceVisibility c) :=
  (same_promptVal hmode 0 _).bind fun vis => same_promote (same_choiceType c) vis

/-! ### Values -/

theorem same_defaultTri (s : S) (write : Bool) : Same user user' val (m.defaultTri s write) := by
  refine (same_firstMet hmode _).bind fun first => ?_
  split
  · rfl
  · exact (same_exprVal hmode _).bind fun _ => rfl

theorem same_implied (s : S) (write : Bool) : Same user user' val (m.implied s write) := by
  refine (same_defaultTri hmode s write).bind fun own => (same_exprVal hmode _).bind fun dep => ?_
  split
  · exact (same_exprVal hmode _).bind fun _ => rfl
  · rfl

theorem same_noM (s : S) : Same user user' val (m.noM s) := by
  refine (same_symType hmode s).bind fun type => ?_
  split
  · rfl
  · exact (same_exprVal hmode _).bind fun _ => rfl

theorem same_range (s : S) : Same user user' val (m.range s) := by
  refine (same_firstMet hmode _).bind fun first => ?_
  split
  · rfl
  · rfl

theorem same_textDefault (s : S) (write : Bool) (range : Option (Int × Int)) :
    Same user user' val (m.textDefault s write range) := by
  refine (same_firstMet hmode _).bind fun first => ?_
  split
  · rfl
  next e _ =>
    refine Same.bind ?_ fun _ => rfl
    cases e with
    | item i =>
      exact congrFun (congrArg Values.strValue (valuesOf_same hmode)) i
    | bin op a b => rfl
    | not a => rfl
    | rel r a b => rfl

/-! ### What can be set -/

theorem same_symAssignable (s : S) : Same user user' val (m.symAssignable s) := by
  have hno : ∀ a b : List Tri, Same user user' val
      (m.noM s >>= fun no => (pure (if no then a else b) : m.Ask (List Tri))) := fun a b =>
    (same_noM hmode s).bind fun _ => rfl
  rw [symAssignable]
  split
  · refine Same.bind rfl fun vis => ?_
    split
    · rfl
    · refine (same_exprVal hmode _).bind fun rev => ?_
      split
      · split
        · rfl
        · split
          · exact hno _ _
          · split
            · rfl
            · exact hno _ _
      · split
        · exact (same_exprVal hmode _).bind fun _ => rfl
        · split
          · rfl
          · rfl
  · rfl

theorem same_selectionFromDefaults (c : C) :
    Same user user' val (m.selectionFromDefaults c) := by
  rw [Same, eval_selectionFromDefaults, eval_selectionFromDefaults, valuesOf_same hmode]

end

/-! ## The values as inputs -/

/-- What a symbol is set to in order to keep its value: its tristate value, or its text. -/
def ownValue (m : Kconfig S C) (val : ∀ k : Key S C, k.Val) (s : S) : UserValue :=
  if (m.sym s).origType.isTri then .tri (triOf val s) else .str (val (.str s)).1

/-- The symbols that are visible are set to their values, where these are valid, and the choices
to their selections. -/
structure Recorded (m : Kconfig S C) (user : Inputs m.InputVal) (val : ∀ k : Key S C, k.Val) :
    Prop where
  value : ∀ s ∈ m.definedSyms, visOf val (.sym s) ≠ 0 → user (.value s) =
    if (m.ownValue val s).isValid (m.sym s).origType then some (m.ownValue val s) else none
  selection : ∀ c, (user (.selection c)).map Subtype.val = val (.selection c)

omit [DecidableEq S] [DecidableEq C] in
theorem settled_settled (rev weak own : Tri) :
    settled rev weak .bool (settled rev weak .bool own) = settled rev weak .bool own := by
  revert rev weak own
  decide

/-! ### What is written with a symbol that is visible -/

section

omit [DecidableEq S] [DecidableEq C]

theorem eval_implied_write (s : S) : ((m.implied s true).eval user val).2 = true := by
  have hdefault : ((m.defaultTri s true).eval user val).2 = true := by
    rw [defaultTri, Query.eval_bind]
    split
    · rfl
    · rw [Query.eval_bind]
      rfl
  rw [implied, Query.eval_bind, Query.eval_bind, eval_exprVal]
  split
  · rw [Query.eval_bind]
    split
    · rfl
    · exact hdefault
  · exact hdefault

theorem eval_ownTri_write {s : S} {vis : Tri} (hvis : vis ≠ 0) :
    ((m.ownTri s vis).eval user val).2 = true := by
  rw [ownTri, if_pos hvis, Query.eval_bind]
  split
  · rfl
  · exact eval_implied_write s

theorem eval_textDefault_write (s : S) (range : Option (Int × Int)) :
    ((m.textDefault s true range).eval user val).2 = true := by
  rw [textDefault, Query.eval_bind]
  split
  · rfl
  · rw [Query.eval_bind]
    rfl

/-- The value of a number that is visible, from its default. -/
def takeNumber (type : SymType) (range : Option (Int × Int)) (default : List Char × Bool) :
    Option UserValue → List Char × Bool
  | some (.str v) => if v ≠ [] ∧ inRange range (numOf type v) then (v, true) else default
  | _ => default

/-- The value of a string that is visible, from its default. -/
def takeString (default : List Char × Bool) : Option UserValue → List Char × Bool
  | some (.str v) => (v, true)
  | _ => default

theorem eval_numValue (s : S) {vis : Tri} (hvis : vis ≠ 0) : (m.numValue s vis).eval user val =
    takeNumber (m.sym s).origType ((m.range s).eval user val)
      ((m.textDefault s true ((m.range s).eval user val)).eval user val) (user (.value s)) := by
  have hread : (m.userValue s).eval user val = user (.value s) := rfl
  rw [numValue, Query.eval_bind, if_pos hvis, Query.eval_bind, hread]
  rcases user (.value s) with _ | v | v
  · rfl
  · rfl
  · rw [takeNumber]
    dsimp only
    split
    · rfl
    · rfl

theorem eval_stringValue (s : S) {vis : Tri} (hvis : vis ≠ 0) :
    (m.stringValue s vis).eval user val =
      takeString ((m.textDefault s true none).eval user val) (user (.value s)) := by
  have hread : (m.userValue s).eval user val = user (.value s) := rfl
  rw [stringValue, if_pos hvis, Query.eval_bind, hread]
  rcases user (.value s) with _ | v | v
  · rfl
  · rfl
  · rfl

/-- A number that is set to what it is: it is what the user has set, and valid, or the default. -/
theorem takeNumber_again {type : SymType} (range : Option (Int × Int))
    {default : List Char × Bool} (hdefault : default.2 = true) {user : Option UserValue}
    (hvalid : ∀ v, user = some v → v.isValid type = true) :
    takeNumber type range default
      (if (UserValue.str (takeNumber type range default user).1).isValid type then
        some (.str (takeNumber type range default user).1) else none) =
      takeNumber type range default user := by
  have hagain : takeNumber type range default
      (if (UserValue.str default.1).isValid type then some (.str default.1) else none) =
      default := by
    split
    · rw [takeNumber]
      split
      · exact Prod.ext rfl hdefault.symm
      · rfl
    · rfl
  rcases user with _ | v | v
  · exact hagain
  · exact hagain
  · by_cases hin : v ≠ [] ∧ inRange range (numOf type v) = true
    · have hv : takeNumber type range default (some (.str v)) = (v, true) := if_pos hin
      rw [hv, if_pos (hvalid _ rfl)]
      exact hv
    · have hv : takeNumber type range default (some (.str v)) = default := if_neg hin
      rw [hv]
      exact hagain

theorem takeNumber_write {type : SymType} {range : Option (Int × Int)}
    {default : List Char × Bool} (hdefault : default.2 = true) (user : Option UserValue) :
    (takeNumber type range default user).2 = true := by
  rcases user with _ | v | v
  · exact hdefault
  · exact hdefault
  · rw [takeNumber]
    split
    · rfl
    · exact hdefault

theorem takeString_write {default : List Char × Bool} (hdefault : default.2 = true)
    (user : Option UserValue) : (takeString default user).2 = true := by
  rcases user with _ | v | v
  · exact hdefault
  · exact hdefault
  · rfl

end

omit [DecidableEq S] [DecidableEq C] in
theorem eval_textValue (s : S) : (m.textValue s).eval user val =
    if (m.sym s).origType = .string then (m.stringValue s (visOf val (.sym s))).eval user val
    else (m.numValue s (visOf val (.sym s))).eval user val := by
  rw [textValue, Query.eval_bind]
  split
  · rfl
  · rfl

omit [DecidableEq S] [DecidableEq C] in
theorem eval_textValue_write {s : S} (hvis : visOf val (.sym s) ≠ 0) :
    ((m.textValue s).eval user val).2 = true := by
  rw [eval_textValue]
  split
  · rw [eval_stringValue s hvis]
    exact takeString_write (eval_textDefault_write s none) _
  · rw [eval_numValue s hvis]
    exact takeNumber_write (eval_textDefault_write s _) _

/-! ### One property -/

section

variable (h : m.Solves user val) (hm : m.Plainly) (hoff : m.modulesOn val = false)
  (hrec : m.Recorded user' val)

include h hm hoff

variable (user') in
omit [DecidableEq C] in
theorem Solves.same_choiceTri (c : C) : Same user user' val (m.choiceTri c) := by
  have hvis := h.vis_choice_ne_one hoff c
  exact (modeOf_eq_vis hm hoff hvis user').trans (modeOf_eq_vis hm hoff hvis user).symm

include hrec

omit [DecidableEq C] in
/-- A symbol in no choice that is set to its value. The selects and the promotion of `m` have no
effect on it any more. -/
theorem Solves.same_triValue_plain {s : S} (hs : m.Plain s) :
    Same user user' val (m.triValue s) := by
  have hmode := h.same_choiceTri user' hm hoff
  rw [Same, eval_triValue_plain hs, eval_triValue_plain hs, eval_plainTri, eval_plainTri,
    valuesOf_same hmode, same_symType hmode s]
  by_cases hvis : visOf val (.sym s) = 0
  · have hown : Same user user' val (m.ownTri s 0) := same_implied hmode s false
    rw [hvis, hown]
  · have htwo : visOf val (.sym s) = 2 := by
      have hne := h.vis_sym_ne_one hoff s
      revert hvis hne
      generalize visOf val (.sym s) = vis
      revert vis
      decide
    have hbool : (m.symType s).eval user val = .bool := by
      refine (symType_cases hs.type).resolve_right ?_
      rw [eval_symType_eq_tristate, hoff]
      simp
    have hval := h.tri_plain hs
    rw [hbool] at hval
    have hset : user' (.value s) = some (.tri (triOf val s)) := by
      have hown : m.ownValue val s = .tri (triOf val s) := if_pos hs.type
      have hvalid : (UserValue.tri (triOf val s)).isValid (m.sym s).origType = true := by
        have hne : triOf val s ≠ 1 := hval ▸ settled_ne_one _ _ _
        have htype := hs.type
        cases horig : (m.sym s).origType
        all_goals simp [horig, SymType.isTri, UserValue.isValid, hne] at htype ⊢
      rw [hrec.value s hs.defined hvis, hown, if_pos hvalid]
    have hmin : ∀ v : Tri, min v 2 = v := by decide
    rw [eval_ownTri hvis hset, htwo, hmin, hbool, eval_ownTri_write (by decide)]
    dsimp only
    rw [hval, htwo, settled_settled]

omit hm hrec [DecidableEq C] in
theorem Solves.same_triValue_choice {s : S} {c : C} (hs : (m.sym s).choice = some c) :
    Same user user' val (m.triValue s) := by
  rw [Same, triValue, m.fixed_of_defined (m.defined_of_choice hs)]
  dsimp only
  split
  · rw [Query.eval_bind, Query.eval_bind, hs]
    dsimp only
    show (if visOf val (.sym s) = 2 then _ else _ : m.Ask (Tri × Bool)).eval user' val =
      (if visOf val (.sym s) = 2 then _ else _ : m.Ask (Tri × Bool)).eval user val
    split
    · rfl
    next hne =>
      have hone := h.vis_sym_ne_one hoff s
      have hzero : visOf val (.sym s) = 0 := by
        revert hne hone
        generalize visOf val (.sym s) = vis
        revert vis
        decide
      have hget : ∀ inp, (m.vis (.sym s)).eval inp val = 0 := fun _ => hzero
      rw [hget, hget]
      rfl
  · rfl

omit [DecidableEq C] in
theorem Solves.same_triValue (s : S) : Same user user' val (m.triValue s) := by
  cases hfixed : (m.sym s).fixed with
  | some v =>
    rw [Same, triValue, hfixed]
    rfl
  | none =>
    cases htype : (m.sym s).origType.isTri with
    | false =>
      rw [Same, triValue, hfixed, htype]
      rfl
    | true =>
      have hdefined : s ∈ m.definedSyms := by
        by_contra hs
        rw [m.origType_of_undefined hs hfixed] at htype
        cases htype
      cases hchoice : (m.sym s).choice with
      | none => exact h.same_triValue_plain hm hoff hrec ⟨htype, hdefined, hchoice⟩
      | some c => exact h.same_triValue_choice hoff hchoice

omit hm hoff hrec [DecidableEq C] in
theorem Solves.str_text {s : S} (htri : (m.sym s).origType.isTri = false)
    (hknown : (m.sym s).origType ≠ .unknown) : val (.str s) =
      (((m.textValue s).eval user val).1,
        ((m.textValue s).eval user val).2 && !(m.sym s).hidden) := by
  rw [← h (.str s)]
  show (m.strValue s).eval user val = _
  rw [strValue, htri, if_neg (by simp), if_neg hknown, Query.eval_bind]
  rfl

omit [DecidableEq C] in
/-- A symbol with a text as its value. A number that is out of range by now has its default. -/
theorem Solves.same_textValue {s : S} (hs : s ∈ m.definedSyms)
    (htri : (m.sym s).origType.isTri = false) (hknown : (m.sym s).origType ≠ .unknown)
    (hvalid : ∀ v, user (.value s) = some v → v.isValid (m.sym s).origType = true) :
    Same user user' val (m.textValue s) := by
  have hmode := h.same_choiceTri user' hm hoff
  -- what the symbol is set to is its text
  have htext : m.ownValue val s = .str ((m.textValue s).eval user val).1 := by
    rw [ownValue, if_neg (by simp [htri]), h.str_text htri hknown]
  rw [Same]
  by_cases hvis : visOf val (.sym s) = 0
  · rw [eval_textValue, eval_textValue, hvis]
    split
    · exact same_textDefault hmode s false none
    · exact (same_range hmode s).bind fun range => same_textDefault hmode s false range
  · have hset := hrec.value s hs hvis
    rw [htext] at hset
    rw [eval_textValue] at hset ⊢
    rw [eval_textValue]
    split
    next htype =>
      rw [if_pos htype, htype] at hset
      rw [eval_stringValue s hvis, hset, eval_stringValue s hvis]
      exact Prod.ext rfl (takeString_write (eval_textDefault_write s none) _).symm
    next htype =>
      rw [if_neg htype] at hset
      rw [eval_numValue s hvis, hset, same_range hmode s, same_textDefault hmode s,
        eval_numValue s hvis]
      exact takeNumber_again _ (eval_textDefault_write s _) hvalid

omit [DecidableEq C] in
/-- A choice whose selection is set, if it has one. -/
theorem Solves.same_selectionOf (c : C) : Same user user' val (m.selectionOf c) := by
  have hmode := h.same_choiceTri user' hm hoff
  have hsame : m.modeOf user' val c = m.modeOf user val c := hmode c
  have hval : (m.selectionOf c).eval user val = val (.selection c) := h (.selection c)
  rw [Same, hval, eval_selectionOf, hsame, same_selectionFromDefaults hmode c]
  by_cases htwo : m.modeOf user val c = 2
  · rw [if_neg (not_not.mpr htwo)]
    have hset := hrec.selection c
    cases hsel : val (.selection c) with
    | none =>
      rw [hsel, Option.map_eq_none_iff] at hset
      rw [hset]
      by_contra hne
      obtain ⟨s, hs⟩ := Option.ne_none_iff_exists'.mp hne
      obtain ⟨hmem, hvis⟩ := of_selectionFromDefaults hs
      have hsome := h.selection_isSome htwo hmem hvis
      rw [hsel] at hsome
      cases hsome
    | some s =>
      rw [hsel] at hset
      obtain ⟨t, ht, rfl⟩ := Option.map_eq_some_iff.mp hset
      rw [ht]
      exact if_pos (h.of_selection hsel).2.2
  · rw [if_pos htwo, h.selection c, if_pos htwo]

omit [DecidableEq C] in
theorem Solves.same_strValue (s : S)
    (hvalid : ∀ v, user (.value s) = some v → v.isValid (m.sym s).origType = true) :
    Same user user' val (m.strValue s) := by
  cases htri : (m.sym s).origType.isTri with
  | true =>
    rw [Same, strValue, htri]
    rfl
  | false =>
    by_cases hknown : (m.sym s).origType = .unknown
    · rw [Same, strValue, htri, if_neg (by simp), if_pos hknown]
      rfl
    · have hdefined : s ∈ m.definedSyms := by
        by_contra hs
        cases hfixed : (m.sym s).fixed with
        | none => exact hknown (m.origType_of_undefined hs hfixed)
        | some v =>
          rw [(m.fixed_constant s (by simp [hfixed])).2] at htri
          cases htri
      have htext := h.same_textValue hm hoff hrec hdefined htri hknown hvalid
      rw [strValue, htri, if_neg (by simp), if_neg hknown]
      exact htext.bind fun _ => rfl

omit [DecidableEq C] in
/-- **The values stay** when they are set, and everything else that the user has set is gone.
This is proved for one property after the other. -/
theorem Solves.of_recorded (hvalid : m.Valid user) : m.Solves user' val := by
  have hmode := h.same_choiceTri user' hm hoff
  intro k
  rw [← h k]
  match k with
  | .vis (.sym s) => exact same_symVisibility hmode s
  | .vis (.choice c) => exact same_choiceVisibility hmode c
  | .tri s => exact h.same_triValue hm hoff hrec s
  | .str s => exact h.same_strValue hm hoff hrec s (hvalid s)
  | .assignable (.sym s) => exact same_symAssignable hmode s
  | .assignable (.choice c) => exact same_choiceAssignable c
  | .selection c => exact h.same_selectionOf hm hoff hrec c

end

end Kconfig

end Jhalfs.Menu
