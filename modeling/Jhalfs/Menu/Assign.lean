import Jhalfs.Menu.Values

/-!
# What can be set

`assignable` tells the user which values a symbol or a choice can be set to
(src/menu/kconfiglib.py). Here it is compared with what is read after `set_value`, in any state.

What the visibility and the selects of an item are computed from has a lower rank than the
value of the item, so it is as before when the item is set (`Solves.before`). Two solutions
with the same inputs are the same (`Solves.unique`), so the values after the call are known as
soon as they solve the equations.

- `Plain`: a symbol with a tristate value that is in no choice.
- `settled`: the selects and the promotion of `m`, on the value before them.
- `assignableTable`: `_assignable` as a table of the visibility, the selects and the implies.
- `Overruled`: the case that it gets wrong, an imply of `y` beside a select of `m`, when the user
  sees `m` at most.

**Main results**:

- `assignable_of_reachable`: a value is assignable when the symbol takes it, but for a symbol that
  is overruled.
- `setValue_invisible`: setting a symbol that is not visible changes nothing.
- `choiceAssignable_of_reachable`: the modes that are assignable are those the choice takes.
- `select_of_reachable`: a visible symbol that is set to `y` is the one that is `y`.
-/

namespace Jhalfs.Menu

open Memo

variable {S C : Type} [DecidableEq S] [DecidableEq C]

namespace Kconfig

variable {m : Kconfig S C} {rank : Item S C → Nat} {user user' : Inputs m.InputVal}
  {val val' : ∀ k : Key S C, k.Val}

/-! ## What is as before -/

omit [DecidableEq C] in
/-- What is computed without the inputs that change is as before. -/
theorem Solves.before (hrank : m.Layered rank) (h : m.Solves user val)
    (h' : m.Solves user' val') {n : Nat}
    (hinputs : ∀ k i, m.keyRank rank k < n → m.AsksInput k i → user i = user' i) (k : Key S C)
    (hk : m.keyRank rank k < n) : val k = val' k :=
  solution_congr (fun k hk => (m.all_body k).imp (fun _ hj => keyRank_lt_of_asks hrank hj)
    fun i hi => hinputs k i hk hi) h h' k hk

omit [DecidableEq C] in
/-- Two solutions with the same inputs are the same. -/
theorem Solves.unique (hrank : m.Layered rank) (h : m.Solves user val)
    (h' : m.Solves user val') : val = val' :=
  funext fun k => h.before hrank h' (fun _ _ _ _ => rfl) k (Nat.lt_succ_self _)

/-- The values of a state, when others solve the same equations. -/
theorem Shows.eq_of_solves (hrank : m.Layered rank) {st : m.State} (h : m.Shows st val)
    (h' : m.Solves st.user val') : val = val' := h.solves.unique hrank h'

/-! ## A symbol that is in no choice -/

/-- What the value of a symbol is computed from, besides what the user has set: its visibility, its
selects and implies, and its type. All of it is as before when the symbol is set. -/
structure Frame (m : Kconfig S C) (s : S) (user user' : Inputs m.InputVal)
    (val val' : ∀ k : Key S C, k.Val) : Prop where
  vis : visOf val' (.sym s) = visOf val (.sym s)
  rev : exprValue (m.valuesOf user' val') (m.sym s).revDep =
    exprValue (m.valuesOf user val) (m.sym s).revDep
  weak : exprValue (m.valuesOf user' val') (m.sym s).weakRevDep =
    exprValue (m.valuesOf user val) (m.sym s).weakRevDep
  type : (m.symType s).eval user' val' = (m.symType s).eval user val

theorem Solves.frame (hrank : m.Layered rank) (h : m.Solves user val) {s : S}
    (hs : s ∈ m.definedSyms) {v : Option UserValue}
    (h' : m.Solves (Function.update user (.value s) v) val') :
    m.Frame s user (Function.update user (.value s) v) val val' := by
  have hval : ∀ k, m.keyRank rank k < m.keyRank rank (.tri s) → val k = val' k := by
    refine fun k hk => h.before hrank h' (fun k i hk hi => ?_) k hk
    refine (Function.update_of_ne ?_ _ _).symm
    rintro rfl
    rcases hi with rfl | rfl
    · exact absurd hk (lt_irrefl _)
    · simp [keyRank, level, Key.item, Key.stage] at hk
  have hlt : ∀ {j}, m.AsksKey (.tri s) j → m.keyRank rank j < m.keyRank rank (.tri s) :=
    fun hj => keyRank_lt_of_asks hrank hj
  have hlooks : m.Looks (.tri s) := Or.inl hs
  have hallows : m.Allows (.sym s) (fun k => m.keyRank rank k < m.keyRank rank (.tri s))
      fun i => i ≠ .value s :=
    ⟨fun t ht => ⟨hlt (Or.inl ⟨hlooks, ht⟩), hlt ⟨hlooks, ht⟩⟩,
      fun c hc => ⟨hlt (Or.inl ⟨hlooks, hc⟩), by simp⟩,
      fun hm => hlt (Or.inr (Or.inl ⟨hlooks, hm, rfl⟩))⟩
  have hcongr : ∀ {A : Type} {q : m.Ask A}, q.All (fun k => m.keyRank rank k <
      m.keyRank rank (.tri s)) (fun i => i ≠ .value s) →
      q.eval (Function.update user (.value s) v) val' = q.eval user val := fun hq =>
    (Query.eval_congr hq hval fun i hi => (Function.update_of_ne hi _ _).symm).symm
  have hvis : m.AsksKey (.tri s) (.vis (.sym s)) := Or.inl rfl
  refine ⟨(hval _ (hlt hvis)).symm, ?_, ?_, hcongr hallows.symType⟩
  · rw [← eval_exprVal, ← eval_exprVal]
    exact hcongr hallows.revDep
  · rw [← eval_exprVal, ← eval_exprVal]
    exact hcongr hallows.weakRevDep

/-- A symbol with a tristate value that is in no choice. -/
structure Plain (m : Kconfig S C) (s : S) : Prop where
  type : (m.sym s).origType.isTri = true
  defined : s ∈ m.definedSyms
  choice : (m.sym s).choice = none

/-- The promotion of `m`, and the selects. -/
def settled (rev weak : Tri) (type : SymType) (own : Tri) : Tri :=
  let val := if rev ≠ 0 then max rev own else own
  if val = 1 ∧ (type = .bool ∨ weak = 2) then 2 else val

omit [DecidableEq S] [DecidableEq C] in
theorem eval_noM (s : S) : (m.noM s).eval user val = decide ((m.symType s).eval user val = .bool ∨
    exprValue (m.valuesOf user val) (m.sym s).weakRevDep = 2) := by
  rw [noM, Query.eval_bind]
  split
  next h => simp [h]
  next h =>
    rw [Query.eval_bind, eval_exprVal]
    simp [h]

omit [DecidableEq S] [DecidableEq C] in
theorem eval_selected (s : S) (own : Tri × Bool) : (m.selected s own).eval user val =
    (if exprValue (m.valuesOf user val) (m.sym s).revDep ≠ 0 then
      max (exprValue (m.valuesOf user val) (m.sym s).revDep) own.1 else own.1,
      exprValue (m.valuesOf user val) (m.sym s).revDep ≠ 0 || own.2) := by
  rw [selected, Query.eval_bind, eval_exprVal]
  by_cases hrev : exprValue (m.valuesOf user val) (m.sym s).revDep = 0
  · rw [if_neg (not_not.mpr hrev), if_neg (not_not.mpr hrev), hrev]
    simp
  · rw [if_pos hrev, if_pos hrev, Query.eval_bind]
    simp [hrev]

omit [DecidableEq S] [DecidableEq C] in
/-- The value and the flag of a symbol, from those before the selects. -/
theorem eval_plainTri (s : S) (vis : Tri) : (m.plainTri s vis).eval user val =
    (settled (exprValue (m.valuesOf user val) (m.sym s).revDep)
      (exprValue (m.valuesOf user val) (m.sym s).weakRevDep) ((m.symType s).eval user val)
      ((m.ownTri s vis).eval user val).1,
    exprValue (m.valuesOf user val) (m.sym s).revDep ≠ 0 ||
      ((m.ownTri s vis).eval user val).2) := by
  rw [plainTri, Query.eval_bind, Query.eval_bind, eval_selected, settled]
  generalize (if exprValue (m.valuesOf user val) (m.sym s).revDep ≠ 0 then
    max (exprValue (m.valuesOf user val) (m.sym s).revDep)
      ((m.ownTri s vis).eval user val).1 else ((m.ownTri s vis).eval user val).1) = v
  show (if v = 1 then m.noM s >>= fun no => (pure (if no then 2 else v, _) : m.Ask (Tri × Bool))
    else pure (v, _)).eval user val = _
  split
  next hone =>
    rw [Query.eval_bind, eval_noM, hone]
    simp
  next hne => rw [if_neg fun hboth => hne hboth.1]; rfl

omit [DecidableEq C] in
theorem eval_triValue_plain {s : S} (hs : m.Plain s) :
    (m.triValue s).eval user val = (m.plainTri s (visOf val (.sym s))).eval user val := by
  rw [triValue, m.fixed_of_defined hs.defined]
  dsimp only
  rw [if_pos hs.type, Query.eval_bind, hs.choice]
  rfl

omit [DecidableEq C] in
/-- The value of a symbol, from its value before the selects. -/
theorem Solves.tri_plain (h : m.Solves user val) {s : S} (hs : m.Plain s) :
    triOf val s = settled (exprValue (m.valuesOf user val) (m.sym s).revDep)
      (exprValue (m.valuesOf user val) (m.sym s).weakRevDep) ((m.symType s).eval user val)
      ((m.ownTri s (visOf val (.sym s))).eval user val).1 := by
  show (val (.tri s)).1 = _
  rw [← h (.tri s)]
  show ((m.triValue s).eval user val).1 = _
  rw [eval_triValue_plain hs, eval_plainTri]

omit [DecidableEq S] [DecidableEq C] in
theorem eval_ownTri {s : S} {v vis : Tri} (hvis : vis ≠ 0)
    (huser : user (.value s) = some (.tri v)) :
    (m.ownTri s vis).eval user val = (min v vis, true) := by
  have hread : (m.userValue s).eval user val = some (.tri v) := huser
  rw [ownTri, if_pos hvis, Query.eval_bind, hread]
  rfl

/-! ## What is assignable -/

omit [DecidableEq S] [DecidableEq C] in
/-- What is not tristate is `bool`. -/
theorem symType_cases {s : S} (hs : (m.sym s).origType.isTri = true) :
    (m.symType s).eval user val = .bool ∨ (m.symType s).eval user val = .tristate := by
  have hmodules : (m.modulesType).eval user val = .bool ∨
      (m.modulesType).eval user val = .tristate := by
    rw [eval_modulesType]
    cases m.modulesOn val
    · exact Or.inl rfl
    · exact Or.inr rfl
  rw [symType]
  split
  next htri =>
    cases (m.sym s).choice with
    | none => exact hmodules
    | some c =>
      show (m.choiceTri c >>= _).eval user val = _ ∨ (m.choiceTri c >>= _).eval user val = _
      rw [Query.eval_bind]
      split
      · exact Or.inl rfl
      · exact hmodules
  next htri =>
    simp only [SymType.isTri, htri, Bool.or_false, decide_eq_true_eq, decide_false] at hs
    exact Or.inl hs

omit [DecidableEq C] in
/-- A symbol that is seen at `m` is tristate. -/
theorem Solves.symType_of_vis (h : m.Solves user val) {s : S} (hvis : visOf val (.sym s) = 1) :
    (m.symType s).eval user val = .tristate := by
  rw [h.vis_sym s] at hvis
  split at hvis
  · exact absurd hvis (by decide)
  · split at hvis
    · exact absurd hvis (by decide)
    next hnot => exact not_not.mp fun hne => hnot ⟨hvis, hne⟩

/-- `_assignable`, as a table. -/
def assignableTable (vis rev weak : Tri) (noM : Bool) : List Tri :=
  if vis = 0 then []
  else if vis = 2 then
    if rev = 0 then if noM then [0, 2] else [0, 1, 2]
    else if rev = 2 then [2]
    else if noM then [2] else [1, 2]
  else if rev = 0 then if weak ≠ 2 then [0, 1] else [0, 2]
  else if rev = 2 then [2]
  else [1]

omit [DecidableEq C] in
theorem Solves.assignable_sym (h : m.Solves user val) {s : S} (hs : m.Plain s) :
    val (.assignable (.sym s)) = assignableTable (visOf val (.sym s))
      (exprValue (m.valuesOf user val) (m.sym s).revDep)
      (exprValue (m.valuesOf user val) (m.sym s).weakRevDep)
      (decide ((m.symType s).eval user val = .bool ∨
        exprValue (m.valuesOf user val) (m.sym s).weakRevDep = 2)) := by
  rw [← h (.assignable (.sym s))]
  show (m.symAssignable s).eval user val = _
  rw [symAssignable, if_pos hs.type, Query.eval_bind, hs.choice, assignableTable]
  show (if visOf val (.sym s) = 0 then (pure [] : m.Ask (List Tri)) else _).eval user val = _
  split
  · rfl
  · rw [Query.eval_bind, eval_exprVal]
    show (if visOf val (.sym s) = 2 then _ else _ : m.Ask (List Tri)).eval user val = _
    split
    · rw [if_neg (by simp)]
      split
      · rw [Query.eval_bind, eval_noM]
        rfl
      · split
        · rfl
        · rw [Query.eval_bind, eval_noM]
          rfl
    · split
      · rw [Query.eval_bind, eval_exprVal]
        rfl
      · split
        · rfl
        · rfl

/-- The case that `assignable` gets wrong: it names `y` because of an imply, but a symbol that
is seen and selected at `m` becomes `m` when it is set. -/
def Overruled (m : Kconfig S C) (user : Inputs m.InputVal) (val : ∀ k : Key S C, k.Val) (s : S) :
    Prop :=
  visOf val (.sym s) = 1 ∧ exprValue (m.valuesOf user val) (m.sym s).revDep = 1 ∧
    exprValue (m.valuesOf user val) (m.sym s).weakRevDep = 2

theorem settled_ne_one (rev weak own : Tri) : settled rev weak .bool own ≠ 1 := by
  revert rev weak own
  decide

/-- The table, against what a symbol is worth when it is set. -/
theorem mem_assignableTable {vis : Tri} (rev weak : Tri) {type : SymType} (hvis : vis ≠ 0)
    (htype : type = .bool ∨ type = .tristate) (hone : vis = 1 → type = .tristate) :
    (∀ v, v ∈ assignableTable vis rev weak (decide (type = .bool ∨ weak = 2)) ↔
      settled rev weak type (min v vis) = v) ↔ ¬ (vis = 1 ∧ rev = 1 ∧ weak = 2) := by
  rcases htype with rfl | rfl
  · have hvis : vis = 2 := by
      have hne : vis ≠ 1 := fun h => absurd (hone h) (by decide)
      revert hvis hne vis
      decide
    subst hvis
    revert rev weak
    decide
  · clear hone
    revert hvis vis rev weak
    decide

theorem user_setValue {s : S} (hs : (m.sym s).choice = none) {v : Tri}
    (hvalid : (UserValue.tri v).isValid (m.sym s).origType = true) (st : m.State) :
    (m.setValue s (.tri v) st).user = Function.update st.user (.value s) (some (.tri v)) := by
  rw [setValue]
  split
  next h =>
    rw [← h.1, Function.update_eq_self]
  · rw [UserValue.convert, if_pos hvalid]
    dsimp only
    split
    next c hc =>
      rw [hs] at hc
      cases hc
    · rfl

theorem setValue_of_invalid {s : S} {v : Tri}
    (hvalid : (UserValue.tri v).isValid (m.sym s).origType = false) (st : m.State) :
    m.setValue s (.tri v) st = st := by
  rw [setValue, UserValue.convert, hvalid]
  simp

/-- Only the value of the symbol is set when the symbol is in no choice. -/
theorem user_setValue_of_ne {s : S} (hs : (m.sym s).choice = none) (value : UserValue)
    (st : m.State) {i : Input S C} (hi : i ≠ .value s) :
    (m.setValue s value st).user i = st.user i := by
  rw [setValue]
  split
  · rfl
  · split
    · dsimp only
      split
      next c hc =>
        rw [hs] at hc
        cases hc
      · exact Function.update_of_ne hi _ _
    · rfl

/-- What a symbol is worth when it is set. -/
theorem Shows.tri_setValue (hrank : m.Layered rank) {st : m.State} {s : S} (hs : m.Plain s)
    (hval : m.Shows st val) (hvis : visOf val (.sym s) ≠ 0) {v : Tri}
    (hval' : m.Shows (m.setValue s (.tri v) st) val') :
    triOf val' s = v ↔ settled (exprValue (m.valuesOf st.user val) (m.sym s).revDep)
      (exprValue (m.valuesOf st.user val) (m.sym s).weakRevDep)
      ((m.symType s).eval st.user val) (min v (visOf val (.sym s))) = v := by
  cases hvalid : (UserValue.tri v).isValid (m.sym s).origType with
  | false =>
    -- `m` for a symbol that is `bool`: nothing is set, and the symbol is not `m`
    have hm : v = 1 ∧ (m.sym s).origType = .bool := by
      have htype := hs.type
      cases horig : (m.sym s).origType
      all_goals simp [horig, SymType.isTri, UserValue.isValid] at htype hvalid ⊢
      exact hvalid
    have hbool : (m.symType s).eval st.user val = .bool := by
      rw [symType, if_neg (by simp [hm.2]), hm.2]
      rfl
    rw [setValue_of_invalid hvalid] at hval'
    rw [hval'.unique hval, hval.solves.tri_plain hs, hbool, hm.1]
    exact ⟨fun h => absurd h (settled_ne_one _ _ _), fun h => absurd h (settled_ne_one _ _ _)⟩
  | true =>
    have hsolves := hval'.solves
    rw [user_setValue hs.choice hvalid] at hsolves
    have hframe := hval.solves.frame hrank hs.defined hsolves
    rw [hsolves.tri_plain hs, hframe.rev, hframe.weak, hframe.type, hframe.vis,
      eval_ownTri hvis (Function.update_self _ _ _)]

/-- **What `assignable` is** for a symbol that is visible: the values it takes when they are set,
in every state, if and only if it is not overruled. -/
theorem assignable_of_reachable (hrank : m.Layered rank) {st : m.State} (h : m.Reachable st)
    {s : S} (hs : m.Plain s) (hval : m.Shows st val) (hvis : visOf val (.sym s) ≠ 0) :
    (∀ v val', m.Shows (m.setValue s (.tri v) st) val' →
      (v ∈ val (.assignable (.sym s)) ↔ triOf val' s = v)) ↔ ¬ m.Overruled st.user val s := by
  rw [Overruled, ← mem_assignableTable _ _ hvis (symType_cases hs.type)
    hval.solves.symType_of_vis, hval.solves.assignable_sym hs]
  constructor
  · intro hall v
    obtain ⟨val', hval'⟩ := exists_shows hrank (h.step (.setValue s (.tri v)))
    exact (hall v val' hval').trans (hval.tri_setValue hrank hs hvis hval')
  · intro hall v val' hval'
    exact (hall v).trans (hval.tri_setValue hrank hs hvis hval').symm

theorem blfsTool_plain : bookMenu.Plain .blfsTool := ⟨rfl, by simp [bookMenu], rfl⟩

/-- `BLFS_TOOL`, after the parsing. -/
theorem blfsTool_assignable : ∃ val, bookMenu.Shows bookMenu.start val ∧
    ((∀ v val', bookMenu.Shows (bookMenu.setValue .blfsTool (.tri v) bookMenu.start) val' →
      (v ∈ val (.assignable (.sym .blfsTool)) ↔ triOf val' .blfsTool = v)) ↔
    ¬ bookMenu.Overruled bookMenu.start.user val .blfsTool) := by
  obtain ⟨val, hval⟩ := exists_shows bookMenu_layered Reachable.start
  refine ⟨val, hval, assignable_of_reachable bookMenu_layered .start blfsTool_plain hval ?_⟩
  have hvis : visOf val (.sym .blfsTool) = 2 := hval.eq_of_compute 20 rfl
  simp [hvis]

/-! ## A symbol that is not visible -/

omit [DecidableEq C] in
/-- What the user sets to a symbol that is not visible is not asked for. -/
theorem Solves.of_invisible (h : m.Solves user val) {s : S} (hvis : visOf val (.sym s) = 0)
    (hother : ∀ i, i ≠ .value s → user' i = user i) : m.Solves user' val := by
  intro k
  rw [← h k]
  refine eval_congr_uses fun i hi => hother i ?_
  rintro rfl
  obtain ⟨-, v, hv, hne⟩ := value_uses hi
  cases hv
  exact hne hvis

/-- **Setting a symbol that is not visible changes nothing** that is read, for any symbol that is
in no choice. -/
theorem setValue_invisible (hrank : m.Layered rank) {st : m.State} {s : S}
    (hs : (m.sym s).choice = none) (hval : m.Shows st val) (hvis : visOf val (.sym s) = 0)
    {value : UserValue} (hval' : m.Shows (m.setValue s value st) val') : val' = val :=
  hval'.eq_of_solves hrank (hval.solves.of_invisible hvis fun _ hi =>
    user_setValue_of_ne hs value st hi)

/-- `BLFS_TOOL`, when it is set in the BLFS book. -/
theorem blfsTool_invisible : ∃ val val',
    bookMenu.Shows (bookMenu.setValue .bookBlfs (.tri 2) bookMenu.start) val ∧
    bookMenu.Shows (bookMenu.setValue .blfsTool (.tri 2)
      (bookMenu.setValue .bookBlfs (.tri 2) bookMenu.start)) val' ∧ val' = val := by
  have hreachable : bookMenu.Reachable (bookMenu.setValue .bookBlfs (.tri 2) bookMenu.start) :=
    .step (.setValue BookSym.bookBlfs (.tri 2)) .start
  obtain ⟨val, hval⟩ := exists_shows bookMenu_layered hreachable
  obtain ⟨val', hval'⟩ :=
    exists_shows bookMenu_layered (hreachable.step (.setValue BookSym.blfsTool (.tri 2)))
  have hvis : visOf val (.sym .blfsTool) = 0 := hval.eq_of_compute 20 rfl
  exact ⟨val, val', hval, hval', setValue_invisible bookMenu_layered rfl hval hvis hval'⟩

/-! ## Choices -/

omit [DecidableEq C] in
/-- The mode is as before when the visibility, `MODULES` and what the user has set are. -/
theorem Solves.choice_frame (hrank : m.Layered rank) (h : m.Solves user val)
    (h' : m.Solves user' val') {c : C} {n : Nat}
    (hn : m.keyRank rank (.vis (.choice c)) < n)
    (hinputs : ∀ k i, m.keyRank rank k < n → m.AsksInput k i → user i = user' i) :
    visOf val' (.choice c) = visOf val (.choice c) ∧
      (m.choiceType c).eval user' val' = (m.choiceType c).eval user val := by
  have hval := h.before hrank h' hinputs
  refine ⟨(hval _ hn).symm, ?_⟩
  refine (Query.eval_congr (all_choiceType fun htri => ?_) hval
    fun i (hi : user i = user' i) => hi).symm
  have hmodules : m.AsksKey (.vis (.choice c)) (.tri m.modules) :=
    Or.inr (Or.inl ⟨Or.inl trivial, Or.inl htri, rfl⟩)
  exact (keyRank_lt_of_asks hrank hmodules).trans hn

omit [DecidableEq C] in
theorem Solves.vis_choice (h : m.Solves user val) (c : C) : visOf val (.choice c) =
    if m.promptOf user val (m.choice c).prompts = 1 ∧
      (m.choiceType c).eval user val ≠ .tristate then 2
    else m.promptOf user val (m.choice c).prompts := by
  show val (.vis (.choice c)) = _
  rw [← h (.vis (.choice c))]
  show (m.choiceVisibility c).eval user val = _
  rw [choiceVisibility, Query.eval_bind, eval_promptVal]
  exact eval_promote _ _

omit [DecidableEq C] in
theorem Solves.assignable_choice (h : m.Solves user val) (c : C) :
    val (.assignable (.choice c)) = if visOf val (.choice c) = 0 then []
      else if visOf val (.choice c) = 2 then
        if (m.choice c).isOptional then
          if (m.choiceType c).eval user val = .bool then [0, 2] else [0, 1, 2]
        else if (m.choiceType c).eval user val = .bool then [2] else [1, 2]
      else if (m.choice c).isOptional then [0, 1] else [1] := by
  rw [← h (.assignable (.choice c))]
  show (m.vis (.choice c) >>= _).eval user val = _
  rw [Query.eval_bind]
  show (if visOf val (.choice c) = 0 then (pure [] : m.Ask (List Tri)) else _).eval user val = _
  split
  · rfl
  · show (if visOf val (.choice c) = 2 then _ else _ : m.Ask (List Tri)).eval user val = _
    split
    · exact Query.eval_bind _ _
    · rfl

omit [DecidableEq S] [DecidableEq C] in
theorem choiceType_cases {c : C} (hc : (m.choice c).origType.isTri = true) :
    (m.choiceType c).eval user val = .bool ∨ (m.choiceType c).eval user val = .tristate := by
  rw [choiceType]
  split
  · rw [eval_modulesType]
    cases m.modulesOn val
    · exact Or.inl rfl
    · exact Or.inr rfl
  next htri =>
    simp only [SymType.isTri, htri, Bool.or_false, decide_eq_true_eq, decide_false] at hc
    exact Or.inl hc

theorem user_setMode {c : C} {v : Tri} (hvalid : isValidMode v (m.choice c).origType = true)
    (st : m.State) :
    (m.setMode c (.tri v) st).user = Function.update st.user (.mode c) (some v) := by
  rw [setMode]
  split
  next h =>
    obtain ⟨w, hw, heq⟩ := Option.map_eq_some_iff.mp h
    cases heq
    rw [← hw, Function.update_eq_self]
  · rw [UserValue.convert]
    dsimp only
    rw [if_pos hvalid]

theorem setMode_of_invalid {c : C} {v : Tri}
    (hvalid : isValidMode v (m.choice c).origType = false) (st : m.State) :
    m.setMode c (.tri v) st = st := by
  rw [setMode, UserValue.convert]
  dsimp only
  rw [hvalid]
  simp

/-- The table of a choice, against the mode it takes. -/
theorem mem_modes {vis : Tri} {type : SymType} (v : Tri) (optional : Bool) (hvis : vis ≠ 0)
    (htype : type = .bool ∨ type = .tristate) (hone : vis = 1 → type = .tristate) :
    (v ∈ if vis = 0 then [] else if vis = 2 then
      if optional = true then if type = .bool then [0, 2] else [0, 1, 2]
      else if type = .bool then [2] else [1, 2]
      else if optional = true then [0, 1] else [1]) ↔
    (if min (max (if optional = true then 0 else 1) v) vis = 1 ∧ type = .bool then 2
      else min (max (if optional = true then 0 else 1) v) vis) = v := by
  rcases htype with rfl | rfl
  · have hvis : vis = 2 := by
      have hne : vis ≠ 1 := fun h => absurd (hone h) (by decide)
      revert hvis hne vis
      decide
    subst hvis
    revert v optional
    decide
  · clear hone
    revert hvis vis v optional
    decide

/-- **What is assignable to a choice** that is visible: the modes it takes when they are set, in
every state. -/
theorem choiceAssignable_of_reachable (hrank : m.Layered rank) {st : m.State} {c : C}
    (hc : (m.choice c).origType.isTri = true) (hval : m.Shows st val)
    (hvis : visOf val (.choice c) ≠ 0) {v : Tri} (hval' : m.Shows (m.setMode c (.tri v) st) val') :
    v ∈ val (.assignable (.choice c)) ↔ m.modeOf (m.setMode c (.tri v) st).user val' c = v := by
  have htype : (m.choiceType c).eval st.user val = .bool ∨
      (m.choiceType c).eval st.user val = .tristate := choiceType_cases hc
  have hone : visOf val (.choice c) = 1 → (m.choiceType c).eval st.user val = .tristate := by
    intro hvis
    rw [hval.solves.vis_choice c] at hvis
    split at hvis
    · exact absurd hvis (by decide)
    next hnot => exact not_not.mp fun hne => hnot ⟨hvis, hne⟩
  rw [hval.solves.assignable_choice c, mem_modes v _ hvis htype hone]
  cases hvalid : isValidMode v (m.choice c).origType with
  | false =>
    -- `m` for a choice that is `bool`
    have hm : v = 1 ∧ (m.choice c).origType = .bool := by
      cases horig : (m.choice c).origType
      all_goals simp [horig, SymType.isTri, isValidMode] at hc hvalid ⊢
      exact hvalid
    have hbool : (m.choiceType c).eval st.user val = .bool := by
      rw [choiceType, if_neg (by simp [hm.2]), hm.2]
      rfl
    have hne : ∀ mode : Tri, (if mode = 1 ∧ SymType.bool = .bool then 2 else mode) ≠ 1 := by
      decide
    rw [setMode_of_invalid hvalid] at hval' ⊢
    rw [hval'.unique hval, modeOf_eq, hbool, hm.1]
    exact ⟨fun h => absurd h (hne _), fun h => absurd h (hne _)⟩
  | true =>
    have hsolves := hval'.solves
    rw [user_setMode hvalid] at hsolves ⊢
    obtain ⟨hframe, htypeEq⟩ := hval.solves.choice_frame hrank hsolves
      (Nat.lt_succ_self (m.keyRank rank (.vis (.choice c)))) fun k i hk hi => by
        refine (Function.update_of_ne ?_ _ _).symm
        rintro rfl
        have hasks : m.AsksKey k (.vis (.choice c)) := hi
        exact absurd (keyRank_lt_of_asks hrank hasks) (Nat.not_lt.mpr (Nat.le_of_lt_succ hk))
    rw [modeOf_eq, hframe, htypeEq, Function.update_self]
    rfl

/-- The choice of the book, when it is set to `y`. -/
theorem bookMenu_choiceAssignable : ∃ val val', bookMenu.Shows bookMenu.start val ∧
    bookMenu.Shows (bookMenu.setMode () (.tri 2) bookMenu.start) val' ∧
    (2 ∈ val (.assignable (.choice ())) ↔
      bookMenu.modeOf (bookMenu.setMode () (.tri 2) bookMenu.start).user val' () = 2) := by
  obtain ⟨val, hval⟩ := exists_shows bookMenu_layered Reachable.start
  obtain ⟨val', hval'⟩ :=
    exists_shows bookMenu_layered (Reachable.start.step (.setMode () (.tri 2)))
  have hvis : visOf val (.choice ()) = 2 := hval.eq_of_compute 20 rfl
  exact ⟨val, val', hval, hval', choiceAssignable_of_reachable bookMenu_layered rfl hval
    (by simp [hvis]) hval'⟩

/-- A symbol of a choice that is set to `y` becomes what the user has selected. -/
theorem user_select {s : S} {c : C} (hs : (m.sym s).choice = some c) {value : UserValue}
    (hvalue : value.convert (m.sym s).origType = .tri 2)
    (hvalid : (UserValue.tri 2).isValid (m.sym s).origType = true) (st : m.State) :
    (m.setValue s value st).user = Function.update (Function.update st.user (.value s)
      (some (.tri 2))) (.selection c) (some ⟨s, m.choice_mem s c hs⟩) := by
  rw [setValue, if_neg (by simp [hs]), hvalue, if_pos hvalid]
  dsimp only
  split
  next c' hc' =>
    have heq : c' = c := Option.some.inj (hc'.symm.trans hs)
    subst heq
    rfl
  next hnone =>
    rw [hs] at hnone
    cases hnone

/-- **A visible symbol that is set to `y`** in a choice in the mode `y` is the one that is `y`,
whatever was selected before. -/
theorem select_of_reachable (hrank : m.Layered rank) {st : m.State} {c : C} (hc : m.Regular c)
    {s : S} (hs : s ∈ (m.choice c).syms) (hval : m.Shows st val)
    (hmode : m.modeOf st.user val c = 2) (hvis : visOf val (.sym s) ≠ 0)
    (hval' : m.Shows (m.setValue s (.tri 2) st) val') :
    triOf val' s = 2 ∧ ∀ t ∈ (m.choice c).syms, t ≠ s → triOf val' t = 0 := by
  have huser : (m.setValue s (.tri 2) st).user = Function.update (Function.update st.user
      (.value s) (some (.tri 2))) (.selection c) (some ⟨s, hs⟩) := by
    have hvalid : (UserValue.tri 2).isValid (m.sym s).origType = true := by
      have htype := hc.symType s hs
      cases horig : (m.sym s).origType
      all_goals simp [horig, SymType.isTri, UserValue.isValid] at htype ⊢
    exact user_select (hc.choice s hs) rfl hvalid st
  have hsolves := hval'.solves
  rw [huser] at hsolves
  -- what the selection is computed from is as before
  have hinputs : ∀ k i, m.keyRank rank k < m.keyRank rank (.selection c) →
      m.AsksInput k i → st.user i = Function.update (Function.update st.user (.value s)
        (some (.tri 2))) (.selection c) (some ⟨s, hs⟩) i := by
    intro k i hk hi
    have hsel : i ≠ .selection c := by
      rintro rfl
      cases hi
      exact lt_irrefl _ hk
    have hvalue : i ≠ .value s := by
      rintro rfl
      have hmember := hrank.member c s hs
      rcases hi with rfl | rfl
      all_goals
        simp only [keyRank, level, Key.item, Key.stage] at hk
        omega
    rw [Function.update_of_ne hsel, Function.update_of_ne hvalue]
  have hasksChoice : m.AsksKey (.selection c) (.vis (.choice c)) := Or.inr (Or.inl rfl)
  have hasksSym : m.AsksKey (.selection c) (.vis (.sym s)) :=
    Or.inr (Or.inr (Or.inr ⟨c, rfl, hs⟩))
  obtain ⟨hframe, htype⟩ := hval.solves.choice_frame hrank hsolves
    (keyRank_lt_of_asks hrank hasksChoice) hinputs
  have hvis' : visOf val' (.sym s) ≠ 0 := by
    have heq := hval.solves.before hrank hsolves hinputs _ (keyRank_lt_of_asks hrank hasksSym)
    rwa [visOf, ← heq]
  have hmode' : m.modeOf (Function.update (Function.update st.user (.value s)
      (some (.tri 2))) (.selection c) (some ⟨s, hs⟩)) val' c = 2 := by
    have hold := hmode
    rw [modeOf_eq] at hold ⊢
    rw [hframe, htype, Function.update_of_ne (by simp), Function.update_of_ne (by simp)]
    exact hold
  have hselection : val' (.selection c) = some s := by
    rw [hsolves.selection c, if_neg (not_not.mpr hmode'), Function.update_self]
    exact if_pos hvis'
  have htri : triOf val' s = 2 := by
    rw [hsolves.tri_choice hc hs, if_pos (((hsolves.vis_cases hc hs).resolve_left hvis').trans
      hmode'), if_pos hselection]
  obtain ⟨t, ht, -, hothers⟩ := (hsolves.modeValues hc).one hmode' ⟨s, hs, hvis'⟩
  have heq : s = t := by
    by_contra hne
    rw [hothers s hs hne] at htri
    exact absurd htri (by decide)
  exact ⟨htri, heq ▸ hothers⟩

/-- The BLFS book, when it is selected. -/
theorem bookBlfs_select : ∃ val, bookMenu.Shows (bookMenu.setValue .bookBlfs (.tri 2)
      bookMenu.start) val ∧ triOf val .bookBlfs = 2 ∧
    ∀ t ∈ (bookMenu.choice ()).syms, t ≠ .bookBlfs → triOf val t = 0 := by
  obtain ⟨val, hval⟩ := exists_shows bookMenu_layered Reachable.start
  obtain ⟨val', hval'⟩ :=
    exists_shows bookMenu_layered (Reachable.start.step (.setValue BookSym.bookBlfs (.tri 2)))
  have hvisChoice : visOf val (.choice ()) = 2 := hval.eq_of_compute 20 rfl
  have hvis : visOf val (.sym .bookBlfs) = 2 := hval.eq_of_compute 20 rfl
  have hmode : bookMenu.modeOf bookMenu.start.user val () = 2 := by
    rw [modeOf_eq, hvisChoice]
    rfl
  exact ⟨val', hval', select_of_reachable bookMenu_layered bookMenu_regular (by simp [bookMenu])
    hval hmode (by simp [hvis]) hval'⟩

end Kconfig

end Jhalfs.Menu
