import Mathlib.Algebra.Order.BigOperators.Group.List
import Mathlib.Algebra.Order.Group.Nat
import Jhalfs.Menu.Kconfig

/-!
# What a property depends on

`_build_dep` (src/menu/kconfiglib.py) collects the items in the properties of a symbol or choice.
The computation of a property asks for more: for the item's own visibility, for the mode of its
choice, for the visibility of the symbols of a choice, and for `MODULES` when something is
tristate. This module says what each computation asks for, whatever the answers are.

- `AsksKey` and `AsksInput`: all that a property can ask for, and `all_body`: it asks for nothing
  else. The properties of a symbol that is not defined ask for next to nothing.
- `Allows`: what belongs to the items of `refs` may be asked for. The lemmas on expressions, and
  then one on each function of the source, are about this.
- `Layered`: a rank of the items, as there is one when the check for dependency loops passes. The
  choice and its symbols have the same rank, and `stage` orders their properties.
- `ranked_body`: with such a rank every property is computed from properties of a lower rank.
- `value_uses`: what the user has set counts only for a symbol that is visible.
- `vis_of_uses`: a property that is kept comes with the visibility of its item, if it has asked
  for anything. For this reason the search of `Menu.Invalidate` may stop at an item whose
  visibility is not cached.
-/

namespace Jhalfs.Menu

open Memo

variable {S C : Type}

/-- The item of a property. -/
def Key.item : Key S C → Item S C
  | vis i | assignable i => i
  | tri s | str s => .sym s
  | selection c => .choice c

namespace Kconfig

variable (m : Kconfig S C)

/-- The items that `_build_dep` looks at. -/
def refs : Item S C → List (Item S C)
  | .sym s => (m.sym s).refs
  | .choice c => (m.choice c).refs

/-- Whether `MODULES` counts. -/
def UsesModules (x : Item S C) : Prop :=
  m.origType x = .tristate ∨ ∃ c, .choice c ∈ m.refs x ∧ (m.choice c).origType = .tristate

/-- A menu has the item. -/
def Defined : Item S C → Prop
  | .sym s => s ∈ m.definedSyms
  | .choice _ => True

/-- The properties that look at the items of `refs`. -/
def Looks (k : Key S C) : Prop := m.Defined k.item ∨ ∃ i, k = .assignable i

/-- The keys that a property can ask for. -/
def AsksKey (k : Key S C) : Key S C → Prop
  | .tri s => (m.Looks k ∧ .sym s ∈ m.refs k.item) ∨
      (m.Looks k ∧ m.UsesModules k.item ∧ s = m.modules) ∨ k = .str s
  | .str s => m.Looks k ∧ .sym s ∈ m.refs k.item
  | .vis (.sym s) => k = .tri s ∨ k = .str s ∨ k = .assignable (.sym s) ∨
      ∃ c, k = .selection c ∧ s ∈ (m.choice c).syms
  | .vis (.choice c) => (m.Looks k ∧ .choice c ∈ m.refs k.item) ∨ k = .selection c ∨
      k = .assignable (.choice c)
  | .selection c => ∃ s, k = .tri s ∧ (m.sym s).choice = some c
  | .assignable _ => False

/-- The inputs that a property can ask for. -/
def AsksInput (k : Key S C) : Input S C → Prop
  | .value s => k = .tri s ∨ k = .str s
  | .mode c => (m.Looks k ∧ .choice c ∈ m.refs k.item) ∨ k = .selection c ∨
      k = .assignable (.choice c)
  | .selection c => k = .selection c

/-! ## What expressions ask for -/

/-- What belongs to the items of `refs` can be asked for. -/
structure Allows (x : Item S C) (p : Key S C → Prop) (r : Input S C → Prop) : Prop where
  sym : ∀ s, .sym s ∈ m.refs x → p (.tri s) ∧ p (.str s)
  choice : ∀ c, .choice c ∈ m.refs x → p (.vis (.choice c)) ∧ r (.mode c)
  modules : m.UsesModules x → p (.tri m.modules)

section

variable {m} {x : Item S C} {p : Key S C → Prop} {r : Input S C → Prop}

theorem all_choiceType {c : C}
    (h : (m.choice c).origType = .tristate → p (.tri m.modules)) : (m.choiceType c).All p r := by
  rw [choiceType]
  split
  next htri => exact Query.all_bind (Query.all_get.mpr (h htri)) fun _ => trivial
  next => trivial

theorem all_choiceTri {c : C} (hvis : p (.vis (.choice c))) (hmode : r (.mode c))
    (h : (m.choice c).origType = .tristate → p (.tri m.modules)) : (m.choiceTri c).All p r := by
  refine Query.all_bind (Query.all_read.mpr hmode) fun user => ?_
  refine Query.all_bind (Query.all_get.mpr hvis) fun vis => ?_
  split
  · exact Query.all_bind (all_choiceType h) fun _ => trivial
  · trivial

namespace Allows

variable (h : m.Allows x p r)
include h

theorem choiceTri {c : C} (hc : .choice c ∈ m.refs x) : (m.choiceTri c).All p r :=
  all_choiceTri (h.choice c hc).1 (h.choice c hc).2 fun htri => h.modules (Or.inr ⟨c, hc, htri⟩)

theorem itemTri {i : Item S C} (hi : i ∈ m.refs x) : (m.itemTri i).All p r := by
  cases i with
  | sym s => exact Query.all_bind (Query.all_get.mpr (h.sym s hi).1) fun _ => trivial
  | choice c => exact h.choiceTri hi

theorem itemStr {i : Item S C} (hi : i ∈ m.refs x) : (m.itemStr i).All p r := by
  cases i with
  | sym s => exact Query.all_bind (Query.all_get.mpr (h.sym s hi).2) fun _ => trivial
  | choice c => exact Query.all_bind (h.choiceTri hi) fun _ => trivial

theorem symToNum {i : Item S C} (hi : i ∈ m.refs x) : (m.symToNum i).All p r := by
  rw [Kconfig.symToNum]
  split
  · exact Query.all_bind (h.itemTri hi) fun _ => trivial
  · exact Query.all_bind (h.itemStr hi) fun _ => trivial

theorem strcmp {a b : Item S C} (ha : a ∈ m.refs x) (hb : b ∈ m.refs x) :
    (m.strcmp a b).All p r :=
  Query.all_bind (h.itemStr ha) fun _ => Query.all_bind (h.itemStr hb) fun _ => trivial

theorem compare {a b : Item S C} (ha : a ∈ m.refs x) (hb : b ∈ m.refs x) :
    (m.compare a b).All p r := by
  rw [Kconfig.compare]
  split
  · exact h.strcmp ha hb
  · refine Query.all_bind (h.symToNum ha) fun v => ?_
    cases v with
    | none => exact h.strcmp ha hb
    | some v =>
      refine Query.all_bind (h.symToNum hb) fun w => ?_
      cases w with
      | none => exact h.strcmp ha hb
      | some w => trivial

theorem exprVal {e : Expr (Item S C)} (he : ∀ i ∈ exprItems e, i ∈ m.refs x) :
    (m.exprVal e).All p r := by
  induction e with
  | item i => exact h.itemTri (he i (by simp [exprItems]))
  | bin op a b iha ihb =>
    have ha := iha fun i hi => he i (by simp [exprItems, hi])
    have hb := ihb fun i hi => he i (by simp [exprItems, hi])
    cases op with
    | and =>
      refine Query.all_bind ha fun v => ?_
      split
      · trivial
      · exact Query.all_bind hb fun _ => trivial
    | or =>
      refine Query.all_bind ha fun v => ?_
      split
      · trivial
      · exact Query.all_bind hb fun _ => trivial
  | not a iha => exact Query.all_bind (iha he) fun _ => trivial
  | rel rel a b =>
    exact Query.all_bind (h.compare (he a (by simp [exprItems])) (he b (by simp [exprItems])))
      fun _ => trivial

theorem firstMet {A : Type} {list : List (A × Expr (Item S C))}
    (hlist : ∀ y ∈ list, ∀ i ∈ exprItems y.2, i ∈ m.refs x) : (m.firstMet list).All p r := by
  induction list with
  | nil => trivial
  | cons y list ih =>
    rw [List.forall_mem_cons] at hlist
    refine Query.all_bind (h.exprVal hlist.1) fun dep => ?_
    split
    · trivial
    · exact ih hlist.2

theorem defaultStr {e : Expr (Item S C)} (he : ∀ i ∈ exprItems e, i ∈ m.refs x) :
    (m.defaultStr e).All p r := by
  cases e with
  | item i => exact h.itemStr (he i (by simp [exprItems]))
  | bin op a b => trivial
  | not a => trivial
  | rel rel a b => trivial

theorem promptVal {prompts : List (Expr (Item S C))}
    (hprompts : ∀ e ∈ prompts, ∀ i ∈ exprItems e, i ∈ m.refs x) (vis : Tri) :
    (m.promptVal vis prompts).All p r := by
  induction prompts generalizing vis with
  | nil => trivial
  | cons e prompts ih =>
    rw [List.forall_mem_cons] at hprompts
    exact Query.all_bind (h.exprVal hprompts.1) fun dep => ih hprompts.2 _

end Allows

/-- What is found in a list is in it. -/
theorem returns_firstMet {A : Type} (list : List (A × Expr (Item S C))) :
    (m.firstMet list).Returns fun o => ∀ y, o = some y → ∃ d ∈ list, d.1 = y.1 := by
  induction list with
  | nil => exact fun _ h => nomatch h
  | cons d list ih =>
    refine Query.returns_bind fun dep => ?_
    split
    · rintro y ⟨⟩
      exact ⟨d, List.mem_cons_self, rfl⟩
    · generalize m.firstMet list = q at ih
      induction q with
      | pure o =>
        intro y hy
        obtain ⟨d', hd', heq⟩ := ih y hy
        exact ⟨d', List.mem_cons_of_mem d hd', heq⟩
      | ask k next ihq => exact fun v => ihq v (ih v)
      | input i next ihq => exact fun v => ihq v (ih v)

theorem all_promote {type : m.Ask SymType} (h : type.All p r) (vis : Tri) :
    (m.promote type vis).All p r := by
  rw [promote]
  split
  · exact Query.all_bind h fun _ => trivial
  · trivial

end

/-! ## What the properties ask for -/

/-- The items of each part of a symbol. -/
theorem mem_refs_sym {s : S} {i : Item S C} : i ∈ m.refs (.sym s) ↔
    (∃ e ∈ (m.sym s).prompts, i ∈ exprItems e) ∨
    (∃ y ∈ (m.sym s).defaults, i ∈ exprItems y.1 ∨ i ∈ exprItems y.2) ∨
    i ∈ exprItems (m.sym s).revDep ∨ i ∈ exprItems (m.sym s).weakRevDep ∨
    (∃ y ∈ (m.sym s).ranges, i = .sym y.1.1 ∨ i = .sym y.1.2 ∨ i ∈ exprItems y.2) ∨
    i ∈ exprItems (m.sym s).directDep := by
  simp [refs, SymDef.refs]

theorem mem_refs_choice {c : C} {i : Item S C} : i ∈ m.refs (.choice c) ↔
    (∃ e ∈ (m.choice c).prompts, i ∈ exprItems e) ∨
    ∃ y ∈ (m.choice c).defaults, i ∈ exprItems y.2 := by
  simp [refs, ChoiceDef.refs]

section

variable {m} {s : S} {p : Key S C → Prop} {r : Input S C → Prop} (h : m.Allows (.sym s) p r)
include h

namespace Allows

theorem modulesType (htri : (m.sym s).origType = .tristate) : m.modulesType.All p r :=
  Query.all_bind (Query.all_get.mpr (h.modules (Or.inl htri))) fun _ => trivial

theorem symType : (m.symType s).All p r := by
  rw [Kconfig.symType]
  split
  next htri =>
    cases hc : (m.sym s).choice with
    | none => exact h.modulesType htri
    | some c =>
      refine Query.all_bind (h.choiceTri (m.choice_ref s c hc)) fun mode => ?_
      split
      · trivial
      · exact h.modulesType htri
  next => trivial

theorem hiddenInChoice (vis : Tri) : (m.hiddenInChoice s vis).All p r := by
  rw [Kconfig.hiddenInChoice]
  cases hc : (m.sym s).choice with
  | none => trivial
  | some c =>
    have hmode := h.choiceTri (m.choice_ref s c hc)
    dsimp only
    split
    · exact Query.all_bind hmode fun _ => trivial
    · split
      · exact Query.all_bind hmode fun _ => trivial
      · trivial

theorem symVisibility : (m.symVisibility s).All p r := by
  have hprompts := h.promptVal (fun e he i hi => m.mem_refs_sym.mpr (Or.inl ⟨e, he, hi⟩)) 0
  refine Query.all_bind hprompts fun vis => ?_
  refine Query.all_bind (h.hiddenInChoice vis) fun hidden => ?_
  split
  · trivial
  · exact all_promote h.symType vis

theorem revDep : (m.exprVal (m.sym s).revDep).All p r :=
  h.exprVal fun i hi => m.mem_refs_sym.mpr (by simp [hi])

theorem weakRevDep : (m.exprVal (m.sym s).weakRevDep).All p r :=
  h.exprVal fun i hi => m.mem_refs_sym.mpr (by simp [hi])

theorem directDep : (m.exprVal (m.sym s).directDep).All p r :=
  h.exprVal fun i hi => m.mem_refs_sym.mpr (by simp [hi])

theorem noM : (m.noM s).All p r := by
  refine Query.all_bind h.symType fun type => ?_
  split
  · trivial
  · exact Query.all_bind h.weakRevDep fun _ => trivial

/-- The defaults, one of which goes on. -/
theorem defaults {A : Type} {f : Option (Expr (Item S C) × Tri) → m.Ask A}
    (hnone : (f none).All p r)
    (hsome : ∀ e dep, (∀ i ∈ exprItems e, i ∈ m.refs (.sym s)) → (f (some (e, dep))).All p r) :
    (m.firstMet (m.sym s).defaults >>= f).All p r := by
  have hmem : ∀ d ∈ (m.sym s).defaults, ∀ i, i ∈ exprItems d.1 ∨ i ∈ exprItems d.2 →
      i ∈ m.refs (.sym s) := fun d hd i hi =>
    m.mem_refs_sym.mpr (Or.inr (Or.inl ⟨d, hd, hi⟩))
  refine Query.all_bind_returns (h.firstMet fun d hd i hi => hmem d hd i (Or.inr hi))
    (m.returns_firstMet _) fun o ho => ?_
  cases o with
  | none => exact hnone
  | some y =>
    obtain ⟨d, hd, heq⟩ := ho y rfl
    exact hsome y.1 y.2 fun i hi => hmem d hd i (Or.inl (heq ▸ hi))

theorem defaultTri (write : Bool) : (m.defaultTri s write).All p r :=
  h.defaults trivial fun _ _ he => Query.all_bind (h.exprVal he) fun _ => trivial

theorem implied (write : Bool) : (m.implied s write).All p r := by
  refine Query.all_bind (h.defaultTri write) fun own => Query.all_bind h.weakRevDep fun dep => ?_
  split
  · exact Query.all_bind h.directDep fun _ => trivial
  · trivial

theorem ownTri {vis : Tri} (hvalue : vis ≠ 0 → r (.value s)) : (m.ownTri s vis).All p r := by
  rw [Kconfig.ownTri]
  split
  next hvis =>
    refine Query.all_bind (Query.all_read.mpr (hvalue hvis)) fun user => ?_
    split
    · trivial
    · exact h.implied true
  next => exact h.implied false

theorem plainTri {vis : Tri} (hvalue : vis ≠ 0 → r (.value s)) : (m.plainTri s vis).All p r := by
  refine Query.all_bind (h.ownTri hvalue) fun own => Query.all_bind ?_ fun val => ?_
  · refine Query.all_bind h.revDep fun dep => ?_
    split
    · exact Query.all_bind h.directDep fun _ => trivial
    · trivial
  · split
    · exact Query.all_bind h.noM fun _ => trivial
    · trivial

theorem range : (m.range s).All p r := by
  have hmem : ∀ d ∈ (m.sym s).ranges, ∀ i, i = .sym d.1.1 ∨ i = .sym d.1.2 ∨ i ∈ exprItems d.2 →
      i ∈ m.refs (.sym s) := fun d hd i hi =>
    m.mem_refs_sym.mpr (Or.inr (Or.inr (Or.inr (Or.inr (Or.inl ⟨d, hd, hi⟩)))))
  refine Query.all_bind_returns (h.firstMet fun d hd i hi => hmem d hd i (Or.inr (Or.inr hi)))
    (m.returns_firstMet _) fun o ho => ?_
  cases o with
  | none => trivial
  | some y =>
    obtain ⟨d, hd, heq⟩ := ho y rfl
    have hlow := (h.sym y.1.1 (hmem d hd _ (Or.inl (by rw [heq])))).2
    have hhigh := (h.sym y.1.2 (hmem d hd _ (Or.inr (Or.inl (by rw [heq]))))).2
    exact Query.all_bind (Query.all_get.mpr hlow) fun _ =>
      Query.all_bind (Query.all_get.mpr hhigh) fun _ => trivial

theorem textDefault (write : Bool) (range : Option (Int × Int)) :
    (m.textDefault s write range).All p r :=
  h.defaults trivial fun _ _ he => Query.all_bind (h.defaultStr he) fun _ => trivial

theorem numValue {vis : Tri} (hvalue : vis ≠ 0 → r (.value s)) : (m.numValue s vis).All p r := by
  refine Query.all_bind h.range fun range => ?_
  split
  next hvis =>
    refine Query.all_bind (Query.all_read.mpr (hvalue hvis)) fun user => ?_
    split
    · split
      · trivial
      · exact h.textDefault true range
    · exact h.textDefault true range
  next => exact h.textDefault false range

theorem stringValue {vis : Tri} (hvalue : vis ≠ 0 → r (.value s)) :
    (m.stringValue s vis).All p r := by
  rw [Kconfig.stringValue]
  split
  next hvis =>
    refine Query.all_bind (Query.all_read.mpr (hvalue hvis)) fun user => ?_
    split
    · trivial
    · exact h.textDefault true none
  next => exact h.textDefault false none

theorem symAssignable (hvis : p (.vis (.sym s))) : (m.symAssignable s).All p r := by
  rw [Kconfig.symAssignable]
  split
  · refine Query.all_bind (Query.all_get.mpr hvis) fun vis => ?_
    split
    · trivial
    · refine Query.all_bind h.revDep fun rev => ?_
      split
      · split
        · trivial
        · split
          · exact Query.all_bind h.noM fun _ => trivial
          · split
            · trivial
            · exact Query.all_bind h.noM fun _ => trivial
      · split
        · exact Query.all_bind h.weakRevDep fun _ => trivial
        · split
          · trivial
          · trivial
  · trivial

end Allows

end

section

variable {m} {c : C} {p : Key S C → Prop} {r : Input S C → Prop} (h : m.Allows (.choice c) p r)
include h

namespace Allows

theorem choiceType : (m.choiceType c).All p r :=
  all_choiceType fun htri => h.modules (Or.inl htri)

theorem choiceVisibility : (m.choiceVisibility c).All p r :=
  Query.all_bind (h.promptVal (fun e he _ hi => m.mem_refs_choice.mpr (Or.inl ⟨e, he, hi⟩)) 0)
    fun vis => all_promote h.choiceType vis

theorem choiceAssignable (hvis : p (.vis (.choice c))) : (m.choiceAssignable c).All p r := by
  refine Query.all_bind (Query.all_get.mpr hvis) fun vis => ?_
  split
  · trivial
  · split
    · exact Query.all_bind h.choiceType fun _ => trivial
    · trivial

theorem firstDefault {defaults : List (S × Expr (Item S C))}
    (hmem : ∀ y ∈ defaults, y ∈ (m.choice c).defaults)
    (hvis : ∀ s ∈ (m.choice c).syms, p (.vis (.sym s))) : (m.firstDefault defaults).All p r := by
  induction defaults with
  | nil => trivial
  | cons y defaults ih =>
    rw [List.forall_mem_cons] at hmem
    have hrest := ih hmem.2
    have hcond := h.exprVal fun _ hi => m.mem_refs_choice.mpr (Or.inr ⟨y, hmem.1, hi⟩)
    refine Query.all_bind hcond fun dep => ?_
    split
    · refine Query.all_bind (Query.all_get.mpr (hvis _ (m.default_mem c y hmem.1))) fun vis => ?_
      split
      · trivial
      · exact hrest
    · exact hrest

omit h in
theorem firstVisible {syms : List S} (hvis : ∀ s ∈ syms, p (.vis (.sym s))) :
    (m.firstVisible syms).All p r := by
  induction syms with
  | nil => trivial
  | cons s syms ih =>
    rw [List.forall_mem_cons] at hvis
    refine Query.all_bind (Query.all_get.mpr hvis.1) fun vis => ?_
    split
    · trivial
    · exact ih hvis.2

theorem selectionOf (hown : p (.vis (.choice c))) (hmode : r (.mode c)) (huser : r (.selection c))
    (hvis : ∀ s ∈ (m.choice c).syms, p (.vis (.sym s))) : (m.selectionOf c).All p r := by
  have hdefaults : (m.selectionFromDefaults c).All p r := by
    refine Query.all_bind (h.firstDefault (fun _ hy => hy) hvis) fun first => ?_
    cases first with
    | none => exact firstVisible hvis
    | some s => trivial
  have hmode := all_choiceTri hown hmode fun htri => h.modules (Or.inl htri)
  refine Query.all_bind hmode fun mode => ?_
  split
  · trivial
  · refine Query.all_bind (Query.all_read.mpr huser) fun user => ?_
    cases user with
    | none => exact hdefaults
    | some s =>
      refine Query.all_bind (Query.all_get.mpr (hvis s.1 s.2)) fun vis => ?_
      split
      · trivial
      · exact hdefaults

end Allows

end

/-- The items of the properties are what a property can ask for. -/
theorem allows_asks {k : Key S C} (hk : m.Looks k) :
    m.Allows k.item (m.AsksKey k) (m.AsksInput k) where
  sym _ hs := ⟨Or.inl ⟨hk, hs⟩, hk, hs⟩
  choice _ hc := ⟨Or.inl ⟨hk, hc⟩, Or.inl ⟨hk, hc⟩⟩
  modules hm := Or.inr (Or.inl ⟨hk, hm, rfl⟩)

variable [DecidableEq S]

omit [DecidableEq S] in
/-- No constant is defined. -/
theorem fixed_of_defined {s : S} (hs : s ∈ m.definedSyms) : (m.sym s).fixed = none := by
  by_contra hfixed
  have hconst := (m.fixed_constant s (Option.isSome_iff_ne_none.mpr hfixed)).1
  exact m.constant_undefined s hconst hs

omit [DecidableEq S] in
/-- A symbol of a choice is defined. -/
theorem defined_of_choice {s : S} {c : C} (hs : (m.sym s).choice = some c) :
    s ∈ m.definedSyms := by
  by_contra hnot
  rw [(m.undefined s hnot).2.1] at hs
  cases hs

omit [DecidableEq S] in
/-- The type of a symbol that is not defined is known for the constants alone. -/
theorem origType_of_undefined {s : S} (hs : s ∉ m.definedSyms) (hfixed : (m.sym s).fixed = none) :
    (m.sym s).origType = .unknown :=
  (m.undefined s hs).2.2.resolve_left (by simp [hfixed])

theorem all_body_of_undefined {k : Key S C} (hk : ¬ m.Looks k) :
    (m.body k).All (m.AsksKey k) (m.AsksInput k) := by
  rw [Looks, not_or] at hk
  match k with
  | .vis (.choice c) | .selection c => exact absurd trivial hk.1
  | .assignable i => exact absurd ⟨i, rfl⟩ hk.2
  | .vis (.sym s) =>
    show (m.symVisibility s).All _ _
    obtain ⟨hprompts, hchoice, -⟩ := m.undefined s hk.1
    rw [symVisibility, hprompts]
    show (m.hiddenInChoice s 0 >>= _).All _ _
    rw [hiddenInChoice, hchoice]
    trivial
  | .tri s =>
    show (m.triValue s).All _ _
    rw [triValue]
    split
    · trivial
    next hfixed =>
      rw [m.origType_of_undefined hk.1 hfixed, if_neg (by decide)]
      trivial
  | .str s =>
    show (m.strValue s).All _ _
    rw [strValue]
    split
    · exact Query.all_bind (Query.all_get.mpr (Or.inr (Or.inr rfl))) fun _ => trivial
    next htri =>
      cases hfixed : (m.sym s).fixed with
      | none =>
        rw [if_pos (m.origType_of_undefined hk.1 hfixed)]
        trivial
      | some v =>
        rw [(m.fixed_constant s (by simp [hfixed])).2] at htri
        exact absurd rfl htri

/-- **What a property asks for**, whatever it is answered: the items of its own item, what
belongs to its choice, and what the user has set. -/
theorem all_body (k : Key S C) : (m.body k).All (m.AsksKey k) (m.AsksInput k) := by
  by_cases hlooks : m.Looks k
  swap
  · exact m.all_body_of_undefined hlooks
  have h := m.allows_asks hlooks
  match k with
  | .vis (.sym s) => exact h.symVisibility
  | .vis (.choice c) => exact h.choiceVisibility
  | .tri s =>
    show (m.triValue s).All _ _
    rw [triValue]
    split
    · trivial
    · split
      · refine Query.all_bind (Query.all_get.mpr (Or.inl rfl)) fun vis => ?_
        cases hc : (m.sym s).choice with
        | none => exact h.plainTri fun _ => Or.inl rfl
        | some c =>
          dsimp only
          split
          · exact Query.all_bind (Query.all_get.mpr ⟨s, rfl, hc⟩) fun _ => trivial
          · split
            · exact Query.all_bind (Query.all_read.mpr (Or.inl rfl)) fun _ => trivial
            · trivial
      · trivial
  | .str s =>
    show (m.strValue s).All _ _
    rw [strValue]
    split
    · exact Query.all_bind (Query.all_get.mpr (Or.inr (Or.inr rfl))) fun _ => trivial
    · split
      · trivial
      · refine Query.all_bind ?_ fun _ => trivial
        refine Query.all_bind (Query.all_get.mpr (Or.inr (Or.inl rfl))) fun vis => ?_
        split
        · exact h.stringValue fun _ => Or.inr rfl
        · exact h.numValue fun _ => Or.inr rfl
  | .assignable (.sym s) => exact h.symAssignable (Or.inr (Or.inr (Or.inl rfl)))
  | .assignable (.choice c) => exact h.choiceAssignable (Or.inr (Or.inr rfl))
  | .selection c =>
    exact h.selectionOf (Or.inr (Or.inl rfl)) (Or.inr (Or.inl rfl)) rfl fun s hs =>
      Or.inr (Or.inr (Or.inr ⟨c, rfl, hs⟩))

/-! ## Ranks -/

/-- A rank of the items. A symbol of a choice depends on the choice, and the two have the same
rank. -/
structure Layered (rank : Item S C → Nat) : Prop where
  ref : ∀ x, m.Defined x → ∀ i ∈ m.refs x,
    rank i < rank x ∨ ∃ s c, x = .sym s ∧ i = .choice c ∧ (m.sym s).choice = some c
  member : ∀ c, ∀ s ∈ (m.choice c).syms, rank (.sym s) = rank (.choice c)
  modules : ∀ x, m.Defined x → m.UsesModules x → rank (.sym m.modules) < rank x

end Kconfig

/-- The order in which the properties of one item, and of a choice and its symbols, are
computed. -/
def Key.stage : Key S C → Nat
  | vis (.choice _) => 0
  | vis (.sym _) => 1
  | selection _ => 2
  | tri _ => 3
  | str _ => 4
  | assignable _ => 5

namespace Kconfig

variable (m : Kconfig S C)

/-- The rank of a property's item. No property asks for what is assignable, which comes after all
that it looks at. -/
def level (rank : Item S C → Nat) : Key S C → Nat
  | .assignable x => rank x + rank (.sym m.modules) + ((m.refs x).map rank).sum
  | k => rank k.item

/-- The rank of a property. -/
def keyRank (rank : Item S C → Nat) (k : Key S C) : Nat := 6 * m.level rank k + k.stage

variable {m} {rank : Item S C → Nat} {j k : Key S C}

theorem rank_le_level (rank : Item S C → Nat) (k : Key S C) :
    rank k.item ≤ m.level rank k := by
  cases k with
  | assignable x =>
    show rank x ≤ rank x + rank (.sym m.modules) + ((m.refs x).map rank).sum
    omega
  | _ => exact le_rfl

theorem rank_le_level_of_mem {x i : Item S C} (h : i ∈ m.refs x) :
    rank i ≤ m.level rank (.assignable x) := by
  have hle : rank i ≤ ((m.refs x).map rank).sum :=
    List.single_le_sum (fun _ _ => Nat.zero_le _) _ (List.mem_map.mpr ⟨i, h, rfl⟩)
  show rank i ≤ rank x + rank (.sym m.modules) + ((m.refs x).map rank).sum
  omega

theorem level_of_asks (h : m.AsksKey k j) : m.level rank j = rank j.item := by
  cases j with
  | assignable x => exact h.elim
  | _ => rfl

theorem stage_lt_of_asks (h : m.AsksKey k j) : j.stage < 5 := by
  match j, h with
  | .vis (.sym _), _ | .vis (.choice _), _ | .tri _, _ | .str _, _ | .selection _, _ =>
    simp [Key.stage]

theorem keyRank_lt_of_lt (hj : m.AsksKey k j) (h : rank j.item < rank k.item) :
    m.keyRank rank j < m.keyRank rank k := by
  have hstage := stage_lt_of_asks hj
  have hlevel := m.rank_le_level rank k
  rw [keyRank, keyRank, level_of_asks hj]
  omega

theorem keyRank_lt_of_stage (hj : m.AsksKey k j) (h : rank j.item = rank k.item)
    (hstage : j.stage < k.stage) : m.keyRank rank j < m.keyRank rank k := by
  have hlevel := m.rank_le_level rank k
  rw [keyRank, keyRank, level_of_asks hj]
  omega

theorem keyRank_lt_of_le {x : Item S C} (hj : m.AsksKey (.assignable x) j)
    (h : rank j.item ≤ m.level rank (.assignable x)) :
    m.keyRank rank j < m.keyRank rank (.assignable x) := by
  have hstage := stage_lt_of_asks hj
  rw [keyRank, keyRank, level_of_asks hj]
  show _ < 6 * _ + 5
  omega

/-- What is looked at has a lower rank, but for the choice of a symbol. -/
theorem keyRank_lt_of_ref (h : m.Layered rank) (hk : m.Looks k) (hj : m.AsksKey k j)
    (href : j.item ∈ m.refs k.item) : m.keyRank rank j < m.keyRank rank k ∨
      ∃ s c, k.item = .sym s ∧ j.item = .choice c ∧ (m.sym s).choice = some c := by
  rcases hk with hk | ⟨x, rfl⟩
  · exact (h.ref _ hk _ href).imp_left (keyRank_lt_of_lt hj)
  · exact Or.inl (keyRank_lt_of_le hj (rank_le_level_of_mem href))

theorem keyRank_lt_of_modules (h : m.Layered rank) (hk : m.Looks k)
    (hj : m.AsksKey k (.tri m.modules)) (hm : m.UsesModules k.item) :
    m.keyRank rank (.tri m.modules) < m.keyRank rank k := by
  rcases hk with hk | ⟨x, rfl⟩
  · exact keyRank_lt_of_lt hj (h.modules _ hk hm)
  · refine keyRank_lt_of_le hj ?_
    show rank (.sym m.modules) ≤ rank x + rank (.sym m.modules) + ((m.refs x).map rank).sum
    omega

/-- What a property asks for has a lower rank. -/
theorem keyRank_lt_of_asks (h : m.Layered rank) (hj : m.AsksKey k j) :
    m.keyRank rank j < m.keyRank rank k := by
  match j, hj with
  | .tri s, hj =>
    rcases id hj with ⟨hk, hs⟩ | ⟨hk, hm, rfl⟩ | rfl
    · rcases keyRank_lt_of_ref h hk hj hs with hlt | ⟨_, _, _, hc, _⟩
      · exact hlt
      · cases hc
    · exact keyRank_lt_of_modules h hk hj hm
    · exact keyRank_lt_of_stage hj rfl (by simp [Key.stage])
  | .str s, hj =>
    rcases keyRank_lt_of_ref h hj.1 hj hj.2 with hlt | ⟨_, _, _, hc, _⟩
    · exact hlt
    · cases hc
  | .vis (.sym s), hj =>
    rcases id hj with rfl | rfl | rfl | ⟨c, rfl, hs⟩
    · exact keyRank_lt_of_stage hj rfl (by simp [Key.stage])
    · exact keyRank_lt_of_stage hj rfl (by simp [Key.stage])
    · exact keyRank_lt_of_stage hj rfl (by simp [Key.stage])
    · exact keyRank_lt_of_stage hj (h.member c s hs) (by simp [Key.stage])
  | .vis (.choice c), hj =>
    rcases id hj with ⟨hk, hc⟩ | rfl | rfl
    · rcases keyRank_lt_of_ref h hk hj hc with hlt | ⟨s, c', hitem, heq, hs⟩
      · exact hlt
      · cases heq
        refine keyRank_lt_of_stage hj ?_ ?_
        · show rank (.choice c) = rank k.item
          rw [hitem]
          exact (h.member c s (m.choice_mem s c hs)).symm
        · rcases k with (_ | _) | _ | _ | _ | _
          all_goals simp [Key.stage, Key.item] at hitem ⊢
    · exact keyRank_lt_of_stage hj rfl (by simp [Key.stage])
    · exact keyRank_lt_of_stage hj rfl (by simp [Key.stage])
  | .selection c, hj =>
    obtain ⟨s, rfl, hs⟩ := id hj
    exact keyRank_lt_of_stage hj (h.member c s (m.choice_mem s c hs)).symm (by simp [Key.stage])

variable [DecidableEq S]

/-- **No property is computed from itself**: what it asks for has a lower rank, by the rank of the
items and, for one item or a choice and its symbols, by the stage of the property. -/
theorem ranked_body (h : m.Layered rank) : Ranked m.body (m.keyRank rank) := fun k =>
  (m.all_body k).imp (fun _ hj => keyRank_lt_of_asks h hj) fun _ _ => trivial

/-! ## What counts of the user's values -/

variable {inp : Inputs m.InputVal} {cache : Cache (Key.Val (S := S) (C := C))}

omit [DecidableEq S] in
/-- What is computed first is asked for first. -/
theorem uses_vis_bind {A : Type} {i : Item S C} {f : Tri → m.Ask A} {j : Key S C ⊕ Input S C}
    (h : (m.vis i >>= f).Uses inp cache j) :
    j = .inl (.vis i) ∨ ∃ v, cache (.vis i) = some v ∧ (f v).Uses inp cache j := h

/-- The value that the user has set counts only when the symbol is visible. -/
theorem value_uses {k : Key S C} {s : S} (h : (m.body k).Uses inp cache (.inr (.value s))) :
    k.item = .sym s ∧ ∃ v, cache (.vis (.sym s)) = some v ∧ v ≠ 0 := by
  have hallows : m.Allows (.sym s) (fun _ => True) fun i => i ≠ .value s :=
    ⟨fun _ _ => ⟨trivial, trivial⟩, fun _ _ => ⟨trivial, by simp⟩, fun _ => trivial⟩
  -- with no visibility, nothing asks for the value
  have hzero : ∀ {A : Type} {f : Tri → m.Ask A},
      (f 0).All (fun _ => True) (fun i => i ≠ .value s) →
      (m.vis (.sym s) >>= f).Uses inp cache (.inr (.value s)) →
      ∃ v, cache (.vis (.sym s)) = some v ∧ v ≠ 0 := by
    intro A f hf huses
    rcases uses_vis_bind huses with hj | ⟨v, hv, hrest⟩
    · cases hj
    · refine ⟨v, hv, ?_⟩
      rintro rfl
      exact hf.of_uses hrest rfl
  rcases (m.all_body k).of_uses h with rfl | rfl
  · refine ⟨rfl, ?_⟩
    change (m.triValue s).Uses inp cache _ at h
    rw [triValue] at h
    split at h
    · exact h.elim
    · split at h
      · refine hzero ?_ h
        cases (m.sym s).choice with
        | none => exact hallows.plainTri fun hne => absurd rfl hne
        | some c => trivial
      · exact h.elim
  · refine ⟨rfl, ?_⟩
    change (m.strValue s).Uses inp cache _ at h
    rw [strValue] at h
    split at h
    · rcases h with hj | ⟨v, -, hrest⟩
      · cases hj
      · exact hrest.elim
    · split at h
      · exact h.elim
      · rcases Query.uses_bind h with htext | ⟨_, hnone⟩
        · refine hzero ?_ htext
          split
          · exact hallows.stringValue fun hne => absurd rfl hne
          · exact hallows.numValue fun hne => absurd rfl hne
        · exact hnone.elim

/-- A property that is not constant is computed from the visibility of its item. -/
theorem vis_of_uses (hkept : Kept m.body inp cache) {k : Key S C} {v : k.Val}
    (hk : cache k = some v) (hdefined : ∀ s, k.item = .sym s → (m.sym s).fixed = none)
    {j : Key S C ⊕ Input S C} (h : (m.body k).Uses inp cache j) :
    ∃ w, cache (.vis k.item) = some w := by
  -- a value that asks for the visibility first has it
  have hfirst : ∀ {A : Type} {i : Item S C} {f : Tri → m.Ask A} {a : A},
      (m.vis i >>= f).replay inp cache = some a → ∃ w, cache (.vis i) = some w := by
    intro A i f a hreplay
    obtain ⟨w, hw, -⟩ := Query.exists_of_replay_bind hreplay
    exact ⟨w, (Query.replay_get _).symm.trans hw⟩
  have htri : ∀ s v, (m.sym s).fixed = none → (m.sym s).origType.isTri = true →
      cache (.tri s) = some v → ∃ w, cache (.vis (.sym s)) = some w := by
    intro s v hfixed htype hv
    have hreplay := hkept _ _ hv
    change (m.triValue s).replay inp cache = some v at hreplay
    rw [triValue, hfixed, if_pos htype] at hreplay
    exact hfirst hreplay
  have hreplay := hkept k v hk
  cases k with
  | vis i => exact ⟨v, hk⟩
  | tri s =>
    by_cases htype : (m.sym s).origType.isTri = true
    · exact htri s v (hdefined s rfl) htype hk
    · change (m.triValue s).Uses inp cache j at h
      rw [triValue, hdefined s rfl] at h
      dsimp only at h
      rw [if_neg htype] at h
      exact h.elim
  | str s =>
    change (m.strValue s).Uses inp cache j at h
    change (m.strValue s).replay inp cache = some v at hreplay
    rw [strValue] at h hreplay
    split at h
    next htype =>
      rw [if_pos htype] at hreplay
      obtain ⟨w, hw, -⟩ := Query.exists_of_replay_bind hreplay
      exact htri s w (hdefined s rfl) htype ((Query.replay_get _).symm.trans hw)
    next htype =>
      rw [if_neg htype] at hreplay
      split at h
      · exact h.elim
      next hunknown =>
        rw [if_neg hunknown] at hreplay
        obtain ⟨_, htext, -⟩ := Query.exists_of_replay_bind hreplay
        exact hfirst htext
  | assignable i =>
    cases i with
    | sym s =>
      change (m.symAssignable s).Uses inp cache j at h
      change (m.symAssignable s).replay inp cache = some v at hreplay
      rw [symAssignable] at h hreplay
      split at h
      next htype =>
        rw [if_pos htype] at hreplay
        exact hfirst hreplay
      · exact h.elim
    | choice c => exact hfirst hreplay
  | selection c =>
    change (m.selectionOf c).replay inp cache = some v at hreplay
    obtain ⟨_, hmode, -⟩ := Query.exists_of_replay_bind hreplay
    change (m.vis (.choice c) >>= _).replay inp cache = some _ at hmode
    exact hfirst hmode

/-- A symbol without a prompt is not visible. -/
theorem vis_of_promptless (hkept : Kept m.body inp cache) {s : S} (hs : (m.sym s).prompts = [])
    {v : Tri} (hv : cache (.vis (.sym s)) = some v) : v = 0 := by
  have hreplay := hkept _ _ hv
  change (m.symVisibility s).replay inp cache = some v at hreplay
  have hreturns : (m.symVisibility s).Returns (· = 0) := by
    rw [symVisibility, hs]
    show (m.hiddenInChoice s 0 >>= _).Returns _
    refine Query.returns_bind fun hidden => ?_
    split
    · rfl
    · rfl
  exact hreturns.of_replay hreplay

/-- The properties of a symbol that is not defined depend on the symbol alone. -/
theorem item_of_uses (hkept : Kept m.body inp cache) {k : Key S C} {s : S}
    (hitem : k.item = .sym s) (hs : s ∉ m.definedSyms) {j : Key S C ⊕ Input S C}
    (h : (m.body k).Uses inp cache j) : ∃ k', j = .inl k' ∧ k'.item = .sym s := by
  obtain ⟨hprompts, hchoice, htype⟩ := m.undefined s hs
  have hnot : ∀ {t : SymType}, t = .unknown → ¬ t.isTri = true := by
    rintro _ rfl
    decide
  cases k with
  | vis i =>
    cases hitem
    change (m.symVisibility s).Uses inp cache j at h
    rw [symVisibility, hprompts] at h
    change (m.hiddenInChoice s 0 >>= _).Uses inp cache j at h
    rw [hiddenInChoice, hchoice] at h
    exact h.elim
  | tri t =>
    cases hitem
    change (m.triValue s).Uses inp cache j at h
    rw [triValue] at h
    split at h
    · exact h.elim
    next hfixed =>
      have hunknown := htype.resolve_left (by simp [hfixed])
      rw [if_neg (hnot hunknown)] at h
      exact h.elim
  | str t =>
    cases hitem
    change (m.strValue s).Uses inp cache j at h
    rw [strValue] at h
    split at h
    next htri =>
      rcases h with rfl | ⟨v, -, hrest⟩
      · exact ⟨_, rfl, rfl⟩
      · exact hrest.elim
    next htri =>
      have hunknown := htype.resolve_left fun hfixed =>
        htri (by rw [(m.fixed_constant s hfixed).2]; rfl)
      rw [if_pos hunknown] at h
      exact h.elim
  | assignable i =>
    cases hitem
    change (m.symAssignable s).Uses inp cache j at h
    rw [symAssignable] at h
    split at h
    · rcases uses_vis_bind h with rfl | ⟨v, hv, hrest⟩
      · exact ⟨_, rfl, rfl⟩
      · rw [vis_of_promptless hkept hprompts hv] at hrest
        exact hrest.elim
    · exact h.elim
  | selection c => cases hitem

end Kconfig

/-! ## A part of the menu -/

/-- The book comes before what depends on it. -/
def bookRank : Item BookSym Unit → Nat
  | .sym .modules | .sym .sysv => 0
  | .sym .n | .sym .y => 1
  | .sym .bookLfs | .sym .bookBlfs | .choice _ => 2
  | .sym .initsys | .sym .blfsTool => 3

theorem bookMenu_layered : bookMenu.Layered bookRank where
  ref x hx i hi := by
    rcases x with s | c
    · change s ∈ [BookSym.bookLfs, .bookBlfs, .initsys, .blfsTool] at hx
      simp only [List.mem_cons, List.not_mem_nil, or_false] at hx
      rcases hx with rfl | rfl | rfl | rfl
      all_goals
        simp only [Kconfig.refs, bookMenu, bookSym, undefinedSym, choiceSym, SymDef.refs,
          exprItems, List.flatMap_cons, List.flatMap_nil, List.append_nil, List.nil_append,
          List.cons_append, List.mem_cons, List.not_mem_nil, or_false] at hi
        rcases hi with rfl | rfl | rfl | rfl | rfl | rfl
        all_goals simp [bookRank, bookMenu, bookSym, choiceSym]
    · simp [Kconfig.refs, bookMenu, ChoiceDef.refs, exprItems] at hi
      simp [hi, bookRank]
  member c s hs := by
    simp [bookMenu] at hs
    rcases hs with rfl | rfl
    all_goals rfl
  modules x hx hm := by
    rcases hm with hm | ⟨c, -, hc⟩
    · rcases x with s | c
      · change s ∈ [BookSym.bookLfs, .bookBlfs, .initsys, .blfsTool] at hx
        simp only [List.mem_cons, List.not_mem_nil, or_false] at hx
        rcases hx with rfl | rfl | rfl | rfl
        all_goals simp [Kconfig.origType, bookMenu, bookSym, choiceSym] at hm
      · simp [Kconfig.origType, bookMenu] at hm
    · simp [bookMenu] at hc

end Jhalfs.Menu
