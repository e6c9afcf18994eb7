import Jhalfs.Menu.Recorded

/-!
# Saving and loading

`write_config` walks over the menu and writes the values of its symbols; `load_config` sets the
symbols to what it reads, in a menu that may be in any state, and unsets the others
(`_load_config`, src/menu/kconfiglib.py).

- `Layout`: the nodes of the menu, with their symbols, and `configText`: what is written.
- `load`: what is read, as calls of `set_value` and `unset_value`.
- `Visits`: what a part of the walk writes for the symbols it has not come across before. Parts
  compose, and so the symbols are written in the order of the menu (`filterMap_walkAll`).
- `Filed` and `Savable`: a menu that has a file, and one that can be loaded from it. Names and
  titles have to be such that they can stand in the file and are told apart, and no title may
  read like the line of a symbol that is not set (`Harmless`).
- `Fits`: numbers and strings stand on one line, and a number has no blank behind it.
- `LoadInv`: what has been set after some lines of the file, and `LoadInv.line`: one line.

**Main result**: `reload_of_reachable`. A menu that has loaded the file shows what the menu showed
that has written it, for all properties. The values are recorded in the inputs
(`recorded_load`), and such inputs have the same values (`Solves.of_recorded`).
-/

namespace Jhalfs.Menu

open Memo

variable {S C : Type}

/-! ## Saving -/

/-- The nodes of a menu, with the conditions of menus and comments. A symbol can have several nodes,
and is written at the first one. -/
inductive Layout (S C : Type) where
  | symbol (s : S) (list : List (Layout S C))
  | choice (list : List (Layout S C))
  | menu (title : List Char) (dep visibility : Expr (Item S C)) (list : List (Layout S C))
  | comment (title : List Char) (dep : Expr (Item S C))

mutual

/-- The nodes, with the values that are written and the conditions evaluated. -/
def Layout.node (name : S → List Char) (conf : S → Option Written)
    (shown : Expr (Item S C) → Bool) : Layout S C → Node
  | .symbol s list => .symbol (name s) (conf s) (nodesOf name conf shown list)
  | .choice list => .choice (nodesOf name conf shown list)
  | .menu title dep visibility list =>
    .menu title (shown dep && shown visibility) (nodesOf name conf shown list)
  | .comment title dep => .comment title (shown dep)

def nodesOf (name : S → List Char) (conf : S → Option Written)
    (shown : Expr (Item S C) → Bool) : List (Layout S C) → List Node
  | [] => []
  | l :: list => l.node name conf shown :: nodesOf name conf shown list

end

mutual

/-- The symbols of the nodes. -/
def Layout.syms : Layout S C → List S
  | .symbol s list => s :: symsOf list
  | .choice list | .menu _ _ _ list => symsOf list
  | .comment _ _ => []

def symsOf : List (Layout S C) → List S
  | [] => []
  | l :: list => l.syms ++ symsOf list

end

mutual

/-- The titles of the menus and the texts of the comments. -/
def Layout.titles : Layout S C → List (List Char)
  | .symbol _ list | .choice list => titlesOf list
  | .menu title _ _ list => title :: titlesOf list
  | .comment title _ => [title]

def titlesOf : List (Layout S C) → List (List Char)
  | [] => []
  | l :: list => l.titles ++ titlesOf list

end

namespace Kconfig

variable (m : Kconfig S C)

/-- What is written of a symbol (`config_string`). -/
def written (val : ∀ k : Key S C, k.Val) (s : S) : Option Written :=
  if (val (.str s)).2 then
    match (m.sym s).origType with
    | .bool | .tristate => some (.tri (triOf val s))
    | .int | .hex => some (.number (val (.str s)).1)
    | .string => some (.string (val (.str s)).1)
    | .unknown => none
  else none

/-- What `write_config` writes in a state. -/
def configText (header : List Char) (layout : List (Layout S C)) (user : Inputs m.InputVal)
    (val : ∀ k : Key S C, k.Val) : List Char :=
  configContents ("# ".toList ++ header ++ ['\n'])
    (nodesOf (fun s => (m.sym s).name) (m.written val)
      (fun e => exprValue (m.valuesOf user val) e ≠ 0) layout)

/-! ## Loading -/

/-- The symbol with a name (`syms`), if it has a node. -/
def lookup (name : List Char) : Option S :=
  m.definedSyms.find? fun s => (m.sym s).name = name

/-- The types of the symbols that can be set. -/
def typeOf (name : List Char) : Option SymType :=
  (m.lookup name).map fun s => (m.sym s).origType

/-- The menu while a file is loaded, with `_was_set` of the symbols and choices. -/
structure Loading (m : Kconfig S C) where
  state : m.State
  symSet : S → Bool
  choiceSet : C → Bool

variable [DecidableEq S] [DecidableEq C]

/-- `Symbol.set_value`, with `_was_set`. -/
def setSym (s : S) (value : UserValue) (l : m.Loading) : m.Loading where
  state := m.setValue s value l.state
  symSet :=
    if (l.state.user (.value s) = some value ∧ (m.sym s).choice = none) ∨
        (value.convert (m.sym s).origType).isValid (m.sym s).origType then
      Function.update l.symSet s true
    else l.symSet
  choiceSet :=
    match (m.sym s).choice with
    | some c =>
      if value.convert (m.sym s).origType = .tri 2 ∧
          (UserValue.tri 2).isValid (m.sym s).origType then
        Function.update l.choiceSet c true
      else l.choiceSet
    | none => l.choiceSet

/-- `Choice.set_value`, with `_was_set`. -/
def setChoice (c : C) (value : UserValue) (l : m.Loading) : m.Loading where
  state := m.setMode c value l.state
  symSet := l.symSet
  choiceSet :=
    if (l.state.user (.mode c)).map .tri = some value then Function.update l.choiceSet c true
    else match value.convert (m.choice c).origType with
      | .tri val =>
        if isValidMode val (m.choice c).origType then Function.update l.choiceSet c true
        else l.choiceSet
      | .str _ => l.choiceSet

/-- One line of the file. The mode of a choice follows from its symbols. -/
def loadOne (l : m.Loading) (x : Setting) : m.Loading :=
  match m.lookup x.name with
  | none => l
  | some s =>
    let l := match (m.sym s).choice with
      | some c =>
        if (m.sym s).origType.isTri ∧ x.val ≠ ['n'] then m.setChoice c (.str x.val) l else l
      | none => l
    m.setSym s (.str x.val) l

/-- `_load_config`: what the file does not set is unset. -/
def load (text : List Char) (st : m.State) : m.State :=
  let l := (loadConfig m.typeOf text).foldl m.loadOne ⟨st, fun _ => false, fun _ => false⟩
  let st := m.definedSyms.foldl (fun st s => if l.symSet s then st else m.unsetValue s st) l.state
  m.choices.foldl (fun st c => if l.choiceSet c then st else m.unsetMode c st) st

end Kconfig

/-! ## What is written -/

section

variable {name : S → List Char} {conf : S → Option Written} {shown : Expr (Item S C) → Bool}

/-- What is written for some symbols and titles. -/
def Chunk.Of (name : S → List Char) (conf : S → Option Written) (syms : List S)
    (titles : List (List Char)) (c : Chunk) : Prop :=
  (∃ s ∈ syms, ∃ w, conf s = some w ∧ c = .entry (name s) w) ∨
    ∃ t ∈ titles, c = .heading t ∨ c = .endOf t

theorem Chunk.Of.mono {syms syms' : List S} {titles titles' : List (List Char)} {c : Chunk}
    (h : c.Of name conf syms titles) (hsyms : ∀ s ∈ syms, s ∈ syms')
    (htitles : ∀ t ∈ titles, t ∈ titles') : c.Of name conf syms' titles' := by
  rcases h with ⟨s, hs, hw⟩ | ⟨t, ht, hc⟩
  · exact Or.inl ⟨s, hsyms s hs, hw⟩
  · exact Or.inr ⟨t, htitles t ht, hc⟩

mutual

theorem Layout.of_walk (l : Layout S C) (visited : List (List Char)) :
    ∀ c ∈ ((l.node name conf shown).walk visited).1, c.Of name conf l.syms l.titles := by
  match l with
  | .symbol s list =>
    intro c hc
    rw [Layout.node, Node.walk, List.mem_append] at hc
    rcases hc with hc | hc
    · split at hc
      · cases hc
      · rw [Option.mem_toList, Option.map_eq_some_iff] at hc
        obtain ⟨w, hw, rfl⟩ := hc
        exact Or.inl ⟨s, List.mem_cons_self, w, hw, rfl⟩
    · exact (of_walkAll list _ c hc).mono (fun t ht => List.mem_cons_of_mem s ht) fun _ ht => ht
  | .choice list => exact of_walkAll list visited
  | .menu title dep visibility list =>
    intro c hc
    have htitle : title ∈ (Layout.menu title dep visibility list).titles := List.mem_cons_self
    rw [Layout.node, Node.walk, List.mem_append, List.mem_append] at hc
    rcases hc with (hc | hc) | hc
    · split at hc
      · rw [List.mem_singleton] at hc
        exact Or.inr ⟨title, htitle, Or.inl hc⟩
      · cases hc
    · exact (of_walkAll list _ c hc).mono (fun _ ht => ht) fun t ht => List.mem_cons_of_mem _ ht
    · split at hc
      · rw [List.mem_singleton] at hc
        exact Or.inr ⟨title, htitle, Or.inr hc⟩
      · cases hc
  | .comment title dep =>
    intro c hc
    rw [Layout.node, Node.walk] at hc
    split at hc
    · rw [List.mem_singleton] at hc
      exact Or.inr ⟨title, List.mem_cons_self, Or.inl hc⟩
    · cases hc

theorem of_walkAll (list : List (Layout S C)) (visited : List (List Char)) :
    ∀ c ∈ (walkAll visited (nodesOf name conf shown list)).1,
      c.Of name conf (symsOf list) (titlesOf list) := by
  match list with
  | [] =>
    intro c hc
    cases hc
  | l :: list =>
    intro c hc
    rw [nodesOf, walkAll, List.mem_append] at hc
    rcases hc with hc | hc
    · exact (l.of_walk visited c hc).mono (fun t ht => List.mem_append_left _ ht)
        fun t ht => List.mem_append_left _ ht
    · exact (of_walkAll list _ c hc).mono (fun t ht => List.mem_append_right _ ht)
        fun t ht => List.mem_append_right _ ht

end

variable {A : Type} [DecidableEq S] {f : Chunk → Option A}

/-- What a part of the walk writes for the symbols that are new, each at its first place. -/
structure Visits (name : S → List Char) (conf : S → Option Written) (f : Chunk → Option A)
    (syms : List S) (visited visited' : List (List Char)) (chunks : List Chunk) : Prop where
  all : ∀ n, n ∈ visited' ↔ n ∈ visited ∨ ∃ s ∈ syms, name s = n
  first : chunks.filterMap f =
    (syms.filter fun s => decide (name s ∉ visited)).eraseDups.filterMap fun s =>
      (conf s).bind fun w => f (.entry (name s) w)

theorem Visits.append {l₁ l₂ : List S} {v₁ v₂ v₃ : List (List Char)} {c₁ c₂ : List Chunk}
    (h₁ : Visits name conf f l₁ v₁ v₂ c₁) (h₂ : Visits name conf f l₂ v₂ v₃ c₂)
    (hname : ∀ s ∈ l₁, ∀ t ∈ l₂, name s = name t → s = t) :
    Visits name conf f (l₁ ++ l₂) v₁ v₃ (c₁ ++ c₂) where
  all n := by
    rw [h₂.all, h₁.all]
    simp only [List.mem_append, or_and_right, exists_or, or_assoc]
  first := by
    have hnew : (l₂.filter fun s => decide (name s ∉ v₁)).removeAll
        (l₁.filter fun s => decide (name s ∉ v₁)) =
        l₂.filter fun s => decide (name s ∉ v₂) := by
      rw [List.removeAll, List.filter_filter]
      refine List.filter_congr fun t ht => ?_
      have hsame : (∃ s ∈ l₁, name s = name t) ↔ t ∈ l₁ :=
        ⟨fun ⟨s, hs, heq⟩ => hname s hs t ht heq ▸ hs, fun hmem => ⟨t, hmem, rfl⟩⟩
      rw [Bool.eq_iff_iff]
      simp only [Bool.and_eq_true, Bool.not_eq_true', decide_eq_true_eq, List.elem_eq_mem,
        decide_eq_false_iff_not, List.mem_filter, h₁.all, hsame, not_and, not_or]
      tauto
    rw [List.filterMap_append, List.filter_append, List.eraseDups_append, hnew,
      List.filterMap_append, h₁.first, h₂.first]

theorem visits_symbol (s : S) (visited : List (List Char)) : Visits name conf f [s] visited
    (if visited.contains (name s) then visited else name s :: visited)
    (if visited.contains (name s) then []
      else ((conf s).map (Chunk.entry (name s))).toList) := by
  by_cases hs : name s ∈ visited
  · rw [List.contains_iff_mem.mpr hs]
    refine ⟨fun n => ⟨Or.inl, ?_⟩, by simp [hs]⟩
    rintro (hn | ⟨t, ht, rfl⟩)
    · exact hn
    · exact List.mem_singleton.mp ht ▸ hs
  · rw [if_neg (by simpa using hs), if_neg (by simpa using hs)]
    refine ⟨fun n => ?_, ?_⟩
    · simp [or_comm, eq_comm]
    · cases hconf : conf s with
      | none => simp [hs, hconf, List.eraseDups_cons]
      | some w => simp [hs, hconf, List.eraseDups_cons, List.filterMap_cons]

mutual

theorem visits_walk {all : List S} (hname : ∀ s ∈ all, ∀ t ∈ all, name s = name t → s = t)
    (hf : ∀ title, f (.heading title) = none ∧ f (.endOf title) = none) (l : Layout S C)
    (hall : ∀ s ∈ l.syms, s ∈ all) (visited : List (List Char)) :
    Visits name conf f l.syms visited ((l.node name conf shown).walk visited).2
      ((l.node name conf shown).walk visited).1 := by
  match l with
  | .symbol s list =>
    refine (visits_symbol s visited).append (visits_walkAll hname hf list
      (fun t ht => hall t (List.mem_cons_of_mem _ ht)) _) fun s' hs' t ht => ?_
    exact hname s' (hall s' (List.mem_singleton.mp hs' ▸ List.mem_cons_self)) t
      (hall t (List.mem_cons_of_mem _ ht))
  | .choice list => exact visits_walkAll hname hf list hall visited
  | .menu title dep visibility list =>
    have hlist := visits_walkAll hname hf list hall visited
    refine ⟨hlist.all, ?_⟩
    rw [Layout.node, Node.walk, List.filterMap_append, List.filterMap_append, hlist.first]
    split <;> split <;> simp [hf, Layout.syms]
  | .comment title dep =>
    refine ⟨fun n => by simp [Layout.node, Node.walk, Layout.syms], ?_⟩
    rw [Layout.node, Node.walk]
    split <;> simp [hf, Layout.syms]

theorem visits_walkAll {all : List S} (hname : ∀ s ∈ all, ∀ t ∈ all, name s = name t → s = t)
    (hf : ∀ title, f (.heading title) = none ∧ f (.endOf title) = none)
    (list : List (Layout S C)) (hall : ∀ s ∈ symsOf list, s ∈ all)
    (visited : List (List Char)) :
    Visits name conf f (symsOf list) visited
      (walkAll visited (nodesOf name conf shown list)).2
      (walkAll visited (nodesOf name conf shown list)).1 := by
  match list with
  | [] => exact ⟨fun n => by simp [nodesOf, walkAll, symsOf], rfl⟩
  | l :: list =>
    have hl : ∀ s ∈ l.syms, s ∈ all := fun s hs => hall s (List.mem_append_left _ hs)
    have hlist : ∀ s ∈ symsOf list, s ∈ all := fun s hs => hall s (List.mem_append_right _ hs)
    exact (visits_walk hname hf l hl visited).append (visits_walkAll hname hf list hlist _)
      fun s hs t ht => hname s (hl s hs) t (hlist t ht)

end

/-- **What is written for the symbols**, in the order of the menu: the symbols that are written,
each at its first node. -/
theorem filterMap_walkAll {list : List (Layout S C)}
    (hname : ∀ s ∈ symsOf list, ∀ t ∈ symsOf list, name s = name t → s = t)
    (hf : ∀ title, f (.heading title) = none ∧ f (.endOf title) = none) :
    (walkAll [] (nodesOf name conf shown list)).1.filterMap f =
      (symsOf list).eraseDups.filterMap fun s =>
        (conf s).bind fun w => f (.entry (name s) w) := by
  have hvisits : Visits name conf f (symsOf list) [] _
      (walkAll [] (nodesOf name conf shown list)).1 :=
    visits_walkAll hname hf list (fun s hs => hs) []
  have hfirst := hvisits.first
  simp only [List.not_mem_nil, not_false_eq_true, decide_true, List.filter_true] at hfirst
  exact hfirst

/-- The name and the value of a symbol. -/
def Chunk.written : Chunk → Option (List Char × Written)
  | .entry name val => some (name, val)
  | .heading _ | .endOf _ => none

/-- Every symbol of the menu is written. -/
theorem entry_mem_walkAll {list : List (Layout S C)}
    (hname : ∀ s ∈ symsOf list, ∀ t ∈ symsOf list, name s = name t → s = t) {s : S}
    (hs : s ∈ symsOf list) {w : Written} (hw : conf s = some w) :
    Chunk.entry (name s) w ∈ (walkAll [] (nodesOf name conf shown list)).1 := by
  have hmem : (name s, w) ∈
      (walkAll [] (nodesOf name conf shown list)).1.filterMap Chunk.written := by
    rw [filterMap_walkAll hname fun title => ⟨rfl, rfl⟩]
    refine List.mem_filterMap.mpr ⟨s, List.mem_eraseDups.mpr hs, ?_⟩
    rw [hw]
    rfl
  obtain ⟨c, hc, hwritten⟩ := List.mem_filterMap.mp hmem
  cases c with
  | entry n w' =>
    cases hwritten
    exact hc
  | heading title => cases hwritten
  | endOf title => cases hwritten

end

namespace Kconfig

variable [DecidableEq S] [DecidableEq C]

/-- A menu that has a file: the names tell the symbols apart, all symbols have a node, and the
titles stand on one line. -/
structure Filed (m : Kconfig S C) (layout : List (Layout S C)) : Prop where
  distinct : ∀ s ∈ m.definedSyms, ∀ t ∈ m.definedSyms, (m.sym t).name = (m.sym s).name → t = s
  listed : ∀ s, s ∈ symsOf layout ↔ s ∈ m.definedSyms
  title : ∀ t ∈ titlesOf layout, OneLine t

/-- No symbol of the menu is unset by a comment with the title, that is, the line of the title does
not read like `# NAME is not set` for the name of a symbol. -/
def Harmless (m : Kconfig S C) (title : List Char) : Prop :=
  ∀ s ∈ m.definedSyms, (m.sym s).origType.isTri = true → ¬ ReadsUnset (m.sym s).name title

/-- A menu that can be loaded from its file: the names can stand in it, no title reads like the
line of a symbol, the choices are as they should be, and no symbol from the environment has a
prompt. -/
structure Savable (m : Kconfig S C) (layout : List (Layout S C)) : Prop
    extends m.Filed layout where
  plainly : m.Plainly
  name : ∀ s ∈ m.definedSyms, IsName (m.sym s).name
  unset : ∀ t ∈ titlesOf layout, m.Harmless t
  hidden : ∀ s, (m.sym s).hidden = true → (m.sym s).prompts = []

omit [DecidableEq S] [DecidableEq C] in
theorem Filed.eq_of_name {m : Kconfig S C} {layout : List (Layout S C)} (hm : m.Filed layout) :
    ∀ s ∈ symsOf layout, ∀ t ∈ symsOf layout, (m.sym s).name = (m.sym t).name → s = t :=
  fun s hs t ht heq => hm.distinct t ((hm.listed t).mp ht) s ((hm.listed s).mp hs) heq

/-- The numbers and strings that are written stand on one line. -/
def Fits (m : Kconfig S C) (val : ∀ k : Key S C, k.Val) : Prop :=
  ∀ s ∈ m.definedSyms, (m.sym s).origType.isTri = false →
    ∀ w, m.written val s = some w → w.Fits (m.sym s).origType

variable {m : Kconfig S C} {layout : List (Layout S C)} {user : Inputs m.InputVal}
  {val : ∀ k : Key S C, k.Val}

omit [DecidableEq S] [DecidableEq C] in
/-- What is written of a symbol stands for its value. -/
theorem convert_written {s : S} {w : Written} (hw : m.written val s = some w) :
    (UserValue.str w.text).convert (m.sym s).origType = m.ownValue val s := by
  have htri : ∀ v : Tri, strToTri (triToStr v) = some v := by decide
  rw [written] at hw
  split at hw
  · cases htype : (m.sym s).origType
    all_goals
      rw [htype] at hw
      cases hw
    all_goals simp [UserValue.convert, ownValue, htype, SymType.isTri, Written.text, htri]
  · cases hw

omit [DecidableEq S] [DecidableEq C] in
theorem written_tri {s : S} (htri : (m.sym s).origType.isTri = true) {w : Written}
    (hw : m.written val s = some w) : w = .tri (triOf val s) := by
  rw [written] at hw
  split at hw
  · cases htype : (m.sym s).origType
    all_goals
      rw [htype] at hw htri
      cases hw
    all_goals first | rfl | cases htri
  · cases hw

section

variable (h : m.Solves user val) (hm : m.Savable layout) (hoff : m.modulesOn val = false)
include h hoff

omit [DecidableEq C] in
/-- Without modules no symbol is `m`. -/
theorem Solves.tri_ne_one (hplain : m.Plainly) {s : S} (hs : s ∈ m.definedSyms)
    (htype : (m.sym s).origType.isTri = true) : triOf val s ≠ 1 := by
  cases hchoice : (m.sym s).choice with
  | none =>
    have hbool : (m.symType s).eval user val = .bool := by
      refine (symType_cases htype).resolve_right ?_
      rw [eval_symType_eq_tristate, hoff]
      simp
    rw [h.tri_plain ⟨htype, hs, hchoice⟩, hbool]
    exact settled_ne_one _ _ _
  | some c =>
    have hvis := h.vis_sym_ne_one hoff s
    rw [h.tri_choice (hplain c).1 (m.choice_mem s c hchoice)]
    split
    · split
      · decide
      · decide
    next htwo =>
      have hzero : visOf val (.sym s) = 0 := by
        revert htwo hvis
        generalize visOf val (.sym s) = vis
        revert vis
        decide
      rw [if_neg fun hne => hne.1 hzero]
      decide

omit [DecidableEq C] in
/-- A symbol of a choice is `y` when it is the selection. -/
theorem Solves.ownValue_choice {c : C} (hc : m.Regular c) {s : S}
    (hs : (m.sym s).choice = some c) :
    m.ownValue val s = .tri 2 ↔ val (.selection c) = some s := by
  have hmem := m.choice_mem s c hs
  rw [ownValue, if_pos (hc.symType s hmem), UserValue.tri.injEq, h.tri_choice hc hmem]
  constructor
  · intro htwo
    by_contra hne
    rw [if_neg hne] at htwo
    revert htwo
    split
    · simp
    · split
      · simp
      · simp
  · intro hsel
    have hone := h.vis_sym_ne_one hoff s
    have hvis : ∀ vis : Tri, vis ≠ 0 → vis ≠ 1 → vis = 2 := by decide
    rw [if_pos (hvis _ (h.of_selection hsel).2.2 hone), if_pos hsel]

include hm

omit hoff [DecidableEq C] in
/-- A symbol that is visible is written. -/
theorem Solves.written_isSome {s : S} (hs : s ∈ m.definedSyms) (hvis : visOf val (.sym s) ≠ 0)
    (hknown : (m.sym s).origType ≠ .unknown) : ∃ w, m.written val s = some w := by
  have hflag : (val (.str s)).2 = true := by
    cases htri : (m.sym s).origType.isTri with
    | false =>
      have hshown : (m.sym s).hidden = false := by
        by_contra hhidden
        rw [Bool.not_eq_false] at hhidden
        exact hvis (h.vis_of_promptless (hm.hidden s hhidden))
      rw [h.str_text htri hknown, hshown, eval_textValue_write hvis]
      rfl
    | true =>
      have hstr : (val (.str s)).2 = (val (.tri s)).2 := by
        rw [← h (.str s)]
        show ((m.strValue s).eval user val).2 = _
        rw [strValue, htri]
        rfl
      rw [hstr, ← h (.tri s)]
      show ((m.triValue s).eval user val).2 = true
      cases hchoice : (m.sym s).choice with
      | none =>
        rw [eval_triValue_plain ⟨htri, hs, hchoice⟩, eval_plainTri, eval_ownTri_write hvis]
        simp
      | some c =>
        rw [eval_triValue_choice (hm.plainly c).1 (m.choice_mem s c hchoice), if_pos hvis]
        split
        · rfl
        · rfl
  rw [written, if_pos hflag]
  cases htype : (m.sym s).origType
  all_goals first | exact ⟨_, rfl⟩ | exact absurd htype hknown

end

/-- A value that is not `n` is written. -/
def Writes (user : Inputs m.InputVal) (val : ∀ k : Key S C, k.Val) (q : m.Ask (Tri × Bool)) :
    Prop := (q.eval user val).1 ≠ 0 → (q.eval user val).2 = true

omit [DecidableEq S] [DecidableEq C] in
theorem writes_defaultTri (s : S) (write : Bool) : Writes user val (m.defaultTri s write) := by
  rw [Writes, defaultTri, Query.eval_bind]
  split
  · exact fun hne => absurd rfl hne
  next default dep _ =>
    rw [Query.eval_bind]
    generalize (m.exprVal default).eval user val = v
    intro hne
    have hmin : min v dep ≠ 0 := hne
    show (write || min v dep != 0) = true
    rw [bne_iff_ne.mpr hmin, Bool.or_true]

omit [DecidableEq S] [DecidableEq C] in
theorem writes_ownTri (s : S) (vis : Tri) : Writes user val (m.ownTri s vis) := by
  by_cases hvis : vis = 0
  · rw [ownTri, if_neg (not_not.mpr hvis), Writes, implied, Query.eval_bind, Query.eval_bind]
    split
    · rw [Query.eval_bind]
      split
      · exact fun _ => rfl
      · exact writes_defaultTri s false
    · exact writes_defaultTri s false
  · exact fun _ => eval_ownTri_write hvis

omit [DecidableEq S] [DecidableEq C] in
theorem writes_plainTri (s : S) (vis : Tri) : Writes user val (m.plainTri s vis) := by
  rw [Writes, eval_plainTri]
  intro hne
  by_cases hrev : exprValue (m.valuesOf user val) (m.sym s).revDep = 0
  · have hown : ((m.ownTri s vis).eval user val).1 ≠ 0 := by
      intro hzero
      rw [hrev, hzero] at hne
      refine hne ?_
      simp [settled]
    simp [writes_ownTri s vis hown]
  · simp [hrev]

omit [DecidableEq C] in
/-- A symbol that is not `n` is written. -/
theorem Solves.written_of_tri (h : m.Solves user val) {s : S} (hs : s ∈ m.definedSyms)
    (htri : triOf val s ≠ 0) : m.written val s = some (.tri (triOf val s)) := by
  have htype : (m.sym s).origType.isTri = true := by
    by_contra hnot
    refine htri ?_
    show (val (.tri s)).1 = 0
    rw [← h (.tri s)]
    show ((m.triValue s).eval user val).1 = 0
    rw [triValue, m.fixed_of_defined hs]
    dsimp only
    rw [if_neg hnot]
    rfl
  have hwrite : (val (.tri s)).2 = true := by
    rw [triOf, ← h (.tri s)] at htri
    rw [← h (.tri s)]
    revert htri
    show Writes user val (m.triValue s)
    rw [triValue, m.fixed_of_defined hs]
    dsimp only
    rw [if_pos htype, Writes, Query.eval_bind]
    split
    · exact writes_plainTri s _
    · split
      · rw [Query.eval_bind]
        exact fun _ => rfl
      · split
        · rw [Query.eval_bind]
          exact fun _ => rfl
        · exact fun hne => absurd rfl hne
  have hstr : (val (.str s)).2 = true := by
    rw [← hwrite, ← h (.str s)]
    show ((m.strValue s).eval user val).2 = _
    rw [strValue, htype]
    rfl
  rw [written, if_pos hstr]
  cases horig : (m.sym s).origType
  all_goals rw [horig] at htype
  all_goals cases htype

/-! ## What is read -/

omit [DecidableEq S] [DecidableEq C] in
theorem lookup_name (hm : m.Savable layout) {s : S} (hs : s ∈ m.definedSyms) :
    m.lookup (m.sym s).name = some s := by
  cases hfind : m.lookup (m.sym s).name with
  | none =>
    have hne := List.find?_eq_none.mp hfind s hs
    simp at hne
  | some t =>
    have hname := List.find?_some hfind
    rw [decide_eq_true_eq] at hname
    rw [hm.distinct s hs t (List.mem_of_find?_eq_some hfind) hname]

/-- The settings of a file are the values of the symbols that are written. -/
structure SettingsOf (m : Kconfig S C) (val : ∀ k : Key S C, k.Val) (list : List Setting) :
    Prop where
  of_mem : ∀ x ∈ list, ∃ s ∈ m.definedSyms, ∃ w, m.written val s = some w ∧
    x = ⟨(m.sym s).name, w.text⟩
  mem : ∀ s ∈ m.definedSyms, ∀ w, m.written val s = some w → ⟨(m.sym s).name, w.text⟩ ∈ list

omit [DecidableEq C] in
/-- What is written fits the type of the symbol. -/
theorem Solves.fits_written (h : m.Solves user val) (hplain : m.Plainly)
    (hoff : m.modulesOn val = false) (hfits : m.Fits val) {s : S} (hs : s ∈ m.definedSyms)
    {w : Written} (hw : m.written val s = some w) : w.Fits (m.sym s).origType := by
  cases htri : (m.sym s).origType.isTri with
  | false => exact hfits s hs htri w hw
  | true =>
    have hne := h.tri_ne_one hoff hplain hs htri
    rw [written_tri htri hw]
    cases htype : (m.sym s).origType
    all_goals rw [htype] at htri
    all_goals first | exact hne | exact trivial | cases htri

omit [DecidableEq C] in
theorem settings_configText (h : m.Solves user val) (hm : m.Savable layout)
    (hoff : m.modulesOn val = false) (hfits : m.Fits val) {header : List Char}
    (hheader : OneLine header ∧ m.Harmless header) :
    m.SettingsOf val (loadConfig m.typeOf (m.configText header layout user val)) := by
  have hnames : ∀ name type, m.typeOf name = some type → IsName name := by
    intro name type htype
    obtain ⟨s, hs, -⟩ := Option.map_eq_some_iff.mp htype
    have hname := List.find?_some hs
    rw [decide_eq_true_eq] at hname
    exact hname ▸ hm.name s (List.mem_of_find?_eq_some hs)
  have htypeOf : ∀ s ∈ m.definedSyms, m.typeOf (m.sym s).name = some (m.sym s).origType := by
    intro s hs
    rw [typeOf, lookup_name hm hs]
    rfl
  have hharmless : ∀ title, m.Harmless title → ∀ name type, m.typeOf name = some type →
      (type = .bool ∨ type = .tristate) → ¬ ReadsUnset name title := by
    intro title htitle name type htype htri
    obtain ⟨s, hs, rfl⟩ := Option.map_eq_some_iff.mp htype
    have hname := List.find?_some hs
    rw [decide_eq_true_eq] at hname
    refine hname ▸ htitle s (List.mem_of_find?_eq_some hs) ?_
    rcases htri with htri | htri
    all_goals
      rw [htri]
      rfl
  have hwf : ∀ c ∈ (walkAll [] (nodesOf (fun s => (m.sym s).name) (m.written val)
      (fun e => exprValue (m.valuesOf user val) e ≠ 0) layout)).1, c.Wf m.typeOf := by
    intro c hc
    rcases of_walkAll layout [] c hc with ⟨s, hs, w, hw, rfl⟩ | ⟨t, ht, rfl | rfl⟩
    · have hdefined := (hm.listed s).mp hs
      exact ⟨hm.name s hdefined, _, htypeOf s hdefined,
        h.fits_written hm.plainly hoff hfits hdefined hw⟩
    · exact ⟨hm.title t ht, hharmless t (hm.unset t ht)⟩
    · exact hm.title t ht
  have hload : loadConfig m.typeOf (m.configText header layout user val) = _ :=
    loadConfig_configContents hnames ⟨hheader.1, hharmless header hheader.2⟩ hwf
  rw [hload]
  constructor
  · intro x hx
    obtain ⟨c, hc, hsetting⟩ := List.mem_filterMap.mp hx
    rcases of_walkAll layout [] c hc with ⟨s, hs, w, hw, rfl⟩ | ⟨t, ht, rfl | rfl⟩
    · exact ⟨s, (hm.listed s).mp hs, w, hw, (Option.some.inj hsetting).symm⟩
    · cases hsetting
    · cases hsetting
  · intro s hs w hw
    exact List.mem_filterMap.mpr
      ⟨_, entry_mem_walkAll hm.eq_of_name ((hm.listed s).mpr hs) hw, rfl⟩

/-! ## One line -/

/-- A value that is valid is set, and nothing else unless it selects the symbol of a choice. -/
theorem user_setValue_of_valid {st : m.State} (hst : m.Valid st.user) {s : S}
    {value v : UserValue} (hv : value.convert (m.sym s).origType = v)
    (hvalid : v.isValid (m.sym s).origType = true)
    (hselect : ∀ c, (m.sym s).choice = some c → v ≠ .tri 2) :
    (m.setValue s value st).user = Function.update st.user (.value s) (some v) := by
  rw [setValue, hv]
  split
  next hsame =>
    have hstored := hst s value hsame.1
    rw [← hv, UserValue.convert_of_isValid hstored, ← hsame.1, Function.update_eq_self]
  · dsimp only
    split
    next c hc => rw [if_neg (hselect c hc)]
    · rfl

theorem setValue_invalid {s : S} {value : UserValue} (st : m.State)
    (hvalid : ¬ (value.convert (m.sym s).origType).isValid (m.sym s).origType = true) :
    m.setValue s value st = st := by
  rw [setValue, if_neg hvalid]
  split
  · rfl
  · rfl

theorem user_setMode_of_ne {c : C} {value : UserValue} (st : m.State) {i : Input S C}
    (hi : i ≠ .mode c) : (m.setMode c value st).user i = st.user i := by
  rw [setMode]
  split
  · rfl
  · split
    · split
      · exact Function.update_of_ne hi _ _
      · rfl
    · rfl

/-- What one line has set: the value of its symbol, if it is valid, and with `y` the selection of
its choice. -/
structure Loaded (m : Kconfig S C) (s : S) (v : UserValue) (l l' : m.Loading) : Prop where
  reachable : m.Reachable l'.state
  valid : v.isValid (m.sym s).origType = true →
    l'.state.user (.value s) = some v ∧ l'.symSet s = true
  invalid : ¬ v.isValid (m.sym s).origType = true → l'.symSet s = l.symSet s
  others : ∀ t, t ≠ s →
    l'.state.user (.value t) = l.state.user (.value t) ∧ l'.symSet t = l.symSet t
  select : ∀ c, (m.sym s).choice = some c → v = .tri 2 →
    (l'.state.user (.selection c)).map Subtype.val = some s ∧ l'.choiceSet c = true
  choices : ∀ c, ¬ ((m.sym s).choice = some c ∧ v = .tri 2) →
    l'.state.user (.selection c) = l.state.user (.selection c) ∧
      l'.choiceSet c = l.choiceSet c

/-- The mode of a choice that is set before. -/
theorem Loaded.of_setChoice {s : S} {v : UserValue} {l₁ l l' : m.Loading}
    (h : m.Loaded s v l l') (huser : ∀ i, (∀ c, i ≠ .mode c) → l.state.user i = l₁.state.user i)
    (hsym : l.symSet = l₁.symSet)
    (hchoice : ∀ c, ¬ ((m.sym s).choice = some c ∧ v = .tri 2) →
      l.choiceSet c = l₁.choiceSet c) : m.Loaded s v l₁ l' where
  reachable := h.reachable
  valid := h.valid
  invalid hv := hsym ▸ h.invalid hv
  others t ht := by
    rw [← huser (.value t) (by simp), ← hsym]
    exact h.others t ht
  select := h.select
  choices c hc := by
    rw [← huser (.selection c) (by simp), ← hchoice c hc]
    exact h.choices c hc

/-- `_was_set` of the symbol that is set: a value that it is set to already is valid. -/
theorem symSet_setSym {l : m.Loading} (hst : m.Valid l.state.user) {s : S} {value v : UserValue}
    (hv : value.convert (m.sym s).origType = v) : (m.setSym s value l).symSet =
      if v.isValid (m.sym s).origType then Function.update l.symSet s true else l.symSet := by
  rw [setSym, hv]
  dsimp only
  congr 1
  refine propext (or_iff_right_of_imp fun hsame => ?_)
  have hstored := hst s value hsame.1
  rwa [← hv, UserValue.convert_of_isValid hstored]

/-- `_was_set` of the choices, when a symbol of one is set to `y`. -/
theorem choiceSet_setSym {l : m.Loading} {s : S} {value v : UserValue}
    (hv : value.convert (m.sym s).origType = v)
    (htwo : ∀ c, (m.sym s).choice = some c → (UserValue.tri 2).isValid (m.sym s).origType = true)
    (c : C) : (m.setSym s value l).choiceSet c =
      if (m.sym s).choice = some c ∧ v = .tri 2 then true else l.choiceSet c := by
  rw [setSym, hv]
  dsimp only
  cases hc : (m.sym s).choice with
  | none => rw [if_neg (by simp)]
  | some c' =>
    dsimp only
    by_cases hcv : v = .tri 2
    · rw [if_pos ⟨hcv, htwo c' hc⟩]
      by_cases hcc : c' = c
      · subst hcc
        rw [Function.update_self, if_pos ⟨rfl, hcv⟩]
      · rw [Function.update_of_ne (Ne.symm hcc), if_neg fun hboth =>
          hcc (Option.some.inj hboth.1)]
    · rw [if_neg fun hboth => hcv hboth.1, if_neg fun hboth => hcv hboth.2]

/-- The value of the symbol that is set, whether it selects the symbol or not. -/
theorem user_setValue_self {st : m.State} (hst : m.Valid st.user) {s : S} {value v : UserValue}
    (hv : value.convert (m.sym s).origType = v) (hvalid : v.isValid (m.sym s).origType = true) :
    (m.setValue s value st).user (.value s) = some v := by
  by_cases hselect : ∃ c, (m.sym s).choice = some c ∧ v = .tri 2
  · obtain ⟨c, hc, rfl⟩ := hselect
    rw [user_select hc hv hvalid, Function.update_of_ne (by simp), Function.update_self]
  · rw [user_setValue_of_valid hst hv hvalid fun c hc hcv => hselect ⟨c, hc, hcv⟩,
      Function.update_self]

/-- What else the user has set is as before, but for the selection of the symbol. -/
theorem user_setValue_other {st : m.State} (hst : m.Valid st.user) {s : S} {value v : UserValue}
    (hv : value.convert (m.sym s).origType = v) {i : Input S C} (hi : i ≠ .value s)
    (hsel : ∀ c, i = .selection c → ¬ ((m.sym s).choice = some c ∧ v = .tri 2)) :
    (m.setValue s value st).user i = st.user i := by
  by_cases hvalid : v.isValid (m.sym s).origType = true
  · by_cases hselect : ∃ c, (m.sym s).choice = some c ∧ v = .tri 2
    · obtain ⟨c, hc, rfl⟩ := hselect
      rw [user_select hc hv hvalid, Function.update_of_ne fun heq => hsel c heq ⟨hc, rfl⟩,
        Function.update_of_ne hi]
    · rw [user_setValue_of_valid hst hv hvalid fun c hc hcv => hselect ⟨c, hc, hcv⟩,
        Function.update_of_ne hi]
  · rw [setValue_invalid st (hv ▸ hvalid)]

theorem loaded_setSym {l : m.Loading} (hl : m.Reachable l.state) {s : S} {value v : UserValue}
    (hv : value.convert (m.sym s).origType = v)
    (htri : ∀ c, (m.sym s).choice = some c → (m.sym s).origType.isTri = true) :
    m.Loaded s v l (m.setSym s value l) := by
  have hst := valid_of_reachable hl
  have htwo : ∀ c, (m.sym s).choice = some c →
      (UserValue.tri 2).isValid (m.sym s).origType = true := by
    intro c hc
    have htype := htri c hc
    cases horig : (m.sym s).origType
    all_goals simp [horig, SymType.isTri, UserValue.isValid] at htype ⊢
  have hsym := symSet_setSym hst hv
  have hchoice := choiceSet_setSym (l := l) hv htwo
  refine ⟨hl.step (.setValue s value), fun hvalid => ⟨user_setValue_self hst hv hvalid, ?_⟩,
    fun hvalid => ?_, fun t ht => ⟨user_setValue_other hst hv (by simpa using ht) (by simp), ?_⟩,
    fun c hc hcv => ⟨?_, ?_⟩, fun c hc => ⟨user_setValue_other hst hv (by simp) ?_, ?_⟩⟩
  · rw [hsym, if_pos hvalid, Function.update_self]
  · rw [hsym, if_neg hvalid]
  · rw [hsym]
    split
    · exact Function.update_of_ne ht _ _
    · rfl
  · subst hcv
    show ((m.setValue s value l.state).user (.selection c)).map Subtype.val = some s
    rw [user_select hc hv (htwo c hc), Function.update_self]
    rfl
  · rw [hchoice, if_pos ⟨hc, hcv⟩]
  · rintro c' hcc
    cases hcc
    exact hc
  · rw [hchoice, if_neg hc]

/-- A line of the file that has been written. -/
theorem loaded_loadOne (h : m.Solves user val) (hm : m.Savable layout)
    (hoff : m.modulesOn val = false) {l : m.Loading} (hl : m.Reachable l.state) {s : S}
    (hs : s ∈ m.definedSyms) {w : Written} (hw : m.written val s = some w) :
    m.Loaded s (m.ownValue val s) l (m.loadOne l ⟨(m.sym s).name, w.text⟩) := by
  have htri : ∀ c, (m.sym s).choice = some c → (m.sym s).origType.isTri = true := fun c hc =>
    (hm.plainly c).1.symType s (m.choice_mem s c hc)
  have hconvert := convert_written hw
  rw [loadOne, lookup_name hm hs]
  dsimp only
  cases hchoice : (m.sym s).choice with
  | none => exact loaded_setSym hl hconvert htri
  | some c =>
    dsimp only
    split
    next hmode =>
      -- the mode is set to `y`, and the symbol too
      have hown : m.ownValue val s = .tri 2 := by
        have hne := h.tri_ne_one hoff hm.plainly hs hmode.1
        have hzero : triOf val s ≠ 0 := by
          intro hzero
          rw [written_tri hmode.1 hw, hzero] at hmode
          exact hmode.2 rfl
        have htwo : ∀ v : Tri, v ≠ 1 → v ≠ 0 → v = 2 := by decide
        rw [ownValue, if_pos hmode.1, htwo _ hne hzero]
      refine Loaded.of_setChoice (loaded_setSym (hl.step (.setMode c (.str w.text))) hconvert htri)
        (fun i hi => user_setMode_of_ne _ (hi c)) rfl fun c' hc' => ?_
      have hne : c' ≠ c := fun heq => hc' ⟨hchoice.trans (congrArg some heq.symm), hown⟩
      rw [setChoice]
      dsimp only
      split
      · exact Function.update_of_ne hne _ _
      · cases (UserValue.str w.text).convert (m.choice c).origType with
        | tri v =>
          dsimp only
          split
          · exact Function.update_of_ne hne _ _
          · rfl
        | str v => rfl
    · exact loaded_setSym hl hconvert htri

/-! ## All lines -/

/-- What has been set after some lines: every symbol that has been set has its own value, and those
of these lines are set as far as their values are valid; the same for choices and selections. -/
structure LoadInv (m : Kconfig S C) (val : ∀ k : Key S C, k.Val) (done : List S)
    (l : m.Loading) : Prop where
  reachable : m.Reachable l.state
  sym : ∀ s, l.symSet s = true → (m.ownValue val s).isValid (m.sym s).origType = true ∧
    l.state.user (.value s) = some (m.ownValue val s)
  symSet : ∀ s ∈ done, (m.ownValue val s).isValid (m.sym s).origType = true → l.symSet s = true
  choice : ∀ c, l.choiceSet c = true → ∃ s, (m.sym s).choice = some c ∧
    m.ownValue val s = .tri 2 ∧ (l.state.user (.selection c)).map Subtype.val = some s
  choiceSet : ∀ s ∈ done, ∀ c, (m.sym s).choice = some c → m.ownValue val s = .tri 2 →
    l.choiceSet c = true

/-- One line keeps the invariant. -/
theorem LoadInv.line {done : List S} {l l' : m.Loading} (hinv : m.LoadInv val done l) {s : S}
    (h : m.Loaded s (m.ownValue val s) l l') : m.LoadInv val (done ++ [s]) l' where
  reachable := h.reachable
  sym t ht := by
    by_cases hts : t = s
    · subst hts
      by_cases hvalid : (m.ownValue val t).isValid (m.sym t).origType = true
      · exact ⟨hvalid, (h.valid hvalid).1⟩
      · rw [h.invalid hvalid] at ht
        exact absurd (hinv.sym t ht).1 hvalid
    · rw [(h.others t hts).2] at ht
      rw [(h.others t hts).1]
      exact hinv.sym t ht
  symSet t ht hvalid := by
    by_cases hts : t = s
    · subst hts
      exact (h.valid hvalid).2
    · rw [(h.others t hts).2]
      refine hinv.symSet t ?_ hvalid
      exact (List.mem_append.mp ht).resolve_right fun hmem => hts (List.mem_singleton.mp hmem)
  choice c hc := by
    by_cases hselect : (m.sym s).choice = some c ∧ m.ownValue val s = .tri 2
    · exact ⟨s, hselect.1, hselect.2, (h.select c hselect.1 hselect.2).1⟩
    · rw [(h.choices c hselect).2] at hc
      rw [(h.choices c hselect).1]
      exact hinv.choice c hc
  choiceSet t ht c hc hown := by
    by_cases hselect : (m.sym s).choice = some c ∧ m.ownValue val s = .tri 2
    · exact (h.select c hselect.1 hselect.2).2
    · rw [(h.choices c hselect).2]
      refine hinv.choiceSet t ?_ c hc hown
      refine (List.mem_append.mp ht).resolve_right fun hmem => hselect ?_
      exact List.mem_singleton.mp hmem ▸ ⟨hc, hown⟩

theorem loadInv_foldl (h : m.Solves user val) (hm : m.Savable layout)
    (hoff : m.modulesOn val = false) {list : List Setting} {done : List S} {l : m.Loading}
    (hlist : ∀ x ∈ list, ∃ s ∈ m.definedSyms, ∃ w, m.written val s = some w ∧
      x = ⟨(m.sym s).name, w.text⟩) (hinv : m.LoadInv val done l) :
    ∃ done', m.LoadInv val done' (list.foldl m.loadOne l) ∧ (∀ s ∈ done, s ∈ done') ∧
      ∀ s ∈ m.definedSyms, ∀ w, ⟨(m.sym s).name, w⟩ ∈ list → s ∈ done' := by
  induction list generalizing done l with
  | nil => exact ⟨done, hinv, fun _ hs => hs, fun _ _ _ hx => (nomatch hx)⟩
  | cons x list ih =>
    rw [List.forall_mem_cons] at hlist
    obtain ⟨⟨s, hs, w, hw, rfl⟩, hlist⟩ := hlist
    have hline := hinv.line (loaded_loadOne h hm hoff hinv.reachable hs hw)
    obtain ⟨done', hinv', hdone, hmem⟩ := ih hlist hline
    refine ⟨done', hinv', fun t ht => hdone t (List.mem_append_left _ ht), fun t ht v hx => ?_⟩
    rcases List.mem_cons.mp hx with heq | hx
    · have hts : t = s := hm.distinct s hs t ht (Setting.mk.inj heq).1
      exact hdone t (List.mem_append_right _ (List.mem_singleton.mpr hts))
    · exact hmem t ht v hx

/-! ## What is left unset -/

theorem user_unsetValue (s : S) (st : m.State) :
    (m.unsetValue s st).user = Function.update st.user (.value s) none := by
  rw [unsetValue]
  split
  next hnone => rw [← hnone, Function.update_eq_self]
  · rfl

theorem user_unsetMode (c : C) (st : m.State) : (m.unsetMode c st).user =
    Function.update (Function.update st.user (.mode c) none) (.selection c) none := by
  rw [unsetMode]
  split
  next hnone =>
    have hmode : Function.update st.user (.mode c) none = st.user := by
      rw [← hnone.1, Function.update_eq_self]
    rw [hmode, ← hnone.2, Function.update_eq_self]
  · rfl

/-- The symbols that the file has not set. -/
theorem unset_syms (symSet : S → Bool) (syms : List S) {st : m.State} (hst : m.Reachable st) :
    let st' := syms.foldl (fun st s => if symSet s then st else m.unsetValue s st) st
    m.Reachable st' ∧ (∀ c, st'.user (.selection c) = st.user (.selection c)) ∧
      ∀ s, st'.user (.value s) = if s ∈ syms ∧ symSet s = false then none
        else st.user (.value s) := by
  induction syms generalizing st with
  | nil => exact ⟨hst, fun _ => rfl, fun s => by simp⟩
  | cons t syms ih =>
    cases hset : symSet t with
    | true =>
      have hfold := ih hst
      simp only [List.foldl_cons, hset, if_true]
      refine ⟨hfold.1, hfold.2.1, fun s => (hfold.2.2 s).trans ?_⟩
      by_cases hs : symSet s = false
      · have hne : s ≠ t := by
          rintro rfl
          rw [hset] at hs
          cases hs
        simp [hne]
      · simp [hs]
    | false =>
      have hfold := ih (hst.step (.unsetValue t))
      simp only [List.foldl_cons, hset, Bool.false_eq_true, if_false]
      refine ⟨hfold.1, fun c => (hfold.2.1 c).trans ?_, fun s => (hfold.2.2 s).trans ?_⟩
      · show (m.unsetValue t st).user (.selection c) = _
        rw [user_unsetValue, Function.update_of_ne (by simp)]
      · show (if s ∈ syms ∧ symSet s = false then none
          else (m.unsetValue t st).user (.value s)) = _
        rw [user_unsetValue]
        by_cases hst : s = t
        · subst hst
          rw [Function.update_self, ite_self, if_pos ⟨List.mem_cons_self, hset⟩]
        · rw [Function.update_of_ne (by simpa using hst)]
          simp [hst]

/-- The choices that the file has not set. -/
theorem unset_choices (choiceSet : C → Bool) (choices : List C) {st : m.State}
    (hst : m.Reachable st) :
    let st' := choices.foldl (fun st c => if choiceSet c then st else m.unsetMode c st) st
    m.Reachable st' ∧ (∀ s, st'.user (.value s) = st.user (.value s)) ∧
      ∀ c, st'.user (.selection c) = if c ∈ choices ∧ choiceSet c = false then none
        else st.user (.selection c) := by
  induction choices generalizing st with
  | nil => exact ⟨hst, fun _ => rfl, fun c => by simp⟩
  | cons d choices ih =>
    cases hset : choiceSet d with
    | true =>
      have hfold := ih hst
      simp only [List.foldl_cons, hset, if_true]
      refine ⟨hfold.1, hfold.2.1, fun c => (hfold.2.2 c).trans ?_⟩
      by_cases hc : choiceSet c = false
      · have hne : c ≠ d := by
          rintro rfl
          rw [hset] at hc
          cases hc
        simp [hne]
      · simp [hc]
    | false =>
      have hfold := ih (hst.step (.unsetMode d))
      simp only [List.foldl_cons, hset, Bool.false_eq_true, if_false]
      refine ⟨hfold.1, fun s => (hfold.2.1 s).trans ?_, fun c => (hfold.2.2 c).trans ?_⟩
      · show (m.unsetMode d st).user (.value s) = _
        rw [user_unsetMode, Function.update_of_ne (by simp), Function.update_of_ne (by simp)]
      · show (if c ∈ choices ∧ choiceSet c = false then none
          else (m.unsetMode d st).user (.selection c)) = _
        rw [user_unsetMode]
        by_cases hcd : c = d
        · subst hcd
          rw [Function.update_self, ite_self, if_pos ⟨List.mem_cons_self, hset⟩]
        · rw [Function.update_of_ne (by simpa using hcd), Function.update_of_ne (by simp)]
          simp [hcd]

/-! ## The round trip -/

/-- The inputs after the load are the values. -/
theorem recorded_load (h : m.Solves user val) (hm : m.Savable layout)
    (hoff : m.modulesOn val = false) (hfits : m.Fits val) {header : List Char}
    (hheader : OneLine header ∧ m.Harmless header) {st : m.State}
    (hst : m.Reachable st) :
    m.Reachable (m.load (m.configText header layout user val) st) ∧
      m.Recorded (m.load (m.configText header layout user val) st).user val := by
  have hsettings := settings_configText h hm hoff hfits hheader
  have hstart : m.LoadInv val [] ⟨st, fun _ => false, fun _ => false⟩ :=
    ⟨hst, fun _ hs => (nomatch hs), fun _ hs => (nomatch hs), fun _ hc => (nomatch hc),
      fun _ hs => (nomatch hs)⟩
  obtain ⟨done, hinv, -, hdone⟩ := loadInv_foldl h hm hoff hsettings.of_mem hstart
  rw [load]
  generalize (loadConfig m.typeOf (m.configText header layout user val)).foldl m.loadOne
    ⟨st, fun _ => false, fun _ => false⟩ = l at hinv
  have hsyms := unset_syms l.symSet m.definedSyms hinv.reachable
  have hchoices := unset_choices l.choiceSet m.choices hsyms.1
  refine ⟨hchoices.1, fun s hs hvis => ?_, fun c => ?_⟩
  · -- the value of a symbol that is visible
    rw [hchoices.2.1, hsyms.2.2]
    by_cases hvalid : (m.ownValue val s).isValid (m.sym s).origType = true
    · obtain ⟨w, hw⟩ := h.written_isSome hm hs hvis (UserValue.type_of_isValid hvalid)
      have hset := hinv.symSet s (hdone s hs w.text (hsettings.mem s hs w hw)) hvalid
      rw [if_neg (by simp [hset]), if_pos hvalid, (hinv.sym s hset).2]
    · have hset : l.symSet s = false := by
        by_contra hset
        exact hvalid (hinv.sym s ((Bool.not_eq_false _).mp hset)).1
      rw [if_pos ⟨hs, hset⟩, if_neg hvalid]
  · -- the selection of a choice
    have hlisted : c ∈ m.choices := m.choice_listed c
    rw [hchoices.2.2, hsyms.2.1]
    cases hset : l.choiceSet c with
    | true =>
      obtain ⟨s, hs, hown, huser⟩ := hinv.choice c hset
      rw [if_neg (by simp), huser]
      exact ((h.ownValue_choice hoff (hm.plainly c).1 hs).mp hown).symm
    | false =>
      rw [if_pos ⟨hlisted, rfl⟩]
      cases hval : val (.selection c) with
      | none => rfl
      | some s =>
        exfalso
        obtain ⟨-, hs, hvis⟩ := h.of_selection hval
        have hchoice := (hm.plainly c).1.choice s hs
        have hdefined : s ∈ m.definedSyms := m.defined_of_choice hchoice
        have hown := (h.ownValue_choice hoff (hm.plainly c).1 hchoice).mpr hval
        have hknown : (m.sym s).origType ≠ .unknown := by
          intro hunknown
          have htype := (hm.plainly c).1.symType s hs
          rw [hunknown] at htype
          cases htype
        obtain ⟨w, hw⟩ := h.written_isSome hm hdefined hvis hknown
        have hdone := hdone s hdefined w.text (hsettings.mem s hdefined w hw)
        rw [hinv.choiceSet s hdone c hchoice hown] at hset
        cases hset

/-- **A menu shows what has been saved**, when it has loaded the file, whatever it was like
before. -/
theorem reload_of_reachable {rank : Item S C → Nat} (hrank : m.Layered rank)
    (hm : m.Savable layout) {st st₀ : m.State} (hst : m.Reachable st) (hst₀ : m.Reachable st₀)
    {val val' : ∀ k : Key S C, k.Val} (hval : m.Shows st val) (hoff : triOf val m.modules = 0)
    (hfits : m.Fits val) {header : List Char}
    (hheader : OneLine header ∧ m.Harmless header)
    (hval' : m.Shows (m.load (m.configText header layout st.user val) st₀) val') :
    val' = val := by
  have hmodules : m.modulesOn val = false := by simp [modulesOn, hoff]
  have hload := recorded_load hval.solves hm hmodules hfits hheader hst₀
  exact hval'.eq_of_solves hrank
    (hval.solves.of_recorded hm.plainly hmodules hload.2 (valid_of_reachable hst))

/-- The nodes of `bookMenu`. -/
def bookLayout : List (Layout BookSym Unit) :=
  [.choice [.symbol .bookLfs [], .symbol .bookBlfs []], .symbol .initsys [], .symbol .blfsTool []]

theorem bookMenu_savable : bookMenu.Savable bookLayout where
  plainly _ := ⟨bookMenu_regular, rfl⟩
  name s hs := by
    simp only [bookMenu, List.mem_cons, List.not_mem_nil, or_false] at hs
    rcases hs with rfl | rfl | rfl | rfl
    all_goals exact ⟨⟨by decide, by decide⟩, by decide, by decide, by decide⟩
  distinct s hs t ht hname := by
    cases s
    all_goals
      cases t
      all_goals first | rfl | exact absurd hname (by decide)
  listed s := by simp [bookLayout, symsOf, Layout.syms, bookMenu]
  title t ht := by simp [bookLayout, titlesOf, Layout.titles] at ht
  unset t ht := by simp [bookLayout, titlesOf, Layout.titles] at ht
  hidden s hs := by
    cases s
    all_goals cases hs

/-- A menu for the BLFS book is saved, and read in after the parsing. -/
theorem bookMenu_reload : ∃ val val',
    bookMenu.Shows (bookMenu.setValue .bookBlfs (.tri 2) bookMenu.start) val ∧
    bookMenu.Shows (bookMenu.load (bookMenu.configText "Automatically generated".toList bookLayout
      (bookMenu.setValue .bookBlfs (.tri 2) bookMenu.start).user val) bookMenu.start) val' ∧
    val' = val := by
  have hst : bookMenu.Reachable (bookMenu.setValue .bookBlfs (.tri 2) bookMenu.start) :=
    .step (.setValue BookSym.bookBlfs (.tri 2)) .start
  obtain ⟨val, hval⟩ := exists_shows bookMenu_layered hst
  have hmodules : val (.tri .modules) = (0, false) := hval.eq_of_compute 20 rfl
  have hoff : triOf val bookMenu.modules = 0 := congrArg Prod.fst hmodules
  have hinitsys : val (.str .initsys) = ([], false) := hval.eq_of_compute 20 rfl
  have hfits : bookMenu.Fits val := by
    intro s hs htype w hw
    simp only [bookMenu, List.mem_cons, List.not_mem_nil, or_false] at hs
    rcases hs with rfl | rfl | rfl | rfl
    · cases htype
    · cases htype
    · rw [written, hinitsys] at hw
      cases hw
    · cases htype
  have hheader : OneLine "Automatically generated".toList ∧
      bookMenu.Harmless "Automatically generated".toList := by
    refine ⟨⟨by decide, by decide⟩, fun s hs _ => ?_⟩
    simp only [bookMenu, List.mem_cons, List.not_mem_nil, or_false] at hs
    rcases hs with rfl | rfl | rfl | rfl
    all_goals decide
  obtain ⟨val', hval'⟩ := exists_shows bookMenu_layered
    (recorded_load hval.solves bookMenu_savable (by simp [modulesOn, hoff]) hfits
      hheader Reachable.start).1
  exact ⟨val, val', hval, hval', reload_of_reachable bookMenu_layered bookMenu_savable hst .start
    hval hoff hfits hheader hval'⟩

end Kconfig

end Jhalfs.Menu
