import Jhalfs.Menu.Invalidate

/-!
# The state of the menu

What the user has set, and the cache. `set_value` and `unset_value` of symbols and choices change
both (src/menu/kconfiglib.py); reading a property changes the cache.

- `setValue`, `unsetValue`, `setMode` and `unsetMode`: the calls. A value that is not valid for
  the type of its symbol changes nothing, and one of a symbol in a choice may change the
  selection of the choice, too.
- `read`: reading a property, with the depth of the recursion as its bound.
- `Action` and `Kconfig.step`: the calls as one function.
- `Reachable`: the states of a run from a menu that has been parsed, with reads between the
  calls.

A change of the inputs goes with a search that throws away what may depend on them
(`Clears.kept`), and a read only adds properties with what they have been computed from. So
in every reachable state each property that is cached comes from properties that are cached
and from what the user has set (`kept_of_reachable`, by induction over the run).

**Main result**: `read_of_reachable`. In a menu without dependency loops a read gives what is
computed without a cache, whatever has been read and set before.
-/

namespace Jhalfs.Menu

open Memo

variable {S C : Type}

/-- `STR_TO_TRI`. -/
def strToTri : List Char → Option Tri
  | ['n'] => some 0
  | ['m'] => some 1
  | ['y'] => some 2
  | _ => none

/-- The texts of the tristate values stand for them. -/
def UserValue.convert (value : UserValue) (type : SymType) : UserValue :=
  match value with
  | .str val => if type.isTri then ((strToTri val).map .tri).getD value else value
  | .tri _ => value

/-- What is valid for the type of a symbol (`set_value`). -/
def UserValue.isValid : UserValue → SymType → Bool
  | .tri val, .bool => val ≠ 1
  | .tri _, .tristate => true
  | .str _, .string => true
  | .str val, .int => (toInt 10 val).isSome
  | .str val, .hex => (toInt 16 val).any (0 ≤ ·)
  | _, _ => false

theorem UserValue.type_of_isValid {value : UserValue} {type : SymType}
    (h : value.isValid type = true) : type ≠ .unknown := by
  rintro rfl
  cases value
  · cases h
  · cases h

theorem UserValue.convert_of_isValid {value : UserValue} {type : SymType}
    (h : value.isValid type = true) : value.convert type = value := by
  cases value with
  | tri val => rfl
  | str val =>
    have htri : type.isTri = false := by
      cases type
      all_goals first | rfl | cases h
    rw [convert, htri]
    rfl

/-- The modes that are valid for the type of a choice. -/
def isValidMode (val : Tri) (type : SymType) : Bool :=
  (type = .bool && val ≠ 1) || type = .tristate

namespace Kconfig

/-- What the user has set, and what is cached. The menu itself does not change after the parsing. -/
structure State (m : Kconfig S C) where
  user : Inputs m.InputVal
  cache : PropCache S C

variable (m : Kconfig S C)

/-- After the parsing. -/
def start : m.State where
  user
    | .value _ => none
    | .mode _ => none
    | .selection _ => none
  cache _ := none

variable [DecidableEq S] [DecidableEq C]

/-- `_rec_invalidate_if_has_prompt`. -/
def recInvalidateIfHasPrompt (s : S) (cache : PropCache S C) : PropCache S C :=
  if (m.sym s).prompts = [] then cache else m.recInvalidate (.sym s) cache

/-- `Symbol.set_value`: a valid value is set, and what may depend on the symbol is thrown away.
In a choice `y` selects the symbol, too. -/
def setValue (s : S) (value : UserValue) (st : m.State) : m.State :=
  if st.user (.value s) = some value ∧ (m.sym s).choice = none then st
  else if (value.convert (m.sym s).origType).isValid (m.sym s).origType then
    let user := Function.update st.user (.value s) (some (value.convert (m.sym s).origType))
    match hc : (m.sym s).choice with
    | some c =>
      if value.convert (m.sym s).origType = .tri 2 then
        ⟨Function.update user (.selection c) (some ⟨s, m.choice_mem s c hc⟩),
          m.recInvalidate (.choice c) st.cache⟩
      else ⟨user, m.recInvalidateIfHasPrompt s st.cache⟩
    | none => ⟨user, m.recInvalidateIfHasPrompt s st.cache⟩
  else st

/-- `Symbol.unset_value`. -/
def unsetValue (s : S) (st : m.State) : m.State :=
  if st.user (.value s) = none then st
  else ⟨Function.update st.user (.value s) none, m.recInvalidateIfHasPrompt s st.cache⟩

/-- `Choice.set_value`. -/
def setMode (c : C) (value : UserValue) (st : m.State) : m.State :=
  if (st.user (.mode c)).map .tri = some value then st
  else match value.convert (m.choice c).origType with
    | .tri val =>
      if isValidMode val (m.choice c).origType then
        ⟨Function.update st.user (.mode c) (some val), m.recInvalidate (.choice c) st.cache⟩
      else st
    | .str _ => st

/-- `Choice.unset_value`. -/
def unsetMode (c : C) (st : m.State) : m.State :=
  if st.user (.mode c) = none ∧ st.user (.selection c) = none then st
  else ⟨Function.update (Function.update st.user (.mode c) none) (.selection c) none,
    m.recInvalidate (.choice c) st.cache⟩

/-- Reading a property, `depth` calls deep. It may fail for a small depth; what it returns does
not depend on it. -/
def read (depth : Nat) (k : Key S C) (st : m.State) : Option (k.Val × m.State) :=
  (fetch m.body st.user depth k st.cache).map fun r => (r.1, ⟨st.user, r.2⟩)

end Kconfig

/-- The calls that set something. -/
inductive Action (S C : Type) where
  | setValue (s : S) (value : UserValue)
  | unsetValue (s : S)
  | setMode (c : C) (value : UserValue)
  | unsetMode (c : C)

namespace Kconfig

variable (m : Kconfig S C) [DecidableEq S] [DecidableEq C]

def step : Action S C → m.State → m.State
  | .setValue s value => m.setValue s value
  | .unsetValue s => m.unsetValue s
  | .setMode c value => m.setMode c value
  | .unsetMode c => m.unsetMode c

/-- The states of the menu: what a run of calls and reads can lead to, from the menu after its
parsing. -/
inductive Reachable : m.State → Prop
  | start : Reachable m.start
  | step (action : Action S C) {st : m.State} (h : Reachable st) : Reachable (m.step action st)
  | read {depth : Nat} {k : Key S C} {v : k.Val} {st st' : m.State} (h : Reachable st)
      (hread : m.read depth k st = some (v, st')) : Reachable st'

/-! ## One step -/

variable {m} {st : m.State}

/-- A change of what the user has set to a symbol. -/
theorem kept_value {s : S} (hkept : Kept m.body st.user st.cache) (w : Option UserValue) :
    Kept m.body (Function.update st.user (.value s) w)
      (m.recInvalidateIfHasPrompt s st.cache) := by
  rw [recInvalidateIfHasPrompt]
  split
  next hprompts =>
    refine (Clears.nil st.cache).kept hkept fun k v hk i huses => Or.inr ?_
    refine Function.update_of_ne ?_ _ _
    rintro rfl
    obtain ⟨-, v, hv, hne⟩ := value_uses huses
    exact hne (vis_of_promptless hkept hprompts hv)
  next hprompts =>
    have hs : s ∈ m.definedSyms := by
      by_contra hs
      exact hprompts (m.undefined s hs).1
    obtain ⟨gone, hgone, hclears⟩ :=
      exists_clears (mem_items.mpr (Or.inl ⟨s, hs, rfl⟩)) st.cache
    refine hclears.kept hkept fun k v hk i huses => ?_
    by_cases hi : i = .value s
    · subst hi
      exact Or.inl ((value_uses huses).1 ▸ hgone)
    · exact Or.inr (Function.update_of_ne hi _ _)

/-- What has asked for the mode or the selection of a choice goes with the choice. -/
theorem gone_of_choice {c : C} {gone : Item S C → Prop} {cache' : PropCache S C}
    (hkept : Kept m.body st.user st.cache)
    (h : m.Clears [.choice c] st.cache cache' gone) (hc : gone (.choice c)) {k : Key S C}
    {v : k.Val} (hk : st.cache k = some v) {i : Input S C}
    (huses : (m.body k).Uses st.user st.cache (.inr i))
    (hi : i = .mode c ∨ i = .selection c ∨ ∃ s, i = .value s ∧ (m.sym s).choice = some c) :
    gone k.item := by
  have hasks := (m.all_body k).of_uses huses
  have hdefined : k.item ∈ m.items := by
    rw [mem_items]
    cases hitem : k.item with
    | choice c => exact Or.inr ⟨c, rfl⟩
    | sym s =>
      by_contra hs
      obtain ⟨_, heq, -⟩ := item_of_uses hkept hitem (fun hs' => hs (Or.inl ⟨s, hs', rfl⟩)) huses
      cases heq
  have hedge : .choice c ∈ m.refs k.item → gone k.item := by
    intro href
    obtain ⟨w, hw⟩ := vis_of_uses hkept hk (fun s hs => fixed_of_mem_items (hs ▸ hdefined)) huses
    refine h.closed _ hc _ (edge_of_mem_refs (mem_items.mpr (Or.inr ⟨c, rfl⟩)) hdefined href) ?_
    rw [isLive, hw]
    rfl
  rcases hi with rfl | rfl | ⟨s, rfl, hs⟩
  · rcases hasks with ⟨-, href⟩ | rfl | rfl
    · exact hedge href
    · exact hc
    · exact hc
  · cases hasks
    exact hc
  · have hitem := (value_uses huses).1
    exact hedge (hitem ▸ m.choice_ref s c hs)

/-- A change of what the user has set to a choice and its symbols. -/
theorem kept_choice {c : C} (hkept : Kept m.body st.user st.cache) {user : Inputs m.InputVal}
    (huser : ∀ i, user i = st.user i ∨ i = .mode c ∨ i = .selection c ∨
      ∃ s, i = .value s ∧ (m.sym s).choice = some c) :
    Kept m.body user (m.recInvalidate (.choice c) st.cache) := by
  obtain ⟨gone, hgone, hclears⟩ :=
    exists_clears (mem_items.mpr (Or.inr ⟨c, rfl⟩)) st.cache
  refine hclears.kept hkept fun k v hk i huses => ?_
  rcases huser i with heq | hi
  · exact Or.inr heq
  · exact Or.inl (gone_of_choice hkept hclears hgone hk huses hi)

theorem kept_step (hkept : Kept m.body st.user st.cache) (action : Action S C) :
    Kept m.body (m.step action st).user (m.step action st).cache := by
  cases action with
  | setValue s value =>
    show Kept m.body (m.setValue s value st).user (m.setValue s value st).cache
    rw [setValue]
    split
    · exact hkept
    · split
      · dsimp only
        split
        next c hc =>
          split
          · refine kept_choice hkept fun i => ?_
            by_cases hsel : i = .selection c
            · exact Or.inr (Or.inr (Or.inl hsel))
            · by_cases hval : i = .value s
              · exact Or.inr (Or.inr (Or.inr ⟨s, hval, hc⟩))
              · exact Or.inl ((Function.update_of_ne hsel _ _).trans
                  (Function.update_of_ne hval _ _))
          · exact kept_value hkept _
        · exact kept_value hkept _
      · exact hkept
  | unsetValue s =>
    show Kept m.body (m.unsetValue s st).user (m.unsetValue s st).cache
    rw [unsetValue]
    split
    · exact hkept
    · exact kept_value hkept _
  | setMode c value =>
    show Kept m.body (m.setMode c value st).user (m.setMode c value st).cache
    rw [setMode]
    split
    · exact hkept
    · split
      · split
        · refine kept_choice hkept fun i => ?_
          by_cases hi : i = .mode c
          · exact Or.inr (Or.inl hi)
          · exact Or.inl (Function.update_of_ne hi _ _)
        · exact hkept
      · exact hkept
  | unsetMode c =>
    show Kept m.body (m.unsetMode c st).user (m.unsetMode c st).cache
    rw [unsetMode]
    split
    · exact hkept
    · refine kept_choice hkept fun i => ?_
      by_cases hsel : i = .selection c
      · exact Or.inr (Or.inr (Or.inl hsel))
      · by_cases hmode : i = .mode c
        · exact Or.inr (Or.inl hmode)
        · exact Or.inl ((Function.update_of_ne hsel _ _).trans
            (Function.update_of_ne hmode _ _))

/-! ## All runs -/

theorem read_eq_some {depth : Nat} {k : Key S C} {v : k.Val} {st' : m.State}
    (h : m.read depth k st = some (v, st')) :
    fetch m.body st.user depth k st.cache = some (v, st'.cache) ∧ st'.user = st.user := by
  obtain ⟨r, hr, heq⟩ := Option.map_eq_some_iff.mp h
  cases heq
  exact ⟨hr, rfl⟩

/-- **What is cached comes from what is cached**, in every state of the menu. By induction over the
run; a call that changes an input throws away what has asked for it. -/
theorem kept_of_reachable (h : m.Reachable st) : Kept m.body st.user st.cache := by
  induction h with
  | start => exact kept_empty _ _
  | step action _ ih => exact kept_step ih action
  | read _ hread ih =>
    obtain ⟨hfetch, huser⟩ := read_eq_some hread
    rw [huser]
    exact (answered_of_fetch ih hfetch).kept

/-- What the user has set is valid for the type of its symbol or choice. -/
def Valid (m : Kconfig S C) (user : Inputs m.InputVal) : Prop :=
  ∀ s v, user (.value s) = some v → v.isValid (m.sym s).origType = true

theorem Valid.update_value {user : Inputs m.InputVal} (h : m.Valid user) {s : S}
    {w : Option UserValue} (hw : ∀ v, w = some v → v.isValid (m.sym s).origType = true) :
    m.Valid (Function.update user (.value s) w) := by
  intro t v hv
  by_cases hts : (Input.value t : Input S C) = .value s
  · cases hts
    rw [Function.update_self] at hv
    exact hw v hv
  · rw [Function.update_of_ne hts] at hv
    exact h t v hv

theorem Valid.update_of_ne {user : Inputs m.InputVal} (h : m.Valid user) {i : Input S C}
    (hi : ∀ s, i ≠ .value s) (w : m.InputVal i) : m.Valid (Function.update user i w) := by
  intro t v hv
  rw [Function.update_of_ne (hi t).symm] at hv
  exact h t v hv

theorem valid_of_reachable (h : m.Reachable st) : m.Valid st.user := by
  induction h with
  | start => exact fun _ _ hv => nomatch hv
  | read _ hread ih =>
    rw [(read_eq_some hread).2]
    exact ih
  | @step action st _ ih =>
    cases action with
    | setValue s value =>
      show m.Valid (m.setValue s value st).user
      rw [setValue]
      split
      · exact ih
      · split
        next hvalid =>
          have hset : m.Valid (Function.update st.user (.value s)
              (some (value.convert (m.sym s).origType))) :=
            ih.update_value fun v hv => Option.some.inj hv ▸ hvalid
          dsimp only
          split
          · split
            · exact hset.update_of_ne (by simp) _
            · exact hset
          · exact hset
        · exact ih
    | unsetValue s =>
      show m.Valid (m.unsetValue s st).user
      rw [unsetValue]
      split
      · exact ih
      · exact ih.update_value fun v hv => nomatch hv
    | setMode c value =>
      show m.Valid (m.setMode c value st).user
      rw [setMode]
      split
      · exact ih
      · split
        · split
          · exact ih.update_of_ne (by simp) _
          · exact ih
        · exact ih
    | unsetMode c =>
      show m.Valid (m.unsetMode c st).user
      rw [unsetMode]
      split
      · exact ih
      · exact (ih.update_of_ne (by simp) _).update_of_ne (by simp) _

/-- **Reading a property gives what it gives without a cache**, whatever has been read and set
before. -/
theorem read_of_reachable {rank : Item S C → Nat} (hrank : m.Layered rank) (h : m.Reachable st)
    {k : Key S C} {depth : Nat} (hdepth : m.keyRank rank k < depth) :
    ∃ v cache', m.read depth k st = some (v, ⟨st.user, cache'⟩) ∧
      compute m.body st.user depth k = some v := by
  have hranked := ranked_body hrank
  obtain ⟨⟨v, cache'⟩, hfetch⟩ : ∃ r, fetch m.body st.user depth k st.cache = some r :=
    exists_fetch hranked hdepth st.cache
  have hanswered := answered_of_fetch (kept_of_reachable h) hfetch
  refine ⟨v, cache', ?_, ?_⟩
  · rw [read, hfetch]
    rfl
  · exact hanswered.kept.compute hranked
      ((Query.replay_get k).symm.trans hanswered.replay) hdepth

/-- The init system, after the BLFS book has been selected. -/
theorem bookMenu_read : ∃ v cache', bookMenu.read 30 (.str .initsys)
      (bookMenu.setValue .bookBlfs (.tri 2) bookMenu.start) =
        some (v, ⟨(bookMenu.setValue .bookBlfs (.tri 2) bookMenu.start).user, cache'⟩) ∧
      compute bookMenu.body (bookMenu.setValue .bookBlfs (.tri 2) bookMenu.start).user 30
        (.str .initsys) = some v :=
  read_of_reachable bookMenu_layered (.step (.setValue .bookBlfs (.tri 2)) .start) (by decide)

end Kconfig

end Jhalfs.Menu
