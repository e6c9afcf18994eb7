import Mathlib.Order.Basic
import Jhalfs.Menu.Depends

/-!
# The cache of the menu

When the user sets a value, the properties that may depend on it are thrown away
(`_rec_invalidate`, src/menu/kconfiglib.py). The search goes from an item to the items that depend
on it, and stops at an item whose visibility is not cached.

- `isLive`: the visibility of an item is cached.
- `dependents`: the sets that `_build_dep` and `_add_choice_deps` make.
- `recInvalidate`: the search. The number of items whose visibility is cached goes down with each
  item, so that it ends also where the items depend on each other in a circle, as a choice and
  its symbols do.
- `invalidateAll`: what is done instead when `MODULES` changes.
- `Clears`: what a search throws away. With an item it throws away all properties of the item, and
  the items that depend on it and are cached (`exists_clears`, by induction on the number of
  items that are live).
- `edge_of_asks`: what a property asks for is a property of its own item, or one of an item on
  which its item depends.

**Main result**: `Clears.kept`. No property stays that has been computed from one that goes, when
an input has changed only if the properties that have asked for it go.
-/

namespace Jhalfs.Menu

open Memo

variable {S C : Type}

/-- The properties that are cached. -/
abbrev PropCache (S C : Type) := Cache (Key.Val (S := S) (C := C))

/-- `_cached_vis is not None`. -/
def isLive (cache : PropCache S C) (z : Item S C) : Bool := (cache (.vis z)).isSome

namespace Kconfig

variable (m : Kconfig S C)

/-- The items that `_invalidate_all` goes through. -/
def items : List (Item S C) := m.definedSyms.map .sym ++ m.choices.map .choice

def isConstant : Item S C → Bool
  | .sym s => (m.sym s).isConstant
  | .choice _ => false

/-- The items that are live. -/
def liveCount (cache : PropCache S C) : Nat := m.items.countP (isLive cache)

variable [DecidableEq S] [DecidableEq C]

/-- `_add_choice_deps`. -/
def isMember : Item S C → Item S C → Bool
  | .sym s, .choice c => s ∈ (m.choice c).syms
  | _, _ => false

/-- `_dependents`. -/
def dependents (y : Item S C) : List (Item S C) :=
  if m.isConstant y then [] else m.items.filter fun z => y ∈ m.refs z || m.isMember y z

/-- `_invalidate`. -/
def invalidate (x : Item S C) (cache : PropCache S C) : PropCache S C :=
  fun k => if k.item = x then none else cache k

/-- `_invalidate_all`. -/
def invalidateAll (cache : PropCache S C) : PropCache S C :=
  fun k => if k.item ∈ m.items then none else cache k

/-! ## The search -/

theorem countP_lt {α : Type} {p q : α → Bool} {l : List α} (h : ∀ a, p a = true → q a = true)
    {b : α} (hb : b ∈ l) (hp : p b = false) (hq : q b = true) : l.countP p < l.countP q := by
  induction l with
  | nil => exact absurd hb List.not_mem_nil
  | cons a l ih =>
    have hle : l.countP p ≤ l.countP q := List.countP_mono_left fun a _ => h a
    rw [List.countP_cons, List.countP_cons]
    rcases List.mem_cons.mp hb with rfl | hb
    · rw [hp, hq]
      simp only [Bool.false_eq_true, if_false, if_true]
      omega
    · have hlt := ih hb
      have hle : (if p a = true then 1 else 0) ≤ if q a = true then 1 else 0 := by
        split
        next ha => rw [if_pos (h a ha)]
        next => exact Nat.zero_le _
      omega

theorem isLive_invalidate {x z : Item S C} {cache : PropCache S C}
    (h : isLive (invalidate x cache) z = true) : isLive cache z = true ∧ z ≠ x := by
  rw [isLive, invalidate] at h
  split at h
  · cases h
  next hne => exact ⟨h, hne⟩

theorem liveCount_invalidate_lt {x : Item S C} {cache : PropCache S C} (hx : x ∈ m.items)
    (hlive : isLive cache x = true) : m.liveCount (invalidate x cache) < m.liveCount cache := by
  refine countP_lt (fun z hz => (isLive_invalidate hz).1) hx ?_ hlive
  simp [isLive, invalidate, Key.item]

theorem isLive_invalidateAll {z : Item S C} {cache : PropCache S C}
    (h : isLive (m.invalidateAll cache) z = true) : isLive cache z = true ∧ z ∉ m.items := by
  rw [isLive, invalidateAll] at h
  split at h
  · cases h
  next hne => exact ⟨h, hne⟩

theorem liveCount_invalidateAll_lt {x : Item S C} {cache : PropCache S C} (hx : x ∈ m.items)
    (hlive : isLive cache x = true) : m.liveCount (m.invalidateAll cache) < m.liveCount cache := by
  refine countP_lt (fun z hz => (m.isLive_invalidateAll hz).1) hx ?_ hlive
  simp [isLive, invalidateAll, Key.item, hx]

theorem mem_items_of_dependents {y z : Item S C} (h : z ∈ m.dependents y) : z ∈ m.items := by
  rw [dependents] at h
  split at h
  · exact absurd h List.not_mem_nil
  · exact (List.mem_filter.mp h).1

/-- The loop of `_rec_invalidate` over the items that depend on something. -/
def invalidateList (zs : List (Item S C)) (h : ∀ z ∈ zs, z ∈ m.items) (cache : PropCache S C) :
    { c : PropCache S C // m.liveCount c ≤ m.liveCount cache } :=
  match zs, h with
  | [], _ => ⟨cache, le_rfl⟩
  | z :: zs, h =>
    have hz : z ∈ m.items := h z List.mem_cons_self
    have hzs : ∀ z ∈ zs, z ∈ m.items := fun z hz => h z (List.mem_cons_of_mem _ hz)
    if hlive : isLive cache z = true then
      if z = .sym m.modules then
        let rest := invalidateList zs hzs (m.invalidateAll cache)
        ⟨rest.1, rest.2.trans (m.liveCount_invalidateAll_lt hz hlive).le⟩
      else
        let first := invalidateList (m.dependents z) (fun _ => m.mem_items_of_dependents)
          (invalidate z cache)
        have hfirst : m.liveCount first.1 < m.liveCount cache :=
          first.2.trans_lt (m.liveCount_invalidate_lt hz hlive)
        let rest := invalidateList zs hzs first.1
        ⟨rest.1, rest.2.trans hfirst.le⟩
    else invalidateList zs hzs cache
termination_by (m.liveCount cache, zs.length)
decreasing_by
  · exact Prod.Lex.left _ _ (m.liveCount_invalidateAll_lt hz hlive)
  · exact Prod.Lex.left _ _ (m.liveCount_invalidate_lt hz hlive)
  · exact Prod.Lex.left _ _ hfirst
  · exact Prod.Lex.right _ (Nat.lt_succ_self _)

/-- `_rec_invalidate`. -/
def recInvalidate (x : Item S C) (cache : PropCache S C) : PropCache S C :=
  if x = .sym m.modules then m.invalidateAll cache
  else (m.invalidateList (m.dependents x) (fun _ => m.mem_items_of_dependents)
    (invalidate x cache)).1

theorem liveCount_recInvalidate_lt {x : Item S C} {cache : PropCache S C} (hx : x ∈ m.items)
    (hlive : isLive cache x = true) :
    m.liveCount (m.recInvalidate x cache) < m.liveCount cache := by
  rw [recInvalidate]
  split
  · exact m.liveCount_invalidateAll_lt hx hlive
  · exact lt_of_le_of_lt (m.invalidateList _ _ (invalidate x cache)).2
      (m.liveCount_invalidate_lt hx hlive)

/-- The loop calls `_rec_invalidate` on what is live. -/
theorem invalidateList_cons {z : Item S C} {zs : List (Item S C)}
    (h : ∀ y ∈ z :: zs, y ∈ m.items) (cache : PropCache S C) :
    (m.invalidateList (z :: zs) h cache).1 =
      (m.invalidateList zs (fun y hy => h y (List.mem_cons_of_mem _ hy))
        (if isLive cache z then m.recInvalidate z cache else cache)).1 := by
  rw [invalidateList]
  by_cases hlive : isLive cache z = true
  · rw [dif_pos hlive, if_pos hlive, recInvalidate]
    by_cases hmodules : z = .sym m.modules
    · rw [if_pos hmodules, if_pos hmodules]
    · rw [if_neg hmodules, if_neg hmodules]
  · rw [dif_neg hlive, if_neg hlive]

/-! ## What goes -/

/-- `z` is thrown away with `y`: it depends on `y`, or `y` is `MODULES` and everything goes. -/
def Edge (y z : Item S C) : Prop := z ∈ m.dependents y ∨ (y = .sym m.modules ∧ z ∈ m.items)

/-- The search throws away all properties of the items in `gone`, the seeds that are live among
them, and with an item the live ones that depend on it. -/
structure Clears (seeds : List (Item S C)) (cache cache' : PropCache S C)
    (gone : Item S C → Prop) : Prop where
  drop : Drop (fun k => gone k.item) cache cache'
  seeds : ∀ z ∈ seeds, isLive cache z = true → gone z
  listed : ∀ y, gone y → y ∈ m.items
  closed : ∀ y, gone y → ∀ z, m.Edge y z → isLive cache z = true → gone z

variable {m}

theorem Clears.nil (cache : PropCache S C) : m.Clears [] cache cache fun _ => False where
  drop := ⟨fun _ h => h.elim, fun _ _ => rfl⟩
  seeds := nofun
  listed _ h := h.elim
  closed _ h := h.elim

/-- One search after the other. -/
theorem Clears.append {seeds seeds' : List (Item S C)} {cache cache₁ cache' : PropCache S C}
    {gone gone' : Item S C → Prop} (h : m.Clears seeds cache cache₁ gone)
    (h' : m.Clears seeds' cache₁ cache' gone') :
    m.Clears (seeds ++ seeds') cache cache' fun y => gone y ∨ gone' y := by
  -- what is live and has not gone is still live
  have hlive : ∀ z, isLive cache z = true → gone z ∨ isLive cache₁ z = true := by
    intro z hz
    by_cases hgone : gone z
    · exact Or.inl hgone
    · rw [isLive, h.drop.stays (.vis z) hgone]
      exact Or.inr hz
  refine ⟨⟨fun k hk => ?_, fun k hk => ?_⟩, fun z hz hzlive => ?_, fun y hy => ?_,
    fun y hy z hedge hzlive => ?_⟩
  · by_cases hgone' : gone' k.item
    · exact h'.drop.goes k hgone'
    · rw [h'.drop.stays k hgone']
      exact h.drop.goes k (hk.resolve_right hgone')
  · rw [not_or] at hk
    rw [h'.drop.stays k hk.2, h.drop.stays k hk.1]
  · rcases List.mem_append.mp hz with hz | hz
    · exact Or.inl (h.seeds z hz hzlive)
    · exact (hlive z hzlive).imp_right (h'.seeds z hz)
  · exact hy.elim (h.listed y) (h'.listed y)
  · rcases hy with hy | hy
    · exact Or.inl (h.closed y hy z hedge hzlive)
    · exact (hlive z hzlive).imp_right (h'.closed y hy z hedge)

/-- `_rec_invalidate` throws the item away, and what depends on it. -/
theorem Clears.recInvalidate {x : Item S C} {cache : PropCache S C} (hx : x ∈ m.items)
    (h : ∀ cache', cache' = invalidate x cache →
      ∃ gone, m.Clears (m.dependents x) cache'
        (m.invalidateList (m.dependents x) (fun _ => m.mem_items_of_dependents) cache').1 gone) :
    ∃ gone, gone x ∧ m.Clears [x] cache (m.recInvalidate x cache) gone := by
  rw [Kconfig.recInvalidate]
  split
  · refine ⟨(· ∈ m.items), hx, ⟨fun k hk => if_pos hk, fun k hk => if_neg hk⟩, ?_, fun _ hy => hy,
      fun y _ z hedge _ => ?_⟩
    · intro z hz _
      rw [List.mem_singleton.mp hz]
      exact hx
    · exact hedge.elim m.mem_items_of_dependents And.right
  next hmodules =>
    obtain ⟨gone, hclears⟩ := h _ rfl
    have hlive : ∀ z, z ≠ x → isLive cache z = true → isLive (invalidate x cache) z = true := by
      intro z hz hzlive
      show (if z = x then none else cache (.vis z)).isSome = true
      rw [if_neg hz]
      exact hzlive
    refine ⟨fun y => y = x ∨ gone y, Or.inl rfl, ⟨fun k hk => ?_, fun k hk => ?_⟩, ?_,
      fun y hy => ?_, fun y hy z hedge hzlive => ?_⟩
    · by_cases hgone : gone k.item
      · exact hclears.drop.goes k hgone
      · rw [hclears.drop.stays k hgone, invalidate, if_pos (hk.resolve_right hgone)]
    · rw [not_or] at hk
      rw [hclears.drop.stays k hk.2, invalidate, if_neg hk.1]
    · intro z hz _
      exact Or.inl (List.mem_singleton.mp hz)
    · exact hy.elim (fun heq => heq ▸ hx) (hclears.listed y)
    · by_cases hzx : z = x
      · exact Or.inl hzx
      · refine Or.inr ?_
        rcases hy with rfl | hy
        · rcases hedge with hdep | ⟨heq, -⟩
          · exact hclears.seeds z hdep (hlive z hzx hzlive)
          · exact absurd heq hmodules
        · exact hclears.closed y hy z hedge (hlive z hzx hzlive)

/-- The loop, by induction on the number of items that are live. -/
theorem exists_clears_list (zs : List (Item S C)) (h : ∀ z ∈ zs, z ∈ m.items)
    (cache : PropCache S C) : ∃ gone, m.Clears zs cache (m.invalidateList zs h cache).1 gone := by
  match zs, h with
  | [], h =>
    rw [invalidateList]
    exact ⟨_, Clears.nil cache⟩
  | z :: zs, h =>
    rw [invalidateList_cons]
    have hz : z ∈ m.items := h z List.mem_cons_self
    by_cases hlive : isLive cache z = true
    · rw [if_pos hlive]
      obtain ⟨gone, -, hfirst⟩ := Clears.recInvalidate hz fun cache' heq => by
        have : m.liveCount cache' < m.liveCount cache := heq ▸ m.liveCount_invalidate_lt hz hlive
        exact exists_clears_list (m.dependents z) _ cache'
      have := m.liveCount_recInvalidate_lt hz hlive
      obtain ⟨gone', hrest⟩ := exists_clears_list zs
        (fun y hy => h y (List.mem_cons_of_mem _ hy)) (m.recInvalidate z cache)
      exact ⟨_, hfirst.append hrest⟩
    · rw [if_neg hlive]
      obtain ⟨gone', hrest⟩ := exists_clears_list zs
        (fun y hy => h y (List.mem_cons_of_mem _ hy)) cache
      refine ⟨gone', hrest.drop, fun y hy hylive => ?_, hrest.listed, hrest.closed⟩
      rcases List.mem_cons.mp hy with rfl | hy
      · exact absurd hylive hlive
      · exact hrest.seeds y hy hylive
termination_by (m.liveCount cache, zs.length)
decreasing_by
  · exact Prod.Lex.left _ _ this
  · exact Prod.Lex.left _ _ this
  · exact Prod.Lex.right _ (Nat.lt_succ_self _)

/-- **What `_rec_invalidate` throws away**: a set of items with the one that it begins with, and
with an item those that depend on it and are cached. -/
theorem exists_clears {x : Item S C} (hx : x ∈ m.items) (cache : PropCache S C) :
    ∃ gone, gone x ∧ m.Clears [x] cache (m.recInvalidate x cache) gone :=
  Clears.recInvalidate hx fun cache' _ => exists_clears_list _ _ cache'

/-! ## What stays -/

omit [DecidableEq S] [DecidableEq C] in
theorem mem_items {z : Item S C} : z ∈ m.items ↔
    (∃ s ∈ m.definedSyms, z = .sym s) ∨ ∃ c, z = .choice c := by
  have hlisted := m.choice_listed
  simp only [items, List.mem_append, List.mem_map]
  constructor
  · rintro (⟨s, hs, rfl⟩ | ⟨c, -, rfl⟩)
    · exact Or.inl ⟨s, hs, rfl⟩
    · exact Or.inr ⟨c, rfl⟩
  · rintro (⟨s, hs, rfl⟩ | ⟨c, rfl⟩)
    · exact Or.inl ⟨s, hs, rfl⟩
    · exact Or.inr ⟨c, hlisted c, rfl⟩

omit [DecidableEq S] [DecidableEq C] in
theorem isConstant_of_mem_items {y : Item S C} (hy : y ∈ m.items) : m.isConstant y = false := by
  rcases mem_items.mp hy with ⟨s, hs, rfl⟩ | ⟨c, rfl⟩
  · by_contra hconst
    exact m.constant_undefined s (by simpa [isConstant] using hconst) hs
  · rfl

omit [DecidableEq S] [DecidableEq C] in
theorem fixed_of_mem_items {s : S} (hs : .sym s ∈ m.items) : (m.sym s).fixed = none := by
  rcases mem_items.mp hs with ⟨t, ht, heq⟩ | ⟨c, heq⟩
  · cases heq
    exact m.fixed_of_defined ht
  · cases heq

/-- An item that is defined depends on the items in its properties. -/
theorem edge_of_mem_refs {y z : Item S C} (hy : y ∈ m.items) (hz : z ∈ m.items)
    (h : y ∈ m.refs z) : m.Edge y z := by
  refine Or.inl ?_
  rw [dependents, isConstant_of_mem_items hy]
  exact List.mem_filter.mpr ⟨hz, by simp [h]⟩

/-- A choice depends on its symbols. -/
theorem edge_of_mem_syms {s : S} {c : C} (hs : .sym s ∈ m.items)
    (h : s ∈ (m.choice c).syms) : m.Edge (.sym s) (.choice c) := by
  refine Or.inl ?_
  rw [dependents, isConstant_of_mem_items hs]
  exact List.mem_filter.mpr ⟨mem_items.mpr (Or.inr ⟨c, rfl⟩), by simp [isMember, h]⟩

/-- What a property asks for is a property of its own item, or there is an edge to the item. -/
theorem edge_of_asks {j k : Key S C} (h : m.AsksKey k j) (hj : j.item ∈ m.items)
    (hk : k.item ∈ m.items) : j.item = k.item ∨ m.Edge j.item k.item := by
  match j, h with
  | .tri s, h =>
    rcases h with ⟨-, hs⟩ | ⟨-, -, rfl⟩ | rfl
    · exact Or.inr (edge_of_mem_refs hj hk hs)
    · exact Or.inr (Or.inr ⟨rfl, hk⟩)
    · exact Or.inl rfl
  | .str s, ⟨_, hs⟩ => exact Or.inr (edge_of_mem_refs hj hk hs)
  | .vis (.sym s), h =>
    rcases h with rfl | rfl | rfl | ⟨c, rfl, hs⟩
    · exact Or.inl rfl
    · exact Or.inl rfl
    · exact Or.inl rfl
    · exact Or.inr (edge_of_mem_syms hj hs)
  | .vis (.choice c), h =>
    rcases h with ⟨-, hc⟩ | rfl | rfl
    · exact Or.inr (edge_of_mem_refs hj hk hc)
    · exact Or.inl rfl
    · exact Or.inl rfl
  | .selection c, ⟨s, hk', hs⟩ =>
    subst hk'
    exact Or.inr (edge_of_mem_refs hj hk (m.choice_ref s c hs))

variable {inp inp' : Inputs m.InputVal} {cache cache' : PropCache S C}

/-- **No property stays that has been computed from one that goes**, when an input has changed
only if the properties that have asked for it go. -/
theorem Clears.kept {seeds : List (Item S C)} {gone : Item S C → Prop}
    (h : m.Clears seeds cache cache' gone) (hkept : Kept m.body inp cache)
    (hinputs : ∀ k v, cache k = some v → ∀ i, (m.body k).Uses inp cache (.inr i) →
      gone k.item ∨ inp' i = inp i) : Kept m.body inp' cache' := by
  refine hkept.drop h.drop (fun k v hstays hk j huses hgone => ?_)
    fun k v hstays hk i huses => (hinputs k v hk i huses).resolve_left hstays
  by_cases hdefined : k.item ∈ m.items
  · obtain ⟨w, hw⟩ := vis_of_uses hkept hk
      (fun s hs => fixed_of_mem_items (hs ▸ hdefined)) huses
    have hlive : isLive cache k.item = true := by rw [isLive, hw]; rfl
    rcases edge_of_asks ((m.all_body k).of_uses huses) (h.listed _ hgone) hdefined with heq | hedge
    · exact hstays (heq ▸ hgone)
    · exact hstays (h.closed _ hgone _ hedge hlive)
  · -- what is not defined depends on itself
    cases hitem : k.item with
    | choice c => exact hdefined (mem_items.mpr (Or.inr ⟨c, hitem⟩))
    | sym s =>
      have hs : s ∉ m.definedSyms := fun hs => hdefined (mem_items.mpr (Or.inl ⟨s, hs, hitem⟩))
      obtain ⟨k', heq, hk'⟩ := item_of_uses hkept hitem hs huses
      cases heq
      exact hstays (hitem.trans hk'.symm ▸ hgone)

end Kconfig

end Jhalfs.Menu
