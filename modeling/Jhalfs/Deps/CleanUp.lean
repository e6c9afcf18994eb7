import Mathlib.Data.List.Basic
import Jhalfs.Deps.Tree

/-!
# The clean-up loop removes one line for each recorded name

At the end of a frame's loop, each entry it has read is either kept as a child
or recorded in `lines_to_remove`: a list of entries with tags. The clean-up
deletes, for each recorded name, the *last* line of that name
(BLFS/libs/func_dependencies:479–482).

- `keptOf` and `droppedOf` are the entries with the one tag and with the other.
- `cleanUp_perm`: the names that remain are always those of the kept entries, as
  one line goes for each recorded name.
- `cleanUp_eq`: the *lines* that remain are the kept ones, in their order, when no
  entry was kept after a removed one of its name (`KeptFirst`). Otherwise it is
  the later line that goes, although the earlier one was removed.

Both are inductions over the recorded names: of the names that are still to go,
the last line of the first one is found, and what stands behind it has other
names (`removeLast_append`).
-/

namespace Jhalfs

/-- The entries a frame kept as children, in the order in which it read them. -/
def keptOf (T : List (Entry × Bool)) : List Entry := (T.filter (·.2)).map Prod.fst

/-- The entries a frame recorded in `lines_to_remove`: pruned, passed over or
exchanged. -/
def droppedOf (T : List (Entry × Bool)) : List Entry := (T.filter (!·.2)).map Prod.fst

@[simp] theorem droppedOf_nil : droppedOf [] = [] := rfl

@[simp] theorem keptOf_append (T U : List (Entry × Bool)) :
    keptOf (T ++ U) = keptOf T ++ keptOf U := by simp [keptOf]

@[simp] theorem droppedOf_append (T U : List (Entry × Bool)) :
    droppedOf (T ++ U) = droppedOf T ++ droppedOf U := by simp [droppedOf]

@[simp] theorem keptOf_kept (e : Entry) (T : List (Entry × Bool)) :
    keptOf ((e, true) :: T) = e :: keptOf T := rfl

@[simp] theorem keptOf_dropped (e : Entry) (T : List (Entry × Bool)) :
    keptOf ((e, false) :: T) = keptOf T := rfl

@[simp] theorem droppedOf_kept (e : Entry) (T : List (Entry × Bool)) :
    droppedOf ((e, true) :: T) = droppedOf T := rfl

@[simp] theorem droppedOf_dropped (e : Entry) (T : List (Entry × Bool)) :
    droppedOf ((e, false) :: T) = e :: droppedOf T := rfl

theorem mem_keptOf {T : List (Entry × Bool)} {x : Entry} :
    x ∈ keptOf T ↔ ∃ i : Nat, T[i]? = some (x, true) := by
  rw [keptOf, List.mem_map]
  constructor
  · rintro ⟨⟨y, kept⟩, hy, rfl⟩
    obtain ⟨hy, hkept⟩ := List.mem_filter.mp hy
    have hkept' : kept = true := hkept
    subst hkept'
    exact List.mem_iff_getElem?.mp hy
  · rintro ⟨i, hi⟩
    exact ⟨(x, true), List.mem_filter.mpr ⟨List.mem_of_getElem? hi, rfl⟩, rfl⟩

/-- The tags split the entries read. -/
theorem perm_dropped_kept (T : List (Entry × Bool)) :
    (T.map Prod.fst).Perm (droppedOf T ++ keptOf T) := by
  induction T with
  | nil => exact List.Perm.refl _
  | cons x T ih =>
    obtain ⟨e, kept⟩ := x
    cases kept with
    | true =>
      rw [List.map_cons, droppedOf_kept, keptOf_kept]
      exact (ih.cons e).trans List.perm_middle.symm
    | false =>
      rw [List.map_cons, droppedOf_dropped, keptOf_dropped]
      exact ih.cons e

/-- No entry was kept after a removed one of the same name: then the last lines of the
recorded names are the lines that were removed. -/
def KeptFirst (T : List (Entry × Bool)) : Prop :=
  T.Pairwise fun x y => x.2 = false → y.2 = true → x.1.id ≠ y.1.id

/-! ## Deleting the last line of a name -/

/-- Split a list at the last element with a property. -/
theorem exists_last {α : Type*} {p : α → Prop} {l : List α} (h : ∃ x ∈ l, p x) :
    ∃ A y B, l = A ++ y :: B ∧ p y ∧ ∀ z ∈ B, ¬ p z := by
  induction l using List.reverseRecOn with
  | nil =>
    obtain ⟨x, hx, -⟩ := h
    cases hx
  | append_singleton l a ih =>
    by_cases ha : p a
    · exact ⟨l, a, [], rfl, ha, fun z hz => absurd hz List.not_mem_nil⟩
    · obtain ⟨x, hx, hpx⟩ := h
      rcases List.mem_append.mp hx with hx | hx
      · obtain ⟨A, y, B, rfl, hy, hB⟩ := ih ⟨x, hx, hpx⟩
        refine ⟨A, y, B ++ [a], by simp, hy, fun z hz => ?_⟩
        rcases List.mem_append.mp hz with hz | hz
        · exact hB z hz
        · rw [List.mem_singleton.mp hz]
          exact ha
      · rw [List.mem_singleton.mp hx] at hpx
        exact absurd hpx ha

theorem removeLast_eq_none {id : Id} {es : List Entry}
    (h : ∀ e ∈ es, e.isBefore id = false) : removeLast id es = none := by
  induction es with
  | nil => rfl
  | cons e es ih =>
    rw [removeLast, ih fun e' he' => h e' (List.mem_cons_of_mem _ he')]
    dsimp only
    rw [h e List.mem_cons_self]
    rfl

theorem removeLast_append {id : Id} {e : Entry} {A B : List Entry}
    (he : e.isBefore id = true) (hB : ∀ x ∈ B, x.isBefore id = false) :
    removeLast id (A ++ e :: B) = some (A ++ B) := by
  induction A with
  | nil =>
    rw [List.nil_append, removeLast, removeLast_eq_none hB]
    dsimp only
    rw [if_pos he, List.nil_append]
  | cons a A ih =>
    rw [List.cons_append, removeLast, ih]
    rfl

/-! ## The loop -/

theorem removeLast_sublist {id : Id} {es fs : List Entry} (h : removeLast id es = some fs) :
    fs.Sublist es := by
  induction es generalizing fs with
  | nil => cases h
  | cons e es ih =>
    rw [removeLast] at h
    cases hrest : removeLast id es with
    | some es' =>
      rw [hrest] at h
      cases h
      exact (ih hrest).cons_cons e
    | none =>
      rw [hrest] at h
      dsimp only at h
      split at h
      · cases h
        exact List.sublist_cons_self _ _
      · cases h

/-- The clean-up adds no line. -/
theorem cleanUp_sublist (f : TreeFile) (ids : List Id) :
    (cleanUp f ids).entries.Sublist f.entries := by
  induction ids generalizing f with
  | nil => exact List.Sublist.refl _
  | cons id ids ih =>
    rw [cleanUp]
    cases hrm : removeLast id f.entries with
    | some es => exact (ih { f with entries := es }).trans (removeLast_sublist hrm)
    | none => exact (ih ⟨[], [], []⟩).trans (List.nil_sublist _)

/-- The names that remain: one line goes for each recorded name. -/
theorem cleanUp_perm {f : TreeFile} {ids rest : List Id}
    (hb : ∀ e ∈ f.entries, e.build = .b) (hperm : (idsOf f.entries).Perm (ids ++ rest)) :
    ∃ es, cleanUp f ids = { f with entries := es } ∧ es.Sublist f.entries ∧
      (idsOf es).Perm rest := by
  induction ids generalizing f with
  | nil => exact ⟨f.entries, rfl, List.Sublist.refl _, hperm⟩
  | cons id ids ih =>
    have hid : id ∈ idsOf f.entries := hperm.symm.subset List.mem_cons_self
    obtain ⟨e, he, heid⟩ := mem_idsOf.mp hid
    obtain ⟨A, y, B, hsplit, hy, hB⟩ :=
      exists_last (p := fun x => x.isBefore id = true)
        ⟨e, he, Entry.isBefore_iff.mpr ⟨hb e he, heid⟩⟩
    have hrm : removeLast id f.entries = some (A ++ B) := by
      rw [hsplit]
      exact removeLast_append hy fun x hx => Bool.not_eq_true _ ▸ hB x hx
    have hsub : (A ++ B).Sublist f.entries := by
      rw [hsplit]
      exact (List.sublist_cons_self y B).append_left A
    have hperm' : (idsOf (A ++ B)).Perm (ids ++ rest) := by
      rw [hsplit] at hperm
      have hyid := (Entry.isBefore_iff.mp hy).2
      have hmid : (idsOf (A ++ y :: B)).Perm (id :: idsOf (A ++ B)) := by
        rw [idsOf_append, idsOf_cons, idsOf_append, hyid]
        exact List.perm_middle
      exact (hmid.symm.trans hperm).cons_inv
    obtain ⟨es, hes, hsubes, hpermes⟩ :=
      ih (f := { f with entries := A ++ B }) (fun x hx => hb x (hsub.subset hx)) hperm'
    refine ⟨es, ?_, hsubes.trans hsub, hpermes⟩
    rw [cleanUp, hrm]
    exact hes

/-- The lines that remain, when no entry was kept after a removed one of its
name: the kept entries in their order. -/
theorem cleanUp_eq {f : TreeFile} {ids : List Id} {T : List (Entry × Bool)}
    (hb : ∀ e ∈ f.entries, e.build = .b) (hT : T.map Prod.fst = f.entries)
    (hids : ids.Perm (idsOf (droppedOf T))) (hfirst : KeptFirst T) :
    cleanUp f ids = { f with entries := keptOf T } := by
  induction ids generalizing f T with
  | nil =>
    have hnil : droppedOf T = [] := by
      have := hids.symm.eq_nil
      simpa [idsOf] using this
    have hall : ∀ x ∈ T, x.2 = true := by
      intro x hx
      cases hx2 : x.2 with
      | true => rfl
      | false =>
        have hmem : x.1 ∈ droppedOf T :=
          List.mem_map.mpr ⟨x, List.mem_filter.mpr ⟨hx, by simp [hx2]⟩, rfl⟩
        rw [hnil] at hmem
        cases hmem
    have hkept : keptOf T = f.entries := by
      rw [keptOf, List.filter_eq_self.mpr hall, hT]
    rw [cleanUp, hkept]
  | cons id ids ih =>
    have hid : id ∈ idsOf (droppedOf T) := hids.subset List.mem_cons_self
    obtain ⟨e, he, heid⟩ := mem_idsOf.mp hid
    obtain ⟨x, hx, rfl⟩ := List.mem_map.mp he
    obtain ⟨hxT, hxd⟩ := List.mem_filter.mp hx
    obtain ⟨A, y, B, rfl, hy, hB⟩ :=
      exists_last (p := fun z : Entry × Bool => z.1.id = id) ⟨x, hxT, heid⟩
    -- the last line of the name is a removed one
    have hydrop : y.2 = false := by
      cases hy2 : y.2 with
      | false => rfl
      | true =>
        have hxd' : x.2 = false := by simpa using hxd
        rcases List.mem_append.mp hxT with hxA | hxB
        · have := (List.pairwise_append.mp hfirst).2.2 x hxA y List.mem_cons_self hxd' hy2
          exact absurd (heid.trans hy.symm) this
        · rcases List.mem_cons.mp hxB with rfl | hxB
          · rw [hy2] at hxd'
            cases hxd'
          · exact absurd heid (hB x hxB)
    obtain ⟨ye, yk⟩ := y
    dsimp only at hy hydrop
    subst hydrop
    have hentries : f.entries = A.map Prod.fst ++ ye :: B.map Prod.fst := by
      rw [← hT, List.map_append, List.map_cons]
    have hrm : removeLast id f.entries = some ((A ++ B).map Prod.fst) := by
      rw [hentries, List.map_append]
      refine removeLast_append (Entry.isBefore_iff.mpr ⟨hb ye ?_, hy⟩) fun z hz => ?_
      · rw [hentries]
        exact List.mem_append_right _ List.mem_cons_self
      · obtain ⟨w, hw, rfl⟩ := List.mem_map.mp hz
        rw [← Bool.not_eq_true, Entry.isBefore_iff]
        exact fun h => hB w hw h.2
    -- without that line the names that are left fit the lines that are left
    have hids' : ids.Perm (idsOf (droppedOf (A ++ B))) := by
      have hmid : (idsOf (droppedOf (A ++ (ye, false) :: B))).Perm
          (id :: idsOf (droppedOf (A ++ B))) := by
        rw [droppedOf_append, droppedOf_dropped, idsOf_append, idsOf_cons, droppedOf_append,
          idsOf_append, hy]
        exact List.perm_middle
      exact (hids.trans hmid).cons_inv
    have hsub : (A ++ B).Sublist (A ++ (ye, false) :: B) :=
      (List.sublist_cons_self _ B).append_left A
    have hkept : keptOf (A ++ (ye, false) :: B) = keptOf (A ++ B) := by
      rw [keptOf_append, keptOf_dropped, keptOf_append]
    rw [cleanUp, hrm, hkept]
    refine ih (f := { f with entries := (A ++ B).map Prod.fst }) (fun z hz => hb z ?_) rfl hids'
      (hfirst.sublist hsub)
    rw [← hT]
    exact (hsub.map Prod.fst).subset hz

end Jhalfs
