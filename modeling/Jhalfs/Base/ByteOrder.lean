import Mathlib.Data.List.Sort

/-!
# The order of file names

The shell gives the words of `dir/*` in order, and the programs walk over directories in
that order. It is the byte-wise order of the names: they are compared by the codes of their
characters, and a name comes before a longer one that goes on where it ends (`byteLe`).

- `byteLe` is a total order on texts (`byteLe_total`, `byteLe_antisymm`, `byteLe_trans`), the one
  that is not greater in the order of the library (`byteLe_iff_not_lt`).
- `sortByName` sorts things that have a name. The names of the result are the sorted names
  (`map_sortByName`), so what a walk does to the names alone does not depend on the rest.
- A list that is in order is sorted to itself (`sortByName_eq_self`).
- A common text behind two names keeps their order if they differ before the end of the
  shorter one (`byteLe_cases`): names that go on with the same ending, as those of copies do,
  are in the order of the names they are made of, unless one name goes on where the other ends.
-/

namespace Jhalfs.Text

universe u

/-- The byte-wise order of file names: by the codes of the characters, the shorter name first
where it ends. -/
def byteLe : List Char → List Char → Bool
  | [], _ => true
  | _ :: _, [] => false
  | c :: s, d :: t => if c = d then byteLe s t else decide (c.toNat < d.toNat)

theorem byteLe_iff_not_lt (a b : List Char) : byteLe a b = true ↔ ¬ b < a := by
  induction a generalizing b with
  | nil => simp [byteLe]
  | cons c s ih =>
    cases b with
    | nil => simp [byteLe]
    | cons d t =>
      have hcode : ∀ {x y : Char}, x < y ↔ x.toNat < y.toNat := Iff.rfl
      rw [byteLe, List.cons_lt_cons_iff, not_or, not_and, hcode]
      by_cases h : c = d
      · subst h
        rw [if_pos rfl, ih]
        exact ⟨fun ht => ⟨Nat.lt_irrefl _, fun _ => ht⟩, fun ht => ht.2 rfl⟩
      · have hne : c.toNat ≠ d.toNat := fun heq => h (Char.toNat_inj.mp heq)
        rw [if_neg h, decide_eq_true_iff]
        constructor
        · exact fun hlt => ⟨Nat.lt_asymm hlt, fun heq => absurd heq.symm h⟩
        · exact fun hle => Nat.lt_of_le_of_ne (Nat.not_lt.mp hle.1) hne

theorem byteLe_total (a b : List Char) : byteLe a b = true ∨ byteLe b a = true := by
  rw [byteLe_iff_not_lt, byteLe_iff_not_lt, List.not_lt, List.not_lt]
  exact List.le_total a b

theorem byteLe_antisymm {a b : List Char} (hab : byteLe a b = true) (hba : byteLe b a = true) :
    a = b := by
  rw [byteLe_iff_not_lt, List.not_lt] at hab hba
  exact List.le_antisymm hab hba

theorem byteLe_trans {a b c : List Char} (hab : byteLe a b = true) (hbc : byteLe b c = true) :
    byteLe a c = true := by
  rw [byteLe_iff_not_lt, List.not_lt] at *
  exact List.le_trans hab hbc

theorem lt_of_byteLe_of_ne {a b : List Char} (h : byteLe a b = true) (hne : a ≠ b) : a < b := by
  rw [byteLe_iff_not_lt, List.not_lt] at h
  exact (List.le_iff_lt_or_eq.mp h).resolve_right hne

theorem byteLe_of_lt {a b : List Char} (h : a < b) : byteLe a b = true := by
  rw [byteLe_iff_not_lt, List.not_lt]
  exact List.le_of_lt h

theorem byteLe_append_left (a b c : List Char) : byteLe (a ++ b) (a ++ c) = byteLe b c := by
  induction a with
  | nil => rfl
  | cons x a ih => rw [List.cons_append, List.cons_append, byteLe, if_pos rfl, ih]

/-- Names in order: one goes on where the other ends, or they differ before that. -/
theorem byteLe_cases {a b : List Char} (h : byteLe a b = true) :
    (∃ r, b = a ++ r) ∨ ∀ u v, byteLe (a ++ u) (b ++ v) = true := by
  induction a generalizing b with
  | nil => exact Or.inl ⟨b, rfl⟩
  | cons c s ih =>
    cases b with
    | nil => cases h
    | cons d t =>
      rw [byteLe] at h
      by_cases hcd : c = d
      · subst hcd
        rw [if_pos rfl] at h
        rcases ih h with ⟨r, rfl⟩ | hdiff
        · exact Or.inl ⟨r, rfl⟩
        · refine Or.inr fun u v => ?_
          rw [List.cons_append, List.cons_append, byteLe, if_pos rfl]
          exact hdiff u v
      · refine Or.inr fun u v => ?_
        rw [List.cons_append, List.cons_append, byteLe, if_neg hcd]
        rwa [if_neg hcd] at h

/-! ## Sorting by the name -/

section Sorted

variable {α : Type u} (name : α → List Char)

/-- The items in the order of their names; items with one name stay in the order they had. -/
def sortByName (items : List α) : List α :=
  items.insertionSort fun a b => byteLe (name a) (name b) = true

theorem perm_sortByName (items : List α) : (sortByName name items).Perm items :=
  List.perm_insertionSort _ items

@[simp] theorem mem_sortByName {items : List α} {a : α} : a ∈ sortByName name items ↔ a ∈ items :=
  List.mem_insertionSort _

theorem pairwise_sortByName (items : List α) :
    (sortByName name items).Pairwise fun a b => byteLe (name a) (name b) = true :=
  haveI : Std.Total fun a b : α => byteLe (name a) (name b) = true :=
    ⟨fun a b => byteLe_total (name a) (name b)⟩
  haveI : IsTrans α fun a b => byteLe (name a) (name b) = true := ⟨fun _ _ _ => byteLe_trans⟩
  List.pairwise_insertionSort _ items

/-- The names of the sorted items are the sorted names. -/
theorem map_sortByName (items : List α) :
    (sortByName name items).map name = sortByName id (items.map name) :=
  List.map_insertionSort _ _ _ _ fun _ _ _ _ => Iff.rfl

theorem sortByName_eq_self {items : List α}
    (h : items.Pairwise fun a b => byteLe (name a) (name b) = true) :
    sortByName name items = items := h.insertionSort_eq

end Sorted

end Jhalfs.Text
