import Mathlib.Data.Set.Basic
import Mathlib.Data.Set.Insert
import Mathlib.Logic.Relation

/-!
# Depth-first search

What a depth-first search has marked between two moments. The nodes that were
marked before may be in the middle of their own visit, so only the new ones are
closed under edges (`Marks`).

- `Marks.trans`: visits compose, one after the other, and their seeds are joined.
- `Marks.visit`: a visit of a node is a visit of its successors with the node
  marked first.
- `Marks.of_seeds`, `Marks.of_successors`: seeds that other seeds lead to can be
  dropped, so a loop may visit more than it has to.
- `Marks.mem_iff`: **a search that starts with nothing open marks exactly what its
  seeds lead to**.

These are the rules of a recursive search with a loop over the successors: the loop
is an induction with `Marks.trans`, the recursion one with `Marks.visit`, and it
does not matter in which order nodes are met.
-/

namespace Jhalfs.Search

variable {α : Type} {edge : α → α → Prop} {seeds seeds' seen seen' seen'' : Set α}

/-- From `seen` to `seen'`, a search has marked its seeds and what they lead to: nothing is
unmarked, what is new can be reached from a seed, and the edges of what is new lead to
marked nodes. -/
structure Marks (edge : α → α → Prop) (seeds seen seen' : Set α) : Prop where
  kept : seen ⊆ seen'
  sound : ∀ n ∈ seen', n ∉ seen → ∃ s ∈ seeds, Relation.ReflTransGen edge s n
  closed : ∀ n ∈ seen', n ∉ seen → ∀ m, edge n m → m ∈ seen'
  ends : seeds ⊆ seen'

theorem Marks.refl (h : seeds ⊆ seen) : Marks edge seeds seen seen where
  kept _ hn := hn
  sound _ hn hnot := absurd hn hnot
  closed _ hn hnot := absurd hn hnot
  ends := h

/-- Two searches, one after the other. -/
theorem Marks.trans (h : Marks edge seeds seen seen') (h' : Marks edge seeds' seen' seen'') :
    Marks edge (seeds ∪ seeds') seen seen'' where
  kept := h.kept.trans h'.kept
  sound n hn hnot := by
    by_cases hmid : n ∈ seen'
    · obtain ⟨s, hs, hpath⟩ := h.sound n hmid hnot
      exact ⟨s, Or.inl hs, hpath⟩
    · obtain ⟨s, hs, hpath⟩ := h'.sound n hn hmid
      exact ⟨s, Or.inr hs, hpath⟩
  closed n hn hnot m hm := by
    by_cases hmid : n ∈ seen'
    · exact h'.kept (h.closed n hmid hnot m hm)
    · exact h'.closed n hn hmid m hm
  ends := Set.union_subset (h.ends.trans h'.kept) h'.ends

/-- A seed that another seed leads to can be dropped. -/
theorem Marks.of_seeds (h : Marks edge seeds' seen seen') (hsub : seeds ⊆ seeds')
    (hpath : ∀ s' ∈ seeds', ∃ s ∈ seeds, Relation.ReflTransGen edge s s') :
    Marks edge seeds seen seen' where
  kept := h.kept
  sound n hn hnot := by
    obtain ⟨s', hs', hn'⟩ := h.sound n hn hnot
    obtain ⟨s, hs, hss'⟩ := hpath s' hs'
    exact ⟨s, hs, hss'.trans hn'⟩
  closed := h.closed
  ends := hsub.trans h.ends

/-- Mark `t`, then search from nodes that include its successors. -/
theorem Marks.insert {t : α} (h : Marks edge seeds (insert t seen) seen')
    (hsucc : ∀ m, edge t m → m ∈ seeds) : Marks edge (insert t seeds) seen seen' where
  kept _ hn := h.kept (Set.mem_insert_of_mem t hn)
  sound n hn hnot := by
    by_cases hne : n = t
    · exact ⟨t, Set.mem_insert t seeds, hne ▸ Relation.ReflTransGen.refl⟩
    · obtain ⟨s, hs, hpath⟩ := h.sound n hn fun hins => (Set.mem_insert_iff.mp hins).elim hne hnot
      exact ⟨s, Set.mem_insert_of_mem t hs, hpath⟩
  closed n hn hnot m hm := by
    by_cases hne : n = t
    · exact h.ends (hsucc m (hne ▸ hm))
    · exact h.closed n hn (fun hins => (Set.mem_insert_iff.mp hins).elim hne hnot) m hm
  ends := Set.insert_subset (h.kept (Set.mem_insert t seen)) h.ends

/-- The seeds that one of them has an edge to can be dropped. -/
theorem Marks.of_successors {t : α} (h : Marks edge (Insert.insert t seeds) seen seen')
    (hseeds : ∀ m ∈ seeds, edge t m) : Marks edge {t} seen seen' := by
  refine h.of_seeds (Set.singleton_subset_iff.mpr (Set.mem_insert t _)) ?_
  rintro s (rfl | hs)
  · exact ⟨s, rfl, Relation.ReflTransGen.refl⟩
  · exact ⟨t, rfl, Relation.ReflTransGen.single (hseeds s hs)⟩

/-- A visit of a node: mark it, then search from its successors. -/
theorem Marks.visit {t : α} (h : Marks edge {m | edge t m} (Insert.insert t seen) seen') :
    Marks edge {t} seen seen' :=
  (h.insert fun _ hm => hm).of_successors fun _ hm => hm

/-- A set that is closed under edges holds what its elements lead to. -/
theorem mem_of_path {a b : α} (h : Relation.ReflTransGen edge a b) (ha : a ∈ seen)
    (hclosed : ∀ n ∈ seen, ∀ m, edge n m → m ∈ seen) : b ∈ seen := by
  induction h with
  | refl => exact ha
  | tail _ hedge ih => exact hclosed _ ih _ hedge

/-- When the nodes marked before have no edges, the search marks exactly what its
seeds lead to. -/
theorem Marks.mem_iff (h : Marks edge seeds seen seen') (hold : ∀ n ∈ seen, ∀ m, ¬ edge n m)
    {n : α} (hn : n ∉ seen) :
    n ∈ seen' ↔ ∃ s ∈ seeds, Relation.ReflTransGen edge s n := by
  constructor
  · exact fun hmem => h.sound n hmem hn
  · rintro ⟨s, hs, hpath⟩
    refine mem_of_path hpath (h.ends hs) fun k hk m hkm => ?_
    by_cases hmark : k ∈ seen
    · exact absurd hkm (hold k hmark m)
    · exact h.closed k hk hmark m hkm

end Jhalfs.Search
