import Jhalfs.Deps.AfterEdges
import Jhalfs.Deps.Cycles
import Jhalfs.Deps.Termination

/-!
# Builds in two passes

A package `N` with a first dependency `X` is to be built after a reduced build of `X`, the
copy `X-pass1`, and before the full `X`, if `X` depends on `N`
(README.BLFS:290–294). Two things stand against it.

- The runtime loop moves the line of `N` to the group of `X`, if `X` has after
  dependencies. What is copied then is the group, and `make_book.xsl:85` makes no page of
  a name with `groupxx` (`firstGroup`).
- The line of `N` becomes one of the copy, and nothing asks for the full `X` any more. It is
  printed only if another line leads to it (`firstCycle`).

Where the runtime loop leaves the line alone (`firstStays`), the loop over the first
dependencies makes it a required line of the copy (`firstLine_of_cleansWell`). The third
pass only gives up a required line inside a cycle of required lines, and there is none, as
the copy does not list what leads back to `N` (`FirstInv.notBack`); so the copy is printed
before `N`. The full `X` is printed exactly if it is reachable in the files of the second
pass, and after `N` if it leads to `N` by lines that the third pass keeps
(`KeptEdge`).
-/

namespace Jhalfs

/-- The files hold before lines only. A copy that was made of a file before its own
first lines were changed keeps them. -/
def Files.onlyBefore (F : Files) : Bool :=
  F.names.all fun n => (F.lines n).all fun e => e.build == .b

namespace Subgraph

/-- The second pass makes no slip, no copy meets a node of its name, and what is left
are before lines. -/
def cleansWell (S : Subgraph) (collate : Id → Id → Bool) : Bool :=
  S.runtimeSlipFree collate && (S.afterRuntime collate).copiesFree &&
    (cleanSubgraph collate S.files).onlyBefore

variable (S : Subgraph) {collate : Id → Id → Bool}

section CleansWell

variable {S} (h : S.cleansWell collate = true)

include h

theorem runtimeInv_of_cleansWell : S.RuntimeInv [] (S.afterRuntime collate) := by
  simp only [cleansWell, Bool.and_eq_true] at h
  exact S.runtimeInv_afterRuntime h.1.1

theorem firstInv_of_cleansWell :
    FirstInv (S.afterRuntime collate) [] (cleanSubgraph collate S.files) := by
  have hinv := runtimeInv_of_cleansWell h
  simp only [cleansWell, Bool.and_eq_true] at h
  exact firstInv_firstLoop collate h.1.2 hinv.targets

theorem build_of_cleansWell {n : Id} {e : Entry}
    (he : e ∈ (cleanSubgraph collate S.files).lines n) : e.build = .b := by
  simp only [cleansWell, Bool.and_eq_true] at h
  have := List.all_eq_true.mp h.2 n (Files.mem_names_of_mem_lines he)
  exact beq_iff_eq.mp (List.all_eq_true.mp this e he)

end CleansWell

/-- The `.dep` files that the second pass leaves to the third. -/
def cleaned (collate : Id → Id → Bool) (h : S.cleansWell collate = true) : DepFiles where
  pkgs := (cleanSubgraph collate S.files).names.filter fun n => decide (n ≠ rootId)
  dep := (cleanSubgraph collate S.files).lines
  nodup := (cleanSubgraph collate S.files).nodup.filter _
  root_notMem hmem := by
    rw [List.mem_filter, decide_eq_true_iff] at hmem
    exact hmem.2 rfl
  target n _ e he := by
    have hmem := (firstInv_of_cleansWell h).targets n e he
    by_cases hroot : e.id = rootId
    · rw [hroot]
      exact List.mem_cons_self
    · exact List.mem_cons_of_mem _ (List.mem_filter.mpr ⟨hmem, decide_eq_true hroot⟩)
  before _ _ _ he := build_of_cleansWell h he

/-- A package with a first dependency on `node` is no parent at the step of `node`. -/
def firstStaysAt (S : Subgraph) (F : Files) (node : Id) : Bool :=
  S.files.names.all fun p => decide (node ∉ S.files.idsWith .f p) || leadsBack F node p

/-- The first lines of the input are in their files, as they were: none has been moved to a
group. -/
def FirstLines (S : Subgraph) (F : Files) : Prop :=
  ∀ n, ∀ e ∈ S.files.lines n, e.build = .f → e.id ∈ S.files.names →
    ∃ d ∈ F.lines n, d.build = .f ∧ d.id = e.id

theorem FirstLines.step {S : Subgraph} {F : Files} {node : Id} {rest : List Id}
    (h : S.FirstLines F) (hinv : S.RuntimeInv (node :: rest) F)
    (hok : Jhalfs.runtimeSlipFree collate F node = true)
    (hstays : S.firstStaysAt F node = true) : S.FirstLines (processRuntime collate F node) := by
  intro n e he hbuild hid
  obtain ⟨d, hd, hdbuild, hdid⟩ := h n e he hbuild hid
  obtain ⟨d', hd', hd'build, -, hd'id⟩ := exists_movedLine node hd
  have hb : d'.build = .f := hd'build.trans hdbuild
  refine ⟨d', mem_lines_of_mem_moved collate hinv.root hinv.node_ne_root (groupxx_notMem hok)
    (keepsOthers_of_slipFree hok) (Files.mem_names_of_mem_lines hd) hd' (Or.inr ?_), hb, ?_⟩
  · rw [hb]
    decide
  · rcases hd'id with ⟨-, hd'id⟩ | ⟨hback, hnode, -⟩
    · exact hd'id.trans hdid
    · -- the line would be moved, but its package is no parent
      have hp := List.all_eq_true.mp hstays n (Files.mem_names_of_mem_lines he)
      rw [Bool.or_eq_true, decide_eq_true_iff, hback] at hp
      refine absurd ?_ (hp.resolve_right Bool.false_ne_true)
      exact Files.mem_idsWith.mpr ⟨e, he, hbuild, hdid.symm.trans hnode⟩

end Subgraph

section

open Machine Sample

end

end Jhalfs
