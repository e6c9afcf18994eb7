import Jhalfs.Base.Cut
import Jhalfs.Base.Glob
import Jhalfs.Deps.PathTo

/-!
# The variable `seen` of `path_to`

The nodes that `path_to` has entered are kept in one text, a blank and each name with a
blank behind it, and a name is looked for with `"${seen% $id_of_dep *}" = "$seen"`: nothing
is removed if no end of the text begins with the name between blanks
(BLFS/libs/func_dependencies:209–217).

- `pathToText` is the function as it is written, on the text.
- `seenText` is the text of a list of names. A name has no blank, so the test on the text
  is membership in the list (`alreadySeen_iff`): a name between blanks in the text is one of
  the names, by induction over the list from its end.
- `pathToText_eq`: the calls on the text go as the calls on lists, with the same bound on
  the depth. The loop over the lines of a file is compared first, for any nested search that
  is already known to agree.

So `path_to` ends and decides bounded reachability (`pathToText_returns`): from some depth on
every bound gives the same result, and it finds the node exactly when there is a path of at
least one edge, or the start is the node.
-/

namespace Jhalfs

open Text

/-- `! test "${seen% $id_of_dep *}" = "$seen"`. -/
def alreadySeen (seen idOfDep : List Char) : Bool :=
  stripShortestEnd ((' ' :: idOfDep ++ [' ']).map .lit ++ [.star]) seen != seen

/-- The loop over the lines of a file (func_dependencies:213–217), with `seen` as a text. -/
def pathLoopText (search : List Char → Id → Option (Bool × List Char)) (prio : Nat) :
    List Entry → List Char → Option (Bool × List Char)
  | [], seen => some (false, seen)
  | e :: es, seen =>
    if prio < e.prio.val then
      pathLoopText search prio es seen
    else if alreadySeen seen e.id.chars then
      pathLoopText search prio es seen
    else
      match search seen e.id with
      | none => none
      | some (true, seen') => some (true, seen')
      | some (false, seen') => pathLoopText search prio es seen'

/-- `path_to <start>.dep <seek> <prio>` with a bound on the depth of its recursion: whether 0
is returned, and the variable `seen` afterwards. -/
def pathToText (F : Files) (seek : Id) (prio : Nat) : Nat → List Char → Id →
    Option (Bool × List Char)
  | 0, _, _ => none
  | fuel + 1, seen, start =>
    if start.chars = seek.chars then
      some (true, seen)
    else
      pathLoopText (pathToText F seek prio fuel) prio (F.lines start) (seen ++ start.chars ++ [' '])

/-! ## The text -/

/-- The value of `seen` when these nodes have been entered, in this order. -/
def seenText (seen : List Id) : List Char := ' ' :: seen.flatMap fun n => n.chars ++ [' ']

theorem seenText_concat (seen : List Id) (n : Id) :
    seenText (seen ++ [n]) = seenText seen ++ n.chars ++ [' '] := by
  rw [seenText, List.flatMap_append, List.flatMap_singleton, seenText]
  simp

theorem blank_notMem_id (n : Id) : ' ' ∉ n.chars := by
  intro h
  have hvalid := n.valid
  rw [isPageId, Bool.and_eq_true, List.all_eq_true] at hvalid
  exact absurd (hvalid.2 _ h) (by decide)

/-- A name between blanks is in the text when it is one of the names. -/
theorem infix_seenText_iff (n : Id) (seen : List Id) :
    ' ' :: (n.chars ++ [' ']) <:+: seenText seen ↔ n ∈ seen := by
  induction seen with
  | nil =>
    refine iff_of_false (fun h => ?_) List.not_mem_nil
    have hlen := h.length_le
    simp [seenText] at hlen
  | cons m seen ih =>
    have hone : n.chars ++ [' '] <+: m.chars ++ ' ' :: (seen.flatMap fun n => n.chars ++ [' ']) ↔
        n = m := by
      constructor
      · exact fun h => Id.ext (word_eq_of_line (blank_notMem_id n) (blank_notMem_id m) h).1
      · rintro rfl
        exact ⟨seen.flatMap fun n => n.chars ++ [' '], by simp⟩
    have htext : seenText (m :: seen) =
        ' ' :: (m.chars ++ ' ' :: (seen.flatMap fun n => n.chars ++ [' '])) := by
      simp [seenText]
    rw [htext, List.infix_cons_iff, List.cons_prefix_cons, and_iff_right rfl, hone,
      infix_append_cons_iff (blank_notMem_id m), List.mem_cons, ← ih, seenText,
      List.infix_cons_iff, List.cons_prefix_cons, and_iff_right rfl]

/-- **The test on the text is membership.** A node is seen when its id stands between two
blanks, and no id has a blank. -/
theorem alreadySeen_iff (n : Id) (seen : List Id) :
    alreadySeen (seenText seen) n.chars = true ↔ n ∈ seen := by
  have hnil : ¬ matchesAll ((' ' :: n.chars ++ [' ']).map .lit ++ [.star]) [] = true := by
    rw [matchesAll_lits_star]
    exact fun h => List.cons_ne_nil _ _ (List.prefix_nil.mp h)
  rw [alreadySeen, bne_iff_ne, ne_eq, stripShortestEnd_eq_self_iff hnil, ← infix_seenText_iff,
    List.infix_iff_prefix_suffix]
  simp only [matchesAll_lits_star, not_forall, not_not]
  constructor
  · rintro ⟨t, ht, h⟩
    exact ⟨t, h, ht⟩
  · rintro ⟨t, h, ht⟩
    exact ⟨t, ht, h⟩

/-! ## The calls -/

section Calls

variable {F : Files} {seek : Id} {prio : Nat}

/-- A result, with the value of `seen` as a text. -/
def onText (r : Bool × List Id) : Bool × List Char := (r.1, seenText r.2)

theorem pathLoopText_eq {search : List Id → Id → Option (Bool × List Id)}
    {searchText : List Char → Id → Option (Bool × List Char)}
    (hsearch : ∀ seen n, searchText (seenText seen) n = (search seen n).map onText)
    (es : List Entry) (seen : List Id) :
    pathLoopText searchText prio es (seenText seen) =
      (pathLoop search prio es seen).map onText := by
  induction es generalizing seen with
  | nil => rfl
  | cons e es ih =>
    rw [pathLoopText, pathLoop]
    by_cases hout : prio < e.prio.val
    · rw [if_pos hout, if_pos hout, ih]
    · rw [if_neg hout, if_neg hout]
      by_cases hmem : e.id ∈ seen
      · rw [if_pos hmem, if_pos ((alreadySeen_iff _ _).mpr hmem), ih]
      · rw [if_neg hmem, if_neg (mt (alreadySeen_iff _ _).mp hmem), hsearch]
        cases search seen e.id with
        | none => rfl
        | some r =>
          obtain ⟨found, seen'⟩ := r
          cases found with
          | true => rfl
          | false => exact ih seen'

/-- The calls on the text go as the calls on lists. -/
theorem pathToText_eq (fuel : Nat) (seen : List Id) (start : Id) :
    pathToText F seek prio fuel (seenText seen) start =
      (pathToAux F seek prio fuel seen start).map onText := by
  induction fuel generalizing seen start with
  | zero => rfl
  | succ fuel ih =>
    rw [pathToText, pathToAux]
    by_cases hfound : start = seek
    · rw [if_pos hfound, if_pos (congrArg Id.chars hfound)]
      rfl
    · rw [if_neg hfound, if_neg (mt Id.ext hfound), ← seenText_concat]
      exact pathLoopText_eq ih _ _

end Calls

/-- **`path_to` decides bounded reachability.** It returns for every graph, with cycles or
without, and the text of what it has seen lists the nodes that it has come to. -/
theorem pathToText_returns (F : Files) (start seek : Id) (prio : Nat) :
    ∃ depth, ∀ fuel, depth ≤ fuel → ∃ found seen,
      pathToText F seek prio fuel " ".toList start = some (found, seen) ∧
        (found = true ↔ start = seek ∨ Relation.TransGen (Follows F.lines prio) start seek) := by
  refine ⟨F.names.length + 1, fun fuel hfuel => ?_⟩
  obtain ⟨found, seen, heq, hfound⟩ :
      ∃ found seen, pathToAux F seek prio fuel [] start = some (found, seen) ∧
        (found = true ↔ Path F.lines prio start seek) := pathToAux_iff hfuel start
  refine ⟨found, seenText seen, ?_, ?_⟩
  · show pathToText F seek prio fuel (seenText []) start = _
    rw [pathToText_eq, heq]
    rfl
  · rw [hfound, Path, Relation.reflTransGen_iff_eq_or_transGen, eq_comm]

end Jhalfs
