import Mathlib.Data.List.Perm.Basic
import Jhalfs.Base.Search
import Jhalfs.Deps.Files

/-!
# The first pass: `generate_subgraph`

The first pass makes the nodes: starting from the targets in `root.dep` it
writes the file of every package reachable by edges of small enough weight
(BLFS/libs/func_dependencies:78–186). A node is met for the first time at some
depth, and a file that exists is not read again, so that the weight allowed at a
node could depend on the order of the visits. It does not: below the targets the
weight is the same at every depth, and a target is read at depth 2 even if its
file exists (`Explored`, `exists_explored_targets`).

- `Packages` is what `dependencies.xsl` prints of packages.xml, and `Request` what
  the user asks for. Both carry the facts that the program relies on: a package has
  not the name of the special node, and there is a target.
- `generateSubgraph` is the function, with a bound on the depth of its recursion,
  and `firstPass` the call on `root.dep`.
- `Explored` relates the files before and after a walk: it has made the files of its
  seeds and of what they lead to, each with the lines of its package, and kept the
  others. Walks compose (`Explored.trans`), so the loop over the lines of a file is an
  induction, and the recursion another one on the number of packages that have no file.
- `Request.Selects` is the set of packages that is asked for, stated on the graph alone,
  and `firstPass_exact` says that the pass finds it, in any order of the targets.
- `Subgraph` is what the first pass leaves for the second, with the run it comes from.

The displays of the function, and its arguments that only serve them, are left
out.
-/

namespace Jhalfs

/-! ## The program -/

/-- What `dependencies.xsl` prints of `packages.xml`: for each package the lines
of its dependencies. The name of the special node is no package. -/
structure Packages where
  ids : List Id
  lines : Id → List Entry
  listed : ∀ n, lines n ≠ [] → n ∈ ids
  reserved : rootId ∉ ids

/-- What the user asked for: the targets and `DEP_LEVEL`. The menu writes a level of 1 to 4,
and the program is not called without targets. -/
structure Request where
  targets : List Id
  depLevel : Nat
  nonempty : targets ≠ []
  nodup : targets.Nodup
  reserved : rootId ∉ targets
  level_pos : 1 ≤ depLevel
  level_le : depLevel ≤ 4

/-- `generate_deps` (gen_pkg_book.sh:105–114): the lines of `root.dep` for the targets, and no
other file. -/
def generateDeps (targets : List Id) : Files :=
  targets.foldl (fun F t => F.append rootId (required t)) Files.empty

/-- The local `dep_level` of a call at `depth` (func_dependencies:126–128). -/
def callLevel (depLevel depth : Nat) : Nat :=
  let level := if depLevel = 3 ∧ 2 < depth then 2 else depLevel
  if 3 < level then 3 else level

/-- The body of the loop at the line `e`, with `depth` counted up
(func_dependencies:135–179). -/
def readLine (P : Packages) (depLevel : Nat) (recurse : Id → Files → Option Files)
    (level depth : Nat) (F : Files) (e : Entry) : Option Files :=
  if e.id ∈ F.names ∧ ¬ (depth = 2 ∧ depLevel = 3) then
    some F
  else if level < e.prio.val then
    some F
  else if P.lines e.id ≠ [] then
    recurse e.id (F.write e.id (P.lines e.id))
  else
    some (F.write e.id (P.lines e.id))

/-- `generate_subgraph <depFile>.dep` at a depth, with a bound on the depth of
its recursion; `none` when the bound is too small. -/
def generateSubgraph (P : Packages) (depLevel : Nat) : Nat → Nat → Id → Files → Option Files
  | 0, _, _, _ => none
  | fuel + 1, depth, depFile, F =>
    (F.lines depFile).foldlM
      (readLine P depLevel (generateSubgraph P depLevel fuel (depth + 1))
        (callLevel depLevel depth) (depth + 1)) F

/-- `generate_subgraph root.dep 1 1 b` on the file of the targets. A nested call
reads the file of a package that has lines, and below the targets one that had
no file before, so the packages bound the depth of the calls. -/
def firstPass (P : Packages) (r : Request) : Option Files :=
  generateSubgraph P r.depLevel (P.ids.length + 2) 1 rootId (generateDeps r.targets)

/-! ## What a walk has made -/

/-- The files hold the lines of their packages, all but the one of root, which holds the
targets. -/
def Holds (P : Packages) (F : Files) : Prop :=
  ∀ n ∈ F.names, n ≠ rootId → F.lines n = P.lines n

theorem Holds.write {P : Packages} {F : Files} (h : Holds P F) (t : Id) :
    Holds P (F.write t (P.lines t)) := by
  intro n hn hne
  by_cases hid : n = t
  · rw [hid, Files.lines_write_self]
  · rw [Files.lines_write_of_ne hid]
    exact h n ((Files.mem_names_write.mp hn).resolve_left hid) hne

/-- Going from `F` to `F'`, a walk has made the files of its seeds and of what
they lead to by edges of weight at most `level`. -/
structure Explored (P : Packages) (level : Nat) (seeds : Set Id) (F F' : Files) : Prop where
  marks : Search.Marks (Follows P.lines level) seeds {n | n ∈ F.names} {n | n ∈ F'.names}
  kept : ∀ n ∈ F.names, F'.lines n = F.lines n
  lines : ∀ n ∈ F'.names, n ∉ F.names → F'.lines n = P.lines n

namespace Explored

variable {P : Packages} {level : Nat} {seeds seeds' : Set Id} {F F' F'' : Files}

theorem refl (h : seeds ⊆ {n | n ∈ F.names}) : Explored P level seeds F F where
  marks := .refl h
  kept _ _ := rfl
  lines _ hn hnot := absurd hn hnot

/-- Two walks, one after the other. -/
theorem trans (h : Explored P level seeds F F') (h' : Explored P level seeds' F' F'') :
    Explored P level (seeds ∪ seeds') F F'' where
  marks := h.marks.trans h'.marks
  kept n hn := (h'.kept n (h.marks.kept hn)).trans (h.kept n hn)
  lines n hn hnot := by
    by_cases hmid : n ∈ F'.names
    · exact (h'.kept n hmid).trans (h.lines n hmid hnot)
    · exact h'.lines n hn hmid

/-- The file of `t` is written, then its lines are walked. When the file was there
it already held these lines. -/
theorem of_write {t : Id} {wide : Nat} (hwide : level ≤ wide)
    (hsame : t ∈ F.names → F.lines t = P.lines t)
    (h : Explored P level (followed wide (P.lines t)) (F.write t (P.lines t)) F') :
    Explored P level (insert t (followed wide (P.lines t))) F F' where
  marks := by
    have hnames : {n | n ∈ (F.write t (P.lines t)).names} = insert t {n | n ∈ F.names} :=
      Set.ext fun _ => Files.mem_names_write
    refine Search.Marks.insert (hnames ▸ h.marks) fun m hm => ?_
    obtain ⟨e, he, hp, hid⟩ := hm
    exact ⟨e, he, hp.trans hwide, hid⟩
  kept n hn := by
    rw [h.kept n (Files.mem_names_write.mpr (Or.inr hn))]
    by_cases hne : n = t
    · rw [hne, Files.lines_write_self, hsame (hne ▸ hn)]
    · exact Files.lines_write_of_ne hne
  lines n hn hnot := by
    by_cases hne : n = t
    · rw [hne, h.kept t (Files.mem_names_write.mpr (Or.inl rfl)), Files.lines_write_self]
    · refine h.lines n hn fun hold => ?_
      exact (Files.mem_names_write.mp hold).elim hne hnot

/-- A new file, whose lines are walked at the level of the walk. -/
theorem of_new {t : Id} (ht : t ∉ F.names)
    (h : Explored P level (followed level (P.lines t)) (F.write t (P.lines t)) F') :
    Explored P level {t} F F' := by
  have hwrite := h.of_write le_rfl fun hold => absurd hold ht
  exact { hwrite with marks := hwrite.marks.of_successors fun _ hm => hm }

theorem holds (h : Explored P level seeds F F') (hF : Holds P F) : Holds P F' := by
  intro n hn hne
  by_cases hold : n ∈ F.names
  · rw [h.kept n hold]
    exact hF n hold hne
  · exact h.lines n hn hold

end Explored

/-! ## The calls -/

theorem Packages.lines_root (P : Packages) : P.lines rootId = [] := by
  by_contra h
  exact P.reserved (P.listed rootId h)

/-- The number of packages without a file. It goes down with each call, so that the recursion
over packages with cycles ends. -/
def missing (P : Packages) (F : Files) : Nat :=
  (P.ids.filter fun n => decide (n ∉ F.names)).length

theorem missing_le_length (P : Packages) (F : Files) : missing P F ≤ P.ids.length :=
  List.length_filter_le _ _

theorem missing_le_of_names {P : Packages} {F F' : Files} (h : ∀ n ∈ F.names, n ∈ F'.names) :
    missing P F' ≤ missing P F := by
  refine (List.monotone_filter_right P.ids fun n hn => ?_).length_le
  rw [decide_eq_true_iff] at *
  exact fun hF => hn (h n hF)

theorem missing_write_lt {P : Packages} {F : Files} {n : Id} {es : List Entry} (hn : n ∈ P.ids)
    (hnot : n ∉ F.names) : missing P (F.write n es) < missing P F := by
  have hle : missing P (F.write n es) ≤
      ((P.ids.filter fun m => decide (m ∉ F.names)).filter fun m => m != n).length := by
    rw [List.filter_filter]
    refine (List.monotone_filter_right P.ids fun m hm => ?_).length_le
    rw [decide_eq_true_iff, Files.mem_names_write, not_or] at hm
    rw [Bool.and_eq_true, bne_iff_ne, decide_eq_true_iff]
    exact hm
  refine hle.trans_lt (List.length_filter_lt_length_iff_exists.mpr ⟨n, ?_, by simp⟩)
  exact List.mem_filter.mpr ⟨hn, decide_eq_true hnot⟩

/-- The level of the calls below the targets. -/
def deepLevel (depLevel : Nat) : Nat := callLevel depLevel 3

theorem callLevel_eq_deepLevel {depLevel depth : Nat} (h : ¬ (depth = 2 ∧ depLevel = 3))
    (hdepth : 2 ≤ depth) : callLevel depLevel depth = deepLevel depLevel := by
  simp only [deepLevel, callLevel]
  repeat' split
  all_goals omega

section Calls

variable {P : Packages} {depLevel : Nat}

/-- One line, when the nested call does what a call does. -/
theorem exists_explored_readLine {recurse : Id → Files → Option Files} (level : Nat)
    {depth fuel : Nat}
    (hplain : ¬ (depth = 2 ∧ depLevel = 3))
    (hrec : ∀ n F, Holds P F → F.lines n = P.lines n → missing P F < fuel →
      ∃ F', recurse n F = some F' ∧
        Explored P (deepLevel depLevel) (followed (deepLevel depLevel) (P.lines n)) F F')
    {F : Files} (hF : Holds P F) (hfuel : missing P F ≤ fuel) (e : Entry) :
    ∃ F', readLine P depLevel recurse level depth F e = some F' ∧
      Explored P (deepLevel depLevel) (followed level [e]) F F' := by
  have hseed : ∀ s ∈ followed level [e], s = e.id ∧ e.prio.val ≤ level := by
    rintro s ⟨d, hd, hp, rfl⟩
    rw [List.mem_singleton.mp hd] at hp ⊢
    exact ⟨rfl, hp⟩
  rw [readLine]
  by_cases hseen : e.id ∈ F.names
  · rw [if_pos ⟨hseen, hplain⟩]
    exact ⟨F, rfl, .refl fun s hs => (hseed s hs).1 ▸ hseen⟩
  · rw [if_neg fun h => hseen h.1]
    by_cases hout : level < e.prio.val
    · rw [if_pos hout]
      exact ⟨F, rfl, .refl fun s hs => absurd (hseed s hs).2 (Nat.not_le.mpr hout)⟩
    · rw [if_neg hout]
      have hone : followed level [e] = {e.id} := followed_singleton (Nat.not_lt.mp hout)
      -- both branches that are left write the file and walk its lines, if it has any
      split
      · next hlines =>
        obtain ⟨F', heq, hexp⟩ := hrec e.id _ (hF.write e.id) Files.lines_write_self
          ((missing_write_lt (P.listed _ hlines) hseen).trans_le hfuel)
        exact ⟨F', heq, hone ▸ hexp.of_new hseen⟩
      · next hlines =>
        rw [not_ne_iff] at hlines
        refine ⟨_, rfl, hone ▸ Explored.of_new hseen (.refl ?_)⟩
        rw [hlines, followed_nil]
        exact Set.empty_subset _

/-- The loop over the lines of a file. -/
theorem exists_explored_lines {recurse : Id → Files → Option Files} (level : Nat)
    {depth fuel : Nat}
    (hplain : ¬ (depth = 2 ∧ depLevel = 3))
    (hrec : ∀ n F, Holds P F → F.lines n = P.lines n → missing P F < fuel →
      ∃ F', recurse n F = some F' ∧
        Explored P (deepLevel depLevel) (followed (deepLevel depLevel) (P.lines n)) F F')
    (es : List Entry) {F : Files} (hF : Holds P F) (hfuel : missing P F ≤ fuel) :
    ∃ F', es.foldlM (readLine P depLevel recurse level depth) F = some F' ∧
      Explored P (deepLevel depLevel) (followed level es) F F' := by
  induction es generalizing F with
  | nil => exact ⟨F, rfl, .refl (by rw [followed_nil]; exact Set.empty_subset _)⟩
  | cons e es ih =>
    obtain ⟨F', heq, hexp⟩ := exists_explored_readLine level hplain hrec hF hfuel e
    obtain ⟨F'', heq', hexp'⟩ :=
      ih (hexp.holds hF) ((missing_le_of_names hexp.marks.kept).trans hfuel)
    refine ⟨F'', ?_, ?_⟩
    · rw [List.foldlM_cons, heq]
      exact heq'
    · rw [followed_cons]
      exact hexp.trans hexp'

/-- A call on a file of a package. The induction is on the bound, which counts the
packages that have no file yet. -/
theorem exists_explored (depLevel depth : Nat) {fuel : Nat} (hdepth : 2 ≤ depth) {n : Id}
    {F : Files} (hF : Holds P F) (hlines : F.lines n = P.lines n) (hfuel : missing P F < fuel) :
    ∃ F', generateSubgraph P depLevel fuel depth n F = some F' ∧
      Explored P (deepLevel depLevel) (followed (callLevel depLevel depth) (P.lines n)) F F' := by
  induction fuel generalizing depth n F with
  | zero => exact absurd hfuel (Nat.not_lt_zero _)
  | succ fuel ih =>
    rw [generateSubgraph, hlines]
    refine exists_explored_lines _ (by omega) (fun m F₁ hF₁ hm hlt => ?_) _ hF
      (Nat.lt_succ_iff.mp hfuel)
    obtain ⟨F', heq, hexp⟩ := ih (depth + 1) (by omega) hF₁ hm hlt
    rw [callLevel_eq_deepLevel (by omega) (by omega)] at hexp
    exact ⟨F', heq, hexp⟩

/-- At level 3 a line of `root.dep` is followed whether or not its file exists. -/
theorem exists_explored_target {fuel : Nat} (h3 : depLevel = 3) {t : Id} (ht : t ≠ rootId)
    {F : Files} (hF : Holds P F) (hfuel : missing P F < fuel) :
    ∃ F', readLine P depLevel (generateSubgraph P depLevel fuel 2) (callLevel depLevel 1) 2 F
        (required t) = some F' ∧
      Explored P (deepLevel depLevel) (insert t (followed 3 (P.lines t))) F F' := by
  have hnot : ¬ ((required t).id ∈ F.names ∧ ¬ (2 = 2 ∧ depLevel = 3)) :=
    fun h => h.2 ⟨rfl, h3⟩
  have hin : ¬ callLevel depLevel 1 < (required t).prio.val := by
    change ¬ callLevel depLevel 1 < 1
    rw [h3]
    decide
  have hsame : t ∈ F.names → F.lines t = P.lines t := fun h => hF t h ht
  rw [readLine, if_neg hnot, if_neg hin]
  change ∃ F', (if P.lines t ≠ [] then generateSubgraph P depLevel fuel 2 t
    (F.write t (P.lines t)) else some (F.write t (P.lines t))) = some F' ∧ _
  by_cases hlines : P.lines t ≠ []
  · rw [if_pos hlines]
    obtain ⟨F', heq, hexp⟩ := exists_explored depLevel 2 le_rfl (hF.write t) Files.lines_write_self
      ((missing_le_of_names fun n hn => Files.mem_names_write.mpr (Or.inr hn)).trans_lt hfuel)
    have hlevel : callLevel depLevel 2 = 3 := by
      rw [h3]
      decide
    rw [hlevel] at hexp
    refine ⟨F', heq, hexp.of_write ?_ hsame⟩
    rw [h3]
    decide
  · rw [if_neg hlines]
    rw [not_ne_iff] at hlines
    have hleaf : Explored P (deepLevel depLevel) (followed 3 (P.lines t))
        (F.write t (P.lines t)) (F.write t (P.lines t)) :=
      .refl (by rw [hlines, followed_nil]; exact Set.empty_subset _)
    refine ⟨_, rfl, hleaf.of_write ?_ hsame⟩
    rw [h3]
    decide

/-- The loop over `root.dep` at level 3. -/
theorem exists_explored_targets {fuel : Nat} (h3 : depLevel = 3) (targets : List Id)
    (ht : rootId ∉ targets) {F : Files} (hF : Holds P F) (hfuel : missing P F < fuel) :
    ∃ F', (targets.map required).foldlM (readLine P depLevel (generateSubgraph P depLevel fuel 2)
        (callLevel depLevel 1) 2) F = some F' ∧
      Explored P (deepLevel depLevel) {s | s ∈ targets ∨ ∃ t ∈ targets, Follows P.lines 3 t s}
        F F' := by
  induction targets generalizing F with
  | nil => exact ⟨F, rfl, .refl (by simp)⟩
  | cons t targets ih =>
    rw [List.mem_cons, not_or] at ht
    obtain ⟨F', heq, hexp⟩ := exists_explored_target h3 (Ne.symm ht.1) hF hfuel
    obtain ⟨F'', heq', hexp'⟩ :=
      ih ht.2 (hexp.holds hF) ((missing_le_of_names hexp.marks.kept).trans_lt hfuel)
    refine ⟨F'', ?_, ?_⟩
    · rw [List.map_cons, List.foldlM_cons, heq]
      exact heq'
    · have hseeds : {s | s ∈ t :: targets ∨ ∃ t' ∈ t :: targets, Follows P.lines 3 t' s} =
          insert t (followed 3 (P.lines t)) ∪
            {s | s ∈ targets ∨ ∃ t' ∈ targets, Follows P.lines 3 t' s} := by
        ext s
        simp only [List.mem_cons, exists_eq_or_imp, Set.mem_union, Set.mem_insert_iff,
          Set.mem_ofPred_eq, followed, Follows]
        exact or_or_or_comm
      rw [hseeds]
      exact hexp.trans hexp'

end Calls

/-! ## The whole pass -/

theorem foldl_append_root (targets : List Id) (F : Files) :
    let F' := targets.foldl (fun F t => F.append rootId (required t)) F
    F'.lines rootId = F.lines rootId ++ targets.map required ∧
      ∀ n, n ∈ F'.names ↔ n ∈ F.names ∨ (n = rootId ∧ targets ≠ []) := by
  induction targets generalizing F with
  | nil => simp
  | cons t targets ih =>
    obtain ⟨hlines, hnames⟩ := ih (F.append rootId (required t))
    constructor
    · rw [List.foldl_cons, hlines, Files.append, Files.lines_write_self, List.map_cons,
        List.append_assoc, List.singleton_append]
    · intro n
      rw [List.foldl_cons, hnames, Files.mem_names_append]
      by_cases hn : n = rootId <;> simp [hn]

theorem lines_generateDeps (targets : List Id) :
    (generateDeps targets).lines rootId = targets.map required :=
  (foldl_append_root targets Files.empty).1

theorem mem_names_generateDeps {targets : List Id} (h : targets ≠ []) {n : Id} :
    n ∈ (generateDeps targets).names ↔ n = rootId := by
  rw [generateDeps, (foldl_append_root targets Files.empty).2 n]
  simp [Files.empty, h]

/-- From a directory with only `root.dep`, the files made are what the seeds lead
to. -/
theorem Explored.mem_names_iff {P : Packages} {level : Nat} {seeds : Set Id} {F F' : Files}
    (h : Explored P level seeds F F') (hF : ∀ n, n ∈ F.names ↔ n = rootId) {n : Id}
    (hn : n ≠ rootId) : n ∈ F'.names ↔ ∃ s ∈ seeds, Path P.lines level s n := by
  refine h.marks.mem_iff (fun k hk m hkm => ?_) fun hold => hn ((hF n).mp hold)
  obtain ⟨e, he, -⟩ := hkm
  rw [(hF k).mp hk, P.lines_root] at he
  exact List.not_mem_nil he

/-- The seeds of the pass: the targets, at level 3 with the ends of their edges. -/
def Request.seeds (P : Packages) (r : Request) : Set Id :=
  if r.depLevel = 3 then
    {s | s ∈ r.targets ∨ ∃ t ∈ r.targets, Follows P.lines 3 t s}
  else
    {s | s ∈ r.targets}

theorem exists_explored_firstPass (P : Packages) (r : Request) :
    ∃ F, firstPass P r = some F ∧
      Explored P (deepLevel r.depLevel) (r.seeds P) (generateDeps r.targets) F := by
  have hF : Holds P (generateDeps r.targets) := fun n hn hne =>
    absurd ((mem_names_generateDeps r.nonempty).mp hn) hne
  have hfuel : missing P (generateDeps r.targets) < P.ids.length + 1 :=
    Nat.lt_succ_iff.mpr (missing_le_length P _)
  rw [firstPass, generateSubgraph, lines_generateDeps, Request.seeds]
  by_cases h3 : r.depLevel = 3
  · rw [if_pos h3]
    exact exists_explored_targets h3 r.targets r.reserved hF hfuel
  · rw [if_neg h3]
    have hpos := r.level_pos
    have hlevel : 1 ≤ callLevel r.depLevel 1 := by
      simp only [callLevel]
      repeat' split
      all_goals omega
    have hseeds : followed (callLevel r.depLevel 1) (r.targets.map required) =
        {s | s ∈ r.targets} := by
      ext s
      constructor
      · rintro ⟨e, he, -, rfl⟩
        obtain ⟨t, ht, rfl⟩ := List.mem_map.mp he
        exact ht
      · exact fun hs => ⟨required s, List.mem_map_of_mem hs, hlevel, rfl⟩
    have hrec : ∀ n F₁, Holds P F₁ → F₁.lines n = P.lines n → missing P F₁ < P.ids.length →
        ∃ F', generateSubgraph P r.depLevel (P.ids.length + 1) 2 n F₁ = some F' ∧
          Explored P (deepLevel r.depLevel) (followed (deepLevel r.depLevel) (P.lines n))
            F₁ F' := by
      intro n F₁ hF₁ hn hlt
      obtain ⟨F', heq, hexp⟩ := exists_explored r.depLevel 2 le_rfl hF₁ hn (Nat.lt_succ_of_lt hlt)
      rw [callLevel_eq_deepLevel (fun h => h3 h.2) le_rfl] at hexp
      exact ⟨F', heq, hexp⟩
    obtain ⟨F, heq, hexp⟩ := exists_explored_lines (callLevel r.depLevel 1)
      (fun h : 2 = 2 ∧ r.depLevel = 3 => h3 h.2) hrec (r.targets.map required) hF
      (missing_le_length P _)
    rw [hseeds] at hexp
    exact ⟨F, heq, hexp⟩

/-- The packages the pass has to find: those reachable by edges of weight at most
`DEP_LEVEL`, or at most 3 when the level is 4; at level 3, those reachable by
edges of weight at most 2 from the targets and from the packages that the targets
list with weight at most 3. -/
def Request.Selects (P : Packages) (r : Request) (n : Id) : Prop :=
  if r.depLevel = 3 then
    ∃ s, (s ∈ r.targets ∨ ∃ t ∈ r.targets, Follows P.lines 3 t s) ∧ Path P.lines 2 s n
  else if r.depLevel = 4 then
    ∃ t ∈ r.targets, Path P.lines 3 t n
  else
    ∃ t ∈ r.targets, Path P.lines r.depLevel t n

theorem selects_iff_seeds {P : Packages} {r : Request} {n : Id} :
    r.Selects P n ↔ ∃ s ∈ r.seeds P, Path P.lines (deepLevel r.depLevel) s n := by
  have hpos := r.level_pos
  have hle := r.level_le
  rw [Request.Selects, Request.seeds]
  by_cases h3 : r.depLevel = 3
  · have hdeep : deepLevel r.depLevel = 2 := by rw [h3]; decide
    rw [if_pos h3, if_pos h3, hdeep]
    rfl
  · rw [if_neg h3, if_neg h3]
    by_cases h4 : r.depLevel = 4
    · have hdeep : deepLevel r.depLevel = 3 := by rw [h4]; decide
      rw [if_pos h4, hdeep]
      rfl
    · have hdeep : deepLevel r.depLevel = r.depLevel := by
        simp only [deepLevel, callLevel]
        repeat' split
        all_goals omega
      rw [if_neg h4, hdeep]
      rfl

theorem selects_perm {P : Packages} {r r' : Request} (hperm : r'.targets.Perm r.targets)
    (hlevel : r'.depLevel = r.depLevel) {n : Id} : r'.Selects P n ↔ r.Selects P n := by
  simp only [Request.Selects, hlevel, hperm.mem_iff]

/-- **The first pass computes exact reachability**: it returns; besides `root.dep`
it leaves the files of the selected packages, each with the lines of its package;
and the order of the targets does not matter. -/
theorem firstPass_exact (P : Packages) (r : Request) :
    ∃ F, firstPass P r = some F ∧
      (∀ n, n ≠ rootId → (n ∈ F.names ↔ r.Selects P n)) ∧
      (∀ n ∈ F.names, n ≠ rootId → F.lines n = P.lines n) ∧
      ∀ r' : Request, r'.targets.Perm r.targets → r'.depLevel = r.depLevel →
        ∃ F', firstPass P r' = some F' ∧ ∀ n, n ≠ rootId → (n ∈ F'.names ↔ n ∈ F.names) := by
  have hmem : ∀ (q : Request) (F : Files),
      Explored P (deepLevel q.depLevel) (q.seeds P) (generateDeps q.targets) F →
      ∀ n, n ≠ rootId → (n ∈ F.names ↔ q.Selects P n) := fun q F hexp n hn =>
    (hexp.mem_names_iff (fun _ => mem_names_generateDeps q.nonempty) hn).trans
      selects_iff_seeds.symm
  obtain ⟨F, heq, hexp⟩ := exists_explored_firstPass P r
  refine ⟨F, heq, hmem r F hexp, ?_, ?_⟩
  · exact fun n hn hne =>
      hexp.lines n hn fun hold => hne ((mem_names_generateDeps r.nonempty).mp hold)
  · intro r' hperm hlevel
    obtain ⟨F', heq', hexp'⟩ := exists_explored_firstPass P r'
    refine ⟨F', heq', fun n hn => ?_⟩
    rw [hmem r' F' hexp' n hn, hmem r F hexp n hn, selects_perm hperm hlevel]

/-! ## What the second pass is given -/

/-- What the first pass leaves for the second: the packages and the request it was made for,
and the files that it has returned. -/
structure Subgraph where
  packages : Packages
  request : Request
  files : Files
  left : firstPass packages request = some files

namespace Subgraph

variable (S : Subgraph)

theorem explored : Explored S.packages (deepLevel S.request.depLevel)
    (S.request.seeds S.packages) (generateDeps S.request.targets) S.files := by
  obtain ⟨F, heq, hexp⟩ := exists_explored_firstPass S.packages S.request
  rw [S.left] at heq
  cases heq
  exact hexp

theorem root_mem : rootId ∈ S.files.names :=
  S.explored.marks.kept ((mem_names_generateDeps S.request.nonempty).mpr rfl)

theorem lines_root : S.files.lines rootId = S.request.targets.map required := by
  rw [S.explored.kept rootId ((mem_names_generateDeps S.request.nonempty).mpr rfl),
    lines_generateDeps]

theorem target_mem {t : Id} (ht : t ∈ S.request.targets) : t ∈ S.files.names := by
  refine S.explored.marks.ends ?_
  rw [Request.seeds]
  split
  · exact Or.inl ht
  · exact ht

theorem lines_eq {n : Id} (hn : n ∈ S.files.names) (hne : n ≠ rootId) :
    S.files.lines n = S.packages.lines n :=
  S.explored.lines n hn fun hold => hne ((mem_names_generateDeps S.request.nonempty).mp hold)

theorem deepLevel_le : deepLevel S.request.depLevel ≤ 3 := by
  have hle := S.request.level_le
  simp only [deepLevel, callLevel]
  repeat' split
  all_goals omega

/-- A target is an edge away from root. -/
theorem path_target {t : Id} (ht : t ∈ S.request.targets) : Path S.files.lines 3 rootId t :=
  Relation.ReflTransGen.single
    ⟨required t, S.lines_root ▸ List.mem_map_of_mem ht, (by decide : 1 ≤ 3), rfl⟩

theorem path_seed {s : Id} (hs : s ∈ S.request.seeds S.packages) :
    Path S.files.lines 3 rootId s := by
  rw [Request.seeds] at hs
  split at hs
  · rcases hs with hs | ⟨t, ht, e, he, hp, hid⟩
    · exact S.path_target hs
    · have hne : t ≠ rootId := fun h => S.request.reserved (h ▸ ht)
      rw [← S.lines_eq (S.target_mem ht) hne] at he
      exact (S.path_target ht).tail ⟨e, he, hp, hid⟩
  · exact S.path_target hs

/-- Every node is reachable from root by edges of weight at most 3. -/
theorem path_root {n : Id} (hn : n ∈ S.files.names) : Path S.files.lines 3 rootId n := by
  by_cases hne : n = rootId
  · exact hne ▸ Relation.ReflTransGen.refl
  · obtain ⟨s, hs, hpath⟩ := S.explored.marks.sound n hn fun hold =>
      hne ((mem_names_generateDeps S.request.nonempty).mp hold)
    clear hn hne
    -- along the path every node has its file, with the lines of its package
    have hwalk : n ∈ S.files.names ∧ Path S.files.lines 3 rootId n := by
      induction hpath with
      | refl => exact ⟨S.explored.marks.ends hs, S.path_seed hs⟩
      | @tail m k _ hedge ih =>
        obtain ⟨hm, hroot⟩ := ih
        obtain ⟨e, he, hp, hid⟩ := hedge
        have hne : m ≠ rootId := by
          rintro rfl
          rw [S.packages.lines_root] at he
          exact List.not_mem_nil he
        have hold : m ∉ (generateDeps S.request.targets).names := fun hold =>
          hne ((mem_names_generateDeps S.request.nonempty).mp hold)
        refine ⟨S.explored.marks.closed m hm hold k ⟨e, he, hp, hid⟩, hroot.tail ?_⟩
        exact ⟨e, (S.lines_eq hm hne).symm ▸ he, hp.trans S.deepLevel_le, hid⟩
    exact hwalk.2

end Subgraph

/-- The subgraph of a request. -/
def Subgraph.of (P : Packages) (r : Request) : Subgraph where
  packages := P
  request := r
  files := (firstPass P r).getD Files.empty
  left := by
    obtain ⟨F, heq, -⟩ := exists_explored_firstPass P r
    rw [heq]
    rfl

/-- The packages of a table. -/
def Packages.ofTable (table : List (Id × List Entry)) (h : rootId ∉ table.map Prod.fst) :
    Packages where
  ids := table.map Prod.fst
  lines := depOf table
  listed n hn := by
    by_contra hnot
    refine hn ?_
    rw [depOf, List.lookup_eq_none_iff.mpr]
    · rfl
    · intro p hp
      rw [bne_iff_ne]
      rintro rfl
      exact hnot (List.mem_map_of_mem hp)
  reserved := h

/-- There are targets, all distinct and none of them root. -/
def targetsOk (targets : List Id) : Bool :=
  !targets.isEmpty && distinct targets && !targets.contains rootId

/-- The request for some packages at level 4. -/
def Request.all (targets : List Id) (h : targetsOk targets = true) : Request where
  targets := targets
  depLevel := 4
  nonempty := by
    rintro rfl
    cases h
  nodup := by
    simp only [targetsOk, Bool.and_eq_true] at h
    exact nodup_of_distinct h.1.2
  reserved := by
    simp only [targetsOk, Bool.and_eq_true] at h
    simpa using h.2
  level_pos := by decide
  level_le := le_rfl

end Jhalfs
