import Jhalfs.Book.ApplyList
import Jhalfs.Scripts.Names
import Jhalfs.Deps.Order

/-!
# From the list of packages to the order of the build

The list that `tree_browse` prints becomes the pages of the linear book (`apply-list`), each
page a script with its position in the name (scripts.xsl), and each script a target of the
Makefile that needs the one before it (gen-makefile.sh). This module joins the models of the
three steps to the model of the dependency run.

- `pagesOfList`: the pages of the list, `buildMakefile`: the Makefile of their scripts.
- `scriptsFor`: the scripts once more, each with the name of the list that it is made for. A
  name can have several pages (a module that stands in two xorg pages) or none (a group), so
  an order of names is not at once an order of scripts.
- `MadeBefore`: every script of one name is an indirect prerequisite of every script of another.
  In a chain of rules this is what makes `make` run the one before the other, whatever is up to
  date.

Up to 999 pages the three steps keep the order of the list (`madeBefore_of_sublist`).

**Main result**: with the order of the walk over the tree this gives what the tool is for, the
scripts of a dependency are run before those of the package (`buildsInOrder_of_keepsFirst`).
The proof takes two names with an edge between them, finds them in this order in the list,
the scripts of the first before those of the second in the directory, and goes down the chain
of the rules from the one to the other.
-/

namespace Jhalfs.Book

open Text Scripts

/-! ## The chain of the targets -/

/-- The rule of `y` has the prerequisite `x`. -/
def Needs (rules : List (List Char × List Char)) (x y : List Char) : Prop := (y, x) ∈ rules

theorem needs_cons {rules : List (List Char × List Char)} {r : List Char × List Char}
    {x y : List Char} (h : Needs rules x y) : Needs (r :: rules) x y :=
  List.mem_cons_of_mem _ h

theorem transGen_of_mem_chained {prev y : List Char} {names : List (List Char)} (h : y ∈ names) :
    Relation.TransGen (Needs (chained prev names)) prev y := by
  induction names generalizing prev with
  | nil => cases h
  | cons name names ih =>
    have hfirst : Needs (chained prev (name :: names)) prev name := List.mem_cons_self
    rcases List.mem_cons.mp h with rfl | hmem
    · exact .single hfirst
    · exact .head hfirst (Relation.TransGen.mono (fun _ _ => needs_cons) _ _ (ih hmem))

/-- Each name of a chain needs all those before it. -/
theorem transGen_of_sublist_chained {prev x y : List Char} {names : List (List Char)}
    (h : [x, y].Sublist names) : Relation.TransGen (Needs (chained prev names)) x y := by
  induction names generalizing prev with
  | nil => cases h
  | cons name names ih =>
    rw [chained]
    refine Relation.TransGen.mono (fun _ _ => needs_cons) _ _ ?_
    cases h with
    | cons _ hsub => exact ih hsub
    | cons_cons _ hsub => exact transGen_of_mem_chained (List.singleton_sublist.mp hsub)

/-! ## From the list to the targets -/

/-- The pages that the list of the third pass makes: what is printed goes through the command
substitution of the shell and `normalize-space` to the template. -/
def pagesOfList (b : Books) (out : List Id) : List (List Char) :=
  b.applyList (normalizeSpace (substitution (printed (out.map Id.chars))))

/-- The Makefile of the scripts of the pages. -/
def buildMakefile (b : Books) (out : List Id) : Makefile :=
  generateMakefile (scriptNames (pagesOfList b out))

/-- The pages that get a script, each with the name of the list that it is made for. -/
def scriptedFor (b : Books) (out : List Id) : List (Id × List Char) :=
  out.flatMap fun n => (scripted (b.pagesOf n.chars)).map (n, ·)

/-- The scripts, each with the name of the list that it is made for. -/
def scriptsFor (b : Books) (out : List Id) : List (Id × List Char) :=
  (scriptedFor b out).mapIdx fun i x => (x.1, scriptName (i + 1) x.2)

/-- `make` runs every script that is made for `m` before every script that is made for `n`: the
one is a prerequisite of the other, perhaps by way of scripts between them. -/
def MadeBefore (b : Books) (out : List Id) (m n : Id) : Prop :=
  ∀ s t, (m, s) ∈ scriptsFor b out → (n, t) ∈ scriptsFor b out →
    Relation.TransGen (Needs (buildMakefile b out).rules) s t

theorem isWord_chars (n : Id) : IsWord n.chars := by
  have hvalid := n.valid
  rw [isPageId, Bool.and_eq_true, Bool.and_eq_true, Bool.not_eq_true', List.all_eq_true] at hvalid
  refine ⟨fun hnil => ?_, fun c hc => ?_⟩
  · rw [hnil] at hvalid
    exact Bool.noConfusion hvalid.1.1
  · have hchar := hvalid.2 c hc
    rw [← Bool.not_eq_true]
    intro hspace
    rw [isSpace, Bool.or_eq_true, Bool.or_eq_true, Bool.or_eq_true, beq_iff_eq, beq_iff_eq,
      beq_iff_eq, beq_iff_eq] at hspace
    rcases hspace with ((rfl | rfl) | rfl) | rfl
    all_goals exact absurd hchar (by decide)

theorem pagesOfList_eq (b : Books) (out : List Id) :
    pagesOfList b out = out.flatMap fun n => b.pagesOf n.chars := by
  rw [pagesOfList, normalizeSpace_output, b.applyList_joined, List.flatMap_map]
  all_goals
    intro w hw
    obtain ⟨n, -, rfl⟩ := List.mem_map.mp hw
    exact isWord_chars n

theorem map_snd_scriptedFor (b : Books) (out : List Id) :
    (scriptedFor b out).map Prod.snd = scripted (pagesOfList b out) := by
  rw [pagesOfList_eq, scriptedFor, List.map_flatMap, scripted, List.filter_flatMap]
  refine List.flatMap_congr fun n _ => ?_
  rw [List.map_map]
  exact List.map_id _

/-- The scripts are those of the directory. -/
theorem map_snd_scriptsFor (b : Books) (out : List Id) :
    (scriptsFor b out).map Prod.snd = scriptNames (pagesOfList b out) := by
  rw [scriptNames, ← map_snd_scriptedFor, scriptsFor]
  exact List.ext_getElem (by simp) fun i h₁ h₂ => by simp

/-- Scripts are made for the names of the list, whatever number they get. -/
theorem mem_of_mem_scriptedFor {b : Books} {out : List Id} {n : Id} {s : List Char}
    {f : Nat → List Char → List Char}
    (h : (n, s) ∈ (scriptedFor b out).mapIdx fun i x => (x.1, f i x.2)) : n ∈ out := by
  obtain ⟨i, hi, heq⟩ := List.mem_mapIdx.mp h
  have htag : (scriptedFor b out)[i].1 = n := congrArg Prod.fst heq
  obtain ⟨m, hm, hx⟩ := List.mem_flatMap.mp (List.getElem_mem hi)
  obtain ⟨page, -, hpage⟩ := List.mem_map.mp hx
  rw [← htag, ← hpage]
  exact hm

theorem scriptedFor_append (b : Books) (l₁ l₂ : List Id) :
    scriptedFor b (l₁ ++ l₂) = scriptedFor b l₁ ++ scriptedFor b l₂ := List.flatMap_append

/-- The scripts of two names of the list are in the order of the names. -/
theorem sublist_scriptsFor (b : Books) {l₁ l₂ : List Id} {m n : Id} (hm : m ∉ l₂) (hn : n ∉ l₁)
    {s t : List Char} (hs : (m, s) ∈ scriptsFor b (l₁ ++ l₂))
    (ht : (n, t) ∈ scriptsFor b (l₁ ++ l₂)) :
    [s, t].Sublist (scriptNames (pagesOfList b (l₁ ++ l₂))) := by
  rw [← map_snd_scriptsFor]
  rw [scriptsFor, scriptedFor_append, List.mapIdx_append] at hs ht ⊢
  rw [List.map_append]
  refine List.Sublist.append (List.singleton_sublist.mpr ?_) (List.singleton_sublist.mpr ?_)
  · rcases List.mem_append.mp hs with hs | hs
    · exact List.mem_map_of_mem hs
    · exact absurd (mem_of_mem_scriptedFor
        (f := fun i page => scriptName (i + (scriptedFor b l₁).length + 1) page) hs) hm
  · rcases List.mem_append.mp ht with ht | ht
    · exact absurd (mem_of_mem_scriptedFor (f := fun i page => scriptName (i + 1) page) ht) hn
    · exact List.mem_map_of_mem ht

theorem madeBefore_of_sublist (b : Books) {out : List Id}
    (hcount : (scripted (pagesOfList b out)).length ≤ 999) (hnodup : out.Nodup) {m n : Id}
    (hsub : [m, n].Sublist out) : MadeBefore b out m n := by
  intro s t hs ht
  obtain ⟨l₁, l₂, rfl, hm, hn⟩ := List.cons_sublist_iff.mp hsub
  have hdisjoint := List.disjoint_of_nodup_append hnodup
  have hnames := sublist_scriptsFor b (hdisjoint hm)
    (fun hn' => hdisjoint hn' (List.singleton_sublist.mp hn)) hs ht
  rw [buildMakefile, generateMakefile_rules, glob_scriptNames hcount]
  exact transGen_of_sublist_chained hnames

/-- What the tool is for: for all the edges that are left of the tree, `make` runs every script
of the dependency before every script of the package. -/
def BuildsInOrder (b : Books) (G : DepFiles) : Prop :=
  ∀ d, G.Returns d → ∃ out, d.list = some out ∧
    ((scripted (pagesOfList b out)).length ≤ 999 →
      ∀ a ∈ out, ∀ e ∈ d.dep a, MadeBefore b out e.id a)

/-- **The dependencies are built first**: the order of the walk over the tree goes through
the list, the pages and the names of the scripts to the rules of the Makefile. -/
theorem buildsInOrder_of_keepsFirst (b : Books) (G : DepFiles)
    (hkeeps : ∀ c, G.Reaches c → keepsFirst c = true) : BuildsInOrder b G := by
  rintro d ⟨c, hc, hctl, hcs, rfl⟩
  have hfin : Finished True c.dir := (Inv.of_reaches (fun _ => hkeeps) hc).finished hctl hcs
  obtain ⟨out, hout, hnodup, hmem, horder⟩ := hfin.list
  refine ⟨out, hout, fun hcount a ha e he => ?_⟩
  exact madeBefore_of_sublist b hcount hnodup (hfin.sublist_of_mem_dep hmem (horder trivial) ha he)

/-- A BLFS book where each id is a section. -/
def sectionsOnly : Books where
  id _ := some .sect1
  sect1s := []
  lfs := []

theorem twoCycle_buildsInOrder : BuildsInOrder sectionsOnly twoCycle :=
  buildsInOrder_of_keepsFirst sectionsOnly twoCycle fun _ hc =>
    Machine.allFor_sound (n := 40) (by decide +kernel) hc

end Jhalfs.Book
