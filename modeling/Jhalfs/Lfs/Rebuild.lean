import Jhalfs.Lfs.Chain
import Jhalfs.Lfs.Complete

/-!
# What a rebuild repeats

`chapter_targets` goes over a directory twice or more: once for the first build, and once for
each rebuild, over the copies (LFS/master.sh:45–218). The names decide what is skipped, and
the copies have other names. A pattern like `*strippingagain` does not match a copy, so what
the first build leaves out by such a pattern is rebuilt if it unpacks a tarball or is a
stripping page (`strippingagain_not_repeated`). The shell sorts the copies by their new
names, and `-build_N` can come behind the next letters of a longer name. A script that is called
like another one with the suffix is overwritten before its copy is made (`Lfs.Copies`).

- `firstTargets` and `rebuildTargets`: what the two kinds of run write, as filters on the names
  in their order (`kept`). On a copy all but one of the patterns fail (`skips_copy`).
- `Repeated`: the targets of a rebuild are those of the first build that it is meant to repeat,
  without the headers and the scripts that unpack nothing, in their order.
- `Repeats`: for every state in which the chapter of the final system is reached all the
  rebuilds come to their end, and each repeats the first build.
- `RepeatableRun` and `Repeatable`: the conditions on the names and texts in the directory.

**Main result**: `repeats_iff`, a directory is repeated exactly under `Repeatable`. For one
rebuild this is `repeated_of_repeatableRun` and `repeatableRun_of_repeated`; the run up to a
rebuild is followed with `Lfs.Complete`.
-/

namespace Jhalfs.Lfs

open Text

/-! ## The scripts that get a target -/

/-- The scripts that get a target. -/
def kept (s : Settings) (nbChaps : Nat) (rebuild : Bool) (sc : Script) : Bool :=
  !skips s nbChaps rebuild sc.name &&
    !(sc.pkgTarball.isEmpty && rebuild && !rebuiltAnyway sc.name)

theorem targets_addScript (s : Settings) (nbChaps chap : Nat) (rebuild : Bool) (m : Makefile)
    (sc : Script) : targets (addScript s nbChaps chap rebuild m sc) =
      targets m ++ if kept s nbChaps rebuild sc = true then [sc.name] else [] := by
  unfold addScript
  split
  · next h =>
    have hkept : ¬ kept s nbChaps rebuild sc = true := by simp [kept, h]
    rw [if_neg hkept, List.append_nil]
  · next h =>
    split
    · next h' =>
      have hkept : ¬ kept s nbChaps rebuild sc = true := by simp [kept, h']
      rw [if_neg hkept, List.append_nil]
    · next h' =>
      have hkept : kept s nbChaps rebuild sc = true := by
        rw [kept, Bool.and_eq_true, Bool.not_eq_true', Bool.not_eq_true', ← Bool.not_eq_true,
          ← Bool.not_eq_true]
        exact ⟨h, h'⟩
      rw [if_pos hkept]
      dsimp only
      split
      · exact targets_wrtTarget _ sc.name _
      · exact targets_wrtTarget _ sc.name _

theorem targets_foldl_addScript (s : Settings) (nbChaps chap : Nat) (rebuild : Bool)
    (scripts : List Script) (m : Makefile) :
    targets (scripts.foldl (addScript s nbChaps chap rebuild) m) =
      targets m ++ (scripts.filter (kept s nbChaps rebuild)).map Script.name := by
  induction scripts generalizing m with
  | nil => simp
  | cons sc scripts ih =>
    rw [List.foldl_cons, ih, targets_addScript, List.filter_cons]
    split
    · simp
    · simp

/-! ## The names of the copies -/

theorem endsWith_copy {w : String} (hw : w.toList ≠ [])
    (hlast : w.toList.getLast?.any Char.isDigit = false) (name : List Char) (run : Nat) :
    endsWith w (name ++ buildSuffix run) = false := by
  obtain ⟨c, hc, hdigit⟩ := getLast_copy name run
  rw [← Bool.not_eq_true]
  intro h
  have hends := (getLast_of_endsWith h hw).symm.trans hc
  rw [hends, Option.any_some, hdigit] at hlast
  cases hlast

/-- A word whose last letter is not in the text behind is not found there. -/
theorem contains_append_of_last {s t w : List Char} {a : Char} (ha : a ∉ t) :
    contains (s ++ t) (w ++ [a]) = contains s (w ++ [a]) := by
  induction t using List.reverseRecOn with
  | nil => rw [List.append_nil]
  | append_singleton t b ih =>
    rw [List.mem_append, List.mem_singleton, not_or] at ha
    rw [← ih ha.1, Bool.eq_iff_iff, contains_iff, contains_iff, ← List.append_assoc,
      List.infix_concat_iff]
    refine or_iff_right fun hsuff => ha.2 ?_
    have hend := hsuff.getLast (by simp)
    simpa using hend

theorem digit_or_mem_of_mem_buildSuffix {c : Char} {run : Nat} (h : c ∈ buildSuffix run) :
    c ∈ "-build_".toList ∨ c.isDigit = true := by
  rcases List.mem_append.mp h with h | h
  · exact Or.inl h
  · exact Or.inr (isDigit_of_mem_decimal h)

theorem contains_headers_copy (name : List Char) (run : Nat) :
    contains (name ++ buildSuffix run) "linux-headers".toList =
      contains name "linux-headers".toList := by
  have hnot : 's' ∉ buildSuffix run := by
    intro h
    rcases digit_or_mem_of_mem_buildSuffix h with h | h
    · revert h
      decide
    · revert h
      decide
  exact contains_append_of_last (w := "linux-header".toList) hnot

/-- A word without a hyphen is not found over the beginning of the suffix. -/
theorem contains_word_copy {c : Char} {w : List Char} (hdash : '-' ∉ c :: w)
    (hc : c ∉ "-build_".toList) (hdigit : c.isDigit = false) (name : List Char) (run : Nat) :
    contains (name ++ buildSuffix run) (c :: w) = contains name (c :: w) := by
  have hnot : contains ("build_".toList ++ decimal run) (c :: w) = false := by
    rw [← Bool.not_eq_true, contains_iff]
    intro h
    have hsuffix : c ∈ buildSuffix run := List.mem_cons_of_mem '-' (h.subset List.mem_cons_self)
    rcases digit_or_mem_of_mem_buildSuffix hsuffix with hmem | hmem
    · exact hc hmem
    · rw [hdigit] at hmem
      cases hmem
  have hsplit := contains_append_cons (s := name) (t := "build_".toList ++ decimal run)
    (List.cons_ne_nil c w) hdash
  rwa [hnot, Bool.or_false] at hsplit

theorem rebuiltAnyway_copy (name : List Char) (run : Nat) :
    rebuiltAnyway (name ++ buildSuffix run) = rebuiltAnyway name := by
  unfold rebuiltAnyway
  rw [show "stripping".toList = 's' :: "tripping".toList from rfl,
    show "revised".toList = 'r' :: "evised".toList from rfl,
    contains_word_copy (by decide) (by decide) (by decide),
    contains_word_copy (by decide) (by decide) (by decide)]

/-- Of the patterns that skip, only the one for the headers matches a copy. -/
theorem skips_copy (s : Settings) (nbChaps : Nat) (rebuild : Bool) (name : List Char)
    (run : Nat) : skips s nbChaps rebuild (name ++ buildSuffix run) =
      (contains name "linux-headers".toList && rebuild) := by
  have hglibc := endsWith_copy (w := "glibc") (by decide) (by decide) name run
  have hstripping := endsWith_copy (w := "strippingagain") (by decide) (by decide) name run
  have hgrub := endsWith_copy (w := "grub") (by decide) (by decide) name run
  have hfstab := endsWith_copy (w := "fstab") (by decide) (by decide) name run
  have hkernel := endsWith_copy (w := "kernel") (by decide) (by decide) name run
  simp only [skips, hglibc, hstripping, hgrub, hfstab, hkernel, contains_headers_copy,
    Bool.and_false, Bool.false_eq_true, if_false]
  split
  · next h => rw [h, Bool.true_and]
  · next h => rw [Bool.not_eq_true] at h; rw [h, Bool.false_and]

/-- A script of this name with the text of `start` is one that a rebuild is meant to repeat
(master.sh:55, 93–97). -/
def rebuildsFrom (name : List Char) (start : ScriptFile) : Bool :=
  !contains name "linux-headers".toList &&
    (!(pkgTarball start.text).isEmpty || rebuiltAnyway name)

/-- The scripts that a rebuild is meant to repeat. -/
def rebuilds (file : ScriptFile) : Bool := rebuildsFrom file.name file

/-- What is kept of the copies. -/
theorem kept_copy (s : Settings) (nbChaps : Nat) {run : Nat} {copy start : ScriptFile}
    {name : List Char} (hname : copy.name = name ++ buildSuffix run)
    (htext : (pkgTarball copy.text).isEmpty = (pkgTarball start.text).isEmpty) :
    kept s nbChaps true copy.script = rebuildsFrom name start := by
  unfold kept rebuildsFrom ScriptFile.script
  dsimp only
  rw [hname, skips_copy, rebuiltAnyway_copy, htext]
  simp

/-! ## The targets of the two runs -/

/-- The targets of the first build. -/
def firstTargets (s : Settings) (nbChaps : Nat) (files : List ScriptFile) : List (List Char) :=
  ((inNameOrder files).filter fun file => !skips s nbChaps false file.name).map ScriptFile.name

theorem targets_firstBuild (s : Settings) (nbChaps : Nat) (files : List ScriptFile) (chap : Nat)
    (m : Makefile) : targets (firstBuild s nbChaps files chap m) =
      targets m ++ firstTargets s nbChaps files := by
  have hkept : (kept s nbChaps false ∘ ScriptFile.script) =
      fun file => !skips s nbChaps false file.name := by
    funext file
    simp [kept, ScriptFile.script]
  rw [firstBuild, targets_foldl_addScript, List.filter_map, List.map_map, hkept]
  rfl

/-- The first build reads the names alone. -/
theorem firstTargets_eq (s : Settings) (nbChaps : Nat) (files : List ScriptFile) :
    firstTargets s nbChaps files =
      (scriptNames files).filter fun name => !skips s nbChaps false name := by
  rw [firstTargets, scriptNames, ← names_inNameOrder, List.filter_map]
  rfl

theorem mem_firstTargets {s : Settings} {nbChaps : Nat} {files : List ScriptFile}
    {name : List Char} : name ∈ firstTargets s nbChaps files ↔
      name ∈ files.map ScriptFile.name ∧ skips s nbChaps false name = false := by
  rw [firstTargets_eq, List.mem_filter, scriptNames, mem_sortByName, Bool.not_eq_true']

/-- The targets of a rebuild. -/
def rebuildTargets (s : Settings) (nbChaps : Nat) (copies : List ScriptFile) :
    List (List Char) :=
  ((inNameOrder copies).filter fun copy => kept s nbChaps true copy.script).map ScriptFile.name

theorem targets_copiesTargets (s : Settings) (nbChaps : Nat) (copies : List ScriptFile)
    (chap : Nat) (m : Makefile) : targets (copiesTargets s nbChaps copies chap m) =
      targets m ++ rebuildTargets s nbChaps copies := by
  show targets (((inNameOrder copies).map ScriptFile.script).foldl _ _) = _
  rw [targets_foldl_addScript, List.filter_map, List.map_map]
  rfl

/-- The names of some of the files, in their order. -/
theorem pairwise_names (files : List ScriptFile) (p : ScriptFile → Bool) :
    (((inNameOrder files).filter p).map ScriptFile.name).Pairwise
      fun a b => byteLe a b = true := by
  rw [List.pairwise_map]
  exact (pairwise_inNameOrder files).sublist List.filter_sublist

/-! ## What is repeated -/

/-- Of the targets `first` the rebuild has, in their order, those that it is meant to
repeat. -/
structure Repeated (files : List ScriptFile) (run : Nat) (first again : List (List Char)) :
    Prop where
  rebuilt_iff : ∀ file ∈ files, file.name ++ buildSuffix run ∈ again ↔
    file.name ∈ first ∧ rebuilds file = true
  order : again.Sublist (first.map (· ++ buildSuffix run))

/-- No script has the name of the copy of this one, so that no script is overwritten by it and it
gets its copy. -/
def Free (run : Nat) (files : List ScriptFile) (file : ScriptFile) : Prop :=
  file.name ++ buildSuffix run ∉ files.map ScriptFile.name

instance (run : Nat) (files : List ScriptFile) (file : ScriptFile) :
    Decidable (Free run files file) := inferInstanceAs (Decidable (_ ∉ _))

/-- The directories for which a rebuild does so. A script that is moved to the name of another
one is not to be repeated; one that is skipped at first is not to be rebuilt; a copy that has
the text of another script unpacks something if the script of its name does; and the suffix
keeps the order of a name and a longer one. -/
structure RepeatableRun (s : Settings) (nbChaps : Nat) (files : List ScriptFile) (run : Nat) :
    Prop where
  taken : ∀ file ∈ files, ¬ Free run files file → rebuilds file = true →
    skips s nbChaps false file.name = true
  skipped : ∀ file ∈ files, Free run files file → skips s nbChaps false file.name = true →
    ¬ rebuilds file = true
  replaced : ∀ file ∈ files, Free run files file → ∀ start, Origin run files file.name start →
    rebuildsFrom file.name start = rebuilds file
  order : ∀ a ∈ files, ∀ b ∈ files, Free run files a → Free run files b → rebuilds a = true →
    rebuilds b = true → ∀ r, b.name = a.name ++ r →
      byteLe (buildSuffix run) (r ++ buildSuffix run) = true

section Rebuild

variable {s : Settings} {nbChaps run : Nat} {files copies : List ScriptFile}

/-- A rebuild leaves out what is moved to the name of another script. -/
theorem free_of_mem_rebuildTargets (hcopies : Copies run files copies) {file : ScriptFile}
    (h : file.name ++ buildSuffix run ∈ rebuildTargets s nbChaps copies) :
    Free run files file := by
  obtain ⟨copy, hcopy, hname⟩ := List.mem_map.mp h
  rw [List.mem_filter, mem_inNameOrder] at hcopy
  obtain ⟨-, -, -, hfree⟩ := (hcopies.names copy.name).mp (List.mem_map_of_mem hcopy.1)
  rwa [hname] at hfree

variable (s nbChaps) in
/-- The targets of a rebuild come from the scripts, with the texts of their origins. -/
theorem mem_rebuildTargets_iff (hcopies : Copies run files copies) {file : ScriptFile}
    (hfile : file ∈ files) (hfree : Free run files file) :
    ∃ start, Origin run files file.name start ∧
      (file.name ++ buildSuffix run ∈ rebuildTargets s nbChaps copies ↔
        rebuildsFrom file.name start = true) := by
  obtain ⟨copy, hcopy, hname⟩ := List.mem_map.mp
    ((hcopies.names _).mpr ⟨file, hfile, rfl, hfree⟩)
  obtain ⟨name, start, hstart, hcopyname, htext⟩ := hcopies.origin copy hcopy
  have hsame : name = file.name := List.append_cancel_right (hcopyname.symm.trans hname)
  subst hsame
  refine ⟨start, hstart, ?_⟩
  rw [← kept_copy s nbChaps hcopyname htext, ← hname, rebuildTargets,
    List.mem_map]
  constructor
  · rintro ⟨other, hother, hothername⟩
    rw [List.mem_filter, mem_inNameOrder] at hother
    rw [← List.inj_on_of_nodup_map hcopies.distinct hother.1 hcopy hothername]
    exact hother.2
  · intro hkept
    refine ⟨copy, ?_, rfl⟩
    rw [List.mem_filter, mem_inNameOrder]
    exact ⟨hcopy, hkept⟩

/-- A script that has no other text than its own. -/
theorem origin_eq_of_skips (hdistinct : (files.map ScriptFile.name).Nodup) {file start : ScriptFile}
    (hfile : file ∈ files) (hskips : skips s nbChaps false file.name = true)
    (h : Origin run files file.name start) : start = file := by
  refine h.eq_self hdistinct hfile fun other _ heq => ?_
  rw [← heq, skips_copy, Bool.and_false] at hskips
  cases hskips

theorem rel_or_rel_of_pairwise {α : Type} {R : α → α → Prop} {l : List α} (h : l.Pairwise R)
    {a b : α} (ha : a ∈ l) (hb : b ∈ l) (hne : a ≠ b) : R a b ∨ R b a := by
  induction h with
  | nil => cases ha
  | cons hrel _ ih =>
    rcases List.mem_cons.mp ha with rfl | hta
    · exact Or.inl (hrel b ((List.mem_cons.mp hb).resolve_left (Ne.symm hne)))
    · rcases List.mem_cons.mp hb with rfl | htb
      · exact Or.inr (hrel a hta)
      · exact ih hta htb

/-- Two names stand in one order in the first build, so they have to stand in it in the
rebuild. -/
theorem Repeated.order_suffix
    (h : Repeated files run (firstTargets s nbChaps files) (rebuildTargets s nbChaps copies))
    {a b r : List Char} (ha : a ++ buildSuffix run ∈ rebuildTargets s nbChaps copies)
    (hb : b ++ buildSuffix run ∈ rebuildTargets s nbChaps copies) (hname : b = a ++ r) :
    byteLe (buildSuffix run) (r ++ buildSuffix run) = true := by
  by_cases hr : r = []
  · rw [hr, List.nil_append]
    exact (byteLe_total _ _).elim id id
  · have hfirst : (rebuildTargets s nbChaps copies).Pairwise fun x y => ∀ u v,
        x = u ++ buildSuffix run → y = v ++ buildSuffix run → byteLe u v = true := by
      refine List.Pairwise.sublist h.order ?_
      rw [List.pairwise_map]
      refine (pairwise_names files _).imp fun {x y} hxy u v hu hv => ?_
      rw [← List.append_cancel_right hu, ← List.append_cancel_right hv]
      exact hxy
    have hagain := pairwise_names copies fun copy => kept s nbChaps true copy.script
    have hne : a ++ buildSuffix run ≠ b ++ buildSuffix run := by
      rw [hname]
      intro heq
      exact hr (List.self_eq_append_right.mp (List.append_cancel_right heq))
    -- the shorter name was built first, so its copy is the first of the two as well
    rcases rel_or_rel_of_pairwise (hagain.and hfirst) ha hb hne with ⟨hab, -⟩ | ⟨-, hba⟩
    · rwa [hname, List.append_assoc, byteLe_append_left] at hab
    · have hle := hba b a rfl rfl
      rw [hname, ← List.append_nil a, List.append_assoc, byteLe_append_left,
        List.nil_append] at hle
      cases r with
      | nil => exact absurd rfl hr
      | cons c r => cases hle

/-- What has to be so for a rebuild that repeats the first build. -/
theorem repeatableRun_of_repeated (hdistinct : (files.map ScriptFile.name).Nodup)
    (hcopies : Copies run files copies)
    (h : Repeated files run (firstTargets s nbChaps files) (rebuildTargets s nbChaps copies)) :
    RepeatableRun s nbChaps files run := by
  have hbuilt : ∀ file ∈ files, file.name ++ buildSuffix run ∈ rebuildTargets s nbChaps copies ↔
      skips s nbChaps false file.name = false ∧ rebuilds file = true := by
    intro file hfile
    rw [h.rebuilt_iff file hfile, mem_firstTargets, and_iff_right (List.mem_map_of_mem hfile)]
  have hcopy : ∀ file ∈ files, Free run files file → ∀ start, Origin run files file.name start →
      (rebuildsFrom file.name start = true ↔
        skips s nbChaps false file.name = false ∧ rebuilds file = true) := by
    intro file hfile hfree start hstart
    obtain ⟨start', hstart', hmem⟩ := mem_rebuildTargets_iff s nbChaps hcopies hfile hfree
    rw [hstart.unique hdistinct hstart', ← hmem, hbuilt file hfile]
  have hskipped : ∀ file ∈ files, Free run files file → rebuilds file = true →
      skips s nbChaps false file.name = false := by
    intro file hfile hfree hrebuilds
    obtain ⟨start, hstart, -⟩ := mem_rebuildTargets_iff s nbChaps hcopies hfile hfree
    by_contra hskips
    rw [Bool.not_eq_false] at hskips
    have hown := origin_eq_of_skips hdistinct hfile hskips hstart
    subst hown
    have hnot := ((hcopy start hfile hfree start hstart).mp hrebuilds).1
    rw [hskips] at hnot
    cases hnot
  refine ⟨fun file hfile htaken hrebuilds => ?_, fun file hfile hfree hskips hrebuilds => ?_,
    fun file hfile hfree start hstart => ?_, fun a ha b hb hfa hfb hra hrb r hname => ?_⟩
  · by_contra hskips
    rw [Bool.not_eq_true] at hskips
    exact htaken (free_of_mem_rebuildTargets hcopies ((hbuilt file hfile).mpr ⟨hskips, hrebuilds⟩))
  · rw [hskipped file hfile hfree hrebuilds] at hskips
    cases hskips
  · cases hskips : skips s nbChaps false file.name with
    | true => rw [origin_eq_of_skips hdistinct hfile hskips hstart, rebuilds]
    | false =>
      rw [Bool.eq_iff_iff, hcopy file hfile hfree start hstart, and_iff_right hskips]
  · exact h.order_suffix ((hbuilt a ha).mpr ⟨hskipped a ha hfa hra, hra⟩)
      ((hbuilt b hb).mpr ⟨hskipped b hb hfb hrb, hrb⟩) hname

/-- Which copies get a target. -/
theorem RepeatableRun.mem_rebuildTargets (h : RepeatableRun s nbChaps files run)
    (hcopies : Copies run files copies) {file : ScriptFile} (hfile : file ∈ files) :
    file.name ++ buildSuffix run ∈ rebuildTargets s nbChaps copies ↔
      Free run files file ∧ rebuilds file = true := by
  constructor
  · intro hmem
    have hfree := free_of_mem_rebuildTargets hcopies hmem
    obtain ⟨start, hstart, hiff⟩ := mem_rebuildTargets_iff s nbChaps hcopies hfile hfree
    rw [← h.replaced file hfile hfree start hstart]
    exact ⟨hfree, hiff.mp hmem⟩
  · rintro ⟨hfree, hrebuilds⟩
    obtain ⟨start, hstart, hiff⟩ := mem_rebuildTargets_iff s nbChaps hcopies hfile hfree
    rw [← h.replaced file hfile hfree start hstart] at hrebuilds
    exact hiff.mpr hrebuilds

/-- The copies of sorted names are sorted, if the suffix keeps the order of a name and a
longer one. -/
theorem RepeatableRun.rebuildTargets_eq (h : RepeatableRun s nbChaps files run)
    (hdistinct : (files.map ScriptFile.name).Nodup) (hcopies : Copies run files copies) :
    rebuildTargets s nbChaps copies =
      ((inNameOrder files).filter fun file => decide (Free run files file) && rebuilds file).map
        fun file => file.name ++ buildSuffix run := by
  have hnodup : (rebuildTargets s nbChaps copies).Nodup := by
    have hsorted : ((inNameOrder copies).map ScriptFile.name).Nodup :=
      ((perm_inNameOrder copies).map _).nodup_iff.mpr hcopies.distinct
    exact hsorted.sublist (List.filter_sublist.map _)
  have hnodup' : (((inNameOrder files).filter fun file =>
      decide (Free run files file) && rebuilds file).map fun file =>
        file.name ++ buildSuffix run).Nodup := by
    have hsorted : ((inNameOrder files).map ScriptFile.name).Nodup :=
      ((perm_inNameOrder files).map _).nodup_iff.mpr hdistinct
    have hsuffix : ((inNameOrder files).map fun file => file.name ++ buildSuffix run).Nodup := by
      have hinj : Function.Injective fun name : List Char => name ++ buildSuffix run :=
        fun _ _ heq => List.append_cancel_right heq
      have hmap := hsorted.map hinj
      rwa [List.map_map] at hmap
    exact hsuffix.sublist (List.filter_sublist.map _)
  refine List.Perm.eq_of_pairwise
    (fun a b _ _ (hab : byteLe a b = true) hba => byteLe_antisymm hab hba) (pairwise_names _ _) ?_
    ((List.perm_ext_iff_of_nodup hnodup hnodup').mpr fun name => ?_)
  · rw [List.pairwise_map]
    refine List.Pairwise.imp_of_mem ?_
      ((pairwise_inNameOrder files).sublist List.filter_sublist)
    intro a b ha hb hab
    rw [List.mem_filter, mem_inNameOrder, Bool.and_eq_true, decide_eq_true_eq] at ha hb
    rcases byteLe_cases hab with ⟨r, hr⟩ | hdiff
    · rw [hr, List.append_assoc, byteLe_append_left]
      exact h.order a ha.1 b hb.1 ha.2.1 hb.2.1 ha.2.2 hb.2.2 r hr
    · exact hdiff _ _
  · constructor
    · intro hname
      obtain ⟨copy, hcopy, rfl⟩ := List.mem_map.mp hname
      rw [List.mem_filter, mem_inNameOrder] at hcopy
      obtain ⟨file, hfile, hcopyname, -⟩ :=
        (hcopies.names copy.name).mp (List.mem_map_of_mem hcopy.1)
      rw [hcopyname] at hname ⊢
      refine List.mem_map.mpr ⟨file, ?_, rfl⟩
      rw [List.mem_filter, mem_inNameOrder, Bool.and_eq_true, decide_eq_true_eq]
      exact ⟨hfile, (h.mem_rebuildTargets hcopies hfile).mp hname⟩
    · intro hname
      obtain ⟨file, hfile, rfl⟩ := List.mem_map.mp hname
      rw [List.mem_filter, mem_inNameOrder, Bool.and_eq_true, decide_eq_true_eq] at hfile
      exact (h.mem_rebuildTargets hcopies hfile.1).mpr hfile.2

theorem RepeatableRun.built (h : RepeatableRun s nbChaps files run) {file : ScriptFile}
    (hfile : file ∈ files) (hfree : Free run files file) (hrebuilds : rebuilds file = true) :
    skips s nbChaps false file.name = false := by
  by_contra hskips
  rw [Bool.not_eq_false] at hskips
  exact h.skipped file hfile hfree hskips hrebuilds

theorem repeated_of_repeatableRun (hdistinct : (files.map ScriptFile.name).Nodup)
    (hcopies : Copies run files copies) (h : RepeatableRun s nbChaps files run) :
    Repeated files run (firstTargets s nbChaps files) (rebuildTargets s nbChaps copies) := by
  constructor
  · intro file hfile
    rw [h.mem_rebuildTargets hcopies hfile, mem_firstTargets,
      and_iff_right (List.mem_map_of_mem hfile)]
    constructor
    · exact fun hcopy => ⟨h.built hfile hcopy.1 hcopy.2, hcopy.2⟩
    · rintro ⟨hskips, hrebuilds⟩
      refine ⟨?_, hrebuilds⟩
      by_contra htaken
      rw [h.taken file hfile htaken hrebuilds] at hskips
      cases hskips
  · -- what is rebuilt was built, so it is a part of the first list
    have hfilter : ((inNameOrder files).filter fun file =>
        decide (Free run files file) && rebuilds file) =
          ((inNameOrder files).filter fun file => !skips s nbChaps false file.name).filter
            fun file => decide (Free run files file) && rebuilds file := by
      rw [List.filter_filter]
      refine List.filter_congr fun file hfile => ?_
      rw [mem_inNameOrder] at hfile
      cases hcopy : decide (Free run files file) && rebuilds file with
      | false => rfl
      | true =>
        rw [Bool.and_eq_true, decide_eq_true_eq] at hcopy
        rw [h.built hfile hcopy.1 hcopy.2]
        rfl
    rw [h.rebuildTargets_eq hdistinct hcopies, firstTargets, List.map_map, hfilter]
    exact List.filter_sublist.map _

end Rebuild

/-! ## The edit of the first build -/

/-- `s@/usr/lib/locale@/tools/lib/locale@` changes a part of the line that no `tar -xf ` is
in. -/
theorem unpacks_fixLocale (before after : List Char) :
    unpacks (before ++ "/tools/lib/locale".toList ++ after) =
      unpacks (before ++ "/usr/lib/locale".toList ++ after) := by
  have huntar : untar ≠ [] := by decide
  have hslash : '/' ∉ untar := by decide
  have hmem : ∀ t : List Char, '/' ∈ before ++ '/' :: t := fun t =>
    List.mem_append_right _ List.mem_cons_self
  have htools : contains ("tools".toList) untar = false := by decide
  have husr : contains ("usr".toList) untar = false := by decide
  have hsplit : ∀ dir : List Char, contains dir untar = false →
      unpacks (before ++ '/' :: (dir ++ '/' :: ("lib/locale".toList ++ after))) =
        (contains before untar || contains ("lib/locale".toList ++ after) untar) := by
    intro dir hdir
    rw [unpacks_of_mem (hmem _) hslash (by decide), contains_append_cons huntar hslash,
      contains_append_cons huntar hslash, hdir, Bool.false_or]
  have hnew := hsplit "tools".toList htools
  have hold := hsplit "usr".toList husr
  rw [List.append_assoc, List.append_assoc]
  exact hnew.trans hold.symm

theorem pkgTarball_fixLocales (job : Job) (file : ScriptFile) :
    (pkgTarball (fixLocales job file).text).isEmpty = (pkgTarball file.text).isEmpty := by
  rw [pkgTarball_isEmpty, pkgTarball_isEmpty]
  unfold fixLocales
  split
  · rw [List.any_map]
    congr 2
    funext line
    rw [Function.comp_apply]
    cases hcut : cut "/usr/lib/locale".toList line with
    | none => rfl
    | some p =>
      conv_rhs => rw [eq_of_cut hcut]
      exact unpacks_fixLocale p.1 p.2
  · rfl

section Edited

variable {edit : ScriptFile → ScriptFile} {run : Nat} {files : List ScriptFile}

theorem Origin.of_map (hname : ∀ file, (edit file).name = file.name) {name : List Char}
    {start : ScriptFile} (h : Origin run (files.map edit) name start) :
    ∃ old, Origin run files name old ∧ start = edit old := by
  induction h with
  | @own file hfile hfree =>
    obtain ⟨old, hold, rfl⟩ := List.mem_map.mp hfile
    rw [hname] at hfree ⊢
    refine ⟨old, .own hold fun other hother heq => ?_, rfl⟩
    exact hfree (edit other) (List.mem_map_of_mem hother) (by rw [hname]; exact heq)
  | moved _ hmem ih =>
    obtain ⟨old, hold, heq⟩ := ih
    rw [List.map_map, (funext hname : ScriptFile.name ∘ edit = ScriptFile.name)] at hmem
    exact ⟨old, hold.moved hmem, heq⟩

/-- Copies of edited scripts, as far as the Makefile is concerned. -/
theorem Copies.of_map (hname : ∀ file, (edit file).name = file.name)
    (htext : ∀ file, (pkgTarball (edit file).text).isEmpty = (pkgTarball file.text).isEmpty)
    {copies : List ScriptFile} (h : Copies run (files.map edit) copies) :
    Copies run files copies := by
  have hnames : (files.map edit).map ScriptFile.name = files.map ScriptFile.name := by
    rw [List.map_map, (funext hname : ScriptFile.name ∘ edit = ScriptFile.name)]
  refine ⟨h.distinct, fun name => ?_, fun copy hcopy => ?_⟩
  · rw [h.names, hnames]
    simp [hname]
  · obtain ⟨name, start, hstart, hcopyname, hempty⟩ := h.origin copy hcopy
    obtain ⟨old, hold, rfl⟩ := hstart.of_map hname
    exact ⟨name, old, hold, hcopyname, hempty.trans (htext old)⟩

end Edited

/-! ## All rebuilds -/

/-- In the comparison that begins at `x`, the rebuild `run` is reached and writes `again`. -/
def WritesAgain (job : Job) (nbChaps chap : Nat) (x : Makefile × Chapters) (run : Nat)
    (again : List (List Char)) : Prop :=
  ∃ before after, (List.range' 1 (run - 1)).foldlM (iterationPass job nbChaps chap) (x, []) =
      some before ∧
    systemBuildPass job nbChaps chap run before.2 before.1 = some after ∧
      targets after.1 = targets before.1.1 ++ again

/-- The chapter of the final system is built, compared and rebuilt, and each rebuild repeats
the first build, whatever is in the Makefile and in the other directories before. -/
def Repeats (job : Job) (nbChaps : Nat) (dir : Chapter) : Prop :=
  ∀ (m : Makefile) (c : Chapters), c.lookup (chapterDir (1 + nbChaps)) = some dir.files →
    (∀ run, c.lookup (copyDir (1 + nbChaps) run) = none) →
      ∃ x first, chapterPass job nbChaps (1 + nbChaps) (m, c) = some x ∧
        targets x.1 = targets m ++ first ∧
          (comparePass job nbChaps (1 + nbChaps) x).isSome = true ∧
            ∀ run, 2 ≤ run → run ≤ job.settings.iterations →
              ∃ again, WritesAgain job nbChaps (1 + nbChaps) x run again ∧
                Repeated dir.files run first again

/-- The directories for which it does: the chapter can be compared, and for each rebuild the names
and texts are such that it repeats the first build. -/
structure Repeatable (s : Settings) (nbChaps : Nat) (dir : Chapter) : Prop where
  comparable : Comparable s (dir.files.map ScriptFile.name)
  repeated : ∀ run, 2 ≤ run → run ≤ s.iterations → RepeatableRun s nbChaps dir.files run

section Repeats

variable {job : Job} {nbChaps chap : Nat} {files : List ScriptFile}

/-- The rebuild `run` writes the targets of its copies. -/
theorem targets_systemBuildPass {run : Nat} {prevIt : List Char} {x y : Makefile × Chapters}
    (hpass : systemBuildPass job nbChaps chap run prevIt x = some y)
    (hfiles : x.2.lookup (chapterDir chap) = some files) :
    ∃ copies, copyChapter run files = some copies ∧
      targets y.1 = targets x.1 ++ rebuildTargets job.settings nbChaps copies := by
  obtain ⟨z, hz, rfl⟩ := Option.map_eq_some_iff.mp hpass
  obtain ⟨-, found, copies, hfound, hcopies, rfl⟩ := rebuildPass_eq_some.mp hz
  rw [hfiles, Option.some.injEq] at hfound
  subst hfound
  exact ⟨copies, hcopies, targets_copiesTargets job.settings nbChaps copies chap x.1⟩

theorem WritesAgain.exists_copies {x : Makefile × Chapters} (h : Copied files chap 0 x.2)
    {run : Nat} {again : List (List Char)} (hwrites : WritesAgain job nbChaps chap x run again) :
    ∃ copies, copyChapter run files = some copies ∧
      again = rebuildTargets job.settings nbChaps copies := by
  obtain ⟨before, after, hbefore, hafter, htargets⟩ := hwrites
  have hcopied := (Copied.iterations job nbChaps (x := (x, [])) h).2 before hbefore
  obtain ⟨copies, hcopies, hbuilt⟩ := targets_systemBuildPass hafter hcopied.scripts
  rw [htargets, List.append_cancel_left_eq] at hbuilt
  exact ⟨copies, hcopies, hbuilt⟩

/-- Each rebuild is reached, if the chapter can be copied. -/
theorem exists_writesAgain {x : Makefile × Chapters} (h : Copied files chap 0 x.2) {run : Nat}
    (htwo : 2 ≤ run)
    (hcopies : ∀ i, 2 ≤ i → i ≤ run → (copyChapter i files).isSome = true) :
    ∃ again, WritesAgain job nbChaps chap x run again := by
  obtain ⟨k, rfl⟩ := Nat.exists_eq_add_of_le' htwo
  obtain ⟨hends, hcopied⟩ := Copied.iterations job nbChaps (n := k + 1) (x := (x, [])) h
  obtain ⟨before, hbefore⟩ := Option.isSome_iff_exists.mp
    (hends.mpr fun i hi _ hle => hcopies i hi (by omega))
  have hdirs := hcopied before hbefore
  rw [Nat.zero_add] at hdirs
  have hrebuild := (hdirs.rebuildPass job nbChaps).1.mpr (hcopies (k + 2) htwo (Nat.le_refl _))
  have hsystem : (systemBuildPass job nbChaps chap (k + 2) before.2 before.1).isSome = true := by
    rw [systemBuildPass, Option.isSome_map]
    exact hrebuild
  obtain ⟨after, hafter⟩ := Option.isSome_iff_exists.mp hsystem
  obtain ⟨copies, -, hbuilt⟩ := targets_systemBuildPass hafter hdirs.scripts
  exact ⟨_, before, after, hbefore, hafter, hbuilt⟩

variable (job nbChaps) in
/-- The first build of the chapter, and the state that its comparison begins with. -/
theorem chapterPass_spec (m : Makefile) {c : Chapters} (hne : files ≠ [])
    (hfiles : c.lookup (chapterDir chap) = some files)
    (hfree : ∀ run, c.lookup (copyDir chap run) = none) :
    ∃ x, chapterPass job nbChaps chap (m, c) = some x ∧
      targets x.1 = targets m ++ firstTargets job.settings nbChaps files ∧
        Copied (files.map (fixLocales job)) chap 0 x.2 := by
  refine ⟨_, chapterPass_eq_some.mpr ⟨files, hne, hfiles, rfl⟩, ?_, ?_, fun run => ?_⟩
  · rw [targets_firstBuild, firstTargets_eq, firstTargets_eq, scriptNames, names_fixLocales,
      scriptNames]
  · rw [lookup_editDir, if_pos rfl, hfiles, Option.map_some]
  · rw [lookup_editDir, if_neg (chapterDir_ne_copyDir chap chap run).symm, hfree,
      if_neg (by omega)]

/-- The copies of the edited scripts. -/
theorem copies_of_fixLocales (hdistinct : (files.map ScriptFile.name).Nodup) {run : Nat}
    {copies : List ScriptFile}
    (h : copyChapter run (files.map (fixLocales job)) = some copies) : Copies run files copies :=
  (copies_spec ((names_fixLocales job files).symm ▸ hdistinct) h).of_map (name_fixLocales job)
    (pkgTarball_fixLocales job)

end Repeats

/-- What has to be so for a directory that is repeated. -/
theorem repeatable_of_repeats {job : Job} {nbChaps : Nat} {dir : Chapter}
    (h : Repeats job nbChaps dir) : Repeatable job.settings nbChaps dir := by
  have hdistinct := dir.distinct
  have hfiles : ([(chapterDir (1 + nbChaps), dir.files)] : Chapters).lookup
      (chapterDir (1 + nbChaps)) = some dir.files := by simp
  have hfree : ∀ run, ([(chapterDir (1 + nbChaps), dir.files)] : Chapters).lookup
      (copyDir (1 + nbChaps) run) = none := by
    intro run
    rw [List.lookup_cons, beq_eq_false_iff_ne.mpr (chapterDir_ne_copyDir _ _ run).symm]
    rfl
  obtain ⟨x, first, hx, hfirst, hends, hruns⟩ := h emptyMakefile _ hfiles hfree
  obtain ⟨files, hne, hfound, -⟩ := chapterPass_eq_some.mp hx
  rw [hfiles, Option.some.injEq] at hfound
  subst hfound
  obtain ⟨x', hx', htargets, hcopied⟩ := chapterPass_spec job nbChaps _ hne hfiles hfree
  rw [hx, Option.some.injEq] at hx'
  subst hx'
  rw [htargets, List.append_cancel_left_eq] at hfirst
  subst hfirst
  have hedited := names_fixLocales job dir.files
  constructor
  · rw [← hedited]
    exact (comparePass_isSome_iff job nbChaps (hedited.symm ▸ hdistinct) hcopied).mp hends
  · intro run htwo hle
    obtain ⟨again, hwrites, hrepeated⟩ := hruns run htwo hle
    obtain ⟨copies, hcopies, rfl⟩ := hwrites.exists_copies hcopied
    exact repeatableRun_of_repeated hdistinct (copies_of_fixLocales hdistinct hcopies) hrepeated

/-- **Which rebuilds repeat the first build.** Each rebuild is reached, and writes the targets of
its copies, so that the question is one about a directory and its copies. -/
theorem repeats_iff (job : Job) (nbChaps : Nat) (dir : Chapter) :
    Repeats job nbChaps dir ↔ Repeatable job.settings nbChaps dir := by
  refine ⟨repeatable_of_repeats, fun h m c hfiles hfree => ?_⟩
  have hdistinct := dir.distinct
  have hne : dir.files ≠ [] := by
    obtain ⟨name, hname, -⟩ := h.comparable.revised
    rintro hnil
    rw [hnil] at hname
    cases hname
  obtain ⟨x, hx, htargets, hcopied⟩ := chapterPass_spec job nbChaps m hne hfiles hfree
  have hedited := names_fixLocales job dir.files
  have hdistinct' : ((dir.files.map (fixLocales job)).map ScriptFile.name).Nodup :=
    hedited.symm ▸ hdistinct
  have hcomparable : Comparable job.settings
      ((dir.files.map (fixLocales job)).map ScriptFile.name) := hedited.symm ▸ h.comparable
  refine ⟨x, _, hx, htargets, (comparePass_isSome_iff job nbChaps hdistinct' hcopied).mpr
    hcomparable, fun run htwo hle => ?_⟩
  obtain ⟨again, hwrites⟩ := exists_writesAgain hcopied htwo fun i hi hile =>
    (copyChapter_isSome hdistinct').mpr (hcomparable.copied i hi (Nat.le_trans hile hle))
  obtain ⟨copies, hcopies, rfl⟩ := hwrites.exists_copies hcopied
  exact ⟨_, hwrites, repeated_of_repeatableRun hdistinct (copies_of_fixLocales hdistinct hcopies)
    (h.repeated run htwo hle)⟩

/-- A final system that is stripped at its end. -/
def strippedSystem : Chapter where
  files :=
    [⟨"808-bzip2".toList, ["tar -xf bzip2-1.0.8.tar.gz".toList]⟩,
      ⟨"846-openssl".toList, ["tar -xf openssl-1.1.1g.tar.gz".toList]⟩,
      ⟨"877-strippingagain".toList, ["find /usr/lib -type f".toList]⟩,
      ⟨"878-revisedchroot".toList, ["rm -f /usr/lib/libz.a".toList]⟩]
  distinct := by decide

/-- The build is compared with one rebuild, and nothing is stripped. -/
def unstripped : Job := ⟨⟨false, true, false, false, true, 2⟩, 0, false, []⟩

/-- Without the wish to strip, the rebuild strips. -/
theorem strippingagain_not_repeated :
    (chapterStep unstripped 7 (emptyMakefile, [(chapterDir 8, strippedSystem.files)]) 8).isSome =
        true ∧
      ¬ Repeats unstripped 7 strippedSystem := by
  refine ⟨by decide +kernel, fun h => ?_⟩
  have hskipped := ((repeatable_of_repeats h).repeated 2 (by decide) (by decide)).skipped
    ⟨"877-strippingagain".toList, ["find /usr/lib -type f".toList]⟩ (by simp [strippedSystem])
  exact hskipped (by decide) (by decide) (by decide)

end Jhalfs.Lfs
