import Jhalfs.Scripts.Install

/-!
# What is opened and closed

The calls of `process-install` open and close a shell of root, an installation, a test
suite and a documentation. A reader of the calls keeps what is open (`Open`) and refuses a
call that does not fit (`Open.step`).

- `Open.read`: the reader on a sequence of calls, and `accepts`: it begins and ends with
  everything closed.
- `opened`: what is open by the flags of `process-install`. They say what is open, except that a
  documentation is open only when no shell of root is.
- `Flags`: the combinations that occur. What is installed is so by root, and while the test suite
  is open nothing else is but the shell of root.
- `testThenRoot`: an instruction for root that is no test follows directly on a test for root.

A test suite may be open around a shell of root, after a test for root. If an instruction for
root that is no test follows, the lines that close the test suite are written into the shell of
root: the branches for root call `end-test` without `end-root` before it.

**Main result**: `accepts_processInstall_iff`. This is the only way in which the calls can be
refused, and only with statistics for a user who builds with sudo. The proof reads the calls of
one instruction after the other (`read_instruction`), by induction on the instructions for all
flags that occur (`read_processInstall`).
-/

namespace Jhalfs.Scripts

/-- What is open. More than one can be, and they have to be closed in the right order. -/
structure Open where
  root : Bool
  install : Bool
  test : Bool
  doc : Bool
  deriving DecidableEq

def closed : Open := ⟨false, false, false, false⟩

/-- Read one call. The first argument tells whether the calls for tests, documentation and
end of make write a line, and root is a here-document. -/
def Open.step (visible : Bool) (o : Open) : Call → Option Open
  | .beginRoot => if o.root then none else some { o with root := true }
  | .endRoot => if o.root && !o.install then some { o with root := false } else none
  | .beginInstall => if o.root && !o.install then some { o with install := true } else none
  | .endInstall => if o.root && o.install then some { o with install := false } else none
  | .beginTest => if o.test || visible && o.root then none else some { o with test := true }
  | .endTest => if !o.test || visible && o.root then none else some { o with test := false }
  | .beginDoc => if o.doc || visible && o.root then none else some { o with doc := true }
  | .endDoc => if !o.doc || visible && o.root then none else some { o with doc := false }
  | .endMake => if visible && o.root then none else some o
  | .stats _ => if o.root then none else some o
  | .root i => if i.root == o.root then some o else none
  | .install i => if i.root == o.root then some o else none
  | .user i => if i.root == o.root then some o else none
  | .test i => if i.root == o.root then some o else none
  | .comment i => if i.root == o.root then some o else none
  | .doc i => if i.root == o.root then some o else none

/-- Read the calls. -/
def Open.read (visible : Bool) : Open → List Call → Option Open
  | o, [] => some o
  | o, c :: cs =>
    match o.step visible c with
    | some o' => o'.read visible cs
    | none => none

/-- Everything that is opened is closed, in the right order and at the right place. -/
def accepts (visible : Bool) (cs : List Call) : Prop := closed.read visible cs = some closed

/-! ## Reading the calls of `process-install` -/

/-- What is open by the flags. -/
def opened (root install test doc : Bool) : Open := ⟨root, install, test, doc && !root⟩

theorem read_cons {visible : Bool} {o o' : Open} {c : Call} (h : o.step visible c = some o')
    (cs : List Call) : o.read visible (c :: cs) = o'.read visible cs := by
  rw [Open.read, h]

/-- The calls that close what was installed, the shell of root and the documentation. -/
theorem read_close (visible : Bool) {root install : Bool} (test doc : Bool)
    (h : install = true → root = true) (cs : List Call) :
    (opened root install test doc).read visible
        (when install .endInstall ++ (when root .endRoot ++ (when (doc && !root) .endDoc ++ cs))) =
      (opened false false test false).read visible cs := by
  cases root with
  | false =>
    cases install with
    | true => exact absurd (h rfl) (by decide)
    | false =>
      cases doc with
      | false => rfl
      | true => cases test <;> cases visible <;> rfl
  | true => cases install <;> cases doc <;> cases test <;> rfl

theorem read_endTest (visible test : Bool) (cs : List Call) :
    (opened false false test false).read visible (when test .endTest ++ cs) =
      closed.read visible cs := by
  cases test <;> cases visible <;> rfl

theorem read_endInstall (visible : Bool) {root install : Bool} (test doc : Bool)
    (h : install = true → root = true) (cs : List Call) :
    (opened root install test doc).read visible (when install .endInstall ++ cs) =
      (opened root false test doc).read visible cs := by
  cases install with
  | true => rw [h rfl]; rfl
  | false => rfl

/-- Before an instruction for root, the test suite is closed inside the shell of root. -/
theorem read_endTest_root (visible root install test doc : Bool) (cs : List Call) :
    (opened root install test doc).read visible
        (when test .endTest ++ (when (doc && !root) .endDoc ++ cs)) =
      if visible && (test && root) then none
      else (Open.mk root install false false).read visible cs := by
  cases visible <;> cases root <;> cases test <;> cases doc <;> rfl

theorem read_beginRoot (visible root install : Bool) (cs : List Call) :
    (Open.mk root install false false).read visible (when (!root) .beginRoot ++ cs) =
      (Open.mk true install false false).read visible cs := by
  cases root <;> rfl

/-- The size of an installation is measured outside the shell of root. -/
theorem read_stats (visible wantStats root install : Bool) (rest : List Instruction)
    (cs : List Call) :
    (Open.mk root install false false).read visible
        ((if wantStats && !install then
            when root .endRoot ++ .stats rest :: when root .beginRoot
          else []) ++ cs) =
      (Open.mk root install false false).read visible cs := by
  cases wantStats with
  | false => rfl
  | true =>
    cases install with
    | true => rfl
    | false => cases root <;> rfl

theorem read_beginInstall (visible install : Bool) (cs : List Call) :
    (Open.mk true install false false).read visible (when (!install) .beginInstall ++ cs) =
      (Open.mk true true false false).read visible cs := by
  cases install <;> rfl

theorem read_beginDoc (visible : Bool) {root install : Bool} (test doc : Bool)
    (h : install = true → root = true) (cs : List Call) :
    (opened root install test doc).read visible
        (when install .endInstall ++ (when root .endRoot ++ (when test .endTest ++
          ((if !doc || root then when (!test && !root) .endMake ++ [.beginDoc] else []) ++ cs)))) =
      (opened false false false true).read visible cs := by
  cases root with
  | false =>
    cases install with
    | true => exact absurd (h rfl) (by decide)
    | false => cases visible <;> cases test <;> cases doc <;> rfl
  | true => cases visible <;> cases install <;> cases test <;> cases doc <;> rfl

/-- An instruction for root that is no test follows directly on a test for root. -/
def testThenRoot (afterTest : Bool) : List Instruction → Bool
  | [] => false
  | i :: is =>
    (afterTest && i.root && i.remap != some .test) ||
      testThenRoot (i.root && i.remap == some .test) is

theorem read_instruction (visible : Bool) (o : Open) (i : Instruction) (cs : List Call)
    (h : i.root = o.root) {c : Call}
    (hc : c = .root i ∨ c = .install i ∨ c = .user i ∨ c = .test i ∨ c = .comment i ∨ c = .doc i) :
    o.read visible (c :: cs) = o.read visible cs := by
  refine read_cons ?_ cs
  rcases hc with rfl | rfl | rfl | rfl | rfl | rfl <;>
  · show (if i.root == o.root then some o else none) = some o
    rw [h, beq_self_eq_true, if_pos rfl]

/-- The flags that occur: what is installed is so by root, and while the test suite is
open nothing else is but the shell of root. -/
structure Flags (rootSeen installSeen testSeen docSeen : Bool) : Prop where
  install : installSeen = true → rootSeen = true
  test : testSeen = true → installSeen = false ∧ docSeen = false

theorem ite_ite_none (v a b : Bool) (o : Option Open) :
    (if v && a then none else if v && b then none else o) = if v && (a || b) then none else o := by
  cases v <;> cases a <;> rfl

/-- **The calls are read to the end**, unless a line is written into the shell of root. By
induction on the instructions, for all flags that occur. -/
theorem read_processInstall (visible wantStats : Bool) {root install test doc : Bool}
    (h : Flags root install test doc) (is : List Instruction) :
    (opened root install test doc).read visible
        (processInstall wantStats root install test doc is) =
      if visible && testThenRoot (test && root) is then none else some closed := by
  induction is generalizing root install test doc with
  | nil =>
    have hend := read_endTest visible test []
    rw [List.append_nil] at hend
    rw [processInstall, List.append_assoc, List.append_assoc, read_close _ _ _ h.install, hend,
      testThenRoot, Bool.and_false]
    rfl
  | cons i is ih =>
    rw [processInstall, testThenRoot]
    split
    · rename_i hi
      rw [Bool.and_eq_true, beq_iff_eq] at hi
      obtain ⟨hroot, hremap⟩ := hi
      have hbegin : ∀ cs, (opened false false test false).read visible
          (when (!test) .beginTest ++ .beginRoot :: cs) =
          (opened true false true false).read visible cs := by
        intro cs
        cases test <;> cases visible <;> rfl
      -- a test for root opens the shell of root inside the test suite
      rw [List.append_assoc, List.append_assoc, List.append_assoc, read_close _ _ _ h.install,
        hbegin, read_instruction _ _ i _ hroot (by simp), hremap, hroot,
        ih ⟨by simp, by simp⟩]
      simp
    · rename_i htest
      have hafter : (i.root && i.remap == some .test) = false := Bool.eq_false_iff.mpr htest
      split
      · rename_i hi
        rw [Bool.and_eq_true, beq_iff_eq] at hi
        obtain ⟨hroot, hdoc⟩ := hi
        have hremap : (i.remap != some .test) = true := by
          rw [hdoc]
          rfl
        -- documentation for root stands among what is installed, and opens no part of its own
        have hopened : Open.mk true true false false = opened true true false true := rfl
        rw [List.append_assoc, List.append_assoc, List.append_assoc, read_endTest_root,
          read_beginRoot, read_beginInstall, read_instruction _ _ i _ hroot (by simp), hopened,
          ih ⟨by simp, by simp⟩, ite_ite_none, hafter, hremap, hroot]
        simp
      · rename_i hdoc
        split
        · rename_i hroot
          have hremap : (i.remap != some .test) = true := by
            rw [hroot, Bool.true_and] at htest
            exact bne_iff_ne.mpr fun h => htest (by rw [h]; rfl)
          split
          -- configuration ends what is installed and stays in the shell of root
          · have hopened : Open.mk true false false false = opened true false false false := rfl
            rw [List.append_assoc, List.append_assoc, List.append_assoc,
              read_endInstall _ _ _ h.install, read_endTest_root, read_beginRoot,
              read_instruction _ _ i _ hroot (by simp), hopened, ih ⟨by simp, by simp⟩,
              ite_ite_none, hafter, hremap, hroot]
            simp
          -- the size is taken before an installation: an error in an open shell of root
          · have hopened : Open.mk true true false false = opened true true false false := rfl
            rw [List.append_assoc, List.append_assoc, List.append_assoc, List.append_assoc,
              read_endTest_root, read_stats, read_beginRoot, read_beginInstall,
              read_instruction _ _ i _ hroot (by simp), hopened, ih ⟨by simp, by simp⟩,
              ite_ite_none, hafter, hremap, hroot]
            simp
        · rename_i hroot
          have huser : i.root = false := Bool.eq_false_iff.mpr hroot
          -- an instruction of the user closes the shell of root first
          rw [huser, Bool.and_false, Bool.false_and, Bool.false_or, Bool.false_and]
          split
          · have hbegin : ∀ cs, (opened false false test false).read visible
                ((if !test then when (!doc) .endMake ++ [.beginTest] else []) ++ cs) =
                (opened false false true false).read visible cs := by
              intro cs
              cases test <;> cases doc <;> cases visible <;> rfl
            rw [List.append_assoc, List.append_assoc, List.append_assoc, read_close _ _ _ h.install,
              hbegin, read_instruction _ _ i _ huser (by simp), ih ⟨by simp, by simp⟩]
            rfl
          · split
            · rw [List.append_assoc, List.append_assoc, List.append_assoc,
                read_beginDoc _ _ _ h.install, read_instruction _ _ i _ huser (by simp),
                ih ⟨by simp, by simp⟩]
              rfl
            · have hopened : closed = opened false false false false := rfl
              rw [List.append_assoc, List.append_assoc, List.append_assoc,
                read_close _ _ _ h.install, read_endTest,
                read_instruction _ _ i _ huser (by simp), hopened, ih ⟨by simp, by simp⟩]
              rfl

/-- **A page is well bracketed** unless statistics are written for a user who builds with
sudo, and an instruction for root follows on a test for root. -/
theorem accepts_processInstall_iff (P : Params) (wantStats : Bool) (is : List Instruction) :
    accepts (wantStats && P.withSudo) (processInstall wantStats false false false false is) ↔
      ¬ (wantStats = true ∧ P.withSudo = true ∧ testThenRoot false is = true) := by
  have hread : closed.read (wantStats && P.withSudo)
      (processInstall wantStats false false false false is) =
      if (wantStats && P.withSudo) && testThenRoot false is then none else some closed :=
    read_processInstall _ wantStats (show Flags false false false false from ⟨by simp, by simp⟩) is
  rw [accepts, hread]
  cases wantStats <;> cases P.withSudo <;> cases testThenRoot false is <;> simp

/-- A test for root, and the installation. -/
def testAndInstall : List Instruction :=
  [⟨false, true, some .test, "make check".toList⟩, ⟨false, true, none, "make install".toList⟩]

/-- The size after the test is written into the shell of root that the test has opened. -/
theorem not_accepts_testAndInstall :
    processInstall true false false false false testAndInstall =
      [.beginTest, .beginRoot, .test ⟨false, true, some .test, "make check".toList⟩, .endTest,
        .endRoot, .stats [⟨false, true, none, "make install".toList⟩], .beginRoot,
        .beginInstall, .install ⟨false, true, none, "make install".toList⟩, .endInstall,
        .endRoot] ∧
    ¬ accepts true (processInstall true false false false false testAndInstall) := by
  constructor
  · rfl
  · unfold accepts
    decide

end Jhalfs.Scripts
