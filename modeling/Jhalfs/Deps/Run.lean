import Jhalfs.Deps.Returns

/-!
# Runs of the third pass

The invariant holds along every run (`Inv.of_reaches`), by the lemmas of the
moves and induction over the steps. With the strict clause it holds when every
step of the run keeps first (`keepsFirst`); without it no condition is needed
(`inv_of_reaches`).

From it, for every run:

- the `exit 1` is never reached (`Inv.ne_exit`): a file that a frame meets has
  its link;
- the pass can only stop with the value 0 and no caller left (`Inv.of_halted`),
  as a back-up with nobody to meet it does not occur;
- a back-up comes to a caller on its cycle whose edge has the value, through
  callers whose edges do not (`BackingUp.absorbed`). The proof goes along the
  list of the callers: each of them matches, or leaves a back-up that some caller
  further out matches.
-/

namespace Jhalfs

open Machine

variable {G : DepFiles} {strict : Prop} {c c' : Config}

theorem Inv.step (h : Inv G strict c) (hguard : strict → keepsFirst c = true)
    (hstep : generateDependencyTree c = some c') : Inv G strict c' := by
  cases move_of_step hstep with
  | finish fr hctl hend => exact h.finish hguard hctl hend
  | quit fr e other hctl he hother hnil =>
    exact absurd hnil (h.dir.linked.nonempty _ other hother)
  | prune fr e other hctl he hother hnil hcirc hp => exact h.prune hctl he
  | backUp fr e other hctl he hother hnil hcirc hp =>
    exact h.backUp hctl hother hcirc (Nat.ne_zero_of_lt hp)
  | skip fr e other hctl he hother hnil hcirc => exact h.skip hctl he hother hcirc
  | call fr e hctl he hnew hdep => exact h.call hctl he hnew hdep
  | leaf fr e hctl he hnew hdep => exact h.leaf hctl he hnew hdep
  | resume fr e cs hctl hcs => exact h.resume hctl hcs
  | exchange fr e cs p2 hctl h0 hp hcs => exact h.exchange hctl h0 hcs
  | popUp fr e cs p2 hctl h0 hp hcs => exact h.popUp hctl h0 hp hcs

theorem start_tree {n : Id} {t : TreeFile} (h : G.start.dir.tree n = some t) :
    n = rootId ∧ t = G.rootTree := by
  have h' : (if n = rootId then some G.rootTree else none) = some t := h
  by_cases hn : n = rootId
  · rw [if_pos hn] at h'
    exact ⟨hn, (Option.some.inj h').symm⟩
  · rw [if_neg hn] at h'
    cases h'

theorem start_root (G : DepFiles) : G.start.dir.tree rootId = some G.rootTree := by
  show (if rootId = rootId then some G.rootTree else none) = _
  rw [if_pos rfl]

theorem Inv.start (G : DepFiles) (strict : Prop) : Inv G strict G.start where
  dir :=
    { names := rfl
      dep := fun n hn e he => ⟨G.before n hn e he, G.target n hn e he⟩
      entries := fun n t hn e he => by
        obtain ⟨-, rfl⟩ := start_tree hn
        exact ⟨G.before _ List.mem_cons_self e he, G.target _ List.mem_cons_self e he⟩
      linked :=
        { mem := fun n f hn => by
            rw [(start_tree hn).1]
            exact List.mem_cons_self
          nonempty := fun n f hn => by
            rw [(start_tree hn).2]
            exact List.cons_ne_nil _ _
          inj := fun m n f g hm hn _ => by rw [(start_tree hm).1, (start_tree hn).1]
          parent := fun n f hn hroot => absurd (start_tree hn).1 hroot }
      root := linkOf_of_tree (start_root G) }
  waiting := trivial
  current := by
    refine ⟨⟨rfl, rfl, rfl⟩, G.rootTree, [], ?_⟩
    exact
      { tree := start_root G
        link := rfl
        priolink := rfl
        read := List.nil_prefix
        removed := rfl
        count := rfl
        children := fun n k => by
          refine iff_of_false (fun hn => ?_) (by simp)
          obtain ⟨f, hf, hfl⟩ := linkOf_eq_some.mp hn
          rw [(start_tree hf).2] at hfl
          exact absurd (congrArg List.length hfl) (by simp [DepFiles.rootTree, Frame.open])
        deps := fun x hx => Or.inl (mem_idsOf.mpr ⟨x, hx, rfl⟩) }
  settled u t hu hsettled := by
    obtain ⟨-, rfl⟩ := start_tree hu
    rcases (settled_run rfl).mp hsettled with hearly | ⟨-, hne⟩
    · exact absurd hearly (not_earlierBranch_nil _)
    · exact absurd rfl hne

/-- **The invariant of the run**: it holds of the first state, and every step keeps
it. -/
theorem Inv.of_reaches (hguard : strict → ∀ s, G.Reaches s → keepsFirst s = true)
    (h : G.Reaches c) : Inv G strict c := by
  refine Steps.invariant_guarded (P := Inv G strict) (G := fun s => strict → keepsFirst s = true)
    (fun s t hs hg hst => hs.step hg hst) h (Inv.start G strict) fun s hs hstrict => ?_
  exact hguard hstrict s hs

/-- Without the strict clause no condition is needed. -/
theorem inv_of_reaches (h : G.Reaches c) : Inv G False c := Inv.of_reaches (fun hf => hf.elim) h

/-! ## How a run can stop -/

theorem Inv.ne_exit (h : Inv G strict c) : c.ctl ≠ .exit := by
  intro hctl
  have := h.current
  rw [hctl] at this
  exact this

/-- The pass stops only with the value 0 and no caller left. A frame that runs has a
next step, and so has a return value that some caller is waiting for. -/
theorem Inv.of_halted (h : Inv G strict c) (hhalt : Halted generateDependencyTree c) :
    c.ctl = .ret 0 ∧ c.callers = [] := by
  unfold Halted generateDependencyTree at hhalt
  cases hctl : c.ctl with
  | exit => exact absurd hctl h.ne_exit
  | run fr =>
    rw [hctl] at hhalt
    dsimp only at hhalt
    split at hhalt <;> cases hhalt
  | ret p2 =>
    rw [hctl] at hhalt
    dsimp only at hhalt
    cases hcs : c.callers with
    | cons x cs =>
      obtain ⟨fr, e⟩ := x
      rw [hcs] at hhalt
      dsimp only at hhalt
      split at hhalt
      · cases hhalt
      · split at hhalt <;> cases hhalt
    | nil =>
      by_cases h0 : p2 = 0
      · rw [h0]
        exact ⟨rfl, rfl⟩
      · obtain ⟨m, hm⟩ := h.backingUp hctl h0
        have hstart := hm.start
        have hinner := hm.inner
        rw [hcs, List.length_nil] at hinner
        omega

/-! ## Who meets a back-up -/

/-- Backing up, a run comes to a caller inside the cycle whose edge has the
value, through callers whose edges do not. -/
theorem BackingUp.absorbed {p2 m : Nat} (h0 : p2 ≠ 0) {cs : List (Frame × Entry)} :
    ∀ {c : Config}, c.callers = cs → c.ctl = .ret p2 → Waits c.dir cs →
      BackingUp c p2 m →
      ∃ inner fr e outer, cs = inner ++ (fr, e) :: outer ∧ m ≤ fr.rootlink.length ∧
        e.prio.val = p2 ∧ (∀ x ∈ inner, x.2.prio.val ≠ p2 ∧ m ≤ x.1.rootlink.length) ∧
        Steps generateDependencyTree c { c with callers := (fr, e) :: outer } := by
  induction cs with
  | nil =>
    intro c hcs _ _ hb
    have hstart := hb.start
    have hinner := hb.inner
    rw [hcs, List.length_nil] at hinner
    omega
  | cons x cs ih =>
    intro c hcs hctl hw hb
    obtain ⟨fr, e⟩ := x
    have hrlen : fr.rootlink.length = cs.length + 1 := by
      rw [hw.1.rootlink, length_calleeLink hw.2.2]
    have hm : m ≤ fr.rootlink.length := by
      have := hb.inner
      rw [hcs, List.length_cons] at this
      omega
    by_cases hp : p2 = e.prio.val
    · refine ⟨[], fr, e, cs, rfl, hm, hp.symm, fun x hx => absurd hx List.not_mem_nil, ?_⟩
      rw [← hcs]
      exact Steps.refl c
    · have hstep : generateDependencyTree c = some { c with callers := cs } := by
        unfold generateDependencyTree
        rw [hctl, hcs]
        dsimp only
        rw [if_neg h0, if_neg hp]
      obtain ⟨inner, fr', e', outer, hsplit, hm', hp', hinner, hsteps⟩ :=
        ih (c := { c with callers := cs }) rfl hctl hw.2.2 (hb.popUp hcs hw hp)
      refine ⟨(fr, e) :: inner, fr', e', outer, by rw [hsplit]; rfl, hm', hp', ?_,
        hsteps.head hstep⟩
      intro x hx
      rcases List.mem_cons.mp hx with rfl | hx
      · exact ⟨fun heq => hp heq.symm, hm⟩
      · exact hinner x hx

end Jhalfs
