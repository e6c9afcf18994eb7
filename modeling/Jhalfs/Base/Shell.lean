import Mathlib.Data.List.Nodup

/-!
# Lists of commands and a child shell

A shell reads a list of commands, some of which are followed by `&&`. When a command
fails, the rest of its `&&` list is skipped; under `set -e` the shell stops if nothing
of the list is left, that is, if the command was not a condition.

A part of a script can be given to a child shell, which does not inherit `set -e` and
whose exit status is that of the last command it has run. This file says when a script
with such parts runs the same commands, and stops in the same cases, as the script
without child shells.

- `run` and `runScript` execute the commands: they return which ones were executed, and
  how the shell has ended.
- `Twice` is a command of both scripts, with the `&&` that follows it in each of them, and
  `Part` a part that is plain in both or given to a child shell in one.
- `sheltered`: in each part, a command that fails is the last one, or a condition that is
  followed by the same `&&` list in both shells and later by a command that succeeds.
- `run_nested_spec`: **one part**. If it is sheltered the two shells agree; if not they
  differ, in the commands or in the end (`Agree`, `Differ`).
- `runScript_nested_iff`: **whole scripts** run the same commands and stop in the same
  cases exactly if the parts that are reached are sheltered. Shells that differ in one part
  do not come together again, as no command occurs twice (`Differ.follow_ne`).
-/

namespace Jhalfs.Shell

universe u

variable {α : Type u}

/-- A command, whether it succeeds, and whether `&&` follows. -/
structure Step (α : Type u) where
  cmd : α
  ok : Bool
  chained : Bool

/-- Run the commands, from a point where the next one is skipped or not and with the
last exit status: the commands that were executed, and the exit status, or `none` after
`set -e` has stopped the shell. -/
def run (errexit : Bool) : Bool → Bool → List (Step α) → List α × Option Bool
  | _, status, [] => ([], some status)
  | true, status, s :: ss => run errexit s.chained status ss
  | false, _, s :: ss =>
    if s.ok then
      let r := run errexit false true ss
      (s.cmd :: r.1, r.2)
    else if s.chained then
      let r := run errexit true false ss
      (s.cmd :: r.1, r.2)
    else if errexit then ([s.cmd], none)
    else
      let r := run errexit false false ss
      (s.cmd :: r.1, r.2)

/-- A command of a script, or a part that is given to a child shell. The child is called without
`-e`, so its last command alone decides whether it succeeds. -/
inductive Block (α : Type u) where
  | cmd (s : Step α)
  | sub (body : List (Step α))

/-- Run a script under `set -e`: the commands executed, and whether it was stopped. A
child shell that exits with failure stops it. -/
def runScript : Bool → List (Block α) → List α × Bool
  | _, [] => ([], false)
  | true, .cmd s :: bs => runScript s.chained bs
  | true, .sub _ :: bs => runScript false bs
  | false, .cmd s :: bs =>
    if s.ok then
      let r := runScript false bs
      (s.cmd :: r.1, r.2)
    else if s.chained then
      let r := runScript true bs
      (s.cmd :: r.1, r.2)
    else ([s.cmd], true)
  | false, .sub body :: bs =>
    let r := run false false true body
    if r.2 = some true then
      let k := runScript false bs
      (r.1 ++ k.1, k.2)
    else (r.1, true)

/-! ## What is executed -/

theorem mem_of_mem_run {errexit skip status : Bool} {ss : List (Step α)} {a : α}
    (h : a ∈ (run errexit skip status ss).1) : a ∈ ss.map Step.cmd := by
  induction ss generalizing skip status with
  | nil => cases skip <;> exact absurd h List.not_mem_nil
  | cons s ss ih =>
    rw [List.map_cons, List.mem_cons]
    cases skip with
    | true => exact Or.inr (ih h)
    | false =>
      rw [run] at h
      split at h
      · exact (List.mem_cons.mp h).imp_right ih
      · split at h
        · exact (List.mem_cons.mp h).imp_right ih
        · split at h
          · exact Or.inl (List.mem_singleton.mp h)
          · exact (List.mem_cons.mp h).imp_right ih

/-- A command that is not skipped is executed. -/
theorem run_cons (errexit status : Bool) (s : Step α) (ss : List (Step α)) :
    ∃ t, (run errexit false status (s :: ss)).1 = s.cmd :: t := by
  rw [run]
  split
  · exact ⟨_, rfl⟩
  · split
    · exact ⟨_, rfl⟩
    · split
      · exact ⟨_, rfl⟩
      · exact ⟨_, rfl⟩

/-! ## Closed lists -/

/-- No `&&` follows the last command. -/
def Closed (ss : List (Step α)) : Prop := ∀ s, ss.getLast? = some s → s.chained = false

theorem Closed.tail {s : Step α} {ss : List (Step α)} (h : Closed (s :: ss)) : Closed ss := by
  intro x hx
  cases ss with
  | nil => cases hx
  | cons y ss => exact h x (by rw [List.getLast?_cons_cons]; exact hx)

theorem Closed.ne_nil {s : Step α} {ss : List (Step α)} (h : Closed (s :: ss))
    (hchained : s.chained = true) : ss ≠ [] := by
  rintro rfl
  exact Bool.false_ne_true ((h s rfl).symm.trans hchained)

/-- Go on with the rest of the script after a part, unless the part has stopped it. -/
def follow (r : List α × Option Bool) (k : List α × Bool) : List α × Bool :=
  match r.2 with
  | none => (r.1, true)
  | some _ => (r.1 ++ k.1, k.2)

/-- Commands at the front of a script. -/
theorem runScript_cmds {ss : List (Step α)} (hclosed : Closed ss) (skip status : Bool)
    (hskip : skip = true → ss ≠ []) (bs : List (Block α)) :
    runScript skip (ss.map .cmd ++ bs) =
      follow (run true skip status ss) (runScript false bs) := by
  induction ss generalizing skip status with
  | nil =>
    cases skip with
    | true => exact absurd rfl (hskip rfl)
    | false => rfl
  | cons s ss ih =>
    cases skip with
    | true =>
      rw [run]
      exact ih hclosed.tail s.chained status (fun h => hclosed.ne_nil h)
    | false =>
      rw [List.map_cons, List.cons_append, runScript, run]
      by_cases hok : s.ok = true
      · rw [if_pos hok, if_pos hok, ih hclosed.tail false true (fun h => by cases h)]
        unfold follow
        cases (run true false true ss).2 <;> rfl
      · rw [if_neg hok, if_neg hok]
        by_cases hchained : s.chained = true
        · rw [if_pos hchained, if_pos hchained,
            ih hclosed.tail true false (fun _ => hclosed.ne_nil hchained)]
          unfold follow
          cases (run true true false ss).2 <;> rfl
        · rw [if_neg hchained, if_neg hchained, if_pos rfl]
          rfl

/-- A script that was stopped has executed a command. -/
theorem ne_nil_of_stopped {skip : Bool} {ss : List (Step α)}
    (h : (runScript skip (ss.map .cmd)).2 = true) : (runScript skip (ss.map .cmd)).1 ≠ [] := by
  induction ss generalizing skip with
  | nil => cases skip <;> cases h
  | cons s ss ih =>
    cases skip with
    | true => exact ih h
    | false =>
      rw [List.map_cons, runScript]
      split
      · exact List.cons_ne_nil _ _
      · split
        · exact List.cons_ne_nil _ _
        · exact List.cons_ne_nil _ _

/-! ## The same commands in two scripts -/

/-- A command of two scripts, with the `&&` that follows it in the one without child
shells (`here`) and in the one with them (`there`). -/
structure Twice (α : Type u) where
  cmd : α
  ok : Bool
  here : Bool
  there : Bool

def Twice.direct (t : Twice α) : Step α := ⟨t.cmd, t.ok, t.here⟩

def Twice.nested (t : Twice α) : Step α := ⟨t.cmd, t.ok, t.there⟩

/-- A part of the two scripts: the same commands in both, or commands that the second
gives to a child shell. -/
inductive Part (α : Type u) where
  | plain (ts : List (Twice α))
  | child (ts : List (Twice α))

namespace Part

def commands : Part α → List (Twice α)
  | plain ts => ts
  | child ts => ts

/-- The part in the script without child shells. -/
def direct (p : Part α) : List (Block α) := p.commands.map fun t => .cmd t.direct

/-- The part in the script with child shells. -/
def nested : Part α → List (Block α)
  | plain ts => ts.map fun t => .cmd t.direct
  | child ts => [.sub (ts.map Twice.nested)]

end Part

/-- The child shell gets no `&&` that the other script does not have, and the last
command has none. -/
structure Fits (ts : List (Twice α)) : Prop where
  le : ∀ t ∈ ts, t.there = true → t.here = true
  closed : Closed (ts.map Twice.direct)

theorem Fits.tail {t : Twice α} {ts : List (Twice α)} (h : Fits (t :: ts)) : Fits ts :=
  ⟨fun x hx => h.le x (List.mem_cons_of_mem _ hx), h.closed.tail⟩

theorem Fits.there_eq_false {t : Twice α} {ts : List (Twice α)} (h : Fits (t :: ts))
    (hhere : t.here = false) : t.there = false := by
  by_contra hthere
  have htrue := h.le t List.mem_cons_self (Bool.not_eq_false _ ▸ hthere)
  exact Bool.false_ne_true (hhere.symm.trans htrue)

theorem Fits.ne_nil {t : Twice α} {ts : List (Twice α)} (h : Fits (t :: ts))
    (hhere : t.here = true) : ts ≠ [] := fun hnil => by
  have hclosed := h.closed
  rw [List.map_cons] at hclosed
  exact hclosed.ne_nil hhere (by rw [hnil]; rfl)

/-- The commands can run in a child shell as well: from a point where the next one is
skipped or not, a command that fails is the last one, or a condition with the same `&&`
list in both shells, and the last command executed, if it is not the last one of all,
succeeds. -/
def sheltered : Bool → Bool → List (Twice α) → Bool
  | _, status, [] => status
  | true, status, t :: ts => t.here == t.there && sheltered t.here status ts
  | false, _, t :: ts =>
    if t.ok then sheltered false true ts
    else if t.here then t.there && sheltered true false ts
    else ts.isEmpty

/-- The part stops a script without child shells: one of its commands fails and is no
condition, under `set -e`. -/
def stops (ts : List (Twice α)) : Bool := (run true false true (ts.map Twice.direct)).2.isNone

/-- The same of the parts that are reached. -/
def allSheltered : List (Part α) → Bool
  | [] => true
  | .plain ts :: ps => stops ts || allSheltered ps
  | .child ts :: ps => sheltered false true ts && (stops ts || allSheltered ps)

/-! ## One part -/

/-- The two shells do the same, and the child shell fails if the other one stops. -/
def Agree (d n : List α × Option Bool) : Prop := n.1 = d.1 ∧ n.2 = some d.2.isSome

/-- The child shell has executed a command that the other one has not, or it has
executed the same commands and fails where the other one goes on. -/
def Differ (d n : List α × Option Bool) : Prop :=
  (n.1 = d.1 ∧ d.2.isSome = true ∧ n.2 = some false) ∨
    ∃ u x v w, n.1 = u ++ x :: v ∧ d.1 = u ++ w ∧ x ∉ w

theorem Agree.cons {d n : List α × Option Bool} (h : Agree d n) (a : α) :
    Agree (a :: d.1, d.2) (a :: n.1, n.2) := ⟨congrArg (a :: ·) h.1, h.2⟩

theorem Differ.cons {d n : List α × Option Bool} (h : Differ d n) (a : α) :
    Differ (a :: d.1, d.2) (a :: n.1, n.2) := by
  rcases h with ⟨htrace, hd, hn⟩ | ⟨u, x, v, w, hn, hd, hx⟩
  · exact Or.inl ⟨congrArg (a :: ·) htrace, hd, hn⟩
  · refine Or.inr ⟨a :: u, x, v, w, ?_, ?_, hx⟩
    · exact congrArg (a :: ·) hn
    · exact congrArg (a :: ·) hd

/-- The child shell goes on with a command that the other shell skips. -/
theorem differ_of_resumed {ts : List (Twice α)} (hne : ts ≠ [])
    (hnodup : (ts.map Twice.cmd).Nodup) (status status' : Bool) :
    Differ (run true true status (ts.map Twice.direct))
      (run false false status' (ts.map Twice.nested)) := by
  obtain ⟨t, ts, rfl⟩ := List.exists_cons_of_ne_nil hne
  rw [List.map_cons, List.nodup_cons] at hnodup
  obtain ⟨v, hv⟩ := run_cons false status' t.nested (ts.map Twice.nested)
  refine Or.inr ⟨[], t.cmd, v, _, hv, rfl, fun hmem => hnodup.1 ?_⟩
  have hcmd : t.cmd ∈ (ts.map Twice.direct).map Step.cmd := mem_of_mem_run hmem
  rwa [List.map_map] at hcmd

/-- **One part**: the two shells do the same exactly if the part is sheltered, and else they differ
in a way that the commands behind do not undo. -/
theorem run_nested_spec {ts : List (Twice α)} (hfits : Fits ts)
    (hnodup : (ts.map Twice.cmd).Nodup) (skip status : Bool) :
    (sheltered skip status ts = true → Agree (run true skip status (ts.map Twice.direct))
      (run false skip status (ts.map Twice.nested))) ∧
    (sheltered skip status ts = false → Differ (run true skip status (ts.map Twice.direct))
      (run false skip status (ts.map Twice.nested))) := by
  induction ts generalizing skip status with
  | nil =>
    cases skip with
    | true => exact ⟨fun h => ⟨rfl, congrArg some h⟩, fun h => Or.inl ⟨rfl, rfl, congrArg some h⟩⟩
    | false => exact ⟨fun h => ⟨rfl, congrArg some h⟩, fun h => Or.inl ⟨rfl, rfl, congrArg some h⟩⟩
  | cons t ts ih =>
    have hrest := (List.nodup_cons.mp (List.map_cons ▸ hnodup)).2
    have htail := ih hfits.tail hrest
    rw [List.map_cons, List.map_cons]
    cases skip with
    | true =>
      rw [sheltered, run, run]
      show (_ → Agree (run true t.here status _) (run false t.there status _)) ∧
        (_ → Differ (run true t.here status _) (run false t.there status _))
      cases hhere : t.here with
      | false =>
        rw [hfits.there_eq_false hhere]
        exact htail false status
      | true =>
        cases hthere : t.there with
        | true => exact htail true status
        | false =>
          -- the child shell ends its `&&` list here, the other one does not
          refine ⟨fun h => (by cases h), fun _ => ?_⟩
          exact differ_of_resumed (hfits.ne_nil hhere) hrest status status
    | false =>
      rw [sheltered, run, run]
      show (_ → Agree (if t.ok then _ else if t.here then _ else _)
          (if t.ok then _ else if t.there then _ else _)) ∧
        (_ → Differ (if t.ok then _ else if t.here then _ else _)
          (if t.ok then _ else if t.there then _ else _))
      by_cases hok : t.ok = true
      · rw [if_pos hok, if_pos hok, if_pos hok]
        obtain ⟨hagree, hdiffer⟩ := htail false true
        exact ⟨fun h => (hagree h).cons _, fun h => (hdiffer h).cons _⟩
      · rw [if_neg hok, if_neg hok, if_neg hok]
        cases hhere : t.here with
        | true =>
          cases hthere : t.there with
          | true =>
            obtain ⟨hagree, hdiffer⟩ := htail true false
            exact ⟨fun h => (hagree h).cons _, fun h => (hdiffer h).cons _⟩
          | false =>
            refine ⟨fun h => (by cases h), fun _ => ?_⟩
            exact (differ_of_resumed (hfits.ne_nil hhere) hrest false false).cons t.cmd
        | false =>
          rw [hfits.there_eq_false hhere]
          cases ts with
          | nil => exact ⟨fun _ => ⟨rfl, rfl⟩, fun h => by cases h⟩
          | cons x ts =>
            -- `set -e` stops the one, and the child shell goes on
            refine ⟨fun h => (by cases h), fun _ => ?_⟩
            obtain ⟨v, hv⟩ := run_cons false false x.nested (ts.map Twice.nested)
            refine Or.inr ⟨[t.cmd], x.cmd, v, [], ?_, rfl, List.not_mem_nil⟩
            exact congrArg (t.cmd :: ·) hv

/-! ## Whole scripts -/

theorem mem_of_mem_runScript {skip : Bool} {ss : List (Step α)} {a : α}
    (h : a ∈ (runScript skip (ss.map .cmd)).1) : a ∈ ss.map Step.cmd := by
  induction ss generalizing skip with
  | nil => cases skip <;> exact absurd h List.not_mem_nil
  | cons s ss ih =>
    rw [List.map_cons, List.mem_cons]
    cases skip with
    | true => exact Or.inr (ih h)
    | false =>
      rw [List.map_cons, runScript] at h
      split at h
      · exact (List.mem_cons.mp h).imp_right ih
      · split at h
        · exact (List.mem_cons.mp h).imp_right ih
        · exact Or.inl (List.mem_singleton.mp h)

/-- Go on after a child shell, unless it has failed. -/
def followChild (r : List α × Option Bool) (k : List α × Bool) : List α × Bool :=
  if r.2 = some true then (r.1 ++ k.1, k.2) else (r.1, true)

theorem Agree.follow_iff {d n : List α × Option Bool} (h : Agree d n) (k k' : List α × Bool) :
    followChild n k = follow d k' ↔ d.2.isNone = true ∨ k = k' := by
  obtain ⟨dt, de⟩ := d
  obtain ⟨htrace, hend⟩ := h
  unfold followChild follow
  rw [htrace, hend]
  cases de with
  | none => exact iff_of_true rfl (Or.inl rfl)
  | some status =>
    show (dt ++ k.1, k.2) = (dt ++ k'.1, k'.2) ↔ _
    rw [Prod.mk.injEq, List.append_cancel_left_eq, ← Prod.mk.injEq]
    exact ⟨Or.inr, fun h => h.resolve_left Bool.false_ne_true⟩

/-- Shells that differ in one part do not come together again: the rest of the script
has other commands, and it is not stopped before it has executed one. -/
theorem Differ.follow_ne {d n : List α × Option Bool} (h : Differ d n) (k k' : List α × Bool)
    (hother : ∀ x ∈ n.1, x ∉ k'.1) (hstop : k'.2 = true → k'.1 ≠ []) :
    followChild n k ≠ follow d k' := by
  obtain ⟨dt, de⟩ := d
  intro heq
  unfold followChild follow at heq
  rcases h with ⟨htrace, hsome, hend⟩ | ⟨u, x, v, w, hn, hd, hx⟩
  · obtain ⟨status, hstatus⟩ := Option.isSome_iff_exists.mp hsome
    dsimp only at hstatus
    rw [htrace, hend, hstatus, if_neg (by decide)] at heq
    have heq' : (dt, true) = (dt ++ k'.1, k'.2) := heq
    rw [Prod.mk.injEq] at heq'
    exact hstop heq'.2.symm (List.self_eq_append_right.mp heq'.1)
  · have hxn : x ∈ n.1 := by
      rw [hn]
      exact List.mem_append_right _ List.mem_cons_self
    -- the traces agree on `u`, after which the one goes on with `x`
    have hl : ∃ l,
        (if n.2 = some true then (n.1 ++ k.1, k.2) else (n.1, true)).1 = u ++ x :: l := by
      split
      · exact ⟨v ++ k.1, by rw [hn, List.append_assoc, List.cons_append]⟩
      · exact ⟨v, hn⟩
    obtain ⟨l, hl⟩ := hl
    rw [heq] at hl
    cases de with
    | none =>
      have hl' : dt = u ++ x :: l := hl
      have hd' : dt = u ++ w := hd
      rw [hl', List.append_cancel_left_eq] at hd'
      exact hx (hd' ▸ List.mem_cons_self)
    | some status =>
      have hl' : dt ++ k'.1 = u ++ x :: l := hl
      have hd' : dt = u ++ w := hd
      rw [hd', List.append_assoc, List.append_cancel_left_eq] at hl'
      have hmem : x ∈ w ++ k'.1 := hl' ▸ List.mem_cons_self
      exact (List.mem_append.mp hmem).elim hx (hother x hxn)

theorem runScript_direct {p : Part α} (hfits : Fits p.commands) (bs : List (Block α)) :
    runScript false (p.direct ++ bs) =
      follow (run true false true (p.commands.map Twice.direct)) (runScript false bs) := by
  rw [← runScript_cmds hfits.closed false true (fun h => by cases h), Part.direct, List.map_map]
  rfl

theorem flatMap_direct (ps : List (Part α)) :
    ps.flatMap Part.direct = ((ps.flatMap Part.commands).map Twice.direct).map Block.cmd := by
  induction ps with
  | nil => rfl
  | cons p ps ih =>
    rw [List.flatMap_cons, List.flatMap_cons, ih, List.map_append, List.map_append, Part.direct,
      List.map_map (l := p.commands)]
    rfl

/-- **The two scripts run the same commands and stop in the same cases exactly if the
parts that are reached are sheltered.** -/
theorem runScript_nested_iff {ps : List (Part α)} (hfits : ∀ p ∈ ps, Fits p.commands)
    (hnodup : ((ps.flatMap Part.commands).map Twice.cmd).Nodup) :
    runScript false (ps.flatMap Part.nested) = runScript false (ps.flatMap Part.direct) ↔
      allSheltered ps = true := by
  induction ps with
  | nil => exact iff_of_true rfl rfl
  | cons p ps ih =>
    rw [List.flatMap_cons, List.map_append, List.nodup_append] at hnodup
    have hfit := hfits p List.mem_cons_self
    have hrest := ih (fun q hq => hfits q (List.mem_cons_of_mem _ hq)) hnodup.2.1
    rw [List.flatMap_cons, List.flatMap_cons, runScript_direct hfit]
    cases p with
    | plain ts =>
      have hnested := runScript_direct hfit (ps.flatMap Part.nested)
      rw [allSheltered, stops, Bool.or_eq_true, ← hrest]
      show runScript false ((Part.plain ts).direct ++ _) = _ ↔ _
      rw [hnested]
      show follow (run true false true (ts.map Twice.direct)) _ =
        follow (run true false true (ts.map Twice.direct)) _ ↔ _
      unfold follow
      cases (run true false true (ts.map Twice.direct)).2 with
      | none => exact iff_of_true rfl (Or.inl rfl)
      | some status =>
        dsimp only
        rw [Prod.mk.injEq, List.append_cancel_left_eq, ← Prod.mk.injEq]
        exact ⟨Or.inr, fun h => h.resolve_left Bool.false_ne_true⟩
    | child ts =>
      have hfit' : Fits ts := hfit
      -- a command that only one of the two runs is in no later part
      obtain ⟨hagree, hdiffer⟩ := run_nested_spec hfit' hnodup.1 false true
      rw [allSheltered, stops, Bool.and_eq_true, Bool.or_eq_true, ← hrest]
      show followChild (run false false true (ts.map Twice.nested))
          (runScript false (ps.flatMap Part.nested)) =
        follow (run true false true (ts.map Twice.direct)) _ ↔ _
      cases hs : sheltered false true ts with
      | true =>
        rw [(hagree hs).follow_iff]
        exact ⟨fun h => ⟨rfl, h⟩, fun h => h.2⟩
      | false =>
        refine iff_of_false ?_ fun h => Bool.false_ne_true h.1
        refine (hdiffer hs).follow_ne _ _ (fun x hx hmem => ?_) fun hstop => ?_
        · have hx' := mem_of_mem_run hx
          rw [List.map_map] at hx'
          rw [flatMap_direct] at hmem
          have hmem' := mem_of_mem_runScript hmem
          rw [List.map_map] at hmem'
          exact hnodup.2.2 x hx' x hmem' rfl
        · rw [flatMap_direct] at hstop ⊢
          exact ne_nil_of_stopped hstop

end Jhalfs.Shell
