import Mathlib.Data.List.Infix
import Mathlib.Data.List.Nodup
import Mathlib.Logic.Function.Basic

/-!
# Make

A target is made when its file does not exist or is older than one of its prerequisites. The
recipes modelled here end with a `touch` of the target, and they can fail.

- `Disk`: the times of the files, and what the recipes read and write.
- `update`: `make` of one target, prerequisites first, each target at most once a session.
- `pass`: the same along a chain, in which each target needs the one before. `updateAll_chain`
  says that `update` does this, whatever the files are.
- `fresh`: the targets at the head of a chain that are up to date. **`pass_eq`**: the others
  are attempted in order, up to the first that fails, and those that succeed are up to date.
- **`pass_rule`**: what each recipe keeps, a pass keeps. The property may speak of the number
  of targets that are fresh, as a recipe that succeeds makes one more of them fresh.
- `fresh_remove`: when a file is removed, the targets before it stay up to date, and no others.

Times are natural numbers, and every `touch` has a later one than all before it (`Past`). So a
target that has just been made makes its dependent outdated, whether or not that one was up to
date before (`pass_of_touched`): from the first target that is made on, all are. This is why a
pass is known from its fresh targets alone, and why the proofs go along the chain from its
head: a fresh target is passed over, and behind the first stale one everything is made, up to
the first failure.
-/

namespace Make

variable {T W : Type*} [DecidableEq T]

/-! ## Files and recipes -/

/-- The times of the files, the time of the last `touch` and the rest of the world, which only
the recipes read and write. -/
structure Disk (T W : Type*) where
  stamp : T → Option Nat
  now : Nat
  world : W

/-- A recipe changes the world, and comes to its `touch` or fails before. -/
abbrev Recipes (T W : Type*) := T → W → W × Bool

namespace Disk

/-- No file is younger than the last `touch`. So a target that is touched now is younger than all
others, and what depends on it is out of date. -/
def Past (d : Disk T W) : Prop := ∀ t m, d.stamp t = some m → m ≤ d.now

/-- Is the target older than the prerequisite, or one of them not there? -/
def olderThan (d : Disk T W) (t p : T) : Bool :=
  match d.stamp t, d.stamp p with
  | some m, some n => decide (m < n)
  | _, _ => true

/-- Has the target to be made? It has when it is not there, or older than a prerequisite. -/
def outdated (d : Disk T W) (prereqs : List T) (t : T) : Bool :=
  (d.stamp t).isNone || prereqs.any (d.olderThan t)

def touch (d : Disk T W) (t : T) : Disk T W :=
  { d with stamp := Function.update d.stamp t (some (d.now + 1)), now := d.now + 1 }

/-- The recipe of a target is run. -/
def perform (d : Disk T W) (recipe : Recipes T W) (t : T) : Disk T W × Bool :=
  let result := recipe t d.world
  if result.2 then (({ d with world := result.1 }).touch t, true)
  else ({ d with world := result.1 }, false)

end Disk

/-! ## One session -/

/-- The targets that `make` is done with, beside the state of the disk. They are not looked at
again. -/
structure Session (T W : Type*) where
  disk : Disk T W
  considered : List T

/-- One after the other, up to the first that fails. -/
def updateAll {S : Type*} (update : T → S → S × Bool) : List T → S → S × Bool
  | [], s => (s, true)
  | t :: ts, s =>
    let (s', ok) := update t s
    if ok then updateAll update ts s' else (s', false)

/-- `make` of a target: its prerequisites first, then its recipe if it is outdated, unless one of
them has failed. The fuel bounds the depth of the prerequisites. -/
def update (prereqs : T → List T) (recipe : Recipes T W) :
    Nat → T → Session T W → Session T W × Bool
  | 0, _, s => (s, false)
  | n + 1, t, s =>
    if t ∈ s.considered then (s, true)
    else
      let (s', ok) := updateAll (update prereqs recipe n) (prereqs t) s
      if !ok then (s', false)
      else if s'.disk.outdated (prereqs t) t then
        let (d, ok) := s'.disk.perform recipe t
        (⟨d, if ok then t :: s'.considered else s'.considered⟩, ok)
      else (⟨s'.disk, t :: s'.considered⟩, true)

/-! ## A chain -/

/-- Along a chain: `prev` is the target before, which has been considered and not failed. -/
def pass (recipe : Recipes T W) : Option T → List T → Disk T W → Disk T W × Bool
  | _, [], d => (d, true)
  | prev, t :: ts, d =>
    if d.outdated prev.toList t then
      let (d', ok) := d.perform recipe t
      if ok then pass recipe (some t) ts d' else (d', false)
    else pass recipe (some t) ts d

/-- Each target needs the one before it and no other; the first one needs nothing, or what is
given. -/
def IsChain (prereqs : T → List T) : Option T → List T → Prop
  | _, [] => True
  | prev, t :: ts => prereqs t = prev.toList ∧ IsChain prereqs (some t) ts

/-- **Along a chain `make` is one pass**: when a target is considered, the one before it has
been. Two levels of prerequisites are looked at. -/
theorem updateAll_chain {prereqs : T → List T} (recipe : Recipes T W) (n : Nat)
    {prev : Option T} {ts : List T} (hchain : IsChain prereqs prev ts) (hnodup : ts.Nodup)
    {s : Session T W} (hprev : ∀ p ∈ prev, p ∈ s.considered) (hnew : ∀ t ∈ ts, t ∉ s.considered) :
    ((updateAll (update prereqs recipe (n + 2)) ts s).1.disk,
      (updateAll (update prereqs recipe (n + 2)) ts s).2) = pass recipe prev ts s.disk := by
  induction ts generalizing prev s with
  | nil => rfl
  | cons t ts ih =>
    rw [List.nodup_cons] at hnodup
    obtain ⟨hprereqs, hrest⟩ := hchain
    have hdone : updateAll (update prereqs recipe (n + 1)) (prereqs t) s = (s, true) := by
      rw [hprereqs]
      cases prev with
      | none => rfl
      | some p =>
        show updateAll _ [p] s = _
        rw [updateAll, update, if_pos (hprev p rfl)]
        rfl
    have hstep : update prereqs recipe (n + 2) t s =
        if s.disk.outdated prev.toList t then
          (⟨(s.disk.perform recipe t).1,
            if (s.disk.perform recipe t).2 then t :: s.considered else s.considered⟩,
            (s.disk.perform recipe t).2)
        else (⟨s.disk, t :: s.considered⟩, true) := by
      rw [update, if_neg (hnew t List.mem_cons_self), hdone, hprereqs]
      rfl
    -- the rest of the chain is new, and its prerequisite has been considered
    have hcons : ∀ d : Disk T W, (updateAll (update prereqs recipe (n + 2)) ts
          ⟨d, t :: s.considered⟩ |>.1.disk,
        (updateAll (update prereqs recipe (n + 2)) ts ⟨d, t :: s.considered⟩).2) =
          pass recipe (some t) ts d := by
      intro d
      refine ih hrest hnodup.2 (s := ⟨d, t :: s.considered⟩) ?_ ?_
      · intro p hp
        cases hp
        exact List.mem_cons_self
      · intro u hu hmem
        rcases List.mem_cons.mp hmem with rfl | hmem
        · exact hnodup.1 hu
        · exact hnew u (List.mem_cons_of_mem _ hu) hmem
    rw [updateAll, hstep, pass]
    by_cases hout : s.disk.outdated prev.toList t = true
    · rw [if_pos hout, if_pos hout]
      cases hok : (s.disk.perform recipe t).2 with
      | false => simp [hok]
      | true => simpa [hok] using hcons _
    · rw [if_neg hout, if_neg hout]
      exact hcons s.disk

/-! ## What is up to date -/

/-- The targets at the head of the chain that need not be made: up to the first that is
outdated, and no further, as the others will be outdated once it is made. -/
def fresh (d : Disk T W) : Option T → List T → List T
  | _, [] => []
  | prev, t :: ts => if d.outdated prev.toList t then [] else t :: fresh d (some t) ts

/-- The others. -/
def stale (d : Disk T W) (prev : Option T) (ts : List T) : List T :=
  ts.drop (fresh d prev ts).length

omit [DecidableEq T] in
theorem fresh_append_stale (d : Disk T W) (prev : Option T) (ts : List T) :
    fresh d prev ts ++ stale d prev ts = ts := by
  induction ts generalizing prev with
  | nil => rfl
  | cons t ts ih =>
    rw [stale, fresh]
    split
    · rfl
    · exact congrArg (t :: ·) (ih (some t))

/-- The recipes in order, up to the first that fails: the targets that are made, and the
world after it. -/
def perform (recipe : Recipes T W) : List T → W → List T × W
  | [], w => ([], w)
  | t :: ts, w =>
    if (recipe t w).2 then
      (t :: (perform recipe ts (recipe t w).1).1, (perform recipe ts (recipe t w).1).2)
    else ([], (recipe t w).1)

omit [DecidableEq T] in
theorem perform_isPrefix (recipe : Recipes T W) (ts : List T) (w : W) :
    (perform recipe ts w).1 <+: ts := by
  induction ts generalizing w with
  | nil => exact List.prefix_rfl
  | cons t ts ih =>
    rw [perform]
    split
    · exact List.cons_prefix_cons.mpr ⟨rfl, ih _⟩
    · exact List.nil_prefix

namespace Disk

variable {d e : Disk T W}

omit [DecidableEq T] in
theorem outdated_congr {prev : Option T} {t : T} (ht : d.stamp t = e.stamp t)
    (hprev : ∀ p ∈ prev, d.stamp p = e.stamp p) :
    d.outdated prev.toList t = e.outdated prev.toList t := by
  cases prev with
  | none => simp [outdated, ht]
  | some p => simp [outdated, olderThan, ht, hprev p rfl]

theorem touch_past (h : d.Past) (t : T) : (d.touch t).Past := by
  intro u m hm
  by_cases hu : u = t
  · subst hu
    simp [touch] at hm ⊢
    omega
  · have := h u m (by simpa [touch, hu] using hm)
    simp [touch]
    omega

omit [DecidableEq T] in
/-- What is younger than all else makes its dependent outdated. -/
theorem outdated_of_now {t u : T} (ht : d.stamp t = some d.now)
    (hu : ∀ m, d.stamp u = some m → m < d.now) : d.outdated [t] u = true := by
  cases hm : d.stamp u with
  | none => simp [outdated, hm]
  | some m => simp [outdated, olderThan, hm, ht, hu m hm]

/-- A target is up to date after its `touch`. -/
theorem outdated_touch {prev : Option T} {t : T} (h : d.Past)
    (hprev : ∀ p ∈ prev, p ≠ t ∧ (d.stamp p).isSome) :
    (d.touch t).outdated prev.toList t = false := by
  cases prev with
  | none => simp [outdated, touch]
  | some p =>
    obtain ⟨hne, hsome⟩ := hprev p rfl
    obtain ⟨m, hm⟩ := Option.isSome_iff_exists.mp hsome
    have hle := h p m hm
    simp [outdated, olderThan, touch, hne, hm]
    omega

end Disk

/-- What is known of a pass that performs all of `stale`, and has `done` before it: the world is
that after the recipes, the pass succeeds if all of them do, no other file is touched, and the
targets that are made are fresh now as well. -/
structure Passed (recipe : Recipes T W) (done stale : List T) (prev : Option T) (ts : List T)
    (d : Disk T W) (result : Disk T W × Bool) : Prop where
  world : result.1.world = (perform recipe stale d.world).2
  ok : result.2 = true ↔ (perform recipe stale d.world).1 = stale
  others : ∀ u, u ∉ (perform recipe stale d.world).1 → result.1.stamp u = d.stamp u
  fresh : fresh result.1 prev ts = done ++ (perform recipe stale d.world).1
  past : result.1.Past

omit [DecidableEq T] in
theorem notMem_perform {recipe : Recipes T W} {ts : List T} {w : W} {t : T} (h : t ∉ ts) :
    t ∉ (perform recipe ts w).1 := fun hmem => h ((perform_isPrefix recipe ts w).subset hmem)

/-- The first of the targets is made, the others are `passed`. -/
theorem passed_cons {recipe : Recipes T W} {prev : Option T} {t : T} {ts : List T}
    {d : Disk T W} (hpast : d.Past) (hnodup : (t :: ts).Nodup)
    (hprev : ∀ p ∈ prev, p ∉ t :: ts ∧ (d.stamp p).isSome) (hout : d.outdated prev.toList t = true)
    (hrest : (recipe t d.world).2 = true →
      Passed recipe [] ts (some t) ts (({ d with world := (recipe t d.world).1 }).touch t)
        (pass recipe (some t) ts (({ d with world := (recipe t d.world).1 }).touch t))) :
    Passed recipe [] (t :: ts) prev (t :: ts) d (pass recipe prev (t :: ts) d) := by
  rw [List.nodup_cons] at hnodup
  rw [pass, if_pos hout, Disk.perform]
  by_cases hok : (recipe t d.world).2 = true
  · have h := hrest hok
    have hself := h.others t (notMem_perform hnodup.1)
    have hprev' : ∀ p ∈ prev, (pass recipe (some t) ts
        (({ d with world := (recipe t d.world).1 }).touch t)).1.stamp p =
          (({ d with world := (recipe t d.world).1 }).touch t).stamp p := by
      intro p hp
      exact h.others p (notMem_perform fun hmem => (hprev p hp).1 (List.mem_cons_of_mem _ hmem))
    have hdone := Disk.outdated_congr hself hprev'
    rw [Disk.outdated_touch (d := { d with world := (recipe t d.world).1 }) hpast fun p hp =>
      ⟨fun heq => (hprev p hp).1 (heq ▸ List.mem_cons_self), (hprev p hp).2⟩] at hdone
    simp only [hok, if_true]
    refine ⟨?_, ?_, ?_, ?_, h.past⟩
    · rw [h.world, perform, if_pos hok]
      rfl
    · rw [h.ok, perform, if_pos hok]
      simp [Disk.touch]
    · intro u hu
      rw [perform, if_pos hok, List.mem_cons, not_or] at hu
      rw [h.others u hu.2]
      simp [Disk.touch, hu.1]
    · rw [fresh, if_neg (by simp [hdone]), h.fresh, perform, if_pos hok]
      rfl
  · simp only [hok]
    refine ⟨?_, ?_, fun _ _ => rfl, ?_, hpast⟩
    · rw [perform, if_neg hok]
      rfl
    · rw [perform, if_neg hok]
      simp
    · rw [perform, if_neg hok, fresh]
      have hsame : ({ d with world := (recipe t d.world).1 } : Disk T W).outdated prev.toList t =
          d.outdated prev.toList t := Disk.outdated_congr rfl fun _ _ => rfl
      exact if_pos (hsame.trans hout)

/-- After a target that has just been made, all are made. -/
theorem pass_of_touched (recipe : Recipes T W) {t : T} {ts : List T} {d : Disk T W}
    (hpast : d.Past) (hnodup : (t :: ts).Nodup) (ht : d.stamp t = some d.now)
    (hts : ∀ u ∈ ts, ∀ m, d.stamp u = some m → m < d.now) :
    Passed recipe [] ts (some t) ts d (pass recipe (some t) ts d) := by
  induction ts generalizing t d with
  | nil => exact ⟨rfl, by simp [pass, perform], fun _ _ => rfl, rfl, hpast⟩
  | cons u us ih =>
    have hne := List.nodup_cons.mp hnodup
    refine passed_cons hpast hne.2 ?_ ?_ fun _ => ?_
    · intro p hp
      cases hp
      exact ⟨hne.1, by simp [ht]⟩
    · exact Disk.outdated_of_now ht (hts u List.mem_cons_self)
    · refine ih (Disk.touch_past hpast u) hne.2 (by simp [Disk.touch]) fun v hv m hm => ?_
      have hvu : v ≠ u := fun heq => (List.nodup_cons.mp hne.2).1 (heq ▸ hv)
      have hle := hpast v m (by simpa [Disk.touch, hvu] using hm)
      simp [Disk.touch]
      omega

/-- **What a pass makes**: the targets that are not fresh, in order, up to the first that
fails. Those that are made become fresh. -/
theorem pass_eq (recipe : Recipes T W) (prev : Option T) {ts : List T} {d : Disk T W}
    (hpast : d.Past) (hnodup : ts.Nodup) (hprev : ∀ p ∈ prev, p ∉ ts ∧ (d.stamp p).isSome) :
    Passed recipe (fresh d prev ts) (stale d prev ts) prev ts d (pass recipe prev ts d) := by
  induction ts generalizing prev with
  | nil => exact ⟨rfl, by simp [pass, perform, stale], fun _ _ => rfl, rfl, hpast⟩
  | cons t ts ih =>
    by_cases hout : d.outdated prev.toList t = true
    · rw [show fresh d prev (t :: ts) = [] by rw [fresh, if_pos hout],
        show stale d prev (t :: ts) = t :: ts by rw [stale, fresh, if_pos hout]; rfl]
      refine passed_cons hpast hnodup hprev hout fun _ => ?_
      refine pass_of_touched recipe (Disk.touch_past hpast t) hnodup (by simp [Disk.touch]) ?_
      intro v hv m hm
      have hvt : v ≠ t := fun heq => (List.nodup_cons.mp hnodup).1 (heq ▸ hv)
      have hle := hpast v m (by simpa [Disk.touch, hvt] using hm)
      simp [Disk.touch]
      omega
    · have hsome : (d.stamp t).isSome := by
        cases hm : d.stamp t with
        | none => simp [Disk.outdated, hm] at hout
        | some m => rfl
      rw [List.nodup_cons] at hnodup
      have hstale : stale d prev (t :: ts) = stale d (some t) ts := by
        rw [stale, fresh, if_neg hout]
        rfl
      have h := ih (some t) hnodup.2 fun p hp => by
        cases hp
        exact ⟨hnodup.1, hsome⟩
      rw [hstale, pass, if_neg hout]
      refine ⟨h.world, h.ok, h.others, ?_, h.past⟩
      have hdrop : stale d (some t) ts <:+ ts := List.drop_suffix _ _
      have hself := h.others t (notMem_perform fun hmem => hnodup.1 (hdrop.subset hmem))
      have hprev' : ∀ p ∈ prev, (pass recipe (some t) ts d).1.stamp p = d.stamp p := by
        intro p hp
        exact h.others p (notMem_perform fun hmem =>
          (hprev p hp).1 (List.mem_cons_of_mem _ (hdrop.subset hmem)))
      rw [fresh, Disk.outdated_congr hself hprev', if_neg hout, h.fresh, fresh, if_neg hout]
      rfl

/-- All targets were fresh, and nothing has happened. -/
theorem pass_of_fresh (recipe : Recipes T W) {prev : Option T} {ts : List T} {d : Disk T W}
    (h : fresh d prev ts = ts) : pass recipe prev ts d = (d, true) := by
  induction ts generalizing prev with
  | nil => rfl
  | cons t ts ih =>
    rw [fresh] at h
    split at h
    · cases h
    · next hout => rw [pass, if_neg hout, ih (List.cons.inj h).2]

omit [DecidableEq T] in
theorem fresh_of_ok {recipe : Recipes T W} {done stale : List T} {prev : Option T} {ts : List T}
    {d : Disk T W} {result : Disk T W × Bool} (h : Passed recipe done stale prev ts d result)
    (hts : done ++ stale = ts) (hok : result.2 = true) : fresh result.1 prev ts = ts := by
  rw [h.fresh, h.ok.mp hok, hts]

/-- **The rule of passes**: what each recipe keeps a pass keeps. `P` speaks of the number of
targets that are fresh and of the world. -/
theorem pass_rule {P : Nat → W → Prop} (recipe : Recipes T W) {ts : List T} {d : Disk T W}
    (hpast : d.Past) (hnodup : ts.Nodup)
    (hstep : ∀ k w, (hk : k < ts.length) → P k w →
      P (if (recipe ts[k] w).2 then k + 1 else k) (recipe ts[k] w).1)
    (h : P (fresh d none ts).length d.world) :
    P (fresh (pass recipe none ts d).1 none ts).length (pass recipe none ts d).1.world := by
  have hpass := pass_eq recipe none hpast hnodup fun p hp => by cases hp
  rw [hpass.world, hpass.fresh, List.length_append]
  have hperform : ∀ (us : List T) (k : Nat) (w : W), ts.drop k = us → P k w →
      P (k + (perform recipe us w).1.length) (perform recipe us w).2 := by
    intro us
    induction us with
    | nil => exact fun k w _ hP => hP
    | cons u us ih =>
      intro k w hus hP
      have hk : k < ts.length := by
        by_contra hlen
        rw [List.drop_eq_nil_of_le (by omega)] at hus
        cases hus
      rw [List.drop_eq_getElem_cons hk, List.cons.injEq] at hus
      have hnext := hstep k w hk hP
      rw [hus.1] at hnext
      rw [perform]
      by_cases hok : (recipe u w).2 = true
      · rw [if_pos hok] at hnext ⊢
        have := ih (k + 1) (recipe u w).1 hus.2 hnext
        simpa [Nat.add_assoc, Nat.add_comm 1] using this
      · rw [if_neg hok] at hnext ⊢
        exact hnext
  exact hperform _ _ _ rfl h

/-! ## A file is removed -/

def Disk.remove (d : Disk T W) (t : T) : Disk T W :=
  { d with stamp := Function.update d.stamp t none }

theorem Disk.Past.remove {d : Disk T W} (h : d.Past) (t : T) : (d.remove t).Past := by
  intro u m hm
  by_cases hu : u = t
  · simp [Disk.remove, hu] at hm
  · exact h u m (by simpa [Disk.remove, hu] using hm)

theorem fresh_remove {prev : Option T} {ts us : List T} {t : T} {d : Disk T W}
    (hnodup : (ts ++ t :: us).Nodup) (hprev : prev ≠ some t)
    (h : ts <+: fresh d prev (ts ++ t :: us)) :
    fresh (d.remove t) prev (ts ++ t :: us) = ts := by
  induction ts generalizing prev with
  | nil =>
    show fresh (d.remove t) prev (t :: us) = []
    rw [fresh, if_pos]
    simp [Disk.outdated, Disk.remove]
  | cons v ts ih =>
    rw [List.cons_append, List.nodup_cons] at hnodup
    rw [List.cons_append, fresh] at h ⊢
    have hvt : v ≠ t := fun heq => hnodup.1 (by simp [heq])
    have hsame : (d.remove t).outdated prev.toList v = d.outdated prev.toList v := by
      refine Disk.outdated_congr (by simp [Disk.remove, hvt]) fun p hp => ?_
      have hpt : p ≠ t := fun heq => hprev (heq ▸ hp)
      simp [Disk.remove, hpt]
    split at h
    · cases List.prefix_nil.mp h
    · next hout =>
      rw [hsame, if_neg hout]
      refine congrArg (v :: ·) (ih hnodup.2 (by simpa using hvt) ?_)
      exact (List.cons_prefix_cons.mp h).2

end Make
