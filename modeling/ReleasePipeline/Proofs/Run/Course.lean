import Mathlib.Data.List.Nodup
import ReleasePipeline.Proofs.Except
import ReleasePipeline.Proofs.Run.Procedure
import ReleasePipeline.Proofs.Run.Relation
import ReleasePipeline.Run.Lifecycle

/-! The course of a run: which moves it makes, in which order, and how far it gets. -/
namespace ReleasePipeline

open Procedure

/-- The step and the phase of a call. -/
def Move.call? : Move → Option (Nat × Phase)
  | .apply index _ phase => some (index, phase)
  | _ => none

namespace Lifecycle

variable {s : Settings} {steps : List NamedStep} {phase : Phase} {w w' : World}

/-- The calls of the steps that take part in a phase, in the order of the configuration. -/
def calls (phase : Phase) (steps : List NamedStep) : List Move :=
  (active phase steps).map fun (n, index) => .apply index n phase

/-- The moves are the calls of the steps that take part in a phase, each once and in the order of the
configuration. -/
structure AreCalls (phase : Phase) (steps : List NamedStep) (moves : List Move) : Prop where
  mem : ∀ move, move ∈ moves ↔
    ∃ index n, steps[index]? = some n ∧ phase ∈ n.step.phases ∧ move = .apply index n phase
  ordered : moves.Pairwise fun move move' =>
    ∀ k ∈ move.call?, ∀ k' ∈ move'.call?, k.1 < k'.1

theorem areCalls (phase : Phase) (steps : List NamedStep) :
    AreCalls phase steps (calls phase steps) where
  mem move := by
    rw [calls, active, List.mem_map]
    constructor
    · rintro ⟨⟨n, index⟩, hmem, rfl⟩
      obtain ⟨hstep, hphase⟩ := List.mem_filter.mp hmem
      exact ⟨index, n, List.mk_mem_zipIdx_iff_getElem?.mp hstep, by simpa using hphase, rfl⟩
    · rintro ⟨index, n, hstep, hphase, rfl⟩
      refine ⟨(n, index), List.mem_filter.mpr ⟨?_, by simpa using hphase⟩, rfl⟩
      exact List.mk_mem_zipIdx_iff_getElem?.mpr hstep
  ordered := by
    have hindices : steps.zipIdx.Pairwise fun n n' => n.2 < n'.2 := by
      have hrange := List.pairwise_lt_range' (s := 0) (n := steps.length)
      rwa [← List.zipIdx_map_snd 0 steps, List.pairwise_map] at hrange
    refine List.pairwise_map.mpr ((hindices.filter _).imp fun {n n'} hlt => ?_)
    rintro _ ⟨⟩ _ ⟨⟩
    exact hlt

/-- The moves that look for what has to be released. -/
def opening (steps : List NamedStep) (since : Option String) : List Move :=
  calls .verify steps ++ ([.ask Git.tagListing, .ask (Git.commitListing since)] ++
    calls .analyze steps)

/-- The moves that make the tag of a release, none in a dry run. -/
def tagMoves (s : Settings) (tag : String) : List Move :=
  if s.dryRun then [] else [.change (Git.tagging tag), .change (Git.tagPush s.remote tag)]

/-- The moves that make a release. -/
def closing (s : Settings) (steps : List NamedStep) (tag : String) : List Move :=
  calls .generateNotes steps ++ (calls .prepare steps ++ (tagMoves s tag ++ calls .publish steps))

theorem mem_of_active {n : NamedStep × Nat} (h : n ∈ active phase steps) : n.1 ∈ steps := by
  obtain ⟨-, hn⟩ := List.mem_zipIdx' (List.mem_of_mem_filter h)
  exact hn ▸ List.getElem_mem _

theorem phase_of_active {n : NamedStep × Nat} (h : n ∈ active phase steps) :
    phase ∈ n.1.step.phases := by
  simpa using List.of_mem_filter h

section Phases

open ReleasePipeline.Action

variable {R : World → World → Prop} {E : World → Failure → World → Prop} [IsPreorder World R]
  [Absorbs R E]

theorem relates_applyAll {active : List (NamedStep × Nat)}
    (hlog : ∀ level text, Relates R E (log level text))
    (hstep : ∀ n ∈ active, Relates R E (n.1.step.apply s phase)) :
    Relates R E ((applyAll phase active).perform s) := by
  induction active with
  | nil => exact relates_pure ()
  | cons first rest ih =>
    simp only [applyAll, perform_bind, perform_act, perform_say]
    refine relates_bind (hstep first List.mem_cons_self) fun report => ?_
    refine relates_bind (hlog _ _) fun _ => ?_
    exact ih fun n hn => hstep n (List.mem_cons_of_mem _ hn)

/-- What holds of messages and of the steps that take part in a phase holds of the phase. -/
theorem relates_runPhase (hlog : ∀ level text, Relates R E (log level text))
    (hstep : ∀ n ∈ steps, phase ∈ n.step.phases → Relates R E (n.step.apply s phase)) :
    Relates R E ((runPhase steps phase).perform s) := by
  have hactive : ∀ n ∈ active phase steps, Relates R E (n.1.step.apply s phase) :=
    fun n hn => hstep _ (mem_of_active hn) (phase_of_active hn)
  rw [runPhase]
  cases hphase : active phase steps with
  | nil => exact relates_pure ()
  | cons first rest =>
    simp only [perform_bind, perform_say]
    rw [← hphase]
    exact relates_bind (hlog _ _) fun _ => relates_applyAll hlog hactive

end Phases

theorem carries_applyAll (active : List (NamedStep × Nat)) (w : World) :
    (applyAll phase active).Carries s w (active.map fun (n, index) => .apply index n phase) := by
  induction active generalizing w with
  | nil => exact carries_of_moves_eq_nil rfl
  | cons first rest ih =>
    have hsay : ∀ report w', Carries s (do
        say .info (reportLine rest.isEmpty first.1.name report)
        applyAll phase rest) w' (rest.map fun (n, index) => .apply index n phase) := by
      intro report w'
      exact carries_bind (carries_of_moves_eq_nil rfl) fun _ w₁ _ => ih w₁
    exact carries_bind (carries_act _) fun report w' _ => hsay report w'

theorem carries_runPhase (steps : List NamedStep) (phase : Phase) (w : World) :
    (runPhase steps phase).Carries s w (calls phase steps) := by
  rw [runPhase, calls]
  cases active phase steps with
  | nil => exact carries_of_moves_eq_nil rfl
  | cons first rest =>
    exact carries_bind (carries_of_moves_eq_nil rfl) fun _ w' _ => carries_applyAll _ w'

theorem carries_readHistory (tagFormat : String) (w : World) : ∃ since,
    (readHistory tagFormat).Carries s w [.ask Git.tagListing, .ask (Git.commitListing since)] := by
  let log := fun since : Option String => [Move.ask (Git.commitListing since)]
  refine exists_carries_bind (q := log) (carries_act _) fun output w₁ _ => ?_
  refine exists_carries_bind (q := log) (carries_ofExcept _) fun versions w₂ _ => ?_
  refine exists_carries_bind (q := log) (carries_of_moves_eq_nil rfl) fun _ w₃ _ => ?_
  refine exists_carries_bind (q := log) (carries_of_moves_eq_nil rfl) fun known w₄ _ => ?_
  refine exists_carries_bind (q := log) (carries_ofExcept _) fun since w₅ _ => ⟨since, ?_⟩
  have hreading : ∀ w, Carries s (act (.ask (Git.commitListing since))) w (log since) :=
    fun w => carries_act _
  refine carries_bind_of_nil (carries_of_moves_eq_nil rfl) fun _ w₆ _ => ?_
  refine carries_bind_nil (hreading w₆) fun output w₇ _ => ?_
  exact carries_of_moves_eq_nil rfl

theorem carries_analyze (tagFormat : String) (steps : List NamedStep) (w : World) :
    ∃ since, (analyze tagFormat steps).Carries s w (opening steps since) := by
  refine exists_carries_bind (carries_runPhase steps .verify w) fun _ w₁ _ => ?_
  obtain ⟨since, hread⟩ := carries_readHistory tagFormat w₁
  exact ⟨since, carries_bind hread fun _ w₂ _ => carries_runPhase steps .analyze w₂⟩

theorem carries_makeTag (w : World) : ∃ tag, (makeTag s).Carries s w (tagMoves s tag) := by
  refine exists_carries_bind (q := tagMoves s) (carries_of_moves_eq_nil rfl) fun known w₁ _ => ?_
  cases hdry : s.dryRun with
  | true =>
    refine ⟨default, ?_⟩
    simp only [tagMoves, hdry, if_true]
    exact carries_of_moves_eq_nil rfl
  | false =>
    simp only [tagMoves, hdry, Bool.false_eq_true, if_false]
    cases known.release.gitTag with
    | none => exact ⟨default, List.nil_prefix⟩
    | some tag =>
      refine ⟨tag, carries_act_bind fun _ w₂ _ => ?_⟩
      refine carries_bind_nil (carries_act _) fun _ w₃ _ => ?_
      exact carries_of_moves_eq_nil rfl

theorem carries_decideVersion (tagFormat : String) (bump : BumpKind) (w : World) :
    (decideVersion tagFormat bump).Carries s w [] := by
  refine carries_bind_of_nil (carries_of_moves_eq_nil rfl) fun known w₁ _ => ?_
  refine carries_bind_of_nil (carries_ofExcept _) fun version w₂ _ => ?_
  refine carries_bind_of_nil (carries_of_moves_eq_nil rfl) fun _ w₃ _ => ?_
  refine carries_bind_of_nil (carries_ofExcept _) fun tag w₄ _ => ?_
  exact carries_of_moves_eq_nil rfl

theorem carries_release (tagFormat : String) (steps : List NamedStep) (bump : BumpKind)
    (w : World) : ∃ tag, (release s tagFormat steps bump).Carries s w (closing s steps tag) := by
  refine exists_carries_bind (q := closing s steps) (carries_decideVersion _ _ w)
    fun version w₁ _ => ?_
  refine exists_carries_bind (carries_runPhase _ _ w₁) fun _ w₂ _ => ?_
  refine exists_carries_bind (carries_runPhase _ _ w₂) fun _ w₃ _ => ?_
  obtain ⟨tag, htag⟩ := carries_makeTag w₃
  refine ⟨tag, carries_bind htag fun _ w₄ _ => ?_⟩
  exact carries_bind_nil (carries_runPhase _ _ w₄) fun _ w₅ _ => carries_of_moves_eq_nil rfl

/-- The calls of a phase by step and phase. -/
def keys (steps : List NamedStep) (phase : Phase) : List (Nat × Phase) :=
  (active phase steps).map fun (_, index) => (index, phase)

theorem filterMap_calls (phase : Phase) (steps : List NamedStep) :
    (calls phase steps).filterMap Move.call? = keys steps phase := by
  rw [calls, keys, List.filterMap_map]
  exact congrFun List.filterMap_eq_map' _

theorem filterMap_moves (since : Option String) (tag : String) :
    (opening steps since ++ closing s steps tag).filterMap Move.call? =
      Phase.all.flatMap (keys steps) := by
  have htag : (tagMoves s tag).filterMap Move.call? = [] := by
    rw [tagMoves]
    split <;> rfl
  simp only [opening, closing, List.filterMap_append, filterMap_calls, htag]
  simp [Phase.all, Move.call?]

theorem nodup_keys (steps : List NamedStep) (phase : Phase) : (keys steps phase).Nodup := by
  have hall : (steps.zipIdx.map Prod.snd).Nodup := by
    rw [List.zipIdx_map_snd]
    exact List.nodup_range'
  have hactive : ((active phase steps).map Prod.snd).Nodup :=
    hall.sublist (List.filter_sublist.map Prod.snd)
  have hkeys : keys steps phase = ((active phase steps).map Prod.snd).map fun i => (i, phase) := by
    rw [List.map_map]
    rfl
  rw [hkeys]
  exact hactive.map fun i j hij => (Prod.mk.inj hij).1

/-- No step is called twice in a phase. -/
theorem nodup_all_keys (steps : List NamedStep) : (Phase.all.flatMap (keys steps)).Nodup := by
  refine List.nodup_flatMap.mpr ⟨fun phase _ => nodup_keys steps phase, ?_⟩
  have hphases : Phase.all.Nodup := by decide
  refine hphases.imp fun {p q} hne => ?_
  intro key hp hq
  obtain ⟨_, _, rfl⟩ := List.mem_map.mp hp
  obtain ⟨_, _, hkey⟩ := List.mem_map.mp hq
  exact hne (Prod.mk.inj hkey).2.symm

end Lifecycle

/-- The world of a run whose branch a matcher accepts. -/
def World.onBranch (w : World) (m : BranchMatcher) : World :=
  let channel := m.channelFor w.release.branch
  { w with release := { w.release with prerelease := channel, channel } }

namespace ReleaseConfig

open Lifecycle

variable {c : ReleaseConfig} {registry : Registry} {s : Settings} {w : World} {m : BranchMatcher}
  {steps : List NamedStep}

/-- The moves after the analysis. -/
def afterAnalysis (s : Settings) (tagFormat : String) (steps : List NamedStep) (w : World)
    (tag : String) : List Move :=
  match (analyze tagFormat steps).perform s w with
  | .error _ _ => []
  | .ok _ w' => if w'.release.bump.isSome then closing s steps tag else []

theorem carries_runSteps (tagFormat : String) (w : World) : ∃ since tag,
    (runSteps s tagFormat steps).Carries s w
      (opening steps since ++ afterAnalysis s tagFormat steps w tag) := by
  obtain ⟨since, hopening⟩ := carries_analyze (s := s) tagFormat steps w
  refine ⟨since, exists_carries_bind hopening fun _ w' hw' => ?_⟩
  simp only [afterAnalysis, hw']
  -- the rest of the run sees the bump in the world that the analysis leaves behind
  cases hbump : w'.release.bump with
  | none =>
    refine ⟨default, carries_world_bind ?_⟩
    simp only [hbump]
    exact carries_of_moves_eq_nil rfl
  | some bump =>
    obtain ⟨tag, htag⟩ := carries_release (s := s) tagFormat steps bump w'
    refine ⟨tag, carries_world_bind ?_⟩
    simp only [hbump]
    exact htag

/-- All moves that a run has to make: none on another branch or without its steps, and those of a
release only where the analysis decides on a bump. -/
def course (c : ReleaseConfig) (registry : Registry) (s : Settings) (w : World)
    (since : Option String) (tag : String) : List Move :=
  match c.matcher? w.release.branch with
  | none => []
  | some m =>
    match buildSteps registry s (w.onBranch m) c with
    | .error _ => []
    | .ok steps => opening steps since ++ afterAnalysis s c.tagFormat steps (w.onBranch m) tag

theorem carries_course (c : ReleaseConfig) (registry : Registry) (s : Settings) (w : World) :
    ∃ since tag, (c.procedure registry s).Carries s w (c.course registry s w since tag) := by
  simp only [course]
  cases hmatcher : c.matcher? w.release.branch with
  | none =>
    refine ⟨default, default, carries_world_bind ?_⟩
    simp only [hmatcher]
    exact carries_of_moves_eq_nil rfl
  | some m =>
    -- the steps are built in the world whose release has the channel of the branch
    have hbuild : ∀ plan, Carries s (do
        let steps ← ofExcept (buildSteps registry s (w.onBranch m) c)
        runSteps s c.tagFormat steps) (w.onBranch m) plan →
        (c.procedure registry s).Carries s w plan := by
      intro plan h
      refine carries_world_bind ?_
      simp only [hmatcher]
      exact h
    cases hsteps : buildSteps registry s (w.onBranch m) c with
    | error e =>
      simp only [hsteps] at hbuild ⊢
      exact ⟨default, default, hbuild [] (carries_of_moves_eq_nil rfl)⟩
    | ok steps =>
      simp only [hsteps] at hbuild ⊢
      obtain ⟨since, tag, hrun⟩ := carries_runSteps c.tagFormat (w.onBranch m)
      exact ⟨since, tag, hbuild _ hrun⟩

theorem course_extends (since : Option String) (tag : String) :
    c.course registry s w since tag = [] ∨ ∃ m steps,
      buildSteps registry s (w.onBranch m) c = .ok steps ∧
      c.course registry s w since tag <+: opening steps since ++ closing s steps tag := by
  rw [course.eq_def]
  split
  · exact Or.inl rfl
  · rename_i m _
    split
    · exact Or.inl rfl
    · rename_i steps hsteps
      refine Or.inr ⟨m, steps, hsteps, (List.prefix_append_right_inj _).mpr ?_⟩
      rw [afterAnalysis]
      split
      · exact List.nil_prefix
      · split
        · exact List.prefix_refl _
        · exact List.nil_prefix

theorem exists_of_mem_calls {phase : Phase} {move : Move} (h : move ∈ calls phase steps) :
    ∃ n ∈ steps, ∃ index phase, move = .apply index n phase := by
  obtain ⟨⟨n, index⟩, hactive, rfl⟩ := List.mem_map.mp h
  exact ⟨n, mem_of_active hactive, index, phase, rfl⟩

/-- The moves of a run: calls of its steps, two questions and, unless it is dry, two changes. -/
theorem mem_course {since : Option String} {tag : String} {move : Move}
    (h : move ∈ c.course registry s w since tag) :
    (∃ m steps, buildSteps registry s (w.onBranch m) c = .ok steps ∧
      ∃ n ∈ steps, ∃ index phase, move = .apply index n phase) ∨
    move = .ask Git.tagListing ∨ move = .ask (Git.commitListing since) ∨
    (s.dryRun = false ∧ (move = .change (Git.tagging tag) ∨
      move = .change (Git.tagPush s.remote tag))) := by
  rcases course_extends (c := c) since tag with hnil | ⟨m, steps, hsteps, hpre⟩
  · rw [hnil] at h
    exact absurd h List.not_mem_nil
  · have hcall {phase : Phase} (hmem : move ∈ calls phase steps) : ∃ m steps,
        buildSteps registry s (w.onBranch m) c = .ok steps ∧
        ∃ n ∈ steps, ∃ index phase, move = .apply index n phase :=
      ⟨m, steps, hsteps, exists_of_mem_calls hmem⟩
    have hmem := hpre.subset h
    simp only [opening, closing, List.mem_append, List.mem_cons, List.not_mem_nil, or_false] at hmem
    rcases hmem with (hmem | (rfl | rfl) | hmem) | hmem | hmem | hmem | hmem
    · exact Or.inl (hcall hmem)
    · exact Or.inr (Or.inl rfl)
    · exact Or.inr (Or.inr (Or.inl rfl))
    · exact Or.inl (hcall hmem)
    · exact Or.inl (hcall hmem)
    · exact Or.inl (hcall hmem)
    · refine Or.inr (Or.inr (Or.inr ?_))
      rw [tagMoves] at hmem
      split at hmem
      · exact absurd hmem List.not_mem_nil
      · rename_i hdry
        exact ⟨Bool.eq_false_iff.mpr hdry, by simpa using hmem⟩
    · exact Or.inl (hcall hmem)

/-- Whatever its steps do, a run changes the world by the moves of its course alone: in order, all
of them where it returns, no call of a step twice in a phase, and none after one that fails. -/
theorem run_follows_course (c : ReleaseConfig) (registry : Registry) (s : Settings) (w : World) :
    let made := (c.procedure registry s).moves s w
    Passes s w made ((c.run registry s).after w) ∧
    (∃ since tag, made.map Prod.fst <+: c.course registry s w since tag ∧
      ∀ outcome w', c.run registry s w = .ok outcome w' →
        made.map Prod.fst = c.course registry s w since tag) ∧
    (∀ phase steps, AreCalls phase steps (calls phase steps)) ∧
    (made.filterMap fun m => m.1.call?).Nodup ∧
    ∀ m ∈ made.dropLast, m.2 = true := by
  intro made
  have hpasses := passes_moves (s := s) (c.procedure registry s) w
  obtain ⟨since, tag, hcourse⟩ := carries_course c registry s w
  refine ⟨hpasses, ⟨since, tag, moves_of_carries hcourse, ?_⟩, areCalls, ?_, hpasses.returned⟩
  · intro outcome w' hok
    exact carries_of_ok hcourse hok
  · have hpre := moves_of_carries hcourse
    rcases course_extends (c := c) since tag with hnil | ⟨m, steps, _, hall⟩
    · rw [hnil, List.prefix_nil, List.map_eq_nil_iff] at hpre
      simp only [made, hpre]
      exact List.nodup_nil
    · have hcalls := (hpre.trans hall).filterMap Move.call?
      rw [filterMap_moves, List.filterMap_map] at hcalls
      exact (nodup_all_keys steps).sublist hcalls.sublist

end ReleaseConfig

end ReleasePipeline
