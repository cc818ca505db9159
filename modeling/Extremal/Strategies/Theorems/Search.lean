import Extremal.Strategies
import Extremal.Scoring.Theorems.Nauty
import Extremal.Strategies.Theorems.Tabu
import Extremal.Strategies.Theorems.Tree2

open ReferenceNauty

theorem defaultStrategies_sound (lib : Crates) {job : SearchJob} (h : job.Admissible) (rng : Nat → Nat)
    (cancelled : Nat → Bool) : ∀ search ∈ defaultStrategies lib,
      (search job rng cancelled).2.Sound lib job.n job.targetK job.targetEll job.knownCids := by
  simp only [defaultStrategies, List.forall_mem_cons]
  exact ⟨tree2Search_sound lib h rng cancelled, tabuSearch_sound lib h rng cancelled, by simp⟩

-- After each evaluation, move and new beam the mirrors are consistent and the counts are those of a
-- recount, each `.max(0)` and each recount leaves its counts as they are, and nothing is ever corrected.
theorem search_never_drifts (lib : Crates) {job : SearchJob} (h : job.Admissible) (rng : Nat → Nat)
    (cancelled : Nat → Bool) :
    (∀ search ∈ defaultStrategies lib, ∀ e ∈ (search job rng cancelled).2.events, e.Sound job.n) ∧
      ∀ args graph, graph.n = job.n →
        ∀ e ∈ (polishValidGraph lib args graph (.start rng cancelled job.knownCids)).2.events, e.Sound job.n := by
  refine ⟨fun search hs => (defaultStrategies_sound lib h rng cancelled search hs).traced, fun args graph hg => ?_⟩
  exact polishValidGraph_traced hg h.le <| by simp [Session.Traced, Session.start]

-- The discovered graphs are valid, their CIDs are not among the known ones, and no CID is reported twice.
theorem discoveries_valid_and_novel (lib : Crates) {job : SearchJob} (h : job.Admissible) (rng : Nat → Nat)
    (cancelled : Nat → Bool) : ∀ search ∈ defaultStrategies lib,
      (∀ d ∈ (search job rng cancelled).2.discoveries,
        d.graph.n = job.n ∧ d.graph.graph.CliqueFree job.targetK ∧ d.graph.graph.IndepSetFree job.targetEll ∧
          canonicalCid lib d.graph ∉ job.knownCids) ∧
      ((search job rng cancelled).2.discoveries.map fun d => canonicalCid lib d.graph).Nodup := by
  intro search hs
  have hr := (defaultStrategies_sound lib h rng cancelled search hs).reported
  refine ⟨fun d hd => ?_, hr.distinct⟩
  have hv := hr.valid d hd
  exact ⟨hv.order, hv.clique, hv.indep, hr.novel d hd⟩

-- A search for `R(3, 3)` that starts from the path on three vertices.
def path3Job : SearchJob where
  n          := 3
  maxIters   := 2
  initGraph  := some path3
  config     := .object [("target_k", .posInt 3), ("target_ell", .posInt 3), ("max_depth", .posInt 1),
                         ("polish_max_steps", .posInt 1)]
  knownCids  := ∅
  carryState := none

theorem path3Job_admissible : path3Job.Admissible where
  two_le := by decide
  le     := by decide
  init   := by simp [path3Job, path3]
  k      := by decide +kernel
  ell    := by decide +kernel

theorem path3Job_never_drifts :
    ((defaultStrategies crates).map fun search => (search path3Job id fun _ => false).2.events.length) = [27, 64] ∧
      (∀ search ∈ defaultStrategies crates, ∀ e ∈ (search path3Job id fun _ => false).2.events, e.Sound 3) ∧
      ∀ args graph, graph.n = 3 →
        ∀ e ∈ (polishValidGraph crates args graph (.start id (fun _ => false) ∅)).2.events, e.Sound 3 :=
  ⟨by decide +kernel, search_never_drifts crates path3Job_admissible id fun _ => false⟩

theorem path3Job_discoveries :
    ((defaultStrategies crates).map fun search => (search path3Job id fun _ => false).2.discoveries.length) = [2, 2] ∧
      ∀ search ∈ defaultStrategies crates,
        (∀ d ∈ (search path3Job id fun _ => false).2.discoveries,
          d.graph.n = 3 ∧ d.graph.graph.CliqueFree path3Job.targetK ∧ d.graph.graph.IndepSetFree path3Job.targetEll ∧
            canonicalCid crates d.graph ∉ (∅ : Finset GraphCid)) ∧
        ((search path3Job id fun _ => false).2.discoveries.map fun d => canonicalCid crates d.graph).Nodup :=
  ⟨by decide +kernel, discoveries_valid_and_novel crates path3Job_admissible id fun _ => false⟩
