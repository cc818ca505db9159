import Extremal.Worker.Theorems.Discoveries

open Lexicographic

namespace EngineState

variable {setup : EngineSetup} {s s' : EngineState} {discoveries : List RawDiscovery} {result : SearchResult}
  {g : AdjacencyMatrix}

-- The best graph is the last of the discoveries, and a round scores the first 200 of them.
theorem mem_toScore_iff (hb : result.bestGraph = some g) (hv : result.valid) :
    g ∈ (toScore result discoveries).map (·.graph) ↔
      discoveries.length < 200 ∨ g ∈ (discoveries.take 200).map (·.graph) := by
  simp only [toScore, hb, hv, if_true]
  by_cases hl : discoveries.length < 200
  case pos =>
    rw [List.take_of_length_le (by rw [List.length_append, List.length_singleton]; omega)]
    simp [hl]
  case neg => rw [List.take_append_of_le_length (by omega), or_iff_right hl]

theorem batchSize_pos : 0 < s.batchSize := by
  rw [batchSize]
  split <;> omega

-- The submission of a batch takes its discoveries from the front of the buffer.
theorem cidsOf_startSubmit :
    cidsOf ((s.startSubmit setup).stage.batch ++ (s.startSubmit setup).submitBuffer) = cidsOf s.submitBuffer := by
  rw [startSubmit]
  split
  case isFalse => rfl
  case isTrue =>
    have hp := batchSize_pos (s := s)
    cases hb : s.submitBuffer
    case nil => simp [submitNext, capBuffer, goto, EngineStage.batch]
    case cons d rest =>
      obtain ⟨count, hc⟩ : ∃ count, min (d :: rest).length s.batchSize = count + 1 :=
        Nat.exists_eq_add_one.mpr <| Nat.lt_min.mpr ⟨by simp, hp⟩
      rw [hc]
      exact congrArg cidsOf <| List.take_append_drop (count + 1) (d :: rest)

theorem step_search (e : s.step setup (.search <| some (result, discoveries)) = some s') :
    s' = s.finishSearch setup result discoveries := by
  unfold step at e
  cases hs : s.stage <;> simp_all

theorem cidsOf_search (e : s.step setup (.search <| some (result, discoveries)) = some s') :
    cidsOf (s'.stage.batch ++ s'.submitBuffer) =
      cidsOf s.submitBuffer ∪ s.freshCids setup (toScore result discoveries) := by
  rw [step_search e, finishSearch, cidsOf_startSubmit, cidsOf_addToBuffer]

-- A round scores its best graph, and keeps its CID if it is new and good enough, if and only if less than 200
-- graphs were found before it or it is one of the first 200 itself.
theorem best_scored_iff (hb : result.bestGraph = some g) (hv : result.valid)
    (e : s.step setup (.search <| some (result, discoveries)) = some s') :
    let best : RawDiscovery := { graph := g, iteration := result.iterationsUsed }
    g ∈ (toScore result discoveries).map (·.graph) ∧
      (cidOf setup best ∉ s.knownCids → cidOf setup best ∉ s.serverCids →
        s.gate.drops ⟨(Engine.score setup.lib s.config.n setup.maxK g).toScoreBytes setup.maxK⟩ = false →
        cidOf setup best ∈ cidsOf (s'.stage.batch ++ s'.submitBuffer)) ↔
      discoveries.length < 200 ∨ g ∈ (discoveries.take 200).map (·.graph) := by
  intro best
  rw [← mem_toScore_iff hb hv, and_iff_left_of_imp]
  intro hg hk hs hd
  obtain ⟨discovery, hm, rfl⟩ := List.mem_map.mp hg
  rw [cidsOf_search e]
  refine Finset.mem_union_right _ <| Finset.mem_sdiff.mpr ⟨?_, hk⟩
  have hw : s.worthwhile setup discovery := by
    rw [worthwhile, hd]
    exact decide_eq_true ⟨hs, rfl⟩
  exact List.mem_toFinset.mpr <| List.mem_map.mpr ⟨discovery, List.mem_filter.mpr ⟨hm, hw⟩, rfl⟩

section Lost

open ReferenceEngine

-- The path as the best graph of a search that found a graph `count` times before.
def bestPath3 : SearchResult where
  bestGraph      := some ReferenceNauty.path3
  valid          := true
  iterationsUsed := 1

def found (count : Nat) : List RawDiscovery :=
  List.replicate count ⟨ReferenceNauty.triangle, 0⟩

def searching : EngineState :=
  (init <| options false 10000).goto .search

theorem step_searching (count : Nat) : searching.step (engine false) (.search <| some (bestPath3, found count)) =
    some (searching.finishSearch (engine false) bestPath3 (found count)) :=
  rfl

theorem freshCids_found (count : Nat) :
    searching.freshCids (engine false) (found count) ⊆ {cidOf (engine false) ⟨ReferenceNauty.triangle, 0⟩} := by
  intro cid h
  have ⟨d, hd, hc⟩ := List.mem_map.mp <| List.mem_toFinset.mp (Finset.mem_sdiff.mp h).1
  rw [List.eq_of_mem_replicate (List.mem_filter.mp hd).1] at hc
  exact Finset.mem_singleton.mpr hc.symm

theorem best_scored_path3 : ∃ s', searching.step (engine false) (.search <| some (bestPath3, found 1)) = some s' ∧
    path3Cid ∈ cidsOf (s'.stage.batch ++ s'.submitBuffer) :=
  have h := best_scored_iff rfl rfl (step_searching 1) |>.mpr <| .inl (by decide)
  ⟨_, step_searching 1, h.2 (by decide) (by decide) rfl⟩

-- After 200 triangles the path is not scored, although its CID is new and nothing stands against it.
theorem best_not_scored : ∃ s', searching.step (engine false) (.search <| some (bestPath3, found 200)) = some s' ∧
    bestPath3.bestGraph = some ReferenceNauty.path3 ∧ bestPath3.valid ∧
    ReferenceNauty.path3 ∉ (toScore bestPath3 (found 200)).map (·.graph) ∧
    path3Cid ∉ searching.knownCids ∧ path3Cid ∉ searching.serverCids ∧
    (∀ scoreBytes, searching.gate.drops scoreBytes = false) ∧
    path3Cid ∉ cidsOf (s'.stage.batch ++ s'.submitBuffer) := by
  have hs : toScore bestPath3 (found 200) = found 200 := List.take_left' List.length_replicate
  refine ⟨_, step_searching 200, rfl, rfl, ?_, by decide, by decide, fun _ => rfl, ?_⟩
  · rw [hs, found, List.map_replicate]
    exact fun h => absurd (List.eq_of_mem_replicate h) (by decide)
  · rw [cidsOf_search (step_searching 200), hs]
    intro h
    rcases Finset.mem_union.mp h with h | h
    · exact absurd h (by decide)
    · exact absurd (Finset.mem_singleton.mp <| freshCids_found 200 h) (by decide +kernel)

end Lost
end EngineState
