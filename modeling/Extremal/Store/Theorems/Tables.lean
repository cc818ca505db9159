import Extremal.Store.Tables

namespace Store.Tables

variable {tables : Tables} {graph : Graph} {score : Score} {submission : Submission}

def hasGraph (tables : Tables) (cid : String) : Bool :=
  tables.graphs.any (·.cid = cid)

def hasScore (tables : Tables) (cid : String) : Bool :=
  tables.scores.any (·.cid = cid)

@[simp]
theorem scores_storeGraph : (tables.storeGraph graph).scores = tables.scores := by
  rw [storeGraph]
  split <;> rfl

@[simp]
theorem submissions_storeGraph : (tables.storeGraph graph).submissions = tables.submissions := by
  rw [storeGraph]
  split <;> rfl

@[simp]
theorem receipts_storeGraph : (tables.storeGraph graph).receipts = tables.receipts := by
  rw [storeGraph]
  split <;> rfl

@[simp]
theorem receipts_storeScore : (tables.storeScore score).receipts = tables.receipts := by
  rw [storeScore]
  split <;> rfl

@[simp]
theorem graphs_storeScore : (tables.storeScore score).graphs = tables.graphs := by
  rw [storeScore]
  split <;> rfl

@[simp]
theorem submissions_storeScore : (tables.storeScore score).submissions = tables.submissions := by
  rw [storeScore]
  split <;> rfl

theorem storeGraph_eq_iff : tables.storeGraph graph = tables ↔ tables.hasGraph graph.cid := by
  rw [storeGraph]
  split
  case isTrue h  => exact iff_of_true rfl h
  case isFalse h => exact iff_of_false (fun he => by simpa using congrArg graphs he) h

theorem storeScore_eq_iff : tables.storeScore score = tables ↔ tables.hasScore score.cid := by
  rw [storeScore]
  split
  case isTrue h  => exact iff_of_true rfl h
  case isFalse h => exact iff_of_false (fun he => by simpa using congrArg scores he) h

-- No later write takes an earlier one back.
theorem storeScore_storeGraph_eq_iff : (tables.storeGraph graph).storeScore score = tables ↔
    tables.hasGraph graph.cid ∧ tables.hasScore score.cid := by
  constructor
  case mpr =>
    intro ⟨hg, hs⟩
    rw [storeGraph_eq_iff.mpr hg, storeScore_eq_iff.mpr hs]
  case mp =>
    intro h
    have hg : tables.hasGraph graph.cid := by
      refine of_not_not fun hg => ?_
      have he := congrArg graphs h
      rw [hasGraph] at hg
      rw [graphs_storeScore, storeGraph, if_neg hg] at he
      simp at he
    rw [storeGraph_eq_iff.mpr hg] at h
    exact ⟨hg, storeScore_eq_iff.mp h⟩

theorem mem_storeGraph {graph' : Graph} (h : graph' ∈ (tables.storeGraph graph).graphs) :
    graph' ∈ tables.graphs ∨ graph' = graph := by
  rw [storeGraph] at h
  split at h
  case isTrue  => exact .inl h
  case isFalse => simpa using h

theorem mem_storeScore {score' : Score} (h : score' ∈ (tables.storeScore score).scores) :
    score' ∈ tables.scores ∨ score' = score := by
  rw [storeScore] at h
  split at h
  case isTrue  => exact .inl h
  case isFalse => simpa using h

theorem hasGraph_storeGraph : (tables.storeGraph graph).hasGraph graph.cid := by
  rw [storeGraph]
  split
  case isTrue h => exact h
  case isFalse  => simp [hasGraph]

theorem hasScore_storeScore : (tables.storeScore score).hasScore score.cid := by
  rw [storeScore]
  split
  case isTrue h => exact h
  case isFalse  => simp [hasScore]

-- Graphs and scores are never deleted.
structure Grows (tables tables' : Tables) : Prop where
  graphs : ∀ cid, tables.hasGraph cid → tables'.hasGraph cid
  scores : ∀ cid, tables.hasScore cid → tables'.hasScore cid

theorem Grows.refl (tables : Tables) : tables.Grows tables :=
  ⟨fun _ => id, fun _ => id⟩

theorem Grows.trans {tables₁ tables₂ tables₃ : Tables} (h₁ : tables₁.Grows tables₂) (h₂ : tables₂.Grows tables₃) :
    tables₁.Grows tables₃ :=
  ⟨fun cid h => h₂.graphs cid (h₁.graphs cid h), fun cid h => h₂.scores cid (h₁.scores cid h)⟩

theorem grows_storeGraph : tables.Grows (tables.storeGraph graph) := by
  rw [storeGraph]
  split
  case isTrue  => exact .refl _
  case isFalse => exact ⟨fun cid h => by simpa [hasGraph] using .inl <| by simpa [hasGraph] using h, fun _ => id⟩

theorem grows_storeScore : tables.Grows (tables.storeScore score) := by
  rw [storeScore]
  split
  case isTrue  => exact .refl _
  case isFalse => exact ⟨fun _ => id, fun cid h => by simpa [hasScore] using .inl <| by simpa [hasScore] using h⟩

end Store.Tables
