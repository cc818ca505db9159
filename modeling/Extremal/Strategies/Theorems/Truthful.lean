import Extremal.Strategies.Theorems.Search

open ReferenceNauty

-- The flag tells whether the best graph has no clique of `k` and no independent set of `ell` vertices.
def SearchResult.Truthful (k ell : Nat) (result : SearchResult) : Prop :=
  result.valid = true ↔ ∃ graph ∈ result.bestGraph, graph.RamseyFree k ell

-- The searches return a valid graph if they have kept one, and an invalid graph otherwise.
theorem truthful_iff {k ell : Nat} {valid : Option AdjacencyMatrix} (invalid : Option (AdjacencyMatrix × UInt64))
    (used : Nat) (hv : ∀ g ∈ valid, g.RamseyFree k ell) :
    SearchResult.Truthful k ell
        { bestGraph := valid <|> invalid.map (·.1), valid := valid.isSome, iterationsUsed := used } ↔
      valid.isSome ∨ ∀ g ∈ invalid, ¬g.1.RamseyFree k ell := by
  cases valid
  case none   => cases invalid <;> simp [SearchResult.Truthful]
  case some g => simpa [SearchResult.Truthful] using hv g rfl

theorem tree2Search_truthful (lib : Crates) {job : SearchJob} (h : job.Admissible) (rng : Nat → Nat)
    (cancelled : Nat → Bool) : (tree2Search lib job rng cancelled).1.Truthful job.targetK job.targetEll := by
  have hv := Tree2Search.valid_final lib h rng cancelled
  exact (truthful_iff _ _ fun g hg => (hv.valid g hg).toRamseyFree).mpr <| .inr hv.invalid

-- The job does not know the graph, or the polish walk improves it. The walk of tabu needs nothing but the graph and
-- the parameters of the job.
def SearchJob.Finds (lib : Crates) (job : SearchJob) (graph : AdjacencyMatrix) : Prop :=
  canonicalCid lib graph ∉ job.knownCids ∨
    (polishValidGraph lib (TabuSearch.polishArgs job 0) graph (.start id (fun _ => false) ∅)).1.isSome

namespace TabuSearch

variable {lib : Crates} {job : SearchJob} {t t' : TabuSearch} {iter : Nat}

-- The state is one of a valid graph which is new or which polishing improves.
def Finds (lib : Crates) (job : SearchJob) (t : TabuSearch) (iter : Nat) : Prop :=
  t.violations = 0 ∧
    (canonicalCid lib t.mirrors.graph ∉ t.session.knownCids ∨
      (polishValidGraph lib (polishArgs job iter) t.mirrors.graph (t.session.report lib t.mirrors.graph iter).2).1.isSome)

theorem polishValidGraph_polishArgs (s : Session) :
    (polishValidGraph lib (polishArgs job iter) t.mirrors.graph s).1 =
      (polishValidGraph lib (polishArgs job 0) t.mirrors.graph (.start id (fun _ => false) ∅)).1 :=
  polishValidGraph_congr lib (polishArgs job iter) 0 t.mirrors.graph s _

-- What a state finds is nothing that the job would not have found.
theorem Finds.finds_graph (h : t.Finds lib job iter) (hv : t.Valid lib job) : job.Finds lib t.mirrors.graph := by
  refine h.2.imp (mt fun hm => hv.sound.reported.subset hm) fun hp => ?_
  rwa [polishValidGraph_polishArgs] at hp

theorem finds_start {seed : AdjacencyMatrix} {s : Session} (hv : (start job seed s).violations = 0)
    (hs : s.knownCids = job.knownCids) (h : job.Finds lib seed) : (start job seed s).Finds lib job iter := by
  refine ⟨hv, h.imp (fun hn => ?_) fun hp => ?_⟩
  · change canonicalCid lib seed ∉ s.knownCids
    rwa [hs]
  · rw [polishValidGraph_polishArgs]
    exact hp

theorem isSome_report : (t.report lib iter).bestValid.isSome ↔
    t.bestValid.isSome ∨ canonicalCid lib t.mirrors.graph ∉ t.session.knownCids := by
  rw [report, Session.report]
  by_cases hc : canonicalCid lib t.mirrors.graph ∈ t.session.knownCids <;> simp [hc]

theorem session_report : (t.report lib iter).session = (t.session.report lib t.mirrors.graph iter).2 := by
  rw [report]
  generalize t.session.report lib t.mirrors.graph iter = result
  obtain ⟨new, s⟩ := result
  cases new <;> rfl

theorem isSome_polish : (t.polish lib job iter).bestValid.isSome ↔
    t.bestValid.isSome ∨ (polishValidGraph lib (polishArgs job iter) t.mirrors.graph t.session).1.isSome := by
  rw [polish]
  split
  case isTrue =>
    generalize polishValidGraph lib (polishArgs job iter) t.mirrors.graph t.session = result
    obtain ⟨polished, s⟩ := result
    cases polished <;> simp
  case isFalse hs =>
    have hs : (polishArgs job iter).maxSteps = 0 := Nat.eq_zero_of_not_pos hs
    simp [polishValidGraph, hs]

theorem isSome_settle : (t.settle lib job iter).bestValid.isSome ↔ t.bestValid.isSome ∨ t.Finds lib job iter := by
  rw [settle, Finds]
  split
  case isTrue hv =>
    rw [found, isSome_polish, isSome_report, session_report, (frame_report lib iter).mirrors]
    tauto
  case isFalse hv => tauto

section Best

variable (h : t.Valid lib job) (hj : job.Admissible)
  (hb : ∀ g ∈ t.bestValid, g.IsRamsey job.n job.targetK job.targetEll)
include h hj hb

theorem Valid.best_polish (hg : t.mirrors.graph.IsRamsey job.n job.targetK job.targetEll) :
    ∀ g ∈ (t.polish lib job iter).bestValid, g.IsRamsey job.n job.targetK job.targetEll := by
  have hp : Polished lib (polishArgs job iter) job.n job.knownCids _ :=
    polishValidGraph_polished hj.le hj.two_le_k hj.two_le_ell hg h.sound
  rw [TabuSearch.polish]
  split
  case isFalse => exact hb
  case isTrue  =>
    generalize polishValidGraph lib (polishArgs job iter) t.mirrors.graph t.session = result at hp ⊢
    obtain ⟨polished, s⟩ := result
    cases polished
    case none   => exact hb
    case some g => exact hp.best

theorem Valid.best_settle : ∀ g ∈ (t.settle lib job iter).bestValid, g.IsRamsey job.n job.targetK job.targetEll := by
  rw [TabuSearch.settle]
  split
  case isFalse   => exact hb
  case isTrue hv =>
    have hg := h.isRamsey hj hv
    obtain ⟨hr, hm⟩ := h.report hg iter
    refine hr.best_polish hj ?_ (hm ▸ hg)
    rw [TabuSearch.report]
    generalize t.session.report lib t.mirrors.graph iter = result
    obtain ⟨new, s⟩ := result
    cases new
    case true  => simpa using hg
    case false => exact hb

end Best

-- The search keeps a valid graph once it has found one, and an invalid graph unless it started from a
-- valid one.
structure Tracks (lib : Crates) (job : SearchJob) (seed : AdjacencyMatrix) (settled : List (TabuSearch × Nat))
    (t : TabuSearch) : Prop where
  valid   : t.Valid lib job
  states  : ∀ s ∈ settled, s.1.Valid lib job
  best    : ∀ g ∈ t.bestValid, g.IsRamsey job.n job.targetK job.targetEll
  finds   : t.bestValid.isSome ↔ ∃ s ∈ settled, s.1.Finds lib job s.2
  invalid : ∃ g count, t.bestInvalid = some (g, count) ∧ (count = 0 ↔ g.RamseyFree job.targetK job.targetEll) ∧
              (count = 0 ↔ seed.RamseyFree job.targetK job.targetEll)

namespace Tracks

variable {seed : AdjacencyMatrix} {settled : List (TabuSearch × Nat)}

theorem start {s : Session} (hj : job.Admissible) (hv : (start job seed s).Valid lib job) :
    (start job seed s).Tracks lib job seed [] := by
  have hz := hv.consistent.violations_iff job.targetK job.targetEll hv.order hj.le
  exact ⟨hv, nofun, by simp [TabuSearch.start], by simp [TabuSearch.start], seed, _, rfl, hz, hz⟩

variable (h : t.Tracks lib job seed settled)
include h

theorem quiet (hq : t.Quiet t') (hv : t'.Valid lib job) : t'.Tracks lib job seed settled where
  valid   := hv
  states  := h.states
  best    := hq.bestValid ▸ h.best
  finds   := hq.bestValid ▸ h.finds
  invalid := hq.bestInvalid ▸ h.invalid

theorem settle (hj : job.Admissible) (iter : Nat) :
    (t.settle lib job iter).Tracks lib job seed (settled ++ [(t, iter)]) where
  valid   := h.valid.settle hj iter
  states  := List.forall_mem_append.mpr ⟨h.states, List.forall_mem_singleton.mpr h.valid⟩
  best    := h.valid.best_settle hj h.best
  finds   := by rw [isSome_settle, h.finds]; simp [or_and_right, exists_or]
  invalid := by rw [(frame_settle lib job iter).bestInvalid]; exact h.invalid

theorem apply (hj : job.Admissible) {move : TabuMove} (hv : (t.apply job iter move).Valid lib job) :
    (t.apply job iter move).Tracks lib job seed settled := by
  refine ⟨hv, h.states, h.best, h.finds, ?_⟩
  obtain ⟨g, count, hi, hg, hs⟩ := h.invalid
  have hz := hv.consistent.violations_iff job.targetK job.targetEll hv.order hj.le
  rw [← hv.violations] at hz
  have hb : (t.apply job iter move).bestInvalid =
      if (t.apply job iter move).violations > 0 && t.bestInvalid.all ((t.apply job iter move).violations < ·.2) then
        some ((t.apply job iter move).mirrors.graph, (t.apply job iter move).violations)
      else t.bestInvalid := rfl
  generalize t.apply job iter move = t' at hz hb
  rw [hb, hi]
  split
  case isFalse   => exact ⟨g, count, rfl, hg, hs⟩
  case isTrue hc =>
    -- Both counts are positive, so neither graph is valid.
    have ⟨hpos, hlt⟩ : 0 < t'.violations ∧ t'.violations < count := by simpa using hc
    have hne : t'.violations ≠ 0 := fun he => UInt64.lt_irrefl 0 <| he ▸ hpos
    have hne' : count ≠ 0 := fun he => UInt64.lt_irrefl 0 <| UInt64.lt_trans hpos <| he ▸ hlt
    exact ⟨_, _, rfl, hz, iff_of_false hne <| mt hs.mpr hne'⟩

end Tracks
end TabuSearch

-- The states in which the search has come to a new graph, each with its iteration.
def tabuSettled (lib : Crates) (job : SearchJob) (rng : Nat → Nat) (cancelled : Nat → Bool) : List (TabuSearch × Nat) :=
  let (graph, session) := seedGraph job (.start rng cancelled job.knownCids)
  (.start job graph session, 0) ::
    (tabuPasses lib job rng cancelled).filterMap fun pass => (pass.1.moved job pass.2).map (·, pass.2)

theorem TabuSearch.Tracks.advance {lib : Crates} {job : SearchJob} {t : TabuSearch} {seed : AdjacencyMatrix}
    {settled : List (TabuSearch × Nat)} (h : t.Tracks lib job seed settled) (hj : job.Admissible) (iter : Nat) :
    (t.advance lib job iter).value.Tracks lib job seed (settled ++ ((t.moved job iter).map (·, iter)).toList) := by
  obtain ⟨t', hq, hv, hn, ha⟩ | ⟨t₁, t₂, t', hq, hv₁, rfl, hv₂, hq', hv', hn, ha⟩ := h.valid.advance_cases hj iter <;>
    rw [ha, hn]
  case inl => simpa using h.quiet hq hv
  case inr =>
    have hc := hv₁.choose hj iter |>.1
    have h₁ := h.quiet (hq.trans <| quiet_choose job iter) hc
    exact h₁.apply hj hv₂ |>.settle hj iter |>.quiet hq' hv'

section Search

variable (lib : Crates) {job : SearchJob} (h : job.Admissible) (rng : Nat → Nat) (cancelled : Nat → Bool)
include h

theorem tabuFinal_tracks : (tabuFinal lib job rng cancelled).Tracks lib job
    (seedGraph job (.start rng cancelled job.knownCids)).1 (tabuSettled lib job rng cancelled) := by
  have ⟨ho, hs⟩ := seedGraph_spec (s := .start rng cancelled job.knownCids) h
  let seed    := (seedGraph job (.start rng cancelled job.knownCids)).1
  let session := (seedGraph job (.start rng cancelled job.knownCids)).2
  have hv : TabuSearch.Valid lib job (.start job seed session) :=
    TabuSearch.valid_start ho <| (Session.Sound.start rng cancelled).silent hs
  have h₀ : (TabuSearch.seeded lib job rng cancelled).Tracks lib job seed [(.start job seed session, 0)] := by
    refine TabuSearch.Tracks.start h hv |>.settle h 0 |>.quiet ?_ <| TabuSearch.valid_seeded lib h rng cancelled
    exact ⟨⟨rfl, rfl, rfl, rfl, rfl⟩, rfl⟩
  let settled (past : List (TabuSearch × Nat)) : List (TabuSearch × Nat) :=
    (.start job seed session, 0) :: past.filterMap fun pass => (pass.1.moved job pass.2).map (·, pass.2)
  let P (past : List (TabuSearch × Nat)) (t : TabuSearch) : Prop := t.Tracks lib job seed (settled past)
  suffices hh : Loop.History P (TabuSearch.advance lib job) (List.range' 1 job.maxIters) from hh.final h₀
  refine ⟨fun past t iter _ ht => ?_⟩
  have ha := TabuSearch.Tracks.advance ht h iter
  dsimp only [P, settled] at ha ⊢
  rw [List.filterMap_append, ← List.cons_append]
  cases hm : t.moved job iter <;> simpa [hm] using ha

-- A search that starts from a valid graph must find a new one, or an improvement, to return a valid
-- graph as such.
theorem tabuSearch_truthful_iff :
    (tabuSearch lib job rng cancelled).1.Truthful job.targetK job.targetEll ↔
      ¬(seedGraph job (.start rng cancelled job.knownCids)).1.RamseyFree job.targetK job.targetEll ∨
        ∃ s ∈ tabuSettled lib job rng cancelled, s.1.Finds lib job s.2 := by
  have ht := tabuFinal_tracks lib h rng cancelled
  obtain ⟨g, count, hi, hg, hs⟩ := ht.invalid
  have hr := truthful_iff (tabuFinal lib job rng cancelled).bestInvalid job.maxIters fun g hg => (ht.best g hg).toRamseyFree
  refine hr.trans ?_
  rw [ht.finds, hi, ← hs, hg]
  simp [or_comm]

variable {seed : AdjacencyMatrix} (hseed : job.initGraph = some seed)
include hseed

-- The search finds its seed before its first iteration.
theorem tabuSearch_truthful_of_finds
    (hf : ¬seed.RamseyFree job.targetK job.targetEll ∨ job.Finds lib seed) :
    (tabuSearch lib job rng cancelled).1.Truthful job.targetK job.targetEll := by
  have hg : seedGraph job (.start rng cancelled job.knownCids) = (seed, .start rng cancelled job.knownCids) := by
    rw [seedGraph, hseed]
  rw [tabuSearch_truthful_iff lib h rng cancelled, hg, tabuSettled, hg]
  by_cases hr : seed.RamseyFree job.targetK job.targetEll
  case neg => exact .inl hr
  case pos =>
    have ho := h.init seed hseed
    have hv : TabuSearch.Valid lib job (.start job seed <| .start rng cancelled job.knownCids) :=
      TabuSearch.valid_start ho <| .start rng cancelled
    have hz := hv.consistent.violations_iff job.targetK job.targetEll hv.order h.le |>.mpr hr
    exact .inr ⟨_, .head _, TabuSearch.finds_start hz rfl <| hf.resolve_left <| not_not.mpr hr⟩

-- If no later graph can be a new one or an improvement, the seed has to.
theorem finds_of_tabuSearch_truthful (hl : job.maxIters = 0 ∨
      ∀ g : AdjacencyMatrix, g.IsRamsey job.n job.targetK job.targetEll → ¬job.Finds lib g)
    (ht : (tabuSearch lib job rng cancelled).1.Truthful job.targetK job.targetEll) :
    ¬seed.RamseyFree job.targetK job.targetEll ∨ job.Finds lib seed := by
  have hg : seedGraph job (.start rng cancelled job.knownCids) = (seed, .start rng cancelled job.knownCids) := by
    rw [seedGraph, hseed]
  have hv := (tabuFinal_tracks lib h rng cancelled).states
  rw [tabuSearch_truthful_iff lib h rng cancelled, hg] at ht
  refine ht.imp_right ?_
  rintro ⟨s, hm, hs⟩
  have hj := hs.finds_graph (hv s hm)
  rcases hl with hl | hl
  case inl =>
    rw [tabuSettled, hg, tabuPasses, hl] at hm
    cases List.mem_singleton.mp hm
    exact hj
  case inr => exact absurd hj <| hl _ <| (hv s hm).isRamsey h hs.1

-- The flag of tree2 is right. That of tabu is right if the seed is invalid, unknown to the job or improved by the
-- polish walk; and only then, if no iteration follows or the job knows all valid graphs and the walk improves none
-- of them.
theorem searchResult_truthful :
    (tree2Search lib job rng cancelled).1.Truthful job.targetK job.targetEll ∧
      (¬seed.RamseyFree job.targetK job.targetEll ∨ job.Finds lib seed →
        (tabuSearch lib job rng cancelled).1.Truthful job.targetK job.targetEll) ∧
      (job.maxIters = 0 ∨
          (∀ g : AdjacencyMatrix, g.IsRamsey job.n job.targetK job.targetEll → ¬job.Finds lib g) →
        (tabuSearch lib job rng cancelled).1.Truthful job.targetK job.targetEll →
          ¬seed.RamseyFree job.targetK job.targetEll ∨ job.Finds lib seed) :=
  ⟨tree2Search_truthful lib h rng cancelled, tabuSearch_truthful_of_finds lib h rng cancelled hseed,
   finds_of_tabuSearch_truthful lib h rng cancelled hseed⟩

end Search

-- All valid graphs on three vertices are known.
def knownPath3Job : SearchJob :=
  { path3Job with knownCids := {canonicalCid crates path3, canonicalCid crates path3.complement} }

theorem path3_ramseyFree : path3.RamseyFree 3 3 :=
  (Mirrors.consistent_ofGraph path3).isRamsey (n := 3) (by decide) rfl (by decide +kernel) |>.toRamseyFree

-- The searches find the path, which the first job does not know. Without an iteration the second one finds nothing.
theorem path3Jobs_truthful :
    ((tree2Search crates path3Job id fun _ => false).1.Truthful 3 3 ∧
      (tabuSearch crates path3Job id fun _ => false).1.Truthful 3 3) ∧
    ¬(tabuSearch crates { knownPath3Job with maxIters := 0 } id fun _ => false).1.Truthful 3 3 := by
  have h := searchResult_truthful crates path3Job_admissible id (fun _ => false) rfl
  have h' : SearchJob.Admissible { knownPath3Job with maxIters := 0 } :=
    ⟨by decide, by decide, path3Job_admissible.init, path3Job_admissible.k, path3Job_admissible.ell⟩
  refine ⟨⟨h.1, h.2.1 <| .inr <| .inl <| Finset.notMem_empty _⟩, fun ht => ?_⟩
  rcases searchResult_truthful crates h' id (fun _ => false) rfl |>.2.2 (.inl rfl) ht with hr | hf | hp
  · exact hr path3_ramseyFree
  · exact hf <| Finset.mem_insert_self ..
  · revert hp
    decide +kernel

-- The search returns the path that it started from, which is valid, as an invalid graph.
theorem knownPath3Job_not_truthful :
    knownPath3Job.initGraph = some path3 ∧ ¬(tabuSearch crates knownPath3Job id fun _ => false).1.Truthful 3 3 := by
  have hv : (tabuSearch crates knownPath3Job id fun _ => false).1.valid = false := by decide +kernel
  have hg : (tabuSearch crates knownPath3Job id fun _ => false).1.bestGraph = some path3 := by decide +kernel
  refine ⟨rfl, fun h => ?_⟩
  have ht := h.mpr ⟨path3, hg, path3_ramseyFree⟩
  exact Bool.false_ne_true <| hv.symm.trans ht
