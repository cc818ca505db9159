import Extremal.Lib.Record
import Extremal.Scoring.Theorems.Nauty
import Extremal.Strategies.Theorems.Polish

open Record ReferenceNauty

-- The graphs that a walk visits, from the given one on.
def polishVisited (lib : Crates) (args : PolishArgs) (graph : AdjacencyMatrix) (session : Session) :
    List AdjacencyMatrix :=
  Loop.trace (PolishWalk.advance lib args graph.n) (·.mirrors.graph) (.start graph session) (List.range' 1 args.maxSteps)

-- The graphs that a perturbation comes through.
def perturbVisited (graph : AdjacencyMatrix) (k ell numFlips : Nat) (session : Session) : List AdjacencyMatrix :=
  Loop.trace (perturbStep k ell graph.n) (·.1.graph) (.ofGraph graph, session) (List.range numFlips)

-- The search after its first walk.
def IlsWalk.start (lib : Crates) (args : PolishArgs) (graph : AdjacencyMatrix) (session : Session) : IlsWalk :=
  let (initialResult, session) := polishValidGraph lib args graph session
  let walk : IlsWalk :=
    { current   := initialResult.getD graph
      bestGraph := none
      bestScore := scoreValidGraph graph graph.n
      session   := session }
  initialResult.elim walk (walk.offer · graph.n)

-- The graphs of the perturbation and of the walk of a restart.
def IlsWalk.perturbed (args : PolishArgs) (perturbEdges : Nat) (w : IlsWalk) : List AdjacencyMatrix :=
  perturbVisited w.current args.k args.ell perturbEdges w.session

def IlsWalk.walked (lib : Crates) (args : PolishArgs) (perturbEdges : Nat) (w : IlsWalk) : List AdjacencyMatrix :=
  let (perturbed, session) := perturbValid w.current args.k args.ell perturbEdges w.session
  polishVisited lib args perturbed session

-- The states in which the search restarts.
def ilsRestarts (lib : Crates) (args : PolishArgs) (restarts perturbEdges : Nat) (graph : AdjacencyMatrix)
    (session : Session) : List IlsWalk :=
  Loop.passes (fun w i => .yield <| w.restart lib args graph.n perturbEdges i) (.start lib args graph session)
    (List.range restarts) |>.map (·.1)

def ilsPerturbed (lib : Crates) (args : PolishArgs) (restarts perturbEdges : Nat) (graph : AdjacencyMatrix)
    (session : Session) : List AdjacencyMatrix :=
  (ilsRestarts lib args restarts perturbEdges graph session).flatMap (·.perturbed args perturbEdges)

def ilsVisited (lib : Crates) (args : PolishArgs) (restarts perturbEdges : Nat) (graph : AdjacencyMatrix)
    (session : Session) : List AdjacencyMatrix :=
  polishVisited lib args graph session ++
    (ilsRestarts lib args restarts perturbEdges graph session).flatMap (·.walked lib args perturbEdges)

section Walk

variable {lib : Crates} {args : PolishArgs} {n step : Nat} {known : Finset GraphCid} {graph : AdjacencyMatrix}
  {s : Session} {w w' : PolishWalk} {bound : ValidScore} {visited : Set AdjacencyMatrix}

theorem toNat_max (a b : UInt64) : (max a b).toNat = max a.toNat b.toNat := by
  change (if a ≤ b then b else a).toNat = if a.toNat ≤ b.toNat then b.toNat else a.toNat
  rw [apply_ite UInt64.toNat]
  rfl

theorem toNat_min (a b : UInt64) : (min a b).toNat = min a.toNat b.toNat := by
  change (if a ≤ b then a else b).toNat = if a.toNat ≤ b.toNat then a.toNat else b.toNat
  rw [apply_ite UInt64.toNat]
  rfl

theorem Mirrors.Consistent.scoreValidGraph_eq {m : Mirrors} (h : m.Consistent) :
    scoreValidGraph m.graph n = (ScoreState.fromCounts m n).scoreTuple := by
  rw [scoreValidGraph, ← h.eq_ofGraph]

-- The score holds the numbers of the cliques and of the independent sets of four and three vertices.
theorem toNat_scoreValidGraph (hn : graph.n ≤ 62) : (scoreValidGraph graph graph.n).symbols.map UInt64.toNat =
    [max (graph.reds 4) (graph.blues 4), min (graph.reds 4) (graph.blues 4),
     max (graph.reds 3) (graph.blues 3), min (graph.reds 3) (graph.blues 3)] := by
  have hr (k : Nat) : ((Mirrors.ofGraph graph).red k graph.n).toNat = graph.reds k :=
    (Mirrors.consistent_ofGraph graph).toNat_red hn k
  have hb (k : Nat) : ((Mirrors.ofGraph graph).blue k graph.n).toNat = graph.blues k := by
    rw [← reds_complement]
    exact (Mirrors.consistent_ofGraph graph).toNat_blue hn k
  simp only [scoreValidGraph, ScoreState.fromCounts, ScoreState.scoreTuple, List.map_cons, List.map_nil,
    toNat_max, toNat_min, hr, hb]

namespace PolishWalk

-- What the walk yields if it ends here.
def result (w : PolishWalk) : Option AdjacencyMatrix :=
  if w.improved then some w.bestGraph else none

-- The walk keeps the best graph among those visited that beat the score it started from.
structure Tracks (n : Nat) (bound : ValidScore) (visited : Set AdjacencyMatrix) (w : PolishWalk) : Prop where
  current : w.mirrors.graph ∈ visited
  kept    : Kept (scoreValidGraph · n) (below (scoreValidGraph · n) bound visited) w.result
  score   : w.bestScore = w.result.elim bound (scoreValidGraph · n)

theorem tracks_start (ho : graph.n = n) : (start graph s).Tracks n (scoreValidGraph graph n) {graph} where
  current := rfl
  kept    := Kept.start ..
  score   := ho ▸ rfl

theorem Prepared.tracks (hp : Prepared lib args n known w w') (h : w.Tracks n bound visited) :
    w'.Tracks n bound visited := by
  have hr : w'.result = w.result := by rw [result, result, hp.improved, hp.bestGraph]
  exact ⟨hp.mirrors ▸ h.current, hr ▸ h.kept, by rw [hp.bestScore, hr, h.score]⟩

-- The predicted score of a move is the score of the graph that it leads to.
theorem Exact.score_eq (h : w.Exact n) (hn : n ≤ 62) {move : PolishMove} (hm : move.Scored w args.k args.ell) :
    move.score = scoreValidGraph (w.mirrors.flip move.u move.v).graph n := by
  obtain rfl := h.order
  have hf := h.consistent.flip hn hm.pair
  have hd := ScoreState.applyDelta_eq h.consistent hn hm.pair
  rw [hm.score, hm.delta, h.score, hf.scoreValidGraph_eq, ← hd]
  rfl

theorem Tracks.apply (h : w.Tracks n bound visited) (he : w.Exact n) (hn : n ≤ 62) {move : PolishMove}
    (hm : move.Scored w args.k args.ell) :
    (w.apply lib args n step move).Tracks n bound (visited ∪ {(w.mirrors.flip move.u move.v).graph}) := by
  have hs := he.score_eq hn hm
  by_cases hlt : move.score < w.bestScore
  case pos =>
    have hr : (w.apply lib args n step move).result = some (w.mirrors.flip move.u move.v).graph := by
      simp [result, PolishWalk.apply, hlt]
    refine ⟨.inr rfl, hr ▸ h.kept.union_replace (.singleton ..) (h.score ▸ hs ▸ hlt), ?_⟩
    rw [hr]
    simpa [PolishWalk.apply, hlt] using hs
  case neg =>
    have hr : (w.apply lib args n step move).result = w.result := by
      simp [result, PolishWalk.apply, hlt]
    refine ⟨.inr rfl, hr ▸ h.kept.union_keep ?_, ?_⟩
    case refine_1 =>
      rintro _ rfl
      exact h.score ▸ hs ▸ not_lt.mp hlt
    case refine_2 =>
      rw [hr, ← h.score]
      simp [PolishWalk.apply, hlt]

theorem Tracks.advance (h : w.Tracks n bound visited) (he : w.Exact n) (hn : n ≤ 62) (step : Nat) :
    (w.advance lib args n step).value.Tracks n bound
      (visited ∪ {(w.advance lib args n step).value.mirrors.graph}) := by
  obtain ⟨w', hp, hc | ⟨move, hm, hc⟩⟩ := he.advance_cases hn lib args ∅ step <;> rw [hc]
  case inl =>
    have ht := hp.tracks h
    have hv : visited ∪ {w'.mirrors.graph} = visited := by
      simpa using ht.current
    exact hv.symm ▸ ht
  case inr => exact (hp.tracks h).apply hp.exact hn hm

end PolishWalk

end Walk

-- A search from `graph` visits valid graphs only, and yields the best one among those that beat `graph`.
structure Explored (args : PolishArgs) (n : Nat) (graph : AdjacencyMatrix) (visited : List AdjacencyMatrix)
    (result : Option AdjacencyMatrix) : Prop where
  first : graph ∈ visited
  valid : ∀ g ∈ visited, g.IsRamsey n args.k args.ell
  kept  : Kept (scoreValidGraph · n) (below (scoreValidGraph · n) (scoreValidGraph graph n) {g | g ∈ visited}) result

section Polish

variable {lib : Crates} {args : PolishArgs} {n : Nat} {known : Finset GraphCid} {graph : AdjacencyMatrix} {s : Session}

theorem polishValidGraph_eq : (polishValidGraph lib args graph s).1 =
    (Loop.run (PolishWalk.advance lib args graph.n) (.start graph s) (List.range' 1 args.maxSteps)).result := by
  rw [polishValidGraph]
  split
  case isTrue h => rw [h]; rfl
  case isFalse  => rfl

variable (hn : n ≤ 62) (hk : 2 ≤ args.k) (hl : 2 ≤ args.ell)
include hn hk hl

theorem polishValidGraph_explored (hg : graph.IsRamsey n args.k args.ell) (hs : s.Sound lib n args.k args.ell known) :
    Explored args n graph (polishVisited lib args graph s) (polishValidGraph lib args graph s).1 := by
  let P (seen : List AdjacencyMatrix) (w : PolishWalk) : Prop :=
    w.Exact n ∧ w.Valid lib args n known ∧ w.Tracks n (scoreValidGraph graph n) {g | g ∈ seen} ∧
      graph ∈ seen ∧ ∀ g ∈ seen, g.IsRamsey n args.k args.ell
  suffices h : P (polishVisited lib args graph s)
      (Loop.run (PolishWalk.advance lib args graph.n) (.start graph s) (List.range' 1 args.maxSteps)) by
    obtain ⟨_, _, ht, hf, hv⟩ := h
    exact ⟨hf, hv, polishValidGraph_eq ▸ ht.kept⟩
  refine Loop.trace_induction P ?_ ⟨PolishWalk.exact_start hg.order hs.traced, PolishWalk.valid_start hg hs.reported, ?_⟩
  case refine_1 =>
    intro seen w step ⟨he, hv, ht, hf, hr⟩
    rw [hg.order]
    have hv' := hv.advance he hn hk hl step
    refine ⟨he.advance hn step, hv', ?_, List.mem_append_left _ hf, ?_⟩
    case refine_1 => exact setOf_mem_append .. ▸ setOf_mem_singleton _ ▸ ht.advance he hn step
    case refine_2 => exact List.forall_mem_append.mpr ⟨hr, List.forall_mem_singleton.mpr hv'.current⟩
  case refine_2 =>
    exact ⟨setOf_mem_singleton graph ▸ PolishWalk.tracks_start hg.order, List.mem_singleton_self _,
      List.forall_mem_singleton.mpr hg⟩

-- The perturbation leads through valid graphs.
theorem perturbVisited_valid (hg : graph.IsRamsey n args.k args.ell) (numFlips : Nat) (s : Session) :
    ∀ g ∈ perturbVisited graph args.k args.ell numFlips s, g.IsRamsey n args.k args.ell := by
  let P (seen : List AdjacencyMatrix) (ms : Mirrors × Session) : Prop :=
    ms.1.graph.IsRamsey n args.k args.ell ∧ ms.1.Consistent ∧ ∀ g ∈ seen, g.IsRamsey n args.k args.ell
  rw [perturbVisited, hg.order]
  refine Loop.trace_induction P ?_ ⟨hg, Mirrors.consistent_ofGraph graph, List.forall_mem_singleton.mpr hg⟩ |>.2.2
  intro seen ms i ⟨hg, hc, hs⟩
  have ⟨hg', hc', _⟩ := perturbStep_spec hn hk hl hg hc i
  exact ⟨hg', hc', List.forall_mem_append.mpr ⟨hs, List.forall_mem_singleton.mpr hg'⟩⟩

end Polish

section Ils

variable {lib : Crates} {args : PolishArgs} {n : Nat} {known : Finset GraphCid} {graph : AdjacencyMatrix}
  {visited : List AdjacencyMatrix}

-- The search keeps the best graph of all walks so far.
structure IlsWalk.Tracks (args : PolishArgs) (n : Nat) (graph : AdjacencyMatrix) (visited : List AdjacencyMatrix)
    (w : IlsWalk) : Prop where
  explored : Explored args n graph visited w.bestGraph
  score    : w.bestScore = w.bestGraph.elim (scoreValidGraph graph n) (scoreValidGraph · n)

-- The local optimum of a walk is offered to the search.
theorem IlsWalk.Tracks.offer {w : IlsWalk} (h : w.Tracks args n graph visited) {perturbed : AdjacencyMatrix}
    {walked : List AdjacencyMatrix} {result : Option AdjacencyMatrix} (he : Explored args n perturbed walked result) :
    (w.offer (result.getD perturbed) n).Tracks args n graph (visited ++ walked) := by
  have hl := he.kept.getD he.first
  have ⟨⟨hf, hv, hk⟩, hs⟩ := h
  have hv' := List.forall_mem_append.mpr ⟨hv, he.valid⟩
  have hf' := List.mem_append_left walked hf
  rw [IlsWalk.offer]
  split
  case isTrue hlt =>
    exact ⟨⟨hf', hv', setOf_mem_append .. ▸ hk.union_replace hl (hs ▸ hlt)⟩, rfl⟩
  case isFalse hlt =>
    refine ⟨⟨hf', hv', setOf_mem_append .. ▸ hk.union_keep fun g hg => ?_⟩, hs⟩
    exact hs ▸ (not_lt.mp hlt).trans (hl.le g hg)

variable (hn : n ≤ 62) (hk : 2 ≤ args.k) (hl : 2 ≤ args.ell)
include hn hk hl

theorem IlsWalk.start_spec {s : Session} (hg : graph.IsRamsey n args.k args.ell)
    (hs : s.Sound lib n args.k args.ell known) : (start lib args graph s).Valid lib args n known ∧
      (start lib args graph s).Tracks args n graph (polishVisited lib args graph s) := by
  have hp := polishValidGraph_polished hn hk hl hg hs
  have he := polishValidGraph_explored hn hk hl hg hs
  rw [start]
  generalize polishValidGraph lib args graph s = result at hp he ⊢
  obtain ⟨initial, s⟩ := result
  cases initial
  case none => exact ⟨⟨hg, by simp, hp.sound⟩, he, hg.order ▸ rfl⟩
  case some best =>
    have ⟨⟨_, hlt⟩, _⟩ := he.kept.least best rfl
    have hb := hp.best best rfl
    dsimp only [Option.elim, IlsWalk.offer]
    rw [hg.order, if_pos hlt]
    exact ⟨⟨hb, by simpa using hb, hp.sound⟩, he, rfl⟩

theorem IlsWalk.restart_spec {w : IlsWalk} (h : w.Valid lib args n known) (ht : w.Tracks args n graph visited)
    (perturbEdges i : Nat) :
    (w.restart lib args n perturbEdges i).Tracks args n graph (visited ++ w.walked lib args perturbEdges) := by
  have ⟨hg, hs⟩ := perturbValid_spec hn hk hl h.current perturbEdges w.session
  rw [IlsWalk.restart, IlsWalk.walked]
  generalize perturbValid w.current args.k args.ell perturbEdges w.session = perturbed at hg hs ⊢
  obtain ⟨perturbed, s⟩ := perturbed
  have he := polishValidGraph_explored hn hk hl hg (h.sound.silent hs)
  dsimp only at he ⊢
  generalize polishValidGraph lib args perturbed s = result at he ⊢
  have hw : IlsWalk.Tracks args n graph visited { w with session := result.2 } := ⟨ht.explored, ht.score⟩
  have ho := hw.offer he
  exact ⟨ho.explored, ho.score⟩

-- The searches restart in states that keep the best graph so far, and visit valid graphs in between.
theorem ils_spec {s : Session} (hg : graph.IsRamsey n args.k args.ell) (hs : s.Sound lib n args.k args.ell known)
    (restarts perturbEdges : Nat) :
    ((List.range restarts).foldl (IlsWalk.restart lib args n perturbEdges) (.start lib args graph s)).Tracks args n graph
        (ilsVisited lib args restarts perturbEdges graph s) ∧
      ∀ g ∈ ilsPerturbed lib args restarts perturbEdges graph s, g.IsRamsey n args.k args.ell := by
  let P (past : List (IlsWalk × Nat)) (w : IlsWalk) : Prop := w.Valid lib args n known ∧
    w.Tracks args n graph (polishVisited lib args graph s ++ past.flatMap (·.1.walked lib args perturbEdges)) ∧
    ∀ g ∈ past.flatMap (·.1.perturbed args perturbEdges), g.IsRamsey n args.k args.ell
  suffices h : P (Loop.passes (fun w i => .yield <| w.restart lib args n perturbEdges i) (.start lib args graph s)
      (List.range restarts)) (Loop.run (fun w i => .yield <| w.restart lib args n perturbEdges i)
      (.start lib args graph s) (List.range restarts)) by
    obtain ⟨_, ht, hp⟩ := h
    rw [Loop.run_yield] at ht
    rw [ilsVisited, ilsPerturbed, ilsRestarts, hg.order, List.flatMap_map, List.flatMap_map]
    exact ⟨ht, hp⟩
  have ⟨hv, ht⟩ := IlsWalk.start_spec hn hk hl hg hs
  suffices h : Loop.History P (fun w i => .yield <| w.restart lib args n perturbEdges i) (List.range restarts) from
    h.final ⟨hv, by simpa using ht, by simp⟩
  constructor
  intro past w i _ ⟨hv, ht, hp⟩
  have ht' := IlsWalk.restart_spec hn hk hl hv ht perturbEdges i
  have hp' := perturbVisited_valid hn hk hl hv.current perturbEdges w.session
  refine ⟨hv.restart hn hk hl perturbEdges n i, ?_, ?_⟩
  case refine_1 =>
    rw [List.flatMap_append, List.flatMap_singleton, ← List.append_assoc]
    exact ht'
  case refine_2 =>
    rw [List.flatMap_append, List.flatMap_singleton]
    exact List.forall_mem_append.mpr ⟨hp, hp'⟩

theorem ilsPolish_explored {s : Session} (hg : graph.IsRamsey n args.k args.ell)
    (hs : s.Sound lib n args.k args.ell known) (restarts perturbEdges : Nat) :
    Explored args n graph (ilsVisited lib args restarts perturbEdges graph s)
      (ilsPolish lib args restarts perturbEdges graph s).1 := by
  rw [ilsPolish]
  split
  case isTrue h =>
    rw [h, ilsVisited]
    simpa [ilsRestarts, Loop.passes] using polishValidGraph_explored hn hk hl hg hs
  case isFalse =>
    obtain ⟨ht, _⟩ := ils_spec hn hk hl hg hs restarts perturbEdges
    rw [← hg.order] at ht
    exact hg.order ▸ ht.explored

end Ils

-- All graphs that polishing visits are valid. It returns a graph if one of those visited by its walks
-- has a lower score than the given one, and then one with the lowest score of all.
theorem ilsPolish_best (lib : Crates) (args : PolishArgs) (restarts perturbEdges : Nat) {n : Nat}
    {graph : AdjacencyMatrix} (hn : n ≤ 62) (hk : 3 ≤ args.k) (hl : 3 ≤ args.ell)
    (hg : graph.IsRamsey n args.k args.ell) (rng : Nat → Nat) (cancelled : Nat → Bool) (known : Finset GraphCid) :
    let session := Session.start rng cancelled known
    let visited := ilsVisited lib args restarts perturbEdges graph session
    let result  := (ilsPolish lib args restarts perturbEdges graph session).1
    (∀ g ∈ visited ++ ilsPerturbed lib args restarts perturbEdges graph session, g.IsRamsey n args.k args.ell) ∧
      (∀ g ∈ visited, (scoreValidGraph g n).symbols.map UInt64.toNat =
        [max (g.reds 4) (g.blues 4), min (g.reds 4) (g.blues 4), max (g.reds 3) (g.blues 3), min (g.reds 3) (g.blues 3)]) ∧
      (result.isSome ↔ ∃ g ∈ visited, scoreValidGraph g n < scoreValidGraph graph n) ∧
      ∀ best ∈ result, best ∈ visited ∧ ∀ g ∈ visited, scoreValidGraph best n ≤ scoreValidGraph g n := by
  have hk := le_trans (by decide : 2 ≤ 3) hk
  have hl := le_trans (by decide : 2 ≤ 3) hl
  have hs : (Session.start rng cancelled known).Sound lib n args.k args.ell known := .start ..
  have ⟨_, hv, hb⟩ := ilsPolish_explored hn hk hl hg hs restarts perturbEdges
  have ⟨_, hp⟩ := ils_spec hn hk hl hg hs restarts perturbEdges
  refine ⟨List.forall_mem_append.mpr ⟨hv, hp⟩, fun g hg => ?_, hb.isSome_iff, fun best hm => ?_⟩
  case refine_1 =>
    have ho := (hv g hg).order
    exact ho ▸ toNat_scoreValidGraph (ho ▸ hn)
  case refine_2 =>
    have ⟨hm, hl⟩ := hb.least_below best hm
    exact ⟨hm, hl⟩

-- The triangle has the better neighbour that lacks one of its edges.
theorem ilsPolish_best_triangle :
    let args : PolishArgs := { k := 4, ell := 4, maxSteps := 1, tabuTenure := 5, iteration := 0 }
    let session := Session.start id (fun _ => false) ∅
    (ilsPolish crates args 1 1 triangle session).1.isSome ∧
      ((ilsPolish crates args 1 1 triangle session).1.isSome ↔
        ∃ g ∈ ilsVisited crates args 1 1 triangle session, scoreValidGraph g 3 < scoreValidGraph triangle 3) := by
  have hg : triangle.IsRamsey 3 4 4 := (Mirrors.consistent_ofGraph triangle).isRamsey (by decide) rfl (by decide +kernel)
  exact ⟨by decide +kernel, (ilsPolish_best crates _ 1 1 (by decide) (by decide) (by decide) hg id (fun _ => false) ∅).2.2.1⟩
