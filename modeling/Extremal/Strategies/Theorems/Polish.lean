import Extremal.Strategies.Polish
import Extremal.Strategies.Theorems.Moves

open AdjacencyMatrix

section Score

variable {m : Mirrors} {n u v : Nat}

theorem ScoreState.counters_fromCounts (h : m.graph.n = n) : ∀ c ∈ (fromCounts m n).counters, c.count = c.recount m := by
  simp [counters, fromCounts, Counter.count, Counter.recount, h]

-- The deltas that the walk computes for a pair.
def Mirrors.scoreDelta (m : Mirrors) (u v : Nat) : ScoreDelta where
  red4  := (m.delta 4 4 u v).1
  blue4 := (m.delta 4 4 u v).2
  red3  := (m.delta 3 3 u v).1
  blue3 := (m.delta 3 3 u v).2

variable (h : m.Consistent) (hn : m.graph.n ≤ 62) (hp : (u, v) ∈ pairs m.graph.n)
include h hn hp

theorem ScoreState.counts_flip_lt (k : Nat) :
    ((m.flip u v).red k m.graph.n).toNat < 2 ^ 63 ∧ ((m.flip u v).blue k m.graph.n).toNat < 2 ^ 63 := by
  have hr := (h.flip hn hp).red_lt (by simpa) k
  have hb := (h.flip hn hp).blue_lt (by simpa) k
  simp only [Mirrors.n_flip] at hr hb
  omega

theorem ScoreState.applyDelta_eq :
    (fromCounts m m.graph.n).applyDelta (m.scoreDelta u v) = fromCounts (m.flip u v) m.graph.n := by
  have ⟨hr₄, hb₄⟩ := h.delta_eq hn hp (by decide : 2 ≤ 4) (by decide : 2 ≤ 4)
  have ⟨hr₃, hb₃⟩ := h.delta_eq hn hp (by decide : 2 ≤ 3) (by decide : 2 ≤ 3)
  have hc := counts_flip_lt h hn hp
  simp only [applyDelta, fromCounts, Mirrors.scoreDelta, hr₄, hb₄, hr₃, hb₃, clamp_toInt64, hc 3, hc 4]

theorem ScoreState.clamps_sound :
    ∀ e ∈ (fromCounts m m.graph.n).clamps (m.scoreDelta u v), e.Sound m.graph.n := by
  have ⟨hr₄, hb₄⟩ := h.delta_eq hn hp (by decide : 2 ≤ 4) (by decide : 2 ≤ 4)
  have ⟨hr₃, hb₃⟩ := h.delta_eq hn hp (by decide : 2 ≤ 3) (by decide : 2 ≤ 3)
  have hc := counts_flip_lt h hn hp
  simp only [clamps, fromCounts, Mirrors.scoreDelta, hr₄, hb₄, hr₃, hb₃, List.forall_mem_cons, Event.Sound]
  exact ⟨max_toInt64 (hc 4).1, max_toInt64 (hc 4).2, max_toInt64 (hc 3).1, max_toInt64 (hc 3).2, by simp⟩

end Score

-- A move of the walk: it carries the deltas of its pair and preserves zero violations.
structure PolishMove.Fits (m : Mirrors) (k ell : Nat) (move : PolishMove) : Prop where
  pair    : (move.u, move.v) ∈ pairs m.graph.n
  delta   : move.delta = m.scoreDelta move.u move.v
  neutral : (m.delta k ell move.u move.v).1 + (m.delta k ell move.u move.v).2 = 0

-- A move as the walk scores it.
structure PolishMove.Scored (w : PolishWalk) (k ell : Nat) (move : PolishMove) : Prop extends move.Fits w.mirrors k ell where
  score : move.score = w.score.predicted move.delta

namespace PolishWalk

variable {lib : Crates} {args : PolishArgs} {n step : Nat} {known : Finset GraphCid} {w : PolishWalk}

-- The walk keeps exact counts of consistent mirrors.
structure Exact (n : Nat) (w : PolishWalk) : Prop where
  order      : w.mirrors.graph.n = n
  consistent : w.mirrors.Consistent
  score      : w.score = .fromCounts w.mirrors n
  traced     : w.session.Traced n

-- The walk stays among the valid graphs, and reports no others.
structure Valid (lib : Crates) (args : PolishArgs) (n : Nat) (known : Finset GraphCid) (w : PolishWalk) : Prop where
  current  : w.mirrors.graph.IsRamsey n args.k args.ell
  best     : w.bestGraph.IsRamsey n args.k args.ell
  reported : w.session.Reported lib n args.k args.ell known

theorem Exact.held (h : w.Exact n) : (Event.held w.mirrors w.score.counters).Sound n :=
  ⟨h.order, h.consistent, h.score ▸ ScoreState.counters_fromCounts h.order⟩

theorem Exact.recount (h : w.Exact n) : (w.recount n).Exact n where
  order      := h.order
  consistent := h.consistent
  score      := rfl
  traced     := h.traced.log <| by simp [Event.Sound, h.score]

theorem Valid.recount (h : w.Valid lib args n known) : (w.recount n).Valid lib args n known where
  current  := h.current
  best     := h.best
  reported := h.reported.log _

section Scan

theorem evaluate_eq (scan : MoveScan PolishMove) (u v : Nat) : w.evaluate args n step scan (u, v) =
    if (w.mirrors.delta args.k args.ell u v).1 + (w.mirrors.delta args.k args.ell u v).2 ≠ 0 then
      { scan with session := scan.session.log [.held w.mirrors w.score.counters] }
    else
      let d         := w.mirrors.scoreDelta u v
      let predicted := w.score.predicted d
      scan.consider PolishMove.score { u, v, score := predicted, delta := d }
        (w.tabuUntil.getD (edgeIndex u v n) 0 > step) (predicted < w.bestScore) <|
        w.score.clamps d ++ [.held w.mirrors w.score.counters] := by
  rfl

theorem Exact.evaluate (h : w.Exact n) (hn : n ≤ 62) {p} (hp : p ∈ pairs n) {scan : MoveScan PolishMove}
    (hs : scan.Fits (PolishMove.Scored w args.k args.ell) n w.session) :
    (w.evaluate args n step scan p).Fits (PolishMove.Scored w args.k args.ell) n w.session := by
  obtain ⟨u, v⟩ := p
  rw [evaluate_eq]
  split
  case isTrue => exact hs.log <| by simpa using h.held
  case isFalse hd =>
    obtain rfl := h.order
    have hm : PolishMove.Fits w.mirrors args.k args.ell
        { u, v, score := w.score.predicted (w.mirrors.scoreDelta u v), delta := w.mirrors.scoreDelta u v } :=
      ⟨hp, rfl, not_not.mp hd⟩
    refine hs.consider ⟨hm, rfl⟩ (fun e he => ?_) ..
    cases List.mem_append.mp he
    case inl he => exact ScoreState.clamps_sound h.consistent hn hp e (h.score ▸ he)
    case inr he => exact List.mem_singleton.mp he ▸ h.held

theorem Exact.scan (h : w.Exact n) (hn : n ≤ 62) (args : PolishArgs) (step : Nat) :
    (w.scan args n step).Fits (PolishMove.Scored w args.k args.ell) n w.session :=
  Loop.foldl_induction _ (fun _ _ hp hs => h.evaluate hn hp hs) (.start ..)

end Scan

section Step

theorem Exact.apply (h : w.Exact n) (hn : n ≤ 62) {move : PolishMove} (hm : move.Fits w.mirrors args.k args.ell) :
    (w.apply lib args n step move).Exact n := by
  obtain rfl := h.order
  have hf := h.consistent.flip hn hm.pair
  have hs : w.score.applyDelta move.delta = .fromCounts (w.mirrors.flip move.u move.v) w.mirrors.graph.n := by
    rw [h.score, hm.delta, ScoreState.applyDelta_eq h.consistent hn hm.pair]
  refine ⟨Mirrors.n_flip, hf, hs, ?_⟩
  have ht : (w.session.log (w.score.clamps move.delta ++
      [.held (w.mirrors.flip move.u move.v) (w.score.applyDelta move.delta).counters])).Traced w.mirrors.graph.n := by
    refine h.traced.log fun e he => ?_
    cases List.mem_append.mp he
    case inl he =>
      rw [h.score, hm.delta] at he
      exact ScoreState.clamps_sound h.consistent hn hm.pair e he
    case inr he =>
      rw [List.mem_singleton.mp he, hs]
      exact ⟨Mirrors.n_flip, hf, ScoreState.counters_fromCounts Mirrors.n_flip⟩
  dsimp only [PolishWalk.apply]
  split
  case isTrue  => exact ht.report _ _ _
  case isFalse => exact ht

theorem Valid.apply (h : w.Valid lib args n known) (he : w.Exact n) (hn : n ≤ 62) (hk : 2 ≤ args.k)
    (hl : 2 ≤ args.ell) {move : PolishMove} (hm : move.Fits w.mirrors args.k args.ell) :
    (w.apply lib args n step move).Valid lib args n known := by
  obtain rfl := he.order
  have hf := he.consistent.ramseyFree_flip hn hm.pair hk hl h.current.toRamseyFree hm.neutral
  have hg : (w.mirrors.flip move.u move.v).graph.IsRamsey w.mirrors.graph.n args.k args.ell := ⟨hf, Mirrors.n_flip⟩
  refine ⟨hg, ?_, ?_⟩ <;> dsimp only [PolishWalk.apply] <;> split
  case refine_1.isTrue  => exact hg
  case refine_1.isFalse => exact h.best
  case refine_2.isTrue  => exact h.reported.log _ |>.report hg _
  case refine_2.isFalse => exact h.reported.log _

-- What the recount and the scan of a step leave unchanged.
structure Prepared (lib : Crates) (args : PolishArgs) (n : Nat) (known : Finset GraphCid) (w w' : PolishWalk) : Prop where
  exact     : w'.Exact n
  valid     : w.Valid lib args n known → w'.Valid lib args n known
  mirrors   : w'.mirrors = w.mirrors
  bestGraph : w'.bestGraph = w.bestGraph
  bestScore : w'.bestScore = w.bestScore
  improved  : w'.improved = w.improved

theorem Prepared.trans {w' w'' : PolishWalk} (h : Prepared lib args n known w w')
    (h' : Prepared lib args n known w' w'') : Prepared lib args n known w w'' where
  exact     := h'.exact
  valid     := h'.valid ∘ h.valid
  mirrors   := h'.mirrors.trans h.mirrors
  bestGraph := h'.bestGraph.trans h.bestGraph
  bestScore := h'.bestScore.trans h.bestScore
  improved  := h'.improved.trans h.improved

theorem Exact.recounted (h : w.Exact n) (step : Nat) :
    Prepared lib args n known w (if step % 100 = 0 then w.recount n else w) := by
  split
  case isTrue  => exact ⟨h.recount, .recount, rfl, rfl, rfl, rfl⟩
  case isFalse => exact ⟨h, id, rfl, rfl, rfl, rfl⟩

theorem Exact.scanned (h : w.Exact n) (hn : n ≤ 62) (step : Nat) :
    Prepared lib args n known w { w with session := (w.scan args n step).session } := by
  have ⟨events, he, hs⟩ := h.scan hn args step |>.logged
  rw [hs]
  exact ⟨⟨h.order, h.consistent, h.score, h.traced.log he⟩,
    fun hv => ⟨hv.current, hv.best, hv.reported.log events⟩, rfl, rfl, rfl, rfl⟩

-- A step stops, or applies a move that fits.
theorem Exact.advance_cases (h : w.Exact n) (hn : n ≤ 62) (lib : Crates) (args : PolishArgs)
    (known : Finset GraphCid) (step : Nat) : ∃ w', Prepared lib args n known w w' ∧
    (w.advance lib args n step = .done w' ∨
      ∃ move : PolishMove, move.Scored w' args.k args.ell ∧
        w.advance lib args n step = .yield (w'.apply lib args n step move)) := by
  have hr : Prepared lib args n known w _ := h.recounted step
  have hs : Prepared lib args n known _ _ := hr.exact.scanned hn step
  have hf := hr.exact.scan hn args step
  refine ⟨_, hr.trans hs, ?_⟩
  rw [PolishWalk.advance]
  split
  case h_1 move hm =>
    have hm := hf.chosen move hm
    exact .inr ⟨move, ⟨hm.toFits, hm.score⟩, rfl⟩
  case h_2         => exact .inl rfl

theorem Exact.advance (h : w.Exact n) (hn : n ≤ 62) (step : Nat) : (w.advance lib args n step).value.Exact n := by
  obtain ⟨w', hp, hc | ⟨move, hm, hc⟩⟩ := h.advance_cases hn lib args ∅ step <;> rw [hc]
  case inl => exact hp.exact
  case inr => exact hp.exact.apply hn hm.toFits

theorem Valid.advance (h : w.Valid lib args n known) (he : w.Exact n) (hn : n ≤ 62) (hk : 2 ≤ args.k)
    (hl : 2 ≤ args.ell) (step : Nat) : (w.advance lib args n step).value.Valid lib args n known := by
  obtain ⟨w', hp, hc | ⟨move, hm, hc⟩⟩ := he.advance_cases hn lib args known step <;> rw [hc]
  case inl => exact hp.valid h
  case inr => exact (hp.valid h).apply hp.exact hn hk hl hm.toFits

end Step

section Start

variable {graph : AdjacencyMatrix} {s : Session}

theorem exact_start (ho : graph.n = n) (h : s.Traced n) : (start graph s).Exact n where
  order      := ho
  consistent := Mirrors.consistent_ofGraph graph
  score      := ho ▸ rfl
  traced     := h

theorem valid_start (hg : graph.IsRamsey n args.k args.ell) (h : s.Reported lib n args.k args.ell known) :
    (start graph s).Valid lib args n known where
  current  := hg
  best     := hg
  reported := h

end Start
end PolishWalk

section Polish

variable {lib : Crates} {args : PolishArgs} {n : Nat} {graph : AdjacencyMatrix} {known : Finset GraphCid} {s : Session}

theorem polishValidGraph_traced (ho : graph.n = n) (hn : n ≤ 62) (h : s.Traced n) :
    (polishValidGraph lib args graph s).2.Traced n := by
  rw [polishValidGraph]
  split
  case isTrue  => exact h
  case isFalse =>
    rw [ho]
    exact Loop.run_induction (PolishWalk.Exact n) (fun w step _ h => h.advance hn step)
      (PolishWalk.exact_start ho h) |>.traced

-- The outcome of polishing a valid graph.
structure Polished (lib : Crates) (args : PolishArgs) (n : Nat) (known : Finset GraphCid)
    (result : Option AdjacencyMatrix × Session) : Prop where
  sound : result.2.Sound lib n args.k args.ell known
  best  : ∀ best ∈ result.1, best.IsRamsey n args.k args.ell

theorem Polished.getD {result} (h : Polished lib args n known result) (hg : graph.IsRamsey n args.k args.ell) :
    (result.1.getD graph).IsRamsey n args.k args.ell := by
  cases hr : result.1
  case none      => exact hg
  case some best => exact h.best best hr

theorem mem_validEdges {m : Mirrors} {k ell n : Nat} {p : Nat × Nat} : p ∈ validEdges m k ell n ↔
    p ∈ pairs n ∧ (m.delta k ell p.1 p.2).1 + (m.delta k ell p.1 p.2).2 = 0 := by
  simp [validEdges]

section Valid

variable (hn : n ≤ 62) (hk : 2 ≤ args.k) (hl : 2 ≤ args.ell)
include hn hk hl

-- The walk from a valid graph reports valid graphs, and yields one if it yields any.
theorem polishValidGraph_polished (hg : graph.IsRamsey n args.k args.ell) (h : s.Sound lib n args.k args.ell known) :
    Polished lib args n known (polishValidGraph lib args graph s) := by
  rw [polishValidGraph]
  split
  case isTrue  => exact ⟨h, by simp⟩
  case isFalse =>
    rw [hg.order]
    let P (w : PolishWalk) : Prop := w.Exact n ∧ w.Valid lib args n known
    have ⟨he, hv⟩ := Loop.run_induction P (fun w step _ ⟨he, hv⟩ => ⟨he.advance hn step, hv.advance he hn hk hl step⟩)
      (l := List.range' 1 args.maxSteps) ⟨PolishWalk.exact_start hg.order h.traced, PolishWalk.valid_start hg h.reported⟩
    refine ⟨⟨he.traced, hv.reported⟩, fun best hb => ?_⟩
    dsimp only at hb
    split at hb
    case isTrue  => exact Option.some_inj.mp hb ▸ hv.best
    case isFalse => simp at hb

-- A random flip leads from a valid graph to a valid graph.
theorem perturbStep_spec {ms : Mirrors × Session} (hg : ms.1.graph.IsRamsey n args.k args.ell) (hc : ms.1.Consistent)
    (i : Nat) :
    let ms' := (perturbStep args.k args.ell n ms i).value
    ms'.1.graph.IsRamsey n args.k args.ell ∧ ms'.1.Consistent ∧ ms.2.Silent ms'.2 := by
  obtain ⟨m, s⟩ := ms
  rw [perturbStep]
  dsimp only
  split
  case isTrue => exact ⟨hg, hc, .refl s⟩
  case isFalse he =>
    have hm := s.choose_mem (show validEdges m args.k args.ell n ≠ [] by simpa using he)
    have hs := s.choose_silent (validEdges m args.k args.ell n)
    generalize s.choose (validEdges m args.k args.ell n) = choice at hm hs
    obtain ⟨⟨u, v⟩, s'⟩ := choice
    have ⟨hp, hd⟩ := mem_validEdges.mp hm
    obtain rfl := hg.order
    have hf := hc.ramseyFree_flip hn hp hk hl hg.toRamseyFree hd
    exact ⟨⟨hf, Mirrors.n_flip⟩, hc.flip hn hp, hs⟩

theorem perturbValid_spec (hg : graph.IsRamsey n args.k args.ell) (numFlips : Nat) (s : Session) :
    (perturbValid graph args.k args.ell numFlips s).1.IsRamsey n args.k args.ell ∧
      s.Silent (perturbValid graph args.k args.ell numFlips s).2 := by
  let P (ms : Mirrors × Session) : Prop :=
    ms.1.graph.IsRamsey n args.k args.ell ∧ ms.1.Consistent ∧ s.Silent ms.2
  suffices hp : P (Loop.run (perturbStep args.k args.ell n) (.ofGraph graph, s) (List.range numFlips)) by
    rw [perturbValid, hg.order]
    exact ⟨hp.1, hp.2.2⟩
  refine Loop.run_induction P ?_ ⟨hg, Mirrors.consistent_ofGraph graph, .refl s⟩
  intro ms i _ ⟨hg, hc, hs⟩
  have ⟨hg', hc', hs'⟩ := perturbStep_spec hn hk hl hg hc i
  exact ⟨hg', hc', hs.trans hs'⟩

end Valid

-- The walks start from valid graphs, and so do the perturbations.
structure IlsWalk.Valid (lib : Crates) (args : PolishArgs) (n : Nat) (known : Finset GraphCid) (w : IlsWalk) : Prop where
  current : w.current.IsRamsey n args.k args.ell
  best    : ∀ best ∈ w.bestGraph, best.IsRamsey n args.k args.ell
  sound   : w.session.Sound lib n args.k args.ell known

theorem IlsWalk.Valid.offer {w : IlsWalk} {localOpt : AdjacencyMatrix} (h : w.Valid lib args n known)
    (hg : localOpt.IsRamsey n args.k args.ell) (m : Nat) : (w.offer localOpt m).Valid lib args n known := by
  rw [IlsWalk.offer]
  split
  case isTrue  => exact ⟨h.current, by simpa using hg, h.sound⟩
  case isFalse => exact h

section Valid

variable (hn : n ≤ 62) (hk : 2 ≤ args.k) (hl : 2 ≤ args.ell)
include hn hk hl

theorem IlsWalk.Valid.restart {w : IlsWalk} (h : w.Valid lib args n known) (perturbEdges m i : Nat) :
    (w.restart lib args m perturbEdges i).Valid lib args n known := by
  have ⟨hg, hs⟩ := perturbValid_spec hn hk hl h.current perturbEdges w.session
  rw [IlsWalk.restart]
  generalize perturbValid w.current args.k args.ell perturbEdges w.session = perturbed at hg hs ⊢
  obtain ⟨perturbed, s⟩ := perturbed
  have hp := polishValidGraph_polished hn hk hl hg (h.sound.silent hs)
  dsimp only at hp ⊢
  generalize polishValidGraph lib args perturbed s = result at hp ⊢
  have hw : IlsWalk.Valid lib args n known { w with session := result.2 } := ⟨h.current, h.best, hp.sound⟩
  have ho := hw.offer (hp.getD hg) m
  exact ⟨hp.getD hg, ho.best, ho.sound⟩

theorem ilsPolish_polished (restarts perturbEdges : Nat) (hg : graph.IsRamsey n args.k args.ell)
    (h : s.Sound lib n args.k args.ell known) :
    Polished lib args n known (ilsPolish lib args restarts perturbEdges graph s) := by
  have hp := polishValidGraph_polished hn hk hl hg h
  rw [ilsPolish]
  split
  case isTrue  => exact hp
  case isFalse =>
    generalize polishValidGraph lib args graph s = result at hp
    obtain ⟨initial, s⟩ := result
    have hw (score : ValidScore) : IlsWalk.Valid lib args n known
        { current := initial.getD graph, bestGraph := none, bestScore := score, session := s } :=
      ⟨hp.getD hg, by simp, hp.sound⟩
    suffices hi : IlsWalk.Valid lib args n known (List.foldl (IlsWalk.restart lib args graph.n perturbEdges)
        (initial.elim _ (IlsWalk.offer _ · graph.n)) (List.range restarts)) from ⟨hi.sound, hi.best⟩
    refine Loop.foldl_induction _ (fun w i _ h => h.restart hn hk hl perturbEdges graph.n i) ?_
    cases initial
    case none      => exact hw _
    case some best => exact (hw _).offer (hp.best best rfl) _

end Valid
end Polish

-- What a walk shares with its search has no influence on where it goes.

structure MoveScan.Alike (scan scan' : MoveScan μ) : Prop where
  bestMove       : scan.bestMove = scan'.bestMove
  bestAspiration : scan.bestAspiration = scan'.bestAspiration

namespace PolishWalk

structure Alike (w w' : PolishWalk) : Prop where
  mirrors   : w.mirrors = w'.mirrors
  score     : w.score = w'.score
  bestGraph : w.bestGraph = w'.bestGraph
  bestScore : w.bestScore = w'.bestScore
  improved  : w.improved = w'.improved
  tabuUntil : w.tabuUntil = w'.tabuUntil

variable {w w' : PolishWalk}

namespace Alike

variable (h : w.Alike w') (lib : Crates) (args : PolishArgs) (n step iteration : Nat)
include h

theorem recount : (w.recount n).Alike (w'.recount n) where
  mirrors   := h.mirrors
  score     := congrArg (ScoreState.fromCounts · n) h.mirrors
  bestGraph := h.bestGraph
  bestScore := h.bestScore
  improved  := h.improved
  tabuUntil := h.tabuUntil

theorem evaluate {scan scan' : MoveScan PolishMove} (hs : scan.Alike scan') (p : Nat × Nat) :
    (w.evaluate args n step scan p).Alike (w'.evaluate { args with iteration } n step scan' p) := by
  simp only [PolishWalk.evaluate, h.mirrors, h.score, h.bestScore, h.tabuUntil]
  split
  case isTrue  => exact ⟨hs.bestMove, hs.bestAspiration⟩
  case isFalse =>
    exact ⟨by simp only [MoveScan.consider, hs.bestMove], by simp only [MoveScan.consider, hs.bestAspiration]⟩

theorem chosen_scan : (w.scan args n step).chosen PolishMove.score =
    (w'.scan { args with iteration } n step).chosen PolishMove.score := by
  have hs : (w.scan args n step).Alike (w'.scan { args with iteration } n step) :=
    List.foldl_rel (r := MoveScan.Alike) ⟨rfl, rfl⟩ fun p _ _ _ hs => h.evaluate args n step iteration hs p
  rw [MoveScan.chosen, MoveScan.chosen, hs.bestMove, hs.bestAspiration]

theorem apply (move : PolishMove) :
    (w.apply lib args n step move).Alike (w'.apply lib { args with iteration } n step move) where
  mirrors   := congrArg (Mirrors.flip · move.u move.v) h.mirrors
  score     := congrArg (ScoreState.applyDelta · move.delta) h.score
  bestGraph := by simp only [PolishWalk.apply, h.mirrors, h.bestGraph, h.bestScore]
  bestScore := by simp only [PolishWalk.apply, h.bestScore]
  improved  := by simp only [PolishWalk.apply, h.bestScore, h.improved]
  tabuUntil := by simp only [PolishWalk.apply, h.tabuUntil]

theorem advance : ∃ v v', v.Alike v' ∧
    (w.advance lib args n step = .done v ∧ w'.advance lib { args with iteration } n step = .done v' ∨
      w.advance lib args n step = .yield v ∧ w'.advance lib { args with iteration } n step = .yield v') := by
  have hr : (if step % 100 = 0 then w.recount n else w).Alike (if step % 100 = 0 then w'.recount n else w') := by
    split
    case isTrue  => exact h.recount n
    case isFalse => exact h
  rw [PolishWalk.advance, PolishWalk.advance]
  generalize (if step % 100 = 0 then w.recount n else w) = w at hr ⊢
  generalize (if step % 100 = 0 then w'.recount n else w') = w' at hr ⊢
  have hs (s s' : Session) : Alike { w with session := s } { w' with session := s' } :=
    ⟨hr.mirrors, hr.score, hr.bestGraph, hr.bestScore, hr.improved, hr.tabuUntil⟩
  simp only [hr.chosen_scan args n step iteration]
  cases (w'.scan { args with iteration } n step).chosen PolishMove.score
  case none      => exact ⟨_, _, hs _ _, .inl ⟨rfl, rfl⟩⟩
  case some move => exact ⟨_, _, (hs _ _).apply lib args n step iteration move, .inr ⟨rfl, rfl⟩⟩

end Alike
end PolishWalk

theorem polishValidGraph_congr (lib : Crates) (args : PolishArgs) (iteration : Nat) (graph : AdjacencyMatrix)
    (s s' : Session) :
    (polishValidGraph lib args graph s).1 = (polishValidGraph lib { args with iteration } graph s').1 := by
  rw [polishValidGraph, polishValidGraph]
  split
  case isTrue  => rfl
  case isFalse =>
    have h := Loop.run_rel PolishWalk.Alike (l := List.range' 1 args.maxSteps)
      (fun {_ _ step} h => h.advance lib args graph.n step iteration)
      (⟨rfl, rfl, rfl, rfl, rfl, rfl⟩ : (PolishWalk.start graph s).Alike (.start graph s'))
    simp only [h.improved, h.bestGraph]
