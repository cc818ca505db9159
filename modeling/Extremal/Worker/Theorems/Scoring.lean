import Extremal.Scoring.Theorems.Score
import Extremal.Server.Theorems.Submit
import Extremal.Worker.Scoring
import Extremal.Worker.Theorems.Gate

open Lexicographic Leaderboard AdjacencyMatrix

namespace Engine

variable {lib : Crates} {hex : Hex} {graph : AdjacencyMatrix} {strategyConfig : Json}

-- For the same bound on the clique sizes the worker and the server compute the same score.
theorem score_eq (lib : Crates) (graph : AdjacencyMatrix) (maxK : Nat) :
    score lib graph.n maxK graph = (scoreGraph lib graph maxK).score :=
  rfl

-- The lengths of the two codes already tell their bounds apart.
theorem maxK_eq_of_scoreBytes {k : Nat} (hk : 3 ≤ maxK strategyConfig) (hk' : 3 ≤ k)
    (h : scoreBytes lib strategyConfig graph.n graph = ⟨(scoreGraph lib graph k).score.toScoreBytes k⟩) :
    maxK strategyConfig = k := by
  have hl := congrArg (·.symbols.length) h
  simp only [scoreBytes, GraphScore.length_toScoreBytes] at hl
  omega

-- The worker and the server agree on a graph if and only if the target of the worker is the bound of the
-- server: then they compute the same bytes, and with the true threshold of a full board the gate drops
-- exactly the new graphs that the board refuses.
theorem agrees_with_server_iff (hpos : 1 ≤ graph.n) (hn : graph.n ≤ 62) {maxN : Nat} (hN : graph.n ≤ maxN)
    (htarget : 3 ≤ maxK strategyConfig) {serverMaxK : Nat} (hserver : 3 ≤ serverMaxK) :
    (∃ cid bytes, submitScore lib hex maxN serverMaxK graph.n (Graph6.encode graph) = .ok (cid, bytes) ∧
      scoreBytes lib strategyConfig graph.n graph = bytes ∧
      ∀ (table : Leaderboard) (offer : Offer) (gate : Gate) T, offer.cid = cid → offer.scoreBytes = bytes →
        cid ∉ table.cids offer.n → offer.capacity.toInt ≤ table.rows.leaderboardCount offer.n →
        IsGreatest (table.rows.scores offer.n) T → gate.leaderboardFull → gate.thresholdScoreBytes = some T →
        (gate.drops (scoreBytes lib strategyConfig graph.n graph) ↔ (offer.tryAdmit table).1 = none)) ↔
    maxK strategyConfig = serverMaxK := by
  have hs : submitScore lib hex maxN serverMaxK graph.n (Graph6.encode graph) = _ := submitScore_encode hpos hn hN
  constructor
  case mp =>
    intro ⟨cid, bytes, hok, hbytes, _⟩
    cases hs.symm.trans hok
    exact maxK_eq_of_scoreBytes htarget hserver hbytes
  case mpr =>
    intro hk
    have hb : scoreBytes lib strategyConfig graph.n graph =
        ⟨(scoreGraph lib graph serverMaxK).score.toScoreBytes serverMaxK⟩ := by
      rw [scoreBytes, hk, score_eq]
    refine ⟨_, _, hs, hb, fun table offer gate T hc ho hnew hf hT hg hg' => ?_⟩
    rw [hb, ← ho, Gate.drops_iff hg hg', Offer.tryAdmit_eq_none_iff (hc ▸ hnew) hf hT]

open ReferenceNauty

def withTarget (k : UInt64) : Json :=
  .object [("target_k", .posInt k)]

-- The call for a graph on 3 vertices that a server with the bound 5 makes.
def serverOffer (graph : AdjacencyMatrix) : Offer where
  n          := 3
  cid        := ReferenceHex.hex.encode (scoreGraph crates graph 5).score.cid.bytes
  keyId      := "key"
  scoreBytes := ⟨(scoreGraph crates graph 5).score.toScoreBytes 5⟩
  capacity   := 1
  now        := 0
  scan       := .heap

-- A worker with the target 3 drops the path although the board would exchange the triangle for it.
theorem target3_drops_path3 :
    let table := Leaderboard.empty.admitAll [serverOffer triangle]
    let gate : Gate := ⟨true, some (serverOffer triangle).scoreBytes⟩
    submitScore crates ReferenceHex.hex 62 5 3 (Graph6.encode path3) =
      .ok ((serverOffer path3).cid, (serverOffer path3).scoreBytes) ∧
    scoreBytes crates (withTarget 3) 3 path3 ≠ (serverOffer path3).scoreBytes ∧
    table.rows.board 3 = [(serverOffer triangle).entry 1] ∧
    gate.drops (scoreBytes crates (withTarget 3) 3 path3) ∧
    ((serverOffer path3).tryAdmit table).1 = some 1 := by
  exact ⟨submitScore_encode (m := path3) (by decide) (by decide) (by decide), by decide +kernel, by decide +kernel,
    by decide +kernel, by decide +kernel⟩

-- With the target 5 it drops exactly what the board refuses.
theorem target5_drops_triangle :
    let table := Leaderboard.empty.admitAll [serverOffer path3]
    let gate : Gate := ⟨true, some (serverOffer path3).scoreBytes⟩
    gate.drops (scoreBytes crates (withTarget 5) 3 triangle) ↔ ((serverOffer triangle).tryAdmit table).1 = none := by
  intro table gate
  have hN : triangle.n ≤ 62 := by decide
  have hs : submitScore crates ReferenceHex.hex 62 5 3 (Graph6.encode triangle) = _ :=
    submitScore_encode (m := triangle) (by decide) hN hN
  have ⟨cid, bytes, hok, _, hgate⟩ := (@agrees_with_server_iff crates ReferenceHex.hex triangle (withTarget 5)
    (by decide) hN 62 hN (by decide) 5 (by decide)).mpr rfl
  cases hs.symm.trans hok
  have hboard : table.rows.board 3 = [(serverOffer path3).entry 1] := by decide +kernel
  have hT : IsGreatest (table.rows.scores 3) (serverOffer path3).scoreBytes := by
    simp [Rows.scores, hboard, IsGreatest, Offer.entry]
  exact hgate table (serverOffer triangle) gate _ rfl rfl (by decide +kernel) (by decide +kernel) hT rfl rfl

end Engine
