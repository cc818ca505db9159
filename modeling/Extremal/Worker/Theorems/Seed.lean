import Extremal.Strategies.Theorems.Paley
import Extremal.Worker.Seed

open AdjacencyMatrix Finset

-- The pairs of vertices at which two graphs differ.
def AdjacencyMatrix.diff (graph graph' : AdjacencyMatrix) : Finset (Nat × Nat) :=
  {p ∈ (pairs graph.n).toFinset | graph.edge p.1 p.2 ≠ graph'.edge p.1 p.2}

section Perturb

variable {graph g : AdjacencyMatrix} {noiseFlips : Nat} {rng : Nat → Nat}

-- A flip draws the pair of `a` and `b`.
def draws (n : Nat) (rng : Nat → Nat) (a b flip : Nat) : Bool :=
  s(a, b) = s((perturbPair n rng flip).1, (perturbPair n rng flip).2)

theorem perturbFlip_spec {n a b : Nat} (hg : g.n = n) (ha : a < n) (hb : b < n) (hab : a ≠ b) (flip : Nat) :
    (perturbFlip n rng g flip).n = n ∧ (perturbFlip n rng g flip).edge a b = (g.edge a b ^^ draws n rng a b flip) := by
  have hi : (perturbPair n rng flip).1 < n := Nat.mod_lt _ (by omega)
  have hj : (perturbPair n rng flip).2 < n := Nat.mod_lt _ (by omega)
  rw [perturbFlip, draws]
  subst hg
  generalize perturbPair g.n rng flip = p at hi hj
  obtain ⟨i, j⟩ := p
  dsimp only at hi hj ⊢
  split
  case isFalse he =>
    have : ¬s(a, b) = s(i, j) := by grind
    simp [this]
  case isTrue he =>
    rw [n_setEdge, edge_setEdge he hi hj ha hb]
    refine ⟨rfl, ?_⟩
    split
    case isFalse hs => simp [hs]
    case isTrue hs  =>
      have : g.edge a b = g.edge i j := by
        obtain ⟨rfl, rfl⟩ | ⟨rfl, rfl⟩ := Sym2.eq_iff.mp hs
        case inl => rfl
        case inr => exact g.edge_comm ..
      simp [hs, this]

theorem perturb?_isSome (h : graph.n ≠ 0) (noiseFlips : Nat) (rng : Nat → Nat) :
    ∃ g, perturb? graph noiseFlips rng = some g := by
  simp [perturb?, h]

-- A pair changes if it is drawn an odd number of times.
theorem perturb?_spec (h : perturb? graph noiseFlips rng = some g) : g.n = graph.n ∧
    ∀ a b, a < graph.n → b < graph.n → a ≠ b →
      g.edge a b = (graph.edge a b ^^ ((List.range noiseFlips).countP (draws graph.n rng a b)).bodd) := by
  rw [perturb?] at h
  have ⟨_, h⟩ := Option.ite_none_left_eq_some.mp h
  cases h
  constructor
  case left =>
    refine Loop.foldl_induction (fun g : AdjacencyMatrix => g.n = graph.n) (fun g flip _ hg => ?_) rfl
    simp only [perturbFlip]
    split
    case isTrue  => rw [n_setEdge, hg]
    case isFalse => exact hg
  case right =>
    intro a b ha hb hab
    let P (g : AdjacencyMatrix) : Prop := g.n = graph.n
    exact Loop.foldl_xor P (·.edge a b) _ (fun g flip _ hg => perturbFlip_spec hg ha hb hab flip) rfl |>.2

theorem card_diff_perturb? (h : perturb? graph noiseFlips rng = some g) : #(graph.diff g) ≤ noiseFlips := by
  obtain ⟨_, he⟩ := perturb?_spec h
  let pair (flip : Nat) : Nat × Nat :=
    let drawn := perturbPair graph.n rng flip
    (min drawn.1 drawn.2, max drawn.1 drawn.2)
  suffices hs : graph.diff g ⊆ (range noiseFlips).image pair from
    (card_le_card hs).trans <| card_image_le.trans_eq <| card_range _
  rintro ⟨a, b⟩ hm
  simp only [AdjacencyMatrix.diff, mem_filter, List.mem_toFinset, mem_pairs] at hm
  obtain ⟨⟨hlt, hb⟩, hne⟩ := hm
  rw [he a b (hlt.trans hb) hb hlt.ne] at hne
  obtain ⟨flip, hf, hd⟩ : ∃ flip ∈ List.range noiseFlips, draws graph.n rng a b flip := by
    rw [← List.countP_pos_iff, Nat.pos_iff_ne_zero]
    intro h₀
    simp [h₀] at hne
  rw [List.mem_range] at hf
  refine mem_image.mpr ⟨flip, mem_range.mpr hf, ?_⟩
  rw [draws, decide_eq_true_eq] at hd
  simp only [pair]
  grind

end Perturb

section Seed

variable {serverGraphs : List (List UInt8)} {n noiseFlips : Nat} {rng : Nat → Nat} {base : AdjacencyMatrix}

-- The index is that of a graph.
theorem pickIndex_lt {count : Nat} (h : 0 < count) (sampleBias : Float) (bits : Nat) : pickIndex count sampleBias bits < count := by
  rw [pickIndex]
  split
  case isTrue  => exact (min_le_right ..).trans_lt (by omega)
  case isFalse => exact Nat.mod_lt _ h

theorem pickFetched?_cases (serverGraphs : List (List UInt8)) (sampleBias : Float) (bits : Nat) :
    pickFetched? serverGraphs sampleBias bits = some none ∨
      ∃ g6 ∈ serverGraphs, ∃ base, Graph6.decode g6 = .ok base ∧ pickFetched? serverGraphs sampleBias bits = some (some base) := by
  rw [pickFetched?]
  split
  case isTrue     => exact .inl rfl
  case isFalse he =>
    rw [List.isEmpty_iff] at he
    have hi := pickIndex_lt (List.length_pos_of_ne_nil he) sampleBias bits
    rw [List.getElem?_eq_getElem hi, Option.bind_eq_bind, Option.bind_some]
    split
    case h_1 base hd => exact .inr ⟨_, List.getElem_mem hi, base, hd, rfl⟩
    case h_2         => exact .inl rfl

theorem exists_paleyGraph? (h : n ≤ 4294311893) : ∃ base, paleyGraph? n = some base ∧ base.n = n := by
  have ⟨p, hp⟩ := exists_paleyPrime?_iff.mpr (max_le h (by decide : 5 ≤ 4294311893))
  exact ⟨_, paleyGraph?_some.mpr ⟨p, hp, rfl⟩, n_ofAdj ..⟩

theorem withNoise?_near (h : base.n ≠ 0) (noiseFlips : Nat) (rng : Nat → Nat) :
    ∃ g, withNoise? noiseFlips rng base = some g ∧ g.n = base.n ∧ #(base.diff g) ≤ noiseFlips := by
  rw [withNoise?]
  split
  case isTrue  =>
    have ⟨g, hg⟩ := perturb?_isSome h noiseFlips rng
    exact ⟨g, hg, (perturb?_spec hg).1, card_diff_perturb? hg⟩
  case isFalse => exact ⟨base, rfl, rfl, by simp [AdjacencyMatrix.diff]⟩

-- The seed comes from a graph of the leaderboard, or else from the Paley graph, and only the noise tells it from
-- that graph.
theorem pickSeed?_near (hn : n ≠ 0) (hle : n ≤ 4294311893)
    (hs : ∀ g6 ∈ serverGraphs, ∀ base, Graph6.decode g6 = .ok base → base.n = n) (sampleBias : Float) (noiseFlips : Nat)
    (rng : Nat → Nat) :
    ∃ base g, ((∃ g6 ∈ serverGraphs, Graph6.decode g6 = .ok base) ∨ paleyGraph? n = some base) ∧
      pickSeed? serverGraphs n sampleBias noiseFlips rng = some g ∧ base.n = n ∧ g.n = n ∧ #(base.diff g) ≤ noiseFlips := by
  rw [pickSeed?]
  obtain hf | ⟨g6, hm, base, hd, hf⟩ := pickFetched?_cases serverGraphs sampleBias (rng 0) <;> rw [hf]
  case inl =>
    have ⟨base, hp, hb⟩ := exists_paleyGraph? hle
    have ⟨g, hg, ho, hc⟩ := withNoise?_near (hb ▸ hn) noiseFlips fun i => rng (i + 1)
    refine ⟨base, g, .inr hp, ?_, hb, ho.trans hb, hc⟩
    rw [hp]
    exact hg
  case inr =>
    have hb := hs g6 hm base hd
    have ⟨g, hg, ho, hc⟩ := withNoise?_near (hb ▸ hn) noiseFlips fun i => rng (i + 1)
    exact ⟨base, g, .inl ⟨g6, hm, hd⟩, hg, hb, ho.trans hb, hc⟩

theorem decode_triangle : Graph6.decode [66, 119] = .ok (Graph6.fromColumnBits 3 (Graph6.unpackByte 56)) := by
  decide

theorem triangle_pickSeed?_near :
    ∃ base g, ((∃ g6 ∈ [[66, 119]], Graph6.decode g6 = .ok base) ∨ paleyGraph? 3 = some base) ∧
      pickSeed? [[66, 119]] 3 0.0 2 id = some g ∧ base.n = 3 ∧ g.n = 3 ∧ #(base.diff g) ≤ 2 :=
  pickSeed?_near (by decide) (by decide) (by
    intro g6 hm base hd
    cases List.mem_singleton.mp hm
    cases decode_triangle.symm.trans hd
    decide) 0.0 2 id

end Seed
