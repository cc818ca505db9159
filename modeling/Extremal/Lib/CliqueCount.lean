import Mathlib.Combinatorics.SimpleGraph.Clique
import Mathlib.Algebra.BigOperators.Group.Finset.Basic

-- Counting the cliques of a graph inside a finite set of vertices: by smallest vertex, through a
-- single edge, along an isomorphism and along an embedding of the vertices.

open Finset

namespace CliqueCount

open Classical in
noncomputable def cliquesIn (G : SimpleGraph α) (C : Finset α) (k : Nat) : Finset (Finset α) :=
  {s ∈ C.powersetCard k | G.IsClique s}

variable {G H : SimpleGraph α} {C : Finset α} {s : Finset α} {k : Nat}

theorem mem_cliquesIn : s ∈ cliquesIn G C k ↔ s ⊆ C ∧ #s = k ∧ G.IsClique s := by
  simp [cliquesIn, mem_powersetCard, and_assoc]

@[simp]
theorem cliquesIn_zero : cliquesIn G C 0 = {∅} := by
  ext s
  simp only [mem_cliquesIn, card_eq_zero, mem_singleton]
  constructor
  case mp  => exact (·.2.1)
  case mpr => rintro rfl; simp

theorem card_cliquesIn_zero : #(cliquesIn G C 0) = 1 := by
  simp

theorem card_cliquesIn_one : #(cliquesIn G C 1) = #C := by
  have : cliquesIn G C 1 = C.powersetCard 1 := by
    ext s
    simp only [mem_cliquesIn, mem_powersetCard, and_congr_right_iff, and_iff_left_iff_imp]
    intro _ h
    obtain ⟨v, rfl⟩ := card_eq_one.mp h
    simp
  rw [this, card_powersetCard, Nat.choose_one_right]

theorem exists_cliquesIn_two {a b : α} :
    (∃ s ∈ cliquesIn G C 2, a ∈ s ∧ b ∈ s ∧ a ≠ b) ↔ a ∈ C ∧ b ∈ C ∧ G.Adj a b := by
  classical
  constructor
  case mp =>
    intro ⟨s, hs, ha, hb, hn⟩
    have ⟨hs, _, hc⟩ := mem_cliquesIn.mp hs
    exact ⟨hs ha, hs hb, hc ha hb hn⟩
  case mpr =>
    intro ⟨ha, hb, h⟩
    refine ⟨{a, b}, mem_cliquesIn.mpr ⟨by simp [insert_subset_iff, ha, hb], card_pair h.ne, ?_⟩, by simp [h.ne]⟩
    simpa using fun _ => h

theorem card_cliquesIn_le : #(cliquesIn G C k) ≤ (#C).choose k := by
  rw [← card_powersetCard]
  exact card_le_card fun s hs => mem_powersetCard.mpr ⟨(mem_cliquesIn.mp hs).1, (mem_cliquesIn.mp hs).2.1⟩

theorem cliquesIn_eq_empty (h : #C < k) : cliquesIn G C k = ∅ := by
  refine card_eq_zero.mp <| Nat.le_zero.mp ?_
  exact card_cliquesIn_le.trans (Nat.choose_eq_zero_of_lt h).le

theorem cliquesIn_congr (h : ∀ v ∈ C, ∀ w ∈ C, G.Adj v w ↔ H.Adj v w) :
    cliquesIn G C k = cliquesIn H C k := by
  ext s
  simp only [mem_cliquesIn, and_congr_right_iff]
  intro hs _
  exact ⟨fun hc v hv w hw hn => h v (hs hv) w (hs hw) |>.mp <| hc hv hw hn,
         fun hc v hv w hw hn => h v (hs hv) w (hs hw) |>.mpr <| hc hv hw hn⟩

section Smallest

variable [LinearOrder α] [DecidableRel G.Adj]

theorem insert_mem_cliquesIn {v : α} (hv : v ∈ C) (hs : s ∈ cliquesIn G {w ∈ C | v < w ∧ G.Adj v w} k) :
    insert v s ∈ cliquesIn G C (k + 1) := by
  have ⟨hs, hk, hc⟩ := mem_cliquesIn.mp hs
  have hw : ∀ w ∈ s, w ∈ C ∧ v < w ∧ G.Adj v w := fun w h => mem_filter.mp (hs h)
  have hn : v ∉ s := fun h => lt_irrefl _ (hw v h).2.1
  refine mem_cliquesIn.mpr ⟨?_, by rw [card_insert_of_notMem hn, hk], ?_⟩
  · exact insert_subset hv fun w h => (hw w h).1
  · rw [coe_insert]
    exact hc.insert fun w h _ => (hw w h).2.2

-- Every clique of `k + 1` vertices is its smallest vertex together with a clique of `k` larger
-- neighbours of it.
theorem exists_insert_of_mem_cliquesIn (ht : s ∈ cliquesIn G C (k + 1)) :
    ∃ v ∈ C, ∃ t ∈ cliquesIn G {w ∈ C | v < w ∧ G.Adj v w} k, insert v t = s := by
  have ⟨hs, hk, hc⟩ := mem_cliquesIn.mp ht
  have hne : s.Nonempty := card_pos.mp (by omega)
  have hm := s.min'_mem hne
  refine ⟨s.min' hne, hs hm, s.erase (s.min' hne), ?_, insert_erase hm⟩
  refine mem_cliquesIn.mpr ⟨fun w hw => ?_, by rw [card_erase_of_mem hm, hk]; rfl, hc.subset (by simp)⟩
  have ⟨hn, hw⟩ := mem_erase.mp hw
  exact mem_filter.mpr ⟨hs hw, s.min'_lt_of_mem_erase_min' hne (mem_erase.mpr ⟨hn, hw⟩), hc hm hw hn.symm⟩

theorem card_cliquesIn_succ :
    #(cliquesIn G C (k + 1)) = ∑ v ∈ C, #(cliquesIn G {w ∈ C | v < w ∧ G.Adj v w} k) := by
  rw [← card_sigma]
  symm
  have above {v : α} {s} (h : s ∈ cliquesIn G {w ∈ C | v < w ∧ G.Adj v w} k) : ∀ w ∈ s, v < w :=
    fun w hw => (mem_filter.mp <| (mem_cliquesIn.mp h).1 hw).2.1
  refine card_bij (fun p _ => insert p.1 p.2) ?maps ?inj ?surj
  case maps =>
    intro ⟨v, s⟩ h
    have ⟨hv, hs⟩ := mem_sigma.mp h
    exact insert_mem_cliquesIn hv hs
  case inj =>
    intro ⟨v₁, s₁⟩ h₁ ⟨v₂, s₂⟩ h₂ (he : insert v₁ s₁ = insert v₂ s₂)
    replace h₁ := above (mem_sigma.mp h₁).2
    replace h₂ := above (mem_sigma.mp h₂).2
    have hv : v₁ = v₂ := by
      have m₁ : v₁ ∈ insert v₂ s₂ := he ▸ mem_insert_self ..
      have m₂ : v₂ ∈ insert v₁ s₁ := he ▸ mem_insert_self ..
      rcases mem_insert.mp m₁ with h | h
      · exact h
      · rcases mem_insert.mp m₂ with h' | h'
        · exact h'.symm
        · exact absurd (h₁ _ h') (h₂ _ h).asymm
    subst hv
    have n₁ : v₁ ∉ s₁ := fun h => lt_irrefl _ (h₁ _ h)
    have n₂ : v₁ ∉ s₂ := fun h => lt_irrefl _ (h₂ _ h)
    rw [← erase_insert n₁, he, erase_insert n₂]
  case surj =>
    intro t ht
    have ⟨v, hv, s, hs, he⟩ := exists_insert_of_mem_cliquesIn ht
    exact ⟨⟨v, s⟩, mem_sigma.mpr ⟨hv, hs⟩, he⟩

theorem exists_cliquesIn_succ {P : Finset α → Prop} : (∃ s ∈ cliquesIn G C (k + 1), P s) ↔
    ∃ v ∈ C, ∃ s ∈ cliquesIn G {w ∈ C | v < w ∧ G.Adj v w} k, P (insert v s) := by
  constructor
  case mp =>
    intro ⟨t, ht, hp⟩
    obtain ⟨v, hv, s, hs, rfl⟩ := exists_insert_of_mem_cliquesIn ht
    exact ⟨v, hv, s, hs, hp⟩
  case mpr => exact fun ⟨v, hv, s, hs, hp⟩ => ⟨insert v s, insert_mem_cliquesIn hv hs, hp⟩

end Smallest

section Edge

variable {u v : α}

-- `H` has the edge between `u` and `v`, `G` does not, and they agree on all other pairs.
structure AddsEdge (G H : SimpleGraph α) (u v : α) : Prop where
  absent  : ¬G.Adj u v
  present : H.Adj u v
  others  : ∀ a b, s(a, b) ≠ s(u, v) → (G.Adj a b ↔ H.Adj a b)

namespace AddsEdge

variable (e : AddsEdge G H u v)
include e

theorem ne : u ≠ v :=
  e.present.ne

theorem le : G ≤ H := by
  intro a b h
  refine e.others a b ?_ |>.mp h
  intro he
  cases Sym2.eq_iff.mp he <;> simp_all [e.absent, G.adj_comm]

-- A clique of `H` that does not contain both ends of the added edge is one of `G`.
theorem isClique_iff (h : ¬(u ∈ s ∧ v ∈ s)) : H.IsClique s ↔ G.IsClique s := by
  constructor
  case mpr => exact (SimpleGraph.IsClique.mono e.le ·)
  case mp =>
    intro hc a ha b hb hn
    refine e.others a b ?_ |>.mpr <| hc ha hb hn
    intro he
    cases Sym2.eq_iff.mp he <;> simp_all

theorem common_adj_iff {w : α} : (G.Adj u w ∧ G.Adj v w) ↔ (H.Adj u w ∧ H.Adj v w) := by
  by_cases hu : w = u
  case pos => subst hu; simp
  by_cases hv : w = v
  case pos => subst hv; simp
  rw [e.others u w, e.others v w] <;> simp_all [e.ne]

-- The cliques among the common neighbours are the same in both graphs.
theorem cliquesIn_common [DecidableRel G.Adj] [DecidableRel H.Adj] :
    cliquesIn H {w ∈ C | H.Adj u w ∧ H.Adj v w} k = cliquesIn G {w ∈ C | G.Adj u w ∧ G.Adj v w} k := by
  have hf : {w ∈ C | H.Adj u w ∧ H.Adj v w} = {w ∈ C | G.Adj u w ∧ G.Adj v w} :=
    filter_congr fun w _ => e.common_adj_iff.symm
  rw [hf]
  refine cliquesIn_congr fun a ha b hb => e.others a b ?_ |>.symm
  intro he
  have ha := (mem_filter.mp ha).2
  have hb := (mem_filter.mp hb).2
  rcases Sym2.eq_iff.mp he with ⟨rfl, rfl⟩ | ⟨rfl, rfl⟩
  · exact G.irrefl ha.1
  · exact G.irrefl hb.1

variable [DecidableEq α]

section Pair

variable [DecidableRel G.Adj] {s t : Finset α}

theorem fresh (h : s ∈ cliquesIn G {w ∈ C | G.Adj u w ∧ G.Adj v w} k) : u ∉ insert v s ∧ v ∉ s := by
  have common (w) (hw : w ∈ s) : G.Adj u w ∧ G.Adj v w := (mem_filter.mp <| (mem_cliquesIn.mp h).1 hw).2
  refine ⟨fun h' => ?_, fun h' => (common v h').2.ne rfl⟩
  cases mem_insert.mp h'
  case inl h' => exact e.ne h'
  case inr h' => exact (common u h').1.ne rfl

-- The ends of the edge extend a clique of common neighbours, and they can be removed again.
theorem insert_mem_cliquesIn (hu : u ∈ C) (hv : v ∈ C) (h : s ∈ cliquesIn G {w ∈ C | G.Adj u w ∧ G.Adj v w} k) :
    insert u (insert v s) ∈ cliquesIn H C (k + 2) := by
  have ⟨hs, hk, hc⟩ := mem_cliquesIn.mp h
  have common (w) (hw : w ∈ s) : w ∈ C ∧ G.Adj u w ∧ G.Adj v w := mem_filter.mp <| hs hw
  refine mem_cliquesIn.mpr ⟨?_, ?_, ?_⟩
  · exact insert_subset hu <| insert_subset hv fun w hw => (common w hw).1
  · rw [card_insert_of_notMem (e.fresh h).1, card_insert_of_notMem (e.fresh h).2, hk]
  · simp only [coe_insert]
    refine (hc.mono e.le).insert (fun w hw _ => e.le (common w hw).2.2) |>.insert fun w hw _ => ?_
    rcases hw with rfl | hw
    · exact e.present
    · exact e.le (common w hw).2.1

theorem erase_mem_cliquesIn (h : t ∈ cliquesIn H C (k + 2)) (hu : u ∈ t) (hv : v ∈ t) :
    (t.erase u).erase v ∈ cliquesIn G {w ∈ C | G.Adj u w ∧ G.Adj v w} k := by
  have ⟨ht, hk, hc⟩ := mem_cliquesIn.mp h
  refine mem_cliquesIn.mpr ⟨fun w hw => ?_, ?_, ?_⟩
  · simp only [mem_erase] at hw
    refine mem_filter.mpr ⟨ht hw.2.2, e.common_adj_iff.mpr ⟨?_, ?_⟩⟩
    · exact hc hu hw.2.2 (Ne.symm hw.2.1)
    · exact hc hv hw.2.2 (Ne.symm hw.1)
  · rw [card_erase_of_mem (mem_erase.mpr ⟨e.ne.symm, hv⟩), card_erase_of_mem hu, hk]; rfl
  · exact (e.isClique_iff <| by simp).mp <| hc.subset fun w hw => by simp_all

theorem card_filter_pair (hu : u ∈ C) (hv : v ∈ C) :
    #{s ∈ cliquesIn H C (k + 2) | u ∈ s ∧ v ∈ s} = #(cliquesIn G {w ∈ C | G.Adj u w ∧ G.Adj v w} k) := by
  symm
  refine card_bij (fun s _ => insert u (insert v s)) ?maps ?inj ?surj
  case maps =>
    intro s h
    exact mem_filter.mpr ⟨e.insert_mem_cliquesIn hu hv h, by simp⟩
  case inj =>
    intro s₁ h₁ s₂ h₂ he
    rw [← erase_insert (e.fresh h₁).2, ← erase_insert (e.fresh h₁).1, he, erase_insert (e.fresh h₂).1,
      erase_insert (e.fresh h₂).2]
  case surj =>
    intro t ht
    have ⟨ht, htu, htv⟩ := mem_filter.mp ht
    refine ⟨(t.erase u).erase v, e.erase_mem_cliquesIn ht htu htv, ?_⟩
    rw [insert_erase (mem_erase.mpr ⟨e.ne.symm, htv⟩), insert_erase htu]

end Pair

-- Adding an edge adds the cliques that consist of its ends and a clique of common neighbours.
theorem card_cliquesIn (hu : u ∈ C) (hv : v ∈ C) [DecidableRel G.Adj] :
    #(cliquesIn H C (k + 2)) =
      #(cliquesIn G C (k + 2)) + #(cliquesIn G {w ∈ C | G.Adj u w ∧ G.Adj v w} k) := by
  rw [← card_filter_add_card_filter_not (s := cliquesIn H C (k + 2)) (fun s => u ∈ s ∧ v ∈ s)]
  rw [e.card_filter_pair hu hv, add_comm]
  congr 2
  ext s
  simp only [mem_filter, mem_cliquesIn]
  constructor
  case mp  => exact fun ⟨⟨hs, hk, hc⟩, hn⟩ => ⟨hs, hk, (e.isClique_iff hn).mp hc⟩
  case mpr =>
    intro ⟨hs, hk, hc⟩
    have hn : ¬(u ∈ s ∧ v ∈ s) := fun ⟨hu, hv⟩ => e.absent <| hc hu hv e.ne
    exact ⟨⟨hs, hk, (e.isClique_iff hn).mpr hc⟩, hn⟩

end AddsEdge
end Edge

theorem isClique_map {G : SimpleGraph α} {H : SimpleGraph β} {f : α ↪ β} {s : Finset α}
    (hf : ∀ a b, G.Adj a b → H.Adj (f a) (f b)) (hc : G.IsClique s) : H.IsClique (s.map f) := by
  intro a ha b hb hn
  simp only [coe_map, Set.mem_image, mem_coe] at ha hb
  obtain ⟨a, ha, rfl⟩ := ha
  obtain ⟨b, hb, rfl⟩ := hb
  exact hf a b <| hc ha hb fun h => hn (h ▸ rfl)

section Finite

variable [Fintype α] [DecidableEq α]

omit [DecidableEq α] in
theorem mem_cliquesIn_map {G : SimpleGraph β} (f : α ↪ β) {t : Finset β} :
    t ∈ cliquesIn G (univ.map f) k ↔ ∃ s, (G.comap f).IsNClique k s ∧ s.map f = t := by
  rw [mem_cliquesIn]
  constructor
  case mp =>
    intro ⟨ht, hk, hc⟩
    obtain ⟨s, -, rfl⟩ := subset_map_iff.mp ht
    refine ⟨s, ⟨?_, by rwa [card_map] at hk⟩, rfl⟩
    exact fun a ha b hb hn => hc (by simpa using ha) (by simpa using hb) (f.injective.ne hn)
  case mpr =>
    rintro ⟨s, ⟨hc, hk⟩, rfl⟩
    exact ⟨map_subset_map.mpr (subset_univ s), by rw [card_map, hk], isClique_map (fun _ _ => id) hc⟩

theorem card_cliquesIn_map {G : SimpleGraph β} (f : α ↪ β) [DecidableRel (G.comap f).Adj] :
    #(cliquesIn G (univ.map f) k) = #((G.comap f).cliqueFinset k) := by
  symm
  refine card_bij (fun s _ => s.map f) ?maps ?inj ?surj
  case maps => exact fun s hs => mem_cliquesIn_map f |>.mpr ⟨s, (SimpleGraph.mem_cliqueFinset_iff ..).mp hs, rfl⟩
  case inj  => exact fun s₁ _ s₂ _ h => map_injective f h
  case surj =>
    intro t ht
    have ⟨s, hs, he⟩ := mem_cliquesIn_map f |>.mp ht
    exact ⟨s, (SimpleGraph.mem_cliqueFinset_iff ..).mpr hs, he⟩

section Iso

variable [Fintype β] [DecidableEq β] {G : SimpleGraph α} {H : SimpleGraph β} [DecidableRel G.Adj] [DecidableRel H.Adj]

theorem card_cliqueFinset_le_iso (e : G ≃g H) : #(G.cliqueFinset k) ≤ #(H.cliqueFinset k) := by
  refine card_le_card_of_injOn (·.map e.toEquiv.toEmbedding) (fun s hs => ?_) fun _ _ _ _ h => map_injective _ h
  have ⟨hc, hk⟩ := (SimpleGraph.mem_cliqueFinset_iff ..).mp hs
  refine (SimpleGraph.mem_cliqueFinset_iff ..).mpr ⟨?_, by rw [card_map, hk]⟩
  exact isClique_map (fun _ _ => e.map_adj_iff.mpr) hc

theorem card_cliqueFinset_iso (e : G ≃g H) : #(G.cliqueFinset k) = #(H.cliqueFinset k) :=
  (card_cliqueFinset_le_iso e).antisymm (card_cliqueFinset_le_iso e.symm)

end Iso

end Finite

def complIso {G : SimpleGraph α} {H : SimpleGraph β} (e : G ≃g H) : Gᶜ ≃g Hᶜ where
  toEquiv     := e.toEquiv
  map_rel_iff' := by simp [SimpleGraph.compl_adj, e.map_adj_iff]

end CliqueCount
