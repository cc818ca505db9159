import Extremal.Lib.Loop
import Extremal.Strategies.Init
import Extremal.Strategies.Theorems.Mirrors

-- An observation on graphs of `n` vertices that shows no drift.
def Event.Sound (n : Nat) : Event → Prop
  | held m counters         => m.graph.n = n ∧ m.Consistent ∧ ∀ c ∈ counters, c.count = c.recount m
  | clamped count           => max count 0 = count
  | recounted before after  => before = after
  | drifted                 => False

namespace Session

def Traced (n : Nat) (s : Session) : Prop :=
  ∀ e ∈ s.events, e.Sound n

-- The reports of a search for `k` and `ell` that knew the CIDs in `known` when it started.
structure Reported (lib : Crates) (n k ell : Nat) (known : Finset GraphCid) (s : Session) : Prop where
  valid    : ∀ d ∈ s.discoveries, d.graph.IsRamsey n k ell
  novel    : ∀ d ∈ s.discoveries, canonicalCid lib d.graph ∉ known
  recorded : ∀ d ∈ s.discoveries, canonicalCid lib d.graph ∈ s.knownCids
  distinct : (s.discoveries.map fun d => canonicalCid lib d.graph).Nodup
  subset   : known ⊆ s.knownCids

-- The sessions differ in the random numbers, the observer's answers and the progress only.
structure Silent (s s' : Session) : Prop where
  events      : s'.events = s.events
  discoveries : s'.discoveries = s.discoveries
  knownCids   : s'.knownCids = s.knownCids

section Silent

variable {s s' s'' : Session}

theorem Silent.refl (s : Session) : s.Silent s :=
  ⟨rfl, rfl, rfl⟩

theorem Silent.trans (h : s.Silent s') (h' : s'.Silent s'') : s.Silent s'' where
  events      := h'.events.trans h.events
  discoveries := h'.discoveries.trans h.discoveries
  knownCids   := h'.knownCids.trans h.knownCids

theorem isCancelled_silent (s : Session) : s.Silent s.isCancelled.2 :=
  ⟨rfl, rfl, rfl⟩

theorem genIndex_silent (s : Session) (bound : Nat) : s.Silent (s.genIndex bound).2 :=
  ⟨rfl, rfl, rfl⟩

theorem genBool_silent (s : Session) : s.Silent s.genBool.2 :=
  s.genIndex_silent 2

theorem choose_silent (s : Session) (edges : List (Nat × Nat)) : s.Silent (s.choose edges).2 :=
  s.genIndex_silent edges.length

theorem reportProgress_silent (s : Session) (info : ProgressInfo) : s.Silent (s.reportProgress info) :=
  ⟨rfl, rfl, rfl⟩

theorem partialShuffle_silent (s : Session) (l : List Nat) (amount : Nat) :
    s.Silent (s.partialShuffle l amount).2 :=
  Loop.foldl_induction (fun ls : List Nat × Session => s.Silent ls.2)
    (fun ls i _ h => h.trans <| ls.2.genIndex_silent (i + 1)) (Silent.refl s)

end Silent

-- Since `s`, the session has only logged sound observations.
def Extends (n : Nat) (s s' : Session) : Prop :=
  ∃ events, (∀ e ∈ events, e.Sound n) ∧ s' = s.log events

section Extends

variable {n : Nat} {s s' : Session}

theorem Extends.refl (n : Nat) (s : Session) : s.Extends n s :=
  ⟨[], by simp, by simp [Session.log]⟩

theorem Extends.log (h : s.Extends n s') {events : List Event} (he : ∀ e ∈ events, e.Sound n) :
    s.Extends n (s'.log events) := by
  obtain ⟨es, hes, rfl⟩ := h
  refine ⟨es ++ events, ?_, by simp [Session.log]⟩
  simpa [or_imp, forall_and] using ⟨hes, he⟩

end Extends

section Draws

variable {s : Session}

theorem choose_mem {edges : List (Nat × Nat)} (h : edges ≠ []) : (s.choose edges).1 ∈ edges :=
  getD_mem <| Nat.mod_lt _ <| List.length_pos_of_ne_nil h

theorem length_swap {l : List Nat} {i j : Nat} : (swap l i j).length = l.length := by
  simp [swap]

theorem mem_of_mem_swap {l : List Nat} {i j : Nat} (hi : i < l.length) (hj : j < l.length) {x : Nat}
    (h : x ∈ swap l i j) : x ∈ l := by
  rcases List.mem_or_eq_of_mem_set h with h | rfl
  case inr => exact getD_mem hi
  rcases List.mem_or_eq_of_mem_set h with h | rfl
  case inl => exact h
  case inr => exact getD_mem hj

-- The shuffle selects elements of the list.
theorem mem_of_mem_partialShuffle {l : List Nat} {amount x : Nat} (h : x ∈ (s.partialShuffle l amount).1) :
    x ∈ l := by
  let P (ls : List Nat × Session) : Prop := ls.1.length = l.length ∧ ∀ x ∈ ls.1, x ∈ l
  refine (Loop.foldl_induction P ?_ ⟨rfl, fun _ => id⟩).2 x <| List.mem_of_mem_drop h
  intro ls i hi ⟨hl, hm⟩
  have hi : i < l.length := by simp at hi; omega
  have hj : (ls.2.genIndex (i + 1)).1 < i + 1 := Nat.mod_lt _ i.succ_pos
  exact ⟨length_swap.trans hl, fun x hx => hm x <| mem_of_mem_swap (by omega) (by omega) hx⟩

end Draws

namespace Traced

variable {n : Nat} {s s' : Session} (h : s.Traced n)
include h

theorem silent (hs : s.Silent s') : s'.Traced n := by
  rwa [Traced, hs.events]

theorem log {events : List Event} (he : ∀ e ∈ events, e.Sound n) : (s.log events).Traced n := by
  intro e hm
  cases List.mem_append.mp hm
  case inl hm => exact h e hm
  case inr hm => exact he e hm

theorem report (lib : Crates) (graph : AdjacencyMatrix) (iteration : Nat) :
    (s.report lib graph iteration).2.Traced n := by
  rw [Session.report]
  split <;> exact h

end Traced

namespace Reported

variable {lib : Crates} {n k ell : Nat} {known : Finset GraphCid} {s s' : Session}

theorem start (rng : Nat → Nat) (cancelled : Nat → Bool) : (Session.start rng cancelled known).Reported lib n k ell known where
  valid    := by simp [Session.start]
  novel    := by simp [Session.start]
  recorded := by simp [Session.start]
  distinct := by simp [Session.start]
  subset   := subset_rfl

variable (h : s.Reported lib n k ell known)
include h

theorem silent (hs : s.Silent s') : s'.Reported lib n k ell known where
  valid    := hs.discoveries ▸ h.valid
  novel    := hs.discoveries ▸ h.novel
  recorded := by rw [hs.discoveries, hs.knownCids]; exact h.recorded
  distinct := hs.discoveries ▸ h.distinct
  subset   := hs.knownCids ▸ h.subset

theorem log (events : List Event) : (s.log events).Reported lib n k ell known :=
  ⟨h.valid, h.novel, h.recorded, h.distinct, h.subset⟩

-- A graph is reported only if its CID is unknown, and its CID is known from then on.
theorem report {graph : AdjacencyMatrix} (hg : graph.IsRamsey n k ell) (iteration : Nat) :
    (s.report lib graph iteration).2.Reported lib n k ell known := by
  rw [Session.report]
  split
  case isTrue => exact h
  case isFalse hc =>
    refine ⟨?_, ?_, ?_, ?_, h.subset.trans <| Finset.subset_insert ..⟩ <;>
      simp only [List.mem_append, List.mem_singleton, or_imp, forall_and, forall_eq]
    case refine_1 => exact ⟨h.valid, hg⟩
    case refine_2 => exact ⟨h.novel, fun hk => hc <| h.subset hk⟩
    case refine_3 => exact ⟨fun d hd => Finset.mem_insert_of_mem <| h.recorded d hd, Finset.mem_insert_self ..⟩
    case refine_4 =>
      rw [List.map_append, List.map_singleton, List.nodup_append]
      refine ⟨h.distinct, List.nodup_singleton _, ?_⟩
      intro cid hm cid' hm' he
      obtain ⟨d, hd, rfl⟩ := List.mem_map.mp hm
      rw [List.mem_singleton.mp hm'] at he
      exact hc <| he ▸ h.recorded d hd

end Reported

-- What holds of a session throughout a search.
structure Sound (lib : Crates) (n k ell : Nat) (known : Finset GraphCid) (s : Session) : Prop where
  traced   : s.Traced n
  reported : s.Reported lib n k ell known

namespace Sound

variable {lib : Crates} {n k ell : Nat} {known : Finset GraphCid} {s s' : Session}

theorem start (rng : Nat → Nat) (cancelled : Nat → Bool) : (Session.start rng cancelled known).Sound lib n k ell known where
  traced   := by simp [Traced, Session.start]
  reported := .start ..

variable (h : s.Sound lib n k ell known)
include h

theorem silent (hs : s.Silent s') : s'.Sound lib n k ell known where
  traced   := h.traced.silent hs
  reported := h.reported.silent hs

theorem log {events : List Event} (he : ∀ e ∈ events, e.Sound n) : (s.log events).Sound lib n k ell known where
  traced   := h.traced.log he
  reported := h.reported.log events

theorem report {graph : AdjacencyMatrix} (hg : graph.IsRamsey n k ell) (iteration : Nat) :
    (s.report lib graph iteration).2.Sound lib n k ell known where
  traced   := h.traced.report lib graph iteration
  reported := h.reported.report hg iteration

end Sound
end Session

-- The jobs that the searches are meant for.
structure SearchJob.Admissible (job : SearchJob) : Prop where
  two_le : 2 ≤ job.n
  le     : job.n ≤ 62
  init   : ∀ graph ∈ job.initGraph, graph.n = job.n
  k      : 3 ≤ job.targetK
  ell    : 3 ≤ job.targetEll

namespace SearchJob.Admissible

variable {job : SearchJob} (h : job.Admissible)
include h

theorem two_le_k : 2 ≤ job.targetK :=
  le_trans (by decide) h.k

theorem two_le_ell : 2 ≤ job.targetEll :=
  le_trans (by decide) h.ell

theorem pairs_ne_nil : pairs job.n ≠ [] :=
  List.ne_nil_of_mem <| mem_pairs.mpr ⟨zero_lt_one, h.two_le⟩

end SearchJob.Admissible

section Seed

variable {job : SearchJob} {s : Session}

theorem randomGraph_spec (n : Nat) (s : Session) : (randomGraph n s).1.n = n ∧ s.Silent (randomGraph n s).2 := by
  refine Loop.foldl_induction (fun gs : AdjacencyMatrix × Session => gs.1.n = n ∧ s.Silent gs.2) ?_ ⟨rfl, .refl s⟩
  intro gs p _ ⟨hn, hs⟩
  refine ⟨?_, hs.trans gs.2.genBool_silent⟩
  dsimp only
  split
  case isTrue  => rwa [AdjacencyMatrix.n_setEdge]
  case isFalse => exact hn

theorem seedGraph_spec (h : job.Admissible) :
    (seedGraph job s).1.n = job.n ∧ s.Silent (seedGraph job s).2 := by
  rw [seedGraph]
  cases hg : job.initGraph
  case none       => exact randomGraph_spec ..
  case some graph => exact ⟨h.init graph hg, .refl s⟩

end Seed
