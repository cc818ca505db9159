import Extremal.Experiments.Annealing
import Extremal.Strategies.Theorems.Search

open Finset ReferenceNauty

-- The number of cliques of `k` and of independent sets of `ell` vertices.
def AdjacencyMatrix.cost (graph : AdjacencyMatrix) (k ell : Nat) : Nat :=
  #(graph.graph.cliqueFinset k) + #(graph.complement.graph.cliqueFinset ell)

theorem Mirrors.Consistent.toNat_violations_eq_cost {m : Mirrors} (h : m.Consistent) {n : Nat} (k ell : Nat)
    (ho : m.graph.n = n) (hn : n ≤ 62) : (m.violations k ell n).toNat = m.graph.cost k ell := by
  obtain rfl := ho
  rw [h.toNat_violations hn, h.toNat_red hn, h.toNat_blue hn, AdjacencyMatrix.cost]

namespace SimulatedAnnealing

variable {lib : Crates} {job : SearchJob} {t t' : SimulatedAnnealing}

-- The states agree on the graph and on what has been found.
structure Quiet (t t' : SimulatedAnnealing) : Prop where
  mirrors        : t'.mirrors = t.mirrors
  violations     : t'.violations = t.violations
  bestGraph      : t'.bestGraph = t.bestGraph
  bestViolations : t'.bestViolations = t.bestViolations
  discoveries    : t'.discoveries = t.discoveries
  session        : t.session.Silent t'.session

namespace Quiet

theorem refl (t : SimulatedAnnealing) : t.Quiet t :=
  ⟨rfl, rfl, rfl, rfl, rfl, .refl _⟩

theorem trans {t'' : SimulatedAnnealing} (h : t.Quiet t') (h' : t'.Quiet t'') : t.Quiet t'' where
  mirrors        := h'.mirrors.trans h.mirrors
  violations     := h'.violations.trans h.violations
  bestGraph      := h'.bestGraph.trans h.bestGraph
  bestViolations := h'.bestViolations.trans h.bestViolations
  discoveries    := h'.discoveries.trans h.discoveries
  session        := h.session.trans h'.session

end Quiet

theorem quiet_session {s : Session} (h : t.session.Silent s) : t.Quiet { t with session := s } :=
  ⟨rfl, rfl, rfl, rfl, rfl, h⟩

theorem quiet_accept (t : SimulatedAnnealing) (delta : Int64) : t.Quiet (t.accept delta).2 := by
  rw [SimulatedAnnealing.accept]
  split
  case isTrue  => exact .refl t
  case isFalse => exact quiet_session ⟨rfl, rfl, rfl⟩

theorem quiet_coolDown (job : SearchJob) (t : SimulatedAnnealing) : t.Quiet (t.coolDown job) :=
  ⟨rfl, rfl, rfl, rfl, rfl, .refl _⟩

theorem quiet_reportProgress (job : SearchJob) (t : SimulatedAnnealing) (iter : Nat) :
    t.Quiet (t.reportProgress job iter) :=
  quiet_session <| t.session.reportProgress_silent _

-- The search keeps the exact number of violations of consistent mirrors, and in its result what it has
-- reported to the observer.
structure Valid (lib : Crates) (job : SearchJob) (t : SimulatedAnnealing) : Prop where
  order       : t.mirrors.graph.n = job.n
  consistent  : t.mirrors.Consistent
  violations  : t.violations = t.mirrors.violations job.targetK job.targetEll job.n
  sound       : t.session.Sound lib job.n job.targetK job.targetEll job.knownCids
  discoveries : t.session.discoveries = t.discoveries
  known       : t.session.knownCids = job.knownCids ∪ (t.discoveries.map fun d => canonicalCid lib d.graph).toFinset

namespace Valid

variable (h : t.Valid lib job)
include h

theorem quiet (hq : t.Quiet t') : t'.Valid lib job where
  order       := hq.mirrors ▸ h.order
  consistent  := hq.mirrors ▸ h.consistent
  violations  := by rw [hq.violations, hq.mirrors, h.violations]
  sound       := h.sound.silent hq.session
  discoveries := by rw [hq.session.discoveries, hq.discoveries, h.discoveries]
  known       := by rw [hq.session.knownCids, hq.discoveries, h.known]

theorem held : (Event.held t.mirrors (t.counters job)).Sound job.n := by
  refine ⟨h.order, h.consistent, ?_⟩
  simp [counters, Counter.count, Counter.recount, h.violations, h.order, Mirrors.violations]

theorem log {events : List Event} (he : ∀ e ∈ events, e.Sound job.n) : (t.log events).Valid lib job :=
  ⟨h.order, h.consistent, h.violations, h.sound.log he, h.discoveries, h.known⟩

theorem bestGraph (best : Option AdjacencyMatrix) : { t with bestGraph := best }.Valid lib job :=
  ⟨h.order, h.consistent, h.violations, h.sound, h.discoveries, h.known⟩

variable (hj : job.Admissible)
include hj

theorem toNat_violations : t.violations.toNat = t.mirrors.graph.cost job.targetK job.targetEll := by
  rw [h.violations, h.consistent.toNat_violations_eq_cost _ _ h.order hj.le]

theorem violations_iff : t.violations = 0 ↔ t.mirrors.graph.RamseyFree job.targetK job.targetEll := by
  rw [h.violations, h.consistent.violations_iff _ _ h.order hj.le]

theorem isRamsey (hv : t.violations = 0) : t.mirrors.graph.IsRamsey job.n job.targetK job.targetEll :=
  ⟨h.violations_iff hj |>.mp hv, h.order⟩

-- The sum is the exact number of violations after the flip, and it fits into a signed number.
theorem count_flip {u v : Nat} (hp : (u, v) ∈ pairs job.n) :
    let delta := t.mirrors.delta job.targetK job.targetEll u v
    t.violations.toInt64 + (delta.1 + delta.2) =
        ((t.mirrors.flip u v).violations job.targetK job.targetEll job.n).toInt64 ∧
      ((t.mirrors.flip u v).violations job.targetK job.targetEll job.n).toNat < 2 ^ 63 := by
  have hn : t.mirrors.graph.n ≤ 62 := h.order ▸ hj.le
  rw [← h.order] at hp
  have hv := h.consistent.violations_flip hn hp hj.two_le_k hj.two_le_ell
  have hlt := (h.consistent.flip hn hp).violations_lt (by simpa) job.targetK job.targetEll
  rw [Mirrors.n_flip, h.order] at hlt
  rw [h.order, ← h.violations] at hv
  exact ⟨hv, hlt⟩

theorem flip {u v : Nat} (hp : (u, v) ∈ pairs job.n) {delta : Int64}
    (hd : delta = (t.mirrors.delta job.targetK job.targetEll u v).1 + (t.mirrors.delta job.targetK job.targetEll u v).2) :
    (t.flip job u v delta).Valid lib job := by
  have ⟨hc, hlt⟩ := h.count_flip hj hp
  rw [← hd] at hc
  have hf := h.consistent.flip (h.order ▸ hj.le) (h.order.symm ▸ hp)
  have hv : (t.violations.toInt64 + delta).toUInt64 =
      (t.mirrors.flip u v).violations job.targetK job.targetEll job.n := by rw [hc, UInt64.toUInt64_toInt64]
  let count := t.violations.toInt64 + delta
  let t' : SimulatedAnnealing := { t with
    mirrors        := t.mirrors.flip u v
    violations     := count.toUInt64
    bestViolations := if count.toUInt64 < t.bestViolations then count.toUInt64 else t.bestViolations
    bestGraph      := if count.toUInt64 < t.bestViolations then some (t.mirrors.flip u v).graph else t.bestGraph }
  have ht : t'.Valid lib job := ⟨Mirrors.n_flip.trans h.order, hf, hv, h.sound, h.discoveries, h.known⟩
  refine ht.log ?_
  simp only [List.forall_mem_cons]
  exact ⟨hc ▸ max_toInt64 hlt, ht.held, by simp⟩

end Valid

section Report

theorem report_cases (lib : Crates) (t : SimulatedAnnealing) (iter : Nat) :
    canonicalCid lib t.mirrors.graph ∈ t.session.knownCids ∧ t.report lib iter = (false, t) ∨
      canonicalCid lib t.mirrors.graph ∉ t.session.knownCids ∧
        t.report lib iter = (true, { t with
          session     := (t.session.report lib t.mirrors.graph iter).2
          discoveries := t.discoveries ++ [{ graph := t.mirrors.graph, iteration := iter }] }) := by
  by_cases hc : canonicalCid lib t.mirrors.graph ∈ t.session.knownCids
  case pos => exact .inl ⟨hc, by simp [report, Session.report, hc]⟩
  case neg => exact .inr ⟨hc, by simp [report, Session.report, hc]⟩

-- A report leaves the graph and the best graph as they are.
theorem frame_report (lib : Crates) (t : SimulatedAnnealing) (iter : Nat) :
    (t.report lib iter).2.mirrors = t.mirrors ∧ (t.report lib iter).2.violations = t.violations ∧
      (t.report lib iter).2.bestGraph = t.bestGraph ∧ (t.report lib iter).2.bestViolations = t.bestViolations := by
  obtain ⟨_, he⟩ | ⟨_, he⟩ := t.report_cases lib iter <;> rw [he] <;> exact ⟨rfl, rfl, rfl, rfl⟩

variable (h : t.Valid lib job)
include h

theorem Valid.report (hj : job.Admissible) (hv : t.violations = 0) (iter : Nat) : (t.report lib iter).2.Valid lib job := by
  have hs := h.sound.report (h.isRamsey hj hv) iter
  obtain ⟨_, he⟩ | ⟨hc, he⟩ := t.report_cases lib iter <;> rw [he]
  case inl => exact h
  case inr =>
    refine ⟨h.order, h.consistent, h.violations, hs, ?_, ?_⟩ <;> simp only [Session.report, hc, if_false]
    case refine_1 => rw [h.discoveries]
    case refine_2 =>
      rw [h.known, List.map_append, List.map_singleton, List.toFinset_append, ← union_assoc, insert_eq, union_comm]
      simp

-- The CIDs of the discoveries: those from before, and the one of the reported graph unless it is known.
theorem Valid.mem_report (iter : Nat) (cid : GraphCid) :
    cid ∈ (t.report lib iter).2.discoveries.map (fun d => canonicalCid lib d.graph) ↔
      cid ∈ t.discoveries.map (fun d => canonicalCid lib d.graph) ∨
        cid ∉ job.knownCids ∧ canonicalCid lib t.mirrors.graph = cid := by
  obtain ⟨hc, he⟩ | ⟨hc, he⟩ := t.report_cases lib iter <;> rw [he] <;>
    rw [h.known, mem_union, List.mem_toFinset] at hc
  case inl =>
    refine ⟨.inl, Or.rec id ?_⟩
    rintro ⟨hn, rfl⟩
    exact hc.resolve_left hn
  case inr =>
    rw [List.map_append, List.mem_append, List.map_singleton, List.mem_singleton]
    refine or_congr_right ⟨?_, fun hm => hm.2.symm⟩
    rintro rfl
    exact ⟨fun hk => hc <| .inl hk, rfl⟩

end Report

-- The discoveries are the valid graphs that the search has come to, one for each CID that was not known.
structure Found (lib : Crates) (job : SearchJob) (seen : List AdjacencyMatrix) (t : SimulatedAnnealing) : Prop where
  valid : t.Valid lib job
  last  : t.mirrors.graph ∈ seen
  found : ∀ cid, cid ∈ t.discoveries.map (fun d => canonicalCid lib d.graph) ↔
            cid ∉ job.knownCids ∧ ∃ g ∈ seen, g.RamseyFree job.targetK job.targetEll ∧ canonicalCid lib g = cid

-- The start counts as the best graph only if it was reported.
structure Best (lib : Crates) (job : SearchJob) (seed : AdjacencyMatrix) (seen : List AdjacencyMatrix)
    (t : SimulatedAnnealing) : Prop where
  least    : ∀ g ∈ seen, t.bestViolations.toNat ≤ g.cost job.targetK job.targetEll
  attained : ∃ g ∈ seen, g.cost job.targetK job.targetEll = t.bestViolations.toNat
  best     : ∀ g ∈ t.bestGraph, g ∈ seen ∧ g.cost job.targetK job.targetEll = t.bestViolations.toNat
  none     : t.bestGraph = none ↔ t.bestViolations.toNat = seed.cost job.targetK job.targetEll ∧
               ¬(seed.RamseyFree job.targetK job.targetEll ∧ canonicalCid lib seed ∉ job.knownCids)

section Step

variable {seed : AdjacencyMatrix} {seen : List AdjacencyMatrix}

theorem Found.quiet (h : t.Found lib job seen) (hq : t.Quiet t') : t'.Found lib job seen where
  valid := h.valid.quiet hq
  last  := hq.mirrors ▸ h.last
  found := hq.discoveries ▸ h.found

theorem Best.quiet (h : t.Best lib job seed seen) (hb : t'.bestGraph = t.bestGraph)
    (hv : t'.bestViolations = t.bestViolations) : t'.Best lib job seed seen where
  least    := hv ▸ h.least
  attained := hv ▸ h.attained
  best     := by rw [hb, hv]; exact h.best
  none     := by rw [hb, hv]; exact h.none

-- The search stays at its graph.
theorem Found.stay (h : t.Found lib job seen) : t.Found lib job (seen ++ [t.mirrors.graph]) where
  valid := h.valid
  last  := by simp
  found := by
    intro cid
    rw [h.found]
    have := h.last
    grind

theorem Best.stay (h : t.Best lib job seed seen) {g : AdjacencyMatrix} (hg : g ∈ seen) :
    t.Best lib job seed (seen ++ [g]) where
  least    := by simpa [or_imp, forall_and] using ⟨h.least, h.least g hg⟩
  attained := h.attained.imp fun _ => And.imp_left <| List.mem_append_left _
  best     := fun g hg => (h.best g hg).imp_left <| List.mem_append_left _
  none     := h.none

theorem Found.move (h : t.Found lib job seen) (hj : job.Admissible) {u v : Nat} (hp : (u, v) ∈ pairs job.n) {delta : Int64}
    (hd : delta = (t.mirrors.delta job.targetK job.targetEll u v).1 + (t.mirrors.delta job.targetK job.targetEll u v).2)
    (iter : Nat) : (t.move lib job iter u v delta).Found lib job (seen ++ [(t.move lib job iter u v delta).mirrors.graph]) := by
  have hf := h.valid.flip hj hp hd
  have hdisc : (t.flip job u v delta).discoveries = t.discoveries := rfl
  have hz := hf.violations_iff hj
  rw [SimulatedAnnealing.move]
  split
  case isFalse hv =>
    refine ⟨hf, by simp, fun cid => ?_⟩
    rw [hdisc, h.found]
    rw [hz] at hv
    grind
  case isTrue hv =>
    have hr := hf.report hj hv iter
    have hm := (t.flip job u v delta).frame_report lib iter |>.1
    refine ⟨hr, by simp, fun cid => ?_⟩
    rw [hf.mem_report, hdisc, h.found, hm]
    rw [hz] at hv
    grind

theorem Best.move (h : t.Best lib job seed seen) (hj : job.Admissible) (hv : t.Valid lib job) {u v : Nat}
    (hp : (u, v) ∈ pairs job.n) {delta : Int64}
    (hd : delta = (t.mirrors.delta job.targetK job.targetEll u v).1 + (t.mirrors.delta job.targetK job.targetEll u v).2)
    (hs : seed ∈ seen) (iter : Nat) :
    (t.move lib job iter u v delta).Best lib job seed (seen ++ [(t.move lib job iter u v delta).mirrors.graph]) := by
  have hf := hv.flip hj hp hd
  have hc := hf.toNat_violations hj
  have hl := h.least seed hs
  let t₁ := t.flip job u v delta
  have hb : t₁.Best lib job seed (seen ++ [t₁.mirrors.graph]) := by
    have hbv : t₁.bestViolations = if t₁.violations < t.bestViolations then t₁.violations else t.bestViolations := rfl
    have hbg : t₁.bestGraph = if t₁.violations < t.bestViolations then some t₁.mirrors.graph else t.bestGraph := rfl
    change t₁.violations.toNat = _ at hc
    have ⟨h₁, h₂, h₃, h₄⟩ := h
    by_cases hlt : t₁.violations < t.bestViolations
    case neg =>
      rw [if_neg hlt] at hbv hbg
      rw [UInt64.lt_iff_toNat_lt, hc] at hlt
      constructor <;> rw [hbv] <;> grind
    case pos =>
      rw [if_pos hlt] at hbv hbg
      rw [UInt64.lt_iff_toNat_lt, hc] at hlt
      constructor <;> rw [hbv, hc] <;> grind
  rw [SimulatedAnnealing.move]
  split
  case isFalse => exact hb
  case isTrue  =>
    have ⟨hm, _, hg, hw⟩ := t₁.frame_report lib iter
    exact hm ▸ hb.quiet hg hw

end Step

-- An iteration changes nothing, or it makes one move.
theorem advance_cases (hj : job.Admissible) (t : SimulatedAnnealing) (iter : Nat) :
    t.Quiet (t.advance lib job iter).value ∨
      ∃ t₁ u v delta, t.Quiet t₁ ∧ (u, v) ∈ pairs job.n ∧
        delta = (t₁.mirrors.delta job.targetK job.targetEll u v).1 + (t₁.mirrors.delta job.targetK job.targetEll u v).2 ∧
        (t₁.move lib job iter u v delta).Quiet (t.advance lib job iter).value := by
  have hq := quiet_session t.session.isCancelled_silent
  rw [advance]
  generalize t.session.isCancelled = answer at hq
  obtain ⟨cancelled, s⟩ := answer
  cases cancelled
  case true  => exact .inl hq
  case false =>
    simp only [Bool.false_eq_true, if_false]
    have hp := s.choose_mem hj.pairs_ne_nil
    have hq₁ := hq.trans <| quiet_session <| s.choose_silent (pairs job.n)
    generalize s.choose (pairs job.n) = choice at hp hq₁
    obtain ⟨⟨u, v⟩, s'⟩ := choice
    dsimp only at hp hq₁ ⊢
    let t₁ : SimulatedAnnealing := { t with session := s' }
    let delta := (t₁.mirrors.delta job.targetK job.targetEll u v).1 + (t₁.mirrors.delta job.targetK job.targetEll u v).2
    have hq₂ := t₁.quiet_accept delta
    have hfinish (t₂ : SimulatedAnnealing) :
        t₂.Quiet (if iter % 1000 = 0 then (t₂.coolDown job).reportProgress job iter else t₂.coolDown job) := by
      split
      case isTrue  => exact (quiet_coolDown job t₂).trans <| quiet_reportProgress ..
      case isFalse => exact quiet_coolDown job t₂
    have hd : delta = (((t₁.accept delta).2).mirrors.delta job.targetK job.targetEll u v).1 +
        (((t₁.accept delta).2).mirrors.delta job.targetK job.targetEll u v).2 := by rw [hq₂.mirrors]
    generalize t₁.accept delta = answer at hq₂ hd
    obtain ⟨accepted, t₂⟩ := answer
    cases accepted
    case false => exact .inl <| hq₁.trans hq₂ |>.trans <| hfinish t₂
    case true  => exact .inr ⟨t₂, u, v, delta, hq₁.trans hq₂, hp, hd, hfinish _⟩

structure Tracks (lib : Crates) (job : SearchJob) (seed : AdjacencyMatrix) (seen : List AdjacencyMatrix)
    (t : SimulatedAnnealing) : Prop where
  found : t.Found lib job seen
  best  : t.Best lib job seed seen
  seed  : seed ∈ seen

theorem Tracks.advance {seed : AdjacencyMatrix} {seen : List AdjacencyMatrix} (h : t.Tracks lib job seed seen)
    (hj : job.Admissible) (iter : Nat) :
    (t.advance lib job iter).value.Tracks lib job seed (seen ++ [(t.advance lib job iter).value.mirrors.graph]) := by
  obtain hq | ⟨t₁, u, v, delta, hq, hp, hd, hq'⟩ := t.advance_cases hj iter
  case inl =>
    have hb := h.best.stay h.found.last |>.quiet hq.bestGraph hq.bestViolations
    exact ⟨hq.mirrors ▸ h.found.stay.quiet hq, hq.mirrors ▸ hb, List.mem_append_left _ h.seed⟩
  case inr =>
    have hf := h.found.quiet hq
    have hb := h.best.quiet hq.bestGraph hq.bestViolations
    have hf' := hf.move hj hp hd iter |>.quiet hq'
    have hb' := hb.move hj hf.valid hp hd h.seed iter |>.quiet hq'.bestGraph hq'.bestViolations
    exact ⟨hq'.mirrors ▸ hf', hq'.mirrors ▸ hb', List.mem_append_left _ h.seed⟩

theorem tracks_start {graph : AdjacencyMatrix} {s : Session} (hj : job.Admissible) (ho : graph.n = job.n)
    (h : s.Sound lib job.n job.targetK job.targetEll job.knownCids) (hd : s.discoveries = [])
    (hk : s.knownCids = job.knownCids) :
    (start lib job graph s).Tracks lib job graph [graph] ∧ (start lib job graph s).mirrors.graph = graph := by
  let violations := (Mirrors.ofGraph graph).violations job.targetK job.targetEll job.n
  let t₀ : SimulatedAnnealing :=
    { mirrors := .ofGraph graph, violations, bestGraph := none, bestViolations := violations, discoveries := []
      temperature := (AnnealingConfig.ofJson job.config).initialTemp, session := s }
  have h₀ : t₀.Valid lib job := ⟨ho, Mirrors.consistent_ofGraph graph, rfl, h, hd, by simpa [t₀] using hk⟩
  let t := t₀.log [.held t₀.mirrors (t₀.counters job)]
  have ht : t.Valid lib job := h₀.log <| by simpa using h₀.held
  have hz := ht.violations_iff hj
  have hc := ht.toNat_violations hj
  have hg : t.mirrors.graph = graph := rfl
  have hb : t.bestViolations = t.violations ∧ t.bestGraph = none ∧ t.discoveries = [] := ⟨rfl, rfl, rfl⟩
  have hk : t.session.knownCids = job.knownCids := hk
  have he : start lib job graph s =
      if t.violations = 0 then
        if (t.report lib 0).1 then { (t.report lib 0).2 with bestGraph := some graph } else (t.report lib 0).2
      else t := rfl
  generalize t = t at *
  rw [he]
  split
  case isFalse hv => refine ⟨⟨⟨ht, ?_, ?_⟩, ⟨?_, ?_, ?_, ?_⟩, ?_⟩, hg⟩ <;> grind
  case isTrue hv  =>
    have hr := ht.report hj hv 0
    have hm := ht.mem_report 0
    obtain ⟨hn, he⟩ | ⟨hn, he⟩ := t.report_cases lib 0 <;> rw [he] at hr hm ⊢ <;> dsimp only at hr hm ⊢
    case inl => refine ⟨⟨⟨ht, ?_, ?_⟩, ⟨?_, ?_, ?_, ?_⟩, ?_⟩, hg⟩ <;> grind
    case inr =>
      rw [if_pos rfl]
      refine ⟨⟨⟨hr.bestGraph (some graph), ?_, ?_⟩, ⟨?_, ?_, ?_, ?_⟩, ?_⟩, hg⟩ <;> grind

end SimulatedAnnealing

section Run

open SimulatedAnnealing

variable (lib : Crates) (job : SearchJob) (rng : Nat → Nat) (cancelled : Nat → Bool)

-- The state in which the iterations start.
def annealingSeeded : SimulatedAnnealing :=
  let (graph, session) := seedGraph job (.start rng cancelled job.knownCids)
  start lib job graph session

-- The graphs that a search comes to, from its start to its end.
def annealingVisited : List AdjacencyMatrix :=
  Loop.trace (advance lib job) (·.mirrors.graph) (annealingSeeded lib job rng cancelled) (List.range job.maxIters)

-- The state in which the iterations end.
def annealingFinal : SimulatedAnnealing :=
  Loop.run (advance lib job) (annealingSeeded lib job rng cancelled) (List.range job.maxIters)

variable {job} (h : job.Admissible)
include h

theorem annealingFinal_tracks : (annealingFinal lib job rng cancelled).Tracks lib job
    (seedGraph job (.start rng cancelled job.knownCids)).1 (annealingVisited lib job rng cancelled) := by
  have ⟨ho, hs⟩ := seedGraph_spec (s := .start rng cancelled job.knownCids) h
  have ⟨ht, hg⟩ : (annealingSeeded lib job rng cancelled).Tracks lib job _ _ ∧ _ :=
    tracks_start h ho ((Session.Sound.start rng cancelled).silent hs) hs.discoveries hs.knownCids
  let P (seen : List AdjacencyMatrix) (t : SimulatedAnnealing) : Prop :=
    t.Tracks lib job (seedGraph job (.start rng cancelled job.knownCids)).1 seen
  refine Loop.trace_induction P (fun seen t iter ht => Tracks.advance ht h iter) ?_
  exact hg ▸ ht

end Run

-- A search for `R(3, 3)` that starts from the empty graph on three vertices.
def anneal3Job : SearchJob :=
  { path3Job with initGraph := some (.new 3) }

theorem anneal3Job_admissible : anneal3Job.Admissible where
  two_le := by decide
  le     := by decide
  init   := by rintro _ ⟨⟩; rfl
  k      := path3Job_admissible.k
  ell    := path3Job_admissible.ell

-- After each move the mirrors are consistent and the count is that of a recount, and the sum that becomes an
-- unsigned number is never negative.
theorem annealing_never_drifts (lib : Crates) {job : SearchJob} (h : job.Admissible) (rng : Nat → Nat)
    (cancelled : Nat → Bool) :
    ∀ e ∈ (simulatedAnnealing lib job rng cancelled).2.events, e.Sound job.n :=
  (annealingFinal_tracks lib rng cancelled h).found.valid.sound.traced

theorem anneal3Job_never_drifts :
    (simulatedAnnealing crates anneal3Job id fun _ => false).2.events.length = 5 ∧
      ∀ e ∈ (simulatedAnnealing crates anneal3Job id fun _ => false).2.events, e.Sound 3 :=
  ⟨by decide +kernel, annealing_never_drifts crates anneal3Job_admissible id fun _ => false⟩

-- The result has what the observer has been told: for each valid graph that the search has come to, and
-- whose CID was not known before, one graph with that CID.
theorem annealing_discoveries (lib : Crates) {job : SearchJob} (h : job.Admissible) (rng : Nat → Nat)
    (cancelled : Nat → Bool) :
    (simulatedAnnealing lib job rng cancelled).2.discoveries = (simulatedAnnealing lib job rng cancelled).1.discoveries ∧
    (∀ d ∈ (simulatedAnnealing lib job rng cancelled).1.discoveries, d.graph.IsRamsey job.n job.targetK job.targetEll) ∧
    ((simulatedAnnealing lib job rng cancelled).1.discoveries.map fun d => canonicalCid lib d.graph).Nodup ∧
    ∀ cid, cid ∈ (simulatedAnnealing lib job rng cancelled).1.discoveries.map (fun d => canonicalCid lib d.graph) ↔
      cid ∉ job.knownCids ∧ ∃ g ∈ annealingVisited lib job rng cancelled,
        g.RamseyFree job.targetK job.targetEll ∧ canonicalCid lib g = cid := by
  have ht := annealingFinal_tracks lib rng cancelled h |>.found
  have hr := ht.valid.sound.reported
  have ⟨hv, hn⟩ := And.intro hr.valid hr.distinct
  rw [ht.valid.discoveries] at hv hn
  exact ⟨ht.valid.discoveries, hv, hn, ht.found⟩

theorem anneal3Job_discoveries :
    (simulatedAnnealing crates anneal3Job id fun _ => false).1.discoveries.length = 2 ∧
    (simulatedAnnealing crates anneal3Job id fun _ => false).2.discoveries =
      (simulatedAnnealing crates anneal3Job id fun _ => false).1.discoveries :=
  ⟨by decide +kernel, annealing_discoveries crates anneal3Job_admissible id (fun _ => false) |>.1⟩

-- The best graph has the fewest violations of all graphs that the search comes to. There is none if nothing
-- was better than a start that is not a new valid graph.
theorem annealing_best (lib : Crates) {job : SearchJob} (h : job.Admissible) (rng : Nat → Nat)
    (cancelled : Nat → Bool) :
    (∀ g ∈ (simulatedAnnealing lib job rng cancelled).1.bestGraph, g ∈ annealingVisited lib job rng cancelled ∧
      ∀ g' ∈ annealingVisited lib job rng cancelled,
        g.cost job.targetK job.targetEll ≤ g'.cost job.targetK job.targetEll) ∧
    ((simulatedAnnealing lib job rng cancelled).1.bestGraph = none ↔
      let seed := (seedGraph job (.start rng cancelled job.knownCids)).1
      (∀ g ∈ annealingVisited lib job rng cancelled,
        seed.cost job.targetK job.targetEll ≤ g.cost job.targetK job.targetEll) ∧
      ¬(seed.RamseyFree job.targetK job.targetEll ∧ canonicalCid lib seed ∉ job.knownCids)) ∧
    ((simulatedAnnealing lib job rng cancelled).1.valid ↔ ∃ g ∈ annealingVisited lib job rng cancelled,
      g.RamseyFree job.targetK job.targetEll ∧ canonicalCid lib g ∉ job.knownCids) := by
  have ht := annealingFinal_tracks lib rng cancelled h
  refine ⟨fun g hg => ?_, ?_, ?_⟩
  case refine_1 =>
    have ⟨hm, hc⟩ := ht.best.best g hg
    exact ⟨hm, fun g' hg' => hc ▸ ht.best.least g' hg'⟩
  case refine_2 =>
    refine ht.best.none.trans <| and_congr_left fun _ => ?_
    have ⟨g, hg, hc⟩ := ht.best.attained
    refine ⟨fun he g' hg' => he ▸ ht.best.least g' hg', fun hs => ?_⟩
    exact le_antisymm (ht.best.least _ ht.seed) (hc ▸ hs g hg)
  case refine_3 =>
    have hv : (simulatedAnnealing lib job rng cancelled).1.valid =
        !(annealingFinal lib job rng cancelled).discoveries.isEmpty := rfl
    have hd : (annealingFinal lib job rng cancelled).discoveries ≠ [] ↔
        ∃ cid, cid ∈ (annealingFinal lib job rng cancelled).discoveries.map fun d => canonicalCid lib d.graph := by
      rw [ne_eq, ← List.map_eq_nil_iff (f := fun d => canonicalCid lib d.graph), ← ne_eq, ← List.length_pos_iff,
        List.length_pos_iff_exists_mem]
    rw [hv, Bool.not_eq_true', ← Bool.not_eq_true, List.isEmpty_iff, ← ne_eq, hd]
    simp only [ht.found.found]
    grind

theorem anneal3Job_best :
    (simulatedAnnealing crates anneal3Job id fun _ => false).1.bestGraph = some (AdjacencyMatrix.new 3 |>.setEdge 0 1 true) ∧
      ∀ g ∈ (simulatedAnnealing crates anneal3Job id fun _ => false).1.bestGraph,
        g ∈ annealingVisited crates anneal3Job id (fun _ => false) ∧
          ∀ g' ∈ annealingVisited crates anneal3Job id (fun _ => false), g.cost 3 3 ≤ g'.cost 3 3 :=
  ⟨by decide +kernel, annealing_best crates anneal3Job_admissible id (fun _ => false) |>.1⟩
