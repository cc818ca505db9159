import Extremal.Scoring.Theorems.Fingerprint
import Extremal.Strategies.Tree2
import Extremal.Strategies.Theorems.Polish

-- An entry with consistent mirrors and exact counts.
structure BeamEntry.Exact (job : SearchJob) (e : BeamEntry) : Prop where
  order      : e.graph.n = job.n
  consistent : e.toMirrors.Consistent
  kc         : e.kc = e.toMirrors.red job.targetK job.n
  ei         : e.ei = e.toMirrors.blue job.targetEll job.n
  violations : e.violations = e.kc + e.ei

namespace BeamEntry.Exact

variable {job : SearchJob} {e : BeamEntry}

theorem fromGraph {graph : AdjacencyMatrix} (h : graph.n = job.n) :
    (fromGraph graph job.targetK job.targetEll).Exact job where
  order      := h
  consistent := Mirrors.consistent_ofGraph graph
  kc         := h ▸ rfl
  ei         := h ▸ rfl
  violations := rfl

variable (h : e.Exact job)
include h

theorem held : (e.held job.targetK job.targetEll).Sound job.n := by
  refine ⟨h.order, h.consistent, ?_⟩
  simp [counters, Counter.count, Counter.recount, h.violations, h.kc, h.ei, h.order]

theorem violations_eq : e.violations = e.toMirrors.violations job.targetK job.targetEll job.n := by
  rw [h.violations, h.kc, h.ei, Mirrors.violations]

theorem violations_iff (hj : job.Admissible) : e.violations = 0 ↔ e.graph.RamseyFree job.targetK job.targetEll :=
  h.violations_eq ▸ h.consistent.violations_iff job.targetK job.targetEll h.order hj.le

theorem isRamsey (hj : job.Admissible) (hv : e.violations = 0) : e.graph.IsRamsey job.n job.targetK job.targetEll :=
  h.consistent.isRamsey (h.order ▸ hj.le) h.order (h.violations_eq ▸ hv)

variable (hj : job.Admissible) {u v : Nat} (hp : (u, v) ∈ pairs job.n)
include hj hp

theorem flip_flip : (e.flip u v).flip u v = e := by
  have hm := h.consistent.flip_flip (h.order ▸ hj.le) (h.order ▸ hp)
  simp only [BeamEntry.flip, hm]

-- The counts that the search computes for a flip of the entry.
theorem counts_flip :
    let delta := e.delta job.targetK job.targetEll u v
    (e.kc.toInt64 + delta.1 = ((e.toMirrors.flip u v).red job.targetK job.n).toInt64 ∧
        ((e.toMirrors.flip u v).red job.targetK job.n).toNat < 2 ^ 63) ∧
      e.ei.toInt64 + delta.2 = ((e.toMirrors.flip u v).blue job.targetEll job.n).toInt64 ∧
        ((e.toMirrors.flip u v).blue job.targetEll job.n).toNat < 2 ^ 63 := by
  have hn : e.graph.n ≤ 62 := h.order ▸ hj.le
  have hp : (u, v) ∈ pairs e.graph.n := h.order ▸ hp
  have hf := h.consistent.flip hn hp
  have hr := hf.red_lt (by simpa) job.targetK
  have hb := hf.blue_lt (by simpa) job.targetEll
  have hd := h.consistent.delta_eq hn hp hj.two_le_k hj.two_le_ell
  rw [Mirrors.n_flip, h.order] at hr hb
  rw [h.order, ← h.kc, ← h.ei] at hd
  exact ⟨⟨hd.1, by omega⟩, hd.2, by omega⟩

end BeamEntry.Exact

-- A candidate with the exact counts of the flip in its parent.
structure Candidate.Fits (job : SearchJob) (parent : BeamEntry) (c : Candidate) : Prop where
  pair  : (c.u, c.v) ∈ pairs job.n
  newKc : c.newKc = (parent.toMirrors.flip c.u c.v).red job.targetK job.n
  newEi : c.newEi = (parent.toMirrors.flip c.u c.v).blue job.targetEll job.n

namespace Tree2Search

variable {lib : Crates} {job : SearchJob} {t : Tree2Search}

-- The beam is exact, and what the search keeps as valid is valid, and as invalid invalid.
structure Valid (lib : Crates) (job : SearchJob) (t : Tree2Search) : Prop where
  beam    : ∀ e ∈ t.beam, e.Exact job
  sound   : t.session.Sound lib job.n job.targetK job.targetEll job.knownCids
  valid   : ∀ g ∈ t.bestValid, g.IsRamsey job.n job.targetK job.targetEll
  invalid : ∀ g ∈ t.bestInvalid, ¬g.1.RamseyFree job.targetK job.targetEll

-- Within a depth, the candidates refer to the entries of the beam.
structure Scored (lib : Crates) (job : SearchJob) (t : Tree2Search) : Prop extends t.Valid lib job where
  candidates : ∀ c ∈ t.candidates, ∃ parent, t.beam[c.parentIdx]? = some parent ∧ c.Fits job parent

theorem Valid.held (h : t.Valid lib job) :
    ∀ e ∈ t.beam.map (BeamEntry.held job.targetK job.targetEll), e.Sound job.n := by
  simp only [List.forall_mem_map]
  exact fun e he => (h.beam e he).held

theorem Valid.session (h : t.Valid lib job) {s : Session}
    (hs : s.Sound lib job.n job.targetK job.targetEll job.knownCids) : { t with session := s }.Valid lib job :=
  ⟨h.beam, hs, h.valid, h.invalid⟩

theorem Valid.silent (h : t.Valid lib job) {s : Session} (hs : t.session.Silent s) : { t with session := s }.Valid lib job :=
  h.session <| h.sound.silent hs

theorem Valid.exhausted (h : t.Valid lib job) :
    (t.exhausted job).2.Valid lib job ∧ (t.exhausted job).2.beam = t.beam ∧
      (t.exhausted job).2.candidates = t.candidates := by
  rw [Tree2Search.exhausted]
  split
  case isTrue  => exact ⟨h, rfl, rfl⟩
  case isFalse => exact ⟨h.silent t.session.isCancelled_silent, rfl, rfl⟩

theorem Valid.reportProgress (h : t.Valid lib job) (entry : BeamEntry) (valid : Bool) :
    (t.reportProgress job entry valid).Valid lib job :=
  h.silent <| t.session.reportProgress_silent _

namespace Scored

variable (h : t.Scored lib job)
include h

theorem exhausted : (t.exhausted job).2.Scored lib job := by
  have ⟨hv, hb, hc⟩ := h.toValid.exhausted
  exact ⟨hv, hb ▸ hc ▸ h.candidates⟩

theorem reportProgress (entry : BeamEntry) (valid : Bool) : (t.reportProgress job entry valid).Scored lib job :=
  ⟨h.toValid.reportProgress entry valid, h.candidates⟩

theorem progressed (entry : BeamEntry) (valid : Bool) (c : Prop) [Decidable c] :
    (if c then t.reportProgress job entry valid else t).Scored lib job := by
  split
  case isTrue  => exact h.reportProgress ..
  case isFalse => exact h

theorem log {events : List Event} (he : ∀ e ∈ events, e.Sound job.n) : (t.log events).Scored lib job :=
  ⟨h.toValid.session <| h.sound.log he, h.candidates⟩

theorem trackInvalid {graph : AdjacencyMatrix} {violations : UInt64}
    (hv : graph.RamseyFree job.targetK job.targetEll → violations = 0) :
    (t.trackInvalid graph violations).Scored lib job := by
  rw [Tree2Search.trackInvalid]
  split
  case isTrue hp =>
    have hp : violations > 0 := of_decide_eq_true (Bool.and_eq_true_iff.mp hp).1
    have hi : ¬graph.RamseyFree job.targetK job.targetEll := fun hf => UInt64.lt_irrefl 0 <| hv hf ▸ hp
    exact ⟨⟨h.beam, h.sound, h.valid, by simpa using hi⟩, h.candidates⟩
  case isFalse => exact h

section Found

variable {graph : AdjacencyMatrix}

theorem report (hg : graph.IsRamsey job.n job.targetK job.targetEll) : (t.report lib graph).Scored lib job := by
  have hs := h.sound.report hg t.itersUsed
  rw [Tree2Search.report]
  generalize t.session.report lib graph t.itersUsed = result at hs
  obtain ⟨new, s⟩ := result
  dsimp only
  split
  case isTrue  => exact ⟨⟨h.beam, hs, by simpa using hg, h.invalid⟩, h.candidates⟩
  case isFalse => exact ⟨h.toValid.session hs, h.candidates⟩

theorem polish (hj : job.Admissible) (hg : graph.IsRamsey job.n job.targetK job.targetEll) :
    (t.polish lib job graph).Scored lib job := by
  have hp : Polished lib (polishArgs job t.itersUsed) job.n job.knownCids _ :=
    ilsPolish_polished hj.le hj.two_le_k hj.two_le_ell (Tree2Config.ofJson job.config).polishIlsRestarts
      (Tree2Config.ofJson job.config).polishIlsPerturb hg h.sound
  rw [Tree2Search.polish]
  split
  case isFalse => exact h
  case isTrue  =>
    generalize ilsPolish lib (polishArgs job t.itersUsed) _ _ graph t.session = result at hp ⊢
    obtain ⟨polished, s⟩ := result
    cases polished
    case none       => exact ⟨⟨h.beam, hp.sound, h.valid, h.invalid⟩, h.candidates⟩
    case some graph => exact ⟨⟨h.beam, hp.sound, hp.best, h.invalid⟩, h.candidates⟩

-- The recount establishes that the graph is valid.
theorem verify (hj : job.Admissible) (ho : graph.n = job.n) : (t.verify lib job graph).Scored lib job := by
  rw [Tree2Search.verify]
  split
  case isFalse   => exact h
  case isTrue hv =>
    have hg := (Mirrors.consistent_ofGraph graph).isRamsey (show graph.n ≤ 62 from ho ▸ hj.le) ho hv
    exact h.report hg |>.polish hj hg

theorem verified (hj : job.Admissible) (ho : graph.n = job.n) (c : Prop) [Decidable c] :
    (if c then t.verify lib job graph else t).Scored lib job := by
  split
  case isTrue  => exact h.verify hj ho
  case isFalse => exact h

end Found

section Score

variable (hj : job.Admissible) {parentIdx u v : Nat} {parent : BeamEntry} (hb : t.beam[parentIdx]? = some parent)
  (hp : (u, v) ∈ pairs job.n)
include hj hb hp

-- The candidate of a flip fits its parent.
theorem score : (t.score lib job parentIdx parent u v).Scored lib job := by
  have he := h.beam parent <| List.mem_of_getElem? hb
  have ⟨⟨hkc, hkc'⟩, hei, hei'⟩ := he.counts_flip hj hp
  let c : Candidate :=
    { parentIdx, u, v
      newKc         := (parent.toMirrors.flip u v).red job.targetK job.n
      newEi         := (parent.toMirrors.flip u v).blue job.targetEll job.n
      newViolations := (parent.toMirrors.flip u v).violations job.targetK job.targetEll job.n }
  let t₁ : Tree2Search := { t with
    itersUsed   := t.itersUsed + 1
    scoredCount := t.scoredCount + 1
    candidates  := t.candidates ++ [c] }
  have h₁ : t₁.Scored lib job := by
    refine ⟨⟨h.beam, h.sound, h.valid, h.invalid⟩, fun c' hc => ?_⟩
    cases List.mem_append.mp hc
    case inl hc => exact h.candidates c' hc
    case inr hc => exact List.mem_singleton.mp hc ▸ ⟨parent, hb, hp, rfl, rfl⟩
  have h₂ : (t₁.log [.clamped c.newKc.toInt64, .clamped c.newEi.toInt64]).Scored lib job := by
    refine h₁.log ?_
    simp only [List.forall_mem_cons, Event.Sound]
    exact ⟨max_toInt64 hkc', max_toInt64 hei', by simp⟩
  have ho : (parent.flip u v).graph.n = job.n := Mirrors.n_flip.trans he.order
  have h₃ := h₂.verified hj ho (c.newViolations = 0)
  have hv : (parent.flip u v).graph.RamseyFree job.targetK job.targetEll → c.newViolations = 0 := by
    have hf := he.consistent.flip (he.order ▸ hj.le) (he.order ▸ hp)
    exact (hf.violations_iff job.targetK job.targetEll (Mirrors.n_flip.trans he.order) hj.le).mpr
  have h₄ := h₃.trackInvalid hv
  rw [Tree2Search.score]
  simp only [hkc, hei, clamp_toInt64 hkc', clamp_toInt64 hei']
  exact h₄.progressed parent _ _

end Score

variable (hj : job.Admissible) {p : Nat × Nat} (hp : p ∈ pairs job.n)
include hj hp

-- Flipping the pair twice restores the parent, so the beam is unchanged.
theorem tryEdge (parentIdx : Nat) : (t.tryEdge lib job parentIdx p).value.Scored lib job := by
  have he := h.exhausted
  rw [Tree2Search.tryEdge]
  generalize t.exhausted job = result at he
  obtain ⟨stop, t⟩ := result
  cases stop
  case true => exact he
  case false =>
    simp only [Bool.false_eq_true, if_false]
    split
    case h_1 => exact he
    case h_2 parent hb =>
      have hf := (he.beam parent <| List.mem_of_getElem? hb).flip_flip hj hp
      have ⟨hi, hg⟩ := List.getElem?_eq_some_iff.mp hb
      have hs : t.beam.set parentIdx parent = t.beam := hg ▸ List.set_getElem_self hi
      simp only [hf, hs]
      generalize fastFingerprint (parent.flip p.1 p.2).adjNbrs.masks = fp
      have h₁ : ({ t with seen := insert fp t.seen } : Tree2Search).Scored lib job :=
        ⟨⟨he.beam, he.sound, he.valid, he.invalid⟩, he.candidates⟩
      suffices hk : (if fp ∈ t.seen then { t with seen := insert fp t.seen }
          else { t with seen := insert fp t.seen }.score lib job parentIdx parent p.1 p.2).Scored lib job from
        hk.log hk.held
      split
      case isTrue  => exact h₁
      case isFalse => exact h₁.score hj hb hp

end Scored

section Edges

variable {edges : List (Nat × Nat)} {remaining parentIdx : Nat}

theorem Valid.depthEdges (h : t.Valid lib job) (hj : job.Admissible) {p} (hp : p ∈ t.depthEdges job) : p ∈ pairs job.n := by
  rw [Tree2Search.depthEdges] at hp
  split at hp
  case isFalse => exact hp
  split at hp
  case h_2 => exact hp
  case h_1 best hb =>
    split at hp
    case isFalse => exact hp
    dsimp only at hp
    split at hp
    case isTrue  => exact hp
    case isFalse =>
      have he := h.beam best <| List.argmin_mem hb
      rw [← he.order] at hp ⊢
      exact he.consistent.mem_pairs_of_guilty (he.order ▸ hj.le) hp

theorem mem_edgesIter {p} (h : p ∈ (t.edgesIter edges remaining parentIdx).1) : p ∈ edges := by
  rw [edgesIter] at h
  dsimp only at h
  split at h
  case isFalse => exact h
  case isTrue  =>
    obtain ⟨i, hi, rfl⟩ := List.mem_map.mp h
    exact getD_mem <| List.mem_range.mp <| Session.mem_of_mem_partialShuffle hi

theorem Scored.edgesIter (h : t.Scored lib job) : (t.edgesIter edges remaining parentIdx).2.Scored lib job := by
  rw [Tree2Search.edgesIter]
  dsimp only
  split
  case isTrue  => exact ⟨h.toValid.silent <| t.session.partialShuffle_silent .., h.candidates⟩
  case isFalse => exact h

theorem Scored.tryParent (h : t.Scored lib job) (hj : job.Admissible) (he : ∀ p ∈ edges, p ∈ pairs job.n)
    (remaining parentIdx : Nat) : (t.tryParent lib job edges remaining parentIdx).value.Scored lib job := by
  have hs := h.exhausted
  rw [Tree2Search.tryParent]
  generalize t.exhausted job = result at hs
  obtain ⟨stop, t⟩ := result
  cases stop
  case true  => exact hs
  case false =>
    exact Loop.run_induction (Scored lib job) (fun t p hp ht => ht.tryEdge hj (he p <| mem_edgesIter hp) parentIdx)
      hs.edgesIter

end Edges

section Select

-- The entry is built from the flipped mirrors, and the recount confirms the counts of the candidate.
theorem materialize_spec (hj : job.Admissible) {parent : BeamEntry} (hp : parent.Exact job) {c : Candidate}
    (hc : c.Fits job parent) (depth : Nat) :
    (materialize job depth parent c).1.Exact job ∧ ∀ e ∈ (materialize job depth parent c).2, e.Sound job.n := by
  have hf := hp.consistent.flip (hp.order ▸ hj.le) (hp.order ▸ hc.pair)
  have ho : (parent.toMirrors.flip c.u c.v).graph.n = job.n := Mirrors.n_flip.trans hp.order
  have ha : NeighborSet.fromAdj (parent.toMirrors.flip c.u c.v).graph = _ := hf.adjNbrs.symm
  have hb : NeighborSet.fromAdj (parent.toMirrors.flip c.u c.v).comp = _ := hf.compNbrs.symm
  have hkc := hc.newKc
  have hei := hc.newEi
  rw [Mirrors.red, ← ha] at hkc
  rw [Mirrors.blue, ← hb] at hei
  rw [materialize]
  dsimp only [Mirrors.flip] at *
  split
  case isTrue  => exact ⟨⟨ho, ⟨hf.comp, rfl, rfl⟩, rfl, rfl, rfl⟩, by simp [Event.Sound, hkc, hei]⟩
  case isFalse => exact ⟨⟨ho, ⟨hf.comp, rfl, rfl⟩, hkc, hei, rfl⟩, by simp⟩

theorem mem_sort {threshold : UInt64} {candidates : List Candidate} {c : Candidate} :
    c ∈ Candidate.sort threshold candidates ↔ c ∈ candidates :=
  List.mem_insertionSort _

theorem Scored.select (h : t.Scored lib job) (hj : job.Admissible) (depth : Nat) : (t.select job depth).Valid lib job := by
  let P (be : List BeamEntry × List Event) : Prop := (∀ e ∈ be.1, e.Exact job) ∧ ∀ e ∈ be.2, e.Sound job.n
  let selected := (Candidate.sort (Tree2Config.ofJson job.config).scoreBiasThreshold t.candidates).take
    (Tree2Config.ofJson job.config).beamWidth
  suffices hp : P (selected.foldl (addEntry job depth t.beam) ([], [])) from
    ⟨hp.1, h.sound.log hp.2, h.valid, h.invalid⟩
  refine Loop.foldl_induction P ?_ ⟨by simp, by simp⟩
  intro be c hc ⟨hb, he⟩
  have ⟨parent, hp, hf⟩ := h.candidates c <| mem_sort.mp <| List.mem_of_mem_take hc
  have ⟨hm, hs⟩ := materialize_spec hj (h.beam parent <| List.mem_of_getElem? hp) hf depth
  simp only [addEntry, hp]
  refine ⟨?_, ?_⟩ <;> simp only [List.mem_append, List.mem_singleton, or_imp, forall_and, forall_eq]
  case refine_1 => exact ⟨hb, hm⟩
  case refine_2 => exact ⟨⟨he, hs⟩, hm.held⟩

end Select

theorem Valid.advance (h : t.Valid lib job) (hj : job.Admissible) (depth : Nat) :
    (t.advance lib job depth).value.Valid lib job := by
  rw [Tree2Search.advance]
  split
  case isTrue  => exact h
  case isFalse =>
    have hs := h.exhausted.1
    generalize t.exhausted job = result at hs
    obtain ⟨stop, t⟩ := result
    cases stop
    case true  => exact hs
    case false =>
      have h₀ : ({ t with candidates := [], scoredCount := 0, polishCalls := 0 } : Tree2Search).Scored lib job :=
        ⟨⟨hs.beam, hs.sound, hs.valid, hs.invalid⟩, by simp⟩
      have he := fun p => hs.depthEdges (p := p) hj
      have h₁ := Loop.run_induction (Scored lib job)
        (fun t' i _ ht => ht.tryParent hj he (job.maxIters - t.itersUsed) i) (l := List.range t.beam.length) h₀
      simp only [Bool.false_eq_true, if_false]
      split
      case isTrue  => exact h₁.toValid
      case isFalse => exact h₁.select hj depth

theorem valid_start (hj : job.Admissible) {seed : AdjacencyMatrix} {s : Session} (ho : seed.n = job.n)
    (hs : s.Sound lib job.n job.targetK job.targetEll job.knownCids) : (start lib job seed s).Valid lib job := by
  have he := BeamEntry.Exact.fromGraph ho
  rw [start]
  generalize BeamEntry.fromGraph seed job.targetK job.targetEll = entry at he
  have h₀ (seen : Finset UInt64) : Scored lib job
      { session := s.log [entry.held job.targetK job.targetEll], seen, beam := [entry], itersUsed := 0,
        discoveryCount := 0, bestValid := none, bestInvalid := none, candidates := [], scoredCount := 0,
        polishCalls := 0 } :=
    ⟨⟨by simpa using he, hs.log <| by simpa using he.held, by simp, by simp⟩, by simp⟩
  have h₁ := (h₀ (insert (fastFingerprint entry.adjNbrs.masks) (job.carryState.getD ∅))).reportProgress entry
    (entry.violations = 0)
  generalize Tree2Search.reportProgress job _ entry _ = t at h₁
  have h₂ : (if entry.violations = 0 then t.report lib entry.graph else t).Scored lib job := by
    split
    case isTrue hv => exact h₁.report <| he.isRamsey hj hv
    case isFalse   => exact h₁
  split
  case isTrue hv =>
    have hi : ¬entry.graph.RamseyFree job.targetK job.targetEll := fun hf =>
      UInt64.lt_irrefl 0 <| (he.violations_iff hj).mpr hf ▸ hv
    exact ⟨h₂.beam, h₂.sound, h₂.valid, by simpa using hi⟩
  case isFalse => exact h₂.toValid

-- The state in which the search ends.
def final (lib : Crates) (job : SearchJob) (rng : Nat → Nat) (cancelled : Nat → Bool) : Tree2Search :=
  let (seed, session) := seedGraph job (.start rng cancelled job.knownCids)
  let t := Loop.run (advance lib job) (start lib job seed session) (List.range (Tree2Config.ofJson job.config).maxDepth)
  t.beam.head?.elim t fun entry => t.reportProgress job entry (entry.violations = 0)

theorem valid_final (lib : Crates) (h : job.Admissible) (rng : Nat → Nat) (cancelled : Nat → Bool) :
    (final lib job rng cancelled).Valid lib job := by
  have ⟨ho, hs⟩ := seedGraph_spec (s := .start rng cancelled job.knownCids) h
  have h₀ : Valid lib job _ := valid_start h ho <| (Session.Sound.start rng cancelled).silent hs
  have h₁ := Loop.run_induction (Valid lib job) (fun t depth _ ht => ht.advance h depth)
    (l := List.range (Tree2Config.ofJson job.config).maxDepth) h₀
  rw [final]
  dsimp only
  generalize Loop.run (advance lib job) _ _ = t at h₁
  cases t.beam.head?
  case none       => exact h₁
  case some entry => exact h₁.reportProgress entry _

end Tree2Search

theorem tree2Search_sound (lib : Crates) {job : SearchJob} (h : job.Admissible) (rng : Nat → Nat)
    (cancelled : Nat → Bool) :
    (tree2Search lib job rng cancelled).2.Sound lib job.n job.targetK job.targetEll job.knownCids :=
  Tree2Search.valid_final lib h rng cancelled |>.sound

-- A flip changes the fingerprint of a graph, so the fingerprint of a child is not the one of its parent.
theorem fastFingerprint_flip_ne {m : AdjacencyMatrix} (hn : m.n ≤ 64) {u v : Nat} (hne : u ≠ v) (hu : u < m.n)
    (hv : v < m.n) :
    fastFingerprint ((NeighborSet.fromAdj m).flipEdge u v).masks ≠ fastFingerprint (NeighborSet.fromAdj m).masks ∧
      ∀ parent : BeamEntry, parent.adjNbrs = .fromAdj m →
        fastFingerprint (parent.flip u v).adjNbrs.masks ≠ fastFingerprint parent.adjNbrs.masks := by
  have hl : (NeighborSet.fromAdj m).masks.length = m.n := AdjacencyMatrix.length_neighborMasks
  rw [← hl] at hn hu hv
  have h := fastFingerprint_flipEdge_ne hn hne hu hv
  refine ⟨h, fun parent hp => ?_⟩
  rw [← hp] at h
  exact h

theorem fastFingerprint_flip_ne_new :
    fastFingerprint ((NeighborSet.fromAdj (.new 3)).flipEdge 2 0).masks ≠
      fastFingerprint (NeighborSet.fromAdj (.new 3)).masks :=
  fastFingerprint_flip_ne (m := .new 3) (by decide) (by decide) (by decide) (by decide) |>.1
