import Extremal.Strategies.Carry
import Extremal.Strategies.Theorems.Search

open ReferenceNauty

theorem List.Pairwise.before {R : α → α → Prop} {l : List α} (h : l.Pairwise R) {a : α} (ha : a ∈ l.tail) :
    ∃ b ∈ l, R b a := by
  cases l
  case nil      => cases ha
  case cons b l => exact ⟨b, .head _, (List.pairwise_cons.mp h).1 a ha⟩

section Passes

variable (body : σ → ι → ForInStep σ) {P : σ → Prop} {R : σ → σ → Prop} (ht : ∀ {r s t}, R r s → R s t → R r t)
include ht

-- The loop rule for a relation between each iteration's state and all those after it.
theorem Loop.passes_pairwise (h : ∀ {s i s'}, P s → body s i = .yield s' → P s' ∧ R s s') {s : σ} (hs : P s)
    (l : List ι) : (Loop.passes body s l).Pairwise (R ·.1 ·.1) ∧
      ∀ pass ∈ Loop.passes body s l, P pass.1 ∧ (pass.1 = s ∨ R s pass.1) := by
  induction l generalizing s
  case nil => simp [Loop.passes]
  case cons i l ih =>
    rw [Loop.passes]
    cases hb : body s i
    case done  => simp [hs]
    case yield s' =>
      obtain ⟨hi, hr⟩ := h hs hb
      obtain ⟨hp, ha⟩ := ih hi
      have hr : ∀ pass ∈ Loop.passes body s' l, R s pass.1 := fun pass hpass =>
        (ha pass hpass).2.elim (fun he => he ▸ hr) (ht hr)
      refine ⟨List.pairwise_cons.mpr ⟨hr, hp⟩, ?_⟩
      rintro pass (_ | ⟨_, hpass⟩)
      · exact ⟨hs, .inl rfl⟩
      · exact ⟨(ha pass hpass).1, .inr <| hr pass hpass⟩

-- The loop rule for a relation between each iteration's state and the one in which the loop ends.
theorem Loop.passes_run (hr : ∀ s, R s s) (hb : ∀ {s i}, P s → R s (body s i).value)
    (hy : ∀ {s i s'}, P s → body s i = .yield s' → P s') {s : σ} (hs : P s) (l : List ι) :
    R s (Loop.run body s l) ∧ ∀ pass ∈ Loop.passes body s l, R pass.1 (Loop.run body s l) := by
  induction l generalizing s
  case nil => simp [Loop.passes, Loop.run, hr]
  case cons i l ih =>
    have hv := hb (i := i) hs
    rw [Loop.passes, Loop.run]
    cases hy' : body s i <;> rw [hy'] at hv
    case done  => simpa using hv
    case yield s' =>
      obtain ⟨hrun, ha⟩ := ih <| hy hs hy'
      have hrun := ht hv hrun
      exact ⟨hrun, List.forall_mem_cons.mpr ⟨hrun, ha⟩⟩

end Passes

def BeamEntry.fingerprint (e : BeamEntry) : UInt64 :=
  fastFingerprint e.adjNbrs.masks

-- The fingerprint of the flip that a candidate stands for.
def Candidate.fingerprint? (beam : List BeamEntry) (c : Candidate) : Option UInt64 :=
  beam[c.parentIdx]?.map fun parent => (parent.flip c.u c.v).fingerprint

namespace Tree2Search

variable {lib : Crates} {job : SearchJob} {t t' : Tree2Search}

-- What the steps leave alone that only report and polish.
structure SameBeam (t t' : Tree2Search) : Prop where
  beam       : t'.beam = t.beam
  seen       : t'.seen = t.seen
  candidates : t'.candidates = t.candidates
  itersUsed  : t'.itersUsed = t.itersUsed

namespace SameBeam

theorem refl (t : Tree2Search) : t.SameBeam t :=
  ⟨rfl, rfl, rfl, rfl⟩

theorem trans {t'' : Tree2Search} (h : t.SameBeam t') (h' : t'.SameBeam t'') : t.SameBeam t'' where
  beam       := h'.beam.trans h.beam
  seen       := h'.seen.trans h.seen
  candidates := h'.candidates.trans h.candidates
  itersUsed  := h'.itersUsed.trans h.itersUsed

theorem log (events : List Event) : t.SameBeam (t.log events) :=
  ⟨rfl, rfl, rfl, rfl⟩

theorem reportProgress (entry : BeamEntry) (valid : Bool) : t.SameBeam (t.reportProgress job entry valid) :=
  ⟨rfl, rfl, rfl, rfl⟩

theorem exhausted (job : SearchJob) (t : Tree2Search) : t.SameBeam (t.exhausted job).2 := by
  rw [Tree2Search.exhausted]
  split <;> exact ⟨rfl, rfl, rfl, rfl⟩

theorem report (graph : AdjacencyMatrix) : t.SameBeam (t.report lib graph) := by
  rw [Tree2Search.report]
  dsimp only
  split <;> exact ⟨rfl, rfl, rfl, rfl⟩

theorem polish (graph : AdjacencyMatrix) : t.SameBeam (t.polish lib job graph) := by
  rw [Tree2Search.polish]
  split
  case isFalse => exact refl t
  case isTrue  =>
    dsimp only
    split <;> exact ⟨rfl, rfl, rfl, rfl⟩

theorem verify (graph : AdjacencyMatrix) : t.SameBeam (t.verify lib job graph) := by
  rw [Tree2Search.verify]
  split
  case isTrue  => exact (report graph).trans (polish graph)
  case isFalse => exact refl t

theorem trackInvalid (graph : AdjacencyMatrix) (violations : UInt64) : t.SameBeam (t.trackInvalid graph violations) := by
  rw [Tree2Search.trackInvalid]
  split <;> exact ⟨rfl, rfl, rfl, rfl⟩

theorem edgesIter (edges : List (Nat × Nat)) (remaining parentIdx : Nat) :
    t.SameBeam (t.edgesIter edges remaining parentIdx).2 := by
  rw [Tree2Search.edgesIter]
  dsimp only
  split <;> exact ⟨rfl, rfl, rfl, rfl⟩

theorem ite {c : Prop} [Decidable c] (h : t.SameBeam t') : t.SameBeam (if c then t' else t) := by
  split
  case isTrue  => exact h
  case isFalse => exact refl t

end SameBeam

-- An evaluation adds one candidate.
theorem score_spec (lib : Crates) (job : SearchJob) (t : Tree2Search) (parentIdx : Nat) (parent : BeamEntry) (u v : Nat) : ∃ c : Candidate,
    c.parentIdx = parentIdx ∧ c.u = u ∧ c.v = v ∧
      { t with candidates := t.candidates ++ [c], itersUsed := t.itersUsed + 1 }.SameBeam
        (t.score lib job parentIdx parent u v) := by
  let newKc := clamp (parent.kc.toInt64 + (parent.delta job.targetK job.targetEll u v).1)
  let newEi := clamp (parent.ei.toInt64 + (parent.delta job.targetK job.targetEll u v).2)
  refine ⟨{ parentIdx, u, v, newViolations := newKc + newEi, newKc, newEi }, rfl, rfl, rfl, ?_⟩
  rw [score]
  refine SameBeam.trans ?_ <| .ite <| .reportProgress parent _
  refine SameBeam.trans ?_ <| .trackInvalid _ _
  refine SameBeam.trans ?_ <| .ite <| .verify _
  exact ⟨rfl, rfl, rfl, rfl⟩

-- What the trial of a flip does: nothing, or an evaluation of a new fingerprint.
inductive Trial (job : SearchJob) (t t' : Tree2Search) : Prop
  | skip (h : t.SameBeam t')
  | evaluate (fp : UInt64) (c : Candidate) (hb : t'.beam = t.beam) (hn : fp ∉ t.seen) (hs : t'.seen = insert fp t.seen)
    (hc : t'.candidates = t.candidates ++ [c]) (hfp : c.fingerprint? t.beam = some fp)
    (hi : t'.itersUsed = t.itersUsed + 1) (hl : t.itersUsed < job.maxIters)

theorem not_exhausted (h : (t.exhausted job).1 = false) : t.itersUsed < job.maxIters := by
  rw [exhausted] at h
  split at h
  case isTrue    => cases h
  case isFalse h => omega

theorem Scored.trial (h : t.Scored lib job) (hj : job.Admissible) {p : Nat × Nat} (hp : p ∈ pairs job.n)
    (parentIdx : Nat) : Trial job t (t.tryEdge lib job parentIdx p).value := by
  have he := h.exhausted
  have hx := SameBeam.exhausted job t
  have hl : (t.exhausted job).1 = false → t.itersUsed < job.maxIters := not_exhausted
  rw [Tree2Search.tryEdge]
  generalize t.exhausted job = result at he hx hl
  obtain ⟨stop, t₁⟩ := result
  cases stop
  case true  => exact .skip hx
  case false =>
    simp only [Bool.false_eq_true, if_false]
    split
    case h_1 => exact .skip hx
    case h_2 parent hb =>
      have hf := (he.beam parent <| List.mem_of_getElem? hb).flip_flip hj hp
      obtain ⟨hi, hg⟩ := List.getElem?_eq_some_iff.mp hb
      have hs : t₁.beam.set parentIdx parent = t₁.beam := hg ▸ List.set_getElem_self hi
      have hfp : fastFingerprint (parent.flip p.1 p.2).adjNbrs.masks = (parent.flip p.1 p.2).fingerprint := rfl
      simp only [hf, hs, hfp]
      split
      case isTrue hk =>
        rw [Finset.insert_eq_of_mem hk]
        exact .skip <| hx.trans <| .log _
      case isFalse hk =>
        let t₂ : Tree2Search := { t₁ with seen := insert (parent.flip p.1 p.2).fingerprint t₁.seen }
        obtain ⟨c, hi, hu, hv, hc⟩ := score_spec lib job t₂ parentIdx parent p.1 p.2
        have hc := hc.trans <| .log (t₂.score lib job parentIdx parent p.1 p.2 |>.beam.map <| BeamEntry.held job.targetK job.targetEll)
        have hp : c.fingerprint? t.beam = some (parent.flip p.1 p.2).fingerprint := by
          rw [Candidate.fingerprint?, hi, hu, hv, ← hx.beam, hb]
          rfl
        exact .evaluate (parent.flip p.1 p.2).fingerprint c (hc.beam.trans hx.beam) (hx.seen ▸ hk)
          (hc.seen.trans <| congrArg (insert _) hx.seen) (hc.candidates.trans <| congrArg (· ++ [c]) hx.candidates) hp
          (hc.itersUsed.trans <| congrArg (· + 1) hx.itersUsed) (hx.itersUsed ▸ hl rfl)

-- The fingerprints of the candidates of a depth.
def fingerprints (t : Tree2Search) : List UInt64 :=
  t.candidates.filterMap (·.fingerprint? t.beam)

-- Since it had the fingerprints in `base`, the search has added one for each evaluation.
structure Counts (job : SearchJob) (base : Finset UInt64) (t : Tree2Search) : Prop where
  carried   : base ⊆ t.seen
  seen      : t.seen.card = base.card + t.itersUsed
  itersUsed : t.itersUsed ≤ job.maxIters

-- Within a depth that starts with the fingerprints in `old`, the ones of the candidates are new.
structure Fresh (job : SearchJob) (base old : Finset UInt64) (t : Tree2Search) : Prop extends t.Counts job base where
  kept  : old ⊆ t.seen
  nodup : t.fingerprints.Nodup
  new   : ∀ fp ∈ t.fingerprints, fp ∈ t.seen ∧ fp ∉ old

section Fresh

variable {base old : Finset UInt64}

theorem Counts.sameBeam (h : t.Counts job base) (hs : t.SameBeam t') : t'.Counts job base where
  carried   := hs.seen ▸ h.carried
  seen      := hs.seen ▸ hs.itersUsed ▸ h.seen
  itersUsed := hs.itersUsed ▸ h.itersUsed

theorem Fresh.sameBeam (h : t.Fresh job base old) (hs : t.SameBeam t') : t'.Fresh job base old := by
  have hf : t'.fingerprints = t.fingerprints := by rw [fingerprints, fingerprints, hs.beam, hs.candidates]
  exact ⟨h.toCounts.sameBeam hs, hs.seen ▸ h.kept, hf ▸ h.nodup, hf ▸ hs.seen ▸ h.new⟩

theorem Fresh.trial (h : t.Fresh job base old) (ht : Trial job t t') : t'.Fresh job base old := by
  cases ht
  case skip hs => exact h.sameBeam hs
  case evaluate fp c hb hn hs hc hfp hi hl =>
    have hf : t'.fingerprints = t.fingerprints ++ [fp] := by
      rw [fingerprints, fingerprints, hb, hc, List.filterMap_append]
      simp [hfp]
    have hg : t.seen ⊆ t'.seen := hs ▸ Finset.subset_insert ..
    constructor
    case kept  => exact h.kept.trans hg
    case nodup =>
      rw [hf, List.nodup_append_comm, List.singleton_append, List.nodup_cons]
      exact ⟨fun hm => hn (h.new fp hm).1, h.nodup⟩
    case new =>
      rw [hf]
      intro fp' hm
      rcases List.mem_append.mp hm with hm | hm
      · exact ⟨hg (h.new fp' hm).1, (h.new fp' hm).2⟩
      · cases List.mem_singleton.mp hm
        exact ⟨hs ▸ Finset.mem_insert_self .., fun ho => hn <| h.kept ho⟩
    case toCounts =>
      refine ⟨h.carried.trans hg, ?_, by omega⟩
      rw [hs, Finset.card_insert_of_notMem hn, h.seen, hi, Nat.add_assoc]

theorem Fresh.tryParent (h : t.Fresh job base old) (hs : t.Scored lib job) (hj : job.Admissible)
    {edges : List (Nat × Nat)} (he : ∀ p ∈ edges, p ∈ pairs job.n) (remaining parentIdx : Nat) :
    (t.tryParent lib job edges remaining parentIdx).value.Fresh job base old := by
  have hx := SameBeam.exhausted job t
  have hs := hs.exhausted
  rw [Tree2Search.tryParent]
  generalize t.exhausted job = result at hx hs
  obtain ⟨stop, t₁⟩ := result
  cases stop
  case true  => exact h.sameBeam hx
  case false =>
    have h₁ : (t₁.edgesIter edges remaining parentIdx).2.Fresh job base old := h.sameBeam <| hx.trans <| .edgesIter ..
    refine Loop.run_induction (fun t : Tree2Search => t.Scored lib job ∧ t.Fresh job base old)
      (fun t p hp h => ?_) ⟨hs.edgesIter, h₁⟩ |>.2
    obtain ⟨hs, ht⟩ := h
    have hp := he p <| mem_edgesIter hp
    exact ⟨hs.tryEdge hj hp parentIdx, ht.trial <| hs.trial hj hp parentIdx⟩

end Fresh

section Select

-- The new entry is the flip that its candidate stands for.
theorem fingerprint_materialize (hj : job.Admissible) {parent : BeamEntry} (hp : parent.Exact job) {c : Candidate}
    (hc : c.Fits job parent) (depth : Nat) :
    (materialize job depth parent c).1.fingerprint = (parent.flip c.u c.v).fingerprint := by
  have hf := hp.consistent.flip (hp.order ▸ hj.le) (hp.order ▸ hc.pair)
  have ha : NeighborSet.fromAdj (parent.toMirrors.flip c.u c.v).graph = _ := hf.adjNbrs.symm
  rw [BeamEntry.fingerprint, materialize]
  dsimp only [Mirrors.flip] at ha
  split <;> exact congrArg (fun nbrs : NeighborSet => fastFingerprint nbrs.masks) ha

def beamFingerprints (t : Tree2Search) : List UInt64 :=
  t.beam.map (·.fingerprint)

-- The new beam is a selection of the candidates.
theorem Scored.beamFingerprints_select (h : t.Scored lib job) (hj : job.Admissible) (depth : Nat) :
    (t.select job depth).beamFingerprints.Subperm t.fingerprints := by
  have hc (l : List Candidate) (hl : ∀ c ∈ l, c ∈ t.candidates) (be : List BeamEntry × List Event) :
      (l.foldl (addEntry job depth t.beam) be).1.map (·.fingerprint) =
        be.1.map (·.fingerprint) ++ l.filterMap (·.fingerprint? t.beam) := by
    induction l generalizing be
    case nil => simp
    case cons c l ih =>
      have ⟨parent, hp, hf⟩ := h.candidates c <| hl c <| .head _
      have hm := fingerprint_materialize hj (h.beam parent <| List.mem_of_getElem? hp) hf depth
      rw [List.foldl_cons, ih (fun c hc => hl c <| .tail _ hc)]
      simp [addEntry, hp, Candidate.fingerprint?, hm]
  have hs := List.perm_insertionSort
    (Candidate.compare (Tree2Config.ofJson job.config).scoreBiasThreshold · · ≠ .gt) t.candidates
  have ht := List.take_sublist (Tree2Config.ofJson job.config).beamWidth <|
    Candidate.sort (Tree2Config.ofJson job.config).scoreBiasThreshold t.candidates
  have he : (t.select job depth).beamFingerprints = _ := hc _ (fun c hc => mem_sort.mp <| ht.subset hc) ([], [])
  rw [he]
  exact (ht.filterMap _).subperm.trans (hs.filterMap _).subperm

end Select

-- When a depth starts, the fingerprints of the beam are different ones.
structure Spread (job : SearchJob) (base : Finset UInt64) (t : Tree2Search) : Prop extends t.Counts job base where
  nodup : t.beamFingerprints.Nodup
  known : ∀ fp ∈ t.beamFingerprints, fp ∈ t.seen

-- What a later depth's beam has of an earlier one.
structure Later (t t' : Tree2Search) : Prop where
  seen  : t.seen ⊆ t'.seen
  fresh : ∀ fp ∈ t'.beamFingerprints, fp ∉ t.seen

theorem Later.trans {t'' : Tree2Search} (h : t.Later t') (h' : t'.Later t'') : t.Later t'' where
  seen       := h.seen.trans h'.seen
  fresh fp m := fun hs => h'.fresh fp m <| h.seen hs

theorem Fresh.select {base old : Finset UInt64} (h : t.Fresh job base old) (hs : t.Scored lib job) (hj : job.Admissible)
    (depth : Nat) : (t.select job depth).Spread job base ∧ ∀ fp ∈ (t.select job depth).beamFingerprints, fp ∉ old := by
  have ⟨l, hp, hl⟩ := hs.beamFingerprints_select hj depth
  have hn := fun fp hm => h.new fp <| hl.subset <| hp.mem_iff.mpr hm
  have hc : (t.select job depth).Counts job base := ⟨h.carried, h.seen, h.itersUsed⟩
  exact ⟨⟨hc, hp.nodup_iff.mp <| h.nodup.sublist hl, fun fp hm => (hn fp hm).1⟩, fun fp hm => (hn fp hm).2⟩

theorem Valid.scoring (h : t.Valid lib job) (hj : job.Admissible) {base : Finset UInt64} (hc : t.Counts job base) :
    let t₀ : Tree2Search := { t with candidates := [], scoredCount := 0, polishCalls := 0 }
    let t₁ := Loop.run (tryParent lib job (t.depthEdges job) (job.maxIters - t.itersUsed)) t₀ (List.range t.beam.length)
    t₁.Scored lib job ∧ t₁.Fresh job base t.seen := by
  refine Loop.run_induction (fun t' : Tree2Search => t'.Scored lib job ∧ t'.Fresh job base t.seen)
    (fun t' i _ ⟨hs, hf⟩ => ?_) ⟨⟨⟨h.beam, h.sound, h.valid, h.invalid⟩, by simp⟩, ?_⟩
  case refine_1 =>
    have he := fun p => h.depthEdges (p := p) hj
    exact ⟨hs.tryParent hj he _ i, hf.tryParent hs hj he _ i⟩
  case refine_2 => exact ⟨⟨hc.carried, hc.seen, hc.itersUsed⟩, Finset.Subset.refl _, .nil, by simp [fingerprints]⟩

-- A depth only adds fingerprints, and its new beam has fingerprints that the search had not seen before it.
theorem Valid.advance_later (h : t.Valid lib job) (hj : job.Admissible) {base : Finset UInt64} (hc : t.Counts job base)
    (depth : Nat) :
    t.seen ⊆ (t.advance lib job depth).value.seen ∧ (t.advance lib job depth).value.Counts job base ∧
      ∀ t', t.advance lib job depth = .yield t' → t'.Spread job base ∧ t.Later t' := by
  rw [Tree2Search.advance]
  split
  case isTrue  => exact ⟨Finset.Subset.refl _, hc, by simp⟩
  case isFalse =>
    have hs := h.exhausted.1
    have hx := SameBeam.exhausted job t
    generalize t.exhausted job = result at hs hx
    obtain ⟨stop, t₁⟩ := result
    have hc := hc.sameBeam hx
    rw [← hx.seen]
    cases stop
    case true  => exact ⟨Finset.Subset.refl _, hc, by simp⟩
    case false =>
      obtain ⟨hs, hf⟩ := hs.scoring hj hc
      simp only [Bool.false_eq_true, if_false]
      split
      case isTrue  => exact ⟨hf.kept, hf.toCounts, by simp⟩
      case isFalse =>
        obtain ⟨hb, hn⟩ := hf.select hs hj depth
        refine ⟨hf.kept, hb.toCounts, ?_⟩
        rintro t' ⟨⟩
        exact ⟨hb, hx.seen ▸ hf.kept, hx.seen ▸ hn⟩

-- The fingerprints that a search with a seed starts from.
def carried (job : SearchJob) (seed : AdjacencyMatrix) : Finset UInt64 :=
  insert (fastFingerprint (NeighborSet.fromAdj seed).masks) (job.carryState.getD ∅)

-- What holds when a depth starts.
structure Started (lib : Crates) (job : SearchJob) (base : Finset UInt64) (t : Tree2Search) : Prop extends
    t.Valid lib job, t.Spread job base

namespace Started

variable {base : Finset UInt64} (hj : job.Admissible)
include hj

theorem yield (h : t.Started lib job base) (depth : Nat) {t'} (hy : t.advance lib job depth = .yield t') :
    t'.Started lib job base ∧ t.Later t' := by
  have ⟨hs, hl⟩ := (h.toValid.advance_later hj h.toCounts depth).2.2 t' hy
  have ht := h.toValid.advance hj depth
  rw [hy] at ht
  exact ⟨⟨ht, hs⟩, hl⟩

theorem passes (h : t.Started lib job base) (l : List Nat) :
    (Loop.passes (advance lib job) t l).Pairwise (·.1.Later ·.1) ∧
      ∀ depth ∈ Loop.passes (advance lib job) t l, depth.1.Started lib job base := by
  have hy {t : Tree2Search} {depth t'} (h : t.Started lib job base) (hy : t.advance lib job depth = .yield t') :
      t'.Started lib job base ∧ t.Later t' := h.yield hj depth hy
  have ⟨hp, ha⟩ := Loop.passes_pairwise (advance lib job) (R := Later) .trans hy h l
  exact ⟨hp, fun depth hd => (ha depth hd).1⟩

theorem run (h : t.Started lib job base) (l : List Nat) : (Loop.run (advance lib job) t l).Counts job base ∧
    ∀ depth ∈ Loop.passes (advance lib job) t l, depth.1.seen ⊆ (Loop.run (advance lib job) t l).seen := by
  let R (t t' : Tree2Search) : Prop := t.seen ⊆ t'.seen ∧ (t.Counts job base → t'.Counts job base)
  have ht {r s t} (h : R r s) (h' : R s t) : R r t := ⟨h.1.trans h'.1, h'.2 ∘ h.2⟩
  have hb {t : Tree2Search} {depth} (h : t.Started lib job base) : R t (t.advance lib job depth).value :=
    have hl := h.toValid.advance_later hj h.toCounts depth
    ⟨hl.1, fun _ => hl.2.1⟩
  have hy {t : Tree2Search} {depth t'} (h : t.Started lib job base) (hy : t.advance lib job depth = .yield t') :
      t'.Started lib job base := (h.yield hj depth hy).1
  have ⟨hr, ha⟩ := Loop.passes_run (advance lib job) (R := R) ht (fun t => ⟨Finset.Subset.refl _, id⟩) hb hy h l
  exact ⟨hr.2 h.toCounts, fun depth hd => (ha depth hd).1⟩

end Started
end Tree2Search
