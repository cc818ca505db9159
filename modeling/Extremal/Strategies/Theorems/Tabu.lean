import Extremal.Strategies.Tabu
import Extremal.Strategies.Theorems.Polish

-- A move of the search: it carries the change in violations that its pair causes.
structure TabuMove.Fits (m : Mirrors) (k ell : Nat) (move : TabuMove) : Prop where
  pair  : (move.u, move.v) ∈ pairs m.graph.n
  delta : move.delta = (m.delta k ell move.u move.v).1 + (m.delta k ell move.u move.v).2

namespace TabuSearch

variable {lib : Crates} {job : SearchJob} {t : TabuSearch}

-- The states differ in the session and in the valid graphs that were found.
structure Frame (t t' : TabuSearch) : Prop where
  mirrors            : t'.mirrors = t.mirrors
  violations         : t'.violations = t.violations
  tabuUntil          : t'.tabuUntil = t.tabuUntil
  bestEverViolations : t'.bestEverViolations = t.bestEverViolations
  bestInvalid        : t'.bestInvalid = t.bestInvalid

theorem Frame.trans {t' t'' : TabuSearch} (h : t.Frame t') (h' : t'.Frame t'') : t.Frame t'' where
  mirrors            := h'.mirrors.trans h.mirrors
  violations         := h'.violations.trans h.violations
  tabuUntil          := h'.tabuUntil.trans h.tabuUntil
  bestEverViolations := h'.bestEverViolations.trans h.bestEverViolations
  bestInvalid        := h'.bestInvalid.trans h.bestInvalid

theorem frame_report (lib : Crates) (iter : Nat) : t.Frame (t.report lib iter) := by
  rw [TabuSearch.report]
  generalize t.session.report lib t.mirrors.graph iter = result
  obtain ⟨new, s⟩ := result
  cases new <;> exact ⟨rfl, rfl, rfl, rfl, rfl⟩

theorem frame_polish (lib : Crates) (job : SearchJob) (iter : Nat) : t.Frame (t.polish lib job iter) := by
  rw [TabuSearch.polish]
  split <;> exact ⟨rfl, rfl, rfl, rfl, rfl⟩

theorem frame_found (lib : Crates) (job : SearchJob) (iter : Nat) : t.Frame (t.found lib job iter) :=
  (frame_report lib iter).trans (frame_polish lib job iter)

-- The states differ in the session only.
structure Quiet (t t' : TabuSearch) : Prop extends t.Frame t' where
  bestValid : t'.bestValid = t.bestValid

theorem Quiet.refl (t : TabuSearch) : t.Quiet t :=
  ⟨⟨rfl, rfl, rfl, rfl, rfl⟩, rfl⟩

theorem Quiet.trans {t' t'' : TabuSearch} (h : t.Quiet t') (h' : t'.Quiet t'') : t.Quiet t'' :=
  ⟨h.toFrame.trans h'.toFrame, h'.bestValid.trans h.bestValid⟩

theorem quiet_session (t : TabuSearch) (s : Session) : t.Quiet { t with session := s } :=
  ⟨⟨rfl, rfl, rfl, rfl, rfl⟩, rfl⟩

theorem quiet_choose (job : SearchJob) (iter : Nat) : t.Quiet (t.choose job iter).2 := by
  rw [TabuSearch.choose]
  split <;> exact ⟨⟨rfl, rfl, rfl, rfl, rfl⟩, rfl⟩

-- The search keeps the exact number of violations of consistent mirrors.
structure Valid (lib : Crates) (job : SearchJob) (t : TabuSearch) : Prop where
  order      : t.mirrors.graph.n = job.n
  consistent : t.mirrors.Consistent
  violations : t.violations = t.mirrors.violations job.targetK job.targetEll job.n
  sound      : t.session.Sound lib job.n job.targetK job.targetEll job.knownCids

namespace Valid

variable (h : t.Valid lib job)
include h

theorem held : (Event.held t.mirrors (t.counters job)).Sound job.n := by
  refine ⟨h.order, h.consistent, ?_⟩
  simp [counters, Counter.count, Counter.recount, h.violations, h.order, Mirrors.violations]

theorem session {s : Session} (hs : s.Sound lib job.n job.targetK job.targetEll job.knownCids) :
    { t with session := s }.Valid lib job :=
  ⟨h.order, h.consistent, h.violations, hs⟩

theorem silent {s : Session} (hs : t.session.Silent s) : { t with session := s }.Valid lib job :=
  h.session <| h.sound.silent hs

theorem recount : (t.recount job).Valid lib job :=
  ⟨h.order, h.consistent, rfl, h.sound.log <| by simp [Event.Sound, h.violations, Mirrors.violations]⟩

theorem reportProgress (iter : Nat) (valid : Bool) : (t.reportProgress job iter valid).Valid lib job :=
  h.silent <| t.session.reportProgress_silent _

theorem isRamsey (hj : job.Admissible) (hv : t.violations = 0) :
    t.mirrors.graph.IsRamsey job.n job.targetK job.targetEll :=
  h.consistent.isRamsey (h.order ▸ hj.le) h.order (h.violations ▸ hv)

theorem report (hg : t.mirrors.graph.IsRamsey job.n job.targetK job.targetEll) (iter : Nat) :
    (t.report lib iter).Valid lib job ∧ (t.report lib iter).mirrors = t.mirrors := by
  have hs := h.sound.report hg iter
  rw [TabuSearch.report]
  generalize t.session.report lib t.mirrors.graph iter = result at hs
  obtain ⟨new, s⟩ := result
  dsimp only
  split <;> exact ⟨⟨h.order, h.consistent, h.violations, hs⟩, rfl⟩

theorem polish (hj : job.Admissible) (hg : t.mirrors.graph.IsRamsey job.n job.targetK job.targetEll) (iter : Nat) :
    (t.polish lib job iter).Valid lib job := by
  have hp : Polished lib (polishArgs job iter) job.n job.knownCids _ :=
    polishValidGraph_polished hj.le hj.two_le_k hj.two_le_ell hg h.sound
  rw [TabuSearch.polish]
  split
  case isTrue  => exact ⟨h.order, h.consistent, h.violations, hp.sound⟩
  case isFalse => exact h

theorem found (hj : job.Admissible) (hv : t.violations = 0) (iter : Nat) : (t.found lib job iter).Valid lib job := by
  have hg := h.isRamsey hj hv
  have ⟨hr, hm⟩ := h.report hg iter
  exact hr.polish hj (hm ▸ hg) iter

theorem quiet_recount : t.Quiet (t.recount job) :=
  ⟨⟨rfl, h.violations.symm, rfl, rfl, rfl⟩, rfl⟩

-- The recount confirms the count, so the correction is never made.
theorem verify_eq (hv : t.violations = 0) (iter : Nat) : t.verify lib job iter = t.found lib job iter := by
  have ha : t.mirrors.red job.targetK job.n + t.mirrors.blue job.targetEll job.n = 0 :=
    h.violations.symm.trans hv
  simp only [TabuSearch.verify, ha, if_true]

theorem candidates (hj : job.Admissible) {p} (hp : p ∈ t.candidates job) : p ∈ pairs job.n := by
  rw [TabuSearch.candidates] at hp
  split at hp
  case isFalse => exact hp
  dsimp only at hp
  split at hp
  case isTrue  => exact hp
  case isFalse =>
    rw [← h.order] at hp ⊢
    exact h.consistent.mem_pairs_of_guilty (h.order ▸ hj.le) hp

end Valid

section Scan

-- The count that the search predicts for a flip, and computes for a move.
theorem Valid.count_flip (h : t.Valid lib job) (hj : job.Admissible) {u v : Nat} (hp : (u, v) ∈ pairs t.mirrors.graph.n) :
    let delta := t.mirrors.delta job.targetK job.targetEll u v
    t.violations.toInt64 + (delta.1 + delta.2) =
        ((t.mirrors.flip u v).violations job.targetK job.targetEll job.n).toInt64 ∧
      ((t.mirrors.flip u v).violations job.targetK job.targetEll job.n).toNat < 2 ^ 63 := by
  have hn : t.mirrors.graph.n ≤ 62 := h.order ▸ hj.le
  have hv := h.consistent.violations_flip hn hp hj.two_le_k hj.two_le_ell
  have hlt := (h.consistent.flip hn hp).violations_lt (by simpa) job.targetK job.targetEll
  rw [Mirrors.n_flip, h.order] at hlt
  rw [h.order, ← h.violations] at hv
  exact ⟨hv, hlt⟩

theorem Valid.evaluate (h : t.Valid lib job) (hj : job.Admissible) {iter p} (hp : p ∈ pairs job.n)
    {scan : MoveScan TabuMove} (hs : scan.Fits (TabuMove.Fits t.mirrors job.targetK job.targetEll) job.n t.session) :
    (t.evaluate job iter scan p).Fits (TabuMove.Fits t.mirrors job.targetK job.targetEll) job.n t.session := by
  obtain ⟨u, v⟩ := p
  rw [← h.order] at hp
  have ⟨hc, hlt⟩ := h.count_flip hj hp
  refine hs.consider ⟨hp, rfl⟩ ?_ ..
  simp only [List.forall_mem_cons]
  exact ⟨hc ▸ max_toInt64 hlt, h.held, by simp⟩

theorem Valid.scan (h : t.Valid lib job) (hj : job.Admissible) (iter : Nat) :
    (t.scan job iter).Fits (TabuMove.Fits t.mirrors job.targetK job.targetEll) job.n t.session :=
  Loop.foldl_induction _ (fun _ _ hp hs => h.evaluate hj (h.candidates hj hp) hs) (.start ..)

end Scan

section Step

theorem Valid.randomMove (h : t.Valid lib job) (hj : job.Admissible) :
    (t.randomMove job).2.Valid lib job ∧ (t.randomMove job).1.Fits (t.randomMove job).2.mirrors job.targetK job.targetEll := by
  have hp := t.session.choose_mem hj.pairs_ne_nil
  have hs := t.session.choose_silent (pairs job.n)
  rw [TabuSearch.randomMove]
  generalize t.session.choose (pairs job.n) = choice at hp hs
  obtain ⟨⟨u, v⟩, s⟩ := choice
  exact ⟨h.silent hs, h.order ▸ hp, rfl⟩

theorem Valid.choose (h : t.Valid lib job) (hj : job.Admissible) (iter : Nat) :
    (t.choose job iter).2.Valid lib job ∧
      (t.choose job iter).1.Fits (t.choose job iter).2.mirrors job.targetK job.targetEll := by
  have hf := h.scan hj iter
  have ⟨events, he, hs⟩ := hf.logged
  have ht := h.session <| hs ▸ h.sound.log he
  rw [TabuSearch.choose]
  split
  case h_1 move hm => exact ⟨ht, hf.chosen move hm⟩
  case h_2         => exact ht.randomMove hj

theorem Valid.apply (h : t.Valid lib job) (hj : job.Admissible) {move : TabuMove}
    (hm : move.Fits t.mirrors job.targetK job.targetEll) (iter : Nat) : (t.apply job iter move).Valid lib job := by
  have ⟨hc, hlt⟩ := h.count_flip hj hm.pair
  rw [← hm.delta] at hc
  have hf := h.consistent.flip (h.order ▸ hj.le) hm.pair
  have hv : clamp (t.violations.toInt64 + move.delta) =
      (t.mirrors.flip move.u move.v).violations job.targetK job.targetEll job.n := hc ▸ clamp_toInt64 hlt
  have ht : ({ t with mirrors := t.mirrors.flip move.u move.v, violations := clamp (t.violations.toInt64 + move.delta) } :
      TabuSearch).Valid lib job := ⟨Mirrors.n_flip.trans h.order, hf, hv, h.sound⟩
  refine ⟨ht.order, ht.consistent, ht.violations, h.sound.log ?_⟩
  simp only [List.forall_mem_cons]
  exact ⟨hc ▸ max_toInt64 hlt, ht.held, by simp⟩

-- A valid graph is reported and polished.
def settle (lib : Crates) (job : SearchJob) (t : TabuSearch) (iter : Nat) : TabuSearch :=
  if t.violations = 0 then t.found lib job iter else t

theorem Valid.settle (h : t.Valid lib job) (hj : job.Admissible) (iter : Nat) : (t.settle lib job iter).Valid lib job := by
  rw [TabuSearch.settle]
  split
  case isTrue hv => exact h.found hj hv iter
  case isFalse   => exact h

theorem Valid.settle_eq (h : t.Valid lib job) (iter : Nat) :
    (if t.violations = 0 then t.verify lib job iter else t) = t.settle lib job iter := by
  rw [TabuSearch.settle]
  split
  case isTrue hv => exact h.verify_eq hv iter
  case isFalse   => rfl

theorem frame_settle (lib : Crates) (job : SearchJob) (iter : Nat) : t.Frame (t.settle lib job iter) := by
  rw [TabuSearch.settle]
  split
  case isTrue  => exact frame_found lib job iter
  case isFalse => exact (Quiet.refl t).toFrame

-- The state after the move of an iteration, unless the search is cancelled.
def moved (job : SearchJob) (t : TabuSearch) (iter : Nat) : Option TabuSearch :=
  let (cancelled, session) := t.session.isCancelled
  let t := { t with session }
  if cancelled then none
  else
    let t         := if iter % 500 = 0 then t.recount job else t
    let (move, t) := t.choose job iter
    some <| t.apply job iter move

-- An iteration stops, or makes the move that it chooses and settles the graph that it comes to.
theorem Valid.advance_cases (h : t.Valid lib job) (hj : job.Admissible) (iter : Nat) :
    (∃ t', t.Quiet t' ∧ t'.Valid lib job ∧ t.moved job iter = none ∧ t.advance lib job iter = .done t') ∨
      ∃ t₁ t₂ t', t.Quiet t₁ ∧ t₁.Valid lib job ∧ t₂ = (t₁.choose job iter).2.apply job iter (t₁.choose job iter).1 ∧
        t₂.Valid lib job ∧ (t₂.settle lib job iter).Quiet t' ∧ t'.Valid lib job ∧ t.moved job iter = some t₂ ∧
        t.advance lib job iter = .yield t' := by
  have h₀ := h.silent t.session.isCancelled_silent
  rw [TabuSearch.advance, moved]
  generalize t.session.isCancelled = answer at h₀
  obtain ⟨cancelled, s⟩ := answer
  have hq := quiet_session t s
  cases cancelled
  case true  => exact .inl ⟨{ t with session := s }, hq, h₀, rfl, rfl⟩
  case false =>
    have ⟨h₁, hq₁⟩ : Valid lib job (if iter % 500 = 0 then { t with session := s }.recount job else { t with session := s }) ∧
        t.Quiet (if iter % 500 = 0 then { t with session := s }.recount job else { t with session := s }) := by
      split
      case isTrue  => exact ⟨h₀.recount, hq.trans h₀.quiet_recount⟩
      case isFalse => exact ⟨h₀, hq⟩
    simp only [Bool.false_eq_true, if_false]
    generalize (if iter % 500 = 0 then { t with session := s }.recount job else { t with session := s }) = t₁ at h₁ hq₁ ⊢
    have ⟨h₂, hm⟩ := h₁.choose hj iter
    have h₃ := h₂.apply hj hm iter
    generalize ht₂ : (t₁.choose job iter).2.apply job iter (t₁.choose job iter).1 = t₂ at h₃ ⊢
    have h₄ := h₃.settle hj iter
    rw [h₃.settle_eq]
    refine .inr ⟨t₁, t₂, _, hq₁, h₁, ht₂.symm, h₃, ?_, ?_, rfl, rfl⟩ <;> split
    case refine_1.isTrue  => exact ⟨⟨rfl, rfl, rfl, rfl, rfl⟩, rfl⟩
    case refine_1.isFalse => exact .refl _
    case refine_2.isTrue  => exact h₄.reportProgress ..
    case refine_2.isFalse => exact h₄

theorem Valid.advance (h : t.Valid lib job) (hj : job.Admissible) (iter : Nat) :
    (t.advance lib job iter).value.Valid lib job := by
  obtain ⟨t', _, hv, _, hc⟩ | ⟨_, _, t', _, _, _, _, _, hv, _, hc⟩ := h.advance_cases hj iter <;> rw [hc]
  case inl => exact hv
  case inr => exact hv

end Step

theorem valid_start {graph : AdjacencyMatrix} {s : Session} (ho : graph.n = job.n)
    (h : s.Sound lib job.n job.targetK job.targetEll job.knownCids) : (start job graph s).Valid lib job where
  order      := ho
  consistent := Mirrors.consistent_ofGraph graph
  violations := rfl
  sound      := h

-- The state in which the iterations start.
def seeded (lib : Crates) (job : SearchJob) (rng : Nat → Nat) (cancelled : Nat → Bool) : TabuSearch :=
  let (graph, session) := seedGraph job (.start rng cancelled job.knownCids)
  let t := (start job graph session).settle lib job 0
  t.reportProgress job 0 (t.violations = 0)

theorem valid_seeded (lib : Crates) (h : job.Admissible) (rng : Nat → Nat) (cancelled : Nat → Bool) :
    (seeded lib job rng cancelled).Valid lib job := by
  have ⟨ho, hs⟩ := seedGraph_spec (s := .start rng cancelled job.knownCids) h
  have h₀ : Valid lib job _ := valid_start ho <| (Session.Sound.start rng cancelled).silent hs
  exact h₀.settle h 0 |>.reportProgress ..

end TabuSearch

-- The iterations of a search, each with the state that it starts from.
def tabuPasses (lib : Crates) (job : SearchJob) (rng : Nat → Nat) (cancelled : Nat → Bool) : List (TabuSearch × Nat) :=
  Loop.passes (TabuSearch.advance lib job) (.seeded lib job rng cancelled) (List.range' 1 job.maxIters)

-- The state in which the iterations end.
def tabuFinal (lib : Crates) (job : SearchJob) (rng : Nat → Nat) (cancelled : Nat → Bool) : TabuSearch :=
  Loop.run (TabuSearch.advance lib job) (.seeded lib job rng cancelled) (List.range' 1 job.maxIters)

theorem tabuSearch_sound (lib : Crates) {job : SearchJob} (h : job.Admissible) (rng : Nat → Nat) (cancelled : Nat → Bool) :
    (tabuSearch lib job rng cancelled).2.Sound lib job.n job.targetK job.targetEll job.knownCids :=
  Loop.run_induction (TabuSearch.Valid lib job) (fun _ iter _ ht => ht.advance h iter)
    (TabuSearch.valid_seeded lib h rng cancelled) |>.sound
