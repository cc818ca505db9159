import Extremal.Strategies.Theorems.Search

open AdjacencyMatrix Record ReferenceNauty

section EdgeIndex

variable {n : Nat} {p q : Nat × Nat}

theorem edgeIndex_eq (hp : p ∈ pairs n) : edgeIndex p.1 p.2 n = bitIndex n p.1 p.2 := by
  rw [edgeIndex, if_pos (mem_pairs.mp hp).1]
  rfl

theorem edgeIndex_lt (hp : p ∈ pairs n) : edgeIndex p.1 p.2 n < n * (n - 1) / 2 := by
  have ⟨hlt, hv⟩ := mem_pairs.mp hp
  exact edgeIndex_eq hp ▸ bitIndex_lt hlt hv

theorem edgeIndex_inj (hp : p ∈ pairs n) (hq : q ∈ pairs n) (h : edgeIndex p.1 p.2 n = edgeIndex q.1 q.2 n) : p = q := by
  rw [edgeIndex_eq hp, edgeIndex_eq hq] at h
  have ⟨h₁, h₂⟩ := bitIndex_inj (mem_pairs.mp hp) (mem_pairs.mp hq) h
  exact Prod.ext h₁ h₂

-- Flips of different pairs lead to different graphs.
theorem Mirrors.flip_inj {m : Mirrors} (hp : p ∈ pairs m.graph.n) (hq : q ∈ pairs m.graph.n)
    (h : m.flip p.1 p.2 = m.flip q.1 q.2) : p = q := by
  have ⟨hlt, hv⟩ := mem_pairs.mp hp
  have ⟨hlt', hv'⟩ := mem_pairs.mp hq
  have he := congrArg (·.graph.edge p.1 p.2) h
  simp only [Mirrors.flip] at he
  rw [edge_setEdge hlt.ne (by omega) hv (by omega) hv, edge_setEdge hlt'.ne (by omega) hv' (by omega) hv] at he
  have hs : s(p.1, p.2) = s(q.1, q.2) := by
    by_contra hs
    simp [hs] at he
  rcases Sym2.eq_iff.mp hs with ⟨h₁, h₂⟩ | ⟨h₁, h₂⟩
  case inl => exact Prod.ext h₁ h₂
  case inr => omega

end EdgeIndex

namespace TabuSearch

section Choose

def moveOf (job : SearchJob) (t : TabuSearch) (p : Nat × Nat) : TabuMove where
  u     := p.1
  v     := p.2
  delta := (t.mirrors.delta job.targetK job.targetEll p.1 p.2).1 + (t.mirrors.delta job.targetK job.targetEll p.1 p.2).2

def isTabu (job : SearchJob) (t : TabuSearch) (iter : Nat) (p : Nat × Nat) : Bool :=
  t.tabuUntil.getD (edgeIndex p.1 p.2 job.n) 0 > iter

def aspires (job : SearchJob) (t : TabuSearch) (p : Nat × Nat) : Bool :=
  clamp (t.violations.toInt64 + (t.moveOf job p).delta) < t.bestEverViolations

-- The moves that are not tabu or aspire.
def moves (job : SearchJob) (t : TabuSearch) (iter : Nat) : Set TabuMove :=
  {move | ∃ p ∈ t.candidates job, (t.isTabu job iter p = false ∨ t.aspires job p = true) ∧ t.moveOf job p = move}

variable {job : SearchJob} {t t' : TabuSearch}

theorem Frame.moves_eq (h : t.Frame t') (iter : Nat) : t'.moves job iter = t.moves job iter := by
  cases t
  cases t'
  obtain ⟨h₁, h₂, h₃, h₄, _⟩ := h
  dsimp only at h₁ h₂ h₃ h₄
  subst h₁ h₂ h₃ h₄
  rfl

-- The search chooses a best one of these moves, if there is one.
theorem choose_least (job : SearchJob) (t : TabuSearch) (iter : Nat) :
    t.moves job iter = ∅ ∨ Least (·.delta.toInt) (t.moves job iter) (t.choose job iter).1 := by
  have hk : Kept (·.delta.toInt) (t.moves job iter) ((t.scan job iter).chosen TabuMove.delta) :=
    MoveScan.kept_chosen (fun _ _ => Int64.le_iff_toInt_le) (fun _ _ => Int64.lt_iff_toInt_lt) t.session
  rw [choose]
  split
  case h_1 move hm => exact .inr <| hk.least move hm
  case h_2 hm      => exact .inl <| (hm ▸ hk).eq_empty

end Choose

section Step

variable {lib : Crates} {job : SearchJob} {t t' : TabuSearch} {iter : Nat} {p : Nat × Nat}

-- An iteration flips the pair `p`.
structure Moves (job : SearchJob) (iter : Nat) (p : Nat × Nat) (t t' : TabuSearch) : Prop where
  mirrors            : t'.mirrors = t.mirrors.flip p.1 p.2
  tabuUntil          : t'.tabuUntil = t.tabuUntil.set (edgeIndex p.1 p.2 job.n)
                         ((iter + (TabuConfig.ofJson job.config).tabuTenure) % 2 ^ 64)
  bestEverViolations : t'.bestEverViolations =
                         if t'.violations < t.bestEverViolations then t'.violations else t.bestEverViolations

theorem Frame.moves (h : t.Frame t') {move : TabuMove} {t'' : TabuSearch} (h' : (t'.apply job iter move).Frame t'') :
    Moves job iter (move.u, move.v) t t'' where
  mirrors            := by rw [h'.mirrors, ← h.mirrors]; rfl
  tabuUntil          := by rw [h'.tabuUntil, ← h.tabuUntil]; rfl
  bestEverViolations := by rw [h'.bestEverViolations, h'.violations, ← h.bestEverViolations]; rfl

-- Only an iteration that has been cancelled stops.
theorem isCancelled_of_done (ha : t.advance lib job iter = .done t') : t.session.isCancelled.1 = true := by
  rw [TabuSearch.advance] at ha
  generalize t.session.isCancelled = answer at ha ⊢
  obtain ⟨cancelled, s⟩ := answer
  cases cancelled
  case true  => rfl
  case false =>
    simp only [Bool.false_eq_true, if_false] at ha
    cases ha

-- An iteration stops or flips a pair. The pair is that of a best move, if there is a move which is not
-- tabu or aspires.
theorem Valid.advance_moves (h : t.Valid lib job) (hj : job.Admissible) (iter : Nat) :
    (∃ t', t.Quiet t' ∧ t'.Valid lib job ∧ t.advance lib job iter = .done t') ∨
      ∃ p t', p ∈ pairs job.n ∧
        (t.moves job iter = ∅ ∨ Least (·.delta.toInt) (t.moves job iter) (t.moveOf job p)) ∧
        Moves job iter p t t' ∧ t'.Valid lib job ∧ t.advance lib job iter = .yield t' := by
  rcases h.advance_cases hj iter with ⟨t', hq, hv, _, ha⟩ | ⟨t₁, t₂, t', hq, h₁, rfl, _, hq', h', _, ha⟩
  case inl => exact .inl ⟨t', hq, hv, ha⟩
  case inr =>
    have ⟨hc, hm⟩ := h₁.choose hj iter
    have hl := hq.moves_eq iter ▸ choose_least job t₁ iter
    have hf := hq.trans <| quiet_choose job iter
    have hs := frame_settle lib job iter |>.trans hq'.toFrame
    generalize (t₁.choose job iter).1 = move at hm hl hs
    generalize (t₁.choose job iter).2 = t₂ at hc hm hf hs
    have hmove : t.moveOf job (move.u, move.v) = move := by
      rw [moveOf, ← hf.mirrors, ← hm.delta]
    exact .inr ⟨(move.u, move.v), t', hc.order ▸ hm.pair, hmove ▸ hl, hf.toFrame.moves hs, h', ha⟩

end Step
end TabuSearch

section Discipline

variable (lib : Crates) (job : SearchJob) (passes : List (TabuSearch × Nat)) (pass : TabuSearch × Nat) (p : Nat × Nat)

-- The iteration flips the pair `p`.
def Flips : Prop :=
  p ∈ pairs job.n ∧ ∃ t, pass.1.advance lib job pass.2 = .yield t ∧ t.mirrors = pass.1.mirrors.flip p.1 p.2

-- The pair was flipped less than the tenure ago.
def IsTabu : Prop :=
  ∃ past ∈ passes, past.2 < pass.2 ∧ pass.2 < past.2 + (TabuConfig.ofJson job.config).tabuTenure ∧ Flips lib job past p

-- The flip of the pair takes the violations below all values so far.
def Aspires : Prop :=
  ∀ past ∈ passes, past.2 ≤ pass.2 →
    (pass.1.mirrors.flip p.1 p.2).violations job.targetK job.targetEll job.n < past.1.violations

-- All candidates are tabu, and none aspires.
def Escapes : Prop :=
  ∀ p ∈ pass.1.candidates job, IsTabu lib job passes pass p ∧ ¬Aspires job passes pass p

end Discipline

namespace TabuSearch

variable {lib : Crates} {job : SearchJob} {t t' : TabuSearch} {iter : Nat} {p q : Nat × Nat}
  {past : List (TabuSearch × Nat)}

-- The tabu list tells which pairs were flipped in the last iterations, and the best count is the least
-- one so far.
structure Disciplined (lib : Crates) (job : SearchJob) (past : List (TabuSearch × Nat)) (t : TabuSearch) : Prop where
  valid  : t.Valid lib job
  length : t.tabuUntil.length = job.n * (job.n - 1) / 2
  table  : ∀ p ∈ pairs job.n, ∀ iter, (∀ pass ∈ past, pass.2 < iter) →
             iter + (TabuConfig.ofJson job.config).tabuTenure ≤ 2 ^ 64 →
             (t.isTabu job iter p = true ↔
               ∃ pass ∈ past, iter < pass.2 + (TabuConfig.ofJson job.config).tabuTenure ∧ Flips lib job pass p)
  record : ∀ count, count < t.bestEverViolations ↔ count < t.violations ∧ ∀ pass ∈ past, count < pass.1.violations

theorem Moves.flips_iff (h : Moves job iter p t t') (hv : t.Valid lib job) (hp : p ∈ pairs job.n)
    (ha : t.advance lib job iter = .yield t') : Flips lib job (t, iter) q ↔ q = p := by
  constructor
  case mp =>
    rintro ⟨hq, _, ha', hm⟩
    obtain rfl := ForInStep.yield.inj <| ha.symm.trans ha'
    rw [← hv.order] at hp hq
    exact Mirrors.flip_inj hq hp <| hm.symm.trans h.mirrors
  case mpr =>
    rintro rfl
    exact ⟨hp, t', ha, h.mirrors⟩

-- The tabu list changes for the flipped pair only.
theorem Moves.isTabu_self (h : Moves job iter p t t') (hl : edgeIndex p.1 p.2 job.n < t.tabuUntil.length)
    (ho : iter + (TabuConfig.ofJson job.config).tabuTenure < 2 ^ 64) (i : Nat) :
    t'.isTabu job i p = true ↔ i < iter + (TabuConfig.ofJson job.config).tabuTenure := by
  rw [isTabu, h.tabuUntil, List.getD_eq_getElem?_getD, List.getElem?_set_self hl, Option.getD_some, Nat.mod_eq_of_lt ho,
    decide_eq_true_eq]

theorem Moves.isTabu_of_ne (h : Moves job iter p t t') (hp : p ∈ pairs job.n) (hq : q ∈ pairs job.n) (hne : q ≠ p)
    (i : Nat) : t'.isTabu job i q = t.isTabu job i q := by
  have hne : edgeIndex p.1 p.2 job.n ≠ edgeIndex q.1 q.2 job.n := fun he => hne (edgeIndex_inj hp hq he).symm
  rw [isTabu, h.tabuUntil, List.getD_eq_getElem?_getD, List.getElem?_set_ne hne, ← List.getD_eq_getElem?_getD, ← isTabu]

theorem Moves.lt_bestEverViolations_iff (h : Moves job iter p t t') (count : UInt64) :
    count < t'.bestEverViolations ↔ count < t'.violations ∧ count < t.bestEverViolations := by
  rw [h.bestEverViolations]
  split
  case isTrue hi  => exact ⟨fun hc => ⟨hc, UInt64.lt_trans hc hi⟩, And.left⟩
  case isFalse hi => exact ⟨fun hc => ⟨UInt64.lt_of_lt_of_le hc <| UInt64.not_lt.mp hi, hc⟩, And.right⟩

theorem exists_append_last {P : TabuSearch × Nat → Prop} :
    (∃ pass ∈ past ++ [(t, iter)], P pass) ↔ (∃ pass ∈ past, P pass) ∨ P (t, iter) := by
  simp [or_and_right, exists_or]

section Advance

variable (h : t.Disciplined lib job past) (hlt : ∀ pass ∈ past, pass.2 < iter)
include h

-- An iteration that stops flips nothing.
theorem Disciplined.done (hq : t.Quiet t') (hv : t'.Valid lib job) (ha : t.advance lib job iter = .done t') :
    t'.Disciplined lib job (past ++ [(t, iter)]) where
  valid  := hv
  length := hq.tabuUntil ▸ h.length
  table q hm i hi ho := by
    have hn : ¬Flips lib job (t, iter) q := by
      rintro ⟨_, _, ha', _⟩
      cases ha.symm.trans ha'
    rw [isTabu, hq.tabuUntil, exists_append_last, ← isTabu]
    simpa [hn] using h.table q hm i (fun pass hp => hi pass <| List.mem_append_left _ hp) ho
  record count := by
    rw [hq.bestEverViolations, hq.violations, h.record, List.forall_mem_append, List.forall_mem_singleton]
    tauto

include hlt

theorem Disciplined.yield (hm : Moves job iter p t t') (hp : p ∈ pairs job.n) (hv : t'.Valid lib job)
    (ha : t.advance lib job iter = .yield t') : t'.Disciplined lib job (past ++ [(t, iter)]) where
  valid  := hv
  length := by rw [hm.tabuUntil, List.length_set, h.length]
  table q hq i hi ho := by
    have hf := hm.flips_iff (q := q) h.valid hp ha
    have hi' := hi (t, iter) (by simp)
    have ht := h.table q hq i (fun pass hp => hi pass <| List.mem_append_left _ hp) ho
    dsimp only at hi'
    rw [exists_append_last, hf]
    by_cases he : q = p
    case pos =>
      subst he
      rw [hm.isTabu_self (h.length ▸ edgeIndex_lt hq) (by omega)]
      simp only [and_true]
      constructor
      case mp  => exact .inr
      case mpr =>
        rintro (⟨pass, hp, hi, _⟩ | hi)
        case inl => have := hlt pass hp; omega
        case inr => exact hi
    case neg =>
      rw [hm.isTabu_of_ne hp hq he, ht]
      simp [he]
  record count := by
    rw [hm.lt_bestEverViolations_iff, h.record, List.forall_mem_append, List.forall_mem_singleton]
    tauto

end Advance

theorem disciplined_seeded (lib : Crates) (hj : job.Admissible) (rng : Nat → Nat) (cancelled : Nat → Bool) :
    (seeded lib job rng cancelled).Disciplined lib job [] := by
  have hv := valid_seeded lib hj rng cancelled
  have hf : (start job _ _).Frame (seeded lib job rng cancelled) :=
    frame_settle lib job 0 |>.trans ⟨rfl, rfl, rfl, rfl, rfl⟩
  constructor
  case valid  => exact hv
  case length => simp [hf.tabuUntil, start]
  case table  =>
    intro p _ iter _ _
    simp [isTabu, hf.tabuUntil, start]
  case record =>
    intro count
    rw [hf.bestEverViolations, hf.violations]
    simp [start]

end TabuSearch

section Passes

variable {lib : Crates} {job : SearchJob} {rng : Nat → Nat} {cancelled : Nat → Bool}
  {before after : List (TabuSearch × Nat)} {pass past : TabuSearch × Nat} {p : Nat × Nat}

theorem passes_pairwise : (tabuPasses lib job rng cancelled).Pairwise (·.2 < ·.2) :=
  List.pairwise_map.mp <| (List.pairwise_lt_range' ..).sublist Loop.passes_prefix.sublist

theorem disciplined_pass (hj : job.Admissible) (he : tabuPasses lib job rng cancelled = before ++ pass :: after) :
    pass.1.Disciplined lib job before := by
  suffices h : Loop.History (TabuSearch.Disciplined lib job) (TabuSearch.advance lib job) (List.range' 1 job.maxIters) from
    h.pass (TabuSearch.disciplined_seeded lib hj rng cancelled) he
  constructor
  intro past t iter hp h
  have hs : (past.map (·.2) ++ [iter]).Pairwise (· < ·) := (List.pairwise_lt_range' ..).sublist hp.sublist
  have hlt : ∀ pass ∈ past, pass.2 < iter := fun pass hm =>
    List.pairwise_append.mp hs |>.2.2 pass.2 (List.mem_map_of_mem hm) iter (List.mem_singleton_self iter)
  obtain ⟨t', hq, hv, ha⟩ | ⟨p, t', hp, _, hm, hv, ha⟩ := h.valid.advance_moves hj iter <;> rw [ha]
  case inl => exact h.done hq hv ha
  case inr => exact h.yield hlt hm hp hv ha

section Split

variable (he : tabuPasses lib job rng cancelled = before ++ pass :: after)
include he

theorem mem_upTo_iff : past ∈ before ∨ past = pass ↔
    past ∈ tabuPasses lib job rng cancelled ∧ past.2 ≤ pass.2 := by
  have hs : (before ++ pass :: after).Pairwise (·.2 < ·.2) := he ▸ passes_pairwise
  have ⟨_, hs, hb⟩ := List.pairwise_append.mp hs
  have ⟨ha, _⟩ := List.pairwise_cons.mp hs
  rw [he, List.mem_append, List.mem_cons]
  constructor
  case mp =>
    rintro (hm | rfl)
    case inl => exact ⟨.inl hm, hb past hm pass (.head _) |>.le⟩
    case inr => exact ⟨.inr <| .inl rfl, le_rfl⟩
  case mpr =>
    rintro ⟨hm | rfl | hm, hle⟩
    case inl     => exact .inl hm
    case inr.inl => exact .inr rfl
    case inr.inr => exact absurd hle <| (ha past hm).not_ge

theorem mem_before_iff : past ∈ before ↔ past ∈ tabuPasses lib job rng cancelled ∧ past.2 < pass.2 := by
  have hs : (before ++ pass :: after).Pairwise (·.2 < ·.2) := he ▸ passes_pairwise
  have hb := List.pairwise_append.mp hs |>.2.2
  constructor
  case mp  => exact fun hm => ⟨mem_upTo_iff he |>.mp (.inl hm) |>.1, hb past hm pass (.head _)⟩
  case mpr =>
    intro ⟨hm, hlt⟩
    refine (mem_upTo_iff he).mpr ⟨hm, hlt.le⟩ |>.resolve_right ?_
    rintro rfl
    exact lt_irrefl _ hlt

variable (hj : job.Admissible) (hp : p ∈ pairs job.n)
include hj hp

-- The tabu list and the best count decide what the history says.

theorem isTabu_iff (ho : pass.2 + (TabuConfig.ofJson job.config).tabuTenure ≤ 2 ^ 64) :
    pass.1.isTabu job pass.2 p = true ↔ IsTabu lib job (tabuPasses lib job rng cancelled) pass p := by
  have hd := disciplined_pass hj he
  rw [hd.table p hp pass.2 (fun past hm => (mem_before_iff he).mp hm |>.2) ho]
  simp only [IsTabu, mem_before_iff he, and_assoc]

theorem aspires_iff : pass.1.aspires job p = true ↔ Aspires job (tabuPasses lib job rng cancelled) pass p := by
  have hd := disciplined_pass hj he
  have ⟨hc, hlt⟩ := hd.valid.count_flip hj (u := p.1) (v := p.2) (hd.valid.order ▸ hp)
  rw [TabuSearch.aspires, decide_eq_true_eq, TabuSearch.moveOf, hc, clamp_toInt64 hlt, hd.record]
  constructor
  case mp =>
    intro ⟨hv, hb⟩ past hm hle
    rcases (mem_upTo_iff he).mpr ⟨hm, hle⟩ with hm | rfl
    case inl => exact hb past hm
    case inr => exact hv
  case mpr =>
    intro h
    have h' (past) (hm : past ∈ before ∨ past = pass) := h past ((mem_upTo_iff he).mp hm).1 ((mem_upTo_iff he).mp hm).2
    exact ⟨h' pass (.inr rfl), fun past hm => h' past (.inl hm)⟩

omit hp in
-- Every iteration flips one pair, unless it is cancelled.
theorem existsUnique_flips : pass.1.session.isCancelled.1 = true ∨ ∃! p, Flips lib job pass p := by
  have hv := disciplined_pass hj he |>.valid
  rcases hv.advance_moves hj pass.2 with ⟨t, _, _, ha⟩ | ⟨p, t', hp, _, hm, _, ha⟩
  case inl => exact .inl <| TabuSearch.isCancelled_of_done ha
  case inr => exact .inr ⟨p, (hm.flips_iff hv hp ha).mpr rfl, fun q hq => (hm.flips_iff hv hp ha).mp hq⟩

omit hp in
-- The flip of an iteration is an escape, or it is the best one of the candidates that are not tabu or
-- aspire.
theorem escapes_or_least (ho : pass.2 + (TabuConfig.ofJson job.config).tabuTenure ≤ 2 ^ 64)
    (hf : Flips lib job pass p) :
    let passes := tabuPasses lib job rng cancelled
    Escapes lib job passes pass ∨
      p ∈ pass.1.candidates job ∧ (¬IsTabu lib job passes pass p ∨ Aspires job passes pass p) ∧
        ∀ q ∈ pass.1.candidates job, ¬IsTabu lib job passes pass q ∨ Aspires job passes pass q →
          (pass.1.moveOf job p).delta ≤ (pass.1.moveOf job q).delta := by
  have hv := disciplined_pass hj he |>.valid
  have hel (q) (hq : q ∈ pass.1.candidates job) : pass.1.isTabu job pass.2 q = false ∨ pass.1.aspires job q = true ↔
      ¬IsTabu lib job (tabuPasses lib job rng cancelled) pass q ∨
        Aspires job (tabuPasses lib job rng cancelled) pass q := by
    have hq := hv.candidates hj hq
    rw [← isTabu_iff he hj hq ho, ← aspires_iff he hj hq, Bool.not_eq_true]
  rcases hv.advance_moves hj pass.2 with ⟨_, _, _, ha⟩ | ⟨q, t', hq, hl, hm, _, ha⟩
  case inl =>
    obtain ⟨_, _, ha', _⟩ := hf
    cases ha.symm.trans ha'
  case inr =>
    obtain rfl := (hm.flips_iff hv hq ha).mp hf
    rcases hl with hn | ⟨⟨r, hr, hel', hm⟩, hl⟩
    case inl =>
      refine .inl fun q hq => ?_
      have hn : ¬(pass.1.isTabu job pass.2 q = false ∨ pass.1.aspires job q = true) := fun hel' =>
        hn.subset ⟨q, hq, hel', rfl⟩
      rw [hel q hq] at hn
      tauto
    case inr =>
      obtain rfl := Prod.ext (congrArg TabuMove.u hm) (congrArg TabuMove.v hm)
      refine .inr ⟨hr, (hel r hr).mp hel', fun q hq hel'' => ?_⟩
      exact Int64.le_iff_toInt_le.mpr <| hl _ ⟨q, hq, (hel q hq).mpr hel'', rfl⟩

end Split
end Passes

-- Each iteration flips one pair, unless it is cancelled. A pair is flipped again after the tenure only, unless
-- the flip aspires or all candidates are tabu and none aspires. In the latter case the pair is random, otherwise
-- it has the least delta of the candidates that are not tabu or aspire. (The expiry of a flip,
-- `iter + tabu_tenure`, is a 64-bit number.)
theorem tabuSearch_discipline (lib : Crates) {job : SearchJob} (h : job.Admissible) (rng : Nat → Nat)
    (cancelled : Nat → Bool) :
    let passes := tabuPasses lib job rng cancelled
    let tenure := (TabuConfig.ofJson job.config).tabuTenure
    (∀ pass ∈ passes, pass.1.session.isCancelled.1 = true ∨ ∃! p, Flips lib job pass p) ∧
      (∀ pass ∈ passes, pass.2 + tenure ≤ 2 ^ 64 → ∀ p, Flips lib job pass p →
        (∀ past ∈ passes, past.2 < pass.2 → Flips lib job past p →
          past.2 + tenure ≤ pass.2 ∨ Aspires job passes pass p ∨ Escapes lib job passes pass) ∧
        (¬Escapes lib job passes pass →
          p ∈ pass.1.candidates job ∧ (¬IsTabu lib job passes pass p ∨ Aspires job passes pass p) ∧
            ∀ q ∈ pass.1.candidates job, ¬IsTabu lib job passes pass q ∨ Aspires job passes pass q →
              (pass.1.moveOf job p).delta ≤ (pass.1.moveOf job q).delta)) ∧
      (∀ p ∈ pairs job.n, edgeIndex p.1 p.2 job.n < job.n * (job.n - 1) / 2) ∧
      ∀ p ∈ pairs job.n, ∀ q ∈ pairs job.n, edgeIndex p.1 p.2 job.n = edgeIndex q.1 q.2 job.n → p = q := by
  refine ⟨?_, ?_, fun p hp => edgeIndex_lt hp, fun p hp q hq => edgeIndex_inj hp hq⟩
  case refine_1 =>
    intro pass hm
    obtain ⟨before, after, he⟩ := List.append_of_mem hm
    exact existsUnique_flips he h
  case refine_2 =>
    intro pass hm ho p hf
    obtain ⟨before, after, he⟩ := List.append_of_mem hm
    rcases escapes_or_least he h ho hf with hn | ⟨hc, hel, hl⟩
    case inl => exact ⟨fun _ _ _ _ => .inr <| .inr hn, fun h => absurd hn h⟩
    case inr =>
      refine ⟨fun past hp hlt hf' => ?_, fun _ => ⟨hc, hel, hl⟩⟩
      by_cases ht : pass.2 < past.2 + (TabuConfig.ofJson job.config).tabuTenure
      case neg => exact .inl <| not_lt.mp ht
      case pos => exact .inr <| .inl <| hel.resolve_left <| not_not.mpr ⟨past, hp, hlt, ht, hf'⟩

section Path3

-- The path on three vertices again, with a tenure for which the fourth iteration flips the first pair again.
def path3TabuJob : SearchJob :=
  { path3Job with
    maxIters := 4
    config   := .object [("target_k", .posInt 3), ("target_ell", .posInt 3), ("tabu_tenure", .posInt 2),
                         ("polish_max_steps", .posInt 1)] }

theorem path3TabuJob_admissible : path3TabuJob.Admissible where
  two_le := by decide
  le     := by decide
  init   := path3Job_admissible.init
  k      := by decide +kernel
  ell    := by decide +kernel

-- The pair that an iteration flips can be read off the graphs.
theorem flips_iff_of_unique {lib : Crates} {job : SearchJob} {pass : TabuSearch × Nat} {p q : Nat × Nat}
    (h : ∃! p, Flips lib job pass p) (hq : q ∈ pairs job.n) (hg : job.n = pass.1.mirrors.graph.n)
    (hm : (pass.1.advance lib job pass.2).value.mirrors = pass.1.mirrors.flip q.1 q.2) :
    Flips lib job pass p ↔ p = q := by
  have ⟨r, hr, hu⟩ := h
  obtain ⟨hp, t, ha, ht⟩ := hr
  rw [ha] at hm
  obtain rfl := Mirrors.flip_inj (hg ▸ hp) (hg ▸ hq) <| ht.symm.trans hm
  exact ⟨hu p, fun he => he ▸ ⟨hp, t, ha, ht⟩⟩

theorem path3TabuJob_discipline :
    let passes := tabuPasses crates path3TabuJob id fun _ => false
    let tenure := (TabuConfig.ofJson path3TabuJob.config).tabuTenure
    tenure = 2 ∧ (∀ pass ∈ passes, ∃! p, Flips crates path3TabuJob pass p) ∧
      ∃ past ∈ passes, ∃ pass ∈ passes, past.2 = 1 ∧ pass.2 = 4 ∧ Flips crates path3TabuJob past (0, 1) ∧
        Flips crates path3TabuJob pass (0, 1) ∧
        (past.2 + tenure ≤ pass.2 ∨ Aspires path3TabuJob passes pass (0, 1) ∨ Escapes crates path3TabuJob passes pass) ∧
        ∀ q ∈ pass.1.candidates path3TabuJob,
          ¬IsTabu crates path3TabuJob passes pass q ∨ Aspires path3TabuJob passes pass q →
          (pass.1.moveOf path3TabuJob (0, 1)).delta ≤ (pass.1.moveOf path3TabuJob q).delta := by
  intro passes tenure
  have ⟨hu, hd, _⟩ := tabuSearch_discipline crates path3TabuJob_admissible id fun _ => false
  have hc : ∀ pass ∈ passes, pass.1.session.isCancelled.1 = false := by decide +kernel
  have hu : ∀ pass ∈ passes, ∃! p, Flips crates path3TabuJob pass p := fun pass hm =>
    (hu pass hm).resolve_left <| Bool.eq_false_iff.mp <| hc pass hm
  -- The first iteration and the fourth one flip the same pair, and the third one another pair.
  have hf (pass) (hm : pass ∈ passes) (q) (hq : q ∈ pairs 3) (h : 3 = pass.1.mirrors.graph.n ∧
      (pass.1.advance crates path3TabuJob pass.2).value.mirrors = pass.1.mirrors.flip q.1 q.2) (p) :
      Flips crates path3TabuJob pass p ↔ p = q := flips_iff_of_unique (hu pass hm) hq h.1 h.2
  have ⟨past, hpast, h1, hg1⟩ : ∃ past ∈ passes, past.2 = 1 ∧ 3 = past.1.mirrors.graph.n ∧
      (past.1.advance crates path3TabuJob past.2).value.mirrors = past.1.mirrors.flip 0 1 := by decide +kernel
  have h3 : ∀ pass ∈ passes, pass.2 = 3 → 3 = pass.1.mirrors.graph.n ∧
      (pass.1.advance crates path3TabuJob pass.2).value.mirrors = pass.1.mirrors.flip 1 2 := by decide +kernel
  have ⟨pass, hpass, h4, hg4, hcand⟩ : ∃ pass ∈ passes, pass.2 = 4 ∧ (3 = pass.1.mirrors.graph.n ∧
      (pass.1.advance crates path3TabuJob pass.2).value.mirrors = pass.1.mirrors.flip 0 1) ∧
      (0, 1) ∈ pass.1.candidates path3TabuJob := by decide +kernel
  have hf1 := (hf past hpast (0, 1) (by decide) hg1 _).mpr rfl
  have hf4 := (hf pass hpass (0, 1) (by decide) hg4 _).mpr rfl
  have ht : tenure = 2 := by decide +kernel
  have hd := hd pass hpass (by omega) (0, 1) hf4
  have he : ¬Escapes crates path3TabuJob passes pass := by
    intro he
    obtain ⟨third, hm, hlt, hgt, hf3⟩ := (he (0, 1) hcand).1
    have hi : third.2 = 3 := by
      change pass.2 < third.2 + tenure at hgt
      omega
    cases (hf third hm (1, 2) (by decide) (h3 third hm hi) _).mp hf3
  exact ⟨ht, hu, past, hpast, pass, hpass, h1, h4, hf1, hf4, hd.1 past hpast (by omega) hf1, (hd.2 he).2.2⟩

end Path3
