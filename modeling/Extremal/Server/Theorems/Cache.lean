import Extremal.Server.Theorems.Serve
import Extremal.Server.Theorems.Submit

open Store

namespace Request

-- The board whose data a request reads, and the board that it submits to.

def reads : Request → Option Int32
  | submit _                              => none
  | threshold n | cids n _ | graphs n _ _ => n

def submits : Request → Option Int32
  | submit req => some <| .ofNat req.n
  | _          => none

end Request

namespace LeaderboardCache

variable {cache : LeaderboardCache m} {map map' : CacheMap} {n n' : Int32} {seen : Fin m → Bool}

-- An entry for a board has seen certain transactions.
def Holds (cache : LeaderboardCache m) (map : CacheMap) (n : Int32) (seen : Fin m → Bool) : Prop :=
  match map with
  | .thresholds => ∃ value, cache.thresholds n = some ⟨value, seen⟩
  | .cids       => ∃ value, cache.cids n = some ⟨value, seen⟩
  | .graphs     => ∃ limit offset value, cache.graphs (n, limit, offset) = some ⟨value, seen⟩

theorem seen_of_update [DecidableEq κ] {f : κ → Option (CacheEntry m α)} {entry : CacheEntry m α} {k k' : κ} {value : α}
    (h : Function.update f k (some entry) k' = some ⟨value, seen⟩) :
    k' = k ∧ seen = entry.seen ∨ f k' = some ⟨value, seen⟩ := by
  by_cases hk : k' = k
  case neg => exact .inr <| by rwa [Function.update_of_ne hk] at h
  case pos =>
    subst hk
    rw [Function.update_self] at h
    exact .inl ⟨rfl, congrArg CacheEntry.seen (Option.some.inj h).symm⟩

theorem holds_setThreshold {entry} (h : (cache.setThreshold n entry).Holds map n' seen) :
    map = .thresholds ∧ n' = n ∧ seen = entry.seen ∨ cache.Holds map n' seen := by
  cases map
  case cids | graphs => exact .inr h
  case thresholds =>
    have ⟨value, h⟩ := h
    exact (seen_of_update h).imp (⟨rfl, ·⟩) (⟨value, ·⟩)

theorem holds_setCids {entry} (h : (cache.setCids n entry).Holds map n' seen) :
    map = .cids ∧ n' = n ∧ seen = entry.seen ∨ cache.Holds map n' seen := by
  cases map
  case thresholds | graphs => exact .inr h
  case cids =>
    have ⟨value, h⟩ := h
    exact (seen_of_update h).imp (⟨rfl, ·⟩) (⟨value, ·⟩)

theorem holds_setGraphs {entry} {limit offset : Int64} (h : (cache.setGraphs n limit offset entry).Holds map n' seen) :
    map = .graphs ∧ n' = n ∧ seen = entry.seen ∨ cache.Holds map n' seen := by
  cases map
  case thresholds | cids => exact .inr h
  case graphs =>
    have ⟨limit', offset', value, h⟩ := h
    exact (seen_of_update h).imp (fun ⟨hk, hs⟩ => ⟨rfl, congrArg Prod.fst hk, hs⟩) (⟨limit', offset', value, ·⟩)

theorem holds_remove (h : (cache.remove n map).Holds map' n' seen) :
    cache.Holds map' n' seen ∧ ¬(map' = map ∧ n' = n) := by
  by_cases hn : n' = n
  case neg =>
    refine ⟨?_, fun h => hn h.2⟩
    cases map <;> cases map' <;> simpa [Holds, remove, hn] using h
  case pos =>
    subst hn
    cases map <;> cases map' <;> simp_all [Holds, remove]

end LeaderboardCache

namespace TrafficEvent

def removes (i : Fin m) (map : CacheMap) (n : Int32) : TrafficEvent m → Bool
  | removed i' map' n' => i' = i ∧ map' = map ∧ n' = n
  | responded _ _ _    => false

def responds (i : Fin m) : TrafficEvent m → Bool
  | removed _ _ _     => false
  | responded i' _ _  => i' = i

variable {i i' : Fin m} {map map' : CacheMap} {n n' : Int32} {result : Except ApiError Response} {seen : Fin m → Bool}

@[simp]
theorem removes_removed : (removed i' map' n').removes i map n ↔ i' = i ∧ map' = map ∧ n' = n := by
  simp [removes]

@[simp]
theorem not_removes_responded : (responded i' result seen).removes i map n = false := rfl

@[simp]
theorem not_responds_removed : (removed i' map n).responds i = false := rfl

@[simp]
theorem responds_responded : (responded i' result seen).responds i ↔ i' = i := by
  simp [responds]

end TrafficEvent

namespace ServerState

variable {requests : Fin m → Request} {s s' : ServerState m} {i j k : Fin m} {choice : Choice} {call : Call}
  {query : Query} {map : CacheMap} {n : Int32}

-- The transaction of a request has committed an admission.
def Admitted (s : ServerState m) (i : Fin m) : Prop :=
  (s.database.phase i).hasAdmitted

def Removed (s : ServerState m) (i : Fin m) (map : CacheMap) (n : Int32) : Prop :=
  ∃ e ∈ s.log, e.removes i map n

def Responded (s : ServerState m) (i : Fin m) : Prop :=
  ∃ e ∈ s.log, e.responds i

instance : Decidable (s.Admitted i) :=
  inferInstanceAs <| Decidable ((s.database.phase i).hasAdmitted = true)

instance : Decidable (s.Removed i map n) :=
  inferInstanceAs <| Decidable (∃ e ∈ s.log, e.removes i map n)

instance : Decidable (s.Responded i) :=
  inferInstanceAs <| Decidable (∃ e ∈ s.log, e.responds i)

-- Mathlib's instance for the quantifier alone would go through every `Int32`.
instance {p : Int32 → Prop} [DecidablePred p] (o : Option Int32) : Decidable (∀ n ∈ o, p n) :=
  o.decidableForallMem

-- If the first event is the response to a request whose transaction has committed an admission, then the
-- second one is no response whose data has not seen it.
def Fresh (requests : Fin m → Request) (s : ServerState m) : TrafficEvent m → TrafficEvent m → Prop
  | .responded i _ _, .responded j (.ok _) seen =>
    ∀ n ∈ (requests i).submits, (requests j).reads = some n → s.Admitted i → seen i
  | _, _ => True

instance : DecidableRel (Fresh requests s) := fun e e' => by
  unfold Fresh
  split <;> infer_instance

-- No call fails after an admission, no entry is written that has not seen the admissions that have already
-- dropped the entries of its board, and no reader holds older data when the response to an admission is
-- sent.
def inTime (requests : Fin m → Request) (i : Fin m) (call : Call) (s : ServerState m) (choice : Choice) : Prop :=
  match call with
  | .store (.tryAdmit _ _ _ _ _) => s.Admitted i → choice.fault.error = none
  | .store (.storeReceipt _)     => s.Admitted i → choice.fault.error = none
  | .setThreshold n _ _          => ∀ k, s.Removed k .thresholds n → s.seen i k
  | .setCids n _                 => ∀ k, s.Removed k .cids n → s.seen i k
  | .setGraphs n _ _ _           => ∀ k, s.Removed k .graphs n → s.seen i k
  | .respond _                   => s.Admitted i → ∀ n ∈ (requests i).submits,
    ∀ j, (requests j).reads = some n → ¬s.Responded j → s.seen j i
  | _ => True

instance : Decidable (inTime requests i call s choice) := by
  unfold inTime
  split <;> infer_instance

structure Coherent (requests : Fin m → Request) (s : ServerState m) : Prop where
  cache   : ∀ map n seen, s.cache.Holds map n seen → ∀ k, s.Removed k map n → seen k
  removed : ∀ k n, (requests k).submits = some n → s.Admitted k → s.Responded k → ∀ map, s.Removed k map n
  seen    : ∀ k n j, (requests k).submits = some n → s.Admitted k → s.Responded k →
    (requests j).reads = some n → ¬s.Responded j → s.seen j k
  fresh   : s.log.Pairwise (Fresh requests s)

-- What the other turns leave to a request.
structure SameView (i : Fin m) (s s' : ServerState m) : Prop where
  phase     : s'.database.phase i = s.database.phase i
  removed   : ∀ map n, s'.Removed i map n ↔ s.Removed i map n
  responded : s'.Responded i ↔ s.Responded i

theorem SameView.admitted (h : SameView i s s') : s'.Admitted i ↔ s.Admitted i := by
  rw [Admitted, Admitted, h.phase]

section Turns

variable {seen : Fin m → Bool} {tables : Tables} {cache : LeaderboardCache m} {next : Database m}

-- A request holds data that has seen all admissions whose responses have been sent.
theorem Coherent.hold (h : s.Coherent requests) (hs : ∀ k n, (requests k).submits = some n → s.Admitted k →
    s.Responded k → (requests i).reads = some n → seen k) : (s.hold i seen).Coherent requests where
  cache   := h.cache
  removed := h.removed
  fresh   := h.fresh
  seen k n j hk ha hr hj hnr := by
    have hjk := h.seen k n j hk ha hr hj hnr
    by_cases he : j = i
    case neg => simpa [ServerState.hold, Function.update_of_ne he] using hjk
    case pos =>
      subst he
      simpa [ServerState.hold, hjk] using hs k n hk ha hr hj

theorem Coherent.write (h : s.Coherent requests) : Coherent requests { s with tables } :=
  { h with }

-- A new entry has seen all admissions that have dropped the entries of its board.
theorem Coherent.setCache (h : s.Coherent requests) (hs : ∀ k, s.Removed k map n → s.seen i k)
    (hc : ∀ {map' n' seen}, cache.Holds map' n' seen →
      map' = map ∧ n' = n ∧ seen = s.seen i ∨ s.cache.Holds map' n' seen) : Coherent requests { s with cache } where
  removed := h.removed
  seen    := h.seen
  fresh   := h.fresh
  cache map' n' seen hh := by
    rcases hc hh with ⟨rfl, rfl, rfl⟩ | hh
    case inl => exact hs
    case inr => exact h.cache map' n' seen hh

section Log

variable {e : TrafficEvent m} (h : s'.log = s.log ++ [e])

include h

theorem removed_concat : s'.Removed k map n ↔ s.Removed k map n ∨ e.removes k map n := by
  simp only [Removed, h, List.mem_append, List.mem_singleton, or_and_right, exists_or, exists_eq_left]

theorem responded_concat : s'.Responded k ↔ s.Responded k ∨ e.responds k := by
  simp only [Responded, h, List.mem_append, List.mem_singleton, or_and_right, exists_or, exists_eq_left]

theorem fresh_concat (hf : s.log.Pairwise (Fresh requests s)) (hd : s'.database = s.database)
    (he : ∀ e' ∈ s.log, Fresh requests s e' e) : s'.log.Pairwise (Fresh requests s') := by
  have hs : Fresh requests s' = Fresh requests s := by
    funext e e'
    simp only [Fresh, Admitted, hd]
  rw [h, hs]
  refine List.pairwise_append.mpr ⟨hf, List.pairwise_singleton .., fun e' he' e'' he'' => ?_⟩
  rw [List.mem_singleton.mp he'']
  exact he e' he'

end Log

theorem Coherent.remove (h : s.Coherent requests) :
    Coherent requests { s with cache := s.cache.remove n map, log := s.log ++ [.removed i map n] } := by
  let s' : ServerState m := { s with cache := s.cache.remove n map, log := s.log ++ [.removed i map n] }
  have hl : s'.log = s.log ++ [.removed i map n] := rfl
  have hr {k} : s'.Responded k ↔ s.Responded k := by simp [responded_concat hl]
  constructor
  case cache =>
    intro map' n' seen hh k hk
    have ⟨hh, hne⟩ := LeaderboardCache.holds_remove hh
    refine ((removed_concat hl).mp hk).elim (h.cache map' n' seen hh k) fun he => ?_
    have ⟨_, hmap, hn⟩ := TrafficEvent.removes_removed.mp he
    exact absurd ⟨hmap.symm, hn.symm⟩ hne
  case removed => exact fun k n hk ha hk' map => (removed_concat hl).mpr <| .inl <| h.removed k n hk ha (hr.mp hk') map
  case seen    => exact fun k n j hk ha hk' hj hj' => h.seen k n j hk ha (hr.mp hk') hj <| mt hr.mpr hj'
  case fresh   => exact fresh_concat hl h.fresh rfl fun e _ => by cases e <;> trivial

theorem Coherent.respond {result : Except ApiError Response} (h : s.Coherent requests) (hi : ¬s.Responded i)
    (hremoved : ∀ n, (requests i).submits = some n → s.Admitted i → ∀ map, s.Removed i map n)
    (hseen : s.Admitted i → ∀ n, (requests i).submits = some n →
      ∀ j, (requests j).reads = some n → ¬s.Responded j → s.seen j i) :
    Coherent requests { s with log := s.log ++ [.responded i result (s.seen i)] } := by
  let s' : ServerState m := { s with log := s.log ++ [.responded i result (s.seen i)] }
  have hl : s'.log = s.log ++ [.responded i result (s.seen i)] := rfl
  have hr {k} : s'.Responded k ↔ s.Responded k ∨ i = k := by simp [responded_concat hl]
  have hm {k map n} : s'.Removed k map n ↔ s.Removed k map n := by simp [removed_concat hl]
  constructor
  case cache => exact fun map n seen hh k hk => h.cache map n seen hh k <| hm.mp hk
  case removed =>
    intro k n hk ha hk' map
    refine hm.mpr ?_
    rcases hr.mp hk' with hk' | rfl
    case inl => exact h.removed k n hk ha hk' map
    case inr => exact hremoved n hk ha map
  case seen =>
    intro k n j hk ha hk' hj hj'
    have hnj : ¬s.Responded j := fun hn => hj' <| hr.mpr <| .inl hn
    rcases hr.mp hk' with hk' | rfl
    case inl => exact h.seen k n j hk ha hk' hj hnj
    case inr => exact hseen ha n hk j hj hnj
  case fresh =>
    refine fresh_concat hl h.fresh rfl fun e he => ?_
    cases e
    case removed => trivial
    case responded k result' seen =>
      cases result
      case error => trivial
      case ok    => exact fun n hk hj ha => h.seen k n i hk ha ⟨_, he, by simp⟩ hj hi

theorem Coherent.setDatabase (h : s.Coherent requests) (hi : ¬s.Responded i)
    (hp : ∀ k, k ≠ i → next.phase k = s.database.phase k) : Coherent requests { s with database := next } := by
  let s' : ServerState m := { s with database := next }
  have ha {k} (hk : s.Responded k) : s'.Admitted k ↔ s.Admitted k := by
    rw [Admitted, Admitted, hp k]
    rintro rfl
    exact hi hk
  constructor
  case cache   => exact h.cache
  case removed => exact fun k n hk ha' hr => h.removed k n hk ((ha hr).mp ha') hr
  case seen    => exact fun k n j hk ha' hr => h.seen k n j hk ((ha hr).mp ha') hr
  case fresh   =>
    refine h.fresh.imp_of_mem fun {e e'} he he' hf => ?_
    cases e <;> cases e' <;> try trivial
    case responded.responded k _ _ j result seen =>
      cases result
      case error => trivial
      case ok    => exact fun n hk hj ha' => hf n hk hj <| (ha ⟨_, he, by simp⟩).mp ha'

theorem sameView_of_eq (hd : s'.database = s.database) (hl : s'.log = s.log) : SameView i s s' := by
  constructor
  case phase     => rw [hd]
  case removed   => simp [Removed, hl]
  case responded => simp [Responded, hl]

theorem SameView.refl (i : Fin m) (s : ServerState m) : SameView i s s :=
  sameView_of_eq rfl rfl

theorem SameView.trans {s₁ s₂ s₃ : ServerState m} (h₁ : SameView i s₁ s₂) (h₂ : SameView i s₂ s₃) : SameView i s₁ s₃ where
  phase         := h₂.phase.trans h₁.phase
  removed map n := (h₂.removed map n).trans <| h₁.removed map n
  responded     := h₂.responded.trans h₁.responded

theorem sameView_removed (hd : s'.database = s.database) (hl : s'.log = s.log ++ [.removed i map n]) (hj : j ≠ i) :
    SameView j s s' := by
  constructor
  case phase     => rw [hd]
  case removed   => simp [removed_concat hl, hj.symm]
  case responded => simp [responded_concat hl]

theorem sameView_responded {result : Except ApiError Response} (hd : s'.database = s.database)
    (hl : s'.log = s.log ++ [.responded i result seen]) (hj : j ≠ i) : SameView j s s' := by
  constructor
  case phase     => rw [hd]
  case removed   => simp [removed_concat hl]
  case responded => simp [responded_concat hl, hj.symm]

end Turns

-- The calls that only the cache and the tables notice.
def Quiet (request : Request) : Call → Prop
  | .store (.tryAdmit _ _ _ _ _) | .remove _ _ | .respond _ => False
  | .getThreshold n | .getCids n | .getGraphs n _ _ => request.reads = some n
  | _ => True

section Quiet

variable {answer : α}

theorem Coherent.of_write {tables : Tables} {r : Option (Except StoreError α)} (h : s.Coherent requests)
    (hw : Write s tables answer s' r) : s'.Coherent requests ∧ (∀ j, SameView j s s') ∧ r ≠ none := by
  cases hw
  case ok    => exact ⟨h.write, fun _ => sameView_of_eq rfl rfl, nofun⟩
  case fails => exact ⟨h, fun j => .refl j _, nofun⟩
  case lost  => exact ⟨h.write, fun _ => sameView_of_eq rfl rfl, nofun⟩

-- What is read from the store now has seen all admissions.
theorem Coherent.of_read {answer : Rows → Except StoreError α} {r : Option (Except StoreError α)}
    (h : s.Coherent requests) (hr : Read s i answer s' r) :
    s'.Coherent requests ∧ (∀ j, SameView j s s') ∧ r ≠ none := by
  cases hr
  case fails => exact ⟨h, fun j => .refl j _, nofun⟩
  case ok =>
    refine ⟨h.hold fun k n _ ha _ _ => ?_, fun _ => sameView_of_eq rfl rfl, nofun⟩
    exact Phase.isCommitted_of_hasAdmitted ha

-- What is found in the cache has seen all admissions that have dropped its older entries.
theorem Coherent.of_lookup (map : CacheMap) {entry : Option (CacheEntry m α)} {r : Option (Option α)} (h : s.Coherent requests)
    (hl : Lookup s i entry s' r) (hn : (requests i).reads = some n)
    (hc : ∀ value seen, entry = some ⟨value, seen⟩ → s.cache.Holds map n seen) :
    s'.Coherent requests ∧ (∀ j, SameView j s s') ∧ r ≠ none := by
  cases hl
  case miss => exact ⟨h, fun j => .refl j _, nofun⟩
  case hit entry he =>
    refine ⟨h.hold fun k n' hk ha hr hn' => ?_, fun _ => sameView_of_eq rfl rfl, nofun⟩
    cases hn.symm.trans hn'
    exact h.cache map n _ (hc _ _ he) k <| h.removed k n hk ha hr map

theorem quiet_turn {r : Option call.Answer} (h : s.Coherent requests) (hq : Quiet (requests i) call)
    (hP : inTime requests i call s choice) (e : perform i call s choice = some (s', r)) :
    s'.Coherent requests ∧ (∀ j, SameView j s s') ∧ r ≠ none := by
  cases call
  case spawnBlocking =>
    cases e
    exact ⟨h, fun j => .refl j _, nofun⟩
  case store query =>
    cases query
    case tryAdmit => exact hq.elim
    case getIdentity | storeGraph | storeScore | storeSubmission | storeReceipt => exact h.of_write (write_cases e)
    all_goals
      unfold perform query at e
      exact h.of_read (read_cases e)
  case getThreshold n =>
    exact h.of_lookup .thresholds (lookup_cases e) hq fun value _ he => ⟨value, he⟩
  case getCids n =>
    exact h.of_lookup .cids (lookup_cases e) hq fun value _ he => ⟨value, he⟩
  case getGraphs n limit offset =>
    exact h.of_lookup .graphs (lookup_cases e) hq fun value _ he => ⟨limit, offset, value, he⟩
  case setThreshold =>
    cases e
    exact ⟨h.setCache hP LeaderboardCache.holds_setThreshold, fun _ => sameView_of_eq rfl rfl, nofun⟩
  case setCids =>
    cases e
    exact ⟨h.setCache hP LeaderboardCache.holds_setCids, fun _ => sameView_of_eq rfl rfl, nofun⟩
  case setGraphs =>
    cases e
    exact ⟨h.setCache hP LeaderboardCache.holds_setGraphs, fun _ => sameView_of_eq rfl rfl, nofun⟩
  case remove | respond => exact hq.elim

end Quiet

-- A request whose response may be sent.
structure Settled (requests : Fin m → Request) (i : Fin m) (s : ServerState m) : Prop where
  pending : ¬s.Responded i
  removed : ∀ n, (requests i).submits = some n → s.Admitted i → ∀ map, s.Removed i map n

theorem Settled.sameView (h : Settled requests i s) (hv : SameView i s s') : Settled requests i s' where
  pending         := mt hv.responded.mp h.pending
  removed n hn ha := fun map => (hv.removed map n).mpr <| h.removed n hn (hv.admitted.mp ha) map

theorem Settled.of_not_admitted (hp : ¬s.Responded i) (ha : ¬s.Admitted i) : Settled requests i s where
  pending        := hp
  removed _ _ ha' := absurd ha' ha

def isAdmission : Call → Bool
  | .store (.tryAdmit _ _ _ _ _) => true
  | _                            => false

theorem not_isAdmission {request : Request} (h : Quiet request call) : ¬isAdmission call := by
  cases call
  case store query => cases query <;> first | exact h.elim | exact Bool.false_ne_true
  all_goals exact Bool.false_ne_true

-- While `try_admit` is going on, its transaction moves.
def coherence (requests : Fin m → Request) : Pool.Protocol (Fin m) Call (ServerState m) where
  Inv              := Coherent requests
  Rely             := SameView
  Wait i call s s' := if isAdmission call then (s'.Responded i ↔ s.Responded i) else SameView i s s'
  refl             := .refl
  trans            := .trans
  wait_rely h := by
    split
    case isTrue  => exact h.responded
    case isFalse => exact h
  wait_trans h₁ h₂ := by
    split_ifs at h₁ h₂ ⊢
    case pos => exact h₂.trans h₁
    case neg => exact h₁.trans h₂

theorem sameView_of_wait (hq : Quiet (requests i) call) (h : (coherence requests).Wait i call s s') : SameView i s s' := by
  have h : if isAdmission call then _ else SameView i s s' := h
  rwa [if_neg <| not_isAdmission hq] at h

-- All turns of a program keep the cache coherent, and at its end the response may be sent.
abbrev Keeps (requests : Fin m → Request) (i : Fin m) (p : Program Call Call.Answer ε α) (s : ServerState m) : Prop :=
  (coherence requests).Safe perform (inTime requests) i (fun _ => Settled requests i) p s

section Keeps

theorem keeps_ret {a : α} (h : Settled requests i s) : Keeps requests i (.ret a : Program Call Call.Answer ε α) s :=
  fun _ hr _ => h.sameView hr

theorem keeps_throw {e : ε} (h : Settled requests i s) : Keeps requests i (.throw e : Program Call Call.Answer ε α) s :=
  fun _ hr _ => h.sameView hr

theorem keeps_perform {f : call.Answer → Program Call Call.Answer ε α} (hq : Quiet (requests i) call)
    (hf : ∀ a, Keeps requests i (f a) s) : Keeps requests i (.perform call >>= f) s := by
  intro s₁ hr hInv choice s₂ r hP e
  have ⟨hInv', hv, hn⟩ := quiet_turn hInv hq hP e
  have hr := sameView_of_wait hq hr
  refine ⟨⟨hInv', fun j _ => hv j⟩, ?_⟩
  cases r
  case none   => exact absurd rfl hn
  case some a => exact (hf a).mono <| hr.trans (hv i)

theorem keeps_store {f : query.Answer → Handler α} (hq : Quiet (requests i) (.store query))
    (hs : Settled requests i s) (hf : ∀ a, Keeps requests i (f a) s) : Keeps requests i (Handler.store query >>= f) s := by
  refine keeps_perform hq fun a => ?_
  cases a
  case error => exact keeps_throw hs
  case ok a  => exact hf a

-- After an admission the receipt is stored.
theorem keeps_storeReceipt {receipt : Receipt} {f : Receipt → Handler α} (hp : ¬s.Responded i)
    (hf : ∀ a, Keeps requests i (f a) s) : Keeps requests i (Handler.store (.storeReceipt receipt) >>= f) s := by
  intro s₁ hr hInv choice s₂ r hP e
  have hq : Quiet (requests i) (.store <| .storeReceipt receipt) := trivial
  have ⟨hInv', hv, hn⟩ := quiet_turn hInv hq hP e
  have hr := sameView_of_wait hq hr
  refine ⟨⟨hInv', fun j _ => hv j⟩, ?_⟩
  rcases r with _ | e' | a
  case none    => exact absurd rfl hn
  case some.ok => exact (hf a).mono <| hr.trans (hv i)
  case some.error =>
    have hr := hr.trans (hv i)
    refine keeps_throw <| .of_not_admitted (mt hr.responded.mp hp) fun ha => ?_
    have hfault := hP <| (hv i).admitted.mp ha
    simp [perform, ServerState.query, write, hfault] at e

theorem keeps_tryAdmit {capacity : Int32} {cid keyId : String} {scoreBytes : Lexicographic.Word UInt8}
    {f : Option Int32 → Handler α} (hp : ¬s.Responded i)
    (hf : ∀ rank s', ¬s'.Responded i → (rank = none → ¬s'.Admitted i) → Keeps requests i (f rank) s') :
    Keeps requests i (Handler.store (.tryAdmit n cid keyId scoreBytes capacity) >>= f) s := by
  intro s₁ hr hInv choice s₂ r hP e
  have hp : ¬s₁.Responded i := mt (show s₁.Responded i ↔ s.Responded i from hr).mp hp
  cases tryAdmit_cases e
  case ok admitted hphase _ =>
    refine ⟨⟨hInv, fun j _ => .refl j _⟩, hf _ _ hp ?_⟩
    rintro rfl ha
    rw [Admitted, hphase] at ha
    cases ha
  case lost hfault =>
    refine ⟨⟨hInv, fun j _ => .refl j _⟩, keeps_throw <| .of_not_admitted hp fun ha => ?_⟩
    have he := hP ha
    rw [hfault] at he
    cases he
  case moves hd =>
    have hothers := (Database.step_moved hd).others
    refine ⟨⟨hInv.setDatabase hp hothers, fun j hj => ⟨hothers j hj, fun _ _ => .rfl, .rfl⟩⟩, ?_⟩
    exact Iff.rfl
  case fails =>
    have hothers (j) (hj : j ≠ i) : (s₁.database.rollback i).phase j = s₁.database.phase j :=
      Database.phase_rollback_of_ne hj
    refine ⟨⟨hInv.setDatabase hp hothers, fun j hj => ⟨hothers j hj, fun _ _ => .rfl, .rfl⟩⟩, ?_⟩
    refine keeps_throw <| .of_not_admitted hp ?_
    rw [Admitted, Database.phase_rollback_self]
    exact Bool.false_ne_true

theorem keeps_remove {f : Unit → Program Call Call.Answer ε α} (hp : ¬s.Responded i)
    (hf : ∀ s', ¬s'.Responded i → s'.Removed i map n → (∀ map', s.Removed i map' n → s'.Removed i map' n) →
      Keeps requests i (f ()) s') : Keeps requests i (.perform (.remove map n) >>= f) s := by
  intro s₁ hr hInv choice s₂ r _ e
  have hr : SameView i s s₁ := hr
  have hl : s₂.log = s₁.log ++ [.removed i map n] := by cases e; rfl
  have hd : s₂.database = s₁.database := by cases e; rfl
  have hInv' : s₂.Coherent requests := by cases e; exact hInv.remove
  obtain rfl : r = some () := by cases e; rfl
  refine ⟨⟨hInv', fun j hj => sameView_removed hd hl hj⟩, hf _ ?_ ?_ fun map' hm => ?_⟩
  · simpa [responded_concat hl, hr.responded] using hp
  · exact (removed_concat hl).mpr <| .inr <| by simp
  · exact (removed_concat hl).mpr <| .inl <| (hr.removed map' n).mpr hm

theorem keeps_invalidate {p : Handler α} (hp : ¬s.Responded i)
    (hf : ∀ s', ¬s'.Responded i → (∀ map, s'.Removed i map n) → Keeps requests i p s') :
    Keeps requests i (Handler.invalidate n >>= fun _ => p) s := by
  refine keeps_remove hp fun s₁ hp₁ h₁ _ => ?_
  refine keeps_remove hp₁ fun s₂ hp₂ h₂ hk₂ => ?_
  refine keeps_remove hp₂ fun s₃ hp₃ h₃ hk₃ => hf s₃ hp₃ fun map => ?_
  cases map
  case thresholds => exact hk₃ _ <| hk₂ _ h₁
  case cids       => exact hk₃ _ h₂
  case graphs     => exact h₃

theorem keeps_ofExcept {x : Except ApiError β} {f : β → Handler α} (hs : Settled requests i s)
    (hf : ∀ b, Keeps requests i (f b) s) : Keeps requests i (.ofExcept x >>= f) s := by
  cases x
  case error => exact keeps_throw hs
  case ok b  => exact hf b

theorem keeps_bind {p : Handler β} {f : β → Handler α} (hInv : s.Coherent requests) (hp : Keeps requests i p s)
    (hf : ∀ b s', Settled requests i s' → Keeps requests i (f b) s') : Keeps requests i (p >>= f) s :=
  hp.bind hInv (fun b s _ hs => hf b s hs) fun _ _ _ hs => hs

end Keeps

section Handlers

open Handler

variable {state : AppState} {req : SubmitRequest} {scored : ScoredGraph}

theorem keeps_checkSubmission (hs : Settled requests i s) : Keeps requests i (checkSubmission state req) s := by
  refine keeps_ofExcept hs fun matrix => ?_
  refine keeps_store trivial hs fun identity => ?_
  refine keeps_ofExcept hs fun _ => ?_
  refine keeps_perform trivial fun task => ?_
  cases task
  case error => exact keeps_throw hs
  case ok    => exact keeps_ret hs

theorem keeps_recordSubmission (hreq : requests i = .submit req) (hs : Settled requests i s) :
    Keeps requests i (recordSubmission state req scored) s := by
  refine keeps_store trivial hs fun _ => ?_
  refine keeps_store trivial hs fun _ => ?_
  refine keeps_store trivial hs fun _ => ?_
  refine keeps_tryAdmit hs.pending fun rank s hp ha => ?_
  refine keeps_storeReceipt hp fun _ => ?_
  cases rank
  case none => exact keeps_ret <| .of_not_admitted hp (ha rfl)
  case some =>
    refine keeps_invalidate hp fun s hp hm => keeps_ret ⟨hp, fun n hn _ map => ?_⟩
    rw [hreq] at hn
    cases hn
    exact hm map

theorem keeps_getThreshold (hn : (requests i).reads = some n) (hs : Settled requests i s) :
    Keeps requests i (getThreshold state n) s := by
  refine keeps_perform hn fun cached => ?_
  cases cached
  case some => exact keeps_ret hs
  case none =>
    refine keeps_store trivial hs fun count => ?_
    refine keeps_store trivial hs fun threshold => ?_
    exact keeps_perform trivial fun _ => keeps_ret hs

theorem keeps_getCids {since : Option Nat} (hn : (requests i).reads = some n) (hs : Settled requests i s) :
    Keeps requests i (getCids n since) s := by
  cases since
  case some time =>
    have h : Keeps requests i (store (.getLeaderboardCids n time) >>= .ret) s :=
      keeps_store trivial hs fun _ => keeps_ret hs
    rwa [Program.bind_ret] at h
  case none =>
    refine keeps_perform hn fun cached => ?_
    cases cached
    case some => exact keeps_ret hs
    case none =>
      refine keeps_store trivial hs fun cids => ?_
      exact keeps_perform trivial fun _ => keeps_ret hs

theorem keeps_getGraphs {limit offset : Int64} (hn : (requests i).reads = some n) (hs : Settled requests i s) :
    Keeps requests i (getGraphs n limit offset) s := by
  refine keeps_perform hn fun cached => ?_
  cases cached
  case some => exact keeps_ret hs
  case none =>
    refine keeps_store trivial hs fun rows => ?_
    exact keeps_perform trivial fun _ => keeps_ret hs

theorem keeps_handle (hInv : s.Coherent requests) (hs : Settled requests i s) :
    Keeps requests i (handle state (requests i)) s := by
  have hret {α} {a : Handler α} (f : α → Response) (h : Keeps requests i a s) :
      Keeps requests i (a >>= fun a => .ret (f a)) s :=
    keeps_bind hInv h fun _ _ hs => keeps_ret hs
  cases hreq : requests i
  case submit =>
    refine hret .submitted <| keeps_bind hInv (keeps_checkSubmission hs) fun scored s hs => ?_
    exact keeps_recordSubmission hreq hs
  case threshold => exact hret .threshold <| keeps_getThreshold (by rw [hreq]; rfl) hs
  case cids      => exact hret .cids <| keeps_getCids (by rw [hreq]; rfl) hs
  case graphs    => exact hret .graphs <| keeps_getGraphs (by rw [hreq]; rfl) hs

-- When the request has been handled, the response is sent.
theorem safe_serve (hInv : s.Coherent requests) (hs : Settled requests i s) :
    (coherence requests).Safe perform (inTime requests) i (fun _ _ => True) (serve state (requests i)) s := by
  refine (keeps_handle hInv hs).attempt hInv fun result s _ hs s₁ hr hInv choice s₂ r hP e => ?_
  have hr : SameView i s s₁ := hr
  have hs := hs.sameView hr
  have hl : s₂.log = s₁.log ++ [.responded i result (s₁.seen i)] := by cases e; rfl
  have hd : s₂.database = s₁.database := by cases e; rfl
  have hInv' : s₂.Coherent requests := by
    cases e
    exact hInv.respond hs.pending (fun n hn ha => hs.removed n hn ha) hP
  obtain rfl : r = some () := by cases e; rfl
  exact ⟨⟨hInv', fun j hj => sameView_responded hd hl hj⟩, fun _ _ _ => trivial⟩

end Handlers

end ServerState

-- If no call fails after an admission, and readers that hold older data neither write it into the cache
-- after the cache has been invalidated nor outlast the response to the admission, then no later response
-- carries older data.
theorem Server.responses_fresh (state : AppState) (requests : Fin m → Request) (tables : Tables) (rows : Rows)
    (server : Server m)
    (r : Machine.Run Server.step (Pool.Allows (ServerState.inTime requests)) (Server.init state requests tables rows)
      server) :
    server.shared.log.Pairwise (ServerState.Fresh requests server.shared) := by
  have hcache {map n seen} : ¬(LeaderboardCache.empty : LeaderboardCache m).Holds map n seen := by
    cases map <;> simp [LeaderboardCache.Holds, LeaderboardCache.empty]
  have hInv : (ServerState.init tables rows : ServerState m).Coherent requests := by
    refine ⟨fun map n seen h => absurd h hcache, fun _ _ _ ha => ?_, fun _ _ _ _ ha => ?_, .nil⟩
    all_goals cases ha
  have hs (i) : (ServerState.init tables rows : ServerState m).Settled requests i :=
    .of_not_admitted (by simp [ServerState.Responded, ServerState.init]) Bool.false_ne_true
  have r : Machine.Run (Pool.step ServerState.perform) (Pool.Allows (ServerState.inTime requests))
      (Server.init state requests tables rows) server := r
  exact (Pool.Protocol.Safe.pool r hInv fun i => ServerState.safe_serve hInv (hs i)).fresh

namespace ReferenceServer

-- A submission of a path, and two readers of its board.
def readers (i : Fin 3) : Request :=
  if i = 0 then .submit <| submission ReferenceNauty.path3 else .threshold 3

def emptyTables : Tables :=
  { identities, graphs := [], scores := [], submissions := [], receipts := [] }

def turns (i : Fin 3) (k : Nat) : List (Fin 3 × Choice) :=
  .replicate k <| turn i .none

-- The number of rows that a reader gets.
def count : TrafficEvent 3 → Option (Fin 3 × Nat)
  | .responded i (.ok <| .threshold response) _ => some (i, response.count)
  | _                                           => none

end ReferenceServer

-- The first reader reads the store while the transaction of the submission is open, and writes the cache after
-- its commit, but before the entries are dropped. The second one reads the store between the drop and the
-- response to the submission.
open ReferenceServer in
theorem Server.readers_overlap :
    ∃ server, Machine.Run Server.step (Pool.Allows (ServerState.inTime readers))
        (Server.init (state 5) readers emptyTables []) server ∧
      server.shared.log.filterMap count = [(1, 0), (2, 1)] ∧ server.shared.log.length = 6 ∧
      server.shared.log.Pairwise (ServerState.Fresh readers server.shared) := by
  let step := Machine.guarded Server.step (Pool.Allows (ServerState.inTime readers))
  have ⟨server, e, hc, hl⟩ : ∃ server ∈ Machine.execute step (Server.init (state 5) readers emptyTables [])
      (turns 1 1 ++ turns 0 8 ++ turns 1 2 ++ turns 0 7 ++ turns 1 2 ++ turns 0 1 ++ turns 2 3 ++ turns 0 3 ++
        turns 2 2),
      server.shared.log.filterMap count = [(1, 0), (2, 1)] ∧ server.shared.log.length = 6 := by decide +kernel
  have r := Machine.Run.of_guarded e
  exact ⟨server, r, hc, hl, responses_fresh _ _ _ _ server r⟩

-- The first reader has read the store before the admission and fills the cache after it, from where the
-- second reader gets the same data.
open ReferenceServer in
theorem Server.old_threshold_is_cached :
    ∃ server ∈ Machine.execute Server.step (Server.init (state 5) readers emptyTables [])
        (turns 1 3 ++ turns 0 19 ++ turns 1 2 ++ turns 2 2),
      ¬server.shared.log.Pairwise (ServerState.Fresh readers server.shared) := by
  decide +kernel
