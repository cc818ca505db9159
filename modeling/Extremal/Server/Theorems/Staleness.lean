import Extremal.Server.Clock
import Extremal.Server.Theorems.Graphs

open Lexicographic Store

-- How old the data of a response is. An entry of the cache may have been read before the admissions that have dropped
-- its predecessor, but no request holds what it has read for longer than the requests take, and no entry is used after
-- its time.

namespace Moment

variable (n : Int32) (moment : Moment)

-- What the data layer answers at a moment.

def HasCount (count : Nat) : Prop :=
  count = moment.rows.leaderboardCount n

def HasThreshold (threshold : Option (Word UInt8)) : Prop :=
  ∃ scan, threshold = moment.rows.leaderboardThreshold n scan

def HasCids (since : Option Nat) (cids : List String) : Prop :=
  ∃ scan, cids = moment.rows.leaderboardCids n scan since

def HasGraphs (limit offset : Int64) (items : List GraphItem) : Prop :=
  ∃ scan rows, moment.tables.getLeaderboardGraphs moment.rows n scan limit offset = .ok rows ∧
    items = rows.map fun row => { rank := row.rank, cid := row.cid, graph6 := row.graph6 }

end Moment

theorem LeaderboardCache.remove_subset {cache : LeaderboardCache m} (map : CacheMap) (n : Int32) :
    (∀ key entry, (cache.remove n map).thresholds key = some entry → cache.thresholds key = some entry) ∧
    (∀ key entry, (cache.remove n map).cids key = some entry → cache.cids key = some entry) ∧
    (∀ key entry, (cache.remove n map).graphs key = some entry → cache.graphs key = some entry) := by
  have updated {α} {f : Int32 → Option α} {key : Int32} {entry : α} (h : Function.update f n none key = some entry) :
      f key = some entry := by
    by_cases hk : key = n
    case pos => subst hk; simp at h
    case neg => rwa [Function.update_of_ne hk] at h
  cases map
  case thresholds => exact ⟨fun _ _ => updated, fun _ _ => id, fun _ _ => id⟩
  case cids       => exact ⟨fun _ _ => id, fun _ _ => updated, fun _ _ => id⟩
  case graphs     => exact ⟨fun _ _ => id, fun _ _ => id, fun _ _ h => (Option.ite_none_left_eq_some.mp h).2⟩

namespace TimedServer

variable {m : Nat}

-- At a moment not long before a time something was so.
def WasSo (s : TimedServer m) (time age : Nat) (p : Moment → Prop) : Prop :=
  ∃ moment ∈ s.history, p moment ∧ time ≤ moment.time + age

-- At a moment not long before the first turn of a request, or after it.
def Known (s : TimedServer m) (i : Fin m) (age : Nat) (p : Moment → Prop) : Prop :=
  ∃ time, s.started i = some time ∧ s.WasSo time age p

-- What a response tells, and how old it may be if the requests take no longer than `delay`.
def Tells (state : AppState) (delay : Nat) (request : Request) (result : Except ApiError Response)
    (so : Nat → (Moment → Prop) → Prop) : Prop :=
  match request, result with
  | .threshold n, .ok (.threshold response) =>
    so (defaultTtl + delay) (·.HasCount n response.count) ∧ ∃ threshold,
      so (defaultTtl + delay) (·.HasThreshold n threshold) ∧
      response.thresholdScoreBytes = threshold.map (state.hex.encode ·.symbols)
  | .cids n none, .ok (.cids cids) => so (defaultTtl + delay) (·.HasCids n none cids)
  | .cids n (some since), .ok (.cids cids) => so 0 (·.HasCids n since cids)
  | .graphs n limit offset, .ok (.graphs items) => so (graphTtl + delay) (·.HasGraphs n limit offset items)
  | _, _ => True

-- A request that has begun is over after the delay.
def Prompt (delay : Nat) (i : Fin m) (_ : Call) (s : TimedServer m) (_ : Choice) : Prop :=
  ∀ time ∈ s.started i, s.now ≤ time + delay

instance {delay : Nat} {i : Fin m} {call : Call} {s : TimedServer m} {choice : Choice} :
    Decidable (Prompt delay i call s choice) :=
  inferInstanceAs <| Decidable (∀ time ∈ s.started i, s.now ≤ time + delay)

-- The entries of a map of the cache say what was so not long before they were inserted.
def Recent (s : TimedServer m) (delay : Nat) (entries : κ → Option (CacheEntry m α)) (inserted : κ → Nat)
    (p : κ → α → Moment → Prop) : Prop :=
  ∀ key entry, entries key = some entry → s.WasSo (inserted key) delay (p key entry.value)

structure Timely (state : AppState) (delay : Nat) (requests : Fin m → Request) (s : TimedServer m) : Prop where
  current    : moment s.now s.server ∈ s.history
  started    : ∀ i time, s.started i = some time → time ≤ s.now
  counts     : s.Recent delay s.server.cache.thresholds s.inserted.thresholds fun n value => (·.HasCount n value.1)
  thresholds : s.Recent delay s.server.cache.thresholds s.inserted.thresholds fun n value => (·.HasThreshold n value.2)
  cids       : s.Recent delay s.server.cache.cids s.inserted.cids fun n value => (·.HasCids n none value)
  graphs     : s.Recent delay s.server.cache.graphs s.inserted.graphs
    fun key value => (·.HasGraphs key.1 key.2.1 key.2.2 value)
  responses  : ∀ r ∈ s.responses, Tells state delay (requests r.tx) r.result fun age => s.WasSo r.time (age + delay)

-- What a request may do with what it knows, and what it learns from an answer.

def Permits (state : AppState) (delay : Nat) (requests : Fin m → Request) (i : Fin m) : Call → TimedServer m → Prop
  | .setThreshold n count threshold, s => s.Known i 0 (·.HasCount n count) ∧ s.Known i 0 (·.HasThreshold n threshold)
  | .setCids n cids, s                 => s.Known i 0 (·.HasCids n none cids)
  | .setGraphs n limit offset items, s => s.Known i 0 (·.HasGraphs n limit offset items)
  | .respond result, s                 => Tells state delay (requests i) result (s.Known i)
  | _, _                               => True

def Learns (delay : Nat) (i : Fin m) : (call : Call) → call.Answer → TimedServer m → Prop
  | .getThreshold n, cached, s => ∀ value : Nat × Option (Word UInt8), cached = some value →
    s.Known i (defaultTtl + delay) (·.HasCount n value.1) ∧ s.Known i (defaultTtl + delay) (·.HasThreshold n value.2)
  | .getCids n, cached, s => ∀ cids : List String, cached = some cids →
    s.Known i (defaultTtl + delay) (·.HasCids n none cids)
  | .getGraphs n limit offset, cached, s => ∀ items : List GraphItem, cached = some items →
    s.Known i (graphTtl + delay) (·.HasGraphs n limit offset items)
  | .store (.leaderboardCount n), answer, s => ∀ count : Nat, answer = Except.ok count →
    s.Known i 0 (·.HasCount n count)
  | .store (.leaderboardThreshold n), answer, s => ∀ threshold : Option (Word UInt8), answer = Except.ok threshold →
    s.Known i 0 (·.HasThreshold n threshold)
  | .store (.getLeaderboardCids n since), answer, s => ∀ cids : List String, answer = Except.ok cids →
    s.Known i 0 (·.HasCids n since cids)
  | .store (.getLeaderboardGraphs n limit offset), answer, s =>
    ∀ rows : List LeaderboardGraphRow, answer = Except.ok rows → s.Known i 0 (·.HasGraphs n limit offset <|
      rows.map fun row => { rank := row.rank, cid := row.cid, graph6 := row.graph6 })
  | _, _, _ => True

variable {state : AppState} {delay : Nat} {requests : Fin m → Request} {s s' : TimedServer m} {i : Fin m} {call : Call}
  {choice : Choice} {time age age' : Nat} {p q : Moment → Prop}

section Known

-- The past is kept.
structure Follows (i : Fin m) (s s' : TimedServer m) : Prop where
  history : s.history ⊆ s'.history
  started : ∀ time, s.started i = some time → s'.started i = some time

theorem Follows.refl (i : Fin m) (s : TimedServer m) : Follows i s s :=
  ⟨List.Subset.refl _, fun _ => id⟩

theorem Follows.trans {s₁ s₂ s₃ : TimedServer m} (h₁ : Follows i s₁ s₂) (h₂ : Follows i s₂ s₃) : Follows i s₁ s₃ :=
  ⟨List.Subset.trans h₁.history h₂.history, fun time h => h₂.started time <| h₁.started time h⟩

theorem WasSo.mono (h : s.WasSo time age p) (hs : s.history ⊆ s'.history) : s'.WasSo time age p :=
  have ⟨moment, hm, hp, ha⟩ := h
  ⟨moment, hs hm, hp, ha⟩

theorem WasSo.later {time' : Nat} (h : s.WasSo time age p) (ht : time' + age ≤ time + age') : s.WasSo time' age' p :=
  have ⟨moment, hm, hp, ha⟩ := h
  ⟨moment, hm, hp, by omega⟩

theorem Known.follow (h : s.Known i age p) (hs : Follows i s s') : s'.Known i age p :=
  have ⟨time, ht, h⟩ := h
  ⟨time, hs.started time ht, h.mono hs.history⟩

theorem Known.older (h : s.Known i age p) (ha : age ≤ age') : s.Known i age' p :=
  have ⟨time, ht, h⟩ := h
  ⟨time, ht, h.later (by omega)⟩

theorem Tells.imp {request : Request} {result : Except ApiError Response} {so so' : Nat → (Moment → Prop) → Prop}
    (h : Tells state delay request result so) (hs : ∀ age p, so age p → so' age p) :
    Tells state delay request result so' := by
  unfold Tells at h ⊢
  split at h
  case h_1 => exact ⟨hs _ _ h.1, h.2.imp fun _ h => ⟨hs _ _ h.1, h.2⟩⟩
  case h_5 => trivial
  all_goals exact hs _ _ h

theorem Recent.mono {entries entries' : κ → Option (CacheEntry m α)} {inserted : κ → Nat} {p : κ → α → Moment → Prop}
    (h : s.Recent delay entries inserted p) (hs : s.history ⊆ s'.history)
    (he : ∀ key entry, entries' key = some entry → entries key = some entry) : s'.Recent delay entries' inserted p :=
  fun key entry hk => (h key entry <| he key entry hk).mono hs

theorem Recent.insert [DecidableEq κ] {entries : κ → Option (CacheEntry m α)} {inserted : κ → Nat}
    {p : κ → α → Moment → Prop} {key : κ} {entry : CacheEntry m α} (h : s.Recent delay entries inserted p)
    (hs : s.history ⊆ s'.history) (hw : s'.WasSo time delay (p key entry.value)) :
    s'.Recent delay (Function.update entries key entry) (Function.update inserted key time) p := by
  intro key' entry' he
  by_cases hk : key' = key
  case pos =>
    subst hk
    rw [Function.update_self] at he ⊢
    cases he
    exact hw
  case neg =>
    rw [Function.update_of_ne hk] at he ⊢
    exact (h key' entry' he).mono hs

theorem Permits.follow (h : Permits state delay requests i call s) (hs : Follows i s s') :
    Permits state delay requests i call s' := by
  cases call
  case setThreshold => exact ⟨h.1.follow hs, h.2.follow hs⟩
  case setCids      => exact Known.follow h hs
  case setGraphs    => exact Known.follow h hs
  case respond      => exact Tells.imp h fun _ _ h => h.follow hs
  all_goals trivial

end Known

section Turns

theorem perform_eq_some {r : Option call.Answer} (e : perform i call s choice = some (s', r)) :
    ∃ server, s.server.perform i call { choice with expired := s.isExpired call } = some (server, r) ∧ s' = {
      server
      now       := s.now
      inserted  := s.insert call
      started   := Function.update s.started i <| (s.started i).getD s.now
      history   := s.history ++ [moment s.now server]
      responses := s.respond i call } := by
  have ⟨⟨server, answer⟩, hp, he⟩ := Option.map_eq_some_iff.mp e
  cases he
  exact ⟨server, hp, rfl⟩

theorem follows_perform {r : Option call.Answer} (e : perform i call s choice = some (s', r)) (j : Fin m) :
    Follows j s s' := by
  have ⟨server, _, e⟩ := perform_eq_some e
  subst e
  refine ⟨List.subset_append_left .., fun time ht => ?_⟩
  by_cases hj : j = i
  case pos =>
    subst hj
    simp [ht]
  case neg => simpa [Function.update_of_ne hj] using ht

theorem follows_elapse {duration : Nat} (e : s.elapse duration = some s') (j : Fin m) : Follows j s s' := by
  cases e
  exact ⟨List.subset_append_left .., fun _ => id⟩

-- The request has begun, but not long ago.
theorem started_perform {r : Option call.Answer} (h : s.Timely state delay requests) (hp : Prompt delay i call s choice)
    (e : perform i call s choice = some (s', r)) :
    ∃ time, s'.started i = some time ∧ time ≤ s.now ∧ s.now ≤ time + delay := by
  have ⟨server, _, e⟩ := perform_eq_some e
  subst e
  refine ⟨(s.started i).getD s.now, Function.update_self .., ?_⟩
  cases ht : s.started i
  case none      => exact ⟨le_refl _, Nat.le_add_right ..⟩
  case some time => exact ⟨h.started i time ht, hp time ht⟩

-- What is so now is known from now on.
theorem known_now {r : Option call.Answer} (h : s.Timely state delay requests) (hp : Prompt delay i call s choice)
    (e : perform i call s choice = some (s', r)) (hm : p (moment s.now s.server)) : s'.Known i 0 p := by
  have ⟨time, ht, hle, _⟩ := started_perform h hp e
  exact ⟨time, ht, _, (follows_perform e i).history h.current, hm, hle⟩

-- What the cache says is known if the entry has not expired.
theorem known_cached {r : Option call.Answer} {ttl : Nat} (h : s.Timely state delay requests)
    (hp : Prompt delay i call s choice) (e : perform i call s choice = some (s', r)) (hc : s.WasSo time delay p)
    (ht : s.now - time ≤ ttl) : s'.Known i (ttl + delay) p := by
  have ⟨start, hs, hle, _⟩ := started_perform h hp e
  exact ⟨start, hs, (hc.mono (follows_perform e i).history).later (by omega)⟩

-- What a request knows was so not long ago.
theorem wasSo_of_known {r : Option call.Answer} (h : s.Timely state delay requests) (hp : Prompt delay i call s choice)
    (e : perform i call s choice = some (s', r)) (hk : s.Known i age p) : s'.WasSo s.now (age + delay) p := by
  have ⟨time, ht, _, hle⟩ := started_perform h hp e
  have ⟨start, hs, hw⟩ := hk.follow <| follows_perform e i
  cases ht.symm.trans hs
  exact hw.later (by omega)

-- A lookup changes no entry, and it yields none that has expired.
theorem lookup_spec {server server' : ServerState m} {entry : Option (CacheEntry m α)} {expired : Bool}
    {r : Option (Option α)} (e : server.lookup i { choice with expired } entry = some (server', r)) :
    server'.cache = server.cache ∧
      ∀ a ∈ r, ∀ value, a = some value → expired = false ∧ ∃ seen, entry = some ⟨value, seen⟩ := by
  cases entry
  case none =>
    cases e
    exact ⟨rfl, by rintro _ ⟨⟩ _ ⟨⟩⟩
  case some entry =>
    simp only [ServerState.lookup] at e
    split at e <;> cases e
    case isTrue  => exact ⟨rfl, by rintro _ ⟨⟩ _ ⟨⟩⟩
    case isFalse hx => exact ⟨rfl, by rintro _ ⟨⟩ _ ⟨⟩; exact ⟨Bool.not_eq_true _ |>.mp hx, _, rfl⟩⟩

-- The common part of all turns.
theorem Timely.turn {r : Option call.Answer} (h : s.Timely state delay requests) (e : perform i call s choice = some (s', r)) :
    moment s'.now s'.server ∈ s'.history ∧ ∀ i time, s'.started i = some time → time ≤ s'.now := by
  have ⟨server, _, e⟩ := perform_eq_some e
  subst e
  refine ⟨List.mem_append_right _ <| List.mem_singleton_self _, fun j time ht => ?_⟩
  by_cases hj : j = i
  case neg => exact h.started j time <| by simpa [Function.update_of_ne hj] using ht
  case pos =>
    subst hj
    cases hs : s.started j <;> simp [hs] at ht <;> subst ht
    case none      => exact le_refl _
    case some time => exact h.started j time hs

-- A turn that at most drops entries of the cache.
theorem Timely.move (h : s.Timely state delay requests) (hs : s.history ⊆ s'.history)
    (hc : moment s'.now s'.server ∈ s'.history ∧ ∀ i time, s'.started i = some time → time ≤ s'.now)
    (hi : s'.inserted = s.inserted)
    (hthresholds : ∀ n entry, s'.server.cache.thresholds n = some entry → s.server.cache.thresholds n = some entry)
    (hcids : ∀ n entry, s'.server.cache.cids n = some entry → s.server.cache.cids n = some entry)
    (hgraphs : ∀ key entry, s'.server.cache.graphs key = some entry → s.server.cache.graphs key = some entry)
    (hr : ∀ r ∈ s'.responses, r ∈ s.responses ∨
      Tells state delay (requests r.tx) r.result fun age => s'.WasSo r.time (age + delay)) :
    s'.Timely state delay requests where
  current        := hc.1
  started        := hc.2
  counts         := by rw [hi]; exact h.counts.mono hs hthresholds
  thresholds     := by rw [hi]; exact h.thresholds.mono hs hthresholds
  cids           := by rw [hi]; exact h.cids.mono hs hcids
  graphs         := by rw [hi]; exact h.graphs.mono hs hgraphs
  responses r hm := (hr r hm).elim (fun hm => (h.responses r hm).imp fun _ _ hw => hw.mono hs) id

theorem Timely.still (h : s.Timely state delay requests) (hs : s.history ⊆ s'.history)
    (hc : moment s'.now s'.server ∈ s'.history ∧ ∀ i time, s'.started i = some time → time ≤ s'.now)
    (hi : s'.inserted = s.inserted) (hcache : s'.server.cache = s.server.cache) (hr : s'.responses = s.responses) :
    s'.Timely state delay requests := by
  refine h.move hs hc hi ?_ ?_ ?_ fun r hm => .inl <| hr ▸ hm
  all_goals rw [hcache]; exact fun _ _ => id

theorem Timely.elapse {duration : Nat} (h : s.Timely state delay requests) (e : s.elapse duration = some s') :
    s'.Timely state delay requests := by
  cases e
  refine h.still (List.subset_append_left ..) ⟨?_, fun i time ht => ?_⟩ rfl rfl rfl
  · exact List.mem_append_right _ <| List.mem_singleton_self _
  · exact (h.started i time ht).trans <| Nat.le_add_right ..

-- What the requests rely on is that the past is kept.
def protocol (state : AppState) (delay : Nat) (requests : Fin m → Request) : Pool.Protocol (Fin m) Call (TimedServer m) where
  Inv        := Timely state delay requests
  Rely       := Follows
  Wait i _   := Follows i
  refl       := Follows.refl
  trans      := Follows.trans
  wait_rely  := id
  wait_trans := Follows.trans

theorem perform_spec {r : Option call.Answer} (h : s.Timely state delay requests)
    (hc : Permits state delay requests i call s) (hp : Prompt delay i call s choice)
    (e : perform i call s choice = some (s', r)) :
    s'.Timely state delay requests ∧ ∀ a ∈ r, Learns delay i call a s' := by
  have hturn := h.turn e
  have hf := (follows_perform e i).history
  have known {p} (hk : s.Known i 0 p) : s'.WasSo s.now delay p := by
    have hw := wasSo_of_known h hp e hk
    rwa [Nat.zero_add] at hw
  have ⟨server, he, hs'⟩ := perform_eq_some e
  have hcache : s'.server.cache = server.cache := by rw [hs']
  have hinserted : s'.inserted = s.insert call := by rw [hs']
  have hresponses : s'.responses = s.respond i call := by rw [hs']
  have hkept (hr : s'.responses = s.responses) : ∀ r ∈ s'.responses,
      Tells state delay (requests r.tx) r.result fun age => s'.WasSo r.time (age + delay) :=
    fun r hm => (h.responses r <| hr ▸ hm).imp fun _ _ hw => hw.mono hf
  cases call
  case spawnBlocking =>
    cases he
    exact ⟨h.still hf hturn hinserted hcache hresponses, fun _ _ => trivial⟩
  case store query =>
    refine ⟨h.still hf hturn hinserted (hcache.trans (ServerState.query_frame he).1) hresponses, ?_⟩
    cases query
    case leaderboardCount n =>
      unfold ServerState.perform ServerState.query at he
      cases ServerState.read_cases he
      case ok    => rintro _ ⟨⟩ _ ⟨⟩; exact known_now h hp e rfl
      case fails => rintro _ ⟨⟩ _ ⟨⟩
    case leaderboardThreshold n =>
      unfold ServerState.perform ServerState.query at he
      cases ServerState.read_cases he
      case ok    => rintro _ ⟨⟩ _ ⟨⟩; exact known_now h hp e ⟨_, rfl⟩
      case fails => rintro _ ⟨⟩ _ ⟨⟩
    case getLeaderboardCids n since =>
      unfold ServerState.perform ServerState.query at he
      cases ServerState.read_cases he
      case ok    => rintro _ ⟨⟩ _ ⟨⟩; exact known_now h hp e ⟨_, rfl⟩
      case fails => rintro _ ⟨⟩ _ ⟨⟩
    case getLeaderboardGraphs n limit offset =>
      unfold ServerState.perform ServerState.query at he
      cases ServerState.read_cases he
      case ok    => rintro _ ⟨⟩ rows hrows; exact known_now h hp e ⟨_, rows, hrows, rfl⟩
      case fails => rintro _ ⟨⟩ _ ⟨⟩
    all_goals exact fun _ _ => trivial
  case getThreshold n =>
    have ⟨hl, hv⟩ := lookup_spec he
    refine ⟨h.still hf hturn hinserted (hcache.trans hl) hresponses, fun a ha value hav => ?_⟩
    have ⟨hx, seen, he⟩ := hv a ha value hav
    have hx := Nat.le_of_not_lt <| of_decide_eq_false hx
    exact ⟨known_cached h hp e (h.counts n _ he) hx, known_cached h hp e (h.thresholds n _ he) hx⟩
  case getCids n =>
    have ⟨hl, hv⟩ := lookup_spec he
    refine ⟨h.still hf hturn hinserted (hcache.trans hl) hresponses, fun a ha value hav => ?_⟩
    have ⟨hx, seen, he⟩ := hv a ha value hav
    exact known_cached h hp e (h.cids n _ he) <| Nat.le_of_not_lt <| of_decide_eq_false hx
  case getGraphs n limit offset =>
    have ⟨hl, hv⟩ := lookup_spec he
    refine ⟨h.still hf hturn hinserted (hcache.trans hl) hresponses, fun a ha value hav => ?_⟩
    have ⟨hx, seen, he⟩ := hv a ha value hav
    exact known_cached h hp e (h.graphs (n, limit, offset) _ he) <| Nat.le_of_not_lt <| of_decide_eq_false hx
  case setThreshold n count threshold =>
    cases he
    refine ⟨⟨hturn.1, hturn.2, ?_, ?_, ?_, ?_, hkept hresponses⟩, fun _ _ => trivial⟩
    all_goals rw [hcache, hinserted]
    · exact h.counts.insert hf <| known hc.1
    · exact h.thresholds.insert hf <| known hc.2
    · exact h.cids.mono hf fun _ _ => id
    · exact h.graphs.mono hf fun _ _ => id
  case setCids n cids =>
    cases he
    refine ⟨⟨hturn.1, hturn.2, ?_, ?_, ?_, ?_, hkept hresponses⟩, fun _ _ => trivial⟩
    all_goals rw [hcache, hinserted]
    · exact h.counts.mono hf fun _ _ => id
    · exact h.thresholds.mono hf fun _ _ => id
    · exact h.cids.insert hf <| known hc
    · exact h.graphs.mono hf fun _ _ => id
  case setGraphs n limit offset items =>
    cases he
    refine ⟨⟨hturn.1, hturn.2, ?_, ?_, ?_, ?_, hkept hresponses⟩, fun _ _ => trivial⟩
    all_goals rw [hcache, hinserted]
    · exact h.counts.mono hf fun _ _ => id
    · exact h.thresholds.mono hf fun _ _ => id
    · exact h.cids.mono hf fun _ _ => id
    · exact h.graphs.insert hf <| known hc
  case remove map n =>
    cases he
    refine ⟨h.move hf hturn hinserted ?_ ?_ ?_ fun r hm => .inl <| by rw [hresponses] at hm; exact hm, fun _ _ => trivial⟩
    all_goals rw [hcache]
    · exact (LeaderboardCache.remove_subset map n).1
    · exact (LeaderboardCache.remove_subset map n).2.1
    · exact (LeaderboardCache.remove_subset map n).2.2
  case respond result =>
    cases he
    refine ⟨h.move hf hturn hinserted ?_ ?_ ?_ fun r hm => ?_, fun _ _ => trivial⟩
    case refine_4 =>
      rw [hresponses] at hm
      refine (List.mem_append.mp hm).imp_right fun hm => ?_
      cases List.mem_singleton.mp hm
      exact Tells.imp hc fun _ _ hk => wasSo_of_known h hp e hk
    all_goals rw [hcache]; exact fun _ _ => id

end Turns

section Handlers

open Handler

variable {α β : Type} {K : TimedServer m → Prop} {R : α → TimedServer m → Prop} {n : Int32}

-- A handler that keeps the protocol, and what is known of its result.
abbrev Does (state : AppState) (delay : Nat) (requests : Fin m → Request) (i : Fin m) (p : Handler α)
    (R : α → TimedServer m → Prop) (s : TimedServer m) : Prop :=
  (protocol state delay requests).Safe perform (Prompt delay) i (fun r s => ∀ a, r = .ok a → R a s) p s

-- What a handler knows stays known.
def Stable (i : Fin m) (K : TimedServer m → Prop) : Prop :=
  ∀ {s s'}, Follows i s s' → K s → K s'

theorem stable_known : Stable i (·.Known i age p) :=
  fun hs hk => hk.follow hs

theorem safe_call {ε : Type} {Q : Except ε α → TimedServer m → Prop} {next : call.Answer → Program Call Call.Answer ε α}
    (hK : Stable i K) (hs : K s) (hc : ∀ {s}, K s → Permits state delay requests i call s)
    (hnext : ∀ {a s}, s.Timely state delay requests → K s → Learns delay i call a s →
      (protocol state delay requests).Safe perform (Prompt delay) i Q (next a) s) :
    (protocol state delay requests).Safe perform (Prompt delay) i Q (.call call next) s := by
  refine Pool.Protocol.Safe.call K (Learns delay i call) hs hK (fun hi hk hp e => ?_) hnext
  have ⟨hi', ha⟩ := perform_spec hi (hc hk) hp e
  exact ⟨⟨hi', fun j _ => follows_perform e j⟩, follows_perform e i, ha⟩

theorem does_ret {a : α} (hR : Stable i (R a)) (h : R a s) : Does state delay requests i (.ret a) R s := by
  rintro s' hs _ _ ⟨⟩
  exact hR hs h

theorem does_throw {e : ApiError} : Does state delay requests i (.throw e) R s :=
  fun _ _ _ _ => nofun

theorem does_ofExcept {x : Except ApiError α} : Does state delay requests i (.ofExcept x) (fun _ _ => True) s := by
  cases x
  case ok    => exact does_ret (fun _ => id) trivial
  case error => exact does_throw

theorem does_bind {p : Handler β} {f : β → Handler α} {T : β → TimedServer m → Prop} (hi : s.Timely state delay requests)
    (h : Does state delay requests i p T s)
    (hf : ∀ {b s}, s.Timely state delay requests → T b s → Does state delay requests i (f b) R s) :
    Does state delay requests i (p >>= f) R s :=
  Pool.Protocol.Safe.bind hi h (fun b _ hi hb => hf hi <| hb b rfl) fun _ _ _ _ => nofun

theorem does_perform_bind {f : call.Answer → Handler α} (hK : Stable i K) (hs : K s)
    (hc : ∀ {s}, K s → Permits state delay requests i call s)
    (hf : ∀ {a s}, s.Timely state delay requests → K s → Learns delay i call a s → Does state delay requests i (f a) R s) :
    Does state delay requests i (.perform call >>= f) R s :=
  safe_call hK hs hc hf

theorem does_store_bind {query : Query} {f : query.Answer → Handler α} (hK : Stable i K) (hs : K s)
    (hf : ∀ {a s}, s.Timely state delay requests → K s → Learns delay i (.store query) (.ok a) s →
      Does state delay requests i (f a) R s) :
    Does state delay requests i (store query >>= f) R s := by
  refine safe_call hK hs (fun _ => trivial) fun {r _} hi hk hl => ?_
  cases r
  case ok    => exact hf hi hk hl
  case error => exact does_throw

theorem does_store {query : Query} {R : query.Answer → TimedServer m → Prop}
    (h : ∀ {a s}, Learns delay i (.store query) (.ok a) s → Does state delay requests i (.ret a) R s) :
    Does state delay requests i (store query) R s := by
  refine safe_call (K := fun _ => True) (fun _ => id) trivial (fun _ => trivial) fun {r _} _ _ hl => ?_
  cases r
  case ok    => exact h hl
  case error => exact does_throw

theorem stable_tells {request : Request} {result : Except ApiError Response} :
    Stable i fun s => Tells state delay request result (s.Known i) :=
  fun hs h => h.imp fun _ _ h => h.follow hs

theorem stable_true : Stable i fun _ => True :=
  fun _ => id

theorem does_getThreshold : Does state delay requests i (getThreshold state n)
    (fun response s => Tells state delay (.threshold n) (.ok <| .threshold response) (s.Known i)) s := by
  refine does_perform_bind stable_true trivial (fun _ => trivial) fun {cached _} _ _ hl => ?_
  cases cached
  case some value =>
    have ⟨hc, ht⟩ := hl value rfl
    exact does_ret stable_tells ⟨hc, value.2, ht, rfl⟩
  case none =>
    refine does_store_bind stable_true trivial fun {count _} _ _ hl => ?_
    refine does_store_bind stable_known (hl count rfl) fun {threshold _} _ hc hl => ?_
    refine does_perform_bind (K := fun s => s.Known i 0 (·.HasCount n count) ∧ s.Known i 0 (·.HasThreshold n threshold))
      (fun hs h => ⟨h.1.follow hs, h.2.follow hs⟩) ⟨hc, hl threshold rfl⟩ id fun _ h _ => ?_
    exact does_ret stable_tells ⟨h.1.older (Nat.zero_le _), threshold, h.2.older (Nat.zero_le _), rfl⟩

theorem does_getCids (since : Option Nat) : Does state delay requests i (getCids n since)
    (fun cids s => Tells state delay (.cids n since) (.ok <| .cids cids) (s.Known i)) s := by
  cases since
  case some since =>
    exact does_store fun {cids _} hl => does_ret stable_tells (hl cids rfl)
  case none =>
    refine does_perform_bind stable_true trivial (fun _ => trivial) fun {cached _} _ _ hl => ?_
    cases cached
    case some cids => exact does_ret stable_tells (hl cids rfl)
    case none =>
      refine does_store_bind stable_true trivial fun {cids _} _ _ hl => ?_
      refine does_perform_bind stable_known (hl cids rfl) id fun _ h _ => ?_
      exact does_ret stable_tells (h.older <| Nat.zero_le _)

theorem does_getGraphs (limit offset : Int64) : Does state delay requests i (getGraphs n limit offset)
    (fun items s => Tells state delay (.graphs n limit offset) (.ok <| .graphs items) (s.Known i)) s := by
  refine does_perform_bind stable_true trivial (fun _ => trivial) fun {cached _} _ _ hl => ?_
  cases cached
  case some items => exact does_ret stable_tells (hl items rfl)
  case none =>
    refine does_store_bind stable_true trivial fun {rows _} _ _ hl => ?_
    refine does_perform_bind stable_known (hl rows rfl) id fun _ h _ => ?_
    exact does_ret stable_tells (h.older <| Nat.zero_le _)

theorem does_submitGraph (req : SubmitRequest) (hi : s.Timely state delay requests) :
    Does state delay requests i (submitGraph state req) (fun _ _ => True) s := by
  refine does_bind (T := fun _ _ => True) hi ?_ fun {scored _} hi _ => ?_
  case refine_1 =>
    refine does_bind hi does_ofExcept fun {matrix _} hi _ => ?_
    refine does_store_bind stable_true trivial fun {identity _} hi _ _ => ?_
    refine does_bind hi does_ofExcept fun _ _ => ?_
    refine does_perform_bind stable_true trivial (fun _ => trivial) fun {task _} _ _ _ => ?_
    cases task
    case ok    => exact does_ret stable_true trivial
    case error => exact does_throw
  case refine_2 =>
    refine does_store_bind stable_true trivial fun _ _ _ => ?_
    refine does_store_bind stable_true trivial fun _ _ _ => ?_
    refine does_store_bind stable_true trivial fun _ _ _ => ?_
    refine does_store_bind stable_true trivial fun {rank _} _ _ _ => ?_
    refine does_store_bind stable_true trivial fun {_ _} hi _ _ => ?_
    cases rank
    case none => exact does_ret stable_true trivial
    case some =>
      refine does_bind (T := fun _ _ => True) hi ?_ fun _ _ => does_ret stable_true trivial
      refine does_perform_bind stable_true trivial (fun _ => trivial) fun _ _ _ => ?_
      refine does_perform_bind stable_true trivial (fun _ => trivial) fun _ _ _ => ?_
      exact safe_call stable_true trivial (fun _ => trivial) fun _ _ _ => does_ret stable_true trivial

theorem does_handle (request : Request) (hi : s.Timely state delay requests) : Does state delay requests i (handle state request)
    (fun response s => Tells state delay request (.ok response) (s.Known i)) s := by
  cases request
  case submit req   => exact does_bind hi (does_submitGraph req hi) fun _ _ => does_ret stable_tells trivial
  case threshold n  => exact does_bind hi does_getThreshold fun _ h => does_ret stable_tells h
  case cids n since => exact does_bind hi (does_getCids since) fun _ h => does_ret stable_tells h
  case graphs n limit offset => exact does_bind hi (does_getGraphs limit offset) fun _ h => does_ret stable_tells h

theorem safe_serve (hi : s.Timely state delay requests) :
    (protocol state delay requests).Safe perform (Prompt delay) i (fun _ _ => True) (serve state (requests i)) s := by
  refine Pool.Protocol.Safe.attempt hi (does_handle (requests i) hi) fun result s hi h => ?_
  have hr : Tells state delay (requests i) result (s.Known i) := by
    cases result
    case ok response => exact h response rfl
    case error e     => unfold Tells; split <;> trivial
  exact safe_call stable_tells hr id fun _ _ _ => fun _ _ _ => trivial

theorem timely_init (tables : Tables) (rows : Rows) : (TimedServer.init tables rows).Timely state delay requests where
  current    := List.mem_singleton_self _
  started    := nofun
  counts     := nofun
  thresholds := nofun
  cids       := nofun
  graphs     := nofun
  responses  := nofun

end Handlers

-- Without its clock the server is one whose entries expire at any time.

def untimed (s : TimedPool m) : Server m where
  shared   := s.shared.server
  programs := s.programs

theorem step_untimed {s s' : TimedPool m} {input : (Fin m × Choice) ⊕ Nat} (e : TimedPool.step s input = some s') :
    untimed s' = untimed s ∨ ∃ turn, Server.step (untimed s) turn = some (untimed s') := by
  cases input
  case inr duration =>
    cases e
    exact .inl rfl
  case inl turn =>
    change Pool.step _ s turn = some s' at e
    have ⟨call, next, r, hc, hp⟩ := Pool.step_cases e
    have ⟨server, he, hs⟩ := perform_eq_some hp
    refine .inr ⟨(turn.1, { turn.2 with expired := s.shared.isExpired call }), ?_⟩
    have hu : (untimed s).programs turn.1 = .call call next := hc
    simp only [Pool.step, hc, hp] at e
    simp only [Server.step, Pool.step, hu]
    rw [show (untimed s).shared = s.shared.server from rfl, he]
    have hs' : s'.shared.server = server := by rw [hs]
    cases r <;> simp [untimed, hs', ← congrArg Pool.programs (Option.some.inj e)]

theorem run_untimed {tables : Tables} {rows : Rows} {P : TimedPool m → (Fin m × Choice) ⊕ Nat → Prop} {s : TimedPool m}
    (r : Machine.Run TimedPool.step P (TimedPool.init state requests tables rows) s) :
    Machine.Run Server.step (fun _ _ => True) (Server.init state requests tables rows) (untimed s) :=
  r.simulate untimed step_untimed

-- If every request is over `delay` after its first turn, then no response tells what has not been so for longer than the
-- time of an entry of the cache and twice the delay, whatever the order of the turns and of the admissions. What has
-- been asked for since a time does not come from the cache.
theorem staleness_bounded (state : AppState) (requests : Fin m → Request) (tables : Tables) (rows : Rows) (delay : Nat)
    {s : TimedPool m} (r : Machine.Run TimedPool.step (Pool.AllowsWith <| Prompt delay)
      (TimedPool.init state requests tables rows) s) :
    ∀ r ∈ s.shared.responses, Tells state delay (requests r.tx) r.result fun age =>
      s.shared.WasSo r.time (age + delay) := by
  have h : s.shared.Timely state delay requests := by
    refine Pool.Protocol.Safe.pool_with_allows r (fun hi e => ?_)
      (timely_init tables rows) fun i => safe_serve <| timely_init tables rows
    exact ⟨hi.elapse e, follows_elapse e⟩
  exact h.responses

-- Two requests for the threshold of a board. Ten seconds after the first one the second one finds its answer in the cache.

def twoThresholds : Fin 2 → Request :=
  fun _ => .threshold 3

def noTables : Tables :=
  { identities := [], graphs := [], scores := [], submissions := [], receipts := [] }

def tenSecondsLater : List ((Fin 2 × Choice) ⊕ Nat) :=
  List.replicate 5 (.inl <| ReferenceServer.turn ⟨0, Nat.zero_lt_two⟩ .none) ++ [.inr 10000] ++
    List.replicate 2 (.inl <| ReferenceServer.turn ⟨1, Nat.one_lt_two⟩ .none)

theorem threshold_staleness_bounded :
    ∃ s ∈ Machine.execute TimedPool.step (TimedPool.init (ReferenceServer.state 5) twoThresholds noTables []) tenSecondsLater,
      s.shared.responses.map (·.time) = [0, 10000] ∧
      ∀ r ∈ s.shared.responses, Tells (ReferenceServer.state 5) 0 (twoThresholds r.tx) r.result fun age =>
        s.shared.WasSo r.time (age + 0) := by
  have ⟨s, e, hr⟩ : ∃ s ∈ Machine.execute (Machine.guarded TimedPool.step <| Pool.AllowsWith <| Prompt 0)
      (TimedPool.init (ReferenceServer.state 5) twoThresholds noTables []) tenSecondsLater,
      s.shared.responses.map (·.time) = [0, 10000] := by
    decide +kernel
  have ⟨e', _⟩ := Machine.along_of_guarded e
  exact ⟨s, e', hr, staleness_bounded (ReferenceServer.state 5) twoThresholds noTables [] 0 <| Machine.Run.of_guarded e⟩

end TimedServer
