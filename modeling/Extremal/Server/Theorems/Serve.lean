import Extremal.Server.Serve
import Extremal.Store.Theorems.Versions

namespace ServerState

variable {s s' : ServerState m} {i : Fin m} {choice : Choice}

-- What a turn of a call may do.

inductive Lookup (s : ServerState m) (i : Fin m) (entry : Option (CacheEntry m α)) :
    ServerState m → Option (Option α) → Prop
  | miss : Lookup s i entry s (some none)
  | hit (h : entry = some e) : Lookup s i entry (s.hold i e.seen) (some <| some e.value)

theorem lookup_cases {entry : Option (CacheEntry m α)} {r : Option (Option α)}
    (h : s.lookup i choice entry = some (s', r)) : Lookup s i entry s' r := by
  cases entry
  case none =>
    cases h
    exact .miss
  case some e =>
    simp only [lookup] at h
    split at h <;> cases h
    case isTrue  => exact .miss
    case isFalse => exact .hit rfl

inductive Write (s : ServerState m) (tables : Store.Tables) (answer : α) :
    ServerState m → Option (Except StoreError α) → Prop
  | ok : Write s tables answer { s with tables } (some <| .ok answer)
  | fails : Write s tables answer s (some <| .error e)
  | lost : Write s tables answer { s with tables } (some <| .error e)

theorem write_cases {tables : Store.Tables} {answer : α} {r : Option (Except StoreError α)}
    (h : s.write choice tables answer = some (s', r)) : Write s tables answer s' r := by
  rw [write] at h
  cases hf : choice.fault <;> rw [hf] at h <;> cases h
  case none  => exact .ok
  case fails => exact .fails
  case lost  => exact .lost

inductive Read (s : ServerState m) (i : Fin m) (answer : Rows → Except StoreError α) :
    ServerState m → Option (Except StoreError α) → Prop
  | ok : Read s i answer (s.hold i s.database.isCommitted) (some <| answer s.database.committedRows)
  | fails : Read s i answer s (some <| .error e)

theorem read_cases {answer : Rows → Except StoreError α} {r : Option (Except StoreError α)}
    (h : s.read i choice answer = some (s', r)) : Read s i answer s' r := by
  rw [read] at h
  split at h <;> cases h
  case h_1 => exact .ok
  case h_2 => exact .fails

inductive Admit (s : ServerState m) (i : Fin m) (choice : Choice) (offer : Offer) :
    ServerState m → Option (Except StoreError (Option Int32)) → Prop
  | ok (h : s.database.phase i = .committed admitted) (hf : choice.fault = .none) :
    Admit s i choice offer s (some <| .ok admitted)
  | lost (h : s.database.phase i = .committed admitted) (hf : choice.fault = .lost e) :
    Admit s i choice offer s (some <| .error e)
  | moves (h : s.database.step (fun _ => offer) ⟨i, choice.scan, choice.row⟩ = some next) :
    Admit s i choice offer { s with database := next } none
  | fails (h : ¬s.database.isCommitted i) :
    Admit s i choice offer { s with database := s.database.rollback i } (some <| .error e)

theorem tryAdmit_cases {offer : Offer} {r : Option (Except StoreError (Option Int32))}
    (h : s.tryAdmit i choice offer = some (s', r)) : Admit s i choice offer s' r := by
  rw [tryAdmit] at h
  split at h
  case h_1 hp hf =>
    cases h
    exact .ok hp hf
  case h_2 hp hf =>
    cases h
    exact .lost hp hf
  case h_3 => cases h
  case h_4 =>
    have ⟨_, hd, h⟩ := Option.map_eq_some_iff.mp h
    cases h
    exact .moves hd
  case h_5 _ hp =>
    cases h
    refine .fails fun hc => ?_
    have ⟨_, hc⟩ := Phase.isCommitted_iff.mp hc
    exact hp _ hc
  case h_6 => cases h

end ServerState

-- The calls of the requests that only read.
def Call.IsRead : Call → Prop
  | .getThreshold _ | .setThreshold _ _ _ | .getCids _ | .setCids _ _ | .getGraphs _ _ _ | .setGraphs _ _ _ _ => True
  | .store (.leaderboardCount _) | .store (.leaderboardThreshold _) | .store (.getLeaderboardCids _ _)        => True
  | .store (.getLeaderboardGraphs _ _ _)                                                                      => True
  | _                                                                                                         => False

namespace Handler

variable {state : AppState} {α : Type}

abbrev OnlyReads (p : Handler α) : Prop :=
  p.Meets Call.IsRead (fun _ _ => True) fun _ => True

theorem onlyReads_store {query : Store.Query} {f : query.Answer → Handler α} (hc : (Call.store query).IsRead)
    (hf : ∀ a, OnlyReads (f a)) : OnlyReads (store query >>= f) := by
  refine ⟨hc, fun r _ => ?_⟩
  rcases r with e | a
  case error => trivial
  case ok    => exact hf a

theorem onlyReads_getThreshold (n : Int32) : OnlyReads (getThreshold state n) := by
  refine ⟨trivial, fun cached _ => ?_⟩
  cases cached
  case some => trivial
  case none =>
    refine onlyReads_store trivial fun count => ?_
    refine onlyReads_store trivial fun threshold => ?_
    exact ⟨trivial, fun _ _ => trivial⟩

theorem onlyReads_getCids (n : Int32) (since : Option Nat) : OnlyReads (getCids n since) := by
  cases since
  case some time =>
    have h : OnlyReads (store (.getLeaderboardCids n time) >>= .ret) := onlyReads_store trivial fun _ => trivial
    rwa [Program.bind_ret] at h
  case none =>
    refine ⟨trivial, fun cached _ => ?_⟩
    cases cached
    case some => trivial
    case none => exact onlyReads_store trivial fun cids => ⟨trivial, fun _ _ => trivial⟩

theorem onlyReads_getGraphs (n : Int32) (limit offset : Int64) : OnlyReads (getGraphs n limit offset) := by
  refine ⟨trivial, fun cached _ => ?_⟩
  cases cached
  case some => trivial
  case none => exact onlyReads_store trivial fun rows => ⟨trivial, fun _ _ => trivial⟩

-- Only a request to submit a graph is answered as such.
theorem reads_handle {request : Request} (h : ∀ req, request ≠ .submit req) :
    (handle state request).Meets Call.IsRead (fun _ _ => True) fun r => ∀ response, r ≠ .ok (.submitted response) := by
  cases request
  case submit req            => exact absurd rfl <| h req
  case threshold n           => exact Program.Meets.bind (onlyReads_getThreshold n) (fun _ _ => nofun) fun _ _ => nofun
  case cids n since          => exact Program.Meets.bind (onlyReads_getCids n since) (fun _ _ => nofun) fun _ _ => nofun
  case graphs n limit offset =>
    exact Program.Meets.bind (onlyReads_getGraphs n limit offset) (fun _ _ => nofun) fun _ _ => nofun

end Handler

namespace ReferenceServer

-- A turn at time `0`, with rows that are met as they come.
def turn (i : Fin m) (fault : Fault) : Fin m × Choice :=
  (i, { fault, task := .ok (), now := 0, scan := .heap, row := 0, expired := false })

end ReferenceServer
