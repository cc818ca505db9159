import Extremal.Server.Identity
import Extremal.Server.Theorems.Records
import Extremal.Types.Theorems.Identity

open Lexicographic Store

section Registry

variable {setup : KeySetup} {rows : List IdentityRow} {row row' : IdentityRow}

-- The key ID of a row is the one that belongs to its public key.
def Store.IdentityRow.Certified (crates : IdentityCrates) (row : IdentityRow) : Prop :=
  SigningIdentity.computeKeyIdFromHex crates row.publicKey = .ok row.keyId

theorem RegisterKeyRequest.certified_row {req : RegisterKeyRequest} {now : Nat}
    (e : req.row setup.crates now = .ok row) : row.Certified setup.crates := by
  rw [RegisterKeyRequest.row] at e
  cases hk : SigningIdentity.computeKeyIdFromHex setup.crates req.publicKey <;> rw [hk] at e
  case error => cases e
  case ok keyId =>
    cases e
    exact hk

-- Rows with certified keys never repeat a public key.
theorem registerIdentity_eq_ok (h : ∀ row ∈ rows, row.Certified setup.crates) (hr : row.Certified setup.crates) :
    registerIdentity rows row = .ok (Upsert.upsert (·.keyId) IdentityRow.merge rows row) := by
  refine if_neg fun hc => ?_
  have ⟨hk, hp⟩ := Bool.and_eq_true_iff.mp hc
  obtain ⟨row', hm, hp⟩ := List.any_eq_true.mp hp
  have he := h row' hm
  rw [IdentityRow.Certified, of_decide_eq_true hp] at he
  have hk : row'.keyId ≠ row.keyId := of_decide_eq_true <| List.all_eq_true.mp hk row' hm
  exact hk <| Except.ok.inj <| he.symm.trans hr

-- What the registrations with one key ID make of its row.
def history (offers : List IdentityRow) : Option IdentityRow :=
  offers.head?.map fun first =>
    { first with
      displayName := (offers.filterMap (·.displayName)).getLast?
      githubRepo  := (offers.filterMap (·.githubRepo)).getLast? }

theorem getLast?_filterMap_concat {f : α → Option β} {l : List α} {a : α} :
    ((l ++ [a]).filterMap f).getLast? = (f a <|> (l.filterMap f).getLast?) := by
  rw [List.filterMap_append, List.getLast?_append]
  cases h : f a <;> simp [h]

theorem foldl_collect (offers : List IdentityRow) :
    offers.foldl (Upsert.collect IdentityRow.merge) none = history offers := by
  induction offers using List.reverseRecOn
  case nil => rfl
  case append_singleton offers offer ih =>
    rw [List.foldl_append, ih, List.foldl_cons, List.foldl_nil]
    cases offers
    case nil => simp [history, Upsert.collect]
    case cons first offers =>
      simp only [history, List.head?_cons, List.cons_append, Option.map_some, Upsert.collect, Option.elim_some,
        IdentityRow.merge, ← getLast?_filterMap_concat]

end Registry

namespace KeyTurn

-- The row of a registration whose statement takes effect.
def offer (setup : KeySetup) : KeyTurn m → Option IdentityRow
  | .turn _                 => none
  | .register req fault now => if fault.hasEffect then (req.row setup.crates now).toOption else none

end KeyTurn

namespace KeyServer

variable {setup : KeySetup} {state : AppState} {requests : Fin m → Request} {s s' : KeyServer m} {input : KeyTurn m}

-- The table is what the registrations so far have made of it.
structure Registered (setup : KeySetup) (inputs : List (KeyTurn m)) (s : KeyServer m) : Prop where
  keys       : s.keys = (inputs.filterMap (·.offer setup)).foldl (Upsert.upsert (·.keyId) IdentityRow.merge) []
  certified  : ∀ row ∈ s.keys, row.Certified setup.crates
  identities : s.server.shared.tables.identities = s.keys.map (·.toIdentity)

theorem Write.identities {s s' : ServerState m} {tables : Tables} {answer : α} {r : Option (Except StoreError α)}
    (h : ServerState.Write s tables answer s' r) (ht : tables.identities = s.tables.identities) :
    s'.tables.identities = s.tables.identities := by
  cases h
  case ok | lost => exact ht
  case fails     => rfl

theorem query_identities {i : Fin m} {query : Query} {s s' : ServerState m} {choice : Choice}
    {r : Option (Except StoreError query.Answer)} (e : s.query i choice query = some (s', r)) :
    s'.tables.identities = s.tables.identities := by
  cases query
  case storeGraph graph =>
    refine Write.identities (ServerState.write_cases e) ?_
    rw [Tables.storeGraph]
    split <;> rfl
  case storeScore score =>
    refine Write.identities (ServerState.write_cases e) ?_
    rw [Tables.storeScore]
    split <;> rfl
  case getIdentity | storeSubmission | storeReceipt => exact Write.identities (ServerState.write_cases e) rfl
  case tryAdmit => cases ServerState.tryAdmit_cases e <;> rfl
  case leaderboardCount | leaderboardThreshold | getLeaderboardCids | getLeaderboardGraphs =>
    unfold ServerState.query at e
    cases ServerState.read_cases e <;> rfl

theorem step_identities {server server' : Server m} {turn : Fin m × Choice} (e : server.step turn = some server') :
    server'.shared.tables.identities = server.shared.tables.identities := by
  have ⟨call, _, r, _, hp⟩ := Pool.step_cases e
  by_cases hc : ∃ query, call = .store query
  case pos =>
    obtain ⟨query, rfl⟩ := hc
    exact query_identities hp
  case neg =>
    have ⟨ht, _⟩ := ServerState.perform_stored (fun query h => hc ⟨query, h⟩) hp
    rw [ht]

-- A registration is refused, or it merges a certified row into the table.
theorem registerKey_cases (req : RegisterKeyRequest) (fault : Fault) (now : Nat)
    (h : ∀ row ∈ s.keys, row.Certified setup.crates) : ∃ result,
    s.registerKey setup req fault now = s.respond result ∧ KeyTurn.offer (m := m) setup (.register req fault now) = none ∨
    ∃ row, row.Certified setup.crates ∧ KeyTurn.offer (m := m) setup (.register req fault now) = some row ∧
      s.registerKey setup req fault now =
        (s.setKeys <| Upsert.upsert (·.keyId) IdentityRow.merge s.keys row).respond result := by
  rw [registerKey, KeyTurn.offer]
  cases hr : req.row setup.crates now
  case error e => exact ⟨_, .inl ⟨rfl, by simp [Except.toOption]⟩⟩
  case ok row =>
    have hc := RegisterKeyRequest.certified_row hr
    simp only [registerIdentity_eq_ok h hc]
    cases fault
    case fails e => exact ⟨_, .inl ⟨rfl, rfl⟩⟩
    case lost e  => exact ⟨_, .inr ⟨row, hc, rfl, rfl⟩⟩
    case none =>
      simp only [Fault.error, Fault.hasEffect, if_true]
      split <;> exact ⟨_, .inr ⟨row, hc, rfl, rfl⟩⟩

theorem Registered.step {inputs : List (KeyTurn m)} (h : s.Registered setup inputs)
    (e : s.step setup input = some s') : s'.Registered setup (inputs ++ [input]) := by
  cases input
  case turn turn =>
    obtain ⟨server, hs, he⟩ := Option.map_eq_some_iff.mp e
    subst he
    refine ⟨by simpa [KeyTurn.offer] using h.keys, h.certified, ?_⟩
    exact (step_identities hs).trans h.identities
  case register req fault now =>
    cases e
    obtain ⟨result, hr⟩ := registerKey_cases req fault now h.certified
    rcases hr with ⟨hr, ho⟩ | ⟨row, hc, ho, hr⟩ <;> rw [hr]
    case inl => exact ⟨by simpa [ho, respond] using h.keys, h.certified, h.identities⟩
    case inr =>
      refine ⟨?_, fun row' hm => ?_, rfl⟩
      · simp [ho, respond, setKeys, h.keys]
      · rcases Upsert.mem_upsert hm with hm | ⟨rfl, _⟩ | ⟨row'', hm', _, rfl⟩
        · exact h.certified row' hm
        · exact hc
        · exact h.certified row'' hm'

theorem registered_init : (init state requests : KeyServer m).Registered setup [] :=
  ⟨rfl, nofun, rfl⟩

-- In every run the table has one row for each registered key: with the key ID of its public key, with the public key
-- and the time of the first registration, and with the last name and repository that were given.
theorem keys_registered (setup : KeySetup) (state : AppState) (requests : Fin m → Request) (inputs : List (KeyTurn m))
    (s : KeyServer m) (e : Machine.execute (step setup) (init state requests) inputs = some s) :
    (s.keys.map (·.keyId)).Nodup ∧ (∀ row ∈ s.keys, row.Certified setup.crates) ∧
      s.server.shared.tables.identities = s.keys.map (·.toIdentity) ∧
      ∀ keyId, s.keys.find? (·.keyId = keyId) =
        history ((inputs.filterMap (·.offer setup)).filter (·.keyId = keyId)) := by
  have h : s.Registered setup inputs := Machine.execute_invariant (Registered setup) Registered.step registered_init e
  have hm (row new : IdentityRow) : (row.merge new).keyId = row.keyId := rfl
  refine ⟨?_, h.certified, h.identities, fun keyId => ?_⟩
  · let P (rows : List IdentityRow) : Prop := (rows.map (·.keyId)).Nodup
    have hp : P (List.foldl (Upsert.upsert (·.keyId) IdentityRow.merge) [] (inputs.filterMap (·.offer setup))) :=
      Loop.foldl_induction P (fun rows row _ hn => Upsert.nodup_upsert hm hn) .nil
    rwa [h.keys]
  · rw [h.keys, Upsert.find?_foldl hm]
    exact foldl_collect _

end KeyServer

namespace ReferenceKeys

def setup : KeySetup where
  crates     := ReferenceIdentity.crates
  describe _ := "error"

def registration (displayName : Option String) : RegisterKeyRequest where
  publicKey   := ReferenceIdentity.identity.publicKeyHex ReferenceIdentity.crates
  displayName := displayName
  githubRepo  := none

-- A key is registered with a name and, later, without one.
def registrations (m : Nat) : List (KeyTurn m) :=
  [.register (registration "name") .none 1, .register (registration none) .none 2]

end ReferenceKeys

open ReferenceKeys in
theorem KeyServer.twice_registered :
    ∃ s, Machine.execute (step setup) (init (ReferenceServer.state 5) Fin.elim0) (registrations 0) = some s ∧
      s.keys.map (fun row => (row.displayName, row.createdAt)) = [(some "name", 1)] ∧ (s.keys.map (·.keyId)).Nodup := by
  have ⟨s, e, hk⟩ : ∃ s ∈ Machine.execute (step setup) (init (ReferenceServer.state 5) Fin.elim0) (registrations 0),
      s.keys.map (fun row => (row.displayName, row.createdAt)) = [(some "name", 1)] := by decide +kernel
  exact ⟨s, e, hk, keys_registered setup _ Fin.elim0 (registrations 0) s e |>.1⟩
